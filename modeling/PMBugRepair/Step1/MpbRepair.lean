import PMBugRepair.Step1.MpbSound

/-!
# `repairMPB` as a whole

The call appends its fences, and then either returns the thread unchanged with the flag down or
prints a solved thread with the flag raised. In both cases nothing is lost and the stores keep their
order; when the flag is raised, every way to persist that the printed order allows keeps the bug
from happening.
-/

namespace PMBugRepair

open Smt (Formula Term Model Solver Satisfies satisfies_congr)
open Schedule (Before position before_cons_iff)

/-- The thread holds a store `a` and, behind it, a store `b`. -/
def InOrder (thread : Trace) (a b : Id) : Prop :=
  ∃ first second : Stmt, Before thread first second ∧ first.op = .store ∧ first.id = a ∧
    second.op = .store ∧ second.id = b

theorem inOrder_filter_iff {thread : Trace} {a b : Id} :
    InOrder (thread.filter Stmt.isStore) a b ↔ InOrder thread a b := by
  constructor
  · rintro ⟨first, second, hbefore, hrest⟩
    exact ⟨first, second, hbefore.of_filter, hrest⟩
  · rintro ⟨first, second, hbefore, hfirst, ha, hsecond, hb⟩
    exact ⟨first, second, hbefore.filter (by simpa using hfirst) (by simpa using hsecond), hfirst,
      ha, hsecond, hb⟩

theorem Conserves.inOrder_iff {thread thread' : Trace} (h : Conserves thread thread') {a b : Id} :
    InOrder thread' a b ↔ InOrder thread a b := by
  rw [← inOrder_filter_iff, h.stores, inOrder_filter_iff]

section Fences

variable {a b : Id} {thread : Trace}

theorem behindStore_eq_some {tail : Trace} (h : behindStore b thread = some tail) :
    ∃ pre store, thread = pre ++ store :: tail ∧ store.op = .store ∧ store.id = b := by
  induction thread with
  | nil => cases h
  | cons stmt rest ih =>
      rw [behindStore] at h
      split at h
      · rename_i hmatch
        cases h
        exact ⟨[], stmt, rfl, hmatch⟩
      · obtain ⟨pre, store, rfl, hstore⟩ := ih h
        exact ⟨stmt :: pre, store, rfl, hstore⟩

theorem behindStore_eq_none (h : behindStore b thread = none) :
    ∀ stmt ∈ thread, ¬(stmt.op = .store ∧ stmt.id = b) := by
  induction thread with
  | nil => simp
  | cons stmt rest ih =>
      rw [behindStore] at h
      split at h
      · cases h
      · rename_i hmatch
        exact List.forall_mem_cons.mpr ⟨hmatch, ih h⟩

theorem mpbFences_found (r : Nat) : (mpbFences a b thread r).1 = true ↔ InOrder thread a b := by
  induction thread generalizing r with
  | nil =>
      refine ⟨fun h => (by cases h), ?_⟩
      rintro ⟨first, second, hbefore, -⟩
      simpa using hbefore.mem.1
  | cons stmt rest ih =>
      have hcons : InOrder (stmt :: rest) a b ↔ (stmt.op = .store ∧ stmt.id = a ∧
          ∃ second ∈ rest, second.op = .store ∧ second.id = b) ∨ InOrder rest a b := by
        constructor
        · rintro ⟨first, second, hbefore, hfirst, ha, hsecond, hb⟩
          rcases before_cons_iff.mp hbefore with ⟨rfl, hmem⟩ | hbefore
          · exact .inl ⟨hfirst, ha, second, hmem, hsecond, hb⟩
          · exact .inr ⟨first, second, hbefore, hfirst, ha, hsecond, hb⟩
        · rintro (⟨hop, ha, second, hmem, hsecond, hb⟩ | ⟨first, second, hbefore, hrest⟩)
          · exact ⟨stmt, second, before_cons_iff.mpr (.inl ⟨rfl, hmem⟩), hop, ha, hsecond, hb⟩
          · exact ⟨first, second, before_cons_iff.mpr (.inr hbefore), hrest⟩
      rw [hcons, mpbFences]
      split
      · rename_i hmatch
        split
        · rename_i tail htail
          obtain ⟨pre, store, rfl, hstore, hb⟩ := behindStore_eq_some htail
          have hleft : stmt.op = .store ∧ stmt.id = a ∧ ∃ second ∈ pre ++ store :: tail,
              second.op = .store ∧ second.id = b :=
            ⟨hmatch.1, hmatch.2, store, by simp, hstore, hb⟩
          split <;> exact ⟨fun _ => .inl hleft, fun _ => rfl⟩
        · rename_i hnone
          rw [ih]
          refine ⟨.inr, fun h => h.resolve_left ?_⟩
          rintro ⟨-, -, second, hmem, hsecond⟩
          exact behindStore_eq_none hnone second hmem hsecond
      · rename_i hmatch
        rw [ih]
        exact ⟨.inr, fun h => h.resolve_left fun hleft => hmatch ⟨hleft.1, hleft.2.1⟩⟩

theorem mem_mpbFences {r : Nat} {fence : Stmt} (h : fence ∈ (mpbFences a b thread r).2) :
    ∃ store ∈ thread, store.op = .store ∧ store.id = a ∧ ∃ k, r ≤ k ∧
      k < r + (mpbFences a b thread r).2.length ∧
      fence = insertedStmt store (.insertedFence store.id k) .fence "0" := by
  induction thread generalizing r with
  | nil => cases h
  | cons stmt rest ih =>
      rw [mpbFences] at h ⊢
      split at h
      · rename_i hmatch
        simp only [hmatch, and_self, if_true]
        split at h
        · rename_i tail htail
          split at h
          · rename_i hcount
            simp only [hcount, if_true, List.length_cons]
            rcases List.mem_cons.mp h with rfl | h
            · exact ⟨stmt, List.mem_cons_self, hmatch.1, hmatch.2, r, le_rfl, by omega, by
                rw [hmatch.2]⟩
            · obtain ⟨store, hmem, hop, ha, k, hle, hlt, heq⟩ := ih h
              exact ⟨store, List.mem_cons_of_mem stmt hmem, hop, ha, k, by omega, by omega, heq⟩
          · rename_i hcount
            simp only [hcount, if_false]
            obtain ⟨store, hmem, hrest⟩ := ih h
            exact ⟨store, List.mem_cons_of_mem stmt hmem, hrest⟩
        · obtain ⟨store, hmem, hrest⟩ := ih h
          exact ⟨store, List.mem_cons_of_mem stmt hmem, hrest⟩
      · rename_i hmatch
        simp only [hmatch, if_false]
        obtain ⟨store, hmem, hrest⟩ := ih h
        exact ⟨store, List.mem_cons_of_mem stmt hmem, hrest⟩

theorem mpbFences_conserves (r : Nat) :
    Conserves thread (thread ++ (mpbFences a b thread r).2) := by
  have hins := Conserves.of_insert thread (mpbFences a b thread r).2 [] (by
    intro fence hfence
    obtain ⟨store, hmem, hop, -, k, -, -, rfl⟩ := mem_mpbFences hfence
    exact ⟨.inr rfl, store, by simpa using hmem, hop, k, .inr rfl⟩)
  simpa using hins

end Fences

section Repair

variable {z : Solver Var} {g : Globals} {thread : Trace} {a b : Id}
  {previous : List (Formula Var)} {out : Repair}

/-- The thread `repairMPB` solves for. -/
def fencedThread (g : Globals) (thread : Trace) (a b : Id) : Trace :=
  thread ++ (mpbFences a b thread g.r).2

theorem repairMPB_cases (h : repairMPB z g thread a b previous = some out) :
    transactionConstraints (fencedThread g thread a b) = some out.constraints ∧
      ((out.bugFlag = false ∧ out.thread = fencedThread g thread a b) ∨
        (out.bugFlag = true ∧ InOrder thread a b ∧
          ∃ m, Solved (fencedThread g thread a b) a b previous out.constraints m out.thread)) := by
  simp only [repairMPB, Option.bind_eq_bind, Option.bind_eq_some_iff] at h
  obtain ⟨transact, htransact, h⟩ := h
  change transactionConstraints (fencedThread g thread a b) = some transact at htransact
  split at h
  · cases h
  · split at h
    · cases h
      exact ⟨htransact, .inl ⟨rfl, rfl⟩⟩
    · rename_i hfound
      have horder : InOrder thread a b := (mpbFences_found g.r).mp (by simpa using hfound)
      cases hflag : out.bugFlag with
      | false =>
          obtain ⟨hthread, rfl⟩ := solveMPB_of_not_flag h hflag
          exact ⟨htransact, .inl ⟨rfl, hthread⟩⟩
      | true =>
          obtain ⟨rfl, m, hsolved⟩ := solveMPB_of_flag h hflag
          exact ⟨htransact, .inr ⟨rfl, horder, m, hsolved⟩⟩

theorem Solved.printed_nodup {transact : List (Formula Var)} {m : Model Var} {printed : Trace}
    (h : Solved thread a b previous transact m printed) : printed.Nodup :=
  h.perm.nodup_iff.mpr h.placement.ids_nodup.of_map

theorem Solved.before_iff {transact : List (Formula Var)} {m : Model Var} {printed : Trace}
    (h : Solved thread a b previous transact m printed) {x y : Stmt} (hx : x ∈ thread)
    (hy : y ∈ thread) : Before printed x y ↔ m.val (.pc x.id) < m.val (.pc y.id) := by
  rw [h.position x hx, h.position y hy]
  exact Schedule.before_iff_position_lt h.printed_nodup (h.perm.mem_iff.mpr hx)
    (h.perm.mem_iff.mpr hy)

/-- A solved thread is a rearrangement that keeps the stores in order. -/
theorem Solved.conserves {transact : List (Formula Var)} {m : Model Var} {printed : Trace}
    (h : Solved thread a b previous transact m printed) : Conserves thread printed := by
  refine ⟨⟨[], by simpa using h.perm, by simp⟩, ?_⟩
  have horder := (satisfies_mpbAssertions.mp h.model).1.order
  refine Schedule.eq_of_pairwise_lt (fun stmt => m.val (.pc stmt.id)) (h.perm.filter _) ?_ horder
  refine List.pairwise_iff_forall_sublist.mpr fun {x y} hsub => ?_
  have hbefore : Before printed x y := Before.of_filter hsub
  exact (h.before_iff (h.perm.mem_iff.mp hbefore.mem.1) (h.perm.mem_iff.mp hbefore.mem.2)).mp
    hbefore

theorem repairMPB_conserves (h : repairMPB z g thread a b previous = some out) :
    Conserves thread out.thread := by
  have hfences : Conserves thread (fencedThread g thread a b) := mpbFences_conserves g.r
  rcases (repairMPB_cases h).2 with ⟨-, heq⟩ | ⟨-, -, m, hsolved⟩
  · rw [heq]
    exact hfences
  · exact hfences.trans hsolved.conserves

/-- **Soundness of MPB repair.** With `pc` read as the place in the returned thread, all persist
times that respect the fences behind the two stores and the previous constraints persist `a` before
`b`. -/
theorem repairMPB_sound (h : repairMPB z g thread a b previous = some out)
    (hflag : out.bugFlag = true) (σ : Var → Int)
    (hpos : ∀ stmt ∈ out.thread, σ (.pc stmt.id) = position out.thread stmt)
    (hpersist : ∀ stmt ∈ out.thread, stmt.op = .store → σ (.pc stmt.id) ≤ σ (.pt stmt.id))
    (hfence : ∀ store fence, Before out.thread store fence → store.op = .store →
      store.id = a ∨ store.id = b → fence.op = .fence → σ (.pt store.id) ≤ σ (.pc fence.id))
    (hprevious : Satisfies σ previous) : σ (.pt a) < σ (.pt b) := by
  obtain ⟨htransact, ⟨hdown, -⟩ | ⟨-, -, m, hsolved⟩⟩ := repairMPB_cases h
  · rw [hflag] at hdown
    cases hdown
  have hplace : ∀ stmt ∈ fencedThread g thread a b, σ (.pc stmt.id) = m.val (.pc stmt.id) := by
    intro stmt hstmt
    rw [hsolved.position stmt hstmt]
    exact hpos stmt (hsolved.perm.mem_iff.mpr hstmt)
  obtain ⟨hfit, -, hmodelTransact, hdistinct⟩ := satisfies_mpbAssertions.mp hsolved.model
  refine hsolved.safe σ hplace (satisfies_mpbAssertions.mpr ⟨⟨?_, ?_, ?_, ?_⟩, hprevious, ?_, ?_⟩)
  · intro stmt hstmt
    rw [hplace stmt hstmt]
    exact hfit.bounds stmt hstmt
  · refine hfit.order.imp_of_mem fun {x y} hx hy hlt => ?_
    rwa [hplace x (List.mem_filter.mp hx).1, hplace y (List.mem_filter.mp hy).1]
  · exact fun stmt hstmt => hpersist stmt (hsolved.perm.mem_iff.mpr hstmt)
  · intro store fence hbefore hop hbug hfenceOp hlt
    refine hfence store fence ?_ hop hbug hfenceOp
    rw [hsolved.before_iff hbefore.mem.1 hbefore.mem.2, ← hplace store hbefore.mem.1,
      ← hplace fence hbefore.mem.2]
    exact hlt
  · refine (satisfies_congr fun φ hφ v hv => ?_).mpr hmodelTransact
    obtain ⟨stmt, hstmt, rfl⟩ := transactionConstraints_places htransact φ hφ v hv
    exact hplace stmt hstmt
  · rwa [List.map_congr_left hplace]

end Repair

end PMBugRepair
