import PMBugRepair.Step4.Persists

/-!
# Which rows a run can hold

Whatever the loops copy, repeat or lose: the rows they write are rows they were given, or the lock,
the unlock and the fence of a section around one of the two stores of the bug. So a run never adds a
store, a load, a flush or a transaction, and every row it adds belongs to the thread of a store that
some bug names.
-/

namespace PMBugRepair

open Smt (Formula Solver)

/-- One of the three rows of a section. -/
def LockSection.Holds (sec : LockSection) (x : Stmt) : Prop :=
  x = sec.lock ∨ x = sec.unlock ∨ x = sec.fence

section Loops

variable {P : Stmt → Prop} {own other : Id} {sec : LockSection} {candidates : List Id}
  {found : Stmt} {g : LockGlobals} {r : Nat} {trace stale : Trace}

/-- What a loop copies and what it leaves satisfies `P`, and the number of the next section is
`r`. -/
structure Copied.All (P : Stmt → Prop) (r : Nat) (c : Copied) : Prop where
  out : ∀ x ∈ c.out, P x
  resume : ∀ rest, c.resume = some rest → ∀ x ∈ rest, P x
  counter : c.globals.r = r

structure Phase.All (P : Stmt → Prop) (r : Nat) (p : Phase) : Prop where
  out : ∀ x ∈ p.out, P x
  resume : ∀ x ∈ p.resume, P x
  counter : p.globals.r = r

theorem Copied.All.after {head : Trace} {c : Copied} {r : Nat} (h : c.All P r)
    (hhead : ∀ x ∈ head, P x) : (c.after head).All P r :=
  ⟨List.forall_mem_append.mpr ⟨hhead, h.out⟩, h.resume, h.counter⟩

theorem Phase.All.after {head : Trace} {p : Phase} {r : Nat} (h : p.All P r)
    (hhead : ∀ x ∈ head, P x) : (p.after head).All P r :=
  ⟨List.forall_mem_append.mpr ⟨hhead, h.out⟩, h.resume, h.counter⟩

theorem Copied.All.finish {c : Copied} {r : Nat} (h : c.All P r)
    (hsec : ∀ x, sec.Holds x → P x) (hstale : ∀ x ∈ stale, P x) :
    (c.finish sec stale).All P r := by
  unfold Copied.finish
  split
  · rename_i rest hrest
    exact ⟨h.out, h.resume rest hrest, h.counter⟩
  · refine ⟨List.forall_mem_append.mpr ⟨h.out, ?_⟩, hstale, h.counter⟩
    simp only [List.mem_cons, List.not_mem_nil, or_false, forall_eq_or_imp, forall_eq]
    exact ⟨hsec _ (.inr (.inr rfl)), hsec _ (.inr (.inl rfl))⟩

theorem insideLoop_all (hr : g.r = r) (hsec : ∀ x, sec.Holds x → P x)
    (htrace : ∀ x ∈ trace, P x) :
    (insideLoop own other sec candidates found g trace).All P r := by
  have hlock := hsec sec.lock (.inl rfl)
  have hunlock := hsec sec.unlock (.inr (.inl rfl))
  have hfence := hsec sec.fence (.inr (.inr rfl))
  induction trace generalizing found g with
  | nil => exact ⟨by simp [insideLoop], by simp [insideLoop], hr⟩
  | cons x rest ih =>
      obtain ⟨hx, hrest⟩ := List.forall_mem_cons.mp htrace
      rw [insideLoop]
      split
      · exact Copied.All.after (ih hr hrest) (by simp [hlock, hx])
      · split
        · exact ⟨by simp [hfence, hunlock], by simpa using ⟨hx, hrest⟩, hr⟩
        · exact ⟨by simp [hx, hunlock], by simpa using hrest, hr⟩
        · refine Copied.All.after (ih ?_ hrest) (by simp [hx])
          split
          · exact hr
          · exact hr

theorem lockLoop_all (hr : g.r = r) (hsec : ∀ x, sec.Holds x → P x)
    (htrace : ∀ x ∈ trace, P x) :
    (lockLoop own other sec candidates g trace).All P r := by
  induction trace with
  | nil => exact ⟨by simp [lockLoop], by simp [lockLoop], hr⟩
  | cons x rest ih =>
      obtain ⟨hx, hrest⟩ := List.forall_mem_cons.mp htrace
      rw [lockLoop]
      split
      · exact Copied.All.after (insideLoop_all hr hsec hrest)
          (by simp [hsec sec.lock (.inl rfl), hx])
      · exact (ih hrest).after (by simp [hx])

theorem restrictedLoop_all (hsec : ∀ x, sec.Holds x → P x) (htrace : ∀ x ∈ trace, P x) :
    (∀ x ∈ (restrictedLoop own sec trace).1, P x) ∧
      ∀ rest, (restrictedLoop own sec trace).2 = some rest → ∀ x ∈ rest, P x := by
  induction trace with
  | nil => exact ⟨by simp [restrictedLoop], by simp [restrictedLoop]⟩
  | cons x tail ih =>
      obtain ⟨hx, htail⟩ := List.forall_mem_cons.mp htrace
      cases tail with
      | nil => exact ⟨by simp [restrictedLoop], by simp [restrictedLoop]⟩
      | cons y rest =>
          obtain ⟨hy, hrest⟩ := List.forall_mem_cons.mp htail
          rw [restrictedLoop]
          split
          · have hlock := hsec sec.lock (.inl rfl)
            have hunlock := hsec sec.unlock (.inr (.inl rfl))
            exact ⟨by simp [hlock, hunlock, hx, hy], by simpa using hrest⟩
          · exact ⟨List.forall_mem_cons.mpr ⟨hx, (ih htail).1⟩, (ih htail).2⟩

theorem copyUntil_all {second : Id} (htrace : ∀ x ∈ trace, P x) :
    (∀ x ∈ (copyUntil second trace).1, P x) ∧
      ∀ rest, (copyUntil second trace).2 = some rest → ∀ x ∈ rest, P x := by
  induction trace with
  | nil => exact ⟨by simp [copyUntil], by simp [copyUntil]⟩
  | cons x tail ih =>
      obtain ⟨hx, htail⟩ := List.forall_mem_cons.mp htrace
      cases tail with
      | nil => exact ⟨by simp [copyUntil], by simp [copyUntil]⟩
      | cons y rest =>
          rw [copyUntil]
          split
          · exact ⟨by simp, by simpa using htrace⟩
          · exact ⟨List.forall_mem_cons.mpr ⟨hx, (ih htail).1⟩, (ih htail).2⟩

theorem searchLoop_all {q : Phase} (hr : g.r = r) (hsec : ∀ x, sec.Holds x → P x)
    (hstale : ∀ x ∈ stale, P x) (htrace : ∀ x ∈ trace, P x)
    (h : searchLoop own other sec candidates g stale trace = some q) : q.All P r := by
  have hlock := hsec sec.lock (.inl rfl)
  induction trace using List.twoStepInduction generalizing stale q with
  | nil =>
      cases h
      exact Copied.All.finish ⟨by simp, by simp, hr⟩ hsec hstale
  | singleton x =>
      rw [searchLoop] at h
      split at h
      · cases h
        exact Phase.All.after (Copied.All.finish (insideLoop_all hr hsec (by simp)) hsec hstale)
          (by simp [hlock, htrace x (by simp)])
      · cases h
  | cons_cons x y rest ih _ =>
      obtain ⟨hx, htail⟩ := List.forall_mem_cons.mp htrace
      obtain ⟨hy, hrest⟩ := List.forall_mem_cons.mp htail
      rw [searchLoop] at h
      split at h
      · cases h
        exact Phase.All.after (Copied.All.finish (insideLoop_all hr hsec htail) hsec hstale)
          (by simp [hlock, hx])
      · split at h
        · cases h
          exact Phase.All.after (Copied.All.finish (insideLoop_all hr hsec hrest) hsec htail)
            (by simp [hlock, hx, hy])
        · obtain ⟨p, hp, rfl⟩ := Option.map_eq_some_iff.mp h
          exact (ih htail hrest hp).after (by simp [hx, hy])

end Loops

section Call

variable {P : Stmt → Prop} {g : LockGlobals} {trace : Trace} {bug : Mpa} {writes reads : List Id}
  {held : Held}

theorem firstPhase_all
    (hsec : held.write = false → ∀ x, (LockSection.new bug.first g.r).Holds x → P x)
    (htrace : ∀ x ∈ trace, P x) :
    (firstPhase g trace held bug writes reads).All P (if held.write then g.r else g.r + 1) := by
  unfold firstPhase
  cases hwrite : held.write with
  | true => exact ⟨by simp, htrace, rfl⟩
  | false =>
      have hsec := hsec hwrite
      simp only [Bool.false_eq_true, if_false]
      split
      · have hloop := @lockLoop_all P bug.first.id bug.second.id (LockSection.new bug.first g.r)
          (writes ++ reads) { g with
            r := g.r + 1
            lockedWrites := g.lockedWrites ++ [bug.first.id]
            lockedReads := g.lockedReads ++ [bug.first.id] } (g.r + 1) trace.dropLast rfl hsec
          fun x hx => htrace x (List.mem_of_mem_dropLast hx)
        refine Copied.All.finish ⟨hloop.out, ?_, hloop.counter⟩ hsec htrace
        intro rest hrest
        obtain ⟨resumed, hresumed, rfl⟩ := Option.map_eq_some_iff.mp hrest
        exact List.forall_mem_append.mpr ⟨hloop.resume resumed hresumed, fun x hx =>
          htrace x (List.mem_of_mem_drop hx)⟩
      · obtain ⟨hout, hresume⟩ := @restrictedLoop_all P bug.first.id
          (LockSection.new bug.first g.r) trace hsec htrace
        unfold restrictFirst
        dsimp only
        split
        · rename_i out heq
          rw [heq] at hout
          exact ⟨hout, htrace, rfl⟩
        · rename_i out rest heq
          rw [heq] at hout hresume
          obtain ⟨hmore, hfound⟩ := @copyUntil_all P rest bug.second.id (hresume rest rfl)
          split
          · rename_i more found heq'
            rw [heq'] at hmore hfound
            exact ⟨List.forall_mem_append.mpr ⟨hout, hmore⟩, hfound found rfl, rfl⟩
          · rename_i more heq'
            rw [heq'] at hmore
            exact ⟨List.forall_mem_append.mpr ⟨hout, hmore⟩, hresume rest rfl, rfl⟩

theorem secondPhase_all {q : Phase}
    (hsec : held.read = false → ∀ x, (LockSection.new bug.second g.r).Holds x → P x)
    (htrace : ∀ x ∈ trace, P x) (h : secondPhase g trace held bug writes = some q) :
    q.All P (if held.read then g.r else g.r + 1) := by
  unfold secondPhase at h
  cases hread : held.read with
  | true =>
      rw [hread, if_pos rfl, Option.some.injEq] at h
      subst h
      exact ⟨by simp, htrace, rfl⟩
  | false =>
      have hsec := hsec hread
      simp only [hread, Bool.false_eq_true, if_false] at h ⊢
      split at h
      · exact searchLoop_all rfl hsec htrace htrace h
      · cases h
        obtain ⟨hout, hresume⟩ := @restrictedLoop_all P bug.second.id
          (LockSection.new bug.second g.r) trace hsec htrace
        unfold restrictSecond
        dsimp only
        split
        · rename_i out rest heq
          rw [heq] at hout hresume
          exact ⟨hout, hresume rest rfl, rfl⟩
        · rename_i out heq
          rw [heq] at hout
          exact ⟨hout, htrace, rfl⟩

theorem appendMissing_all {out resume : Trace} (hout : ∀ x ∈ out, P x)
    (hresume : ∀ x ∈ resume, P x) : ∀ x ∈ appendMissing out resume, P x := by
  induction resume generalizing out with
  | nil => exact hout
  | cons x rest ih =>
      obtain ⟨hx, hrest⟩ := List.forall_mem_cons.mp hresume
      rw [appendMissing]
      refine ih ?_ hrest
      split
      · exact hout
      · exact List.forall_mem_append.mpr ⟨hout, by simpa using hx⟩

theorem removeCommon_subset (trace : Trace) (k : Nat) : removeCommon trace k ⊆ trace := by
  have hfirst : ∀ {part : Trace} {x : Stmt}, part ⊆ trace → part.erase x ⊆ trace :=
    fun hpart => List.Subset.trans List.erase_subset hpart
  unfold removeCommon
  split <;> split
  · exact hfirst List.erase_subset
  · exact List.erase_subset
  · exact List.erase_subset
  · exact List.Subset.refl _

theorem prepare_subset (g : LockGlobals) (trace : Trace) (bug : Mpa) :
    (prepare g trace bug).1 ⊆ trace ∧ (prepare g trace bug).2.2.r = g.r := by
  unfold prepare
  split
  · exact ⟨removeCommon_subset trace _, rfl⟩
  · exact ⟨List.Subset.refl _, rfl⟩

/-- The rows a call returns are old ones and those of at most two new sections. -/
theorem appendTraceWithLocks_all {out : Trace} {g' : LockGlobals}
    (hsec : ∀ store, store = bug.first ∨ store = bug.second → ∀ k < g'.r,
      ∀ x, (LockSection.new store k).Holds x → P x)
    (htrace : ∀ x ∈ trace, P x)
    (h : appendTraceWithLocks g trace bug writes reads = some (out, g')) :
    g.r ≤ g'.r ∧ ∀ x ∈ out, P x := by
  obtain ⟨hsub, hr⟩ := prepare_subset g trace bug
  unfold appendTraceWithLocks at h
  generalize prepare g trace bug = prepared at hsub hr h
  obtain ⟨copy, held, g₀⟩ := prepared
  obtain ⟨q, hq, hresult⟩ := Option.bind_eq_some_iff.mp h
  obtain ⟨rfl, rfl⟩ := Prod.mk.inj (Option.some.inj hresult)
  -- the counters tell that the numbers of both sections are below the last one
  have hcounter := (@firstPhase_all (fun _ => True) g₀ copy bug writes reads held
    (fun _ _ _ => trivial) fun _ _ => trivial).counter
  have hcounter' := (@secondPhase_all (fun _ => True) _ _ bug writes held q (fun _ _ _ => trivial)
    (fun _ _ => trivial) hq).counter
  simp only at hsub hr
  have hfirst := @firstPhase_all P g₀ copy bug writes reads held ?_ fun x hx => htrace x (hsub hx)
  · have hsecond := @secondPhase_all P _ _ bug writes held q ?_ hfirst.resume hq
    · refine ⟨?_, appendMissing_all (List.forall_mem_append.mpr ⟨hfirst.out, hsecond.out⟩)
        hsecond.resume⟩
      split at hcounter <;> split at hcounter' <;> omega
    · intro hread x
      rw [hread] at hcounter'
      simp only [Bool.false_eq_true, if_false] at hcounter'
      exact hsec bug.second (.inr rfl) _ (by omega) x
  · intro hwrite x
    rw [hwrite] at hcounter
    simp only [Bool.false_eq_true, if_false] at hcounter
    refine hsec bug.first (.inl rfl) _ ?_ x
    split at hcounter' <;> omega

end Call

section Run

variable {input : MpaInput} {z : Nat → Solver Var} {n : Nat} {s : RepairState}

/-- What holds of the rows of the input and of every section row holds of all rows of a run. -/
theorem run_forall {P : Nat → Stmt → Prop} (hmono : ∀ {r r' x}, r ≤ r' → P r x → P r' x)
    (hinput : ∀ x ∈ input.trace, P 0 x)
    (hsec : ∀ bug ∈ input.bugs, ∀ store, store = bug.w ∨ store = bug.r → ∀ r, ∀ k < r,
      ∀ x, (LockSection.new store k).Holds x → P r x)
    (hrun : run input z n = some s) : ∀ x ∈ s.trace, P s.globals.r x := by
  induction n generalizing s with
  | zero =>
      obtain rfl := Option.some.inj hrun
      exact fun x hx => hmono (Nat.zero_le _) (hinput x hx)
  | succ n ih =>
      obtain ⟨s₀, hrun₀, ⟨-, hstep⟩ | ⟨-, rfl⟩⟩ := run_succ_cases hrun
      · obtain ⟨cons, -, ⟨-, htrace, hr, -⟩ | ⟨-, bug, hbug, -, -, g, out, g', hr, hr', htrace,
          happend⟩⟩ := iteration_cases hstep
        · rw [htrace, hr]
          exact fun x hx => ih hrun₀ x (kept_sublist.subset hx)
        · have hcounter := (@appendTraceWithLocks_all (fun _ => True) _ _ _ _ _ _ _
            (fun _ _ _ _ _ _ => trivial) (fun _ _ => trivial) happend).1
          have hall := (@appendTraceWithLocks_all (P g'.r) _ _ _ _ _ _ _ ?_ ?_ happend).2
          · rw [htrace, ← hr']
            exact fun x hx => hall x (kept_sublist.subset hx)
          · intro store hstore
            refine hsec bug hbug store ?_ g'.r
            rcases bug.first_cases with ⟨hfirst, hsecond⟩ | ⟨hfirst, hsecond⟩ <;>
              rw [hfirst, hsecond] at hstore
            · exact hstore
            · exact hstore.symm
          · exact fun x hx => hmono (by omega) (ih hrun₀ x hx)
      · exact ih hrun₀

end Run

/-- The row belongs to a section of a store that a bug names, with a number below `r`. -/
def MpaInput.SectionRow (input : MpaInput) (r : Nat) (x : Stmt) : Prop :=
  ∃ bug ∈ input.bugs, ∃ store, (store = bug.w ∨ store = bug.r) ∧ ∃ k < r,
    (LockSection.new store k).Holds x

theorem MpaInput.SectionRow.mono {input : MpaInput} {r r' : Nat} {x : Stmt}
    (h : input.SectionRow r x) (hle : r ≤ r') : input.SectionRow r' x := by
  obtain ⟨bug, hbug, store, hstore, k, hk, hx⟩ := h
  exact ⟨bug, hbug, store, hstore, k, by omega, hx⟩

/-- Repairs add locks, unlocks and fences only. -/
theorem mem_input_of_run {input : MpaInput} {z : Nat → Solver Var} {n : Nat} {s : RepairState}
    (hrun : run input z n = some s) {x : Stmt} (hx : x ∈ s.trace) (hplain : x.Plain)
    (hfence : x.op ≠ .fence) : x ∈ input.trace := by
  refine run_forall (P := fun _ x => x.Plain → x.op ≠ .fence → x ∈ input.trace)
    (fun _ h => h) (fun x hx _ _ => hx) ?_ hrun x hx hplain hfence
  rintro bug - store - r k - x (rfl | rfl | rfl) hplain hfence
  · exact absurd rfl hplain.1
  · exact absurd rfl hplain.2
  · exact absurd rfl hfence

/-- **What step 4 can add.** Every row of a trace that a run goes through is a row of the input, or
the lock, the unlock or the fence of a numbered section around a store of some bug. -/
theorem run_rows (input : MpaInput) (z : Nat → Solver Var) (n : Nat) (s : RepairState)
    (hrun : run input z n = some s) :
    ∀ x ∈ s.trace, x ∈ input.trace ∨ input.SectionRow s.globals.r x := by
  refine run_forall (P := fun r x => x ∈ input.trace ∨ input.SectionRow r x)
    (fun hle h => h.imp_right fun hsection => hsection.mono hle) (fun x hx => .inl hx) ?_ hrun
  exact fun bug hbug store hstore r k hk x hx => .inr ⟨bug, hbug, store, hstore, k, hk, hx⟩

/-- The run on a flushed store adds four rows, of the sections around its two stores. -/
theorem run_rows_flushedStore :
    ∃ s, run (flushedStoreInput "f_2") (fun _ => .classical) 2 = some s ∧
      s.trace = flushedLocked ∧
      ∀ x ∈ s.trace, x ∈ (flushedStoreInput "f_2").trace ∨
        (flushedStoreInput "f_2").SectionRow s.globals.r x := by
  obtain ⟨⟨g, hrun⟩, -⟩ := run_flushedStore fun _ => .classical
  exact ⟨_, hrun 0, rfl, run_rows _ _ 2 _ (hrun 0)⟩

end PMBugRepair
