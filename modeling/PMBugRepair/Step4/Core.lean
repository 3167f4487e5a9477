import PMBugRepair.Step4.Loops

/-!
# What `appendTraceWithLocks` does to the program

Locks, unlocks and the fences of sections are added; everything else, the core of the trace, should
stay as it is. The copying loops hand over a stale index in some of their exits, and then the next
loop copies statements a second time; one of them runs over the end. The condition under which the
core survives is exact.
-/

namespace PMBugRepair

/-- A lock, an unlock, or a fence that was added to close a section. -/
def Stmt.isSync (x : Stmt) : Bool :=
  x.op == .lock || x.op == .unlock ||
    match x.id with
    | .fenceLock _ => true
    | _ => false

def core (trace : Trace) : Trace := trace.filter fun x => !x.isSync

@[simp] theorem core_append (left right : Trace) : core (left ++ right) = core left ++ core right :=
  List.filter_append left right

@[simp] theorem core_nil : core [] = [] := rfl

theorem core_cons_of_sync {x : Stmt} {rest : Trace} (hx : x.isSync = true) :
    core (x :: rest) = core rest := by
  simp [core, hx]

theorem core_cons_of_not_sync {x : Stmt} {rest : Trace} (hx : x.isSync = false) :
    core (x :: rest) = x :: core rest := by
  simp [core, hx]

theorem mem_core {x : Stmt} {trace : Trace} : x ∈ core trace ↔ x ∈ trace ∧ x.isSync = false := by
  simp [core]

theorem core_eq_nil_iff {trace : Trace} : core trace = [] ↔ ∀ x ∈ trace, x.isSync = true := by
  simp [core, List.filter_eq_nil_iff]

theorem core_erase {x : Stmt} (hx : x.isSync = true) (trace : Trace) :
    core (trace.erase x) = core trace := by
  induction trace with
  | nil => rfl
  | cons y rest ih =>
      rw [List.erase_cons]
      split
      · rename_i heq
        obtain rfl : y = x := by simpa using heq
        rw [core_cons_of_sync hx]
      · cases hy : y.isSync with
        | true => rw [core_cons_of_sync hy, core_cons_of_sync hy, ih]
        | false => rw [core_cons_of_not_sync hy, core_cons_of_not_sync hy, ih]

@[simp] theorem LockSection.lock_sync (store : Stmt) (r : Nat) :
    (LockSection.new store r).lock.isSync = true := rfl

@[simp] theorem LockSection.unlock_sync (store : Stmt) (r : Nat) :
    (LockSection.new store r).unlock.isSync = true := rfl

@[simp] theorem LockSection.fence_sync (store : Stmt) (r : Nat) :
    (LockSection.new store r).fence.isSync = true := rfl

theorem exists_appendMissing_eq (out resume : Trace) :
    ∃ tail, appendMissing out resume = out ++ tail := by
  induction resume generalizing out with
  | nil => exact ⟨[], by simp [appendMissing]⟩
  | cons y rest ih =>
      obtain ⟨tail, htail⟩ := ih (if y ∈ out then out else out ++ [y])
      rw [appendMissing, htail]
      split
      · exact ⟨tail, rfl⟩
      · exact ⟨y :: tail, by simp⟩

/-- Statements that are there are skipped, the others are appended. -/
theorem appendMissing_eq {out left right : Trace} (hleft : left ⊆ out)
    (hright : ∀ y ∈ right, y ∉ out) (hnodup : right.Nodup) :
    appendMissing out (left ++ right) = out ++ right := by
  induction left generalizing out with
  | nil =>
      clear hleft
      rw [List.nil_append]
      induction right generalizing out with
      | nil => simp [appendMissing]
      | cons y right ih =>
          obtain ⟨hy, hrest⟩ := List.nodup_cons.mp hnodup
          have hnew : ∀ x ∈ right, x ∉ out ++ [y] := by
            intro x hx hmem
            rcases List.mem_append.mp hmem with hmem | hmem
            · exact hright x (List.mem_cons_of_mem y hx) hmem
            · rw [List.mem_singleton.mp hmem] at hx
              exact hy hx
          rw [appendMissing, if_neg (hright y List.mem_cons_self), ih hrest hnew, List.append_assoc,
            List.singleton_append]
  | cons x left ih =>
      rw [List.cons_append, appendMissing, if_pos (hleft List.mem_cons_self)]
      exact ih (fun y hy => hleft (List.mem_cons_of_mem x hy)) hright

theorem core_appendMissing {out resume : Trace} (hnodup : resume.Nodup) :
    core (appendMissing out resume) =
      core out ++ (core resume).filter fun x => x ∉ core out := by
  induction resume generalizing out with
  | nil => simp [appendMissing]
  | cons x rest ih =>
      obtain ⟨hx, hrest⟩ := List.nodup_cons.mp hnodup
      rw [appendMissing, ih hrest]
      cases hsync : x.isSync with
      | true =>
          have hout : core (if x ∈ out then out else out ++ [x]) = core out := by
            split
            · rfl
            · rw [core_append, core_cons_of_sync hsync, core_nil, List.append_nil]
          rw [hout, core_cons_of_sync hsync]
      | false =>
          have hmem : x ∈ core out ↔ x ∈ out := by simp [mem_core, hsync]
          rw [core_cons_of_not_sync hsync]
          by_cases hin : x ∈ out
          · rw [if_pos hin, List.filter_cons_of_neg (by simpa [hmem] using hin)]
          · have hsame : (core rest).filter (fun z => decide (z ∉ core (out ++ [x]))) =
                (core rest).filter fun z => decide (z ∉ core out) := by
              refine List.filter_congr fun z hz => ?_
              have hne : z ≠ x := fun heq => hx (heq ▸ (mem_core.mp hz).1)
              simp [core_cons_of_not_sync hsync, hne]
            rw [if_neg hin, List.filter_cons_of_pos (by simpa [hmem] using hin), hsame,
              core_append, core_cons_of_not_sync hsync, core_nil, List.append_assoc]
            rfl

/-! ### Bugs of a trace -/

/-- The two rows of the bug are stores of different threads of the trace. -/
structure Mpa.In (bug : Mpa) (trace : Trace) : Prop where
  w_mem : bug.w ∈ trace
  r_mem : bug.r ∈ trace
  w_store : bug.w.op = .store
  r_store : bug.r.op = .store
  w_line : ∃ n, bug.w.id = .line n
  r_line : ∃ n, bug.r.id = .line n
  tids : bug.w.tid ≠ bug.r.tid

theorem Mpa.first_cases (bug : Mpa) : (bug.first = bug.w ∧ bug.second = bug.r) ∨
    (bug.first = bug.r ∧ bug.second = bug.w) := by
  unfold Mpa.first Mpa.second
  split
  · exact .inr ⟨rfl, rfl⟩
  · exact .inl ⟨rfl, rfl⟩

namespace Mpa.In

variable {bug : Mpa} {trace : Trace} (h : bug.In trace)
include h

theorem first_mem : bug.first ∈ trace := by
  rcases bug.first_cases with ⟨heq, -⟩ | ⟨heq, -⟩ <;> rw [heq]
  exacts [h.w_mem, h.r_mem]

theorem second_mem : bug.second ∈ trace := by
  rcases bug.first_cases with ⟨-, heq⟩ | ⟨-, heq⟩ <;> rw [heq]
  exacts [h.r_mem, h.w_mem]

theorem first_tid : bug.first.tid ≠ bug.second.tid := by
  rcases bug.first_cases with ⟨heq, heq'⟩ | ⟨heq, heq'⟩ <;> rw [heq, heq']
  exacts [h.tids, h.tids.symm]

theorem first_core : bug.first.isSync = false ∧ bug.second.isSync = false := by
  have hsync : ∀ {x : Stmt}, x.op = .store → (∃ n, x.id = .line n) → x.isSync = false := by
    rintro x hop ⟨n, hid⟩
    simp [Stmt.isSync, hop, hid]
  have hw := hsync h.w_store h.w_line
  have hr := hsync h.r_store h.r_line
  rcases bug.first_cases with ⟨heq, heq'⟩ | ⟨heq, heq'⟩ <;> rw [heq, heq']
  exacts [⟨hw, hr⟩, ⟨hr, hw⟩]

theorem ne : bug.first ≠ bug.second := fun heq => h.first_tid (by rw [heq])

end Mpa.In

/-! ### The common lock -/

theorem findCommon_lock {first second : Id} {whole : Trace} {pre rest : Trace}
    (hwhole : whole = pre ++ rest) {current common : Option Nat}
    (hcurrent : ∀ j, current = some j → ∃ l, (whole.drop j).head? = some l ∧ l.op = .lock)
    (hcommon : ∀ j, common = some j → ∃ l, (whole.drop j).head? = some l ∧ l.op = .lock) {k : Nat}
    (h : findCommon first second pre.length current common rest = some k) :
    ∃ l, (whole.drop k).head? = some l ∧ l.op = .lock := by
  induction rest generalizing pre current common with
  | nil => cases h
  | cons x rest ih =>
      have hcurrent' : ∀ j, (if x.op = .lock then some pre.length else current) = some j →
          ∃ l, (whole.drop j).head? = some l ∧ l.op = .lock := by
        intro j hj
        split at hj
        · rename_i hop
          obtain rfl := Option.some.inj hj
          exact ⟨x, by rw [hwhole, List.drop_left]; rfl, hop⟩
        · exact hcurrent j hj
      have hcommon' : ∀ j, (if x.id = first then
          (if x.op = .lock then some pre.length else current) else common) = some j →
          ∃ l, (whole.drop j).head? = some l ∧ l.op = .lock := by
        intro j hj
        split at hj
        · exact hcurrent' j hj
        · exact hcommon j hj
      rw [findCommon] at h
      generalize (if x.op = .lock then some pre.length else current) = opened at *
      generalize (if x.id = first then opened else common) = shared at *
      generalize hafter : (if x.op = .unlock then none else opened) = after at h
      split at h
      · exact hcommon' k h
      · have hlength : (pre ++ [x]).length = pre.length + 1 := by simp
        rw [← hlength] at h
        refine ih (by rw [hwhole]; simp) ?_ hcommon' h
        intro j hj
        rw [← hafter] at hj
        split at hj
        · cases hj
        · exact hcurrent' j hj

theorem removeCommon_spec {trace : Trace} {k : Nat} {lock : Stmt}
    (hlock : (trace.drop k).head? = some lock) (hop : lock.op = .lock) :
    core (removeCommon trace k) = core trace ∧ (removeCommon trace k).Sublist trace := by
  have hsync : lock.isSync = true := by simp [Stmt.isSync, hop]
  unfold removeCommon
  rw [hlock]
  simp only
  split
  · rename_i unlock hfind
    have hunlock : unlock.isSync = true := by
      have hop : unlock.op = .unlock := by simpa using List.find?_some hfind
      simp [Stmt.isSync, hop]
    exact ⟨by rw [core_erase hsync, core_erase hunlock],
      List.erase_sublist.trans List.erase_sublist⟩
  · exact ⟨core_erase hsync trace, List.erase_sublist⟩

theorem prepare_spec (g : LockGlobals) (trace : Trace) (bug : Mpa) :
    core (prepare g trace bug).1 = core trace ∧ (prepare g trace bug).1.Sublist trace := by
  unfold prepare
  split
  · rename_i k hfind
    obtain ⟨lock, hlock, hop⟩ := @findCommon_lock _ _ trace [] trace rfl none none (by simp)
      (by simp) k hfind
    exact removeCommon_spec hlock hop
  · exact ⟨rfl, List.Sublist.refl _⟩

/-! ### The second phase -/

section Second

variable {g : LockGlobals} {resume : Trace} {held : Held} {bug : Mpa} {writes : List Id}

theorem exists_split {trace : Trace} (hids : (trace.map Stmt.id).Nodup) {x : Stmt}
    (hmem : x ∈ trace) :
    ∃ pre post, trace = pre ++ x :: post ∧ Absent x.id pre ∧ Absent x.id post := by
  obtain ⟨pre, post, rfl⟩ := List.append_of_mem hmem
  rw [List.map_append, List.map_cons, List.nodup_middle, List.nodup_cons, ← List.map_append] at hids
  refine ⟨pre, post, rfl, fun y hy heq => ?_, fun y hy heq => ?_⟩
  · exact hids.1 (heq ▸ List.mem_map_of_mem (List.mem_append_left post hy))
  · exact hids.1 (heq ▸ List.mem_map_of_mem (List.mem_append_right pre hy))

theorem absent_of_notMem {whole trace : Trace} (hids : (whole.map Stmt.id).Nodup)
    (hsub : trace ⊆ whole) {x : Stmt} (hx : x ∈ whole) (hnot : x ∉ trace) : Absent x.id trace :=
  fun _ hy heq => hnot (List.inj_on_of_nodup_map hids (hsub hy) hx heq ▸ hy)

/-- A section that ends leaves the core in place. -/
theorem SectionEnd.core {other : Id} {found : Stmt} {r : Nat} {post out rest : Trace}
    (h : SectionEnd other found (.new found r) post out rest) :
    ∃ covered, post = covered ++ rest ∧ PMBugRepair.core out = PMBugRepair.core covered := by
  obtain ⟨body, x, tail, rfl, -, ⟨-, rfl, rfl⟩ | ⟨-, rfl, rfl⟩⟩ := h
  · exact ⟨body, rfl, by simp [PMBugRepair.core]⟩
  · exact ⟨body ++ [x], by simp, by simp [PMBugRepair.core, List.filter_cons]⟩

/-- What the second phase copies: a part of its input from whose end the last loop goes on, or all
of it, or all of it but the last statement. -/
theorem secondPhase_core (hids : (resume.map Stmt.id).Nodup)
    (hunique : bug.second ∉ resume → Absent bug.second.id resume) {q : Phase}
    (h : secondPhase g resume held bug writes = some q) :
    (∃ covered, resume = covered ++ q.resume ∧ core q.out = core covered) ∨
      (q.resume <:+ resume ∧ core q.out = core resume) ∨
      (q.resume = resume ∧ core q.out = core resume.dropLast) := by
  unfold secondPhase at h
  split at h
  · cases h
    exact .inl ⟨[], rfl, rfl⟩
  · split at h
    · by_cases hmem : bug.second ∈ resume
      · obtain ⟨pre, post, rfl, hpre, hpost⟩ := exists_split hids hmem
        obtain ⟨q', hq', -, hcases⟩ :=
          @lockSecond_cases g bug.second pre post writes bug.first.id _ hpre hpost rfl
        rw [hq'] at h
        obtain rfl := Option.some.inj h
        rcases hcases with ⟨out, hend, hout⟩ | ⟨-, hsuffix, hout⟩
        · obtain ⟨covered, hcovered, hcore⟩ := hend.core
          refine .inl ⟨pre ++ bug.second :: covered, by rw [hcovered]; simp, ?_⟩
          rw [hout]
          simp only [core] at hcore
          simp [core, List.filter_cons, hcore]
        · refine .inr (.inl ⟨hsuffix, ?_⟩)
          rw [hout]
          simp [core, List.filter_cons]
      · rcases @lockSecond_of_absent g bug.second writes bug.first.id resume _
          (hunique hmem) rfl with
          ⟨-, hnone⟩ | ⟨-, q', hq', -, hsuffix, hout⟩
        · rw [hnone] at h
          cases h
        · rw [hq'] at h
          obtain rfl := Option.some.inj h
          exact .inr (.inl ⟨hsuffix, by rw [hout]; simp [core]⟩)
    · obtain rfl := Option.some.inj h
      rcases (@restrictSecond_cases g bug.second resume _ _ rfl rfl).2 with
        ⟨before, found, next, hresume, -, -, hout⟩ | ⟨-, hout, hresume⟩
      · refine .inl ⟨before ++ [found, next], by rw [List.append_assoc]; exact hresume, ?_⟩
        rw [hout]
        simp [core, List.filter_cons]
      · exact .inr (.inr ⟨hresume, by rw [hout]⟩)

/-- The second phase returns unless it runs over the end of an odd number of statements. -/
theorem secondPhase_isSome_iff (hids : (resume.map Stmt.id).Nodup)
    (hunique : bug.second ∉ resume → Absent bug.second.id resume) :
    (∃ q, secondPhase g resume held bug writes = some q) ↔
      held.read = true ∨ bug.second.id ∉ writes ∨ bug.second ∈ resume ∨ Even resume.length := by
  unfold secondPhase
  split
  · rename_i hread
    simp [hread]
  · rename_i hread
    split
    · rename_i hwrite
      by_cases hmem : bug.second ∈ resume
      · obtain ⟨pre, post, rfl, hpre, hpost⟩ := exists_split hids hmem
        obtain ⟨q, hq, -⟩ :=
          @lockSecond_cases g bug.second pre post writes bug.first.id _ hpre hpost rfl
        exact ⟨fun _ => .inr (.inr (.inl hmem)), fun _ => ⟨q, hq⟩⟩
      · rcases @lockSecond_of_absent g bug.second writes bug.first.id resume _
          (hunique hmem) rfl with
          ⟨hodd, hnone⟩ | ⟨heven, q, hq, -⟩
        · simp [hnone, hread, hwrite, hmem, hodd]
        · simp [hq, heven]
    · rename_i hwrite
      exact ⟨fun _ => .inr (.inl hwrite), fun _ => ⟨_, rfl⟩⟩

/-- Where the second store is found, everything before it has been copied, and the store itself
unless it comes last. -/
theorem secondPhase_covers {pre post : Trace} (hpre : Absent bug.second.id pre)
    (hpost : Absent bug.second.id post) (hcore : bug.second.isSync = false)
    (hread : held.read = false) {q : Phase}
    (h : secondPhase g (pre ++ bug.second :: post) held bug writes = some q) :
    core pre ⊆ core q.out ∧ (post ≠ [] → bug.second ∈ core q.out) := by
  have hstore : ∀ {a b : Trace}, bug.second ∈ core (a ++ bug.second :: b) := by
    intro a b
    exact mem_core.mpr ⟨by simp, hcore⟩
  unfold secondPhase at h
  rw [hread] at h
  simp only [Bool.false_eq_true, if_false] at h
  split at h
  · obtain ⟨q', hq', -, hcases⟩ :=
      @lockSecond_cases g bug.second pre post writes bug.first.id _ hpre hpost rfl
    rw [hq'] at h
    obtain rfl := Option.some.inj h
    obtain ⟨tail, hout⟩ : ∃ tail, q'.out =
        pre ++ (LockSection.new bug.second g.r).lock :: bug.second :: tail := by
      rcases hcases with ⟨out, -, hout⟩ | ⟨-, -, hout⟩
      exacts [⟨_, hout⟩, ⟨_, hout⟩]
    rw [hout]
    refine ⟨?_, fun _ => ?_⟩
    · rw [core_append]
      exact List.subset_append_left _ _
    · rw [List.append_cons]
      exact hstore
  · obtain rfl := Option.some.inj h
    cases post with
    | nil =>
        rcases (@restrictSecond_cases g bug.second (pre ++ [bug.second]) _ _ rfl rfl).2 with
          ⟨before, found, next, hresume, hid, hbefore, hout⟩ | ⟨-, hout, -⟩
        · have hlast : found ∈ pre := by
            have hdrop := congrArg List.dropLast hresume
            rw [List.dropLast_concat, List.dropLast_append_cons, List.dropLast_cons_cons] at hdrop
            rw [hdrop]
            simp
          exact absurd hid (hpre found hlast)
        · rw [hout, List.dropLast_concat]
          exact ⟨List.Subset.refl _, fun hne => absurd rfl hne⟩
    | cons y post =>
        have hrun : restrictedLoop bug.second.id (LockSection.new bug.second g.r)
            (pre ++ bug.second :: y :: post) = _ := restrictedLoop_of_append hpre rfl
        simp only [restrictSecond, hrun]
        refine ⟨?_, fun _ => ?_⟩
        · rw [core_append]
          exact List.subset_append_left _ _
        · rw [List.append_cons]
          exact hstore

end Second

end PMBugRepair
