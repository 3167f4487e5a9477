import PMBugRepair.Schedule.Mutex
import PMBugRepair.Step4.Alternating
import PMBugRepair.Step4.Run

/-!
# Running a locked trace

The constraints of `addLocks` keep all sections apart, as if there were one mutex. Threads that run
a trace with that mutex never wait for each other forever, once `removeDeadlocks` has been over it,
and their complete runs are the executions that the solver is asked for.
-/

namespace PMBugRepair

open Schedule (Alternates CriticalSection Excludes MutexRun MutexUse before_iff_append)
open Smt (Solver)

def Stmt.mutexUse (x : Stmt) : MutexUse :=
  match x.op with
  | .lock => .acquire
  | .unlock => .release
  | _ => .other

section Use

variable {x : Stmt}

theorem Stmt.mutexUse_acquire_iff : x.mutexUse = .acquire ↔ x.op = .lock := by
  unfold mutexUse
  cases x.op <;> simp

theorem Stmt.mutexUse_release_iff : x.mutexUse = .release ↔ x.op = .unlock := by
  unfold mutexUse
  cases x.op <;> simp

theorem Stmt.mutexUse_other_iff : x.mutexUse = .other ↔ x.Plain := by
  unfold mutexUse Plain
  cases x.op <;> simp

end Use

/-! ### What `removeDeadlocks` leaves -/

/-- The lock and the unlock of a number belong to the same thread. -/
def WithinThreads (trace : Trace) : Prop :=
  ∀ x ∈ trace, ∀ y ∈ trace, ∀ k, x.id = .lock k → y.id = .unlock k → x.tid = y.tid

theorem Alternating.alternates {trace : Trace} (h : Alternating false trace)
    (hwithin : WithinThreads trace) (k : Nat) :
    Alternates Stmt.mutexUse false (trace.filter fun x => x.tid = k) := by
  generalize hopen : false = isOpen at h
  induction h with
  | nil => exact rfl
  | unmatched => cases hopen
  | @pair lock unlock n rest isOpen hlock hid hunlock hunlockId hrest ih =>
      subst hopen
      have htid : lock.tid = unlock.tid := hwithin lock (by simp) unlock (by simp) n hid hunlockId
      have halternates := ih (fun x hx y hy => hwithin x (by simp [hx]) y (by simp [hy])) rfl
      have hacquire := Stmt.mutexUse_acquire_iff.mpr hlock
      have hrelease := Stmt.mutexUse_release_iff.mpr hunlock
      by_cases hk : unlock.tid = k
      · rw [List.filter_cons_of_pos (by simp [htid, hk]), List.filter_cons_of_pos (by simp [hk]),
          Alternates, hacquire]
        refine ⟨rfl, ?_⟩
        rw [Alternates, hrelease]
        exact ⟨rfl, halternates⟩
      · rwa [List.filter_cons_of_neg (by simp [htid, hk]), List.filter_cons_of_neg (by simp [hk])]

theorem alternates_of_locksOf {trace : Trace} (h : Alternating false (locksOf trace))
    (hwithin : WithinThreads trace) (k : Nat) :
    Alternates Stmt.mutexUse false (trace.filter fun x => x.tid = k) := by
  have hsub : ∀ x ∈ locksOf trace, x ∈ trace := fun x hx => (List.mem_filter.mp hx).1
  have halternates := h.alternates (fun x hx y hy => hwithin x (hsub x hx) y (hsub y hy)) k
  rw [← Schedule.alternates_filter, List.filter_filter]
  rw [locksOf, List.filter_filter] at halternates
  convert halternates using 3 with x
  simp only [ne_eq, Stmt.mutexUse_other_iff, Bool.and_comm]

/-- **Why it is called `removeDeadlocks`.** Whatever numbered locks a trace has, if each one is
closed later by its thread, then threads that run what is left can always go on to their ends. -/
theorem removeDeadlocks_completes (trace : Trace) (hnumbered : NumberedLocks trace)
    (hclosed : ClosedLater trace) (hwithin : WithinThreads trace) (g : LockGlobals) :
    ∃ out g', removeDeadlocks g trace = some (out, g') ∧
      ∀ order s, MutexRun Stmt.tid Stmt.mutexUse out order s →
        ∃ more next, MutexRun Stmt.tid Stmt.mutexUse out (order ++ more) next ∧ next.Ended := by
  obtain ⟨g', hremove⟩ := @removeFrom_of_numbered trace none hnumbered g
  have halternating := @alternating_kept trace none hnumbered fun lock heq => absurd heq.symm
    (Option.some_ne_none lock)
  rw [@lockAfter_of_closedLater trace none hnumbered hclosed fun lock heq => absurd heq.symm
    (Option.some_ne_none lock)] at halternating
  have hsub : ∀ x ∈ kept none trace, x ∈ trace := fun x hx => kept_sublist.subset hx
  refine ⟨kept none trace, g', hremove, fun order s hrun => hrun.exists_completion fun k => ?_⟩
  exact alternates_of_locksOf halternating
    (fun x hx y hy => hwithin x (hsub x hx) y (hsub y hy)) k

/-- The sections of one thread cross each other; another thread has one of its own. -/
def crossingThreads : Trace :=
  crossing ++ [⟨.lock 3, .lock, "-1", "-1", 2, "f_1_x"⟩,
    ⟨.line 4, .store, "0x20", "-1", 2, "f_1"⟩, ⟨.unlock 3, .unlock, "-1", "-1", 2, "f_1_x"⟩]

theorem numberedLocks_crossingThreads : NumberedLocks crossingThreads := by
  intro x hx
  rcases List.mem_append.mp hx with hx | hx
  · exact numberedLocks_crossing x hx
  · simp only [List.mem_cons, List.not_mem_nil, or_false] at hx
    rcases hx with rfl | rfl | rfl <;> simp

/-- The first thread waits for itself before, and both run to their ends afterwards. -/
theorem removeDeadlocks_completes_crossing :
    (∀ order s, MutexRun Stmt.tid Stmt.mutexUse crossingThreads order s → ¬s.Ended) ∧
      ∃ out g', removeDeadlocks .start crossingThreads = some (out, g') ∧
        ∀ order s, MutexRun Stmt.tid Stmt.mutexUse out order s →
          ∃ more next, MutexRun Stmt.tid Stmt.mutexUse out (order ++ more) next ∧
            next.Ended := by
  have hclosed : ClosedLater crossingThreads := by simp [ClosedLater, crossingThreads, crossing]
  have hwithin : WithinThreads crossingThreads := by
    intro x hx y hy k hlock hunlock
    simp only [crossingThreads, crossing, List.cons_append, List.nil_append, List.mem_cons,
      List.not_mem_nil, or_false] at hx hy
    rcases hx with rfl | rfl | rfl | rfl | rfl | rfl | rfl | rfl <;> cases hlock <;>
      rcases hy with rfl | rfl | rfl | rfl | rfl | rfl | rfl | rfl <;> cases hunlock <;> rfl
  have hevents : (crossingThreads.filter fun z => z.tid = 1) = crossing := by decide
  exact ⟨fun order s hrun => hrun.not_ended hevents rfl rfl,
    removeDeadlocks_completes crossingThreads numberedLocks_crossingThreads hclosed hwithin .start⟩

/-! ### A trace of sections -/

namespace Sections

variable {trace : Trace}

theorem alternates (h : Sections trace) (k : Nat) :
    Alternates Stmt.mutexUse false (trace.filter fun x => x.tid = k) := by
  induction h with
  | nil => exact rfl
  | @plain x rest hx hrest ih =>
      by_cases hk : x.tid = k
      · rw [List.filter_cons_of_pos (by simp [hk]), Alternates, Stmt.mutexUse_other_iff.mpr hx]
        exact ih
      · rwa [List.filter_cons_of_neg (by simp [hk])]
  | @block n lock unlock body rest hlock hid hbody hunlock hunlockId htid hrest ih =>
      have hlines : ∀ list : Trace, (∀ x ∈ list, x.Plain) →
          Alternates Stmt.mutexUse true (list ++ unlock :: rest.filter fun x => x.tid = k) := by
        intro list hlist
        induction list with
        | nil =>
            rw [List.nil_append, Alternates, Stmt.mutexUse_release_iff.mpr hunlock]
            exact ⟨rfl, ih⟩
        | cons x list ihlist =>
            obtain ⟨hx, hlist⟩ := List.forall_mem_cons.mp hlist
            rw [List.cons_append, Alternates, Stmt.mutexUse_other_iff.mpr hx]
            exact ihlist hlist
      by_cases hk : lock.tid = k
      · rw [List.filter_cons_of_pos (by simp [hk]), List.filter_append,
          List.filter_cons_of_pos (by simp [htid, hk]), Alternates,
          Stmt.mutexUse_acquire_iff.mpr hlock]
        exact ⟨rfl, hlines _ fun x hx => (hbody x (List.mem_filter.mp hx).1).1⟩
      · have hnone : (body.filter fun x => x.tid = k) = [] :=
          List.filter_eq_nil_iff.mpr fun x hx => by simp [(hbody x hx).2, hk]
        rwa [List.filter_cons_of_neg (by simp [hk]), List.filter_append, hnone, List.nil_append,
          List.filter_cons_of_neg (by simp [htid, hk])]

/-- The rows from a lock to its unlock. -/
theorem exists_split (h : Sections trace) {lock : Stmt} (hmem : lock ∈ trace)
    (hop : lock.op = .lock) :
    ∃ left body unlock right k, trace = left ++ lock :: (body ++ unlock :: right) ∧
      (∀ x ∈ body, x.Plain) ∧ lock.id = .lock k ∧ unlock.op = .unlock ∧ unlock.id = .unlock k ∧
      unlock.tid = lock.tid := by
  induction h with
  | nil => cases hmem
  | @plain x rest hx hrest ih =>
      rcases List.mem_cons.mp hmem with rfl | hmem
      · exact absurd hop hx.1
      · obtain ⟨left, body, unlock, right, k, rfl, hspec⟩ := ih hmem
        exact ⟨x :: left, body, unlock, right, k, rfl, hspec⟩
  | @block n lock' unlock' body' rest hlock hid hbody hunlock hunlockId htid hrest ih =>
      rcases List.mem_cons.mp hmem with rfl | hmem
      · exact ⟨[], body', unlock', rest, n, rfl, fun x hx => (hbody x hx).1, hid, hunlock,
          hunlockId, htid⟩
      · rcases List.mem_append.mp hmem with hmem | hmem
        · exact absurd hop (hbody lock hmem).1.1
        · rcases List.mem_cons.mp hmem with rfl | hmem
          · rw [hunlock] at hop
            cases hop
          · obtain ⟨left, body, unlock, right, k, rfl, hspec⟩ := ih hmem
            exact ⟨lock' :: (body' ++ unlock' :: left), body, unlock, right, k, by simp, hspec⟩

theorem exists_criticalSection (h : Sections trace) (hids : (trace.map Stmt.id).Nodup)
    {lock : Stmt} (hmem : lock ∈ trace) (hop : lock.op = .lock) :
    ∃ unlock, SectionOf trace lock unlock ∧
      CriticalSection Stmt.tid Stmt.mutexUse trace lock unlock := by
  obtain ⟨left, body, unlock, right, k, rfl, hbody, hid, hunlock, hunlockId, htid⟩ :=
    h.exists_split hmem hop
  refine ⟨unlock, ⟨hmem, by simp, hop, hunlock, k, hid, hunlockId⟩,
    Stmt.mutexUse_acquire_iff.mpr hop, Stmt.mutexUse_release_iff.mpr hunlock, htid.symm,
    before_iff_append.mpr ⟨left, body, right, rfl⟩, fun z hlock hunlock _ => ?_⟩
  exact Stmt.mutexUse_other_iff.mpr (hbody z (Schedule.mem_between hids.of_map hlock hunlock))

theorem criticalSection_iff (h : Sections trace) (hids : (trace.map Stmt.id).Nodup)
    {lock unlock : Stmt} :
    CriticalSection Stmt.tid Stmt.mutexUse trace lock unlock ↔ SectionOf trace lock unlock := by
  constructor
  · intro hsection
    obtain ⟨unlock', hsectionOf, hsection'⟩ := h.exists_criticalSection hids
      hsection.before.mem.1 (Stmt.mutexUse_acquire_iff.mp hsection.acquire)
    have heq : unlock' = unlock := by
      by_contra hne
      rcases Schedule.before_or_before hsection'.before.mem.2 hsection.before.mem.2 hne with
        hbefore | hbefore
      · have hother := hsection.between unlock' hsection'.before hbefore hsection'.cls_eq.symm
        rw [hsection'.release] at hother
        cases hother
      · have hother := hsection'.between unlock hsection.before hbefore hsection.cls_eq.symm
        rw [hsection.release] at hother
        cases hother
    exact heq ▸ hsectionOf
  · rintro ⟨hlock, hunlock, hop, -, k, hid, hunlockId⟩
    obtain ⟨unlock', hsectionOf, hsection⟩ := h.exists_criticalSection hids hlock hop
    obtain ⟨k', hid', hunlockId'⟩ := hsectionOf.ids
    obtain rfl := Id.lock.inj (hid.symm.trans hid')
    obtain rfl := List.inj_on_of_nodup_map hids hsectionOf.unlock_mem hunlock
      (hunlockId'.trans hunlockId.symm)
    exact hsection

theorem excludes_iff (h : Sections trace) (hids : (trace.map Stmt.id).Nodup) {order : Trace} :
    Excludes Stmt.tid Stmt.mutexUse trace order ↔ Exclusive trace order := by
  simp only [Excludes, Exclusive, h.criticalSection_iff hids]

/-- The complete runs of the threads are the executions. -/
theorem exists_mutexRun_iff (h : Sections trace) (hids : (trace.map Stmt.id).Nodup)
    {order : Trace} :
    (∃ s, MutexRun Stmt.tid Stmt.mutexUse trace order s ∧ s.Ended) ↔ Execution trace order := by
  rw [Schedule.exists_mutexRun_iff hids.of_map h.alternates, h.excludes_iff hids]
  exact ⟨fun hboth => ⟨hboth.1, hboth.2⟩, fun horder => ⟨horder.threads, horder.exclusive⟩⟩

end Sections

/-- **Running what step 4 has repaired.** In every state of a run whose rows are different, threads
that run the trace with a mutex can always go on to their ends, and what they have executed by then
is an execution: the solver is asked for all of them and for nothing else. -/
theorem run_completes (input : MpaInput) (z : Nat → Solver Var)
    (hplain : ∀ x ∈ input.trace, x.Plain) (n : Nat) (s : RepairState)
    (hrun : run input z n = some s) (hids : (s.trace.map Stmt.id).Nodup) :
    (∀ order state, MutexRun Stmt.tid Stmt.mutexUse s.trace order state →
      ∃ more, Execution s.trace (order ++ more)) ∧
    ∀ order, (∃ state, MutexRun Stmt.tid Stmt.mutexUse s.trace order state ∧ state.Ended) ↔
      Execution s.trace order := by
  have hsections : Sections s.trace := by
    rcases run_good hplain hrun with hgood | ⟨hrepeats, -⟩
    · exact hgood.sound.sections
    · exact absurd hids hrepeats.not_nodup
  refine ⟨fun order state hstate => ?_, fun order => hsections.exists_mutexRun_iff hids⟩
  obtain ⟨more, next, hnext, hended⟩ := hstate.exists_completion hsections.alternates
  exact ⟨more, (hsections.exists_mutexRun_iff hids).mp ⟨next, hnext, hended⟩⟩

/-- The first repair of this run leaves a trace that runs to its end. -/
theorem run_completes_lastRead :
    ∃ s, run lastReadInput (fun _ => .classical) 1 = some s ∧
      ∀ order state, MutexRun Stmt.tid Stmt.mutexUse s.trace order state →
        ∃ more, Execution s.trace (order ++ more) := by
  obtain ⟨g, hstep⟩ := lastRead_first .classical
  have hrun : run lastReadInput (fun _ => .classical) 1 = some ⟨lastReadLocked, g, true⟩ := by
    rw [@run_succ_of_true lastReadInput (fun _ => .classical) 0 (.start lastReadInput) rfl rfl]
    exact hstep
  have hids : (lastReadLocked.map Stmt.id).Nodup := by decide
  exact ⟨_, hrun, (run_completes lastReadInput (fun _ => .classical) (by decide) 1 _ hrun hids).1⟩

end PMBugRepair
