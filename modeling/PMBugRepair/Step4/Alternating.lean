import PMBugRepair.Step4.Deadlocks

/-!
# The locks that `removeDeadlocks` leaves

Whatever the locks and unlocks of a list are, those that are left come in pairs that do not overlap,
up to one lock at the end that is not closed.
-/

namespace PMBugRepair

/-- The locks have the numbers of locks, and the unlocks those of unlocks. -/
def NumberedLocks (trace : Trace) : Prop :=
  ∀ x ∈ trace, (x.op = .lock → ∃ k, x.id = .lock k) ∧ (x.op = .unlock → ∃ k, x.id = .unlock k)

/-- Every lock is followed by an unlock with its number. -/
def ClosedLater : Trace → Prop
  | [] => True
  | x :: rest =>
      (x.op = .lock → ∀ k, x.id = .lock k → ∃ y ∈ rest, y.op = .unlock ∧ y.id = .unlock k) ∧
        ClosedLater rest

/-- The locks and unlocks. -/
def locksOf (trace : Trace) : Trace := trace.filter fun x => ¬x.Plain

/-- `Lock_a, UnLock_a, Lock_b, UnLock_b, ...`, with or without an unmatched lock at the end. -/
inductive Alternating : Bool → Trace → Prop
  | nil : Alternating false []
  | unmatched {lock : Stmt} {k : Nat} (hlock : lock.op = .lock) (hid : lock.id = .lock k) :
      Alternating true [lock]
  | pair {lock unlock : Stmt} {k : Nat} {rest : Trace} {isOpen : Bool} (hlock : lock.op = .lock)
      (hid : lock.id = .lock k) (hunlock : unlock.op = .unlock) (hunlockId : unlock.id = .unlock k)
      (hrest : Alternating isOpen rest) : Alternating isOpen (lock :: unlock :: rest)

variable {x : Stmt} {trace : Trace} {openLock : Option Stmt}

theorem locksOf_cons_plain (hx : x.Plain) : locksOf (x :: trace) = locksOf trace :=
  List.filter_cons_of_neg (by simpa using hx)

theorem locksOf_cons_of_not_plain (hx : ¬x.Plain) : locksOf (x :: trace) = x :: locksOf trace :=
  List.filter_cons_of_pos (by simpa using hx)

theorem underscore_mem_of_numbered (h : NumberedLocks (x :: trace)) (hx : ¬x.Plain) :
    '_' ∈ x.id.str := by
  obtain ⟨hlock, hunlock⟩ := h x List.mem_cons_self
  by_cases hop : x.op = .lock
  · obtain ⟨k, hid⟩ := hlock hop
    rw [hid, Id.str]
    simp
  · obtain ⟨k, hid⟩ := hunlock (by_contra fun hne => hx ⟨hop, hne⟩)
    rw [hid, Id.str]
    simp

theorem removeFrom_of_numbered (h : NumberedLocks trace) (g : LockGlobals) :
    ∃ g', removeFrom openLock g trace = some (kept openLock trace, g') := by
  induction trace generalizing openLock g with
  | nil => exact ⟨g, rfl⟩
  | cons x rest ih =>
      have hrest : NumberedLocks rest := fun y hy => h y (List.mem_cons_of_mem x hy)
      rw [removeFrom]
      cases hstep : deadlockStep openLock x with
      | some next =>
          obtain ⟨g', hg'⟩ := @ih next hrest g
          refine ⟨g', ?_⟩
          simp only [hg', Option.map_some, kept_cons_of_some hstep]
      | none =>
          have hplain := not_plain_of_dropped hstep
          obtain ⟨g', hg'⟩ := @ih openLock hrest { g with numLocks := g.numLocks - 1 }
          refine ⟨g', ?_⟩
          simp only [if_pos (underscore_mem_of_numbered h hplain), hg', kept_cons_of_none hstep]

theorem filter_plain_kept :
    (kept openLock trace).filter (·.Plain) = trace.filter (·.Plain) := by
  induction trace generalizing openLock with
  | nil => rfl
  | cons x rest ih =>
      cases hstep : deadlockStep openLock x with
      | some next => rw [kept_cons_of_some hstep, List.filter_cons, List.filter_cons, ih]
      | none =>
          have hplain := not_plain_of_dropped hstep
          rw [kept_cons_of_none hstep, List.filter_cons_of_neg (by simpa using hplain), ih]

/-- The open lock and what is left behind it alternate. -/
theorem alternating_kept (h : NumberedLocks trace)
    (hopen : ∀ lock, openLock = some lock → lock.op = .lock ∧ ∃ k, lock.id = .lock k) :
    Alternating (lockAfter openLock trace).isSome
      (openLock.toList ++ locksOf (kept openLock trace)) := by
  induction trace generalizing openLock with
  | nil =>
      cases openLock with
      | none => exact .nil
      | some lock =>
          obtain ⟨hlock, k, hid⟩ := hopen lock rfl
          exact .unmatched hlock hid
  | cons x rest ih =>
      have hrest : NumberedLocks rest := fun y hy => h y (List.mem_cons_of_mem x hy)
      rw [lockAfter]
      rcases deadlockStep_cases openLock x with
        ⟨hplain, hstep⟩ | ⟨hop, rfl, hstep⟩ | ⟨hop, ⟨lock, rfl, hcloses⟩, hstep⟩ | ⟨hplain, hstep⟩
      · rw [kept_cons_of_some hstep, locksOf_cons_plain hplain, lockNext_of_some hstep]
        exact ih hrest hopen
      · have hplain : ¬x.Plain := fun hplain => hplain.1 hop
        rw [kept_cons_of_some hstep, locksOf_cons_of_not_plain hplain, lockNext_of_some hstep]
        refine @ih (some x) hrest fun lock heq => ?_
        obtain rfl := Option.some.inj heq
        exact ⟨hop, (h x List.mem_cons_self).1 hop⟩
      · have hplain : ¬x.Plain := fun hplain => hplain.2 hop
        obtain ⟨hlock, k, hid⟩ := hopen lock rfl
        rw [kept_cons_of_some hstep, locksOf_cons_of_not_plain hplain, lockNext_of_some hstep]
        exact .pair hlock hid hop ((Stmt.closes_iff hid).mp hcloses)
          (@ih none hrest fun lock heq => absurd heq.symm (Option.some_ne_none lock))
      · rw [kept_cons_of_none hstep, lockNext_of_none hstep]
        exact ih hrest hopen

/-- A lock whose unlock follows does not stay open. -/
theorem lockAfter_of_closedLater (h : NumberedLocks trace) (hclosed : ClosedLater trace)
    (hopen : ∀ lock, openLock = some lock →
      ∃ k, lock.id = .lock k ∧ ∃ y ∈ trace, y.op = .unlock ∧ y.id = .unlock k) :
    lockAfter openLock trace = none := by
  induction trace generalizing openLock with
  | nil =>
      cases openLock with
      | none => rfl
      | some lock =>
          obtain ⟨k, -, y, hy, -⟩ := hopen lock rfl
          cases hy
  | cons x rest ih =>
      have hrest : NumberedLocks rest := fun y hy => h y (List.mem_cons_of_mem x hy)
      -- a row that does not close the open lock leaves its unlock in the rest
      have hstill : ∀ lock, openLock = some lock → (x.op = .unlock → x.closes lock = false) →
          ∃ k, lock.id = .lock k ∧ ∃ y ∈ rest, y.op = .unlock ∧ y.id = .unlock k := by
        intro lock hlock hx
        obtain ⟨k, hid, y, hy, hop, hyid⟩ := hopen lock hlock
        rcases List.mem_cons.mp hy with rfl | hy
        · have hnot := hx hop
          rw [(Stmt.closes_iff hid).mpr hyid] at hnot
          cases hnot
        · exact ⟨k, hid, y, hy, hop, hyid⟩
      rw [lockAfter]
      rcases deadlockStep_cases openLock x with
        ⟨hplain, hstep⟩ | ⟨hop, rfl, hstep⟩ | ⟨hop, ⟨lock, rfl, hcloses⟩, hstep⟩ | ⟨hplain, hstep⟩
      · rw [lockNext_of_some hstep]
        exact ih hrest hclosed.2 fun lock hlock => hstill lock hlock fun hop => absurd hop hplain.2
      · rw [lockNext_of_some hstep]
        refine @ih (some x) hrest hclosed.2 fun lock heq => ?_
        obtain rfl := Option.some.inj heq
        obtain ⟨k, hid⟩ := (h x List.mem_cons_self).1 hop
        exact ⟨k, hid, hclosed.1 hop k hid⟩
      · rw [lockNext_of_some hstep]
        exact @ih none hrest hclosed.2 fun lock heq => absurd heq.symm (Option.some_ne_none lock)
      · rw [lockNext_of_none hstep]
        refine ih hrest hclosed.2 fun lock hlock => hstill lock hlock fun hop => ?_
        by_contra hcloses
        rw [Bool.not_eq_false] at hcloses
        rw [hlock, deadlockStep_close hop hcloses] at hstep
        cases hstep

/-- `removeDeadlocks` on any list of statements. -/
theorem removeDeadlocks_alternating (trace : Trace) (h : NumberedLocks trace) (g : LockGlobals) :
    ∃ out g', removeDeadlocks g trace = some (out, g') ∧ out.Sublist trace ∧
      out.filter (·.Plain) = trace.filter (·.Plain) ∧
      (∃ isOpen, Alternating isOpen (locksOf out)) ∧
      (∀ g, removeDeadlocks g out = some (out, g)) ∧
      (ClosedLater trace → Alternating false (locksOf out)) := by
  obtain ⟨g', hremove⟩ := @removeFrom_of_numbered trace none h g
  have halternating := @alternating_kept trace none h fun lock heq => nomatch heq
  refine ⟨kept none trace, g', hremove, kept_sublist, filter_plain_kept, ⟨_, halternating⟩, ?_, ?_⟩
  · exact fun g => removeFrom_of_kept kept_idem.1
  · intro hclosed
    have hnone := @lockAfter_of_closedLater trace none h hclosed fun lock heq => nomatch heq
    rwa [hnone] at halternating

/-- Two sections that cross: the inner lock and its unlock are taken out. -/
def crossing : Trace :=
  [{ id := .lock 1, op := .lock, addr := "-1", dep := "-1", tid := 1, scope := "f_1_x" },
    { id := .lock 2, op := .lock, addr := "-1", dep := "-1", tid := 1, scope := "f_1_x" },
    { id := .line 3, op := .store, addr := "0x10", dep := "-1", tid := 1, scope := "f_1" },
    { id := .unlock 1, op := .unlock, addr := "-1", dep := "-1", tid := 1, scope := "f_1_x" },
    { id := .unlock 2, op := .unlock, addr := "-1", dep := "-1", tid := 1, scope := "f_1_x" }]

theorem numberedLocks_crossing : NumberedLocks crossing := by
  intro x hx
  simp only [crossing, List.mem_cons, List.not_mem_nil, or_false] at hx
  rcases hx with rfl | rfl | rfl | rfl | rfl <;> simp

theorem removeDeadlocks_alternating_crossing :
    NumberedLocks crossing ∧ ∃ out g', removeDeadlocks .start crossing = some (out, g') ∧
      ∃ isOpen, Alternating isOpen (locksOf out) := by
  obtain ⟨out, g', hremove, -, -, halternating, -⟩ :=
    removeDeadlocks_alternating crossing numberedLocks_crossing .start
  exact ⟨numberedLocks_crossing, out, g', hremove, halternating⟩

end PMBugRepair
