import PMBugRepair.Step4.Append
import PMBugRepair.Step4.Sections

/-!
# `removeDeadlocks`

After every call of `addLocks` the locks and unlocks that do not fit are taken out: a lock while
another one is open, and an unlock that is not the one of the open lock. What is left is a trace of
sections as soon as every section stays within its thread.
-/

namespace PMBugRepair

/-- The unlock with the text `"Un" + lock`. -/
def Stmt.closes (x lock : Stmt) : Bool := decide (x.id.str = 'U' :: 'n' :: lock.id.str)

/-- Lines 490-500 for one row: it is kept, with the lock that is open behind it, or dropped. -/
def deadlockStep (openLock : Option Stmt) (x : Stmt) : Option (Option Stmt) :=
  if x.op = .lock ∧ openLock = none then some (some x)
  else if x.op = .unlock ∧ openLock.any x.closes then some none
  else if x.Plain then some openLock
  else none

/-- The loop. A row that is dropped is noted as `"Lock_" + str(trace[i][0]).split("_")[1]`, which
raises an exception for a number without underscore. -/
def removeFrom (openLock : Option Stmt) (g : LockGlobals) : Trace → Option (Trace × LockGlobals)
  | [] => some ([], g)
  | x :: rest =>
      match deadlockStep openLock x with
      | some openLock => (removeFrom openLock g rest).map fun out => (x :: out.1, out.2)
      | none =>
          if '_' ∈ x.id.str then removeFrom openLock { g with numLocks := g.numLocks - 1 } rest
          else none

def removeDeadlocks (g : LockGlobals) (trace : Trace) : Option (Trace × LockGlobals) :=
  removeFrom none g trace

/-! ### What is kept -/

/-- The lock that is open behind a row. -/
def lockNext (openLock : Option Stmt) (x : Stmt) : Option Stmt :=
  (deadlockStep openLock x).getD openLock

def lockAfter (openLock : Option Stmt) : Trace → Option Stmt
  | [] => openLock
  | x :: rest => lockAfter (lockNext openLock x) rest

def kept (openLock : Option Stmt) : Trace → Trace
  | [] => []
  | x :: rest =>
      (if (deadlockStep openLock x).isSome then [x] else []) ++ kept (lockNext openLock x) rest

/-- The statements that stand in a section. -/
def inside (openLock : Option Stmt) : Trace → Trace
  | [] => []
  | x :: rest => (if openLock ≠ none ∧ x.Plain then [x] else []) ++ inside (lockNext openLock x) rest

section Kept

variable {openLock : Option Stmt} {x : Stmt} {trace : Trace}

theorem deadlockStep_plain (hx : x.Plain) : deadlockStep openLock x = some openLock := by
  rw [deadlockStep, if_neg fun h => hx.1 h.1, if_neg fun h => hx.2 h.1, if_pos hx]

theorem not_plain_of_dropped (h : deadlockStep openLock x = none) : ¬x.Plain := by
  intro hplain
  rw [deadlockStep_plain hplain] at h
  cases h

theorem deadlockStep_lock (hx : x.op = .lock) : deadlockStep none x = some (some x) := by
  rw [deadlockStep, if_pos ⟨hx, rfl⟩]

theorem deadlockStep_nested {lock : Stmt} (hx : x.op = .lock) :
    deadlockStep (some lock) x = none := by
  simp [deadlockStep, hx, Stmt.Plain]

theorem deadlockStep_close {lock : Stmt} (hx : x.op = .unlock) (hcloses : x.closes lock = true) :
    deadlockStep (some lock) x = some none := by
  simp [deadlockStep, hx, hcloses]

theorem deadlockStep_stray (hx : x.op = .unlock)
    (hcloses : ∀ lock, openLock = some lock → x.closes lock = false) :
    deadlockStep openLock x = none := by
  cases openLock with
  | none => simp [deadlockStep, hx, Stmt.Plain]
  | some lock => simp [deadlockStep, hx, Stmt.Plain, hcloses lock rfl]

/-- A row is plain, opens a section, closes the open one, or is dropped. -/
theorem deadlockStep_cases (openLock : Option Stmt) (x : Stmt) :
    (x.Plain ∧ deadlockStep openLock x = some openLock) ∨
      (x.op = .lock ∧ openLock = none ∧ deadlockStep openLock x = some (some x)) ∨
      (x.op = .unlock ∧ (∃ lock, openLock = some lock ∧ x.closes lock = true) ∧
        deadlockStep openLock x = some none) ∨
      (¬x.Plain ∧ deadlockStep openLock x = none) := by
  by_cases hplain : x.Plain
  · exact .inl ⟨hplain, deadlockStep_plain hplain⟩
  · by_cases hlock : x.op = .lock
    · cases openLock with
      | none => exact .inr (.inl ⟨hlock, rfl, deadlockStep_lock hlock⟩)
      | some lock => exact .inr (.inr (.inr ⟨hplain, deadlockStep_nested hlock⟩))
    · have hunlock : x.op = .unlock := by
        by_contra hne
        exact hplain ⟨hlock, hne⟩
      by_cases hcloses : ∃ lock, openLock = some lock ∧ x.closes lock = true
      · obtain ⟨lock, rfl, hlock⟩ := hcloses
        exact .inr (.inr (.inl ⟨hunlock, ⟨lock, rfl, hlock⟩, deadlockStep_close hunlock hlock⟩))
      · refine .inr (.inr (.inr ⟨hplain, deadlockStep_stray hunlock fun lock heq => ?_⟩))
        rw [← Bool.not_eq_true]
        exact fun h => hcloses ⟨lock, heq, h⟩

theorem lockNext_of_some {next : Option Stmt} (h : deadlockStep openLock x = some next) :
    lockNext openLock x = next := by
  rw [lockNext, h, Option.getD_some]

theorem lockNext_of_none (h : deadlockStep openLock x = none) : lockNext openLock x = openLock := by
  rw [lockNext, h, Option.getD_none]

theorem lockNext_plain (hx : x.Plain) : lockNext openLock x = openLock :=
  lockNext_of_some (deadlockStep_plain hx)

theorem kept_cons_of_some {next : Option Stmt} (h : deadlockStep openLock x = some next) :
    kept openLock (x :: trace) = x :: kept next trace := by
  rw [kept, lockNext_of_some h, h]
  rfl

theorem kept_cons_of_none (h : deadlockStep openLock x = none) :
    kept openLock (x :: trace) = kept openLock trace := by
  rw [kept, lockNext_of_none h, h]
  rfl

theorem lockAfter_append (left right : Trace) :
    lockAfter openLock (left ++ right) = lockAfter (lockAfter openLock left) right := by
  induction left generalizing openLock with
  | nil => rfl
  | cons x left ih => exact ih

theorem kept_append (left right : Trace) :
    kept openLock (left ++ right) = kept openLock left ++ kept (lockAfter openLock left) right := by
  induction left generalizing openLock with
  | nil => rfl
  | cons x left ih => rw [List.cons_append, kept, kept, lockAfter, ih, List.append_assoc]

theorem inside_append (left right : Trace) :
    inside openLock (left ++ right) =
      inside openLock left ++ inside (lockAfter openLock left) right := by
  induction left generalizing openLock with
  | nil => rfl
  | cons x left ih => rw [List.cons_append, inside, inside, lockAfter, ih, List.append_assoc]

theorem kept_sublist : (kept openLock trace).Sublist trace := by
  induction trace generalizing openLock with
  | nil => exact List.Sublist.refl []
  | cons x rest ih =>
      cases hstep : deadlockStep openLock x with
      | none =>
          rw [kept_cons_of_none hstep]
          exact ih.cons x
      | some next =>
          rw [kept_cons_of_some hstep]
          exact ih.cons_cons x

theorem mem_kept (hplain : x.Plain) : x ∈ kept openLock trace ↔ x ∈ trace := by
  induction trace generalizing openLock with
  | nil => exact Iff.rfl
  | cons y rest ih =>
      cases hstep : deadlockStep openLock y with
      | none =>
          have hne : x ≠ y := by
            rintro rfl
            rw [deadlockStep_plain hplain] at hstep
            cases hstep
          rw [kept_cons_of_none hstep, ih, List.mem_cons]
          simp [hne]
      | some next => rw [kept_cons_of_some hstep, List.mem_cons, ih, List.mem_cons]

/-- A second pass drops nothing and sees the same open locks. -/
theorem kept_idem :
    kept openLock (kept openLock trace) = kept openLock trace ∧
      lockAfter openLock (kept openLock trace) = lockAfter openLock trace ∧
      inside openLock (kept openLock trace) = inside openLock trace := by
  induction trace generalizing openLock with
  | nil => exact ⟨rfl, rfl, rfl⟩
  | cons x rest ih =>
      cases hstep : deadlockStep openLock x with
      | none =>
          have hplain := not_plain_of_dropped hstep
          rw [kept_cons_of_none hstep, lockAfter, inside, lockNext_of_none hstep,
            if_neg fun h => hplain h.2]
          exact ih
      | some next =>
          obtain ⟨hkept, hlock, hinside⟩ := @ih next
          rw [kept_cons_of_some hstep, kept_cons_of_some hstep, lockAfter, lockAfter, inside,
            inside,
            lockNext_of_some hstep, hkept, hlock, hinside]
          exact ⟨rfl, rfl, rfl⟩

/-- The loop keeps what `kept` keeps, unless it raises an exception. -/
theorem removeFrom_some {g g' : LockGlobals} {out : Trace}
    (h : removeFrom openLock g trace = some (out, g')) :
    out = kept openLock trace ∧ g'.r = g.r := by
  induction trace generalizing openLock g out g' with
  | nil =>
      obtain ⟨rfl, rfl⟩ := Prod.mk.inj (Option.some.inj h)
      exact ⟨rfl, rfl⟩
  | cons x rest ih =>
      rw [removeFrom] at h
      cases hstep : deadlockStep openLock x with
      | some next =>
          rw [hstep] at h
          obtain ⟨⟨out', g''⟩, hrest, heq⟩ := Option.map_eq_some_iff.mp h
          obtain ⟨rfl, rfl⟩ := Prod.mk.inj heq
          obtain ⟨rfl, hr⟩ := ih hrest
          exact ⟨(kept_cons_of_some hstep).symm, hr⟩
      | none =>
          rw [hstep] at h
          simp only at h
          split at h
          · obtain ⟨rfl, hr⟩ := ih h
            exact ⟨(kept_cons_of_none hstep).symm, hr⟩
          · cases h

theorem removeFrom_of_kept {g : LockGlobals}
    (h : kept openLock trace = trace) : removeFrom openLock g trace = some (trace, g) := by
  induction trace generalizing openLock with
  | nil => rfl
  | cons x rest ih =>
      rw [removeFrom]
      cases hstep : deadlockStep openLock x with
      | some next =>
          rw [kept_cons_of_some hstep, List.cons.injEq] at h
          simp only [ih h.2, Option.map_some]
      | none =>
          rw [kept_cons_of_none hstep] at h
          have hlength := (@kept_sublist openLock rest).length_le
          rw [h, List.length_cons] at hlength
          omega

end Kept

/-! ### Sections that end behind a fence -/

/-- The open lock, and whether a store that needs a fence has executed since the last one. -/
structure Guard where
  lock : Option Stmt
  pending : Bool

namespace Guard

def start : Guard := ⟨none, false⟩

def step (needs : Stmt → Bool) (s : Guard) (x : Stmt) : Guard :=
  { lock := lockNext s.lock x
    pending :=
      if x.Plain then !x.isFence && (needs x || s.pending)
      else s.pending && decide (x.op ≠ .lock ∨ s.lock ≠ none) }

def after (needs : Stmt → Bool) (s : Guard) (trace : Trace) : Guard := trace.foldl (step needs) s

/-- A lock that opens a section has the number of a lock; a section holds statements of its own
thread and ends when nothing in it needs a fence any more. -/
structure Allows (s : Guard) (x : Stmt) : Prop where
  label : x.op = .lock → s.lock = none → ∃ k, x.id = .lock k
  thread : ∀ lock, s.lock = some lock → x.Plain → x.tid = lock.tid
  fenced : ∀ lock, s.lock = some lock → x.op = .unlock → x.closes lock = true →
    s.pending = false ∧ x.tid = lock.tid

def AllowsAll (needs : Stmt → Bool) : Guard → Trace → Prop
  | _, [] => True
  | s, x :: rest => s.Allows x ∧ AllowsAll needs (s.step needs x) rest

/-- The same open lock, and nothing pending that the other does not know of. -/
structure Le (t s : Guard) : Prop where
  lock : t.lock = s.lock
  pending : t.lock ≠ none → t.pending = true → s.pending = true

variable {needs : Stmt → Bool} {s t : Guard} {x : Stmt} {trace : Trace}

theorem Le.refl (s : Guard) : Le s s := ⟨rfl, fun _ h => h⟩

theorem after_lock : (s.after needs trace).lock = lockAfter s.lock trace := by
  induction trace generalizing s with
  | nil => rfl
  | cons x rest ih => exact ih

theorem after_append (left right : Trace) :
    s.after needs (left ++ right) = (s.after needs left).after needs right :=
  List.foldl_append

theorem allowsAll_append {left right : Trace} :
    AllowsAll needs s (left ++ right) ↔
      AllowsAll needs s left ∧ AllowsAll needs (s.after needs left) right := by
  induction left generalizing s with
  | nil => simp [AllowsAll, after]
  | cons x left ih =>
      rw [List.cons_append, AllowsAll, AllowsAll, ih, and_assoc]
      rfl

theorem step_of_dropped (h : deadlockStep s.lock x = none) : s.step needs x = s := by
  have hplain := not_plain_of_dropped h
  have hlock : x.op ≠ .lock ∨ s.lock ≠ none := by
    by_contra hnot
    rw [not_or, not_not, not_not] at hnot
    rw [hnot.2, deadlockStep_lock hnot.1] at h
    cases h
  rw [step, lockNext_of_none h, if_neg hplain, decide_eq_true hlock, Bool.and_true]

/-- Dropped rows do not matter. -/
theorem allowsAll_kept (h : AllowsAll needs s trace) :
    AllowsAll needs s (kept s.lock trace) ∧
      s.after needs (kept s.lock trace) = s.after needs trace := by
  induction trace generalizing s with
  | nil => exact ⟨h, rfl⟩
  | cons x rest ih =>
      cases hstep : deadlockStep s.lock x with
      | none =>
          obtain ⟨hallows, hafter⟩ := ih (@step_of_dropped needs s x hstep ▸ h.2)
          rw [kept_cons_of_none hstep]
          refine ⟨hallows, hafter.trans ?_⟩
          rw [after, after, List.foldl_cons, step_of_dropped hstep]
      | some next =>
          have hlock : (s.step needs x).lock = next := lockNext_of_some hstep
          obtain ⟨hallows, hafter⟩ := ih h.2
          rw [hlock] at hallows hafter
          rw [kept_cons_of_some hstep]
          exact ⟨⟨h.1, hallows⟩, hafter⟩

theorem Le.step (h : Le t s) : Le (t.step needs x) (s.step needs x) := by
  refine ⟨by simp only [Guard.step, h.lock], fun hopen hpending => ?_⟩
  simp only [Guard.step] at hopen hpending ⊢
  by_cases hplain : x.Plain
  · rw [lockNext_plain hplain] at hopen
    have hle := h.pending hopen
    simp only [if_pos hplain, Bool.and_eq_true, Bool.or_eq_true] at hpending ⊢
    exact ⟨hpending.1, hpending.2.imp_right hle⟩
  · simp only [if_neg hplain, Bool.and_eq_true, decide_eq_true_eq] at hpending ⊢
    rw [← h.lock]
    refine ⟨?_, hpending.2⟩
    rcases deadlockStep_cases t.lock x with ⟨hx, -⟩ | ⟨hx, hnone, -⟩ | ⟨-, -, hclose⟩ | ⟨-, hdrop⟩
    · exact absurd hx hplain
    · exact absurd hnone (hpending.2.resolve_left fun hne => hne hx)
    · rw [lockNext_of_some hclose] at hopen
      exact absurd rfl hopen
    · rw [lockNext_of_none hdrop] at hopen
      exact h.pending hopen hpending.1

theorem Le.allows (h : Le t s) (hs : s.Allows x) : t.Allows x := by
  refine ⟨fun hop hnone => hs.label hop (h.lock ▸ hnone), fun lock hlock => ?_,
    fun lock hlock hop hcloses => ?_⟩
  · exact hs.thread lock (h.lock ▸ hlock)
  · obtain ⟨hpending, htid⟩ := hs.fenced lock (h.lock ▸ hlock) hop hcloses
    refine ⟨?_, htid⟩
    rw [← Bool.not_eq_true] at hpending ⊢
    exact fun ht => hpending (h.pending (by rw [hlock]; simp) ht)

theorem Le.allowsAll (h : Le t s) (hs : AllowsAll needs s trace) :
    AllowsAll needs t trace ∧ Le (t.after needs trace) (s.after needs trace) := by
  induction trace generalizing s t with
  | nil => exact ⟨trivial, h⟩
  | cons x rest ih =>
      obtain ⟨hallows, hle⟩ := ih h.step hs.2
      exact ⟨⟨h.allows hs.1, hallows⟩, hle⟩

end Guard

/-! ### The sections of a trace -/

theorem Stmt.closes_iff {x lock : Stmt} {k : Nat} (hlock : lock.id = .lock k) :
    x.closes lock = true ↔ x.id = .unlock k := by
  have htext : 'U' :: 'n' :: lock.id.str = (Id.unlock k).str := by rw [hlock]; rfl
  rw [Stmt.closes, htext, decide_eq_true_iff]
  exact ⟨fun h => Id.str_injective h, fun h => by rw [h]⟩

section Decompose

variable {needs : Stmt → Bool} {s : Guard} {trace : Trace}

/-- The rest of the section of an open lock: plain rows of its thread, with a fence among them if
one is needed, and its unlock. -/
structure SectionTail (needs : Stmt → Bool) (s : Guard) (lock : Stmt) (k : Nat)
    (trace body : Trace) (unlock : Stmt) (rest : Trace) : Prop where
  kept_eq : kept s.lock trace = body ++ unlock :: kept none rest
  body_spec : ∀ y ∈ body, y.Plain ∧ y.tid = lock.tid
  op : unlock.op = .unlock
  id : unlock.id = .unlock k
  tid : unlock.tid = lock.tid
  fence : s.pending = true → ∃ fence ∈ body, fence.op = .fence
  split : ∃ before, trace = before ++ unlock :: rest
  closed : lockAfter none rest = none
  allows : ∃ p, Guard.AllowsAll needs ⟨none, p⟩ rest

/-- Behind an open lock comes the rest of its section. -/
theorem Guard.AllowsAll.sectionTail {lock : Stmt} {k : Nat} (h : AllowsAll needs s trace)
    (hclosed : lockAfter s.lock trace = none) (hlock : s.lock = some lock) (hid : lock.id = .lock k) :
    ∃ body unlock rest, SectionTail needs s lock k trace body unlock rest := by
  induction trace generalizing s with
  | nil =>
      rw [lockAfter, hlock] at hclosed
      cases hclosed
  | cons x rest ih =>
      rw [lockAfter] at hclosed
      rcases deadlockStep_cases s.lock x with
        ⟨hplain, hstep⟩ | ⟨-, hnone, -⟩ | ⟨hop, ⟨lock', hlock', hcloses⟩, hstep⟩ | ⟨hplain, hstep⟩
      · -- a plain row belongs to the section
        rw [lockNext_of_some hstep] at hclosed
        have hnext : (s.step needs x).lock = s.lock := lockNext_of_some hstep
        obtain ⟨body, unlock, rest', htail⟩ :=
          ih h.2 (by rw [hnext]; exact hclosed) (by rw [hnext]; exact hlock)
        obtain ⟨before, hbefore⟩ := htail.split
        refine ⟨x :: body, unlock, rest', { htail with
          kept_eq := ?_
          body_spec := List.forall_mem_cons.mpr
            ⟨⟨hplain, h.1.thread lock hlock hplain⟩, htail.body_spec⟩
          fence := fun hpending => ?_
          split := ⟨x :: before, by rw [hbefore]; rfl⟩ }⟩
        · have hkept := htail.kept_eq
          rw [hnext] at hkept
          rw [kept_cons_of_some hstep, hkept]
          rfl
        · by_cases hxFence : x.op = .fence
          · exact ⟨x, List.mem_cons_self, hxFence⟩
          · have hstill : (s.step needs x).pending = true := by
              simp [Guard.step, hplain, Stmt.isFence, hxFence, hpending]
            obtain ⟨fence, hmem, hfenceOp⟩ := htail.fence hstill
            exact ⟨fence, List.mem_cons_of_mem x hmem, hfenceOp⟩
      · rw [hlock] at hnone
        cases hnone
      · -- the unlock of the section
        obtain rfl : lock = lock' := Option.some.inj (hlock.symm.trans hlock')
        obtain ⟨hpending, htid⟩ := h.1.fenced lock hlock hop hcloses
        rw [lockNext_of_some hstep] at hclosed
        have hnext : (⟨none, (s.step needs x).pending⟩ : Guard) = s.step needs x := by
          rw [Guard.step, lockNext_of_some hstep]
        refine ⟨[], x, rest, kept_cons_of_some hstep, by simp, hop,
          (Stmt.closes_iff hid).mp hcloses,
          htid, fun h => ?_, ⟨[], rfl⟩, hclosed, (s.step needs x).pending, by rw [hnext]; exact h.2⟩
        rw [hpending] at h
        cases h
      · -- a row that is dropped
        rw [lockNext_of_none hstep] at hclosed
        have hsame := @Guard.step_of_dropped needs s x hstep
        obtain ⟨body, unlock, rest', htail⟩ := ih (hsame ▸ h.2) hclosed hlock
        obtain ⟨before, hbefore⟩ := htail.split
        exact ⟨body, unlock, rest', { htail with
          kept_eq := by rw [kept_cons_of_none hstep, htail.kept_eq]
          split := ⟨x :: before, by rw [hbefore]; rfl⟩ }⟩

/-- What is kept of an allowed trace is a trace of sections. -/
theorem Guard.AllowsAll.sections {s : Guard} {trace : Trace} (h : AllowsAll needs s trace)
    (hlock : s.lock = none) (hclosed : lockAfter none trace = none) :
    Sections (kept none trace) := by
  match trace with
  | [] => exact .nil
  | x :: rest =>
      rw [lockAfter] at hclosed
      rcases deadlockStep_cases none x with
        ⟨hplain, hstep⟩ | ⟨hop, -, hstep⟩ | ⟨-, ⟨lock, hlock', -⟩, -⟩ | ⟨hplain, hstep⟩
      · rw [lockNext_of_some hstep] at hclosed
        rw [kept_cons_of_some hstep]
        have hnext : (s.step needs x).lock = none := by
          rw [Guard.step, hlock]
          exact lockNext_of_some hstep
        exact .plain hplain (Guard.AllowsAll.sections h.2 hnext hclosed)
      · rw [lockNext_of_some hstep] at hclosed
        rw [kept_cons_of_some hstep]
        obtain ⟨k, hid⟩ := h.1.label hop hlock
        have hnext : (s.step needs x).lock = some x := by
          rw [Guard.step, hlock]
          exact lockNext_of_some hstep
        obtain ⟨body, unlock, rest', htail⟩ :=
          h.2.sectionTail (by rw [hnext]; exact hclosed) hnext hid
        obtain ⟨before, hbefore⟩ := htail.split
        obtain ⟨p, hallows⟩ := htail.allows
        have hkept := htail.kept_eq
        rw [hnext] at hkept
        rw [hkept]
        have hshorter : rest'.length < (x :: rest).length := by
          rw [hbefore]
          simp only [List.length_cons, List.length_append]
          omega
        exact .block hop hid htail.body_spec htail.op htail.id htail.tid
          (Guard.AllowsAll.sections hallows rfl htail.closed)
      · cases hlock'
      · rw [lockNext_of_none hstep] at hclosed
        rw [kept_cons_of_none hstep]
        have hsame : s.step needs x = s := Guard.step_of_dropped (by rw [hlock]; exact hstep)
        have hrest : Guard.AllowsAll needs s rest := hsame ▸ h.2
        exact Guard.AllowsAll.sections hrest hlock hclosed
termination_by trace.length

end Decompose

end PMBugRepair
