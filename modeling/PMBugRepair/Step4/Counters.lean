import PMBugRepair.Step4.Run

/-!
# `num_locks` and `num_fence`

The pass counts the locks and the fences of sections while it writes them. Both numbers stay those
of the trace as long as nothing is written twice and no unlock is dropped: `removeDeadlocks` takes
one off `num_locks` for a lock and another one for its unlock.
-/

namespace PMBugRepair

open Smt (Solver)

def Stmt.isFenceLock (x : Stmt) : Bool :=
  match x.id with
  | .fenceLock _ => true
  | _ => false

def countLocks (trace : Trace) : Nat := trace.countP fun x => x.op = .lock

def countFences (trace : Trace) : Nat := trace.countP Stmt.isFenceLock

@[simp] theorem countLocks_append (left right : Trace) :
    countLocks (left ++ right) = countLocks left + countLocks right := List.countP_append

@[simp] theorem countFences_append (left right : Trace) :
    countFences (left ++ right) = countFences left + countFences right := List.countP_append

theorem counts_of_not_sync {trace : Trace} (h : ∀ x ∈ trace, x.isSync = false) :
    countLocks trace = 0 ∧ countFences trace = 0 := by
  constructor <;> refine List.countP_eq_zero.mpr fun x hx => ?_
  · have hsync := h x hx
    simp only [Stmt.isSync, Bool.or_eq_false_iff] at hsync
    simpa using hsync.1.1
  · have hsync := h x hx
    simp only [Stmt.isSync, Bool.or_eq_false_iff] at hsync
    rw [Stmt.isFenceLock, Bool.not_eq_true]
    exact hsync.2

theorem Stmt.plain_of_not_sync {x : Stmt} (h : x.isSync = false) : x.Plain := by
  simp only [Stmt.isSync, Bool.or_eq_false_iff, beq_eq_false_iff_ne] at h
  exact ⟨h.1.1, h.1.2⟩

/-! ### What the loops count -/

/-- The row belongs to the section with the number. -/
def Stmt.Numbered (r : Nat) (x : Stmt) : Prop :=
  x.id = .lock r ∨ x.id = .unlock r ∨ x.id = .fenceLock r

/-- The counters have grown by the lock and the fence of the section with the number. -/
structure Grows (r : Nat) (g g' : LockGlobals) (out : Trace) : Prop where
  locks : g'.numLocks = g.numLocks + out.countP fun x => x.id = .lock r
  fences : g'.numFence = g.numFence + out.countP fun x => x.id = .fenceLock r

section Grows

variable {r : Nat} {own other : Id} {sec : LockSection} {candidates : List Id} {found store : Stmt}
  {g g' : LockGlobals} {trace : Trace}

theorem Grows.of_unused (hunused : ∀ x ∈ trace, ¬x.Numbered r) : Grows r g g trace := by
  have hlock : (trace.countP fun x => x.id = .lock r) = 0 :=
    List.countP_eq_zero.mpr fun x hx => by
      simpa using fun hid => hunused x hx (.inl hid)
  have hfence : (trace.countP fun x => x.id = .fenceLock r) = 0 :=
    List.countP_eq_zero.mpr fun x hx => by
      simpa using fun hid => hunused x hx (.inr (.inr hid))
  exact ⟨by rw [hlock]; simp, by rw [hfence]; simp⟩

theorem Grows.append {g'' : LockGlobals} {left right : Trace} (h : Grows r g g' left)
    (h' : Grows r g' g'' right) : Grows r g g'' (left ++ right) := by
  constructor
  · rw [h'.locks, h.locks, List.countP_append]
    push_cast
    ring
  · rw [h'.fences, h.fences, List.countP_append, Nat.add_assoc]

theorem Grows.lock {head : Trace} (hsec : sec = .new store r) (hhead : ∀ x ∈ head, ¬x.Numbered r) :
    Grows r g { g with numLocks := g.numLocks + 1 } (sec.lock :: head) := by
  have hrest := @Grows.of_unused r g head hhead
  have hlocks := hrest.locks
  have hfences := hrest.fences
  subst hsec
  constructor
  · rw [List.countP_cons_of_pos (by simp [LockSection.new, insertedStmt])]
    push_cast
    omega
  · rw [List.countP_cons_of_neg (by simp [LockSection.new, insertedStmt])]
    exact hfences

theorem Grows.fence (hsec : sec = .new store r) :
    Grows r g { g with numFence := g.numFence + 1 } [sec.fence, sec.unlock] := by
  subst hsec
  constructor <;> simp [LockSection.new, insertedStmt]

theorem Grows.unlock (hsec : sec = .new store r) : Grows r g g [sec.unlock] := by
  subst hsec
  constructor <;> simp [LockSection.new, insertedStmt]

theorem insideLoop_grows (hsec : sec = .new store r) (hunused : ∀ x ∈ trace, ¬x.Numbered r) :
    Grows r g (insideLoop own other sec candidates found g trace).globals
      (insideLoop own other sec candidates found g trace).out := by
  induction trace generalizing g found with
  | nil => exact .of_unused (by simp [insideLoop])
  | cons x rest ih =>
      obtain ⟨hx, hrest⟩ := List.forall_mem_cons.mp hunused
      have hrow : ∀ y ∈ [x], ¬y.Numbered r := by simpa using hx
      rw [insideLoop]
      split
      · exact (Grows.lock hsec hrow).append (ih hrest)
      · split
        · exact .fence hsec
        · exact (Grows.of_unused hrow).append (.unlock hsec)
        · refine (Grows.of_unused hrow).append ?_
          split
          · exact ⟨(ih hrest).locks, (ih hrest).fences⟩
          · exact ih hrest

theorem lockLoop_grows (hsec : sec = .new store r) (hunused : ∀ x ∈ trace, ¬x.Numbered r) :
    Grows r g (lockLoop own other sec candidates g trace).globals
      (lockLoop own other sec candidates g trace).out := by
  induction trace with
  | nil => exact .of_unused (by simp [lockLoop])
  | cons x rest ih =>
      obtain ⟨hx, hrest⟩ := List.forall_mem_cons.mp hunused
      have hrow : ∀ y ∈ [x], ¬y.Numbered r := by simpa using hx
      rw [lockLoop]
      split
      · exact (Grows.lock hsec hrow).append (insideLoop_grows hsec hrest)
      · exact (Grows.of_unused hrow).append (ih hrest)

theorem Copied.finish_grows {c : Copied} {stale : Trace} (hsec : sec = .new store r)
    (h : Grows r g c.globals c.out) :
    Grows r g (c.finish sec stale).globals (c.finish sec stale).out := by
  unfold Copied.finish
  split
  · exact h
  · exact h.append (.fence hsec)

theorem restrictedLoop_grows (hsec : sec = .new store r) (hunused : ∀ x ∈ trace, ¬x.Numbered r) :
    Grows r g
      (if (restrictedLoop own sec trace).2.isSome then { g with numLocks := g.numLocks + 1 } else g)
      (restrictedLoop own sec trace).1 := by
  induction trace using restrictedLoop.induct own sec with
  | case1 x y rest hid =>
      simp only [List.forall_mem_cons] at hunused
      rw [restrictedLoop, if_pos hid]
      have hlock := @Grows.lock r sec store g [x] hsec (by simpa using hunused.1)
      have hrow : ∀ z ∈ [y], ¬z.Numbered r := by simpa using hunused.2.1
      exact hlock.append ((Grows.unlock hsec).append (.of_unused hrow))
  | case2 x y rest hid ih =>
      obtain ⟨hx, hrest⟩ := List.forall_mem_cons.mp hunused
      rw [restrictedLoop, if_neg hid]
      have hrow : ∀ z ∈ [x], ¬z.Numbered r := by simpa using hx
      exact (Grows.of_unused hrow).append (ih hrest)
  | case3 trace hshort =>
      obtain rfl | ⟨x, rfl⟩ := Lists.eq_nil_or_singleton hshort
      · exact .of_unused (by simp [restrictedLoop])
      · exact .of_unused (by simp [restrictedLoop])

theorem restrictedLoop_resume_subset {out rest : Trace}
    (h : restrictedLoop own sec trace = (out, some rest)) : rest ⊆ trace := by
  induction trace using restrictedLoop.induct own sec generalizing out with
  | case1 x y tail hid =>
      rw [restrictedLoop, if_pos hid] at h
      obtain rfl := Option.some.inj (Prod.mk.inj h).2
      exact fun z hz => by simp [hz]
  | case2 x y tail hid ih =>
      rw [restrictedLoop, if_neg hid] at h
      exact fun z hz => List.mem_cons_of_mem x (ih (Prod.ext rfl (Prod.mk.inj h).2) hz)
  | case3 trace hshort =>
      obtain rfl | ⟨x, rfl⟩ := Lists.eq_nil_or_singleton hshort
      · cases h
      · cases h

theorem copyUntil_sublist {second : Id} : (copyUntil second trace).1.Sublist trace := by
  induction trace using copyUntil.induct second with
  | case1 x y rest hid =>
      rw [copyUntil, if_pos hid]
      exact List.nil_sublist _
  | case2 x y rest hid ih =>
      rw [copyUntil, if_neg hid]
      exact ih.cons_cons x
  | case3 trace hshort =>
      obtain rfl | ⟨x, rfl⟩ := Lists.eq_nil_or_singleton hshort
      · exact List.nil_sublist _
      · exact List.nil_sublist _

theorem searchLoop_grows {trace stale : Trace} {q : Phase} (hsec : sec = .new store r)
    (hunused : ∀ x ∈ trace, ¬x.Numbered r)
    (h : searchLoop own other sec candidates g stale trace = some q) :
    Grows r g q.globals q.out := by
  match trace with
  | [] =>
      obtain rfl := Option.some.inj h
      exact Copied.finish_grows hsec (.of_unused (by simp))
  | [x] =>
      rw [searchLoop] at h
      split at h
      · obtain rfl := Option.some.inj h
        exact (Grows.lock hsec hunused).append
          (Copied.finish_grows hsec (insideLoop_grows hsec (by simp)))
      · cases h
  | x :: y :: rest =>
      simp only [List.forall_mem_cons] at hunused
      obtain ⟨hx, hy, hrest⟩ := hunused
      have hrow : ∀ z ∈ [x], ¬z.Numbered r := by simpa using hx
      rw [searchLoop] at h
      split_ifs at h
      · obtain rfl := Option.some.inj h
        exact (Grows.lock hsec hrow).append (Copied.finish_grows hsec
          (insideLoop_grows hsec (List.forall_mem_cons.mpr ⟨hy, hrest⟩)))
      · obtain rfl := Option.some.inj h
        exact (Grows.of_unused hrow).append ((Grows.lock hsec (by simpa using hy)).append
          (Copied.finish_grows hsec (insideLoop_grows hsec hrest)))
      · obtain ⟨q', hq', rfl⟩ := Option.map_eq_some_iff.mp h
        exact (Grows.of_unused (by simp [hx, hy])).append (searchLoop_grows hsec hrest hq')

end Grows

theorem NumberedBelow.unused {r : Nat} {trace : Trace} (h : NumberedBelow r trace) :
    ∀ x ∈ trace, ¬x.Numbered r := by
  rintro x hx (hid | hid | hid)
  · exact lt_irrefl r (h x hx r (.inl hid))
  · exact lt_irrefl r (h x hx r (.inr (.inl hid)))
  · exact lt_irrefl r (h x hx r (.inr (.inr hid)))

section Phases

variable {g : LockGlobals} {trace resume : Trace} {held : Held} {bug : Mpa} {writes reads : List Id}

theorem lockFirst_grows {first : Stmt} {second : Id} (hunused : ∀ x ∈ trace, ¬x.Numbered g.r) :
    Grows g.r g (lockFirst g trace first second writes reads).globals
      (lockFirst g trace first second writes reads).out := by
  have hloop := @lockLoop_grows g.r first.id second (.new first g.r) (writes ++ reads) first
    { g with
      r := g.r + 1
      lockedWrites := g.lockedWrites ++ [first.id]
      lockedReads := g.lockedReads ++ [first.id] } trace.dropLast rfl
    fun x hx => hunused x (List.dropLast_subset trace hx)
  exact Copied.finish_grows rfl ⟨hloop.locks, hloop.fences⟩

theorem restrictFirst_grows {first : Stmt} {second : Id} (hunused : ∀ x ∈ trace, ¬x.Numbered g.r) :
    Grows g.r g (restrictFirst g trace first second).globals
      (restrictFirst g trace first second).out := by
  have hloop := @restrictedLoop_grows g.r first.id (.new first g.r) first
    { g with r := g.r + 1, lockedWrites := g.lockedWrites ++ [first.id] } trace rfl hunused
  unfold restrictFirst
  simp only
  cases hresult : restrictedLoop first.id (.new first g.r) trace with
  | mk out resume =>
      rw [hresult] at hloop
      cases resume with
      | none => exact ⟨hloop.locks, hloop.fences⟩
      | some rest =>
          have hrest : ∀ x ∈ (copyUntil second rest).1, ¬x.Numbered g.r := fun x hx =>
            hunused x (restrictedLoop_resume_subset hresult (copyUntil_sublist.subset hx))
          have hall := hloop.append (Grows.of_unused hrest)
          simp only
          cases huntil : copyUntil second rest with
          | mk more found =>
              rw [huntil] at hall
              cases found <;> exact ⟨hall.locks, hall.fences⟩

theorem secondPhase_grows {q : Phase} (hunused : ∀ x ∈ resume, ¬x.Numbered g.r)
    (h : secondPhase g resume held bug writes = some q) : Grows g.r g q.globals q.out := by
  unfold secondPhase at h
  split at h
  · obtain rfl := Option.some.inj h
    exact .of_unused (by simp)
  · split at h
    · have hloop := searchLoop_grows rfl hunused h
      exact ⟨hloop.locks, hloop.fences⟩
    · obtain rfl := Option.some.inj h
      have hloop := @restrictedLoop_grows g.r bug.second.id (.new bug.second g.r) bug.second
        { g with r := g.r + 1, lockedReads := g.lockedReads ++ [bug.second.id] } resume rfl hunused
      unfold restrictSecond
      simp only
      cases hresult : restrictedLoop bug.second.id (.new bug.second g.r) resume with
      | mk out rest =>
          rw [hresult] at hloop
          cases rest <;> exact ⟨hloop.locks, hloop.fences⟩

end Phases

/-! ### Pieces of which nothing is dropped -/

/-- `new` is written for `old`: all of it is kept, the same lock is open behind it, and the counters
have grown by the locks and fences that it has more. -/
structure Counted (openLock : Option Stmt) (g : LockGlobals) (old : Trace) (g' : LockGlobals)
    (new : Trace) : Prop where
  keeps : kept openLock new = new
  lock : lockAfter openLock new = lockAfter openLock old
  locks : g'.numLocks + countLocks old = g.numLocks + countLocks new
  fences : g'.numFence + countFences old = g.numFence + countFences new

namespace Counted

variable {openLock : Option Stmt} {g g' : LockGlobals} {old new : Trace}

theorem copy (hkeeps : kept openLock old = old) : Counted openLock g old g old :=
  ⟨hkeeps, rfl, rfl, rfl⟩

theorem append {g'' : LockGlobals} {old' new' : Trace} (h : Counted openLock g old g' new)
    (h' : Counted (lockAfter openLock old) g' old' g'' new') :
    Counted openLock g (old ++ old') g'' (new ++ new') := by
  refine ⟨?_, ?_, ?_, ?_⟩
  · rw [kept_append, h.keeps, h.lock, h'.keeps]
  · rw [lockAfter_append, lockAfter_append, h.lock, h'.lock]
  · have hlocks := h.locks
    have hlocks' := h'.locks
    rw [countLocks_append, countLocks_append]
    push_cast
    omega
  · have hfences := h.fences
    have hfences' := h'.fences
    rw [countFences_append, countFences_append]
    omega

end Counted

section Section

variable {openLock : Option Stmt} {g g' : LockGlobals} {r : Nat} {x : Stmt} {sec : LockSection}
  {old new added pre body mid fences : Trace}

theorem Grows.counts (h : Grows r g g' new) (hsec : sec = .new x r)
    (hperm : new.Perm (old ++ added))
    (hunused : ∀ y ∈ old, ¬y.Numbered r)
    (hadded : ∀ y ∈ added, y = sec.lock ∨ y = sec.fence ∨ y = sec.unlock) :
    g'.numLocks + countLocks old = g.numLocks + countLocks new ∧
      g'.numFence + countFences old = g.numFence + countFences new := by
  have hold := @Grows.of_unused r g old hunused
  have holdLocks := hold.locks
  have holdFences := hold.fences
  have hlocks : (added.countP fun y => y.id = .lock r) = countLocks added := by
    refine List.countP_congr fun y hy => ?_
    rcases hadded y hy with rfl | rfl | rfl <;> simp [hsec, LockSection.new, insertedStmt]
  have hfences : (added.countP fun y => y.id = .fenceLock r) = countFences added := by
    refine List.countP_congr fun y hy => ?_
    rcases hadded y hy with rfl | rfl | rfl <;>
      simp [hsec, LockSection.new, insertedStmt, Stmt.isFenceLock]
  have hnewLocks : countLocks new = countLocks old + countLocks added :=
    (hperm.countP_eq _).trans (countLocks_append old added)
  have hnewFences : countFences new = countFences old + countFences added :=
    (hperm.countP_eq _).trans (countFences_append old added)
  rw [h.locks, h.fences, hperm.countP_eq, hperm.countP_eq, List.countP_append, List.countP_append,
    hlocks, hfences, hnewLocks, hnewFences]
  push_cast
  omega

theorem Counted.wrap (hsec : sec = .new x r)
    (hkeeps : kept openLock (pre ++ (x :: body ++ mid)) = pre ++ (x :: body ++ mid))
    (hclosed : lockAfter openLock pre = none) (hnoLock : ∀ y ∈ x :: body, y.op ≠ .lock)
    (hfences : fences = [sec.fence] ∨ fences = [])
    (hunused : ∀ y ∈ pre ++ (x :: body ++ mid), ¬y.Numbered r)
    (hgrows : Grows r g g' (pre ++ (sec.lock :: (x :: body ++ fences ++ [sec.unlock]) ++ mid))) :
    Counted openLock g (pre ++ (x :: body ++ mid)) g'
      (pre ++ (sec.lock :: (x :: body ++ fences ++ [sec.unlock]) ++ mid)) := by
  obtain ⟨hkeepsPre, hkeepsRest⟩ := kept_split hkeeps
  rw [hclosed] at hkeepsRest
  obtain ⟨hkeepsBody, hkeepsMid⟩ := kept_split hkeepsRest
  have hbody := plain_of_kept hkeepsBody hnoLock
  have hbodyLock : lockAfter none (x :: body) = none := (kept_of_plain hbody).2
  rw [hbodyLock] at hkeepsMid
  have hrows : ∀ y ∈ x :: body ++ fences, y.Plain := by
    intro y hy
    rcases List.mem_append.mp hy with hy | hy
    · exact hbody y hy
    · rcases hfences with rfl | rfl
      · rw [List.mem_singleton.mp hy, hsec]
        exact LockSection.fence_plain x r
      · cases hy
  have hopen : deadlockStep none sec.lock = some (some sec.lock) :=
    deadlockStep_lock (by rw [hsec]; rfl)
  have hclose : deadlockStep (some sec.lock) sec.unlock = some none :=
    deadlockStep_close (by rw [hsec]; rfl) (hsec ▸ LockSection.closes_own x r)
  obtain ⟨hkeepsRows, hrowsLock⟩ := @kept_of_plain (some sec.lock) _ hrows
  have hsection : kept none (sec.lock :: (x :: body ++ fences ++ [sec.unlock])) =
        sec.lock :: (x :: body ++ fences ++ [sec.unlock]) ∧
      lockAfter none (sec.lock :: (x :: body ++ fences ++ [sec.unlock])) = none := by
    rw [kept_cons_of_some hopen, kept_append, hkeepsRows, hrowsLock, kept_cons_of_some hclose,
      lockAfter, lockNext_of_some hopen, lockAfter_append, hrowsLock]
    exact ⟨rfl, lockNext_of_some hclose⟩
  obtain ⟨hlocks, hfenceCount⟩ := hgrows.counts hsec perm_section hunused (by
    intro y hy
    rcases hfences with rfl | rfl <;>
      simp only [List.mem_cons, List.mem_append, List.not_mem_nil, or_false, false_or] at hy <;>
      tauto)
  refine ⟨?_, ?_, hlocks, hfenceCount⟩
  · rw [kept_append, hkeepsPre, hclosed, kept_append, hsection.1, hsection.2, hkeepsMid]
  · rw [lockAfter_append, hclosed, lockAfter_append, hsection.2, lockAfter_append, hclosed,
      lockAfter_append, hbodyLock]

end Section

/-! ### The phases -/

/-- When the counters stay those of the trace: no transaction in a section hides a store of the bug.
If neither store is locked, the first phase hands over the index at which it stopped, or no lock and
no fence of a section is copied again; and a first store that is no writer does not stand next to
the second one, unless that raises an exception. -/
structure CountedOnce (trace : Trace) (bug : Mpa) (writes : List Id) : Prop where
  first : bug.first ∈ inside none trace → Locked trace bug.first
  second : bug.second ∈ inside none trace → Locked trace bug.second
  again : ¬Locked trace bug.first → ¬Locked trace bug.second →
    ClosesInTime trace bug writes ∨ (bug.first.id ∈ writes ∧ ∀ x ∈ trace, x.isSync = false) ∨
      (bug.first.id ∉ writes ∧ ∃ pre y rest, trace = pre ++ bug.first :: y :: rest ∧
        ∀ x ∈ rest.dropLast, x.isSync = false)
  apart : ¬Locked trace bug.first → ¬Locked trace bug.second → bug.first.id ∉ writes →
    ∀ pre post, trace = pre ++ bug.first :: bug.second :: post → ¬Even post.length

/-- The rows of `out` are those of `old` and new ones. -/
def CopiesFrom (r : Nat) (old out : Trace) : Prop := ∀ x ∈ out, x ∈ old ∨ x.Numbered r

section Phases

variable {g : LockGlobals} {trace front resume : Trace} {held : Held} {bug : Mpa}
  {writes reads : List Id}

theorem LockSection.numbered {x : Stmt} {r : Nat} {sec : LockSection} (hsec : sec = .new x r) :
    sec.lock.Numbered r ∧ sec.unlock.Numbered r ∧ sec.fence.Numbered r := by
  subst hsec
  exact ⟨.inl rfl, .inr (.inl rfl), .inr (.inr rfl)⟩

theorem CopiesFrom.wrap {x : Stmt} {r : Nat} {sec : LockSection} {pre body mid fences : Trace}
    (hsec : sec = .new x r) (hfences : fences = [sec.fence] ∨ fences = []) :
    CopiesFrom r (pre ++ (x :: body ++ mid))
      (pre ++ (sec.lock :: (x :: body ++ fences ++ [sec.unlock]) ++ mid)) := by
  obtain ⟨hlock, hunlock, hfence⟩ := LockSection.numbered hsec
  intro y hy
  rcases hfences with rfl | rfl <;>
    simp only [List.mem_append, List.mem_cons, List.not_mem_nil, or_false] at hy ⊢ <;>
    rcases hy with hy | (rfl | hy) | hy <;> grind

/-- A store that is in no section has no open lock in front of it. -/
theorem lockAfter_of_notMem_inside {store : Stmt} {pre post : Trace} (hplain : store.Plain)
    (htrace : trace = pre ++ store :: post) (hnot : store ∉ inside none trace) :
    lockAfter none pre = none := by
  by_contra hopen
  exact hnot (mem_inside_iff.mpr ⟨pre, post, htrace, hopen, hplain⟩)

/-- A first phase that hands over the index at which it stopped. -/
structure CountedTo (trace : Trace) (bug : Mpa) (g : LockGlobals) (p : Phase) (covered : Trace) :
    Prop where
  split : trace = covered ++ p.resume
  counted : Counted none g covered p.globals p.out
  copies : CopiesFrom g.r covered p.out
  second : bug.second ∈ p.resume

/-- A first phase that hands over an older index. -/
structure CountedBeyond (trace : Trace) (bug : Mpa) (writes : List Id) (g : LockGlobals) (p : Phase)
    (covered mid tail : Trace) : Prop where
  split : trace = covered ++ (mid ++ tail)
  resume : p.resume = mid ++ tail
  counted : Counted none g (covered ++ mid) p.globals p.out
  copies : CopiesFrom g.r (covered ++ mid) p.out
  mid_sub : mid ⊆ p.out
  length : tail.length ≤ 1
  unsynced : ¬Locked trace bug.second → ∀ x ∈ mid, x.isSync = false
  place : bug.second ∈ tail ∨ bug.second ∉ mid ++ tail ∧ bug.first.id ∉ writes ∧
    ∃ pre, trace = pre ++ bug.first :: bug.second :: (mid ++ tail)

theorem SectionEnd.body {other : Id} {found : Stmt} {sec : LockSection} {post out rest : Trace}
    (h : SectionEnd other found sec post out rest) :
    ∃ body fences, post = body ++ rest ∧ (∀ y ∈ body, y.id ≠ other ∧ y.op ≠ .lock) ∧
      out = body ++ fences ++ [sec.unlock] ∧ (fences = [sec.fence] ∨ fences = []) := by
  obtain ⟨body, x, rest, rfl, hbody, ⟨hx, rfl, rfl⟩ | ⟨hx, rfl, rfl⟩⟩ := h
  · exact ⟨body, [sec.fence], rfl, fun y hy => ⟨(closing_eq_none (hbody y hy)).2.1,
      (closing_eq_none (hbody y hy)).2.2.1⟩, by simp, .inl rfl⟩
  · obtain ⟨-, hother, hop⟩ := closing_eq_ownFence hx
    refine ⟨body ++ [x], [], by simp, fun y hy => ?_, by simp, .inr rfl⟩
    rcases List.mem_append.mp hy with hy | hy
    · exact ⟨(closing_eq_none (hbody y hy)).2.1, (closing_eq_none (hbody y hy)).2.2.1⟩
    · rw [List.mem_singleton.mp hy, hop]
      exact ⟨hother, nofun⟩

theorem Ready.counted_wrap {r : Nat} (h : Ready r trace bug writes) {g' : LockGlobals} {x : Stmt}
    {sec : LockSection} {pre body mid fences rest : Trace} (hsec : sec = .new x r)
    (htrace : trace = front ++ (pre ++ (x :: body ++ mid) ++ rest)) (hplain : x.Plain)
    (hnot : x ∉ inside none trace) (hnoLock : ∀ y ∈ body, y.op ≠ .lock)
    (hfences : fences = [sec.fence] ∨ fences = [])
    (hgrows : Grows r g g' (pre ++ (sec.lock :: (x :: body ++ fences ++ [sec.unlock]) ++ mid))) :
    Counted (lockAfter none front) g (pre ++ (x :: body ++ mid)) g'
      (pre ++ (sec.lock :: (x :: body ++ fences ++ [sec.unlock]) ++ mid)) := by
  have hclosed : lockAfter none (front ++ pre) = none :=
    @lockAfter_of_notMem_inside trace x (front ++ pre) (body ++ mid ++ rest) hplain
      (by rw [htrace]; simp) hnot
  have hkeeps := h.sound.keeps
  have hunused := h.below.unused
  rw [htrace] at hkeeps hunused
  rw [lockAfter_append] at hclosed
  exact .wrap hsec (kept_split (kept_split hkeeps).2).1 hclosed
    (List.forall_mem_cons.mpr ⟨hplain.1, hnoLock⟩) hfences
    (fun y hy => hunused y (List.mem_append_right _ (List.mem_append_left _ hy))) hgrows

theorem lockFirst_counted (h : Ready g.r trace bug writes) (honce : CountedOnce trace bug writes)
    (hunlocked : ¬Locked trace bug.first) (hwriter : bug.first.id ∈ writes) {p : Phase}
    (hp : lockFirst g trace bug.first bug.second.id writes reads = p) :
    (∃ covered, CountedTo trace bug g p covered) ∨
      ∃ covered mid tail, CountedBeyond trace bug writes g p covered mid tail := by
  obtain ⟨pre, post, htrace, hpre, hpost, hnotPre, hsecond⟩ := h.split
  have hplain := h.bug_in.plain.1
  have hnot : bug.first ∉ inside none trace := fun hin => hunlocked (honce.first hin)
  have hgrows := @lockFirst_grows g trace writes reads bug.first bug.second.id h.below.unused
  rw [hp] at hgrows
  rw [htrace] at hp
  obtain ⟨-, ⟨out, ⟨init, last, resume, rfl, hend, hresume⟩, hout⟩ | ⟨hall, hresume, hout⟩⟩ :=
    lockFirst_cases hpre hpost rfl hp
  · -- the section is closed before the last statement
    obtain ⟨body, fences, rfl, hbody, rfl, hfences⟩ := hend.body
    have hform : p.out = pre ++ ((LockSection.new bug.first g.r).lock ::
        (bug.first :: body ++ fences ++ [(LockSection.new bug.first g.r).unlock]) ++ []) := by
      rw [hout]
      simp
    rw [hform] at hgrows
    have hcounted :=
      @Ready.counted_wrap g trace [] bug writes g.r h p.globals bug.first _ pre body []
      fences p.resume rfl (by rw [htrace, hresume]; simp) hplain hnot (fun y hy => (hbody y hy).2)
      hfences hgrows
    refine .inl ⟨pre ++ (bug.first :: body ++ []), by rw [htrace, hresume]; simp,
      hform ▸ hcounted, hform ▸ .wrap rfl hfences, ?_⟩
    rw [hresume]
    rw [List.append_assoc, List.mem_append] at hsecond
    exact hsecond.resolve_left fun hmem => (hbody _ hmem).1 rfl
  · -- nothing closes the section, and the index stays what it was
    obtain ⟨init, last, rfl⟩ : ∃ init last, post = init ++ [last] := by
      have hne := List.ne_nil_of_mem hsecond
      exact ⟨post.dropLast, post.getLast hne, (List.dropLast_append_getLast hne).symm⟩
    rw [List.dropLast_concat] at hall hout
    have hform : p.out = pre ++ ((LockSection.new bug.first g.r).lock :: (bug.first :: init ++
        [(LockSection.new bug.first g.r).fence] ++ [(LockSection.new bug.first g.r).unlock]) ++
          []) := by
      rw [(hout.resolve_left fun hnil => by simp at hnil).2]
      simp
    rw [hform] at hgrows
    have hcounted :=
      @Ready.counted_wrap g trace [] bug writes g.r h p.globals bug.first _ pre init []
      _ [last] rfl (by rw [htrace]; simp) hplain hnot
      (fun y hy => (closing_eq_none (hall y hy)).2.2.1) (.inl rfl) hgrows
    have hlast : bug.second = last := by
      rw [List.mem_append, List.mem_singleton] at hsecond
      exact hsecond.resolve_left fun hmem => (closing_eq_none (hall _ hmem)).2.1 rfl
    refine .inr ⟨[], pre ++ (bug.first :: init ++ []), [last], by rw [htrace]; simp,
      by rw [hresume]; simp, hform ▸ hcounted, hform ▸ .wrap rfl (.inl rfl), ?_, by simp, ?_,
      .inl (by simp [hlast])⟩
    · rw [hform]
      intro x hx
      exact perm_section.mem_iff.mpr (List.mem_append_left _ hx)
    · intro hfree
      rcases honce.again hunlocked hfree with hcloses | ⟨-, hplainTrace⟩ | ⟨hnotWriter, -⟩
      · rcases hcloses with ⟨-, pre', post', resume, heq, hcloses⟩ | ⟨hnotWriter, -⟩
        · obtain ⟨rfl, rfl⟩ := h.unique_split htrace heq
          obtain ⟨x, hx, hclosing⟩ := hcloses.mem_dropLast
          rw [List.dropLast_concat] at hx
          exact absurd (hall x hx) hclosing
        · exact absurd hwriter hnotWriter
      · intro x hx
        apply hplainTrace x
        rw [List.append_nil] at hx
        rw [htrace, ← List.cons_append, ← List.append_assoc]
        exact List.mem_append_left [last] hx
      · exact absurd hwriter hnotWriter

theorem restrictFirst_counted (h : Ready g.r trace bug writes)
    (honce : CountedOnce trace bug writes)
    (hunlocked : ¬Locked trace bug.first) (hwriter : bug.first.id ∉ writes) {p : Phase}
    (hp : restrictFirst g trace bug.first bug.second.id = p) :
    (∃ covered, CountedTo trace bug g p covered) ∨
      ∃ covered mid tail, CountedBeyond trace bug writes g p covered mid tail := by
  obtain ⟨pre, post, htrace, hpre, hpost, hnotPre, hsecond⟩ := h.split
  have hplain := h.bug_in.plain.1
  have hnot : bug.first ∉ inside none trace := fun hin => hunlocked (honce.first hin)
  have hgrows := @restrictFirst_grows g trace bug.first bug.second.id h.below.unused
  rw [hp] at hgrows
  rw [htrace] at hp
  obtain ⟨-, ⟨rfl, -⟩ | ⟨y, rest, rfl, ⟨before, found, behind, rfl, hbehind, hid, habsent, hout,
    hresume⟩ | ⟨habsent, hout, hresume⟩⟩⟩ := restrictFirst_cases hpre rfl hp
  · cases hsecond
  · -- the phase stops at the second store
    obtain rfl : found = bug.second := by
      apply List.inj_on_of_nodup_map h.ids _ h.bug_in.second_mem hid
      rw [htrace]
      simp
    have hform : p.out = pre ++ ((LockSection.new bug.first g.r).lock ::
        (bug.first :: [] ++ [] ++ [(LockSection.new bug.first g.r).unlock]) ++ (y :: before)) :=
          hout
    rw [hform] at hgrows
    have hcounted := @Ready.counted_wrap g trace [] bug writes g.r h p.globals bug.first _ pre []
      (y :: before) [] p.resume rfl (by rw [htrace, hresume]; simp) hplain hnot (by simp) (.inr rfl)
      hgrows
    refine .inl ⟨pre ++ (bug.first :: [] ++ (y :: before)), by rw [htrace, hresume]; simp,
      hform ▸ hcounted, hform ▸ .wrap rfl (.inr rfl), ?_⟩
    rw [hresume]
    exact List.mem_cons_self
  · -- the phase does not see the second store, and the index stays two behind the first one
    have hrest := dropLast_append_drop rest
    have hform : p.out = pre ++ ((LockSection.new bug.first g.r).lock ::
        (bug.first :: [] ++ [] ++ [(LockSection.new bug.first g.r).unlock]) ++
          (y :: rest.dropLast)) := hout
    rw [hform] at hgrows
    have hcounted := @Ready.counted_wrap g trace [] bug writes g.r h p.globals bug.first _ pre []
      (y :: rest.dropLast) [] (rest.drop (rest.length - 1)) rfl
      (by simp only [htrace, List.nil_append, List.append_assoc, List.cons_append, hrest])
      hplain hnot
      (by simp) (.inr rfl) hgrows
    have hcovered : (pre ++ [bug.first, y]) ++ rest.dropLast =
        pre ++ (bug.first :: [] ++ (y :: rest.dropLast)) := by simp
    refine .inr ⟨pre ++ [bug.first, y], rest.dropLast, rest.drop (rest.length - 1),
      by rw [hrest, htrace]; simp, by rw [hrest, hresume], ?_, ?_, ?_,
      by rw [List.length_drop]; omega, fun hfree => ?_, ?_⟩
    · rw [hcovered, hform]
      exact hcounted
    · rw [hcovered, hform]
      exact .wrap rfl (.inr rfl)
    · rw [hform]
      intro x hx
      simp [hx]
    · rcases honce.again hunlocked hfree with hcloses | ⟨hwrites, -⟩ |
        ⟨-, pre', y', rest', heq, hall⟩
      · rcases hcloses with ⟨hwrites, -⟩ | ⟨-, pre', y', rest', heq, hroom⟩
        · exact absurd hwrites hwriter
        · obtain ⟨-, hpost'⟩ := h.unique_split htrace heq
          obtain ⟨-, rfl⟩ := List.cons.inj hpost'
          rcases hroom with hmem | hlength
          · exact absurd rfl (habsent bug.second hmem)
          · have hnil : rest'.dropLast = [] := by
              apply List.length_eq_zero_iff.mp
              rw [List.length_dropLast]
              omega
            simp [hnil]
      · exact absurd hwrites hwriter
      · obtain ⟨-, hpost'⟩ := h.unique_split htrace heq
        obtain ⟨-, rfl⟩ := List.cons.inj hpost'
        exact hall
    · rcases List.mem_cons.mp hsecond with rfl | hmem
      · refine .inr ⟨?_, hwriter, pre, by rw [hrest, htrace]⟩
        rw [hrest]
        have hnodup : trace.Nodup := h.ids.of_map
        rw [htrace, List.nodup_append] at hnodup
        exact (List.nodup_cons.mp (List.nodup_cons.mp hnodup.2.1).2).1
      · rw [← hrest, List.mem_append] at hmem
        exact .inl (hmem.resolve_left fun hin => habsent _ hin rfl)

theorem firstPhase_counted (h : Ready g.r trace bug writes) (honce : CountedOnce trace bug writes)
    (hwrite : held.write = true ↔ Locked trace bug.first) {p : Phase}
    (hp : firstPhase g trace held bug writes reads = p) :
    (∃ covered, CountedTo trace bug g p covered) ∨
      (¬Locked trace bug.first ∧
        ∃ covered mid tail, CountedBeyond trace bug writes g p covered mid tail) := by
  unfold firstPhase at hp
  split at hp
  · subst hp
    exact .inl ⟨[], rfl, .copy rfl, nofun, h.bug_in.second_mem⟩
  · rename_i hheld
    have hunlocked : ¬Locked trace bug.first := fun hlocked => hheld (hwrite.mpr hlocked)
    split at hp
    · rename_i hwriter
      exact (lockFirst_counted h honce hunlocked hwriter hp).imp_right fun hbeyond =>
        ⟨hunlocked, hbeyond⟩
    · rename_i hwriter
      exact (restrictFirst_counted h honce hunlocked hwriter hp).imp_right fun hbeyond =>
        ⟨hunlocked, hbeyond⟩

/-- What the second phase makes of the statements that are left: those behind `copied` are appended
by the last loop. -/
structure CountedRest (g : LockGlobals) (front resume : Trace) (q : Phase)
    (copied done more : Trace) : Prop where
  split : resume = copied ++ more
  rest : q.resume = done ++ more
  done_sub : done ⊆ q.out
  copies : CopiesFrom g.r copied q.out
  counted : Counted (lockAfter none front) g resume q.globals (q.out ++ more)

theorem secondPhase_counted (h : Ready g.r trace bug writes)
    (hnot : bug.second ∉ inside none trace) (hread : held.read = false)
    (htrace : trace = front ++ resume) (hsecond : bug.second ∈ resume) {q : Phase}
    (hq : secondPhase g resume held bug writes = some q) :
    ∃ copied done more, CountedRest g front resume q copied done more ∧
      (bug.second ∈ copied ∨ more = [bug.second]) := by
  have hplain := h.bug_in.plain.2
  have hunused := h.below.unused
  have hids := h.ids
  have hkeeps := h.sound.keeps
  rw [htrace] at hunused hkeeps
  rw [htrace, List.map_append] at hids
  have hidsResume := (List.nodup_append.mp hids).2.1
  have hunusedResume : ∀ x ∈ resume, ¬x.Numbered g.r :=
    fun x hx => hunused x (List.mem_append_right front hx)
  have hgrows := secondPhase_grows hunusedResume hq
  unfold secondPhase at hq
  rw [hread] at hq
  simp only [Bool.false_eq_true, if_false] at hq
  split at hq
  · obtain ⟨pre, post, rfl, hpre, hpost⟩ := exists_split hidsResume hsecond
    obtain ⟨q', hq', -, hcases⟩ :=
      @lockSecond_cases g bug.second pre post writes bug.first.id _ hpre hpost rfl
    rw [hq'] at hq
    obtain rfl := Option.some.inj hq
    rcases hcases with ⟨out, hend, hout⟩ | ⟨hall, hsuffix, hout⟩
    · -- the section of the second store is closed by a later statement
      obtain ⟨body, fences, rfl, hbody, rfl, hfences⟩ := hend.body
      have hmore : ∀ x ∈ q'.resume, ¬x.Numbered g.r := fun x hx => hunusedResume x (by simp [hx])
      have hform : q'.out ++ q'.resume = pre ++ ((LockSection.new bug.second g.r).lock ::
          (bug.second :: body ++ fences ++ [(LockSection.new bug.second g.r).unlock]) ++
            q'.resume) := by
        rw [hout]
        simp
      have hall := hgrows.append (Grows.of_unused hmore)
      rw [hform] at hall
      have hcounted :=
        @Ready.counted_wrap g trace front bug writes g.r h q'.globals bug.second _ pre
        body q'.resume fences [] rfl (by rw [htrace]; simp) hplain hnot (fun y hy => (hbody y hy).2)
        hfences hall
      have hcopies := @CopiesFrom.wrap bug.second g.r _ pre body [] fences rfl hfences
      refine ⟨pre ++ (bug.second :: body), [], q'.resume, ⟨by simp, rfl, by simp, ?_, ?_⟩,
        .inl (by simp)⟩
      · rw [hout]
        simpa using hcopies
      · rw [hform]
        exact hcounted
    · -- nothing closes it, and everything has been copied
      have hform : q'.out ++ [] = pre ++ ((LockSection.new bug.second g.r).lock ::
          (bug.second :: post ++ [(LockSection.new bug.second g.r).fence] ++
            [(LockSection.new bug.second g.r).unlock]) ++ []) := by
        rw [hout]
        simp
      have hall' := hgrows
      rw [← List.append_nil q'.out, hform] at hall'
      have hcounted :=
        @Ready.counted_wrap g trace front bug writes g.r h q'.globals bug.second _ pre
        post [] _ [] rfl (by rw [htrace]; simp) hplain hnot
        (fun y hy => (closing_eq_none (hall y hy)).2.2.1) (.inl rfl) hall'
      have hcopies := @CopiesFrom.wrap bug.second g.r _ pre post [] _ rfl (.inl rfl)
      refine ⟨pre ++ bug.second :: post, q'.resume, [], ⟨by simp, by simp, fun x hx => ?_, ?_, ?_⟩,
        .inl (by simp)⟩
      · rw [hout]
        exact ((List.Sublist.refl pre).append (((List.sublist_append_left post _).cons_cons
          bug.second).cons _)).subset (hsuffix.subset hx)
      · rw [hout]
        simpa using hcopies
      · rw [hform]
        simpa using hcounted
  · obtain rfl := Option.some.inj hq
    generalize hq : restrictSecond g resume bug.second = q at hgrows
    obtain ⟨-, ⟨before, found, next, hresume, hid, -, hout⟩ | ⟨habsent, hout, hresume⟩⟩ :=
      restrictSecond_cases rfl hq
    · obtain rfl : found = bug.second := by
        apply List.inj_on_of_nodup_map h.ids _ h.bug_in.second_mem hid
        rw [htrace, hresume]
        simp
      have hmore : ∀ x ∈ q.resume, ¬x.Numbered g.r := by
        intro x hx
        apply hunusedResume x
        rw [hresume]
        simp [hx]
      have hform : q.out ++ q.resume = before ++ ((LockSection.new bug.second g.r).lock ::
          (bug.second :: [] ++ [] ++ [(LockSection.new bug.second g.r).unlock]) ++
            (next :: q.resume)) := by
        rw [hout]
        simp
      have hall := hgrows.append (Grows.of_unused hmore)
      rw [hform] at hall
      have hsplit : before ++ (bug.second :: [] ++ (next :: q.resume)) = resume := by
        rw [hresume]
        rfl
      have hcounted :=
        @Ready.counted_wrap g trace front bug writes g.r h q.globals bug.second _ before
        [] (next :: q.resume) [] [] rfl (by rw [htrace, hsplit, List.append_nil]) hplain hnot
        (by simp) (.inr rfl) hall
      have hcopies := @CopiesFrom.wrap bug.second g.r _ before [] [next] [] rfl (.inr rfl)
      refine ⟨before ++ [bug.second, next], [], q.resume,
        ⟨by rw [← hsplit]; simp, rfl, by simp, ?_, ?_⟩, .inl (by simp)⟩
      · rw [hout]
        simpa using hcopies
      · rw [hform, ← hsplit]
        exact hcounted
    · -- the second store comes last and is skipped
      have hlast : resume = resume.dropLast ++ [bug.second] := by
        have hne := List.ne_nil_of_mem hsecond
        have hsplit := (List.dropLast_append_getLast hne).symm
        have hmem := hsecond
        rw [hsplit, List.mem_append, List.mem_singleton] at hmem
        rw [hmem.resolve_left fun hin => habsent _ hin rfl]
        exact hsplit
      have hwhole : q.out ++ [bug.second] = resume := by rw [hout, ← hlast]
      have hall := hgrows.append (Grows.of_unused fun x hx =>
        hunusedResume x (by rw [hlast]; exact List.mem_append_right _ hx))
      have hnone := @Grows.of_unused g.r g resume hunusedResume
      rw [hwhole] at hall
      refine ⟨resume.dropLast, resume.dropLast, [bug.second], ⟨hlast, by rw [hresume, ← hlast],
        by rw [hout]; exact List.Subset.refl _, fun x hx => .inl (hout ▸ hx), ?_⟩, .inr rfl⟩
      rw [hwhole]
      refine ⟨(kept_split hkeeps).2, rfl, ?_, ?_⟩
      · rw [hall.locks, ← hnone.locks]
      · rw [hall.fences, ← hnone.fences]

end Phases

/-! ### One call -/

section Call

variable {g g' : LockGlobals} {trace out : Trace} {held : Held} {bug : Mpa} {writes reads : List Id}

theorem firstPhase_le (h : Ready g.r trace bug writes)
    (hwrite : held.write = true ↔ Locked trace bug.first) :
    g.r ≤ (firstPhase g trace held bug writes reads).globals.r := by
  rcases firstPhase_written h hwrite rfl with
    ⟨⟨_, _, -, hwritten, -⟩, -⟩ | ⟨-, _, _, _, _, hahead⟩
  · exact hwritten.le
  · exact hahead.written.le

/-- New rows are none of the old ones, and old ones are there once. -/
theorem CopiesFrom.notMem {r : Nat} {old out : Trace} (h : CopiesFrom r old out)
    (hbelow : NumberedBelow r trace) {y : Stmt} (hy : y ∈ trace) (hold : y ∉ old) : y ∉ out :=
  fun hmem => (h y hmem).elim hold fun hnumbered => hbelow.unused y hy hnumbered

theorem CountedRest.appendMissing_eq {p q : Phase} {front old copied done more : Trace}
    (h : Ready g.r trace bug writes) (hle : g.r ≤ p.globals.r) (hresume : p.resume ⊆ trace)
    (hnodup : p.resume.Nodup) (hcopies : CopiesFrom g.r old p.out) (hold : ∀ y ∈ more, y ∉ old)
    (hrest : CountedRest p.globals front p.resume q copied done more) :
    appendMissing (p.out ++ q.out) q.resume = p.out ++ (q.out ++ more) := by
  rw [hrest.split, List.nodup_append] at hnodup
  have hmore : ∀ y ∈ more, y ∈ trace := fun y hy =>
    hresume (by rw [hrest.split]; exact List.mem_append_right _ hy)
  rw [hrest.rest, PMBugRepair.appendMissing_eq
    (fun x hx => List.mem_append_right _ (hrest.done_sub hx)) ?_ hnodup.2.1, List.append_assoc]
  intro y hy hmem
  rcases List.mem_append.mp hmem with hmem | hmem
  · exact hcopies.notMem h.below (hmore y hy) (hold y hy) hmem
  · exact hrest.copies.notMem (h.mono hle).below (hmore y hy)
      (fun hcopied => hnodup.2.2 y hcopied y hy rfl) hmem

theorem Counted.counts {old new : Trace} (h : Counted none g old g' new) (hold : old = trace) :
    kept none new = new ∧ g'.numLocks + countLocks trace = g.numLocks + countLocks new ∧
      g'.numFence + countFences trace = g.numFence + countFences new :=
  hold ▸ ⟨h.keeps, h.locks, h.fences⟩

theorem CountedTo.call {p q : Phase} {covered : Trace} (h : Ready g.r trace bug writes)
    (honce : CountedOnce trace bug writes) (hread : held.read = true ↔ Locked trace bug.second)
    (hle : g.r ≤ p.globals.r) (hto : CountedTo trace bug g p covered)
    (hq : secondPhase p.globals p.resume held bug writes = some q) :
    Counted none g trace q.globals (appendMissing (p.out ++ q.out) q.resume) := by
  have hnodup : trace.Nodup := h.ids.of_map
  rw [hto.split, List.nodup_append] at hnodup
  have hsub : p.resume ⊆ trace := by
    rw [hto.split]
    exact List.subset_append_right _ _
  obtain ⟨copied, done, more, hrest⟩ :
      ∃ copied done more, CountedRest p.globals covered p.resume q copied done more := by
    cases hheld : held.read with
    | true =>
        rw [secondPhase, if_pos hheld] at hq
        obtain rfl := Option.some.inj hq
        have hkeeps := h.sound.keeps
        rw [hto.split] at hkeeps
        refine ⟨[], [], p.resume, rfl, rfl, by simp, fun y hy => ?_, .copy (kept_split hkeeps).2⟩
        cases hy
    | false =>
        have hnot : bug.second ∉ inside none trace := fun hin => by
          rw [hread.mpr (honce.second hin)] at hheld
          cases hheld
        obtain ⟨copied, done, more, hrest, -⟩ :=
          secondPhase_counted (h.mono hle) hnot hheld hto.split hto.second hq
        exact ⟨copied, done, more, hrest⟩
  rw [hrest.appendMissing_eq h hle hsub hnodup.2.1 hto.copies fun y hy hcovered =>
    hnodup.2.2 y hcovered y (by rw [hrest.split]; exact List.mem_append_right _ hy) rfl]
  have hall := hto.counted.append hrest.counted
  rwa [← hto.split] at hall

/-- With the second store already locked the last loop skips what has been copied. -/
theorem CountedBeyond.call_of_read {p q : Phase} {covered mid tail : Trace}
    (h : Ready g.r trace bug writes) (hread : held.read = true)
    (hbeyond : CountedBeyond trace bug writes g p covered mid tail)
    (hq : secondPhase p.globals p.resume held bug writes = some q) :
    Counted none g trace q.globals (appendMissing (p.out ++ q.out) q.resume) := by
  have htrace : trace = (covered ++ mid) ++ tail := by rw [hbeyond.split, List.append_assoc]
  have hnodup : trace.Nodup := h.ids.of_map
  have hkeeps := h.sound.keeps
  rw [secondPhase, if_pos hread] at hq
  obtain rfl := Option.some.inj hq
  have hout : appendMissing (p.out ++ []) p.resume = p.out ++ tail := by
    rw [htrace, List.nodup_append] at hnodup
    rw [List.append_nil, hbeyond.resume]
    refine PMBugRepair.appendMissing_eq hbeyond.mid_sub (fun y hy => ?_) hnodup.2.1
    refine hbeyond.copies.notMem h.below ?_ fun hcopied => hnodup.2.2 y hcopied y hy rfl
    rw [htrace]
    exact List.mem_append_right _ hy
  rw [htrace] at hkeeps
  have hall := hbeyond.counted.append (Counted.copy (kept_split hkeeps).2)
  rw [← htrace] at hall
  rw [hout]
  exact hall

/-- Otherwise statements are copied again, but no locks and no fences of sections. -/
theorem CountedBeyond.call {p q : Phase} {covered mid tail : Trace} (h : Ready g.r trace bug writes)
    (hwriter : isWriter writes bug.w = true) (honce : CountedOnce trace bug writes)
    (hfirst : ¬Locked trace bug.first) (hsecond : ¬Locked trace bug.second)
    (hread : held.read = false) (hle : g.r ≤ p.globals.r)
    (hbeyond : CountedBeyond trace bug writes g p covered mid tail)
    (hq : secondPhase p.globals p.resume held bug writes = some q) :
    kept none (appendMissing (p.out ++ q.out) q.resume) = appendMissing (p.out ++ q.out) q.resume ∧
      q.globals.numLocks + countLocks trace =
        g.numLocks + countLocks (appendMissing (p.out ++ q.out) q.resume) ∧
      q.globals.numFence + countFences trace =
        g.numFence + countFences (appendMissing (p.out ++ q.out) q.resume) := by
  have hnodup : trace.Nodup := h.ids.of_map
  have hids := h.ids
  rw [hbeyond.split, List.map_append] at hids
  have hidsResume := (List.nodup_append.mp hids).2.1
  have hsub : p.resume ⊆ trace := by
    rw [hbeyond.resume, hbeyond.split]
    exact List.subset_append_right _ _
  have hmem : bug.second ∈ tail := by
    rcases hbeyond.place with hmem | ⟨habsent, hnotWriter, pre, htrace⟩
    · exact hmem
    exfalso
    have hwrites : bug.second.id ∈ writes := by
      rcases bug.first_cases with ⟨heq, -⟩ | ⟨-, heq⟩
      · exact absurd (by simpa [isWriter, heq] using hwriter) hnotWriter
      · simpa [isWriter, heq] using hwriter
    have hreturns := (@secondPhase_isSome_iff p.globals (mid ++ tail) held bug writes hidsResume
      fun hnot => absent_of_notMem h.ids (hbeyond.resume ▸ hsub) h.bug_in.second_mem hnot).mp
        ⟨q, hbeyond.resume ▸ hq⟩
    rw [hread] at hreturns
    exact honce.apart hfirst hsecond hnotWriter pre _ htrace (by tauto)
  obtain rfl := Lists.eq_singleton_of_mem hbeyond.length hmem
  have hmid := hbeyond.unsynced hsecond
  have hnot : bug.second ∉ inside none trace := fun hin => hsecond (honce.second hin)
  obtain ⟨copied, done, more, hrest, hplace⟩ := secondPhase_counted (h.mono hle) hnot hread
    (by rw [hbeyond.resume, hbeyond.split]) (by rw [hbeyond.resume]; simp) hq
  have hnodupResume : p.resume.Nodup := hbeyond.resume ▸ hidsResume.of_map
  have hmore : ∀ y ∈ more, y = bug.second := by
    rcases hplace with hcopied | rfl
    · intro y hy
      have hsplit := hrest.split
      rw [hbeyond.resume] at hsplit
      rw [hrest.split, List.nodup_append] at hnodupResume
      have hne := List.ne_nil_of_mem hy
      have hlast : more.getLast hne = bug.second := by
        have heq := congrArg List.getLast? hsplit
        rw [List.getLast?_concat, List.getLast?_append_of_ne_nil copied hne,
          List.getLast?_eq_some_getLast hne] at heq
        exact (Option.some.inj heq).symm
      exact absurd rfl (hnodupResume.2.2 _ hcopied _ (hlast ▸ List.getLast_mem hne))
    · exact fun y hy => List.mem_singleton.mp hy
  have hnodupTrace := hnodup
  rw [hbeyond.split, ← List.append_assoc, List.nodup_append] at hnodupTrace
  rw [hrest.appendMissing_eq h hle hsub hnodupResume hbeyond.copies fun y hy hcovered =>
    hnodupTrace.2.2 y hcovered bug.second (by simp) (hmore y hy)]
  have hlock : lockAfter none (covered ++ mid) = lockAfter none covered := by
    rw [lockAfter_append]
    exact (kept_of_plain fun y hy => Stmt.plain_of_not_sync (hmid y hy)).2
  have hall := hbeyond.counted.append (hlock ▸ hrest.counted)
  obtain ⟨hmidLocks, hmidFences⟩ := counts_of_not_sync hmid
  have hlocks := hall.locks
  have hfences := hall.fences
  rw [countLocks_append, countLocks_append, hmidLocks, Nat.add_zero, ← countLocks_append] at hlocks
  rw [countFences_append, countFences_append, hmidFences, Nat.add_zero, ← countFences_append]
    at hfences
  rw [hbeyond.resume, ← hbeyond.split] at hlocks hfences
  exact ⟨hall.keeps, hlocks, hfences⟩

theorem appendTraceWithLocks_counted (h : Ready g.r trace bug writes)
    (hwriter : isWriter writes bug.w = true) (honce : CountedOnce trace bug writes)
    (hcall : appendTraceWithLocks g trace bug writes reads = some (out, g')) :
    kept none out = out ∧ g'.numLocks + countLocks trace = g.numLocks + countLocks out ∧
      g'.numFence + countFences trace = g.numFence + countFences out := by
  have hshared := h.sound.not_shared h.bug_in.first_tid h.bug_in.plain.1 h.bug_in.plain.2
  rw [appendTraceWithLocks_of_prepare (prepare_of_not_shared h.ids h.bug_in hshared) rfl] at hcall
  obtain ⟨q, hq, hresult⟩ := Option.map_eq_some_iff.mp hcall
  obtain ⟨rfl, rfl⟩ := Prod.mk.inj hresult
  obtain ⟨hwrite, hread⟩ := heldScan_start_iff h.ids h.bug_in
  have hle := @firstPhase_le g trace _ bug writes reads h hwrite
  rcases firstPhase_counted h honce hwrite rfl with ⟨covered, hto⟩ |
    ⟨hfirst, covered, mid, tail, hbeyond⟩
  · exact (hto.call h honce hread hle hq).counts rfl
  · by_cases hsecond : Locked trace bug.second
    · exact (hbeyond.call_of_read h (hread.mpr hsecond) hq).counts rfl
    · have hfree := Bool.eq_false_iff.mpr fun hlocked => hsecond (hread.mp hlocked)
      exact hbeyond.call h hwriter honce hfirst hsecond hfree hle hq

end Call

/-! ### Runs -/

/-- The counters are those of the trace. -/
def CountersMatch (s : RepairState) : Prop :=
  s.globals.numLocks = countLocks s.trace ∧ s.globals.numFence = countFences s.trace

section Runs

variable {input : MpaInput} {s s' : RepairState}

theorem CountersMatch.start (hlock : ∀ x ∈ input.trace, x.op ≠ .lock) :
    CountersMatch (.start input) := by
  have hlocks : countLocks input.trace = 0 :=
    List.countP_eq_zero.mpr fun x hx => by simpa using hlock x hx
  have hfences : countFences input.trace = 0 := by
    refine List.countP_eq_zero.mpr fun x hx => ?_
    obtain ⟨n, hid⟩ := input.line_of_mem hx
    simp [Stmt.isFenceLock, hid]
  exact ⟨by rw [RepairState.start, hlocks]; rfl, by rw [RepairState.start, hfences]; rfl⟩

/-- What `removeDeadlocks` keeps as it is costs nothing. -/
theorem CountersMatch.of_kept {g : LockGlobals} {out : Trace} (hkeeps : kept none out = out)
    (hlocks : g.numLocks = countLocks out) (hfences : g.numFence = countFences out)
    (hremove : removeDeadlocks g out = some (s'.trace, s'.globals)) : CountersMatch s' := by
  rw [removeDeadlocks, removeFrom_of_kept hkeeps] at hremove
  obtain ⟨htrace, hglobals⟩ := Prod.mk.inj (Option.some.inj hremove)
  rw [CountersMatch, ← htrace, ← hglobals]
  exact ⟨hlocks, hfences⟩

theorem CountersMatch.step {z : Solver Var} (h : CountersMatch s)
    (hgood : Good input s ∨ (Repeats s.trace ∧ kept none s.trace = s.trace))
    (honce : ∀ bug, consToRepair z s.trace input.transactCons input.bugs = some bug →
      CountedOnce s.trace bug input.writes)
    (hstep : iteration input z s = some s') : CountersMatch s' := by
  obtain ⟨cons, g, -, hg,
    ⟨-, hremove, -⟩ | ⟨hmore, bug, hbug, htarget, -, out, g', happend, hremove⟩⟩ :=
    iteration_calls hstep
  · have hkeeps : kept none s.trace = s.trace := hgood.elim (·.sound.keeps) (·.2)
    exact .of_kept hkeeps (by rw [hg]; exact h.1) (by rw [hg]; exact h.2) hremove
  · rcases hgood with hgood | ⟨hrepeats, -⟩
    · have hready := hgood.ready hbug
      rw [show s.globals.r = g.r by rw [hg]] at hready
      obtain ⟨hkeeps, hlocks, hfences⟩ := appendTraceWithLocks_counted hready
        (input.w_mem_writes hbug) (honce bug htarget) happend
      have hbefore : g.numLocks = countLocks s.trace ∧ g.numFence = countFences s.trace := by
        rw [hg]
        exact h
      rw [hbefore.1] at hlocks
      rw [hbefore.2] at hfences
      exact .of_kept hkeeps (by omega) (by omega) hremove
    · rw [(hrepeats.step hstep).1] at hmore
      cases hmore

end Runs

/-- On a trace without locks the counters are those of the trace behind every iteration, as long as
every bug that is repaired is counted once. -/
theorem run_countersMatch (input : MpaInput) (z : Nat → Solver Var)
    (hlock : ∀ x ∈ input.trace, x.op ≠ .lock) (n : Nat) (s : RepairState)
    (hrun : run input z n = some s)
    (honce : ∀ m < n, ∀ s bug, run input z m = some s → s.truthValue = true →
      consToRepair (z m) s.trace input.transactCons input.bugs = some bug →
      CountedOnce s.trace bug input.writes) :
    CountersMatch s := by
  induction n generalizing s with
  | zero =>
      obtain rfl := Option.some.inj hrun
      exact .start hlock
  | succ n ih =>
      obtain ⟨s₀, hrun₀, ⟨hmore, hstep⟩ | ⟨-, rfl⟩⟩ := run_succ_cases hrun
      · have hbefore := ih s₀ hrun₀ fun m hm => honce m (by omega)
        exact hbefore.step (run_good (plain_of_run hrun₀ hmore hstep) hrun₀)
          (fun bug => honce n (by omega) s₀ bug hrun₀ hmore) hstep
      · exact ih _ hrun₀ fun m hm => honce m (by omega)

theorem run_countersMatch_lastRead :
    ∃ g, run lastReadInput (fun _ => .classical) 1 = some ⟨lastReadLocked, g, true⟩ ∧
      CountersMatch ⟨lastReadLocked, g, true⟩ := by
  obtain ⟨g, hstep⟩ := lastRead_first .classical
  have hrun : run lastReadInput (fun _ => .classical) 1 = some ⟨lastReadLocked, g, true⟩ :=
    (run_succ_of_true rfl rfl).trans hstep
  refine ⟨g, hrun, run_countersMatch lastReadInput _ (by decide) 1 _ hrun
    fun m hm s bug hbefore _ htarget => ?_⟩
  obtain rfl : m = 0 := by omega
  obtain rfl := Option.some.inj hbefore
  obtain rfl : bug = lastReadBug := List.mem_singleton.mp (consToRepair_spec htarget).1
  refine ⟨nofun, nofun, fun _ _ => .inl (.inl ⟨by decide, [], _, _, rfl, [], lastRead[1],
    [lastRead[2]], rfl, by simp, by simp, .inr ⟨by decide, rfl⟩⟩), fun _ _ hnot => ?_⟩
  exact absurd (by decide) hnot

/-! ### A second store directly behind the first -/

/-- The reader is the first store of the trace and the writer the next statement. -/
def nextWrite : Trace :=
  [⟨.line 2, .store, "x", "-1", 0, "f_1"⟩, ⟨.line 3, .store, "y", "-1", 1, "g_2"⟩]

def nextWriteInput : MpaInput where
  trace := nextWrite
  bugs := [⟨nextWrite[1], nextWrite[0]⟩]
  numbered := rfl
  bugs_in := by
    intro bug hbug
    rw [List.mem_singleton.mp hbug]
    exact ⟨by simp, by simp, rfl, rfl, ⟨3, rfl⟩, ⟨2, rfl⟩, by decide⟩

/-- The writer executes before the reader and persists behind it. -/
def nextWriteTimes : Var → Int
  | .pc (.line 3) => 1
  | .pc _ => 2
  | .pt _ => 5

/-- The first phase has copied the writer, and the second one writes an unlock without its lock: the
trace has one lock, and `num_locks` is 0. -/
theorem not_run_countersMatch_nextWrite :
    ¬∀ (input : MpaInput) (z : Nat → Solver Var), (∀ x ∈ input.trace, x.op ≠ .lock) →
      ∀ (n : Nat) (s : RepairState), run input z n = some s → CountersMatch s := by
  intro hclaim
  have hstep := @iteration_of_satisfies nextWriteInput .classical (.start nextWriteInput)
    ⟨nextWrite[1], nextWrite[0]⟩ _ nextWriteTimes rfl rfl (by decide) (by decide) _ _ _ _ _
    rfl rfl rfl
  have hmatch := hclaim nextWriteInput (fun _ => .classical) (by decide) 1 _
    ((run_succ_of_true rfl rfl).trans hstep)
  exact absurd hmatch.1 (by decide)

end PMBugRepair
