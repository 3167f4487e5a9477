import PMBugRepair.Step4.Sound
import PMBugRepair.Step4.Core

/-!
# Pieces of the new trace

The copying loops write the new trace piece by piece. A piece stands for the statements it was
copied from: what `removeDeadlocks` keeps of it are these statements in their order, together with
some of the rows that were added, and it leaves the same lock open.
-/

namespace PMBugRepair

open Schedule

/-- The piece `out` stands for the statements `old`, with `rest` behind them in the old trace.
`added` are the rows that may be new, and every fence among them comes at a place of the old trace
at which `Cut` allows one. -/
structure Refines (needs : Stmt → Bool) (Cut : Stmt → Trace → Prop) (s : Guard)
    (old rest added out : Trace) : Prop where
  allows : ∀ {t}, Guard.Le t s →
    Guard.AllowsAll needs t out ∧ Guard.Le (t.after needs out) (s.after needs old)
  sub : old.Sublist (kept s.lock out)
  rows : (kept s.lock out).Subperm (old ++ added)
  core_eq : core (kept s.lock out) = core old
  inside_sub : inside s.lock old ⊆ inside s.lock out
  fences : ∀ fence ∈ added, fence.op = .fence → ∃ front back left right, old = front ++ back ∧
    kept s.lock out = left ++ fence :: right ∧ front.Sublist left ∧ back.Sublist right ∧
    Cut fence (back ++ rest)

namespace Refines

variable {needs : Stmt → Bool} {Cut : Stmt → Trace → Prop} {s : Guard} {old rest added out : Trace}

theorem lockAfter_eq (h : Refines needs Cut s old rest added out) :
    lockAfter s.lock out = lockAfter s.lock old := by
  have hlock := (h.allows (Guard.Le.refl s)).2.lock
  rwa [Guard.after_lock, Guard.after_lock] at hlock

theorem append {old' added' out' : Trace} (h : Refines needs Cut s old (old' ++ rest) added out)
    (h' : Refines needs Cut (s.after needs old) old' rest added' out') :
    Refines needs Cut s (old ++ old') rest (added ++ added') (out ++ out') := by
  have hlock : (s.after needs old).lock = lockAfter s.lock out := by
    rw [Guard.after_lock, h.lockAfter_eq]
  have hkept : kept s.lock (out ++ out') =
      kept s.lock out ++ kept (s.after needs old).lock out' := by rw [kept_append, hlock]
  constructor
  · intro t ht
    obtain ⟨hallows, hle⟩ := h.allows ht
    obtain ⟨hallows', hle'⟩ := h'.allows hle
    rw [Guard.allowsAll_append, Guard.after_append, Guard.after_append]
    exact ⟨⟨hallows, hallows'⟩, hle'⟩
  · rw [hkept]
    exact h.sub.append h'.sub
  · rw [hkept]
    apply (h.rows.append h'.rows).trans
    apply List.Perm.subperm
    rw [List.append_assoc, List.append_assoc, List.perm_append_left_iff, ← List.append_assoc,
      ← List.append_assoc, List.perm_append_right_iff]
    exact List.perm_append_comm
  · rw [hkept, core_append, core_append, h.core_eq, h'.core_eq]
  · rw [inside_append, inside_append, ← hlock, Guard.after_lock]
    have hinside := h'.inside_sub
    rw [Guard.after_lock] at hinside
    exact List.append_subset.mpr ⟨fun x hx => List.mem_append_left _ (h.inside_sub hx),
      fun x hx => List.mem_append_right _ (hinside hx)⟩
  · intro fence hmem hop
    rw [hkept]
    rcases List.mem_append.mp hmem with hmem | hmem
    · obtain ⟨front, back, left, right, hold, hout, hfront, hback, hcut⟩ := h.fences fence hmem hop
      refine ⟨front, back ++ old', left, right ++ kept (s.after needs old).lock out',
        ?_, ?_, hfront,
        hback.append h'.sub, ?_⟩
      · rw [hold, List.append_assoc]
      · rw [hout, List.append_assoc, List.cons_append]
      · rw [List.append_assoc]
        exact hcut
    · obtain ⟨front, back, left, right, hold, hout, hfront, hback, hcut⟩ := h'.fences fence hmem hop
      refine ⟨old ++ front, back, kept s.lock out ++ left, right, ?_, ?_,
        h.sub.append hfront, hback,
        hcut⟩
      · rw [hold, List.append_assoc]
      · rw [hout, List.append_assoc]

theorem copy (hallows : Guard.AllowsAll needs s old) (hkeeps : kept s.lock old = old) :
    Refines needs Cut s old rest [] old := by
  refine ⟨fun ht => ht.allowsAll hallows, ?_, ?_, ?_, List.Subset.refl _, by simp⟩
  · rw [hkeeps]
  · rw [hkeeps, List.append_nil]
  · rw [hkeeps]

end Refines

/-- Rows that are dropped are allowed and change nothing. -/
theorem allowsAll_of_dropped {needs : Stmt → Bool} {t : Guard} {out : Trace}
    (h : kept t.lock out = []) :
    Guard.AllowsAll needs t out ∧ t.after needs out = t := by
  induction out with
  | nil => exact ⟨trivial, rfl⟩
  | cons x out ih =>
      cases hstep : deadlockStep t.lock x with
      | some next =>
          rw [kept_cons_of_some hstep] at h
          cases h
      | none =>
          rw [kept_cons_of_none hstep] at h
          have hsame := @Guard.step_of_dropped needs t x hstep
          obtain ⟨hallows, hafter⟩ := ih h
          refine ⟨⟨⟨fun hop hnone => ?_, fun lock hlock hplain => ?_, fun lock hlock hop hclose => ?_⟩,
            by rwa [hsame]⟩, ?_⟩
          · rw [hnone, deadlockStep_lock hop] at hstep
            cases hstep
          · rw [deadlockStep_plain hplain] at hstep
            cases hstep
          · rw [hlock, deadlockStep_close hop hclose] at hstep
            cases hstep
          · rw [Guard.after, List.foldl_cons, hsame]
            exact hafter

theorem Refines.dropped {needs : Stmt → Bool} {Cut : Stmt → Trace → Prop} {s : Guard}
    {rest out : Trace} (h : kept s.lock out = []) : Refines needs Cut s [] rest [] out := by
  refine ⟨fun {t} ht => ?_, by simp, ?_, ?_, by simp [inside], by simp⟩
  · obtain ⟨hallows, hafter⟩ := @allowsAll_of_dropped needs t out (by rw [ht.lock, h])
    rw [hafter]
    exact ⟨hallows, ht⟩
  · rw [h]
    exact List.nil_subperm
  · rw [h]

/-! ### Pieces with a new section -/

section Plain

variable {needs : Stmt → Bool} {openLock : Option Stmt} {body : Trace}

theorem kept_of_plain (h : ∀ y ∈ body, y.Plain) :
    kept openLock body = body ∧ lockAfter openLock body = openLock := by
  induction body with
  | nil => exact ⟨rfl, rfl⟩
  | cons y body ih =>
      obtain ⟨hy, hbody⟩ := List.forall_mem_cons.mp h
      obtain ⟨hkept, hlock⟩ := ih hbody
      rw [kept_cons_of_some (deadlockStep_plain hy), hkept, lockAfter, lockNext_plain hy, hlock]
      exact ⟨rfl, rfl⟩

theorem inside_of_plain (h : ∀ y ∈ body, y.Plain) :
    inside openLock body = if openLock = none then [] else body := by
  induction body with
  | nil => simp [inside]
  | cons y body ih =>
      obtain ⟨hy, hbody⟩ := List.forall_mem_cons.mp h
      rw [inside, lockNext_plain hy, ih hbody]
      cases openLock with
      | none => simp
      | some lock => simp [hy]

theorem allowsAll_of_plain {s : Guard} {lock : Stmt} (hlock : s.lock = some lock)
    (h : ∀ y ∈ body, y.Plain ∧ y.tid = lock.tid) : Guard.AllowsAll needs s body := by
  induction body generalizing s with
  | nil => trivial
  | cons y body ih =>
      obtain ⟨⟨hplain, htid⟩, hbody⟩ := List.forall_mem_cons.mp h
      have hnext : (s.step needs y).lock = some lock := by
        rw [Guard.step, lockNext_plain hplain, hlock]
      refine ⟨⟨fun hop => absurd hop hplain.1, fun lock' hlock' _ => ?_,
        fun lock' hlock' hop => absurd hop hplain.2⟩, ih hnext hbody⟩
      rw [hlock, Option.some.injEq] at hlock'
      rw [← hlock', htid]

/-- Outside of sections, rows that are kept and open no section are plain. -/
theorem plain_of_kept (hkept : kept none body = body) (hlock : ∀ y ∈ body, y.op ≠ .lock) :
    ∀ y ∈ body, y.Plain := by
  induction body with
  | nil => simp
  | cons y body ih =>
      obtain ⟨hy, hbody⟩ := List.forall_mem_cons.mp hlock
      rcases deadlockStep_cases none y with
        ⟨hplain, hstep⟩ | ⟨hop, -⟩ | ⟨-, ⟨lock, hnone, -⟩, -⟩ | ⟨-, hstep⟩
      · rw [kept_cons_of_some hstep, List.cons.injEq] at hkept
        exact List.forall_mem_cons.mpr ⟨hplain, ih hkept.2 hbody⟩
      · exact absurd hop hy
      · cases hnone
      · rw [kept_cons_of_none hstep] at hkept
        have hlength := (@kept_sublist none body).length_le
        rw [hkept, List.length_cons] at hlength
        omega

theorem lockAfter_of_no_lock {lock : Stmt} (h : ∀ y ∈ body, y.op ≠ .lock) :
    lockAfter (some lock) body = some lock ∨ lockAfter (some lock) body = none := by
  have hnone : ∀ {body : Trace}, (∀ y ∈ body, y.op ≠ .lock) → lockAfter none body = none := by
    intro body h
    induction body with
    | nil => rfl
    | cons y body ih =>
        obtain ⟨hy, hbody⟩ := List.forall_mem_cons.mp h
        have hnext : lockNext none y = none := by
          rcases deadlockStep_cases none y with
            ⟨-, hstep⟩ | ⟨hop, -⟩ | ⟨-, -, hstep⟩ | ⟨-, hstep⟩
          · exact lockNext_of_some hstep
          · exact absurd hop hy
          · exact lockNext_of_some hstep
          · exact lockNext_of_none hstep
        rw [lockAfter, hnext, ih hbody]
  induction body with
  | nil => exact .inl rfl
  | cons y body ih =>
      obtain ⟨hy, hbody⟩ := List.forall_mem_cons.mp h
      rw [lockAfter]
      rcases deadlockStep_cases (some lock) y with
        ⟨-, hstep⟩ | ⟨hop, -⟩ | ⟨-, -, hstep⟩ | ⟨-, hstep⟩
      · rw [lockNext_of_some hstep]
        exact ih hbody
      · exact absurd hop hy
      · rw [lockNext_of_some hstep]
        exact .inr (hnone hbody)
      · rw [lockNext_of_none hstep]
        exact ih hbody

end Plain

section Wrap

variable {needs : Stmt → Bool} {Cut : Stmt → Trace → Prop} {s : Guard} {x : Stmt}
  {body rest fences : Trace} {r : Nat} {sec : LockSection}

/-- Statements of one thread that a new section is put around: it starts with `x` and opens no other
section, and what in it needs a fence has one. -/
structure Wraps (needs : Stmt → Bool) (s : Guard) (x : Stmt) (body : Trace) (sec : LockSection)
    (fences : Trace) : Prop where
  allows : Guard.AllowsAll needs s (x :: body)
  keeps : kept s.lock (x :: body) = x :: body
  plain : x.Plain
  threads : ∀ y ∈ x :: body, y.tid = x.tid
  noLock : ∀ y ∈ x :: body, y.op ≠ .lock
  fresh : ∀ lock, s.lock = some lock → sec.unlock.closes lock = false
  fenced : fences = [sec.fence] ∨
    fences = [] ∧ (Guard.after needs ⟨some sec.lock, false⟩ (x :: body)).pending = false

theorem LockSection.fence_plain (x : Stmt) (r : Nat) : (LockSection.new x r).fence.Plain :=
  ⟨nofun, nofun⟩

theorem LockSection.closes_own (x : Stmt) (r : Nat) :
    (LockSection.new x r).unlock.closes (LockSection.new x r).lock = true :=
  (Stmt.closes_iff rfl).mpr rfl

theorem Guard.step_fence (hsec : sec = .new x r) :
    s.step needs sec.fence = ⟨s.lock, false⟩ := by
  have hplain := hsec ▸ LockSection.fence_plain x r
  rw [Guard.step, lockNext_plain hplain, if_pos hplain, hsec]
  rfl

/-- Outside of sections the new one stays. -/
theorem Wraps.of_none (h : Wraps needs s x body sec fences) (hsec : sec = .new x r)
    (hlock : s.lock = none) {t : Guard} (ht : t.lock = none) :
    Guard.AllowsAll needs t (sec.lock :: (x :: body ++ fences ++ [sec.unlock])) ∧
      (t.after needs (sec.lock :: (x :: body ++ fences ++ [sec.unlock]))).lock = none ∧
      kept none (sec.lock :: (x :: body ++ fences ++ [sec.unlock])) =
        sec.lock :: (x :: body ++ fences ++ [sec.unlock]) := by
  have hkeeps := h.keeps
  rw [hlock] at hkeeps
  have hold := plain_of_kept hkeeps h.noLock
  have htid : sec.lock.tid = x.tid := by rw [hsec]; rfl
  have hop : sec.lock.op = .lock := by rw [hsec]; rfl
  have hrows : ∀ y ∈ x :: body ++ fences, y.Plain ∧ y.tid = sec.lock.tid := by
    intro y hy
    rw [htid]
    rcases List.mem_append.mp hy with hy | hy
    · exact ⟨hold y hy, h.threads y hy⟩
    · rcases h.fenced with hfences | ⟨hfences, -⟩
      · rw [hfences] at hy
        rw [List.mem_singleton.mp hy, hsec]
        exact ⟨LockSection.fence_plain x r, rfl⟩
      · rw [hfences] at hy
        cases hy
  have hopen : t.step needs sec.lock = ⟨some sec.lock, false⟩ := by
    rw [Guard.step, ht, lockNext_of_some (deadlockStep_lock hop)]
    simp [hop, Stmt.Plain]
  generalize hinner : Guard.after needs ⟨some sec.lock, false⟩ (x :: body ++ fences) = u
  have hinnerLock : u.lock = some sec.lock := by
    rw [← hinner, Guard.after_lock]
    exact (kept_of_plain fun y hy => (hrows y hy).1).2
  have hpending : u.pending = false := by
    rcases h.fenced with hfences | ⟨hfences, hpending⟩
    · rw [← hinner, hfences, Guard.after_append]
      change (Guard.step needs _ sec.fence).pending = false
      rw [Guard.step_fence hsec]
    · rw [← hinner, hfences, List.append_nil]
      exact hpending
  have hunlockOp : sec.unlock.op = .unlock := by rw [hsec]; rfl
  have hcloses : sec.unlock.closes sec.lock = true := hsec ▸ LockSection.closes_own x r
  have hclose := deadlockStep_close hunlockOp hcloses
  refine ⟨⟨⟨fun _ _ => ⟨r, by rw [hsec]; rfl⟩, fun lock hsome => ?_, fun lock hsome => ?_⟩, ?_⟩,
    ?_, ?_⟩
  · rw [ht] at hsome
    cases hsome
  · rw [ht] at hsome
    cases hsome
  · rw [hopen, Guard.allowsAll_append, hinner]
    refine ⟨allowsAll_of_plain rfl hrows, ⟨fun hlockOp => ?_, fun lock _ hplain => ?_,
      fun lock hsome _ _ => ⟨hpending, ?_⟩⟩, trivial⟩
    · rw [hunlockOp] at hlockOp
      cases hlockOp
    · exact absurd hunlockOp hplain.2
    · rw [hinnerLock, Option.some.injEq] at hsome
      rw [← hsome, hsec]
      rfl
  · change (Guard.after needs (t.step needs sec.lock) _).lock = none
    rw [hopen, Guard.after_append, hinner]
    change lockNext u.lock sec.unlock = none
    rw [hinnerLock, lockNext_of_some hclose]
  · rw [kept_cons_of_some (deadlockStep_lock hop), kept_append,
      (kept_of_plain fun y hy => (hrows y hy).1).1, (kept_of_plain fun y hy => (hrows y hy).1).2,
      kept_cons_of_some hclose]
    rfl

/-- Inside of a section the new lock and its unlock are dropped. -/
theorem Wraps.of_some (h : Wraps needs s x body sec fences) (hsec : sec = .new x r) {lock : Stmt}
    (hlock : s.lock = some lock) {t : Guard} (ht : Guard.Le t s) :
    Guard.AllowsAll needs t (sec.lock :: (x :: body ++ fences ++ [sec.unlock])) ∧
      Guard.Le (t.after needs (sec.lock :: (x :: body ++ fences ++ [sec.unlock])))
        (s.after needs (x :: body)) ∧
      kept s.lock (sec.lock :: (x :: body ++ fences ++ [sec.unlock])) = x :: body ++ fences := by
  have hop : sec.lock.op = .lock := by rw [hsec]; rfl
  have hunlockOp : sec.unlock.op = .unlock := by rw [hsec]; rfl
  have hnested : deadlockStep s.lock sec.lock = none := by
    rw [hlock]
    exact deadlockStep_nested hop
  have hxTid : x.tid = lock.tid := h.allows.1.thread lock hlock h.plain
  obtain ⟨hbody, hle⟩ := ht.allowsAll h.allows
  generalize hu : t.after needs (x :: body) = u at hle
  have hopen : u.lock = some lock ∨ u.lock = none := by
    rw [← hu, Guard.after_lock, ht.lock, hlock]
    exact lockAfter_of_no_lock h.noLock
  have hfences : Guard.AllowsAll needs u fences ∧
      Guard.Le (u.after needs fences) (s.after needs (x :: body)) ∧ kept u.lock fences = fences ∧
      lockAfter u.lock fences = u.lock := by
    rcases h.fenced with hfences | ⟨hfences, -⟩
    · have hplain : sec.fence.Plain := hsec ▸ LockSection.fence_plain x r
      rw [hfences]
      refine ⟨⟨⟨fun hlockOp => absurd hlockOp hplain.1, fun lock' hsome _ => ?_,
        fun lock' _ hop => absurd hop hplain.2⟩, trivial⟩, ?_, ?_⟩
      · rcases hopen with hopen | hopen
        · rw [hopen, Option.some.injEq] at hsome
          rw [← hsome, ← hxTid, hsec]
          rfl
        · rw [hopen] at hsome
          cases hsome
      · change Guard.Le (u.step needs sec.fence) _
        rw [Guard.step_fence hsec]
        exact ⟨hle.lock, fun _ hpending => nomatch hpending⟩
      · exact kept_of_plain (by simpa using hplain)
    · rw [hfences]
      exact ⟨trivial, hle, rfl, rfl⟩
  obtain ⟨hallows, hle', hkept, hafter⟩ := hfences
  have hstray : deadlockStep u.lock sec.unlock = none := by
    apply deadlockStep_stray hunlockOp
    intro lock' hsome
    rcases hopen with hopen | hopen
    · rw [hopen, Option.some.injEq] at hsome
      exact hsome ▸ h.fresh lock hlock
    · rw [hopen] at hsome
      cases hsome
  have hlast : (u.after needs fences).lock = u.lock := by rw [Guard.after_lock, hafter]
  have hdropped : kept (u.after needs fences).lock [sec.unlock] = [] := by
    rw [hlast, kept_cons_of_none hstray]
    rfl
  obtain ⟨hunlock, hunlockAfter⟩ := @allowsAll_of_dropped needs (u.after needs fences) _ hdropped
  have hfirst : kept t.lock [sec.lock] = [] := by
    rw [ht.lock, kept_cons_of_none hnested]
    rfl
  obtain ⟨hlockAllows, hlockAfter⟩ := @allowsAll_of_dropped needs t _ hfirst
  have hsplit : sec.lock :: (x :: body ++ fences ++ [sec.unlock]) =
      [sec.lock] ++ ((x :: body) ++ (fences ++ [sec.unlock])) := by simp
  rw [hsplit]
  refine ⟨?_, ?_, ?_⟩
  · rw [Guard.allowsAll_append, hlockAfter, Guard.allowsAll_append, hu, Guard.allowsAll_append]
    exact ⟨hlockAllows, hbody, hallows, hunlock⟩
  · rw [Guard.after_append, hlockAfter, Guard.after_append, hu, Guard.after_append, hunlockAfter]
    exact hle'
  · have hlockU : lockAfter s.lock (x :: body) = u.lock := by rw [← ht.lock, ← hu, Guard.after_lock]
    rw [List.singleton_append, kept_cons_of_none hnested, kept_append, h.keeps, hlockU, kept_append,
      hkept, hafter, kept_cons_of_none hstray]
    simp [kept]

theorem core_wrap (hsec : sec = .new x r) (hfenced : fences = [sec.fence] ∨ fences = []) :
    core (sec.lock :: (x :: body ++ fences ++ [sec.unlock])) = core (x :: body) ∧
      core (x :: body ++ fences) = core (x :: body) := by
  have hfences : core fences = [] := by
    rcases hfenced with hfences | hfences
    · rw [hfences, hsec, core_cons_of_sync (LockSection.fence_sync x r), core_nil]
    · rw [hfences, core_nil]
  have hlock : sec.lock.isSync = true := by rw [hsec]; exact LockSection.lock_sync x r
  have hunlock : sec.unlock.isSync = true := by rw [hsec]; exact LockSection.unlock_sync x r
  rw [core_cons_of_sync hlock, core_append, core_append, hfences,
    core_cons_of_sync hunlock, core_nil]
  simp

theorem Wraps.fence_of_mem (h : Wraps needs s x body sec fences) (hsec : sec = .new x r)
    {fence : Stmt} (hmem : fence ∈ sec.lock :: (fences ++ [sec.unlock])) (hop : fence.op = .fence) :
    fences = [sec.fence] ∧ fence = sec.fence := by
  simp only [List.mem_cons, List.mem_append, List.not_mem_nil, or_false] at hmem
  rcases hmem with rfl | hmem | rfl
  · rw [hsec] at hop
    cases hop
  · rcases h.fenced with hfences | ⟨hfences, -⟩
    · rw [hfences, List.mem_singleton] at hmem
      exact ⟨hfences, hmem⟩
    · rw [hfences] at hmem
      cases hmem
  · rw [hsec] at hop
    cases hop

theorem Refines.wrap (h : Wraps needs s x body sec fences) (hsec : sec = .new x r)
    (hcut : fences = [sec.fence] → Cut sec.fence rest) :
    Refines needs Cut s (x :: body) rest (sec.lock :: (fences ++ [sec.unlock]))
        (sec.lock :: (x :: body ++ fences ++ [sec.unlock])) ∧
      x ∈ inside s.lock (sec.lock :: (x :: body ++ fences ++ [sec.unlock])) := by
  have hop : sec.lock.op = .lock := by rw [hsec]; rfl
  have hfenced : fences = [sec.fence] ∨ fences = [] := h.fenced.imp_right And.left
  have hkeeps := h.keeps
  cases hlock : s.lock with
  | none =>
      rw [hlock] at hkeeps
      have hplain := plain_of_kept hkeeps h.noLock
      have hkept := (h.of_none hsec hlock hlock).2.2
      have hnext : lockNext none sec.lock = some sec.lock :=
        lockNext_of_some (deadlockStep_lock hop)
      refine ⟨⟨fun {t} ht => ?_, ?_, ?_, ?_, ?_, fun fence hmem hfence => ?_⟩, ?_⟩
      · obtain ⟨hallows, hnone, -⟩ := h.of_none hsec hlock (ht.lock.trans hlock)
        refine ⟨hallows, ⟨?_, fun hopen => absurd hnone hopen⟩⟩
        rw [hnone, Guard.after_lock, hlock, (kept_of_plain hplain).2]
      · rw [hlock, hkept]
        apply List.Sublist.cons
        rw [List.append_assoc]
        exact List.sublist_append_left _ _
      · rw [hlock, hkept, List.append_assoc]
        exact List.perm_middle.symm.subperm
      · rw [hlock, hkept]
        exact (core_wrap hsec hfenced).1
      · rw [hlock, inside_of_plain hplain]
        simp
      · obtain ⟨hfences, rfl⟩ := h.fence_of_mem hsec hmem hfence
        refine ⟨x :: body, [], sec.lock :: (x :: body), [sec.unlock], by simp, ?_, ?_, by simp,
          hcut hfences⟩
        · rw [hlock, hkept, hfences]
          simp
        · exact List.sublist_cons_self _ _
      · rw [inside, hnext, List.append_assoc, inside_append, inside_of_plain hplain]
        simp
  | some lock =>
      have hkept := (h.of_some hsec hlock (Guard.Le.refl s)).2.2
      have hnext : lockNext (some lock) sec.lock = some lock :=
        lockNext_of_none (deadlockStep_nested hop)
      have hskip : inside s.lock (sec.lock :: (x :: body ++ fences ++ [sec.unlock])) =
          inside s.lock (x :: body ++ fences ++ [sec.unlock]) := by
        rw [hlock, inside, hnext, if_neg fun h => h.2.1 hop]
        rfl
      refine ⟨⟨fun {t} ht => ?_, ?_, ?_, ?_, ?_, fun fence hmem hfence => ?_⟩, ?_⟩
      · obtain ⟨hallows, hle, -⟩ := h.of_some hsec hlock ht
        exact ⟨hallows, hle⟩
      · rw [hkept]
        exact List.sublist_append_left _ _
      · rw [hkept]
        apply List.Sublist.subperm
        rw [List.append_sublist_append_left]
        exact (List.sublist_append_left _ _).cons _
      · rw [hkept]
        exact (core_wrap hsec hfenced).2
      · rw [hskip, List.append_assoc, inside_append]
        exact List.subset_append_left _ _
      · obtain ⟨hfences, rfl⟩ := h.fence_of_mem hsec hmem hfence
        refine ⟨x :: body, [], x :: body, [], by simp, ?_, List.Sublist.refl _, by simp,
          hcut hfences⟩
        rw [hkept, hfences]
      · rw [← hlock, hskip, hlock, List.cons_append, List.cons_append, inside,
          if_pos ⟨by simp, h.plain⟩]
        simp

/-- A fence behind the last statement, and an unlock that is dropped. -/
theorem Refines.orphan (hsec : sec = .new x r) (hlock : s.lock = none) (hcut : Cut sec.fence rest) :
    Refines needs Cut s [] rest [sec.fence, sec.unlock] [sec.fence, sec.unlock] := by
  have hplain : sec.fence.Plain := hsec ▸ LockSection.fence_plain x r
  have hop : sec.unlock.op = .unlock := by rw [hsec]; rfl
  have hstray : deadlockStep none sec.unlock = none := deadlockStep_stray hop nofun
  have hkept : kept s.lock [sec.fence, sec.unlock] = [sec.fence] := by
    rw [hlock, kept_cons_of_some (deadlockStep_plain hplain), kept_cons_of_none hstray]
    rfl
  have hsync : core [sec.fence] = [] := by
    rw [hsec, core_cons_of_sync (LockSection.fence_sync x r), core_nil]
  refine ⟨fun {t} ht => ?_, by simp, ?_, ?_, by simp [inside], fun fence hmem hfence => ?_⟩
  · have htLock : t.lock = none := ht.lock.trans hlock
    have hnext : (t.step needs sec.fence).lock = none := by
      rw [Guard.step, lockNext_plain hplain, htLock]
    have hdropped : kept (t.step needs sec.fence).lock [sec.unlock] = [] := by
      rw [hnext, kept_cons_of_none hstray]
      rfl
    obtain ⟨hallows, hafter⟩ := @allowsAll_of_dropped needs _ _ hdropped
    refine ⟨⟨⟨fun hlockOp => absurd hlockOp hplain.1, fun lock hsome => ?_,
      fun lock _ hunlock => absurd hunlock hplain.2⟩, hallows⟩, ?_⟩
    · rw [htLock] at hsome
      cases hsome
    · change Guard.Le (Guard.after needs (t.step needs sec.fence) [sec.unlock]) s
      rw [hafter]
      exact ⟨hnext.trans hlock.symm, fun hopen => absurd hnext hopen⟩
  · rw [hkept]
    exact List.Sublist.subperm (by simp)
  · rw [hkept, hsync, core_nil]
  · rcases List.mem_cons.mp hmem with rfl | hmem
    · exact ⟨[], [], [], [], rfl, hkept, by simp, by simp, hcut⟩
    · rw [List.mem_singleton.mp hmem, hop] at hfence
      cases hfence

end Wrap

end PMBugRepair
