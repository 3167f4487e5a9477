import PMBugRepair.Step4.Deadlocks
import PMBugRepair.Step4.Held
import PMBugRepair.Step4.Verdict

/-!
# Traces between two iterations

Behind every iteration all locks and unlocks of the trace fit, every section stays within its
thread, and a writer in a section is followed by a fence in the same section. Two stores of
different threads that both stand in sections then leave no execution in which the second one sees
the first one before it persists.
-/

namespace PMBugRepair

open Schedule
open Smt (Formula)

structure Sound (needs : Stmt → Bool) (trace : Trace) : Prop where
  allows : Guard.AllowsAll needs .start trace
  keeps : kept none trace = trace
  closed : lockAfter none trace = none

section Split

variable {openLock : Option Stmt} {x : Stmt} {trace : Trace}

theorem kept_split {left right : Trace} (h : kept openLock (left ++ right) = left ++ right) :
    kept openLock left = left ∧ kept (lockAfter openLock left) right = right := by
  have hleft := @kept_sublist openLock left
  have hright := @kept_sublist (lockAfter openLock left) right
  have hlength := congrArg List.length h
  rw [kept_append, List.length_append, List.length_append] at hlength
  have hle := hleft.length_le
  have hle' := hright.length_le
  exact ⟨hleft.eq_of_length (by omega), hright.eq_of_length (by omega)⟩

theorem mem_inside_iff : x ∈ inside openLock trace ↔
    ∃ pre post, trace = pre ++ x :: post ∧ lockAfter openLock pre ≠ none ∧ x.Plain := by
  constructor
  · intro hx
    induction trace generalizing openLock with
    | nil => cases hx
    | cons y rest ih =>
        rw [inside, List.mem_append] at hx
        rcases hx with hx | hx
        · split at hx
          · rename_i hy
            obtain rfl := List.mem_singleton.mp hx
            exact ⟨[], rest, rfl, hy⟩
          · cases hx
        · obtain ⟨pre, post, rfl, hopen⟩ := ih hx
          exact ⟨y :: pre, post, rfl, hopen⟩
  · rintro ⟨pre, post, rfl, hopen⟩
    rw [inside_append, inside, if_pos hopen]
    simp

/-- An open lock stands in front, with nothing but rows of its thread behind it. -/
theorem openLock_split {needs : Stmt → Bool} {pre : Trace} {lock : Stmt}
    (hallows : Guard.AllowsAll needs .start pre) (hkeeps : kept none pre = pre)
    (hopen : lockAfter none pre = some lock) :
    ∃ front behind, pre = front ++ lock :: behind ∧ lock.op = .lock ∧ (∃ k, lock.id = .lock k) ∧
      ∀ y ∈ behind, y.Plain ∧ y.tid = lock.tid := by
  induction pre using List.reverseRecOn with
  | nil => cases hopen
  | append_singleton pre x ih =>
      obtain ⟨hpreAllows, hxAllows⟩ := Guard.allowsAll_append.mp hallows
      obtain ⟨hpreKeeps, hxKeeps⟩ := kept_split hkeeps
      rw [lockAfter_append] at hopen
      have hguard : (Guard.start.after needs pre).lock = lockAfter none pre := Guard.after_lock
      change lockNext (lockAfter none pre) x = some lock at hopen
      rcases deadlockStep_cases (lockAfter none pre) x with
        ⟨hplain, hstep⟩ | ⟨hop, hnone, hstep⟩ | ⟨-, -, hstep⟩ | ⟨-, hstep⟩
      · rw [lockNext_of_some hstep] at hopen
        obtain ⟨front, behind, rfl, hop, hid, hbehind⟩ := ih hpreAllows hpreKeeps hopen
        refine ⟨front, behind ++ [x], by simp, hop, hid, fun y hy => ?_⟩
        rcases List.mem_append.mp hy with hy | hy
        · exact hbehind y hy
        · rw [List.mem_singleton.mp hy]
          exact ⟨hplain, hxAllows.1.thread lock (hguard.trans hopen) hplain⟩
      · rw [lockNext_of_some hstep] at hopen
        obtain rfl := Option.some.inj hopen
        exact ⟨pre, [], rfl, hop, hxAllows.1.label hop (hguard.trans hnone), by simp⟩
      · rw [lockNext_of_some hstep] at hopen
        cases hopen
      · rw [kept_cons_of_none hstep] at hxKeeps
        cases hxKeeps

end Split

namespace Sound

variable {needs : Stmt → Bool} {trace : Trace}

theorem sections (h : Sound needs trace) : Sections trace := by
  have hsections := h.allows.sections rfl h.closed
  rwa [h.keeps] at hsections

/-- A statement inside a section, with a fence behind it if it needs one. -/
theorem exists_section (h : Sound needs trace) {x : Stmt} (hx : x ∈ inside none trace) :
    ∃ lock unlock, SectionOf trace lock unlock ∧ Before trace lock x ∧ Before trace x unlock ∧
      x.tid = lock.tid ∧ unlock.tid = lock.tid ∧ (needs x = true → x.op ≠ .fence →
        ∃ fence, fence.op = .fence ∧ fence.tid = lock.tid ∧ Before trace x fence ∧
          Before trace fence unlock) := by
  obtain ⟨pre, post, rfl, hopen, hplain⟩ := mem_inside_iff.mp hx
  obtain ⟨lock, hlock⟩ := Option.ne_none_iff_exists'.mp hopen
  obtain ⟨hpreAllows, hxAllows, hpostAllows⟩ := Guard.allowsAll_append.mp h.allows
  obtain ⟨hpreKeeps, hpostKeeps⟩ := kept_split h.keeps
  obtain ⟨front, behind, rfl, hop, ⟨k, hid⟩, -⟩ := openLock_split hpreAllows hpreKeeps hlock
  generalize hguard : Guard.start.after needs (front ++ lock :: behind) = s at hxAllows hpostAllows
  have hs : s.lock = some lock := by rw [← hguard, Guard.after_lock]; exact hlock
  have hnext : (s.step needs x).lock = some lock := by
    rw [Guard.step, hs]
    exact lockNext_plain hplain
  have hclosed := h.closed
  rw [lockAfter_append, lockAfter, hlock, lockNext_plain hplain] at hclosed
  obtain ⟨body, unlock, rest, htail⟩ :=
    hpostAllows.sectionTail (by rw [hnext]; exact hclosed) hnext hid
  have hpost : post = body ++ unlock :: kept none rest := by
    rw [hlock, kept_cons_of_some (deadlockStep_plain hplain), List.cons.injEq] at hpostKeeps
    rw [← htail.kept_eq, hnext, hpostKeeps.2]
  have hxTid := hxAllows.thread lock hs hplain
  subst hpost
  refine ⟨lock, unlock, ⟨by simp, by simp, hop, htail.op, k, hid, htail.id⟩,
    before_of_append (by simp) (by simp), ?_, hxTid, htail.tid, fun hneeds hnotFence => ?_⟩
  · rw [List.append_cons]
    exact before_of_append (by simp) (by simp)
  · have hpending : (s.step needs x).pending = true := by
      simp [Guard.step, hplain, Stmt.isFence, hnotFence, hneeds]
    obtain ⟨fence, hmem, hfenceOp⟩ := htail.fence hpending
    refine ⟨fence, hfenceOp, (htail.body_spec fence hmem).2, ?_, ?_⟩
    · rw [List.append_cons]
      exact before_of_append (by simp) (List.mem_append_left _ hmem)
    · rw [List.append_cons, ← List.append_assoc]
      exact before_of_append (List.mem_append_right _ hmem) List.mem_cons_self

/-- With both stores of a bug in sections there is no time at which the bug happens. -/
theorem not_both_inside (h : Sound needs trace) (hids : (trace.map Stmt.id).Nodup) {bug : Mpa}
    {σ : Var → Int} (hσ : Timed trace σ) (hbug : bug.formula.Holds σ)
    (htids : bug.w.tid ≠ bug.r.tid) (hstore : bug.w.op = .store) (hneeds : needs bug.w = true)
    (hw : bug.w ∈ inside none trace) (hr : bug.r ∈ inside none trace) : False := by
  obtain ⟨hlt, hpersist⟩ := Mpa.holds_formula.mp hbug
  obtain ⟨lock, unlock, hsection, hlockW, -, hwTid, hunlockTid, hfence⟩ := h.exists_section hw
  obtain ⟨lock', unlock', hsection', hlockR, hunlockR, hrTid, hunlockTid', -⟩ := h.exists_section hr
  obtain ⟨fence, hfenceOp, hfenceTid, hwFence, hfenceUnlock⟩ := hfence hneeds (by simp [hstore])
  have hne : lock'.id ≠ lock.id := by
    intro heq
    have hrows := List.inj_on_of_nodup_map hids hsection'.lock_mem hsection.lock_mem heq
    exact htids (by rw [hwTid, hrTid, hrows])
  have hsame : ∀ {lock unlock}, SectionOf trace lock unlock →
      unlockOf lock.id = some unlock.id := by
    rintro lock unlock hsection
    obtain ⟨k, hlockId, hunlockId⟩ := hsection.ids
    rw [hlockId, hunlockId, unlockOf]
  have hapart := (hσ.sections lock hsection.lock_mem hsection.lock_op unlock.id
    (hsame hsection)).2 lock' hsection'.lock_mem hsection'.lock_op hne unlock'.id (hsame hsection')
  simp only [apart, Formula.holds_any, List.mem_cons, List.not_mem_nil, or_false,
    exists_eq_or_imp, exists_eq_left, Formula.holds_all, forall_eq_or_imp, forall_eq,
    Formula.holds_lt, Smt.Term.eval] at hapart
  rcases hapart with ⟨-, hfirst⟩ | ⟨hsecond, -⟩
  · -- the section of the reader comes first
    have hreader := hσ.threads hunlockR (hrTid.trans hunlockTid'.symm)
    have hwriter := hσ.threads hlockW hwTid.symm
    omega
  · -- the section of the writer comes first, and its fence with it
    have hpersisted := hσ.fences hstore hfenceOp (hfenceTid.trans hwTid.symm) hwFence
    have hfenced := hσ.threads hfenceUnlock (hfenceTid.trans hunlockTid.symm)
    have hreader := hσ.threads hlockR hrTid.symm
    omega

theorem lockAfter_of_no_unlock {lock : Stmt} {behind : Trace}
    (h : ∀ y ∈ behind, y.op ≠ .unlock) : lockAfter (some lock) behind = some lock := by
  induction behind with
  | nil => rfl
  | cons y behind ih =>
      obtain ⟨hy, hbehind⟩ := List.forall_mem_cons.mp h
      have hnext : lockNext (some lock) y = some lock := by
        rcases deadlockStep_cases (some lock) y with
          ⟨-, hstep⟩ | ⟨-, hnone, -⟩ | ⟨hop, -⟩ | ⟨-, hstep⟩
        · exact lockNext_of_some hstep
        · cases hnone
        · exact absurd hop hy
        · exact lockNext_of_none hstep
      rw [lockAfter, hnext, ih hbehind]

/-- A lock of the trace is open directly behind it. -/
theorem lockAfter_lock (h : Sound needs trace) {pre post : Trace} {lock : Stmt}
    (htrace : trace = pre ++ lock :: post) (hop : lock.op = .lock) :
    lockAfter none (pre ++ [lock]) = some lock := by
  have hkeeps := h.keeps
  rw [htrace] at hkeeps
  obtain ⟨-, hkeepsPost⟩ := kept_split hkeeps
  rw [lockAfter_append]
  change lockNext (lockAfter none pre) lock = some lock
  rcases deadlockStep_cases (lockAfter none pre) lock with
    ⟨hplain, -⟩ | ⟨-, -, hstep⟩ | ⟨hunlock, -⟩ | ⟨-, hstep⟩
  · exact absurd hop hplain.1
  · exact lockNext_of_some hstep
  · rw [hop] at hunlock
    cases hunlock
  · rw [kept_cons_of_none hstep] at hkeepsPost
    have hlength := (@kept_sublist (lockAfter none pre) post).length_le
    rw [hkeepsPost, List.length_cons] at hlength
    omega

/-- What the scan of `appendTraceWithLocks` finds locked stands in a section. -/
theorem inside_of_locked (h : Sound needs trace) {x : Stmt} (hplain : x.Plain)
    (hlocked : Locked trace x) : x ∈ inside none trace := by
  obtain ⟨pre, post, htrace, ⟨before, lock, behind, rfl, hop, hbehind⟩, -⟩ := hlocked
  refine mem_inside_iff.mpr ⟨_, post, htrace, ?_, hplain⟩
  have hopen := @lockAfter_lock needs trace h before (behind ++ x :: post) lock
    (by rw [htrace]; simp) hop
  rw [List.append_cons, lockAfter_append, hopen, lockAfter_of_no_unlock hbehind]
  simp

theorem thread_of_open (h : Sound needs trace) {pre post : Trace} {x lock : Stmt}
    (htrace : trace = pre ++ x :: post) (hplain : x.Plain) (hopen : lockAfter none pre = some lock) :
    x.tid = lock.tid := by
  have hallows := h.allows
  rw [htrace] at hallows
  have hx := (Guard.allowsAll_append.mp hallows).2.1
  exact hx.thread lock (Guard.after_lock.trans hopen) hplain

/-- No section holds stores of two threads. -/
theorem not_shared (h : Sound needs trace) {first second : Stmt} (htids : first.tid ≠ second.tid)
    (hfirst : first.Plain) (hsecond : second.Plain) :
    ¬∃ pre lock mid between post, SharedBy first second pre lock mid between post trace := by
  rintro ⟨pre, lock, mid, between, post, htrace, hop, hplain⟩
  have hopen := h.lockAfter_lock htrace hop
  have hmid : lockAfter none ((pre ++ [lock]) ++ mid) = some lock := by
    rw [lockAfter_append, hopen]
    exact lockAfter_of_no_unlock fun y hy => (hplain y (List.mem_append_left between hy)).2
  have hbetween : lockAfter none ((pre ++ [lock]) ++ (mid ++ first :: between)) = some lock := by
    rw [lockAfter_append, hopen]
    apply lockAfter_of_no_unlock
    intro y hy
    rcases List.mem_append.mp hy with hy | hy
    · exact (hplain y (List.mem_append_left between hy)).2
    · rcases List.mem_cons.mp hy with rfl | hy
      · exact hfirst.2
      · exact (hplain y (List.mem_append_right mid hy)).2
  have hfirstTid := @thread_of_open needs trace h _ (between ++ second :: post) first lock
    (by rw [htrace]; simp) hfirst hmid
  have hsecondTid := @thread_of_open needs trace h _ post second lock (by rw [htrace]; simp) hsecond
    hbetween
  exact htids (hfirstTid.trans hsecondTid.symm)

end Sound

end PMBugRepair
