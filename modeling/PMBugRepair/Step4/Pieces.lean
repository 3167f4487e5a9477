import PMBugRepair.Step4.Refine
import PMBugRepair.Step4.Conserve

/-!
# The phases as pieces

On a sound trace each phase of `appendTraceWithLocks` writes a piece for the statements it consumes:
a copy, the statements of the new section, and a copy. Only a phase that starts from an index which
was not updated writes rows a second time.
-/

namespace PMBugRepair

open Schedule

/-- The stores that need a fence behind them in their section. -/
def isWriter (writes : List Id) (x : Stmt) : Bool := decide (x.id ∈ writes)

/-- The section of `store` is closed by a new fence in front of `suffix`. The loop for the first
store also closes it in front of the last statement. -/
def SectionCut (trace : Trace) (store : Stmt) (other : Id) (stopsEarly : Bool) (suffix : Trace) :
    Prop :=
  ∃ pre body x rest, suffix = x :: rest ∧ trace = pre ++ store :: (body ++ x :: rest) ∧
    (∀ y ∈ body, closing other store y = none) ∧
    (closing other store x = some .newFence ∨ (stopsEarly = true ∧ rest = []))

/-- The places at which the pass adds a fence. -/
def FenceAt (trace : Trace) (bug : Mpa) (writes : List Id) (fence : Stmt) (suffix : Trace) : Prop :=
  suffix = [] ∨
    (fence.tid = bug.first.tid ∧ bug.first.id ∈ writes ∧ ¬Locked trace bug.first ∧
      SectionCut trace bug.first bug.second.id true suffix) ∨
    (fence.tid = bug.second.tid ∧ bug.second.id ∈ writes ∧ ¬Locked trace bug.second ∧
      SectionCut trace bug.second bug.first.id false suffix)

/-- Every lock, unlock and closing fence of the trace has a smaller number. -/
def NumberedBelow (r : Nat) (trace : Trace) : Prop :=
  ∀ x ∈ trace, ∀ k, x.id = .lock k ∨ x.id = .unlock k ∨ x.id = .fenceLock k → k < r

/-- Different rows, numbered from `lo` up to `hi`. -/
structure NumberedFrom (lo hi : Nat) (added : Trace) : Prop where
  nodup : (added.map Stmt.id).Nodup
  range : ∀ x ∈ added, ∃ k, lo ≤ k ∧ k < hi ∧
    (x.id = .lock k ∨ x.id = .unlock k ∨ x.id = .fenceLock k)

theorem NumberedFrom.nil (r : Nat) : NumberedFrom r r [] := ⟨List.nodup_nil, by simp⟩

theorem NumberedFrom.append {lo mid hi : Nat} {added added' : Trace}
    (h : NumberedFrom lo mid added) (h' : NumberedFrom mid hi added') (hle : lo ≤ mid)
    (hle' : mid ≤ hi) : NumberedFrom lo hi (added ++ added') := by
  refine ⟨?_, fun x hx => ?_⟩
  · rw [List.map_append, List.nodup_append]
    refine ⟨h.nodup, h'.nodup, fun id hid id' hid' heq => ?_⟩
    obtain ⟨x, hx, rfl⟩ := List.mem_map.mp hid
    obtain ⟨y, hy, rfl⟩ := List.mem_map.mp hid'
    obtain ⟨k, -, hk, hxid⟩ := h.range x hx
    obtain ⟨k', hk', -, hyid⟩ := h'.range y hy
    have hsame : k = k' := by
      rcases hxid with hxid | hxid | hxid <;> rcases hyid with hyid | hyid | hyid <;>
        rw [hxid, hyid] at heq <;> simp at heq <;> exact heq
    omega
  · rcases List.mem_append.mp hx with hx | hx
    · obtain ⟨k, hlo, hhi, hid⟩ := h.range x hx
      exact ⟨k, hlo, by omega, hid⟩
    · obtain ⟨k, hlo, hhi, hid⟩ := h'.range x hx
      exact ⟨k, by omega, hhi, hid⟩

theorem NumberedFrom.rows {x : Stmt} {r : Nat} {sec : LockSection} {fences : Trace}
    (hsec : sec = .new x r) (hfences : fences = [sec.fence] ∨ fences = []) :
    NumberedFrom r (r + 1) (sec.lock :: (fences ++ [sec.unlock])) := by
  subst hsec
  rcases hfences with rfl | rfl
  · refine ⟨by simp [LockSection.new, insertedStmt], fun y hy => ⟨r, le_rfl, by omega, ?_⟩⟩
    simp only [List.mem_cons, List.singleton_append, List.not_mem_nil, or_false] at hy
    rcases hy with rfl | rfl | rfl <;> simp [LockSection.new, insertedStmt]
  · refine ⟨by simp [LockSection.new, insertedStmt], fun y hy => ⟨r, le_rfl, by omega, ?_⟩⟩
    simp only [List.mem_cons, List.nil_append, List.not_mem_nil, or_false] at hy
    rcases hy with rfl | rfl <;> simp [LockSection.new, insertedStmt]

theorem NumberedFrom.orphan {x : Stmt} {r : Nat} {sec : LockSection} (hsec : sec = .new x r) :
    NumberedFrom r (r + 1) [sec.fence, sec.unlock] := by
  subst hsec
  refine ⟨by simp [LockSection.new, insertedStmt], fun y hy => ⟨r, le_rfl, by omega, ?_⟩⟩
  simp only [List.mem_cons, List.not_mem_nil, or_false] at hy
  rcases hy with rfl | rfl <;> simp [LockSection.new, insertedStmt]

theorem NumberedFrom.notMem {lo hi : Nat} {added trace : Trace} (h : NumberedFrom lo hi added)
    (hbelow : NumberedBelow lo trace) {x : Stmt} (hx : x ∈ trace) : x ∉ added := by
  intro hmem
  obtain ⟨k, hlo, -, hid⟩ := h.range x hmem
  have hlt := hbelow x hx k hid
  omega

/-! ### Parts of a sound trace -/

theorem closing_eq_none {other : Id} {found x : Stmt} (h : closing other found x = none) :
    x.tid = found.tid ∧ x.id ≠ other ∧ x.op ≠ .lock ∧ x.op ≠ .fence := by
  unfold closing at h
  split_ifs at h with htid hother hscope hfence
  rw [not_or] at hother
  exact ⟨not_not.mp htid, hother.1, hother.2, hfence⟩

theorem closing_eq_ownFence {other : Id} {found x : Stmt}
    (h : closing other found x = some .ownFence) :
    x.tid = found.tid ∧ x.id ≠ other ∧ x.op = .fence := by
  unfold closing at h
  split_ifs at h with htid hother hscope hfence
  · cases h
  · cases h
  · cases h
  · rw [not_or] at hother
    exact ⟨not_not.mp htid, hother.1, hfence⟩

section Parts

variable {needs : Stmt → Bool} {Cut : Stmt → Trace → Prop} {trace pre mid post : Trace}

theorem Sound.part (h : Sound needs trace) (htrace : trace = pre ++ (mid ++ post)) :
    Guard.AllowsAll needs (Guard.start.after needs pre) mid ∧
      kept (Guard.start.after needs pre).lock mid = mid := by
  have hallows := h.allows
  have hkeeps := h.keeps
  rw [htrace] at hallows hkeeps
  rw [Guard.allowsAll_append, Guard.allowsAll_append] at hallows
  refine ⟨hallows.2.1, ?_⟩
  rw [Guard.after_lock]
  exact (kept_split (kept_split hkeeps).2).1

theorem Sound.copy (h : Sound needs trace) (htrace : trace = pre ++ (mid ++ post)) :
    Refines needs Cut (Guard.start.after needs pre) mid post [] mid :=
  Refines.copy (h.part htrace).1 (h.part htrace).2

theorem Sound.closed_after (h : Sound needs trace) (htrace : trace = pre ++ mid) :
    ((Guard.start.after needs pre).after needs mid).lock = none := by
  rw [← Guard.after_append, ← htrace, Guard.after_lock]
  exact h.closed

theorem Sound.wraps (h : Sound needs trace) {x : Stmt} {body fences : Trace} {r : Nat}
    {sec : LockSection} (htrace : trace = pre ++ (x :: body ++ post)) (hsec : sec = .new x r)
    (hbelow : NumberedBelow r trace) (hplain : x.Plain) (hthreads : ∀ y ∈ body, y.tid = x.tid)
    (hnoLock : ∀ y ∈ body, y.op ≠ .lock)
    (hfenced : fences = [sec.fence] ∨
      fences = [] ∧ (Guard.after needs ⟨some sec.lock, false⟩ (x :: body)).pending = false) :
    Wraps needs (Guard.start.after needs pre) x body sec fences := by
  obtain ⟨hallows, hkeeps⟩ := h.part htrace
  refine ⟨hallows, hkeeps, hplain, List.forall_mem_cons.mpr ⟨rfl, hthreads⟩,
    List.forall_mem_cons.mpr ⟨hplain.1, hnoLock⟩, fun lock hlock => ?_, hfenced⟩
  have hpreAllows := h.allows
  have hpreKeeps := h.keeps
  rw [htrace] at hpreAllows hpreKeeps
  rw [Guard.after_lock] at hlock
  obtain ⟨front, behind, hpre, hop, ⟨k, hid⟩, -⟩ :=
    openLock_split (Guard.allowsAll_append.mp hpreAllows).1 (kept_split hpreKeeps).1 hlock
  have hlt : k < r := by
    apply hbelow lock _ k (.inl hid)
    rw [htrace, hpre]
    simp
  rw [← Bool.not_eq_true, Stmt.closes_iff hid, hsec]
  intro heq
  have hr : r = k := by simpa [LockSection.new, insertedStmt] using heq
  omega

/-- A copy, a new section and another copy. -/
theorem Sound.pieces (h : Sound needs trace) {x : Stmt} {front body fences rest : Trace} {r : Nat}
    {sec : LockSection} (htrace : trace = front ++ (pre ++ (x :: body ++ (mid ++ rest))))
    (hsec : sec = .new x r) (hbelow : NumberedBelow r trace) (hplain : x.Plain)
    (hthreads : ∀ y ∈ body, y.tid = x.tid) (hnoLock : ∀ y ∈ body, y.op ≠ .lock)
    (hfenced : fences = [sec.fence] ∨
      fences = [] ∧ (Guard.after needs ⟨some sec.lock, false⟩ (x :: body)).pending = false)
    (hcut : fences = [sec.fence] → Cut sec.fence (mid ++ rest)) :
    Refines needs Cut (Guard.start.after needs front) (pre ++ (x :: body ++ mid)) rest
        (sec.lock :: (fences ++ [sec.unlock]))
        (pre ++ (sec.lock :: (x :: body ++ fences ++ [sec.unlock]) ++ mid)) ∧
      x ∈ inside (Guard.start.after needs front).lock
        (pre ++ (sec.lock :: (x :: body ++ fences ++ [sec.unlock]) ++ mid)) := by
  have hpre : Refines needs Cut (Guard.start.after needs front) pre (x :: body ++ mid ++ rest) []
      pre := h.copy (by rw [htrace, List.append_assoc])
  have hwraps : Wraps needs (Guard.start.after needs (front ++ pre)) x body sec fences :=
    @Sound.wraps needs trace (front ++ pre) (mid ++ rest) h x body fences r sec
      (by rw [htrace, List.append_assoc]) hsec hbelow hplain hthreads hnoLock hfenced
  obtain ⟨hwrap, hinside⟩ := @Refines.wrap needs Cut _ x body (mid ++ rest) fences r sec hwraps hsec
    hcut
  have hmid : Refines needs Cut (Guard.start.after needs (front ++ pre ++ (x :: body))) mid rest []
      mid := h.copy (by rw [htrace]; simp)
  rw [Guard.after_append] at hwrap hinside
  rw [Guard.after_append, Guard.after_append] at hmid
  have hall := hpre.append (hwrap.append hmid)
  rw [List.nil_append, List.append_nil] at hall
  refine ⟨hall, ?_⟩
  rw [inside_append]
  apply List.mem_append_right
  rw [inside_append]
  apply List.mem_append_left
  rwa [Guard.after_lock] at hinside

end Parts

/-- A new section only adds its lock, its fences and its unlock. -/
theorem perm_section {pre body fences mid : Trace} {x lock unlock : Stmt} :
    (pre ++ (lock :: (x :: body ++ fences ++ [unlock]) ++ mid)).Perm
      (pre ++ (x :: body ++ mid) ++ lock :: (fences ++ [unlock])) := by
  rw [List.perm_iff_count]
  intro y
  simp only [List.count_append, List.count_cons, List.count_nil]
  omega

end PMBugRepair
