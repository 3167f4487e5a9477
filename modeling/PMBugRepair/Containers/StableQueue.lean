import Mathlib.Order.Lattice
import Mathlib.Order.Defs.LinearOrder
import Mathlib.Data.List.Perm.Basic

/-!
# Stable priority queues

The elements of a queue in the order of their arrival, and a list of them that is sorted by a key
and in which equal keys stand in the order of arrival. The head of that list is the first to have
arrived among the elements with the least key.
-/

namespace StableQueue

variable {α κ : Type} [LinearOrder κ] {key : α → κ} {queue arrivals : List α}

/-- In front of the first greater element. -/
def insertBehind (key : α → κ) (x : α) : List α → List α
  | [] => [x]
  | next :: rest =>
      if key next ≤ key x then next :: insertBehind key x rest else x :: next :: rest

/-- Sorted by the key, and by arrival where the keys are equal. -/
structure Stable (key : α → κ) (queue arrivals : List α) : Prop where
  sorted : queue.Pairwise (key · ≤ key ·)
  order : ∀ k, queue.filter (key · = k) = arrivals.filter (key · = k)

def isLeast (key : α → κ) (arrivals : List α) (x : α) : Bool := arrivals.all (key x ≤ key ·)

/-- The first to have arrived among the least, and the others. -/
def takeLeast (key : α → κ) (arrivals : List α) : Option (α × List α) :=
  (arrivals.find? (isLeast key arrivals)).map fun x =>
    (x, arrivals.eraseP (isLeast key arrivals))

theorem mem_insertBehind {x y : α} (h : y ∈ insertBehind key x queue) : y = x ∨ y ∈ queue := by
  induction queue with
  | nil => exact .inl (List.mem_singleton.mp h)
  | cons next rest ih =>
      rw [insertBehind] at h
      split_ifs at h
      · rcases List.mem_cons.mp h with rfl | h
        · exact .inr List.mem_cons_self
        · exact (ih h).imp_right (List.mem_cons_of_mem next)
      · exact List.mem_cons.mp h

theorem pairwise_insertBehind (h : queue.Pairwise (key · ≤ key ·)) (x : α) :
    (insertBehind key x queue).Pairwise (key · ≤ key ·) := by
  induction queue with
  | nil => exact List.pairwise_singleton _ x
  | cons next rest ih =>
      obtain ⟨hnext, hrest⟩ := List.pairwise_cons.mp h
      rw [insertBehind]
      split_ifs with hle
      · refine List.pairwise_cons.mpr ⟨fun y hy => ?_, ih hrest⟩
        rcases mem_insertBehind hy with rfl | hy
        · exact hle
        · exact hnext y hy
      · refine List.pairwise_cons.mpr ⟨?_, h⟩
        rw [List.forall_mem_cons]
        have hlt : key x ≤ key next := (not_le.mp hle).le
        exact ⟨hlt, fun y hy => hlt.trans (hnext y hy)⟩

/-- The new element is the last one with its key. -/
theorem filter_insertBehind (h : queue.Pairwise (key · ≤ key ·)) (x : α) (k : κ) :
    (insertBehind key x queue).filter (key · = k) =
      queue.filter (key · = k) ++ [x].filter (key · = k) := by
  induction queue with
  | nil => rfl
  | cons next rest ih =>
      obtain ⟨hnext, hrest⟩ := List.pairwise_cons.mp h
      rw [insertBehind]
      split_ifs with hle
      · rw [List.filter_cons, List.filter_cons, ih hrest]
        split_ifs
        · rfl
        · rfl
      · by_cases hk : key x = k
        · have hnone : (next :: rest).filter (key · = k) = [] := by
            rw [List.filter_eq_nil_iff, List.forall_mem_cons]
            have hlt : k < key next := hk ▸ not_le.mp hle
            refine ⟨by simpa using hlt.ne', fun y hy => ?_⟩
            simpa using (hlt.trans_le (hnext y hy)).ne'
          rw [List.filter_cons_of_pos (by simpa using hk), hnone, List.nil_append,
            List.filter_cons_of_pos (by simpa using hk)]
          rfl
        · rw [List.filter_cons_of_neg (by simpa using hk), List.filter_cons_of_neg (l := [])
            (by simpa using hk), List.filter_nil, List.append_nil]

namespace Stable

theorem nil (key : α → κ) : Stable key [] [] := ⟨List.Pairwise.nil, fun _ => rfl⟩

theorem insert (h : Stable key queue arrivals) (x : α) :
    Stable key (insertBehind key x queue) (arrivals ++ [x]) where
  sorted := pairwise_insertBehind h.sorted x
  order k := by rw [filter_insertBehind h.sorted, h.order k, List.filter_append]

theorem mem_iff (h : Stable key queue arrivals) (x : α) : x ∈ queue ↔ x ∈ arrivals := by
  have hmem := congrArg (x ∈ ·) (h.order (key x))
  simpa using hmem

theorem perm (h : Stable key queue arrivals) : queue.Perm arrivals := by
  classical
  rw [List.perm_iff_count]
  intro x
  have hcount := congrArg (List.count x) (h.order (key x))
  rwa [List.count_filter (by simp), List.count_filter (by simp)] at hcount

theorem isLeast_iff {x : α} (h : Stable key (x :: queue) arrivals) {y : α} (hy : y ∈ arrivals) :
    isLeast key arrivals y = true ↔ key y = key x := by
  have hleast : ∀ z ∈ arrivals, key x ≤ key z := by
    intro z hz
    rcases List.mem_cons.mp ((h.mem_iff z).mpr hz) with rfl | hz
    · exact le_rfl
    · exact (List.pairwise_cons.mp h.sorted).1 z hz
  have hx : x ∈ arrivals := (h.mem_iff x).mp List.mem_cons_self
  simp only [isLeast, List.all_eq_true, decide_eq_true_iff]
  constructor
  · exact fun hall => le_antisymm (hall x hx) (hleast y hy)
  · exact fun heq z hz => heq ▸ hleast z hz

theorem takeLeast {x : α} (h : Stable key (x :: queue) arrivals) :
    ∃ others, takeLeast key arrivals = some (x, others) ∧ Stable key queue others := by
  have hx : x ∈ arrivals := (h.mem_iff x).mp List.mem_cons_self
  obtain ⟨first, before, after, hbefore, hfirst, harrivals, herase⟩ :=
    List.exists_of_eraseP hx ((h.isLeast_iff hx).mpr rfl)
  have hmem : ∀ y ∈ before, y ∈ arrivals := fun y hy => by simp [harrivals, hy]
  have hkey : key first = key x := (h.isLeast_iff (by simp [harrivals])).mp hfirst
  have hnone : before.filter (key · = key x) = [] := by
    rw [List.filter_eq_nil_iff]
    intro y hy hyx
    exact hbefore y hy ((h.isLeast_iff (hmem y hy)).mpr (by simpa using hyx))
  -- the elements with the key of the head come in the same order
  have hfront : x = first ∧ queue.filter (key · = key x) = after.filter (key · = key x) := by
    have horder := h.order (key x)
    rw [harrivals, List.filter_append, hnone, List.nil_append,
      List.filter_cons_of_pos (by simp), List.filter_cons_of_pos (by simpa using hkey)] at horder
    exact List.cons.inj horder
  obtain ⟨rfl, hrest⟩ := hfront
  refine ⟨before ++ after, ?_, (List.pairwise_cons.mp h.sorted).2, fun k => ?_⟩
  · have hfind : arrivals.find? (isLeast key arrivals) = some x := by
      rw [List.find?_eq_some_iff_append]
      exact ⟨hfirst, before, after, harrivals, fun y hy => by simpa using hbefore y hy⟩
    rw [StableQueue.takeLeast, hfind, herase]
    rfl
  · by_cases hk : k = key x
    · rw [hk, List.filter_append, hnone, hrest, List.nil_append]
    · have horder := h.order k
      have hskip : ∀ l, (x :: l).filter (key · = k) = l.filter (key · = k) :=
        fun l => List.filter_cons_of_neg (by simpa using Ne.symm hk)
      rwa [harrivals, List.filter_append, hskip, hskip, ← List.filter_append] at horder

theorem takeLeast_nil (h : Stable key [] arrivals) : arrivals = [] := h.perm.nil_eq.symm

end Stable

end StableQueue
