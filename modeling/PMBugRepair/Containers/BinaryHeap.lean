import Mathlib.Data.Finset.Range
import Mathlib.Data.Multiset.MapFold
import Mathlib.Order.Basic
import Mathlib.Logic.Equiv.Basic

/-!
# Binary heaps in an array

The first `n` entries of an array are a heap if no entry is less than its parent. A sift repairs the
order when one entry is out of place: on the way up only the pair with its parent can be wrong, on
the way down only the pairs with its children.
-/

namespace BinaryHeap

variable {α : Type} {a : Nat → α} {n i j : Nat}

/-- Exchange of two entries. -/
def swap (a : Nat → α) (i j : Nat) : Nat → α :=
  fun k => if k = i then a j else if k = j then a i else a k

/-- The values of the first `n` entries. -/
def contents (a : Nat → α) (n : Nat) : Multiset α := (Multiset.range n).map a

theorem contents_succ (a : Nat → α) (n : Nat) : contents a (n + 1) = a n ::ₘ contents a n := by
  rw [contents, Multiset.range_succ, Multiset.map_cons, contents]

theorem contents_congr {b : Nat → α} (h : ∀ k < n, a k = b k) : contents a n = contents b n :=
  Multiset.map_congr rfl fun k hk => h k (Multiset.mem_range.mp hk)

theorem mem_contents {x : α} : x ∈ contents a n ↔ ∃ k < n, a k = x := by
  simp [contents]

theorem card_contents (a : Nat → α) (n : Nat) : (contents a n).card = n := by
  simp [contents]

theorem contents_swap (hi : i < n) (hj : j < n) : contents (swap a i j) n = contents a n := by
  have heq : swap a i j = a ∘ Equiv.swap i j := by
    funext k
    simp only [swap, Function.comp_apply, Equiv.swap_apply_def]
    split_ifs <;> rfl
  have hrange : (Multiset.range n).map (Equiv.swap i j) = Multiset.range n := by
    apply Multiset.Nodup.ext ((Multiset.nodup_range n).map (Equiv.swap i j).injective)
      (Multiset.nodup_range n) |>.mpr
    intro k
    have hlt : ∀ k, k < n → Equiv.swap i j k < n := by
      intro k hk
      rw [Equiv.swap_apply_def]
      split_ifs <;> omega
    rw [Multiset.mem_map, Multiset.mem_range]
    constructor
    · rintro ⟨m, hm, rfl⟩
      exact hlt m (Multiset.mem_range.mp hm)
    · intro hk
      exact ⟨Equiv.swap i j k, Multiset.mem_range.mpr (hlt k hk), by simp⟩
  rw [contents, heq, ← Multiset.map_map, hrange, contents]

/-! ### Order -/

section Order

variable [LinearOrder α]

/-- No entry is less than its parent. -/
def Ordered (a : Nat → α) (n : Nat) : Prop := ∀ k, 0 < k → k < n → a ((k - 1) / 2) ≤ a k

/-- The order apart from the entry and its parent; the parent is at most the children of the
entry. -/
structure UpOrder (a : Nat → α) (n i : Nat) : Prop where
  except : ∀ k, 0 < k → k < n → k ≠ i → a ((k - 1) / 2) ≤ a k
  grand : 0 < i → ∀ k, 0 < k → k < n → (k - 1) / 2 = i → a ((i - 1) / 2) ≤ a k

/-- The order apart from the entry and its children; the parent is at most the children. -/
structure DownOrder (a : Nat → α) (n i : Nat) : Prop where
  except : ∀ k, 0 < k → k < n → (k - 1) / 2 ≠ i → a ((k - 1) / 2) ≤ a k
  grand : 0 < i → ∀ k, 0 < k → k < n → (k - 1) / 2 = i → a ((i - 1) / 2) ≤ a k

theorem Ordered.root_le (h : Ordered a n) {k : Nat} (hk : k < n) : a 0 ≤ a k := by
  induction k using Nat.strongRecOn with
  | ind k ih =>
      by_cases hzero : k = 0
      · rw [hzero]
      · exact (ih ((k - 1) / 2) (by omega) (by omega)).trans (h k (by omega) hk)

theorem UpOrder.finish (h : UpOrder a n i) (hstop : i = 0 ∨ a ((i - 1) / 2) ≤ a i) :
    Ordered a n := by
  intro k hpos hk
  by_cases hki : k = i
  · subst hki
    exact hstop.resolve_left (by omega)
  · exact h.except k hpos hk hki

theorem UpOrder.step (h : UpOrder a n i) (hi : i < n) (hpos : i ≠ 0)
    (hlt : a i < a ((i - 1) / 2)) : UpOrder (swap a i ((i - 1) / 2)) n ((i - 1) / 2) := by
  have hparent : (i - 1) / 2 < i := by omega
  have hup : (i - 1) / 2 ≠ 0 → a (((i - 1) / 2 - 1) / 2) ≤ a ((i - 1) / 2) :=
    fun hne => h.except _ (by omega) (by omega) (by omega)
  constructor
  · intro k hk hkn hkp
    unfold swap
    by_cases hki : k = i
    · subst hki
      simpa [hparent.ne, hparent.ne'] using hlt.le
    · by_cases hchild : (k - 1) / 2 = i
      · have hgrand := h.grand (by omega) k hk hkn hchild
        simpa [hki, hkp, hchild] using hgrand
      · by_cases hsibling : (k - 1) / 2 = (i - 1) / 2
        · have hother := h.except k hk hkn hki
          rw [hsibling] at hother
          simpa [hki, hkp, hsibling, hparent.ne] using hlt.le.trans hother
        · simpa [hki, hkp, hchild, hsibling] using h.except k hk hkn hki
  · intro hne k hk hkn hkp
    have htop : ((i - 1) / 2 - 1) / 2 ≠ i ∧ ((i - 1) / 2 - 1) / 2 ≠ (i - 1) / 2 := by omega
    unfold swap
    by_cases hki : k = i
    · simpa [hki, htop] using hup (by omega)
    · have hother := h.except k hk hkn hki
      rw [hkp] at hother
      have hself : k ≠ (i - 1) / 2 := by omega
      simpa [hki, hself, htop] using (hup (by omega)).trans hother

theorem DownOrder.finish (h : DownOrder a n i)
    (hleft : 2 * i + 1 < n → a i ≤ a (2 * i + 1)) (hright : 2 * i + 2 < n → a i ≤ a (2 * i + 2)) :
    Ordered a n := by
  intro k hpos hk
  by_cases hki : (k - 1) / 2 = i
  · obtain rfl | rfl : k = 2 * i + 1 ∨ k = 2 * i + 2 := by omega
    · rw [hki]
      exact hleft hk
    · rw [hki]
      exact hright hk
  · exact h.except k hpos hk hki

theorem DownOrder.step (h : DownOrder a n i) (hchild : (j - 1) / 2 = i) (hpos : 0 < j) (hj : j < n)
    (hlt : a j < a i) (hleast : ∀ k, 0 < k → k < n → (k - 1) / 2 = i → a j ≤ a k) :
    DownOrder (swap a i j) n j := by
  have hij : i < j := by omega
  constructor
  · intro k hk hkn hkj
    unfold swap
    by_cases hki : (k - 1) / 2 = i
    · have hself : k ≠ i := by omega
      by_cases hkj' : k = j
      · subst hkj'
        simpa [hki, hij.ne', hij.ne] using hlt.le
      · simpa [hki, hself, hkj'] using hleast k hk hkn hki
    · by_cases hself : k = i
      · subst hself
        simpa [hki, hkj] using h.grand (by omega) j hpos hj hchild
      · have hother : k ≠ j := by
          rintro rfl
          exact hki hchild
        simpa [hki, hkj, hself, hother] using h.except k hk hkn hki
  · intro _ k hk hkn hkj
    have hself : k ≠ i ∧ k ≠ j := by omega
    have hother := h.except k hk hkn (by omega)
    rw [hkj] at hother
    unfold swap
    simpa [hchild, hself] using hother

end Order

end BinaryHeap
