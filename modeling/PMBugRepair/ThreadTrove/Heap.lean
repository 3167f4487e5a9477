import PMBugRepair.Containers.BinaryHeap
import Mathlib.Algebra.Order.Ring.Int

/-!
# The heap

`heap.h` keeps a min-heap in an array of fixed capacity. An array is a function, since the slots
behind `size` hold whatever was there. The numbers of children are `int`s; `none` is the undefined
behaviour of an overflow.
-/

namespace PMBugRepair

open BinaryHeap (swap contents Ordered UpOrder DownOrder)

structure Heap where
  array : Nat → Int
  capacity : Nat
  size : Nat

/-- What `pmalloc` returns is not filled. -/
def createHeap (array : Nat → Int) (capacity : Nat) : Heap :=
  { array := array, capacity := capacity, size := 0 }

/-- The loop of `insertHeap`. -/
def siftUp (array : Nat → Int) (i : Nat) : Nat → Int :=
  if _h : i ≠ 0 ∧ array ((i - 1) / 2) > array i then
    siftUp (swap array i ((i - 1) / 2)) ((i - 1) / 2)
  else array
termination_by i
decreasing_by omega

def insertHeap (heap : Heap) (value : Int) : Heap :=
  if heap.size = heap.capacity then heap
  else
    { heap with
      array := siftUp (Function.update heap.array heap.size value) heap.size
      size := heap.size + 1 }

/-- `smallest`, when both children have been looked at. -/
def smallest (array : Nat → Int) (size i : Nat) : Nat :=
  let best := if 2 * i + 1 < size ∧ array (2 * i + 1) < array i then 2 * i + 1 else i
  if 2 * i + 2 < size ∧ array (2 * i + 2) < array best then 2 * i + 2 else best

theorem smallest_cases (array : Nat → Int) (size i : Nat) :
    (smallest array size i = i ∧ (2 * i + 1 < size → array i ≤ array (2 * i + 1)) ∧
        (2 * i + 2 < size → array i ≤ array (2 * i + 2))) ∨
      ((smallest array size i = 2 * i + 1 ∨ smallest array size i = 2 * i + 2) ∧
        smallest array size i < size ∧ array (smallest array size i) < array i ∧
        (2 * i + 1 < size → array (smallest array size i) ≤ array (2 * i + 1)) ∧
        (2 * i + 2 < size → array (smallest array size i) ≤ array (2 * i + 2))) := by
  unfold smallest
  by_cases hleft : 2 * i + 1 < size ∧ array (2 * i + 1) < array i
  · by_cases hright : 2 * i + 2 < size ∧ array (2 * i + 2) < array (2 * i + 1)
    · simp only [if_pos hleft, if_pos hright]
      refine .inr ⟨.inr trivial, hright.1, hright.2.trans hleft.2, fun _ => hright.2.le,
        fun _ => le_rfl⟩
    · simp only [if_pos hleft, if_neg hright]
      refine .inr ⟨.inl trivial, hleft.1, hleft.2, fun _ => le_rfl, fun hsize => ?_⟩
      exact not_lt.mp fun hlt => hright ⟨hsize, hlt⟩
  · by_cases hright : 2 * i + 2 < size ∧ array (2 * i + 2) < array i
    · simp only [if_neg hleft, if_pos hright]
      refine .inr ⟨.inr trivial, hright.1, hright.2, fun hsize => ?_, fun _ => le_rfl⟩
      exact hright.2.le.trans (not_lt.mp fun hlt => hleft ⟨hsize, hlt⟩)
    · simp only [if_neg hleft, if_neg hright]
      refine .inl ⟨trivial, fun hsize => ?_, fun hsize => ?_⟩
      · exact not_lt.mp fun hlt => hleft ⟨hsize, hlt⟩
      · exact not_lt.mp fun hlt => hright ⟨hsize, hlt⟩

theorem smallest_decreases {array : Nat → Int} {size i : Nat} (h : smallest array size i ≠ i) :
    size - smallest array size i < size - i := by
  rcases smallest_cases array size i with ⟨heq, -⟩ | ⟨hchild, hsize, -⟩
  · exact absurd heq h
  · omega

/-- `left` and `right` have to be `int`s. -/
def heapify (array : Nat → Int) (size i : Nat) : Option (Nat → Int) :=
  if 2 * i + 2 < 2 ^ 31 then
    if _h : smallest array size i ≠ i then
      heapify (swap array i (smallest array size i)) size (smallest array size i)
    else some array
  else none
termination_by size - i
decreasing_by exact smallest_decreases _h

/-- The value and the heap that is left. -/
def extractMin (heap : Heap) : Option (Int × Heap) :=
  if heap.size = 0 then some (-1, heap)
  else if heap.size = 1 then some (heap.array 0, { heap with size := 0 })
  else do
    let root := heap.array 0
    let array := Function.update heap.array 0 (heap.array (heap.size - 1))
    let array ← heapify array (heap.size - 1) 0
    return (root, { heap with array := array, size := heap.size - 1 })

/-! ### The loops -/

section Loops

variable {array : Nat → Int} {size i : Nat}

theorem siftUp_spec (h : UpOrder array size i) (hi : i < size) :
    Ordered (siftUp array i) size ∧ contents (siftUp array i) size = contents array size := by
  induction array, i using siftUp.induct with
  | case1 array i hloop ih =>
      rw [siftUp, dif_pos hloop]
      obtain ⟨hordered, hcontents⟩ := ih (h.step hi hloop.1 hloop.2) (by omega)
      refine ⟨hordered, hcontents.trans (BinaryHeap.contents_swap hi (by omega))⟩
  | case2 array i hstop =>
      rw [siftUp, dif_neg hstop]
      refine ⟨h.finish ?_, rfl⟩
      by_cases hzero : i = 0
      · exact .inl hzero
      · exact .inr (not_lt.mp fun hlt => hstop ⟨hzero, hlt⟩)

/-- What `heapify` returns is a heap of the same values. -/
theorem heapify_sound (h : DownOrder array size i) (hi : i < size) {array' : Nat → Int}
    (hrun : heapify array size i = some array') :
    Ordered array' size ∧ contents array' size = contents array size := by
  induction array, i using heapify.induct size with
  | case1 array i hint hloop ih =>
      rw [heapify, if_pos hint, dif_pos hloop] at hrun
      rcases smallest_cases array size i with ⟨heq, -⟩ | ⟨hchild, hlt, hless, hleft, hright⟩
      · exact absurd heq hloop
      · have hleast : ∀ k, 0 < k → k < size → (k - 1) / 2 = i →
            array (smallest array size i) ≤ array k := by
          intro k hk hkn hki
          obtain rfl | rfl : k = 2 * i + 1 ∨ k = 2 * i + 2 := by omega
          · exact hleft hkn
          · exact hright hkn
        obtain ⟨hordered, hcontents⟩ :=
          ih (h.step (by omega) (by omega) hlt hless hleast) hlt hrun
        exact ⟨hordered, hcontents.trans (BinaryHeap.contents_swap hi hlt)⟩
  | case2 array i hint hstop =>
      rw [heapify, if_pos hint, dif_neg hstop] at hrun
      obtain rfl := Option.some.inj hrun
      rcases smallest_cases array size i with ⟨-, hleft, hright⟩ | ⟨hchild, -⟩
      · exact ⟨h.finish hleft hright, rfl⟩
      · exact absurd (by omega) hstop
  | case3 array i hint =>
      rw [heapify, if_neg hint] at hrun
      cases hrun

theorem exists_heapify (array : Nat → Int) (hi : i < size) (hsize : size < 2 ^ 30) :
    ∃ array', heapify array size i = some array' := by
  induction array, i using heapify.induct size with
  | case1 array i hint hloop ih =>
      rw [heapify, if_pos hint, dif_pos hloop]
      apply ih
      rcases smallest_cases array size i with ⟨heq, -⟩ | ⟨-, hlt, -⟩
      · exact absurd heq hloop
      · exact hlt
  | case2 array i hint hstop => exact ⟨array, by rw [heapify, if_pos hint, dif_neg hstop]⟩
  | case3 array i hint => omega

end Loops

/-! ### One call -/

/-- The values in a heap. -/
def Heap.values (heap : Heap) : Multiset Int := contents heap.array heap.size

/-- The order of the array, within the capacity. -/
structure Heap.Valid (heap : Heap) : Prop where
  ordered : Ordered heap.array heap.size
  bounded : heap.size ≤ heap.capacity

section Call

variable {heap : Heap}

theorem Heap.card_values (heap : Heap) : heap.values.card = heap.size :=
  BinaryHeap.card_contents heap.array heap.size

theorem insertHeap_full (hfull : heap.size = heap.capacity) (value : Int) :
    insertHeap heap value = heap := if_pos hfull

theorem insertHeap_spec (h : heap.Valid) (hroom : heap.size ≠ heap.capacity) (value : Int) :
    (insertHeap heap value).Valid ∧ (insertHeap heap value).values = value ::ₘ heap.values ∧
      (insertHeap heap value).capacity = heap.capacity := by
  have hold : ∀ k < heap.size, Function.update heap.array heap.size value k = heap.array k :=
    fun k hk => Function.update_of_ne hk.ne _ _
  have hup : UpOrder (Function.update heap.array heap.size value) (heap.size + 1) heap.size := by
    constructor
    · intro k hpos hk hne
      rw [hold k (by omega), hold _ (by omega)]
      exact h.ordered k hpos (by omega)
    · intro _ k hpos hk hparent
      omega
  obtain ⟨hordered, hcontents⟩ := siftUp_spec hup (Nat.lt_succ_self _)
  rw [insertHeap, if_neg hroom]
  refine ⟨⟨hordered, by have := h.bounded; simp only; omega⟩, ?_, rfl⟩
  rw [Heap.values, hcontents, BinaryHeap.contents_succ, Function.update_self,
    BinaryHeap.contents_congr hold]
  rfl

theorem Heap.Valid.root_least (h : heap.Valid) (hne : heap.size ≠ 0) :
    heap.array 0 ∈ heap.values ∧ ∀ value ∈ heap.values, heap.array 0 ≤ value := by
  refine ⟨BinaryHeap.mem_contents.mpr ⟨0, by omega, rfl⟩, ?_⟩
  intro value hvalue
  obtain ⟨k, hk, rfl⟩ := BinaryHeap.mem_contents.mp hvalue
  exact h.ordered.root_le hk

/-- The values without the root are those of the array that `heapify` gets. -/
theorem contents_take_root (hsize : 2 ≤ heap.size) :
    heap.values = heap.array 0 ::ₘ
      contents (Function.update heap.array 0 (heap.array (heap.size - 1))) (heap.size - 1) := by
  have hswap : heap.values = contents (swap heap.array 0 (heap.size - 1)) heap.size :=
    (BinaryHeap.contents_swap (by omega) (by omega)).symm
  obtain ⟨n, hn⟩ : ∃ n, heap.size = n + 1 := ⟨heap.size - 1, by omega⟩
  rw [hswap, hn, BinaryHeap.contents_succ, Nat.add_sub_cancel]
  have hlast : swap heap.array 0 n n = heap.array 0 := by
    have hne : n ≠ 0 := by omega
    simp [swap, hne]
  rw [hlast]
  congr 1
  apply BinaryHeap.contents_congr
  intro k hk
  by_cases hzero : k = 0
  · simp [swap, hzero]
  · simp [swap, hzero, hk.ne]

theorem extractMin_empty (hempty : heap.size = 0) : extractMin heap = some (-1, heap) :=
  if_pos hempty

/-- A call on a heap with a value takes the root out. -/
theorem extractMin_sound (h : heap.Valid) (hne : heap.size ≠ 0) {value : Int} {heap' : Heap}
    (hrun : extractMin heap = some (value, heap')) :
    value = heap.array 0 ∧ heap'.Valid ∧ heap.values = value ::ₘ heap'.values ∧
      heap'.capacity = heap.capacity := by
  rw [extractMin, if_neg hne] at hrun
  by_cases hone : heap.size = 1
  · rw [if_pos hone] at hrun
    cases hrun
    refine ⟨rfl, ⟨fun k _ hk => absurd hk (Nat.not_lt_zero k), Nat.zero_le _⟩, ?_, rfl⟩
    rw [Heap.values, hone, BinaryHeap.contents_succ]
    rfl
  · rw [if_neg hone] at hrun
    obtain ⟨array, hheapify, hrun⟩ := Option.bind_eq_some_iff.mp hrun
    cases hrun
    have hdown : DownOrder (Function.update heap.array 0 (heap.array (heap.size - 1)))
        (heap.size - 1) 0 := by
      constructor
      · intro k hpos hk hparent
        rw [Function.update_of_ne hparent, Function.update_of_ne (by omega)]
        exact h.ordered k hpos (by omega)
      · intro hpos
        cases hpos
    obtain ⟨hordered, hcontents⟩ := heapify_sound hdown (by omega) hheapify
    refine ⟨rfl, ⟨hordered, (Nat.sub_le _ _).trans h.bounded⟩, ?_, rfl⟩
    rw [contents_take_root (by omega), Heap.values, hcontents]

theorem exists_extractMin (hsize : heap.size ≤ 2 ^ 30) : ∃ out, extractMin heap = some out := by
  unfold extractMin
  split_ifs with hempty hone
  · exact ⟨_, rfl⟩
  · exact ⟨_, rfl⟩
  · obtain ⟨array, hrun⟩ := exists_heapify
      (Function.update heap.array 0 (heap.array (heap.size - 1)))
      (show 0 < heap.size - 1 by omega) (by omega)
    exact ⟨(heap.array 0, { heap with array := array, size := heap.size - 1 }), by simp [hrun]⟩

end Call

/-! ### Runs -/

inductive HeapCall where
  | insert (value : Int)
  | extract
  deriving DecidableEq, Repr

/-- The calls one after the other, with what the calls of `extractMin` return. -/
def runHeap : Heap → List HeapCall → Option (List Int × Heap)
  | heap, [] => some ([], heap)
  | heap, .insert value :: calls => runHeap (insertHeap heap value) calls
  | heap, .extract :: calls => do
      let (value, heap) ← extractMin heap
      let (values, heap) ← runHeap heap calls
      return (value :: values, heap)

/-- The same calls on a bag of values that holds at most `capacity` of them. -/
inductive MinQueue (capacity : Nat) :
    Multiset Int → List HeapCall → List Int → Multiset Int → Prop where
  | nil (bag : Multiset Int) : MinQueue capacity bag [] [] bag
  | insert {bag bag' : Multiset Int} {value : Int} {calls : List HeapCall} {values : List Int}
      (hroom : bag.card < capacity) (hrest : MinQueue capacity (value ::ₘ bag) calls values bag') :
      MinQueue capacity bag (.insert value :: calls) values bag'
  | full {bag bag' : Multiset Int} {value : Int} {calls : List HeapCall} {values : List Int}
      (hfull : bag.card = capacity) (hrest : MinQueue capacity bag calls values bag') :
      MinQueue capacity bag (.insert value :: calls) values bag'
  | empty {bag' : Multiset Int} {calls : List HeapCall} {values : List Int}
      (hrest : MinQueue capacity 0 calls values bag') :
      MinQueue capacity 0 (.extract :: calls) (-1 :: values) bag'
  | extract {bag bag' : Multiset Int} {least : Int} {calls : List HeapCall} {values : List Int}
      (hleast : ∀ value ∈ least ::ₘ bag, least ≤ value)
      (hrest : MinQueue capacity bag calls values bag') :
      MinQueue capacity (least ::ₘ bag) (.extract :: calls) (least :: values) bag'

/-- A heap that is not too large runs like the bag of its values. -/
theorem runHeap_spec {heap : Heap} (h : heap.Valid) (hcapacity : heap.capacity ≤ 2 ^ 30)
    (calls : List HeapCall) :
    ∃ values heap', runHeap heap calls = some (values, heap') ∧ heap'.Valid ∧
      MinQueue heap.capacity heap.values calls values heap'.values := by
  induction calls generalizing heap with
  | nil => exact ⟨[], heap, rfl, h, .nil _⟩
  | cons call calls ih =>
      have hsize := h.bounded
      cases call with
      | insert value =>
          by_cases hfull : heap.size = heap.capacity
          · obtain ⟨values, heap', hrun, hvalid, hqueue⟩ := ih h hcapacity
            refine ⟨values, heap', ?_, hvalid, .full ?_ hqueue⟩
            · rw [runHeap, insertHeap_full hfull, hrun]
            · rw [heap.card_values, hfull]
          · obtain ⟨hnext, hvalues, hsame⟩ := insertHeap_spec h hfull value
            obtain ⟨values, heap', hrun, hvalid, hqueue⟩ := ih hnext (hsame ▸ hcapacity)
            rw [hvalues, hsame] at hqueue
            refine ⟨values, heap', hrun, hvalid, .insert ?_ hqueue⟩
            rw [heap.card_values]
            omega
      | extract =>
          by_cases hempty : heap.size = 0
          · obtain ⟨values, heap', hrun, hvalid, hqueue⟩ := ih h hcapacity
            have hzero : heap.values = 0 :=
              Multiset.card_eq_zero.mp (heap.card_values.trans hempty)
            refine ⟨-1 :: values, heap', ?_, hvalid, ?_⟩
            · simp [runHeap, extractMin_empty hempty, hrun]
            · rw [hzero] at hqueue ⊢
              exact .empty hqueue
          · obtain ⟨⟨least, rest⟩, hextract⟩ := exists_extractMin (hsize.trans hcapacity)
            obtain ⟨rfl, hnext, hvalues, hsame⟩ := extractMin_sound h hempty hextract
            obtain ⟨values, heap', hrun, hvalid, hqueue⟩ := ih hnext (hsame ▸ hcapacity)
            have hleast := (h.root_least hempty).2
            rw [hsame] at hqueue
            rw [hvalues] at hleast ⊢
            exact ⟨_ :: values, heap', by simp [runHeap, hextract, hrun], hvalid,
              .extract hleast hqueue⟩

/-! ### Overflow -/

theorem runHeap_append (heap : Heap) (calls more : List HeapCall) :
    runHeap heap (calls ++ more) = (runHeap heap calls).bind fun out =>
      (runHeap out.2 more).map fun out' => (out.1 ++ out'.1, out'.2) := by
  induction calls generalizing heap with
  | nil => simp [runHeap]
  | cons call calls ih =>
      cases call with
      | insert value => exact ih _
      | extract =>
          simp only [List.cons_append, runHeap, ih, Option.bind_eq_bind, Option.bind_assoc]
          congr 1
          funext out
          cases runHeap out.2 calls with
          | none => rfl
          | some out' =>
              simp only [Option.bind_some, Option.pure_def]
              cases runHeap out'.2 more with
              | none => rfl
              | some out'' => rfl

/-- The calls that insert `0`, `1`, and so on. -/
def insertsUpTo (n : Nat) : List HeapCall := (List.range n).map fun k => .insert (k : Int)

/-- Values in increasing order are inserted without a swap. -/
theorem runHeap_insertsUpTo (array : Nat → Int) {capacity n : Nat} (hn : n ≤ capacity) :
    ∃ heap, runHeap (createHeap array capacity) (insertsUpTo n) = some ([], heap) ∧
      heap.capacity = capacity ∧ heap.size = n ∧ ∀ k < n, heap.array k = k := by
  induction n with
  | zero => exact ⟨createHeap array capacity, rfl, rfl, rfl, fun k hk => absurd hk (by omega)⟩
  | succ n ih =>
      obtain ⟨heap, hrun, hcapacity, hsize, harray⟩ := ih (by omega)
      have hstop : ¬(heap.size ≠ 0 ∧ Function.update heap.array heap.size (n : Int)
          ((heap.size - 1) / 2) > Function.update heap.array heap.size (n : Int) heap.size) := by
        rintro ⟨hne, hlt⟩
        rw [Function.update_self, Function.update_of_ne (by omega), harray _ (by omega)] at hlt
        omega
      refine ⟨insertHeap heap n, ?_, ?_⟩
      · have hcalls : insertsUpTo (n + 1) = insertsUpTo n ++ [.insert (n : Int)] := by
          simp [insertsUpTo, List.range_succ]
        rw [hcalls, runHeap_append, hrun]
        rfl
      · rw [insertHeap, if_neg (by omega), siftUp, dif_neg hstop]
        refine ⟨hcapacity, by simp only; omega, fun k hk => ?_⟩
        change Function.update heap.array heap.size (n : Int) k = k
        by_cases hlast : k = heap.size
        · rw [hlast, Function.update_self, hsize]
        · rw [Function.update_of_ne hlast]
          exact harray k (by omega)

/-- A value that belongs to the bottom goes down along the left edge, where the number of the right
child is too large for an `int`. -/
theorem heapify_overflow {d : Nat} (hd : d ≤ 30) {array : Nat → Int}
    (htop : array (2 ^ d - 1) = 2 ^ 30) (hrest : ∀ k, 2 ^ d ≤ k → k < 2 ^ 30 → array k = k) :
    heapify array (2 ^ 30) (2 ^ d - 1) = none := by
  induction hm : 30 - d generalizing d array with
  | zero =>
      obtain rfl : d = 30 := by omega
      rw [heapify, if_neg (by decide)]
  | succ m ih =>
      have hpow : 2 ^ (d + 1) ≤ 2 ^ 30 := Nat.pow_le_pow_right (by decide) (by omega)
      have hpos : 0 < 2 ^ d := Nat.two_pow_pos d
      rw [Nat.pow_succ] at hpow
      have hleft : array (2 * (2 ^ d - 1) + 1) = ((2 * (2 ^ d - 1) + 1 : Nat) : Int) :=
        hrest _ (by omega) (by omega)
      have hsmallest : smallest array (2 ^ 30) (2 ^ d - 1) = 2 * (2 ^ d - 1) + 1 := by
        have hless : 2 * (2 ^ d - 1) + 1 < 2 ^ 30 ∧
            array (2 * (2 ^ d - 1) + 1) < array (2 ^ d - 1) := by
          refine ⟨by omega, ?_⟩
          rw [hleft, htop]
          omega
        have hright : ¬(2 * (2 ^ d - 1) + 2 < 2 ^ 30 ∧
            array (2 * (2 ^ d - 1) + 2) < array (2 * (2 ^ d - 1) + 1)) := by
          rintro ⟨hlt, hless⟩
          rw [hleft, hrest _ (by omega) hlt] at hless
          omega
        simp only [smallest, if_pos hless, if_neg hright]
      have hnext : 2 * (2 ^ d - 1) + 1 = 2 ^ (d + 1) - 1 := by
        rw [Nat.pow_succ]
        omega
      rw [heapify, if_pos (by omega), dif_pos (by omega), hsmallest, hnext]
      apply ih (by omega) _ _ (by omega)
      · rw [← hnext]
        have hne : 2 * (2 ^ d - 1) + 1 ≠ 2 ^ d - 1 := by omega
        simpa [swap, hne] using htop
      · intro k hk hlt
        rw [← hnext]
        have hne : k ≠ 2 ^ d - 1 ∧ k ≠ 2 * (2 ^ d - 1) + 1 := by
          rw [Nat.pow_succ] at hk
          omega
        simpa [swap, hne] using hrest k (by rw [Nat.pow_succ] at hk; omega) hlt

theorem runHeap_overflow (array : Nat → Int) {capacity : Nat} (h : 2 ^ 30 < capacity) :
    runHeap (createHeap array capacity) (insertsUpTo (2 ^ 30 + 1) ++ [.extract]) = none := by
  obtain ⟨heap, hrun, -, hsize, harray⟩ := @runHeap_insertsUpTo array capacity (2 ^ 30 + 1) h
  have hroot : heapify (Function.update heap.array 0 (heap.array (heap.size - 1)))
      (heap.size - 1) 0 = none := by
    rw [hsize, Nat.add_sub_cancel]
    apply @heapify_overflow 0 (by decide)
    · rw [Nat.pow_zero, Nat.sub_self, Function.update_self, harray _ (Nat.lt_succ_self _)]
      rfl
    · intro k hk hlt
      rw [Function.update_of_ne (by omega)]
      exact harray k (by omega)
  have hextract : extractMin heap = none := by
    rw [extractMin, if_neg (by omega), if_neg (by omega)]
    simp [hroot]
  rw [runHeap_append, hrun]
  simp [runHeap, hextract]

/-- Every sequence of calls on a heap of this capacity acts like on a bag of values. -/
def IsMinQueue (capacity : Nat) : Prop :=
  ∀ array calls, ∃ values heap, runHeap (createHeap array capacity) calls = some (values, heap) ∧
    heap.Valid ∧ MinQueue capacity 0 calls values heap.values

/-- The heap is a min-priority queue exactly up to the capacity `2 ^ 30`. -/
theorem isMinQueue_iff (capacity : Nat) : IsMinQueue capacity ↔ capacity ≤ 2 ^ 30 := by
  constructor
  · intro h
    by_contra hlarge
    obtain ⟨values, heap, hrun, -⟩ := h (fun _ => 0) (insertsUpTo (2 ^ 30 + 1) ++ [.extract])
    rw [runHeap_overflow _ (by omega)] at hrun
    cases hrun
  · intro h array calls
    have hvalid : (createHeap array capacity).Valid := by
      constructor
      · intro k _ hk
        cases hk
      · exact Nat.zero_le _
    exact runHeap_spec hvalid h calls

/-- With one slot more, the heap can be filled so far that the number of a child overflows. -/
theorem not_isMinQueue_large : ¬IsMinQueue 1073741825 := by
  intro h
  obtain ⟨values, heap, hrun, -⟩ := h (fun _ => 0) (insertsUpTo (2 ^ 30 + 1) ++ [.extract])
  rw [runHeap_overflow _ (by decide)] at hrun
  cases hrun

end PMBugRepair
