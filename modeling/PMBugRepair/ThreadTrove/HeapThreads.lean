import PMBugRepair.ThreadTrove.Heap
import PMBugRepair.Machine.Runs
import Mathlib.Algebra.Order.Group.Multiset
import Mathlib.Tactic.Abel

/-!
# Threads on a heap

Every critical section is one step. When `extractMin` finds a single value, it reads `array[0]` in a
step of its own, after the lock is released.
-/

namespace PMBugRepair

open BinaryHeap (contents)
open Machine (Reaches)

/-- How the critical section of `extractMin` ends. -/
inductive Exit where
  | empty
  | last
  | root (value : Int)
  deriving DecidableEq, Repr

/-- The critical section of `extractMin`. -/
def extractSection (heap : Heap) : Option (Exit × Heap) :=
  if heap.size = 0 then some (.empty, heap)
  else if heap.size = 1 then some (.last, { heap with size := 0 })
  else do
    let root := heap.array 0
    let array := Function.update heap.array 0 (heap.array (heap.size - 1))
    let array ← heapify array (heap.size - 1) 0
    return (.root root, { heap with array := array, size := heap.size - 1 })

/-- What is returned behind the critical section. -/
def Exit.value (heap : Heap) : Exit → Int
  | .empty => -1
  | .last => heap.array 0
  | .root value => value

theorem extractMin_eq (heap : Heap) :
    extractMin heap = (extractSection heap).map fun out => (out.1.value out.2, out.2) := by
  unfold extractMin extractSection
  split_ifs with hempty hone
  · rfl
  · rfl
  · dsimp only
    cases heapify (Function.update heap.array 0 (heap.array (heap.size - 1))) (heap.size - 1) 0
    · rfl
    · rfl

/-- The heap, the threads that have not read `array[0]` yet with the values they removed, the values
that were stored, and the removed and returned values of the calls that are over. -/
structure HeapThreads where
  heap : Heap
  reading : List (Nat × Int) := []
  stored : Multiset Int := 0
  finished : List (Int × Int) := []

inductive HeapStep where
  | insert (thread : Nat) (value : Int)
  | extract (thread : Nat)
  | read (thread : Nat)
  deriving DecidableEq, Repr

namespace HeapThreads

/-- The thread is not in a call. -/
def Idle (state : HeapThreads) (thread : Nat) : Prop := ∀ entry ∈ state.reading, entry.1 ≠ thread

instance (state : HeapThreads) (thread : Nat) : Decidable (state.Idle thread) :=
  inferInstanceAs (Decidable (∀ _ ∈ _, _))

def step (state : HeapThreads) : HeapStep → Option HeapThreads
  | .insert thread value =>
      if state.Idle thread then
        some { state with
          heap := insertHeap state.heap value
          stored := if state.heap.size = state.heap.capacity then state.stored
            else value ::ₘ state.stored }
      else none
  | .extract thread =>
      if state.Idle thread then do
        let (exit, heap) ← extractSection state.heap
        match exit with
        | .empty => return { state with heap := heap }
        | .last =>
            return { state with
              heap := heap
              reading := (thread, state.heap.array 0) :: state.reading }
        | .root value =>
            return { state with
              heap := heap
              finished := state.finished ++ [(state.heap.array 0, value)] }
      else none
  | .read thread => do
      let removed ← state.reading.lookup thread
      return { state with
        reading := state.reading.filter (·.1 ≠ thread)
        finished := state.finished ++ [(removed, state.heap.array 0)] }

def start (array : Nat → Int) (capacity : Nat) : HeapThreads :=
  { heap := createHeap array capacity }

/-- No value is stored while a thread has yet to read `array[0]`. -/
def Undisturbed (state : HeapThreads) : HeapStep → Prop
  | .insert _ _ => state.heap.size = state.heap.capacity ∨ state.reading = []
  | _ => True

instance (state : HeapThreads) (action : HeapStep) : Decidable (state.Undisturbed action) :=
  match action with
  | .insert _ _ => inferInstanceAs (Decidable (_ ∨ _))
  | .extract _ => inferInstanceAs (Decidable True)
  | .read _ => inferInstanceAs (Decidable True)

/-- Every call returned what it removed, and every value that was stored is in the heap, or on its
way out, or has been returned, and only once. -/
def HandsOut (state : HeapThreads) : Prop :=
  (∀ call ∈ state.finished, call.2 = call.1) ∧
    state.heap.values + (state.reading.map Prod.snd : Multiset Int) +
      (state.finished.map Prod.snd : Multiset Int) = state.stored

/-! ### Steps -/

structure Inv (state : HeapThreads) : Prop where
  valid : state.heap.Valid
  reading : state.reading = [] ∨
    state.heap.size = 0 ∧ ∃ thread, state.reading = [(thread, state.heap.array 0)]
  handsOut : state.HandsOut

theorem inv_start (array : Nat → Int) (capacity : Nat) : (start array capacity).Inv := by
  refine ⟨⟨fun k _ hk => absurd hk (Nat.not_lt_zero k), Nat.zero_le _⟩, .inl rfl, ?_, ?_⟩
  · intro call hcall
    cases hcall
  · simp [start, createHeap, Heap.values, contents]

variable {state next : HeapThreads}

theorem Inv.insert (h : state.Inv) {thread : Nat} {value : Int}
    (hallowed : state.Undisturbed (.insert thread value))
    (hstep : state.step (.insert thread value) = some next) : next.Inv := by
  simp only [step] at hstep
  split_ifs at hstep
  · -- the heap is full
    rename_i hfull
    rw [insertHeap_full hfull] at hstep
    obtain rfl := Option.some.inj hstep
    exact h
  · rename_i hroom
    obtain rfl := Option.some.inj hstep
    obtain ⟨hvalid, hvalues, -⟩ := insertHeap_spec h.valid hroom value
    have hnone : state.reading = [] := hallowed.resolve_left hroom
    refine ⟨hvalid, .inl hnone, h.handsOut.1, ?_⟩
    rw [← h.handsOut.2]
    simp [hvalues]

theorem Inv.extract (h : state.Inv) {thread : Nat}
    (hstep : state.step (.extract thread) = some next) : next.Inv := by
  simp only [step] at hstep
  split_ifs at hstep
  obtain ⟨⟨exit, heap⟩, hsection, hstep⟩ := Option.bind_eq_some_iff.mp hstep
  have hrun : extractMin state.heap = some (exit.value heap, heap) := by
    rw [extractMin_eq, hsection]
    rfl
  by_cases hempty : state.heap.size = 0
  · rw [extractSection, if_pos hempty] at hsection
    cases hsection
    obtain rfl := Option.some.inj hstep
    exact h
  · have hnone : state.reading = [] := h.reading.resolve_right fun hreading => hempty hreading.1
    obtain ⟨hvalue, hvalid, hvalues, -⟩ := extractMin_sound h.valid hempty hrun
    have hstored := h.handsOut.2
    rw [hvalues, hnone] at hstored
    rw [extractSection, if_neg hempty] at hsection
    split_ifs at hsection
    · cases hsection
      obtain rfl := Option.some.inj hstep
      refine ⟨hvalid, .inr ⟨rfl, thread, by simp [hnone]⟩, h.handsOut.1, ?_⟩
      rw [← hstored, hnone]
      simp only [Exit.value, List.map_cons, List.map_nil, ← Multiset.cons_coe, Multiset.coe_nil,
        ← Multiset.singleton_add]
      abel
    · obtain ⟨array, hheapify, hsection⟩ := Option.bind_eq_some_iff.mp hsection
      cases hsection
      obtain rfl := Option.some.inj hstep
      refine ⟨hvalid, .inl hnone, ?_, ?_⟩
      · intro call hcall
        rcases List.mem_append.mp hcall with hcall | hcall
        · exact h.handsOut.1 call hcall
        · rw [List.mem_singleton.mp hcall]
      · rw [← hstored, hnone]
        simp only [Exit.value, List.map_append, List.map_cons, List.map_nil, ← Multiset.coe_add,
          ← Multiset.cons_coe, Multiset.coe_nil, ← Multiset.singleton_add]
        abel

theorem Inv.read (h : state.Inv) {thread : Nat}
    (hstep : state.step (.read thread) = some next) : next.Inv := by
  obtain ⟨removed, hlookup, hstep⟩ := Option.bind_eq_some_iff.mp hstep
  obtain rfl := Option.some.inj hstep
  rcases h.reading with hnone | ⟨hempty, reader, hone⟩
  · rw [hnone] at hlookup
    cases hlookup
  · have hreader : thread = reader ∧ removed = state.heap.array 0 := by
      rw [hone, List.lookup_cons] at hlookup
      by_cases heq : thread = reader
      · rw [heq, beq_self_eq_true] at hlookup
        exact ⟨heq, (Option.some.inj hlookup).symm⟩
      · rw [beq_eq_false_iff_ne.mpr heq] at hlookup
        cases hlookup
    obtain ⟨rfl, rfl⟩ := hreader
    have hgone : state.reading.filter (·.1 ≠ thread) = [] := by simp [hone]
    refine ⟨h.valid, .inl hgone, ?_, ?_⟩
    · intro call hcall
      rcases List.mem_append.mp hcall with hcall | hcall
      · exact h.handsOut.1 call hcall
      · rw [List.mem_singleton.mp hcall]
    · rw [← h.handsOut.2, hgone, hone]
      simp only [List.map_append, List.map_cons, List.map_nil, ← Multiset.coe_add,
        ← Multiset.cons_coe, Multiset.coe_nil, ← Multiset.singleton_add]
      abel

theorem Inv.step (h : state.Inv) {action : HeapStep} (hallowed : state.Undisturbed action)
    (hstep : state.step action = some next) : next.Inv := by
  cases action with
  | insert thread value => exact h.insert hallowed hstep
  | extract thread => exact h.extract hstep
  | read thread => exact h.read hstep

end HeapThreads

/-- In every run in which no value is stored while a thread has yet to read `array[0]`, every
`extractMin` hands out what it removed. -/
theorem handsOut_of_undisturbed {array : Nat → Int} {capacity : Nat} {actions : List HeapStep}
    {state : HeapThreads}
    (h : Reaches HeapThreads.step HeapThreads.Undisturbed (.start array capacity) actions state) :
    state.HandsOut :=
  (h.invariant (HeapThreads.inv_start array capacity)
    fun _ _ _ hinv hallowed hstep => hinv.step hallowed hstep).handsOut

theorem siftUp_zero (array : Nat → Int) : siftUp array 0 = array := by
  rw [siftUp, dif_neg (by simp)]

/-- Thread 2 takes the value 5 out, thread 1 finds the heap empty before thread 2 has read its
value, and only then stores 7 and takes it out again. -/
theorem handsOut_of_undisturbed_twoThreads : ∃ state,
    Reaches HeapThreads.step HeapThreads.Undisturbed (.start (fun _ => 0) 4)
      [.insert 1 5, .extract 2, .extract 1, .read 2, .insert 1 7, .extract 1, .read 1] state ∧
      state.finished = [(5, 5), (7, 7)] ∧ state.HandsOut := by
  obtain ⟨state, hreach, hfinished⟩ : ∃ state,
      Reaches HeapThreads.step HeapThreads.Undisturbed (.start (fun _ => 0) 4)
        [.insert 1 5, .extract 2, .extract 1, .read 2, .insert 1 7, .extract 1, .read 1] state ∧
        state.finished = [(5, 5), (7, 7)] := by
    refine ⟨⟨⟨Function.update (Function.update (fun _ => 0) 0 5) 0 7, 4, 0⟩, [], 7 ::ₘ 5 ::ₘ 0,
      [(5, 5), (7, 7)]⟩, Machine.reaches_of_foldlM ?_, rfl⟩
    simp [List.foldlM, HeapThreads.step, HeapThreads.start, HeapThreads.Undisturbed,
      HeapThreads.Idle, insertHeap, createHeap, siftUp_zero, extractSection]
  exact ⟨state, hreach, hfinished, handsOut_of_undisturbed hreach⟩

/-- Thread 1 takes the value 5 out, thread 2 stores 7 in its place, and thread 1 returns 7. -/
theorem not_handsOut_overwritten :
    ¬∀ (array : Nat → Int) (capacity : Nat) (actions : List HeapStep) (state : HeapThreads),
      Reaches HeapThreads.step (fun _ _ => True) (.start array capacity) actions state →
        state.HandsOut := by
  intro h
  have hrun : ∃ state, Reaches HeapThreads.step (fun _ _ => True) (.start (fun _ => 0) 4)
      [.insert 1 5, .extract 1, .insert 2 7, .read 1] state ∧ state.finished = [(5, 7)] := by
    refine ⟨⟨⟨Function.update (Function.update (fun _ => 0) 0 5) 0 7, 4, 1⟩, [], 7 ::ₘ 5 ::ₘ 0,
      [(5, 7)]⟩, Machine.reaches_of_foldlM ?_, rfl⟩
    simp [List.foldlM, HeapThreads.step, HeapThreads.start, HeapThreads.Idle, insertHeap,
      createHeap, siftUp_zero, extractSection]
  obtain ⟨state, hreach, hfinished⟩ := hrun
  have hvalue := (h _ _ _ _ hreach).1 (5, 7) (by simp [hfinished])
  exact absurd hvalue (by decide)

end PMBugRepair
