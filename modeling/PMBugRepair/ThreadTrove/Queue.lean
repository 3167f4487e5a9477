import PMBugRepair.Memory.Chain
import PMBugRepair.Machine.Runs

/-!
# Threads on a queue

The test of `dequeue` and its critical section are two steps, and the test is made without the lock.
The node of `enqueue` is made before its critical section by the thread alone, so the two are one
step here.
-/

namespace PMBugRepair

open Memory (Store Chain Stores)
open Machine (Reaches)

structure QueueNode where
  data : Int
  next : Option Nat
  deriving DecidableEq, Repr

structure Queue where
  front : Option Nat
  rear : Option Nat
  deriving DecidableEq, Repr

def createNode (mem : Store QueueNode) (addr : Nat) (data : Int) : Store QueueNode :=
  mem.set addr { data := data, next := none }

def createQueue : Queue := { front := none, rear := none }

def isEmpty (queue : Queue) : Bool := queue.front = none

/-- Given the address of the new node. `none` is the use of a node that is not allocated. -/
def enqueue (mem : Store QueueNode) (queue : Queue) (addr : Nat) (data : Int) :
    Option (Store QueueNode × Queue) :=
  let mem := createNode mem addr data
  match queue.rear with
  | none => some (mem, { front := some addr, rear := some addr })
  | some rear => do
      let node ← mem.get rear
      return (mem.set rear { node with next := some addr }, { queue with rear := some addr })

/-- `dequeue` from its lock to its unlock. It follows `front` without looking at it again. -/
def dequeueSection (mem : Store QueueNode) (queue : Queue) :
    Option (Int × Store QueueNode × Queue) := do
  let temp ← queue.front
  let node ← mem.get temp
  let rear := if node.next = none then none else queue.rear
  return (node.data, mem.free temp, { front := node.next, rear := rear })

/-! ### The nodes of a queue -/

/-- The nodes from `front` to `rear`, and their values. -/
structure Queue.Holds (mem : Store QueueNode) (queue : Queue) (l : List Nat) (values : List Int) :
    Prop where
  chain : Chain mem.get QueueNode.next queue.front l
  rear : queue.rear = l.getLast?
  stores : Stores mem.get QueueNode.data l values

section Nodes

variable {mem : Store QueueNode} {queue : Queue} {l : List Nat} {values : List Int} {a : Nat}

theorem enqueue_spec (h : queue.Holds mem l values) (hfresh : mem.get a = none) (data : Int) :
    ∃ mem' queue', enqueue mem queue a data = some (mem', queue') ∧
      queue'.Holds mem' (l ++ [a]) (values ++ [data]) := by
  have hnotin : a ∉ l := fun hmem => h.chain.allocated a hmem hfresh
  have hnew : (createNode mem a data).get a = some ⟨data, none⟩ := Memory.Store.get_set_self ..
  have hold : ∀ c, c ≠ a → (createNode mem a data).get c = mem.get c :=
    fun c hc => Memory.Store.get_set_of_ne hc
  rcases List.eq_nil_or_concat l with rfl | ⟨before, last, hl⟩
  · obtain rfl := List.forall₂_nil_left_iff.mp h.stores
    refine ⟨createNode mem a data, ⟨some a, some a⟩, ?_, ⟨rfl, _, hnew, rfl⟩, rfl, ?_⟩
    · simp only [enqueue, h.rear, List.getLast?_nil]
    · exact .cons (by simp [hnew]) .nil
  · rw [List.concat_eq_append] at hl
    have hlast : last ∈ l := by simp [hl]
    have hne : last ≠ a := fun heq => hnotin (heq ▸ hlast)
    obtain ⟨node, hnode⟩ := Option.ne_none_iff_exists'.mp (h.chain.allocated last hlast)
    set mem' := (createNode mem a data).set last { node with next := some a } with hmem'
    have hgetnew : mem'.get a = some ⟨data, none⟩ := by
      rw [hmem', Memory.Store.get_set_of_ne hne.symm, hnew]
    have hgetlast : mem'.get last = some { node with next := some a } :=
      Memory.Store.get_set_self ..
    have hrest : ∀ c, c ≠ a → c ≠ last → mem'.get c = mem.get c := by
      intro c hca hcl
      rw [hmem', Memory.Store.get_set_of_ne hcl, hold c hca]
    refine ⟨mem', { queue with rear := some a }, ?_, ?_, by simp, ?_⟩
    · simp only [enqueue, h.rear, hl, List.getLast?_concat, hold last hne, hnode,
        Option.bind_eq_bind, Option.bind_some, Option.pure_def, ← hmem']
    · have hchain := h.chain
      have hnodup := h.chain.nodup
      rw [hl] at hchain hnotin hnodup ⊢
      refine hchain.concat hnotin ?_ hgetlast rfl hgetnew rfl
      intro c hc
      have hca : c ≠ a := fun heq => hnotin (heq ▸ List.mem_append_left _ hc)
      have hcl : c ≠ last := by
        rintro rfl
        exact (List.nodup_append.mp hnodup).2.2 c hc c List.mem_cons_self rfl
      rw [hrest c hca hcl]
    · refine List.rel_append ?_ (.cons (by simp [hgetnew]) .nil)
      apply Stores.frame h.stores
      intro c hc
      have hca : c ≠ a := fun heq => hnotin (heq ▸ hc)
      by_cases hcl : c = last
      · rw [hcl, hgetlast, hnode]
        rfl
      · rw [hrest c hca hcl]

theorem dequeueSection_spec {data : Int} (h : queue.Holds mem (a :: l) (data :: values)) :
    ∃ mem' queue', dequeueSection mem queue = some (data, mem', queue') ∧
      queue'.Holds mem' l values := by
  have hnotin := (List.nodup_cons.mp h.chain.nodup).1
  obtain ⟨hfront, node, hnode, hchain⟩ := h.chain
  obtain ⟨⟩ | ⟨hdata, hstores⟩ := h.stores
  rw [hnode, Option.map_some] at hdata
  obtain rfl := Option.some.inj hdata
  have hsame : ∀ c ∈ l, (mem.free a).get c = mem.get c := by
    intro c hc
    have hne : c ≠ a := fun heq => hnotin (heq ▸ hc)
    exact Memory.Store.get_free_of_ne hne
  refine ⟨mem.free a, ⟨node.next, if node.next = none then none else queue.rear⟩, ?_, ?_, ?_, ?_⟩
  · simp only [dequeueSection, hfront, hnode, Option.bind_eq_bind, Option.bind_some,
      Option.pure_def]
  · exact hchain.frame fun c hc => by rw [hsame c hc]
  · cases l with
    | nil => simp [hchain.eq_none_iff.mpr rfl]
    | cons b l =>
        have hnext : node.next ≠ none := fun hnone => by cases hchain.eq_none_iff.mp hnone
        simp [hnext, h.rear]
  · exact Stores.frame hstores fun c hc => by rw [hsame c hc]

end Nodes

/-! ### Threads -/

/-- The queue, the threads between the test and the lock of `dequeue`, and the values that were
enqueued and returned, in the order of the critical sections. -/
structure QueueThreads where
  mem : Store QueueNode := {}
  queue : Queue := createQueue
  waiting : List Nat := []
  enqueued : List Int := []
  returned : List Int := []
  crashed : Bool := false
  deriving DecidableEq, Repr

inductive QueueStep where
  | enqueue (thread addr : Nat) (data : Int)
  | test (thread : Nat)
  | dequeue (thread : Nat)
  deriving DecidableEq, Repr

namespace QueueThreads

/-- An action that is not possible has no next state: the thread is in another call, the address is
in use, or the program has crashed. -/
def step (state : QueueThreads) (action : QueueStep) : Option QueueThreads :=
  if state.crashed then none
  else match action with
  | .enqueue thread addr data =>
      if thread ∈ state.waiting ∨ state.mem.get addr ≠ none then none
      else match PMBugRepair.enqueue state.mem state.queue addr data with
      | none => some { state with crashed := true }
      | some (mem, queue) =>
          some { state with mem := mem, queue := queue, enqueued := state.enqueued ++ [data] }
  | .test thread =>
      if thread ∈ state.waiting then none
      else if isEmpty state.queue then some state
      else some { state with waiting := thread :: state.waiting }
  | .dequeue thread =>
      if thread ∉ state.waiting then none
      else match dequeueSection state.mem state.queue with
      | none => some { state with crashed := true }
      | some (data, mem, queue) =>
          some { state with
            mem := mem
            queue := queue
            waiting := state.waiting.filter (· ≠ thread)
            returned := state.returned ++ [data] }

/-- A thread that takes the last node is the only one past the test. -/
def TakesLastAlone (state : QueueThreads) : QueueStep → Prop
  | .dequeue thread =>
      state.queue.front = state.queue.rear → ∀ other ∈ state.waiting, other = thread
  | _ => True

instance (state : QueueThreads) (action : QueueStep) : Decidable (state.TakesLastAlone action) :=
  match action with
  | .enqueue .. => isTrue trivial
  | .test _ => isTrue trivial
  | .dequeue thread => inferInstanceAs (Decidable
      (state.queue.front = state.queue.rear → ∀ other ∈ state.waiting, other = thread))

/-- Every thread past the test finds a node when it gets the lock, and the values come out once each
in the order in which they came in. -/
structure Fifo (state : QueueThreads) : Prop where
  notCrashed : state.crashed = false
  found : ∀ thread ∈ state.waiting, state.queue.front ≠ none
  inOrder : state.returned <+: state.enqueued

/-! ### The invariant -/

/-- The queue holds what has not been returned, and something while a thread is past the test. -/
structure Inv (state : QueueThreads) (l : List Nat) (values : List Int) : Prop where
  notCrashed : state.crashed = false
  holds : state.queue.Holds state.mem l values
  kept : state.enqueued = state.returned ++ values
  found : state.waiting ≠ [] → l ≠ []

def Valid (state : QueueThreads) : Prop := ∃ l values, state.Inv l values

variable {state next : QueueThreads} {l : List Nat} {values : List Int}

theorem Inv.fifo (h : state.Inv l values) : state.Fifo where
  notCrashed := h.notCrashed
  found _ hthread hnone :=
    h.found (List.ne_nil_of_mem hthread) (h.holds.chain.eq_none_iff.mp hnone)
  inOrder := ⟨values, h.kept.symm⟩

theorem inv_start : Inv {} [] [] where
  notCrashed := rfl
  holds := ⟨rfl, rfl, .nil⟩
  kept := rfl
  found hne := hne

theorem Inv.enqueue (h : state.Inv l values) {thread addr : Nat} {data : Int}
    (hstep : state.step (.enqueue thread addr data) = some next) : next.Valid := by
  rw [step, if_neg (by simp [h.notCrashed])] at hstep
  split_ifs at hstep with himpossible
  have hfresh : state.mem.get addr = none := by
    by_contra hused
    exact himpossible (.inr hused)
  obtain ⟨mem, queue, henqueue, hholds⟩ := enqueue_spec h.holds hfresh data
  rw [henqueue] at hstep
  obtain rfl := Option.some.inj hstep
  refine ⟨l ++ [addr], values ++ [data], h.notCrashed, hholds, ?_, by simp⟩
  simp [h.kept]

theorem Inv.test (h : state.Inv l values) {thread : Nat}
    (hstep : state.step (.test thread) = some next) : next.Valid := by
  rw [step, if_neg (by simp [h.notCrashed])] at hstep
  split_ifs at hstep with hcalling hempty
  · obtain rfl := Option.some.inj hstep
    exact ⟨l, values, h⟩
  · obtain rfl := Option.some.inj hstep
    refine ⟨l, values, h.notCrashed, h.holds, h.kept, fun _ hnil => hempty ?_⟩
    simpa [isEmpty] using h.holds.chain.eq_none_iff.mpr hnil

/-- The thread finds a node; if it is the last one, no other thread is past the test. -/
theorem Inv.dequeue (h : state.Inv l values) {thread : Nat}
    (hallowed : state.TakesLastAlone (.dequeue thread))
    (hstep : state.step (.dequeue thread) = some next) : next.Valid := by
  rw [step, if_neg (by simp [h.notCrashed])] at hstep
  split_ifs at hstep with hthread
  have hne : l ≠ [] := h.found (List.ne_nil_of_mem hthread)
  obtain ⟨a, l, rfl⟩ := List.exists_cons_of_ne_nil hne
  obtain ⟨⟨data, rest⟩, hvalues⟩ : ∃ pair : Int × List Int, values = pair.1 :: pair.2 := by
    obtain ⟨⟩ | ⟨-, -⟩ := h.holds.stores
    exact ⟨(_, _), rfl⟩
  subst hvalues
  obtain ⟨mem, queue, hsection, hholds⟩ := dequeueSection_spec h.holds
  rw [hsection] at hstep
  obtain rfl := Option.some.inj hstep
  refine ⟨l, rest, h.notCrashed, hholds, by simp [h.kept], ?_⟩
  rintro hwaiting rfl
  have hsame : state.queue.front = state.queue.rear := h.holds.chain.1.trans h.holds.rear.symm
  apply hwaiting
  rw [List.filter_eq_nil_iff]
  intro other hother
  simpa using hallowed hsame other hother

theorem Valid.step (h : state.Valid) {action : QueueStep}
    (hallowed : state.TakesLastAlone action) (hstep : state.step action = some next) :
    next.Valid := by
  obtain ⟨l, values, hinv⟩ := h
  cases action with
  | enqueue thread addr data => exact hinv.enqueue hstep
  | test thread => exact hinv.test hstep
  | dequeue thread => exact hinv.dequeue hallowed hstep

end QueueThreads

/-- In every run in which the last node is taken out only while no other thread is past the test, no
`dequeue` runs on an empty queue. -/
theorem fifo_of_takesLastAlone {actions : List QueueStep} {state : QueueThreads}
    (h : Reaches QueueThreads.step QueueThreads.TakesLastAlone {} actions state) : state.Fifo := by
  have hvalid : state.Valid := by
    apply h.invariant
    · exact ⟨[], [], QueueThreads.inv_start⟩
    · intro state action next hvalid hallowed hstep
      exact hvalid.step hallowed hstep
  obtain ⟨l, values, hinv⟩ := hvalid
  exact hinv.fifo

/-- Two threads take two values out, the second one after the test of the first. -/
theorem fifo_of_takesLastAlone_two : ∃ state,
    Reaches QueueThreads.step QueueThreads.TakesLastAlone {}
      [.enqueue 1 0 5, .enqueue 2 1 6, .test 1, .test 2, .dequeue 2, .dequeue 1] state ∧
      state.returned = [5, 6] ∧ state.Fifo := by
  obtain ⟨state, hreach, hreturned⟩ : ∃ state,
      Reaches QueueThreads.step QueueThreads.TakesLastAlone {}
        [.enqueue 1 0 5, .enqueue 2 1 6, .test 1, .test 2, .dequeue 2, .dequeue 1] state ∧
        state.returned = [5, 6] :=
    ⟨{ enqueued := [5, 6], returned := [5, 6] }, Machine.reaches_of_foldlM (by decide), rfl⟩
  exact ⟨state, hreach, hreturned, fifo_of_takesLastAlone hreach⟩

/-- Both threads test the queue while it holds one value; the second one to get the lock follows a
null pointer. -/
theorem not_fifo_one_value :
    ¬∀ (actions : List QueueStep) (state : QueueThreads),
      Reaches QueueThreads.step (fun _ _ => True) {} actions state → state.Fifo := by
  intro h
  have hreach : Reaches QueueThreads.step (fun _ _ => True) {}
      [.enqueue 1 0 5, .test 1, .test 2, .dequeue 1, .dequeue 2]
      { waiting := [2], enqueued := [5], returned := [5], crashed := true } :=
    Machine.reaches_of_foldlM (by decide)
  exact absurd (h _ _ hreach).notCrashed (by decide)

end PMBugRepair
