import PMBugRepair.Memory.Chain

/-!
# The double-ended queue and the doubly linked list

`dqueue.h` and `doublyList.h` keep the same structure: nodes with two links and pointers to both
ends. What is done at the rear is what is done at the front with `next` and `prev` exchanged, so the
functions take the end they work at. `none` is the use of a null pointer or of a freed node.
-/

namespace PMBugRepair

open Memory (Store Chain Stores)

structure DequeNode where
  data : Int
  next : Option Nat
  prev : Option Nat
  deriving DecidableEq, Repr

/-- `front` and `rear` are the `head` and the `tail` of a doubly linked list. -/
structure Deque where
  front : Option Nat
  rear : Option Nat
  deriving DecidableEq, Repr

inductive Side where
  | front
  | rear
  deriving DecidableEq, Repr

def Side.opposite : Side → Side
  | .front => .rear
  | .rear => .front

/-- The link that leads away from this end. -/
def DequeNode.link (side : Side) (node : DequeNode) : Option Nat :=
  match side with
  | .front => node.next
  | .rear => node.prev

def DequeNode.setLink (side : Side) (node : DequeNode) (p : Option Nat) : DequeNode :=
  match side with
  | .front => { node with next := p }
  | .rear => { node with prev := p }

def Deque.tip (side : Side) (deque : Deque) : Option Nat :=
  match side with
  | .front => deque.front
  | .rear => deque.rear

def Deque.setTip (side : Side) (deque : Deque) (p : Option Nat) : Deque :=
  match side with
  | .front => { deque with front := p }
  | .rear => { deque with rear := p }

/-! ### The functions -/

def newNode (mem : Store DequeNode) (addr : Nat) (data : Int) : Store DequeNode :=
  mem.set addr { data := data, next := none, prev := none }

/-- `p->next = q` or `p->prev = q`. -/
def writeLink (side : Side) (mem : Store DequeNode) (p q : Option Nat) :
    Option (Store DequeNode) := do
  let addr ← p
  let node ← mem.get addr
  return mem.set addr (node.setLink side q)

def dequeInit : Deque := { front := none, rear := none }

/-- `deque_push_front` and `deque_push_back`, given the address of the new node. -/
def dequePush (side : Side) (mem : Store DequeNode) (deque : Deque) (addr : Nat) (data : Int) :
    Option (Store DequeNode × Deque) := do
  let mem := newNode mem addr data
  if deque.tip side = none then return (mem, { front := some addr, rear := some addr })
  else
    let mem ← writeLink side mem (some addr) (deque.tip side)
    let mem ← writeLink side.opposite mem (deque.tip side) (some addr)
    return (mem, deque.setTip side (some addr))

/-- `deque_pop_front` and `deque_pop_back`, `dll_remove_start` and `dll_remove_end`. -/
def dequePop (side : Side) (mem : Store DequeNode) (deque : Deque) :
    Option (Int × Store DequeNode × Deque) :=
  match deque.tip side with
  | none => some (-1, mem, deque)
  | some temp => do
      let node ← mem.get temp
      let deque := deque.setTip side (node.link side)
      if node.link side = none then
        return (node.data, mem.free temp, deque.setTip side.opposite none)
      else
        let mem ← writeLink side.opposite mem (node.link side) none
        return (node.data, mem.free temp, deque)

/-- The loop of `deque_clear` and `dll_clear`. -/
def clearFrom (mem : Store DequeNode) (current : Option Nat) : Option (Store DequeNode) :=
  match current with
  | none => some mem
  | some temp =>
      match _h : mem.get temp with
      | none => none
      | some node => clearFrom (mem.free temp) node.next
termination_by mem.cells.length
decreasing_by exact Memory.Store.length_free _h

def dequeClear (mem : Store DequeNode) (deque : Deque) : Option (Store DequeNode × Deque) := do
  let mem ← clearFrom mem deque.front
  return (mem, { front := none, rear := none })

/-- `dll_insert_start` and `dll_insert_end`: the two links are written in the other order. -/
def dllInsert (side : Side) (mem : Store DequeNode) (list : Deque) (addr : Nat) (data : Int) :
    Option (Store DequeNode × Deque) := do
  let mem := newNode mem addr data
  if list.tip side = none then return (mem, { front := some addr, rear := some addr })
  else
    let mem ← writeLink side.opposite mem (list.tip side) (some addr)
    let mem ← writeLink side mem (some addr) (list.tip side)
    return (mem, list.setTip side (some addr))

def dequePushFront := dequePush .front
def dequePushBack := dequePush .rear
def dequePopFront := dequePop .front
def dequePopBack := dequePop .rear

def dllInit : Deque := { front := none, rear := none }
def dllInsertStart := dllInsert .front
def dllInsertEnd := dllInsert .rear
def dllRemoveStart := dequePop .front
def dllRemoveEnd := dequePop .rear
def dllClear := dequeClear

/-! ### Links -/

section Links

variable {mem mem' : Store DequeNode} {deque : Deque} {side : Side} {l : List Nat} {a b : Nat}

@[simp] theorem Side.opposite_opposite (side : Side) : side.opposite.opposite = side := by
  cases side <;> rfl

@[simp] theorem DequeNode.link_setLink (side : Side) (node : DequeNode) (p : Option Nat) :
    (node.setLink side p).link side = p := by
  cases side <;> rfl

@[simp] theorem DequeNode.link_setLink_opposite (side : Side) (node : DequeNode)
    (p : Option Nat) : (node.setLink side.opposite p).link side = node.link side := by
  cases side <;> rfl

@[simp] theorem DequeNode.data_setLink (side : Side) (node : DequeNode) (p : Option Nat) :
    (node.setLink side p).data = node.data := by
  cases side <;> rfl

@[simp] theorem Deque.tip_setTip (side : Side) (deque : Deque) (p : Option Nat) :
    (deque.setTip side p).tip side = p := by
  cases side <;> rfl

@[simp] theorem Deque.tip_opposite_setTip (side : Side) (deque : Deque) (p : Option Nat) :
    (deque.setTip side p).tip side.opposite = deque.tip side.opposite := by
  cases side <;> rfl

@[simp] theorem Deque.tip_setTip_opposite (side : Side) (deque : Deque) (p : Option Nat) :
    (deque.setTip side.opposite p).tip side = deque.tip side := by
  cases side <;> rfl

/-- Both directions describe one list of nodes, from this end on. -/
structure Linked (mem : Store DequeNode) (deque : Deque) (side : Side) (l : List Nat) : Prop where
  inward : Chain mem.get (DequeNode.link side) (deque.tip side) l
  outward : Chain mem.get (DequeNode.link side.opposite) (deque.tip side.opposite) l.reverse

theorem Linked.flip (h : Linked mem deque side l) : Linked mem deque side.opposite l.reverse := by
  refine ⟨h.outward, ?_⟩
  rw [Side.opposite_opposite, List.reverse_reverse]
  exact h.inward

/-- The nodes hold the values. -/
def Holds (mem : Store DequeNode) (l : List Nat) (values : List Int) : Prop :=
  Stores mem.get DequeNode.data l values

variable {values : List Int} {data : Int}

theorem Linked.not_mem (h : Linked mem deque side l) (hfresh : mem.get a = none) : a ∉ l :=
  fun hmem => h.inward.allocated a hmem hfresh

theorem Linked.push (h : Linked mem deque side (b :: l)) (hfresh : mem.get a = none)
    (hnew : ∃ node, mem'.get a = some node ∧ node.link side = some b ∧
      node.link side.opposite = none)
    (hold : ∃ node node', mem.get b = some node ∧ mem'.get b = some node' ∧
      node'.link side = node.link side ∧ node'.link side.opposite = some a)
    (hrest : ∀ c ∈ l, mem'.get c = mem.get c) :
    Linked mem' (deque.setTip side (some a)) side (a :: b :: l) := by
  obtain ⟨new, hgetnew, hinward, houtward⟩ := hnew
  obtain ⟨old, old', hgetold, hgetold', hkeep, hback⟩ := hold
  have hnotin := h.not_mem hfresh
  constructor
  · have hframe : Chain mem'.get (DequeNode.link side) (deque.tip side) (b :: l) := by
      apply h.inward.frame
      rw [List.forall_mem_cons]
      refine ⟨by simp [hgetold, hgetold', hkeep], fun c hc => by rw [hrest c hc]⟩
    rw [Deque.tip_setTip]
    exact hframe.push hgetnew (hinward.trans h.inward.1.symm)
  · have hchain := h.outward
    rw [List.reverse_cons] at hchain
    rw [Deque.tip_opposite_setTip, List.reverse_cons, List.reverse_cons]
    refine hchain.concat ?_ ?_ hgetold' hback hgetnew houtward
    · rw [← List.reverse_cons, List.mem_reverse]
      exact hnotin
    · intro c hc
      rw [hrest c (List.mem_reverse.mp hc)]

theorem Holds.cons (h : Holds mem l values) (hnew : ∃ node, mem'.get a = some node ∧
    node.data = data) (hsame : ∀ c ∈ l, (mem'.get c).map DequeNode.data =
      (mem.get c).map DequeNode.data) : Holds mem' (a :: l) (data :: values) := by
  obtain ⟨node, hnode, hdata⟩ := hnew
  exact List.Forall₂.cons (by simp [hnode, hdata]) (Stores.frame h hsame)

/-- What either way to insert leaves in memory. -/
theorem Linked.insert {node : DequeNode} (h : Linked mem deque side (b :: l))
    (hvalues : Holds mem (b :: l) values) (hfresh : mem.get a = none)
    (hnode : mem.get b = some node)
    (hnew : mem'.get a = some (DequeNode.setLink side ⟨data, none, none⟩ (some b)))
    (hold : mem'.get b = some (node.setLink side.opposite (some a)))
    (hothers : ∀ c, c ≠ a → c ≠ b → mem'.get c = mem.get c) :
    Linked mem' (deque.setTip side (some a)) side (a :: b :: l) ∧
      Holds mem' (a :: b :: l) (data :: values) := by
  have hnotin := h.not_mem hfresh
  have hrest : ∀ c ∈ l, mem'.get c = mem.get c := by
    intro c hc
    apply hothers
    · exact fun heq => hnotin (heq ▸ List.mem_cons_of_mem _ hc)
    · exact fun heq => (List.nodup_cons.mp h.inward.nodup).1 (heq ▸ hc)
  constructor
  · apply h.push hfresh ⟨_, hnew, ?_, ?_⟩ ⟨node, _, hnode, hold, ?_, ?_⟩ hrest
    · simp
    · cases side <;> rfl
    · simp
    · simp
  · refine hvalues.cons ⟨_, hnew, by simp⟩ ?_
    rw [List.forall_mem_cons]
    refine ⟨?_, fun c hc => by rw [hrest c hc]⟩
    rw [hold, hnode, Option.map_some, Option.map_some, DequeNode.data_setLink]

theorem Linked.single (hvalues : Holds mem [] values) :
    Linked (newNode mem a data) ⟨some a, some a⟩ side [a] ∧
      Holds (newNode mem a data) [a] (data :: values) := by
  refine ⟨⟨?_, ?_⟩, ?_⟩
  · refine ⟨by cases side <;> rfl, _, Memory.Store.get_set_self .., ?_⟩
    cases side <;> rfl
  · refine ⟨by cases side <;> rfl, _, Memory.Store.get_set_self .., ?_⟩
    cases side <;> rfl
  · exact hvalues.cons ⟨_, Memory.Store.get_set_self .., rfl⟩
      fun c hc => absurd hc List.not_mem_nil

/-- A function that inserts at an end, given the address of the new node. -/
abbrev Insert := Side → Store DequeNode → Deque → Nat → Int → Option (Store DequeNode × Deque)

def Insert.Pushes (insert : Insert) : Prop :=
  ∀ {side mem deque a l values} (data : Int), Linked mem deque side l → Holds mem l values →
    mem.get a = none → ∃ mem' deque', insert side mem deque a data = some (mem', deque') ∧
      Linked mem' deque' side (a :: l) ∧ Holds mem' (a :: l) (data :: values)

theorem dequePush_pushes : Insert.Pushes dequePush := by
  intro side mem deque a l values data h hvalues hfresh
  cases l with
  | nil =>
      have htip : deque.tip side = none := h.inward
      refine ⟨newNode mem a data, ⟨some a, some a⟩, ?_, Linked.single hvalues⟩
      rw [dequePush, if_pos htip]
      rfl
  | cons b l =>
      obtain ⟨htip, node, hnode, -⟩ := h.inward
      have hne : b ≠ a := fun heq => h.not_mem hfresh (heq ▸ List.mem_cons_self)
      have hnew : (newNode mem a data).get a = some ⟨data, none, none⟩ :=
        Memory.Store.get_set_self ..
      have hold : ∀ new, ((newNode mem a data).set a new).get b = some node := by
        intro new
        rw [Memory.Store.get_set_of_ne hne, newNode, Memory.Store.get_set_of_ne hne, hnode]
      refine ⟨((newNode mem a data).set a (DequeNode.setLink side ⟨data, none, none⟩ (some b))).set
        b (node.setLink side.opposite (some a)), _, ?_,
        h.insert hvalues hfresh hnode ?_ (Memory.Store.get_set_self ..) ?_⟩
      · simp only [dequePush, htip, reduceCtorEq, if_false, writeLink, hnew, hold,
          Option.bind_eq_bind, Option.bind_some, Option.pure_def]
      · rw [Memory.Store.get_set_of_ne hne.symm, Memory.Store.get_set_self]
      · intro c hca hcb
        rw [Memory.Store.get_set_of_ne hcb, Memory.Store.get_set_of_ne hca, newNode,
          Memory.Store.get_set_of_ne hca]

theorem dllInsert_pushes : Insert.Pushes dllInsert := by
  intro side mem list a l values data h hvalues hfresh
  cases l with
  | nil =>
      have htip : list.tip side = none := h.inward
      refine ⟨newNode mem a data, ⟨some a, some a⟩, ?_, Linked.single hvalues⟩
      rw [dllInsert, if_pos htip]
      rfl
  | cons b l =>
      obtain ⟨htip, node, hnode, -⟩ := h.inward
      have hne : b ≠ a := fun heq => h.not_mem hfresh (heq ▸ List.mem_cons_self)
      have hold : (newNode mem a data).get b = some node := by
        rw [newNode, Memory.Store.get_set_of_ne hne, hnode]
      have hnew : ∀ old, ((newNode mem a data).set b old).get a = some ⟨data, none, none⟩ := by
        intro old
        rw [Memory.Store.get_set_of_ne hne.symm]
        exact Memory.Store.get_set_self ..
      refine ⟨((newNode mem a data).set b (node.setLink side.opposite (some a))).set a
        (DequeNode.setLink side ⟨data, none, none⟩ (some b)), _, ?_,
        h.insert hvalues hfresh hnode (Memory.Store.get_set_self ..) ?_ ?_⟩
      · simp only [dllInsert, htip, reduceCtorEq, if_false, writeLink, hnew, hold,
          Option.bind_eq_bind, Option.bind_some, Option.pure_def]
      · rw [Memory.Store.get_set_of_ne hne, Memory.Store.get_set_self]
      · intro c hca hcb
        rw [Memory.Store.get_set_of_ne hca, Memory.Store.get_set_of_ne hcb, newNode,
          Memory.Store.get_set_of_ne hca]

/-! ### Removing -/

theorem dequePop_nil (h : Linked mem deque side []) :
    dequePop side mem deque = some (-1, mem, deque) := by
  have htip : deque.tip side = none := h.inward
  rw [dequePop, htip]

theorem dequePop_single (h : Linked mem deque side [a]) (hvalues : Holds mem [a] [data]) :
    ∃ mem' deque', dequePop side mem deque = some (data, mem', deque') ∧
      Linked mem' deque' side [] := by
  obtain ⟨htip, node, hnode, hend⟩ := h.inward
  obtain ⟨⟩ | ⟨hdata, -⟩ := hvalues
  rw [hnode, Option.map_some] at hdata
  obtain rfl := Option.some.inj hdata
  have hlink : node.link side = none := hend
  refine ⟨mem.free a, (deque.setTip side none).setTip side.opposite none, ?_, ?_, ?_⟩
  · simp only [dequePop, htip, hnode, hlink, Option.bind_eq_bind, Option.bind_some,
      Option.pure_def, if_true]
  · exact (Deque.tip_setTip_opposite ..).trans (Deque.tip_setTip ..)
  · exact Deque.tip_setTip ..

theorem dequePop_cons (h : Linked mem deque side (a :: b :: l))
    (hvalues : Holds mem (a :: b :: l) (data :: values)) :
    ∃ mem' deque', dequePop side mem deque = some (data, mem', deque') ∧
      Linked mem' deque' side (b :: l) ∧ Holds mem' (b :: l) values := by
  obtain ⟨htip, node, hnode, hchain⟩ := h.inward
  have hlinks := hchain
  obtain ⟨hlink, next, hnext, -⟩ := hlinks
  obtain ⟨⟩ | ⟨hdata, hothers⟩ := hvalues
  rw [hnode, Option.map_some] at hdata
  obtain rfl := Option.some.inj hdata
  obtain ⟨hab, hbl⟩ := List.nodup_cons.mp h.inward.nodup
  have hne : b ≠ a := fun heq => hab (heq ▸ List.mem_cons_self)
  set mem' := (mem.set b (next.setLink side.opposite none)).free a with hmem'
  have hgetb : mem'.get b = some (next.setLink side.opposite none) := by
    rw [hmem', Memory.Store.get_free_of_ne hne, Memory.Store.get_set_self]
  have hrest : ∀ c ∈ l, mem'.get c = mem.get c := by
    intro c hc
    have hca : c ≠ a := fun heq => hab (heq ▸ List.mem_cons_of_mem _ hc)
    have hcb : c ≠ b := fun heq => (List.nodup_cons.mp hbl).1 (heq ▸ hc)
    rw [hmem', Memory.Store.get_free_of_ne hca, Memory.Store.get_set_of_ne hcb]
  refine ⟨mem', deque.setTip side (some b), ?_, ⟨?_, ?_⟩, ?_⟩
  · simp only [dequePop, htip, hnode, hlink, Option.bind_eq_bind, Option.bind_some, writeLink,
      hnext, Option.pure_def, reduceCtorEq, if_false, ← hmem']
  · rw [Deque.tip_setTip, ← hlink]
    apply hchain.frame
    rw [List.forall_mem_cons]
    exact ⟨by simp [hgetb, hnext], fun c hc => by rw [hrest c hc]⟩
  · have houtward := h.outward
    rw [List.reverse_cons, List.reverse_cons, List.append_assoc] at houtward
    rw [Deque.tip_opposite_setTip, List.reverse_cons]
    refine Chain.cut houtward ?_ hgetb (DequeNode.link_setLink ..)
    intro c hc
    rw [hrest c (List.mem_reverse.mp hc)]
  · apply Stores.frame hothers
    rw [List.forall_mem_cons]
    exact ⟨by simp [hgetb, hnext], fun c hc => by rw [hrest c hc]⟩

/-- The loop of clear meets every node while it is still allocated. -/
theorem clearFrom_spec {p : Option Nat} (h : Chain mem.get DequeNode.next p l) :
    ∃ mem', clearFrom mem p = some mem' := by
  induction l generalizing mem p with
  | nil =>
      obtain rfl : p = none := h
      exact ⟨mem, by rw [clearFrom]⟩
  | cons a l ih =>
      have hnotin := (List.nodup_cons.mp h.nodup).1
      obtain ⟨rfl, node, hnode, hrest⟩ := h
      have hframe : Chain (mem.free a).get DequeNode.next node.next l := by
        apply hrest.frame
        intro c hc
        have hne : c ≠ a := fun heq => hnotin (heq ▸ hc)
        rw [Memory.Store.get_free_of_ne hne]
      obtain ⟨mem', hmem'⟩ := ih hframe
      refine ⟨mem', ?_⟩
      rw [clearFrom]
      split
      · rename_i hnone
        rw [hnode] at hnone
        cases hnone
      · rename_i node' hnode'
        obtain rfl := Option.some.inj (hnode.symm.trans hnode')
        exact hmem'

/-! ### The sequence -/

/-- The values from this end on. -/
def Represents (mem : Store DequeNode) (deque : Deque) (side : Side) (values : List Int) : Prop :=
  ∃ l, Linked mem deque side l ∧ Holds mem l values

theorem Represents.flip (h : Represents mem deque side values) :
    Represents mem deque side.opposite values.reverse := by
  obtain ⟨l, hlinked, hvalues⟩ := h
  exact ⟨l.reverse, hlinked.flip, List.rel_reverse hvalues⟩

theorem Represents.push {insert : Insert} (hinsert : insert.Pushes)
    (h : Represents mem deque side values) (hfresh : mem.get a = none) (data : Int) :
    ∃ mem' deque', insert side mem deque a data = some (mem', deque') ∧
      Represents mem' deque' side (data :: values) := by
  obtain ⟨l, hlinked, hvalues⟩ := h
  obtain ⟨mem', deque', heq, hpushed⟩ := hinsert data hlinked hvalues hfresh
  exact ⟨mem', deque', heq, a :: l, hpushed⟩

theorem Represents.pop (h : Represents mem deque side values) :
    ∃ mem' deque', dequePop side mem deque = some (values.head?.getD (-1), mem', deque') ∧
      Represents mem' deque' side values.tail := by
  obtain ⟨l, hlinked, hvalues⟩ := h
  cases hvalues with
  | nil => exact ⟨mem, deque, dequePop_nil hlinked, [], hlinked, .nil⟩
  | @cons a data l values hdata hrest =>
      cases hrest with
      | nil =>
          obtain ⟨mem', deque', heq, hpopped⟩ :=
            dequePop_single hlinked (List.Forall₂.cons hdata .nil)
          exact ⟨mem', deque', heq, [], hpopped, .nil⟩
      | cons hnext hrest =>
          obtain ⟨mem', deque', heq, hpopped⟩ :=
            dequePop_cons hlinked (List.Forall₂.cons hdata (.cons hnext hrest))
          exact ⟨mem', deque', heq, _, hpopped⟩

theorem Represents.clear (h : Represents mem deque .front values) :
    ∃ mem' deque', dequeClear mem deque = some (mem', deque') ∧
      Represents mem' deque' .front [] := by
  obtain ⟨l, hlinked, -⟩ := h
  obtain ⟨mem', hclear⟩ := clearFrom_spec hlinked.inward
  refine ⟨mem', ⟨none, none⟩, ?_, [], ⟨rfl, rfl⟩, .nil⟩
  have hfront : clearFrom mem deque.front = some mem' := hclear
  rw [dequeClear, hfront]
  rfl

end Links

/-! ### Sequences of calls -/

inductive DequeCall where
  | push (side : Side) (data : Int)
  | pop (side : Side)
  | clear
  deriving DecidableEq, Repr

/-- A double-ended sequence: what the call returns, and the values afterwards. -/
def callSequence (values : List Int) : DequeCall → Option Int × List Int
  | .push .front data => (none, data :: values)
  | .push .rear data => (none, values ++ [data])
  | .pop .front => (some (values.head?.getD (-1)), values.tail)
  | .pop .rear => (some (values.getLast?.getD (-1)), values.dropLast)
  | .clear => (none, [])

def runSequence : List Int → List DequeCall → List (Option Int) × List Int
  | values, [] => ([], values)
  | values, call :: calls =>
      let (result, values) := callSequence values call
      let (results, values) := runSequence values calls
      (result :: results, values)

/-- One call, with the address that the allocator returns for a new node. -/
def callDeque (insert : Insert) (mem : Store DequeNode) (deque : Deque) (addr : Nat) :
    DequeCall → Option (Option Int × Store DequeNode × Deque)
  | .push side data => do
      let (mem, deque) ← insert side mem deque addr data
      return (none, mem, deque)
  | .pop side => do
      let (data, mem, deque) ← dequePop side mem deque
      return (some data, mem, deque)
  | .clear => do
      let (mem, deque) ← dequeClear mem deque
      return (none, mem, deque)

/-- The allocator may depend on the memory and on the calls that are left. -/
def runDeque (insert : Insert) (alloc : Nat → Store DequeNode → Nat) :
    Store DequeNode → Deque → List DequeCall → Option (List (Option Int) × Store DequeNode × Deque)
  | mem, deque, [] => some ([], mem, deque)
  | mem, deque, call :: calls => do
      let (result, mem, deque) ← callDeque insert mem deque (alloc calls.length mem) call
      let (results, mem, deque) ← runDeque insert alloc mem deque calls
      return (result :: results, mem, deque)

section Runs

variable {mem : Store DequeNode} {deque : Deque} {insert : Insert} {values : List Int} {addr : Nat}

theorem callDeque_spec (hinsert : insert.Pushes) (h : Represents mem deque .front values)
    (hfresh : mem.get addr = none) (call : DequeCall) :
    ∃ mem' deque',
      callDeque insert mem deque addr call = some ((callSequence values call).1, mem', deque') ∧
        Represents mem' deque' .front (callSequence values call).2 := by
  match call with
  | .push .front data =>
      obtain ⟨mem', deque', heq, hpushed⟩ := h.push hinsert hfresh data
      exact ⟨mem', deque', by rw [callDeque, heq]; rfl, hpushed⟩
  | .push .rear data =>
      obtain ⟨mem', deque', heq, hpushed⟩ := h.flip.push hinsert hfresh data
      have hflip := hpushed.flip
      rw [Side.opposite_opposite, List.reverse_cons, List.reverse_reverse] at hflip
      have hrear : insert .rear mem deque addr data = some (mem', deque') := heq
      exact ⟨mem', deque', by rw [callDeque, hrear]; rfl, hflip⟩
  | .pop .front =>
      obtain ⟨mem', deque', heq, hpopped⟩ := h.pop
      exact ⟨mem', deque', by rw [callDeque, heq]; rfl, hpopped⟩
  | .pop .rear =>
      obtain ⟨mem', deque', heq, hpopped⟩ := h.flip.pop
      have hflip := hpopped.flip
      rw [Side.opposite_opposite, List.tail_reverse, List.reverse_reverse] at hflip
      rw [List.head?_reverse] at heq
      have hrear : dequePop .rear mem deque = some (values.getLast?.getD (-1), mem', deque') := heq
      exact ⟨mem', deque', by rw [callDeque, hrear]; rfl, hflip⟩
  | .clear =>
      obtain ⟨mem', deque', heq, hcleared⟩ := h.clear
      exact ⟨mem', deque', by rw [callDeque, heq]; rfl, hcleared⟩

theorem runDeque_spec (hinsert : insert.Pushes) {alloc : Nat → Store DequeNode → Nat}
    (hfresh : ∀ k (mem : Store DequeNode), mem.get (alloc k mem) = none)
    (h : Represents mem deque .front values) (calls : List DequeCall) :
    ∃ mem' deque', runDeque insert alloc mem deque calls =
        some ((runSequence values calls).1, mem', deque') ∧
      Represents mem' deque' .front (runSequence values calls).2 := by
  induction calls generalizing mem deque values with
  | nil => exact ⟨mem, deque, rfl, h⟩
  | cons call calls ih =>
      obtain ⟨mem₁, deque₁, hcall, hnext⟩ :=
        callDeque_spec hinsert h (hfresh calls.length mem) call
      obtain ⟨mem₂, deque₂, hcalls, hlast⟩ := ih hnext
      refine ⟨mem₂, deque₂, ?_, hlast⟩
      rw [runDeque, hcall]
      simp only [Option.bind_eq_bind, Option.bind_some, hcalls]
      rfl

end Runs

/-- The calls run through and return what they return on a double-ended sequence. The links then
describe one list of nodes in both directions, with the values of the sequence; its nodes are all
allocated. A pop on the empty list changes nothing. -/
def RunsAsSequence (insert : Insert) (alloc : Nat → Store DequeNode → Nat)
    (start : Store DequeNode) (deque : Deque) (calls : List DequeCall) : Prop :=
  ∃ mem deque' l, runDeque insert alloc start deque calls =
      some ((runSequence [] calls).1, mem, deque') ∧
    Chain mem.get DequeNode.next deque'.front l ∧
    Chain mem.get DequeNode.prev deque'.rear l.reverse ∧
    (deque'.front = none ↔ deque'.rear = none) ∧
    (∀ a, mem.get a = none → a ∉ l) ∧
    Stores mem.get DequeNode.data l (runSequence [] calls).2 ∧
    (l = [] → ∀ side, dequePop side mem deque' = some (-1, mem, deque'))

theorem runsAsSequence_of_pushes {insert : Insert} (hinsert : insert.Pushes)
    {alloc : Nat → Store DequeNode → Nat}
    (hfresh : ∀ k (mem : Store DequeNode), mem.get (alloc k mem) = none)
    (start : Store DequeNode) (calls : List DequeCall) :
    RunsAsSequence insert alloc start ⟨none, none⟩ calls := by
  have hempty : Represents start ⟨none, none⟩ .front [] := ⟨[], ⟨rfl, rfl⟩, .nil⟩
  obtain ⟨mem, deque, hrun, l, hlinked, hvalues⟩ := runDeque_spec hinsert hfresh hempty calls
  refine ⟨mem, deque, l, hrun, hlinked.inward, hlinked.outward, ?_, ?_, hvalues, ?_⟩
  · have hfront := hlinked.inward.eq_none_iff
    have hrear := hlinked.outward.eq_none_iff
    rw [List.reverse_eq_nil_iff] at hrear
    exact hfront.trans hrear.symm
  · exact fun a hfree => hlinked.not_mem hfree
  · rintro rfl (_ | _)
    · exact dequePop_nil hlinked
    · exact dequePop_nil hlinked.flip

/-- Both structures behave as one double-ended sequence, whatever the calls. -/
theorem runsAsSequence_deque_and_dll (alloc : Nat → Store DequeNode → Nat)
    (hfresh : ∀ k (mem : Store DequeNode), mem.get (alloc k mem) = none)
    (start : Store DequeNode) (calls : List DequeCall) :
    RunsAsSequence dequePush alloc start dequeInit calls ∧
      RunsAsSequence dllInsert alloc start dllInit calls :=
  ⟨runsAsSequence_of_pushes dequePush_pushes hfresh start calls,
    runsAsSequence_of_pushes dllInsert_pushes hfresh start calls⟩

/-- Three values come in at both ends, and one more pop than there are values. -/
theorem runsAsSequence_four_pops :
    (∀ mem : Store DequeNode, mem.get mem.fresh = none) ∧
      RunsAsSequence dequePush (fun _ mem => mem.fresh) {} dequeInit
        [.push .front 2, .push .rear 3, .push .front 1, .pop .rear, .pop .front, .pop .rear,
          .pop .front] :=
  ⟨Memory.Store.get_fresh,
    (runsAsSequence_deque_and_dll _ (fun _ mem => mem.get_fresh) {} _).1⟩

end PMBugRepair
