import Mathlib.Data.List.Nodup
import Mathlib.Data.List.Forall2

/-!
# Linked nodes in memory

Nodes are allocated at addresses, and a node links to another one. A chain lists the addresses that
are met from a pointer on, until a null pointer. It is determined by the pointer, so no address
stands in it twice, and it is not affected by what happens elsewhere in memory.
-/

namespace Memory

/-- The nodes that are allocated, with their addresses. -/
structure Store (ν : Type) where
  cells : List (Nat × ν) := []
  deriving DecidableEq, Repr

namespace Store

variable {ν : Type} {store : Store ν} {a b : Nat} {node : ν}

def get (store : Store ν) (a : Nat) : Option ν := store.cells.lookup a

def free (store : Store ν) (a : Nat) : Store ν := { cells := store.cells.filter (·.1 ≠ a) }

def set (store : Store ν) (a : Nat) (node : ν) : Store ν :=
  { cells := (a, node) :: (store.free a).cells }

theorem get_free_of_ne (h : b ≠ a) : (store.free a).get b = store.get b := by
  unfold get free
  induction store.cells with
  | nil => rfl
  | cons entry cells ih =>
      by_cases hentry : entry.1 = a
      · have hskip : (b == entry.1) = false := by simpa [hentry] using h
        rw [List.filter_cons_of_neg (by simpa using hentry), ih, List.lookup_cons, hskip]
      · rw [List.filter_cons_of_pos (by simpa using hentry), List.lookup_cons, ih,
          List.lookup_cons]

@[simp] theorem get_set_self (store : Store ν) (a : Nat) (node : ν) :
    (store.set a node).get a = some node := by
  simp [get, set]

theorem get_set_of_ne (h : b ≠ a) : (store.set a node).get b = store.get b := by
  have hskip : (store.set a node).get b = (store.free a).get b := by
    rw [get, set, List.lookup_cons, beq_eq_false_iff_ne.mpr h]
    rfl
  rw [hskip, get_free_of_ne h]

theorem length_free (h : store.get a = some node) :
    (store.free a).cells.length < store.cells.length := by
  apply List.length_filter_lt_length_iff_exists.mpr
  obtain ⟨left, right, heq, -⟩ := List.lookup_eq_some_iff.mp h
  exact ⟨(a, node), by simp [heq], by simp⟩

/-- An address beyond all that are in use. -/
def fresh (store : Store ν) : Nat := (store.cells.map (·.1)).max?.getD 0 + 1

theorem get_fresh (store : Store ν) : store.get store.fresh = none := by
  rw [get, List.lookup_eq_none_iff]
  intro entry hentry
  have hle := List.le_max?_getD_of_mem (k := 0) (List.mem_map_of_mem (f := (·.1)) hentry)
  rw [bne_iff_ne]
  unfold fresh
  omega

end Store

/-! ### Chains -/

variable {ν : Type} {get get' : Nat → Option ν} {link : ν → Option Nat} {p q : Option Nat}
  {a b : Nat} {l : List Nat} {node node' : ν}

/-- The addresses from a pointer on. -/
def Chain (get : Nat → Option ν) (link : ν → Option Nat) : Option Nat → List Nat → Prop
  | p, [] => p = none
  | p, a :: l => p = some a ∧ ∃ node, get a = some node ∧ Chain get link (link node) l

theorem Chain.eq_none_iff (h : Chain get link p l) : p = none ↔ l = [] := by
  cases l with
  | nil => exact iff_of_true h rfl
  | cons a l => simp [h.1]

theorem Chain.allocated (h : Chain get link p l) : ∀ a ∈ l, get a ≠ none := by
  induction l generalizing p with
  | nil => exact fun a ha => absurd ha List.not_mem_nil
  | cons a l ih =>
      obtain ⟨-, node, hnode, hrest⟩ := h
      rw [List.forall_mem_cons]
      exact ⟨by simp [hnode], ih hrest⟩

theorem Chain.unique (h : Chain get link p l) {l' : List Nat} (h' : Chain get link p l') :
    l = l' := by
  induction l generalizing p l' with
  | nil => exact (h'.eq_none_iff.mp h).symm
  | cons a l ih =>
      obtain ⟨rfl, node, hnode, hrest⟩ := h
      cases l' with
      | nil => cases h'
      | cons a' l' =>
          obtain ⟨heq, node', hnode', hrest'⟩ := h'
          obtain rfl := Option.some.inj heq
          obtain rfl := Option.some.inj (hnode.symm.trans hnode')
          rw [ih hrest hrest']

theorem Chain.suffix {before : List Nat} (h : Chain get link p (before ++ l)) :
    ∃ q, Chain get link q l := by
  induction before generalizing p with
  | nil => exact ⟨p, h⟩
  | cons b before ih =>
      obtain ⟨-, node, -, hrest⟩ := h
      exact ih hrest

theorem Chain.nodup (h : Chain get link p l) : l.Nodup := by
  induction l generalizing p with
  | nil => exact List.nodup_nil
  | cons a l ih =>
      have hall := h
      obtain ⟨hp, node, hnode, hrest⟩ := h
      refine List.nodup_cons.mpr ⟨fun hmem => ?_, ih hrest⟩
      -- the chain from the second occurrence on would be the whole one
      obtain ⟨left, right, rfl⟩ := List.append_of_mem hmem
      obtain ⟨q, hq⟩ := hrest.suffix
      rw [hq.1, ← hp] at hq
      have hlength := congrArg List.length (hall.unique hq)
      simp only [List.length_cons, List.length_append] at hlength
      omega

/-- Changes outside the chain and of other fields do not matter. -/
theorem Chain.frame (h : Chain get link p l)
    (hsame : ∀ a ∈ l, (get' a).map link = (get a).map link) : Chain get' link p l := by
  induction l generalizing p with
  | nil => exact h
  | cons a l ih =>
      obtain ⟨hp, node, hnode, hrest⟩ := h
      obtain ⟨ha, hl⟩ := List.forall_mem_cons.mp hsame
      rw [hnode, Option.map_some, Option.map_eq_some_iff] at ha
      obtain ⟨node', hnode', hlink⟩ := ha
      exact ⟨hp, node', hnode', hlink ▸ ih hrest hl⟩

theorem Chain.push (h : Chain get link p l) (hnode : get a = some node) (hlink : link node = p) :
    Chain get link (some a) (a :: l) :=
  ⟨rfl, node, hnode, hlink ▸ h⟩

theorem Chain.concat (h : Chain get link p (l ++ [a])) (hne : b ∉ l ++ [a])
    (hsame : ∀ c ∈ l, (get' c).map link = (get c).map link) (hlast : get' a = some node)
    (hlink : link node = some b) (hnew : get' b = some node') (hend : link node' = none) :
    Chain get' link p (l ++ [a] ++ [b]) := by
  induction l generalizing p with
  | nil =>
      obtain ⟨hp, -⟩ := h
      exact ⟨hp, node, hlast, hlink, node', hnew, hend⟩
  | cons c l ih =>
      obtain ⟨hp, other, hother, hrest⟩ := h
      obtain ⟨hc, hl⟩ := List.forall_mem_cons.mp hsame
      rw [hother, Option.map_some, Option.map_eq_some_iff] at hc
      obtain ⟨other', hother', heq⟩ := hc
      refine ⟨hp, other', hother', heq ▸ ih hrest ?_ hl⟩
      exact fun hmem => hne (List.mem_cons_of_mem _ hmem)

theorem Chain.cut (h : Chain get link p (l ++ [a, b]))
    (hsame : ∀ c ∈ l, (get' c).map link = (get c).map link) (hlast : get' a = some node)
    (hend : link node = none) : Chain get' link p (l ++ [a]) := by
  induction l generalizing p with
  | nil =>
      obtain ⟨hp, -⟩ := h
      exact ⟨hp, node, hlast, hend⟩
  | cons c l ih =>
      obtain ⟨hp, other, hother, hrest⟩ := h
      obtain ⟨hc, hl⟩ := List.forall_mem_cons.mp hsame
      rw [hother, Option.map_some, Option.map_eq_some_iff] at hc
      obtain ⟨other', hother', heq⟩ := hc
      exact ⟨hp, other', hother', heq ▸ ih hrest hl⟩

/-- The data in a list of nodes. -/
def Stores {δ : Type} (get : Nat → Option ν) (data : ν → δ) (l : List Nat)
    (values : List δ) : Prop :=
  List.Forall₂ (fun a value => (get a).map data = some value) l values

theorem Stores.frame {δ : Type} {data : ν → δ} {values : List δ} (h : Stores get data l values)
    (hsame : ∀ a ∈ l, (get' a).map data = (get a).map data) : Stores get' data l values := by
  induction h with
  | nil => exact .nil
  | cons ha _ ih =>
      obtain ⟨hfirst, hrest⟩ := List.forall_mem_cons.mp hsame
      exact .cons (hfirst.trans ha) (ih hrest)

end Memory
