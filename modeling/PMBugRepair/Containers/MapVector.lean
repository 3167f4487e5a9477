import Mathlib.Logic.Function.Basic
import Mathlib.Data.List.Basic
import Mathlib.Data.List.Nodup

/-!
# Maps to lists that keep the order of their keys

A key enters the map when it is first used, with an empty list of values. The entries lie in a
vector: when it is full and one more key enters, they move, and so do the lists in them.
-/

/-- The operations of a map. Its entries move when a key enters it with `n` keys in it if `moves n`
says so. -/
structure MapVector (κ ν : Type) where
  Map : Type
  empty : Map
  keys : Map → List κ
  get : Map → κ → List ν
  /-- `map[key]`. -/
  touch : Map → κ → Map
  /-- `map[key].push_back(value)`. -/
  pushBack : Map → κ → ν → Map
  moves : Nat → Bool

namespace MapVector

variable {κ ν : Type} [DecidableEq κ]

/-- What the operations do. Nothing is said about when the entries move. -/
structure Lawful (mv : MapVector κ ν) : Prop where
  keys_empty : mv.keys mv.empty = []
  vacant : ∀ map key, key ∉ mv.keys map → mv.get map key = []
  keys_touch : ∀ map key, mv.keys (mv.touch map key) =
    if key ∈ mv.keys map then mv.keys map else mv.keys map ++ [key]
  get_touch : ∀ map key, mv.get (mv.touch map key) = mv.get map
  keys_pushBack : ∀ map key value, mv.keys (mv.pushBack map key value) = mv.keys (mv.touch map key)
  get_pushBack : ∀ map key value, mv.get (mv.pushBack map key value) =
    Function.update (mv.get map) key (mv.get map key ++ [value])

variable {mv : MapVector κ ν}

/-- The lists stay where they are when `map[key]` is used. -/
def keeps (mv : MapVector κ ν) (map : mv.Map) (key : κ) : Bool :=
  key ∈ mv.keys map || !mv.moves (mv.keys map).length

theorem keeps_eq_false_iff {map : mv.Map} {key : κ} : mv.keeps map key = false ↔
    key ∉ mv.keys map ∧ mv.moves (mv.keys map).length = true := by
  simp [keeps]

/-- Every key of the map has a value. -/
def Full (mv : MapVector κ ν) (map : mv.Map) : Prop :=
  ∀ key ∈ mv.keys map, ∃ value, value ∈ mv.get map key

namespace Lawful

variable {map : mv.Map} {key other : κ} {value value' : ν} {values : List ν}

theorem mem_keys (h : mv.Lawful) (hvalue : value ∈ mv.get map key) : key ∈ mv.keys map := by
  by_contra hnot
  rw [h.vacant map key hnot] at hvalue
  cases hvalue

theorem not_mem_get_empty (h : mv.Lawful) : value ∉ mv.get mv.empty key := by
  intro hvalue
  have hkey := h.mem_keys hvalue
  rw [h.keys_empty] at hkey
  cases hkey

theorem mem_keys_touch (h : mv.Lawful) :
    other ∈ mv.keys (mv.touch map key) ↔ other ∈ mv.keys map ∨ other = key := by
  rw [h.keys_touch]
  split_ifs with hkey
  · exact (or_iff_left_of_imp fun heq => heq ▸ hkey).symm
  · simp

theorem nodup_keys_touch (h : mv.Lawful) (hnodup : (mv.keys map).Nodup) (key : κ) :
    (mv.keys (mv.touch map key)).Nodup := by
  rw [h.keys_touch]
  split_ifs with hkey
  · exact hnodup
  · rw [List.nodup_append]
    refine ⟨hnodup, List.nodup_singleton key, fun other hother other' hother' heq => hkey ?_⟩
    rwa [← List.mem_singleton.mp hother', ← heq]

theorem mem_get_pushBack (h : mv.Lawful) : value' ∈ mv.get (mv.pushBack map key value) other ↔
    value' ∈ mv.get map other ∨ (other = key ∧ value' = value) := by
  rw [h.get_pushBack]
  by_cases heq : other = key
  · subst heq
    simp
  · simp [heq]

theorem full_empty (h : mv.Lawful) : mv.Full mv.empty := by
  intro key hkey
  rw [h.keys_empty] at hkey
  cases hkey

theorem full_pushBack (h : mv.Lawful) (hfull : mv.Full map) (key : κ) (value : ν) :
    mv.Full (mv.pushBack map key value) := by
  intro other hother
  rw [h.keys_pushBack, h.mem_keys_touch] at hother
  by_cases heq : other = key
  · exact ⟨value, h.mem_get_pushBack.mpr (.inr ⟨heq, rfl⟩)⟩
  · obtain ⟨value', hvalue'⟩ := hfull other (hother.resolve_right heq)
    exact ⟨value', h.mem_get_pushBack.mpr (.inl hvalue')⟩

theorem keys_eq_nil_iff (h : mv.Lawful) (hfull : mv.Full map) :
    mv.keys map = [] ↔ ∀ key value, value ∉ mv.get map key := by
  constructor
  · intro hnil key value hvalue
    have hkey := h.mem_keys hvalue
    rw [hnil] at hkey
    cases hkey
  · intro hnone
    rw [List.eq_nil_iff_forall_not_mem]
    intro key hkey
    obtain ⟨value, hvalue⟩ := hfull key hkey
    exact hnone key value hvalue

/-! ### Loops -/

/-- Several values for one key. -/
theorem get_foldl_pushBack (h : mv.Lawful) :
    mv.get (values.foldl (fun map value => mv.pushBack map key value) map) =
      Function.update (mv.get map) key (mv.get map key ++ values) := by
  induction values generalizing map with
  | nil => simp
  | cons first rest ih =>
      rw [List.foldl_cons, ih, h.get_pushBack, Function.update_self, Function.update_idem,
        List.append_assoc, List.singleton_append]

theorem mem_keys_foldl_pushBack (h : mv.Lawful) :
    other ∈ mv.keys (values.foldl (fun map value => mv.pushBack map key value) map) ↔
      other ∈ mv.keys map ∨ (other = key ∧ values ≠ []) := by
  induction values generalizing map with
  | nil => simp
  | cons first rest ih =>
      rw [List.foldl_cons, ih, h.keys_pushBack, h.mem_keys_touch]
      simp only [ne_eq, reduceCtorEq, not_false_eq_true, and_true]
      tauto

theorem nodup_keys_foldl_pushBack (h : mv.Lawful) (hnodup : (mv.keys map).Nodup) :
    (mv.keys (values.foldl (fun map value => mv.pushBack map key value) map)).Nodup := by
  induction values generalizing map with
  | nil => exact hnodup
  | cons first rest ih =>
      refine ih ?_
      rw [h.keys_pushBack]
      exact h.nodup_keys_touch hnodup key

theorem mem_get_foldl_pushBack (h : mv.Lawful) :
    value ∈ mv.get (values.foldl (fun map value => mv.pushBack map key value) map) other ↔
      value ∈ mv.get map other ∨ (other = key ∧ value ∈ values) := by
  rw [h.get_foldl_pushBack]
  by_cases heq : other = key
  · subst heq
    simp
  · simp [heq]

omit [DecidableEq κ] in
/-- A loop whose body adds to the map what `R` says adds what `R` says of any of its items. -/
theorem mem_get_foldl {α : Type} {step : mv.Map → α → mv.Map}
    {R : α → κ → ν → Prop} (h : ∀ map x key value,
      value ∈ mv.get (step map x) key ↔ value ∈ mv.get map key ∨ R x key value) (items : List α) :
    value ∈ mv.get (items.foldl step map) key ↔
      value ∈ mv.get map key ∨ ∃ x ∈ items, R x key value := by
  induction items generalizing map with
  | nil => simp
  | cons first rest ih =>
      rw [List.foldl_cons, ih, h, or_assoc]
      simp

end Lawful

/-! ### A vector of entries -/

section VectorMap

variable {κ ν : Type} [DecidableEq κ]

def valuesOf (entries : List (κ × List ν)) (key : κ) : List ν := (entries.lookup key).getD []

def touchEntry (entries : List (κ × List ν)) (key : κ) : List (κ × List ν) :=
  if key ∈ entries.map Prod.fst then entries else entries ++ [(key, [])]

def pushEntry (entries : List (κ × List ν)) (key : κ) (value : ν) : List (κ × List ν) :=
  (touchEntry entries key).map fun entry =>
    (entry.1, if entry.1 = key then entry.2 ++ [value] else entry.2)

/-- The map whose vector doubles its capacity when it is full. -/
def vectorMap (κ ν : Type) [DecidableEq κ] : MapVector κ ν where
  Map := List (κ × List ν)
  empty := []
  keys := List.map Prod.fst
  get := valuesOf
  touch := touchEntry
  pushBack := pushEntry
  moves n := n &&& (n - 1) == 0

variable {entries : List (κ × List ν)} {key other : κ} {value : ν}

theorem lookup_eq_none_of_notMem (h : key ∉ entries.map Prod.fst) : entries.lookup key = none := by
  rw [List.lookup_eq_none_iff]
  intro entry hentry
  have hne : key ≠ entry.1 := by
    rintro rfl
    exact h (List.mem_map_of_mem hentry)
  simpa using hne

theorem lookup_touchEntry_ne (hne : other ≠ key) :
    (touchEntry entries key).lookup other = entries.lookup other := by
  have hfalse : (other == key) = false := beq_false_of_ne hne
  unfold touchEntry
  split_ifs with hkey
  · rfl
  · simp [List.lookup_append, List.lookup_cons, hfalse]

theorem lookup_touchEntry_self :
    (touchEntry entries key).lookup key = some (valuesOf entries key) := by
  unfold touchEntry valuesOf
  split_ifs with hkey
  · cases hlookup : entries.lookup key with
    | some values => rfl
    | none =>
        obtain ⟨entry, hentry, rfl⟩ := List.mem_map.mp hkey
        simpa using List.lookup_eq_none_iff.mp hlookup entry hentry
  · simp [List.lookup_append, lookup_eq_none_of_notMem hkey]

theorem valuesOf_touchEntry (entries : List (κ × List ν)) (key : κ) :
    valuesOf (touchEntry entries key) = valuesOf entries := by
  funext other
  by_cases heq : other = key
  · rw [heq, valuesOf, lookup_touchEntry_self, Option.getD_some]
  · rw [valuesOf, lookup_touchEntry_ne heq, valuesOf]

theorem keys_touchEntry (entries : List (κ × List ν)) (key : κ) :
    (touchEntry entries key).map Prod.fst =
      if key ∈ entries.map Prod.fst then entries.map Prod.fst
      else entries.map Prod.fst ++ [key] := by
  unfold touchEntry
  split_ifs <;> simp

theorem keys_pushEntry (entries : List (κ × List ν)) (key : κ) (value : ν) :
    (pushEntry entries key value).map Prod.fst = (touchEntry entries key).map Prod.fst := by
  rw [pushEntry, List.map_map]
  rfl

omit [DecidableEq κ] in
theorem lookup_map_entry [BEq κ] [LawfulBEq κ] (f : κ → List ν → List ν) :
    (entries.map fun entry => (entry.1, f entry.1 entry.2)).lookup other =
      (entries.lookup other).map (f other) := by
  induction entries with
  | nil => rfl
  | cons first rest ih =>
      rw [List.map_cons, List.lookup_cons, List.lookup_cons, ih]
      cases hbeq : other == first.1 with
      | true => rw [eq_of_beq hbeq]; rfl
      | false => rfl

theorem valuesOf_pushEntry (entries : List (κ × List ν)) (key : κ) (value : ν) :
    valuesOf (pushEntry entries key value) =
      Function.update (valuesOf entries) key (valuesOf entries key ++ [value]) := by
  funext other
  rw [valuesOf, pushEntry,
    lookup_map_entry fun k values => if k = key then values ++ [value] else values]
  by_cases heq : other = key
  · subst heq
    rw [lookup_touchEntry_self, Function.update_self, Option.map_some, if_pos rfl,
      Option.getD_some]
  · rw [Function.update_of_ne heq, lookup_touchEntry_ne heq, valuesOf]
    simp [heq]

theorem vectorMap_lawful (κ ν : Type) [DecidableEq κ] : (vectorMap κ ν).Lawful where
  keys_empty := rfl
  vacant _ _ hkey := congrArg (Option.getD · []) (lookup_eq_none_of_notMem hkey)
  keys_touch := keys_touchEntry
  get_touch := valuesOf_touchEntry
  keys_pushBack := keys_pushEntry
  get_pushBack := valuesOf_pushEntry

end VectorMap

end MapVector
