import Mathlib.Order.Lattice
import Mathlib.Data.List.Nodup

/-!
# Ordered maps

A map is the list of its entries by increasing key, which is the order in which it is iterated.
-/

structure OrderedMap (κ ν : Type) [LinearOrder κ] where
  entries : List (κ × ν)
  sorted : entries.Pairwise fun x y => x.1 < y.1

namespace OrderedMap

variable {κ ν : Type} [LinearOrder κ]

instance [DecidableEq ν] : DecidableEq (OrderedMap κ ν) := fun m m' =>
  decidable_of_iff (m.entries = m'.entries) ⟨fun h => by cases m; cases m'; simpa using h, congrArg _⟩

instance : Membership (κ × ν) (OrderedMap κ ν) := ⟨fun m entry => entry ∈ m.entries⟩

theorem mem_iff {m : OrderedMap κ ν} {entry : κ × ν} : entry ∈ m ↔ entry ∈ m.entries := Iff.rfl

def empty : OrderedMap κ ν := ⟨[], .nil⟩

def find? (m : OrderedMap κ ν) (key : κ) : Option ν :=
  (m.entries.find? (·.1 = key)).map Prod.snd

def insertEntry (key : κ) (value : ν) : List (κ × ν) → List (κ × ν)
  | [] => [(key, value)]
  | entry :: rest =>
      if key < entry.1 then (key, value) :: entry :: rest
      else if key = entry.1 then (key, value) :: rest
      else entry :: insertEntry key value rest

theorem mem_insertEntry {key : κ} {value : ν} {entries : List (κ × ν)}
    (hsorted : entries.Pairwise fun x y => x.1 < y.1) {entry : κ × ν} :
    entry ∈ insertEntry key value entries ↔
      entry = (key, value) ∨ (entry ∈ entries ∧ entry.1 ≠ key) := by
  induction entries with
  | nil => simp [insertEntry]
  | cons head rest ih =>
      obtain ⟨hhead, hrest⟩ := List.pairwise_cons.mp hsorted
      rw [insertEntry]
      split
      · rename_i hlt
        -- the new key is the smallest one
        have hne : ∀ x ∈ head :: rest, x.1 ≠ key := by
          intro x hx
          rcases List.mem_cons.mp hx with rfl | hx
          · exact hlt.ne'
          · exact (hlt.trans (hhead x hx)).ne'
        rw [List.mem_cons]
        exact or_congr_right ⟨fun hx => ⟨hx, hne entry hx⟩, fun hx => hx.1⟩
      · split
        · rename_i heq
          have hne : ∀ x ∈ rest, x.1 ≠ key := fun x hx => heq ▸ (hhead x hx).ne'
          rw [List.mem_cons, List.mem_cons]
          refine or_congr_right ⟨fun hx => ⟨.inr hx, hne entry hx⟩, ?_⟩
          rintro ⟨rfl | hx, hkey⟩
          · exact absurd heq.symm hkey
          · exact hx
        · rename_i hne
          rw [List.mem_cons, ih hrest, List.mem_cons]
          constructor
          · rintro (rfl | rfl | ⟨hx, hkey⟩)
            · exact .inr ⟨.inl rfl, fun heq => hne heq.symm⟩
            · exact .inl rfl
            · exact .inr ⟨.inr hx, hkey⟩
          · rintro (rfl | ⟨rfl | hx, hkey⟩)
            · exact .inr (.inl rfl)
            · exact .inl rfl
            · exact .inr (.inr ⟨hx, hkey⟩)

theorem sorted_insertEntry {key : κ} {value : ν} {entries : List (κ × ν)}
    (hsorted : entries.Pairwise fun x y => x.1 < y.1) :
    (insertEntry key value entries).Pairwise fun x y => x.1 < y.1 := by
  induction entries with
  | nil => simp [insertEntry]
  | cons head rest ih =>
      obtain ⟨hhead, hrest⟩ := List.pairwise_cons.mp hsorted
      rw [insertEntry]
      split
      · rename_i hlt
        refine List.pairwise_cons.mpr ⟨?_, hsorted⟩
        intro x hx
        rcases List.mem_cons.mp hx with rfl | hx
        · exact hlt
        · exact hlt.trans (hhead x hx)
      · split
        · rename_i heq
          exact List.pairwise_cons.mpr ⟨fun x hx => heq ▸ hhead x hx, hrest⟩
        · rename_i hle hne
          refine List.pairwise_cons.mpr ⟨?_, ih hrest⟩
          intro x hx
          rcases (mem_insertEntry hrest).mp hx with rfl | ⟨hx, -⟩
          · exact lt_of_le_of_ne (not_lt.mp hle) fun heq => hne heq.symm
          · exact hhead x hx

/-- `m[key] = value`. -/
def insert (m : OrderedMap κ ν) (key : κ) (value : ν) : OrderedMap κ ν :=
  ⟨insertEntry key value m.entries, sorted_insertEntry m.sorted⟩

def erase (m : OrderedMap κ ν) (key : κ) : OrderedMap κ ν :=
  ⟨m.entries.filter (·.1 ≠ key), m.sorted.filter _⟩

variable {m : OrderedMap κ ν} {key : κ} {value : ν} {entry : κ × ν}

@[simp] theorem not_mem_empty : entry ∉ (empty : OrderedMap κ ν) := by
  simp [mem_iff, empty]

@[simp] theorem mem_insert_iff :
    entry ∈ m.insert key value ↔ entry = (key, value) ∨ (entry ∈ m ∧ entry.1 ≠ key) :=
  mem_insertEntry m.sorted

@[simp] theorem mem_erase_iff : entry ∈ m.erase key ↔ entry ∈ m ∧ entry.1 ≠ key := by
  simp [mem_iff, erase]

theorem eq_of_mem {entry' : κ × ν} (h : entry ∈ m) (h' : entry' ∈ m) (hkey : entry.1 = entry'.1) :
    entry = entry' := by
  have hkeys : (m.entries.map Prod.fst).Nodup :=
    List.pairwise_map.mpr (m.sorted.imp fun hlt => hlt.ne)
  exact List.inj_on_of_nodup_map hkeys h h' hkey

theorem find?_eq_some_iff : m.find? key = some value ↔ (key, value) ∈ m := by
  rw [find?, Option.map_eq_some_iff]
  constructor
  · rintro ⟨entry, hfind, rfl⟩
    obtain rfl : entry.1 = key := by simpa using List.find?_some hfind
    exact List.mem_of_find?_eq_some hfind
  · intro hmem
    cases hfind : m.entries.find? (·.1 = key) with
    | none =>
        have hkey := List.find?_eq_none.mp hfind _ hmem
        simp at hkey
    | some entry =>
        have hkey : entry.1 = key := by simpa using List.find?_some hfind
        have heq := m.eq_of_mem (List.mem_of_find?_eq_some hfind) hmem hkey
        exact ⟨entry, rfl, congrArg Prod.snd heq⟩

theorem find?_insert {key' : κ} :
    (m.insert key value).find? key' = if key' = key then some value else m.find? key' := by
  refine Option.ext fun v => ?_
  rw [find?_eq_some_iff, mem_insert_iff]
  split
  · rename_i heq
    simp [heq, eq_comm]
  · rename_i hne
    simp [hne, find?_eq_some_iff]

theorem nodup_entries (m : OrderedMap κ ν) : m.entries.Nodup :=
  m.sorted.imp fun hlt heq => hlt.ne (congrArg Prod.fst heq)

end OrderedMap
