import Mathlib.Data.List.Basic

/-!
# Lists of pairs with shadowing

The first pair with a key shadows the later ones: lookups, replacements and removals all go to it. A
part of the keys can be kept in a list of its own, and the operations on a key then work on the list
of its part.
-/

namespace Shadowing

variable {α β : Type} [DecidableEq α] {key : α} {value : β} {l l' : List (α × β)}

/-- The list without the first pair of the key, if there is one. -/
def unlink (key : α) : List (α × β) → Option (List (α × β))
  | [] => none
  | pair :: rest => if pair.1 = key then some rest else (unlink key rest).map (pair :: ·)

/-- The first pair of the key gets another value. -/
def replace (key : α) (value : β) : List (α × β) → List (α × β)
  | [] => []
  | pair :: rest =>
      if pair.1 = key then (pair.1, value) :: rest else pair :: replace key value rest

theorem length_unlink (h : unlink key l = some l') : l.length = l'.length + 1 := by
  induction l generalizing l' with
  | nil => cases h
  | cons pair rest ih =>
      rw [unlink] at h
      split_ifs at h
      · obtain rfl := Option.some.inj h
        rfl
      · obtain ⟨rest', hrest, rfl⟩ := Option.map_eq_some_iff.mp h
        rw [List.length_cons, List.length_cons, ih hrest]

theorem sublist_of_unlink (h : unlink key l = some l') : l'.Sublist l := by
  induction l generalizing l' with
  | nil => cases h
  | cons pair rest ih =>
      rw [unlink] at h
      split_ifs at h
      · obtain rfl := Option.some.inj h
        exact List.sublist_cons_self pair rest
      · obtain ⟨rest', hrest, rfl⟩ := Option.map_eq_some_iff.mp h
        exact (ih hrest).cons_cons pair

theorem map_fst_replace (key : α) (value : β) (l : List (α × β)) :
    (replace key value l).map (·.1) = l.map (·.1) := by
  induction l with
  | nil => rfl
  | cons pair rest ih =>
      rw [replace]
      split_ifs
      · rfl
      · rw [List.map_cons, List.map_cons, ih]

/-! ### A part of the keys -/

/-- The pairs whose keys are in a part. -/
def part (p : α → Bool) (l : List (α × β)) : List (α × β) := l.filter fun pair => p pair.1

variable {p : α → Bool}

omit [DecidableEq α] in
theorem part_cons_of_pos {pair : α × β} (h : p pair.1 = true) (l : List (α × β)) :
    part p (pair :: l) = pair :: part p l :=
  List.filter_cons_of_pos h

omit [DecidableEq α] in
theorem part_cons_of_neg {pair : α × β} (h : ¬p pair.1 = true) (l : List (α × β)) :
    part p (pair :: l) = part p l :=
  List.filter_cons_of_neg h

theorem lookup_part (h : p key = true) (l : List (α × β)) :
    (part p l).lookup key = l.lookup key := by
  induction l with
  | nil => rfl
  | cons pair rest ih =>
      by_cases hkey : key = pair.1
      · rw [part_cons_of_pos (hkey ▸ h), List.lookup_cons, List.lookup_cons, beq_iff_eq.mpr hkey]
      · have hskip : (key == pair.1) = false := beq_eq_false_iff_ne.mpr hkey
        by_cases hp : p pair.1 = true
        · rw [part_cons_of_pos hp, List.lookup_cons, List.lookup_cons, hskip, ih]
        · rw [part_cons_of_neg hp, List.lookup_cons, hskip, ih]

theorem unlink_part (h : p key = true) (l : List (α × β)) :
    unlink key (part p l) = (unlink key l).map (part p) := by
  induction l with
  | nil => rfl
  | cons pair rest ih =>
      by_cases hkey : pair.1 = key
      · rw [part_cons_of_pos (hkey ▸ h), unlink, unlink, if_pos hkey, if_pos hkey]
        rfl
      · by_cases hp : p pair.1 = true
        · rw [part_cons_of_pos hp, unlink, unlink, if_neg hkey, if_neg hkey, ih]
          simp [Function.comp_def, part_cons_of_pos hp]
        · rw [part_cons_of_neg hp, unlink, if_neg hkey, ih]
          simp [Function.comp_def, part_cons_of_neg hp]

/-- The other parts do not change. -/
theorem part_unlink (h : ¬p key = true) (hunlink : unlink key l = some l') :
    part p l' = part p l := by
  induction l generalizing l' with
  | nil => cases hunlink
  | cons pair rest ih =>
      rw [unlink] at hunlink
      split_ifs at hunlink with hkey
      · obtain rfl := Option.some.inj hunlink
        rw [part_cons_of_neg (hkey ▸ h)]
      · obtain ⟨rest', hrest, rfl⟩ := Option.map_eq_some_iff.mp hunlink
        by_cases hp : p pair.1 = true
        · rw [part_cons_of_pos hp, part_cons_of_pos hp, ih hrest]
        · rw [part_cons_of_neg hp, part_cons_of_neg hp, ih hrest]

theorem replace_part (h : p key = true) (value : β) (l : List (α × β)) :
    replace key value (part p l) = part p (replace key value l) := by
  induction l with
  | nil => rfl
  | cons pair rest ih =>
      by_cases hkey : pair.1 = key
      · rw [part_cons_of_pos (hkey ▸ h), replace, replace, if_pos hkey, if_pos hkey]
        exact (part_cons_of_pos (hkey ▸ h) rest).symm
      · by_cases hp : p pair.1 = true
        · rw [part_cons_of_pos hp, replace, replace, if_neg hkey, if_neg hkey, ih,
            part_cons_of_pos hp]
        · rw [part_cons_of_neg hp, replace, if_neg hkey, ih, part_cons_of_neg hp]

theorem part_replace (h : ¬p key = true) (value : β) (l : List (α × β)) :
    part p (replace key value l) = part p l := by
  induction l with
  | nil => rfl
  | cons pair rest ih =>
      rw [replace]
      split_ifs with hkey
      · rw [part_cons_of_neg (hkey ▸ h)]
        exact (part_cons_of_neg (hkey ▸ h) rest).symm
      · by_cases hp : p pair.1 = true
        · rw [part_cons_of_pos hp, part_cons_of_pos hp, ih]
        · rw [part_cons_of_neg hp, part_cons_of_neg hp, ih]

end Shadowing
