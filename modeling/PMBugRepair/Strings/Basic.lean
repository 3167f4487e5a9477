import Mathlib.Data.List.Infix
import Mathlib.Data.List.TakeWhile

/-!
# Strings as lists of characters

The string methods that the repair passes use: `split` at a character, substring tests, `replace`
and `strip`.
-/

namespace Strings

abbrev Text := List Char

/-- A literal. It is not unfolded, so that rewriting does not look into it. -/
@[irreducible] def lit (s : String) : Text := s.toList

/-- The characters of a text are tested one by one, not all characters there are. -/
instance (priority := high) decidableForallMem (p : Char → Prop) [DecidablePred p] (s : Text) :
    Decidable (∀ c ∈ s, p c) :=
  List.decidableBAll p s

instance (priority := high) decidableExistsMem (p : Char → Prop) [DecidablePred p] (s : Text) :
    Decidable (∃ c ∈ s, p c) :=
  List.decidableBEx p s

-- named once, so that every list of texts is searched with the same equality
instance lawfulBEqText : LawfulBEq Text := inferInstanceAs (LawfulBEq (List Char))

instance lawfulBEqTexts : LawfulBEq (Text × Text) := inferInstanceAs (LawfulBEq (List Char × List Char))

/-! ### Splitting

`s.splitOn sep` is Python's `s.split(sep)`. -/

section Split

variable {sep : Char} {left right s : Text}

theorem takeWhile_append (h : sep ∉ left) :
    (left ++ right).takeWhile (· ≠ sep) = left ++ right.takeWhile (· ≠ sep) := by
  apply List.takeWhile_append_of_pos
  intro c hc
  simpa using ne_of_mem_of_not_mem hc h

theorem takeWhile_append_sep (h : sep ∉ left) :
    (left ++ sep :: right).takeWhile (· ≠ sep) = left := by
  rw [takeWhile_append h]
  simp

theorem takeWhile_append_cons (left right : Text) :
    (left ++ sep :: right).takeWhile (· ≠ sep) = left.takeWhile (· ≠ sep) := by
  induction left with
  | nil => simp
  | cons c left ih => rw [List.cons_append, List.takeWhile_cons, List.takeWhile_cons, ih]

theorem takeWhile_eq_self (h : sep ∉ s) : s.takeWhile (· ≠ sep) = s := by
  rw [List.takeWhile_eq_self_iff]
  intro c hc
  simpa using ne_of_mem_of_not_mem hc h

theorem getElem?_zero_splitOn (s : Text) :
    (s.splitOn sep)[0]? = some (s.takeWhile (· ≠ sep)) := by
  induction s with
  | nil => rfl
  | cons c s ih =>
      rw [List.splitOn_cons_eq_if_modifyHead]
      by_cases h : c = sep
      · simp [h]
      · rw [if_neg (by simpa using h), List.takeWhile_cons_of_pos (by simpa using h)]
        cases hpieces : s.splitOn sep with
        | nil => exact absurd hpieces (List.splitOn_ne_nil sep s)
        | cons piece pieces =>
            rw [hpieces] at ih
            simpa using ih

theorem length_splitOn (s : Text) : (s.splitOn sep).length = s.count sep + 1 := by
  induction s with
  | nil => rfl
  | cons c s ih =>
      rw [List.splitOn_cons_eq_if_modifyHead, List.count_cons]
      by_cases h : c = sep
      · simp [h, ih]
      · simp [h, ih]

theorem not_mem_of_mem_splitOn {piece : Text} (h : piece ∈ s.splitOn sep) : sep ∉ piece := by
  induction s generalizing piece with
  | nil =>
      obtain rfl : piece = [] := by simpa using h
      exact List.not_mem_nil
  | cons c s ih =>
      rw [List.splitOn_cons_eq_if_modifyHead] at h
      by_cases hc : c = sep
      · simp only [hc, beq_self_eq_true, if_true, List.mem_cons] at h
        rcases h with rfl | h
        · exact List.not_mem_nil
        · exact ih h
      · rw [if_neg (by simpa using hc)] at h
        cases hpieces : s.splitOn sep with
        | nil => exact absurd hpieces (List.splitOn_ne_nil sep s)
        | cons first pieces =>
            rw [hpieces, List.modifyHead_cons, List.mem_cons] at h
            rcases h with rfl | h
            · rw [List.mem_cons, not_or]
              exact ⟨Ne.symm hc, ih (hpieces ▸ List.mem_cons_self)⟩
            · exact ih (hpieces ▸ List.mem_cons_of_mem _ h)

/-- The piece behind a separator, which is numbered by the separators up to it. -/
theorem getElem?_splitOn (left right : Text) :
    ((left ++ sep :: right).splitOn sep)[left.count sep + 1]? =
      some (right.takeWhile (· ≠ sep)) := by
  rw [List.splitOn_append_cons_self, List.getElem?_append_right (by rw [length_splitOn]),
    length_splitOn, Nat.sub_self, getElem?_zero_splitOn]

theorem getLast?_splitOn (left : Text) (h : sep ∉ right) :
    ((left ++ sep :: right).splitOn sep).getLast? = some right := by
  rw [List.splitOn_append_cons_self, List.splitOn_eq_singleton h]
  exact List.getLast?_concat

theorem dropLast_splitOn (left : Text) (h : sep ∉ right) :
    ((left ++ sep :: right).splitOn sep).dropLast = left.splitOn sep := by
  rw [List.splitOn_append_cons_self, List.splitOn_eq_singleton h, List.dropLast_concat]

theorem splitOn_inj {t : Text} : s.splitOn sep = t.splitOn sep ↔ s = t := by
  refine ⟨fun h => ?_, congrArg _⟩
  have hjoin := congrArg ([sep].intercalate ·) h
  simpa only [List.intercalate_splitOn] using hjoin

theorem intercalate_dropLast_splitOn (left : Text) (h : sep ∉ right) :
    [sep].intercalate ((left ++ sep :: right).splitOn sep).dropLast = left := by
  rw [dropLast_splitOn left h, List.intercalate_splitOn]

/-- A text is cut at its last separator, if it has one. -/
theorem exists_last_sep (h : sep ∈ s) : ∃ left right, s = left ++ sep :: right ∧ sep ∉ right := by
  induction s with
  | nil => cases h
  | cons c s ih =>
      by_cases hmem : sep ∈ s
      · obtain ⟨left, right, rfl, hright⟩ := ih hmem
        exact ⟨c :: left, right, rfl, hright⟩
      · obtain rfl : sep = c := (List.mem_cons.mp h).resolve_right hmem
        exact ⟨[], s, rfl, hmem⟩

end Split

/-! ### Stripping -/

/-- The characters that `strip` takes for white space. -/
def isSpace (c : Char) : Bool :=
  let n := c.toNat
  (9 ≤ n && n ≤ 13) || (28 ≤ n && n ≤ 32) || n == 0x85 || n == 0xa0 || n == 0x1680 ||
    (0x2000 ≤ n && n ≤ 0x200a) || n == 0x2028 || n == 0x2029 || n == 0x202f || n == 0x205f ||
    n == 0x3000

def stripWhile (p : Char → Bool) (s : Text) : Text :=
  ((s.dropWhile p).reverse.dropWhile p).reverse

/-- `s.strip()`. -/
def strip (s : Text) : Text := stripWhile isSpace s

section Strip

variable {p : Char → Bool} {s : Text}

theorem stripWhile_eq_self (h : ∀ c ∈ s, p c = false) : stripWhile p s = s := by
  have hfront : ∀ t : Text, (∀ c ∈ t, p c = false) → t.dropWhile p = t := by
    intro t ht
    cases t with
    | nil => rfl
    | cons c t => exact List.dropWhile_cons_of_neg (by simp [ht c List.mem_cons_self])
  rw [stripWhile, hfront s h, hfront s.reverse (by simpa using h), List.reverse_reverse]

theorem stripWhile_cons {c : Char} (h : p c = true) : stripWhile p (c :: s) = stripWhile p s := by
  rw [stripWhile, List.dropWhile_cons_of_pos h]
  rfl

end Strip

theorem isSpace_of_isAlphanum {c : Char} (h : c.isAlphanum = true) : isSpace c = false := by
  have hrange : (48 ≤ c.toNat ∧ c.toNat ≤ 57) ∨ (65 ≤ c.toNat ∧ c.toNat ≤ 90) ∨
      (97 ≤ c.toNat ∧ c.toNat ≤ 122) := by
    unfold Char.isAlphanum Char.isAlpha Char.isUpper Char.isLower at h
    simp [Char.isDigit, UInt32.le_iff_toNat_le] at h
    omega
  simp only [isSpace, Bool.or_eq_false_iff, Bool.and_eq_false_iff, decide_eq_false_iff_not,
    beq_eq_false_iff_ne]
  omega

theorem isSpace_of_isDigit {c : Char} (h : c.isDigit = true) : isSpace c = false :=
  isSpace_of_isAlphanum (by simp [Char.isAlphanum, h])

end Strings
