import PMBugRepair.Strings.Basic
import Mathlib.Data.Nat.Digits.Lemmas

/-!
# Printing and reading Python values

`repr` of strings and lists, `int`, `replace`, and the lines of a text file. Which characters beyond
ASCII are printable is a table of Unicode and stays a parameter.
-/

namespace Strings

/-! ### Hexadecimal digits -/

theorem mem_toDigits_sixteen {n : Nat} {c : Char} (h : c ∈ Nat.toDigits 16 n) :
    ∃ d < 16, c = Nat.digitChar d := by
  induction n using Nat.strong_induction_on with
  | _ n ih =>
      rw [Nat.toDigits_eq_if (by decide)] at h
      split at h
      · rename_i hlt
        exact ⟨n, hlt, List.mem_singleton.mp h⟩
      · rename_i hle
        rcases List.mem_append.mp h with h | h
        · exact ih (n / 16) (by omega) h
        · exact ⟨n % 16, by omega, List.mem_singleton.mp h⟩

/-! ### Printing -/

/-- The digits of an escape, with zeros in front up to the width. -/
def hexPadded (width n : Nat) : Text :=
  List.replicate (width - (Nat.toDigits 16 n).length) '0' ++ Nat.toDigits 16 n

/-- A character that `repr` leaves alone, quotes and the backslash apart. -/
def Printable (printable : Char → Bool) (c : Char) : Prop :=
  (32 ≤ c.toNat ∧ c.toNat < 127) ∨ (127 < c.toNat ∧ printable c = true)

instance (printable : Char → Bool) (c : Char) : Decidable (Printable printable c) :=
  inferInstanceAs (Decidable (_ ∨ _))

def escape (printable : Char → Bool) (quote c : Char) : Text :=
  if c = quote ∨ c = '\\' then ['\\', c]
  else if c = '\t' then ['\\', 't']
  else if c = '\n' then ['\\', 'n']
  else if c = '\r' then ['\\', 'r']
  else if Printable printable c then [c]
  else if c.toNat ≤ 0xff then '\\' :: 'x' :: hexPadded 2 c.toNat
  else if c.toNat ≤ 0xffff then '\\' :: 'u' :: hexPadded 4 c.toNat
  else '\\' :: 'U' :: hexPadded 8 c.toNat

/-- The quote that `repr` puts around a string. -/
def quoteOf (s : Text) : Char := if '\'' ∈ s ∧ '"' ∉ s then '"' else '\''

/-- `repr(s)`. -/
def repr (printable : Char → Bool) (s : Text) : Text :=
  quoteOf s :: (s.flatMap (escape printable (quoteOf s)) ++ [quoteOf s])

/-- `", ".join(items)`. -/
def commaJoin : List Text → Text
  | [] => []
  | [item] => item
  | item :: next :: rest => item ++ ',' :: ' ' :: commaJoin (next :: rest)

/-- `str` of a list whose items are printed. -/
def strList (items : List Text) : Text := '[' :: (commaJoin items ++ [']'])

/-- A character that is printed as it is. -/
def Plain (printable : Char → Bool) (quote c : Char) : Prop :=
  c ≠ quote ∧ c ≠ '\\' ∧ Printable printable c

section Print

variable {printable : Char → Bool} {quote c d : Char} {s : Text}

theorem escape_of_plain (h : Plain printable quote c) : escape printable quote c = [c] := by
  obtain ⟨hquote, hslash, hprint⟩ := h
  have hcontrol : c ≠ '\t' ∧ c ≠ '\n' ∧ c ≠ '\r' := by
    refine ⟨?_, ?_, ?_⟩ <;>
      · rintro rfl
        rcases hprint with hprint | hprint
        · exact absurd hprint.1 (by decide)
        · exact absurd hprint.1 (by decide)
  simp [escape, hquote, hslash, hcontrol.1, hcontrol.2.1, hcontrol.2.2, hprint]

theorem isAlphanum_of_mem_hexPadded {width n : Nat} (h : c ∈ hexPadded width n) :
    c.isAlphanum = true := by
  have hdigit : ∀ k < 16, (Nat.digitChar k).isAlphanum = true := by decide
  rcases List.mem_append.mp h with h | h
  · rw [List.eq_of_mem_replicate h]
    decide
  · obtain ⟨k, hk, rfl⟩ := mem_toDigits_sixteen h
    exact hdigit k hk

/-- Everything else is printed with a backslash in front of letters and digits. -/
theorem escape_of_not_plain (h : ¬Plain printable quote c) :
    ∃ tail, tail ≠ [] ∧ escape printable quote c = '\\' :: tail ∧
      ∀ d ∈ tail, ((c = quote ∨ c = '\\') ∧ d = c) ∨ d.isAlphanum = true := by
  have hhex : ∀ (letter : Char) (width : Nat), letter.isAlphanum = true →
      ∀ d ∈ letter :: hexPadded width c.toNat, ((c = quote ∨ c = '\\') ∧ d = c) ∨
        d.isAlphanum = true := by
    intro letter width hletter d hd
    rcases List.mem_cons.mp hd with rfl | hd
    · exact .inr hletter
    · exact .inr (isAlphanum_of_mem_hexPadded hd)
  unfold escape
  split_ifs with hquote htab hnewline hreturn hprint hbyte hshort
  · exact ⟨[c], by simp, rfl, by simp [hquote]⟩
  · exact ⟨['t'], by simp, rfl, by simp⟩
  · exact ⟨['n'], by simp, rfl, by simp⟩
  · exact ⟨['r'], by simp, rfl, by simp⟩
  · rw [not_or] at hquote
    exact absurd ⟨hquote.1, hquote.2, hprint⟩ h
  · exact ⟨_, by simp, rfl, hhex 'x' 2 (by decide)⟩
  · exact ⟨_, by simp, rfl, hhex 'u' 4 (by decide)⟩
  · exact ⟨_, by simp, rfl, hhex 'U' 8 (by decide)⟩

/-- The printed characters: those of the string that are printed as they are, and what escapes are
made of. -/
theorem mem_escape (h : d ∈ escape printable quote c) :
    (Plain printable quote c ∧ d = c) ∨ ((c = quote ∨ c = '\\') ∧ d = c) ∨ d = '\\' ∨
      d.isAlphanum = true := by
  by_cases hplain : Plain printable quote c
  · rw [escape_of_plain hplain, List.mem_singleton] at h
    exact .inl ⟨hplain, h⟩
  · obtain ⟨tail, -, heq, htail⟩ := escape_of_not_plain hplain
    rw [heq] at h
    rcases List.mem_cons.mp h with rfl | h
    · exact .inr (.inr (.inl rfl))
    · rcases htail d h with hd | hd
      · exact .inr (.inl hd)
      · exact .inr (.inr (.inr hd))

theorem not_mem_escaped (hd : d ∉ s) (hslash : d ≠ '\\') (hletter : d.isAlphanum = false) :
    d ∉ s.flatMap (escape printable quote) := by
  intro hmem
  obtain ⟨c, hc, hmem⟩ := List.mem_flatMap.mp hmem
  rcases mem_escape hmem with ⟨-, rfl⟩ | ⟨-, rfl⟩ | rfl | hd'
  · exact hd hc
  · exact hd hc
  · exact hslash rfl
  · rw [hletter] at hd'
    cases hd'

/-- A character that no escape is made of. -/
def Foreign (quote c : Char) : Prop :=
  c ≠ quote ∧ c ∉ ['\\', 't', 'n', 'r', 'x', 'u', 'U'] ∧ ∀ k < 16, c ≠ Nat.digitChar k

theorem Foreign.not_mem_escape (h : Foreign quote d) (hplain : ¬Plain printable quote c) :
    d ∉ escape printable quote c := by
  obtain ⟨hquote, hletters, hdigits⟩ := h
  simp only [List.mem_cons, List.not_mem_nil, or_false, not_or] at hletters
  have hhex : ∀ width n, d ∉ hexPadded width n := by
    intro width n hmem
    rcases List.mem_append.mp hmem with hmem | hmem
    · exact hdigits 0 (by decide) (List.eq_of_mem_replicate hmem)
    · obtain ⟨k, hk, heq⟩ := mem_toDigits_sixteen hmem
      exact hdigits k hk heq
  unfold escape
  split_ifs with hmark htab hnewline hreturn hprint hbyte hshort
  · rcases hmark with rfl | rfl
    · simp [hletters, hquote]
    · simp [hletters]
  · simp [hletters]
  · simp [hletters]
  · simp [hletters]
  · rw [not_or] at hmark
    exact absurd ⟨hmark.1, hmark.2, hprint⟩ hplain
  · simp [hletters, hhex]
  · simp [hletters, hhex]
  · simp [hletters, hhex]

theorem prefix_of_prefix_escaped {word : Text} (hslash : '\\' ∉ word)
    (h : word <+: s.flatMap (escape printable quote)) : word <+: s := by
  induction s generalizing word with
  | nil => exact h
  | cons c s ih =>
      cases word with
      | nil => exact List.nil_prefix
      | cons w word =>
          rw [List.mem_cons, not_or] at hslash
          rw [List.flatMap_cons] at h
          by_cases hplain : Plain printable quote c
          · rw [escape_of_plain hplain, List.singleton_append, List.cons_prefix_cons] at h
            rw [List.cons_prefix_cons]
            exact ⟨h.1, ih hslash.2 h.2⟩
          · obtain ⟨tail, -, heq, -⟩ := escape_of_not_plain hplain
            rw [heq, List.cons_append, List.cons_prefix_cons] at h
            exact absurd h.1.symm hslash.1

/-- A word that begins with a character of no escape is found only where it was. -/
theorem infix_of_infix_escaped {first : Char} {word : Text} (hfirst : Foreign quote first)
    (hslash : '\\' ∉ first :: word)
    (h : first :: word <:+: s.flatMap (escape printable quote)) : first :: word <:+: s := by
  induction s with
  | nil => exact h
  | cons c s ih =>
      by_cases hprefix : first :: word <+: (c :: s).flatMap (escape printable quote)
      · exact (prefix_of_prefix_escaped hslash hprefix).isInfix
      · apply List.infix_cons
        apply ih
        rw [List.flatMap_cons] at h hprefix
        by_cases hplain : Plain printable quote c
        · rw [escape_of_plain hplain, List.singleton_append] at h hprefix
          exact (List.infix_cons_iff.mp h).resolve_left hprefix
        · -- the word cannot begin inside an escape
          have hnot := @Foreign.not_mem_escape printable quote c first hfirst hplain
          generalize escape printable quote c = code at h hprefix hnot
          clear hprefix
          induction code with
          | nil => exact h
          | cons d code ihcode =>
              rw [List.mem_cons, not_or] at hnot
              refine ihcode ?_ hnot.2
              rcases List.infix_cons_iff.mp h with hbegin | hlater
              · exact absurd (List.cons_prefix_cons.mp hbegin).1 hnot.1
              · exact hlater

theorem escaped_eq_self_iff :
    s.flatMap (escape printable quote) = s ↔ ∀ c ∈ s, Plain printable quote c := by
  have hlength : ∀ s : Text, s.length ≤ (s.flatMap (escape printable quote)).length := by
    intro s
    induction s with
    | nil => simp
    | cons c s ih =>
        have hpos : 1 ≤ (escape printable quote c).length := by
          by_cases hplain : Plain printable quote c
          · simp [escape_of_plain hplain]
          · obtain ⟨tail, -, heq, -⟩ := escape_of_not_plain hplain
            simp [heq]
        simp only [List.flatMap_cons, List.length_append, List.length_cons]
        omega
  induction s with
  | nil => simp
  | cons c s ih =>
      rw [List.flatMap_cons, List.forall_mem_cons]
      constructor
      · intro heq
        by_cases hplain : Plain printable quote c
        · rw [escape_of_plain hplain, List.singleton_append, List.cons.injEq] at heq
          exact ⟨hplain, ih.mp heq.2⟩
        · -- an escape is longer than what it stands for
          obtain ⟨tail, hne, hescape, -⟩ := escape_of_not_plain hplain
          have hcount := congrArg List.length heq
          have hrest := hlength s
          have htail := List.length_pos_iff.mpr hne
          rw [hescape] at hcount
          simp only [List.length_append, List.length_cons] at hcount
          omega
      · rintro ⟨hplain, hrest⟩
        rw [escape_of_plain hplain, ih.mpr hrest]
        rfl

theorem mem_commaJoin {items : List Text} (h : c ∈ commaJoin items) :
    c = ',' ∨ c = ' ' ∨ ∃ item ∈ items, c ∈ item := by
  induction items with
  | nil => cases h
  | cons item items ih =>
      cases items with
      | nil => exact .inr (.inr ⟨item, List.mem_cons_self, h⟩)
      | cons next rest =>
          simp only [commaJoin, List.mem_append, List.mem_cons] at h
          rcases h with h | h | h | h
          · exact .inr (.inr ⟨item, List.mem_cons_self, h⟩)
          · exact .inl h
          · exact .inr (.inl h)
          · rcases ih h with h | h | ⟨found, hmem, h⟩
            · exact .inl h
            · exact .inr (.inl h)
            · exact .inr (.inr ⟨found, List.mem_cons_of_mem _ hmem, h⟩)

/-- Cutting at the commas gives the items, with a blank in front of all but the first. -/
theorem splitOn_commaJoin {item : Text} {items : List Text}
    (h : ∀ x ∈ item :: items, ',' ∉ x) :
    (commaJoin (item :: items)).splitOn ',' = item :: items.map (' ' :: ·) := by
  have hjoin : ∀ (item : Text) (items : List Text), commaJoin (item :: items) =
      [','].intercalate (item :: items.map (' ' :: ·)) := by
    intro item items
    induction items generalizing item with
    | nil => simp [commaJoin]
    | cons next rest ih => simp [commaJoin, ih]
  rw [hjoin, List.splitOn_intercalate]
  · intro x hx
    rcases List.mem_cons.mp hx with rfl | hx
    · exact h _ List.mem_cons_self
    · obtain ⟨y, hy, rfl⟩ := List.mem_map.mp hx
      simpa using h y (List.mem_cons_of_mem _ hy)
  · simp

end Print

/-! ### Stripping both ends -/

section Ends

variable {p : Char → Bool} {s left right : Text}

theorem stripWhile_append_left (h : ∀ c ∈ left, p c = true) :
    stripWhile p (left ++ s) = stripWhile p s := by
  rw [stripWhile, List.dropWhile_append_of_pos h, stripWhile]

theorem stripWhile_append_right (h : ∀ c ∈ right, p c = true) :
    stripWhile p (s ++ right) = stripWhile p s := by
  have hright : right.dropWhile p = [] := List.dropWhile_eq_nil_iff.mpr h
  rw [stripWhile, List.dropWhile_append, stripWhile]
  by_cases hs : s.dropWhile p = []
  · simp [hs, hright]
  · rw [if_neg (by simpa using hs), List.reverse_append,
      List.dropWhile_append_of_pos (by simpa using h)]

theorem stripWhile_ends (p : Char → Bool) (s : Text) :
    (∀ c, (stripWhile p s).head? = some c → p c = false) ∧
      ∀ c, (stripWhile p s).getLast? = some c → p c = false := by
  have hdrop : ∀ (t : Text) (c : Char), (t.dropWhile p).head? = some c → p c = false := by
    intro t c hc
    have hnot := List.head?_dropWhile_not p t
    rwa [hc] at hnot
  constructor
  · intro c hc
    apply hdrop s c
    obtain ⟨rest, hrest⟩ : stripWhile p s <+: s.dropWhile p := by
      have hsuffix := List.dropWhile_suffix p (l := (s.dropWhile p).reverse)
      rw [← List.reverse_prefix] at hsuffix
      simpa [stripWhile] using hsuffix
    rw [← hrest, List.head?_append, hc]
    rfl
  · intro c hc
    rw [stripWhile, List.getLast?_reverse] at hc
    exact hdrop _ c hc

theorem stripWhile_eq_self_of_ends (hhead : ∀ c, s.head? = some c → p c = false)
    (hlast : ∀ c, s.getLast? = some c → p c = false) : stripWhile p s = s := by
  have hdrop : ∀ t : Text, (∀ c, t.head? = some c → p c = false) → t.dropWhile p = t := by
    intro t ht
    cases t with
    | nil => rfl
    | cons c t => exact List.dropWhile_cons_of_neg (by simp [ht c rfl])
  rw [stripWhile, hdrop s hhead, hdrop s.reverse (by simpa using hlast), List.reverse_reverse]

end Ends

/-! ### Replacing -/

/-- The rest of `s.replace(old, new)`, `skip` characters of an occurrence being left. -/
def replaceFrom (old new : Text) : Nat → Text → Text
  | _, [] => []
  | skip + 1, _ :: s => replaceFrom old new skip s
  | 0, c :: s =>
      if old <+: c :: s then new ++ replaceFrom old new (old.length - 1) s
      else c :: replaceFrom old new 0 s

/-- `s.replace(old, new)` for `old` not empty. -/
def replace (old new s : Text) : Text := replaceFrom old new 0 s

section Replace

variable {old new s left : Text}

theorem replaceFrom_append (left s : Text) :
    replaceFrom old new left.length (left ++ s) = replace old new s := by
  induction left with
  | nil => rfl
  | cons c left ih => exact ih

theorem replace_append_old (h : old ≠ []) (s : Text) :
    replace old new (old ++ s) = new ++ replace old new s := by
  cases old with
  | nil => exact absurd rfl h
  | cons c old =>
      rw [replace, List.cons_append, replaceFrom, if_pos (by simp)]
      simp only [List.length_cons, Nat.add_sub_cancel]
      rw [replaceFrom_append]

/-- Nothing is replaced where no occurrence can begin. -/
theorem replace_append_of_notMem {c : Char} (h : c ∉ left) (s : Text) :
    replace (c :: old) new (left ++ s) = left ++ replace (c :: old) new s := by
  induction left with
  | nil => rfl
  | cons d left ih =>
      rw [List.mem_cons, not_or] at h
      obtain ⟨hne, hleft⟩ := h
      rw [List.cons_append, replace, replaceFrom, if_neg]
      · exact congrArg (d :: ·) (ih hleft)
      · rw [List.cons_prefix_cons]
        exact fun hprefix => hne hprefix.1

theorem replace_of_notMem {c : Char} (h : c ∉ s) : replace (c :: old) new s = s := by
  have happend := @replace_append_of_notMem old new s c h []
  simpa [replace, replaceFrom] using happend

theorem replace_of_not_infix (h : ¬old <:+: s) : replace old new s = s := by
  induction s with
  | nil => rfl
  | cons c s ih =>
      rw [replace, replaceFrom, if_neg fun hprefix => h hprefix.isInfix]
      exact congrArg (c :: ·) (ih fun hsub => h (hsub.trans (List.suffix_cons c s).isInfix))

theorem length_replaceFrom (old : Text) (skip : Nat) (s : Text) :
    (replaceFrom old [] skip s).length ≤ s.length := by
  induction s generalizing skip with
  | nil => simp [replaceFrom]
  | cons c s ih =>
      cases skip with
      | succ skip =>
          rw [replaceFrom, List.length_cons]
          exact (ih skip).trans (Nat.le_succ _)
      | zero =>
          rw [replaceFrom]
          split
          · rw [List.nil_append, List.length_cons]
            exact (ih _).trans (Nat.le_succ _)
          · rw [List.length_cons, List.length_cons]
            exact Nat.succ_le_succ (ih 0)

/-- Something is cut out where there is an occurrence. -/
theorem length_replace_lt (h : old <:+: s) (hne : old ≠ []) :
    (replace old [] s).length < s.length := by
  induction s with
  | nil => exact absurd (List.eq_nil_of_infix_nil h) hne
  | cons c s ih =>
      rw [replace, replaceFrom]
      split
      · rw [List.nil_append, List.length_cons]
        exact Nat.lt_succ_of_le (length_replaceFrom _ _ _)
      · rename_i hprefix
        rw [List.length_cons, List.length_cons]
        exact Nat.succ_lt_succ (ih ((List.infix_cons_iff.mp h).resolve_left hprefix))

theorem replace_eq_self_iff (hne : old ≠ []) : replace old [] s = s ↔ ¬old <:+: s := by
  constructor
  · intro heq hsub
    have hlength := length_replace_lt hsub hne
    rw [heq] at hlength
    exact lt_irrefl _ hlength
  · exact replace_of_not_infix

theorem mem_of_mem_replaceFrom {c : Char} {skip : Nat} (h : c ∈ replaceFrom old [] skip s) :
    c ∈ s := by
  induction s generalizing skip with
  | nil => simp [replaceFrom] at h
  | cons d s ih =>
      cases skip with
      | succ skip => exact List.mem_cons_of_mem d (ih (by simpa [replaceFrom] using h))
      | zero =>
          rw [replaceFrom] at h
          split at h
          · exact List.mem_cons_of_mem d (ih (by simpa using h))
          · rcases List.mem_cons.mp h with rfl | h
            · exact List.mem_cons_self
            · exact List.mem_cons_of_mem d (ih h)

/-- Every occurrence takes its length away. -/
theorem exists_length_replaceFrom (hne : old ≠ []) {skip : Nat} (hskip : skip ≤ s.length) :
    ∃ k, (replaceFrom old [] skip s).length + skip + k * old.length = s.length := by
  have hpos := List.length_pos_iff.mpr hne
  induction s generalizing skip with
  | nil => exact ⟨0, by simpa [replaceFrom] using hskip⟩
  | cons c s ih =>
      cases skip with
      | succ skip =>
          rw [List.length_cons] at hskip
          obtain ⟨k, hk⟩ := @ih skip (by omega)
          exact ⟨k, by rw [replaceFrom, List.length_cons]; omega⟩
      | zero =>
          rw [replaceFrom]
          split
          · rename_i hprefix
            have hlength := hprefix.length_le
            rw [List.length_cons] at hlength
            obtain ⟨k, hk⟩ := @ih (old.length - 1) (by omega)
            refine ⟨k + 1, ?_⟩
            rw [List.nil_append, List.length_cons, Nat.add_mul]
            omega
          · obtain ⟨k, hk⟩ := @ih 0 (Nat.zero_le _)
            exact ⟨k, by rw [List.length_cons, List.length_cons]; omega⟩

theorem prefix_concat_of_notMem {c : Char} (h : c ∉ old) : old <+: s ++ [c] ↔ old <+: s := by
  rw [List.prefix_concat_iff]
  refine or_iff_right ?_
  rintro rfl
  exact h (by simp)

/-- A character behind the text that is in no occurrence stays there. -/
theorem replace_concat {c : Char} (hne : old ≠ []) (h : c ∉ old) (s : Text) :
    replace old new (s ++ [c]) = replace old new s ++ [c] := by
  have hfrom : ∀ skip ≤ s.length,
      replaceFrom old new skip (s ++ [c]) = replaceFrom old new skip s ++ [c] := by
    induction s with
    | nil =>
        intro skip hskip
        obtain rfl : skip = 0 := by simpa using hskip
        have hnot : ¬old <+: [c] := fun hprefix =>
          hne (List.prefix_nil.mp ((@prefix_concat_of_notMem old [] c h).mp hprefix))
        change replaceFrom old new 0 [c] = [c]
        rw [replaceFrom, if_neg hnot]
        rfl
    | cons d s ih =>
        intro skip hskip
        cases skip with
        | succ skip => exact ih skip (by simpa using hskip)
        | zero =>
            have hiff := @prefix_concat_of_notMem old (d :: s) c h
            rw [List.cons_append] at hiff ⊢
            rw [replaceFrom, replaceFrom]
            by_cases hprefix : old <+: d :: s
            · have hlength := hprefix.length_le
              rw [List.length_cons] at hlength
              rw [if_pos (hiff.mpr hprefix), if_pos hprefix, ih _ (by omega), List.append_assoc]
            · rw [if_neg fun hlong => hprefix (hiff.mp hlong), if_neg hprefix, ih 0 (Nat.zero_le _)]
              rfl
  exact hfrom 0 (Nat.zero_le _)

end Replace

/-! ### Numbers -/

/-- Digits, with single underscores between them. -/
def natOf (s : Text) : Option Nat :=
  if ∀ group ∈ s.splitOn '_', group ≠ [] ∧ group.all Char.isDigit = true then
    some (Nat.ofDigitChars 10 (s.splitOn '_').flatten 0)
  else none

/-- `int(s)` with ASCII digits. -/
def int (s : Text) : Option Int :=
  match strip s with
  | '-' :: rest => (natOf rest).map fun n => -n
  | '+' :: rest => (natOf rest).map fun n => n
  | rest => (natOf rest).map fun n => n

theorem natOf_toDigits (n : Nat) : natOf (Nat.toDigits 10 n) = some n := by
  have hdigit : ∀ c ∈ Nat.toDigits 10 n, c.isDigit = true :=
    fun c hc => Nat.isDigit_of_mem_toDigits (by decide) (by decide) hc
  have hsplit : (Nat.toDigits 10 n).splitOn '_' = [Nat.toDigits 10 n] :=
    List.splitOn_eq_singleton Nat.underscore_not_in_toDigits
  rw [natOf, hsplit, if_pos]
  · simp [Nat.ofDigitChars_ten_toDigits]
  · simpa [Nat.toDigits_ne_nil] using hdigit

theorem strip_toDigits (n : Nat) : strip (Nat.toDigits 10 n) = Nat.toDigits 10 n := by
  apply stripWhile_eq_self
  intro c hc
  exact isSpace_of_isDigit (Nat.isDigit_of_mem_toDigits (by decide) (by decide) hc)

theorem int_toDigits (n : Nat) : int (Nat.toDigits 10 n) = some (n : Int) := by
  have hsign : ∀ c, c.isDigit = false → ∀ rest, Nat.toDigits 10 n ≠ c :: rest := by
    intro c hc rest heq
    have hmem : c ∈ Nat.toDigits 10 n := by rw [heq]; exact List.mem_cons_self
    rw [Nat.isDigit_of_mem_toDigits (by decide) (by decide) hmem] at hc
    cases hc
  unfold int
  rw [strip_toDigits]
  split
  · rename_i rest heq
    exact absurd heq (hsign '-' (by decide) rest)
  · rename_i rest heq
    exact absurd heq (hsign '+' (by decide) rest)
  · rw [natOf_toDigits]
    rfl

/-! ### Files -/

/-- What reading makes of the ends of lines. -/
def universal : Text → Text
  | [] => []
  | '\r' :: '\n' :: s => '\n' :: universal s
  | '\r' :: s => '\n' :: universal s
  | c :: s => c :: universal s

/-- The lines of a text, with their ends. -/
def lines : Text → List Text
  | [] => []
  | c :: s =>
      if c = '\n' then ['\n'] :: lines s
      else match lines s with
        | [] => [[c]]
        | line :: rest => (c :: line) :: rest

theorem universal_of_notMem {s : Text} (h : '\r' ∉ s) : universal s = s := by
  fun_induction universal s with
  | case1 => rfl
  | case2 s ih => simp at h
  | case3 s _ ih => simp at h
  | case4 c s _ _ ih => rw [ih fun hmem => h (List.mem_cons_of_mem _ hmem)]

theorem lines_append {line : Text} (h : '\n' ∉ line) (s : Text) :
    lines (line ++ '\n' :: s) = (line ++ ['\n']) :: lines s := by
  induction line with
  | nil => simp [lines]
  | cons c line ih =>
      rw [List.mem_cons, not_or] at h
      obtain ⟨hne, hline⟩ := h
      rw [List.cons_append, lines, if_neg (Ne.symm hne), ih hline]
      rfl

/-- A file of lines is read as these lines. -/
theorem lines_flatMap {α : Type} {items : List α} {print : α → Text}
    (h : ∀ item ∈ items, '\n' ∉ print item) :
    lines (items.flatMap fun item => print item ++ ['\n']) =
      items.map fun item => print item ++ ['\n'] := by
  induction items with
  | nil => rfl
  | cons item items ih =>
      obtain ⟨hitem, hitems⟩ := List.forall_mem_cons.mp h
      rw [List.flatMap_cons, List.append_assoc, List.singleton_append, lines_append hitem,
        ih hitems, List.map_cons]

end Strings
