import PMBugRepair.Formatter.ReadBack
import PMBugRepair.Runtime.Entries
import PMBugRepair.Containers.Lists

/-!
# What the formatter finds in a line

`fileReader` decides what a row is by searching it for words. In a line whose names contain none of
them, a word is found only at the beginning.
-/

namespace PMBugRepair

open Strings (Text lit)

/-- The words that `fileReader` searches for. -/
def words : List Text :=
  [lit "Load", lit "Store", lit "FLUSH", lit "FENCE", lit "Transaction", lit "DEP"]

/-- A text without any of the words. -/
def Inert (s : Text) : Prop := ∀ word ∈ words, ¬word <:+: s

instance (s : Text) : Decidable (Inert s) := inferInstanceAs (Decidable (∀ _ ∈ _, _))

namespace Inert

variable {s t : Text} {c : Char}

theorem not_mem_word {word : Text} (hword : word ∈ words) (hc : c.isAlpha = false) : c ∉ word := by
  have hletters : ∀ word ∈ words, ∀ d ∈ word, d.isAlpha = true := by with_unfolding_all decide
  intro hmem
  rw [hletters word hword c hmem] at hc
  cases hc

theorem append_cons (hs : Inert s) (hc : c.isAlpha = false) (ht : Inert t) :
    Inert (s ++ c :: t) := by
  intro word hword hsub
  rcases Lists.infix_left_or_right hsub (not_mem_word hword hc) with h | h
  · exact hs word hword h
  · exact ht word hword h

theorem of_infix (ht : Inert t) (h : s <:+: t) : Inert s :=
  fun word hword hsub => ht word hword (hsub.trans h)

theorem take (hs : Inert s) (n : Nat) : Inert (s.take n) :=
  hs.of_infix (List.take_prefix n s).isInfix

theorem intercalate {pieces : List Text} (h : ∀ piece ∈ pieces, Inert piece) :
    Inert ([' '].intercalate pieces) := by
  induction pieces with
  | nil => with_unfolding_all decide
  | cons piece pieces ih =>
      obtain ⟨hpiece, hpieces⟩ := List.forall_mem_cons.mp h
      cases pieces with
      | nil => simpa using hpiece
      | cons next pieces =>
          have hrest := hpiece.append_cons (show ' '.isAlpha = false by decide) (ih hpieces)
          simpa using hrest

/-- Every word has a capital letter. -/
theorem of_not_upper (h : ∀ c ∈ s, c.isUpper = false) : Inert s := by
  have hupper : ∀ word ∈ words, ∃ c ∈ word, c.isUpper = true := by with_unfolding_all decide
  intro word hword hsub
  obtain ⟨c, hc, htrue⟩ := hupper word hword
  rw [h c (hsub.subset hc)] at htrue
  cases htrue

end Inert

theorem isUpper_of_isDigit {c : Char} (h : c.isDigit = true) : c.isUpper = false := by
  have hrange : 48 ≤ c.toNat ∧ c.toNat ≤ 57 := by
    simpa [Char.isDigit, UInt32.le_iff_toNat_le] using h
  unfold Char.isUpper
  simp only [decide_eq_false_iff_not, ge_iff_le, UInt32.le_iff_toNat_le]
  change ¬(65 ≤ c.toNat ∧ c.toNat ≤ 90)
  omega

theorem isUpper_of_mem_digits {n : Nat} {c : Char} (h : c ∈ digits n) : c.isUpper = false :=
  isUpper_of_isDigit (Nat.isDigit_of_mem_toDigits (by decide) (by decide) h)

theorem isUpper_of_mem_decimal {n : Int} {c : Char} (h : c ∈ decimal n) : c.isUpper = false := by
  rcases mem_decimal h with h | rfl
  · exact isUpper_of_isDigit h
  · decide

theorem isUpper_of_mem_hex {n : BitVec 64} {c : Char} (h : c ∈ hex n) : c.isUpper = false := by
  have hlower : ∀ d < 16, (Nat.digitChar d).isUpper = false := by decide
  obtain ⟨d, hd, rfl⟩ := Strings.mem_toDigits_sixteen h
  exact hlower d hd

theorem isUpper_of_mem_address {n : BitVec 64} {c : Char} (h : c ∈ lit "0x" ++ hex n) :
    c.isUpper = false := by
  have hzero : ∀ c ∈ lit "0x", c.isUpper = false := by with_unfolding_all decide
  rcases List.mem_append.mp h with h | h
  · exact hzero c h
  · exact isUpper_of_mem_hex h

theorem isUpper_of_mem_pointer {n : BitVec 64} {c : Char} (h : c ∈ pointer n) :
    c.isUpper = false := by
  have hnil : ∀ c ∈ lit "(nil)", c.isUpper = false := by with_unfolding_all decide
  unfold pointer at h
  split at h
  · exact hnil c h
  · exact isUpper_of_mem_address h

/-! ### Entries -/

namespace Entry

/-- The names of functions in a line. -/
def names : Entry → List Text
  | .event e => (e.place.map Place.scope).toList
  | .funcBegin func _ | .funcEnd func _ => [func]
  | _ => []

/-- The text in front of the first blank. -/
def tag : Entry → Text
  | .event (.adding ..) | .event (.freeing _) => lit "Adding"
  | .event (.store ..) => lit "Store:"
  | .event (.load ..) => lit "Load:"
  | .event (.dep ..) => lit "DEP:"
  | .event (.clflush ..) => lit "CLFLUSH:"
  | .event (.sfence _) => lit "SFENCE."
  | .event (.txBegins _) | .event (.txCommits _) => lit "Transaction"
  | .funcBegin .. => lit "FUNC_BEGIN_1:"
  | .funcEnd .. => lit "FUNC_END:"
  | .simuSfence | .simuFlush .. => lit "Simulated"
  | .simuTXBegin => lit "TX_BEGIN;"
  | .simuTXEnd => lit "TX_END;"
  | .simuTXAdd _ => lit "TX_ADD:"

/-- The pieces of the text behind the tag. -/
def pieces : Entry → List Text
  | .event (.adding first last) =>
      [lit "addr:", lit "0x" ++ hex first, lit "to", lit "0x" ++ hex last ++ [';'], []]
  | .event (.freeing block) => [lit "addr:", lit "0x" ++ hex block ++ [';'], []]
  | .event (.store addr size id place) | .event (.load addr size id place) =>
      [lit "0x" ++ hex addr, lit "Size:", decimal size.toInt, lit "ID:", decimal id.toInt,
        lit "@Ln,Col:", decimal place.line.toInt ++ ',' :: decimal place.col.toInt, lit "Scope:",
        place.scope ++ [';'], []]
  | .event (.dep src dest) =>
      [lit "SrcID:", decimal src.toInt, lit "DestID:", decimal dest.toInt ++ [';'], []]
  | .event (.clflush ptr size place) =>
      [pointer ptr, lit "LEN:", decimal size.toInt, lit "@Ln,Col:",
        decimal place.line.toInt ++ ',' :: decimal place.col.toInt, lit ";", lit "Scope:",
        place.scope ++ [';'], [], []]
  | .event (.sfence place) =>
      [lit "@Ln,Col:", decimal place.line.toInt ++ ',' :: decimal place.col.toInt, lit ";",
        lit "Scope:", place.scope ++ [';'], [], []]
  | .event (.txBegins place) =>
      [lit "begins.", lit "@Ln,Col:", decimal place.line.toInt ++ ',' :: decimal place.col.toInt,
        lit "Scope:", place.scope ++ [';'], []]
  | .event (.txCommits place) =>
      [lit "Commits.", lit "@Ln,Col:", decimal place.line.toInt ++ ',' :: decimal place.col.toInt,
        lit "Scope:", place.scope ++ [';'], []]
  | .funcBegin func depth | .funcEnd func depth => [func, digits depth.toNat ++ [';'], []]
  | .simuSfence => [lit "F-E-N-C-E;"]
  | .simuFlush ptr len =>
      [lit "F-L-U-S-H:", pointer ptr, lit "LEN:", decimal len.toInt ++ [';'], []]
  | .simuTXBegin | .simuTXEnd => [[]]
  | .simuTXAdd ptr => [pointer ptr ++ [';'], []]

theorem text_eq (entry : Entry) :
    entry.text = entry.tag ++ ' ' :: [' '].intercalate entry.pieces := by
  have haccess : lit "Store: 0x" = lit "Store:" ++ ' ' :: lit "0x" ∧
      lit "Load: 0x" = lit "Load:" ++ ' ' :: lit "0x" ∧
      lit "Adding addr: 0x" = lit "Adding" ++ ' ' :: (lit "addr:" ++ ' ' :: lit "0x") ∧
      lit " to 0x" = ' ' :: (lit "to" ++ ' ' :: lit "0x") := by with_unfolding_all decide
  have hfields : lit " Size: " = ' ' :: (lit "Size:" ++ [' ']) ∧
      lit " ID: " = ' ' :: (lit "ID:" ++ [' ']) ∧ lit " LEN: " = ' ' :: (lit "LEN:" ++ [' ']) ∧
      lit "@Ln,Col: " = lit "@Ln,Col:" ++ [' '] ∧
      lit " Scope: " = ' ' :: (lit "Scope:" ++ [' ']) ∧
      lit " ; Scope: " = ' ' :: (lit ";" ++ ' ' :: (lit "Scope:" ++ [' '])) ∧
      lit "; " = [';', ' '] ∧ lit ";  " = [';', ' ', ' '] := by with_unfolding_all decide
  have htags : lit "DEP: SrcID: " = lit "DEP:" ++ ' ' :: (lit "SrcID:" ++ [' ']) ∧
      lit " DestID: " = ' ' :: (lit "DestID:" ++ [' ']) ∧
      lit "CLFLUSH: " = lit "CLFLUSH:" ++ [' '] ∧ lit "SFENCE. " = lit "SFENCE." ++ [' '] ∧
      lit "Transaction begins. " = lit "Transaction" ++ ' ' :: (lit "begins." ++ [' ']) ∧
      lit "Transaction Commits. " = lit "Transaction" ++ ' ' :: (lit "Commits." ++ [' ']) := by
    with_unfolding_all decide
  have hothers : lit "FUNC_BEGIN_1: " = lit "FUNC_BEGIN_1:" ++ [' '] ∧
      lit "FUNC_END: " = lit "FUNC_END:" ++ [' '] ∧
      lit "Simulated F-E-N-C-E;" = lit "Simulated" ++ ' ' :: lit "F-E-N-C-E;" ∧
      lit "Simulated F-L-U-S-H: " = lit "Simulated" ++ ' ' :: (lit "F-L-U-S-H:" ++ [' ']) ∧
      lit "TX_BEGIN; " = lit "TX_BEGIN;" ++ [' '] ∧ lit "TX_END; " = lit "TX_END;" ++ [' '] ∧
      lit "TX_ADD: " = lit "TX_ADD:" ++ [' '] := by with_unfolding_all decide
  cases entry with
  | event e => cases e <;> simp [text, tag, pieces, Event.text, Place.position, haccess, hfields,
      htags]
  | _ => simp [text, tag, pieces, hfields, hothers]

theorem inert_pieces {entry : Entry} (h : ∀ name ∈ entry.names, Inert name) :
    ∀ piece ∈ entry.pieces, Inert piece := by
  have hnil : Inert [] := by with_unfolding_all decide
  have hlit : ∀ s ∈ [lit "addr:", lit "to", lit "Size:", lit "ID:", lit "@Ln,Col:", lit "Scope:",
      lit "SrcID:", lit "DestID:", lit "LEN:", lit ";", lit "begins.", lit "Commits.",
      lit "F-E-N-C-E;", lit "F-L-U-S-H:"], Inert s := by with_unfolding_all decide
  simp only [List.forall_mem_cons, List.not_mem_nil] at hlit
  have hend : ∀ s, Inert s → Inert (s ++ [';']) := fun s hs => hs.append_cons (by decide) hnil
  have hdec : ∀ n : Int, Inert (decimal n) :=
    fun n => Inert.of_not_upper fun c hc => isUpper_of_mem_decimal hc
  have hdigits : ∀ n : Nat, Inert (digits n) :=
    fun n => Inert.of_not_upper fun c hc => isUpper_of_mem_digits hc
  have hpos : ∀ m n : Int, Inert (decimal m ++ ',' :: decimal n) :=
    fun m n => (hdec m).append_cons (by decide) (hdec n)
  have hadd : ∀ n : BitVec 64, Inert (lit "0x" ++ hex n) :=
    fun n => Inert.of_not_upper fun c hc => isUpper_of_mem_address hc
  have hend' : ∀ n : BitVec 64, Inert (lit "0x" ++ (hex n ++ [';'])) := by
    intro n
    rw [← List.append_assoc]
    exact hend _ (hadd n)
  have hptr : ∀ n : BitVec 64, Inert (pointer n) :=
    fun n => Inert.of_not_upper fun c hc => isUpper_of_mem_pointer hc
  cases entry with
  | event e =>
      cases e <;> simp_all [pieces, names, Event.place]
  | _ => simp_all [pieces, names]

theorem length_tag (entry : Entry) : entry.tag.length ≤ 13 := by
  have hlength : (lit "Adding").length = 6 ∧ (lit "Store:").length = 6 ∧
      (lit "Load:").length = 5 ∧ (lit "DEP:").length = 4 ∧ (lit "CLFLUSH:").length = 8 ∧
      (lit "SFENCE.").length = 7 ∧ (lit "Transaction").length = 11 ∧
      (lit "FUNC_BEGIN_1:").length = 13 ∧ (lit "FUNC_END:").length = 9 ∧
      (lit "Simulated").length = 9 ∧ (lit "TX_BEGIN;").length = 9 ∧ (lit "TX_END;").length = 7 ∧
      (lit "TX_ADD:").length = 7 := by with_unfolding_all decide
  cases entry with
  | event e => cases e <;> simp [tag, hlength]
  | _ => simp [tag, hlength]

theorem entryLine_eq (tid : BitVec 64) (entry : Entry) :
    ∃ n, entryLine tid entry = entry.tag ++ ' ' :: (([' '].intercalate entry.pieces).take n ++
      lit "<Thread ID:" ++ digits tid.toNat ++ lit ">\n") := by
  have hlength := entry.length_tag
  refine ⟨1023 - (entry.tag.length + 1), ?_⟩
  rw [entryLine, text_eq, List.append_cons, List.take_append,
    List.take_of_length_le (by simp only [List.length_append, List.length_singleton]; omega)]
  simp

/-- The words are found in the tag, if anywhere. -/
theorem infix_entryLine_iff {entry : Entry} (h : ∀ name ∈ entry.names, Inert name)
    (tid : BitVec 64) {word : Text} (hword : word ∈ words) :
    word <:+: entryLine tid entry ↔ word <:+: entry.tag := by
  obtain ⟨n, hline⟩ := entryLine_eq tid entry
  have hthread : lit "<Thread ID:" = '<' :: lit "Thread ID:" := by with_unfolding_all decide
  have hrest : Inert (([' '].intercalate entry.pieces).take n ++ lit "<Thread ID:" ++
      digits tid.toNat ++ lit ">\n") := by
    have hpieces := (Inert.intercalate (inert_pieces h)).take n
    have hend : Inert (lit "Thread ID:" ++ digits tid.toNat ++ lit ">\n") := by
      have hcolon : lit "Thread ID:" = lit "Thread ID" ++ [':'] := by with_unfolding_all decide
      have hangle : lit ">\n" = '>' :: ['\n'] := by with_unfolding_all decide
      have hdigits : Inert (digits tid.toNat) :=
        Inert.of_not_upper fun c hc => isUpper_of_mem_digits hc
      have hnewline := hdigits.append_cons (show '>'.isAlpha = false by decide)
        (show Inert ['\n'] by with_unfolding_all decide)
      have hall := Inert.append_cons (show Inert (lit "Thread ID") by with_unfolding_all decide)
        (show ':'.isAlpha = false by decide) hnewline
      simpa [hcolon, hangle] using hall
    have hall := hpieces.append_cons (show '<'.isAlpha = false by decide) hend
    simpa [hthread] using hall
  rw [hline, Lists.infix_append_cons_iff (Inert.not_mem_word hword (by decide))]
  exact or_iff_left (hrest word hword)

end Entry

end PMBugRepair
