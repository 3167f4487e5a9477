import PMBugRepair.Files.Trace
import PMBugRepair.Containers.Lists

/-!
# The lines of trace files

What step 1 reads of a line of the formatter, and step 4 of a line of step 1. The readers undo
`repr` by taking quotes and blanks away, so what `repr` escapes is not recovered, and neither are
blanks at the ends of a scope, which step 1 strips after it has removed the quotes.
-/

namespace PMBugRepair

open Strings (Text lit strip stripWhile repr strList commaJoin int replace escape quoteOf Plain
  Printable)

/-- The characters that the format of a line gives a meaning to. -/
def Clean (s : Text) : Prop := ∀ c ∈ [',', '\'', '"', '[', ']', '\n'], c ∉ s

/-- `repr` puts nothing but quotes around it. -/
def Literal (printable : Char → Bool) (s : Text) : Prop :=
  ∀ c ∈ s, c ≠ '\\' ∧ Printable printable c

namespace Value

def Clean : Value → Prop
  | .text s => PMBugRepair.Clean s
  | .num _ => True

def Literal (printable : Char → Bool) : Value → Prop
  | .text s => PMBugRepair.Literal printable s
  | .num _ => True

/-- The value as step 1 keeps it, with the quotes of a string. -/
def quoted : Value → Text
  | .text s => '\'' :: (s ++ ['\''])
  | .num n => decimal n

end Value

def RowOp.code : RowOp → Nat
  | .load => 100
  | .store => 101
  | .flush => 102
  | .fence => 103
  | .txBegin => 201
  | .txCommit => 202

namespace Formatted

def Clean (stmt : Formatted) : Prop :=
  stmt.add.Clean ∧ stmt.dep.Clean ∧ PMBugRepair.Clean stmt.scope

def Literal (printable : Char → Bool) (stmt : Formatted) : Prop :=
  stmt.add.Literal printable ∧ stmt.dep.Literal printable ∧
    PMBugRepair.Literal printable stmt.scope ∧ strip stmt.scope = stmt.scope

/-- The statement in step 1. -/
def row (stmt : Formatted) (index : Nat) : Row :=
  { index := index, op := some stmt.op.code, add := stmt.add.quoted, dep := .text stmt.dep.quoted,
    tid := stmt.tid, scope := stmt.scope }

end Formatted

/-- A text of step 1 without its quotes. -/
def unquoted (s : Text) : Text := s.filter (· ≠ '\'')

def Value.unquoted : Value → Text
  | .text s => PMBugRepair.unquoted s
  | .num n => decimal n

/-- The statement in step 4. -/
def Row.read (row : Row) (index : Nat) : ReadRow :=
  { index := index, op := (row.op.getD 0 : Nat), add := unquoted row.add,
    dep := row.dep.unquoted, tid := decimal row.tid, scope := row.scope }

/-! ### Printed texts -/

section Texts

variable {printable : Char → Bool} {s : Text} {c : Char}

theorem Clean.quoteOf (h : Clean s) : quoteOf s = '\'' := by
  rw [Strings.quoteOf, if_neg]
  exact fun hquote => h '\'' (by simp) hquote.1

/-- The text between the quotes. -/
def escaped (printable : Char → Bool) (s : Text) : Text := s.flatMap (escape printable '\'')

theorem Clean.repr (h : Clean s) :
    repr printable s = '\'' :: (escaped printable s ++ ['\'']) := by
  rw [Strings.repr, h.quoteOf, escaped]

theorem Clean.not_mem_escaped (h : Clean s) (hc : c ∈ [',', '\'', '"', '[', ']', '\n']) :
    c ∉ escaped printable s := by
  have hother : c ≠ '\\' ∧ c.isAlphanum = false := by
    revert c
    decide
  exact Strings.not_mem_escaped (h c hc) hother.1 hother.2

theorem not_mem_escaped_return : '\r' ∉ escaped printable s := by
  intro hmem
  obtain ⟨c, hc, hmem⟩ := List.mem_flatMap.mp hmem
  rcases Strings.mem_escape hmem with ⟨hplain, rfl⟩ | ⟨hc | hc, rfl⟩ | hc | hc
  · exact absurd hplain.2.2 (by simp [Printable])
  · exact absurd hc (by decide)
  · exact absurd hc (by decide)
  · exact absurd hc (by decide)
  · exact absurd hc (by decide)

theorem Clean.escaped_eq_self_iff (h : Clean s) :
    escaped printable s = s ↔ Literal printable s := by
  rw [escaped, Strings.escaped_eq_self_iff]
  refine forall₂_congr fun c hc => ?_
  have hquote : c ≠ '\'' := fun heq => h '\'' (by simp) (heq ▸ hc)
  simp [Plain, hquote]

theorem isSpace_of_mem_escape {d : Char} (hc : Strings.isSpace c = false)
    (hd : d ∈ escape printable '\'' c) : Strings.isSpace d = false := by
  rcases Strings.mem_escape hd with ⟨-, rfl⟩ | ⟨-, rfl⟩ | rfl | hd
  · exact hc
  · exact hc
  · decide
  · exact Strings.isSpace_of_isAlphanum hd

theorem escape_ne_nil : escape printable '\'' c ≠ [] := by
  by_cases hplain : Plain printable '\'' c
  · simp [Strings.escape_of_plain hplain]
  · obtain ⟨tail, -, heq, -⟩ := Strings.escape_of_not_plain hplain
    simp [heq]

theorem strip_escaped (hhead : ∀ c, s.head? = some c → Strings.isSpace c = false)
    (hlast : ∀ c, s.getLast? = some c → Strings.isSpace c = false) :
    strip (escaped printable s) = escaped printable s := by
  apply Strings.stripWhile_eq_self_of_ends
  · intro d hd
    cases s with
    | nil => cases hd
    | cons c s =>
        rw [escaped, List.flatMap_cons, List.head?_append_of_ne_nil _ escape_ne_nil] at hd
        exact isSpace_of_mem_escape (hhead c rfl) (List.mem_of_head? hd)
  · intro d hd
    rcases List.eq_nil_or_concat' s with rfl | ⟨init, c, rfl⟩
    · cases hd
    · rw [escaped, List.flatMap_append, List.flatMap_singleton,
        List.getLast?_append_of_ne_nil _ escape_ne_nil] at hd
      exact isSpace_of_mem_escape (hlast c (by simp)) (List.mem_of_getLast? hd)

/-- Stripping gives the text back only if nothing was escaped and nothing is stripped. -/
theorem Clean.strip_escaped_eq_iff (h : Clean s) :
    strip (escaped printable s) = s ↔ Literal printable s ∧ strip s = s := by
  constructor
  · intro hstrip
    obtain ⟨hhead, hlast⟩ := Strings.stripWhile_ends Strings.isSpace (escaped printable s)
    rw [show stripWhile Strings.isSpace (escaped printable s) = s from hstrip] at hhead hlast
    exact ⟨h.escaped_eq_self_iff.mp ((strip_escaped hhead hlast).symm.trans hstrip),
      Strings.stripWhile_eq_self_of_ends hhead hlast⟩
  · rintro ⟨hliteral, hstrip⟩
    rw [h.escaped_eq_self_iff.mpr hliteral, hstrip]

end Texts

/-! ### Values -/

section Values

variable {printable : Char → Bool} {v : Value} {c : Char}

theorem not_mem_decimal_of_mark {n : Int} (hc : c ∈ [',', '\'', '"', '[', ']', '\n', '\r']) :
    c ∉ decimal n := by
  have hother : c.isDigit = false ∧ c ≠ '-' := by
    revert c
    decide
  exact not_mem_decimal hother.1 hother.2

theorem isSpace_of_mem_decimal {n : Int} (hc : c ∈ decimal n) : Strings.isSpace c = false := by
  rcases mem_decimal hc with hc | rfl
  · exact Strings.isSpace_of_isDigit hc
  · decide

theorem strip_quoted (s : Text) : strip ('\'' :: (s ++ ['\''])) = '\'' :: (s ++ ['\'']) := by
  apply Strings.stripWhile_eq_self_of_ends
  · intro c hc
    obtain rfl : c = '\'' := by simpa using hc.symm
    decide
  · intro c hc
    obtain rfl : c = '\'' := by
      simpa [List.getLast?_cons, List.getLast?_append] using hc.symm
    decide

theorem Value.Clean.not_mem_repr (h : v.Clean) (hc : c ∈ [',', '"', '[', ']', '\n', '\r']) :
    c ∉ v.repr printable := by
  cases v with
  | num n =>
      apply not_mem_decimal_of_mark
      simp only [List.mem_cons, List.not_mem_nil, or_false] at hc ⊢
      tauto
  | text s =>
      have hquote : c ≠ '\'' := by
        revert c
        decide
      rw [Value.repr, PMBugRepair.Clean.repr h]
      simp only [List.mem_cons, List.mem_append, List.not_mem_nil, or_false, not_or]
      refine ⟨hquote, ?_, hquote⟩
      by_cases hreturn : c = '\r'
      · rw [hreturn]
        exact not_mem_escaped_return
      · apply PMBugRepair.Clean.not_mem_escaped h
        simp only [List.mem_cons, List.not_mem_nil, or_false] at hc ⊢
        tauto

theorem Value.Clean.strip_repr (h : v.Clean) : strip (v.repr printable) = v.repr printable := by
  cases v with
  | num n => exact Strings.stripWhile_eq_self fun c hc => isSpace_of_mem_decimal hc
  | text s =>
      rw [Value.repr, PMBugRepair.Clean.repr h, strip_quoted]

theorem Value.Clean.repr_eq_quoted_iff (h : v.Clean) :
    v.repr printable = v.quoted ↔ v.Literal printable := by
  cases v with
  | num n => simp [Value.repr, Value.quoted, Value.Literal]
  | text s =>
      rw [Value.repr, PMBugRepair.Clean.repr h, Value.quoted, List.cons.injEq,
        List.append_left_inj, PMBugRepair.Clean.escaped_eq_self_iff h]
      simp [Value.Literal]

end Values

/-! ### Lines -/

section Lines

variable {item : Text} {items : List Text}

/-- Nothing in the items interferes with the brackets, the commas and the end of the line. -/
def Fields (items : List Text) : Prop :=
  ∀ item ∈ items, ∀ c ∈ [',', '[', ']', '\n', '\r'], c ∉ item

theorem Fields.not_mem_strList {c : Char} (h : Fields items) (hc : c ∈ ['\n', '\r']) :
    c ∉ strList items := by
  have hother : c ≠ '[' ∧ c ≠ ']' ∧ c ≠ ',' ∧ c ≠ ' ' ∧ c ∈ [',', '[', ']', '\n', '\r'] := by
    revert c
    decide
  intro hmem
  simp only [strList, List.mem_cons, List.mem_append, List.not_mem_nil, or_false] at hmem
  rcases hmem with rfl | hmem | rfl
  · exact hother.1 rfl
  · rcases Strings.mem_commaJoin hmem with rfl | rfl | ⟨item, hitem, hmem⟩
    · exact hother.2.2.1 rfl
    · exact hother.2.2.2.1 rfl
    · exact h item hitem c hother.2.2.2.2 hmem
  · exact hother.2.1 rfl

theorem Fields.stripLine (h : Fields items) :
    stripLine (strList items ++ ['\n']) = commaJoin items := by
  rw [PMBugRepair.stripLine, strList, List.cons_append, Strings.stripWhile_cons (by decide),
    Strings.stripWhile_append_right (by decide), Strings.stripWhile_append_right (by decide)]
  apply Strings.stripWhile_eq_self
  intro c hc
  simp only [decide_eq_false_iff_not, not_or]
  rcases Strings.mem_commaJoin hc with rfl | rfl | ⟨item, hitem, hc⟩
  · decide
  · decide
  · refine ⟨?_, ?_, ?_⟩ <;>
      · rintro rfl
        exact h item hitem _ (by decide) hc

theorem Fields.elements (h : Fields (item :: items)) :
    (PMBugRepair.stripLine (strList (item :: items) ++ ['\n'])).splitOn ',' =
      item :: items.map (' ' :: ·) := by
  rw [h.stripLine, Strings.splitOn_commaJoin fun x hx => h x hx ',' (by simp)]

theorem Fields.unquoted_elements (h : Fields (item :: items)) :
    ((PMBugRepair.stripLine (strList (item :: items) ++ ['\n'])).filter (· ≠ '"')).splitOn ',' =
      (item :: items.map (' ' :: ·)).map (·.filter (· ≠ '"')) := by
  have hjoin : ∀ items : List Text, (commaJoin items).filter (· ≠ '"') =
      commaJoin (items.map (·.filter (· ≠ '"'))) := by
    intro items
    fun_induction commaJoin items with
    | case1 => rfl
    | case2 item => rfl
    | case3 item next rest ih => simp_all [commaJoin]
  rw [h.stripLine, hjoin, List.map_cons, Strings.splitOn_commaJoin]
  · simp
  · intro x hx
    rw [← List.map_cons] at hx
    obtain ⟨y, hy, rfl⟩ := List.mem_map.mp hx
    exact fun hc => h y hy ',' (by simp) (List.mem_of_mem_filter hc)

end Lines

/-! ### Step 1 reads a line -/

section Step1Line

variable {printable : Char → Bool} {stmt : Formatted} {index : Nat}

theorem RowOp.repr_name (op : RowOp) :
    repr printable op.name = '\'' :: (op.name ++ ['\'']) := by
  have hclean : Clean op.name := by
    unfold Clean
    cases op <;> with_unfolding_all decide
  have hascii : ∀ c ∈ op.name, c ≠ '\\' ∧ 32 ≤ c.toNat ∧ c.toNat < 127 := by
    cases op <;> with_unfolding_all decide
  have hliteral : Literal printable op.name := fun c hc => ⟨(hascii c hc).1, .inl (hascii c hc).2⟩
  rw [hclean.repr, hclean.escaped_eq_self_iff.mpr hliteral]

theorem RowOp.opcodeOf_name (op : RowOp) :
    opcodeOf ('\'' :: (op.name ++ ['\''])) = some op.code := by
  cases op <;> with_unfolding_all decide

theorem RowOp.not_mem_name (op : RowOp) {c : Char} (hc : c ∈ [',', '[', ']', '\n', '\r']) :
    c ∉ '\'' :: (op.name ++ ['\'']) := by
  revert c
  cases op <;> with_unfolding_all decide

theorem not_mem_digits_of_mark {n : Nat} {c : Char}
    (hc : c ∈ [',', '\'', '"', '[', ']', '\n', '\r']) : c ∉ digits n :=
  @not_mem_decimal_of_mark c (n : Int) hc

theorem Formatted.Clean.fields (h : stmt.Clean) :
    Fields [repr printable stmt.op.name, stmt.add.repr printable, stmt.dep.repr printable,
      digits stmt.tid, repr printable stmt.scope] := by
  obtain ⟨hadd, hdep, hscope⟩ := h
  have hmark : ∀ c ∈ [',', '[', ']', '\n', '\r'], c ∈ [',', '"', '[', ']', '\n', '\r'] := by decide
  intro item hitem c hc
  simp only [List.mem_cons, List.not_mem_nil, or_false] at hitem
  rcases hitem with rfl | rfl | rfl | rfl | rfl
  · rw [RowOp.repr_name]
    exact stmt.op.not_mem_name hc
  · exact hadd.not_mem_repr (hmark c hc)
  · exact hdep.not_mem_repr (hmark c hc)
  · apply not_mem_digits_of_mark
    revert c
    decide
  · exact @Value.Clean.not_mem_repr printable (.text stmt.scope) c hscope (hmark c hc)

theorem strip_cons_blank (s : Text) : strip (' ' :: s) = strip s :=
  Strings.stripWhile_cons (by decide)

theorem int_strip_digits (n : Nat) : int (strip (' ' :: digits n)) = some (n : Int) := by
  rw [strip_cons_blank, digits, Strings.strip_toDigits, Strings.int_toDigits]

/-- What step 1 makes of a line of the formatter. -/
def Formatted.readRow (printable : Char → Bool) (stmt : Formatted) (index : Nat) : Row :=
  { index := index, op := some stmt.op.code, add := stmt.add.repr printable,
    dep := .text (stmt.dep.repr printable), tid := stmt.tid,
    scope := strip (escaped printable stmt.scope) }

theorem Clean.filter_repr {s : Text} (h : Clean s) :
    strip ((' ' :: Strings.repr printable s).filter fun c => c ≠ '\'' ∧ c ≠ '\n') =
      strip (escaped printable s) := by
  have hkept : (escaped printable s).filter (fun c => c ≠ '\'' ∧ c ≠ '\n') =
      escaped printable s := by
    apply List.filter_eq_self.mpr
    intro c hc
    have hquote := @Clean.not_mem_escaped printable s '\'' h (by simp)
    have hnewline := @Clean.not_mem_escaped printable s '\n' h (by simp)
    simpa using ⟨ne_of_mem_of_not_mem hc hquote, ne_of_mem_of_not_mem hc hnewline⟩
  rw [h.repr, List.filter_cons_of_pos (by decide), List.filter_cons_of_neg (by decide),
    List.filter_append, hkept, strip_cons_blank]
  simp

theorem Formatted.Clean.parseTraceHelper (h : stmt.Clean) :
    Step1.parseTraceHelper ((stripLine (stmt.str printable ++ ['\n'])).splitOn ',') index =
      some (stmt.readRow printable index) := by
  obtain ⟨hadd, hdep, hscope⟩ := h
  rw [Formatted.str, Fields.elements (Formatted.Clean.fields ⟨hadd, hdep, hscope⟩)]
  simp only [Step1.parseTraceHelper, List.map_cons, List.map_nil, List.getElem?_cons_zero,
    List.getElem?_cons_succ, Option.bind_eq_bind, Option.bind_some, int_strip_digits,
    Option.pure_def, Option.some.injEq]
  rw [RowOp.repr_name, RowOp.opcodeOf_name, strip_cons_blank, hadd.strip_repr, strip_cons_blank,
    hdep.strip_repr, hscope.filter_repr]
  rfl

/-- A line is recovered if nothing was escaped and the scope has no blanks at its ends. -/
theorem Formatted.Clean.readRow_eq_row_iff (h : stmt.Clean) :
    stmt.readRow printable index = stmt.row index ↔ stmt.Literal printable := by
  obtain ⟨hadd, hdep, hscope⟩ := h
  rw [Formatted.readRow, Formatted.row, Row.mk.injEq, Value.text.injEq, hadd.repr_eq_quoted_iff,
    hdep.repr_eq_quoted_iff, hscope.strip_escaped_eq_iff, Formatted.Literal]
  tauto

end Step1Line

/-! ### Step 4 reads a line -/

/-- A text of step 1 that `repr` prints as it is, up to the quotes around it. -/
def Readable (printable : Char → Bool) (s : Text) : Prop :=
  (∀ c ∈ [',', '"', '[', ']', '\n'], c ∉ s) ∧ Literal printable s ∧ strip s = s

namespace Readable

variable {printable : Char → Bool} {s : Text}

theorem repr (h : Readable printable s) :
    repr printable s = quoteOf s :: (s ++ [quoteOf s]) := by
  obtain ⟨hmark, hliteral, -⟩ := h
  rw [Strings.repr, Strings.escaped_eq_self_iff.mpr]
  intro c hc
  refine ⟨?_, hliteral c hc⟩
  rintro rfl
  have hdouble : '"' ∉ s := hmark '"' (by simp)
  by_cases hquote : '\'' ∈ s
  · rw [quoteOf, if_pos ⟨hquote, hdouble⟩] at hc
    exact hdouble hc
  · rw [quoteOf, if_neg fun hboth => hquote hboth.1] at hc
    exact hquote hc

theorem quoteOf_eq (s : Text) : quoteOf s = '"' ∨ quoteOf s = '\'' := by
  unfold Strings.quoteOf
  split
  · exact .inl rfl
  · exact .inr rfl

theorem not_mem_repr (h : Readable printable s) {c : Char}
    (hc : c ∈ [',', '[', ']', '\n', '\r']) : c ∉ Strings.repr printable s := by
  have hquote : c ≠ quoteOf s := by
    rcases quoteOf_eq s with heq | heq
    all_goals
      rw [heq]
      revert c
      decide
  have hmem : c ∉ s := by
    by_cases hreturn : c = '\r'
    · subst hreturn
      exact fun hmem => absurd (h.2.1 _ hmem).2 (by simp [Printable])
    · apply h.1
      simp only [List.mem_cons, List.not_mem_nil, or_false] at hc ⊢
      tauto
  rw [h.repr]
  simp [hquote, hmem]

/-- The single quotes that are left once the double quotes are gone do not matter. -/
theorem filter_repr (h : Readable printable s) :
    ((Strings.repr printable s).filter (· ≠ '"')) = s ∨
      ((Strings.repr printable s).filter (· ≠ '"')) = '\'' :: (s ++ ['\'']) := by
  have hself : s.filter (· ≠ '"') = s := by
    apply List.filter_eq_self.mpr
    intro c hc
    simpa using ne_of_mem_of_not_mem hc (h.1 '"' (by simp))
  rw [h.repr]
  rcases quoteOf_eq s with hquote | hquote
  · refine .inl ?_
    rw [hquote, List.filter_cons_of_neg (by decide), List.filter_append, hself]
    simp
  · refine .inr ?_
    rw [hquote, List.filter_cons_of_pos (by decide), List.filter_append, hself]
    simp

theorem field (h : Readable printable s) :
    (strip (' ' :: (Strings.repr printable s).filter (· ≠ '"'))).filter (· ≠ '\'') =
      unquoted s := by
  rw [strip_cons_blank]
  rcases h.filter_repr with heq | heq
  · rw [heq, h.2.2, unquoted]
  · rw [heq, strip_quoted, List.filter_cons_of_neg (by decide), List.filter_append]
    simp [unquoted]

theorem scope (h : Readable printable s) (hquote : '\'' ∉ s) :
    strip ((' ' :: (Strings.repr printable s).filter (· ≠ '"')).filter (· ≠ '\'')) = s := by
  have hself : s.filter (· ≠ '\'') = s := by
    apply List.filter_eq_self.mpr
    intro c hc
    simpa using ne_of_mem_of_not_mem hc hquote
  rw [List.filter_cons_of_pos (by decide), strip_cons_blank]
  rcases h.filter_repr with heq | heq
  · rw [heq, hself, h.2.2]
  · rw [heq, List.filter_cons_of_neg (by decide), List.filter_append, hself]
    simpa using h.2.2

end Readable

def Value.Readable (printable : Char → Bool) : Value → Prop
  | .text s => PMBugRepair.Readable printable s
  | .num _ => True

/-- A statement of step 1 that step 4 reads as it is. -/
structure Row.Readable (printable : Char → Bool) (row : Row) : Prop where
  op : row.op.isSome
  add : PMBugRepair.Readable printable row.add
  dep : row.dep.Readable printable
  scope : PMBugRepair.Readable printable row.scope
  quote : '\'' ∉ row.scope

section Step4Line

variable {printable : Char → Bool} {row : Row} {stmt : Formatted} {index : Nat}

theorem Row.Readable.fields (h : row.Readable printable) :
    Fields ((row.op.map digits).toList ++ [Strings.repr printable row.add,
      row.dep.repr printable, decimal row.tid, Strings.repr printable row.scope]) := by
  intro item hitem c hc
  have hmark : c ∈ [',', '\'', '"', '[', ']', '\n', '\r'] := by
    revert c
    decide
  simp only [List.mem_append, Option.mem_toList, Option.map_eq_some_iff, List.mem_cons,
    List.not_mem_nil, or_false] at hitem
  rcases hitem with ⟨n, -, rfl⟩ | rfl | rfl | rfl | rfl
  · exact not_mem_digits_of_mark hmark
  · exact h.add.not_mem_repr hc
  · cases hdep : row.dep with
    | num n => exact not_mem_decimal_of_mark hmark
    | text s =>
        have hs := h.dep
        rw [hdep] at hs
        exact PMBugRepair.Readable.not_mem_repr hs hc
  · exact not_mem_decimal_of_mark hmark
  · exact h.scope.not_mem_repr hc

theorem filter_decimal {n : Int} {c : Char} (hc : c ∈ [',', '\'', '"', '[', ']', '\n', '\r']) :
    (decimal n).filter (· ≠ c) = decimal n := by
  apply List.filter_eq_self.mpr
  intro d hd
  simpa using ne_of_mem_of_not_mem hd (not_mem_decimal_of_mark hc)

theorem strip_decimal (n : Int) : strip (decimal n) = decimal n :=
  Strings.stripWhile_eq_self fun _ hc => isSpace_of_mem_decimal hc

theorem Value.Readable.field {v : Value} (h : v.Readable printable) :
    (strip (' ' :: (v.repr printable).filter (· ≠ '"'))).filter (· ≠ '\'') = v.unquoted := by
  cases v with
  | text s => exact PMBugRepair.Readable.field h
  | num n =>
      rw [Value.repr, filter_decimal (by simp), strip_cons_blank, strip_decimal,
        filter_decimal (by simp), Value.unquoted]

theorem Row.Readable.parseTraceHelper (h : row.Readable printable) :
    Step4.parseTraceHelper
        (((stripLine (row.str printable ++ ['\n'])).filter (· ≠ '"')).splitOn ',') index =
      some (row.read index) := by
  have hfields := h.fields
  obtain ⟨hop, hadd, hdep, hscope, hquote⟩ := h
  obtain ⟨op, heq⟩ := Option.isSome_iff_exists.mp hop
  rw [heq] at hfields
  have hcode : int (strip ((digits op).filter (· ≠ '"'))) = some (op : Int) := by
    rw [show digits op = decimal op from rfl, filter_decimal (by simp), strip_decimal]
    exact Strings.int_toDigits op
  rw [Row.str, heq]
  simp only [Option.map_some, Option.toList_some, List.singleton_append] at hfields ⊢
  rw [Fields.unquoted_elements hfields]
  simp only [Step4.parseTraceHelper, List.map_cons, List.map_nil, List.getElem?_cons_zero,
    List.getElem?_cons_succ, Option.bind_eq_bind, Option.bind_some, hcode, Option.pure_def,
    Option.some.injEq]
  rw [List.filter_cons_of_pos (by decide), List.filter_cons_of_pos (by decide),
    List.filter_cons_of_pos (by decide), List.filter_cons_of_pos (by decide), hadd.field,
    hdep.field, filter_decimal (by simp), strip_cons_blank, strip_decimal,
    hscope.scope hquote, Row.read, heq]
  rfl

theorem Value.Literal.readable {v : Value} (hclean : v.Clean) (h : v.Literal printable) :
    PMBugRepair.Readable printable v.quoted := by
  cases v with
  | num n =>
      refine ⟨fun c hc => not_mem_decimal_of_mark ?_, fun c hc => ?_, strip_decimal n⟩
      · revert c
        decide
      · rcases mem_decimal hc with hdigit | rfl
        · have hrange : 48 ≤ c.toNat ∧ c.toNat ≤ 57 := by
            simpa [Char.isDigit, UInt32.le_iff_toNat_le] using hdigit
          refine ⟨?_, .inl ⟨by omega, by omega⟩⟩
          rintro rfl
          exact absurd hdigit (by decide)
        · exact ⟨by decide, .inl (by decide)⟩
  | text s =>
      refine ⟨fun c hc => ?_, fun c hc => ?_, strip_quoted s⟩
      · have hquote : c ≠ '\'' ∧ c ∈ [',', '\'', '"', '[', ']', '\n'] := by
          revert c
          decide
        simp [Value.quoted, hquote.1, hclean c hquote.2]
      · simp only [Value.quoted, List.mem_cons, List.mem_append, List.not_mem_nil, or_false] at hc
        rcases hc with rfl | hc | rfl
        · exact ⟨by decide, .inl (by decide)⟩
        · exact h c hc
        · exact ⟨by decide, .inl (by decide)⟩

theorem Formatted.Literal.readable_scope (hclean : PMBugRepair.Clean stmt.scope)
    (h : stmt.Literal printable) :
    PMBugRepair.Readable printable stmt.scope ∧
      PMBugRepair.Readable printable (stmt.scope ++ lit "_x") ∧
        '\'' ∉ stmt.scope ∧ '\'' ∉ stmt.scope ++ lit "_x" := by
  obtain ⟨-, -, hliteral, hstrip⟩ := h
  have hmark : ∀ c ∈ [',', '"', '[', ']', '\n'], c ∈ [',', '\'', '"', '[', ']', '\n'] := by decide
  have hsuffix : ∀ c ∈ lit "_x", (c ≠ '\\' ∧ 32 ≤ c.toNat ∧ c.toNat < 127) ∧
      Strings.isSpace c = false ∧ c ∉ [',', '\'', '"', '[', ']', '\n'] := by
        with_unfolding_all decide
  have hlast : (lit "_x").getLast? = some 'x' ∧ (lit "_x").head? = some '_' := by
    with_unfolding_all decide
  obtain ⟨hfront, -⟩ := Strings.stripWhile_ends Strings.isSpace stmt.scope
  rw [show stripWhile Strings.isSpace stmt.scope = stmt.scope from hstrip] at hfront
  have hquote : '\'' ∉ stmt.scope := hclean '\'' (by simp)
  refine ⟨⟨fun c hc => hclean c (hmark c hc), hliteral, hstrip⟩, ⟨?_, ?_, ?_⟩, hquote, ?_⟩
  · intro c hc hmem
    rcases List.mem_append.mp hmem with hmem | hmem
    · exact hclean c (hmark c hc) hmem
    · exact (hsuffix c hmem).2.2 (hmark c hc)
  · intro c hmem
    rcases List.mem_append.mp hmem with hmem | hmem
    · exact hliteral c hmem
    · exact ⟨(hsuffix c hmem).1.1, .inl (hsuffix c hmem).1.2⟩
  · apply Strings.stripWhile_eq_self_of_ends
    · intro c hc
      rw [List.head?_append, hlast.2, Option.or_eq_some_iff] at hc
      rcases hc with hc | ⟨-, hc⟩
      · exact hfront c hc
      · cases hc
        decide
    · intro c hc
      rw [List.getLast?_append, hlast.1] at hc
      cases hc
      decide
  · intro hmem
    rcases List.mem_append.mp hmem with hmem | hmem
    · exact hquote hmem
    · exact (hsuffix _ hmem).2.2 (by simp)

theorem Formatted.Literal.readable (hclean : stmt.Clean) (h : stmt.Literal printable) (k : Nat) :
    (stmt.row k).Readable printable ∧ (stmt.row k).flush.Readable printable ∧
      (stmt.row k).fence.Readable printable := by
  have hadd := Value.Literal.readable hclean.1 h.1
  have hdep := Value.Literal.readable hclean.2.1 h.2.1
  have hzero : PMBugRepair.Readable printable (lit "0") := by
    refine ⟨by with_unfolding_all decide, ?_, by with_unfolding_all decide⟩
    have hascii : ∀ c ∈ lit "0", c ≠ '\\' ∧ 32 ≤ c.toNat ∧ c.toNat < 127 := by
      with_unfolding_all decide
    exact fun c hc => ⟨(hascii c hc).1, .inl (hascii c hc).2⟩
  obtain ⟨hscope, hinserted, hquote, hquote'⟩ := Formatted.Literal.readable_scope hclean.2.2 h
  exact ⟨⟨rfl, hadd, hdep, hscope, hquote⟩, ⟨rfl, hadd, trivial, hinserted, hquote'⟩,
    ⟨rfl, hzero, trivial, hinserted, hquote'⟩⟩

end Step4Line

end PMBugRepair
