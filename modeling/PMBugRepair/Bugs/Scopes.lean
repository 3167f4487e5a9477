import PMBugRepair.Bugs.Lines
import PMBugRepair.Containers.Lists
import PMBugRepair.Formatter.Rows

/-!
# The relevance filter

`readScopes` collects the functions that a bug file names, `getRelevantTrace` keeps the statements
of these functions. Every kind of line is decoded in its own way, and the kind is found by searching
the line for its name. `none` is an `IndexError`.
-/

namespace PMBugRepair

open Strings (Text lit strip replace)

/-- `'_'.join(str(x) for x in pieces).strip()`. -/
def joined (pieces : List Text) : Text := strip (['_'].intercalate pieces)

/-- The loop body of `readScopes`. -/
def lineScopes (line : Text) : Option (List Text) :=
  if lit "DURA" <:+: line then
    some [joined ((replace (lit "DURA:[ pt_") [] line).splitOn '_').dropLast]
  else if lit "MPB" <:+: line then do
    let bug := ((replace (lit "MPB: [pt_") [] line).filter (· ≠ ']')).splitOn ';'
    let first ← bug[0]?
    let second ← bug[1]?
    return [joined (first.splitOn '_').dropLast, joined ((second.splitOn '_').dropLast.drop 1)]
  else if lit "MPA" <:+: line then do
    let bug := ((replace (lit "MPA: [pc_") [] line).filter (· ≠ ']')).splitOn ';'
    let first ← bug[0]?
    let second ← bug[1]?
    return [joined (first.splitOn '_').dropLast, joined (second.splitOn '_').dropLast]
  else some []

def readScopes (file : Text) : Option (List Text) := do
  let scopes ← (Strings.lines (Strings.universal file)).mapM lineScopes
  return scopes.flatten

/-- The function of a statement. -/
def functionOf (scope : Text) : Text := joined (scope.splitOn '_').dropLast

/-- The trace and the two bug files. -/
def getRelevantTrace (trace : List RowStmt) (file₁ file₂ : Text) : Option (List RowStmt) := do
  let bugs ← readScopes file₁
  let more ← readScopes file₂
  return trace.filter fun stmt => functionOf stmt.scope ∈ bugs ++ more

/-! ### Functions -/

/-- A scope without its line. -/
def functionName (scope : Text) : Text := ((scope.reverse.dropWhile (· ≠ '_')).drop 1).reverse

theorem functionName_append {left right : Text} (h : '_' ∉ right) :
    functionName (left ++ '_' :: right) = left := by
  have hdrop : right.reverse.dropWhile (· ≠ '_') = [] := by
    apply List.dropWhile_eq_nil_iff.mpr
    intro c hc
    simpa using ne_of_mem_of_not_mem (List.mem_reverse.mp hc) h
  rw [functionName, List.reverse_append, List.reverse_cons, List.append_assoc,
    List.dropWhile_append, hdrop]
  simp

theorem joined_dropLast {left right : Text} (h : '_' ∉ right)
    (hleft : ∀ c ∈ left, Strings.isSpace c = false) :
    joined ((left ++ '_' :: right).splitOn '_').dropLast = left := by
  rw [joined, Strings.intercalate_dropLast_splitOn left h]
  exact Strings.stripWhile_eq_self hleft

theorem functionOf_eq {scope : Text} (h : ∀ c ∈ scope, Strings.isSpace c = false) :
    functionOf scope = functionName scope := by
  by_cases hsep : '_' ∈ scope
  · obtain ⟨left, right, rfl, hright⟩ := Strings.exists_last_sep hsep
    rw [functionOf, functionName_append hright,
      joined_dropLast hright fun c hc => h c (List.mem_append_left _ hc)]
  · have hdrop : scope.reverse.dropWhile (· ≠ '_') = [] := by
      apply List.dropWhile_eq_nil_iff.mpr
      intro c hc
      simpa using ne_of_mem_of_not_mem (List.mem_reverse.mp hc) hsep
    rw [functionOf, functionName, hdrop, List.splitOn_eq_singleton hsep]
    rfl

/-! ### Lines -/

section Decode

variable {s t site : Site}

theorem Site.not_mem_scope {c : Char} (hc : c ∈ ['[', ']', ';', ' ', '\n', '\r']) :
    c ∉ site.scope := by
  have hother : c ≠ '_' ∧ c.isDigit = false ∧
      (c ∈ ['[', ']', ';'] ∨ Strings.isSpace c = true) := by
    revert c
    decide
  intro hmem
  rcases List.mem_append.mp hmem with hmem | hmem
  · obtain ⟨hspace, hmark⟩ := site.legal c hmem
    rcases hother.2.2 with hc | hc
    · exact hmark hc
    · rw [hspace] at hc
      cases hc
  · rcases List.mem_cons.mp hmem with rfl | hmem
    · exact hother.1 rfl
    · have hdigit := Nat.isDigit_of_mem_toDigits (by decide) (by decide) hmem
      rw [hother.2.1] at hdigit
      cases hdigit

theorem Site.isSpace_of_mem_scope {c : Char} (hc : c ∈ site.scope) : Strings.isSpace c = false := by
  rcases List.mem_append.mp hc with hc | hc
  · exact (site.legal c hc).1
  · rcases List.mem_cons.mp hc with rfl | hc
    · decide
    · exact Strings.isSpace_of_isDigit (Nat.isDigit_of_mem_toDigits (by decide) (by decide) hc)

/-- A line with two scopes, cut where the functions begin and end. -/
def pairText (head kind : Text) (s t : Site) : Text :=
  head ++ '_' :: (s.scope ++ ';' :: ' ' :: (kind ++ '_' :: (t.scope ++ [']', '\n'])))

theorem mpbLine_eq : mpbLine s.scope t.scope ++ ['\n'] =
    pairText (lit "MPB: [pt") (lit "pt") s t := by
  have hhead : lit "MPB: [pt_" = lit "MPB: [pt" ++ ['_'] := by with_unfolding_all decide
  have hmiddle : lit "; pt_" = ';' :: ' ' :: (lit "pt" ++ ['_']) := by with_unfolding_all decide
  rw [mpbLine, pairText, hhead, hmiddle]
  simp

theorem mpaLine_eq : mpaLine s.scope t.scope ++ ['\n'] =
    pairText (lit "MPA: [pc") (lit "pc") s t := by
  have hhead : lit "MPA: [pc_" = lit "MPA: [pc" ++ ['_'] := by with_unfolding_all decide
  have hmiddle : lit "; pc_" = ';' :: ' ' :: (lit "pc" ++ ['_']) := by with_unfolding_all decide
  rw [mpaLine, pairText, hhead, hmiddle]
  simp

/-- A word with a character that is no mark is found at the beginning of the line or in a
function. -/
theorem infix_pairText_iff {word head kind : Text} {c : Char} (hc : c ∈ word)
    (hmarks : c ∉ [';', ' ', ']', '\n'] ∧ c.isDigit = false) (hsep : '_' ∉ word)
    (hkind : c ∉ kind) :
    word <:+: pairText head kind s t ↔
      word <:+: head ∨ word <:+: s.function ∨ word <:+: t.function := by
  have hdigits : ∀ n, c ∉ digits n := by
    intro n hmem
    have hdigit := Nat.isDigit_of_mem_toDigits (by decide) (by decide) hmem
    rw [hmarks.2] at hdigit
    cases hdigit
  have hother := hmarks.1
  simp only [List.mem_cons, List.not_mem_nil, or_false, not_or] at hother
  have hnot : ∀ {text : Text}, c ∉ text → ¬word <:+: text :=
    fun htext hsub => htext (hsub.subset hc)
  have hshape : pairText head kind s t = head ++ '_' :: (s.function ++ '_' ::
      ((digits s.line ++ ';' :: ' ' :: kind) ++ '_' :: (t.function ++ '_' ::
        (digits t.line ++ [']', '\n'])))) := by
    simp [pairText, Site.scope]
  have hmiddle : ¬word <:+: digits s.line ++ ';' :: ' ' :: kind := by
    apply hnot
    simp [hdigits, hkind, hother]
  have hend : ¬word <:+: digits t.line ++ [']', '\n'] := by
    apply hnot
    simp [hdigits, hother]
  rw [hshape, Lists.infix_append_cons_iff hsep, Lists.infix_append_cons_iff hsep,
    Lists.infix_append_cons_iff hsep, Lists.infix_append_cons_iff hsep]
  tauto

/-- The pieces of a line whose beginning was taken away, or not. -/
theorem splitOn_pairText {front kind : Text} (hfront : ';' ∉ front ∧ ']' ∉ front)
    (hkind : ';' ∉ kind ∧ ']' ∉ kind) :
    ((front ++ (s.scope ++ ';' :: ' ' :: (kind ++ '_' :: (t.scope ++ [']', '\n'])))).filter
        (· ≠ ']')).splitOn ';' =
      [front ++ s.scope, ' ' :: (kind ++ '_' :: (t.scope ++ ['\n']))] := by
  have hself : ∀ text : Text, ']' ∉ text → text.filter (fun c => !decide (c = ']')) = text := by
    intro text htext
    apply List.filter_eq_self.mpr
    intro c hc
    simpa using ne_of_mem_of_not_mem hc htext
  have hmarks : ∀ site : Site, ';' ∉ site.scope ∧ ']' ∉ site.scope :=
    fun site => ⟨site.not_mem_scope (by simp), site.not_mem_scope (by simp)⟩
  have hfilter : (front ++ (s.scope ++ ';' :: ' ' :: (kind ++ '_' ::
      (t.scope ++ [']', '\n'])))).filter (· ≠ ']') =
      (front ++ s.scope) ++ ';' :: (' ' :: (kind ++ '_' :: (t.scope ++ ['\n']))) := by
    simp [hself _ hfront.2, hself _ hkind.2, hself _ (hmarks s).2, hself _ (hmarks t).2]
  rw [hfilter, List.splitOn_append_cons_self, List.splitOn_eq_singleton,
    List.splitOn_eq_singleton]
  · rfl
  · simp [hkind.1, (hmarks t).1]
  · simp [hfront.1, (hmarks s).1]

theorem joined_first {front : Text} (hfront : ∀ c ∈ front, Strings.isSpace c = false) :
    joined ((front ++ s.scope).splitOn '_').dropLast = front ++ s.function := by
  rw [Site.scope, ← List.append_assoc]
  apply joined_dropLast (underscore_notMem_digits s.line)
  intro c hc
  rcases List.mem_append.mp hc with hc | hc
  · exact hfront c hc
  · exact (s.legal c hc).1

theorem dropLast_second (kind : Text) (hkind : '_' ∉ kind) :
    ((' ' :: (kind ++ '_' :: (t.scope ++ ['\n']))).splitOn '_').dropLast =
      (' ' :: kind) :: t.function.splitOn '_' := by
  have hshape : ' ' :: (kind ++ '_' :: (t.scope ++ ['\n'])) =
      (' ' :: kind) ++ '_' :: (t.function ++ '_' :: (digits t.line ++ ['\n'])) := by
    simp [Site.scope]
  have hfirst : (' ' :: kind).splitOn '_' = [' ' :: kind] :=
    List.splitOn_eq_singleton (by simpa using hkind)
  have hlast : (digits t.line ++ ['\n']).splitOn '_' = [digits t.line ++ ['\n']] :=
    List.splitOn_eq_singleton (by simpa using underscore_notMem_digits t.line)
  rw [hshape, List.splitOn_append_cons_self, List.splitOn_append_cons_self, hfirst, hlast,
    ← List.append_assoc, List.dropLast_concat]
  rfl

theorem joined_second_mpb {kind : Text} (hkind : '_' ∉ kind) :
    joined (((' ' :: (kind ++ '_' :: (t.scope ++ ['\n']))).splitOn '_').dropLast.drop 1) =
      t.function := by
  rw [dropLast_second kind hkind, List.drop_one, List.tail_cons, joined,
    List.intercalate_splitOn]
  exact Strings.stripWhile_eq_self fun c hc => (t.legal c hc).1

theorem joined_second_mpa {kind : Text}
    (hspace : ∀ c ∈ kind, Strings.isSpace c = false) :
    joined ((' ' :: (kind ++ '_' :: (t.scope ++ ['\n']))).splitOn '_').dropLast =
      kind ++ '_' :: t.function := by
  have hshape : ' ' :: (kind ++ '_' :: (t.scope ++ ['\n'])) =
      (' ' :: (kind ++ '_' :: t.function)) ++ '_' :: (digits t.line ++ ['\n']) := by
    simp [Site.scope]
  rw [hshape, joined, Strings.intercalate_dropLast_splitOn _
    (by simpa using underscore_notMem_digits t.line), strip,
    Strings.stripWhile_cons (by decide)]
  apply Strings.stripWhile_eq_self
  intro c hc
  simp only [List.mem_append, List.mem_cons] at hc
  rcases hc with hc | rfl | hc
  · exact hspace c hc
  · decide
  · exact (t.legal c hc).1

/-- A text with a blank inside is no function. -/
theorem blank_mem_strip {first : Char} {front back : Text} (hfirst : Strings.isSpace first = false)
    (hblank : ' ' ∈ front) (hback : ∀ c ∈ back, Strings.isSpace c = false) (hne : back ≠ []) :
    ' ' ∈ strip (first :: (front ++ back)) := by
  have hself : strip (first :: (front ++ back)) = first :: (front ++ back) := by
    apply Strings.stripWhile_eq_self_of_ends
    · intro c hc
      obtain rfl : first = c := by simpa using hc
      exact hfirst
    · intro c hc
      rw [← List.cons_append, List.getLast?_append_of_ne_nil _ hne] at hc
      exact hback c (List.mem_of_getLast? hc)
  rw [hself]
  simp [hblank]

/-- A text without white space. -/
def Solid (x : Text) : Prop := ∀ c ∈ x, Strings.isSpace c = false

theorem Solid.ne_strip {x front back : Text} {first : Char} (h : Solid x)
    (hfirst : Strings.isSpace first = false) (hblank : ' ' ∈ front)
    (hback : ∀ c ∈ back, Strings.isSpace c = false) (hne : back ≠ []) :
    x ≠ strip (first :: (front ++ back)) := by
  rintro rfl
  exact absurd (h ' ' (blank_mem_strip hfirst hblank hback hne)) (by decide)

theorem lineScopes_dura (s : Site) :
    lineScopes (duraLine s.scope ++ ['\n']) = some [s.function] := by
  have hword : lit "DURA" <:+: duraLine s.scope ++ ['\n'] := by
    have hhead : lit "DURA" <:+: lit "DURA:[ pt_" := by with_unfolding_all decide
    rw [duraLine, List.append_assoc, List.append_assoc]
    exact hhead.trans (List.prefix_append _ _).isInfix
  have hrest : ¬lit "DURA:[ pt_" <:+: s.scope ++ [']', '\n'] := by
    intro hsub
    have hblank : ' ' ∈ s.scope ++ [']', '\n'] := hsub.subset (by with_unfolding_all decide)
    simp only [List.mem_append] at hblank
    rcases hblank with hblank | hblank
    · exact s.not_mem_scope (by simp) hblank
    · exact absurd hblank (by decide)
  have hshape : s.scope ++ [']', '\n'] = s.function ++ '_' :: (digits s.line ++ [']', '\n']) := by
    simp [Site.scope]
  rw [lineScopes, if_pos hword, duraLine, List.append_assoc, List.append_assoc,
    Strings.replace_append_old (by with_unfolding_all decide), List.nil_append,
    List.singleton_append,
    Strings.replace_of_not_infix hrest, hshape, joined_dropLast _ fun c hc => (s.legal c hc).1]
  simpa using underscore_notMem_digits s.line

/-- Nothing is replaced if the bracket of the line stands behind something else. -/
theorem replace_pairText {left right before after kind : Text} (hbefore : '[' ∉ before)
    (hafter : '[' ∉ after) (hkind : '[' ∉ kind) (h : ¬left <:+ before) :
    replace (left ++ '[' :: right) [] (pairText (before ++ '[' :: after) kind s t) =
      pairText (before ++ '[' :: after) kind s t := by
  apply Strings.replace_of_not_infix
  intro hsub
  rw [pairText, List.append_assoc, List.cons_append] at hsub
  refine h (Lists.suffix_of_infix_cons hbefore ?_ hsub)
  have hscope : ∀ site : Site, '[' ∉ site.scope := fun site => site.not_mem_scope (by simp)
  simp [hafter, hkind, hscope]

/-- A line with two scopes that is taken for a DURA line. -/
theorem joined_misread {head kind x : Text} {first : Char} (hfirst : Strings.isSpace first = false)
    (hx : Solid x) :
    x ≠ joined ((pairText (first :: head) kind s t).splitOn '_').dropLast := by
  have hshape : pairText (first :: head) kind s t =
      (first :: ((head ++ '_' :: (s.scope ++ ';' :: ' ' :: kind)) ++ '_' :: t.function)) ++
        '_' :: (digits t.line ++ [']', '\n']) := by
    simp [pairText, Site.scope]
  rw [hshape, joined, Strings.intercalate_dropLast_splitOn _
    (by simpa using underscore_notMem_digits t.line)]
  apply hx.ne_strip hfirst
  · simp
  · intro c hc
    rcases List.mem_cons.mp hc with rfl | hc
    · decide
    · exact (t.legal c hc).1
  · simp

/-- What the functions of a line become: those that are read as they are, and the text that stands
for the second function of an MPA line. -/
def BugLine.decoded : BugLine → List Text
  | .dura s => [s.function]
  | .mpb s t =>
      if lit "DURA" <:+: s.function ∨ lit "DURA" <:+: t.function then []
      else [s.function, t.function]
  | .mpa s t =>
      if lit "DURA" <:+: s.function ∨ lit "DURA" <:+: t.function then []
      else if lit "MPB" <:+: s.function ∨ lit "MPB" <:+: t.function then [t.function]
      else [s.function, lit "pc_" ++ t.function]

theorem replace_pairText_head {head kind : Text} (hhead : '[' ∈ head) (hkind : '[' ∉ kind) :
    replace (head ++ ['_']) [] (pairText head kind s t) =
      s.scope ++ ';' :: ' ' :: (kind ++ '_' :: (t.scope ++ [']', '\n'])) := by
  have hrest : ¬head ++ ['_'] <:+:
      s.scope ++ ';' :: ' ' :: (kind ++ '_' :: (t.scope ++ [']', '\n'])) := by
    intro hsub
    have hmem := hsub.subset (List.mem_append_left _ hhead)
    have hscope : ∀ site : Site, '[' ∉ site.scope := fun site => site.not_mem_scope (by simp)
    simp [hscope, hkind] at hmem
  have hshape : pairText head kind s t = (head ++ ['_']) ++
      (s.scope ++ ';' :: ' ' :: (kind ++ '_' :: (t.scope ++ [']', '\n']))) := by
    simp [pairText]
  rw [hshape, Strings.replace_append_old (by simp), Strings.replace_of_not_infix hrest,
    List.nil_append]

theorem dura_infix_iff {head kind : Text} (hhead : ¬lit "DURA" <:+: head) (hkind : 'A' ∉ kind) :
    lit "DURA" <:+: pairText head kind s t ↔
      lit "DURA" <:+: s.function ∨ lit "DURA" <:+: t.function := by
  rw [@infix_pairText_iff s t _ head kind 'A' (by with_unfolding_all decide) (by decide)
    (by with_unfolding_all decide)
    hkind]
  tauto

theorem lineScopes_mpb (s t : Site) :
    ∃ scopes, lineScopes (mpbLine s.scope t.scope ++ ['\n']) = some scopes ∧
      ∀ x, Solid x → (x ∈ scopes ↔ x ∈ (BugLine.mpb s t).decoded) := by
  have hdura := @dura_infix_iff s t (lit "MPB: [pt") (lit "pt") (by with_unfolding_all decide)
    (by with_unfolding_all decide)
  have hmpb : lit "MPB" <:+: pairText (lit "MPB: [pt") (lit "pt") s t := by
    have hhead : lit "MPB" <:+: lit "MPB: [pt" := by with_unfolding_all decide
    exact hhead.trans (List.prefix_append _ _).isInfix
  rw [mpbLine_eq, lineScopes, BugLine.decoded]
  by_cases hword : lit "DURA" <:+: s.function ∨ lit "DURA" <:+: t.function
  · rw [if_pos (hdura.mpr hword), if_pos hword]
    refine ⟨_, rfl, fun x hx => ?_⟩
    have hpattern : lit "DURA:[ pt_" = lit "DURA:" ++ '[' :: lit " pt_" := by
      with_unfolding_all decide
    have hhead : lit "MPB: [pt" = lit "MPB: " ++ '[' :: lit "pt" := by with_unfolding_all decide
    have hcons : lit "MPB: [pt" = 'M' :: lit "PB: [pt" := by with_unfolding_all decide
    rw [hpattern, hhead,
      replace_pairText (by with_unfolding_all decide) (by with_unfolding_all decide)
      (by with_unfolding_all decide) (by with_unfolding_all decide), ← hhead, hcons]
    simpa using joined_misread (by decide) hx
  · have hpattern : lit "MPB: [pt_" = lit "MPB: [pt" ++ ['_'] := by with_unfolding_all decide
    rw [if_neg (fun h => hword (hdura.mp h)), if_pos hmpb, if_neg hword, hpattern,
      replace_pairText_head (by with_unfolding_all decide) (by with_unfolding_all decide)]
    have hpieces := @splitOn_pairText s t [] (lit "pt") (by simp) (by with_unfolding_all decide)
    have hfirst := @joined_first s [] (by simp)
    have hsecond := @joined_second_mpb t (lit "pt") (by with_unfolding_all decide)
    simp only [List.nil_append] at hpieces hfirst
    refine ⟨[s.function, t.function], ?_, fun x _ => Iff.rfl⟩
    simp only [hpieces, List.getElem?_cons_zero, List.getElem?_cons_succ, Option.bind_eq_bind,
      Option.bind_some, Option.pure_def, hfirst, hsecond]

theorem lineScopes_mpa (s t : Site) :
    ∃ scopes, lineScopes (mpaLine s.scope t.scope ++ ['\n']) = some scopes ∧
      ∀ x, Solid x → (x ∈ scopes ↔ x ∈ (BugLine.mpa s t).decoded) := by
  have hdura := @dura_infix_iff s t (lit "MPA: [pc") (lit "pc") (by with_unfolding_all decide)
    (by with_unfolding_all decide)
  have hmpb : lit "MPB" <:+: pairText (lit "MPA: [pc") (lit "pc") s t ↔
      lit "MPB" <:+: s.function ∨ lit "MPB" <:+: t.function := by
    rw [@infix_pairText_iff s t _ _ _ 'M' (by with_unfolding_all decide) (by decide)
      (by with_unfolding_all decide)
      (by with_unfolding_all decide)]
    have hnot : ¬lit "MPB" <:+: lit "MPA: [pc" := by with_unfolding_all decide
    tauto
  have hmpa : lit "MPA" <:+: pairText (lit "MPA: [pc") (lit "pc") s t := by
    have hhead : lit "MPA" <:+: lit "MPA: [pc" := by with_unfolding_all decide
    exact hhead.trans (List.prefix_append _ _).isInfix
  have hhead : lit "MPA: [pc" = lit "MPA: " ++ '[' :: lit "pc" := by with_unfolding_all decide
  have hcons : lit "MPA: [pc" = 'M' :: lit "PA: [pc" := by with_unfolding_all decide
  rw [mpaLine_eq, lineScopes, BugLine.decoded]
  by_cases hword : lit "DURA" <:+: s.function ∨ lit "DURA" <:+: t.function
  · rw [if_pos (hdura.mpr hword), if_pos hword]
    refine ⟨_, rfl, fun x hx => ?_⟩
    have hpattern : lit "DURA:[ pt_" = lit "DURA:" ++ '[' :: lit " pt_" := by
      with_unfolding_all decide
    rw [hpattern, hhead,
      replace_pairText (by with_unfolding_all decide) (by with_unfolding_all decide)
      (by with_unfolding_all decide) (by with_unfolding_all decide), ← hhead, hcons]
    simpa using joined_misread (by decide) hx
  rw [if_neg (fun h => hword (hdura.mp h)), if_neg hword]
  by_cases hother : lit "MPB" <:+: s.function ∨ lit "MPB" <:+: t.function
  · -- the second scope is decoded as in an MPB line, the first one keeps the beginning of the line
    have hpattern : lit "MPB: [pt_" = lit "MPB: " ++ '[' :: lit "pt_" := by
      with_unfolding_all decide
    have hreplace : replace (lit "MPB: [pt_") [] (pairText (lit "MPA: [pc") (lit "pc") s t) =
        pairText (lit "MPA: [pc") (lit "pc") s t := by
      rw [hpattern, hhead]
      exact replace_pairText (by with_unfolding_all decide) (by with_unfolding_all decide)
        (by with_unfolding_all decide)
        (by with_unfolding_all decide)
    have hpieces := @splitOn_pairText s t (lit "MPA: [pc" ++ ['_']) (lit "pc")
      (by with_unfolding_all decide)
      (by with_unfolding_all decide)
    have hsecond := @joined_second_mpb t (lit "pc") (by with_unfolding_all decide)
    have hfirst : ∀ x, Solid x →
        x ≠ joined ((lit "MPA: [pc" ++ ['_'] ++ s.scope).splitOn '_').dropLast := by
      intro x hx
      have hshape : lit "MPA: [pc" ++ ['_'] ++ s.scope =
          ('M' :: (lit "PA: [pc" ++ '_' :: s.function)) ++ '_' :: digits s.line := by
        simp [hcons, Site.scope]
      rw [hshape, joined, Strings.intercalate_dropLast_splitOn _ (underscore_notMem_digits s.line)]
      apply hx.ne_strip (by decide) (by with_unfolding_all decide) _ (by simp)
      intro c hc
      rcases List.mem_cons.mp hc with rfl | hc
      · decide
      · exact (s.legal c hc).1
    rw [if_pos (hmpb.mpr hother), if_pos hother, hreplace, pairText, List.append_cons]
    refine ⟨[joined ((lit "MPA: [pc" ++ ['_'] ++ s.scope).splitOn '_').dropLast, t.function],
      ?_, ?_⟩
    · simp only [hpieces, List.getElem?_cons_zero, List.getElem?_cons_succ, Option.bind_eq_bind,
        Option.bind_some, Option.pure_def, hsecond]
    · intro x hx
      rw [List.mem_cons, or_iff_right (hfirst x hx)]
  · have hpattern : lit "MPA: [pc_" = lit "MPA: [pc" ++ ['_'] := by with_unfolding_all decide
    have hpieces := @splitOn_pairText s t [] (lit "pc") (by simp) (by with_unfolding_all decide)
    have hfirst := @joined_first s [] (by simp)
    have hsecond := @joined_second_mpa t (lit "pc") (by with_unfolding_all decide)
    have hkind : lit "pc" ++ '_' :: t.function = lit "pc_" ++ t.function := by
      have hkind : lit "pc_" = lit "pc" ++ ['_'] := by with_unfolding_all decide
      rw [hkind, List.append_assoc, List.singleton_append]
    simp only [List.nil_append] at hpieces hfirst
    rw [if_neg (fun h => hother (hmpb.mp h)), if_pos hmpa, if_neg hother, hpattern,
      replace_pairText_head (by with_unfolding_all decide) (by with_unfolding_all decide)]
    refine ⟨[s.function, lit "pc_" ++ t.function], ?_, fun x _ => Iff.rfl⟩
    simp only [hpieces, List.getElem?_cons_zero, List.getElem?_cons_succ, Option.bind_eq_bind,
      Option.bind_some, Option.pure_def, hfirst, hsecond, hkind]

end Decode

/-! ### Files -/

section Filter

variable {lines lines₁ lines₂ : List BugLine} {trace : List RowStmt}

/-- The functions that a line names. -/
def BugLine.functions : BugLine → List Text
  | .dura s => [s.function]
  | .mpb s t => [s.function, t.function]
  | .mpa s t => [s.function, t.function]

theorem BugLine.lineScopes_text (line : BugLine) :
    ∃ scopes, lineScopes (line.text ++ ['\n']) = some scopes ∧
      ∀ x, Solid x → (x ∈ scopes ↔ x ∈ line.decoded) := by
  cases line with
  | dura s => exact ⟨_, lineScopes_dura s, fun x _ => Iff.rfl⟩
  | mpb s t => exact lineScopes_mpb s t
  | mpa s t => exact lineScopes_mpa s t

theorem BugLine.not_mem_text {line : BugLine} {c : Char} (hc : c ∈ ['\n', '\r']) :
    c ∉ line.text := by
  have hmarks : ∀ word ∈ [lit "DURA:[ pt_", lit "MPB: [pt_", lit "; pt_", lit "MPA: [pc_",
      lit "; pc_", [']']], c ∉ word := by
    revert c
    with_unfolding_all decide
  have hscope : ∀ site : Site, c ∉ site.scope := by
    intro site
    apply site.not_mem_scope
    simp only [List.mem_cons, List.not_mem_nil, or_false] at hc ⊢
    tauto
  simp only [List.forall_mem_cons, List.not_mem_nil] at hmarks
  cases line with
  | dura s => simp [text, duraLine, hscope, hmarks]
  | mpb s t => simp [text, mpbLine, hscope, hmarks]
  | mpa s t => simp [text, mpaLine, hscope, hmarks]

theorem lines_bugFile (lines : List BugLine) :
    Strings.lines (Strings.universal (bugFile (lines.map BugLine.text))) =
      lines.map fun line => line.text ++ ['\n'] := by
  rw [bugFile, List.flatMap_map, Strings.universal_of_notMem]
  · exact Strings.lines_flatMap fun line _ => line.not_mem_text (by simp)
  · simp only [List.mem_flatMap, List.mem_append, List.mem_singleton, not_exists, not_and, not_or]
    exact fun line _ => ⟨line.not_mem_text (by simp), by decide⟩

theorem bugLines_bugFile (lines : List BugLine) :
    bugLines (bugFile (lines.map BugLine.text)) = lines.map BugLine.text := by
  rw [bugLines, lines_bugFile, List.map_map]
  apply List.map_congr_left
  intro line _
  have hfilter : (line.text ++ ['\n']).filter (· ≠ '\n') = line.text := by
    rw [List.filter_append, List.filter_eq_self.mpr]
    · simp
    · intro c hc
      simpa using ne_of_mem_of_not_mem hc (line.not_mem_text (by simp))
  have hends : (∀ c, line.text.head? = some c → c = 'D' ∨ c = 'M') ∧
      line.text.getLast? = some ']' := by
    have hheads : (lit "DURA:[ pt_").head? = some 'D' ∧ (lit "MPB: [pt_").head? = some 'M' ∧
        (lit "MPA: [pc_").head? = some 'M' := by with_unfolding_all decide
    cases line with
    | dura s => simp [BugLine.text, duraLine, List.head?_append, hheads, eq_comm]
    | mpb s t => simp [BugLine.text, mpbLine, List.head?_append, hheads, eq_comm]
    | mpa s t => simp [BugLine.text, mpaLine, List.head?_append, hheads, eq_comm]
  rw [Function.comp_apply, hfilter]
  apply Strings.stripWhile_eq_self_of_ends
  · intro c hc
    rcases hends.1 c hc with rfl | rfl
    · decide
    · decide
  · intro c hc
    rw [hends.2] at hc
    cases hc
    decide

theorem readScopes_bugFile (lines : List BugLine) :
    ∃ scopes, readScopes (bugFile (lines.map BugLine.text)) = some scopes ∧
      ∀ x, Solid x → (x ∈ scopes ↔ ∃ line ∈ lines, x ∈ line.decoded) := by
  rw [readScopes, lines_bugFile]
  induction lines with
  | nil => exact ⟨[], rfl, by simp⟩
  | cons line lines ih =>
      obtain ⟨scopes, hscopes, hmem⟩ := line.lineScopes_text
      obtain ⟨rest, hrest, hrestmem⟩ := ih
      simp only [Option.bind_eq_bind, Option.bind_eq_some_iff, Option.pure_def,
        Option.some.injEq] at hrest
      obtain ⟨pieces, hpieces, rfl⟩ := hrest
      refine ⟨scopes ++ pieces.flatten, ?_, fun x hx => ?_⟩
      · simp [List.mapM_cons, hscopes, hpieces]
      · rw [List.mem_append, hmem x hx, hrestmem x hx, List.exists_mem_cons_iff]

/-- The filter keeps the statements of the functions that the files name, and no others. -/
def KeepsNamed (lines₁ lines₂ : List BugLine) (trace : List RowStmt) : Prop :=
  getRelevantTrace trace (bugFile (lines₁.map BugLine.text)) (bugFile (lines₂.map BugLine.text)) =
    some (trace.filter fun stmt =>
      functionName stmt.scope ∈ (lines₁ ++ lines₂).flatMap BugLine.functions)

/-- The functions of a line that are not read from it: the second one of an MPA line, and more if a
function contains the name of another kind. -/
def BugLine.lost : BugLine → List Text
  | .dura _ => []
  | .mpb s t =>
      if lit "DURA" <:+: s.function ∨ lit "DURA" <:+: t.function then [s.function, t.function]
      else []
  | .mpa s t =>
      if lit "DURA" <:+: s.function ∨ lit "DURA" <:+: t.function then [s.function, t.function]
      else if lit "MPB" <:+: s.function ∨ lit "MPB" <:+: t.function then [s.function]
      else [t.function]

/-- What is read in the place of the second function of an MPA line. -/
def BugLine.invented : BugLine → List Text
  | .mpa s t =>
      if (lit "DURA" <:+: s.function ∨ lit "DURA" <:+: t.function) ∨
        lit "MPB" <:+: s.function ∨ lit "MPB" <:+: t.function then []
      else [lit "pc_" ++ t.function]
  | _ => []

theorem BugLine.decoded_or_lost {line : BugLine} {x : Text} :
    (x ∈ line.functions → x ∈ line.decoded ∨ x ∈ line.lost) ∧
      (x ∈ line.lost → x ∈ line.functions) := by
  cases line with
  | dura s => simp [functions, decoded, lost]
  | mpb s t =>
      simp only [functions, decoded, lost]
      split_ifs <;> simp
  | mpa s t =>
      simp only [functions, decoded, lost]
      split_ifs
      all_goals
        simp only [List.mem_cons, List.not_mem_nil, or_false, false_or]
        tauto

theorem BugLine.functions_or_invented {line : BugLine} {x : Text} :
    (x ∈ line.decoded → x ∈ line.functions ∨ x ∈ line.invented) ∧
      (x ∈ line.invented → x ∈ line.decoded) := by
  cases line with
  | dura s => simp [functions, decoded, invented]
  | mpb s t =>
      simp only [functions, decoded, invented]
      split_ifs <;> simp
  | mpa s t =>
      simp only [functions, decoded, invented]
      split_ifs
      all_goals
        simp only [List.mem_cons, List.not_mem_nil, or_false]
        tauto

theorem solid_functionName {scope : Text} (h : Solid scope) : Solid (functionName scope) := by
  intro c hc
  apply h c
  rw [functionName, List.mem_reverse] at hc
  exact List.mem_reverse.mp
    ((List.dropWhile_suffix _).subset ((List.drop_suffix 1 _).subset hc))

theorem getRelevantTrace_bugFiles (hsolid : ∀ stmt ∈ trace, Solid stmt.scope) :
    getRelevantTrace trace (bugFile (lines₁.map BugLine.text))
        (bugFile (lines₂.map BugLine.text)) =
      some (trace.filter fun stmt =>
        functionName stmt.scope ∈ (lines₁ ++ lines₂).flatMap BugLine.decoded) := by
  obtain ⟨bugs, hbugs, hmem⟩ := readScopes_bugFile lines₁
  obtain ⟨more, hmore, hmoremem⟩ := readScopes_bugFile lines₂
  rw [getRelevantTrace, hbugs, hmore]
  simp only [Option.bind_eq_bind, Option.bind_some, Option.pure_def, Option.some.injEq]
  apply List.filter_congr
  intro stmt hstmt
  have hname := solid_functionName (hsolid stmt hstmt)
  rw [functionOf_eq (hsolid stmt hstmt), decide_eq_decide, List.mem_append, hmem _ hname,
    hmoremem _ hname]
  simp only [List.mem_flatMap, List.mem_append, or_and_right, exists_or]

/-- The filter is right if every function of the trace that is not read from a line is read from
another one, and nothing in the trace has a function that is read in the place of another. -/
theorem keepsNamed_iff (hsolid : ∀ stmt ∈ trace, Solid stmt.scope) :
    KeepsNamed lines₁ lines₂ trace ↔ ∀ stmt ∈ trace, ∀ line ∈ lines₁ ++ lines₂,
      (functionName stmt.scope ∈ line.lost →
        ∃ other ∈ lines₁ ++ lines₂, functionName stmt.scope ∈ other.decoded) ∧
      (functionName stmt.scope ∈ line.invented →
        ∃ other ∈ lines₁ ++ lines₂, functionName stmt.scope ∈ other.functions) := by
  rw [KeepsNamed, getRelevantTrace_bugFiles hsolid, Option.some.injEq]
  constructor
  · intro heq stmt hstmt line hline
    have hiff : functionName stmt.scope ∈ (lines₁ ++ lines₂).flatMap BugLine.decoded ↔
        functionName stmt.scope ∈ (lines₁ ++ lines₂).flatMap BugLine.functions := by
      have hmem := congrArg (stmt ∈ ·) heq
      simpa [hstmt] using hmem
    rw [List.mem_flatMap, List.mem_flatMap] at hiff
    exact ⟨fun hlost => hiff.mpr ⟨line, hline, BugLine.decoded_or_lost.2 hlost⟩,
      fun hinvented => hiff.mp ⟨line, hline, BugLine.functions_or_invented.2 hinvented⟩⟩
  · intro h
    apply List.filter_congr
    intro stmt hstmt
    rw [decide_eq_decide, List.mem_flatMap, List.mem_flatMap]
    constructor
    · rintro ⟨line, hline, hdecoded⟩
      rcases BugLine.functions_or_invented.1 hdecoded with hnamed | hinvented
      · exact ⟨line, hline, hnamed⟩
      · exact (h stmt hstmt line hline).2 hinvented
    · rintro ⟨line, hline, hnamed⟩
      rcases BugLine.decoded_or_lost.1 hnamed with hdecoded | hlost
      · exact ⟨line, hline, hdecoded⟩
      · exact (h stmt hstmt line hline).1 hlost

end Filter

/-- The store of the second thread in the motivating example. -/
def thread2Store : RowStmt :=
  { r := 11, op := .store, add := .text (lit "0x15998b0"), tid := lit "139834568210176",
    uid := some (lit "42"), scope := lit "thread2_function_24" }

def thread1Site : Site := ⟨lit "thread1_function", 18, by with_unfolding_all decide⟩

def thread2Site : Site := ⟨lit "thread2_function", 24, by with_unfolding_all decide⟩

theorem thread2Store_solid : ∀ stmt ∈ [thread2Store], Solid stmt.scope := by
  have hsolid : ∀ c ∈ lit "thread2_function_24", Strings.isSpace c = false := by
    with_unfolding_all decide
  intro stmt hstmt
  rw [List.mem_singleton.mp hstmt]
  exact hsolid

theorem functionName_thread2Store :
    functionName thread2Store.scope = lit "thread2_function" := by
  with_unfolding_all decide

theorem keepsNamed_thread2 :
    KeepsNamed [.dura thread2Site] [.mpa thread1Site thread2Site] [thread2Store] := by
  refine (keepsNamed_iff thread2Store_solid).mpr ?_
  simp only [List.mem_singleton, forall_eq, functionName_thread2Store]
  with_unfolding_all decide

/-- The second function of an MPA line is lost. -/
theorem not_keepsNamed_thread2 :
    ¬KeepsNamed [.dura thread1Site] [.mpa thread1Site thread2Site] [thread2Store] := by
  rw [KeepsNamed, getRelevantTrace_bugFiles thread2Store_solid, Option.some.injEq]
  with_unfolding_all decide

end PMBugRepair
