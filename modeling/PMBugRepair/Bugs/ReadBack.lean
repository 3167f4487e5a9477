import PMBugRepair.Bugs.ReadBugs
import PMBugRepair.Bugs.Convert

/-!
# Bug files read back

`convert.py` writes the scopes of stores into the lines, and `readBugs` cuts them out again with
`replace`, which takes away every `pt_` or `pt__` of the scope as well. What is left is the key
under which the statement of a scope should stand in the index: the scope without a leading
underscore.
-/

namespace PMBugRepair

open Strings (Text lit strip replace)

/-- The key of a scope. -/
def keyOf (s : Text) : Text := if s.head? = some '_' then s.tail else s

/-- A scope without the mark that is taken away from it. -/
def Intact (s : Text) : Prop :=
  if s.head? = some '_' then ¬lit "pt__" <:+: s.tail else ¬lit "pt_" <:+: s

section Key

variable {s front : Text}

theorem eq_cons_of_head {c : Char} (h : s.head? = some c) : s = c :: s.tail := by
  cases s with
  | nil => cases h
  | cons d s =>
      obtain rfl : d = c := by simpa using h
      rfl

theorem keyOf_cases (s : Text) :
    (s.head? = some '_' ∧ s = '_' :: keyOf s) ∨ (s.head? ≠ some '_' ∧ keyOf s = s) := by
  unfold keyOf
  split_ifs with hhead
  · exact .inl ⟨hhead, eq_cons_of_head hhead⟩
  · exact .inr ⟨hhead, rfl⟩

theorem infix_append_iff_of_notMem {c : Char} {word s : Text} (h : c ∉ front) :
    c :: word <:+: front ++ s ↔ c :: word <:+: s := by
  induction front with
  | nil => rfl
  | cons d front ih =>
      rw [List.mem_cons, not_or] at h
      rw [List.cons_append, List.infix_cons_iff, ih h.2, or_iff_right]
      rw [List.cons_prefix_cons]
      exact fun hstart => h.1 hstart.1

theorem infix_concat_iff_of_notMem {c : Char} {word : Text} (hne : word ≠ []) (h : c ∉ word) :
    word <:+: s ++ [c] ↔ word <:+: s := by
  rw [Lists.infix_append_cons_iff h, List.infix_nil]
  exact or_iff_left hne

theorem marked_iff (hfront : 'p' ∉ front) :
    lit "pt__" <:+: front ++ (lit "pt_" ++ s) ↔ s.head? = some '_' ∨ lit "pt__" <:+: s := by
  have hword : lit "pt__" = ['p', 't', '_', '_'] ∧ lit "pt_" = ['p', 't', '_'] := by
    with_unfolding_all decide
  have hhead : ['_'] <+: s ↔ s.head? = some '_' := by
    cases s with
    | nil => simp
    | cons c s => simp [List.cons_prefix_cons, eq_comm]
  rw [hword.1, hword.2, infix_append_iff_of_notMem hfront]
  simp only [List.cons_append, List.nil_append, List.infix_cons_iff, List.cons_prefix_cons, hhead,
    true_and]
  simp

/-- What is cut out of a part of a line behind the mark `pt_` or `pt__`. -/
def cutOut (s : Text) : Text :=
  replace (if s.head? = some '_' ∨ lit "pt__" <:+: s then lit "pt__" else lit "pt_") []
    (' ' :: (lit "pt_" ++ s))

theorem cutOut_marked (h : s.head? = some '_') :
    cutOut s = ' ' :: replace (lit "pt__") [] s.tail := by
  have hword : lit "pt__" = 'p' :: lit "t__" := by with_unfolding_all decide
  have hshape : ' ' :: (lit "pt_" ++ s) = [' '] ++ (lit "pt__" ++ s.tail) := by
    have hjoin : lit "pt__" = lit "pt_" ++ ['_'] := by with_unfolding_all decide
    conv_lhs => rw [eq_cons_of_head h]
    rw [hjoin]
    simp
  rw [cutOut, if_pos (.inl h), hshape, hword, Strings.replace_append_of_notMem (by simp), ← hword,
    Strings.replace_append_old (by with_unfolding_all decide)]
  rfl

theorem cutOut_plain (h : s.head? ≠ some '_') (hmark : ¬lit "pt__" <:+: s) :
    cutOut s = ' ' :: replace (lit "pt_") [] s := by
  have hword : lit "pt_" = 'p' :: lit "t_" := by with_unfolding_all decide
  have hshape : ' ' :: (lit "pt_" ++ s) = [' '] ++ (lit "pt_" ++ s) := rfl
  rw [cutOut, if_neg (not_or.mpr ⟨h, hmark⟩), hshape, hword,
    Strings.replace_append_of_notMem (by simp), ← hword,
    Strings.replace_append_old (by with_unfolding_all decide)]
  rfl

/-- The mark of the line stays when the scope holds a longer one. -/
theorem cutOut_inner (h : s.head? ≠ some '_') (hmark : lit "pt__" <:+: s) :
    cutOut s = ' ' :: (lit "pt_" ++ replace (lit "pt__") [] s) := by
  have hword : lit "pt__" = ['p', 't', '_', '_'] ∧ lit "pt_" = ['p', 't', '_'] := by
    with_unfolding_all decide
  have hhead : ¬['_'] <+: s := by
    cases s with
    | nil => simp
    | cons c s => simpa [List.cons_prefix_cons, eq_comm] using h
  rw [cutOut, if_pos (.inr hmark), hword.1, hword.2]
  simp [replace, Strings.replaceFrom, List.cons_prefix_cons, hhead]

theorem solid_replace {old : Text} (hs : Solid s) : Solid (replace old [] s) :=
  fun c hc => hs c (Strings.mem_of_mem_replaceFrom hc)

theorem strip_blank (hs : Solid s) : strip (' ' :: s) = s :=
  (Strings.stripWhile_cons (by decide)).trans (Strings.stripWhile_eq_self hs)

/-- The key of an intact scope is read back, and no other text that stands for the scope. -/
theorem strip_cutOut (hs : Solid s) :
    (Intact s → strip (cutOut s) = keyOf s) ∧
      ((s = strip (cutOut s) ∨ s = '_' :: strip (cutOut s)) → Intact s) := by
  have hlong : lit "pt__" ≠ [] ∧ lit "pt_" ≠ [] := by with_unfolding_all decide
  have hstart : lit "pt_" <:+: lit "pt__" := by with_unfolding_all decide
  by_cases hhead : s.head? = some '_'
  · have hcons := eq_cons_of_head hhead
    have htail : Solid s.tail := fun c hc => hs c (List.mem_of_mem_tail hc)
    have hkey : strip (cutOut s) = replace (lit "pt__") [] s.tail := by
      rw [cutOut_marked hhead, strip_blank (solid_replace htail)]
    rw [hkey, Intact, if_pos hhead, keyOf, if_pos hhead]
    refine ⟨Strings.replace_of_not_infix, fun h hsub => ?_⟩
    have hshorter := Strings.length_replace_lt hsub hlong.1
    have hlength := congrArg List.length hcons
    rw [List.length_cons] at hlength
    rcases h with h | h
    · have hsame := congrArg List.length h
      omega
    · have hsame := congrArg List.length h
      rw [List.length_cons] at hsame
      omega
  · rw [Intact, if_neg hhead, keyOf, if_neg hhead]
    have hnot : ∀ key, s ≠ '_' :: key := by
      rintro key rfl
      exact hhead rfl
    by_cases hmark : lit "pt__" <:+: s
    · refine ⟨fun h => absurd (hstart.trans hmark) h, fun h => ?_⟩
      -- each occurrence takes four characters away, and three are left in front
      have hsolid : Solid (lit "pt_" ++ replace (lit "pt__") [] s) := by
        intro c hc
        have hmarkSolid : ∀ c ∈ lit "pt_", Strings.isSpace c = false := by with_unfolding_all decide
        rcases List.mem_append.mp hc with hc | hc
        · exact hmarkSolid c hc
        · exact solid_replace hs c hc
      rw [cutOut_inner hhead hmark, strip_blank hsolid] at h
      have hlength := congrArg List.length (h.resolve_right (hnot _))
      obtain ⟨k, hk⟩ := Strings.exists_length_replaceFrom hlong.1 (Nat.zero_le s.length)
      have hfour : (lit "pt__").length = 4 ∧ (lit "pt_").length = 3 := by with_unfolding_all decide
      rw [List.length_append, replace, hfour.2] at hlength
      rw [hfour.1] at hk
      omega
    · have hkey : strip (cutOut s) = replace (lit "pt_") [] s := by
        rw [cutOut_plain hhead hmark, strip_blank (solid_replace hs)]
      rw [hkey]
      refine ⟨Strings.replace_of_not_infix, fun h => ?_⟩
      exact (Strings.replace_eq_self_iff hlong.2).mp (h.resolve_right (hnot _)).symm

end Key

/-! ### The keys of a line -/

section Lines

variable (s t : Site)

theorem Site.solid : Solid s.scope := fun _ hc => s.isSpace_of_mem_scope hc

theorem filter_replace_part {front : Text} (hfront : 'p' ∉ front) :
    (replace (if lit "pt__" <:+: front ++ (lit "pt_" ++ s.scope) ++ [']'] then lit "pt__"
        else lit "pt_") [] (' ' :: (lit "pt_" ++ s.scope) ++ [']'])).filter (· ≠ ']') =
      cutOut s.scope := by
  have hwords : (lit "pt__" ≠ [] ∧ ']' ∉ lit "pt__") ∧ lit "pt_" ≠ [] ∧ ']' ∉ lit "pt_" := by
    with_unfolding_all decide
  have hmem : ∀ word, ']' ∉ replace word [] (' ' :: (lit "pt_" ++ s.scope)) := by
    intro word hmem
    have hin := Strings.mem_of_mem_replaceFrom hmem
    simp [hwords.2.2, s.not_mem_scope] at hin
  have hfilter : ∀ word, ((replace word [] (' ' :: (lit "pt_" ++ s.scope))) ++ [']']).filter
      (· ≠ ']') = replace word [] (' ' :: (lit "pt_" ++ s.scope)) := by
    intro word
    rw [List.filter_append, List.filter_eq_self.mpr]
    · simp
    · intro c hc
      simpa using ne_of_mem_of_not_mem hc (hmem word)
  simp only [infix_concat_iff_of_notMem hwords.1.1 hwords.1.2, marked_iff hfront]
  rw [cutOut]
  split_ifs
  · rw [Strings.replace_concat hwords.1.1 hwords.1.2, hfilter]
  · rw [Strings.replace_concat hwords.2.1 hwords.2.2, hfilter]

theorem duraKey_duraLine : duraKey (duraLine s.scope) = some (strip (cutOut s.scope)) := by
  have hhead : lit "DURA:[ pt_" = lit "DURA:" ++ '[' :: ' ' :: lit "pt_" ∧
      lit "DURA:[ pt_" = lit "DURA:[ " ++ lit "pt_" ∧ 'p' ∉ lit "DURA:[ " ∧
      (lit "DURA:").count '[' = 0 ∧ '[' ∉ lit "pt_" := by with_unfolding_all decide
  have hright : '[' ∉ ' ' :: (lit "pt_" ++ s.scope) ++ [']'] := by
    simp [hhead.2.2.2.2, s.not_mem_scope]
  have hpart : ((duraLine s.scope).splitOn '[')[1]? =
      some (' ' :: (lit "pt_" ++ s.scope) ++ [']']) := by
    have hsplit :=
      @Strings.getElem?_splitOn '[' (lit "DURA:") (' ' :: (lit "pt_" ++ s.scope) ++ [']'])
    rw [hhead.2.2.2.1, Strings.takeWhile_eq_self hright] at hsplit
    rw [← hsplit, duraLine, hhead.1]
    simp
  have hline : duraLine s.scope = lit "DURA:[ " ++ (lit "pt_" ++ s.scope) ++ [']'] := by
    rw [duraLine, hhead.2.1, List.append_assoc (lit "DURA:[ ")]
  rw [duraKey, hpart, hline]
  simp only [Option.bind_eq_bind, Option.bind_some, filter_replace_part s hhead.2.2.1]
  rfl

theorem splitOn_mpbLine :
    ((mpbLine s.scope t.scope).splitOn ';')[0]? = some (lit "MPB: [pt_" ++ s.scope) ∧
      ((mpbLine s.scope t.scope).splitOn ';')[1]? =
        some (' ' :: (lit "pt_" ++ t.scope) ++ [']']) := by
  have hwords : ';' ∉ lit "MPB: [pt_" ∧ ';' ∉ lit "pt_" ∧
      lit "; pt_" = ';' :: ' ' :: lit "pt_" := by
    with_unfolding_all decide
  have hleft : ';' ∉ lit "MPB: [pt_" ++ s.scope := by simp [hwords.1, s.not_mem_scope]
  have hright : ';' ∉ ' ' :: (lit "pt_" ++ t.scope) ++ [']'] := by
    simp [hwords.2.1, t.not_mem_scope]
  have hline : mpbLine s.scope t.scope = (lit "MPB: [pt_" ++ s.scope) ++
      ';' :: (' ' :: (lit "pt_" ++ t.scope) ++ [']']) := by
    rw [mpbLine, hwords.2.2]
    simp
  have hsplit := @Strings.getElem?_splitOn ';' (lit "MPB: [pt_" ++ s.scope)
    (' ' :: (lit "pt_" ++ t.scope) ++ [']'])
  rw [List.count_eq_zero_of_not_mem hleft, Strings.takeWhile_eq_self hright] at hsplit
  rw [hline, Strings.getElem?_zero_splitOn, Strings.takeWhile_append_sep hleft]
  exact ⟨rfl, hsplit⟩

theorem secondKey_mpbLine :
    secondKey (mpbLine s.scope t.scope) = some (strip (cutOut t.scope)) := by
  have hfilter := @filter_replace_part t [' '] (by simp)
  rw [List.singleton_append] at hfilter
  rw [secondKey, (splitOn_mpbLine s t).2]
  simp only [Option.bind_eq_bind, Option.bind_some, List.cons_append] at hfilter ⊢
  rw [hfilter]
  rfl

/-- The first part of an MPB line with a longer mark within the scope is not cut. -/
theorem firstKey_mpbLine :
    firstKey (mpbLine s.scope t.scope) =
      some (if s.scope.head? ≠ some '_' ∧ lit "pt__" <:+: s.scope then lit "MPB: [pt_" ++ s.scope
        else keyOf s.scope) := by
  have hwords : 'p' ∉ lit "MPB: [" ∧ lit "MPB: [pt_" = lit "MPB: [" ++ lit "pt_" ∧
      lit "MPB: [pt__" = lit "MPB: [pt_" ++ ['_'] ∧
      lit "MPB: [pt_" = lit "MPB: " ++ '[' :: lit "pt_" ∧
      lit "MPB: [pt__" = lit "MPB: " ++ '[' :: lit "pt__" := by with_unfolding_all decide
  have hmarks : '[' ∉ lit "MPB: " ∧ '[' ∉ lit "pt_" ∧ '[' ∈ lit "MPB: [pt_" ∧
      '[' ∈ lit "MPB: [pt__" ∧ lit "MPB: [pt__" ≠ [] ∧ lit "MPB: [pt_" ≠ [] := by
        with_unfolding_all decide
  have hnone : ∀ {word text : Text}, '[' ∈ word → '[' ∉ text → replace word [] text = text :=
    fun hword htext => Strings.replace_of_not_infix fun hsub => htext (hsub.subset hword)
  have hscope : '[' ∉ s.scope := s.not_mem_scope (by simp)
  have hmarked : lit "pt__" <:+: lit "MPB: [pt_" ++ s.scope ↔
      s.scope.head? = some '_' ∨ lit "pt__" <:+: s.scope := by
    rw [hwords.2.1, List.append_assoc]
    exact marked_iff hwords.1
  rw [firstKey, (splitOn_mpbLine s t).1]
  simp only [Option.bind_eq_bind, Option.bind_some, hmarked]
  congr 1
  by_cases hhead : s.scope.head? = some '_'
  · have hcons := eq_cons_of_head hhead
    have htail : ∀ c ∈ s.scope.tail, c ∈ s.scope := fun c hc => List.mem_of_mem_tail hc
    have hshape : lit "MPB: [pt_" ++ s.scope = lit "MPB: [pt__" ++ s.scope.tail := by
      conv_lhs => rw [hcons]
      rw [hwords.2.2.1]
      simp
    rw [if_pos (.inl hhead), if_neg (by simp [hhead]), hshape,
      Strings.replace_append_old hmarks.2.2.2.2.1, List.nil_append,
      hnone hmarks.2.2.2.1 fun hmem => hscope (htail _ hmem), keyOf, if_pos hhead]
    exact Strings.stripWhile_eq_self fun c hc => s.solid c (htail c hc)
  · by_cases hmark : lit "pt__" <:+: s.scope
    · rw [if_pos (.inr hmark), if_pos ⟨hhead, hmark⟩, Strings.replace_of_not_infix]
      · apply Strings.stripWhile_eq_self_of_ends
        · intro c hc
          have hfirst : (lit "MPB: [pt_").head? = some 'M' := by with_unfolding_all decide
          rw [List.head?_append, hfirst] at hc
          obtain rfl : 'M' = c := by simpa using hc
          decide
        · intro c hc
          have hne : s.scope ≠ [] := by simp [Site.scope]
          rw [List.getLast?_append_of_ne_nil _ hne] at hc
          exact s.solid c (List.mem_of_getLast? hc)
      · -- the mark would have to stand directly behind the bracket
        intro hsub
        rw [hwords.2.2.2.1, hwords.2.2.2.2, List.append_assoc, List.cons_append] at hsub
        have hstart := Lists.prefix_of_infix_cons hmarks.1 (by simp [hmarks.2.1, hscope]) hsub
        have hjoin : lit "pt__" = lit "pt_" ++ ['_'] := by with_unfolding_all decide
        rw [hjoin, List.prefix_append_right_inj] at hstart
        obtain ⟨rest, hrest⟩ := hstart
        exact hhead (by rw [← hrest]; rfl)
    · rw [if_neg (not_or.mpr ⟨hhead, hmark⟩), if_neg fun h => hmark h.2,
        Strings.replace_append_old hmarks.2.2.2.2.2, List.nil_append,
        hnone hmarks.2.2.1 hscope, keyOf,
        if_neg hhead]
      exact Strings.stripWhile_eq_self s.solid

end Lines

/-! ### First stores -/

/-- What the index is made of. -/
def Row.entry (row : Row) : Text × Nat := (row.scope, row.index)

/-- The number of the first store with exactly this scope. -/
def FirstStore (trace : List Row) (s : Text) (id : Nat) : Prop :=
  ∃ pre row post, trace = pre ++ row :: post ∧ row.op = some 101 ∧ row.scope = s ∧
    row.index = id ∧ ∀ x ∈ pre, x.op = some 101 → x.scope ≠ s

/-- A store of the scope is the first statement that takes the key of the scope. -/
def Leads (trace : List Row) (s : Text) : Prop :=
  ∃ pre row post, trace = pre ++ row :: post ∧ row.op = some 101 ∧ row.scope = s ∧
    ¬Taken (latest (pre.map Row.entry)) (keyOf s)

/-- A first scope that `readBugs` cuts out of an MPB line. -/
def IntactFirst (s : Text) : Prop := s.head? = some '_' ∨ ¬lit "pt__" <:+: s

theorem claims_keyOf (earlier : List Text) (s : Text) : Claims earlier s (keyOf s) := by
  rcases keyOf_cases s with ⟨-, hs⟩ | ⟨hhead, hs⟩
  · exact .inl hs
  · rw [hs]
    refine .inr ⟨rfl, fun rest hrest => absurd ?_ hhead⟩
    rw [hrest]
    rfl

theorem taken_of_mem {scopes : List Text} {s : Text} (h : s ∈ scopes) : Taken scopes (keyOf s) := by
  induction scopes with
  | nil => cases h
  | cons scope earlier ih =>
      rw [taken_cons]
      rcases List.mem_cons.mp h with rfl | h
      · exact .inr (claims_keyOf earlier s)
      · exact .inl (ih h)

section Lookup

variable {trace : List Row} {index : List (Text × Nat)} {s key : Text}

theorem unique_index (hids : (trace.map Row.index).Nodup) {pre post pre' post' : List Row}
    {row row' : Row} (h : trace = pre ++ row :: post) (h' : trace = pre' ++ row' :: post')
    (heq : row.index = row'.index) : pre = pre' ∧ row = row' := by
  have hrow : row ∈ trace := by simp [h]
  have hrow' : row' ∈ trace := by simp [h']
  obtain rfl : row = row' := List.inj_on_of_nodup_map hids hrow hrow' heq
  have hnodup : trace.Nodup := hids.of_map
  rw [h'] at hnodup
  have hnot := (List.nodup_cons.mp (List.nodup_middle.mp hnodup)).1
  rw [List.mem_append, not_or] at hnot
  obtain ⟨hpre, -⟩ := (List.append_cons_inj_of_notMem hnot.1 hnot.2).mp (h'.symm.trans h)
  exact ⟨hpre.symm, rfl⟩

theorem lookup_firstStore_iff (hids : (trace.map Row.index).Nodup)
    (hindex : scopeIndex (trace.map Row.entry) = some index) {P : Prop}
    (hkey : P → key = keyOf s) (hscope : s = key ∨ s = '_' :: key → P) :
    (∃ id, FirstStore trace s id ∧ index.lookup key = some id) ↔ P ∧ Leads trace s := by
  constructor
  · rintro ⟨id, ⟨pre, row, post, htrace, hop, rfl, rfl, -⟩, hlookup⟩
    obtain ⟨before, scope, after, hsplit, hfree, hclaims⟩ := (scopeIndex_lookup hindex).2.mp hlookup
    obtain ⟨pre', rest, heq, rfl, hrest⟩ := List.map_eq_append_iff.mp hsplit
    obtain ⟨row', post', rfl, hentry, -⟩ := List.map_eq_cons_iff.mp hrest
    obtain ⟨hsame, hindexRow⟩ := Prod.mk.inj hentry
    obtain ⟨rfl, rfl⟩ := unique_index hids htrace heq hindexRow.symm
    have hP : P := hscope (by
      rw [hsame]
      exact hclaims.symm.imp_left And.left)
    exact ⟨hP, pre, row, post, htrace, hop, rfl, hkey hP ▸ hfree⟩
  · rintro ⟨hP, pre, row, post, htrace, hop, rfl, hfree⟩
    refine ⟨row.index, ⟨pre, row, post, htrace, hop, rfl, rfl, fun x hx _ hsame => hfree ?_⟩, ?_⟩
    · rw [← hsame]
      apply taken_of_mem
      rw [latest, List.mem_reverse, List.map_map]
      exact List.mem_map_of_mem hx
    · rw [hkey hP, (scopeIndex_lookup hindex).2]
      exact ⟨pre.map Row.entry, row.scope, post.map Row.entry,
        by rw [htrace]; simp [Row.entry], hfree,
        claims_keyOf _ _⟩

end Lookup

/-! ### Round trips -/

/-- The line is read as a pair of stores. -/
def Resolves (file : Text) (entries : List (Text × Nat)) (line : Text) (first second : Nat) :
    Prop :=
  ∃ index, scopeIndex entries = some index ∧ line ∈ bugLines file ∧ ¬lit "DURA" <:+: line ∧
    BugReader.resolveMPB index line = some (first, second)

/-- No line fails, and every line is read as the first stores of its scopes. -/
def RoundTrips (trace : List Row) : Prop :=
  ∃ bugs reader, Convert.generateBugConstraints trace = some bugs ∧
    readBugs (bugFile bugs) (trace.map Row.entry) = some reader ∧
    reader.failedDURA = 0 ∧ reader.failedMPB = 0 ∧
    (∀ s, duraLine s ∈ bugs → ∃ id, FirstStore trace s id ∧
      Yields (bugFile bugs) (trace.map Row.entry) (duraLine s) (.dura (.line id))) ∧
    ∀ s t, mpbLine s t ∈ bugs → ∃ first second, FirstStore trace s first ∧
      FirstStore trace t second ∧
      Resolves (bugFile bugs) (trace.map Row.entry) (mpbLine s t) first second

/-- When a line is read back. -/
structure LinesReadBack (trace : List Row) (bugs : List Text) : Prop where
  dura : ∀ s, duraLine s ∈ bugs → Intact s ∧ Leads trace s
  mpb : ∀ s t, mpbLine s t ∈ bugs → ¬lit "DURA" <:+: mpbLine s t ∧
    (IntactFirst s ∧ Leads trace s) ∧ Intact t ∧ Leads trace t

section RoundTrip

variable {trace : List Row} {index : List (Text × Nat)} {bugs : List Text} {line s t : Text}

theorem dura_infix_duraLine (s : Text) : lit "DURA" <:+: duraLine s := by
  have hhead : lit "DURA" <:+: lit "DURA:[ pt_" := by with_unfolding_all decide
  rw [duraLine, List.append_assoc]
  exact hhead.trans (List.prefix_append _ _).isInfix

theorem mpbLine_inj {site site' : Site} (h : mpbLine s t = mpbLine site.scope site'.scope) :
    s = site.scope ∧ t = site'.scope := by
  have hmiddle : lit "; pt_" = ';' :: lit " pt_" ∧ ';' ∉ lit " pt_" := by with_unfolding_all decide
  have hlines : ∀ s t,
      mpbLine s t = lit "MPB: [pt_" ++ (s ++ ';' :: (lit " pt_" ++ t ++ [']'])) := by
    intro s t
    rw [mpbLine, hmiddle.1]
    simp
  rw [hlines, hlines, List.append_cancel_left_eq] at h
  have hright : ';' ∉ lit " pt_" ++ site'.scope ++ [']'] := by
    simp [hmiddle.2, site'.not_mem_scope]
  obtain ⟨hs, -, ht⟩ :=
    (List.append_cons_inj_of_notMem (site.not_mem_scope (by simp)) hright).mp h.symm
  rw [List.append_assoc, List.append_assoc, List.append_cancel_left_eq] at ht
  exact ⟨hs.symm, (List.append_cancel_right ht).symm⟩

theorem LineOf.exists_bugLine (hplaced : ∀ row ∈ trace, Convert.Placed row)
    (h : Convert.LineOf trace line) : ∃ bug : BugLine, bug.text = line := by
  rcases h with ⟨row, hrow, -, rfl⟩ | ⟨row, hrow, next, hnext, -, -, rfl⟩
  · obtain ⟨site, hsite⟩ := hplaced row hrow
    exact ⟨.dura site, by rw [hsite]; rfl⟩
  · obtain ⟨site, hsite⟩ := hplaced row hrow
    obtain ⟨site', hsite'⟩ := hplaced next hnext
    exact ⟨.mpb site site', by rw [hsite, hsite']; rfl⟩

theorem bugLines_of_lineOf (hplaced : ∀ row ∈ trace, Convert.Placed row)
    (hlines : ∀ line ∈ bugs, Convert.LineOf trace line) : bugLines (bugFile bugs) = bugs := by
  obtain ⟨lines, rfl⟩ : bugs ∈ Set.range (List.map BugLine.text) := by
    rw [Set.range_list_map]
    exact fun line hline => LineOf.exists_bugLine hplaced (hlines line hline)
  exact bugLines_bugFile lines

theorem site_of_duraLine (hplaced : ∀ row ∈ trace, Convert.Placed row)
    (h : Convert.LineOf trace (duraLine s)) : ∃ site : Site, s = site.scope := by
  rcases h with ⟨row, hrow, -, heq⟩ | ⟨row, -, next, -, -, -, heq⟩
  · rw [Convert.duraLine_injective heq]
    exact hplaced row hrow
  · exact absurd heq (Convert.duraLine_ne_mpbLine _ _ _)

theorem sites_of_mpbLine (hplaced : ∀ row ∈ trace, Convert.Placed row)
    (h : Convert.LineOf trace (mpbLine s t)) :
    ∃ site site' : Site, s = site.scope ∧ t = site'.scope := by
  rcases h with ⟨row, -, -, heq⟩ | ⟨row, hrow, next, hnext, -, -, heq⟩
  · exact absurd heq.symm (Convert.duraLine_ne_mpbLine _ _ _)
  · obtain ⟨site, hsite⟩ := hplaced row hrow
    obtain ⟨site', hsite'⟩ := hplaced next hnext
    rw [hsite, hsite'] at heq
    exact ⟨site, site', mpbLine_inj heq⟩

theorem resolveDURA_iff (hids : (trace.map Row.index).Nodup)
    (hindex : scopeIndex (trace.map Row.entry) = some index) (site : Site) :
    (∃ id, FirstStore trace site.scope id ∧
        BugReader.resolveDURA index (duraLine site.scope) = some id) ↔
      Intact site.scope ∧ Leads trace site.scope := by
  obtain ⟨hkey, hscope⟩ := strip_cutOut site.solid
  rw [BugReader.resolveDURA, duraKey_duraLine]
  exact lookup_firstStore_iff hids hindex hkey hscope

theorem resolveMPB_iff (hids : (trace.map Row.index).Nodup)
    (hindex : scopeIndex (trace.map Row.entry) = some index) (site site' : Site) :
    (∃ first second, FirstStore trace site.scope first ∧ FirstStore trace site'.scope second ∧
        BugReader.resolveMPB index (mpbLine site.scope site'.scope) = some (first, second)) ↔
      (IntactFirst site.scope ∧ Leads trace site.scope) ∧
        Intact site'.scope ∧ Leads trace site'.scope := by
  obtain ⟨hkey, hscope⟩ := strip_cutOut site'.solid
  have hfirst := @lookup_firstStore_iff trace index site.scope
    (if site.scope.head? ≠ some '_' ∧ lit "pt__" <:+: site.scope then
      lit "MPB: [pt_" ++ site.scope else keyOf site.scope) hids hindex (IntactFirst site.scope)
    (fun hintact => by
      rw [if_neg]
      rintro ⟨hhead, hmark⟩
      exact hintact.elim hhead fun hnot => hnot hmark)
    (fun hscope => by
      by_contra hnot
      rw [IntactFirst, not_or, not_not] at hnot
      rw [if_pos hnot] at hscope
      have hbracket : '[' ∈ lit "MPB: [pt_" := by with_unfolding_all decide
      refine site.not_mem_scope (by simp) (?_ : '[' ∈ site.scope)
      rcases hscope with hscope | hscope <;> rw [hscope] <;> simp [hbracket])
  rw [← hfirst, ← lookup_firstStore_iff hids hindex hkey hscope, BugReader.resolveMPB,
    firstKey_mpbLine, secondKey_mpbLine]
  constructor
  · rintro ⟨first, second, hstore, hstore', hresolve⟩
    simp only [Option.bind_eq_bind, Option.bind_some] at hresolve
    obtain ⟨first', hlookup, hrest⟩ := Option.bind_eq_some_iff.mp hresolve
    obtain ⟨second', hlookup', hpair⟩ := Option.bind_eq_some_iff.mp hrest
    obtain ⟨rfl, rfl⟩ := Prod.mk.inj (Option.some.inj hpair)
    exact ⟨⟨first', hstore, hlookup⟩, second', hstore', hlookup'⟩
  · rintro ⟨⟨first, hstore, hlookup⟩, second, hstore', hlookup'⟩
    refine ⟨first, second, hstore, hstore', ?_⟩
    simp only [Option.bind_eq_bind, Option.bind_some, hlookup, hlookup']
    rfl

theorem exists_scopeIndex_of_placed (hplaced : ∀ row ∈ trace, Convert.Placed row) :
    ∃ index, scopeIndex (trace.map Row.entry) = some index := by
  refine exists_scopeIndex fun entry hentry => ?_
  obtain ⟨row, hrow, rfl⟩ := List.mem_map.mp hentry
  obtain ⟨site, hsite⟩ := hplaced row hrow
  rw [Row.entry, hsite, Site.scope]
  simp

/-- The lines of a trace come back as the first stores of their scopes exactly when no mark is
within a scope, no MPB line is taken for a DURA line, and every scope leads to its own store. -/
theorem roundTrips_iff (trace : List Row) (hplaced : ∀ row ∈ trace, Convert.Placed row)
    (hids : (trace.map Row.index).Nodup) :
    RoundTrips trace ↔
      ∀ bugs, Convert.generateBugConstraints trace = some bugs → LinesReadBack trace bugs := by
  obtain ⟨bugs, hbugs, -, -, hlines⟩ := Convert.generateBugConstraints_spec hplaced
  obtain ⟨index, hindex⟩ := exists_scopeIndex_of_placed hplaced
  have hfile := bugLines_of_lineOf hplaced hlines
  have hread : readBugs (bugFile bugs) (trace.map Row.entry) =
      some (bugs.foldl (BugReader.readLine index) {}) := by
    rw [readBugs, hindex, hfile]
    rfl
  obtain ⟨-, hfailed, -, hfailed'⟩ := @BugReader.foldl_counts index bugs {}
  constructor
  · rintro ⟨bugs', reader, hbugs', hreader, hnone, hnone', hdura, hmpb⟩ bugs'' hbugs''
    obtain rfl : bugs = bugs' := Option.some.inj (hbugs.symm.trans hbugs')
    obtain rfl : bugs = bugs'' := Option.some.inj (hbugs.symm.trans hbugs'')
    refine ⟨fun s hs => ?_, fun s t hst => ?_⟩
    · obtain ⟨site, rfl⟩ := site_of_duraLine hplaced (hlines _ hs)
      obtain ⟨id, hstore, index', hindex', -, hbug⟩ := hdura _ hs
      obtain rfl : index = index' := Option.some.inj (hindex.symm.trans hindex')
      rw [BugReader.lineBug, if_pos (dura_infix_duraLine _)] at hbug
      obtain ⟨data, hresolve, heq⟩ := Option.map_eq_some_iff.mp hbug
      obtain rfl : data = id := by simpa using heq
      exact (resolveDURA_iff hids hindex site).mp ⟨data, hstore, hresolve⟩
    · obtain ⟨site, site', rfl, rfl⟩ := sites_of_mpbLine hplaced (hlines _ hst)
      obtain ⟨first, second, hstore, hstore', index', hindex', -, hnot, hresolve⟩ := hmpb _ _ hst
      obtain rfl : index = index' := Option.some.inj (hindex.symm.trans hindex')
      exact ⟨hnot, (resolveMPB_iff hids hindex site site').mp
        ⟨first, second, hstore, hstore', hresolve⟩⟩
  · intro h
    obtain ⟨hdura, hmpb⟩ := h bugs hbugs
    have hduraLine : ∀ s, duraLine s ∈ bugs → ∃ id, FirstStore trace s id ∧
        BugReader.resolveDURA index (duraLine s) = some id := by
      intro s hs
      obtain ⟨site, rfl⟩ := site_of_duraLine hplaced (hlines _ hs)
      exact (resolveDURA_iff hids hindex site).mpr (hdura _ hs)
    have hmpbLine : ∀ s t, mpbLine s t ∈ bugs → ∃ first second, FirstStore trace s first ∧
        FirstStore trace t second ∧
        BugReader.resolveMPB index (mpbLine s t) = some (first, second) := by
      intro s t hst
      obtain ⟨site, site', rfl, rfl⟩ := sites_of_mpbLine hplaced (hlines _ hst)
      exact (resolveMPB_iff hids hindex site site').mpr (hmpb _ _ hst).2
    refine ⟨bugs, _, hbugs, hread, ?_, ?_, fun s hs => ?_, fun s t hst => ?_⟩
    · rw [hfailed, Nat.zero_add, List.countP_eq_zero]
      intro line hline
      rcases hlines line hline with ⟨row, -, -, rfl⟩ | ⟨row, -, next, -, -, -, rfl⟩
      · obtain ⟨id, -, hresolve⟩ := hduraLine _ hline
        simp [hresolve]
      · simp [(hmpb _ _ hline).1]
    · rw [hfailed', Nat.zero_add, List.countP_eq_zero]
      intro line hline
      rcases hlines line hline with ⟨row, -, -, rfl⟩ | ⟨row, -, next, -, -, -, rfl⟩
      · simp [dura_infix_duraLine]
      · obtain ⟨first, second, -, -, hresolve⟩ := hmpbLine _ _ hline
        simp [hresolve]
    · obtain ⟨id, hstore, hresolve⟩ := hduraLine s hs
      refine ⟨id, hstore, index, hindex, by rwa [hfile], ?_⟩
      rw [BugReader.lineBug, if_pos (dura_infix_duraLine s), hresolve]
      rfl
    · obtain ⟨first, second, hstore, hstore', hresolve⟩ := hmpbLine s t hst
      exact ⟨first, second, hstore, hstore', index, hindex, by rwa [hfile],
        (hmpb s t hst).1, hresolve⟩

end RoundTrip

/-- A store of a value, and a store of what was read from there. -/
def putRows : List Row :=
  [{ index := 2, op := some 101, add := lit "'0x10'", dep := .text (lit "'-1'"), tid := 0,
     scope := lit "put_12" },
   { index := 3, op := some 101, add := lit "'0x20'", dep := .text (lit "'0x10'"), tid := 0,
     scope := lit "_put_13" }]

theorem roundTrips_putRows : RoundTrips putRows := by
  have hplaced : ∀ row ∈ putRows, Convert.Placed row := by
    have hput : lit "put_12" = (⟨lit "put", 12, by with_unfolding_all decide⟩ : Site).scope ∧
        lit "_put_13" = (⟨lit "_put", 13, by with_unfolding_all decide⟩ : Site).scope := by
      with_unfolding_all decide
    intro row hrow
    simp only [putRows, List.mem_cons, List.not_mem_nil, or_false] at hrow
    rcases hrow with rfl | rfl
    · exact ⟨_, hput.1⟩
    · exact ⟨_, hput.2⟩
  have hlines : Convert.generateBugConstraints putRows = some [duraLine (lit "put_12"),
      mpbLine (lit "put_12") (lit "_put_13"), duraLine (lit "_put_13")] := by
        with_unfolding_all decide
  have hintact : Intact (lit "put_12") ∧ Intact (lit "_put_13") ∧ IntactFirst (lit "put_12") ∧
      ¬lit "DURA" <:+: mpbLine (lit "put_12") (lit "_put_13") := by
    unfold Intact IntactFirst
    with_unfolding_all decide
  have hleads : Leads putRows (lit "put_12") := ⟨[], putRows[0], [putRows[1]], rfl, rfl, rfl, id⟩
  have hleads' : Leads putRows (lit "_put_13") := by
    refine ⟨[putRows[0]], putRows[1], [], rfl, rfl, rfl, fun htaken => ?_⟩
    obtain ⟨scope, hmem, heq⟩ := htaken.exists_mem
    obtain rfl : scope = lit "put_12" := List.mem_singleton.mp hmem
    revert heq
    with_unfolding_all decide
  have hsites : ∀ s t, mpbLine s t = mpbLine (lit "put_12") (lit "_put_13") →
      s = lit "put_12" ∧ t = lit "_put_13" := by
    have hput : lit "put_12" = (⟨lit "put", 12, by with_unfolding_all decide⟩ : Site).scope ∧
        lit "_put_13" = (⟨lit "_put", 13, by with_unfolding_all decide⟩ : Site).scope := by
      with_unfolding_all decide
    rw [hput.1, hput.2]
    exact fun s t heq => mpbLine_inj heq
  refine (roundTrips_iff putRows hplaced (by decide)).mpr fun bugs hbugs => ?_
  obtain rfl := Option.some.inj (hlines.symm.trans hbugs)
  refine ⟨fun s hs => ?_, fun s t hst => ?_⟩
  · simp only [List.mem_cons, List.not_mem_nil, or_false, Convert.duraLine_injective.eq_iff,
      Convert.duraLine_ne_mpbLine, false_or] at hs
    rcases hs with rfl | rfl
    · exact ⟨hintact.1, hleads⟩
    · exact ⟨hintact.2.1, hleads'⟩
  · simp only [List.mem_cons, List.not_mem_nil, or_false, (Convert.duraLine_ne_mpbLine _ _ _).symm,
      false_or] at hst
    obtain ⟨rfl, rfl⟩ := hsites s t hst
    exact ⟨hintact.2.2.2, ⟨hintact.2.2.1, hleads⟩, hintact.2.1, hleads'⟩

/-- A store in a function `opt_put`. -/
def optRow : Row :=
  { index := 2, op := some 101, add := lit "'0x10'", dep := .text (lit "'-1'"), tid := 0,
    scope := lit "opt_put_12" }

/-- The mark of the line is taken away from the name as well, and `oput_12` is no scope. -/
theorem not_roundTrips_opt : ¬RoundTrips [optRow] := by
  rintro ⟨bugs, reader, hbugs, hreader, hnone, -⟩
  have hlines : Convert.generateBugConstraints [optRow] = some [duraLine (lit "opt_put_12")] := by
    with_unfolding_all decide
  have hread : readBugs (bugFile [duraLine (lit "opt_put_12")]) [optRow.entry] =
      some { totalDURA := 1, failedDURA := 1 } := by with_unfolding_all decide
  obtain rfl := Option.some.inj (hlines.symm.trans hbugs)
  obtain rfl := Option.some.inj (hread.symm.trans hreader)
  cases hnone

end PMBugRepair
