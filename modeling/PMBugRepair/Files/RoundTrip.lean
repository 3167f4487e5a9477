import PMBugRepair.Files.Lines

/-!
# Trace files round-trip

What the formatter writes, step 1 reads, and what step 1 writes, step 4 reads: the threads in the
first line, then every statement.
-/

namespace PMBugRepair

open Strings (Text lit strip stripWhile repr strList commaJoin int replace)

section Files

variable (printable : Char → Bool) (threads : List (Text × Nat)) (trace : List Formatted)

/-- Step 1 reads the statements that the formatter wrote. -/
def RecoversFormatted : Prop :=
  Step1.parseTrace (formatterFile printable threads trace) =
    some ((trace.zipIdx 2).map fun stmt => stmt.1.row stmt.2, threadsLine printable threads,
      threads.map fun thread => (thread.1, (thread.2 : Int)))

/-- Step 4 reads the statements that step 1 writes, those it inserted among them. -/
def RecoversRepaired : Prop :=
  ∀ rows : List Row, (∀ row ∈ rows, ∃ stmt ∈ trace, ∃ k, row = stmt.row k ∨
      row = (stmt.row k).flush ∨ row = (stmt.row k).fence) →
    Step4.parseTrace (step1File printable (threadsLine printable threads) rows) =
      some ((rows.zipIdx 2).map fun row => row.1.read row.2, threadsLine printable threads,
        threads.map fun thread => (thread.1, (thread.2 : Int)))

end Files

/-! ### The first line -/

section Header

variable {printable : Char → Bool} {threads : List (Text × Nat)}

/-- An entry of the first line, with blanks around it. -/
def EntryOf (thread : Text × Nat) (entry : Text) : Prop :=
  ∃ front back : Text, (∀ c ∈ front, c = ' ') ∧ (∀ c ∈ back, c = '\n') ∧
    entry = front ++ ('\'' :: (thread.1 ++ ['\''])) ++ ':' :: ' ' :: (digits thread.2 ++ back)

theorem EntryOf.readEntry {thread : Text × Nat} {entry : Text} (h : EntryOf thread entry)
    (hkey : ∃ n, thread.1 = digits n) :
    readEntry entry = some (thread.1, (thread.2 : Int)) := by
  obtain ⟨front, back, hfront, hback, rfl⟩ := h
  obtain ⟨n, hn⟩ := hkey
  have hdigit : ∀ {m : Nat} {c : Char}, c ∈ digits m → c.isDigit = true :=
    fun hc => Nat.isDigit_of_mem_toDigits (by decide) (by decide) hc
  have hcolon : ∀ m : Nat, ':' ∉ digits m := fun m hm => absurd (hdigit hm) (by decide)
  have hleft : ':' ∉ front ++ ('\'' :: (thread.1 ++ ['\''])) := by
    have hnot : ':' ∉ front := fun hmem => absurd (hfront _ hmem) (by decide)
    simp [hnot, hn, hcolon]
  have hright : ':' ∉ ' ' :: (digits thread.2 ++ back) := by
    have hnot : ':' ∉ back := fun hmem => absurd (hback _ hmem) (by decide)
    simp [hnot, hcolon]
  have hkey : strip ((front ++ ('\'' :: (thread.1 ++ ['\'']))).filter (· ≠ '\'')) = thread.1 := by
    have hself : thread.1.filter (· ≠ '\'') = thread.1 := by
      rw [hn]
      exact @filter_decimal n '\'' (by simp)
    rw [List.filter_append, List.filter_cons_of_neg (by decide), List.filter_append, hself, strip,
      Strings.stripWhile_append_left]
    · rw [List.filter_cons_of_neg (by decide), List.filter_nil, List.append_nil, hn]
      exact Strings.strip_toDigits n
    · intro c hc
      rw [hfront c (List.mem_of_mem_filter hc)]
      decide
  have hnumber : int (strip (' ' :: (digits thread.2 ++ back))) = some (thread.2 : Int) := by
    have hstrip : strip (digits thread.2 ++ back) = digits thread.2 := by
      rw [strip, Strings.stripWhile_append_right]
      · exact Strings.strip_toDigits thread.2
      · intro c hc
        rw [hback c hc]
        decide
    rw [strip_cons_blank, hstrip]
    exact Strings.int_toDigits thread.2
  have hsecond := @Strings.getElem?_splitOn ':' (front ++ ('\'' :: (thread.1 ++ ['\''])))
    (' ' :: (digits thread.2 ++ back))
  rw [List.count_eq_zero_of_not_mem hleft, Strings.takeWhile_eq_self hright] at hsecond
  simp only [PMBugRepair.readEntry, Strings.getElem?_zero_splitOn,
    Strings.takeWhile_append_sep hleft, hsecond, Option.bind_eq_bind, Option.bind_some, hkey,
    hnumber, Option.pure_def]

/-- An entry as it is printed. -/
def entry (thread : Text × Nat) : Text :=
  '\'' :: (thread.1 ++ ['\'']) ++ ':' :: ' ' :: digits thread.2

theorem repr_entry {thread : Text × Nat} (hkey : ∃ n, thread.1 = digits n) :
    repr printable thread.1 ++ lit ": " ++ digits thread.2 = entry thread := by
  obtain ⟨n, hn⟩ := hkey
  have hclean : Clean (digits n) := by
    intro c hc
    apply not_mem_digits_of_mark
    revert c
    decide
  have hliteral : Literal printable (digits n) :=
    (@Value.Literal.readable printable (.num n) trivial trivial).2.1
  have hcolon : lit ": " = [':', ' '] := by with_unfolding_all decide
  rw [hn, hclean.repr, hclean.escaped_eq_self_iff.mpr hliteral, hcolon, entry, hn]
  simp

theorem not_mem_entry {thread : Text × Nat} (hkey : ∃ n, thread.1 = digits n) {c : Char}
    (hc : c ∈ [',', '[', ']', '\n', '\r', 'T', '}']) : c ∉ entry thread := by
  obtain ⟨n, hn⟩ := hkey
  have hother : c.isDigit = false ∧ c ∉ ['\'', ':', ' '] := by
    revert c
    decide
  have hdigits : ∀ m : Nat, c ∉ digits m := by
    intro m hmem
    have hdigit := Nat.isDigit_of_mem_toDigits (by decide) (by decide) hmem
    rw [hother.1] at hdigit
    cases hdigit
  have hmarks := hother.2
  simp only [List.mem_cons, List.not_mem_nil, or_false, not_or] at hmarks
  simp [entry, hn, hdigits, hmarks]

theorem forall₂_entryOf (hkeys : ∀ thread ∈ threads, ∃ n, thread.1 = digits n)
    (hne : threads ≠ []) (front : Text) (hfront : ∀ c ∈ front, c = ' ') :
    List.Forall₂ EntryOf threads
      ((front ++ commaJoin (threads.map entry) ++ ['\n']).splitOn ',') := by
  induction threads generalizing front with
  | nil => exact absurd rfl hne
  | cons thread rest ih =>
      obtain ⟨hkey, hkeys⟩ := List.forall_mem_cons.mp hkeys
      have hcomma : ',' ∉ front ++ entry thread := by
        have hnot : ',' ∉ front := fun hmem => absurd (hfront _ hmem) (by decide)
        have hentry := @not_mem_entry thread hkey ',' (by simp)
        simp [hnot, hentry]
      cases rest with
      | nil =>
          rw [List.map_singleton, commaJoin, List.splitOn_eq_singleton (by simpa using hcomma)]
          refine .cons ⟨front, ['\n'], hfront, by simp, ?_⟩ .nil
          simp [entry]
      | cons next rest =>
          have htail := ih hkeys (by simp) [' '] (by simp)
          rw [List.map_cons, List.map_cons, commaJoin, ← List.map_cons]
          have hsplit : front ++ (entry thread ++
              ',' :: ' ' :: commaJoin ((next :: rest).map entry)) ++ ['\n'] =
              (front ++ entry thread) ++ ',' ::
                ([' '] ++ commaJoin ((next :: rest).map entry) ++ ['\n']) := by
            simp
          rw [hsplit, List.splitOn_append_cons_self, List.splitOn_eq_singleton hcomma]
          refine .cons ⟨front, [], hfront, by simp, ?_⟩ htail
          simp [entry]

theorem threadsLine_eq (hkeys : ∀ thread ∈ threads, ∃ n, thread.1 = digits n) :
    threadsLine printable threads =
      lit "Threads: [\x7b" ++ commaJoin (threads.map entry) ++ lit "\x7d]\n" := by
  have hprinted : threads.map (fun thread =>
      repr printable thread.1 ++ lit ": " ++ digits thread.2) = threads.map entry :=
    List.map_congr_left fun thread hthread => repr_entry (hkeys thread hthread)
  rw [threadsLine, hprinted]

theorem not_mem_entries (hkeys : ∀ thread ∈ threads, ∃ n, thread.1 = digits n) {c : Char}
    (hc : c ∈ ['\n', '\r', 'T', '}']) : c ∉ commaJoin (threads.map entry) := by
  have hother : c ≠ ',' ∧ c ≠ ' ' ∧ c ∈ [',', '[', ']', '\n', '\r', 'T', '}'] := by
    revert c
    decide
  intro hmem
  rcases Strings.mem_commaJoin hmem with rfl | rfl | ⟨item, hitem, hmem⟩
  · exact hother.1 rfl
  · exact hother.2.1 rfl
  · obtain ⟨thread, hthread, rfl⟩ := List.mem_map.mp hitem
    exact not_mem_entry (hkeys thread hthread) hother.2.2 hmem

theorem readThreads_threadsLine (hkeys : ∀ thread ∈ threads, ∃ n, thread.1 = digits n)
    (hne : threads ≠ []) :
    readThreads (threadsLine printable threads) =
      some (threads.map fun thread => (thread.1, (thread.2 : Int))) := by
  obtain ⟨opening, hopening⟩ : ∃ rest, lit "Threads: [\x7b" = 'T' :: rest := by
    exact ⟨(lit "Threads: [\x7b").tail, by with_unfolding_all decide⟩
  have hclosing : lit "\x7d]" = ['}', ']'] ∧ lit "\x7d]\n" = lit "\x7d]" ++ ['\n'] := by
    with_unfolding_all decide
  have hfirst : replace (lit "Threads: [\x7b") [] (threadsLine printable threads) =
      commaJoin (threads.map entry) ++ lit "\x7d]\n" := by
    have hrest : 'T' ∉ commaJoin (threads.map entry) ++ lit "\x7d]\n" := by
      have hend : 'T' ∉ lit "\x7d]\n" := by with_unfolding_all decide
      simp [not_mem_entries hkeys, hend]
    rw [threadsLine_eq hkeys, List.append_assoc,
      Strings.replace_append_old (by rw [hopening]; simp), List.nil_append, hopening,
      Strings.replace_of_notMem hrest]
  have hsecond : replace (lit "\x7d]") [] (commaJoin (threads.map entry) ++ lit "\x7d]\n") =
      commaJoin (threads.map entry) ++ ['\n'] := by
    have hend : replace ['}', ']'] [] (['}', ']'] ++ ['\n']) = ['\n'] := by
      with_unfolding_all decide
    rw [hclosing.2, hclosing.1,
      Strings.replace_append_of_notMem (not_mem_entries hkeys (by simp)), hend]
  rw [readThreads, hfirst, hsecond]
  apply Lists.mapM_of_forall₂
  have hentries := forall₂_entryOf hkeys hne [] (by simp)
  rw [List.forall₂_map_right_iff]
  refine List.Forall₂.flip (((List.forall₂_and_left _ _).mpr ⟨hkeys, hentries⟩).imp ?_)
  rintro thread text ⟨hkey, hentry⟩
  exact hentry.readEntry hkey

theorem exists_threadsLine (hkeys : ∀ thread ∈ threads, ∃ n, thread.1 = digits n) :
    ∃ header, threadsLine printable threads = header ++ ['\n'] ∧ '\n' ∉ header ∧ '\r' ∉ header := by
  have hclosing : lit "\x7d]\n" = lit "\x7d]" ++ ['\n'] := by with_unfolding_all decide
  have hends : ∀ c ∈ ['\n', '\r'], c ∉ lit "Threads: [\x7b" ∧ c ∉ lit "\x7d]" := by
    with_unfolding_all decide
  have hnot : ∀ c ∈ ['\n', '\r'],
      c ∉ lit "Threads: [\x7b" ++ commaJoin (threads.map entry) ++ lit "\x7d]" := by
    intro c hc
    have hentries : c ∉ commaJoin (threads.map entry) := by
      apply not_mem_entries hkeys
      simp only [List.mem_cons, List.not_mem_nil, or_false] at hc ⊢
      tauto
    simp [hends c hc, hentries]
  refine ⟨lit "Threads: [\x7b" ++ commaJoin (threads.map entry) ++ lit "\x7d]", ?_,
    hnot '\n' (by simp), hnot '\r' (by simp)⟩
  rw [threadsLine_eq hkeys, hclosing, List.append_assoc, List.append_assoc, List.append_assoc]

theorem readThreads_nil : readThreads (threadsLine printable []) = none := by
  change readThreads (lit "Threads: [\x7b" ++ [] ++ lit "\x7d]\n") = none
  with_unfolding_all decide

end Header

/-! ### Whole files -/

section Whole

variable {printable : Char → Bool} {threads : List (Text × Nat)} {trace : List Formatted}

theorem lines_file {α : Type} {items : List α} {print : α → Text}
    (hkeys : ∀ thread ∈ threads, ∃ n, thread.1 = digits n)
    (hprint : ∀ item ∈ items, ∀ c ∈ ['\n', '\r'], c ∉ print item) :
    Strings.lines (Strings.universal (threadsLine printable threads ++
        items.flatMap fun item => print item ++ ['\n'])) =
      threadsLine printable threads :: items.map fun item => print item ++ ['\n'] := by
  obtain ⟨header, hheader, hnewline, hreturn⟩ := @exists_threadsLine printable threads hkeys
  rw [Strings.universal_of_notMem, hheader, List.append_assoc, List.singleton_append,
    Strings.lines_append hnewline,
    Strings.lines_flatMap fun item hitem => hprint item hitem '\n' (by simp)]
  rw [hheader]
  simp only [List.mem_append, List.mem_flatMap, List.mem_cons, List.not_mem_nil, or_false,
    not_or, not_exists, not_and]
  exact ⟨⟨hreturn, by decide⟩, fun item hitem => ⟨hprint item hitem '\r' (by simp), by decide⟩⟩

theorem readTrace_file {α β : Type} {readLine : Text → Nat → Option β} {items : List α}
    {print : α → Text} {out : α → Nat → β}
    (hkeys : ∀ thread ∈ threads, ∃ n, thread.1 = digits n) (hne : threads ≠ [])
    (hprint : ∀ item ∈ items, ∀ c ∈ ['\n', '\r'], c ∉ print item)
    (hread : ∀ item ∈ items, ∀ k, readLine (print item ++ ['\n']) k = some (out item k)) :
    readTrace readLine (threadsLine printable threads ++
        items.flatMap fun item => print item ++ ['\n']) =
      some ((items.zipIdx 2).map fun item => out item.1 item.2, threadsLine printable threads,
        threads.map fun thread => (thread.1, (thread.2 : Int))) := by
  have hrows : ∀ k, ((items.map fun item => print item ++ ['\n']).zipIdx k).mapM
      (fun line => readLine line.1 line.2) =
      some ((items.zipIdx k).map fun item => out item.1 item.2) := by
    clear hprint
    induction items with
    | nil => exact fun k => rfl
    | cons item items ih =>
        obtain ⟨hitem, hitems⟩ := List.forall_mem_cons.mp hread
        intro k
        simp [List.mapM_cons, hitem k, ih hitems]
  unfold readTrace
  rw [lines_file hkeys hprint]
  simp only [readThreads_threadsLine hkeys hne, hrows, Option.bind_eq_bind, Option.bind_some,
    Option.pure_def]

theorem Formatted.Clean.not_mem_str {stmt : Formatted} (h : stmt.Clean) {c : Char}
    (hc : c ∈ ['\n', '\r']) : c ∉ stmt.str printable :=
  h.fields.not_mem_strList hc

theorem parseTrace_formatterFile (hclean : ∀ stmt ∈ trace, stmt.Clean)
    (hkeys : ∀ thread ∈ threads, ∃ n, thread.1 = digits n) (hne : threads ≠ []) :
    Step1.parseTrace (formatterFile printable threads trace) =
      some ((trace.zipIdx 2).map fun stmt => stmt.1.readRow printable stmt.2,
        threadsLine printable threads,
        threads.map fun thread => (thread.1, (thread.2 : Int))) :=
  readTrace_file hkeys hne (fun stmt hstmt _ hc => (hclean stmt hstmt).not_mem_str hc)
    fun stmt hstmt _ => (hclean stmt hstmt).parseTraceHelper

theorem parseTrace_formatterFile_nil (hclean : ∀ stmt ∈ trace, stmt.Clean) :
    Step1.parseTrace (formatterFile printable [] trace) = none := by
  unfold Step1.parseTrace readTrace formatterFile
  rw [lines_file (by simp) fun stmt hstmt _ hc => (hclean stmt hstmt).not_mem_str hc]
  simp [readThreads_nil]

theorem recoversFormatted_iff (hclean : ∀ stmt ∈ trace, stmt.Clean)
    (hkeys : ∀ thread ∈ threads, ∃ n, thread.1 = digits n) :
    RecoversFormatted printable threads trace ↔
      threads ≠ [] ∧ ∀ stmt ∈ trace, stmt.Literal printable := by
  by_cases hne : threads = []
  · subst hne
    simp [RecoversFormatted, parseTrace_formatterFile_nil hclean]
  rw [RecoversFormatted, parseTrace_formatterFile hclean hkeys hne, Option.some.injEq,
    Prod.mk.injEq, List.map_inj_left]
  simp only [and_true, ne_eq, hne, not_false_eq_true, true_and]
  constructor
  · intro h stmt hstmt
    obtain ⟨k, hk⟩ := List.mem_iff_getElem?.mp hstmt
    have hmem : (stmt, 2 + k) ∈ trace.zipIdx 2 := List.mk_add_mem_zipIdx_iff_getElem?.mpr hk
    exact (hclean _ hstmt).readRow_eq_row_iff.mp (h _ hmem)
  · rintro h ⟨stmt, k⟩ hmem
    have hstmt : stmt ∈ trace := List.fst_mem_of_mem_zipIdx hmem
    exact (hclean stmt hstmt).readRow_eq_row_iff.mpr (h stmt hstmt)

theorem recoversRepaired (hclean : ∀ stmt ∈ trace, stmt.Clean)
    (hkeys : ∀ thread ∈ threads, ∃ n, thread.1 = digits n) (hne : threads ≠ [])
    (hliteral : ∀ stmt ∈ trace, stmt.Literal printable) :
    RecoversRepaired printable threads trace := by
  intro rows hrows
  have hreadable : ∀ row ∈ rows, row.Readable printable := by
    intro row hrow
    obtain ⟨stmt, hstmt, k, rfl | rfl | rfl⟩ := hrows row hrow
    · exact ((hliteral stmt hstmt).readable (hclean stmt hstmt) k).1
    · exact ((hliteral stmt hstmt).readable (hclean stmt hstmt) k).2.1
    · exact ((hliteral stmt hstmt).readable (hclean stmt hstmt) k).2.2
  exact readTrace_file hkeys hne
    (fun row hrow _ hc => (hreadable row hrow).fields.not_mem_strList hc)
    fun row hrow _ => (hreadable row hrow).parseTraceHelper

/-- Both passes recover the statements if `repr` changes no text, no scope begins or ends with
white space and there is a thread to write into the first line. -/
theorem recovers_iff (hclean : ∀ stmt ∈ trace, stmt.Clean)
    (hkeys : ∀ thread ∈ threads, ∃ n, thread.1 = digits n) :
    (RecoversFormatted printable threads trace ∧ RecoversRepaired printable threads trace) ↔
      threads ≠ [] ∧ ∀ stmt ∈ trace, stmt.Literal printable := by
  rw [← recoversFormatted_iff hclean hkeys]
  constructor
  · exact fun h => h.1
  · intro h
    obtain ⟨hne, hliteral⟩ := (recoversFormatted_iff hclean hkeys).mp h
    exact ⟨h, recoversRepaired hclean hkeys hne hliteral⟩

end Whole

instance (s : Text) : Decidable (Clean s) := inferInstanceAs (Decidable (∀ _ ∈ _, _))

/-- A store, with a dependency. -/
def roundStore : Formatted :=
  { op := .store, add := .text (lit "0x7f02"), dep := .text (lit "0x7f00"), tid := 1,
    scope := lit "put_12" }

/-- A flush whose scope begins with a blank. -/
def roundBlank : Formatted :=
  { op := .flush, add := .text (lit "0x7f02"), dep := .num (-1), tid := 1, scope := lit " put_12" }

theorem roundStore_clean : roundStore.Clean := by
  refine ⟨?_, ?_, ?_⟩
  all_goals
    change Clean _
    with_unfolding_all decide

theorem roundBlank_clean : roundBlank.Clean := by
  refine ⟨?_, trivial, ?_⟩
  all_goals
    change Clean _
    with_unfolding_all decide

theorem roundStore_literal (printable : Char → Bool) : roundStore.Literal printable := by
  have hascii : ∀ s ∈ [lit "0x7f02", lit "0x7f00", lit "put_12"], ∀ c ∈ s,
      c ≠ '\\' ∧ 32 ≤ c.toNat ∧ c.toNat < 127 := by with_unfolding_all decide
  have hliteral : ∀ s ∈ [lit "0x7f02", lit "0x7f00", lit "put_12"], Literal printable s :=
    fun s hs c hc => ⟨(hascii s hs c hc).1, .inl (hascii s hs c hc).2⟩
  exact ⟨hliteral (lit "0x7f02") (by simp), hliteral (lit "0x7f00") (by simp),
    hliteral (lit "put_12") (by simp), by with_unfolding_all decide⟩

theorem recovers_roundStore :
    RecoversFormatted (fun _ => true) [(digits 140, 0), (digits 152, 1)] [roundStore] ∧
      RecoversRepaired (fun _ => true) [(digits 140, 0), (digits 152, 1)] [roundStore] :=
  (recovers_iff (by simpa using roundStore_clean) (by simp)).mpr
    ⟨by simp, by simpa using roundStore_literal _⟩

/-- Step 1 does not recover the blank. -/
theorem not_recovers_roundBlank :
    (∀ stmt ∈ [roundBlank], stmt.Clean) ∧
      ¬RecoversFormatted (fun _ => true) [(digits 140, 0)] [roundBlank] := by
  have hclean : ∀ stmt ∈ [roundBlank], stmt.Clean := by simpa using roundBlank_clean
  refine ⟨hclean, ?_⟩
  rw [recoversFormatted_iff hclean (by simp)]
  rintro ⟨-, h⟩
  exact absurd (h roundBlank (by simp)).2.2.2 (by with_unfolding_all decide)

end PMBugRepair
