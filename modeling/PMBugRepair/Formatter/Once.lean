import PMBugRepair.Formatter.Words
import PMBugRepair.Formatter.Dependencies
import PMBugRepair.Containers.Stutter
import PMBugRepair.Bugs.Scopes
import PMBugRepair.Files.Lines

/-!
# Every event once

`fileReader` appends the statement of a store twice and that of a load once or twice, and
`removeDuplicates` takes the copies out again after the filter and the numbering of the threads.
-/

namespace PMBugRepair

open Strings (Text lit repr strList commaJoin)

/-- The loop of `removeDuplicates`, given the last statement that was kept. -/
def keepNew (printable : Char → Bool) (last : Formatted) : List Formatted → List Formatted
  | [] => []
  | stmt :: rest =>
      if stmt.str printable ≠ last.str printable ∧ ¬lit "Node" <:+: stmt.str printable then
        stmt :: keepNew printable stmt rest
      else keepNew printable last rest

/-- `none` is an `IndexError` for the empty trace. -/
def removeDuplicates (printable : Char → Bool) : List Formatted → Option (List Formatted)
  | [] => none
  | first :: rest => some (first :: keepNew printable first rest)

/-- The first half of the main program of `trace_formatter`. -/
def formatLog (printable : Char → Bool) (rows : List Text) (file₁ file₂ : Text) :
    Option (List Formatted) := do
  let reader ← fileReader rows
  let trace ← getRelevantTrace reader.contents file₁ file₂
  let trace ← format trace (getThreads trace) reader.dependencies reader.loads
  removeDuplicates printable trace

/-! ### Rows -/

/-- A line whose names have no blank and none of the words that are searched for; `Node` is searched
for when the semicolons of a scope are gone. -/
def Entry.Plain (entry : Entry) : Prop :=
  ∀ name ∈ entry.names, ' ' ∉ name ∧ Inert name ∧ ¬lit "Node" <:+: name.filter (· ≠ ';')

/-- The statement of a line, if it is one of an event that the formatter reads. -/
def Entry.statement (entry : Entry) (tid : BitVec 64) (r : Nat) : Option RowStmt :=
  match entry with
  | .event e => e.format (logLine tid e) r
  | _ => none

section Row

variable {before : List Text} {row : Text} {reader : Reader} {tid : BitVec 64} {entry : Entry}

theorem columns_of_formatSTOREs {r : Nat} {stmt : RowStmt} (h : formatSTOREs row r = some stmt) :
    (∃ add, column row 1 = some add ∧ stmt.add = .text add) ∧ (∃ uid, column row 5 = some uid) ∧
      ∃ load, formatLOAD row r = some load := by
  simp only [formatSTOREs, rowScope, Option.bind_eq_bind, Option.bind_eq_some_iff, Option.pure_def,
    Option.some_inj] at h
  obtain ⟨scope, ⟨scope', hscope, line, hline, -⟩, add, hadd, uid, huid, rfl⟩ := h
  refine ⟨⟨add, hadd, rfl⟩, ⟨uid, huid⟩, ?_⟩
  simp [formatLOAD, hscope, hadd, hline]

/-- The loop over the earlier rows does not fail. -/
theorem exists_findSource {add : Text} (hadd : column row 1 = some add)
    (h : ∀ earlier ∈ before, lit "Store" <:+: earlier →
      (∃ add, column earlier 1 = some add) ∧ ∃ uid, column earlier 5 = some uid) :
    ∃ source, findSource row before = some source := by
  induction before using List.reverseRecOn with
  | nil => exact ⟨[], rfl⟩
  | append_singleton before earlier ih =>
      obtain ⟨source, hsource⟩ := ih fun x hx => h x (List.mem_append_left _ hx)
      rw [findSource_concat, hsource]
      by_cases hstore : lit "Store" <:+: earlier
      · obtain ⟨⟨add', hadd'⟩, uid, huid⟩ := h earlier (by simp) hstore
        by_cases heq : add = add'
        · exact ⟨uid, by simp [hstore, hadd, hadd', heq, huid]⟩
        · exact ⟨source, by simp [hstore, hadd, hadd', heq]⟩
      · exact ⟨source, by simp [hstore]⟩

/-- What a row appends: a statement once or more. -/
def Appends (before : List Text) (row : Text) (reader : Reader) (stmt : RowStmt) : Prop :=
  ∃ reader' n, readRow before row reader = some reader' ∧
    reader'.contents = reader.contents ++ List.replicate (n + 1) stmt

theorem readRow_of_inert (h : Inert row) : readRow before row reader = some reader := by
  simp only [Inert, words, List.forall_mem_cons, List.not_mem_nil] at h
  simp [readRow, readLoad, readAccess, readStatement, h]

theorem appends_store {stmt : RowStmt} (hload : ¬lit "Load" <:+: row)
    (hstore : lit "Store" <:+: row) (hstmt : formatSTOREs row (before.length + 1) = some stmt) :
    Appends before row reader stmt := by
  obtain ⟨-, ⟨uid, huid⟩, load, hlookup⟩ := columns_of_formatSTOREs hstmt
  refine ⟨((reader.record uid load).append stmt).append stmt, 1, ?_, ?_⟩
  · simp [readRow, readLoad, readAccess, readStatement, hload, hstore, hstmt, huid, hlookup]
  · simp [Reader.append, Reader.record, List.replicate]

theorem appends_load {stmt : RowStmt} {source : Text} (hload : lit "Load" <:+: row)
    (hothers : ¬lit "Store" <:+: row ∧ ¬lit "FLUSH" <:+: row ∧ ¬lit "FENCE" <:+: row ∧
      ¬lit "Transaction" <:+: row ∧ ¬lit "DEP" <:+: row)
    (hstmt : formatSTOREs row (before.length + 1) = some stmt)
    (hsource : findSource row before = some source) : Appends before row reader stmt := by
  obtain ⟨-, ⟨uid, huid⟩, load, hlookup⟩ := columns_of_formatSTOREs hstmt
  by_cases hnil : source = []
  · refine ⟨(reader.record uid load).append stmt, 0, ?_, ?_⟩
    · simp [readRow, readLoad, readAccess, readStatement, hload, hothers, hstmt, huid, hlookup,
        hsource, hnil]
    · simp [Reader.append, Reader.record]
  · refine ⟨(((reader.depend uid source).append stmt).record uid load).append stmt, 1, ?_, ?_⟩
    · simp [readRow, readLoad, readAccess, readStatement, hload, hothers, hstmt, huid, hlookup,
        hsource, hnil]
    · simp [Reader.append, Reader.record, Reader.depend, List.replicate]

theorem appends_flush {stmt : RowStmt}
    (hothers : ¬lit "Load" <:+: row ∧ ¬lit "Store" <:+: row) (hflush : lit "FLUSH" <:+: row)
    (hstmt : formatFLUSH row (before.length + 1) = some stmt) : Appends before row reader stmt := by
  refine ⟨reader.append stmt, 0, ?_, ?_⟩
  · simp [readRow, readLoad, readAccess, readStatement, hothers, hflush, hstmt]
  · simp [Reader.append]

theorem appends_fence {stmt : RowStmt}
    (hothers : ¬lit "Load" <:+: row ∧ ¬lit "Store" <:+: row ∧ ¬lit "FLUSH" <:+: row)
    (hfence : lit "FENCE" <:+: row)
    (hstmt : formatFENCE row (before.length + 1) = some stmt) : Appends before row reader stmt := by
  refine ⟨reader.append stmt, 0, ?_, ?_⟩
  · simp [readRow, readLoad, readAccess, readStatement, hothers, hfence, hstmt]
  · simp [Reader.append]

theorem appends_transaction {stmt : RowStmt}
    (hothers : ¬lit "Load" <:+: row ∧ ¬lit "Store" <:+: row ∧ ¬lit "FLUSH" <:+: row ∧
      ¬lit "FENCE" <:+: row) (htx : lit "Transaction" <:+: row)
    (hstmt : formatTransactions row (before.length + 1) = some stmt) :
    Appends before row reader stmt := by
  refine ⟨reader.append stmt, 0, ?_, ?_⟩
  · simp [readRow, readLoad, readAccess, readStatement, hothers, htx, hstmt]
  · simp [Reader.append]

theorem readRow_dep {source dest : Text}
    (hothers : ¬lit "Load" <:+: row ∧ ¬lit "Store" <:+: row ∧ ¬lit "FLUSH" <:+: row ∧
      ¬lit "FENCE" <:+: row ∧ ¬lit "Transaction" <:+: row) (hdep : lit "DEP" <:+: row)
    (hsource : column row 2 = some source) (hdest : column row 4 = some dest) :
    readRow before row reader = some (reader.depend (dest.takeWhile (· ≠ ';')) source) := by
  simp [readRow, readLoad, readAccess, readStatement, hothers, hdep, hsource, hdest]

theorem columns_dep (tid : BitVec 64) (src dest : BitVec 32) :
    (∃ source, column (entryLine tid (.event (.dep src dest))) 2 = some source) ∧
      ∃ target, column (entryLine tid (.event (.dep src dest))) 4 = some target := by
  have hlit : (lit "DEP: SrcID: ").count ' ' = 2 ∧ (lit " DestID: ").count ' ' = 2 ∧
      (lit "DEP: SrcID: ").length = 12 ∧ (lit " DestID: ").length = 9 ∧ (lit "; ").length = 2 := by
    with_unfolding_all decide
  have hlength : (Event.dep src dest).text.length ≤ 1023 := by
    have hsrc := length_decimal_int src
    have hdest := length_decimal_int dest
    simp only [Event.text, List.length_append, hlit]
    omega
  have hcount : 4 < ((entryLine tid (.event (.dep src dest))).splitOn ' ').length := by
    rw [Strings.length_splitOn, entryLine, Entry.text, List.take_of_length_le hlength]
    simp only [Event.text, List.count_append, hlit]
    omega
  exact ⟨⟨_, List.getElem?_eq_getElem (by omega)⟩, ⟨_, List.getElem?_eq_getElem hcount⟩⟩

theorem Entry.Plain.inert (h : entry.Plain) : ∀ name ∈ entry.names, Inert name :=
  fun name hname => (h name hname).2.1

/-- The words in a line are those of its tag. -/
theorem Entry.Plain.infix_iff (h : entry.Plain) (tid : BitVec 64) :
    (lit "Load" <:+: entryLine tid entry ↔ lit "Load" <:+: entry.tag) ∧
      (lit "Store" <:+: entryLine tid entry ↔ lit "Store" <:+: entry.tag) ∧
      (lit "FLUSH" <:+: entryLine tid entry ↔ lit "FLUSH" <:+: entry.tag) ∧
      (lit "FENCE" <:+: entryLine tid entry ↔ lit "FENCE" <:+: entry.tag) ∧
      (lit "Transaction" <:+: entryLine tid entry ↔ lit "Transaction" <:+: entry.tag) ∧
      (lit "DEP" <:+: entryLine tid entry ↔ lit "DEP" <:+: entry.tag) := by
  have hiff : ∀ word ∈ words, (word <:+: entryLine tid entry ↔ word <:+: entry.tag) :=
    fun word hword => Entry.infix_entryLine_iff h.inert tid hword
  simpa only [words, List.forall_mem_cons, List.not_mem_nil, false_implies, implies_true,
    and_true] using hiff

/-- A line without a word. -/
theorem Entry.Plain.inert_line (h : entry.Plain) (htag : Inert entry.tag) (tid : BitVec 64) :
    Inert (entryLine tid entry) := by
  intro word hword hsub
  exact htag word hword ((Entry.infix_entryLine_iff h.inert tid hword).mp hsub)

theorem tags_inert : ∀ tag ∈ [lit "Adding", lit "FUNC_BEGIN_1:", lit "FUNC_END:", lit "Simulated",
    lit "TX_BEGIN;", lit "TX_END;", lit "TX_ADD:"], Inert tag := by with_unfolding_all decide

/-- A row with one of the words `Load` and `Store` is that of an access. -/
theorem Entry.Plain.eq_access (h : entry.Plain)
    (haccess : lit "Load" <:+: entryLine tid entry ∨ lit "Store" <:+: entryLine tid entry) :
    ∃ e place, entry = .event e ∧ e.place = some place ∧ e.format = formatSTOREs := by
  have hwords := h.infix_iff tid
  have htag : lit "Load" <:+: entry.tag ∨ lit "Store" <:+: entry.tag :=
    haccess.imp hwords.1.mp hwords.2.1.mp
  have hnot : ∀ tag ∈ [lit "Adding", lit "DEP:", lit "CLFLUSH:", lit "SFENCE.",
      lit "Transaction", lit "FUNC_BEGIN_1:", lit "FUNC_END:", lit "Simulated", lit "TX_BEGIN;",
      lit "TX_END;", lit "TX_ADD:"], ¬(lit "Load" <:+: tag ∨ lit "Store" <:+: tag) := by
    with_unfolding_all decide
  cases entry with
  | event e =>
      cases e with
      | store addr size id place => exact ⟨_, place, rfl, rfl, rfl⟩
      | load addr size id place => exact ⟨_, place, rfl, rfl, rfl⟩
      | _ => exact absurd htag (hnot _ (by simp [Entry.tag]))
  | _ => exact absurd htag (hnot _ (by simp [Entry.tag]))

theorem exists_statement {e : Event} {place : Place} (h : e.place = some place) (tid : BitVec 64)
    (r : Nat) : ∃ stmt, e.format (logLine tid e) r = some stmt := by
  obtain ⟨op, scope, hformat, -⟩ := format_logLine h tid r
  exact ⟨_, hformat⟩

/-- A line is read as its statement, once or more, or not at all. -/
theorem readRow_entry (hplain : entry.Plain)
    (hbefore : ∀ earlier ∈ before, ∃ tid e, Entry.Plain e ∧ earlier = entryLine tid e) :
    (∃ stmt, entry.statement tid (before.length + 1) = some stmt ∧
        Appends before (entryLine tid entry) reader stmt) ∨
      (entry.statement tid (before.length + 1) = none ∧
        ∃ reader', readRow before (entryLine tid entry) reader = some reader' ∧
          reader'.contents = reader.contents) := by
  have hwords := hplain.infix_iff tid
  have hinert := tags_inert
  simp only [List.forall_mem_cons, List.not_mem_nil] at hinert
  have hsilent : Inert entry.tag → ∃ reader', readRow before (entryLine tid entry) reader =
      some reader' ∧ reader'.contents = reader.contents :=
    fun htag => ⟨reader, readRow_of_inert (hplain.inert_line htag tid), rfl⟩
  have htransaction : entry.tag = lit "Transaction" → ∀ {stmt : RowStmt},
      formatTransactions (entryLine tid entry) (before.length + 1) = some stmt →
        Appends before (entryLine tid entry) reader stmt := by
    intro heq stmt hstmt
    have htag : ¬lit "Load" <:+: lit "Transaction" ∧ ¬lit "Store" <:+: lit "Transaction" ∧
        ¬lit "FLUSH" <:+: lit "Transaction" ∧ ¬lit "FENCE" <:+: lit "Transaction" ∧
        lit "Transaction" <:+: lit "Transaction" := by with_unfolding_all decide
    rw [heq] at hwords
    exact appends_transaction ⟨fun h => htag.1 (hwords.1.mp h),
      fun h => htag.2.1 (hwords.2.1.mp h), fun h => htag.2.2.1 (hwords.2.2.1.mp h),
      fun h => htag.2.2.2.1 (hwords.2.2.2.1.mp h)⟩ (hwords.2.2.2.2.1.mpr htag.2.2.2.2) hstmt
  cases entry with
  | event e =>
      cases e with
      | adding first last => exact .inr ⟨rfl, hsilent hinert.1⟩
      | freeing block => exact .inr ⟨rfl, hsilent hinert.1⟩
      | store addr size id place =>
          obtain ⟨stmt, hstmt⟩ := @exists_statement (.store addr size id place) place rfl tid
            (before.length + 1)
          have htag : ¬lit "Load" <:+: lit "Store:" ∧ lit "Store" <:+: lit "Store:" := by
            with_unfolding_all decide
          exact .inl ⟨stmt, hstmt, appends_store (fun hsub => htag.1 (hwords.1.mp hsub))
            (hwords.2.1.mpr htag.2) hstmt⟩
      | load addr size id place =>
          obtain ⟨stmt, hstmt⟩ := @exists_statement (.load addr size id place) place rfl tid
            (before.length + 1)
          have htag : lit "Load" <:+: lit "Load:" ∧ ¬lit "Store" <:+: lit "Load:" ∧
              ¬lit "FLUSH" <:+: lit "Load:" ∧ ¬lit "FENCE" <:+: lit "Load:" ∧
              ¬lit "Transaction" <:+: lit "Load:" ∧ ¬lit "DEP" <:+: lit "Load:" := by
            with_unfolding_all decide
          obtain ⟨⟨add, hadd, -⟩, -⟩ := columns_of_formatSTOREs hstmt
          have hfound : ∃ source, findSource (entryLine tid (.event (.load addr size id place)))
              before = some source := by
            apply exists_findSource hadd
            intro earlier hearlier hstore
            obtain ⟨tid', entry', hplain', rfl⟩ := hbefore earlier hearlier
            obtain ⟨e', place', rfl, hplace', hformat'⟩ := hplain'.eq_access (.inr hstore)
            obtain ⟨stmt', hstmt'⟩ := exists_statement hplace' tid' 0
            rw [hformat'] at hstmt'
            obtain ⟨⟨add', hadd', -⟩, huid', -⟩ := columns_of_formatSTOREs hstmt'
            exact ⟨⟨add', hadd'⟩, huid'⟩
          obtain ⟨source, hsource⟩ := hfound
          refine .inl ⟨stmt, hstmt, appends_load (hwords.1.mpr htag.1) ?_ hstmt hsource⟩
          exact ⟨fun h => htag.2.1 (hwords.2.1.mp h), fun h => htag.2.2.1 (hwords.2.2.1.mp h),
            fun h => htag.2.2.2.1 (hwords.2.2.2.1.mp h),
            fun h => htag.2.2.2.2.1 (hwords.2.2.2.2.1.mp h),
            fun h => htag.2.2.2.2.2 (hwords.2.2.2.2.2.mp h)⟩
      | dep src dest =>
          obtain ⟨⟨source, hsource⟩, target, htarget⟩ := columns_dep tid src dest
          have htag : ¬lit "Load" <:+: lit "DEP:" ∧ ¬lit "Store" <:+: lit "DEP:" ∧
              ¬lit "FLUSH" <:+: lit "DEP:" ∧ ¬lit "FENCE" <:+: lit "DEP:" ∧
              ¬lit "Transaction" <:+: lit "DEP:" ∧ lit "DEP" <:+: lit "DEP:" := by
                with_unfolding_all decide
          refine .inr ⟨rfl, _, readRow_dep ?_ (hwords.2.2.2.2.2.mpr htag.2.2.2.2.2) hsource htarget,
            rfl⟩
          exact ⟨fun h => htag.1 (hwords.1.mp h), fun h => htag.2.1 (hwords.2.1.mp h),
            fun h => htag.2.2.1 (hwords.2.2.1.mp h), fun h => htag.2.2.2.1 (hwords.2.2.2.1.mp h),
            fun h => htag.2.2.2.2.1 (hwords.2.2.2.2.1.mp h)⟩
      | clflush ptr size place =>
          obtain ⟨stmt, hstmt⟩ := @exists_statement (.clflush ptr size place) place rfl tid
            (before.length + 1)
          have htag : ¬lit "Load" <:+: lit "CLFLUSH:" ∧ ¬lit "Store" <:+: lit "CLFLUSH:" ∧
              lit "FLUSH" <:+: lit "CLFLUSH:" := by with_unfolding_all decide
          exact .inl ⟨stmt, hstmt, appends_flush ⟨fun h => htag.1 (hwords.1.mp h),
            fun h => htag.2.1 (hwords.2.1.mp h)⟩ (hwords.2.2.1.mpr htag.2.2) hstmt⟩
      | sfence place =>
          obtain ⟨stmt, hstmt⟩ := @exists_statement (.sfence place) place rfl tid
            (before.length + 1)
          have htag : ¬lit "Load" <:+: lit "SFENCE." ∧ ¬lit "Store" <:+: lit "SFENCE." ∧
              ¬lit "FLUSH" <:+: lit "SFENCE." ∧ lit "FENCE" <:+: lit "SFENCE." := by
                with_unfolding_all decide
          exact .inl ⟨stmt, hstmt, appends_fence ⟨fun h => htag.1 (hwords.1.mp h),
            fun h => htag.2.1 (hwords.2.1.mp h), fun h => htag.2.2.1 (hwords.2.2.1.mp h)⟩
            (hwords.2.2.2.1.mpr htag.2.2.2) hstmt⟩
      | txBegins place =>
          obtain ⟨stmt, hstmt⟩ := @exists_statement (.txBegins place) place rfl tid
            (before.length + 1)
          exact .inl ⟨stmt, hstmt, htransaction rfl hstmt⟩
      | txCommits place =>
          obtain ⟨stmt, hstmt⟩ := @exists_statement (.txCommits place) place rfl tid
            (before.length + 1)
          exact .inl ⟨stmt, hstmt, htransaction rfl hstmt⟩
  | funcBegin func depth => exact .inr ⟨rfl, hsilent hinert.2.1⟩
  | funcEnd func depth => exact .inr ⟨rfl, hsilent hinert.2.2.1⟩
  | simuSfence => exact .inr ⟨rfl, hsilent hinert.2.2.2.1⟩
  | simuFlush ptr len => exact .inr ⟨rfl, hsilent hinert.2.2.2.1⟩
  | simuTXBegin => exact .inr ⟨rfl, hsilent hinert.2.2.2.2.1⟩
  | simuTXEnd => exact .inr ⟨rfl, hsilent hinert.2.2.2.2.2.1⟩
  | simuTXAdd ptr => exact .inr ⟨rfl, hsilent hinert.2.2.2.2.2.2.1⟩

end Row

/-! ### The log -/

section Log

variable {log : List (BitVec 64 × Entry)} {rows : List Text} {reader : Reader}

/-- The lines of a log, with their threads. -/
def rowsOf (log : List (BitVec 64 × Entry)) : List Text :=
  log.map fun line => entryLine line.1 line.2

/-- The statements of the events in a log, in order and each once. -/
def statements (log : List (BitVec 64 × Entry)) : List RowStmt :=
  (log.zipIdx 1).filterMap fun line => line.1.2.statement line.1.1 line.2

theorem statements_concat (log : List (BitVec 64 × Entry)) (line : BitVec 64 × Entry) :
    statements (log ++ [line]) =
      statements log ++ (line.2.statement line.1 (log.length + 1)).toList := by
  rw [statements, List.zipIdx_append, List.filterMap_append, statements, Nat.add_comm 1]
  cases hstatement : line.2.statement line.1 (log.length + 1) with
  | none => simp [hstatement]
  | some stmt => simp [hstatement]

/-- `contents` has every statement at least once, and the copies stand together. -/
theorem fileReader_stutters (hplain : ∀ line ∈ log, line.2.Plain) :
    ∃ reader, fileReader (rowsOf log) = some reader ∧
      Lists.Stutters (statements log) reader.contents := by
  induction log using List.reverseRecOn with
  | nil => exact ⟨{}, rfl, .nil⟩
  | append_singleton log line ih =>
      obtain ⟨reader, hreader, hstutters⟩ := ih fun x hx => hplain x (List.mem_append_left _ hx)
      have hrows : rowsOf (log ++ [line]) = rowsOf log ++ [entryLine line.1 line.2] := by
        simp [rowsOf]
      have hlength : (rowsOf log).length = log.length := by simp [rowsOf]
      have hbefore : ∀ earlier ∈ rowsOf log, ∃ tid e, Entry.Plain e ∧
          earlier = entryLine tid e := by
        intro earlier hearlier
        obtain ⟨x, hx, rfl⟩ := List.mem_map.mp hearlier
        exact ⟨x.1, x.2, hplain x (List.mem_append_left _ hx), rfl⟩
      rw [hrows, fileReader_concat, hreader, Option.bind_some, statements_concat, ← hlength]
      rcases @readRow_entry (rowsOf log) reader line.1 line.2 (hplain line (by simp)) hbefore with
        ⟨stmt, hstmt, reader', n, hrow, hcontents⟩ | ⟨hnone, reader', hrow, hcontents⟩
      · refine ⟨reader', hrow, ?_⟩
        rw [hstmt, hcontents]
        exact hstutters.concat stmt n
      · refine ⟨reader', hrow, ?_⟩
        rw [hnone, hcontents]
        simpa using hstutters

/-- The threads are numbered in the order in which they appear, copies or not. -/
theorem getThreads_stutters {short long : List RowStmt} (h : Lists.Stutters short long) :
    getThreads long = getThreads short := by
  apply h.foldl_eq
  intro threads stmt
  cases hlookup : threads.lookup stmt.tid with
  | some n => simp [hlookup]
  | none => simp [List.lookup_append, hlookup]

end Log

/-! ### The statements without the name that is dropped -/

/-- `removeDuplicates` drops what has `Node` in it. -/
def NodeFree (s : Text) : Prop := ¬lit "Node" <:+: s

namespace NodeFree

variable {s t : Text} {c : Char} {printable : Char → Bool}

theorem append_cons (hs : NodeFree s) (hc : c ∉ lit "Node") (ht : NodeFree t) :
    NodeFree (s ++ c :: t) := by
  intro hsub
  exact (Lists.infix_left_or_right hsub hc).elim hs ht

theorem of_not_upper (h : ∀ c ∈ s, c.isUpper = false) : NodeFree s := by
  intro hsub
  have hmem : 'N' ∈ s := hsub.subset (by with_unfolding_all decide)
  exact absurd (h 'N' hmem) (by decide)

theorem of_infix (ht : NodeFree t) (h : s <:+: t) : NodeFree s := fun hsub => ht (hsub.trans h)

theorem nil : NodeFree [] := by
  unfold NodeFree
  with_unfolding_all decide

theorem repr (h : NodeFree s) : NodeFree (Strings.repr printable s) := by
  have hquote : ∀ quote, quote = '"' ∨ quote = '\'' → NodeFree
      (quote :: (s.flatMap (Strings.escape printable quote) ++ [quote])) := by
    intro quote hcases
    have hforeign : Strings.Foreign quote 'N' ∧ quote ∉ lit "Node" := by
      unfold Strings.Foreign
      rcases hcases with rfl | rfl
      all_goals with_unfolding_all decide
    have hescaped : NodeFree (s.flatMap (Strings.escape printable quote)) := by
      have hnode : lit "Node" = 'N' :: lit "ode" := by with_unfolding_all decide
      intro hsub
      rw [hnode] at hsub
      have hfound := Strings.infix_of_infix_escaped hforeign.1 (by with_unfolding_all decide) hsub
      rw [← hnode] at hfound
      exact h hfound
    exact nil.append_cons hforeign.2 (hescaped.append_cons hforeign.2 nil)
  exact hquote _ (Readable.quoteOf_eq s)

theorem strList {items : List Text} (h : ∀ item ∈ items, NodeFree item) :
    NodeFree (Strings.strList items) := by
  have hjoin : NodeFree (commaJoin items) := by
    induction items with
    | nil => exact nil
    | cons item items ih =>
        obtain ⟨hitem, hitems⟩ := List.forall_mem_cons.mp h
        cases items with
        | nil => exact hitem
        | cons next items =>
            have hblank : NodeFree (' ' :: commaJoin (next :: items)) :=
              nil.append_cons (by with_unfolding_all decide) (ih hitems)
            exact hitem.append_cons (by with_unfolding_all decide) hblank
  exact nil.append_cons (by with_unfolding_all decide)
    (hjoin.append_cons (by with_unfolding_all decide) nil)

end NodeFree

/-- A value that is printed without `Node`. -/
def Value.NodeFree : Value → Prop
  | .text s => PMBugRepair.NodeFree s
  | .num _ => True

theorem Value.NodeFree.repr {v : Value} {printable : Char → Bool} (h : v.NodeFree) :
    PMBugRepair.NodeFree (v.repr printable) := by
  cases v with
  | text s => exact PMBugRepair.NodeFree.repr h
  | num n => exact NodeFree.of_not_upper fun c hc => isUpper_of_mem_decimal hc

theorem Formatted.nodeFree_str {stmt : Formatted} {printable : Char → Bool}
    (hadd : stmt.add.NodeFree) (hdep : stmt.dep.NodeFree) (hscope : NodeFree stmt.scope) :
    NodeFree (stmt.str printable) := by
  have hop : NodeFree stmt.op.name := by
    unfold NodeFree
    cases stmt.op <;> with_unfolding_all decide
  have hdigits : NodeFree (digits stmt.tid) :=
    NodeFree.of_not_upper fun c hc => isUpper_of_mem_digits hc
  apply NodeFree.strList
  simp only [List.forall_mem_cons, List.not_mem_nil, false_implies, implies_true, and_true]
  exact ⟨hop.repr, hadd.repr, hdep.repr, hdigits, hscope.repr⟩

theorem Event.nodeFree_add (e : Event) : e.add.NodeFree := by
  cases e with
  | store addr | load addr =>
      exact NodeFree.of_not_upper fun c hc => isUpper_of_mem_address hc
  | clflush ptr => exact NodeFree.of_not_upper fun c hc => isUpper_of_mem_pointer hc
  | _ => exact trivial

/-- The scope of a statement, with what the cut puts in it. -/
theorem format_logLine_scope {e : Event} {place : Place} (h : e.place = some place)
    (tid : BitVec 64) (r : Nat) :
    ∃ op, e.format (logLine tid e) r = some ⟨r, op, e.add, digits tid.toNat, e.uid,
      (((place.scope ++ e.tail).take (1023 - scopeStart e place) ++ lit "<Thread ID:" ++
        digits tid.toNat ++ lit ">\n").takeWhile (· ≠ ' ')).filter (· ≠ ';') ++
          '_' :: decimal place.line.toInt⟩ := by
  rw [logLine_eq h]
  exact Event.format_eq h _ tid.toNat r _
    (rowScope_eq e.at_not_mem_intro (Event.count_head h))

theorem NodeFree.of_not_mem {s : Text} (h : 'N' ∉ s) : NodeFree s :=
  fun hsub => h (hsub.subset (by with_unfolding_all decide))

theorem nodeFree_scope {e : Event} {place : Place} (tid : BitVec 64) (n : Nat)
    (hnode : NodeFree (place.scope.filter (· ≠ ';'))) :
    NodeFree ((((place.scope ++ e.tail).take n ++ lit "<Thread ID:" ++
      digits tid.toNat ++ lit ">\n").takeWhile (· ≠ ' ')).filter (· ≠ ';') ++
        '_' :: decimal place.line.toInt) := by
  have hline : NodeFree (decimal place.line.toInt) :=
    NodeFree.of_not_upper fun c hc => isUpper_of_mem_decimal hc
  have htail : ∃ blanks, e.tail.filter (· ≠ ';') = ' ' :: blanks ∧ 'N' ∉ blanks := by
    have htwo : (lit ";  ").filter (· ≠ ';') = [' ', ' '] := by with_unfolding_all decide
    have hone : (lit "; ").filter (· ≠ ';') = [' '] := by with_unfolding_all decide
    cases e with
    | clflush | sfence => exact ⟨[' '], htwo, by decide⟩
    | _ => exact ⟨[], hone, by decide⟩
  obtain ⟨blanks, hblanks, hN⟩ := htail
  have hcut : NodeFree (((place.scope ++ e.tail).take n).filter (· ≠ ';')) := by
    have hall : NodeFree ((place.scope ++ e.tail).filter (· ≠ ';')) := by
      rw [List.filter_append, hblanks]
      exact hnode.append_cons (by with_unfolding_all decide) (.of_not_mem hN)
    exact hall.of_infix ((List.take_prefix n _).filter _).isInfix
  have hthread : NodeFree ((lit "Thread ID:" ++ digits tid.toNat ++ lit ">\n").filter
      (· ≠ ';')) := by
    apply NodeFree.of_not_mem
    intro hmem
    have hmem := List.mem_of_mem_filter hmem
    rw [List.mem_append, List.mem_append] at hmem
    rcases hmem with (hmem | hmem) | hmem
    · exact absurd hmem (by with_unfolding_all decide)
    · exact absurd (isUpper_of_mem_digits hmem) (by decide)
    · exact absurd hmem (by with_unfolding_all decide)
  have hwhole : NodeFree (((place.scope ++ e.tail).take n ++ lit "<Thread ID:" ++
      digits tid.toNat ++ lit ">\n").filter (· ≠ ';')) := by
    have hsplit : lit "<Thread ID:" = '<' :: lit "Thread ID:" := by with_unfolding_all decide
    have happend := hcut.append_cons (show '<' ∉ lit "Node" by with_unfolding_all decide) hthread
    simpa [hsplit] using happend
  refine NodeFree.append_cons (hwhole.of_infix ?_) (by with_unfolding_all decide) hline
  exact ((List.takeWhile_prefix _).filter _).isInfix

/-! ### The trace -/

section Trace

variable {log : List (BitVec 64 × Entry)} {reader : Reader} {stmt : RowStmt}

theorem mem_statements (h : stmt ∈ statements log) :
    ∃ line ∈ log, ∃ r, line.2.statement line.1 r = some stmt := by
  obtain ⟨line, hline, hstmt⟩ := List.mem_filterMap.mp h
  exact ⟨line.1, List.fst_mem_of_mem_zipIdx hline, line.2, hstmt⟩

theorem Entry.eq_event_of_statement {entry : Entry} {tid : BitVec 64} {r : Nat}
    (h : entry.statement tid r = some stmt) :
    ∃ e place, entry = .event e ∧ e.place = some place ∧
      e.format (logLine tid e) r = some stmt := by
  cases entry with
  | event e =>
      cases e with
      | adding | freeing | dep => cases h
      | _ => exact ⟨_, _, rfl, rfl, h⟩
  | _ => cases h

/-- A statement that one of the `format_*` functions makes of a row. -/
def Renders (row : Text) (stmt : RowStmt) : Prop :=
  ∃ r, formatSTOREs row r = some stmt ∨ formatFLUSH row r = some stmt ∨
    formatFENCE row r = some stmt ∨ formatTransactions row r = some stmt

theorem Renders.op_ne_load {row : Text} (h : Renders row stmt) : stmt.op ≠ .load := by
  obtain ⟨r, h⟩ := h
  simp only [formatSTOREs, formatFLUSH, formatFENCE, formatTransactions, Option.bind_eq_bind,
    Option.bind_eq_some_iff, Option.pure_def, Option.some_inj] at h
  rcases h with ⟨_, -, _, -, _, -, rfl⟩ | ⟨_, -, _, -, rfl⟩ | ⟨_, -, rfl⟩ | ⟨_, -, rfl⟩
  · exact RowOp.noConfusion
  · exact RowOp.noConfusion
  · exact RowOp.noConfusion
  · dsimp only
    split
    all_goals exact RowOp.noConfusion

/-- `format` passes over no statement. -/
theorem op_ne_load (h : stmt ∈ statements log) : stmt.op ≠ .load := by
  obtain ⟨line, -, r, hstmt⟩ := mem_statements h
  obtain ⟨e, place, -, -, hformat⟩ := Entry.eq_event_of_statement hstmt
  apply Renders.op_ne_load ⟨r, ?_⟩
  · exact logLine line.1 e
  cases e with
  | adding | freeing | dep => cases hformat
  | store | load => exact .inl hformat
  | clflush => exact .inr (.inl hformat)
  | sfence => exact .inr (.inr (.inl hformat))
  | txBegins | txCommits => exact .inr (.inr (.inr hformat))

/-- An entry of `loads` has the address of an access. -/
theorem exists_access_of_lookup {rows : List Text} {id : Text} {load : RowStmt}
    (h : fileReader rows = some reader) (hlookup : reader.loads.lookup id = some load) :
    ∃ row ∈ rows, (lit "Load" <:+: row ∨ lit "Store" <:+: row) ∧
      ∃ add, column row 1 = some add ∧ load.add = .text add := by
  induction rows using List.reverseRecOn generalizing reader with
  | nil =>
      obtain rfl : reader = {} := by simpa [fileReader, readRows] using h.symm
      cases hlookup
  | append_singleton rows row ih =>
      obtain ⟨start, hstart, hrow⟩ := fileReader_concat_eq h
      have hearlier : start.loads.lookup id = some load → _ := ih hstart
      rcases readRow_loads hrow with ⟨-, hsame⟩ | ⟨haccess, found, hfound, hsame⟩
      · rw [hsame] at hlookup
        obtain ⟨row', hmem, hrow'⟩ := hearlier hlookup
        exact ⟨row', List.mem_append_left _ hmem, hrow'⟩
      · rw [hsame, Option.or_eq_some_iff] at hlookup
        rcases hlookup with hlookup | ⟨-, heq⟩
        · obtain ⟨row', hmem, hrow'⟩ := hearlier hlookup
          exact ⟨row', List.mem_append_left _ hmem, hrow'⟩
        · obtain rfl : found = load := Option.some.inj heq
          refine ⟨row, by simp, haccess.1, ?_⟩
          simp only [formatLOAD, Option.bind_eq_bind, Option.bind_eq_some_iff, Option.pure_def,
            Option.some_inj] at hfound
          obtain ⟨scope, -, add, hadd, line, -, rfl⟩ := hfound
          exact ⟨add, hadd, rfl⟩

theorem nodeFree_dependency (hplain : ∀ line ∈ log, line.2.Plain)
    (h : fileReader (rowsOf log) = some reader) (stmt : RowStmt) :
    (dependency reader.dependencies reader.loads stmt).NodeFree := by
  unfold dependency
  split
  · split
    · rename_i load hload
      obtain ⟨id, -, hlookup⟩ := Option.bind_eq_some_iff.mp hload
      obtain ⟨row, hmem, haccess, add, hadd, heq⟩ := exists_access_of_lookup h hlookup
      obtain ⟨line, hline, rfl⟩ := List.mem_map.mp hmem
      obtain ⟨e, place, hentry, hplace, hformat⟩ := (hplain line hline).eq_access haccess
      obtain ⟨op, scope, hstmt, -⟩ := format_logLine hplace line.1 0
      rw [hformat] at hstmt
      obtain ⟨⟨add', hadd', heq'⟩, -⟩ := columns_of_formatSTOREs hstmt
      rw [hentry, entryLine_event, hadd', Option.some_inj] at hadd
      rw [heq, ← hadd, ← heq']
      exact e.nodeFree_add
    · exact trivial
  · exact trivial

theorem nodeFree_of_formatElement (hplain : ∀ line ∈ log, line.2.Plain)
    (h : fileReader (rowsOf log) = some reader) (hmem : stmt ∈ statements log)
    {threads : List (Text × Nat)} {out : Formatted} {printable : Char → Bool}
    (hout : formatElement threads reader.dependencies reader.loads stmt = some out) :
    NodeFree (out.str printable) := by
  obtain ⟨tid, -, heq⟩ := Option.bind_eq_some_iff.mp hout
  obtain ⟨line, hline, r, hstmt⟩ := mem_statements hmem
  obtain ⟨e, place, hentry, hplace, hformat⟩ := Entry.eq_event_of_statement hstmt
  have hname : place.scope ∈ line.2.names := by
    rw [hentry]
    simp [Entry.names, hplace]
  obtain ⟨op, hscope⟩ := format_logLine_scope hplace line.1 r
  rw [hscope] at hformat
  rw [← Option.some.inj heq, ← Option.some.inj hformat]
  apply Formatted.nodeFree_str
  · exact e.nodeFree_add
  · exact nodeFree_dependency hplain h _
  · exact nodeFree_scope line.1 _ (hplain line hline _ hname).2.2

/-- Statements that are printed differently. -/
def Formatted.Differs (printable : Char → Bool) (a b : Formatted) : Prop :=
  a.str printable ≠ b.str printable

instance (printable : Char → Bool) : DecidableRel (Formatted.Differs printable) :=
  fun _ _ => inferInstanceAs (Decidable (_ ≠ _))

/-- Without `Node`, only repetitions are dropped. -/
theorem keepNew_eq {printable : Char → Bool} {rest : List Formatted}
    (h : ∀ stmt ∈ rest, NodeFree (stmt.str printable)) (last : Formatted) :
    last :: keepNew printable last rest =
      rest.destutter' (Formatted.Differs printable) last := by
  induction rest generalizing last with
  | nil => rfl
  | cons stmt rest ih =>
      obtain ⟨hstmt, hrest⟩ := List.forall_mem_cons.mp h
      by_cases heq : stmt.str printable = last.str printable
      · have hnot : ¬Formatted.Differs printable last stmt := not_not.mpr heq.symm
        rw [keepNew, if_neg (fun hnew => hnew.1 heq), ih hrest, List.destutter'_cons_neg _ hnot]
      · have hdiffers : Formatted.Differs printable last stmt := Ne.symm heq
        rw [keepNew, if_pos ⟨heq, hstmt⟩, ih hrest, List.destutter'_cons_pos _ hdiffers]

theorem removeDuplicates_eq {printable : Char → Bool} {trace : List Formatted} (hne : trace ≠ [])
    (h : ∀ stmt ∈ trace, NodeFree (stmt.str printable)) :
    removeDuplicates printable trace = some (trace.destutter (Formatted.Differs printable)) := by
  cases trace with
  | nil => exact absurd rfl hne
  | cons first rest =>
      rw [removeDuplicates, keepNew_eq (List.forall_mem_cons.mp h).2, List.destutter_cons']

/-- The statements of the events of the functions that the bug files name. -/
def relevantStatements (bugs : List Text) (log : List (BitVec 64 × Entry)) : List RowStmt :=
  (statements log).filter fun stmt => functionOf stmt.scope ∈ bugs

/-- Every event of a function that the bug files name stands in the trace once, in the order of the
log, except that equal statements in a row are one. -/
theorem formatLog_eq_destutter (printable : Char → Bool) {log : List (BitVec 64 × Entry)}
    {file₁ file₂ : Text} {bugs more : List Text} (hplain : ∀ line ∈ log, line.2.Plain)
    (hbugs : readScopes file₁ = some bugs) (hmore : readScopes file₂ = some more)
    (hne : relevantStatements (bugs ++ more) log ≠ []) :
    ∃ reader rendered, fileReader (rowsOf log) = some reader ∧
      (relevantStatements (bugs ++ more) log).mapM (formatElement
        (getThreads (relevantStatements (bugs ++ more) log)) reader.dependencies reader.loads) =
          some rendered ∧
      formatLog printable (rowsOf log) file₁ file₂ =
        some (rendered.destutter (Formatted.Differs printable)) := by
  obtain ⟨reader, hreader, hstutters⟩ := fileReader_stutters hplain
  have hkept := hstutters.filter fun stmt => functionOf stmt.scope ∈ bugs ++ more
  have hthreads : getThreads (reader.contents.filter fun stmt =>
      functionOf stmt.scope ∈ bugs ++ more) = getThreads (relevantStatements (bugs ++ more) log) :=
    getThreads_stutters hkept
  obtain ⟨rendered, hrendered, -⟩ := exists_format (relevantStatements (bugs ++ more) log)
    reader.dependencies reader.loads
  have hall : (relevantStatements (bugs ++ more) log).filter (·.op ≠ .load) =
      relevantStatements (bugs ++ more) log := by
    apply List.filter_eq_self.mpr
    intro stmt hmem
    simpa using op_ne_load (List.mem_of_mem_filter hmem)
  obtain ⟨copies, hcopies, hsame⟩ := (hkept.filter (·.op ≠ .load)).mapM hrendered
  rw [format, hall] at hrendered
  refine ⟨reader, rendered, hreader, hrendered, ?_⟩
  have hfree : ∀ out ∈ copies, NodeFree (out.str printable) := by
    intro out hout
    obtain ⟨stmt, hmem, hstmt⟩ := Lists.exists_of_mem_mapM hcopies hout
    have hcontents := List.mem_of_mem_filter (List.mem_of_mem_filter hmem)
    exact nodeFree_of_formatElement hplain hreader (hstutters.mem_iff.mp hcontents) hstmt
  have hcopiesne : copies ≠ [] := by
    intro hnil
    have hlength := (Lists.forall₂_of_mapM hrendered).length_eq
    rw [hsame.eq_nil_iff.mp hnil, List.length_nil] at hlength
    exact hne (List.eq_nil_of_length_eq_zero hlength)
  rw [formatLog, hreader, ← hsame.destutter_eq fun out => not_not.mpr rfl,
    ← removeDuplicates_eq hcopiesne hfree]
  simp only [getRelevantTrace, hbugs, hmore, Option.bind_eq_bind, Option.bind_some,
    Option.pure_def, hthreads, format]
  rw [hcopies, Option.bind_some]

end Trace

/-- A store that is logged by one thread, and a fence behind it. -/
def insertLog : List (BitVec 64 × Entry) :=
  [(1, .funcBegin (lit "main") 1), (2, .event insertEvent),
    (2, .event (.sfence ⟨118, 9, lit "insert"⟩)), (1, .event (.dep 70 88))]

theorem formatLog_eq_destutter_insertLog :
    ∃ reader rendered, fileReader (rowsOf insertLog) = some reader ∧
      (relevantStatements ([lit "insert"] ++ []) insertLog).mapM (formatElement
        (getThreads (relevantStatements ([lit "insert"] ++ []) insertLog)) reader.dependencies
        reader.loads) = some rendered ∧
      formatLog (fun _ => true) (rowsOf insertLog) (lit "DURA:[ pt_insert_117]\n") [] =
        some (rendered.destutter (Formatted.Differs fun _ => true)) := by
  apply formatLog_eq_destutter
  · unfold Entry.Plain
    with_unfolding_all decide
  · with_unfolding_all decide
  · with_unfolding_all decide
  · with_unfolding_all decide

end PMBugRepair
