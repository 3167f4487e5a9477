import PMBugRepair.Formatter.Once

/-!
# The parent thread

`removeParentThread` drops the statements of thread 0. The threads are numbered in the order in
which they appear in the relevant trace, so that thread 0 is the one that is relevant first.
-/

namespace PMBugRepair

open Strings (Text lit)

def removeParentThread (trace : List Formatted) : List Formatted := trace.filter (·.tid ≠ 0)

/-- The thread that enters `main`. -/
def parentOf (log : List (BitVec 64 × Entry)) : Option (BitVec 64) :=
  log.findSome? fun line =>
    match line.2 with
    | .funcBegin func _ => if func = lit "main" then some line.1 else none
    | _ => none

/-! ### Numbers of threads -/

section Threads

variable {trace rest : List RowStmt} {first stmt : RowStmt} {thread : Text}

theorem getThreads_ne_nil : (getThreads (first :: rest)).length ≠ 0 := by
  obtain ⟨n, hn⟩ := exists_getThreads_lookup (List.mem_cons_self (a := first) (l := rest))
  intro hzero
  rw [List.eq_nil_of_length_eq_zero hzero] at hn
  cases hn

/-- The first thread has the number 0, and no other one has. -/
theorem getThreads_lookup_zero :
    (getThreads (first :: rest)).lookup thread = some 0 ↔ thread = first.tid := by
  induction rest using List.reverseRecOn with
  | nil =>
      by_cases heq : thread = first.tid
      · simp [getThreads, heq]
      · simp [getThreads, List.lookup_cons, beq_eq_false_iff_ne.mpr heq, heq]
  | append_singleton rest last ih =>
      rw [← List.cons_append, getThreads_concat]
      cases hlast : (getThreads (first :: rest)).lookup last.tid with
      | some n => exact ih
      | none =>
          have hlength := @getThreads_ne_nil rest first
          simp only [List.lookup_append, Option.or_eq_some_iff, ih]
          by_cases heq : thread = last.tid
          · simp [heq, hlength]
          · simp [List.lookup_cons, beq_eq_false_iff_ne.mpr heq]

end Threads

/-! ### What the rows leave -/

/-- A value that is printed without a blank. -/
def Value.Solid : Value → Prop
  | .text s => ' ' ∉ s
  | .num _ => True

section Rows

variable {before rows : List Text} {row : Text} {reader reader' : Reader} {stmt : RowStmt}

theorem blank_not_mem_column {k : Nat} {token : Text} (h : column row k = some token) :
    ' ' ∉ token :=
  Strings.not_mem_of_mem_splitOn (List.mem_of_getElem? h)

theorem Renders.solid_add (h : Renders row stmt) : stmt.add.Solid := by
  obtain ⟨r, h⟩ := h
  simp only [formatSTOREs, formatFLUSH, formatFENCE, formatTransactions, Option.bind_eq_bind,
    Option.bind_eq_some_iff, Option.pure_def, Option.some_inj] at h
  rcases h with ⟨_, -, add, hadd, _, -, rfl⟩ | ⟨_, -, add, hadd, rfl⟩ | ⟨_, -, rfl⟩ | ⟨_, -, rfl⟩
  · exact blank_not_mem_column hadd
  · exact blank_not_mem_column hadd
  · exact trivial
  · exact trivial

theorem readStatement_renders (h : readStatement before row reader = some reader') :
    ∀ stmt ∈ reader'.contents, stmt ∈ reader.contents ∨ Renders row stmt := by
  have happend : ∀ made, Renders row made → reader' = reader.append made →
      ∀ stmt ∈ reader'.contents, stmt ∈ reader.contents ∨ Renders row stmt := by
    rintro made hmade rfl stmt hmem
    rcases List.mem_append.mp hmem with hmem | hmem
    · exact .inl hmem
    · exact .inr (List.mem_singleton.mp hmem ▸ hmade)
  unfold readStatement at h
  split_ifs at h
  · obtain ⟨made, hmade, heq⟩ := Option.bind_eq_some_iff.mp h
    exact happend made ⟨_, .inl hmade⟩ (Option.some.inj heq).symm
  · obtain ⟨made, hmade, heq⟩ := Option.bind_eq_some_iff.mp h
    exact happend made ⟨_, .inr (.inl hmade)⟩ (Option.some.inj heq).symm
  · obtain ⟨made, hmade, heq⟩ := Option.bind_eq_some_iff.mp h
    exact happend made ⟨_, .inr (.inr (.inl hmade))⟩ (Option.some.inj heq).symm
  · obtain ⟨made, hmade, heq⟩ := Option.bind_eq_some_iff.mp h
    exact happend made ⟨_, .inr (.inr (.inr hmade))⟩ (Option.some.inj heq).symm
  · obtain ⟨source, -, h⟩ := Option.bind_eq_some_iff.mp h
    obtain ⟨dest, -, h⟩ := Option.bind_eq_some_iff.mp h
    rw [← Option.some.inj h]
    exact fun stmt hmem => .inl hmem
  · rw [← Option.some.inj h]
    exact fun stmt hmem => .inl hmem

theorem readRow_renders (h : readRow before row reader = some reader') :
    ∀ stmt ∈ reader'.contents, stmt ∈ reader.contents ∨ Renders row stmt := by
  obtain ⟨loaded, accessed, hload, haccess, hstatement⟩ := readRow_eq h
  have hloaded : ∀ stmt ∈ loaded.contents, stmt ∈ reader.contents ∨ Renders row stmt := by
    rcases readLoad_cases hload with ⟨rfl, -⟩ | ⟨_, _, made, -, -, -, -, hmade, rfl⟩
    · exact fun stmt hmem => .inl hmem
    · intro stmt hmem
      rcases List.mem_append.mp hmem with hmem | hmem
      · exact .inl hmem
      · exact .inr (List.mem_singleton.mp hmem ▸ ⟨_, .inl hmade⟩)
  have haccessed : ∀ stmt ∈ accessed.contents, stmt ∈ loaded.contents ∨ Renders row stmt := by
    rcases readAccess_cases haccess with ⟨rfl, -⟩ | ⟨_, _, made, -, -, -, hmade, rfl⟩
    · exact fun stmt hmem => .inl hmem
    · intro stmt hmem
      rcases List.mem_append.mp hmem with hmem | hmem
      · exact .inl hmem
      · exact .inr (List.mem_singleton.mp hmem ▸ ⟨_, .inl hmade⟩)
  intro stmt hmem
  rcases readStatement_renders hstatement stmt hmem with hmem | hmade
  · rcases haccessed stmt hmem with hmem | hmade
    · exact hloaded stmt hmem
    · exact .inr hmade
  · exact .inr hmade

theorem fileReader_renders (h : fileReader rows = some reader) :
    ∀ stmt ∈ reader.contents, ∃ row, Renders row stmt := by
  induction rows using List.reverseRecOn generalizing reader with
  | nil =>
      obtain rfl : reader = {} := by simpa [fileReader, readRows] using h.symm
      exact fun stmt hmem => absurd hmem (by simp)
  | append_singleton rows row ih =>
      obtain ⟨start, hstart, hrow⟩ := fileReader_concat_eq h
      intro stmt hmem
      rcases readRow_renders hrow stmt hmem with hmem | hmade
      · exact ih hstart stmt hmem
      · exact ⟨row, hmade⟩

theorem solid_dependency (h : fileReader rows = some reader) (stmt : RowStmt) :
    (dependency reader.dependencies reader.loads stmt).Solid := by
  unfold dependency
  split
  · split
    · rename_i load hload
      obtain ⟨id, -, hlookup⟩ := Option.bind_eq_some_iff.mp hload
      obtain ⟨row, -, -, add, hadd, heq⟩ := exists_access_of_lookup h hlookup
      rw [heq]
      exact blank_not_mem_column hadd
    · exact trivial
  · exact trivial

end Rows

/-! ### Printed threads -/

section Print

variable {printable : Char → Bool}

theorem blank_not_mem_repr {s : Text} (h : ' ' ∉ s) : ' ' ∉ Strings.repr printable s := by
  have hquote : ∀ quote, quote = '"' ∨ quote = '\'' → ' ' ≠ quote ∧ Strings.Foreign quote ' ' := by
    intro quote hcases
    unfold Strings.Foreign
    rcases hcases with rfl | rfl
    all_goals decide
  obtain ⟨hne, hforeign⟩ := hquote _ (Readable.quoteOf_eq s)
  intro hmem
  simp only [Strings.repr, List.mem_cons, List.mem_append, List.mem_flatMap, List.not_mem_nil,
    or_false, hne, false_or] at hmem
  obtain ⟨c, hc, hblank⟩ := hmem
  by_cases hplain : Strings.Plain printable (Strings.quoteOf s) c
  · rw [Strings.escape_of_plain hplain, List.mem_singleton] at hblank
    exact h (hblank ▸ hc)
  · exact hforeign.not_mem_escape hplain hblank

theorem Value.Solid.not_mem_repr {v : Value} (h : v.Solid) : ' ' ∉ v.repr printable := by
  cases v with
  | text s => exact blank_not_mem_repr h
  | num n => exact not_mem_decimal (by decide) (by decide)

theorem Formatted.str_words {stmt : Formatted} (hadd : stmt.add.Solid) (hdep : stmt.dep.Solid) :
    ((stmt.str printable).splitOn ' ')[3]? = some (digits stmt.tid ++ [',']) := by
  have hop : ' ' ∉ stmt.op.name := by cases stmt.op <;> with_unfolding_all decide
  have hfirst : ' ' ∉ '[' :: (Strings.repr printable stmt.op.name ++ [',']) := by
    simp [@blank_not_mem_repr printable _ hop]
  have hsecond : ' ' ∉ stmt.add.repr printable ++ [','] := by simp [hadd.not_mem_repr]
  have hthird : ' ' ∉ stmt.dep.repr printable ++ [','] := by simp [hdep.not_mem_repr]
  have hfourth : ' ' ∉ digits stmt.tid ++ [','] := by
    have hdigits : ' ' ∉ digits stmt.tid := fun hmem =>
      absurd (Nat.isDigit_of_mem_toDigits (by decide) (by decide) hmem) (by decide)
    simp [hdigits]
  have hstr : stmt.str printable = '[' :: (Strings.repr printable stmt.op.name ++ [',']) ++ ' ' ::
      (stmt.add.repr printable ++ [','] ++ ' ' :: (stmt.dep.repr printable ++ [','] ++ ' ' ::
        (digits stmt.tid ++ [','] ++ ' ' :: (Strings.repr printable stmt.scope ++ [']'])))) := by
    simp [Formatted.str, Strings.strList, Strings.commaJoin]
  rw [hstr, List.splitOn_append_cons_self_of_not_mem hfirst,
    List.splitOn_append_cons_self_of_not_mem hsecond,
    List.splitOn_append_cons_self_of_not_mem hthird,
    List.splitOn_append_cons_self_of_not_mem hfourth]
  rfl

theorem Formatted.tid_eq_of_str_eq {a b : Formatted} (hadd : a.add.Solid ∧ b.add.Solid)
    (hdep : a.dep.Solid ∧ b.dep.Solid) (h : a.str printable = b.str printable) :
    a.tid = b.tid := by
  have hwords := @Formatted.str_words printable a hadd.1 hdep.1
  rw [h, Formatted.str_words hadd.2 hdep.2, Option.some_inj, List.append_left_inj] at hwords
  exact (digits_injective hwords).symm

end Print

/-! ### The written trace -/

section Duplicates

variable {printable : Char → Bool} {last stmt : Formatted} {rest trace out : List Formatted}

theorem mem_of_mem_keepNew (h : stmt ∈ keepNew printable last rest) :
    stmt ∈ rest ∧ NodeFree (stmt.str printable) := by
  induction rest generalizing last with
  | nil => cases h
  | cons next rest ih =>
      rw [keepNew] at h
      split_ifs at h with hnew
      · rcases List.mem_cons.mp h with rfl | h
        · exact ⟨List.mem_cons_self, hnew.2⟩
        · exact ⟨List.mem_cons_of_mem _ (ih h).1, (ih h).2⟩
      · exact ⟨List.mem_cons_of_mem _ (ih h).1, (ih h).2⟩

/-- What is not kept is printed like a statement that is. -/
theorem exists_kept (hmem : stmt ∈ rest) (hfree : NodeFree (stmt.str printable)) :
    ∃ kept ∈ last :: keepNew printable last rest, kept.str printable = stmt.str printable := by
  induction rest generalizing last with
  | nil => cases hmem
  | cons next rest ih =>
      rw [keepNew]
      rcases List.mem_cons.mp hmem with rfl | hmem
      · by_cases heq : stmt.str printable = last.str printable
        · exact ⟨last, List.mem_cons_self, heq.symm⟩
        · rw [if_pos ⟨heq, hfree⟩]
          exact ⟨stmt, by simp, rfl⟩
      · split_ifs
        · obtain ⟨kept, hkept, hstr⟩ := @ih next hmem
          exact ⟨kept, List.mem_cons_of_mem _ hkept, hstr⟩
        · exact ih hmem

end Duplicates

/-- A statement of the parent thread. -/
def OfParent (log : List (BitVec 64 × Entry)) (stmt : RowStmt) : Prop :=
  (parentOf log).map (fun tid => digits tid.toNat) = some stmt.tid

/-- The trace is written, it has no statement of the parent and the statements of all other
threads. -/
def OnlyParentDropped (printable : Char → Bool) (log : List (BitVec 64 × Entry))
    (file₁ file₂ : Text) : Prop :=
  ∃ reader kept trace, fileReader (rowsOf log) = some reader ∧
    getRelevantTrace reader.contents file₁ file₂ = some kept ∧
    formatLog printable (rowsOf log) file₁ file₂ = some trace ∧
    ∀ stmt ∈ kept, ∀ element,
      formatElement (getThreads kept) reader.dependencies reader.loads stmt = some element →
      (element ∈ trace → (element ∉ removeParentThread trace ↔ OfParent log stmt)) ∧
      (¬OfParent log stmt →
        element.str printable ∈ (removeParentThread trace).map (Formatted.str printable))

/-- The first relevant statement is one of the parent, and no other thread has a statement that
`removeDuplicates` drops for its name. -/
def ParentFirst (printable : Char → Bool) (log : List (BitVec 64 × Entry)) (file₁ file₂ : Text) :
    Prop :=
  ∃ reader first rest, fileReader (rowsOf log) = some reader ∧
    getRelevantTrace reader.contents file₁ file₂ = some (first :: rest) ∧ OfParent log first ∧
    ∀ stmt ∈ rest, ¬OfParent log stmt → ∀ element,
      formatElement (getThreads (first :: rest)) reader.dependencies reader.loads stmt =
        some element → ¬lit "Node" <:+: element.str printable

section Written

variable {printable : Char → Bool} {rows : List Text} {file₁ file₂ : Text} {reader : Reader}
  {first stmt : RowStmt} {rest kept : List RowStmt} {element : Formatted}
  {threads : List (Text × Nat)}

theorem mem_contents_of_getRelevantTrace
    (h : getRelevantTrace reader.contents file₁ file₂ = some kept) (hmem : stmt ∈ kept) :
    stmt ∈ reader.contents := by
  simp only [getRelevantTrace, Option.bind_eq_bind, Option.bind_eq_some_iff, Option.pure_def,
    Option.some_inj] at h
  obtain ⟨bugs, -, more, -, rfl⟩ := h
  exact List.mem_of_mem_filter hmem

theorem formatElement_spec (hreader : fileReader rows = some reader)
    (hmem : stmt ∈ reader.contents)
    (h : formatElement threads reader.dependencies reader.loads stmt = some element) :
    threads.lookup stmt.tid = some element.tid ∧ element.add.Solid ∧ element.dep.Solid := by
  obtain ⟨tid, htid, heq⟩ := Option.bind_eq_some_iff.mp h
  rw [← Option.some.inj heq]
  obtain ⟨row, hrow⟩ := fileReader_renders hreader stmt hmem
  exact ⟨htid, hrow.solid_add, solid_dependency hreader stmt⟩

/-- The trace begins with the first relevant statement. -/
theorem formatLog_cons (hreader : fileReader rows = some reader)
    (hkept : getRelevantTrace reader.contents file₁ file₂ = some (first :: rest)) :
    ∃ element elements,
      formatElement (getThreads (first :: rest)) reader.dependencies reader.loads first =
        some element ∧
      rest.mapM (formatElement (getThreads (first :: rest)) reader.dependencies reader.loads) =
        some elements ∧
      formatLog printable rows file₁ file₂ =
        some (element :: keepNew printable element elements) := by
  obtain ⟨formatted, hformatted, -⟩ := exists_format (first :: rest) reader.dependencies
    reader.loads
  have hall : (first :: rest).filter (·.op ≠ .load) = first :: rest := by
    apply List.filter_eq_self.mpr
    intro stmt hmem
    obtain ⟨row, hrow⟩ := fileReader_renders hreader stmt
      (mem_contents_of_getRelevantTrace hkept hmem)
    simpa using hrow.op_ne_load
  have hmapM := hformatted
  rw [format, hall, List.mapM_cons] at hmapM
  simp only [Option.bind_eq_bind, Option.bind_eq_some_iff, Option.pure_def,
    Option.some_inj] at hmapM
  obtain ⟨element, helement, elements, helements, rfl⟩ := hmapM
  refine ⟨element, elements, helement, helements, ?_⟩
  simp [formatLog, hreader, hkept, hformatted, removeDuplicates]

theorem mem_removeParentThread {trace : List Formatted} :
    element ∈ removeParentThread trace ↔ element ∈ trace ∧ element.tid ≠ 0 := by
  simp [removeParentThread]

end Written

/-- Only the statements of the parent are dropped exactly when the first statement that is relevant
is one of the parent. -/
theorem onlyParentDropped_iff (printable : Char → Bool) (log : List (BitVec 64 × Entry))
    (file₁ file₂ : Text) :
    OnlyParentDropped printable log file₁ file₂ ↔ ParentFirst printable log file₁ file₂ := by
  constructor
  · rintro ⟨reader, kept, trace, hreader, hkept, htrace, hdropped⟩
    cases kept with
    | nil => simp [formatLog, hreader, hkept, format, removeDuplicates] at htrace
    | cons first rest =>
        obtain ⟨element, elements, helement, helements, hlog⟩ :=
          @formatLog_cons printable _ _ _ _ _ _ hreader hkept
        obtain rfl := Option.some.inj (hlog.symm.trans htrace)
        have hcontents := mem_contents_of_getRelevantTrace hkept List.mem_cons_self
        obtain ⟨hlookup, -⟩ := formatElement_spec hreader hcontents helement
        have hzero : element.tid = 0 := by
          rw [getThreads_lookup_zero.mpr rfl, Option.some_inj] at hlookup
          exact hlookup.symm
        refine ⟨reader, first, rest, hreader, hkept, ?_, ?_⟩
        · apply ((hdropped first List.mem_cons_self element helement).1 List.mem_cons_self).mp
          simp [mem_removeParentThread, hzero]
        · intro stmt hmem hother element' helement'
          have hwritten := (hdropped stmt (List.mem_cons_of_mem _ hmem) element' helement').2 hother
          obtain ⟨kept, hkeptmem, hstr⟩ := List.mem_map.mp hwritten
          obtain ⟨hin, hne⟩ := mem_removeParentThread.mp hkeptmem
          rw [← hstr]
          rcases List.mem_cons.mp hin with rfl | hin
          · exact absurd hzero hne
          · exact (mem_of_mem_keepNew hin).2
  · rintro ⟨reader, first, rest, hreader, hkept, hfirst, hfree⟩
    obtain ⟨element, elements, helement, helements, hlog⟩ :=
      @formatLog_cons printable _ _ _ _ _ _ hreader hkept
    refine ⟨reader, first :: rest, _, hreader, hkept, hlog, ?_⟩
    intro stmt hmem element' helement'
    have hcontents := mem_contents_of_getRelevantTrace hkept hmem
    obtain ⟨hlookup, hadd, hdep⟩ := formatElement_spec hreader hcontents helement'
    have hzero : element'.tid = 0 ↔ OfParent log stmt := by
      rw [OfParent, hfirst, Option.some_inj, eq_comm (a := first.tid),
        ← @getThreads_lookup_zero rest first, hlookup, Option.some_inj]
    constructor
    · intro hin
      rw [mem_removeParentThread, ← hzero]
      tauto
    · intro hother
      have hrest : stmt ∈ rest := by
        rcases List.mem_cons.mp hmem with rfl | hmem
        · exact absurd hfirst hother
        · exact hmem
      have hin := Lists.mem_of_mem_mapM helements hrest helement'
      -- the statement may stand for a copy, which has the same thread
      obtain ⟨copy, hcopy, hstr⟩ := @exists_kept printable element _ _ hin
        (hfree stmt hrest hother element' helement')
      obtain ⟨source, hsource, hformat⟩ : ∃ source ∈ first :: rest, formatElement
          (getThreads (first :: rest)) reader.dependencies reader.loads source = some copy := by
        rcases List.mem_cons.mp hcopy with rfl | hcopy
        · exact ⟨first, List.mem_cons_self, helement⟩
        · obtain ⟨source, hsource, hformat⟩ :=
            Lists.exists_of_mem_mapM helements (mem_of_mem_keepNew hcopy).1
          exact ⟨source, List.mem_cons_of_mem _ hsource, hformat⟩
      obtain ⟨-, hadd', hdep'⟩ := formatElement_spec hreader
        (mem_contents_of_getRelevantTrace hkept hsource) hformat
      have htid := Formatted.tid_eq_of_str_eq ⟨hadd', hadd⟩ ⟨hdep', hdep⟩ hstr
      refine List.mem_map.mpr ⟨copy, mem_removeParentThread.mpr ⟨hcopy, ?_⟩, hstr⟩
      rw [htid]
      exact fun heq => hother (hzero.mp heq)

/-- The log of the motivating example. -/
def motivatingLog : List (BitVec 64 × Entry) :=
  let main := 139834576618112
  let thread1 := 139834576602880
  let thread2 := 139834568210176
  [(main, .funcBegin (lit "main") 1),
    (main, .funcBegin (lit "PersistentMemory_init") 1),
    (main, .event (.adding 0x1599850 0x1599854)),
    (main, .event (.adding 0x15998b0 0x15998b4)),
    (main, .funcEnd (lit "PersistentMemory_init") 1),
    (thread1, .funcBegin (lit "thread1_function") 1),
    (thread1, .event (.store 0x1599850 4 25 ⟨18, 14, lit "thread1_function"⟩)),
    (thread1, .funcEnd (lit "thread1_function") 1),
    (thread2, .funcBegin (lit "thread2_function") 1),
    (thread2, .event (.load 0x1599850 4 38 ⟨24, 16, lit "thread2_function"⟩)),
    (thread2, .event (.store 0x15998b0 4 42 ⟨24, 14, lit "thread2_function"⟩)),
    (thread2, .event (.clflush 0x15998b0 4 ⟨25, 5, lit "thread2_function"⟩)),
    (thread2, .simuFlush 0x15998b0 4),
    (thread2, .event (.sfence ⟨26, 5, lit "thread2_function"⟩)),
    (thread2, .simuSfence),
    (thread2, .funcEnd (lit "thread2_function") 1),
    (main, .funcEnd (lit "main") 1)]

instance (log : List (BitVec 64 × Entry)) (stmt : RowStmt) : Decidable (OfParent log stmt) :=
  inferInstanceAs (Decidable (_ = _))

/-- The statement of thread 1 is dropped. -/
theorem not_onlyParentDropped_motivating :
    ¬OnlyParentDropped (fun _ => true) motivatingLog
      (lit "DURA:[ pt_thread1_function_18]\nDURA:[ pt_thread2_function_24]\n")
      (lit "MPA: [pc_thread1_function_18; pc_thread2_function_24]\n") := by
  have hrun : (do
      let reader ← fileReader (rowsOf motivatingLog)
      let kept ← getRelevantTrace reader.contents
        (lit "DURA:[ pt_thread1_function_18]\nDURA:[ pt_thread2_function_24]\n")
        (lit "MPA: [pc_thread1_function_18; pc_thread2_function_24]\n")
      let trace ← formatLog (fun _ => true) (rowsOf motivatingLog)
        (lit "DURA:[ pt_thread1_function_18]\nDURA:[ pt_thread2_function_24]\n")
        (lit "MPA: [pc_thread1_function_18; pc_thread2_function_24]\n")
      let first ← kept.head?
      let element ← formatElement (getThreads kept) reader.dependencies reader.loads first
      return decide (element ∈ trace ∧ element ∉ removeParentThread trace ∧
        ¬OfParent motivatingLog first)) = some true := by decide +kernel
  rintro ⟨reader, kept, trace, hreader, hkept, htrace, hdropped⟩
  simp only [hreader, hkept, htrace, Option.bind_eq_bind, Option.bind_some,
    Option.bind_eq_some_iff, Option.pure_def, Option.some_inj, decide_eq_true_eq] at hrun
  obtain ⟨first, hfirst, element, helement, hin, hout, hother⟩ := hrun
  have hremoved := (hdropped first (List.mem_of_head? hfirst) element helement).1 hin
  exact hother (hremoved.mp hout)

end PMBugRepair
