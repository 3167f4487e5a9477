import PMBugRepair.Containers.Lists
import PMBugRepair.Formatter.Reader
import PMBugRepair.Runtime.Log

/-!
# The dependencies of loads

A load is written as a store whose dependency is looked up twice by identifier: `dependencies` has,
for the load, the source that was named last in the whole log, and `loads` has, for this source, the
address it accessed first. So the address a load really read comes out only when both lookups happen
to lead to it.
-/

namespace PMBugRepair

open Strings (Text lit)
open Lists (concat_eq_append_cons exists_mapM forall₂_of_mapM
  forall₂_iff_forall_mem)

/-- A row with `Store` in it and this address. -/
def StoreTo (row add : Text) : Prop := lit "Store" <:+: row ∧ column row 1 = some add

/-- The identifier of the last store to the address. -/
def LastStore (rows : List Text) (add id : Text) : Prop :=
  ∃ left row right, rows = left ++ row :: right ∧ StoreTo row add ∧ column row 5 = some id ∧
    ∀ later ∈ right, ¬StoreTo later add

/-- A load that has an earlier store to its address. -/
def LoadNames (before : List Text) (row uid source : Text) : Prop :=
  lit "Load" <:+: row ∧ column row 5 = some uid ∧ source ≠ [] ∧
    ∃ add, column row 1 = some add ∧ LastStore before add source

/-- The row, behind `before`, names a source for the identifier: a `DEP` row does, and a load. -/
def Names (before : List Text) (row uid source : Text) : Prop :=
  if IsDep row ∧ (column row 4).map (·.takeWhile (· ≠ ';')) = some uid then
    column row 2 = some source
  else LoadNames before row uid source

/-- The last row that names a source for the identifier names this one. -/
def LastNamed (rows : List Text) (uid source : Text) : Prop :=
  ∃ before row after, rows = before ++ row :: after ∧ Names before row uid source ∧
    ∀ left later right, after = left ++ later :: right →
      ∀ source', ¬Names (before ++ row :: left) later uid source'

/-- A load or a store with this identifier. -/
def AccessOf (row id : Text) : Prop :=
  (lit "Load" <:+: row ∨ lit "Store" <:+: row) ∧ column row 5 = some id

/-- The first access with the identifier is to this address. -/
def FirstAccess (rows : List Text) (id add : Text) : Prop :=
  ∃ before row after, rows = before ++ row :: after ∧ AccessOf row id ∧ column row 1 = some add ∧
    ∀ earlier ∈ before, ¬AccessOf earlier id

/-- `format` gives the address as the dependency of the statements that the load in row `n` is
written as. -/
def CarriesDependency (reader : Reader) (n : Nat) (add : Text) : Prop :=
  ∃ formatted, format reader.contents (getThreads reader.contents) reader.dependencies
      reader.loads = some formatted ∧
    (∃ stmt ∈ reader.contents, stmt.r = n ∧ stmt.op = .store) ∧
    List.Forall₂ (fun stmt element => stmt.r = n ∧ stmt.op = .store → element.dep = .text add)
      (reader.contents.filter (·.op ≠ .load)) formatted

/-! ### The last row of a log -/

section Concat

variable {rows : List Text} {row add id uid source : Text}

theorem lastStore_concat :
    LastStore (rows ++ [row]) add id ↔
      (StoreTo row add ∧ column row 5 = some id) ∨ (¬StoreTo row add ∧ LastStore rows add id) := by
  constructor
  · rintro ⟨left, found, right, heq, hstore, hid, hlater⟩
    rcases concat_eq_append_cons.mp heq with ⟨-, -, rfl⟩ | ⟨right, rfl, rfl⟩
    · exact .inl ⟨hstore, hid⟩
    · exact .inr ⟨hlater row (by simp), left, found, right, rfl, hstore, hid,
        fun later hmem => hlater later (List.mem_append_left _ hmem)⟩
  · rintro (⟨hstore, hid⟩ | ⟨hrow, left, found, right, rfl, hstore, hid, hlater⟩)
    · exact ⟨rows, row, [], rfl, hstore, hid, by simp⟩
    · refine ⟨left, found, right ++ [row], by simp, hstore, hid, ?_⟩
      intro later hmem
      rcases List.mem_append.mp hmem with hmem | hmem
      · exact hlater later hmem
      · obtain rfl : later = row := by simpa using hmem
        exact hrow

theorem lastNamed_concat :
    LastNamed (rows ++ [row]) uid source ↔
      Names rows row uid source ∨
        ((∀ source', ¬Names rows row uid source') ∧ LastNamed rows uid source) := by
  constructor
  · rintro ⟨before, found, after, heq, hnames, hlater⟩
    rcases concat_eq_append_cons.mp heq with ⟨-, rfl, rfl⟩ | ⟨after, rfl, rfl⟩
    · exact .inl hnames
    · refine .inr ⟨hlater after row [] rfl, before, found, after, rfl, hnames, ?_⟩
      intro left later right hsplit
      exact hlater left later (right ++ [row]) (by simp [hsplit])
  · rintro (hnames | ⟨hrow, before, found, after, rfl, hnames, hlater⟩)
    · exact ⟨rows, row, [], rfl, hnames, by simp⟩
    · refine ⟨before, found, after ++ [row], by simp, hnames, ?_⟩
      intro left later right hsplit
      rcases concat_eq_append_cons.mp hsplit with ⟨-, rfl, rfl⟩ | ⟨right, -, rfl⟩
      · exact hrow
      · exact hlater left later right rfl

theorem firstAccess_concat :
    FirstAccess (rows ++ [row]) id add ↔
      FirstAccess rows id add ∨
        ((∀ earlier ∈ rows, ¬AccessOf earlier id) ∧ AccessOf row id ∧
          column row 1 = some add) := by
  constructor
  · rintro ⟨before, found, after, heq, haccess, hadd, hearlier⟩
    rcases concat_eq_append_cons.mp heq with ⟨-, rfl, rfl⟩ | ⟨after, -, rfl⟩
    · exact .inr ⟨hearlier, haccess, hadd⟩
    · exact .inl ⟨before, found, after, rfl, haccess, hadd, hearlier⟩
  · rintro (⟨before, found, after, rfl, haccess, hadd, hearlier⟩ | ⟨hearlier, haccess, hadd⟩)
    · exact ⟨before, found, after ++ [row], by simp, haccess, hadd, hearlier⟩
    · exact ⟨rows, row, [], rfl, haccess, hadd, hearlier⟩

end Concat

/-! ### One row -/

section Row

variable {before : List Text} {row add id uid source : Text} {reader reader' : Reader}

theorem findSource_concat (row earlier : Text) (before : List Text) :
    findSource row (before ++ [earlier]) = (findSource row before).bind fun source =>
      if lit "Store" <:+: earlier then
        (column row 1).bind fun add => (column earlier 1).bind fun add' =>
          if add = add' then column earlier 5 else some source
      else some source := by
  rw [findSource, List.foldlM_append]
  simp only [List.foldlM_cons, List.foldlM_nil, bind_pure]
  rfl

/-- What the loop over `j` finds, if anything, is the last store to the address. -/
theorem lastStore_of_findSource (h : findSource row before = some source) (hne : source ≠ []) :
    ∃ add, column row 1 = some add ∧ LastStore before add source := by
  induction before using List.reverseRecOn generalizing source with
  | nil => exact absurd (by simpa [findSource] using h.symm) hne
  | append_singleton before earlier ih =>
      rw [findSource_concat, Option.bind_eq_some_iff] at h
      obtain ⟨found, hfound, h⟩ := h
      by_cases hstore : lit "Store" <:+: earlier
      · simp only [if_pos hstore, Option.bind_eq_some_iff] at h
        obtain ⟨add, hadd, add', hadd', h⟩ := h
        by_cases heq : add = add'
        · rw [if_pos heq] at h
          exact ⟨add, hadd, lastStore_concat.mpr (.inl ⟨⟨hstore, heq ▸ hadd'⟩, h⟩)⟩
        · rw [if_neg heq, Option.some_inj] at h
          subst h
          obtain ⟨_, hadd'', hlast⟩ := ih hfound hne
          obtain rfl := Option.some.inj (hadd.symm.trans hadd'')
          refine ⟨add, hadd, lastStore_concat.mpr (.inr ⟨fun hto => heq ?_, hlast⟩)⟩
          exact Option.some.inj (hto.2.symm.trans hadd')
      · rw [if_neg hstore, Option.some_inj] at h
        subst h
        obtain ⟨add, hadd, hlast⟩ := ih hfound hne
        exact ⟨add, hadd, lastStore_concat.mpr (.inr ⟨fun hto => hstore hto.1, hlast⟩)⟩

theorem findSource_eq_of_lastStore (h : findSource row before = some source)
    (hadd : column row 1 = some add) (hlast : LastStore before add id) : source = id := by
  induction before using List.reverseRecOn generalizing source with
  | nil =>
      obtain ⟨left, found, right, heq, -⟩ := hlast
      simp at heq
  | append_singleton before earlier ih =>
      rw [findSource_concat, Option.bind_eq_some_iff] at h
      obtain ⟨found, hfound, h⟩ := h
      rcases lastStore_concat.mp hlast with ⟨⟨hstore, hadd'⟩, hid⟩ | ⟨hother, hlast⟩
      · simp only [if_pos hstore, hadd, hadd', Option.bind_some, if_true] at h
        exact Option.some.inj (h.symm.trans hid)
      · have hkeep : found = source := by
          by_cases hstore : lit "Store" <:+: earlier
          · simp only [if_pos hstore, hadd, Option.bind_some, Option.bind_eq_some_iff] at h
            obtain ⟨add', hadd', h⟩ := h
            have hne : add ≠ add' := by
              rintro rfl
              exact hother ⟨hstore, hadd'⟩
            rw [if_neg hne] at h
            exact Option.some.inj h
          · rw [if_neg hstore] at h
            exact Option.some.inj h
        exact hkeep ▸ ih hfound hlast

/-- A load names the source that its loop finds. -/
theorem readLoad_cases (h : readLoad before row reader = some reader') :
    (reader' = reader ∧ (lit "Load" <:+: row → findSource row before = some [])) ∨
    ∃ dest source stmt, lit "Load" <:+: row ∧ column row 5 = some dest ∧
      findSource row before = some source ∧ source ≠ [] ∧
      formatSTOREs row (before.length + 1) = some stmt ∧
      reader' = (reader.depend dest source).append stmt := by
  unfold readLoad at h
  by_cases hload : lit "Load" <:+: row
  · simp only [if_pos hload, Option.bind_eq_bind, Option.bind_eq_some_iff] at h
    obtain ⟨dest, hdest, source, hsource, h⟩ := h
    by_cases hnil : source = []
    · exact .inl ⟨by simpa [hnil] using h.symm, fun _ => hnil ▸ hsource⟩
    · simp only [if_neg hnil, Option.bind_eq_some_iff] at h
      obtain ⟨stmt, hstmt, h⟩ := h
      exact .inr ⟨dest, source, stmt, hload, hdest, hsource, hnil, hstmt,
        (Option.some.inj h).symm⟩
  · rw [if_neg hload] at h
    exact .inl ⟨(Option.some.inj h).symm, fun hrow => absurd hrow hload⟩

theorem readAccess_cases (h : readAccess before row reader = some reader') :
    (reader' = reader ∧ ¬(lit "Load" <:+: row ∨ lit "Store" <:+: row)) ∨
    ∃ load uid stmt, (lit "Load" <:+: row ∨ lit "Store" <:+: row) ∧
      formatLOAD row (before.length + 1) = some load ∧ column row 5 = some uid ∧
      formatSTOREs row (before.length + 1) = some stmt ∧
      reader' = (reader.record uid load).append stmt := by
  unfold readAccess at h
  by_cases haccess : lit "Load" <:+: row ∨ lit "Store" <:+: row
  · simp only [if_pos haccess, Option.bind_eq_bind, Option.bind_eq_some_iff] at h
    obtain ⟨load, hload, uid, huid, stmt, hstmt, h⟩ := h
    exact .inr ⟨load, uid, stmt, haccess, hload, huid, hstmt, (Option.some.inj h).symm⟩
  · rw [if_neg haccess] at h
    exact .inl ⟨(Option.some.inj h).symm, haccess⟩

theorem formatSTOREs_spec {r : Nat} {stmt : RowStmt} (h : formatSTOREs row r = some stmt) :
    stmt.r = r ∧ stmt.op = .store ∧ ∃ uid, column row 5 = some uid ∧ stmt.uid = some uid := by
  simp only [formatSTOREs, Option.bind_eq_bind, Option.bind_eq_some_iff, Option.pure_def,
    Option.some_inj] at h
  obtain ⟨scope, -, add, -, uid, huid, rfl⟩ := h
  exact ⟨rfl, rfl, uid, huid, rfl⟩

theorem formatFLUSH_spec {r : Nat} {stmt : RowStmt} (h : formatFLUSH row r = some stmt) :
    stmt.r = r ∧ stmt.op ≠ .store := by
  simp only [formatFLUSH, Option.bind_eq_bind, Option.bind_eq_some_iff, Option.pure_def,
    Option.some_inj] at h
  obtain ⟨scope, -, add, -, rfl⟩ := h
  exact ⟨rfl, RowOp.noConfusion⟩

theorem formatFENCE_spec {r : Nat} {stmt : RowStmt} (h : formatFENCE row r = some stmt) :
    stmt.r = r ∧ stmt.op ≠ .store := by
  simp only [formatFENCE, Option.bind_eq_bind, Option.bind_eq_some_iff, Option.pure_def,
    Option.some_inj] at h
  obtain ⟨scope, -, rfl⟩ := h
  exact ⟨rfl, RowOp.noConfusion⟩

theorem formatTransactions_spec {r : Nat} {stmt : RowStmt}
    (h : formatTransactions row r = some stmt) : stmt.r = r ∧ stmt.op ≠ .store := by
  simp only [formatTransactions, Option.bind_eq_bind, Option.bind_eq_some_iff, Option.pure_def,
    Option.some_inj] at h
  obtain ⟨scope, -, rfl⟩ := h
  refine ⟨rfl, ?_⟩
  dsimp only
  split <;> decide

theorem readStatement_cases (h : readStatement before row reader = some reader') :
    (IsDep row ∧ ∃ source dest, column row 2 = some source ∧ column row 4 = some dest ∧
      reader' = reader.depend (dest.takeWhile (· ≠ ';')) source) ∨
    (¬IsDep row ∧ (reader' = reader ∨ ∃ stmt, stmt.r = before.length + 1 ∧
      (stmt.op = .store → formatSTOREs row (before.length + 1) = some stmt) ∧
      reader' = reader.append stmt)) := by
  unfold readStatement at h
  by_cases hstore : lit "Store" <:+: row
  · simp only [if_pos hstore, Option.bind_eq_bind, Option.bind_eq_some_iff] at h
    obtain ⟨stmt, hstmt, h⟩ := h
    exact .inr ⟨fun hdep => hdep.1 hstore, .inr ⟨stmt, (formatSTOREs_spec hstmt).1, fun _ => hstmt,
      (Option.some.inj h).symm⟩⟩
  rw [if_neg hstore] at h
  by_cases hflush : lit "FLUSH" <:+: row
  · simp only [if_pos hflush, Option.bind_eq_bind, Option.bind_eq_some_iff] at h
    obtain ⟨stmt, hstmt, h⟩ := h
    obtain ⟨hr, hop⟩ := formatFLUSH_spec hstmt
    exact .inr ⟨fun hdep => hdep.2.1 hflush, .inr ⟨stmt, hr, fun heq => absurd heq hop,
      (Option.some.inj h).symm⟩⟩
  rw [if_neg hflush] at h
  by_cases hfence : lit "FENCE" <:+: row
  · simp only [if_pos hfence, Option.bind_eq_bind, Option.bind_eq_some_iff] at h
    obtain ⟨stmt, hstmt, h⟩ := h
    obtain ⟨hr, hop⟩ := formatFENCE_spec hstmt
    exact .inr ⟨fun hdep => hdep.2.2.1 hfence, .inr ⟨stmt, hr, fun heq => absurd heq hop,
      (Option.some.inj h).symm⟩⟩
  rw [if_neg hfence] at h
  by_cases htx : lit "Transaction" <:+: row
  · simp only [if_pos htx, Option.bind_eq_bind, Option.bind_eq_some_iff] at h
    obtain ⟨stmt, hstmt, h⟩ := h
    obtain ⟨hr, hop⟩ := formatTransactions_spec hstmt
    exact .inr ⟨fun hdep => hdep.2.2.2.1 htx, .inr ⟨stmt, hr, fun heq => absurd heq hop,
      (Option.some.inj h).symm⟩⟩
  rw [if_neg htx] at h
  by_cases hdep : lit "DEP" <:+: row
  · simp only [if_pos hdep, Option.bind_eq_bind, Option.bind_eq_some_iff] at h
    obtain ⟨source, hsource, dest, hdest, h⟩ := h
    exact .inl ⟨⟨hstore, hflush, hfence, htx, hdep⟩, source, dest, hsource, hdest,
      (Option.some.inj h).symm⟩
  · rw [if_neg hdep] at h
    exact .inr ⟨fun hrow => hdep hrow.2.2.2.2, .inl (Option.some.inj h).symm⟩

theorem readRow_eq (h : readRow before row reader = some reader') :
    ∃ loaded accessed, readLoad before row reader = some loaded ∧
      readAccess before row loaded = some accessed ∧
      readStatement before row accessed = some reader' := by
  simpa only [readRow, Option.bind_eq_bind, Option.bind_eq_some_iff, exists_and_left] using h

theorem readLoad_lookup (h : readLoad before row reader = some reader') :
    reader'.dependencies.lookup uid = some source ↔
      LoadNames before row uid source ∨
        ((∀ source', ¬LoadNames before row uid source') ∧
          reader.dependencies.lookup uid = some source) := by
  rcases readLoad_cases h with ⟨rfl, hnone⟩ | ⟨dest, found, stmt, hload, hdest, hfound, hne, -, rfl⟩
  · have hnames : ∀ source', ¬LoadNames before row uid source' := by
      rintro source' ⟨hload, -, hne, add, hadd, hlast⟩
      exact hne (findSource_eq_of_lastStore (hnone hload) hadd hlast).symm
    simp [hnames]
  · have hnames : ∀ source', LoadNames before row uid source' ↔ dest = uid ∧ found = source' := by
      intro source'
      constructor
      · rintro ⟨-, huid, -, add, hadd, hlast⟩
        exact ⟨Option.some.inj (hdest.symm.trans huid),
          findSource_eq_of_lastStore hfound hadd hlast⟩
      · rintro ⟨rfl, rfl⟩
        exact ⟨hload, hdest, hne, lastStore_of_findSource hfound hne⟩
    simp only [hnames, Reader.append, Reader.depend, List.lookup_cons]
    by_cases heq : uid = dest
    · simp [heq]
    · simp [Ne.symm heq, beq_eq_false_iff_ne.mpr heq]

theorem readRow_lookup (h : readRow before row reader = some reader') :
    reader'.dependencies.lookup uid = some source ↔
      Names before row uid source ∨
        ((∀ source', ¬Names before row uid source') ∧
          reader.dependencies.lookup uid = some source) := by
  obtain ⟨loaded, accessed, hload, haccess, hstatement⟩ := readRow_eq h
  have hsame : accessed.dependencies = loaded.dependencies := by
    rcases readAccess_cases haccess with ⟨rfl, -⟩ | ⟨load, id, stmt, -, -, -, -, rfl⟩ <;> rfl
  rcases readStatement_cases hstatement with
    ⟨hdep, named, dest, hnamed, hdest, rfl⟩ | ⟨hdep, hreader⟩
  · simp only [Reader.depend, List.lookup_cons, hsame]
    by_cases heq : uid = dest.takeWhile (· ≠ ';')
    · subst heq
      have hnames : ∀ source', Names before row (dest.takeWhile (· ≠ ';')) source' ↔
          named = source' := by
        intro source'
        rw [Names, if_pos ⟨hdep, by rw [hdest]; rfl⟩, hnamed, Option.some_inj]
      simp only [hnames, BEq.rfl, Option.some_inj]
      refine ⟨.inl, ?_⟩
      rintro (heq | ⟨hne, -⟩)
      · exact heq
      · exact absurd rfl (hne named)
    · have hnames : ∀ source', Names before row uid source' ↔ LoadNames before row uid source' := by
        intro source'
        rw [Names, if_neg]
        rintro ⟨-, huid⟩
        rw [hdest] at huid
        exact heq (Option.some.inj huid).symm
      simp only [hnames, beq_eq_false_iff_ne.mpr heq]
      exact readLoad_lookup hload
  · have hdeps : reader'.dependencies = loaded.dependencies := by
      rcases hreader with rfl | ⟨stmt, -, -, rfl⟩
      · exact hsame
      · exact hsame
    have hnames : ∀ source', Names before row uid source' ↔ LoadNames before row uid source' := by
      intro source'
      rw [Names, if_neg fun hrow => hdep hrow.1]
    simp only [hnames, hdeps]
    exact readLoad_lookup hload

theorem formatLOAD_add {r : Nat} {load : RowStmt} (h : formatLOAD row r = some load) :
    load.add = .text add ↔ column row 1 = some add := by
  simp only [formatLOAD, Option.bind_eq_bind, Option.bind_eq_some_iff, Option.pure_def,
    Option.some_inj] at h
  obtain ⟨scope, -, add', hadd', line, -, rfl⟩ := h
  simp [hadd']

theorem record_lookup (reader : Reader) (uid : Text) (load : RowStmt) :
    (reader.record uid load).loads.lookup id =
      (reader.loads.lookup id).or (if id = uid then some load else none) := by
  unfold Reader.record
  by_cases heq : id = uid
  · subst heq
    cases hfound : reader.loads.lookup id with
    | none => simp
    | some load' => simp [hfound]
  · cases hfound : reader.loads.lookup uid with
    | none => simp [List.lookup_cons, beq_eq_false_iff_ne.mpr heq, heq]
    | some load' => simp [heq]

/-- The entries of `loads` are kept, and an access with a new identifier makes one. -/
theorem readRow_loads (h : readRow before row reader = some reader') :
    (¬AccessOf row id ∧ reader'.loads.lookup id = reader.loads.lookup id) ∨
    (AccessOf row id ∧ ∃ load, formatLOAD row (before.length + 1) = some load ∧
      reader'.loads.lookup id = (reader.loads.lookup id).or (some load)) := by
  obtain ⟨loaded, accessed, hload, haccess, hstatement⟩ := readRow_eq h
  have hloaded : loaded.loads = reader.loads := by
    rcases readLoad_cases hload with ⟨rfl, -⟩ | ⟨_, _, _, -, -, -, -, -, rfl⟩ <;> rfl
  have hreader : reader'.loads = accessed.loads := by
    rcases readStatement_cases hstatement with ⟨-, _, _, -, -, rfl⟩ | ⟨-, rfl | ⟨_, -, -, rfl⟩⟩ <;>
      rfl
  rw [hreader, ← hloaded]
  rcases readAccess_cases haccess with ⟨rfl, hnone⟩ | ⟨load, uid, stmt, hrow, hform, huid, -, rfl⟩
  · exact .inl ⟨fun haccess => hnone haccess.1, rfl⟩
  · have hlookup : ((loaded.record uid load).append stmt).loads.lookup id = _ :=
      record_lookup loaded uid load
    by_cases heq : id = uid
    · exact .inr ⟨⟨hrow, heq ▸ huid⟩, load, hform, by rw [hlookup, if_pos heq]⟩
    · refine .inl ⟨fun haccess => heq ?_, by rw [hlookup, if_neg heq, Option.or_none]⟩
      exact Option.some.inj (haccess.2.symm.trans huid)

/-- A statement of the row. -/
def StatementOf (before : List Text) (row : Text) (stmt : RowStmt) : Prop :=
  stmt.r = before.length + 1 ∧
    (stmt.op = .store → ∃ uid, column row 5 = some uid ∧ stmt.uid = some uid)

theorem statementOf_store {stmt : RowStmt} (h : formatSTOREs row (before.length + 1) = some stmt) :
    StatementOf before row stmt :=
  ⟨(formatSTOREs_spec h).1, fun _ => (formatSTOREs_spec h).2.2⟩

/-- A row appends statements of its own, a load at least one store. -/
theorem readRow_contents (h : readRow before row reader = some reader') :
    ∃ stmts, reader'.contents = reader.contents ++ stmts ∧
      (∀ stmt ∈ stmts, StatementOf before row stmt) ∧
      (lit "Load" <:+: row → ∃ stmt ∈ stmts, stmt.op = .store) := by
  obtain ⟨loaded, accessed, hload, haccess, hstatement⟩ := readRow_eq h
  obtain ⟨first, hfirst, hfirst'⟩ : ∃ stmts, loaded.contents = reader.contents ++ stmts ∧
      ∀ stmt ∈ stmts, StatementOf before row stmt := by
    rcases readLoad_cases hload with ⟨rfl, -⟩ | ⟨_, _, stmt, -, -, -, -, hstmt, rfl⟩
    · exact ⟨[], by simp⟩
    · exact ⟨[stmt], rfl, by simpa using statementOf_store hstmt⟩
  obtain ⟨second, hsecond, hsecond', hstore⟩ : ∃ stmts,
      accessed.contents = loaded.contents ++ stmts ∧
      (∀ stmt ∈ stmts, StatementOf before row stmt) ∧
      (lit "Load" <:+: row → ∃ stmt ∈ stmts, stmt.op = .store) := by
    rcases readAccess_cases haccess with ⟨rfl, hnone⟩ | ⟨_, _, stmt, -, -, -, hstmt, rfl⟩
    · exact ⟨[], by simp, by simp, fun hrow => absurd (.inl hrow) hnone⟩
    · exact ⟨[stmt], rfl, by simpa using statementOf_store hstmt,
        fun _ => ⟨stmt, by simp, (formatSTOREs_spec hstmt).2.1⟩⟩
  obtain ⟨third, hthird, hthird'⟩ : ∃ stmts, reader'.contents = accessed.contents ++ stmts ∧
      ∀ stmt ∈ stmts, StatementOf before row stmt := by
    rcases readStatement_cases hstatement with
      ⟨-, _, _, -, -, rfl⟩ | ⟨-, rfl | ⟨stmt, hr, hstmt, rfl⟩⟩
    · exact ⟨[], by simp [Reader.depend]⟩
    · exact ⟨[], by simp⟩
    · refine ⟨[stmt], rfl, ?_⟩
      simpa using ⟨hr, fun hop => (formatSTOREs_spec (hstmt hop)).2.2⟩
  refine ⟨first ++ second ++ third, by simp [hfirst, hsecond, hthird], ?_, ?_⟩
  · intro stmt hmem
    rcases List.mem_append.mp hmem with hmem | hmem
    · rcases List.mem_append.mp hmem with hmem | hmem
      · exact hfirst' stmt hmem
      · exact hsecond' stmt hmem
    · exact hthird' stmt hmem
  · intro hrow
    obtain ⟨stmt, hmem, hop⟩ := hstore hrow
    exact ⟨stmt, by simp [hmem], hop⟩

end Row

/-! ### The log -/

section Log

variable {rows before : List Text} {row add id uid source : Text} {reader : Reader}

theorem readRows_append (before : List Text) (start : Reader) (rows later : List Text) :
    readRows before start (rows ++ later) =
      (readRows before start rows).bind fun reader => readRows (before ++ rows) reader later := by
  induction rows generalizing before start with
  | nil => simp [readRows]
  | cons row rows ih =>
      simp only [List.cons_append, readRows, Option.bind_eq_bind, Option.bind_assoc]
      congr 1
      funext reader
      simpa using ih (before ++ [row]) reader

theorem fileReader_concat (rows : List Text) (row : Text) :
    fileReader (rows ++ [row]) = (fileReader rows).bind (readRow rows row) := by
  rw [fileReader, readRows_append, fileReader]
  congr 1
  funext reader
  simp [readRows]

theorem fileReader_concat_eq (h : fileReader (rows ++ [row]) = some reader) :
    ∃ start, fileReader rows = some start ∧ readRow rows row start = some reader := by
  rwa [fileReader_concat, Option.bind_eq_some_iff] at h

/-- `dependencies` has the source that was named last. -/
theorem fileReader_lookup (h : fileReader rows = some reader) :
    reader.dependencies.lookup uid = some source ↔ LastNamed rows uid source := by
  induction rows using List.reverseRecOn generalizing reader with
  | nil =>
      obtain rfl : reader = {} := by simpa [fileReader, readRows] using h.symm
      simp [LastNamed]
  | append_singleton rows row ih =>
      obtain ⟨start, hstart, hrow⟩ := fileReader_concat_eq h
      rw [readRow_lookup hrow, lastNamed_concat, ih hstart]

/-- `loads` has the first access. -/
theorem fileReader_loads (h : fileReader rows = some reader) :
    (reader.loads.lookup id = none ↔ ∀ row ∈ rows, ¬AccessOf row id) ∧
      ((reader.loads.lookup id).map RowStmt.add = some (.text add) ↔ FirstAccess rows id add) := by
  induction rows using List.reverseRecOn generalizing reader with
  | nil =>
      obtain rfl : reader = {} := by simpa [fileReader, readRows] using h.symm
      simp [FirstAccess]
  | append_singleton rows row ih =>
      obtain ⟨start, hstart, hrow⟩ := fileReader_concat_eq h
      obtain ⟨hnone, hfirst⟩ := ih hstart
      rw [firstAccess_concat, ← hfirst, ← hnone]
      rcases readRow_loads hrow with ⟨hother, hsame⟩ | ⟨haccess, load, hload, hsame⟩
      · rw [hsame]
        simp [hother, hnone, or_imp, forall_and]
      · rw [hsame]
        cases hlookup : start.loads.lookup id with
        | none => simp [haccess, formatLOAD_add hload]
        | some load' => simp [haccess]

/-- A statement comes from the row with its number. -/
theorem fileReader_contents (h : fileReader rows = some reader) {stmt : RowStmt}
    (hmem : stmt ∈ reader.contents) :
    ∃ before row after, rows = before ++ row :: after ∧ StatementOf before row stmt := by
  induction rows using List.reverseRecOn generalizing reader with
  | nil =>
      obtain rfl : reader = {} := by simpa [fileReader, readRows] using h.symm
      cases hmem
  | append_singleton rows row ih =>
      obtain ⟨start, hstart, hrow⟩ := fileReader_concat_eq h
      obtain ⟨stmts, hcontents, hof, -⟩ := readRow_contents hrow
      rw [hcontents] at hmem
      rcases List.mem_append.mp hmem with hmem | hmem
      · obtain ⟨before, found, after, rfl, hstmt⟩ := ih hstart hmem
        exact ⟨before, found, after ++ [row], by simp, hstmt⟩
      · exact ⟨rows, row, [], rfl, hof stmt hmem⟩

theorem fileReader_load {after : List Text} (h : fileReader (before ++ row :: after) = some reader)
    (hload : lit "Load" <:+: row) :
    ∃ stmt ∈ reader.contents, stmt.r = before.length + 1 ∧ stmt.op = .store := by
  induction after using List.reverseRecOn generalizing reader with
  | nil =>
      obtain ⟨start, -, hrow⟩ := fileReader_concat_eq h
      obtain ⟨stmts, hcontents, hof, hstore⟩ := readRow_contents hrow
      obtain ⟨stmt, hmem, hop⟩ := hstore hload
      exact ⟨stmt, by simp [hcontents, hmem], (hof stmt hmem).1, hop⟩
  | append_singleton after last ih =>
      rw [← List.cons_append, ← List.append_assoc] at h
      obtain ⟨start, hstart, hrow⟩ := fileReader_concat_eq h
      obtain ⟨stmt, hmem, hstmt⟩ := ih hstart
      obtain ⟨stmts, hcontents, -, -⟩ := readRow_contents hrow
      exact ⟨stmt, by simp [hcontents, hmem], hstmt⟩

theorem getThreads_concat (trace : List RowStmt) (stmt : RowStmt) :
    getThreads (trace ++ [stmt]) = match (getThreads trace).lookup stmt.tid with
      | some _ => getThreads trace
      | none => getThreads trace ++ [(stmt.tid, (getThreads trace).length)] := by
  rw [getThreads, List.foldl_append]
  rfl

theorem exists_getThreads_lookup {trace : List RowStmt} {stmt : RowStmt} (hmem : stmt ∈ trace) :
    ∃ n, (getThreads trace).lookup stmt.tid = some n := by
  induction trace using List.reverseRecOn with
  | nil => cases hmem
  | append_singleton trace last ih =>
      rw [getThreads_concat]
      rcases List.mem_append.mp hmem with hmem | hmem
      · obtain ⟨n, hn⟩ := ih hmem
        cases hlast : (getThreads trace).lookup last.tid with
        | some _ => exact ⟨n, hn⟩
        | none => exact ⟨n, by simp [List.lookup_append, hn]⟩
      · obtain rfl : stmt = last := by simpa using hmem
        cases hlast : (getThreads trace).lookup stmt.tid with
        | some n => exact ⟨n, hlast⟩
        | none => exact ⟨(getThreads trace).length, by simp [List.lookup_append, hlast]⟩

theorem exists_format (trace : List RowStmt) (dependencies : List (Text × Text))
    (loads : List (Text × RowStmt)) :
    ∃ formatted, format trace (getThreads trace) dependencies loads = some formatted ∧
      List.Forall₂ (fun stmt element => element.dep = dependency dependencies loads stmt)
        (trace.filter (·.op ≠ .load)) formatted := by
  obtain ⟨formatted, hformatted⟩ : ∃ formatted,
      format trace (getThreads trace) dependencies loads = some formatted := by
    apply exists_mapM
    intro stmt hmem
    obtain ⟨n, hn⟩ := exists_getThreads_lookup (List.mem_of_mem_filter hmem)
    exact ⟨_, by rw [formatElement, hn]; rfl⟩
  refine ⟨formatted, hformatted, (forall₂_of_mapM hformatted).imp ?_⟩
  intro stmt element helement
  simp only [formatElement, Option.bind_eq_bind, Option.bind_eq_some_iff, Option.pure_def,
    Option.some_inj] at helement
  obtain ⟨tid, -, rfl⟩ := helement
  rfl

theorem carriesDependency_iff_dependency {n : Nat} :
    CarriesDependency reader n add ↔
      (∃ stmt ∈ reader.contents, stmt.r = n ∧ stmt.op = .store) ∧
      ∀ stmt ∈ reader.contents, stmt.r = n ∧ stmt.op = .store →
        dependency reader.dependencies reader.loads stmt = .text add := by
  obtain ⟨formatted, hformat, hpairs⟩ :=
    exists_format reader.contents reader.dependencies reader.loads
  have hall : List.Forall₂ (fun stmt element => stmt.r = n ∧ stmt.op = .store →
      element.dep = .text add) (reader.contents.filter (·.op ≠ .load)) formatted ↔ _ :=
    forall₂_iff_forall_mem hpairs fun stmt element hdep => by rw [hdep]
  constructor
  · rintro ⟨formatted', hformat', hexists, hcarries⟩
    obtain rfl := Option.some.inj (hformat.symm.trans hformat')
    refine ⟨hexists, fun stmt hmem hnumber => ?_⟩
    exact hall.mp hcarries stmt (by simp [hmem, hnumber.2]) hnumber
  · rintro ⟨hexists, hdep⟩
    refine ⟨formatted, hformat, hexists, hall.mpr fun stmt hmem hnumber => ?_⟩
    exact hdep stmt (List.mem_of_mem_filter hmem) hnumber

theorem dependency_eq_iff (h : fileReader rows = some reader) {stmt : RowStmt}
    (hop : stmt.op = .store) (huid : stmt.uid = some uid) :
    dependency reader.dependencies reader.loads stmt = .text add ↔
      ∃ source, LastNamed rows uid source ∧ FirstAccess rows source add := by
  have hdep : dependency reader.dependencies reader.loads stmt = .text add ↔
      ∃ source, reader.dependencies.lookup uid = some source ∧
        (reader.loads.lookup source).map RowStmt.add = some (.text add) := by
    simp only [dependency, hop, huid]
    cases hsource : reader.dependencies.lookup uid with
    | none => simp
    | some source => cases hload : reader.loads.lookup source <;> simp [hload]
  rw [hdep]
  apply exists_congr
  intro source
  rw [fileReader_lookup h, (fileReader_loads h).2]

end Log

/-- A load carries an address exactly when the last source that the log names for its identifier
accessed this address first. -/
theorem carriesDependency_iff {before after : List Text} {row add : Text} {reader : Reader}
    (hread : fileReader (before ++ row :: after) = some reader) (hload : lit "Load" <:+: row) :
    CarriesDependency reader (before.length + 1) add ↔
      ∃ uid source, column row 5 = some uid ∧ LastNamed (before ++ row :: after) uid source ∧
        FirstAccess (before ++ row :: after) source add := by
  -- the statements of the row all have its identifier
  have hrow : ∀ stmt ∈ reader.contents, stmt.r = before.length + 1 → stmt.op = .store →
      ∃ uid, column row 5 = some uid ∧ stmt.uid = some uid := by
    intro stmt hmem hr hop
    obtain ⟨before', row', after', heq, hr', huid⟩ := fileReader_contents hread hmem
    obtain ⟨-, hrows⟩ := List.append_inj heq (by omega)
    rw [(List.cons.inj hrows).1]
    exact huid hop
  have hstmt : ∀ stmt ∈ reader.contents, stmt.r = before.length + 1 ∧ stmt.op = .store →
      (dependency reader.dependencies reader.loads stmt = .text add ↔
        ∃ uid source, column row 5 = some uid ∧ LastNamed (before ++ row :: after) uid source ∧
          FirstAccess (before ++ row :: after) source add) := by
    intro stmt hmem ⟨hr, hop⟩
    obtain ⟨uid, hcolumn, huid⟩ := hrow stmt hmem hr hop
    rw [dependency_eq_iff hread hop huid]
    simp [hcolumn]
  obtain ⟨stmt, hmem, hnumber⟩ := fileReader_load hread hload
  rw [carriesDependency_iff_dependency]
  constructor
  · rintro ⟨-, hcarries⟩
    exact (hstmt stmt hmem hnumber).mp (hcarries stmt hmem hnumber)
  · intro hsource
    exact ⟨⟨stmt, hmem, hnumber⟩, fun stmt' hmem' hnumber' =>
      (hstmt stmt' hmem' hnumber').mpr hsource⟩

/-- A store to the address by the instruction 70, and a load from it by the instruction 88. -/
def insertRow (add : BitVec 64) : Text := logLine 1 (.store add 4 70 ⟨117, 12, lit "insert"⟩)

def getRow (add : BitVec 64) : Text := logLine 1 (.load add 4 88 ⟨152, 12, lit "get"⟩)

theorem carriesDependency_get :
    ∃ reader, fileReader [insertRow 0x10, getRow 0x10] = some reader ∧
      CarriesDependency reader 2 (lit "0x10") := by
  obtain ⟨reader, hreader⟩ := Option.isSome_iff_exists.mp
    (show (fileReader [insertRow 0x10, getRow 0x10]).isSome by decide +kernel)
  have hnames : Names [insertRow 0x10] (getRow 0x10) (lit "88") (lit "70") := by
    rw [Names, if_neg (by decide +kernel)]
    refine ⟨by with_unfolding_all decide, by with_unfolding_all decide,
      by with_unfolding_all decide, lit "0x10",
      by with_unfolding_all decide, [], insertRow 0x10, [], rfl, ?_,
      by with_unfolding_all decide, by simp⟩
    exact ⟨by with_unfolding_all decide, by with_unfolding_all decide⟩
  refine ⟨reader, hreader, (@carriesDependency_iff [insertRow 0x10] [] (getRow 0x10) _ reader
    hreader (by with_unfolding_all decide)).mpr
      ⟨lit "88", lit "70", by with_unfolding_all decide, ?_, ?_⟩⟩
  · exact ⟨[insertRow 0x10], getRow 0x10, [], rfl, hnames, by simp⟩
  · exact ⟨[], insertRow 0x10, [getRow 0x10], rfl, ⟨by decide +kernel, by decide +kernel⟩,
      by with_unfolding_all decide, by simp⟩

/-- The instruction that stored to the address stored to another one before. -/
theorem not_carriesDependency_get :
    ∃ reader, fileReader [insertRow 0x10, insertRow 0x14, getRow 0x14] = some reader ∧
      lit "Load" <:+: getRow 0x14 ∧ column (getRow 0x14) 1 = some (lit "0x14") ∧
      StoreTo (insertRow 0x14) (lit "0x14") ∧ ¬CarriesDependency reader 3 (lit "0x14") := by
  obtain ⟨reader, hreader⟩ := Option.isSome_iff_exists.mp
    (show (fileReader [insertRow 0x10, insertRow 0x14, getRow 0x14]).isSome by decide +kernel)
  refine ⟨reader, hreader, by with_unfolding_all decide, by with_unfolding_all decide,
    ⟨by with_unfolding_all decide, by with_unfolding_all decide⟩, ?_⟩
  intro hcarries
  have hlast : (fileReader [insertRow 0x10, insertRow 0x14, getRow 0x14]).map (fun reader =>
      reader.contents.getLast?.map fun stmt =>
        (stmt.r, stmt.op, dependency reader.dependencies reader.loads stmt)) =
      some (some (3, .store, .text (lit "0x10"))) := by
    decide +kernel
  simp only [hreader, Option.map_some, Option.some_inj, Option.map_eq_some_iff,
    Prod.mk.injEq] at hlast
  obtain ⟨stmt, hmem, hr, hop, hdep⟩ := hlast
  have hother := (carriesDependency_iff_dependency.mp hcarries).2 stmt
    (List.mem_of_getLast? hmem) ⟨hr, hop⟩
  exact absurd (hdep.symm.trans hother) (by with_unfolding_all decide)

end PMBugRepair
