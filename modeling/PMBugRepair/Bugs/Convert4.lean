import PMBugRepair.Bugs.Lines
import PMBugRepair.Files.RoundTrip

/-!
# MPA candidates

`convert4.py` scans a repaired trace for values that flow from a store of one thread to a store of
another. A pair of scopes is reported when it is met first, and later in neither orientation.
-/

namespace PMBugRepair

open Strings (Text lit strip repr)

namespace Convert4

/-- A statement; the thread stays a text. -/
structure Stmt where
  index : Nat
  op : Option Nat
  add : Text
  dep : Text
  tid : Text
  scope : Text
  deriving DecidableEq, Repr

def parseTraceHelper (elements : List Text) (index : Nat) : Option Stmt := do
  let op ← elements[0]?
  let add ← elements[1]?
  let dep ← elements[2]?
  let tid ← elements[3]?
  let scope ← elements[4]?
  return { index := index, op := opcodeOf op, add := (strip add).filter (· ≠ '\''),
           dep := (strip dep).filter (· ≠ '\''), tid := strip tid,
           scope := strip (scope.filter (· ≠ '\'')) }

def parseTrace (file : Text) : Option (List Stmt) := do
  let (trace, _, _) ← readTrace (fun line counter =>
    parseTraceHelper (((stripLine line).filter (· ≠ '"')).splitOn ',') counter) file
  return trace

/-- The first statement of every scope. -/
def firstOcc (trace : List Stmt) : List (Text × Stmt) :=
  trace.foldl (fun firsts stmt =>
    match firsts.lookup stmt.scope with
    | some _ => firsts
    | none => firsts ++ [(stmt.scope, stmt)]) []

/-- The local variables of `generateBugConstraints` that the result depends on. -/
structure Finder where
  mpas : List (Text × Text) := []
  bugCons : List Text := []
  deriving DecidableEq, Repr

/-- A value that the first store writes and the second one, of another thread, depends on. -/
def Stmt.FlowsTo (stmt next : Stmt) : Prop :=
  next.op = some 101 ∧ stmt.add = next.dep ∧ stmt.tid ≠ next.tid

instance (stmt next : Stmt) : Decidable (stmt.FlowsTo next) := inferInstanceAs (Decidable (_ ∧ _))

/-- The loop over `j` for the store `stmt`. -/
def scanFlows (firsts : List (Text × Stmt)) (stmt : Stmt) (state : Finder) :
    List Stmt → Option Finder
  | [] => some state
  | next :: rest =>
      if stmt.FlowsTo next ∧ stmt.scope ≠ next.scope ∧
          (stmt.scope, next.scope) ∉ state.mpas ∧ (next.scope, stmt.scope) ∉ state.mpas then do
        let first ← firsts.lookup stmt.scope
        let second ← firsts.lookup next.scope
        scanFlows firsts stmt
          { mpas := state.mpas ++ [(stmt.scope, next.scope)]
            bugCons :=
              if first.scope ≠ second.scope then
                state.bugCons ++ [mpaLine first.scope second.scope]
              else state.bugCons } rest
      else scanFlows firsts stmt state rest

/-- The loop over `i`. -/
def scan (firsts : List (Text × Stmt)) (state : Finder) : List Stmt → Option Finder
  | [] => some state
  | stmt :: rest =>
      if stmt.op = some 101 then do
        let state ← scanFlows firsts stmt state rest
        scan firsts state rest
      else scan firsts state rest

/-- The lines for a trace that was parsed; `none` is a `KeyError`. -/
def generateBugConstraints (trace : List Stmt) : Option (List Text) :=
  (scan (firstOcc trace) {} trace).map (·.bugCons)

/-! ### First occurrences -/

theorem firstOcc_concat (trace : List Stmt) (stmt : Stmt) :
    firstOcc (trace ++ [stmt]) =
      match (firstOcc trace).lookup stmt.scope with
      | some _ => firstOcc trace
      | none => firstOcc trace ++ [(stmt.scope, stmt)] := by
  simp [firstOcc]

theorem scope_of_firstOcc {trace : List Stmt} {scope : Text} {first : Stmt}
    (h : (firstOcc trace).lookup scope = some first) : first.scope = scope := by
  induction trace using List.reverseRecOn with
  | nil => cases h
  | append_singleton trace last ih =>
      rw [firstOcc_concat] at h
      cases hlast : (firstOcc trace).lookup last.scope with
      | some _ => exact ih (by simpa [hlast] using h)
      | none =>
          simp only [hlast, List.lookup_append, Option.or_eq_some_iff] at h
          rcases h with h | ⟨-, h⟩
          · exact ih h
          · by_cases heq : scope = last.scope
            · subst heq
              obtain rfl : last = first := by simpa using h
              rfl
            · simp [List.lookup_cons, beq_eq_false_iff_ne.mpr heq] at h

/-- Every scope has a first statement, which has this scope. -/
theorem exists_firstOcc {trace : List Stmt} {stmt : Stmt} (hmem : stmt ∈ trace) :
    ∃ first, (firstOcc trace).lookup stmt.scope = some first ∧ first.scope = stmt.scope := by
  induction trace using List.reverseRecOn with
  | nil => cases hmem
  | append_singleton trace last ih =>
      rw [firstOcc_concat]
      by_cases hold : stmt ∈ trace
      · obtain ⟨first, hfirst, hscope⟩ := ih hold
        cases (firstOcc trace).lookup last.scope with
        | some _ => exact ⟨first, hfirst, hscope⟩
        | none => exact ⟨first, by simp [List.lookup_append, hfirst], hscope⟩
      · obtain rfl : stmt = last := by simpa [hold] using hmem
        cases hlast : (firstOcc trace).lookup stmt.scope with
        | some first => exact ⟨first, hlast, scope_of_firstOcc hlast⟩
        | none => exact ⟨stmt, by simp [List.lookup_append, hlast], rfl⟩

/-! ### Flows -/

/-- A store of the first scope whose value flows to a later store of the second one. -/
def Flow (trace : List Stmt) (s t : Text) : Prop :=
  ∃ stmt next, [stmt, next].Sublist trace ∧ stmt.op = some 101 ∧ stmt.FlowsTo next ∧
    stmt.scope = s ∧ next.scope = t

theorem flow_cons {stmt : Stmt} {rest : List Stmt} {s t : Text} :
    Flow (stmt :: rest) s t ↔
      (stmt.op = some 101 ∧ stmt.scope = s ∧ ∃ next ∈ rest, stmt.FlowsTo next ∧ next.scope = t) ∨
        Flow rest s t := by
  constructor
  · rintro ⟨first, next, hsub, hop, hflow, rfl, rfl⟩
    rcases List.cons_sublist_cons'.mp hsub with hlater | ⟨rfl, hnext⟩
    · exact .inr ⟨first, next, hlater, hop, hflow, rfl, rfl⟩
    · exact .inl ⟨hop, rfl, next, List.singleton_sublist.mp hnext, hflow, rfl⟩
  · rintro (⟨hop, rfl, next, hmem, hflow, rfl⟩ | ⟨first, next, hsub, hop, hflow, rfl, rfl⟩)
    · exact ⟨stmt, next, List.cons_sublist_cons'.mpr
        (.inr ⟨rfl, List.singleton_sublist.mpr hmem⟩), hop, hflow, rfl, rfl⟩
    · exact ⟨first, next, hsub.cons stmt, hop, hflow, rfl, rfl⟩

/-- What holds of the pairs that were reported. -/
structure Reported (trace : List Stmt) (state : Finder) : Prop where
  lines : state.bugCons = state.mpas.map fun pair => mpaLine pair.1 pair.2
  apart : state.mpas.Pairwise Apart
  flow : ∀ pair ∈ state.mpas, pair.1 ≠ pair.2 ∧ Flow trace pair.1 pair.2

section Scan

variable {trace rest : List Stmt} {stmt : Stmt} {state : Finder}

/-- A pair that is reported, in one of its orientations. -/
def Finder.Has (state : Finder) (s t : Text) : Prop := (s, t) ∈ state.mpas ∨ (t, s) ∈ state.mpas

theorem Reported.concat (h : Reported trace state) {s t : Text} (hne : s ≠ t)
    (hflow : Flow trace s t) (hnew : (s, t) ∉ state.mpas ∧ (t, s) ∉ state.mpas) :
    Reported trace
      { mpas := state.mpas ++ [(s, t)], bugCons := state.bugCons ++ [mpaLine s t] } := by
  refine ⟨by simp [h.lines], ?_, fun pair hpair => ?_⟩
  · rw [List.pairwise_append]
    refine ⟨h.apart, List.pairwise_singleton _ _, fun p hp q hq => ?_⟩
    rw [List.mem_singleton.mp hq]
    constructor
    · rintro rfl
      exact hnew.1 hp
    · rintro rfl
      exact hnew.2 hp
  · rcases List.mem_append.mp hpair with hpair | hpair
    · exact h.flow pair hpair
    · rw [List.mem_singleton.mp hpair]
      exact ⟨hne, hflow⟩

theorem Reported.scanFlows (h : Reported trace state) (hop : stmt.op = some 101)
    (hsub : (stmt :: rest).Sublist trace) :
    ∃ state', scanFlows (firstOcc trace) stmt state rest = some state' ∧ Reported trace state' ∧
      (∀ s t, state.Has s t → state'.Has s t) ∧
        ∀ next ∈ rest, stmt.FlowsTo next → stmt.scope ≠ next.scope →
          state'.Has stmt.scope next.scope := by
  induction rest generalizing state with
  | nil => exact ⟨state, rfl, h, fun _ _ hs => hs, by simp⟩
  | cons next rest ih =>
      have hlater : (stmt :: rest).Sublist trace :=
        (List.Sublist.cons_cons stmt (List.sublist_cons_self next rest)).trans hsub
      rw [Convert4.scanFlows]
      split
      · rename_i hcondition
        obtain ⟨hflow, hne, hnew⟩ := hcondition
        obtain ⟨first, hfirst, hscope⟩ := exists_firstOcc (hsub.subset List.mem_cons_self)
        obtain ⟨second, hsecond, hscope'⟩ :=
          exists_firstOcc (hsub.subset (List.mem_cons_of_mem stmt List.mem_cons_self))
        have hpair : Flow trace stmt.scope next.scope :=
          ⟨stmt, next, (by simp : [stmt, next].Sublist (stmt :: next :: rest)).trans hsub, hop,
            hflow, rfl, rfl⟩
        obtain ⟨state', hstate', hreported, hgrows, hall⟩ := ih (h.concat hne hpair hnew) hlater
        refine ⟨state', ?_, hreported, fun s t hs => hgrows s t ?_, ?_⟩
        · simp only [hfirst, hsecond, hscope, hscope', ne_eq, hne, not_false_eq_true, if_true,
            Option.bind_eq_bind, Option.bind_some]
          exact hstate'
        · exact hs.imp (List.mem_append_left _) (List.mem_append_left _)
        · refine List.forall_mem_cons.mpr ⟨fun _ _ => ?_, hall⟩
          exact hgrows _ _ (.inl (by simp))
      · rename_i hcondition
        obtain ⟨state', hstate', hreported, hgrows, hall⟩ := ih h hlater
        refine ⟨state', hstate', hreported, hgrows,
          List.forall_mem_cons.mpr ⟨fun hflow hne => ?_, hall⟩⟩
        -- a flow that is not reported now was reported before
        apply hgrows
        by_contra hnot
        exact hcondition ⟨hflow, hne, fun hmem => hnot (.inl hmem), fun hmem => hnot (.inr hmem)⟩

theorem Reported.scan (h : Reported trace state) (hsub : rest.Sublist trace) :
    ∃ state', scan (firstOcc trace) state rest = some state' ∧ Reported trace state' ∧
      (∀ s t, state.Has s t → state'.Has s t) ∧
        ∀ s t, s ≠ t → Flow rest s t → state'.Has s t := by
  induction rest generalizing state with
  | nil =>
      refine ⟨state, rfl, h, fun _ _ hs => hs, ?_⟩
      rintro s t - ⟨stmt, next, hnil, -⟩
      cases hnil
  | cons stmt rest ih =>
      have hlater : rest.Sublist trace := (List.sublist_cons_self stmt rest).trans hsub
      rw [Convert4.scan]
      split
      · rename_i hop
        obtain ⟨middle, hmiddle, hreported, hgrows, hall⟩ := h.scanFlows hop hsub
        obtain ⟨state', hstate', hreported', hgrows', hall'⟩ := ih hreported hlater
        refine ⟨state', ?_, hreported', fun s t hs => hgrows' s t (hgrows s t hs), ?_⟩
        · rw [hmiddle, Option.bind_eq_bind, Option.bind_some, hstate']
        · intro s t hne hflow
          rcases flow_cons.mp hflow with ⟨-, rfl, next, hnext, hnow, rfl⟩ | hrest
          · exact hgrows' _ _ (hall next hnext hnow hne)
          · exact hall' s t hne hrest
      · rename_i hop
        obtain ⟨state', hstate', hreported, hgrows, hall⟩ := ih h hlater
        refine ⟨state', hstate', hreported, hgrows, fun s t hne hflow => ?_⟩
        rcases flow_cons.mp hflow with ⟨hstore, -⟩ | hrest
        · exact absurd hstore hop
        · exact hall s t hne hrest

end Scan

/-- The lines are those of the flows between different scopes: every pair of scopes between which a
value flows, in whichever direction, has one line, and a line names the scope of the store that
writes the value first. -/
theorem generateBugConstraints_flows (trace : List Stmt) :
    ∃ pairs : List (Text × Text),
      generateBugConstraints trace = some (pairs.map fun pair => mpaLine pair.1 pair.2) ∧
      pairs.Pairwise Apart ∧
      (∀ pair ∈ pairs, pair.1 ≠ pair.2 ∧ Flow trace pair.1 pair.2) ∧
      ∀ s t, s ≠ t → (Flow trace s t ∨ Flow trace t s) → (s, t) ∈ pairs ∨ (t, s) ∈ pairs := by
  have hstart : Reported trace {} := ⟨rfl, List.Pairwise.nil, by simp⟩
  obtain ⟨state, hstate, hreported, -, hall⟩ := hstart.scan (List.Sublist.refl trace)
  refine ⟨state.mpas, ?_, hreported.apart, hreported.flow, fun s t hne hflow => ?_⟩
  · rw [generateBugConstraints, hstate, Option.map_some, hreported.lines]
  · rcases hflow with hflow | hflow
    · exact hall s t hne hflow
    · exact (hall t s hne.symm hflow).symm

/-! ### The file of the formatter -/

/-- The statement that is read from its line. -/
def ofFormatted (formatted : Formatted) (index : Nat) : Stmt :=
  { index := index, op := some formatted.op.code, add := formatted.add.unquoted,
    dep := formatted.dep.unquoted, tid := digits formatted.tid, scope := formatted.scope }

/-- A value that one store writes and a store of another thread depends on. -/
def Carries (stmt next : Formatted) : Prop :=
  stmt.op = .store ∧ next.op = .store ∧ stmt.add.unquoted = next.dep.unquoted ∧
    stmt.tid ≠ next.tid

section File

variable {printable : Char → Bool} {threads : List (Text × Nat)} {formatted : List Formatted}

theorem field_repr {v : Value} (hclean : v.Clean) (hliteral : v.Literal printable) :
    (strip (' ' :: (v.repr printable).filter (· ≠ '"'))).filter (· ≠ '\'') = v.unquoted := by
  have hdouble : '"' ∉ v.repr printable := hclean.not_mem_repr (by simp)
  have hself : (v.repr printable).filter (· ≠ '"') = v.repr printable :=
    List.filter_eq_self.mpr fun c hc => by simpa using ne_of_mem_of_not_mem hc hdouble
  rw [hself, strip_cons_blank, hclean.strip_repr, hclean.repr_eq_quoted_iff.mpr hliteral]
  cases v with
  | num n => exact filter_decimal (by simp)
  | text s => simp [Value.quoted, Value.unquoted, unquoted]

theorem parseTraceHelper_str {stmt : Formatted} (hclean : stmt.Clean)
    (hliteral : stmt.Literal printable) (index : Nat) :
    parseTraceHelper
        (((stripLine (stmt.str printable ++ ['\n'])).filter (· ≠ '"')).splitOn ',') index =
      some (ofFormatted stmt index) := by
  obtain ⟨hscope, -, hquote, -⟩ := hliteral.readable_scope hclean.2.2
  have hname : (repr printable stmt.op.name).filter (· ≠ '"') =
      '\'' :: (stmt.op.name ++ ['\'']) := by
    rw [RowOp.repr_name]
    cases stmt.op <;> with_unfolding_all decide
  have htid : (digits stmt.tid).filter (· ≠ '"') = digits stmt.tid :=
    @filter_decimal (stmt.tid : Int) '"' (by simp)
  rw [Formatted.str, Fields.unquoted_elements hclean.fields]
  simp only [parseTraceHelper, List.map_cons, List.map_nil, List.getElem?_cons_zero,
    List.getElem?_cons_succ, Option.bind_eq_bind, Option.bind_some, Option.pure_def,
    Option.some.injEq]
  rw [hname, RowOp.opcodeOf_name, List.filter_cons_of_pos (by decide),
    List.filter_cons_of_pos (by decide), List.filter_cons_of_pos (by decide),
    List.filter_cons_of_pos (by decide), field_repr hclean.1 hliteral.1,
    field_repr hclean.2.1 hliteral.2.1, htid, strip_cons_blank, digits, Strings.strip_toDigits,
    hscope.scope hquote]
  rfl

/-- The statements of a file of the formatter, numbered by their lines. -/
theorem parseTrace_formatterFile (hclean : ∀ stmt ∈ formatted, stmt.Clean)
    (hliteral : ∀ stmt ∈ formatted, stmt.Literal printable)
    (hkeys : ∀ thread ∈ threads, ∃ n, thread.1 = digits n) (hne : threads ≠ []) :
    parseTrace (formatterFile printable threads formatted) =
      some ((formatted.zipIdx 2).map fun entry => ofFormatted entry.1 entry.2) := by
  have hread : readTrace (fun line counter =>
      parseTraceHelper (((stripLine line).filter (· ≠ '"')).splitOn ',') counter)
        (formatterFile printable threads formatted) = _ :=
    readTrace_file hkeys hne (fun stmt hstmt _ hc => (hclean stmt hstmt).not_mem_str hc)
      fun stmt hstmt => parseTraceHelper_str (hclean stmt hstmt) (hliteral stmt hstmt)
  rw [parseTrace, hread]
  rfl

theorem flow_ofFormatted {s t : Text} :
    Flow ((formatted.zipIdx 2).map fun entry => ofFormatted entry.1 entry.2) s t ↔
      ∃ stmt next, [stmt, next].Sublist formatted ∧ Carries stmt next ∧ stmt.scope = s ∧
        next.scope = t := by
  have hstore : ∀ (stmt : Formatted) (k : Nat),
      (ofFormatted stmt k).op = some 101 ↔ stmt.op = .store := by
    intro stmt k
    cases hop : stmt.op <;> simp [ofFormatted, hop, RowOp.code]
  have htid : ∀ a b : Nat, digits a = digits b ↔ a = b := fun a b => digits_injective.eq_iff
  constructor
  · rintro ⟨first, second, hsub, hop, ⟨hop', hadd, hne⟩, rfl, rfl⟩
    obtain ⟨a, b, hpair, rfl, rfl⟩ := Lists.pair_sublist_map_iff.mp hsub
    have horder := hpair.map Prod.fst
    rw [List.zipIdx_map_fst] at horder
    exact ⟨a.1, b.1, horder, ⟨(hstore _ _).mp hop, (hstore _ _).mp hop', hadd,
      fun heq => hne ((htid _ _).mpr heq)⟩, rfl, rfl⟩
  · rintro ⟨stmt, next, hsub, ⟨hop, hop', hadd, hne⟩, rfl, rfl⟩
    rw [← List.zipIdx_map_fst 2 formatted] at hsub
    obtain ⟨a, b, hpair, rfl, rfl⟩ := Lists.pair_sublist_map_iff.mp hsub
    exact ⟨ofFormatted a.1 a.2, ofFormatted b.1 b.2,
      Lists.pair_sublist_map_iff.mpr ⟨a, b, hpair, rfl, rfl⟩, (hstore _ _).mpr hop,
      ⟨(hstore _ _).mpr hop', hadd, fun heq => hne ((htid _ _).mp heq)⟩, rfl, rfl⟩

/-- **From the formatter to the candidates.** The lines for a file of the formatter are those of
the scopes between which its stores carry values. -/
theorem candidates_formatterFile (hclean : ∀ stmt ∈ formatted, stmt.Clean)
    (hliteral : ∀ stmt ∈ formatted, stmt.Literal printable)
    (hkeys : ∀ thread ∈ threads, ∃ n, thread.1 = digits n) (hne : threads ≠ []) :
    ∃ rows, ∃ pairs : List (Text × Text),
      parseTrace (formatterFile printable threads formatted) = some rows ∧
      generateBugConstraints rows = some (pairs.map fun pair => mpaLine pair.1 pair.2) ∧
      ∀ s t, ((s, t) ∈ pairs ∨ (t, s) ∈ pairs) ↔ s ≠ t ∧ ∃ stmt next,
        ([stmt, next].Sublist formatted) ∧ Carries stmt next ∧
          ((stmt.scope = s ∧ next.scope = t) ∨ (stmt.scope = t ∧ next.scope = s)) := by
  set rows := (formatted.zipIdx 2).map fun entry => ofFormatted entry.1 entry.2
  have hstart : Reported rows {} := ⟨rfl, List.Pairwise.nil, by simp⟩
  obtain ⟨state, hstate, hreported, -, hall⟩ := hstart.scan (List.Sublist.refl rows)
  refine ⟨rows, state.mpas, parseTrace_formatterFile hclean hliteral hkeys hne, ?_, fun s t => ?_⟩
  · rw [generateBugConstraints, hstate, Option.map_some, hreported.lines]
  · have hflows : (Flow rows s t ∨ Flow rows t s) ↔ ∃ stmt next,
        ([stmt, next].Sublist formatted) ∧ Carries stmt next ∧
          ((stmt.scope = s ∧ next.scope = t) ∨ (stmt.scope = t ∧ next.scope = s)) := by
      simp only [rows, flow_ofFormatted, and_or_left, exists_or]
    rw [← hflows]
    constructor
    · rintro (hmem | hmem)
      · obtain ⟨hdiff, hflow⟩ := hreported.flow _ hmem
        exact ⟨hdiff, .inl hflow⟩
      · obtain ⟨hdiff, hflow⟩ := hreported.flow _ hmem
        exact ⟨hdiff.symm, .inr hflow⟩
    · rintro ⟨hdiff, hflow | hflow⟩
      · exact hall s t hdiff hflow
      · exact (hall t s hdiff.symm hflow).symm

end File

end Convert4

end PMBugRepair
