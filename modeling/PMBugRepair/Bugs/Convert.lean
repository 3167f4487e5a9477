import PMBugRepair.Bugs.Scopes
import PMBugRepair.Files.Trace

/-!
# DURA and MPB candidates

`convert.py` scans a trace for stores that may not become durable and for pairs of stores whose
order matters. The statements of all threads toggle one variable `transact`, where `none` is `-1`.
The result is `none` if the line of a scope is no number.
-/

namespace PMBugRepair

open Strings (Text lit)

namespace Convert

/-- The local variables of `generateBugConstraints`. -/
structure Detector where
  bugs : List Text := []
  mpbs : List Text := []
  duras : List Text := []
  addedBugs : List (Text × Text) := []
  transact : Option Nat := none
  deriving DecidableEq, Repr

/-- What a statement makes of `transact`. -/
def toggle (transact : Option Nat) (i : Nat) (row : Row) : Option Nat :=
  if row.op = some 201 then some i else if row.op = some 202 then none else transact

/-- `int(str(scope).split("_")[-1])`. -/
def lineOf (scope : Text) : Option Int := Strings.int ((scope.splitOn '_').getLastD [])

/-- The loop over `j` for the store `row`. -/
def scanPairs (state : Detector) (row : Row) (inside : Option Nat) (j : Nat) :
    List Row → Option Detector
  | [] => some state
  | next :: rest =>
      let inside := toggle inside j next
      if next.op = some 101 ∧ next.dep = .text row.add ∧ row.tid = next.tid ∧
          row.scope ∉ state.mpbs ∧
            (state.transact = inside ∨ (state.transact = none ∧ inside ≠ none)) then do
        let line₁ ← lineOf row.scope
        let line₂ ← lineOf next.scope
        if (functionOf row.scope ≠ functionOf next.scope ∨ line₁ < line₂) ∧
            (row.scope, next.scope) ∉ state.addedBugs ∧ (next.scope, row.scope) ∉ state.addedBugs
        then
          return { state with
            addedBugs := state.addedBugs ++ [(row.scope, next.scope)]
            bugs := state.bugs ++ [mpbLine row.scope next.scope]
            mpbs := state.mpbs ++ [row.scope] }
        else scanPairs state row inside (j + 1) rest
      else scanPairs state row inside (j + 1) rest

/-- The DURA candidate of a store. -/
def addDura (state : Detector) (row : Row) : Detector :=
  if row.scope ∉ state.duras ∧ state.transact = none then
    { state with
      bugs := state.bugs ++ [duraLine row.scope]
      duras := state.duras ++ [row.scope] }
  else state

/-- The loop over `i`. -/
def scan (state : Detector) (i : Nat) : List Row → Option Detector
  | [] => some state
  | row :: rest =>
      let state := { state with transact := toggle state.transact i row }
      if row.op = some 101 then do
        let state ← scanPairs (addDura state row) row state.transact (i + 1) rest
        scan state (i + 1) rest
      else scan state (i + 1) rest

/-- The lines for a trace that was parsed. -/
def generateBugConstraints (trace : List Row) : Option (List Text) :=
  (scan {} 0 trace).map (·.bugs)

/-! ### What the loops add -/

/-- A row whose scope ends with a line. -/
def Placed (row : Row) : Prop := ∃ site : Site, row.scope = site.scope

theorem lineOf_scope (site : Site) : lineOf site.scope = some (site.line : Int) := by
  have hlast := @Strings.getLast?_splitOn '_' (digits site.line) site.function
    (underscore_notMem_digits site.line)
  rw [lineOf, Site.scope, List.getLastD_eq_getLast?, hlast]
  exact Strings.int_toDigits site.line

section Loops

variable {state state' : Detector} {row : Row} {rest : List Row} {inside : Option Nat} {i j : Nat}

/-- The inner loop appends at most one MPB line, for a later store. -/
theorem scanPairs_cases (hrow : Placed row) (hrest : ∀ next ∈ rest, Placed next) :
    scanPairs state row inside j rest = some state ∨
      ∃ next ∈ rest, next.op = some 101 ∧ scanPairs state row inside j rest = some { state with
        addedBugs := state.addedBugs ++ [(row.scope, next.scope)]
        bugs := state.bugs ++ [mpbLine row.scope next.scope]
        mpbs := state.mpbs ++ [row.scope] } := by
  induction rest generalizing inside j with
  | nil => exact .inl rfl
  | cons next rest ih =>
      obtain ⟨hnext, hrest⟩ := List.forall_mem_cons.mp hrest
      have hlater : scanPairs state row (toggle inside j next) (j + 1) rest = some state ∨
          ∃ other ∈ next :: rest, other.op = some 101 ∧
            scanPairs state row (toggle inside j next) (j + 1) rest = some { state with
              addedBugs := state.addedBugs ++ [(row.scope, other.scope)]
              bugs := state.bugs ++ [mpbLine row.scope other.scope]
              mpbs := state.mpbs ++ [row.scope] } := by
        rcases @ih (toggle inside j next) (j + 1) hrest with h | ⟨other, hother, h⟩
        · exact .inl h
        · exact .inr ⟨other, List.mem_cons_of_mem _ hother, h⟩
      obtain ⟨site, hsite⟩ := hrow
      obtain ⟨site', hsite'⟩ := hnext
      rw [scanPairs]
      split
      · rename_i hcondition
        simp only [hsite, hsite', lineOf_scope, Option.bind_eq_bind, Option.bind_some]
        split
        · exact .inr ⟨next, List.mem_cons_self, hcondition.1, by rw [hsite']; rfl⟩
        · rw [← hsite]
          exact hlater
      · exact hlater

end Loops

/-! ### Lines -/

theorem duraLine_injective : Function.Injective duraLine := by
  intro s t heq
  exact List.append_cancel_left (List.append_cancel_right heq)

theorem duraLine_ne_mpbLine (s t u : Text) : duraLine s ≠ mpbLine t u := by
  have hhead : lit "DURA:[ pt_" = 'D' :: lit "URA:[ pt_" := by with_unfolding_all decide
  have hhead' : lit "MPB: [pt_" = 'M' :: lit "PB: [pt_" := by with_unfolding_all decide
  rw [duraLine, mpbLine, hhead, hhead']
  simp

/-! ### Open transactions -/

/-- `transact` is not `-1` behind a prefix of the trace. -/
def OpenAny (before : List Row) : Prop :=
  ∃ left opening right, before = left ++ opening :: right ∧ opening.op = some 201 ∧
    ∀ x ∈ right, x.op ≠ some 202

/-- The thread has a begin without a later commit of its own. -/
def OpenBy (tid : Int) (before : List Row) : Prop :=
  ∃ left opening right, before = left ++ opening :: right ∧ opening.op = some 201 ∧
    opening.tid = tid ∧ ∀ x ∈ right, x.tid = tid → x.op ≠ some 202

/-- `transact` behind a part of the trace that begins at position `i`. -/
def toggles (transact : Option Nat) (i : Nat) : List Row → Option Nat
  | [] => transact
  | row :: rest => toggles (toggle transact i row) (i + 1) rest

theorem toggles_concat (transact : Option Nat) (i : Nat) (before : List Row) (row : Row) :
    toggles transact i (before ++ [row]) =
      toggle (toggles transact i before) (i + before.length) row := by
  induction before generalizing transact i with
  | nil => rfl
  | cons first before ih =>
      rw [List.cons_append, toggles, ih, toggles, List.length_cons, Nat.add_assoc,
        Nat.add_comm 1]

theorem openAny_concat {before : List Row} {row : Row} :
    OpenAny (before ++ [row]) ↔ row.op = some 201 ∨ (OpenAny before ∧ row.op ≠ some 202) := by
  constructor
  · rintro ⟨left, opening, right, heq, hop, hright⟩
    rcases Lists.concat_eq_append_cons.mp heq with ⟨-, -, rfl⟩ | ⟨right', rfl, rfl⟩
    · exact .inl hop
    · refine .inr ⟨⟨left, opening, right', rfl, hop, fun x hx => ?_⟩, ?_⟩
      · exact hright x (List.mem_append_left _ hx)
      · exact hright row (by simp)
  · rintro (hop | ⟨⟨left, opening, right, rfl, hop, hright⟩, hrow⟩)
    · exact ⟨before, row, [], rfl, hop, by simp⟩
    · refine ⟨left, opening, right ++ [row], by simp, hop, fun x hx => ?_⟩
      rcases List.mem_append.mp hx with hx | hx
      · exact hright x hx
      · rw [List.mem_singleton.mp hx]
        exact hrow

/-- `transact` is `-1` as long as the last bracket, of whatever thread, is no begin. -/
theorem toggles_eq_none_iff (before : List Row) :
    toggles none 0 before = none ↔ ¬OpenAny before := by
  induction before using List.reverseRecOn with
  | nil =>
      refine ⟨fun _ => ?_, fun _ => rfl⟩
      rintro ⟨left, opening, right, heq, -⟩
      simp at heq
  | append_singleton before row ih =>
      rw [toggles_concat, openAny_concat, toggle]
      split_ifs with hbegin hcommit
      · simp [hbegin]
      · simp [hcommit]
      · rw [ih]
        tauto

/-! ### The scan -/

/-- A store of the scope where `transact` is `-1`. -/
def Exposed (s : Text) (before : List Row) : Prop :=
  ∃ left row right, before = left ++ row :: right ∧ row.op = some 101 ∧ row.scope = s ∧
    ¬OpenAny left

theorem exposed_concat {s : Text} {before : List Row} {row : Row} :
    Exposed s (before ++ [row]) ↔
      Exposed s before ∨ (row.op = some 101 ∧ row.scope = s ∧ ¬OpenAny before) := by
  constructor
  · rintro ⟨left, store, right, heq, hop, hscope, hopen⟩
    rcases Lists.concat_eq_append_cons.mp heq with ⟨-, rfl, rfl⟩ | ⟨right', rfl, rfl⟩
    · exact .inr ⟨hop, hscope, hopen⟩
    · exact .inl ⟨left, store, right', rfl, hop, hscope, hopen⟩
  · rintro (⟨left, store, right, rfl, hop, hscope, hopen⟩ | ⟨hop, hscope, hopen⟩)
    · exact ⟨left, store, right ++ [row], by simp, hop, hscope, hopen⟩
    · exact ⟨before, row, [], rfl, hop, hscope, hopen⟩

/-- A line for stores of the trace. -/
def LineOf (trace : List Row) (bug : Text) : Prop :=
  (∃ row ∈ trace, row.op = some 101 ∧ bug = duraLine row.scope) ∨
    ∃ row ∈ trace, ∃ next ∈ trace, row.op = some 101 ∧ next.op = some 101 ∧
      bug = mpbLine row.scope next.scope

/-- What holds when the scan has gone through a prefix of the trace. -/
structure Scanned (trace before : List Row) (state : Detector) : Prop where
  transact : state.transact = toggles none 0 before
  dura : ∀ s, duraLine s ∈ state.bugs ↔ Exposed s before
  duras : ∀ s, s ∈ state.duras ↔ duraLine s ∈ state.bugs
  once : ∀ s, state.bugs.count (duraLine s) ≤ 1
  lines : ∀ bug ∈ state.bugs, LineOf trace bug

section Scan

variable {trace before rest : List Row} {row : Row} {state : Detector}

theorem Scanned.addDura (h : Scanned trace before state) (hrow : row ∈ trace)
    (hop : row.op = some 101) : Scanned trace (before ++ [row]) (addDura state row) := by
  have htoggle : toggles none 0 (before ++ [row]) = toggles none 0 before := by
    rw [toggles_concat, toggle, if_neg (by simp [hop]), if_neg (by simp [hop])]
  have hclosed : state.transact = none ↔ ¬OpenAny before := by
    rw [h.transact, toggles_eq_none_iff]
  unfold Convert.addDura
  split
  · rename_i hnew
    have hfresh : duraLine row.scope ∉ state.bugs := fun hmem => hnew.1 ((h.duras _).mpr hmem)
    have hbugs : ∀ s, duraLine s ∈ state.bugs ++ [duraLine row.scope] ↔
        duraLine s ∈ state.bugs ∨ row.scope = s := by
      intro s
      rw [List.mem_append, List.mem_singleton, duraLine_injective.eq_iff, eq_comm (a := s)]
    refine ⟨h.transact.trans htoggle.symm, fun s => ?_, fun s => ?_, fun s => ?_,
      fun bug hbug => ?_⟩
    · rw [hbugs, exposed_concat, h.dura]
      simp only [hop, true_and, hclosed.mp hnew.2, not_false_eq_true, and_true]
    · rw [hbugs, ← h.duras, List.mem_append, List.mem_singleton, eq_comm (a := s)]
    · rw [List.count_append]
      by_cases hs : row.scope = s
      · subst hs
        simp [List.count_eq_zero_of_not_mem hfresh]
      · have hne : duraLine row.scope ≠ duraLine s := fun heq => hs (duraLine_injective heq)
        simpa [List.count_singleton, hne] using h.once s
    · rcases List.mem_append.mp hbug with hbug | hbug
      · exact h.lines bug hbug
      · exact .inl ⟨row, hrow, hop, List.mem_singleton.mp hbug⟩
  · rename_i hold
    refine ⟨h.transact.trans htoggle.symm, fun s => ?_, h.duras, h.once, h.lines⟩
    rw [exposed_concat, h.dura]
    refine ⟨.inl, fun hs => hs.elim id ?_⟩
    -- a store that adds no line has one already
    rintro ⟨-, rfl, hopen⟩
    by_contra hnot
    exact hold ⟨fun hmem => hnot ((h.dura _).mp ((h.duras _).mp hmem)), hclosed.mpr hopen⟩

theorem Scanned.addMpb (h : Scanned trace before state) {next : Row} (hrow : row ∈ trace)
    (hop : row.op = some 101) (hnext : next ∈ trace) (hop' : next.op = some 101) :
    Scanned trace before { state with
      addedBugs := state.addedBugs ++ [(row.scope, next.scope)]
      bugs := state.bugs ++ [mpbLine row.scope next.scope]
      mpbs := state.mpbs ++ [row.scope] } := by
  have hbugs : ∀ s, duraLine s ∈ state.bugs ++ [mpbLine row.scope next.scope] ↔
      duraLine s ∈ state.bugs := by
    intro s
    rw [List.mem_append, List.mem_singleton]
    exact or_iff_left (duraLine_ne_mpbLine _ _ _)
  refine ⟨h.transact, fun s => ?_, fun s => ?_, fun s => ?_, fun bug hbug => ?_⟩
  · rw [hbugs, h.dura]
  · rw [hbugs, h.duras]
  · have hne : mpbLine row.scope next.scope ≠ duraLine s := (duraLine_ne_mpbLine _ _ _).symm
    rw [List.count_append]
    simpa [List.count_singleton, hne] using h.once s
  · rcases List.mem_append.mp hbug with hbug | hbug
    · exact h.lines bug hbug
    · exact .inr ⟨row, hrow, next, hnext, hop, hop', List.mem_singleton.mp hbug⟩

theorem Scanned.scan (h : Scanned trace before state) (hsplit : trace = before ++ rest)
    (hplaced : ∀ row ∈ trace, Placed row) :
    ∃ state', scan state before.length rest = some state' ∧ Scanned trace trace state' := by
  induction rest generalizing before state with
  | nil =>
      rw [List.append_nil] at hsplit
      exact ⟨state, rfl, hsplit ▸ h⟩
  | cons row rest ih =>
      have hrow : row ∈ trace := by simp [hsplit]
      have hsplit' : trace = (before ++ [row]) ++ rest := by simp [hsplit]
      have hlength : before.length + 1 = (before ++ [row]).length := by simp
      rw [Convert.scan]
      split
      · rename_i hop
        have hsame :
            { state with transact := toggle state.transact before.length row } = state := by
          rw [toggle, if_neg (by simp [hop]), if_neg (by simp [hop])]
        rw [hsame]
        have hdura := h.addDura hrow hop
        rcases @scanPairs_cases (Convert.addDura state row) row rest state.transact
          (before.length + 1) (hplaced row hrow)
          (fun next hnext => hplaced next (by simp [hsplit, hnext])) with
          hnone | ⟨next, hnext, hop', hsome⟩
        · rw [hnone, Option.bind_eq_bind, Option.bind_some, hlength]
          exact ih hdura hsplit'
        · rw [hsome, Option.bind_eq_bind, Option.bind_some, hlength]
          exact ih (hdura.addMpb hrow hop (by simp [hsplit, hnext]) hop') hsplit'
      · rename_i hop
        rw [hlength]
        apply ih _ hsplit'
        refine ⟨?_, fun s => ?_, h.duras, h.once, h.lines⟩
        · rw [toggles_concat, h.transact, Nat.zero_add]
        · rw [exposed_concat, h.dura]
          simp [hop]

theorem generateBugConstraints_spec (hplaced : ∀ row ∈ trace, Placed row) :
    ∃ bugs, generateBugConstraints trace = some bugs ∧
      (∀ s, duraLine s ∈ bugs ↔ Exposed s trace) ∧ (∀ s, bugs.count (duraLine s) ≤ 1) ∧
        ∀ bug ∈ bugs, LineOf trace bug := by
  have hstart : Scanned trace [] {} := by
    refine ⟨rfl, fun s => ?_, fun s => ?_, fun s => ?_, fun bug hbug => ?_⟩
    · simp [Exposed]
    · simp
    · simp
    · cases hbug
  obtain ⟨state, hstate, hscanned⟩ := hstart.scan (List.nil_append trace).symm hplaced
  refine ⟨state.bugs, ?_, hscanned.dura, hscanned.once, hscanned.lines⟩
  rw [generateBugConstraints, ← List.length_nil, hstate]
  rfl

end Scan

/-- A store of the scope whose own thread has no open transaction. -/
def Unprotected (s : Text) (trace : List Row) : Prop :=
  ∃ left row right, trace = left ++ row :: right ∧ row.op = some 101 ∧ row.scope = s ∧
    ¬OpenBy row.tid left

/-- The DURA lines are those of the stores outside the transactions of their own threads, one for
every scope. -/
def RespectsThreads (trace : List Row) : Prop :=
  ∃ bugs, generateBugConstraints trace = some bugs ∧
    ∀ s, (duraLine s ∈ bugs ↔ Unprotected s trace) ∧ bugs.count (duraLine s) ≤ 1

/-- The threads are respected if every store that another thread's begin hides has a store of the
same scope that no begin hides, and every store that another thread's commit exposes has one of the
same scope outside the transactions of its own thread. -/
theorem respectsThreads_iff {trace : List Row} (hplaced : ∀ row ∈ trace, Placed row) :
    RespectsThreads trace ↔
      ∀ left row right, trace = left ++ row :: right → row.op = some 101 →
        (¬OpenBy row.tid left → OpenAny left → Exposed row.scope trace) ∧
          (OpenBy row.tid left → ¬OpenAny left → Unprotected row.scope trace) := by
  obtain ⟨bugs, hbugs, hdura, honce, -⟩ := generateBugConstraints_spec hplaced
  constructor
  · rintro ⟨bugs', hbugs', h⟩ left row right hsplit hop
    obtain rfl : bugs = bugs' := by simpa [hbugs] using hbugs'
    have hiff : Exposed row.scope trace ↔ Unprotected row.scope trace := by
      rw [← hdura, (h row.scope).1]
    exact ⟨fun hown _ => hiff.mpr ⟨left, row, right, hsplit, hop, rfl, hown⟩,
      fun _ hany => hiff.mp ⟨left, row, right, hsplit, hop, rfl, hany⟩⟩
  · refine fun h => ⟨bugs, hbugs, fun s => ⟨?_, honce s⟩⟩
    rw [hdura]
    constructor
    · rintro ⟨left, row, right, hsplit, hop, rfl, hany⟩
      by_cases hown : OpenBy row.tid left
      · exact (h left row right hsplit hop).2 hown hany
      · exact ⟨left, row, right, hsplit, hop, rfl, hown⟩
    · rintro ⟨left, row, right, hsplit, hop, rfl, hown⟩
      by_cases hany : OpenAny left
      · exact (h left row right hsplit hop).1 hown hany
      · exact ⟨left, row, right, hsplit, hop, rfl, hany⟩

/-- A begin of thread 1. -/
def beginRow : Row :=
  { index := 2, op := some 201, add := lit "0", dep := .text (lit "-1"), tid := 1,
    scope := lit "manual<>_110" }

/-- A store of another thread or of the same one. -/
def storeRow (tid : Int) : Row :=
  { index := 3, op := some 101, add := lit "'0x7f02'", dep := .text (lit "-1"), tid := tid,
    scope := lit "put_12" }

/-- The begin of thread 1 covers its own store and one of thread 2, which stores there again when
the transaction is over. -/
def interleaved : List Row :=
  [beginRow, storeRow 1, { storeRow 2 with index := 4 },
    { beginRow with index := 5, op := some 202 }, { storeRow 2 with index := 6 }]

theorem interleaved_placed : ∀ row ∈ interleaved, Placed row := by
  have hbegin : ∀ row : Row, row.scope = lit "manual<>_110" → Placed row := fun row hscope =>
    ⟨⟨lit "manual<>", 110, by with_unfolding_all decide⟩,
      hscope.trans (by with_unfolding_all decide)⟩
  have hstore : ∀ row : Row, row.scope = lit "put_12" → Placed row := fun row hscope =>
    ⟨⟨lit "put", 12, by with_unfolding_all decide⟩, hscope.trans (by with_unfolding_all decide)⟩
  intro row hrow
  simp only [interleaved, List.mem_cons, List.not_mem_nil, or_false] at hrow
  rcases hrow with rfl | rfl | rfl | rfl | rfl
  · exact hbegin _ rfl
  · exact hstore _ rfl
  · exact hstore _ rfl
  · exact hbegin _ rfl
  · exact hstore _ rfl

theorem respectsThreads_interleaved : RespectsThreads interleaved := by
  refine (respectsThreads_iff interleaved_placed).mpr fun left row right hsplit hop => ?_
  have hclosed : ¬OpenAny (interleaved.take 4) := by
    have hlast : interleaved.take 4 =
        interleaved.take 3 ++ [{ beginRow with index := 5, op := some 202 }] := rfl
    rw [hlast, openAny_concat]
    simp
  have hrow : interleaved[left.length]? = some row := by simp [hsplit]
  have hleft : left = interleaved.take left.length := by simp [hsplit]
  have hlength : left.length < 5 := by
    have hall : interleaved.length = 5 := rfl
    simp only [hsplit, List.length_append, List.length_cons] at hall
    omega
  rw [hleft]
  clear hleft hsplit
  generalize left.length = n at hrow hlength ⊢
  interval_cases n <;> obtain rfl := Option.some.inj hrow
  · exact absurd hop (by decide)
  · -- the store in the transaction of its own thread
    exact ⟨fun hown => absurd ⟨[], beginRow, [], rfl, rfl, rfl, by simp⟩ hown,
      fun _ hany => absurd ⟨[], beginRow, [], rfl, rfl, by simp⟩ hany⟩
  · -- the store that the begin of the other thread hides
    refine ⟨fun _ _ => ⟨interleaved.take 4, _, [], rfl, rfl, rfl, hclosed⟩, fun _ hany => ?_⟩
    refine absurd ⟨[], beginRow, [storeRow 1], rfl, rfl, ?_⟩ hany
    simp [storeRow]
  · exact absurd hop (by decide)
  · -- the store behind the transaction
    refine ⟨fun _ hany => absurd hany hclosed, fun hown _ => ?_⟩
    obtain ⟨left, opening, right, heq, hopening, htid, -⟩ := hown
    have hmem : opening ∈ interleaved.take 4 := by simp [heq]
    simp only [interleaved, List.take, List.mem_cons, List.not_mem_nil, or_false] at hmem
    rcases hmem with rfl | rfl | rfl | rfl
    · exact absurd htid (by decide)
    · exact absurd htid (by decide)
    · exact absurd hopening (by decide)
    · exact absurd hopening (by decide)

/-- The begin of thread 1 hides the store of thread 2. -/
theorem not_respectsThreads_other : ¬RespectsThreads [beginRow, storeRow 2] := by
  rintro ⟨bugs, hbugs, h⟩
  have hnone : generateBugConstraints [beginRow, storeRow 2] = some [] := by
    with_unfolding_all decide
  obtain rfl : bugs = [] := by simpa [hnone] using hbugs.symm
  have hstore : Unprotected (lit "put_12") [beginRow, storeRow 2] := by
    refine ⟨[beginRow], storeRow 2, [], rfl, rfl, rfl, ?_⟩
    rintro ⟨left, opening, right, heq, -, htid, -⟩
    have hmem : opening ∈ [beginRow] := by simp [heq]
    rw [List.mem_singleton.mp hmem] at htid
    exact absurd htid (by decide)
  simpa using (h (lit "put_12")).1.mpr hstore

end Convert

end PMBugRepair
