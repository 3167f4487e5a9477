import PMBugRepair.Bugs.Index
import PMBugRepair.Bugs.Scopes
import PMBugRepair.Files.Trace

/-!
# Reading MPA bugs

`readMPAs` turns every line of a file into a constraint between two stores of different threads. A
pair of scopes is used once, in whichever orientation it comes first. The scopes of a line are what
is left when every `pc_` is taken out, so a name with `pc_` inside is not found.
-/

namespace PMBugRepair

open Strings (Text lit strip replace)

/-- The variables of `readMPAs`. A bug `And(pc_t < pc_j, pt_t > pc_j)` is the pair of `t` and `j`,
and `bugInfos` has the latest entry in front. -/
structure MpaReader where
  bugs : List (Nat × Nat) := []
  totalMPA : Nat := 0
  failedMPA : Nat := 0
  bugInfos : List (Text × (ReadRow × ReadRow)) := []
  writes : List Nat := []
  reads : List Nat := []
  allBugs : List (Text × Text) := []
  deriving DecidableEq, Repr

/-- `str(t[0])+"-"+str(j[0])`. -/
def infoKey (t j : Nat) : Text := digits t ++ '-' :: digits j

namespace MpaReader

/-- The body of the innermost `if`. -/
def add (reader : MpaReader) (t j : ReadRow) : MpaReader :=
  { bugs := reader.bugs ++ [(t.index, j.index)]
    totalMPA := reader.totalMPA + 1
    failedMPA := reader.failedMPA
    bugInfos := (infoKey t.index j.index, (t, j)) :: reader.bugInfos
    writes := if t.index ∈ reader.writes then reader.writes else reader.writes ++ [t.index]
    reads := if j.index ∈ reader.reads then reader.reads else reader.reads ++ [j.index]
    allBugs := reader.allBugs ++ [(t.scope, j.scope)] }

/-- `if found==-1`. -/
def fail (reader : MpaReader) : MpaReader :=
  { reader with totalMPA := reader.totalMPA + 1, failedMPA := reader.failedMPA + 1 }

/-- The test of the innermost `if`. -/
def Fits (reader : MpaReader) (second : Text) (t j : ReadRow) : Prop :=
  j.scope = second ∧ j.op = 101 ∧ j.tid ≠ t.tid ∧
    (t.scope, j.scope) ∉ reader.allBugs ∧ (j.scope, t.scope) ∉ reader.allBugs

instance (reader : MpaReader) (second : Text) (t j : ReadRow) :
    Decidable (reader.Fits second t j) := inferInstanceAs (Decidable (_ ∧ _))

/-- The loop over `t`. The loop over `j` stops at the first statement that fits. -/
def search (trace : List ReadRow) (first second : Text) :
    MpaReader → Bool → List ReadRow → MpaReader × Bool
  | reader, found, [] => (reader, found)
  | reader, found, t :: rest =>
      if t.scope = first ∧ t.op = 101 then
        match trace.find? fun j => reader.Fits second t j with
        | some j => search trace first second (reader.add t j) true rest
        | none => search trace first second reader found rest
      else search trace first second reader found rest

/-- What a line says the scopes are. -/
def decode (line : Text) : Option (Text × Text) := do
  let part ← (line.splitOn '[')[1]?
  let data := (part.filter (· ≠ ']')).splitOn ';'
  let first ← data[0]?
  let second ← data[1]?
  return (strip (replace (lit "pc_") [] first), strip (replace (lit "pc_") [] second))

/-- The body of the loop over the lines. -/
def readLine (trace : List ReadRow) (reader : MpaReader) (line : Text) : Option MpaReader := do
  let (first, second) ← decode line
  let (reader, found) := search trace first second reader false trace
  return if found then reader else reader.fail

end MpaReader

/-- The index is filled and not used. -/
def readMPAs (file : Text) (trace : List ReadRow) : Option MpaReader := do
  let _ ← scopeIndex (trace.map fun t => (t.scope, t.index))
  (bugLines file).foldlM (MpaReader.readLine trace) {}

/-! ### Lines -/

/-- A scope without its marks `pc_`. -/
def unmarked (scope : Text) : Text := replace (lit "pc_") [] scope

theorem unmarked_eq_self_iff {s : Text} : unmarked s = s ↔ ¬lit "pc_" <:+: s :=
  Strings.replace_eq_self_iff (by with_unfolding_all decide)

theorem isSpace_of_mem_unmarked {site : Site} {c : Char} (hc : c ∈ unmarked site.scope) :
    Strings.isSpace c = false :=
  site.isSpace_of_mem_scope (Strings.mem_of_mem_replaceFrom hc)

namespace MpaReader

theorem decode_mpaLine (s t : Site) :
    decode (mpaLine s.scope t.scope) = some (unmarked s.scope, unmarked t.scope) := by
  have hmarks : ∀ site : Site, '[' ∉ site.scope ∧ ';' ∉ site.scope ∧ ']' ∉ site.scope :=
    fun site => ⟨site.not_mem_scope (by simp), site.not_mem_scope (by simp),
      site.not_mem_scope (by simp)⟩
  have hhead : lit "MPA: [pc_" = lit "MPA: " ++ '[' :: lit "pc_" := by with_unfolding_all decide
  have hmiddle : lit "; pc_" = ';' :: ' ' :: lit "pc_" := by with_unfolding_all decide
  have hword : lit "pc_" = 'p' :: lit "c_" := by with_unfolding_all decide
  have hother : '[' ∉ lit "MPA: " ∧ ∀ c ∈ ['[', ';', ']'], c ∉ lit "pc_" := by
    with_unfolding_all decide
  have hpart : ((mpaLine s.scope t.scope).splitOn '[')[1]? =
      some (lit "pc_" ++ s.scope ++ ';' :: ' ' :: (lit "pc_" ++ t.scope ++ [']'])) := by
    have hshape : mpaLine s.scope t.scope = lit "MPA: " ++ '[' ::
        (lit "pc_" ++ s.scope ++ ';' :: ' ' :: (lit "pc_" ++ t.scope ++ [']'])) := by
      simp [mpaLine, hhead, hmiddle]
    have hrest : '[' ∉ lit "pc_" ++ s.scope ++ ';' :: ' ' :: (lit "pc_" ++ t.scope ++ [']']) := by
      simp [hmarks, hother]
    rw [hshape, List.splitOn_append_cons_self, List.splitOn_eq_singleton hother.1,
      List.splitOn_eq_singleton hrest]
    rfl
  have hself : ∀ text : Text, ']' ∉ text → text.filter (fun c => !decide (c = ']')) = text := by
    intro text htext
    apply List.filter_eq_self.mpr
    intro c hc
    simpa using ne_of_mem_of_not_mem hc htext
  have hfilter : (lit "pc_" ++ s.scope ++ ';' :: ' ' :: (lit "pc_" ++ t.scope ++ [']'])).filter
      (· ≠ ']') = (lit "pc_" ++ s.scope) ++ ';' :: (' ' :: (lit "pc_" ++ t.scope)) := by
    simp [hself _ (hmarks s).2.2, hself _ (hmarks t).2.2, hself _ (hother.2 ']' (by simp))]
  have hdata : ((lit "pc_" ++ s.scope) ++ ';' :: (' ' :: (lit "pc_" ++ t.scope))).splitOn ';' =
      [lit "pc_" ++ s.scope, ' ' :: (lit "pc_" ++ t.scope)] := by
    have hfirst : (lit "pc_" ++ s.scope).splitOn ';' = [lit "pc_" ++ s.scope] :=
      List.splitOn_eq_singleton (by simp [hmarks, hother])
    have hsecond : (' ' :: (lit "pc_" ++ t.scope)).splitOn ';' = [' ' :: (lit "pc_" ++ t.scope)] :=
      List.splitOn_eq_singleton (by simp [hmarks, hother])
    rw [List.splitOn_append_cons_self, hfirst, hsecond]
    rfl
  have hfirst : strip (replace (lit "pc_") [] (lit "pc_" ++ s.scope)) = unmarked s.scope := by
    rw [Strings.replace_append_old (by with_unfolding_all decide), List.nil_append]
    exact Strings.stripWhile_eq_self fun c hc => isSpace_of_mem_unmarked hc
  have hsecond : strip (replace (lit "pc_") [] (' ' :: (lit "pc_" ++ t.scope))) =
      unmarked t.scope := by
    have hblank : replace (lit "pc_") [] ([' '] ++ (lit "pc_" ++ t.scope)) =
        [' '] ++ replace (lit "pc_") [] (lit "pc_" ++ t.scope) := by
      rw [hword]
      exact Strings.replace_append_of_notMem (by decide) _
    rw [← List.singleton_append, hblank, Strings.replace_append_old (by with_unfolding_all decide),
      List.nil_append, List.singleton_append, strip, Strings.stripWhile_cons (by decide)]
    exact Strings.stripWhile_eq_self fun c hc => isSpace_of_mem_unmarked hc
  simp only [decode, hpart, hfilter, hdata, Option.bind_eq_bind, Option.bind_some,
    List.getElem?_cons_zero, List.getElem?_cons_succ, hfirst, hsecond, Option.pure_def]

/-! ### One line -/

section Search

variable {trace rest : List ReadRow} {first second : Text} {reader : MpaReader} {found : Bool}

/-- Stores of two threads with these scopes. -/
def Across (first second : Text) (t j : ReadRow) : Prop :=
  t.scope = first ∧ t.op = 101 ∧ j.scope = second ∧ j.op = 101 ∧ j.tid ≠ t.tid

def Cross (trace : List ReadRow) (first second : Text) : Prop :=
  ∃ t ∈ trace, ∃ j ∈ trace, Across first second t j

/-- The pair was used, in one of its orientations. -/
def Uses (reader : MpaReader) (first second : Text) : Prop :=
  (first, second) ∈ reader.allBugs ∨ (second, first) ∈ reader.allBugs

theorem Cross.symm (h : Cross trace first second) : Cross trace second first := by
  obtain ⟨t, ht, j, hj, hscope, hop, hscope', hop', htid⟩ := h
  exact ⟨j, hj, t, ht, hscope', hop', hscope, hop, htid.symm⟩

theorem search_of_uses (h : reader.Uses first second) :
    search trace first second reader found rest = (reader, found) := by
  induction rest with
  | nil => rfl
  | cons t rest ih =>
      rw [search]
      split
      · rename_i ht
        have hnone : trace.find? (fun j => reader.Fits second t j) = none := by
          rw [List.find?_eq_none]
          intro j _ hfits
          obtain ⟨hscope, -, -, hnew, hnew'⟩ := of_decide_eq_true hfits
          rw [ht.1, hscope] at hnew hnew'
          exact h.elim hnew hnew'
        rw [hnone]
        exact ih
      · exact ih

/-- The search takes the first pair of stores, if the scopes were not used. -/
theorem search_cases (h : ¬reader.Uses first second) :
    (∃ t ∈ rest, ∃ j ∈ trace, Across first second t j ∧
        search trace first second reader found rest = (reader.add t j, true)) ∨
      ((∀ t ∈ rest, ∀ j ∈ trace, ¬Across first second t j) ∧
        search trace first second reader found rest = (reader, found)) := by
  induction rest with
  | nil => exact .inr ⟨by simp, rfl⟩
  | cons t rest ih =>
      have hlater : (∀ j ∈ trace, ¬Across first second t j) →
          (∃ t' ∈ t :: rest, ∃ j ∈ trace, Across first second t' j ∧
            search trace first second reader found rest = (reader.add t' j, true)) ∨
          ((∀ t' ∈ t :: rest, ∀ j ∈ trace, ¬Across first second t' j) ∧
            search trace first second reader found rest = (reader, found)) := by
        intro hnone
        rcases ih with ⟨t', ht', hrest⟩ | ⟨hnot, hrest⟩
        · exact .inl ⟨t', List.mem_cons_of_mem t ht', hrest⟩
        · exact .inr ⟨List.forall_mem_cons.mpr ⟨hnone, hnot⟩, hrest⟩
      rw [search]
      split
      · rename_i ht
        cases hfind : trace.find? (fun j => reader.Fits second t j) with
        | some j =>
            have hfits : reader.Fits second t j := by simpa using List.find?_some hfind
            obtain ⟨hscope, hop, htid, -⟩ := hfits
            refine .inl ⟨t, List.mem_cons_self, j, List.mem_of_find?_eq_some hfind,
              ⟨ht.1, ht.2, hscope, hop, htid⟩, search_of_uses (.inl ?_)⟩
            simp [add, ht.1, hscope]
        | none =>
            apply hlater
            rintro j hj ⟨-, -, hscope, hop, htid⟩
            apply List.find?_eq_none.mp hfind j hj
            rw [decide_eq_true_eq]
            refine ⟨hscope, hop, htid, ?_, ?_⟩
            · rw [ht.1, hscope]
              exact fun hmem => h (.inl hmem)
            · rw [ht.1, hscope]
              exact fun hmem => h (.inr hmem)
      · rename_i ht
        exact hlater fun j _ hacross => ht ⟨hacross.1, hacross.2.1⟩

/-- What a line does, given its scopes. -/
def step (trace : List ReadRow) (reader : MpaReader) (first second : Text) : MpaReader :=
  let result := search trace first second reader false trace
  if result.2 then result.1 else result.1.fail

theorem step_cases (trace : List ReadRow) (reader : MpaReader) (first second : Text) :
    (∃ t ∈ trace, ∃ j ∈ trace, Across first second t j ∧ ¬reader.Uses first second ∧
        step trace reader first second = reader.add t j) ∨
      ((¬Cross trace first second ∨ reader.Uses first second) ∧
        step trace reader first second = reader.fail) := by
  by_cases huses : reader.Uses first second
  · refine .inr ⟨.inr huses, ?_⟩
    simp [step, search_of_uses huses]
  · rcases @search_cases trace trace first second reader false huses with
      ⟨t, ht, j, hj, hacross, hsearch⟩ | ⟨hnone, hsearch⟩
    · exact .inl ⟨t, ht, j, hj, hacross, huses, by simp [step, hsearch]⟩
    · refine .inr ⟨.inl ?_, by simp [step, hsearch]⟩
      rintro ⟨t, ht, j, hj, hacross⟩
      exact hnone t ht j hj hacross

theorem readLine_mpaLine (s t : Site) :
    readLine trace reader (mpaLine s.scope t.scope) =
      some (step trace reader (unmarked s.scope) (unmarked t.scope)) := by
  simp only [readLine, decode_mpaLine, Option.bind_eq_bind, Option.bind_some, Option.pure_def, step]

end Search

/-! ### Files -/

section Files

variable {trace : List ReadRow} {lines : List (Site × Site)}

/-- A file of MPA lines. -/
def mpaFile (lines : List (Site × Site)) : Text :=
  bugFile (lines.map fun line => mpaLine line.1.scope line.2.scope)

/-- What is read from the lines. -/
def collect (trace : List ReadRow) (lines : List (Site × Site)) : MpaReader :=
  lines.foldl (fun reader line =>
    step trace reader (unmarked line.1.scope) (unmarked line.2.scope)) {}

theorem collect_concat (lines : List (Site × Site)) (s t : Site) :
    collect trace (lines ++ [(s, t)]) =
      step trace (collect trace lines) (unmarked s.scope) (unmarked t.scope) := by
  simp [collect]

theorem readMPAs_mpaFile (hscopes : ∀ t ∈ trace, t.scope ≠ []) :
    readMPAs (mpaFile lines) trace = some (collect trace lines) := by
  obtain ⟨index, hindex⟩ := @exists_scopeIndex (trace.map fun t => (t.scope, t.index))
    (by simpa using hscopes)
  have hfile : mpaFile lines =
      bugFile ((lines.map fun line => BugLine.mpa line.1 line.2).map BugLine.text) := by
    rw [mpaFile, List.map_map]
    rfl
  have hlines : bugLines (mpaFile lines) =
      lines.map fun line => mpaLine line.1.scope line.2.scope := by
    rw [hfile, bugLines_bugFile, List.map_map]
    rfl
  have hfold : ∀ start : MpaReader,
      (lines.map fun line => mpaLine line.1.scope line.2.scope).foldlM (readLine trace) start =
        some (lines.foldl (fun reader line =>
          step trace reader (unmarked line.1.scope) (unmarked line.2.scope)) start) := by
    clear hfile hlines
    induction lines with
    | nil => exact fun start => rfl
    | cons line lines ih =>
        intro start
        rw [List.map_cons, List.foldlM_cons, readLine_mpaLine, Option.bind_eq_bind,
          Option.bind_some, ih, List.foldl_cons]
  rw [readMPAs, hindex, Option.bind_eq_bind, Option.bind_some, hlines, hfold, collect]

end Files

/-! ### What is collected -/

/-- The statements of the constraints, in order. -/
structure Collected (trace : List ReadRow) (lines : List (Site × Site)) (reader : MpaReader)
    (found : List (ReadRow × ReadRow)) : Prop where
  bugs : reader.bugs = found.map fun p => (p.1.index, p.2.index)
  infos : ∀ entry, entry ∈ reader.bugInfos ↔
    ∃ p ∈ found, entry = (infoKey p.1.index p.2.index, p)
  used : reader.allBugs = found.map fun p => (p.1.scope, p.2.scope)
  total : reader.totalMPA = lines.length
  failed : reader.totalMPA = reader.bugs.length + reader.failedMPA
  across : ∀ p ∈ found, p.1 ∈ trace ∧ p.2 ∈ trace ∧ ∃ line ∈ lines,
    Across (unmarked line.1.scope) (unmarked line.2.scope) p.1 p.2
  apart : (found.map fun p => (p.1.scope, p.2.scope)).Pairwise Apart
  writes : reader.writes.Nodup ∧ ∀ n, n ∈ reader.writes ↔ ∃ p ∈ found, p.1.index = n
  reads : reader.reads.Nodup ∧ ∀ n, n ∈ reader.reads ↔ ∃ p ∈ found, p.2.index = n
  closed : ∀ line ∈ lines, Cross trace (unmarked line.1.scope) (unmarked line.2.scope) →
    reader.Uses (unmarked line.1.scope) (unmarked line.2.scope)

/-- `if n not in ids: ids.append(n)`. -/
theorem nodup_append_new {ids : List Nat} {n : Nat} (h : ids.Nodup) :
    (if n ∈ ids then ids else ids ++ [n]).Nodup ∧
      ∀ m, m ∈ (if n ∈ ids then ids else ids ++ [n]) ↔ m ∈ ids ∨ n = m := by
  by_cases hmem : n ∈ ids
  · rw [if_pos hmem]
    refine ⟨h, fun m => ⟨.inl, ?_⟩⟩
    rintro (hm | rfl)
    · exact hm
    · exact hmem
  · rw [if_neg hmem]
    refine ⟨List.nodup_append.mpr ⟨h, List.nodup_singleton n, ?_⟩, fun m => ?_⟩
    · intro x hx y hy heq
      rw [List.mem_singleton] at hy
      exact hmem (hy ▸ heq ▸ hx)
    · rw [List.mem_append, List.mem_singleton, eq_comm (a := m)]

section Collect

variable {trace : List ReadRow} {lines : List (Site × Site)} {reader : MpaReader}
  {found : List (ReadRow × ReadRow)} {s t : Site}

theorem Collected.add (h : Collected trace lines reader found) {w j : ReadRow} (hw : w ∈ trace)
    (hj : j ∈ trace) (hacross : Across (unmarked s.scope) (unmarked t.scope) w j)
    (hnew : ¬reader.Uses (unmarked s.scope) (unmarked t.scope)) :
    Collected trace (lines ++ [(s, t)]) (reader.add w j) (found ++ [(w, j)]) := by
  have hwrites := nodup_append_new (n := w.index) h.writes.1
  have hreads := nodup_append_new (n := j.index) h.reads.1
  have hexists : ∀ P : ReadRow × ReadRow → Prop,
      (∃ p ∈ found ++ [(w, j)], P p) ↔ (∃ p ∈ found, P p) ∨ P (w, j) := by
    intro P
    simp only [List.mem_append, List.mem_singleton, or_and_right, exists_or, exists_eq_left]
  refine ⟨?_, fun entry => ?_, ?_, ?_, ?_, fun p hp => ?_, ?_, ⟨hwrites.1, fun n => ?_⟩,
    ⟨hreads.1, fun n => ?_⟩, fun line hline hcross => ?_⟩
  · simp [MpaReader.add, h.bugs]
  · change entry ∈ (infoKey w.index j.index, (w, j)) :: reader.bugInfos ↔ _
    rw [List.mem_cons, h.infos, hexists, or_comm]
  · simp [MpaReader.add, h.used]
  · simp [MpaReader.add, h.total]
  · have hfailed := h.failed
    simp only [MpaReader.add, List.length_append, List.length_singleton]
    omega
  · rcases List.mem_append.mp hp with hp | hp
    · obtain ⟨hp₁, hp₂, line, hline, hp⟩ := h.across p hp
      exact ⟨hp₁, hp₂, line, List.mem_append_left _ hline, hp⟩
    · rw [List.mem_singleton.mp hp]
      exact ⟨hw, hj, (s, t), by simp, hacross⟩
  · rw [List.map_append, List.pairwise_append]
    refine ⟨h.apart, List.pairwise_singleton _ _, fun p hp q hq => ?_⟩
    rw [← h.used] at hp
    obtain rfl : q = (unmarked s.scope, unmarked t.scope) := by
      simpa [hacross.1, hacross.2.2.1] using hq
    constructor
    · rintro rfl
      exact hnew (.inl hp)
    · rintro rfl
      exact hnew (.inr hp)
  · rw [hexists, ← h.writes.2]
    exact hwrites.2 n
  · rw [hexists, ← h.reads.2]
    exact hreads.2 n
  · rcases List.mem_append.mp hline with hline | hline
    · exact (h.closed line hline hcross).imp (List.mem_append_left _) (List.mem_append_left _)
    · rw [List.mem_singleton.mp hline]
      exact .inl (by simp [MpaReader.add, hacross.1, hacross.2.2.1])

theorem Collected.fail (h : Collected trace lines reader found)
    (hnone : ¬Cross trace (unmarked s.scope) (unmarked t.scope) ∨
      reader.Uses (unmarked s.scope) (unmarked t.scope)) :
    Collected trace (lines ++ [(s, t)]) reader.fail found := by
  refine ⟨h.bugs, h.infos, h.used, ?_, ?_, fun p hp => ?_, h.apart, h.writes, h.reads,
    fun line hline hcross => ?_⟩
  · simp [MpaReader.fail, h.total]
  · have hfailed := h.failed
    simp only [MpaReader.fail]
    omega
  · obtain ⟨hp₁, hp₂, line, hline, hp⟩ := h.across p hp
    exact ⟨hp₁, hp₂, line, List.mem_append_left _ hline, hp⟩
  · rcases List.mem_append.mp hline with hline | hline
    · exact h.closed line hline hcross
    · rw [List.mem_singleton.mp hline] at hcross ⊢
      exact hnone.resolve_left (not_not_intro hcross)

theorem exists_collected (trace : List ReadRow) (lines : List (Site × Site)) :
    ∃ found, Collected trace lines (collect trace lines) found := by
  induction lines using List.reverseRecOn with
  | nil =>
      refine ⟨[], rfl, by simp [collect], rfl, rfl, rfl, by simp, List.Pairwise.nil,
        ⟨List.nodup_nil, by simp [collect]⟩, ⟨List.nodup_nil, by simp [collect]⟩, by simp⟩
  | append_singleton lines line ih =>
      obtain ⟨found, h⟩ := ih
      rw [collect_concat]
      rcases step_cases trace (collect trace lines) (unmarked line.1.scope)
        (unmarked line.2.scope) with ⟨w, hw, j, hj, hacross, hnew, hstep⟩ | ⟨hnone, hstep⟩
      · exact ⟨found ++ [(w, j)], hstep ▸ h.add hw hj hacross hnew⟩
      · exact ⟨found, hstep ▸ h.fail hnone⟩

end Collect

/-! ### Accounting for the lines -/

/-- The statements of a constraint. -/
def Between (trace : List ReadRow) (bug : Nat × Nat) (w j : ReadRow) : Prop :=
  w ∈ trace ∧ j ∈ trace ∧ w.index = bug.1 ∧ j.index = bug.2

/-- A constraint between stores of these scopes, in one of the orientations. -/
def Used (trace : List ReadRow) (reader : MpaReader) (s t : Text) : Prop :=
  ∃ bug ∈ reader.bugs, ∃ w j, Between trace bug w j ∧
    ((w.scope, j.scope) = (s, t) ∨ (w.scope, j.scope) = (t, s))

/-- Every line is counted, gives a constraint between stores of its scopes unless there are none or
the scopes were used, and the tables hold what the constraints say. What a line gives is the
difference between the files that end before and behind it. -/
structure Accounted (trace : List ReadRow) (lines : List (Site × Site)) (reader : MpaReader) :
    Prop where
  total : reader.totalMPA = lines.length
  failed : reader.totalMPA = reader.bugs.length + reader.failedMPA
  apart : reader.bugs.Pairwise fun bug bug' => ∀ w j w' j', Between trace bug w j →
    Between trace bug' w' j' → Apart (w.scope, j.scope) (w'.scope, j'.scope)
  infos : ∀ bug ∈ reader.bugs, ∀ w j, Between trace bug w j →
    reader.bugInfos.lookup (infoKey bug.1 bug.2) = some (w, j)
  writes : reader.writes.Nodup ∧ ∀ n, n ∈ reader.writes ↔ ∃ bug ∈ reader.bugs, bug.1 = n
  reads : reader.reads.Nodup ∧ ∀ n, n ∈ reader.reads ↔ ∃ bug ∈ reader.bugs, bug.2 = n
  lines : ∀ before s t after r r', lines = before ++ (s, t) :: after →
    readMPAs (mpaFile before) trace = some r →
    readMPAs (mpaFile (before ++ [(s, t)])) trace = some r' →
    (r'.bugs = r.bugs ∨ ∃ bug w j, r'.bugs = r.bugs ++ [bug] ∧ Between trace bug w j ∧
      Across s.scope t.scope w j) ∧
    (r'.bugs = r.bugs ↔ ¬Cross trace s.scope t.scope ∨ Used trace r s.scope t.scope)

def AccountsForLines (trace : List ReadRow) (lines : List (Site × Site)) : Prop :=
  ∃ reader, readMPAs (mpaFile lines) trace = some reader ∧ Accounted trace lines reader

section Account

variable {trace : List ReadRow} {lines : List (Site × Site)} {reader : MpaReader}
  {found : List (ReadRow × ReadRow)} {s t : Text}

/-- Statements are told apart by their numbers. -/
theorem eq_of_index_eq (hids : (trace.map (·.index)).Nodup) {x y : ReadRow} (hx : x ∈ trace)
    (hy : y ∈ trace) (h : x.index = y.index) : x = y :=
  List.inj_on_of_nodup_map hids hx hy h

/-- The statements of a constraint are those it was made from. -/
theorem Collected.between (h : Collected trace lines reader found)
    (hids : (trace.map (·.index)).Nodup) {p : ReadRow × ReadRow} (hp : p ∈ found) {w j : ReadRow}
    (hbetween : Between trace (p.1.index, p.2.index) w j) : (w, j) = p := by
  obtain ⟨hw, hj, hwindex, hjindex⟩ := hbetween
  obtain ⟨hp₁, hp₂, -⟩ := h.across p hp
  rw [eq_of_index_eq hids hw hp₁ hwindex, eq_of_index_eq hids hj hp₂ hjindex]

theorem Collected.used_iff (h : Collected trace lines reader found)
    (hids : (trace.map (·.index)).Nodup) : Used trace reader s t ↔ reader.Uses s t := by
  rw [Used, Uses, h.bugs, h.used]
  simp only [List.mem_map]
  constructor
  · rintro ⟨bug, ⟨p, hp, rfl⟩, w, j, hbetween, hscopes⟩
    obtain rfl := h.between hids hp hbetween
    exact hscopes.imp (fun hs => ⟨(w, j), hp, hs⟩) fun hs => ⟨(w, j), hp, hs⟩
  · rintro (⟨p, hp, hs⟩ | ⟨p, hp, hs⟩)
    · obtain ⟨hp₁, hp₂, -⟩ := h.across p hp
      exact ⟨_, ⟨p, hp, rfl⟩, p.1, p.2, ⟨hp₁, hp₂, rfl, rfl⟩, .inl hs⟩
    · obtain ⟨hp₁, hp₂, -⟩ := h.across p hp
      exact ⟨_, ⟨p, hp, rfl⟩, p.1, p.2, ⟨hp₁, hp₂, rfl, rfl⟩, .inr hs⟩

theorem infoKey_injective {a b c d : Nat} (h : infoKey a b = infoKey c d) : a = c ∧ b = d := by
  have hsign : ∀ n, '-' ∉ digits n := fun n hmem =>
    absurd (Nat.isDigit_of_mem_toDigits (by decide) (by decide) hmem) (by decide)
  obtain ⟨hleft, -, hright⟩ := (List.append_cons_inj_of_notMem (hsign a) (hsign b)).mp h
  exact ⟨digits_injective hleft, digits_injective hright⟩

theorem Collected.infos_lookup (h : Collected trace lines reader found)
    (hids : (trace.map (·.index)).Nodup) {bug : Nat × Nat} (hbug : bug ∈ reader.bugs)
    {w j : ReadRow} (hbetween : Between trace bug w j) :
    reader.bugInfos.lookup (infoKey bug.1 bug.2) = some (w, j) := by
  rw [h.bugs, List.mem_map] at hbug
  obtain ⟨p, hp, rfl⟩ := hbug
  obtain rfl := h.between hids hp hbetween
  apply Lists.lookup_of_mem ((h.infos _).mpr ⟨(w, j), hp, rfl⟩)
  intro entry hentry hkey
  obtain ⟨q, hq, rfl⟩ := (h.infos _).mp hentry
  obtain ⟨hfirst, hsecond⟩ := infoKey_injective hkey
  obtain ⟨hq₁, hq₂, -⟩ := h.across q hq
  exact h.between hids hp ⟨hq₁, hq₂, hfirst, hsecond⟩

theorem Collected.apart_bugs (h : Collected trace lines reader found)
    (hids : (trace.map (·.index)).Nodup) :
    reader.bugs.Pairwise fun bug bug' => ∀ w j w' j', Between trace bug w j →
      Between trace bug' w' j' → Apart (w.scope, j.scope) (w'.scope, j'.scope) := by
  rw [h.bugs, List.pairwise_map]
  refine (List.pairwise_map.mp h.apart).imp_of_mem ?_
  intro p q hp hq hapart w j w' j' hbetween hbetween'
  obtain rfl := h.between hids hp hbetween
  obtain rfl := h.between hids hq hbetween'
  exact hapart

theorem Collected.accounted (h : Collected trace lines reader found)
    (hids : (trace.map (·.index)).Nodup)
    (hlines : ∀ before s t after r r', lines = before ++ (s, t) :: after →
      readMPAs (mpaFile before) trace = some r →
      readMPAs (mpaFile (before ++ [(s, t)])) trace = some r' →
      (r'.bugs = r.bugs ∨ ∃ bug w j, r'.bugs = r.bugs ++ [bug] ∧ Between trace bug w j ∧
        Across s.scope t.scope w j) ∧
      (r'.bugs = r.bugs ↔ ¬Cross trace s.scope t.scope ∨ Used trace r s.scope t.scope)) :
    Accounted trace lines reader := by
  refine ⟨h.total, h.failed, h.apart_bugs hids, fun bug hbug w j => h.infos_lookup hids hbug,
    ⟨h.writes.1, fun n => ?_⟩, ⟨h.reads.1, fun n => ?_⟩, hlines⟩
  · simp only [h.writes.2, h.bugs, List.mem_map, exists_exists_and_eq_and]
  · simp only [h.reads.2, h.bugs, List.mem_map, exists_exists_and_eq_and]

/-- A line that gives a constraint has no `pc_` in its scopes. -/
theorem Accounted.unmarked (h : Accounted trace lines reader)
    (hids : (trace.map (·.index)).Nodup) (hscopes : ∀ x ∈ trace, x.scope ≠ [])
    {before after : List (Site × Site)} {a b : Site} (hsplit : lines = before ++ (a, b) :: after)
    {w j : ReadRow} (hw : w ∈ trace) (hj : j ∈ trace)
    (hacross : Across (unmarked a.scope) (unmarked b.scope) w j)
    (hstep : step trace (collect trace before) (unmarked a.scope) (unmarked b.scope) =
      (collect trace before).add w j) :
    unmarked a.scope = a.scope ∧ unmarked b.scope = b.scope := by
  have hline := (h.lines before a b after _ _ hsplit (readMPAs_mpaFile hscopes)
    (readMPAs_mpaFile hscopes)).1
  rw [collect_concat, hstep] at hline
  rcases hline with hsame | ⟨bug, w', j', hbugs, ⟨hw', hj', hwindex, hjindex⟩, hacross'⟩
  · simp [MpaReader.add] at hsame
  · obtain rfl : (w.index, j.index) = bug := by simpa [MpaReader.add] using hbugs
    obtain rfl := eq_of_index_eq hids hw' hw hwindex
    obtain rfl := eq_of_index_eq hids hj' hj hjindex
    exact ⟨hacross.1.symm.trans hacross'.1, hacross.2.2.1.symm.trans hacross'.2.2.1⟩

theorem Accounted.unmarked_allBugs (h : Accounted trace lines reader)
    (hids : (trace.map (·.index)).Nodup) (hscopes : ∀ x ∈ trace, x.scope ≠ [])
    {before after : List (Site × Site)} (hsplit : lines = before ++ after) :
    ∀ pair ∈ (collect trace before).allBugs, ¬lit "pc_" <:+: pair.1 ∧ ¬lit "pc_" <:+: pair.2 := by
  induction before using List.reverseRecOn generalizing after with
  | nil => simp [collect]
  | append_singleton before line ih =>
      have hsplit' : lines = before ++ (line.1, line.2) :: after := by simpa using hsplit
      rw [collect_concat]
      rcases step_cases trace (collect trace before) (PMBugRepair.unmarked line.1.scope)
        (PMBugRepair.unmarked line.2.scope) with ⟨w, hw, j, hj, hacross, -, hstep⟩ | ⟨-, hstep⟩
      · obtain ⟨hfirst, hsecond⟩ := h.unmarked hids hscopes hsplit' hw hj hacross hstep
        rw [hstep]
        intro pair hpair
        rcases List.mem_append.mp hpair with hpair | hpair
        · exact ih hsplit' pair hpair
        · rw [List.mem_singleton.mp hpair, hacross.1, hacross.2.2.1, hfirst, hsecond]
          exact ⟨unmarked_eq_self_iff.mp hfirst, unmarked_eq_self_iff.mp hsecond⟩
      · rw [hstep]
        exact ih hsplit'

theorem Uses.of_not_apart {p q : Text × Text} (h : reader.Uses p.1 p.2) (hp : ¬Apart p q) :
    reader.Uses q.1 q.2 := by
  rw [Apart, not_and_or, not_ne_iff, not_ne_iff] at hp
  rcases hp with rfl | rfl
  · exact h
  · exact h.symm

theorem Cross.of_not_apart {p q : Text × Text} (h : Cross trace q.1 q.2) (hp : ¬Apart p q) :
    Cross trace p.1 p.2 := by
  rw [Apart, not_and_or, not_ne_iff, not_ne_iff] at hp
  rcases hp with rfl | rfl
  · exact h
  · exact h.symm

/-- The lines are accounted for if no statements are missed or taken for others because of a `pc_`
in a name: for every such line the trace has no stores of two threads with its scopes, and none with
the scopes that are left, unless an earlier line leaves them too. -/
theorem accountsForLines_iff (hids : (trace.map (·.index)).Nodup)
    (hscopes : ∀ x ∈ trace, x.scope ≠ []) :
    AccountsForLines trace lines ↔
      ∀ before s t after, lines = before ++ (s, t) :: after →
        (lit "pc_" <:+: s.scope ∨ lit "pc_" <:+: t.scope) →
        ¬Cross trace s.scope t.scope ∧
          (Cross trace (unmarked s.scope) (unmarked t.scope) → ∃ line ∈ before,
            ¬Apart (unmarked line.1.scope, unmarked line.2.scope)
              (unmarked s.scope, unmarked t.scope)) := by
  constructor
  · rintro ⟨reader, -, h⟩ before a b after hsplit hmark
    have hgood : ¬(PMBugRepair.unmarked a.scope = a.scope ∧
        PMBugRepair.unmarked b.scope = b.scope) := by
      rw [unmarked_eq_self_iff, unmarked_eq_self_iff]
      tauto
    obtain ⟨found, hfound⟩ := exists_collected trace before
    rcases step_cases trace (collect trace before) (PMBugRepair.unmarked a.scope)
      (PMBugRepair.unmarked b.scope) with ⟨w, hw, j, hj, hacross, -, hstep⟩ | ⟨hnone, hstep⟩
    · exact absurd (h.unmarked hids hscopes hsplit hw hj hacross hstep) hgood
    · have hline := (h.lines before a b after _ _ hsplit (readMPAs_mpaFile hscopes)
        (readMPAs_mpaFile hscopes)).2
      rw [collect_concat, hstep] at hline
      refine ⟨(hline.mp rfl).resolve_right fun hused => ?_, fun hcross => ?_⟩
      · -- a pair that was used has no `pc_`
        have hclean := h.unmarked_allBugs hids hscopes hsplit
        rcases (hfound.used_iff hids).mp hused with hmem | hmem
        · exact hmark.elim (hclean _ hmem).1 (hclean _ hmem).2
        · exact hmark.elim (hclean _ hmem).2 (hclean _ hmem).1
      · have huses := hnone.resolve_left (not_not_intro hcross)
        rw [Uses, hfound.used, List.mem_map, List.mem_map] at huses
        rcases huses with ⟨p, hp, heq⟩ | ⟨p, hp, heq⟩
        · obtain ⟨-, -, line, hline, hacross⟩ := hfound.across p hp
          refine ⟨line, hline, fun hapart => hapart.1 ?_⟩
          rw [← hacross.1, ← hacross.2.2.1, heq]
        · obtain ⟨-, -, line, hline, hacross⟩ := hfound.across p hp
          refine ⟨line, hline, fun hapart => hapart.2 ?_⟩
          rw [← hacross.1, ← hacross.2.2.1, heq, Prod.swap]
  · intro h
    obtain ⟨found, hfound⟩ := exists_collected trace lines
    refine ⟨_, readMPAs_mpaFile hscopes, hfound.accounted hids ?_⟩
    intro before a b after r r' hsplit hr hr'
    rw [readMPAs_mpaFile hscopes, Option.some.injEq] at hr hr'
    rw [collect_concat] at hr'
    subst hr
    obtain ⟨earlier, hearlier⟩ := exists_collected trace before
    rw [hearlier.used_iff hids]
    by_cases hmark : lit "pc_" <:+: a.scope ∨ lit "pc_" <:+: b.scope
    · obtain ⟨hcross, hearly⟩ := h before a b after hsplit hmark
      have huses : Cross trace (PMBugRepair.unmarked a.scope) (PMBugRepair.unmarked b.scope) →
          (collect trace before).Uses (PMBugRepair.unmarked a.scope)
            (PMBugRepair.unmarked b.scope) := by
        intro hcross
        obtain ⟨line, hline, hsame⟩ := hearly hcross
        exact (hearlier.closed line hline (Cross.of_not_apart hcross hsame)).of_not_apart hsame
      rcases step_cases trace (collect trace before) (PMBugRepair.unmarked a.scope)
        (PMBugRepair.unmarked b.scope) with ⟨w, hw, j, hj, hacross, hnew, -⟩ | ⟨-, hstep⟩
      · exact absurd (huses ⟨w, hw, j, hj, hacross⟩) hnew
      · rw [← hr', hstep]
        exact ⟨.inl rfl, fun _ => .inl hcross, fun _ => rfl⟩
    · rw [not_or, ← unmarked_eq_self_iff, ← unmarked_eq_self_iff] at hmark
      rw [hmark.1, hmark.2] at hr'
      rcases step_cases trace (collect trace before) a.scope b.scope with
        ⟨w, hw, j, hj, hacross, hnew, hstep⟩ | ⟨hnone, hstep⟩
      · rw [← hr', hstep]
        refine ⟨.inr ⟨(w.index, j.index), w, j, rfl, ⟨hw, hj, rfl, rfl⟩, hacross⟩,
          fun hsame => ?_, fun hnone => ?_⟩
        · simp [MpaReader.add] at hsame
        · exact absurd hnone (not_or.mpr ⟨not_not_intro ⟨w, hw, j, hj, hacross⟩, hnew⟩)
      · rw [← hr', hstep]
        exact ⟨.inl rfl, fun _ => hnone, fun _ => rfl⟩

end Account

/-- Two stores, one in each thread. -/
def storePair (first second : Text) : List ReadRow :=
  [{ index := 2, op := 101, add := lit "0x1599850", dep := lit "-1", tid := lit "1",
     scope := first },
    { index := 3, op := 101, add := lit "0x15998b0", dep := lit "0x1599850", tid := lit "2",
      scope := second }]

/-- A function whose name begins with `pc_`. -/
def pcSite : Site := ⟨lit "pc_put", 12, by with_unfolding_all decide⟩

/-- The second line asks for the scopes of the first in the other order, and the third one, marked,
for a store that the trace does not have under either name. -/
theorem accountsForLines_threads :
    AccountsForLines (storePair thread1Site.scope thread2Site.scope)
      [(thread1Site, thread2Site), (thread2Site, thread1Site), (pcSite, thread2Site)] := by
  refine (accountsForLines_iff (by with_unfolding_all decide) (by with_unfolding_all decide)).mpr ?_
  intro before a b after hsplit hmark
  have hplain : ¬lit "pc_" <:+: thread1Site.scope ∧ ¬lit "pc_" <:+: thread2Site.scope := by
    with_unfolding_all decide
  have habsent : ∀ x ∈ storePair thread1Site.scope thread2Site.scope,
      x.scope ≠ pcSite.scope ∧ x.scope ≠ unmarked pcSite.scope := by
    with_unfolding_all decide
  have hmem : (a, b) ∈
      [(thread1Site, thread2Site), (thread2Site, thread1Site), (pcSite, thread2Site)] := by
    simp [hsplit]
  simp only [List.mem_cons, Prod.mk.injEq, List.not_mem_nil, or_false] at hmem
  rcases hmem with ⟨rfl, rfl⟩ | ⟨rfl, rfl⟩ | ⟨rfl, rfl⟩
  · exact absurd hmark (not_or.mpr hplain)
  · exact absurd hmark (not_or.mpr hplain.symm)
  · refine ⟨?_, ?_⟩
    · rintro ⟨w, hw, _, _, hacross⟩
      exact (habsent w hw).1 hacross.1
    · rintro ⟨w, hw, _, _, hacross⟩
      exact absurd hacross.1 (habsent w hw).2

/-- Its store is not found. -/
theorem not_accountsForLines_pcSite :
    ¬AccountsForLines (storePair pcSite.scope thread2Site.scope) [(pcSite, thread2Site)] := by
  rintro ⟨reader, -, h⟩
  have hcross : Cross (storePair pcSite.scope thread2Site.scope) pcSite.scope
      thread2Site.scope := by
    refine ⟨_, List.mem_cons_self, _, List.mem_cons_of_mem _ List.mem_cons_self, rfl, rfl, rfl,
      rfl, ?_⟩
    with_unfolding_all decide
  have hiff := (h.lines [] pcSite thread2Site [] {} { totalMPA := 1, failedMPA := 1 } rfl
    (by with_unfolding_all decide) (by with_unfolding_all decide)).2
  rcases hiff.mp rfl with hnone | ⟨bug, hbug, -⟩
  · exact hnone hcross
  · cases hbug

end MpaReader

end PMBugRepair
