import PMBugRepair.Bugs.Index
import PMBugRepair.Bugs.Scopes
import PMBugRepair.Step1.Basic

/-!
# Reading DURA and MPB bugs

`readBugs` looks the scopes of every line up in the index of the trace and makes a constraint of the
numbers it finds. The lookups of a line stand in a `try`, so that nothing but an empty scope of the
trace stops it.
-/

namespace PMBugRepair

open Strings (Text lit strip replace)

/-- What `readBugs` returns. -/
structure BugReader where
  bugs : List Bug := []
  totalMPB : Nat := 0
  totalDURA : Nat := 0
  failedMPB : Nat := 0
  failedDURA : Nat := 0
  deriving DecidableEq, Repr

/-- The key of a DURA line. -/
def duraKey (line : Text) : Option Text := do
  let part ← (line.splitOn '[')[1]?
  let word := if lit "pt__" <:+: line then lit "pt__" else lit "pt_"
  return strip ((replace word [] part).filter (· ≠ ']'))

/-- The key of the first store of an MPB line. -/
def firstKey (line : Text) : Option Text := do
  let part ← (line.splitOn ';')[0]?
  let word := if lit "pt__" <:+: part then lit "MPB: [pt__" else lit "MPB: [pt_"
  return strip (replace word [] part)

/-- The key of the second store of an MPB line. -/
def secondKey (line : Text) : Option Text := do
  let part ← (line.splitOn ';')[1]?
  let word := if lit "pt__" <:+: part then lit "pt__" else lit "pt_"
  return strip ((replace word [] part).filter (· ≠ ']'))

namespace BugReader

variable (index : List (Text × Nat))

/-- `data`. -/
def resolveDURA (line : Text) : Option Nat := do
  index.lookup (← duraKey line)

/-- `first` and `second`. -/
def resolveMPB (line : Text) : Option (Nat × Nat) := do
  let first ← index.lookup (← firstKey line)
  let second ← index.lookup (← secondKey line)
  return (first, second)

/-- The body of the loop over the lines. -/
def readLine (reader : BugReader) (line : Text) : BugReader :=
  if lit "DURA" <:+: line then
    match resolveDURA index line with
    | some data =>
        { reader with
          bugs := reader.bugs ++ [.dura (.line data)]
          totalDURA := reader.totalDURA + 1 }
    | none =>
        { reader with
          totalDURA := reader.totalDURA + 1
          failedDURA := reader.failedDURA + 1 }
  else
    match resolveMPB index line with
    | some (first, second) =>
        if first ≠ second ∧ first < second then
          { reader with
            bugs := reader.bugs ++ [.mpb (.line first) (.line second)]
            totalMPB := reader.totalMPB + 1 }
        else reader
    | none =>
        { reader with
          totalMPB := reader.totalMPB + 1
          failedMPB := reader.failedMPB + 1 }

end BugReader

/-- The trace is given by the scopes and numbers of its statements. -/
def readBugs (file : Text) (entries : List (Text × Nat)) : Option BugReader := do
  let index ← scopeIndex entries
  return (bugLines file).foldl (BugReader.readLine index) {}

/-! ### Lines and their constraints -/

namespace BugReader

/-- The constraint that a line leaves. -/
def lineBug (index : List (Text × Nat)) (line : Text) : Option Bug :=
  if lit "DURA" <:+: line then (resolveDURA index line).map fun data => .dura (.line data)
  else (resolveMPB index line).bind fun pair =>
    if pair.1 < pair.2 then some (.mpb (.line pair.1) (.line pair.2)) else none

variable {index : List (Text × Nat)} {line : Text} {reader : BugReader}

theorem readLine_bugs :
    (reader.readLine index line).bugs = reader.bugs ++ (lineBug index line).toList := by
  unfold readLine lineBug
  split_ifs with hdura
  · cases resolveDURA index line with
    | some data => rfl
    | none => simp
  · cases resolveMPB index line with
    | some pair =>
        by_cases hlt : pair.1 < pair.2
        · simp [hlt, hlt.ne]
        · simp [hlt]
    | none => simp

theorem foldl_bugs (lines : List Text) (reader : BugReader) :
    (lines.foldl (readLine index) reader).bugs = reader.bugs ++ lines.filterMap (lineBug index) := by
  induction lines generalizing reader with
  | nil => simp
  | cons line lines ih =>
      rw [List.foldl_cons, ih, readLine_bugs, List.append_assoc, List.filterMap_cons]
      cases lineBug index line with
      | none => rfl
      | some bug => rfl

/-- What a line adds to the four counts. -/
theorem readLine_counts :
    (reader.readLine index line).totalDURA =
        reader.totalDURA + (if lit "DURA" <:+: line then 1 else 0) ∧
      (reader.readLine index line).failedDURA = reader.failedDURA +
        (if lit "DURA" <:+: line ∧ resolveDURA index line = none then 1 else 0) ∧
      (reader.readLine index line).totalMPB = reader.totalMPB + (if ¬lit "DURA" <:+: line ∧
        (resolveMPB index line = none ∨ lineBug index line ≠ none) then 1 else 0) ∧
      (reader.readLine index line).failedMPB = reader.failedMPB +
        (if ¬lit "DURA" <:+: line ∧ resolveMPB index line = none then 1 else 0) := by
  unfold readLine lineBug
  by_cases hdura : lit "DURA" <:+: line
  · cases hresolve : resolveDURA index line <;> simp [hdura]
  · cases hresolve : resolveMPB index line with
    | none => simp [hdura]
    | some pair =>
        by_cases hlt : pair.1 < pair.2
        · simp [hdura, hlt, hlt.ne]
        · simp [hdura, hlt]

theorem foldl_counts (lines : List Text) (reader : BugReader) :
    (lines.foldl (readLine index) reader).totalDURA =
        reader.totalDURA + lines.countP (fun line => lit "DURA" <:+: line) ∧
      (lines.foldl (readLine index) reader).failedDURA = reader.failedDURA +
        lines.countP (fun line => lit "DURA" <:+: line ∧ resolveDURA index line = none) ∧
      (lines.foldl (readLine index) reader).totalMPB = reader.totalMPB +
        lines.countP (fun line => ¬lit "DURA" <:+: line ∧
          (resolveMPB index line = none ∨ lineBug index line ≠ none)) ∧
      (lines.foldl (readLine index) reader).failedMPB = reader.failedMPB +
        lines.countP (fun line => ¬lit "DURA" <:+: line ∧ resolveMPB index line = none) := by
  induction lines generalizing reader with
  | nil => simp
  | cons line lines ih =>
      obtain ⟨htotal, hfailed, htotal', hfailed'⟩ := @readLine_counts index line reader
      obtain ⟨ih₁, ih₂, ih₃, ih₄⟩ := ih (reader.readLine index line)
      simp only [List.foldl_cons, List.countP_cons, decide_eq_true_eq, ih₁, ih₂, ih₃, ih₄, htotal,
        hfailed, htotal', hfailed']
      omega

end BugReader

/-- The line of the file leaves the constraint. -/
def Yields (file : Text) (entries : List (Text × Nat)) (line : Text) (bug : Bug) : Prop :=
  ∃ index, scopeIndex entries = some index ∧ line ∈ bugLines file ∧
    BugReader.lineBug index line = some bug

/-- Every bug that `readBugs` returns comes from a line. -/
theorem mem_readBugs_iff {file : Text} {entries : List (Text × Nat)} {reader : BugReader}
    (h : readBugs file entries = some reader) {bug : Bug} :
    bug ∈ reader.bugs ↔ ∃ line, Yields file entries line bug := by
  obtain ⟨index, hindex, heq⟩ := Option.bind_eq_some_iff.mp h
  rw [← Option.some.inj heq, BugReader.foldl_bugs, List.nil_append, List.mem_filterMap]
  constructor
  · rintro ⟨line, hline, hbug⟩
    exact ⟨line, index, hindex, hline, hbug⟩
  · rintro ⟨line, index', hindex', hline, hbug⟩
    obtain rfl := Option.some.inj (hindex.symm.trans hindex')
    exact ⟨line, hline, hbug⟩

end PMBugRepair
