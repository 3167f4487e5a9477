import PMBugRepair.Strings.Basic
import PMBugRepair.Trace

/-!
# The rows of a log

`trace_formatter` cuts the rows of a log at blanks and takes what it needs from fixed columns.
`none` is an `IndexError`.
-/

namespace PMBugRepair

open Strings (Text lit strip)

/-- The opcodes of the formatter. -/
inductive RowOp where
  | load
  | store
  | flush
  | fence
  | txBegin
  | txCommit
  deriving DecidableEq, Repr

/-- A field of a row: an address or a number. -/
inductive Value where
  | text (s : Text)
  | num (n : Int)
  deriving DecidableEq, Repr

/-- What the `format_*` functions return; only loads and stores have a `uid`. -/
structure RowStmt where
  r : Nat
  op : RowOp
  add : Value
  tid : Text
  uid : Option Text
  scope : Text
  deriving DecidableEq, Repr

/-- `str(row).split(" ")[k]`. -/
def column (row : Text) (k : Nat) : Option Text := (row.splitOn ' ')[k]?

/-- `str(row).split(":")[-1].split(">")[0]`. -/
def rowTid (row : Text) : Text := (((row.splitOn ':').getLastD []).splitOn '>').headD []

/-- `row.split("@")[1].split(":")[1].split(",")[0].strip()`. -/
def rowLine (row : Text) : Option Text := do
  let place ← (row.splitOn '@')[1]?
  let position ← (place.splitOn ':')[1]?
  let line ← (position.splitOn ',')[0]?
  return strip line

/-- The scope in a column, and the line. -/
def rowScope (k : Nat) (row : Text) : Option Text := do
  let scope ← column row k
  let line ← rowLine row
  return scope.filter (· ≠ ';') ++ '_' :: line

def formatSTOREs (row : Text) (r : Nat) : Option RowStmt := do
  let scope ← rowScope 9 row
  let add ← column row 1
  let uid ← column row 5
  return { r := r, op := .store, add := .text add, tid := rowTid row, uid := some uid,
           scope := scope }

def formatFLUSH (row : Text) (r : Nat) : Option RowStmt := do
  let scope ← rowScope 8 row
  let add ← column row 1
  return { r := r, op := .flush, add := .text add, tid := rowTid row, uid := none, scope := scope }

def formatFENCE (row : Text) (r : Nat) : Option RowStmt := do
  let scope ← rowScope 5 row
  return { r := r, op := .fence, add := .num 0, tid := rowTid row, uid := none, scope := scope }

def formatTransactions (row : Text) (r : Nat) : Option RowStmt := do
  let scope ← rowScope 5 row
  let op := if lit "Transaction begins" <:+: row then RowOp.txBegin else .txCommit
  return { r := r, op := op, add := .num 0, tid := rowTid row, uid := none, scope := scope }

end PMBugRepair
