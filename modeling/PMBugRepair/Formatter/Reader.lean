import PMBugRepair.Formatter.Rows

/-!
# Reading a log

`fileReader` turns the rows of a log into statements, `format` gives every statement the address
that its value was read from. Dictionaries are lists of entries: `dependencies` has the latest entry
in front, and an entry of `loads` is never replaced.
-/

namespace PMBugRepair

open Strings (Text lit)

/-- What `fileReader` fills. -/
structure Reader where
  contents : List RowStmt := []
  dependencies : List (Text × Text) := []
  loads : List (Text × RowStmt) := []
  deriving DecidableEq, Repr

def Reader.append (reader : Reader) (stmt : RowStmt) : Reader :=
  { reader with contents := reader.contents ++ [stmt] }

/-- `dependencies[dest] = source`. -/
def Reader.depend (reader : Reader) (dest source : Text) : Reader :=
  { reader with dependencies := (dest, source) :: reader.dependencies }

/-- `if uid not in loads.keys(): loads[uid] = stmt`. -/
def Reader.record (reader : Reader) (uid : Text) (stmt : RowStmt) : Reader :=
  { reader with
    loads := match reader.loads.lookup uid with
      | some _ => reader.loads
      | none => (uid, stmt) :: reader.loads }

/-- The loop over `j`: the identifier of the last store to the address of the row. -/
def findSource (row : Text) (before : List Text) : Option Text :=
  before.foldlM (fun source earlier => do
    if lit "Store" <:+: earlier then
      let add ← column row 1
      let add' ← column earlier 1
      if add = add' then column earlier 5 else return source
    else return source) []

/-- `if "Load" in str(row)`. -/
def readLoad (before : List Text) (row : Text) (reader : Reader) : Option Reader := do
  if lit "Load" <:+: row then
    let dest ← column row 5
    let source ← findSource row before
    if source = [] then return reader
    let stmt ← formatSTOREs row (before.length + 1)
    return (reader.depend dest source).append stmt
  else return reader

/-- The statement that is kept in `loads`. -/
def formatLOAD (row : Text) (r : Nat) : Option RowStmt := do
  let scope ← column row 9
  let add ← column row 1
  let line ← rowLine row
  return { r := r, op := .load, add := .text add, tid := rowTid row, uid := none,
           scope := scope.map (fun c => if c = ';' then '_' else c) ++ line }

/-- `if "Load" in str(row) or "Store" in str(row)`. -/
def readAccess (before : List Text) (row : Text) (reader : Reader) : Option Reader := do
  if lit "Load" <:+: row ∨ lit "Store" <:+: row then
    let load ← formatLOAD row (before.length + 1)
    let uid ← column row 5
    let stmt ← formatSTOREs row (before.length + 1)
    return (reader.record uid load).append stmt
  else return reader

/-- The rows of the branch `"DEP" in str(row)`. -/
def IsDep (row : Text) : Prop :=
  ¬lit "Store" <:+: row ∧ ¬lit "FLUSH" <:+: row ∧ ¬lit "FENCE" <:+: row ∧
    ¬lit "Transaction" <:+: row ∧ lit "DEP" <:+: row

instance (row : Text) : Decidable (IsDep row) := inferInstanceAs (Decidable (_ ∧ _))

/-- The chain of branches at the end of the loop body. -/
def readStatement (before : List Text) (row : Text) (reader : Reader) : Option Reader := do
  if lit "Store" <:+: row then
    return reader.append (← formatSTOREs row (before.length + 1))
  else if lit "FLUSH" <:+: row then
    return reader.append (← formatFLUSH row (before.length + 1))
  else if lit "FENCE" <:+: row then
    return reader.append (← formatFENCE row (before.length + 1))
  else if lit "Transaction" <:+: row then
    return reader.append (← formatTransactions row (before.length + 1))
  else if lit "DEP" <:+: row then
    let source ← column row 2
    let dest ← column row 4
    return reader.depend (dest.takeWhile (· ≠ ';')) source
  else return reader

/-- The loop body. -/
def readRow (before : List Text) (row : Text) (reader : Reader) : Option Reader := do
  let reader ← readLoad before row reader
  let reader ← readAccess before row reader
  readStatement before row reader

/-- The rows that are left, behind those that were read. -/
def readRows (before : List Text) (reader : Reader) : List Text → Option Reader
  | [] => some reader
  | row :: rest => do
      let reader ← readRow before row reader
      readRows (before ++ [row]) reader rest

def fileReader (rows : List Text) : Option Reader := readRows [] {} rows

/-- The threads in the order in which they appear; `c` is the number of entries. -/
def getThreads (trace : List RowStmt) : List (Text × Nat) :=
  trace.foldl (fun threads stmt =>
    match threads.lookup stmt.tid with
    | some _ => threads
    | none => threads ++ [(stmt.tid, threads.length)]) []

/-- A statement of the trace, without its number. -/
structure Formatted where
  op : RowOp
  add : Value
  dep : Value
  tid : Nat
  scope : Text
  deriving DecidableEq, Repr

/-- `element[3]`. -/
def dependency (dependencies : List (Text × Text)) (loads : List (Text × RowStmt))
    (stmt : RowStmt) : Value :=
  match stmt.op, stmt.uid with
  | .store, some uid =>
      match (dependencies.lookup uid).bind (fun id => loads.lookup id) with
      | some load => load.add
      | none => .num (-1)
  | _, _ => .num (-1)

/-- The loop body of `format`; `none` is a `KeyError`. -/
def formatElement (threads : List (Text × Nat)) (dependencies : List (Text × Text))
    (loads : List (Text × RowStmt)) (stmt : RowStmt) : Option Formatted := do
  let tid ← threads.lookup stmt.tid
  return { op := stmt.op, add := stmt.add, dep := dependency dependencies loads stmt, tid := tid,
           scope := stmt.scope }

def format (trace : List RowStmt) (threads : List (Text × Nat))
    (dependencies : List (Text × Text)) (loads : List (Text × RowStmt)) :
    Option (List Formatted) :=
  (trace.filter (·.op ≠ .load)).mapM (formatElement threads dependencies loads)

end PMBugRepair
