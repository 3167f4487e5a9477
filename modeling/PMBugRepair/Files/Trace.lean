import PMBugRepair.Formatter.Reader
import PMBugRepair.Runtime.Log

/-!
# Trace files

The passes hand traces on as text: the formatter and step 1 print every statement as a Python list,
step 1 and step 4 cut the lines at commas and strip what is left. `none` is an exception.
-/

namespace PMBugRepair

open Strings (Text lit strip stripWhile repr strList commaJoin int replace)

/-! ### The formatter writes -/

def RowOp.name : RowOp → Text
  | .load => lit "LOAD"
  | .store => lit "STORE"
  | .flush => lit "FLUSH"
  | .fence => lit "FENCE"
  | .txBegin => lit "tx_begin"
  | .txCommit => lit "tx_commit"

section Write

variable (printable : Char → Bool)

/-- How a value is printed within a list. -/
def Value.repr : Value → Text
  | .text s => Strings.repr printable s
  | .num n => decimal n

/-- `str(t)`. -/
def Formatted.str (stmt : Formatted) : Text :=
  strList [repr printable stmt.op.name, stmt.add.repr printable, stmt.dep.repr printable,
    digits stmt.tid, repr printable stmt.scope]

/-- `"Threads: ["+str(threads)+"]\n"`. -/
def threadsLine (threads : List (Text × Nat)) : Text :=
  lit "Threads: [\x7b" ++
    commaJoin (threads.map fun thread => repr printable thread.1 ++ lit ": " ++ digits thread.2) ++
    lit "\x7d]\n"

def formatterFile (threads : List (Text × Nat)) (trace : List Formatted) : Text :=
  threadsLine printable threads ++ trace.flatMap fun stmt => stmt.str printable ++ ['\n']

end Write

/-! ### Step 1 reads and writes -/

/-- A statement of step 1. A line without a known opcode is one entry shorter. -/
structure Row where
  index : Nat
  op : Option Nat
  add : Text
  dep : Value
  tid : Int
  scope : Text
  deriving DecidableEq, Repr

/-- The branches of `parseTraceHelper` on `elements[0]`. -/
def opcodeOf (element : Text) : Option Nat :=
  if lit "LOAD" <:+: element then some 100
  else if lit "STORE" <:+: element then some 101
  else if lit "FLUSH" <:+: element then some 102
  else if lit "FENCE" <:+: element then some 103
  else if lit "tx_begin" <:+: element then some 201
  else if lit "tx_commit" <:+: element then some 202
  else none

namespace Step1

def parseTraceHelper (elements : List Text) (index : Nat) : Option Row := do
  let op ← elements[0]?
  let add ← elements[1]?
  let dep ← elements[2]?
  let tid ← elements[3]?
  let scope ← elements[4]?
  return { index := index, op := opcodeOf op, add := strip add, dep := .text (strip dep),
           tid := ← int (strip tid),
           scope := strip (scope.filter fun c => c ≠ '\'' ∧ c ≠ '\n') }

end Step1

/-- `threads[...] = int(...)` for one entry of the first line. -/
def readEntry (entry : Text) : Option (Text × Int) := do
  let key ← (entry.splitOn ':')[0]?
  let number ← (entry.splitOn ':')[1]?
  return (strip (key.filter (· ≠ '\'')), ← int (strip number))

/-- The entries that both passes read from the first line. -/
def readThreads (line : Text) : Option (List (Text × Int)) :=
  ((replace (lit "\x7d]") [] (replace (lit "Threads: [\x7b") [] line)).splitOn ',').mapM readEntry

/-- `line.strip("[]\n")`. -/
def stripLine (line : Text) : Text := stripWhile (fun c => c = '[' ∨ c = ']' ∨ c = '\n') line

/-- The loop over the lines, given what a pass does with a line and its number; the result has the
statements, the first line and the threads. -/
def readTrace {α : Type} (readLine : Text → Nat → Option α) (file : Text) :
    Option (List α × Text × List (Text × Int)) :=
  match Strings.lines (Strings.universal file) with
  | [] => some ([], [], [])
  | header :: rest => do
      let threads ← readThreads header
      let trace ← (rest.zipIdx 2).mapM fun line => readLine line.1 line.2
      return (trace, header, threads)

def Step1.parseTrace : Text → Option (List Row × Text × List (Text × Int)) :=
  readTrace fun line counter => Step1.parseTraceHelper ((stripLine line).splitOn ',') counter

/-- `str(stmt[1:])`. -/
def Row.str (printable : Char → Bool) (row : Row) : Text :=
  strList ((row.op.map digits).toList ++
    [repr printable row.add, row.dep.repr printable, decimal row.tid, repr printable row.scope])

/-- The file of step 1; the first line is passed on. -/
def step1File (printable : Char → Bool) (header : Text) (trace : List Row) : Text :=
  header ++ trace.flatMap fun row => row.str printable ++ ['\n']

/-- The flush that step 1 inserts for a store. -/
def Row.flush (row : Row) : Row :=
  { row with op := some 102, dep := .num (-1), scope := row.scope ++ lit "_x" }

/-- The fence that step 1 inserts for a store. -/
def Row.fence (row : Row) : Row :=
  { row with op := some 103, add := lit "0", dep := .num (-1), scope := row.scope ++ lit "_x" }

/-! ### Step 4 reads -/

/-- A statement of step 4; the thread stays a text. -/
structure ReadRow where
  index : Nat
  op : Int
  add : Text
  dep : Text
  tid : Text
  scope : Text
  deriving DecidableEq, Repr

namespace Step4

def parseTraceHelper (elements : List Text) (index : Nat) : Option ReadRow := do
  let op ← int (strip (← elements[0]?))
  let add ← elements[1]?
  let dep ← elements[2]?
  let tid ← elements[3]?
  let scope ← elements[4]?
  return { index := index, op := op, add := (strip add).filter (· ≠ '\''),
           dep := (strip dep).filter (· ≠ '\''), tid := strip tid,
           scope := strip (scope.filter (· ≠ '\'')) }

def parseTrace : Text → Option (List ReadRow × Text × List (Text × Int)) :=
  readTrace fun line counter =>
    parseTraceHelper (((stripLine line).filter (· ≠ '"')).splitOn ',') counter

end Step4

end PMBugRepair
