import PMBugRepair.Step1.Dura
import PMBugRepair.Smt.Enumeration

/-!
# `repairMPB`

For a bug `pt_a < pt_b` the pass appends a fence if fewer than two stand behind `b`, and then lets
the solver place every statement of the thread anew. A first loop collects, as blocking clauses, the
relative orders of the two stores and the fences behind `b` under which the bug can still happen; a
model of what is left gives the repaired thread. `none` is an exception of the Python code.
-/

namespace PMBugRepair

open Smt (Formula Term Model Solver Satisfies blockLoop)

/-! ### The appended fence -/

/-- The statements behind the first store `b`. -/
def behindStore (b : Id) : Trace → Option Trace
  | [] => none
  | stmt :: rest => if stmt.op = .store ∧ stmt.id = b then some rest else behindStore b rest

/-- Lines 193-214 from some index on: does a store `a` precede a store `b`, and which fences are
appended, numbered from `r`. -/
def mpbFences (a b : Id) : Trace → Nat → Bool × Trace
  | [], _ => (false, [])
  | stmt :: rest, r =>
      if stmt.op = .store ∧ stmt.id = a then
        match behindStore b rest with
        | some tail =>
            if tail.countP Stmt.isFence < 2 then
              let fence := insertedStmt stmt (.insertedFence stmt.id r) .fence "0"
              (true, fence :: (mpbFences a b rest (r + 1)).2)
            else (true, (mpbFences a b rest r).2)
        | none => mpbFences a b rest r
      else mpbFences a b rest r

/-! ### The constraints -/

/-- Lines 226 and 247-277 for one statement, `rest` being the statements behind it. -/
def stmtConstraints (length : Nat) (a b : Id) (stmt : Stmt) (rest : Trace) : List (Formula Var) :=
  [.lt (.const 0) (pc stmt), .lt (pc stmt) (.const (length + 1))] ++
    if stmt.op = .store then
      (match rest.find? Stmt.isStore with
        | some next => [.lt (pc stmt) (pc next)]
        | none => []) ++
      [.le (pc stmt) (pt stmt)] ++
      if stmt.id = a ∨ stmt.id = b then
        (rest.filter Stmt.isFence).map fun fence =>
          .imp (.lt (pc stmt) (pc fence)) (.le (pt stmt) (pc fence))
      else []
    else []

def threadConstraints (length : Nat) (a b : Id) : Trace → List (Formula Var)
  | [] => []
  | stmt :: rest => stmtConstraints length a b stmt rest ++ threadConstraints length a b rest

/-- The `(store, fence)` pairs of lines 264-270 behind a store `a`: for every later store `b`, both
stores with every fence behind `b`. -/
def blockingBehind (first : Stmt) (b : Id) : Trace → List (Stmt × Stmt)
  | [] => []
  | stmt :: rest =>
      (if stmt.op = .store ∧ stmt.id = b then
        (rest.filter Stmt.isFence).flatMap fun fence => [(first, fence), (stmt, fence)]
      else []) ++ blockingBehind first b rest

def blocking (a b : Id) : Trace → List (Stmt × Stmt)
  | [] => []
  | stmt :: rest =>
      (if stmt.op = .store ∧ stmt.id = a then blockingBehind stmt b rest else []) ++
        blocking a b rest

/-- `thread[-k]`. -/
def fromEnd (thread : Trace) (k : Nat) : Option Stmt := thread.reverse[k - 1]?

/-- How far behind index `i` the next `tx_commit` stands. -/
def commitOffset (thread : Trace) (i : Nat) : Option Nat :=
  (thread.drop (i + 1)).findIdx? fun stmt => stmt.op == .txCommit

/-- `thread[commit]`; an open transaction has `commit = -1`. -/
def commitOf (thread : Trace) (i : Nat) : Option Stmt :=
  match commitOffset thread i with
  | some k => thread[i + 1 + k]?
  | none => fromEnd thread 1

/-- `thread[commit - 1]`. -/
def beforeCommit (thread : Trace) (i : Nat) : Option Stmt :=
  match commitOffset thread i with
  | some k => thread[i + k]?
  | none => fromEnd thread 2

/-- `thread[i+1:commit]`, which is empty for an open transaction. -/
def insideOf (thread : Trace) (i : Nat) : Trace :=
  match commitOffset thread i with
  | some k => (thread.drop (i + 1)).take k
  | none => []

/-- Lines 228-245 for the `tx_begin` at index `i`; at the end of the thread they raise an
exception. -/
def beginConstraints (thread : Trace) (i : Nat) (begin : Stmt) : Option (List (Formula Var)) := do
  let next ← thread[i + 1]?
  let commit ← commitOf thread i
  let last ← beforeCommit thread i
  let others := thread.filter fun stmt =>
    (stmt.op == .txBegin && stmt.id != begin.id) || (stmt.op == .txCommit && stmt.id != commit.id)
  return [.lt (pc begin) (pc commit), .eq (.add (pc begin) (.const 1)) (pc next),
      .eq (.add (pc last) (.const 1)) (pc commit)] ++
    ((insideOf thread i).flatMap fun stmt =>
      [.lt (pc begin) (pc stmt), .lt (pc stmt) (pc commit)]) ++
    others.map fun stmt => .any [.lt (pc stmt) (pc begin), .lt (pc commit) (pc stmt)]

/-- The list `transactCons` of `repairMPB`. -/
def transactionConstraints (thread : Trace) : Option (List (Formula Var)) := do
  let parts ← (thread.zipIdx.filter fun entry => entry.1.op == .txBegin).mapM fun entry =>
    beginConstraints thread entry.2 entry.1
  return parts.flatten

/-! ### Solving -/

/-- The value of `pc_<id>` in a model, zero when the model does not mention it. -/
def modelPc (m : Model Var) (stmt : Stmt) : Int := m.completion (.pc stmt.id)

def constructConstraint (first second : Stmt) (m : Model Var) : Formula Var :=
  if modelPc m first < modelPc m second then .lt (pc first) (pc second)
  else .lt (pc second) (pc first)

/-- The sign pattern of a model over the blocking pairs. -/
def pattern (pairs : List (Stmt × Stmt)) (m : Model Var) : List (Formula Var) :=
  pairs.map fun pair => constructConstraint pair.1 pair.2 m

/-- `map["pc_<id>"]`: the last statement with that number. -/
def lookup (thread : Trace) (id : Id) : Option Stmt := thread.reverse.find? (·.id = id)

/-- The numbers whose `pc` has value `i`, in the order of the model. -/
def placedAt (m : Model Var) (i : Nat) : List Id :=
  m.decls.filterMap fun
    | .pc id => if m.val (.pc id) = i then some id else none
    | .pt _ => none

def printer (m : Model Var) (thread : Trace) : Option Trace :=
  ((List.range' 1 (thread.map Stmt.id).dedup.length).flatMap (placedAt m)).mapM (lookup thread)

/-- The assertions of both solvers of `repairMPB` before the bug is added. -/
def mpbAssertions (thread : Trace) (a b : Id) (previous transact : List (Formula Var)) :
    List (Formula Var) :=
  threadConstraints thread.length a b thread ++ previous ++ transact ++
    [.distinct (thread.map pc)]

/-- Lines 306-352 on the thread with its appended fence. -/
def solveMPB (z : Solver Var) (g : Globals) (thread : Trace) (a b : Id)
    (previous transact : List (Formula Var)) : Option Repair := do
  let assertions := mpbAssertions thread a b previous transact
  let pairs := blocking a b thread
  let sais ← blockLoop z (pattern pairs) (2 ^ pairs.length + 1)
    (assertions ++ [.not (Bug.mpb a b).formula])
  let g := { g with numSolverCalls := g.numSolverCalls + sais.length + 1 }
  let simplified := z.simplify (.all sais)
  if sais = [] ∨ simplified.isFalse ∨ simplified.printsNotAnd then
    return { thread := thread, constraints := transact, bugFlag := false, globals := g }
  else
    match z.check (assertions ++ [simplified]) with
    | none =>
        return { thread := thread, constraints := transact, bugFlag := false, globals := g }
    | some m =>
        return { thread := ← printer m thread, constraints := transact, bugFlag := true,
                 globals := g }

def repairMPB (z : Solver Var) (g : Globals) (thread : Trace) (a b : Id)
    (previous : List (Formula Var)) : Option Repair := do
  let (found, fences) := mpbFences a b thread g.r
  let thread := thread ++ fences
  let g := { g with r := g.r + fences.length, numFence := g.numFence + fences.length }
  let transact ← transactionConstraints thread
  if thread = [] then none
  else if !found then
    return { thread := thread, constraints := transact, bugFlag := false, globals := g }
  else solveMPB z g thread a b previous transact

end PMBugRepair
