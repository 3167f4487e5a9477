import PMBugRepair.Step4.Append
import PMBugRepair.Helpers

/-!
# `addLocks`

The constraints describe the executions of a trace: every thread in its own order, lock sections one
after the other, and a store persistent at the latest when the next fence of its thread executes.
The solver is asked for an execution in which one of the bugs happens. If there is one, the first
bug that happens in it is repaired.
-/

namespace PMBugRepair

open Smt (Formula Term Model Solver Satisfies satisfies_append satisfies_cons satisfies_nil)

/-- `And(pc_w < pc_r, pt_w > pc_r)`. -/
def Mpa.formula (bug : Mpa) : Formula Var :=
  .all [.lt (pc bug.w) (pc bug.r), .lt (pc bug.r) (pt bug.w)]

@[simp] theorem Mpa.holds_formula {bug : Mpa} {σ : Var → Int} :
    bug.formula.Holds σ ↔
      σ (.pc bug.w.id) < σ (.pc bug.r.id) ∧ σ (.pc bug.r.id) < σ (.pt bug.w.id) := by
  simp [formula]

/-! ### The constraints -/

/-- Lines 392-400 from some index on; `previous` is `trace[i-1]`. -/
def insideConstraints (previous : Stmt) (locked : Bool) : Trace → List (Formula Var)
  | [] => []
  | x :: rest =>
      if x.op = .lock then insideConstraints x true rest
      else if x.op = .unlock then .lt (pc previous) (pc x) :: insideConstraints x false rest
      else if locked then .lt (pc previous) (pc x) :: insideConstraints x locked rest
      else insideConstraints x locked rest

def threadOrder : Trace → List (Formula Var)
  | x :: y :: rest => .lt (pc x) (pc y) :: threadOrder (y :: rest)
  | _ => []

/-- `"UnLock_" + lock.split("_")[1]`. A row of the input is numbered by its line, and there this
raises an exception. -/
def unlockOf : Id → Option Id
  | .lock k => some (.unlock k)
  | _ => none

/-- `Or(c1, c2)`: the other section ends before this one starts, or the other way round. -/
def apart (lock unlock lock' unlock' : Id) : Formula Var :=
  .any [.all [.lt (.var (.pc lock')) (.var (.pc lock)), .lt (.var (.pc unlock')) (.var (.pc lock))],
    .all [.lt (.var (.pc unlock)) (.var (.pc lock')), .lt (.var (.pc unlock)) (.var (.pc unlock'))]]

/-- Lines 436-449 for one lock. -/
def sectionConstraints (trace : Trace) (lock : Stmt) : Option (List (Formula Var)) := do
  let unlock ← unlockOf lock.id
  let others ← (trace.filter fun x => x.op = .lock ∧ x.id ≠ lock.id).mapM fun x =>
    (unlockOf x.id).map fun unlock' => apart lock.id unlock x.id unlock'
  return .lt (.var (.pc lock.id)) (.var (.pc unlock)) :: others

/-- The first fence behind a store in its own thread. -/
def nextFence (store : Stmt) (rest : Trace) : Option Stmt :=
  rest.find? fun x => x.op = .fence ∧ x.tid = store.tid

/-- Lines 417-434 for one statement, `rest` being the statements behind it. -/
def timeConstraints (length : Nat) (x : Stmt) (rest : Trace) : List (Formula Var) :=
  [.lt (.const 0) (pc x), .lt (pc x) (.const (length + 1))] ++
    if x.op = .store then
      .le (pc x) (pt x) ::
        match nextFence x rest with
        | some fence => [.le (pt x) (pc fence)]
        | none => []
    else []

def rowConstraints (trace : Trace) : Trace → Option (List (Formula Var))
  | [] => some []
  | x :: rest => do
      let sections ← (if x.op = .lock then sectionConstraints trace x else some [])
      let later ← rowConstraints trace rest
      return timeConstraints trace.length x rest ++ sections ++ later

/-- The list `cons` of `addLocks`. -/
def lockConstraints (trace : Trace) : Option (List (Formula Var)) := do
  let rows ← rowConstraints trace trace
  let inside :=
    match trace.getLast? with
    | some last => insideConstraints last false trace.dropLast
    | none => []
  return inside ++ (getIndividualThreads trace).flatMap threadOrder ++ rows

/-! ### The pass -/

/-- The trace, whether a bug was repaired, and the globals. -/
def addLocks (z : Solver Var) (g : LockGlobals) (trace : Trace) (reads writes : List Id)
    (transactCons : List (Formula Var)) (bugs : List Mpa) :
    Option (Trace × Bool × LockGlobals) := do
  let cons ← lockConstraints trace
  let g := { g with numSolverCalls := g.numSolverCalls + 1 }
  match z.check (transactCons ++ cons ++ [.any (bugs.map Mpa.formula)]) with
  | none => return (trace, false, g)
  | some model =>
      match bugs.find? fun bug => bug.formula.Holds model.completion with
      | none => return (trace, false, g)
      | some bug =>
          let (trace, g) ← appendTraceWithLocks g trace bug writes reads
          return (trace, true, g)

/-- The constraint that is repaired: the first bug that happens in the model. -/
def consToRepair (z : Solver Var) (trace : Trace) (transactCons : List (Formula Var))
    (bugs : List Mpa) : Option Mpa := do
  let cons ← lockConstraints trace
  let model ← z.check (transactCons ++ cons ++ [.any (bugs.map Mpa.formula)])
  bugs.find? fun bug => bug.formula.Holds model.completion

end PMBugRepair
