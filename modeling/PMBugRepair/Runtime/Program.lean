import PMBugRepair.Machine.Outputs
import PMBugRepair.Runtime.Entries
import PMBugRepair.Runtime.Pm

/-!
# The log of a program

All threads of a program together make a sequence of calls of the runtime: each one takes the lock
and is done before the next begins. Besides the calls that change the maps there are those that only
print, those of the pools, and those that count how often a function was left. The log has what the
calls print, each line with the thread that made the call.
-/

namespace PMBugRepair

open Strings (Text lit)

/-- The functions of `pm.cpp`. What the wrapped ones return is an argument. -/
inductive PmCall where
  | call (call : Call)
  | pmemobjCreate (pop poolsize : BitVec 64)
  | pmemCreate (pop poolsize : BitVec 64)
  | pmemobjOpen (pop poolSize : BitVec 64)
  | pobjAlloc
  | flush (ptr size : BitVec 64) (place : Place)
  | fence (place : Place)
  | transactionBegins (place : Place)
  | transactionCommits (place : Place)
  | dummyBegin
  | dummyEnd
  | funcBegin (func : BitVec 64) (name : Text)
  | funcEnd (func : BitVec 64) (name : Text)
  | simuSfence
  | simuFlushOpt (ptr len : BitVec 64)
  | simuFlush (ptr len : BitVec 64)
  | simuTXBegin
  | simuTXEnd
  | simuTXAdd (ptr : BitVec 64)
  deriving DecidableEq

/-- `FUNC_STACK` has pointers for keys. -/
structure Pm where
  rt : Runtime
  funcStack : OrderedMap Nat (BitVec 32)
  deriving DecidableEq

namespace Pm

def start : Pm := { rt := .start, funcStack := .empty }

def pmcInitialize (pm : Pm) : Pm :=
  if !pm.rt.myFlag then { rt := pm.rt.pmcInitialize, funcStack := .empty } else pm

/-- A pool is registered whether or not the runtime was initialized. -/
def registerPool (pm : Pm) (pop poolsize : BitVec 64) : Pm × List Entry :=
  let (rt, events) := pm.rt.register pop (pop + poolsize)
  ({ pm with rt := rt }, events.map .event)

def prints (pm : Pm) (entry : Entry) : Pm × List Entry :=
  (pm, if pm.rt.myFlag then [entry] else [])

def pmcFuncBegin (pm : Pm) (func : BitVec 64) (name : Text) : Pm × List Entry :=
  if pm.rt.myFlag then
    let stack := if (pm.funcStack.find? func.toNat).isNone then pm.funcStack.insert func.toNat 1
      else pm.funcStack
    ({ pm with funcStack := stack }, [.funcBegin name ((stack.find? func.toNat).getD 0)])
  else (pm, [])

def pmcFuncEnd (pm : Pm) (func : BitVec 64) (name : Text) : Pm × List Entry :=
  if pm.rt.myFlag then
    let depth := (pm.funcStack.find? func.toNat).getD 0
    ({ pm with funcStack := pm.funcStack.insert func.toNat (depth + 1) }, [.funcEnd name depth])
  else (pm, [])

def step (pm : Pm) : PmCall → Pm × List Entry
  | .call .pmcInitialize => (pm.pmcInitialize, [])
  | .call call =>
      let (rt, events) := pm.rt.step call
      ({ pm with rt := rt }, events.map .event)
  | .pmemobjCreate pop poolsize => pm.registerPool pop poolsize
  | .pmemCreate pop poolsize => pm.registerPool pop poolsize
  | .pmemobjOpen pop poolSize => pm.registerPool pop poolSize
  | .pobjAlloc => (pm, [])
  | .flush ptr size place => pm.prints (.event (.clflush ptr size place))
  | .fence place => pm.prints (.event (.sfence place))
  | .transactionBegins place => pm.prints (.event (.txBegins place))
  | .transactionCommits place => pm.prints (.event (.txCommits place))
  | .dummyBegin => (pm, [])
  | .dummyEnd => (pm, [])
  | .funcBegin func name => pm.pmcFuncBegin func name
  | .funcEnd func name => pm.pmcFuncEnd func name
  | .simuSfence => pm.prints .simuSfence
  | .simuFlushOpt ptr len => pm.prints (.simuFlush ptr len)
  | .simuFlush ptr len => pm.prints (.simuFlush ptr len)
  | .simuTXBegin => pm.prints .simuTXBegin
  | .simuTXEnd => pm.prints .simuTXEnd
  | .simuTXAdd ptr => pm.prints (.simuTXAdd ptr)

/-- A call by a thread. -/
def turn (pm : Pm) (call : BitVec 64 × PmCall) : Pm × List (BitVec 64 × Entry) :=
  ((pm.step call.2).1, (pm.step call.2).2.map (call.1, ·))

/-- The state after some calls. -/
def after (calls : List (BitVec 64 × PmCall)) : Pm := (Machine.run turn start calls).1

/-- What they print. -/
def log (calls : List (BitVec 64 × PmCall)) : List (BitVec 64 × Entry) :=
  (Machine.run turn start calls).2

@[simp] theorem after_nil : after [] = start := rfl

@[simp] theorem log_nil : log [] = [] := rfl

variable (calls : List (BitVec 64 × PmCall)) (call : BitVec 64 × PmCall)

theorem after_concat : after (calls ++ [call]) = ((after calls).step call.2).1 := by
  rw [after, Machine.run_concat]
  rfl

theorem log_concat :
    log (calls ++ [call]) = log calls ++ ((after calls).step call.2).2.map (call.1, ·) := by
  rw [log, Machine.run_concat]
  rfl

end Pm

/-! ### Steps

Most calls do not touch the dependences. -/

/-- The instruction whose access the line shows. -/
def Event.access : Event → Option (BitVec 32)
  | .store _ _ id _ => some id
  | .load _ _ id _ => some id
  | _ => none

def Entry.access : Entry → Option (BitVec 32)
  | .event e => e.access
  | _ => none

def Entry.isDep : Entry → Bool
  | .event (.dep ..) => true
  | _ => false

/-- The instructions whose accesses the log shows. -/
def accesses (log : List (BitVec 64 × Entry)) : List (BitVec 32) :=
  log.filterMap fun line => line.2.access

@[simp] theorem accesses_append (log more : List (BitVec 64 × Entry)) :
    accesses (log ++ more) = accesses log ++ accesses more := List.filterMap_append

/-- The instruction of an access to this address, and its line. -/
def PmCall.access : PmCall → Option (BitVec 32 × Event × BitVec 64 × BitVec 32)
  | .call (.printStoreAddr addr size id place) => some (id, .store addr size id place, addr, size)
  | .call (.printLoadAddr addr size id place) => some (id, .load addr size id place, addr, size)
  | _ => none

namespace Runtime

/-- The sources of the `DEP` lines behind a printed access. -/
def sources (rt : Runtime) (id : BitVec 32) : List (BitVec 32) :=
  rt.deps.entries.filterMap fun p =>
    if p.1 ∈ rt.traceIds ∧ id.toInt ∈ p.2 then some (.ofInt 32 p.1) else none

theorem depLines_eq (rt : Runtime) (id : BitVec 32) :
    rt.depLines id = (rt.sources id).map (.dep · id) := by
  rw [depLines, sources, List.map_filterMap]
  refine List.filterMap_congr fun p _ => ?_
  split <;> rfl

/-- The state while an access is printed. -/
def trace (rt : Runtime) (id : BitVec 32) : Runtime :=
  { rt with traceIds := insert id.toInt rt.traceIds }

/-- The line of the access with its `DEP` lines. -/
def block (rt : Runtime) (event : Event) (id : BitVec 32) : List Event :=
  event :: ((rt.trace id).sources id).map (.dep · id)

/-- The test of the loop over the ranges. -/
def inRange (addr : BitVec 64) (size : BitVec 32) (pair : Int × Int) : Bool :=
  addr.toInt ≥ pair.1 ∧ addr.toInt + size.toInt ≤ pair.2

theorem trace_trace (rt : Runtime) (id : BitVec 32) : (rt.trace id).trace id = rt.trace id := by
  simp [trace]

/-- An access is printed once for every range that holds it, each time with the same sources. -/
theorem accessLoop_eq (event : Event) (addr : BitVec 64) (size id : BitVec 32)
    (entries : List (Int × Int)) (rt : Runtime) :
    accessLoop event addr size id entries rt =
      (if entries.any (inRange addr size) then rt.trace id else rt,
      (List.replicate (entries.countP (inRange addr size)) (rt.block event id)).flatten) := by
  -- once one range was found, the number is there
  have htraced : ∀ entries, accessLoop event addr size id entries (rt.trace id) = (rt.trace id,
      (List.replicate (entries.countP (inRange addr size)) (rt.block event id)).flatten) := by
    intro entries
    induction entries with
    | nil => rfl
    | cons pair rest ih =>
        rw [accessLoop, List.countP_cons]
        split
        · rename_i hhit
          have hrange : inRange addr size pair = true := decide_eq_true hhit
          have htrace : ({ rt.trace id with
              traceIds := insert id.toInt (rt.trace id).traceIds } : Runtime) = rt.trace id :=
            rt.trace_trace id
          simp only [htrace, ih, hrange, if_true, List.replicate_succ, List.flatten_cons,
            depLines_eq, block, List.cons_append]
        · rename_i hmiss
          have hrange : inRange addr size pair = false := decide_eq_false hmiss
          rw [ih, hrange]
          rfl
  induction entries with
  | nil => rfl
  | cons pair rest ih =>
      rw [accessLoop, List.countP_cons, List.any_cons]
      split
      · rename_i hhit
        have hrange : inRange addr size pair = true := decide_eq_true hhit
        have hloop := htraced rest
        rw [trace] at hloop
        simp only [hloop, hrange, Bool.true_or, if_true, List.replicate_succ, List.flatten_cons,
          depLines_eq, block, List.cons_append, trace]
      · rename_i hmiss
        have hrange : inRange addr size pair = false := decide_eq_false hmiss
        rw [ih, hrange]
        rfl

end Runtime

end PMBugRepair
