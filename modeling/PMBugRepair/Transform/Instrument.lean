import PMBugRepair.Runtime.Pm
import PMBugRepair.Weaving.Runs

/-!
# `PMTraceGen`

The pass numbers the instructions of a function and inserts calls of the runtime in front of them:
for flushes, fences and transactions, for loads and stores, and at the begin and the end. Each of
its loops goes over all blocks and inserts in front of the instruction that it has come to, so it
meets what the loops before it have inserted. `none` is a failed assertion.
-/

namespace PMBugRepair.PMTraceGen

open Strings (Text lit)

/-! ### Functions -/

structure DebugLoc where
  line : BitVec 32
  col : BitVec 32
  /-- The name of the subprogram of its scope. -/
  subprogram : Text
  deriving DecidableEq

/-- A value of the function. `bits` is the width of an integer. -/
inductive Operand where
  | globalVariable (name : Text)
  | constant (bits : Option Nat) (value : Int)
  | named (name : Option Text) (bits : Option Nat) (value : Nat)
  /-- What the pass has converted to 64 bits. -/
  | cast (operand : Operand)
  deriving DecidableEq

namespace Operand

def bits : Operand → Option Nat
  | globalVariable _ => none
  | constant bits _ => bits
  | named _ bits _ => bits
  | cast _ => some 64

def name : Operand → Option Text
  | globalVariable name => some name
  | named name _ _ => name
  | _ => none

/-- The builder folds conversions of constants. -/
def isConstant : Operand → Bool
  | globalVariable _ => true
  | constant _ _ => true
  | _ => false

end Operand

/-- The last arguments of most calls. A null pointer stands for no scope. -/
structure Site where
  line : BitVec 32
  col : BitVec 32
  scope : Option Text
  deriving DecidableEq

/-- The calls that the pass inserts. -/
inductive RuntimeCall where
  | pmcInitialize
  | depAdd (id1 id2 : BitVec 32)
  | dummyBegin
  | dummyEnd
  | funcBegin (func : Option Text)
  | funcEnd (func : Option Text)
  | flush (ptr len : Operand) (site : Site)
  | fence (site : Site)
  | transactionBegins (site : Site)
  | transactionCommits (site : Site)
  | printStoreAddr (addr : Operand) (size id : BitVec 32) (site : Site)
  | printLoadAddr (addr : Operand) (size id : BitVec 32) (site : Site)
  deriving DecidableEq

def RuntimeCall.name : RuntimeCall → Text
  | pmcInitialize => lit "__pmc_Initialize"
  | depAdd .. => lit "__pmc_depAdd"
  | dummyBegin => lit "__pmc_dummy_begin"
  | dummyEnd => lit "__pmc_dummy_end"
  | funcBegin _ => lit "__pmc_funcBegin"
  | funcEnd _ => lit "__pmc_funcEnd"
  | flush .. => lit "__flush"
  | fence _ => lit "__fence"
  | transactionBegins _ => lit "__transactionBegins"
  | transactionCommits _ => lit "__transactionCommits"
  | printStoreAddr .. => lit "__pmc_printStoreAddr"
  | printLoadAddr .. => lit "__pmc_printLoadAddr"

/-- `size` is the store size of the type behind the pointer. A call has no callee when it is
indirect. -/
inductive Kind where
  | load (pointer : Operand) (size : BitVec 32)
  | store (pointer : Operand) (size : BitVec 32)
  | call (callee : Option Text) (args : List Operand)
  | invoke (callee : Option Text)
  | runtime (call : RuntimeCall)
  | cast (operand : Operand)
  | br (label : Nat)
  | terminator
  | other
  deriving DecidableEq

/-- `uniqueID` and `functionName` are the metadata `__PMC_UniqueID` and `__PMC_FunctionName`. -/
structure Instruction where
  kind : Kind
  debugLoc : Option DebugLoc
  uniqueID : Option (BitVec 32)
  functionName : Option Text
  deriving DecidableEq

namespace Instruction

/-- The name of the function that a `CallInst` calls directly. -/
def callee (i : Instruction) : Option Text :=
  match i.kind with
  | .call callee _ => callee
  | .runtime call => some call.name
  | _ => none

def isCall (i : Instruction) : Bool :=
  match i.kind with
  | .call .. => true
  | .runtime _ => true
  | _ => false

def args (i : Instruction) : List Operand :=
  match i.kind with
  | .call _ args => args
  | _ => []

def isTerminator (i : Instruction) : Bool :=
  match i.kind with
  | .invoke _ => true
  | .br _ => true
  | .terminator => true
  | _ => false

/-- `InstToIDMap[&i]`: the map holds the number of every instruction that has the metadata. -/
def instToID (i : Instruction) : BitVec 32 := i.uniqueID.getD 0

/-- `InstToSubProgramName[&i]`: the map was filled before any call was inserted, and the two dummies
have no debug location. -/
def instToSubProgramName (i : Instruction) : Text :=
  if i.uniqueID.isSome then (i.debugLoc.map DebugLoc.subprogram).getD [] else []

end Instruction

structure BasicBlock where
  label : Nat
  insts : List Instruction
  deriving DecidableEq

/-- `filename` is the one of the subprogram, if there is debug information. -/
structure IRFunction where
  name : Text
  filename : Option Text
  blocks : List BasicBlock
  deriving DecidableEq

/-! ### Insertion -/

section Insertion

/-- A call that the builder puts in front of `i`; it gets the debug location of `i`. -/
def callAt (i : Instruction) (call : RuntimeCall) : Instruction :=
  { kind := .runtime call, debugLoc := i.debugLoc, uniqueID := none, functionName := none }

def castAt (i : Instruction) (operand : Operand) : List Instruction :=
  if operand.isConstant then []
  else [{ kind := .cast operand, debugLoc := i.debugLoc, uniqueID := none, functionName := none }]

def getOrCreateGlobalStringPtr (name : Text) : Option Text :=
  if name = [] ∨ name.head? = some '\x00' then none else some name

def site (i : Instruction) : Site :=
  { line := (i.debugLoc.map DebugLoc.line).getD 0, col := (i.debugLoc.map DebugLoc.col).getD 0,
    scope := getOrCreateGlobalStringPtr i.instToSubProgramName }

/-- The loops over all instructions, given what they insert in front of one. -/
def insertBefore (before : Instruction → Option (List Instruction)) (blocks : List BasicBlock) :
    Option (List BasicBlock) :=
  blocks.mapM fun block => do
    let parts ← block.insts.mapM fun i => do return (← before i) ++ [i]
    return { block with insts := parts.flatten }

/-- The flush of the arguments `data` and `len` of a call. A length of 64 bits is passed on, a
shorter one is extended. -/
def flushCall (i : Instruction) (data len : Nat) : Option (List Instruction) := do
  let argData ← i.args[data]?
  let argLen ← i.args[len]?
  let bitWidth ← argLen.bits
  if bitWidth = 64 then return [callAt i (.flush argData argLen (site i))]
  else if bitWidth < 64 then
    return castAt i argLen ++ [callAt i (.flush argData (.cast argLen) (site i))]
  else none

def insertFlush (i : Instruction) : Option (List Instruction) :=
  match i.callee with
  | none => some []
  | some name =>
      if (lit "clflush" <:+: name ∨ lit "simuFlushOpt" <:+: name) ∧
          ¬lit "clflush_new_hashtable" <:+: name then flushCall i 0 1
      else if lit "pmem_persist" <:+: name ∨ lit "pmem_flush" <:+: name then do
        return (← flushCall i 0 1) ++ [callAt i (.fence (site i))]
      else if lit "pmemobj_persist" <:+: name then do
        return (← flushCall i 1 2) ++ [callAt i (.fence (site i))]
      else some []

/-- `parent` is the name of the function that the call stands in. -/
def insertFence (parent : Text) (i : Instruction) : Option (List Instruction) :=
  match i.callee with
  | none => some []
  | some name =>
      if lit "fence" <:+: name ∧ ¬lit "clflush" <:+: parent then
        some [callAt i (.fence (site i))]
      else some []

def transactionCalls (i : Instruction) : Option Text → Option (List Instruction)
  | none => some []
  | some name =>
      if lit "pmemobj_tx_begin" <:+: name then some [callAt i (.transactionBegins (site i))]
      else if lit "pmemobj_tx_commit" <:+: name then some [callAt i (.transactionCommits (site i))]
      else some []

/-- Invokes are looked at here, too. -/
def insertTransactions (i : Instruction) : Option (List Instruction) :=
  transactionCalls i (match i.kind with
    | .invoke callee => callee
    | _ => i.callee)

/-- `visitLoadInst`, `visitStoreInst` and `InstruAddr`. -/
def visit (i : Instruction) : Option (List Instruction) :=
  match i.kind with
  | .load pointer size =>
      match pointer with
      | .globalVariable _ => some []
      | _ =>
          if ∃ name ∈ pointer.name,
              lit "pmem_calloc" <:+: name ∨ lit "pmem_free" <:+: name then none
          else some (castAt i pointer ++
            [callAt i (.printLoadAddr (.cast pointer) size i.instToID (site i))])
  | .store pointer size =>
      if pointer = .globalVariable (lit "Inst_Counter") then some []
      else some (castAt i pointer ++
        [callAt i (.printStoreAddr (.cast pointer) size i.instToID (site i))])
  | _ => some []

def insertFuncBeginEnd (i : Instruction) : Option (List Instruction) :=
  match i.functionName with
  | none => some []
  | some func =>
      if i.isCall then do
        let name ← i.callee
        if name = lit "__pmc_dummy_begin" then
          return [callAt i (.funcBegin (getOrCreateGlobalStringPtr func))]
        else return [callAt i (.funcEnd (getOrCreateGlobalStringPtr func))]
      else some []

end Insertion

/-! ### The pass -/

/-- The blocks with consecutive numbers, and the next number. The metadata has 32 bits. -/
def setInstUniqueID : Nat → List BasicBlock → List BasicBlock × Nat
  | uniqueID, [] => ([], uniqueID)
  | uniqueID, block :: blocks =>
      let insts := (block.insts.zipIdx uniqueID).map fun entry =>
        { entry.1 with uniqueID := some (.ofNat 32 entry.2) }
      let (rest, next) := setInstUniqueID (uniqueID + block.insts.length) blocks
      ({ block with insts := insts } :: rest, next)

def dummy (func : Text) (call : RuntimeCall) : Instruction :=
  { kind := .runtime call, debugLoc := none, uniqueID := none, functionName := some func }

/-- In front of the terminator, or at the end of a block without one. -/
def insertAtEnd (i : Instruction) (insts : List Instruction) : List Instruction :=
  match insts.getLast? with
  | some last => if last.isTerminator then insts.dropLast ++ [i, last] else insts ++ [i]
  | none => [i]

def insertDummyEnd (func : Text) : List BasicBlock → List BasicBlock
  | [] => []
  | [last] => [{ last with insts := insertAtEnd (dummy func .dummyEnd) last.insts }]
  | block :: next :: rest => block :: insertDummyEnd func (next :: rest)

/-- The first block begins with one dummy, the last one ends with the other. -/
def insertDummyBeginEnd (func : Text) (blocks : List BasicBlock) : List BasicBlock :=
  insertDummyEnd func (blocks.modifyHead fun block =>
    { block with insts := dummy func .dummyBegin :: block.insts })

/-- A label that no block has. -/
def freshLabel (blocks : List BasicBlock) : Nat := (blocks.map BasicBlock.label).sum + 1

/-- Some calls and a branch. -/
def entryBlock (calls : List RuntimeCall) (label next : Nat) : BasicBlock :=
  { label := label
    insts := (calls.map Kind.runtime ++ [Kind.br next]).map fun kind =>
      { kind := kind, debugLoc := none, uniqueID := none, functionName := none } }

/-- A new first block, which goes on to the old one. -/
def newEntry (calls : List RuntimeCall) (blocks : List BasicBlock) : List BasicBlock :=
  match blocks with
  | [] => []
  | first :: _ => entryBlock calls (freshLabel blocks) first.label :: blocks

/-- What the analysis has found: every instruction with the instructions it depends on. -/
abbrev DepMap := List (Instruction × List Instruction)

/-- The arguments of the calls of `InstruDepMap`. -/
def depCalls (deps : DepMap) : List RuntimeCall :=
  deps.flatMap fun pair => pair.2.map fun i => .depAdd i.instToID pair.1.instToID

/-- The functions that the pass leaves alone. -/
def skipped (f : IRFunction) : Prop :=
  f.filename = none ∨ (∃ filename ∈ f.filename, lit "c++" <:+: filename) ∨
    lit "_GLOBAL__sub_I" <:+: f.name ∨ lit "__cxx_global_var_init" <:+: f.name

instance (f : IRFunction) : Decidable (skipped f) := inferInstanceAs (Decidable (_ ∨ _))

/-- The loops that make a function's blocks ready for the analysis. -/
def prepare (f : IRFunction) (blocks : List BasicBlock) : Option (List BasicBlock) := do
  let blocks ← insertBefore insertFlush (insertDummyBeginEnd f.name blocks)
  let blocks ← insertBefore (insertFence f.name) blocks
  insertBefore insertTransactions blocks

/-- The function, whether it has changed, and the next number. The two maps come from
`PMDependency`, which runs on the prepared function. -/
def runOnFunction (uniqueID : Nat) (memoryControlDepMap dataDepMap : DepMap) (f : IRFunction) :
    Option (IRFunction × Bool × Nat) :=
  if skipped f then some (f, false, uniqueID)
  else do
    let (blocks, next) := setInstUniqueID uniqueID f.blocks
    let blocks ← prepare f blocks
    let blocks := newEntry (depCalls memoryControlDepMap ++ depCalls dataDepMap) blocks
    let blocks := if f.name = lit "main" then newEntry [.pmcInitialize] blocks else blocks
    let blocks ← insertBefore visit blocks
    let blocks ← insertBefore insertFuncBeginEnd blocks
    return ({ f with blocks := blocks }, true, next)

end PMBugRepair.PMTraceGen
