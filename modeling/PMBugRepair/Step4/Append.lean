import PMBugRepair.Trace

/-!
# `appendTraceWithLocks`

An MPA bug `And(pc_w < pc_r, pt_w > pc_r)` is repaired by putting both of its stores into lock
sections. The pass writes a new trace in up to three copying loops, one for the store with the
smaller line number, one for the other, and one for what is left. They hand over an index into the
old trace, here the statements from that index on. A loop `while i < len(trace) - 1` runs over all
statements but the last.
-/

namespace PMBugRepair

/-- The module-level variables of step 4. -/
structure LockGlobals where
  r : Nat
  numLocks : Int
  numFence : Nat
  lockedReads : List Id
  lockedWrites : List Id
  numSolverCalls : Nat

def LockGlobals.start : LockGlobals :=
  { r := 0, numLocks := 0, numFence := 0, lockedReads := [], lockedWrites := [],
    numSolverCalls := 0 }

/-- A bug with its rows: the writer `w` and the reader `r`, both stores. -/
structure Mpa where
  w : Stmt
  r : Stmt
  deriving DecidableEq, Repr

/-- `int(stmt[0])`; the stores of a trace are numbered by their lines. -/
def Id.lineNo : Id → Nat
  | .line n => n
  | _ => 0

/-- The store with the smaller line number, after the swap of lines 83-85. -/
def Mpa.first (bug : Mpa) : Stmt := if bug.r.id.lineNo < bug.w.id.lineNo then bug.r else bug.w

def Mpa.second (bug : Mpa) : Stmt := if bug.r.id.lineNo < bug.w.id.lineNo then bug.w else bug.r

/-! ### Locks that are already there -/

/-- Which of the two stores stand in a lock section: `lockedWrite` and `lockedRead` are different
from `-1`. -/
structure Held where
  write : Bool
  read : Bool
  deriving DecidableEq, Repr

/-- Lines 95-126. A store inside a transaction does not count as held. -/
def heldScan (first second : Id) (transact locked : Bool) (held : Held) : Trace → Held
  | [] => held
  | x :: rest =>
      if x.op = .txBegin then heldScan first second true locked held rest
      else if x.op = .txCommit then heldScan first second false locked held rest
      else if x.op = .lock then heldScan first second transact true held rest
      else if x.op = .unlock then heldScan first second transact false held rest
      else if (x.id = first ∨ x.id = second) ∧ transact then
        heldScan first second transact locked held rest
      else if x.id = first ∧ locked then
        heldScan first second transact locked { held with write := true } rest
      else if x.id = second ∧ locked then
        heldScan first second transact locked { held with read := true } rest
      else heldScan first second transact locked held rest

/-- Lines 129-138: the index of a lock that is open at both stores. -/
def findCommon (first second : Id) (i : Nat) (current common : Option Nat) : Trace → Option Nat
  | [] => none
  | x :: rest =>
      let current := if x.op = .lock then some i else current
      let common := if x.id = first then current else common
      let current := if x.op = .unlock then none else current
      if x.id = second ∧ current = common ∧ common ≠ none then common
      else findCommon first second (i + 1) current common rest

/-- Lines 149-158: drop the lock at an index and the next unlock. -/
def removeCommon (trace : Trace) (k : Nat) : Trace :=
  let unlocked :=
    match (trace.drop k).find? (·.op = .unlock) with
    | some unlock => trace.erase unlock
    | none => trace
  match (trace.drop k).head? with
  | some lock => unlocked.erase lock
  | none => unlocked

def LockGlobals.release (g : LockGlobals) (first second : Id) : LockGlobals :=
  { g with
    lockedReads := (g.lockedReads.erase first).erase second
    lockedWrites := (g.lockedWrites.erase first).erase second
    numLocks := g.numLocks - 1 }

/-- Lines 86-161: the trace, the held stores and the globals from which the copying starts. -/
def prepare (g : LockGlobals) (trace : Trace) (bug : Mpa) : Trace × Held × LockGlobals :=
  match findCommon bug.first.id bug.second.id 0 none none trace with
  | some k => (removeCommon trace k, ⟨false, false⟩, g.release bug.first.id bug.second.id)
  | none => (trace, heldScan bug.first.id bug.second.id false false ⟨false, false⟩ trace, g)

/-! ### A new section -/

structure LockSection where
  lock : Stmt
  unlock : Stmt
  fence : Stmt

def LockSection.new (store : Stmt) (r : Nat) : LockSection :=
  { lock := insertedStmt store (.lock r) .lock "M1"
    unlock := insertedStmt store (.unlock r) .unlock "M1"
    fence := insertedStmt store (.fenceLock r) .fence "0" }

/-- Why a section ends at a statement: a fence is added before it, or it is a fence itself. -/
inductive Closing where
  | newFence
  | ownFence
  deriving DecidableEq, Repr

/-- Does a statement end the section that starts at `found`? Another thread, the other store or
another lock, another scope, or a fence. -/
def closing (other : Id) (found x : Stmt) : Option Closing :=
  if x.tid ≠ found.tid then some .newFence
  else if x.id = other ∨ x.op = .lock then some .newFence
  else if (scopeParts found.scope).dropLast ≠ (scopeParts x.scope).dropLast then some .newFence
  else if x.op = .fence then some .ownFence
  else none

/-- What a loop copies, and from where the next one resumes if it says so. -/
structure Copied where
  out : Trace
  resume : Option Trace
  globals : LockGlobals

def Copied.after (head : Trace) (c : Copied) : Copied := { c with out := head ++ c.out }

/-- The loop inside a section. A store of the thread is noted in `lockedWrites` when it is one of
the candidates. -/
def insideLoop (own other : Id) (sec : LockSection) (candidates : List Id) (found : Stmt)
    (g : LockGlobals) : Trace → Copied
  | [] => ⟨[], none, g⟩
  | x :: rest =>
      if x.id = own then
        (insideLoop own other sec candidates x { g with numLocks := g.numLocks + 1 } rest).after
          [sec.lock, x]
      else
        match closing other found x with
        | some .newFence =>
            ⟨[sec.fence, sec.unlock], some (x :: rest), { g with numFence := g.numFence + 1 }⟩
        | some .ownFence => ⟨[x, sec.unlock], some rest, g⟩
        | none =>
            let g :=
              if x.isStore ∧ x.id ∉ g.lockedWrites ∧ x.id ∈ candidates then
                { g with lockedWrites := g.lockedWrites ++ [x.id] }
              else g
            (insideLoop own other sec candidates found g rest).after [x]

/-- Lines 178-250 without the end of the trace. -/
def lockLoop (own other : Id) (sec : LockSection) (candidates : List Id) (g : LockGlobals) :
    Trace → Copied
  | [] => ⟨[], none, g⟩
  | x :: rest =>
      if x.id = own then
        (insideLoop own other sec candidates x { g with numLocks := g.numLocks + 1 } rest).after
          [sec.lock, x]
      else (lockLoop own other sec candidates g rest).after [x]

/-- What a phase adds to the new trace and the statements from which the next one starts. -/
structure Phase where
  out : Trace
  resume : Trace
  globals : LockGlobals

def Phase.after (head : Trace) (p : Phase) : Phase := { p with out := head ++ p.out }

/-- `if not insertedUnlock`: a section that was not closed ends here, and the index stays what it
was. -/
def Copied.finish (c : Copied) (sec : LockSection) (stale : Trace) : Phase :=
  match c.resume with
  | some rest => ⟨c.out, rest, c.globals⟩
  | none =>
      ⟨c.out ++ [sec.fence, sec.unlock], stale,
        { c.globals with numFence := c.globals.numFence + 1 }⟩

/-! ### The first store -/

/-- Lines 166-255: the first store is a writer. -/
def lockFirst (g : LockGlobals) (trace : Trace) (first : Stmt) (second : Id)
    (writes reads : List Id) : Phase :=
  let sec := LockSection.new first g.r
  let g := { g with
    r := g.r + 1
    lockedWrites := g.lockedWrites ++ [first.id]
    lockedReads := g.lockedReads ++ [first.id] }
  let c := lockLoop first.id second sec (writes ++ reads) g trace.dropLast
  { c with resume := c.resume.map (· ++ trace.drop (trace.length - 1)) }.finish sec trace

/-- A section around one store alone: the loop of lines 264-276 and that of lines 360-376. -/
def restrictedLoop (own : Id) (sec : LockSection) : Trace → Trace × Option Trace
  | x :: y :: rest =>
      if x.id = own then ([sec.lock, x, sec.unlock, y], some rest)
      else
        let c := restrictedLoop own sec (y :: rest)
        (x :: c.1, c.2)
  | _ => ([], none)

/-- Lines 277-283. -/
def copyUntil (second : Id) : Trace → Trace × Option Trace
  | x :: y :: rest =>
      if x.id = second then ([], some (x :: y :: rest))
      else
        let c := copyUntil second (y :: rest)
        (x :: c.1, c.2)
  | _ => ([], none)

/-- Lines 256-283: the first store is no writer. -/
def restrictFirst (g : LockGlobals) (trace : Trace) (first : Stmt) (second : Id) : Phase :=
  let sec := LockSection.new first g.r
  let g := { g with r := g.r + 1, lockedWrites := g.lockedWrites ++ [first.id] }
  match restrictedLoop first.id sec trace with
  | (out, none) => ⟨out, trace, g⟩
  | (out, some rest) =>
      let g := { g with numLocks := g.numLocks + 1 }
      match copyUntil second rest with
      | (more, some found) => ⟨out ++ more, found, g⟩
      | (more, none) => ⟨out ++ more, rest, g⟩

/-! ### The second store -/

/-- Lines 296-348. A statement that is not the second store is copied and the next one is looked at
in the same round; at the end of the trace this raises an exception. -/
def searchLoop (own other : Id) (sec : LockSection) (candidates : List Id) (g : LockGlobals)
    (stale : Trace) : Trace → Option Phase
  | [] => some ((⟨[], none, g⟩ : Copied).finish sec stale)
  | [x] =>
      if x.id = own then
        some (((insideLoop own other sec candidates x { g with numLocks := g.numLocks + 1 }
          []).finish sec stale).after [sec.lock, x])
      else none
  | x :: y :: rest =>
      if x.id = own then
        some (((insideLoop own other sec candidates x { g with numLocks := g.numLocks + 1 }
          (y :: rest)).finish sec stale).after [sec.lock, x])
      else if y.id = own then
        some (((insideLoop own other sec candidates y { g with numLocks := g.numLocks + 1 }
          rest).finish sec (y :: rest)).after [x, sec.lock, y])
      else (searchLoop own other sec candidates g (y :: rest) rest).map (·.after [x, y])

/-- Lines 286-348: the second store is a writer. -/
def lockSecond (g : LockGlobals) (resume : Trace) (second : Stmt) (first : Id)
    (writes : List Id) : Option Phase :=
  let sec := LockSection.new second g.r
  let g := { g with
    r := g.r + 1
    lockedWrites := g.lockedWrites ++ [second.id]
    lockedReads := g.lockedReads ++ [second.id] }
  searchLoop second.id first sec writes g resume resume

/-- Lines 349-376: the second store is no writer. -/
def restrictSecond (g : LockGlobals) (resume : Trace) (second : Stmt) : Phase :=
  let sec := LockSection.new second g.r
  let g := { g with r := g.r + 1, lockedReads := g.lockedReads ++ [second.id] }
  match restrictedLoop second.id sec resume with
  | (out, some rest) => ⟨out, rest, { g with numLocks := g.numLocks + 1 }⟩
  | (out, none) => ⟨out, resume, g⟩

/-! ### The pass -/

/-- Lines 378-380: statements that are not there yet are appended. -/
def appendMissing (out : Trace) : Trace → Trace
  | [] => out
  | x :: rest => appendMissing (if x ∈ out then out else out ++ [x]) rest

def firstPhase (g : LockGlobals) (trace : Trace) (held : Held) (bug : Mpa)
    (writes reads : List Id) : Phase :=
  if held.write then ⟨[], trace, g⟩
  else if bug.first.id ∈ writes then lockFirst g trace bug.first bug.second.id writes reads
  else restrictFirst g trace bug.first bug.second.id

def secondPhase (g : LockGlobals) (resume : Trace) (held : Held) (bug : Mpa)
    (writes : List Id) : Option Phase :=
  if held.read then some ⟨[], resume, g⟩
  else if bug.second.id ∈ writes then lockSecond g resume bug.second bug.first.id writes
  else some (restrictSecond g resume bug.second)

def appendTraceWithLocks (g : LockGlobals) (trace : Trace) (bug : Mpa) (writes reads : List Id) :
    Option (Trace × LockGlobals) := do
  let (trace, held, g) := prepare g trace bug
  let p := firstPhase g trace held bug writes reads
  let q ← secondPhase p.globals p.resume held bug writes
  return (appendMissing (p.out ++ q.out) q.resume, q.globals)

end PMBugRepair
