import PMBugRepair.Trace

/-!
# Bugs of a single thread

Step 1 repairs two kinds of bugs, both handed over as constraints on persist times. A DURA bug
`pt_s < 9999` asks that store `s` persists at all; an MPB bug `pt_a < pt_b` asks that `a` persists
before `b`. The passes recognise the kind from the printed constraint, and so does the model.
-/

namespace PMBugRepair

open Smt (Formula Term)

/-- `inf` of step 1, as it prints. -/
def infText : List Char := ['9', '9', '9', '9']

inductive Bug where
  | dura (s : Id)
  | mpb (a b : Id)
  deriving DecidableEq, Repr

namespace Bug

def formula : Bug → Formula Var
  | .dura s => .lt (.var (.pt s)) (.const 9999)
  | .mpb a b => .lt (.var (.pt a)) (.var (.pt b))

/-- `str(bug)`. -/
def str : Bug → List Char
  | .dura s => (Var.pt s).name ++ [' ', '<', ' '] ++ infText
  | .mpb a b => (Var.pt a).name ++ [' ', '<', ' '] ++ (Var.pt b).name

/-- The store whose variable stands left of `<` in the printed bug. -/
def left : Bug → Id
  | .dura s => s
  | .mpb a _ => a

/-- `str(inf) in str(b)`, the test by which `repairThread` tells the kinds apart. -/
def mentionsInf (bug : Bug) : Bool := decide (infText <:+: bug.str)

end Bug

/-- The module-level variables of step 1. -/
structure Globals where
  r : Nat
  numFence : Nat
  numFlush : Nat
  claimedFlushes : List Id
  fixedBugs : List Bug
  numSolverCalls : Nat

/-- The globals step 1 starts from. -/
def Globals.start : Globals :=
  { r := 0, numFence := 0, numFlush := 0, claimedFlushes := [], fixedBugs := [],
    numSolverCalls := 0 }

/-- What `repairDURA` and `repairMPB` return, with the globals they leave behind. -/
structure Repair where
  thread : Trace
  constraints : List (Formula Var)
  bugFlag : Bool
  globals : Globals

/-- `pc_store == pc_flush - 1`: the flush stands directly behind the store. -/
def adjacent (store flush : Stmt) : Formula Var := .eq (pc store) (.sub (pc flush) (.const 1))

@[simp] theorem holds_adjacent {σ : Var → Int} {store flush : Stmt} :
    (adjacent store flush).Holds σ ↔ σ (.pc store.id) = σ (.pc flush.id) - 1 := Iff.rfl

/-! ### The guarantees the bugs ask for -/

/-- After the store comes a flush of its address, and after that flush a fence. -/
def Durable (thread : Trace) (store : Stmt) : Prop :=
  ∃ flush fence : Stmt, [store, flush, fence].Sublist thread ∧
    flush.op = .flush ∧ flush.addr = store.addr ∧ fence.op = .fence

/-- What a repaired bug promises of the thread: a flush and then a fence after the store, or a fence
strictly between the two stores. -/
def Guarantee (thread : Trace) : Bug → Prop
  | .dura s => ∃ store : Stmt, store.op = .store ∧ store.id = s ∧ Durable thread store
  | .mpb a b => ∃ first fence second : Stmt, [first, fence, second].Sublist thread ∧
      first.op = .store ∧ first.id = a ∧ fence.op = .fence ∧ second.op = .store ∧ second.id = b

/-- Inserting statements keeps every guarantee. -/
theorem Guarantee.mono {thread thread' : Trace} {bug : Bug} (hsub : thread.Sublist thread')
    (h : Guarantee thread bug) : Guarantee thread' bug := by
  cases bug with
  | dura s =>
      obtain ⟨store, hop, hid, flush, fence, hlist, hrest⟩ := h
      exact ⟨store, hop, hid, flush, fence, hlist.trans hsub, hrest⟩
  | mpb a b =>
      obtain ⟨first, fence, second, hlist, hrest⟩ := h
      exact ⟨first, fence, second, hlist.trans hsub, hrest⟩

/-! ### Conservative changes of a thread -/

/-- A flush or fence numbered after a store of the thread. -/
def InsertedFor (thread : Trace) (stmt : Stmt) : Prop :=
  (stmt.op = .flush ∨ stmt.op = .fence) ∧ ∃ store ∈ thread, store.op = .store ∧
    ∃ k, stmt.id = .inserted store.id k ∨ stmt.id = .insertedFence store.id k

/-- The new thread holds every old statement once, besides them only inserted flushes and fences,
and its stores are the old ones in the old order. -/
structure Conserves (thread thread' : Trace) : Prop where
  perm : ∃ ins : Trace, thread'.Perm (thread ++ ins) ∧ ∀ stmt ∈ ins, InsertedFor thread stmt
  stores : thread'.filter Stmt.isStore = thread.filter Stmt.isStore

namespace Conserves

variable {thread thread' thread'' : Trace}

theorem refl (thread : Trace) : Conserves thread thread :=
  ⟨⟨[], by simp, by simp⟩, rfl⟩

theorem mem_store_iff (h : Conserves thread thread') {store : Stmt} (hop : store.op = .store) :
    store ∈ thread' ↔ store ∈ thread := by
  have hmem : ∀ list : Trace, store ∈ list ↔ store ∈ list.filter Stmt.isStore := by
    intro list
    simp [hop]
  rw [hmem thread', hmem thread, h.stores]

theorem trans (h : Conserves thread thread') (h' : Conserves thread' thread'') :
    Conserves thread thread'' := by
  obtain ⟨ins, hperm, hins⟩ := h.perm
  obtain ⟨ins', hperm', hins'⟩ := h'.perm
  refine ⟨⟨ins ++ ins', ?_, ?_⟩, h'.stores.trans h.stores⟩
  · rw [← List.append_assoc]
    exact hperm'.trans (hperm.append_right ins')
  · intro stmt hstmt
    rcases List.mem_append.mp hstmt with hstmt | hstmt
    · exact hins stmt hstmt
    · obtain ⟨hop, store, hmem, hstore, hid⟩ := hins' stmt hstmt
      exact ⟨hop, store, (h.mem_store_iff hstore).mp hmem, hstore, hid⟩

theorem subset (h : Conserves thread thread') : thread ⊆ thread' := by
  intro stmt hstmt
  obtain ⟨ins, hperm, -⟩ := h.perm
  exact hperm.mem_iff.mpr (List.mem_append_left ins hstmt)

/-- Inserting flushes and fences is conservative. -/
theorem of_insert (pre ins post : Trace) (hins : ∀ stmt ∈ ins, InsertedFor (pre ++ post) stmt) :
    Conserves (pre ++ post) (pre ++ ins ++ post) := by
  refine ⟨⟨ins, ?_, hins⟩, ?_⟩
  · rw [List.append_assoc, List.append_assoc]
    exact List.perm_append_comm.append_left pre
  · have hnone : ins.filter Stmt.isStore = [] := by
      rw [List.filter_eq_nil_iff]
      intro stmt hstmt
      rcases (hins stmt hstmt).1 with hop | hop <;> simp [hop]
    simp [hnone]

end Conserves

end PMBugRepair
