import PMBugRepair.Persistency.Memory
import PMBugRepair.Trace

/-!
# Statements on persistent memory

The passes take an address for a text, and so does the memory: a flush concerns the stores to the
same text. Loads, locks and transactions leave the memory alone.
-/

namespace PMBugRepair

open Persistency (ForcedBefore PersistsFirst)

/-- What the statements of a trace do to persistent memory. -/
def memoryProgram : Persistency.Program Stmt String Nat where
  effect stmt :=
    match stmt.op with
    | .store => .store stmt.addr
    | .flush => .flush stmt.addr
    | .fence => .fence
    | _ => .other
  thread := Stmt.tid

section Effect

variable {stmt : Stmt} {a : String}

@[simp] theorem memoryProgram_thread : memoryProgram.thread stmt = stmt.tid := rfl

@[simp] theorem memoryProgram_store_iff :
    memoryProgram.effect stmt = .store a ↔ stmt.op = .store ∧ stmt.addr = a := by
  cases hop : stmt.op <;> simp [memoryProgram, hop]

@[simp] theorem memoryProgram_flush_iff :
    memoryProgram.effect stmt = .flush a ↔ stmt.op = .flush ∧ stmt.addr = a := by
  cases hop : stmt.op <;> simp [memoryProgram, hop]

@[simp] theorem memoryProgram_fence_iff :
    memoryProgram.effect stmt = .fence ↔ stmt.op = .fence := by
  cases hop : stmt.op <;> simp [memoryProgram, hop]

end Effect

theorem forcedBefore_iff {order : Trace} {first second : Stmt} :
    ForcedBefore memoryProgram order first second ↔ ∃ flush fence : Stmt,
      [first, flush, fence, second].Sublist order ∧ first.op = .store ∧ flush.op = .flush ∧
      flush.addr = first.addr ∧ fence.op = .fence ∧ fence.tid = flush.tid := by
  constructor
  · rintro ⟨a, flush, fence, hsub, hfirst, hflush, hfence, htid⟩
    obtain ⟨hop, rfl⟩ := memoryProgram_store_iff.mp hfirst
    obtain ⟨hflushOp, haddr⟩ := memoryProgram_flush_iff.mp hflush
    exact ⟨flush, fence, hsub, hop, hflushOp, haddr, memoryProgram_fence_iff.mp hfence, htid⟩
  · rintro ⟨flush, fence, hsub, hfirst, hflush, haddr, hfence, htid⟩
    exact ⟨first.addr, flush, fence, hsub, by simp [hfirst], by simp [hflush, haddr],
      by simp [hfence], by simp [htid]⟩

end PMBugRepair
