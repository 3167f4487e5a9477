import PMBugRepair.Trace
import PMBugRepair.Schedule.Order

/-!
# Lock sections

Between `Lock_k` and `UnLock_k` stand statements of the lock's thread and no other lock or unlock,
and every unlock ends such a section.
-/

namespace PMBugRepair

open Schedule (Before before_of_append Interleaving)

/-- Neither a lock nor an unlock. -/
def Stmt.Plain (x : Stmt) : Prop := x.op ≠ .lock ∧ x.op ≠ .unlock

instance (x : Stmt) : Decidable x.Plain := inferInstanceAs (Decidable (_ ∧ _))

inductive Sections : Trace → Prop
  | nil : Sections []
  | plain {x : Stmt} {rest : Trace} (hx : x.Plain) (hrest : Sections rest) : Sections (x :: rest)
  | block {k : Nat} {lock unlock : Stmt} {body rest : Trace} (hlock : lock.op = .lock)
      (hlockId : lock.id = .lock k) (hbody : ∀ x ∈ body, x.Plain ∧ x.tid = lock.tid)
      (hunlock : unlock.op = .unlock) (hunlockId : unlock.id = .unlock k)
      (htid : unlock.tid = lock.tid) (hrest : Sections rest) :
      Sections (lock :: (body ++ unlock :: rest))

/-- A lock of the trace with the unlock that ends its section. -/
structure SectionOf (trace : Trace) (lock unlock : Stmt) : Prop where
  lock_mem : lock ∈ trace
  unlock_mem : unlock ∈ trace
  lock_op : lock.op = .lock
  unlock_op : unlock.op = .unlock
  ids : ∃ k, lock.id = .lock k ∧ unlock.id = .unlock k

namespace Sections

variable {trace : Trace}

theorem exists_unlock (h : Sections trace) {lock : Stmt} (hmem : lock ∈ trace)
    (hop : lock.op = .lock) :
    ∃ unlock, SectionOf trace lock unlock ∧ Before trace lock unlock ∧ unlock.tid = lock.tid := by
  induction h with
  | nil => cases hmem
  | @plain x rest hx hrest ih =>
      rcases List.mem_cons.mp hmem with rfl | hmem
      · exact absurd hop hx.1
      · obtain ⟨unlock, hsection, hbefore, htid⟩ := ih hmem
        exact ⟨unlock, { hsection with
            lock_mem := List.mem_cons_of_mem x hsection.lock_mem
            unlock_mem := List.mem_cons_of_mem x hsection.unlock_mem }, hbefore.cons x, htid⟩
  | @block k lock' unlock body rest hlock hlockId hbody hunlock hunlockId htid hrest ih =>
      rcases List.mem_cons.mp hmem with rfl | hmem
      · refine ⟨unlock, ⟨by simp, by simp, hlock, hunlock, k, hlockId, hunlockId⟩, ?_, htid⟩
        exact @before_of_append _ [lock] _ _ _ (by simp) (by simp)
      · rcases List.mem_append.mp hmem with hmem | hmem
        · exact absurd hop (hbody lock hmem).1.1
        · rcases List.mem_cons.mp hmem with rfl | hmem
          · rw [hunlock] at hop
            cases hop
          · obtain ⟨unlock', hsection, hbefore, htid'⟩ := ih hmem
            have hsub : rest.Sublist (lock' :: (body ++ unlock :: rest)) :=
              (((List.Sublist.refl rest).cons unlock).trans
                (List.sublist_append_right body _)).cons lock'
            exact ⟨unlock', { hsection with
                lock_mem := hsub.subset hsection.lock_mem
                unlock_mem := hsub.subset hsection.unlock_mem }, hbefore.trans hsub, htid'⟩

end Sections

/-! ### Executions -/

/-- Sections come one after the other. -/
def Exclusive (trace order : Trace) : Prop :=
  ∀ {lock unlock lock' unlock' : Stmt}, SectionOf trace lock unlock →
    SectionOf trace lock' unlock' → lock ≠ lock' →
    Before order unlock lock' ∨ Before order unlock' lock

/-- An order of the statements that keeps every thread's own order and in which no two sections
overlap. -/
structure Execution (trace order : Trace) : Prop where
  threads : Interleaving Stmt.tid trace order
  exclusive : Exclusive trace order

end PMBugRepair
