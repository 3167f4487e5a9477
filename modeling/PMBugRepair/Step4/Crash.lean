import PMBugRepair.Persistency.Statements
import PMBugRepair.Step4.Rows

/-!
# Crashes of a locked trace

Step 4 calls a bug violated when the reader executes in front of every fence that follows the
writer. Where the fences of the writer's thread come behind the flushes, and nobody else flushes
the writer's address, these are exactly the executions in which a crash may keep the reader without
the writer; a run that stops leaves none of them.
-/

namespace PMBugRepair

open Persistency (ForcedBefore PersistsFirst)
open Schedule
open Smt (Solver)

/-- Only the writer's own thread flushes its address, and the reader stores somewhere else. -/
structure OwnAddress (trace : Trace) (bug : Mpa) : Prop where
  flushes : ∀ x ∈ trace, x.op = .flush → x.addr = bug.w.addr → x.tid = bug.w.tid
  reader : bug.w.addr ≠ bug.r.addr

theorem Persists.forcedBefore {order : Trace} {bug : Mpa} (h : Persists order bug)
    (hnodup : order.Nodup) (hstore : bug.w.op = .store) :
    ForcedBefore memoryProgram order bug.w bug.r := by
  obtain ⟨flush, fence, hflush, hfence, htid, hwriter, hbetween, hreader⟩ := h
  exact forcedBefore_iff.mpr ⟨flush, fence,
    hwriter.cons_sublist hnodup (triple_sublist hnodup hbetween hreader), hstore, hflush.op,
    hflush.addr, hfence, htid.trans hflush.tid.symm⟩

/-- In a good state the executions that violate the bug are those in which a crash may keep the
reader alone. -/
theorem Good.persistsFirst_iff {input : MpaInput} {s : RepairState} {bug : Mpa} {order : Trace}
    (h : Good input s) (hbug : bug ∈ input.bugs) (hfirst : FlushedFirst s.trace bug.w)
    (hflushes : ∀ x ∈ s.trace, x.op = .flush → x ∈ input.trace)
    (hown : OwnAddress input.trace bug) (horder : Execution s.trace order)
    (hbefore : Before order bug.w bug.r) :
    PersistsFirst memoryProgram order bug.w bug.r ↔ ¬Violates order bug := by
  have hin := h.bug_in hbug
  have hnodup : order.Nodup := horder.threads.1.nodup_iff.mpr h.ids.of_map
  have hne : bug.w ≠ bug.r := by
    rintro heq
    rw [← heq] at hbefore
    exact hbefore.asymm hnodup hbefore
  rw [Persistency.persistsFirst_iff hnodup hbefore.mem.2 ⟨bug.r.addr, by simp [hin.r_store]⟩ hne]
  constructor
  · rintro (hforced | ⟨-, a, hwriter, hreader⟩) ⟨-, hviolates⟩
    · obtain ⟨flush, fence, hsub, -, hop, haddr, hfence, htid⟩ := forcedBefore_iff.mp hforced
      have hflush : flush.tid = bug.w.tid :=
        hown.flushes flush (hflushes flush (horder.threads.1.mem_iff.mp (hsub.subset (by simp))) hop)
          hop haddr
      have hwriterFence : Before order bug.w fence := List.Sublist.trans (by simp) hsub
      have hfenceReader : Before order fence bug.r := List.Sublist.trans (by simp) hsub
      exact (hviolates fence hfence (htid.trans hflush) hwriterFence).asymm hnodup hfenceReader
    · rw [memoryProgram_store_iff] at hwriter hreader
      exact hown.reader (hwriter.2.trans hreader.2.symm)
  · intro hno
    exact .inl ((hfirst.persists h hbug horder hbefore hno).forcedBefore hnodup hin.w_store)

/-- **Crash consistency of step 4.** In every state of a run of careful repairs, a crash may keep
the reader of a bug without its flushed writer exactly in the executions that violate the bug. When
the run stops there are none: whatever keeps the reader keeps the writer, and an execution that ends
has persisted it. -/
theorem run_persistsFirst (input : MpaInput) (z : Nat → Solver Var)
    (hplain : ∀ x ∈ input.trace, x.Plain) (hinput : FlushesFirst input)
    (hsteps : ∀ n s bug, run input z n = some s → s.truthValue = true →
      consToRepair (z n) s.trace input.transactCons input.bugs = some bug →
      Careful input s.trace bug) (n : Nat) (s : RepairState) (hrun : run input z n = some s)
    (bug : Mpa) (hbug : bug ∈ input.bugs) (hflushed : Flushed input.trace bug.w)
    (hown : OwnAddress input.trace bug) (order : Trace) (horder : Execution s.trace order)
    (hbefore : Before order bug.w bug.r) :
    (PersistsFirst memoryProgram order bug.w bug.r ↔ ¬Violates order bug) ∧
      (s.truthValue = false → PersistsFirst memoryProgram order bug.w bug.r ∧
        ∀ memory, Persistency.Run memoryProgram order memory → bug.w ∈ memory.persisted) := by
  obtain ⟨hgood, hfirst, hlast⟩ := run_careful hplain hinput hsteps hrun
  have hflushes : ∀ x ∈ s.trace, x.op = .flush → x ∈ input.trace := fun x hx hop =>
    mem_input_of_run hrun hx (by simp [Stmt.Plain, hop]) (by simp [hop])
  have hiff := hgood.persistsFirst_iff hbug (hfirst bug hbug hflushed) hflushes hown horder
    hbefore
  refine ⟨hiff, fun hdone => ?_⟩
  have hno := hlast hdone bug hbug order horder
  have hpersists := (hfirst bug hbug hflushed).persists hgood hbug horder hbefore hno
  have hforced := hpersists.forcedBefore (horder.threads.1.nodup_iff.mpr hgood.ids.of_map)
    (hgood.bug_in hbug).w_store
  exact ⟨hiff.mpr hno, fun memory hmemory => hmemory.persisted_of_forced hforced.forced⟩

/-- The run on a flushed store: one repair, then no crash loses the writer. -/
theorem run_persistsFirst_flushedStore :
    ∃ s, run (flushedStoreInput "f_2") (fun _ => .classical) 2 = some s ∧
      ∀ order, Execution s.trace order → Before order flushedWriter flushedReader →
        PersistsFirst memoryProgram order flushedWriter flushedReader := by
  obtain ⟨⟨g, hrun⟩, -⟩ := run_flushedStore fun _ => .classical
  refine ⟨_, hrun 0, fun order horder hbefore => ?_⟩
  exact ((run_persistsFirst (flushedStoreInput "f_2") (fun _ => .classical) (by decide)
    flushesFirst_flushedStore (careful_of_run_flushedStore _) 2 _ (hrun 0)
    ⟨flushedWriter, flushedReader⟩ (by decide) ⟨(flushedStore "f_2")[1], ⟨rfl, rfl, rfl⟩, by unfold Before; decide⟩
    ⟨by decide, by decide⟩ order horder hbefore).2 rfl).1

end PMBugRepair
