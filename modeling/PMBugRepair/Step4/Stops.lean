import PMBugRepair.Step4.Run

/-!
# When the loop stops

Every repair brings another store of a bug into a section: a bug whose stores both stand in sections
has no violation left. The one exception is a second store that comes last in the trace and is no
writer, which `appendTraceWithLocks` skips. If the first store has its section already, nothing
changes, and the loop may go on forever.
-/

namespace PMBugRepair

open Schedule
open Smt (Formula Solver Satisfies satisfies_append)

/-- The first store has its section, and the second one is skipped. -/
structure Stuck (trace : Trace) (bug : Mpa) (writes : List Id) : Prop where
  first_inside : bug.first ∈ inside none trace
  second_outside : bug.second ∉ inside none trace
  no_writer : bug.second.id ∉ writes
  last : ∃ init, trace = init ++ [bug.second]

section Progress

variable {input : MpaInput} {z : Nat → Solver Var} {s s' : RepairState} {bug : Mpa}

/-- The stores of the bugs that stand in no section. -/
def outside (input : MpaInput) (trace : Trace) : Nat :=
  (input.bugs.flatMap fun bug => [bug.w, bug.r]).countP fun x => x ∉ inside none trace

theorem countP_lt_countP {α : Type} {p q : α → Bool} {items : List α}
    (hle : ∀ x ∈ items, p x = true → q x = true) {x : α} (hx : x ∈ items) (hp : p x = false)
    (hq : q x = true) : items.countP p < items.countP q := by
  obtain ⟨left, right, rfl⟩ := List.append_of_mem hx
  have hleft : left.countP p ≤ left.countP q :=
    List.countP_mono_left fun y hy => hle y (by simp [hy])
  have hright : right.countP p ≤ right.countP q :=
    List.countP_mono_left fun y hy => hle y (by simp [hy])
  rw [List.countP_append, List.countP_append, List.countP_cons, List.countP_cons, hp, hq]
  simp only [Bool.false_eq_true, if_false, if_true]
  omega

/-- A repair that is not stuck leaves fewer stores outside. -/
theorem Good.outside_lt {added out : Trace} (h : Good input s) (hbug : bug ∈ input.bugs)
    (htimed : ∃ σ, Timed s.trace σ ∧ bug.formula.Holds σ) (htrace : s'.trace = kept none out)
    (hrepaired : Repaired s.trace bug input.writes s.globals.r s'.globals.r added out)
    (hfree : ¬Stuck s.trace bug input.writes) : outside input s'.trace < outside input s.trace := by
  obtain ⟨σ, hσ, hholds⟩ := htimed
  have hinside : inside none s'.trace = inside none out := by
    rw [htrace]
    exact kept_idem.2.2
  have hmono : ∀ x, x ∈ inside none s.trace → x ∈ inside none s'.trace := by
    intro x hx
    rw [hinside]
    exact hrepaired.refines.inside_sub hx
  obtain ⟨hfirstMem, hsecondMem⟩ : bug.first ∈ (input.bugs.flatMap fun bug => [bug.w, bug.r]) ∧
      bug.second ∈ (input.bugs.flatMap fun bug => [bug.w, bug.r]) := by
    simp only [List.mem_flatMap]
    rcases bug.first_cases with ⟨heq, heq'⟩ | ⟨heq, heq'⟩ <;> rw [heq, heq'] <;>
      exact ⟨⟨bug, hbug, by simp⟩, ⟨bug, hbug, by simp⟩⟩
  have hnew : ∀ x ∈ (input.bugs.flatMap fun bug => [bug.w, bug.r]), x ∉ inside none s.trace →
      x ∈ inside none s'.trace → outside input s'.trace < outside input s.trace := by
    intro x hx hold hnow
    refine countP_lt_countP (fun y _ hy => ?_) hx (by simp [hnow]) (by simp [hold])
    rw [decide_eq_true_iff] at hy ⊢
    exact fun hin => hy (hmono y hin)
  have hfirst := hrepaired.first_inside
  rw [← hinside] at hfirst
  by_cases hold : bug.first ∈ inside none s.trace
  · have hsecondOut := h.not_both_inside hbug hσ hholds hold
    rcases hrepaired.second_inside with hsecond | hnot | ⟨hwriter, hlast⟩
    · rw [← hinside] at hsecond
      exact hnew bug.second hsecondMem hsecondOut hsecond
    · exact absurd hold hnot
    · exact absurd ⟨hold, hsecondOut, hwriter, hlast⟩ hfree
  · exact hnew bug.first hfirstMem hold hfirst

/-- The loop has ended behind `n` iterations, with a result or with an exception. -/
def StopsBy (input : MpaInput) (z : Nat → Solver Var) (n : Nat) : Prop :=
  ∀ s, run input z n = some s → s.truthValue = false

theorem StopsBy.of_run {n : Nat} (hrun : run input z n = some s) (hdone : s.truthValue = false) :
    StopsBy input z n := by
  intro s' hrun'
  rw [hrun, Option.some.injEq] at hrun'
  rw [← hrun', hdone]

/-- From a good state on, the number of stores outside bounds the iterations that are left. -/
theorem Good.stops (hfree : ∀ n s bug, run input z n = some s → s.truthValue = true →
      consToRepair (z n) s.trace input.transactCons input.bugs = some bug →
      ¬Stuck s.trace bug input.writes) {k n : Nat} (h : Good input s)
    (hrun : run input z n = some s) (hk : outside input s.trace < k) :
    ∃ m, StopsBy input z m := by
  induction k generalizing n s with
  | zero => exact absurd hk (Nat.not_lt_zero _)
  | succ k ih =>
      cases hmore : s.truthValue with
      | false => exact ⟨n, .of_run hrun hmore⟩
      | true =>
          have hnext := run_succ_of_true hrun hmore
          cases hstep : iteration input (z n) s with
          | none =>
              refine ⟨n + 1, fun s' hrun' => ?_⟩
              rw [hnext, hstep] at hrun'
              cases hrun'
          | some s' =>
              have hrun' : run input z (n + 1) = some s' := hnext.trans hstep
              rcases h.step hstep with ⟨hdone, -⟩ | ⟨-, bug, hbug, htarget, htimed,
                ⟨hgood, added, out, htrace, hrepaired⟩ | ⟨hrepeats, -⟩⟩
              · exact ⟨n + 1, .of_run hrun' hdone⟩
              · have hlt := h.outside_lt hbug htimed htrace hrepaired
                  (hfree n s bug hrun hmore htarget)
                exact ih hgood hrun' (by omega)
              · -- the next iteration finds no solution
                refine ⟨n + 2, fun s'' hrun'' => ?_⟩
                obtain ⟨s₁, hrun₁, hlast⟩ := run_succ_cases hrun''
                rw [hrun', Option.some.injEq] at hrun₁
                subst hrun₁
                rcases hlast with ⟨-, hstep'⟩ | ⟨hdone, rfl⟩
                · exact (hrepeats.step hstep').1
                · exact hdone

end Progress

/-- A run that never gets stuck ends. -/
theorem generateRepair_stops (input : MpaInput) (z : Nat → Solver Var)
    (hfree : ∀ n s bug, run input z n = some s → s.truthValue = true →
      consToRepair (z n) s.trace input.transactCons input.bugs = some bug →
      ¬Stuck s.trace bug input.writes) :
    ∃ n, StopsBy input z n := by
  by_cases hplain : ∀ x ∈ input.trace, x.Plain
  · exact @Good.stops input z _ hfree _ 0 (.start hplain) rfl (Nat.lt_succ_self _)
  · simp only [not_forall] at hplain
    obtain ⟨x, hx, hplain⟩ := hplain
    cases hmore : (RepairState.start input).truthValue with
    | false => exact ⟨0, .of_run rfl hmore⟩
    | true =>
        refine ⟨1, fun s hrun => ?_⟩
        rw [run_succ_of_true rfl hmore, iteration_start_eq_none hx hplain] at hrun
        cases hrun

/-- A trace whose last statement is no store never gets a run stuck. -/
theorem not_stuck_of_last {input : MpaInput} {z : Nat → Solver Var} {n : Nat} {s : RepairState}
    {bug : Mpa} (hplain : ∀ x ∈ input.trace, x.Plain)
    (hlast : ∀ init x, input.trace = init ++ [x] → x.op ≠ .store)
    (hrun : run input z n = some s)
    (htarget : consToRepair (z n) s.trace input.transactCons input.bugs = some bug) :
    ¬Stuck s.trace bug input.writes := by
  intro hstuck
  obtain ⟨hbug, cons, σ, hcons, hσ, -⟩ := consToRepair_spec htarget
  rcases run_good hplain hrun with hgood | ⟨⟨x, htwice⟩, -⟩
  · have hin := hgood.bug_in hbug
    obtain ⟨init, htrace⟩ := hstuck.last
    have hcore := hgood.core_eq
    rw [htrace, core_append, core_cons_of_not_sync hin.first_core.2] at hcore
    exact hlast (core init) bug.second hcore.symm
      (hin.id_store hgood.ids _ hin.second_mem (.inr rfl))
  · have hlt := lockConstraints_threads hcons hσ htwice rfl
    omega

/-! ### A run that ends and one that does not -/

def crossThreadInput : MpaInput where
  trace := crossThreadFence
  bugs := [crossThreadBug]
  numbered := rfl
  bugs_in := by
    intro bug hbug
    rw [List.mem_singleton.mp hbug]
    exact crossThreadBug_in

theorem generateRepair_stops_crossThread :
    ∃ n, StopsBy crossThreadInput (fun _ => .classical) n := by
  have hlast : ∀ init x, crossThreadInput.trace = init ++ [x] → x.op ≠ .store := by
    intro init x hinit
    have hx := congrArg List.getLast? hinit
    rw [List.getLast?_concat,
      show crossThreadInput.trace.getLast? = some crossThreadFence[2] from rfl,
      Option.some.injEq] at hx
    rw [← hx]
    decide
  exact generateRepair_stops crossThreadInput (fun _ => .classical)
    fun n s bug hrun _ htarget => not_stuck_of_last (by decide) hlast hrun htarget

/-- The reader of `lastRead` comes last and is skipped. -/
theorem lastRead_again (z : Solver Var) (g : LockGlobals) :
    ∃ g', iteration lastReadInput z ⟨lastReadLocked, g, true⟩ =
      some ⟨lastReadLocked, g', true⟩ := by
  obtain ⟨cons, hcons, hσ⟩ : ∃ cons, lockConstraints lastReadLocked = some cons ∧
      Satisfies (lastReadTimes 1) (lastReadInput.transactCons ++ cons) := ⟨_, rfl, by decide⟩
  exact ⟨_, @iteration_of_satisfies lastReadInput z ⟨lastReadLocked, g, true⟩ lastReadBug cons
    (lastReadTimes 1) rfl hcons hσ (by decide) _ _ _ _ lastReadLocked rfl rfl rfl⟩

/-- Every iteration leaves the trace as it is and asks for another one. -/
theorem run_lastRead (z : Nat → Solver Var) (n : Nat) :
    ∃ g, run lastReadInput z (n + 1) = some ⟨lastReadLocked, g, true⟩ := by
  induction n with
  | zero =>
      obtain ⟨g, hstep⟩ := lastRead_first (z 0)
      exact ⟨g, (run_succ_of_true rfl rfl).trans hstep⟩
  | succ n ih =>
      obtain ⟨g, hrun⟩ := ih
      obtain ⟨g', hstep⟩ := lastRead_again (z (n + 1)) g
      exact ⟨g', (run_succ_of_true hrun rfl).trans hstep⟩

/-- For no solver and after no number of iterations. -/
theorem generateRepair_loops : ¬∃ z n, StopsBy lastReadInput z n := by
  rintro ⟨z, n, hstops⟩
  cases n with
  | zero => exact absurd (hstops _ rfl) (by decide)
  | succ n =>
      obtain ⟨g, hrun⟩ := run_lastRead z n
      cases hstops _ hrun

end PMBugRepair
