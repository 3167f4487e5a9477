import PMBugRepair.Step1.MpbRepair
import PMBugRepair.Helpers
import PMBugRepair.Containers.Lists

/-!
# `repairThread`

The bugs of the list are repaired one after the other on the same thread. Constraints returned by
one repair are handed to all later ones. Every call may be answered by a different solver, so that
nothing depends on which legal model is returned when.
-/

namespace PMBugRepair

open Smt (Formula Solver)

/-- The variables of the loop of `repairThread`. -/
structure ThreadState where
  thread : Trace
  constraints : List (Formula Var)
  globals : Globals

/-- Lines 373-381 and 386-393: take over the result of one repair. -/
def ThreadState.accept (st : ThreadState) (bug : Bug) (out : Repair) : ThreadState :=
  { thread := out.thread
    constraints := st.constraints ++ out.constraints
    globals := { out.globals with
      fixedBugs := if out.bugFlag then out.globals.fixedBugs ++ [bug] else out.globals.fixedBugs } }

def repairBug (z : Solver Var) (st : ThreadState) (bug : Bug) : Option ThreadState :=
  if bug.mentionsInf then
    some (st.accept bug (repairDURA st.globals st.thread bug))
  else
    match bug with
    | .mpb a b => (repairMPB z st.globals st.thread a b st.constraints).map (st.accept bug)
    | .dura _ => none

def repairBugs (z : Nat → Solver Var) : Nat → List Bug → ThreadState → Option ThreadState
  | _, [], st => some st
  | k, bug :: bugs, st => (repairBug (z k) st bug).bind (repairBugs z (k + 1) bugs)

def repairThread (z : Nat → Solver Var) (g : Globals) (thread : Trace) (bugs : List Bug)
    (transactCons : List (Formula Var)) : Option ThreadState :=
  repairBugs z 0 bugs { thread := thread, constraints := transactCons, globals := g }

/-- A DURA bug always prints `9999`, so the last branch of `repairBug` is never taken. -/
theorem Bug.mentionsInf_dura (s : Id) : (Bug.dura s).mentionsInf = true := by
  rw [mentionsInf, decide_eq_true_eq]
  exact (List.suffix_append _ _).isInfix

/-- An MPB bug prints `9999` if one of its numbers has these digits. -/
theorem Bug.mentionsInf_mpb_iff {m n : Nat} : (Bug.mpb (.line m) (.line n)).mentionsInf = true ↔
    infText <:+: digits m ∨ infText <:+: digits n := by
  have hcut : ∀ {left right : List Char} {c : Char}, c ≠ '9' →
      (infText <:+: left ++ c :: right ↔ infText <:+: left ∨ infText <:+: right) :=
    fun hc => Lists.infix_append_cons_iff (by simpa [infText] using hc)
  have hnil : ¬infText <:+: [] := by decide
  have hstr : (Bug.mpb (.line m) (.line n)).str = [] ++ 'p' :: ([] ++ 't' :: ([] ++ '_' ::
      (digits m ++ ' ' :: ([] ++ '<' :: ([] ++ ' ' :: ([] ++ 'p' :: ([] ++ 't' :: ([] ++ '_' ::
        digits n)))))))) := by
    simp [Bug.str, Var.name, Id.str]
  rw [mentionsInf, decide_eq_true_eq, hstr, hcut (by decide), hcut (by decide), hcut (by decide),
    hcut (by decide), hcut (by decide), hcut (by decide), hcut (by decide), hcut (by decide),
    hcut (by decide)]
  simp [hnil]

variable {z : Solver Var} {st st' : ThreadState} {bug : Bug}

theorem repairBug_cases (h : repairBug z st bug = some st') :
    (bug.mentionsInf = true ∧ st' = st.accept bug (repairDURA st.globals st.thread bug)) ∨
      (bug.mentionsInf = false ∧ ∃ a b out, bug = .mpb a b ∧
        repairMPB z st.globals st.thread a b st.constraints = some out ∧
        st' = st.accept bug out) := by
  unfold repairBug at h
  split at h
  · rename_i hinf
    exact .inl ⟨hinf, by simpa using h.symm⟩
  · rename_i hinf
    cases bug with
    | dura s => cases h
    | mpb a b =>
        obtain ⟨out, hout, rfl⟩ := Option.map_eq_some_iff.mp h
        exact .inr ⟨by simpa using hinf, a, b, out, rfl, hout, rfl⟩

theorem repairBug_conserves (h : repairBug z st bug = some st') :
    Conserves st.thread st'.thread := by
  rcases repairBug_cases h with ⟨-, rfl⟩ | ⟨-, a, b, out, -, hout, rfl⟩
  · exact (repairDURA_conserves st.globals st.thread bug).1
  · exact repairMPB_conserves hout

theorem repairBugs_conserves {z : Nat → Solver Var} {k : Nat} {bugs : List Bug}
    (h : repairBugs z k bugs st = some st') : Conserves st.thread st'.thread := by
  induction bugs generalizing k st with
  | nil =>
      cases h
      exact Conserves.refl _
  | cons bug bugs ih =>
      obtain ⟨next, hnext, hrest⟩ := Option.bind_eq_some_iff.mp h
      exact (repairBug_conserves hnext).trans (ih hrest)

end PMBugRepair
