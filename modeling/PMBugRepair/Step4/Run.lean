import PMBugRepair.Step4.Call

/-!
# `generateRepair`

The loop calls `addLocks` and `removeDeadlocks` until the solver finds no violation any more. Every
iteration may get another answer from the solver. An exception ends the run.
-/

namespace PMBugRepair

open Schedule
open Smt (Formula Solver Satisfies satisfies_append)

/-- A parsed trace, numbered by its lines from 2 on, and the bugs that were read for it. -/
structure MpaInput where
  trace : Trace
  bugs : List Mpa
  numbered : trace.map Stmt.id = (List.range' 2 trace.length).map Id.line
  bugs_in : ∀ bug ∈ bugs, bug.In trace

namespace MpaInput

def writes (input : MpaInput) : List Id := (input.bugs.map fun bug => bug.w.id).eraseDups

/-- `list(set(reads) - set(writes))`. -/
def reads (input : MpaInput) : List Id :=
  (input.bugs.map fun bug => bug.r.id).eraseDups.filter fun id => id ∉ input.writes

def transactCons (input : MpaInput) : List (Formula Var) := getTransactionConstraints input.trace

end MpaInput

structure RepairState where
  trace : Trace
  globals : LockGlobals
  truthValue : Bool

/-- Without bugs the loop is not entered. -/
def RepairState.start (input : MpaInput) : RepairState :=
  { trace := input.trace, globals := .start, truthValue := !input.bugs.isEmpty }

/-- Lines 571-572. -/
def iteration (input : MpaInput) (z : Solver Var) (s : RepairState) : Option RepairState := do
  let (trace, truthValue, g) ← addLocks z s.globals s.trace input.reads input.writes
    input.transactCons input.bugs
  let (trace, g) ← removeDeadlocks g trace
  return ⟨trace, g, truthValue⟩

/-- The state behind `n` iterations, the last one as soon as the loop has ended. -/
def run (input : MpaInput) (z : Nat → Solver Var) : Nat → Option RepairState
  | 0 => some (.start input)
  | n + 1 => do
      let s ← run input z n
      if s.truthValue then iteration input (z n) s else some s

/-! ### One iteration -/

section Iteration

variable {input : MpaInput} {z : Solver Var} {s s' : RepairState}

/-- The calls of an iteration: with no violation only `removeDeadlocks`, otherwise
`appendTraceWithLocks` for the bug of the model before it. -/
theorem iteration_calls (h : iteration input z s = some s') :
    ∃ cons g, lockConstraints s.trace = some cons ∧
      g = { s.globals with numSolverCalls := s.globals.numSolverCalls + 1 } ∧
      ((s'.truthValue = false ∧ removeDeadlocks g s.trace = some (s'.trace, s'.globals) ∧
          ¬∃ σ, Satisfies σ (input.transactCons ++ cons) ∧
            ∃ bug ∈ input.bugs, bug.formula.Holds σ) ∨
        (s'.truthValue = true ∧ ∃ bug ∈ input.bugs,
          consToRepair z s.trace input.transactCons input.bugs = some bug ∧
          (∃ σ, Satisfies σ (input.transactCons ++ cons) ∧ bug.formula.Holds σ) ∧
          ∃ out g', appendTraceWithLocks g s.trace bug input.writes input.reads = some (out, g') ∧
            removeDeadlocks g' out = some (s'.trace, s'.globals))) := by
  unfold iteration at h
  cases hcons : lockConstraints s.trace with
  | none =>
      rw [addLocks, hcons] at h
      cases h
  | some cons =>
      refine ⟨cons, _, rfl, rfl, ?_⟩
      rcases @addLocks_cases z s.globals s.trace input.reads input.writes input.transactCons cons
        input.bugs hcons _ rfl with ⟨hunsat, heq⟩ | ⟨bug, hbug, hcons, hσ, heq⟩
      · rw [heq, Option.bind_eq_bind, Option.bind_some] at h
        obtain ⟨⟨out, g⟩, hremove, hresult⟩ := Option.bind_eq_some_iff.mp h
        obtain rfl := Option.some.inj hresult
        exact .inl ⟨rfl, hremove, hunsat⟩
      · rw [heq] at h
        obtain ⟨⟨trace, flag, g⟩, hcall, hrest⟩ := Option.bind_eq_some_iff.mp h
        obtain ⟨⟨out, g'⟩, happend, hresult⟩ := Option.map_eq_some_iff.mp hcall
        obtain ⟨rfl, hflag⟩ := Prod.mk.inj hresult
        obtain ⟨rfl, rfl⟩ := Prod.mk.inj hflag
        obtain ⟨⟨out', g''⟩, hremove, hresult⟩ := Option.bind_eq_some_iff.mp hrest
        obtain rfl := Option.some.inj hresult
        exact .inr ⟨rfl, bug, hbug, hcons, hσ, out, g', happend, hremove⟩

/-- What an iteration can do: find no violation, or repair the bug of the model. -/
theorem iteration_cases (h : iteration input z s = some s') :
    ∃ cons, lockConstraints s.trace = some cons ∧
      ((s'.truthValue = false ∧ s'.trace = kept none s.trace ∧ s'.globals.r = s.globals.r ∧
          ¬∃ σ, Satisfies σ (input.transactCons ++ cons) ∧
            ∃ bug ∈ input.bugs, bug.formula.Holds σ) ∨
        (s'.truthValue = true ∧ ∃ bug ∈ input.bugs,
          consToRepair z s.trace input.transactCons input.bugs = some bug ∧
          (∃ σ, Satisfies σ (input.transactCons ++ cons) ∧ bug.formula.Holds σ) ∧
          ∃ g out g', g.r = s.globals.r ∧ g'.r = s'.globals.r ∧ s'.trace = kept none out ∧
            appendTraceWithLocks g s.trace bug input.writes input.reads = some (out, g'))) := by
  obtain ⟨cons, g, hcons, rfl, ⟨hdone, hremove, hunsat⟩ | ⟨hmore, bug, hbug, htarget, hσ, out, g',
    happend, hremove⟩⟩ := iteration_calls h
  · obtain ⟨htrace, hr⟩ := removeFrom_some hremove
    exact ⟨cons, hcons, .inl ⟨hdone, htrace, hr, hunsat⟩⟩
  · obtain ⟨htrace, hr⟩ := removeFrom_some hremove
    exact ⟨cons, hcons, .inr ⟨hmore, bug, hbug, htarget, hσ,
      { s.globals with numSolverCalls := s.globals.numSolverCalls + 1 }, out, g', rfl, hr.symm,
      htrace, happend⟩⟩

end Iteration

/-! ### Locks and unlocks of the input

They are numbered by their lines, and both passes expect the text of an inserted one. -/

section Lost

variable {own other : Id} {sec : LockSection} {candidates : List Id} {found : Stmt}
  {g : LockGlobals} {held : Held} {bug : Mpa} {writes reads : List Id}

theorem insideLoop_subset (trace : Trace) :
    ∀ x ∈ trace, x ∈ (insideLoop own other sec candidates found g trace).out ∨
      x ∈ (insideLoop own other sec candidates found g trace).resume.getD [] := by
  induction trace generalizing found g with
  | nil => simp
  | cons y rest ih =>
      intro x hx
      rw [List.mem_cons] at hx
      rw [insideLoop]
      split
      · simp only [Copied.after, List.cons_append, List.nil_append, List.mem_cons]
        rcases hx with hx | hx
        · exact .inl (.inr (.inl hx))
        · exact (ih x hx).imp_left fun hx => .inr (.inr hx)
      · split
        · exact .inr (List.mem_cons.mpr hx)
        · exact hx.imp (fun hx => List.mem_cons.mpr (.inl hx)) id
        · simp only [Copied.after, List.singleton_append, List.mem_cons]
          rcases hx with hx | hx
          · exact .inl (.inl hx)
          · exact (ih x hx).imp_left .inr

theorem lockLoop_subset (trace : Trace) :
    ∀ x ∈ trace, x ∈ (lockLoop own other sec candidates g trace).out ∨
      x ∈ (lockLoop own other sec candidates g trace).resume.getD [] := by
  induction trace with
  | nil => simp
  | cons y rest ih =>
      intro x hx
      rw [List.mem_cons] at hx
      rw [lockLoop]
      split
      · simp only [Copied.after, List.cons_append, List.nil_append, List.mem_cons]
        rcases hx with hx | hx
        · exact .inl (.inr (.inl hx))
        · exact (insideLoop_subset rest x hx).imp_left fun hx => .inr (.inr hx)
      · simp only [Copied.after, List.singleton_append, List.mem_cons]
        rcases hx with hx | hx
        · exact .inl (.inl hx)
        · exact (ih x hx).imp_left .inr

theorem finish_subset {c : Copied} {trace stale : Trace}
    (h : ∀ x ∈ trace, x ∈ c.out ∨ x ∈ c.resume.getD []) :
    ∀ x ∈ trace, x ∈ (c.finish sec stale).out ∨ x ∈ (c.finish sec stale).resume := by
  intro x hx
  unfold Copied.finish
  cases hresume : c.resume with
  | some rest =>
      have hcopied := h x hx
      rwa [hresume] at hcopied
  | none =>
      have hcopied := h x hx
      rw [hresume] at hcopied
      exact .inl (List.mem_append_left _ (hcopied.resolve_right (by simp)))

theorem restrictedLoop_subset {trace out rest : Trace}
    (h : restrictedLoop own sec trace = (out, some rest)) :
    ∀ x ∈ trace, x ∈ out ∨ x ∈ rest := by
  induction trace using restrictedLoop.induct own sec generalizing out with
  | case1 y next tail hid =>
      rw [restrictedLoop, if_pos hid] at h
      obtain ⟨rfl, heq⟩ := Prod.mk.inj h
      obtain rfl := Option.some.inj heq
      intro x hx
      simp only [List.mem_cons, List.not_mem_nil, or_false] at hx ⊢
      tauto
  | case2 y next tail hid ih =>
      rw [restrictedLoop, if_neg hid] at h
      obtain ⟨rfl, heq⟩ := Prod.mk.inj h
      intro x hx
      rcases List.mem_cons.mp hx with rfl | hx
      · exact .inl List.mem_cons_self
      · exact (ih (Prod.ext rfl heq) x hx).imp_left (List.mem_cons_of_mem y)
  | case3 trace hshort =>
      obtain rfl | ⟨y, rfl⟩ := Lists.eq_nil_or_singleton hshort
      · cases h
      · cases h

theorem copyUntil_subset {second : Id} {trace out rest : Trace}
    (h : copyUntil second trace = (out, some rest)) : ∀ x ∈ trace, x ∈ out ∨ x ∈ rest := by
  induction trace using copyUntil.induct second generalizing out with
  | case1 y next tail hid =>
      rw [copyUntil, if_pos hid] at h
      obtain ⟨rfl, heq⟩ := Prod.mk.inj h
      obtain rfl := Option.some.inj heq
      exact fun x hx => .inr hx
  | case2 y next tail hid ih =>
      rw [copyUntil, if_neg hid] at h
      obtain ⟨rfl, heq⟩ := Prod.mk.inj h
      intro x hx
      rcases List.mem_cons.mp hx with rfl | hx
      · exact .inl List.mem_cons_self
      · exact (ih (Prod.ext rfl heq) x hx).imp_left (List.mem_cons_of_mem y)
  | case3 trace hshort =>
      obtain rfl | ⟨y, rfl⟩ := Lists.eq_nil_or_singleton hshort
      · cases h
      · cases h

theorem firstPhase_subset (trace : Trace) :
    ∀ x ∈ trace, x ∈ (firstPhase g trace held bug writes reads).out ∨
      x ∈ (firstPhase g trace held bug writes reads).resume := by
  intro x hx
  unfold firstPhase
  split
  · exact .inr hx
  · split
    · unfold lockFirst Copied.finish
      simp only
      split
      · rename_i rest hresume
        obtain ⟨tail, htail, rfl⟩ := Option.map_eq_some_iff.mp hresume
        have hsplit := hx
        rw [← dropLast_append_drop trace, List.mem_append] at hsplit
        rcases hsplit with hinit | hlast
        · refine (lockLoop_subset trace.dropLast x hinit).imp_right fun hrest => ?_
          rw [htail] at hrest
          exact List.mem_append_left _ hrest
        · exact .inr (List.mem_append_right _ hlast)
      · exact .inr hx
    · unfold restrictFirst
      simp only
      split
      · exact .inr hx
      · rename_i out rest hloop
        have hcopied := restrictedLoop_subset hloop x hx
        split
        · rename_i more resume huntil
          rcases hcopied with hout | hrest
          · exact .inl (List.mem_append_left _ hout)
          · exact (copyUntil_subset huntil x hrest).imp_left (List.mem_append_right _)
        · exact hcopied.imp_left (List.mem_append_left _)

theorem searchLoop_subset {trace stale : Trace} {q : Phase}
    (h : searchLoop own other sec candidates g stale trace = some q) :
    ∀ x ∈ trace, x ∈ q.out ∨ x ∈ q.resume := by
  match trace with
  | [] => simp
  | [y] =>
      rw [searchLoop] at h
      split at h
      · obtain rfl := Option.some.inj h
        intro x hx
        exact .inl (by simp [Phase.after, List.mem_singleton.mp hx])
      · cases h
  | y :: next :: rest =>
      intro x hx
      rw [List.mem_cons, List.mem_cons] at hx
      rw [searchLoop] at h
      split_ifs at h
      · obtain rfl := Option.some.inj h
        rcases hx with rfl | hx
        · exact .inl (by simp [Phase.after])
        · exact (finish_subset (insideLoop_subset (next :: rest)) x (List.mem_cons.mpr hx)).imp_left
            (List.mem_append_right _)
      · obtain rfl := Option.some.inj h
        rcases hx with rfl | rfl | hx
        · exact .inl (by simp [Phase.after])
        · exact .inl (by simp [Phase.after])
        · exact (finish_subset (insideLoop_subset rest) x hx).imp_left (List.mem_append_right _)
      · obtain ⟨q', hq', rfl⟩ := Option.map_eq_some_iff.mp h
        rcases hx with rfl | rfl | hx
        · exact .inl (by simp [Phase.after])
        · exact .inl (by simp [Phase.after])
        · exact (searchLoop_subset hq' x hx).imp_left (List.mem_append_right _)

theorem secondPhase_subset {resume : Trace} {q : Phase}
    (h : secondPhase g resume held bug writes = some q) :
    ∀ x ∈ resume, x ∈ q.out ∨ x ∈ q.resume := by
  unfold secondPhase at h
  split at h
  · obtain rfl := Option.some.inj h
    exact fun x hx => .inr hx
  · split at h
    · exact searchLoop_subset h
    · obtain rfl := Option.some.inj h
      unfold restrictSecond
      simp only
      split
      · rename_i out rest hloop
        exact restrictedLoop_subset hloop
      · exact fun x hx => .inr hx

theorem mem_appendMissing {out resume : Trace} {x : Stmt} (hx : x ∈ out ∨ x ∈ resume) :
    x ∈ appendMissing out resume := by
  induction resume generalizing out with
  | nil => exact hx.resolve_right (by simp)
  | cons y rest ih =>
      rw [appendMissing]
      apply ih
      rw [List.mem_cons] at hx
      split
      · rename_i hy
        rcases hx with hx | rfl | hx
        exacts [.inl hx, .inl hy, .inr hx]
      · rw [List.mem_append, List.mem_singleton]
        tauto

theorem appendTraceWithLocks_subset {trace out : Trace} {g' : LockGlobals}
    (hids : (trace.map Stmt.id).Nodup) (hbug : bug.In trace) (hlock : ∀ x ∈ trace, x.op ≠ .lock)
    (h : appendTraceWithLocks g trace bug writes reads = some (out, g')) : trace ⊆ out := by
  have hshared : ¬∃ pre lock mid between post,
      SharedBy bug.first bug.second pre lock mid between post trace := by
    rintro ⟨pre, lock, mid, between, post, hshared⟩
    refine hlock lock ?_ hshared.op
    rw [hshared.split]
    simp
  rw [appendTraceWithLocks_of_prepare (prepare_of_not_shared hids hbug hshared) rfl] at h
  obtain ⟨q, hq, hresult⟩ := Option.map_eq_some_iff.mp h
  obtain ⟨rfl, -⟩ := Prod.mk.inj hresult
  intro x hx
  apply mem_appendMissing
  rw [List.mem_append]
  rcases firstPhase_subset trace x hx with hfirst | hresume
  · exact .inl (.inl hfirst)
  · exact (secondPhase_subset hq x hresume).imp_left .inr

end Lost

theorem rowConstraints_eq_none {trace rest : Trace} {x : Stmt} {n : Nat} (hx : x ∈ rest)
    (hop : x.op = .lock) (hid : x.id = .line n) : rowConstraints trace rest = none := by
  induction rest with
  | nil => cases hx
  | cons y rest ih =>
      rw [rowConstraints]
      rcases List.mem_cons.mp hx with rfl | hx
      · rw [if_pos hop, sectionConstraints, hid]
        rfl
      · rw [ih hx]
        cases (if y.op = .lock then sectionConstraints trace y else some []) <;> rfl

theorem removeFrom_eq_none {openLock : Option Stmt} {g : LockGlobals} {trace : Trace} {x : Stmt}
    {n : Nat} (hx : x ∈ trace) (hop : x.op = .unlock) (hid : x.id = .line n) :
    removeFrom openLock g trace = none := by
  induction trace generalizing openLock g with
  | nil => cases hx
  | cons y rest ih =>
      rw [removeFrom]
      rcases List.mem_cons.mp hx with rfl | hx
      · have hdigits : '_' ∉ x.id.str := by
          rw [hid]
          exact underscore_notMem_digits n
        have hstray : deadlockStep openLock x = none := by
          refine deadlockStep_stray hop fun lock _ => ?_
          rw [Stmt.closes, decide_eq_false_iff_not, hid]
          intro heq
          have hdigit := @Nat.isDigit_of_mem_toDigits 10 n 'U' (by decide) (by decide)
            (by rw [show Nat.toDigits 10 n = _ from heq]; simp)
          simp at hdigit
        simp only [hstray, if_neg hdigits]
      · cases deadlockStep openLock y with
        | some next => simp only [ih hx, Option.map_none]
        | none =>
            simp only [ih hx]
            split <;> rfl

/-! ### What holds between two iterations -/

section Input

variable {input : MpaInput}

theorem MpaInput.ids_nodup (input : MpaInput) : (input.trace.map Stmt.id).Nodup :=
  Numbered.nodup input.numbered

theorem MpaInput.line_of_mem (input : MpaInput) {x : Stmt} (hx : x ∈ input.trace) :
    ∃ n, x.id = .line n :=
  Numbered.line_of_mem input.numbered hx

theorem MpaInput.lineNo_lt (input : MpaInput) {x y : Stmt} (h : Before input.trace x y) :
    x.id.lineNo < y.id.lineNo := by
  have hmap : Before (input.trace.map Stmt.id) x.id y.id := h.map Stmt.id
  rw [input.numbered] at hmap
  apply hmap.rel (R := fun a b => a.lineNo < b.lineNo)
  rw [List.pairwise_map]
  exact List.pairwise_lt_range'

theorem MpaInput.first_before_second (input : MpaInput) {bug : Mpa} (hbug : bug ∈ input.bugs) :
    Before input.trace bug.first bug.second := by
  have hin := input.bugs_in bug hbug
  have hle : bug.first.id.lineNo ≤ bug.second.id.lineNo := by
    unfold Mpa.first Mpa.second
    split <;> omega
  rcases before_or_before hin.first_mem hin.second_mem hin.ne with hbefore | hbefore
  · exact hbefore
  · have hlt := input.lineNo_lt hbefore
    omega

theorem MpaInput.w_mem_writes (input : MpaInput) {bug : Mpa} (hbug : bug ∈ input.bugs) :
    isWriter input.writes bug.w = true := by
  rw [isWriter, decide_eq_true_iff, writes, List.mem_eraseDups]
  exact List.mem_map_of_mem hbug

end Input

/-- An input with a lock or an unlock raises an exception in the first iteration. -/
theorem iteration_start_eq_none {input : MpaInput} {z : Solver Var} {x : Stmt}
    (hx : x ∈ input.trace) (hplain : ¬x.Plain) : iteration input z (.start input) = none := by
  unfold iteration
  by_cases hlock : ∃ y ∈ input.trace, y.op = .lock
  · obtain ⟨y, hy, hop⟩ := hlock
    obtain ⟨n, hid⟩ := input.line_of_mem hy
    have hcons : lockConstraints input.trace = none := by
      rw [lockConstraints, rowConstraints_eq_none hy hop hid]
      rfl
    rw [addLocks, show (RepairState.start input).trace = input.trace from rfl, hcons]
    rfl
  · rw [not_exists] at hlock
    have hnoLock : ∀ y ∈ input.trace, y.op ≠ .lock := fun y hy hop => hlock y ⟨hy, hop⟩
    obtain ⟨n, hid⟩ := input.line_of_mem hx
    have hop : x.op = .unlock := by
      by_contra hne
      exact hplain ⟨hnoLock x hx, hne⟩
    have hremove : ∀ {g : LockGlobals} {out : Trace}, x ∈ out → removeDeadlocks g out = none :=
      fun hmem => removeFrom_eq_none hmem hop hid
    obtain ⟨cons, hcons, -⟩ :=
      lockConstraints_spec fun y hy hlockOp => absurd hlockOp (hnoLock y hy)
    rcases @addLocks_cases z (RepairState.start input).globals input.trace input.reads input.writes
      input.transactCons cons input.bugs hcons _ rfl with ⟨-, heq⟩ | ⟨bug, hbug, -, -, heq⟩
    · rw [show (RepairState.start input).trace = input.trace from rfl, heq]
      simp only [Option.bind_eq_bind, Option.bind_some, hremove hx, Option.bind_none]
    · rw [show (RepairState.start input).trace = input.trace from rfl, heq]
      cases happend : appendTraceWithLocks _ input.trace bug input.writes input.reads with
      | none => rfl
      | some result =>
          have hmem := appendTraceWithLocks_subset input.ids_nodup (input.bugs_in bug hbug) hnoLock
            happend hx
          simp only [Option.map_some, Option.bind_eq_bind, Option.bind_some, hremove hmem,
            Option.bind_none]

/-- The trace is sound, its rows are different, and without the rows that were added it is the
input. -/
structure Good (input : MpaInput) (s : RepairState) : Prop where
  sound : Sound (isWriter input.writes) s.trace
  ids : (s.trace.map Stmt.id).Nodup
  below : NumberedBelow s.globals.r s.trace
  core_eq : core s.trace = input.trace

namespace Good

variable {input : MpaInput} {s : RepairState}

theorem sublist (h : Good input s) : input.trace.Sublist s.trace := by
  rw [← h.core_eq]
  exact List.filter_sublist

theorem bug_in (h : Good input s) {bug : Mpa} (hbug : bug ∈ input.bugs) : bug.In s.trace :=
  { input.bugs_in bug hbug with
    w_mem := h.sublist.subset (input.bugs_in bug hbug).w_mem
    r_mem := h.sublist.subset (input.bugs_in bug hbug).r_mem }

theorem ready (h : Good input s) {bug : Mpa} (hbug : bug ∈ input.bugs) :
    Ready s.globals.r s.trace bug input.writes :=
  ⟨h.sound, h.ids, h.below, h.bug_in hbug, (input.first_before_second hbug).trans h.sublist⟩

/-- A bug that can still happen has a store outside of sections. -/
theorem not_both_inside (h : Good input s) {bug : Mpa} (hbug : bug ∈ input.bugs) {σ : Var → Int}
    (hσ : Timed s.trace σ) (hholds : bug.formula.Holds σ)
    (hfirst : bug.first ∈ inside none s.trace) : bug.second ∉ inside none s.trace := by
  intro hsecond
  have hin := h.bug_in hbug
  have hboth : bug.w ∈ inside none s.trace ∧ bug.r ∈ inside none s.trace := by
    rcases bug.first_cases with ⟨heq, heq'⟩ | ⟨heq, heq'⟩ <;> rw [heq] at hfirst <;>
      rw [heq'] at hsecond
    exacts [⟨hfirst, hsecond⟩, ⟨hsecond, hfirst⟩]
  exact h.sound.not_both_inside h.ids hσ hholds hin.tids hin.w_store (input.w_mem_writes hbug)
    hboth.1 hboth.2

end Good

theorem Good.start {input : MpaInput} (hplain : ∀ x ∈ input.trace, x.Plain) :
    Good input (.start input) := by
  have hallows : ∀ {trace : Trace} {s : Guard}, (∀ x ∈ trace, x.Plain) → s.lock = none →
      Guard.AllowsAll (isWriter input.writes) s trace := by
    intro trace
    induction trace with
    | nil => exact fun _ _ => trivial
    | cons x rest ih =>
        intro s hrows hlock
        obtain ⟨hx, hrest⟩ := List.forall_mem_cons.mp hrows
        refine ⟨⟨fun hop => absurd hop hx.1, fun lock hopen => ?_, fun lock hopen => ?_⟩,
          ih hrest (by rw [Guard.step, lockNext_plain hx, hlock])⟩
        · rw [hlock] at hopen
          cases hopen
        · rw [hlock] at hopen
          cases hopen
  obtain ⟨hkept, hclosed⟩ := @kept_of_plain none input.trace hplain
  refine ⟨⟨hallows hplain rfl, hkept, hclosed⟩, input.ids_nodup, fun x hx k hid => ?_, ?_⟩
  · obtain ⟨n, hline⟩ := input.line_of_mem hx
    simp [hline] at hid
  · apply List.filter_eq_self.mpr
    intro x hx
    obtain ⟨n, hline⟩ := input.line_of_mem hx
    obtain ⟨hlock, hunlock⟩ := hplain x hx
    simp [Stmt.isSync, hlock, hunlock, hline]

theorem Good.repaired {input : MpaInput} {s s' : RepairState} {bug : Mpa} {added out : Trace}
    (h : Good input s) (htrace : s'.trace = kept none out)
    (hrepaired : Repaired s.trace bug input.writes s.globals.r s'.globals.r added out) :
    Good input s' := by
  have hrefines := hrepaired.refines
  have hallows := (hrefines.allows (Guard.Le.refl .start)).1
  obtain ⟨hkept, hlock, -⟩ := @kept_idem none out
  have hsubset : kept none out ⊆ s.trace ++ added := hrefines.rows.subset
  refine ⟨?_, ?_, fun x hx k hid => ?_, ?_⟩
  · rw [htrace]
    refine ⟨(Guard.allowsAll_kept hallows).1, hkept, ?_⟩
    rw [hlock]
    exact hrefines.lockAfter_eq.trans h.sound.closed
  · have hnodup : ((s.trace ++ added).map Stmt.id).Nodup := by
      rw [List.map_append, List.nodup_append]
      refine ⟨h.ids, hrepaired.numbered.nodup, fun id hid id' hid' heq => ?_⟩
      obtain ⟨x, hx, rfl⟩ := List.mem_map.mp hid
      obtain ⟨y, hy, rfl⟩ := List.mem_map.mp hid'
      obtain ⟨k, hlo, -, hyid⟩ := hrepaired.numbered.range y hy
      have hlt := h.below x hx k (by rw [heq]; exact hyid)
      omega
    obtain ⟨rows, hperm, hsub⟩ := hrefines.rows
    rw [htrace]
    exact (hperm.map Stmt.id).nodup_iff.mp (hnodup.sublist (hsub.map Stmt.id))
  · rw [htrace] at hx
    rcases List.mem_append.mp (hsubset hx) with hx | hx
    · exact lt_of_lt_of_le (h.below x hx k hid) hrepaired.le
    · obtain ⟨k', -, hhi, hid'⟩ := hrepaired.numbered.range x hx
      have hsame : k = k' := by
        rcases hid with hid | hid | hid <;> rcases hid' with hid' | hid' | hid' <;>
          rw [hid] at hid' <;> simp at hid' <;> exact hid'
      omega
  · rw [htrace]
    exact hrefines.core_eq.trans h.core_eq

section Step

variable {input : MpaInput} {z : Solver Var} {s s' : RepairState}

/-- One iteration from a good state: it finds no violation, it repairs a bug, or it leaves a row
twice. -/
theorem Good.step (h : Good input s) (hstep : iteration input z s = some s') :
    (s'.truthValue = false ∧ s'.trace = s.trace ∧ Good input s' ∧
        ∃ cons, lockConstraints s.trace = some cons ∧
          ¬∃ σ, Satisfies σ (input.transactCons ++ cons) ∧
            ∃ bug ∈ input.bugs, bug.formula.Holds σ) ∨
      (s'.truthValue = true ∧ ∃ bug ∈ input.bugs,
        consToRepair z s.trace input.transactCons input.bugs = some bug ∧
        (∃ σ, Timed s.trace σ ∧ bug.formula.Holds σ) ∧
        ((Good input s' ∧ ∃ added out, s'.trace = kept none out ∧
            Repaired s.trace bug input.writes s.globals.r s'.globals.r added out) ∨
          (Repeats s'.trace ∧ kept none s'.trace = s'.trace ∧ ¬Locked s.trace bug.first ∧
            ¬Locked s.trace bug.second ∧
            ¬ClosesInTime s.trace bug input.writes))) := by
  obtain ⟨cons, hcons, ⟨hdone, htrace, hr, hunsat⟩ | ⟨hmore, bug, hbug, htarget, ⟨σ, hσ, hholds⟩, g,
    out, g', hg, hg', htrace, happend⟩⟩ := iteration_cases hstep
  · rw [h.sound.keeps] at htrace
    refine .inl ⟨hdone, htrace, ⟨?_, ?_, ?_, ?_⟩, cons, hcons, hunsat⟩ <;> rw [htrace]
    exacts [h.sound, h.ids, hr ▸ h.below, h.core_eq]
  · obtain ⟨cons', hcons', htimed, -⟩ := lockConstraints_spec h.sound.sections.labelled
    rw [hcons, Option.some.injEq] at hcons'
    subst hcons'
    refine .inr ⟨hmore, bug, hbug, htarget, ⟨σ, htimed σ (satisfies_append.mp hσ).2, hholds⟩, ?_⟩
    have hready := h.ready hbug
    rw [← hg] at hready
    rcases appendTraceWithLocks_step hready happend with ⟨added, hrepaired⟩ | ⟨hrepeats, hlate⟩
    · rw [hg, hg'] at hrepaired
      exact .inl ⟨h.repaired htrace hrepaired, added, out, htrace, hrepaired⟩
    · refine .inr ⟨htrace ▸ hrepeats, ?_, hlate⟩
      rw [htrace]
      exact kept_idem.1

theorem consToRepair_spec {z : Solver Var} {trace : Trace} {transactCons : List (Formula Var)}
    {bugs : List Mpa} {bug : Mpa} (h : consToRepair z trace transactCons bugs = some bug) :
    bug ∈ bugs ∧ ∃ cons σ, lockConstraints trace = some cons ∧ Satisfies σ cons ∧
      bug.formula.Holds σ := by
  obtain ⟨cons, hcons, hrest⟩ := Option.bind_eq_some_iff.mp h
  obtain ⟨model, hcheck, hfind⟩ := Option.bind_eq_some_iff.mp hrest
  have hsat := z.sound hcheck _ model.extends_completion
  rw [satisfies_append, satisfies_append] at hsat
  exact ⟨List.mem_of_find?_eq_some hfind, cons, _, hcons, hsat.1.2,
    by simpa using List.find?_some hfind⟩

/-- With the stores of all bugs in sections the loop ends. -/
theorem Good.done_of_inside (h : Good input s)
    (hall : ∀ bug ∈ input.bugs,
      bug.first ∈ inside none s.trace ∧ bug.second ∈ inside none s.trace) :
    consToRepair z s.trace input.transactCons input.bugs = none ∧
      ∃ g, iteration input z s = some ⟨s.trace, g, false⟩ := by
  obtain ⟨cons, hcons, htimed, -⟩ := lockConstraints_spec h.sound.sections.labelled
  have hunsat : ∀ σ, Satisfies σ cons → ∀ bug ∈ input.bugs, ¬bug.formula.Holds σ :=
    fun σ hσ bug hbug hholds =>
      h.not_both_inside hbug (htimed σ hσ) hholds (hall bug hbug).1 (hall bug hbug).2
  constructor
  · rw [Option.eq_none_iff_forall_ne_some]
    intro bug htarget
    obtain ⟨hbug, cons', σ, hcons', hσ, hholds⟩ := consToRepair_spec htarget
    rw [hcons, Option.some.injEq] at hcons'
    exact hunsat σ (hcons' ▸ hσ) bug hbug hholds
  · rcases @addLocks_cases z s.globals s.trace input.reads input.writes input.transactCons cons
      input.bugs hcons _ rfl with ⟨-, heq⟩ | ⟨bug, hbug, -, ⟨σ, hσ, hholds⟩, -⟩
    · refine ⟨{ s.globals with numSolverCalls := s.globals.numSolverCalls + 1 }, ?_⟩
      rw [iteration, heq, Option.bind_eq_bind, Option.bind_some]
      simp only [removeDeadlocks, removeFrom_of_kept h.sound.keeps, Option.bind_eq_bind,
        Option.bind_some]
      rfl
    · exact absurd hholds (hunsat σ (satisfies_append.mp hσ).2 bug hbug)

/-- A row that is there twice leaves no solution, and the loop ends. -/
theorem Repeats.step (h : Repeats s.trace) (hstep : iteration input z s = some s') :
    s'.truthValue = false ∧ s'.trace = kept none s.trace := by
  obtain ⟨x, htwice⟩ := h
  obtain ⟨cons, hcons, ⟨hdone, htrace, -⟩ | ⟨-, bug, -, -, ⟨σ, hσ, -⟩, -⟩⟩ := iteration_cases hstep
  · exact ⟨hdone, htrace⟩
  · have hlt := lockConstraints_threads hcons (satisfies_append.mp hσ).2 htwice rfl
    omega

end Step

/-! ### Runs -/

section Runs

variable {input : MpaInput} {z : Nat → Solver Var} {n : Nat} {s s' : RepairState}

theorem run_succ_cases (h : run input z (n + 1) = some s') :
    ∃ s, run input z n = some s ∧ ((s.truthValue = true ∧ iteration input (z n) s = some s') ∨
      (s.truthValue = false ∧ s' = s)) := by
  obtain ⟨s, hrun, hstep⟩ := Option.bind_eq_some_iff.mp h
  refine ⟨s, hrun, ?_⟩
  split at hstep
  · rename_i hmore
    exact .inl ⟨hmore, hstep⟩
  · rename_i hdone
    exact .inr ⟨Bool.eq_false_iff.mpr hdone, (Option.some.inj hstep).symm⟩

theorem run_succ_of_true (hrun : run input z n = some s) (hmore : s.truthValue = true) :
    run input z (n + 1) = iteration input (z n) s := by
  rw [run, hrun, Option.bind_eq_bind, Option.bind_some, if_pos hmore]

/-- A run that does not raise an exception started from statements without locks. -/
theorem plain_of_run (hrun : run input z n = some s) (hmore : s.truthValue = true)
    (hstep : iteration input (z n) s = some s') : ∀ x ∈ input.trace, x.Plain := by
  intro x hx
  by_contra hplain
  induction n generalizing s s' with
  | zero =>
      obtain rfl := Option.some.inj hrun
      rw [iteration_start_eq_none hx hplain] at hstep
      cases hstep
  | succ n ih =>
      obtain ⟨s₀, hrun₀, ⟨hmore₀, hstep₀⟩ | ⟨hdone, rfl⟩⟩ := run_succ_cases hrun
      · exact ih hrun₀ hmore₀ hstep₀
      · rw [hdone] at hmore
        cases hmore

/-- Every state of a run is good, or it holds a row twice. -/
theorem run_good (hplain : ∀ x ∈ input.trace, x.Plain) (hrun : run input z n = some s) :
    Good input s ∨ (Repeats s.trace ∧ kept none s.trace = s.trace) := by
  induction n generalizing s with
  | zero =>
      obtain rfl := Option.some.inj hrun
      exact .inl (.start hplain)
  | succ n ih =>
      obtain ⟨s₀, hrun₀, ⟨hmore, hstep⟩ | ⟨hdone, rfl⟩⟩ := run_succ_cases hrun
      · rcases ih hrun₀ with hgood | ⟨hrepeats, hkept⟩
        · rcases hgood.step hstep with ⟨-, -, hgood', -⟩ | ⟨-, bug, -, -, -, ⟨hgood', -⟩ |
            ⟨hrepeats, hkept, -⟩⟩
          · exact .inl hgood'
          · exact .inl hgood'
          · exact .inr ⟨hrepeats, hkept⟩
        · obtain ⟨-, htrace⟩ := hrepeats.step hstep
          rw [hkept] at htrace
          rw [htrace]
          exact .inr ⟨hrepeats, hkept⟩
      · exact ih hrun₀

end Runs

theorem Repeats.not_nodup {trace : Trace} (h : Repeats trace) : ¬(trace.map Stmt.id).Nodup := by
  obtain ⟨x, hbefore⟩ := h
  intro hids
  exact hbefore.asymm hids.of_map hbefore

/-- Behind every iteration that leaves the rows different the locks form sections. -/
theorem iteration_sections (input : MpaInput) (z : Nat → Solver Var) (n : Nat)
    (s s' : RepairState) (hrun : run input z n = some s) (hmore : s.truthValue = true)
    (hstep : iteration input (z n) s = some s') (hids : (s'.trace.map Stmt.id).Nodup) :
    Sections s'.trace := by
  have hnext : run input z (n + 1) = some s' := by rw [run_succ_of_true hrun hmore, hstep]
  rcases run_good (plain_of_run hrun hmore hstep) hnext with hgood | ⟨hrepeats, -⟩
  · exact hgood.sound.sections
  · exact absurd hids hrepeats.not_nodup

/-- A satisfiable question about a single bug gets this bug repaired. -/
theorem iteration_of_satisfies {input : MpaInput} {z : Solver Var} {s : RepairState} {bug : Mpa}
    {cons : List (Formula Var)} {σ : Var → Int} (hbugs : input.bugs = [bug])
    (hcons : lockConstraints s.trace = some cons) (hσ : Satisfies σ (input.transactCons ++ cons))
    (hholds : bug.formula.Holds σ) {g g' g'' : LockGlobals} {out out' : Trace}
    (hg : g = { s.globals with numSolverCalls := s.globals.numSolverCalls + 1 })
    (happend : appendTraceWithLocks g s.trace bug input.writes input.reads = some (out, g'))
    (hremove : removeDeadlocks g' out = some (out', g'')) :
    iteration input z s = some ⟨out', g'', true⟩ := by
  rcases @addLocks_cases z s.globals s.trace input.reads input.writes input.transactCons cons
    input.bugs hcons _ rfl with ⟨hunsat, -⟩ | ⟨bug', hbug, -, -, heq⟩
  · exact absurd ⟨σ, hσ, bug, by rw [hbugs]; simp, hholds⟩ hunsat
  · rw [hbugs, List.mem_singleton] at hbug
    subst hbug
    rw [iteration, heq, ← hg, happend, Option.map_some, Option.bind_eq_bind, Option.bind_some]
    simp only [hremove, Option.bind_eq_bind, Option.bind_some]
    rfl

/-- A single bug whose stores are both in sections behind its repair: the second iteration is the
last one. -/
theorem run_of_single_repair {input : MpaInput} {bug : Mpa} {cons : List (Formula Var)}
    {σ : Var → Int} {locked : Trace} {g g' : LockGlobals} (hbugs : input.bugs = [bug])
    (hcons : lockConstraints input.trace = some cons)
    (hσ : Satisfies σ (input.transactCons ++ cons)) (hholds : bug.formula.Holds σ)
    (happend : appendTraceWithLocks { LockGlobals.start with numSolverCalls := 1 } input.trace bug
      input.writes input.reads = some (locked, g))
    (hremove : removeDeadlocks g locked = some (locked, g'))
    (hplain : ∀ x ∈ input.trace, x.Plain) (hids : (locked.map Stmt.id).Nodup)
    (hinside : bug.first ∈ inside none locked ∧ bug.second ∈ inside none locked)
    (z : Nat → Solver Var) :
    (∃ g, ∀ n, run input z (n + 2) = some ⟨locked, g, false⟩) ∧
      ∀ n s bug, run input z n = some s → s.truthValue = true →
        consToRepair (z n) s.trace input.transactCons input.bugs = some bug →
        s.trace = input.trace := by
  have hmore : (RepairState.start input).truthValue = true := by
    rw [RepairState.start, hbugs]
    rfl
  have hstep := @iteration_of_satisfies input (z 0) (.start input) bug cons σ hbugs hcons hσ hholds
    _ _ _ _ locked rfl happend hremove
  have hrun : run input z 1 = some ⟨locked, g', true⟩ := (run_succ_of_true rfl hmore).trans hstep
  have hgood : Good input ⟨locked, g', true⟩ := by
    rcases run_good hplain hrun with hgood | ⟨hrepeats, -⟩
    · exact hgood
    · exact absurd hids hrepeats.not_nodup
  have hall : ∀ other ∈ input.bugs,
      other.first ∈ inside none locked ∧ other.second ∈ inside none locked := by
    intro other hother
    rw [hbugs, List.mem_singleton] at hother
    rw [hother]
    exact hinside
  obtain ⟨hnone, g'', hlast⟩ := @Good.done_of_inside input (z 1) _ hgood hall
  have hdone : ∀ n, run input z (n + 2) = some ⟨locked, g'', false⟩ := by
    intro n
    induction n with
    | zero => exact (run_succ_of_true hrun rfl).trans hlast
    | succ n ih =>
        rw [run, ih]
        rfl
  refine ⟨⟨g'', hdone⟩, fun n s other hrun' hmore' htarget => ?_⟩
  match n, hrun', htarget with
  | 0, hrun', _ =>
      obtain rfl := Option.some.inj hrun'
      rfl
  | 1, hrun', htarget =>
      rw [hrun, Option.some.injEq] at hrun'
      subst hrun'
      rw [hnone] at htarget
      cases htarget
  | n + 2, hrun', _ =>
      rw [hdone n, Option.some.injEq] at hrun'
      subst hrun'
      cases hmore'

/-! ### A run with one section -/

/-- The reader comes last in the trace. -/
def lastRead : Trace :=
  [⟨.line 2, .store, "x", "-1", 0, "f_1"⟩, ⟨.line 3, .fence, "0", "-1", 0, "f_2"⟩,
    ⟨.line 4, .store, "y", "-1", 1, "g_3"⟩]

def lastReadBug : Mpa := ⟨lastRead[0], lastRead[2]⟩

def lastReadInput : MpaInput where
  trace := lastRead
  bugs := [lastReadBug]
  numbered := rfl
  bugs_in := by
    intro bug hbug
    rw [List.mem_singleton.mp hbug]
    exact ⟨by simp [lastReadBug], by simp [lastReadBug], rfl, rfl, ⟨2, rfl⟩, ⟨4, rfl⟩, by decide⟩

/-- The trace behind the first iteration, and behind every later one. -/
def lastReadLocked : Trace :=
  [(LockSection.new lastRead[0] 0).lock, lastRead[0], lastRead[1],
    (LockSection.new lastRead[0] 0).unlock, lastRead[2]]

/-- The reader executes between the writer and its fence, in front of which there may be a lock. -/
def lastReadTimes (shift : Int) : Var → Int
  | .pc (.lock _) => 1
  | .pc (.line 2) => 1 + shift
  | .pc (.line 4) => 2 + shift
  | .pc (.unlock _) => 5
  | .pc _ => 3 + shift
  | .pt _ => 3 + shift

theorem lastRead_first (z : Solver Var) :
    ∃ g, iteration lastReadInput z (.start lastReadInput) = some ⟨lastReadLocked, g, true⟩ :=
  ⟨_, @iteration_of_satisfies lastReadInput z (.start lastReadInput) lastReadBug _ (lastReadTimes 0)
    rfl rfl (by decide) (by decide) _ _ _ _ lastReadLocked rfl rfl rfl⟩

/-- The locks of this run form a section behind its first iteration. -/
theorem iteration_sections_lastRead : Sections lastReadLocked := by
  obtain ⟨g, hstep⟩ := lastRead_first .classical
  have hids : (lastReadLocked.map Stmt.id).Nodup := by decide
  exact iteration_sections lastReadInput (fun _ => .classical) 0 (.start lastReadInput)
    ⟨lastReadLocked, g, true⟩ rfl rfl hstep hids

end PMBugRepair
