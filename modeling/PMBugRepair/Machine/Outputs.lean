import Mathlib.Data.List.Induction
import Mathlib.Data.List.Basic

/-!
# Machines with output

Every action has an output, which may be empty. The output of a run is that of its actions, one
after the other, so every place in it belongs to exactly one of them.
-/

namespace Machine

variable {σ α ω : Type*} (step : σ → α → σ × List ω)

/-- The last state and the output of a run. -/
def run (start : σ) : List α → σ × List ω
  | [] => (start, [])
  | action :: rest =>
      let next := step start action
      ((run next.1 rest).1, next.2 ++ (run next.1 rest).2)

variable {step} {start : σ} {actions later : List α} {before after : List ω} {x : ω}

@[simp] theorem run_nil (start : σ) : run step start [] = (start, []) := rfl

theorem run_append (start : σ) (actions later : List α) :
    run step start (actions ++ later) =
      ((run step (run step start actions).1 later).1,
        (run step start actions).2 ++ (run step (run step start actions).1 later).2) := by
  induction actions generalizing start with
  | nil => simp
  | cons action rest ih => simp [run, ih]

theorem run_concat (start : σ) (actions : List α) (action : α) :
    run step start (actions ++ [action]) =
      ((step (run step start actions).1 action).1,
        (run step start actions).2 ++ (step (run step start actions).1 action).2) := by
  rw [run_append]
  simp [run]

/-- What holds at the start and is kept by every step holds after every run, of the actions, the
state and the output. -/
theorem run_invariant {Inv : List α → σ → List ω → Prop} (hstart : Inv [] start [])
    (hstep : ∀ actions action, Inv actions (run step start actions).1 (run step start actions).2 →
      Inv (actions ++ [action]) (step (run step start actions).1 action).1
        ((run step start actions).2 ++ (step (run step start actions).1 action).2))
    (actions : List α) : Inv actions (run step start actions).1 (run step start actions).2 := by
  induction actions using List.reverseRecOn with
  | nil => exact hstart
  | append_singleton actions action ih =>
      rw [run_concat]
      exact hstep actions action ih

/-- A place in the output belongs to one action. -/
theorem exists_step_of_run (h : (run step start actions).2 = before ++ x :: after) :
    ∃ prior action later front back, actions = prior ++ action :: later ∧
      (step (run step start prior).1 action).2 = front ++ x :: back ∧
      before = (run step start prior).2 ++ front ∧
      after = back ++ (run step (run step start (prior ++ [action])).1 later).2 := by
  induction actions generalizing start before with
  | nil => simp at h
  | cons action rest ih =>
      rw [run] at h
      rcases List.append_eq_append_iff.mp h with ⟨front, rfl, hfront⟩ | ⟨back, hback, hrest⟩
      · obtain ⟨prior, action', later, front', back', rfl, hstep, rfl, rfl⟩ := ih hfront
        exact ⟨action :: prior, action', later, front', back', rfl, hstep, by simp [run],
          by simp [run]⟩
      · cases back with
        | nil =>
            have hout : (run step (step start action).1 rest).2 = [] ++ x :: after := hrest.symm
            obtain ⟨prior, action', later, front', back', rfl, hstep, hbefore, hafter⟩ := ih hout
            refine ⟨action :: prior, action', later, front', back', rfl, hstep, ?_, hafter⟩
            obtain ⟨hnil, rfl⟩ := List.nil_eq_append_iff.mp hbefore
            simpa [run, hnil] using hback.symm
        | cons y back =>
            obtain ⟨rfl, rfl⟩ := List.cons.inj hrest
            exact ⟨[], action, rest, before, back, rfl, hback, rfl, by simp [run]⟩

/-- Outputs that do not begin with the wrong thing make a run that does not. -/
theorem run_head {P : ω → Prop} (h : ∀ s action, ∀ x ∈ (step s action).2.head?, P x) :
    ∀ x ∈ (run step start actions).2.head?, P x := by
  induction actions generalizing start with
  | nil => simp
  | cons action rest ih =>
      intro x hx
      rw [run] at hx
      cases hout : (step start action).2 with
      | nil => exact ih x (by simpa [hout] using hx)
      | cons y out => exact h start action x (by simpa [hout] using hx)

end Machine
