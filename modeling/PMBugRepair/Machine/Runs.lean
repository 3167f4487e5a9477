import Mathlib.Data.List.Induction

/-!
# Runs of a machine

A machine makes steps that are named by actions; an action may be impossible in a state. A run is
the list of its actions. What every allowed step keeps holds in every state that is reached by
allowed steps.
-/

namespace Machine

variable {σ α : Type}

/-- The actions lead from `start` to a state, and each one is allowed where it is made. -/
inductive Reaches (step : σ → α → Option σ) (Allowed : σ → α → Prop) (start : σ) :
    List α → σ → Prop where
  | nil : Reaches step Allowed start [] start
  | concat {actions : List α} {state next : σ} {action : α}
      (hreach : Reaches step Allowed start actions state) (hallowed : Allowed state action)
      (hstep : step state action = some next) :
      Reaches step Allowed start (actions ++ [action]) next

variable {step : σ → α → Option σ} {Allowed : σ → α → Prop} {start state : σ} {actions : List α}

theorem Reaches.invariant (h : Reaches step Allowed start actions state) {Inv : σ → Prop}
    (hstart : Inv start)
    (hstep : ∀ state action next, Inv state → Allowed state action →
      step state action = some next → Inv next) : Inv state := by
  induction h with
  | nil => exact hstart
  | concat _ hallowed hnext ih => exact hstep _ _ _ ih hallowed hnext

theorem reaches_of_foldlM [∀ state action, Decidable (Allowed state action)]
    (h : actions.foldlM (fun state action =>
      if Allowed state action then step state action else none) start = some state) :
    Reaches step Allowed start actions state := by
  induction actions using List.reverseRecOn generalizing state with
  | nil =>
      obtain rfl : start = state := by simpa using h
      exact .nil
  | append_singleton actions action ih =>
      rw [List.foldlM_append] at h
      obtain ⟨before, hbefore, hstep⟩ := Option.bind_eq_some_iff.mp h
      rw [List.foldlM_cons, Option.bind_eq_bind, Option.bind_eq_some_iff] at hstep
      obtain ⟨after, hafter, heq⟩ := hstep
      obtain rfl : after = state := by simpa using heq
      split_ifs at hafter with hallowed
      exact .concat (ih hbefore) hallowed hafter

end Machine
