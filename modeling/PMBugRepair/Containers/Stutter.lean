import Mathlib.Data.List.Destutter

/-!
# Lists with repetitions

A list in which every entry of another one stands once or more in a row. Whatever does not look at
repetitions does the same on both.
-/

namespace Lists

variable {α β : Type}

/-- The second list has every entry of the first one at least once. -/
inductive Stutters : List α → List α → Prop where
  | nil : Stutters [] []
  | block (x : α) (n : Nat) {short long : List α} (h : Stutters short long) :
      Stutters (x :: short) (List.replicate (n + 1) x ++ long)

namespace Stutters

variable {short long short' long' : List α}

theorem append (h : Stutters short long) (h' : Stutters short' long') :
    Stutters (short ++ short') (long ++ long') := by
  induction h with
  | nil => exact h'
  | block x n _ ih =>
      rw [List.append_assoc]
      exact .block x n ih

theorem concat (h : Stutters short long) (x : α) (n : Nat) :
    Stutters (short ++ [x]) (long ++ List.replicate (n + 1) x) := by
  apply h.append
  rw [← List.append_nil (List.replicate (n + 1) x)]
  exact .block x n .nil

theorem filter (h : Stutters short long) (p : α → Bool) :
    Stutters (short.filter p) (long.filter p) := by
  induction h with
  | nil => exact .nil
  | block x n _ ih =>
      rw [List.filter_append, List.filter_replicate]
      by_cases hx : p x = true
      · rw [if_pos hx, List.filter_cons_of_pos hx]
        exact .block x n ih
      · rw [if_neg hx, List.filter_cons_of_neg hx]
        exact ih

theorem mapM {f : α → Option β} (h : Stutters short long) {out : List β}
    (hout : short.mapM f = some out) : ∃ out', long.mapM f = some out' ∧ Stutters out out' := by
  have hblock : ∀ (n : Nat) (x : α) (y : β), f x = some y →
      (List.replicate n x).mapM f = some (List.replicate n y) := by
    intro n x y hy
    induction n with
    | zero => rfl
    | succ n ih => simp [List.replicate_succ, List.mapM_cons, hy, ih]
  induction h generalizing out with
  | nil =>
      obtain rfl : out = [] := by simpa using hout.symm
      exact ⟨[], hout, .nil⟩
  | block x n _ ih =>
      rw [List.mapM_cons] at hout
      simp only [Option.bind_eq_bind, Option.bind_eq_some_iff, Option.pure_def,
        Option.some.injEq] at hout
      obtain ⟨y, hy, tail, htail, rfl⟩ := hout
      obtain ⟨rest, hrest, hstutters⟩ := ih htail
      refine ⟨List.replicate (n + 1) y ++ rest, ?_, .block y n hstutters⟩
      rw [List.mapM_append, hblock (n + 1) x y hy, hrest]
      rfl

theorem foldl_eq (h : Stutters short long) {f : β → α → β} (hf : ∀ b x, f (f b x) x = f b x)
    (b : β) : long.foldl f b = short.foldl f b := by
  have hblock : ∀ (n : Nat) (b : β) (x : α), (List.replicate n x).foldl f (f b x) = f b x := by
    intro n b x
    induction n with
    | zero => rfl
    | succ n ih => rw [List.replicate_succ, List.foldl_cons, hf, ih]
  induction h generalizing b with
  | nil => rfl
  | block x n _ ih =>
      rw [List.foldl_append, List.replicate_succ, List.foldl_cons, hblock, ih, List.foldl_cons]

theorem destutter'_eq (h : Stutters short long) {R : α → α → Prop} [DecidableRel R]
    (hR : ∀ x, ¬R x x) (a : α) : long.destutter' R a = short.destutter' R a := by
  have hblock : ∀ (n : Nat) (a x : α) (rest : List α), ¬R a x →
      (List.replicate n x ++ rest).destutter' R a = rest.destutter' R a := by
    intro n a x rest hx
    induction n with
    | zero => rfl
    | succ n ih => rw [List.replicate_succ, List.cons_append, List.destutter'_cons_neg _ hx, ih]
  induction h generalizing a with
  | nil => rfl
  | block x n _ ih =>
      by_cases hx : R a x
      · rw [List.replicate_succ, List.cons_append, List.destutter'_cons_pos _ hx,
          List.destutter'_cons_pos _ hx, hblock n x x _ (hR x), ih]
      · rw [hblock _ _ _ _ hx, List.destutter'_cons_neg _ hx, ih]

/-- The repetitions disappear with those that were there before. -/
theorem destutter_eq (h : Stutters short long) {R : α → α → Prop} [DecidableRel R]
    (hR : ∀ x, ¬R x x) : long.destutter R = short.destutter R := by
  cases h with
  | nil => rfl
  | @block x n short long h =>
      rw [List.replicate_succ, List.cons_append, List.destutter_cons', List.destutter_cons']
      have hrest : Stutters (x :: short) (List.replicate (n + 1) x ++ long) := .block x n h
      have heq := hrest.destutter'_eq hR x
      rwa [List.replicate_succ, List.cons_append, List.destutter'_cons_neg _ (hR x),
        List.destutter'_cons_neg _ (hR x)] at heq

theorem mem_iff (h : Stutters short long) {x : α} : x ∈ long ↔ x ∈ short := by
  induction h with
  | nil => rfl
  | block y n _ ih => simp [ih]

theorem eq_nil_iff (h : Stutters short long) : long = [] ↔ short = [] := by
  cases h with
  | nil => simp
  | block x n h => simp

end Stutters

end Lists
