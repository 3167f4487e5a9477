import Mathlib.Data.List.Dedup
import Mathlib.Tactic

/-!
# Integer constraints and the solver that answers them

The constraint language of an SMT front end restricted to linear integer atoms, over any type of
variables, and the contract of a solver for it. A model interprets finitely many variables; it is
legal when *every* assignment that extends it satisfies the assertions, so a variable may be missing
from a model only when its value does not matter.
-/

namespace Smt

inductive Term (V : Type) where
  | var (v : V)
  | const (c : Int)
  | add (s t : Term V)
  | sub (s t : Term V)

/-- Formulas as the front end builds them. The argument list of a conjunction is spelled with
`andNil` and `andCons`, that of a disjunction with `orNil` and `orCons`, so that an empty
conjunction and the literal `True` stay different texts. -/
inductive Formula (V : Type) where
  | lit (value : Bool)
  | lt (s t : Term V)
  | le (s t : Term V)
  | eq (s t : Term V)
  | distinct (ts : List (Term V))
  | not (φ : Formula V)
  | imp (φ ψ : Formula V)
  | andNil
  | andCons (φ ψ : Formula V)
  | orNil
  | orCons (φ ψ : Formula V)

variable {V : Type}

def Term.eval (σ : V → Int) : Term V → Int
  | .var v => σ v
  | .const c => c
  | .add s t => s.eval σ + t.eval σ
  | .sub s t => s.eval σ - t.eval σ

def Term.vars : Term V → List V
  | .var v => [v]
  | .const _ => []
  | .add s t => s.vars ++ t.vars
  | .sub s t => s.vars ++ t.vars

namespace Formula

def Holds (σ : V → Int) : Formula V → Prop
  | .lit value => value = true
  | .lt s t => s.eval σ < t.eval σ
  | .le s t => s.eval σ ≤ t.eval σ
  | .eq s t => s.eval σ = t.eval σ
  | .distinct ts => (ts.map (Term.eval σ)).Nodup
  | .not φ => ¬φ.Holds σ
  | .imp φ ψ => φ.Holds σ → ψ.Holds σ
  | .andNil => True
  | .andCons φ ψ => φ.Holds σ ∧ ψ.Holds σ
  | .orNil => False
  | .orCons φ ψ => φ.Holds σ ∨ ψ.Holds σ

instance decidableHolds (σ : V → Int) : (φ : Formula V) → Decidable (φ.Holds σ)
  | .lit value => inferInstanceAs (Decidable (value = true))
  | .lt s t => inferInstanceAs (Decidable (s.eval σ < t.eval σ))
  | .le s t => inferInstanceAs (Decidable (s.eval σ ≤ t.eval σ))
  | .eq s t => inferInstanceAs (Decidable (s.eval σ = t.eval σ))
  | .distinct ts => inferInstanceAs (Decidable (ts.map (Term.eval σ)).Nodup)
  | .not φ =>
      have := decidableHolds σ φ
      inferInstanceAs (Decidable (¬φ.Holds σ))
  | .imp φ ψ =>
      have := decidableHolds σ φ
      have := decidableHolds σ ψ
      inferInstanceAs (Decidable (φ.Holds σ → ψ.Holds σ))
  | .andNil => inferInstanceAs (Decidable True)
  | .andCons φ ψ =>
      have := decidableHolds σ φ
      have := decidableHolds σ ψ
      inferInstanceAs (Decidable (φ.Holds σ ∧ ψ.Holds σ))
  | .orNil => inferInstanceAs (Decidable False)
  | .orCons φ ψ =>
      have := decidableHolds σ φ
      have := decidableHolds σ ψ
      inferInstanceAs (Decidable (φ.Holds σ ∨ ψ.Holds σ))

def vars : Formula V → List V
  | .lit _ => []
  | .lt s t => s.vars ++ t.vars
  | .le s t => s.vars ++ t.vars
  | .eq s t => s.vars ++ t.vars
  | .distinct ts => ts.flatMap Term.vars
  | .not φ => φ.vars
  | .imp φ ψ => φ.vars ++ ψ.vars
  | .andNil => []
  | .andCons φ ψ => φ.vars ++ ψ.vars
  | .orNil => []
  | .orCons φ ψ => φ.vars ++ ψ.vars

/-- `And(φs)`. -/
def all (φs : List (Formula V)) : Formula V := φs.foldr .andCons .andNil

/-- `Or(φs)`. -/
def any (φs : List (Formula V)) : Formula V := φs.foldr .orCons .orNil

/-- The printed formula contains the text `Not(And)`: a negated conjunction without arguments. -/
def printsNotAnd : Formula V → Bool
  | .not .andNil => true
  | .not φ => φ.printsNotAnd
  | .imp φ ψ => φ.printsNotAnd || ψ.printsNotAnd
  | .andCons φ ψ => φ.printsNotAnd || ψ.printsNotAnd
  | .orCons φ ψ => φ.printsNotAnd || ψ.printsNotAnd
  | _ => false

def isFalse : Formula V → Bool
  | .lit false => true
  | _ => false

section Holds

variable {σ τ : V → Int}

@[simp] theorem holds_lt {s t : Term V} : (lt s t).Holds σ ↔ s.eval σ < t.eval σ := Iff.rfl

@[simp] theorem holds_le {s t : Term V} : (le s t).Holds σ ↔ s.eval σ ≤ t.eval σ := Iff.rfl

@[simp] theorem holds_eq {s t : Term V} : (eq s t).Holds σ ↔ s.eval σ = t.eval σ := Iff.rfl

@[simp] theorem holds_distinct {ts : List (Term V)} :
    (distinct ts).Holds σ ↔ (ts.map (Term.eval σ)).Nodup := Iff.rfl

@[simp] theorem holds_not {φ : Formula V} : (not φ).Holds σ ↔ ¬φ.Holds σ := Iff.rfl

@[simp] theorem holds_imp {φ ψ : Formula V} :
    (imp φ ψ).Holds σ ↔ (φ.Holds σ → ψ.Holds σ) := Iff.rfl

@[simp] theorem holds_all {φs : List (Formula V)} :
    (all φs).Holds σ ↔ ∀ φ ∈ φs, φ.Holds σ := by
  induction φs with
  | nil => simp [all, Holds]
  | cons φ φs ih =>
      have hstep : (all (φ :: φs)).Holds σ ↔ φ.Holds σ ∧ (all φs).Holds σ := Iff.rfl
      rw [hstep, ih]
      simp

@[simp] theorem holds_any {φs : List (Formula V)} :
    (any φs).Holds σ ↔ ∃ φ ∈ φs, φ.Holds σ := by
  induction φs with
  | nil => simp [any, Holds]
  | cons φ φs ih =>
      have hstep : (any (φ :: φs)).Holds σ ↔ φ.Holds σ ∨ (any φs).Holds σ := Iff.rfl
      rw [hstep, ih]
      simp

theorem mem_vars_all {v : V} {φs : List (Formula V)} :
    v ∈ (all φs).vars ↔ ∃ φ ∈ φs, v ∈ φ.vars := by
  induction φs with
  | nil => simp [all, vars]
  | cons φ φs ih =>
      have hstep : (all (φ :: φs)).vars = φ.vars ++ (all φs).vars := rfl
      rw [hstep, List.mem_append, ih]
      simp

theorem not_isFalse_of_holds {φ : Formula V} (hφ : φ.Holds σ) : φ.isFalse = false := by
  cases φ with
  | lit value =>
      cases value with
      | true => rfl
      | false => simp [Holds] at hφ
  | _ => rfl

end Holds

end Formula

theorem Term.eval_congr {σ τ : V → Int} {t : Term V} (h : ∀ v ∈ t.vars, σ v = τ v) :
    t.eval σ = t.eval τ := by
  induction t with
  | var v => exact h v (by simp [Term.vars])
  | const c => rfl
  | add s t ihs iht | sub s t ihs iht =>
      simp only [Term.vars, List.mem_append] at h
      simp only [Term.eval, ihs fun v hv => h v (.inl hv), iht fun v hv => h v (.inr hv)]

/-- The truth of a formula depends on the variables it mentions, and on nothing else. -/
theorem Formula.holds_congr {σ τ : V → Int} {φ : Formula V} (h : ∀ v ∈ φ.vars, σ v = τ v) :
    φ.Holds σ ↔ φ.Holds τ := by
  induction φ with
  | lit value => rfl
  | lt s t | le s t | eq s t =>
      simp only [Formula.vars, List.mem_append] at h
      have hs : s.eval σ = s.eval τ := Term.eval_congr fun v hv => h v (.inl hv)
      have ht : t.eval σ = t.eval τ := Term.eval_congr fun v hv => h v (.inr hv)
      simp only [Formula.holds_lt, Formula.holds_le, Formula.holds_eq, hs, ht]
  | distinct ts =>
      have hmap : ts.map (Term.eval σ) = ts.map (Term.eval τ) := by
        refine List.map_congr_left fun t ht => Term.eval_congr fun v hv => h v ?_
        exact List.mem_flatMap.mpr ⟨t, ht, hv⟩
      simp only [Formula.holds_distinct, hmap]
  | not φ ih => exact not_congr (ih h)
  | imp φ ψ ihφ ihψ =>
      simp only [Formula.vars, List.mem_append] at h
      exact imp_congr (ihφ fun v hv => h v (.inl hv)) (ihψ fun v hv => h v (.inr hv))
  | andNil => rfl
  | andCons φ ψ ihφ ihψ =>
      simp only [Formula.vars, List.mem_append] at h
      exact and_congr (ihφ fun v hv => h v (.inl hv)) (ihψ fun v hv => h v (.inr hv))
  | orNil => rfl
  | orCons φ ψ ihφ ihψ =>
      simp only [Formula.vars, List.mem_append] at h
      exact or_congr (ihφ fun v hv => h v (.inl hv)) (ihψ fun v hv => h v (.inr hv))

/-! ### Models and solvers -/

/-- What a satisfiable answer carries: the interpreted variables, in the model's own order, and
their values. -/
structure Model (V : Type) where
  decls : List V
  val : V → Int

def Model.Extends (m : Model V) (σ : V → Int) : Prop := ∀ v ∈ m.decls, σ v = m.val v

/-- `model_completion=True`: a variable the model leaves out is read as zero. -/
def Model.completion [DecidableEq V] (m : Model V) (v : V) : Int :=
  if v ∈ m.decls then m.val v else 0

theorem Model.extends_completion [DecidableEq V] (m : Model V) : m.Extends m.completion := by
  intro v hv
  simp [Model.completion, hv]

def Satisfies (σ : V → Int) (Γ : List (Formula V)) : Prop := ∀ φ ∈ Γ, φ.Holds σ

instance decidableSatisfies (σ : V → Int) (Γ : List (Formula V)) : Decidable (Satisfies σ Γ) :=
  inferInstanceAs (Decidable (∀ φ ∈ Γ, φ.Holds σ))

theorem satisfies_append {σ : V → Int} {Γ Δ : List (Formula V)} :
    Satisfies σ (Γ ++ Δ) ↔ Satisfies σ Γ ∧ Satisfies σ Δ := by
  simp only [Satisfies, List.mem_append]
  exact ⟨fun h => ⟨fun φ hφ => h φ (.inl hφ), fun φ hφ => h φ (.inr hφ)⟩,
    fun h φ hφ => hφ.elim (h.1 φ) (h.2 φ)⟩

@[simp] theorem satisfies_nil {σ : V → Int} : Satisfies σ [] := by
  simp [Satisfies]

@[simp] theorem satisfies_cons {σ : V → Int} {φ : Formula V} {Γ : List (Formula V)} :
    Satisfies σ (φ :: Γ) ↔ φ.Holds σ ∧ Satisfies σ Γ := by
  simp [Satisfies]

theorem satisfies_map {α : Type} {σ : V → Int} {f : α → Formula V} {items : List α} :
    Satisfies σ (items.map f) ↔ ∀ x ∈ items, (f x).Holds σ :=
  List.forall_mem_map

theorem satisfies_congr {σ τ : V → Int} {Γ : List (Formula V)}
    (h : ∀ φ ∈ Γ, ∀ v ∈ φ.vars, σ v = τ v) : Satisfies σ Γ ↔ Satisfies τ Γ :=
  forall₂_congr fun φ hφ => Formula.holds_congr (h φ hφ)

/-- The model is an answer that a sound solver may give. -/
def Model.Legal (m : Model V) (Γ : List (Formula V)) : Prop :=
  m.decls.Nodup ∧ (∀ v ∈ m.decls, ∃ φ ∈ Γ, v ∈ φ.vars) ∧ ∀ σ, m.Extends σ → Satisfies σ Γ

theorem Model.legal_of_covers {m : Model V} {Γ : List (Formula V)} (hnodup : m.decls.Nodup)
    (hmentioned : ∀ v ∈ m.decls, ∃ φ ∈ Γ, v ∈ φ.vars) (hcovers : ∀ φ ∈ Γ, ∀ v ∈ φ.vars, v ∈ m.decls)
    (hmodel : Satisfies m.val Γ) : m.Legal Γ := by
  refine ⟨hnodup, hmentioned, fun σ hσ => (satisfies_congr fun φ hφ v hv => ?_).mpr hmodel⟩
  exact hσ v (hcovers φ hφ v hv)

/-- A sound and complete solver. `check` is `none` for `unsat` and carries the model for `sat`;
`simplify` rewrites a formula into an equivalent one over the same variables and never leaves an
empty conjunction behind. -/
structure Solver (V : Type) where
  check : List (Formula V) → Option (Model V)
  simplify : Formula V → Formula V
  decls_nodup : ∀ {Γ m}, check Γ = some m → m.decls.Nodup
  decls_mentioned : ∀ {Γ m}, check Γ = some m → ∀ v ∈ m.decls, ∃ φ ∈ Γ, v ∈ φ.vars
  sound : ∀ {Γ m}, check Γ = some m → ∀ σ, m.Extends σ → Satisfies σ Γ
  complete : ∀ {Γ}, check Γ = none → ¬∃ σ, Satisfies σ Γ
  simplify_holds : ∀ φ σ, (simplify φ).Holds σ ↔ φ.Holds σ
  simplify_vars : ∀ φ, ∀ v ∈ (simplify φ).vars, v ∈ φ.vars
  simplify_printsNotAnd : ∀ φ, φ.printsNotAnd = false → (simplify φ).printsNotAnd = false

namespace Solver

theorem check_eq_none_iff (s : Solver V) {Γ : List (Formula V)} :
    s.check Γ = none ↔ ¬∃ σ, Satisfies σ Γ := by
  constructor
  · exact s.complete
  · intro hunsat
    cases hcheck : s.check Γ with
    | none => rfl
    | some m => exact absurd ⟨m.val, s.sound hcheck m.val fun _ _ => rfl⟩ hunsat

/-- A variable that an assertion bounds away from zero cannot be missing from a model. -/
theorem mem_decls_of_pos [DecidableEq V] (s : Solver V) {Γ : List (Formula V)} {m : Model V}
    (hcheck : s.check Γ = some m) {v : V} (hpos : .lt (.const 0) (.var v) ∈ Γ) :
    v ∈ m.decls := by
  by_contra hmissing
  have hholds := s.sound hcheck _ m.extends_completion _ hpos
  simp [Term.eval, Model.completion, hmissing] at hholds

open Classical in
/-- Some sound and complete solver exists: decide satisfiability classically and let the model
interpret exactly the variables of the assertions. -/
noncomputable def classical : Solver V where
  check Γ :=
    if h : ∃ σ, Satisfies σ Γ then
      some ⟨(Γ.flatMap Formula.vars).dedup, h.choose⟩
    else none
  simplify φ := φ
  decls_nodup := by
    intro Γ m hcheck
    split at hcheck <;> cases hcheck
    exact List.nodup_dedup _
  decls_mentioned := by
    intro Γ m hcheck v hv
    split at hcheck <;> cases hcheck
    simpa [List.mem_flatMap] using hv
  sound := by
    intro Γ m hcheck σ hσ φ hφ
    split at hcheck <;> cases hcheck
    rename_i hsat
    refine (Formula.holds_congr fun v hv => ?_).mp (hsat.choose_spec φ hφ)
    exact (hσ v (List.mem_dedup.mpr (List.mem_flatMap.mpr ⟨φ, hφ, hv⟩))).symm
  complete := by
    intro Γ hcheck
    by_contra hsat
    simp [hsat] at hcheck
  simplify_holds _ _ := Iff.rfl
  simplify_vars _ _ hv := hv
  simplify_printsNotAnd _ h := h

open Classical in
/-- A solver that answers with a given model whenever this is legal. -/
noncomputable def preferring (s : Solver V) (m : Model V) : Solver V where
  check Γ := if m.Legal Γ then some m else s.check Γ
  simplify := s.simplify
  decls_nodup := by
    intro Γ m' hcheck
    split at hcheck
    · rename_i hlegal
      cases hcheck
      exact hlegal.1
    · exact s.decls_nodup hcheck
  decls_mentioned := by
    intro Γ m' hcheck
    split at hcheck
    · rename_i hlegal
      cases hcheck
      exact hlegal.2.1
    · exact s.decls_mentioned hcheck
  sound := by
    intro Γ m' hcheck
    split at hcheck
    · rename_i hlegal
      cases hcheck
      exact hlegal.2.2
    · exact s.sound hcheck
  complete := by
    intro Γ hcheck
    split at hcheck
    · cases hcheck
    · exact s.complete hcheck
  simplify_holds := s.simplify_holds
  simplify_vars := s.simplify_vars
  simplify_printsNotAnd := s.simplify_printsNotAnd

theorem check_preferring (s : Solver V) {m : Model V} {Γ : List (Formula V)} (h : m.Legal Γ) :
    (s.preferring m).check Γ = some m :=
  if_pos h

end Solver

end Smt
