import PMBugRepair.Smt.Formula

/-!
# Enumerating the patterns of models with blocking clauses

A loop that asks for a model, abstracts it to a pattern, forbids the pattern and asks again. When
every model satisfies its own pattern no pattern can come back, so finitely many patterns bound the
number of rounds; and once the loop ends, an assignment that the collected clauses leave alive
cannot be a model of the assertions.
-/

namespace Smt

variable {V : Type}

def blockClause (pattern : List (Formula V)) : Formula V := .not (.all pattern)

/-- The clauses collected by the loop, or `none` when `fuel` rounds did not suffice. -/
def blockLoop (s : Solver V) (pattern : Model V → List (Formula V)) :
    Nat → List (Formula V) → Option (List (Formula V))
  | 0, _ => none
  | fuel + 1, Γ =>
      match s.check Γ with
      | none => some []
      | some m =>
          (blockLoop s pattern fuel (Γ ++ [blockClause (pattern m)])).map
            (blockClause (pattern m) :: ·)

variable {s : Solver V} {pattern : Model V → List (Formula V)}

/-- When the loop ends, the assertions together with the collected clauses have no model. -/
theorem blockLoop_unsat {fuel : Nat} {Γ clauses : List (Formula V)}
    (hloop : blockLoop s pattern fuel Γ = some clauses) (σ : V → Int) :
    ¬Satisfies σ (Γ ++ clauses) := by
  induction fuel generalizing Γ clauses with
  | zero => cases hloop
  | succ fuel ih =>
      rw [blockLoop] at hloop
      cases hcheck : s.check Γ with
      | none =>
          simp only [hcheck] at hloop
          cases hloop
          rw [List.append_nil]
          exact fun hσ => s.complete hcheck ⟨σ, hσ⟩
      | some m =>
          simp only [hcheck] at hloop
          obtain ⟨rest, hrest, rfl⟩ := Option.map_eq_some_iff.mp hloop
          intro hσ
          refine ih hrest ?_
          rwa [List.append_assoc, List.singleton_append]

/-- Every collected clause forbids the pattern of a model of the assertions. -/
theorem mem_blockLoop {fuel : Nat} {Γ clauses : List (Formula V)}
    (hloop : blockLoop s pattern fuel Γ = some clauses) {clause : Formula V}
    (hclause : clause ∈ clauses) :
    ∃ Δ m, Γ ⊆ Δ ∧ s.check Δ = some m ∧ clause = blockClause (pattern m) := by
  induction fuel generalizing Γ clauses with
  | zero => cases hloop
  | succ fuel ih =>
      rw [blockLoop] at hloop
      cases hcheck : s.check Γ with
      | none =>
          simp only [hcheck] at hloop
          cases hloop
          cases hclause
      | some m =>
          simp only [hcheck] at hloop
          obtain ⟨rest, hrest, rfl⟩ := Option.map_eq_some_iff.mp hloop
          rcases List.mem_cons.mp hclause with rfl | hmem
          · exact ⟨Γ, m, List.Subset.refl Γ, hcheck, rfl⟩
          · obtain ⟨Δ, m', hsub, hm', heq⟩ := ih hrest hmem
            exact ⟨Δ, m', fun φ hφ => hsub (List.mem_append_left _ hφ), hm', heq⟩

theorem blockLoop_ne_nil {fuel : Nat} {Γ clauses : List (Formula V)} {σ : V → Int}
    (hσ : Satisfies σ Γ) (hloop : blockLoop s pattern fuel Γ = some clauses) : clauses ≠ [] := by
  rintro rfl
  exact blockLoop_unsat hloop σ (by simpa using hσ)

/-- **No pattern comes back.** If a model satisfies its own pattern, then one round more than there
are patterns is enough. -/
theorem exists_blockLoop {Γ : List (Formula V)}
    (patterns : Finset (List (Formula V)))
    (hown : ∀ Δ m, Γ ⊆ Δ → s.check Δ = some m → ∀ φ ∈ pattern m, φ.Holds m.val)
    (hmem : ∀ Δ m, Γ ⊆ Δ → s.check Δ = some m → pattern m ∈ patterns)
    {fuel : Nat} (hfuel : patterns.card < fuel) :
    ∃ clauses, blockLoop s pattern fuel Γ = some clauses := by
  classical
  induction fuel generalizing Γ patterns with
  | zero => exact absurd hfuel (Nat.not_lt_zero _)
  | succ fuel ih =>
      rw [blockLoop]
      cases hcheck : s.check Γ with
      | none => exact ⟨[], rfl⟩
      | some m =>
          have hbase := hmem Γ m (List.Subset.refl Γ) hcheck
          obtain ⟨rest, hrest⟩ := ih (Γ := Γ ++ [blockClause (pattern m)])
            (patterns.erase (pattern m))
            (fun Δ m' hsub => hown Δ m' fun φ hφ => hsub (List.mem_append_left _ hφ))
            (fun Δ m' hsub hm' => by
              refine Finset.mem_erase.mpr
                ⟨?_, hmem Δ m' (fun φ hφ => hsub (List.mem_append_left _ hφ)) hm'⟩
              intro heq
              have hblock : (blockClause (pattern m)).Holds m'.val :=
                s.sound hm' m'.val (fun _ _ => rfl) _
                  (hsub (List.mem_append_right _ (List.mem_singleton.mpr rfl)))
              rw [← heq, blockClause, Formula.holds_not, Formula.holds_all] at hblock
              exact hblock
                (hown Δ m' (fun φ hφ => hsub (List.mem_append_left _ hφ)) hm'))
            (by
              rw [Finset.card_erase_of_mem hbase]
              have hpos : 0 < patterns.card := Finset.card_pos.mpr ⟨_, hbase⟩
              omega)
          exact ⟨blockClause (pattern m) :: rest, by simp [hrest]⟩

/-! ### The models that are found -/

/-- The models found in the first rounds of the loop. -/
def modelsFound (s : Solver V) (pattern : Model V → List (Formula V)) :
    Nat → List (Formula V) → List (Model V)
  | 0, _ => []
  | fuel + 1, Γ =>
      match s.check Γ with
      | none => []
      | some m => m :: modelsFound s pattern fuel (Γ ++ [blockClause (pattern m)])

theorem blockLoop_eq_map {fuel : Nat} {Γ clauses : List (Formula V)}
    (hloop : blockLoop s pattern fuel Γ = some clauses) :
    clauses = (modelsFound s pattern fuel Γ).map fun m => blockClause (pattern m) := by
  induction fuel generalizing Γ clauses with
  | zero => cases hloop
  | succ fuel ih =>
      rw [blockLoop] at hloop
      rw [modelsFound]
      cases hcheck : s.check Γ with
      | none =>
          simp only [hcheck] at hloop
          cases hloop
          rfl
      | some m =>
          simp only [hcheck] at hloop
          obtain ⟨rest, hrest, rfl⟩ := Option.map_eq_some_iff.mp hloop
          rw [ih hrest]
          rfl

theorem exists_check_of_mem {fuel : Nat} {Γ : List (Formula V)} {m : Model V}
    (hm : m ∈ modelsFound s pattern fuel Γ) : ∃ Δ, Γ ⊆ Δ ∧ s.check Δ = some m := by
  induction fuel generalizing Γ with
  | zero => cases hm
  | succ fuel ih =>
      rw [modelsFound] at hm
      cases hcheck : s.check Γ with
      | none =>
          simp only [hcheck] at hm
          cases hm
      | some first =>
          simp only [hcheck] at hm
          rcases List.mem_cons.mp hm with rfl | hm
          · exact ⟨Γ, List.Subset.refl Γ, hcheck⟩
          · obtain ⟨Δ, hsub, hm⟩ := ih hm
            exact ⟨Δ, fun φ hφ => hsub (List.mem_append_left _ hφ), hm⟩

/-- A model that is found later does not have the pattern. -/
theorem pattern_ne_of_mem {fuel : Nat} {Γ : List (Formula V)} {blocked : List (Formula V)}
    {m : Model V} (hm : m ∈ modelsFound s pattern fuel (Γ ++ [blockClause blocked]))
    (hown : ∀ φ ∈ pattern m, φ.Holds m.val) : pattern m ≠ blocked := by
  obtain ⟨Δ, hsub, hcheck⟩ := exists_check_of_mem hm
  have hclause : (blockClause blocked).Holds m.val :=
    s.sound hcheck m.val (fun _ _ => rfl) _
      (hsub (List.mem_append_right _ (List.mem_singleton.mpr rfl)))
  rw [blockClause, Formula.holds_not, Formula.holds_all] at hclause
  exact fun heq => hclause (heq ▸ hown)

theorem nodup_modelsFound {Γ : List (Formula V)}
    (hown : ∀ Δ m, Γ ⊆ Δ → s.check Δ = some m → ∀ φ ∈ pattern m, φ.Holds m.val) (fuel : Nat) :
    ((modelsFound s pattern fuel Γ).map pattern).Nodup := by
  induction fuel generalizing Γ with
  | zero => exact List.nodup_nil
  | succ fuel ih =>
      rw [modelsFound]
      cases hcheck : s.check Γ with
      | none => exact List.nodup_nil
      | some first =>
          have hmore : ∀ Δ m, Γ ++ [blockClause (pattern first)] ⊆ Δ → s.check Δ = some m →
              ∀ φ ∈ pattern m, φ.Holds m.val :=
            fun Δ m hsub => hown Δ m fun φ hφ => hsub (List.mem_append_left _ hφ)
          refine List.nodup_cons.mpr ⟨fun hmem => ?_, ih hmore⟩
          obtain ⟨m, hm, heq⟩ := List.mem_map.mp hmem
          obtain ⟨Δ, hsub, hm'⟩ := exists_check_of_mem hm
          exact pattern_ne_of_mem hm (hmore Δ m hsub hm') heq

end Smt
