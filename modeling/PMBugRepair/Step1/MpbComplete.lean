import PMBugRepair.Step1.Arrange

/-!
# `repairMPB` succeeds when an arrangement exists

The blocking loop ends on every thread: two models with the same pattern cannot both occur, and a
thread with a repeated number has no model at all. On a thread whose flush equations are consistent
the pattern that puts a fence between the two stores is never blocked, since a model with this
pattern has no violating persist times; so what the loop leaves behind is satisfiable.
-/

namespace PMBugRepair

open Smt (Formula Term Model Solver Satisfies blockLoop modelsFound satisfies_append)
open Schedule (Before position before_cons_iff)
open Lists (exists_mapM)

/-! ### The loop ends -/

/-- All sign patterns over a list of pairs. -/
def signPatterns : List (Stmt × Stmt) → List (List (Formula Var))
  | [] => [[]]
  | pair :: pairs =>
      (signPatterns pairs).map (.lt (pc pair.1) (pc pair.2) :: ·) ++
        (signPatterns pairs).map (.lt (pc pair.2) (pc pair.1) :: ·)

theorem length_signPatterns (pairs : List (Stmt × Stmt)) :
    (signPatterns pairs).length = 2 ^ pairs.length := by
  induction pairs with
  | nil => rfl
  | cons pair pairs ih =>
      simp only [signPatterns, List.length_append, List.length_map, ih, List.length_cons, pow_succ]
      omega

theorem pattern_mem_signPatterns (pairs : List (Stmt × Stmt)) (m : Model Var) :
    pattern pairs m ∈ signPatterns pairs := by
  induction pairs with
  | nil => simp [pattern, signPatterns]
  | cons pair pairs ih =>
      have hcons : pattern (pair :: pairs) m =
          constructConstraint pair.1 pair.2 m :: pattern pairs m := rfl
      rw [hcons, signPatterns, List.mem_append]
      unfold constructConstraint
      split
      · exact .inl (List.mem_map_of_mem ih)
      · exact .inr (List.mem_map_of_mem ih)

section Loop

variable {z : Solver Var} {thread : Trace} {a b : Id} {previous transact : List (Formula Var)}

theorem blocking_ops {a b : Id} {thread : Trace} {pair : Stmt × Stmt}
    (h : pair ∈ blocking a b thread) : pair.1.op = .store ∧ pair.2.op = .fence := by
  have hbehind : ∀ {first : Stmt} {rest : Trace}, first.op = .store →
      pair ∈ blockingBehind first b rest → pair.1.op = .store ∧ pair.2.op = .fence := by
    intro first rest hfirst hpair
    induction rest with
    | nil => cases hpair
    | cons stmt rest ih =>
        rcases List.mem_append.mp hpair with hpair | hpair
        · split at hpair
          · rename_i hmatch
            obtain ⟨fence, hfence, hpair⟩ := List.mem_flatMap.mp hpair
            have hop : fence.op = .fence := by simpa using (List.mem_filter.mp hfence).2
            simp only [List.mem_cons, List.not_mem_nil, or_false] at hpair
            rcases hpair with rfl | rfl
            exacts [⟨hfirst, hop⟩, ⟨hmatch.1, hop⟩]
          · cases hpair
        · exact ih hpair
  induction thread with
  | nil => cases h
  | cons stmt rest ih =>
      rcases List.mem_append.mp h with h | h
      · split at h
        · rename_i hmatch
          exact hbehind hmatch.1 h
        · cases h
      · exact ih h

theorem modelPc_of_placement {m : Model Var} (hplace : Placement m thread) {stmt : Stmt}
    (hmem : stmt ∈ thread) : modelPc m stmt = m.val (.pc stmt.id) := by
  simp [modelPc, Model.completion, hplace.decls stmt hmem]

theorem pattern_holds {m : Model Var} (hplace : Placement m thread) :
    ∀ φ ∈ pattern (blocking a b thread) m, φ.Holds m.val := by
  intro φ hφ
  obtain ⟨pair, hpair, rfl⟩ := List.mem_map.mp hφ
  obtain ⟨hfst, hsnd⟩ := mem_blocking hpair
  have hne : m.val (.pc pair.1.id) ≠ m.val (.pc pair.2.id) := by
    intro heq
    have hsame : pair.1 = pair.2 := List.inj_on_of_nodup_map hplace.nodup hfst hsnd heq
    obtain ⟨hstore, hfence⟩ := blocking_ops hpair
    rw [hsame, hfence] at hstore
    cases hstore
  simp only [constructConstraint, modelPc_of_placement hplace hfst,
    modelPc_of_placement hplace hsnd]
  split
  · rename_i hlt
    exact hlt
  · rename_i hlt
    exact lt_of_le_of_ne (not_lt.mp hlt) hne.symm

/-- The blocking loop ends: there are no more rounds than sign patterns. -/
theorem exists_blockLoop_mpb (z : Solver Var) (thread : Trace) (a b : Id)
    (previous transact : List (Formula Var)) :
    ∃ sais, blockLoop z (pattern (blocking a b thread)) (2 ^ (blocking a b thread).length + 1)
      (mpbAssertions thread a b previous transact ++ [.not (Bug.mpb a b).formula]) = some sais := by
  classical
  have hplace : ∀ {Δ m}, mpbAssertions thread a b previous transact ++
      [.not (Bug.mpb a b).formula] ⊆ Δ → z.check Δ = some m → Placement m thread := by
    intro Δ m hsub hcheck
    exact placement_of_check (List.Subset.trans (List.subset_append_left _ _) hsub) hcheck
  refine Smt.exists_blockLoop (signPatterns (blocking a b thread)).toFinset ?_ ?_ ?_
  · exact fun Δ m hsub hcheck => pattern_holds (hplace hsub hcheck)
  · exact fun Δ m _ _ => List.mem_toFinset.mpr (pattern_mem_signPatterns _ m)
  · calc (signPatterns (blocking a b thread)).toFinset.card
        ≤ (signPatterns (blocking a b thread)).length := List.toFinset_card_le _
      _ = 2 ^ (blocking a b thread).length := length_signPatterns _
      _ < 2 ^ (blocking a b thread).length + 1 := Nat.lt_succ_self _

/-- The signs of a model: which of the two statements of each pair comes first. -/
def signs (pairs : List (Stmt × Stmt)) (m : Model Var) : List Bool :=
  pairs.map fun pair => decide (modelPc m pair.1 < modelPc m pair.2)

theorem pattern_eq_zipWith (pairs : List (Stmt × Stmt)) (m : Model Var) :
    pattern pairs m = List.zipWith
      (fun pair sign => if sign = true then .lt (pc pair.1) (pc pair.2)
        else .lt (pc pair.2) (pc pair.1)) pairs (signs pairs m) := by
  rw [signs, List.zipWith_map_right, List.zipWith_self]
  simp only [decide_eq_true_iff]
  rfl

/-- **The blocking loop ends.** No two of the models it finds have the same signs, so there are at
most as many rounds as sign patterns; without pairs the first clause is already false. -/
theorem blockLoop_rounds (z : Solver Var) (thread : Trace) (a b : Id)
    (previous transact : List (Formula Var)) :
    let Γ := mpbAssertions thread a b previous transact ++ [.not (Bug.mpb a b).formula]
    let pairs := blocking a b thread
    (∀ rounds, ((modelsFound z (pattern pairs) rounds Γ).map (signs pairs)).Nodup) ∧
      ∃ sais, blockLoop z (pattern pairs) (2 ^ pairs.length + 1) Γ = some sais ∧
        sais = (modelsFound z (pattern pairs) (2 ^ pairs.length + 1) Γ).map
          (fun m => Smt.blockClause (pattern pairs m)) ∧
        sais.length ≤ 2 ^ pairs.length ∧
        (pairs = [] → (∃ σ, Satisfies σ Γ) → sais.length = 1) := by
  intro Γ pairs
  have hown : ∀ Δ m, Γ ⊆ Δ → z.check Δ = some m → ∀ φ ∈ pattern pairs m, φ.Holds m.val := by
    intro Δ m hsub hcheck
    exact pattern_holds (placement_of_check
      (List.Subset.trans (List.subset_append_left _ _) hsub) hcheck)
  have hnodup : ∀ rounds, ((modelsFound z (pattern pairs) rounds Γ).map (pattern pairs)).Nodup :=
    Smt.nodup_modelsFound hown
  obtain ⟨sais, hloop⟩ := exists_blockLoop_mpb z thread a b previous transact
  have hsais := Smt.blockLoop_eq_map hloop
  have hlength : sais.length ≤ 2 ^ pairs.length := by
    have hsub : (modelsFound z (pattern pairs) (2 ^ pairs.length + 1) Γ).map (pattern pairs) ⊆
        signPatterns pairs := by
      intro signs hsigns
      obtain ⟨m, -, rfl⟩ := List.mem_map.mp hsigns
      exact pattern_mem_signPatterns pairs m
    have hle := ((hnodup _).subperm hsub).length_le
    rwa [List.length_map, length_signPatterns, ← List.length_map, ← hsais] at hle
  refine ⟨fun rounds => ?_, sais, hloop, hsais, hlength, fun hnone hsat => ?_⟩
  · have hpatterns := hnodup rounds
    rw [List.map_congr_left fun m _ => pattern_eq_zipWith pairs m, ← Function.comp_def,
      ← List.map_map] at hpatterns
    exact hpatterns.of_map
  · obtain ⟨σ, hσ⟩ := hsat
    have hne := List.length_pos_iff.mpr (Smt.blockLoop_ne_nil hσ hloop)
    rw [hnone, List.length_nil, pow_zero] at hlength
    omega

end Loop

/-! ### Solving always returns -/

section Returns

variable {z : Solver Var} {g : Globals} {thread : Trace} {a b : Id}
  {previous transact : List (Formula Var)}

theorem exists_lookup {stmt : Stmt} (hmem : stmt ∈ thread) :
    ∃ found, lookup thread stmt.id = some found := by
  have hsome : (thread.reverse.find? (·.id = stmt.id)).isSome = true :=
    List.find?_isSome.mpr ⟨stmt, List.mem_reverse.mpr hmem, by simp⟩
  exact Option.isSome_iff_exists.mp hsome

/-- The formula mentions no execution time of a foreign statement. -/
def KnownPlaces (thread : Trace) (φ : Formula Var) : Prop :=
  ∀ id, .pc id ∈ φ.vars → ∃ stmt ∈ thread, stmt.id = id

theorem PlacesOnly.known {φ : Formula Var} (h : PlacesOnly thread φ) : KnownPlaces thread φ := by
  intro id hid
  obtain ⟨stmt, hstmt, heq⟩ := h _ hid
  exact ⟨stmt, hstmt, (Var.pc.inj heq).symm⟩

theorem KnownPlaces.mono {thread' : Trace} {φ : Formula Var} (h : KnownPlaces thread φ)
    (hsub : thread ⊆ thread') : KnownPlaces thread' φ := by
  intro id hid
  obtain ⟨stmt, hstmt, heq⟩ := h id hid
  exact ⟨stmt, hsub hstmt, heq⟩

theorem exists_printer {m : Model Var}
    (hknown : ∀ id, Var.pc id ∈ m.decls → ∃ stmt ∈ thread, stmt.id = id) :
    ∃ printed, printer m thread = some printed := by
  refine exists_mapM fun id hid => ?_
  obtain ⟨i, -, hplaced⟩ := List.mem_flatMap.mp hid
  obtain ⟨stmt, hstmt, rfl⟩ := hknown id (mem_placedAt.mp hplaced).1
  exact exists_lookup hstmt

theorem stmtConstraints_known {length : Nat} {stmt : Stmt} {rest : Trace} {φ : Formula Var}
    (hφ : φ ∈ stmtConstraints length a b stmt rest) : KnownPlaces (stmt :: rest) φ := by
  have hstmt : ∃ x ∈ stmt :: rest, x.id = stmt.id := ⟨stmt, List.mem_cons_self, rfl⟩
  simp only [stmtConstraints, List.cons_append, List.nil_append, List.mem_cons] at hφ
  rcases hφ with rfl | rfl | hφ
  · intro id hid
    obtain rfl : id = stmt.id := by simpa [Formula.vars, Term.vars, pc] using hid
    exact hstmt
  · intro id hid
    obtain rfl : id = stmt.id := by simpa [Formula.vars, Term.vars, pc] using hid
    exact hstmt
  · split at hφ
    · simp only [List.mem_append, List.mem_singleton] at hφ
      rcases hφ with (hφ | rfl) | hφ
      · cases hfind : rest.find? Stmt.isStore with
        | none => simp [hfind] at hφ
        | some next =>
            have hnext := List.mem_cons_of_mem stmt (List.mem_of_find?_eq_some hfind)
            obtain rfl : φ = .lt (pc stmt) (pc next) := by simpa [hfind] using hφ
            intro id hid
            obtain rfl | rfl : id = stmt.id ∨ id = next.id := by
              simpa [Formula.vars, Term.vars, pc] using hid
            exacts [hstmt, ⟨next, hnext, rfl⟩]
      · intro id hid
        obtain rfl : id = stmt.id := by simpa [Formula.vars, Term.vars, pc, pt] using hid
        exact hstmt
      · split at hφ
        · obtain ⟨fence, hfence, rfl⟩ := List.mem_map.mp hφ
          have hmem := List.mem_cons_of_mem stmt (List.mem_filter.mp hfence).1
          intro id hid
          obtain rfl | rfl : id = stmt.id ∨ id = fence.id := by
            simpa [Formula.vars, Term.vars, pc, pt] using hid
          exacts [hstmt, ⟨fence, hmem, rfl⟩]
        · cases hφ
    · cases hφ

theorem threadConstraints_known {length : Nat} {φ : Formula Var}
    (hφ : φ ∈ threadConstraints length a b thread) : KnownPlaces thread φ := by
  induction thread with
  | nil => cases hφ
  | cons stmt rest ih =>
      rcases List.mem_append.mp hφ with hφ | hφ
      · exact stmtConstraints_known hφ
      · exact (ih hφ).mono (List.subset_cons_self stmt rest)

theorem mpbAssertions_known (hprevious : ∀ φ ∈ previous, KnownPlaces thread φ)
    (htransact : ∀ φ ∈ transact, KnownPlaces thread φ) :
    ∀ φ ∈ mpbAssertions thread a b previous transact, KnownPlaces thread φ := by
  intro φ hφ
  simp only [mpbAssertions, List.mem_append, List.mem_singleton] at hφ
  rcases hφ with ((hφ | hφ) | hφ) | rfl
  · exact threadConstraints_known hφ
  · exact hprevious φ hφ
  · exact htransact φ hφ
  · intro id hid
    obtain ⟨t, ht, hid⟩ := List.mem_flatMap.mp hid
    obtain ⟨stmt, hstmt, rfl⟩ := List.mem_map.mp ht
    obtain rfl : id = stmt.id := by simpa [Term.vars, pc] using hid
    exact ⟨stmt, hstmt, rfl⟩

/-- With constraints about known places only, `repairMPB` raises no exception while solving. -/
theorem exists_solveMPB (hprevious : ∀ φ ∈ previous, KnownPlaces thread φ)
    (htransact : ∀ φ ∈ transact, KnownPlaces thread φ) :
    ∃ out, solveMPB z g thread a b previous transact = some out := by
  obtain ⟨sais, hloop⟩ := exists_blockLoop_mpb z thread a b previous transact
  simp only [solveMPB, hloop, Option.bind_eq_bind, Option.bind_some]
  split
  · exact ⟨_, rfl⟩
  · split
    · exact ⟨_, rfl⟩
    · rename_i m hcheck
      obtain ⟨printed, hprint⟩ : ∃ printed, printer m thread = some printed := by
        refine exists_printer fun id hid => ?_
        obtain ⟨φ, hφ, hvar⟩ := z.decls_mentioned hcheck _ hid
        rcases List.mem_append.mp hφ with hφ | hφ
        · exact mpbAssertions_known hprevious htransact φ hφ id hvar
        · rw [List.mem_singleton] at hφ
          subst hφ
          obtain ⟨clause, hclause, hvar⟩ :=
            Formula.mem_vars_all.mp (z.simplify_vars _ _ hvar)
          obtain ⟨Δ, m', -, -, rfl⟩ := Smt.mem_blockLoop hloop hclause
          obtain ⟨φ, hφ, hvar⟩ := Formula.mem_vars_all.mp hvar
          exact (pattern_places φ hφ).known id hvar
      exact ⟨_, by rw [hprint]; rfl⟩

end Returns

/-! ### The good pattern is never blocked -/

theorem mem_blocking_of_sublist {a b : Id} {thread : Trace} {first second fence : Stmt}
    (hsub : [first, second, fence].Sublist thread) (hfirst : first.op = .store) (ha : first.id = a)
    (hsecond : second.op = .store) (hb : second.id = b) (hfence : fence.op = .fence) :
    (first, fence) ∈ blocking a b thread ∧ (second, fence) ∈ blocking a b thread := by
  have hbehind : ∀ {rest : Trace}, [second, fence].Sublist rest →
      (first, fence) ∈ blockingBehind first b rest ∧
        (second, fence) ∈ blockingBehind first b rest := by
    intro rest hrest
    induction rest with
    | nil => simp at hrest
    | cons stmt rest ih =>
        rw [blockingBehind]
        cases hrest with
        | cons _ hrest =>
            exact ⟨List.mem_append_right _ (ih hrest).1, List.mem_append_right _ (ih hrest).2⟩
        | cons_cons _ hrest =>
            have hmem : fence ∈ rest.filter Stmt.isFence :=
              List.mem_filter.mpr ⟨List.singleton_sublist.mp hrest, by simpa using hfence⟩
            rw [if_pos ⟨hsecond, hb⟩]
            exact ⟨List.mem_append_left _ (List.mem_flatMap.mpr ⟨fence, hmem, by simp⟩),
              List.mem_append_left _ (List.mem_flatMap.mpr ⟨fence, hmem, by simp⟩)⟩
  induction thread with
  | nil => simp at hsub
  | cons stmt rest ih =>
      rw [blocking]
      cases hsub with
      | cons _ hsub =>
          exact ⟨List.mem_append_right _ (ih hsub).1, List.mem_append_right _ (ih hsub).2⟩
      | cons_cons _ hsub =>
          rw [if_pos ⟨hfirst, ha⟩]
          exact ⟨List.mem_append_left _ (hbehind hsub).1, List.mem_append_left _ (hbehind hsub).2⟩

/-- A model of the assertions in which the bug happens has no fence between the two stores. -/
theorem not_between_of_violation {thread : Trace} {a b : Id}
    {previous transact : List (Formula Var)}
    {σ : Var → Int} (hσ : Satisfies σ (mpbAssertions thread a b previous transact))
    (hbug : ¬σ (.pt a) < σ (.pt b)) {first second fence : Stmt}
    (hsub : [first, second, fence].Sublist thread) (hfirst : first.op = .store) (ha : first.id = a)
    (hsecond : second.op = .store) (hb : second.id = b) (hfence : fence.op = .fence)
    (hlt : σ (.pc first.id) < σ (.pc fence.id)) : ¬σ (.pc fence.id) < σ (.pc second.id) := by
  intro hgt
  have hfit := (satisfies_mpbAssertions.mp hσ).1
  have hbefore : Before thread first fence :=
    List.Sublist.trans ((List.sublist_cons_self second [fence]).cons_cons first) hsub
  have hle := hfit.fenced first fence hbefore hfirst (.inl ha) hfence hlt
  have hpersist := hfit.persists second (hsub.subset (by simp)) hsecond
  rw [ha] at hle
  rw [hb] at hpersist hgt
  omega

/-- No clause is a negated empty conjunction, so the printed clauses do not show one. -/
theorem printsNotAnd_clauses {pairs : List (Stmt × Stmt)} (hne : pairs ≠ [])
    {sais : List (Formula Var)}
    (hsais : ∀ clause ∈ sais, ∃ m, clause = Smt.blockClause (pattern pairs m)) :
    (Formula.all sais).printsNotAnd = false := by
  have hpattern : ∀ (pairs : List (Stmt × Stmt)) (m : Model Var),
      (Formula.all (pattern pairs m)).printsNotAnd = false := by
    intro pairs m
    induction pairs with
    | nil => rfl
    | cons pair pairs ih =>
        have hhead : (constructConstraint pair.1 pair.2 m).printsNotAnd = false := by
          unfold constructConstraint
          split <;> rfl
        have hcons : Formula.all (pattern (pair :: pairs) m) =
          .andCons (constructConstraint pair.1 pair.2 m) (.all (pattern pairs m)) := rfl
        rw [hcons, Formula.printsNotAnd, hhead, ih]
        rfl
  induction sais with
  | nil => rfl
  | cons clause sais ih =>
      obtain ⟨m, rfl⟩ := hsais clause List.mem_cons_self
      have hrest := ih fun c hc => hsais c (List.mem_cons_of_mem _ hc)
      have hcons : Formula.all (Smt.blockClause (pattern pairs m) :: sais) =
        .andCons (Smt.blockClause (pattern pairs m)) (.all sais) := rfl
      rw [hcons, Formula.printsNotAnd, hrest, Bool.or_false]
      cases pairs with
      | nil => exact absurd rfl hne
      | cons pair pairs => exact hpattern (pair :: pairs) m

/-! ### When a repair is found -/

section Found

variable {z : Solver Var} {g : Globals} {thread : Trace} {a b : Id}
  {previous transact : List (Formula Var)} {σ τ : Var → Int} {out : Repair}

/-- The times meet the constraints, and the bug happens. -/
def Happens (thread : Trace) (a b : Id) (previous transact : List (Formula Var))
    (τ : Var → Int) : Prop :=
  Satisfies τ (mpbAssertions thread a b previous transact ++ [.not (Bug.mpb a b).formula])

/-- The statements of the pairs are executed in the same order. -/
def SameOrder (pairs : List (Stmt × Stmt)) (σ τ : Var → Int) : Prop :=
  ∀ pair ∈ pairs,
    σ (.pc pair.1.id) < σ (.pc pair.2.id) ↔ τ (.pc pair.1.id) < τ (.pc pair.2.id)

/-- The times meet the constraints, and in their order the bug cannot happen. -/
def Avoids (thread : Trace) (a b : Id) (previous transact : List (Formula Var))
    (σ : Var → Int) : Prop :=
  Satisfies σ (mpbAssertions thread a b previous transact) ∧
    ∀ τ, Happens thread a b previous transact τ → ¬SameOrder (blocking a b thread) σ τ

theorem holds_blockClause_iff {m : Model Var} (hplace : Placement m thread)
    (hσ : (thread.map fun stmt => σ (.pc stmt.id)).Nodup) :
    (Smt.blockClause (pattern (blocking a b thread) m)).Holds σ ↔
      ¬SameOrder (blocking a b thread) σ m.val := by
  rw [Smt.blockClause, Formula.holds_not, Formula.holds_all, not_iff_not, pattern,
    List.forall_mem_map]
  refine forall₂_congr fun pair hpair => ?_
  obtain ⟨hfst, hsnd⟩ := mem_blocking hpair
  have hne : σ (.pc pair.1.id) ≠ σ (.pc pair.2.id) := by
    intro heq
    have hsame : pair.1 = pair.2 := List.inj_on_of_nodup_map hσ hfst hsnd heq
    obtain ⟨hstore, hfence⟩ := blocking_ops hpair
    rw [hsame, hfence] at hstore
    cases hstore
  simp only [constructConstraint, modelPc_of_placement hplace hfst,
    modelPc_of_placement hplace hsnd]
  by_cases hlt : m.val (.pc pair.1.id) < m.val (.pc pair.2.id)
  · rw [if_pos hlt, Formula.holds_lt, eval_pc, eval_pc]
    exact (iff_true_right hlt).symm
  · rw [if_neg hlt, Formula.holds_lt, eval_pc, eval_pc]
    omega

/-- The clauses come from times under which the bug happens. -/
theorem exists_happens_of_mem {fuel : Nat} {sais : List (Formula Var)} {clause : Formula Var}
    (hloop : blockLoop z (pattern (blocking a b thread)) fuel
      (mpbAssertions thread a b previous transact ++ [.not (Bug.mpb a b).formula]) = some sais)
    (hclause : clause ∈ sais) :
    ∃ m, clause = Smt.blockClause (pattern (blocking a b thread) m) ∧ Placement m thread ∧
      Happens thread a b previous transact m.val := by
  obtain ⟨Δ, m, hΔ, hcheck, rfl⟩ := Smt.mem_blockLoop hloop hclause
  refine ⟨m, rfl,
    placement_of_check (List.Subset.trans (List.subset_append_left _ _) hΔ) hcheck, ?_⟩
  exact fun φ hφ => z.sound hcheck m.val (fun _ _ => rfl) φ (hΔ hφ)

/-- The clauses leave exactly the orders in which the bug cannot happen. -/
theorem satisfies_clauses_iff {fuel : Nat} {sais : List (Formula Var)}
    (hloop : blockLoop z (pattern (blocking a b thread)) fuel
      (mpbAssertions thread a b previous transact ++ [.not (Bug.mpb a b).formula]) = some sais)
    (hσ : Satisfies σ (mpbAssertions thread a b previous transact)) :
    Satisfies σ sais ↔ Avoids thread a b previous transact σ := by
  have hdistinct := (satisfies_mpbAssertions.mp hσ).2.2.2
  constructor
  · refine fun hsais => ⟨hσ, fun τ hτ hsame => ?_⟩
    refine Smt.blockLoop_unsat hloop τ (satisfies_append.mpr ⟨hτ, fun clause hclause => ?_⟩)
    obtain ⟨m, rfl, hplace, -⟩ := exists_happens_of_mem hloop hclause
    have hτdistinct := (satisfies_mpbAssertions.mp (satisfies_append.mp hτ).1).2.2.2
    have hother := (holds_blockClause_iff hplace hdistinct).mp (hsais _ hclause)
    refine (holds_blockClause_iff hplace hτdistinct).mpr fun hsame' => hother ?_
    exact fun pair hpair => (hsame pair hpair).trans (hsame' pair hpair)
  · rintro ⟨-, havoids⟩ clause hclause
    obtain ⟨m, rfl, hplace, hhappens⟩ := exists_happens_of_mem hloop hclause
    exact (holds_blockClause_iff hplace hdistinct).mpr (havoids m.val hhappens)

/-- **When the flag is raised**: the bug can happen, and it can be avoided. The answer does not
depend on the solver. -/
theorem solveMPB_flag_iff (hpairs : blocking a b thread ≠ [])
    (hout : solveMPB z g thread a b previous transact = some out) :
    out.bugFlag = true ↔ (∃ τ, Happens thread a b previous transact τ) ∧
      ∃ σ, Avoids thread a b previous transact σ := by
  simp only [solveMPB, Option.bind_eq_bind, Option.bind_eq_some_iff, Option.pure_def] at hout
  obtain ⟨sais, hloop, hout⟩ := hout
  constructor
  · intro hflag
    split at hout
    · cases hout
      cases hflag
    · rename_i hgo
      split at hout
      · cases hout
        cases hflag
      · rename_i m hcheck
        obtain ⟨hmodel, hsais⟩ := satisfies_append.mp (z.sound hcheck m.val fun _ _ => rfl)
        have hall : Satisfies m.val sais := by
          simpa [z.simplify_holds, Satisfies] using hsais
        obtain ⟨clause, hclause⟩ := List.exists_mem_of_ne_nil sais fun hnil => hgo (.inl hnil)
        obtain ⟨first, -, -, hhappens⟩ := exists_happens_of_mem hloop hclause
        exact ⟨⟨first.val, hhappens⟩, m.val, (satisfies_clauses_iff hloop hmodel).mp hall⟩
  · rintro ⟨⟨τ, hτ⟩, σ, havoids⟩
    have hclauses := (satisfies_clauses_iff hloop havoids.1).mpr havoids
    have hsimplified : (z.simplify (.all sais)).Holds σ :=
      (z.simplify_holds _ σ).mpr (Formula.holds_all.mpr hclauses)
    have hgo : ¬(sais = [] ∨ (z.simplify (.all sais)).isFalse = true ∨
        (z.simplify (.all sais)).printsNotAnd = true) := by
      rintro (hnil | hfalse | hprints)
      · exact Smt.blockLoop_ne_nil hτ hloop hnil
      · rw [Formula.not_isFalse_of_holds hsimplified] at hfalse
        cases hfalse
      · rw [z.simplify_printsNotAnd _ (printsNotAnd_clauses hpairs fun clause hclause => ?_)]
          at hprints
        · cases hprints
        · obtain ⟨m, heq, -⟩ := exists_happens_of_mem hloop hclause
          exact ⟨m, heq⟩
    rw [if_neg hgo] at hout
    split at hout
    · rename_i hcheck
      refine absurd ⟨σ, satisfies_append.mpr ⟨havoids.1, ?_⟩⟩ (z.complete hcheck)
      simpa using hsimplified
    · obtain ⟨printed, -, hout⟩ := Option.bind_eq_some_iff.mp hout
      cases hout
      rfl

end Found

section Complete

variable {z : Solver Var} {g : Globals} {thread : Trace} {a b : Id} {pairs : List (Stmt × Stmt)}
  {first second fence : Stmt}

theorem slot_fence (hpaired : Paired thread pairs) (hfence : fence.op = .fence) :
    slot thread pairs none fence = 3 * (thread.length + 1) + position thread fence := by
  rcases slot_cases thread pairs none fence with
    ⟨hop, -⟩ | ⟨-, pair, hpair, rfl, -⟩ | ⟨-, -, pair, hpair, -⟩ | ⟨-, -, hslot⟩
  · rw [hfence] at hop
    cases hop
  · have hop := (hpaired.flush pair hpair).2
    rw [hfence] at hop
    cases hop
  · cases hpair
  · exact hslot

theorem slot_extra (hpaired : Paired thread pairs) (hfence : fence.op = .fence) :
    slot thread pairs (some (first, fence)) fence = 3 * storeRank thread first + 2 := by
  rcases slot_cases thread pairs (some (first, fence)) fence with
    ⟨hop, -⟩ | ⟨-, pair, hpair, rfl, -⟩ | ⟨-, -, pair, hpair, -, hslot⟩ | ⟨-, hnone, -⟩
  · rw [hfence] at hop
    cases hop
  · have hop := (hpaired.flush pair hpair).2
    rw [hfence] at hop
    cases hop
  · cases hpair
    exact hslot
  · exact absurd rfl (hnone _ rfl)

/-- With all fences at the end, `a` may persist as late as `b` executes. -/
theorem exists_violation (hids : (thread.map Stmt.id).Nodup) (hpaired : Paired thread pairs)
    (hbefore : Before thread first second) (hfirst : first.op = .store) (ha : first.id = a)
    (hsecond : second.op = .store) (hb : second.id = b) :
    ∃ σ, Satisfies σ (mpbAssertions thread a b (adjacencies pairs) [] ++
      [.not (Bug.mpb a b).formula]) := by
  have harr : Arrangeable thread pairs none := ⟨hids, hpaired, by simp⟩
  have hranks := storeRank_lt hids.of_map hbefore hfirst hsecond
  obtain ⟨hmemFirst, hmemSecond⟩ := hbefore.mem
  set order := arrangement thread pairs none with horder
  have hlt : position order first < position order second := by
    rw [harr.position_lt_iff hmemFirst hmemSecond, slot_store hfirst, slot_store hsecond]
    omega
  have hne : b ≠ a := by
    intro heq
    have hsame := List.inj_on_of_nodup_map hids hmemSecond hmemFirst (hb.trans (heq.trans ha.symm))
    rw [hsame] at hlt
    exact lt_irrefl _ hlt
  set persist : Id → Int := fun id =>
    if id = a then position order second else persistAtOnce thread order id with hpersistDef
  have hpersist : ∀ stmt ∈ thread, stmt.id ≠ a → persist stmt.id = position order stmt := by
    intro stmt hmem hstmt
    rw [hpersistDef]
    simp only [if_neg hstmt]
    exact persistAtOnce_eq order hids hmem
  have hlate : persist a = position order second := by simp [hpersistDef]
  refine ⟨timesOf thread order persist, satisfies_append.mpr ⟨?_, ?_⟩⟩
  · refine harr.satisfies ?_ ?_
    · intro store hmem hop
      by_cases hid : store.id = a
      · obtain rfl := List.inj_on_of_nodup_map hids hmem hmemFirst (hid.trans ha.symm)
        rw [hid, hlate]
        exact hlt.le
      · rw [hpersist store hmem hid]
    · intro store hmem fence hfence hop hfenceOp hbug hslot
      -- all fences stand behind all stores here
      have hbehind : position order second < position order fence := by
        rw [harr.position_lt_iff hmemSecond hfence, slot_store hsecond,
          slot_fence hpaired hfenceOp]
        have hbound := (storeRank_bounds hmemSecond hsecond).2
        have hpos := (Schedule.position_bounds hfence).1
        omega
      by_cases hid : store.id = a
      · rw [hid, hlate]
        exact hbehind.le
      · rw [hpersist store hmem hid]
        exact ((harr.position_lt_iff hmem hfence).mpr hslot).le
  · have hpt : persist b = position order second := by
      rw [← hb, hpersist second hmemSecond (hb ▸ hne)]
    simp [Bug.formula, Term.eval, timesOf, hlate, hpt]

/-- With the extra fence directly behind `a` and everything persisted at once, the constraints
hold. -/
theorem exists_separated (hids : (thread.map Stmt.id).Nodup) (hpaired : Paired thread pairs)
    (hsub : [first, second, fence].Sublist thread) (hfirst : first.op = .store)
    (hsecond : second.op = .store) (hfence : fence.op = .fence) :
    ∃ σ, Satisfies σ (mpbAssertions thread a b (adjacencies pairs) []) ∧
      σ (.pc first.id) < σ (.pc fence.id) ∧ σ (.pc fence.id) < σ (.pc second.id) := by
  have hmemFirst : first ∈ thread := hsub.subset (by simp)
  have hmemSecond : second ∈ thread := hsub.subset (by simp)
  have hmemFence : fence ∈ thread := hsub.subset (by simp)
  have hbefore : Before thread first second :=
    List.Sublist.trans (List.sublist_append_left [first, second] [fence]) hsub
  have harr : Arrangeable thread pairs (some (first, fence)) :=
    ⟨hids, hpaired, by rintro pair ⟨⟩; exact ⟨hmemFirst, hfirst⟩⟩
  have hranks := storeRank_lt hids.of_map hbefore hfirst hsecond
  set order := arrangement thread pairs (some (first, fence)) with horder
  refine ⟨timesOf thread order (persistAtOnce thread order), harr.satisfies ?_ ?_, ?_, ?_⟩
  · intro store hmem hop
    rw [persistAtOnce_eq order hids hmem]
  · intro store hmem fence' hfence' hop hfenceOp hbug hslot
    rw [persistAtOnce_eq order hids hmem]
    exact ((harr.position_lt_iff hmem hfence').mpr hslot).le
  · rw [timesOf_pc _ _ hids hmemFirst, timesOf_pc _ _ hids hmemFence,
      harr.position_lt_iff hmemFirst hmemFence, slot_store hfirst, slot_extra hpaired hfence]
    omega
  · rw [timesOf_pc _ _ hids hmemSecond, timesOf_pc _ _ hids hmemFence,
      harr.position_lt_iff hmemFence hmemSecond, slot_store hsecond, slot_extra hpaired hfence]
    omega

/-- A fence between the two stores rules the bug out. -/
theorem not_sameOrder_of_between {previous transact : List (Formula Var)} {σ τ : Var → Int}
    (hsub : [first, second, fence].Sublist thread) (hfirst : first.op = .store) (ha : first.id = a)
    (hsecond : second.op = .store) (hb : second.id = b) (hfence : fence.op = .fence)
    (hlt : σ (.pc first.id) < σ (.pc fence.id)) (hgt : σ (.pc fence.id) < σ (.pc second.id))
    (hτ : Happens thread a b previous transact τ) : ¬SameOrder (blocking a b thread) σ τ := by
  intro hsame
  obtain ⟨hassert, hbug⟩ := satisfies_append.mp hτ
  have hbug : ¬τ (.pt a) < τ (.pt b) := hbug _ (List.mem_singleton.mpr rfl)
  obtain ⟨hblockFirst, hblockSecond⟩ :=
    mem_blocking_of_sublist hsub hfirst ha hsecond hb hfence
  refine not_between_of_violation hassert hbug hsub hfirst ha hsecond hb hfence
    ((hsame _ hblockFirst).mp hlt) ?_
  have hle : ¬τ (.pc second.id) < τ (.pc fence.id) := by
    rw [← hsame _ hblockSecond]
    exact not_lt.mpr hgt.le
  refine lt_of_le_of_ne (not_lt.mp hle) fun heq => ?_
  have hsame := List.inj_on_of_nodup_map (satisfies_mpbAssertions.mp hassert).2.2.2
    (hsub.subset (by simp)) (hsub.subset (by simp)) heq
  rw [← hsame, hfence] at hsecond
  cases hsecond

/-- **A repair is found** when the numbers differ, the flush equations are consistent and a fence
stands behind the two stores. -/
theorem solveMPB_flag (hids : (thread.map Stmt.id).Nodup) (hpaired : Paired thread pairs)
    (hsub : [first, second, fence].Sublist thread) (hfirst : first.op = .store) (ha : first.id = a)
    (hsecond : second.op = .store) (hb : second.id = b) (hfence : fence.op = .fence)
    {out : Repair} (hout : solveMPB z g thread a b (adjacencies pairs) [] = some out) :
    out.bugFlag = true := by
  have hbefore : Before thread first second :=
    List.Sublist.trans (List.sublist_append_left [first, second] [fence]) hsub
  obtain ⟨hblock, -⟩ := mem_blocking_of_sublist hsub hfirst ha hsecond hb hfence
  obtain ⟨σ, hσ, hlt, hgt⟩ := @exists_separated thread a b pairs first second fence hids hpaired
    hsub hfirst hsecond hfence
  refine (solveMPB_flag_iff (List.ne_nil_of_mem hblock) hout).mpr
    ⟨exists_violation hids hpaired hbefore hfirst ha hsecond hb, σ, hσ, fun τ hτ => ?_⟩
  exact not_sameOrder_of_between hsub hfirst ha hsecond hb hfence hlt hgt hτ

/-- A solver that prefers a model in which the bug cannot happen prints that model. -/
theorem solveMPB_preferring {previous transact : List (Formula Var)} {m : Model Var}
    (hlegal : m.decls.Nodup ∧
      (∀ v ∈ m.decls, ∃ φ ∈ mpbAssertions thread a b previous transact, v ∈ φ.vars) ∧
      (∀ φ ∈ mpbAssertions thread a b previous transact, ∀ v ∈ φ.vars, v ∈ m.decls))
    (havoids : Avoids thread a b previous transact m.val) {out : Repair}
    (hout : solveMPB (z.preferring m) g thread a b previous transact = some out)
    (hflag : out.bugFlag = true) : printer m thread = some out.thread := by
  obtain ⟨hnodup, hmentioned, hcovers⟩ := hlegal
  simp only [solveMPB, Option.bind_eq_bind, Option.bind_eq_some_iff, Option.pure_def] at hout
  obtain ⟨sais, hloop, hout⟩ := hout
  have hclauses := (satisfies_clauses_iff hloop havoids.1).mpr havoids
  have hplaces : ∀ stmt ∈ thread, Var.pc stmt.id ∈ m.decls := fun stmt hstmt =>
    hcovers (.distinct (thread.map pc)) (by simp [mpbAssertions]) _
      (List.mem_flatMap.mpr ⟨pc stmt, List.mem_map_of_mem hstmt, by simp [pc, Term.vars]⟩)
  have hcheck : (z.preferring m).check (mpbAssertions thread a b previous transact ++
      [(z.preferring m).simplify (.all sais)]) = some m := by
    refine z.check_preferring (Model.legal_of_covers hnodup ?_ ?_ ?_)
    · intro v hv
      obtain ⟨φ, hφ, hvar⟩ := hmentioned v hv
      exact ⟨φ, List.mem_append_left _ hφ, hvar⟩
    · intro φ hφ v hv
      rcases List.mem_append.mp hφ with hφ | hφ
      · exact hcovers φ hφ v hv
      · rw [List.mem_singleton] at hφ
        subst hφ
        obtain ⟨clause, hclause, hv⟩ :=
          Formula.mem_vars_all.mp ((z.preferring m).simplify_vars _ _ hv)
        obtain ⟨Δ, m', -, -, rfl⟩ := Smt.mem_blockLoop hloop hclause
        obtain ⟨φ, hφ, hv⟩ := Formula.mem_vars_all.mp hv
        obtain ⟨stmt, hstmt, rfl⟩ := pattern_places φ hφ v hv
        exact hplaces stmt hstmt
    · refine satisfies_append.mpr ⟨havoids.1, ?_⟩
      rw [Smt.satisfies_cons, (z.preferring m).simplify_holds, Formula.holds_all]
      exact ⟨hclauses, Smt.satisfies_nil⟩
  split at hout
  · cases hout
    cases hflag
  · rw [hcheck] at hout
    obtain ⟨printed, hprint, hout⟩ := Option.bind_eq_some_iff.mp hout
    cases hout
    exact hprint

end Complete

end PMBugRepair
