import PMBugRepair.Step1.Mpb
import PMBugRepair.Schedule.Order
import PMBugRepair.Containers.Lists

/-!
# What a solved thread satisfies

A model of the constraints is a way to place the statements: `printer` reads the places off it, so
the printed thread is a permutation in which every statement stands at the value of its `pc`. The
blocking clauses decide nothing but the relative order of stores and fences, so whatever persist
times are compatible with the printed order, the bug cannot happen.
-/

namespace PMBugRepair

open Smt (Formula Term Model Solver Satisfies blockLoop satisfies_append satisfies_map
  satisfies_congr)
open Schedule (Before position before_cons_iff)
open Lists (forall₂_of_mapM exists_of_mem_mapM)

/-! ### The constraints as a property of an assignment -/

/-- What the constraints of lines 222-277 say about an assignment of times. -/
structure TimesFit (length : Nat) (a b : Id) (thread : Trace) (σ : Var → Int) : Prop where
  bounds : ∀ stmt ∈ thread, 0 < σ (.pc stmt.id) ∧ σ (.pc stmt.id) < length + 1
  order : (thread.filter Stmt.isStore).Pairwise fun x y => σ (.pc x.id) < σ (.pc y.id)
  persists : ∀ stmt ∈ thread, stmt.op = .store → σ (.pc stmt.id) ≤ σ (.pt stmt.id)
  fenced : ∀ store fence, Before thread store fence → store.op = .store →
    store.id = a ∨ store.id = b → fence.op = .fence →
    σ (.pc store.id) < σ (.pc fence.id) → σ (.pt store.id) ≤ σ (.pc fence.id)

section Constraints

variable {length : Nat} {a b : Id} {σ : Var → Int}

theorem satisfies_stmtConstraints {stmt : Stmt} {rest : Trace} :
    Satisfies σ (stmtConstraints length a b stmt rest) ↔
      (0 < σ (.pc stmt.id) ∧ σ (.pc stmt.id) < length + 1) ∧
      (stmt.op = .store →
        (∀ next, rest.find? Stmt.isStore = some next → σ (.pc stmt.id) < σ (.pc next.id)) ∧
        σ (.pc stmt.id) ≤ σ (.pt stmt.id) ∧
        (stmt.id = a ∨ stmt.id = b → ∀ fence ∈ rest, fence.op = .fence →
          σ (.pc stmt.id) < σ (.pc fence.id) → σ (.pt stmt.id) ≤ σ (.pc fence.id))) := by
  unfold stmtConstraints
  rw [satisfies_append]
  refine and_congr (by simp [Term.eval]) ?_
  by_cases hop : stmt.op = .store
  · simp only [hop, if_true, true_imp_iff]
    rw [satisfies_append, satisfies_append, and_assoc]
    refine and_congr ?_ (and_congr (by simp) ?_)
    · cases rest.find? Stmt.isStore <;> simp
    · by_cases hbug : stmt.id = a ∨ stmt.id = b
      · simp [hbug, satisfies_map]
      · simp [hbug]
  · simp [hop]

theorem satisfies_threadConstraints {thread : Trace} :
    Satisfies σ (threadConstraints length a b thread) ↔ TimesFit length a b thread σ := by
  induction thread with
  | nil =>
      refine ⟨fun _ => ⟨by simp, by simp, by simp, ?_⟩, fun _ => by simp [threadConstraints]⟩
      intro store fence hbefore
      simp [Before] at hbefore
  | cons stmt rest ih =>
      rw [threadConstraints, satisfies_append, satisfies_stmtConstraints, ih]
      constructor
      · rintro ⟨⟨hbounds, hstore⟩, hrest⟩
        refine ⟨?_, ?_, ?_, ?_⟩
        · intro x hx
          rcases List.mem_cons.mp hx with rfl | hx
          · exact hbounds
          · exact hrest.bounds x hx
        · by_cases hop : stmt.op = .store
          · rw [List.filter_cons_of_pos (by simpa using hop)]
            refine List.pairwise_cons.mpr ⟨fun y hy => ?_, hrest.order⟩
            -- the first later store is constrained directly, the others through it
            cases hfind : rest.find? Stmt.isStore with
            | none =>
                rw [List.find?_eq_none] at hfind
                exact absurd (List.mem_filter.mp hy).2 (hfind y (List.mem_filter.mp hy).1)
            | some next =>
                have hnext := (hstore hop).1 next hfind
                rw [← List.head?_filter] at hfind
                obtain ⟨tail, htail⟩ := List.head?_eq_some_iff.mp hfind
                have horder := hrest.order
                rw [htail] at hy horder
                rcases List.mem_cons.mp hy with rfl | hy
                · exact hnext
                · exact hnext.trans ((List.pairwise_cons.mp horder).1 y hy)
          · rw [List.filter_cons_of_neg (by simpa using hop)]
            exact hrest.order
        · intro x hx hop
          rcases List.mem_cons.mp hx with rfl | hx
          · exact (hstore hop).2.1
          · exact hrest.persists x hx hop
        · intro store fence hbefore hop hbug hfence
          rcases before_cons_iff.mp hbefore with ⟨rfl, hmem⟩ | hbefore
          · exact (hstore hop).2.2 hbug fence hmem hfence
          · exact hrest.fenced store fence hbefore hop hbug hfence
      · intro hfit
        refine ⟨⟨hfit.bounds stmt List.mem_cons_self, fun hop => ⟨?_, ?_, ?_⟩⟩, ?_, ?_, ?_, ?_⟩
        · intro next hfind
          have horder := hfit.order
          rw [List.filter_cons_of_pos (by simpa using hop)] at horder
          refine (List.pairwise_cons.mp horder).1 next (List.mem_filter.mpr ⟨?_, ?_⟩)
          · exact List.mem_of_find?_eq_some hfind
          · exact List.find?_some hfind
        · exact hfit.persists stmt List.mem_cons_self hop
        · intro hbug fence hmem hfence
          exact hfit.fenced stmt fence (before_cons_iff.mpr (.inl ⟨rfl, hmem⟩)) hop hbug hfence
        · exact fun x hx => hfit.bounds x (List.mem_cons_of_mem stmt hx)
        · exact hfit.order.sublist ((List.sublist_cons_self stmt rest).filter _)
        · exact fun x hx => hfit.persists x (List.mem_cons_of_mem stmt hx)
        · exact fun store fence hbefore =>
            hfit.fenced store fence (before_cons_iff.mpr (.inr hbefore))

end Constraints

/-! ### The printed thread -/

section Printer

variable {m : Model Var} {thread out : Trace}

theorem mem_placedAt {i : Nat} {id : Id} :
    id ∈ placedAt m i ↔ Var.pc id ∈ m.decls ∧ m.val (.pc id) = i := by
  unfold placedAt
  rw [List.mem_filterMap]
  constructor
  · rintro ⟨v, hv, heq⟩
    cases v with
    | pc id' =>
        simp only [Option.ite_none_right_eq_some, Option.some.injEq] at heq
        obtain ⟨hval, rfl⟩ := heq
        exact ⟨hv, hval⟩
    | pt id' => cases heq
  · rintro ⟨hv, hval⟩
    exact ⟨.pc id, hv, by simp [hval]⟩

theorem placedAt_nodup (hdecls : m.decls.Nodup) (i : Nat) : (placedAt m i).Nodup := by
  refine hdecls.filterMap fun v v' id hv hv' => ?_
  cases v <;> cases v' <;> simp_all

theorem lookup_eq_some {id : Id} {stmt : Stmt} (h : lookup thread id = some stmt) :
    stmt ∈ thread ∧ stmt.id = id :=
  ⟨List.mem_reverse.mp (List.mem_of_find?_eq_some h), by simpa using List.find?_some h⟩

theorem mapM_lookup {ids : List Id} (h : ids.mapM (lookup thread) = some out) :
    out.map Stmt.id = ids ∧ ∀ stmt ∈ out, stmt ∈ thread := by
  have hpair := forall₂_of_mapM h
  clear h
  induction hpair with
  | nil => simp
  | cons hlookup _ ih =>
      obtain ⟨hmem, hid⟩ := lookup_eq_some hlookup
      exact ⟨by simp [hid, ih.1], List.forall_mem_cons.mpr ⟨hmem, ih.2⟩⟩

/-- A placement of the thread: different places between one and its length, all of them known to
the model. -/
structure Placement (m : Model Var) (thread : Trace) : Prop where
  decls : ∀ stmt ∈ thread, Var.pc stmt.id ∈ m.decls
  bounds : ∀ stmt ∈ thread, 0 < m.val (.pc stmt.id) ∧ m.val (.pc stmt.id) < thread.length + 1
  nodup : (thread.map fun stmt => m.val (.pc stmt.id)).Nodup

theorem Placement.ids_nodup (h : Placement m thread) : (thread.map Stmt.id).Nodup := by
  refine List.Nodup.of_map (fun id => m.val (.pc id)) ?_
  rw [List.map_map]
  exact h.nodup

/-- Exactly one number is placed at each place, when all numbers the model places are known. -/
theorem Placement.placedAt_eq (h : Placement m thread) (hdecls : m.decls.Nodup) {i : Nat}
    (hpos : 0 < i) (hle : i ≤ thread.length)
    (hknown : ∀ id ∈ placedAt m i, ∃ stmt ∈ thread, stmt.id = id) :
    ∃ id, placedAt m i = [id] := by
  obtain ⟨stmt, hmem, hval⟩ := Schedule.exists_of_value h.nodup h.bounds hpos hle
  refine ⟨stmt.id, ?_⟩
  have hin : stmt.id ∈ placedAt m i := mem_placedAt.mpr ⟨h.decls stmt hmem, hval⟩
  have hall : ∀ id ∈ placedAt m i, id = stmt.id := by
    intro id hid
    obtain ⟨other, hother, rfl⟩ := hknown id hid
    have heq : m.val (.pc other.id) = m.val (.pc stmt.id) := (mem_placedAt.mp hid).2.trans hval.symm
    rw [List.inj_on_of_nodup_map h.nodup hother hmem heq]
  have hreplicate := List.eq_replicate_of_mem hall
  have hle : (placedAt m i).length ≤ 1 := by
    rw [← List.nodup_replicate (a := stmt.id), ← hreplicate]
    exact placedAt_nodup hdecls i
  have hlength : (placedAt m i).length = 1 := by
    have hpos := List.length_pos_of_mem hin
    omega
  rw [hreplicate, hlength]
  rfl

/-- The printed thread is a permutation, and every statement stands at the value of its `pc`. -/
theorem printer_spec (h : Placement m thread) (hdecls : m.decls.Nodup)
    (hprint : printer m thread = some out) :
    out.Perm thread ∧ ∀ stmt ∈ thread, m.val (.pc stmt.id) = position out stmt := by
  have hlength : (thread.map Stmt.id).dedup.length = thread.length := by
    rw [h.ids_nodup.dedup, List.length_map]
  rw [printer, hlength] at hprint
  obtain ⟨hids, hsub⟩ := mapM_lookup hprint
  have hsingle : ∀ i ∈ List.range' 1 thread.length,
      placedAt m i = [((placedAt m i).headD (.line 0))] := by
    intro i hi
    obtain ⟨hpos, hle⟩ := List.mem_range'_1.mp hi
    obtain ⟨id, hid⟩ := h.placedAt_eq hdecls (i := i) (by omega) (by omega) (by
      intro id hid
      have hmem : id ∈ out.map Stmt.id := by
        rw [hids]
        exact List.mem_flatMap.mpr ⟨i, hi, hid⟩
      obtain ⟨stmt, hstmt, rfl⟩ := List.mem_map.mp hmem
      exact ⟨stmt, hsub stmt hstmt, rfl⟩)
    rw [hid]
    rfl
  have hmap : out.map Stmt.id =
      (List.range' 1 thread.length).map fun i => (placedAt m i).headD (.line 0) := by
    rw [hids, List.flatMap_congr hsingle, ← List.map_eq_flatMap]
  have hlen : out.length = thread.length := by
    simpa using congrArg List.length hmap
  have hval : ∀ (j : Nat) (hj : j < out.length), m.val (.pc out[j].id) = (j + 1 : Nat) := by
    intro j hj
    have hi : j + 1 ∈ List.range' 1 thread.length := List.mem_range'_1.mpr (by omega)
    have hget : out[j].id = (placedAt m (j + 1)).headD (.line 0) := by
      have hj' := congrArg (·[j]?) hmap
      have hjlt : j < thread.length := by omega
      simp only [List.getElem?_map, List.getElem?_eq_getElem hj, Option.map_some,
        List.getElem?_range' hjlt, Option.some.injEq] at hj'
      rw [hj']
      congr 2
      omega
    have hmem : out[j].id ∈ placedAt m (j + 1) := by
      rw [hsingle _ hi, hget]
      exact List.mem_singleton.mpr rfl
    exact (mem_placedAt.mp hmem).2
  have hnodup : out.Nodup := by
    rw [List.nodup_iff_injective_getElem]
    intro i j heq
    have hi := hval i.val i.isLt
    have hj := hval j.val j.isLt
    simp only at heq
    rw [heq] at hi
    exact Fin.ext (by omega)
  have hperm : out.Perm thread :=
    (List.subperm_of_subset hnodup hsub).perm_of_length_le hlen.ge
  refine ⟨hperm, fun stmt hstmt => ?_⟩
  have hidx := List.idxOf_lt_length_iff.mpr (hperm.mem_iff.mpr hstmt)
  have hplace := hval (out.idxOf stmt) hidx
  rw [List.getElem_idxOf hidx] at hplace
  simpa [position] using hplace

end Printer

/-! ### Which variables the constraints mention -/

/-- A formula about the places of statements of the thread only. -/
def PlacesOnly (thread : Trace) (φ : Formula Var) : Prop :=
  ∀ v ∈ φ.vars, ∃ stmt ∈ thread, v = .pc stmt.id

theorem mem_of_fromEnd {thread : Trace} {k : Nat} {stmt : Stmt}
    (h : fromEnd thread k = some stmt) : stmt ∈ thread :=
  List.mem_reverse.mp (List.mem_of_getElem? h)

theorem beginConstraints_places {thread : Trace} {i : Nat} {begin : Stmt}
    {cons : List (Formula Var)} (hbegin : begin ∈ thread)
    (h : beginConstraints thread i begin = some cons) : ∀ φ ∈ cons, PlacesOnly thread φ := by
  simp only [beginConstraints, Option.bind_eq_bind, Option.bind_eq_some_iff, Option.pure_def,
    Option.some.injEq] at h
  obtain ⟨next, hnext, commit, hcommit, last, hlast, rfl⟩ := h
  have hnext := List.mem_of_getElem? hnext
  have hcommit : commit ∈ thread := by
    unfold commitOf at hcommit
    split at hcommit
    · exact List.mem_of_getElem? hcommit
    · exact mem_of_fromEnd hcommit
  have hlast : last ∈ thread := by
    unfold beforeCommit at hlast
    split at hlast
    · exact List.mem_of_getElem? hlast
    · exact mem_of_fromEnd hlast
  have hinside : insideOf thread i ⊆ thread := by
    unfold insideOf
    split
    · exact fun stmt hstmt => List.mem_of_mem_drop (List.mem_of_mem_take hstmt)
    · simp
  intro φ hφ
  simp only [List.cons_append, List.nil_append, List.mem_cons, List.mem_append, List.mem_flatMap,
    List.mem_map, List.mem_filter, List.not_mem_nil, or_false] at hφ
  rcases hφ with rfl | rfl | rfl | ⟨stmt, hstmt, rfl | rfl⟩ | ⟨stmt, hstmt, rfl⟩
  all_goals
    intro v hv
    simp only [Formula.vars, Formula.any, List.foldr_cons, List.foldr_nil, pc, Term.vars,
      List.append_nil, List.cons_append, List.nil_append, List.mem_cons, List.not_mem_nil,
      or_false] at hv
  · rcases hv with rfl | rfl
    exacts [⟨_, hbegin, rfl⟩, ⟨_, hcommit, rfl⟩]
  · rcases hv with rfl | rfl
    exacts [⟨_, hbegin, rfl⟩, ⟨_, hnext, rfl⟩]
  · rcases hv with rfl | rfl
    exacts [⟨_, hlast, rfl⟩, ⟨_, hcommit, rfl⟩]
  · rcases hv with rfl | rfl
    exacts [⟨_, hbegin, rfl⟩, ⟨_, hinside hstmt, rfl⟩]
  · rcases hv with rfl | rfl
    exacts [⟨_, hinside hstmt, rfl⟩, ⟨_, hcommit, rfl⟩]
  · rcases hv with rfl | rfl | rfl | rfl
    exacts [⟨_, hstmt.1, rfl⟩, ⟨_, hbegin, rfl⟩, ⟨_, hcommit, rfl⟩, ⟨_, hstmt.1, rfl⟩]

theorem transactionConstraints_places {thread : Trace} {cons : List (Formula Var)}
    (h : transactionConstraints thread = some cons) : ∀ φ ∈ cons, PlacesOnly thread φ := by
  simp only [transactionConstraints, Option.bind_eq_bind, Option.bind_eq_some_iff,
    Option.pure_def, Option.some.injEq] at h
  obtain ⟨parts, hparts, rfl⟩ := h
  intro φ hφ
  obtain ⟨part, hpart, hφ⟩ := List.mem_flatten.mp hφ
  obtain ⟨entry, hentry, hcons⟩ := exists_of_mem_mapM hparts hpart
  have hmem : entry.1 ∈ thread := List.fst_mem_of_mem_zipIdx (List.mem_filter.mp hentry).1
  exact beginConstraints_places hmem hcons φ hφ

theorem mem_blockingBehind {first : Stmt} {b : Id} {rest : Trace} {pair : Stmt × Stmt}
    (h : pair ∈ blockingBehind first b rest) :
    (pair.1 = first ∨ pair.1 ∈ rest) ∧ pair.2 ∈ rest := by
  induction rest with
  | nil => cases h
  | cons stmt rest ih =>
      rcases List.mem_append.mp h with h | h
      · split at h
        · obtain ⟨fence, hfence, hpair⟩ := List.mem_flatMap.mp h
          have hmem := (List.mem_filter.mp hfence).1
          simp only [List.mem_cons, List.not_mem_nil, or_false] at hpair
          rcases hpair with rfl | rfl
          · exact ⟨.inl rfl, List.mem_cons_of_mem stmt hmem⟩
          · exact ⟨.inr List.mem_cons_self, List.mem_cons_of_mem stmt hmem⟩
        · cases h
      · obtain ⟨hfst, hsnd⟩ := ih h
        exact ⟨hfst.imp_right (List.mem_cons_of_mem stmt), List.mem_cons_of_mem stmt hsnd⟩

theorem mem_blocking {a b : Id} {thread : Trace} {pair : Stmt × Stmt}
    (h : pair ∈ blocking a b thread) : pair.1 ∈ thread ∧ pair.2 ∈ thread := by
  induction thread with
  | nil => cases h
  | cons stmt rest ih =>
      rcases List.mem_append.mp h with h | h
      · split at h
        · obtain ⟨hfst, hsnd⟩ := mem_blockingBehind h
          refine ⟨?_, List.mem_cons_of_mem stmt hsnd⟩
          rcases hfst with hfst | hfst
          · exact hfst ▸ List.mem_cons_self
          · exact List.mem_cons_of_mem stmt hfst
        · cases h
      · obtain ⟨hfst, hsnd⟩ := ih h
        exact ⟨List.mem_cons_of_mem stmt hfst, List.mem_cons_of_mem stmt hsnd⟩

theorem pattern_places {a b : Id} {thread : Trace} {m : Model Var} :
    ∀ φ ∈ pattern (blocking a b thread) m, PlacesOnly thread φ := by
  intro φ hφ
  obtain ⟨pair, hpair, rfl⟩ := List.mem_map.mp hφ
  obtain ⟨hfst, hsnd⟩ := mem_blocking hpair
  unfold constructConstraint
  intro v hv
  split at hv
  · simp only [Formula.vars, pc, Term.vars, List.mem_append, List.mem_singleton] at hv
    rcases hv with rfl | rfl
    exacts [⟨_, hfst, rfl⟩, ⟨_, hsnd, rfl⟩]
  · simp only [Formula.vars, pc, Term.vars, List.mem_append, List.mem_singleton] at hv
    rcases hv with rfl | rfl
    exacts [⟨_, hsnd, rfl⟩, ⟨_, hfst, rfl⟩]

/-! ### A successful repair -/

section Solved

variable {z : Solver Var} {g : Globals} {thread : Trace} {a b : Id}
  {previous transact : List (Formula Var)} {out : Repair}

theorem satisfies_mpbAssertions {σ : Var → Int} :
    Satisfies σ (mpbAssertions thread a b previous transact) ↔
      TimesFit thread.length a b thread σ ∧ Satisfies σ previous ∧ Satisfies σ transact ∧
        (thread.map fun stmt => σ (.pc stmt.id)).Nodup := by
  have hdistinct : (thread.map pc).map (Term.eval σ) = thread.map fun stmt => σ (.pc stmt.id) := by
    simp
  simp only [mpbAssertions, satisfies_append, satisfies_threadConstraints, Smt.satisfies_cons,
    Smt.satisfies_nil, Formula.holds_distinct, hdistinct, and_true, and_assoc]

/-- Both exits with the flag down return the thread as it was solved for. -/
theorem solveMPB_of_not_flag (h : solveMPB z g thread a b previous transact = some out)
    (hflag : out.bugFlag = false) : out.thread = thread ∧ out.constraints = transact := by
  simp only [solveMPB, Option.bind_eq_bind, Option.bind_eq_some_iff, Option.pure_def] at h
  obtain ⟨sais, -, h⟩ := h
  split at h
  · cases h
    exact ⟨rfl, rfl⟩
  · split at h
    · cases h
      exact ⟨rfl, rfl⟩
    · obtain ⟨printed, -, h⟩ := Option.bind_eq_some_iff.mp h
      cases h
      cases hflag

/-- What a raised flag certifies: a model of all constraints whose places the printed thread shows,
and under whose places no persist times make the bug happen. -/
structure Solved (thread : Trace) (a b : Id) (previous transact : List (Formula Var))
    (m : Model Var) (printed : Trace) : Prop where
  placement : Placement m thread
  model : Satisfies m.val (mpbAssertions thread a b previous transact)
  perm : printed.Perm thread
  position : ∀ stmt ∈ thread, m.val (.pc stmt.id) = position printed stmt
  safe : ∀ σ : Var → Int, (∀ stmt ∈ thread, σ (.pc stmt.id) = m.val (.pc stmt.id)) →
    Satisfies σ (mpbAssertions thread a b previous transact) → σ (.pt a) < σ (.pt b)

theorem placement_of_check {Γ : List (Formula Var)} {m : Model Var}
    (hsub : mpbAssertions thread a b previous transact ⊆ Γ) (hcheck : z.check Γ = some m) :
    Placement m thread := by
  have hmodel : Satisfies m.val (mpbAssertions thread a b previous transact) :=
    fun φ hφ => z.sound hcheck m.val (fun _ _ => rfl) φ (hsub hφ)
  have hfit := satisfies_mpbAssertions.mp hmodel
  refine ⟨fun stmt hstmt => ?_, hfit.1.bounds, hfit.2.2.2⟩
  refine z.mem_decls_of_pos hcheck (hsub ?_)
  have hbound : ∀ list : Trace, stmt ∈ list →
      Formula.lt (.const 0) (pc stmt) ∈ threadConstraints thread.length a b list := by
    intro list hmem
    induction list with
    | nil => cases hmem
    | cons head rest ih =>
        rw [threadConstraints, List.mem_append]
        rcases List.mem_cons.mp hmem with rfl | hmem
        · exact .inl (List.mem_append_left _ List.mem_cons_self)
        · exact .inr (ih hmem)
  simp only [mpbAssertions, List.append_assoc]
  exact List.mem_append_left _ (hbound thread hstmt)

theorem solveMPB_of_flag (h : solveMPB z g thread a b previous transact = some out)
    (hflag : out.bugFlag = true) :
    out.constraints = transact ∧ ∃ m, Solved thread a b previous transact m out.thread := by
  simp only [solveMPB, Option.bind_eq_bind, Option.bind_eq_some_iff, Option.pure_def] at h
  obtain ⟨sais, hloop, h⟩ := h
  split at h
  · cases h
    cases hflag
  · split at h
    · cases h
      cases hflag
    · rename_i m hcheck
      obtain ⟨printed, hprint, h⟩ := Option.bind_eq_some_iff.mp h
      cases h
      have hplace := placement_of_check (List.subset_append_left _ _) hcheck
      obtain ⟨hperm, hposition⟩ := printer_spec hplace (z.decls_nodup hcheck) hprint
      obtain ⟨hmodel, hsais⟩ := satisfies_append.mp (z.sound hcheck m.val fun _ _ => rfl)
      refine ⟨rfl, m, hplace, hmodel, hperm, hposition, fun σ hσ hassert => ?_⟩
      by_contra hbug
      refine Smt.blockLoop_unsat hloop σ ?_
      rw [satisfies_append, satisfies_append]
      refine ⟨⟨hassert, by simpa [Bug.formula, Term.eval] using hbug⟩, ?_⟩
      -- the clauses only compare places, and on those `σ` agrees with the model
      have hall : Satisfies m.val sais := by
        simpa [z.simplify_holds, Satisfies] using hsais
      intro clause hclause
      obtain ⟨Δ, m', -, -, rfl⟩ := Smt.mem_blockLoop hloop hclause
      refine (Formula.holds_congr fun v hv => ?_).mpr (hall _ hclause)
      obtain ⟨φ, hφ, hv⟩ := Formula.mem_vars_all.mp hv
      obtain ⟨stmt, hstmt, rfl⟩ := pattern_places φ hφ v hv
      exact hσ stmt hstmt

end Solved

end PMBugRepair
