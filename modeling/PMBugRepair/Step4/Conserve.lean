import PMBugRepair.Step4.Held

/-!
# When the core of a trace survives

The new trace is what the two phases copied, followed by the statements from the last index on that
are not there yet. If the first phase hands over the index at which it stopped, the core comes out
as it was whenever the second phase returns. If it hands over an older index, the statements in
between are copied twice, unless the second store is already locked and nothing is copied from
there.
-/

namespace PMBugRepair

section Missing

/-- Of statements without repetitions, those that were not copied are the ones behind. -/
theorem filter_missing {left mid right : Trace} (hnodup : (left ++ mid ++ right).Nodup) :
    ((core (mid ++ right)).filter fun x => x ∉ core (left ++ mid)) = core right := by
  have hmid : ((core mid).filter fun x => x ∉ core (left ++ mid)) = [] := by
    rw [List.filter_eq_nil_iff]
    intro x hx
    simp [hx]
  have hright : ((core right).filter fun x => x ∉ core (left ++ mid)) = core right := by
    refine List.filter_eq_self.mpr fun x hx => ?_
    rw [decide_eq_true_iff, mem_core]
    intro hmem
    exact (List.nodup_append.mp hnodup).2.2 x hmem.1 x (mem_core.mp hx).1 rfl
  rw [core_append mid right, List.filter_append, hmid, hright, List.nil_append]

variable {g : LockGlobals} {held : Held} {bug : Mpa} {writes : List Id} {p q : Phase}
  {trace : Trace}

theorem core_final (hnodup : q.resume.Nodup) :
    core (appendMissing (p.out ++ q.out) q.resume) =
      core p.out ++ core q.out ++
        (core q.resume).filter fun x => x ∉ core p.out ++ core q.out := by
  rw [core_appendMissing hnodup, core_append]

theorem secondPhase_suffix (hids : (p.resume.map Stmt.id).Nodup)
    (hunique : bug.second ∉ p.resume → Absent bug.second.id p.resume)
    (h : secondPhase g p.resume held bug writes = some q) : q.resume <:+ p.resume := by
  rcases secondPhase_core hids hunique h with ⟨covered, heq, -⟩ | ⟨hsuffix, -⟩ | ⟨heq, -⟩
  · exact ⟨covered, heq.symm⟩
  · exact hsuffix
  · rw [heq]

/-- A first phase that stops at the index it hands over loses and repeats nothing. -/
theorem core_of_clean {covered : Trace} (hids : (trace.map Stmt.id).Nodup)
    (hunique : bug.second ∉ p.resume → Absent bug.second.id p.resume)
    (htrace : trace = covered ++ p.resume) (hout : core p.out = core covered)
    (h : secondPhase g p.resume held bug writes = some q) :
    core (appendMissing (p.out ++ q.out) q.resume) = core trace := by
  have hnodup : trace.Nodup := hids.of_map
  have hidsResume : (p.resume.map Stmt.id).Nodup := by
    rw [htrace, List.map_append] at hids
    exact (List.nodup_append.mp hids).2.1
  have hsuffix := secondPhase_suffix hidsResume hunique h
  rw [core_final (hidsResume.of_map.sublist hsuffix.sublist), hout]
  rcases secondPhase_core hidsResume hunique h with ⟨more, heq, hcore⟩ | ⟨-, hcore⟩ | ⟨heq, hcore⟩
  · rw [hcore, ← core_append]
    have hright := @filter_missing (covered ++ more) [] q.resume
      (by rw [List.append_nil, List.append_assoc, ← heq, ← htrace]; exact hnodup)
    rw [List.nil_append, List.append_nil] at hright
    rw [hright, ← core_append, List.append_assoc, ← heq, ← htrace]
  · have hnone : ((core q.resume).filter fun x => x ∉ core covered ++ core q.out) = [] := by
      rw [List.filter_eq_nil_iff, hcore]
      intro x hx
      have hmem : x ∈ core p.resume :=
        mem_core.mpr ⟨hsuffix.subset (mem_core.mp hx).1, (mem_core.mp hx).2⟩
      simp [hmem]
    rw [hnone, List.append_nil, hcore, ← core_append, ← htrace]
  · rcases List.eq_nil_or_concat p.resume with hnil | ⟨init, last, hconcat⟩
    · rw [heq, hcore, htrace, hnil]
      simp
    · rw [List.concat_eq_append] at hconcat
      rw [heq, hcore, hconcat, List.dropLast_concat, ← core_append]
      rw [hconcat, ← List.append_assoc] at htrace
      rw [filter_missing (by rw [← htrace]; exact hnodup), ← core_append, ← htrace]

/-- With the second store already locked the last loop adds what is missing. -/
theorem core_of_read {left mid right : Trace} (hnodup : trace.Nodup)
    (htrace : trace = left ++ mid ++ right) (hout : core p.out = core (left ++ mid))
    (hresume : p.resume = mid ++ right) (hread : held.read = true)
    (h : secondPhase g p.resume held bug writes = some q) :
    core (appendMissing (p.out ++ q.out) q.resume) = core trace := by
  rw [secondPhase, if_pos hread] at h
  obtain rfl := Option.some.inj h
  have hsub : p.resume.Nodup := by
    rw [hresume]
    rw [htrace, List.append_assoc] at hnodup
    exact (List.nodup_append.mp hnodup).2.1
  rw [List.append_nil, core_appendMissing hsub, hout, hresume,
    filter_missing (by rw [← htrace]; exact hnodup), ← core_append, ← htrace]

/-- A statement of the core that both phases copied is there twice. -/
theorem core_ne_of_twice {x : Stmt} (hnodup : trace.Nodup) (hfirst : x ∈ core p.out)
    (hsecond : x ∈ core q.out) : core (appendMissing (p.out ++ q.out) q.resume) ≠ core trace := by
  intro heq
  obtain ⟨tail, htail⟩ := exists_appendMissing_eq (p.out ++ q.out) q.resume
  have htwice : (core trace).Nodup := hnodup.filter _
  rw [← heq, htail, core_append, core_append, List.append_assoc] at htwice
  exact (List.nodup_append.mp htwice).2.2 x hfirst x (List.mem_append_left _ hsecond) rfl

end Missing

/-! ### The exact condition -/

/-- The statements behind the section of `found`, when something before the last statement closes
it. -/
def ClosesAt (other : Id) (found : Stmt) (post resume : Trace) : Prop :=
  ∃ body x rest, post = body ++ x :: rest ∧ rest ≠ [] ∧
    (∀ y ∈ body, closing other found y = none) ∧
    ((closing other found x = some .newFence ∧ resume = x :: rest) ∨
      (closing other found x = some .ownFence ∧ resume = rest))

theorem EndsBeforeLast.closesAt {other : Id} {found : Stmt} {sec : LockSection}
    {post out resume : Trace} (h : EndsBeforeLast other found sec post out resume) :
    ClosesAt other found post resume := by
  obtain ⟨init, last, resume', rfl, ⟨body, x, rest, rfl, hbody, hend⟩, rfl⟩ := h
  refine ⟨body, x, rest ++ [last], by simp, by simp, hbody, ?_⟩
  rcases hend with ⟨hx, -, rfl⟩ | ⟨hx, -, rfl⟩
  · exact .inl ⟨hx, rfl⟩
  · exact .inr ⟨hx, rfl⟩

theorem ClosesAt.mem_dropLast {other : Id} {found : Stmt} {post resume : Trace}
    (h : ClosesAt other found post resume) : ∃ x ∈ post.dropLast, closing other found x ≠ none := by
  obtain ⟨body, x, rest, rfl, hrest, -, hend⟩ := h
  refine ⟨x, ?_, ?_⟩
  · obtain ⟨y, rest, rfl⟩ := List.exists_cons_of_ne_nil hrest
    rw [List.dropLast_append_cons, List.dropLast_cons_cons]
    simp
  · rcases hend with ⟨hx, -⟩ | ⟨hx, -⟩ <;> rw [hx] <;> simp

theorem ClosesAt.unique {other : Id} {found : Stmt} {post resume resume' : Trace}
    (h : ClosesAt other found post resume) (h' : ClosesAt other found post resume') :
    resume = resume' := by
  obtain ⟨body, x, rest, heq, -, hbody, hend⟩ := h
  obtain ⟨body', x', rest', rfl, -, hbody', hend'⟩ := h'
  have hx : closing other found x ≠ none := by
    rcases hend with ⟨hx, -⟩ | ⟨hx, -⟩ <;> rw [hx] <;> simp
  have hx' : closing other found x' ≠ none := by
    rcases hend' with ⟨hx, -⟩ | ⟨hx, -⟩ <;> rw [hx] <;> simp
  have hsame : body' = body ∧ x' = x ∧ rest' = rest := by
    clear hend hend'
    induction body' generalizing body with
    | nil =>
        cases body with
        | nil => exact ⟨rfl, List.cons.inj heq⟩
        | cons y body =>
            obtain ⟨rfl, -⟩ := List.cons.inj heq
            exact absurd (hbody x' List.mem_cons_self) hx'
    | cons y' body' ih =>
        cases body with
        | nil =>
            obtain ⟨rfl, -⟩ := List.cons.inj heq
            exact absurd (hbody' y' List.mem_cons_self) hx
        | cons y body =>
            obtain ⟨rfl, htail⟩ := List.cons.inj heq
            obtain ⟨rfl, hrest⟩ := ih body (fun z hz => hbody z (List.mem_cons_of_mem _ hz)) htail
              (fun z hz => hbody' z (List.mem_cons_of_mem _ hz))
            exact ⟨rfl, hrest⟩
  obtain ⟨-, rfl, rfl⟩ := hsame
  rcases hend with ⟨hx, rfl⟩ | ⟨hx, rfl⟩ <;> rcases hend' with ⟨hx', rfl⟩ | ⟨hx', rfl⟩
  · rfl
  · rw [hx] at hx'
    cases hx'
  · rw [hx] at hx'
    cases hx'
  · rfl

/-- The statements are copied once. As a writer, the first store needs a statement before the last
that closes its section; otherwise the second store must come at least two behind it and not last,
or nothing but locks may lie between. What is left must hold the second store, or have an even
number of statements, if that store is a writer. -/
def CopiedOnce (trace : Trace) (first second : Stmt) (writes : List Id) : Prop :=
  (first.id ∈ writes ∧ ∃ pre post resume, trace = pre ++ first :: post ∧
      ClosesAt second.id first post resume ∧
      (second.id ∉ writes ∨ second ∈ resume ∨ Even resume.length)) ∨
    (first.id ∉ writes ∧ ∃ pre y rest, trace = pre ++ first :: y :: rest ∧
      ((∃ before behind, rest = before ++ second :: behind ∧ behind ≠ []) ∨
        ((∀ z ∈ rest.dropLast, z.isSync = true) ∧
          (second.id ∉ writes ∨ second ∈ rest ∨ Even rest.length))))

section Main

variable {g : LockGlobals} {trace : Trace} {bug : Mpa} {writes reads : List Id} {held : Held}

/-- The two phases and the last loop, on a trace without a common lock. -/
def copyAll (g : LockGlobals) (trace : Trace) (held : Held) (bug : Mpa) (writes reads : List Id) :
    Option Trace :=
  (secondPhase (firstPhase g trace held bug writes reads).globals
      (firstPhase g trace held bug writes reads).resume held bug writes).map fun q =>
    appendMissing ((firstPhase g trace held bug writes reads).out ++ q.out) q.resume

/-- The core survives exactly when the second phase returns, if the first one handed over the index
at which it stopped. -/
theorem copyAll_of_clean (hids : (trace.map Stmt.id).Nodup) (hsecond : bug.second ∈ trace)
    {p : Phase} (hp : firstPhase g trace held bug writes reads = p) {covered : Trace}
    (htrace : trace = covered ++ p.resume) (hout : core p.out = core covered) :
    (∃ out, copyAll g trace held bug writes reads = some out ∧ core out = core trace) ↔
      held.read = true ∨ bug.second.id ∉ writes ∨ bug.second ∈ p.resume ∨ Even p.resume.length := by
  have hsub : p.resume ⊆ trace := by
    rw [htrace]
    exact List.subset_append_right _ _
  have hunique := fun hnot => absent_of_notMem hids hsub hsecond hnot
  have hidsResume : (p.resume.map Stmt.id).Nodup := by
    rw [htrace, List.map_append] at hids
    exact (List.nodup_append.mp hids).2.1
  rw [← @secondPhase_isSome_iff p.globals p.resume held bug writes hidsResume hunique]
  simp only [copyAll, hp]
  constructor
  · rintro ⟨out, hcopy, -⟩
    obtain ⟨q, hq, -⟩ := Option.map_eq_some_iff.mp hcopy
    exact ⟨q, hq⟩
  · rintro ⟨q, hq⟩
    exact ⟨_, by rw [hq]; rfl, core_of_clean hids hunique htrace hout hq⟩

/-- Copying the whole trace again from its beginning repeats one of the two stores. -/
theorem copyAll_of_restart (hids : (trace.map Stmt.id).Nodup) (hbug : bug.In trace)
    (hread : held.read = false) {p : Phase}
    (hp : firstPhase g trace held bug writes reads = p) (hresume : p.resume = trace)
    (hout : core p.out = core trace.dropLast) :
    ¬∃ out, copyAll g trace held bug writes reads = some out ∧ core out = core trace := by
  rintro ⟨out, hcopy, hcore⟩
  simp only [copyAll, hp] at hcopy
  obtain ⟨q, hq, rfl⟩ := Option.map_eq_some_iff.mp hcopy
  obtain ⟨pre, post, htrace, hpre, hpost⟩ := exists_split hids hbug.second_mem
  rw [hresume, htrace] at hq
  obtain ⟨hcovers, hstore⟩ := secondPhase_covers hpre hpost hbug.first_core.2 hread hq
  by_cases hlast : post = []
  · have hfirst : bug.first ∈ core pre := by
      have hmem := hbug.first_mem
      rw [htrace, hlast, List.mem_append, List.mem_singleton] at hmem
      exact mem_core.mpr ⟨hmem.resolve_right hbug.ne, hbug.first_core.1⟩
    refine core_ne_of_twice hids.of_map ?_ (hcovers hfirst) hcore
    rw [hout, htrace, hlast, List.dropLast_concat]
    exact hfirst
  · refine core_ne_of_twice hids.of_map ?_ (hstore hlast) hcore
    obtain ⟨y, post, rfl⟩ := List.exists_cons_of_ne_nil hlast
    rw [hout, htrace, List.dropLast_append_cons, List.dropLast_cons_cons]
    exact mem_core.mpr ⟨by simp, hbug.first_core.2⟩

/-- When the second store comes last or was copied before, the second phase copies everything, or
everything but the last statement. -/
theorem secondPhase_of_last {rest : Trace} (hids : (rest.map Stmt.id).Nodup)
    (hunique : bug.second ∉ rest → Absent bug.second.id rest)
    (habsent : Absent bug.second.id rest.dropLast) (hread : held.read = false) {q : Phase}
    (h : secondPhase g rest held bug writes = some q) :
    (q.resume <:+ rest ∧ core q.out = core rest) ∨
      (q.resume = rest ∧ core q.out = core rest.dropLast) := by
  unfold secondPhase at h
  rw [hread] at h
  simp only [Bool.false_eq_true, if_false] at h
  split at h
  · by_cases hmem : bug.second ∈ rest
    · obtain ⟨pre, post, rfl, hpre, hpost⟩ := exists_split hids hmem
      obtain rfl : post = [] := by
        cases post with
        | nil => rfl
        | cons y post =>
            refine absurd rfl (habsent bug.second ?_)
            rw [List.dropLast_append_cons, List.dropLast_cons_cons]
            simp
      obtain ⟨q', hq', -, hcases⟩ :=
        @lockSecond_cases g bug.second pre [] writes bug.first.id _ hpre hpost rfl
      rw [hq'] at h
      obtain rfl := Option.some.inj h
      rcases hcases with ⟨out, ⟨body, x, tail, hnil, -⟩, -⟩ | ⟨-, hsuffix, hout⟩
      · simp at hnil
      · exact .inl ⟨hsuffix, by rw [hout]; simp [core, List.filter_cons]⟩
    · rcases @lockSecond_of_absent g bug.second writes bug.first.id rest _ (hunique hmem) rfl with
        ⟨-, hnone⟩ | ⟨-, q', hq', -, hsuffix, hout⟩
      · rw [hnone] at h
        cases h
      · rw [hq'] at h
        obtain rfl := Option.some.inj h
        exact .inl ⟨hsuffix, by rw [hout]; simp [core]⟩
  · obtain rfl := Option.some.inj h
    rcases (@restrictSecond_cases g bug.second rest _ _ rfl rfl).2 with
      ⟨before, found, next, hresume, hid, -, -⟩ | ⟨-, hout, hresume⟩
    · refine absurd hid (habsent found ?_)
      rw [hresume, List.dropLast_append_cons, List.dropLast_cons_cons]
      simp
    · exact .inr ⟨hresume, by rw [hout]⟩

/-- Copying on from two behind the first store repeats what lies between. -/
theorem copyAll_of_stale (hids : (trace.map Stmt.id).Nodup) (hsecond : bug.second ∈ trace)
    (hread : held.read = false) {p : Phase}
    (hp : firstPhase g trace held bug writes reads = p) {head rest : Trace}
    (htrace : trace = head ++ rest) (habsent : Absent bug.second.id rest.dropLast)
    (hout : core p.out = core (head ++ rest.dropLast)) (hresume : p.resume = rest) :
    (∃ out, copyAll g trace held bug writes reads = some out ∧ core out = core trace) ↔
      (∀ z ∈ rest.dropLast, z.isSync = true) ∧
        (bug.second.id ∉ writes ∨ bug.second ∈ rest ∨ Even rest.length) := by
  have hsub : rest ⊆ trace := by
    rw [htrace]
    exact List.subset_append_right _ _
  have hunique := fun hnot => absent_of_notMem hids hsub hsecond hnot
  have hnodup : trace.Nodup := hids.of_map
  have hidsResume : (rest.map Stmt.id).Nodup := by
    rw [htrace, List.map_append] at hids
    exact (List.nodup_append.mp hids).2.1
  have hreturns := @secondPhase_isSome_iff p.globals rest held bug writes hidsResume hunique
  simp only [hread, Bool.false_eq_true, false_or] at hreturns
  rw [← hreturns, ← core_eq_nil_iff]
  simp only [copyAll, hp, hresume]
  have hfinal : ∀ {q}, secondPhase p.globals rest held bug writes = some q →
      core (appendMissing (p.out ++ q.out) q.resume) =
        core (head ++ rest.dropLast) ++ core rest.dropLast ++
          core (rest.drop (rest.length - 1)) := by
    intro q hq
    have hsuffix : q.resume <:+ rest := by
      rcases secondPhase_of_last hidsResume hunique habsent hread hq with ⟨hsuffix, -⟩ | ⟨heq, -⟩
      · exact hsuffix
      · rw [heq]
    rw [core_final (hidsResume.of_map.sublist hsuffix.sublist), hout]
    rcases secondPhase_of_last hidsResume hunique habsent hread hq with ⟨-, hcore⟩ | ⟨heq, hcore⟩
    · have hnone : ((core q.resume).filter fun x =>
          x ∉ core (head ++ rest.dropLast) ++ core q.out) = [] := by
        rw [List.filter_eq_nil_iff, hcore]
        intro x hx
        have hmem : x ∈ core rest :=
          mem_core.mpr ⟨hsuffix.subset (mem_core.mp hx).1, (mem_core.mp hx).2⟩
        simp [hmem]
      rw [hnone, List.append_nil, hcore, List.append_assoc, ← core_append rest.dropLast,
        dropLast_append_drop]
    · have hlast : ((core q.resume).filter fun x =>
          x ∉ core (head ++ rest.dropLast) ++ core q.out) =
            core (rest.drop (rest.length - 1)) := by
        have hmissing := @filter_missing head rest.dropLast (rest.drop (rest.length - 1))
          (by rw [List.append_assoc, dropLast_append_drop, ← htrace]; exact hnodup)
        rw [dropLast_append_drop] at hmissing
        rw [← hmissing, heq, hcore]
        refine List.filter_congr fun x _ => ?_
        simp
      rw [hlast, hcore]
  have hwhole : core trace =
      core (head ++ rest.dropLast) ++ core (rest.drop (rest.length - 1)) := by
    rw [← core_append, List.append_assoc, dropLast_append_drop, ← htrace]
  constructor
  · rintro ⟨out, hcopy, hcore⟩
    obtain ⟨q, hq, rfl⟩ := Option.map_eq_some_iff.mp hcopy
    refine ⟨?_, q, hq⟩
    rw [hfinal hq, hwhole, List.append_assoc] at hcore
    have hcancel := List.append_cancel_left hcore
    simpa using hcancel
  · rintro ⟨hnil, q, hq⟩
    refine ⟨_, by rw [hq]; rfl, ?_⟩
    rw [hfinal hq, hwhole, hnil, List.append_nil]

theorem copyAll_core_iff (hids : (trace.map Stmt.id).Nodup) (hbug : bug.In trace) :
    (∃ out, copyAll g trace held bug writes reads = some out ∧ core out = core trace) ↔
      held.write = true ∨ held.read = true ∨ CopiedOnce trace bug.first bug.second writes := by
  obtain ⟨pre, post, htrace, hpre, hpost⟩ := exists_split hids hbug.first_mem
  have hsplit : ∀ {pre' post' : Trace}, trace = pre' ++ bug.first :: post' →
      pre' = pre ∧ post' = post := by
    intro pre' post' heq
    have hnotPre : bug.first ∉ pre := fun hmem => hpre _ hmem rfl
    have hnotPost : bug.first ∉ post := fun hmem => hpost _ hmem rfl
    obtain ⟨h1, -, h2⟩ :=
      (List.append_cons_inj_of_notMem hnotPre hnotPost).mp (htrace.symm.trans heq)
    exact ⟨h1.symm, h2.symm⟩
  cases hwrite : held.write with
  | true =>
      simp only [true_or, iff_true]
      have hp : firstPhase g trace held bug writes reads = ⟨[], trace, g⟩ := by
        rw [firstPhase, if_pos hwrite]
      exact (@copyAll_of_clean g trace bug writes reads held hids hbug.second_mem _ hp [] rfl rfl).mpr
        (.inr (.inr (.inl hbug.second_mem)))
  | false =>
      simp only [Bool.false_eq_true, false_or]
      generalize hp : firstPhase g trace held bug writes reads = p
      have hphase := hp
      unfold firstPhase at hphase
      rw [hwrite] at hphase
      simp only [Bool.false_eq_true, if_false] at hphase
      split at hphase
      · rename_i hfirst
        rw [htrace] at hphase
        obtain ⟨-, ⟨out, hend, hout⟩ | ⟨hall, hresume, hout⟩⟩ :=
          lockFirst_cases hpre hpost rfl hphase
        · -- the section is closed in time, so the first phase is clean
          obtain ⟨covered, hcovered, hcore⟩ :
              ∃ covered, post = covered ++ p.resume ∧ core out = core covered := by
            obtain ⟨init, last, resume, rfl, hsection, heq⟩ := hend
            obtain ⟨covered, rfl, hcore⟩ := hsection.core
            exact ⟨covered, by rw [heq]; simp, hcore⟩
          have hclean := @copyAll_of_clean g trace bug writes reads held hids hbug.second_mem p hp
            (pre ++ bug.first :: covered) (by rw [htrace, hcovered]; simp) (by
              simp only [core] at hcore
              rw [hout]
              simp [core, List.filter_cons, hcore])
          rw [hclean]
          refine or_congr_right ?_
          constructor
          · intro hreturns
            exact .inl ⟨hfirst, pre, post, p.resume, htrace, hend.closesAt, hreturns⟩
          · rintro (⟨-, pre', post', resume, heq, hcloses, hreturns⟩ | ⟨hnot, -⟩)
            · obtain ⟨rfl, rfl⟩ := hsplit heq
              rwa [hend.closesAt.unique hcloses]
            · exact absurd hfirst hnot
        · -- nothing closes the section, and the next phase starts over
          have hcoreOut : core p.out = core trace.dropLast := by
            rcases hout with ⟨rfl, hout⟩ | ⟨hne, hout⟩
            · rw [hout, htrace, List.dropLast_concat]
              simp [core]
            · rw [hout, htrace, List.dropLast_append_cons]
              obtain ⟨y, post, rfl⟩ := List.exists_cons_of_ne_nil hne
              rw [List.dropLast_cons_cons]
              simp [core, List.filter_cons]
          cases hread : held.read with
          | true =>
              simp only [true_or, iff_true]
              obtain ⟨init, last, hconcat⟩ : ∃ init last, trace = init ++ [last] := by
                refine ⟨trace.dropLast, trace.getLast (List.ne_nil_of_mem hbug.first_mem), ?_⟩
                rw [List.dropLast_append_getLast]
              have hq : secondPhase p.globals p.resume held bug writes =
                  some ⟨[], p.resume, p.globals⟩ := by rw [secondPhase, if_pos hread]
              refine ⟨_, by simp only [copyAll, hp, hq]; rfl, ?_⟩
              refine @core_of_read _ _ _ _ _ _ trace [] init [last] hids.of_map
                (by simpa using hconcat)
                ?_ (hresume.trans (htrace.symm.trans hconcat)) hread hq
              rw [hcoreOut, hconcat, List.dropLast_concat, List.nil_append]
          | false =>
              simp only [Bool.false_eq_true, false_or]
              refine iff_of_false
                (copyAll_of_restart hids hbug hread hp (hresume.trans htrace.symm) hcoreOut) ?_
              rintro (⟨-, pre', post', resume, heq, hcloses, -⟩ | ⟨hnot, -⟩)
              · obtain ⟨rfl, rfl⟩ := hsplit heq
                obtain ⟨x, hx, hclosing⟩ := hcloses.mem_dropLast
                exact hclosing (hall x hx)
              · exact hnot hfirst
      · rename_i hfirst
        rw [htrace] at hphase
        obtain ⟨-, ⟨rfl, hout, hresume⟩ | ⟨y, rest, rfl, ⟨before, found, behind, rfl, hbehind, hid,
          habsent, hout, hresume⟩ | ⟨habsent, hout, hresume⟩⟩⟩ :=
            restrictFirst_cases hpre rfl hphase
        · -- the first store comes last: nothing was locked, and the next phase starts over
          have hcoreOut : core p.out = core trace.dropLast := by
            rw [hout, htrace, List.dropLast_concat]
          cases hread : held.read with
          | true =>
              simp only [true_or, iff_true]
              have hq : secondPhase p.globals p.resume held bug writes =
                  some ⟨[], p.resume, p.globals⟩ := by rw [secondPhase, if_pos hread]
              refine ⟨_, by simp only [copyAll, hp, hq]; rfl, ?_⟩
              refine @core_of_read _ _ _ _ _ _ trace [] pre [bug.first] hids.of_map
                (by simpa using htrace) ?_ hresume hread hq
              rw [hout, List.nil_append]
          | false =>
              simp only [Bool.false_eq_true, false_or]
              refine iff_of_false
                (copyAll_of_restart hids hbug hread hp (hresume.trans htrace.symm) hcoreOut) ?_
              rintro (⟨hnot, -⟩ | ⟨-, pre', y, rest, heq, -⟩)
              · exact hfirst hnot
              · simpa using (hsplit heq).2
        · -- the first phase stops at the second store
          have hfound : found = bug.second := by
            have hmem : found ∈ trace := by
              rw [htrace]
              simp
            exact List.inj_on_of_nodup_map hids hmem hbug.second_mem hid
          have hclean := @copyAll_of_clean g trace bug writes reads held hids hbug.second_mem p hp
            (pre ++ bug.first :: y :: before) (by rw [htrace, hresume]; simp) (by
              rw [hout]
              simp [core, List.filter_cons])
          rw [hclean]
          refine iff_of_true (.inr (.inr (.inl ?_))) (.inr (.inr ⟨hfirst, pre, y, _, htrace,
            .inl ⟨before, behind, by rw [hfound], hbehind⟩⟩))
          rw [hresume, hfound]
          exact List.mem_cons_self
        · -- the first phase does not see the second store
          have hcoreOut : core p.out = core ((pre ++ [bug.first, y]) ++ rest.dropLast) := by
            rw [hout]
            simp [core, List.filter_cons]
          have htrace' : trace = (pre ++ [bug.first, y]) ++ rest := by
            rw [htrace]
            simp
          cases hread : held.read with
          | true =>
              simp only [true_or, iff_true]
              have hq : secondPhase p.globals p.resume held bug writes =
                  some ⟨[], p.resume, p.globals⟩ := by rw [secondPhase, if_pos hread]
              refine ⟨_, by simp only [copyAll, hp, hq]; rfl, ?_⟩
              refine @core_of_read _ _ _ _ _ _ trace (pre ++ [bug.first, y]) rest.dropLast
                (rest.drop (rest.length - 1)) hids.of_map ?_ hcoreOut ?_ hread hq
              · rw [List.append_assoc, dropLast_append_drop, ← htrace']
              · rw [dropLast_append_drop, hresume]
          | false =>
              simp only [Bool.false_eq_true, false_or]
              rw [copyAll_of_stale hids hbug.second_mem hread hp htrace' habsent hcoreOut hresume]
              constructor
              · rintro ⟨hsync, hreturns⟩
                exact .inr ⟨hfirst, pre, y, rest, htrace, .inr ⟨hsync, hreturns⟩⟩
              · rintro (⟨hnot, -⟩ | ⟨-, pre', y', rest', heq, hor⟩)
                · exact absurd hnot hfirst
                · obtain ⟨-, hpost'⟩ := hsplit heq
                  obtain ⟨-, rfl⟩ := List.cons.inj hpost'
                  refine hor.resolve_left ?_
                  rintro ⟨before, behind, rfl, hbehind⟩
                  refine habsent bug.second ?_ rfl
                  obtain ⟨z, behind, rfl⟩ := List.exists_cons_of_ne_nil hbehind
                  rw [List.dropLast_append_cons, List.dropLast_cons_cons]
                  simp

/-- The pass keeps the core: one of the stores is locked already, or everything is copied once. The
lock section that holds both stores, if there is one, does not count and is taken out first. -/
def KeepsCore (trace : Trace) (bug : Mpa) (writes : List Id) : Prop :=
  (∃ pre lock mid between post, SharedBy bug.first bug.second pre lock mid between post trace ∧
      CopiedOnce (unshared bug.first bug.second pre mid between post) bug.first bug.second writes) ∨
    ((¬∃ pre lock mid between post,
        SharedBy bug.first bug.second pre lock mid between post trace) ∧
      (Locked trace bug.first ∨ Locked trace bug.second ∨
        CopiedOnce trace bug.first bug.second writes))

theorem appendTraceWithLocks_of_prepare {start : Trace} {g' : LockGlobals} {p : Phase}
    (hstart : prepare g trace bug = (start, held, g'))
    (hp : firstPhase g' start held bug writes reads = p) :
    appendTraceWithLocks g trace bug writes reads =
      (secondPhase p.globals p.resume held bug writes).map fun q =>
        (appendMissing (p.out ++ q.out) q.resume, q.globals) := by
  simp only [appendTraceWithLocks, hstart, hp]
  cases secondPhase p.globals p.resume held bug writes <;> rfl

theorem exists_append_iff {P : Trace → Prop} :
    (∃ out g', appendTraceWithLocks g trace bug writes reads = some (out, g') ∧ P out) ↔
      ∃ out, copyAll (prepare g trace bug).2.2 (prepare g trace bug).1 (prepare g trace bug).2.1 bug
        writes reads = some out ∧ P out := by
  rw [appendTraceWithLocks_of_prepare rfl rfl]
  simp only [copyAll, Option.map_eq_some_iff, Prod.mk.injEq]
  constructor
  · rintro ⟨out, g', ⟨q, hq, rfl, rfl⟩, hP⟩
    exact ⟨_, ⟨q, hq, rfl⟩, hP⟩
  · rintro ⟨out, ⟨q, hq, rfl⟩, hP⟩
    exact ⟨_, q.globals, ⟨q, hq, rfl, rfl⟩, hP⟩

theorem Mpa.In.prepare (hbug : bug.In trace) : bug.In (prepare g trace bug).1 := by
  obtain ⟨hcore, -⟩ := prepare_spec g trace bug
  have hmem : ∀ {x : Stmt}, x ∈ trace → x.isSync = false →
      x ∈ (PMBugRepair.prepare g trace bug).1 := by
    intro x hx hsync
    have hin : x ∈ core trace := mem_core.mpr ⟨hx, hsync⟩
    rw [← hcore] at hin
    exact (mem_core.mp hin).1
  have hw : bug.w.isSync = false := by
    obtain ⟨n, hid⟩ := hbug.w_line
    simp [Stmt.isSync, hbug.w_store, hid]
  have hr : bug.r.isSync = false := by
    obtain ⟨n, hid⟩ := hbug.r_line
    simp [Stmt.isSync, hbug.r_store, hid]
  exact { hbug with w_mem := hmem hbug.w_mem hw, r_mem := hmem hbug.r_mem hr }

/-- The pass returns and adds nothing but locks, unlocks and fences to close sections, exactly when
it copies every statement once. -/
theorem appendTraceWithLocks_core_iff (g : LockGlobals) (trace : Trace) (bug : Mpa)
    (writes reads : List Id) (hids : (trace.map Stmt.id).Nodup) (hbug : bug.In trace) :
    (∃ out g', appendTraceWithLocks g trace bug writes reads = some (out, g') ∧
      core out = core trace) ↔ KeepsCore trace bug writes := by
  rw [exists_append_iff]
  obtain ⟨hcore, hsub⟩ := prepare_spec g trace bug
  have hids' : ((prepare g trace bug).1.map Stmt.id).Nodup := hids.sublist (hsub.map _)
  rw [← hcore, copyAll_core_iff hids' hbug.prepare, KeepsCore]
  by_cases hshared : ∃ pre lock mid between post,
      SharedBy bug.first bug.second pre lock mid between post trace
  · have hequiv : ∀ {pre lock mid between post},
        SharedBy bug.first bug.second pre lock mid between post trace →
        unshared bug.first bug.second pre mid between post = (prepare g trace bug).1 := by
      intro pre lock mid between post h
      rw [prepare_of_shared hids hbug h]
    have hheld : (prepare g trace bug).2.1 = ⟨false, false⟩ := by
      obtain ⟨pre, lock, mid, between, post, h⟩ := hshared
      rw [prepare_of_shared hids hbug h]
    simp only [hheld, Bool.false_eq_true, false_or, hshared, not_true_eq_false, false_and, or_false]
    constructor
    · intro hcopied
      obtain ⟨pre, lock, mid, between, post, h⟩ := hshared
      exact ⟨pre, lock, mid, between, post, h, by rwa [hequiv h]⟩
    · rintro ⟨pre, lock, mid, between, post, h, hcopied⟩
      rwa [hequiv h] at hcopied
  · have hno : ¬∃ pre lock mid between post,
        SharedBy bug.first bug.second pre lock mid between post trace ∧
          CopiedOnce (unshared bug.first bug.second pre mid between post) bug.first bug.second
            writes := fun ⟨pre, lock, mid, between, post, h, _⟩ =>
      hshared ⟨pre, lock, mid, between, post, h⟩
    rw [prepare_of_not_shared hids hbug hshared]
    obtain ⟨hwrite, hread⟩ := heldScan_start_iff hids hbug
    rw [hwrite, hread]
    simp only [hno, hshared, not_false_eq_true, true_and, false_or]

end Main

/-- Two stores of different threads. -/
def crossThread : Trace :=
  [⟨.line 2, .store, "x", "-1", 0, "f_1"⟩, ⟨.line 3, .store, "y", "-1", 1, "g_2"⟩]

/-- The same with a statement behind the second store. -/
def crossThreadFence : Trace := crossThread ++ [⟨.line 4, .fence, "0", "-1", 1, "g_3"⟩]

def crossThreadBug : Mpa := ⟨crossThread[0], crossThread[1]⟩

theorem crossThreadBug_in {tail : Trace} : crossThreadBug.In (crossThread ++ tail) :=
  ⟨by simp [crossThreadBug, crossThread], by simp [crossThreadBug, crossThread], rfl, rfl, ⟨2, rfl⟩,
    ⟨3, rfl⟩, by decide⟩

theorem appendTraceWithLocks_core_crossThread :
    ∃ out g', appendTraceWithLocks .start crossThreadFence crossThreadBug [.line 2] [.line 3] =
      some (out, g') ∧ core out = core crossThreadFence := by
  refine (appendTraceWithLocks_core_iff .start crossThreadFence crossThreadBug [.line 2] [.line 3]
    (by decide) crossThreadBug_in).mpr (.inr ⟨?_, .inr (.inr (.inl ?_))⟩)
  · rintro ⟨pre, lock, mid, between, post, hshared⟩
    have hmem : lock ∈ crossThreadFence := by
      rw [hshared.split]
      simp
    have hnone : ∀ x ∈ crossThreadFence, x.op ≠ .lock := by decide
    exact hnone lock hmem hshared.op
  · exact ⟨by decide, [], crossThreadFence.tail, crossThreadFence.tail, rfl,
      ⟨[], crossThread[1], _, rfl,
      by simp, by simp, .inl ⟨by decide, rfl⟩⟩, .inl (by decide)⟩

/-- Nothing but the second store, which comes last, closes the section of the first one. -/
theorem appendTraceWithLocks_repeats :
    (crossThread.map Stmt.id).Nodup ∧ crossThreadBug.In crossThread ∧
      ¬∃ out g', appendTraceWithLocks .start crossThread crossThreadBug [.line 2] [.line 3] =
        some (out, g') ∧ core out = core crossThread := by
  refine ⟨by decide, @crossThreadBug_in [], ?_⟩
  rintro ⟨out, g', happend, hcore⟩
  have hout : (appendTraceWithLocks .start crossThread crossThreadBug [.line 2] [.line 3]).map
      (fun result => core result.1) = some (crossThread[0] :: crossThread) := by decide
  rw [happend, Option.map_some, hcore] at hout
  exact absurd hout (by decide)

end PMBugRepair
