import PMBugRepair.Step1.Dispatch

/-!
# Completeness of MPB repair along a list of bugs

Two invariants of the loop of `repairThread` on a thread without transactions. `Consistent` holds
while no store has been sent to `repairDURA` twice: the numbers differ, and every flush equation
ties its own flush to its own store. `Broken` holds from the second time on: no assignment satisfies
the constraints and keeps the places apart. The first makes every MPB bug of the thread succeed, the
second makes every one fail.
-/

namespace PMBugRepair

open Smt (Formula Term Model Solver Satisfies satisfies_append)
open Schedule (Before position)

/-- The stores for which `repairDURA` is called: the left ones of the bugs whose text has `9999`. -/
def dispatched (bugs : List Bug) : List Id := (bugs.filter Bug.mentionsInf).map Bug.left

theorem dispatched_append (bugs bugs' : List Bug) :
    dispatched (bugs ++ bugs') = dispatched bugs ++ dispatched bugs' := by
  simp [dispatched]

/-! ### Runs -/

section Run

variable {z : Nat → Solver Var} {k : Nat} {st st' : ThreadState}

theorem repairBugs_append (bugs bugs' : List Bug) :
    repairBugs z k (bugs ++ bugs') st =
      (repairBugs z k bugs st).bind (repairBugs z (k + bugs.length) bugs') := by
  induction bugs generalizing k st with
  | nil => rfl
  | cons bug bugs ih =>
      simp only [List.cons_append, repairBugs, Option.bind_assoc, ih, List.length_cons]
      congr 1
      funext next
      rw [Nat.add_right_comm, Nat.add_assoc]

/-- What one repair preserves, along with the bugs seen so far, holds at the end of every run. -/
theorem repairBugs_invariant {P : List Bug → ThreadState → Prop} (hinit : P [] st)
    (hstep : ∀ seen bug k st st', P seen st → repairBug (z k) st bug = some st' →
      P (seen ++ [bug]) st') {bugs : List Bug} (h : repairBugs z k bugs st = some st') :
    P bugs st' := by
  have hgeneral : ∀ (bugs seen : List Bug) (k : Nat) (st : ThreadState), P seen st →
      repairBugs z k bugs st = some st' → P (seen ++ bugs) st' := by
    intro bugs
    induction bugs with
    | nil =>
        intro seen k st hst hrun
        cases hrun
        simpa using hst
    | cons bug bugs ih =>
        intro seen k st hst hrun
        obtain ⟨next, hnext, hrest⟩ := Option.bind_eq_some_iff.mp hrun
        rw [List.append_cons]
        exact ih _ _ next (hstep seen bug k st next hst hnext) hrest
  exact hgeneral bugs [] k st hinit h

theorem repairBug_fixed {z : Solver Var} {bug : Bug} (h : repairBug z st bug = some st') :
    st'.globals.fixedBugs = st.globals.fixedBugs ∨
      st'.globals.fixedBugs = st.globals.fixedBugs ++ [bug] := by
  have haccept : ∀ out : Repair, out.globals.fixedBugs = st.globals.fixedBugs →
      (st.accept bug out).globals.fixedBugs = st.globals.fixedBugs ∨
        (st.accept bug out).globals.fixedBugs = st.globals.fixedBugs ++ [bug] := by
    intro out hout
    simp only [ThreadState.accept, hout]
    split
    · exact .inr rfl
    · exact .inl rfl
  rcases repairBug_cases h with ⟨-, rfl⟩ | ⟨-, a, b, out, -, hout, rfl⟩
  · exact haccept _ (repairDURA_fixedBugs st.globals st.thread bug)
  · exact haccept out (repairMPB_globals hout).2.2

end Run

/-! ### Every call returns -/

structure Steady (st : ThreadState) : Prop where
  txFree : TxFree st.thread
  nonempty : st.thread ≠ []
  known : ∀ φ ∈ st.constraints, KnownPlaces st.thread φ

theorem adjacent_known {thread : Trace} {store flush : Stmt} (hstore : store ∈ thread)
    (hflush : flush ∈ thread) : KnownPlaces thread (adjacent store flush) := by
  intro id hid
  obtain rfl | rfl : id = store.id ∨ id = flush.id := by
    simpa [adjacent, Formula.vars, Term.vars, pc] using hid
  exacts [⟨store, hstore, rfl⟩, ⟨flush, hflush, rfl⟩]

/-- Every constraint of `repairDURA` ties a flush of the thread to a store of the thread. -/
def TiesOnly (thread : Trace) (constraints : List (Formula Var)) : Prop :=
  ∀ φ ∈ constraints, ∃ store ∈ thread, ∃ flush ∈ thread, φ = adjacent store flush

theorem TiesOnly.mono {thread thread' : Trace} {constraints : List (Formula Var)}
    (h : TiesOnly thread constraints) (hsub : thread ⊆ thread') : TiesOnly thread' constraints := by
  intro φ hφ
  obtain ⟨store, hstore, flush, hflush, heq⟩ := h φ hφ
  exact ⟨store, hsub hstore, flush, hsub hflush, heq⟩

theorem provideFlush_tiesOnly {length i : Nat} {st : DuraState} {store : Stmt}
    (hget : st.thread[i]? = some store) (h : TiesOnly st.thread st.constraints) :
    TiesOnly (st.provideFlush length i store).thread
      (st.provideFlush length i store).constraints := by
  have hstore := List.mem_of_getElem? hget
  unfold DuraState.provideFlush
  split
  · rename_i flush hfind
    intro φ hφ
    rcases List.mem_append.mp hφ with hφ | hφ
    · exact h φ hφ
    · exact ⟨store, hstore, flush, List.mem_of_mem_take (List.mem_of_find?_eq_some hfind),
        List.mem_singleton.mp hφ⟩
  · have hlt : i + 1 ≤ st.thread.length := (List.getElem?_eq_some_iff.mp hget).1
    intro φ hφ
    rcases List.mem_append.mp hφ with hφ | hφ
    · exact h.mono (fun stmt hstmt => (List.mem_insertIdx hlt).mpr (.inr hstmt)) φ hφ
    · exact ⟨store, (List.mem_insertIdx hlt).mpr (.inr hstore), _,
        (List.mem_insertIdx hlt).mpr (.inl rfl), List.mem_singleton.mp hφ⟩

theorem step_tiesOnly {target : Id} {length : Nat} {st : DuraState} (i : Nat)
    (h : TiesOnly st.thread st.constraints) :
    TiesOnly (st.step target length i).thread (st.step target length i).constraints := by
  unfold DuraState.step
  cases hget : st.thread[i]? with
  | none => exact h
  | some stmt =>
      simp only
      split
      · have hflush := @provideFlush_tiesOnly length i { st with bugFlag := true } stmt hget h
        obtain ⟨hcons, -, -, hfence⟩ := provideFence_spec
          (DuraState.provideFlush { st with bugFlag := true } length i stmt) length i stmt
        rw [hcons]
        refine hflush.mono ?_
        rcases hfence with hfence | hfence
        · rw [hfence]
          exact List.Subset.refl _
        · rw [hfence]
          exact List.subset_append_left _ _
      · exact h

theorem repairDURA_tiesOnly (g : Globals) (thread : Trace) (bug : Bug) :
    TiesOnly (repairDURA g thread bug).thread (repairDURA g thread bug).constraints := by
  have hfold : ∀ (indices : List Nat) (st : DuraState), TiesOnly st.thread st.constraints →
      TiesOnly (indices.foldl (DuraState.step bug.left thread.length) st).thread
        (indices.foldl (DuraState.step bug.left thread.length) st).constraints := by
    intro indices
    induction indices with
    | nil => exact fun st h => h
    | cons i indices ih => exact fun st h => ih _ (step_tiesOnly i h)
  exact hfold _ (.init g thread) (by simp [TiesOnly, DuraState.init])

section Step

variable {z : Solver Var} {st st' : ThreadState} {bug : Bug}

theorem Steady.step (h : Steady st) (hstep : repairBug z st bug = some st') : Steady st' := by
  have hconserves := repairBug_conserves hstep
  refine ⟨hconserves.txFree h.txFree, ?_, ?_⟩
  · intro hnil
    obtain ⟨stmt, hstmt⟩ := List.exists_mem_of_ne_nil _ h.nonempty
    have hmem := hconserves.subset hstmt
    simp [hnil] at hmem
  · rcases repairBug_cases hstep with ⟨-, rfl⟩ | ⟨-, a, b, out, -, hout, rfl⟩
    · intro φ hφ
      rcases List.mem_append.mp hφ with hφ | hφ
      · exact (h.known φ hφ).mono hconserves.subset
      · obtain ⟨store, hstore, flush, hflush, rfl⟩ :=
          repairDURA_tiesOnly st.globals st.thread bug φ hφ
        exact adjacent_known hstore hflush
    · intro φ hφ
      rcases List.mem_append.mp hφ with hφ | hφ
      · exact (h.known φ hφ).mono hconserves.subset
      · rw [repairMPB_constraints h.txFree hout] at hφ
        cases hφ

theorem Steady.exists_step (h : Steady st) (z : Solver Var) (bug : Bug) :
    ∃ st', repairBug z st bug = some st' := by
  unfold repairBug
  split
  · exact ⟨_, rfl⟩
  · rename_i hinf
    cases bug with
    | dura s => exact absurd (Bug.mentionsInf_dura s) hinf
    | mpb a b =>
        obtain ⟨out, hout⟩ :=
          @exists_repairMPB a b st.thread z st.globals st.constraints h.txFree h.nonempty h.known
        exact ⟨st.accept (.mpb a b) out, by simp [hout]⟩

end Step

theorem Steady.exists_run {z : Nat → Solver Var} {k : Nat} {st : ThreadState} (h : Steady st)
    (bugs : List Bug) : ∃ st', repairBugs z k bugs st = some st' := by
  induction bugs generalizing k st with
  | nil => exact ⟨st, rfl⟩
  | cons bug bugs ih =>
      obtain ⟨next, hnext⟩ := h.exists_step (z k) bug
      obtain ⟨st', hst'⟩ := @ih (k + 1) next (h.step hnext)
      exact ⟨st', by simp [repairBugs, hnext, hst']⟩

/-- **Step 1 is conservative.** Whatever the solvers answer, a returned thread is a permutation of
the input statements and of flushes and fences inserted for its stores, and the stores are those of
the input in the order of the input. -/
theorem repairThread_conserves {z : Nat → Solver Var} {st' : ThreadState} {g : Globals}
    {thread : Trace} {bugs : List Bug} {transactCons : List (Formula Var)}
    (h : repairThread z g thread bugs transactCons = some st') : Conserves thread st'.thread :=
  repairBugs_conserves h

theorem repairThread_conserves_flushedBetween :
    ∃ st', repairThread (fun _ => .classical) .start flushedBetween
        [.dura (.line 3), .mpb (.line 2) (.line 6), .dura (.line 2)] [] = some st' ∧
      Conserves flushedBetween st'.thread := by
  have hsteady : Steady { thread := flushedBetween, constraints := [], globals := .start } :=
    ⟨by simp [TxFree, flushedBetween], by simp [flushedBetween], by simp⟩
  obtain ⟨st', hrun⟩ := @Steady.exists_run (fun _ => .classical) 0 _ hsteady
    [.dura (.line 3), .mpb (.line 2) (.line 6), .dura (.line 2)]
  exact ⟨st', hrun, repairThread_conserves hrun⟩

/-! ### Consistent states -/

/-- No store of the thread has been sent to `repairDURA` twice. -/
structure Consistent (seen : List Bug) (st : ThreadState) : Prop where
  ids : (st.thread.map Stmt.id).Nodup
  pairs : ∃ pairs, Paired st.thread pairs ∧ st.constraints = adjacencies pairs ∧
    ∀ pair ∈ pairs, pair.1.id ∈ dispatched seen ∧ pair.2.id ∈ st.globals.claimedFlushes
  inserted : ∀ stmt ∈ st.thread, ∀ s k, stmt.id = .inserted s k → s ∈ dispatched seen
  fences : ∀ stmt ∈ st.thread, ∀ s k, stmt.id = .insertedFence s k → k < st.globals.r

theorem Paired.mono {thread thread' : Trace} {pairs : List (Stmt × Stmt)}
    (h : Paired thread pairs) (hsub : thread ⊆ thread') : Paired thread' pairs :=
  ⟨fun pair hpair => ⟨hsub (h.store pair hpair).1, (h.store pair hpair).2⟩,
    fun pair hpair => ⟨hsub (h.flush pair hpair).1, (h.flush pair hpair).2⟩,
    h.stores_nodup, h.flushes_nodup⟩

theorem Paired.concat {thread : Trace} {pairs : List (Stmt × Stmt)} (h : Paired thread pairs)
    {store flush : Stmt} (hstore : store ∈ thread) (hop : store.op = .store)
    (hflush : flush ∈ thread) (hflushOp : flush.op = .flush)
    (hnewStore : ∀ pair ∈ pairs, pair.1 ≠ store) (hnewFlush : ∀ pair ∈ pairs, pair.2 ≠ flush) :
    Paired thread (pairs ++ [(store, flush)]) := by
  refine ⟨?_, ?_, ?_, ?_⟩
  · intro pair hpair
    rcases List.mem_append.mp hpair with hpair | hpair
    · exact h.store pair hpair
    · obtain rfl := List.mem_singleton.mp hpair
      exact ⟨hstore, hop⟩
  · intro pair hpair
    rcases List.mem_append.mp hpair with hpair | hpair
    · exact h.flush pair hpair
    · obtain rfl := List.mem_singleton.mp hpair
      exact ⟨hflush, hflushOp⟩
  · rw [List.map_append, List.map_singleton, ← List.concat_eq_append]
    refine h.stores_nodup.concat fun hmem => ?_
    obtain ⟨pair, hpair, heq⟩ := List.mem_map.mp hmem
    exact hnewStore pair hpair heq
  · rw [List.map_append, List.map_singleton, ← List.concat_eq_append]
    refine h.flushes_nodup.concat fun hmem => ?_
    obtain ⟨pair, hpair, heq⟩ := List.mem_map.mp hmem
    exact hnewFlush pair hpair heq

theorem dispatched_concat_of_mentionsInf {bug : Bug} (hinf : bug.mentionsInf = true)
    (seen : List Bug) : dispatched (seen ++ [bug]) = dispatched seen ++ [bug.left] := by
  simp [dispatched, hinf]

theorem dispatched_concat_of_not_mentionsInf {bug : Bug} (hinf : bug.mentionsInf = false)
    (seen : List Bug) : dispatched (seen ++ [bug]) = dispatched seen := by
  simp [dispatched, hinf]

section Consistent

variable {z : Solver Var} {seen : List Bug} {st st' : ThreadState} {bug : Bug}

theorem Consistent.dura (h : Consistent seen st) (hinf : bug.mentionsInf = true)
    (hnew : ∀ store ∈ st.thread, store.op = .store → store.id = bug.left →
      bug.left ∉ dispatched seen) :
    Consistent (seen ++ [bug]) (st.accept bug (repairDURA st.globals st.thread bug)) := by
  have hdispatched := dispatched_concat_of_mentionsInf hinf seen
  obtain ⟨pairs, hpaired, hcons, hpairs⟩ := h.pairs
  by_cases hpresent : ∃ store ∈ st.thread, store.op = .store ∧ store.id = bug.left
  · obtain ⟨store, hmem, hop, hid⟩ := hpresent
    have hfresh := hnew store hmem hop hid
    obtain ⟨pre, post, honly⟩ := exists_onlyStore h.ids hmem hop
    obtain ⟨flush, new, hspec⟩ := exists_duraSpec st.globals honly bug hid.symm
    have hsub : st.thread ⊆ (repairDURA st.globals st.thread bug).thread := fun stmt hstmt =>
      hspec.perm.mem_iff.mpr (List.mem_append_right new hstmt)
    have hnewId : ∀ stmt ∈ new, ∃ k, stmt.id = .inserted store.id k := by
      intro stmt hstmt
      have hmemId := List.mem_map_of_mem (f := Stmt.id) hstmt
      rw [hspec.ids] at hmemId
      obtain ⟨k, -, hk⟩ := List.mem_map.mp hmemId
      exact ⟨k, hk.symm⟩
    refine ⟨?_, ⟨pairs ++ [(store, flush)], ?_, ?_, ?_⟩, ?_, ?_⟩
    · have hperm : ((repairDURA st.globals st.thread bug).thread.map Stmt.id).Perm
          (new.map Stmt.id ++ st.thread.map Stmt.id) := by
        rw [← List.map_append]
        exact hspec.perm.map Stmt.id
      refine hperm.nodup_iff.mpr (List.nodup_append.mpr ⟨?_, h.ids, ?_⟩)
      · rw [hspec.ids]
        exact (List.nodup_range).map fun i j heq => (Id.inserted.inj heq).2
      · intro id hidNew id' hidOld heq
        obtain ⟨stmt, hstmt, rfl⟩ := List.mem_map.mp hidNew
        obtain ⟨old, hold, rfl⟩ := List.mem_map.mp hidOld
        obtain ⟨k, hk⟩ := hnewId stmt hstmt
        exact hfresh (hid ▸ h.inserted old hold store.id k (heq ▸ hk))
    · refine (hpaired.mono hsub).concat (hsub hmem) hop hspec.flush_mem hspec.op ?_ ?_
      · rintro pair hpair rfl
        exact hfresh (hid ▸ (hpairs pair hpair).1)
      · rintro pair hpair rfl
        rcases hspec.source with hsource | ⟨-, hfree⟩
        · obtain ⟨k, hk⟩ := hnewId pair.2 hsource
          exact hfresh (hid ▸ h.inserted pair.2 (hpaired.flush pair hpair).1 store.id k hk)
        · exact hfree (hpairs pair hpair).2
    · simp [ThreadState.accept, hspec.constraints, hcons, adjacencies]
    · intro pair hpair
      rw [hdispatched]
      have hclaimed : (st.accept bug (repairDURA st.globals st.thread bug)).globals.claimedFlushes =
          st.globals.claimedFlushes ++ [flush.id] := hspec.claimed
      rw [hclaimed]
      rcases List.mem_append.mp hpair with hpair | hpair
      · exact ⟨List.mem_append_left _ (hpairs pair hpair).1,
          List.mem_append_left _ (hpairs pair hpair).2⟩
      · obtain rfl := List.mem_singleton.mp hpair
        exact ⟨by simp [hid], by simp⟩
    · intro stmt hstmt s k hstmtId
      rw [hdispatched]
      rcases List.mem_append.mp (hspec.perm.mem_iff.mp hstmt) with hstmt | hstmt
      · obtain ⟨k', hk'⟩ := hnewId stmt hstmt
        obtain ⟨rfl, -⟩ := Id.inserted.inj (hstmtId.symm.trans hk')
        simp [hid]
      · exact List.mem_append_left _ (h.inserted stmt hstmt s k hstmtId)
    · intro stmt hstmt s k hstmtId
      have hr : (st.accept bug (repairDURA st.globals st.thread bug)).globals.r = st.globals.r :=
        hspec.counter
      rw [hr]
      rcases List.mem_append.mp (hspec.perm.mem_iff.mp hstmt) with hstmt | hstmt
      · obtain ⟨k', hk'⟩ := hnewId stmt hstmt
        cases hstmtId.symm.trans hk'
      · exact h.fences stmt hstmt s k hstmtId
  · have habsent := repairDURA_of_absent st.globals st.thread bug fun stmt hmem hop hid =>
      hpresent ⟨stmt, hmem, hop, hid⟩
    rw [habsent]
    refine ⟨h.ids, ⟨pairs, hpaired, ?_, ?_⟩, ?_, h.fences⟩
    · simpa [ThreadState.accept, DuraState.toRepair, DuraState.init] using hcons
    · intro pair hpair
      rw [hdispatched]
      exact ⟨List.mem_append_left _ (hpairs pair hpair).1, (hpairs pair hpair).2⟩
    · intro stmt hstmt s k hstmtId
      rw [hdispatched]
      exact List.mem_append_left _ (h.inserted stmt hstmt s k hstmtId)

theorem Consistent.fenced_ids (h : Consistent seen st) (a b : Id) :
    ((fencedThread st.globals st.thread a b).map Stmt.id).Nodup := by
  rw [fencedThread, List.map_append, mpbFences_ids]
  refine List.nodup_append.mpr ⟨h.ids, ?_, ?_⟩
  · exact (List.nodup_range').map fun i j heq => (Id.insertedFence.inj heq).2
  · intro id hidOld id' hidNew heq
    obtain ⟨stmt, hstmt, rfl⟩ := List.mem_map.mp hidOld
    obtain ⟨k, hk, rfl⟩ := List.mem_map.mp hidNew
    have hlt := h.fences stmt hstmt a k heq
    have hle := (List.mem_range'_1.mp hk).1
    omega

theorem Consistent.mpb {a b : Id} {out : Repair} (h : Consistent seen st) (hst : Steady st)
    (hinf : bug.mentionsInf = false)
    (hout : repairMPB z st.globals st.thread a b st.constraints = some out) :
    Consistent (seen ++ [bug]) (st.accept bug out) := by
  have hdispatched := dispatched_concat_of_not_mentionsInf hinf seen
  obtain ⟨pairs, hpaired, hcons, hpairs⟩ := h.pairs
  obtain ⟨hr, hclaimed, -⟩ := repairMPB_globals hout
  have hperm : out.thread.Perm (fencedThread st.globals st.thread a b) := by
    rcases (repairMPB_cases hout).2 with ⟨-, heq⟩ | ⟨-, -, m, hsolved⟩
    · rw [heq]
    · exact hsolved.perm
  have hsub : st.thread ⊆ out.thread := fun stmt hstmt =>
    hperm.mem_iff.mpr (List.mem_append_left _ hstmt)
  have hfence : ∀ stmt ∈ (mpbFences a b st.thread st.globals.r).2, ∃ k, k < out.globals.r ∧
      stmt.id = .insertedFence a k := by
    intro stmt hstmt
    obtain ⟨store, -, -, rfl, k, -, hk, rfl⟩ := mem_mpbFences hstmt
    exact ⟨k, by omega, rfl⟩
  refine ⟨?_, ⟨pairs, hpaired.mono hsub, ?_, ?_⟩, ?_, ?_⟩
  · exact (hperm.map Stmt.id).nodup_iff.mpr (h.fenced_ids a b)
  · simp [ThreadState.accept, repairMPB_constraints hst.txFree hout, hcons]
  · intro pair hpair
    rw [hdispatched]
    refine ⟨(hpairs pair hpair).1, ?_⟩
    have heq : (st.accept bug out).globals.claimedFlushes = st.globals.claimedFlushes := hclaimed
    rw [heq]
    exact (hpairs pair hpair).2
  · intro stmt hstmt s k hstmtId
    rw [hdispatched]
    rcases List.mem_append.mp (hperm.mem_iff.mp hstmt) with hstmt | hstmt
    · exact h.inserted stmt hstmt s k hstmtId
    · obtain ⟨k', -, hk'⟩ := hfence stmt hstmt
      cases hstmtId.symm.trans hk'
  · intro stmt hstmt s k hstmtId
    change k < out.globals.r
    rcases List.mem_append.mp (hperm.mem_iff.mp hstmt) with hstmt | hstmt
    · have hlt := h.fences stmt hstmt s k hstmtId
      omega
    · obtain ⟨k', hlt, hk'⟩ := hfence stmt hstmt
      obtain ⟨-, rfl⟩ := Id.insertedFence.inj (hstmtId.symm.trans hk')
      exact hlt

/-- In a consistent state an MPB bug of the thread is repaired. -/
theorem Consistent.flag {a b : Id} {out : Repair} (h : Consistent seen st) (hst : Steady st)
    (horder : InOrder st.thread a b)
    (hout : repairMPB z st.globals st.thread a b st.constraints = some out) :
    out.bugFlag = true := by
  obtain ⟨pairs, hpaired, hcons, -⟩ := h.pairs
  rw [hcons] at hout
  exact repairMPB_flag hst.txFree (h.fenced_ids a b) hpaired horder hout

end Consistent

/-! ### Broken states -/

/-- No assignment satisfies the constraints and keeps the places apart. -/
def Broken (st : ThreadState) : Prop :=
  ∀ σ, Satisfies σ st.constraints → ¬(st.thread.map fun stmt => σ (.pc stmt.id)).Nodup

/-- A claimed flush is tied to the store. -/
def Tied (st : ThreadState) (s : Id) : Prop :=
  ∃ store ∈ st.thread, ∃ flush ∈ st.thread, store.op = .store ∧ store.id = s ∧
    flush.id ∈ st.globals.claimedFlushes ∧ adjacent store flush ∈ st.constraints

theorem broken_of_ids {st : ThreadState} (hids : ¬(st.thread.map Stmt.id).Nodup) : Broken st := by
  intro σ _ hnodup
  refine hids (List.Nodup.of_map (fun id => σ (.pc id)) ?_)
  rw [List.map_map]
  exact hnodup

section Broken

variable {z : Solver Var} {st st' : ThreadState} {bug : Bug}

theorem repairBug_constraints (h : repairBug z st bug = some st') :
    st.constraints ⊆ st'.constraints := by
  rcases repairBug_cases h with ⟨-, rfl⟩ | ⟨-, a, b, out, -, -, rfl⟩ <;>
    exact List.subset_append_left _ _

theorem Broken.step (h : Broken st) (hstep : repairBug z st bug = some st') : Broken st' := by
  intro σ hσ hnodup
  refine h σ (fun φ hφ => hσ φ (repairBug_constraints hstep hφ)) ?_
  obtain ⟨ins, hperm, -⟩ := (repairBug_conserves hstep).perm
  have hnodup' := (hperm.map fun stmt => σ (.pc stmt.id)).nodup_iff.mp hnodup
  rw [List.map_append] at hnodup'
  exact (List.nodup_append.mp hnodup').1

/-- In a broken state `repairMPB` cannot raise its flag. -/
theorem Broken.not_flag {a b : Id} {out : Repair} (h : Broken st)
    (hout : repairMPB z st.globals st.thread a b st.constraints = some out) :
    out.bugFlag = false := by
  rcases (repairMPB_cases hout).2 with ⟨hflag, -⟩ | ⟨-, -, m, hsolved⟩
  · exact hflag
  · obtain ⟨-, hprevious, -, hnodup⟩ := satisfies_mpbAssertions.mp hsolved.model
    rw [fencedThread, List.map_append] at hnodup
    exact absurd (List.nodup_append.mp hnodup).1 (h m.val hprevious)

theorem claimed_subset (h : repairBug z st bug = some st') :
    Broken st ∨ st.globals.claimedFlushes ⊆ st'.globals.claimedFlushes := by
  by_cases hids : (st.thread.map Stmt.id).Nodup
  · refine .inr ?_
    rcases repairBug_cases h with ⟨-, rfl⟩ | ⟨-, a, b, out, -, hout, rfl⟩
    · by_cases hpresent : ∃ store ∈ st.thread, store.op = .store ∧ store.id = bug.left
      · obtain ⟨store, hmem, hop, hid⟩ := hpresent
        obtain ⟨pre, post, honly⟩ := exists_onlyStore hids hmem hop
        obtain ⟨flush, new, hspec⟩ := exists_duraSpec st.globals honly bug hid.symm
        have hclaimed : (st.accept bug (repairDURA st.globals st.thread
            bug)).globals.claimedFlushes = st.globals.claimedFlushes ++ [flush.id] := hspec.claimed
        rw [hclaimed]
        exact List.subset_append_left _ _
      · rw [repairDURA_of_absent st.globals st.thread bug fun stmt hmem hop hid =>
          hpresent ⟨stmt, hmem, hop, hid⟩]
        exact List.Subset.refl _
    · have hclaimed : (st.accept bug out).globals.claimedFlushes = st.globals.claimedFlushes :=
        (repairMPB_globals hout).2.1
      rw [hclaimed]
      exact List.Subset.refl _
  · exact .inl (broken_of_ids hids)

theorem Tied.step {s : Id} (h : Tied st s) (hstep : repairBug z st bug = some st') :
    Broken st' ∨ Tied st' s := by
  rcases claimed_subset hstep with hbroken | hclaimed
  · exact .inl (hbroken.step hstep)
  · obtain ⟨store, hstore, flush, hflush, hop, hid, hmem, hcons⟩ := h
    have hsub := (repairBug_conserves hstep).subset
    exact .inr ⟨store, hsub hstore, flush, hsub hflush, hop, hid, hclaimed hmem,
      repairBug_constraints hstep hcons⟩

/-- The first call of `repairDURA` for a store ties a flush to it, the second breaks the state. -/
theorem repairDURA_tied {store : Stmt} (hmem : store ∈ st.thread) (hop : store.op = .store)
    (hid : store.id = bug.left) :
    (Broken (st.accept bug (repairDURA st.globals st.thread bug)) ∨
        Tied (st.accept bug (repairDURA st.globals st.thread bug)) bug.left) ∧
      (Tied st bug.left → Broken (st.accept bug (repairDURA st.globals st.thread bug))) := by
  have hcons : ∀ φ ∈ (repairDURA st.globals st.thread bug).constraints,
      φ ∈ (st.accept bug (repairDURA st.globals st.thread bug)).constraints := fun φ hφ =>
    List.mem_append_right _ hφ
  by_cases hids : (st.thread.map Stmt.id).Nodup
  · obtain ⟨pre, post, honly⟩ := exists_onlyStore hids hmem hop
    obtain ⟨flush, new, hspec⟩ := exists_duraSpec st.globals honly bug hid.symm
    have hadjacent := hcons (adjacent store flush) (by simp [hspec.constraints])
    refine ⟨.inr ⟨store, hspec.perm.mem_iff.mpr (List.mem_append_right new hmem), flush,
      hspec.flush_mem, hop, hid, ?_, hadjacent⟩, ?_⟩
    · have hclaimed : (st.accept bug (repairDURA st.globals st.thread
          bug)).globals.claimedFlushes = st.globals.claimedFlushes ++ [flush.id] := hspec.claimed
      simp [hclaimed]
    · rintro ⟨store', hmem', flush', hflush', -, hid', hclaimed', hadjacent'⟩ σ hσ hnodup
      -- both flushes are equated with the place behind the store
      have heq : σ (.pc flush.id) = σ (.pc flush'.id) := by
        have hone := holds_adjacent.mp (hσ _ hadjacent)
        have htwo := holds_adjacent.mp (hσ _ (List.mem_append_left _ hadjacent'))
        rw [hid', ← hid] at htwo
        omega
      have hperm := (hspec.perm.map fun stmt => σ (.pc stmt.id)).nodup_iff.mp hnodup
      rw [List.map_append] at hperm
      obtain ⟨-, hold, hdisjoint⟩ := List.nodup_append.mp hperm
      rcases hspec.source with hsource | ⟨hsource, hfree⟩
      · exact hdisjoint _ (List.mem_map_of_mem hsource) _ (List.mem_map_of_mem hflush') heq
      · have hsame := List.inj_on_of_nodup_map hold hsource hflush' heq
        exact hfree (hsame ▸ hclaimed')
  · have hbroken : Broken (st.accept bug (repairDURA st.globals st.thread bug)) := by
      refine broken_of_ids fun hnodup => hids ?_
      obtain ⟨ins, hperm, -⟩ := (repairDURA_conserves st.globals st.thread bug).1.perm
      have hnodup' := (hperm.map Stmt.id).nodup_iff.mp hnodup
      rw [List.map_append] at hnodup'
      exact (List.nodup_append.mp hnodup').1
    exact ⟨.inl hbroken, fun _ => hbroken⟩

end Broken

/-! ### The whole list -/

section List

variable {z : Nat → Solver Var} {k : Nat} {st st' : ThreadState} {thread : Trace} {bugs : List Bug}

/-- The recorded bugs are those whose own repair recorded them. -/
theorem repairBugs_fixed (h : repairBugs z k bugs st = some st') :
    ∃ new, st'.globals.fixedBugs = st.globals.fixedBugs ++ new ∧ ∀ bug, bug ∈ new ↔
      ∃ before after mid next, bugs = before ++ bug :: after ∧
        repairBugs z k before st = some mid ∧
        repairBug (z (k + before.length)) mid bug = some next ∧
        next.globals.fixedBugs = mid.globals.fixedBugs ++ [bug] := by
  induction bugs generalizing k st with
  | nil =>
      cases h
      exact ⟨[], by simp, by simp⟩
  | cons head bugs ih =>
      obtain ⟨next, hnext, hrest⟩ := Option.bind_eq_some_iff.mp h
      obtain ⟨new, hnew, hmem⟩ := ih hrest
      have htail : ∀ bug, bug ∈ new ↔ ∃ before after mid last,
          head :: bugs = (head :: before) ++ bug :: after ∧
          repairBugs z k (head :: before) st = some mid ∧
          repairBug (z (k + (head :: before).length)) mid bug = some last ∧
          last.globals.fixedBugs = mid.globals.fixedBugs ++ [bug] := by
        intro bug
        rw [hmem bug]
        refine exists₄_congr fun before after mid last => ?_
        have hlength : k + (head :: before).length = k + 1 + before.length := by
          rw [List.length_cons]
          omega
        simp only [List.cons_append, List.cons.injEq, true_and, repairBugs, hnext,
          Option.bind_some, hlength]
      have hsplit : ∀ bug, (∃ before after mid last, head :: bugs = before ++ bug :: after ∧
          repairBugs z k before st = some mid ∧
          repairBug (z (k + before.length)) mid bug = some last ∧
          last.globals.fixedBugs = mid.globals.fixedBugs ++ [bug]) ↔
            (bug = head ∧ next.globals.fixedBugs = st.globals.fixedBugs ++ [head]) ∨ bug ∈ new := by
        intro bug
        rw [htail bug]
        constructor
        · rintro ⟨before, after, mid, last, heq, hmid, hlast, hfixed⟩
          cases before with
          | nil =>
              obtain ⟨rfl, rfl⟩ := List.cons.inj heq
              cases hmid
              rw [List.length_nil, Nat.add_zero, hnext] at hlast
              cases hlast
              exact .inl ⟨rfl, hfixed⟩
          | cons first before =>
              obtain ⟨rfl, -⟩ := List.cons.inj heq
              exact .inr ⟨before, after, mid, last, heq, hmid, hlast, hfixed⟩
        · rintro (⟨rfl, hfixed⟩ | ⟨before, after, mid, last, hall⟩)
          · exact ⟨[], bugs, st, next, rfl, rfl, hnext, hfixed⟩
          · exact ⟨head :: before, after, mid, last, hall⟩
      rcases repairBug_fixed hnext with hfixed | hfixed
      · refine ⟨new, by rw [hnew, hfixed], fun bug => ?_⟩
        rw [hsplit bug]
        refine ⟨.inr, fun h => h.resolve_left fun hhead => ?_⟩
        rw [hfixed] at hhead
        simpa using hhead.2
      · refine ⟨head :: new, by rw [hnew, hfixed]; simp, fun bug => ?_⟩
        rw [hsplit bug, List.mem_cons]
        simp [hfixed]

/-- Along a run without transactions: the state is consistent as long as no store has been sent to
`repairDURA` twice, and broken as soon as one has. -/
theorem repairBugs_dispatched (hst : Steady st) (hids : (st.thread.map Stmt.id).Nodup)
    (hlines : ∀ stmt ∈ st.thread, ∃ n, stmt.id = .line n) (hcons : st.constraints = [])
    (h : repairBugs z k bugs st = some st') :
    Steady st' ∧ Conserves st.thread st'.thread ∧
      ((∀ store ∈ st.thread, store.op = .store → (dispatched bugs).count store.id ≤ 1) →
        Consistent bugs st') ∧
      ∀ store ∈ st.thread, store.op = .store →
        (1 ≤ (dispatched bugs).count store.id → Broken st' ∨ Tied st' store.id) ∧
        (2 ≤ (dispatched bugs).count store.id → Broken st') := by
  refine repairBugs_invariant (P := fun seen now => Steady now ∧ Conserves st.thread now.thread ∧
      ((∀ store ∈ st.thread, store.op = .store → (dispatched seen).count store.id ≤ 1) →
        Consistent seen now) ∧
      ∀ store ∈ st.thread, store.op = .store →
        (1 ≤ (dispatched seen).count store.id → Broken now ∨ Tied now store.id) ∧
        (2 ≤ (dispatched seen).count store.id → Broken now)) ?_ ?_ h
  · refine ⟨hst, Conserves.refl _, fun _ => ⟨hids, ⟨[], ?_, by simp [hcons, adjacencies], by simp⟩,
      ?_, ?_⟩, ?_⟩
    · exact ⟨by simp, by simp, by simp, by simp⟩
    · intro stmt hstmt s k hid
      obtain ⟨n, hn⟩ := hlines stmt hstmt
      cases hn.symm.trans hid
    · intro stmt hstmt s k hid
      obtain ⟨n, hn⟩ := hlines stmt hstmt
      cases hn.symm.trans hid
    · simp [dispatched]
  · rintro seen bug j now next ⟨hsteady, hconserves, hgood, hbad⟩ hstep
    refine ⟨hsteady.step hstep, hconserves.trans (repairBug_conserves hstep), ?_, ?_⟩
    · intro hcount
      have hseen : Consistent seen now := by
        refine hgood fun store hstore hop => le_trans ?_ (hcount store hstore hop)
        rw [dispatched_append, List.count_append]
        exact Nat.le_add_right _ _
      rcases repairBug_cases hstep with ⟨hinf, rfl⟩ | ⟨hinf, a, b, out, -, hout, rfl⟩
      · refine hseen.dura hinf fun store hstore hop hid hmem => ?_
        have hle := hcount store ((hconserves.mem_store_iff hop).mp hstore) hop
        rw [dispatched_concat_of_mentionsInf hinf, List.count_append, hid] at hle
        have hone : 1 ≤ (dispatched seen).count bug.left := List.count_pos_iff.mpr hmem
        simp only [List.count_singleton_self] at hle
        omega
      · exact hseen.mpb hsteady hinf hout
    · intro store hstore hop
      obtain ⟨hone, htwo⟩ := hbad store hstore hop
      have hold : (1 ≤ (dispatched seen).count store.id → Broken next ∨ Tied next store.id) ∧
          (2 ≤ (dispatched seen).count store.id → Broken next) := by
        refine ⟨fun hcount => ?_, fun hcount => (htwo hcount).step hstep⟩
        rcases hone hcount with hbroken | htied
        · exact .inl (hbroken.step hstep)
        · exact htied.step hstep
      by_cases hinf : bug.mentionsInf = true ∧ bug.left = store.id
      · rcases repairBug_cases hstep with ⟨-, rfl⟩ | ⟨hnot, -⟩
        · obtain ⟨hfirst, hsecond⟩ := repairDURA_tied
            ((hconserves.mem_store_iff hop).mpr hstore) hop hinf.2.symm
          rw [hinf.2] at hfirst hsecond
          refine ⟨fun _ => hfirst, fun hcount => ?_⟩
          rw [dispatched_concat_of_mentionsInf hinf.1, List.count_append, hinf.2,
            List.count_singleton_self] at hcount
          rcases hone (by omega) with hbroken | htied
          · exact hbroken.step hstep
          · exact hsecond htied
        · rw [hinf.1] at hnot
          cases hnot
      · have hsame : (dispatched (seen ++ [bug])).count store.id =
            (dispatched seen).count store.id := by
          cases hmentions : bug.mentionsInf with
          | false => rw [dispatched_concat_of_not_mentionsInf hmentions]
          | true =>
              have hne : bug.left ≠ store.id := fun heq => hinf ⟨hmentions, heq⟩
              rw [dispatched_concat_of_mentionsInf hmentions, List.count_append,
                List.count_singleton, if_neg (by simpa using hne), Nat.add_zero]
        rw [hsame]
        exact hold

end List

/-! ### Texts without `9999` -/

/-- A bug between two lines without these digits is not taken for a DURA bug. -/
theorem mentionsInf_mpb {m n : Nat} (hm : ¬infText <:+: digits m) (hn : ¬infText <:+: digits n) :
    (Bug.mpb (.line m) (.line n)).mentionsInf = false := by
  rw [← Bool.not_eq_true, Bug.mentionsInf_mpb_iff, not_or]
  exact ⟨hm, hn⟩

section Recorded

variable {z : Nat → Solver Var} {g : Globals} {thread : Trace} {bugs : List Bug} {a b : Id}

theorem InOrder.mentionsInf
    (hlines : ∀ stmt ∈ thread, ∃ n, stmt.id = .line n ∧ ¬infText <:+: digits n)
    (horder : InOrder thread a b) : (Bug.mpb a b).mentionsInf = false := by
  obtain ⟨first, second, hbefore, -, rfl, -, rfl⟩ := horder
  obtain ⟨m, hm, hmInf⟩ := hlines first hbefore.mem.1
  obtain ⟨n, hn, hnInf⟩ := hlines second hbefore.mem.2
  rw [hm, hn]
  exact mentionsInf_mpb hmInf hnInf

theorem InOrder.steady (htx : TxFree thread) (horder : InOrder thread a b) (g : Globals) :
    Steady { thread := thread, constraints := [], globals := g } := by
  obtain ⟨first, second, hbefore, -⟩ := horder
  exact ⟨htx, List.ne_nil_of_mem hbefore.mem.1, by simp⟩

/-- The bug ends up among the newly fixed ones. -/
def Recorded (z : Nat → Solver Var) (g : Globals) (thread : Trace) (bugs : List Bug) (bug : Bug) :
    Prop :=
  ∃ st new, repairThread z g thread bugs (getTransactionConstraints thread) = some st ∧
    st.globals.fixedBugs = g.fixedBugs ++ new ∧ bug ∈ new

/-- No store of the thread has been sent to `repairDURA` twice when the bug comes up. -/
def InTime (thread : Trace) (bugs : List Bug) (bug : Bug) : Prop :=
  ∃ before after, bugs = before ++ bug :: after ∧
    ∀ store ∈ thread, store.op = .store → (dispatched before).count store.id ≤ 1

theorem Recorded.inTime (htx : TxFree thread) (hids : (thread.map Stmt.id).Nodup)
    (hlines : ∀ stmt ∈ thread, ∃ n, stmt.id = .line n ∧ ¬infText <:+: digits n)
    (horder : InOrder thread a b) (h : Recorded z g thread bugs (.mpb a b)) :
    InTime thread bugs (.mpb a b) := by
  obtain ⟨st, new, hrun, hnew, hbug⟩ := h
  rw [htx.getTransactionConstraints] at hrun
  obtain ⟨new', hnew', hmem⟩ := repairBugs_fixed hrun
  obtain rfl := List.append_cancel_left (hnew.symm.trans hnew')
  obtain ⟨before, after, mid, next, heq, hmid, hstep, hfixed⟩ := (hmem _).mp hbug
  refine ⟨before, after, heq, fun store hstore hop => ?_⟩
  by_contra hcount
  obtain ⟨-, -, -, hbad⟩ := repairBugs_dispatched (horder.steady htx g) hids
    (fun stmt hstmt => (hlines stmt hstmt).imp fun n hn => hn.1) rfl hmid
  have hbroken : Broken mid := (hbad store hstore hop).2 (by omega)
  rcases repairBug_cases hstep with ⟨hinf, -⟩ | ⟨-, a', b', out, hbug, hout, rfl⟩
  · rw [horder.mentionsInf hlines] at hinf
    cases hinf
  · simp [ThreadState.accept, hbroken.not_flag hout, (repairMPB_globals hout).2.2] at hfixed

theorem InTime.recorded (htx : TxFree thread) (hids : (thread.map Stmt.id).Nodup)
    (hlines : ∀ stmt ∈ thread, ∃ n, stmt.id = .line n ∧ ¬infText <:+: digits n)
    (horder : InOrder thread a b) (h : InTime thread bugs (.mpb a b)) :
    Recorded z g thread bugs (.mpb a b) := by
  obtain ⟨before, after, rfl, hcount⟩ := h
  have hsteady := horder.steady htx g
  obtain ⟨st, hrun⟩ := hsteady.exists_run (z := z) (k := 0) (before ++ .mpb a b :: after)
  obtain ⟨new, hnew, hmem⟩ := repairBugs_fixed hrun
  refine ⟨st, new, by rw [htx.getTransactionConstraints]; exact hrun, hnew, ?_⟩
  rw [repairBugs_append] at hrun
  obtain ⟨mid, hmid, hrest⟩ := Option.bind_eq_some_iff.mp hrun
  obtain ⟨next, hnext, -⟩ := Option.bind_eq_some_iff.mp hrest
  obtain ⟨hsteadyMid, hconserves, hgood, -⟩ := repairBugs_dispatched hsteady hids
    (fun stmt hstmt => (hlines stmt hstmt).imp fun n hn => hn.1) rfl hmid
  refine (hmem _).mpr ⟨before, after, mid, next, rfl, hmid, hnext, ?_⟩
  rcases repairBug_cases hnext with ⟨hinf, -⟩ | ⟨-, a', b', out, hbug, hout, rfl⟩
  · rw [horder.mentionsInf hlines] at hinf
    cases hinf
  · obtain ⟨rfl, rfl⟩ := Bug.mpb.inj hbug
    have hflag := (hgood hcount).flag hsteadyMid (hconserves.inOrder_iff.mpr horder) hout
    simp [ThreadState.accept, hflag, (repairMPB_globals hout).2.2]

end Recorded

/-- **Completeness of MPB repair.** On a thread without transactions whose numbers are different
lines without the digits `9999`, an MPB bug of the thread is recorded as fixed exactly when it
comes up before any store of the thread has been sent to `repairDURA` twice. -/
theorem repairThread_records_iff {z : Nat → Solver Var} {g : Globals} {thread : Trace}
    {bugs : List Bug} (htx : TxFree thread) (hids : (thread.map Stmt.id).Nodup)
    (hlines : ∀ stmt ∈ thread, ∃ n, stmt.id = .line n ∧ ¬infText <:+: digits n) {a b : Id}
    (horder : InOrder thread a b) :
    Recorded z g thread bugs (.mpb a b) ↔ InTime thread bugs (.mpb a b) :=
  ⟨Recorded.inTime htx hids hlines horder, InTime.recorded htx hids hlines horder⟩

/-- Two stores without a flush or a fence. -/
def twoStores : Trace :=
  [⟨.line 2, .store, "0x10", "-1", 0, "f_1"⟩, ⟨.line 3, .store, "0x20", "-1", 0, "f_2"⟩]

theorem twoStores_txFree : TxFree twoStores := by simp [TxFree, twoStores]

theorem twoStores_lines :
    ∀ stmt ∈ twoStores, ∃ n, stmt.id = .line n ∧ ¬infText <:+: digits n := by
  intro stmt hstmt
  simp only [twoStores, List.mem_cons, List.not_mem_nil, or_false] at hstmt
  rcases hstmt with rfl | rfl
  · exact ⟨2, rfl, by decide⟩
  · exact ⟨3, rfl, by decide⟩

theorem twoStores_inOrder : InOrder twoStores (.line 2) (.line 3) :=
  ⟨_, _, List.Sublist.refl _, rfl, rfl, rfl, rfl⟩

theorem repairThread_records_iff_single :
    InOrder twoStores (.line 2) (.line 3) ∧
      Recorded (fun _ => .classical) .start twoStores [.mpb (.line 2) (.line 3)]
        (.mpb (.line 2) (.line 3)) :=
  ⟨twoStores_inOrder, (repairThread_records_iff twoStores_txFree (by decide) twoStores_lines
    twoStores_inOrder).mpr ⟨[], [], rfl, by simp [dispatched]⟩⟩

/-- A DURA bug of the first store, an MPB bug that leads to line 99990 of another thread, and an
MPB bug of the two stores: the second bug is sent to `repairDURA`, and no solver repairs the
third. -/
def misdispatchedBugs : List Bug :=
  [.dura (.line 2), .mpb (.line 2) (.line 99990), .mpb (.line 2) (.line 3)]

theorem repairThread_misses_mpb :
    TxFree twoStores ∧ (twoStores.map Stmt.id).Nodup ∧
      (∀ stmt ∈ twoStores, ∃ n, stmt.id = .line n ∧ ¬infText <:+: digits n) ∧
      (∀ stmt ∈ twoStores, misdispatchedBugs.count (.dura stmt.id) ≤ 1) ∧
      InOrder twoStores (.line 2) (.line 3) ∧
      ∀ z, ¬Recorded z .start twoStores misdispatchedBugs (.mpb (.line 2) (.line 3)) := by
  refine ⟨twoStores_txFree, by decide, twoStores_lines, by decide, twoStores_inOrder,
    fun z h => ?_⟩
  obtain ⟨before, after, heq, hcount⟩ :=
    h.inTime twoStores_txFree (by decide) twoStores_lines twoStores_inOrder
  have hbefore : before = [.dura (.line 2), .mpb (.line 2) (.line 99990)] := by
    unfold misdispatchedBugs at heq
    match before with
    | [] => simp at heq
    | [_] => simp at heq
    | [x, y] =>
        simp only [List.cons_append, List.nil_append, List.cons.injEq] at heq
        rw [← heq.1, ← heq.2.1]
    | x :: y :: u :: rest => simp at heq
  have htwice := hcount ⟨.line 2, .store, "0x10", "-1", 0, "f_1"⟩ (by simp [twoStores]) rfl
  rw [hbefore] at htwice
  exact absurd htwice (by decide)

end PMBugRepair
