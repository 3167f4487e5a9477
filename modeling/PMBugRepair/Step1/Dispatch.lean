import PMBugRepair.Step1.MpbComplete

/-!
# Which bugs of a list get repaired

The text test `9999 in str(b)` sends a bug to `repairDURA` whenever one of its two numbers contains
these digits, not only when it is a DURA bug. A second call for the same store inserts a second
flush behind it, with the number of the first one or in its place, and from then on the constraints
of the thread have no solution. As long as this does not happen, every MPB bug of the thread is
repaired.
-/

namespace PMBugRepair

open Smt (Formula Term Model Solver Satisfies satisfies_append)
open Schedule (Before position before_cons_iff)

/-! ### One call of `repairDURA` -/

theorem exists_onlyStore {thread : Trace} (hids : (thread.map Stmt.id).Nodup) {store : Stmt}
    (hmem : store ∈ thread) (hop : store.op = .store) :
    ∃ pre post, OnlyStore thread pre store post := by
  obtain ⟨pre, post, rfl⟩ := List.append_of_mem hmem
  refine ⟨pre, post, rfl, hop, fun stmt hstmt _ heq => ?_⟩
  rw [List.map_append, List.map_cons, List.nodup_middle, List.nodup_cons] at hids
  refine hids.1 ?_
  rw [← heq, ← List.map_append]
  exact List.mem_map_of_mem hstmt

/-- What `repairDURA` does at its store: it ties a flush of the address to the store, one that was
there and unclaimed or a new one, and adds statements numbered `s_0`, `s_1`. -/
structure DuraSpec (g : Globals) (thread : Trace) (store flush : Stmt) (new : Trace)
    (out : Repair) : Prop where
  perm : out.thread.Perm (new ++ thread)
  ids : new.map Stmt.id = (List.range new.length).map (Id.inserted store.id)
  ops : ∀ stmt ∈ new, stmt.op = .flush ∨ stmt.op = .fence
  constraints : out.constraints = [adjacent store flush]
  claimed : out.globals.claimedFlushes = g.claimedFlushes ++ [flush.id]
  counter : out.globals.r = g.r
  op : flush.op = .flush
  addr : flush.addr = store.addr
  source : flush ∈ new ∨ (flush ∈ thread ∧ flush.id ∉ g.claimedFlushes)

theorem DuraSpec.flush_mem {g : Globals} {thread new : Trace} {store flush : Stmt} {out : Repair}
    (h : DuraSpec g thread store flush new out) : flush ∈ out.thread := by
  rw [h.perm.mem_iff, List.mem_append]
  exact h.source.imp_right And.left

theorem reusable_iff {claimed : List Id} {store flush : Stmt} :
    reusable claimed store flush = true → flush.op = .flush ∧ flush.addr = store.addr ∧
      flush.id ∉ claimed := by
  simp only [reusable, Bool.and_eq_true, Stmt.isFlush_iff, beq_iff_eq, Bool.not_eq_true',
    List.contains_eq_mem, decide_eq_false_iff_not]
  exact fun h => ⟨h.1.1.1, h.1.1.2.symm, h.1.2⟩

theorem provideFence_spec (st : DuraState) (length i : Nat) (store : Stmt) :
    (st.provideFence length i store).constraints = st.constraints ∧
      (st.provideFence length i store).globals.claimedFlushes = st.globals.claimedFlushes ∧
      (st.provideFence length i store).globals.r = st.globals.r ∧
      ((st.provideFence length i store).thread = st.thread ∨
        (st.provideFence length i store).thread =
          st.thread ++ [insertedStmt store (.inserted store.id st.r) .fence "0"]) := by
  unfold DuraState.provideFence
  split
  · exact ⟨rfl, rfl, rfl, .inl rfl⟩
  · exact ⟨rfl, rfl, rfl, .inr rfl⟩

theorem exists_duraSpec (g : Globals) {thread pre post : Trace} {store : Stmt}
    (honly : OnlyStore thread pre store post) (bug : Bug) (hbug : bug.left = store.id) :
    ∃ flush new, DuraSpec g thread store flush new (repairDURA g thread bug) := by
  rw [repairDURA_of_onlyStore g honly bug hbug]
  set st := ({ DuraState.init g thread with bugFlag := true }.provideFlush thread.length
    pre.length store) with hst
  obtain ⟨hcons, hclaimed, hr, hthread⟩ := provideFence_spec st thread.length pre.length store
  change (duraAt g thread pre store).constraints = _ at hcons
  change (duraAt g thread pre store).globals.claimedFlushes = _ at hclaimed
  change (duraAt g thread pre store).globals.r = _ at hr
  change (duraAt g thread pre store).thread = _ ∨ (duraAt g thread pre store).thread = _ at hthread
  unfold DuraState.provideFlush at hst
  split at hst
  · rename_i flush hfind
    have hmem : flush ∈ thread := List.mem_of_mem_take (List.mem_of_find?_eq_some hfind)
    obtain ⟨hop, haddr, hfree⟩ := reusable_iff (List.find?_some hfind)
    rw [hst] at hcons hclaimed hr hthread
    rcases hthread with hthread | hthread
    · exact ⟨flush, [], ⟨by rw [DuraState.toRepair, hthread]; rfl, rfl, by simp, hcons, hclaimed,
        hr, hop, haddr, .inr ⟨hmem, hfree⟩⟩⟩
    · refine ⟨flush, [insertedStmt store (.inserted store.id 0) .fence "0"],
        ⟨?_, rfl, by simp [insertedStmt], hcons, hclaimed, hr, hop, haddr, .inr ⟨hmem, hfree⟩⟩⟩
      rw [DuraState.toRepair, hthread]
      exact List.perm_append_comm
  · rw [hst] at hcons hclaimed hr hthread
    set flush := insertedStmt store (.inserted store.id 0) .flush store.addr with hflush
    have hinsert : thread.insertIdx (pre.length + 1) flush = pre ++ store :: flush :: post := by
      rw [honly.eq, insertIdx_behind]
    simp only [DuraState.init, ← hflush, hinsert] at hthread
    have hmiddle : (pre ++ store :: flush :: post).Perm (flush :: thread) := by
      rw [honly.eq]
      simpa using @List.perm_middle _ flush (pre ++ [store]) post
    rcases hthread with hthread | hthread
    · refine ⟨flush, [flush], ⟨?_, rfl, by simp [hflush, insertedStmt], hcons, hclaimed, hr, rfl,
        rfl, .inl (by simp)⟩⟩
      rw [DuraState.toRepair, hthread]
      exact hmiddle
    · refine ⟨flush, [flush, insertedStmt store (.inserted store.id 1) .fence "0"],
        ⟨?_, rfl, by simp [hflush, insertedStmt], hcons, hclaimed, hr, rfl, rfl, .inl (by simp)⟩⟩
      rw [DuraState.toRepair, hthread]
      refine List.perm_append_comm.trans ?_
      exact (hmiddle.cons _).trans (List.Perm.swap _ _ _)

theorem step_fixedBugs (target : Id) (length : Nat) (st : DuraState) (i : Nat) :
    (st.step target length i).globals.fixedBugs = st.globals.fixedBugs := by
  unfold DuraState.step
  split
  · rfl
  · split
    · unfold DuraState.provideFence DuraState.provideFlush
      split <;> split <;> rfl
    · rfl

theorem repairDURA_fixedBugs (g : Globals) (thread : Trace) (bug : Bug) :
    (repairDURA g thread bug).globals.fixedBugs = g.fixedBugs := by
  have hfold : ∀ (indices : List Nat) (st : DuraState),
      (indices.foldl (DuraState.step bug.left thread.length) st).globals.fixedBugs =
        st.globals.fixedBugs := by
    intro indices
    induction indices with
    | nil => exact fun st => rfl
    | cons i indices ih =>
        intro st
        rw [List.foldl_cons, ih, step_fixedBugs]
  exact hfold _ (.init g thread)

/-! ### One call of `repairMPB` on a thread without transactions -/

theorem Conserves.txFree {thread thread' : Trace} (h : Conserves thread thread')
    (htx : TxFree thread) : TxFree thread' := by
  intro stmt hstmt
  obtain ⟨ins, hperm, hins⟩ := h.perm
  rcases List.mem_append.mp (hperm.mem_iff.mp hstmt) with hold | hnew
  · exact htx stmt hold
  · rcases (hins stmt hnew).1 with hop | hop <;> simp [hop]

theorem TxFree.transactionConstraints {thread : Trace} (h : TxFree thread) :
    transactionConstraints thread = some [] := by
  have hnone : (thread.zipIdx.filter fun entry => entry.1.op == .txBegin) = [] := by
    rw [List.filter_eq_nil_iff]
    intro entry hentry
    simpa using (h entry.1 (List.fst_mem_of_mem_zipIdx hentry)).1
  simp [PMBugRepair.transactionConstraints, hnone]

section Call

variable {a b : Id} {thread : Trace}

theorem mpbFences_ids (r : Nat) : (mpbFences a b thread r).2.map Stmt.id =
    (List.range' r (mpbFences a b thread r).2.length).map (Id.insertedFence a) := by
  induction thread generalizing r with
  | nil => rfl
  | cons stmt rest ih =>
      rw [mpbFences]
      split
      · rename_i hmatch
        split
        · split
          · simp only [List.map_cons, List.length_cons, List.range'_succ, ih (r + 1)]
            rw [← hmatch.2]
            rfl
          · exact ih r
        · exact ih r
      · exact ih r

/-- Behind the two stores of the bug stands a fence, at the latest the appended one. -/
theorem exists_fence_behind (r : Nat) (h : InOrder thread a b) :
    ∃ first second fence : Stmt,
      [first, second, fence].Sublist (thread ++ (mpbFences a b thread r).2) ∧
      first.op = .store ∧ first.id = a ∧ second.op = .store ∧ second.id = b ∧
      fence.op = .fence := by
  induction thread generalizing r with
  | nil =>
      obtain ⟨first, second, hbefore, -⟩ := h
      simp [Before] at hbefore
  | cons stmt rest ih =>
      have hskip : ∀ r', (mpbFences a b (stmt :: rest) r).2 = (mpbFences a b rest r').2 →
          InOrder rest a b → ∃ first second fence : Stmt,
            [first, second, fence].Sublist (stmt :: rest ++ (mpbFences a b (stmt :: rest) r).2) ∧
            first.op = .store ∧ first.id = a ∧ second.op = .store ∧ second.id = b ∧
            fence.op = .fence := by
        intro r' heq horder
        obtain ⟨first, second, fence, hsub, hrest⟩ := ih r' horder
        rw [heq]
        exact ⟨first, second, fence, hsub.cons stmt, hrest⟩
      obtain ⟨first, second, hbefore, hfirst, ha, hsecond, hb⟩ := h
      by_cases hmatch : stmt.op = .store ∧ stmt.id = a
      · cases htail : behindStore b rest with
        | none =>
            -- no store `b` behind this one, so the pair cannot start here or later
            have hmem : second ∈ rest := by
              rcases before_cons_iff.mp hbefore with ⟨-, hmem⟩ | hbefore
              · exact hmem
              · exact hbefore.mem.2
            exact absurd ⟨hsecond, hb⟩ (behindStore_eq_none htail second hmem)
        | some tail =>
            obtain ⟨pre, store, rfl, hstore, hstoreId⟩ := behindStore_eq_some htail
            have hsub : ∀ {fence : Stmt} {tail' : Trace}, fence ∈ tail' →
                [stmt, store, fence].Sublist (stmt :: (pre ++ store :: tail')) := by
              intro fence tail' hfence
              exact (((List.singleton_sublist.mpr hfence).cons_cons store).trans
                (List.sublist_append_right pre _)).cons_cons stmt
            by_cases hcount : tail.countP Stmt.isFence < 2
            · have hlast : (mpbFences a b (stmt :: (pre ++ store :: tail)) r).2 =
                  insertedStmt stmt (.insertedFence stmt.id r) .fence "0" ::
                    (mpbFences a b (pre ++ store :: tail) (r + 1)).2 := by
                simp [mpbFences, hmatch, htail, hcount]
              refine ⟨stmt, store, insertedStmt stmt (.insertedFence stmt.id r) .fence "0", ?_,
                hmatch.1, hmatch.2, hstore, hstoreId, rfl⟩
              rw [hlast]
              simp
            · obtain ⟨fence, hfence, hop⟩ : ∃ fence ∈ tail, Stmt.isFence fence = true := by
                by_contra hnone
                refine hcount ?_
                have hzero : tail.countP Stmt.isFence = 0 :=
                  List.countP_eq_zero.mpr fun x hx hop => hnone ⟨x, hx, hop⟩
                omega
              refine ⟨stmt, store, fence, ?_, hmatch.1, hmatch.2, hstore, hstoreId,
                by simpa using hop⟩
              exact (hsub hfence).trans (List.sublist_append_left _ _)
      · have heq : (mpbFences a b (stmt :: rest) r).2 = (mpbFences a b rest r).2 := by
          simp [mpbFences, hmatch]
        refine hskip r heq ⟨first, second, ?_, hfirst, ha, hsecond, hb⟩
        refine (before_cons_iff.mp hbefore).resolve_left fun hhead => ?_
        exact hmatch (hhead.1 ▸ ⟨hfirst, ha⟩)

variable {z : Solver Var} {g : Globals} {previous : List (Formula Var)} {out : Repair}

/-- The globals `repairMPB` leaves behind, apart from its counters of fences and solver calls. -/
theorem repairMPB_globals (h : repairMPB z g thread a b previous = some out) :
    out.globals.r = g.r + (mpbFences a b thread g.r).2.length ∧
      out.globals.claimedFlushes = g.claimedFlushes ∧ out.globals.fixedBugs = g.fixedBugs := by
  simp only [repairMPB, Option.bind_eq_bind, Option.bind_eq_some_iff] at h
  obtain ⟨transact, -, h⟩ := h
  split at h
  · cases h
  · split at h
    · cases h
      exact ⟨rfl, rfl, rfl⟩
    · simp only [solveMPB, Option.bind_eq_bind, Option.bind_eq_some_iff, Option.pure_def] at h
      obtain ⟨sais, -, h⟩ := h
      split at h
      · cases h
        exact ⟨rfl, rfl, rfl⟩
      · split at h
        · cases h
          exact ⟨rfl, rfl, rfl⟩
        · obtain ⟨printed, -, h⟩ := Option.bind_eq_some_iff.mp h
          cases h
          exact ⟨rfl, rfl, rfl⟩

theorem TxFree.fencedThread (htx : TxFree thread) (g : Globals) (a b : Id) :
    TxFree (fencedThread g thread a b) :=
  (mpbFences_conserves g.r).txFree htx

theorem repairMPB_constraints (htx : TxFree thread)
    (h : repairMPB z g thread a b previous = some out) : out.constraints = [] := by
  have hcons := (repairMPB_cases h).1
  rw [(htx.fencedThread g a b).transactionConstraints] at hcons
  exact (Option.some.inj hcons).symm

/-- Without transactions and with constraints about known places, `repairMPB` returns. -/
theorem exists_repairMPB (htx : TxFree thread) (hne : thread ≠ [])
    (hprevious : ∀ φ ∈ previous, KnownPlaces thread φ) :
    ∃ out, repairMPB z g thread a b previous = some out := by
  have hcons : transactionConstraints (thread ++ (mpbFences a b thread g.r).2) = some [] :=
    (htx.fencedThread g a b).transactionConstraints
  simp only [repairMPB, hcons, Option.bind_eq_bind, Option.bind_some]
  rw [if_neg (by simp [hne])]
  split
  · exact ⟨_, rfl⟩
  · refine exists_solveMPB (fun φ hφ => ?_) (by simp)
    exact (hprevious φ hφ).mono (List.subset_append_left _ _)

/-- When a call raises the flag: the stores stand in order, the bug can happen, and it can be
avoided. -/
theorem repairMPB_flag_iff (h : repairMPB z g thread a b previous = some out) :
    out.bugFlag = true ↔ InOrder thread a b ∧
      (∃ τ, Happens (fencedThread g thread a b) a b previous out.constraints τ) ∧
      ∃ σ, Avoids (fencedThread g thread a b) a b previous out.constraints σ := by
  have hconstraints := (repairMPB_cases h).1
  simp only [repairMPB, Option.bind_eq_bind, Option.bind_eq_some_iff] at h
  obtain ⟨transact, htransact, h⟩ := h
  obtain rfl := Option.some.inj (hconstraints.symm.trans htransact)
  split at h
  · cases h
  · split at h
    · rename_i hfound
      have hout : out.bugFlag = false := (congrArg Repair.bugFlag (Option.some.inj h)).symm
      have hmissing : ¬InOrder thread a b := by
        rw [← mpbFences_found g.r]
        simpa using hfound
      simp [hout, hmissing]
    · rename_i hfound
      have horder : InOrder thread a b := (mpbFences_found g.r).mp (by simpa using hfound)
      obtain ⟨first, second, fence, hsub, hfirst, ha, hsecond, hb, hfence⟩ :=
        exists_fence_behind g.r horder
      obtain ⟨hblock, -⟩ := mem_blocking_of_sublist hsub hfirst ha hsecond hb hfence
      rw [solveMPB_flag_iff (List.ne_nil_of_mem hblock) h]
      exact (and_iff_right horder).symm

/-- **Completeness of MPB repair**, for one call: different numbers, consistent flush equations and
no transaction. -/
theorem repairMPB_flag {pairs : List (Stmt × Stmt)} (htx : TxFree thread)
    (hids : ((fencedThread g thread a b).map Stmt.id).Nodup) (hpaired : Paired thread pairs)
    (horder : InOrder thread a b)
    (h : repairMPB z g thread a b (adjacencies pairs) = some out) : out.bugFlag = true := by
  have hcons : transactionConstraints (thread ++ (mpbFences a b thread g.r).2) = some [] :=
    (htx.fencedThread g a b).transactionConstraints
  have hfound : (mpbFences a b thread g.r).1 = true := (mpbFences_found g.r).mpr horder
  obtain ⟨first, second, fence, hsub, hfirst, ha, hsecond, hb, hfence⟩ :=
    exists_fence_behind g.r horder
  have hpaired' : Paired (fencedThread g thread a b) pairs :=
    ⟨fun pair hpair => ⟨List.mem_append_left _ (hpaired.store pair hpair).1,
        (hpaired.store pair hpair).2⟩,
      fun pair hpair => ⟨List.mem_append_left _ (hpaired.flush pair hpair).1,
        (hpaired.flush pair hpair).2⟩, hpaired.stores_nodup, hpaired.flushes_nodup⟩
  simp only [repairMPB, hcons, hfound, Option.bind_eq_bind, Option.bind_some] at h
  split at h
  · cases h
  · exact solveMPB_flag hids hpaired' hsub hfirst ha hsecond hb hfence h

end Call

theorem repairMPB_sound_pair :
    ∃ out, repairMPB .classical .start
        [⟨.line 2, .store, "0x10", "-1", 0, "f_1"⟩, ⟨.line 3, .store, "0x20", "-1", 0, "f_2"⟩]
        (.line 2) (.line 3) [] = some out ∧ out.bugFlag = true ∧
      position out.thread ⟨.line 2, .store, "0x10", "-1", 0, "f_1"⟩ <
        position out.thread ⟨.line 3, .store, "0x20", "-1", 0, "f_2"⟩ := by
  set thread : Trace :=
    [⟨.line 2, .store, "0x10", "-1", 0, "f_1"⟩, ⟨.line 3, .store, "0x20", "-1", 0, "f_2"⟩]
    with hthread
  have htx : TxFree thread := by simp [TxFree, hthread]
  have horder : InOrder thread (.line 2) (.line 3) :=
    ⟨_, _, List.Sublist.refl _, rfl, rfl, rfl, rfl⟩
  obtain ⟨out, hout⟩ := @exists_repairMPB (.line 2) (.line 3) thread .classical .start [] htx
    (by simp [hthread]) (by simp)
  have hflag := repairMPB_flag htx (by decide) (.nil thread) horder hout
  obtain ⟨-, ⟨hdown, -⟩ | ⟨-, -, m, hsolved⟩⟩ := repairMPB_cases hout
  · rw [hflag] at hdown
    cases hdown
  have hids : (out.thread.map Stmt.id).Nodup :=
    (hsolved.perm.map Stmt.id).nodup_iff.mpr hsolved.placement.ids_nodup
  have hsub : thread ⊆ out.thread := fun stmt hstmt =>
    hsolved.perm.mem_iff.mpr (List.mem_append_left _ hstmt)
  set σ := timesOf out.thread out.thread (persistAtOnce out.thread out.thread) with hσ
  have hplace {stmt : Stmt} (hstmt : stmt ∈ out.thread) :
      σ (.pc stmt.id) = position out.thread stmt := timesOf_pc _ _ hids hstmt
  have hpersist {stmt : Stmt} (hstmt : stmt ∈ out.thread) :
      σ (.pt stmt.id) = position out.thread stmt := persistAtOnce_eq _ hids hstmt
  have hlt := repairMPB_sound hout hflag σ (fun stmt hstmt => hplace hstmt)
    (fun stmt hstmt _ => by rw [hplace hstmt, hpersist hstmt])
    (fun store fence hbefore _ _ _ => by
      rw [hpersist hbefore.mem.1, hplace hbefore.mem.2]
      exact (hbefore.position_lt hids.of_map).le)
    Smt.satisfies_nil
  have hfirst := hpersist (hsub (show thread[0] ∈ thread from List.getElem_mem _))
  have hsecond := hpersist (hsub (show thread[1] ∈ thread from List.getElem_mem _))
  refine ⟨out, hout, hflag, ?_⟩
  change _ = position out.thread ⟨.line 2, .store, "0x10", "-1", 0, "f_1"⟩ at hfirst
  change _ = position out.thread ⟨.line 3, .store, "0x20", "-1", 0, "f_2"⟩ at hsecond
  rw [← hfirst, ← hsecond]
  exact hlt

end PMBugRepair
