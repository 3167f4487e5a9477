import PMBugRepair.Step1.Basic

/-!
# `repairDURA`

The pass walks over the thread by index while it inserts into it. At the store of the bug it claims
the first unclaimed flush of the same address it finds anywhere in the thread, or inserts one
behind the store; then it looks for a fence behind the *store* and appends one if there is none.
-/

namespace PMBugRepair

open Smt (Formula)

/-- A flush the store may reuse: same address, not claimed yet, and in the same function or in a
scope without an underscore. -/
def reusable (claimed : List Id) (store flush : Stmt) : Bool :=
  flush.isFlush && store.addr == flush.addr && !claimed.contains flush.id &&
    ((scopeParts store.scope).head? == (scopeParts flush.scope).head? ||
      !flush.scope.toList.contains '_')

/-- The variables of one call: `r` is local to `repairDURA`. -/
structure DuraState where
  thread : Trace
  constraints : List (Formula Var)
  bugFlag : Bool
  r : Nat
  globals : Globals

/-- Lines 122-149: claim a flush or insert one at `i + 1`. -/
def DuraState.provideFlush (st : DuraState) (length i : Nat) (store : Stmt) : DuraState :=
  match (st.thread.take length).find? (reusable st.globals.claimedFlushes store) with
  | some flush =>
      { st with
        constraints := st.constraints ++ [adjacent store flush]
        globals := { st.globals with
          claimedFlushes := st.globals.claimedFlushes ++ [flush.id] } }
  | none =>
      let flush := insertedStmt store (.inserted store.id st.r) .flush store.addr
      { st with
        thread := st.thread.insertIdx (i + 1) flush
        constraints := st.constraints ++ [adjacent store flush]
        r := st.r + 1
        globals := { st.globals with
          numFlush := st.globals.numFlush + 1
          claimedFlushes := st.globals.claimedFlushes ++ [flush.id] } }

/-- Lines 151-165: append a fence unless one lies in `thread[i+1:length]`. -/
def DuraState.provideFence (st : DuraState) (length i : Nat) (store : Stmt) : DuraState :=
  if ((st.thread.take length).drop (i + 1)).any Stmt.isFence then st
  else
    { st with
      thread := st.thread ++ [insertedStmt store (.inserted store.id st.r) .fence "0"]
      r := st.r + 1
      globals := { st.globals with numFence := st.globals.numFence + 1 } }

def DuraState.step (target : Id) (length : Nat) (st : DuraState) (i : Nat) : DuraState :=
  match st.thread[i]? with
  | none => st
  | some stmt =>
      if stmt.op = .store ∧ stmt.id = target then
        ({ st with bugFlag := true }.provideFlush length i stmt).provideFence length i stmt
      else st

def DuraState.init (g : Globals) (thread : Trace) : DuraState :=
  { thread := thread, constraints := [], bugFlag := false, r := 0, globals := g }

def DuraState.toRepair (st : DuraState) : Repair :=
  { thread := st.thread, constraints := st.constraints, bugFlag := st.bugFlag,
    globals := st.globals }

def repairDURA (g : Globals) (thread : Trace) (bug : Bug) : Repair :=
  ((List.range thread.length).foldl (DuraState.step bug.left thread.length)
    (.init g thread)).toRepair

/-! ### The call as a whole -/

theorem insertIdx_behind (pre post : Trace) (stmt new : Stmt) :
    (pre ++ stmt :: post).insertIdx (pre.length + 1) new = pre ++ stmt :: new :: post := by
  induction pre with
  | nil => simp
  | cons head pre ih => simpa using ih

section Step

variable (target : Id) (length : Nat) {st : DuraState} {store : Stmt}

theorem provideFlush_conserves {i : Nat} {pre post : Trace}
    (hthread : st.thread = pre ++ store :: post) (hi : i = pre.length) (hop : store.op = .store) :
    Conserves st.thread (st.provideFlush length i store).thread ∧
      st.thread.Sublist (st.provideFlush length i store).thread ∧
      ∃ post', (st.provideFlush length i store).thread = pre ++ store :: post' ∧
        ∀ stmt ∈ post', stmt ∈ post ∨ stmt.op = .flush := by
  unfold DuraState.provideFlush
  split
  · exact ⟨Conserves.refl _, List.Sublist.refl _, post, hthread, fun _ h => .inl h⟩
  · subst hi
    simp only [hthread, insertIdx_behind]
    refine ⟨?_, ?_, _, rfl, ?_⟩
    · have hins := Conserves.of_insert (pre ++ [store])
        [insertedStmt store (.inserted store.id st.r) .flush store.addr] post (by
          intro stmt hstmt
          rw [List.mem_singleton] at hstmt
          subst hstmt
          exact ⟨.inl rfl, store, by simp, hop, st.r, .inl rfl⟩)
      simpa using hins
    · exact ((List.sublist_cons_self _ post).cons_cons store).append_left pre
    · intro stmt hstmt
      rcases List.mem_cons.mp hstmt with rfl | hstmt
      · exact .inr rfl
      · exact .inl hstmt

theorem provideFence_conserves (i : Nat) {pre post : Trace}
    (hthread : st.thread = pre ++ store :: post) (hop : store.op = .store) :
    Conserves st.thread (st.provideFence length i store).thread ∧
      st.thread.Sublist (st.provideFence length i store).thread ∧
      ∃ post', (st.provideFence length i store).thread = pre ++ store :: post' ∧
        ∀ stmt ∈ post', stmt ∈ post ∨ stmt.op = .fence := by
  unfold DuraState.provideFence
  split
  · exact ⟨Conserves.refl _, List.Sublist.refl _, post, hthread, fun _ h => .inl h⟩
  · simp only [hthread]
    refine ⟨?_, List.sublist_append_left _ _, _, by simp; rfl, ?_⟩
    · have hins := Conserves.of_insert (pre ++ store :: post)
        [insertedStmt store (.inserted store.id st.r) .fence "0"] [] (by
          intro stmt hstmt
          rw [List.mem_singleton] at hstmt
          subst hstmt
          exact ⟨.inr rfl, store, by simp, hop, st.r, .inl rfl⟩)
      simpa using hins
    · intro stmt hstmt
      rcases List.mem_append.mp hstmt with hstmt | hstmt
      · exact .inl hstmt
      · rw [List.mem_singleton] at hstmt
        subst hstmt
        exact .inr rfl

theorem step_conserves (st : DuraState) (i : Nat) :
    Conserves st.thread (st.step target length i).thread ∧
      st.thread.Sublist (st.step target length i).thread := by
  unfold DuraState.step
  cases hget : st.thread[i]? with
  | none => exact ⟨Conserves.refl _, List.Sublist.refl _⟩
  | some stmt =>
      simp only
      split
      · rename_i hmatch
        obtain ⟨hlt, rfl⟩ := List.getElem?_eq_some_iff.mp hget
        have hthread : st.thread = st.thread.take i ++ st.thread[i] :: st.thread.drop (i + 1) := by
          simp
        have hi : i = (st.thread.take i).length := by simp; omega
        obtain ⟨hflush, hsubFlush, post', hpost', -⟩ :=
          provideFlush_conserves length (show { st with bugFlag := true }.thread = _ from hthread)
            hi hmatch.1
        obtain ⟨hfence, hsubFence, -⟩ :=
          provideFence_conserves length i hpost' hmatch.1
        exact ⟨hflush.trans hfence, hsubFlush.trans hsubFence⟩
      · exact ⟨Conserves.refl _, List.Sublist.refl _⟩

theorem foldl_step_conserves (indices : List Nat) (st : DuraState) :
    Conserves st.thread (indices.foldl (DuraState.step target length) st).thread ∧
      st.thread.Sublist (indices.foldl (DuraState.step target length) st).thread := by
  induction indices generalizing st with
  | nil => exact ⟨Conserves.refl _, List.Sublist.refl _⟩
  | cons i indices ih =>
      have hstep := step_conserves target length st i
      have hrest := ih (st.step target length i)
      exact ⟨hstep.1.trans hrest.1, hstep.2.trans hrest.2⟩

theorem foldl_step_eq_self (indices : List Nat)
    (hskip : ∀ i ∈ indices, st.step target length i = st) :
    indices.foldl (DuraState.step target length) st = st := by
  induction indices with
  | nil => rfl
  | cons i indices ih =>
      rw [List.foldl_cons, hskip i List.mem_cons_self]
      exact ih fun j hj => hskip j (List.mem_cons_of_mem i hj)

end Step

theorem repairDURA_conserves (g : Globals) (thread : Trace) (bug : Bug) :
    Conserves thread (repairDURA g thread bug).thread ∧
      thread.Sublist (repairDURA g thread bug).thread :=
  foldl_step_conserves bug.left thread.length _ (.init g thread)

/-- The store of the bug, and no other store carries its number. -/
structure OnlyStore (thread pre : Trace) (store : Stmt) (post : Trace) : Prop where
  eq : thread = pre ++ store :: post
  op : store.op = .store
  unique : ∀ stmt ∈ pre ++ post, stmt.op = .store → stmt.id ≠ store.id

theorem repairDURA_of_absent (g : Globals) (thread : Trace) (bug : Bug)
    (habsent : ∀ stmt ∈ thread, stmt.op = .store → stmt.id ≠ bug.left) :
    repairDURA g thread bug = (DuraState.init g thread).toRepair := by
  unfold repairDURA
  rw [foldl_step_eq_self]
  intro i _
  unfold DuraState.step
  cases hget : thread[i]? with
  | none => simp only [DuraState.init, hget]
  | some stmt =>
      have hmem := List.mem_of_getElem? hget
      simp only [DuraState.init, hget]
      rw [if_neg fun hmatch => habsent stmt hmem hmatch.1 hmatch.2]

/-! ### The flag -/

theorem provideFlush_bugFlag (st : DuraState) (length i : Nat) (store : Stmt) :
    (st.provideFlush length i store).bugFlag = st.bugFlag := by
  unfold DuraState.provideFlush
  split <;> rfl

theorem provideFence_bugFlag (st : DuraState) (length i : Nat) (store : Stmt) :
    (st.provideFence length i store).bugFlag = st.bugFlag := by
  unfold DuraState.provideFence
  split <;> rfl

theorem step_bugFlag (target : Id) (length : Nat) (st : DuraState) (i : Nat) :
    (st.step target length i).bugFlag = true ↔ st.bugFlag = true ∨
      ∃ stmt, st.thread[i]? = some stmt ∧ stmt.op = .store ∧ stmt.id = target := by
  unfold DuraState.step
  cases hget : st.thread[i]? with
  | none => simp
  | some stmt =>
      simp only [Option.some.injEq, exists_eq_left']
      split
      · rename_i hmatch
        rw [provideFence_bugFlag, provideFlush_bugFlag]
        simp [hmatch]
      · rename_i hmatch
        simp [hmatch]

/-- Up to the first store of the bug nothing changes, and at that store the flag is raised. -/
theorem foldl_range_step (g : Globals) (thread : Trace) (target : Id) (length n : Nat) :
    ((List.range n).foldl (DuraState.step target length) (.init g thread)).bugFlag = true ∨
      ((List.range n).foldl (DuraState.step target length) (.init g thread) = .init g thread ∧
        ∀ i < n, ∀ stmt, thread[i]? = some stmt → stmt.op = .store → stmt.id ≠ target) := by
  induction n with
  | zero => exact .inr ⟨rfl, by simp⟩
  | succ n ih =>
      rw [List.range_succ, List.foldl_append, List.foldl_cons, List.foldl_nil, step_bugFlag]
      rcases ih with hflag | ⟨hinit, habsent⟩
      · exact .inl (.inl hflag)
      · by_cases hmatch : ∃ stmt, thread[n]? = some stmt ∧ stmt.op = .store ∧ stmt.id = target
        · exact .inl (.inr (by rwa [hinit]))
        · refine .inr ⟨?_, fun i hi stmt hget hop hid => ?_⟩
          · rw [hinit]
            unfold DuraState.step
            cases hget : thread[n]? with
            | none => simp only [DuraState.init, hget]
            | some stmt =>
                simp only [DuraState.init, hget]
                exact if_neg fun h => hmatch ⟨stmt, hget, h⟩
          · rcases Nat.lt_succ_iff_lt_or_eq.mp hi with hlt | rfl
            · exact habsent i hlt stmt hget hop hid
            · exact hmatch ⟨stmt, hget, hop, hid⟩

/-- The flag tells whether the thread has the store of the bug. -/
theorem repairDURA_flag_iff (g : Globals) (thread : Trace) (bug : Bug) :
    (repairDURA g thread bug).bugFlag = true ↔
      ∃ store ∈ thread, store.op = .store ∧ store.id = bug.left := by
  constructor
  · intro hflag
    by_contra hnone
    rw [repairDURA_of_absent g thread bug fun stmt hmem hop hid => hnone ⟨stmt, hmem, hop, hid⟩]
      at hflag
    cases hflag
  · rintro ⟨store, hmem, hop, hid⟩
    refine (foldl_range_step g thread bug.left thread.length thread.length).resolve_right ?_
    rintro ⟨-, habsent⟩
    obtain ⟨i, hi, hget⟩ := List.getElem_of_mem hmem
    exact habsent i hi store (List.getElem?_eq_some_iff.mpr ⟨hi, hget⟩) hop hid

/-! ### The store of the bug -/

/-- The state of the call when it has treated the store of the bug, which is also its last. -/
def duraAt (g : Globals) (thread pre : Trace) (store : Stmt) : DuraState :=
  ({ DuraState.init g thread with bugFlag := true }.provideFlush thread.length pre.length
    store).provideFence thread.length pre.length store

theorem repairDURA_of_onlyStore (g : Globals) {thread pre post : Trace} {store : Stmt}
    (honly : OnlyStore thread pre store post) (bug : Bug) (hbug : bug.left = store.id) :
    repairDURA g thread bug = (duraAt g thread pre store).toRepair := by
  obtain ⟨rfl, hop, hunique⟩ := honly
  set thread := pre ++ store :: post with hthread
  have hindices : List.range thread.length =
      List.range' 0 pre.length ++ pre.length :: List.range' (pre.length + 1) post.length := by
    rw [← List.range'_succ, List.range_eq_range', hthread, List.length_append, List.length_cons]
    simpa using (@List.range'_append 0 pre.length (post.length + 1) 1).symm
  have hbefore : (List.range' 0 pre.length).foldl (DuraState.step bug.left thread.length)
      (.init g thread) = .init g thread := by
    refine foldl_step_eq_self _ _ _ fun i hi => ?_
    have hlt : i < pre.length := by simpa using (List.mem_range'_1.mp hi).2
    have hget : (DuraState.init g thread).thread[i]? = some pre[i] := by
      simp [DuraState.init, hthread, List.getElem?_append_left hlt]
    simp only [DuraState.step, hget]
    rw [if_neg]
    rintro ⟨hstore, hid⟩
    exact hunique _ (List.mem_append_left _ (List.getElem_mem hlt)) hstore (hid.trans hbug)
  have hat : (DuraState.init g thread).step bug.left thread.length pre.length =
      duraAt g thread pre store := by
    have hget : (DuraState.init g thread).thread[pre.length]? = some store := by
      simp [DuraState.init, hthread]
    simp only [DuraState.step, hget, hop, hbug, and_self, if_true]
    rfl
  have hafter : (List.range' (pre.length + 1) post.length).foldl
      (DuraState.step bug.left thread.length) (duraAt g thread pre store) =
        duraAt g thread pre store := by
    obtain ⟨-, -, postFlush, hflush, hmemFlush⟩ := provideFlush_conserves thread.length
      (show { DuraState.init g thread with bugFlag := true }.thread = pre ++ store :: post from rfl)
      rfl hop
    obtain ⟨-, -, postFence, hfence, hmemFence⟩ := provideFence_conserves thread.length pre.length
      hflush hop
    refine foldl_step_eq_self _ _ _ fun i hi => ?_
    have hlt : pre.length < i := (List.mem_range'_1.mp hi).1
    unfold DuraState.step
    cases hget : (duraAt g thread pre store).thread[i]? with
    | none => rfl
    | some stmt =>
        have hmem : stmt ∈ postFence := by
          have heq : (duraAt g thread pre store).thread = pre ++ store :: postFence := hfence
          rw [heq, List.getElem?_append_right hlt.le,
            show i - pre.length = (i - pre.length - 1) + 1 by omega,
            List.getElem?_cons_succ] at hget
          exact List.mem_of_getElem? hget
        simp only
        rw [if_neg]
        rintro ⟨hstore, hid⟩
        rcases hmemFence stmt hmem with hmem | hfenceOp
        · rcases hmemFlush stmt hmem with hmem | hflushOp
          · exact hunique _ (List.mem_append_right _ hmem) hstore (hid.trans hbug)
          · rw [hstore] at hflushOp
            cases hflushOp
        · rw [hstore] at hfenceOp
          cases hfenceOp
  rw [repairDURA, hindices, List.foldl_append, hbefore, List.foldl_cons, hat, hafter]

/-! ### What the repaired thread looks like -/

section Result

variable (g : Globals) {thread pre post : Trace} {store : Stmt}

theorem duraAt_thread_of_reuse (honly : OnlyStore thread pre store post)
    (hreuse : ∃ flush ∈ thread, reusable g.claimedFlushes store flush = true) :
    (duraAt g thread pre store).thread =
      pre ++ store :: (post ++ if post.any Stmt.isFence then []
        else [insertedStmt store (.inserted store.id 0) .fence "0"]) := by
  obtain ⟨rfl, -, -⟩ := honly
  obtain ⟨flush, hfind⟩ := Option.isSome_iff_exists.mp (List.find?_isSome.mpr hreuse)
  have htake : (pre ++ store :: post).take (pre ++ store :: post).length = pre ++ store :: post :=
    List.take_length
  have hbehind : (pre ++ store :: post).drop (pre.length + 1) = post := by simp
  simp only [duraAt, DuraState.provideFlush, DuraState.init, htake, hfind,
    DuraState.provideFence, hbehind]
  split <;> simp

/-- The search for a fence ends at the length the thread had before the flush was inserted, so it
misses the last statement. -/
theorem duraAt_thread_of_insert (honly : OnlyStore thread pre store post)
    (hnone : ∀ flush ∈ thread, reusable g.claimedFlushes store flush = false) :
    (duraAt g thread pre store).thread =
      pre ++ store :: insertedStmt store (.inserted store.id 0) .flush store.addr ::
        (post ++ if post.dropLast.any Stmt.isFence then []
          else [insertedStmt store (.inserted store.id 1) .fence "0"]) := by
  obtain ⟨rfl, -, -⟩ := honly
  have hfind : ((pre ++ store :: post).take (pre ++ store :: post).length).find?
      (reusable g.claimedFlushes store) = none := by
    rw [List.take_length, List.find?_eq_none]
    intro flush hflush
    simp [hnone flush hflush]
  have hwindow : ∀ flush : Stmt, flush.isFence = false →
      (((pre ++ store :: flush :: post).take (pre ++ store :: post).length).drop
        (pre.length + 1)).any Stmt.isFence = post.dropLast.any Stmt.isFence := by
    intro flush hflush
    have hlength : (pre ++ store :: post).length - (pre.length + 1) = post.length := by simp; omega
    have hbehind : (pre ++ store :: flush :: post).drop (pre.length + 1) = flush :: post := by simp
    rw [List.drop_take, hlength, hbehind]
    cases post with
    | nil => rfl
    | cons head post =>
        rw [List.length_cons, List.take_succ_cons, List.any_cons, hflush, Bool.false_or,
          List.dropLast_eq_take, List.length_cons, Nat.add_sub_cancel]
  simp only [duraAt, DuraState.provideFlush, DuraState.init, hfind, insertIdx_behind,
    DuraState.provideFence]
  rw [hwindow _ rfl]
  split <;> simp

theorem OnlyStore.notMem_left (honly : OnlyStore thread pre store post) : store ∉ pre :=
  fun hmem => honly.unique store (List.mem_append_left post hmem) honly.op rfl

theorem OnlyStore.durable_iff (honly : OnlyStore thread pre store post) (post' : Trace) :
    Durable (pre ++ store :: post') store ↔
      ∃ flush fence : Stmt, [flush, fence].Sublist post' ∧ flush.op = .flush ∧
        flush.addr = store.addr ∧ fence.op = .fence := by
  have hcut : ∀ list : Trace, (store :: list).Sublist (pre ++ store :: post') ↔
      list.Sublist post' := by
    intro list
    have hnot := honly.notMem_left
    clear honly
    induction pre with
    | nil => simp
    | cons head pre ih =>
        have hne : store ≠ head := fun heq => hnot (heq ▸ List.mem_cons_self)
        refine Iff.trans ?_ (ih fun hmem => hnot (List.mem_cons_of_mem head hmem))
        rw [List.cons_append]
        constructor
        · intro hsub
          cases hsub with
          | cons _ hsub => exact hsub
          | cons_cons _ hsub => exact absurd rfl hne
        · exact fun hsub => hsub.cons head
  simp only [Durable, hcut]

end Result

/-- **When a repaired DURA bug is durable.** The flag is always raised. The promise is kept exactly
when the pass had no flush to reuse and inserted its own, or when the statements behind the store
held it already, up to a fence at the end of a thread that had none behind the store. -/
theorem repairDURA_durable_iff (g : Globals) {thread pre post : Trace} {store : Stmt}
    (honly : OnlyStore thread pre store post) :
    ((repairDURA g thread (.dura store.id)).bugFlag = true →
        Durable (repairDURA g thread (.dura store.id)).thread store) ↔
      (∀ flush ∈ thread, reusable g.claimedFlushes store flush = false) ∨
      (∃ flush fence : Stmt, [flush, fence].Sublist post ∧ flush.op = .flush ∧
        flush.addr = store.addr ∧ fence.op = .fence) ∨
      ((∃ flush ∈ post, flush.op = .flush ∧ flush.addr = store.addr) ∧
        ∀ fence ∈ post, fence.op ≠ .fence) := by
  have hrepair := repairDURA_of_onlyStore g honly (.dura store.id) rfl
  have hflag : (repairDURA g thread (.dura store.id)).bugFlag = true := by
    rw [hrepair]
    simp only [DuraState.toRepair, duraAt, DuraState.provideFence, DuraState.provideFlush]
    split <;> split <;> rfl
  have hthread :
      (repairDURA g thread (.dura store.id)).thread = (duraAt g thread pre store).thread :=
    congrArg Repair.thread hrepair
  rw [hthread]
  simp only [hflag, true_imp_iff]
  by_cases hreuse : ∃ flush ∈ thread, reusable g.claimedFlushes store flush = true
  · have hsome : ¬∀ flush ∈ thread, reusable g.claimedFlushes store flush = false := by
      obtain ⟨flush, hmem, htrue⟩ := hreuse
      intro hall
      rw [hall flush hmem] at htrue
      cases htrue
    rw [duraAt_thread_of_reuse g honly hreuse, honly.durable_iff]
    simp only [hsome, false_or]
    by_cases hfence : post.any Stmt.isFence
    · obtain ⟨fence, hmem, hop⟩ := List.any_eq_true.mp hfence
      rw [if_pos hfence, List.append_nil]
      refine ⟨.inl, fun h => h.resolve_right fun h => ?_⟩
      exact h.2 fence hmem (by simpa using hop)
    · have hnofence : ∀ fence ∈ post, fence.op ≠ .fence := by
        intro fence hmem hop
        exact hfence (List.any_eq_true.mpr ⟨fence, hmem, by simpa using hop⟩)
      rw [if_neg hfence]
      constructor
      · rintro ⟨flush, fence, hsub, hflush, haddr, -⟩
        refine .inr ⟨⟨flush, ?_, hflush, haddr⟩, hnofence⟩
        rcases List.mem_append.mp (hsub.subset List.mem_cons_self) with hmem | hmem
        · exact hmem
        · rw [List.mem_singleton] at hmem
          rw [hmem] at hflush
          cases hflush
      · rintro (⟨flush, fence, hsub, -, -, hop⟩ | ⟨⟨flush, hmem, hflush, haddr⟩, -⟩)
        · exact absurd hop (hnofence fence (hsub.subset (by simp)))
        · refine ⟨flush, insertedStmt store (.inserted store.id 0) .fence "0", ?_, hflush, haddr,
            rfl⟩
          exact (List.singleton_sublist.mpr hmem).append (List.Sublist.refl _)
  · have hnone : ∀ flush ∈ thread, reusable g.claimedFlushes store flush = false := by
      intro flush hmem
      by_contra htrue
      exact hreuse ⟨flush, hmem, by simpa using htrue⟩
    rw [duraAt_thread_of_insert g honly hnone, honly.durable_iff]
    refine ⟨fun _ => .inl hnone, fun _ => ?_⟩
    obtain ⟨fence, hmem, hop⟩ : ∃ fence ∈ post ++ (if post.dropLast.any Stmt.isFence then []
        else [insertedStmt store (.inserted store.id 1) .fence "0"]), fence.op = .fence := by
      by_cases hfence : post.dropLast.any Stmt.isFence
      · obtain ⟨fence, hmem, hop⟩ := List.any_eq_true.mp hfence
        exact ⟨fence, List.mem_append_left _ (List.mem_of_mem_dropLast hmem), by simpa using hop⟩
      · exact ⟨insertedStmt store (.inserted store.id 1) .fence "0", by simp [hfence], rfl⟩
    exact ⟨_, fence, (List.singleton_sublist.mpr hmem).cons_cons _, rfl, rfl, hop⟩

/-- A thread that flushes before it stores: the flush is reused and the bug counted as fixed. -/
def flushFirst : Trace :=
  [⟨.line 2, .flush, "0x10", "-1", 0, "insert_7"⟩, ⟨.line 3, .store, "0x10", "-1", 0, "insert_8"⟩,
    ⟨.line 4, .fence, "0", "-1", 0, "insert_9"⟩]

theorem repairDURA_flushFirst_not_durable :
    (repairDURA .start flushFirst (.dura (.line 3))).bugFlag = true ∧
      ¬Durable (repairDURA .start flushFirst (.dura (.line 3))).thread
        ⟨.line 3, .store, "0x10", "-1", 0, "insert_8"⟩ := by
  have hrun : (repairDURA .start flushFirst (.dura (.line 3))).bugFlag = true ∧
      (repairDURA .start flushFirst (.dura (.line 3))).thread = flushFirst := by decide
  have honly : OnlyStore flushFirst [⟨.line 2, .flush, "0x10", "-1", 0, "insert_7"⟩]
      ⟨.line 3, .store, "0x10", "-1", 0, "insert_8"⟩
      [⟨.line 4, .fence, "0", "-1", 0, "insert_9"⟩] := ⟨rfl, rfl, by simp⟩
  refine ⟨hrun.1, ?_⟩
  rw [hrun.2, honly.eq, honly.durable_iff]
  rintro ⟨flush, fence, hsub, -⟩
  simpa using hsub.length_le

/-- The second of three stores, with a flush and a fence that it can use. -/
def flushedBetween : Trace :=
  [⟨.line 2, .store, "0x20", "-1", 0, "insert_7"⟩, ⟨.line 3, .store, "0x10", "-1", 0, "insert_8"⟩,
    ⟨.line 4, .flush, "0x10", "-1", 0, "insert_9"⟩, ⟨.line 5, .fence, "0", "-1", 0, "insert_9"⟩,
    ⟨.line 6, .store, "0x30", "-1", 0, "insert_10"⟩]

theorem flushedBetween_onlyStore : OnlyStore flushedBetween [flushedBetween[0]] flushedBetween[1]
    [flushedBetween[2], flushedBetween[3], flushedBetween[4]] :=
  ⟨rfl, rfl, by decide⟩

theorem repairDURA_durable_iff_flushedBetween :
    (repairDURA .start flushedBetween (.dura (.line 3))).bugFlag = true ∧
      Durable (repairDURA .start flushedBetween (.dura (.line 3))).thread flushedBetween[1] := by
  have hflag : (repairDURA .start flushedBetween (.dura (.line 3))).bugFlag = true := by decide
  exact ⟨hflag, (repairDURA_durable_iff .start flushedBetween_onlyStore).mpr (.inr (.inl
    ⟨flushedBetween[2], flushedBetween[3], by decide, rfl, rfl, rfl⟩)) hflag⟩

/-! ### Only what is missing

Both insertions are meant to supply what the thread lacks. The search for the fence runs with the
length taken before the flush was inserted, so behind a new flush the last statement is not seen.
-/

section Missing

variable (g : Globals) {thread pre post : Trace} {store : Stmt}

/-- The thread with a flush inserted directly behind the store and a fence appended, each or not. -/
def withInserted (pre : Trace) (store : Stmt) (post : Trace) (flush fence : Bool) : Trace :=
  pre ++ store ::
    ((if flush then [insertedStmt store (.inserted store.id 0) .flush store.addr] else []) ++
      post ++ if fence then [insertedStmt store (.inserted store.id flush.toNat) .fence "0"] else [])

/-- Besides the statements of `thread`, in their order, `thread'` holds a flush directly behind the
store if no flush of the thread may be reused, and a fence at the end if none stands behind the
store. -/
def InsertsMissing (thread pre : Trace) (store : Stmt) (post thread' : Trace) : Prop :=
  ∃ flush fence : Bool, thread' = withInserted pre store post flush fence ∧
    (flush = true ↔ ∀ stmt ∈ thread, reusable g.claimedFlushes store stmt = false) ∧
    (fence = true ↔ ∀ stmt ∈ post, stmt.op ≠ .fence)

theorem countP_isFlush_withInserted (flush fence : Bool) :
    (withInserted pre store post flush fence).countP Stmt.isFlush =
      (pre ++ store :: post).countP Stmt.isFlush + flush.toNat := by
  cases flush <;> cases fence <;>
    simp only [withInserted, insertedStmt, Stmt.isFlush, List.countP_append, List.countP_cons] <;>
    simp <;> omega

theorem countP_isFence_withInserted (flush fence : Bool) :
    (withInserted pre store post flush fence).countP Stmt.isFence =
      (pre ++ store :: post).countP Stmt.isFence + fence.toNat := by
  cases flush <;> cases fence <;>
    simp only [withInserted, insertedStmt, Stmt.isFence, List.countP_append, List.countP_cons] <;>
    simp <;> omega

/-- The thread tells which of the two was inserted. -/
theorem withInserted_injective {flush flush' fence fence' : Bool}
    (heq : withInserted pre store post flush fence = withInserted pre store post flush' fence') :
    flush = flush' ∧ fence = fence' := by
  have hflush := congrArg (List.countP Stmt.isFlush) heq
  have hfence := congrArg (List.countP Stmt.isFence) heq
  rw [countP_isFlush_withInserted, countP_isFlush_withInserted] at hflush
  rw [countP_isFence_withInserted, countP_isFence_withInserted] at hfence
  have htoNat : Function.Injective Bool.toNat := by decide
  exact ⟨htoNat (Nat.add_left_cancel hflush), htoNat (Nat.add_left_cancel hfence)⟩

theorem repairDURA_withInserted (honly : OnlyStore thread pre store post) :
    (repairDURA g thread (.dura store.id)).thread =
      withInserted pre store post
        (!thread.any (reusable g.claimedFlushes store))
        (!if thread.any (reusable g.claimedFlushes store) then post.any Stmt.isFence
          else post.dropLast.any Stmt.isFence) := by
  have hthread :
      (repairDURA g thread (.dura store.id)).thread = (duraAt g thread pre store).thread :=
    congrArg Repair.thread (repairDURA_of_onlyStore g honly (.dura store.id) rfl)
  rw [hthread]
  cases hreuse : thread.any (reusable g.claimedFlushes store) with
  | true =>
      rw [duraAt_thread_of_reuse g honly (List.any_eq_true.mp hreuse)]
      cases hfence : post.any Stmt.isFence <;> simp [withInserted]
  | false =>
      have hnone : ∀ flush ∈ thread, reusable g.claimedFlushes store flush = false := by
        intro flush hmem
        simpa using List.any_eq_false.mp hreuse flush hmem
      rw [duraAt_thread_of_insert g honly hnone]
      cases hfence : post.dropLast.any Stmt.isFence <;> simp [withInserted]

end Missing

/-- **When only what is missing is inserted.** Never too little; a fence too much exactly when a
flush is inserted and the only fence behind the store is the thread's last statement. -/
theorem repairDURA_insertsMissing_iff (g : Globals) {thread pre post : Trace} {store : Stmt}
    (honly : OnlyStore thread pre store post) :
    InsertsMissing g thread pre store post (repairDURA g thread (.dura store.id)).thread ↔
      (∃ flush ∈ thread, reusable g.claimedFlushes store flush = true) ∨
      (∀ fence ∈ post, fence.op ≠ .fence) ∨
      ∃ fence ∈ post.dropLast, fence.op = .fence := by
  rw [repairDURA_withInserted g honly]
  have hnone : (!thread.any (reusable g.claimedFlushes store)) = true ↔
      ∀ stmt ∈ thread, reusable g.claimedFlushes store stmt = false := by
    simp
  have hfence : ∀ list : Trace, (!list.any Stmt.isFence) = true ↔
      ∀ stmt ∈ list, stmt.op ≠ .fence := by
    intro list
    simp [Stmt.isFence]
  by_cases hreuse : ∃ flush ∈ thread, reusable g.claimedFlushes store flush = true
  · simp only [hreuse, true_or, iff_true]
    refine ⟨_, _, rfl, hnone, ?_⟩
    rw [if_pos (List.any_eq_true.mpr hreuse)]
    exact hfence post
  · have hany : ¬thread.any (reusable g.claimedFlushes store) = true := fun h =>
      hreuse (List.any_eq_true.mp h)
    simp only [hreuse, false_or]
    rw [if_neg hany]
    constructor
    · rintro ⟨flush, fence, heq, -, hmissing⟩
      obtain ⟨-, rfl⟩ := withInserted_injective heq
      by_cases hlast : ∃ fence ∈ post.dropLast, fence.op = .fence
      · exact .inr hlast
      · refine .inl (hmissing.mp ((hfence _).mpr fun stmt hmem hop => hlast ⟨stmt, hmem, hop⟩))
    · intro hpost
      refine ⟨_, _, rfl, hnone, (hfence _).trans ⟨fun hseen => ?_, fun hno stmt hmem =>
        hno stmt (List.mem_of_mem_dropLast hmem)⟩⟩
      rcases hpost with hno | ⟨fence, hmem, hop⟩
      · exact hno
      · exact absurd hop (hseen fence hmem)

theorem repairDURA_insertsMissing_flushedBetween :
    InsertsMissing .start flushedBetween [flushedBetween[0]] flushedBetween[1]
      [flushedBetween[2], flushedBetween[3], flushedBetween[4]]
      (repairDURA .start flushedBetween (.dura (.line 3))).thread :=
  (repairDURA_insertsMissing_iff .start flushedBetween_onlyStore).mpr
    (.inl ⟨flushedBetween[2], by decide, by decide⟩)

/-- A store and the fence behind it, without a flush. -/
def fenceLast : Trace :=
  [⟨.line 2, .store, "0x10", "-1", 0, "insert_8"⟩, ⟨.line 3, .fence, "0", "-1", 0, "insert_9"⟩]

theorem repairDURA_fenceLast_not_insertsMissing :
    OnlyStore fenceLast [] ⟨.line 2, .store, "0x10", "-1", 0, "insert_8"⟩
        [⟨.line 3, .fence, "0", "-1", 0, "insert_9"⟩] ∧
      ¬InsertsMissing .start fenceLast [] ⟨.line 2, .store, "0x10", "-1", 0, "insert_8"⟩
        [⟨.line 3, .fence, "0", "-1", 0, "insert_9"⟩]
        (repairDURA .start fenceLast (.dura (.line 2))).thread := by
  have hrun : (repairDURA .start fenceLast (.dura (.line 2))).thread =
      withInserted [] ⟨.line 2, .store, "0x10", "-1", 0, "insert_8"⟩
        [⟨.line 3, .fence, "0", "-1", 0, "insert_9"⟩] true true := by decide
  refine ⟨⟨rfl, rfl, by simp⟩, ?_⟩
  rintro ⟨flush, fence, heq, -, hmissing⟩
  rw [hrun] at heq
  obtain ⟨-, rfl⟩ := withInserted_injective heq
  exact hmissing.mp rfl ⟨.line 3, .fence, "0", "-1", 0, "insert_9"⟩ (by simp) rfl

end PMBugRepair
