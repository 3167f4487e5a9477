import PMBugRepair.Step1.Complete
import PMBugRepair.Step1.Recombine

/-!
# Which rows step 1 can add

A repair copies rows and inserts rows for stores. A DURA bug, or a bug that is taken for one, adds a
flush of its store's address and a fence; an MPB bug adds fences for its first store. Recombination
only moves rows. So every row that step 1 returns is a row of the trace or was inserted for a store
that some bug names, in the thread of this store.
-/

namespace PMBugRepair

open Smt (Formula Solver)

/-- The left stores of the bugs that are sent to `repairMPB`. -/
def fencedStores (bugs : List Bug) : List Id := (bugs.filter fun bug => !bug.mentionsInf).map Bug.left

/-- Whatever is inserted for a store of the thread that a bug names satisfies `P`. -/
structure Inserts (P : Stmt → Prop) (thread : Trace) (bugs : List Bug) : Prop where
  flush : ∀ store ∈ thread, store.op = .store → store.id ∈ dispatched bugs → ∀ k,
    P (insertedStmt store (.inserted store.id k) .flush store.addr)
  fence : ∀ store ∈ thread, store.op = .store → store.id ∈ dispatched bugs → ∀ k,
    P (insertedStmt store (.inserted store.id k) .fence "0")
  between : ∀ store ∈ thread, store.op = .store → store.id ∈ fencedStores bugs → ∀ k,
    P (insertedStmt store (.insertedFence store.id k) .fence "0")

theorem Inserts.mono {P : Stmt → Prop} {thread thread' : Trace} {bugs bugs' : List Bug}
    (h : Inserts P thread bugs)
    (hstores : ∀ store ∈ thread', store.op = .store → store ∈ thread) (hbugs : bugs' ⊆ bugs) :
    Inserts P thread' bugs' := by
  have hdispatched : dispatched bugs' ⊆ dispatched bugs :=
    List.map_subset _ (List.filter_subset _ hbugs)
  have hfenced : fencedStores bugs' ⊆ fencedStores bugs :=
    List.map_subset _ (List.filter_subset _ hbugs)
  exact ⟨fun store hmem hop hid => h.flush store (hstores store hmem hop) hop (hdispatched hid),
    fun store hmem hop hid => h.fence store (hstores store hmem hop) hop (hdispatched hid),
    fun store hmem hop hid => h.between store (hstores store hmem hop) hop (hfenced hid)⟩

section Dura

variable {P : Stmt → Prop} {bug : Bug}

theorem step_forall {length i : Nat} {st : DuraState} (hinf : bug.mentionsInf = true)
    (hinserts : Inserts P st.thread [bug]) (h : ∀ x ∈ st.thread, P x) :
    ∀ x ∈ (st.step bug.left length i).thread, P x := by
  have hdispatched : dispatched [bug] = [bug.left] := by simp [dispatched, hinf]
  unfold DuraState.step
  cases hget : st.thread[i]? with
  | none => exact h
  | some store =>
      simp only
      split
      · rename_i hmatch
        have hmem := List.mem_of_getElem? hget
        have hid : store.id ∈ dispatched [bug] := by simp [hdispatched, hmatch.2]
        have hlt : i + 1 ≤ st.thread.length := (List.getElem?_eq_some_iff.mp hget).1
        have hprovide : ∀ x ∈ (DuraState.provideFlush { st with bugFlag := true } length i
            store).thread, P x := by
          unfold DuraState.provideFlush
          split
          · exact h
          · intro x hx
            rcases (List.mem_insertIdx hlt).mp hx with rfl | hx
            · exact hinserts.flush store hmem hmatch.1 hid _
            · exact h x hx
        intro x hx
        rcases (provideFence_spec _ length i store).2.2.2 with hfence | hfence
        · exact hprovide x (hfence ▸ hx)
        · rw [hfence, List.mem_append, List.mem_singleton] at hx
          rcases hx with hx | rfl
          · exact hprovide x hx
          · exact hinserts.fence store hmem hmatch.1 hid _
      · exact h

theorem repairDURA_forall {g : Globals} {thread : Trace} (hinf : bug.mentionsInf = true)
    (hinserts : Inserts P thread [bug]) (h : ∀ x ∈ thread, P x) :
    ∀ x ∈ (repairDURA g thread bug).thread, P x := by
  have hfold : ∀ (indices : List Nat) (st : DuraState), Inserts P st.thread [bug] →
      (∀ x ∈ st.thread, P x) →
      ∀ x ∈ (indices.foldl (DuraState.step bug.left thread.length) st).thread, P x := by
    intro indices
    induction indices with
    | nil => exact fun st _ h => h
    | cons i indices ih =>
        intro st hinserts h
        have hconserves := (step_conserves bug.left thread.length st i).1
        exact ih _ (hinserts.mono (fun store hmem hop => (hconserves.mem_store_iff hop).mp hmem)
          (List.Subset.refl _)) (step_forall hinf hinserts h)
  exact hfold _ (.init g thread) hinserts h

end Dura

section Run

variable {P : Stmt → Prop} {z : Nat → Solver Var} {g : Globals} {thread : Trace}
  {bugs : List Bug} {transactCons : List (Formula Var)} {st : ThreadState}

theorem repairBug_forall {z : Solver Var} {st' : ThreadState} {bug : Bug}
    (hinserts : Inserts P st.thread [bug]) (h : ∀ x ∈ st.thread, P x)
    (hstep : repairBug z st bug = some st') : ∀ x ∈ st'.thread, P x := by
  rcases repairBug_cases hstep with ⟨hinf, rfl⟩ | ⟨hinf, a, b, out, rfl, hout, rfl⟩
  · exact repairDURA_forall hinf hinserts h
  · have hfenced : ∀ x ∈ fencedThread st.globals st.thread a b, P x := by
      intro x hx
      rcases List.mem_append.mp hx with hx | hx
      · exact h x hx
      · obtain ⟨store, hmem, hop, hid, k, -, -, rfl⟩ := mem_mpbFences hx
        exact hinserts.between store hmem hop (by simp [fencedStores, hinf, Bug.left, hid]) k
    intro x hx
    rcases (repairMPB_cases hout).2 with ⟨-, heq⟩ | ⟨-, -, m, hsolved⟩
    · exact hfenced x (heq ▸ hx)
    · exact hfenced x (hsolved.perm.mem_iff.mp hx)

theorem repairThread_forall (hinserts : Inserts P thread bugs) (h : ∀ x ∈ thread, P x)
    (hrun : repairThread z g thread bugs transactCons = some st) : ∀ x ∈ st.thread, P x := by
  have hall : Conserves thread st.thread ∧
      (Inserts P thread bugs → ∀ x ∈ st.thread, P x) := by
    refine repairBugs_invariant (P := fun seen now => Conserves thread now.thread ∧
      (Inserts P thread seen → ∀ x ∈ now.thread, P x)) ⟨Conserves.refl _, fun _ => h⟩ ?_ hrun
    rintro seen bug k now next ⟨hconserves, hnow⟩ hstep
    refine ⟨hconserves.trans (repairBug_conserves hstep), fun hinserts => ?_⟩
    have hstores : ∀ store ∈ now.thread, store.op = .store → store ∈ thread :=
      fun store hmem hop => (hconserves.mem_store_iff hop).mp hmem
    exact repairBug_forall (hinserts.mono hstores (by simp))
      (hnow (hinserts.mono (fun _ hmem _ => hmem) (by simp))) hstep
  exact hall.2 hinserts

end Run

section Trace

variable {P : Stmt → Prop} {trace out : Trace} {bugs : List Bug} {tids : List Nat} {g : Globals}

/-- The threads that `addConstraints` recombines, each with its run. -/
structure RepairedBy (trace : Trace) (bugs : List Bug) (family : List (Nat × Trace)) (out : Trace) :
    Prop where
  threads : RepairedThreads trace family
  out_eq : out = recombine (storeSeqs trace) (family.map Prod.snd).flatten
  runs : ∀ entry ∈ family, ∃ z g st,
    repairThread z g (trace.filter fun x => x.tid = entry.1) bugs
      (getTransactionConstraints (trace.filter fun x => x.tid = entry.1)) = some st ∧
      st.thread = entry.2

theorem addConstraints_runs {z : Nat → Nat → Solver Var}
    (htids : tids.Perm (trace.map Stmt.tid).dedup)
    (h : addConstraints z trace bugs tids = some (out, g)) :
    ∃ family, RepairedBy trace bugs family out := by
  have hloop : ∀ (tids : List Nat) (k : Nat) (g : Globals) (threads : List Trace) (g' : Globals),
      repairThreads z bugs k g (tids.map fun tid => trace.filter fun x => x.tid = tid) =
        some (threads, g') →
      ∃ family : List (Nat × Trace), family.map Prod.fst = tids ∧ family.map Prod.snd = threads ∧
        ∀ entry ∈ family, ∃ z g st, repairThread z g (trace.filter fun x => x.tid = entry.1) bugs
          (getTransactionConstraints (trace.filter fun x => x.tid = entry.1)) = some st ∧
          st.thread = entry.2 := by
    intro tids
    induction tids with
    | nil =>
        intro k g threads g' h
        obtain ⟨rfl, -⟩ := Prod.mk.inj (Option.some.inj h)
        exact ⟨[], rfl, rfl, by simp⟩
    | cons tid tids ih =>
        intro k g threads g' h
        obtain ⟨st, hst, hrest⟩ := Option.bind_eq_some_iff.mp h
        obtain ⟨⟨rest, g''⟩, htail, hresult⟩ := Option.bind_eq_some_iff.mp hrest
        obtain ⟨rfl, -⟩ := Prod.mk.inj (Option.some.inj hresult)
        obtain ⟨family, hfst, hsnd, hruns⟩ := ih (k + 1) st.globals rest g'' htail
        exact ⟨(tid, st.thread) :: family, by rw [List.map_cons, hfst], by rw [List.map_cons, hsnd],
          List.forall_mem_cons.mpr ⟨⟨z k, g, st, hst, rfl⟩, hruns⟩⟩
  obtain ⟨⟨threads, g'⟩, hthreads, hresult⟩ := Option.bind_eq_some_iff.mp h
  obtain ⟨rfl, -⟩ := Prod.mk.inj (Option.some.inj hresult)
  obtain ⟨family, hfst, hsnd, hruns⟩ := hloop tids 0 .start threads g' hthreads
  refine ⟨family, ⟨hfst ▸ htids, fun entry hentry => ?_⟩, by rw [hsnd], hruns⟩
  obtain ⟨z, g, st, hrun, hst⟩ := hruns entry hentry
  exact ⟨z, g, bugs, _, st, hrun, hst⟩

namespace RepairedBy

variable {family : List (Nat × Trace)}

theorem perm (h : RepairedBy trace bugs family out) (hnum : Numbered trace) :
    out.Perm (family.map Prod.snd).flatten := by
  rw [h.out_eq]
  exact (h.threads.holdsStores hnum).recombine_perm hnum.nodup

theorem stores_eq (h : RepairedBy trace bugs family out) (hnum : Numbered trace) :
    out.filter Stmt.isStore = trace.filter Stmt.isStore := by
  rw [h.out_eq]
  exact (h.threads.holdsStores hnum).recombine_stores hnum.nodup

theorem stores_nodup (h : RepairedBy trace bugs family out) (hnum : Numbered trace) :
    (out.filter Stmt.isStore).Nodup := by
  rw [h.stores_eq hnum]
  exact hnum.nodup.of_map.sublist List.filter_sublist

/-- What holds of the rows of the trace and of what is inserted for its stores holds of all rows. -/
theorem forall_mem (h : RepairedBy trace bugs family out) (hnum : Numbered trace)
    (hinserts : Inserts P trace bugs) (htrace : ∀ x ∈ trace, P x) : ∀ x ∈ out, P x := by
  intro x hx
  obtain ⟨part, hpart, hmem⟩ := List.mem_flatten.mp ((h.perm hnum).mem_iff.mp hx)
  obtain ⟨entry, hentry, rfl⟩ := List.mem_map.mp hpart
  obtain ⟨z, g, st, hrun, hst⟩ := h.runs entry hentry
  exact repairThread_forall
    (hinserts.mono (fun store hmem _ => (List.mem_filter.mp hmem).1) (List.Subset.refl _))
    (fun y hy => htrace y (List.mem_filter.mp hy).1) hrun x (hst ▸ hmem)

end RepairedBy

end Trace

/-- The row was inserted for a store of the trace that a bug names: a flush of its address and a
fence for a DURA bug, a fence for an MPB bug. -/
def InsertedRow (trace : Trace) (bugs : List Bug) (x : Stmt) : Prop :=
  ∃ store ∈ trace, store.op = .store ∧ ∃ k,
    (store.id ∈ dispatched bugs ∧
      (x = insertedStmt store (.inserted store.id k) .flush store.addr ∨
        x = insertedStmt store (.inserted store.id k) .fence "0")) ∨
    (store.id ∈ fencedStores bugs ∧ x = insertedStmt store (.insertedFence store.id k) .fence "0")

namespace RepairedBy

variable {trace out : Trace} {bugs : List Bug} {family : List (Nat × Trace)}

theorem mem_or_insertedRow (h : RepairedBy trace bugs family out) (hnum : Numbered trace) :
    ∀ x ∈ out, x ∈ trace ∨ InsertedRow trace bugs x := by
  refine h.forall_mem hnum ⟨?_, ?_, ?_⟩ fun x hx => .inl hx
  · exact fun store hmem hop hid k => .inr ⟨store, hmem, hop, k, .inl ⟨hid, .inl rfl⟩⟩
  · exact fun store hmem hop hid k => .inr ⟨store, hmem, hop, k, .inl ⟨hid, .inr rfl⟩⟩
  · exact fun store hmem hop hid k => .inr ⟨store, hmem, hop, k, .inr ⟨hid, rfl⟩⟩

theorem subset (h : RepairedBy trace bugs family out) (hnum : Numbered trace) : trace ⊆ out := by
  intro x hx
  obtain ⟨entry, hentry, htid⟩ : ∃ entry ∈ family, entry.1 = x.tid := by
    refine List.mem_map.mp (h.threads.tids.mem_iff.mpr ?_)
    exact List.mem_dedup.mpr (List.mem_map_of_mem hx)
  refine (h.perm hnum).mem_iff.mpr (List.mem_flatten.mpr ⟨_, List.mem_map_of_mem hentry, ?_⟩)
  exact (h.threads.conserves hentry).subset (List.mem_filter.mpr ⟨hx, by simp [htid]⟩)

end RepairedBy

/-- **What step 1 can add.** Every row of a trace that step 1 returns is a row of its input, or a
flush or a fence with the data of a store of its own thread that some bug names. -/
theorem addConstraints_rows {z : Nat → Nat → Solver Var} {trace out : Trace} {bugs : List Bug}
    {tids : List Nat} {g : Globals} (hnum : Numbered trace)
    (htids : tids.Perm (trace.map Stmt.tid).dedup)
    (h : addConstraints z trace bugs tids = some (out, g)) :
    ∀ x ∈ out, x ∈ trace ∨ InsertedRow trace bugs x := by
  obtain ⟨family, hby⟩ := addConstraints_runs htids h
  exact hby.mem_or_insertedRow hnum

/-- Step 1 returns on two stores, whatever the bugs. -/
theorem exists_addConstraints_twoStores (bugs : List Bug) :
    ∃ out g, addConstraints (fun _ _ => .classical) twoStores bugs [0] = some (out, g) := by
  have hthread : (twoStores.filter fun x => x.tid = 0) = twoStores := by decide
  obtain ⟨st, hst⟩ := (twoStores_inOrder.steady twoStores_txFree .start).exists_run
    (z := fun _ => .classical) (k := 0) bugs
  have hrun : repairThread (fun _ => .classical) .start twoStores bugs
      (getTransactionConstraints twoStores) = some st := by
    rw [twoStores_txFree.getTransactionConstraints]
    exact hst
  refine ⟨recombine (storeSeqs twoStores) [st.thread].flatten, st.globals, ?_⟩
  simp only [addConstraints, List.map_cons, List.map_nil, hthread, repairThreads, hrun,
    Option.bind_eq_bind, Option.bind_some, Option.pure_def]

/-- The rows of a run on two stores. -/
theorem addConstraints_rows_twoStores :
    ∃ out g, addConstraints (fun _ _ => .classical) twoStores
        [.dura (.line 2), .mpb (.line 2) (.line 3)] [0] = some (out, g) ∧
      ∀ x ∈ out, x ∈ twoStores ∨
        InsertedRow twoStores [.dura (.line 2), .mpb (.line 2) (.line 3)] x := by
  obtain ⟨out, g, hout⟩ :=
    exists_addConstraints_twoStores [.dura (.line 2), .mpb (.line 2) (.line 3)]
  exact ⟨out, g, hout, @addConstraints_rows _ twoStores _ _ [0] _ rfl (by decide) hout⟩

end PMBugRepair
