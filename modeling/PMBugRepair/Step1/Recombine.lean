import PMBugRepair.Step1.Thread

/-!
# Recombination

`addConstraints` repairs the threads one after the other and then puts them together again. The
repaired threads are concatenated, in the order in which a set lists the thread numbers. What stands
in front of the first store is copied, and then, store by store in the order of the original trace,
each store with the statements up to the next store of the concatenation.
-/

namespace PMBugRepair

open Schedule (Before before_of_append)
open Smt (Formula Solver)

/-- The statements in front of the first store. -/
def lead (trace : Trace) : Trace := trace.takeWhile fun x => !x.isStore

/-- Lines 474-479 for one store: every statement with its number, and the statements behind it up to
the next store. -/
def storeBlock (storeToFind : Id) : Trace → Trace
  | [] => []
  | x :: rest =>
      (if x.id = storeToFind then x :: lead rest else []) ++ storeBlock storeToFind rest

def recombine (storeSeqs : List Id) (intermediateTrace : Trace) : Trace :=
  lead intermediateTrace ++ storeSeqs.flatMap fun s => storeBlock s intermediateTrace

/-- `storeSeqs` of `addConstraints`. -/
def storeSeqs (trace : Trace) : List Id := (trace.filter Stmt.isStore).map Stmt.id

/-- The loop over the threads. -/
def repairThreads (z : Nat → Nat → Solver Var) (bugs : List Bug) :
    Nat → Globals → List Trace → Option (List Trace × Globals)
  | _, g, [] => some ([], g)
  | k, g, thread :: rest => do
      let st ← repairThread (z k) g thread bugs (getTransactionConstraints thread)
      let (threads, g) ← repairThreads z bugs (k + 1) st.globals rest
      return (st.thread :: threads, g)

/-- `addConstraints` on a parsed trace and the bugs that were read for it. `tids` lists the thread
numbers in the order in which the set of them is iterated. -/
def addConstraints (z : Nat → Nat → Solver Var) (trace : Trace) (bugs : List Bug)
    (tids : List Nat) : Option (Trace × Globals) := do
  let (threads, g) ← repairThreads z bugs 0 .start
    (tids.map fun tid => trace.filter fun x => x.tid = tid)
  return (recombine (storeSeqs trace) threads.flatten, g)

/-! ### Blocks -/

section Blocks

variable {id : Id} {left right trace : Trace}

theorem storeBlock_append_of_absent (h : ∀ x ∈ left, x.id ≠ id) :
    storeBlock id (left ++ right) = storeBlock id right := by
  induction left with
  | nil => rfl
  | cons x left ih =>
      obtain ⟨hx, hleft⟩ := List.forall_mem_cons.mp h
      rw [List.cons_append, storeBlock, if_neg hx, List.nil_append, ih hleft]

theorem storeBlock_eq_nil (h : ∀ x ∈ trace, x.id ≠ id) : storeBlock id trace = [] := by
  have hblock := @storeBlock_append_of_absent id trace [] h
  rwa [List.append_nil] at hblock

theorem storeBlock_subset : storeBlock id trace ⊆ trace := by
  induction trace with
  | nil => exact List.Subset.refl []
  | cons x rest ih =>
      intro y hy
      rw [storeBlock, List.mem_append] at hy
      rcases hy with hy | hy
      · split at hy
        · rcases List.mem_cons.mp hy with rfl | hy
          · exact List.mem_cons_self
          · exact List.mem_cons_of_mem x ((List.takeWhile_sublist _).subset hy)
        · cases hy
      · exact List.mem_cons_of_mem x (ih hy)

theorem lead_append_of_no_store (h : ∀ x ∈ left, x.isStore = false) :
    lead (left ++ right) = left ++ lead right :=
  List.takeWhile_append_of_pos fun x hx => by simp [h x hx]

theorem lead_append_store {x : Stmt} (hx : x.isStore = true) :
    lead (left ++ x :: right) = lead left := by
  induction left with
  | nil => simp [lead, hx]
  | cons y left ih =>
      rw [lead, lead, List.cons_append, List.takeWhile_cons, List.takeWhile_cons]
      split
      · exact congrArg (y :: ·) ih
      · rfl

theorem storeBlock_append_store {x : Stmt} (hx : x.isStore = true) :
    storeBlock id (left ++ x :: right) = storeBlock id left ++ storeBlock id (x :: right) := by
  induction left with
  | nil => rfl
  | cons y left ih =>
      rw [List.cons_append, storeBlock, lead_append_store hx, ih, ← List.append_assoc]
      rfl

theorem storeBlock_of_split {x : Stmt} (hleft : ∀ y ∈ left, y.id ≠ x.id)
    (hright : ∀ y ∈ right, y.id ≠ x.id) :
    storeBlock x.id (left ++ x :: right) = x :: lead right := by
  rw [storeBlock_append_of_absent hleft, storeBlock, if_pos rfl, storeBlock_eq_nil hright,
    List.append_nil]

theorem lead_append_dropWhile (trace : Trace) :
    lead trace ++ trace.dropWhile (fun x => !x.isStore) = trace :=
  List.takeWhile_append_dropWhile

theorem isStore_of_mem_lead {x : Stmt} (h : x ∈ lead trace) : x.isStore = false := by
  have hall := @List.all_takeWhile Stmt (fun x => !x.isStore) trace
  simpa using List.all_eq_true.mp hall x h

end Blocks

/-- The stores of a trace have numbers of their own. -/
structure OwnNumbers (trace : Trace) : Prop where
  stores : (storeSeqs trace).Nodup
  others : ∀ x ∈ trace, x.isStore = false → x.id ∉ storeSeqs trace

theorem OwnNumbers.tail {x : Stmt} {rest : Trace} (h : OwnNumbers (x :: rest)) :
    OwnNumbers rest := by
  have hsub : (storeSeqs rest).Sublist (storeSeqs (x :: rest)) :=
    ((List.sublist_cons_self x rest).filter _).map _
  exact ⟨h.stores.sublist hsub, fun y hy hother hmem =>
    h.others y (List.mem_cons_of_mem x hy) hother (hsub.subset hmem)⟩

/-- Block by block, in their own order, the stores give back the trace from its first store on. -/
theorem OwnNumbers.flatMap_storeBlock {trace : Trace} (h : OwnNumbers trace) :
    ((storeSeqs trace).flatMap fun s => storeBlock s trace) =
      trace.dropWhile fun x => !x.isStore := by
  induction trace with
  | nil => rfl
  | cons x rest ih =>
      have hskip : ∀ s ∈ storeSeqs rest, s ≠ x.id →
          storeBlock s (x :: rest) = storeBlock s rest := by
        intro s _ hne
        rw [storeBlock, if_neg (Ne.symm hne), List.nil_append]
      cases hstore : x.isStore with
      | false =>
          have hseqs : storeSeqs (x :: rest) = storeSeqs rest := by
            rw [storeSeqs, List.filter_cons_of_neg (by simp [hstore])]
            rfl
          have hx := h.others x List.mem_cons_self hstore
          rw [hseqs] at hx
          rw [hseqs, List.dropWhile_cons_of_pos (by simp [hstore]), ← ih h.tail]
          exact List.flatMap_congr fun s hs => hskip s hs fun heq => hx (heq ▸ hs)
      | true =>
          have hseqs : storeSeqs (x :: rest) = x.id :: storeSeqs rest := by
            rw [storeSeqs, List.filter_cons_of_pos hstore]
            rfl
          have hnodup := h.stores
          rw [hseqs, List.nodup_cons] at hnodup
          have habsent : ∀ y ∈ rest, y.id ≠ x.id := by
            intro y hy heq
            cases hother : y.isStore with
            | true =>
                refine hnodup.1 ?_
                rw [← heq]
                exact List.mem_map_of_mem (List.mem_filter.mpr ⟨hy, hother⟩)
            | false =>
                refine h.others y (List.mem_cons_of_mem x hy) hother ?_
                rw [heq, hseqs]
                exact List.mem_cons_self
          have hfirst : storeBlock x.id (x :: rest) = x :: lead rest :=
            @storeBlock_of_split [] rest x (by simp) habsent
          have hothers : ((storeSeqs rest).flatMap fun s => storeBlock s (x :: rest)) =
              rest.dropWhile fun x => !x.isStore := by
            rw [← ih h.tail]
            exact List.flatMap_congr fun s hs => hskip s hs fun heq => hnodup.1 (heq ▸ hs)
          rw [hseqs, List.flatMap_cons, hfirst, hothers, List.cons_append, lead_append_dropWhile,
            List.dropWhile_cons_of_neg (by simp [hstore])]

/-! ### Nothing is lost -/

/-- The stores of the threads are those of the trace, and no other statement carries a number of
theirs. -/
structure HoldsStores (trace : Trace) (threads : List Trace) : Prop where
  stores : (threads.flatten.filter Stmt.isStore).Perm (trace.filter Stmt.isStore)
  others : ∀ x ∈ threads.flatten, x.isStore = false → x.id ∉ storeSeqs trace

theorem HoldsStores.ownNumbers {trace : Trace} {threads : List Trace}
    (hids : (trace.map Stmt.id).Nodup) (h : HoldsStores trace threads) :
    OwnNumbers threads.flatten := by
  have hperm : (storeSeqs threads.flatten).Perm (storeSeqs trace) := h.stores.map _
  have hnodup : (storeSeqs trace).Nodup := hids.sublist (List.filter_sublist.map _)
  exact ⟨hperm.nodup_iff.mpr hnodup, fun x hx hother hmem =>
    h.others x hx hother (hperm.mem_iff.mp hmem)⟩

/-- The block of a store is the store with statements that are none. -/
theorem OwnNumbers.filter_storeBlock {trace : Trace} (h : OwnNumbers trace) {x : Stmt}
    (hx : x ∈ trace) (hstore : x.isStore = true) :
    (storeBlock x.id trace).filter Stmt.isStore = [x] := by
  obtain ⟨left, right, rfl⟩ := List.append_of_mem hx
  have hseqs : storeSeqs (left ++ x :: right) = storeSeqs left ++ x.id :: storeSeqs right := by
    rw [storeSeqs, List.filter_append, List.filter_cons_of_pos hstore, List.map_append]
    rfl
  have hnodup := h.stores
  rw [hseqs, List.nodup_middle, List.nodup_cons, List.mem_append, not_or] at hnodup
  have habsent : ∀ {part : Trace}, (∀ y ∈ part, y ∈ left ++ x :: right) → x.id ∉ storeSeqs part →
      ∀ y ∈ part, y.id ≠ x.id := by
    intro part hsub hnot y hy heq
    cases hother : y.isStore with
    | true =>
        refine hnot ?_
        rw [← heq]
        exact List.mem_map_of_mem (List.mem_filter.mpr ⟨hy, hother⟩)
    | false =>
        refine h.others y (hsub y hy) hother ?_
        rw [heq, hseqs]
        simp
  rw [storeBlock_of_split (habsent (by simp +contextual) hnodup.1.1)
    (habsent (by simp +contextual) hnodup.1.2), List.filter_cons_of_pos hstore]
  congr 1
  rw [List.filter_eq_nil_iff]
  intro y hy
  simp [isStore_of_mem_lead hy]

theorem HoldsStores.recombine_perm {trace : Trace} {threads : List Trace}
    (hids : (trace.map Stmt.id).Nodup) (h : HoldsStores trace threads) :
    (recombine (storeSeqs trace) threads.flatten).Perm threads.flatten := by
  have hperm : (storeSeqs trace).Perm (storeSeqs threads.flatten) := (h.stores.map _).symm
  have hblocks := (h.ownNumbers hids).flatMap_storeBlock
  refine ((hperm.flatMap_right _).append_left (lead threads.flatten)).trans ?_
  rw [hblocks, lead_append_dropWhile]

theorem HoldsStores.recombine_stores {trace : Trace} {threads : List Trace}
    (hids : (trace.map Stmt.id).Nodup) (h : HoldsStores trace threads) :
    (recombine (storeSeqs trace) threads.flatten).filter Stmt.isStore =
      trace.filter Stmt.isStore := by
  have hown := h.ownNumbers hids
  have hlead : (lead threads.flatten).filter Stmt.isStore = [] := by
    rw [List.filter_eq_nil_iff]
    intro x hx
    simp [isStore_of_mem_lead hx]
  have hblocks : ∀ x ∈ trace.filter Stmt.isStore,
      (storeBlock x.id threads.flatten).filter Stmt.isStore = [x] := by
    intro x hx
    exact hown.filter_storeBlock (List.mem_filter.mp (h.stores.mem_iff.mpr hx)).1
      (List.mem_filter.mp hx).2
  rw [recombine, List.filter_append, hlead, List.nil_append, List.filter_flatMap, storeSeqs,
    List.flatMap_map, List.flatMap_congr hblocks]
  exact List.flatMap_singleton' _

/-- **Recombination loses nothing.** The recombined trace is a permutation of the repaired threads,
whatever their order, and its stores are those of the original trace in their order. -/
theorem recombine_conserves (trace : Trace) (threads : List Trace)
    (hids : (trace.map Stmt.id).Nodup) (h : HoldsStores trace threads) :
    (recombine (storeSeqs trace) threads.flatten).Perm threads.flatten ∧
      (recombine (storeSeqs trace) threads.flatten).filter Stmt.isStore =
        trace.filter Stmt.isStore :=
  ⟨h.recombine_perm hids, h.recombine_stores hids⟩

/-- A trace of two threads. -/
def twoThreads : Trace :=
  [⟨.line 2, .store, "0x10", "-1", 0, "f_1"⟩, ⟨.line 3, .fence, "0", "-1", 1, "g_1"⟩,
    ⟨.line 4, .store, "0x20", "-1", 1, "g_2"⟩, ⟨.line 5, .flush, "0x10", "-1", 0, "f_2"⟩]

/-- Its threads, the second one first and with a flush inserted behind its store. -/
def twoThreadsRepaired : List Trace :=
  [[⟨.line 3, .fence, "0", "-1", 1, "g_1"⟩, ⟨.line 4, .store, "0x20", "-1", 1, "g_2"⟩,
      ⟨.inserted (.line 4) 0, .flush, "0x20", "-1", 1, "g_2_x"⟩],
    [⟨.line 2, .store, "0x10", "-1", 0, "f_1"⟩, ⟨.line 5, .flush, "0x10", "-1", 0, "f_2"⟩]]

theorem recombine_conserves_twoThreads :
    HoldsStores twoThreads twoThreadsRepaired ∧
      (recombine (storeSeqs twoThreads) twoThreadsRepaired.flatten).Perm
        twoThreadsRepaired.flatten ∧
      (recombine (storeSeqs twoThreads) twoThreadsRepaired.flatten).filter Stmt.isStore =
        twoThreads.filter Stmt.isStore := by
  have hholds : HoldsStores twoThreads twoThreadsRepaired := ⟨by decide, by decide⟩
  exact ⟨hholds, recombine_conserves twoThreads twoThreadsRepaired (by decide) hholds⟩

/-! ### Repaired threads stay threads -/

section Tids

variable {tid : Nat}

/-- All statements belong to one thread. -/
def OfThread (tid : Nat) (thread : Trace) : Prop := ∀ x ∈ thread, x.tid = tid

theorem DuraState.step_ofThread {target : Id} {length : Nat} {st : DuraState} (i : Nat)
    (h : OfThread tid st.thread) : OfThread tid (st.step target length i).thread := by
  unfold DuraState.step
  cases hget : st.thread[i]? with
  | none => exact h
  | some store =>
      have hstore : store.tid = tid := h store (List.mem_of_getElem? hget)
      simp only
      split
      · have hflush : OfThread tid
            ({ st with bugFlag := true }.provideFlush length i store).thread := by
          unfold DuraState.provideFlush
          split
          · exact h
          · intro x hx
            rcases List.eq_or_mem_of_mem_insertIdx hx with rfl | hx
            · exact hstore
            · exact h x hx
        unfold DuraState.provideFence
        split
        · exact hflush
        · intro x hx
          rcases List.mem_append.mp hx with hx | hx
          · exact hflush x hx
          · rw [List.mem_singleton.mp hx]
            exact hstore
      · exact h

theorem repairDURA_ofThread {g : Globals} {thread : Trace} {bug : Bug} (h : OfThread tid thread) :
    OfThread tid (repairDURA g thread bug).thread := by
  have hloop : ∀ (indices : List Nat) (st : DuraState), OfThread tid st.thread →
      OfThread tid (indices.foldl (DuraState.step bug.left thread.length) st).thread := by
    intro indices
    induction indices with
    | nil => exact fun st hst => hst
    | cons i indices ih => exact fun st hst => ih _ (DuraState.step_ofThread i hst)
  exact hloop _ (.init g thread) h

theorem repairMPB_ofThread {z : Solver Var} {g : Globals} {thread : Trace} {a b : Id}
    {previous : List (Formula Var)} {out : Repair} (h : OfThread tid thread)
    (hout : repairMPB z g thread a b previous = some out) : OfThread tid out.thread := by
  have hfenced : OfThread tid (fencedThread g thread a b) := by
    intro x hx
    rcases List.mem_append.mp hx with hx | hx
    · exact h x hx
    · obtain ⟨store, hmem, -, -, k, -, -, rfl⟩ := mem_mpbFences hx
      exact h store hmem
  rcases (repairMPB_cases hout).2 with ⟨-, heq⟩ | ⟨-, -, m, hsolved⟩
  · rwa [heq]
  · exact fun x hx => hfenced x (hsolved.perm.mem_iff.mp hx)

theorem repairThread_ofThread {z : Nat → Solver Var} {g : Globals} {thread : Trace}
    {bugs : List Bug} {transactCons : List (Formula Var)} {st : ThreadState}
    (h : OfThread tid thread) (hrun : repairThread z g thread bugs transactCons = some st) :
    OfThread tid st.thread := by
  have hloop : ∀ (bugs : List Bug) (k : Nat) (start : ThreadState), OfThread tid start.thread →
      repairBugs z k bugs start = some st → OfThread tid st.thread := by
    intro bugs
    induction bugs with
    | nil =>
        intro k start hstart hrun
        cases hrun
        exact hstart
    | cons bug bugs ih =>
        intro k start hstart hrun
        obtain ⟨next, hnext, hrest⟩ := Option.bind_eq_some_iff.mp hrun
        refine ih (k + 1) next ?_ hrest
        rcases repairBug_cases hnext with ⟨-, rfl⟩ | ⟨-, a, b, out, -, hout, rfl⟩
        · exact repairDURA_ofThread hstart
        · exact repairMPB_ofThread hstart hout
  exact hloop bugs 0 _ h hrun

end Tids

/-- The threads of a trace, in any order, each as some call of `repairThread` returns it. -/
structure RepairedThreads (trace : Trace) (family : List (Nat × Trace)) : Prop where
  tids : (family.map Prod.fst).Perm (trace.map Stmt.tid).dedup
  repaired : ∀ entry ∈ family, ∃ z g bugs transactCons st,
    repairThread z g (trace.filter fun x => x.tid = entry.1) bugs transactCons = some st ∧
      st.thread = entry.2

/-! ### The order within a thread -/

section Restrict

variable {tid : Nat} {earlier thread later trace : Trace} {id : Id}

theorem filter_eq_nil_of_subset {part : Trace} (h : ∀ x ∈ later, x.tid ≠ tid)
    (hsub : part ⊆ later) :
    part.filter (fun x => x.tid = tid) = [] := by
  rw [List.filter_eq_nil_iff]
  intro x hx
  simpa using h x (hsub hx)

theorem lead_subset (trace : Trace) : lead trace ⊆ trace := (List.takeWhile_sublist _).subset

theorem filter_lead (hthread : OfThread tid thread) (hlater : ∀ x ∈ later, x.tid ≠ tid) :
    (lead (thread ++ later)).filter (fun x => x.tid = tid) = lead thread := by
  induction thread with
  | nil => exact filter_eq_nil_of_subset hlater (lead_subset later)
  | cons x thread ih =>
      obtain ⟨hx, hrest⟩ := List.forall_mem_cons.mp hthread
      unfold lead at ih ⊢
      rw [List.cons_append, List.takeWhile_cons, List.takeWhile_cons]
      split
      · rw [List.filter_cons_of_pos (by simp [hx]), ih hrest]
      · rfl

/-- Statements of later threads do not show. -/
theorem filter_storeBlock_append (hthread : OfThread tid thread)
    (hlater : ∀ x ∈ later, x.tid ≠ tid) :
    (storeBlock id (thread ++ later)).filter (fun x => x.tid = tid) = storeBlock id thread := by
  induction thread with
  | nil => exact filter_eq_nil_of_subset hlater storeBlock_subset
  | cons x thread ih =>
      obtain ⟨hx, hrest⟩ := List.forall_mem_cons.mp hthread
      rw [List.cons_append, storeBlock, storeBlock, List.filter_append, ih hrest]
      congr 1
      split
      · rw [List.filter_cons_of_pos (by simp [hx]), filter_lead hrest hlater]
      · rfl

/-- Without a store in front of it a thread starts where it started. -/
theorem filter_recombine_of_no_store {seqs : List Id} (hearlier : ∀ x ∈ earlier, x.tid ≠ tid)
    (hnone : ∀ x ∈ earlier, x.isStore = false) (hothers : ∀ x ∈ earlier, x.id ∉ seqs)
    (hthread : OfThread tid thread) (hlater : ∀ x ∈ later, x.tid ≠ tid) :
    (recombine seqs (earlier ++ (thread ++ later))).filter (fun x => x.tid = tid) =
      lead thread ++ seqs.flatMap fun s => storeBlock s thread := by
  rw [recombine, List.filter_append, lead_append_of_no_store hnone, List.filter_append,
    filter_eq_nil_of_subset hearlier (List.Subset.refl _), List.nil_append,
    filter_lead hthread hlater, List.filter_flatMap]
  congr 1
  apply List.flatMap_congr
  intro s hs
  rw [storeBlock_append_of_absent fun x hx heq => hothers x hx (heq ▸ hs),
    filter_storeBlock_append hthread hlater]

/-- What stands in front of the first store of a thread follows the last store in front of it. -/
theorem filter_recombine_of_store {seqs : List Id} {front behind : Trace} {p : Stmt}
    (hfront : ∀ x ∈ front, x.tid ≠ tid) (hbehind : ∀ x ∈ behind, x.tid ≠ tid) (hp : p.tid ≠ tid)
    (hstore : p.isStore = true) (hnone : ∀ x ∈ behind, x.isStore = false)
    (hothers : ∀ x ∈ behind, x.id ∉ seqs) (hthread : OfThread tid thread)
    (hlater : ∀ x ∈ later, x.tid ≠ tid) :
    (recombine seqs (front ++ p :: (behind ++ (thread ++ later)))).filter (fun x => x.tid = tid) =
      seqs.flatMap fun s => (if p.id = s then lead thread else []) ++ storeBlock s thread := by
  rw [recombine, List.filter_append, lead_append_store hstore,
    filter_eq_nil_of_subset hfront (lead_subset front), List.nil_append, List.filter_flatMap]
  apply List.flatMap_congr
  intro s hs
  rw [storeBlock_append_store hstore, List.filter_append,
    filter_eq_nil_of_subset hfront storeBlock_subset, List.nil_append, storeBlock,
    List.filter_append, storeBlock_append_of_absent fun x hx heq => hothers x hx (heq ▸ hs),
    filter_storeBlock_append hthread hlater]
  congr 1
  split
  · rw [List.filter_cons_of_neg (by simpa using hp), lead_append_of_no_store hnone,
      List.filter_append, filter_eq_nil_of_subset hbehind (List.Subset.refl _), List.nil_append,
      filter_lead hthread hlater]
  · rfl

end Restrict

/-! ### The threads of one trace -/

section Families

variable {trace : Trace} {family : List (Nat × Trace)}

theorem perm_flatMap_filter {keys : List Nat} (hnodup : keys.Nodup) (trace : Trace) :
    (keys.flatMap fun key => trace.filter fun x => x.tid = key).Perm
      (trace.filter fun x => x.tid ∈ keys) := by
  induction keys with
  | nil => simp
  | cons key keys ih =>
      obtain ⟨hkey, hkeys⟩ := List.nodup_cons.mp hnodup
      -- cut the statements with a listed thread number by whether it is the first one
      have hcut := List.filter_append_perm (fun x => decide (x.tid = key))
        (trace.filter fun x => x.tid ∈ key :: keys)
      have hfirst : (trace.filter fun x => x.tid ∈ key :: keys).filter
          (fun x => decide (x.tid = key)) = trace.filter fun x => x.tid = key := by
        rw [List.filter_filter]
        apply List.filter_congr
        intro x _
        by_cases heq : x.tid = key <;> simp [heq]
      have hrest : (trace.filter fun x => x.tid ∈ key :: keys).filter
          (fun x => !decide (x.tid = key)) = trace.filter fun x => x.tid ∈ keys := by
        rw [List.filter_filter]
        apply List.filter_congr
        intro x _
        by_cases heq : x.tid = key
        · simp [heq, hkey]
        · simp [heq]
      rw [hfirst, hrest] at hcut
      exact ((ih hkeys).append_left _).trans hcut

namespace RepairedThreads

theorem tids_nodup (h : RepairedThreads trace family) : (family.map Prod.fst).Nodup :=
  h.tids.nodup_iff.mpr (List.nodup_dedup _)

theorem conserves (h : RepairedThreads trace family) {entry : Nat × Trace}
    (hentry : entry ∈ family) :
    Conserves (trace.filter fun x => x.tid = entry.1) entry.2 := by
  obtain ⟨z, g, bugs, transactCons, st, hrun, hthread⟩ := h.repaired entry hentry
  rw [← hthread]
  exact repairBugs_conserves hrun

theorem ofThread (h : RepairedThreads trace family) {entry : Nat × Trace}
    (hentry : entry ∈ family) :
    OfThread entry.1 entry.2 := by
  obtain ⟨z, g, bugs, transactCons, st, hrun, hthread⟩ := h.repaired entry hentry
  rw [← hthread]
  refine repairThread_ofThread (fun x hx => ?_) hrun
  simpa using (List.mem_filter.mp hx).2

theorem stores_perm (h : RepairedThreads trace family) :
    ((family.map Prod.snd).flatten.filter Stmt.isStore).Perm (trace.filter Stmt.isStore) := by
  have heq : (family.map Prod.snd).flatten.filter Stmt.isStore =
      (family.map Prod.fst).flatMap fun tid =>
        (trace.filter Stmt.isStore).filter fun x => x.tid = tid := by
    rw [List.filter_flatten, List.map_map, List.flatMap_map, List.flatMap_def]
    congr 1
    apply List.map_congr_left
    intro entry hentry
    rw [Function.comp_apply, (h.conserves hentry).stores, List.filter_comm]
  rw [heq]
  refine (perm_flatMap_filter h.tids_nodup _).trans ?_
  rw [List.filter_eq_self.mpr]
  intro x hx
  rw [decide_eq_true_eq, h.tids.mem_iff, List.mem_dedup]
  exact List.mem_map_of_mem (List.mem_filter.mp hx).1

theorem not_mem_storeSeqs (h : RepairedThreads trace family) (hnum : Numbered trace)
    {entry : Nat × Trace} (hentry : entry ∈ family) {x : Stmt} (hx : x ∈ entry.2)
    (hother : x.isStore = false) : x.id ∉ storeSeqs trace := by
  intro hmem
  obtain ⟨store, hstore, hid⟩ := List.mem_map.mp hmem
  obtain ⟨hstoreMem, hop⟩ := List.mem_filter.mp hstore
  obtain ⟨ins, hperm, hins⟩ := (h.conserves hentry).perm
  rcases List.mem_append.mp (hperm.mem_iff.mp hx) with hx | hx
  · have hsame := List.inj_on_of_nodup_map hnum.nodup hstoreMem (List.mem_filter.mp hx).1 hid
    rw [hsame, hother] at hop
    cases hop
  · -- the numbers of inserted statements are no line numbers
    obtain ⟨n, hline⟩ := hnum.line_of_mem hstoreMem
    obtain ⟨-, base, -, -, k, hinserted | hinserted⟩ := hins x hx
    · rw [hline, hinserted] at hid
      cases hid
    · rw [hline, hinserted] at hid
      cases hid

/-- The threads that step 1 repairs hold the stores of the trace. -/
theorem holdsStores (h : RepairedThreads trace family) (hnum : Numbered trace) :
    HoldsStores trace (family.map Prod.snd) := by
  refine ⟨h.stores_perm, ?_⟩
  intro x hx hother
  obtain ⟨thread, hthread, hmem⟩ := List.mem_flatten.mp hx
  obtain ⟨entry, hentry, rfl⟩ := List.mem_map.mp hthread
  exact h.not_mem_storeSeqs hnum hentry hmem hother

end RepairedThreads

/-- A thread starts with a statement that is no store, then all its stores come behind `p` in the
trace, `p` being the last store in front of the thread. -/
def LeadBehind (trace earlier thread : Trace) : Prop :=
  ∀ x, thread.head? = some x → x.isStore = false →
    ∀ p, (earlier.filter Stmt.isStore).getLast? = some p →
      ∀ s ∈ thread, s.isStore = true → Before trace p s

theorem flatMap_filter_of_nil {p : Stmt → Bool} {f : Stmt → Trace} {rows : Trace}
    (h : ∀ x ∈ rows, p x = false → f x = []) : (rows.filter p).flatMap f = rows.flatMap f := by
  induction rows with
  | nil => rfl
  | cons x rows ih =>
      obtain ⟨hx, hrows⟩ := List.forall_mem_cons.mp h
      cases hp : p x with
      | true => rw [List.filter_cons_of_pos hp, List.flatMap_cons, List.flatMap_cons, ih hrows]
      | false =>
          rw [List.filter_cons_of_neg (by simp [hp]), List.flatMap_cons, hx hp, ih hrows,
            List.nil_append]

theorem head?_storeBlock {id : Id} {thread : Trace}
    (h : ∀ x ∈ thread, x.id = id → x.isStore = true) {x : Stmt}
    (hx : (storeBlock id thread).head? = some x) : x.isStore = true := by
  induction thread with
  | nil => cases hx
  | cons y rest ih =>
      obtain ⟨hy, hrest⟩ := List.forall_mem_cons.mp h
      rw [storeBlock] at hx
      split at hx
      · rename_i hid
        cases hx
        exact hy hid
      · exact ih hrest hx

theorem head?_flatMap_storeBlock {ids : List Id} {thread : Trace}
    (h : ∀ id ∈ ids, ∀ x ∈ thread, x.id = id → x.isStore = true) {x : Stmt}
    (hx : (ids.flatMap fun id => storeBlock id thread).head? = some x) : x.isStore = true := by
  induction ids with
  | nil => cases hx
  | cons id ids ih =>
      obtain ⟨hid, hids⟩ := List.forall_mem_cons.mp h
      rw [List.flatMap_cons, List.head?_append, Option.or_eq_some_iff] at hx
      rcases hx with hx | ⟨-, hx⟩
      · exact head?_storeBlock hid hx
      · exact ih hids hx

theorem exists_last_store {p : Stmt} {rows : Trace}
    (h : (rows.filter Stmt.isStore).getLast? = some p) : ∃ front behind,
      rows = front ++ p :: behind ∧ p.isStore = true ∧ ∀ x ∈ behind, x.isStore = false := by
  obtain ⟨stores, hfilter⟩ := List.getLast?_eq_some_iff.mp h
  obtain ⟨front, rest, rfl, -, hrest⟩ := List.filter_eq_append_iff.mp hfilter
  obtain ⟨mid, behind, rfl, -, hstore, hbehind⟩ := List.filter_eq_cons_iff.mp hrest
  refine ⟨front ++ mid, behind, by simp, hstore, ?_⟩
  intro x hx
  exact Bool.eq_false_iff.mpr (List.filter_eq_nil_iff.mp hbehind x hx)

/-- What recombination sees of one thread. -/
structure ThreadOf (trace : Trace) (tid : Nat) (thread : Trace) : Prop where
  ofThread : OfThread tid thread
  stores : thread.filter Stmt.isStore =
    (trace.filter Stmt.isStore).filter fun x => x.tid = tid
  others : ∀ x ∈ thread, x.isStore = false → x.id ∉ storeSeqs trace

theorem RepairedThreads.threadOf (h : RepairedThreads trace family) (hnum : Numbered trace)
    {entry : Nat × Trace} (hentry : entry ∈ family) : ThreadOf trace entry.1 entry.2 := by
  refine ⟨h.ofThread hentry, ?_, fun x hx => h.not_mem_storeSeqs hnum hentry hx⟩
  rw [(h.conserves hentry).stores, List.filter_comm]

namespace ThreadOf

variable {tid : Nat} {thread : Trace}

theorem mem_trace (h : ThreadOf trace tid thread) {s : Stmt} (hs : s ∈ thread)
    (hstore : s.isStore = true) : s ∈ trace.filter Stmt.isStore := by
  have hmem : s ∈ thread.filter Stmt.isStore := List.mem_filter.mpr ⟨hs, hstore⟩
  rw [h.stores] at hmem
  exact (List.mem_filter.mp hmem).1

theorem isStore_of_id (h : ThreadOf trace tid thread) {id : Id} (hid : id ∈ storeSeqs trace)
    {x : Stmt} (hx : x ∈ thread) (heq : x.id = id) : x.isStore = true := by
  cases hother : x.isStore with
  | true => rfl
  | false => exact absurd (heq ▸ hid) (h.others x hx hother)

/-- The stores of other threads have no blocks in this one. -/
theorem storeBlock_eq_nil_of_tid (h : ThreadOf trace tid thread)
    (hids : (trace.map Stmt.id).Nodup) {s : Stmt} (hs : s ∈ trace.filter Stmt.isStore)
    (htid : s.tid ≠ tid) : storeBlock s.id thread = [] := by
  apply storeBlock_eq_nil
  intro x hx heq
  have hstore := h.isStore_of_id (List.mem_map_of_mem hs) hx heq
  have hmem := h.mem_trace hx hstore
  have hsame := List.inj_on_of_nodup_map hids (List.mem_filter.mp hmem).1
    (List.mem_filter.mp hs).1 heq
  exact htid (hsame ▸ h.ofThread x hx)

theorem ownNumbers (h : ThreadOf trace tid thread) (hids : (trace.map Stmt.id).Nodup) :
    OwnNumbers thread := by
  have hsub : (storeSeqs thread).Sublist (storeSeqs trace) := by
    rw [storeSeqs, h.stores]
    exact List.filter_sublist.map _
  refine ⟨(hids.sublist (List.filter_sublist.map _)).sublist hsub, ?_⟩
  exact fun x hx hother hmem => h.others x hx hother (hsub.subset hmem)

/-- In the order of the trace the blocks give the thread from its first store on. -/
theorem flatMap_storeBlock (h : ThreadOf trace tid thread) (hids : (trace.map Stmt.id).Nodup) :
    ((storeSeqs trace).flatMap fun s => storeBlock s thread) =
      thread.dropWhile fun x => !x.isStore := by
  rw [← (h.ownNumbers hids).flatMap_storeBlock, storeSeqs, storeSeqs, h.stores, List.flatMap_map,
    List.flatMap_map]
  refine (flatMap_filter_of_nil fun s hs htid => ?_).symm
  exact h.storeBlock_eq_nil_of_tid hids hs (by simpa using htid)

theorem filter_recombine_of_lead (h : ThreadOf trace tid thread)
    (hids : (trace.map Stmt.id).Nodup) {earlier later : Trace}
    (hearlier : ∀ x ∈ earlier, x.tid ≠ tid) (hlater : ∀ x ∈ later, x.tid ≠ tid)
    (hothers : ∀ x ∈ earlier, x.isStore = false → x.id ∉ storeSeqs trace)
    (hnone : ∀ x ∈ earlier, x.isStore = false) :
    (recombine (storeSeqs trace) (earlier ++ (thread ++ later))).filter (fun x => x.tid = tid) =
      thread := by
  rw [filter_recombine_of_no_store hearlier hnone (fun x hx => hothers x hx (hnone x hx))
    h.ofThread hlater, h.flatMap_storeBlock hids, lead_append_dropWhile]

/-- The blocks of the stores in front of `p`, the start of the thread, the blocks of the others. -/
theorem filter_recombine_split (h : ThreadOf trace tid thread) (hids : (trace.map Stmt.id).Nodup)
    {front behind later pre post : Trace} {p : Stmt}
    (hfront : ∀ x ∈ front, x.tid ≠ tid) (hbehind : ∀ x ∈ behind, x.tid ≠ tid) (hp : p.tid ≠ tid)
    (hlater : ∀ x ∈ later, x.tid ≠ tid) (hnone : ∀ x ∈ behind, x.isStore = false)
    (hothers : ∀ x ∈ behind, x.id ∉ storeSeqs trace)
    (hsplit : trace.filter Stmt.isStore = pre ++ p :: post) :
    (recombine (storeSeqs trace) (front ++ p :: (behind ++ (thread ++ later)))).filter
        (fun x => x.tid = tid) =
      ((pre.map Stmt.id).flatMap fun s => storeBlock s thread) ++
        (lead thread ++ (post.map Stmt.id).flatMap fun s => storeBlock s thread) ∧
    ((pre.map Stmt.id).flatMap fun s => storeBlock s thread) ++
        ((post.map Stmt.id).flatMap fun s => storeBlock s thread) =
      thread.dropWhile fun x => !x.isStore := by
  have hmem : p ∈ trace.filter Stmt.isStore := by rw [hsplit]; simp
  have hseqs : storeSeqs trace = pre.map Stmt.id ++ p.id :: post.map Stmt.id := by
    rw [storeSeqs, hsplit, List.map_append, List.map_cons]
  have hnodup : (storeSeqs trace).Nodup := hids.sublist (List.filter_sublist.map _)
  rw [hseqs, List.nodup_middle, List.nodup_cons, List.mem_append, not_or] at hnodup
  have hown : storeBlock p.id thread = [] := h.storeBlock_eq_nil_of_tid hids hmem hp
  have hblocks : ∀ {ids : List Id}, p.id ∉ ids →
      (ids.flatMap fun s => (if p.id = s then lead thread else []) ++ storeBlock s thread) =
        ids.flatMap fun s => storeBlock s thread := by
    intro ids hnot
    apply List.flatMap_congr
    intro s hs
    have hne : p.id ≠ s := by
      rintro rfl
      exact hnot hs
    rw [if_neg hne, List.nil_append]
  constructor
  · rw [filter_recombine_of_store hfront hbehind hp (List.mem_filter.mp hmem).2 hnone hothers
      h.ofThread hlater, hseqs, List.flatMap_append, List.flatMap_cons, hblocks hnodup.1.1,
      hblocks hnodup.1.2, if_pos rfl, hown, List.append_nil]
  · rw [← h.flatMap_storeBlock hids, hseqs, List.flatMap_append, List.flatMap_cons, hown,
      List.nil_append]

/-- Blocks in front of the start of the thread show, unless there are none or no start. -/
theorem append_lead_append_iff (h : ThreadOf trace tid thread) {ids : List Id} {rest : Trace}
    (hids : ∀ id ∈ ids, id ∈ storeSeqs trace)
    (hblocks : (ids.flatMap fun s => storeBlock s thread) ++ rest =
      thread.dropWhile fun x => !x.isStore) :
    (ids.flatMap fun s => storeBlock s thread) ++ (lead thread ++ rest) = thread ↔
      (∀ x, thread.head? = some x → x.isStore = false →
        (ids.flatMap fun s => storeBlock s thread) = []) := by
  constructor
  · intro heq x hx hother
    cases hfirst : ids.flatMap fun s => storeBlock s thread with
    | nil => rfl
    | cons y tail =>
        have hy : y.isStore = true := head?_flatMap_storeBlock
          (fun id hid x hx => h.isStore_of_id (hids id hid) hx) (by rw [hfirst]; rfl)
        rw [← heq, hfirst] at hx
        cases hx
        rw [hy] at hother
        cases hother
  · intro hnil
    cases hthread : thread.head? with
    | none =>
        rw [List.head?_eq_none_iff] at hthread
        rw [hthread] at hblocks ⊢
        exact hblocks
    | some x =>
        cases hstore : x.isStore with
        | true =>
            have hlead : lead thread = [] := by
              obtain ⟨tail, rfl⟩ := List.head?_eq_some_iff.mp hthread
              simp [lead, hstore]
            rw [hlead, List.nil_append, hblocks]
            rw [← List.nil_append (thread.dropWhile _), ← hlead, lead_append_dropWhile]
        | false =>
            have hempty := hnil x hthread hstore
            rw [hempty, List.nil_append] at hblocks
            rw [hempty, List.nil_append, hblocks, lead_append_dropWhile]

/-- No block stands in front of `p` exactly when the stores of the thread come behind `p`. -/
theorem blocks_eq_nil_iff (h : ThreadOf trace tid thread) (hids : (trace.map Stmt.id).Nodup)
    {pre post : Trace} {p : Stmt} (hp : p.tid ≠ tid)
    (hsplit : trace.filter Stmt.isStore = pre ++ p :: post) :
    ((pre.map Stmt.id).flatMap fun s => storeBlock s thread) = [] ↔
      ∀ s ∈ thread, s.isStore = true → Before trace p s := by
  have hnodup : (pre ++ p :: post).Nodup := by
    rw [← hsplit]
    exact hids.of_map.sublist List.filter_sublist
  rw [List.flatMap_map, List.flatMap_eq_nil_iff]
  constructor
  · intro hnil s hs hstore
    have hmem := h.mem_trace hs hstore
    rw [hsplit, List.mem_append, List.mem_cons] at hmem
    rcases hmem with hpre | rfl | hpost
    · -- the block of a store of the thread is not empty
      have hblock := (h.ownNumbers hids).filter_storeBlock hs hstore
      rw [hnil s hpre] at hblock
      cases hblock
    · exact absurd (h.ofThread s hs) hp
    · apply Before.of_filter (p := Stmt.isStore)
      rw [hsplit, List.append_cons]
      exact before_of_append (by simp) hpost
  · intro hbehind s hs
    by_cases htid : s.tid = tid
    · have hmem : s ∈ thread.filter Stmt.isStore := by
        rw [h.stores, hsplit]
        exact List.mem_filter.mpr ⟨by simp [hs], by simp [htid]⟩
      obtain ⟨hmem, hstore⟩ := List.mem_filter.mp hmem
      have hpstore : p.isStore = true := by
        have hpmem : p ∈ trace.filter Stmt.isStore := by rw [hsplit]; simp
        exact (List.mem_filter.mp hpmem).2
      have hbefore := (hbehind s hmem hstore).filter hpstore hstore
      rw [hsplit] at hbefore
      exact absurd (before_of_append hs (by simp)) (hbefore.asymm hnodup)
    · exact h.storeBlock_eq_nil_of_tid hids (by rw [hsplit]; simp [hs]) htid

/-- One thread comes back as it was exactly when its start has nothing to be moved behind. -/
theorem filter_recombine_iff (h : ThreadOf trace tid thread) (hids : (trace.map Stmt.id).Nodup)
    {earlier later : Trace} (hearlier : ∀ x ∈ earlier, x.tid ≠ tid)
    (hlater : ∀ x ∈ later, x.tid ≠ tid)
    (hstores : ∀ x ∈ earlier, x.isStore = true → x ∈ trace)
    (hothers : ∀ x ∈ earlier, x.isStore = false → x.id ∉ storeSeqs trace) :
    (recombine (storeSeqs trace) (earlier ++ (thread ++ later))).filter (fun x => x.tid = tid) =
      thread ↔ LeadBehind trace earlier thread := by
  cases hlast : (earlier.filter Stmt.isStore).getLast? with
  | none =>
      rw [List.getLast?_eq_none_iff, List.filter_eq_nil_iff] at hlast
      have hnone : ∀ x ∈ earlier, x.isStore = false :=
        fun x hx => Bool.eq_false_iff.mpr (hlast x hx)
      have hfilter : earlier.filter Stmt.isStore = [] := List.filter_eq_nil_iff.mpr hlast
      simp [h.filter_recombine_of_lead hids hearlier hlater hothers hnone, LeadBehind, hfilter]
  | some p =>
      obtain ⟨front, behind, rfl, hpstore, hnone⟩ := exists_last_store hlast
      have hp : p.tid ≠ tid := hearlier p (by simp)
      have hpmem : p ∈ trace.filter Stmt.isStore :=
        List.mem_filter.mpr ⟨hstores p (by simp) hpstore, hpstore⟩
      obtain ⟨pre, post, hsplit⟩ := List.append_of_mem hpmem
      obtain ⟨hfront, hbehind⟩ := List.forall_mem_append.mp hearlier
      have hids' : ∀ x ∈ behind, x.id ∉ storeSeqs trace :=
        fun x hx => hothers x (by simp [hx]) (hnone x hx)
      obtain ⟨hresult, hblocks⟩ := h.filter_recombine_split hids hfront
        (List.forall_mem_cons.mp hbehind).2 hp hlater hnone hids' hsplit
      have hpre : ∀ id ∈ pre.map Stmt.id, id ∈ storeSeqs trace := by
        intro id hid
        rw [storeSeqs, hsplit, List.map_append]
        exact List.mem_append_left _ hid
      rw [List.append_assoc, List.cons_append, hresult, h.append_lead_append_iff hpre hblocks,
        h.blocks_eq_nil_iff hids hp hsplit]
      unfold LeadBehind
      rw [hlast]
      simp

end ThreadOf

theorem RepairedThreads.tid_ne {before after : List (Nat × Trace)} {entry : Nat × Trace}
    (h : RepairedThreads trace (before ++ entry :: after)) {x : Stmt}
    (hx : x ∈ ((before ++ after).map Prod.snd).flatten) : x.tid ≠ entry.1 := by
  obtain ⟨thread, hthread, hmem⟩ := List.mem_flatten.mp hx
  obtain ⟨other, hother, rfl⟩ := List.mem_map.mp hthread
  have hnodup := h.tids_nodup
  rw [List.map_append, List.map_cons, List.nodup_middle, List.nodup_cons,
    ← List.map_append] at hnodup
  have hfamily : other ∈ before ++ entry :: after := by
    rcases List.mem_append.mp hother with hother | hother <;> simp [hother]
  rw [h.ofThread hfamily x hmem]
  rintro heq
  exact hnodup.1 (heq ▸ List.mem_map_of_mem hother)

theorem RepairedThreads.filter_recombine_iff {before after : List (Nat × Trace)}
    {entry : Nat × Trace} (h : RepairedThreads trace (before ++ entry :: after))
    (hnum : Numbered trace) :
    (recombine (storeSeqs trace) ((before ++ entry :: after).map Prod.snd).flatten).filter
        (fun x => x.tid = entry.1) = entry.2 ↔
      LeadBehind trace (before.map Prod.snd).flatten entry.2 := by
  have hholds := h.holdsStores hnum
  rw [List.map_append, List.map_cons] at hholds ⊢
  rw [List.flatten_append, List.flatten_cons]
  apply (h.threadOf hnum (by simp)).filter_recombine_iff hnum.nodup
  · intro x hx
    exact h.tid_ne (by rw [List.map_append, List.flatten_append]; exact List.mem_append_left _ hx)
  · intro x hx
    exact h.tid_ne (by rw [List.map_append, List.flatten_append]; exact List.mem_append_right _ hx)
  · intro x hx hstore
    have hmem := hholds.stores.mem_iff.mp (List.mem_filter.mpr ⟨?_, hstore⟩)
    · exact (List.mem_filter.mp hmem).1
    · simp [hx]
  · intro x hx
    exact hholds.others x (by simp [hx])

/-- Recombination gives every thread back as it was repaired exactly when, for each thread that
starts with a statement that is no store, the last store of the threads in front of it comes, in the
trace, in front of all its stores. -/
theorem recombine_threads_iff (trace : Trace) (family : List (Nat × Trace)) (hnum : Numbered trace)
    (h : RepairedThreads trace family) :
    (∀ entry ∈ family, (recombine (storeSeqs trace) (family.map Prod.snd).flatten).filter
        (fun x => x.tid = entry.1) = entry.2) ↔
      ∀ before entry after, family = before ++ entry :: after →
        LeadBehind trace (before.map Prod.snd).flatten entry.2 := by
  constructor
  · rintro heq before entry after rfl
    exact (h.filter_recombine_iff hnum).mp (heq entry (by simp))
  · intro hlead entry hentry
    obtain ⟨before, after, rfl⟩ := List.append_of_mem hentry
    exact (h.filter_recombine_iff hnum).mpr (hlead before entry after rfl)

theorem repairedThreads_self {tids : List Nat} (htids : tids.Perm (trace.map Stmt.tid).dedup) :
    RepairedThreads trace (tids.map fun tid => (tid, trace.filter fun x => x.tid = tid)) := by
  refine ⟨by simpa [List.map_map, Function.comp_def] using htids, ?_⟩
  intro entry hentry
  obtain ⟨tid, -, rfl⟩ := List.mem_map.mp hentry
  exact ⟨fun _ => .classical, .start, [], [], _, rfl, rfl⟩

/-- Both threads start with a store. -/
def storesFirst : Trace :=
  [⟨.line 2, .store, "0x10", "-1", 1, "g_1"⟩, ⟨.line 3, .fence, "0", "-1", 1, "g_2"⟩,
    ⟨.line 4, .store, "0x20", "-1", 0, "f_1"⟩]

theorem recombine_threads_storesFirst :
    RepairedThreads storesFirst
        ([0, 1].map fun tid => (tid, storesFirst.filter fun x => x.tid = tid)) ∧
      ∀ entry ∈ [0, 1].map fun tid => (tid, storesFirst.filter fun x => x.tid = tid),
        (recombine (storeSeqs storesFirst)
          (([0, 1].map fun tid => (tid, storesFirst.filter fun x => x.tid = tid)).map
            Prod.snd).flatten).filter (fun x => x.tid = entry.1) = entry.2 := by
  have hfamily := @repairedThreads_self storesFirst [0, 1] (by decide)
  refine ⟨hfamily, (recombine_threads_iff storesFirst _ rfl hfamily).mpr ?_⟩
  rintro before entry after hfamily x hx hstore
  have hmem : entry ∈ [0, 1].map fun tid => (tid, storesFirst.filter fun x => x.tid = tid) := by
    rw [hfamily]
    simp
  have hfirst : ∀ entry ∈ [0, 1].map fun tid => (tid, storesFirst.filter fun x => x.tid = tid),
      ∀ x, entry.2.head? = some x → x.isStore = true := by
    simp [storesFirst, Stmt.isStore]
  rw [hfirst entry hmem x hx] at hstore
  cases hstore

/-- A fence of thread 1, then a store of it, then a store of thread 0. -/
def fenceFirst : Trace :=
  [⟨.line 2, .fence, "0", "-1", 1, "g_1"⟩, ⟨.line 3, .store, "0x10", "-1", 1, "g_2"⟩,
    ⟨.line 4, .store, "0x20", "-1", 0, "f_1"⟩]

/-- With thread 0 in front, the fence of thread 1 comes back behind its store. -/
theorem recombine_threads_fenceFirst :
    ∃ family, Numbered fenceFirst ∧ RepairedThreads fenceFirst family ∧
      ∃ entry ∈ family, (recombine (storeSeqs fenceFirst) (family.map Prod.snd).flatten).filter
        (fun x => x.tid = entry.1) ≠ entry.2 := by
  refine ⟨[0, 1].map fun tid => (tid, fenceFirst.filter fun x => x.tid = tid), rfl,
    repairedThreads_self (by decide), (1, fenceFirst.filter fun x => x.tid = 1), by simp, ?_⟩
  decide

end Families

end PMBugRepair
