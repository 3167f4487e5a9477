import PMBugRepair.Persistency.Statements
import PMBugRepair.Step1.Regress
import PMBugRepair.Step1.Rows

/-!
# Crashes of a repaired trace

The solver of step 1 lets a fence persist every store in front of it, flushed or not. On persistent
memory a fence only waits for flushes. The order that an MPB bug asks for therefore survives a crash
when the DURA bug of its first store has been repaired before it: the flush is tied to the store,
and the fence of the MPB bug comes behind both. Without any flush of the address it never does.
-/

namespace PMBugRepair

open Persistency (ForcedBefore PersistsFirst)
open Schedule (Before position before_iff_position_lt)
open Smt (Formula Model Solver Satisfies)

/-! ### One repair -/

section Step

variable {z : Solver Var} {thread : Trace} {st st' : ThreadState}

/-- Processing the DURA bug of a store ties a flush to it. -/
theorem flushTied_of_dura {store : Stmt} (hmem : store ∈ st.thread) (hop : store.op = .store)
    (hstep : repairBug z st (.dura store.id) = some st') : FlushTied st' (.dura store.id) := by
  rcases repairBug_cases hstep with ⟨-, rfl⟩ | ⟨hinf, -⟩
  · intro hids
    obtain ⟨hconserves, -⟩ := repairDURA_conserves st.globals st.thread (.dura store.id)
    obtain ⟨ins, hperm, -⟩ := hconserves.perm
    have hids' := (hperm.map Stmt.id).nodup_iff.mp hids
    rw [List.map_append] at hids'
    obtain ⟨pre, post, honly⟩ := exists_onlyStore (List.nodup_append.mp hids').1 hmem hop
    obtain ⟨flush, new, hspec⟩ := exists_duraSpec st.globals honly (.dura store.id) rfl
    refine ⟨store, hconserves.subset hmem, flush, hspec.flush_mem, hop, rfl, hspec.op, hspec.addr,
      List.mem_append_right _ ?_⟩
    rw [hspec.constraints]
    exact List.mem_singleton.mpr rfl
  · rw [Bug.mentionsInf_dura] at hinf
    cases hinf

variable {c d : Id} {out : Repair} {m : Model Var}

/-- In a solved thread the flush stands directly behind its store. -/
theorem exists_flush_of_solved {store : Stmt} (htied : FlushTied st (.dura store.id))
    (hmem : store ∈ st.thread)
    (hsolved : Solved (fencedThread st.globals st.thread c d) c d st.constraints out.constraints m
      out.thread) :
    ∃ flush ∈ out.thread, flush.op = .flush ∧ flush.addr = store.addr ∧
      position out.thread flush = position out.thread store + 1 := by
  have hids := hsolved.placement.ids_nodup
  rw [fencedThread, List.map_append] at hids
  obtain ⟨store', hstore', flush, hflush, -, hid, hop, haddr, hadjacent⟩ :=
    htied (List.nodup_append.mp hids).1
  obtain rfl := List.inj_on_of_nodup_map (List.nodup_append.mp hids).1 hstore' hmem hid
  have hfenced : st.thread ⊆ fencedThread st.globals st.thread c d := List.subset_append_left _ _
  refine ⟨flush, hsolved.perm.mem_iff.mpr (hfenced hflush), hop, haddr, ?_⟩
  have hholds := holds_adjacent.mp ((satisfies_mpbAssertions.mp hsolved.model).2.1 _ hadjacent)
  rw [hsolved.position store' (hfenced hstore'), hsolved.position flush (hfenced hflush)] at hholds
  omega

/-- A solved call flushes and fences the first store in front of the second one, when its own fence
serves the two. -/
theorem forcedBefore_of_solved {first second : Stmt} {t : Nat} (hcarried : Carried thread st)
    (htied : FlushTied st (.dura first.id)) (hfirst : first ∈ st.thread)
    (hfirstOp : first.op = .store) (hsecond : second ∈ st.thread)
    (hserves : Serves thread c d (.mpb first.id second.id)) (hshares : SharesTransactions thread c d)
    (horder : InOrder st.thread c d) (htid : OfThread t out.thread)
    (hout : repairMPB z st.globals st.thread c d st.constraints = some out)
    (hsolved : Solved (fencedThread st.globals st.thread c d) c d st.constraints out.constraints m
      out.thread) : ForcedBefore memoryProgram out.thread first second := by
  have hfences : Conserves st.thread (fencedThread st.globals st.thread c d) :=
    mpbFences_conserves st.globals.r
  have hmpb := repairMPB_conserves hout
  have hconserves : Conserves thread out.thread := hcarried.conserves.trans hmpb
  have hids : (out.thread.map Stmt.id).Nodup :=
    (hsolved.perm.map Stmt.id).nodup_iff.mpr hsolved.placement.ids_nodup
  obtain ⟨left, right, hbefore, hleft, hc, hright, hd⟩ := hfences.inOrder_iff.mpr horder
  obtain ⟨fence, hfence, hfenceOp, hlow, hhigh⟩ := hsolved.fence_between
    (transactionConstraints_places (repairMPB_cases hout).1)
    (fun φ hφ => mem_getTransactionConstraints hφ) hcarried.shape hcarried.bounds hshares hbefore
    hleft hc hright hd
  rw [hsolved.position left hbefore.mem.1, hsolved.position fence hfence] at hlow
  rw [hsolved.position fence hfence, hsolved.position right hbefore.mem.2] at hhigh
  have hmem : ∀ stmt, stmt ∈ fencedThread st.globals st.thread c d ↔ stmt ∈ out.thread :=
    fun stmt => hsolved.perm.mem_iff.symm
  have hle : position out.thread first ≤ position out.thread left :=
    AtMost.position_le hconserves hids (hmpb.subset hfirst) ((hmem left).mp hbefore.mem.1)
      (hc ▸ hserves.1)
  have hge : position out.thread right ≤ position out.thread second :=
    AtMost.position_le hconserves hids ((hmem right).mp hbefore.mem.2) (hmpb.subset hsecond)
      (hd ▸ hserves.2)
  obtain ⟨flush, hflush, hflushOp, haddr, hnext⟩ := exists_flush_of_solved htied hfirst hsolved
  have hne : position out.thread flush ≠ position out.thread fence := by
    intro heq
    rw [Schedule.position_injOn hflush heq, hfenceOp] at hflushOp
    cases hflushOp
  have hnodup := hsolved.printed_nodup
  have hfenceMem := (hmem fence).mp hfence
  have hfirstFlush : Before out.thread first flush :=
    (before_iff_position_lt hnodup (hmpb.subset hfirst) hflush).mpr (by omega)
  have hflushFence : Before out.thread flush fence :=
    (before_iff_position_lt hnodup hflush hfenceMem).mpr (by omega)
  have hfenceSecond : Before out.thread fence second :=
    (before_iff_position_lt hnodup hfenceMem (hmpb.subset hsecond)).mpr (by omega)
  exact forcedBefore_iff.mpr ⟨flush, fence,
    hfirstFlush.cons_sublist hnodup (Schedule.triple_sublist hnodup hflushFence hfenceSecond),
    hfirstOp, hflushOp, haddr, hfenceOp, (htid fence hfenceMem).trans (htid flush hflush).symm⟩

end Step

/-! ### A run -/

/-- On the way through the bugs: a flush is tied to the first store, and the statements are still
those of one thread. -/
structure TiesFlush (thread : Trace) (t : Nat) (first : Stmt) (st : ThreadState) : Prop where
  carried : Carried thread st
  tied : FlushTied st (.dura first.id)
  ofThread : OfThread t st.thread

section Run

variable {z : Solver Var} {thread : Trace} {t : Nat} {first second : Stmt} {st st' : ThreadState}
  {bug : Bug}

theorem repairBug_ofThread (h : OfThread t st.thread) (hstep : repairBug z st bug = some st') :
    OfThread t st'.thread := by
  rcases repairBug_cases hstep with ⟨-, rfl⟩ | ⟨-, a, b, out, -, hout, rfl⟩
  · exact repairDURA_ofThread h
  · exact repairMPB_ofThread h hout

theorem TiesFlush.step (h : TiesFlush thread t first st) (hstep : repairBug z st bug = some st') :
    TiesFlush thread t first st' :=
  ⟨h.carried.step hstep, h.tied.mono (repairBug_conserves hstep) (repairBug_constraints hstep),
    repairBug_ofThread h.ofThread hstep⟩

/-- A harmless bug keeps the flush and the fence between the two stores. -/
theorem TiesFlush.forcedBefore_step (h : TiesFlush thread t first st) (hfirst : first ∈ thread)
    (hop : first.op = .store) (hsecond : second ∈ thread)
    (hforced : ForcedBefore memoryProgram st.thread first second)
    (hharmless : Harmless thread (.mpb first.id second.id) bug)
    (hstep : repairBug z st bug = some st') :
    ForcedBefore memoryProgram st'.thread first second := by
  have htid := repairBug_ofThread h.ofThread hstep
  rcases repairBug_cases hstep with ⟨-, rfl⟩ | ⟨hinf, c, d, out, rfl, hout, rfl⟩
  · exact hforced.mono (repairDURA_conserves st.globals st.thread bug).2
  · rcases (repairMPB_cases hout).2 with ⟨-, heq⟩ | ⟨-, horder, m, hsolved⟩
    · refine hforced.mono ?_
      change st.thread.Sublist out.thread
      rw [heq]
      exact List.sublist_append_left _ _
    · rcases hharmless with hinf' | hharmless
      · rw [hinf] at hinf'
        cases hinf'
      · obtain ⟨hserves, hshares⟩ :=
          hharmless c d rfl (h.carried.conserves.inOrder_iff.mp horder)
        have hsub := h.carried.conserves.subset
        exact forcedBefore_of_solved h.carried h.tied (hsub hfirst) hop (hsub hsecond) hserves
          hshares horder htid hout hsolved

theorem TiesFlush.forcedBefore_run {z : Nat → Solver Var} {k : Nat} {later : List Bug}
    (h : TiesFlush thread t first st) (hfirst : first ∈ thread) (hop : first.op = .store)
    (hsecond : second ∈ thread) (hforced : ForcedBefore memoryProgram st.thread first second)
    (hharmless : ∀ bug ∈ later, Harmless thread (.mpb first.id second.id) bug)
    (hrun : repairBugs z k later st = some st') :
    ForcedBefore memoryProgram st'.thread first second := by
  induction later generalizing k st with
  | nil =>
      cases hrun
      exact hforced
  | cons bug later ih =>
      obtain ⟨next, hstep, hrest⟩ := Option.bind_eq_some_iff.mp hrun
      obtain ⟨hbug, hlater⟩ := List.forall_mem_cons.mp hharmless
      exact ih (h.step hstep) (h.forcedBefore_step hfirst hop hsecond hforced hbug hstep) hlater
        hrest

/-- The DURA bug of the store ties a flush to it, and all later bugs keep it tied. -/
theorem tiesFlush_of_run {z : Nat → Solver Var} {g : Globals} {before : List Bug}
    (hthread : OfThread t thread) (hfirst : first ∈ thread) (hop : first.op = .store)
    (hdura : .dura first.id ∈ before)
    (hrun : repairThread z g thread before (getTransactionConstraints thread) = some st) :
    TiesFlush thread t first st := by
  obtain ⟨front, back, rfl⟩ := List.append_of_mem hdura
  rw [repairThread, repairBugs_append] at hrun
  obtain ⟨mid, hmid, hrest⟩ := Option.bind_eq_some_iff.mp hrun
  obtain ⟨next, hnext, hback⟩ := Option.bind_eq_some_iff.mp hrest
  obtain ⟨hcarried, htid⟩ : Carried thread mid ∧ OfThread t mid.thread := by
    refine repairBugs_invariant (P := fun _ now => Carried thread now ∧ OfThread t now.thread)
      ⟨⟨Conserves.refl _, fun φ hφ => .inr hφ, List.Subset.refl _⟩, hthread⟩ ?_ hmid
    exact fun _ _ _ _ _ hnow hstep => ⟨hnow.1.step hstep, repairBug_ofThread hnow.2 hstep⟩
  have hties : TiesFlush thread t first next := ⟨hcarried.step hnext,
    flushTied_of_dura (hcarried.conserves.subset hfirst) hop hnext, repairBug_ofThread htid hnext⟩
  exact repairBugs_invariant (P := fun _ now => TiesFlush thread t first now) hties
    (fun _ _ _ _ _ hnow hstep => hnow.step hstep) hback

/-- An MPB bug that comes up behind the DURA bug of its first store, in a consistent state, leaves
the first store flushed and fenced in front of the second. -/
theorem repairThread_forcedBefore {z : Nat → Solver Var} {g : Globals} {before later : List Bug}
    (htx : TxFree thread) (hids : (thread.map Stmt.id).Nodup)
    (hlines : ∀ stmt ∈ thread, ∃ n, stmt.id = .line n ∧ ¬infText <:+: digits n)
    (hthread : OfThread t thread) (hbefore : Before thread first second)
    (hfirst : first.op = .store) (hsecond : second.op = .store)
    (hdura : .dura first.id ∈ before)
    (honce : ∀ store ∈ thread, store.op = .store → (dispatched before).count store.id ≤ 1)
    (hlater : ∀ bug ∈ later, Harmless thread (.mpb first.id second.id) bug)
    (hrun : repairThread z g thread (before ++ .mpb first.id second.id :: later)
      (getTransactionConstraints thread) = some st') :
    ForcedBefore memoryProgram st'.thread first second := by
  have horder : InOrder thread first.id second.id := ⟨first, second, hbefore, hfirst, rfl, hsecond, rfl⟩
  rw [repairThread, repairBugs_append] at hrun
  obtain ⟨mid, hmid, hrest⟩ := Option.bind_eq_some_iff.mp hrun
  obtain ⟨next, hnext, hafter⟩ := Option.bind_eq_some_iff.mp hrest
  have hties := tiesFlush_of_run hthread hbefore.mem.1 hfirst hdura hmid
  rw [htx.getTransactionConstraints] at hmid
  obtain ⟨hsteady, -, hconsistent, -⟩ := repairBugs_dispatched (horder.steady htx g) hids
    (fun stmt hstmt => (hlines stmt hstmt).imp fun n hn => hn.1) rfl hmid
  refine (hties.step hnext).forcedBefore_run hbefore.mem.1 hfirst hbefore.mem.2 ?_ hlater hafter
  have htid := repairBug_ofThread hties.ofThread hnext
  rcases repairBug_cases hnext with ⟨hinf, -⟩ | ⟨-, a, b, out, hbug, hout, rfl⟩
  · rw [horder.mentionsInf hlines] at hinf
    cases hinf
  · obtain ⟨rfl, rfl⟩ := Bug.mpb.inj hbug
    have hmidOrder := hties.carried.conserves.inOrder_iff.mpr horder
    have hflag := (hconsistent honce).flag hsteady hmidOrder hout
    rcases (repairMPB_cases hout).2 with ⟨hdown, -⟩ | ⟨-, -, m, hsolved⟩
    · rw [hflag] at hdown
      cases hdown
    · have hsub := hties.carried.conserves.subset
      have hshares : SharesTransactions thread first.id second.id := by
        intro commit hmem
        rw [htx.getTransactionConstraints] at hmem
        cases hmem
      exact forcedBefore_of_solved hties.carried hties.tied (hsub hbefore.mem.1) hfirst
        (hsub hbefore.mem.2) ⟨.inl rfl, .inl rfl⟩ hshares hmidOrder htid hout hsolved

end Run

/-! ### The recombined trace -/

section Trace

variable {trace : Trace} {family : List (Nat × Trace)}

/-- From its first store on, a thread keeps its order. -/
theorem ThreadOf.dropWhile_sublist {thread earlier later : Trace} {tid : Nat}
    (h : ThreadOf trace tid thread) (hids : (trace.map Stmt.id).Nodup)
    (hearlier : ∀ x ∈ earlier, x.tid ≠ tid) (hlater : ∀ x ∈ later, x.tid ≠ tid)
    (hstores : ∀ x ∈ earlier, x.isStore = true → x ∈ trace)
    (hothers : ∀ x ∈ earlier, x.isStore = false → x.id ∉ storeSeqs trace) :
    (thread.dropWhile fun x => !x.isStore).Sublist
      (recombine (storeSeqs trace) (earlier ++ (thread ++ later))) := by
  refine List.Sublist.trans ?_ (List.filter_sublist (p := fun x => decide (x.tid = tid)))
  cases hlast : (earlier.filter Stmt.isStore).getLast? with
  | none =>
      rw [List.getLast?_eq_none_iff, List.filter_eq_nil_iff] at hlast
      have hnone : ∀ x ∈ earlier, x.isStore = false :=
        fun x hx => Bool.eq_false_iff.mpr (hlast x hx)
      rw [h.filter_recombine_of_lead hids hearlier hlater hothers hnone]
      exact List.dropWhile_sublist _
  | some p =>
      obtain ⟨front, behind, rfl, hpstore, hnone⟩ := exists_last_store hlast
      have hpmem : p ∈ trace.filter Stmt.isStore :=
        List.mem_filter.mpr ⟨hstores p (by simp) hpstore, hpstore⟩
      obtain ⟨pre, post, hsplit⟩ := List.append_of_mem hpmem
      obtain ⟨hfront, hbehind⟩ := List.forall_mem_append.mp hearlier
      have hids' : ∀ x ∈ behind, x.id ∉ storeSeqs trace :=
        fun x hx => hothers x (by simp [hx]) (hnone x hx)
      obtain ⟨hresult, hblocks⟩ := h.filter_recombine_split hids hfront
        (List.forall_mem_cons.mp hbehind).2 (hearlier p (by simp)) hlater hnone hids' hsplit
      rw [List.append_assoc, List.cons_append, hresult, ← hblocks]
      exact (List.sublist_append_right _ _).append_left _

theorem RepairedThreads.dropWhile_sublist {before after : List (Nat × Trace)}
    {entry : Nat × Trace} (h : RepairedThreads trace (before ++ entry :: after))
    (hnum : Numbered trace) :
    (entry.2.dropWhile fun x => !x.isStore).Sublist
      (recombine (storeSeqs trace) ((before ++ entry :: after).map Prod.snd).flatten) := by
  have hholds := h.holdsStores hnum
  have hother : ∀ x ∈ (before.map Prod.snd).flatten ++ (after.map Prod.snd).flatten,
      x.tid ≠ entry.1 := fun x hx => h.tid_ne (by rwa [List.map_append, List.flatten_append])
  obtain ⟨hearlier, hlater⟩ := List.forall_mem_append.mp hother
  rw [List.map_append, List.map_cons] at hholds ⊢
  rw [List.flatten_append, List.flatten_cons]
  refine (h.threadOf hnum (by simp)).dropWhile_sublist hnum.nodup hearlier hlater ?_ ?_
  · intro x hx hstore
    have hmem := hholds.stores.mem_iff.mp (List.mem_filter.mpr ⟨by simp [hx], hstore⟩)
    exact (List.mem_filter.mp hmem).1
  · exact fun x hx => hholds.others x (by simp [hx])

end Trace

/-- The DURA bug of the first store comes up in front of the MPB bug of the two, no store has been
sent to `repairDURA` twice by then, and the bugs behind do no harm. -/
structure FlushedThenFenced (trace : Trace) (bugs : List Bug) (t : Nat) (first second : Stmt) :
    Prop where
  txFree : TxFree (trace.filter fun x => x.tid = t)
  digits : ∀ x ∈ trace, x.tid = t → ¬infText <:+: x.id.str
  before : Before (trace.filter fun x => x.tid = t) first second
  first_op : first.op = .store
  second_op : second.op = .store
  bugs : ∃ before later, bugs = before ++ .mpb first.id second.id :: later ∧
    .dura first.id ∈ before ∧
    (∀ store ∈ trace, store.tid = t → store.op = .store →
      (dispatched before).count store.id ≤ 1) ∧
    ∀ bug ∈ later, Harmless (trace.filter fun x => x.tid = t) (.mpb first.id second.id) bug

/-- Step 1 leaves a flush and a fence between the two stores. -/
theorem FlushedThenFenced.forcedBefore {trace out : Trace} {bugs : List Bug} {t : Nat}
    {first second : Stmt} {family : List (Nat × Trace)}
    (h : FlushedThenFenced trace bugs t first second) (hnum : Numbered trace)
    (hby : RepairedBy trace bugs family out) :
    ForcedBefore memoryProgram (out.filter fun x => x.tid = t) first second := by
  obtain ⟨before, later, rfl, hdura, honce, hlater⟩ := h.bugs
  have hfamily := hby.threads
  have hmem : ∀ {x}, x ∈ trace.filter (fun x => x.tid = t) → x ∈ trace ∧ x.tid = t := fun hx => by
    simpa using List.mem_filter.mp hx
  obtain ⟨hfirst, htid⟩ := hmem h.before.mem.1
  obtain ⟨entry, hentry, rfl⟩ : ∃ entry ∈ family, entry.1 = t := by
    refine List.mem_map.mp (hfamily.tids.mem_iff.mpr ?_)
    rw [List.mem_dedup, ← htid]
    exact List.mem_map_of_mem hfirst
  obtain ⟨z, g, st, hrun, hst⟩ := hby.runs entry hentry
  obtain ⟨a, flush, fence, hsub, heffect⟩ :
      ForcedBefore memoryProgram entry.2 first second := by
    rw [← hst]
    refine repairThread_forcedBefore h.txFree (hnum.nodup.sublist (List.filter_sublist.map _)) ?_
      (fun x hx => (hmem hx).2) h.before h.first_op h.second_op hdura
      (fun store hstore => honce store (hmem hstore).1 (hmem hstore).2) hlater hrun
    intro stmt hstmt
    obtain ⟨n, hn⟩ := hnum.line_of_mem (hmem hstmt).1
    refine ⟨n, hn, fun hinf => h.digits stmt (hmem hstmt).1 (hmem hstmt).2 ?_⟩
    rwa [hn]
  obtain ⟨front, back, rfl⟩ := List.append_of_mem hentry
  have hstart := hfamily.dropWhile_sublist hnum
  rw [← hby.out_eq] at hstart
  have hcut := Lists.sublist_dropWhile (p := fun x => !x.isStore) hsub (by simp [h.first_op])
  have hown := (hcut.trans hstart).filter fun x => decide (x.tid = entry.1)
  rw [List.filter_eq_self.mpr fun x hx => by
    simpa using hfamily.ofThread hentry x (hsub.subset hx)] at hown
  exact ⟨a, flush, fence, hown, heffect⟩

/-- **Crash order of step 1.** Let an MPB bug come up behind the DURA bug of its first store, before
any store of the thread is sent to `repairDURA` twice, and let the bugs behind it be harmless. Then
in every interleaving of the trace that step 1 returns, a crash that keeps the second store keeps
the first one, and an execution that ends has persisted it. -/
theorem addConstraints_persistsFirst {z : Nat → Nat → Solver Var} {trace out : Trace}
    {bugs : List Bug} {tids : List Nat} {g : Globals} {t : Nat} {first second : Stmt}
    (hnum : Numbered trace) (htids : tids.Perm (trace.map Stmt.tid).dedup)
    (hbugs : FlushedThenFenced trace bugs t first second)
    (h : addConstraints z trace bugs tids = some (out, g)) {order : Trace}
    (horder : Schedule.Interleaving Stmt.tid out order) :
    PersistsFirst memoryProgram order first second ∧
      ∀ memory, Persistency.Run memoryProgram order memory → first ∈ memory.persisted := by
  obtain ⟨family, hby⟩ := addConstraints_runs htids h
  have hforced : ForcedBefore memoryProgram order first second := by
    refine (hbugs.forcedBefore hnum hby).mono ?_
    rw [← horder.2]
    exact List.filter_sublist
  exact ⟨hforced.persistsFirst ((horder.1.filter Stmt.isStore).nodup_iff.mpr
    (hby.stores_nodup hnum)) (by simp [hbugs.second_op]),
    fun memory hmemory => hmemory.persisted_of_forced hforced.forced⟩

theorem flushedThenFenced_twoStores :
    FlushedThenFenced twoStores [.dura (.line 2), .mpb (.line 2) (.line 3)] 0
      ⟨.line 2, .store, "0x10", "-1", 0, "f_1"⟩ ⟨.line 3, .store, "0x20", "-1", 0, "f_2"⟩ := by
  have hthread : (twoStores.filter fun x => x.tid = 0) = twoStores := by decide
  refine ⟨hthread ▸ twoStores_txFree, fun x hx _ => ?_, ?_, rfl, rfl,
    [.dura (.line 2)], [], rfl, by simp, by decide, by simp⟩
  · obtain ⟨n, hn, hdigits⟩ := twoStores_lines x hx
    rwa [hn]
  · rw [hthread]
    exact List.Sublist.refl _

/-- The DURA bug and the MPB bug of the first store. -/
theorem addConstraints_persistsFirst_twoStores :
    ∃ out g, addConstraints (fun _ _ => .classical) twoStores
        [.dura (.line 2), .mpb (.line 2) (.line 3)] [0] = some (out, g) ∧
      ∀ order, Schedule.Interleaving Stmt.tid out order →
        PersistsFirst memoryProgram order ⟨.line 2, .store, "0x10", "-1", 0, "f_1"⟩
          ⟨.line 3, .store, "0x20", "-1", 0, "f_2"⟩ ∧
        ∀ memory, Persistency.Run memoryProgram order memory →
          ⟨.line 2, .store, "0x10", "-1", 0, "f_1"⟩ ∈ memory.persisted := by
  obtain ⟨out, g, hout⟩ :=
    exists_addConstraints_twoStores [.dura (.line 2), .mpb (.line 2) (.line 3)]
  exact ⟨out, g, hout, fun order horder => @addConstraints_persistsFirst _ twoStores _ _ [0] _ 0 _ _
    rfl (by decide) flushedThenFenced_twoStores hout order horder⟩

/-! ### Without a flush -/

/-- **A fence alone orders nothing.** If no statement flushes the address of the first store and no
store to this address is sent to `repairDURA`, then no MPB repair makes it persist before a store to
another address, whatever the solvers answer. -/
theorem addConstraints_not_persistsFirst {z : Nat → Nat → Solver Var} {trace out : Trace}
    {bugs : List Bug} {tids : List Nat} {g : Globals} {first second : Stmt}
    (hnum : Numbered trace) (htids : tids.Perm (trace.map Stmt.tid).dedup)
    (hfirst : first.op = .store) (hmem : second ∈ trace) (hsecond : second.op = .store)
    (haddr : second.addr ≠ first.addr)
    (hflush : ∀ x ∈ trace, x.op = .flush → x.addr ≠ first.addr)
    (hdispatched : ∀ x ∈ trace, x.op = .store → x.id ∈ dispatched bugs → x.addr ≠ first.addr)
    (h : addConstraints z trace bugs tids = some (out, g)) {order : Trace}
    (horder : Schedule.Interleaving Stmt.tid out order) :
    ¬PersistsFirst memoryProgram order first second := by
  obtain ⟨family, hby⟩ := addConstraints_runs htids h
  have hflushes : ∀ x ∈ out, x.op = .flush → x.addr ≠ first.addr := by
    refine hby.forall_mem hnum ⟨?_, ?_, ?_⟩ hflush
    · exact fun store hmem hop hid k _ => hdispatched store hmem hop hid
    · rintro store - - - k ⟨⟩
    · rintro store - - - k ⟨⟩
  refine Persistency.not_persistsFirst_of_not_flush (a := first.addr) (by simp [hfirst]) ?_ ?_
    ⟨second.addr, by simp [hsecond]⟩ (by simp [hsecond, haddr])
  · intro x hx heffect
    obtain ⟨hop, heq⟩ := memoryProgram_flush_iff.mp heffect
    exact hflushes x (horder.1.mem_iff.mp hx) hop heq
  · have hstore : second ∈ out.filter Stmt.isStore := by
      rw [hby.stores_eq hnum]
      exact List.mem_filter.mpr ⟨hmem, by simp [hsecond]⟩
    exact horder.1.mem_iff.mpr (List.mem_filter.mp hstore).1

/-- The MPB bug alone. -/
theorem addConstraints_not_persistsFirst_twoStores :
    ∃ out g, addConstraints (fun _ _ => .classical) twoStores [.mpb (.line 2) (.line 3)] [0] =
        some (out, g) ∧
      ∀ order, Schedule.Interleaving Stmt.tid out order →
        ¬PersistsFirst memoryProgram order ⟨.line 2, .store, "0x10", "-1", 0, "f_1"⟩
          ⟨.line 3, .store, "0x20", "-1", 0, "f_2"⟩ := by
  obtain ⟨out, g, hout⟩ := exists_addConstraints_twoStores [.mpb (.line 2) (.line 3)]
  refine ⟨out, g, hout, fun order horder => ?_⟩
  exact @addConstraints_not_persistsFirst _ twoStores _ _ [0] _ _ _ rfl (by decide) rfl
    (by simp [twoStores]) rfl (by decide) (by decide) (by decide) hout order horder

end PMBugRepair
