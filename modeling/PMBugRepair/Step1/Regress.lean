import PMBugRepair.Step1.Complete

/-!
# Do later repairs keep earlier ones?

Every successful `repairMPB` places all statements anew, and only flush equations and transaction
constraints are carried from one bug to the next. The fence an earlier bug relies on is therefore
free to move. What a later MPB bug does force is one fence between its own two stores, and the
flushes stay behind their stores; so an earlier guarantee survives when such a fence serves it too.
-/

namespace PMBugRepair

open Smt (Formula Term Model Solver Satisfies satisfies_append)
open Schedule (Before position before_iff_position_lt)

/-- One store is the other or stands before it. -/
def AtMost (thread : Trace) (a b : Id) : Prop := a = b ∨ InOrder thread a b

/-- A fence between the stores `c` and `d` also serves the guarantee of the bug. -/
def Serves (thread : Trace) (c d : Id) : Bug → Prop
  | .dura s => AtMost thread s c
  | .mpb a b => AtMost thread a c ∧ AtMost thread d b

/-- Every transaction of the thread that encloses `c` encloses `d` too. -/
def SharesTransactions (thread : Trace) (c d : Id) : Prop :=
  ∀ commit, .lt (.var (.pt c)) (pc commit) ∈ getTransactionConstraints thread →
    .lt (.var (.pt d)) (pc commit) ∈ getTransactionConstraints thread

/-- A later bug that does not put the guarantee at risk: it goes to `repairDURA`, it is no MPB bug
of this thread, or the fence it forces serves the guarantee. -/
def Harmless (thread : Trace) (bug later : Bug) : Prop :=
  later.mentionsInf = true ∨ ∀ c d, later = .mpb c d → InOrder thread c d →
    Serves thread c d bug ∧ SharesTransactions thread c d

/-! ### The fence a solved bug forces -/

section Solved

variable {thread printed : Trace} {c d : Id} {previous transact : List (Formula Var)}
  {m : Model Var}

/-- What the carried constraints may say: something about places, or a bound of a transaction. -/
def PlacesOrBounds (bounds : List (Formula Var)) (φ : Formula Var) : Prop :=
  (∀ v ∈ φ.vars, ∃ id, v = .pc id) ∨ φ ∈ bounds

theorem Solved.fence_between (h : Solved thread c d previous transact m printed)
    (htransact : ∀ φ ∈ transact, PlacesOnly thread φ) {bounds : List (Formula Var)}
    (hbounds : ∀ φ ∈ bounds, ∃ s commit, φ = .lt (.var (.pt s)) (pc commit))
    (hprevious : ∀ φ ∈ previous, PlacesOrBounds bounds φ) (hsub : bounds ⊆ previous)
    (hshares : ∀ commit, .lt (.var (.pt c)) (pc commit) ∈ bounds →
      .lt (.var (.pt d)) (pc commit) ∈ bounds) {first second : Stmt}
    (hbefore : Before thread first second) (hfirst : first.op = .store) (hc : first.id = c)
    (hsecond : second.op = .store) (hd : second.id = d) :
    ∃ fence ∈ thread, fence.op = .fence ∧ m.val (.pc first.id) < m.val (.pc fence.id) ∧
      m.val (.pc fence.id) < m.val (.pc second.id) := by
  by_contra hnone
  obtain ⟨hfit, hmodelPrevious, hmodelTransact, hdistinct⟩ := satisfies_mpbAssertions.mp h.model
  have hids := h.placement.ids_nodup
  have hlt : m.val (.pc first.id) < m.val (.pc second.id) :=
    (hbefore.filter (by simpa using hfirst) (by simpa using hsecond)).rel hfit.order
  -- both stores persist when the second one executes
  set σ : Var → Int := fun v =>
    if v = .pt c ∨ v = .pt d then m.val (.pc second.id) else m.val v with hσ
  have hpc : ∀ id, σ (.pc id) = m.val (.pc id) := by simp [hσ]
  have hptFirst : σ (.pt c) = m.val (.pc second.id) := by simp [hσ]
  have hptSecond : σ (.pt d) = m.val (.pc second.id) := by simp [hσ]
  have hpersistSecond := hfit.persists second hbefore.mem.2 hsecond
  have hbound : ∀ commit, .lt (.var (.pt d)) (pc commit) ∈ previous →
      m.val (.pc second.id) < m.val (.pc commit.id) := by
    intro commit hmem
    have hholds : m.val (.pt d) < m.val (.pc commit.id) := hmodelPrevious _ hmem
    rw [hd] at hpersistSecond ⊢
    omega
  refine absurd (h.safe σ (fun stmt _ => hpc stmt.id) ?_) (by rw [hptFirst, hptSecond]; omega)
  refine satisfies_mpbAssertions.mpr ⟨⟨?_, ?_, ?_, ?_⟩, ?_, ?_, ?_⟩
  · simpa only [hpc] using hfit.bounds
  · simpa only [hpc] using hfit.order
  · intro stmt hmem hop
    rw [hpc]
    by_cases hstmt : stmt.id = c ∨ stmt.id = d
    · rcases hstmt with hstmt | hstmt
      · obtain rfl := List.inj_on_of_nodup_map hids hmem hbefore.mem.1 (hstmt.trans hc.symm)
        rw [hstmt, hptFirst, ← hstmt]
        exact hlt.le
      · obtain rfl := List.inj_on_of_nodup_map hids hmem hbefore.mem.2 (hstmt.trans hd.symm)
        rw [hstmt, hptSecond, hstmt]
    · have hsame : σ (.pt stmt.id) = m.val (.pt stmt.id) := by
        simp only [hσ, Var.pt.injEq, hstmt, if_false]
      rw [hsame]
      exact hfit.persists stmt hmem hop
  · intro store fence hbeforeFence hop hbug hfence hltFence
    rw [hpc, hpc] at hltFence
    rw [hpc]
    rcases hbug with hbug | hbug
    · obtain rfl := List.inj_on_of_nodup_map hids hbeforeFence.mem.1 hbefore.mem.1
        (hbug.trans hc.symm)
      rw [hbug, hptFirst]
      by_contra hgt
      exact hnone ⟨fence, hbeforeFence.mem.2, hfence, hltFence, by omega⟩
    · obtain rfl := List.inj_on_of_nodup_map hids hbeforeFence.mem.1 hbefore.mem.2
        (hbug.trans hd.symm)
      rw [hbug, hptSecond]
      exact hltFence.le
  · intro φ hφ
    rcases hprevious φ hφ with hplaces | hmem
    · refine (Formula.holds_congr fun v hv => ?_).mpr (hmodelPrevious φ hφ)
      obtain ⟨id, rfl⟩ := hplaces v hv
      exact hpc id
    · obtain ⟨s, commit, rfl⟩ := hbounds φ hmem
      change σ (.pt s) < σ (.pc commit.id)
      rw [hpc]
      by_cases hs : s = c ∨ s = d
      · rcases hs with rfl | rfl
        · rw [hptFirst]
          exact hbound commit (hsub (hshares commit hmem))
        · rw [hptSecond]
          exact hbound commit hφ
      · have hsame : σ (.pt s) = m.val (.pt s) := by
          simp only [hσ, Var.pt.injEq, hs, if_false]
        rw [hsame]
        exact hmodelPrevious _ hφ
  · refine (Smt.satisfies_congr fun φ hφ v hv => ?_).mpr hmodelTransact
    obtain ⟨stmt, -, rfl⟩ := htransact φ hφ v hv
    exact hpc stmt.id
  · simpa only [hpc] using hdistinct

end Solved

theorem AtMost.position_le {thread printed : Trace} (hconserves : Conserves thread printed)
    (hids : (printed.map Stmt.id).Nodup) {x y : Stmt} (hx : x ∈ printed) (hy : y ∈ printed)
    (h : AtMost thread x.id y.id) : position printed x ≤ position printed y := by
  rcases h with heq | horder
  · rw [List.inj_on_of_nodup_map hids hx hy heq]
  · obtain ⟨first, second, hbefore, -, hfirst, -, hsecond⟩ :=
      hconserves.inOrder_iff.mpr horder
    obtain rfl := List.inj_on_of_nodup_map hids hbefore.mem.1 hx hfirst
    obtain rfl := List.inj_on_of_nodup_map hids hbefore.mem.2 hy hsecond
    exact (hbefore.position_lt hids.of_map).le

/-! ### The carried constraints -/

theorem mem_getTransactionConstraints {thread : Trace} {φ : Formula Var}
    (h : φ ∈ getTransactionConstraints thread) :
    ∃ s commit, φ = .lt (.var (.pt s)) (pc commit) := by
  obtain ⟨-, -, commit, -, x, -, rfl⟩ := mem_getTransactionConstraints_iff.mp h
  exact ⟨x.id, commit, rfl⟩

/-- What is carried from bug to bug on a thread. -/
structure Carried (thread : Trace) (st : ThreadState) : Prop where
  conserves : Conserves thread st.thread
  shape : ∀ φ ∈ st.constraints, PlacesOrBounds (getTransactionConstraints thread) φ
  bounds : getTransactionConstraints thread ⊆ st.constraints

theorem Carried.step {thread : Trace} {z : Solver Var} {st st' : ThreadState} {bug : Bug}
    (h : Carried thread st) (hstep : repairBug z st bug = some st') : Carried thread st' := by
  refine ⟨h.conserves.trans (repairBug_conserves hstep), ?_,
    List.Subset.trans h.bounds (repairBug_constraints hstep)⟩
  rcases repairBug_cases hstep with ⟨-, rfl⟩ | ⟨-, a, b, out, -, hout, rfl⟩
  · intro φ hφ
    rcases List.mem_append.mp hφ with hφ | hφ
    · exact h.shape φ hφ
    · obtain ⟨store, -, flush, -, rfl⟩ := repairDURA_tiesOnly st.globals st.thread bug φ hφ
      refine .inl fun v hv => ?_
      obtain rfl | rfl : v = .pc store.id ∨ v = .pc flush.id := by
        simpa [adjacent, Formula.vars, Term.vars, pc] using hv
      exacts [⟨_, rfl⟩, ⟨_, rfl⟩]
  · intro φ hφ
    rcases List.mem_append.mp hφ with hφ | hφ
    · exact h.shape φ hφ
    · refine .inl fun v hv => ?_
      obtain ⟨stmt, -, rfl⟩ := transactionConstraints_places (repairMPB_cases hout).1 φ hφ v hv
      exact ⟨_, rfl⟩

/-! ### Guarantees along a run -/

/-- The flush equation behind the guarantee of a DURA bug. It is needed only while the numbers of
the thread differ: otherwise no later call solves anything. -/
def FlushTied (st : ThreadState) : Bug → Prop
  | .dura s => (st.thread.map Stmt.id).Nodup → ∃ store ∈ st.thread, ∃ flush ∈ st.thread,
      store.op = .store ∧ store.id = s ∧ flush.op = .flush ∧ flush.addr = store.addr ∧
        adjacent store flush ∈ st.constraints
  | .mpb _ _ => True

theorem FlushTied.mono {st st' : ThreadState} {bug : Bug} (h : FlushTied st bug)
    (hconserves : Conserves st.thread st'.thread) (hcons : st.constraints ⊆ st'.constraints) :
    FlushTied st' bug := by
  cases bug with
  | mpb a b => trivial
  | dura s =>
      intro hids
      obtain ⟨ins, hperm, -⟩ := hconserves.perm
      have hids' := (hperm.map Stmt.id).nodup_iff.mp hids
      rw [List.map_append] at hids'
      obtain ⟨store, hstore, flush, hflush, hop, hid, hflushOp, haddr, hmem⟩ :=
        h (List.nodup_append.mp hids').1
      exact ⟨store, hconserves.subset hstore, flush, hconserves.subset hflush, hop, hid, hflushOp,
        haddr, hcons hmem⟩

/-- Processing a DURA bug leaves its flush equation behind. -/
theorem flushTied_of_repairBug {z : Solver Var} {st st' : ThreadState} {bug : Bug}
    (hstep : repairBug z st bug = some st') (hguarantee : Guarantee st'.thread bug) :
    FlushTied st' bug := by
  cases bug with
  | mpb a b => trivial
  | dura s =>
      rcases repairBug_cases hstep with ⟨-, rfl⟩ | ⟨hinf, -⟩
      · intro hids
        obtain ⟨store, hop, hid, flush, fence, hsub, -⟩ := hguarantee
        obtain ⟨hconserves, -⟩ := repairDURA_conserves st.globals st.thread (.dura s)
        have hstore : store ∈ st.thread :=
          (hconserves.mem_store_iff hop).mp (hsub.subset List.mem_cons_self)
        obtain ⟨ins, hperm, -⟩ := hconserves.perm
        have hids' := (hperm.map Stmt.id).nodup_iff.mp hids
        rw [List.map_append] at hids'
        obtain ⟨pre, post, honly⟩ := exists_onlyStore (List.nodup_append.mp hids').1 hstore hop
        obtain ⟨flush', new, hspec⟩ := exists_duraSpec st.globals honly (.dura s) hid.symm
        refine ⟨store, hconserves.subset hstore, flush', hspec.flush_mem, hop, hid, hspec.op,
          hspec.addr, List.mem_append_right _ ?_⟩
        rw [hspec.constraints]
        exact List.mem_singleton.mpr rfl
      · rw [Bug.mentionsInf_dura] at hinf
        cases hinf

section Step

variable {thread : Trace} {z : Solver Var} {st st' : ThreadState} {bug later : Bug}

/-- A solved call keeps the guarantee when the fence it forces serves it. -/
theorem Guarantee.solved {c d : Id} {out : Repair} (hguarantee : Guarantee st.thread bug)
    (hcarried : Carried thread st) (htied : FlushTied st bug) (hserves : Serves thread c d bug)
    (hshares : SharesTransactions thread c d) (horder : InOrder st.thread c d)
    (hout : repairMPB z st.globals st.thread c d st.constraints = some out) {m : Model Var}
    (hsolved : Solved (fencedThread st.globals st.thread c d) c d st.constraints out.constraints m
      out.thread) : Guarantee out.thread bug := by
  set fenced := fencedThread st.globals st.thread c d with hfenced
  have hfences : Conserves st.thread fenced := mpbFences_conserves st.globals.r
  have hconserves : Conserves thread out.thread :=
    hcarried.conserves.trans (repairMPB_conserves hout)
  have hids : (out.thread.map Stmt.id).Nodup :=
    (hsolved.perm.map Stmt.id).nodup_iff.mpr hsolved.placement.ids_nodup
  obtain ⟨first, second, hbefore, hfirst, hc, hsecond, hd⟩ := hfences.inOrder_iff.mpr horder
  obtain ⟨fence, hfence, hfenceOp, hlow, hhigh⟩ := hsolved.fence_between
    (transactionConstraints_places (repairMPB_cases hout).1)
    (fun φ hφ => mem_getTransactionConstraints hφ) hcarried.shape hcarried.bounds hshares hbefore
    hfirst hc hsecond hd
  have hmem : ∀ stmt, stmt ∈ fenced ↔ stmt ∈ out.thread := fun stmt => hsolved.perm.mem_iff.symm
  rw [hsolved.position first hbefore.mem.1, hsolved.position fence hfence] at hlow
  rw [hsolved.position fence hfence, hsolved.position second hbefore.mem.2] at hhigh
  have hnodup := hsolved.printed_nodup
  cases bug with
  | mpb a b =>
      obtain ⟨left, mark, right, hsub, hleft, ha, -, hright, hb⟩ := hguarantee
      have hstores : ∀ {stmt}, stmt.op = .store → (stmt ∈ st.thread → stmt ∈ out.thread) :=
        fun {stmt} _ hstmt => (repairMPB_conserves hout).subset hstmt
      have hleftMem := hstores hleft (hsub.subset (by simp))
      have hrightMem := hstores hright (hsub.subset (by simp))
      have hle : position out.thread left ≤ position out.thread first := by
        refine AtMost.position_le hconserves hids hleftMem ((hmem first).mp hbefore.mem.1) ?_
        rw [ha, hc]
        exact hserves.1
      have hge : position out.thread second ≤ position out.thread right := by
        refine AtMost.position_le hconserves hids ((hmem second).mp hbefore.mem.2) hrightMem ?_
        rw [hd, hb]
        exact hserves.2
      refine ⟨left, fence, right, ?_, hleft, ha, hfenceOp, hright, hb⟩
      refine Schedule.triple_sublist hnodup ?_ ?_
      · exact (before_iff_position_lt hnodup hleftMem ((hmem fence).mp hfence)).mpr (by omega)
      · exact (before_iff_position_lt hnodup ((hmem fence).mp hfence) hrightMem).mpr (by omega)
  | dura s =>
      have hold : (st.thread.map Stmt.id).Nodup := by
        have hids' := hsolved.placement.ids_nodup
        rw [hfenced, fencedThread, List.map_append] at hids'
        exact (List.nodup_append.mp hids').1
      obtain ⟨store, hstore, flush, hflush, hop, hid, hflushOp, haddr, hadjacent⟩ := htied hold
      have hstoreMem := hfences.subset hstore
      have hflushMem := hfences.subset hflush
      have hle : position out.thread store ≤ position out.thread first := by
        refine AtMost.position_le hconserves hids ((hmem store).mp hstoreMem)
          ((hmem first).mp hbefore.mem.1) ?_
        rw [hid, hc]
        exact hserves
      have hnext : position out.thread flush = position out.thread store + 1 := by
        have hholds := holds_adjacent.mp
          ((satisfies_mpbAssertions.mp hsolved.model).2.1 _ hadjacent)
        rw [hsolved.position store hstoreMem, hsolved.position flush hflushMem] at hholds
        omega
      have hne : position out.thread flush ≠ position out.thread fence := by
        intro heq
        have hsame := Schedule.position_injOn ((hmem flush).mp hflushMem) heq
        rw [hsame, hfenceOp] at hflushOp
        cases hflushOp
      refine ⟨store, hop, hid, flush, fence, ?_, hflushOp, haddr, hfenceOp⟩
      refine Schedule.triple_sublist hnodup ?_ ?_
      · exact (before_iff_position_lt hnodup ((hmem store).mp hstoreMem)
          ((hmem flush).mp hflushMem)).mpr (by omega)
      · exact (before_iff_position_lt hnodup ((hmem flush).mp hflushMem)
          ((hmem fence).mp hfence)).mpr (by omega)

/-- One harmless bug keeps the guarantee. -/
theorem Guarantee.step (hguarantee : Guarantee st.thread bug) (hcarried : Carried thread st)
    (htied : FlushTied st bug) (hharmless : Harmless thread bug later)
    (hstep : repairBug z st later = some st') : Guarantee st'.thread bug := by
  rcases repairBug_cases hstep with ⟨-, rfl⟩ | ⟨hinf, c, d, out, rfl, hout, rfl⟩
  · exact hguarantee.mono (repairDURA_conserves st.globals st.thread later).2
  · rcases (repairMPB_cases hout).2 with ⟨-, heq⟩ | ⟨-, horder, m, hsolved⟩
    · refine hguarantee.mono ?_
      change st.thread.Sublist out.thread
      rw [heq]
      exact List.sublist_append_left _ _
    · rcases hharmless with hinf' | hharmless
      · rw [hinf] at hinf'
        cases hinf'
      · obtain ⟨hserves, hshares⟩ :=
          hharmless c d rfl (hcarried.conserves.inOrder_iff.mp horder)
        exact hguarantee.solved hcarried htied hserves hshares horder hout hsolved

end Step

/-- **Later repairs keep a guarantee** as long as none of them is an MPB bug whose fence may come
from somewhere else. -/
theorem repairThread_keeps_guarantee {z : Nat → Solver Var} {g : Globals} {thread : Trace}
    {seen : List Bug} {bug : Bug} {later : List Bug} {st st' : ThreadState}
    (hmid : repairThread z g thread (seen ++ [bug]) (getTransactionConstraints thread) = some st)
    (hguarantee : Guarantee st.thread bug) (hharmless : ∀ b ∈ later, Harmless thread bug b)
    (h : repairThread z g thread (seen ++ [bug] ++ later) (getTransactionConstraints thread) =
      some st') :
    Guarantee st'.thread bug := by
  have hcarried : Carried thread st := by
    refine repairBugs_invariant (P := fun _ now => Carried thread now) ?_ ?_ hmid
    · exact ⟨Conserves.refl _, fun φ hφ => .inr hφ, List.Subset.refl _⟩
    · exact fun _ _ _ _ _ hnow hstep => hnow.step hstep
  have htied : FlushTied st bug := by
    rw [repairThread, repairBugs_append] at hmid
    obtain ⟨before, -, hlast⟩ := Option.bind_eq_some_iff.mp hmid
    obtain ⟨after, hstep, hnil⟩ := Option.bind_eq_some_iff.mp hlast
    cases hnil
    exact flushTied_of_repairBug hstep hguarantee
  rw [repairThread, repairBugs_append] at h
  obtain ⟨mid, hmid', hlater⟩ := Option.bind_eq_some_iff.mp h
  obtain rfl := Option.some.inj (hmid.symm.trans hmid')
  generalize 0 + (seen ++ [bug]).length = k at hlater
  clear h hmid hmid'
  induction later generalizing k st with
  | nil =>
      cases hlater
      exact hguarantee
  | cons b later ih =>
      obtain ⟨next, hstep, hrest⟩ := Option.bind_eq_some_iff.mp hlater
      exact ih (hguarantee.step hcarried htied (hharmless b List.mem_cons_self) hstep)
        (fun b' hb' => hharmless b' (List.mem_cons_of_mem b hb')) (hcarried.step hstep)
        (htied.mono (repairBug_conserves hstep) (repairBug_constraints hstep)) (k + 1) hrest

theorem repairThread_keeps_guarantee_single :
    ∃ st st', repairThread (fun _ => .classical) .start twoStores [.dura (.line 2)] [] = some st ∧
      Guarantee st.thread (.dura (.line 2)) ∧
      repairThread (fun _ => .classical) .start twoStores
        [.dura (.line 2), .mpb (.line 2) (.line 3)] [] = some st' ∧
      Guarantee st'.thread (.dura (.line 2)) := by
  have htx := twoStores_txFree
  have hcons := htx.getTransactionConstraints
  obtain ⟨st, hst⟩ : ∃ st, repairThread (fun _ => .classical) .start twoStores [.dura (.line 2)]
      [] = some st := ⟨_, rfl⟩
  have hthread : st.thread = (repairDURA .start twoStores (.dura (.line 2))).thread := by
    cases hst
    rfl
  have hguarantee : Guarantee st.thread (.dura (.line 2)) := by
    rw [hthread]
    refine ⟨⟨.line 2, .store, "0x10", "-1", 0, "f_1"⟩, rfl, rfl,
      ⟨.inserted (.line 2) 0, .flush, "0x10", "-1", 0, "f_1_x"⟩,
      ⟨.inserted (.line 2) 1, .fence, "0", "-1", 0, "f_1_x"⟩, ?_, rfl, rfl, rfl⟩
    decide
  obtain ⟨st', hst'⟩ := (twoStores_inOrder.steady htx .start).exists_run
    (z := fun _ => .classical) (k := 0) [.dura (.line 2), .mpb (.line 2) (.line 3)]
  refine ⟨st, st', hst, hguarantee, hst', ?_⟩
  refine @repairThread_keeps_guarantee (fun _ => .classical) .start twoStores [] (.dura (.line 2))
    [.mpb (.line 2) (.line 3)] st st' (by rw [hcons]; exact hst) hguarantee ?_
    (by rw [hcons]; exact hst')
  intro b hb
  obtain rfl := List.mem_singleton.mp hb
  refine .inr fun c d heq _ => ?_
  obtain ⟨rfl, rfl⟩ := Bug.mpb.inj heq
  exact ⟨.inl rfl, fun commit hmem => by simp [hcons] at hmem⟩

/-! ### A fence that moves away -/

/-- The model in which the statements stand in a given order and persist at once. -/
def modelOf (order : Trace) : Model Var where
  decls := (order.map fun stmt => .pc stmt.id) ++
    (order.filter Stmt.isStore).map fun stmt => .pt stmt.id
  val := timesOf order order (persistAtOnce order order)

/-- A solver that prefers a given order returns it, when it is legal and separates the stores. -/
theorem repairMPB_preferring {z : Solver Var} {g : Globals} {thread order : Trace} {a b : Id}
    {pairs : List (Stmt × Stmt)} (htx : TxFree thread) (hpaired : Paired thread pairs)
    (hids : ((fencedThread g thread a b).map Stmt.id).Nodup) (horder : InOrder thread a b)
    {first second fence : Stmt} (hsub : [first, second, fence].Sublist (fencedThread g thread a b))
    (hops : first.op = .store ∧ first.id = a ∧ second.op = .store ∧ second.id = b ∧
      fence.op = .fence)
    (hlegal : (modelOf order).decls.Nodup ∧
      (∀ v ∈ (modelOf order).decls,
        ∃ φ ∈ mpbAssertions (fencedThread g thread a b) a b (adjacencies pairs) [], v ∈ φ.vars) ∧
      (∀ φ ∈ mpbAssertions (fencedThread g thread a b) a b (adjacencies pairs) [], ∀ v ∈ φ.vars,
        v ∈ (modelOf order).decls) ∧
      Satisfies (modelOf order).val
        (mpbAssertions (fencedThread g thread a b) a b (adjacencies pairs) []))
    (hlt : (modelOf order).val (.pc first.id) < (modelOf order).val (.pc fence.id))
    (hgt : (modelOf order).val (.pc fence.id) < (modelOf order).val (.pc second.id))
    (hprint : printer (modelOf order) (fencedThread g thread a b) = some order) :
    ∃ out, repairMPB (z.preferring (modelOf order)) g thread a b (adjacencies pairs) = some out ∧
      out.thread = order ∧ out.constraints = [] := by
  have hsteady := horder.steady htx g
  have hknown : ∀ φ ∈ adjacencies pairs, KnownPlaces thread φ := by
    intro φ hφ
    obtain ⟨pair, hpair, rfl⟩ := List.mem_map.mp hφ
    exact adjacent_known (hpaired.store pair hpair).1 (hpaired.flush pair hpair).1
  obtain ⟨out, hout⟩ := @exists_repairMPB a b thread (z.preferring (modelOf order)) g _ htx
    hsteady.nonempty hknown
  have hflag := repairMPB_flag htx hids hpaired horder hout
  refine ⟨out, hout, ?_, repairMPB_constraints htx hout⟩
  have hcons : transactionConstraints (thread ++ (mpbFences a b thread g.r).2) = some [] :=
    (htx.fencedThread g a b).transactionConstraints
  have hfound : (mpbFences a b thread g.r).1 = true := (mpbFences_found g.r).mpr horder
  simp only [repairMPB, hcons, hfound, Option.bind_eq_bind, Option.bind_some] at hout
  rw [if_neg (by simp [hsteady.nonempty])] at hout
  obtain ⟨hnodup, hmentioned, hcovers, hmodel⟩ := hlegal
  have havoids : Avoids (fencedThread g thread a b) a b (adjacencies pairs) []
      (modelOf order).val :=
    ⟨hmodel, fun τ hτ => not_sameOrder_of_between hsub hops.1 hops.2.1 hops.2.2.1 hops.2.2.2.1
      hops.2.2.2.2 hlt hgt hτ⟩
  have hprinted := solveMPB_preferring ⟨hnodup, hmentioned, hcovers⟩ havoids hout hflag
  exact Option.some.inj (hprinted.symm.trans hprint)

/-- Four stores, and what step 1 may make of them for the bugs `pt_2 < pt_3` and `pt_4 < pt_5`. -/
def fourStores : Trace :=
  [⟨.line 2, .store, "0x10", "-1", 0, "f_1"⟩, ⟨.line 3, .store, "0x20", "-1", 0, "f_2"⟩,
    ⟨.line 4, .store, "0x30", "-1", 0, "f_3"⟩, ⟨.line 5, .store, "0x40", "-1", 0, "f_4"⟩]

def fencedOnce : Trace :=
  [⟨.line 2, .store, "0x10", "-1", 0, "f_1"⟩,
    ⟨.insertedFence (.line 2) 0, .fence, "0", "-1", 0, "f_1_x"⟩,
    ⟨.line 3, .store, "0x20", "-1", 0, "f_2"⟩, ⟨.line 4, .store, "0x30", "-1", 0, "f_3"⟩,
    ⟨.line 5, .store, "0x40", "-1", 0, "f_4"⟩]

def fencedTwice : Trace :=
  [⟨.line 2, .store, "0x10", "-1", 0, "f_1"⟩, ⟨.line 3, .store, "0x20", "-1", 0, "f_2"⟩,
    ⟨.line 4, .store, "0x30", "-1", 0, "f_3"⟩,
    ⟨.insertedFence (.line 4) 1, .fence, "0", "-1", 0, "f_3_x"⟩,
    ⟨.line 5, .store, "0x40", "-1", 0, "f_4"⟩,
    ⟨.insertedFence (.line 2) 0, .fence, "0", "-1", 0, "f_1_x"⟩]

/-- The answers of a legal solver to the two bugs. -/
noncomputable def movingSolver : Nat → Solver Var
  | 0 => Solver.classical.preferring (modelOf fencedOnce)
  | _ => Solver.classical.preferring (modelOf fencedTwice)

theorem repairThread_undoes_guarantee :
    ∃ st st', repairThread movingSolver .start fourStores [.mpb (.line 2) (.line 3)]
        (getTransactionConstraints fourStores) = some st ∧
      Guarantee st.thread (.mpb (.line 2) (.line 3)) ∧
      repairThread movingSolver .start fourStores
        [.mpb (.line 2) (.line 3), .mpb (.line 4) (.line 5)]
        (getTransactionConstraints fourStores) = some st' ∧
      ¬Guarantee st'.thread (.mpb (.line 2) (.line 3)) := by
  have hcons : getTransactionConstraints fourStores = [] := by decide
  obtain ⟨once, honce, hthread, hconsOnce⟩ := @repairMPB_preferring .classical .start fourStores
    fencedOnce (.line 2) (.line 3) [] (by simp [TxFree, fourStores]) (.nil _) (by decide)
    ⟨fourStores[0], fourStores[1], (by decide : [_, _].Sublist _), rfl, rfl, rfl, rfl⟩
    fourStores[0] fourStores[1] fencedOnce[1] (by decide) (by decide) (by decide) (by decide)
    (by decide) (by decide)
  set init : ThreadState := { thread := fourStores, constraints := [], globals := .start }
  have hfirst : repairBug (movingSolver 0) init (.mpb (.line 2) (.line 3)) =
      some (init.accept (.mpb (.line 2) (.line 3)) once) := by
    rw [repairBug, if_neg (by decide)]
    exact congrArg (Option.map _) honce
  set st := init.accept (.mpb (.line 2) (.line 3)) once with hst
  have hstThread : st.thread = fencedOnce := hthread
  have hstCons : st.constraints = [] := by simp [hst, ThreadState.accept, init, hconsOnce]
  have hr : st.globals.r = 1 := by
    change once.globals.r = 1
    rw [(repairMPB_globals honce).1]
    decide
  have hfenced : fencedThread st.globals fencedOnce (.line 4) (.line 5) =
      fencedOnce ++ [⟨.insertedFence (.line 4) 1, .fence, "0", "-1", 0, "f_3_x"⟩] := by
    rw [fencedThread, hr]
    decide
  obtain ⟨twice, htwice, hthread', hconsTwice⟩ := @repairMPB_preferring .classical st.globals
    fencedOnce fencedTwice (.line 4) (.line 5) [] (by simp [TxFree, fencedOnce]) (.nil _)
    (by rw [hfenced]; decide)
    ⟨fourStores[2], fourStores[3], (by decide : [_, _].Sublist _), rfl, rfl, rfl, rfl⟩
    fourStores[2] fourStores[3] fencedTwice[3] (by rw [hfenced]; decide) (by decide)
    (by rw [hfenced]; decide) (by decide) (by decide) (by rw [hfenced]; decide)
  have hsecond : repairBug (movingSolver 1) st (.mpb (.line 4) (.line 5)) =
      some (st.accept (.mpb (.line 4) (.line 5)) twice) := by
    rw [repairBug, if_neg (by decide)]
    simp only [hstThread, hstCons]
    exact congrArg (Option.map _) htwice
  refine ⟨st, st.accept (.mpb (.line 4) (.line 5)) twice, ?_, ?_, ?_, ?_⟩
  · rw [repairThread, hcons, repairBugs, hfirst]
    rfl
  · rw [hstThread]
    exact ⟨fencedOnce[0], fencedOnce[1], fencedOnce[2], by decide, rfl, rfl, rfl, rfl, rfl⟩
  · rw [repairThread, hcons, repairBugs, hfirst, Option.bind_some, repairBugs, hsecond]
    rfl
  · have hafter : (st.accept (.mpb (.line 4) (.line 5)) twice).thread = fencedTwice := hthread'
    rw [hafter]
    rintro ⟨first, fence, second, hsub, hfirstOp, hfirstId, hfenceOp, hsecondOp, hsecondId⟩
    -- the statements before store 3 are no fences
    have hmem : second = fencedTwice[1] := by
      have hin : second ∈ fencedTwice := hsub.subset (by simp)
      simp only [fencedTwice, List.mem_cons, List.not_mem_nil, or_false] at hin
      rcases hin with rfl | rfl | rfl | rfl | rfl | rfl <;> first | rfl | simp_all
    have hbefore : Before fencedTwice fence second :=
      List.Sublist.trans (List.sublist_cons_self first [fence, second]) hsub
    have hlt := hbefore.position_lt (by decide)
    have hpos : position fencedTwice fencedTwice[1] = 2 := by decide
    rw [hmem, hpos] at hlt
    have hfenceMem : fence ∈ fencedTwice := hbefore.mem.1
    simp only [fencedTwice, List.mem_cons, List.not_mem_nil, or_false] at hfenceMem
    rcases hfenceMem with rfl | rfl | rfl | rfl | rfl | rfl
    · cases hfenceOp
    · cases hfenceOp
    · cases hfenceOp
    · exact absurd hlt (by decide)
    · cases hfenceOp
    · exact absurd hlt (by decide)

end PMBugRepair
