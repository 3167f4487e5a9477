import PMBugRepair.Step1.Membership
import Mathlib.Data.List.TakeWhile

/-!
# Transactions that let a store in

In a thread that is not sealed some store can be placed between the statements of a transaction to
which it does not belong: next to it when the transaction has stores, and otherwise by moving the
whole transaction. The fence that the repair appends still fits between the two stores of the bug,
so a solver may answer with such an order.
-/

namespace PMBugRepair

open Smt (Formula Term Model Solver Satisfies)
open Schedule (Before position before_of_append before_iff_append)
open Lists (infix_left_or_right split_of_getLast?_filter split_of_head?_filter)

/-- The transaction stands in the order between its two ends, with its first and last statement
where they were. -/
def Enclosed (order : Trace) (begin : Stmt) (body : Trace) (commit : Stmt) : Prop :=
  ∃ mid, begin :: (mid ++ [commit]) <:+: order ∧
    (mid ++ [commit]).head? = (body ++ [commit]).head? ∧
    (begin :: mid).getLast? = (begin :: body).getLast? ∧ body ⊆ mid ∧ TxFree mid

/-- An order of the statements that the constraints allow. -/
structure LegalOrder (thread order : Trace) : Prop where
  perm : order.Perm thread
  stores : order.filter Stmt.isStore = thread.filter Stmt.isStore
  txs : ∀ begin body commit, Transaction thread begin body commit →
    Enclosed order begin body commit

theorem Transactional.txFree_body {thread body : Trace} {begin commit : Stmt}
    (h : Transactional thread) (htx : Transaction thread begin body commit) : TxFree body := by
  obtain ⟨pre, post, hsplit⟩ := htx.split
  obtain ⟨body', commit', post', hrest, hcommit', hbody'⟩ := h pre begin _ hsplit htx.begin_op
  have hfound : untilCommit (body ++ commit :: post) = some (body, commit) :=
    untilCommit_eq_some_iff.mpr ⟨post, rfl, htx.commit_op, htx.no_commit⟩
  have hfound' : untilCommit (body ++ commit :: post) = some (body', commit') :=
    untilCommit_eq_some_iff.mpr ⟨post', hrest, hcommit', fun x hx => (hbody' x hx).2⟩
  rw [hfound, Option.some.injEq, Prod.mk.injEq] at hfound'
  rw [hfound'.1]
  exact hbody'

theorem Transaction.begin_before {thread body : Trace} {begin commit x : Stmt}
    (h : Transaction thread begin body commit) (hx : x ∈ body) : Before thread begin x := by
  obtain ⟨pre, post, rfl⟩ := h.split
  rw [List.append_cons]
  exact before_of_append (by simp) (List.mem_append_left _ hx)

/-! ### Legal orders meet the constraints -/

section Legal

variable {thread order : Trace} {persist : Id → Int} {begin commit : Stmt} {body : Trace}

theorem Enclosed.txFit (h : Enclosed order begin body commit) (hperm : order.Perm thread)
    (hids : (thread.map Stmt.id).Nodup) (htx : Transaction thread begin body commit) :
    TxFit thread begin body commit (timesOf thread order persist) := by
  obtain ⟨mid, ⟨left, right, horder⟩, hhead, hlast, hbody, hfree⟩ := h
  have hsplit : order = left ++ begin :: (mid ++ commit :: right) := by simpa using horder.symm
  have hnodup : order.Nodup := hperm.nodup_iff.mpr hids.of_map
  have hpc : ∀ x ∈ thread, timesOf thread order persist (.pc x.id) = position order x :=
    fun x hx => timesOf_pc order persist hids hx
  obtain ⟨hbegin, hcommit, hsub⟩ := htx.mem
  have hmid : ∀ x ∈ mid, Before order begin x ∧ Before order x commit := by
    intro x hx
    rw [hsplit]
    constructor
    · rw [List.append_cons]
      exact before_of_append (by simp) (by simp [hx])
    · rw [← List.cons_append, ← List.append_assoc]
      exact before_of_append (by simp [hx]) (by simp)
  refine ⟨?_, ?_, ?_, ?_, ?_⟩
  · rw [hpc begin hbegin, hpc commit hcommit]
    apply Before.position_lt hnodup
    rw [hsplit]
    exact before_iff_append.mpr ⟨left, mid, right, rfl⟩
  · intro x hx
    have hxmem : x ∈ thread := by
      rcases List.mem_append.mp (List.mem_of_head? hx) with hmem | hmem
      · exact hsub hmem
      · rwa [List.mem_singleton.mp hmem]
    rw [hpc begin hbegin, hpc x hxmem]
    obtain ⟨rest, hrest⟩ := List.head?_eq_some_iff.mp (hhead.trans hx)
    have hnext : order = left ++ begin :: x :: (rest ++ right) := by
      rw [← horder, hrest]
      simp
    rw [hnext] at hnodup ⊢
    exact (Schedule.position_next hnodup).symm
  · intro x hx
    have hxmem : x ∈ thread := by
      rcases List.mem_cons.mp (List.mem_of_getLast? hx) with rfl | hmem
      · exact hbegin
      · exact hsub hmem
    rw [hpc x hxmem, hpc commit hcommit]
    obtain ⟨rest, hrest⟩ := List.getLast?_eq_some_iff.mp (hlast.trans hx)
    have hnext : order = (left ++ rest) ++ x :: commit :: right := by
      rw [hsplit, ← List.cons_append, hrest]
      simp
    rw [hnext] at hnodup ⊢
    exact (Schedule.position_next hnodup).symm
  · intro x hx
    rw [hpc begin hbegin, hpc commit hcommit, hpc x (hsub hx)]
    exact ⟨(hmid x (hbody hx)).1.position_lt hnodup, (hmid x (hbody hx)).2.position_lt hnodup⟩
  · intro x hx hother
    rw [hpc begin hbegin, hpc commit hcommit, hpc x hx]
    have hin : x ∈ order := hperm.mem_iff.mpr hx
    rw [hsplit] at hin
    simp only [List.mem_append, List.mem_cons] at hin
    rcases hin with hin | rfl | hin | rfl | hin
    · refine .inl (Before.position_lt hnodup ?_)
      rw [hsplit]
      exact before_of_append hin (by simp)
    · simp [htx.begin_op] at hother
    · rcases hother with ⟨hop, -⟩ | ⟨hop, -⟩
      · exact absurd hop (hfree x hin).1
      · exact absurd hop (hfree x hin).2
    · simp [htx.commit_op] at hother
    · refine .inr (Before.position_lt hnodup ?_)
      rw [hsplit, ← List.cons_append, ← List.append_assoc, List.append_cons]
      exact before_of_append (by simp) hin

/-- The places of a legal order meet the constraints, whatever persist times fit to them. -/
theorem LegalOrder.satisfies {a b : Id} {transact : List (Formula Var)}
    (h : LegalOrder thread order) (hform : Transactional thread) (hids : (thread.map Stmt.id).Nodup)
    (htransact : transactionConstraints thread = some transact)
    (hpersist : ∀ store ∈ thread, store.op = .store → position order store ≤ persist store.id)
    (hfenced : ∀ store fence, Before thread store fence → store.op = .store →
      store.id = a ∨ store.id = b → fence.op = .fence → Before order store fence →
      persist store.id ≤ position order fence) :
    Satisfies (timesOf thread order persist) (mpbAssertions thread a b [] transact) := by
  have hnodup : order.Nodup := h.perm.nodup_iff.mpr hids.of_map
  have hpc : ∀ x ∈ thread, timesOf thread order persist (.pc x.id) = position order x :=
    fun x hx => timesOf_pc order persist hids hx
  obtain ⟨cons, hcons, hfits⟩ := hform.transactionConstraints hids.of_map
  obtain rfl := Option.some.inj (htransact.symm.trans hcons)
  refine satisfies_mpbAssertions.mpr ⟨⟨?_, ?_, ?_, ?_⟩, Smt.satisfies_nil, ?_, ?_⟩
  · intro stmt hmem
    have hbounds := Schedule.position_bounds (h.perm.mem_iff.mpr hmem)
    rw [hpc stmt hmem]
    rwa [h.perm.length_eq] at hbounds
  · refine List.pairwise_iff_forall_sublist.mpr fun {x y} hsub => ?_
    have hx := (List.mem_filter.mp (hsub.subset (List.mem_cons_self : x ∈ [x, y]))).1
    have hy := (List.mem_filter.mp (hsub.subset (by simp : y ∈ [x, y]))).1
    rw [hpc x hx, hpc y hy]
    rw [← h.stores] at hsub
    exact (Before.of_filter hsub).position_lt hnodup
  · intro stmt hmem hop
    rw [hpc stmt hmem]
    exact hpersist stmt hmem hop
  · intro store fence hbefore hop hbug hfence hlt
    obtain ⟨hstore, hmem⟩ := hbefore.mem
    rw [hpc store hstore, hpc fence hmem, ← Schedule.before_iff_position_lt hnodup
      (h.perm.mem_iff.mpr hstore) (h.perm.mem_iff.mpr hmem)] at hlt
    rw [hpc fence hmem]
    exact hfenced store fence hbefore hop hbug hfence hlt
  · exact (hfits _).mpr fun begin body commit htx =>
      (h.txs begin body commit htx).txFit h.perm hids htx
  · rw [List.map_congr_left hpc]
    refine hids.of_map.map_on fun x hx y _ heq => ?_
    exact Schedule.position_injOn (h.perm.mem_iff.mpr hx) heq

theorem LegalOrder.refl (hform : Transactional thread) : LegalOrder thread thread := by
  refine ⟨List.Perm.refl _, rfl, fun begin body commit htx => ?_⟩
  obtain ⟨pre, post, hsplit⟩ := htx.split
  exact ⟨body, ⟨pre, post, by simp [hsplit]⟩, rfl, rfl, List.Subset.refl _, hform.txFree_body htx⟩

/-- Fences can go between two statements, unless the first one begins a transaction or the second
one commits one. -/
theorem Enclosed.insert {left right fences : Trace}
    (h : Enclosed (left ++ right) begin body commit) (hbegin : begin.op = .txBegin)
    (hcommit : commit.op = .txCommit) (hfences : TxFree fences)
    (hleft : ∀ x, left.getLast? = some x → x.op ≠ .txBegin)
    (hright : ∀ x, right.head? = some x → x.op ≠ .txCommit) :
    Enclosed (left ++ fences ++ right) begin body commit := by
  obtain ⟨mid, ⟨pre, post, hsplit⟩, hhead, hlast, hbody, hfree⟩ := h
  have hwhole : begin :: (mid ++ [commit]) <:+: left ++ fences ++ right →
      Enclosed (left ++ fences ++ right) begin body commit :=
    fun hinfix => ⟨mid, hinfix, hhead, hlast, hbody, hfree⟩
  rcases List.append_eq_append_iff.mp hsplit with ⟨rest, hleft', -⟩ | ⟨rest, hsegment, hright'⟩
  · apply hwhole
    rw [hleft']
    exact ⟨pre, rest ++ fences ++ right, by simp⟩
  rcases List.append_eq_append_iff.mp hsegment with ⟨front, hleft', hcut⟩ | ⟨front, -, hcut⟩
  · -- the gap is inside the transaction or at one of its ends
    cases front with
    | nil =>
        apply hwhole
        rw [hright', ← List.nil_append rest, ← hcut]
        exact ⟨left ++ fences, post, by simp⟩
    | cons first front =>
        rw [List.cons_append] at hcut
        obtain ⟨rfl, hinner⟩ := List.cons.inj hcut
        rcases List.eq_nil_or_concat' rest with rfl | ⟨back, last, rfl⟩
        · apply hwhole
          rw [List.append_nil] at hinner
          rw [hleft', ← hinner]
          exact ⟨pre, fences ++ right, by simp⟩
        · rw [← List.append_assoc] at hinner
          obtain ⟨rfl, hend⟩ := List.append_inj' hinner rfl
          obtain rfl : commit = last := by simpa using hend
          have hfront : front ≠ [] := by
            rintro rfl
            exact hleft begin (by simp [hleft']) hbegin
          have hback : back ≠ [] := by
            rintro rfl
            exact hright commit (by simp [hright']) hcommit
          refine ⟨front ++ fences ++ back, ⟨pre, post, by simp [hleft', hright']⟩, ?_, ?_, ?_, ?_⟩
          · rw [← hhead]
            simp [List.head?_append, List.head?_eq_some_head hfront]
          · rw [← hlast]
            simp [List.getLast?_cons, List.getLast?_append, List.getLast?_eq_some_getLast hback]
          · intro x hx
            have hmem := hbody hx
            simp only [List.mem_append] at hmem ⊢
            tauto
          · intro x hx
            simp only [List.mem_append] at hx
            rcases hx with (hx | hx) | hx
            · exact hfree x (List.mem_append_left _ hx)
            · exact hfences x hx
            · exact hfree x (List.mem_append_right _ hx)
  · apply hwhole
    rw [hright', hcut]
    exact ⟨left ++ fences ++ front, post, by simp⟩

/-- The thread with fences behind it, in an order with the fences somewhere inside. -/
theorem LegalOrder.insert {left right fences : Trace} (h : LegalOrder thread (left ++ right))
    (hform : Transactional thread) (hfences : ∀ x ∈ fences, x.op = .fence)
    (hleft : ∀ x, left.getLast? = some x → x.op ≠ .txBegin)
    (hright : ∀ x, right.head? = some x → x.op ≠ .txCommit) :
    LegalOrder (thread ++ fences) (left ++ fences ++ right) := by
  have hfree : TxFree fences := by
    intro x hx
    simp [hfences x hx]
  have hnone : fences.filter Stmt.isStore = [] := by
    rw [List.filter_eq_nil_iff]
    intro x hx
    simp [hfences x hx]
  refine ⟨?_, ?_, fun begin body commit htx => ?_⟩
  · calc (left ++ fences ++ right).Perm (left ++ (right ++ fences)) := by
          rw [List.append_assoc]
          exact List.perm_append_comm.append_left left
      _ = (left ++ right) ++ fences := (List.append_assoc _ _ _).symm
      _ |>.Perm (thread ++ fences) := h.perm.append_right fences
  · have hstores := h.stores
    simp only [List.filter_append, hnone, List.append_nil] at hstores ⊢
    exact hstores
  · rw [hform.transaction_append_iff hfree] at htx
    exact (h.txs begin body commit htx).insert htx.begin_op htx.commit_op hfree hleft hright

end Legal

/-! ### An order that lets a store in -/

section Breach

variable {thread pre body post : Trace} {begin commit x : Stmt}

/-- Another transaction stands in front of a transaction or behind it. -/
theorem Transaction.infix_pre_or_post (hform : Transactional thread) (hnodup : thread.Nodup)
    (htx : Transaction thread begin body commit)
    (hsplit : thread = pre ++ begin :: (body ++ commit :: post)) {begin' commit' : Stmt}
    {body' : Trace} (htx' : Transaction thread begin' body' commit') (hne : begin' ≠ begin) :
    begin' :: (body' ++ [commit']) <:+: pre ∨ begin' :: (body' ++ [commit']) <:+: post := by
  have hfree := hform.txFree_body htx
  have hfree' := hform.txFree_body htx'
  have hinfix : begin' :: (body' ++ [commit']) <:+: pre ++ begin :: (body ++ commit :: post) := by
    obtain ⟨pre', post', hsplit'⟩ := htx'.split
    exact ⟨pre', post', by rw [← hsplit, hsplit']; simp⟩
  have hbegin : begin ∉ begin' :: (body' ++ [commit']) := by
    simp only [List.mem_cons, List.mem_append, List.not_mem_nil, or_false, not_or]
    refine ⟨hne.symm, fun hmem => (hfree' begin hmem).1 htx.begin_op, ?_⟩
    rintro rfl
    simpa [htx.begin_op] using htx'.commit_op
  have hnot : begin' ∉ body := fun hmem => (hfree begin' hmem).1 htx'.begin_op
  rcases infix_left_or_right hinfix hbegin with hleft | hright
  · exact .inl hleft
  · by_cases hcommit : commit ∈ begin' :: (body' ++ [commit'])
    · -- the two would end together, and one would begin within the other
      have hsame : commit' = commit := by
        simp only [List.mem_cons, List.mem_append, List.not_mem_nil, or_false] at hcommit
        rcases hcommit with rfl | hmem | rfl
        · simpa [htx.commit_op] using htx'.begin_op
        · exact absurd htx.commit_op (hfree' commit hmem).2
        · rfl
      subst hsame
      obtain ⟨left, right, hcut⟩ := hright
      have hcut' : (left ++ begin' :: body') ++ commit' :: right = body ++ commit' :: post := by
        simpa using hcut
      rw [hsplit] at hnodup
      have hrest := (List.nodup_cons.mp (List.nodup_append.mp hnodup).2.1).2
      rw [← hcut'] at hrest
      obtain ⟨hfresh, -⟩ := List.nodup_cons.mp (List.nodup_middle.mp hrest)
      rw [List.mem_append, not_or] at hfresh
      obtain ⟨heq, -⟩ := (List.append_cons_inj_of_notMem hfresh.1 hfresh.2).mp hcut'
      exact absurd (by rw [← heq]; simp) hnot
    · rcases infix_left_or_right hright hcommit with hbody | hpost
      · exact absurd (hbody.subset List.mem_cons_self) hnot
      · exact .inr hpost

/-- A store between two statements of a transaction, with the rest in front and behind. -/
theorem exists_order_with (left right front back : Trace) (hform : Transactional thread)
    (hnodup : thread.Nodup) (htx : Transaction thread begin (front ++ back) commit)
    (hsplit : thread = pre ++ begin :: ((front ++ back) ++ commit :: post))
    (hfront : front ≠ []) (hback : back ≠ []) (hstore : x.op = .store) (hout : Outside thread x)
    (hperm : (left ++ x :: right).Perm (pre ++ post))
    (hstores : (left ++ (front ++ x :: back) ++ right).filter Stmt.isStore =
      (pre ++ (front ++ back) ++ post).filter Stmt.isStore)
    (hpieces : ∀ segment, x ∉ segment → segment <:+: pre ∨ segment <:+: post →
      segment <:+: left ∨ segment <:+: right) :
    ∃ order, LegalOrder thread order ∧ Before order begin x ∧ Before order x commit := by
  have hfree := hform.txFree_body htx
  refine ⟨left ++ begin :: ((front ++ x :: back) ++ commit :: right), ⟨?_, ?_, ?_⟩, ?_, ?_⟩
  · rw [List.perm_iff_count]
    intro y
    have hcount := hperm.count_eq y
    rw [hsplit]
    simp only [List.count_append, List.count_cons] at hcount ⊢
    omega
  · have hbegin : begin.isStore = false := by simp [Stmt.isStore, htx.begin_op]
    have hcommit : commit.isStore = false := by simp [Stmt.isStore, htx.commit_op]
    rw [hsplit]
    simpa [List.filter_append, List.filter_cons, hbegin, hcommit] using hstores
  · intro begin' body' commit' htx'
    by_cases hsame : begin' = begin
    · subst hsame
      obtain ⟨rfl, rfl⟩ := htx.unique hnodup htx'
      refine ⟨front ++ x :: back, ⟨left, right, by simp⟩, ?_, ?_, ?_, ?_⟩
      · simp [List.head?_append, List.head?_eq_some_head hfront]
      · simp [List.getLast?_cons, List.getLast?_append, List.getLast?_eq_some_getLast hback]
      · intro y hy
        simp only [List.mem_append, List.mem_cons] at hy ⊢
        tauto
      · intro y hy
        simp only [List.mem_append, List.mem_cons] at hy
        rcases hy with hy | rfl | hy
        · exact hfree y (List.mem_append_left _ hy)
        · simp [hstore]
        · exact hfree y (List.mem_append_right _ hy)
    · have hnot : x ∉ begin' :: (body' ++ [commit']) := by
        simp only [List.mem_cons, List.mem_append, List.not_mem_nil, or_false, not_or]
        refine ⟨?_, fun hmem => hout begin' commit' ⟨body', htx', hmem⟩, ?_⟩
        · rintro rfl
          simpa [hstore] using htx'.begin_op
        · rintro rfl
          simpa [hstore] using htx'.commit_op
      refine ⟨body', ?_, rfl, rfl, List.Subset.refl _, hform.txFree_body htx'⟩
      rcases hpieces _ hnot (htx.infix_pre_or_post hform hnodup hsplit htx' hsame) with hin | hin
      · exact hin.trans ⟨[], _, rfl⟩
      · exact hin.trans ⟨left ++ begin :: (front ++ x :: back) ++ [commit], [], by simp⟩
  · exact before_iff_append.mpr ⟨left, front, back ++ commit :: right, by simp⟩
  · exact before_iff_append.mpr ⟨left ++ begin :: front, back, right, by simp⟩

/-- Some order brings the store into the transaction. -/
def LetsIn (thread : Trace) (begin commit : Stmt) : Prop :=
  ∃ x ∈ thread, x.op = .store ∧ Outside thread x ∧ ∃ order, LegalOrder thread order ∧
    Before order begin x ∧ Before order x commit

/-- The last store in front comes in behind the first statement. -/
theorem letsIn_front (hform : Transactional thread) (hnodup : thread.Nodup)
    (htx : Transaction thread begin body commit)
    (hsplit : thread = pre ++ begin :: (body ++ commit :: post)) (hlength : 2 ≤ body.length)
    (hopen : ¬FrontSealed thread pre body) : LetsIn thread begin commit := by
  simp only [FrontSealed, not_forall, not_not] at hopen
  obtain ⟨first, hfirst, hop, y, hy, hout⟩ := hopen
  obtain ⟨left, right, rfl, hstore, hnone⟩ := split_of_getLast?_filter hy
  obtain ⟨rest, rfl⟩ := List.head?_eq_some_iff.mp hfirst
  have hrest : rest ≠ [] := by
    rintro rfl
    simp at hlength
  have hyop : y.op = .store := by simpa using hstore
  refine ⟨y, by rw [hsplit]; simp, hyop, hout, ?_⟩
  refine exists_order_with (left ++ right) post [first] rest hform hnodup htx hsplit
    (by simp) hrest hyop hout ?_ ?_ ?_
  · rw [List.append_assoc]
    exact (List.perm_middle.append_left left).trans (by simp)
  · have hfirstOp : first.isStore = false := by simpa [Stmt.isStore] using hop
    simp [List.filter_append, List.filter_cons, hnone, hfirstOp]
  · rintro segment hseg (hin | hin)
    · rcases infix_left_or_right hin hseg with hin | hin
      · exact .inl (hin.trans ⟨[], right, rfl⟩)
      · exact .inl (hin.trans ⟨left, [], by simp⟩)
    · exact .inr hin

/-- The first store behind comes in before the last statement. -/
theorem letsIn_back (hform : Transactional thread) (hnodup : thread.Nodup)
    (htx : Transaction thread begin body commit)
    (hsplit : thread = pre ++ begin :: (body ++ commit :: post)) (hlength : 2 ≤ body.length)
    (hopen : ¬BackSealed thread body post) : LetsIn thread begin commit := by
  simp only [BackSealed, not_forall, not_not] at hopen
  obtain ⟨last, hlast, hop, y, hy, hout⟩ := hopen
  obtain ⟨left, right, rfl, hstore, hnone⟩ := split_of_head?_filter hy
  obtain ⟨rest, rfl⟩ := List.getLast?_eq_some_iff.mp hlast
  have hrest : rest ≠ [] := by
    rintro rfl
    simp at hlength
  have hyop : y.op = .store := by simpa using hstore
  refine ⟨y, by rw [hsplit]; simp, hyop, hout, ?_⟩
  refine exists_order_with pre (left ++ right) rest [last] hform hnodup htx hsplit
    hrest (by simp) hyop hout ?_ ?_ ?_
  · exact List.perm_middle.symm.append_left pre
  · have hlastOp : last.isStore = false := by simpa [Stmt.isStore] using hop
    simp [List.filter_append, List.filter_cons, hnone, hlastOp]
  · rintro segment hseg (hin | hin)
    · exact .inl hin
    · rcases infix_left_or_right hin hseg with hin | hin
      · exact .inr (hin.trans ⟨[], right, rfl⟩)
      · exact .inr (hin.trans ⟨left, [], by simp⟩)

/-- Without a store of its own the transaction moves to the store. -/
theorem letsIn_moved (hform : Transactional thread) (hnodup : thread.Nodup)
    (htx : Transaction thread begin body commit)
    (hsplit : thread = pre ++ begin :: (body ++ commit :: post)) (hlength : 2 ≤ body.length)
    (hnone : body.filter Stmt.isStore = []) (hx : x ∈ thread) (hop : x.op = .store)
    (hout : Outside thread x) : LetsIn thread begin commit := by
  refine ⟨x, hx, hop, hout, ?_⟩
  obtain ⟨front, back, rfl, hfront, hback⟩ : ∃ front back, body = front ++ back ∧ front ≠ [] ∧
      back ≠ [] := by
    match body, hlength with
    | first :: second :: rest, _ => exact ⟨[first], second :: rest, rfl, by simp, by simp⟩
  rw [List.filter_append, List.append_eq_nil_iff] at hnone
  rw [hsplit] at hx
  simp only [List.mem_append, List.mem_cons] at hx
  rcases hx with hmem | rfl | hmem | rfl | hmem
  · obtain ⟨left, right, rfl⟩ := List.append_of_mem hmem
    refine exists_order_with left (right ++ post) front back hform hnodup htx hsplit hfront hback
      hop hout (by simp) ?_ ?_
    · simp [List.filter_append, List.filter_cons, hnone.1, hnone.2]
    · rintro segment hseg (hin | hin)
      · rcases infix_left_or_right hin hseg with hin | hin
        · exact .inl hin
        · exact .inr (hin.trans ⟨[], post, rfl⟩)
      · exact .inr (hin.trans ⟨right, [], by simp⟩)
  · have hbegin := htx.begin_op
    rw [hop] at hbegin
    cases hbegin
  · exact absurd ⟨_, htx, List.mem_append.mpr hmem⟩ (hout begin commit)
  · have hcommit := htx.commit_op
    rw [hop] at hcommit
    cases hcommit
  · obtain ⟨left, right, rfl⟩ := List.append_of_mem hmem
    refine exists_order_with (pre ++ left) right front back hform hnodup htx hsplit hfront hback
      hop hout (by simp) ?_ ?_
    · simp [List.filter_append, List.filter_cons, hnone.1, hnone.2]
    · rintro segment hseg (hin | hin)
      · exact .inl (hin.trans ⟨[], left, rfl⟩)
      · rcases infix_left_or_right hin hseg with hin | hin
        · exact .inl (hin.trans ⟨pre, [], by simp⟩)
        · exact .inr hin

/-- A thread that is not sealed has such a transaction. -/
theorem exists_letsIn_of_not_sealed (hform : Transactional thread) (hnodup : thread.Nodup)
    (h : ¬Sealed thread) :
    ∃ begin body commit, Transaction thread begin body commit ∧ LetsIn thread begin commit := by
  simp only [Sealed, not_forall] at h
  obtain ⟨pre, begin, body, commit, post, hsplit, hbegin, hcommit, hbody, hlength, hopen⟩ := h
  have htx : Transaction thread begin body commit := ⟨⟨pre, post, hsplit⟩, hbegin, hcommit, hbody⟩
  refine ⟨begin, body, commit, htx, ?_⟩
  by_cases hany : body.any Stmt.isStore = true
  · rw [if_pos hany, not_and_or] at hopen
    rcases hopen with hopen | hopen
    · exact letsIn_front hform hnodup htx hsplit hlength hopen
    · exact letsIn_back hform hnodup htx hsplit hlength hopen
  · rw [if_neg hany] at hopen
    simp only [not_forall, not_not] at hopen
    obtain ⟨x, hx, hop, hout⟩ := hopen
    refine letsIn_moved hform hnodup htx hsplit hlength ?_ hx hop hout
    rw [List.filter_eq_nil_iff]
    exact fun y hy hstore => hany (List.any_eq_true.mpr ⟨y, hy, hstore⟩)

end Breach

/-! ### The answer of a solver -/

/-- No fence stands between the two stores, and fewer than two behind them. -/
def Unfenced (thread : Trace) (a b : Id) : Prop :=
  ∃ left first mid second tail, thread = left ++ first :: (mid ++ second :: tail) ∧
    first.op = .store ∧ first.id = a ∧ second.op = .store ∧ second.id = b ∧
    (∀ x ∈ mid, x.op ≠ .fence) ∧ tail.countP Stmt.isFence < 2

section Answer

variable {thread order : Trace} {a b : Id} {first second : Stmt}

/-- Between two stores there is room for a fence. -/
theorem exists_gap (h : Before order first second) (hsecond : second.op = .store)
    (hfirst : first.op = .store) :
    ∃ left right, order = left ++ right ∧ first ∈ left ∧ second ∈ right ∧
      (∀ x, left.getLast? = some x → x.op ≠ .txBegin) ∧
      ∀ x, right.head? = some x → x.op ≠ .txCommit := by
  obtain ⟨pre, mid, post, rfl⟩ := before_iff_append.mp h
  set p : Stmt → Bool := fun stmt => stmt.op == .txCommit with hp
  set rest := mid ++ second :: post with hrest
  have hcommits : ∀ x ∈ rest.takeWhile p, x.op = .txCommit := by
    intro x hx
    simpa [hp] using List.mem_takeWhile_imp hx
  refine ⟨pre ++ first :: rest.takeWhile p, rest.dropWhile p, ?_, by simp, ?_, ?_, ?_⟩
  · simp [List.takeWhile_append_dropWhile]
  · have hmem : second ∈ rest.takeWhile p ++ rest.dropWhile p := by
      rw [List.takeWhile_append_dropWhile, hrest]
      simp
    rcases List.mem_append.mp hmem with hmem | hmem
    · exact absurd (hcommits second hmem) (by simp [hsecond])
    · exact hmem
  · intro x hx
    rw [List.getLast?_append_of_ne_nil _ (by simp)] at hx
    rcases List.mem_cons.mp (List.mem_of_getLast? hx) with rfl | hmem
    · simp [hfirst]
    · simp [hcommits x hmem]
  · intro x hx
    have hnot := List.head?_dropWhile_not p rest
    rw [hx] at hnot
    simpa [hp] using hnot

theorem behindStore_of_notMem {left tail : Trace} {store : Stmt} (hop : store.op = .store)
    (hid : store.id = b) (hleft : ∀ x ∈ left, x.id ≠ b) :
    behindStore b (left ++ store :: tail) = some tail := by
  induction left with
  | nil => simp [behindStore, hop, hid]
  | cons x left ih =>
      rw [List.cons_append, behindStore, if_neg fun hx => hleft x List.mem_cons_self hx.2]
      exact ih fun y hy => hleft y (List.mem_cons_of_mem x hy)

theorem id_ne_of_before {x y : Stmt} (h : Before thread x y)
    (hids : (thread.map Stmt.id).Nodup) : x.id ≠ y.id := by
  intro heq
  obtain rfl := List.inj_on_of_nodup_map hids h.mem.1 h.mem.2 heq
  exact lt_irrefl _ (h.position_lt hids.of_map)

theorem Unfenced.exists_fence (h : Unfenced thread a b) (hids : (thread.map Stmt.id).Nodup)
    (r : Nat) : (mpbFences a b thread r).2 ≠ [] := by
  obtain ⟨left, first, mid, second, tail, rfl, hfirst, ha, hsecond, hb, -, hcount⟩ := h
  have hmid : ∀ x ∈ mid, x.id ≠ b := by
    intro x hx
    have hbefore : Before (left ++ first :: (mid ++ second :: tail)) x second := by
      rw [← List.cons_append, ← List.append_assoc]
      exact before_of_append (by simp [hx]) (by simp)
    exact hb ▸ id_ne_of_before hbefore hids
  have hleft : ∀ x ∈ left, x.id ≠ a := by
    intro x hx
    have hbefore : Before (left ++ first :: (mid ++ second :: tail)) x first :=
      before_of_append hx (by simp)
    exact ha ▸ id_ne_of_before hbefore hids
  clear hids
  induction left with
  | nil =>
      rw [List.nil_append, mpbFences, if_pos ⟨hfirst, ha⟩, behindStore_of_notMem hsecond hb hmid]
      simp [hcount]
  | cons x left ih =>
      rw [List.cons_append, mpbFences, if_neg fun hx => hleft x List.mem_cons_self hx.2]
      exact ih fun y hy => hleft y (List.mem_cons_of_mem x hy)

/-- Without a fence in between, `a` may persist as late as `b`. -/
theorem Unfenced.exists_happens {fences : Trace} {transact : List (Formula Var)}
    (h : Unfenced thread a b) (hform : Transactional (thread ++ fences))
    (hids : ((thread ++ fences).map Stmt.id).Nodup)
    (htransact : transactionConstraints (thread ++ fences) = some transact) :
    ∃ τ, Happens (thread ++ fences) a b [] transact τ := by
  obtain ⟨left, first, mid, second, tail, hsplit, hfirst, ha, hsecond, hb, hmid, -⟩ := h
  set whole := thread ++ fences with hwhole
  have hcut : whole = left ++ first :: (mid ++ second :: (tail ++ fences)) := by
    rw [hwhole, hsplit]
    simp
  have hbefore : Before whole first second := before_iff_append.mpr ⟨left, mid, _, hcut⟩
  have hne : b ≠ a := by
    rw [← ha, ← hb]
    exact (id_ne_of_before hbefore hids).symm
  set persist : Id → Int := fun id =>
    if id = a then position whole second else persistAtOnce whole whole id with hpersistDef
  have hpersist : ∀ stmt ∈ whole, stmt.id ≠ a → persist stmt.id = position whole stmt := by
    intro stmt hmem hstmt
    rw [hpersistDef]
    simp only [if_neg hstmt]
    exact persistAtOnce_eq whole hids hmem
  have hlate : persist a = position whole second := by simp [hpersistDef]
  refine ⟨timesOf whole whole persist, Smt.satisfies_append.mpr ⟨?_, ?_⟩⟩
  · refine (LegalOrder.refl hform).satisfies hform hids htransact ?_ ?_
    · intro store hmem hop
      by_cases hid : store.id = a
      · obtain rfl := List.inj_on_of_nodup_map hids hmem hbefore.mem.1 (hid.trans ha.symm)
        rw [hid, hlate]
        exact (hbefore.position_lt hids.of_map).le
      · rw [hpersist store hmem hid]
    · intro store fence hstore hop hbug hfence _
      by_cases hid : store.id = a
      · obtain rfl := List.inj_on_of_nodup_map hids hstore.mem.1 hbefore.mem.1 (hid.trans ha.symm)
        rw [hid, hlate]
        -- the fences behind `a` are behind `b`
        have hbehind : Before whole second fence := by
          have hmem := hstore.mem.2
          rw [hcut] at hmem
          simp only [List.mem_append, List.mem_cons] at hmem
          rcases hmem with hmem | rfl | hmem | rfl | hmem
          · have hfront : Before whole fence store := by
              rw [hcut]
              exact before_of_append hmem (by simp)
            exact absurd hstore (hfront.asymm hids.of_map)
          · rw [hfence] at hop
            cases hop
          · exact absurd hfence (hmid fence hmem)
          · rw [hfence] at hsecond
            cases hsecond
          · rw [hcut, ← List.cons_append, ← List.append_assoc, List.append_cons]
            exact before_of_append (by simp) (List.mem_append.mpr hmem)
        exact (hbehind.position_lt hids.of_map).le
      · rw [hpersist store hstore.mem.1 hid]
        exact (hstore.position_lt hids.of_map).le
  · have hpt : persist b = position whole second := by
      rw [← hb, hpersist second hbefore.mem.2 (hb ▸ hne)]
    simp [Bug.formula, Term.eval, timesOf, hlate, hpt]

end Answer

/-- A solver may answer with any times under which the bug cannot happen. -/
theorem exists_repairMPB_placed {g : Globals} {thread : Trace} {a b : Id}
    {transact : List (Formula Var)} {σ : Var → Int} (horder : InOrder thread a b)
    (htransact : transactionConstraints (fencedThread g thread a b) = some transact)
    (hhappens : ∃ τ, Happens (fencedThread g thread a b) a b [] transact τ)
    (havoids : Avoids (fencedThread g thread a b) a b [] transact σ) :
    ∃ z out, repairMPB z g thread a b [] = some out ∧ out.bugFlag = true ∧
      out.thread.Perm (fencedThread g thread a b) ∧
      ∀ stmt ∈ fencedThread g thread a b, σ (.pc stmt.id) = position out.thread stmt := by
  obtain ⟨first, second, fence, hsub, hfirst, ha, hsecond, hb, hfence⟩ :=
    exists_fence_behind g.r horder
  change [first, second, fence].Sublist (fencedThread g thread a b) at hsub
  set whole := fencedThread g thread a b with hwhole
  set assertions := mpbAssertions whole a b [] transact with hassertions
  set m : Model Var := ⟨(assertions.flatMap Formula.vars).dedup, σ⟩ with hm
  have hlegal : m.decls.Nodup ∧ (∀ v ∈ m.decls, ∃ φ ∈ assertions, v ∈ φ.vars) ∧
      ∀ φ ∈ assertions, ∀ v ∈ φ.vars, v ∈ m.decls := by
    refine ⟨List.nodup_dedup _, ?_, ?_⟩
    · intro v hv
      simpa [hm] using hv
    · intro φ hφ v hv
      simpa [hm] using ⟨φ, hφ, hv⟩
  have hknown : ∀ φ ∈ transact, KnownPlaces whole φ := fun φ hφ =>
    (transactionConstraints_places htransact φ hφ).known
  obtain ⟨out, hsolve⟩ := @exists_solveMPB (Solver.classical.preferring m)
    { g with r := g.r + (mpbFences a b thread g.r).2.length,
             numFence := g.numFence + (mpbFences a b thread g.r).2.length }
    whole a b [] transact (by simp) hknown
  have hblock := (mem_blocking_of_sublist hsub hfirst ha hsecond hb hfence).1
  have hflag := (solveMPB_flag_iff (List.ne_nil_of_mem hblock) hsolve).mpr ⟨hhappens, σ, havoids⟩
  have hprint := solveMPB_preferring hlegal havoids hsolve hflag
  obtain ⟨hfit, -, -, hdistinct⟩ := satisfies_mpbAssertions.mp havoids.1
  have hplace : Placement m whole := by
    refine ⟨fun stmt hmem => ?_, hfit.bounds, hdistinct⟩
    refine hlegal.2.2 (.distinct (whole.map pc)) (by simp [hassertions, mpbAssertions]) _ ?_
    exact List.mem_flatMap.mpr ⟨pc stmt, List.mem_map_of_mem hmem, by simp [pc, Term.vars]⟩
  obtain ⟨hperm, hposition⟩ := printer_spec hplace hlegal.1 hprint
  refine ⟨Solver.classical.preferring m, out, ?_, hflag, hperm, hposition⟩
  have hfound : (mpbFences a b thread g.r).1 = true := (mpbFences_found g.r).mpr horder
  have hne : thread ++ (mpbFences a b thread g.r).2 ≠ [] :=
    List.ne_nil_of_mem (hsub.subset List.mem_cons_self)
  change transactionConstraints (thread ++ (mpbFences a b thread g.r).2) = _ at htransact
  simp only [repairMPB, htransact, hfound, Option.bind_eq_bind, Option.bind_some]
  rw [if_neg hne]
  exact hsolve

/-- **A repair that breaks a transaction.** In a thread that is not sealed, a sound solver may
answer an unfenced bug with an order that puts a store into a transaction to which it does not
belong. -/
theorem exists_repairMPB_breach {g : Globals} {thread : Trace} {a b : Id}
    (hform : Transactional thread) (hids : ((fencedThread g thread a b).map Stmt.id).Nodup)
    (hbug : Unfenced thread a b) (hopen : ¬Sealed thread) :
    ∃ z out, repairMPB z g thread a b [] = some out ∧ out.bugFlag = true ∧
      ¬KeepsMembership thread out.thread := by
  obtain ⟨fences, heq, hfences⟩ := fencedThread_eq g thread a b
  have hfree : TxFree fences := by
    intro x hx
    simp [hfences x hx]
  rw [heq] at hids
  have hform' := hform.append hfree
  have hidsThread : (thread.map Stmt.id).Nodup := by
    rw [List.map_append] at hids
    exact (List.nodup_append.mp hids).1
  obtain ⟨transact, htransact, -⟩ := hform'.transactionConstraints hids.of_map
  obtain ⟨τ, hτ⟩ := hbug.exists_happens hform' hids htransact
  obtain ⟨begin, body, commit, htx, x, hx, hop, hout, order, hlegal, hlower, hupper⟩ :=
    exists_letsIn_of_not_sealed hform hidsThread.of_map hopen
  have hsome := hbug.exists_fence hidsThread g.r
  rw [show (mpbFences a b thread g.r).2 = fences from List.append_cancel_left heq] at hsome
  obtain ⟨fence, hfence⟩ := List.exists_mem_of_ne_nil fences hsome
  obtain ⟨left', first, mid, second, tail, hsplit, hfirst, ha, hsecond, hb, -⟩ := hbug
  have hbefore : Before thread first second := before_iff_append.mpr ⟨left', mid, tail, hsplit⟩
  have horder : Before order first second := by
    have hstores := hbefore.filter (p := Stmt.isStore) (by simpa using hfirst)
      (by simpa using hsecond)
    rw [← hlegal.stores] at hstores
    exact hstores.of_filter
  obtain ⟨left, right, rfl, hleft, hright, hlast, hhead⟩ := exists_gap horder hsecond hfirst
  have hlegal' := hlegal.insert hform hfences hlast hhead
  set order := left ++ fences ++ right with horderDef
  set whole := thread ++ fences with hwhole
  have hnodup : order.Nodup := hlegal'.perm.nodup_iff.mpr hids.of_map
  set σ := timesOf whole order (persistAtOnce whole order) with hσ
  have hpc : ∀ x ∈ whole, σ (.pc x.id) = position order x :=
    fun x hx => timesOf_pc order _ hids hx
  have hsub : [first, second, fence].Sublist whole :=
    List.Sublist.append hbefore (List.singleton_sublist.mpr hfence)
  have havoids : Avoids whole a b [] transact σ := by
    refine ⟨hlegal'.satisfies hform' hids htransact ?_ ?_, fun τ hτ => ?_⟩
    · intro store hmem _
      rw [persistAtOnce_eq order hids hmem]
    · intro store fence hstore _ _ _ hbehind
      rw [persistAtOnce_eq order hids hstore.mem.1]
      exact (hbehind.position_lt hnodup).le
    · refine not_sameOrder_of_between hsub hfirst ha hsecond hb (hfences fence hfence) ?_ ?_ hτ
      · rw [hpc first (hsub.subset (by simp)), hpc fence (hsub.subset (by simp))]
        apply Before.position_lt hnodup
        rw [horderDef, List.append_assoc]
        exact before_of_append hleft (by simp [hfence])
      · rw [hpc second (hsub.subset (by simp)), hpc fence (hsub.subset (by simp))]
        apply Before.position_lt hnodup
        exact before_of_append (by simp [hfence]) hright
  rw [← heq] at htransact hτ havoids
  obtain ⟨z, out, hrepair, hflag, hperm, hposition⟩ :=
    exists_repairMPB_placed ⟨first, second, hbefore, hfirst, ha, hsecond, hb⟩ htransact ⟨τ, hτ⟩
      havoids
  refine ⟨z, out, hrepair, hflag, fun hkeeps => ?_⟩
  rw [heq] at hperm hposition htransact havoids
  have hplaced := placed_of_satisfies havoids.1 hform' htransact hids hperm hposition
  have hspread : (left ++ right).Sublist order := by
    rw [horderDef, List.append_assoc]
    exact (List.sublist_append_right fences right).append_left left
  have hin : Inside out.thread begin commit x := by
    obtain ⟨hbegin, hcommit, -⟩ := htx.mem
    have hmem : ∀ y ∈ thread, y ∈ whole := fun y hy => List.mem_append_left fences hy
    refine (hplaced.inside_iff hform').mpr
      ⟨body, (hform.transaction_append_iff hfree).mpr htx, hmem x hx, ?_, ?_⟩
    · rw [hpc begin (hmem begin hbegin), hpc x (hmem x hx)]
      exact Before.position_lt hnodup (hlower.trans hspread)
    · rw [hpc commit (hmem commit hcommit), hpc x (hmem x hx)]
      exact Before.position_lt hnodup (hupper.trans hspread)
  exact hout begin commit ((hkeeps x hx hop begin commit).mp hin)

/-- A sealed thread keeps its transactions under every repair, and only a sealed one keeps them
under every repair of an unfenced bug. -/
theorem repairMPB_keepsMembership {thread : Trace} (hform : Transactional thread) :
    (Sealed thread → ∀ z g a b previous out, repairMPB z g thread a b previous = some out →
      out.bugFlag = true → KeepsMembership thread out.thread) ∧
    ∀ g a b, Unfenced thread a b → ((fencedThread g thread a b).map Stmt.id).Nodup →
      ((∀ z out, repairMPB z g thread a b [] = some out → out.bugFlag = true →
        KeepsMembership thread out.thread) ↔ Sealed thread) := by
  refine ⟨fun hsealed z g a b previous out h hflag => repairMPB_sealed hform hsealed h hflag, ?_⟩
  intro g a b hbug hids
  constructor
  · intro hkeeps
    by_contra hopen
    obtain ⟨z, out, hout, hflag, hbreach⟩ := exists_repairMPB_breach hform hids hbug hopen
    exact hbreach (hkeeps z out hout hflag)
  · exact fun hsealed z out h hflag => repairMPB_sealed hform hsealed h hflag

theorem transactional_of_block {pre body post : Trace} {begin commit : Stmt} (hpre : TxFree pre)
    (hbody : TxFree body) (hpost : TxFree post) (hcommit : commit.op = .txCommit) :
    Transactional (pre ++ begin :: (body ++ commit :: post)) := by
  intro pre' begin' rest hsplit hbegin
  have hnot : begin' ∉ pre ∧ begin' ∉ body ++ commit :: post := by
    simp only [List.mem_append, List.mem_cons, not_or]
    refine ⟨fun hmem => (hpre begin' hmem).1 hbegin, fun hmem => (hbody begin' hmem).1 hbegin, ?_,
      fun hmem => (hpost begin' hmem).1 hbegin⟩
    rintro rfl
    rw [hbegin] at hcommit
    cases hcommit
  obtain ⟨-, -, rfl⟩ := (List.append_cons_inj_of_notMem hnot.1 hnot.2).mp hsplit
  exact ⟨body, commit, post, rfl, hcommit, hbody⟩

/-- A store, and a transaction that starts and ends with a store. -/
def sealedTx : Trace :=
  [⟨.line 2, .store, "0x10", "-1", 0, "f_1"⟩, ⟨.line 3, .txBegin, "0", "-1", 0, "f_2"⟩,
    ⟨.line 4, .store, "0x20", "-1", 0, "f_3"⟩, ⟨.line 5, .store, "0x30", "-1", 0, "f_4"⟩,
    ⟨.line 6, .txCommit, "0", "-1", 0, "f_5"⟩]

theorem repairMPB_keepsMembership_sealedTx :
    Transactional sealedTx ∧ Sealed sealedTx ∧
      ∀ z g a b previous out, repairMPB z g sealedTx a b previous = some out →
        out.bugFlag = true → KeepsMembership sealedTx out.thread := by
  have hform : Transactional sealedTx :=
    @transactional_of_block [sealedTx[0]] [sealedTx[2], sealedTx[3]] [] sealedTx[1] sealedTx[4]
      (by simp [TxFree, sealedTx]) (by simp [TxFree, sealedTx]) (by simp [TxFree]) rfl
  have hsealed : Sealed sealedTx := by
    intro pre begin body commit post hsplit hbegin hcommit hbody hlength
    have htx : Transaction sealedTx sealedTx[1] [sealedTx[2], sealedTx[3]] sealedTx[4] :=
      ⟨⟨[sealedTx[0]], [], rfl⟩, rfl, rfl, by simp [sealedTx]⟩
    have hmem : begin ∈ sealedTx := by simp [hsplit]
    obtain rfl : begin = sealedTx[1] := by
      simp only [sealedTx, List.mem_cons, List.not_mem_nil, or_false] at hmem
      rcases hmem with rfl | rfl | rfl | rfl | rfl
      · cases hbegin
      · rfl
      · cases hbegin
      · cases hbegin
      · cases hbegin
    obtain ⟨rfl, rfl⟩ := htx.unique (by decide) ⟨⟨pre, post, hsplit⟩, hbegin, hcommit, hbody⟩
    rw [if_pos (by decide)]
    constructor
    · intro first hfirst hop
      obtain rfl : sealedTx[2] = first := Option.some.inj hfirst
      exact absurd rfl hop
    · intro last hlast hop
      obtain rfl : sealedTx[3] = last := Option.some.inj hlast
      exact absurd rfl hop
  exact ⟨hform, hsealed, (repairMPB_keepsMembership hform).1 hsealed⟩

/-- A store, and a transaction that starts with a flush. -/
def leakyTx : Trace :=
  [⟨.line 2, .store, "0x10", "-1", 0, "f_1"⟩, ⟨.line 3, .txBegin, "0", "-1", 0, "f_2"⟩,
    ⟨.line 4, .flush, "0x20", "-1", 0, "f_3"⟩, ⟨.line 5, .store, "0x30", "-1", 0, "f_4"⟩,
    ⟨.line 6, .txCommit, "0", "-1", 0, "f_5"⟩]

/-- The store goes between the flush and the store of the transaction. -/
theorem exists_repairMPB_leakyTx :
    Transactional leakyTx ∧ ∃ z out,
      repairMPB z .start leakyTx (.line 2) (.line 5) [] = some out ∧ out.bugFlag = true ∧
        ¬KeepsMembership leakyTx out.thread := by
  have hform : Transactional leakyTx :=
    @transactional_of_block [leakyTx[0]] [leakyTx[2], leakyTx[3]] [] leakyTx[1] leakyTx[4]
      (by simp [TxFree, leakyTx]) (by simp [TxFree, leakyTx]) (by simp [TxFree]) rfl
  refine ⟨hform, exists_repairMPB_breach hform (by decide) ?_ ?_⟩
  · exact ⟨[], leakyTx[0], [leakyTx[1], leakyTx[2]], leakyTx[3], [leakyTx[4]], rfl, rfl, rfl, rfl,
      rfl, by simp [leakyTx], by decide⟩
  · intro hsealed
    have hends := hsealed [leakyTx[0]] leakyTx[1] [leakyTx[2], leakyTx[3]] leakyTx[4] [] rfl rfl rfl
      (by simp [leakyTx]) (by simp)
    rw [if_pos (by decide)] at hends
    refine hends.1 leakyTx[2] rfl (by decide) leakyTx[0] rfl fun begin commit hin => ?_
    -- nothing stands in front of the store
    obtain ⟨body, htx, hmem⟩ := hin
    have hbefore := htx.begin_before hmem
    have hlt := hbefore.position_lt (by decide)
    have hpos : position leakyTx leakyTx[0] = 1 := by decide
    have hbound := (Schedule.position_bounds hbefore.mem.1).1
    omega

end PMBugRepair
