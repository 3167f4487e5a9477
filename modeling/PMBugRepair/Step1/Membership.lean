import PMBugRepair.Step1.Regress

/-!
# Transactions under MPB repair

`repairMPB` places all statements anew, the `tx_begin`s and `tx_commit`s among them. Its transaction
constraints keep a body together, tie its first statement to the `tx_begin` and its last one to the
`tx_commit`, and keep the other `tx_begin`s and `tx_commit`s out. Nothing in them mentions the
statements that are in no transaction.
-/

namespace PMBugRepair

open Smt (Formula Term Model Solver Satisfies)
open Schedule (Before position before_or_before before_of_append before_iff_append)
open Lists (exists_mapM forall₂_of_mapM exists_of_mem_mapM)

/-- Every transaction is committed before the next one begins. -/
def Transactional (thread : Trace) : Prop :=
  ∀ pre begin rest, thread = pre ++ begin :: rest → begin.op = .txBegin →
    ∃ body commit post, rest = body ++ commit :: post ∧ commit.op = .txCommit ∧
      ∀ x ∈ body, x.op ≠ .txBegin ∧ x.op ≠ .txCommit

/-- The statement stands between a `tx_begin` and its `tx_commit`. -/
def Inside (thread : Trace) (begin commit x : Stmt) : Prop :=
  ∃ body, Transaction thread begin body commit ∧ x ∈ body

def Outside (thread : Trace) (x : Stmt) : Prop := ∀ begin commit, ¬Inside thread begin commit x

/-- The stores of the one thread are in the transactions in which they are in the other. -/
def KeepsMembership (thread thread' : Trace) : Prop :=
  ∀ x ∈ thread, x.op = .store → ∀ begin commit,
    Inside thread' begin commit x ↔ Inside thread begin commit x

/-! ### The constraints of one transaction -/

/-- What the constraints say of the places of a transaction. -/
structure TxFit (thread : Trace) (begin : Stmt) (body : Trace) (commit : Stmt) (σ : Var → Int) :
    Prop where
  order : σ (.pc begin.id) < σ (.pc commit.id)
  first : ∀ x, (body ++ [commit]).head? = some x → σ (.pc begin.id) + 1 = σ (.pc x.id)
  last : ∀ x, (begin :: body).getLast? = some x → σ (.pc x.id) + 1 = σ (.pc commit.id)
  inside : ∀ x ∈ body, σ (.pc begin.id) < σ (.pc x.id) ∧ σ (.pc x.id) < σ (.pc commit.id)
  others : ∀ x ∈ thread, (x.op = .txBegin ∧ x.id ≠ begin.id) ∨
    (x.op = .txCommit ∧ x.id ≠ commit.id) →
      σ (.pc x.id) < σ (.pc begin.id) ∨ σ (.pc commit.id) < σ (.pc x.id)

section Constraints

variable {pre body post : Trace} {begin commit : Stmt}

theorem commitOffset_eq (hcommit : commit.op = .txCommit) (hbody : ∀ x ∈ body, x.op ≠ .txCommit) :
    commitOffset (pre ++ begin :: (body ++ commit :: post)) pre.length = some body.length := by
  have hdrop : (pre ++ begin :: (body ++ commit :: post)).drop (pre.length + 1) =
      body ++ commit :: post := by
    rw [List.append_cons]
    exact List.drop_left' (by simp)
  rw [commitOffset, hdrop, List.findIdx?_append, List.findIdx?_eq_none_iff.mpr]
  · simp [List.findIdx?_cons, hcommit]
  · intro x hx
    simpa using hbody x hx

theorem beginConstraints_eq (hcommit : commit.op = .txCommit)
    (hbody : ∀ x ∈ body, x.op ≠ .txCommit) :
    ∃ cons, beginConstraints (pre ++ begin :: (body ++ commit :: post)) pre.length begin =
        some cons ∧
      ∀ σ, Satisfies σ cons ↔
        TxFit (pre ++ begin :: (body ++ commit :: post)) begin body commit σ := by
  have hoffset := @commitOffset_eq pre body post begin commit hcommit hbody
  have hnext : (pre ++ begin :: (body ++ commit :: post))[pre.length + 1]? =
      (body ++ [commit]).head? := by
    rw [List.getElem?_append_right (by omega)]
    cases body <;> simp
  have hcommitOf : commitOf (pre ++ begin :: (body ++ commit :: post)) pre.length = some commit := by
    rw [commitOf, hoffset]
    simp only
    rw [List.getElem?_append_right (by omega)]
    simp [show pre.length + 1 + body.length - pre.length = body.length + 1 by omega]
  have hlast : beforeCommit (pre ++ begin :: (body ++ commit :: post)) pre.length =
      (begin :: body).getLast? := by
    rw [beforeCommit, hoffset]
    simp only
    rw [List.getElem?_append_right (by omega), Nat.add_sub_cancel_left, ← List.cons_append,
      List.getElem?_append_left (by simp), List.getLast?_eq_getElem?]
    simp
  have hinside : insideOf (pre ++ begin :: (body ++ commit :: post)) pre.length = body := by
    rw [insideOf, hoffset]
    simp only
    rw [List.append_cons, List.drop_left' (by simp), List.take_left' rfl]
  obtain ⟨next, hsome⟩ : ∃ next, (body ++ [commit]).head? = some next := by
    cases body <;> exact ⟨_, rfl⟩
  obtain ⟨last, hsome'⟩ : ∃ last, (begin :: body).getLast? = some last :=
    ⟨_, List.getLast?_eq_some_getLast (by simp)⟩
  refine ⟨_,
    by simp only [beginConstraints, hnext, hsome, hcommitOf, hlast, hsome', hinside]; rfl, ?_⟩
  intro σ
  have hbodyCons : Satisfies σ (body.flatMap fun stmt =>
      [.lt (pc begin) (pc stmt), .lt (pc stmt) (pc commit)]) ↔
      ∀ x ∈ body, σ (.pc begin.id) < σ (.pc x.id) ∧ σ (.pc x.id) < σ (.pc commit.id) := by
    constructor
    · intro h x hx
      exact ⟨h _ (List.mem_flatMap.mpr ⟨x, hx, List.mem_cons_self⟩),
        h _ (List.mem_flatMap.mpr ⟨x, hx, List.mem_cons_of_mem _ List.mem_cons_self⟩)⟩
    · intro h φ hφ
      obtain ⟨x, hx, hφ⟩ := List.mem_flatMap.mp hφ
      simp only [List.mem_cons, List.not_mem_nil, or_false] at hφ
      rcases hφ with rfl | rfl
      · exact (h x hx).1
      · exact (h x hx).2
  simp only [Smt.satisfies_append, Smt.satisfies_cons, Smt.satisfies_nil, hbodyCons,
    Smt.satisfies_map]
  constructor
  · rintro ⟨⟨⟨horder, hfirst, hlast, -⟩, hinside⟩, hothers⟩
    refine ⟨horder, ?_, ?_, hinside, ?_⟩
    · intro x hx
      rw [hsome, Option.some.injEq] at hx
      rw [← hx]
      exact hfirst
    · intro x hx
      rw [hsome', Option.some.injEq] at hx
      rw [← hx]
      exact hlast
    · intro x hx hother
      simpa using hothers x (List.mem_filter.mpr ⟨hx, by simpa using hother⟩)
  · intro hfit
    refine ⟨⟨⟨hfit.order, hfit.first next hsome, hfit.last last hsome', trivial⟩, hfit.inside⟩, ?_⟩
    intro x hx
    obtain ⟨hx, hother⟩ := List.mem_filter.mp hx
    simpa using hfit.others x hx (by simpa using hother)

end Constraints

theorem Transactional.exists_transaction {thread : Trace} (h : Transactional thread) {begin : Stmt}
    (hmem : begin ∈ thread) (hop : begin.op = .txBegin) :
    ∃ body commit, Transaction thread begin body commit := by
  obtain ⟨pre, rest, rfl⟩ := List.append_of_mem hmem
  obtain ⟨body, commit, post, rfl, hcommit, hbody⟩ := h pre begin rest rfl hop
  exact ⟨body, commit, ⟨pre, post, rfl⟩, hop, hcommit, fun x hx => (hbody x hx).2⟩

theorem Transaction.unique {thread body body' : Trace} {begin commit commit' : Stmt}
    (hnodup : thread.Nodup) (h : Transaction thread begin body commit)
    (h' : Transaction thread begin body' commit') : body = body' ∧ commit = commit' := by
  obtain ⟨pre, post, rfl⟩ := h.split
  obtain ⟨pre', post', hsplit⟩ := h'.split
  obtain ⟨hpre, hrest⟩ := List.nodup_cons.mp (List.nodup_middle.mp hnodup)
  rw [List.mem_append, not_or] at hpre
  obtain ⟨-, -, hrest⟩ := (List.append_cons_inj_of_notMem hpre.1 hpre.2).mp hsplit
  have hfound : untilCommit (body ++ commit :: post) = some (body, commit) :=
    untilCommit_eq_some_iff.mpr ⟨post, rfl, h.commit_op, h.no_commit⟩
  have hfound' : untilCommit (body ++ commit :: post) = some (body', commit') :=
    untilCommit_eq_some_iff.mpr ⟨post', hrest, h'.commit_op, h'.no_commit⟩
  rw [hfound, Option.some.injEq, Prod.mk.injEq] at hfound'
  exact hfound'

/-- The constraints of the thread are those of its transactions. -/
theorem Transactional.transactionConstraints {thread : Trace} (h : Transactional thread)
    (hnodup : thread.Nodup) :
    ∃ cons, transactionConstraints thread = some cons ∧ ∀ σ, Satisfies σ cons ↔
      ∀ begin body commit, Transaction thread begin body commit →
        TxFit thread begin body commit σ := by
  -- the constraints that one `tx_begin` contributes
  have hentry : ∀ entry ∈ thread.zipIdx.filter fun entry => entry.1.op == .txBegin,
      ∃ cons body commit, beginConstraints thread entry.2 entry.1 = some cons ∧
        Transaction thread entry.1 body commit ∧
        ∀ σ, Satisfies σ cons ↔ TxFit thread entry.1 body commit σ := by
    rintro ⟨begin, i⟩ hmem
    obtain ⟨hmem, hop⟩ := List.mem_filter.mp hmem
    obtain ⟨pre, rest, hsplit, rfl⟩ : ∃ pre rest, thread = pre ++ begin :: rest ∧
        pre.length = i := by
      have hget : thread[i]? = some begin := List.mk_mem_zipIdx_iff_getElem?.mp hmem
      obtain ⟨hlt, hget⟩ := List.getElem?_eq_some_iff.mp hget
      refine ⟨thread.take i, thread.drop (i + 1), ?_, by simp; omega⟩
      rw [← hget, ← List.drop_eq_getElem_cons hlt, List.take_append_drop]
    obtain ⟨body, commit, post, rfl, hcommit, hbody⟩ := h pre begin rest hsplit (by simpa using hop)
    obtain ⟨cons, hcons, hfit⟩ := @beginConstraints_eq pre body post begin commit hcommit
      fun x hx => (hbody x hx).2
    rw [← hsplit] at hcons hfit
    exact ⟨cons, body, commit, hcons, ⟨⟨pre, post, hsplit⟩, by simpa using hop, hcommit,
      fun x hx => (hbody x hx).2⟩, hfit⟩
  obtain ⟨parts, hparts⟩ := exists_mapM fun entry hmem => by
    obtain ⟨cons, -, -, hcons, -⟩ := hentry entry hmem
    exact ⟨cons, hcons⟩
  refine ⟨parts.flatten, by rw [PMBugRepair.transactionConstraints, hparts]; rfl, fun σ => ?_⟩
  constructor
  · intro hsat begin body commit htx
    obtain ⟨pre, post, hsplit⟩ := htx.split
    have hget : thread[pre.length]? = some begin := by
      rw [hsplit]
      simp
    have hmem : (begin, pre.length) ∈ thread.zipIdx.filter fun entry => entry.1.op == .txBegin :=
      List.mem_filter.mpr ⟨List.mk_mem_zipIdx_iff_getElem?.mpr hget, by simp [htx.begin_op]⟩
    obtain ⟨cons, body', commit', hcons, htx', hfit⟩ := hentry _ hmem
    obtain ⟨rfl, rfl⟩ := htx.unique hnodup htx'
    have hpart : cons ∈ parts := by
      obtain ⟨j, hj, hentryj⟩ := List.mem_iff_getElem.mp hmem
      have hpairs := forall₂_of_mapM hparts
      have hlen := hpairs.length_eq
      have hval := hpairs.get hj (hlen ▸ hj)
      simp only [List.get_eq_getElem, hentryj, hcons, Option.some.injEq] at hval
      rw [hval]
      exact List.getElem_mem _
    exact (hfit σ).mp fun φ hφ => hsat φ (List.mem_flatten.mpr ⟨cons, hpart, hφ⟩)
  · intro hfits φ hφ
    obtain ⟨part, hpart, hφ⟩ := List.mem_flatten.mp hφ
    obtain ⟨entry, hmem, hcons⟩ := exists_of_mem_mapM hparts hpart
    obtain ⟨cons, body, commit, hcons', htx, hfit⟩ := hentry entry hmem
    rw [hcons, Option.some.injEq] at hcons'
    rw [hcons'] at hφ
    exact (hfit σ).mpr (hfits entry.1 body commit htx) φ hφ

/-! ### Membership in a placed thread -/

/-- The statements of a thread in the order of their times, under times that the constraints
allow. -/
structure Placed (thread out : Trace) (σ : Var → Int) : Prop where
  perm : out.Perm thread
  ids : (thread.map Stmt.id).Nodup
  position : ∀ x ∈ thread, σ (.pc x.id) = position out x
  stores : ∀ x y, Before thread x y → x.op = .store → y.op = .store →
    σ (.pc x.id) < σ (.pc y.id)
  txs : ∀ begin body commit, Transaction thread begin body commit →
    TxFit thread begin body commit σ

theorem Transaction.mem {thread body : Trace} {begin commit : Stmt}
    (h : Transaction thread begin body commit) :
    begin ∈ thread ∧ commit ∈ thread ∧ body ⊆ thread := by
  obtain ⟨pre, post, rfl⟩ := h.split
  exact ⟨by simp, by simp, fun x hx => by simp [hx]⟩

namespace Placed

variable {thread out : Trace} {σ : Var → Int} {begin commit x y : Stmt} {body : Trace}

theorem nodup (h : Placed thread out σ) : out.Nodup := h.perm.nodup_iff.mpr h.ids.of_map

theorem before_iff (h : Placed thread out σ) (hx : x ∈ thread) (hy : y ∈ thread) :
    Before out x y ↔ σ (.pc x.id) < σ (.pc y.id) := by
  rw [h.position x hx, h.position y hy]
  exact Schedule.before_iff_position_lt h.nodup (h.perm.mem_iff.mpr hx) (h.perm.mem_iff.mpr hy)

theorem inj (h : Placed thread out σ) (hx : x ∈ thread) (hy : y ∈ thread)
    (heq : σ (.pc x.id) = σ (.pc y.id)) : x = y := by
  by_contra hne
  rcases before_or_before (h.perm.mem_iff.mpr hx) (h.perm.mem_iff.mpr hy) hne with hlt | hlt
  · rw [h.before_iff hx hy] at hlt
    omega
  · rw [h.before_iff hy hx] at hlt
    omega

/-- A transaction is still one, with the statements that were placed within. -/
theorem transaction (h : Placed thread out σ) (htx : Transaction thread begin body commit) :
    ∃ body', Transaction out begin body' commit ∧
      ∀ x, x ∈ body' ↔ x ∈ thread ∧ σ (.pc begin.id) < σ (.pc x.id) ∧
        σ (.pc x.id) < σ (.pc commit.id) := by
  obtain ⟨hbegin, hcommit, -⟩ := htx.mem
  have hfit := h.txs begin body commit htx
  obtain ⟨left, mid, right, hsplit⟩ := before_iff_append.mp ((h.before_iff hbegin hcommit).mpr
    hfit.order)
  have hmid : ∀ x, x ∈ mid ↔ x ∈ thread ∧ σ (.pc begin.id) < σ (.pc x.id) ∧
      σ (.pc x.id) < σ (.pc commit.id) := by
    intro x
    constructor
    · intro hx
      have hthread : x ∈ thread := h.perm.mem_iff.mp (by rw [hsplit]; simp [hx])
      refine ⟨hthread, (h.before_iff hbegin hthread).mp ?_, (h.before_iff hthread hcommit).mp ?_⟩
      · rw [hsplit, List.append_cons]
        exact before_of_append (by simp) (by simp [hx])
      · rw [hsplit, ← List.cons_append, ← List.append_assoc]
        exact before_of_append (by simp [hx]) (by simp)
    · rintro ⟨hthread, hlower, hupper⟩
      have hx : x ∈ out := h.perm.mem_iff.mpr hthread
      rw [hsplit] at hx
      simp only [List.mem_append, List.mem_cons] at hx
      rcases hx with hx | rfl | hx | rfl | hx
      · have hbefore : Before out x begin := by
          rw [hsplit]
          exact before_of_append hx (by simp)
        rw [h.before_iff hthread hbegin] at hbefore
        omega
      · omega
      · exact hx
      · omega
      · have hbefore : Before out commit x := by
          rw [hsplit, ← List.cons_append, ← List.append_assoc, List.append_cons]
          exact before_of_append (by simp) hx
        rw [h.before_iff hcommit hthread] at hbefore
        omega
  refine ⟨mid, ⟨⟨left, right, hsplit⟩, htx.begin_op, htx.commit_op, ?_⟩, hmid⟩
  intro x hx hop
  obtain ⟨hthread, hlower, hupper⟩ := (hmid x).mp hx
  have hne : x.id ≠ commit.id := by
    intro heq
    rw [heq] at hupper
    omega
  rcases hfit.others x hthread (.inr ⟨hop, hne⟩) with hlt | hlt <;> omega

theorem inside_iff (h : Placed thread out σ) (hform : Transactional thread) :
    Inside out begin commit x ↔ ∃ body, Transaction thread begin body commit ∧ x ∈ thread ∧
      σ (.pc begin.id) < σ (.pc x.id) ∧ σ (.pc x.id) < σ (.pc commit.id) := by
  constructor
  · rintro ⟨body', htx', hx⟩
    have hbegin : begin ∈ thread := h.perm.mem_iff.mp htx'.mem.1
    obtain ⟨body, commit', htx⟩ := hform.exists_transaction hbegin htx'.begin_op
    obtain ⟨body'', htx'', hmem⟩ := h.transaction htx
    obtain ⟨rfl, rfl⟩ := htx'.unique h.nodup htx''
    exact ⟨body, htx, (hmem x).mp hx⟩
  · rintro ⟨body, htx, hx⟩
    obtain ⟨body', htx', hmem⟩ := h.transaction htx
    exact ⟨body', htx', (hmem x).mpr hx⟩

theorem disjoint (h : Placed thread out σ) {begin' commit' : Stmt} {body' : Trace}
    (htx : Transaction thread begin body commit) (htx' : Transaction thread begin' body' commit')
    (hne : begin ≠ begin') :
    σ (.pc commit.id) < σ (.pc begin'.id) ∨ σ (.pc commit'.id) < σ (.pc begin.id) := by
  have hids : begin.id ≠ begin'.id :=
    fun heq => hne (List.inj_on_of_nodup_map h.ids htx.mem.1 htx'.mem.1 heq)
  have hfit := (h.txs _ _ _ htx).others begin' htx'.mem.1 (.inl ⟨htx'.begin_op, hids.symm⟩)
  have hfit' := (h.txs _ _ _ htx').others begin htx.mem.1 (.inl ⟨htx.begin_op, hids⟩)
  omega

end Placed

/-! ### What keeps the other stores out -/

/-- No store can come in from the front: the body starts with a store, or the last store in front of
the transaction is in a transaction itself. -/
def FrontSealed (thread pre body : Trace) : Prop :=
  ∀ first, body.head? = some first → first.op ≠ .store →
    ∀ y, (pre.filter Stmt.isStore).getLast? = some y → ¬Outside thread y

/-- No store can come in from behind. -/
def BackSealed (thread body post : Trace) : Prop :=
  ∀ last, body.getLast? = some last → last.op ≠ .store →
    ∀ y, (post.filter Stmt.isStore).head? = some y → ¬Outside thread y

/-- The transactions with two or more statements are sealed at both ends; one without a store can be
moved to any store, so there every store has to be in a transaction. -/
def Sealed (thread : Trace) : Prop :=
  ∀ pre begin body commit post, thread = pre ++ begin :: (body ++ commit :: post) →
    begin.op = .txBegin → commit.op = .txCommit → (∀ x ∈ body, x.op ≠ .txCommit) →
    2 ≤ body.length →
    if body.any Stmt.isStore then FrontSealed thread pre body ∧ BackSealed thread body post
    else ∀ x ∈ thread, x.op = .store → ¬Outside thread x

theorem not_outside_iff {thread : Trace} {x : Stmt} :
    ¬Outside thread x ↔ ∃ begin commit, Inside thread begin commit x := by
  simp [Outside]

namespace Placed

variable {thread out : Trace} {σ : Var → Int} {begin commit x : Stmt} {pre body post : Trace}

/-- A body of at most one statement has no room for another one. -/
theorem no_room (h : Placed thread out σ) (htx : Transaction thread begin body commit)
    (hlength : body.length < 2) (hx : x ∈ thread) (hlower : σ (.pc begin.id) < σ (.pc x.id))
    (hupper : σ (.pc x.id) < σ (.pc commit.id)) : x ∈ body := by
  have hfit := h.txs _ _ _ htx
  match body, hlength with
  | [], _ =>
      have hfirst := hfit.first commit rfl
      omega
  | [y], _ =>
      have hfirst := hfit.first y rfl
      have hlast := hfit.last y rfl
      have hy : y ∈ thread := htx.mem.2.2 List.mem_cons_self
      have heq : x = y := h.inj hx hy (by omega)
      simp [heq]

/-- A statement of another transaction is in front of the transaction or behind it. -/
theorem apart (h : Placed thread out σ) (htx : Transaction thread begin body commit)
    (hin : ¬Outside thread x) (hx : x ∉ body) :
    σ (.pc x.id) < σ (.pc begin.id) ∨ σ (.pc commit.id) < σ (.pc x.id) := by
  obtain ⟨begin', commit', body', htx', hx'⟩ := not_outside_iff.mp hin
  have hne : begin ≠ begin' := by
    rintro rfl
    obtain ⟨rfl, -⟩ := htx.unique h.ids.of_map htx'
    exact hx hx'
  have hfit := (h.txs _ _ _ htx').inside x hx'
  rcases h.disjoint htx htx' hne with hlt | hlt <;> omega

/-- A store from in front of a transaction stays in front of it. -/
theorem front (h : Placed thread out σ) (htx : Transaction thread begin body commit)
    (hsplit : thread = pre ++ begin :: (body ++ commit :: post))
    (hsealed : FrontSealed thread pre body)
    {s : Stmt} (hs : s ∈ body) (hsop : s.op = .store) (hx : x ∈ pre) (hop : x.op = .store)
    (hout : Outside thread x) : σ (.pc x.id) < σ (.pc begin.id) := by
  have hbody : ∀ y ∈ pre, ∀ z ∈ body, Before thread y z := by
    intro y hy z hz
    rw [hsplit]
    exact before_of_append hy (List.mem_cons_of_mem _ (List.mem_append_left _ hz))
  have hfit := h.txs _ _ _ htx
  obtain ⟨first, hhead⟩ : ∃ first, body.head? = some first :=
    ⟨_, List.head?_eq_some_head (List.ne_nil_of_mem hs)⟩
  by_cases hfirst : first.op = .store
  · have hlt := h.stores x first (hbody x hx first (List.mem_of_head? hhead)) hop hfirst
    have hpin := hfit.first first (by rw [List.head?_append, hhead]; rfl)
    have hxmem : x ∈ thread := by rw [hsplit]; simp [hx]
    by_contra hle
    have heq := h.inj hxmem htx.mem.1 (by omega)
    rw [heq, htx.begin_op] at hop
    cases hop
  · have hxstore : x ∈ pre.filter Stmt.isStore := List.mem_filter.mpr ⟨hx, by simpa using hop⟩
    obtain ⟨y, hlast⟩ : ∃ y, (pre.filter Stmt.isStore).getLast? = some y :=
      ⟨_, List.getLast?_eq_some_getLast (List.ne_nil_of_mem hxstore)⟩
    have hin := hsealed first hhead hfirst y hlast
    obtain ⟨stores, hstores⟩ := List.getLast?_eq_some_iff.mp hlast
    have hystore : y ∈ pre.filter Stmt.isStore := by rw [hstores]; simp
    obtain ⟨hy, hyop⟩ := List.mem_filter.mp hystore
    rw [Stmt.isStore_iff] at hyop
    -- the store `x` is in front of `y`, and `y` in front of the stores of the body
    have hxy : σ (.pc x.id) < σ (.pc y.id) := by
      refine h.stores x y ?_ hop hyop
      have hne : x ≠ y := fun heq => hin (heq ▸ hout)
      rw [hstores, List.mem_append, List.mem_singleton] at hxstore
      have hbefore : Before (pre.filter Stmt.isStore) x y := by
        rw [hstores]
        exact before_of_append (hxstore.resolve_right hne) (by simp)
      rw [hsplit]
      exact hbefore.of_filter.trans (List.sublist_append_left _ _)
    have hys := h.stores y s (hbody y hy s hs) hyop hsop
    have hsfit := hfit.inside s hs
    have hnot : y ∉ body := by
      intro hmem
      exact (hbody y hy y hmem).asymm h.ids.of_map (hbody y hy y hmem)
    rcases h.apart htx hin hnot with hlt | hlt <;> omega

/-- A store from behind a transaction stays behind it. -/
theorem back (h : Placed thread out σ) (htx : Transaction thread begin body commit)
    (hsplit : thread = pre ++ begin :: (body ++ commit :: post))
    (hsealed : BackSealed thread body post)
    {s : Stmt} (hs : s ∈ body) (hsop : s.op = .store) (hx : x ∈ post) (hop : x.op = .store)
    (hout : Outside thread x) : σ (.pc commit.id) < σ (.pc x.id) := by
  have hbody : ∀ z ∈ body, ∀ y ∈ post, Before thread z y := by
    intro z hz y hy
    rw [hsplit, ← List.cons_append, ← List.append_assoc]
    exact before_of_append (by simp [hz]) (List.mem_cons_of_mem _ hy)
  have hfit := h.txs _ _ _ htx
  obtain ⟨last, hlast⟩ : ∃ last, body.getLast? = some last :=
    ⟨_, List.getLast?_eq_some_getLast (List.ne_nil_of_mem hs)⟩
  by_cases hlastOp : last.op = .store
  · have hlt := h.stores last x (hbody last (List.mem_of_getLast? hlast) x hx) hlastOp hop
    have hpin := hfit.last last (by rw [List.getLast?_cons, hlast]; rfl)
    have hxmem : x ∈ thread := by rw [hsplit]; simp [hx]
    by_contra hle
    have heq := h.inj hxmem htx.mem.2.1 (by omega)
    rw [heq, htx.commit_op] at hop
    cases hop
  · have hxstore : x ∈ post.filter Stmt.isStore := List.mem_filter.mpr ⟨hx, by simpa using hop⟩
    obtain ⟨y, hhead⟩ : ∃ y, (post.filter Stmt.isStore).head? = some y :=
      ⟨_, List.head?_eq_some_head (List.ne_nil_of_mem hxstore)⟩
    have hin := hsealed last hlast hlastOp y hhead
    obtain ⟨stores, hstores⟩ := List.head?_eq_some_iff.mp hhead
    have hystore : y ∈ post.filter Stmt.isStore := by rw [hstores]; simp
    obtain ⟨hy, hyop⟩ := List.mem_filter.mp hystore
    rw [Stmt.isStore_iff] at hyop
    have hyx : σ (.pc y.id) < σ (.pc x.id) := by
      refine h.stores y x ?_ hyop hop
      have hne : x ≠ y := fun heq => hin (heq ▸ hout)
      rw [hstores, List.mem_cons] at hxstore
      have hbefore : Before (post.filter Stmt.isStore) y x := by
        rw [hstores]
        exact Schedule.before_cons_iff.mpr (.inl ⟨rfl, hxstore.resolve_left hne⟩)
      rw [hsplit, ← List.cons_append, ← List.append_assoc, List.append_cons]
      exact hbefore.of_filter.trans (List.sublist_append_right _ _)
    have hsy := h.stores s y (hbody s hs y hy) hsop hyop
    have hsfit := hfit.inside s hs
    have hnot : y ∉ body := by
      intro hmem
      exact (hbody y hmem y hy).asymm h.ids.of_map (hbody y hmem y hy)
    rcases h.apart htx hin hnot with hlt | hlt <;> omega

/-- Sealed transactions hold the stores they held. -/
theorem inside_of_sealed (h : Placed thread out σ) (hsealed : Sealed thread)
    (htx : Transaction thread begin body commit) (hx : x ∈ thread) (hop : x.op = .store)
    (hlower : σ (.pc begin.id) < σ (.pc x.id)) (hupper : σ (.pc x.id) < σ (.pc commit.id)) :
    x ∈ body := by
  by_contra hnot
  have hout : Outside thread x := by
    by_contra hin
    rcases h.apart htx hin hnot with hlt | hlt <;> omega
  by_cases hlength : body.length < 2
  · exact hnot (h.no_room htx hlength hx hlower hupper)
  · obtain ⟨pre, post, hsplit⟩ := htx.split
    have hends := hsealed pre begin body commit post hsplit htx.begin_op htx.commit_op htx.no_commit
      (by omega)
    split at hends
    · rename_i hany
      obtain ⟨s, hs, hsop⟩ := List.any_eq_true.mp hany
      rw [Stmt.isStore_iff] at hsop
      have hmem := hx
      rw [hsplit] at hmem
      simp only [List.mem_append, List.mem_cons] at hmem
      rcases hmem with hpre | rfl | hbody | rfl | hpost
      · have hlt := h.front htx hsplit hends.1 hs hsop hpre hop hout
        omega
      · omega
      · exact hnot hbody
      · omega
      · have hlt := h.back htx hsplit hends.2 hs hsop hpost hop hout
        omega
    · exact hends x hx hop hout

theorem keepsMembership (h : Placed thread out σ) (hform : Transactional thread)
    (hsealed : Sealed thread) : KeepsMembership thread out := by
  intro x hx hop begin commit
  rw [h.inside_iff hform]
  constructor
  · rintro ⟨body, htx, -, hlower, hupper⟩
    exact ⟨body, htx, h.inside_of_sealed hsealed htx hx hop hlower hupper⟩
  · rintro ⟨body, htx, hbody⟩
    exact ⟨body, htx, hx, (h.txs _ _ _ htx).inside x hbody⟩

end Placed

/-! ### The appended fences -/

section Fenced

variable {thread fences : Trace}

/-- Behind the last transaction nothing changes the transactions. -/
theorem Transactional.split_of_append (h : Transactional thread) (hfences : TxFree fences)
    {pre body post : Trace} {begin commit : Stmt}
    (hsplit : thread ++ fences = pre ++ begin :: (body ++ commit :: post))
    (hbegin : begin.op = .txBegin) (hcommit : commit.op = .txCommit)
    (hbody : ∀ x ∈ body, x.op ≠ .txCommit) :
    ∃ post', thread = pre ++ begin :: (body ++ commit :: post') ∧ post = post' ++ fences := by
  have hnot : begin ∉ fences := fun hmem => (hfences begin hmem).1 hbegin
  obtain ⟨rest, rfl, hrest⟩ : ∃ rest, thread = pre ++ begin :: rest ∧
      rest ++ fences = body ++ commit :: post := by
    rcases List.append_eq_append_iff.mp hsplit with ⟨mid, -, hmid⟩ | ⟨mid, rfl, hmid⟩
    · exact absurd (by rw [hmid]; simp) hnot
    · cases mid with
      | nil => exact absurd (by rw [← List.nil_append fences, ← hmid]; simp) hnot
      | cons y mid =>
          obtain ⟨rfl, htail⟩ := List.cons.inj hmid
          exact ⟨mid, rfl, htail.symm⟩
  obtain ⟨body', commit', post', rfl, hcommit', hbody'⟩ := h pre begin rest rfl hbegin
  have hfound : untilCommit ((body' ++ commit' :: post') ++ fences) = some (body', commit') :=
    untilCommit_eq_some_iff.mpr ⟨post' ++ fences, by simp, hcommit', fun x hx => (hbody' x hx).2⟩
  have hfound' : untilCommit ((body' ++ commit' :: post') ++ fences) = some (body, commit) :=
    untilCommit_eq_some_iff.mpr ⟨post, hrest, hcommit, hbody⟩
  rw [hfound, Option.some.injEq, Prod.mk.injEq] at hfound'
  obtain ⟨rfl, rfl⟩ := hfound'
  refine ⟨post', rfl, ?_⟩
  rw [List.append_assoc, List.append_cancel_left_eq, List.cons_append, List.cons.injEq] at hrest
  exact hrest.2.symm

theorem Transactional.transaction_append_iff (h : Transactional thread) (hfences : TxFree fences)
    {begin commit : Stmt} {body : Trace} :
    Transaction (thread ++ fences) begin body commit ↔ Transaction thread begin body commit := by
  constructor
  · rintro ⟨⟨pre, post, hsplit⟩, hbegin, hcommit, hbody⟩
    obtain ⟨post', hthread, -⟩ := h.split_of_append hfences hsplit hbegin hcommit hbody
    exact ⟨⟨pre, post', hthread⟩, hbegin, hcommit, hbody⟩
  · rintro ⟨⟨pre, post, rfl⟩, hbegin, hcommit, hbody⟩
    exact ⟨⟨pre, post ++ fences, by simp⟩, hbegin, hcommit, hbody⟩

theorem Transactional.inside_append_iff (h : Transactional thread) (hfences : TxFree fences)
    {begin commit x : Stmt} :
    Inside (thread ++ fences) begin commit x ↔ Inside thread begin commit x := by
  simp only [Inside, h.transaction_append_iff hfences]

theorem Transactional.append (h : Transactional thread) (hfences : TxFree fences) :
    Transactional (thread ++ fences) := by
  intro pre begin rest hsplit hbegin
  have hnot : begin ∉ fences := fun hmem => (hfences begin hmem).1 hbegin
  rcases List.append_eq_append_iff.mp hsplit with ⟨mid, -, hmid⟩ | ⟨mid, rfl, hmid⟩
  · exact absurd (by rw [hmid]; simp) hnot
  · cases mid with
    | nil => exact absurd (by rw [← List.nil_append fences, ← hmid]; simp) hnot
    | cons y mid =>
        obtain ⟨rfl, rfl⟩ := List.cons.inj hmid
        obtain ⟨body, commit, post, rfl, hrest⟩ := h pre begin mid rfl hbegin
        exact ⟨body, commit, post ++ fences, by simp, hrest⟩

theorem Sealed.append (hsealed : Sealed thread) (h : Transactional thread)
    (hfences : ∀ x ∈ fences, x.op = .fence) : Sealed (thread ++ fences) := by
  have htx : TxFree fences := by
    intro x hx
    simp [hfences x hx]
  have hnone : fences.filter Stmt.isStore = [] := by
    rw [List.filter_eq_nil_iff]
    intro x hx
    simp [hfences x hx]
  have houtside : ∀ x, Outside (thread ++ fences) x ↔ Outside thread x := by
    intro x
    simp only [Outside, h.inside_append_iff htx]
  intro pre begin body commit post hsplit hbegin hcommit hbody hlength
  obtain ⟨post', hthread, rfl⟩ := h.split_of_append htx hsplit hbegin hcommit hbody
  have hends := hsealed pre begin body commit post' hthread hbegin hcommit hbody hlength
  split at hends
  · rename_i hany
    rw [if_pos hany]
    refine ⟨?_, ?_⟩
    · intro first hhead hfirst y hy
      rw [houtside]
      exact hends.1 first hhead hfirst y hy
    · intro last hlast hlastOp y hy
      rw [List.filter_append, hnone, List.append_nil] at hy
      rw [houtside]
      exact hends.2 last hlast hlastOp y hy
  · rename_i hany
    rw [if_neg hany]
    intro x hx hop
    rw [houtside]
    rcases List.mem_append.mp hx with hx | hx
    · exact hends x hx hop
    · rw [hfences x hx] at hop
      cases hop

end Fenced

theorem fencedThread_eq (g : Globals) (thread : Trace) (a b : Id) :
    ∃ fences : Trace, fencedThread g thread a b = thread ++ fences ∧
      ∀ x ∈ fences, x.op = .fence := by
  refine ⟨_, rfl, ?_⟩
  intro x hx
  obtain ⟨store, -, -, -, k, -, -, rfl⟩ := mem_mpbFences hx
  rfl

theorem placed_of_satisfies {thread out : Trace} {a b : Id} {previous transact : List (Formula Var)}
    {σ : Var → Int} (hσ : Satisfies σ (mpbAssertions thread a b previous transact))
    (hform : Transactional thread) (htransact : transactionConstraints thread = some transact)
    (hids : (thread.map Stmt.id).Nodup) (hperm : out.Perm thread)
    (hposition : ∀ x ∈ thread, σ (.pc x.id) = position out x) : Placed thread out σ := by
  obtain ⟨hfit, -, htxs, -⟩ := satisfies_mpbAssertions.mp hσ
  obtain ⟨cons, hcons, hfits⟩ := hform.transactionConstraints hids.of_map
  rw [htransact, Option.some.injEq] at hcons
  refine ⟨hperm, hids, hposition, ?_, (hfits σ).mp (hcons ▸ htxs)⟩
  intro x y hbefore hx hy
  exact (hbefore.filter (by simpa using hx) (by simpa using hy)).rel hfit.order

theorem repairMPB_sealed {z : Solver Var} {g : Globals} {thread : Trace} {a b : Id}
    {previous : List (Formula Var)} {out : Repair} (hform : Transactional thread)
    (hsealed : Sealed thread) (h : repairMPB z g thread a b previous = some out)
    (hflag : out.bugFlag = true) : KeepsMembership thread out.thread := by
  obtain ⟨htransact, ⟨hdown, -⟩ | ⟨-, -, m, hsolved⟩⟩ := repairMPB_cases h
  · rw [hflag] at hdown
    cases hdown
  obtain ⟨fences, heq, hfences⟩ := fencedThread_eq g thread a b
  rw [heq] at htransact hsolved
  have htx : TxFree fences := by
    intro x hx
    simp [hfences x hx]
  have hplaced := placed_of_satisfies hsolved.model (hform.append htx) htransact
    hsolved.placement.ids_nodup hsolved.perm hsolved.position
  intro x hx hop begin commit
  rw [hplaced.keepsMembership (hform.append htx) (hsealed.append hform hfences) x
    (List.mem_append_left _ hx) hop begin commit, hform.inside_append_iff htx]

end PMBugRepair
