import PMBugRepair.Trace

/-!
# Helper functions of both steps

The threads of a trace, and what a transaction asks of the stores inside it.
-/

namespace PMBugRepair

open Smt (Formula)

/-- The threads come in the order in which a set lists their numbers; nothing depends on it. -/
def getIndividualThreads (trace : Trace) : List Trace :=
  (trace.map Stmt.tid).dedup.map fun tid => trace.filter fun x => x.tid = tid

/-- The statements up to the first `tx_commit`, and that commit. -/
def untilCommit : Trace → Option (Trace × Stmt)
  | [] => none
  | stmt :: rest =>
      if stmt.op = .txCommit then some ([], stmt)
      else (untilCommit rest).map fun found => (stmt :: found.1, found.2)

def getTransactionConstraints : Trace → List (Formula Var)
  | [] => []
  | stmt :: rest =>
      (if stmt.op = .txBegin then
        match untilCommit (stmt :: rest) with
        | some (inside, commit) => inside.map fun store => .lt (pt store) (pc commit)
        | none => []
      else []) ++ getTransactionConstraints rest

/-- A `tx_begin`, the statements behind it, and the first `tx_commit` that follows. -/
structure Transaction (trace : Trace) (begin : Stmt) (body : Trace) (commit : Stmt) : Prop where
  split : ∃ pre post, trace = pre ++ begin :: (body ++ commit :: post)
  begin_op : begin.op = .txBegin
  commit_op : commit.op = .txCommit
  no_commit : ∀ x ∈ body, x.op ≠ .txCommit

theorem untilCommit_eq_some_iff {trace inside : Trace} {commit : Stmt} :
    untilCommit trace = some (inside, commit) ↔ ∃ post, trace = inside ++ commit :: post ∧
      commit.op = .txCommit ∧ ∀ x ∈ inside, x.op ≠ .txCommit := by
  induction trace generalizing inside with
  | nil => simp [untilCommit]
  | cons stmt rest ih =>
      rw [untilCommit]
      split
      · rename_i hop
        constructor
        · intro heq
          obtain ⟨rfl, rfl⟩ := Prod.mk.inj (Option.some.inj heq)
          exact ⟨rest, rfl, hop, by simp⟩
        · rintro ⟨post, hsplit, hcommit, hinside⟩
          cases inside with
          | nil => rw [(List.cons.inj hsplit).1]
          | cons x inside =>
              obtain ⟨rfl, -⟩ := List.cons.inj hsplit
              exact absurd hop (hinside stmt List.mem_cons_self)
      · rename_i hop
        constructor
        · intro heq
          obtain ⟨⟨found, commit'⟩, hfound, hresult⟩ := Option.map_eq_some_iff.mp heq
          obtain ⟨rfl, rfl⟩ := Prod.mk.inj hresult
          obtain ⟨post, rfl, hcommit, hinside⟩ := ih.mp hfound
          exact ⟨post, rfl, hcommit, List.forall_mem_cons.mpr ⟨hop, hinside⟩⟩
        · rintro ⟨post, hsplit, hcommit, hinside⟩
          cases inside with
          | nil =>
              obtain ⟨rfl, -⟩ := List.cons.inj hsplit
              exact absurd hcommit hop
          | cons x inside =>
              obtain ⟨rfl, rfl⟩ := List.cons.inj hsplit
              rw [ih.mpr ⟨post, rfl, hcommit, (List.forall_mem_cons.mp hinside).2⟩, Option.map_some]

/-- Every constraint bounds a statement of a transaction, the `tx_begin` included. -/
theorem mem_getTransactionConstraints_iff {trace : Trace} {φ : Formula Var} :
    φ ∈ getTransactionConstraints trace ↔ ∃ begin body commit, Transaction trace begin body commit ∧
      ∃ x ∈ begin :: body, φ = .lt (pt x) (pc commit) := by
  induction trace with
  | nil =>
      simp only [getTransactionConstraints, List.not_mem_nil, false_iff]
      rintro ⟨begin, body, commit, ⟨⟨pre, post, hsplit⟩, -⟩, -⟩
      simp at hsplit
  | cons stmt rest ih =>
      rw [getTransactionConstraints, List.mem_append, ih]
      constructor
      · rintro (hφ | ⟨begin, body, commit, ⟨⟨pre, post, hsplit⟩, hbegin, hcommit, hbody⟩, hx⟩)
        · split at hφ
          · rename_i hop
            split at hφ
            · rename_i inside commit huntil
              obtain ⟨post, hsplit, hcommit, hinside⟩ := untilCommit_eq_some_iff.mp huntil
              obtain ⟨x, hx, rfl⟩ := List.mem_map.mp hφ
              cases inside with
              | nil => cases hx
              | cons begin body =>
                  obtain ⟨rfl, rfl⟩ := List.cons.inj hsplit
                  exact ⟨stmt, body, commit, ⟨⟨[], post, rfl⟩, hop, hcommit,
                    (List.forall_mem_cons.mp hinside).2⟩, x, hx, rfl⟩
            · cases hφ
          · cases hφ
        · exact ⟨begin, body, commit, ⟨⟨stmt :: pre, post, by rw [hsplit]; rfl⟩, hbegin, hcommit,
            hbody⟩, hx⟩
      · rintro ⟨begin, body, commit, ⟨⟨pre, post, hsplit⟩, hbegin, hcommit, hbody⟩, x, hx, rfl⟩
        cases pre with
        | nil =>
            obtain ⟨rfl, rfl⟩ := List.cons.inj hsplit
            have huntil : untilCommit (stmt :: (body ++ commit :: post)) =
                some (stmt :: body, commit) := by
              refine untilCommit_eq_some_iff.mpr ⟨post, rfl, hcommit, ?_⟩
              exact List.forall_mem_cons.mpr ⟨by simp [hbegin], hbody⟩
            rw [if_pos hbegin, huntil]
            exact .inl (List.mem_map.mpr ⟨x, hx, rfl⟩)
        | cons y pre =>
            obtain ⟨rfl, rfl⟩ := List.cons.inj hsplit
            exact .inr ⟨begin, body, commit, ⟨⟨pre, post, rfl⟩, hbegin, hcommit, hbody⟩, x, hx, rfl⟩

def TxFree (thread : Trace) : Prop := ∀ stmt ∈ thread, stmt.op ≠ .txBegin ∧ stmt.op ≠ .txCommit

theorem TxFree.getTransactionConstraints {thread : Trace} (h : TxFree thread) :
    getTransactionConstraints thread = [] := by
  induction thread with
  | nil => rfl
  | cons stmt rest ih =>
      rw [PMBugRepair.getTransactionConstraints, if_neg (h stmt List.mem_cons_self).1,
        ih fun x hx => h x (List.mem_cons_of_mem stmt hx)]
      rfl

/-! ### Transactions of several threads

Step 1 calls `getTransactionConstraints` on single threads, step 4 on the whole trace. -/

/-- The constraint is about a transaction of one thread: `x` stands behind a `tx_begin` of its
thread, or is this `tx_begin`, and `commit` is the next `tx_commit` of the thread. -/
structure WithinThread (trace : Trace) (x commit : Stmt) : Prop where
  tid : x.tid = commit.tid
  commit_op : commit.op = .txCommit
  split : ∃ pre begin body post, trace = pre ++ begin :: (body ++ commit :: post) ∧
    begin.op = .txBegin ∧ begin.tid = commit.tid ∧ x ∈ begin :: body ∧
    ∀ y ∈ body, y.tid = commit.tid → y.op ≠ .txCommit

theorem Transaction.tid_eq {trace body : Trace} {begin commit x : Stmt}
    (hids : (trace.map Stmt.id).Nodup) (htx : Transaction trace begin body commit)
    (hx : x ∈ begin :: body)
    (h : ∃ x' commit', Formula.lt (pt x) (pc commit) = .lt (pt x') (pc commit') ∧
      WithinThread trace x' commit') : x.tid = commit.tid := by
  obtain ⟨x', commit', hφ, hwithin⟩ := h
  obtain ⟨pre, post, hsplit⟩ := htx.split
  obtain ⟨pre', begin', body', post', hsplit', -, -, hx', -⟩ := hwithin.split
  have hmem : x ∈ trace := by
    rw [hsplit]
    rcases List.mem_cons.mp hx with rfl | hx
    · simp
    · simp [hx]
  have hmem' : x' ∈ trace := by
    rw [hsplit']
    rcases List.mem_cons.mp hx' with rfl | hx'
    · simp
    · simp [hx']
  simp only [pt, pc, Formula.lt.injEq, Smt.Term.var.injEq, Var.pt.injEq, Var.pc.injEq] at hφ
  have hsame := List.inj_on_of_nodup_map hids hmem hmem' hφ.1
  have hcommit := List.inj_on_of_nodup_map hids (by rw [hsplit]; simp) (by rw [hsplit']; simp) hφ.2
  rw [hsame, hcommit, hwithin.tid]

/-- The constraints stay within threads exactly when no statement of another thread stands between a
`tx_begin` and the next `tx_commit` of the trace. -/
theorem getTransactionConstraints_withinThread_iff (trace : Trace)
    (hids : (trace.map Stmt.id).Nodup) :
    (∀ φ ∈ getTransactionConstraints trace,
        ∃ x commit, φ = .lt (pt x) (pc commit) ∧ WithinThread trace x commit) ↔
      ∀ begin body commit, Transaction trace begin body commit →
        ∀ x ∈ begin :: body, x.tid = commit.tid := by
  constructor
  · intro h begin body commit htx x hx
    apply htx.tid_eq hids hx
    exact h _ (mem_getTransactionConstraints_iff.mpr ⟨begin, body, commit, htx, x, hx, rfl⟩)
  · intro h φ hφ
    obtain ⟨begin, body, commit, htx, x, hx, rfl⟩ := mem_getTransactionConstraints_iff.mp hφ
    have htids := h begin body commit htx
    obtain ⟨pre, post, hsplit⟩ := htx.split
    exact ⟨x, commit, rfl, htids x hx, htx.commit_op, pre, begin, body, post, hsplit, htx.begin_op,
      htids begin List.mem_cons_self, hx, fun y hy _ => htx.no_commit y hy⟩

/-- A store of another thread in front of a transaction. -/
def disjointTx : Trace :=
  [⟨.line 2, .store, "y", "-1", 1, "g_2"⟩, ⟨.line 3, .txBegin, "0", "-1", 0, "f_1"⟩,
    ⟨.line 4, .store, "x", "-1", 0, "f_2"⟩, ⟨.line 5, .txCommit, "0", "-1", 0, "f_3"⟩]

theorem getTransactionConstraints_disjointTx :
    (disjointTx.map Stmt.id).Nodup ∧ ∀ φ ∈ getTransactionConstraints disjointTx,
      ∃ x commit, φ = .lt (pt x) (pc commit) ∧ WithinThread disjointTx x commit := by
  have hids : (disjointTx.map Stmt.id).Nodup := by decide
  refine ⟨hids, (getTransactionConstraints_withinThread_iff disjointTx hids).mpr ?_⟩
  rintro begin body commit ⟨⟨pre, post, hsplit⟩, hbegin, -, -⟩ x hx
  cases pre with
  | nil =>
      obtain ⟨rfl, -⟩ := List.cons.inj hsplit
      cases hbegin
  | cons y pre =>
      rw [disjointTx, List.cons_append, List.cons.injEq] at hsplit
      obtain ⟨-, htail⟩ := hsplit
      have hthread : ∀ y ∈ pre ++ begin :: (body ++ commit :: post), y.tid = 0 := by
        rw [← htail]
        decide
      have hxMem : x ∈ pre ++ begin :: (body ++ commit :: post) := by
        rcases List.mem_cons.mp hx with rfl | hx
        · simp
        · simp [hx]
      rw [hthread x hxMem, hthread commit (by simp)]

/-- A store of another thread between a `tx_begin` and its `tx_commit`. -/
def overlappingTx : Trace :=
  [⟨.line 2, .txBegin, "0", "-1", 0, "f_1"⟩, ⟨.line 3, .store, "y", "-1", 1, "g_2"⟩,
    ⟨.line 4, .txCommit, "0", "-1", 0, "f_3"⟩]

theorem getTransactionConstraints_overlappingTx :
    ¬∀ φ ∈ getTransactionConstraints overlappingTx,
      ∃ x commit, φ = .lt (pt x) (pc commit) ∧ WithinThread overlappingTx x commit := by
  intro h
  have htx : Transaction overlappingTx overlappingTx[0] [overlappingTx[1]] overlappingTx[2] :=
    ⟨⟨[], [], rfl⟩, rfl, rfl, by decide⟩
  have hconstraint := h _ (mem_getTransactionConstraints_iff.mpr
    ⟨_, _, _, htx, overlappingTx[1], by simp, rfl⟩)
  have htid := @Transaction.tid_eq _ _ _ _ overlappingTx[1] (by decide) htx (by simp) hconstraint
  exact absurd htid (by decide)

end PMBugRepair
