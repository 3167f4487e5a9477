import PMBugRepair.Bugs.Scopes

/-!
# Transactions in the filtered trace

The brackets of a transaction have the scope of the library function that issues them, and the
filter treats them like any other statement. A store keeps its context if the brackets that are kept
say the same about it as all of them.
-/

namespace PMBugRepair

open Strings (Text lit)

/-- A begin or a commit of a thread. -/
def RowStmt.bracket (tid : Text) (stmt : RowStmt) : Bool :=
  stmt.tid = tid ∧ (stmt.op = .txBegin ∨ stmt.op = .txCommit)

/-- Between a begin and a commit of its thread. -/
def InTransaction (before : List RowStmt) (stmt : RowStmt) (after : List RowStmt) : Prop :=
  (∃ left opening right, before = left ++ opening :: right ∧ opening.op = .txBegin ∧
      opening.tid = stmt.tid ∧ ∀ x ∈ right, x.tid = stmt.tid → x.op ≠ .txCommit) ∧
    ∃ commit ∈ after, commit.op = .txCommit ∧ commit.tid = stmt.tid

/-- Every store that is kept is in a transaction of the filtered trace if it is in one of the
trace. -/
def KeepsContext (file₁ file₂ : Text) (trace : List RowStmt) : Prop :=
  ∀ before stmt after keptBefore keptAfter, trace = before ++ stmt :: after → stmt.op = .store →
    getRelevantTrace before file₁ file₂ = some keptBefore →
    getRelevantTrace [stmt] file₁ file₂ = some [stmt] →
    getRelevantTrace after file₁ file₂ = some keptAfter →
    (InTransaction keptBefore stmt keptAfter ↔ InTransaction before stmt after)

section Brackets

variable {keep : RowStmt → Bool} {tid : Text} {before after : List RowStmt}

/-- The last bracket of a thread, of those that are kept, is a begin. -/
def LastOpens (keep : RowStmt → Bool) (tid : Text) (before : List RowStmt) : Prop :=
  ∃ opening, (before.filter fun x => x.bracket tid && keep x).getLast? = some opening ∧
    opening.op = .txBegin

/-- A commit of a thread that is kept. -/
def Commits (keep : RowStmt → Bool) (tid : Text) (after : List RowStmt) : Prop :=
  ∃ commit ∈ after, commit.op = .txCommit ∧ commit.tid = tid ∧ keep commit = true

theorem bracket_iff {stmt : RowStmt} :
    stmt.bracket tid = true ↔ stmt.tid = tid ∧ (stmt.op = .txBegin ∨ stmt.op = .txCommit) := by
  simp [RowStmt.bracket]

/-- A begin without a later commit makes the last bracket a begin. -/
theorem lastOpens_iff : LastOpens keep tid before ↔
    ∃ left opening right, before.filter keep = left ++ opening :: right ∧
      opening.op = .txBegin ∧ opening.tid = tid ∧
        ∀ x ∈ right, x.tid = tid → x.op ≠ .txCommit := by
  have hfilter : before.filter (fun x => x.bracket tid && keep x) =
      (before.filter keep).filter (RowStmt.bracket tid) := by
    rw [List.filter_filter]
  rw [LastOpens, hfilter]
  constructor
  · rintro ⟨opening, hlast, hop⟩
    obtain ⟨left, right, heq, hbracket, hright⟩ := Lists.split_of_getLast?_filter hlast
    refine ⟨left, opening, right, heq, hop, (bracket_iff.mp hbracket).1,
      fun x hx htid hcommit => ?_⟩
    exact List.filter_eq_nil_iff.mp hright x hx (bracket_iff.mpr ⟨htid, .inr hcommit⟩)
  · rintro ⟨left, opening, right, heq, hop, htid, hright⟩
    have hopening : opening.bracket tid = true := bracket_iff.mpr ⟨htid, .inl hop⟩
    have hbegins : ∀ x ∈ opening :: right.filter (RowStmt.bracket tid), x.op = .txBegin := by
      intro x hx
      rcases List.mem_cons.mp hx with rfl | hx
      · exact hop
      · obtain ⟨hmem, hbracket⟩ := List.mem_filter.mp hx
        obtain ⟨hx, hop⟩ := bracket_iff.mp hbracket
        exact hop.resolve_right (hright x hmem hx)
    cases hlast : (opening :: right.filter (RowStmt.bracket tid)).getLast? with
    | none => simp at hlast
    | some last =>
        refine ⟨last, ?_, hbegins last (List.mem_of_getLast? hlast)⟩
        rw [heq, List.filter_append, List.filter_cons_of_pos hopening,
          List.getLast?_append_of_ne_nil _ (by simp), hlast]

theorem inTransaction_filter_iff {stmt : RowStmt} :
    InTransaction (before.filter keep) stmt (after.filter keep) ↔
      LastOpens keep stmt.tid before ∧ Commits keep stmt.tid after := by
  rw [InTransaction, lastOpens_iff, Commits]
  apply and_congr_right'
  simp only [List.mem_filter]
  constructor
  · rintro ⟨commit, ⟨hmem, hkeep⟩, hop, htid⟩
    exact ⟨commit, hmem, hop, htid, hkeep⟩
  · rintro ⟨commit, hmem, hop, htid, hkeep⟩
    exact ⟨commit, ⟨hmem, hkeep⟩, hop, htid⟩

theorem inTransaction_iff {stmt : RowStmt} :
    InTransaction before stmt after ↔
      LastOpens (fun _ => true) stmt.tid before ∧ Commits (fun _ => true) stmt.tid after := by
  rw [← inTransaction_filter_iff]
  simp

end Brackets

/-- The statements whose function is read from the lines. -/
def relevant (lines : List BugLine) (stmt : RowStmt) : Bool :=
  functionName stmt.scope ∈ lines.flatMap BugLine.decoded

/-- A store keeps its context if, when it is in a transaction, the last bracket before it that is
kept is a begin and a commit behind it is kept, and if, when the last bracket before it is no
begin, no begin is the last that is kept or no commit behind it is kept. -/
theorem keepsContext_iff {lines₁ lines₂ : List BugLine} {trace : List RowStmt}
    (hsolid : ∀ stmt ∈ trace, Solid stmt.scope) :
    KeepsContext (bugFile (lines₁.map BugLine.text)) (bugFile (lines₂.map BugLine.text)) trace ↔
      ∀ before stmt after, trace = before ++ stmt :: after → stmt.op = .store →
        relevant (lines₁ ++ lines₂) stmt = true →
        (LastOpens (fun _ => true) stmt.tid before → Commits (fun _ => true) stmt.tid after →
          LastOpens (relevant (lines₁ ++ lines₂)) stmt.tid before ∧
            Commits (relevant (lines₁ ++ lines₂)) stmt.tid after) ∧
        (¬LastOpens (fun _ => true) stmt.tid before →
          Commits (relevant (lines₁ ++ lines₂)) stmt.tid after →
            ¬LastOpens (relevant (lines₁ ++ lines₂)) stmt.tid before) := by
  have hfilter : ∀ part : List RowStmt, part ⊆ trace →
      getRelevantTrace part (bugFile (lines₁.map BugLine.text))
        (bugFile (lines₂.map BugLine.text)) = some (part.filter (relevant (lines₁ ++ lines₂))) :=
    fun part hpart => getRelevantTrace_bugFiles fun stmt hstmt => hsolid stmt (hpart hstmt)
  have hcommits : ∀ (tid : Text) (after : List RowStmt),
      Commits (relevant (lines₁ ++ lines₂)) tid after → Commits (fun _ => true) tid after :=
    fun _ _ ⟨commit, hmem, hop, htid, _⟩ => ⟨commit, hmem, hop, htid, rfl⟩
  constructor
  · intro h before stmt after hsplit hop hrelevant
    have hkeeps := h before stmt after _ _ hsplit hop (hfilter before (by simp [hsplit]))
      (by rw [hfilter [stmt] (by simp [hsplit])]; simp [hrelevant])
      (hfilter after (by simp [hsplit]))
    rw [inTransaction_filter_iff, inTransaction_iff] at hkeeps
    have hcommit := hcommits stmt.tid after
    tauto
  · intro h before stmt after keptBefore keptAfter hsplit hop hbefore hstmt hafter
    rw [hfilter before (by simp [hsplit]), Option.some.injEq] at hbefore
    rw [hfilter after (by simp [hsplit]), Option.some.injEq] at hafter
    rw [hfilter [stmt] (by simp [hsplit]), Option.some.injEq] at hstmt
    have hrelevant : relevant (lines₁ ++ lines₂) stmt = true := by
      have hmem : stmt ∈ [stmt].filter (relevant (lines₁ ++ lines₂)) := by
        rw [hstmt]
        exact List.mem_singleton_self stmt
      exact (List.mem_filter.mp hmem).2
    rw [← hbefore, ← hafter, inTransaction_filter_iff, inTransaction_iff]
    have hcondition := h before stmt after hsplit hop hrelevant
    have hcommit := hcommits stmt.tid after
    tauto

def openingStmt (scope : Text) : RowStmt :=
  { r := 1, op := .txBegin, add := .num 0, tid := lit "139888", uid := none, scope := scope }

def putStore : RowStmt :=
  { r := 2, op := .store, add := .text (lit "0x7f02"), tid := lit "139888", uid := some (lit "42"),
    scope := lit "put_294" }

def commitStmt (scope : Text) : RowStmt :=
  { r := 3, op := .txCommit, add := .num 0, tid := lit "139888", uid := none, scope := scope }

theorem transaction_eq_append_cons {opening commit : Text} {before after : List RowStmt}
    {stmt : RowStmt} (h : [openingStmt opening, putStore, commitStmt commit] =
      before ++ stmt :: after) (hop : stmt.op = .store) :
    before = [openingStmt opening] ∧ stmt = putStore ∧ after = [commitStmt commit] := by
  rcases before with _ | ⟨first, before⟩
  · rw [List.nil_append, List.cons.injEq] at h
    rw [← h.1] at hop
    cases hop
  rcases before with _ | ⟨second, before⟩
  · simp only [List.cons_append, List.nil_append, List.cons.injEq] at h
    exact ⟨by rw [h.1], h.2.1.symm, h.2.2.symm⟩
  rcases before with _ | ⟨third, before⟩
  · simp only [List.cons_append, List.nil_append, List.cons.injEq] at h
    rw [← h.2.2.1] at hop
    cases hop
  · simp at h

def putSite : Site := ⟨lit "put", 294, by with_unfolding_all decide⟩

/-- Brackets of the same function are kept with the store. -/
theorem keepsContext_put :
    KeepsContext (bugFile ([BugLine.dura putSite].map BugLine.text))
      (bugFile (([] : List BugLine).map BugLine.text))
      [openingStmt (lit "put_290"), putStore, commitStmt (lit "put_299")] := by
  have hsolid : ∀ stmt ∈ [openingStmt (lit "put_290"), putStore, commitStmt (lit "put_299")],
      Solid stmt.scope := by
    unfold Solid
    with_unfolding_all decide
  refine (keepsContext_iff hsolid).mpr ?_
  intro before stmt after hsplit hop _
  obtain ⟨rfl, rfl, rfl⟩ := transaction_eq_append_cons hsplit hop
  have hopens : ∀ keep : RowStmt → Bool, keep (openingStmt (lit "put_290")) = true →
      LastOpens keep putStore.tid [openingStmt (lit "put_290")] := by
    intro keep hkeep
    have hbracket : (openingStmt (lit "put_290")).bracket putStore.tid = true := by
      with_unfolding_all decide
    exact ⟨openingStmt (lit "put_290"), by simp [hkeep, hbracket], rfl⟩
  constructor
  · intro _ _
    exact ⟨hopens _ (by with_unfolding_all decide), commitStmt (lit "put_299"),
      List.mem_singleton_self _, rfl,
      rfl, by with_unfolding_all decide⟩
  · exact fun hnot => absurd (hopens _ rfl) hnot

/-- The store behind it, in the same transaction. -/
def nextStore : RowStmt :=
  { putStore with
    r := 3
    add := .text (lit "0x7f10")
    uid := some (lit "45")
    scope := lit "put_295" }

def nextSite : Site := ⟨lit "put", 295, by with_unfolding_all decide⟩

/-- Those of a library function are not. -/
theorem not_keepsContext_manual :
    ¬KeepsContext (bugFile ([BugLine.mpb putSite nextSite].map BugLine.text))
      (bugFile (([] : List BugLine).map BugLine.text))
      [openingStmt (lit "manual<>_110"), putStore, nextStore, commitStmt (lit "commit_355")] := by
  intro h
  have hiff := h [openingStmt (lit "manual<>_110")] putStore
    [nextStore, commitStmt (lit "commit_355")] [] [nextStore] rfl rfl (by with_unfolding_all decide)
    (by with_unfolding_all decide) (by with_unfolding_all decide)
  have hin : InTransaction [openingStmt (lit "manual<>_110")] putStore
      [nextStore, commitStmt (lit "commit_355")] :=
    ⟨⟨[], _, [], rfl, rfl, rfl, by simp⟩, commitStmt (lit "commit_355"), by simp, rfl, rfl⟩
  obtain ⟨-, commit, hcommit, hop, -⟩ := hiff.mpr hin
  rw [List.mem_singleton.mp hcommit] at hop
  cases hop

end PMBugRepair
