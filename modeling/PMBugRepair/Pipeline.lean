import PMBugRepair.Files.RoundTrip
import PMBugRepair.Step1.Crash
import PMBugRepair.Step1.Regress
import PMBugRepair.Step4.Crash

/-!
# From step 1 to step 4

Step 1 writes its trace to a file, without the numbers of the statements, and step 4 reads it: every
row is now numbered by its line, and the quotes that step 1 has kept are gone. What step 1 has
repaired outlives this and all repairs of step 4: the stores keep their data and their order, and a
crash of the locked trace keeps the order that an MPB bug has asked for.
-/

namespace PMBugRepair

open Persistency (ForcedBefore PersistsFirst)
open Schedule (Before)
open Smt (Solver Satisfies)
open Strings (Text lit)

/-- `replace("'", "")`. -/
def withoutQuotes (s : String) : String := String.ofList (unquoted s.toList)

/-- A statement of step 1 as step 4 reads it from line `k`. -/
def Stmt.readAt (stmt : Stmt) (k : Nat) : Stmt :=
  { stmt with id := .line k, addr := withoutQuotes stmt.addr, dep := withoutQuotes stmt.dep }

/-- The trace of step 1 as step 4 reads it. -/
def reread (trace : Trace) : Trace := (trace.zipIdx 2).map fun entry => entry.1.readAt entry.2

section Reread

variable {trace : Trace}

@[simp] theorem Stmt.readAt_op (stmt : Stmt) (k : Nat) : (stmt.readAt k).op = stmt.op := rfl

@[simp] theorem Stmt.readAt_tid (stmt : Stmt) (k : Nat) : (stmt.readAt k).tid = stmt.tid := rfl

@[simp] theorem length_reread (trace : Trace) : (reread trace).length = trace.length := by
  simp [reread]

theorem reread_numbered (trace : Trace) : Numbered (reread trace) := by
  rw [Numbered, length_reread, ← List.zipIdx_map_snd, reread, List.map_map, List.map_map]
  rfl

theorem mem_reread {x : Stmt} (hx : x ∈ reread trace) : ∃ y ∈ trace, ∃ k, x = y.readAt k := by
  obtain ⟨entry, hentry, rfl⟩ := List.mem_map.mp hx
  exact ⟨entry.1, List.fst_mem_of_mem_zipIdx hentry, entry.2, rfl⟩

/-- A row that occurs once has one line. -/
theorem zipIdx_unique {p : Stmt → Bool} {x : Stmt} {i j : Nat} (hnodup : (trace.filter p).Nodup)
    (hx : p x = true) (hi : (x, i) ∈ trace.zipIdx 2) (hj : (x, j) ∈ trace.zipIdx 2) : i = j := by
  by_contra hne
  have htwice : Before trace x x := by
    have hmap : ∀ {a b}, Before (trace.zipIdx 2) (x, a) (x, b) → Before trace x x := by
      intro a b hbefore
      have hsub := List.Sublist.map Prod.fst hbefore
      rwa [List.zipIdx_map_fst] at hsub
    rcases Schedule.before_or_before hi hj (by simp [hne]) with hbefore | hbefore
    · exact hmap hbefore
    · exact hmap hbefore
  have hfilter := htwice.filter hx hx
  exact hfilter.asymm hnodup hfilter

/-- The flush and the fence between two stores of a thread are read as such. -/
theorem forcedBefore_reread {p : Stmt → Bool} {t : Nat} {first second : Stmt} {i j : Nat}
    (h : ForcedBefore memoryProgram (trace.filter fun x => x.tid = t) first second)
    (hnodup : (trace.filter p).Nodup) (hfirst : p first = true) (hsecond : p second = true)
    (hi : (first, i) ∈ trace.zipIdx 2) (hj : (second, j) ∈ trace.zipIdx 2) :
    ForcedBefore memoryProgram ((reread trace).filter fun x => x.tid = t) (first.readAt i)
      (second.readAt j) := by
  obtain ⟨flush, fence, hsub, hop, hflush, haddr, hfence, htid⟩ := forcedBefore_iff.mp h
  have hthread : ∀ x ∈ [first, flush, fence, second], x.tid = t := fun x hx => by
    simpa using (List.mem_filter.mp (hsub.subset hx)).2
  have hall := hsub.trans List.filter_sublist
  rw [← List.zipIdx_map_fst 2 trace, List.sublist_map_iff] at hall
  obtain ⟨entries, hentries, heq⟩ := hall
  obtain ⟨e₁, rest, rfl, h₁, heq⟩ := List.map_eq_cons_iff.mp heq.symm
  obtain ⟨e₂, rest, rfl, h₂, heq⟩ := List.map_eq_cons_iff.mp heq
  obtain ⟨e₃, rest, rfl, h₃, heq⟩ := List.map_eq_cons_iff.mp heq
  obtain ⟨e₄, rest, rfl, h₄, heq⟩ := List.map_eq_cons_iff.mp heq
  obtain rfl := List.map_eq_nil_iff.mp heq
  -- the lines of the two stores are theirs, as neither row occurs twice
  have hi' : e₁.2 = i := zipIdx_unique hnodup hfirst (h₁ ▸ hentries.subset (by simp)) hi
  have hj' : e₄.2 = j := zipIdx_unique hnodup hsecond (h₄ ▸ hentries.subset (by simp)) hj
  have hread : [first.readAt i, flush.readAt e₂.2, fence.readAt e₃.2, second.readAt j].Sublist
      (reread trace) := by
    have hmap := hentries.map fun entry => entry.1.readAt entry.2
    simpa only [List.map_cons, List.map_nil, h₁, h₂, h₃, h₄, hi', hj', reread] using hmap
  refine forcedBefore_iff.mpr ⟨flush.readAt e₂.2, fence.readAt e₃.2, ?_, hop, hflush, ?_, hfence,
    htid⟩
  · have hown := hread.filter fun x => decide (x.tid = t)
    rwa [List.filter_eq_self.mpr (by simpa using hthread)] at hown
  · exact congrArg withoutQuotes haddr

end Reread

/-! ### The files between the passes -/

/-- The number of an opcode in the rows. -/
def Opcode.code : Opcode → Nat
  | .load => 100
  | .store => 101
  | .flush => 102
  | .fence => 103
  | .lock => 105
  | .unlock => 106
  | .txBegin => 201
  | .txCommit => 202

/-- A statement as step 1 holds it. The rows it inserts have the number `-1` for a dependency. -/
def Stmt.row (stmt : Stmt) : Row :=
  { index := stmt.id.lineNo, op := some stmt.op.code, add := stmt.addr.toList,
    dep := match stmt.id with
      | .line _ => .text stmt.dep.toList
      | _ => .num (-1),
    tid := stmt.tid, scope := stmt.scope.toList }

/-- A statement as step 4 holds it. -/
def Stmt.readRow (stmt : Stmt) : ReadRow :=
  { index := stmt.id.lineNo, op := stmt.op.code, add := stmt.addr.toList, dep := stmt.dep.toList,
    tid := digits stmt.tid, scope := stmt.scope.toList }

def RowOp.opcode : RowOp → Opcode
  | .load => .load
  | .store => .store
  | .flush => .flush
  | .fence => .fence
  | .txBegin => .txBegin
  | .txCommit => .txCommit

/-- What the formatter wrote into line `k`, in step 1. -/
def Formatted.stmt (formatted : Formatted) (k : Nat) : Stmt :=
  { id := .line k, op := formatted.op.opcode, addr := String.ofList formatted.add.quoted,
    dep := String.ofList formatted.dep.quoted, tid := formatted.tid,
    scope := String.ofList formatted.scope }

/-- The trace of step 1 for a file of the formatter. -/
def parsed (formatted : List Formatted) : Trace :=
  (formatted.zipIdx 2).map fun entry => entry.1.stmt entry.2

section Files

variable {formatted : List Formatted} {x : Stmt} {k : Nat}

theorem parsed_numbered (formatted : List Formatted) : Numbered (parsed formatted) := by
  rw [Numbered, parsed, List.length_map, List.length_zipIdx, ← List.zipIdx_map_snd, List.map_map,
    List.map_map]
  rfl

theorem mem_parsed (hx : x ∈ parsed formatted) : ∃ stmt ∈ formatted, ∃ k, x = stmt.stmt k := by
  obtain ⟨entry, hentry, rfl⟩ := List.mem_map.mp hx
  exact ⟨entry.1, List.fst_mem_of_mem_zipIdx hentry, entry.2, rfl⟩

@[simp] theorem Formatted.row_stmt (stmt : Formatted) (k : Nat) :
    (stmt.stmt k).row = stmt.row k := by
  cases hop : stmt.op <;>
    simp [Stmt.row, Formatted.stmt, Formatted.row, Id.lineNo, RowOp.opcode, Opcode.code,
      RowOp.code, hop]

theorem Stmt.read_row (hdep : (∃ n, x.id = .line n) ∨ x.dep = "-1") :
    x.row.read k = (x.readAt k).readRow := by
  have hminus : decimal (-1) = "-1".toList := by with_unfolding_all decide
  have hunquoted : unquoted "-1".toList = "-1".toList := by with_unfolding_all decide
  cases hid : x.id <;>
    simp_all [Stmt.row, Row.read, Stmt.readRow, Stmt.readAt, withoutQuotes, Value.unquoted,
      Id.lineNo] <;> rfl

/-- What step 1 inserts for a store is the flush or the fence of its row. -/
theorem InsertedRow.row {trace : Trace} {bugs : List Bug} (h : InsertedRow trace bugs x) :
    x.dep = "-1" ∧ ∃ store ∈ trace, x.row = { store.row.flush with index := 0 } ∨
      x.row = { store.row.fence with index := 0 } := by
  have hlit : lit "_x" = ['_', 'x'] ∧ lit "0" = ['0'] := by with_unfolding_all decide
  have hfence : ∀ store id, x = insertedStmt store id .fence "0" → (∀ n, id ≠ .line n) →
      x.row = { store.row.fence with index := x.row.index } := by
    rintro store id rfl hid
    cases id <;> simp_all [insertedStmt, Stmt.row, Row.fence, Opcode.code]
  obtain ⟨store, hmem, hop, k, ⟨-, rfl | rfl⟩ | ⟨-, rfl⟩⟩ := h
  · refine ⟨rfl, store, hmem, .inl ?_⟩
    simp [insertedStmt, Stmt.row, Row.flush, Id.lineNo, Opcode.code, hlit]
  · exact ⟨rfl, store, hmem, .inr (hfence store _ rfl (by simp))⟩
  · exact ⟨rfl, store, hmem, .inr (hfence store _ rfl (by simp))⟩

end Files

/-- **The files between the passes.** Step 1 reads the statements of the formatter, and whatever it
then repairs, step 4 reads its statements, each with the number of its line. -/
theorem parseTrace_step1File {printable : Char → Bool} {threads : List (Text × Nat)}
    {formatted : List Formatted} {z : Nat → Nat → Solver Var} {out : Trace} {bugs : List Bug}
    {tids : List Nat} {g : Globals} (hclean : ∀ stmt ∈ formatted, stmt.Clean)
    (hliteral : ∀ stmt ∈ formatted, stmt.Literal printable)
    (hkeys : ∀ thread ∈ threads, ∃ n, thread.1 = digits n) (hne : threads ≠ [])
    (htids : tids.Perm ((parsed formatted).map Stmt.tid).dedup)
    (h : addConstraints z (parsed formatted) bugs tids = some (out, g)) :
    Step1.parseTrace (formatterFile printable threads formatted) =
        some ((parsed formatted).map Stmt.row, threadsLine printable threads,
          threads.map fun thread => (thread.1, (thread.2 : Int))) ∧
      Step4.parseTrace (step1File printable (threadsLine printable threads) (out.map Stmt.row)) =
        some ((reread out).map Stmt.readRow, threadsLine printable threads,
          threads.map fun thread => (thread.1, (thread.2 : Int))) := by
  have hnum := parsed_numbered formatted
  obtain ⟨family, hby⟩ := addConstraints_runs htids h
  have hrows := hby.mem_or_insertedRow hnum
  constructor
  · rw [(recoversFormatted_iff hclean hkeys).mpr ⟨hne, hliteral⟩, parsed, List.map_map]
    simp [Function.comp_def]
  · rw [recoversRepaired hclean hkeys hne hliteral (out.map Stmt.row)]
    · have hread : ∀ x ∈ out, ∀ k, x.row.read k = (x.readAt k).readRow := by
        intro x hx k
        refine Stmt.read_row ((hrows x hx).imp (fun hmem => ?_) fun hinserted => hinserted.row.1)
        exact hnum.line_of_mem hmem
      rw [reread, List.map_map, List.zipIdx_map, List.map_map]
      congr 2
      exact List.map_congr_left fun entry hentry =>
        hread entry.1 (List.fst_mem_of_mem_zipIdx hentry) entry.2
    · intro row hrow
      obtain ⟨x, hx, rfl⟩ := List.mem_map.mp hrow
      rcases hrows x hx with hmem | hinserted
      · obtain ⟨stmt, hstmt, k, rfl⟩ := mem_parsed hmem
        exact ⟨stmt, hstmt, k, .inl (stmt.row_stmt k)⟩
      · obtain ⟨-, store, hmem, hrow⟩ := hinserted.row
        obtain ⟨stmt, hstmt, k, rfl⟩ := mem_parsed hmem
        rw [Formatted.row_stmt] at hrow
        exact ⟨stmt, hstmt, 0, .inr hrow⟩

/-- A store that step 1 flushes and fences. -/
theorem parseTrace_step1File_roundStore :
    ∃ out g, addConstraints (fun _ _ => .classical) (parsed [roundStore]) [.dura (.line 2)] [1] =
        some (out, g) ∧ out.map Stmt.op = [.store, .flush, .fence] ∧
      Step4.parseTrace (step1File (fun _ => true)
          (threadsLine (fun _ => true) [(digits 140, 0), (digits 152, 1)]) (out.map Stmt.row)) =
        some ((reread out).map Stmt.readRow,
          threadsLine (fun _ => true) [(digits 140, 0), (digits 152, 1)],
          [(digits 140, 0), (digits 152, 1)]) := by
  obtain ⟨⟨out, g⟩, hout, hops⟩ : ∃ result, addConstraints (fun _ _ => .classical)
      (parsed [roundStore]) [.dura (.line 2)] [1] = some result ∧
        result.1.map Stmt.op = [.store, .flush, .fence] := ⟨_, rfl, rfl⟩
  exact ⟨out, g, hout, hops, (@parseTrace_step1File _ _ [roundStore] _ _ _ [1] _
    (by simpa using roundStore_clean) (by simpa using roundStore_literal _) (by simp) (by simp)
    (.refl _) hout).2⟩

/-! ### Step 4 on the trace of step 1 -/

section Pipeline

variable {trace out : Trace} {bugs : List Bug} {tids : List Nat} {g : Globals} {input : MpaInput}
  {z : Nat → Solver Var} {n : Nat} {s : RepairState} {family : List (Nat × Trace)}

theorem RepairedBy.plain (h : RepairedBy trace bugs family out) (hnum : Numbered trace)
    (hplain : ∀ x ∈ trace, x.Plain) : ∀ x ∈ out, x.Plain :=
  h.forall_mem hnum ⟨fun _ _ _ _ _ => by simp [Stmt.Plain, insertedStmt],
    fun _ _ _ _ _ => by simp [Stmt.Plain, insertedStmt],
    fun _ _ _ _ _ => by simp [Stmt.Plain, insertedStmt]⟩ hplain

/-- As long as no row is there twice, the trace of step 1 is still all there. -/
theorem good_of_reread (hnum : Numbered trace) (hby : RepairedBy trace bugs family out)
    (hplain : ∀ x ∈ trace, x.Plain) (hinput : input.trace = reread out)
    (hrun : run input z n = some s) (hids : (s.trace.map Stmt.id).Nodup) : Good input s := by
  refine (run_good ?_ hrun).resolve_right fun hrepeats => hrepeats.1.not_nodup hids
  rw [hinput]
  intro x hx
  obtain ⟨y, hy, k, rfl⟩ := mem_reread hx
  exact hby.plain hnum hplain y hy

end Pipeline

/-- **The order survives the pipeline.** What step 1 has repaired for the two stores survives all
locks, unlocks and fences of step 4: in every interleaving of the final trace a crash that keeps the
second store keeps the first one, and an execution that ends has persisted it. -/
theorem pipeline_persistsFirst {z : Nat → Nat → Solver Var} {trace out : Trace} {bugs : List Bug}
    {tids : List Nat} {g : Globals} {t : Nat} {first second : Stmt} (hnum : Numbered trace)
    (htids : tids.Perm (trace.map Stmt.tid).dedup)
    (hbugs : FlushedThenFenced trace bugs t first second)
    (h : addConstraints z trace bugs tids = some (out, g)) (hplain : ∀ x ∈ trace, x.Plain)
    {input : MpaInput} (hinput : input.trace = reread out) {z' : Nat → Solver Var} {n : Nat}
    {s : RepairState} (hrun : run input z' n = some s) (hids : (s.trace.map Stmt.id).Nodup)
    {i j : Nat} (hi : (first, i) ∈ out.zipIdx 2) (hj : (second, j) ∈ out.zipIdx 2) {order : Trace}
    (horder : Schedule.Interleaving Stmt.tid s.trace order) :
    PersistsFirst memoryProgram order (first.readAt i) (second.readAt j) ∧
      ∀ memory, Persistency.Run memoryProgram order memory →
        first.readAt i ∈ memory.persisted := by
  obtain ⟨family, hby⟩ := addConstraints_runs htids h
  have hgood := good_of_reread hnum hby hplain hinput hrun hids
  have hread := forcedBefore_reread (hbugs.forcedBefore hnum hby) (hby.stores_nodup hnum)
    (by simp [hbugs.first_op]) (by simp [hbugs.second_op]) hi hj
  have hforced : ForcedBefore memoryProgram order (first.readAt i) (second.readAt j) := by
    refine hread.mono ?_
    have hthread := hgood.sublist.filter fun x => decide (x.tid = t)
    rw [hinput, ← horder.2] at hthread
    exact hthread.trans List.filter_sublist
  exact ⟨hforced.persistsFirst ((horder.1.filter Stmt.isStore).nodup_iff.mpr
    (hids.of_map.sublist List.filter_sublist)) (by simp [hbugs.second_op]),
    fun memory hmemory => hmemory.persisted_of_forced hforced.forced⟩

/-- Two stores of one thread and one of another. -/
def handedOn : Trace :=
  [⟨.line 2, .store, "0x10", "-1", 0, "f_1"⟩, ⟨.line 3, .store, "0x20", "-1", 0, "f_2"⟩,
    ⟨.line 4, .store, "0x30", "-1", 1, "g_1"⟩, ⟨.line 5, .fence, "0", "-1", 1, "g_2"⟩]

def handedOnBugs : List Bug := [.dura (.line 2), .mpb (.line 2) (.line 3)]

/-- What step 1 may make of the first thread. -/
def handedOnThread : Trace :=
  [⟨.line 2, .store, "0x10", "-1", 0, "f_1"⟩,
    ⟨.inserted (.line 2) 0, .flush, "0x10", "-1", 0, "f_1_x"⟩,
    ⟨.inserted (.line 2) 1, .fence, "0", "-1", 0, "f_1_x"⟩,
    ⟨.insertedFence (.line 2) 0, .fence, "0", "-1", 0, "f_1_x"⟩,
    ⟨.line 3, .store, "0x20", "-1", 0, "f_2"⟩]

noncomputable def handedOnSolver (_ _ : Nat) : Solver Var :=
  Solver.classical.preferring (modelOf handedOnThread)

theorem addConstraints_handedOn : ∃ g, addConstraints handedOnSolver handedOn handedOnBugs [0, 1] =
    some (handedOnThread ++ handedOn.drop 2, g) := by
  have hown : (handedOn.filter fun x => x.tid = 0) = handedOn.take 2 := by decide
  have hother : (handedOn.filter fun x => x.tid = 1) = handedOn.drop 2 := by decide
  have hcons : getTransactionConstraints (handedOn.take 2) = [] := by decide
  have hcons' : getTransactionConstraints (handedOn.drop 2) = [] := by decide
  set init : ThreadState := ⟨handedOn.take 2, [], .start⟩
  set durable := init.accept (.dura (.line 2))
    (repairDURA .start (handedOn.take 2) (.dura (.line 2)))
  have hthread : durable.thread =
      [handedOn[0], handedOnThread[1], handedOn[1], handedOnThread[2]] := rfl
  have hpairs : durable.constraints = adjacencies [(handedOnThread[0], handedOnThread[1])] := rfl
  have htx : TxFree durable.thread := by simp [TxFree, hthread, handedOn, handedOnThread]
  obtain ⟨fenced, hfenced, hprinted, -⟩ := @repairMPB_preferring .classical durable.globals
    durable.thread handedOnThread (.line 2) (.line 3) [(handedOnThread[0], handedOnThread[1])] htx
    ⟨by decide, by decide, by decide, by decide⟩ (by decide)
    ⟨handedOn[0], handedOn[1], (by decide : [_, _].Sublist _), rfl, rfl, rfl, rfl⟩
    handedOnThread[0] handedOnThread[4] handedOnThread[3] (by decide) (by decide) (by decide)
    (by decide) (by decide) (by decide)
  rw [← hpairs] at hfenced
  obtain ⟨st, hst, hout⟩ : ∃ st, repairThread (handedOnSolver 0) .start (handedOn.take 2)
      handedOnBugs [] = some st ∧ st.thread = handedOnThread := by
    refine ⟨durable.accept (.mpb (.line 2) (.line 3)) fenced, ?_, hprinted⟩
    have hdura : repairBug (handedOnSolver 0 0) init (.dura (.line 2)) = some durable := rfl
    have hmpb : repairBug (handedOnSolver 0 1) durable (.mpb (.line 2) (.line 3)) =
        some (durable.accept (.mpb (.line 2) (.line 3)) fenced) := by
      rw [repairBug, if_neg (by decide)]
      exact congrArg (Option.map _) hfenced
    rw [repairThread, handedOnBugs, repairBugs, hdura, Option.bind_some, repairBugs, hmpb]
    rfl
  -- neither bug is about the other thread
  obtain ⟨st', hst', hout'⟩ : ∃ st', repairThread (handedOnSolver 1) st.globals (handedOn.drop 2)
      handedOnBugs [] = some st' ∧ st'.thread = handedOn.drop 2 := ⟨_, rfl, rfl⟩
  refine ⟨st'.globals, ?_⟩
  simp only [addConstraints, List.map_cons, List.map_nil, hown, hother, repairThreads, hcons,
    hcons', hst, hst', hout, hout', Option.bind_eq_bind, Option.bind_some, Option.pure_def]
  congr 2

theorem flushedThenFenced_handedOn :
    FlushedThenFenced handedOn handedOnBugs 0 handedOn[0] handedOn[1] := by
  have hthread : (handedOn.filter fun x => x.tid = 0) = twoStores := by decide
  refine ⟨hthread ▸ twoStores_txFree, fun x hx htid => ?_, ?_, rfl, rfl, [.dura (.line 2)], [],
    rfl, List.mem_singleton.mpr rfl, by decide, by simp⟩
  · have hmem : x ∈ twoStores := by
      rw [← hthread]
      exact List.mem_filter.mpr ⟨hx, by simpa using htid⟩
    obtain ⟨n, hn, hdigits⟩ := twoStores_lines x hmem
    rwa [hn]
  · rw [hthread]
    exact List.Sublist.refl _

/-- The same trace as step 4 reads it. -/
def handedOnTrace : Trace :=
  [⟨.line 2, .store, "0x10", "-1", 0, "f_1"⟩, ⟨.line 3, .flush, "0x10", "-1", 0, "f_1_x"⟩,
    ⟨.line 4, .fence, "0", "-1", 0, "f_1_x"⟩, ⟨.line 5, .fence, "0", "-1", 0, "f_1_x"⟩,
    ⟨.line 6, .store, "0x20", "-1", 0, "f_2"⟩, ⟨.line 7, .store, "0x30", "-1", 1, "g_1"⟩,
    ⟨.line 8, .fence, "0", "-1", 1, "g_2"⟩]

theorem reread_handedOn : reread (handedOnThread ++ handedOn.drop 2) = handedOnTrace := by
  with_unfolding_all decide

/-- The other thread reads behind the first store. -/
def handedOnInput : MpaInput where
  trace := handedOnTrace
  bugs := [⟨handedOnTrace[0], handedOnTrace[5]⟩]
  numbered := reread_handedOn ▸ reread_numbered _
  bugs_in := by
    intro bug hbug
    rw [List.mem_singleton.mp hbug]
    exact ⟨by simp [handedOnTrace], by simp [handedOnTrace], rfl, rfl, ⟨2, rfl⟩, ⟨7, rfl⟩,
      by decide⟩

def handedOnTimes : Var → Int
  | .pc (.line 7) => 2
  | .pc (.line 8) => 3
  | .pc (.line n) => n - 1
  | .pt (.line 6) => 6
  | _ => 3

/-- Both stores of the bug are in sections. -/
def handedOnLocked : Trace :=
  [(LockSection.new handedOnTrace[0] 0).lock, handedOnTrace[0],
    (LockSection.new handedOnTrace[0] 0).fence, (LockSection.new handedOnTrace[0] 0).unlock,
    handedOnTrace[1], handedOnTrace[2], handedOnTrace[3], handedOnTrace[4],
    (LockSection.new handedOnTrace[5] 1).lock, handedOnTrace[5],
    (LockSection.new handedOnTrace[5] 1).unlock, handedOnTrace[6]]

theorem run_handedOn :
    ∃ g, run handedOnInput (fun _ => .classical) 2 = some ⟨handedOnLocked, g, false⟩ := by
  obtain ⟨cons, hcons, hholds⟩ : ∃ cons, lockConstraints handedOnInput.trace = some cons ∧
      Satisfies handedOnTimes (handedOnInput.transactCons ++ cons) := ⟨_, rfl, by decide⟩
  have hwrites : handedOnInput.writes = [.line 2] := by decide
  have hreads : handedOnInput.reads = [.line 7] := by decide
  obtain ⟨g, happend⟩ : ∃ g, appendTraceWithLocks { LockGlobals.start with numSolverCalls := 1 }
      handedOnInput.trace ⟨handedOnTrace[0], handedOnTrace[5]⟩ handedOnInput.writes
        handedOnInput.reads = some (handedOnLocked, g) := by
    rw [hwrites, hreads]
    exact ⟨_, rfl⟩
  obtain ⟨g', hremove⟩ : ∃ g', removeDeadlocks g handedOnLocked = some (handedOnLocked, g') :=
    ⟨_, rfl⟩
  have hbug : (⟨handedOnTrace[0], handedOnTrace[5]⟩ : Mpa).formula.Holds handedOnTimes := by decide
  have hplain : ∀ x ∈ handedOnInput.trace, x.Plain := by decide
  have hids : (handedOnLocked.map Stmt.id).Nodup := by decide
  have hinside : handedOnTrace[0] ∈ inside none handedOnLocked ∧
      handedOnTrace[5] ∈ inside none handedOnLocked := by decide
  have hruns := (@run_of_single_repair handedOnInput ⟨handedOnTrace[0], handedOnTrace[5]⟩ cons
    handedOnTimes handedOnLocked g g' rfl hcons hholds hbug happend hremove hplain hids hinside
    fun _ => .classical).1
  exact hruns.imp fun _ hrun => hrun 0

/-- Step 4 closes the section of the first store in front of its flush, and the order is kept. -/
theorem pipeline_persistsFirst_handedOn :
    ∃ g s, addConstraints handedOnSolver handedOn handedOnBugs [0, 1] =
        some (handedOnThread ++ handedOn.drop 2, g) ∧
      handedOnInput.trace = reread (handedOnThread ++ handedOn.drop 2) ∧
      run handedOnInput (fun _ => .classical) 2 = some s ∧ s.trace = handedOnLocked ∧
      ∀ order, Schedule.Interleaving Stmt.tid s.trace order →
        PersistsFirst memoryProgram order handedOnTrace[0] handedOnTrace[4] ∧
          ∀ memory, Persistency.Run memoryProgram order memory →
            handedOnTrace[0] ∈ memory.persisted := by
  obtain ⟨g, hout⟩ := addConstraints_handedOn
  obtain ⟨g', hrun⟩ := run_handedOn
  have hids : (handedOnLocked.map Stmt.id).Nodup := by decide
  have hfirst : handedOn[0].readAt 2 = handedOnTrace[0] := by with_unfolding_all decide
  have hsecond : handedOn[1].readAt 6 = handedOnTrace[4] := by with_unfolding_all decide
  have hline : (handedOn[0], 2) ∈ (handedOnThread ++ handedOn.drop 2).zipIdx 2 := by decide
  have hline' : (handedOn[1], 6) ∈ (handedOnThread ++ handedOn.drop 2).zipIdx 2 := by decide
  refine ⟨g, _, hout, reread_handedOn.symm, hrun, rfl, fun order horder => ?_⟩
  rw [← hfirst, ← hsecond]
  exact @pipeline_persistsFirst _ handedOn _ handedOnBugs [0, 1] _ 0 handedOn[0] handedOn[1] rfl
    (by decide) flushedThenFenced_handedOn hout (by decide) handedOnInput reread_handedOn.symm _ 2 _
    hrun hids 2 6 hline hline' order horder

end PMBugRepair
