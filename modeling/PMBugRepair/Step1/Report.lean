import PMBugRepair.Step1.Complete
import PMBugRepair.Step1.Kind
import PMBugRepair.Step1.Recombine

/-!
# The report of step 1

The report gives as fixed the bugs whose lines `readBugs` could look up, a figure that stands before
the first repair. What the repairs return goes into `fixedBugs`, which nothing reads.
-/

namespace PMBugRepair

open Lists (howMany howMany_congr howMany_split howMany_zipIdx howMany_eq_iff_of_imp)
open Smt (Formula Solver)
open Strings (Text lit)

/-- The scopes and numbers of the statements. -/
def entries (trace : Trace) : List (Text × Nat) :=
  trace.filterMap fun x =>
    match x.id with
    | .line n => some (x.scope.toList, n)
    | _ => none

/-- What `Report.txt` shows, without the times. -/
structure Report where
  durasFixed : Nat
  mpbsFixed : Nat
  durasFailed : Nat
  mpbsFailed : Nat
  numFence : Nat
  numFlush : Nat
  numSolverCalls : Nat

def BugReader.report (reader : BugReader) (g : Globals) : Report :=
  { durasFixed := reader.totalDURA - reader.failedDURA
    mpbsFixed := reader.totalMPB - reader.failedMPB
    durasFailed := reader.failedDURA
    mpbsFailed := reader.failedMPB
    numFence := g.numFence
    numFlush := g.numFlush
    numSolverCalls := g.numSolverCalls }

/-- The main program on a parsed trace and a bug file: the trace it writes and its report. -/
def Step1.main (z : Nat → Nat → Solver Var) (trace : Trace) (file : Text) (tids : List Nat) :
    Option (Trace × Report) := do
  let reader ← readBugs file (entries trace)
  let (out, g) ← addConstraints z trace reader.bugs tids
  return (out, reader.report g)

/-! ### Turns

The bugs come up one after the other on each thread.
-/

section Turn

variable (z : Nat → Nat → Solver Var) (bugs : List Bug) (threads : List Trace)

/-- The state in which the bug at place `i` comes up on the `k`-th thread. -/
def turn (k i : Nat) : Option ThreadState := do
  let (_, g) ← repairThreads z bugs 0 .start (threads.take k)
  let thread ← threads[k]?
  repairBugs (z k) 0 (bugs.take i)
    { thread := thread, constraints := getTransactionConstraints thread, globals := g }

/-- `repairMPB` returns flag 1 for the bug at place `i`, on some thread. -/
def RepairedByMPB (i : Nat) : Prop :=
  ∃ k st a b out, turn z bugs threads k i = some st ∧ bugs[i]? = some (.mpb a b) ∧
    (Bug.mpb a b).mentionsInf = false ∧
    repairMPB (z k i) st.globals st.thread a b st.constraints = some out ∧ out.bugFlag = true

/-- `repairDURA` returns flag 1 for the bug at place `i`, on some thread. -/
def RepairedByDURA (i : Nat) : Prop :=
  ∃ k st bug, turn z bugs threads k i = some st ∧ bugs[i]? = some bug ∧ bug.mentionsInf = true ∧
    (repairDURA st.globals st.thread bug).bugFlag = true

variable {z bugs threads}

theorem exists_repairThreads_take {j : Nat} {g : Globals} {out : List Trace × Globals}
    (h : repairThreads z bugs j g threads = some out) {k : Nat} (hk : k < threads.length) :
    ∃ done g' st, repairThreads z bugs j g (threads.take k) = some (done, g') ∧
      repairThread (z (j + k)) g' threads[k] bugs (getTransactionConstraints threads[k]) =
        some st := by
  induction threads generalizing j g k out with
  | nil => cases hk
  | cons thread rest ih =>
      obtain ⟨st, hst, hrest⟩ := Option.bind_eq_some_iff.mp h
      obtain ⟨tail, htail, -⟩ := Option.bind_eq_some_iff.mp hrest
      cases k with
      | zero => exact ⟨[], g, st, rfl, hst⟩
      | succ k =>
          obtain ⟨done, g', last, hdone, hlast⟩ := ih htail (Nat.lt_of_succ_lt_succ hk)
          refine ⟨st.thread :: done, g', last, ?_, ?_⟩
          · simp [repairThreads, hst, hdone]
          · rw [show j + (k + 1) = j + 1 + k by omega]
            exact hlast

theorem exists_turn {out : List Trace × Globals}
    (h : repairThreads z bugs 0 .start threads = some out) {k i : Nat} (hk : k < threads.length)
    (hi : i < bugs.length) :
    ∃ st next, turn z bugs threads k i = some st ∧ repairBug (z k i) st bugs[i] = some next := by
  obtain ⟨done, g, last, hdone, hlast⟩ := exists_repairThreads_take h hk
  rw [Nat.zero_add] at hlast
  have hsplit : bugs = bugs.take i ++ bugs[i] :: bugs.drop (i + 1) := by simp
  rw [repairThread, hsplit, repairBugs_append] at hlast
  obtain ⟨st, hst, hrest⟩ := Option.bind_eq_some_iff.mp hlast
  obtain ⟨next, hnext, -⟩ := Option.bind_eq_some_iff.mp hrest
  have hplace : 0 + (bugs.take i).length = i := by
    rw [List.length_take]
    omega
  rw [hplace] at hnext
  refine ⟨st, next, ?_, hnext⟩
  simp [turn, hdone, hk, hst]

theorem turn_conserves {k i : Nat} {st : ThreadState} (h : turn z bugs threads k i = some st) :
    ∃ thread, threads[k]? = some thread ∧ Conserves thread st.thread := by
  obtain ⟨done, -, h⟩ := Option.bind_eq_some_iff.mp h
  obtain ⟨thread, hthread, h⟩ := Option.bind_eq_some_iff.mp h
  exact ⟨thread, hthread, repairBugs_conserves h⟩

/-- Whether `repairDURA` raises its flag is known before the run. -/
theorem repairedByDURA_iff {out : List Trace × Globals}
    (h : repairThreads z bugs 0 .start threads = some out) {i : Nat} {bug : Bug}
    (hbug : bugs[i]? = some bug) (hinf : bug.mentionsInf = true) :
    RepairedByDURA z bugs threads i ↔
      ∃ thread ∈ threads, ∃ store ∈ thread, store.op = .store ∧ store.id = bug.left := by
  constructor
  · rintro ⟨k, st, bug', hturn, hbug', -, hflag⟩
    obtain rfl := Option.some.inj (hbug.symm.trans hbug')
    obtain ⟨store, hmem, hop, hid⟩ := (repairDURA_flag_iff _ _ _).mp hflag
    obtain ⟨thread, hthread, hconserves⟩ := turn_conserves hturn
    exact ⟨thread, List.mem_of_getElem? hthread, store, (hconserves.mem_store_iff hop).mp hmem,
      hop, hid⟩
  · rintro ⟨thread, hmem, store, hstore, hop, hid⟩
    obtain ⟨k, hk, rfl⟩ := List.getElem_of_mem hmem
    obtain ⟨hi, rfl⟩ := List.getElem?_eq_some_iff.mp hbug
    obtain ⟨st, -, hturn, -⟩ := exists_turn h hk hi
    obtain ⟨thread, hthread, hconserves⟩ := turn_conserves hturn
    obtain rfl := Option.some.inj ((List.getElem?_eq_getElem hk).symm.trans hthread)
    exact ⟨k, st, bugs[i], hturn, hbug, hinf, (repairDURA_flag_iff _ _ _).mpr
      ⟨store, (hconserves.mem_store_iff hop).mpr hstore, hop, hid⟩⟩

/-- A call of `repairMPB` in this state finds a repair: the stores stand in order, and the
constraints allow times under which the bug happens and an order under which it cannot. -/
def Repairable (st : ThreadState) (a b : Id) : Prop :=
  InOrder st.thread a b ∧ ∃ transact,
    transactionConstraints (fencedThread st.globals st.thread a b) = some transact ∧
      (∃ τ, Happens (fencedThread st.globals st.thread a b) a b st.constraints transact τ) ∧
      ∃ σ, Avoids (fencedThread st.globals st.thread a b) a b st.constraints transact σ

theorem repairable_iff {z : Solver Var} {st : ThreadState} {a b : Id} {out : Repair}
    (h : repairMPB z st.globals st.thread a b st.constraints = some out) :
    Repairable st a b ↔ out.bugFlag = true := by
  rw [repairMPB_flag_iff h, Repairable, (repairMPB_cases h).1]
  simp only [Option.some.injEq, exists_eq_left']

/-- Whether `repairMPB` raises its flag for a bug is settled when the bug comes up. -/
theorem repairedByMPB_iff {out : List Trace × Globals}
    (h : repairThreads z bugs 0 .start threads = some out) {i : Nat} {a b : Id}
    (hbug : bugs[i]? = some (.mpb a b)) :
    RepairedByMPB z bugs threads i ↔ (Bug.mpb a b).mentionsInf = false ∧
      ∃ k st, turn z bugs threads k i = some st ∧ Repairable st a b := by
  constructor
  · rintro ⟨k, st, a', b', out, hturn, hbug', hinf, hout, hflag⟩
    obtain ⟨rfl, rfl⟩ := Bug.mpb.inj (Option.some.inj (hbug.symm.trans hbug'))
    exact ⟨hinf, k, st, hturn, (repairable_iff hout).mpr hflag⟩
  · rintro ⟨hinf, k, st, hturn, hrepairable⟩
    obtain ⟨thread, hthread, -⟩ := turn_conserves hturn
    obtain ⟨hk, -⟩ := List.getElem?_eq_some_iff.mp hthread
    obtain ⟨hi, hget⟩ := List.getElem?_eq_some_iff.mp hbug
    obtain ⟨st', next, hturn', hnext⟩ := exists_turn h hk hi
    obtain rfl := Option.some.inj (hturn.symm.trans hturn')
    rw [hget] at hnext
    rcases repairBug_cases hnext with ⟨hinf', -⟩ | ⟨-, a', b', out, heq, hout, -⟩
    · rw [hinf] at hinf'
      cases hinf'
    · obtain ⟨rfl, rfl⟩ := Bug.mpb.inj heq
      exact ⟨k, st, a, b, out, hturn, hbug, hinf, hout, (repairable_iff hout).mp hrepairable⟩

/-- On a thread without transactions it is known before the run. -/
theorem repairable_iff_of_txFree {k i : Nat} {st : ThreadState} {thread : Trace} {a b : Id}
    (hturn : turn z bugs threads k i = some st) (hthread : threads[k]? = some thread)
    (htx : TxFree thread) (hids : (thread.map Stmt.id).Nodup)
    (hlines : ∀ stmt ∈ thread, ∃ n, stmt.id = .line n) (horder : InOrder thread a b) :
    Repairable st a b ↔ ∀ store ∈ thread, store.op = .store →
      (dispatched (bugs.take i)).count store.id ≤ 1 := by
  obtain ⟨⟨done, g⟩, -, hrun⟩ := Option.bind_eq_some_iff.mp hturn
  obtain ⟨thread', hthread', hrun⟩ := Option.bind_eq_some_iff.mp hrun
  obtain rfl := Option.some.inj (hthread.symm.trans hthread')
  rw [htx.getTransactionConstraints] at hrun
  obtain ⟨hsteady, hconserves, hgood, hbad⟩ :=
    repairBugs_dispatched (horder.steady htx g) hids hlines rfl hrun
  obtain ⟨out, hout⟩ := exists_repairMPB (a := a) (b := b) (z := .classical) (g := st.globals)
    hsteady.txFree hsteady.nonempty hsteady.known
  rw [repairable_iff hout]
  constructor
  · intro hflag store hstore hop
    by_contra hcount
    have hbroken : Broken st := (hbad store hstore hop).2 (by omega)
    rw [hbroken.not_flag hout] at hflag
    cases hflag
  · exact fun hcount => (hgood hcount).flag hsteady (hconserves.inOrder_iff.mpr horder) hout

end Turn

/-! ### Lines and their repairs -/

section Lines

variable (z : Nat → Nat → Solver Var) (trace : Trace) (file : Text) (tids : List Nat)

def IsDuraLine (line : Text) : Prop := lit "DURA" <+: line

def IsMpbLine (line : Text) : Prop := lit "MPB" <+: line

/-- The passes look for the word anywhere in a line. On the lines that `convert.py` writes for pairs
this finds the DURA lines only if neither function has the word in its name. -/
theorem isDuraLine_mpbLine_iff (s t : Site) :
    (lit "DURA" <:+: mpbLine s.scope t.scope ++ ['\n'] →
        IsDuraLine (mpbLine s.scope t.scope ++ ['\n'])) ↔
      ¬lit "DURA" <:+: s.function ∧ ¬lit "DURA" <:+: t.function := by
  have hinfix := @dura_infix_iff s t (lit "MPB: [pt") (lit "pt") (by with_unfolding_all decide)
    (by with_unfolding_all decide)
  have hhead : lit "DURA" = 'D' :: lit "URA" ∧ lit "MPB: [pt" = 'M' :: lit "PB: [pt" := by
    with_unfolding_all decide
  have hnot : ¬IsDuraLine (pairText (lit "MPB: [pt") (lit "pt") s t) := by
    rw [IsDuraLine, pairText, hhead.1, hhead.2, List.cons_append, List.cons_prefix_cons]
    exact fun h => absurd h.1 (by decide)
  rw [mpbLine_eq, hinfix, imp_iff_not hnot]
  tauto

/-- As long as only DURA lines have the word, a constraint goes to the pass of its kind exactly if
it goes to the one that its line is for. -/
theorem dispatchedByKind_iff_isDuraLine {file : Text} {places : List (Text × Nat)}
    (hkinds : ∀ line ∈ bugLines file, lit "DURA" <:+: line → IsDuraLine line) :
    DispatchedByKind file places ↔ ∀ reader, readBugs file places = some reader →
      ∀ bug ∈ reader.bugs, ∀ line, Yields file places line bug →
        (HandedToDURA bug ↔ IsDuraLine line) ∧ (HandedToMPB bug ↔ ¬IsDuraLine line) := by
  have hkind : ∀ {line bug}, Yields file places line bug →
      (IsDuraLine line ↔ lit "DURA" <:+: line) := by
    rintro line bug ⟨-, -, hline, -⟩
    exact ⟨fun h => h.isInfix, hkinds line hline⟩
  refine forall₂_congr fun reader _ => forall₂_congr fun bug _ => forall₂_congr fun line h => ?_
  rw [hkind h]

/-- The index of `readBugs`. -/
def scopeNumbers : List (Text × Nat) := (scopeIndex (entries trace)).getD []

/-- The constraint that a line leaves. -/
def bugOf (line : Text) : Option Bug := BugReader.lineBug (scopeNumbers trace) line

def fileBugs : List Bug := (bugLines file).filterMap (bugOf trace)

/-- The place of the constraint of line `j` in the list of the bugs. -/
def placeOf (j : Nat) : Nat := (((bugLines file).take j).filterMap (bugOf trace)).length

def threadsOf : List Trace := tids.map fun tid => trace.filter fun x => x.tid = tid

/-- The number of lines of a kind whose bugs have been repaired. -/
noncomputable def repairedLines (kind : Text → Prop) (repaired : Nat → Prop) : Nat :=
  howMany (fun entry => kind entry.1 ∧ bugOf trace entry.1 ≠ none ∧
    repaired (placeOf trace file entry.2)) (bugLines file).zipIdx

/-- The report counts what happened. -/
structure CountsRepairs (report : Report) : Prop where
  mpbsFixed : report.mpbsFixed = repairedLines trace file IsMpbLine
    (RepairedByMPB z (fileBugs trace file) (threadsOf trace tids))
  durasFixed : report.durasFixed = repairedLines trace file IsDuraLine
    (RepairedByDURA z (fileBugs trace file) (threadsOf trace tids))
  mpbs : report.mpbsFixed + report.mpbsFailed = howMany IsMpbLine (bugLines file)
  duras : report.durasFixed + report.durasFailed = howMany IsDuraLine (bugLines file)

/-- The scopes of the line are found, but not in the order of their numbers. Such a line is not
counted at all. -/
def Dropped (line : Text) : Prop :=
  ∃ first second, BugReader.resolveMPB (scopeNumbers trace) line = some (first, second) ∧
    second ≤ first

/-- The line is of neither kind; it counts as an MPB bug that failed. -/
def Stray (line : Text) : Prop :=
  ¬IsMpbLine line ∧ ¬lit "DURA" <:+: line ∧
    BugReader.resolveMPB (scopeNumbers trace) line = none

/-- Every bug that `readBugs` makes a constraint of comes from a line of its kind and is repaired on
some thread, and as many MPB lines are dropped as other lines are counted as MPB bugs. -/
structure Reconciled : Prop where
  kinds : ∀ line ∈ bugLines file, lit "DURA" <:+: line → IsDuraLine line
  duras : ∀ line ∈ bugLines file, ∀ s, bugOf trace line = some (.dura s) →
    ∃ store ∈ trace, store.op = .store ∧ store.id = s
  mpbs : ∀ j line a b, (bugLines file)[j]? = some line → bugOf trace line = some (.mpb a b) →
    IsMpbLine line ∧ (Bug.mpb a b).mentionsInf = false ∧
      ∃ k st, turn z (fileBugs trace file) (threadsOf trace tids) k (placeOf trace file j) =
        some st ∧ Repairable st a b
  dropped : howMany (Stray trace) (bugLines file) =
    howMany (fun line => IsMpbLine line ∧ Dropped trace line) (bugLines file)

variable {z trace file tids}

theorem main_eq {reader : BugReader} {threads : List Trace} {g : Globals}
    (hreader : readBugs file (entries trace) = some reader)
    (hrun : repairThreads z reader.bugs 0 .start (threadsOf trace tids) = some (threads, g)) :
    Step1.main z trace file tids =
      some (recombine (storeSeqs trace) threads.flatten, reader.report g) := by
  have hadd : addConstraints z trace reader.bugs tids =
      some (recombine (storeSeqs trace) threads.flatten, g) := by
    rw [addConstraints]
    change (repairThreads z reader.bugs 0 .start (threadsOf trace tids)).bind _ = _
    rw [hrun]
    rfl
  simp [Step1.main, hreader, hadd]

theorem fileBugs_placeOf {j : Nat} {line : Text} {bug : Bug}
    (hline : (bugLines file)[j]? = some line)
    (hbug : bugOf trace line = some bug) :
    (fileBugs trace file)[placeOf trace file j]? = some bug := by
  obtain ⟨hj, rfl⟩ := List.getElem?_eq_some_iff.mp hline
  have hsplit : bugLines file =
      (bugLines file).take j ++ (bugLines file)[j] :: (bugLines file).drop (j + 1) := by simp
  have hbugs : fileBugs trace file = ((bugLines file).take j).filterMap (bugOf trace) ++
      bug :: ((bugLines file).drop (j + 1)).filterMap (bugOf trace) := by
    rw [fileBugs]
    nth_rewrite 1 [hsplit]
    rw [List.filterMap_append, List.filterMap_cons_some hbug]
  rw [hbugs, placeOf]
  simp

theorem exists_mem_threadsOf (htids : tids.Perm (trace.map Stmt.tid).dedup) {P : Stmt → Prop} :
    (∃ thread ∈ threadsOf trace tids, ∃ x ∈ thread, P x) ↔ ∃ x ∈ trace, P x := by
  constructor
  · rintro ⟨thread, hthread, x, hx, h⟩
    obtain ⟨tid, -, rfl⟩ := List.mem_map.mp hthread
    exact ⟨x, List.mem_of_mem_filter hx, h⟩
  · rintro ⟨x, hx, h⟩
    have htid : x.tid ∈ tids := by
      rw [htids.mem_iff, List.mem_dedup]
      exact List.mem_map_of_mem hx
    exact ⟨_, List.mem_map_of_mem htid, x, List.mem_filter.mpr ⟨hx, by simp⟩, h⟩

/-! ### What the report counts -/

theorem bugOf_eq_none_of_dura {line : Text} (hdura : lit "DURA" <:+: line) :
    bugOf trace line = none ↔ BugReader.resolveDURA (scopeNumbers trace) line = none := by
  rw [bugOf, BugReader.lineBug, if_pos hdura, Option.map_eq_none_iff]

theorem bugOf_eq_none_of_not_dura {line : Text} (hdura : ¬lit "DURA" <:+: line) :
    bugOf trace line = none ↔
      BugReader.resolveMPB (scopeNumbers trace) line = none ∨ Dropped trace line := by
  rw [bugOf, BugReader.lineBug, if_neg hdura, Dropped]
  cases BugReader.resolveMPB (scopeNumbers trace) line with
  | none => simp
  | some pair =>
      obtain ⟨first, second⟩ := pair
      simp

/-- The figures of the report in terms of the lines: they only depend on the reading. -/
structure CountsReading (trace : Trace) (file : Text) (report : Report) : Prop where
  durasFixed : report.durasFixed =
    howMany (fun line => lit "DURA" <:+: line ∧ bugOf trace line ≠ none) (bugLines file)
  duras : report.durasFixed + report.durasFailed =
    howMany (fun line => lit "DURA" <:+: line) (bugLines file)
  mpbsFixed : report.mpbsFixed =
    howMany (fun line => ¬lit "DURA" <:+: line ∧ bugOf trace line ≠ none) (bugLines file)
  mpbsFailed : report.mpbsFailed =
    howMany (fun line => ¬lit "DURA" <:+: line ∧
      BugReader.resolveMPB (scopeNumbers trace) line = none) (bugLines file)

theorem main_report {out : Trace} {report : Report}
    (h : Step1.main z trace file tids = some (out, report)) :
    CountsReading trace file report ∧
      ∃ res, repairThreads z (fileBugs trace file) 0 .start (threadsOf trace tids) = some res := by
  obtain ⟨reader, hreader, h⟩ := Option.bind_eq_some_iff.mp h
  obtain ⟨⟨out', g⟩, hadd, h⟩ := Option.bind_eq_some_iff.mp h
  obtain ⟨-, rfl⟩ := Prod.mk.inj (Option.some.inj h)
  obtain ⟨index, hindex, hreader⟩ := Option.bind_eq_some_iff.mp hreader
  obtain rfl : scopeNumbers trace = index := by
    rw [scopeNumbers, hindex, Option.getD_some]
  have hbugs : reader.bugs = fileBugs trace file := by
    rw [← Option.some.inj hreader, BugReader.foldl_bugs]
    rfl
  obtain ⟨htotalDURA, hfailedDURA, htotalMPB, hfailedMPB⟩ :=
    @BugReader.foldl_counts (scopeNumbers trace) (bugLines file) {}
  rw [Option.some.inj hreader, Nat.zero_add] at htotalDURA hfailedDURA htotalMPB hfailedMPB
  have hduras : reader.totalDURA =
      howMany (fun line => lit "DURA" <:+: line) (bugLines file) := by
    rw [htotalDURA]
    exact Lists.countP_eq_howMany fun line _ => decide_eq_true_iff
  have hdurasFailed : reader.failedDURA = howMany (fun line => lit "DURA" <:+: line ∧
      ¬bugOf trace line ≠ none) (bugLines file) := by
    rw [hfailedDURA]
    refine Lists.countP_eq_howMany fun line _ => ?_
    rw [decide_eq_true_iff, not_not]
    exact and_congr_right fun hdura => (bugOf_eq_none_of_dura hdura).symm
  have hmpbsFailed : reader.failedMPB = howMany (fun line => ¬lit "DURA" <:+: line ∧
      BugReader.resolveMPB (scopeNumbers trace) line = none) (bugLines file) := by
    rw [hfailedMPB]
    exact Lists.countP_eq_howMany fun line _ => decide_eq_true_iff
  have hmpbs : reader.totalMPB = howMany (fun line => ¬lit "DURA" <:+: line ∧
        BugReader.resolveMPB (scopeNumbers trace) line = none) (bugLines file) +
      howMany (fun line => ¬lit "DURA" <:+: line ∧ bugOf trace line ≠ none) (bugLines file) := by
    rw [htotalMPB, Lists.countP_eq_howMany fun line _ => decide_eq_true_iff,
      howMany_split _ fun line => BugReader.resolveMPB (scopeNumbers trace) line = none]
    congr 1
    · exact howMany_congr fun line _ => ⟨fun hall => ⟨hall.1.1, hall.2⟩,
        fun hall => ⟨⟨hall.1, .inl hall.2⟩, hall.2⟩⟩
    · refine howMany_congr fun line _ => ⟨fun hall => ⟨hall.1.1, hall.1.2.resolve_left hall.2⟩,
        fun hall => ⟨⟨hall.1, .inr hall.2⟩, fun hnone => hall.2 ?_⟩⟩
      exact (bugOf_eq_none_of_not_dura hall.1).mpr (.inl hnone)
  have hsplit := howMany_split (fun line => lit "DURA" <:+: line)
    (fun line => bugOf trace line ≠ none)
    (bugLines file)
  refine ⟨⟨?_, ?_, ?_, hmpbsFailed⟩, ?_⟩
  · simp only [BugReader.report]
    omega
  · simp only [BugReader.report]
    omega
  · simp only [BugReader.report]
    omega
  · obtain ⟨res, hres, -⟩ := Option.bind_eq_some_iff.mp hadd
    exact ⟨res, hbugs ▸ hres⟩

/-- The lines that left a constraint are as many as the repaired lines only if all of them have been
repaired. -/
theorem eq_repairedLines_iff {read kind : Text → Prop} {repaired : Nat → Prop}
    (hread : ∀ j line, (bugLines file)[j]? = some line → kind line → bugOf trace line ≠ none →
      repaired (placeOf trace file j) → read line) :
    howMany (fun line => read line ∧ bugOf trace line ≠ none) (bugLines file) =
        repairedLines trace file kind repaired ↔
      ∀ j line, (bugLines file)[j]? = some line → read line → bugOf trace line ≠ none →
        kind line ∧ repaired (placeOf trace file j) := by
  rw [repairedLines, ← howMany_zipIdx (fun line => read line ∧ bugOf trace line ≠ none) _ 0,
    howMany_eq_iff_of_imp]
  · constructor
    · intro h j line hline hkind hbug
      obtain ⟨hkind, -, hrepaired⟩ :=
        h (line, j) (List.mk_mem_zipIdx_iff_getElem?.mpr hline) ⟨hkind, hbug⟩
      exact ⟨hkind, hrepaired⟩
    · rintro h ⟨line, j⟩ hentry ⟨hkind, hbug⟩
      obtain ⟨hkind, hrepaired⟩ :=
        h j line (List.mk_mem_zipIdx_iff_getElem?.mp hentry) hkind hbug
      exact ⟨hkind, hbug, hrepaired⟩
  · rintro ⟨line, j⟩ hentry ⟨hkind, hbug, hrepaired⟩
    exact ⟨hread j line (List.mk_mem_zipIdx_iff_getElem?.mp hentry) hkind hbug hrepaired, hbug⟩

theorem duras_iff {report : Report} (hreading : CountsReading trace file report) :
    report.durasFixed + report.durasFailed = howMany IsDuraLine (bugLines file) ↔
      ∀ line ∈ bugLines file, lit "DURA" <:+: line → IsDuraLine line := by
  rw [hreading.duras]
  exact howMany_eq_iff_of_imp fun line _ hdura => hdura.isInfix

/-- Provided that the lines that left an MPB constraint are MPB lines and that no other kind of line
is read as a DURA line. -/
theorem mpbs_iff {report : Report} (hreading : CountsReading trace file report)
    (hkinds : ∀ line ∈ bugLines file, lit "DURA" <:+: line → IsDuraLine line)
    (hmpbs : ∀ line ∈ bugLines file, ¬lit "DURA" <:+: line → bugOf trace line ≠ none →
      IsMpbLine line) :
    report.mpbsFixed + report.mpbsFailed = howMany IsMpbLine (bugLines file) ↔
      howMany (Stray trace) (bugLines file) =
        howMany (fun line => IsMpbLine line ∧ Dropped trace line) (bugLines file) := by
  have hnot : ∀ line ∈ bugLines file, IsMpbLine line → ¬lit "DURA" <:+: line := by
    intro line hline hmpb hdura
    have hprefixes : ¬lit "DURA" <+: lit "MPB" ∧ ¬lit "MPB" <+: lit "DURA" := by
      with_unfolding_all decide
    rcases List.prefix_or_prefix_of_prefix (hkinds line hline hdura) hmpb with h | h
    · exact hprefixes.1 h
    · exact hprefixes.2 h
  rw [hreading.mpbsFixed, hreading.mpbsFailed]
  set lines := bugLines file
  set unresolved := fun line => BugReader.resolveMPB (scopeNumbers trace) line = none
  change _ + howMany (fun line => ¬lit "DURA" <:+: line ∧ unresolved line) lines = _ ↔ _
  have hfailed :=
    howMany_split (fun line => ¬lit "DURA" <:+: line ∧ unresolved line) IsMpbLine lines
  have hmpb := howMany_split IsMpbLine unresolved lines
  have hresolved := howMany_split (fun line => IsMpbLine line ∧ ¬unresolved line)
    (fun line => bugOf trace line ≠ none) lines
  have hboth : howMany (fun line => (¬lit "DURA" <:+: line ∧ unresolved line) ∧ IsMpbLine line)
      lines = howMany (fun line => IsMpbLine line ∧ unresolved line) lines :=
    howMany_congr fun line hline =>
      ⟨fun h => ⟨h.2, h.1.2⟩, fun h => ⟨⟨hnot line hline h.1, h.2⟩, h.1⟩⟩
  have hstray : howMany (fun line => (¬lit "DURA" <:+: line ∧ unresolved line) ∧ ¬IsMpbLine line)
      lines = howMany (Stray trace) lines :=
    howMany_congr fun line _ => ⟨fun h => ⟨h.2, h.1⟩, fun h => ⟨h.2, h.1⟩⟩
  have hfixed : howMany (fun line => ¬lit "DURA" <:+: line ∧ bugOf trace line ≠ none) lines =
      howMany (fun line => (IsMpbLine line ∧ ¬unresolved line) ∧ bugOf trace line ≠ none)
        lines := by
    refine howMany_congr fun line hline =>
      ⟨fun h => ⟨⟨hmpbs line hline h.1 h.2, fun hnone => h.2 ?_⟩, h.2⟩,
        fun h => ⟨hnot line hline h.1.1, h.2⟩⟩
    exact (bugOf_eq_none_of_not_dura h.1).mpr (.inl hnone)
  have hdropped : howMany (fun line => (IsMpbLine line ∧ ¬unresolved line) ∧
      ¬bugOf trace line ≠ none) lines =
        howMany (fun line => IsMpbLine line ∧ Dropped trace line) lines := by
    refine howMany_congr fun line hline => ⟨fun h => ⟨h.1.1, ?_⟩, fun h => ⟨⟨h.1, ?_⟩, ?_⟩⟩
    · have hnone := (bugOf_eq_none_of_not_dura (hnot line hline h.1.1)).mp (not_not.mp h.2)
      exact hnone.resolve_left h.1.2
    · obtain ⟨first, second, hsome, -⟩ := h.2
      exact fun hnone => Option.some_ne_none _ (hsome.symm.trans hnone)
    · exact not_not.mpr ((bugOf_eq_none_of_not_dura (hnot line hline h.1)).mpr (.inr h.2))
  omega

/-- The DURA figure is right when every DURA bug that was read is the bug of a store. -/
theorem durasFixed_iff {report : Report} (hreading : CountsReading trace file report)
    {res : List Trace × Globals}
    (hrun : repairThreads z (fileBugs trace file) 0 .start (threadsOf trace tids) = some res)
    (htids : tids.Perm (trace.map Stmt.tid).dedup)
    (hkinds : ∀ line ∈ bugLines file, lit "DURA" <:+: line → IsDuraLine line) :
    report.durasFixed = repairedLines trace file IsDuraLine
        (RepairedByDURA z (fileBugs trace file) (threadsOf trace tids)) ↔
      ∀ line ∈ bugLines file, ∀ s, bugOf trace line = some (.dura s) →
        ∃ store ∈ trace, store.op = .store ∧ store.id = s := by
  have hrepaired : ∀ j line s, (bugLines file)[j]? = some line →
      bugOf trace line = some (.dura s) →
      (RepairedByDURA z (fileBugs trace file) (threadsOf trace tids) (placeOf trace file j) ↔
        ∃ store ∈ trace, store.op = .store ∧ store.id = s) := fun j line s hline hbug =>
    (repairedByDURA_iff hrun (fileBugs_placeOf hline hbug) (Bug.mentionsInf_dura s)).trans
      (exists_mem_threadsOf htids)
  rw [hreading.durasFixed, eq_repairedLines_iff fun j line _ hdura _ _ => hdura.isInfix]
  constructor
  · intro h line hline s hbug
    obtain ⟨j, hj⟩ := List.mem_iff_getElem?.mp hline
    rcases lineBug_cases hbug with ⟨hdura, -⟩ | ⟨-, first, second, heq⟩
    · refine (hrepaired j line s hj hbug).mp (h j line hj hdura ?_).2
      rw [hbug]
      exact Option.some_ne_none _
    · cases heq
  · intro h j line hline hdura hbug
    obtain ⟨bug, hbug⟩ := Option.ne_none_iff_exists'.mp hbug
    have hmem := List.mem_of_getElem? hline
    rcases lineBug_cases hbug with ⟨-, data, rfl⟩ | ⟨hnot, -⟩
    · exact ⟨hkinds line hmem hdura, (hrepaired j line _ hline hbug).mpr (h line hmem _ hbug)⟩
    · exact absurd hdura hnot

/-- The MPB figure is right when every MPB bug that was read comes from an MPB line and is found
repairable on some thread. -/
theorem mpbsFixed_iff {report : Report} (hreading : CountsReading trace file report)
    {res : List Trace × Globals}
    (hrun : repairThreads z (fileBugs trace file) 0 .start (threadsOf trace tids) = some res) :
    report.mpbsFixed = repairedLines trace file IsMpbLine
        (RepairedByMPB z (fileBugs trace file) (threadsOf trace tids)) ↔
      ∀ j line a b, (bugLines file)[j]? = some line → bugOf trace line = some (.mpb a b) →
        IsMpbLine line ∧ (Bug.mpb a b).mentionsInf = false ∧
          ∃ k st, turn z (fileBugs trace file) (threadsOf trace tids) k (placeOf trace file j) =
            some st ∧ Repairable st a b := by
  rw [hreading.mpbsFixed, eq_repairedLines_iff]
  · constructor
    · intro h j line a b hline hbug
      rcases lineBug_cases hbug with ⟨-, data, heq⟩ | ⟨hnot, -⟩
      · cases heq
      · obtain ⟨hkind, hrepaired⟩ := h j line hline hnot (by rw [hbug]; exact Option.some_ne_none _)
        exact ⟨hkind, (repairedByMPB_iff hrun (fileBugs_placeOf hline hbug)).mp hrepaired⟩
    · intro h j line hline hnot hbug
      obtain ⟨bug, hbug⟩ := Option.ne_none_iff_exists'.mp hbug
      rcases lineBug_cases hbug with ⟨hdura, -⟩ | ⟨-, first, second, rfl⟩
      · exact absurd hdura hnot
      · obtain ⟨hkind, hrepaired⟩ := h j line _ _ hline hbug
        exact ⟨hkind, (repairedByMPB_iff hrun (fileBugs_placeOf hline hbug)).mpr hrepaired⟩
  · rintro j line hline - hbug ⟨k, st, a, b, out, -, hget, -⟩
    obtain ⟨bug, hbug⟩ := Option.ne_none_iff_exists'.mp hbug
    obtain rfl := Option.some.inj ((fileBugs_placeOf hline hbug).symm.trans hget)
    rcases lineBug_cases hbug with ⟨-, data, heq⟩ | ⟨hnot, -⟩
    · cases heq
    · exact hnot

end Lines

/-- **When the report counts what happened**, for every run of step 1. The figures are those of the
reading. They are right exactly when every bug that was read comes from a line of its kind and is
repaired on some thread, and no MPB line is dropped, or only as many as are made up for by lines of
another kind. -/
theorem main_countsRepairs_iff {z : Nat → Nat → Solver Var} {trace : Trace} {file : Text}
    {tids : List Nat} (htids : tids.Perm (trace.map Stmt.tid).dedup) {out : Trace} {report : Report}
    (h : Step1.main z trace file tids = some (out, report)) :
    CountsRepairs z trace file tids report ↔ Reconciled z trace file tids := by
  obtain ⟨hreading, res, hrun⟩ := main_report h
  have hmpbLines : (∀ j line a b, (bugLines file)[j]? = some line →
      bugOf trace line = some (.mpb a b) → IsMpbLine line ∧ (Bug.mpb a b).mentionsInf = false ∧
        ∃ k st, turn z (fileBugs trace file) (threadsOf trace tids) k (placeOf trace file j) =
          some st ∧ Repairable st a b) →
      ∀ line ∈ bugLines file, ¬lit "DURA" <:+: line → bugOf trace line ≠ none →
        IsMpbLine line := by
    intro hmpbs line hline hnot hbug
    obtain ⟨j, hj⟩ := List.mem_iff_getElem?.mp hline
    obtain ⟨bug, hbug⟩ := Option.ne_none_iff_exists'.mp hbug
    rcases lineBug_cases hbug with ⟨hdura, -⟩ | ⟨-, first, second, rfl⟩
    · exact absurd hdura hnot
    · exact (hmpbs j line _ _ hj hbug).1
  constructor
  · intro hcounts
    have hkinds := (duras_iff hreading).mp hcounts.duras
    have hmpbs := (mpbsFixed_iff hreading hrun).mp hcounts.mpbsFixed
    exact ⟨hkinds, (durasFixed_iff hreading hrun htids hkinds).mp hcounts.durasFixed, hmpbs,
      (mpbs_iff hreading hkinds (hmpbLines hmpbs)).mp hcounts.mpbs⟩
  · intro hreconciled
    exact ⟨(mpbsFixed_iff hreading hrun).mpr hreconciled.mpbs,
      (durasFixed_iff hreading hrun htids hreconciled.kinds).mpr hreconciled.duras,
      (mpbs_iff hreading hreconciled.kinds (hmpbLines hreconciled.mpbs)).mpr hreconciled.dropped,
      (duras_iff hreading).mpr hreconciled.kinds⟩

/-- Both bugs of two stores of one thread. -/
def twoStoresFile : Text :=
  bugFile [duraLine (lit "f_1"), mpbLine (lit "f_1") (lit "f_2")]

theorem main_countsRepairs_iff_twoStores :
    [0].Perm (twoStores.map Stmt.tid).dedup ∧ ∃ out report,
      Step1.main (fun _ _ => .classical) twoStores twoStoresFile [0] = some (out, report) ∧
        CountsRepairs (fun _ _ => .classical) twoStores twoStoresFile [0] report := by
  have htids : [0].Perm (twoStores.map Stmt.tid).dedup := by decide
  have hlines : bugLines twoStoresFile =
      [duraLine (lit "f_1"), mpbLine (lit "f_1") (lit "f_2")] := by
    with_unfolding_all decide
  have hreader : readBugs twoStoresFile (entries twoStores) =
      some ⟨[.dura (.line 2), .mpb (.line 2) (.line 3)], 1, 1, 0, 0⟩ := by
    with_unfolding_all decide
  have hbugs : bugOf twoStores (duraLine (lit "f_1")) = some (.dura (.line 2)) ∧
      bugOf twoStores (mpbLine (lit "f_1") (lit "f_2")) = some (.mpb (.line 2) (.line 3)) := by
    with_unfolding_all decide
  have hkinds : IsDuraLine (duraLine (lit "f_1")) ∧ ¬IsMpbLine (duraLine (lit "f_1")) ∧
      IsMpbLine (mpbLine (lit "f_1") (lit "f_2")) ∧
      ¬lit "DURA" <:+: mpbLine (lit "f_1") (lit "f_2") := by
    unfold IsDuraLine IsMpbLine
    with_unfolding_all decide
  have hsteady := twoStores_inOrder.steady twoStores_txFree .start
  obtain ⟨st, hst⟩ := hsteady.exists_run (z := fun _ => .classical) (k := 0)
    [.dura (.line 2), .mpb (.line 2) (.line 3)]
  have hthreads : threadsOf twoStores [0] = [twoStores] := by decide
  have hrun : repairThreads (fun _ _ => .classical) [.dura (.line 2), .mpb (.line 2) (.line 3)] 0
      .start (threadsOf twoStores [0]) = some ([st.thread], st.globals) := by
    simp [hthreads, repairThreads, repairThread, twoStores_txFree.getTransactionConstraints, hst]
  have hmain := main_eq hreader hrun
  have hfile : fileBugs twoStores twoStoresFile = [.dura (.line 2), .mpb (.line 2) (.line 3)] := by
    simp [fileBugs, hlines, hbugs]
  refine ⟨htids, _, _, hmain, (main_countsRepairs_iff htids hmain).mpr ⟨?_, ?_, ?_, ?_⟩⟩
  · rw [hlines]
    simp [hkinds]
  · intro line hline s hbug
    rw [hlines, List.mem_cons, List.mem_singleton] at hline
    rcases hline with rfl | rfl
    · obtain rfl := Bug.dura.inj (Option.some.inj (hbugs.1.symm.trans hbug))
      exact ⟨_, List.mem_cons_self, rfl, rfl⟩
    · cases hbugs.2.symm.trans hbug
  · intro j line a b hline hbug
    rw [hlines] at hline
    match j with
    | 0 =>
        obtain rfl := Option.some.inj hline
        cases hbugs.1.symm.trans hbug
    | 1 =>
        obtain rfl := Option.some.inj hline
        obtain ⟨rfl, rfl⟩ := Bug.mpb.inj (Option.some.inj (hbugs.2.symm.trans hbug))
        have hplace : placeOf twoStores twoStoresFile 1 = 1 := by
          simp [placeOf, hlines, hbugs]
        rw [hplace, hfile]
        obtain ⟨st', -, hturn, -⟩ := @exists_turn _ _ _ _ hrun 0 1 (by simp [hthreads]) (by simp)
        refine ⟨hkinds.2.2.1, by decide, 0, st', hturn, ?_⟩
        rw [repairable_iff_of_txFree hturn (by rw [hthreads]; rfl) twoStores_txFree (by decide)
          (fun stmt hstmt => (twoStores_lines stmt hstmt).imp fun _ h => h.1) twoStores_inOrder]
        decide
    | j + 2 => simp at hline
  · have hdropped : ¬Dropped twoStores (mpbLine (lit "f_1") (lit "f_2")) := fun hdropped => by
      have hnone := (bugOf_eq_none_of_not_dura hkinds.2.2.2).mpr (.inr hdropped)
      rw [hbugs.2] at hnone
      cases hnone
    rw [(Lists.howMany_eq_zero_iff).mpr, (Lists.howMany_eq_zero_iff).mpr] <;> rw [hlines] <;>
      simp [hkinds, hdropped, Stray, hkinds.1.isInfix]

/-- A store of one thread and a store of another. -/
def crossPair : Trace :=
  [⟨.line 2, .store, "0x10", "-1", 0, "f_1"⟩, ⟨.line 3, .store, "0x20", "-1", 1, "g_2"⟩]

def crossPairFile : Text := bugFile [mpbLine (lit "f_1") (lit "g_2")]

theorem RepairedByMPB.inOrder {z : Nat → Nat → Solver Var} {bugs : List Bug} {threads : List Trace}
    {i : Nat} (h : RepairedByMPB z bugs threads i) :
    ∃ thread ∈ threads, ∃ a b, InOrder thread a b := by
  obtain ⟨k, st, a, b, out, hturn, -, -, hout, hflag⟩ := h
  obtain ⟨thread, hthread, hconserves⟩ := turn_conserves hturn
  have horder := ((repairMPB_flag_iff hout).mp hflag).1
  exact ⟨thread, List.mem_of_getElem? hthread, a, b, hconserves.inOrder_iff.mp horder⟩

/-- No thread has both stores, so that no solver is ever asked, and the report counts the bug as
fixed. -/
theorem main_crossPair :
    [0, 1].Perm (crossPair.map Stmt.tid).dedup ∧ ∃ out report,
      Step1.main (fun _ _ => .classical) crossPair crossPairFile [0, 1] = some (out, report) ∧
        ¬CountsRepairs (fun _ _ => .classical) crossPair crossPairFile [0, 1] report := by
  have hreader : readBugs crossPairFile (entries crossPair) =
      some ⟨[.mpb (.line 2) (.line 3)], 1, 0, 0, 0⟩ := by
    with_unfolding_all decide
  obtain ⟨threads, g, hrun⟩ : ∃ threads g, repairThreads (fun _ _ => .classical)
      [.mpb (.line 2) (.line 3)] 0 .start (threadsOf crossPair [0, 1]) = some (threads, g) :=
    ⟨_, _, rfl⟩
  refine ⟨by decide, _, _, main_eq hreader hrun, fun hcounts => ?_⟩
  have hnone : repairedLines crossPair crossPairFile IsMpbLine
      (RepairedByMPB (fun _ _ => .classical) (fileBugs crossPair crossPairFile) (threadsOf crossPair [0, 1])) = 0 := by
    refine Lists.howMany_eq_zero_iff.mpr ?_
    rintro entry - ⟨-, -, hrepaired⟩
    obtain ⟨thread, hthread, a, b, first, second, hbefore, -⟩ := hrepaired.inOrder
    have hshort : ∀ thread ∈ threadsOf crossPair [0, 1], thread.length < 2 := by decide
    exact absurd hbefore.length_le (not_le.mpr (hshort thread hthread))
  exact absurd (hcounts.mpbsFixed.trans hnone) Nat.one_ne_zero

end PMBugRepair
