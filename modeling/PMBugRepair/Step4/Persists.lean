import PMBugRepair.Step4.Run

/-!
# What a repaired trace guarantees

The solver takes a store to be persistent at the next fence of its thread, whether or not its
address has been flushed. Its last answer therefore says something about persistence only as long as
no fence of a writer's thread comes between the writer and the flush of its address, neither in the
input nor among the fences that close the new sections.
-/

namespace PMBugRepair

open Schedule
open Smt (Formula Solver Satisfies satisfies_append)

/-- A flush of the store's address by its own thread. -/
structure IsFlushOf (flush store : Stmt) : Prop where
  op : flush.op = .flush
  addr : flush.addr = store.addr
  tid : flush.tid = store.tid

def Flushed (trace : Trace) (store : Stmt) : Prop :=
  ∃ flush, IsFlushOf flush store ∧ Before trace store flush

/-- Every fence of the thread that follows the store comes behind a flush of its address. -/
def FlushedFirst (trace : Trace) (store : Stmt) : Prop :=
  ∀ fence, fence.op = .fence → fence.tid = store.tid → Before trace store fence →
    ∃ flush, IsFlushOf flush store ∧ Before trace store flush ∧ Before trace flush fence

/-- Where the pass closes a section of the store's thread with a new fence, the store has been
flushed or is still to come. -/
def ClosesBehindFlush (trace : Trace) (bug : Mpa) (writes : List Id) (store : Stmt) : Prop :=
  ∀ fence pre suffix, trace = pre ++ suffix → suffix ≠ [] → FenceAt trace bug writes fence suffix →
    fence.tid = store.tid → store ∈ pre → Flushed pre store

/-- The input leaves no writer unflushed at a fence, and no transaction tells the solver that a
writer is persistent or that statements of different threads are ordered. -/
structure FlushesFirst (input : MpaInput) : Prop where
  writers : ∀ bug ∈ input.bugs, Flushed input.trace bug.w → FlushedFirst input.trace bug.w
  transactions : ∀ begin body commit, Transaction input.trace begin body commit →
    ∀ x ∈ begin :: body, x.tid = commit.tid ∧ ∀ bug ∈ input.bugs, x ≠ bug.w

/-- What one repair has to keep: it copies every statement once, and it closes sections behind the
flushes of the writers in them. -/
structure Careful (input : MpaInput) (trace : Trace) (bug : Mpa) : Prop where
  once : Locked trace bug.first ∨ Locked trace bug.second ∨ ClosesInTime trace bug input.writes
  fences : ∀ other ∈ input.bugs, Flushed input.trace other.w →
    ClosesBehindFlush trace bug input.writes other.w

/-- The reader of the bug sees the writer flushed and fenced. -/
def Persists (order : Trace) (bug : Mpa) : Prop :=
  ∃ flush fence, IsFlushOf flush bug.w ∧ fence.op = .fence ∧ fence.tid = bug.w.tid ∧
    Before order bug.w flush ∧ Before order flush fence ∧ Before order fence bug.r

section Step

variable {input : MpaInput} {s s' : RepairState} {bug : Mpa} {store : Stmt}

theorem Flushed.sublist {left right : Trace} (h : Flushed left store) (hsub : left.Sublist right) :
    Flushed right store := by
  obtain ⟨flush, hflush, hbefore⟩ := h
  exact ⟨flush, hflush, hbefore.trans hsub⟩

/-- A repair keeps the fences of a thread behind its flushes. -/
theorem FlushedFirst.repaired {added out : Trace} (h : FlushedFirst s.trace store)
    (hgood : Good input s') (htrace : s'.trace = kept none out)
    (hrepaired : Repaired s.trace bug input.writes s.globals.r s'.globals.r added out)
    (hcloses : ClosesBehindFlush s.trace bug input.writes store) (hflushed : Flushed s.trace store) :
    FlushedFirst s'.trace store := by
  have hsub : s.trace.Sublist s'.trace := by
    rw [htrace]
    exact hrepaired.refines.sub
  have hnodup : s'.trace.Nodup := hgood.ids.of_map
  obtain ⟨flush₀, hflush₀, hbefore₀⟩ := hflushed
  have hstore : store ∈ s.trace := hbefore₀.mem.1
  intro fence hop htid hbefore
  have hrow : fence ∈ s.trace ++ added := by
    apply hrepaired.refines.rows.subset
    have hmem := hbefore.mem.2
    rwa [htrace] at hmem
  rcases List.mem_append.mp hrow with hold | hadded
  · obtain ⟨flush, hflush, hfirst, hsecond⟩ :=
      h fence hop htid (hbefore.of_sublist hnodup hsub hstore hold)
    exact ⟨flush, hflush, hfirst.trans hsub, hsecond.trans hsub⟩
  · -- a new fence: what stands in front of it in the old trace stands in front of it in the new one
    obtain ⟨front, back, left, right, hsplit, hkept, hfront, hback, hcut⟩ :=
      hrepaired.refines.fences fence hadded hop
    have htrace' : s'.trace = left ++ fence :: right := htrace.trans hkept
    rw [List.append_nil] at hcut
    have hstoreFront : store ∈ front := by
      rw [hsplit, List.mem_append] at hstore
      refine hstore.resolve_right fun hmem => ?_
      refine hbefore.asymm hnodup ?_
      rw [htrace', List.append_cons]
      exact before_of_append (by simp) (hback.subset hmem)
    have hflushedFront : Flushed front store := by
      by_cases hempty : back = []
      · rw [hempty, List.append_nil] at hsplit
        exact ⟨flush₀, hflush₀, hsplit ▸ hbefore₀⟩
      · exact hcloses fence front back hsplit hempty hcut htid hstoreFront
    obtain ⟨flush, hflush, hbeforeFlush⟩ := hflushedFront
    refine ⟨flush, hflush, ?_, ?_⟩
    · rw [htrace']
      exact (hbeforeFlush.trans hfront).trans (List.sublist_append_left _ _)
    · rw [htrace']
      exact before_of_append (hfront.subset hbeforeFlush.mem.2) List.mem_cons_self

end Step

/-! ### The last answer of the solver -/

section Last

variable {input : MpaInput} {s : RepairState} {bug : Mpa} {order : Trace}

/-- The transaction constraints hold in every execution, at the times of a violation. -/
theorem FlushesFirst.satisfies_transactCons (h : FlushesFirst input) (hgood : Good input s)
    (hbug : bug ∈ input.bugs) (horder : Execution s.trace order) :
    Satisfies (violationTimes order bug) input.transactCons := by
  intro φ hφ
  obtain ⟨begin, body, commit, htx, x, hx, rfl⟩ := mem_getTransactionConstraints_iff.mp hφ
  obtain ⟨htid, hwriter⟩ := h.transactions begin body commit htx x hx
  obtain ⟨pre, post, hsplit⟩ := htx.split
  have hbefore : Before input.trace x commit := by
    rw [hsplit, ← List.cons_append, ← List.append_assoc]
    exact before_of_append (List.mem_append_right pre hx) List.mem_cons_self
  have hne : x.id ≠ bug.w.id := fun heq => hwriter bug hbug
    (List.inj_on_of_nodup_map input.ids_nodup hbefore.mem.1 (input.bugs_in bug hbug).w_mem heq)
  have hids : (order.map Stmt.id).Nodup := (horder.threads.1.map Stmt.id).nodup_iff.mpr hgood.ids
  have hlt := violationTimes_lt bug hids
    ((horder.threads.before_iff htid).mpr (hbefore.trans hgood.sublist))
  simpa [violationTimes, hne] using hlt

/-- If the solver finds no violation, no execution has one. -/
theorem FlushesFirst.not_violates {cons : List (Formula Var)} (h : FlushesFirst input)
    (hgood : Good input s) (hcons : lockConstraints s.trace = some cons)
    (hunsat : ¬∃ σ, Satisfies σ (input.transactCons ++ cons) ∧
      ∃ bug ∈ input.bugs, bug.formula.Holds σ)
    (hbug : bug ∈ input.bugs) (horder : Execution s.trace order) : ¬Violates order bug := by
  intro hviolates
  have hsections := hgood.sound.sections
  obtain ⟨cons', hcons', -, hfrom⟩ := lockConstraints_spec hsections.labelled
  rw [hcons, Option.some.injEq] at hcons'
  subst hcons'
  have htimed := horder.timed hgood.ids hsections (hgood.bug_in hbug).w_mem hviolates
  exact hunsat ⟨violationTimes order bug, satisfies_append.mpr
    ⟨h.satisfies_transactCons hgood hbug horder, hfrom hsections _ htimed⟩, bug, hbug,
    horder.holds_formula hgood.ids hviolates⟩

/-- A writer that every fence finds flushed is persistent where no execution violates its bug. -/
theorem FlushedFirst.persists (h : FlushedFirst s.trace bug.w) (hgood : Good input s)
    (hbug : bug ∈ input.bugs) (horder : Execution s.trace order) (hbefore : Before order bug.w bug.r)
    (hno : ¬Violates order bug) : Persists order bug := by
  have hin := hgood.bug_in hbug
  have hthread : ∀ {x y : Stmt}, x.tid = y.tid → (Before order x y ↔ Before s.trace x y) :=
    fun htid => horder.threads.before_iff htid
  obtain ⟨fence, hop, htid, hwriter, hreader⟩ : ∃ fence, fence.op = .fence ∧
      fence.tid = bug.w.tid ∧ Before order bug.w fence ∧ ¬Before order bug.r fence := by
    by_contra hnone
    refine hno ⟨hbefore, fun fence hop htid hwriter => ?_⟩
    by_contra hreader
    exact hnone ⟨fence, hop, htid, hwriter, hreader⟩
  have hne : fence ≠ bug.r := by
    rintro rfl
    rw [hin.r_store] at hop
    cases hop
  have hlast : Before order fence bug.r :=
    (before_or_before hwriter.mem.2 hbefore.mem.2 hne).resolve_right hreader
  obtain ⟨flush, hflush, hfirst, hsecond⟩ := h fence hop htid ((hthread htid.symm).mp hwriter)
  exact ⟨flush, fence, hflush, hop, htid, (hthread hflush.tid.symm).mpr hfirst,
    (hthread (hflush.tid.trans htid.symm)).mpr hsecond, hlast⟩

end Last

section Runs

variable {input : MpaInput} {z : Nat → Solver Var} {n : Nat} {s : RepairState}

/-- In a run of careful repairs every state is good and keeps the fences behind the flushes, and the
last one has no violation. -/
theorem run_careful (hplain : ∀ x ∈ input.trace, x.Plain) (hinput : FlushesFirst input)
    (hsteps : ∀ n s bug, run input z n = some s → s.truthValue = true →
      consToRepair (z n) s.trace input.transactCons input.bugs = some bug →
      Careful input s.trace bug) (hrun : run input z n = some s) :
    Good input s ∧
      (∀ bug ∈ input.bugs, Flushed input.trace bug.w → FlushedFirst s.trace bug.w) ∧
      (s.truthValue = false → ∀ bug ∈ input.bugs, ∀ order, Execution s.trace order →
        ¬Violates order bug) := by
  induction n generalizing s with
  | zero =>
      obtain rfl := Option.some.inj hrun
      refine ⟨.start hplain, hinput.writers, fun hdone bug hbug => ?_⟩
      simp only [RepairState.start, Bool.not_eq_false', List.isEmpty_iff] at hdone
      rw [hdone] at hbug
      cases hbug
  | succ n ih =>
      obtain ⟨s₀, hrun₀, ⟨hmore, hstep⟩ | ⟨-, rfl⟩⟩ := run_succ_cases hrun
      · obtain ⟨hgood₀, hfirst, -⟩ := ih hrun₀
        rcases hgood₀.step hstep with ⟨-, htrace, hgood, cons, hcons, hunsat⟩ |
          ⟨hrepair, bug, hbug, htarget, -, hresult⟩
        · rw [← htrace] at hfirst hcons
          exact ⟨hgood, hfirst, fun _ bug hbug order horder =>
            hinput.not_violates hgood hcons hunsat hbug horder⟩
        · have hcareful := hsteps n s₀ bug hrun₀ hmore htarget
          rcases hresult with ⟨hgood, added, out, htrace, hrepaired⟩ |
            ⟨-, -, hfirstFree, hsecondFree, hlate⟩
          · refine ⟨hgood, fun other hother hflushed => ?_, fun hdone => ?_⟩
            · exact (hfirst other hother hflushed).repaired hgood htrace hrepaired
                (hcareful.fences other hother hflushed) (hflushed.sublist hgood₀.sublist)
            · rw [hrepair] at hdone
              cases hdone
          · rcases hcareful.once with hlocked | hlocked | hcloses
            exacts [absurd hlocked hfirstFree, absurd hlocked hsecondFree, absurd hcloses hlate]
      · exact ih hrun₀

/-- The last iteration of a run with bugs. -/
theorem exists_iteration_of_done (hbugs : input.bugs ≠ []) (hrun : run input z n = some s)
    (hdone : s.truthValue = false) : ∃ m s₀ s₁, run input z m = some s₀ ∧ s₀.truthValue = true ∧
      iteration input (z m) s₀ = some s₁ := by
  induction n generalizing s with
  | zero =>
      obtain rfl := Option.some.inj hrun
      simp only [RepairState.start, Bool.not_eq_false', List.isEmpty_iff] at hdone
      exact absurd hdone hbugs
  | succ n ih =>
      obtain ⟨s₀, hrun₀, ⟨hmore, hstep⟩ | ⟨hdone₀, rfl⟩⟩ := run_succ_cases hrun
      · exact ⟨n, s₀, s, hrun₀, hmore, hstep⟩
      · exact ih hrun₀ hdone₀

end Runs

/-- **Persistence of the repaired trace.** If `generateRepair` returns after careful repairs of an
input that flushes before it fences, the reader of a bug whose writer is flushed sees this writer
flushed and fenced in every execution in which it comes behind the writer. -/
theorem generateRepair_persists (input : MpaInput) (z : Nat → Solver Var)
    (hinput : FlushesFirst input)
    (hsteps : ∀ n s bug, run input z n = some s → s.truthValue = true →
      consToRepair (z n) s.trace input.transactCons input.bugs = some bug →
      Careful input s.trace bug) (n : Nat) (s : RepairState) (hrun : run input z n = some s)
    (hdone : s.truthValue = false) (bug : Mpa) (hbug : bug ∈ input.bugs)
    (hflushed : Flushed input.trace bug.w) (order : Trace) (horder : Execution s.trace order)
    (hbefore : Before order bug.w bug.r) : Persists order bug := by
  obtain ⟨m, s₀, s₁, hrun₀, hmore, hstep⟩ :=
    exists_iteration_of_done (List.ne_nil_of_mem hbug) hrun hdone
  obtain ⟨hgood, hfirst, hlast⟩ := run_careful (plain_of_run hrun₀ hmore hstep) hinput hsteps hrun
  exact (hfirst bug hbug hflushed).persists hgood hbug horder hbefore
    (hlast hdone bug hbug order horder)

/-! ### Two runs

In both a store is flushed and fenced, and a store of another thread follows. The flush and the
fence carry the scope `inner`. -/

def flushedWriter : Stmt := ⟨.line 2, .store, "x", "-1", 0, "f_1"⟩

def flushedReader : Stmt := ⟨.line 5, .store, "y", "-1", 1, "g_2"⟩

def flushedStore (inner : String) : Trace :=
  [flushedWriter, ⟨.line 3, .flush, "x", "-1", 0, inner⟩, ⟨.line 4, .fence, "0", "-1", 0, inner⟩,
    flushedReader, ⟨.line 6, .fence, "0", "-1", 1, "g_3"⟩]

def flushedStoreInput (inner : String) : MpaInput where
  trace := flushedStore inner
  bugs := [⟨flushedWriter, flushedReader⟩]
  numbered := rfl
  bugs_in := by
    intro bug hbug
    rw [List.mem_singleton.mp hbug]
    exact ⟨by simp [flushedStore], by simp [flushedStore], rfl, rfl, ⟨2, rfl⟩, ⟨5, rfl⟩, by decide⟩

/-- The reader executes right behind the writer. -/
def flushedStoreTimes : Var → Int
  | .pc (.line 2) => 1
  | .pc (.line 5) => 2
  | .pc (.line 3) => 2
  | .pc _ => 3
  | .pt _ => 3

/-- The scope of the statement behind the store: the section reaches up to the fence. -/
def flushedLocked : Trace :=
  [(LockSection.new flushedWriter 0).lock, flushedWriter, ⟨.line 3, .flush, "x", "-1", 0, "f_2"⟩,
    ⟨.line 4, .fence, "0", "-1", 0, "f_2"⟩, (LockSection.new flushedWriter 0).unlock,
    (LockSection.new flushedReader 1).lock, flushedReader, (LockSection.new flushedReader 1).unlock,
    ⟨.line 6, .fence, "0", "-1", 1, "g_3"⟩]

theorem run_flushedStore (z : Nat → Solver Var) :
    (∃ g, ∀ n, run (flushedStoreInput "f_2") z (n + 2) = some ⟨flushedLocked, g, false⟩) ∧
      ∀ n s bug, run (flushedStoreInput "f_2") z n = some s → s.truthValue = true →
        consToRepair (z n) s.trace (flushedStoreInput "f_2").transactCons
          (flushedStoreInput "f_2").bugs = some bug → s.trace = flushedStore "f_2" :=
  @run_of_single_repair (flushedStoreInput "f_2") ⟨flushedWriter, flushedReader⟩ _
    flushedStoreTimes flushedLocked _ _ rfl rfl (by decide) (by decide) rfl rfl (by decide)
    (by decide) (by decide) z

theorem flushesFirst_flushedStore : FlushesFirst (flushedStoreInput "f_2") := by
  constructor
  · intro bug hbug _ fence hop htid hbefore
    rw [List.mem_singleton.mp hbug] at htid hbefore ⊢
    have hfence : ∀ x ∈ flushedStore "f_2", x.op = .fence → x.tid = 0 →
        Before (flushedStore "f_2") ⟨.line 3, .flush, "x", "-1", 0, "f_2"⟩ x := by
      unfold Before
      decide
    refine ⟨⟨.line 3, .flush, "x", "-1", 0, "f_2"⟩, ⟨rfl, rfl, rfl⟩, ?_, ?_⟩
    · unfold Before
      decide
    · exact hfence fence hbefore.mem.2 hop htid
  · intro begin body commit htx
    have hnone : ∀ x ∈ flushedStore "f_2", x.op ≠ .txBegin := by decide
    obtain ⟨pre, post, hsplit⟩ := htx.split
    refine absurd htx.begin_op (hnone begin ?_)
    rw [show flushedStore "f_2" = pre ++ begin :: (body ++ commit :: post) from hsplit]
    simp

/-- The own fence of the thread closes the section. -/
theorem careful_flushedStore :
    Careful (flushedStoreInput "f_2") (flushedStore "f_2") ⟨flushedWriter, flushedReader⟩ := by
  have hends : ∀ {pre body rest : Trace} {x : Stmt},
      flushedStore "f_2" = pre ++ flushedWriter :: (body ++ x :: rest) →
      (∀ y ∈ body, closing flushedReader.id flushedWriter y = none) →
      closing flushedReader.id flushedWriter x ≠ some .newFence ∧ rest ≠ [] := by
    intro pre body rest x hsplit hbody
    cases pre with
    | cons y pre =>
        have hnot : flushedWriter ∉ (flushedStore "f_2").tail := by decide
        refine absurd ?_ hnot
        rw [hsplit]
        simp
    | nil =>
        obtain ⟨-, hpost⟩ := List.cons.inj hsplit
        match body, hpost, hbody with
        | [], hpost, _ =>
            obtain ⟨rfl, rfl⟩ := List.cons.inj hpost
            decide
        | [_], hpost, _ =>
            obtain ⟨-, hpost⟩ := List.cons.inj hpost
            obtain ⟨rfl, rfl⟩ := List.cons.inj hpost
            decide
        | y :: y' :: _, hpost, hbody =>
            obtain ⟨-, hpost⟩ := List.cons.inj hpost
            obtain ⟨rfl, -⟩ := List.cons.inj hpost
            exact absurd (hbody (flushedStore "f_2")[2] (by simp [flushedStore])) (by decide)
  refine ⟨.inr (.inr (.inl ⟨by decide, [], _, _, rfl, [(flushedStore "f_2")[1]],
    (flushedStore "f_2")[2], _, rfl, by simp, by decide, .inr ⟨by decide, rfl⟩⟩)), ?_⟩
  intro other hother _ fence pre suffix hsplit hne hcut
  rcases hcut with hempty | ⟨-, -, -, pre', body, x, rest, -, htrace, hbody, hclose⟩ |
    ⟨-, hwriter, -⟩
  · exact absurd hempty hne
  · obtain ⟨hno, hrest⟩ := hends htrace hbody
    rcases hclose with hnew | ⟨-, hnil⟩
    exacts [absurd hnew hno, absurd hnil hrest]
  · exact absurd hwriter (by decide)

/-- The only repair of the run is this one. -/
theorem careful_of_run_flushedStore (z : Nat → Solver Var) (n : Nat) (s : RepairState) (bug : Mpa)
    (hrun : run (flushedStoreInput "f_2") z n = some s) (hmore : s.truthValue = true)
    (htarget : consToRepair (z n) s.trace (flushedStoreInput "f_2").transactCons
      (flushedStoreInput "f_2").bugs = some bug) :
    Careful (flushedStoreInput "f_2") s.trace bug := by
  rw [(run_flushedStore z).2 n s bug hrun hmore htarget,
    List.mem_singleton.mp (consToRepair_spec htarget).1]
  exact careful_flushedStore

theorem generateRepair_persists_flushedStore :
    ∃ s, run (flushedStoreInput "f_2") (fun _ => .classical) 2 = some s ∧
      ∀ order, Execution s.trace order → Before order flushedWriter flushedReader →
        Persists order ⟨flushedWriter, flushedReader⟩ := by
  obtain ⟨⟨g, hrun⟩, -⟩ := run_flushedStore fun _ => .classical
  refine ⟨_, hrun 0, fun order horder hbefore => ?_⟩
  exact generateRepair_persists (flushedStoreInput "f_2") (fun _ => .classical)
    flushesFirst_flushedStore (careful_of_run_flushedStore _) 2 _ (hrun 0) rfl
    ⟨flushedWriter, flushedReader⟩ (by decide)
    ⟨(flushedStore "f_2")[1], ⟨rfl, rfl, rfl⟩, by unfold Before; decide⟩ order horder hbefore

/-- With the scope that inserted statements carry, the section is closed in front of the flush. -/
def unflushedLocked : Trace :=
  [(LockSection.new flushedWriter 0).lock, flushedWriter, (LockSection.new flushedWriter 0).fence,
    (LockSection.new flushedWriter 0).unlock, ⟨.line 3, .flush, "x", "-1", 0, "f_1_x"⟩,
    ⟨.line 4, .fence, "0", "-1", 0, "f_1_x"⟩, (LockSection.new flushedReader 1).lock, flushedReader,
    (LockSection.new flushedReader 1).unlock, ⟨.line 6, .fence, "0", "-1", 1, "g_3"⟩]

/-- The other thread executes before the flush. -/
def unflushedOrder : Trace :=
  unflushedLocked.take 4 ++ unflushedLocked.drop 6 ++ (unflushedLocked.drop 4).take 2

theorem unflushed_execution : Execution unflushedLocked unflushedOrder := by
  refine ⟨⟨by decide, fun tid => ?_⟩, fun {lock unlock lock' unlock'} hsection hsection' hne => ?_⟩
  · match tid with
    | 0 => rfl
    | 1 => rfl
    | tid + 2 => rfl
  · have hrows : ∀ l ∈ unflushedLocked, l.op = .lock → ∀ u ∈ unflushedLocked, u.op = .unlock →
        unlockOf l.id = some u.id →
          (l = unflushedLocked[0] ∧ u = unflushedLocked[3]) ∨
            (l = unflushedLocked[6] ∧ u = unflushedLocked[8]) := by decide
    have hpair : ∀ {lock unlock : Stmt}, SectionOf unflushedLocked lock unlock →
        (lock = unflushedLocked[0] ∧ unlock = unflushedLocked[3]) ∨
          (lock = unflushedLocked[6] ∧ unlock = unflushedLocked[8]) := by
      intro lock unlock h
      obtain ⟨k, hlock, hunlock⟩ := h.ids
      exact hrows lock h.lock_mem h.lock_op unlock h.unlock_mem h.unlock_op
        (by rw [hlock, hunlock, unlockOf])
    have hbefore : Before unflushedOrder unflushedLocked[3] unflushedLocked[6] := by
      unfold Before
      decide
    rcases hpair hsection with ⟨rfl, rfl⟩ | ⟨rfl, rfl⟩ <;>
      rcases hpair hsection' with ⟨rfl, rfl⟩ | ⟨rfl, rfl⟩
    exacts [absurd rfl hne, .inl hbefore, .inr hbefore, absurd rfl hne]

theorem generateRepair_skips_flush :
    ∃ s order, run (flushedStoreInput "f_1_x") (fun _ => .classical) 2 = some s ∧
      s.truthValue = false ∧ Flushed (flushedStoreInput "f_1_x").trace flushedWriter ∧
      Execution s.trace order ∧ Before order flushedWriter flushedReader ∧
      ¬Persists order ⟨flushedWriter, flushedReader⟩ := by
  obtain ⟨⟨g, hrun⟩, -⟩ := @run_of_single_repair (flushedStoreInput "f_1_x")
    ⟨flushedWriter, flushedReader⟩ _ flushedStoreTimes unflushedLocked _ _ rfl rfl (by decide)
    (by decide) rfl rfl (by decide) (by decide) (by decide) fun _ => .classical
  refine ⟨_, unflushedOrder, hrun 0, rfl, ⟨(flushedStore "f_1_x")[1], ⟨rfl, rfl, rfl⟩, ?_⟩,
    unflushed_execution, ?_, ?_⟩
  · unfold Before
    decide
  · unfold Before
    decide
  · rintro ⟨flush, fence, hflush, hop, -, -, hfence, hreader⟩
    have hlate : ∀ x ∈ unflushedOrder, x.op = .flush → ∀ y ∈ unflushedOrder,
        Before unflushedOrder x y → ¬Before unflushedOrder y flushedReader := by
      unfold Before
      decide
    exact hlate flush hfence.mem.1 hflush.op fence hfence.mem.2 hfence hreader

end PMBugRepair
