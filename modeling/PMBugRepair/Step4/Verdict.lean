import PMBugRepair.Step4.AddLocks
import PMBugRepair.Step4.Sections

/-!
# What the constraints mean

Executions of a trace and solutions of the constraints are two views of the same thing. The places
of an execution solve the constraints, and the times of a solution, tied or not, order the
statements into an execution. So the solver finds a violated bug exactly when some execution
violates one.
-/

namespace PMBugRepair

open Smt (Formula Term Model Solver Satisfies satisfies_append satisfies_cons satisfies_nil)
open Schedule

/-- The bug happens: `r` executes after `w` and before every fence that follows `w` in its thread,
so before the first one. -/
def Violates (order : Trace) (bug : Mpa) : Prop :=
  Before order bug.w bug.r ∧ ∀ fence, fence.op = .fence → fence.tid = bug.w.tid →
    Before order bug.w fence → Before order bug.r fence

/-! ### Times -/

/-- The lock comes before its unlock, and every other section lies before it or behind it. -/
def KeepsApart (trace : Trace) (σ : Var → Int) (lock : Stmt) : Prop :=
  ∀ unlock, unlockOf lock.id = some unlock → σ (.pc lock.id) < σ (.pc unlock) ∧
    ∀ lock' ∈ trace, lock'.op = .lock → lock'.id ≠ lock.id → ∀ unlock',
      unlockOf lock'.id = some unlock' → (apart lock.id unlock lock'.id unlock').Holds σ

/-- Times at which the statements of a trace can execute and its stores persist. -/
structure Timed (trace : Trace) (σ : Var → Int) : Prop where
  threads : ∀ {x y : Stmt}, Before trace x y → x.tid = y.tid → σ (.pc x.id) < σ (.pc y.id)
  bounds : ∀ x ∈ trace, 0 < σ (.pc x.id) ∧ σ (.pc x.id) < trace.length + 1
  starts : ∀ x ∈ trace, x.op = .store → σ (.pc x.id) ≤ σ (.pt x.id)
  fences : ∀ {x fence : Stmt}, x.op = .store → fence.op = .fence → fence.tid = x.tid →
    Before trace x fence → σ (.pt x.id) ≤ σ (.pc fence.id)
  sections : ∀ lock ∈ trace, lock.op = .lock → KeepsApart trace σ lock

theorem threadOrder_iff {thread : Trace} {σ : Var → Int} :
    Satisfies σ (threadOrder thread) ↔
      ∀ {x y}, Before thread x y → σ (.pc x.id) < σ (.pc y.id) := by
  induction thread with
  | nil => simp [threadOrder, Before]
  | cons x rest ih =>
      cases rest with
      | nil => simp [threadOrder, Before]
      | cons y rest =>
          rw [threadOrder, satisfies_cons, ih]
          constructor
          · rintro ⟨hxy, hrest⟩ a b hbefore
            rcases before_cons_iff.mp hbefore with ⟨rfl, hb⟩ | hbefore
            · rcases List.mem_cons.mp hb with rfl | hb
              · exact hxy
              · have hyb := hrest (before_cons_iff.mpr (.inl ⟨rfl, hb⟩))
                simp only [Formula.holds_lt, eval_pc] at hxy
                omega
            · exact hrest hbefore
          · intro h
            exact ⟨h (before_cons_iff.mpr (.inl ⟨rfl, List.mem_cons_self⟩)),
              fun hbefore => h (hbefore.cons x)⟩

theorem satisfies_flatMap {α : Type} {σ : Var → Int} {items : List α} {f : α → List (Formula Var)} :
    Satisfies σ (items.flatMap f) ↔ ∀ x ∈ items, Satisfies σ (f x) := by
  simp only [Satisfies, List.mem_flatMap]
  exact ⟨fun h x hx φ hφ => h φ ⟨x, hx, hφ⟩, fun h φ ⟨x, hx, hφ⟩ => h x hx φ hφ⟩

theorem individualThreads_iff {trace : Trace} {σ : Var → Int} :
    Satisfies σ ((getIndividualThreads trace).flatMap threadOrder) ↔
      ∀ {x y}, Before trace x y → x.tid = y.tid → σ (.pc x.id) < σ (.pc y.id) := by
  rw [satisfies_flatMap, getIndividualThreads]
  simp only [List.mem_map, List.mem_dedup, forall_exists_index, and_imp,
    forall_apply_eq_imp_iff₂, threadOrder_iff]
  constructor
  · intro h x y hbefore htid
    exact h x hbefore.mem.1 (hbefore.filter (by simp) (by simp [htid]))
  · intro h z hz x y hbefore
    have hx := hbefore.mem.1
    have hy := hbefore.mem.2
    simp only [List.mem_filter, decide_eq_true_eq] at hx hy
    exact h hbefore.of_filter (hx.2.trans hy.2.symm)

/-- Every lock row carries the number of a lock. -/
def Labelled (trace : Trace) : Prop := ∀ x ∈ trace, x.op = .lock → ∃ k, x.id = .lock k

theorem Labelled.unlockOf {trace : Trace} (h : Labelled trace) {lock : Stmt} (hmem : lock ∈ trace)
    (hop : lock.op = .lock) : ∃ unlock, unlockOf lock.id = some unlock := by
  obtain ⟨k, hid⟩ := h lock hmem hop
  exact ⟨.unlock k, by rw [hid]; rfl⟩

theorem mapM_eq_some_map {α β : Type} {f : α → Option β} {h : α → β} {items : List α}
    (hf : ∀ x ∈ items, f x = some (h x)) : items.mapM f = some (items.map h) := by
  induction items with
  | nil => rfl
  | cons x items ih =>
      obtain ⟨hx, hitems⟩ := List.forall_mem_cons.mp hf
      simp [List.mapM_cons, hx, ih hitems]

/-- The constraints of one lock: it comes before its unlock, and every other section lies apart. -/
theorem sectionConstraints_spec {trace : Trace} (hlabelled : Labelled trace) {lock : Stmt}
    (hmem : lock ∈ trace) (hop : lock.op = .lock) :
    ∃ cons, sectionConstraints trace lock = some cons ∧
      ∀ σ, Satisfies σ cons ↔ KeepsApart trace σ lock := by
  obtain ⟨unlock, hunlock⟩ := hlabelled.unlockOf hmem hop
  have hothers := @mapM_eq_some_map Stmt (Formula Var)
    (fun x => (unlockOf x.id).map fun unlock' => apart lock.id unlock x.id unlock')
    (fun x => apart lock.id unlock x.id ((unlockOf x.id).getD x.id))
    (trace.filter fun x => x.op = .lock ∧ x.id ≠ lock.id) (by
      intro x hx
      simp only [List.mem_filter, decide_eq_true_eq] at hx
      obtain ⟨unlock', hunlock'⟩ := hlabelled.unlockOf hx.1 hx.2.1
      simp [hunlock'])
  have hsome : sectionConstraints trace lock = some (.lt (.var (.pc lock.id)) (.var (.pc unlock)) ::
      (trace.filter fun x => x.op = .lock ∧ x.id ≠ lock.id).map
        fun x => apart lock.id unlock x.id ((unlockOf x.id).getD x.id)) := by
    rw [sectionConstraints, hunlock, Option.bind_eq_bind, Option.bind_some, hothers]
    rfl
  refine ⟨_, hsome, fun σ => ?_⟩
  rw [satisfies_cons, Smt.satisfies_map, KeepsApart]
  simp only [hunlock, Option.some.injEq, forall_eq', List.mem_filter, decide_eq_true_eq]
  constructor
  · rintro ⟨hlt, hapart⟩
    refine ⟨hlt, fun lock' hmem' hop' hne unlock' hunlock' => ?_⟩
    have hclause := hapart lock' ⟨hmem', hop', hne⟩
    rwa [hunlock', Option.getD_some] at hclause
  · rintro ⟨hlt, hapart⟩
    refine ⟨hlt, fun lock' hlock' => ?_⟩
    obtain ⟨unlock', hunlock'⟩ := hlabelled.unlockOf hlock'.1 hlock'.2.1
    rw [hunlock', Option.getD_some]
    exact hapart lock' hlock'.1 hlock'.2.1 hlock'.2.2 unlock' hunlock'

/-- The constraints of the rows of `rest`, one after the other. -/
theorem rowConstraints_spec {trace rest : Trace} (hlabelled : Labelled trace)
    (hsub : rest ⊆ trace) :
    ∃ cons, rowConstraints trace rest = some cons ∧ ∀ σ, Satisfies σ cons ↔
      ∀ pre x post, rest = pre ++ x :: post → Satisfies σ (timeConstraints trace.length x post) ∧
        (x.op = .lock → KeepsApart trace σ x) := by
  induction rest with
  | nil => exact ⟨[], rfl, fun σ => by simp⟩
  | cons y rest ih =>
      obtain ⟨later, hlater, hspec⟩ := ih fun x hx => hsub (List.mem_cons_of_mem y hx)
      obtain ⟨sections, hsections, hlock⟩ : ∃ sections,
          (if y.op = .lock then sectionConstraints trace y else some []) = some sections ∧
          ∀ σ, Satisfies σ sections ↔ (y.op = .lock → KeepsApart trace σ y) := by
        by_cases hop : y.op = .lock
        · obtain ⟨sections, hsections, hlock⟩ :=
            sectionConstraints_spec hlabelled (hsub List.mem_cons_self) hop
          exact ⟨sections, by rw [if_pos hop, hsections], fun σ => by rw [hlock]; simp [hop]⟩
        · exact ⟨[], by rw [if_neg hop], fun σ => by simp [hop]⟩
      refine ⟨timeConstraints trace.length y rest ++ sections ++ later, ?_, fun σ => ?_⟩
      · rw [rowConstraints, hsections, hlater]
        rfl
      · rw [satisfies_append, satisfies_append, hlock, hspec]
        constructor
        · rintro ⟨hy, hrest⟩ pre x post heq
          cases pre with
          | nil =>
              obtain ⟨rfl, rfl⟩ := List.cons.inj heq
              exact hy
          | cons z pre =>
              obtain ⟨-, rfl⟩ := List.cons.inj heq
              exact hrest pre x post rfl
        · intro h
          refine ⟨h [] y rest rfl, ?_⟩
          rintro pre x post rfl
          exact h (y :: pre) x post rfl

/-! ### Inside the sections -/

theorem insideConstraints_append {previous : Stmt} {locked : Bool} {left right : Trace}
    {φ : Formula Var} (h : φ ∈ insideConstraints previous locked left) :
    φ ∈ insideConstraints previous locked (left ++ right) := by
  induction left generalizing previous locked with
  | nil => cases h
  | cons x left ih =>
      rw [List.cons_append]
      unfold insideConstraints at h ⊢
      split_ifs at h ⊢ with hlock hunlock hlocked
      · exact ih h
      · exact (List.mem_cons.mp h).elim (fun heq => heq ▸ List.mem_cons_self)
          fun htail => List.mem_cons_of_mem _ (ih htail)
      · exact (List.mem_cons.mp h).elim (fun heq => heq ▸ List.mem_cons_self)
          fun htail => List.mem_cons_of_mem _ (ih htail)
      · exact ih h

/-- The clause orders two statements of one thread as they stand in the trace. -/
def OrdersThread (trace : Trace) (φ : Formula Var) : Prop :=
  ∃ x y, φ = .lt (pc x) (pc y) ∧ Before trace x y ∧ x.tid = y.tid

theorem OrdersThread.sublist {left right : Trace} {φ : Formula Var} (h : OrdersThread left φ)
    (hsub : left.Sublist right) : OrdersThread right φ := by
  obtain ⟨x, y, hφ, hbefore, htid⟩ := h
  exact ⟨x, y, hφ, hbefore.trans hsub, htid⟩

theorem insideConstraints_body {body rest : Trace} {previous unlock : Stmt} {tid : Nat}
    {φ : Formula Var} (hbody : ∀ x ∈ body, x.Plain ∧ x.tid = tid) (hprevious : previous.tid = tid)
    (hunlock : unlock.op = .unlock) (htid : unlock.tid = tid)
    (h : φ ∈ insideConstraints previous true (body ++ unlock :: rest)) :
    OrdersThread (previous :: (body ++ unlock :: rest)) φ ∨
      φ ∈ insideConstraints unlock false rest := by
  induction body generalizing previous with
  | nil =>
      rw [List.nil_append, insideConstraints, if_neg (by simp [hunlock]), if_pos hunlock] at h
      rcases List.mem_cons.mp h with rfl | h
      · refine .inl ⟨previous, unlock, rfl, before_cons_iff.mpr (.inl ⟨rfl, by simp⟩), ?_⟩
        rw [hprevious, htid]
      · exact .inr h
  | cons x body ih =>
      obtain ⟨⟨hplain, hx⟩, hbody⟩ := List.forall_mem_cons.mp hbody
      rw [List.cons_append, insideConstraints, if_neg hplain.1, if_neg hplain.2, if_pos rfl] at h
      rcases List.mem_cons.mp h with rfl | h
      · refine .inl ⟨previous, x, rfl, before_cons_iff.mpr (.inl ⟨rfl, by simp⟩), ?_⟩
        rw [hprevious, hx]
      · rcases ih hbody hx h with hordered | h
        · exact .inl (hordered.sublist (List.sublist_cons_self previous _))
        · exact .inr h

/-- In a trace of sections, the constraints on what stands inside them repeat thread order. -/
theorem Sections.inside {trace : Trace} (hsections : Sections trace) {previous : Stmt}
    {φ : Formula Var} (h : φ ∈ insideConstraints previous false trace) : OrdersThread trace φ := by
  induction hsections generalizing previous with
  | nil => cases h
  | @plain x rest hx hrest ih =>
      rw [insideConstraints, if_neg hx.1, if_neg hx.2] at h
      exact (ih h).sublist (List.sublist_cons_self x rest)
  | @block k lock unlock body rest hlock hlockId hbody hunlock hunlockId htid hrest ih =>
      rw [insideConstraints, if_pos hlock] at h
      rcases insideConstraints_body hbody rfl hunlock htid h with hordered | h
      · exact hordered
      · apply (ih h).sublist
        exact (((List.Sublist.refl rest).cons unlock).trans
          (List.sublist_append_right body _)).cons lock

/-! ### Solutions are times -/

section Spec

variable {trace : Trace} {σ : Var → Int}

theorem Sections.labelled (h : Sections trace) : Labelled trace := by
  intro lock hmem hop
  obtain ⟨unlock, hsection, -⟩ := h.exists_unlock hmem hop
  obtain ⟨k, hid, -⟩ := hsection.ids
  exact ⟨k, hid⟩

theorem satisfies_timeConstraints {x : Stmt} {rest : Trace} {length : Nat} :
    Satisfies σ (timeConstraints length x rest) ↔
      (0 < σ (.pc x.id) ∧ σ (.pc x.id) < length + 1) ∧
        (x.op = .store → σ (.pc x.id) ≤ σ (.pt x.id) ∧
          ∀ fence, nextFence x rest = some fence → σ (.pt x.id) ≤ σ (.pc fence.id)) := by
  rw [timeConstraints, satisfies_append]
  have hbounds : Satisfies σ [.lt (.const 0) (pc x), .lt (pc x) (.const (length + 1))] ↔
      0 < σ (.pc x.id) ∧ σ (.pc x.id) < length + 1 := by simp [Term.eval]
  rw [hbounds]
  refine and_congr_right fun _ => ?_
  split
  · rename_i hop
    rw [satisfies_cons]
    cases nextFence x rest <;> simp [hop]
  · rename_i hop
    simp [hop]

/-- The time a store persists is bounded by every later fence of its thread, not only the next. -/
theorem fence_bound {x fence : Stmt} {post : Trace}
    (hthreads : ∀ {x y : Stmt}, Before post x y → x.tid = y.tid → σ (.pc x.id) < σ (.pc y.id))
    (hnext : ∀ next, nextFence x post = some next → σ (.pt x.id) ≤ σ (.pc next.id))
    (hmem : fence ∈ post) (hop : fence.op = .fence) (htid : fence.tid = x.tid) :
    σ (.pt x.id) ≤ σ (.pc fence.id) := by
  have hsome : (nextFence x post).isSome := by
    rw [nextFence, List.find?_isSome]
    exact ⟨fence, hmem, by simp [hop, htid]⟩
  obtain ⟨next, hfind⟩ := Option.isSome_iff_exists.mp hsome
  obtain ⟨hnextSpec, before, behind, rfl, hbefore⟩ := List.find?_eq_some_iff_append.mp hfind
  simp only [decide_eq_true_eq] at hnextSpec
  have hle := hnext next hfind
  rcases List.mem_append.mp hmem with hmem | hmem
  · have hno := hbefore fence hmem
    simp [hop, htid] at hno
  · rcases List.mem_cons.mp hmem with rfl | hmem
    · exact hle
    · have hlt : σ (.pc next.id) < σ (.pc fence.id) := by
        apply hthreads _ (hnextSpec.2.trans htid.symm)
        rw [List.append_cons]
        exact before_of_append (by simp) hmem
      omega

theorem lockConstraints_threads {cons : List (Formula Var)}
    (hcons : lockConstraints trace = some cons)
    (h : Satisfies σ cons) {x y : Stmt} (hbefore : Before trace x y) (htid : x.tid = y.tid) :
    σ (.pc x.id) < σ (.pc y.id) := by
  unfold lockConstraints at hcons
  obtain ⟨rows, -, heq⟩ := Option.bind_eq_some_iff.mp hcons
  obtain rfl := Option.some.inj heq
  rw [satisfies_append, satisfies_append, individualThreads_iff] at h
  exact h.1.2 hbefore htid

/-- Solutions of the constraints are times, and in a trace of sections times are solutions. -/
theorem lockConstraints_spec (hlabelled : Labelled trace) :
    ∃ cons, lockConstraints trace = some cons ∧ (∀ σ, Satisfies σ cons → Timed trace σ) ∧
      (Sections trace → ∀ σ, Timed trace σ → Satisfies σ cons) := by
  obtain ⟨rows, hrows, hspec⟩ := rowConstraints_spec hlabelled (List.Subset.refl trace)
  refine ⟨_, by rw [lockConstraints, hrows]; rfl, fun σ h => ?_, fun hsections σ h => ?_⟩
  · rw [satisfies_append, satisfies_append, individualThreads_iff, hspec] at h
    obtain ⟨⟨-, hthreads⟩, hall⟩ := h
    simp only [satisfies_timeConstraints] at hall
    have hrow : ∀ x ∈ trace, ∃ pre post, trace = pre ++ x :: post :=
      fun x hx => List.append_of_mem hx
    refine ⟨hthreads, fun x hx => ?_, fun x hx hop => ?_,
      fun {x fence} hop hfence htid hbefore => ?_, fun lock hlock hop => ?_⟩
    · obtain ⟨pre, post, heq⟩ := hrow x hx
      exact (hall pre x post heq).1.1
    · obtain ⟨pre, post, heq⟩ := hrow x hx
      exact ((hall pre x post heq).1.2 hop).1
    · obtain ⟨left, mid, right, heq⟩ := before_iff_append.mp hbefore
      have hnext := ((hall left x (mid ++ fence :: right) heq).1.2 hop).2
      apply fence_bound _ hnext (by simp) hfence htid
      intro y z hyz
      apply hthreads
      rw [heq]
      exact (hyz.trans (List.sublist_cons_self x _)).trans (List.sublist_append_right left _)
    · obtain ⟨pre, post, heq⟩ := hrow lock hlock
      exact (hall pre lock post heq).2 hop
  · rw [satisfies_append, satisfies_append, individualThreads_iff, hspec]
    refine ⟨⟨fun φ hφ => ?_, h.threads⟩, fun pre x post heq => ⟨?_, fun hop => ?_⟩⟩
    · -- what stands inside a section is of one thread
      cases hlast : trace.getLast? with
      | none => simp [hlast] at hφ
      | some last =>
          simp only [hlast] at hφ
          have hmem := @insideConstraints_append last false trace.dropLast
            (trace.drop (trace.length - 1)) φ hφ
          rw [List.dropLast_eq_take, List.take_append_drop] at hmem
          obtain ⟨x, y, rfl, hbefore, htid⟩ := hsections.inside hmem
          exact h.threads hbefore htid
    · have hx : x ∈ trace := by
        rw [heq]
        simp
      rw [satisfies_timeConstraints]
      refine ⟨h.bounds x hx, fun hop => ⟨h.starts x hx hop, fun fence hfind => ?_⟩⟩
      have hspec := List.find?_some hfind
      simp only [decide_eq_true_eq] at hspec
      apply h.fences hop hspec.1 hspec.2
      rw [heq, List.append_cons]
      exact before_of_append (by simp) (List.mem_of_find?_eq_some hfind)
    · apply h.sections x _ hop
      rw [heq]
      simp

end Spec

/-! ### Times and executions -/

section Executions

variable {trace order : Trace} {bug : Mpa} {σ : Var → Int}

/-- The places of an execution; the writer of the bug persists right after the reader. -/
def violationTimes (order : Trace) (bug : Mpa) : Var → Int
  | .pc id => position (order.map Stmt.id) id
  | .pt id => position (order.map Stmt.id) (if id = bug.w.id then bug.r.id else id) +
      if id = bug.w.id then 1 else 0

theorem violationTimes_lt (bug : Mpa) (hids : (order.map Stmt.id).Nodup) {x y : Stmt}
    (h : Before order x y) :
    violationTimes order bug (.pc x.id) < violationTimes order bug (.pc y.id) := by
  have hmap : Before (order.map Stmt.id) x.id y.id := h.map Stmt.id
  exact hmap.position_lt hids

theorem Execution.holds_formula (hids : (trace.map Stmt.id).Nodup) (horder : Execution trace order)
    (hviolates : Violates order bug) : bug.formula.Holds (violationTimes order bug) := by
  have hidsOrder : (order.map Stmt.id).Nodup := (horder.threads.1.map Stmt.id).nodup_iff.mpr hids
  exact Mpa.holds_formula.mpr ⟨violationTimes_lt bug hidsOrder hviolates.1,
    by simp [violationTimes]⟩

theorem Execution.timed (hids : (trace.map Stmt.id).Nodup) (hsections : Sections trace)
    (horder : Execution trace order) (hw : bug.w ∈ trace) (hviolates : Violates order bug) :
    Timed trace (violationTimes order bug) := by
  have hperm := horder.threads.1
  have hidsOrder : (order.map Stmt.id).Nodup := (hperm.map Stmt.id).nodup_iff.mpr hids
  have hthreads : ∀ {x y : Stmt}, Before trace x y → x.tid = y.tid → Before order x y :=
    fun hbefore htid => (horder.threads.before_iff htid).mpr hbefore
  have hwriter : ∀ {x : Stmt}, x ∈ trace → x.id = bug.w.id → x = bug.w :=
    fun hx hid => List.inj_on_of_nodup_map hids hx hw hid
  refine ⟨fun hbefore htid => violationTimes_lt bug hidsOrder (hthreads hbefore htid),
    fun x hx => ?_,
    fun x hx hop => ?_, fun {x fence} hop hfence htid hbefore => ?_,
    fun lock hlock hop unlock hunlock => ⟨?_, fun lock' hlock' hop' hne unlock' hunlock' => ?_⟩⟩
  · have hmem : x.id ∈ order.map Stmt.id := List.mem_map_of_mem (hperm.mem_iff.mpr hx)
    have hbounds := position_bounds hmem
    rw [List.length_map, hperm.length_eq] at hbounds
    exact hbounds
  · by_cases hid : x.id = bug.w.id
    · have hlt := violationTimes_lt bug hidsOrder hviolates.1
      simp only [violationTimes, hid, if_true] at hlt ⊢
      omega
    · simp [violationTimes, hid]
  · have hlt := violationTimes_lt bug hidsOrder (hthreads hbefore htid.symm)
    by_cases hid : x.id = bug.w.id
    · obtain rfl := hwriter hbefore.mem.1 hid
      have hfenceBehind := hviolates.2 fence hfence htid (hthreads hbefore htid.symm)
      have hreader := violationTimes_lt bug hidsOrder hfenceBehind
      simp only [violationTimes, if_true] at hreader ⊢
      omega
    · simp only [violationTimes, hid, if_false] at hlt ⊢
      omega
  · obtain ⟨stmt, hsection, hbefore, htid⟩ := hsections.exists_unlock hlock hop
    obtain ⟨k, hlockId, hunlockId⟩ := hsection.ids
    rw [hlockId, unlockOf, Option.some.injEq] at hunlock
    rw [← hunlock, ← hunlockId]
    exact violationTimes_lt bug hidsOrder (hthreads hbefore htid.symm)
  · obtain ⟨stmt, hsection, hbefore, htid⟩ := hsections.exists_unlock hlock hop
    obtain ⟨stmt', hsection', hbefore', htid'⟩ := hsections.exists_unlock hlock' hop'
    obtain ⟨k, hlockId, hunlockId⟩ := hsection.ids
    obtain ⟨k', hlockId', hunlockId'⟩ := hsection'.ids
    rw [hlockId, unlockOf, Option.some.injEq, ← hunlockId] at hunlock
    rw [hlockId', unlockOf, Option.some.injEq, ← hunlockId'] at hunlock'
    have hlt := violationTimes_lt bug hidsOrder (hthreads hbefore htid.symm)
    have hlt' := violationTimes_lt bug hidsOrder (hthreads hbefore' htid'.symm)
    simp only [apart, Formula.holds_any, List.mem_cons, List.not_mem_nil, or_false,
      exists_eq_or_imp, exists_eq_left, Formula.holds_all, forall_eq_or_imp, forall_eq,
      Formula.holds_lt, Term.eval, ← hunlock, ← hunlock']
    rcases horder.exclusive hsection hsection' (fun heq => hne (by rw [heq])) with hfirst | hsecond
    · have hapart := violationTimes_lt bug hidsOrder hfirst
      exact .inr ⟨hapart, by omega⟩
    · have hapart := violationTimes_lt bug hidsOrder hsecond
      exact .inl ⟨by omega, hapart⟩

/-- Times order the statements, however ties are resolved. -/
theorem Timed.execution (hids : (trace.map Stmt.id).Nodup) (h : Timed trace σ) :
    Execution trace (byTime (fun x => σ (.pc x.id)) trace) := by
  refine ⟨interleaving_byTime fun hbefore htid => h.threads hbefore htid,
    fun {lock unlock lock' unlock'} hsection hsection' hne => ?_⟩
  obtain ⟨k, hlockId, hunlockId⟩ := hsection.ids
  obtain ⟨k', hlockId', hunlockId'⟩ := hsection'.ids
  have hidNe : lock'.id ≠ lock.id := fun heq =>
    hne (List.inj_on_of_nodup_map hids hsection.lock_mem hsection'.lock_mem heq.symm)
  have hapart := (h.sections lock hsection.lock_mem hsection.lock_op unlock.id
    (by rw [hlockId, hunlockId, unlockOf])).2 lock' hsection'.lock_mem hsection'.lock_op hidNe
    unlock'.id (by rw [hlockId', hunlockId', unlockOf])
  simp only [apart, Formula.holds_any, List.mem_cons, List.not_mem_nil, or_false,
    exists_eq_or_imp, exists_eq_left, Formula.holds_all, forall_eq_or_imp, forall_eq,
    Formula.holds_lt, Term.eval] at hapart
  rcases hapart with ⟨-, hlt⟩ | ⟨hlt, -⟩
  · exact .inr (before_byTime hsection'.unlock_mem hsection.lock_mem hlt)
  · exact .inl (before_byTime hsection.unlock_mem hsection'.lock_mem hlt)

theorem Timed.violates (h : Timed trace σ) (hw : bug.w ∈ trace) (hr : bug.r ∈ trace)
    (hstore : bug.w.op = .store) (hbug : bug.formula.Holds σ) :
    Violates (byTime (fun x => σ (.pc x.id)) trace) bug := by
  obtain ⟨hlt, hpersist⟩ := Mpa.holds_formula.mp hbug
  refine ⟨before_byTime hw hr hlt, fun fence hop htid hbefore => ?_⟩
  have hmem : fence ∈ trace := (byTime_perm _ trace).mem_iff.mp hbefore.mem.2
  have hthreads := interleaving_byTime (@Timed.threads trace σ h)
  have hbefore' := (hthreads.before_iff htid.symm).mp hbefore
  have hle := h.fences hstore hop htid hbefore'
  apply before_byTime hr hmem
  omega

end Executions

/-! ### The verdict -/

section Verdict

variable {z : Solver Var} {g : LockGlobals} {trace : Trace} {reads writes : List Id}
  {transactCons cons : List (Formula Var)} {bugs : List Mpa}

/-- Unsatisfiable constraints leave the trace alone; otherwise a bug that happens at some solution
is repaired. -/
theorem addLocks_cases (hcons : lockConstraints trace = some cons) {g' : LockGlobals}
    (hg : g' = { g with numSolverCalls := g.numSolverCalls + 1 }) :
    ((¬∃ σ, Satisfies σ (transactCons ++ cons) ∧ ∃ bug ∈ bugs, bug.formula.Holds σ) ∧
        addLocks z g trace reads writes transactCons bugs = some (trace, false, g')) ∨
      ∃ bug ∈ bugs, consToRepair z trace transactCons bugs = some bug ∧
        (∃ σ, Satisfies σ (transactCons ++ cons) ∧ bug.formula.Holds σ) ∧
        addLocks z g trace reads writes transactCons bugs =
          (appendTraceWithLocks g' trace bug writes reads).map fun out => (out.1, true, out.2) := by
  have hsplit : ∀ σ, Satisfies σ (transactCons ++ cons ++ [.any (bugs.map Mpa.formula)]) ↔
      Satisfies σ (transactCons ++ cons) ∧ ∃ bug ∈ bugs, bug.formula.Holds σ := by
    intro σ
    rw [satisfies_append, satisfies_cons, Formula.holds_any]
    simp
  rw [addLocks, hcons, Option.bind_eq_bind, Option.bind_some, ← hg]
  cases hcheck : z.check (transactCons ++ cons ++ [.any (bugs.map Mpa.formula)]) with
  | none =>
      refine .inl ⟨?_, rfl⟩
      have hunsat := z.check_eq_none_iff.mp hcheck
      simpa only [hsplit] using hunsat
  | some model =>
      have hsat := (hsplit _).mp (z.sound hcheck _ model.extends_completion)
      cases hfind : bugs.find? fun bug => bug.formula.Holds model.completion with
      | none =>
          obtain ⟨bug, hbug, hholds⟩ := hsat.2
          exact absurd hholds (by simpa using List.find?_eq_none.mp hfind bug hbug)
      | some bug =>
          have hholds : bug.formula.Holds model.completion := by
            simpa using List.find?_some hfind
          refine .inr ⟨bug, List.mem_of_find?_eq_some hfind, ?_, ⟨_, hsat.1, hholds⟩, ?_⟩
          · simp only [consToRepair, hcons, hcheck, hfind, Option.bind_eq_bind, Option.bind_some]
          · simp only [hfind]
            cases appendTraceWithLocks g' trace bug writes reads <;> rfl

end Verdict

/-- Some execution violates a bug exactly when some solution of the constraints does. -/
theorem exists_violation_iff {trace : Trace} {cons : List (Formula Var)} {bugs : List Mpa}
    (hids : (trace.map Stmt.id).Nodup) (hsections : Sections trace)
    (hcons : lockConstraints trace = some cons)
    (hbugs : ∀ bug ∈ bugs, bug.w ∈ trace ∧ bug.r ∈ trace ∧ bug.w.op = .store ∧ bug.r.op = .store) :
    (∃ σ, Satisfies σ cons ∧ ∃ bug ∈ bugs, bug.formula.Holds σ) ↔
      ∃ order, Execution trace order ∧ ∃ bug ∈ bugs, Violates order bug := by
  obtain ⟨cons', hcons', hto, hfrom⟩ := lockConstraints_spec hsections.labelled
  rw [hcons, Option.some.injEq] at hcons'
  subst hcons'
  constructor
  · rintro ⟨σ, hσ, bug, hbug, hholds⟩
    obtain ⟨hw, hr, hstore, -⟩ := hbugs bug hbug
    exact ⟨_, (hto σ hσ).execution hids, bug, hbug, (hto σ hσ).violates hw hr hstore hholds⟩
  · rintro ⟨order, horder, bug, hbug, hviolates⟩
    obtain ⟨hw, hr, -, -⟩ := hbugs bug hbug
    have htimed := horder.timed hids hsections hw hviolates
    exact ⟨_, hfrom hsections _ htimed, bug, hbug, horder.holds_formula hids hviolates⟩

/-- `addLocks` answers `False`, with the trace unchanged, exactly when no execution of the trace
violates a bug. -/
theorem addLocks_false_iff (z : Solver Var) (g : LockGlobals) (trace : Trace)
    (reads writes : List Id) (bugs : List Mpa) (htx : TxFree trace)
    (hids : (trace.map Stmt.id).Nodup) (hsections : Sections trace)
    (hbugs : ∀ bug ∈ bugs, bug.w ∈ trace ∧ bug.r ∈ trace ∧ bug.w.op = .store ∧ bug.r.op = .store) :
    (∃ g', addLocks z g trace reads writes (getTransactionConstraints trace) bugs =
      some (trace, false, g')) ↔
      ¬∃ order, Execution trace order ∧ ∃ bug ∈ bugs, Violates order bug := by
  obtain ⟨cons, hcons, -⟩ := lockConstraints_spec hsections.labelled
  rw [htx.getTransactionConstraints, ← exists_violation_iff hids hsections hcons hbugs]
  rcases @addLocks_cases z g trace reads writes [] cons bugs hcons _ rfl with
    ⟨hunsat, heq⟩ | ⟨bug, hbug, -, ⟨σ, hσ, hholds⟩, heq⟩
  · exact iff_of_true ⟨_, heq⟩ hunsat
  · apply iff_of_false
    · rintro ⟨g', hfalse⟩
      rw [heq, Option.map_eq_some_iff] at hfalse
      obtain ⟨out, -, hout⟩ := hfalse
      simp at hout
    · exact fun hunsat => hunsat ⟨σ, hσ, bug, hbug, hholds⟩

/-- Two stores of different threads, each in a section of its own. -/
def lockedPair : Trace :=
  [⟨.lock 0, .lock, "M1", "-1", 0, "f_1_x"⟩, ⟨.line 2, .store, "x", "-1", 0, "f_1"⟩,
    ⟨.line 3, .fence, "0", "-1", 0, "f_2"⟩, ⟨.unlock 0, .unlock, "M1", "-1", 0, "f_1_x"⟩,
    ⟨.lock 1, .lock, "M1", "-1", 1, "g_3_x"⟩, ⟨.line 4, .store, "y", "-1", 1, "g_3"⟩,
    ⟨.unlock 1, .unlock, "M1", "-1", 1, "g_3_x"⟩]

theorem addLocks_lockedPair :
    ∃ g', addLocks .classical .start lockedPair [.line 4] [.line 2]
      (getTransactionConstraints lockedPair) [⟨lockedPair[1], lockedPair[5]⟩] =
        some (lockedPair, false, g') := by
  have hsections : Sections lockedPair :=
    @Sections.block 0 lockedPair[0] lockedPair[3] [lockedPair[1], lockedPair[2]] _ rfl rfl
      (by decide) rfl rfl rfl
      (@Sections.block 1 lockedPair[4] lockedPair[6] [lockedPair[5]] [] rfl rfl (by decide) rfl rfl
        rfl .nil)
  refine (addLocks_false_iff .classical .start lockedPair [.line 4] [.line 2]
    [⟨lockedPair[1], lockedPair[5]⟩] (by simp [TxFree, lockedPair]) (by decide) hsections
    (by decide)).mpr ?_
  rintro ⟨order, horder, bug, hbug, hbefore, hfences⟩
  obtain rfl := List.mem_singleton.mp hbug
  have hnodup : order.Nodup := horder.threads.1.nodup_iff.mpr (by decide)
  have hthread : ∀ {x y : Stmt}, x.tid = y.tid → Before lockedPair x y → Before order x y :=
    fun htid => (horder.threads.before_iff htid).mpr
  have hsection : SectionOf lockedPair lockedPair[0] lockedPair[3] :=
    ⟨by decide, by decide, rfl, rfl, 0, rfl, rfl⟩
  have hsection' : SectionOf lockedPair lockedPair[4] lockedPair[6] :=
    ⟨by decide, by decide, rfl, rfl, 1, rfl, rfl⟩
  rcases horder.exclusive hsection hsection' (by decide) with hfirst | hsecond
  · have hfence := hfences lockedPair[2] rfl rfl (hthread rfl (by decide : [_, _].Sublist _))
    apply hfence.asymm hnodup
    have hunlock : Before order lockedPair[2] lockedPair[3] :=
      hthread rfl (by decide : [_, _].Sublist _)
    have hlock : Before order lockedPair[4] lockedPair[5] :=
      hthread rfl (by decide : [_, _].Sublist _)
    exact (hunlock.chain hnodup hfirst).chain hnodup hlock
  · apply hbefore.asymm hnodup
    have hunlock : Before order lockedPair[5] lockedPair[6] :=
      hthread rfl (by decide : [_, _].Sublist _)
    have hlock : Before order lockedPair[0] lockedPair[1] :=
      hthread rfl (by decide : [_, _].Sublist _)
    exact (hunlock.chain hnodup hsecond).chain hnodup hlock

end PMBugRepair
