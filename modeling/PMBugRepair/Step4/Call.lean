import PMBugRepair.Step4.Phases

/-!
# A whole call of `appendTraceWithLocks`

Both phases and the last loop together write a piece that stands for the whole trace, with the first
store in a section. The second store is in one as well, unless it was skipped as the last statement
or the first store was new to its section. The only other outcome is a row that is there twice.
-/

namespace PMBugRepair

open Schedule

theorem Ready.mono {r r' : Nat} {trace : Trace} {bug : Mpa} {writes : List Id}
    (h : Ready r trace bug writes) (hle : r ≤ r') : Ready r' trace bug writes :=
  { h with below := fun x hx k hid => lt_of_lt_of_le (h.below x hx k hid) hle }

/-- The new trace stands for the old one, and the repair has got somewhere. -/
structure Repaired (trace : Trace) (bug : Mpa) (writes : List Id) (lo hi : Nat)
    (added out : Trace) : Prop where
  refines : Refines (isWriter writes) (FenceAt trace bug writes) .start trace [] added out
  numbered : NumberedFrom lo hi added
  le : lo ≤ hi
  first_inside : bug.first ∈ inside none out
  second_inside : bug.second ∈ inside none out ∨ bug.first ∉ inside none trace ∨
    (bug.second.id ∉ writes ∧ ∃ init, trace = init ++ [bug.second])

/-- A row occurs twice. -/
def Repeats (trace : Trace) : Prop := ∃ x, Before trace x x

section Call

variable {g : LockGlobals} {trace : Trace} {bug : Mpa} {writes reads : List Id} {held : Held}

theorem Written.complete {r : Nat} {covered old added added' done more out piece : Trace}
    {p q : Phase} (h : Ready r trace bug writes) (htrace : trace = covered ++ old)
    (hwritten : Written trace bug writes r p.globals.r covered old added out) (hsub : p.out ⊆ out)
    (hcomplete : Completes trace bug writes covered p.globals.r old q done more added' piece)
    (hout : p.out ++ q.out ++ more = out ++ piece) (hnodup : more.Nodup) :
    appendMissing (p.out ++ q.out) q.resume = out ++ piece ∧
      Refines (isWriter writes) (FenceAt trace bug writes) .start trace [] (added ++ added')
        (out ++ piece) ∧
      NumberedFrom r q.globals.r (added ++ added') ∧ r ≤ q.globals.r ∧
      inside none (out ++ piece) = inside none out ++
        inside (Guard.start.after (isWriter writes) covered).lock piece := by
  have hnodupTrace : trace.Nodup := h.ids.of_map
  have hrefines : Refines (isWriter writes) (FenceAt trace bug writes) .start covered (old ++ [])
      added out := by
    rw [List.append_nil]
    exact hwritten.refines
  refine ⟨?_, ?_, hwritten.numbered.append hcomplete.numbered hwritten.le hcomplete.le,
    hwritten.le.trans hcomplete.le, ?_⟩
  · rw [hcomplete.resume, appendMissing_eq _ _ hnodup, hout]
    · exact fun x hx => List.mem_append_right _ (hcomplete.done_sub hx)
    · intro y hy hmem
      have hyOld := hcomplete.more_sub hy
      rcases List.mem_append.mp hmem with hmem | hmem
      · rcases List.mem_append.mp (hwritten.mem (hsub hmem)) with hcovered | hadded
        · rw [htrace] at hnodupTrace
          exact (List.nodup_append.mp hnodupTrace).2.2 y hcovered y hyOld rfl
        · refine hwritten.numbered.notMem h.below ?_ hadded
          rw [htrace]
          exact List.mem_append_right _ hyOld
      · exact hcomplete.more_new y hy hmem
  · have hall := hrefines.append hcomplete.refines
    rwa [← htrace] at hall
  · rw [inside_append, Guard.after_lock]
    change _ ++ inside (lockAfter Guard.start.lock out) piece = _
    rw [hwritten.refines.lockAfter_eq]

theorem Resumes.repaired {p q : Phase} (h : Ready g.r trace bug writes)
    (hwrite : held.write = true ↔ Locked trace bug.first)
    (hread : held.read = true ↔ Locked trace bug.second) (hresumes : Resumes trace bug writes g.r p)
    (hfirst : held.write = true ∨ bug.first ∈ inside none p.out)
    (hq : secondPhase p.globals p.resume held bug writes = some q) :
    ∃ added, Repaired trace bug writes g.r q.globals.r added
      (appendMissing (p.out ++ q.out) q.resume) := by
  obtain ⟨covered, added, htrace, hwritten, hsecond⟩ := hresumes
  obtain ⟨hfirstPlain, hsecondPlain⟩ := h.bug_in.plain
  obtain ⟨done, more, added', hcomplete, hplace⟩ :=
    secondPhase_written (h.mono hwritten.le) htrace hread hsecond hq
  have hids : (p.resume.map Stmt.id).Nodup := by
    have hidsTrace := h.ids
    rw [htrace, List.map_append] at hidsTrace
    exact (List.nodup_append.mp hidsTrace).2.1
  have hmore : more.Nodup := by
    have hsuffix := secondPhase_suffix hids (fun hnot => absurd hsecond hnot) hq
    have hnodup := hids.of_map.sublist hsuffix.sublist
    rw [hcomplete.resume] at hnodup
    exact (List.nodup_append.mp hnodup).2.1
  obtain ⟨hout, hrefines, hnumbered, hle, hinside⟩ :=
    hwritten.complete h htrace (List.Subset.refl _) hcomplete (by simp) hmore
  rw [hout]
  refine ⟨added ++ added', hrefines, hnumbered, hle, ?_, ?_⟩
  · rcases hfirst with hlocked | hfirst
    · exact hrefines.inside_sub (h.sound.inside_of_locked hfirstPlain (hwrite.mp hlocked))
    · rw [hinside]
      exact List.mem_append_left _ hfirst
  · rcases hplace with hlocked | hsecond | ⟨hwriter, init, hlast⟩
    · exact .inl (hrefines.inside_sub (h.sound.inside_of_locked hsecondPlain (hread.mp hlocked)))
    · rw [hinside]
      exact .inl (List.mem_append_right _ hsecond)
    · refine .inr (.inr ⟨hwriter, covered ++ init, ?_⟩)
      rw [htrace, hlast, List.append_assoc]

/-- Two stores next to each other do not stand in one section. -/
theorem Ready.not_inside_of_adjacent {r : Nat} (h : Ready r trace bug writes) {pre post : Trace}
    (htrace : trace = pre ++ bug.first :: bug.second :: post) : bug.first ∉ inside none trace := by
  obtain ⟨hfirst, hsecond⟩ := h.bug_in.plain
  intro hinside
  obtain ⟨pre', post', htrace', hopen, -⟩ := mem_inside_iff.mp hinside
  obtain ⟨rfl, rfl⟩ := h.unique_split htrace htrace'
  obtain ⟨lock, hlock⟩ := Option.ne_none_iff_exists'.mp hopen
  have hnext : lockAfter none (pre' ++ [bug.first]) = some lock := by
    rw [lockAfter_append, hlock]
    exact lockNext_plain hfirst
  have hfirstTid := h.sound.thread_of_open htrace hfirst hlock
  have hsecondTid := @Sound.thread_of_open _ _ h.sound (pre' ++ [bug.first]) post bug.second lock
    (by rw [htrace]; simp) hsecond hnext
  exact h.bug_in.first_tid (hfirstTid.trans hsecondTid.symm)

/-- A first phase that ran ahead, with the second store locked already: the last loop skips what has
been copied. -/
theorem RunsAhead.repaired_of_read {p q : Phase} {covered mid tail added : Trace}
    (h : Ready g.r trace bug writes) (hread : held.read = true) (hlocked : Locked trace bug.second)
    (hahead : RunsAhead trace bug writes g.r p covered mid tail added)
    (hq : secondPhase p.globals p.resume held bug writes = some q) :
    ∃ added, Repaired trace bug writes g.r q.globals.r added
      (appendMissing (p.out ++ q.out) q.resume) := by
  rw [secondPhase, if_pos hread, Option.some.injEq] at hq
  have htrace : trace = (covered ++ mid) ++ tail := by rw [hahead.split, List.append_assoc]
  have hwritten := hahead.written
  have hnodup : trace.Nodup := h.ids.of_map
  rw [htrace] at hnodup
  have hmid : mid ⊆ p.out := fun x hx =>
    kept_sublist.subset (hwritten.refines.sub.subset (List.mem_append_right covered hx))
  have hcopy : Refines (isWriter writes) (FenceAt trace bug writes)
      (Guard.start.after (isWriter writes) (covered ++ mid)) tail [] [] tail :=
    h.sound.copy (by rw [htrace, List.append_nil])
  have htail : ∀ y ∈ tail, y ∉ p.out := by
    intro y hy hmem
    rcases List.mem_append.mp (hwritten.mem hmem) with hcovered | hadded
    · exact (List.nodup_append.mp hnodup).2.2 y hcovered y hy rfl
    · refine hwritten.numbered.notMem h.below ?_ hadded
      rw [htrace]
      exact List.mem_append_right _ hy
  have hall := (by rw [List.append_nil]; exact hwritten.refines : Refines (isWriter writes)
    (FenceAt trace bug writes) .start (covered ++ mid) (tail ++ []) added p.out).append hcopy
  rw [← htrace, List.append_nil] at hall
  have hout : appendMissing (p.out ++ q.out) q.resume = p.out ++ tail := by
    rw [← hq, List.append_nil]
    change appendMissing p.out p.resume = p.out ++ tail
    rw [hahead.resume, appendMissing_eq hmid htail (List.nodup_append.mp hnodup).2.1]
  rw [hout]
  refine ⟨added, hall, by rw [← hq]; exact hwritten.numbered, by rw [← hq]; exact hwritten.le, ?_,
    .inl ?_⟩
  · rw [inside_append]
    exact List.mem_append_left _ hahead.inside
  · exact hall.inside_sub (h.sound.inside_of_locked h.bug_in.plain.2 hlocked)

/-- A row that both phases leave is there twice. -/
theorem repeats_of_twice {p q : Phase} {x : Stmt} (hfirst : x ∈ kept none p.out)
    (hsecond : x ∈ kept (lockAfter none p.out) q.out) :
    Repeats (kept none (appendMissing (p.out ++ q.out) q.resume)) := by
  obtain ⟨tail, htail⟩ := exists_appendMissing_eq (p.out ++ q.out) q.resume
  refine ⟨x, ?_⟩
  rw [htail, List.append_assoc, kept_append]
  apply before_of_append hfirst
  rw [kept_append]
  exact List.mem_append_left _ hsecond

/-- A second phase that starts from the beginning copies the first store again. -/
theorem RunsAhead.repeats_of_restart {p q : Phase} {mid tail added : Trace}
    (h : Ready g.r trace bug writes) (hread : held.read = false)
    (hahead : RunsAhead trace bug writes g.r p [] mid tail added)
    (hq : secondPhase p.globals p.resume held bug writes = some q) :
    Repeats (kept none (appendMissing (p.out ++ q.out) q.resume)) := by
  have hplain := h.bug_in.plain.1
  have hfirst : bug.first ∈ p.out := by
    obtain ⟨pre, post, hout, -⟩ := mem_inside_iff.mp hahead.inside
    rw [hout]
    simp
  obtain ⟨pre, post, htrace, hpre, hpost⟩ := exists_split h.ids h.bug_in.second_mem
  have hresume : p.resume = pre ++ bug.second :: post := by
    rw [hahead.resume, ← htrace, hahead.split, List.nil_append]
  have hmem : bug.first ∈ pre := by
    have hfirstMem := h.bug_in.first_mem
    rw [htrace, List.mem_append, List.mem_cons] at hfirstMem
    refine hfirstMem.resolve_right fun hbehind => ?_
    have hafter := hbehind.resolve_left h.bug_in.ne
    refine h.order.asymm h.ids.of_map ?_
    rw [htrace, List.append_cons]
    exact before_of_append (by simp) hafter
  rw [hresume] at hq
  have hcopied := (secondPhase_covers hpre hpost h.bug_in.first_core.2 hread hq).1
    (mem_core.mpr ⟨hmem, h.bug_in.first_core.1⟩)
  exact repeats_of_twice ((mem_kept hplain).mpr hfirst)
    ((mem_kept hplain).mpr (mem_core.mp hcopied).1)

/-- A second phase that starts two behind the first store. -/
theorem RunsAhead.repaired_or_repeats {p q : Phase} {covered mid tail added pre : Trace} {y : Stmt}
    (h : Ready g.r trace bug writes) (hread : held.read = false)
    (hahead : RunsAhead trace bug writes g.r p covered mid tail added)
    (habsent : Absent bug.second.id mid) (hcovered : covered = pre ++ [bug.first, y])
    (hq : secondPhase p.globals p.resume held bug writes = some q) :
    (∃ added, Repaired trace bug writes g.r q.globals.r added
        (appendMissing (p.out ++ q.out) q.resume)) ∨
      (mid ≠ [] ∧ Repeats (kept none (appendMissing (p.out ++ q.out) q.resume))) := by
  have hwritten := hahead.written
  have htrace : trace = (covered ++ mid) ++ tail := by rw [hahead.split, List.append_assoc]
  rw [hahead.resume] at hq
  obtain ⟨piece, done, more, added', hqOut, hcomplete, hplace⟩ :=
    secondPhase_again (h.mono hwritten.le) hahead.split hahead.length hahead.nonempty habsent hread hq
  have hlock :
      (Guard.start.after (isWriter writes) (covered ++ mid)).lock = lockAfter none p.out := by
    rw [Guard.after_lock]
    exact hwritten.refines.lockAfter_eq.symm
  have hids : ((mid ++ tail).map Stmt.id).Nodup := by
    have hidsTrace := h.ids
    rw [hahead.split, List.map_append] at hidsTrace
    exact (List.nodup_append.mp hidsTrace).2.1
  have hunique : bug.second ∉ mid ++ tail → Absent bug.second.id (mid ++ tail) := by
    intro hnot
    apply absent_of_notMem h.ids _ h.bug_in.second_mem hnot
    rw [hahead.split]
    exact List.subset_append_right _ _
  have hmore : more.Nodup := by
    rw [← hahead.resume] at hids hunique hq
    have hnodup := hids.of_map.sublist (secondPhase_suffix hids hunique hq).sublist
    rw [hcomplete.resume] at hnodup
    exact (List.nodup_append.mp hnodup).2.1
  by_cases hdropped : kept (lockAfter none p.out) mid = []
  · -- nothing of the statements that are copied again stays
    have hagain : Written trace bug writes g.r p.globals.r (covered ++ mid) tail added
        (p.out ++ mid) := by
      refine ⟨?_, ?_, hwritten.numbered, hwritten.le⟩
      · have hnothing := @Refines.dropped (isWriter writes) (FenceAt trace bug writes)
          (Guard.start.after (isWriter writes) (covered ++ mid)) tail mid
          (by rw [hlock]; exact hdropped)
        have hall := hwritten.refines.append hnothing
        rwa [List.append_nil, List.append_nil] at hall
      · apply List.append_subset.mpr
        exact ⟨hwritten.mem, fun x hx => by simp [hx]⟩
    obtain ⟨hout, hrefines, hnumbered, hle, hinside⟩ :=
      hagain.complete h htrace (List.subset_append_left _ _) hcomplete (by rw [hqOut]; simp) hmore
    rw [hout]
    refine .inl ⟨added ++ added', hrefines, hnumbered, hle, ?_, ?_⟩
    · rw [hinside, inside_append]
      exact List.mem_append_left _ (List.mem_append_left _ hahead.inside)
    · rcases hplace with hsecond | hnot | ⟨hwriter, rfl⟩
      · rw [hinside]
        exact .inl (List.mem_append_right _ hsecond)
      · -- the second store is the statement directly behind the first one
        obtain ⟨pre', post, hsplit, -, -, hnotPre, hsecond⟩ := h.split
        have hrest : trace = pre ++ bug.first :: (y :: (mid ++ tail)) := by
          rw [htrace, hcovered]
          simp
        obtain ⟨rfl, rfl⟩ := h.unique_split hrest hsplit
        rcases List.mem_cons.mp hsecond with rfl | hbehind
        · exact .inr (.inl (h.not_inside_of_adjacent hrest))
        · rcases List.mem_append.mp hbehind with hmid | htail
          · exact absurd rfl (habsent _ hmid)
          · exact absurd htail hnot
      · exact .inr (.inr ⟨hwriter, _, htrace⟩)
  · obtain ⟨x, hx⟩ := List.exists_mem_of_ne_nil _ hdropped
    have hmid : x ∈ mid := kept_sublist.subset hx
    refine .inr ⟨List.ne_nil_of_mem hmid, @repeats_of_twice p q x ?_ ?_⟩
    · exact hwritten.refines.sub.subset (List.mem_append_right covered hmid)
    · rw [hqOut, kept_append]
      exact List.mem_append_left _ hx

/-- One call: a piece for the whole trace, or a row that is there twice. -/
theorem appendTraceWithLocks_step {out : Trace} {g' : LockGlobals} (h : Ready g.r trace bug writes)
    (hcall : appendTraceWithLocks g trace bug writes reads = some (out, g')) :
    (∃ added, Repaired trace bug writes g.r g'.r added out) ∨
      (Repeats (kept none out) ∧ ¬Locked trace bug.first ∧ ¬Locked trace bug.second ∧
        ¬ClosesInTime trace bug writes) := by
  have hshared := h.sound.not_shared h.bug_in.first_tid h.bug_in.plain.1 h.bug_in.plain.2
  rw [appendTraceWithLocks_of_prepare (prepare_of_not_shared h.ids h.bug_in hshared) rfl] at hcall
  obtain ⟨q, hq, hresult⟩ := Option.map_eq_some_iff.mp hcall
  obtain ⟨rfl, rfl⟩ := Prod.mk.inj hresult
  obtain ⟨hwrite, hread⟩ := heldScan_start_iff h.ids h.bug_in
  rcases firstPhase_written h hwrite rfl with
    ⟨hresumes, hfirst⟩ | ⟨hunlocked, covered, mid, tail, added, hahead⟩
  · exact .inl (hresumes.repaired h hwrite hread hfirst hq)
  · by_cases hheld : Locked trace bug.second
    · exact .inl (hahead.repaired_of_read h (hread.mpr hheld) hheld hq)
    · have hnot : ¬Locked trace bug.first := by
        rw [← hwrite, hunlocked]
        simp
      have hfree := Bool.eq_false_iff.mpr fun hlocked => hheld (hread.mp hlocked)
      rcases hahead.start with ⟨rfl, hmem⟩ | ⟨-, habsent, pre, y, hcovered⟩
      · refine .inr ⟨hahead.repeats_of_restart h hfree hq, hnot, hheld, fun hcloses => ?_⟩
        rw [hahead.late hcloses] at hmem
        cases hmem
      · rcases hahead.repaired_or_repeats h hfree habsent hcovered hq with
          hrepaired | ⟨hne, hrepeats⟩
        · exact .inl hrepaired
        · exact .inr ⟨hrepeats, hnot, hheld, fun hcloses => hne (hahead.late hcloses)⟩

end Call

end PMBugRepair
