import PMBugRepair.Step4.Pieces

/-!
# One call of `appendTraceWithLocks` on a sound trace

The call leaves a piece that stands for the whole trace, or rows that are there twice. A piece has
the first store in a section, and the second one as well unless that was skipped.
-/

namespace PMBugRepair

open Schedule

/-- What the call finds: a sound trace with the stores of the bug in the order of their lines. -/
structure Ready (r : Nat) (trace : Trace) (bug : Mpa) (writes : List Id) : Prop where
  sound : Sound (isWriter writes) trace
  ids : (trace.map Stmt.id).Nodup
  below : NumberedBelow r trace
  bug_in : bug.In trace
  order : Before trace bug.first bug.second

/-- What has been written stands for `covered`, with rows numbered from `lo` up to `hi` added. -/
structure Written (trace : Trace) (bug : Mpa) (writes : List Id) (lo hi : Nat)
    (covered rest added out : Trace) : Prop where
  refines : Refines (isWriter writes) (FenceAt trace bug writes) .start covered rest added out
  mem : out ⊆ covered ++ added
  numbered : NumberedFrom lo hi added
  le : lo ≤ hi

/-- The section of the first store is closed before the last statement; as no writer, the first
store leaves room for the loop that looks for the second one, or so little that it copies
nothing. -/
def ClosesInTime (trace : Trace) (bug : Mpa) (writes : List Id) : Prop :=
  (bug.first.id ∈ writes ∧ ∃ pre post resume, trace = pre ++ bug.first :: post ∧
      ClosesAt bug.second.id bug.first post resume) ∨
    (bug.first.id ∉ writes ∧ ∃ pre y rest, trace = pre ++ bug.first :: y :: rest ∧
      (bug.second ∈ rest.dropLast ∨ rest.length ≤ 1))

section First

variable {g : LockGlobals} {trace : Trace} {bug : Mpa} {writes reads : List Id} {held : Held}

theorem Ready.split {r : Nat} (h : Ready r trace bug writes) :
    ∃ pre post, trace = pre ++ bug.first :: post ∧ Absent bug.first.id pre ∧
      Absent bug.first.id post ∧ bug.second ∉ pre ∧ bug.second ∈ post := by
  obtain ⟨pre, post, htrace, hpre, hpost⟩ := exists_split h.ids h.bug_in.first_mem
  have hnodup : trace.Nodup := h.ids.of_map
  have hnot : bug.second ∉ pre := by
    intro hmem
    apply h.order.asymm hnodup
    rw [htrace]
    exact before_of_append hmem List.mem_cons_self
  refine ⟨pre, post, htrace, hpre, hpost, hnot, ?_⟩
  have hmem := h.bug_in.second_mem
  rw [htrace, List.mem_append, List.mem_cons] at hmem
  exact (hmem.resolve_left hnot).resolve_left h.bug_in.ne.symm

theorem Ready.unique_split {r : Nat} (h : Ready r trace bug writes) {x : Stmt}
    {pre post pre' post' : Trace} (htrace : trace = pre ++ x :: post)
    (htrace' : trace = pre' ++ x :: post') : pre' = pre ∧ post' = post := by
  have hnodup : (pre ++ x :: post).Nodup := htrace ▸ h.ids.of_map
  have hx := (List.nodup_cons.mp (List.nodup_middle.mp hnodup)).1
  rw [List.mem_append, not_or] at hx
  obtain ⟨h1, -, h2⟩ :=
    (List.append_cons_inj_of_notMem hx.1 hx.2).mp (htrace.symm.trans htrace')
  exact ⟨h1.symm, h2.symm⟩

theorem Mpa.In.plain (h : bug.In trace) : bug.first.Plain ∧ bug.second.Plain := by
  have hstore : ∀ {x : Stmt}, x.op = .store → x.Plain := by
    intro x hop
    exact ⟨by simp [hop], by simp [hop]⟩
  rcases bug.first_cases with ⟨heq, heq'⟩ | ⟨heq, heq'⟩ <;> rw [heq, heq']
  exacts [⟨hstore h.w_store, hstore h.r_store⟩, ⟨hstore h.r_store, hstore h.w_store⟩]

/-- A section that is closed in time stands for the statements up to its end. -/
theorem Ready.lock_piece {r : Nat} (h : Ready r trace bug writes) {store : Stmt} {other : Id}
    {front pre post out resume : Trace} {sec : LockSection}
    (htrace : trace = front ++ (pre ++ store :: post)) (hsec : sec = .new store r)
    (hplain : store.Plain) (hend : SectionEnd other store sec post out resume)
    {Cut : Stmt → Trace → Prop}
    (hcut : ∀ body x rest, post = body ++ x :: rest → (∀ y ∈ body, closing other store y = none) →
      closing other store x = some .newFence → Cut sec.fence (x :: rest)) :
    ∃ body fences, post = body ++ resume ∧ (∀ y ∈ body, y.id ≠ other) ∧
      out = body ++ fences ++ [sec.unlock] ∧ (fences = [sec.fence] ∨ fences = []) ∧
      Refines (isWriter writes) Cut (Guard.start.after (isWriter writes) front)
        (pre ++ store :: body) resume (sec.lock :: (fences ++ [sec.unlock]))
        (pre ++ sec.lock :: store :: out) ∧
      store ∈ inside (Guard.start.after (isWriter writes) front).lock
        (pre ++ sec.lock :: store :: out) := by
  obtain ⟨body, x, rest, rfl, hbody, ⟨hx, rfl, rfl⟩ | ⟨hx, rfl, rfl⟩⟩ := hend
  · -- a new fence in front of `x`
    refine ⟨body, [sec.fence], rfl, fun y hy => (closing_eq_none (hbody y hy)).2.1,
      by simp, .inl rfl,
      ?_⟩
    have hpieces := @Sound.pieces (isWriter writes) Cut trace pre [] h.sound store front body
      [sec.fence] (x :: rest) r sec (by rw [htrace]; simp) hsec h.below hplain
      (fun y hy => (closing_eq_none (hbody y hy)).1) (fun y hy => (closing_eq_none (hbody y hy)).2.2.1)
      (.inl rfl) (fun _ => hcut body x rest rfl hbody hx)
    simpa using hpieces
  · -- the fence `x` of the thread
    obtain ⟨htid, hother, hop⟩ := closing_eq_ownFence hx
    refine ⟨body ++ [x], [], by simp, fun y hy => ?_, by simp, .inr rfl, ?_⟩
    · rcases List.mem_append.mp hy with hy | hy
      · exact (closing_eq_none (hbody y hy)).2.1
      · rw [List.mem_singleton.mp hy]
        exact hother
    · have hpending : (Guard.after (isWriter writes) ⟨some sec.lock, false⟩
          (store :: (body ++ [x]))).pending = false := by
        rw [← List.cons_append, Guard.after_append]
        change (Guard.step (isWriter writes) _ x).pending = false
        have hxPlain : x.Plain := ⟨by simp [hop], by simp [hop]⟩
        simp [Guard.step, hxPlain, Stmt.isFence, hop]
      have hpieces := @Sound.pieces (isWriter writes) Cut trace pre [] h.sound store front
        (body ++ [x]) [] resume r sec (by rw [htrace]; simp) hsec h.below hplain
        (fun y hy => by
          rcases List.mem_append.mp hy with hy | hy
          · exact (closing_eq_none (hbody y hy)).1
          · rw [List.mem_singleton.mp hy, htid])
        (fun y hy => by
          rcases List.mem_append.mp hy with hy | hy
          · exact (closing_eq_none (hbody y hy)).2.2.1
          · rw [List.mem_singleton.mp hy, hop]
            simp)
        (.inr ⟨rfl, hpending⟩) (by simp)
      simpa using hpieces

/-- A section that nothing closes is closed by a new fence where the loop ends. -/
theorem Ready.open_piece {r : Nat} (h : Ready r trace bug writes) {store : Stmt} {other : Id}
    {front pre body rest : Trace} {sec : LockSection}
    (htrace : trace = front ++ (pre ++ store :: (body ++ rest))) (hsec : sec = .new store r)
    (hplain : store.Plain) (hbody : ∀ y ∈ body, closing other store y = none)
    {Cut : Stmt → Trace → Prop} (hcut : Cut sec.fence rest) :
    Refines (isWriter writes) Cut (Guard.start.after (isWriter writes) front)
        (pre ++ store :: body) rest [sec.lock, sec.fence, sec.unlock]
        (pre ++ sec.lock :: store :: (body ++ [sec.fence, sec.unlock])) ∧
      store ∈ inside (Guard.start.after (isWriter writes) front).lock
        (pre ++ sec.lock :: store :: (body ++ [sec.fence, sec.unlock])) := by
  have hpieces := @Sound.pieces (isWriter writes) Cut trace pre [] h.sound store front body
    [sec.fence] rest r sec (by rw [htrace]; simp) hsec h.below hplain
    (fun y hy => (closing_eq_none (hbody y hy)).1) (fun y hy => (closing_eq_none (hbody y hy)).2.2.1)
    (.inl rfl) (fun _ => hcut)
  simpa using hpieces

/-- A section around one store that is no writer. -/
theorem Ready.restricted_piece {r : Nat} (h : Ready r trace bug writes) {store : Stmt}
    {front pre mid rest : Trace} {sec : LockSection}
    (htrace : trace = front ++ (pre ++ store :: (mid ++ rest))) (hsec : sec = .new store r)
    (hplain : store.Plain) (hwriter : store.id ∉ writes) {Cut : Stmt → Trace → Prop} :
    Refines (isWriter writes) Cut (Guard.start.after (isWriter writes) front)
        (pre ++ store :: mid) rest [sec.lock, sec.unlock]
        (pre ++ sec.lock :: store :: sec.unlock :: mid) ∧
      store ∈ inside (Guard.start.after (isWriter writes) front).lock
        (pre ++ sec.lock :: store :: sec.unlock :: mid) := by
  have hpending :
      (Guard.after (isWriter writes) ⟨some sec.lock, false⟩ [store]).pending = false := by
    simp [Guard.after, Guard.step, hplain, isWriter, hwriter]
  have hpieces := @Sound.pieces (isWriter writes) Cut trace pre mid h.sound store front [] [] rest r
    sec (by rw [htrace]; simp) hsec h.below hplain (by simp) (by simp) (.inr ⟨rfl, hpending⟩) (by simp)
  simpa using hpieces

/-- The next phase goes on where this one stopped. -/
def Resumes (trace : Trace) (bug : Mpa) (writes : List Id) (lo : Nat) (p : Phase) : Prop :=
  ∃ covered added, trace = covered ++ p.resume ∧
    Written trace bug writes lo p.globals.r covered p.resume added p.out ∧ bug.second ∈ p.resume

/-- The statements `mid` have been copied, and the next phase starts in front of them. -/
structure RunsAhead (trace : Trace) (bug : Mpa) (writes : List Id) (lo : Nat) (p : Phase)
    (covered mid tail added : Trace) : Prop where
  split : trace = covered ++ (mid ++ tail)
  resume : p.resume = mid ++ tail
  length : tail.length ≤ 1
  nonempty : tail = [] → mid = []
  written : Written trace bug writes lo p.globals.r (covered ++ mid) tail added p.out
  inside : bug.first ∈ PMBugRepair.inside none p.out
  late : ClosesInTime trace bug writes → mid = []
  start : (covered = [] ∧ bug.first ∈ mid) ∨
    (bug.first.id ∉ writes ∧ Absent bug.second.id mid ∧ ∃ pre y, covered = pre ++ [bug.first, y])

theorem lockFirst_written (h : Ready g.r trace bug writes) (hunlocked : ¬Locked trace bug.first)
    (hwriter : bug.first.id ∈ writes) {p : Phase}
    (hp : lockFirst g trace bug.first bug.second.id writes reads = p) :
    (Resumes trace bug writes g.r p ∧ bug.first ∈ inside none p.out) ∨
      ∃ covered mid tail added, RunsAhead trace bug writes g.r p covered mid tail added := by
  obtain ⟨pre, post, htrace, hpre, hpost, hnotPre, hsecond⟩ := h.split
  have hplain := h.bug_in.plain.1
  rw [htrace] at hp
  obtain ⟨hr, ⟨out, ⟨init, last, resume, rfl, hend, hresume⟩, hout⟩ | ⟨hall, hresume, hout⟩⟩ :=
    lockFirst_cases hpre hpost rfl hp
  · -- the section is closed before the last statement
    have hcut : ∀ body x rest, init ++ [last] = body ++ x :: rest →
        (∀ y ∈ body, closing bug.second.id bug.first y = none) →
        closing bug.second.id bug.first x = some .newFence →
        FenceAt trace bug writes (LockSection.new bug.first g.r).fence (x :: rest) := by
      intro body x rest hsplit hbody hx
      refine .inr (.inl ⟨rfl, hwriter, hunlocked, pre, body, x, rest, rfl, ?_, hbody, .inl hx⟩)
      rw [htrace, hsplit]
    obtain ⟨body, fences, hbody, hother, rfl, hfences, hrefines, hinside⟩ :=
      @Ready.lock_piece trace bug writes g.r h bug.first bug.second.id [] pre (init ++ [last]) out
        p.resume _ htrace rfl hplain (hresume ▸ hend.append [last]) _ hcut
    rw [← hout] at hrefines hinside
    refine .inl ⟨⟨pre ++ bug.first :: body, _, by rw [htrace, hbody]; simp,
      ⟨hrefines, ?_, ?_, by omega⟩, ?_⟩, hinside⟩
    · rw [hout]
      simpa only [List.append_nil, List.nil_append, List.append_assoc, List.cons_append]
        using (@perm_section pre body fences [] bug.first _ _).subset
    · rw [hr]
      exact .rows rfl hfences
    · rw [hbody, List.mem_append] at hsecond
      exact hsecond.resolve_left fun hmem => hother _ hmem rfl
  · -- nothing closes the section, and the index stays what it was
    obtain ⟨hne, hout⟩ : post ≠ [] ∧ p.out = pre ++ (LockSection.new bug.first g.r).lock ::
        bug.first :: (post.dropLast ++ [(LockSection.new bug.first g.r).fence,
          (LockSection.new bug.first g.r).unlock]) := by
      rcases hout with ⟨rfl, -⟩ | hout
      · cases hsecond
      · exact hout
    obtain ⟨init, last, rfl⟩ : ∃ init last, post = init ++ [last] :=
      ⟨post.dropLast, post.getLast hne, (List.dropLast_append_getLast hne).symm⟩
    rw [List.dropLast_concat] at hall hout
    have hcut : FenceAt trace bug writes (LockSection.new bug.first g.r).fence [last] :=
      .inr (.inl ⟨rfl, hwriter, hunlocked, pre, init, last, [], rfl, htrace, hall, .inr ⟨rfl, rfl⟩⟩)
    obtain ⟨hrefines, hinside⟩ :=
      @Ready.open_piece trace bug writes g.r h bug.first bug.second.id []
      pre init [last] _ htrace rfl hplain hall _ hcut
    rw [← hout] at hrefines hinside
    refine .inr ⟨[], pre ++ bug.first :: init, [last], _, ⟨by rw [htrace]; simp,
      by rw [hresume]; simp, by simp, by simp, ⟨hrefines, ?_, ?_, by omega⟩, hinside, ?_,
      .inl ⟨rfl, by simp⟩⟩⟩
    · rw [hout]
      simpa only [List.append_nil, List.nil_append, List.append_assoc, List.cons_append]
        using (@perm_section pre init [_] [] bug.first _ _).subset
    · rw [hr]
      exact .rows rfl (.inl rfl)
    · rintro (⟨-, pre', post', resume, heq, hcloses⟩ | ⟨hnot, -⟩)
      · obtain ⟨rfl, rfl⟩ := h.unique_split htrace heq
        obtain ⟨x, hx, hclosing⟩ := hcloses.mem_dropLast
        rw [List.dropLast_concat] at hx
        exact absurd (hall x hx) hclosing
      · exact absurd hwriter hnot

theorem restrictFirst_written (h : Ready g.r trace bug writes) (hwriter : bug.first.id ∉ writes)
    {p : Phase} (hp : restrictFirst g trace bug.first bug.second.id = p) :
    (Resumes trace bug writes g.r p ∧ bug.first ∈ inside none p.out) ∨
      ∃ covered mid tail added, RunsAhead trace bug writes g.r p covered mid tail added := by
  obtain ⟨pre, post, htrace, hpre, hpost, hnotPre, hsecond⟩ := h.split
  have hplain := h.bug_in.plain.1
  rw [htrace] at hp
  obtain ⟨hr, ⟨rfl, -⟩ | ⟨y, rest, rfl, ⟨before, found, behind, rfl, hbehind, hid, habsent, hout,
    hresume⟩ | ⟨habsent, hout, hresume⟩⟩⟩ := restrictFirst_cases hpre rfl hp
  · cases hsecond
  · -- the phase stops at the second store
    obtain rfl : found = bug.second := by
      apply List.inj_on_of_nodup_map h.ids _ h.bug_in.second_mem hid
      rw [htrace]
      simp
    obtain ⟨hrefines, hinside⟩ := @Ready.restricted_piece trace bug writes g.r h bug.first [] pre
      (y :: before) (bug.second :: behind) _ (by rw [htrace]; simp) rfl hplain hwriter
      (FenceAt trace bug writes)
    rw [← hout] at hrefines hinside
    rw [← hresume] at hrefines
    refine .inl ⟨⟨pre ++ bug.first :: y :: before, _, by rw [htrace, hresume]; simp,
      ⟨hrefines, ?_, ?_, by omega⟩, ?_⟩, hinside⟩
    · rw [hout]
      simpa only [List.append_nil, List.nil_append, List.append_assoc, List.cons_append]
        using (@perm_section pre [] [] (y :: before) bug.first _ _).subset
    · rw [hr]
      exact .rows rfl (.inr rfl)
    · rw [hresume]
      exact List.mem_cons_self
  · -- the phase does not see the second store, and the index stays two behind the first one
    have hrest := dropLast_append_drop rest
    obtain ⟨hrefines, hinside⟩ := @Ready.restricted_piece trace bug writes g.r h bug.first [] pre
      (y :: rest.dropLast) (rest.drop (rest.length - 1)) _
      (by rw [htrace, List.cons_append, hrest, List.nil_append]) rfl hplain hwriter
      (FenceAt trace bug writes)
    refine .inr ⟨pre ++ [bug.first, y], rest.dropLast, rest.drop (rest.length - 1),
      [(LockSection.new bug.first g.r).lock, (LockSection.new bug.first g.r).unlock],
      ⟨by rw [hrest, htrace]; simp, by rw [hrest, hresume], by rw [List.length_drop]; omega, ?_,
      ⟨?_, ?_, ?_, by omega⟩, hout ▸ hinside, ?_, .inr ⟨hwriter, habsent, pre, y, rfl⟩⟩⟩
    · intro hnil
      rw [hnil, List.append_nil] at hrest
      have hlength := congrArg List.length hrest
      rw [List.length_dropLast] at hlength
      have hzero : rest.length = 0 := by omega
      rw [List.length_eq_zero_iff.mp hzero]
      rfl
    · rw [hout, List.append_assoc]
      exact hrefines
    · rw [hout]
      simpa only [List.append_nil, List.nil_append, List.append_assoc, List.cons_append]
        using (@perm_section pre [] [] (y :: rest.dropLast) bug.first _ _).subset
    · rw [hr]
      exact .rows rfl (.inr rfl)
    · rintro (⟨hwrites, -⟩ | ⟨-, pre', y', rest', heq, hroom⟩)
      · exact absurd hwrites hwriter
      · obtain ⟨-, hpost'⟩ := h.unique_split htrace heq
        obtain ⟨-, rfl⟩ := List.cons.inj hpost'
        rcases hroom with hmem | hlength
        · exact absurd rfl (habsent bug.second hmem)
        · apply List.length_eq_zero_iff.mp
          rw [List.length_dropLast]
          omega

theorem firstPhase_written (h : Ready g.r trace bug writes)
    (hwrite : held.write = true ↔ Locked trace bug.first) {p : Phase}
    (hp : firstPhase g trace held bug writes reads = p) :
    (Resumes trace bug writes g.r p ∧ (held.write = true ∨ bug.first ∈ inside none p.out)) ∨
      (held.write = false ∧
        ∃ covered mid tail added, RunsAhead trace bug writes g.r p covered mid tail added) := by
  unfold firstPhase at hp
  split at hp
  · rename_i hheld
    subst hp
    refine .inl ⟨⟨[], [], rfl, ⟨?_, by simp, .nil g.r, le_rfl⟩, h.bug_in.second_mem⟩, .inl hheld⟩
    exact Refines.copy trivial rfl
  · rename_i hheld
    have hunlocked : ¬Locked trace bug.first := fun hlocked => hheld (hwrite.mpr hlocked)
    rw [Bool.not_eq_true] at hheld
    split at hp
    · rename_i hwriter
      rcases lockFirst_written h hunlocked hwriter hp with ⟨hresumes, hinside⟩ | hahead
      · exact .inl ⟨hresumes, .inr hinside⟩
      · exact .inr ⟨hheld, hahead⟩
    · rename_i hwriter
      rcases restrictFirst_written h hwriter hp with ⟨hresumes, hinside⟩ | hahead
      · exact .inl ⟨hresumes, .inr hinside⟩
      · exact .inr ⟨hheld, hahead⟩

end First

section Second

variable {g : LockGlobals} {trace front resume : Trace} {bug : Mpa} {writes : List Id} {held : Held}

/-- The rest of the new trace: what the second phase writes and what the last loop appends to it. -/
structure Completes (trace : Trace) (bug : Mpa) (writes : List Id) (front : Trace) (lo : Nat)
    (old : Trace) (q : Phase) (done more added piece : Trace) : Prop where
  resume : q.resume = done ++ more
  done_sub : done ⊆ q.out
  more_new : ∀ y ∈ more, y ∉ q.out
  more_sub : more ⊆ old
  refines : Refines (isWriter writes) (FenceAt trace bug writes)
    (Guard.start.after (isWriter writes) front) old [] added piece
  numbered : NumberedFrom lo q.globals.r added
  le : lo ≤ q.globals.r

theorem Ready.complete {old added out rest : Trace} {q : Phase} (h : Ready g.r trace bug writes)
    (htrace : trace = front ++ (old ++ rest)) (hout : q.out = out) (hresume : q.resume = rest)
    (hr : q.globals.r = g.r + 1)
    (hrefines : Refines (isWriter writes) (FenceAt trace bug writes)
      (Guard.start.after (isWriter writes) front) old rest added out)
    (hmem : out ⊆ old ++ added) (hnumbered : NumberedFrom g.r (g.r + 1) added) :
    Completes trace bug writes front g.r (old ++ rest) q [] rest added (q.out ++ rest) := by
  have hcopy := @Sound.copy (isWriter writes) (FenceAt trace bug writes) trace
    (front ++ old) rest []
    h.sound (by rw [htrace]; simp)
  rw [Guard.after_append] at hcopy
  have hall := (by rw [List.append_nil]; exact hrefines : Refines (isWriter writes)
    (FenceAt trace bug writes) (Guard.start.after (isWriter writes) front) old (rest ++ []) added
    out).append hcopy
  rw [List.append_nil] at hall
  refine ⟨hresume, by simp, fun y hy hin => ?_, List.subset_append_right _ _, hout ▸ hall,
    hr ▸ hnumbered,
    by omega⟩
  rw [hout] at hin
  rcases List.mem_append.mp (hmem hin) with hold | hadded
  · have hnodup : trace.Nodup := h.ids.of_map
    rw [htrace, ← List.append_assoc] at hnodup
    exact (List.nodup_append.mp hnodup).2.2 y (List.mem_append_right front hold) y hy rfl
  · refine hnumbered.notMem h.below ?_ hadded
    rw [htrace]
    simp [hy]

theorem secondPhase_written (h : Ready g.r trace bug writes) (htrace : trace = front ++ resume)
    (hread : held.read = true ↔ Locked trace bug.second) (hsecond : bug.second ∈ resume) {q : Phase}
    (hq : secondPhase g resume held bug writes = some q) :
    ∃ done more added,
      Completes trace bug writes front g.r resume q done more added (q.out ++ more) ∧
      (held.read = true ∨
        bug.second ∈ inside (Guard.start.after (isWriter writes) front).lock (q.out ++ more) ∨
        (bug.second.id ∉ writes ∧ ∃ init, resume = init ++ [bug.second])) := by
  have hplain := h.bug_in.plain.2
  have hids : (resume.map Stmt.id).Nodup := by
    have hidsTrace := h.ids
    rw [htrace, List.map_append] at hidsTrace
    exact (List.nodup_append.mp hidsTrace).2.1
  have hcopy : Refines (isWriter writes) (FenceAt trace bug writes)
      (Guard.start.after (isWriter writes) front) resume [] [] resume :=
    h.sound.copy (by rw [htrace, List.append_nil])
  unfold secondPhase at hq
  split at hq
  · rename_i hheld
    obtain rfl := Option.some.inj hq
    exact ⟨[], resume, [], ⟨rfl, by simp, by simp, List.Subset.refl _, hcopy, .nil g.r, le_rfl⟩,
      .inl hheld⟩
  · rename_i hheld
    have hunlocked : ¬Locked trace bug.second := fun hlocked => hheld (hread.mpr hlocked)
    split at hq
    · rename_i hwriter
      obtain ⟨pre, post, rfl, hpre, hpost⟩ := exists_split hids hsecond
      obtain ⟨q', hq', hr, hcases⟩ :=
        @lockSecond_cases g bug.second pre post writes bug.first.id _ hpre hpost rfl
      rw [hq'] at hq
      obtain rfl := Option.some.inj hq
      rcases hcases with ⟨out, hend, hout⟩ | ⟨hall, hsuffix, hout⟩
      · -- the section of the second store is closed by a later statement
        have hcut : ∀ body x rest, post = body ++ x :: rest →
            (∀ y ∈ body, closing bug.first.id bug.second y = none) →
            closing bug.first.id bug.second x = some .newFence →
            FenceAt trace bug writes (LockSection.new bug.second g.r).fence (x :: rest) := by
          intro body x rest hsplit hbody hx
          refine .inr (.inr ⟨rfl, hwriter, hunlocked, front ++ pre, body, x, rest, rfl, ?_, hbody,
            .inl hx⟩)
          rw [htrace, hsplit, List.append_assoc]
        obtain ⟨body, fences, hbody, -, rfl, hfences, hrefines, hinside⟩ :=
          @Ready.lock_piece trace bug writes g.r h bug.second bug.first.id front pre post out q'.resume
            _ htrace rfl hplain hend _ hcut
        have hold : pre ++ bug.second :: post = (pre ++ bug.second :: body) ++ q'.resume := by
          rw [hbody]
          simp
        have hcomplete := h.complete (by rw [htrace, hold]) hout rfl hr hrefines (by
          simpa only [List.append_nil, List.nil_append, List.append_assoc, List.cons_append]
            using (@perm_section pre body fences [] bug.second _ _).subset) (.rows rfl hfences)
        rw [← hold] at hcomplete
        refine ⟨[], q'.resume, _, hcomplete, .inr (.inl ?_)⟩
        rw [inside_append, hout]
        exact List.mem_append_left _ hinside
      · -- nothing closes it, and everything has been copied
        obtain ⟨hrefines, hinside⟩ :=
          @Ready.open_piece trace bug writes g.r h bug.second bug.first.id
          front pre post [] _ (by rw [htrace, List.append_nil]) rfl hplain hall
          (FenceAt trace bug writes) (.inl rfl)
        refine ⟨q'.resume, [], _, ⟨by simp, fun x hx => ?_, by simp, by simp,
          by rw [List.append_nil, hout]; exact hrefines, by rw [hr]; exact .rows rfl (.inl rfl),
          by omega⟩,
          .inr (.inl (by rw [List.append_nil, hout]; exact hinside))⟩
        rw [hout]
        exact ((List.Sublist.refl pre).append (((List.sublist_append_left post _).cons_cons
          bug.second).cons _)).subset (hsuffix.subset hx)
    · rename_i hwriter
      obtain rfl := Option.some.inj hq
      generalize hq : restrictSecond g resume bug.second = q
      obtain ⟨hr, ⟨before, found, next, hresume, hid, -, hout⟩ | ⟨habsent, hout, hresume⟩⟩ :=
        restrictSecond_cases rfl hq
      · obtain rfl : found = bug.second := by
          apply List.inj_on_of_nodup_map h.ids _ h.bug_in.second_mem hid
          rw [htrace, hresume]
          simp
        obtain ⟨hrefines, hinside⟩ :=
          @Ready.restricted_piece trace bug writes g.r h bug.second front
          before [next] q.resume _ (by rw [htrace, hresume]; rfl) rfl hplain hwriter
          (FenceAt trace bug writes)
        have hold : resume = (before ++ [bug.second, next]) ++ q.resume := by
          rw [List.append_assoc]
          exact hresume
        have hcomplete := h.complete (by rw [htrace, hold]) hout rfl hr hrefines (by
          simpa only [List.append_nil, List.nil_append, List.append_assoc, List.cons_append]
            using (@perm_section before [] [] [next] bug.second _ _).subset) (.rows rfl (.inr rfl))
        rw [← hold] at hcomplete
        refine ⟨[], q.resume, _, hcomplete, .inr (.inl ?_)⟩
        rw [inside_append, hout]
        exact List.mem_append_left _ hinside
      · -- the second store comes last and is skipped
        have hlast : resume = resume.dropLast ++ [bug.second] := by
          have hne := List.ne_nil_of_mem hsecond
          have hsplit := (List.dropLast_append_getLast hne).symm
          have hmem := hsecond
          rw [hsplit, List.mem_append, List.mem_singleton] at hmem
          rw [hmem.resolve_left fun hin => habsent _ hin rfl]
          exact hsplit
        have hwhole : q.out ++ [bug.second] = resume := by rw [hout, ← hlast]
        refine ⟨resume.dropLast, [bug.second], [], ⟨by rw [hresume, ← hlast],
          by rw [hout]; exact List.Subset.refl _, ?_, by simpa using hsecond,
          hwhole.symm ▸ hcopy, ?_,
          by omega⟩, .inr (.inr ⟨hwriter, _, hlast⟩)⟩
        · intro y hy
          rw [List.mem_singleton.mp hy, hout]
          exact fun hin => habsent _ hin rfl
        · rw [hr]
          exact ⟨List.nodup_nil, by simp⟩

/-- A phase that starts in front of statements which are already copied writes them again, and then
what is left of the trace. -/
theorem secondPhase_again {mid tail : Trace} (h : Ready g.r trace bug writes)
    (htrace : trace = front ++ (mid ++ tail)) (hlength : tail.length ≤ 1)
    (hnonempty : tail = [] → mid = []) (habsent : Absent bug.second.id mid)
    (hread : held.read = false) {q : Phase}
    (hq : secondPhase g (mid ++ tail) held bug writes = some q) :
    ∃ piece done more added, q.out = mid ++ piece ∧
      Completes trace bug writes (front ++ mid) g.r tail q done more added (piece ++ more) ∧
      (bug.second ∈ inside (Guard.start.after (isWriter writes) (front ++ mid)).lock (piece ++ more) ∨
        bug.second ∉ tail ∨ (bug.second.id ∉ writes ∧ tail = [bug.second])) := by
  have hplain := h.bug_in.plain.2
  have hcopy : Refines (isWriter writes) (FenceAt trace bug writes)
      (Guard.start.after (isWriter writes) (front ++ mid)) tail [] [] tail :=
    h.sound.copy (by rw [htrace]; simp)
  have hclosed : ((Guard.start.after (isWriter writes) (front ++ mid)).after (isWriter writes)
      tail).lock = none := h.sound.closed_after (by rw [htrace]; simp)
  have hids : ((mid ++ tail).map Stmt.id).Nodup := by
    have hidsTrace := h.ids
    rw [htrace, List.map_append] at hidsTrace
    exact (List.nodup_append.mp hidsTrace).2.1
  unfold secondPhase at hq
  rw [hread] at hq
  simp only [Bool.false_eq_true, if_false] at hq
  split at hq
  · rename_i hwriter
    by_cases hsecond : bug.second ∈ tail
    · -- the second store comes last
      obtain rfl := Lists.eq_singleton_of_mem hlength hsecond
      obtain ⟨q', hq', hr, hcases⟩ := @lockSecond_cases g bug.second mid [] writes bug.first.id _
        habsent (by simp [Absent]) rfl
      rw [hq'] at hq
      obtain rfl := Option.some.inj hq
      rcases hcases with ⟨out, ⟨body, x, rest, hnil, -⟩, -⟩ | ⟨-, hsuffix, hout⟩
      · simp at hnil
      · obtain ⟨hrefines, hinside⟩ :=
          @Ready.open_piece trace bug writes g.r h bug.second bug.first.id
          (front ++ mid) [] [] [] _ (by rw [htrace]; simp) rfl hplain (by simp)
          (FenceAt trace bug writes) (.inl rfl)
        refine ⟨_, q'.resume, [], _, hout, ⟨by simp, fun x hx => ?_, by simp, by simp,
          by rw [List.append_nil]; exact hrefines, by rw [hr]; exact .rows rfl (.inl rfl), by omega⟩,
          .inl (by rw [List.append_nil]; exact hinside)⟩
        rw [hout]
        exact ((List.Sublist.refl mid).append (((List.sublist_append_left [] _).cons_cons
          bug.second).cons _)).subset (hsuffix.subset hx)
    · -- it has been copied, and a section is closed that was never opened
      have habsentAll : Absent bug.second.id (mid ++ tail) := by
        apply absent_of_notMem h.ids _ h.bug_in.second_mem
        · rw [List.mem_append]
          exact fun hmem => hmem.elim (fun hin => habsent _ hin rfl) hsecond
        · rw [htrace]
          exact List.subset_append_right _ _
      rcases @lockSecond_of_absent g bug.second writes bug.first.id
        (mid ++ tail) _ habsentAll rfl with
        ⟨-, hnone⟩ | ⟨-, q', hq', hr, hsuffix, hout⟩
      · rw [hnone] at hq
        cases hq
      · rw [hq'] at hq
        obtain rfl := Option.some.inj hq
        have horphan := @Refines.orphan (isWriter writes) (FenceAt trace bug writes) _ bug.second []
          g.r _ rfl hclosed (.inl rfl)
        have hall := (by rw [List.append_nil]; exact hcopy : Refines (isWriter writes)
          (FenceAt trace bug writes) (Guard.start.after (isWriter writes) (front ++ mid)) tail
          ([] ++ []) [] tail).append horphan
        rw [List.append_nil, List.nil_append] at hall
        refine ⟨tail ++ _, q'.resume, [], _, by rw [hout, List.append_assoc],
          ⟨by simp, fun x hx => ?_,
          by simp, by simp, by rw [List.append_nil]; exact hall, by rw [hr]; exact .orphan rfl,
          by omega⟩, .inr (.inl hsecond)⟩
        rw [hout]
        exact List.mem_append_left _ (hsuffix.subset hx)
  · rename_i hwriter
    obtain rfl := Option.some.inj hq
    generalize hq : restrictSecond g (mid ++ tail) bug.second = q
    have hdrop : (mid ++ tail).dropLast = mid := by
      rcases List.eq_nil_or_concat' tail with rfl | ⟨init, last, rfl⟩
      · rw [hnonempty rfl]
        rfl
      · rw [List.length_append, List.length_singleton] at hlength
        have hinit : init.length = 0 := by omega
        rw [List.length_eq_zero_iff.mp hinit, List.nil_append]
        exact List.dropLast_concat
    obtain ⟨hr, ⟨before, found, next, hresume, hid, -, -⟩ | ⟨-, hout, hresume⟩⟩ :=
      restrictSecond_cases rfl hq
    · refine absurd hid (habsent found ?_)
      rw [← hdrop, hresume, List.dropLast_append_cons, List.dropLast_cons_cons]
      simp
    · rw [hdrop] at hout
      refine ⟨[], mid, tail, [], by rw [hout, List.append_nil], ⟨hresume,
        by rw [hout]; exact List.Subset.refl _, fun y hy hin => ?_, List.Subset.refl _, hcopy,
        by rw [hr]; exact ⟨List.nodup_nil, by simp⟩, by omega⟩, ?_⟩
      · rw [hout] at hin
        exact (List.nodup_append.mp hids.of_map).2.2 y hin y hy rfl
      · by_cases hsecond : bug.second ∈ tail
        · exact .inr (.inr ⟨hwriter, Lists.eq_singleton_of_mem hlength hsecond⟩)
        · exact .inr (.inl hsecond)

end Second

end PMBugRepair
