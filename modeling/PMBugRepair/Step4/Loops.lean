import PMBugRepair.Containers.Lists
import PMBugRepair.Step4.Append
import PMBugRepair.Schedule.Order

/-!
# What the copying loops do

One lemma per loop of `appendTraceWithLocks`. On a trace in which the number of a store occurs once,
each loop cuts its input into a part that is copied, with the statements of a section around the
store, and the part from which the next loop resumes.
-/

namespace PMBugRepair

/-- No statement carries the number. -/
def Absent (id : Id) (trace : Trace) : Prop := ∀ x ∈ trace, x.id ≠ id

section Inside

variable {own other : Id} {sec : LockSection} {candidates : List Id} {found : Stmt}
  {g : LockGlobals}

/-- The section of `found` ends within the statements `post` that follow it: `out` is what is
written up to the unlock, `resume` what is left. -/
def SectionEnd (other : Id) (found : Stmt) (sec : LockSection) (post out resume : Trace) : Prop :=
  ∃ body x rest, post = body ++ x :: rest ∧ (∀ y ∈ body, closing other found y = none) ∧
    ((closing other found x = some .newFence ∧ out = body ++ [sec.fence, sec.unlock] ∧
        resume = x :: rest) ∨
      (closing other found x = some .ownFence ∧ out = body ++ [x, sec.unlock] ∧ resume = rest))

/-- Inside a section the loop runs to the end, or to the first statement that closes it. -/
theorem insideLoop_cases {post : Trace} (hown : Absent own post) :
    ((insideLoop own other sec candidates found g post).out = post ∧
        (insideLoop own other sec candidates found g post).resume = none ∧
        ∀ y ∈ post, closing other found y = none) ∨
      ∃ resume, (insideLoop own other sec candidates found g post).resume = some resume ∧
        SectionEnd other found sec post
          (insideLoop own other sec candidates found g post).out resume := by
  induction post generalizing g with
  | nil => exact .inl ⟨rfl, rfl, by simp⟩
  | cons x rest ih =>
      have hx : x.id ≠ own := hown x List.mem_cons_self
      have hrest : Absent own rest := fun y hy => hown y (List.mem_cons_of_mem x hy)
      rw [insideLoop, if_neg hx]
      cases hclosing : closing other found x with
      | some reason =>
          cases reason with
          | newFence =>
              exact .inr ⟨x :: rest, rfl, [], x, rest, rfl, by simp, .inl ⟨hclosing, rfl, rfl⟩⟩
          | ownFence => exact .inr ⟨rest, rfl, [], x, rest, rfl, by simp, .inr ⟨hclosing, rfl, rfl⟩⟩
      | none =>
          simp only [Copied.after, List.cons_append, List.nil_append]
          rcases ih (g := if x.isStore ∧ x.id ∉ g.lockedWrites ∧ x.id ∈ candidates then
              { g with lockedWrites := g.lockedWrites ++ [x.id] } else g) hrest with
            ⟨hout, hresume, hall⟩ | ⟨resume, hresume, body, y, tail, rfl, hbody, hend⟩
          · exact .inl ⟨by rw [hout], hresume, List.forall_mem_cons.mpr ⟨hclosing, hall⟩⟩
          · refine .inr ⟨resume, hresume, x :: body, y, tail, rfl,
              List.forall_mem_cons.mpr ⟨hclosing, hbody⟩, ?_⟩
            rcases hend with ⟨hy, hout, heq⟩ | ⟨hy, hout, heq⟩
            · exact .inl ⟨hy, by rw [hout]; rfl, heq⟩
            · exact .inr ⟨hy, by rw [hout]; rfl, heq⟩

theorem insideLoop_r {post : Trace} :
    (insideLoop own other sec candidates found g post).globals.r = g.r := by
  induction post generalizing g found with
  | nil => rfl
  | cons x rest ih =>
      rw [insideLoop]
      split
      · exact ih
      · split
        · rfl
        · rfl
        · refine ih.trans ?_
          split <;> rfl

end Inside

section Lock

variable {own other : Id} {sec : LockSection} {candidates : List Id} {g : LockGlobals}

theorem lockLoop_of_absent {trace : Trace} (habsent : Absent own trace) :
    lockLoop own other sec candidates g trace = ⟨trace, none, g⟩ := by
  induction trace with
  | nil => rfl
  | cons x rest ih =>
      rw [lockLoop, if_neg (habsent x List.mem_cons_self),
        ih fun y hy => habsent y (List.mem_cons_of_mem x hy)]
      rfl

theorem lockLoop_of_append {pre post : Trace} {found : Stmt} (habsent : Absent own pre)
    (hfound : found.id = own) :
    lockLoop own other sec candidates g (pre ++ found :: post) =
      (insideLoop own other sec candidates found { g with numLocks := g.numLocks + 1 } post).after
        (pre ++ [sec.lock, found]) := by
  induction pre with
  | nil => rw [List.nil_append, lockLoop, if_pos hfound]; rfl
  | cons x pre ih =>
      rw [List.cons_append, lockLoop, if_neg (habsent x List.mem_cons_self),
        ih fun y hy => habsent y (List.mem_cons_of_mem x hy)]
      rfl

end Lock

section Restricted

variable {own : Id} {sec : LockSection}

theorem restrictedLoop_of_absent {trace : Trace} (habsent : Absent own trace.dropLast) :
    restrictedLoop own sec trace = (trace.dropLast, none) := by
  fun_induction restrictedLoop own sec trace with
  | case1 x y rest heq => exact absurd heq (habsent x (by simp))
  | case2 x y rest hne c ih =>
      have htail := ih fun z hz => habsent z (by simp [hz])
      simp only [c, htail, List.dropLast_cons_cons]
  | case3 trace hshort =>
      obtain rfl | ⟨x, rfl⟩ := Lists.eq_nil_or_singleton hshort
      · rfl
      · rfl

theorem restrictedLoop_of_append {pre rest : Trace} {found next : Stmt}
    (habsent : Absent own pre) (hfound : found.id = own) :
    restrictedLoop own sec (pre ++ found :: next :: rest) =
      (pre ++ [sec.lock, found, sec.unlock, next], some rest) := by
  induction pre with
  | nil => rw [List.nil_append, restrictedLoop, if_pos hfound]; rfl
  | cons x pre ih =>
      have htail := ih fun y hy => habsent y (List.mem_cons_of_mem x hy)
      have hx : x.id ≠ own := habsent x List.mem_cons_self
      cases pre with
      | nil =>
          rw [List.nil_append] at htail
          rw [List.cons_append, List.nil_append, restrictedLoop, if_neg hx, htail]
          rfl
      | cons y pre =>
          rw [List.cons_append] at htail
          rw [List.cons_append, List.cons_append, restrictedLoop, if_neg hx, htail]
          rfl

theorem copyUntil_of_absent {trace : Trace} (habsent : Absent own trace.dropLast) :
    copyUntil own trace = (trace.dropLast, none) := by
  fun_induction copyUntil own trace with
  | case1 x y rest heq => exact absurd heq (habsent x (by simp))
  | case2 x y rest hne c ih =>
      have htail := ih fun z hz => habsent z (by simp [hz])
      simp only [c, htail, List.dropLast_cons_cons]
  | case3 trace hshort =>
      obtain rfl | ⟨x, rfl⟩ := Lists.eq_nil_or_singleton hshort
      · rfl
      · rfl

theorem copyUntil_of_append {pre rest : Trace} {found : Stmt} (habsent : Absent own pre)
    (hfound : found.id = own) (hrest : rest ≠ []) :
    copyUntil own (pre ++ found :: rest) = (pre, some (found :: rest)) := by
  obtain ⟨next, rest, rfl⟩ := List.exists_cons_of_ne_nil hrest
  induction pre with
  | nil => rw [List.nil_append, copyUntil, if_pos hfound]
  | cons x pre ih =>
      have htail := ih fun y hy => habsent y (List.mem_cons_of_mem x hy)
      have hx : x.id ≠ own := habsent x List.mem_cons_self
      cases pre with
      | nil =>
          rw [List.nil_append] at htail
          rw [List.cons_append, List.nil_append, copyUntil, if_neg hx, htail]
      | cons y pre =>
          rw [List.cons_append] at htail
          rw [List.cons_append, List.cons_append, copyUntil, if_neg hx, htail]

end Restricted

section Search

variable {own other : Id} {sec : LockSection} {candidates : List Id} {g : LockGlobals}

/-- The store is found behind any number of other statements. -/
theorem searchLoop_of_append (pre post stale : Trace) {found : Stmt} (habsent : Absent own pre)
    (hfound : found.id = own) (hstale : pre ++ found :: post <:+ stale) :
    ∃ stale', stale' <:+ stale ∧
      searchLoop own other sec candidates g stale (pre ++ found :: post) =
        some (((insideLoop own other sec candidates found { g with numLocks := g.numLocks + 1 }
          post).finish sec stale').after (pre ++ [sec.lock, found])) := by
  match pre with
  | [] =>
      refine ⟨stale, List.suffix_refl stale, ?_⟩
      cases post with
      | nil => rw [List.nil_append, searchLoop, if_pos hfound]; rfl
      | cons y post => rw [List.nil_append, searchLoop, if_pos hfound]; rfl
  | [x] =>
      have hx : x.id ≠ own := habsent x List.mem_cons_self
      refine ⟨found :: post, (List.suffix_cons x _).trans hstale, ?_⟩
      rw [List.cons_append, List.nil_append, searchLoop, if_neg hx, if_pos hfound]
      rfl
  | x :: y :: pre =>
      have hx : x.id ≠ own := habsent x List.mem_cons_self
      have hy : y.id ≠ own := habsent y (by simp)
      have hsuffix : y :: (pre ++ found :: post) <:+ stale := (List.suffix_cons x _).trans hstale
      obtain ⟨stale', hstale', heq⟩ := searchLoop_of_append pre post
        (y :: (pre ++ found :: post)) (fun z hz => habsent z (by simp [hz])) hfound
        (List.suffix_cons y _)
      refine ⟨stale', hstale'.trans hsuffix, ?_⟩
      rw [List.cons_append, List.cons_append, searchLoop, if_neg hx, if_neg hy, heq]
      rfl

/-- Without the store the loop copies two statements a round and fails on an odd number of them. -/
theorem searchLoop_of_absent (trace stale : Trace) (habsent : Absent own trace)
    (hstale : trace <:+ stale) :
    (¬Even trace.length ∧ searchLoop own other sec candidates g stale trace = none) ∨
      (Even trace.length ∧ ∃ stale', stale' <:+ stale ∧ ∃ g',
        searchLoop own other sec candidates g stale trace =
          some ⟨trace ++ [sec.fence, sec.unlock], stale', g'⟩ ∧ g'.r = g.r) := by
  match trace with
  | [] => exact .inr ⟨by simp, stale, List.suffix_refl stale, _, rfl, rfl⟩
  | [x] =>
      have hx : x.id ≠ own := habsent x List.mem_cons_self
      exact .inl ⟨by simp, by rw [searchLoop, if_neg hx]⟩
  | x :: y :: rest =>
      have hx : x.id ≠ own := habsent x List.mem_cons_self
      have hy : y.id ≠ own := habsent y (by simp)
      have hsuffix : y :: rest <:+ stale := (List.suffix_cons x _).trans hstale
      have hparity : Even (x :: y :: rest).length ↔ Even rest.length := by
        simp only [List.length_cons, Nat.even_add_one, not_not]
      rw [hparity, searchLoop, if_neg hx, if_neg hy]
      rcases searchLoop_of_absent rest (y :: rest)
        (fun z hz => habsent z (by simp [hz])) (List.suffix_cons y rest) with
        ⟨hodd, heq⟩ | ⟨heven, stale', hstale', g', heq, hr⟩
      · exact .inl ⟨hodd, by rw [heq]; rfl⟩
      · exact .inr ⟨heven, stale', hstale'.trans hsuffix, g', by rw [heq]; rfl, hr⟩

end Search

/-! ### The phases -/

theorem exists_first_of_mem {trace : Trace} {p : Stmt → Prop} {x : Stmt} (hmem : x ∈ trace)
    (hx : p x) : ∃ y before behind, trace = before ++ y :: behind ∧ p y ∧ ∀ z ∈ before, ¬p z := by
  classical
  induction trace with
  | nil => cases hmem
  | cons head rest ih =>
      by_cases hhead : p head
      · exact ⟨head, [], rest, rfl, hhead, by simp⟩
      · rcases List.mem_cons.mp hmem with rfl | hmem
        · exact absurd hx hhead
        · obtain ⟨y, before, behind, rfl, hy, hbefore⟩ := ih hmem
          exact ⟨y, head :: before, behind, rfl, hy, List.forall_mem_cons.mpr ⟨hhead, hbefore⟩⟩

section Phases

variable {g : LockGlobals} {first second : Stmt} {pre post : Trace} {writes reads : List Id}

theorem dropLast_append_drop (trace : Trace) :
    trace.dropLast ++ trace.drop (trace.length - 1) = trace := by
  rw [List.dropLast_eq_take, List.take_append_drop]

theorem SectionEnd.append {other : Id} {found : Stmt} {sec : LockSection} {post out resume : Trace}
    (h : SectionEnd other found sec post out resume) (tail : Trace) :
    SectionEnd other found sec (post ++ tail) out (resume ++ tail) := by
  obtain ⟨body, x, rest, rfl, hbody, hend⟩ := h
  refine ⟨body, x, rest ++ tail, by simp, hbody, ?_⟩
  rcases hend with ⟨hx, hout, rfl⟩ | ⟨hx, hout, rfl⟩
  · exact .inl ⟨hx, hout, rfl⟩
  · exact .inr ⟨hx, hout, rfl⟩

/-- The section of the first store ends before the last statement of the trace. -/
def EndsBeforeLast (other : Id) (found : Stmt) (sec : LockSection) (post out resume : Trace) :
    Prop :=
  ∃ init last resume', post = init ++ [last] ∧ SectionEnd other found sec init out resume' ∧
    resume = resume' ++ [last]

/-- The first store as a writer. When nothing closes its section before the last statement, the
section is closed there and the next phase starts from the beginning of the trace. -/
theorem lockFirst_cases {other : Id} {p : Phase} {sec : LockSection}
    (hpre : Absent first.id pre) (hpost : Absent first.id post) (hsec : sec = .new first g.r)
    (hp : lockFirst g (pre ++ first :: post) first other writes reads = p) :
    p.globals.r = g.r + 1 ∧
      ((∃ out, EndsBeforeLast other first sec post out p.resume ∧
          p.out = pre ++ sec.lock :: first :: out) ∨
        ((∀ y ∈ post.dropLast, closing other first y = none) ∧ p.resume = pre ++ first :: post ∧
          ((post = [] ∧ p.out = pre ++ [sec.fence, sec.unlock]) ∨
            (post ≠ [] ∧
              p.out =
                pre ++ sec.lock :: first :: (post.dropLast ++ [sec.fence, sec.unlock]))))) := by
  subst hsec hp
  rcases List.eq_nil_or_concat post with rfl | ⟨init, last, rfl⟩
  · have hdrop : (pre ++ [first]).dropLast = pre := by simp
    simp only [lockFirst, hdrop, lockLoop_of_absent hpre, Copied.finish, Option.map_none]
    exact ⟨trivial, .inr ⟨by simp, trivial, .inl ⟨trivial, trivial⟩⟩⟩
  · rw [List.concat_eq_append] at hpost ⊢
    have hinit : Absent first.id init := fun x hx => hpost x (List.mem_append_left _ hx)
    have hdrop : (pre ++ first :: (init ++ [last])).dropLast = pre ++ first :: init := by
      rw [← List.cons_append, ← List.append_assoc, List.dropLast_concat]
    have hlast : (pre ++ first :: (init ++ [last])).drop
        ((pre ++ first :: (init ++ [last])).length - 1) = [last] := by
      have hwhole := dropLast_append_drop (pre ++ first :: (init ++ [last]))
      rw [hdrop] at hwhole
      have hsplit : pre ++ first :: (init ++ [last]) = (pre ++ first :: init) ++ [last] := by simp
      exact List.append_cancel_left (hwhole.trans hsplit)
    simp only [lockFirst, hdrop, hlast, lockLoop_of_append hpre rfl, Copied.after,
      List.dropLast_concat]
    generalize hg : ({ g with
      r := g.r + 1
      numLocks := g.numLocks + 1
      lockedWrites := g.lockedWrites ++ [first.id]
      lockedReads := g.lockedReads ++ [first.id] } : LockGlobals) = g'
    have hr : g'.r = g.r + 1 := by rw [← hg]
    generalize hc : insideLoop first.id other (.new first g.r) (writes ++ reads) first g' init = c
    have hcr : c.globals.r = g.r + 1 := by rw [← hc, insideLoop_r, hr]
    have hcases := @insideLoop_cases first.id other (.new first g.r) (writes ++ reads) first g' init
      hinit
    rw [hc] at hcases
    rcases hcases with ⟨hout, hresume, hall⟩ | ⟨resume, hresume, hend⟩
    · simp only [Copied.finish, hresume, Option.map_none, hout]
      exact ⟨hcr, .inr ⟨hall, trivial, .inr ⟨by simp, by simp⟩⟩⟩
    · simp only [Copied.finish, hresume, Option.map_some]
      exact ⟨hcr, .inl ⟨c.out, ⟨init, last, resume, rfl, hend, rfl⟩, by simp⟩⟩

/-- The first store as no writer: the phase copies up to the second store, or up to the last
statement, in which case the index stays two behind the first store. -/
theorem restrictFirst_cases {other : Id} {p : Phase} {sec : LockSection}
    (hpre : Absent first.id pre) (hsec : sec = .new first g.r)
    (hp : restrictFirst g (pre ++ first :: post) first other = p) :
    p.globals.r = g.r + 1 ∧
      ((post = [] ∧ p.out = pre ∧ p.resume = pre ++ [first]) ∨
        ∃ y rest, post = y :: rest ∧
          ((∃ before found behind, rest = before ++ found :: behind ∧ behind ≠ [] ∧
              found.id = other ∧ Absent other before ∧
              p.out = pre ++ sec.lock :: first :: sec.unlock :: y :: before ∧
              p.resume = found :: behind) ∨
            (Absent other rest.dropLast ∧
              p.out = pre ++ sec.lock :: first :: sec.unlock :: y :: rest.dropLast ∧
              p.resume = rest))) := by
  subst hsec hp
  cases post with
  | nil =>
      have habsent : Absent first.id (pre ++ [first]).dropLast := by simpa using hpre
      simp only [restrictFirst, restrictedLoop_of_absent habsent]
      exact ⟨trivial, .inl ⟨trivial, by simp, trivial⟩⟩
  | cons y rest =>
      simp only [restrictFirst, restrictedLoop_of_append hpre rfl]
      by_cases hfound : ∃ found ∈ rest.dropLast, found.id = other
      · obtain ⟨before, found, behind, hsplit, hid, habsent⟩ :
            ∃ before found behind, rest.dropLast = before ++ found :: behind ∧ found.id = other ∧
              Absent other before := by
          obtain ⟨found, hmem, hid⟩ := hfound
          obtain ⟨x, before, behind, heq, hx, hbefore⟩ :=
            exists_first_of_mem (p := fun z => z.id = other) hmem hid
          exact ⟨before, x, behind, heq, hx, hbefore⟩
        obtain ⟨last, hrest⟩ : ∃ last, rest = before ++ found :: (behind ++ [last]) := by
          have hne : rest ≠ [] := by
            rintro rfl
            simp at hsplit
          have hwhole := (List.dropLast_append_getLast hne).symm
          rw [hsplit] at hwhole
          exact ⟨rest.getLast hne, by simpa using hwhole⟩
        subst hrest
        rw [copyUntil_of_append habsent hid (by simp)]
        exact ⟨rfl, .inr ⟨y, _, rfl, .inl ⟨before, found, behind ++ [last], rfl, by simp, hid,
          habsent, by simp, rfl⟩⟩⟩
      · have habsent : Absent other rest.dropLast := fun x hx hid => hfound ⟨x, hx, hid⟩
        rw [copyUntil_of_absent habsent]
        exact ⟨rfl, .inr ⟨y, rest, rfl, .inr ⟨habsent, by simp, rfl⟩⟩⟩

/-- The second store as a writer, when it is among the statements that are left. -/
theorem lockSecond_cases {other : Id} {sec : LockSection} (hpre : Absent second.id pre)
    (hpost : Absent second.id post) (hsec : sec = .new second g.r) :
    ∃ q, lockSecond g (pre ++ second :: post) second other writes = some q ∧
      q.globals.r = g.r + 1 ∧
      ((∃ out, SectionEnd other second sec post out q.resume ∧
          q.out = pre ++ sec.lock :: second :: out) ∨
        ((∀ y ∈ post, closing other second y = none) ∧ q.resume <:+ pre ++ second :: post ∧
          q.out = pre ++ sec.lock :: second :: (post ++ [sec.fence, sec.unlock]))) := by
  subst hsec
  obtain ⟨stale, hstale, heq⟩ := @searchLoop_of_append second.id other (.new second g.r) writes
    { g with
      r := g.r + 1
      lockedWrites := g.lockedWrites ++ [second.id]
      lockedReads := g.lockedReads ++ [second.id] } pre post (pre ++ second :: post) second hpre rfl
      (List.suffix_refl _)
  refine ⟨_, heq, ?_⟩
  generalize hg : ({ g with
      r := g.r + 1
      numLocks := g.numLocks + 1
      lockedWrites := g.lockedWrites ++ [second.id]
      lockedReads := g.lockedReads ++ [second.id] } : LockGlobals) = g'
  have hr : g'.r = g.r + 1 := by rw [← hg]
  have hcases := @insideLoop_cases second.id other (.new second g.r) writes second g' post hpost
  generalize hc : insideLoop second.id other (.new second g.r) writes second g' post = c at hcases
  have hcr : c.globals.r = g.r + 1 := by rw [← hc, insideLoop_r, hr]
  rcases hcases with ⟨hout, hresume, hall⟩ | ⟨resume, hresume, hend⟩
  · simp only [Phase.after, Copied.finish, hresume, hout]
    exact ⟨hcr, .inr ⟨hall, hstale, by simp⟩⟩
  · simp only [Phase.after, Copied.finish, hresume]
    exact ⟨hcr, .inl ⟨c.out, hend, by simp⟩⟩

/-- The second store as a writer, when it has been copied already. -/
theorem lockSecond_of_absent {other : Id} {resume : Trace} {sec : LockSection}
    (habsent : Absent second.id resume) (hsec : sec = .new second g.r) :
    (¬Even resume.length ∧ lockSecond g resume second other writes = none) ∨
      (Even resume.length ∧ ∃ q, lockSecond g resume second other writes = some q ∧
        q.globals.r = g.r + 1 ∧ q.resume <:+ resume ∧
        q.out = resume ++ [sec.fence, sec.unlock]) := by
  subst hsec
  rcases @searchLoop_of_absent second.id other (.new second g.r) writes
    { g with
      r := g.r + 1
      lockedWrites := g.lockedWrites ++ [second.id]
      lockedReads := g.lockedReads ++ [second.id] } resume resume habsent (List.suffix_refl _) with
    ⟨hodd, heq⟩ | ⟨heven, stale, hstale, g', heq, hr⟩
  · exact .inl ⟨hodd, heq⟩
  · exact .inr ⟨heven, _, heq, hr, hstale, rfl⟩

/-- The second store as no writer. It is not found when it comes last. -/
theorem restrictSecond_cases {resume : Trace} {sec : LockSection} {q : Phase}
    (hsec : sec = .new second g.r) (hq : restrictSecond g resume second = q) :
    q.globals.r = g.r + 1 ∧
      ((∃ before found next, resume = before ++ found :: next :: q.resume ∧ found.id = second.id ∧
          Absent second.id before ∧ q.out = before ++ [sec.lock, found, sec.unlock, next]) ∨
        (Absent second.id resume.dropLast ∧ q.out = resume.dropLast ∧ q.resume = resume)) := by
  subst hsec hq
  by_cases hfound : ∃ found ∈ resume.dropLast, found.id = second.id
  · obtain ⟨found, hmem, hid⟩ := hfound
    obtain ⟨found, before, behind, hsplit, hid, habsent⟩ :=
      exists_first_of_mem (p := fun z => z.id = second.id) hmem hid
    have hne : resume ≠ [] := by
      rintro rfl
      simp at hsplit
    obtain ⟨next, rest, hresume⟩ : ∃ next rest, resume = before ++ found :: next :: rest := by
      have hwhole := (List.dropLast_append_getLast hne).symm
      rw [hsplit] at hwhole
      cases behind with
      | nil => exact ⟨resume.getLast hne, [], by simpa using hwhole⟩
      | cons next behind => exact ⟨next, behind ++ [resume.getLast hne], by simpa using hwhole⟩
    subst hresume
    simp only [restrictSecond, restrictedLoop_of_append habsent hid]
    exact ⟨trivial, .inl ⟨before, found, next, rfl, hid, habsent, rfl⟩⟩
  · have habsent : Absent second.id resume.dropLast := fun x hx hid => hfound ⟨x, hx, hid⟩
    simp only [restrictSecond, restrictedLoop_of_absent habsent]
    exact ⟨trivial, .inr ⟨habsent, trivial, trivial⟩⟩

end Phases

end PMBugRepair
