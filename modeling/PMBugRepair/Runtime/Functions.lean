import PMBugRepair.Runtime.Deps

/-!
# The functions in a log

`__pmc_funcBegin` and `__pmc_funcEnd` print a number with the name of the function. It counts how
often the function was left so far, by any thread, so it tells the activations of a function apart
by their ends.
-/

namespace PMBugRepair

open Pm (log after)
open Strings (Text lit)

/-- The function that a line names. -/
def Entry.function : Entry → Option Text
  | .funcBegin func _ => some func
  | .funcEnd func _ => some func
  | _ => none

/-- The function that is left there. -/
def Entry.leaves : Entry → Option Text
  | .funcEnd func _ => some func
  | _ => none

/-- How often the log shows the end of the function. -/
def ends (name : Text) (log : List (BitVec 64 × Entry)) : Nat :=
  log.countP fun line => line.2.leaves = some name

/-- The log shows a begin of the function. -/
def Opened (name : Text) (log : List (BitVec 64 × Entry)) : Prop :=
  ∃ tid k, (tid, Entry.funcBegin name k) ∈ log

/-- No function is left that was never entered. -/
def EntersFirst (log : List (BitVec 64 × Entry)) : Prop :=
  ∀ before tid name k after, log = before ++ (tid, .funcEnd name k) :: after → Opened name before

/-- Every name has one address, the string that the pass has made for it. -/
structure NamedBy (naming : BitVec 64 → Text) (calls : List (BitVec 64 × PmCall)) : Prop where
  injective : Function.Injective naming
  funcBegin : ∀ tid func name, (tid, .funcBegin func name) ∈ calls → name = naming func
  funcEnd : ∀ tid func name, (tid, .funcEnd func name) ∈ calls → name = naming func

section Lines

variable {name name' : Text} {lines more : List (BitVec 64 × Entry)} {tid : BitVec 64}
  {k : BitVec 32}

theorem ends_append : ends name (lines ++ more) = ends name lines + ends name more :=
  List.countP_append

theorem opened_append : Opened name (lines ++ more) ↔ Opened name lines ∨ Opened name more := by
  simp only [Opened, List.mem_append, exists_or]

theorem ends_eq_zero (h : ∀ line ∈ more, line.2.leaves ≠ some name) : ends name more = 0 :=
  List.countP_eq_zero.mpr fun line hline => by simpa using h line hline

theorem ends_of_function_ne (h : ∀ line ∈ more, line.2.function ≠ some name) :
    ends name more = 0 := by
  refine ends_eq_zero fun line hline hleaves => h line hline ?_
  obtain ⟨tid, entry⟩ := line
  cases entry with
  | funcEnd func k => exact hleaves
  | _ => cases hleaves

theorem not_opened_of_function_ne (h : ∀ line ∈ more, line.2.function ≠ some name) :
    ¬Opened name more := by
  rintro ⟨tid, k, hmem⟩
  exact h _ hmem rfl

theorem EntersFirst.left (h : EntersFirst (lines ++ more)) : EntersFirst lines := by
  rintro before tid name k after rfl
  exact h before tid name k (after ++ more) (by simp)

theorem EntersFirst.ends_eq_zero (h : EntersFirst lines) (hopened : ¬Opened name lines) :
    ends name lines = 0 := by
  refine PMBugRepair.ends_eq_zero fun line hline hleaves => hopened ?_
  obtain ⟨before, after, rfl⟩ := List.append_of_mem hline
  obtain ⟨tid, entry⟩ := line
  cases entry with
  | funcEnd func k =>
      obtain rfl := Option.some.inj hleaves
      exact opened_append.mpr (.inl (h before tid func k after rfl))
  | _ => cases hleaves

end Lines

/-! ### What one call does to the numbers -/

/-- The call neither reads nor changes them. -/
structure KeepsStack (pm : Pm) (call : PmCall) : Prop where
  not_init : call ≠ .call .pmcInitialize
  funcStack : (pm.step call).1.funcStack = pm.funcStack
  out : ∀ entry ∈ (pm.step call).2, entry.function = none

theorem Pm.stack_cases (pm : Pm) (call : PmCall) :
    call = .call .pmcInitialize ∨ (∃ func name, call = .funcBegin func name) ∨
      (∃ func name, call = .funcEnd func name) ∨ KeepsStack pm call := by
  have hprints : ∀ {entry : Entry}, entry.function = none →
      ∀ e ∈ (pm.prints entry).2, e.function = none := by
    intro entry hentry e he
    unfold prints at he
    split at he
    · rw [List.mem_singleton.mp he]
      exact hentry
    · cases he
  have hevents : ∀ {events : List Event}, ∀ e ∈ events.map Entry.event, e.function = none := by
    intro events e he
    obtain ⟨event, -, rfl⟩ := List.mem_map.mp he
    rfl
  cases call with
  | call call =>
      cases call with
      | pmcInitialize => exact .inl rfl
      | _ => exact .inr (.inr (.inr ⟨by simp, rfl, hevents⟩))
  | funcBegin func name => exact .inr (.inl ⟨func, name, rfl⟩)
  | funcEnd func name => exact .inr (.inr (.inl ⟨func, name, rfl⟩))
  | pmemobjCreate | pmemCreate | pmemobjOpen =>
      exact .inr (.inr (.inr ⟨by simp, rfl, hevents⟩))
  | pobjAlloc | dummyBegin | dummyEnd =>
      exact .inr (.inr (.inr ⟨by simp, rfl, by simp [step]⟩))
  | flush | fence | transactionBegins | transactionCommits | simuSfence | simuFlushOpt
  | simuFlush | simuTXBegin | simuTXEnd | simuTXAdd =>
      exact .inr (.inr (.inr ⟨by simp, rfl, hprints rfl⟩))

/-! ### What `FUNC_STACK` holds -/

/-- `FUNC_STACK` against the lines so far. -/
structure Numbers (naming : BitVec 64 → Text) (pm : Pm) (lines : List (BitVec 64 × Entry)) :
    Prop where
  opened : ∀ func, Opened (naming func) lines →
    pm.funcStack.find? func.toNat = some (.ofNat 32 (ends (naming func) lines + 1))
  unopened : ∀ func, ¬Opened (naming func) lines → pm.funcStack.find? func.toNat = none

namespace Numbers

variable {naming : BitVec 64 → Text} {pm : Pm} {lines more : List (BitVec 64 × Entry)}

theorem keeps {pm' : Pm} (h : Numbers naming pm lines) (hstack : pm'.funcStack = pm.funcStack)
    (hmore : ∀ line ∈ more, line.2.function = none) : Numbers naming pm' (lines ++ more) := by
  have hne : ∀ name, ∀ line ∈ more, line.2.function ≠ some name := fun name line hline => by
    simp [hmore line hline]
  refine ⟨fun func hopened => ?_, fun func hopened => ?_⟩
  · rw [hstack, ends_append, ends_of_function_ne (hne _), Nat.add_zero]
    exact h.opened func ((opened_append.mp hopened).resolve_right
      (not_opened_of_function_ne (hne _)))
  · rw [hstack]
    exact h.unopened func fun hold => hopened (opened_append.mpr (.inl hold))

/-- What `FUNC_STACK[func]` is for a call of the function. -/
theorem getD (h : Numbers naming pm lines) (hfirst : EntersFirst lines) (func : BitVec 64) :
    (pm.funcStack.find? func.toNat).getD 1 = .ofNat 32 (ends (naming func) lines + 1) := by
  by_cases hopened : Opened (naming func) lines
  · rw [h.opened func hopened, Option.getD_some]
  · rw [h.unopened func hopened, hfirst.ends_eq_zero hopened]
    rfl

/-- A line of one function leaves the numbers of the others alone. -/
theorem line {pm' : Pm} {x : BitVec 64 × Entry} {func : BitVec 64} (h : Numbers naming pm lines)
    (hinj : Function.Injective naming) (hx : x.2.function = some (naming func))
    (hother : ∀ func' ≠ func,
      pm'.funcStack.find? func'.toNat = pm.funcStack.find? func'.toNat)
    (hopened : Opened (naming func) (lines ++ [x]))
    (hown : pm'.funcStack.find? func.toNat =
      some (.ofNat 32 (ends (naming func) (lines ++ [x]) + 1))) :
    Numbers naming pm' (lines ++ [x]) := by
  have hne : ∀ func' ≠ func, ∀ y ∈ [x], y.2.function ≠ some (naming func') := by
    intro func' hfunc y hy heq
    rw [List.mem_singleton.mp hy, hx] at heq
    exact hfunc (hinj (Option.some.inj heq)).symm
  constructor
  · intro func' hopened'
    by_cases hfunc : func' = func
    · rw [hfunc]
      exact hown
    · rw [hother func' hfunc, ends_append, ends_of_function_ne (hne func' hfunc), Nat.add_zero]
      exact h.opened func' ((opened_append.mp hopened').resolve_right
        (not_opened_of_function_ne (hne func' hfunc)))
  · intro func' hopened'
    by_cases hfunc : func' = func
    · rw [hfunc] at hopened'
      exact absurd hopened hopened'
    · rw [hother func' hfunc]
      exact h.unopened func' fun hold => hopened' (opened_append.mpr (.inl hold))

theorem toNat_ne {func func' : BitVec 64} (h : func' ≠ func) : func'.toNat ≠ func.toNat :=
  fun heq => h (BitVec.eq_of_toNat_eq heq)

theorem funcBegin (h : Numbers naming pm lines) (hinj : Function.Injective naming)
    (hfirst : EntersFirst lines) (hflag : pm.rt.myFlag = true) (tid func : BitVec 64) :
    (pm.pmcFuncBegin func (naming func)).2 =
        [.funcBegin (naming func) (.ofNat 32 (ends (naming func) lines + 1))] ∧
      Numbers naming (pm.pmcFuncBegin func (naming func)).1
        (lines ++ [(tid, .funcBegin (naming func) (.ofNat 32 (ends (naming func) lines + 1)))]) := by
  have hvalue := h.getD hfirst func
  have hends : ∀ k, ends (naming func) (lines ++ [(tid, .funcBegin (naming func) k)]) =
      ends (naming func) lines := by
    intro k
    rw [ends_append]
    simp [ends, Entry.leaves]
  have hopened : ∀ k, Opened (naming func) (lines ++ [(tid, .funcBegin (naming func) k)]) :=
    fun k => ⟨tid, k, by simp⟩
  rw [Pm.pmcFuncBegin, if_pos hflag]
  cases hfind : pm.funcStack.find? func.toNat with
  | none =>
      rw [hfind, Option.getD_none] at hvalue
      refine ⟨by simp [OrderedMap.find?_insert, ← hvalue], h.line hinj rfl (fun func' hne => ?_)
        (hopened _) ?_⟩
      · simp [OrderedMap.find?_insert, toNat_ne hne]
      · simp [OrderedMap.find?_insert, hends, ← hvalue]
  | some v =>
      rw [hfind, Option.getD_some] at hvalue
      refine ⟨by simp [hfind, hvalue], h.line hinj rfl (fun func' hne => by simp)
        (hopened _) ?_⟩
      simp [hfind, hends, hvalue]

theorem funcEnd (h : Numbers naming pm lines) (hinj : Function.Injective naming)
    {func : BitVec 64} (hopened : Opened (naming func) lines) (hflag : pm.rt.myFlag = true)
    (tid : BitVec 64) :
    (pm.pmcFuncEnd func (naming func)).2 =
        [.funcEnd (naming func) (.ofNat 32 (ends (naming func) lines + 1))] ∧
      Numbers naming (pm.pmcFuncEnd func (naming func)).1
        (lines ++ [(tid, .funcEnd (naming func) (.ofNat 32 (ends (naming func) lines + 1)))]) := by
  have hvalue := h.opened func hopened
  have hends : ∀ k, ends (naming func) (lines ++ [(tid, .funcEnd (naming func) k)]) =
      ends (naming func) lines + 1 := by
    intro k
    rw [ends_append]
    simp [ends, Entry.leaves]
  rw [Pm.pmcFuncEnd, if_pos hflag]
  refine ⟨by simp [hvalue], h.line hinj rfl (fun func' hne => ?_)
    (opened_append.mpr (.inl hopened)) ?_⟩
  · simp [OrderedMap.find?_insert, toNat_ne hne]
  · rw [hends, OrderedMap.find?_insert, if_pos rfl, hvalue, Option.getD_some]
    rw [BitVec.ofNat_add (ends (naming func) lines + 1) 1]
    rfl

end Numbers

/-! ### The whole log -/

section Log

variable {naming : BitVec 64 → Text} {calls later : List (BitVec 64 × PmCall)}

theorem NamedBy.left (h : NamedBy naming (calls ++ later)) : NamedBy naming calls where
  injective := h.injective
  funcBegin tid func name hmem := h.funcBegin tid func name (List.mem_append_left later hmem)
  funcEnd tid func name hmem := h.funcEnd tid func name (List.mem_append_left later hmem)

/-- Before the runtime is initialized it prints no functions. -/
theorem function_eq_none (h : (after calls).rt.myFlag = false) :
    ∀ line ∈ log calls, line.2.function = none := by
  induction calls using List.reverseRecOn with
  | nil => simp
  | append_singleton calls call ih =>
      obtain ⟨tid, call⟩ := call
      have hnot : ¬Begun (calls ++ [(tid, call)]) := fun hbegun => by
        rw [(records _).flag.mpr hbegun] at h
        cases h
      rw [begun_concat, not_or] at hnot
      have hflag : (after calls).rt.myFlag = false :=
        Bool.eq_false_iff.mpr fun hon => hnot.1 ((records calls).flag.mp hon)
      rw [Pm.log_concat]
      refine List.forall_mem_append.mpr ⟨ih hflag, fun line hline => ?_⟩
      obtain ⟨entry, hentry, rfl⟩ := List.mem_map.mp hline
      rcases (after calls).stack_cases call with rfl | ⟨func, name, rfl⟩ | ⟨func, name, rfl⟩ |
        hkeeps
      · exact absurd rfl hnot.2
      · simp [Pm.step, Pm.pmcFuncBegin, hflag] at hentry
      · simp [Pm.step, Pm.pmcFuncEnd, hflag] at hentry
      · exact hkeeps.out entry hentry

theorem numbers (hnamed : NamedBy naming calls) (hfirst : EntersFirst (log calls)) :
    Numbers naming (after calls) (log calls) := by
  induction calls using List.reverseRecOn with
  | nil => exact ⟨fun func hopened => by simp [Opened] at hopened, fun func _ => rfl⟩
  | append_singleton calls call ih =>
      obtain ⟨tid, call⟩ := call
      rw [Pm.log_concat] at hfirst ⊢
      rw [Pm.after_concat]
      have hnumbers := ih hnamed.left hfirst.left
      rcases (after calls).stack_cases call with rfl | ⟨func, name, rfl⟩ | ⟨func, name, rfl⟩ |
        hkeeps
      · change Numbers naming (after calls).pmcInitialize (log calls ++ [])
        rw [List.append_nil, Pm.pmcInitialize]
        split
        · rename_i hflag
          -- nothing was counted before
          have hnone := function_eq_none (by simpa using hflag)
          refine ⟨fun func hopened => ?_, fun func _ => rfl⟩
          exact absurd hopened (not_opened_of_function_ne fun line hline => by
            simp [hnone line hline])
        · exact hnumbers
      · obtain rfl := hnamed.funcBegin tid func name (by simp)
        cases hflag : (after calls).rt.myFlag with
        | true =>
            obtain ⟨hout, hnext⟩ := hnumbers.funcBegin hnamed.injective hfirst.left hflag tid func
            rw [Pm.step, hout]
            exact hnext
        | false => simpa [Pm.step, Pm.pmcFuncBegin, hflag] using hnumbers
      · obtain rfl := hnamed.funcEnd tid func name (by simp)
        cases hflag : (after calls).rt.myFlag with
        | true =>
            have hopened : Opened (naming func) (log calls) :=
              hfirst (log calls) tid (naming func)
                (((after calls).funcStack.find? func.toNat).getD 0) [] (by
                  simp [Pm.step, Pm.pmcFuncEnd, hflag])
            obtain ⟨hout, hnext⟩ := hnumbers.funcEnd hnamed.injective hopened hflag tid
            rw [Pm.step, hout]
            exact hnext
        | false => simpa [Pm.step, Pm.pmcFuncEnd, hflag] using hnumbers
      · refine hnumbers.keeps hkeeps.funcStack fun line hline => ?_
        obtain ⟨entry, hentry, rfl⟩ := List.mem_map.mp hline
        exact hkeeps.out entry hentry

/-- Every line of a function counts its ends. -/
theorem number_of_line (hnamed : NamedBy naming calls) (hfirst : EntersFirst (log calls))
    {before rest : List (BitVec 64 × Entry)} {tid : BitVec 64} {name : Text} {k : BitVec 32}
    {entry : Entry} (h : log calls = before ++ (tid, entry) :: rest)
    (hentry : entry = .funcBegin name k ∨ entry = .funcEnd name k) :
    k = .ofNat 32 (ends name before + 1) := by
  obtain ⟨prior, ⟨tid', call⟩, later, front, back, rfl, hturn, hbefore, -⟩ :=
    Machine.exists_step_of_run h
  change ((after prior).step call).2.map (tid', ·) = front ++ (tid, entry) :: back at hturn
  change before = log prior ++ front at hbefore
  obtain ⟨rest', hrest⟩ := log_prefix_append prior ((tid', call) :: later)
  have hprior : EntersFirst (log prior) := by
    rw [← hrest] at hfirst
    exact hfirst.left
  have hnumbers := numbers hnamed.left hprior
  have hline : ∀ line, ((after prior).step call).2 = [line] → entry = line ∧ before = log prior := by
    intro line hout
    rw [hout, List.map_singleton] at hturn
    rcases List.append_eq_singleton_iff.mp hturn.symm with ⟨rfl, heq⟩ | ⟨-, heq⟩
    · obtain ⟨-, rfl⟩ := Prod.mk.inj (List.cons.inj heq).1
      exact ⟨rfl, by rw [hbefore, List.append_nil]⟩
    · cases heq
  have hmem : entry ∈ ((after prior).step call).2 := by
    have hmap : (tid, entry) ∈ ((after prior).step call).2.map (tid', ·) := by
      rw [hturn]
      simp
    obtain ⟨entry', hentry', heq⟩ := List.mem_map.mp hmap
    rw [← (Prod.mk.inj heq).2]
    exact hentry'
  rcases (after prior).stack_cases call with rfl | ⟨func, name', rfl⟩ | ⟨func, name', rfl⟩ |
    hkeeps
  · cases hmem
  · obtain rfl := hnamed.funcBegin tid' func name' (by simp)
    cases hflag : (after prior).rt.myFlag with
    | true =>
        have hout := (hnumbers.funcBegin hnamed.injective hprior hflag tid' func).1
        obtain ⟨rfl, rfl⟩ := hline _ hout
        rcases hentry with hentry | hentry
        · obtain ⟨rfl, rfl⟩ := Entry.funcBegin.inj hentry
          rfl
        · cases hentry
    | false => simp [Pm.step, Pm.pmcFuncBegin, hflag] at hmem
  · obtain rfl := hnamed.funcEnd tid' func name' (by simp)
    cases hflag : (after prior).rt.myFlag with
    | true =>
        have hout : ((after prior).step (.funcEnd func (naming func))).2 =
            [.funcEnd (naming func) (((after prior).funcStack.find? func.toNat).getD 0)] := by
          simp [Pm.step, Pm.pmcFuncEnd, hflag]
        obtain ⟨rfl, rfl⟩ := hline _ hout
        rcases hentry with hentry | hentry
        · cases hentry
        · obtain ⟨rfl, rfl⟩ := Entry.funcEnd.inj hentry
          rw [hnumbers.opened func (hfirst _ _ _ _ _ h), Option.getD_some]
    | false => simp [Pm.step, Pm.pmcFuncEnd, hflag] at hmem
  · have hnone := hkeeps.out entry hmem
    rcases hentry with rfl | rfl <;> cases hnone

/-- **The numbers of a function in a log.** Where no function is left that was never entered, every
line of a function has one more than the number of its ends in front of it. So an end has the number
of all begins since the end before it, and two ends have different ones unless so many lie between
them that the number has gone round. -/
theorem log_numbers (hnamed : NamedBy naming calls) (hfirst : EntersFirst (log calls))
    (name : Text) :
    (∀ before tid entry k rest, log calls = before ++ (tid, entry) :: rest →
      entry = .funcBegin name k ∨ entry = .funcEnd name k →
      k = .ofNat 32 (ends name before + 1)) ∧
    (∀ before tid tid' k k' between rest,
      log calls = before ++ (tid, .funcBegin name k) :: (between ++
        (tid', .funcEnd name k') :: rest) → ends name between = 0 → k' = k) ∧
    ∀ before tid tid' k between rest,
      log calls = before ++ (tid, .funcEnd name k) :: (between ++
        (tid', .funcEnd name k) :: rest) → 2 ^ 32 ≤ ends name between + 1 := by
  have hsplit : ∀ {before between rest : List (BitVec 64 × Entry)} {x y : BitVec 64 × Entry},
      log calls = before ++ x :: (between ++ y :: rest) →
        log calls = (before ++ x :: between) ++ y :: rest := fun h => by rw [h]; simp
  refine ⟨fun before tid entry k rest h hentry => number_of_line hnamed hfirst h hentry, ?_, ?_⟩
  · intro before tid tid' k k' between rest h hbetween
    have hk := number_of_line hnamed hfirst h (.inl rfl)
    have hk' := number_of_line hnamed hfirst (hsplit h) (.inr rfl)
    have hends : ends name (before ++ (tid, .funcBegin name k) :: between) = ends name before := by
      rw [ends_append, ← List.singleton_append, ends_append, hbetween]
      simp [ends, Entry.leaves]
    rw [hk', hends, hk]
  · intro before tid tid' k between rest h
    have hk := number_of_line hnamed hfirst h (.inr rfl)
    have hk' := number_of_line hnamed hfirst (hsplit h) (.inr rfl)
    have hends : ends name (before ++ (tid, .funcEnd name k) :: between) =
        ends name before + (1 + ends name between) := by
      rw [ends_append, ← List.singleton_append, ends_append]
      simp [ends, Entry.leaves]
    have hsame := congrArg BitVec.toNat (hk.symm.trans hk')
    rw [hends, BitVec.toNat_ofNat, BitVec.toNat_ofNat] at hsame
    omega

/-- Two threads are in the same function at the same time. -/
def putCalls : List (BitVec 64 × PmCall) :=
  [(1, .call .pmcInitialize), (1, .funcBegin 0x10 (lit "put")), (2, .funcBegin 0x10 (lit "put")),
    (1, .funcEnd 0x10 (lit "put")), (2, .funcEnd 0x10 (lit "put"))]

theorem log_putCalls : log putCalls =
    [(1, .funcBegin (lit "put") 1), (2, .funcBegin (lit "put") 1), (1, .funcEnd (lit "put") 1),
      (2, .funcEnd (lit "put") 2)] := by
  with_unfolding_all decide

/-- The second thread to leave it finds that it was left once. -/
theorem log_numbers_putCalls :
    (2 : BitVec 32) = .ofNat 32 (ends (lit "put") ((log putCalls).take 3) + 1) := by
  have hnamed : NamedBy (fun func => lit "put" ++ List.replicate (func - 0x10).toNat '_')
      putCalls := by
    refine ⟨fun a b h => ?_, fun tid func name hmem => ?_, fun tid func name hmem => ?_⟩
    · have hlength := congrArg List.length h
      simp only [List.length_append, List.length_replicate, Nat.add_left_cancel_iff] at hlength
      bv_omega
    · obtain ⟨rfl, rfl⟩ : func = 0x10 ∧ name = lit "put" := by
        simp [putCalls] at hmem
        tauto
      simp
    · obtain ⟨rfl, rfl⟩ : func = 0x10 ∧ name = lit "put" := by
        simp [putCalls] at hmem
        tauto
      simp
  have hfirst : EntersFirst (log putCalls) := by
    rw [log_putCalls]
    intro before tid name k rest h
    have hmem : (tid, Entry.funcEnd name k) ∈ before ++ (tid, .funcEnd name k) :: rest := by simp
    rw [← h] at hmem
    obtain rfl : name = lit "put" := by
      simp at hmem
      tauto
    cases before with
    | nil => simp at h
    | cons x before =>
        obtain ⟨rfl, -⟩ := List.cons.inj h
        exact ⟨1, 1, List.mem_cons_self⟩
  exact (log_numbers hnamed hfirst (lit "put")).1 ((log putCalls).take 3) 2
    (.funcEnd (lit "put") 2) 2 [] (by rw [log_putCalls]; rfl) (.inr rfl)

end Log

end PMBugRepair
