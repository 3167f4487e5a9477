import PMBugRepair.Containers.Lists
import PMBugRepair.Runtime.Program

/-!
# The dependences in a log

`__pmc_depAdd` tells the runtime that one instruction depends on another. When an access of the
first is printed, a `DEP` line follows for every such source whose own access the log shows already.
So a log explains itself: the lines behind an access are determined by what was registered and by
the log in front of it.
-/

namespace PMBugRepair

open Pm (log after)

/-- One of the calls has initialized the runtime. -/
def Begun (calls : List (BitVec 64 × PmCall)) : Prop :=
  ∃ tid, (tid, PmCall.call .pmcInitialize) ∈ calls

/-- The dependence was registered, and the runtime was initialized by then. -/
def Added (calls : List (BitVec 64 × PmCall)) (src dest : BitVec 32) : Prop :=
  ∃ prior tid later, calls = prior ++ (tid, .call (.depAdd src dest)) :: later ∧ Begun prior

section Concat

variable {calls : List (BitVec 64 × PmCall)} {call : BitVec 64 × PmCall} {src dest : BitVec 32}

theorem begun_concat :
    Begun (calls ++ [call]) ↔ Begun calls ∨ call.2 = .call .pmcInitialize := by
  simp only [Begun, List.mem_append, List.mem_singleton]
  constructor
  · rintro ⟨tid, hmem | rfl⟩
    · exact .inl ⟨tid, hmem⟩
    · exact .inr rfl
  · rintro (⟨tid, hmem⟩ | hcall)
    · exact ⟨tid, .inl hmem⟩
    · exact ⟨call.1, .inr (by rw [← hcall])⟩

theorem added_concat :
    Added (calls ++ [call]) src dest ↔
      Added calls src dest ∨ (call.2 = .call (.depAdd src dest) ∧ Begun calls) := by
  constructor
  · rintro ⟨prior, tid, later, heq, hbegun⟩
    rcases Lists.concat_eq_append_cons.mp heq with ⟨-, rfl, rfl⟩ | ⟨later, -, rfl⟩
    · exact .inr ⟨rfl, hbegun⟩
    · exact .inl ⟨prior, tid, later, rfl, hbegun⟩
  · rintro (⟨prior, tid, later, rfl, hbegun⟩ | ⟨hcall, hbegun⟩)
    · exact ⟨prior, tid, later ++ [call], by simp, hbegun⟩
    · exact ⟨calls, call.1, [], by rw [← hcall], hbegun⟩

end Concat

/-! ### What one call does to the dependences -/

/-- The call neither reads nor changes them. -/
structure KeepsDeps (pm : Pm) (call : PmCall) : Prop where
  not_init : call ≠ .call .pmcInitialize
  not_depAdd : ∀ src dest, call ≠ .call (.depAdd src dest)
  deps : (pm.step call).1.rt.deps = pm.rt.deps
  traceIds : (pm.step call).1.rt.traceIds = pm.rt.traceIds
  myFlag : (pm.step call).1.rt.myFlag = pm.rt.myFlag
  out : ∀ entry ∈ (pm.step call).2, entry.access = none ∧ entry.isDep = false

/-- The state and the lines of an access. -/
def Pm.accessStep (pm : Pm) (line : Event) (addr : BitVec 64) (size id : BitVec 32) :
    Pm × List Entry :=
  if pm.rt.myFlag then
    ({ pm with rt :=
        if pm.rt.ranges.entries.any (Runtime.inRange addr size) then pm.rt.trace id else pm.rt },
      ((List.replicate (pm.rt.ranges.entries.countP (Runtime.inRange addr size))
        (pm.rt.block line id)).flatten).map .event)
  else (pm, [])

theorem Pm.step_cases (pm : Pm) (call : PmCall) :
    (call = .call .pmcInitialize ∧ pm.step call = (pm.pmcInitialize, [])) ∨
    (∃ src dest, call = .call (.depAdd src dest) ∧
      pm.step call = ({ pm with rt := pm.rt.pmcDepAdd src dest }, [])) ∨
    (∃ line addr size id, line.access = some id ∧ (∀ src dest, call ≠ .call (.depAdd src dest)) ∧
      call ≠ .call .pmcInitialize ∧ pm.step call = pm.accessStep line addr size id) ∨
    KeepsDeps pm call := by
  have hregister : ∀ pop size : BitVec 64, (pm.registerPool pop size).1.rt.deps = pm.rt.deps ∧
      (pm.registerPool pop size).1.rt.traceIds = pm.rt.traceIds ∧
      (pm.registerPool pop size).1.rt.myFlag = pm.rt.myFlag ∧
      ∀ entry ∈ (pm.registerPool pop size).2, entry.access = none ∧ entry.isDep = false := by
    intro pop size
    refine ⟨rfl, rfl, rfl, ?_⟩
    simp [registerPool, Runtime.register, Entry.access, Event.access, Entry.isDep]
  have hprints : ∀ {entry : Entry}, entry.access = none → entry.isDep = false →
      ∀ e ∈ (pm.prints entry).2, e.access = none ∧ e.isDep = false := by
    intro entry haccess hdep e he
    unfold prints at he
    split at he
    · rw [List.mem_singleton.mp he]
      exact ⟨haccess, hdep⟩
    · cases he
  cases call with
  | call call =>
      cases call with
      | pmcInitialize => exact .inl ⟨rfl, rfl⟩
      | depAdd src dest => exact .inr (.inl ⟨src, dest, rfl, rfl⟩)
      | printStoreAddr addr size id place =>
          refine .inr (.inr (.inl ⟨.store addr size id place, addr, size, id, rfl, by simp, by simp,
            ?_⟩))
          simp only [step, Runtime.step, Runtime.pmcPrintStoreAddr, accessStep,
            Runtime.accessLoop_eq]
          split <;> rfl
      | printLoadAddr addr size id place =>
          refine .inr (.inr (.inl ⟨.load addr size id place, addr, size, id, rfl, by simp, by simp,
            ?_⟩))
          simp only [step, Runtime.step, Runtime.pmcPrintLoadAddr, accessStep,
            Runtime.accessLoop_eq]
          split <;> rfl
      | malloc ptr size =>
          refine .inr (.inr (.inr ⟨by simp, by simp, ?_, ?_, ?_, ?_⟩)) <;>
            simp only [step, Runtime.step, Runtime.pmcMalloc, Runtime.register] <;> split <;>
            simp [Entry.access, Event.access, Entry.isDep]
      | calloc ptr blocks size =>
          refine .inr (.inr (.inr ⟨by simp, by simp, ?_, ?_, ?_, ?_⟩)) <;>
            simp only [step, Runtime.step, Runtime.pmcCalloc, Runtime.register] <;> split <;>
            simp [Entry.access, Event.access, Entry.isDep]
      | pmemMapFile pslabPool mappedLenp mappedLen =>
          exact .inr (.inr (.inr ⟨by simp, by simp, rfl, rfl, rfl, by
            simp [step, Runtime.step, Runtime.pmcWrapperPmemMapFile, Runtime.register,
              Entry.access, Event.access, Entry.isDep]⟩))
      | free block =>
          refine .inr (.inr (.inr ⟨by simp, by simp, ?_, ?_, ?_, ?_⟩)) <;>
            simp only [step, Runtime.step, Runtime.pmcFree] <;> split <;>
            simp [Entry.access, Event.access, Entry.isDep]
  | pmemobjCreate pop size | pmemCreate pop size | pmemobjOpen pop size =>
      obtain ⟨hdeps, hids, hflag, hout⟩ := hregister pop size
      exact .inr (.inr (.inr ⟨by simp, by simp, hdeps, hids, hflag, hout⟩))
  | pobjAlloc | dummyBegin | dummyEnd =>
      exact .inr (.inr (.inr ⟨by simp, by simp, rfl, rfl, rfl, by simp [step]⟩))
  | funcBegin func name =>
      refine .inr (.inr (.inr ⟨by simp, by simp, ?_, ?_, ?_, ?_⟩)) <;>
        simp only [step, pmcFuncBegin] <;> split <;> simp [Entry.access, Entry.isDep]
  | funcEnd func name =>
      refine .inr (.inr (.inr ⟨by simp, by simp, ?_, ?_, ?_, ?_⟩)) <;>
        simp only [step, pmcFuncEnd] <;> split <;> simp [Entry.access, Entry.isDep]
  | flush | fence | transactionBegins | transactionCommits | simuSfence | simuFlushOpt
  | simuFlush | simuTXBegin | simuTXEnd | simuTXAdd =>
      exact .inr (.inr (.inr ⟨by simp, by simp, rfl, rfl, rfl, hprints rfl rfl⟩))

/-! ### What the maps hold -/

/-- `DEP` and `TRACE_IDS` against the calls and the lines so far. -/
structure Records (calls : List (BitVec 64 × PmCall)) (pm : Pm)
    (lines : List (BitVec 64 × Entry)) : Prop where
  flag : pm.rt.myFlag = true ↔ Begun calls
  deps : ∀ key dest, (∃ ids, (key, ids) ∈ pm.rt.deps ∧ dest ∈ ids) ↔
    ∃ id1 id2 : BitVec 32, key = id1.toInt ∧ dest = id2.toInt ∧ Added calls id1 id2
  traced : ∀ n, n ∈ pm.rt.traceIds ↔ ∃ id ∈ accesses lines, n = id.toInt
  quiet : pm.rt.myFlag = false → accesses lines = []

theorem accesses_map_block (tid : BitVec 64) (line : Event) {id : BitVec 32}
    (hline : line.access = some id) (rt : Runtime) (k : Nat) :
    accesses (((List.replicate k (rt.block line id)).flatten.map Entry.event).map (tid, ·)) =
      List.replicate k id := by
  have hdeps : ∀ srcs : List (BitVec 32), accesses (((srcs.map (Event.dep · id)).map
      Entry.event).map (tid, ·)) = [] := by
    intro srcs
    simp [accesses, Entry.access, Event.access]
  induction k with
  | zero => rfl
  | succ k ih =>
      rw [List.replicate_succ, List.flatten_cons, List.map_append, List.map_append,
        accesses_append, ih, Runtime.block, List.map_cons, List.map_cons, ← List.singleton_append,
        accesses_append, hdeps]
      simp [accesses, Entry.access, hline, List.replicate_succ]

/-- `DEP[key].insert(dest)`. -/
theorem mem_deps_insert {deps : OrderedMap Int (Finset Int)} {key key' dest dest' : Int} :
    (∃ ids, (key, ids) ∈ deps.insert key' (insert dest' ((deps.find? key').getD ∅)) ∧
        dest ∈ ids) ↔
      (∃ ids, (key, ids) ∈ deps ∧ dest ∈ ids) ∨ (key = key' ∧ dest = dest') := by
  constructor
  · rintro ⟨ids, hmem, hdest⟩
    rcases OrderedMap.mem_insert_iff.mp hmem with heq | ⟨hmem, -⟩
    · obtain ⟨rfl, rfl⟩ := Prod.mk.inj heq
      rcases Finset.mem_insert.mp hdest with rfl | hold
      · exact .inr ⟨rfl, rfl⟩
      · cases hfind : deps.find? key with
        | none => simp [hfind] at hold
        | some old =>
            rw [hfind, Option.getD_some] at hold
            exact .inl ⟨old, OrderedMap.find?_eq_some_iff.mp hfind, hold⟩
    · exact .inl ⟨ids, hmem, hdest⟩
  · rintro (⟨ids, hmem, hdest⟩ | ⟨rfl, rfl⟩)
    · by_cases heq : key = key'
      · subst heq
        have hfind := OrderedMap.find?_eq_some_iff.mpr hmem
        exact ⟨_, OrderedMap.mem_insert_iff.mpr (.inl rfl), by simp [hfind, hdest]⟩
      · exact ⟨ids, OrderedMap.mem_insert_iff.mpr (.inr ⟨hmem, heq⟩), hdest⟩
    · exact ⟨_, OrderedMap.mem_insert_iff.mpr (.inl rfl), by simp⟩

theorem accesses_map_eq_nil {tid : BitVec 64} {out : List Entry}
    (h : ∀ entry ∈ out, entry.access = none) : accesses (out.map (tid, ·)) = [] := by
  rw [accesses, List.filterMap_map, List.filterMap_eq_nil_iff]
  exact h

namespace Records

variable {calls : List (BitVec 64 × PmCall)} {pm : Pm} {lines : List (BitVec 64 × Entry)}

theorem start : Records [] Pm.start [] where
  flag := by simp [Pm.start, Runtime.start, Begun]
  deps := by simp [Pm.start, Runtime.start, Added]
  traced := by simp [Pm.start, Runtime.start, accesses]
  quiet := by simp [accesses]

theorem begun (h : Records calls pm lines) (tid : BitVec 64) :
    Records (calls ++ [(tid, .call .pmcInitialize)]) pm.pmcInitialize lines := by
  have hadded : ∀ src dest, Added (calls ++ [(tid, .call .pmcInitialize)]) src dest ↔
      Added calls src dest := by
    intro src dest
    simp [added_concat]
  cases hflag : pm.rt.myFlag with
  | true =>
      have hsame : pm.pmcInitialize = pm := by simp [Pm.pmcInitialize, hflag]
      rw [hsame]
      exact ⟨by simp [hflag, begun_concat], by simpa only [hadded] using h.deps, h.traced,
        h.quiet⟩
  | false =>
      -- the maps begin anew, and nothing was registered or printed before
      have hnot : ¬Begun calls := fun hbegun => by simp [h.flag.mpr hbegun] at hflag
      have hnone : ∀ src dest, ¬Added calls src dest := by
        rintro src dest ⟨prior, tid, later, rfl, tid', hmem⟩
        exact hnot ⟨tid', List.mem_append_left _ hmem⟩
      have hfresh : pm.pmcInitialize =
          { rt := { ranges := .empty, deps := .empty, traceIds := ∅, myFlag := true }
            funcStack := .empty } := by
        simp [Pm.pmcInitialize, Runtime.pmcInitialize, hflag]
      rw [hfresh]
      exact ⟨by simp [begun_concat], by simp [hadded, hnone], by simp [h.quiet hflag],
        fun _ => h.quiet hflag⟩

theorem depAdd (h : Records calls pm lines) (tid : BitVec 64) (src dest : BitVec 32) :
    Records (calls ++ [(tid, .call (.depAdd src dest))])
      { pm with rt := pm.rt.pmcDepAdd src dest } lines := by
  have hbegun : Begun (calls ++ [(tid, .call (.depAdd src dest))]) ↔ Begun calls := by
    simp [begun_concat]
  have hadded : ∀ id1 id2, Added (calls ++ [(tid, .call (.depAdd src dest))]) id1 id2 ↔
      Added calls id1 id2 ∨ ((id1 = src ∧ id2 = dest) ∧ Begun calls) := by
    intro id1 id2
    rw [added_concat]
    simp [eq_comm]
  cases hflag : pm.rt.myFlag with
  | true =>
      have hon := h.flag.mp hflag
      simp only [Runtime.pmcDepAdd, hflag, if_true]
      refine ⟨by simp [hbegun, hon], fun key d => ?_, h.traced, by simp⟩
      rw [mem_deps_insert, h.deps]
      simp only [hadded, hon, and_true]
      constructor
      · rintro (⟨id1, id2, hkey, hd, hold⟩ | ⟨hkey, hd⟩)
        · exact ⟨id1, id2, hkey, hd, .inl hold⟩
        · exact ⟨src, dest, hkey, hd, .inr ⟨rfl, rfl⟩⟩
      · rintro ⟨id1, id2, hkey, hd, hold | ⟨rfl, rfl⟩⟩
        · exact .inl ⟨id1, id2, hkey, hd, hold⟩
        · exact .inr ⟨hkey, hd⟩
  | false =>
      have hoff : ¬Begun calls := fun hbegun => by simp [h.flag.mpr hbegun] at hflag
      simp only [Runtime.pmcDepAdd, hflag, Bool.false_eq_true, if_false]
      exact ⟨by rw [hbegun]; exact h.flag, by simpa only [hadded, hoff, and_false, or_false]
        using h.deps, h.traced, h.quiet⟩

theorem access (h : Records calls pm lines) (tid : BitVec 64) {call : PmCall} {line : Event}
    {id : BitVec 32} (hline : line.access = some id)
    (hdep : ∀ src dest, call ≠ .call (.depAdd src dest)) (hinit : call ≠ .call .pmcInitialize)
    (addr : BitVec 64) (size : BitVec 32) :
    Records (calls ++ [(tid, call)]) (pm.accessStep line addr size id).1
      (lines ++ (pm.accessStep line addr size id).2.map (tid, ·)) := by
  have hbegun : Begun (calls ++ [(tid, call)]) ↔ Begun calls := by
    simp [begun_concat, hinit]
  have hadded : ∀ id1 id2, Added (calls ++ [(tid, call)]) id1 id2 ↔ Added calls id1 id2 := by
    intro id1 id2
    simp [added_concat, hdep]
  cases hflag : pm.rt.myFlag with
  | false =>
      simp only [Pm.accessStep, hflag, Bool.false_eq_true, if_false, List.map_nil, List.append_nil]
      exact ⟨by rw [hbegun]; exact h.flag, by simpa only [hadded] using h.deps, h.traced,
        h.quiet⟩
  | true =>
      simp only [Pm.accessStep, hflag, if_true]
      by_cases hany : pm.rt.ranges.entries.any (Runtime.inRange addr size) = true
      · have hpos : pm.rt.ranges.entries.countP (Runtime.inRange addr size) ≠ 0 :=
          (List.countP_pos_iff.mpr (List.any_eq_true.mp hany)).ne'
        rw [if_pos hany]
        refine ⟨by rw [hbegun]; exact h.flag,
          by simpa only [hadded, Runtime.trace] using h.deps, fun n => ?_,
          fun hoff => absurd (hoff.symm.trans hflag) (by simp)⟩
        rw [accesses_append, accesses_map_block tid line hline]
        simp only [Runtime.trace, Finset.mem_insert, h.traced, List.mem_append, List.mem_replicate]
        constructor
        · rintro (rfl | ⟨id', hid, rfl⟩)
          · exact ⟨id, .inr ⟨hpos, rfl⟩, rfl⟩
          · exact ⟨id', .inl hid, rfl⟩
        · rintro ⟨id', hid | ⟨-, rfl⟩, rfl⟩
          · exact .inr ⟨id', hid, rfl⟩
          · exact .inl rfl
      · have hzero : pm.rt.ranges.entries.countP (Runtime.inRange addr size) = 0 :=
          Nat.eq_zero_of_not_pos fun hpos =>
            hany (List.any_eq_true.mpr (List.countP_pos_iff.mp hpos))
        rw [if_neg hany, hzero]
        simp only [List.replicate_zero, List.flatten_nil, List.map_nil, List.append_nil]
        exact ⟨by rw [hbegun]; exact h.flag, by simpa only [hadded] using h.deps, h.traced,
          h.quiet⟩

theorem other (h : Records calls pm lines) (tid : BitVec 64) {call : PmCall}
    (hkeeps : KeepsDeps pm call) :
    Records (calls ++ [(tid, call)]) (pm.step call).1 (lines ++ (pm.step call).2.map (tid, ·)) := by
  have hbegun : Begun (calls ++ [(tid, call)]) ↔ Begun calls := by
    simp [begun_concat, hkeeps.not_init]
  have hadded : ∀ src dest, Added (calls ++ [(tid, call)]) src dest ↔ Added calls src dest := by
    intro src dest
    simp [added_concat, hkeeps.not_depAdd]
  have hlines : accesses (lines ++ (pm.step call).2.map (tid, ·)) = accesses lines := by
    rw [accesses_append, accesses_map_eq_nil fun entry hentry => (hkeeps.out entry hentry).1,
      List.append_nil]
  refine ⟨?_, ?_, ?_, ?_⟩
  · rw [hkeeps.myFlag, hbegun]
    exact h.flag
  · rw [hkeeps.deps]
    simpa only [hadded] using h.deps
  · rw [hkeeps.traceIds, hlines]
    exact h.traced
  · rw [hkeeps.myFlag, hlines]
    exact h.quiet

end Records

/-- After any calls the maps hold what was registered and what the log shows. -/
theorem records (calls : List (BitVec 64 × PmCall)) : Records calls (after calls) (log calls) := by
  refine @Machine.run_invariant _ _ _ Pm.turn Pm.start Records .start (fun calls call h => ?_) calls
  obtain ⟨tid, call⟩ := call
  change Records (calls ++ [(tid, call)]) ((after calls).step call).1
    (log calls ++ ((after calls).step call).2.map (tid, ·))
  rcases (after calls).step_cases call with ⟨rfl, hstep⟩ | ⟨src, dest, rfl, hstep⟩ |
    ⟨line, addr, size, id, hline, hdep, hinit, hstep⟩ | hkeeps
  · rw [hstep, List.map_nil, List.append_nil]
    exact h.begun tid
  · rw [hstep, List.map_nil, List.append_nil]
    exact h.depAdd tid src dest
  · rw [hstep]
    exact h.access tid hline hdep hinit addr size
  · exact h.other tid hkeeps

section Sources

variable {calls : List (BitVec 64 × PmCall)} {pm : Pm} {lines : List (BitVec 64 × Entry)}

/-- Every key of `DEP` is the number of an instruction. -/
theorem Records.key (h : Records calls pm lines) {id : BitVec 32} {p : Int × Finset Int}
    (hp : p ∈ pm.rt.deps.entries) (hid : id.toInt ∈ p.2) :
    (BitVec.ofInt 32 p.1).toInt = p.1 ∧ Added calls (.ofInt 32 p.1) id := by
  obtain ⟨id1, id2, hsrc, hdest, hadded⟩ := (h.deps p.1 id.toInt).mp ⟨p.2, hp, hid⟩
  obtain rfl := BitVec.toInt_inj.mp hdest
  rw [hsrc, BitVec.ofInt_toInt]
  exact ⟨rfl, hadded⟩

/-- The sources of an access stand in their order as numbers. -/
theorem Records.pairwise_sources (h : Records calls pm lines) (id : BitVec 32) :
    ((pm.rt.trace id).sources id).Pairwise fun x y => x.toInt < y.toInt := by
  refine List.Pairwise.filterMap _ (R := fun p q : Int × Finset Int =>
    p ∈ pm.rt.deps.entries ∧ q ∈ pm.rt.deps.entries ∧ p.1 < q.1) ?_ ?_
  · rintro p q ⟨hp, hq, hlt⟩ x hx y hy
    split at hx
    · rename_i hpid
      split at hy
      · rename_i hqid
        obtain rfl := Option.some.inj hx
        obtain rfl := Option.some.inj hy
        rw [(h.key hp hpid.2).1, (h.key hq hqid.2).1]
        exact hlt
      · cases hy
    · cases hx
  · exact List.Pairwise.imp_of_mem (fun hp hq hlt => ⟨hp, hq, hlt⟩) pm.rt.deps.sorted

/-- They are those that were registered and whose own access the log shows. -/
theorem Records.mem_sources (h : Records calls pm lines) {src id : BitVec 32} :
    src ∈ (pm.rt.trace id).sources id ↔
      Added calls src id ∧ (src = id ∨ src ∈ accesses lines) := by
  rw [Runtime.sources, List.mem_filterMap]
  constructor
  · rintro ⟨p, hp, hsome⟩
    split at hsome
    · rename_i hpid
      obtain rfl := Option.some.inj hsome
      obtain ⟨hint, hadded⟩ := h.key hp hpid.2
      refine ⟨hadded, ?_⟩
      rcases Finset.mem_insert.mp hpid.1 with heq | htraced
      · exact .inl (BitVec.toInt_inj.mp (hint.trans heq))
      · obtain ⟨id', hid', heq⟩ := (h.traced p.1).mp htraced
        rw [heq, BitVec.ofInt_toInt]
        exact .inr hid'
    · cases hsome
  · rintro ⟨hadded, hshown⟩
    obtain ⟨ids, hmem, hid⟩ := (h.deps src.toInt id.toInt).mpr ⟨src, id, rfl, rfl, hadded⟩
    refine ⟨(src.toInt, ids), hmem, ?_⟩
    have htraced : src.toInt ∈ (pm.rt.trace id).traceIds := by
      rcases hshown with rfl | hshown
      · exact Finset.mem_insert_self _ _
      · exact Finset.mem_insert_of_mem ((h.traced _).mpr ⟨src, hshown, rfl⟩)
    rw [if_pos ⟨htraced, hid⟩, BitVec.ofInt_toInt]

end Sources

/-! ### The whole log -/

/-- The dependence was registered before the call that prints the line behind `before`. -/
def AddedAt (calls : List (BitVec 64 × PmCall)) (before : List (BitVec 64 × Entry))
    (tid : BitVec 64) (src dest : BitVec 32) : Prop :=
  ∃ prior call later, calls = prior ++ (tid, call) :: later ∧ log prior <+: before ∧
    before.length < (log (prior ++ [(tid, call)])).length ∧ Added prior src dest

/-- `src` is a source of the access of `dest` behind `before`: the dependence was registered by
then, and the log in front of the line shows an access of `src`, unless the line itself is one. -/
def SourceAt (calls : List (BitVec 64 × PmCall)) (before : List (BitVec 64 × Entry))
    (tid : BitVec 64) (dest src : BitVec 32) : Prop :=
  AddedAt calls before tid src dest ∧ (src = dest ∨ src ∈ accesses before)

section Log

variable {calls : List (BitVec 64 × PmCall)} {before rest : List (BitVec 64 × Entry)}
  {tid : BitVec 64} {entry : Entry}

theorem log_prefix_append (calls later : List (BitVec 64 × PmCall)) :
    log calls <+: log (calls ++ later) := by
  rw [log, log, Machine.run_append]
  exact List.prefix_append _ _

/-- A place in the log belongs to one call. -/
theorem prior_unique {prior prior' later later' : List (BitVec 64 × PmCall)}
    {call call' : BitVec 64 × PmCall} (heq : prior ++ call :: later = prior' ++ call' :: later')
    (hlog : log prior <+: before) (hlength : before.length < (log (prior ++ [call])).length)
    (hlog' : log prior' <+: before) (hlength' : before.length < (log (prior' ++ [call'])).length) :
    prior = prior' := by
  have hle : ∀ {left right later later' : List (BitVec 64 × PmCall)}
      {call call' : BitVec 64 × PmCall},
      left ++ call :: later = right ++ call' :: later' → left.length < right.length →
        (log (left ++ [call])).length ≤ (log right).length := by
    intro left right later later' call call' heq hlt
    obtain ⟨tail, rfl⟩ : ∃ tail, right = left ++ [call] ++ tail := by
      rcases List.append_eq_append_iff.mp heq with ⟨tail, rfl, htail⟩ | ⟨tail, rfl, -⟩
      · cases tail with
        | nil => simp at hlt
        | cons y tail =>
            obtain ⟨rfl, -⟩ := List.cons.inj htail
            exact ⟨tail, by simp⟩
      · simp only [List.length_append] at hlt
        omega
    exact (log_prefix_append _ _).length_le
  rcases Nat.lt_trichotomy prior.length prior'.length with hlt | hsame | hlt
  · have h := hle heq hlt
    have h' := hlog'.length_le
    omega
  · exact (List.append_inj heq hsame).1
  · have h := hle heq.symm hlt
    have h' := hlog.length_le
    omega

/-- The access is the first line of its block. -/
theorem Runtime.access_of_block {rt : Runtime} {event line : Event} {id dest : BitVec 32}
    {left right : List Event} (h : rt.block event id = left ++ line :: right)
    (hline : line.access = some dest) :
    left = [] ∧ line = event ∧ right = ((rt.trace id).sources id).map (.dep · id) := by
  cases left with
  | nil =>
      obtain ⟨rfl, rfl⟩ := List.cons.inj h
      exact ⟨rfl, rfl, rfl⟩
  | cons x left =>
      have hmem : line ∈ ((rt.trace id).sources id).map (Event.dep · id) := by
        rw [(List.cons.inj h).2]
        exact List.mem_append_right left List.mem_cons_self
      obtain ⟨src, -, rfl⟩ := List.mem_map.mp hmem
      cases hline

/-- No call begins with a dependence. -/
theorem Pm.not_isDep_head (pm : Pm) (call : PmCall) :
    ∀ entry ∈ (pm.step call).2.head?, entry.isDep = false := by
  intro entry hentry
  rcases pm.step_cases call with ⟨rfl, hstep⟩ | ⟨src, dest, rfl, hstep⟩ |
    ⟨line, addr, size, id, hline, -, -, hstep⟩ | hkeeps
  · simp [hstep] at hentry
  · simp [hstep] at hentry
  · rw [hstep, Pm.accessStep] at hentry
    split at hentry
    · cases hcount : pm.rt.ranges.entries.countP (Runtime.inRange addr size) with
      | zero => simp [hcount] at hentry
      | succ k =>
          obtain rfl : Entry.event line = entry := by
            simpa [hcount, List.replicate_succ, Runtime.block] using hentry
          cases line with
          | dep src dest => cases hline
          | _ => rfl
    · simp at hentry
  · exact (hkeeps.out entry (List.mem_of_mem_head? hentry)).2

/-- The call that printed a line of an access or of a dependence, with its whole output. -/
theorem exists_access_of_log {after : List (BitVec 64 × Entry)}
    (h : log calls = before ++ (tid, entry) :: after)
    (hentry : entry.access ≠ none ∨ entry.isDep = true) :
    ∃ prior call later line id k front back, calls = prior ++ (tid, call) :: later ∧
      line.access = some id ∧
      (List.replicate k ((Pm.after prior).rt.block line id)).flatten.map Entry.event =
        front ++ entry :: back ∧
      before = log prior ++ front.map (tid, ·) ∧
      log (prior ++ [(tid, call)]) = before ++ (tid, entry) :: back.map (tid, ·) ∧
      ∃ rest, after = back.map (tid, ·) ++ rest ∧ ∀ next ∈ rest.head?, next.2.isDep = false := by
  obtain ⟨prior, ⟨tid', call⟩, later, front, back, rfl, hturn, rfl, rfl⟩ :=
    Machine.exists_step_of_run h
  change ((Pm.after prior).step call).2.map (tid', ·) = front ++ (tid, entry) :: back at hturn
  obtain ⟨front', tail, hout, rfl, htail⟩ := List.map_eq_append_iff.mp hturn
  obtain ⟨entry', back', rfl, heq, rfl⟩ := List.map_eq_cons_iff.mp htail
  obtain ⟨rfl, rfl⟩ := Prod.mk.inj heq
  have hhead : ∀ (pm : Pm) (turn : BitVec 64 × PmCall), ∀ x ∈ (pm.turn turn).2.head?,
      x.2.isDep = false := by
    intro pm turn x hx
    obtain ⟨e, he, rfl⟩ : ∃ e ∈ (pm.step turn.2).2.head?, (turn.1, e) = x := by
      simpa [Pm.turn, List.head?_map] using hx
    exact pm.not_isDep_head turn.2 e he
  have hlog : log (prior ++ [(tid', call)]) = log prior ++ front'.map (tid', ·) ++
      (tid', entry') :: back'.map (tid', ·) := by
    rw [Pm.log_concat, hturn, List.append_assoc]
  have hrest := @Machine.run_head _ _ _ Pm.turn
    (Machine.run Pm.turn Pm.start (prior ++ [(tid', call)])).1 later _ hhead
  rcases (Pm.after prior).step_cases call with ⟨rfl, hstep⟩ | ⟨src, dest, rfl, hstep⟩ |
    ⟨line, addr, size, id, hline, -, -, hstep⟩ | hkeeps
  · simp [hstep] at hout
  · simp [hstep] at hout
  · rw [hstep, Pm.accessStep] at hout
    split at hout
    · exact ⟨prior, call, later, line, id, _, front', back', rfl, hline, hout, rfl, hlog, _, rfl,
        hrest⟩
    · simp at hout
  · have hnot := hkeeps.out entry' (by simp [hout])
    simp [hnot] at hentry

/-- Behind an access stand its sources, in ascending order, and then no other one. -/
theorem dependences_of_access {line : Entry} {dest : BitVec 32}
    {after : List (BitVec 64 × Entry)} (h : log calls = before ++ (tid, line) :: after)
    (hline : line.access = some dest) :
    ∃ (srcs : List (BitVec 32)) (rest : List (BitVec 64 × Entry)),
      after = srcs.map (fun src => (tid, Entry.event (.dep src dest))) ++ rest ∧
      (∀ next ∈ rest.head?, next.2.isDep = false) ∧
      srcs.Pairwise (fun x y => x.toInt < y.toInt) ∧
      ∀ src, src ∈ srcs ↔ SourceAt calls before tid dest src := by
  obtain ⟨prior, call, later, event, id, k, front, back, rfl, hevent, hout, rfl, hlog, rest, rfl,
    hrest⟩ := exists_access_of_log h (.inl (by simp [hline]))
  obtain ⟨front', tail, hflat, rfl, htail⟩ := List.map_eq_append_iff.mp hout
  obtain ⟨event', back', rfl, rfl, rfl⟩ := List.map_eq_cons_iff.mp htail
  obtain ⟨i, j, left, right, hblock, rfl, rfl⟩ := Lists.flatten_replicate_split hflat
  obtain ⟨rfl, rfl, rfl⟩ := Runtime.access_of_block hblock hline
  obtain rfl : id = dest := Option.some.inj (hevent.symm.trans hline)
  refine ⟨((Pm.after prior).rt.trace id).sources id,
    (((List.replicate j ((Pm.after prior).rt.block event' id)).flatten.map
      Entry.event).map (tid, ·)) ++ rest, ?_, ?_, (records prior).pairwise_sources id,
    fun src => ?_⟩
  · simp [Function.comp_def]
  · cases j with
    | zero => simpa using hrest
    | succ j =>
        intro next hnext
        obtain rfl : (tid, Entry.event event') = next := by
          simpa [List.replicate_succ, Runtime.block] using hnext
        cases event' with
        | dep src dest => cases hevent
        | _ => rfl
  · have hbefore : src = id ∨ src ∈ accesses (log prior ++
        ((((List.replicate i ((Pm.after prior).rt.block event' id)).flatten ++ []).map
          Entry.event).map (tid, ·))) ↔ src = id ∨ src ∈ accesses (log prior) := by
      rw [List.append_nil, accesses_append, accesses_map_block tid event' hevent, List.mem_append,
        List.mem_replicate]
      tauto
    rw [(records prior).mem_sources]
    constructor
    · rintro ⟨hadded, hshown⟩
      exact ⟨⟨prior, call, later, rfl, List.prefix_append _ _, by rw [hlog]; simp, hadded⟩,
        hbefore.mpr hshown⟩
    · rintro ⟨⟨prior', call', later', heq, hprefix, hlength, hadded⟩, hshown⟩
      obtain rfl := prior_unique heq (List.prefix_append _ _) (by rw [hlog]; simp) hprefix hlength
      exact ⟨hadded, hbefore.mp hshown⟩

/-- Every dependence stands behind an access of its destination, with other ones of the same access
between them at most. -/
theorem access_of_dependence {src dest : BitVec 32} {after : List (BitVec 64 × Entry)}
    (h : log calls = before ++ (tid, .event (.dep src dest)) :: after) :
    ∃ front line deps, before = front ++ (tid, line) :: deps ∧ line.access = some dest ∧
      ∀ d ∈ deps, ∃ src', d = (tid, .event (.dep src' dest)) := by
  obtain ⟨prior, call, later, event, id, k, front, back, rfl, hevent, hout, rfl, -⟩ :=
    exists_access_of_log h (.inr rfl)
  obtain ⟨front', tail, hflat, rfl, htail⟩ := List.map_eq_append_iff.mp hout
  obtain ⟨event', back', rfl, heq, rfl⟩ := List.map_eq_cons_iff.mp htail
  obtain rfl := Entry.event.inj heq
  obtain ⟨i, j, left, right, hblock, rfl, -⟩ := Lists.flatten_replicate_split hflat
  cases left with
  | nil =>
      obtain ⟨rfl, -⟩ := List.cons.inj hblock
      cases hevent
  | cons x left =>
      obtain ⟨rfl, hsrcs⟩ := List.cons.inj hblock
      have hdeps : ∀ d ∈ left ++ Event.dep src dest :: right, ∃ src', d = .dep src' id := by
        intro d hd
        have hmem : d ∈ (((Pm.after prior).rt.trace id).sources id).map (Event.dep · id) := by
          rw [hsrcs]
          exact hd
        obtain ⟨src', -, rfl⟩ := List.mem_map.mp hmem
        exact ⟨src', rfl⟩
      obtain ⟨src', heq⟩ := hdeps (.dep src dest) (by simp)
      obtain ⟨-, rfl⟩ := Event.dep.inj heq
      refine ⟨log prior ++ ((List.replicate i ((Pm.after prior).rt.block event dest)).flatten.map
        Entry.event).map (tid, ·), .event event, (left.map Entry.event).map (tid, ·), by simp,
        hevent, ?_⟩
      intro d hd
      obtain ⟨e, he, rfl⟩ := List.mem_map.mp hd
      obtain ⟨e', he', rfl⟩ := List.mem_map.mp he
      obtain ⟨src', rfl⟩ := hdeps e' (List.mem_append_left _ he')
      exact ⟨src', rfl⟩

end Log

/-- **The dependences in a log.** Whatever calls the threads make, behind every printed access stand
the sources that were registered for its instruction and whose access the log shows by then, each
once and in ascending order, printed by the same thread; and there are no other dependences. -/
theorem log_dependences (calls : List (BitVec 64 × PmCall)) :
    (∀ before tid line after dest, log calls = before ++ (tid, line) :: after →
      line.access = some dest →
      ∃ (srcs : List (BitVec 32)) (rest : List (BitVec 64 × Entry)),
        after = srcs.map (fun src => (tid, Entry.event (.dep src dest))) ++ rest ∧
        (∀ next ∈ rest.head?, next.2.isDep = false) ∧
        srcs.Pairwise (fun x y => x.toInt < y.toInt) ∧
        ∀ src, src ∈ srcs ↔ SourceAt calls before tid dest src) ∧
    ∀ before tid src dest after, log calls = before ++ (tid, .event (.dep src dest)) :: after →
      ∃ front line deps, before = front ++ (tid, line) :: deps ∧ line.access = some dest ∧
        ∀ d ∈ deps, ∃ src', d = (tid, .event (.dep src' dest)) :=
  ⟨fun _ _ _ _ _ h hline => dependences_of_access h hline,
    fun _ _ _ _ _ h => access_of_dependence h⟩

end PMBugRepair
