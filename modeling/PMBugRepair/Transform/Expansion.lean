import PMBugRepair.Transform.Instrument

/-!
# What `PMTraceGen` makes of a function

All loops together put a fixed list of calls in front of every instruction. A loop also comes across
the calls of the loops before it: the fence that is inserted for a persist looks like a fence to the
next loop, which inserts another one in front of it, without a scope.
-/

namespace PMBugRepair.PMTraceGen

open Strings (Text lit)
open Weaving (weave weave_cons weave_append weave_eq_self weave_weave)

/-! ### The loops -/

section Loops

/-- The blocks with `ghost` in front of their instructions. -/
def weaveBlocks (ghost : Nat → Instruction → List Instruction) (blocks : List BasicBlock) :
    List BasicBlock :=
  blocks.map fun block => { block with insts := weave ghost block.label block.insts }

/-- The blocks with `front` at the begin of the first one. -/
def prepend (front : List Instruction) (blocks : List BasicBlock) : List BasicBlock :=
  blocks.modifyHead fun block => { block with insts := front ++ block.insts }

/-- What a loop inserts. -/
def added (before : Instruction → Option (List Instruction)) (i : Instruction) :
    List Instruction := (before i).getD []

variable {before : Instruction → Option (List Instruction)} {blocks out : List BasicBlock}
  {ghost ghost' : Nat → Instruction → List Instruction}

theorem insertBefore_eq (h : insertBefore before blocks = some out) :
    out = weaveBlocks (fun _ => added before) blocks := by
  have hinsts : ∀ (insts : List Instruction) (parts : List (List Instruction)),
      (insts.mapM fun i => do return (← before i) ++ [i]) = some parts →
        parts.flatten = weave (fun (_ : Nat) => added before) 0 insts := by
    intro insts
    induction insts with
    | nil =>
        rintro parts h
        obtain rfl : [] = parts := by simpa using h
        rfl
    | cons i insts ih =>
        intro parts h
        rw [List.mapM_cons] at h
        obtain ⟨part, hpart, hrest⟩ := Option.bind_eq_some_iff.mp h
        obtain ⟨rest, hparts, hout⟩ := Option.bind_eq_some_iff.mp hrest
        obtain rfl : part :: rest = parts := by simpa using hout
        obtain ⟨new, hnew, hlast⟩ := Option.bind_eq_some_iff.mp hpart
        obtain rfl : new ++ [i] = part := by simpa using hlast
        simp [added, hnew, ih rest hparts]
  induction blocks generalizing out with
  | nil =>
      obtain rfl : [] = out := by simpa [insertBefore] using h
      rfl
  | cons block blocks ih =>
      rw [insertBefore, List.mapM_cons] at h
      obtain ⟨first, hfirst, hrest⟩ := Option.bind_eq_some_iff.mp h
      obtain ⟨rest, hblocks, hout⟩ := Option.bind_eq_some_iff.mp hrest
      obtain rfl : first :: rest = out := by simpa using hout
      obtain ⟨parts, hparts, hlast⟩ := Option.bind_eq_some_iff.mp hfirst
      obtain rfl : { block with insts := parts.flatten } = first := by simpa using hlast
      rw [ih hblocks, hinsts block.insts parts hparts]
      rfl

theorem weaveBlocks_weaveBlocks : weaveBlocks ghost' (weaveBlocks ghost blocks) =
    weaveBlocks (fun label i => weave ghost' label (ghost label i) ++ ghost' label i) blocks := by
  simp [weaveBlocks, weave_weave]

theorem weaveBlocks_prepend {front front' : List Instruction}
    (h : ∀ label, weave ghost label front = front') :
    weaveBlocks ghost (prepend front blocks) = prepend front' (weaveBlocks ghost blocks) := by
  cases blocks with
  | nil => rfl
  | cons block blocks => simp [weaveBlocks, prepend, weave_append, h]

theorem weaveBlocks_congr (h : ∀ block ∈ blocks, ∀ i ∈ block.insts,
    ghost block.label i = ghost' block.label i) :
    weaveBlocks ghost blocks = weaveBlocks ghost' blocks := by
  refine List.map_congr_left fun block hblock => ?_
  rw [weave, weave, List.flatMap_congr fun i hi => by rw [h block hblock i hi]]

/-! No block gets another label. -/

theorem labels_weaveBlocks (g : Nat → Instruction → List Instruction) :
    (weaveBlocks g blocks).map BasicBlock.label = blocks.map BasicBlock.label := by
  simp [weaveBlocks, Function.comp_def]

theorem labels_prepend (front : List Instruction) :
    (prepend front blocks).map BasicBlock.label = blocks.map BasicBlock.label := by
  cases blocks <;> rfl

theorem freshLabel_weaveBlocks (g : Nat → Instruction → List Instruction) :
    freshLabel (weaveBlocks g blocks) = freshLabel blocks := by
  rw [freshLabel, freshLabel, labels_weaveBlocks]

theorem freshLabel_prepend (front : List Instruction) :
    freshLabel (prepend front blocks) = freshLabel blocks := by
  rw [freshLabel, freshLabel, labels_prepend]

end Loops

/-! ### The dummies -/

/-- One terminator, at the end. -/
def Terminated (insts : List Instruction) : Prop :=
  ∃ body last, insts = body ++ [last] ∧ last.isTerminator = true ∧
    ∀ i ∈ body, i.isTerminator = false

/-- What LLVM promises of the blocks of a function. -/
structure WellFormed (blocks : List BasicBlock) : Prop where
  nonempty : blocks ≠ []
  labels : (blocks.map BasicBlock.label).Nodup
  terminated : ∀ block ∈ blocks, Terminated block.insts

def lastLabel (blocks : List BasicBlock) : Nat := (blocks.getLast?.map BasicBlock.label).getD 0

/-- The second dummy, in front of the terminator of the block `last`. -/
def endGhost (func : Text) (last label : Nat) (i : Instruction) : List Instruction :=
  if label = last ∧ i.isTerminator = true then [dummy func .dummyEnd] else []

section Dummies

variable {func : Text} {blocks : List BasicBlock}

theorem insertAtEnd_eq {insts : List Instruction} (h : Terminated insts) (label : Nat) :
    insertAtEnd (dummy func .dummyEnd) insts = weave (endGhost func label) label insts := by
  obtain ⟨body, last, rfl, hlast, hbody⟩ := h
  have hself : weave (endGhost func label) label body = body :=
    weave_eq_self fun i hi => by simp [endGhost, hbody i hi]
  simp [insertAtEnd, hlast, weave_append, hself, endGhost]

theorem insertDummyEnd_eq (hlabels : (blocks.map BasicBlock.label).Nodup)
    (hterminated : ∀ block ∈ blocks, Terminated block.insts) :
    insertDummyEnd func blocks = weaveBlocks (endGhost func (lastLabel blocks)) blocks := by
  induction blocks with
  | nil => rfl
  | cons block rest ih =>
      obtain ⟨hblock, hrest⟩ := List.forall_mem_cons.mp hterminated
      obtain ⟨hnew, hnodup⟩ := List.nodup_cons.mp hlabels
      cases rest with
      | nil => simp [insertDummyEnd, insertAtEnd_eq hblock block.label, weaveBlocks, lastLabel]
      | cons next rest =>
          have hlast : lastLabel (block :: next :: rest) = lastLabel (next :: rest) := by
            simp [lastLabel]
          have hne : block.label ≠ lastLabel (next :: rest) := by
            intro heq
            refine hnew (heq ▸ ?_)
            rw [lastLabel, List.getLast?_eq_some_getLast (List.cons_ne_nil next rest)]
            exact List.mem_map_of_mem (List.getLast_mem _)
          have hself : weave (endGhost func (lastLabel (next :: rest))) block.label block.insts =
              block.insts := weave_eq_self fun i _ => by simp [endGhost, hne]
          rw [insertDummyEnd, ih hnodup hrest, hlast]
          simp only [weaveBlocks, List.map_cons, hself]

theorem insertDummyBeginEnd_eq (h : WellFormed blocks) : insertDummyBeginEnd func blocks =
    prepend [dummy func .dummyBegin] (weaveBlocks (endGhost func (lastLabel blocks)) blocks) := by
  obtain ⟨hne, hlabels, hterminated⟩ := h
  cases blocks with
  | nil => exact absurd rfl hne
  | cons first rest =>
      obtain ⟨hfirst, hrest⟩ := List.forall_mem_cons.mp hterminated
      have hbegun : Terminated (dummy func .dummyBegin :: first.insts) := by
        obtain ⟨body, last, hinsts, hlast, hbody⟩ := hfirst
        exact ⟨dummy func .dummyBegin :: body, last, by rw [hinsts]; rfl, hlast,
          List.forall_mem_cons.mpr ⟨rfl, hbody⟩⟩
      have heq := @insertDummyEnd_eq func
        ({ first with insts := dummy func .dummyBegin :: first.insts } :: rest) hlabels
        (List.forall_mem_cons.mpr ⟨hbegun, hrest⟩)
      have hlast :
          lastLabel ({ first with insts := dummy func .dummyBegin :: first.insts } :: rest) =
            lastLabel (first :: rest) := by
        cases rest <;> simp [lastLabel]
      rw [insertDummyBeginEnd, List.modifyHead_cons, heq, hlast]
      have hfront : ∀ label, weave (endGhost func (lastLabel (first :: rest))) label
          [dummy func .dummyBegin] = [dummy func .dummyBegin] :=
        fun label => by simp [endGhost, dummy, Instruction.isTerminator]
      exact @weaveBlocks_prepend (first :: rest) _ _ _ hfront

end Dummies

/-! ### One instruction -/

/-- A call or a conversion that the pass has inserted for an instruction. -/
structure Inserted (j : Instruction) : Prop where
  uniqueID : j.uniqueID = none
  functionName : j.functionName = none
  kind : (∃ call, j.kind = .runtime call) ∨ ∃ operand, j.kind = .cast operand

/-- What the loops in front of the analysis insert for an instruction of the function. -/
def prepared (parent : Text) (i : Instruction) : List Instruction :=
  weave (fun (_ : Nat) => added (insertFence parent)) 0 (added insertFlush i) ++
    added (insertFence parent) i ++ added insertTransactions i

/-- What all loops insert. -/
def inserted (parent : Text) (i : Instruction) : List Instruction :=
  prepared parent i ++ added visit i ++ added insertFuncBeginEnd i

section Inserted

variable {i j : Instruction} {parent : Text}

theorem callAt_inserted (i : Instruction) (call : RuntimeCall) : Inserted (callAt i call) :=
  ⟨rfl, rfl, .inl ⟨call, rfl⟩⟩

theorem inserted_of_mem_castAt {operand : Operand} (h : j ∈ castAt i operand) : Inserted j := by
  unfold castAt at h
  split at h
  · cases h
  · rw [List.mem_singleton.mp h]
    exact ⟨rfl, rfl, .inr ⟨operand, rfl⟩⟩

theorem inserted_of_flushCall {data len : Nat} {new : List Instruction}
    (h : flushCall i data len = some new) : ∀ j ∈ new, Inserted j := by
  obtain ⟨argData, -, hrest⟩ := Option.bind_eq_some_iff.mp h
  obtain ⟨argLen, -, hrest⟩ := Option.bind_eq_some_iff.mp hrest
  obtain ⟨bitWidth, -, hrest⟩ := Option.bind_eq_some_iff.mp hrest
  split at hrest
  · obtain rfl := Option.some.inj hrest
    simpa using callAt_inserted i _
  · split at hrest
    · obtain rfl := Option.some.inj hrest
      refine List.forall_mem_append.mpr ⟨fun j hj => inserted_of_mem_castAt hj, ?_⟩
      simpa using callAt_inserted i _
    · cases hrest

theorem inserted_of_added {before : Instruction → Option (List Instruction)}
    (h : ∀ new, before i = some new → ∀ j ∈ new, Inserted j) :
    ∀ j ∈ added before i, Inserted j := by
  unfold added
  cases hnew : before i with
  | none => simp
  | some new => exact h new hnew

theorem added_insertFlush_inserted : ∀ j ∈ added insertFlush i, Inserted j := by
  refine inserted_of_added fun new hnew => ?_
  unfold insertFlush at hnew
  have hfenced : ∀ {data len : Nat} {new : List Instruction}, (do
      return (← flushCall i data len) ++ [callAt i (.fence (site i))]) = some new →
        ∀ j ∈ new, Inserted j := by
    intro data len new h
    obtain ⟨flushes, hflushes, hrest⟩ := Option.bind_eq_some_iff.mp h
    obtain rfl := Option.some.inj hrest
    exact List.forall_mem_append.mpr
      ⟨inserted_of_flushCall hflushes, by simpa using callAt_inserted i _⟩
  split at hnew
  · cases hnew
    simp
  · split at hnew
    · exact inserted_of_flushCall hnew
    · split at hnew
      · exact hfenced hnew
      · split at hnew
        · exact hfenced hnew
        · cases hnew
          simp

theorem added_insertFence_inserted : ∀ j ∈ added (insertFence parent) i, Inserted j := by
  refine inserted_of_added fun new hnew => ?_
  unfold insertFence at hnew
  split at hnew
  · cases hnew
    simp
  · split at hnew <;> cases hnew
    · simpa using callAt_inserted i _
    · simp

theorem added_insertTransactions_inserted : ∀ j ∈ added insertTransactions i, Inserted j := by
  refine inserted_of_added fun new hnew => ?_
  unfold insertTransactions transactionCalls at hnew
  split at hnew
  · cases hnew
    simp
  · split at hnew
    · cases hnew
      simpa using callAt_inserted i _
    · split at hnew <;> cases hnew
      · simpa using callAt_inserted i _
      · simp

theorem added_visit_inserted : ∀ j ∈ added visit i, Inserted j := by
  refine inserted_of_added fun new hnew => ?_
  have hcall : ∀ {operand : Operand} {call : RuntimeCall},
      ∀ j ∈ castAt i operand ++ [callAt i call], Inserted j := fun {operand call} =>
    List.forall_mem_append.mpr ⟨fun j hj => inserted_of_mem_castAt hj,
      by simpa using callAt_inserted i call⟩
  unfold visit at hnew
  split at hnew
  · split at hnew
    · cases hnew
      simp
    · split at hnew <;> cases hnew
      exact hcall
  · split at hnew <;> cases hnew
    · simp
    · exact hcall
  · cases hnew
    simp

theorem added_insertFuncBeginEnd_inserted : ∀ j ∈ added insertFuncBeginEnd i, Inserted j := by
  refine inserted_of_added fun new hnew => ?_
  unfold insertFuncBeginEnd at hnew
  split at hnew
  · cases hnew
    simp
  · split at hnew
    · obtain ⟨name, -, hrest⟩ := Option.bind_eq_some_iff.mp hnew
      split at hrest <;> cases hrest <;> simpa using callAt_inserted i _
    · cases hnew
      simp

/-- Only a loop that looks for fences finds anything in what was inserted. -/
theorem added_eq_nil_of_inserted (h : Inserted j) : added insertTransactions j = [] ∧
    added visit j = [] ∧ added insertFuncBeginEnd j = [] := by
  have hnames : ∀ call : RuntimeCall, ¬lit "pmemobj_tx_begin" <:+: call.name ∧
      ¬lit "pmemobj_tx_commit" <:+: call.name := by
    intro call
    cases call <;> simp only [RuntimeCall.name] <;> with_unfolding_all decide
  have hfunc : added insertFuncBeginEnd j = [] := by
    simp [added, insertFuncBeginEnd, h.functionName]
  rcases h.kind with ⟨call, hkind⟩ | ⟨operand, hkind⟩
  · refine ⟨?_, by simp [added, visit, hkind], hfunc⟩
    simp [added, insertTransactions, transactionCalls, hkind, Instruction.callee, hnames call]
  · exact ⟨by simp [added, insertTransactions, transactionCalls, hkind, Instruction.callee],
      by simp [added, visit, hkind], hfunc⟩

theorem inserted_of_prepared : ∀ j ∈ prepared parent i, Inserted j := by
  have hweave : ∀ j ∈ weave (fun (_ : Nat) => added (insertFence parent)) 0 (added insertFlush i),
      Inserted j := by
    intro j hj
    obtain ⟨k, hk, hmem⟩ := List.mem_flatMap.mp hj
    rcases List.mem_append.mp hmem with hmem | hmem
    · exact added_insertFence_inserted j hmem
    · rw [List.mem_singleton.mp hmem]
      exact added_insertFlush_inserted k hk
  simp only [prepared, List.forall_mem_append]
  exact ⟨⟨hweave, added_insertFence_inserted⟩, added_insertTransactions_inserted⟩

theorem inserted_inserted : ∀ j ∈ inserted parent i, Inserted j := by
  simp only [inserted, List.forall_mem_append]
  exact ⟨⟨inserted_of_prepared, added_visit_inserted⟩, added_insertFuncBeginEnd_inserted⟩

end Inserted

/-! ### The whole pass -/

/-- The first dummy, behind the call that it stands for. -/
def begins (func : Text) : List Instruction :=
  [callAt (dummy func .dummyBegin) (.funcBegin (getOrCreateGlobalStringPtr func)),
    dummy func .dummyBegin]

/-- The second one, in front of the terminator of the block `last`. -/
def ends (func : Text) (last label : Nat) (i : Instruction) : List Instruction :=
  if label = last ∧ i.isTerminator = true then
    [callAt (dummy func .dummyEnd) (.funcEnd (getOrCreateGlobalStringPtr func)),
      dummy func .dummyEnd]
  else []

/-- Everything that is inserted in front of an instruction of the block `label`. -/
def ghost (func : Text) (last label : Nat) (i : Instruction) : List Instruction :=
  ends func last label i ++ inserted func i

/-- The blocks that the pass leaves behind, given those with numbers and the dependences. -/
def instrumented (func : Text) (deps : List RuntimeCall) (plain : List BasicBlock) :
    List BasicBlock :=
  let blocks := newEntry deps
    (prepend (begins func) (weaveBlocks (ghost func (lastLabel plain)) plain))
  if func = lit "main" then newEntry [.pmcInitialize] blocks else blocks

section Pass

variable {f f' : IRFunction} {n n' : Nat} {blocks plain : List BasicBlock}

theorem setInstUniqueID_labels (n : Nat) (blocks : List BasicBlock) :
    (setInstUniqueID n blocks).1.map BasicBlock.label = blocks.map BasicBlock.label := by
  induction blocks generalizing n with
  | nil => rfl
  | cons block blocks ih => simp [setInstUniqueID, ih]

/-- Every numbered block is a block with other metadata. -/
theorem mem_setInstUniqueID {block : BasicBlock} (h : block ∈ (setInstUniqueID n blocks).1) :
    ∃ old ∈ blocks, ∃ k, block.label = old.label ∧
      block.insts = (old.insts.zipIdx k).map fun entry =>
        { entry.1 with uniqueID := some (.ofNat 32 entry.2) } := by
  induction blocks generalizing n with
  | nil => cases h
  | cons first blocks ih =>
      rcases List.mem_cons.mp h with rfl | h
      · exact ⟨first, by simp, n, rfl, rfl⟩
      · obtain ⟨old, hold, hrest⟩ := ih h
        exact ⟨old, List.mem_cons_of_mem _ hold, hrest⟩

theorem wellFormed_setInstUniqueID (h : WellFormed blocks) (n : Nat) :
    WellFormed (setInstUniqueID n blocks).1 := by
  refine ⟨?_, (setInstUniqueID_labels n blocks).symm ▸ h.labels, fun block hblock => ?_⟩
  · intro heq
    have hlabels := setInstUniqueID_labels n blocks
    rw [heq, List.map_nil] at hlabels
    exact h.nonempty (List.map_eq_nil_iff.mp hlabels.symm)
  · obtain ⟨old, hold, k, -, hinsts⟩ := mem_setInstUniqueID hblock
    obtain ⟨body, last, hbody, hlast, hothers⟩ := h.terminated old hold
    rw [hinsts, hbody, List.zipIdx_append, List.map_append]
    refine ⟨_, _, rfl, hlast, fun i hi => ?_⟩
    obtain ⟨entry, hentry, rfl⟩ := List.mem_map.mp hi
    exact hothers entry.1 (List.fst_mem_of_mem_zipIdx hentry)

/-- The loops see nothing in the dummies, the last one takes them for what they are. -/
theorem added_dummy (func parent : Text) :
    (∀ d ∈ [dummy func .dummyBegin, dummy func .dummyEnd], added insertFlush d = [] ∧
      added (insertFence parent) d = [] ∧ added insertTransactions d = [] ∧ added visit d = []) ∧
    weave (fun (_ : Nat) => added insertFuncBeginEnd) 0 [dummy func .dummyBegin] = begins func ∧
    weave (fun (_ : Nat) => added insertFuncBeginEnd) 0 [dummy func .dummyEnd] =
      [callAt (dummy func .dummyEnd) (.funcEnd (getOrCreateGlobalStringPtr func)),
        dummy func .dummyEnd] := by
  have hnames : ∀ name ∈ [lit "__pmc_dummy_begin", lit "__pmc_dummy_end"],
      ¬lit "clflush" <:+: name ∧ ¬lit "simuFlushOpt" <:+: name ∧ ¬lit "pmem_persist" <:+: name ∧
      ¬lit "pmem_flush" <:+: name ∧ ¬lit "pmemobj_persist" <:+: name ∧ ¬lit "fence" <:+: name ∧
      ¬lit "pmemobj_tx_begin" <:+: name ∧ ¬lit "pmemobj_tx_commit" <:+: name := by
    with_unfolding_all decide
  have hend : lit "__pmc_dummy_end" ≠ lit "__pmc_dummy_begin" := by with_unfolding_all decide
  obtain ⟨hbegin, hend'⟩ : _ ∧ _ := by simpa only [List.forall_mem_cons] using hnames
  refine ⟨?_, ?_, ?_⟩
  · simp [added, dummy, insertFlush, insertFence, insertTransactions, transactionCalls, visit,
      Instruction.callee, RuntimeCall.name, hbegin, hend'.1]
  · simp [added, dummy, insertFuncBeginEnd, Instruction.callee, Instruction.isCall,
      RuntimeCall.name, begins]
  · simp [added, dummy, insertFuncBeginEnd, Instruction.callee, Instruction.isCall,
      RuntimeCall.name, hend]

theorem weave_eq_self_of_added {before : Instruction → Option (List Instruction)}
    {insts : List Instruction} (h : ∀ i ∈ insts, added before i = []) :
    weave (fun (_ : Nat) => added before) 0 insts = insts := weave_eq_self h

/-- One more loop over a function into which `old` was woven. -/
theorem weaveBlocks_added {before : Instruction → Option (List Instruction)}
    {front front' : List Instruction} {old new : Nat → Instruction → List Instruction}
    (hfront : weave (fun (_ : Nat) => added before) 0 front = front')
    (hnew : ∀ label i,
      weave (fun (_ : Nat) => added before) 0 (old label i) ++ added before i = new label i) :
    weaveBlocks (fun _ => added before) (prepend front (weaveBlocks old plain)) =
      prepend front' (weaveBlocks new plain) := by
  have hprepend : weaveBlocks (fun _ => added before) (prepend front (weaveBlocks old plain)) =
      prepend front' (weaveBlocks (fun _ => added before) (weaveBlocks old plain)) :=
    weaveBlocks_prepend fun _ => hfront
  rw [hprepend, weaveBlocks_weaveBlocks]
  exact congrArg _ (weaveBlocks_congr fun _ _ i _ => hnew _ i)

/-- The loops in front of the analysis, on top of the dummies. -/
theorem prepare_eq (hwf : WellFormed plain) {ready : List BasicBlock}
    (h : prepare f plain = some ready) :
    ready = prepend [dummy f.name .dummyBegin] (weaveBlocks (fun label i =>
      endGhost f.name (lastLabel plain) label i ++ prepared f.name i) plain) := by
  obtain ⟨flushed, hflushed, hrest⟩ := Option.bind_eq_some_iff.mp h
  obtain ⟨fenced, hfenced, hready⟩ := Option.bind_eq_some_iff.mp hrest
  obtain ⟨hbegin, hend⟩ := List.forall_mem_cons.mp (added_dummy f.name f.name).1
  have hends : ∀ label i, ∀ d ∈ endGhost f.name (lastLabel plain) label i,
      added insertFlush d = [] ∧ added (insertFence f.name) d = [] ∧
        added insertTransactions d = [] ∧ added visit d = [] := by
    intro label i d hd
    unfold endGhost at hd
    split at hd
    · exact hend d hd
    · cases hd
  have hinserted : ∀ i, ∀ j ∈ weave (fun (_ : Nat) => added (insertFence f.name)) 0
      (added insertFlush i) ++ added (insertFence f.name) i, Inserted j := by
    intro i j hj
    exact @inserted_of_prepared i f.name j (List.mem_append_left _ hj)
  rw [insertBefore_eq hready, insertBefore_eq hfenced, insertBefore_eq hflushed,
    insertDummyBeginEnd_eq hwf]
  rw [weaveBlocks_added (weave_eq_self_of_added (by simpa using hbegin.1)) fun label i => by
    rw [weave_eq_self_of_added fun d hd => (hends label i d hd).1]]
  rw [weaveBlocks_added (weave_eq_self_of_added (by simpa using hbegin.2.1)) fun label i => by
    rw [weave_append, weave_eq_self_of_added fun d hd => (hends label i d hd).2.1,
      List.append_assoc]]
  refine weaveBlocks_added (weave_eq_self_of_added (by simpa using hbegin.2.2.1)) fun label i => ?_
  rw [weave_append, weave_eq_self_of_added fun d hd => (hends label i d hd).2.2.1,
    weave_eq_self_of_added fun j hj => (added_eq_nil_of_inserted (hinserted i j hj)).1,
    List.append_assoc, prepared]

/-- The loops insert nothing in a new entry. -/
theorem weave_entryBlock {before : Instruction → Option (List Instruction)}
    (h : ∀ i : Instruction, i.functionName = none →
      ((∃ call, i.kind = .runtime call) ∨ ∃ label, i.kind = .br label) → added before i = [])
    (calls : List RuntimeCall) (label label' next : Nat) :
    weave (fun (_ : Nat) => added before) label (entryBlock calls label' next).insts =
      (entryBlock calls label' next).insts := by
  refine weave_eq_self fun i hi => h i ?_ ?_
  · obtain ⟨kind, -, rfl⟩ := List.mem_map.mp hi
    rfl
  · obtain ⟨kind, hkind, rfl⟩ := List.mem_map.mp hi
    rcases List.mem_append.mp hkind with hkind | hkind
    · obtain ⟨call, -, rfl⟩ := List.mem_map.mp hkind
      exact .inl ⟨call, rfl⟩
    · exact .inr ⟨next, List.mem_singleton.mp hkind⟩

theorem weaveBlocks_newEntry {before : Instruction → Option (List Instruction)}
    (h : ∀ i : Instruction, i.functionName = none →
      ((∃ call, i.kind = .runtime call) ∨ ∃ label, i.kind = .br label) → added before i = [])
    (calls : List RuntimeCall) (blocks : List BasicBlock) :
    weaveBlocks (fun _ => added before) (newEntry calls blocks) =
      newEntry calls (weaveBlocks (fun _ => added before) blocks) := by
  cases blocks with
  | nil => rfl
  | cons first blocks =>
      have hcons : ∀ rest, newEntry calls (weaveBlocks (fun _ => added before) (first :: rest)) =
          entryBlock calls (freshLabel (weaveBlocks (fun _ => added before) (first :: rest)))
            first.label :: weaveBlocks (fun _ => added before) (first :: rest) := fun _ => rfl
      rw [hcons, freshLabel_weaveBlocks, newEntry, weaveBlocks, List.map_cons, weave_entryBlock h]
      rfl

/-- The last two loops over what the first ones have left. -/
theorem weaveBlocks_prepare {ready : List BasicBlock} (hwf : WellFormed plain)
    (hready : prepare f plain = some ready) :
    weaveBlocks (fun _ => added insertFuncBeginEnd) (weaveBlocks (fun _ => added visit) ready) =
      prepend (begins f.name) (weaveBlocks (ghost f.name (lastLabel plain)) plain) := by
  obtain ⟨hloops, hbegins, hends⟩ := added_dummy f.name f.name
  have hvisits : ∀ label i, ∀ d ∈ endGhost f.name (lastLabel plain) label i, added visit d = [] := by
    intro label i d hd
    unfold endGhost at hd
    split at hd
    · exact (hloops d (List.mem_cons_of_mem _ hd)).2.2.2
    · cases hd
  rw [prepare_eq hwf hready]
  rw [weaveBlocks_added (weave_eq_self_of_added (by simpa using (hloops _ (by simp)).2.2.2))
    fun label i => by
      rw [weave_append, weave_eq_self_of_added (hvisits label i), weave_eq_self_of_added
        fun j hj => (added_eq_nil_of_inserted (inserted_of_prepared j hj)).2.1,
        List.append_assoc]]
  refine weaveBlocks_added hbegins fun label i => ?_
  have hothers : ∀ j ∈ prepared f.name i ++ added visit i, Inserted j :=
    List.forall_mem_append.mpr ⟨inserted_of_prepared, added_visit_inserted⟩
  have hend : weave (fun (_ : Nat) => added insertFuncBeginEnd) 0
      (endGhost f.name (lastLabel plain) label i) =
        ends f.name (lastLabel plain) label i := by
    unfold endGhost ends
    split
    · exact hends
    · rfl
  rw [weave_append, hend, weave_eq_self_of_added
    fun j hj => (added_eq_nil_of_inserted (hothers j hj)).2.2, ghost, inserted]
  simp only [List.append_assoc]

/-- **The pass in closed form.** -/
theorem runOnFunction_eq {memoryControlDepMap dataDepMap : DepMap} (hwf : WellFormed f.blocks)
    (h : runOnFunction n memoryControlDepMap dataDepMap f = some (f', true, n')) :
    f'.blocks = instrumented f.name (depCalls memoryControlDepMap ++ depCalls dataDepMap)
      (setInstUniqueID n f.blocks).1 ∧ n' = (setInstUniqueID n f.blocks).2 := by
  unfold runOnFunction at h
  split at h
  · cases h
  obtain ⟨ready, hready, hrest⟩ := Option.bind_eq_some_iff.mp h
  obtain ⟨visited, hvisited, hrest⟩ := Option.bind_eq_some_iff.mp hrest
  obtain ⟨out, hout, hlast⟩ := Option.bind_eq_some_iff.mp hrest
  obtain ⟨rfl, hnext⟩ := Prod.mk.inj (Option.some.inj hlast)
  refine ⟨?_, (Prod.mk.inj hnext).2.symm⟩
  have hvisit : ∀ i : Instruction, i.functionName = none →
      ((∃ call, i.kind = .runtime call) ∨ ∃ label, i.kind = .br label) → added visit i = [] := by
    rintro i - (⟨call, hkind⟩ | ⟨label, hkind⟩) <;> simp [added, visit, hkind]
  have hfunc : ∀ i : Instruction, i.functionName = none →
      ((∃ call, i.kind = .runtime call) ∨ ∃ label, i.kind = .br label) →
        added insertFuncBeginEnd i = [] := by
    intro i hname _
    simp [added, insertFuncBeginEnd, hname]
  have hloops := weaveBlocks_prepare (wellFormed_setInstUniqueID hwf n) hready
  rw [insertBefore_eq hout, insertBefore_eq hvisited]
  unfold instrumented
  split
  · rw [weaveBlocks_newEntry hvisit, weaveBlocks_newEntry hvisit, weaveBlocks_newEntry hfunc,
      weaveBlocks_newEntry hfunc, hloops]
  · rw [weaveBlocks_newEntry hvisit, weaveBlocks_newEntry hfunc, hloops]

end Pass

end PMBugRepair.PMTraceGen
