import PMBugRepair.Transform.Simulation

/-!
# What an instrumented run calls

The calls of the runtime in a run that ends are those of the entry, then what every instruction
stands for: an access its address, a flush its arguments, a fence its place. A persist stands for a
flush and two fences, as the loop that looks for fences finds the one that the flush loop inserted;
only the second of them knows its function.
-/

namespace PMBugRepair.PMTraceGen

open Strings (Text lit)
open Weaving (Meaning Config Next Runs Silent weave weave_append weave_eq_self expand)

/-! ### What the instructions stand for -/

section Calls

variable (parent : Text) (i : Instruction)

/-- The arguments of a flush, the length with 64 bits. -/
def flushArgs (data len : Nat) : Option (Operand × Operand) := do
  let argData ← i.args[data]?
  let argLen ← i.args[len]?
  let bitWidth ← argLen.bits
  if bitWidth = 64 then return (argData, argLen)
  else if bitWidth < 64 then return (argData, .cast argLen)
  else none

def flushOnly (data len : Nat) : List RuntimeCall :=
  ((flushArgs i data len).map fun args => [.flush args.1 args.2 (site i)]).getD []

/-- A flush, a fence without a scope and one with it. Functions named after `clflush` have only the
last one. -/
def flushAndFence (data len : Nat) : List RuntimeCall :=
  ((flushArgs i data len).map fun args => [.flush args.1 args.2 (site i)] ++
    (if lit "clflush" <:+: parent then [] else [.fence { site i with scope := none }]) ++
    [.fence (site i)]).getD []

/-- The calls for a direct call, by the name of the callee. -/
def callsOfName (name : Text) : List RuntimeCall :=
  (if (lit "clflush" <:+: name ∨ lit "simuFlushOpt" <:+: name) ∧
      ¬lit "clflush_new_hashtable" <:+: name then flushOnly i 0 1
    else if lit "pmem_persist" <:+: name ∨ lit "pmem_flush" <:+: name then
      flushAndFence parent i 0 1
    else if lit "pmemobj_persist" <:+: name then flushAndFence parent i 1 2
    else []) ++
  if lit "fence" <:+: name ∧ ¬lit "clflush" <:+: parent then [.fence (site i)] else []

def transactionsOfName (name : Text) : List RuntimeCall :=
  if lit "pmemobj_tx_begin" <:+: name then [.transactionBegins (site i)]
  else if lit "pmemobj_tx_commit" <:+: name then [.transactionCommits (site i)]
  else []

/-- What an instruction of the function stands for. -/
def callsOf : List RuntimeCall :=
  match i.kind with
  | .load (.globalVariable _) _ => []
  | .load pointer size =>
      if ∃ name ∈ pointer.name, lit "pmem_calloc" <:+: name ∨ lit "pmem_free" <:+: name then []
      else [.printLoadAddr (.cast pointer) size i.instToID (site i)]
  | .store pointer size =>
      if pointer = .globalVariable (lit "Inst_Counter") then []
      else [.printStoreAddr (.cast pointer) size i.instToID (site i)]
  | .call (some name) _ => callsOfName parent i name ++ transactionsOfName i name
  | .invoke (some name) => transactionsOfName i name
  | _ => []

end Calls

/-! ### What is inserted calls just that -/

/-- The instruction was written by the programmer. -/
def Instruction.Source (i : Instruction) : Prop :=
  i.functionName = none ∧ ∀ call, i.kind ≠ .runtime call

/-- The calls in a piece of code. -/
def callsIn (insts : List Instruction) : List RuntimeCall :=
  insts.filterMap fun i => runtimeCall (0, i)

section CallsIn

variable {i : Instruction} {parent : Text} {call : RuntimeCall}

@[simp] theorem callsIn_nil : callsIn [] = [] := rfl

@[simp] theorem callsIn_append (front back : List Instruction) :
    callsIn (front ++ back) = callsIn front ++ callsIn back := List.filterMap_append

@[simp] theorem callsIn_callAt {rest : List Instruction} :
    callsIn (callAt i call :: rest) = call :: callsIn rest := rfl

@[simp] theorem callsIn_castAt {operand : Operand} : callsIn (castAt i operand) = [] := by
  unfold castAt
  split <;> rfl

theorem weave_fence_castAt {operand : Operand} :
    weave (fun (_ : Nat) => added (insertFence parent)) 0 (castAt i operand) =
      castAt i operand := by
  refine weave_eq_self fun j hj => ?_
  obtain ⟨k, hk⟩ : ∃ k, j.kind = .cast k := by
    unfold castAt at hj
    split at hj
    · cases hj
    · rw [List.mem_singleton.mp hj]
      exact ⟨operand, rfl⟩
  simp [added, insertFence, Instruction.callee, hk]

theorem weave_fence_flush {ptr len : Operand} {s : Site} :
    weave (fun (_ : Nat) => added (insertFence parent)) 0 [callAt i (.flush ptr len s)] =
      [callAt i (.flush ptr len s)] := by
  have hname : ¬lit "fence" <:+: lit "__flush" := by with_unfolding_all decide
  refine weave_eq_self fun j hj => ?_
  rw [List.mem_singleton.mp hj]
  simp [added, insertFence, Instruction.callee, callAt, RuntimeCall.name, hname]

theorem callsIn_weave_fence {s : Site} :
    callsIn (weave (fun (_ : Nat) => added (insertFence parent)) 0 [callAt i (.fence s)]) =
      (if lit "clflush" <:+: parent then [] else [.fence { site i with scope := none }]) ++
        [.fence s] := by
  have hname : lit "fence" <:+: lit "__fence" := by with_unfolding_all decide
  have hadded : added (insertFence parent) (callAt i (.fence s)) =
      if lit "clflush" <:+: parent then []
      else [callAt (callAt i (.fence s)) (.fence { site i with scope := none })] := by
    simp only [added, insertFence, Instruction.callee, callAt, RuntimeCall.name, hname, true_and,
      ite_not]
    split <;> rfl
  rw [Weaving.weave_cons, hadded, Weaving.weave_nil]
  split <;> rfl

theorem flushCall_cases (i : Instruction) (data len : Nat) :
    (flushArgs i data len = none ∧ flushCall i data len = none) ∨
      ∃ ptr length casts, flushArgs i data len = some (ptr, length) ∧
        flushCall i data len = some (casts ++ [callAt i (.flush ptr length (site i))]) ∧
        (casts = [] ∨ ∃ operand, casts = castAt i operand) := by
  unfold flushArgs flushCall
  cases i.args[data]? with
  | none => exact .inl ⟨rfl, rfl⟩
  | some argData =>
      cases i.args[len]? with
      | none => exact .inl ⟨rfl, rfl⟩
      | some argLen =>
          cases hbits : argLen.bits with
          | none => exact .inl (by simp [hbits])
          | some bitWidth =>
              simp only [Option.bind_eq_bind, Option.bind_some, hbits]
              split
              · exact .inr ⟨argData, argLen, [], rfl, rfl, .inl rfl⟩
              · split
                · exact .inr ⟨argData, .cast argLen, _, rfl, rfl, .inr ⟨argLen, rfl⟩⟩
                · exact .inl ⟨rfl, rfl⟩

/-- Two loops over a flush and what was inserted behind it. -/
theorem callsIn_weave_flush {casts behind : List Instruction} {ptr len : Operand}
    (h : casts = [] ∨ ∃ operand, casts = castAt i operand) :
    callsIn (weave (fun (_ : Nat) => added (insertFence parent)) 0
      (casts ++ [callAt i (.flush ptr len (site i))] ++ behind)) =
        .flush ptr len (site i) ::
          callsIn (weave (fun (_ : Nat) => added (insertFence parent)) 0 behind) := by
  rw [weave_append, weave_append, weave_fence_flush]
  rcases h with rfl | ⟨operand, rfl⟩
  · simp
  · simp [weave_fence_castAt]

theorem callsIn_flush {data len : Nat} : callsIn (weave
    (fun (_ : Nat) => added (insertFence parent)) 0 ((flushCall i data len).getD [])) =
      flushOnly i data len := by
  rcases flushCall_cases i data len with ⟨hargs, hcall⟩ | ⟨ptr, length, casts, hargs, hcall, hcasts⟩
  · simp [flushOnly, hargs, hcall]
  · have hweave := @callsIn_weave_flush i parent casts [] ptr length hcasts
    rw [List.append_nil, Weaving.weave_nil, callsIn_nil] at hweave
    simp [flushOnly, hargs, hcall, hweave]

theorem callsIn_flushAndFence {data len : Nat} : callsIn (weave
    (fun (_ : Nat) => added (insertFence parent)) 0 ((do
      return (← flushCall i data len) ++ [callAt i (.fence (site i))]).getD [])) =
        flushAndFence parent i data len := by
  rcases flushCall_cases i data len with ⟨hargs, hcall⟩ | ⟨ptr, length, casts, hargs, hcall, hcasts⟩
  · simp [flushAndFence, hargs, hcall]
  · have hweave :=
      @callsIn_weave_flush i parent casts [callAt i (.fence (site i))] ptr length hcasts
    rw [callsIn_weave_fence] at hweave
    simp only [flushAndFence, hargs, hcall, Option.bind_eq_bind, Option.bind_some, Option.pure_def,
      Option.getD_some, hweave, Option.map_some]
    rfl

theorem callsIn_insertFlush : callsIn (weave
    (fun (_ : Nat) => added (insertFence parent)) 0 (added insertFlush i)) ++
      callsIn (added (insertFence parent) i) = (i.callee.map (callsOfName parent i)).getD [] := by
  unfold added insertFlush insertFence
  cases i.callee with
  | none => rfl
  | some name =>
      simp only [Option.map_some, Option.getD_some, callsOfName]
      congr 1
      · split
        · exact callsIn_flush
        · split
          · exact callsIn_flushAndFence
          · split
            · exact callsIn_flushAndFence
            · rfl
      · split <;> rfl

theorem callsIn_insertTransactions (i : Instruction) : callsIn (added insertTransactions i) =
    match i.kind with
    | .invoke callee => (callee.map (transactionsOfName i)).getD []
    | _ => (i.callee.map (transactionsOfName i)).getD [] := by
  have hname : ∀ callee : Option Text, callsIn ((transactionCalls i callee).getD []) =
      (callee.map (transactionsOfName i)).getD [] := by
    intro callee
    cases callee with
    | none => rfl
    | some name =>
        simp only [transactionCalls, Option.map_some, Option.getD_some, transactionsOfName]
        split
        · rfl
        · split <;> rfl
  cases hkind : i.kind <;> simp only [added, insertTransactions, hkind] <;> exact hname _

theorem callsIn_visit (i : Instruction) : callsIn (added visit i) =
    match i.kind with
    | .load _ _ => callsOf parent i
    | .store _ _ => callsOf parent i
    | _ => [] := by
  cases hkind : i.kind with
  | load pointer size =>
      cases pointer with
      | globalVariable name => simp [added, visit, callsOf, hkind]
      | _ =>
          simp only [added, visit, callsOf, hkind]
          split <;> simp
  | store pointer size =>
      simp only [added, visit, callsOf, hkind]
      split <;> simp
  | _ => simp [added, visit, hkind]

theorem callsIn_inserted (h : i.Source) : callsIn (inserted parent i) = callsOf parent i := by
  obtain ⟨hfunc, hruntime⟩ := h
  have hlast : added insertFuncBeginEnd i = [] := by simp [added, insertFuncBeginEnd, hfunc]
  rw [inserted, prepared, hlast, List.append_nil, callsIn_append, callsIn_append, callsIn_append,
    callsIn_insertFlush, callsIn_insertTransactions, @callsIn_visit parent]
  cases hkind : i.kind with
  | runtime call => exact absurd hkind (hruntime call)
  | call callee args => cases callee <;> simp [callsOf, Instruction.callee, hkind]
  | invoke callee => cases callee <;> simp [callsOf, Instruction.callee, hkind]
  | _ => simp [callsOf, Instruction.callee, hkind]

end CallsIn

/-! ### Whole runs -/

/-- The calls for the terminator of the last block. -/
def callsAtEnd (func : Text) (last label : Nat) (i : Instruction) : List RuntimeCall :=
  if label = last ∧ i.isTerminator = true then
    [.funcEnd (getOrCreateGlobalStringPtr func), .dummyEnd]
  else []

/-- The calls of the entry of a function. -/
def callsAtEntry (func : Text) (deps : List RuntimeCall) : List RuntimeCall :=
  (if func = lit "main" then [.pmcInitialize] else []) ++ deps ++
    [.funcBegin (getOrCreateGlobalStringPtr func), .dummyBegin]

section Runs

variable {func : Text} {deps : List RuntimeCall} {plain : List BasicBlock}
  {done : List (Nat × Instruction)}

theorem filterMap_runtimeCall (insts : List Instruction) (label : Nat) :
    (insts.map (label, ·)).filterMap runtimeCall = callsIn insts := by
  rw [List.filterMap_map]
  rfl

theorem filterMap_prologue (h : plain ≠ []) :
    (prologue func deps plain).filterMap runtimeCall = callsAtEntry func deps := by
  have hentry : ∀ (calls : List RuntimeCall) (label next : Nat),
      callsIn (entryBlock calls label next).insts = calls := by
    intro calls label next
    rw [callsIn, entryBlock, List.map_append, List.filterMap_append, List.map_map,
      List.filterMap_map]
    have hcalls : calls.filterMap (some ·) = calls := List.filterMap_some
    have hlast : ([Kind.br next].map fun kind =>
        (⟨kind, none, none, none⟩ : Instruction)).filterMap (fun i => runtimeCall (0, i)) = [] :=
      rfl
    rw [hlast, List.append_nil]
    exact hcalls
  obtain ⟨first, rest, rfl⟩ := List.exists_cons_of_ne_nil h
  have hbegins : callsIn (begins func) =
      [.funcBegin (getOrCreateGlobalStringPtr func), .dummyBegin] := rfl
  rw [prologue, callsAtEntry]
  rw [List.filterMap_append, List.filterMap_append, filterMap_runtimeCall, filterMap_runtimeCall,
    hentry, hbegins]
  split
  · rw [filterMap_runtimeCall, hentry]
  · rfl

theorem filterMap_expand {last : Nat} (hdone : ∀ event ∈ done, event.2.Source) :
    (expand (ghost func last) done).filterMap runtimeCall =
      done.flatMap fun event => callsAtEnd func last event.1 event.2 ++ callsOf func event.2 := by
  induction done with
  | nil => rfl
  | cons event done ih =>
      obtain ⟨hevent, hrest⟩ := List.forall_mem_cons.mp hdone
      have hnone : callsIn [event.2] = [] := by
        have hcall : runtimeCall (0, event.2) = none := by
          unfold runtimeCall
          split
          · exact absurd ‹_› (hevent.2 _)
          · rfl
        simp [callsIn, hcall]
      have hends : callsIn (ends func last event.1 event.2) =
          callsAtEnd func last event.1 event.2 := by
        unfold ends callsAtEnd
        split <;> rfl
      have hcons : expand (ghost func last) (event :: done) =
          (ghost func last event.1 event.2 ++ [event.2]).map (event.1, ·) ++
            expand (ghost func last) done := by
        simp [expand]
      rw [hcons, List.filterMap_append, filterMap_runtimeCall, ih hrest, callsIn_append, hnone,
        ghost, callsIn_append, hends, callsIn_inserted hevent, List.append_nil, List.flatMap_cons]

end Runs

/-- **What an instrumented run calls.** In a run of the instrumented function that ends, the calls
of the runtime are those of the entry and then, in the order of the instructions of the function,
what each of them stands for. -/
theorem runOnFunction_calls {σ : Type} {meaning : Meaning Nat Instruction σ}
    {same : σ → σ → Prop} {f f' : IRFunction} {n n' : Nat} {memoryControlDepMap dataDepMap : DepMap}
    (hwf : WellFormed f.blocks) (hsource : ∀ block ∈ f.blocks, ∀ i ∈ block.insts, i.Source)
    (hpass : runOnFunction n memoryControlDepMap dataDepMap f = some (f', true, n'))
    (h : Understands meaning same (setInstUniqueID n f.blocks).1) {s : σ}
    {done : List (Nat × Instruction)} {final : Config Nat Instruction σ}
    (hruns : Runs meaning (codeOf f'.blocks) (startOf f'.blocks s) done final)
    (hend : final.rest = []) :
    done.filterMap runtimeCall =
      callsAtEntry f.name (depCalls memoryControlDepMap ++ depCalls dataDepMap) ++
        (done.filter original).flatMap fun event =>
          callsAtEnd f.name (lastLabel f.blocks) event.1 event.2 ++ callsOf f.name event.2 := by
  have hwf' := wellFormed_setInstUniqueID hwf n
  have hlast : lastLabel (setInstUniqueID n f.blocks).1 = lastLabel f.blocks := by
    rw [lastLabel, lastLabel, ← List.getLast?_map, ← List.getLast?_map, setInstUniqueID_labels]
  rw [(runOnFunction_eq hwf hpass).1] at hruns
  rcases h.cases_of_runs hwf' (h.equivalence.refl s) hruns with ⟨-, -, hrest, -⟩ |
    ⟨plainDone, plainFinal, front, hplain, rfl, hstarted, hsplit, -⟩
  · exact absurd hend hrest
  · have hdone : ∀ event ∈ plainDone, event.2.Source :=
      forall_of_runs (fun block hblock i hi _ => hsource block hblock i hi) hplain
    have hfront : front = [] := by
      have hnil := (hstarted.rest_eq_nil_iff hsplit).mpr hend
      rw [hnil, hend, List.append_nil] at hsplit
      exact hsplit
    rw [hfront, List.map_nil, List.append_nil, List.filterMap_append,
      filterMap_prologue hwf'.nonempty, filterMap_expand hdone, List.filter_append,
      filter_original_prologue, List.nil_append, filter_original_expand (original_of_runs hplain),
      hlast]

/-- The calls of a function that persists: the first of the two fences has no scope. -/
theorem runOnFunction_calls_put : ∃ f' n' done final, runOnFunction 0 [] [] put =
      some (f', true, n') ∧
    Runs counting (codeOf f'.blocks) (startOf f'.blocks 0) done final ∧ final.rest = [] ∧
    done.filterMap runtimeCall =
      [.funcBegin (some (lit "put")), .dummyBegin,
        .flush (.named (some (lit "node")) none 1) (.constant (some 64) 8) ⟨5, 3, some (lit "put")⟩,
        .fence ⟨5, 3, none⟩, .fence ⟨5, 3, some (lit "put")⟩, .funcEnd (some (lit "put")),
        .dummyEnd] := by
  obtain ⟨f', n', hpass⟩ := exists_runOnFunction_put
  obtain ⟨done, final, hplain, hrest, hdone⟩ : ∃ done final,
      Runs counting (codeOf (setInstUniqueID 0 put.blocks).1)
        (startOf (setInstUniqueID 0 put.blocks).1 0) done final ∧ final.rest = [] ∧
      done = [(0, { persistCall with uniqueID := some 0 }),
        (0, { putReturn with uniqueID := some 1 })] := by
    have hcall : counting { persistCall with uniqueID := some 0 } 0 .fall 1 := ⟨rfl, rfl⟩
    have hret : counting { putReturn with uniqueID := some 1 } 1 .leave 1 := ⟨rfl, rfl⟩
    exact ⟨_, _, (Runs.start.step hcall).step hret, rfl, rfl⟩
  obtain ⟨t, hruns, -⟩ := @Understands.exists_runs _ counting Eq _ put.name
    (depCalls [] ++ depCalls []) _ _ _ _ understands_put
    (wellFormed_setInstUniqueID put_wellFormed 0) rfl hplain
  rw [← (runOnFunction_eq put_wellFormed hpass).1] at hruns
  have hend : weave (ghost put.name (lastLabel (setInstUniqueID 0 put.blocks).1)) final.label
      final.rest = [] := Weaving.weave_eq_nil_iff.mpr hrest
  have hsource : ∀ block ∈ put.blocks, ∀ i ∈ block.insts, i.Source := by
    simp [put, Instruction.Source, persistCall, putReturn]
  refine ⟨f', n', _, _, hpass, hruns, hend, ?_⟩
  rw [runOnFunction_calls put_wellFormed hsource hpass understands_put hruns hend,
    List.filter_append, filter_original_prologue, List.nil_append,
    filter_original_expand (original_of_runs hplain), hdone]
  with_unfolding_all decide

end PMBugRepair.PMTraceGen
