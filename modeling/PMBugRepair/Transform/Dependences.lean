import PMBugRepair.Transform.ControlDependence
import PMBugRepair.Transform.Instrument

/-!
# The dependences of a function

From the control dependences of the blocks `PMDependency` collects those of the accesses; the
pointer operands of address computations are added to them, and what the memory SSA form gives is
kept in a map of its own. The pass tells the runtime all entries of both maps at the begin of the
function.
-/

namespace PMBugRepair

open Flow (Graph)
open PMTraceGen (Instruction RuntimeCall DepMap depCalls)

/-- What the analysis asks of the instructions of a function. `gepOperand` is the pointer operand of
a `getelementptr` if it is an instruction. -/
structure Body (β ι : Type) where
  insts : β → List ι
  isLoad : ι → Bool
  isStore : ι → Bool
  gepOperand : ι → Option ι

/-- The access of an instruction. -/
structure MemoryUseOrDef (ι α : Type) where
  isUse : Bool
  memoryInst : ι
  operand : α

inductive MemoryAccess (ι α : Type) where
  | useOrDef (access : MemoryUseOrDef ι α)
  | liveOnEntry
  | phi (operands : List α)

/-- The memory SSA form, which comes from LLVM. -/
structure MemorySSA (ι α : Type) where
  getMemoryAccess : ι → Option (MemoryUseOrDef ι α)
  access : α → MemoryAccess ι α

def MemoryAccess.memoryInst {ι α : Type} : MemoryAccess ι α → Option ι
  | useOrDef access => some access.memoryInst
  | _ => none

/-- The instructions behind an operand: its own, or those of the operands of a phi. A phi behind a
phi is passed over. -/
def MemorySSA.sources {ι α : Type} (ssa : MemorySSA ι α) (operand : α) : List ι :=
  match ssa.access operand with
  | .useOrDef access => [access.memoryInst]
  | .liveOnEntry => []
  | .phi operands => operands.filterMap fun operand => (ssa.access operand).memoryInst

section Analysis

variable {β ι α : Type} (blockMaps : MapVector β β) (instMaps : MapVector ι ι)

/-- `MemoryDepAnalysis`: every access of a block gets the loads of the blocks that control it. -/
def memoryDepAnalysis (body : Body β ι) (controlDepMap : blockMaps.Map) : instMaps.Map :=
  (blockMaps.keys controlDepMap).foldl (fun map bb =>
    (blockMaps.get controlDepMap bb).foldl (fun map cdbb =>
      (body.insts cdbb).foldl (fun map i =>
        if body.isStore i || body.isLoad i then
          ((body.insts bb).filter body.isLoad).foldl (fun map load =>
            instMaps.pushBack map i load) map
        else map) map) map) instMaps.empty

def gepAnalysis (cfg : Cfg β) (body : Body β ι) (memoryDepMap : instMaps.Map) : instMaps.Map :=
  cfg.blocks.foldl (fun map bb =>
    (body.insts bb).foldl (fun map i =>
      (body.gepOperand i).toList.foldl (fun map dep => instMaps.pushBack map i dep) map) map)
    memoryDepMap

def dataDepAnalysis (cfg : Cfg β) (body : Body β ι) (ssa : MemorySSA ι α) : instMaps.Map :=
  cfg.blocks.foldl (fun map bb =>
    (body.insts bb).foldl (fun map i =>
      (ssa.getMemoryAccess i).toList.foldl (fun map access =>
        (ssa.sources access.operand).foldl
          (fun map source => instMaps.pushBack map access.memoryInst source)
          (if access.isUse then instMaps.touch map access.memoryInst else map)) map) map)
    instMaps.empty

/-- The two maps that the pass gets. -/
def dependencyMaps [DecidableEq β] (cfg : Cfg β) (pdt : PostDominatorTree β) (body : Body β ι)
    (ssa : MemorySSA ι α) : Option (instMaps.Map × instMaps.Map) := do
  let controlDepMap ← controlDepAnalysis blockMaps cfg pdt
  return (gepAnalysis instMaps cfg body (memoryDepAnalysis blockMaps instMaps body controlDepMap),
    dataDepAnalysis instMaps cfg body ssa)

end Analysis

/-! ### What the maps hold -/

section Maps

variable {β ι α : Type} [DecidableEq ι] {blockMaps : MapVector β β} {instMaps : MapVector ι ι}
  {cfg : Cfg β} {body : Body β ι} {ssa : MemorySSA ι α} {i j : ι}

theorem mem_get_memoryDepAnalysis [DecidableEq β] (hblocks : blockMaps.Lawful)
    (hinsts : instMaps.Lawful) {controlDepMap : blockMaps.Map} :
    j ∈ instMaps.get (memoryDepAnalysis blockMaps instMaps body controlDepMap) i ↔
      ∃ a b, b ∈ blockMaps.get controlDepMap a ∧ (j ∈ body.insts a ∧ body.isLoad j) ∧
        i ∈ body.insts b ∧ (body.isStore i ∨ body.isLoad i) := by
  have haccess : ∀ bb (map : instMaps.Map) (x key value : ι),
      value ∈ instMaps.get (if body.isStore x || body.isLoad x then
        ((body.insts bb).filter body.isLoad).foldl (fun map load =>
          instMaps.pushBack map x load) map
        else map) key ↔ value ∈ instMaps.get map key ∨ ((body.isStore x ∨ body.isLoad x) ∧ key = x ∧
          value ∈ body.insts bb ∧ body.isLoad value) := by
    intro bb map x key value
    split
    · rename_i hx
      rw [hinsts.mem_get_foldl_pushBack, List.mem_filter]
      simp only [Bool.or_eq_true] at hx
      simp [hx]
    · rename_i hx
      simp only [Bool.or_eq_true] at hx
      simp [hx]
  rw [memoryDepAnalysis, MapVector.Lawful.mem_get_foldl fun map bb key value =>
      MapVector.Lawful.mem_get_foldl (fun map cdbb key value =>
        MapVector.Lawful.mem_get_foldl (haccess bb) (body.insts cdbb))
        (blockMaps.get controlDepMap bb),
    or_iff_right hinsts.not_mem_get_empty]
  constructor
  · rintro ⟨a, -, b, hb, x, hx, hkind, rfl, hload⟩
    exact ⟨a, b, hb, hload, hx, hkind⟩
  · rintro ⟨a, b, hb, hload, hi, hkind⟩
    exact ⟨a, hblocks.mem_keys hb, b, hb, i, hi, hkind, rfl, hload⟩

theorem mem_get_gepAnalysis (hinsts : instMaps.Lawful) {map : instMaps.Map} :
    j ∈ instMaps.get (gepAnalysis instMaps cfg body map) i ↔
      j ∈ instMaps.get map i ∨
        ∃ b ∈ cfg.blocks, i ∈ body.insts b ∧ body.gepOperand i = some j := by
  have hloop : ∀ (map : instMaps.Map) (x key value : ι),
      value ∈ instMaps.get ((body.gepOperand x).toList.foldl
        (fun map dep => instMaps.pushBack map x dep) map) key ↔
        value ∈ instMaps.get map key ∨ (key = x ∧ body.gepOperand x = some value) := by
    intro map x key value
    rw [hinsts.mem_get_foldl_pushBack, Option.mem_toList]
  rw [gepAnalysis, MapVector.Lawful.mem_get_foldl fun map bb key value =>
    MapVector.Lawful.mem_get_foldl hloop (body.insts bb)]
  refine or_congr_right (exists_congr fun b => and_congr_right fun _ => ?_)
  constructor
  · rintro ⟨x, hx, rfl, hdep⟩
    exact ⟨hx, hdep⟩
  · rintro ⟨hi, hdep⟩
    exact ⟨i, hi, rfl, hdep⟩

theorem mem_get_dataDepAnalysis (hinsts : instMaps.Lawful) :
    j ∈ instMaps.get (dataDepAnalysis instMaps cfg body ssa) i ↔
      ∃ b ∈ cfg.blocks, ∃ x ∈ body.insts b, ∃ access, ssa.getMemoryAccess x = some access ∧
        i = access.memoryInst ∧ j ∈ ssa.sources access.operand := by
  have hloop : ∀ (map : instMaps.Map) (access : MemoryUseOrDef ι α) (key value : ι),
      value ∈ instMaps.get ((ssa.sources access.operand).foldl
        (fun map source => instMaps.pushBack map access.memoryInst source)
        (if access.isUse then instMaps.touch map access.memoryInst else map)) key ↔
        value ∈ instMaps.get map key ∨
          (key = access.memoryInst ∧ value ∈ ssa.sources access.operand) := by
    intro map access key value
    rw [hinsts.mem_get_foldl_pushBack]
    split
    · rw [hinsts.get_touch]
    · rfl
  rw [dataDepAnalysis, MapVector.Lawful.mem_get_foldl fun map bb key value =>
      MapVector.Lawful.mem_get_foldl (fun map x key value =>
        MapVector.Lawful.mem_get_foldl hloop (ssa.getMemoryAccess x).toList) (body.insts bb),
    or_iff_right hinsts.not_mem_get_empty]
  simp only [Option.mem_toList]

end Maps

/-! ### Dependences -/

section Depends

variable {β ι α : Type}

/-- The second instruction depends on the first: it accesses memory in a block that the block of the
load controls, it computes an address from it, or the memory SSA form has it behind the access. Only
control dependences of the blocks in `seen` count. -/
inductive Depends (cfg : Cfg β) (body : Body β ι) (ssa : MemorySSA ι α) (seen : β → Prop) :
    ι → ι → Prop where
  | control {a b : β} {i j : ι} (hseen : seen b) (hdep : cfg.graph.ControlDependent b a)
      (hi : i ∈ body.insts a) (hload : body.isLoad i) (hj : j ∈ body.insts b)
      (haccess : body.isStore j ∨ body.isLoad j) : Depends cfg body ssa seen i j
  | pointer {b : β} {i j : ι} (hj : j ∈ body.insts b) (hoperand : body.gepOperand j = some i) :
      Depends cfg body ssa seen i j
  | memory {b : β} {i x : ι} {access : MemoryUseOrDef ι α} (hx : x ∈ body.insts b)
      (haccess : ssa.getMemoryAccess x = some access) (hi : i ∈ ssa.sources access.operand) :
      Depends cfg body ssa seen i access.memoryInst

variable {cfg : Cfg β} {body : Body β ι} {ssa : MemorySSA ι α} {i j : ι}

theorem Depends.mono {seen seen' : β → Prop}
    (himp : ∀ a b, cfg.graph.ControlDependent b a → seen b → seen' b)
    (h : Depends cfg body ssa seen i j) : Depends cfg body ssa seen' i j := by
  cases h with
  | control hseen hdep hi hload hj haccess =>
      exact .control (himp _ _ hdep hseen) hdep hi hload hj haccess
  | pointer hj hoperand => exact .pointer hj hoperand
  | memory hx haccess hi => exact .memory hx haccess hi

/-- Where the traversal covers the function nothing is missed. -/
theorem Depends.of_covered (hvalid : cfg.Valid) {r : β} (hcovered : cfg.Covered r)
    {seen : β → Prop} (h : Depends cfg body ssa seen i j) :
    Depends cfg body ssa (cfg.graph.PostDominates r) i j :=
  h.mono fun _ _ hdep _ => hcovered.postDominates hvalid hdep

variable [DecidableEq β] [DecidableEq ι] {blockMaps : MapVector β β} {instMaps : MapVector ι ι}
  {pdt : PostDominatorTree β} {memoryDepMap dataDepMap : instMaps.Map}

/-- The maps hold the dependences, as far as the traversal has seen the blocks. -/
theorem exists_depends_iff (hblocks : blockMaps.Lawful) (hinsts : instMaps.Lawful)
    (hvalid : cfg.Valid) (hpdt : pdt.Correct cfg)
    (h : dependencyMaps blockMaps instMaps cfg pdt body ssa = some (memoryDepMap, dataDepMap)) :
    ∃ r, cfg.LastRoot r ∧
      ∀ i j, i ∈ instMaps.get memoryDepMap j ∨ i ∈ instMaps.get dataDepMap j ↔
        Depends cfg body ssa (cfg.graph.PostDominates r) i j := by
  obtain ⟨controlDepMap, hcontrol, heq⟩ := Option.bind_eq_some_iff.mp h
  obtain ⟨rfl, rfl⟩ := Prod.mk.inj (Option.some.inj heq)
  obtain ⟨r, hr, -, -, -, hget⟩ := mem_get_controlDep hblocks hvalid hpdt hcontrol
  refine ⟨r, hr, fun i j => ?_⟩
  rw [mem_get_gepAnalysis hinsts, mem_get_memoryDepAnalysis hblocks hinsts,
    mem_get_dataDepAnalysis hinsts]
  constructor
  · rintro ((⟨a, b, hdep, ⟨hi, hload⟩, hj, haccess⟩ | ⟨b, -, hj, hoperand⟩) |
      ⟨b, -, x, hx, access, haccess, rfl, hi⟩)
    · obtain ⟨hseen, hdep⟩ := (hget a b).mp hdep
      exact .control hseen hdep hi hload hj haccess
    · exact .pointer hj hoperand
    · exact .memory hx haccess hi
  · intro hdepends
    cases hdepends with
    | control hseen hdep hi hload hj haccess =>
        exact .inl (.inl ⟨_, _, (hget _ _).mpr ⟨hseen, hdep⟩, ⟨hi, hload⟩, hj, haccess⟩)
    | pointer hj hoperand => exact .inl (.inr ⟨_, hvalid.mem_blocks _, hj, hoperand⟩)
    | memory hx haccess hi => exact .inr ⟨_, hvalid.mem_blocks _, _, hx, _, haccess, rfl, hi⟩

end Depends

/-! ### What the runtime is told -/

/-- The map as the pass goes through it, with the instructions behind the pointers. -/
def toDepMap {ι : Type} (instMaps : MapVector ι ι) (inst : ι → Instruction)
    (map : instMaps.Map) : DepMap :=
  (instMaps.keys map).map fun key => (inst key, (instMaps.get map key).map inst)

theorem mem_depCalls_toDepMap {ι : Type} [DecidableEq ι] {instMaps : MapVector ι ι}
    (hinsts : instMaps.Lawful) {inst : ι → Instruction} {map : instMaps.Map}
    {id1 id2 : BitVec 32} :
    RuntimeCall.depAdd id1 id2 ∈ depCalls (toDepMap instMaps inst map) ↔
      ∃ i j, i ∈ instMaps.get map j ∧ id1 = (inst i).instToID ∧ id2 = (inst j).instToID := by
  rw [depCalls, List.mem_flatMap]
  constructor
  · rintro ⟨pair, hpair, hcall⟩
    obtain ⟨j, -, rfl⟩ := List.mem_map.mp hpair
    obtain ⟨x, hmem, heq⟩ := List.mem_map.mp hcall
    obtain ⟨i, hi, rfl⟩ := List.mem_map.mp hmem
    obtain ⟨rfl, rfl⟩ := RuntimeCall.depAdd.inj heq
    exact ⟨i, j, hi, rfl, rfl⟩
  · rintro ⟨i, j, hi, rfl, rfl⟩
    exact ⟨_, List.mem_map_of_mem (hinsts.mem_keys hi),
      List.mem_map_of_mem (List.mem_map_of_mem hi)⟩

/-- A function whose dependences were collected: no assertion failed, and no list was read where it
no longer was. -/
structure Analyzed where
  {β ι α : Type}
  [decidableBlock : DecidableEq β]
  [decidableInst : DecidableEq ι]
  blockMaps : MapVector β β
  instMaps : MapVector ι ι
  cfg : Cfg β
  pdt : PostDominatorTree β
  body : Body β ι
  ssa : MemorySSA ι α
  inst : ι → Instruction
  memoryDepMap : instMaps.Map
  dataDepMap : instMaps.Map
  lawfulBlocks : blockMaps.Lawful
  lawfulInsts : instMaps.Lawful
  valid : cfg.Valid
  correct : pdt.Correct cfg
  maps : dependencyMaps blockMaps instMaps cfg pdt body ssa = some (memoryDepMap, dataDepMap)

attribute [instance] Analyzed.decidableBlock Analyzed.decidableInst

namespace Analyzed

/-- What the new first block of the function calls. -/
def calls (f : Analyzed) : List RuntimeCall :=
  depCalls (toDepMap f.instMaps f.inst f.memoryDepMap) ++
    depCalls (toDepMap f.instMaps f.inst f.dataDepMap)

/-- An instruction with the second number depends on one with the first. -/
def Edge (f : Analyzed) (seen : f.β → Prop) (src dest : BitVec 32) : Prop :=
  ∃ i j, Depends f.cfg f.body f.ssa seen i j ∧
    src = (f.inst i).instToID ∧ dest = (f.inst j).instToID

theorem mem_calls {f : Analyzed} {src dest : BitVec 32} :
    RuntimeCall.depAdd src dest ∈ f.calls ↔
      ∃ i j, (i ∈ f.instMaps.get f.memoryDepMap j ∨ i ∈ f.instMaps.get f.dataDepMap j) ∧
        src = (f.inst i).instToID ∧ dest = (f.inst j).instToID := by
  rw [calls, List.mem_append, mem_depCalls_toDepMap f.lawfulInsts,
    mem_depCalls_toDepMap f.lawfulInsts]
  constructor
  · rintro (⟨i, j, hmem, hids⟩ | ⟨i, j, hmem, hids⟩)
    · exact ⟨i, j, .inl hmem, hids⟩
    · exact ⟨i, j, .inr hmem, hids⟩
  · rintro ⟨i, j, hmem | hmem, hids⟩
    · exact .inl ⟨i, j, hmem, hids⟩
    · exact .inr ⟨i, j, hmem, hids⟩

theorem exists_mem_calls_iff (f : Analyzed) :
    ∃ r, f.cfg.LastRoot r ∧ ∀ src dest, RuntimeCall.depAdd src dest ∈ f.calls ↔
      f.Edge (f.cfg.graph.PostDominates r) src dest := by
  obtain ⟨r, hr, hdepends⟩ :=
    exists_depends_iff f.lawfulBlocks f.lawfulInsts f.valid f.correct f.maps
  refine ⟨r, hr, fun src dest => ?_⟩
  simp only [mem_calls, hdepends, Edge]

theorem Edge.mono {f : Analyzed} {seen seen' : f.β → Prop} {src dest : BitVec 32}
    (himp : ∀ b, seen b → seen' b) (h : f.Edge seen src dest) : f.Edge seen' src dest := by
  obtain ⟨i, j, hdepends, hids⟩ := h
  exact ⟨i, j, hdepends.mono fun _ b _ => himp b, hids⟩

theorem Edge.of_covered {f : Analyzed} {r : f.β} (hcovered : f.cfg.Covered r)
    {seen : f.β → Prop} {src dest : BitVec 32} (h : f.Edge seen src dest) :
    f.Edge (f.cfg.graph.PostDominates r) src dest := by
  obtain ⟨i, j, hdepends, hids⟩ := h
  exact ⟨i, j, hdepends.of_covered f.valid hcovered, hids⟩

theorem lastRoot_unique {f : Analyzed} {r r' : f.β} (hr : f.cfg.LastRoot r)
    (hr' : f.cfg.LastRoot r') : r = r' := by
  have hroot := (setPDTRootNode_of_lastRoot f.correct hr).symm.trans
    (setPDTRootNode_of_lastRoot f.correct hr')
  rw [← f.correct.block r, ← f.correct.block r', Option.some.inj hroot]

theorem edge_of_mem_calls {f : Analyzed} {src dest : BitVec 32}
    (h : RuntimeCall.depAdd src dest ∈ f.calls) : f.Edge (fun _ => True) src dest := by
  obtain ⟨r, -, hiff⟩ := f.exists_mem_calls_iff
  exact ((hiff src dest).mp h).mono fun _ _ => trivial

theorem mem_calls_of_covered {f : Analyzed} {r : f.β} (hcovered : f.cfg.Covered r)
    {src dest : BitVec 32} (h : f.Edge (fun _ => True) src dest) :
    RuntimeCall.depAdd src dest ∈ f.calls := by
  obtain ⟨r', hr', hiff⟩ := f.exists_mem_calls_iff
  obtain rfl := lastRoot_unique hcovered.root hr'
  exact (hiff src dest).mpr (h.of_covered hcovered)

/-- **What a function tells the runtime.** The calls at its begin name the dependences between its
instructions, except for those by control of blocks that the root of the traversal does not
post-dominate. If the root covers the function, they name them all. -/
theorem mem_calls_iff_edge (f : Analyzed) :
    ∃ r, f.cfg.LastRoot r ∧
      (∀ src dest, RuntimeCall.depAdd src dest ∈ f.calls ↔
        f.Edge (f.cfg.graph.PostDominates r) src dest) ∧
      (f.cfg.Covered r → ∀ src dest, RuntimeCall.depAdd src dest ∈ f.calls ↔
        f.Edge (fun _ => True) src dest) := by
  obtain ⟨r, hr, hiff⟩ := f.exists_mem_calls_iff
  exact ⟨r, hr, hiff, fun hcovered _ _ => ⟨edge_of_mem_calls, mem_calls_of_covered hcovered⟩⟩

end Analyzed

/-! ### A guarded store -/

/-- `if (*p) *q = 1;` -/
def guardedBody : Body (Fin 3) (Fin 2) where
  insts := ![[0], [1], []]
  isLoad := ![true, false]
  isStore := ![false, true]
  gepOperand := fun _ => none

def guardedSSA : MemorySSA (Fin 2) Unit where
  getMemoryAccess := ![some ⟨true, 0, ()⟩, some ⟨false, 1, ()⟩]
  access := fun _ => .liveOnEntry

theorem isSome_dependencyMaps_guarded : (dependencyMaps (MapVector.vectorMap (Fin 3) (Fin 3))
    (MapVector.vectorMap (Fin 2) (Fin 2)) ifThen ifThenTree guardedBody guardedSSA).isSome =
      true := by
  with_unfolding_all decide

/-- The load has the number 70 and the store 71. -/
def guarded : Analyzed where
  blockMaps := MapVector.vectorMap (Fin 3) (Fin 3)
  instMaps := MapVector.vectorMap (Fin 2) (Fin 2)
  cfg := ifThen
  pdt := ifThenTree
  body := guardedBody
  ssa := guardedSSA
  inst := fun i =>
    { kind := .other, debugLoc := none, uniqueID := some (.ofNat 32 (70 + i))
      functionName := none }
  memoryDepMap := ((dependencyMaps _ _ ifThen ifThenTree guardedBody guardedSSA).get
    isSome_dependencyMaps_guarded).1
  dataDepMap := ((dependencyMaps _ _ ifThen ifThenTree guardedBody guardedSSA).get
    isSome_dependencyMaps_guarded).2
  lawfulBlocks := MapVector.vectorMap_lawful (Fin 3) (Fin 3)
  lawfulInsts := MapVector.vectorMap_lawful (Fin 2) (Fin 2)
  valid := ifThen_valid
  correct := ifThenTree_correct
  maps := (Option.some_get isSome_dependencyMaps_guarded).symm

theorem calls_guarded : guarded.calls = [.depAdd 70 71] := by
  with_unfolding_all decide

namespace Analyzed

/-- The store depends on the load, and that is all the runtime is told. -/
theorem mem_calls_iff_edge_guarded :
    guarded.Edge (fun _ => True) 70 71 ∧
      ∀ src dest, guarded.Edge (fun _ => True) src dest → src = 70 ∧ dest = 71 := by
  obtain ⟨r, hr, -, hcovered⟩ := mem_calls_iff_edge guarded
  obtain rfl : r = (2 : Fin 3) := lastRoot_unique hr ifThen_covered.root
  have hiff := hcovered ifThen_covered
  rw [calls_guarded] at hiff
  refine ⟨(hiff 70 71).mp List.mem_cons_self, fun src dest hedge => ?_⟩
  simpa using (hiff src dest).mpr hedge

end Analyzed

end PMBugRepair
