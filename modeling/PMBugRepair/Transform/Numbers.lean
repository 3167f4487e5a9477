import PMBugRepair.Transform.Simulation

/-!
# The numbers of a module

`uniqueID` goes on from function to function, and no loop of the pass moves, copies or drops a
numbered instruction. So the numbers of a module are consecutive, and as they are stored with 32
bits, they tell its instructions apart up to `2 ^ 32` of them.
-/

namespace PMBugRepair.PMTraceGen

open Strings (Text lit)
open Weaving (weave weave_cons)

/-- The pass on the functions of a module, each with the maps that the analysis has found. -/
def runOnModule (uniqueID : Nat) :
    List (IRFunction × DepMap × DepMap) → Option (List IRFunction × Nat)
  | [] => some ([], uniqueID)
  | (f, memoryControlDepMap, dataDepMap) :: rest => do
      let (f', _, next) ← runOnFunction uniqueID memoryControlDepMap dataDepMap f
      let (out, last) ← runOnModule next rest
      return (f' :: out, last)

/-- The numbers in a piece of code. -/
def idsIn (insts : List Instruction) : List (BitVec 32) := insts.filterMap Instruction.uniqueID

def idsOf (blocks : List BasicBlock) : List (BitVec 32) :=
  blocks.flatMap fun block => idsIn block.insts

section Ids

variable {blocks plain : List BasicBlock} {f f' : IRFunction} {n n' : Nat}

theorem idsIn_eq_nil {insts : List Instruction} (h : ∀ i ∈ insts, i.uniqueID = none) :
    idsIn insts = [] :=
  List.filterMap_eq_nil_iff.mpr h

theorem idsIn_append (front back : List Instruction) :
    idsIn (front ++ back) = idsIn front ++ idsIn back := List.filterMap_append

/-- What is woven in has no numbers. -/
theorem idsIn_weave {g : Nat → Instruction → List Instruction} {label : Nat}
    (h : ∀ i, ∀ j ∈ g label i, j.uniqueID = none) (insts : List Instruction) :
    idsIn (weave g label insts) = idsIn insts := by
  induction insts with
  | nil => rfl
  | cons i insts ih =>
      have hsplit : i :: weave g label insts = [i] ++ weave g label insts := rfl
      have hcons : idsIn (i :: insts) = idsIn [i] ++ idsIn insts := idsIn_append [i] insts
      rw [weave_cons, idsIn_append, idsIn_eq_nil (h i), hsplit, idsIn_append, ih, hcons,
        List.nil_append]

theorem idsOf_newEntry (calls : List RuntimeCall) (blocks : List BasicBlock) :
    idsOf (newEntry calls blocks) = idsOf blocks := by
  cases blocks with
  | nil => rfl
  | cons first rest =>
      have hentry : ∀ label next, idsIn (entryBlock calls label next).insts = [] := by
        intro label next
        refine idsIn_eq_nil fun i hi => ?_
        obtain ⟨kind, -, rfl⟩ := List.mem_map.mp hi
        rfl
      rw [newEntry, idsOf, List.flatMap_cons, hentry, List.nil_append]
      rfl

theorem idsOf_prepend {front : List Instruction} (h : ∀ i ∈ front, i.uniqueID = none) :
    idsOf (prepend front blocks) = idsOf blocks := by
  cases blocks with
  | nil => rfl
  | cons first rest => simp [idsOf, prepend, idsIn_append, idsIn_eq_nil h]

/-- The pass keeps every numbered instruction in its place. -/
theorem idsOf_instrumented (func : Text) (deps : List RuntimeCall) (plain : List BasicBlock) :
    idsOf (instrumented func deps plain) = idsOf plain := by
  have hbegins : ∀ i ∈ begins func, i.uniqueID = none := by
    simp [begins, callAt, dummy]
  have hbody : idsOf (prepend (begins func)
      (weaveBlocks (ghost func (lastLabel plain)) plain)) = idsOf plain := by
    rw [idsOf_prepend hbegins, idsOf, weaveBlocks, List.flatMap_map]
    exact List.flatMap_congr fun block _ => idsIn_weave (fun i => uniqueID_ghost) block.insts
  unfold instrumented
  dsimp only
  split
  · rw [idsOf_newEntry, idsOf_newEntry, hbody]
  · rw [idsOf_newEntry, hbody]

/-- The numbers go up by one from instruction to instruction. -/
theorem idsOf_setInstUniqueID (n : Nat) (blocks : List BasicBlock) :
    n ≤ (setInstUniqueID n blocks).2 ∧ idsOf (setInstUniqueID n blocks).1 =
      (List.range' n ((setInstUniqueID n blocks).2 - n)).map (BitVec.ofNat 32) := by
  induction blocks generalizing n with
  | nil => simp [setInstUniqueID, idsOf]
  | cons block blocks ih =>
      obtain ⟨hle, hids⟩ := ih (n + block.insts.length)
      have hfirst : idsIn ((block.insts.zipIdx n).map fun entry =>
          { entry.1 with uniqueID := some (.ofNat 32 entry.2) }) =
            (List.range' n block.insts.length).map (BitVec.ofNat 32) := by
        rw [idsIn, List.filterMap_map, ← List.zipIdx_map_snd, List.map_map]
        exact congrFun (List.filterMap_eq_map (f := BitVec.ofNat 32 ∘ Prod.snd)) _
      have hlength : (setInstUniqueID n (block :: blocks)).2 - n = block.insts.length +
          ((setInstUniqueID (n + block.insts.length) blocks).2 - (n + block.insts.length)) := by
        simp only [setInstUniqueID]
        omega
      refine ⟨by simp only [setInstUniqueID]; omega, ?_⟩
      rw [hlength, ← List.range'_append_1, List.map_append, ← hids, ← hfirst]
      rfl

theorem runOnFunction_ids {memoryControlDepMap dataDepMap : DepMap} {changed : Bool}
    (hwf : WellFormed f.blocks) (hfresh : idsOf f.blocks = [])
    (h : runOnFunction n memoryControlDepMap dataDepMap f = some (f', changed, n')) :
    n ≤ n' ∧ idsOf f'.blocks = (List.range' n (n' - n)).map (BitVec.ofNat 32) := by
  cases changed with
  | true =>
      obtain ⟨hblocks, rfl⟩ := runOnFunction_eq hwf h
      rw [hblocks, idsOf_instrumented]
      exact idsOf_setInstUniqueID n f.blocks
  | false =>
      unfold runOnFunction at h
      split at h
      · obtain ⟨rfl, hrest⟩ := Prod.mk.inj (Option.some.inj h)
        obtain rfl := (Prod.mk.inj hrest).2
        simp [hfresh]
      · obtain ⟨ready, -, hrest⟩ := Option.bind_eq_some_iff.mp h
        obtain ⟨visited, -, hrest⟩ := Option.bind_eq_some_iff.mp hrest
        obtain ⟨out, -, hlast⟩ := Option.bind_eq_some_iff.mp hrest
        cases (Prod.mk.inj (Prod.mk.inj (Option.some.inj hlast)).2).1

end Ids

theorem nodup_range'_ofNat_iff {n k : Nat} :
    ((List.range' n k).map (BitVec.ofNat 32)).Nodup ↔ k ≤ 2 ^ 32 := by
  constructor
  · intro h
    by_contra hlt
    have heq := List.inj_on_of_nodup_map h (x := n) (y := n + 2 ^ 32)
      (List.mem_range'_1.mpr ⟨by omega, by omega⟩) (List.mem_range'_1.mpr ⟨by omega, by omega⟩)
      (BitVec.eq_of_toNat_eq (by simp))
    omega
  · intro h
    refine List.Nodup.map_on (fun x hx y hy heq => ?_) List.nodup_range'
    have hmod := congrArg BitVec.toNat heq
    rw [List.mem_range'_1] at hx hy
    simp only [BitVec.toNat_ofNat] at hmod
    omega

/-- **The numbers of a module.** Over all functions of a module the instructions keep their order
and have consecutive numbers; no two have the same one exactly if there are at most `2 ^ 32`. -/
theorem runOnModule_ids {n last : Nat} {functions : List (IRFunction × DepMap × DepMap)}
    {out : List IRFunction} (hwf : ∀ entry ∈ functions, WellFormed entry.1.blocks)
    (hfresh : ∀ entry ∈ functions, idsOf entry.1.blocks = [])
    (h : runOnModule n functions = some (out, last)) :
    (out.flatMap fun f => idsOf f.blocks) = (List.range' n (last - n)).map (BitVec.ofNat 32) ∧
      ((out.flatMap fun f => idsOf f.blocks).Nodup ↔ last - n ≤ 2 ^ 32) := by
  have hids : n ≤ last ∧ (out.flatMap fun f => idsOf f.blocks) =
      (List.range' n (last - n)).map (BitVec.ofNat 32) := by
    induction functions generalizing n out with
    | nil =>
        obtain ⟨rfl, rfl⟩ := Prod.mk.inj (Option.some.inj h)
        simp
    | cons entry functions ih =>
        obtain ⟨hentry, hrest⟩ := List.forall_mem_cons.mp hwf
        obtain ⟨hentry', hrest'⟩ := List.forall_mem_cons.mp hfresh
        obtain ⟨⟨f', changed, next⟩, hfunction, h⟩ := Option.bind_eq_some_iff.mp h
        obtain ⟨⟨out', last'⟩, hmodule, hlast⟩ := Option.bind_eq_some_iff.mp h
        obtain ⟨rfl, rfl⟩ := Prod.mk.inj (Option.some.inj hlast)
        obtain ⟨hle, hfirst⟩ := runOnFunction_ids hentry hentry' hfunction
        obtain ⟨hle', hothers⟩ := ih hrest hrest' hmodule
        refine ⟨hle.trans hle', ?_⟩
        have hsplit : last' - n = (next - n) + (last' - next) := by omega
        have hstart : n + (next - n) = next := by omega
        rw [List.flatMap_cons, hfirst, hothers, hsplit, ← List.range'_append_1, hstart,
          List.map_append]
  exact ⟨hids.2, by rw [hids.2, nodup_range'_ofNat_iff]⟩

/-- Two functions with two instructions each. -/
theorem runOnModule_ids_put : ∃ out, runOnModule 7 [(put, [], []), (put, [], [])] = some (out, 11) ∧
    (out.flatMap fun f => idsOf f.blocks) = [7, 8, 9, 10] ∧
    (out.flatMap fun f => idsOf f.blocks).Nodup := by
  have hlast : (runOnModule 7 [(put, [], []), (put, [], [])]).map Prod.snd = some 11 := by
    with_unfolding_all decide
  obtain ⟨⟨out, last⟩, hmodule, hlast⟩ := Option.map_eq_some_iff.mp hlast
  obtain rfl : last = 11 := hlast
  obtain ⟨hids, hnodup⟩ := runOnModule_ids (n := 7) (by simpa using put_wellFormed)
    (by simp [put, idsOf, idsIn, persistCall, putReturn]) hmodule
  exact ⟨out, hmodule, by rw [hids]; rfl, hnodup.mpr (by decide)⟩

end PMBugRepair.PMTraceGen
