import PMBugRepair.Transform.Frontiers
import Mathlib.Data.Fin.VecNotation
import Mathlib.Data.Fintype.Basic
import Mathlib.Tactic.FinCases

/-!
# Control dependences

The map of control dependences is the reverse of the map of frontiers. It is exact if the one tree
that is traversed has all the blocks that something depends on, and if no list moves while it is
read.
-/

namespace PMBugRepair

open Flow (Graph)

variable {β : Type}

section Map

variable [DecidableEq β] {mv : MapVector β β} {cfg : Cfg β} {pdt : PostDominatorTree β}

theorem mem_get_reverseMap (hmv : mv.Lawful) {a b : β} {frontiers : mv.Map} :
    b ∈ mv.get (reverseMap mv frontiers) a ↔ a ∈ mv.get frontiers b := by
  have hpush : ∀ bb (map : mv.Map) (y key value : β),
      value ∈ mv.get (mv.pushBack map y bb) key ↔ value ∈ mv.get map key ∨ (key = y ∧ value = bb) :=
    fun bb map y key value => hmv.mem_get_pushBack
  have hloop : ∀ (map : mv.Map) (bb key value : β),
      value ∈ mv.get ((mv.get frontiers bb).foldl (fun map y => mv.pushBack map y bb) map) key ↔
        value ∈ mv.get map key ∨ (key ∈ mv.get frontiers bb ∧ value = bb) := by
    intro map bb key value
    rw [MapVector.Lawful.mem_get_foldl (hpush bb)]
    simp
  rw [reverseMap, MapVector.Lawful.mem_get_foldl hloop, or_iff_right hmv.not_mem_get_empty]
  constructor
  · rintro ⟨bb, -, ha, rfl⟩
    exact ha
  · exact fun ha => ⟨b, hmv.mem_keys ha, ha, rfl⟩

theorem full_reverseMap (hmv : mv.Lawful) (frontiers : mv.Map) :
    mv.Full (reverseMap mv frontiers) := by
  unfold reverseMap
  refine List.foldlRecOn _ _ hmv.full_empty fun map hmap bb _ => ?_
  exact List.foldlRecOn _ _ hmap fun map hmap y _ => hmv.full_pushBack hmap y bb

/-- The assertion of `ControlDepBuilder` fails only where the one of `MemoryDepAnalysis` fails. -/
theorem controlDepAnalysis_eq (hmv : mv.Lawful) {root : DomTreeNode β}
    (hroot : setPDTRootNode cfg pdt = some root) {frontiers : mv.Map}
    (hfrontiers : postOrderTraversePDT mv cfg pdt root mv.empty = some frontiers) :
    controlDepAnalysis mv cfg pdt =
      if mv.keys (reverseMap mv frontiers) = [] ∧ cfg.blocks.length ≠ 1 then none
      else some (reverseMap mv frontiers) := by
  rw [controlDepAnalysis, hroot]
  simp only [Option.bind_eq_bind, Option.bind_some, hfrontiers, controlDepBuilder]
  by_cases hempty : mv.keys frontiers = [] ∧ cfg.blocks.length ≠ 1
  · have hkeys : mv.keys (reverseMap mv frontiers) = [] := by
      rw [reverseMap, hempty.1]
      exact hmv.keys_empty
    rw [if_pos hempty, if_pos ⟨hkeys, hempty.2⟩]
    rfl
  · rw [if_neg hempty]
    rfl

/-- What ends up in the map, from the root that is chosen. -/
theorem mem_get_controlDep (hmv : mv.Lawful) (hvalid : cfg.Valid) (hpdt : pdt.Correct cfg)
    {map : mv.Map} (h : controlDepAnalysis mv cfg pdt = some map) :
    ∃ r, cfg.LastRoot r ∧ Undisturbed mv cfg pdt r ∧ mv.Full map ∧
      (mv.keys map = [] → cfg.blocks.length = 1) ∧
      ∀ a b, b ∈ mv.get map a ↔ cfg.graph.PostDominates r b ∧ cfg.graph.ControlDependent b a := by
  obtain ⟨root, hroot, htraverse⟩ := Option.bind_eq_some_iff.mp h
  obtain ⟨r, hr⟩ := exists_lastRoot hpdt hroot
  have hchosen := setPDTRootNode_of_lastRoot hpdt hr
  obtain rfl := Option.some.inj (hroot.symm.trans hchosen)
  rcases postOrderTraversePDT_cases hmv hvalid hpdt r with
    ⟨hnone, -⟩ | ⟨frontiers, hsome, hundisturbed, hget⟩
  · rw [hnone] at htraverse
    cases htraverse
  · rw [controlDepAnalysis_eq hmv hroot hsome] at h
    split_ifs at h with hassert
    obtain rfl := Option.some.inj h
    refine ⟨r, hr, hundisturbed, full_reverseMap hmv frontiers, fun hnil => ?_, fun a b => ?_⟩
    · by_contra hlength
      exact hassert ⟨hnil, hlength⟩
    · rw [mem_get_reverseMap hmv, hget]

end Map

/-- `ControlDepMap` is what it should be. -/
def ControlDepExact [DecidableEq β] (mv : MapVector β β) (cfg : Cfg β)
    (pdt : PostDominatorTree β) : Prop :=
  ∃ map, controlDepAnalysis mv cfg pdt = some map ∧
    ∀ a b, b ∈ mv.get map a ↔ cfg.graph.ControlDependent b a

/-- Every edge to a block that the root `r` of the traversal does not post-dominate leads to a
strict post-dominator. Unless there is but one block, some edge does not lead to one. -/
structure Cfg.Covered (cfg : Cfg β) (r : β) : Prop where
  root : cfg.LastRoot r
  edges : ∀ a, ∀ s ∈ cfg.successors a, ¬cfg.graph.PostDominates r s →
    cfg.graph.StrictlyPostDominates s a
  branch : cfg.blocks.length ≠ 1 →
    ∃ a, ∃ s ∈ cfg.successors a, ¬cfg.graph.StrictlyPostDominates s a

section Exact

variable {cfg : Cfg β} {pdt : PostDominatorTree β}

/-- A block that a covered root misses is not control dependent on anything. -/
theorem Cfg.Covered.postDominates (hvalid : cfg.Valid) {r : β} (h : cfg.Covered r) {a b : β}
    (hdep : cfg.graph.ControlDependent b a) : cfg.graph.PostDominates r b := by
  obtain ⟨⟨s, hedge, hbs⟩, hnot⟩ := hdep
  obtain ⟨-, -, -, hroot, -⟩ := h.root
  by_cases hrs : cfg.graph.PostDominates r s
  · rcases hrs.chain hvalid.ends hbs with hrb | hbr
    · exact hrb
    · have heq : b = r := by
        by_contra hne
        exact hroot b ⟨hbr, hne⟩
      exact heq ▸ Graph.PostDominates.refl b
  · exact absurd (hbs.trans_strict hvalid.ends (h.edges a s hedge hrs)) hnot

theorem controlDependent_of_edge {a s : β} (hedge : s ∈ cfg.successors a)
    (hnot : ¬cfg.graph.StrictlyPostDominates s a) : cfg.graph.ControlDependent s a :=
  ⟨⟨s, hedge, Graph.PostDominates.refl s⟩, hnot⟩

variable [DecidableEq β] {mv : MapVector β β}

/-- The control dependences are computed exactly if and only if the root of the traversal covers the
function and no list moves while the traversal reads it. -/
theorem controlDepExact_iff (hmv : mv.Lawful) (hvalid : cfg.Valid) (h : pdt.Correct cfg) :
    ControlDepExact mv cfg pdt ↔ ∃ r, cfg.Covered r ∧ Undisturbed mv cfg pdt r := by
  constructor
  · rintro ⟨map, hmap, hexact⟩
    obtain ⟨r, hr, hundisturbed, hfull, hassert, hget⟩ := mem_get_controlDep hmv hvalid h hmap
    simp only [hget] at hexact
    refine ⟨r, ⟨hr, fun a s hedge hrs => ?_, fun hlength => ?_⟩, hundisturbed⟩
    · by_contra hnot
      exact hrs ((hexact a s).mpr (controlDependent_of_edge hedge hnot)).1
    · have hkeys := mt (hmv.keys_eq_nil_iff hfull).mpr fun hnil => hlength (hassert hnil)
      push Not at hkeys
      obtain ⟨a, b, hb⟩ := hkeys
      obtain ⟨⟨s, hedge, hbs⟩, hnot⟩ := ((hget a b).mp hb).2
      exact ⟨a, s, hedge, fun hsa => hnot (hbs.trans_strict hvalid.ends hsa)⟩
  · rintro ⟨r, hr, hundisturbed⟩
    rcases postOrderTraversePDT_cases hmv hvalid h r with
      ⟨-, hdisturbed⟩ | ⟨frontiers, hsome, -, hget⟩
    · exact absurd hundisturbed hdisturbed
    have hmem : ∀ a b, b ∈ mv.get (reverseMap mv frontiers) a ↔
        cfg.graph.ControlDependent b a := by
      intro a b
      rw [mem_get_reverseMap hmv, hget]
      exact and_iff_right_of_imp (hr.postDominates hvalid)
    refine ⟨reverseMap mv frontiers, ?_, hmem⟩
    rw [controlDepAnalysis_eq hmv (setPDTRootNode_of_lastRoot h hr.root) hsome, if_neg]
    rintro ⟨hnil, hlength⟩
    obtain ⟨a, s, hedge, hnot⟩ := hr.branch hlength
    rw [hmv.keys_eq_nil_iff (full_reverseMap hmv frontiers)] at hnil
    exact hnil a s ((hmem a s).mpr (controlDependent_of_edge hedge hnot))

end Exact

/-! ### Three functions -/

/-- Blocks along which the function is left. -/
def Cfg.leaves [DecidableEq β] (cfg : Cfg β) : List β → Bool
  | [] => false
  | [a] => a ∈ cfg.exits
  | a :: b :: rest => b ∈ cfg.successors a && leaves cfg (b :: rest)

theorem exitPath_of_leaves [DecidableEq β] {cfg : Cfg β} {a : β} {rest : List β}
    (h : cfg.leaves (a :: rest) = true) : cfg.graph.ExitPath a (a :: rest) := by
  induction rest generalizing a with
  | nil =>
      have hexit : a ∈ cfg.exits := by simpa [Cfg.leaves] using h
      exact .exit hexit
  | cons b rest ih =>
      obtain ⟨hedge, hrest⟩ : b ∈ cfg.successors a ∧ cfg.leaves (b :: rest) = true := by
        simpa [Cfg.leaves] using h
      exact .step hedge (ih hrest)

/-- A table of strict post-dominators is right if every edge keeps what is listed at its source, and
for what is not listed there is a way out without it. -/
theorem strictlyPostDominates_iff_of_table [DecidableEq β] {cfg : Cfg β} {strict : β → List β}
    (paths : β → List (List β)) (hexit : ∀ a, a ∈ cfg.exits → strict a = [])
    (hedge : ∀ a, ∀ s ∈ cfg.successors a, ∀ b ∈ strict a, b = s ∨ b ∈ strict s)
    (hself : ∀ a, a ∉ strict a)
    (hpaths : ∀ a, ∀ path ∈ paths a, cfg.leaves (a :: path) = true)
    (hmiss : ∀ a b, b ≠ a → b ∉ strict a → ∃ path ∈ paths a, b ∉ path) (a b : β) :
    cfg.graph.StrictlyPostDominates b a ↔ b ∈ strict a := by
  constructor
  · rintro ⟨hdom, hne⟩
    by_contra hnot
    obtain ⟨path, hpath, hb⟩ := hmiss a b hne hnot
    have hmem := hdom _ (exitPath_of_leaves (hpaths a path hpath))
    exact hb ((List.mem_cons.mp hmem).resolve_left hne)
  · intro hb
    refine ⟨fun path hpath => ?_, fun heq => hself a (heq ▸ hb)⟩
    induction hpath with
    | exit hleave =>
        rw [hexit _ hleave] at hb
        cases hb
    | step hstep hrest ih =>
        rcases hedge _ _ hstep b hb with rfl | hb
        · exact List.mem_cons_of_mem _ hrest.mem_self
        · exact List.mem_cons_of_mem _ (ih hb)

/-- The tree of such a table. -/
theorem correct_of_table {cfg : Cfg β} {pdt : PostDominatorTree β} {strict : β → List β}
    (hstrict : ∀ a b, cfg.graph.StrictlyPostDominates b a ↔ b ∈ strict a)
    (hsome : ∀ a b, pdt.getIDom a = some b ↔
      b ∈ strict a ∧ ∀ c ∈ strict a, c = b ∨ c ∈ strict b)
    (hnone : ∀ a, pdt.getIDom a = none ↔ strict a = [])
    (hblock : ∀ a, (pdt.getNode a).block = a)
    (hchildren : ∀ a, ∀ child ∈ (pdt.getNode a).children, child = pdt.getNode child.block)
    (hmem : ∀ a c, c ∈ (pdt.getNode a).children.map DomTreeNode.block ↔ pdt.getIDom c = some a)
    (hnodup : ∀ a, ((pdt.getNode a).children.map DomTreeNode.block).Nodup)
    (hlevel : ∀ a, pdt.getLevel a = match pdt.getIDom a with
      | none => 1
      | some b => pdt.getLevel b + 1) : pdt.Correct cfg := by
  refine ⟨fun a b => ?_, fun a => ?_, hblock, hchildren, hmem, hnodup, hlevel⟩
  · rw [hsome, ← hstrict]
    refine and_congr_right fun _ => forall_congr' fun c => imp_congr (hstrict a c).symm ?_
    rw [← hstrict]
    constructor
    · rintro (rfl | hc)
      · exact Graph.PostDominates.refl c
      · exact hc.1
    · intro hc
      by_cases heq : c = b
      · exact .inl heq
      · exact .inr ⟨hc, heq⟩
  · rw [hnone, List.eq_nil_iff_forall_not_mem]
    simp only [hstrict]

/-- `if (c) B;` with one exit. -/
def ifThen : Cfg (Fin 3) where
  blocks := [0, 1, 2]
  successors := ![[1, 2], [2], []]
  predecessors := ![[], [0], [0, 1]]
  exits := [2]

def ifThenTree : PostDominatorTree (Fin 3) where
  getNode := ![.node 0 [], .node 1 [], .node 2 [.node 0 [], .node 1 []]]
  getIDom := ![some 2, some 2, none]
  getLevel := ![2, 2, 1]

theorem ifThen_strict (a b : Fin 3) :
    ifThen.graph.StrictlyPostDominates b a ↔ b ∈ ![[2], [2], []] a :=
  strictlyPostDominates_iff_of_table ![[[2]], [[2]], [[]]] (by decide) (by decide) (by decide)
    (by decide) (by decide) a b

theorem ifThen_valid : ifThen.Valid where
  mem_blocks := by decide
  mem_predecessors := by decide
  ends a := by
    fin_cases a
    · exact ⟨[0, 2], exitPath_of_leaves (by decide)⟩
    · exact ⟨[1, 2], exitPath_of_leaves (by decide)⟩
    · exact ⟨[2], exitPath_of_leaves (by decide)⟩

theorem ifThenTree_correct : ifThenTree.Correct ifThen := by
  refine correct_of_table ifThen_strict (by decide) (by decide) (by decide) (fun a => ?_)
    (by decide) (by decide) (by decide)
  fin_cases a <;> simp [ifThenTree, DomTreeNode.children, DomTreeNode.block]

theorem ifThen_covered : ifThen.Covered 2 where
  root := ⟨[0, 1], [], rfl, fun b => by simp [ifThen_strict], by simp⟩
  edges a s hs := by
    have htwo : ifThen.graph.PostDominates 2 s := by
      by_cases heq : s = 2
      · exact heq ▸ Graph.PostDominates.refl s
      · refine ((ifThen_strict s 2).mpr ?_).1
        revert a s
        decide
    exact fun hnot => absurd htwo hnot
  branch _ := ⟨0, 1, by decide, by simp [ifThen_strict]⟩

/-- Every block with a successor lies below the root, and nothing else has children. -/
theorem ifThen_undisturbed (mv : MapVector (Fin 3) (Fin 3)) :
    Undisturbed mv ifThen ifThenTree 2 := by
  rintro visited bb rest - ⟨asked, child, others, heq, hmoves⟩
  obtain ⟨y, hy, hidom⟩ := hmoves.copied
  obtain ⟨⟨s, hedge, -⟩, -⟩ :=
    (mem_frontier ifThen_valid ifThenTree_correct).mp (List.mem_of_mem_dropLast hy)
  have hsource : ifThenTree.getIDom y = some 2 := by
    have hs : s ∈ ifThen.successors y := hedge
    clear hedge hidom hy
    revert y s
    decide
  have hbb : bb = 2 := by
    by_contra hne
    have hnil : (ifThenTree.getNode bb).children = [] := by
      revert hne
      clear heq hmoves hidom
      fin_cases bb <;> simp [ifThenTree, DomTreeNode.children]
    rw [hnil] at heq
    simp at heq
  exact hidom (hbb ▸ hsource)

theorem controlDepExact_ifThen :
    ifThen.Valid ∧ ifThenTree.Correct ifThen ∧
      ControlDepExact (MapVector.vectorMap (Fin 3) (Fin 3)) ifThen ifThenTree :=
  ⟨ifThen_valid, ifThenTree_correct,
    (controlDepExact_iff (MapVector.vectorMap_lawful (Fin 3) (Fin 3)) ifThen_valid
      ifThenTree_correct).mpr ⟨2, ifThen_covered, ifThen_undisturbed _⟩⟩

/-- `if (c) exit(1); return;` with two exits. -/
def twoExits : Cfg (Fin 3) where
  blocks := [0, 1, 2]
  successors := ![[1, 2], [], []]
  predecessors := ![[], [0], [0]]
  exits := [1, 2]

def twoExitsTree : PostDominatorTree (Fin 3) where
  getNode := fun a => .node a []
  getIDom := fun _ => none
  getLevel := fun _ => 1

theorem twoExits_strict (a b : Fin 3) :
    twoExits.graph.StrictlyPostDominates b a ↔ b ∈ ![[], [], []] a :=
  strictlyPostDominates_iff_of_table ![[[1], [2]], [[]], [[]]] (by decide) (by decide) (by decide)
    (by decide) (by decide) a b

theorem twoExits_valid : twoExits.Valid where
  mem_blocks := by decide
  mem_predecessors := by decide
  ends a := by
    fin_cases a
    · exact ⟨[0, 1], exitPath_of_leaves (by decide)⟩
    · exact ⟨[1], exitPath_of_leaves (by decide)⟩
    · exact ⟨[2], exitPath_of_leaves (by decide)⟩

theorem twoExitsTree_correct : twoExitsTree.Correct twoExits :=
  correct_of_table twoExits_strict (by decide) (by decide) (by decide)
    (fun _ _ hchild => absurd hchild List.not_mem_nil) (by decide) (by decide) (by decide)

/-- The traversal starts at the last of the three blocks and does not see the other exit. -/
theorem not_controlDepExact_twoExits :
    twoExits.Valid ∧ twoExitsTree.Correct twoExits ∧
      ¬ControlDepExact (MapVector.vectorMap (Fin 3) (Fin 3)) twoExits twoExitsTree := by
  refine ⟨twoExits_valid, twoExitsTree_correct, ?_⟩
  rintro ⟨map, hmap, hexact⟩
  have hget : (controlDepAnalysis (MapVector.vectorMap (Fin 3) (Fin 3)) twoExits twoExitsTree).map
      ((MapVector.vectorMap (Fin 3) (Fin 3)).get · 0) = some [2] := by
    with_unfolding_all decide
  rw [hmap, Option.map_some, Option.some_inj] at hget
  have hdep : twoExits.graph.ControlDependent 1 0 :=
    controlDependent_of_edge (by decide) (by rw [twoExits_strict]; decide)
  have hmem := (hexact 0 1).mpr hdep
  rw [hget] at hmem
  exact absurd hmem (by decide)

/-- `if (c) { do B; while (d); C; } return;`. When `C` gets its first frontier the map has one
entry, and the list of `B` moves with it. -/
def guardedLoop : Cfg (Fin 4) where
  blocks := [0, 1, 2, 3]
  successors := ![[1, 3], [1, 2], [3], []]
  predecessors := ![[], [0, 1], [1], [0, 2]]
  exits := [3]

def guardedLoopTree : PostDominatorTree (Fin 4) where
  getNode := ![.node 0 [], .node 1 [], .node 2 [.node 1 []],
    .node 3 [.node 0 [], .node 2 [.node 1 []]]]
  getIDom := ![some 3, some 2, some 3, none]
  getLevel := ![2, 3, 2, 1]

theorem guardedLoop_strict (a b : Fin 4) :
    guardedLoop.graph.StrictlyPostDominates b a ↔ b ∈ ![[3], [2, 3], [3], []] a :=
  strictlyPostDominates_iff_of_table ![[[3]], [[2, 3]], [[3]], [[]]] (by decide) (by decide)
    (by decide) (by decide) (by decide) a b

theorem guardedLoop_valid : guardedLoop.Valid where
  mem_blocks := by decide
  mem_predecessors := by decide
  ends a := by
    fin_cases a
    · exact ⟨[0, 3], exitPath_of_leaves (by decide)⟩
    · exact ⟨[1, 2, 3], exitPath_of_leaves (by decide)⟩
    · exact ⟨[2, 3], exitPath_of_leaves (by decide)⟩
    · exact ⟨[3], exitPath_of_leaves (by decide)⟩

theorem guardedLoopTree_correct : guardedLoopTree.Correct guardedLoop := by
  refine correct_of_table guardedLoop_strict (by decide) (by decide) (by decide) (fun a => ?_)
    (by decide) (by decide) (by decide)
  fin_cases a <;> simp [guardedLoopTree, DomTreeNode.children, DomTreeNode.block]

/-- The root covers the function, but the list of the loop is read after it has moved. -/
theorem not_controlDepExact_guardedLoop :
    guardedLoop.Valid ∧ guardedLoopTree.Correct guardedLoop ∧ guardedLoop.Covered 3 ∧
      ¬ControlDepExact (MapVector.vectorMap (Fin 4) (Fin 4)) guardedLoop guardedLoopTree := by
  refine ⟨guardedLoop_valid, guardedLoopTree_correct, ⟨?_, ?_, ?_⟩, ?_⟩
  · exact ⟨[0, 1, 2], [], rfl, fun b => by simp [guardedLoop_strict], by simp⟩
  · intro a s hs hnot
    by_cases heq : s = 3
    · exact absurd (heq ▸ Graph.PostDominates.refl s) hnot
    · refine absurd ((guardedLoop_strict s 3).mpr ?_).1 hnot
      clear hnot
      revert a s
      decide
  · exact fun _ => ⟨0, 1, by decide, by simp [guardedLoop_strict]⟩
  · rintro ⟨map, hmap, -⟩
    have hnone : (controlDepAnalysis (MapVector.vectorMap (Fin 4) (Fin 4)) guardedLoop
        guardedLoopTree).isSome = false := by
      with_unfolding_all decide
    rw [hmap] at hnone
    cases hnone

end PMBugRepair
