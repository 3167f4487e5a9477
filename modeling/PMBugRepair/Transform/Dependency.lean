import PMBugRepair.Flow.PostDominance
import PMBugRepair.Containers.MapVector
import PMBugRepair.Containers.Lists
import Mathlib.Data.List.Nodup

/-!
# `PMDependency`

The control dependences of a function are collected from its post-dominator tree: bottom up, every
node gets the predecessors and the blocks of its children's frontiers whose parent it is not. The
tree comes from LLVM; it hangs from a virtual exit and is assumed to be correct. The maps are LLVM's
as well. `none` is a failed assertion, or a list that is read where it no longer is.
-/

namespace PMBugRepair

open Flow (Graph)

/-- A function. `exits` are the blocks below the virtual exit: those that end it, and one of every
region that cannot be left. -/
structure Cfg (β : Type) where
  blocks : List β
  successors : β → List β
  predecessors : β → List β
  exits : List β

inductive DomTreeNode (β : Type) where
  | node (block : β) (children : List (DomTreeNode β))

namespace DomTreeNode

variable {β : Type}

def block : DomTreeNode β → β
  | .node block _ => block

def children : DomTreeNode β → List (DomTreeNode β)
  | .node _ children => children

end DomTreeNode

/-- `getIDom` is `none` for the children of the virtual exit, which is a node without block. -/
structure PostDominatorTree (β : Type) where
  getNode : β → DomTreeNode β
  getIDom : β → Option β
  getLevel : β → Nat

section Analysis

variable {β : Type} [DecidableEq β] (mv : MapVector β β)

/-- `for (y : ys) if (y->getIDom() != node) PostDomFrontierMap[bb].push_back(y)`. -/
def pushFrontier (pdt : PostDominatorTree β) (bb : β) (ys : List β) (map : mv.Map) : mv.Map :=
  (ys.filter fun y => pdt.getIDom y ≠ some bb).foldl (fun map y => mv.pushBack map bb y) map

/-- The same loop over a list that lies in the map. Where it moves when `bb` enters the map, the
loop does not see it: what is left to read is no longer there. -/
def copyFrontier (pdt : PostDominatorTree β) (bb : β) : List β → mv.Map → Option mv.Map
  | [], map => some map
  | y :: rest, map =>
      if pdt.getIDom y = some bb then copyFrontier pdt bb rest map
      else if mv.keeps map bb || rest.isEmpty then
        copyFrontier pdt bb rest (mv.pushBack map bb y)
      else none

/-- What is done at a node behind its children. A leaf does the same without children. -/
def visitNode (cfg : Cfg β) (pdt : PostDominatorTree β) (node : DomTreeNode β) (map : mv.Map) :
    Option mv.Map :=
  node.children.foldlM (fun map child =>
      let map := mv.touch map child.block
      copyFrontier mv pdt node.block (mv.get map child.block) map)
    (pushFrontier mv pdt node.block (cfg.predecessors node.block) map)

mutual

def postOrderTraversePDT (cfg : Cfg β) (pdt : PostDominatorTree β) :
    DomTreeNode β → mv.Map → Option mv.Map
  | .node bb children, map =>
      (traverseChildren cfg pdt children map).bind (visitNode mv cfg pdt (.node bb children))

def traverseChildren (cfg : Cfg β) (pdt : PostDominatorTree β) :
    List (DomTreeNode β) → mv.Map → Option mv.Map
  | [], map => some map
  | child :: rest, map =>
      (postOrderTraversePDT cfg pdt child map).bind (traverseChildren cfg pdt rest)

end

/-- The last block at level 1. -/
def setPDTRootNode (cfg : Cfg β) (pdt : PostDominatorTree β) : Option (DomTreeNode β) :=
  cfg.blocks.foldl (fun root bb =>
    if pdt.getLevel bb = 1 then some (pdt.getNode bb) else root) none

/-- The loops of `ControlDepBuilder`. -/
def reverseMap (frontiers : mv.Map) : mv.Map :=
  (mv.keys frontiers).foldl (fun map bb =>
    (mv.get frontiers bb).foldl (fun map frontier => mv.pushBack map frontier bb) map) mv.empty

def controlDepBuilder (cfg : Cfg β) (frontiers : mv.Map) : Option mv.Map :=
  if mv.keys frontiers = [] ∧ cfg.blocks.length ≠ 1 then none
  else some (reverseMap mv frontiers)

/-- `ControlDepMap`, up to the assertion with which `MemoryDepAnalysis` begins. -/
def controlDepAnalysis (cfg : Cfg β) (pdt : PostDominatorTree β) : Option mv.Map := do
  let root ← setPDTRootNode cfg pdt
  let frontiers ← postOrderTraversePDT mv cfg pdt root mv.empty
  let map ← controlDepBuilder mv cfg frontiers
  if mv.keys map = [] ∧ cfg.blocks.length ≠ 1 then none else return map

end Analysis

/-! ### What is assumed of LLVM -/

variable {β : Type}

def Cfg.graph (cfg : Cfg β) : Graph β :=
  { edge := fun a b => b ∈ cfg.successors a, exit := fun a => a ∈ cfg.exits }

instance [DecidableEq β] (cfg : Cfg β) (a b : β) : Decidable (cfg.graph.edge a b) :=
  inferInstanceAs (Decidable (b ∈ cfg.successors a))

instance [DecidableEq β] (cfg : Cfg β) (a : β) : Decidable (cfg.graph.exit a) :=
  inferInstanceAs (Decidable (a ∈ cfg.exits))

/-- All blocks are listed, with their predecessors, and from every block an exit is reached. -/
structure Cfg.Valid (cfg : Cfg β) : Prop where
  mem_blocks : ∀ a, a ∈ cfg.blocks
  mem_predecessors : ∀ a b, a ∈ cfg.predecessors b ↔ b ∈ cfg.successors a
  ends : cfg.graph.Ends

/-- Parents are immediate post-dominators, a block without one is a child of the virtual exit,
levels count from there, and every child is listed once. -/
structure PostDominatorTree.Correct (cfg : Cfg β) (pdt : PostDominatorTree β) : Prop where
  idom_some : ∀ a b, pdt.getIDom a = some b ↔ cfg.graph.Immediate b a
  idom_none : ∀ a, pdt.getIDom a = none ↔ ∀ b, ¬cfg.graph.StrictlyPostDominates b a
  block : ∀ a, (pdt.getNode a).block = a
  children : ∀ a, ∀ child ∈ (pdt.getNode a).children, child = pdt.getNode child.block
  mem_children : ∀ a c, c ∈ (pdt.getNode a).children.map DomTreeNode.block ↔
    pdt.getIDom c = some a
  nodup_children : ∀ a, ((pdt.getNode a).children.map DomTreeNode.block).Nodup
  level : ∀ a, pdt.getLevel a = match pdt.getIDom a with
    | none => 1
    | some b => pdt.getLevel b + 1

/-! ### The tree -/

namespace DomTreeNode

theorem induction {motive : DomTreeNode β → Prop}
    (node : ∀ block children, (∀ child ∈ children, motive child) → motive (.node block children))
    (n : DomTreeNode β) : motive n := by
  refine @DomTreeNode.rec β motive (fun children => ∀ child ∈ children, motive child) node ?_ ?_ n
  · exact fun child hchild => absurd hchild List.not_mem_nil
  · exact fun child rest hchild hrest => List.forall_mem_cons.mpr ⟨hchild, hrest⟩

mutual

/-- The blocks of a subtree, from the top. -/
def preOrder : DomTreeNode β → List β
  | .node block children => block :: preOrders children

def preOrders : List (DomTreeNode β) → List β
  | [] => []
  | child :: rest => preOrder child ++ preOrders rest

end

mutual

/-- The blocks of a subtree as the traversal visits them. -/
def postOrder : DomTreeNode β → List β
  | .node block children => postOrders children ++ [block]

def postOrders : List (DomTreeNode β) → List β
  | [] => []
  | child :: rest => postOrder child ++ postOrders rest

end

theorem preOrders_eq_flatMap (children : List (DomTreeNode β)) :
    preOrders children = children.flatMap preOrder := by
  induction children with
  | nil => rfl
  | cons child rest ih => rw [preOrders, ih, List.flatMap_cons]

theorem postOrders_eq_flatMap (children : List (DomTreeNode β)) :
    postOrders children = children.flatMap postOrder := by
  induction children with
  | nil => rfl
  | cons child rest ih => rw [postOrders, ih, List.flatMap_cons]

theorem mem_preOrder_node {block b : β} {children : List (DomTreeNode β)} :
    b ∈ (node block children).preOrder ↔ b = block ∨ ∃ child ∈ children, b ∈ child.preOrder := by
  rw [preOrder, preOrders_eq_flatMap, List.mem_cons, List.mem_flatMap]

theorem block_mem_preOrder (n : DomTreeNode β) : n.block ∈ n.preOrder := by
  cases n
  exact List.mem_cons_self

theorem mem_postOrder (n : DomTreeNode β) {b : β} : b ∈ n.postOrder ↔ b ∈ n.preOrder := by
  induction n using DomTreeNode.induction with
  | node block children ih =>
      rw [postOrder, postOrders_eq_flatMap, mem_preOrder_node, List.mem_append, List.mem_singleton,
        List.mem_flatMap, or_comm]
      exact or_congr_right (exists_congr fun child => and_congr_right (ih child))

end DomTreeNode

section Tree

variable {cfg : Cfg β} {pdt : PostDominatorTree β}

namespace PostDominatorTree.Correct

theorem immediate_of_mem_children (h : pdt.Correct cfg) {n child : DomTreeNode β}
    (hn : n = pdt.getNode n.block) (hchild : child ∈ n.children) :
    child = pdt.getNode child.block ∧ cfg.graph.Immediate n.block child.block := by
  rw [hn] at hchild
  refine ⟨h.children _ child hchild, (h.idom_some _ _).mp ((h.mem_children _ _).mp ?_)⟩
  exact List.mem_map_of_mem hchild

theorem mem_children_of_immediate (h : pdt.Correct cfg) {n : DomTreeNode β} {c : β}
    (hn : n = pdt.getNode n.block) (hc : cfg.graph.Immediate n.block c) :
    pdt.getNode c ∈ n.children := by
  obtain ⟨child, hchild, rfl⟩ :=
    List.mem_map.mp ((h.mem_children _ _).mpr ((h.idom_some c n.block).mpr hc))
  rw [hn, ← h.children _ child hchild]
  exact hchild

theorem exists_immediate (h : pdt.Correct cfg) (a b : β)
    (hb : cfg.graph.StrictlyPostDominates b a) : ∃ c, cfg.graph.Immediate c a := by
  cases hidom : pdt.getIDom a with
  | none => exact absurd hb ((h.idom_none a).mp hidom b)
  | some c => exact ⟨c, (h.idom_some a c).mp hidom⟩

theorem postDominates_of_mem (h : pdt.Correct cfg) (n : DomTreeNode β)
    (hn : n = pdt.getNode n.block) {k : β} (hk : k ∈ n.preOrder) :
    cfg.graph.PostDominates n.block k := by
  induction n using DomTreeNode.induction with
  | node bb children ih =>
      rcases DomTreeNode.mem_preOrder_node.mp hk with rfl | ⟨child, hchild, hk⟩
      · exact Graph.PostDominates.refl _
      · obtain ⟨hself, himm⟩ := h.immediate_of_mem_children hn hchild
        exact himm.1.1.trans (ih child hchild hself hk)

theorem mem_of_immediate (h : pdt.Correct cfg) (n : DomTreeNode β)
    (hn : n = pdt.getNode n.block) {i k : β} (hi : i ∈ n.preOrder)
    (himm : cfg.graph.Immediate i k) : k ∈ n.preOrder := by
  induction n using DomTreeNode.induction with
  | node bb children ih =>
      refine DomTreeNode.mem_preOrder_node.mpr (.inr ?_)
      rcases DomTreeNode.mem_preOrder_node.mp hi with rfl | ⟨child, hchild, hi⟩
      · refine ⟨pdt.getNode k, h.mem_children_of_immediate hn himm, ?_⟩
        have hblock := (pdt.getNode k).block_mem_preOrder
        rwa [h.block] at hblock
      · exact ⟨child, hchild, ih child hchild (h.immediate_of_mem_children hn hchild).1 hi⟩

theorem getNode_eq (h : pdt.Correct cfg) (a : β) :
    pdt.getNode a = pdt.getNode (pdt.getNode a).block := by
  rw [h.block]

theorem mem_preOrder_iff (hvalid : cfg.Valid) (h : pdt.Correct cfg) {r k : β} :
    k ∈ (pdt.getNode r).preOrder ↔ cfg.graph.PostDominates r k := by
  constructor
  · intro hk
    have hdom := h.postDominates_of_mem _ (h.getNode_eq r) hk
    rwa [h.block] at hdom
  · intro hk
    obtain ⟨path, hpath⟩ := hvalid.ends k
    -- up the tree from `k`, on ever shorter paths
    induction hn : path.length using Nat.strongRecOn generalizing k path with
    | _ n ih =>
        by_cases heq : r = k
        · subst heq
          have hblock := (pdt.getNode r).block_mem_preOrder
          rwa [h.block] at hblock
        · obtain ⟨i, hi⟩ := h.exists_immediate k r ⟨hk, heq⟩
          obtain ⟨rest, hrest, -, hlt⟩ := hpath.shorter (hi.1.1 path hpath) hi.1.2
          have hmem := ih rest.length (hn ▸ hlt) (hi.2 r ⟨hk, heq⟩) rest hrest rfl
          exact h.mem_of_immediate _ (h.getNode_eq r) hmem hi

/-- No block is visited twice. -/
theorem nodup_postOrder (hvalid : cfg.Valid) (h : pdt.Correct cfg) (n : DomTreeNode β)
    (hn : n = pdt.getNode n.block) : n.postOrder.Nodup := by
  induction n using DomTreeNode.induction with
  | node bb children ih =>
      have hspec : ∀ child ∈ children, child = pdt.getNode child.block ∧
          cfg.graph.Immediate bb child.block :=
        fun child hchild => h.immediate_of_mem_children hn hchild
      have hbelow : ∀ child ∈ children, ∀ k ∈ child.postOrder,
          cfg.graph.PostDominates child.block k := fun child hchild k hk =>
        h.postDominates_of_mem child (hspec child hchild).1 (child.mem_postOrder.mp hk)
      rw [DomTreeNode.postOrder, DomTreeNode.postOrders_eq_flatMap, List.nodup_append]
      refine ⟨List.nodup_flatMap.mpr
        ⟨fun child hchild => ih child hchild (hspec child hchild).1, ?_⟩,
        List.nodup_singleton bb, ?_⟩
      · have hblocks : (children.map DomTreeNode.block).Nodup := by
          have hnodup := h.nodup_children bb
          rwa [← show DomTreeNode.node bb children = pdt.getNode bb from hn] at hnodup
        refine (List.pairwise_map.mp hblocks).imp_of_mem fun {c d} hc hd hne k hkc hkd => ?_
        -- of two blocks on the way up from `k` one lies below the other, not beside it
        obtain ⟨-, himmc⟩ := hspec c hc
        obtain ⟨-, himmd⟩ := hspec d hd
        rcases (hbelow c hc k hkc).chain hvalid.ends (hbelow d hd k hkd) with hcd | hdc
        · exact himmc.1.2 (himmc.1.1.antisymm hvalid.ends (himmd.2 c.block ⟨hcd, hne⟩)).symm
        · exact himmd.1.2 (himmd.1.1.antisymm hvalid.ends (himmc.2 d.block ⟨hdc, hne.symm⟩)).symm
      · rintro k hk other hother rfl
        obtain rfl := List.mem_singleton.mp hother
        obtain ⟨child, hchild, hk⟩ := List.mem_flatMap.mp hk
        obtain ⟨-, himm⟩ := hspec child hchild
        exact himm.1.2 (himm.1.1.antisymm hvalid.ends (hbelow child hchild k hk)).symm

/-- When a block has been visited, so have the blocks below it. -/
theorem mem_of_prefix (h : pdt.Correct cfg) (n : DomTreeNode β) (hn : n = pdt.getNode n.block)
    {visited : List β} (hvisited : visited <+: n.postOrder) {a c : β} (ha : a ∈ visited)
    (hc : cfg.graph.Immediate a c) : c ∈ visited := by
  induction n using DomTreeNode.induction generalizing visited with
  | node bb children ih =>
      rw [DomTreeNode.postOrder, List.prefix_concat_iff] at hvisited
      rcases hvisited with rfl | hvisited
      · have hmem := h.mem_of_immediate _ hn ((DomTreeNode.mem_postOrder _).mp ha) hc
        exact (DomTreeNode.mem_postOrder _).mpr hmem
      · have hspec : ∀ child ∈ children, child = pdt.getNode child.block := fun child hchild =>
          (h.immediate_of_mem_children hn hchild).1
        clear hn
        induction children generalizing visited with
        | nil =>
            rw [DomTreeNode.postOrders, List.prefix_nil] at hvisited
            subst hvisited
            cases ha
        | cons first rest ihrest =>
            obtain ⟨hfirst, hrest⟩ := List.forall_mem_cons.mp hspec
            obtain ⟨ihfirst, ihchildren⟩ := List.forall_mem_cons.mp ih
            rw [DomTreeNode.postOrders] at hvisited
            rcases List.prefix_or_prefix_of_prefix hvisited (List.prefix_append _ _) with
              hpart | ⟨tail, rfl⟩
            · exact ihfirst hfirst hpart ha
            · rcases List.mem_append.mp ha with ha | ha
              · exact List.mem_append_left _ (ihfirst hfirst (List.prefix_refl _) ha)
              · refine List.mem_append_right _ (ihrest ihchildren ha ?_ hrest)
                exact (List.prefix_append_right_inj _).mp hvisited

theorem level_eq_one_iff (h : pdt.Correct cfg) (a : β) :
    pdt.getLevel a = 1 ↔ ∀ b, ¬cfg.graph.StrictlyPostDominates b a := by
  have hpos : ∀ b, pdt.getLevel b ≠ 0 := by
    intro b
    rw [h.level b]
    cases pdt.getIDom b <;> simp
  rw [← h.idom_none a, h.level a]
  cases hidom : pdt.getIDom a with
  | none => simp
  | some b => simpa using hpos b

end PostDominatorTree.Correct

/-- The last block, in the order of the function, that no other one strictly post-dominates. -/
def Cfg.LastRoot (cfg : Cfg β) (r : β) : Prop :=
  ∃ before after, cfg.blocks = before ++ r :: after ∧
    (∀ b, ¬cfg.graph.StrictlyPostDominates b r) ∧
    ∀ c ∈ after, ∃ b, cfg.graph.StrictlyPostDominates b c

theorem foldl_root {blocks : List β} {root : Option (DomTreeNode β)}
    (h : ∀ bb ∈ blocks, pdt.getLevel bb ≠ 1) :
    blocks.foldl (fun root bb => if pdt.getLevel bb = 1 then some (pdt.getNode bb) else root)
      root = root := by
  induction blocks with
  | nil => rfl
  | cons first rest ih =>
      obtain ⟨hfirst, hrest⟩ := List.forall_mem_cons.mp h
      rw [List.foldl_cons, if_neg hfirst, ih hrest]

theorem setPDTRootNode_of_lastRoot (h : pdt.Correct cfg) {r : β} (hr : cfg.LastRoot r) :
    setPDTRootNode cfg pdt = some (pdt.getNode r) := by
  obtain ⟨before, after, hblocks, hroot, hafter⟩ := hr
  have hnone : ∀ bb ∈ after, pdt.getLevel bb ≠ 1 := by
    intro bb hbb hlevel
    obtain ⟨b, hb⟩ := hafter bb hbb
    exact (h.level_eq_one_iff bb).mp hlevel b hb
  rw [setPDTRootNode, hblocks, List.foldl_append, List.foldl_cons,
    if_pos ((h.level_eq_one_iff r).mpr hroot), foldl_root hnone]

theorem exists_lastRoot (h : pdt.Correct cfg) {n : DomTreeNode β}
    (hn : setPDTRootNode cfg pdt = some n) : ∃ r, cfg.LastRoot r := by
  have hsome : ∃ bb ∈ cfg.blocks, pdt.getLevel bb = 1 := by
    by_contra hnot
    push Not at hnot
    rw [setPDTRootNode, foldl_root hnot] at hn
    cases hn
  obtain ⟨before, r, after, hblocks, hr, hafter⟩ := Lists.exists_last hsome
  refine ⟨r, before, after, hblocks, (h.level_eq_one_iff r).mp hr, fun c hc => ?_⟩
  have hlevel := mt (h.level_eq_one_iff c).mpr (hafter c hc)
  push Not at hlevel
  exact hlevel

end Tree

end PMBugRepair
