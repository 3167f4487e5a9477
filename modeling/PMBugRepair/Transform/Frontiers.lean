import PMBugRepair.Transform.Dependency

/-!
# The frontiers

The frontier of a block are the blocks that are left towards its subtree although it does not
strictly post-dominate them. The traversal collects the frontiers of all blocks of the tree below
its root, unless it reads a list that has moved.
-/

namespace PMBugRepair

open Flow (Graph)

variable {β : Type}

open Classical in
/-- The sources of the edges into the subtree of `a`, as far as `a` does not strictly post-dominate
them. -/
noncomputable def frontier (cfg : Cfg β) (pdt : PostDominatorTree β) (a : β) : List β :=
  (pdt.getNode a).preOrder.flatMap fun s =>
    (cfg.predecessors s).filter fun y => ¬cfg.graph.StrictlyPostDominates a y

/-- A block has a list of its own when the traversal has visited `visited` and, at the next block,
has asked for the lists of the children `asked`. -/
def HasList (cfg : Cfg β) (pdt : PostDominatorTree β) (visited asked : List β) (k : β) : Prop :=
  frontier cfg pdt k ≠ [] ∨ (∃ p ∈ visited, pdt.getIDom k = some p) ∨ k ∈ asked

/-- The list of the child behind `asked` moves before all of it is read: the block `bb` has no entry
yet, gets one for a block of that list which is not the last, and the entries move then. -/
structure MovesAt (mv : MapVector β β) (cfg : Cfg β) (pdt : PostDominatorTree β)
    (visited : List β) (bb : β) (asked : List β) (child : β) : Prop where
  predecessors : ∀ y ∈ cfg.predecessors bb, pdt.getIDom y = some bb
  earlier : ∀ c ∈ asked, ∀ y ∈ frontier cfg pdt c, pdt.getIDom y = some bb
  copied : ∃ y ∈ (frontier cfg pdt child).dropLast, pdt.getIDom y ≠ some bb
  moves : mv.moves (Lists.howMany (HasList cfg pdt visited (asked ++ [child])) visited) = true

/-- A list moves while it is read at the block that comes behind `visited`. -/
def Disturbed (mv : MapVector β β) (cfg : Cfg β) (pdt : PostDominatorTree β) (visited : List β)
    (bb : β) : Prop :=
  ∃ asked child rest, (pdt.getNode bb).children.map DomTreeNode.block = asked ++ child :: rest ∧
    MovesAt mv cfg pdt visited bb asked child

/-- No list moves while it is read. -/
def Undisturbed (mv : MapVector β β) (cfg : Cfg β) (pdt : PostDominatorTree β) (r : β) : Prop :=
  ∀ visited bb rest, (pdt.getNode r).postOrder = visited ++ bb :: rest →
    ¬Disturbed mv cfg pdt visited bb

section Frontier

variable {cfg : Cfg β} {pdt : PostDominatorTree β}

theorem mem_frontier (hvalid : cfg.Valid) (h : pdt.Correct cfg) {a y : β} :
    y ∈ frontier cfg pdt a ↔ cfg.graph.ControlDependent a y := by
  simp only [frontier, List.mem_flatMap, List.mem_filter, decide_eq_true_eq,
    h.mem_preOrder_iff hvalid, hvalid.mem_predecessors]
  constructor
  · rintro ⟨s, has, hedge, hnot⟩
    exact ⟨⟨s, hedge, has⟩, hnot⟩
  · rintro ⟨⟨s, hedge, has⟩, hnot⟩
    exact ⟨s, has, hedge, hnot⟩

/-- **The frontier theorem.** A frontier is made of the predecessors and of the frontiers of the
children. -/
theorem frontier_eq [DecidableEq β] (hvalid : cfg.Valid) (h : pdt.Correct cfg) (a : β) :
    frontier cfg pdt a = ((cfg.predecessors a).filter fun y => pdt.getIDom y ≠ some a) ++
      ((pdt.getNode a).children.map DomTreeNode.block).flatMap fun c =>
        (frontier cfg pdt c).filter fun y => pdt.getIDom y ≠ some a := by
  classical
  have hparent : ∀ y, pdt.getIDom y ≠ some a ↔ ¬cfg.graph.Immediate a y := fun y =>
    not_congr (h.idom_some y a)
  have hpre : (pdt.getNode a).preOrder =
      a :: ((pdt.getNode a).children.map DomTreeNode.block).flatMap fun c =>
        (pdt.getNode c).preOrder := by
    have hblock := h.block a
    have hself := h.children a
    cases hnode : pdt.getNode a with
    | node block children =>
        rw [hnode] at hblock hself
        obtain rfl : block = a := hblock
        rw [DomTreeNode.preOrder, DomTreeNode.preOrders_eq_flatMap, DomTreeNode.children,
          List.flatMap_map]
        exact congrArg _ (List.flatMap_congr fun child hchild => congrArg _ (hself child hchild))
  rw [frontier, hpre, List.flatMap_cons, List.flatMap_assoc]
  congr 1
  · refine List.filter_congr fun y hy => ?_
    have hedge : cfg.graph.edge y a := (hvalid.mem_predecessors y a).mp hy
    simp only [hparent, Graph.strictlyPostDominates_iff_of_edge hedge]
  · refine List.flatMap_congr fun c hc => ?_
    have himm : cfg.graph.Immediate a c := (h.idom_some c a).mp ((h.mem_children a c).mp hc)
    rw [frontier, List.filter_flatMap]
    refine List.flatMap_congr fun s hs => ?_
    rw [List.filter_filter]
    refine List.filter_congr fun y hy => ?_
    have hedge : cfg.graph.edge y s := (hvalid.mem_predecessors y s).mp hy
    have hcs := (h.mem_preOrder_iff hvalid).mp hs
    simp only [hparent, Graph.strictlyPostDominates_iff_of_below hvalid.ends himm hedge hcs,
      not_or, Bool.decide_and]

end Frontier

/-! ### The loops -/

section Loops

variable [DecidableEq β] {mv : MapVector β β} {cfg : Cfg β} {pdt : PostDominatorTree β}
  {bb child : β} {ys visited asked : List β} {map : mv.Map}

/-- The list moves exactly if the key is new, the vector full and something is left to read. -/
theorem copyFrontier_cases (hmv : mv.Lawful) (pdt : PostDominatorTree β) (bb : β) (ys : List β)
    (map : mv.Map) :
    (copyFrontier mv pdt bb ys map = none ∧
        mv.keeps map bb = false ∧ ∃ y ∈ ys.dropLast, pdt.getIDom y ≠ some bb) ∨
      (copyFrontier mv pdt bb ys map = some (pushFrontier mv pdt bb ys map) ∧
        ¬(mv.keeps map bb = false ∧ ∃ y ∈ ys.dropLast, pdt.getIDom y ≠ some bb)) := by
  induction ys generalizing map with
  | nil => exact .inr ⟨rfl, by simp⟩
  | cons y rest ih =>
      rw [copyFrontier]
      by_cases hidom : pdt.getIDom y = some bb
      · have hdrop : (∃ x ∈ (y :: rest).dropLast, pdt.getIDom x ≠ some bb) ↔
            ∃ x ∈ rest.dropLast, pdt.getIDom x ≠ some bb := by
          cases rest with
          | nil => rfl
          | cons next rest => simp [hidom]
        have hpush : pushFrontier mv pdt bb (y :: rest) map = pushFrontier mv pdt bb rest map := by
          rw [pushFrontier, List.filter_cons_of_neg (by simp [hidom])]
          rfl
        rw [if_pos hidom, hdrop, hpush]
        exact ih map
      · have hpush : pushFrontier mv pdt bb (y :: rest) map =
            pushFrontier mv pdt bb rest (mv.pushBack map bb y) := by
          rw [pushFrontier, List.filter_cons_of_pos (by simp [hidom])]
          rfl
        rw [if_neg hidom, hpush]
        cases hkeeps : mv.keeps map bb with
        | true =>
            have hnext : mv.keeps (mv.pushBack map bb y) bb = true := by
              rw [MapVector.keeps, hmv.keys_pushBack,
                decide_eq_true (hmv.mem_keys_touch.mpr (.inr rfl)), Bool.true_or]
            rcases ih (mv.pushBack map bb y) with ⟨-, hfalse, -⟩ | ⟨hsome, -⟩
            · rw [hnext] at hfalse
              cases hfalse
            · exact .inr ⟨by simpa using hsome, by simp⟩
        | false =>
            cases rest with
            | nil => exact .inr ⟨rfl, by simp⟩
            | cons next rest => exact .inl ⟨by simp, rfl, y, by simp, hidom⟩

/-- The state of the map between two nodes. -/
structure Collected (mv : MapVector β β) (cfg : Cfg β) (pdt : PostDominatorTree β)
    (visited : List β) (map : mv.Map) : Prop where
  nodup : (mv.keys map).Nodup
  mem_keys : ∀ k, k ∈ mv.keys map ↔ k ∈ visited ∧ HasList cfg pdt visited [] k
  get : ∀ k ∈ visited, mv.get map k = frontier cfg pdt k

/-- The state of the map at the node of `bb`, when the lists of the children `asked` are copied. -/
structure Visiting (mv : MapVector β β) (cfg : Cfg β) (pdt : PostDominatorTree β)
    (visited : List β) (bb : β) (asked : List β) (map : mv.Map) : Prop where
  nodup : (mv.keys map).Nodup
  mem_keys : ∀ k, k ∈ mv.keys map ↔
    (k ∈ visited ∧ HasList cfg pdt visited asked k) ∨ (k = bb ∧ mv.get map bb ≠ [])
  get : ∀ k ∈ visited, mv.get map k = frontier cfg pdt k
  get_self : mv.get map bb = ((cfg.predecessors bb).filter fun y => pdt.getIDom y ≠ some bb) ++
    asked.flatMap fun c => (frontier cfg pdt c).filter fun y => pdt.getIDom y ≠ some bb

omit [DecidableEq β] in
theorem hasList_append {k : β} : HasList cfg pdt visited (asked ++ [child]) k ↔
    HasList cfg pdt visited asked k ∨ k = child := by
  unfold HasList
  simp only [List.mem_append, List.mem_singleton, or_assoc]

theorem get_pushFrontier (hmv : mv.Lawful) (map : mv.Map) : mv.get (pushFrontier mv pdt bb ys map) =
    Function.update (mv.get map) bb
      (mv.get map bb ++ ys.filter fun y => pdt.getIDom y ≠ some bb) :=
  hmv.get_foldl_pushBack

theorem mem_keys_pushFrontier (hmv : mv.Lawful) {k : β} :
    k ∈ mv.keys (pushFrontier mv pdt bb ys map) ↔ k ∈ mv.keys map ∨
      (k = bb ∧ (ys.filter fun y => pdt.getIDom y ≠ some bb) ≠ []) :=
  hmv.mem_keys_foldl_pushBack

/-- The first loop of a node, over its predecessors. -/
theorem Collected.visiting (hmv : mv.Lawful) (h : Collected mv cfg pdt visited map)
    (hbb : bb ∉ visited) :
    Visiting mv cfg pdt visited bb [] (pushFrontier mv pdt bb (cfg.predecessors bb) map) := by
  have hnil : mv.get map bb = [] := hmv.vacant map bb fun hkey => hbb ((h.mem_keys bb).mp hkey).1
  have hself : mv.get (pushFrontier mv pdt bb (cfg.predecessors bb) map) bb =
      (cfg.predecessors bb).filter fun y => pdt.getIDom y ≠ some bb := by
    rw [get_pushFrontier hmv, Function.update_self, hnil, List.nil_append]
  refine ⟨hmv.nodup_keys_foldl_pushBack h.nodup, fun k => ?_, fun k hk => ?_, ?_⟩
  · rw [mem_keys_pushFrontier hmv, h.mem_keys, hself]
  · have hne : k ≠ bb := fun heq => hbb (heq ▸ hk)
    rw [get_pushFrontier hmv, Function.update_of_ne hne, h.get k hk]
  · rw [hself, List.flatMap_nil, List.append_nil]

theorem Visiting.get_self_eq_nil_iff (h : Visiting mv cfg pdt visited bb asked map) :
    mv.get map bb = [] ↔ (∀ y ∈ cfg.predecessors bb, pdt.getIDom y = some bb) ∧
      ∀ c ∈ asked, ∀ y ∈ frontier cfg pdt c, pdt.getIDom y = some bb := by
  rw [h.get_self, List.append_eq_nil_iff, List.flatMap_eq_nil_iff]
  simp only [List.filter_eq_nil_iff, decide_eq_true_eq, not_not]

/-- The condition under which the list of the child moves, in terms of the function. -/
theorem Visiting.moves_iff (hmv : mv.Lawful) (h : Visiting mv cfg pdt visited bb asked map)
    (hvisited : visited.Nodup) (hbb : bb ∉ visited) (hchild : child ∈ visited) :
    (mv.keeps (mv.touch map child) bb = false ∧
        ∃ y ∈ (frontier cfg pdt child).dropLast, pdt.getIDom y ≠ some bb) ↔
      MovesAt mv cfg pdt visited bb asked child := by
  have hne : bb ≠ child := fun heq => hbb (heq ▸ hchild)
  have hnew : bb ∉ mv.keys (mv.touch map child) ↔ mv.get map bb = [] := by
    rw [hmv.mem_keys_touch, h.mem_keys]
    simp [hbb, hne]
  have hlength : mv.get map bb = [] → (mv.keys (mv.touch map child)).length =
      Lists.howMany (HasList cfg pdt visited (asked ++ [child])) visited := by
    intro hnil
    refine Lists.length_eq_howMany (hmv.nodup_keys_touch h.nodup child) hvisited fun k => ?_
    rw [hmv.mem_keys_touch, h.mem_keys, hnil, hasList_append]
    constructor
    · rintro ((⟨hk, hlist⟩ | ⟨-, habsurd⟩) | rfl)
      · exact ⟨hk, .inl hlist⟩
      · exact absurd rfl habsurd
      · exact ⟨hchild, .inr rfl⟩
    · rintro ⟨hk, hlist | rfl⟩
      · exact .inl (.inl ⟨hk, hlist⟩)
      · exact .inr rfl
  rw [MapVector.keeps_eq_false_iff, hnew]
  constructor
  · rintro ⟨⟨hnil, hmoves⟩, hcopied⟩
    obtain ⟨hlate, hearlier⟩ := h.get_self_eq_nil_iff.mp hnil
    exact ⟨hlate, hearlier, hcopied, by rw [← hlength hnil, hmoves]⟩
  · rintro ⟨hlate, hearlier, hcopied, hmoves⟩
    have hnil := h.get_self_eq_nil_iff.mpr ⟨hlate, hearlier⟩
    exact ⟨⟨hnil, by rw [hlength hnil, hmoves]⟩, hcopied⟩

/-- One round of the second loop of a node, over the list of a child. -/
theorem Visiting.copyFrontier (hmv : mv.Lawful) (h : Visiting mv cfg pdt visited bb asked map)
    (hvisited : visited.Nodup) (hbb : bb ∉ visited) (hchild : child ∈ visited) :
    (copyFrontier mv pdt bb (mv.get (mv.touch map child) child) (mv.touch map child) = none ∧
        MovesAt mv cfg pdt visited bb asked child) ∨
      ∃ next, copyFrontier mv pdt bb (mv.get (mv.touch map child) child) (mv.touch map child) =
          some next ∧ ¬MovesAt mv cfg pdt visited bb asked child ∧
        Visiting mv cfg pdt visited bb (asked ++ [child]) next := by
  have hne : bb ≠ child := fun heq => hbb (heq ▸ hchild)
  rw [hmv.get_touch, h.get child hchild, ← h.moves_iff hmv hvisited hbb hchild]
  rcases copyFrontier_cases hmv pdt bb (frontier cfg pdt child) (mv.touch map child) with
    hnone | ⟨hsome, hkept⟩
  · exact .inl hnone
  · refine .inr ⟨_, hsome, hkept,
      hmv.nodup_keys_foldl_pushBack (hmv.nodup_keys_touch h.nodup child),
      fun k => ?_, fun k hk => ?_, ?_⟩
    · rw [mem_keys_pushFrontier hmv, hmv.mem_keys_touch, h.mem_keys, hasList_append,
        get_pushFrontier hmv, Function.update_self, hmv.get_touch, Ne, Ne, Ne,
        List.append_eq_nil_iff, not_and_or]
      constructor
      · rintro (((⟨hk, hlist⟩ | ⟨rfl, hself⟩) | rfl) | ⟨rfl, hcopied⟩)
        · exact .inl ⟨hk, .inl hlist⟩
        · exact .inr ⟨rfl, .inl hself⟩
        · exact .inl ⟨hchild, .inr rfl⟩
        · exact .inr ⟨rfl, .inr hcopied⟩
      · rintro (⟨hk, hlist | rfl⟩ | ⟨rfl, hself | hcopied⟩)
        · exact .inl (.inl (.inl ⟨hk, hlist⟩))
        · exact .inl (.inr rfl)
        · exact .inl (.inl (.inr ⟨rfl, hself⟩))
        · exact .inr ⟨rfl, hcopied⟩
    · have hkne : k ≠ bb := fun heq => hbb (heq ▸ hk)
      rw [get_pushFrontier hmv, Function.update_of_ne hkne, hmv.get_touch, h.get k hk]
    · rw [get_pushFrontier hmv, Function.update_self, hmv.get_touch, h.get_self,
        List.flatMap_append, List.append_assoc, List.flatMap_singleton]

/-- Behind the loops the block counts as visited. -/
theorem Visiting.collected (hvalid : cfg.Valid) (hpdt : pdt.Correct cfg)
    (h : Visiting mv cfg pdt visited bb ((pdt.getNode bb).children.map DomTreeNode.block) map)
    (hbb : bb ∉ visited) (hclosed : ∀ p ∈ visited, pdt.getIDom bb ≠ some p) :
    Collected mv cfg pdt (visited ++ [bb]) map := by
  have hself : mv.get map bb = frontier cfg pdt bb := by
    rw [h.get_self, ← frontier_eq hvalid hpdt]
  have hroot : pdt.getIDom bb ≠ some bb := fun heq => ((hpdt.idom_some bb bb).mp heq).1.2 rfl
  refine ⟨h.nodup, fun k => ?_, fun k hk => ?_⟩
  · rw [h.mem_keys, hself, List.mem_append, List.mem_singleton]
    unfold HasList
    simp only [hpdt.mem_children, List.mem_append, List.mem_singleton, List.not_mem_nil, or_false,
      or_and_right, exists_or, exists_eq_left]
    refine or_congr_right ⟨?_, ?_⟩
    · rintro ⟨rfl, hfrontier⟩
      exact ⟨rfl, .inl hfrontier⟩
    · rintro ⟨rfl, hfrontier | ⟨p, hp, hidom⟩ | hidom⟩
      · exact ⟨rfl, hfrontier⟩
      · exact absurd hidom (hclosed p hp)
      · exact absurd hidom hroot
  · rcases List.mem_append.mp hk with hk | hk
    · exact h.get k hk
    · rw [List.mem_singleton.mp hk, hself]

end Loops

/-! ### The traversal -/

section Traversal

variable [DecidableEq β] {mv : MapVector β β} {cfg : Cfg β} {pdt : PostDominatorTree β}
  {bb : β} {visited : List β} {map : mv.Map}

/-- **The step.** -/
theorem visitNode_cases (hmv : mv.Lawful) (hvalid : cfg.Valid) (hpdt : pdt.Correct cfg)
    (h : Collected mv cfg pdt visited map) (hvisited : visited.Nodup) (hbb : bb ∉ visited)
    (hbelow : ∀ c, pdt.getIDom c = some bb → c ∈ visited)
    (hclosed : ∀ p ∈ visited, pdt.getIDom bb ≠ some p) :
    (visitNode mv cfg pdt (pdt.getNode bb) map = none ∧ Disturbed mv cfg pdt visited bb) ∨
      ∃ next, visitNode mv cfg pdt (pdt.getNode bb) map = some next ∧
        ¬Disturbed mv cfg pdt visited bb ∧ Collected mv cfg pdt (visited ++ [bb]) next := by
  have hblocks : visitNode mv cfg pdt (pdt.getNode bb) map =
      ((pdt.getNode bb).children.map DomTreeNode.block).foldlM (fun map child =>
          copyFrontier mv pdt bb (mv.get (mv.touch map child) child) (mv.touch map child))
        (pushFrontier mv pdt bb (cfg.predecessors bb) map) := by
    rw [visitNode, List.foldlM_map, hpdt.block]
  have hchildren : ∀ asked child rest,
      (pdt.getNode bb).children.map DomTreeNode.block = asked ++ child :: rest →
        child ∈ visited := by
    intro asked child rest heq
    refine hbelow child ((hpdt.mem_children bb child).mp ?_)
    rw [heq]
    exact List.mem_append_right _ List.mem_cons_self
  rw [hblocks]
  rcases Lists.foldlM_cases (h.visiting hmv hbb) fun asked child rest map heq hvisiting =>
      hvisiting.copyFrontier hmv hvisited hbb (hchildren asked child rest heq) with
    hnone | ⟨next, hsome, hkept, hvisiting⟩
  · exact .inl hnone
  · refine .inr ⟨next, hsome, ?_, hvisiting.collected hvalid hpdt hbb hclosed⟩
    rintro ⟨asked, child, rest, heq, hmoves⟩
    exact hkept asked child rest heq hmoves

theorem traverseChildren_eq_foldlM (children : List (DomTreeNode β)) (map : mv.Map) :
    traverseChildren mv cfg pdt children map =
      children.foldlM (fun map child => postOrderTraversePDT mv cfg pdt child map) map := by
  induction children generalizing map with
  | nil => rfl
  | cons child rest ih =>
      rw [traverseChildren, List.foldlM_cons]
      exact congrArg _ (funext ih)

/-- The recursion goes through the post-order. -/
theorem postOrderTraversePDT_eq_foldlM (hpdt : pdt.Correct cfg) (n : DomTreeNode β)
    (hn : n = pdt.getNode n.block) (map : mv.Map) : postOrderTraversePDT mv cfg pdt n map =
      n.postOrder.foldlM (fun map bb => visitNode mv cfg pdt (pdt.getNode bb) map) map := by
  induction n using DomTreeNode.induction generalizing map with
  | node block children ih =>
      have hlast : pdt.getNode block = .node block children := hn.symm
      have hchildren : ∀ map, children.foldlM
            (fun map child => postOrderTraversePDT mv cfg pdt child map) map =
          (DomTreeNode.postOrders children).foldlM
            (fun map bb => visitNode mv cfg pdt (pdt.getNode bb) map) map := by
        have hself : ∀ child ∈ children, child = pdt.getNode child.block := fun child hchild =>
          (hpdt.immediate_of_mem_children hn hchild).1
        clear hn hlast
        induction children with
        | nil => exact fun map => rfl
        | cons first rest ihrest =>
            obtain ⟨hfirst, hrest⟩ := List.forall_mem_cons.mp hself
            obtain ⟨ihfirst, ihchildren⟩ := List.forall_mem_cons.mp ih
            intro map
            rw [List.foldlM_cons, ihfirst hfirst, DomTreeNode.postOrders, List.foldlM_append]
            exact congrArg _ (funext (ihrest ihchildren hrest))
      rw [postOrderTraversePDT, traverseChildren_eq_foldlM, hchildren, DomTreeNode.postOrder,
        List.foldlM_append]
      simp only [List.foldlM_cons, List.foldlM_nil, hlast, Option.bind_eq_bind, bind_pure]

/-- **The run.** The traversal ends with the frontiers of all blocks of its tree, or it reads a list
that has moved. -/
theorem postOrderTraversePDT_cases (hmv : mv.Lawful) (hvalid : cfg.Valid) (hpdt : pdt.Correct cfg)
    (r : β) :
    (postOrderTraversePDT mv cfg pdt (pdt.getNode r) mv.empty = none ∧
        ¬Undisturbed mv cfg pdt r) ∨
      ∃ frontiers, postOrderTraversePDT mv cfg pdt (pdt.getNode r) mv.empty = some frontiers ∧
        Undisturbed mv cfg pdt r ∧ ∀ k y, y ∈ mv.get frontiers k ↔
          cfg.graph.PostDominates r k ∧ cfg.graph.ControlDependent k y := by
  have hself := hpdt.getNode_eq r
  have hnodup := hpdt.nodup_postOrder hvalid _ hself
  have hstart : Collected mv cfg pdt [] mv.empty := by
    refine ⟨?_, fun k => ?_, by simp⟩ <;> rw [hmv.keys_empty]
    · exact List.nodup_nil
    · simp
  have hstep : ∀ visited bb rest map, (pdt.getNode r).postOrder = visited ++ bb :: rest →
      Collected mv cfg pdt visited map →
      (visitNode mv cfg pdt (pdt.getNode bb) map = none ∧ Disturbed mv cfg pdt visited bb) ∨
        ∃ next, visitNode mv cfg pdt (pdt.getNode bb) map = some next ∧
          ¬Disturbed mv cfg pdt visited bb ∧ Collected mv cfg pdt (visited ++ [bb]) next := by
    intro visited bb rest map heq h
    rw [heq, List.nodup_append] at hnodup
    have hbb : bb ∉ visited := fun hmem => hnodup.2.2 bb hmem bb List.mem_cons_self rfl
    have hnext : visited ++ [bb] <+: (pdt.getNode r).postOrder :=
      ⟨rest, by rw [heq, List.append_assoc, List.singleton_append]⟩
    have hbelow : ∀ c, pdt.getIDom c = some bb → c ∈ visited := by
      intro c hidom
      have himm := (hpdt.idom_some c bb).mp hidom
      have hmem := hpdt.mem_of_prefix _ hself hnext
        (List.mem_append_right _ List.mem_cons_self) himm
      refine (List.mem_append.mp hmem).resolve_right fun hc => ?_
      exact himm.1.2 (List.mem_singleton.mp hc).symm
    refine visitNode_cases hmv hvalid hpdt h hnodup.1 hbb hbelow fun p hp hidom => hbb ?_
    exact hpdt.mem_of_prefix _ hself ⟨bb :: rest, heq.symm⟩ hp ((hpdt.idom_some bb p).mp hidom)
  rw [postOrderTraversePDT_eq_foldlM hpdt _ hself]
  rcases Lists.foldlM_cases hstart hstep with
    ⟨hnone, visited, bb, rest, heq, hbad⟩ | ⟨frontiers, hsome, hgood, hcollected⟩
  · exact .inl ⟨hnone, fun hall => hall visited bb rest heq hbad⟩
  · refine .inr ⟨frontiers, hsome, hgood, fun k y => ?_⟩
    rw [← hpdt.mem_preOrder_iff hvalid, ← DomTreeNode.mem_postOrder, ← mem_frontier hvalid hpdt]
    by_cases hk : k ∈ (pdt.getNode r).postOrder
    · rw [hcollected.get k hk, and_iff_right hk]
    · rw [hmv.vacant frontiers k fun hkey => hk ((hcollected.mem_keys k).mp hkey).1]
      simp [hk]

end Traversal

end PMBugRepair
