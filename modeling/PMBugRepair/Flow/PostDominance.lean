import Mathlib.Data.List.Basic
import Mathlib.Order.Basic
import Mathlib.Order.Nat
import Mathlib.Tactic.Push

/-!
# Post-dominance

A block post-dominates another one when every path from there to an exit goes through it. The blocks
that post-dominate a given one form a chain, so the closest of them is unique. Whether a block
post-dominates the source of an edge can be seen from the block below it.
-/

namespace Flow

/-- The exits are the blocks from which the virtual exit is reached. -/
structure Graph (β : Type) where
  edge : β → β → Prop
  exit : β → Prop

namespace Graph

variable {β : Type} (G : Graph β)

inductive ExitPath : β → List β → Prop where
  | exit {a : β} (hexit : G.exit a) : ExitPath a [a]
  | step {a b : β} {path : List β} (hedge : G.edge a b) (hrest : ExitPath b path) :
      ExitPath a (a :: path)

def PostDominates (b a : β) : Prop := ∀ path, G.ExitPath a path → b ∈ path

def StrictlyPostDominates (b a : β) : Prop := G.PostDominates b a ∧ b ≠ a

/-- The closest strict post-dominator. -/
def Immediate (b a : β) : Prop :=
  G.StrictlyPostDominates b a ∧ ∀ c, G.StrictlyPostDominates c a → G.PostDominates c b

/-- `b` post-dominates a successor of `a`, and not strictly `a` itself. -/
def ControlDependent (b a : β) : Prop :=
  (∃ s, G.edge a s ∧ G.PostDominates b s) ∧ ¬G.StrictlyPostDominates b a

/-- From every block an exit is reached. -/
def Ends : Prop := ∀ a, ∃ path, G.ExitPath a path

variable {G} {a b c s z : β} {path : List β}

theorem ExitPath.mem_self (h : G.ExitPath a path) : a ∈ path := by
  cases h <;> exact List.mem_cons_self

theorem ExitPath.head?_eq (h : G.ExitPath a path) : path.head? = some a := by
  cases h <;> rfl

theorem ExitPath.suffix (h : G.ExitPath a path) (hb : b ∈ path) :
    ∃ rest, G.ExitPath b rest ∧ rest <:+ path := by
  induction h with
  | exit hexit =>
      obtain rfl := List.mem_singleton.mp hb
      exact ⟨_, .exit hexit, List.suffix_refl _⟩
  | @step a c path hedge hpath ih =>
      rcases List.mem_cons.mp hb with rfl | hb
      · exact ⟨_, .step hedge hpath, List.suffix_refl _⟩
      · obtain ⟨rest, hrest, hsuffix⟩ := ih hb
        exact ⟨rest, hrest, hsuffix.trans (List.suffix_cons a path)⟩

theorem ExitPath.shorter (h : G.ExitPath a path) (hb : b ∈ path) (hne : b ≠ a) :
    ∃ rest, G.ExitPath b rest ∧ rest <:+ path ∧ rest.length < path.length := by
  obtain ⟨rest, hrest, hsuffix⟩ := h.suffix hb
  refine ⟨rest, hrest, hsuffix, lt_of_le_of_ne hsuffix.length_le fun hlength => hne ?_⟩
  have heq := hsuffix.eq_of_length hlength
  have hhead := hrest.head?_eq
  rw [heq, h.head?_eq] at hhead
  exact (Option.some.inj hhead).symm

/-! ### An order -/

theorem PostDominates.refl (a : β) : G.PostDominates a a := fun _ hpath => hpath.mem_self

theorem PostDominates.trans (hcb : G.PostDominates c b) (hba : G.PostDominates b a) :
    G.PostDominates c a := by
  intro path hpath
  obtain ⟨rest, hrest, hsuffix⟩ := hpath.suffix (hba path hpath)
  exact hsuffix.subset (hcb rest hrest)

theorem PostDominates.antisymm (hends : G.Ends) (hba : G.PostDominates b a)
    (hab : G.PostDominates a b) : a = b := by
  by_contra hne
  -- there is no shortest path from `a` to an exit
  have hnone : ∀ n path, G.ExitPath a path → path.length ≠ n := by
    intro n
    induction n using Nat.strongRecOn with
    | _ n ih =>
        rintro path hpath rfl
        obtain ⟨rest, hrest, -, hlt⟩ := hpath.shorter (hba path hpath) (Ne.symm hne)
        obtain ⟨rest', hrest', -, hlt'⟩ := hrest.shorter (hab rest hrest) hne
        exact ih rest'.length (hlt'.trans hlt) rest' hrest' rfl
  obtain ⟨path, hpath⟩ := hends a
  exact hnone path.length path hpath rfl

/-- A path can be left where it first meets one of two blocks. -/
theorem ExitPath.avoid (h : G.ExitPath a path) {first second : List β}
    (hfirst : G.ExitPath b first) (hc : c ∉ first) (hsecond : G.ExitPath c second)
    (hb : b ∉ second) : ∃ path', G.ExitPath a path' ∧ (b ∉ path' ∨ c ∉ path') := by
  induction h with
  | @exit a hexit =>
      by_cases hab : a = b
      · exact ⟨first, hab ▸ hfirst, .inr hc⟩
      · refine ⟨[a], .exit hexit, .inl fun hmem => hab (List.mem_singleton.mp hmem).symm⟩
  | @step a d path hedge _ ih =>
      by_cases hab : a = b
      · exact ⟨first, hab ▸ hfirst, .inr hc⟩
      · by_cases hac : a = c
        · exact ⟨second, hac ▸ hsecond, .inl hb⟩
        · obtain ⟨path', hpath', havoid⟩ := ih
          refine ⟨a :: path', .step hedge hpath', havoid.imp ?_ ?_⟩
          · exact fun hnot hmem => hnot ((List.mem_cons.mp hmem).resolve_left (Ne.symm hab))
          · exact fun hnot hmem => hnot ((List.mem_cons.mp hmem).resolve_left (Ne.symm hac))

/-- What post-dominates a block is a chain. -/
theorem PostDominates.chain (hends : G.Ends) (hb : G.PostDominates b a)
    (hc : G.PostDominates c a) : G.PostDominates b c ∨ G.PostDominates c b := by
  by_contra hnot
  obtain ⟨hbc, hcb⟩ := not_or.mp hnot
  unfold PostDominates at hbc hcb
  push Not at hbc hcb
  obtain ⟨second, hsecond, hbnot⟩ := hbc
  obtain ⟨first, hfirst, hcnot⟩ := hcb
  obtain ⟨path, hpath⟩ := hends a
  obtain ⟨path', hpath', hmiss | hmiss⟩ := hpath.avoid hfirst hcnot hsecond hbnot
  · exact hmiss (hb path' hpath')
  · exact hmiss (hc path' hpath')

theorem StrictlyPostDominates.successor (h : G.StrictlyPostDominates b a) (hedge : G.edge a s) :
    G.PostDominates b s := by
  intro path hpath
  exact (List.mem_cons.mp (h.1 _ (.step hedge hpath))).resolve_left h.2

theorem PostDominates.trans_strict (hends : G.Ends) (hcb : G.PostDominates c b)
    (hba : G.StrictlyPostDominates b a) : G.StrictlyPostDominates c a := by
  refine ⟨hcb.trans hba.1, ?_⟩
  rintro rfl
  exact hba.2 (hcb.antisymm hends hba.1)

/-! ### Edges into what a block post-dominates -/

theorem strictlyPostDominates_iff_of_edge (hedge : G.edge a b) :
    G.StrictlyPostDominates b a ↔ G.Immediate b a :=
  ⟨fun h => ⟨h, fun _ hc => hc.successor hedge⟩, And.left⟩

/-- An edge into what `z` post-dominates: if the block above `z` strictly post-dominates its source
and `z` does not, then the source is right below that block, beside `z`. -/
theorem strictlyPostDominates_iff_of_below (hends : G.Ends) (hz : G.Immediate b z)
    (hedge : G.edge a s) (hzs : G.PostDominates z s) :
    G.StrictlyPostDominates b a ↔ G.Immediate b a ∨ G.StrictlyPostDominates z a := by
  constructor
  · intro hba
    by_cases hza : G.StrictlyPostDominates z a
    · exact .inr hza
    · refine .inl ⟨hba, fun c hc => ?_⟩
      -- `c` and `z` are on the same way up from `s`
      rcases (hc.successor hedge).chain hends hzs with hcz | hzc
      · by_cases heq : c = z
        · exact absurd (heq ▸ hc) hza
        · exact hz.2 c ⟨hcz, heq⟩
      · by_cases heq : z = a
        · exact hz.2 c (heq ▸ hc)
        · exact absurd ⟨hzc.trans hc.1, heq⟩ hza
  · rintro (himm | hza)
    · exact himm.1
    · exact hz.1.1.trans_strict hends hza

end Graph

end Flow
