import PMBugRepair.Schedule.Order
import Mathlib.Data.Set.Basic

/-!
# Persistent memory

Stores go to a volatile cache. A flush hands the stores to its address to the memory, and a later
fence of the same thread waits for them. At any time an address may also be written back on its own.
A crash keeps what has persisted by then. What the statements of an execution force is read off
their order: the possible crash states are exactly the coherent ones that hold everything forced.
-/

namespace Persistency

open Schedule (Before)

inductive Effect (α : Type) where
  | store (addr : α)
  | flush (addr : α)
  | fence
  | other
  deriving DecidableEq

/-- What a statement does to the memory, and whose statement it is. -/
structure Program (ω α τ : Type) where
  effect : ω → Effect α
  thread : ω → τ

structure Memory (ω τ : Type) where
  stored : Set ω
  flushed : Set (τ × ω)
  persisted : Set ω

variable {ω α τ : Type}

def Memory.start : Memory ω τ := { stored := ∅, flushed := ∅, persisted := ∅ }

def Program.execute (program : Program ω α τ) (memory : Memory ω τ) (x : ω) : Memory ω τ :=
  match program.effect x with
  | .store _ => { memory with stored := insert x memory.stored }
  | .flush a =>
      { memory with
        flushed := memory.flushed ∪ {pair | pair.1 = program.thread x ∧ pair.2 ∈ memory.stored ∧
          program.effect pair.2 = .store a} }
  | .fence =>
      { memory with
        persisted := memory.persisted ∪ {y | (program.thread x, y) ∈ memory.flushed} }
  | .other => memory

def Program.evict (program : Program ω α τ) (memory : Memory ω τ) (a : α) : Memory ω τ :=
  { memory with
    persisted := memory.persisted ∪ {y | y ∈ memory.stored ∧ program.effect y = .store a} }

/-- The memory after the statements of `done`, with any write-backs in between. -/
inductive Run (program : Program ω α τ) : List ω → Memory ω τ → Prop where
  | start : Run program [] .start
  | execute {done : List ω} {memory : Memory ω τ} (hrun : Run program done memory) (x : ω) :
      Run program (done ++ [x]) (program.execute memory x)
  | evict {done : List ω} {memory : Memory ω τ} (hrun : Run program done memory) (a : α) :
      Run program done (program.evict memory a)

/-- What has persisted when the execution of `order` breaks off somewhere. -/
def Crash (program : Program ω α τ) (order : List ω) (persisted : Set ω) : Prop :=
  ∃ done memory, done <+: order ∧ Run program done memory ∧ memory.persisted = persisted

/-! ### What an order says -/

section Order

variable (program : Program ω α τ) (done : List ω)

def Stored (x : ω) : Prop := x ∈ done ∧ ∃ a, program.effect x = .store a

def Flushed (t : τ) (x : ω) : Prop :=
  ∃ a flush, Before done x flush ∧ program.effect x = .store a ∧
    program.effect flush = .flush a ∧ program.thread flush = t

/-- The store is flushed, and a fence of the flushing thread comes behind the flush. -/
def Forced (x : ω) : Prop :=
  ∃ a flush fence, [x, flush, fence].Sublist done ∧ program.effect x = .store a ∧
    program.effect flush = .flush a ∧ program.effect fence = .fence ∧
    program.thread fence = program.thread flush

/-- Stores to one address persist in their order. -/
def Coherent (persisted : Set ω) : Prop :=
  ∀ x y a, Before done x y → program.effect x = .store a → program.effect y = .store a →
    y ∈ persisted → x ∈ persisted

end Order

theorem concat_sublist_concat_iff (left : List ω) {right : List ω} {x y : ω} :
    (left ++ [x]).Sublist (right ++ [y]) ↔
      (left ++ [x]).Sublist right ∨ (x = y ∧ left.Sublist right) := by
  rw [← List.reverse_sublist, List.reverse_append, List.reverse_append, List.reverse_singleton,
    List.reverse_singleton, List.singleton_append, List.singleton_append, List.sublist_cons_iff]
  constructor
  · rintro (hsub | ⟨rest, heq, hsub⟩)
    · refine .inl ?_
      rw [← List.reverse_sublist]
      simpa using hsub
    · obtain ⟨rfl, rfl⟩ := List.cons.inj heq
      exact .inr ⟨rfl, List.reverse_sublist.mp hsub⟩
  · rintro (hsub | ⟨rfl, hsub⟩)
    · exact .inl (by simpa using List.reverse_sublist.mpr hsub)
    · exact .inr ⟨left.reverse, rfl, List.reverse_sublist.mpr hsub⟩

section Concat

variable {program : Program ω α τ} {done : List ω} {x e : ω}

theorem before_concat_iff {y : ω} :
    Before (done ++ [e]) x y ↔ Before done x y ∨ (y = e ∧ x ∈ done) := by
  rw [← List.singleton_sublist]
  exact concat_sublist_concat_iff [x]

theorem stored_concat_iff : Stored program (done ++ [e]) x ↔
    Stored program done x ∨ (x = e ∧ ∃ a, program.effect e = .store a) := by
  simp only [Stored, List.mem_append, List.mem_singleton]
  constructor
  · rintro ⟨hmem | rfl, hstore⟩
    exacts [.inl ⟨hmem, hstore⟩, .inr ⟨rfl, hstore⟩]
  · rintro (⟨hmem, hstore⟩ | ⟨rfl, hstore⟩)
    exacts [⟨.inl hmem, hstore⟩, ⟨.inr rfl, hstore⟩]

theorem flushed_concat_iff {t : τ} : Flushed program (done ++ [e]) t x ↔
    Flushed program done t x ∨
      (t = program.thread e ∧ x ∈ done ∧ ∃ a, program.effect e = .flush a ∧
        program.effect x = .store a) := by
  simp only [Flushed, before_concat_iff]
  constructor
  · rintro ⟨a, flush, hbefore | ⟨rfl, hmem⟩, hstore, hflush, rfl⟩
    · exact .inl ⟨a, flush, hbefore, hstore, hflush, rfl⟩
    · exact .inr ⟨rfl, hmem, a, hflush, hstore⟩
  · rintro (⟨a, flush, hbefore, hrest⟩ | ⟨rfl, hmem, a, hflush, hstore⟩)
    · exact ⟨a, flush, .inl hbefore, hrest⟩
    · exact ⟨a, e, .inr ⟨rfl, hmem⟩, hstore, hflush, rfl⟩

theorem forced_concat_iff : Forced program (done ++ [e]) x ↔
    Forced program done x ∨
      (program.effect e = .fence ∧ Flushed program done (program.thread e) x) := by
  have hconcat : ∀ flush fence, [x, flush, fence].Sublist (done ++ [e]) ↔
      [x, flush, fence].Sublist done ∨ (fence = e ∧ Before done x flush) := fun flush fence =>
    concat_sublist_concat_iff [x, flush]
  simp only [Forced, hconcat]
  constructor
  · rintro ⟨a, flush, fence, hsub | ⟨rfl, hbefore⟩, hstore, hflush, hfence, hthread⟩
    · exact .inl ⟨a, flush, fence, hsub, hstore, hflush, hfence, hthread⟩
    · exact .inr ⟨hfence, a, flush, hbefore, hstore, hflush, hthread.symm⟩
  · rintro (⟨a, flush, fence, hsub, hrest⟩ | ⟨hfence, a, flush, hbefore, hstore, hflush, hthread⟩)
    · exact ⟨a, flush, fence, .inl hsub, hrest⟩
    · exact ⟨a, flush, e, .inr ⟨rfl, hbefore⟩, hstore, hflush, hfence, hthread.symm⟩

theorem Forced.flushed (h : Forced program done x) : ∃ t, Flushed program done t x := by
  obtain ⟨a, flush, fence, hsub, hstore, hflush, -⟩ := h
  exact ⟨program.thread flush, a, flush,
    List.Sublist.trans (List.sublist_append_left [x, flush] [fence]) hsub, hstore, hflush, rfl⟩

theorem Flushed.stored {t : τ} (h : Flushed program done t x) : Stored program done x := by
  obtain ⟨a, flush, hbefore, hstore, -⟩ := h
  exact ⟨hbefore.mem.1, a, hstore⟩

/-- What is forced stays forced when other statements are inserted. -/
theorem Forced.mono {done' : List ω} (h : Forced program done x) (hsub : done.Sublist done') :
    Forced program done' x := by
  obtain ⟨a, flush, fence, hlist, hrest⟩ := h
  exact ⟨a, flush, fence, hlist.trans hsub, hrest⟩

end Concat

/-! ### What a run can do -/

section Run

variable {program : Program ω α τ} {done order : List ω} {memory : Memory ω τ}

theorem Run.stored (h : Run program done memory) {x : ω} :
    x ∈ memory.stored ↔ Stored program done x := by
  induction h with
  | start => simp [Memory.start, Stored]
  | @execute done memory hrun e ih =>
      rw [stored_concat_iff, ← ih]
      cases heffect : program.effect e <;>
        simp [Program.execute, heffect, Set.mem_insert_iff, or_comm]
  | evict hrun a ih => exact ih

theorem Run.flushed (h : Run program done memory) {t : τ} {x : ω} :
    (t, x) ∈ memory.flushed ↔ Flushed program done t x := by
  induction h with
  | start => simp [Memory.start, Flushed, Before]
  | @execute done memory hrun e ih =>
      rw [flushed_concat_iff, ← ih]
      cases heffect : program.effect e with
      | flush a =>
          have hstored : x ∈ memory.stored ∧ program.effect x = .store a ↔
              x ∈ done ∧ program.effect x = .store a := by
            rw [hrun.stored]
            exact ⟨fun h => ⟨h.1.1, h.2⟩, fun h => ⟨⟨h.1, a, h.2⟩, h.2⟩⟩
          simp [Program.execute, heffect, hstored]
      | store a | fence | other => simp [Program.execute, heffect]
  | evict hrun a ih => exact ih

/-- What the order forces has persisted. -/
theorem Run.persisted_of_forced (h : Run program done memory) {x : ω}
    (hforced : Forced program done x) : x ∈ memory.persisted := by
  induction h with
  | start =>
      obtain ⟨a, flush, fence, hsub, -⟩ := hforced
      cases hsub
  | @execute done memory hrun e ih =>
      rcases forced_concat_iff.mp hforced with hforced | ⟨hfence, hflushed⟩
      · have hmem := ih hforced
        cases heffect : program.effect e <;> simp [Program.execute, heffect, hmem]
      · simp [Program.execute, hfence, hrun.flushed.mpr hflushed]
  | evict hrun a ih => exact .inl (ih hforced)

theorem Run.stored_of_persisted (h : Run program done memory) {x : ω}
    (hmem : x ∈ memory.persisted) : Stored program done x := by
  induction h with
  | start => cases hmem
  | @execute done memory hrun e ih =>
      rw [stored_concat_iff]
      cases heffect : program.effect e with
      | fence =>
          simp only [Program.execute, heffect, Set.mem_union, Set.mem_ofPred_eq] at hmem
          rcases hmem with hmem | hmem
          · exact .inl (ih hmem)
          · exact .inl (hrun.flushed.mp hmem).stored
      | store a | flush a | other =>
          simp only [Program.execute, heffect] at hmem
          exact .inl (ih hmem)
  | evict hrun a ih =>
      rcases hmem with hmem | hmem
      · exact ih hmem
      · exact hrun.stored.mp hmem.1

theorem Run.coherent (h : Run program done memory) (hnodup : done.Nodup) :
    Coherent program done memory.persisted := by
  induction h with
  | start =>
      intro x y a hbefore
      cases hbefore
  | @execute done memory hrun e ih =>
      obtain ⟨hdone, -, hfresh⟩ := List.nodup_append.mp hnodup
      have hcoherent := ih hdone
      have hold : ∀ y ∈ memory.persisted, y ≠ e := by
        rintro y hmem rfl
        exact hfresh y (hrun.stored_of_persisted hmem).1 y (by simp) rfl
      intro x y a hbefore hx hy hmem
      have hkeep : y ∈ memory.persisted → x ∈ memory.persisted := by
        intro hmem
        refine hcoherent x y a ?_ hx hy hmem
        exact (before_concat_iff.mp hbefore).resolve_right fun hlast => hold y hmem hlast.1
      cases heffect : program.effect e with
      | fence =>
          simp only [Program.execute, heffect, Set.mem_union, Set.mem_ofPred_eq] at hmem ⊢
          rcases hmem with hmem | hmem
          · exact .inl (hkeep hmem)
          · -- both stores stand in front of the flush
            obtain ⟨a', flush, hflush, hy', hrest⟩ := hrun.flushed.mp hmem
            obtain rfl : a' = a := Effect.store.inj (hy'.symm.trans hy)
            have hxy : Before done x y := by
              refine (before_concat_iff.mp hbefore).resolve_right fun hlast => ?_
              exact hfresh y hflush.mem.1 e (by simp) hlast.1
            exact .inr (hrun.flushed.mpr ⟨a', flush, hxy.chain hdone hflush, hx, hrest⟩)
      | store b | flush b | other =>
          simp only [Program.execute, heffect] at hmem ⊢
          exact hkeep hmem
  | @evict done memory hrun b ih =>
      intro x y a hbefore hx hy hmem
      rcases hmem with hmem | ⟨hmem, hb⟩
      · exact .inl (ih hnodup x y a hbefore hx hy hmem)
      · obtain rfl : a = b := Effect.store.inj (hy.symm.trans hb)
        exact .inr ⟨hrun.stored.mpr ⟨hbefore.mem.1, a, hx⟩, hx⟩

/-- A run whose memory lacks nothing but the store that comes next goes on to the whole memory. -/
theorem Run.exists_concat {e : ω} {persisted : Set ω} (hrun : Run program done memory)
    (hpersisted : memory.persisted = {x | x ∈ persisted ∧ x ∈ done})
    (hforced : ∀ x, Forced program (done ++ [e]) x → x ∈ persisted)
    (hstored : ∀ x ∈ persisted, Stored program (done ++ [e]) x)
    (hcoherent : Coherent program (done ++ [e]) persisted) :
    ∃ memory' : Memory ω τ, Run program (done ++ [e]) memory' ∧ memory'.persisted = persisted := by
  have hlast : ∀ x ∈ persisted, x ∈ done ∨ (x = e ∧ ∃ a, program.effect e = .store a) :=
    fun x hx => (stored_concat_iff.mp (hstored x hx)).imp And.left id
  by_cases he : e ∈ persisted
  · -- the line is evicted as soon as it is written
    obtain ⟨a, ha⟩ := (hstored e he).2
    refine ⟨_, (hrun.execute e).evict a, Set.ext fun x => ?_⟩
    have hbefore : x ∈ done → program.effect x = .store a → x ∈ persisted := fun hx hxa =>
      hcoherent x e a (before_concat_iff.mpr (.inr ⟨rfl, hx⟩)) hxa ha he
    simp only [Program.evict, Program.execute, ha, hpersisted, Set.mem_union,
      Set.mem_ofPred_eq, Set.mem_insert_iff, hrun.stored]
    constructor
    · rintro (hx | ⟨rfl | hx, hxa⟩)
      exacts [hx.1, he, hbefore hx.1 hxa]
    · intro hx
      rcases hlast x hx with hmem | ⟨rfl, -⟩
      exacts [.inl ⟨hx, hmem⟩, .inr ⟨.inl rfl, ha⟩]
  · have hold : ∀ x ∈ persisted, x ∈ done := fun x hx =>
      (hlast x hx).resolve_right fun hxe => he (hxe.1 ▸ hx)
    refine ⟨_, hrun.execute e, Set.ext fun x => ?_⟩
    cases heffect : program.effect e with
    | fence =>
        simp only [Program.execute, heffect, hpersisted, Set.mem_union, Set.mem_ofPred_eq,
          hrun.flushed]
        constructor
        · rintro (hx | hx)
          exacts [hx.1, hforced x (forced_concat_iff.mpr (.inr ⟨heffect, hx⟩))]
        · exact fun hx => .inl ⟨hx, hold x hx⟩
    | store a | flush a | other =>
        simp only [Program.execute, heffect, hpersisted, Set.mem_ofPred_eq]
        exact ⟨And.left, fun hx => ⟨hx, hold x hx⟩⟩

/-- Every coherent memory that holds what is forced is reached by some run. -/
theorem exists_run {persisted : Set ω} (hforced : ∀ x, Forced program done x → x ∈ persisted)
    (hstored : ∀ x ∈ persisted, Stored program done x)
    (hcoherent : Coherent program done persisted) :
    ∃ memory : Memory ω τ, Run program done memory ∧ memory.persisted = persisted := by
  induction done using List.reverseRecOn generalizing persisted with
  | nil =>
      refine ⟨.start, .start, ?_⟩
      refine (Set.eq_empty_iff_forall_notMem.mpr fun x hx => ?_).symm
      exact List.not_mem_nil (hstored x hx).1
  | append_singleton done e ih =>
      -- the statements in front leave behind what is not the new store
      have hforced' : ∀ x, Forced program done x → x ∈ persisted ∧ x ∈ done := fun x hx =>
        ⟨hforced x (forced_concat_iff.mpr (.inl hx)), hx.flushed.choose_spec.stored.1⟩
      have hcoherent' : Coherent program done {x | x ∈ persisted ∧ x ∈ done} :=
        fun x y a hbefore hx hy hmem =>
          ⟨hcoherent x y a (before_concat_iff.mpr (.inl hbefore)) hx hy hmem.1, hbefore.mem.1⟩
      obtain ⟨memory, hrun, hpersisted⟩ := ih hforced'
        (fun x hx => ⟨hx.2, (hstored x hx.1).2⟩) hcoherent'
      exact hrun.exists_concat hpersisted hforced hstored hcoherent

/-- The memory of a run is one of the coherent ones that hold what is forced, and each of these is
reached by some run. -/
theorem exists_run_iff (hnodup : done.Nodup) (persisted : Set ω) :
    (∃ memory : Memory ω τ, Run program done memory ∧ memory.persisted = persisted) ↔
      (∀ x, Forced program done x → x ∈ persisted) ∧
      (∀ x ∈ persisted, Stored program done x) ∧ Coherent program done persisted := by
  constructor
  · rintro ⟨memory, hrun, rfl⟩
    exact ⟨fun x => hrun.persisted_of_forced, fun x => hrun.stored_of_persisted,
      hrun.coherent hnodup⟩
  · rintro ⟨hforced, hstored, hcoherent⟩
    exact exists_run hforced hstored hcoherent

/-- Where an address is never flushed, everything but its stores may persist. -/
theorem exists_run_of_not_flush {a : α} (h : ∀ x ∈ done, program.effect x ≠ .flush a) :
    ∃ memory : Memory ω τ, Run program done memory ∧ ∀ x, x ∈ memory.persisted ↔
      Stored program done x ∧ program.effect x ≠ .store a := by
  set kept : Set ω := {x | Stored program done x ∧ program.effect x ≠ .store a}
  have hforced : ∀ x, Forced program done x → x ∈ kept := by
    intro x hx
    obtain ⟨t, hflushed⟩ := hx.flushed
    refine ⟨hflushed.stored, fun hxa => ?_⟩
    obtain ⟨b, flush, hbefore, hxb, hflush, -⟩ := hflushed
    obtain rfl := Effect.store.inj (hxb.symm.trans hxa)
    exact h flush hbefore.mem.2 hflush
  have hcoherent : Coherent program done kept := by
    rintro x y b hbefore hx hy ⟨-, hya⟩
    exact ⟨⟨hbefore.mem.1, b, hx⟩, fun hxa => hya (hy.trans (hx.symm.trans hxa))⟩
  obtain ⟨memory, hrun, hpersisted⟩ := exists_run hforced (fun x hx => hx.1) hcoherent
  exact ⟨memory, hrun, fun x => by rw [hpersisted]; rfl⟩

end Run

/-! ### What every crash keeps -/

section Crash

variable {program : Program ω α τ} {order left right : List ω} {first second x y : ω}

theorem Forced.of_before {a : α} (h : Forced program order y) (hnodup : order.Nodup)
    (hbefore : Before order x y) (hx : program.effect x = .store a)
    (hy : program.effect y = .store a) : Forced program order x := by
  obtain ⟨a', flush, fence, hsub, hy', hrest⟩ := h
  obtain rfl : a' = a := Effect.store.inj (hy'.symm.trans hy)
  have hflush : Before order y flush :=
    List.Sublist.trans (List.sublist_append_left [y, flush] [fence]) hsub
  have hfence : Before order flush fence :=
    List.Sublist.trans (List.sublist_cons_self y [flush, fence]) hsub
  exact ⟨a', flush, fence,
    Schedule.triple_sublist hnodup (hbefore.chain hnodup hflush) hfence, hx, hrest⟩

/-- In front of `second` the store `first` is flushed and a fence waits for the flush. -/
def ForcedBefore (program : Program ω α τ) (order : List ω) (first second : ω) : Prop :=
  ∃ a flush fence, [first, flush, fence, second].Sublist order ∧ program.effect first = .store a ∧
    program.effect flush = .flush a ∧ program.effect fence = .fence ∧
    program.thread fence = program.thread flush

/-- Wherever a crash breaks off, `second` has not persisted without `first`. -/
def PersistsFirst (program : Program ω α τ) (order : List ω) (first second : ω) : Prop :=
  ∀ persisted, Crash program order persisted → second ∈ persisted → first ∈ persisted

theorem ForcedBefore.mono {order' : List ω} (h : ForcedBefore program order first second)
    (hsub : order.Sublist order') : ForcedBefore program order' first second := by
  obtain ⟨a, flush, fence, hlist, hrest⟩ := h
  exact ⟨a, flush, fence, hlist.trans hsub, hrest⟩

theorem ForcedBefore.forced (h : ForcedBefore program order first second) :
    Forced program order first := by
  obtain ⟨a, flush, fence, hlist, hrest⟩ := h
  exact ⟨a, flush, fence,
    (List.sublist_append_left [first, flush, fence] [second]).trans hlist, hrest⟩

theorem sublist_of_concat_sublist (list : List ω) (hleft : x ∉ left) (hright : x ∉ right)
    (hsub : (list ++ [x]).Sublist (left ++ x :: right)) : list.Sublist left := by
  obtain ⟨front, back, heq, hfront, hback⟩ := List.sublist_append_iff.mp hsub
  rcases List.append_eq_append_iff.mp heq with ⟨mid, rfl, hmid⟩ | ⟨mid, rfl, hmid⟩
  · cases mid with
    | nil => simpa using hfront
    | cons y mid =>
        obtain ⟨rfl, -⟩ := List.cons.inj hmid
        exact absurd (hfront.subset (by simp)) hleft
  · subst hmid
    cases mid with
    | nil => simpa using hfront
    | cons y mid =>
        cases hback with
        | cons _ hback => exact absurd (hback.subset (by simp)) hright
        | cons_cons _ hback => exact absurd (hback.subset (by simp)) hright

theorem forcedBefore_append_iff (hleft : second ∉ left) (hright : second ∉ right) :
    ForcedBefore program (left ++ second :: right) first second ↔ Forced program left first := by
  constructor
  · rintro ⟨a, flush, fence, hsub, hrest⟩
    exact ⟨a, flush, fence, sublist_of_concat_sublist [first, flush, fence] hleft hright hsub, hrest⟩
  · rintro ⟨a, flush, fence, hsub, hrest⟩
    exact ⟨a, flush, fence,
      hsub.append (List.singleton_sublist.mpr (by simp) : [second].Sublist (second :: right)),
      hrest⟩

theorem notMem_of_nodup (hnodup : (left ++ second :: right).Nodup) :
    second ∉ left ∧ second ∉ right := by
  have hmiddle := (List.nodup_cons.mp (List.nodup_middle.mp hnodup)).1
  rwa [List.mem_append, not_or] at hmiddle

/-- Only the second store has to be one of a kind. -/
theorem ForcedBefore.persistsFirst {p : ω → Bool} (h : ForcedBefore program order first second)
    (hnodup : (order.filter p).Nodup) (hp : p second = true) :
    PersistsFirst program order first second := by
  rintro persisted ⟨done, memory, ⟨rest, rfl⟩, hrun, rfl⟩ hpersisted
  obtain ⟨left, right, rfl⟩ := List.append_of_mem (hrun.stored_of_persisted hpersisted).1
  rw [List.append_assoc, List.cons_append] at h hnodup
  rw [List.filter_append, List.filter_cons_of_pos hp] at hnodup
  have hnot := notMem_of_nodup hnodup
  have hleft : second ∉ left := fun hmem => hnot.1 (List.mem_filter.mpr ⟨hmem, hp⟩)
  have hright : second ∉ right ++ rest := fun hmem => hnot.2 (List.mem_filter.mpr ⟨hmem, hp⟩)
  exact hrun.persisted_of_forced
    (((forcedBefore_append_iff hleft hright).mp h).mono (List.sublist_append_left _ _))

/-- **Order of persistence.** Two stores persist in order in every crash exactly when the first is
flushed and fenced in front of the second, or both go to one address. -/
theorem persistsFirst_iff (hnodup : order.Nodup) (hmem : second ∈ order)
    (hstore : ∃ a, program.effect second = .store a) (hne : first ≠ second) :
    PersistsFirst program order first second ↔ ForcedBefore program order first second ∨
      (Before order first second ∧ ∃ a, program.effect first = .store a ∧
        program.effect second = .store a) := by
  constructor
  · intro h
    obtain ⟨left, right, rfl⟩ := List.append_of_mem hmem
    obtain ⟨hleft, hright⟩ := notMem_of_nodup hnodup
    rw [forcedBefore_append_iff hleft hright]
    set done := left ++ [second] with hdone
    have hprefix : done <+: left ++ second :: right := ⟨right, by simp [hdone]⟩
    have hnodupDone : done.Nodup := hnodup.sublist hprefix.sublist
    obtain ⟨b, hb⟩ := hstore
    -- besides what is forced, only the address of the second store is written back
    set kept : Set ω := {x | Forced program done x ∨ (x ∈ done ∧ program.effect x = .store b)}
    have hstored : ∀ x ∈ kept, Stored program done x := by
      rintro x (hforced | ⟨hx, hxb⟩)
      · exact hforced.flushed.choose_spec.stored
      · exact ⟨hx, b, hxb⟩
    have hcoherent : Coherent program done kept := by
      rintro x y a hbefore hx hy (hforced | ⟨-, hyb⟩)
      · exact .inl (hforced.of_before hnodupDone hbefore hx hy)
      · exact .inr ⟨hbefore.mem.1, hx.trans (hy.symm.trans hyb)⟩
    obtain ⟨memory, hrun, hpersisted⟩ :=
      (exists_run_iff hnodupDone kept).mpr ⟨fun x => .inl, hstored, hcoherent⟩
    have hsecond : second ∈ kept := .inr ⟨by simp [hdone], hb⟩
    rcases h kept ⟨done, memory, hprefix, hrun, hpersisted⟩ hsecond with hforced | ⟨hfirst, hb'⟩
    · refine .inl ((forced_concat_iff.mp hforced).resolve_right fun hfence => ?_)
      rw [hb] at hfence
      cases hfence.1
    · have hleft : first ∈ left := by simpa [hdone, hne] using hfirst
      exact .inr ⟨Schedule.before_of_append hleft (by simp), b, hb', hb⟩
  · rintro (hforced | ⟨hbefore, a, hfirst, hsecond⟩)
    · exact hforced.persistsFirst (p := fun _ => true) (by simpa using hnodup) rfl
    · rintro persisted ⟨done, memory, ⟨rest, rfl⟩, hrun, rfl⟩ hpersisted
      have hdone := (hrun.stored_of_persisted hpersisted).1
      have hprefix := (List.prefix_append done rest).sublist
      obtain ⟨left, right, rfl⟩ := List.append_of_mem hdone
      rw [List.append_assoc, List.cons_append] at hbefore
      obtain ⟨hleft, hright⟩ := notMem_of_nodup (by simpa using hnodup)
      have hfirstLeft : first ∈ left :=
        List.singleton_sublist.mp (sublist_of_concat_sublist [first] hleft hright hbefore)
      exact hrun.coherent (hnodup.sublist hprefix) first second a
        (Schedule.before_of_append hfirstLeft (by simp)) hfirst hsecond hpersisted

/-- Without a flush of the first store's address a crash may keep the second store alone. -/
theorem not_persistsFirst_of_not_flush {a : α} (hfirst : program.effect first = .store a)
    (hflush : ∀ x ∈ order, program.effect x ≠ .flush a) (hmem : second ∈ order)
    (hstore : ∃ b, program.effect second = .store b) (hne : program.effect second ≠ .store a) :
    ¬PersistsFirst program order first second := by
  intro h
  obtain ⟨memory, hrun, hpersisted⟩ := exists_run_of_not_flush hflush
  have hkept := h memory.persisted ⟨order, memory, List.prefix_rfl, hrun, rfl⟩
    ((hpersisted second).mpr ⟨⟨hmem, hstore⟩, hne⟩)
  exact ((hpersisted first).mp hkept).2 hfirst

end Crash

end Persistency
