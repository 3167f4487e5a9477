import PMBugRepair.Step1.Thread

/-!
# Placements that exist

The flush equations that `repairDURA` returns never contradict each other or the order of the
stores: give every store three consecutive slots, put its flush into the second, at most one chosen
fence into the third, and everything else behind. Sorting by slot is a placement of the thread.
-/

namespace PMBugRepair

open Smt (Formula Term Model Solver Satisfies)
open Schedule (Before position byTime)

/-- The equations of a list of pairs say that each flush stands directly behind its store. A store
occurs in one pair at most, and so does a flush. -/
structure Paired (thread : Trace) (pairs : List (Stmt × Stmt)) : Prop where
  store : ∀ pair ∈ pairs, pair.1 ∈ thread ∧ pair.1.op = .store
  flush : ∀ pair ∈ pairs, pair.2 ∈ thread ∧ pair.2.op = .flush
  stores_nodup : (pairs.map Prod.fst).Nodup
  flushes_nodup : (pairs.map Prod.snd).Nodup

theorem Paired.nil (thread : Trace) : Paired thread [] := ⟨by simp, by simp, by simp, by simp⟩

def adjacencies (pairs : List (Stmt × Stmt)) : List (Formula Var) :=
  pairs.map fun pair => adjacent pair.1 pair.2

/-- The place of a store among the stores. -/
def storeRank (thread : Trace) (store : Stmt) : Int := position (thread.filter Stmt.isStore) store

/-- The slot of a statement. `extra` is a store and the fence that goes behind it. -/
def slot (thread : Trace) (pairs : List (Stmt × Stmt)) (extra : Option (Stmt × Stmt))
    (stmt : Stmt) : Int :=
  if stmt.op = .store then 3 * storeRank thread stmt
  else match pairs.find? (·.2 = stmt) with
    | some pair => 3 * storeRank thread pair.1 + 1
    | none =>
        match extra.filter (·.2 = stmt) with
        | some pair => 3 * storeRank thread pair.1 + 2
        | none => 3 * (thread.length + 1) + position thread stmt

section Slots

variable {thread : Trace} {pairs : List (Stmt × Stmt)} {extra : Option (Stmt × Stmt)}

theorem slot_store {stmt : Stmt} (hop : stmt.op = .store) :
    slot thread pairs extra stmt = 3 * storeRank thread stmt := by
  rw [slot, if_pos hop]

theorem slot_flush (hpaired : Paired thread pairs) {pair : Stmt × Stmt} (hpair : pair ∈ pairs) :
    slot thread pairs extra pair.2 = 3 * storeRank thread pair.1 + 1 := by
  have hop := (hpaired.flush pair hpair).2
  have hfind : pairs.find? (·.2 = pair.2) = some pair := by
    cases hfound : pairs.find? (·.2 = pair.2) with
    | none =>
        rw [List.find?_eq_none] at hfound
        exact absurd (by simp) (hfound pair hpair)
    | some other =>
        have hsnd : other.2 = pair.2 := by simpa using List.find?_some hfound
        rw [List.inj_on_of_nodup_map hpaired.flushes_nodup (List.mem_of_find?_eq_some hfound) hpair
          hsnd]
  rw [slot, if_neg (by simp [hop]), hfind]

theorem slot_cases (thread : Trace) (pairs : List (Stmt × Stmt)) (extra : Option (Stmt × Stmt))
    (stmt : Stmt) :
    (stmt.op = .store ∧ slot thread pairs extra stmt = 3 * storeRank thread stmt) ∨
      (stmt.op ≠ .store ∧ ∃ pair ∈ pairs, pair.2 = stmt ∧
        slot thread pairs extra stmt = 3 * storeRank thread pair.1 + 1) ∨
      (stmt.op ≠ .store ∧ (∀ pair ∈ pairs, pair.2 ≠ stmt) ∧ ∃ pair, extra = some pair ∧
        pair.2 = stmt ∧ slot thread pairs extra stmt = 3 * storeRank thread pair.1 + 2) ∨
      (stmt.op ≠ .store ∧ (∀ pair, extra = some pair → pair.2 ≠ stmt) ∧
        slot thread pairs extra stmt = 3 * (thread.length + 1) + position thread stmt) := by
  unfold slot
  by_cases hop : stmt.op = .store
  · exact .inl ⟨hop, if_pos hop⟩
  · simp only [hop, if_false, ne_eq, not_false_eq_true, true_and, false_and, false_or]
    cases hfind : pairs.find? (·.2 = stmt) with
    | some pair =>
        exact .inl ⟨pair, List.mem_of_find?_eq_some hfind, by simpa using List.find?_some hfind,
          rfl⟩
    | none =>
        rw [List.find?_eq_none] at hfind
        have hnone : ∀ pair ∈ pairs, pair.2 ≠ stmt := fun pair hpair => by
          simpa using hfind pair hpair
        cases hextra : extra with
        | none => exact .inr (.inr ⟨by simp, by simp⟩)
        | some pair =>
            by_cases heq : pair.2 = stmt
            · exact .inr (.inl ⟨hnone, pair, rfl, heq, by simp [Option.filter, heq]⟩)
            · exact .inr (.inr ⟨by simpa using heq, by simp [Option.filter, heq]⟩)

theorem storeRank_bounds {stmt : Stmt} (hmem : stmt ∈ thread) (hop : stmt.op = .store) :
    0 < storeRank thread stmt ∧ storeRank thread stmt ≤ thread.length := by
  have hstore : stmt ∈ thread.filter Stmt.isStore := List.mem_filter.mpr ⟨hmem, by simpa using hop⟩
  have hbounds := Schedule.position_bounds hstore
  have hle := List.length_filter_le Stmt.isStore thread
  unfold storeRank
  omega

theorem storeRank_inj {x y : Stmt} (hmem : x ∈ thread) (hop : x.op = .store)
    (heq : storeRank thread x = storeRank thread y) : x = y :=
  Schedule.position_injOn (List.mem_filter.mpr ⟨hmem, by simpa using hop⟩) heq

theorem storeRank_lt (hnodup : thread.Nodup) {x y : Stmt} (h : Before thread x y)
    (hx : x.op = .store) (hy : y.op = .store) : storeRank thread x < storeRank thread y :=
  (h.filter (by simpa using hx) (by simpa using hy)).position_lt (hnodup.filter _)

theorem slot_injOn (hpaired : Paired thread pairs)
    (hextra : ∀ pair, extra = some pair → pair.1 ∈ thread ∧ pair.1.op = .store) {x y : Stmt}
    (hx : x ∈ thread) (hy : y ∈ thread)
    (heq : slot thread pairs extra x = slot thread pairs extra y) : x = y := by
  have hposx := Schedule.position_bounds hx
  have hposy := Schedule.position_bounds hy
  have hbound : ∀ pair ∈ pairs, storeRank thread pair.1 ≤ thread.length := fun pair hpair =>
    (storeRank_bounds (hpaired.store pair hpair).1 (hpaired.store pair hpair).2).2
  have hboundExtra : ∀ pair, extra = some pair → storeRank thread pair.1 ≤ thread.length :=
    fun pair hpair => (storeRank_bounds (hextra pair hpair).1 (hextra pair hpair).2).2
  rcases slot_cases thread pairs extra x with
    ⟨hopx, hslotx⟩ | ⟨-, px, hpx, rfl, hslotx⟩ | ⟨-, -, px, hpx, rfl, hslotx⟩ | ⟨-, -, hslotx⟩ <;>
  rcases slot_cases thread pairs extra y with
    ⟨hopy, hsloty⟩ | ⟨-, py, hpy, rfl, hsloty⟩ | ⟨-, -, py, hpy, rfl, hsloty⟩ | ⟨-, -, hsloty⟩ <;>
  rw [hslotx, hsloty] at heq
  · exact storeRank_inj hx hopx (by omega)
  · omega
  · omega
  · have := (storeRank_bounds hx hopx).2
    omega
  · omega
  · have hfst : px.1 = py.1 :=
      storeRank_inj (hpaired.store px hpx).1 (hpaired.store px hpx).2 (by omega)
    rw [List.inj_on_of_nodup_map hpaired.stores_nodup hpx hpy hfst]
  · omega
  · have := hbound px hpx
    omega
  · omega
  · omega
  · rw [hpx] at hpy
    cases hpy
    rfl
  · have := hboundExtra px hpx
    omega
  · have := (storeRank_bounds hy hopy).2
    omega
  · have := hbound py hpy
    omega
  · have := hboundExtra py hpy
    omega
  · exact Schedule.position_injOn hx (by omega)

end Slots

/-! ### Assignments from an arrangement -/

def arrangement (thread : Trace) (pairs : List (Stmt × Stmt)) (extra : Option (Stmt × Stmt)) :
    Trace :=
  byTime (slot thread pairs extra) thread

theorem arrangement_perm (thread : Trace) (pairs : List (Stmt × Stmt))
    (extra : Option (Stmt × Stmt)) : (arrangement thread pairs extra).Perm thread :=
  Schedule.byTime_perm _ thread

/-- Execution times are the places in an order, persist times are given. -/
def timesOf (thread order : Trace) (persist : Id → Int) : Var → Int
  | .pc id =>
      match lookup thread id with
      | some stmt => position order stmt
      | none => 0
  | .pt id => persist id

theorem lookup_of_mem {thread : Trace} (hids : (thread.map Stmt.id).Nodup) {stmt : Stmt}
    (hmem : stmt ∈ thread) : lookup thread stmt.id = some stmt := by
  cases hlookup : lookup thread stmt.id with
  | none =>
      unfold lookup at hlookup
      rw [List.find?_eq_none] at hlookup
      exact absurd (by simp) (hlookup stmt (List.mem_reverse.mpr hmem))
  | some other =>
      obtain ⟨hother, hid⟩ := lookup_eq_some hlookup
      rw [List.inj_on_of_nodup_map hids hother hmem hid]

theorem timesOf_pc {thread : Trace} (order : Trace) (persist : Id → Int)
    (hids : (thread.map Stmt.id).Nodup) {stmt : Stmt} (hmem : stmt ∈ thread) :
    timesOf thread order persist (.pc stmt.id) = position order stmt := by
  simp only [timesOf, lookup_of_mem hids hmem]

/-- Everything persists when it executes. -/
def persistAtOnce (thread order : Trace) (id : Id) : Int :=
  timesOf thread order (fun _ => 0) (.pc id)

theorem persistAtOnce_eq {thread : Trace} (order : Trace) (hids : (thread.map Stmt.id).Nodup)
    {stmt : Stmt} (hmem : stmt ∈ thread) :
    persistAtOnce thread order stmt.id = position order stmt :=
  timesOf_pc order _ hids hmem

/-- A thread whose statements can be arranged: different numbers, consistent flush equations, and an
extra fence that goes behind a store. -/
structure Arrangeable (thread : Trace) (pairs : List (Stmt × Stmt)) (extra : Option (Stmt × Stmt)) :
    Prop where
  ids : (thread.map Stmt.id).Nodup
  paired : Paired thread pairs
  extra : ∀ pair, extra = some pair → pair.1 ∈ thread ∧ pair.1.op = .store

namespace Arrangeable

variable {thread : Trace} {pairs : List (Stmt × Stmt)} {extra : Option (Stmt × Stmt)}
  (h : Arrangeable thread pairs extra)
include h

theorem nodup : (arrangement thread pairs extra).Nodup :=
  (arrangement_perm thread pairs extra).nodup_iff.mpr h.ids.of_map

theorem before_iff {x y : Stmt} (hx : x ∈ thread) (hy : y ∈ thread) :
    Before (arrangement thread pairs extra) x y ↔
      slot thread pairs extra x < slot thread pairs extra y :=
  Schedule.before_byTime_iff h.ids.of_map
    (fun hx hy => slot_injOn h.paired h.extra hx hy) hx hy

theorem position_lt_iff {x y : Stmt} (hx : x ∈ thread) (hy : y ∈ thread) :
    position (arrangement thread pairs extra) x < position (arrangement thread pairs extra) y ↔
      slot thread pairs extra x < slot thread pairs extra y := by
  have hperm := arrangement_perm thread pairs extra
  rw [← Schedule.before_iff_position_lt h.nodup (hperm.mem_iff.mpr hx) (hperm.mem_iff.mpr hy),
    h.before_iff hx hy]

theorem position_flush {pair : Stmt × Stmt} (hpair : pair ∈ pairs) :
    position (arrangement thread pairs extra) pair.2 =
      position (arrangement thread pairs extra) pair.1 + 1 := by
  obtain ⟨hstore, hop⟩ := h.paired.store pair hpair
  obtain ⟨hflush, -⟩ := h.paired.flush pair hpair
  have hslotStore : slot thread pairs extra pair.1 = 3 * storeRank thread pair.1 := slot_store hop
  have hslotFlush : slot thread pairs extra pair.2 = 3 * storeRank thread pair.1 + 1 :=
    slot_flush h.paired hpair
  refine Schedule.position_succ h.nodup ((h.before_iff hstore hflush).mpr (by omega)) ?_
  intro stmt hleft hright
  have hmem := (arrangement_perm thread pairs extra).mem_iff.mp hleft.mem.2
  have hlt := (h.before_iff hstore hmem).mp hleft
  have hgt := (h.before_iff hmem hflush).mp hright
  omega

/-- The places of an arrangement satisfy all constraints, whatever persist times fit to them. -/
theorem satisfies {a b : Id} {persist : Id → Int}
    (hpersist : ∀ store ∈ thread, store.op = .store →
      position (arrangement thread pairs extra) store ≤ persist store.id)
    (hfenced : ∀ store ∈ thread, ∀ fence ∈ thread, store.op = .store → fence.op = .fence →
      store.id = a ∨ store.id = b → slot thread pairs extra store < slot thread pairs extra fence →
      persist store.id ≤ position (arrangement thread pairs extra) fence) :
    Satisfies (timesOf thread (arrangement thread pairs extra) persist)
      (mpbAssertions thread a b (adjacencies pairs) []) := by
  have hpc {stmt : Stmt} (hmem : stmt ∈ thread) :=
    timesOf_pc (arrangement thread pairs extra) persist h.ids hmem
  refine satisfies_mpbAssertions.mpr ⟨⟨?_, ?_, ?_, ?_⟩, ?_, Smt.satisfies_nil, ?_⟩
  · intro stmt hmem
    have hbounds := Schedule.position_bounds
      ((arrangement_perm thread pairs extra).mem_iff.mpr hmem)
    rw [hpc hmem]
    rwa [(arrangement_perm thread pairs extra).length_eq] at hbounds
  · refine List.pairwise_iff_forall_sublist.mpr fun {x y} hsub => ?_
    have hx := List.mem_filter.mp (hsub.subset (List.mem_cons_self : x ∈ [x, y]))
    have hy := List.mem_filter.mp (hsub.subset (by simp : y ∈ [x, y]))
    have hopx : x.op = .store := by simpa using hx.2
    have hopy : y.op = .store := by simpa using hy.2
    rw [hpc hx.1, hpc hy.1, h.position_lt_iff hx.1 hy.1, slot_store hopx, slot_store hopy]
    have hlt := storeRank_lt h.ids.of_map (Before.of_filter hsub) hopx hopy
    omega
  · intro stmt hmem hop
    rw [hpc hmem]
    exact hpersist stmt hmem hop
  · intro store fence hbefore hop hbug hfence hlt
    obtain ⟨hstore, hmem⟩ := hbefore.mem
    rw [hpc hstore, hpc hmem, h.position_lt_iff hstore hmem] at hlt
    rw [hpc hmem]
    exact hfenced store hstore fence hmem hop hfence hbug hlt
  · refine Smt.satisfies_map.mpr fun pair hpair => ?_
    rw [holds_adjacent, hpc (h.paired.store pair hpair).1, hpc (h.paired.flush pair hpair).1,
      h.position_flush hpair]
    omega
  · rw [List.map_congr_left fun stmt hmem => hpc hmem]
    refine h.ids.of_map.map_on fun x hx y hy heq => ?_
    exact Schedule.position_injOn ((arrangement_perm thread pairs extra).mem_iff.mpr hx) heq

end Arrangeable

end PMBugRepair
