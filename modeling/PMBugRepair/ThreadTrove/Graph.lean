import PMBugRepair.Machine.Runs
import Mathlib.Data.List.Basic

/-!
# Threads on a graph

`addEdge` and `removeEdge` visit the adjacency list of one end and then that of the other end, each
under the lock of that vertex. Every visit is one step, so another call may come between the two.
-/

namespace PMBugRepair

open Machine (Reaches)

inductive EdgeCall where
  | addEdge
  | removeEdge
  deriving DecidableEq, Repr

/-- One critical section on a vertex: a new node becomes the head, or the first node of the vertex
is unlinked. -/
def EdgeCall.visit : EdgeCall → List Nat → Nat → List Nat
  | .addEdge, list, vertex => vertex :: list
  | .removeEdge, list, vertex => list.erase vertex

/-- A call that has visited `src` and not yet `dest`. -/
structure HalfDone where
  thread : Nat
  call : EdgeCall
  src : Nat
  dest : Nat
  deriving DecidableEq, Repr

structure GraphThreads where
  numVertices : Nat
  array : Nat → List Nat
  halfDone : List HalfDone

inductive GraphStep where
  | start (thread : Nat) (call : EdgeCall) (src dest : Nat)
  | finish (thread : Nat)
  deriving DecidableEq, Repr

namespace GraphThreads

def createGraph (vertices : Nat) : GraphThreads :=
  { numVertices := vertices, array := fun _ => [], halfDone := [] }

def visit (state : GraphThreads) (call : EdgeCall) (place vertex : Nat) : Nat → List Nat :=
  Function.update state.array place (call.visit (state.array place) vertex)

/-- A thread makes one call at a time, with vertices of the graph. -/
def step (state : GraphThreads) : GraphStep → Option GraphThreads
  | .start thread call src dest =>
      if src < state.numVertices ∧ dest < state.numVertices ∧
          ∀ half ∈ state.halfDone, half.thread ≠ thread then
        some { state with
          array := state.visit call src dest
          halfDone := ⟨thread, call, src, dest⟩ :: state.halfDone }
      else none
  | .finish thread => do
      let half ← state.halfDone.find? (·.thread = thread)
      return { state with
        array := state.visit half.call half.dest half.src
        halfDone := state.halfDone.erase half }

/-- Outside of calls both ends of an edge have it equally often. -/
def Symmetric (state : GraphThreads) : Prop :=
  state.halfDone = [] → ∀ u v, u ≠ v → (state.array u).count v = (state.array v).count u

/-- How many calls have yet to visit `u` for `v`. -/
def due (state : GraphThreads) (call : EdgeCall) (u v : Nat) : Nat :=
  state.halfDone.countP fun half => half.call = call ∧ half.dest = u ∧ half.src = v

/-- The nodes of `v` in the list of `u`, with those still to be added, are enough for the calls that
have yet to remove one. -/
def Suffices (state : GraphThreads) (u v : Nat) : Prop :=
  state.due .removeEdge u v ≤ (state.array u).count v + state.due .addEdge u v

/-- If `v` is not in the list of `u`, no call has yet to add it there. -/
def FoundOrAbsent (state : GraphThreads) (u v : Nat) : Prop :=
  v ∉ state.array u → state.due .addEdge u v = 0

/-- What a step needs: a call that removes finds a node unless none is due, and a call that adds
does not bring one for a call that found none. -/
def Ordered (state : GraphThreads) : GraphStep → Prop
  | .start _ .addEdge src dest => src ≠ dest → state.Suffices src dest ∧ state.Suffices dest src
  | .start _ .removeEdge src dest => src ≠ dest → state.FoundOrAbsent src dest
  | .finish thread => ∀ half ∈ state.halfDone, half.thread = thread → half.call = .removeEdge →
      half.src ≠ half.dest → state.FoundOrAbsent half.dest half.src

instance (state : GraphThreads) (u v : Nat) : Decidable (state.Suffices u v) :=
  inferInstanceAs (Decidable (_ ≤ _))

instance (state : GraphThreads) (u v : Nat) : Decidable (state.FoundOrAbsent u v) :=
  inferInstanceAs (Decidable (_ ∉ _ → _))

instance (state : GraphThreads) (action : GraphStep) : Decidable (state.Ordered action) :=
  match action with
  | .start _ .addEdge src dest => inferInstanceAs (Decidable
      (src ≠ dest → state.Suffices src dest ∧ state.Suffices dest src))
  | .start _ .removeEdge src dest => inferInstanceAs (Decidable
      (src ≠ dest → state.FoundOrAbsent src dest))
  | .finish thread => inferInstanceAs (Decidable
      (∀ half ∈ state.halfDone, half.thread = thread → half.call = .removeEdge →
        half.src ≠ half.dest → state.FoundOrAbsent half.dest half.src))

/-! ### Both ends of an edge -/

/-- What is left of `v` in the list of `u` when all calls are done. -/
def left (state : GraphThreads) (u v : Nat) : Nat :=
  (state.array u).count v + state.due .addEdge u v - state.due .removeEdge u v

def Balanced (state : GraphThreads) : Prop := ∀ u v, u ≠ v → state.left u v = state.left v u

theorem Balanced.symmetric {state : GraphThreads} (h : state.Balanced) : state.Symmetric := by
  intro hdone u v hne
  have hleft := h u v hne
  simpa [left, due, hdone] using hleft

theorem count_visit (state : GraphThreads) (call : EdgeCall) (x y u v : Nat) :
    (state.visit call x y u).count v = if u = x ∧ v = y then
      (match call with
        | .addEdge => (state.array u).count v + 1
        | .removeEdge => (state.array u).count v - 1)
      else (state.array u).count v := by
  unfold visit
  by_cases hu : u = x
  · subst hu
    rw [Function.update_self]
    by_cases hv : v = y
    · subst hv
      cases call <;> simp [EdgeCall.visit]
    · have hvy : y ≠ v := fun heq => hv heq.symm
      cases call <;> simp [EdgeCall.visit, hv, hvy, List.count_erase_of_ne]
  · rw [Function.update_of_ne hu, if_neg fun h => hu h.1]

theorem due_cons (state : GraphThreads) (array : Nat → List Nat) (half : HalfDone)
    (call : EdgeCall) (u v : Nat) :
    due { state with array := array, halfDone := half :: state.halfDone } call u v =
      state.due call u v + if half.call = call ∧ half.dest = u ∧ half.src = v then 1 else 0 := by
  simp [due, List.countP_cons]

theorem due_erase (state : GraphThreads) (array : Nat → List Nat) {half : HalfDone}
    (hmem : half ∈ state.halfDone) (call : EdgeCall) (u v : Nat) :
    due { state with array := array, halfDone := state.halfDone.erase half } call u v +
      (if half.call = call ∧ half.dest = u ∧ half.src = v then 1 else 0) =
      state.due call u v := by
  have hperm := (List.perm_cons_erase hmem).countP_eq
    fun half => decide (half.call = call ∧ half.dest = u ∧ half.src = v)
  rw [List.countP_cons] at hperm
  simpa [due] using hperm.symm

variable {state next : GraphThreads}

/-- Only the two ends of the edge of a step matter. -/
theorem balanced_of_edge (h : state.Balanced) (src dest : Nat)
    (hothers : ∀ u v, u ≠ v → ¬(u = src ∧ v = dest) → ¬(u = dest ∧ v = src) →
      next.left u v = state.left u v)
    (hedge : src ≠ dest → next.left src dest = next.left dest src) : next.Balanced := by
  intro u v hne
  by_cases hforth : u = src ∧ v = dest
  · obtain ⟨rfl, rfl⟩ := hforth
    exact hedge hne
  · by_cases hback : u = dest ∧ v = src
    · obtain ⟨rfl, rfl⟩ := hback
      exact (hedge hne.symm).symm
    · rw [hothers u v hne hforth hback, h u v hne]
      exact (hothers v u hne.symm (fun heq => hback heq.symm) fun heq => hforth heq.symm).symm

theorem FoundOrAbsent.or {u v : Nat} (h : state.FoundOrAbsent u v) :
    0 < (state.array u).count v ∨ state.due .addEdge u v = 0 := by
  by_cases hmem : v ∈ state.array u
  · exact .inl (List.count_pos_iff.mpr hmem)
  · exact .inr (h hmem)

theorem Balanced.start (h : state.Balanced) {thread src dest : Nat} {call : EdgeCall}
    (hordered : state.Ordered (.start thread call src dest))
    (hstep : state.step (.start thread call src dest) = some next) : next.Balanced := by
  rw [step] at hstep
  split_ifs at hstep
  obtain rfl := Option.some.inj hstep
  apply balanced_of_edge h src dest
  · intro u v hne hforth hback
    have hback' : ¬(dest = u ∧ src = v) := fun heq => hback ⟨heq.1.symm, heq.2.symm⟩
    simp [left, due_cons, count_visit, hforth, hback']
  · intro hne
    have hbalance := h src dest hne
    cases call with
    | addEdge =>
        obtain ⟨hforth, hback⟩ := hordered hne
        unfold Suffices at hforth hback
        simp [left, due_cons, count_visit, hne, hne.symm] at hbalance ⊢
        omega
    | removeEdge =>
        have hfound := (hordered hne).or
        simp [left, due_cons, count_visit, hne, hne.symm] at hbalance ⊢
        omega

theorem Balanced.finish (h : state.Balanced) {thread : Nat}
    (hordered : state.Ordered (.finish thread))
    (hstep : state.step (.finish thread) = some next) : next.Balanced := by
  obtain ⟨half, hfind, hstep⟩ := Option.bind_eq_some_iff.mp hstep
  obtain rfl := Option.some.inj hstep
  have hmem := List.mem_of_find?_eq_some hfind
  have hthread : half.thread = thread := by simpa using List.find?_some hfind
  have hdue := due_erase state (state.visit half.call half.dest half.src) hmem
  apply balanced_of_edge h half.dest half.src
  · intro u v hne hforth hback
    have hforth' : ¬(half.dest = u ∧ half.src = v) := fun heq => hforth ⟨heq.1.symm, heq.2.symm⟩
    have hadd := hdue .addEdge u v
    have hremove := hdue .removeEdge u v
    simp only [hforth', and_false, if_false, Nat.add_zero] at hadd hremove
    simp only [left, count_visit, if_neg hforth, hadd, hremove]
  · intro hne
    have hbalance := h half.dest half.src hne
    have hadd := hdue .addEdge half.dest half.src
    have hadd' := hdue .addEdge half.src half.dest
    have hremove := hdue .removeEdge half.dest half.src
    have hremove' := hdue .removeEdge half.src half.dest
    have hcall := hordered half hmem hthread
    unfold left at hbalance ⊢
    rw [count_visit, count_visit]
    cases hkind : half.call with
    | addEdge =>
        simp [hkind, hne, hne.symm] at hadd hadd' hremove hremove' ⊢
        omega
    | removeEdge =>
        have hfound := (hcall hkind hne.symm).or
        simp [hkind, hne, hne.symm] at hadd hadd' hremove hremove' ⊢
        omega

theorem Balanced.step (h : state.Balanced) {action : GraphStep} (hordered : state.Ordered action)
    (hstep : state.step action = some next) : next.Balanced := by
  cases action with
  | start thread call src dest => exact h.start hordered hstep
  | finish thread => exact h.finish hordered hstep

end GraphThreads

/-- In every run in which the calls on an edge are ordered, its ends agree outside of calls. -/
theorem symmetric_of_ordered {vertices : Nat} {actions : List GraphStep} {state : GraphThreads}
    (h : Reaches GraphThreads.step GraphThreads.Ordered (.createGraph vertices) actions state) :
    state.Symmetric := by
  have hbalanced : state.Balanced := by
    apply h.invariant
    · exact fun u v hne => rfl
    · intro state action next hbalanced hordered hstep
      exact hbalanced.step hordered hstep
  exact hbalanced.symmetric

/-- The edge of one thread is removed by another one while a third thread adds it again. -/
theorem symmetric_of_ordered_three_threads : ∃ state,
    Reaches GraphThreads.step GraphThreads.Ordered (.createGraph 2)
      [.start 1 .addEdge 0 1, .finish 1, .start 2 .removeEdge 0 1, .start 3 .addEdge 1 0,
        .finish 2, .finish 3] state ∧ state.halfDone = [] ∧ state.Symmetric := by
  obtain ⟨state, hreach, hdone⟩ : ∃ state,
      Reaches GraphThreads.step GraphThreads.Ordered (.createGraph 2)
        [.start 1 .addEdge 0 1, .finish 1, .start 2 .removeEdge 0 1, .start 3 .addEdge 1 0,
          .finish 2, .finish 3] state ∧ state.halfDone = [] :=
    ⟨_, Machine.reaches_of_foldlM rfl, rfl⟩
  exact ⟨state, hreach, hdone, symmetric_of_ordered hreach⟩

/-- A call that removes the edge comes between the two visits of a call that adds it: it takes the
one end out and does not find the other one yet. -/
theorem not_symmetric_removed_half :
    ¬∀ (vertices : Nat) (actions : List GraphStep) (state : GraphThreads),
      Reaches GraphThreads.step (fun _ _ => True) (.createGraph vertices) actions state →
        state.Symmetric := by
  intro h
  obtain ⟨state, hreach, hdone, hcount⟩ : ∃ state,
      Reaches GraphThreads.step (fun _ _ => True) (.createGraph 2)
        [.start 1 .addEdge 0 1, .start 2 .removeEdge 0 1, .finish 2, .finish 1] state ∧
      state.halfDone = [] ∧ (state.array 0).count 1 ≠ (state.array 1).count 0 :=
    ⟨_, Machine.reaches_of_foldlM rfl, rfl, by decide⟩
  exact hcount (h 2 _ state hreach hdone 0 1 (by decide))

end PMBugRepair
