import PMBugRepair.Containers.StableQueue
import Mathlib.Algebra.Order.Ring.Int

/-!
# The linked priority queue

`priorityQueue.h` keeps its nodes in a list from the least priority on. It is compared with the list
of the elements in the order of their arrival, from which the oldest one among the least is taken.
-/

namespace PMBugRepair

open StableQueue (insertBehind Stable takeLeast)

structure PqNode where
  data : Int
  priority : Int
  deriving DecidableEq, Repr

def pqInit : List PqNode := []

/-- The loop behind `start`, which is given by the nodes after it. -/
def insertAfter (temp : PqNode) : List PqNode → List PqNode
  | [] => [temp]
  | next :: rest =>
      if next.priority ≤ temp.priority then next :: insertAfter temp rest else temp :: next :: rest

def pqInsert (head : List PqNode) (data priority : Int) : List PqNode :=
  let temp : PqNode := { data := data, priority := priority }
  match head with
  | [] => [temp]
  | start :: rest =>
      if start.priority > priority then temp :: start :: rest else start :: insertAfter temp rest

def pqExtractMin : List PqNode → Int × List PqNode
  | [] => (-1, [])
  | temp :: rest => (temp.data, rest)

inductive PqCall where
  | insert (data priority : Int)
  | extractMin
  deriving DecidableEq, Repr

/-- What the call returns, if anything, and the nodes from the head on. -/
def callPq (head : List PqNode) : PqCall → Option Int × List PqNode
  | .insert data priority => (none, pqInsert head data priority)
  | .extractMin => ((pqExtractMin head).1, (pqExtractMin head).2)

/-- The same on the elements in the order of their arrival. -/
def callArrivals (arrivals : List PqNode) : PqCall → Option Int × List PqNode
  | .insert data priority => (none, arrivals ++ [{ data := data, priority := priority }])
  | .extractMin =>
      match takeLeast PqNode.priority arrivals with
      | none => (some (-1), arrivals)
      | some (least, others) => (some least.data, others)

/-- The results of a sequence of calls, and the list afterwards. -/
def runCalls (call : List PqNode → PqCall → Option Int × List PqNode) :
    List PqNode → List PqCall → List (Option Int) × List PqNode
  | nodes, [] => ([], nodes)
  | nodes, next :: calls =>
      let (result, nodes) := call nodes next
      let (results, nodes) := runCalls call nodes calls
      (result :: results, nodes)

theorem insertAfter_eq (temp : PqNode) (rest : List PqNode) :
    insertAfter temp rest = insertBehind PqNode.priority temp rest := by
  induction rest with
  | nil => rfl
  | cons next rest ih => rw [insertAfter, insertBehind, ih]

/-- The case of the head and the loop agree on equal priorities. -/
theorem pqInsert_eq (head : List PqNode) (data priority : Int) :
    pqInsert head data priority = insertBehind PqNode.priority ⟨data, priority⟩ head := by
  cases head with
  | nil => rfl
  | cons start rest =>
      simp only [pqInsert, insertBehind, insertAfter_eq]
      by_cases hlt : start.priority > priority
      · rw [if_pos hlt, if_neg (not_le.mpr hlt)]
      · rw [if_neg hlt, if_pos (not_lt.mp hlt)]

variable {head arrivals : List PqNode}

theorem callPq_spec (h : Stable PqNode.priority head arrivals) (call : PqCall) :
    (callPq head call).1 = (callArrivals arrivals call).1 ∧
      Stable PqNode.priority (callPq head call).2 (callArrivals arrivals call).2 := by
  cases call with
  | insert data priority =>
      refine ⟨rfl, ?_⟩
      rw [callPq, callArrivals, pqInsert_eq]
      exact h.insert _
  | extractMin =>
      cases head with
      | nil =>
          obtain rfl := h.takeLeast_nil
          exact ⟨rfl, h⟩
      | cons temp rest =>
          obtain ⟨others, htake, hothers⟩ := h.takeLeast
          rw [callArrivals, htake]
          exact ⟨rfl, hothers⟩

theorem runCalls_spec (h : Stable PqNode.priority head arrivals) (calls : List PqCall) :
    (runCalls callPq head calls).1 = (runCalls callArrivals arrivals calls).1 ∧
      Stable PqNode.priority (runCalls callPq head calls).2
        (runCalls callArrivals arrivals calls).2 := by
  induction calls generalizing head arrivals with
  | nil => exact ⟨rfl, h⟩
  | cons call calls ih =>
      obtain ⟨hresult, hnext⟩ := callPq_spec h call
      obtain ⟨hresults, hlast⟩ := ih hnext
      refine ⟨?_, hlast⟩
      rw [runCalls, runCalls]
      dsimp only
      rw [hresult, hresults]

/-- The queue is sorted, keeps equal priorities in the order of arrival, holds what has arrived and
was not taken, and every call returns what it returns on the list of arrivals. -/
theorem priorityQueue_stable (calls : List PqCall) :
    let (results, head) := runCalls callPq pqInit calls
    let (expected, arrivals) := runCalls callArrivals [] calls
    results = expected ∧ head.Pairwise (·.priority ≤ ·.priority) ∧
      (∀ p, head.filter (·.priority = p) = arrivals.filter (·.priority = p)) ∧
      head.Perm arrivals ∧ pqExtractMin [] = (-1, []) := by
  obtain ⟨hresults, hstable⟩ := runCalls_spec (Stable.nil PqNode.priority) calls
  exact ⟨hresults, hstable.sorted, hstable.order, hstable.perm, rfl⟩

end PMBugRepair
