import PMBugRepair.Runtime.Deps
import PMBugRepair.Transform.Dependences

/-!
# From the analysis to the log

All dependences that the runtime knows come from the functions that the pass has analyzed. What a
log shows is then read as a graph over the instructions of these functions.
-/

namespace PMBugRepair

open Pm (log)
open PMTraceGen (RuntimeCall)
open Strings (lit)

variable {calls : List (BitVec 64 × PmCall)} {functions : List Analyzed}

/-- The runtime was told nothing else. -/
def ToldBy (calls : List (BitVec 64 × PmCall)) (functions : List Analyzed) : Prop :=
  ∀ src dest, Added calls src dest → ∃ f ∈ functions, RuntimeCall.depAdd src dest ∈ f.calls

/-- The function was entered before the call that prints the line behind `before`. -/
def EnteredAt (calls : List (BitVec 64 × PmCall)) (before : List (BitVec 64 × Entry))
    (tid : BitVec 64) (f : Analyzed) : Prop :=
  ∀ src dest, RuntimeCall.depAdd src dest ∈ f.calls → AddedAt calls before tid src dest

theorem AddedAt.added {before : List (BitVec 64 × Entry)} {tid : BitVec 64} {src dest : BitVec 32}
    (h : AddedAt calls before tid src dest) : Added calls src dest := by
  obtain ⟨-, call, later, rfl, -, -, prior, tid', between, rfl, hbegun⟩ := h
  exact ⟨prior, tid', between ++ (tid, call) :: later, by simp, hbegun⟩

/-- A dependence behind an access is one of its sources. -/
theorem sourceAt_of_dependence {before after : List (BitVec 64 × Entry)} {tid : BitVec 64}
    {src dest : BitVec 32}
    (h : log calls = before ++ (tid, .event (.dep src dest)) :: after) :
    ∃ front line deps, before = front ++ (tid, line) :: deps ∧ line.access = some dest ∧
      (∀ d ∈ deps, d.2.isDep = true) ∧ SourceAt calls front tid dest src := by
  obtain ⟨front, line, deps, rfl, hline, hdeps⟩ := access_of_dependence h
  have hdeps : ∀ d ∈ deps, d.2.isDep = true := by
    intro d hd
    obtain ⟨src', rfl⟩ := hdeps d hd
    rfl
  obtain ⟨srcs, rest, hafter, hrest, -, hmem⟩ :=
    dependences_of_access (by simpa using h) hline
  have hsrc : (tid, Entry.event (.dep src dest)) ∈
      srcs.map fun src => (tid, Entry.event (.dep src dest)) :=
    Lists.mem_of_append_eq hafter.symm hdeps rfl fun y hy => by simp [hrest y hy]
  obtain ⟨src', hsrc', heq⟩ := List.mem_map.mp hsrc
  obtain rfl : src' = src := by simpa using heq
  exact ⟨front, line, deps, rfl, hline, hdeps, (hmem src').mp hsrc'⟩

/-- **A log shows the dependence graph.** If all dependences come from analyzed functions, then a
line `DEP` of a log is an edge between instructions of one of them, and accesses of both stand in
front of it. An edge of a function that is covered and was entered is shown behind every access of
its second instruction that an access of the first one precedes. -/
theorem log_edges (hcalls : ToldBy calls functions) :
    (∀ before tid src dest after,
      log calls = before ++ (tid, .event (.dep src dest)) :: after →
      ∃ f ∈ functions, f.Edge (fun _ => True) src dest ∧
        ∃ front line deps, before = front ++ (tid, line) :: deps ∧ line.access = some dest ∧
          (∀ d ∈ deps, d.2.isDep = true) ∧ (src = dest ∨ src ∈ accesses front)) ∧
    ∀ f : Analyzed, ∀ r, f.cfg.Covered r → ∀ before tid line after src dest,
      log calls = before ++ (tid, line) :: after → line.access = some dest →
      EnteredAt calls before tid f → f.Edge (fun _ => True) src dest →
      src = dest ∨ src ∈ accesses before →
      ∃ deps rest, after = deps ++ (tid, .event (.dep src dest)) :: rest ∧
        ∀ d ∈ deps, d.2.isDep = true := by
  constructor
  · intro before tid src dest after h
    obtain ⟨front, line, deps, hbefore, hline, hdeps, hadded, hshown⟩ := sourceAt_of_dependence h
    obtain ⟨f, hf, hcall⟩ := hcalls src dest hadded.added
    exact ⟨f, hf, Analyzed.edge_of_mem_calls hcall, front, line, deps, hbefore, hline, hdeps,
      hshown⟩
  · intro f r hcovered before tid line after src dest h hline hentered hedge hshown
    obtain ⟨srcs, rest, rfl, -, -, hmem⟩ := dependences_of_access h hline
    have hadded := hentered src dest (Analyzed.mem_calls_of_covered hcovered hedge)
    obtain ⟨front, back, rfl⟩ := List.append_of_mem ((hmem src).mpr ⟨hadded, hshown⟩)
    refine ⟨front.map fun src => (tid, Entry.event (.dep src dest)),
      (back.map fun src => (tid, Entry.event (.dep src dest))) ++ rest, by simp, fun d hd => ?_⟩
    obtain ⟨src', -, rfl⟩ := List.mem_map.mp hd
    rfl

/-- The load of the guard and the store behind it. -/
def guardedCalls : List (BitVec 64 × PmCall) :=
  [(1, .call .pmcInitialize), (1, .call (.malloc 0x1000 16)), (1, .call (.depAdd 70 71)),
    (1, .call (.printLoadAddr 0x1000 4 70 ⟨31, 7, lit "put"⟩)),
    (1, .call (.printStoreAddr 0x1004 4 71 ⟨32, 9, lit "put"⟩))]

theorem log_guardedCalls : log guardedCalls =
    [(1, .event (.adding 0x1000 0x1010)), (1, .event (.load 0x1000 4 70 ⟨31, 7, lit "put"⟩))] ++
      (1, .event (.store 0x1004 4 71 ⟨32, 9, lit "put"⟩)) :: [(1, .event (.dep 70 71))] := by
  with_unfolding_all decide

/-- The dependence of the store is shown, and it is the one of the branch. -/
theorem log_edges_guardedCalls :
    guarded.Edge (fun _ => True) 70 71 ∧
      ∃ deps rest, [(1, Entry.event (.dep 70 71))] =
          deps ++ ((1 : BitVec 64), Entry.event (.dep 70 71)) :: rest ∧
        ∀ d ∈ deps, d.2.isDep = true := by
  have htold : ToldBy guardedCalls [guarded] := by
    rintro src dest ⟨prior, tid, later, heq, -⟩
    have hmem : (tid, PmCall.call (.depAdd src dest)) ∈ guardedCalls := by
      rw [heq]
      simp
    obtain ⟨-, rfl, rfl⟩ : tid = 1 ∧ src = 70 ∧ dest = 71 := by
      simpa [guardedCalls] using hmem
    exact ⟨guarded, List.mem_singleton_self _, by rw [calls_guarded]; simp⟩
  have hentered : EnteredAt guardedCalls ((log guardedCalls).take 2) 1 guarded := by
    intro src dest hcall
    rw [calls_guarded] at hcall
    obtain ⟨rfl, rfl⟩ : src = 70 ∧ dest = 71 := by simpa using hcall
    exact ⟨guardedCalls.take 4, _, [], rfl, by with_unfolding_all decide,
      by with_unfolding_all decide, guardedCalls.take 2, 1, _, rfl, 1, by simp [guardedCalls]⟩
  have hedges := log_edges htold
  obtain ⟨f, hf, hedge, -⟩ := hedges.1 ((log guardedCalls).take 3) 1 70 71 []
    (by rw [log_guardedCalls]; rfl)
  obtain rfl := List.mem_singleton.mp hf
  have hshown : (70 : BitVec 32) ∈ accesses ((log guardedCalls).take 2) := by
    rw [log_guardedCalls]
    with_unfolding_all decide
  exact ⟨hedge, hedges.2 guarded (2 : Fin 3) ifThen_covered _ 1 _ _ 70 71
    (by rw [log_guardedCalls]; rfl) rfl hentered hedge (.inr hshown)⟩

end PMBugRepair
