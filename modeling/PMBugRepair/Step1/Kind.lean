import PMBugRepair.Bugs.ReadBugs
import PMBugRepair.Step1.Thread

/-!
# DURA or MPB

`repairThread` has no record of the line that a constraint comes from. It searches the printed
constraint for `9999`, which is also a part of some numbers.
-/

namespace PMBugRepair

open Smt (Solver)
open Strings (Text lit)

/-- `repairThread` calls `repairDURA` for the bug. -/
def HandedToDURA (bug : Bug) : Prop :=
  ∀ z st, repairBug z st bug = some (st.accept bug (repairDURA st.globals st.thread bug))

/-- `repairThread` calls `repairMPB` for the bug. -/
def HandedToMPB (bug : Bug) : Prop :=
  ∃ a b, bug = .mpb a b ∧ ∀ z st, repairBug z st bug =
    (repairMPB z st.globals st.thread a b st.constraints).map (st.accept bug)

theorem repairMPB_nil (z : Solver Var) (g : Globals) (a b : Id)
    (constraints : List (Smt.Formula Var)) : repairMPB z g [] a b constraints = none := by
  simp [repairMPB, mpbFences]

theorem handedToDURA_iff {bug : Bug} : HandedToDURA bug ↔ bug.mentionsInf = true := by
  constructor
  · intro h
    have hempty := h .classical { thread := [], constraints := [], globals := .start }
    rcases repairBug_cases hempty with ⟨hinf, -⟩ | ⟨-, a, b, out, -, hout, -⟩
    · exact hinf
    · rw [repairMPB_nil] at hout
      cases hout
  · intro h z st
    unfold repairBug
    exact if_pos h

theorem handedToMPB_iff {bug : Bug} : HandedToMPB bug ↔ bug.mentionsInf = false := by
  constructor
  · rintro ⟨a, b, rfl, h⟩
    have hempty := h .classical { thread := [], constraints := [], globals := .start }
    rw [repairMPB_nil, Option.map_none] at hempty
    by_contra hinf
    rw [repairBug, if_pos (by simpa using hinf)] at hempty
    cases hempty
  · intro h
    cases bug with
    | dura s =>
        rw [Bug.mentionsInf_dura] at h
        cases h
    | mpb a b =>
        refine ⟨a, b, rfl, fun z st => ?_⟩
        rw [repairBug, if_neg (by simp [h])]

/-- Every constraint goes to the pass that its line asks for. -/
def DispatchedByKind (file : Text) (entries : List (Text × Nat)) : Prop :=
  ∀ reader, readBugs file entries = some reader → ∀ bug ∈ reader.bugs,
    ∀ line, Yields file entries line bug →
      (HandedToDURA bug ↔ lit "DURA" <:+: line) ∧ (HandedToMPB bug ↔ ¬lit "DURA" <:+: line)

theorem lineBug_cases {index : List (Text × Nat)} {line : Text} {bug : Bug}
    (h : BugReader.lineBug index line = some bug) :
    (lit "DURA" <:+: line ∧ ∃ data, bug = .dura (.line data)) ∨
      (¬lit "DURA" <:+: line ∧ ∃ first second, bug = .mpb (.line first) (.line second)) := by
  unfold BugReader.lineBug at h
  split_ifs at h with hdura
  · obtain ⟨data, -, rfl⟩ := Option.map_eq_some_iff.mp h
    exact .inl ⟨hdura, data, rfl⟩
  · obtain ⟨pair, -, h⟩ := Option.bind_eq_some_iff.mp h
    split_ifs at h
    exact .inr ⟨hdura, pair.1, pair.2, (Option.some.inj h).symm⟩

/-- Bugs go to the pass of their kind exactly when no number of an MPB bug has the digits `9999`. -/
theorem dispatchedByKind_iff (file : Text) (entries : List (Text × Nat)) :
    DispatchedByKind file entries ↔ ∀ reader, readBugs file entries = some reader →
      ∀ first second, Bug.mpb (.line first) (.line second) ∈ reader.bugs →
        ¬infText <:+: digits first ∧ ¬infText <:+: digits second := by
  constructor
  · intro h reader hreader first second hmem
    obtain ⟨line, hline⟩ := (mem_readBugs_iff hreader).mp hmem
    obtain ⟨hdura, -⟩ := h reader hreader _ hmem line hline
    obtain ⟨index, -, -, hbug⟩ := hline
    rcases lineBug_cases hbug with ⟨-, data, heq⟩ | ⟨hline, -⟩
    · cases heq
    · rw [← not_or, ← Bug.mentionsInf_mpb_iff, ← handedToDURA_iff]
      exact fun hhanded => hline (hdura.mp hhanded)
  · intro h reader hreader bug hmem line hyields
    obtain ⟨index, -, -, hbug⟩ := hyields
    rw [handedToDURA_iff, handedToMPB_iff]
    rcases lineBug_cases hbug with ⟨hline, data, rfl⟩ | ⟨hline, first, second, rfl⟩
    · simp [hline, Bug.mentionsInf_dura]
    · have hinf : (Bug.mpb (.line first) (.line second)).mentionsInf = false := by
        rw [← Bool.not_eq_true, Bug.mentionsInf_mpb_iff, not_or]
        exact h reader hreader first second hmem
      simp [hline, hinf]

/-- Statements at one place between the stores 2 and 9999 at two other places. -/
def apartBy (ids : List Nat) : List (Text × Nat) :=
  (lit "f_1", 2) :: ids.map (fun n => (lit "h_3", n)) ++ [(lit "g_2", 9999)]

theorem enters_apartBy (ids : List Nat) :
    Enters (apartBy ids) (lit "f_1") 2 ∧ Enters (apartBy ids) (lit "g_2") 9999 := by
  have hf : lit "f_1" = 'f' :: lit "_1" ∧ lit "g_2" = 'g' :: lit "_2" := by
    with_unfolding_all decide
  have hclaims : ∀ earlier, Claims earlier (lit "f_1") (lit "f_1") ∧
      Claims earlier (lit "g_2") (lit "g_2") := by
    intro earlier
    refine ⟨.inr ⟨rfl, fun rest heq => ?_⟩, .inr ⟨rfl, fun rest heq => ?_⟩⟩
    · rw [hf.1] at heq
      exact absurd (List.cons.inj heq).1 (by decide)
    · rw [hf.2] at heq
      exact absurd (List.cons.inj heq).1 (by decide)
  refine ⟨⟨[], lit "f_1", _, rfl, id, (hclaims _).1⟩, _, lit "g_2", [], rfl, ?_, (hclaims _).2⟩
  intro htaken
  obtain ⟨scope, hmem, hscope⟩ := htaken.exists_mem
  have hother : ∀ scope ∈ [lit "f_1", lit "h_3"],
      ¬(scope = '_' :: lit "g_2" ∨ scope = lit "g_2") := by with_unfolding_all decide
  refine hother scope ?_ hscope
  rw [latest, List.mem_reverse, List.map_cons, List.map_map, List.mem_cons] at hmem
  rcases hmem with rfl | hmem
  · exact List.mem_cons_self
  · obtain ⟨n, -, rfl⟩ := List.mem_map.mp hmem
    exact List.mem_cons_of_mem _ List.mem_cons_self

theorem not_dispatchedByKind_apartBy (ids : List Nat) :
    ¬DispatchedByKind (bugFile [mpbLine (lit "f_1") (lit "g_2")]) (apartBy ids) := by
  set line := mpbLine (lit "f_1") (lit "g_2") with hline
  have hread : bugLines (bugFile [line]) = [line] ∧ ¬lit "DURA" <:+: line ∧
      firstKey line = some (lit "f_1") ∧ secondKey line = some (lit "g_2") := by
    rw [hline]
    with_unfolding_all decide
  obtain ⟨index, hindex⟩ : ∃ index, scopeIndex (apartBy ids) = some index := by
    apply exists_scopeIndex
    have hne : lit "f_1" ≠ [] ∧ lit "h_3" ≠ [] ∧ lit "g_2" ≠ [] := by with_unfolding_all decide
    intro entry hentry
    simp only [apartBy, List.mem_append, List.mem_cons, List.mem_map, List.not_mem_nil,
      or_false] at hentry
    rcases hentry with (rfl | ⟨n, -, rfl⟩) | rfl
    · exact hne.1
    · exact hne.2.1
    · exact hne.2.2
  have hbug : BugReader.lineBug index line = some (.mpb (.line 2) (.line 9999)) := by
    have hfirst := (scopeIndex_lookup hindex).2.mpr (enters_apartBy ids).1
    have hsecond := (scopeIndex_lookup hindex).2.mpr (enters_apartBy ids).2
    simp [BugReader.lineBug, BugReader.resolveMPB, hread, hfirst, hsecond]
  have hyields : Yields (bugFile [line]) (apartBy ids) line (.mpb (.line 2) (.line 9999)) :=
    ⟨index, hindex, by simp [hread], hbug⟩
  obtain ⟨reader, hreader⟩ : ∃ reader, readBugs (bugFile [line]) (apartBy ids) = some reader :=
    ⟨_, by simp only [readBugs, hindex]; rfl⟩
  intro h
  have hkind := (h reader hreader _ ((mem_readBugs_iff hreader).mpr ⟨line, hyields⟩) line hyields).1
  rw [handedToDURA_iff] at hkind
  exact hread.2.1 (hkind.mp (by with_unfolding_all decide))

/-- In a trace of 9998 statements, the pair of the first and the last one is taken for a DURA
bug. -/
theorem not_dispatchedByKind_long :
    ¬DispatchedByKind (bugFile [mpbLine (lit "f_1") (lit "g_2")])
      (apartBy (List.range' 3 9996)) :=
  not_dispatchedByKind_apartBy _

end PMBugRepair
