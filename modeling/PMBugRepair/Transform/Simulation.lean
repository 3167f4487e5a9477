import PMBugRepair.Transform.Expansion

/-!
# The instrumented function does what the function did

A meaning of the instructions is given from outside; states that only differ in what the runtime
keeps and in the conversions of the pass are the same to it. Then the instrumented function has the
runs of the plain one, with calls of the runtime in between, and no others.
-/

namespace PMBugRepair.PMTraceGen

open Strings (Text lit)
open Weaving (Meaning Config Next Runs Silent Respects Woven LeadsTo weave expand)

/-- The blocks by their labels. -/
def codeOf (blocks : List BasicBlock) (label : Nat) : List Instruction :=
  ((blocks.find? fun block => block.label = label).map BasicBlock.insts).getD []

/-- The first block, in a state. -/
def startOf {σ : Type} (blocks : List BasicBlock) (s : σ) : Config Nat Instruction σ :=
  match blocks with
  | [] => ⟨0, [], s⟩
  | first :: _ => ⟨first.label, first.insts, s⟩

/-- What is asked of a meaning: calls of the runtime and conversions go unseen, a branch goes to its
block, and the function neither sees the difference between states that are the same nor jumps to
its first block or out of itself. -/
structure Understands {σ : Type} (meaning : Meaning Nat Instruction σ) (same : σ → σ → Prop)
    (plain : List BasicBlock) : Prop where
  equivalence : Equivalence same
  runtime : ∀ i call, i.kind = .runtime call → Silent meaning same i
  cast : ∀ i operand, i.kind = .cast operand → Silent meaning same i
  branch : ∀ i label, i.kind = .br label → ∀ s next s',
    meaning i s next s' ↔ next = .goto label ∧ s' = s
  respects : ∀ block ∈ plain, ∀ i ∈ block.insts, Respects meaning same i
  jumps : ∀ block ∈ plain, ∀ i ∈ block.insts, ∀ s label s',
    meaning i s (.goto label) s' → label ∈ plain.tail.map BasicBlock.label

/-- The instruction was there before the pass. -/
def original (event : Nat × Instruction) : Bool := event.2.uniqueID.isSome

/-- The call of the runtime that an instruction is. -/
def runtimeCall (event : Nat × Instruction) : Option RuntimeCall :=
  match event.2.kind with
  | .runtime call => some call
  | _ => none

/-! ### Blocks -/

section Blocks

variable {blocks plain : List BasicBlock} {label : Nat}

theorem mem_of_mem_codeOf {i : Instruction} (h : i ∈ codeOf blocks label) :
    ∃ block ∈ blocks, i ∈ block.insts := by
  unfold codeOf at h
  cases hfind : blocks.find? fun block => block.label = label with
  | none => simp [hfind] at h
  | some block => exact ⟨block, List.mem_of_find?_eq_some hfind, by simpa [hfind] using h⟩

theorem codeOf_weaveBlocks (g : Nat → Instruction → List Instruction) :
    codeOf (weaveBlocks g blocks) label = weave g label (codeOf blocks label) := by
  induction blocks with
  | nil => rfl
  | cons block blocks ih =>
      by_cases heq : block.label = label
      · simp [codeOf, weaveBlocks, heq]
      · simpa [codeOf, weaveBlocks, heq] using ih

theorem codeOf_prepend {front : List Instruction} (hlabels : (blocks.map BasicBlock.label).Nodup)
    (h : label ∈ blocks.tail.map BasicBlock.label) :
    codeOf (prepend front blocks) label = codeOf blocks label := by
  cases blocks with
  | nil => cases h
  | cons block blocks =>
      have hne : block.label ≠ label := by
        rintro rfl
        exact (List.nodup_cons.mp hlabels).1 h
      simp [codeOf, prepend, hne]

theorem label_lt_freshLabel (h : label ∈ blocks.map BasicBlock.label) :
    label < freshLabel blocks :=
  Nat.lt_succ_of_le (List.le_sum_of_mem h)

theorem codeOf_newEntry {calls : List RuntimeCall} (h : label ∈ blocks.map BasicBlock.label) :
    codeOf (newEntry calls blocks) label = codeOf blocks label := by
  have hne := (label_lt_freshLabel h).ne'
  cases blocks with
  | nil => cases h
  | cons block blocks => simp [codeOf, newEntry, entryBlock, hne]

theorem mem_labels_newEntry {calls : List RuntimeCall} (h : label ∈ blocks.map BasicBlock.label) :
    label ∈ (newEntry calls blocks).map BasicBlock.label := by
  cases blocks with
  | nil => cases h
  | cons block blocks => exact List.mem_cons_of_mem _ h

theorem codeOf_first {first : BasicBlock} {rest : List BasicBlock} :
    codeOf (first :: rest) first.label = first.insts := by
  simp [codeOf]

end Blocks

/-! ### The way to the first block -/

section Entry

variable {σ : Type} {meaning : Meaning Nat Instruction σ} {same : σ → σ → Prop}
  {plain blocks : List BasicBlock}

theorem Understands.silent (h : Understands meaning same plain) {j : Instruction}
    (hj : Inserted j) : Silent meaning same j := by
  rcases hj.kind with ⟨call, hkind⟩ | ⟨operand, hkind⟩
  · exact h.runtime j call hkind
  · exact h.cast j operand hkind

/-- A new first block goes on to the old one. -/
theorem Understands.leads_entryBlock (h : Understands meaning same plain)
    (code : Nat → List Instruction) (calls : List RuntimeCall) (label next : Nat) :
    LeadsTo meaning same code label (entryBlock calls label next).insts
      ((entryBlock calls label next).insts.map (label, ·)) next (code next) := by
  have hsplit : (entryBlock calls label next).insts =
      (calls.map Kind.runtime).map (fun kind => ⟨kind, none, none, none⟩) ++
        [⟨.br next, none, none, none⟩] := by
    simp [entryBlock]
  rw [hsplit, List.map_append]
  refine (Weaving.leads_of_silent h.equivalence ?_).trans h.equivalence ?_
  · intro g hg
    obtain ⟨kind, hkind, rfl⟩ := List.mem_map.mp hg
    obtain ⟨call, -, rfl⟩ := List.mem_map.mp hkind
    exact h.runtime _ call rfl
  · refine LeadsTo.one h.equivalence (fun s => ⟨s, (h.branch _ next rfl s _ s).mpr ⟨rfl, rfl⟩⟩) ?_
      fun s => rfl
    intro s other s' hs
    obtain ⟨rfl, rfl⟩ := (h.branch _ next rfl s other s').mp hs
    exact ⟨rfl, h.equivalence.refl s'⟩

/-- All that is executed in front of the function. -/
def prologue (func : Text) (deps : List RuntimeCall) (plain : List BasicBlock) :
    List (Nat × Instruction) :=
  match plain with
  | [] => []
  | first :: _ =>
      let label := freshLabel plain
      let blocks := entryBlock deps label first.label :: plain
      (if func = lit "main" then
        (entryBlock [.pmcInitialize] (freshLabel blocks) label).insts.map (freshLabel blocks, ·)
        else []) ++
      (entryBlock deps label first.label).insts.map (label, ·) ++ (begins func).map (first.label, ·)

variable {func : Text} {deps : List RuntimeCall}

theorem begins_silent (h : Understands meaning same plain) :
    ∀ g ∈ begins func, Silent meaning same g := by
  intro g hg
  simp only [begins, List.mem_cons, List.not_mem_nil, or_false] at hg
  rcases hg with rfl | rfl
  · exact h.silent (callAt_inserted _ _)
  · exact h.runtime _ .dummyBegin rfl

theorem newEntry_prepend_weaveBlocks (front : List Instruction)
    (g : Nat → Instruction → List Instruction) (first : BasicBlock) (rest : List BasicBlock) :
    newEntry deps (prepend front (weaveBlocks g (first :: rest))) =
      entryBlock deps (freshLabel (first :: rest)) first.label ::
        prepend front (weaveBlocks g (first :: rest)) := by
  rw [← freshLabel_weaveBlocks g, ← freshLabel_prepend front]
  rfl

/-- The calls at the begin of the first block. -/
theorem Understands.leads_begins (h : Understands meaning same plain)
    {code : Nat → List Instruction} {label : Nat} {insts : List Instruction}
    (hcode : code label = begins func ++ insts) :
    LeadsTo meaning same code label (code label) ((begins func).map (label, ·)) label insts := by
  rw [hcode]
  exact Weaving.leads_of_silent h.equivalence (begins_silent h)

/-- From its start the instrumented function comes to the first block of the plain one. -/
theorem leads_prologue (h : Understands meaning same plain) {first : BasicBlock}
    {rest : List BasicBlock} (hplain : plain = first :: rest) :
    ∃ label insts, (∀ s : σ, startOf (instrumented func deps plain) s = ⟨label, insts, s⟩) ∧
      LeadsTo meaning same (codeOf (instrumented func deps plain)) label insts
        (prologue func deps plain) first.label
        (weave (ghost func (lastLabel plain)) first.label first.insts) := by
  obtain ⟨body, hbody⟩ : ∃ body, body =
    prepend (begins func) (weaveBlocks (ghost func (lastLabel plain)) plain) := ⟨_, rfl⟩
  have hlabels : body.map BasicBlock.label = plain.map BasicBlock.label := by
    rw [hbody, labels_prepend, labels_weaveBlocks]
  have hfirst : codeOf body first.label = begins func ++
      weave (ghost func (lastLabel plain)) first.label first.insts := by
    rw [hbody, hplain]
    exact codeOf_first
  have hentry : newEntry deps body =
      entryBlock deps (freshLabel plain) first.label :: body := by
    rw [hbody, hplain]
    exact newEntry_prepend_weaveBlocks _ _ first rest
  have hmem : first.label ∈ body.map BasicBlock.label := by
    rw [hlabels, hplain]
    exact List.mem_cons_self
  by_cases hmain : func = lit "main"
  · have hfresh' : freshLabel (newEntry deps body) =
        freshLabel (entryBlock deps (freshLabel plain) first.label :: plain) := by
      simp only [hentry, freshLabel, List.map_cons, hlabels]
    have hall : instrumented func deps plain = newEntry [.pmcInitialize] (newEntry deps body) := by
      rw [instrumented, ← hbody, if_pos hmain]
    have hsecond : codeOf (instrumented func deps plain) (freshLabel plain) =
        (entryBlock deps (freshLabel plain) first.label).insts := by
      rw [hall, codeOf_newEntry (by rw [hentry]; exact List.mem_cons_self), hentry]
      exact @codeOf_first (entryBlock deps (freshLabel plain) first.label) body
    have hcode : codeOf (instrumented func deps plain) first.label = begins func ++
        weave (ghost func (lastLabel plain)) first.label first.insts := by
      rw [hall, codeOf_newEntry (by rw [hentry]; exact List.mem_cons_of_mem _ hmem),
        codeOf_newEntry hmem, hfirst]
    refine ⟨freshLabel (newEntry deps body),
      (entryBlock [.pmcInitialize] (freshLabel (newEntry deps body)) (freshLabel plain)).insts,
      fun s => by rw [hall, hentry]; rfl, ?_⟩
    have hlast := (h.leads_entryBlock (codeOf (instrumented func deps plain)) deps
      (freshLabel plain) first.label).trans h.equivalence (h.leads_begins hcode)
    rw [← hsecond] at hlast
    have hlead := (h.leads_entryBlock _ [.pmcInitialize] (freshLabel (newEntry deps body))
      (freshLabel plain)).trans h.equivalence hlast
    rw [hfresh', hsecond] at hlead
    rw [hfresh']
    rw [hplain] at hlead ⊢
    simpa [prologue, hmain] using hlead
  · have hall : instrumented func deps plain =
        entryBlock deps (freshLabel plain) first.label :: body := by
      rw [instrumented, ← hbody, if_neg hmain, hentry]
    have hcode : codeOf (instrumented func deps plain) first.label = begins func ++
        weave (ghost func (lastLabel plain)) first.label first.insts := by
      rw [hall, ← hentry, codeOf_newEntry hmem, hfirst]
    refine ⟨freshLabel plain, (entryBlock deps (freshLabel plain) first.label).insts,
      fun s => by rw [hall]; rfl, ?_⟩
    have hlead := (h.leads_entryBlock (codeOf (instrumented func deps plain)) deps
      (freshLabel plain) first.label).trans h.equivalence (h.leads_begins hcode)
    rw [hplain] at hlead ⊢
    simpa [prologue, hmain] using hlead

end Entry

/-! ### Both directions -/

section Simulation

variable {σ : Type} {meaning : Meaning Nat Instruction σ} {same : σ → σ → Prop}
  {plain : List BasicBlock} {func : Text} {deps : List RuntimeCall} {s t : σ}
  {done done' : List (Nat × Instruction)} {final final' : Config Nat Instruction σ}
  {front : List Instruction}

theorem ghost_cases {last label : Nat} {i g : Instruction} (h : g ∈ ghost func last label i) :
    Inserted g ∨ g = dummy func .dummyEnd := by
  rcases List.mem_append.mp h with h | h
  · unfold ends at h
    split at h
    · rcases List.mem_cons.mp h with rfl | h
      · exact .inl (callAt_inserted _ _)
      · exact .inr (List.mem_singleton.mp h)
    · cases h
  · exact .inl (inserted_inserted g h)

theorem uniqueID_ghost {last label : Nat} {i : Instruction} :
    ∀ g ∈ ghost func last label i, g.uniqueID = none := by
  intro g hg
  rcases ghost_cases hg with hg | rfl
  · exact hg.uniqueID
  · rfl

theorem Understands.woven (h : Understands meaning same plain) (hwf : WellFormed plain) :
    Woven meaning same (ghost func (lastLabel plain)) (codeOf plain)
      (codeOf (instrumented func deps plain))
      (fun label => label ∈ plain.tail.map BasicBlock.label) := by
  refine ⟨h.equivalence, fun label i _ g hg => ?_, fun label i hi => ?_, fun label i hi => ?_,
    fun label hlabel => ?_⟩
  · rcases ghost_cases hg with hg | rfl
    · exact h.silent hg
    · exact h.runtime _ .dummyEnd rfl
  · obtain ⟨block, hblock, hmem⟩ := mem_of_mem_codeOf hi
    exact h.respects block hblock i hmem
  · obtain ⟨block, hblock, hmem⟩ := mem_of_mem_codeOf hi
    exact h.jumps block hblock i hmem
  · have hlabels : (prepend (begins func)
        (weaveBlocks (ghost func (lastLabel plain)) plain)).map BasicBlock.label =
          plain.map BasicBlock.label := by
      rw [labels_prepend, labels_weaveBlocks]
    have hmem : label ∈ plain.map BasicBlock.label :=
      List.map_subset _ (List.tail_subset plain) hlabel
    have htail : label ∈ (weaveBlocks (ghost func (lastLabel plain)) plain).tail.map
        BasicBlock.label := by
      rwa [List.map_tail, labels_weaveBlocks, ← List.map_tail]
    have hbody : codeOf (prepend (begins func)
        (weaveBlocks (ghost func (lastLabel plain)) plain)) label =
          weave (ghost func (lastLabel plain)) label (codeOf plain label) := by
      rw [codeOf_prepend (by rw [labels_weaveBlocks]; exact hwf.labels) htail, codeOf_weaveBlocks]
    have hentry : codeOf (newEntry deps (prepend (begins func)
        (weaveBlocks (ghost func (lastLabel plain)) plain))) label =
          weave (ghost func (lastLabel plain)) label (codeOf plain label) := by
      rw [codeOf_newEntry (by rwa [hlabels]), hbody]
    unfold instrumented
    dsimp only
    split
    · rw [codeOf_newEntry (mem_labels_newEntry (by rwa [hlabels])), hentry]
    · exact hentry

theorem filter_original_expand (hdone : ∀ event ∈ done, original event = true) (last : Nat) :
    (expand (ghost func last) done).filter original = done := by
  induction done with
  | nil => rfl
  | cons event done ih =>
      obtain ⟨hevent, hrest⟩ := List.forall_mem_cons.mp hdone
      have hghost : ((ghost func last event.1 event.2).map (event.1, ·)).filter original = [] := by
        rw [List.filter_eq_nil_iff]
        intro e he
        obtain ⟨g, hg, rfl⟩ := List.mem_map.mp he
        simp [original, uniqueID_ghost g hg]
      have hcons : expand (ghost func last) (event :: done) =
          (ghost func last event.1 event.2).map (event.1, ·) ++
            event :: expand (ghost func last) done := by
        simp [expand]
      rw [hcons, List.filter_append, hghost, List.filter_cons_of_pos hevent, ih hrest,
        List.nil_append]

/-- What holds of the instructions of the function, with any number, holds of what it executes. -/
theorem forall_of_runs {P : Instruction → Prop} {n : Nat} {blocks : List BasicBlock}
    (hblocks : ∀ block ∈ blocks, ∀ i ∈ block.insts, ∀ id, P { i with uniqueID := some id })
    (h : Runs meaning (codeOf (setInstUniqueID n blocks).1) (startOf (setInstUniqueID n blocks).1 s)
      done final) : ∀ event ∈ done, P event.2 := by
  have hnumbered : ∀ block ∈ (setInstUniqueID n blocks).1, ∀ i ∈ block.insts, P i := by
    intro block hblock i hi
    obtain ⟨old, hold, k, -, hinsts⟩ := mem_setInstUniqueID hblock
    rw [hinsts] at hi
    obtain ⟨entry, hentry, rfl⟩ := List.mem_map.mp hi
    exact hblocks old hold entry.1 (List.fst_mem_of_mem_zipIdx hentry) _
  refine (h.invariant (P := P) ?_ fun label i hi => ?_).1
  · cases hstart : (setInstUniqueID n blocks).1 with
    | nil => simp [startOf]
    | cons first rest => exact hnumbered first (hstart ▸ List.mem_cons_self)
  · obtain ⟨block, hblock, hmem⟩ := mem_of_mem_codeOf hi
    exact hnumbered block hblock i hmem

theorem original_of_runs {n : Nat} {blocks : List BasicBlock}
    (h : Runs meaning (codeOf (setInstUniqueID n blocks).1) (startOf (setInstUniqueID n blocks).1 s)
      done final) : ∀ event ∈ done, original event = true :=
  forall_of_runs (P := fun i => i.uniqueID.isSome = true) (fun _ _ _ _ _ => rfl) h

theorem uniqueID_prologue : ∀ event ∈ prologue func deps plain, original event = false := by
  have hentry : ∀ (calls : List RuntimeCall) (label label' next : Nat),
      ∀ event ∈ (entryBlock calls label next).insts.map (label', ·), original event = false := by
    intro calls label label' next event hevent
    obtain ⟨i, hi, rfl⟩ := List.mem_map.mp hevent
    obtain ⟨kind, -, rfl⟩ := List.mem_map.mp hi
    rfl
  intro event hevent
  unfold prologue at hevent
  split at hevent
  · cases hevent
  · dsimp only at hevent
    rcases List.mem_append.mp hevent with hevent | hevent
    · rcases List.mem_append.mp hevent with hevent | hevent
      · split at hevent
        · exact hentry _ _ _ _ event hevent
        · cases hevent
      · exact hentry _ _ _ _ event hevent
    · obtain ⟨i, hi, rfl⟩ := List.mem_map.mp hevent
      simp only [begins, List.mem_cons, List.not_mem_nil, or_false] at hi
      rcases hi with rfl | rfl <;> rfl

theorem filter_original_prologue : (prologue func deps plain).filter original = [] :=
  List.filter_eq_nil_iff.mpr fun event hevent => by simp [uniqueID_prologue event hevent]

theorem startOf_plain {first : BasicBlock} {rest : List BasicBlock}
    (hplain : plain = first :: rest) (s : σ) :
    startOf plain s = ⟨first.label, codeOf plain first.label, s⟩ := by
  rw [hplain, codeOf_first]
  rfl

/-- Whatever the plain function does, the instrumented one does. -/
theorem Understands.exists_runs (h : Understands meaning same plain) (hwf : WellFormed plain)
    (hst : same s t) (hruns : Runs meaning (codeOf plain) (startOf plain s) done final) :
    ∃ t', Runs meaning (codeOf (instrumented func deps plain))
        (startOf (instrumented func deps plain) t)
        (prologue func deps plain ++ expand (ghost func (lastLabel plain)) done)
        ⟨final.label, weave (ghost func (lastLabel plain)) final.label final.rest, t'⟩ ∧
      same final.state t' := by
  obtain ⟨first, rest, hplain⟩ := List.exists_cons_of_ne_nil hwf.nonempty
  obtain ⟨label, insts, hstart, hlead⟩ := @leads_prologue _ _ _ _ func deps h first rest hplain
  obtain ⟨t', hprologue, ht⟩ := hlead.runs t
  rw [startOf_plain hplain] at hruns
  obtain ⟨t'', hwoven, hsame⟩ :=
    (@Understands.woven _ _ _ _ func deps h hwf).forward (h.equivalence.trans hst ht) hruns
  have hfirst : codeOf plain first.label = first.insts := by
    rw [hplain]
    exact codeOf_first
  rw [hfirst] at hwoven
  exact ⟨t'', by rw [hstart]; exact hprologue.trans hwoven, hsame⟩

/-- Whatever the instrumented function does, it is on the way to the first block, or it stands in
front of an instruction that the plain function comes to, and has executed some of what was woven in
there. -/
theorem Understands.cases_of_runs (h : Understands meaning same plain) (hwf : WellFormed plain)
    (hst : same s t) (hruns : Runs meaning (codeOf (instrumented func deps plain))
      (startOf (instrumented func deps plain) t) done' final') :
    (∃ more, done' ++ more = prologue func deps plain ∧ final'.rest ≠ [] ∧ same s final'.state) ∨
      ∃ done final front, Runs meaning (codeOf plain) (startOf plain s) done final ∧
        done' = prologue func deps plain ++ (expand (ghost func (lastLabel plain)) done ++
          front.map (final.label, ·)) ∧
        Weaving.Woven.Started (ghost func (lastLabel plain)) final front ∧
        front ++ final'.rest = weave (ghost func (lastLabel plain)) final.label final.rest ∧
        same final.state final'.state := by
  obtain ⟨first, rest, hplain⟩ := List.exists_cons_of_ne_nil hwf.nonempty
  obtain ⟨label, insts, hstart, hlead⟩ := @leads_prologue _ _ _ _ func deps h first rest hplain
  have hfirst : codeOf plain first.label = first.insts := by
    rw [hplain]
    exact codeOf_first
  rw [hstart] at hruns
  rw [← hfirst] at hlead
  rcases hlead.only t done' final' hruns with ⟨more, hmore, hrest, ht⟩ |
    ⟨t', after, rfl, ht, hafter⟩
  · exact .inl ⟨more, hmore, hrest, h.equivalence.trans hst ht⟩
  · obtain ⟨done, final, front, hplainRuns, rfl, hstarted, -, hsplit, hsame⟩ :=
      (@Understands.woven _ _ _ _ func deps h hwf).backward (h.equivalence.trans hst ht) hafter
    rw [← startOf_plain hplain] at hplainRuns
    exact .inr ⟨done, final, front, hplainRuns, rfl, hstarted, hsplit, hsame⟩

theorem filter_original_front (hstarted :
      Weaving.Woven.Started (ghost func (lastLabel plain)) final front) :
    (front.map (final.label, ·)).filter original = [] := by
  refine List.filter_eq_nil_iff.mpr fun event hevent => ?_
  obtain ⟨g, hg, rfl⟩ := List.mem_map.mp hevent
  rcases hstarted with rfl | ⟨i, rest, back, -, hback⟩
  · cases hg
  · have hnone := uniqueID_ghost g (hback ▸ List.mem_append_left back hg)
    simp [original, hnone]

end Simulation

/-- **The pass preserves the meaning of a function.** For every run of the function with its numbers
there is one of the instrumented function with the same instructions of the function in the same
order, to a state that is the same; and every run of the instrumented function is such a run, up to
the calls and conversions that the pass has inserted. One ends if the other does. -/
theorem runOnFunction_simulates {σ : Type} {meaning : Meaning Nat Instruction σ}
    {same : σ → σ → Prop} {f f' : IRFunction} {n n' : Nat} {memoryControlDepMap dataDepMap : DepMap}
    (hwf : WellFormed f.blocks)
    (hpass : runOnFunction n memoryControlDepMap dataDepMap f = some (f', true, n'))
    (h : Understands meaning same (setInstUniqueID n f.blocks).1) {s t : σ} (hst : same s t) :
    (∀ done final, Runs meaning (codeOf (setInstUniqueID n f.blocks).1)
        (startOf (setInstUniqueID n f.blocks).1 s) done final →
      ∃ done' final', Runs meaning (codeOf f'.blocks) (startOf f'.blocks t) done' final' ∧
        done'.filter original = done ∧ same final.state final'.state ∧
        (final.rest = [] ↔ final'.rest = [])) ∧
    ∀ done' final', Runs meaning (codeOf f'.blocks) (startOf f'.blocks t) done' final' →
      ∃ final, Runs meaning (codeOf (setInstUniqueID n f.blocks).1)
          (startOf (setInstUniqueID n f.blocks).1 s) (done'.filter original) final ∧
        same final.state final'.state ∧ (final.rest = [] ↔ final'.rest = []) := by
  have hwf' := wellFormed_setInstUniqueID hwf n
  rw [(runOnFunction_eq hwf hpass).1]
  constructor
  · intro done final hruns
    obtain ⟨t', hwoven, hsame⟩ := h.exists_runs hwf' hst hruns
    refine ⟨_, _, hwoven, ?_, hsame, Weaving.weave_eq_nil_iff.symm⟩
    rw [List.filter_append, filter_original_prologue, List.nil_append,
      filter_original_expand (original_of_runs hruns)]
  · intro done' final' hruns
    rcases h.cases_of_runs hwf' hst hruns with ⟨more, hmore, hrest, ht⟩ |
      ⟨done, final, front, hplain, rfl, hstarted, hsplit, hsame⟩
    · -- still on the way to the function
      have hnone : done'.filter original = [] := by
        refine List.filter_eq_nil_iff.mpr fun event hevent => ?_
        have hmem : event ∈ prologue f.name _ _ := hmore ▸ List.mem_append_left more hevent
        simp [uniqueID_prologue event hmem]
      obtain ⟨first, rest, hplain⟩ := List.exists_cons_of_ne_nil hwf'.nonempty
      obtain ⟨body, last, hinsts, -⟩ := hwf'.terminated first (hplain ▸ List.mem_cons_self)
      refine ⟨startOf _ s, by rw [hnone]; exact .start, ?_, iff_of_false ?_ hrest⟩
      · rw [startOf_plain hplain]
        exact ht
      · rw [hplain]
        change first.insts ≠ []
        rw [hinsts]
        exact List.append_ne_nil_of_right_ne_nil body (List.cons_ne_nil last [])
    · refine ⟨final, ?_, hsame, hstarted.rest_eq_nil_iff hsplit⟩
      rwa [List.filter_append, List.filter_append, filter_original_prologue,
        filter_original_front hstarted, filter_original_expand (original_of_runs hplain),
        List.nil_append, List.append_nil]

/-! ### A function that persists -/

/-- Calls that are not of the runtime count. -/
def counting : Meaning Nat Instruction Nat := fun i s next s' =>
  match i.kind with
  | .br label => next = .goto label ∧ s' = s
  | .terminator => next = .leave ∧ s' = s
  | .runtime _ => next = .fall ∧ s' = s
  | .cast _ => next = .fall ∧ s' = s
  | _ => next = .fall ∧ s' = s + 1

def persistCall : Instruction :=
  { kind := .call (some (lit "pmem_persist"))
      [.named (some (lit "node")) none 1, .constant (some 64) 8]
    debugLoc := some ⟨5, 3, lit "put"⟩, uniqueID := none, functionName := none }

def putReturn : Instruction :=
  { kind := .terminator, debugLoc := none, uniqueID := none, functionName := none }

/-- A function of one block. -/
def put : IRFunction :=
  { name := lit "put", filename := some (lit "put.c"),
    blocks := [⟨0, [persistCall, putReturn]⟩] }

theorem put_wellFormed : WellFormed put.blocks := by
  refine ⟨by simp [put], by simp [put], ?_⟩
  simp only [put, List.mem_singleton, forall_eq]
  exact ⟨[persistCall], putReturn, rfl, rfl, by simp [persistCall, Instruction.isTerminator]⟩

theorem understands_put : Understands counting Eq (setInstUniqueID 0 put.blocks).1 := by
  have hsilent : ∀ i : Instruction, (∀ s next s', counting i s next s' ↔ next = .fall ∧ s' = s) →
      Silent counting Eq i := fun i h =>
    ⟨fun s => ⟨s, (h s _ s).mpr ⟨rfl, rfl⟩⟩, fun s next s' hs =>
      ⟨((h s next s').mp hs).1, ((h s next s').mp hs).2.symm⟩⟩
  refine ⟨⟨fun _ => rfl, Eq.symm, Eq.trans⟩, fun i call hkind => hsilent i ?_,
    fun i operand hkind => hsilent i ?_, fun i label hkind s next s' => ?_, ?_, ?_⟩
  · simp [counting, hkind]
  · simp [counting, hkind]
  · simp [counting, hkind]
  · rintro block - i - s t next s' rfl hs
    exact ⟨s', hs, rfl⟩
  · intro block hblock i hi s label s' hs
    have hkind : i.kind = persistCall.kind ∨ i.kind = putReturn.kind := by
      simp only [setInstUniqueID, put, List.mem_singleton] at hblock
      rw [hblock] at hi
      simp only [List.zipIdx_cons, List.zipIdx_nil, List.map_cons, List.map_nil, List.mem_cons,
        List.not_mem_nil, or_false] at hi
      rcases hi with rfl | rfl
      · exact .inl rfl
      · exact .inr rfl
    rcases hkind with hkind | hkind <;> simp [counting, hkind, persistCall, putReturn] at hs

theorem exists_runOnFunction_put : ∃ f' n', runOnFunction 0 [] [] put = some (f', true, n') := by
  have hchanged : (runOnFunction 0 [] [] put).map (fun result => result.2.1) = some true := by
    with_unfolding_all decide
  obtain ⟨⟨f', changed, n'⟩, hpass, hchanged⟩ := Option.map_eq_some_iff.mp hchanged
  obtain rfl : changed = true := hchanged
  exact ⟨f', n', hpass⟩

/-- The instrumented function counts as the plain one. -/
theorem runOnFunction_simulates_put : ∃ f' n', runOnFunction 0 [] [] put = some (f', true, n') ∧
    ∀ done final, Runs counting (codeOf (setInstUniqueID 0 put.blocks).1)
        (startOf (setInstUniqueID 0 put.blocks).1 0) done final →
      ∃ done' final', Runs counting (codeOf f'.blocks) (startOf f'.blocks 0) done' final' ∧
        done'.filter original = done ∧ final.state = final'.state ∧
        (final.rest = [] ↔ final'.rest = []) := by
  obtain ⟨f', n', hpass⟩ := exists_runOnFunction_put
  exact ⟨f', n', hpass, (runOnFunction_simulates put_wellFormed hpass understands_put rfl).1⟩

end PMBugRepair.PMTraceGen
