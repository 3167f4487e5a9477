import Mathlib.Data.List.Basic

/-!
# Weaving instructions into a program

A program is a family of blocks. Its instructions fall through, jump to a block or leave. Silent
instructions always fall through and change nothing that the others look at. A program into which
silent instructions are woven does what it did before, and in front of every instruction what was
woven in there.
-/

namespace Weaving

variable {κ ι σ : Type*}

/-- Where an instruction goes on. -/
inductive Next (κ : Type*) where
  | fall
  | goto (label : κ)
  | leave

/-- What the instructions do. -/
abbrev Meaning (κ ι σ : Type*) := ι → σ → Next κ → σ → Prop

/-- The instructions that are left of a block, and the state. -/
structure Config (κ ι σ : Type*) where
  label : κ
  rest : List ι
  state : σ

/-- Behind an instruction of the block `label`. -/
def Next.config (code : κ → List ι) (label : κ) (rest : List ι) (state : σ) :
    Next κ → Config κ ι σ
  | .fall => ⟨label, rest, state⟩
  | .goto next => ⟨next, code next, state⟩
  | .leave => ⟨label, [], state⟩

/-- The instructions that are executed on the way, each with its block. -/
inductive Runs (meaning : Meaning κ ι σ) (code : κ → List ι) (start : Config κ ι σ) :
    List (κ × ι) → Config κ ι σ → Prop where
  | start : Runs meaning code start [] start
  | step {done : List (κ × ι)} {label : κ} {i : ι} {rest : List ι} {s s' : σ} {next : Next κ}
      (h : Runs meaning code start done ⟨label, i :: rest, s⟩) (hstep : meaning i s next s') :
      Runs meaning code start (done ++ [(label, i)]) (next.config code label rest s')

section Runs

variable {meaning : Meaning κ ι σ} {code : κ → List ι} {start mid final : Config κ ι σ}
  {done more : List (κ × ι)}

theorem Runs.trans (h : Runs meaning code start done mid) (h' : Runs meaning code mid more final) :
    Runs meaning code start (done ++ more) final := by
  induction h' with
  | start => rwa [List.append_nil]
  | step _ hstep ih =>
      rw [← List.append_assoc]
      exact ih.step hstep

/-- What is executed was in the code or in the rest of the first block. -/
theorem Runs.invariant {P : ι → Prop} (h : Runs meaning code start done final)
    (hstart : ∀ i ∈ start.rest, P i) (hcode : ∀ label, ∀ i ∈ code label, P i) :
    (∀ event ∈ done, P event.2) ∧ ∀ i ∈ final.rest, P i := by
  induction h with
  | start => exact ⟨by simp, hstart⟩
  | @step done label i rest s s' next _ hstep ih =>
      obtain ⟨hdone, hrest⟩ := ih
      refine ⟨List.forall_mem_append.mpr ⟨hdone, by simpa using hrest i (by simp)⟩, ?_⟩
      cases next with
      | fall => exact fun j hj => hrest j (List.mem_cons_of_mem i hj)
      | goto next => exact hcode next
      | leave => simp [Next.config]

/-- The first step of a run. -/
theorem Runs.cases_cons {label : κ} {i : ι} {rest : List ι} {s : σ}
    (h : Runs meaning code ⟨label, i :: rest, s⟩ done final) :
    (done = [] ∧ final = ⟨label, i :: rest, s⟩) ∨ ∃ next s' more, meaning i s next s' ∧
      done = (label, i) :: more ∧
        Runs meaning code (next.config code label rest s') more final := by
  induction h with
  | start => exact .inl ⟨rfl, rfl⟩
  | step _ hstep ih =>
      rcases ih with ⟨rfl, heq⟩ | ⟨next, s', more, hfirst, rfl, hmore⟩
      · obtain ⟨rfl, hrest, rfl⟩ := Config.mk.inj heq
        obtain ⟨rfl, rfl⟩ := List.cons.inj hrest
        exact .inr ⟨_, _, [], hstep, rfl, .start⟩
      · exact .inr ⟨next, s', _, hfirst, rfl, hmore.step hstep⟩

end Runs

/-! ### Silent instructions -/

/-- The instruction falls through from every state, to one that differs in nothing visible. -/
structure Silent (meaning : Meaning κ ι σ) (same : σ → σ → Prop) (i : ι) : Prop where
  falls : ∀ s, ∃ s', meaning i s .fall s'
  unseen : ∀ s next s', meaning i s next s' → next = .fall ∧ same s s'

/-- The instruction does the same in states with no visible difference. -/
def Respects (meaning : Meaning κ ι σ) (same : σ → σ → Prop) (i : ι) : Prop :=
  ∀ s t next s', same s t → meaning i s next s' → ∃ t', meaning i t next t' ∧ same s' t'

/-- A block with `ghost label i` in front of each of its instructions `i`. -/
def weave (ghost : κ → ι → List ι) (label : κ) (block : List ι) : List ι :=
  block.flatMap fun i => ghost label i ++ [i]

@[simp] theorem weave_nil (ghost : κ → ι → List ι) (label : κ) : weave ghost label [] = [] := rfl

@[simp] theorem weave_cons (ghost : κ → ι → List ι) (label : κ) (i : ι) (block : List ι) :
    weave ghost label (i :: block) = ghost label i ++ i :: weave ghost label block := by
  simp [weave]

theorem weave_eq_nil_iff {ghost : κ → ι → List ι} {label : κ} {block : List ι} :
    weave ghost label block = [] ↔ block = [] := by
  cases block <;> simp

theorem weave_append (ghost : κ → ι → List ι) (label : κ) (front back : List ι) :
    weave ghost label (front ++ back) = weave ghost label front ++ weave ghost label back := by
  simp [weave]

theorem weave_eq_self {ghost : κ → ι → List ι} {label : κ} {block : List ι}
    (h : ∀ i ∈ block, ghost label i = []) : weave ghost label block = block := by
  induction block with
  | nil => rfl
  | cons i block ih =>
      obtain ⟨hi, hblock⟩ := List.forall_mem_cons.mp h
      rw [weave_cons, hi, ih hblock, List.nil_append]

/-- Two rounds of weaving, the second one also into what the first one has woven in. -/
theorem weave_weave (ghost ghost' : κ → ι → List ι) (label : κ) (block : List ι) :
    weave ghost' label (weave ghost label block) =
      weave (fun label i => weave ghost' label (ghost label i) ++ ghost' label i) label block := by
  induction block with
  | nil => rfl
  | cons i block ih => simp [weave_append, ih]

/-- What is executed of the woven program for the events of the plain one. -/
def expand (ghost : κ → ι → List ι) (done : List (κ × ι)) : List (κ × ι) :=
  done.flatMap fun event => (ghost event.1 event.2 ++ [event.2]).map (event.1, ·)

@[simp] theorem expand_nil (ghost : κ → ι → List ι) : expand ghost [] = [] := rfl

@[simp] theorem expand_append (ghost : κ → ι → List ι) (done more : List (κ × ι)) :
    expand ghost (done ++ more) = expand ghost done ++ expand ghost more := by
  simp [expand]

/-- The program `woven` is `code` with silent instructions in front of the others, in every block
that an instruction may jump to. -/
structure Woven (meaning : Meaning κ ι σ) (same : σ → σ → Prop) (ghost : κ → ι → List ι)
    (code woven : κ → List ι) (target : κ → Prop) : Prop where
  equivalence : Equivalence same
  silent : ∀ label, ∀ i ∈ code label, ∀ g ∈ ghost label i, Silent meaning same g
  respects : ∀ label, ∀ i ∈ code label, Respects meaning same i
  jumps : ∀ label, ∀ i ∈ code label, ∀ s next s', meaning i s (.goto next) s' → target next
  block : ∀ label, target label → woven label = weave ghost label (code label)

/-! ### Passages -/

/-- From `insts` every run goes through `events`, with no visible effect, to `insts'`. -/
structure LeadsTo (meaning : Meaning κ ι σ) (same : σ → σ → Prop) (code : κ → List ι) (label : κ)
    (insts : List ι) (events : List (κ × ι)) (label' : κ) (insts' : List ι) : Prop where
  runs : ∀ s, ∃ s', Runs meaning code ⟨label, insts, s⟩ events ⟨label', insts', s'⟩ ∧ same s s'
  only : ∀ s done final, Runs meaning code ⟨label, insts, s⟩ done final →
    (∃ more, done ++ more = events ∧ final.rest ≠ [] ∧ same s final.state) ∨
      ∃ s' done', done = events ++ done' ∧ same s s' ∧
        Runs meaning code ⟨label', insts', s'⟩ done' final

section LeadsTo

variable {meaning : Meaning κ ι σ} {same : σ → σ → Prop} {code : κ → List ι}
  {label label' label'' : κ} {insts insts' insts'' front rest : List ι}
  {events events' : List (κ × ι)} {i : ι}

theorem LeadsTo.refl (hsame : Equivalence same) (label : κ) (insts : List ι) :
    LeadsTo meaning same code label insts [] label insts :=
  ⟨fun s => ⟨s, .start, hsame.refl s⟩, fun s done _ h => .inr ⟨s, done, rfl, hsame.refl s, h⟩⟩

theorem LeadsTo.trans (hsame : Equivalence same)
    (h : LeadsTo meaning same code label insts events label' insts')
    (h' : LeadsTo meaning same code label' insts' events' label'' insts'') :
    LeadsTo meaning same code label insts (events ++ events') label'' insts'' := by
  refine ⟨fun s => ?_, fun s done final hruns => ?_⟩
  · obtain ⟨s', hruns, hs⟩ := h.runs s
    obtain ⟨s'', hruns', hs'⟩ := h'.runs s'
    exact ⟨s'', hruns.trans hruns', hsame.trans hs hs'⟩
  · rcases h.only s done final hruns with ⟨more, rfl, hrest, hs⟩ | ⟨s', done', rfl, hs, hruns'⟩
    · exact .inl ⟨more ++ events', by rw [List.append_assoc], hrest, hs⟩
    · rcases h'.only s' done' final hruns' with ⟨more, rfl, hrest, hs'⟩ |
        ⟨s'', done'', rfl, hs', hruns''⟩
      · exact .inl ⟨more, by rw [List.append_assoc], hrest, hsame.trans hs hs'⟩
      · exact .inr ⟨s'', done'', by rw [List.append_assoc], hsame.trans hs hs', hruns''⟩

theorem LeadsTo.one (hsame : Equivalence same) {next : Next κ}
    (hstep : ∀ s, ∃ s', meaning i s next s')
    (honly : ∀ s next' s', meaning i s next' s' → next' = next ∧ same s s')
    (hconfig : ∀ s : σ, next.config code label rest s = ⟨label', insts', s⟩) :
    LeadsTo meaning same code label (i :: rest) [(label, i)] label' insts' := by
  refine ⟨fun s => ?_, fun s done final hruns => ?_⟩
  · obtain ⟨s', hs'⟩ := hstep s
    refine ⟨s', ?_, (honly s next s' hs').2⟩
    rw [← hconfig]
    exact Runs.start.step hs'
  · rcases hruns.cases_cons with ⟨rfl, rfl⟩ | ⟨next', s', more, hfirst, rfl, hmore⟩
    · exact .inl ⟨_, rfl, List.cons_ne_nil i rest, hsame.refl s⟩
    · obtain ⟨rfl, hs⟩ := honly s next' s' hfirst
      rw [hconfig] at hmore
      exact .inr ⟨s', more, rfl, hs, hmore⟩

/-- Silent instructions run through. -/
theorem leads_of_silent (hsame : Equivalence same) (hsilent : ∀ g ∈ front, Silent meaning same g) :
    LeadsTo meaning same code label (front ++ rest) (front.map (label, ·)) label rest := by
  induction front with
  | nil => exact .refl hsame label rest
  | cons g front ih =>
      obtain ⟨hg, hfront⟩ := List.forall_mem_cons.mp hsilent
      exact (LeadsTo.one hsame hg.falls hg.unseen fun _ => rfl).trans hsame (ih hfront)

end LeadsTo

namespace Woven

variable {meaning : Meaning κ ι σ} {same : σ → σ → Prop} {ghost : κ → ι → List ι}
  {code woven : κ → List ι} {target : κ → Prop} {entry : κ} {s t : σ} {done : List (κ × ι)}
  {final : Config κ ι σ}

/-- The rest of a block is a part of it. -/
theorem mem_code (h : Runs meaning code ⟨entry, code entry, s⟩ done final) :
    ∀ i ∈ final.rest, i ∈ code final.label := by
  induction h with
  | start => exact fun i hi => hi
  | @step done label i rest s s' next _ hstep ih =>
      cases next with
      | fall => exact fun j hj => ih j (List.mem_cons_of_mem i hj)
      | goto next => exact fun j hj => hj
      | leave => exact fun j hj => absurd hj List.not_mem_nil

theorem config_next (h : Woven meaning same ghost code woven target) {label : κ} {i : ι}
    {rest : List ι} {s' : σ} {next : Next κ} (hi : i ∈ code label) (hstep : meaning i s next s')
    (t' : σ) : next.config woven label (weave ghost label rest) t' =
      ⟨(next.config code label rest s').label, weave ghost (next.config code label rest s').label
        (next.config code label rest s').rest, t'⟩ := by
  cases next with
  | fall => rfl
  | leave => rfl
  | goto next => rw [Next.config, Next.config, h.block next (h.jumps label i hi s next s' hstep)]

/-- **Whatever the plain program does, the woven one does**, with what was woven in. -/
theorem forward (h : Woven meaning same ghost code woven target) (hst : same s t)
    (hruns : Runs meaning code ⟨entry, code entry, s⟩ done final) :
    ∃ t', Runs meaning woven ⟨entry, weave ghost entry (code entry), t⟩ (expand ghost done)
        ⟨final.label, weave ghost final.label final.rest, t'⟩ ∧ same final.state t' := by
  induction hruns with
  | start => exact ⟨t, .start, hst⟩
  | @step done label i rest s₁ s₂ next hruns hstep ih =>
      obtain ⟨t₁, hwoven, hsame⟩ := ih
      have hi : i ∈ code label := mem_code hruns i (by simp)
      rw [weave_cons] at hwoven
      obtain ⟨t₂, hghost, hsame'⟩ :=
        (leads_of_silent h.equivalence (h.silent label i hi)).runs t₁
      obtain ⟨t₃, hlast, hsame''⟩ :=
        h.respects label i hi s₁ t₂ next s₂ (h.equivalence.trans hsame hsame') hstep
      refine ⟨t₃, ?_, ?_⟩
      · have hall := (hwoven.trans hghost).step hlast
        rw [h.config_next hi hstep] at hall
        simpa [expand] using hall
      · cases next <;> exact hsame''

/-- Of what is woven in front of the next instruction, `front` has been executed. -/
def Started (ghost : κ → ι → List ι) (c : Config κ ι σ) (front : List ι) : Prop :=
  front = [] ∨ ∃ i rest back, c.rest = i :: rest ∧ ghost c.label i = front ++ back

theorem Started.rest_eq_nil_iff {c : Config κ ι σ} {front rest : List ι}
    (h : Started ghost c front) (hsplit : front ++ rest = weave ghost c.label c.rest) :
    c.rest = [] ↔ rest = [] := by
  constructor
  · intro hrest
    rw [hrest, weave_nil] at hsplit
    exact (List.append_eq_nil_iff.mp hsplit).2
  · rintro rfl
    rcases h with rfl | ⟨i, tail, back, hrest, hback⟩
    · exact weave_eq_nil_iff.mp hsplit.symm
    · rw [hrest, weave_cons, hback] at hsplit
      simp at hsplit

/-- **Whatever the woven program does, the plain one did**, up to silent instructions in front of
the next one. -/
theorem backward (h : Woven meaning same ghost code woven target) (hst : same s t)
    (hruns : Runs meaning woven ⟨entry, weave ghost entry (code entry), t⟩ done final) :
    ∃ plain c front, Runs meaning code ⟨entry, code entry, s⟩ plain c ∧
      done = expand ghost plain ++ front.map (c.label, ·) ∧ Started ghost c front ∧
      final.label = c.label ∧ front ++ final.rest = weave ghost c.label c.rest ∧
      same c.state final.state := by
  induction hruns with
  | start => exact ⟨[], ⟨entry, code entry, s⟩, [], .start, rfl, .inl rfl, rfl, rfl, hst⟩
  | @step done label j rest s₁ s₂ next hruns hstep ih =>
      obtain ⟨plain, ⟨label', rest', s'⟩, front, hplain, rfl, hstarted, rfl, hsplit, hsame⟩ := ih
      have hmem := mem_code hplain
      cases rest' with
      | nil => simp at hsplit
      | cons i tail =>
          obtain ⟨back, hback⟩ : ∃ back, ghost label i = front ++ back := by
            rcases hstarted with rfl | ⟨i', rest', back, heq, hback⟩
            · exact ⟨ghost label i, rfl⟩
            · obtain ⟨rfl, -⟩ := List.cons.inj heq
              exact ⟨back, hback⟩
          have hi : i ∈ code label := hmem i (by simp)
          simp only [weave_cons, hback, List.append_assoc, List.append_cancel_left_eq] at hsplit
          cases back with
          | cons g back =>
              -- one more silent instruction
              obtain ⟨rfl, rfl⟩ := List.cons.inj hsplit
              obtain ⟨rfl, hsame'⟩ :=
                (h.silent label i hi j (by simp [hback])).unseen s₁ next s₂ hstep
              refine ⟨plain, ⟨label, i :: tail, s'⟩, front ++ [j], hplain, by simp,
                .inr ⟨i, tail, back, rfl, by simp [hback]⟩, rfl, ?_,
                h.equivalence.trans hsame hsame'⟩
              simp [Next.config, hback]
          | nil =>
              obtain ⟨rfl, rfl⟩ := List.cons.inj hsplit
              obtain ⟨s'', hstep', hsame'⟩ :=
                h.respects label j hi s₁ s' next s₂ (h.equivalence.symm hsame) hstep
              have hnext := @config_next _ _ _ _ _ _ _ _ _ s' h label j tail s'' next hi hstep' s₂
              refine ⟨plain ++ [(label, j)], next.config code label tail s'', [],
                hplain.step hstep', ?_, .inl rfl, ?_, ?_, ?_⟩
              · simp [expand, hback]
              · rw [hnext]
              · rw [hnext]
                rfl
              · cases next <;> exact h.equivalence.symm hsame'

end Woven

end Weaving
