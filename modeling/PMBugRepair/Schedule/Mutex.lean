import PMBugRepair.Machine.Runs
import PMBugRepair.Schedule.Order

/-!
# Threads with a mutex

An event of a thread may acquire the mutex, release it, or do neither. A thread cannot go on with an
acquisition while the mutex is held, nor with a release if another one holds it. The threads make
their events one at a time, in any order.
-/

namespace Schedule

inductive MutexUse where
  | acquire
  | release
  | other
  deriving DecidableEq

/-- What the threads have still to do, and which of them holds the mutex. -/
structure MutexState (α κ : Type) where
  rest : κ → List α
  holder : Option κ

section Definitions

variable {α κ : Type} [DecidableEq κ] (cls : α → κ) (use : α → MutexUse)

/-- The holder behind an event; `none` if the event cannot happen. -/
def holderAfter (holder : Option κ) (x : α) : Option (Option κ) :=
  match use x with
  | .acquire => if holder = none then some (some (cls x)) else none
  | .release => if holder = some (cls x) then some none else none
  | .other => some holder

def holders (holder : Option κ) (order : List α) : Option (Option κ) :=
  order.foldlM (holderAfter cls use) holder

def MutexState.start (events : List α) : MutexState α κ :=
  { rest := fun k => events.filter fun x => cls x = k, holder := none }

def MutexState.Ended (s : MutexState α κ) : Prop := ∀ k, s.rest k = []

/-- An acquisition and the release that ends it. -/
structure CriticalSection (events : List α) (x y : α) : Prop where
  acquire : use x = .acquire
  release : use y = .release
  cls_eq : cls x = cls y
  before : Before events x y
  between : ∀ z, Before events x z → Before events z y → cls z = cls x → use z = .other

/-- Of two critical sections of `events`, one ends before the other one begins. -/
def Excludes (events order : List α) : Prop :=
  ∀ x y x' y', CriticalSection cls use events x y → CriticalSection cls use events x' y' →
    x ≠ x' → Before order y x' ∨ Before order y' x

/-- A thread that acquires and releases in turn. -/
def Alternates : Bool → List α → Prop
  | isOpen, [] => isOpen = false
  | isOpen, x :: rest =>
      match use x with
      | .acquire => isOpen = false ∧ Alternates true rest
      | .release => isOpen = true ∧ Alternates false rest
      | .other => Alternates isOpen rest

def mutexStep [DecidableEq α] (s : MutexState α κ) (x : α) : Option (MutexState α κ) :=
  if (s.rest (cls x)).head? = some x then
    (holderAfter cls use s.holder x).map fun holder =>
      { rest := Function.update s.rest (cls x) (s.rest (cls x)).tail, holder := holder }
  else none

/-- The threads of `events` make the events of `order`, one after the other. -/
def MutexRun [DecidableEq α] (events order : List α) (s : MutexState α κ) : Prop :=
  Machine.Reaches (mutexStep cls use) (fun _ _ => True) (.start cls events) order s

end Definitions

variable {α κ : Type} [DecidableEq κ] {cls : α → κ} {use : α → MutexUse} {events order : List α}

/-! ### The holder -/

theorem holders_concat {holder : Option κ} {x : α} :
    holders cls use holder (order ++ [x]) =
      (holders cls use holder order).bind fun h => holderAfter cls use h x := by
  simp [holders]

theorem holders_append {holder : Option κ} {left right : List α} :
    holders cls use holder (left ++ right) =
      (holders cls use holder left).bind fun h => holders cls use h right := by
  simp [holders]

/-- Whoever holds the mutex keeps it up to a release of its own. -/
theorem holders_some {k : κ} {holder : Option κ}
    (h : holders cls use (some k) order = some holder) :
    holder = some k ∨ ∃ z ∈ order, use z = .release ∧ cls z = k := by
  induction order with
  | nil => exact .inl (Option.some.inj h).symm
  | cons x rest ih =>
      obtain ⟨next, hnext, hrest⟩ := Option.bind_eq_some_iff.mp h
      unfold holderAfter at hnext
      split at hnext <;> rename_i huse
      · simp at hnext
      · split_ifs at hnext with hheld
        exact .inr ⟨x, List.mem_cons_self, huse, (Option.some.inj hheld).symm⟩
      · obtain rfl := Option.some.inj hnext
        rcases ih hrest with heq | ⟨z, hz, hrelease⟩
        · exact .inl heq
        · exact .inr ⟨z, List.mem_cons_of_mem x hz, hrelease⟩

/-- Whoever holds the mutex has acquired it, and has not released it since. -/
theorem exists_acquire {k : κ} (h : holders cls use none order = some (some k)) :
    ∃ left x mid, order = left ++ x :: mid ∧ use x = .acquire ∧ cls x = k ∧
      ∀ z ∈ mid, use z = .other := by
  induction order using List.reverseRecOn with
  | nil => cases h
  | append_singleton order z ih =>
      rw [holders_concat] at h
      obtain ⟨holder, hbefore, hafter⟩ := Option.bind_eq_some_iff.mp h
      unfold holderAfter at hafter
      split at hafter <;> rename_i huse
      · split_ifs at hafter
        exact ⟨order, z, [], rfl, huse, Option.some.inj (Option.some.inj hafter), by simp⟩
      · split_ifs at hafter
        simp at hafter
      · obtain rfl := Option.some.inj hafter
        obtain ⟨left, x, mid, rfl, hacquire, hcls, hmid⟩ := ih hbefore
        refine ⟨left, x, mid ++ [z], by simp, hacquire, hcls, fun w hw => ?_⟩
        rcases List.mem_append.mp hw with hw | hw
        · exact hmid w hw
        · rw [List.mem_singleton.mp hw]
          exact huse

theorem Alternates.exists_release {list : List α} (h : Alternates use true list) :
    ∃ body y rest, list = body ++ y :: rest ∧ use y = .release ∧ ∀ z ∈ body, use z = .other := by
  induction list with
  | nil => cases h
  | cons x rest ih =>
      rw [Alternates] at h
      split at h <;> rename_i huse
      · cases h.1
      · exact ⟨[], x, rest, rfl, huse, by simp⟩
      · obtain ⟨body, y, rest, rfl, hrelease, hbody⟩ := ih h
        exact ⟨x :: body, y, rest, rfl, hrelease, List.forall_mem_cons.mpr ⟨huse, hbody⟩⟩

theorem Alternates.of_acquire {isOpen : Bool} {left right : List α} {x : α}
    (h : Alternates use isOpen (left ++ x :: right)) (hx : use x = .acquire) :
    Alternates use true right := by
  induction left generalizing isOpen with
  | nil =>
      rw [List.nil_append, Alternates, hx] at h
      exact h.2
  | cons y left ih =>
      rw [List.cons_append, Alternates] at h
      split at h
      · exact ih h.2
      · exact ih h.2
      · exact ih h

theorem Alternates.exists_acquire {isOpen : Bool} {left right : List α} {y : α}
    (h : Alternates use isOpen (left ++ y :: right)) (hy : use y = .release) :
    (isOpen = true ∧ ∀ z ∈ left, use z = .other) ∨
      ∃ front x body, left = front ++ x :: body ∧ use x = .acquire ∧
        ∀ z ∈ body, use z = .other := by
  induction left generalizing isOpen with
  | nil =>
      rw [List.nil_append, Alternates, hy] at h
      exact .inl ⟨h.1, by simp⟩
  | cons w left ih =>
      rw [List.cons_append, Alternates] at h
      split at h <;> rename_i huse
      · rcases ih h.2 with ⟨-, hleft⟩ | ⟨front, x, body, rfl, hx, hbody⟩
        · exact .inr ⟨[], w, left, rfl, huse, hleft⟩
        · exact .inr ⟨w :: front, x, body, rfl, hx, hbody⟩
      · rcases ih h.2 with ⟨hfalse, -⟩ | ⟨front, x, body, rfl, hx, hbody⟩
        · cases hfalse
        · exact .inr ⟨w :: front, x, body, rfl, hx, hbody⟩
      · rcases ih h with ⟨hopen, hleft⟩ | ⟨front, x, body, rfl, hx, hbody⟩
        · exact .inl ⟨hopen, List.forall_mem_cons.mpr ⟨huse, hleft⟩⟩
        · exact .inr ⟨w :: front, x, body, rfl, hx, hbody⟩

/-- Only the acquisitions and releases count. -/
theorem alternates_filter {isOpen : Bool} {list : List α} :
    Alternates use isOpen (list.filter fun x => use x ≠ .other) ↔ Alternates use isOpen list := by
  induction list generalizing isOpen with
  | nil => rfl
  | cons x rest ih =>
      cases huse : use x with
      | acquire | release =>
          rw [List.filter_cons_of_pos (by simp [huse])]
          simp only [Alternates, huse, ih]
      | other =>
          rw [List.filter_cons_of_neg (by simp [huse]), ih]
          simp only [Alternates, huse]

/-- What lies between two events stands between them. -/
theorem mem_between {left body right : List α} {x y z : α}
    (hnodup : (left ++ x :: (body ++ y :: right)).Nodup)
    (hxz : Before (left ++ x :: (body ++ y :: right)) x z)
    (hzy : Before (left ++ x :: (body ++ y :: right)) z y) : z ∈ body := by
  have hne : ∀ {w : α}, ¬Before (left ++ x :: (body ++ y :: right)) w w := fun h =>
    h.asymm hnodup h
  have hmem := hxz.mem.2
  simp only [List.mem_append, List.mem_cons] at hmem
  rcases hmem with hz | rfl | hz | rfl | hz
  · exact absurd (before_of_append hz (List.mem_cons_self)) (hxz.asymm hnodup)
  · exact absurd hxz hne
  · exact hz
  · exact absurd hzy hne
  · refine absurd ?_ (hzy.asymm hnodup)
    have hsplit : left ++ x :: (body ++ y :: right) = (left ++ x :: body ++ [y]) ++ right := by
      simp
    rw [hsplit]
    exact before_of_append (by simp) hz

theorem criticalSection_of_filter (hnodup : events.Nodup) {k : κ} {left body right : List α}
    {x y : α} (hfilter : (events.filter fun x => cls x = k) = left ++ x :: (body ++ y :: right))
    (hx : use x = .acquire) (hy : use y = .release) (hbody : ∀ z ∈ body, use z = .other) :
    CriticalSection cls use events x y := by
  have hmem : ∀ z ∈ left ++ x :: (body ++ y :: right), cls z = k := by
    intro z hz
    rw [← hfilter] at hz
    simpa using (List.mem_filter.mp hz).2
  have hclsx := hmem x (by simp)
  have hclsy := hmem y (by simp)
  refine ⟨hx, hy, hclsx.trans hclsy.symm, ?_, fun z hxz hzy hcls => hbody z ?_⟩
  · refine Before.of_filter (p := fun x => decide (cls x = k)) ?_
    rw [hfilter]
    exact before_iff_append.mpr ⟨left, body, right, rfl⟩
  · have hnodup' := hnodup.filter fun x => decide (cls x = k)
    have hxz' := hxz.filter (p := fun x => decide (cls x = k)) (by simp [hclsx])
      (by simp [hcls, hclsx])
    have hzy' := hzy.filter (p := fun x => decide (cls x = k)) (by simp [hcls, hclsx])
      (by simp [hclsy])
    rw [hfilter] at hnodup' hxz' hzy'
    exact mem_between hnodup' hxz' hzy'

theorem exists_criticalSection_of_acquire (hnodup : events.Nodup)
    (halternates : ∀ k, Alternates use false (events.filter fun x => cls x = k)) {x : α}
    (hmem : x ∈ events) (hx : use x = .acquire) :
    ∃ y, CriticalSection cls use events x y := by
  obtain ⟨left, right, hfilter⟩ := List.append_of_mem
    (List.mem_filter.mpr ⟨hmem, by simp⟩ : x ∈ events.filter fun y => cls y = cls x)
  have halternatesx := halternates (cls x)
  rw [hfilter] at halternatesx
  obtain ⟨body, y, rest, rfl, hy, hbody⟩ := (halternatesx.of_acquire hx).exists_release
  exact ⟨y, criticalSection_of_filter hnodup hfilter hx hy hbody⟩

theorem exists_criticalSection_of_release (hnodup : events.Nodup)
    (halternates : ∀ k, Alternates use false (events.filter fun x => cls x = k)) {y : α}
    (hmem : y ∈ events) (hy : use y = .release) :
    ∃ x, CriticalSection cls use events x y := by
  obtain ⟨left, right, hfilter⟩ := List.append_of_mem
    (List.mem_filter.mpr ⟨hmem, by simp⟩ : y ∈ events.filter fun x => cls x = cls y)
  have halternatesy := halternates (cls y)
  rw [hfilter] at halternatesy
  rcases halternatesy.exists_acquire hy with ⟨hfalse, -⟩ | ⟨front, x, body, rfl, hx, hbody⟩
  · cases hfalse
  · exact ⟨x, criticalSection_of_filter hnodup (by simpa using hfilter) hx hy hbody⟩

/-- An acquisition finds the mutex free. -/
theorem holders_acquire {start holder : Option κ} {left right : List α} {x : α}
    (hx : use x = .acquire) (h : holders cls use start (left ++ x :: right) = some holder) :
    holders cls use start left = some none ∧
      holders cls use (some (cls x)) right = some holder := by
  rw [holders_append] at h
  obtain ⟨free, hleft, h⟩ := Option.bind_eq_some_iff.mp h
  obtain ⟨next, hnext, hright⟩ := Option.bind_eq_some_iff.mp h
  rw [holderAfter, hx] at hnext
  obtain ⟨rfl, hnext⟩ := Option.ite_none_right_eq_some.mp hnext
  obtain rfl := Option.some.inj hnext
  exact ⟨hleft, hright⟩

/-- The thread of a section releases nothing before the section ends. -/
theorem CriticalSection.eq_or_before {x y z : α} (hsection : CriticalSection cls use events x y)
    (horder : Interleaving cls events order) (hz : use z = .release) (hcls : cls z = cls x)
    (hxz : Before order x z) : y = z ∨ Before order y z := by
  by_cases heq : y = z
  · exact .inl heq
  rcases before_or_before (horder.1.mem_iff.mp hxz.mem.2) hsection.before.mem.2 (Ne.symm heq)
    with hzy | hyz
  · have hother := hsection.between z ((horder.before_iff hcls.symm).mp hxz) hzy hcls
    rw [hz] at hother
    cases hother
  · exact .inr ((horder.before_iff (hsection.cls_eq.symm.trans hcls.symm)).mpr hyz)

/-- A section that begins first has ended when the next one begins. -/
theorem before_of_holders (hnodup : events.Nodup)
    (horder : Interleaving cls events order) {holder : Option κ}
    (h : holders cls use none order = some holder) {x y x' : α}
    (hsection : CriticalSection cls use events x y) (hx' : use x' = .acquire)
    (hbefore : Before order x x') : Before order y x' := by
  have hnodup' : order.Nodup := horder.1.nodup_iff.mpr hnodup
  obtain ⟨left, mid, right, rfl⟩ := before_iff_append.mp hbefore
  obtain ⟨-, hheld⟩ := holders_acquire hsection.acquire h
  obtain ⟨hmid, -⟩ := holders_acquire hx' hheld
  rcases holders_some hmid with hnone | ⟨z, hz, hrelease, hcls⟩
  · cases hnone
  · obtain ⟨a, b, rfl⟩ := List.append_of_mem hz
    have hxz : Before (left ++ x :: (a ++ z :: b ++ x' :: right)) x z :=
      before_iff_append.mpr ⟨left, a, b ++ x' :: right, by simp⟩
    have hzx' : Before (left ++ x :: (a ++ z :: b ++ x' :: right)) z x' :=
      before_iff_append.mpr ⟨left ++ x :: a, b, right, by simp⟩
    rcases hsection.eq_or_before horder hrelease hcls hxz with rfl | hyz
    · exact hzx'
    · exact hyz.chain hnodup' hzx'

section Excludes

variable {left right : List α} {z : α} {holder : Option κ}

/-- The section of a holder would overlap the one that begins here. -/
theorem holder_of_acquire (hnodup : events.Nodup)
    (halternates : ∀ k, Alternates use false (events.filter fun x => cls x = k))
    (horder : Interleaving cls events order) (hexcludes : Excludes cls use events order)
    (heq : order = left ++ z :: right) (hz : use z = .acquire)
    (h : holders cls use none left = some holder) : holder = none := by
  have hnodup' : order.Nodup := horder.1.nodup_iff.mpr hnodup
  have hmem : ∀ {w : α}, w ∈ order ↔ w ∈ events := horder.1.mem_iff
  cases holder with
  | none => rfl
  | some k =>
      obtain ⟨front, x, mid, rfl, hx, rfl, hmid⟩ := exists_acquire h
      obtain ⟨y, hsection⟩ := exists_criticalSection_of_acquire hnodup halternates
        (hmem.mp (by simp [heq])) hx
      obtain ⟨y', hsection'⟩ := exists_criticalSection_of_acquire hnodup halternates
        (hmem.mp (by simp [heq])) hz
      have hsplit : order = front ++ x :: (mid ++ z :: right) := by simpa using heq
      have hxz : Before order x z := before_iff_append.mpr ⟨front, mid, right, hsplit⟩
      have hne : x ≠ z := by
        rintro rfl
        exact hxz.asymm hnodup' hxz
      rcases hexcludes x y z y' hsection hsection' hne with hyz | hy'x
      · have hxy := (horder.before_iff hsection.cls_eq).mpr hsection.before
        rw [hsplit] at hnodup' hxy hyz
        have hother := hmid y (mem_between hnodup' hxy hyz)
        rw [hsection.release] at hother
        cases hother
      · have hzy' := (horder.before_iff hsection'.cls_eq).mpr hsection'.before
        exact absurd hy'x ((hxz.chain hnodup' hzy').asymm hnodup')

/-- A section that ends here is still the one of the holder. -/
theorem holder_of_release (hnodup : events.Nodup)
    (halternates : ∀ k, Alternates use false (events.filter fun x => cls x = k))
    (horder : Interleaving cls events order) (heq : order = left ++ z :: right)
    (hz : use z = .release) (h : holders cls use none left = some holder) :
    holder = some (cls z) := by
  have hnodup' : order.Nodup := horder.1.nodup_iff.mpr hnodup
  obtain ⟨x, hsection⟩ := exists_criticalSection_of_release hnodup halternates
    (horder.1.mem_iff.mp (by simp [heq])) hz
  have hxz := (horder.before_iff hsection.cls_eq).mpr hsection.before
  obtain ⟨front, mid, right', hsplit⟩ := before_iff_append.mp hxz
  obtain rfl : left = front ++ x :: mid := by
    have hz := (List.nodup_cons.mp (List.nodup_middle.mp (heq ▸ hnodup'))).1
    rw [List.mem_append, not_or] at hz
    have hsplit' : left ++ z :: right = (front ++ x :: mid) ++ z :: right' := by
      rw [← heq, hsplit]
      simp
    exact ((List.append_cons_inj_of_notMem hz.1 hz.2).mp hsplit').1
  obtain ⟨-, hmid⟩ := holders_acquire hsection.acquire h
  rcases holders_some hmid with rfl | ⟨w, hw, hrelease, hcls⟩
  · rw [hsection.cls_eq]
  · obtain ⟨a, b, rfl⟩ := List.append_of_mem hw
    have hxw : Before order x w :=
      before_iff_append.mpr ⟨front, a, b ++ z :: right, by simp [heq]⟩
    have hwz : Before order w z :=
      before_iff_append.mpr ⟨front ++ x :: a, b, right, by simp [heq]⟩
    rcases hsection.eq_or_before horder hrelease hcls hxw with rfl | hzw
    · exact absurd hwz (hwz.asymm hnodup')
    · exact absurd hzw (hwz.asymm hnodup')

/-- The mutex keeps the critical sections apart, and nothing else. -/
theorem exists_holders_iff (hnodup : events.Nodup)
    (halternates : ∀ k, Alternates use false (events.filter fun x => cls x = k))
    (horder : Interleaving cls events order) :
    (∃ holder, holders cls use none order = some holder) ↔ Excludes cls use events order := by
  constructor
  · rintro ⟨holder, h⟩ x y x' y' hsection hsection' hne
    rcases before_or_before (horder.1.mem_iff.mpr hsection.before.mem.1)
      (horder.1.mem_iff.mpr hsection'.before.mem.1) hne with hbefore | hbefore
    · exact .inl (before_of_holders hnodup horder h hsection hsection'.acquire hbefore)
    · exact .inr (before_of_holders hnodup horder h hsection' hsection.acquire hbefore)
  · intro hexcludes
    suffices hall : ∀ left right, order = left ++ right →
        ∃ holder, holders cls use none left = some holder from hall order [] (by simp)
    intro left
    induction left using List.reverseRecOn with
    | nil => exact fun _ _ => ⟨none, rfl⟩
    | append_singleton left z ih =>
        intro right heq
        rw [List.append_assoc, List.singleton_append] at heq
        obtain ⟨holder, hholder⟩ := ih (z :: right) heq
        rw [holders_concat, hholder, Option.bind_some, holderAfter]
        split <;> rename_i huse
        · rw [holder_of_acquire hnodup halternates horder hexcludes heq huse hholder]
          exact ⟨some (cls z), rfl⟩
        · rw [holder_of_release hnodup halternates horder heq huse hholder]
          exact ⟨none, if_pos rfl⟩
        · exact ⟨holder, rfl⟩

end Excludes

/-! ### The machine -/

variable [DecidableEq α] {s : MutexState α κ}

/-- Where the threads are is what the events so far have left of them. -/
theorem mutexRun_iff :
    MutexRun cls use events order s ↔
      (∀ k, order.filter (fun x => cls x = k) ++ s.rest k = events.filter fun x => cls x = k) ∧
        holders cls use none order = some s.holder := by
  constructor
  · intro h
    induction h with
    | nil => exact ⟨fun k => rfl, rfl⟩
    | @concat order s next x hreach _ hstep ih =>
        rw [mutexStep] at hstep
        split_ifs at hstep with hhead
        obtain ⟨holder, hholder, rfl⟩ := Option.map_eq_some_iff.mp hstep
        refine ⟨fun k => ?_, by rw [holders_concat, ih.2]; exact hholder⟩
        rw [← ih.1 k, List.filter_append, List.append_assoc]
        by_cases hk : cls x = k
        · subst hk
          obtain ⟨tail, htail⟩ := List.head?_eq_some_iff.mp hhead
          simp [htail]
        · simp [hk, Function.update_of_ne (Ne.symm hk)]
  · rintro ⟨hrest, hholder⟩
    induction order using List.reverseRecOn generalizing s with
    | nil =>
        have hstart : s = .start cls events := by
          obtain ⟨rest, holder⟩ := s
          obtain rfl : rest = fun k => events.filter fun x => cls x = k := funext hrest
          obtain rfl : none = holder := Option.some.inj hholder
          rfl
        rw [hstart]
        exact .nil
    | append_singleton order x ih =>
        rw [holders_concat] at hholder
        obtain ⟨holder, hbefore, hafter⟩ := Option.bind_eq_some_iff.mp hholder
        -- the state before the last event
        set before : MutexState α κ :=
          { rest := Function.update s.rest (cls x) (x :: s.rest (cls x)), holder := holder }
        refine @Machine.Reaches.concat _ _ _ _ _ order before s x (ih (fun k => ?_) hbefore)
          trivial ?_
        · rw [← hrest k, List.filter_append, List.append_assoc]
          by_cases hk : cls x = k
          · subst hk
            simp [before]
          · simp [before, hk, Function.update_of_ne (Ne.symm hk)]
        · simp [mutexStep, before, hafter]

/-! ### No deadlock -/

theorem MutexRun.alternates (h : MutexRun cls use events order s)
    (halternates : ∀ k, Alternates use false (events.filter fun x => cls x = k)) :
    ∀ k, Alternates use (decide (s.holder = some k)) (s.rest k) := by
  refine @Machine.Reaches.invariant _ _ _ _ _ _ _ h
    (fun s => ∀ k, Alternates use (decide (s.holder = some k)) (s.rest k)) halternates
    fun s x next hinv _ hstep => ?_
  rw [mutexStep] at hstep
  split_ifs at hstep with hhead
  obtain ⟨holder, hholder, rfl⟩ := Option.map_eq_some_iff.mp hstep
  obtain ⟨tail, htail⟩ := List.head?_eq_some_iff.mp hhead
  intro k
  change Alternates use (decide (holder = some k))
    (Function.update s.rest (cls x) (s.rest (cls x)).tail k)
  have hthread := hinv (cls x)
  rw [htail, Alternates] at hthread
  rw [holderAfter] at hholder
  have hk := hinv k
  by_cases heq : k = cls x
  · subst heq
    rw [htail, Function.update_self, List.tail_cons]
    split at hholder <;> rename_i huse <;> simp only [huse] at hthread
    · split_ifs at hholder
      obtain rfl := Option.some.inj hholder
      simpa using hthread.2
    · split_ifs at hholder
      obtain rfl := Option.some.inj hholder
      simpa using hthread.2
    · obtain rfl := Option.some.inj hholder
      exact hthread
  · rw [Function.update_of_ne heq]
    split at hholder
    · split_ifs at hholder with hnone
      obtain rfl := Option.some.inj hholder
      simpa [hnone, Ne.symm heq] using hk
    · split_ifs at hholder with hheld
      obtain rfl := Option.some.inj hholder
      simpa [hheld, Ne.symm heq] using hk
    · obtain rfl := Option.some.inj hholder
      exact hk

theorem exists_mutexStep (halternates : ∀ k, Alternates use (decide (s.holder = some k)) (s.rest k))
    (hclasses : ∀ k, ∀ x ∈ s.rest k, cls x = k) (hmore : ¬s.Ended) :
    ∃ x next, mutexStep cls use s x = some next := by
  -- the holder goes on if there is one, and anyone else otherwise
  obtain ⟨k, x, tail, hrest, hgoes⟩ : ∃ k x tail, s.rest k = x :: tail ∧
      (s.holder = none ∨ s.holder = some k) := by
    cases hholder : s.holder with
    | none =>
        obtain ⟨k, hk⟩ := not_forall.mp hmore
        obtain ⟨x, tail, hrest⟩ := List.exists_cons_of_ne_nil hk
        exact ⟨k, x, tail, hrest, .inl rfl⟩
    | some k =>
        have hk := halternates k
        cases hrest : s.rest k with
        | nil => simp [hholder, hrest, Alternates] at hk
        | cons x tail => exact ⟨k, x, tail, hrest, .inr rfl⟩
  have hk := halternates k
  obtain rfl : cls x = k := hclasses k x (by simp [hrest])
  have hafter : ∃ holder, holderAfter cls use s.holder x = some holder := by
    rw [hrest, Alternates] at hk
    unfold holderAfter
    rcases hgoes with hnone | hheld
    · cases huse : use x <;> simp [huse, hnone] at hk ⊢
    · cases huse : use x <;> simp [huse, hheld] at hk ⊢
  obtain ⟨holder, hholder⟩ := hafter
  exact ⟨x, { rest := Function.update s.rest (cls x) tail, holder := holder },
    by simp [mutexStep, hrest, hholder]⟩

/-- A thread that acquires the mutex twice in a row waits for itself. -/
theorem MutexRun.not_ended (h : MutexRun cls use events order s) {k : κ} {x y : α} {rest : List α}
    (hevents : (events.filter fun z => cls z = k) = x :: y :: rest) (hx : use x = .acquire)
    (hy : use y = .acquire) : ¬s.Ended := by
  have hinv : s.rest k = x :: y :: rest ∨ (s.rest k = y :: rest ∧ s.holder = some k) := by
    refine @Machine.Reaches.invariant _ _ _ _ _ _ _ h
      (fun s => s.rest k = x :: y :: rest ∨ (s.rest k = y :: rest ∧ s.holder = some k))
      (.inl hevents) fun s z next hinv _ hstep => ?_
    unfold mutexStep at hstep
    split_ifs at hstep with hhead
    obtain ⟨holder, hholder, rfl⟩ := Option.map_eq_some_iff.mp hstep
    by_cases hz : cls z = k
    · rw [hz] at hhead ⊢
      rcases hinv with hrest | ⟨hrest, hself⟩
      · rw [hrest, List.head?_cons, Option.some_inj] at hhead
        subst hhead
        rw [holderAfter, hx] at hholder
        have htail : Function.update s.rest k (s.rest k).tail k = y :: rest := by
          rw [Function.update_self, hrest, List.tail_cons]
        have hfree : s.holder = none ∧ some (cls x) = holder := by simpa using hholder
        exact .inr ⟨htail, by rw [← hfree.2, hz]⟩
      · rw [hrest, List.head?_cons, Option.some_inj] at hhead
        subst hhead
        rw [holderAfter, hy, hself] at hholder
        simp at hholder
    · have hne : k ≠ cls z := Ne.symm hz
      simp only [Function.update_of_ne hne]
      refine hinv.imp_right fun hwaits => ⟨hwaits.1, ?_⟩
      have hself := hwaits.2
      rw [holderAfter, hself] at hholder
      cases huse : use z <;> simp [huse] at hholder
      · exact absurd hholder.1 hne
      · exact hholder.symm
  intro hended
  have hnil := hended k
  rcases hinv with hrest | ⟨hrest, -⟩ <;> rw [hrest] at hnil <;> cases hnil

theorem MutexRun.classes (h : MutexRun cls use events order s) :
    ∀ k, ∀ x ∈ s.rest k, cls x = k := by
  intro k x hx
  have hmem : x ∈ events.filter fun x => cls x = k := by
    rw [← (mutexRun_iff.mp h).1 k]
    exact List.mem_append_right _ hx
  simpa using (List.mem_filter.mp hmem).2

theorem MutexRun.length_le (h : MutexRun cls use events order s) :
    order.length ≤ events.length := by
  refine (List.subperm_ext_iff.mpr fun x _ => ?_).length_le
  calc
    order.count x = (order.filter fun y => cls y = cls x).count x :=
      (List.count_filter (by simp)).symm
    _ ≤ (events.filter fun y => cls y = cls x).count x := by
      rw [← (mutexRun_iff.mp h).1 (cls x)]
      exact (List.sublist_append_left _ _).count_le x
    _ = events.count x := List.count_filter (by simp)

/-- Threads that acquire and release in turn never wait for each other forever. -/
theorem MutexRun.exists_completion (h : MutexRun cls use events order s)
    (halternates : ∀ k, Alternates use false (events.filter fun x => cls x = k)) :
    ∃ more next, MutexRun cls use events (order ++ more) next ∧ next.Ended := by
  induction hn : events.length - order.length generalizing order s with
  | zero =>
      refine ⟨[], s, by simpa using h, ?_⟩
      by_contra hmore
      obtain ⟨x, next, hstep⟩ := exists_mutexStep (h.alternates halternates) h.classes hmore
      have hlength := MutexRun.length_le (Machine.Reaches.concat h trivial hstep)
      rw [List.length_append, List.length_singleton] at hlength
      omega
  | succ n ih =>
      by_cases hmore : s.Ended
      · exact ⟨[], s, by simpa using h, hmore⟩
      · obtain ⟨x, next, hstep⟩ := exists_mutexStep (h.alternates halternates) h.classes hmore
        have hnext : MutexRun cls use events (order ++ [x]) next := .concat h trivial hstep
        obtain ⟨more, last, hlast, hended⟩ := ih hnext (by simp; omega)
        exact ⟨x :: more, last, by simpa using hlast, hended⟩

theorem MutexRun.interleaving (h : MutexRun cls use events order s) (hended : s.Ended) :
    Interleaving cls events order := by
  have hfilter : ∀ k, (order.filter fun x => cls x = k) = events.filter fun x => cls x = k := by
    intro k
    rw [← (mutexRun_iff.mp h).1 k, hended k, List.append_nil]
  refine ⟨List.perm_iff_count.mpr fun x => ?_, hfilter⟩
  rw [← @List.count_filter _ _ _ (fun y => decide (cls y = cls x)) x order (by simp), hfilter,
    List.count_filter (by simp)]

/-- The complete runs are the interleavings that keep the critical sections apart. -/
theorem exists_mutexRun_iff (hnodup : events.Nodup)
    (halternates : ∀ k, Alternates use false (events.filter fun x => cls x = k)) :
    (∃ s, MutexRun cls use events order s ∧ s.Ended) ↔
      Interleaving cls events order ∧ Excludes cls use events order := by
  constructor
  · rintro ⟨s, hrun, hended⟩
    have horder := hrun.interleaving hended
    exact ⟨horder, (exists_holders_iff hnodup halternates horder).mp
      ⟨s.holder, (mutexRun_iff.mp hrun).2⟩⟩
  · rintro ⟨horder, hexcludes⟩
    obtain ⟨holder, hholder⟩ := (exists_holders_iff hnodup halternates horder).mpr hexcludes
    refine ⟨{ rest := fun _ => [], holder := holder }, mutexRun_iff.mpr ⟨fun k => ?_, hholder⟩,
      fun _ => rfl⟩
    rw [List.append_nil, horder.2 k]

end Schedule
