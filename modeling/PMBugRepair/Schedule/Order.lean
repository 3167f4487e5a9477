import Mathlib.Data.Int.Interval
import Mathlib.Data.List.Nodup
import Mathlib.Data.List.Sort
import Mathlib.Tactic

/-!
# Orders of events

An order of events is a list. `Before` reads precedence off the list, `Interleaving` says that an
order keeps every class of events in the order of a given list, and `byTime` turns time stamps back
into an order. Time stamps may tie: only strict differences are turned into precedence.
-/

namespace Schedule

variable {α κ : Type}

def Before (order : List α) (x y : α) : Prop := [x, y].Sublist order

theorem before_of_append {left right : List α} {x y : α} (hx : x ∈ left) (hy : y ∈ right) :
    Before (left ++ right) x y :=
  (List.singleton_sublist.mpr hx).append (List.singleton_sublist.mpr hy)

theorem before_iff_append {order : List α} {x y : α} :
    Before order x y ↔ ∃ left mid right, order = left ++ x :: (mid ++ y :: right) := by
  constructor
  · intro hbefore
    obtain ⟨left, rest, rfl, hx, hy⟩ := List.cons_sublist_iff.mp hbefore
    obtain ⟨a, b, rfl⟩ := List.append_of_mem hx
    obtain ⟨c, d, rfl⟩ := List.append_of_mem (List.singleton_sublist.mp hy)
    exact ⟨a, b ++ c, d, by simp⟩
  · rintro ⟨left, mid, right, rfl⟩
    rw [List.append_cons]
    exact before_of_append (by simp) (by simp)

theorem before_cons_iff {head : α} {rest : List α} {x y : α} :
    Before (head :: rest) x y ↔ (x = head ∧ y ∈ rest) ∨ Before rest x y := by
  constructor
  · intro h
    cases h with
    | cons _ h => exact .inr h
    | cons_cons _ h => exact .inl ⟨rfl, List.singleton_sublist.mp h⟩
  · rintro (⟨rfl, hy⟩ | h)
    · exact (List.singleton_sublist.mpr hy).cons_cons x
    · exact h.cons head

theorem Before.mem {order : List α} {x y : α} (h : Before order x y) : x ∈ order ∧ y ∈ order :=
  ⟨h.subset (by simp), h.subset (by simp)⟩

theorem Before.rel {order : List α} {x y : α} {R : α → α → Prop} (h : Before order x y)
    (hR : order.Pairwise R) : R x y := by
  simpa using hR.sublist h

theorem Before.filter {order : List α} {x y : α} {p : α → Bool} (h : Before order x y)
    (hx : p x = true) (hy : p y = true) : Before (order.filter p) x y := by
  have hsub : ([x, y].filter p).Sublist (order.filter p) := List.Sublist.filter p h
  rwa [List.filter_cons_of_pos hx, List.filter_cons_of_pos hy, List.filter_nil] at hsub

theorem Before.of_filter {order : List α} {x y : α} {p : α → Bool}
    (h : Before (order.filter p) x y) : Before order x y :=
  h.trans List.filter_sublist

/-- In an order without repetitions two different events are ordered one way or the other. -/
theorem before_or_before {order : List α} {x y : α} (hx : x ∈ order) (hy : y ∈ order)
    (hne : x ≠ y) : Before order x y ∨ Before order y x := by
  obtain ⟨left, right, rfl⟩ := List.append_of_mem hx
  rcases List.mem_append.mp hy with hy | hy
  · exact .inr (before_of_append hy List.mem_cons_self)
  · refine .inl ?_
    rw [List.append_cons]
    exact before_of_append (by simp) ((List.mem_cons.mp hy).resolve_left hne.symm)

theorem Before.asymm {order : List α} {x y : α} (hnodup : order.Nodup) (h : Before order x y) :
    ¬Before order y x := by
  intro h'
  obtain ⟨left, mid, right, rfl⟩ := before_iff_append.mp h
  rw [List.append_cons] at h' hnodup
  obtain ⟨a, b, heq, hy, hx⟩ := List.cons_sublist_iff.mp h'
  have hdisjoint := List.nodup_append.mp hnodup
  have hyRight : y ∈ mid ++ y :: right := by simp
  rcases List.append_eq_append_iff.mp heq with ⟨c, rfl, hc⟩ | ⟨c, hc, rfl⟩
  · have hxLeft : x ∈ left ++ [x] := by simp
    have hxc : x ∈ c ++ b := List.mem_append_right c (List.singleton_sublist.mp hx)
    rw [← hc] at hxc
    exact hdisjoint.2.2 x hxLeft x hxc rfl
  · have hyLeft : y ∈ left ++ [x] := by
      rw [hc]
      exact List.mem_append_left c hy
    exact hdisjoint.2.2 y hyLeft y hyRight rfl

theorem Before.of_sublist {left right : List α} {x y : α} (h : Before right x y)
    (hnodup : right.Nodup) (hsub : left.Sublist right) (hx : x ∈ left) (hy : y ∈ left) :
    Before left x y := by
  have hne : x ≠ y := by
    rintro rfl
    exact h.asymm hnodup h
  rcases before_or_before hx hy hne with hbefore | hbefore
  · exact hbefore
  · exact absurd (hbefore.trans hsub) (h.asymm hnodup)

theorem triple_sublist {order : List α} {x y z : α} (hnodup : order.Nodup)
    (hxy : Before order x y) (hyz : Before order y z) : [x, y, z].Sublist order := by
  obtain ⟨left, mid, right, rfl⟩ := before_iff_append.mp hxy
  obtain ⟨left', mid', right', heq⟩ := before_iff_append.mp hyz
  have hsplit : left ++ x :: (mid ++ y :: right) = (left ++ x :: mid) ++ y :: right := by simp
  rw [hsplit] at heq hnodup ⊢
  have hy := (List.nodup_cons.mp (List.nodup_middle.mp hnodup)).1
  rw [List.mem_append, not_or] at hy
  obtain ⟨-, -, rfl⟩ := (List.append_cons_inj_of_notMem hy.1 hy.2).mp heq
  have hx : [x].Sublist (left ++ x :: mid) := List.singleton_sublist.mpr (by simp)
  exact hx.append ((List.singleton_sublist.mpr (by simp)).cons_cons y)

/-- In an order without repetitions an event can be put in front of a part that starts later. -/
theorem Before.cons_sublist {order rest : List α} {x y : α} (hnodup : order.Nodup)
    (hxy : Before order x y) (hrest : (y :: rest).Sublist order) :
    (x :: y :: rest).Sublist order := by
  obtain ⟨left, mid, right, rfl⟩ := before_iff_append.mp hxy
  have hsplit : left ++ x :: (mid ++ y :: right) = (left ++ x :: mid) ++ y :: right := by simp
  rw [hsplit] at hrest hnodup ⊢
  have hy := (List.nodup_cons.mp (List.nodup_middle.mp hnodup)).1
  rw [List.mem_append, not_or] at hy
  obtain ⟨front, back, heq, hfront, hback⟩ := List.sublist_append_iff.mp hrest
  cases front with
  | nil =>
      rw [List.nil_append] at heq
      subst heq
      have hx : [x].Sublist (left ++ x :: mid) := List.singleton_sublist.mpr (by simp)
      exact hx.append hback
  | cons head front =>
      obtain ⟨rfl, -⟩ := List.cons.inj heq
      exact absurd (hfront.subset List.mem_cons_self) hy.1

theorem Before.chain {order : List α} {x y z : α} (hxy : Before order x y) (hnodup : order.Nodup)
    (hyz : Before order y z) : Before order x z :=
  List.Sublist.trans (by simp) (triple_sublist hnodup hxy hyz)

/-! ### Positions -/

variable [DecidableEq α]

/-- The place of an event in an order, counted from one. -/
def position (order : List α) (x : α) : Int := order.idxOf x + 1

theorem position_of_append {left right : List α} {x : α} (hx : x ∉ left) :
    position (left ++ x :: right) x = left.length + 1 := by
  simp [position, List.idxOf_append_of_notMem hx]

theorem position_bounds {order : List α} {x : α} (hx : x ∈ order) :
    0 < position order x ∧ position order x < order.length + 1 := by
  have hlt := List.idxOf_lt_length_iff.mpr hx
  unfold position
  omega

theorem position_injOn {order : List α} {x y : α} (hx : x ∈ order)
    (heq : position order x = position order y) : x = y := by
  have hidx : order.idxOf x = order.idxOf y := by
    unfold position at heq
    omega
  exact (List.idxOf_inj hx).mp hidx

theorem Before.position_lt {order : List α} {x y : α} (hnodup : order.Nodup)
    (h : Before order x y) : position order x < position order y := by
  obtain ⟨left, mid, right, rfl⟩ := before_iff_append.mp h
  have hxy := List.nodup_append.mp hnodup
  have hxLeft : x ∉ left := fun hmem => hxy.2.2 x hmem x (by simp) rfl
  have hy : y ∉ left ++ x :: mid := by
    have hnodup' : ((left ++ x :: mid) ++ y :: right).Nodup := by simpa using hnodup
    exact fun hmem => (List.nodup_append.mp hnodup').2.2 y hmem y (by simp) rfl
  rw [position_of_append hxLeft,
    show left ++ x :: (mid ++ y :: right) = (left ++ x :: mid) ++ y :: right by simp,
    position_of_append hy]
  simp only [List.length_append, List.length_cons]
  omega

theorem before_iff_position_lt {order : List α} {x y : α} (hnodup : order.Nodup)
    (hx : x ∈ order) (hy : y ∈ order) :
    Before order x y ↔ position order x < position order y := by
  refine ⟨Before.position_lt hnodup, fun hlt => ?_⟩
  have hne : x ≠ y := by
    rintro rfl
    exact lt_irrefl _ hlt
  refine (before_or_before hx hy hne).resolve_right fun h => ?_
  have hgt := h.position_lt hnodup
  omega

theorem position_next {left right : List α} {x y : α} (hnodup : (left ++ x :: y :: right).Nodup) :
    position (left ++ x :: y :: right) y = position (left ++ x :: y :: right) x + 1 := by
  have hx : x ∉ left := fun hmem => (List.nodup_append.mp hnodup).2.2 x hmem x (by simp) rfl
  have hy : y ∉ left ++ [x] := by
    rw [List.append_cons] at hnodup
    exact fun hmem => (List.nodup_append.mp hnodup).2.2 y hmem y (by simp) rfl
  rw [position_of_append hx, List.append_cons, position_of_append hy]
  simp

theorem position_succ {order : List α} {x y : α} (hnodup : order.Nodup) (h : Before order x y)
    (hnone : ∀ z, Before order x z → ¬Before order z y) :
    position order y = position order x + 1 := by
  obtain ⟨left, mid, right, rfl⟩ := before_iff_append.mp h
  cases mid with
  | nil => exact position_next hnodup
  | cons z mid =>
      refine absurd ?_ (hnone z (before_iff_append.mpr ⟨left, [], mid ++ y :: right, by simp⟩))
      exact before_iff_append.mpr ⟨left ++ [x], mid, right, by simp⟩

omit [DecidableEq α] in
/-- Different values between one and the length of a list leave no value out. -/
theorem exists_of_value {events : List α} {value : α → Int} (hinj : (events.map value).Nodup)
    (hrange : ∀ x ∈ events, 0 < value x ∧ value x < events.length + 1) {i : Nat} (hpos : 0 < i)
    (hle : i ≤ events.length) : ∃ x ∈ events, value x = i := by
  have hsub : (events.map value).toFinset ⊆ Finset.Icc (1 : Int) events.length := by
    intro v hv
    obtain ⟨x, hx, rfl⟩ := List.mem_map.mp (List.mem_toFinset.mp hv)
    have hbound := hrange x hx
    rw [Finset.mem_Icc]
    omega
  have hcard : (Finset.Icc (1 : Int) events.length).card ≤ (events.map value).toFinset.card := by
    rw [List.toFinset_card_of_nodup hinj, List.length_map, Int.card_Icc]
    omega
  have hmem : (i : Int) ∈ (events.map value).toFinset := by
    rw [Finset.eq_of_subset_of_card_le hsub hcard, Finset.mem_Icc]
    omega
  simpa using hmem

/-! ### Orders from time stamps -/

omit [DecidableEq α]

variable [DecidableEq κ]

/-- The order keeps the events of every class as they stand in the given list. -/
def Interleaving (cls : α → κ) (events order : List α) : Prop :=
  order.Perm events ∧
    ∀ k, order.filter (fun x => cls x = k) = events.filter fun x => cls x = k

def byTime (time : α → Int) (events : List α) : List α :=
  events.mergeSort fun x y => decide (time x ≤ time y)

theorem byTime_perm (time : α → Int) (events : List α) : (byTime time events).Perm events :=
  List.mergeSort_perm events _

theorem byTime_pairwise (time : α → Int) (events : List α) :
    (byTime time events).Pairwise fun x y => time x ≤ time y := by
  have hsorted := @List.pairwise_mergeSort α (fun x y => decide (time x ≤ time y))
    (fun a b c hab hbc => by simp only [decide_eq_true_eq] at *; omega)
    (fun a b => by simp only [Bool.or_eq_true, decide_eq_true_eq]; omega) events
  exact hsorted.imp fun h => by simpa using h

theorem before_byTime {time : α → Int} {events : List α} {x y : α} (hx : x ∈ events)
    (hy : y ∈ events) (hlt : time x < time y) : Before (byTime time events) x y := by
  have hne : x ≠ y := by
    rintro rfl
    exact lt_irrefl _ hlt
  have hperm := byTime_perm time events
  refine (before_or_before (hperm.mem_iff.mpr hx) (hperm.mem_iff.mpr hy) hne).resolve_right
    fun h => ?_
  have hle := h.rel (byTime_pairwise time events)
  omega

theorem before_byTime_iff {time : α → Int} {events : List α} {x y : α} (hnodup : events.Nodup)
    (hinj : ∀ {x y}, x ∈ events → y ∈ events → time x = time y → x = y) (hx : x ∈ events)
    (hy : y ∈ events) : Before (byTime time events) x y ↔ time x < time y := by
  refine ⟨fun h => ?_, before_byTime hx hy⟩
  have hne : time x ≠ time y := by
    intro heq
    have hxy := hinj hx hy heq
    subst hxy
    exact h.asymm ((byTime_perm time events).nodup_iff.mpr hnodup) h
  exact lt_of_le_of_ne (h.rel (byTime_pairwise time events)) hne

/-- Two orders of the same events agree when time stamps increase strictly along both. -/
theorem eq_of_pairwise_lt (time : α → Int) {left right : List α} (hperm : left.Perm right)
    (hleft : left.Pairwise fun x y => time x < time y)
    (hright : right.Pairwise fun x y => time x < time y) : left = right :=
  hperm.eq_of_pairwise (fun _ _ _ _ hlt hgt => absurd hlt hgt.not_gt) hleft hright

/-- Time stamps that increase strictly along every class order the events into an interleaving. -/
theorem interleaving_byTime {cls : α → κ} {time : α → Int} {events : List α}
    (hlt : ∀ {x y}, Before events x y → cls x = cls y → time x < time y) :
    Interleaving cls events (byTime time events) := by
  refine ⟨byTime_perm time events, fun k => ?_⟩
  have hevents : (events.filter fun x => cls x = k).Pairwise fun x y => time x < time y := by
    refine List.pairwise_iff_forall_sublist.mpr fun {x y} hsub => ?_
    have hx : x ∈ events.filter fun x => cls x = k := hsub.subset (by simp)
    have hy : y ∈ events.filter fun x => cls x = k := hsub.subset (by simp)
    simp only [List.mem_filter, decide_eq_true_eq] at hx hy
    exact hlt (Before.of_filter hsub) (hx.2.trans hy.2.symm)
  have hperm := (byTime_perm time events).filter fun x => cls x = k
  have hle := (byTime_pairwise time events).filter fun x => cls x = k
  have hne : ((byTime time events).filter fun x => cls x = k).Pairwise
      fun x y => time x ≠ time y :=
    (hperm.pairwise_iff fun h => h.symm).mpr (hevents.imp fun h => h.ne)
  have hlt' := (hle.and hne).imp fun {x y} h => show time x < time y from lt_of_le_of_ne h.1 h.2
  exact eq_of_pairwise_lt time hperm hlt' hevents

theorem Interleaving.before_iff {cls : α → κ} {events order : List α} {x y : α}
    (h : Interleaving cls events order) (hcls : cls x = cls y) :
    Before order x y ↔ Before events x y := by
  have hfilter := h.2 (cls y)
  constructor
  · intro hbefore
    refine Before.of_filter (p := fun z => decide (cls z = cls y)) ?_
    rw [← hfilter]
    exact hbefore.filter (by simp [hcls]) (by simp)
  · intro hbefore
    refine Before.of_filter (p := fun z => decide (cls z = cls y)) ?_
    rw [hfilter]
    exact hbefore.filter (by simp [hcls]) (by simp)

end Schedule
