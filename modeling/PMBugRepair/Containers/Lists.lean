import Mathlib.Data.List.Forall2
import Mathlib.Data.List.Induction
import Mathlib.Data.List.Basic

/-!
# Lists

Running a fallible function over a list, and the ways to split a list at an element.
-/

namespace Lists

variable {α β : Type} {f : α → Option β} {items : List α} {out : List β}

theorem forall₂_of_mapM (h : items.mapM f = some out) :
    List.Forall₂ (fun x y => f x = some y) items out := by
  induction items generalizing out with
  | nil =>
      obtain rfl : out = [] := by simpa using h.symm
      exact .nil
  | cons x items ih =>
      rw [List.mapM_cons] at h
      simp only [Option.bind_eq_bind, Option.bind_eq_some_iff, Option.pure_def,
        Option.some.injEq] at h
      obtain ⟨y, hy, tail, htail, rfl⟩ := h
      exact .cons hy (ih htail)

theorem mapM_of_forall₂ (h : List.Forall₂ (fun x y => f x = some y) items out) :
    items.mapM f = some out := by
  induction h with
  | nil => rfl
  | cons hx _ ih => simp [List.mapM_cons, hx, ih]

theorem exists_of_mem_mapM (h : items.mapM f = some out) {y : β} (hy : y ∈ out) :
    ∃ x ∈ items, f x = some y := by
  have hpair := forall₂_of_mapM h
  clear h
  induction hpair with
  | nil => cases hy
  | cons hx _ ih =>
      rcases List.mem_cons.mp hy with rfl | hy
      · exact ⟨_, List.mem_cons_self, hx⟩
      · obtain ⟨x, hmem, hfx⟩ := ih hy
        exact ⟨x, List.mem_cons_of_mem _ hmem, hfx⟩

theorem mem_of_mem_mapM (h : items.mapM f = some out) {x : α} {y : β} (hx : x ∈ items)
    (hy : f x = some y) : y ∈ out := by
  have hpair := forall₂_of_mapM h
  clear h
  induction hpair with
  | nil => cases hx
  | cons hfirst _ ih =>
      rcases List.mem_cons.mp hx with rfl | hx
      · rw [hfirst, Option.some_inj] at hy
        exact hy ▸ List.mem_cons_self
      · exact List.mem_cons_of_mem _ (ih hx)

theorem exists_mapM (h : ∀ x ∈ items, ∃ y, f x = some y) : ∃ out, items.mapM f = some out := by
  induction items with
  | nil => exact ⟨[], rfl⟩
  | cons x items ih =>
      obtain ⟨y, hy⟩ := h x List.mem_cons_self
      obtain ⟨out, hout⟩ := ih fun x hx => h x (List.mem_cons_of_mem _ hx)
      exact ⟨y :: out, by simp [List.mapM_cons, hy, hout]⟩

theorem forall₂_iff_forall_mem {R P : α → β → Prop} {Q : α → Prop}
    (h : List.Forall₂ R items out) (hiff : ∀ x y, R x y → (P x y ↔ Q x)) :
    List.Forall₂ P items out ↔ ∀ x ∈ items, Q x := by
  induction h with
  | nil => simp
  | cons hR _ ih => rw [List.forall₂_cons, List.forall_mem_cons, ih, hiff _ _ hR]

/-- An element of a list with one more entry is the new entry or one of the list. -/
theorem concat_eq_append_cons {left right : List α} {x last : α} :
    items ++ [last] = left ++ x :: right ↔
      (right = [] ∧ items = left ∧ last = x) ∨
        ∃ right', right = right' ++ [last] ∧ items = left ++ x :: right' := by
  constructor
  · intro heq
    rcases List.eq_nil_or_concat' right with rfl | ⟨right', last', rfl⟩
    · obtain ⟨hitems, hlast⟩ := List.append_inj' heq rfl
      exact .inl ⟨rfl, hitems, by simpa using hlast⟩
    · obtain ⟨hitems, hlast⟩ : items = left ++ x :: right' ∧ [last] = [last'] :=
        List.append_inj' (by simpa using heq) rfl
      exact .inr ⟨right', by rw [hlast], hitems⟩
  · rintro (⟨rfl, rfl, rfl⟩ | ⟨right', rfl, rfl⟩)
    · rfl
    · simp

/-- Elements of a kind at the front lie in front of what does not begin with one of the kind. -/
theorem mem_of_append_eq {left rest front after : List α} {x : α} {P : α → Prop}
    (h : left ++ rest = front ++ x :: after) (hfront : ∀ y ∈ front, P y) (hx : P x)
    (hrest : ∀ y ∈ rest.head?, ¬P y) : x ∈ left := by
  rcases List.append_eq_append_iff.mp h with ⟨tail, rfl, rfl⟩ | ⟨tail, rfl, htail⟩
  · cases tail with
    | nil => exact absurd hx (hrest x (by simp))
    | cons y tail => exact absurd (hfront y (by simp)) (hrest y (by simp))
  · cases tail with
    | nil =>
        obtain rfl : x :: after = rest := htail
        exact absurd hx (hrest x (by simp))
    | cons y tail =>
        obtain ⟨rfl, -⟩ := List.cons.inj htail
        simp

/-- A place in the repetitions of a block lies in one of them. -/
theorem flatten_replicate_split {block front back : List α} {y : α} {k : Nat}
    (h : (List.replicate k block).flatten = front ++ y :: back) :
    ∃ i j left right, block = left ++ y :: right ∧
      front = (List.replicate i block).flatten ++ left ∧
      back = right ++ (List.replicate j block).flatten := by
  induction k generalizing front with
  | zero => simp at h
  | succ k ih =>
      rw [List.replicate_succ, List.flatten_cons] at h
      rcases List.append_eq_append_iff.mp h with ⟨front', rfl, hfront⟩ | ⟨tail, hblock, hrest⟩
      · obtain ⟨i, j, left, right, hblock, rfl, rfl⟩ := ih hfront
        exact ⟨i + 1, j, left, right, hblock, by simp [List.replicate_succ], rfl⟩
      · cases tail with
        | nil =>
            have hnext : (List.replicate k block).flatten = [] ++ y :: back := hrest.symm
            obtain ⟨i, j, left, right, hsplit, hnil, hback⟩ := ih hnext
            obtain ⟨-, rfl⟩ := List.nil_eq_append_iff.mp hnil
            exact ⟨1, j, [], right, hsplit, by simpa using hblock.symm, hback⟩
        | cons z tail =>
            obtain ⟨rfl, rfl⟩ := List.cons.inj hrest
            exact ⟨0, k, front, tail, hblock, rfl, rfl⟩

/-- What a loop over neighbours leaves. -/
theorem eq_nil_or_singleton (h : ∀ x y rest, items = x :: y :: rest → False) :
    items = [] ∨ ∃ x, items = [x] := by
  cases items with
  | nil => exact .inl rfl
  | cons x rest =>
      cases rest with
      | nil => exact .inr ⟨x, rfl⟩
      | cons y rest => exact absurd rfl (h x y rest)

theorem eq_singleton_of_mem {x : α} (hlength : items.length ≤ 1) (hx : x ∈ items) :
    items = [x] := by
  have hpos := List.length_pos_of_mem hx
  obtain ⟨y, rfl⟩ := List.length_eq_one_iff.mp (Nat.le_antisymm hlength hpos)
  rw [List.mem_singleton.mp hx]

/-- A segment without an element lies on one side of it. -/
theorem infix_left_or_right {segment left right : List α} {x : α}
    (h : segment <:+: left ++ x :: right) (hx : x ∉ segment) :
    segment <:+: left ∨ segment <:+: right := by
  obtain ⟨pre, post, hsplit⟩ := h
  rcases List.append_eq_append_iff.mp hsplit with ⟨rest, rfl, -⟩ | ⟨rest, hleft, hright⟩
  · exact .inl ⟨pre, rest, rfl⟩
  cases rest with
  | nil => exact .inl ⟨pre, [], by simpa using hleft⟩
  | cons y rest =>
      obtain ⟨rfl, rfl⟩ := List.cons.inj hright
      rcases List.append_eq_append_iff.mp hleft with ⟨front, -, rfl⟩ | ⟨front, -, hcut⟩
      · exact absurd (by simp) hx
      · cases front with
        | nil => exact absurd (by rw [← List.nil_append segment, ← hcut]; simp) hx
        | cons z front =>
            obtain ⟨-, rfl⟩ := List.cons.inj hcut
            exact .inr ⟨front, post, by simp⟩

theorem infix_append_cons_iff {segment left right : List α} {x : α} (hx : x ∉ segment) :
    segment <:+: left ++ x :: right ↔ segment <:+: left ∨ segment <:+: right := by
  constructor
  · exact fun h => infix_left_or_right h hx
  · rintro (h | h)
    · exact h.trans (List.prefix_append left _).isInfix
    · exact h.trans ((List.suffix_cons x right).trans (List.suffix_append left _)).isInfix

/-- An element that occurs once is found at its place. -/
theorem suffix_of_infix_cons {left right before after : List α} {x : α} (hbefore : x ∉ before)
    (hafter : x ∉ after) (h : left ++ x :: right <:+: before ++ x :: after) : left <:+ before := by
  obtain ⟨pre, post, hsplit⟩ := h
  have heq : before ++ x :: after = (pre ++ left) ++ x :: (right ++ post) := by
    rw [← hsplit]
    simp
  exact ⟨pre, ((List.append_cons_inj_of_notMem hbefore hafter).mp heq).1.symm⟩

theorem prefix_of_infix_cons {left right before after : List α} {x : α} (hbefore : x ∉ before)
    (hafter : x ∉ after) (h : left ++ x :: right <:+: before ++ x :: after) : right <+: after := by
  obtain ⟨pre, post, hsplit⟩ := h
  have heq : before ++ x :: after = (pre ++ left) ++ x :: (right ++ post) := by
    rw [← hsplit]
    simp
  obtain ⟨-, -, hright⟩ := (List.append_cons_inj_of_notMem hbefore hafter).mp heq
  exact ⟨post, hright.symm⟩

theorem lookup_of_mem [BEq α] [LawfulBEq α] {entries : List (α × β)} {key : α} {value : β}
    (hmem : (key, value) ∈ entries)
    (hsame : ∀ entry ∈ entries, entry.1 = key → entry.2 = value) :
    entries.lookup key = some value := by
  cases hlookup : entries.lookup key with
  | none =>
      have hne := List.lookup_eq_none_iff.mp hlookup _ hmem
      simp at hne
  | some value' =>
      obtain ⟨left, right, rfl, -⟩ := List.lookup_eq_some_iff.mp hlookup
      rw [← hsame (key, value') (by simp) rfl]

/-- A loop that may fail: if every step keeps the invariant or fails on a bad item, the whole loop
does, and it fails only on a bad one. -/
theorem foldlM_cases {σ : Type} {step : σ → α → Option σ} {Inv : List α → σ → Prop}
    {Bad : List α → α → Prop} {items : List α} {start : σ} (hstart : Inv [] start)
    (hstep : ∀ before x after state, items = before ++ x :: after → Inv before state →
      (step state x = none ∧ Bad before x) ∨
        ∃ next, step state x = some next ∧ ¬Bad before x ∧ Inv (before ++ [x]) next) :
    (items.foldlM step start = none ∧
        ∃ before x after, items = before ++ x :: after ∧ Bad before x) ∨
      ∃ state, items.foldlM step start = some state ∧
        (∀ before x after, items = before ++ x :: after → ¬Bad before x) ∧ Inv items state := by
  induction items using List.reverseRecOn with
  | nil => exact .inr ⟨start, rfl, by simp, hstart⟩
  | append_singleton front last ih =>
      have hfront := ih fun before x after state heq =>
        hstep before x (after ++ [last]) state (by simp [heq])
      rw [List.foldlM_append]
      rcases hfront with ⟨hnone, before, x, after, rfl, hbad⟩ | ⟨state, hsome, hgood, hinv⟩
      · exact .inl ⟨by rw [hnone]; rfl, before, x, after ++ [last], by simp, hbad⟩
      · simp only [hsome, Option.bind_eq_bind, Option.bind_some, List.foldlM_cons, List.foldlM_nil,
          Option.pure_def, Option.bind_fun_some]
        rcases hstep front last [] state rfl hinv with ⟨hnone, hbad⟩ | ⟨next, hnext, hlast, hinv'⟩
        · exact .inl ⟨hnone, front, last, [], rfl, hbad⟩
        · refine .inr ⟨next, hnext, fun before x after heq => ?_, hinv'⟩
          rcases List.eq_nil_or_concat after with rfl | ⟨after', y, rfl⟩
          · obtain ⟨rfl, hx⟩ := List.append_inj' heq rfl
            exact List.singleton_inj.mp hx ▸ hlast
          · refine hgood before x after' ?_
            rw [List.concat_eq_append, ← List.cons_append, ← List.append_assoc] at heq
            exact (List.append_inj' heq rfl).1

theorem split_of_getLast?_filter {p : α → Bool} {x : α}
    (h : (items.filter p).getLast? = some x) :
    ∃ left right, items = left ++ x :: right ∧ p x = true ∧ right.filter p = [] := by
  obtain ⟨front, hfront⟩ := List.getLast?_eq_some_iff.mp h
  obtain ⟨left, rest, rfl, -, hrest⟩ := List.filter_eq_append_iff.mp hfront
  obtain ⟨skipped, right, rfl, hskipped, hx, hright⟩ := List.filter_eq_cons_iff.mp hrest
  exact ⟨left ++ skipped, right, by simp, hx, hright⟩

theorem split_of_head?_filter {p : α → Bool} {x : α} (h : (items.filter p).head? = some x) :
    ∃ left right, items = left ++ x :: right ∧ p x = true ∧ left.filter p = [] := by
  obtain ⟨back, hback⟩ := List.head?_eq_some_iff.mp h
  obtain ⟨left, right, rfl, hleft, hx, -⟩ := List.filter_eq_cons_iff.mp hback
  exact ⟨left, right, rfl, hx, List.filter_eq_nil_iff.mpr hleft⟩

theorem exists_last {α : Type} {p : α → Prop} {l : List α} (h : ∃ x ∈ l, p x) :
    ∃ before x after, l = before ++ x :: after ∧ p x ∧ ∀ y ∈ after, ¬p y := by
  induction l with
  | nil =>
      obtain ⟨x, hx, -⟩ := h
      cases hx
  | cons first rest ih =>
      by_cases hrest : ∃ x ∈ rest, p x
      · obtain ⟨before, x, after, rfl, hx, hafter⟩ := ih hrest
        exact ⟨first :: before, x, after, rfl, hx, hafter⟩
      · obtain ⟨x, hx, hpx⟩ := h
        have hfirst : x = first :=
          (List.mem_cons.mp hx).resolve_right fun hmem => hrest ⟨x, hmem, hpx⟩
        exact ⟨[], first, rest, rfl, hfirst ▸ hpx, fun y hy hpy => hrest ⟨y, hy, hpy⟩⟩

/-- Two elements one behind the other in the image of a list. -/
theorem pair_sublist_map_iff {α β : Type} {f : α → β} {list : List α} {x y : β} :
    [x, y].Sublist (list.map f) ↔ ∃ a b, [a, b].Sublist list ∧ f a = x ∧ f b = y := by
  constructor
  · intro h
    obtain ⟨front, hsub, heq⟩ := List.sublist_map_iff.mp h
    obtain ⟨a, rest, rfl, hx, hrest⟩ := List.map_eq_cons_iff.mp heq.symm
    obtain ⟨b, tail, rfl, hy, hnil⟩ := List.map_eq_cons_iff.mp hrest
    obtain rfl := List.map_eq_nil_iff.mp hnil
    exact ⟨a, b, hsub, hx, hy⟩
  · rintro ⟨a, b, hsub, rfl, rfl⟩
    exact hsub.map f

/-- A part that starts with an element that is not dropped is left whole. -/
theorem sublist_dropWhile {p : α → Bool} {x : α} {rest list : List α}
    (h : (x :: rest).Sublist list) (hx : p x = false) :
    (x :: rest).Sublist (list.dropWhile p) := by
  induction list with
  | nil => cases h
  | cons y list ih =>
      cases hy : p y with
      | false => rwa [List.dropWhile_cons_of_neg (by simp [hy])]
      | true =>
          rw [List.dropWhile_cons_of_pos hy]
          cases h with
          | cons _ h => exact ih h
          | cons_cons _ h =>
              rw [hx] at hy
              cases hy

/-! ### Counting -/

section HowMany

variable {P Q : α → Prop} {list : List α}

open Classical in
/-- The number of elements with a property that need not be decidable. -/
noncomputable def howMany (P : α → Prop) (list : List α) : Nat := list.countP fun x => decide (P x)

theorem countP_eq_howMany {p : α → Bool} (h : ∀ x ∈ list, p x = true ↔ P x) :
    list.countP p = howMany P list :=
  List.countP_congr fun x hx => by simpa using h x hx

theorem length_eq_howMany {items : List α} (hitems : items.Nodup) (hlist : list.Nodup)
    (h : ∀ x, x ∈ items ↔ x ∈ list ∧ P x) : items.length = howMany P list := by
  classical
  rw [howMany, List.countP_eq_length_filter]
  refine ((List.perm_ext_iff_of_nodup hitems (hlist.filter _)).mpr fun x => ?_).length_eq
  rw [h, List.mem_filter, decide_eq_true_eq]

theorem howMany_congr (h : ∀ x ∈ list, P x ↔ Q x) : howMany P list = howMany Q list :=
  countP_eq_howMany fun x hx => by simpa using h x hx

theorem howMany_eq_zero_iff : howMany P list = 0 ↔ ∀ x ∈ list, ¬P x := by
  simp [howMany]

open Classical in
theorem howMany_cons (P : α → Prop) (x : α) (list : List α) :
    howMany P (x :: list) = howMany P list + if P x then 1 else 0 := by
  simp [howMany, List.countP_cons]

theorem howMany_split (P Q : α → Prop) (list : List α) :
    howMany P list =
      howMany (fun x => P x ∧ Q x) list + howMany (fun x => P x ∧ ¬Q x) list := by
  induction list with
  | nil => rfl
  | cons x list ih =>
      rw [howMany_cons, howMany_cons, howMany_cons, ih]
      by_cases hP : P x
      · by_cases hQ : Q x
        · simp [hP, hQ]
          omega
        · simp [hP, hQ]
          omega
      · simp [hP]

/-- Of two properties, one of which implies the other, as many elements have the one as the other
only if the same elements have them. -/
theorem howMany_eq_iff_of_imp (h : ∀ x ∈ list, Q x → P x) :
    howMany P list = howMany Q list ↔ ∀ x ∈ list, P x → Q x := by
  have hboth : howMany (fun x => P x ∧ Q x) list = howMany Q list :=
    howMany_congr fun x hx => ⟨And.right, fun hq => ⟨h x hx hq, hq⟩⟩
  rw [howMany_split P Q, hboth, Nat.add_eq_left, howMany_eq_zero_iff]
  exact forall₂_congr fun x _ => by rw [not_and, not_not]

theorem howMany_zipIdx (P : α → Prop) (list : List α) (k : Nat) :
    howMany (fun entry : α × Nat => P entry.1) (list.zipIdx k) = howMany P list := by
  induction list generalizing k with
  | nil => rfl
  | cons x list ih =>
      rw [List.zipIdx_cons, howMany_cons, howMany_cons, ih]

end HowMany

end Lists
