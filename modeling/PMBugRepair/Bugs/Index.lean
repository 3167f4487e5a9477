import PMBugRepair.Strings.Basic
import PMBugRepair.Containers.Lists

/-!
# The index of a trace

`readBugs` and `readMPAs` look scopes up in a dictionary that gives every scope the number of its
first statement. A leading underscore is cut off unless the rest is taken already. `none` is an
`IndexError` for an empty scope.
-/

namespace PMBugRepair

open Strings (Text)

/-- `if key not in index.keys(): index[key] = id`, with the leading underscore cut off if that gives
a new key. -/
def enter (index : List (Text × Nat)) (scope : Text) (id : Nat) : Option (List (Text × Nat)) :=
  match scope with
  | [] => none
  | c :: rest =>
      if c = '_' ∧ index.lookup rest = none then some (index ++ [(rest, id)])
      else if index.lookup (c :: rest) = none then some (index ++ [(c :: rest, id)])
      else some index

/-- The loop over the trace, given the scopes and numbers of its statements. -/
def scopeIndex (entries : List (Text × Nat)) : Option (List (Text × Nat)) :=
  entries.foldlM (fun index entry => enter index entry.1 entry.2) []

theorem exists_enter {index : List (Text × Nat)} {scope : Text} (h : scope ≠ []) (id : Nat) :
    ∃ index', enter index scope id = some index' := by
  cases scope with
  | nil => exact absurd rfl h
  | cons c rest =>
      simp only [enter]
      split_ifs
      · exact ⟨_, rfl⟩
      · exact ⟨_, rfl⟩
      · exact ⟨_, rfl⟩

theorem exists_scopeIndex {entries : List (Text × Nat)} (h : ∀ entry ∈ entries, entry.1 ≠ []) :
    ∃ index, scopeIndex entries = some index := by
  have hfold : ∀ start, ∃ index, entries.foldlM (fun index entry => enter index entry.1 entry.2)
      start = some index := by
    induction entries with
    | nil => exact fun start => ⟨start, rfl⟩
    | cons entry entries ih =>
        obtain ⟨hentry, hentries⟩ := List.forall_mem_cons.mp h
        intro start
        obtain ⟨next, hnext⟩ := @exists_enter start entry.1 hentry entry.2
        obtain ⟨index, hindex⟩ := ih hentries next
        exact ⟨index, by simp [List.foldlM_cons, hnext, hindex]⟩
  exact hfold []

/-! ### Who enters a key -/

/-- The key is there when the statements with these scopes, the latest one in front, have been
read. -/
def Taken : List Text → Text → Prop
  | [], _ => False
  | scope :: earlier, key => Taken earlier key ∨ scope = '_' :: key ∨
      (scope = key ∧ ∀ rest, key = '_' :: rest → Taken earlier rest)

/-- The scope enters the key if the scopes in the list, the latest one in front, did not. -/
def Claims (earlier : List Text) (scope key : Text) : Prop :=
  scope = '_' :: key ∨ (scope = key ∧ ∀ rest, key = '_' :: rest → Taken earlier rest)

theorem taken_cons {scope key : Text} {earlier : List Text} :
    Taken (scope :: earlier) key ↔ Taken earlier key ∨ Claims earlier scope key := Iff.rfl

theorem Taken.exists_mem {scopes : List Text} {key : Text} (h : Taken scopes key) :
    ∃ scope ∈ scopes, scope = '_' :: key ∨ scope = key := by
  induction scopes with
  | nil => exact h.elim
  | cons scope earlier ih =>
      rcases h with h | h | h
      · obtain ⟨found, hmem, heq⟩ := ih h
        exact ⟨found, List.mem_cons_of_mem _ hmem, heq⟩
      · exact ⟨scope, List.mem_cons_self, .inl h⟩
      · exact ⟨scope, List.mem_cons_self, .inr h.1⟩

section Entries

variable {entries : List (Text × Nat)} {index index' : List (Text × Nat)} {scope key : Text}
  {id found : Nat}

/-- The scopes of the entries, the latest one in front. -/
def latest (entries : List (Text × Nat)) : List Text := (entries.map Prod.fst).reverse

theorem latest_concat (entries : List (Text × Nat)) (entry : Text × Nat) :
    latest (entries ++ [entry]) = entry.1 :: latest entries := by
  simp [latest]

/-- The number of the statement that enters the key. -/
def Enters (entries : List (Text × Nat)) (key : Text) (id : Nat) : Prop :=
  ∃ pre scope post, entries = pre ++ (scope, id) :: post ∧ ¬Taken (latest pre) key ∧
    Claims (latest pre) scope key

theorem enters_concat {entry : Text × Nat} :
    Enters (entries ++ [entry]) key id ↔ Enters entries key id ∨
      (entry.2 = id ∧ ¬Taken (latest entries) key ∧ Claims (latest entries) entry.1 key) := by
  constructor
  · rintro ⟨pre, scope, post, heq, hfree, hclaims⟩
    rcases Lists.concat_eq_append_cons.mp heq with ⟨-, rfl, rfl⟩ | ⟨post, -, rfl⟩
    · exact .inr ⟨rfl, hfree, hclaims⟩
    · exact .inl ⟨pre, scope, post, rfl, hfree, hclaims⟩
  · rintro (⟨pre, scope, post, rfl, hfree, hclaims⟩ | ⟨rfl, hfree, hclaims⟩)
    · exact ⟨pre, scope, post ++ [entry], by simp, hfree, hclaims⟩
    · exact ⟨entries, entry.1, [], rfl, hfree, hclaims⟩

theorem lookup_concat (index : List (Text × Nat)) (new key : Text) (id : Nat) :
    (index ++ [(new, id)]).lookup key =
      (index.lookup key).or (if key = new then some id else none) := by
  rw [List.lookup_append]
  congr 1
  by_cases heq : key = new
  · simp [heq]
  · simp [List.lookup_cons, beq_eq_false_iff_ne.mpr heq, heq]

theorem enter_lookup_of_none (h : enter index scope id = some index')
    (hfree : index.lookup key = none) :
    (index'.lookup key = some id ∧ (scope = '_' :: key ∨
        (scope = key ∧ ∀ rest, key = '_' :: rest → index.lookup rest ≠ none))) ∨
      (index'.lookup key = none ∧ ¬(scope = '_' :: key ∨
        (scope = key ∧ ∀ rest, key = '_' :: rest → index.lookup rest ≠ none))) := by
  cases scope with
  | nil => cases h
  | cons c rest =>
      simp only [enter] at h
      split_ifs at h with hcut hnew
      · -- the scope without its underscore
        rw [← Option.some.inj h, lookup_concat, hfree]
        by_cases heq : key = rest
        · exact .inl ⟨by simp [heq], .inl (by rw [hcut.1, heq])⟩
        · refine .inr ⟨by simp [heq], ?_⟩
          rintro (hscope | ⟨hscope, hstays⟩)
          · exact heq (List.cons.inj hscope).2.symm
          · exact hstays rest (by rw [← hscope, hcut.1]) hcut.2
      · rw [← Option.some.inj h, lookup_concat, hfree]
        by_cases heq : key = c :: rest
        · refine .inl ⟨by simp [heq], .inr ⟨heq.symm, fun rest' hkey hnone => ?_⟩⟩
          obtain ⟨hc, hrest⟩ := List.cons.inj (heq.symm.trans hkey)
          exact hcut ⟨hc, hrest ▸ hnone⟩
        · refine .inr ⟨by simp [heq], ?_⟩
          rintro (hscope | ⟨hscope, -⟩)
          · obtain ⟨hc, hrest⟩ := List.cons.inj hscope
            exact hcut ⟨hc, hrest ▸ hfree⟩
          · exact heq hscope.symm
      · rw [← Option.some.inj h]
        refine .inr ⟨hfree, ?_⟩
        rintro (hscope | ⟨hscope, -⟩)
        · obtain ⟨hc, hrest⟩ := List.cons.inj hscope
          exact hcut ⟨hc, hrest ▸ hfree⟩
        · exact hnew (hscope ▸ hfree)

theorem enter_lookup_of_some (h : enter index scope id = some index')
    (hfound : index.lookup key = some found) : index'.lookup key = some found := by
  cases scope with
  | nil => cases h
  | cons c rest =>
      simp only [enter] at h
      split_ifs at h
      · rw [← Option.some.inj h, lookup_concat, hfound, Option.some_or]
      · rw [← Option.some.inj h, lookup_concat, hfound, Option.some_or]
      · rw [← Option.some.inj h, hfound]

theorem scopeIndex_lookup (h : scopeIndex entries = some index) :
    (index.lookup key = none ↔ ¬Taken (latest entries) key) ∧
      (index.lookup key = some id ↔ Enters entries key id) := by
  induction entries using List.reverseRecOn generalizing index key id with
  | nil =>
      obtain rfl : index = [] := by simpa [scopeIndex] using h.symm
      simp [latest, Taken, Enters]
  | append_singleton entries entry ih =>
      rw [scopeIndex, List.foldlM_append] at h
      obtain ⟨start, hstart, h⟩ := Option.bind_eq_some_iff.mp h
      have henter : enter start entry.1 entry.2 = some index := by simpa using h
      have hfree : ∀ key, start.lookup key = none ↔ ¬Taken (latest entries) key :=
        fun key => (@ih start key 0 hstart).1
      have hclaims : (entry.1 = '_' :: key ∨ (entry.1 = key ∧
          ∀ rest, key = '_' :: rest → start.lookup rest ≠ none)) ↔
            Claims (latest entries) entry.1 key := by
        simp only [Claims, ne_eq, hfree, not_not]
      rw [latest_concat, taken_cons, enters_concat, not_or, ← hfree, ← (ih hstart).2]
      cases hlookup : start.lookup key with
      | none =>
          rcases enter_lookup_of_none henter hlookup with ⟨hnew, hclaim⟩ | ⟨hnew, hclaim⟩
          all_goals rw [hclaims] at hclaim
          · simp [hnew, hclaim]
          · simp [hnew, hclaim]
      | some found => simp [enter_lookup_of_some henter hlookup]

end Entries

end PMBugRepair
