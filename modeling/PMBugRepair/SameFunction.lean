import PMBugRepair.Step1.Dura
import PMBugRepair.Step4.Append
import PMBugRepair.Strings.Basic

/-!
# The same function

A statement of line `n` of the function `f` has the scope `f_n`, and one inserted for it `f_n_x`. To
see whether two statements are in the same function, `repairDURA` compares their scopes up to the
first underscore and `appendTraceWithLocks` up to the last one.
-/

namespace PMBugRepair

open Strings (Text)

/-- `f_n`, or `f_n_x`. -/
def scopeText (f : Text) (n : Nat) (inserted : Bool) : Text :=
  f ++ '_' :: digits n ++ if inserted then ['_', 'x'] else []

/-- `repairDURA` reuses a flush of the second scope for a store of the first one, if nothing else is
against it, and `appendTraceWithLocks` does not see a new scope, if and only if the functions are
equal. -/
structure AgreeOnFunctions (f : Text) (n : Nat) (inserted : Bool) (g : Text) (m : Nat)
    (inserted' : Bool) : Prop where
  reuse : ∀ claimed store flush, store.scope.toList = scopeText f n inserted →
    flush.scope.toList = scopeText g m inserted' → flush.op = .flush → store.addr = flush.addr →
    flush.id ∉ claimed → (reusable claimed store flush = true ↔ f = g)
  locks : ∀ other found x, found.scope.toList = scopeText f n inserted →
    x.scope.toList = scopeText g m inserted' → x.tid = found.tid → x.id ≠ other → x.op ≠ .lock →
    (closing other found x ≠ some .newFence ↔ f = g)

/-- The text before the last underscore. -/
def stemText (f : Text) (n : Nat) (inserted : Bool) : Text :=
  if inserted then f ++ '_' :: digits n else f

/-- Different functions differ before the first underscore. Two inserted statements are on the same
line; an inserted statement and an original one are in different functions, and the name of the one
is not the scope of the other. -/
def Told (f : Text) (n : Nat) (inserted : Bool) (g : Text) (m : Nat) (inserted' : Bool) : Prop :=
  (f.takeWhile (· ≠ '_') = g.takeWhile (· ≠ '_') → f = g) ∧
    match inserted, inserted' with
    | false, false => True
    | true, true => f = g → n = m
    | false, true => f ≠ g ∧ f ≠ g ++ '_' :: digits m
    | true, false => f ≠ g ∧ g ≠ f ++ '_' :: digits n

section Scopes

variable {f g : Text} {n m : Nat} {inserted inserted' : Bool}

theorem exists_scopeText (f : Text) (n : Nat) (inserted : Bool) :
    ∃ rest, scopeText f n inserted = f ++ '_' :: rest :=
  ⟨digits n ++ if inserted then ['_', 'x'] else [], by simp [scopeText]⟩

/-- What is compared in `repairDURA`. -/
theorem head?_splitOn_scopeText :
    ((scopeText f n inserted).splitOn '_').head? = some (f.takeWhile (· ≠ '_')) := by
  obtain ⟨rest, hrest⟩ := exists_scopeText f n inserted
  rw [List.head?_eq_getElem?, Strings.getElem?_zero_splitOn, hrest, Strings.takeWhile_append_cons]

/-- What is compared in `appendTraceWithLocks`. -/
theorem dropLast_splitOn_scopeText :
    ((scopeText f n inserted).splitOn '_').dropLast = (stemText f n inserted).splitOn '_' := by
  cases inserted with
  | false =>
      have heq : scopeText f n false = f ++ '_' :: digits n := by simp [scopeText]
      rw [heq, Strings.dropLast_splitOn f (underscore_notMem_digits n)]
      rfl
  | true =>
      have heq : scopeText f n true = (f ++ '_' :: digits n) ++ '_' :: ['x'] := rfl
      rw [heq, Strings.dropLast_splitOn _ (by decide)]
      rfl

theorem reusable_scopeText_iff {claimed : List Id} {store flush : Stmt}
    (hstore : store.scope.toList = scopeText f n inserted)
    (hflush : flush.scope.toList = scopeText g m inserted') (hop : flush.op = .flush)
    (haddr : store.addr = flush.addr) (hid : flush.id ∉ claimed) :
    reusable claimed store flush = true ↔
      f.takeWhile (· ≠ '_') = g.takeWhile (· ≠ '_') := by
  have hmem : '_' ∈ flush.scope.toList := by
    obtain ⟨rest, hrest⟩ := exists_scopeText g m inserted'
    rw [hflush, hrest]
    simp
  simp only [reusable, scopeParts, hstore, hflush, head?_splitOn_scopeText]
  rw [← hflush]
  simp [hop, haddr, hid, hmem]

theorem closing_scopeText_iff {other : Id} {found x : Stmt}
    (hfound : found.scope.toList = scopeText f n inserted)
    (hx : x.scope.toList = scopeText g m inserted') (htid : x.tid = found.tid)
    (hid : x.id ≠ other) (hop : x.op ≠ .lock) :
    closing other found x ≠ some .newFence ↔ stemText f n inserted = stemText g m inserted' := by
  simp only [closing, scopeParts, hfound, hx, dropLast_splitOn_scopeText, ne_eq,
    Strings.splitOn_inj]
  by_cases hstem : stemText f n inserted = stemText g m inserted'
  · by_cases hfence : x.op = .fence <;> simp [htid, hid, hop, hstem, hfence]
  · simp [htid, hid, hop, hstem]

theorem append_digits_inj :
    f ++ '_' :: digits n = g ++ '_' :: digits m ↔ f = g ∧ n = m := by
  constructor
  · intro heq
    obtain ⟨hf, hn⟩ := split_last_underscore (underscore_notMem_digits n)
      (underscore_notMem_digits m) heq
    exact ⟨hf, digits_injective hn⟩
  · rintro ⟨rfl, rfl⟩
    rfl

theorem ne_append_digits (f : Text) (n : Nat) : f ≠ f ++ '_' :: digits n := by
  intro heq
  have hlength := congrArg List.length heq
  simp at hlength

/-- When the text before the last underscore tells the functions apart. -/
theorem stemText_eq_iff_eq_iff :
    (stemText f n inserted = stemText g m inserted' ↔ f = g) ↔
      match inserted, inserted' with
      | false, false => True
      | true, true => f = g → n = m
      | false, true => f ≠ g ∧ f ≠ g ++ '_' :: digits m
      | true, false => f ≠ g ∧ g ≠ f ++ '_' :: digits n := by
  match inserted, inserted' with
  | false, false => simp [stemText]
  | true, true => simp [stemText, append_digits_inj]
  | false, true =>
      by_cases heq : f = g
      · subst heq
        simp [stemText, ne_append_digits f m]
      · simp [stemText, heq]
  | true, false =>
      by_cases heq : f = g
      · subst heq
        simp [stemText, (ne_append_digits f n).symm]
      · simp [stemText, heq, eq_comm]

end Scopes

/-- A statement with a given scope. -/
def probe (op : Opcode) (scope : Text) : Stmt :=
  { id := .line 0, op := op, addr := "", dep := "-1", tid := 0, scope := String.ofList scope }

/-- Both tests mean the same function exactly where the texts they compare tell functions apart. -/
theorem agreeOnFunctions_iff (f : Text) (n : Nat) (inserted : Bool) (g : Text) (m : Nat)
    (inserted' : Bool) :
    AgreeOnFunctions f n inserted g m inserted' ↔ Told f n inserted g m inserted' := by
  have hprobe : ∀ op scope, (probe op scope).scope.toList = scope :=
    fun op scope => String.toList_ofList
  have htold : Told f n inserted g m inserted' ↔
      (f.takeWhile (· ≠ '_') = g.takeWhile (· ≠ '_') → f = g) ∧
        (stemText f n inserted = stemText g m inserted' ↔ f = g) :=
    and_congr_right fun _ => stemText_eq_iff_eq_iff.symm
  rw [htold]
  constructor
  · intro h
    constructor
    · have hstore := hprobe .store (scopeText f n inserted)
      have hflush := hprobe .flush (scopeText g m inserted')
      have hreuse := h.reuse [] _ _ hstore hflush rfl rfl List.not_mem_nil
      rw [reusable_scopeText_iff hstore hflush rfl rfl List.not_mem_nil] at hreuse
      exact hreuse.mp
    · have hfound := hprobe .store (scopeText f n inserted)
      have hx := hprobe .store (scopeText g m inserted')
      have hid : (probe .store (scopeText g m inserted')).id ≠ .line 1 := by simp [probe]
      have hop : (probe .store (scopeText g m inserted')).op ≠ .lock := by simp [probe]
      have hlocks := h.locks _ _ _ hfound hx rfl hid hop
      rwa [closing_scopeText_iff hfound hx rfl hid hop] at hlocks
  · rintro ⟨hfirst, hlast⟩
    constructor
    · intro claimed store flush hstore hflush hop haddr hid
      rw [reusable_scopeText_iff hstore hflush hop haddr hid]
      exact ⟨hfirst, fun heq => by rw [heq]⟩
    · intro other found x hfound hx htid hid hop
      rw [closing_scopeText_iff hfound hx htid hid hop]
      exact hlast

/-- `list_add` and `list_del` are one function for `repairDURA`. -/
theorem not_agreeOnFunctions_list :
    ¬AgreeOnFunctions (Strings.lit "list_add") 10 false (Strings.lit "list_del") 20 false := by
  intro h
  have hreuse := h.reuse [] (probe .store (scopeText (Strings.lit "list_add") 10 false))
    (probe .flush (scopeText (Strings.lit "list_del") 20 false)) (String.toList_ofList ..)
    (String.toList_ofList ..) rfl rfl List.not_mem_nil
  have hne : Strings.lit "list_add" ≠ Strings.lit "list_del" := by with_unfolding_all decide
  have hsame : reusable [] (probe .store (scopeText (Strings.lit "list_add") 10 false))
      (probe .flush (scopeText (Strings.lit "list_del") 20 false)) = true := by
        with_unfolding_all decide
  exact hne (hreuse.mp hsame)

end PMBugRepair
