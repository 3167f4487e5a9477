import PMBugRepair.Smt.Formula
import Mathlib.Data.Nat.Digits.Lemmas

/-!
# Traces of persistent-memory statements

A trace is a list of statements; both repair passes read the six fields of a row and write new rows.
Rows that come from a file are numbered by their line. Rows a pass inserts carry a text instead:
`s_k` and `s_Fence_k` in step 1, `Lock_k`, `UnLock_k` and `Fence_Lock_k` in step 4. The solver
variables are named after these texts, so different rows must never share one.
-/

namespace PMBugRepair

inductive Opcode where
  | load
  | store
  | flush
  | fence
  | lock
  | unlock
  | txBegin
  | txCommit
  deriving DecidableEq, Repr

/-- The statement number `stmt[0]`. -/
inductive Id where
  | line (n : Nat)
  | inserted (base : Id) (k : Nat)
  | insertedFence (base : Id) (k : Nat)
  | lock (k : Nat)
  | unlock (k : Nat)
  | fenceLock (k : Nat)
  deriving DecidableEq, Repr

structure Stmt where
  id : Id
  op : Opcode
  addr : String
  dep : String
  tid : Nat
  scope : String
  deriving DecidableEq, Repr

abbrev Trace := List Stmt

def Stmt.isStore (stmt : Stmt) : Bool := stmt.op == .store
def Stmt.isFlush (stmt : Stmt) : Bool := stmt.op == .flush
def Stmt.isFence (stmt : Stmt) : Bool := stmt.op == .fence

@[simp] theorem Stmt.isStore_iff {stmt : Stmt} : stmt.isStore = true ↔ stmt.op = .store := by
  simp [isStore]

@[simp] theorem Stmt.isFlush_iff {stmt : Stmt} : stmt.isFlush = true ↔ stmt.op = .flush := by
  simp [isFlush]

@[simp] theorem Stmt.isFence_iff {stmt : Stmt} : stmt.isFence = true ↔ stmt.op = .fence := by
  simp [isFence]

/-- A row inserted for a store; all of them share everything but number, opcode and address. -/
def insertedStmt (store : Stmt) (id : Id) (op : Opcode) (addr : String) : Stmt :=
  { id := id, op := op, addr := addr, dep := "-1", tid := store.tid, scope := store.scope ++ "_x" }

/-! ### The text of a statement number -/

def digits (n : Nat) : List Char := Nat.toDigits 10 n

/-- `str(stmt[0])`. -/
def Id.str : Id → List Char
  | .line n => digits n
  | .inserted base k => base.str ++ '_' :: digits k
  | .insertedFence base k => base.str ++ ['_', 'F', 'e', 'n', 'c', 'e'] ++ '_' :: digits k
  | .lock k => ['L', 'o', 'c', 'k'] ++ '_' :: digits k
  | .unlock k => ['U', 'n', 'L', 'o', 'c', 'k'] ++ '_' :: digits k
  | .fenceLock k => ['F', 'e', 'n', 'c', 'e', '_', 'L', 'o', 'c', 'k'] ++ '_' :: digits k

/-- The solver variables `pc_<id>` and `pt_<id>`: the time a statement executes, and the time a
store persists. -/
inductive Var where
  | pc (id : Id)
  | pt (id : Id)
  deriving DecidableEq, Repr

def Var.name : Var → List Char
  | .pc id => 'p' :: 'c' :: '_' :: id.str
  | .pt id => 'p' :: 't' :: '_' :: id.str

theorem digits_injective : Function.Injective digits := by
  intro m n heq
  calc
    m = Nat.ofDigitChars 10 (digits m) 0 := Nat.ofDigitChars_ten_toDigits.symm
    _ = Nat.ofDigitChars 10 (digits n) 0 := by rw [heq]
    _ = n := Nat.ofDigitChars_ten_toDigits

theorem underscore_notMem_digits (n : Nat) : '_' ∉ digits n := Nat.underscore_not_in_toDigits

theorem exists_digits_eq_concat (n : Nat) : ∃ init c, digits n = init ++ [c] ∧ c.isDigit := by
  have hne : digits n ≠ [] := Nat.toDigits_ne_nil
  refine ⟨(digits n).dropLast, (digits n).getLast hne, (List.dropLast_append_getLast hne).symm, ?_⟩
  exact Nat.isDigit_of_mem_toDigits (by decide) (by decide) (List.getLast_mem hne)

theorem split_last_underscore {left left' right right' : List Char} (hright : '_' ∉ right)
    (hright' : '_' ∉ right') (heq : left ++ '_' :: right = left' ++ '_' :: right') :
    left = left' ∧ right = right' := by
  rcases List.append_eq_append_iff.mp heq with ⟨mid, rfl, hmid⟩ | ⟨mid, rfl, hmid⟩
  · cases mid with
    | nil => simpa using hmid
    | cons c mid =>
        obtain ⟨-, rfl⟩ := List.cons.inj hmid
        simp at hright
  · cases mid with
    | nil => simpa using hmid.symm
    | cons c mid =>
        obtain ⟨-, rfl⟩ := List.cons.inj hmid
        simp at hright'

/-- The text before the last underscore and the counter behind it; a line number has neither. -/
def Id.stem : Id → Option (List Char × Nat)
  | .line _ => none
  | .inserted base k => some (base.str, k)
  | .insertedFence base k => some (base.str ++ ['_', 'F', 'e', 'n', 'c', 'e'], k)
  | .lock k => some (['L', 'o', 'c', 'k'], k)
  | .unlock k => some (['U', 'n', 'L', 'o', 'c', 'k'], k)
  | .fenceLock k => some (['F', 'e', 'n', 'c', 'e', '_', 'L', 'o', 'c', 'k'], k)

theorem Id.str_of_stem {id : Id} {text : List Char} {k : Nat} (hstem : id.stem = some (text, k)) :
    id.str = text ++ '_' :: digits k := by
  cases id <;> cases hstem <;> rfl

theorem Id.str_of_stem_none {id : Id} (hstem : id.stem = none) : '_' ∉ id.str := by
  cases id with
  | line n => exact underscore_notMem_digits n
  | _ => cases hstem

theorem Id.getLast?_str (id : Id) : ∃ c, id.str.getLast? = some c ∧ c.isDigit = true := by
  cases hstem : id.stem with
  | none =>
      cases id with
      | line n =>
          obtain ⟨init, c, hdigits, hc⟩ := exists_digits_eq_concat n
          exact ⟨c, by simp [str, hdigits], hc⟩
      | _ => cases hstem
  | some part =>
      obtain ⟨init, c, hdigits, hc⟩ := exists_digits_eq_concat part.2
      refine ⟨c, ?_, hc⟩
      rw [str_of_stem hstem, hdigits, ← List.cons_append, ← List.append_assoc]
      exact List.getLast?_concat

theorem Id.stem_eq_of_str_eq {id id' : Id} (heq : id.str = id'.str) : id.stem = id'.stem := by
  cases hstem : id.stem with
  | none =>
      cases hstem' : id'.stem with
      | none => rfl
      | some part =>
          refine absurd ?_ (str_of_stem_none hstem)
          rw [heq, str_of_stem hstem']
          simp
  | some part =>
      cases hstem' : id'.stem with
      | none =>
          refine absurd ?_ (str_of_stem_none hstem')
          rw [← heq, str_of_stem hstem]
          simp
      | some part' =>
          rw [str_of_stem hstem, str_of_stem hstem'] at heq
          obtain ⟨htext, hdigits⟩ := split_last_underscore (underscore_notMem_digits _)
            (underscore_notMem_digits _) heq
          rw [Option.some.injEq]
          exact Prod.ext htext (digits_injective hdigits)

theorem Id.str_ne_of_letter (id : Id) {text : List Char} {c : Char}
    (hlast : text.getLast? = some c) (hc : c.isDigit = false) : id.str ≠ text := by
  obtain ⟨d, hstr, hd⟩ := id.getLast?_str
  rintro rfl
  rw [hstr, Option.some.injEq] at hlast
  rw [hlast, hc] at hd
  cases hd

/-- Different statement numbers have different texts. -/
theorem Id.str_injective : Function.Injective Id.str := by
  intro id id' heq
  have hstem := stem_eq_of_str_eq heq
  induction id generalizing id' with
  | line n =>
      cases id' with
      | line n' => exact congrArg _ (digits_injective heq)
      | _ => cases hstem
  | inserted base k ih =>
      have hletter {text : List Char} {c : Char} (hlast : text.getLast? = some c)
          (hc : c.isDigit = false) : base.str ≠ text := base.str_ne_of_letter hlast hc
      cases id' with
      | line n' => cases hstem
      | inserted base' k' =>
          obtain ⟨hbase, rfl⟩ : base.str = base'.str ∧ k = k' := by simpa [stem] using hstem
          rw [ih hbase (stem_eq_of_str_eq hbase)]
      | insertedFence base' k' =>
          have hbase := congrArg Prod.fst (Option.some.inj hstem)
          exact absurd hbase (hletter (c := 'e') (by simp) (by decide))
      | lock k' | unlock k' | fenceLock k' =>
          have hbase := congrArg Prod.fst (Option.some.inj hstem)
          exact absurd hbase (hletter (c := 'k') (by simp) (by decide))
  | insertedFence base k ih =>
      cases id' with
      | line n' => cases hstem
      | inserted base' k' =>
          have hbase := congrArg Prod.fst (Option.some.inj hstem)
          exact absurd hbase.symm (base'.str_ne_of_letter (c := 'e') (by simp) (by decide))
      | insertedFence base' k' =>
          obtain ⟨hbase, rfl⟩ : base.str = base'.str ∧ k = k' := by simpa [stem] using hstem
          rw [ih hbase (stem_eq_of_str_eq hbase)]
      | lock k' | unlock k' | fenceLock k' =>
          have hlast := congrArg (fun part => part.1.getLast?) (Option.some.inj hstem)
          simp at hlast
  | lock k | unlock k | fenceLock k =>
      cases id' with
      | line n' => cases hstem
      | inserted base' k' =>
          have hbase := congrArg Prod.fst (Option.some.inj hstem)
          exact absurd hbase.symm (base'.str_ne_of_letter (c := 'k') (by simp) (by decide))
      | insertedFence base' k' =>
          have hlast := congrArg (fun part => part.1.getLast?) (Option.some.inj hstem)
          simp at hlast
      | lock k' | unlock k' | fenceLock k' => simp_all [stem]

/-- Rows as both steps parse them: numbered by their lines, the first of which is line 2. -/
def Numbered (trace : Trace) : Prop :=
  trace.map Stmt.id = (List.range' 2 trace.length).map Id.line

theorem Numbered.nodup {trace : Trace} (h : Numbered trace) : (trace.map Stmt.id).Nodup := by
  rw [h]
  exact List.Nodup.map (fun _ _ heq => Id.line.inj heq) List.nodup_range'

theorem Numbered.line_of_mem {trace : Trace} (h : Numbered trace) {x : Stmt} (hx : x ∈ trace) :
    ∃ n, x.id = .line n := by
  have hid := List.mem_map_of_mem (f := Stmt.id) hx
  rw [h, List.mem_map] at hid
  obtain ⟨n, -, heq⟩ := hid
  exact ⟨n, heq.symm⟩

def pc (stmt : Stmt) : Smt.Term Var := .var (.pc stmt.id)
def pt (stmt : Stmt) : Smt.Term Var := .var (.pt stmt.id)

@[simp] theorem eval_pc {σ : Var → Int} {stmt : Stmt} : (pc stmt).eval σ = σ (.pc stmt.id) := rfl
@[simp] theorem eval_pt {σ : Var → Int} {stmt : Stmt} : (pt stmt).eval σ = σ (.pt stmt.id) := rfl

/-- `scope.split("_")`. -/
def scopeParts (scope : String) : List (List Char) := scope.toList.splitOn '_'

end PMBugRepair
