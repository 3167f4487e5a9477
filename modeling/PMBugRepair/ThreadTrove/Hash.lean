import PMBugRepair.Containers.Shadowing
import Mathlib.Logic.Function.Basic
import Mathlib.Algebra.Group.Int.Defs
import Mathlib.Algebra.Group.Nat.Defs

/-!
# The hash table

`hash.h` keeps ten buckets, lists of pairs with the newest in front. An index outside of the buckets
and a `size` that overflows are undefined behaviour, which is `none`.
-/

namespace PMBugRepair

open Shadowing (unlink replace part)

def tableSize : Nat := 10

structure HashTable where
  buckets : Fin tableSize → List (Int × Int)
  size : Int

/-- The remainder in C has the sign of the key. -/
def hashFunction (key : Int) : Int := key.tmod tableSize

/-- The place of `buckets[hash_function(key)]`. -/
def bucketOf (key : Int) : Option (Fin tableSize) :=
  if h : 0 ≤ hashFunction key ∧ hashFunction key < tableSize then
    some ⟨(hashFunction key).toNat, by omega⟩
  else none

def inBucket (index : Fin tableSize) (key : Int) : Bool := bucketOf key = some index

namespace HashTable

def init : HashTable := { buckets := fun _ => [], size := 0 }

def insert (table : HashTable) (key value : Int) : Option HashTable := do
  let index ← bucketOf key
  if table.size = 2 ^ 31 - 1 then none
  else return {
    buckets := Function.update table.buckets index ((key, value) :: table.buckets index)
    size := table.size + 1 }

def deleteFromHash (table : HashTable) (key : Int) : Option (Bool × HashTable) := do
  let index ← bucketOf key
  match unlink key (table.buckets index) with
  | none => return (false, table)
  | some rest => return (true, {
      buckets := Function.update table.buckets index rest
      size := table.size - 1 })

def get (table : HashTable) (key : Int) : Option Int := do
  let index ← bucketOf key
  return ((table.buckets index).lookup key).getD (-1)

def update (table : HashTable) (key value : Int) : Option HashTable := do
  let index ← bucketOf key
  return { table with
    buckets := Function.update table.buckets index (replace key value (table.buckets index)) }

def contains (table : HashTable) (key : Int) : Option Bool := do
  let value ← table.get key
  return value ≠ -1

def clear (_ : HashTable) : HashTable := { buckets := fun _ => [], size := 0 }

end HashTable

inductive HashCall where
  | insert (key value : Int)
  | update (key value : Int)
  | deleteFromHash (key : Int)
  | get (key : Int)
  | contains (key : Int)
  | size
  | clear
  deriving DecidableEq, Repr

inductive HashResult where
  | void
  | int (value : Int)
  | bool (value : Bool)
  deriving DecidableEq, Repr

def callHash (table : HashTable) : HashCall → Option (HashResult × HashTable)
  | .insert key value => do
      let table ← table.insert key value
      return (.void, table)
  | .update key value => do
      let table ← table.update key value
      return (.void, table)
  | .deleteFromHash key => do
      let (found, table) ← table.deleteFromHash key
      return (.bool found, table)
  | .get key => do
      let value ← table.get key
      return (.int value, table)
  | .contains key => do
      let found ← table.contains key
      return (.bool found, table)
  | .size => some (.int table.size, table)
  | .clear => some (.void, table.clear)

def runHash : HashTable → List HashCall → Option (List HashResult × HashTable)
  | table, [] => some ([], table)
  | table, call :: calls => do
      let (result, table) ← callHash table call
      let (results, table) ← runHash table calls
      return (result :: results, table)

/-! ### A map with shadowing -/

/-- What the call is for: the pairs that are not deleted, the newest in front. -/
def callMap (pairs : List (Int × Int)) : HashCall → HashResult × List (Int × Int)
  | .insert key value => (.void, (key, value) :: pairs)
  | .update key value => (.void, replace key value pairs)
  | .deleteFromHash key => (.bool (unlink key pairs).isSome, (unlink key pairs).getD pairs)
  | .get key => (.int ((pairs.lookup key).getD (-1)), pairs)
  | .contains key => (.bool (pairs.lookup key).isSome, pairs)
  | .size => (.int pairs.length, pairs)
  | .clear => (.void, [])

def runMap : List (Int × Int) → List HashCall → List HashResult × List (Int × Int)
  | pairs, [] => ([], pairs)
  | pairs, call :: calls =>
      let (result, pairs) := callMap pairs call
      let (results, pairs) := runMap pairs calls
      (result :: results, pairs)

/-- Every pair is in the bucket of its key, in order, and `size` counts them. -/
structure HashTable.Represents (table : HashTable) (pairs : List (Int × Int)) : Prop where
  buckets : ∀ index, table.buckets index = part (inBucket index) pairs
  placed : ∀ pair ∈ pairs, bucketOf pair.1 ≠ none
  size : table.size = pairs.length

/-- The calls run through, return what a map with shadowing returns, and leave its pairs. -/
def RunsAsMap (calls : List HashCall) : Prop :=
  ∃ table, runHash .init calls = some ((runMap [] calls).1, table) ∧
    table.Represents (runMap [] calls).2

/-- The key is no negative number with a last digit other than 0. -/
def Indexed (key : Int) : Prop := 0 ≤ key ∨ (tableSize : Int) ∣ key

/-- What a call needs of the pairs that are there. -/
def Served (pairs : List (Int × Int)) : HashCall → Prop
  | .insert key _ => Indexed key ∧ pairs.length ≠ 2 ^ 31 - 1
  | .update key _ => Indexed key
  | .deleteFromHash key => Indexed key
  | .get key => Indexed key
  | .contains key => Indexed key ∧ pairs.lookup key ≠ some (-1)
  | .size => True
  | .clear => True

def AllServed : List (Int × Int) → List HashCall → Prop
  | _, [] => True
  | pairs, call :: calls => Served pairs call ∧ AllServed (callMap pairs call).2 calls

/-! ### Buckets -/

theorem bucketOf_ne_none_iff (key : Int) : bucketOf key ≠ none ↔ Indexed key := by
  have hrange : bucketOf key ≠ none ↔ 0 ≤ hashFunction key ∧ hashFunction key < tableSize := by
    unfold bucketOf
    split_ifs with h <;> simp [h]
  have hlt : hashFunction key < tableSize := Int.tmod_lt_of_pos key (by decide)
  rw [hrange, and_iff_left hlt]
  unfold hashFunction Indexed
  constructor
  · intro hnonneg
    rcases Int.lt_or_le key 0 with hneg | hpos
    · right
      have hflip : 0 ≤ (-key).tmod tableSize := Int.tmod_nonneg _ (by omega)
      rw [Int.neg_tmod] at hflip
      exact Int.dvd_of_tmod_eq_zero (by omega)
    · exact .inl hpos
  · rintro (hpos | hdvd)
    · exact Int.tmod_nonneg _ hpos
    · exact Int.le_of_eq (Int.tmod_eq_zero_of_dvd hdvd).symm

theorem bucketOf_of_not_indexed {key : Int} (h : ¬Indexed key) : bucketOf key = none := by
  by_contra hne
  exact h ((bucketOf_ne_none_iff key).mp hne)

theorem exists_bucketOf {key : Int} (h : Indexed key) : ∃ index, bucketOf key = some index :=
  Option.ne_none_iff_exists'.mp ((bucketOf_ne_none_iff key).mpr h)

namespace HashTable.Represents

variable {table : HashTable} {pairs : List (Int × Int)} {key value : Int} {index : Fin tableSize}

theorem inBucket_self (hindex : bucketOf key = some index) : inBucket index key = true := by
  rw [inBucket, hindex, decide_eq_true_iff]

theorem lookup (h : table.Represents pairs) (hindex : bucketOf key = some index) :
    (table.buckets index).lookup key = pairs.lookup key := by
  rw [h.buckets index, Shadowing.lookup_part (inBucket_self hindex)]

theorem change (h : table.Represents pairs) {pairs' bucket : List (Int × Int)} {size : Int}
    (hself : bucket = part (inBucket index) pairs')
    (hothers : ∀ other, other ≠ index → part (inBucket other) pairs' =
      part (inBucket other) pairs)
    (hplaced : ∀ pair ∈ pairs', bucketOf pair.1 ≠ none) (hsize : size = pairs'.length) :
    Represents ⟨Function.update table.buckets index bucket, size⟩ pairs' where
  buckets other := by
    by_cases heq : other = index
    · subst heq
      exact (Function.update_self ..).trans hself
    · rw [hothers other heq, ← h.buckets other]
      exact Function.update_of_ne heq ..
  placed := hplaced
  size := hsize

theorem not_other {other : Fin tableSize} (hindex : bucketOf key = some index)
    (hne : other ≠ index) : ¬inBucket other key = true := by
  rw [inBucket, hindex, decide_eq_true_iff, Option.some_inj]
  exact hne.symm

theorem insert (h : table.Represents pairs) (hindex : bucketOf key = some index)
    (hsize : pairs.length ≠ 2 ^ 31 - 1) (value : Int) :
    ∃ table', table.insert key value = some table' ∧ table'.Represents ((key, value) :: pairs) := by
  have hroom : table.size ≠ 2 ^ 31 - 1 := by
    rw [h.size]
    omega
  refine ⟨_, by rw [HashTable.insert, hindex]; exact if_neg hroom, h.change ?_ ?_ ?_ ?_⟩
  · rw [Shadowing.part_cons_of_pos (inBucket_self hindex), h.buckets index]
  · intro other hne
    exact Shadowing.part_cons_of_neg (not_other hindex hne) pairs
  · rw [List.forall_mem_cons]
    exact ⟨by simp [hindex], h.placed⟩
  · rw [h.size, List.length_cons]
    omega

theorem update (h : table.Represents pairs) (hindex : bucketOf key = some index) (value : Int) :
    ∃ table', table.update key value = some table' ∧
      table'.Represents (replace key value pairs) := by
  refine ⟨_, by rw [HashTable.update, hindex]; rfl, h.change ?_ ?_ ?_ ?_⟩
  · rw [h.buckets index, Shadowing.replace_part (inBucket_self hindex)]
  · intro other hne
    exact Shadowing.part_replace (not_other hindex hne) value pairs
  · intro pair hpair
    have hkey := List.mem_map_of_mem (f := (·.1)) hpair
    rw [Shadowing.map_fst_replace] at hkey
    obtain ⟨old, hold, heq⟩ := List.mem_map.mp hkey
    exact heq ▸ h.placed old hold
  · have hlength := congrArg List.length (Shadowing.map_fst_replace key value pairs)
    rw [List.length_map, List.length_map] at hlength
    rw [h.size, hlength]

theorem deleteFromHash (h : table.Represents pairs) (hindex : bucketOf key = some index) :
    ∃ table', table.deleteFromHash key = some ((unlink key pairs).isSome, table') ∧
      table'.Represents ((unlink key pairs).getD pairs) := by
  have hbucket : unlink key (table.buckets index) =
      (unlink key pairs).map (part (inBucket index)) := by
    rw [h.buckets index, Shadowing.unlink_part (inBucket_self hindex)]
  cases hunlink : unlink key pairs with
  | none =>
      rw [hunlink] at hbucket
      refine ⟨table, ?_, h⟩
      rw [HashTable.deleteFromHash, hindex]
      simp [hbucket]
  | some rest =>
      rw [hunlink] at hbucket
      refine ⟨⟨Function.update table.buckets index (part (inBucket index) rest), table.size - 1⟩,
        ?_, h.change rfl ?_ ?_ ?_⟩
      · rw [HashTable.deleteFromHash, hindex]
        simp [hbucket]
      · intro other hne
        exact Shadowing.part_unlink (not_other hindex hne) hunlink
      · exact fun pair hpair => h.placed pair ((Shadowing.sublist_of_unlink hunlink).subset hpair)
      · have hlength := Shadowing.length_unlink hunlink
        rw [h.size, Option.getD_some]
        omega

theorem get (h : table.Represents pairs) (hindex : bucketOf key = some index) :
    table.get key = some ((pairs.lookup key).getD (-1)) := by
  rw [HashTable.get, hindex]
  simp [h.lookup hindex]

theorem contains (h : table.Represents pairs) (hindex : bucketOf key = some index) :
    table.contains key = some (decide ((pairs.lookup key).getD (-1) ≠ -1)) := by
  rw [HashTable.contains, h.get hindex]
  rfl

end HashTable.Represents

/-! ### Runs -/

section Runs

variable {table : HashTable} {pairs : List (Int × Int)}

theorem callHash_of_served (h : table.Represents pairs) {call : HashCall}
    (hserved : Served pairs call) :
    ∃ table', callHash table call = some ((callMap pairs call).1, table') ∧
      table'.Represents (callMap pairs call).2 := by
  cases call with
  | insert key value =>
      obtain ⟨index, hindex⟩ := exists_bucketOf hserved.1
      obtain ⟨table', heq, hafter⟩ := h.insert hindex hserved.2 value
      exact ⟨table', by rw [callHash, heq]; rfl, hafter⟩
  | update key value =>
      obtain ⟨index, hindex⟩ := exists_bucketOf hserved
      obtain ⟨table', heq, hafter⟩ := h.update hindex value
      exact ⟨table', by rw [callHash, heq]; rfl, hafter⟩
  | deleteFromHash key =>
      obtain ⟨index, hindex⟩ := exists_bucketOf hserved
      obtain ⟨table', heq, hafter⟩ := h.deleteFromHash hindex
      exact ⟨table', by rw [callHash, heq]; rfl, hafter⟩
  | get key =>
      obtain ⟨index, hindex⟩ := exists_bucketOf hserved
      exact ⟨table, by rw [callHash, h.get hindex]; rfl, h⟩
  | contains key =>
      obtain ⟨index, hindex⟩ := exists_bucketOf hserved.1
      refine ⟨table, ?_, h⟩
      rw [callHash, h.contains hindex, callMap]
      cases hlookup : pairs.lookup key with
      | none => rfl
      | some value =>
          have hne : value ≠ -1 := fun heq => hserved.2 (heq ▸ hlookup)
          simp [hne]
  | size => exact ⟨table, by rw [callHash, h.size]; rfl, h⟩
  | clear =>
      refine ⟨table.clear, rfl, fun index => rfl, ?_, rfl⟩
      exact fun pair hpair => absurd hpair List.not_mem_nil

/-- A call that is not served goes out of bounds, overflows, or `contains` denies a pair. -/
theorem callHash_of_not_served (h : table.Represents pairs) {call : HashCall}
    (hserved : ¬Served pairs call) {result : HashResult} {table' : HashTable}
    (hcall : callHash table call = some (result, table')) : result ≠ (callMap pairs call).1 := by
  have hout : ∀ key, ¬Indexed key → bucketOf key = none := fun _ => bucketOf_of_not_indexed
  cases call with
  | insert key value =>
      rcases not_and_or.mp hserved with hkey | hsize
      · simp [callHash, HashTable.insert, hout key hkey] at hcall
      · have hfull : table.size = 2 ^ 31 - 1 := by
          rw [h.size]
          omega
        cases hindex : bucketOf key <;>
          simp [callHash, HashTable.insert, hindex, hfull] at hcall
  | update key value => simp [callHash, HashTable.update, hout key hserved] at hcall
  | deleteFromHash key => simp [callHash, HashTable.deleteFromHash, hout key hserved] at hcall
  | get key => simp [callHash, HashTable.get, hout key hserved] at hcall
  | contains key =>
      rcases not_and_or.mp hserved with hkey | hvalue
      · simp [callHash, HashTable.contains, HashTable.get, hout key hkey] at hcall
      · rw [not_not] at hvalue
        cases hindex : bucketOf key with
        | none => simp [callHash, HashTable.contains, HashTable.get, hindex] at hcall
        | some index =>
            rw [callHash, h.contains hindex, hvalue] at hcall
            obtain ⟨rfl, -⟩ := Prod.mk.inj (Option.some.inj hcall)
            simp [callMap, hvalue]
  | size => exact absurd trivial hserved
  | clear => exact absurd trivial hserved

theorem runHash_iff (h : table.Represents pairs) (calls : List HashCall) :
    (∃ table', runHash table calls = some ((runMap pairs calls).1, table') ∧
      table'.Represents (runMap pairs calls).2) ↔ AllServed pairs calls := by
  induction calls generalizing table pairs with
  | nil => exact iff_of_true ⟨table, rfl, h⟩ trivial
  | cons call calls ih =>
      by_cases hserved : Served pairs call
      · obtain ⟨next, hcall, hnext⟩ := callHash_of_served h hserved
        rw [AllServed, and_iff_right hserved, ← ih hnext]
        have hrun : ∀ table', runHash table (call :: calls) =
              some ((runMap pairs (call :: calls)).1, table') ↔
            runHash next calls = some ((runMap (callMap pairs call).2 calls).1, table') := by
          intro table'
          rw [runHash, hcall, runMap]
          simp only [Option.bind_eq_bind, Option.bind_some]
          cases runHash next calls with
          | none => simp
          | some out => simp [Prod.ext_iff]
        simp only [hrun]
        rfl
      · refine iff_of_false ?_ fun hall => hserved hall.1
        rintro ⟨table', hrun, -⟩
        rw [runHash] at hrun
        obtain ⟨⟨result, next⟩, hcall, hrun⟩ := Option.bind_eq_some_iff.mp hrun
        obtain ⟨⟨results, last⟩, -, hrun⟩ := Option.bind_eq_some_iff.mp hrun
        have heq := (Prod.mk.inj (Option.some.inj hrun)).1
        exact callHash_of_not_served h hserved hcall (List.cons.inj heq).1

end Runs

/-- The table is a map with shadowing on the sequences whose calls are all served. -/
theorem runsAsMap_iff (calls : List HashCall) : RunsAsMap calls ↔ AllServed [] calls := by
  apply runHash_iff
  refine ⟨fun index => rfl, ?_, rfl⟩
  exact fun pair hpair => absurd hpair List.not_mem_nil

/-- The index of the key -1 is -1. -/
theorem not_runsAsMap_negative : ¬RunsAsMap [.insert (-1) 5] := by
  rintro ⟨table, hrun, -⟩
  cases hrun

/-- A pair with the value -1 is denied. -/
example : (runHash .init [.insert 3 (-1), .contains 3]).map (·.1) = some [.void, .bool false] := by
  decide

end PMBugRepair
