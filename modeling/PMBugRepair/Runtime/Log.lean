import PMBugRepair.Trace
import PMBugRepair.Strings.Python

/-!
# The log of the runtime

Instrumented programs call `pm.cpp`, and every call appends lines to one log. A line is the text of
its event, cut to the size of the buffer it is printed through, and the number of the thread. Texts
are lists of bytes, written as characters.
-/

namespace PMBugRepair

open Strings (Text lit)

/-- `%d` and `%ld`. -/
def decimal : Int → Text
  | .ofNat n => digits n
  | .negSucc n => '-' :: digits (n + 1)

/-- `%llx`. -/
def hex (n : BitVec 64) : Text := Nat.toDigits 16 n.toNat

/-- `%p`. -/
def pointer (n : BitVec 64) : Text := if n = 0 then lit "(nil)" else lit "0x" ++ hex n

/-- Where in the program an event comes from. -/
structure Place where
  line : BitVec 32
  col : BitVec 32
  scope : Text
  deriving DecidableEq

/-- What one call of `my_printf` prints. -/
inductive Event where
  | adding (first last : BitVec 64)
  | freeing (block : BitVec 64)
  | store (addr : BitVec 64) (size id : BitVec 32) (place : Place)
  | load (addr : BitVec 64) (size id : BitVec 32) (place : Place)
  | dep (src dest : BitVec 32)
  | clflush (ptr : BitVec 64) (size : BitVec 64) (place : Place)
  | sfence (place : Place)
  | txBegins (place : Place)
  | txCommits (place : Place)
  deriving DecidableEq

/-- `@Ln,Col: %d,%d`. -/
def Place.position (place : Place) : Text :=
  lit "@Ln,Col: " ++ decimal place.line.toInt ++ ',' :: decimal place.col.toInt

def Event.text : Event → Text
  | .adding first last =>
      lit "Adding addr: 0x" ++ hex first ++ lit " to 0x" ++ hex last ++ lit "; "
  | .freeing block => lit "Adding addr: 0x" ++ hex block ++ lit "; "
  | .store addr size id place =>
      lit "Store: 0x" ++ hex addr ++ lit " Size: " ++ decimal size.toInt ++
        lit " ID: " ++ decimal id.toInt ++ ' ' :: place.position ++ lit " Scope: " ++
        place.scope ++ lit "; "
  | .load addr size id place =>
      lit "Load: 0x" ++ hex addr ++ lit " Size: " ++ decimal size.toInt ++
        lit " ID: " ++ decimal id.toInt ++ ' ' :: place.position ++ lit " Scope: " ++
        place.scope ++ lit "; "
  | .dep src dest =>
      lit "DEP: SrcID: " ++ decimal src.toInt ++ lit " DestID: " ++ decimal dest.toInt ++
        lit "; "
  | .clflush ptr size place =>
      lit "CLFLUSH: " ++ pointer ptr ++ lit " LEN: " ++ decimal size.toInt ++
        ' ' :: place.position ++ lit " ; Scope: " ++ place.scope ++ lit ";  "
  | .sfence place =>
      lit "SFENCE. " ++ place.position ++ lit " ; Scope: " ++ place.scope ++ lit ";  "
  | .txBegins place =>
      lit "Transaction begins. " ++ place.position ++ lit " Scope: " ++ place.scope ++
        lit "; "
  | .txCommits place =>
      lit "Transaction Commits. " ++ place.position ++ lit " Scope: " ++ place.scope ++
        lit "; "

/-- `my_printf`: `vsnprintf` into a buffer of 1024 bytes, then the thread. -/
def logLine (tid : BitVec 64) (event : Event) : Text :=
  event.text.take 1023 ++ lit "<Thread ID:" ++ digits tid.toNat ++ lit ">\n"

/-! ### Numbers -/

theorem mem_decimal {n : Int} {c : Char} (h : c ∈ decimal n) : c.isDigit = true ∨ c = '-' := by
  have hdigit : ∀ m : Nat, c ∈ digits m → c.isDigit = true :=
    fun m hm => Nat.isDigit_of_mem_toDigits (by decide) (by decide) hm
  cases n with
  | ofNat m => exact .inl (hdigit m h)
  | negSucc m =>
      rcases List.mem_cons.mp h with rfl | h
      · exact .inr rfl
      · exact .inl (hdigit (m + 1) h)

theorem not_mem_decimal {n : Int} {c : Char} (hdigit : c.isDigit = false) (hsign : c ≠ '-') :
    c ∉ decimal n := by
  intro h
  rcases mem_decimal h with hc | hc
  · rw [hdigit] at hc
    cases hc
  · exact hsign hc

theorem decimal_injective : Function.Injective decimal := by
  have hsign : ∀ m k : Nat, digits m ≠ '-' :: digits k := by
    intro m k heq
    have hmem : '-' ∈ digits m := by rw [heq]; exact List.mem_cons_self
    exact absurd (Nat.isDigit_of_mem_toDigits (by decide) (by decide) hmem) (by decide)
  intro m n heq
  cases m with
  | ofNat m =>
      cases n with
      | ofNat n => exact congrArg _ (digits_injective heq)
      | negSucc n => exact absurd heq (hsign m (n + 1))
  | negSucc m =>
      cases n with
      | ofNat n => exact absurd heq.symm (hsign n (m + 1))
      | negSucc n =>
          have hsucc := digits_injective (List.cons.inj heq).2
          rw [Nat.succ.inj hsucc]

theorem not_mem_hex {n : BitVec 64} {c : Char} (hc : ∀ d < 16, c ≠ Nat.digitChar d) :
    c ∉ hex n := by
  intro h
  obtain ⟨d, hd, heq⟩ := Strings.mem_toDigits_sixteen h
  exact hc d hd heq

theorem length_hex (n : BitVec 64) : (hex n).length ≤ 16 :=
  (Nat.length_toDigits_le_iff (by decide) (by decide)).mpr n.isLt

theorem length_decimal {n : Int} {k : Nat} (hk : 0 < k) (h : n.natAbs < 10 ^ k) :
    (decimal n).length ≤ k + 1 := by
  have hlength : ∀ m : Nat, m < 10 ^ k → (digits m).length ≤ k :=
    fun m hm => (Nat.length_toDigits_le_iff (by decide) hk).mpr hm
  cases n with
  | ofNat m => exact (hlength m h).trans (by omega)
  | negSucc m =>
      rw [decimal, List.length_cons]
      exact Nat.succ_le_succ (hlength (m + 1) h)

theorem length_decimal_int (n : BitVec 32) : (decimal n.toInt).length ≤ 11 := by
  apply @length_decimal n.toInt 10 (by decide)
  have hlower := n.le_two_mul_toInt
  have hupper := n.two_mul_toInt_lt
  omega

theorem length_decimal_long (n : BitVec 64) : (decimal n.toInt).length ≤ 20 := by
  apply @length_decimal n.toInt 19 (by decide)
  have hlower := n.le_two_mul_toInt
  have hupper := n.two_mul_toInt_lt
  omega

end PMBugRepair
