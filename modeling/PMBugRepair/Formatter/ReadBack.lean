import PMBugRepair.Formatter.Rows
import PMBugRepair.Runtime.Log

/-!
# Reading a log line back

The runtime and the formatter agree only by the columns of a line. The scope stands in the last of
the columns that are read, so a scope with a blank, and a line that was cut, are read wrongly.
-/

namespace PMBugRepair

open Strings (Text lit strip)

namespace Event

/-- The events that the formatter reads. -/
def place : Event → Option Place
  | .store _ _ _ place | .load _ _ _ place | .clflush _ _ place | .sfence place | .txBegins place
  | .txCommits place => some place
  | .adding .. | .freeing _ | .dep .. => none

/-- The function that formats the lines of an event. -/
def format : Event → Text → Nat → Option RowStmt
  | .store .. | .load .. => formatSTOREs
  | .clflush .. => formatFLUSH
  | .sfence _ => formatFENCE
  | .txBegins _ | .txCommits _ => formatTransactions
  | .adding .. | .freeing _ | .dep .. => fun _ _ => none

def add : Event → Value
  | .store addr .. | .load addr .. => .text (lit "0x" ++ hex addr)
  | .clflush ptr .. => .text (pointer ptr)
  | _ => .num 0

def uid : Event → Option Text
  | .store _ _ id _ | .load _ _ id _ => some (decimal id.toInt)
  | _ => none

/-- The text in front of the position. -/
def intro : Event → Text
  | .store addr size id _ =>
      lit "Store: 0x" ++ hex addr ++ lit " Size: " ++ decimal size.toInt ++
        lit " ID: " ++ decimal id.toInt ++ [' ']
  | .load addr size id _ =>
      lit "Load: 0x" ++ hex addr ++ lit " Size: " ++ decimal size.toInt ++
        lit " ID: " ++ decimal id.toInt ++ [' ']
  | .clflush ptr size _ =>
      lit "CLFLUSH: " ++ pointer ptr ++ lit " LEN: " ++ decimal size.toInt ++ [' ']
  | .sfence _ => lit "SFENCE. "
  | .txBegins _ => lit "Transaction begins. "
  | .txCommits _ => lit "Transaction Commits. "
  | .adding .. | .freeing _ | .dep .. => []

/-- The text between position and scope, without the blank in front of the scope. -/
def joint : Event → Text
  | .clflush .. | .sfence _ => lit " ; Scope:"
  | _ => lit " Scope:"

/-- The text behind the scope. -/
def tail : Event → Text
  | .clflush .. | .sfence _ => lit ";  "
  | _ => lit "; "

theorem text_eq {event : Event} {place : Place} (h : event.place = some place) :
    event.text = event.intro ++ place.position ++ event.joint ++
      ' ' :: (place.scope ++ event.tail) := by
  have hjoint : lit " Scope: " = lit " Scope:" ++ [' '] := by with_unfolding_all decide
  have hjoint' : lit " ; Scope: " = lit " ; Scope:" ++ [' '] := by with_unfolding_all decide
  cases event with
  | adding | freeing | dep => cases h
  | store addr size id place' | load addr size id place' =>
      obtain rfl : place' = place := Option.some.inj h
      simp only [text, intro, joint, tail, hjoint, List.append_assoc, List.cons_append,
        List.nil_append]
  | clflush ptr size place' =>
      obtain rfl : place' = place := Option.some.inj h
      simp only [text, intro, joint, tail, hjoint', List.append_assoc, List.cons_append,
        List.nil_append]
  | sfence place' =>
      obtain rfl : place' = place := Option.some.inj h
      simp only [text, intro, joint, tail, hjoint', List.append_assoc, List.cons_append,
        List.nil_append]
  | txBegins place' | txCommits place' =>
      obtain rfl : place' = place := Option.some.inj h
      simp only [text, intro, joint, tail, hjoint, List.append_assoc, List.cons_append,
        List.nil_append]

end Event

/-- The line of the event comes back as its address, its thread, its number, and the scope and the
line of the program. -/
def ReadsBack (event : Event) (place : Place) (tid : BitVec 64) (r : Nat) : Prop :=
  ∃ stmt, event.format (logLine tid event) r = some stmt ∧ stmt.add = event.add ∧
    stmt.tid = digits tid.toNat ∧ stmt.uid = event.uid ∧
    stmt.scope = place.scope ++ '_' :: decimal place.line.toInt

/-- The scope has no blank and no semicolon, and the buffer cuts off at most the second of two
blanks at the end, or exactly what the text of the thread puts there again. -/
def Legible (event : Event) (place : Place) : Prop :=
  ' ' ∉ place.scope ∧ ';' ∉ place.scope ∧
    (event.text.length ≤ 1021 + event.tail.length ∨
      event.text.drop 1023 = lit "<Thread" ++ event.tail)

/-! ### The columns -/

section Columns

variable {head rest intro : Text} {k : Nat}

theorem column_eq (h : head.count ' ' + 1 = k) :
    column (head ++ ' ' :: rest) k = some (rest.takeWhile (· ≠ ' ')) := by
  rw [column, ← h, Strings.getElem?_splitOn]

theorem column_token {token : Text} (h : head.count ' ' + 1 = k) (htoken : ' ' ∉ token) :
    column (head ++ ' ' :: (token ++ ' ' :: rest)) k = some token := by
  rw [column_eq h, Strings.takeWhile_append_sep htoken]

theorem rowTid_eq (head : Text) (n : Nat) :
    rowTid (head ++ lit "<Thread ID:" ++ digits n ++ lit ">\n") = digits n := by
  have hdigit : ∀ c ∈ digits n, c.isDigit = true :=
    fun c hc => Nat.isDigit_of_mem_toDigits (by decide) (by decide) hc
  have hcolon : ':' ∉ digits n ++ ['>', '\n'] := by
    simp only [List.mem_append, List.mem_cons, List.not_mem_nil, or_false, not_or]
    exact ⟨fun hc => absurd (hdigit _ hc) (by decide), by decide, by decide⟩
  have hangle : '>' ∉ digits n := fun hc => absurd (hdigit _ hc) (by decide)
  have hthread : lit "<Thread ID:" = lit "<Thread ID" ++ [':'] := by with_unfolding_all decide
  have hend : lit ">\n" = ['>', '\n'] := by with_unfolding_all decide
  have hrow : head ++ lit "<Thread ID:" ++ digits n ++ lit ">\n" =
      (head ++ lit "<Thread ID") ++ ':' :: (digits n ++ ['>', '\n']) := by
    rw [hthread, hend]
    simp
  rw [rowTid, hrow, List.getLastD_eq_getLast?, Strings.getLast?_splitOn _ hcolon, Option.getD_some,
    List.headD_eq_head?_getD, List.head?_eq_getElem?, Strings.getElem?_zero_splitOn,
    Strings.takeWhile_append_sep hangle, Option.getD_some]

theorem rowLine_eq {place : Place} (hintro : '@' ∉ intro) :
    rowLine (intro ++ place.position ++ rest) = some (decimal place.line.toInt) := by
  have hline : ∀ c : Char, c.isDigit = false → c ≠ '-' → c ≠ ' ' →
      c ∉ ' ' :: decimal place.line.toInt := by
    intro c hdigit hsign hblank
    simp [hblank, not_mem_decimal hdigit hsign]
  have hat : lit "@Ln,Col: " = '@' :: (lit "Ln,Col" ++ [':', ' ']) := by with_unfolding_all decide
  have hrow : intro ++ place.position ++ rest = intro ++ '@' :: (lit "Ln,Col" ++ ':' ::
      (' ' :: decimal place.line.toInt ++ ',' :: (decimal place.col.toInt ++ rest))) := by
    simp [Place.position, hat]
  -- three cuts: behind the first `@`, behind the colon, in front of the comma
  have hplace : ∃ more, ((intro ++ place.position ++ rest).splitOn '@')[1]? =
      some (lit "Ln,Col" ++ ':' :: (' ' :: decimal place.line.toInt ++ ',' :: more)) := by
    have hcut := @Strings.getElem?_splitOn '@' intro (lit "Ln,Col" ++ ':' ::
      (' ' :: decimal place.line.toInt ++ ',' :: (decimal place.col.toInt ++ rest)))
    rw [List.count_eq_zero_of_not_mem hintro, ← hrow,
      Strings.takeWhile_append (by with_unfolding_all decide),
      List.takeWhile_cons_of_pos (by decide),
      Strings.takeWhile_append (hline '@' (by decide) (by decide) (by decide)),
      List.takeWhile_cons_of_pos (by decide)] at hcut
    exact ⟨_, hcut⟩
  obtain ⟨more, hplace⟩ := hplace
  have hposition : ∃ more', ((lit "Ln,Col" ++ ':' :: (' ' :: decimal place.line.toInt ++
      ',' :: more)).splitOn ':')[1]? = some (' ' :: decimal place.line.toInt ++ ',' :: more') := by
    have hcut := @Strings.getElem?_splitOn ':' (lit "Ln,Col")
      (' ' :: decimal place.line.toInt ++ ',' :: more)
    rw [List.count_eq_zero_of_not_mem (by with_unfolding_all decide),
      Strings.takeWhile_append (hline ':' (by decide) (by decide) (by decide)),
      List.takeWhile_cons_of_pos (by decide)] at hcut
    exact ⟨_, hcut⟩
  obtain ⟨more', hposition⟩ := hposition
  have hfirst : ((' ' :: decimal place.line.toInt ++ ',' :: more').splitOn ',')[0]? =
      some (' ' :: decimal place.line.toInt) := by
    rw [Strings.getElem?_zero_splitOn,
      Strings.takeWhile_append_sep (hline ',' (by decide) (by decide) (by decide))]
  have hstrip : strip (' ' :: decimal place.line.toInt) = decimal place.line.toInt := by
    rw [strip, Strings.stripWhile_cons (by decide), Strings.stripWhile_eq_self]
    intro c hc
    rcases mem_decimal hc with hdigit | rfl
    · exact Strings.isSpace_of_isDigit hdigit
    · decide
  simp only [rowLine, hplace, hposition, hfirst, Option.bind_eq_bind, Option.bind_some, hstrip,
    Option.pure_def]

theorem rowScope_eq {place : Place} {joint : Text} (hintro : '@' ∉ intro)
    (hk : (intro ++ place.position ++ joint).count ' ' + 1 = k) :
    rowScope k (intro ++ place.position ++ joint ++ ' ' :: rest) =
      some ((rest.takeWhile (· ≠ ' ')).filter (· ≠ ';') ++ '_' :: decimal place.line.toInt) := by
  have hline : rowLine (intro ++ place.position ++ joint ++ ' ' :: rest) =
      some (decimal place.line.toInt) := by
    rw [List.append_assoc _ joint]
    exact rowLine_eq hintro
  simp only [rowScope, column_eq hk, hline, Option.bind_eq_bind, Option.bind_some, Option.pure_def]

end Columns

/-- What the scope column holds of a scope that may be cut: the scope itself if it has no blank and
no semicolon and is not cut, or if the cut takes away what follows. -/
theorem scope_column_iff {scope tail after : Text} {m : Nat} :
    ((((scope ++ ';' :: ' ' :: tail).take m ++ (lit "<Thread" ++ ' ' :: after)).takeWhile
        (· ≠ ' ')).filter (· ≠ ';') = scope) ↔
      ' ' ∉ scope ∧ ';' ∉ scope ∧ (scope.length + 2 ≤ m ∨ scope.drop m = lit "<Thread") := by
  have hthread : ' ' ∉ lit "<Thread" ∧ ';' ∉ lit "<Thread" ∧ (lit "<Thread").length = 7 := by
    with_unfolding_all decide
  have hkeep : ∀ {t : Text}, ';' ∉ t → t.filter (· ≠ ';') = t := by
    intro t ht
    rw [List.filter_eq_self]
    intro c hc
    simpa using ne_of_mem_of_not_mem hc ht
  -- the column of a clean scope, by how much of it is there
  have hclean : ' ' ∉ scope → ';' ∉ scope →
      (((((scope ++ ';' :: ' ' :: tail).take m ++ (lit "<Thread" ++ ' ' :: after)).takeWhile
        (· ≠ ' ')).filter (· ≠ ';') = scope) ↔
        scope.length + 2 ≤ m ∨ scope.drop m = lit "<Thread") := by
    intro hblank hsemi
    rw [List.take_append]
    by_cases hlong : scope.length + 2 ≤ m
    · obtain ⟨j, rfl⟩ : ∃ j, m = scope.length + 2 + j := ⟨m - scope.length - 2, by omega⟩
      have htake : (';' :: ' ' :: tail).take (scope.length + 2 + j - scope.length) =
          ';' :: ' ' :: tail.take j := by
        rw [show scope.length + 2 + j - scope.length = j + 2 by omega]
        rfl
      have hsplit : scope ++ ';' :: ' ' :: tail.take j ++ (lit "<Thread" ++ ' ' :: after) =
          (scope ++ [';']) ++ ' ' :: (tail.take j ++ (lit "<Thread" ++ ' ' :: after)) := by
        simp
      rw [htake, List.take_of_length_le (by omega), hsplit,
        Strings.takeWhile_append_sep (by simp [hblank]), List.filter_append, hkeep hsemi]
      simp [hlong]
    · by_cases hcut : m = scope.length + 1
      · have htake : (';' :: ' ' :: tail).take (m - scope.length) = [';'] := by
          rw [hcut, Nat.add_sub_cancel_left]
          rfl
        have hsplit : scope ++ [';'] ++ (lit "<Thread" ++ ' ' :: after) =
            (scope ++ ';' :: lit "<Thread") ++ ' ' :: after := by
          simp
        rw [htake, List.take_of_length_le (by omega), hsplit,
          Strings.takeWhile_append_sep (by simp [hblank, hthread.1]), List.filter_append,
          List.filter_cons_of_neg (by simp), hkeep hsemi, hkeep hthread.2.1,
          List.drop_eq_nil_of_le (by omega)]
        constructor
        · intro heq
          have hlength := congrArg List.length heq
          rw [List.length_append, hthread.2.2] at hlength
          omega
        · rintro (hle | hnil)
          · omega
          · have hlength := congrArg List.length hnil
            rw [hthread.2.2] at hlength
            cases hlength
      · have htake : (';' :: ' ' :: tail).take (m - scope.length) = [] := by
          rw [show m - scope.length = 0 by omega]
          rfl
        have hsplit : scope.take m ++ [] ++ (lit "<Thread" ++ ' ' :: after) =
            (scope.take m ++ lit "<Thread") ++ ' ' :: after := by
          simp
        have hblank' : ' ' ∉ scope.take m := fun hc => hblank (List.mem_of_mem_take hc)
        have hsemi' : ';' ∉ scope.take m := fun hc => hsemi (List.mem_of_mem_take hc)
        rw [htake, hsplit, Strings.takeWhile_append_sep (by simp [hblank', hthread.1]),
          hkeep (by simp [hsemi', hthread.2.1])]
        constructor
        · intro heq
          have hsame : scope.take m ++ lit "<Thread" = scope.take m ++ scope.drop m := by
            rw [heq, List.take_append_drop]
          exact .inr (List.append_cancel_left hsame).symm
        · rintro (hle | hdrop)
          · omega
          · rw [← hdrop, List.take_append_drop]
  constructor
  · intro heq
    have hblank : ' ' ∉ scope := by
      rw [← heq]
      intro hmem
      have hfound := List.mem_takeWhile_imp (List.mem_filter.mp hmem).1
      simp at hfound
    have hsemi : ';' ∉ scope := by
      rw [← heq]
      simp
    exact ⟨hblank, hsemi, (hclean hblank hsemi).mp heq⟩
  · rintro ⟨hblank, hsemi, hrest⟩
    exact (hclean hblank hsemi).mpr hrest

namespace Event

/-- The column of the scope. -/
def scopeColumn : Event → Nat
  | .store .. | .load .. => 9
  | .clflush .. => 8
  | _ => 5

theorem blank_not_mem_hex (n : BitVec 64) : ' ' ∉ hex n := not_mem_hex (by decide)

theorem at_not_mem_hex (n : BitVec 64) : '@' ∉ hex n := not_mem_hex (by decide)

theorem not_mem_pointer {n : BitVec 64} {c : Char} (hhex : c ∉ hex n) (hnil : c ∉ lit "(nil)")
    (hzero : c ∉ lit "0x") : c ∉ pointer n := by
  unfold pointer
  split
  · exact hnil
  · simp [hhex, hzero]

theorem length_pointer (n : BitVec 64) : (pointer n).length ≤ 18 := by
  have hnil : (lit "(nil)").length = 5 := by with_unfolding_all decide
  have hzero : (lit "0x").length = 2 := by with_unfolding_all decide
  have hhex := length_hex n
  unfold pointer
  split
  · omega
  · rw [List.length_append]
    omega

theorem at_not_mem_intro (event : Event) : '@' ∉ event.intro := by
  have hdec : ∀ n : Int, '@' ∉ decimal n := fun n => not_mem_decimal (by decide) (by decide)
  have hlit : '@' ∉ lit "Store: 0x" ∧ '@' ∉ lit "Load: 0x" ∧ '@' ∉ lit " Size: " ∧
      '@' ∉ lit " ID: " ∧ '@' ∉ lit "CLFLUSH: " ∧ '@' ∉ lit " LEN: " ∧ '@' ∉ lit "SFENCE. " ∧
      '@' ∉ lit "Transaction begins. " ∧ '@' ∉ lit "Transaction Commits. " := by
        with_unfolding_all decide
  have hptr : ∀ n : BitVec 64, '@' ∉ pointer n := fun n =>
    not_mem_pointer (at_not_mem_hex n) (by with_unfolding_all decide) (by with_unfolding_all decide)
  cases event <;> simp [intro, hdec, hlit, hptr, at_not_mem_hex]

theorem count_head {event : Event} {place : Place} (h : event.place = some place) :
    (event.intro ++ place.position ++ event.joint).count ' ' + 1 = event.scopeColumn := by
  have hdec : ∀ n : Int, (decimal n).count ' ' = 0 := fun n =>
    List.count_eq_zero_of_not_mem (not_mem_decimal (by decide) (by decide))
  have hhex : ∀ n : BitVec 64, (hex n).count ' ' = 0 := fun n =>
    List.count_eq_zero_of_not_mem (blank_not_mem_hex n)
  have hptr : ∀ n : BitVec 64, (pointer n).count ' ' = 0 := fun n =>
    List.count_eq_zero_of_not_mem
      (not_mem_pointer (blank_not_mem_hex n) (by with_unfolding_all decide)
        (by with_unfolding_all decide))
  have hlit : (lit "Store: 0x").count ' ' = 1 ∧ (lit "Load: 0x").count ' ' = 1 ∧
      (lit " Size: ").count ' ' = 2 ∧ (lit " ID: ").count ' ' = 2 ∧
      (lit "CLFLUSH: ").count ' ' = 1 ∧ (lit " LEN: ").count ' ' = 2 ∧
      (lit "SFENCE. ").count ' ' = 1 ∧ (lit "Transaction begins. ").count ' ' = 2 ∧
      (lit "Transaction Commits. ").count ' ' = 2 ∧ (lit " Scope:").count ' ' = 1 ∧
      (lit " ; Scope:").count ' ' = 2 := by with_unfolding_all decide
  have hpos : place.position.count ' ' = 1 := by
    have hat : (lit "@Ln,Col: ").count ' ' = 1 := by with_unfolding_all decide
    simp [Place.position, List.count_append, hat, hdec]
  cases event <;> simp_all [Event.place, intro, joint, scopeColumn, List.count_append]

theorem length_head {event : Event} {place : Place} (h : event.place = some place) :
    (event.intro ++ place.position ++ event.joint).length + 1 ≤ 1023 := by
  have hlit : (lit "Store: 0x").length = 9 ∧ (lit "Load: 0x").length = 8 ∧
      (lit " Size: ").length = 7 ∧ (lit " ID: ").length = 5 ∧
      (lit "CLFLUSH: ").length = 9 ∧ (lit " LEN: ").length = 6 ∧
      (lit "SFENCE. ").length = 8 ∧ (lit "Transaction begins. ").length = 20 ∧
      (lit "Transaction Commits. ").length = 21 ∧ (lit " Scope:").length = 7 ∧
      (lit " ; Scope:").length = 9 ∧ (lit "@Ln,Col: ").length = 9 := by with_unfolding_all decide
  have hline := length_decimal_int place.line
  have hcol := length_decimal_int place.col
  have hpos : place.position.length ≤ 32 := by
    simp only [Place.position, List.length_append, List.length_cons, hlit]
    omega
  rw [List.length_append, List.length_append]
  have hintro : event.intro.length ≤ 100 := by
    cases event with
    | adding | freeing | dep => cases h
    | store addr size id _ | load addr size id _ =>
        have hhex := length_hex addr
        have hsize := length_decimal_int size
        have hid := length_decimal_int id
        simp only [intro, List.length_append, List.length_cons, List.length_nil, hlit]
        omega
    | clflush ptr size _ =>
        have hptr := length_pointer ptr
        have hsize := length_decimal_long size
        simp only [intro, List.length_append, List.length_cons, List.length_nil, hlit]
        omega
    | sfence | txBegins | txCommits => simp only [intro, hlit]; omega
  have hjoint : event.joint.length ≤ 9 := by
    cases event <;> simp only [joint, hlit] <;> omega
  omega

theorem columns_access {tag : Text} (htag : ' ' ∉ tag) (addr : BitVec 64) (size id : BitVec 32)
    (rest : Text) :
    column (tag ++ lit " 0x" ++ hex addr ++ lit " Size: " ++ decimal size.toInt ++ lit " ID: " ++
        decimal id.toInt ++ ' ' :: rest) 1 = some (lit "0x" ++ hex addr) ∧
      column (tag ++ lit " 0x" ++ hex addr ++ lit " Size: " ++ decimal size.toInt ++ lit " ID: " ++
        decimal id.toInt ++ ' ' :: rest) 5 = some (decimal id.toInt) := by
  have hblank : ∀ n : Int, ' ' ∉ decimal n := fun n => not_mem_decimal (by decide) (by decide)
  have haddr : lit " 0x" = ' ' :: lit "0x" := by with_unfolding_all decide
  have hsize : lit " Size: " = ' ' :: lit "Size: " := by with_unfolding_all decide
  have hid : lit " ID: " = lit " ID:" ++ [' '] := by with_unfolding_all decide
  have hzero : ' ' ∉ lit "0x" := by with_unfolding_all decide
  constructor
  · have hrow : tag ++ lit " 0x" ++ hex addr ++ lit " Size: " ++ decimal size.toInt ++
        lit " ID: " ++ decimal id.toInt ++ ' ' :: rest = tag ++ ' ' :: ((lit "0x" ++ hex addr) ++
          ' ' :: (lit "Size: " ++ decimal size.toInt ++ lit " ID: " ++ decimal id.toInt ++
            ' ' :: rest)) := by
      rw [haddr, hsize]
      simp
    rw [hrow, column_token (by rw [List.count_eq_zero_of_not_mem htag])
      (by simp [hzero, blank_not_mem_hex])]
  · have hrow : tag ++ lit " 0x" ++ hex addr ++ lit " Size: " ++ decimal size.toInt ++
        lit " ID: " ++ decimal id.toInt ++ ' ' :: rest = (tag ++ lit " 0x" ++ hex addr ++
          lit " Size: " ++ decimal size.toInt ++ lit " ID:") ++ ' ' ::
            (decimal id.toInt ++ ' ' :: rest) := by
      rw [hid]
      simp
    have hcount : (tag ++ lit " 0x" ++ hex addr ++ lit " Size: " ++ decimal size.toInt ++
        lit " ID:").count ' ' + 1 = 5 := by
      have hlit : (lit " 0x").count ' ' = 1 ∧ (lit " Size: ").count ' ' = 2 ∧
          (lit " ID:").count ' ' = 1 := by with_unfolding_all decide
      simp [List.count_append, hlit, List.count_eq_zero_of_not_mem htag,
        List.count_eq_zero_of_not_mem (hblank _),
        List.count_eq_zero_of_not_mem (blank_not_mem_hex _)]
    rw [hrow, column_token hcount (hblank _)]

theorem column_clflush (ptr size : BitVec 64) (rest : Text) :
    column (lit "CLFLUSH: " ++ pointer ptr ++ lit " LEN: " ++ decimal size.toInt ++ ' ' :: rest) 1 =
      some (pointer ptr) := by
  have hflush : lit "CLFLUSH: " = lit "CLFLUSH:" ++ [' '] := by with_unfolding_all decide
  have hlen : lit " LEN: " = ' ' :: lit "LEN: " := by with_unfolding_all decide
  have hrow : lit "CLFLUSH: " ++ pointer ptr ++ lit " LEN: " ++ decimal size.toInt ++ ' ' :: rest =
      lit "CLFLUSH:" ++ ' ' :: (pointer ptr ++ ' ' ::
        (lit "LEN: " ++ decimal size.toInt ++ ' ' :: rest)) := by
    rw [hflush, hlen]
    simp
  rw [hrow]
  exact column_token (by with_unfolding_all decide)
    (not_mem_pointer (blank_not_mem_hex ptr) (by with_unfolding_all decide)
      (by with_unfolding_all decide))

theorem formatSTOREs_eq {row scope add uid tid : Text} {r : Nat}
    (hscope : rowScope 9 row = some scope)
    (hadd : column row 1 = some add) (huid : column row 5 = some uid) (htid : rowTid row = tid) :
    formatSTOREs row r = some ⟨r, .store, .text add, tid, some uid, scope⟩ := by
  simp only [formatSTOREs, hscope, hadd, huid, htid, Option.bind_eq_bind, Option.bind_some,
    Option.pure_def]

/-- All fields but the scope are read back from a line, whatever its scope. -/
theorem format_eq {event : Event} {place : Place} (h : event.place = some place) (rest : Text)
    (n r : Nat) (scope : Text)
    (hscope : rowScope event.scopeColumn (event.intro ++ place.position ++ event.joint ++
      ' ' :: (rest ++ lit "<Thread ID:" ++ digits n ++ lit ">\n")) = some scope) :
    ∃ op, event.format (event.intro ++ place.position ++ event.joint ++
        ' ' :: (rest ++ lit "<Thread ID:" ++ digits n ++ lit ">\n")) r =
      some ⟨r, op, event.add, digits n, event.uid, scope⟩ := by
  have htid : rowTid (event.intro ++ place.position ++ event.joint ++
      ' ' :: (rest ++ lit "<Thread ID:" ++ digits n ++ lit ">\n")) = digits n := by
    have hrow := rowTid_eq (event.intro ++ place.position ++ event.joint ++ ' ' :: rest) n
    simpa using hrow
  cases event with
  | adding | freeing | dep => cases h
  | store addr size id place' =>
      have htag : lit "Store: 0x" = lit "Store:" ++ lit " 0x" := by with_unfolding_all decide
      obtain ⟨hadd, huid⟩ :=
        @columns_access (lit "Store:") (by with_unfolding_all decide) addr size id
        (place.position ++ joint (.store addr size id place') ++
          ' ' :: (rest ++ lit "<Thread ID:" ++ digits n ++ lit ">\n"))
      refine ⟨.store, formatSTOREs_eq hscope ?_ ?_ htid⟩
      · rw [← hadd]
        simp [intro, htag]
      · rw [← huid]
        simp [intro, htag]
  | load addr size id place' =>
      have htag : lit "Load: 0x" = lit "Load:" ++ lit " 0x" := by with_unfolding_all decide
      obtain ⟨hadd, huid⟩ :=
        @columns_access (lit "Load:") (by with_unfolding_all decide) addr size id
        (place.position ++ joint (.load addr size id place') ++
          ' ' :: (rest ++ lit "<Thread ID:" ++ digits n ++ lit ">\n"))
      refine ⟨.store, formatSTOREs_eq hscope ?_ ?_ htid⟩
      · rw [← hadd]
        simp [intro, htag]
      · rw [← huid]
        simp [intro, htag]
  | clflush ptr size place' =>
      have hadd := column_clflush ptr size (place.position ++ joint (.clflush ptr size place') ++
        ' ' :: (rest ++ lit "<Thread ID:" ++ digits n ++ lit ">\n"))
      have hrow : intro (.clflush ptr size place') ++ place.position ++
          joint (.clflush ptr size place') ++ ' ' :: (rest ++ lit "<Thread ID:" ++ digits n ++
            lit ">\n") = lit "CLFLUSH: " ++ pointer ptr ++ lit " LEN: " ++ decimal size.toInt ++
          ' ' :: (place.position ++ joint (.clflush ptr size place') ++ ' ' ::
            (rest ++ lit "<Thread ID:" ++ digits n ++ lit ">\n")) := by
        simp [intro]
      refine ⟨.flush, ?_⟩
      simp only [scopeColumn] at hscope
      simp only [format, formatFLUSH, hscope, htid, Option.bind_eq_bind, Option.bind_some,
        Option.pure_def]
      rw [hrow, hadd]
      rfl
  | sfence place' =>
      refine ⟨.fence, ?_⟩
      simp only [scopeColumn] at hscope
      simp only [format, formatFENCE, hscope, htid, Option.bind_eq_bind, Option.bind_some,
        Option.pure_def, add, uid]
  | txBegins place' | txCommits place' =>
      simp only [scopeColumn] at hscope
      simp only [format, formatTransactions, hscope, htid, Option.bind_eq_bind, Option.bind_some,
        Option.pure_def, add, uid]
      exact ⟨_, rfl⟩

end Event

section ReadBack

variable {event : Event} {place : Place} {tid : BitVec 64}

/-- The place in the line where the scope starts. -/
def scopeStart (event : Event) (place : Place) : Nat :=
  (event.intro ++ place.position ++ event.joint).length + 1

theorem length_head_blank (event : Event) (place : Place) :
    (event.intro ++ place.position ++ event.joint ++ [' ']).length = scopeStart event place :=
  List.length_append

theorem tail_eq (event : Event) : ∃ blanks, event.tail = ';' :: ' ' :: blanks := by
  have htwo : lit ";  " = [';', ' ', ' '] := by with_unfolding_all decide
  have hone : lit "; " = [';', ' '] := by with_unfolding_all decide
  cases event with
  | clflush | sfence => exact ⟨[' '], htwo⟩
  | _ => exact ⟨[], hone⟩

theorem logLine_eq (h : event.place = some place) :
    logLine tid event = event.intro ++ place.position ++ event.joint ++
      ' ' :: ((place.scope ++ event.tail).take (1023 - scopeStart event place) ++
        lit "<Thread ID:" ++ digits tid.toNat ++ lit ">\n") := by
  have hhead := Event.length_head h
  have hcut : (event.intro ++ place.position ++ event.joint ++
      ' ' :: (place.scope ++ event.tail)).take 1023 = event.intro ++ place.position ++ event.joint ++
        ' ' :: (place.scope ++ event.tail).take (1023 - scopeStart event place) := by
    rw [List.append_cons, List.take_append, length_head_blank,
      List.take_of_length_le (by rw [length_head_blank]; exact hhead)]
    exact (List.append_cons ..).symm
  rw [logLine, Event.text_eq h, hcut]
  simp

theorem legible_iff (h : event.place = some place) :
    Legible event place ↔ ' ' ∉ place.scope ∧ ';' ∉ place.scope ∧
      (place.scope.length + 2 ≤ 1023 - scopeStart event place ∨
        place.scope.drop (1023 - scopeStart event place) = lit "<Thread") := by
  have hhead : scopeStart event place ≤ 1023 := Event.length_head h
  have hlength : event.text.length =
      scopeStart event place + place.scope.length + event.tail.length := by
    rw [Event.text_eq h]
    simp [scopeStart]
    omega
  have hdrop : event.text.drop 1023 =
      (place.scope ++ event.tail).drop (1023 - scopeStart event place) := by
    rw [Event.text_eq h, List.append_cons, List.drop_append, length_head_blank,
      List.drop_eq_nil_of_le (by rw [length_head_blank]; exact hhead), List.nil_append]
  have hthread : (lit "<Thread").length = 7 := by with_unfolding_all decide
  unfold Legible
  refine and_congr_right fun _ => and_congr_right fun _ => or_congr ?_ ?_
  · omega
  · rw [hdrop, List.drop_append]
    constructor
    · intro heq
      have hsum := congrArg List.length heq
      simp only [List.length_append, List.length_drop, hthread] at hsum
      rw [show 1023 - scopeStart event place - place.scope.length = 0 by omega, List.drop_zero]
        at heq
      exact List.append_cancel_right heq
    · intro heq
      have hsum := congrArg List.length heq
      rw [List.length_drop, hthread] at hsum
      rw [heq, show 1023 - scopeStart event place - place.scope.length = 0 by omega,
        List.drop_zero]

/-- The formatted line, whose scope string is right exactly if the line is legible. -/
theorem format_logLine (h : event.place = some place) (tid : BitVec 64) (r : Nat) :
    ∃ op scope, event.format (logLine tid event) r =
        some ⟨r, op, event.add, digits tid.toNat, event.uid, scope⟩ ∧
      (scope = place.scope ++ '_' :: decimal place.line.toInt ↔ Legible event place) := by
  obtain ⟨blanks, htail⟩ := tail_eq event
  have hthread : lit "<Thread ID:" = lit "<Thread" ++ ' ' :: lit "ID:" := by
    with_unfolding_all decide
  rw [logLine_eq h]
  have hscope := @rowScope_eq ((place.scope ++ event.tail).take (1023 - scopeStart event place) ++
    lit "<Thread ID:" ++ digits tid.toNat ++ lit ">\n") event.intro event.scopeColumn place
    event.joint event.at_not_mem_intro (Event.count_head h)
  obtain ⟨op, hformat⟩ := Event.format_eq h _ tid.toNat r _ hscope
  refine ⟨op, _, hformat, ?_⟩
  rw [legible_iff h, List.append_left_inj, htail, hthread, ← @scope_column_iff place.scope blanks
    (lit "ID:" ++ digits tid.toNat ++ lit ">\n")]
  simp only [List.append_assoc, List.cons_append]

theorem readsBack_iff_legible (h : event.place = some place) (tid : BitVec 64) (r : Nat) :
    ReadsBack event place tid r ↔ Legible event place := by
  obtain ⟨op, scope, hformat, hlegible⟩ := format_logLine h tid r
  rw [ReadsBack, hformat]
  constructor
  · rintro ⟨stmt, heq, -, -, -, hscope⟩
    rw [← Option.some.inj heq] at hscope
    exact hlegible.mp hscope
  · intro hleg
    exact ⟨_, rfl, rfl, rfl, rfl, hlegible.mpr hleg⟩

/-- The scope string determines scope and line. -/
theorem scopeString_inj {scope scope' : Text} {line line' : Int}
    (heq : scope ++ '_' :: decimal line = scope' ++ '_' :: decimal line') :
    scope = scope' ∧ line = line' := by
  have hunder : ∀ n : Int, '_' ∉ decimal n := fun n => not_mem_decimal (by decide) (by decide)
  obtain ⟨hscope, hline⟩ := split_last_underscore (hunder line) (hunder line') heq
  exact ⟨hscope, decimal_injective hline⟩

end ReadBack

/-- **The formatter reads back what the runtime writes** exactly for the legible lines, and the
scope strings of legible lines tell scopes and lines of the program apart. -/
theorem format_readsBack {event : Event} {place : Place} (h : event.place = some place)
    (tid : BitVec 64) (r : Nat) :
    (ReadsBack event place tid r ↔ Legible event place) ∧
    ∀ event' place' tid' r' stmt stmt', event'.place = some place' →
      Legible event place → Legible event' place' →
      event.format (logLine tid event) r = some stmt →
      event'.format (logLine tid' event') r' = some stmt' → stmt.scope = stmt'.scope →
      place.scope = place'.scope ∧ place.line = place'.line := by
  refine ⟨readsBack_iff_legible h tid r, ?_⟩
  intro event' place' tid' r' stmt stmt' h' hleg hleg' hstmt hstmt' heq
  obtain ⟨op, scope, hformat, hscope⟩ := format_logLine h tid r
  obtain ⟨op', scope', hformat', hscope'⟩ := format_logLine h' tid' r'
  rw [hstmt, Option.some.injEq] at hformat
  rw [hstmt', Option.some.injEq] at hformat'
  rw [hformat, hformat', hscope.mpr hleg, hscope'.mpr hleg'] at heq
  obtain ⟨hsame, hline⟩ := scopeString_inj heq
  exact ⟨hsame, BitVec.toInt_inj.mp hline⟩

/-- `Store: 0x1a1c850 Size: 4 ID: 70 @Ln,Col: 117,26 Scope: insert; `. -/
def insertEvent : Event := .store 0x1a1c850 4 70 ⟨117, 26, lit "insert"⟩

theorem format_readsBack_insert :
    ReadsBack insertEvent ⟨117, 26, lit "insert"⟩ 140386890233600 1 := by
  refine (@format_readsBack insertEvent _ rfl 140386890233600 1).1.mpr ?_
  exact ⟨by with_unfolding_all decide, by with_unfolding_all decide,
    .inl (by with_unfolding_all decide)⟩

/-- `Load: 0x7f38403c05d8 Size: 8 ID: 1329 @Ln,Col: 128,16 Scope: operator unsigned long; `. -/
def operatorEvent : Event := .load 0x7f38403c05d8 8 1329 ⟨128, 16, lit "operator unsigned long"⟩

theorem not_readsBack_operator :
    ¬ReadsBack operatorEvent ⟨128, 16, lit "operator unsigned long"⟩ 139888889608256 1 := by
  rw [readsBack_iff_legible rfl]
  rintro ⟨hblank, -⟩
  exact hblank (by with_unfolding_all decide)

end PMBugRepair
