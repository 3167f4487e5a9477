import PMBugRepair.Formatter.Once
import PMBugRepair.Runtime.Deps

/-!
# From a registered dependence to the trace

A log names every source of an access, the formatter keeps the one that was named last. The runtime
names them in ascending order, so what comes out for an instruction is the source with the greatest
number at its last access, as the address that this source accessed first.
-/

namespace PMBugRepair

open Strings (Text lit)
open Pm (log after)

section Lines

variable {tid : BitVec 64} {entry : Entry} {src dest : BitVec 32}

/-- The columns of an access. -/
theorem columns_of_access {e : Event} {id : BitVec 32} (h : e.access = some id) (tid : BitVec 64) :
    column (entryLine tid (.event e)) 5 = some (decimal id.toInt) ∧
      ∃ add, e.add = .text add ∧ column (entryLine tid (.event e)) 1 = some add := by
  obtain ⟨place, hplace, hformat, huid⟩ : ∃ place, e.place = some place ∧
      e.format = formatSTOREs ∧ e.uid = some (decimal id.toInt) := by
    cases e with
    | store addr size id' place | load addr size id' place =>
        obtain rfl : id' = id := Option.some.inj h
        exact ⟨place, rfl, rfl, rfl⟩
    | _ => cases h
  obtain ⟨op, scope, hstmt, -⟩ := format_logLine hplace tid 0
  rw [hformat] at hstmt
  obtain ⟨-, -, uid, hcolumn, heq⟩ := formatSTOREs_spec hstmt
  obtain ⟨⟨add, hadd, hvalue⟩, -⟩ := columns_of_formatSTOREs hstmt
  rw [entryLine_event]
  exact ⟨by rw [hcolumn, ← heq, huid], add, hvalue, hadd⟩

theorem columns_of_dep (tid : BitVec 64) (src dest : BitVec 32) :
    column (entryLine tid (.event (.dep src dest))) 2 = some (decimal src.toInt) ∧
      column (entryLine tid (.event (.dep src dest))) 4 =
        some (decimal dest.toInt ++ [';']) := by
  have hlit : lit "DEP: SrcID: " = lit "DEP: SrcID:" ++ [' '] ∧
      lit " DestID: " = ' ' :: (lit "DestID:" ++ [' ']) ∧ lit "; " = [';'] ++ [' '] := by
    with_unfolding_all decide
  have hcount : (lit "DEP: SrcID:").count ' ' = 1 ∧ (lit "DestID:").count ' ' = 0 := by
    with_unfolding_all decide
  have hblank : ∀ n : Int, ' ' ∉ decimal n := fun n => not_mem_decimal (by decide) (by decide)
  have hlength : (Event.dep src dest).text.length ≤ 1023 := by
    have hconst : (lit "DEP: SrcID: ").length = 12 ∧ (lit " DestID: ").length = 9 ∧
        (lit "; ").length = 2 := by with_unfolding_all decide
    have hsrc := length_decimal_int src
    have hdest := length_decimal_int dest
    simp only [Event.text, List.length_append, hconst]
    omega
  rw [entryLine, Entry.text, List.take_of_length_le hlength]
  constructor
  · have hrow : (Event.dep src dest).text ++ lit "<Thread ID:" ++ digits tid.toNat ++ lit ">\n" =
        lit "DEP: SrcID:" ++ ' ' :: (decimal src.toInt ++ ' ' :: (lit "DestID:" ++ [' '] ++
          decimal dest.toInt ++ lit "; " ++ lit "<Thread ID:" ++ digits tid.toNat ++ lit ">\n")) := by
      simp [Event.text, hlit]
    rw [hrow]
    exact column_token (by rw [hcount.1]) (hblank _)
  · have hrow : (Event.dep src dest).text ++ lit "<Thread ID:" ++ digits tid.toNat ++ lit ">\n" =
        (lit "DEP: SrcID:" ++ [' '] ++ decimal src.toInt ++ ' ' :: lit "DestID:") ++ ' ' ::
          ((decimal dest.toInt ++ [';']) ++ ' ' ::
            (lit "<Thread ID:" ++ digits tid.toNat ++ lit ">\n")) := by
      simp [Event.text, hlit]
    rw [hrow]
    refine column_token ?_ (by simp [hblank])
    simp [List.count_append, hcount, List.count_eq_zero_of_not_mem (hblank _)]

theorem takeWhile_decimal (n : Int) :
    (decimal n ++ [';']).takeWhile (· ≠ ';') = decimal n := by
  have hsemicolon : ';' ∉ decimal n := not_mem_decimal (by decide) (by decide)
  rw [List.takeWhile_append_of_pos]
  · simp
  · intro c hc
    have hne : c ≠ ';' := by
      rintro rfl
      exact hsemicolon hc
    simpa using hne

/-- Only the row of an access has one of the words `Load` and `Store`, and only that of a dependence
is one for the formatter. -/
theorem words_of_entry (hplain : entry.Plain) (tid : BitVec 64) :
    (lit "Load" <:+: entryLine tid entry ∨ lit "Store" <:+: entryLine tid entry ↔
      entry.access ≠ none) ∧
      (IsDep (entryLine tid entry) ↔ entry.isDep = true) := by
  obtain ⟨hload, hstore, hflush, hfence, htx, hdep⟩ := hplain.infix_iff tid
  simp only [IsDep, hload, hstore, hflush, hfence, htx, hdep]
  have hothers : ∀ tag ∈ [lit "Adding", lit "FUNC_BEGIN_1:", lit "FUNC_END:", lit "Simulated",
      lit "TX_BEGIN;", lit "TX_END;", lit "TX_ADD:", lit "CLFLUSH:", lit "SFENCE.",
      lit "Transaction", lit "DEP:"], ¬(lit "Load" <:+: tag ∨ lit "Store" <:+: tag) := by
    with_unfolding_all decide
  have hnodep : ∀ tag ∈ [lit "Adding", lit "FUNC_BEGIN_1:", lit "FUNC_END:", lit "Simulated",
      lit "TX_BEGIN;", lit "TX_END;", lit "TX_ADD:", lit "Store:", lit "Load:", lit "CLFLUSH:",
      lit "SFENCE.", lit "Transaction"], ¬lit "DEP" <:+: tag := by with_unfolding_all decide
  have haccess : lit "Store" <:+: lit "Store:" ∧ lit "Load" <:+: lit "Load:" := by
    with_unfolding_all decide
  have hrow : ¬lit "Store" <:+: lit "DEP:" ∧ ¬lit "FLUSH" <:+: lit "DEP:" ∧
      ¬lit "FENCE" <:+: lit "DEP:" ∧ ¬lit "Transaction" <:+: lit "DEP:" ∧
      lit "DEP" <:+: lit "DEP:" := by with_unfolding_all decide
  cases entry with
  | event e =>
      cases e with
      | dep src dest =>
          exact ⟨iff_of_false (hothers _ (by simp [Entry.tag])) (fun hne => hne rfl),
            iff_of_true hrow rfl⟩
      | store => exact ⟨iff_of_true (.inr haccess.1) (by simp [Entry.access, Event.access]),
          iff_of_false (fun h => hnodep _ (by simp [Entry.tag]) h.2.2.2.2) (by simp [Entry.isDep])⟩
      | load => exact ⟨iff_of_true (.inl haccess.2) (by simp [Entry.access, Event.access]),
          iff_of_false (fun h => hnodep _ (by simp [Entry.tag]) h.2.2.2.2) (by simp [Entry.isDep])⟩
      | _ => exact ⟨iff_of_false (hothers _ (by simp [Entry.tag])) (fun hne => hne rfl),
          iff_of_false (fun h => hnodep _ (by simp [Entry.tag]) h.2.2.2.2) (by simp [Entry.isDep])⟩
  | _ => exact ⟨iff_of_false (hothers _ (by simp [Entry.tag])) (fun hne => hne rfl),
      iff_of_false (fun h => hnodep _ (by simp [Entry.tag]) h.2.2.2.2) (by simp [Entry.isDep])⟩

/-- An access is one of this instruction. -/
theorem accessOf_iff (hplain : entry.Plain) :
    AccessOf (entryLine tid entry) (decimal dest.toInt) ↔ entry.access = some dest := by
  rw [AccessOf, (words_of_entry hplain tid).1]
  constructor
  · rintro ⟨hne, hcolumn⟩
    obtain ⟨id, hid⟩ := Option.ne_none_iff_exists'.mp hne
    cases entry with
    | event e =>
        rw [(columns_of_access hid tid).1, Option.some_inj] at hcolumn
        obtain rfl := BitVec.toInt_inj.mp (decimal_injective hcolumn)
        exact hid
    | _ => cases hid
  · intro haccess
    cases entry with
    | event e => exact ⟨by simp [haccess], (columns_of_access haccess tid).1⟩
    | _ => cases haccess

/-- A dependence of the instruction names its source. -/
theorem names_dep (tid : BitVec 64) (src dest : BitVec 32) (before : List Text) :
    Names before (entryLine tid (.event (.dep src dest))) (decimal dest.toInt)
      (decimal src.toInt) := by
  have hplain : (Entry.event (.dep src dest)).Plain := by
    simp [Entry.Plain, Entry.names, Event.place]
  obtain ⟨hsrc, hdest⟩ := columns_of_dep tid src dest
  have hnames : (column (entryLine tid (.event (.dep src dest))) 4).map
      (·.takeWhile (· ≠ ';')) = some (decimal dest.toInt) := by
    rw [hdest, Option.map_some, takeWhile_decimal]
  rw [Names, if_pos ⟨(words_of_entry hplain tid).2.mpr rfl, hnames⟩]
  exact hsrc

/-- What is no access of the instruction and no dependence of it names nothing. -/
theorem not_names (hplain : entry.Plain) (haccess : entry.access ≠ some dest)
    (hdep : ∀ src, entry ≠ .event (.dep src dest)) (before : List Text) (source : Text) :
    ¬Names before (entryLine tid entry) (decimal dest.toInt) source := by
  unfold Names
  split
  · rename_i hrow
    obtain ⟨hisDep, hcolumn⟩ := hrow
    rw [(words_of_entry hplain tid).2] at hisDep
    cases entry with
    | event e =>
        cases e with
        | dep src dest' =>
            rw [(columns_of_dep tid src dest').2, Option.map_some, takeWhile_decimal,
              Option.some_inj] at hcolumn
            obtain rfl := BitVec.toInt_inj.mp (decimal_injective hcolumn)
            exact absurd rfl (hdep src)
        | _ => cases hisDep
    | _ => cases hisDep
  · rintro ⟨hload, hcolumn, -⟩
    exact haccess ((accessOf_iff hplain).mp ⟨.inl hload, hcolumn⟩)

end Lines

section Log

variable {calls : List (BitVec 64 × PmCall)} {before after rest lines : List (BitVec 64 × Entry)}
  {tid : BitVec 64} {line : Entry} {src dest : BitVec 32} {srcs : List (BitVec 32)}

theorem not_mem_accesses (h : dest ∉ accesses lines) {x : BitVec 64 × Entry} (hx : x ∈ lines) :
    x.2.access ≠ some dest :=
  fun haccess => h (List.mem_filterMap.mpr ⟨x, hx, haccess⟩)

/-- Behind the last access of an instruction and its sources there is no dependence of it. -/
theorem not_dep_behind
    (hlog : log calls = before ++ (tid, line) ::
      (srcs.map (fun src => (tid, Entry.event (.dep src dest))) ++ rest))
    (hrest : ∀ next ∈ rest.head?, next.2.isDep = false) (hlast : dest ∉ accesses rest) :
    ∀ later ∈ rest, ∀ src, later.2 ≠ .event (.dep src dest) := by
  rintro ⟨tid', entry⟩ hmem src rfl
  obtain ⟨between, right, rfl⟩ := List.append_of_mem hmem
  set known := before ++ (tid, line) ::
    srcs.map (fun src => (tid, Entry.event (.dep src dest))) with hknown
  have hsplit : log calls = (known ++ between) ++ (tid', .event (.dep src dest)) :: right := by
    rw [hlog, hknown]
    simp
  obtain ⟨front, line', deps, heq, haccess, hdeps⟩ := access_of_dependence hsplit
  -- the access stands in front of the rest, so there are only dependences up to this one
  have hbetween : ∀ x ∈ between, x ∈ deps := by
    rcases List.append_eq_append_iff.mp heq with ⟨middle, rfl, hmiddle⟩ | ⟨middle, hmiddle, hdeps'⟩
    · exact absurd haccess (not_mem_accesses hlast (x := (tid', line')) (by simp [hmiddle]))
    · cases middle with
      | nil =>
          have hin : (tid', line') ∈ between := by
            rw [← List.nil_append between, ← hdeps']
            exact List.mem_cons_self
          exact absurd haccess (not_mem_accesses hlast (List.mem_append_left _ hin))
      | cons y middle =>
          intro x hx
          rw [(List.cons.inj hdeps').2]
          exact List.mem_append_right _ hx
  cases between with
  | nil => simpa [Entry.isDep] using hrest (tid', .event (.dep src dest)) (by simp)
  | cons x between =>
      obtain ⟨src', rfl⟩ := hdeps x (hbetween x List.mem_cons_self)
      simpa [Entry.isDep] using hrest (tid', .event (.dep src' dest)) (by simp)

/-- The greatest source of the last access is named last. -/
theorem lastNamed_of_access (hplain : ∀ line ∈ log calls, line.2.Plain)
    (hlog : log calls = before ++ (tid, line) :: after) (haccess : line.access = some dest)
    (hlast : dest ∉ accesses after) (hsrc : SourceAt calls before tid dest src)
    (hmax : ∀ other, SourceAt calls before tid dest other → other.toInt ≤ src.toInt) :
    LastNamed (rowsOf (log calls)) (decimal dest.toInt) (decimal src.toInt) := by
  obtain ⟨srcs, rest, rfl, hrest, hsorted, hmem⟩ := dependences_of_access hlog haccess
  rw [accesses_append, List.mem_append, not_or] at hlast
  have hnone := not_dep_behind hlog hrest hlast.2
  obtain ⟨others, tail, rfl⟩ := List.append_of_mem ((hmem src).mpr hsrc)
  obtain rfl : tail = [] := by
    cases tail with
    | nil => rfl
    | cons y tail =>
        have hle := hmax y ((hmem y).mp (by simp))
        have hlt := List.rel_of_pairwise_cons (List.pairwise_append.mp hsorted).2.1
          (List.mem_cons_self (a := y) (l := tail))
        omega
  refine ⟨rowsOf (before ++ (tid, line) ::
    others.map (fun src => (tid, Entry.event (.dep src dest)))), _, rowsOf rest, ?_,
    names_dep tid src dest _, ?_⟩
  · rw [hlog]
    simp [rowsOf]
  · intro left later right heq source
    obtain ⟨front, tail, rfl, -, htail⟩ := List.map_eq_append_iff.mp heq
    obtain ⟨x, back, rfl, rfl, -⟩ := List.map_eq_cons_iff.mp htail
    exact not_names (hplain x (by simp [hlog])) (not_mem_accesses hlast.2 (by simp))
      (hnone x (by simp)) _ source

/-- What an instruction accessed first. -/
theorem exists_firstAccess (hplain : ∀ line ∈ lines, line.2.Plain) (hmem : src ∈ accesses lines) :
    ∃ earlier tid first later add, lines = earlier ++ (tid, Entry.event first) :: later ∧
      first.access = some src ∧ src ∉ accesses earlier ∧ first.add = .text add ∧
      FirstAccess (rowsOf lines) (decimal src.toInt) add := by
  have hfind : ∃ x, lines.find? (fun x => x.2.access = some src) = some x := by
    obtain ⟨x, hx, haccess⟩ := List.mem_filterMap.mp hmem
    exact Option.isSome_iff_exists.mp (List.find?_isSome.mpr ⟨x, hx, by simpa using haccess⟩)
  obtain ⟨⟨tid, entry⟩, hfind⟩ := hfind
  obtain ⟨haccess, earlier, later, rfl, hearlier⟩ := List.find?_eq_some_iff_append.mp hfind
  have haccess : entry.access = some src := by simpa using haccess
  cases entry with
  | event first =>
      obtain ⟨-, add, hadd, hcolumn⟩ := columns_of_access haccess tid
      have hnot : ∀ x ∈ earlier, x.2.access ≠ some src := by simpa using hearlier
      refine ⟨earlier, tid, first, later, add, rfl, haccess, ?_, hadd, ?_⟩
      · intro hshown
        obtain ⟨x, hx, heq⟩ := List.mem_filterMap.mp hshown
        exact hnot x hx heq
      · refine ⟨rowsOf earlier, entryLine tid (.event first), rowsOf later, by simp [rowsOf],
          (accessOf_iff (hplain (tid, .event first) (by simp))).mpr haccess, hcolumn, ?_⟩
        intro row hrow
        obtain ⟨x, hx, rfl⟩ := List.mem_map.mp hrow
        rw [accessOf_iff (hplain x (by simp [hx]))]
        exact hnot x hx
  | _ => cases haccess

end Log

/-- **From a registered dependence to the trace.** Whatever calls the threads make, if the log shows
the last access of an instruction with some source, then the formatter gives all statements of the
instruction the address that the greatest of these sources accessed first. -/
theorem format_dependence {calls : List (BitVec 64 × PmCall)}
    {before after : List (BitVec 64 × Entry)} {tid : BitVec 64} {line : Entry} {src dest : BitVec 32}
    (hplain : ∀ line ∈ log calls, line.2.Plain)
    (hlog : log calls = before ++ (tid, line) :: after) (haccess : line.access = some dest)
    (hlast : dest ∉ accesses after) (hsrc : SourceAt calls before tid dest src)
    (hmax : ∀ other, SourceAt calls before tid dest other → other.toInt ≤ src.toInt) :
    ∃ earlier tid' first later, log calls = earlier ++ (tid', Entry.event first) :: later ∧
      first.access = some src ∧ src ∉ accesses earlier ∧
      ∃ reader formatted, fileReader (rowsOf (log calls)) = some reader ∧
        format reader.contents (getThreads reader.contents) reader.dependencies reader.loads =
          some formatted ∧
        List.Forall₂ (fun stmt element => stmt.op = .store →
          stmt.uid = some (decimal dest.toInt) → element.dep = first.add)
          (reader.contents.filter (·.op ≠ .load)) formatted := by
  have hshown : src ∈ accesses (log calls) := by
    rcases hsrc.2 with heq | hmem
    · rw [hlog, heq]
      exact List.mem_filterMap.mpr ⟨(tid, line), by simp, haccess⟩
    · rw [hlog, accesses_append]
      exact List.mem_append_left _ hmem
  obtain ⟨earlier, tid', first, later, add, hfirst, hfirst', hearlier, hadd, hfirstAccess⟩ :=
    exists_firstAccess hplain hshown
  obtain ⟨reader, hreader, -⟩ := fileReader_stutters hplain
  obtain ⟨formatted, hformatted, hall⟩ := exists_format reader.contents reader.dependencies
    reader.loads
  refine ⟨earlier, tid', first, later, hfirst, hfirst', hearlier, reader, formatted, hreader,
    hformatted, hall.imp fun stmt element hdep hop huid => ?_⟩
  rw [hdep, hadd, dependency_eq_iff hreader hop huid]
  exact ⟨_, lastNamed_of_access hplain hlog haccess hlast hsrc hmax, hfirstAccess⟩

/-- Two stores by the instructions 70 and 71, and a load that depends on both. -/
def dependentCalls : List (BitVec 64 × PmCall) :=
  [(1, .call .pmcInitialize), (1, .call (.malloc 0x1000 16)), (1, .call (.depAdd 70 88)),
    (1, .call (.depAdd 71 88)),
    (1, .call (.printStoreAddr 0x1000 4 70 ⟨117, 12, lit "insert"⟩)),
    (1, .call (.printStoreAddr 0x1004 4 71 ⟨118, 12, lit "insert"⟩)),
    (1, .call (.printLoadAddr 0x1004 4 88 ⟨152, 12, lit "get"⟩))]

theorem log_dependentCalls : log dependentCalls =
    [(1, .event (.adding 0x1000 0x1010)),
      (1, .event (.store 0x1000 4 70 ⟨117, 12, lit "insert"⟩)),
      (1, .event (.store 0x1004 4 71 ⟨118, 12, lit "insert"⟩)),
      (1, .event (.load 0x1004 4 88 ⟨152, 12, lit "get"⟩)), (1, .event (.dep 70 88)),
      (1, .event (.dep 71 88))] := by
  with_unfolding_all decide

/-- The load gets the address that 71 stored to. -/
theorem format_dependence_dependentCalls :
    ∃ reader formatted, fileReader (rowsOf (log dependentCalls)) = some reader ∧
      format reader.contents (getThreads reader.contents) reader.dependencies reader.loads =
        some formatted ∧
      List.Forall₂ (fun stmt element => stmt.op = .store →
        stmt.uid = some (decimal (88 : BitVec 32).toInt) → element.dep = .text (lit "0x1004"))
        (reader.contents.filter (·.op ≠ .load)) formatted := by
  set before := (log dependentCalls).take 3 with hbefore
  have hsplit : log dependentCalls = before ++
      (1, .event (.load 0x1004 4 88 ⟨152, 12, lit "get"⟩)) ::
        [(1, .event (.dep 70 88)), (1, .event (.dep 71 88))] := by
    rw [hbefore, log_dependentCalls]
    rfl
  have hsource : SourceAt dependentCalls before 1 88 71 :=
    ⟨⟨dependentCalls.take 6, _, [], rfl, by with_unfolding_all decide,
      by with_unfolding_all decide, dependentCalls.take 3, 1, _, rfl, 1, by simp [dependentCalls]⟩,
      .inr (by rw [hbefore, log_dependentCalls]; with_unfolding_all decide)⟩
  have hmax : ∀ other, SourceAt dependentCalls before 1 88 other →
      other.toInt ≤ (71 : BitVec 32).toInt := by
    rintro other ⟨⟨prior, call, later, heq, -, -, first, tid, between, rfl, -⟩, -⟩
    have hmem : (tid, PmCall.call (.depAdd other 88)) ∈ dependentCalls := by
      rw [heq]
      simp
    have hcases : tid = 1 ∧ (other = 70 ∨ other = 71) := by
      simpa [dependentCalls, ← and_or_left] using hmem
    rcases hcases.2 with rfl | rfl <;> decide
  have hplain : ∀ line ∈ log dependentCalls, line.2.Plain := by
    rw [log_dependentCalls]
    unfold Entry.Plain
    with_unfolding_all decide
  obtain ⟨earlier, tid, first, later, hfirst, haccess, -, reader, formatted, hreader, hformatted,
    hall⟩ := format_dependence hplain hsplit rfl (by with_unfolding_all decide) hsource hmax
  have hadd : first.add = .text (lit "0x1004") := by
    have hmem : (tid, Entry.event first) ∈ log dependentCalls := by
      rw [hfirst]
      simp
    rw [log_dependentCalls] at hmem
    simp only [List.mem_cons, Prod.mk.injEq, Entry.event.injEq, List.not_mem_nil, or_false] at hmem
    rcases hmem with ⟨-, rfl⟩ | ⟨-, rfl⟩ | ⟨-, rfl⟩ | ⟨-, rfl⟩ | ⟨-, rfl⟩ | ⟨-, rfl⟩
    · cases haccess
    · exact absurd haccess (by decide)
    · with_unfolding_all decide
    · exact absurd haccess (by decide)
    · cases haccess
    · cases haccess
  refine ⟨reader, formatted, hreader, hformatted, hall.imp fun stmt element hdep hop huid => ?_⟩
  rw [hdep hop huid, hadd]

end PMBugRepair
