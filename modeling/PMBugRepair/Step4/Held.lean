import PMBugRepair.Step4.Core

/-!
# Stores that are locked already

Before it copies anything, `appendTraceWithLocks` scans the trace for the locks that are open at the
two stores. The first scan says which of them is locked outside a transaction, the second one finds
a lock that is open at both, which is then removed together with the next unlock.
-/

namespace PMBugRepair

/-- Behind these statements something is open: one of them opened it and no later one closed it. -/
def OpenAfter (opens closes : Opcode) (pre : Trace) : Prop :=
  ∃ before x behind, pre = before ++ x :: behind ∧ x.op = opens ∧ ∀ y ∈ behind, y.op ≠ closes

/-- The store stands in a lock section and in no transaction. -/
def Locked (trace : Trace) (store : Stmt) : Prop :=
  ∃ pre post, trace = pre ++ store :: post ∧ OpenAfter .lock .unlock pre ∧
    ¬OpenAfter .txBegin .txCommit pre

/-- One lock is open at both stores. -/
structure SharedBy (first second : Stmt) (pre : Trace) (lock : Stmt) (mid between post : Trace)
    (trace : Trace) : Prop where
  split : trace = pre ++ lock :: (mid ++ first :: (between ++ second :: post))
  op : lock.op = .lock
  plain : ∀ x ∈ mid ++ between, x.op ≠ .lock ∧ x.op ≠ .unlock

/-- What is left of the trace when the lock and the next unlock are gone. -/
def unshared (first second : Stmt) (pre mid between post : Trace) : Trace :=
  pre ++ (mid ++ first :: (between ++ second :: post.eraseP fun x => x.op = .unlock))

/-! ### The first scan -/

/-- The flag that the scan keeps for locks and for transactions. -/
def openFlag (opens closes : Opcode) (flag : Bool) : Trace → Bool
  | [] => flag
  | x :: rest =>
      openFlag opens closes
        (if x.op = opens then true else if x.op = closes then false else flag) rest

theorem exists_cons_split {y : Stmt} {rest : Trace} {P : Trace → Stmt → Prop} :
    (∃ pre x post, y :: rest = pre ++ x :: post ∧ P pre x) ↔
      P [] y ∨ ∃ pre x post, rest = pre ++ x :: post ∧ P (y :: pre) x := by
  constructor
  · rintro ⟨pre, x, post, heq, hP⟩
    cases pre with
    | nil =>
        obtain ⟨rfl, rfl⟩ := List.cons.inj heq
        exact .inl hP
    | cons z pre =>
        obtain ⟨rfl, rfl⟩ := List.cons.inj heq
        exact .inr ⟨pre, x, post, rfl, hP⟩
  · rintro (hP | ⟨pre, x, post, rfl, hP⟩)
    · exact ⟨[], y, rest, rfl, hP⟩
    · exact ⟨y :: pre, x, post, rfl, hP⟩

theorem openFlag_iff {opens closes : Opcode} (hne : opens ≠ closes) {flag : Bool} {pre : Trace} :
    openFlag opens closes flag pre = true ↔
      (flag = true ∧ ∀ y ∈ pre, y.op ≠ closes) ∨ OpenAfter opens closes pre := by
  induction pre generalizing flag with
  | nil => simp [openFlag, OpenAfter]
  | cons x rest ih =>
      have hcons : OpenAfter opens closes (x :: rest) ↔
          (x.op = opens ∧ ∀ y ∈ rest, y.op ≠ closes) ∨ OpenAfter opens closes rest := by
        constructor
        · rintro ⟨before, z, behind, heq, hz, hbehind⟩
          cases before with
          | nil =>
              obtain ⟨rfl, rfl⟩ := List.cons.inj heq
              exact .inl ⟨hz, hbehind⟩
          | cons w before =>
              obtain ⟨-, rfl⟩ := List.cons.inj heq
              exact .inr ⟨before, z, behind, rfl, hz, hbehind⟩
        · rintro (⟨hx, hrest⟩ | ⟨before, z, behind, rfl, hz, hbehind⟩)
          · exact ⟨[], x, rest, rfl, hx, hrest⟩
          · exact ⟨x :: before, z, behind, rfl, hz, hbehind⟩
      rw [openFlag, ih, hcons, List.forall_mem_cons]
      by_cases hopens : x.op = opens
      · have hcloses : x.op ≠ closes := hopens ▸ hne
        simp only [hopens, if_true, true_and]
        tauto
      · by_cases hcloses : x.op = closes <;> simp [hopens, hcloses]

section Scan

variable {first second : Id} {transact locked : Bool} {held : Held} {trace : Trace}

/-- What the scan notes at one statement. -/
def heldStep (first second : Id) (transact locked : Bool) (held : Held) (x : Stmt) : Held :=
  if x.op ≠ .store ∨ transact = true ∨ locked = false then held
  else if x.id = first then { held with write := true }
  else if x.id = second then { held with read := true }
  else held

theorem heldScan_cons {x : Stmt} (hstore : x.id = first ∨ x.id = second → x.op = .store) :
    heldScan first second transact locked held (x :: trace) =
      heldScan first second (openFlag .txBegin .txCommit transact [x])
        (openFlag .lock .unlock locked [x]) (heldStep first second transact locked held x) trace := by
  rw [heldScan]
  simp only [openFlag, heldStep]
  by_cases hid : x.id = first ∨ x.id = second
  · have hop := hstore hid
    cases transact <;> cases locked <;> simp [hop, hid]
    split_ifs <;> rfl
  · obtain ⟨hfirst, hsecond⟩ := not_or.mp hid
    simp only [hfirst, hsecond, false_and, or_self, if_false, ite_self]
    cases hop : x.op <;> simp

/-- A store is held when it is met with the lock flag up and the transaction flag down. -/
theorem heldScan_iff (hne : first ≠ second)
    (hstore : ∀ x ∈ trace, x.id = first ∨ x.id = second → x.op = .store) :
    ((heldScan first second transact locked held trace).write = true ↔
      held.write = true ∨ ∃ pre x post, trace = pre ++ x :: post ∧ (x.id = first ∧
        openFlag .lock .unlock locked pre = true ∧
        openFlag .txBegin .txCommit transact pre = false)) ∧
    ((heldScan first second transact locked held trace).read = true ↔
      held.read = true ∨ ∃ pre x post, trace = pre ++ x :: post ∧ (x.id = second ∧
        openFlag .lock .unlock locked pre = true ∧
        openFlag .txBegin .txCommit transact pre = false)) := by
  induction trace generalizing transact locked held with
  | nil => simp [heldScan]
  | cons y rest ih =>
      have hrest := List.forall_mem_cons.mp hstore
      rw [heldScan_cons hrest.1]
      obtain ⟨hwrite, hread⟩ := @ih (openFlag .txBegin .txCommit transact [y])
        (openFlag .lock .unlock locked [y]) (heldStep first second transact locked held y) hrest.2
      rw [hwrite, hread]
      rw [exists_cons_split (P := fun pre x => x.id = first ∧
          openFlag .lock .unlock locked pre = true ∧
          openFlag .txBegin .txCommit transact pre = false),
        exists_cons_split (P := fun pre x => x.id = second ∧
          openFlag .lock .unlock locked pre = true ∧
          openFlag .txBegin .txCommit transact pre = false), ← or_assoc, ← or_assoc]
      refine ⟨or_congr_left ?_, or_congr_left ?_⟩
      · by_cases hid : y.id = first
        · have hop := hrest.1 (.inl hid)
          cases transact <;> cases locked <;> simp [heldStep, openFlag, hop, hid]
        · simp only [heldStep, hid, false_and, or_false, if_false]
          split_ifs <;> rfl
      · by_cases hid : y.id = second
        · have hop := hrest.1 (.inr hid)
          cases transact <;> cases locked <;> simp [heldStep, openFlag, hop, hid, hne.symm]
        · simp only [heldStep, hid, false_and, or_false, if_false]
          split_ifs <;> rfl

end Scan

theorem Mpa.In.id_store {bug : Mpa} {trace : Trace} (h : bug.In trace)
    (hids : (trace.map Stmt.id).Nodup) :
    ∀ x ∈ trace, x.id = bug.first.id ∨ x.id = bug.second.id → x.op = .store := by
  intro x hx hid
  rcases hid with hid | hid
  · rw [List.inj_on_of_nodup_map hids hx h.first_mem hid]
    rcases bug.first_cases with ⟨heq, -⟩ | ⟨heq, -⟩ <;> rw [heq]
    exacts [h.w_store, h.r_store]
  · rw [List.inj_on_of_nodup_map hids hx h.second_mem hid]
    rcases bug.first_cases with ⟨-, heq⟩ | ⟨-, heq⟩ <;> rw [heq]
    exacts [h.r_store, h.w_store]

theorem Mpa.In.id_ne {bug : Mpa} {trace : Trace} (h : bug.In trace)
    (hids : (trace.map Stmt.id).Nodup) : bug.first.id ≠ bug.second.id := fun heq =>
  h.ne (List.inj_on_of_nodup_map hids h.first_mem h.second_mem heq)

theorem locked_iff {trace : Trace} (hids : (trace.map Stmt.id).Nodup) {store : Stmt}
    (hmem : store ∈ trace) :
    (∃ pre x post, trace = pre ++ x :: post ∧ (x.id = store.id ∧
      openFlag .lock .unlock false pre = true ∧
      openFlag .txBegin .txCommit false pre = false)) ↔ Locked trace store := by
  have hflags : ∀ pre : Trace, (openFlag .lock .unlock false pre = true ∧
      openFlag .txBegin .txCommit false pre = false) ↔
      OpenAfter .lock .unlock pre ∧ ¬OpenAfter .txBegin .txCommit pre := by
    intro pre
    rw [openFlag_iff (by decide), ← Bool.not_eq_true, openFlag_iff (by decide)]
    simp
  constructor
  · rintro ⟨pre, x, post, heq, hid, hopen⟩
    have hx : x ∈ trace := by
      rw [heq]
      simp
    obtain rfl := List.inj_on_of_nodup_map hids hx hmem hid
    exact ⟨pre, post, heq, (hflags pre).mp hopen⟩
  · rintro ⟨pre, post, heq, hopen⟩
    exact ⟨pre, store, post, heq, rfl, (hflags pre).mpr hopen⟩

/-- The first scan finds the stores that stand in a lock section and in no transaction. -/
theorem heldScan_start_iff {bug : Mpa} {trace : Trace} (hids : (trace.map Stmt.id).Nodup)
    (hbug : bug.In trace) :
    ((heldScan bug.first.id bug.second.id false false ⟨false, false⟩ trace).write = true ↔
        Locked trace bug.first) ∧
      ((heldScan bug.first.id bug.second.id false false ⟨false, false⟩ trace).read = true ↔
        Locked trace bug.second) := by
  obtain ⟨hwrite, hread⟩ :=
    @heldScan_iff bug.first.id bug.second.id false false ⟨false, false⟩ trace
    (hbug.id_ne hids) (hbug.id_store hids)
  rw [hwrite, hread, locked_iff hids hbug.first_mem, locked_iff hids hbug.second_mem]
  simp

/-! ### The second scan -/

section Common

variable {first second : Id} {i : Nat} {current common : Option Nat}

/-- Statements other than the two stores move the index and the open lock only. -/
theorem findCommon_append {pre : Trace} (hfirst : Absent first pre) (hsecond : Absent second pre)
    (rest : Trace) :
    ∃ current', findCommon first second i current common (pre ++ rest) =
        findCommon first second (i + pre.length) current' common rest ∧
      ((∀ x ∈ pre, x.op ≠ .lock ∧ x.op ≠ .unlock) → current' = current) := by
  induction pre generalizing i current with
  | nil => exact ⟨current, rfl, fun _ => rfl⟩
  | cons x pre ih =>
      have hx : x.id ≠ first ∧ x.id ≠ second :=
        ⟨hfirst x List.mem_cons_self, hsecond x List.mem_cons_self⟩
      obtain ⟨current', heq, hsame⟩ := @ih (i + 1)
        (if x.op = .unlock then none else if x.op = .lock then some i else current)
        (fun y hy => hfirst y (List.mem_cons_of_mem x hy))
        (fun y hy => hsecond y (List.mem_cons_of_mem x hy))
      refine ⟨current', ?_, fun hplain => ?_⟩
      · rw [List.cons_append, findCommon]
        simp only [hx.1, hx.2, false_and, if_false]
        rw [heq, List.length_cons, Nat.add_right_comm, Nat.add_assoc]
      · obtain ⟨⟨hlock, hunlock⟩, hpre⟩ := List.forall_mem_cons.mp hplain
        rw [hsame hpre, if_neg hunlock, if_neg hlock]

/-- What the second scan knows: the open lock, with nothing but plain statements behind it, and a
lock that was open at the first store. -/
structure CommonScan (first : Id) (done : Trace) (current common : Option Nat) : Prop where
  current_spec : ∀ j, current = some j → ∃ pre lock behind, done = pre ++ lock :: behind ∧
    pre.length = j ∧ lock.op = .lock ∧ ∀ x ∈ behind, x.op ≠ .lock ∧ x.op ≠ .unlock
  common_spec : ∀ j, common = some j → ∃ x ∈ done.drop (j + 1), x.id = first

theorem CommonScan.step {done : Trace} (h : CommonScan first done current common) {x : Stmt}
    (hstore : x.id = first → x.op = .store) {opened shared : Option Nat}
    (hopened : opened = if x.op = .lock then some done.length else current)
    (hshared : shared = if x.id = first then opened else common) :
    CommonScan first (done ++ [x]) (if x.op = .unlock then none else opened) shared := by
  have hcurrent : ∀ j, current = some j → j < done.length := by
    intro j hj
    obtain ⟨pre, lock, behind, rfl, rfl, -⟩ := h.current_spec j hj
    simp
  constructor
  · intro j hj
    by_cases hunlock : x.op = .unlock
    · rw [if_pos hunlock] at hj
      cases hj
    · rw [if_neg hunlock, hopened] at hj
      by_cases hlock : x.op = .lock
      · rw [if_pos hlock, Option.some.injEq] at hj
        exact ⟨done, x, [], rfl, hj, hlock, by simp⟩
      · rw [if_neg hlock] at hj
        obtain ⟨pre, lock, behind, rfl, hlength, hop, hplain⟩ := h.current_spec j hj
        refine ⟨pre, lock, behind ++ [x], by simp, hlength, hop, fun y hy => ?_⟩
        rcases List.mem_append.mp hy with hy | hy
        · exact hplain y hy
        · rw [List.mem_singleton.mp hy]
          exact ⟨hlock, hunlock⟩
  · intro j hj
    by_cases hfirst : x.id = first
    · have hlock : x.op ≠ .lock := by simp [hstore hfirst]
      rw [hshared, if_pos hfirst, hopened, if_neg hlock] at hj
      have hlt := hcurrent j hj
      refine ⟨x, ?_, hfirst⟩
      rw [List.drop_append_of_le_length (by omega)]
      simp
    · rw [hshared, if_neg hfirst] at hj
      obtain ⟨y, hy, hid⟩ := h.common_spec j hj
      have hlt : j + 1 < done.length := by
        by_contra hle
        rw [List.drop_eq_nil_of_le (by omega)] at hy
        cases hy
      refine ⟨y, ?_, hid⟩
      rw [List.drop_append_of_le_length (by omega)]
      exact List.mem_append_left [x] hy

/-- A lock that the second scan reports is open at both stores. -/
theorem findCommon_some {bug : Mpa} {trace done rest : Trace} (hids : (trace.map Stmt.id).Nodup)
    (hbug : bug.In trace) (htrace : trace = done ++ rest)
    (hscan : CommonScan bug.first.id done current common) {k : Nat}
    (h : findCommon bug.first.id bug.second.id done.length current common rest = some k) :
    ∃ pre lock mid between post, SharedBy bug.first bug.second pre lock mid between post trace ∧
      pre.length = k := by
  induction rest generalizing done current common with
  | nil => cases h
  | cons x rest ih =>
      have hx : x ∈ trace := by
        rw [htrace]
        simp
      have hstore := hbug.id_store hids x hx
      have hnext := hscan.step (fun hid => hstore (.inl hid)) rfl rfl
      rw [findCommon] at h
      by_cases hfound : x.id = bug.second.id ∧
          (if x.op = .unlock then none else if x.op = .lock then some done.length else current) =
            (if x.id = bug.first.id then if x.op = .lock then some done.length else current
              else common) ∧
          (if x.id = bug.first.id then if x.op = .lock then some done.length else current
            else common) ≠ none
      · -- the second store: the lock that is open here was open at the first store
        rw [if_pos hfound] at h
        obtain ⟨hsecond, heq, -⟩ := hfound
        have hop := hstore (.inr hsecond)
        have hfirst : x.id ≠ bug.first.id := hsecond ▸ (hbug.id_ne hids).symm
        rw [if_neg hfirst] at heq h
        rw [if_neg (by simp [hop]), if_neg (by simp [hop])] at heq
        obtain ⟨pre, lock, behind, hdone, hlength, hlock, hplain⟩ :=
          hscan.current_spec k (heq.trans h)
        obtain ⟨y, hy, hid⟩ := hscan.common_spec k h
        have hbehind : done.drop (k + 1) = behind := by
          rw [hdone, List.append_cons, ← hlength]
          exact List.drop_left' (by simp)
        rw [hbehind] at hy
        obtain ⟨mid, between, rfl⟩ := List.append_of_mem hy
        have hytrace : y ∈ trace := by
          rw [htrace, hdone]
          simp
        obtain rfl := List.inj_on_of_nodup_map hids hytrace hbug.first_mem hid
        obtain rfl := List.inj_on_of_nodup_map hids hx hbug.second_mem hsecond
        refine ⟨pre, lock, mid, between, rest, ⟨by rw [htrace, hdone]; simp, hlock, ?_⟩, hlength⟩
        intro z hz
        refine hplain z ?_
        rcases List.mem_append.mp hz with hz | hz <;> simp [hz]
      · rw [if_neg hfound] at h
        refine @ih _ _ (done ++ [x]) (by rw [htrace]; simp) hnext ?_
        rw [List.length_append]
        exact h

/-- A lock that is open at both stores is reported. -/
theorem findCommon_of_shared {bug : Mpa} {trace : Trace} (hids : (trace.map Stmt.id).Nodup)
    (hbug : bug.In trace) {pre mid between post : Trace} {lock : Stmt}
    (h : SharedBy bug.first bug.second pre lock mid between post trace) :
    findCommon bug.first.id bug.second.id 0 none none trace = some pre.length := by
  obtain ⟨hsplit, hlock, hplain⟩ := h
  have hstore := hbug.id_store hids
  have hne := hbug.id_ne hids
  have hunique : ∀ {left right : Trace} {x : Stmt}, trace = left ++ x :: right →
      Absent x.id left ∧ Absent x.id right := by
    rintro left right x heq
    rw [heq, List.map_append, List.map_cons, List.nodup_middle, List.nodup_cons,
      ← List.map_append] at hids
    refine ⟨fun y hy hid => hids.1 ?_, fun y hy hid => hids.1 ?_⟩
    · exact hid ▸ List.mem_map_of_mem (List.mem_append_left right hy)
    · exact hid ▸ List.mem_map_of_mem (List.mem_append_right left hy)
  obtain ⟨hfirstLeft, hfirstRight⟩ := @hunique (pre ++ lock :: mid)
    (between ++ bug.second :: post) bug.first (by rw [hsplit]; simp)
  obtain ⟨hsecondLeft, -⟩ := @hunique (pre ++ lock :: (mid ++ bug.first :: between)) post bug.second
    (by rw [hsplit]; simp)
  have hlockId : lock.id ≠ bug.first.id ∧ lock.id ≠ bug.second.id :=
    ⟨hfirstLeft lock (by simp), hsecondLeft lock (by simp)⟩
  have hfirstOp : bug.first.op = .store := hstore _ hbug.first_mem (.inl rfl)
  have hsecondOp : bug.second.op = .store := hstore _ hbug.second_mem (.inr rfl)
  obtain ⟨current, hpre, -⟩ := @findCommon_append bug.first.id bug.second.id 0 none none pre
    (fun x hx => hfirstLeft x (by simp [hx])) (fun x hx => hsecondLeft x (by simp [hx]))
    (lock :: (mid ++ bug.first :: (between ++ bug.second :: post)))
  obtain ⟨current₁, hmid, hsame₁⟩ := @findCommon_append bug.first.id bug.second.id
    (0 + pre.length + 1) (some (0 + pre.length)) none mid (fun x hx => hfirstLeft x (by simp [hx]))
    (fun x hx => hsecondLeft x (by simp [hx])) (bug.first :: (between ++ bug.second :: post))
  obtain rfl := hsame₁ fun x hx => hplain x (List.mem_append_left between hx)
  obtain ⟨current₂, hbetween, hsame₂⟩ := @findCommon_append bug.first.id bug.second.id
    (0 + pre.length + 1 + mid.length + 1) (some (0 + pre.length)) (some (0 + pre.length)) between
    (fun x hx => hfirstRight x (by simp [hx])) (fun x hx => hsecondLeft x (by simp [hx]))
    (bug.second :: post)
  obtain rfl := hsame₂ fun x hx => hplain x (List.mem_append_right mid hx)
  rw [hsplit, hpre, findCommon]
  simp only [hlock, hlockId.1, hlockId.2, if_true, if_false, false_and, reduceCtorEq]
  rw [hmid, findCommon]
  simp only [hfirstOp, hne, if_true, if_false, false_and, reduceCtorEq]
  rw [hbetween, findCommon]
  simp [hsecondOp, hne.symm]

end Common

/-! ### Where the copying starts -/

section Prepare

variable {g : LockGlobals} {bug : Mpa} {trace : Trace}

theorem prepare_of_not_shared (hids : (trace.map Stmt.id).Nodup) (hbug : bug.In trace)
    (h : ¬∃ pre lock mid between post,
      SharedBy bug.first bug.second pre lock mid between post trace) :
    prepare g trace bug =
      (trace, heldScan bug.first.id bug.second.id false false ⟨false, false⟩ trace, g) := by
  unfold prepare
  split
  · rename_i k hfind
    obtain ⟨pre, lock, mid, between, post, hshared, -⟩ :=
      @findCommon_some none none bug trace [] trace hids hbug rfl ⟨by simp, by simp⟩ k hfind
    exact absurd ⟨pre, lock, mid, between, post, hshared⟩ h
  · rfl

theorem find?_unlock_erase (post : Trace) :
    post.eraseP (fun x => x.op = .unlock) =
      match post.find? (·.op = .unlock) with
      | some unlock => post.erase unlock
      | none => post := by
  induction post with
  | nil => rfl
  | cons x post ih =>
      by_cases hx : x.op = .unlock
      · simp [hx]
      · rw [List.eraseP_cons_of_neg (by simpa using hx), List.find?_cons_of_neg (by simpa using hx),
          ih]
        split
        · rename_i unlock hfind
          have hop : unlock.op = .unlock := by simpa using List.find?_some hfind
          rw [List.erase_cons_tail]
          simp only [beq_iff_eq]
          rintro rfl
          exact hx hop
        · rfl

theorem prepare_of_shared (hids : (trace.map Stmt.id).Nodup) (hbug : bug.In trace)
    {pre mid between post : Trace} {lock : Stmt}
    (h : SharedBy bug.first bug.second pre lock mid between post trace) :
    prepare g trace bug = (unshared bug.first bug.second pre mid between post, ⟨false, false⟩,
      g.release bug.first.id bug.second.id) := by
  have hnodup : trace.Nodup := hids.of_map
  have hstore := hbug.id_store hids
  have hfirstOp : bug.first.op ≠ .unlock := by simp [hstore _ hbug.first_mem (.inl rfl)]
  have hsecondOp : bug.second.op ≠ .unlock := by simp [hstore _ hbug.second_mem (.inr rfl)]
  have hlockOp : lock.op ≠ .unlock := by simp [h.op]
  simp only [prepare, findCommon_of_shared hids hbug h, Prod.mk.injEq, and_true]
  obtain ⟨hsplit, -, hplain⟩ := h
  generalize hmiddle : mid ++ bug.first :: (between ++ [bug.second]) = middle
  have htrace : trace = pre ++ lock :: (middle ++ post) := by
    rw [hsplit, ← hmiddle]
    simp
  have hmiddleOp : ∀ x ∈ middle, x.op ≠ .unlock := by
    intro x hx
    rw [← hmiddle] at hx
    simp only [List.mem_append, List.mem_cons, List.not_mem_nil, or_false] at hx
    rcases hx with hx | rfl | hx | rfl
    · exact (hplain x (List.mem_append_left between hx)).2
    · exact hfirstOp
    · exact (hplain x (List.mem_append_right mid hx)).2
    · exact hsecondOp
  have hfind : (trace.drop pre.length).find? (·.op = .unlock) = post.find? (·.op = .unlock) := by
    have hnone : middle.find? (·.op = .unlock) = none := by
      rw [List.find?_eq_none]
      simpa using hmiddleOp
    rw [htrace, List.drop_left, List.find?_cons_of_neg (by simpa using hlockOp), List.find?_append,
      hnone, Option.none_or]
  have hlock : (trace.drop pre.length).head? = some lock := by
    rw [htrace, List.drop_left]
    rfl
  have hresult : unshared bug.first bug.second pre mid between post =
      pre ++ (middle ++ post.eraseP fun x => x.op = .unlock) := by
    rw [unshared, ← hmiddle]
    simp
  have hlockPre : lock ∉ pre := by
    rw [htrace] at hnodup
    exact fun hmem => (List.nodup_append.mp hnodup).2.2 lock hmem lock List.mem_cons_self rfl
  have herase : ∀ tail : Trace, (pre ++ lock :: tail).erase lock = pre ++ tail := by
    intro tail
    rw [List.erase_append_right _ hlockPre, List.erase_cons_head]
  simp only [removeCommon, hfind, hlock]
  rw [hresult, find?_unlock_erase]
  cases hunlock : post.find? (·.op = .unlock) with
  | some unlock =>
      have hbefore : unlock ∉ pre ++ lock :: middle := by
        have hmem := List.mem_of_find?_eq_some hunlock
        have hsplit' : trace = (pre ++ lock :: middle) ++ post := by
          rw [htrace]
          simp
        rw [hsplit'] at hnodup
        exact fun hin => (List.nodup_append.mp hnodup).2.2 unlock hin unlock hmem rfl
      have hmove : trace.erase unlock = pre ++ lock :: (middle ++ post.erase unlock) := by
        rw [htrace, ← List.cons_append, ← List.append_assoc, List.erase_append_right _ hbefore]
        simp
      simp only [hmove, herase]
  | none => simp only [htrace, herase]

end Prepare

end PMBugRepair
