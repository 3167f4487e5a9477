import PMBugRepair.Runtime.Log
import PMBugRepair.Containers.OrderedMap
import Mathlib.Data.Finset.Insert

/-!
# The runtime

`pm.cpp` keeps a map from the first address of every registered range to its end, and prints a store
or a load once for every range that holds it. Each call runs under one lock, so the calls of all
threads come one after the other. What `malloc`, `calloc` and `pmem_map_file` return is an argument.
-/

namespace PMBugRepair

/-- The static variables: `M`, `DEP`, `TRACE_IDS` and `my_flag`. -/
structure Runtime where
  ranges : OrderedMap Int Int
  deps : OrderedMap Int (Finset Int)
  traceIds : Finset Int
  myFlag : Bool
  deriving DecidableEq

namespace Runtime

def start : Runtime := { ranges := .empty, deps := .empty, traceIds := ∅, myFlag := false }

def pmcInitialize (rt : Runtime) : Runtime :=
  if !rt.myFlag then { ranges := .empty, deps := .empty, traceIds := ∅, myFlag := true } else rt

def register (rt : Runtime) (first last : BitVec 64) : Runtime × List Event :=
  ({ rt with ranges := rt.ranges.insert first.toInt last.toInt }, [.adding first last])

def pmcMalloc (rt : Runtime) (ptr size : BitVec 64) : Runtime × List Event :=
  if rt.myFlag then rt.register ptr (ptr + size) else (rt, [])

def pmcCalloc (rt : Runtime) (ptr _blocks size : BitVec 64) : Runtime × List Event :=
  if rt.myFlag then rt.register ptr (ptr + size) else (rt, [])

/-- The range ends at the pool plus the pointer `mapped_lenp`. -/
def pmcWrapperPmemMapFile (rt : Runtime) (pslabPool mappedLenp : BitVec 64) :
    Runtime × List Event :=
  rt.register pslabPool (pslabPool + mappedLenp)

def pmcFree (rt : Runtime) (block : BitVec 64) : Runtime × List Event :=
  if rt.myFlag then ({ rt with ranges := rt.ranges.erase block.toInt }, [.freeing block])
  else (rt, [])

def pmcDepAdd (rt : Runtime) (id1 id2 : BitVec 32) : Runtime :=
  if rt.myFlag then
    let ids := (rt.deps.find? id1.toInt).getD ∅
    { rt with deps := rt.deps.insert id1.toInt (insert id2.toInt ids) }
  else rt

/-- The `DEP` lines behind a printed access. -/
def depLines (rt : Runtime) (id : BitVec 32) : List Event :=
  rt.deps.entries.filterMap fun p =>
    if p.1 ∈ rt.traceIds ∧ id.toInt ∈ p.2 then some (.dep (.ofInt 32 p.1) id) else none

/-- The loop over `M` of both access functions. -/
def accessLoop (event : Event) (addr : BitVec 64) (size id : BitVec 32) :
    List (Int × Int) → Runtime → Runtime × List Event
  | [], rt => (rt, [])
  | pair :: rest, rt =>
      if addr.toInt ≥ pair.1 ∧ addr.toInt + size.toInt ≤ pair.2 then
        let rt := { rt with traceIds := insert id.toInt rt.traceIds }
        let (rt', lines) := accessLoop event addr size id rest rt
        (rt', event :: rt.depLines id ++ lines)
      else accessLoop event addr size id rest rt

def pmcPrintStoreAddr (rt : Runtime) (addr : BitVec 64) (size id : BitVec 32) (place : Place) :
    Runtime × List Event :=
  if rt.myFlag then
    accessLoop (.store addr size id place) addr size id rt.ranges.entries rt
  else (rt, [])

def pmcPrintLoadAddr (rt : Runtime) (addr : BitVec 64) (size id : BitVec 32) (place : Place) :
    Runtime × List Event :=
  if rt.myFlag then
    accessLoop (.load addr size id place) addr size id rt.ranges.entries rt
  else (rt, [])

end Runtime

/-- A call with what the allocator returned to it. -/
inductive Call where
  | pmcInitialize
  | malloc (ptr size : BitVec 64)
  | calloc (ptr blocks size : BitVec 64)
  | pmemMapFile (pslabPool mappedLenp mappedLen : BitVec 64)
  | free (block : BitVec 64)
  | depAdd (id1 id2 : BitVec 32)
  | printStoreAddr (addr : BitVec 64) (size id : BitVec 32) (place : Place)
  | printLoadAddr (addr : BitVec 64) (size id : BitVec 32) (place : Place)
  deriving DecidableEq

def Runtime.step (rt : Runtime) : Call → Runtime × List Event
  | .pmcInitialize => (rt.pmcInitialize, [])
  | .malloc ptr size => rt.pmcMalloc ptr size
  | .calloc ptr blocks size => rt.pmcCalloc ptr blocks size
  | .pmemMapFile pslabPool mappedLenp _ => rt.pmcWrapperPmemMapFile pslabPool mappedLenp
  | .free block => rt.pmcFree block
  | .depAdd id1 id2 => (rt.pmcDepAdd id1 id2, [])
  | .printStoreAddr addr size id place => rt.pmcPrintStoreAddr addr size id place
  | .printLoadAddr addr size id place => rt.pmcPrintLoadAddr addr size id place

/-! ### What the runtime is for -/

inductive Alloc where
  | malloc (size : BitVec 64)
  | calloc (blocks size : BitVec 64)
  | pmemMapFile (mappedLenp mappedLen : BitVec 64)
  deriving DecidableEq

/-- The number of bytes that are allocated. -/
def Alloc.length : Alloc → Nat
  | .malloc size => size.toNat
  | .calloc blocks size => blocks.toNat * size.toNat
  | .pmemMapFile _ mappedLen => mappedLen.toNat

/-- What the runtime adds to the pointer for the end of the range. -/
def Alloc.added : Alloc → BitVec 64
  | .malloc size => size
  | .calloc _ size => size
  | .pmemMapFile mappedLenp _ => mappedLenp

/-- A block of persistent memory and how it was allocated. -/
structure Block where
  ptr : BitVec 64
  alloc : Alloc
  deriving DecidableEq

namespace Block

def first (block : Block) : Int := block.ptr.toNat
def last (block : Block) : Int := block.first + block.alloc.length
def registered (block : Block) : Int := (block.ptr + block.alloc.added).toInt

def Covers (block : Block) (addr : BitVec 64) (size : BitVec 32) : Prop :=
  block.first ≤ addr.toInt ∧ addr.toInt + size.toInt ≤ block.last

instance (block : Block) (addr : BitVec 64) (size : BitVec 32) :
    Decidable (block.Covers addr size) := inferInstanceAs (Decidable (_ ∧ _))

/-- Two blocks share no byte, and no pointer is returned twice. -/
def Separate (block other : Block) : Prop :=
  block.ptr ≠ other.ptr ∧ (block.last ≤ other.first ∨ other.last ≤ block.first)

instance (block other : Block) : Decidable (block.Separate other) :=
  inferInstanceAs (Decidable (_ ∧ _))

end Block

/-- The blocks that are live after a call. -/
def liveStep (live : List Block) : Call → List Block
  | .malloc ptr size => ⟨ptr, .malloc size⟩ :: live
  | .calloc ptr blocks size => ⟨ptr, .calloc blocks size⟩ :: live
  | .pmemMapFile pslabPool mappedLenp mappedLen =>
      ⟨pslabPool, .pmemMapFile mappedLenp mappedLen⟩ :: live
  | .free block => live.filter fun other => other.ptr ≠ block
  | _ => live

/-- User space ends at `2 ^ 47`. -/
def userSpace : Int := 2 ^ 47

/-- What an allocator promises: a block in user space that is separate from all live blocks. -/
def Fresh (live : List Block) (block : Block) : Prop :=
  block.last ≤ userSpace ∧ ∀ other ∈ live, block.Separate other

/-- The call returns a fresh block if it allocates one. -/
def Admissible (live : List Block) : Call → Prop
  | .malloc ptr size => Fresh live ⟨ptr, .malloc size⟩
  | .calloc ptr blocks size => Fresh live ⟨ptr, .calloc blocks size⟩
  | .pmemMapFile pslabPool mappedLenp mappedLen =>
      Fresh live ⟨pslabPool, .pmemMapFile mappedLenp mappedLen⟩
  | _ => True

/-- The states after any sequence of calls behind the first `__pmc_Initialize`, with the live
blocks. -/
inductive Reachable : Runtime → List Block → Prop where
  | start : Reachable Runtime.start.pmcInitialize []
  | step {rt : Runtime} {live : List Block} (call : Call) (h : Reachable rt live)
      (hcall : Admissible live call) : Reachable (rt.step call).1 (liveStep live call)

/-! ### The map mirrors the live blocks -/

structure Mirrors (rt : Runtime) (live : List Block) : Prop where
  flag : rt.myFlag = true
  ranges : ∀ entry, entry ∈ rt.ranges ↔
    ∃ block ∈ live, entry = (block.first, block.registered)
  separate : live.Pairwise Block.Separate
  userSpace : ∀ block ∈ live, block.last ≤ userSpace

theorem toInt_ptr {block : Block} (h : block.last ≤ userSpace) : block.ptr.toInt = block.first := by
  have hlast : (block.ptr.toNat : Int) + block.alloc.length ≤ 2 ^ 47 := h
  rw [Block.first, BitVec.toInt_eq_toNat_of_lt]
  omega

theorem toInt_add {ptr size : BitVec 64} (h : (ptr.toNat : Int) + size.toNat ≤ userSpace) :
    (ptr + size).toInt = ptr.toNat + size.toNat := by
  have hsum : ptr.toNat + size.toNat ≤ 2 ^ 47 := by
    unfold userSpace at h
    omega
  have hnat : (ptr + size).toNat = ptr.toNat + size.toNat := by
    rw [BitVec.toNat_add]
    exact Nat.mod_eq_of_lt (by omega)
  rw [BitVec.toInt_eq_toNat_of_lt (by omega), hnat]
  push_cast
  rfl

theorem accessLoop_fields (event : Event) (addr : BitVec 64) (size id : BitVec 32)
    (entries : List (Int × Int)) (rt : Runtime) :
    (Runtime.accessLoop event addr size id entries rt).1.ranges = rt.ranges ∧
      (Runtime.accessLoop event addr size id entries rt).1.myFlag = rt.myFlag := by
  induction entries generalizing rt with
  | nil => exact ⟨rfl, rfl⟩
  | cons pair rest ih =>
      rw [Runtime.accessLoop]
      split
      · exact ih _
      · exact ih rt

namespace Mirrors

variable {rt : Runtime} {live : List Block}

theorem start : Mirrors Runtime.start.pmcInitialize [] := by
  refine ⟨rfl, ?_, .nil, by simp⟩
  intro entry
  simp [Runtime.start, Runtime.pmcInitialize]

theorem congr {rt' : Runtime} (h : Mirrors rt live) (hranges : rt'.ranges = rt.ranges)
    (hflag : rt'.myFlag = rt.myFlag) : Mirrors rt' live :=
  ⟨hflag.trans h.flag, hranges ▸ h.ranges, h.separate, h.userSpace⟩

theorem register (h : Mirrors rt live) {block : Block} (hfresh : Fresh live block)
    {last : BitVec 64} (hlast : last.toInt = block.registered) :
    Mirrors (rt.register block.ptr last).1 (block :: live) := by
  obtain ⟨huser, hseparate⟩ := hfresh
  have hkey := toInt_ptr huser
  refine ⟨h.flag, ?_, List.pairwise_cons.mpr ⟨hseparate, h.separate⟩,
    List.forall_mem_cons.mpr ⟨huser, h.userSpace⟩⟩
  -- no live block has the key of the new one
  have hnew : ∀ other ∈ live, other.first ≠ block.first := by
    intro other hother heq
    refine (hseparate other hother).1 (BitVec.eq_of_toNat_eq ?_)
    unfold Block.first at heq
    omega
  intro entry
  rw [Runtime.register, OrderedMap.mem_insert_iff, hlast, hkey, h.ranges]
  constructor
  · rintro (rfl | ⟨⟨other, hother, rfl⟩, -⟩)
    · exact ⟨block, List.mem_cons_self, rfl⟩
    · exact ⟨other, List.mem_cons_of_mem _ hother, rfl⟩
  · rintro ⟨other, hother, rfl⟩
    rcases List.mem_cons.mp hother with rfl | hother
    · exact .inl rfl
    · exact .inr ⟨⟨other, hother, rfl⟩, hnew other hother⟩

theorem free (h : Mirrors rt live) (block : BitVec 64) :
    Mirrors (rt.pmcFree block).1 (live.filter fun other => other.ptr ≠ block) := by
  have hsub : ∀ other ∈ live.filter fun other => other.ptr ≠ block, other ∈ live :=
    fun other hother => (List.mem_filter.mp hother).1
  rw [Runtime.pmcFree, if_pos h.flag]
  refine ⟨h.flag, ?_, h.separate.filter _,
    fun other hother => h.userSpace other (hsub other hother)⟩
  have hkey : ∀ other ∈ live, other.first ≠ block.toInt ↔ other.ptr ≠ block := by
    intro other hother
    rw [← toInt_ptr (h.userSpace other hother), ne_eq, BitVec.toInt_inj]
  intro entry
  rw [OrderedMap.mem_erase_iff, h.ranges]
  constructor
  · rintro ⟨⟨other, hother, rfl⟩, hne⟩
    exact ⟨other, List.mem_filter.mpr ⟨hother, by simpa using (hkey other hother).mp hne⟩, rfl⟩
  · rintro ⟨other, hother, rfl⟩
    obtain ⟨hother, hne⟩ := List.mem_filter.mp hother
    exact ⟨⟨other, hother, rfl⟩, (hkey other hother).mpr (by simpa using hne)⟩

theorem step (h : Mirrors rt live) {call : Call} (hcall : Admissible live call) :
    Mirrors (rt.step call).1 (liveStep live call) := by
  cases call with
  | pmcInitialize =>
      have hsame : rt.pmcInitialize = rt := by simp [Runtime.pmcInitialize, h.flag]
      exact h.congr (congrArg _ hsame) (congrArg _ hsame)
  | malloc ptr size =>
      rw [Runtime.step, Runtime.pmcMalloc, if_pos h.flag]
      exact h.register hcall rfl
  | calloc ptr blocks size =>
      rw [Runtime.step, Runtime.pmcCalloc, if_pos h.flag]
      exact h.register hcall rfl
  | pmemMapFile pslabPool mappedLenp mappedLen => exact h.register hcall rfl
  | free block => exact h.free block
  | depAdd id1 id2 =>
      refine h.congr ?_ ?_ <;>
        · rw [Runtime.step, Runtime.pmcDepAdd, if_pos h.flag]
  | printStoreAddr addr size id place =>
      rw [Runtime.step, Runtime.pmcPrintStoreAddr, if_pos h.flag]
      exact h.congr (accessLoop_fields ..).1 (accessLoop_fields ..).2
  | printLoadAddr addr size id place =>
      rw [Runtime.step, Runtime.pmcPrintLoadAddr, if_pos h.flag]
      exact h.congr (accessLoop_fields ..).1 (accessLoop_fields ..).2

end Mirrors

theorem Reachable.mirrors {rt : Runtime} {live : List Block} (h : Reachable rt live) :
    Mirrors rt live := by
  induction h with
  | start => exact .start
  | step call _ hcall ih => exact ih.step hcall

/-! ### One line for a store to a live block -/

def Event.isStoreLine : Event → Bool
  | .store .. => true
  | _ => false

/-- The `Store` lines that a call of `__pmc_printStoreAddr` emits. -/
def storeLines (rt : Runtime) (addr : BitVec 64) (size id : BitVec 32)
    (place : Place) : List Event :=
  (rt.pmcPrintStoreAddr addr size id place).2.filter Event.isStoreLine

/-- Every store that touches memory is printed once if it lies in one live block, and not at all
otherwise. -/
def TracesStores (rt : Runtime) (live : List Block) : Prop :=
  ∀ addr size id place, 0 < size.toInt →
    (storeLines rt addr size id place).length =
      if ∃ block ∈ live, block.Covers addr size then 1 else 0

/-- The runtime registers the length of the block, or no byte of an empty block. -/
def Block.Exact (block : Block) : Prop :=
  block.alloc.added.toNat = block.alloc.length ∨
    (block.alloc.length = 0 ∧ block.registered ≤ block.first)

theorem depLines_not_store (rt : Runtime) (id : BitVec 32) :
    (rt.depLines id).filter Event.isStoreLine = [] := by
  rw [List.filter_eq_nil_iff]
  intro event hevent
  obtain ⟨p, -, hp⟩ := List.mem_filterMap.mp hevent
  split at hp
  · cases hp
    simp [Event.isStoreLine]
  · cases hp

/-- One line for every range that holds the access. -/
theorem length_accessLoop (addr : BitVec 64) (size id : BitVec 32) (place : Place)
    (entries : List (Int × Int)) (rt : Runtime) :
    ((Runtime.accessLoop (.store addr size id place) addr size id entries rt).2.filter
        Event.isStoreLine).length =
      entries.countP fun pair => addr.toInt ≥ pair.1 ∧ addr.toInt + size.toInt ≤ pair.2 := by
  induction entries generalizing rt with
  | nil => rfl
  | cons pair rest ih =>
      rw [Runtime.accessLoop, List.countP_cons]
      split
      · rename_i hhit
        dsimp only
        rw [List.cons_append, List.filter_cons_of_pos rfl, List.filter_append, depLines_not_store,
          List.nil_append, List.length_cons, ih]
        simp [hhit]
      · rename_i hmiss
        rw [ih]
        simp [hmiss]

theorem Block.registered_of_exact {block : Block} (huser : block.last ≤ userSpace)
    (h : block.Exact) : block.registered = block.last ∨
      (block.alloc.length = 0 ∧ block.registered ≤ block.first) := by
  refine h.imp_left fun heq => ?_
  rw [last, first, ← heq] at huser ⊢
  exact toInt_add huser

/-- A block that is not exact registers too much, or too little of at least one byte. -/
theorem Block.registered_of_not_exact {block : Block} (huser : block.last ≤ userSpace)
    (h : ¬block.Exact) :
    block.last < block.registered ∨
      (0 < block.alloc.length ∧ block.registered < block.last) := by
  rw [Exact, not_or, not_and_or] at h
  obtain ⟨hadded, hempty⟩ := h
  have hne : block.registered ≠ block.last := by
    intro heq
    apply hadded
    have hlast : block.last ≤ 2 ^ 47 := huser
    unfold last first at heq hlast
    have hnat : (block.ptr + block.alloc.added).toNat = block.ptr.toNat + block.alloc.length := by
      have hmsb := BitVec.toInt_eq_toNat_cond (block.ptr + block.alloc.added)
      unfold registered at heq
      have hlt := (block.ptr + block.alloc.added).isLt
      split at hmsb <;> omega
    rw [BitVec.toNat_add] at hnat
    have hptr := block.ptr.isLt
    have hadd := block.alloc.added.isLt
    omega
  by_cases hzero : block.alloc.length = 0
  · left
    have hlast : block.last = block.first := by simp [last, hzero]
    have hgt := hempty.resolve_left (fun hn => hn hzero)
    omega
  · omega

/-- Accesses are counted by the blocks that the runtime takes for live. -/
theorem Mirrors.length_storeLines {rt : Runtime} {live : List Block} (h : Mirrors rt live)
    (addr : BitVec 64) (size id : BitVec 32) (place : Place) :
    (storeLines rt addr size id place).length = rt.ranges.entries.countP
      fun pair => addr.toInt ≥ pair.1 ∧ addr.toInt + size.toInt ≤ pair.2 := by
  rw [storeLines, Runtime.pmcPrintStoreAddr, if_pos h.flag, length_accessLoop]

/-- The test of the loop, for the range of a block. -/
def Block.Hit (block : Block) (addr : BitVec 64) (size : BitVec 32) : Prop :=
  block.first ≤ addr.toInt ∧ addr.toInt + size.toInt ≤ block.registered

section Lines

variable {rt : Runtime} {live : List Block} {addr : BitVec 64} {size id : BitVec 32} {place : Place}
  {block other : Block}

theorem Mirrors.mem_hits (h : Mirrors rt live) {pair : Int × Int} :
    pair ∈ rt.ranges.entries.filter
        (fun pair => addr.toInt ≥ pair.1 ∧ addr.toInt + size.toInt ≤ pair.2) ↔
      ∃ block ∈ live, block.Hit addr size ∧ pair = (block.first, block.registered) := by
  rw [List.mem_filter, ← OrderedMap.mem_iff, h.ranges, decide_eq_true_eq]
  constructor
  · rintro ⟨⟨block, hblock, rfl⟩, hhit⟩
    exact ⟨block, hblock, hhit, rfl⟩
  · rintro ⟨block, hblock, hhit, rfl⟩
    exact ⟨⟨block, hblock, rfl⟩, hhit⟩

theorem Mirrors.storeLines_pos (h : Mirrors rt live) (hblock : block ∈ live)
    (hhit : block.Hit addr size) : 0 < (storeLines rt addr size id place).length := by
  rw [h.length_storeLines, List.countP_eq_length_filter]
  exact List.length_pos_of_mem (h.mem_hits.mpr ⟨block, hblock, hhit, rfl⟩)

theorem Mirrors.exists_hit (h : Mirrors rt live)
    (hlines : (storeLines rt addr size id place).length ≠ 0) :
    ∃ block ∈ live, block.Hit addr size := by
  rw [h.length_storeLines, List.countP_eq_length_filter] at hlines
  obtain ⟨pair, hpair⟩ := List.exists_mem_of_length_pos (Nat.pos_of_ne_zero hlines)
  obtain ⟨block, hblock, hhit, -⟩ := h.mem_hits.mp hpair
  exact ⟨block, hblock, hhit⟩

/-- An access that only the range of one block holds is printed once. -/
theorem Mirrors.storeLines_eq_one (h : Mirrors rt live) (hblock : block ∈ live)
    (hhit : block.Hit addr size)
    (honly : ∀ other ∈ live, other.Hit addr size → other = block) :
    (storeLines rt addr size id place).length = 1 := by
  rw [h.length_storeLines, List.countP_eq_length_filter]
  have hall : ∀ pair ∈ rt.ranges.entries.filter
      (fun pair => addr.toInt ≥ pair.1 ∧ addr.toInt + size.toInt ≤ pair.2),
      pair = (block.first, block.registered) := by
    intro pair hpair
    obtain ⟨other, hother, hhit', rfl⟩ := h.mem_hits.mp hpair
    rw [honly other hother hhit']
  have hmem := h.mem_hits.mpr ⟨block, hblock, hhit, rfl⟩
  have hnodup := rt.ranges.nodup_entries.filter
    (fun pair => addr.toInt ≥ pair.1 ∧ addr.toInt + size.toInt ≤ pair.2)
  rw [List.eq_replicate_of_mem hall] at hnodup
  have hle := List.nodup_replicate.mp hnodup
  have hpos := List.length_pos_of_mem hmem
  omega

theorem Block.Exact.hit_iff (hexact : block.Exact) (huser : block.last ≤ userSpace)
    (hsize : 0 < size.toInt) : block.Hit addr size ↔ block.Covers addr size := by
  unfold Hit Covers
  rcases registered_of_exact huser hexact with heq | ⟨hzero, hle⟩
  · rw [heq]
  · have hlast : block.last = block.first := by simp [last, hzero]
    omega

theorem Mirrors.separate_of_ne (h : Mirrors rt live) (hblock : block ∈ live) (hother : other ∈ live)
    (hne : block ≠ other) :
    block.ptr ≠ other.ptr ∧ (block.last ≤ other.first ∨ other.last ≤ block.first) := by
  have hsymm : Std.Symm Block.Separate := ⟨fun x y hxy => ⟨hxy.1.symm, hxy.2.symm⟩⟩
  exact h.separate.forall hblock hother hne

theorem Mirrors.tracesStores (h : Mirrors rt live) (hexact : ∀ block ∈ live, block.Exact) :
    TracesStores rt live := by
  intro addr size id place hsize
  have hhit : ∀ block ∈ live, block.Hit addr size ↔ block.Covers addr size :=
    fun block hblock => (hexact block hblock).hit_iff (h.userSpace block hblock) hsize
  split
  · rename_i hcovered
    obtain ⟨block, hblock, hcovers⟩ := hcovered
    refine h.storeLines_eq_one hblock ((hhit block hblock).mpr hcovers) ?_
    intro other hother hhit'
    by_contra hne
    obtain ⟨-, hapart⟩ := h.separate_of_ne hother hblock hne
    have hcovers' := (hhit other hother).mp hhit'
    unfold Block.Covers at hcovers hcovers'
    omega
  · rename_i hnone
    by_contra hlines
    obtain ⟨block, hblock, hhit'⟩ := h.exists_hit hlines
    exact hnone ⟨block, hblock, (hhit block hblock).mp hhit'⟩

theorem exists_access {start bytes : Int} (hstart : 0 ≤ start ∧ start ≤ userSpace)
    (hbytes : 0 < bytes ∧ bytes ≤ 2) :
    ∃ (addr : BitVec 64) (size : BitVec 32), addr.toInt = start ∧ size.toInt = bytes := by
  unfold userSpace at hstart
  refine ⟨.ofInt 64 start, .ofInt 32 bytes, ?_, ?_⟩
  · rw [BitVec.toInt_ofInt, Int.bmod_eq_of_le_mul_two] <;> omega
  · rw [BitVec.toInt_ofInt, Int.bmod_eq_of_le_mul_two] <;> omega

theorem Block.first_nonneg (block : Block) : 0 ≤ block.first := Int.natCast_nonneg _

/-- No range is too long: the first byte behind the block, with the last one of it if there is one,
would be printed. -/
theorem Mirrors.registered_le (h : Mirrors rt live) (htraces : TracesStores rt live)
    (hblock : block ∈ live) : block.registered ≤ block.last := by
  by_contra hlt
  have huser := h.userSpace block hblock
  have hnonneg := block.first_nonneg
  have hlast : block.last = block.first + block.alloc.length := rfl
  by_cases hzero : block.alloc.length = 0
  · obtain ⟨addr, size, haddr, hsize⟩ := @exists_access block.last 1 (by omega) (by omega)
    have hlines := htraces addr size 0 ⟨0, 0, []⟩ (by omega)
    have hpos := @storeLines_pos _ _ addr size 0 ⟨0, 0, []⟩ _ h hblock ⟨by omega, by omega⟩
    split at hlines
    · rename_i hcovered
      obtain ⟨other, hother, hcovers⟩ := hcovered
      unfold Block.Covers at hcovers
      by_cases heq : other = block
      · rw [heq] at hcovers
        omega
      · obtain ⟨hptr, hapart⟩ := h.separate_of_ne hother hblock heq
        apply hptr
        apply BitVec.eq_of_toNat_eq
        have hfirst : other.first = block.first := by omega
        unfold Block.first at hfirst
        omega
    · omega
  · obtain ⟨addr, size, haddr, hsize⟩ := @exists_access (block.last - 1) 2 (by omega) (by omega)
    have hlines := htraces addr size 0 ⟨0, 0, []⟩ (by omega)
    have hpos := @storeLines_pos _ _ addr size 0 ⟨0, 0, []⟩ _ h hblock ⟨by omega, by omega⟩
    split at hlines
    · rename_i hcovered
      obtain ⟨other, hother, hcovers⟩ := hcovered
      unfold Block.Covers at hcovers
      by_cases heq : other = block
      · rw [heq] at hcovers
        omega
      · obtain ⟨-, hapart⟩ := h.separate_of_ne hother hblock heq
        omega
    · omega

theorem Mirrors.exact_of_tracesStores (h : Mirrors rt live) (htraces : TracesStores rt live)
    (hblock : block ∈ live) : block.Exact := by
  by_contra hexact
  have huser := h.userSpace block hblock
  have hnonneg := block.first_nonneg
  have hlast : block.last = block.first + block.alloc.length := rfl
  rcases Block.registered_of_not_exact huser hexact with hlong | ⟨hpos, hshort⟩
  · have hle := h.registered_le htraces hblock
    omega
  · -- the last byte of the block is missed, and no other range may reach it
    obtain ⟨addr, size, haddr, hsize⟩ := @exists_access (block.last - 1) 1 (by omega) (by omega)
    have hlines := htraces addr size 0 ⟨0, 0, []⟩ (by omega)
    rw [if_pos ⟨block, hblock, by omega, by omega⟩] at hlines
    obtain ⟨other, hother, hhit⟩ := h.exists_hit (by rw [hlines]; decide)
    unfold Block.Hit at hhit
    by_cases heq : other = block
    · rw [heq] at hhit
      omega
    · obtain ⟨-, hapart⟩ := h.separate_of_ne hother hblock heq
      have hle := h.registered_le htraces hother
      omega

/-- **The runtime traces the persistent accesses** after every run exactly when each live block was
registered with its own length. -/
theorem tracesStores_iff (h : Reachable rt live) :
    TracesStores rt live ↔ ∀ block ∈ live, block.Exact :=
  ⟨fun htraces _ hblock => h.mirrors.exact_of_tracesStores htraces hblock,
    h.mirrors.tracesStores⟩

theorem tracesStores_malloc :
    TracesStores (Runtime.start.pmcInitialize.step (.malloc 0x1000 16)).1
      [⟨0x1000, .malloc 16⟩] := by
  have hfresh : Admissible [] (.malloc 0x1000 16) := ⟨by decide, by simp⟩
  refine (tracesStores_iff (.step (.malloc 0x1000 16) .start hfresh)).mpr ?_
  intro block hblock
  rw [List.mem_singleton.mp hblock]
  exact .inl rfl

/-- The second of four elements that `calloc` allocates is live, and a store to it is not
printed. -/
theorem not_tracesStores_calloc :
    Reachable (Runtime.start.pmcInitialize.step (.calloc 0x1000 4 8)).1
        [⟨0x1000, .calloc 4 8⟩] ∧
      ¬TracesStores (Runtime.start.pmcInitialize.step (.calloc 0x1000 4 8)).1
        [⟨0x1000, .calloc 4 8⟩] := by
  refine ⟨.step (.calloc 0x1000 4 8) .start ⟨by decide, by simp⟩, ?_⟩
  intro htraces
  have hlines := htraces 0x1008 8 7 ⟨5, 3, ['p', 'u', 't']⟩ (by decide)
  rw [if_pos ⟨⟨0x1000, .calloc 4 8⟩, by simp, by decide⟩] at hlines
  exact absurd hlines (by decide)

end Lines

end PMBugRepair
