import Sudachi.Foundations.Results
import Sudachi.Kernel.PageTable

/-!
# Copies between a process and linear memory

`CopyMemoryFromLinearToUser`, `CopyMemoryFromLinearToKernel`, `CopyMemoryFromUserToLinear` and
`CopyMemoryFromKernelToLinear` of `k_page_table_base.cpp`. They share one loop over the pages of a
virtual range, which merges pages that are contiguous in physical memory, and differ in the
direction and in what `PerformCopy` does with a merged run. A copy is modelled by the sequence of
bytes it moves.

The traversal adds the offset of the start address to the entry of every page. A copy therefore
moves the bytes of its virtual range exactly if the range starts at a page boundary or ends in its
first page, and none of its pages is mapped to its own address (`run_eq_ok_iff`).
-/

set_option autoImplicit false

namespace Sudachi.Kernel

open Sudachi.Common Sudachi.Foundations List Nat
open KMemoryAttribute (none uncached)
open KMemoryState (normal)
open Nat (add_assoc add_mul add_zero one_mul zero_add)

/-- A byte that a copy touches: at a linear mapped physical address, or at an address of the other
side, which is a kernel buffer or the memory of the current process. -/
inductive CopyByte where
  | linear (phys : Nat)
  | other (address : Nat)
deriving DecidableEq, Repr

/-- One byte that a copy moves. -/
structure Transfer where
  dst : CopyByte
  src : CopyByte
deriving DecidableEq, Repr

/-- The direction of a copy: `fromLinear` reads the pages of the table and `toLinear` writes them. -/
inductive CopyDirection where
  | fromLinear
  | toLinear
deriving DecidableEq, Repr

/-- The move of one byte between the address `other` of the other side and the physical address
`phys`. -/
def CopyDirection.transfer (d : CopyDirection) (other phys : Nat) : Transfer :=
  match d with
  | fromLinear => ⟨.other other, .linear phys⟩
  | toLinear => ⟨.linear phys, .other other⟩

/-- The bytes that `memcpy` or a block access of `n` bytes moves. -/
def CopyDirection.transferRun (d : CopyDirection) (other phys n : Nat) : List Transfer :=
  (List.range n).map fun i => d.transfer (other + i) (phys + i)

/-- What the copies ask of their surroundings: `IsLinearMappedPhysicalAddress`, and whether a page
of the current process is mapped, which decides `ReadBlock` and `WriteBlock`. -/
structure CopyEnvironment where
  isLinearMapped : Nat → Bool
  userMapped : Nat → Bool

/-- The result of `ReadBlock` and `WriteBlock` of the current process. -/
def CopyEnvironment.blockAccessible (env : CopyEnvironment) (addr size : Nat) : Bool :=
  (List.range size).all fun i => env.userMapped ((addr + i) / pageSize)

/-- The tracking variables of a copy; `cursor` is `dst_addr`, `src_addr` or `buffer`, and `moved`
collects the bytes moved so far. -/
structure CopyCursor where
  context : TraversalContext
  curAddr : Nat
  curSize : Nat
  totSize : Nat
  cursor : Nat
  moved : List Transfer
deriving DecidableEq, Repr

/-- `PerformCopy` of the copies with a kernel buffer. -/
def performCopyKernel (d : CopyDirection) (env : CopyEnvironment) (c : CopyCursor) :
    Except PageTableError CopyCursor :=
  if env.isLinearMapped c.curAddr then
    .ok { c with moved := c.moved ++ d.transferRun c.cursor c.curAddr c.curSize }
  else .error .invalidCurrentMemory

/-- The first half of `PerformCopy` of the copies with the current process: as much aligned data as
there is. -/
def copyAligned (d : CopyDirection) (env : CopyEnvironment) (c : CopyCursor) :
    Except PageTableError CopyCursor :=
  if 4 ≤ c.curSize then
    let copySize := alignDown c.curSize 4
    if env.blockAccessible c.cursor copySize then
      .ok { c with
        moved := c.moved ++ d.transferRun c.cursor c.curAddr copySize
        cursor := c.cursor + copySize
        curAddr := c.curAddr + copySize
        curSize := c.curSize - copySize }
    else .error .invalidCurrentMemory
  else .ok c

/-- The second half: the remaining data. -/
def copyRemaining (d : CopyDirection) (env : CopyEnvironment) (c : CopyCursor) :
    Except PageTableError CopyCursor :=
  if 0 < c.curSize then
    if env.blockAccessible c.cursor c.curSize then
      .ok { c with moved := c.moved ++ d.transferRun c.cursor c.curAddr c.curSize }
    else .error .invalidCurrentMemory
  else .ok c

/-- `PerformCopy` of the copies with the memory of the current process. -/
def performCopyUser (d : CopyDirection) (env : CopyEnvironment) (c : CopyCursor) :
    Except PageTableError CopyCursor :=
  if env.isLinearMapped c.curAddr then copyAligned d env c >>= copyRemaining d env
  else .error .invalidCurrentMemory

/-- One iteration of the loop of a copy. -/
def copyStep (perform : CopyCursor → Except PageTableError CopyCursor) (t : PageTable)
    (c : CopyCursor) : Except PageTableError CopyCursor :=
  let next := t.continueTraversal c.context
  let totSize := c.totSize + next.entry.blockSize
  if next.entry.physAddr ≠ c.curAddr + c.curSize then do
    let c' ← perform c
    pure { c' with
      context := next.context
      cursor := c'.cursor + c'.curSize
      curAddr := next.entry.physAddr
      curSize := next.entry.blockSize
      totSize := totSize }
  else
    .ok { c with
      context := next.context
      curSize := c.curSize + next.entry.blockSize
      totSize := totSize }

/-- `while (tot_size < size)`, at most `fuel` times. -/
def copyLoop (perform : CopyCursor → Except PageTableError CopyCursor) (t : PageTable)
    (size : Nat) : Nat → CopyCursor → Except PageTableError CopyCursor
  | 0, c => if c.totSize < size then .error (.fault .outOfFuel) else .ok c
  | fuel + 1, c =>
    if c.totSize < size then copyStep perform t c >>= copyLoop perform t size fuel else .ok c

/-- The tracking variables before the loop. -/
def copyStart (t : PageTable) (address other : Nat) : CopyCursor :=
  let first := t.beginTraversal address
  let curSize := first.entry.blockSize - (first.entry.physAddr &&& (first.entry.blockSize - 1))
  ⟨first.context, first.entry.physAddr, curSize, curSize, other, []⟩

/-- The adjustment of the last block after the loop. -/
def CopyCursor.trim (c : CopyCursor) (size : Nat) : CopyCursor :=
  if size < c.totSize then { c with curSize := c.curSize - (c.totSize - size) } else c

/-- The body that the four copies share, after the state check. The loop takes a page in each
iteration, so it runs less than `size` times. -/
def copyRange (perform : CopyCursor → Except PageTableError CopyCursor) (t : PageTable)
    (address size other : Nat) : Except PageTableError (List Transfer) := do
  let c ← copyLoop perform t size size (copyStart t address other)
  let c ← perform (c.trim size)
  pure c.moved

namespace KPageTableBase

/-- `Contains` and `CheckMemoryStateContiguous` as the copies call them. -/
def checkCopy (pt : KPageTableBase) (address size : Nat) (stateMask state : KMemoryState)
    (testPerm : KMemoryPermission) (attrMask attr : KMemoryAttribute) :
    Except PageTableError Unit := do
  if !pt.contains address size then throw .invalidCurrentMemory
  let _ ← pt.checkMemoryStateContiguous address size
    ⟨stateMask, state, testPerm, testPerm, attrMask ||| uncached, attr⟩
  pure ()

/-- `CopyMemoryFromLinearToUser`. -/
def copyMemoryFromLinearToUser (env : CopyEnvironment) (pt : KPageTableBase)
    (dstAddr size srcAddr : Nat) (srcStateMask srcState : KMemoryState)
    (srcTestPerm : KMemoryPermission) (srcAttrMask srcAttr : KMemoryAttribute) :
    Except PageTableError (List Transfer) := do
  pt.checkCopy srcAddr size srcStateMask srcState srcTestPerm srcAttrMask srcAttr
  copyRange (performCopyUser .fromLinear env) pt.impl srcAddr size dstAddr

/-- `CopyMemoryFromLinearToKernel`. -/
def copyMemoryFromLinearToKernel (env : CopyEnvironment) (pt : KPageTableBase)
    (buffer size srcAddr : Nat) (srcStateMask srcState : KMemoryState)
    (srcTestPerm : KMemoryPermission) (srcAttrMask srcAttr : KMemoryAttribute) :
    Except PageTableError (List Transfer) := do
  pt.checkCopy srcAddr size srcStateMask srcState srcTestPerm srcAttrMask srcAttr
  copyRange (performCopyKernel .fromLinear env) pt.impl srcAddr size buffer

/-- `CopyMemoryFromUserToLinear`. -/
def copyMemoryFromUserToLinear (env : CopyEnvironment) (pt : KPageTableBase) (dstAddr size : Nat)
    (dstStateMask dstState : KMemoryState) (dstTestPerm : KMemoryPermission)
    (dstAttrMask dstAttr : KMemoryAttribute) (srcAddr : Nat) :
    Except PageTableError (List Transfer) := do
  pt.checkCopy dstAddr size dstStateMask dstState dstTestPerm dstAttrMask dstAttr
  copyRange (performCopyUser .toLinear env) pt.impl dstAddr size srcAddr

/-- `CopyMemoryFromKernelToLinear`. -/
def copyMemoryFromKernelToLinear (env : CopyEnvironment) (pt : KPageTableBase) (dstAddr size : Nat)
    (dstStateMask dstState : KMemoryState) (dstTestPerm : KMemoryPermission)
    (dstAttrMask dstAttr : KMemoryAttribute) (buffer : Nat) :
    Except PageTableError (List Transfer) := do
  pt.checkCopy dstAddr size dstStateMask dstState dstTestPerm dstAttrMask dstAttr
  copyRange (performCopyKernel .toLinear env) pt.impl dstAddr size buffer

end KPageTableBase

/-- The bytes of a virtual range, in order: byte `i` of the other side and the byte at the virtual
address `address + i`. -/
def exactTransfers (d : CopyDirection) (t : PageTable) (address size other : Nat) :
    List Transfer :=
  (List.range size).map fun i => d.transfer (other + i) (t.getPhysicalAddress (address + i))

/-! ## One run -/

theorem CopyDirection.transferRun_add (d : CopyDirection) (other phys m n : Nat) :
    d.transferRun other phys (m + n) =
      d.transferRun other phys m ++ d.transferRun (other + m) (phys + m) n := by
  simp [transferRun, range_add, add_assoc]

theorem CopyEnvironment.blockAccessible_add (env : CopyEnvironment) (addr m n : Nat) :
    env.blockAccessible addr (m + n) =
      (env.blockAccessible addr m && env.blockAccessible (addr + m) n) := by
  simp [blockAccessible, range_add, add_assoc, Function.comp_def]

theorem CopyEnvironment.blockAccessible_of_forall {env : CopyEnvironment} {addr size : Nat}
    (h : ∀ i < size, env.userMapped ((addr + i) / pageSize) = true) :
    env.blockAccessible addr size = true := by
  rw [blockAccessible, all_eq_true]
  intro i hi
  exact h i (mem_range.mp hi)

/-- The current run has been moved. -/
structure MovesRun (d : CopyDirection) (c c' : CopyCursor) : Prop where
  moved : c'.moved = c.moved ++ d.transferRun c.cursor c.curAddr c.curSize
  reach : c'.cursor + c'.curSize = c.cursor + c.curSize

/-- What both forms of `PerformCopy` have in common: they move the current run or fail, and fail
only if its address is not linear mapped or the block of the other side is not accessible. -/
structure PerformsCopy (d : CopyDirection) (env : CopyEnvironment)
    (perform : CopyCursor → Except PageTableError CopyCursor) : Prop where
  sound : ∀ {c c' : CopyCursor}, perform c = .ok c' → MovesRun d c c'
  total : ∀ {c : CopyCursor}, env.isLinearMapped c.curAddr = true →
    env.blockAccessible c.cursor c.curSize = true → ∃ c', perform c = .ok c'

theorem performCopyKernel_performs (d : CopyDirection) (env : CopyEnvironment) :
    PerformsCopy d env (performCopyKernel d env) where
  sound := by
    intro c c' h
    rw [performCopyKernel] at h
    split at h
    · cases h
      exact ⟨rfl, rfl⟩
    · cases h
  total := by
    intro c hlin _
    exact ⟨_, if_pos hlin⟩

theorem copyAligned_sound {d : CopyDirection} {env : CopyEnvironment} {c c' : CopyCursor}
    (h : copyAligned d env c = .ok c') :
    ∃ n ≤ c.curSize, c'.moved = c.moved ++ d.transferRun c.cursor c.curAddr n ∧
      c'.cursor = c.cursor + n ∧ c'.curAddr = c.curAddr + n ∧ c'.curSize = c.curSize - n := by
  rw [copyAligned] at h
  split at h
  · simp only at h
    split at h
    · cases h
      exact ⟨alignDown c.curSize 4, alignDown_le _ _, rfl, rfl, rfl, rfl⟩
    · cases h
  · cases h
    exact ⟨0, zero_le _, by simp [CopyDirection.transferRun], rfl, rfl, rfl⟩

theorem copyRemaining_sound {d : CopyDirection} {env : CopyEnvironment} {c c' : CopyCursor}
    (h : copyRemaining d env c = .ok c') : MovesRun d c c' := by
  rw [copyRemaining] at h
  split at h
  · split at h
    · cases h
      exact ⟨rfl, rfl⟩
    · cases h
  · have hzero : c.curSize = 0 := by omega
    cases h
    exact ⟨by simp [hzero, CopyDirection.transferRun], rfl⟩

theorem copyAligned_total {d : CopyDirection} {env : CopyEnvironment} {c : CopyCursor}
    (hacc : env.blockAccessible c.cursor c.curSize = true) :
    ∃ c', copyAligned d env c = .ok c' ∧ env.blockAccessible c'.cursor c'.curSize = true := by
  by_cases h4 : 4 ≤ c.curSize
  · have hle : alignDown c.curSize 4 ≤ c.curSize := alignDown_le _ _
    have hsplit := env.blockAccessible_add c.cursor (alignDown c.curSize 4)
      (c.curSize - alignDown c.curSize 4)
    rw [Nat.add_sub_cancel' hle, hacc, eq_comm, Bool.and_eq_true] at hsplit
    refine ⟨{ c with
      moved := c.moved ++ d.transferRun c.cursor c.curAddr (alignDown c.curSize 4)
      cursor := c.cursor + alignDown c.curSize 4
      curAddr := c.curAddr + alignDown c.curSize 4
      curSize := c.curSize - alignDown c.curSize 4 }, ?_, hsplit.2⟩
    rw [copyAligned, if_pos h4]
    exact if_pos hsplit.1
  · exact ⟨c, by rw [copyAligned, if_neg h4], hacc⟩

theorem performCopyUser_performs (d : CopyDirection) (env : CopyEnvironment) :
    PerformsCopy d env (performCopyUser d env) where
  sound := by
    intro c c' h
    rw [performCopyUser] at h
    split at h
    · obtain ⟨c₁, h₁, h₂⟩ := bind_eq_ok.mp h
      obtain ⟨n, hn, hmoved, hcursor, haddr, hsize⟩ := copyAligned_sound h₁
      have hrest := copyRemaining_sound h₂
      refine ⟨?_, ?_⟩
      · rw [hrest.moved, hmoved, hcursor, haddr, hsize, append_assoc, ← d.transferRun_add,
          Nat.add_sub_cancel' hn]
      · rw [hrest.reach, hcursor, hsize]
        omega
    · cases h
  total := by
    intro c hlin hacc
    obtain ⟨c₁, h₁, hacc₁⟩ := copyAligned_total (d := d) hacc
    rw [performCopyUser, if_pos hlin, h₁]
    change ∃ c', copyRemaining d env c₁ = .ok c'
    by_cases hpos : 0 < c₁.curSize
    · exact ⟨_, by rw [copyRemaining, if_pos hpos, if_pos hacc₁]⟩
    · exact ⟨c₁, by rw [copyRemaining, if_neg hpos]⟩

/-! ## The loop -/

section Loop

variable {d : CopyDirection} {env : CopyEnvironment}
  {perform : CopyCursor → Except PageTableError CopyCursor} {t : PageTable}
  {address size other : Nat}

/-- The size of the first block of a copy. -/
def headSize (t : PageTable) (address : Nat) : Nat :=
  pageSize - t.traversedAddress (address / pageSize) (address % pageSize) % pageSize

/-- The physical address that a copy uses for byte `i` of its range. -/
def copiedAddress (t : PageTable) (address i : Nat) : Nat :=
  if i < headSize t address then t.traversedAddress (address / pageSize) (address % pageSize) + i
  else
    t.traversedAddress (address / pageSize + 1 + (i - headSize t address) / pageSize)
      (address % pageSize) + (i - headSize t address) % pageSize

theorem headSize_pos (t : PageTable) (address : Nat) : 0 < headSize t address :=
  Nat.sub_pos_of_lt (mod_lt _ pageSize_pos)

theorem headSize_le (t : PageTable) (address : Nat) : headSize t address ≤ pageSize :=
  sub_le _ _

theorem copiedAddress_later (t : PageTable) (address k : Nat) {i : Nat} (hi : i < pageSize) :
    copiedAddress t address (headSize t address + k * pageSize + i) =
      t.traversedAddress (address / pageSize + 1 + k) (address % pageSize) + i := by
  have hsub : headSize t address + k * pageSize + i - headSize t address = k * pageSize + i := by
    omega
  have hdiv : (k * pageSize + i) / pageSize = k := by
    rw [add_comm, add_mul_div_right _ _ pageSize_pos, div_eq_of_lt hi, zero_add]
  have hmod : (k * pageSize + i) % pageSize = i := by
    rw [add_comm, add_mul_mod_self_right, mod_eq_of_lt hi]
  rw [copiedAddress, if_neg (by omega), hsub, hdiv, hmod]

/-- The bytes moved so far and those of the current run. -/
def CopyCursor.view (d : CopyDirection) (c : CopyCursor) : List Transfer :=
  c.moved ++ d.transferRun c.cursor c.curAddr c.curSize

/-- The loop has taken `k` pages after the first one. -/
structure CopyProgress (d : CopyDirection) (t : PageTable) (address size other k : Nat)
    (c : CopyCursor) : Prop where
  context : c.context = ⟨address / pageSize + 1 + k,
    (address / pageSize + 1 + k) * pageSize + address % pageSize⟩
  tot : c.totSize = headSize t address + k * pageSize
  reach : c.cursor + c.curSize = other + c.totSize
  start : c.curAddr = copiedAddress t address (c.totSize - c.curSize)
  curSize_le : c.curSize ≤ c.totSize
  notPast : c.totSize < size + c.curSize
  view : c.view d =
    (List.range c.totSize).map fun i => d.transfer (other + i) (copiedAddress t address i)

theorem PageTable.WellFormed.pageSize_sub_le_headSize (hwf : t.WellFormed) (address : Nat) :
    pageSize - address % pageSize ≤ headSize t address := by
  have hal := hwf.pageSize_dvd_frame (address / pageSize)
  rw [headSize, PageTable.traversedAddress]
  split
  · rw [zero_mod]
    exact sub_le _ _
  · rw [add_mod, mod_eq_zero_of_dvd hal, zero_add, mod_mod, mod_mod]

/-- Every page that the loop looks at is mapped. -/
theorem mapped_of_totSize_lt (hwf : t.WellFormed) (hm : t.RangeMapped address size) {k : Nat}
    (hlt : headSize t address + k * pageSize < size) :
    t.mapped (address / pageSize + 1 + k) = true := by
  have hmod := mod_lt address pageSize_pos
  have hdiv := div_add_mod' address pageSize
  have hhead := hwf.pageSize_sub_le_headSize address
  have hsum : address + (pageSize - address % pageSize + k * pageSize) =
      (address / pageSize + 1 + k) * pageSize := by
    rw [add_mul, add_mul, one_mul]
    omega
  have hpage := hm (pageSize - address % pageSize + k * pageSize) (by omega)
  rwa [hsum, Nat.mul_div_cancel _ pageSize_pos] at hpage

theorem copyStart_progress (hwf : t.WellFormed) (hm : t.RangeMapped address size) (hsize : 0 < size)
    (d : CopyDirection) (other : Nat) :
    CopyProgress d t address size other 0 (copyStart t address other) := by
  have hfirst : t.mapped (address / pageSize) = true := hm 0 hsize
  have hentry := hwf.beginTraversal_entry hfirst
  have hhead : pageSize - (t.traversedAddress (address / pageSize) (address % pageSize) &&&
      (pageSize - 1)) = headSize t address := pageSize_sub_and _
  have hstart : copyStart t address other =
      ⟨⟨address / pageSize + 1, (address / pageSize + 1) * pageSize + address % pageSize⟩,
        t.traversedAddress (address / pageSize) (address % pageSize), headSize t address,
        headSize t address, other, []⟩ := by
    simp only [copyStart, hentry, hhead]
  rw [hstart]
  constructor
  case context => rfl
  case tot => simp only [zero_mul, add_zero]
  case reach => rfl
  case start =>
    simp only [Nat.sub_self, copiedAddress, if_pos (headSize_pos t address), add_zero]
  case curSize_le => exact le_refl _
  case notPast => exact Nat.lt_add_of_pos_left hsize
  case view =>
    rw [CopyCursor.view, nil_append, CopyDirection.transferRun]
    refine map_congr_left fun i hi => ?_
    rw [copiedAddress, if_pos (mem_range.mp hi)]

/-- The bytes of the page that an iteration takes. -/
theorem view_extend (d : CopyDirection) (t : PageTable) (address other k : Nat) {tot : Nat}
    (htot : tot = headSize t address + k * pageSize) :
    ((range tot).map fun i => d.transfer (other + i) (copiedAddress t address i)) ++
        d.transferRun (other + tot)
          (t.traversedAddress (address / pageSize + 1 + k) (address % pageSize)) pageSize =
      (range (tot + pageSize)).map fun i =>
        d.transfer (other + i) (copiedAddress t address i) := by
  rw [range_add, map_append, map_map, CopyDirection.transferRun]
  refine congrArg _ (map_congr_left fun i hi => ?_)
  rw [Function.comp_apply, htot, copiedAddress_later t address k (mem_range.mp hi), add_assoc]

section

variable (hperf : PerformsCopy d env perform) (hwf : t.WellFormed) (hm : t.RangeMapped address size)
include hperf hwf hm

/-- An iteration that succeeds has taken one more page. -/
theorem CopyProgress.step {k : Nat} {c c' : CopyCursor}
    (h : CopyProgress d t address size other k c) (hlt : c.totSize < size)
    (hstep : copyStep perform t c = .ok c') : CopyProgress d t address size other (k + 1) c' := by
  have hmapped := mapped_of_totSize_lt hwf hm (h.tot ▸ hlt)
  have hentry := hwf.continueTraversal_entry hmapped (mod_lt address pageSize_pos)
  have hview := view_extend d t address other k h.tot
  have htot : c.totSize + pageSize = headSize t address + (k + 1) * pageSize := by
    rw [h.tot, add_mul, one_mul, add_assoc]
  have hstart := copiedAddress_later t address k (i := 0) pageSize_pos
  rw [add_zero, add_zero, ← h.tot] at hstart
  simp only [copyStep, h.context, hentry] at hstep
  split at hstep
  · -- the next page is elsewhere: the current run is moved and the next one starts
    obtain ⟨c₁, hc₁, hpure⟩ := bind_eq_ok.mp hstep
    cases hpure
    have hrun := hperf.sound hc₁
    constructor
    case context => rfl
    case tot => exact htot
    case reach =>
      simp only [hrun.reach, h.reach]
      omega
    case start =>
      simp only [Nat.add_sub_cancel]
      exact hstart.symm
    case curSize_le => exact le_add_left _ _
    case notPast =>
      simp only
      omega
    case view =>
      have hcur := h.view
      simp only [CopyCursor.view] at hcur
      simp only [CopyCursor.view, hrun.moved, hrun.reach, h.reach, hcur, hview]
  · -- the next page continues the current run
    rename_i hcont
    rw [ne_eq, Decidable.not_not] at hcont
    cases hstep
    constructor
    case context => rfl
    case tot => exact htot
    case reach =>
      have := h.reach
      simp only
      omega
    case start =>
      simp only [Nat.add_sub_add_right]
      exact h.start
    case curSize_le => exact Nat.add_le_add_right h.curSize_le _
    case notPast =>
      simp only
      omega
    case view =>
      have hcur := h.view
      simp only [CopyCursor.view] at hcur ⊢
      rw [d.transferRun_add, ← append_assoc, hcur, h.reach, ← hcont, hview]

theorem CopyProgress.loop {fuel k : Nat} {c c' : CopyCursor}
    (h : CopyProgress d t address size other k c)
    (hloop : copyLoop perform t size fuel c = .ok c') :
    size ≤ c'.totSize ∧ ∃ k', CopyProgress d t address size other k' c' := by
  induction fuel generalizing k c with
  | zero =>
    rw [copyLoop] at hloop
    split at hloop
    · cases hloop
    · cases hloop
      exact ⟨by omega, k, h⟩
  | succ fuel ih =>
    rw [copyLoop] at hloop
    split at hloop
    · rename_i hlt
      obtain ⟨c₁, hstep, hrest⟩ := bind_eq_ok.mp hloop
      exact ih (h.step hperf hwf hm hlt hstep) hrest
    · cases hloop
      exact ⟨by omega, k, h⟩

end

theorem CopyDirection.length_transferRun (d : CopyDirection) (other phys n : Nat) :
    (d.transferRun other phys n).length = n := by
  rw [transferRun, length_map, length_range]

theorem CopyDirection.take_transferRun (d : CopyDirection) (other phys : Nat) {m n : Nat}
    (h : m ≤ n) : (d.transferRun other phys n).take m = d.transferRun other phys m := by
  rw [transferRun, transferRun, ← map_take, take_range, min_eq_left h]

theorem CopyCursor.trim_eq {c : CopyCursor} (h : size ≤ c.totSize) :
    c.trim size = { c with curSize := c.curSize - (c.totSize - size) } := by
  rw [trim]
  split
  · rfl
  · have htot : c.totSize - size = 0 := by omega
    rw [htot]
    rfl

/-- After the loop, the bytes moved and those of the trimmed last run are the bytes of the range. -/
theorem CopyProgress.view_trim {k : Nat} {c : CopyCursor}
    (h : CopyProgress d t address size other k c) (hle : size ≤ c.totSize) : (c.trim size).view d =
      (range size).map fun i => d.transfer (other + i) (copiedAddress t address i) := by
  have hview := h.view
  have hpast := h.notPast
  have hlen : c.moved.length + c.curSize = c.totSize := by
    have := congrArg length hview
    rwa [CopyCursor.view, length_append, d.length_transferRun, length_map, length_range] at this
  have htake := congrArg (take size) hview
  rw [← map_take, take_range, min_eq_left hle] at htake
  have hrest : size - c.moved.length = c.curSize - (c.totSize - size) := by omega
  rw [← htake, CopyCursor.trim_eq hle, CopyCursor.view, CopyCursor.view, take_append,
    take_of_length_le (by omega), hrest, d.take_transferRun _ _ (by omega)]

section

variable (hperf : PerformsCopy d env perform)
include hperf

/-- The bytes that a copy moves. -/
theorem copyRange_sound (hwf : t.WellFormed) (hm : t.RangeMapped address size) (hsize : 0 < size)
    {ts : List Transfer} (h : copyRange perform t address size other = .ok ts) :
    ts = (range size).map fun i => d.transfer (other + i) (copiedAddress t address i) := by
  rw [copyRange] at h
  obtain ⟨c, hloop, h⟩ := bind_eq_ok.mp h
  obtain ⟨c', hlast, h⟩ := bind_eq_ok.mp h
  obtain ⟨hle, k, hprog⟩ := (copyStart_progress hwf hm hsize d other).loop hperf hwf hm hloop
  cases h
  rw [(hperf.sound hlast).moved]
  exact hprog.view_trim hle

/-- The current run can be moved if its part of the range is accessible. -/
theorem CopyProgress.perform_total
    (hlin : ∀ i < size, env.isLinearMapped (copiedAddress t address i) = true)
    (huser : ∀ i < size, env.userMapped ((other + i) / pageSize) = true) {k : Nat} {c : CopyCursor}
    (h : CopyProgress d t address size other k c) {n : Nat}
    (hend : c.totSize - c.curSize + n ≤ size) : ∃ c', perform { c with curSize := n } = .ok c' := by
  have hpast := h.notPast
  have hcur := h.curSize_le
  have hreach := h.reach
  refine hperf.total ?_ ?_
  · simp only [h.start]
    exact hlin _ (by omega)
  · refine CopyEnvironment.blockAccessible_of_forall fun i hi => ?_
    have hidx := huser (c.totSize - c.curSize + i) (by simp only at hi; omega)
    have hsum : other + (c.totSize - c.curSize + i) = c.cursor + i := by omega
    rwa [hsum] at hidx

theorem CopyProgress.step_total
    (hlin : ∀ i < size, env.isLinearMapped (copiedAddress t address i) = true)
    (huser : ∀ i < size, env.userMapped ((other + i) / pageSize) = true) {k : Nat} {c : CopyCursor}
    (h : CopyProgress d t address size other k c) (hlt : c.totSize < size) :
    ∃ c', copyStep perform t c = .ok c' := by
  have hcur := h.curSize_le
  rw [copyStep]
  split
  · have hend : c.totSize - c.curSize + c.curSize ≤ size := by omega
    obtain ⟨c₁, hc₁⟩ := h.perform_total hperf hlin huser hend
    rw [hc₁, ok_bind]
    exact ⟨_, rfl⟩
  · exact ⟨_, rfl⟩

theorem CopyProgress.loop_total (hwf : t.WellFormed) (hm : t.RangeMapped address size)
    (hlin : ∀ i < size, env.isLinearMapped (copiedAddress t address i) = true)
    (huser : ∀ i < size, env.userMapped ((other + i) / pageSize) = true) {fuel k : Nat}
    {c : CopyCursor} (h : CopyProgress d t address size other k c)
    (hfuel : size ≤ c.totSize + fuel) : ∃ c', copyLoop perform t size fuel c = .ok c' := by
  induction fuel generalizing k c with
  | zero => exact ⟨c, by rw [copyLoop, if_neg (by omega)]⟩
  | succ fuel ih =>
    rw [copyLoop]
    split
    · rename_i hlt
      obtain ⟨c₁, hstep⟩ := h.step_total hperf hlin huser hlt
      have h₁ := h.step hperf hwf hm hlt hstep
      have htot : c.totSize + pageSize = c₁.totSize := by
        rw [h₁.tot, h.tot, add_mul, one_mul, add_assoc]
      have hpos := pageSize_pos
      rw [hstep, ok_bind]
      exact ih h₁ (by omega)
    · exact ⟨c, rfl⟩

/-- A copy succeeds if everything it touches is accessible. -/
theorem copyRange_total (hwf : t.WellFormed) (hm : t.RangeMapped address size) (hsize : 0 < size)
    (hlin : ∀ i < size, env.isLinearMapped (copiedAddress t address i) = true)
    (huser : ∀ i < size, env.userMapped ((other + i) / pageSize) = true) :
    ∃ ts, copyRange perform t address size other = .ok ts := by
  have hstart := copyStart_progress hwf hm hsize d other
  obtain ⟨c, hloop⟩ := hstart.loop_total hperf hwf hm hlin huser (le_add_left size _)
  obtain ⟨hle, k, hprog⟩ := hstart.loop hperf hwf hm hloop
  have hpast := hprog.notPast
  have hcur := hprog.curSize_le
  have hend : c.totSize - c.curSize + (c.curSize - (c.totSize - size)) ≤ size := by omega
  obtain ⟨c', hlast⟩ := hprog.perform_total hperf hlin huser hend
  rw [← CopyCursor.trim_eq hle] at hlast
  exact ⟨c'.moved, by rw [copyRange, hloop, ok_bind, hlast, ok_bind]; rfl⟩

end

end Loop

/-! ## When the right bytes are moved -/

section Exact

variable {t : PageTable} {address size : Nat}

/-- The range starts at a page boundary or ends in its first page, and none of its pages is mapped
to its own address. -/
def PageTable.CopyableRange (t : PageTable) (address size : Nat) : Prop :=
  (address % pageSize = 0 ∨ address % pageSize + size ≤ pageSize) ∧
    ∀ i < size, ¬t.IdentityMapped ((address + i) / pageSize)

theorem headSize_eq (hwf : t.WellFormed) (hm : t.mapped (address / pageSize) = true)
    (hid : ¬t.IdentityMapped (address / pageSize)) :
    headSize t address = pageSize - address % pageSize := by
  have hal := hwf.pageSize_dvd_frame (address / pageSize)
  rw [headSize, hwf.traversedAddress_eq hm hid, add_mod, mod_eq_zero_of_dvd hal,
    zero_add, mod_mod, mod_mod]

theorem getPhysicalAddress_first (hwf : t.WellFormed) {i : Nat}
    (hi : address % pageSize + i < pageSize) :
    t.getPhysicalAddress (address + i) = t.frame (address / pageSize) + address % pageSize + i := by
  have hdiv := div_add_mod' address pageSize
  have hsum : address + i = address % pageSize + i + address / pageSize * pageSize := by omega
  have hpage : (address + i) / pageSize = address / pageSize := by
    rw [hsum, add_mul_div_right _ _ pageSize_pos, div_eq_of_lt hi, zero_add]
  have hoff : (address + i) % pageSize = address % pageSize + i := by
    rw [hsum, add_mul_mod_self_right, mod_eq_of_lt hi]
  rw [hwf.getPhysicalAddress_eq, hpage, hoff, add_assoc]

theorem getPhysicalAddress_later (hwf : t.WellFormed) (k : Nat) {i : Nat} (hi : i < pageSize) :
    t.getPhysicalAddress (address + (pageSize - address % pageSize + k * pageSize + i)) =
      t.frame (address / pageSize + 1 + k) + i := by
  have hmod := mod_lt address pageSize_pos
  have hdiv := div_add_mod' address pageSize
  have hsum : address + (pageSize - address % pageSize + k * pageSize + i) =
      i + (address / pageSize + 1 + k) * pageSize := by
    rw [add_mul, add_mul, one_mul]
    omega
  have hpage : (i + (address / pageSize + 1 + k) * pageSize) / pageSize =
      address / pageSize + 1 + k := by
    rw [add_mul_div_right _ _ pageSize_pos, div_eq_of_lt hi, zero_add]
  have hoff : (i + (address / pageSize + 1 + k) * pageSize) % pageSize = i := by
    rw [add_mul_mod_self_right, mod_eq_of_lt hi]
  rw [hsum, hwf.getPhysicalAddress_eq, hpage, hoff]

/-- Every index behind the first page is an index in a later page. -/
theorem exists_later {head i : Nat} (h : head ≤ i) :
    ∃ k j, j < pageSize ∧ i = head + k * pageSize + j := by
  have hdiv := div_add_mod' (i - head) pageSize
  exact ⟨(i - head) / pageSize, (i - head) % pageSize, mod_lt _ pageSize_pos, by omega⟩

theorem page_first {i : Nat} (hi : address % pageSize + i < pageSize) :
    (address + i) / pageSize = address / pageSize := by
  have hdiv := div_add_mod' address pageSize
  have hsum : address + i = address % pageSize + i + address / pageSize * pageSize := by omega
  rw [hsum, add_mul_div_right _ _ pageSize_pos, div_eq_of_lt hi, zero_add]

theorem page_later (address k : Nat) {i : Nat} (hi : i < pageSize) :
    (address + (pageSize - address % pageSize + k * pageSize + i)) / pageSize =
      address / pageSize + 1 + k := by
  have hmod := mod_lt address pageSize_pos
  have hdiv := div_add_mod' address pageSize
  have hsum : address + (pageSize - address % pageSize + k * pageSize + i) =
      i + (address / pageSize + 1 + k) * pageSize := by
    rw [add_mul, add_mul, one_mul]
    omega
  rw [hsum, add_mul_div_right _ _ pageSize_pos, div_eq_of_lt hi, zero_add]

/-- The copy uses the right address in a later page exactly if it started at a page boundary and the
page is not mapped to its own address. -/
theorem copiedAddress_later_eq_iff (hwf : t.WellFormed)
    (hhead : headSize t address = pageSize - address % pageSize) {k i : Nat} (hi : i < pageSize)
    (hm : t.mapped (address / pageSize + 1 + k) = true) :
    copiedAddress t address (pageSize - address % pageSize + k * pageSize + i) =
        t.getPhysicalAddress (address + (pageSize - address % pageSize + k * pageSize + i)) ↔
      address % pageSize = 0 ∧ ¬t.IdentityMapped (address / pageSize + 1 + k) := by
  have hcopied := copiedAddress_later t address k hi
  rw [hhead] at hcopied
  rw [hcopied, getPhysicalAddress_later hwf k hi, Nat.add_right_cancel_iff]
  by_cases hid : t.IdentityMapped (address / pageSize + 1 + k)
  · have hdram := hwf.inDram _ hm
    simp only [dramBase] at hdram
    rw [hwf.traversedAddress_eq_zero hm hid]
    simp only [hid, not_true_eq_false, and_false, iff_false]
    omega
  · rw [hwf.traversedAddress_eq hm hid]
    simp only [hid, not_false_eq_true, and_true]
    omega

theorem copiedAddress_first (hwf : t.WellFormed) (hm : t.mapped (address / pageSize) = true)
    (hid : ¬t.IdentityMapped (address / pageSize)) {i : Nat}
    (hi : address % pageSize + i < pageSize) :
    copiedAddress t address i = t.getPhysicalAddress (address + i) := by
  have hlt : i < headSize t address := by
    rw [headSize_eq hwf hm hid]
    omega
  rw [copiedAddress, if_pos hlt, hwf.traversedAddress_eq hm hid, getPhysicalAddress_first hwf hi]

/-- A copy uses the right address of every byte exactly on a copyable range. -/
theorem copiedAddress_eq_iff (hwf : t.WellFormed) (hm : t.RangeMapped address size)
    (hsize : 0 < size) :
    (∀ i < size, copiedAddress t address i = t.getPhysicalAddress (address + i)) ↔
      t.CopyableRange address size := by
  have hfirst : t.mapped (address / pageSize) = true := hm 0 hsize
  have hmod := mod_lt address pageSize_pos
  have hlater : ∀ k, pageSize - address % pageSize + k * pageSize < size →
      t.mapped (address / pageSize + 1 + k) = true := by
    intro k hk
    have hpage := hm _ hk
    have := page_later address k pageSize_pos
    rw [add_zero] at this
    rwa [this] at hpage
  constructor
  · intro h
    have hid : ¬t.IdentityMapped (address / pageSize) := by
      have h0 := h 0 hsize
      rw [copiedAddress, if_pos (headSize_pos t address), getPhysicalAddress_first hwf (by omega),
        add_zero, add_zero] at h0
      exact (hwf.traversedAddress_eq_iff hfirst _).mp h0
    have hhead := headSize_eq hwf hfirst hid
    refine ⟨?_, ?_⟩
    · by_contra hnot
      push Not at hnot
      have hend : pageSize - address % pageSize + 0 * pageSize + 0 < size := by omega
      have hpage := hlater 0 (by omega)
      exact hnot.1 ((copiedAddress_later_eq_iff hwf hhead pageSize_pos hpage).mp (h _ hend)).1
    · intro i hi
      by_cases hin : address % pageSize + i < pageSize
      · rwa [page_first hin]
      · obtain ⟨k, j, hj, rfl⟩ := @exists_later (pageSize - address % pageSize) i (by omega)
        rw [page_later address k hj]
        have hpage := hlater k (by omega)
        exact ((copiedAddress_later_eq_iff hwf hhead hj hpage).mp (h _ hi)).2
  · rintro ⟨hshape, hid⟩ i hi
    have hid0 : ¬t.IdentityMapped (address / pageSize) := hid 0 hsize
    by_cases hin : address % pageSize + i < pageSize
    · exact copiedAddress_first hwf hfirst hid0 hin
    · obtain ⟨k, j, hj, rfl⟩ := @exists_later (pageSize - address % pageSize) i (by omega)
      have hidk := hid _ hi
      rw [page_later address k hj] at hidk
      exact (copiedAddress_later_eq_iff hwf (headSize_eq hwf hfirst hid0) hj
        (hlater k (by omega))).mpr ⟨by omega, hidk⟩

end Exact

/-- The four copies. -/
inductive CopyRoutine where
  | linearToUser
  | linearToKernel
  | userToLinear
  | kernelToLinear
deriving DecidableEq, Repr

namespace CopyRoutine

def direction : CopyRoutine → CopyDirection
  | linearToUser => .fromLinear
  | linearToKernel => .fromLinear
  | userToLinear => .toLinear
  | kernelToLinear => .toLinear

/-- The call of the routine for the range of `size` bytes at `address` of the page table and the
address `other` of the other side. -/
def run (r : CopyRoutine) (env : CopyEnvironment) (pt : KPageTableBase) (address size other : Nat)
    (stateMask state : KMemoryState) (testPerm : KMemoryPermission)
    (attrMask attr : KMemoryAttribute) : Except PageTableError (List Transfer) :=
  match r with
  | linearToUser =>
    pt.copyMemoryFromLinearToUser env other size address stateMask state testPerm attrMask attr
  | linearToKernel =>
    pt.copyMemoryFromLinearToKernel env other size address stateMask state testPerm attrMask attr
  | userToLinear =>
    pt.copyMemoryFromUserToLinear env address size stateMask state testPerm attrMask attr other
  | kernelToLinear =>
    pt.copyMemoryFromKernelToLinear env address size stateMask state testPerm attrMask attr other

/-- `PerformCopy` of the routine. -/
def perform (r : CopyRoutine) (env : CopyEnvironment) (c : CopyCursor) :
    Except PageTableError CopyCursor :=
  match r with
  | linearToUser => performCopyUser .fromLinear env c
  | linearToKernel => performCopyKernel .fromLinear env c
  | userToLinear => performCopyUser .toLinear env c
  | kernelToLinear => performCopyKernel .toLinear env c

theorem perform_performs (r : CopyRoutine) (env : CopyEnvironment) :
    PerformsCopy r.direction env (r.perform env) := by
  cases r with
  | linearToUser => exact performCopyUser_performs .fromLinear env
  | linearToKernel => exact performCopyKernel_performs .fromLinear env
  | userToLinear => exact performCopyUser_performs .toLinear env
  | kernelToLinear => exact performCopyKernel_performs .toLinear env

theorem run_eq (r : CopyRoutine) (env : CopyEnvironment) (pt : KPageTableBase)
    (address size other : Nat) (stateMask state : KMemoryState) (testPerm : KMemoryPermission)
    (attrMask attr : KMemoryAttribute) :
    r.run env pt address size other stateMask state testPerm attrMask attr =
      (pt.checkCopy address size stateMask state testPerm attrMask attr >>= fun _ =>
        copyRange (r.perform env) pt.impl address size other) := by
  cases r <;> rfl

/-- The other side of the routine is the memory of the current process. -/
def usesProcess : CopyRoutine → Bool
  | linearToUser => true
  | linearToKernel => false
  | userToLinear => true
  | kernelToLinear => false

theorem perform_congr {r : CopyRoutine} {env env' : CopyEnvironment}
    (hlin : env.isLinearMapped = env'.isLinearMapped)
    (huser : r.usesProcess = true → env.userMapped = env'.userMapped) :
    r.perform env = r.perform env' := by
  obtain ⟨lin, user⟩ := env
  obtain ⟨lin', user'⟩ := env'
  obtain rfl : lin = lin' := hlin
  cases r with
  | linearToUser => rw [show user = user' from huser rfl]
  | linearToKernel => rfl
  | userToLinear => rw [show user = user' from huser rfl]
  | kernelToLinear => rfl

theorem transfer_inj (d : CopyDirection) (other : Nat) {phys phys' : Nat} :
    d.transfer other phys = d.transfer other phys' ↔ phys = phys' := by
  cases d <;> simp [CopyDirection.transfer]

theorem size_pos_of_checkCopy {pt : KPageTableBase} {address size : Nat}
    {stateMask state : KMemoryState} {testPerm : KMemoryPermission}
    {attrMask attr : KMemoryAttribute}
    (h : pt.checkCopy address size stateMask state testPerm attrMask attr = .ok ()) : 0 < size := by
  by_contra hnot
  have hcontains : pt.contains address size = false := by
    simp [KPageTableBase.contains, Nat.eq_zero_of_not_pos hnot]
  rw [KPageTableBase.checkCopy, hcontains] at h
  cases h

/-- A copy whose range passes the checks, lies in mapped and linear mapped pages and whose other
side is accessible moves exactly the bytes of its virtual range, in order, if and only if the range
starts at a page boundary or ends in its first page, and none of its pages is mapped to its own
address. -/
theorem run_eq_ok_iff (r : CopyRoutine) (env : CopyEnvironment) (pt : KPageTableBase)
    (address size other : Nat) (stateMask state : KMemoryState) (testPerm : KMemoryPermission)
    (attrMask attr : KMemoryAttribute) (hwf : pt.impl.WellFormed)
    (hmapped : pt.impl.RangeMapped address size)
    (hcheck : pt.checkCopy address size stateMask state testPerm attrMask attr = .ok ())
    (hlinear : ∀ i < size, env.isLinearMapped (pt.impl.getPhysicalAddress (address + i)) = true)
    (huser : r.usesProcess = true → ∀ i < size, env.userMapped ((other + i) / pageSize) = true) :
    r.run env pt address size other stateMask state testPerm attrMask attr =
        .ok (exactTransfers r.direction pt.impl address size other) ↔
      pt.impl.CopyableRange address size := by
  have hsize := size_pos_of_checkCopy hcheck
  rw [← copiedAddress_eq_iff hwf hmapped hsize, run_eq, hcheck, ok_bind]
  constructor
  · intro h
    have hsound := copyRange_sound (r.perform_performs env) hwf hmapped hsize h
    rw [exactTransfers, map_inj_left] at hsound
    intro i hi
    exact ((transfer_inj _ _).mp (hsound i (mem_range.mpr hi))).symm
  · intro h
    -- what a copy with a kernel buffer does does not depend on the current process
    let env' : CopyEnvironment :=
      ⟨env.isLinearMapped, if r.usesProcess then env.userMapped else fun _ => true⟩
    have henv : r.perform env = r.perform env' := perform_congr rfl fun hp => by simp [env', hp]
    have huser' : ∀ i < size, env'.userMapped ((other + i) / pageSize) = true := by
      intro i hi
      by_cases hp : r.usesProcess = true
      · simpa [env', hp] using huser hp i hi
      · simp [env', hp]
    have hlin : ∀ i < size, env'.isLinearMapped (copiedAddress pt.impl address i) = true :=
      fun i hi => (h i hi).symm ▸ hlinear i hi
    obtain ⟨ts, hts⟩ :=
      copyRange_total (r.perform_performs env') hwf hmapped hsize hlin huser'
    have hsound := copyRange_sound (r.perform_performs env') hwf hmapped hsize hts
    rw [henv, hts, hsound, exactTransfers]
    refine congrArg _ (map_congr_left fun i hi => ?_)
    rw [h i (mem_range.mp hi)]

/-- An address space of sixteen pages of normal memory in which two neighbouring pages are mapped to
pages apart from each other. -/
def scatteredPages : KPageTableBase where
  impl := ((PageTable.resized 16).mapPages 8 1 0x80000000).mapPages 9 1 0x80005000
  memoryBlockManager := ⟨[KMemoryBlock.initializeBlock 0 16 normal
    KMemoryPermission.userReadWrite none], 0, 0x10000⟩
  addressSpaceStart := 0
  addressSpaceEnd := 0x10000

theorem scatteredPages_wellFormed : scatteredPages.impl.WellFormed :=
  ((PageTable.resized_wellFormed (by decide)).mapPages (by decide) (by decide) (by decide)
    (by decide)).mapPages (by decide) (by decide) (by decide) (by decide)

/-- Everything is linear mapped and accessible. -/
def openEnvironment : CopyEnvironment := ⟨fun _ => true, fun _ => true⟩

theorem page_scatteredPages {i : Nat} (hi : i < 0x2000) :
    (0x8000 + i) / pageSize = 8 ∨ (0x8000 + i) / pageSize = 9 := by
  simp only [pageSize]
  omega

theorem scatteredPages_rangeMapped {address size : Nat} (hlow : 0x8000 ≤ address)
    (hend : address + size ≤ 0xA000) : scatteredPages.impl.RangeMapped address size := by
  intro i hi
  obtain ⟨n, rfl⟩ := Nat.exists_eq_add_of_le hlow
  rw [add_assoc]
  rcases @page_scatteredPages (n + i) (by omega) with h | h
  · rw [h]
    rfl
  · rw [h]
    rfl

/-- The copy of the last byte of one page and the first byte of the next reads the last byte of the
next page in place of the first: the offset in the first page is added there too. -/
theorem run_linearToKernel_crossing :
    scatteredPages.impl.WellFormed ∧ scatteredPages.impl.RangeMapped 0x8FFF 2 ∧
    scatteredPages.checkCopy 0x8FFF 2 normal normal
      KMemoryPermission.userRead none none = .ok () ∧
    linearToKernel.run openEnvironment scatteredPages 0x8FFF 2 0 normal
        normal KMemoryPermission.userRead none
        none =
      .ok [⟨.other 0, .linear 0x80000FFF⟩, ⟨.other 1, .linear 0x80005FFF⟩] ∧
    exactTransfers .fromLinear scatteredPages.impl 0x8FFF 2 0 =
      [⟨.other 0, .linear 0x80000FFF⟩, ⟨.other 1, .linear 0x80005000⟩] := by
  refine ⟨scatteredPages_wellFormed, scatteredPages_rangeMapped (by decide) (by decide), rfl, rfl,
    by decide⟩

theorem run_linearToUser_aligned :
    linearToUser.run openEnvironment scatteredPages 0x8000 0x1002 0 normal
        normal KMemoryPermission.userRead none
        none =
      .ok (exactTransfers .fromLinear scatteredPages.impl 0x8000 0x1002 0) := by
  refine (run_eq_ok_iff linearToUser openEnvironment scatteredPages 0x8000 0x1002 0
    normal normal KMemoryPermission.userRead none
    none scatteredPages_wellFormed
    (scatteredPages_rangeMapped (by decide) (by decide)) rfl (fun _ _ => rfl)
    (fun _ _ _ => rfl)).mpr ⟨Or.inl (by decide), fun i hi => ?_⟩
  rcases @page_scatteredPages i (by omega) with h | h
  · rw [h]
    decide
  · rw [h]
    decide

end CopyRoutine

end Sudachi.Kernel
