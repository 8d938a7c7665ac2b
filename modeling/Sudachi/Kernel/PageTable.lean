import Sudachi.Common.Alignment
import Sudachi.Kernel.MemoryBlockManager

/-!
# Page tables

`Common::PageTable` of `page_table.h` and `page_table.cpp`, the functions of `memory.cpp` that write
its entries, and the range and state checks of `KPageTableBase`.

An entry of `backing_addr` is the physical address of a page less the virtual one, modulo `2 ^ 64`.
The traversal takes an entry of zero for an unmapped page, so it does not see a page whose physical
address is its virtual address. It adds the full start address, the offset in the first page
included, to the entry of every page. The flag that the traversal returns is only asserted by the
copy functions, and an assertion stops nothing.
-/

set_option autoImplicit false

namespace Sudachi.Kernel

open Sudachi.Common

/-- The results of the functions of `KPageTableBase` other than success. `fault` is an execution
without a defined result. -/
inductive PageTableError where
  | invalidCurrentMemory
  | invalidCombination
  | outOfAddressSpace
  | outOfMemory
  | outOfResource
  | limitReached
  | fault (f : Fault)
deriving DecidableEq, Repr

/-- `DramMemoryMap::Base`. -/
def dramBase : Nat := 0x80000000

/-- The part of a page behind an address, in the mask arithmetic of the source. -/
theorem pageSize_sub_and (x : Nat) :
    pageSize - (x &&& (pageSize - 1)) = pageSize - x % pageSize := by
  rw [show pageSize = 2 ^ 12 from rfl, Nat.and_two_pow_sub_one_eq_mod]

/-- `enum class MemoryPermission : u32` of `host_memory.h`. -/
abbrev MemoryPermission := BitVec 32

namespace MemoryPermission

def none : MemoryPermission := 0
def read : MemoryPermission := 1
def write : MemoryPermission := 2

end MemoryPermission

/-- `ConvertToMemoryPermission`, in a build without native code execution. -/
def convertToMemoryPermission (perm : KMemoryPermission) : MemoryPermission :=
  (if perm &&& KMemoryPermission.userRead ≠ 0 then MemoryPermission.read
    else MemoryPermission.none) |||
  (if perm &&& KMemoryPermission.userWrite ≠ 0 then MemoryPermission.write
    else MemoryPermission.none)

/-- `Common::PageTable`: `backingAddr` is `backing_addr`, an array of `numPages` 64-bit words, and
`mapped page` says that the type in `pointers[page]` is not `PageType::Unmapped`. `permission` is
the permission of the page in the host mapping that goes with the table. -/
structure PageTable where
  numPages : Nat
  backingAddr : Nat → Nat
  mapped : Nat → Bool
  permission : Nat → MemoryPermission

/-- `PageTable::TraversalEntry`. -/
structure TraversalEntry where
  physAddr : Nat
  blockSize : Nat
deriving DecidableEq, Repr

/-- `PageTable::TraversalContext`. -/
structure TraversalContext where
  nextPage : Nat
  nextOffset : Nat
deriving DecidableEq, Repr

/-- What a call of the traversal leaves: the returned flag, the entry and the context. -/
structure Traversal where
  valid : Bool
  entry : TraversalEntry
  context : TraversalContext
deriving DecidableEq, Repr

namespace PageTable

/-- `ContinueTraversal`. -/
def continueTraversal (t : PageTable) (context : TraversalContext) : Traversal :=
  let next : TraversalContext := ⟨context.nextPage + 1, context.nextOffset + pageSize⟩
  if t.numPages ≤ context.nextPage ∨ t.backingAddr context.nextPage = 0 then
    ⟨false, ⟨0, pageSize⟩, next⟩
  else
    ⟨true, ⟨(t.backingAddr context.nextPage + context.nextOffset) % 2 ^ 64, pageSize⟩, next⟩

/-- `BeginTraversal`. -/
def beginTraversal (t : PageTable) (address : Nat) : Traversal :=
  t.continueTraversal ⟨address / pageSize, address⟩

/-- `GetPhysicalAddress` of an address below the end of the address space. -/
def getPhysicalAddress (t : PageTable) (address : Nat) : Nat :=
  (t.backingAddr (address / pageSize) + address) % 2 ^ 64

/-- The physical address of a page. -/
def frame (t : PageTable) (page : Nat) : Nat := t.getPhysicalAddress (page * pageSize)

/-- `MapPages(page_table, base, size, target, type)`: `base` and `size` count pages. A target of
zero clears the entries. -/
def mapPages (t : PageTable) (base size target : Nat) : PageTable :=
  { t with
    backingAddr := fun page =>
      if base ≤ page ∧ page < base + size then
        if target = 0 then 0
        else (target + (page - base) * pageSize + (2 ^ 64 - page * pageSize)) % 2 ^ 64
      else t.backingAddr page
    mapped := fun page =>
      if base ≤ page ∧ page < base + size then decide (target ≠ 0) else t.mapped page }

/-- `ProtectRegion`: `base` and `size` are multiples of a page. -/
def protectRegion (t : PageTable) (base size : Nat) (perms : MemoryPermission) : PageTable :=
  { t with
    permission := fun page =>
      if base / pageSize ≤ page ∧ page < base / pageSize + size / pageSize then perms
      else t.permission page }

/-- `MapMemoryRegion`. -/
def mapMemoryRegion (t : PageTable) (base size target : Nat) (perms : MemoryPermission) :
    PageTable :=
  (t.mapPages (base / pageSize) (size / pageSize) target).protectRegion base size perms

/-- `UnmapRegion`. -/
def unmapRegion (t : PageTable) (base size : Nat) : PageTable :=
  (t.mapPages (base / pageSize) (size / pageSize) 0).protectRegion base size MemoryPermission.none

/-- The entries are those that `MapPages` writes: a page is mapped to a page of the DRAM, or its
entry is zero. -/
structure WellFormed (t : PageTable) : Prop where
  fits : t.numPages * pageSize ≤ 2 ^ 64
  bounded : ∀ page, t.backingAddr page < 2 ^ 64
  aligned : ∀ page, pageSize ∣ t.backingAddr page
  inDram : ∀ page, t.mapped page = true → dramBase ≤ t.frame page
  room : ∀ page, t.mapped page = true → t.frame page + pageSize < 2 ^ 64
  inTable : ∀ page, t.mapped page = true → page < t.numPages
  cleared : ∀ page, t.mapped page = false → t.backingAddr page = 0

/-- The page is mapped to the physical page with its own address: the entry is zero. -/
def IdentityMapped (t : PageTable) (page : Nat) : Prop := t.frame page = page * pageSize

instance (t : PageTable) (page : Nat) : Decidable (t.IdentityMapped page) :=
  inferInstanceAs (Decidable (_ = _))

/-- All pages that meet the range are mapped. -/
def RangeMapped (t : PageTable) (address size : Nat) : Prop :=
  ∀ i < size, t.mapped ((address + i) / pageSize) = true

/-- What the traversal reports for a page `page` when it started at offset `offset` in its first
page. -/
def traversedAddress (t : PageTable) (page offset : Nat) : Nat :=
  if t.backingAddr page = 0 then 0 else t.frame page + offset

/-- The table after `Resize`: no page is mapped. -/
def resized (numPages : Nat) : PageTable :=
  ⟨numPages, fun _ => 0, fun _ => false, fun _ => MemoryPermission.none⟩

variable {page : Nat}

theorem resized_wellFormed {numPages : Nat} (h : numPages * pageSize ≤ 2 ^ 64) :
    (resized numPages).WellFormed where
  fits := h
  bounded _ := Nat.two_pow_pos 64
  aligned _ := Nat.dvd_zero _
  inDram _ hm := by simp [resized] at hm
  room _ hm := by simp [resized] at hm
  inTable _ hm := by simp [resized] at hm
  cleared _ _ := rfl

variable {t : PageTable}

theorem frame_eq (t : PageTable) (page : Nat) :
    t.frame page = (t.backingAddr page + page * pageSize) % 2 ^ 64 := by
  rw [frame, getPhysicalAddress, Nat.mul_div_cancel _ pageSize_pos]

section

variable (hwf : t.WellFormed)
include hwf

theorem WellFormed.getPhysicalAddress_eq (address : Nat) :
    t.getPhysicalAddress address = t.frame (address / pageSize) + address % pageSize := by
  have hal := hwf.aligned (address / pageSize)
  rw [frame_eq, getPhysicalAddress]
  simp only [pageSize] at *
  omega

theorem WellFormed.pageSize_dvd_frame (page : Nat) : pageSize ∣ t.frame page := by
  have hal := hwf.aligned page
  rw [frame_eq]
  simp only [pageSize] at *
  omega

/-- The entry of a mapped page is zero exactly if the page is mapped to its own address. -/
theorem WellFormed.backingAddr_eq_zero_iff
    (hm : t.mapped page = true) : t.backingAddr page = 0 ↔ t.IdentityMapped page := by
  have hal := hwf.aligned page
  have hlt := hwf.bounded page
  have hfits := hwf.fits
  have hin := hwf.inTable page hm
  rw [IdentityMapped, frame_eq]
  simp only [pageSize] at *
  omega

/-- One step of the traversal over a mapped page. -/
theorem WellFormed.continueTraversal_entry {offset : Nat}
    (hm : t.mapped page = true) (hoff : offset < pageSize) :
    t.continueTraversal ⟨page, page * pageSize + offset⟩ =
      ⟨decide (t.backingAddr page ≠ 0), ⟨t.traversedAddress page offset, pageSize⟩,
        ⟨page + 1, (page + 1) * pageSize + offset⟩⟩ := by
  have hin := hwf.inTable page hm
  have hal := hwf.aligned page
  have hnext : page * pageSize + offset + pageSize = (page + 1) * pageSize + offset := by
    rw [add_mul, one_mul]
    omega
  by_cases h0 : t.backingAddr page = 0
  · simp [continueTraversal, traversedAddress, h0, hnext]
  · have hsum : (t.backingAddr page + (page * pageSize + offset)) % 2 ^ 64 =
        t.frame page + offset := by
      rw [frame_eq]
      simp only [pageSize] at *
      omega
    have hin' : ¬(t.numPages ≤ page ∨ t.backingAddr page = 0) := by omega
    rw [continueTraversal, if_neg hin', traversedAddress, if_neg h0, decide_eq_true h0]
    simp only [hsum, hnext]

theorem WellFormed.beginTraversal_entry {address : Nat}
    (hm : t.mapped (address / pageSize) = true) :
    t.beginTraversal address = ⟨decide (t.backingAddr (address / pageSize) ≠ 0),
        ⟨t.traversedAddress (address / pageSize) (address % pageSize), pageSize⟩,
        ⟨address / pageSize + 1, (address / pageSize + 1) * pageSize + address % pageSize⟩⟩ := by
  have h := hwf.continueTraversal_entry hm (Nat.mod_lt address pageSize_pos)
  rwa [Nat.div_add_mod'] at h

theorem WellFormed.traversedAddress_eq (hm : t.mapped page = true) (hid : ¬t.IdentityMapped page)
    (offset : Nat) : t.traversedAddress page offset = t.frame page + offset :=
  if_neg fun h => hid ((hwf.backingAddr_eq_zero_iff hm).mp h)

theorem WellFormed.traversedAddress_eq_zero (hm : t.mapped page = true)
    (hid : t.IdentityMapped page) (offset : Nat) : t.traversedAddress page offset = 0 :=
  if_pos ((hwf.backingAddr_eq_zero_iff hm).mpr hid)

/-- The traversal finds the right address of a mapped page exactly if the page is not mapped to its
own address. -/
theorem WellFormed.traversedAddress_eq_iff (hm : t.mapped page = true) (offset : Nat) :
    t.traversedAddress page offset = t.frame page + offset ↔ ¬t.IdentityMapped page := by
  constructor
  · intro h hid
    have hdram := hwf.inDram page hm
    rw [hwf.traversedAddress_eq_zero hm hid] at h
    simp only [dramBase] at hdram
    omega
  · intro hid
    exact hwf.traversedAddress_eq hm hid offset

end

section MapPages

variable {base size target page : Nat}

theorem mapPages_frame_of_mem (hb : base ≤ page) (hlt : page < base + size) (ht : target ≠ 0)
    (hpage : page * pageSize ≤ 2 ^ 64) (hroom : target + size * pageSize < 2 ^ 64) :
    (t.mapPages base size target).frame page = target + (page - base) * pageSize := by
  have hmul : (page - base) * pageSize ≤ size * pageSize := Nat.mul_le_mul_right _ (by omega)
  rw [frame_eq]
  simp only [mapPages, if_pos (And.intro hb hlt), if_neg ht]
  omega

theorem mapPages_frame_of_not_mem (h : ¬(base ≤ page ∧ page < base + size)) :
    (t.mapPages base size target).frame page = t.frame page := by
  simp only [frame_eq, mapPages, if_neg h]

theorem mapPages_mapped_of_mem (h : base ≤ page ∧ page < base + size) :
    (t.mapPages base size target).mapped page = decide (target ≠ 0) := if_pos h

theorem mapPages_mapped_of_not_mem (h : ¬(base ≤ page ∧ page < base + size)) :
    (t.mapPages base size target).mapped page = t.mapped page := if_neg h

/-- Mapping pages of the DRAM keeps the table well formed. -/
theorem WellFormed.mapPages (hwf : t.WellFormed) (hend : base + size ≤ t.numPages)
    (hal : pageSize ∣ target) (hdram : dramBase ≤ target)
    (hroom : target + size * pageSize < 2 ^ 64) : (t.mapPages base size target).WellFormed := by
  have ht : target ≠ 0 := by
    simp only [dramBase] at hdram
    omega
  have hfits := hwf.fits
  have hle : ∀ page, base ≤ page ∧ page < base + size → page * pageSize ≤ 2 ^ 64 := fun page h =>
    le_trans (Nat.mul_le_mul_right _ (by omega)) hfits
  have hframe : ∀ page, base ≤ page ∧ page < base + size →
      (t.mapPages base size target).frame page = target + (page - base) * pageSize := fun page h =>
    mapPages_frame_of_mem h.1 h.2 ht (hle page h) hroom
  constructor
  case fits => exact hfits
  case bounded =>
    intro page
    by_cases h : base ≤ page ∧ page < base + size
    · simp only [PageTable.mapPages, if_pos h, if_neg ht]
      exact Nat.mod_lt _ (by decide)
    · simp only [PageTable.mapPages, if_neg h]
      exact hwf.bounded page
  case aligned =>
    intro page
    by_cases h : base ≤ page ∧ page < base + size
    · have hpage := hle page h
      simp only [PageTable.mapPages, if_pos h, if_neg ht]
      simp only [pageSize] at *
      omega
    · simp only [PageTable.mapPages, if_neg h]
      exact hwf.aligned page
  case inDram =>
    intro page hm
    by_cases h : base ≤ page ∧ page < base + size
    · rw [hframe page h]
      omega
    · rw [mapPages_frame_of_not_mem h]
      rw [mapPages_mapped_of_not_mem h] at hm
      exact hwf.inDram page hm
  case room =>
    intro page hm
    by_cases h : base ≤ page ∧ page < base + size
    · have hmul : (page - base + 1) * pageSize ≤ size * pageSize :=
        Nat.mul_le_mul_right _ (by omega)
      rw [add_mul, one_mul] at hmul
      rw [hframe page h]
      omega
    · rw [mapPages_frame_of_not_mem h]
      rw [mapPages_mapped_of_not_mem h] at hm
      exact hwf.room page hm
  case inTable =>
    intro page hm
    by_cases h : base ≤ page ∧ page < base + size
    · exact lt_of_lt_of_le h.2 hend
    · rw [mapPages_mapped_of_not_mem h] at hm
      exact hwf.inTable page hm
  case cleared =>
    intro page hm
    by_cases h : base ≤ page ∧ page < base + size
    · rw [mapPages_mapped_of_mem h, decide_eq_false_iff_not] at hm
      exact absurd ht hm
    · rw [mapPages_mapped_of_not_mem h] at hm
      simp only [PageTable.mapPages, if_neg h]
      exact hwf.cleared page hm

end MapPages

end PageTable

/-- `KPageTableBase`: the page table, the memory blocks and the extents of the address space. -/
structure KPageTableBase where
  impl : PageTable
  memoryBlockManager : KMemoryBlockManager
  addressSpaceStart : Nat
  addressSpaceEnd : Nat

/-- The masks and values that a state check compares with. -/
structure StateCheck where
  stateMask : KMemoryState
  state : KMemoryState
  permMask : KMemoryPermission
  perm : KMemoryPermission
  attrMask : KMemoryAttribute
  attr : KMemoryAttribute

namespace KPageTableBase

/-- `Contains(addr, size)`. The sum is taken without wrapping: a range that wraps ends above every
address space. -/
def contains (pt : KPageTableBase) (addr size : Nat) : Bool :=
  pt.addressSpaceStart ≤ addr && addr < addr + size && addr + size - 1 ≤ pt.addressSpaceEnd - 1

/-- `CheckMemoryState` of one block. -/
def checkMemoryState (info : KMemoryBlock) (check : StateCheck) : Except PageTableError Unit :=
  if info.memoryState &&& check.stateMask ≠ check.state then .error .invalidCurrentMemory
  else if info.permission &&& check.permMask ≠ check.perm then .error .invalidCurrentMemory
  else if info.memoryAttribute &&& check.attrMask ≠ check.attr then .error .invalidCurrentMemory
  else .ok ()

/-- The check of a block succeeds, or fails with one result. -/
theorem checkMemoryState_cases (info : KMemoryBlock) (check : StateCheck) :
    checkMemoryState info check = .ok () ∨
      checkMemoryState info check = .error .invalidCurrentMemory := by
  rw [checkMemoryState]
  split_ifs
  · exact .inr rfl
  · exact .inr rfl
  · exact .inr rfl
  · exact Or.inl rfl

/-- The loop of `CheckMemoryStateContiguous`, with the last block it looks at. -/
def checkContiguousLoop (lastAddr : Nat) (check : StateCheck) :
    List KMemoryBlock → Except PageTableError KMemoryBlock
  | [] => .error (.fault .nullIterator)
  | info :: rest => do
      checkMemoryState info check
      if lastAddr ≤ info.getLastAddress then pure info else checkContiguousLoop lastAddr check rest

/-- `CheckMemoryStateContiguous`, with the value of `out_blocks_needed`. -/
def checkMemoryStateContiguous (pt : KPageTableBase) (addr size : Nat) (check : StateCheck) :
    Except PageTableError Nat :=
  match (pt.memoryBlockManager.findIterator addr).2 with
  | [] => .error (.fault .nullIterator)
  | info :: rest => do
      let blocksForStartAlign := if alignDown addr pageSize ≠ info.address then 1 else 0
      let last ← checkContiguousLoop (addr + size - 1) check (info :: rest)
      let blocksForEndAlign := if alignUp (addr + size) pageSize ≠ last.getEndAddress then 1 else 0
      pure (blocksForStartAlign + blocksForEndAlign)

end KPageTableBase

end Sudachi.Kernel
