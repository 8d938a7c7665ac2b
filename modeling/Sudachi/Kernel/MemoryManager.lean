import Sudachi.Kernel.PageGroup
import Sudachi.Kernel.PageHeapRuns

/-!
# The memory manager

`KMemoryManager` of `k_memory_manager.h` and `k_memory_manager.cpp`: the physical memory of the pools,
each pool a list of managers with a page heap, reference counts and an optimize map. Which manager
an address belongs to is an attribute of its region in the memory layout; the layout is a field
here, from addresses to these attributes. The optimize map lies in the management region, outside of
the pages that are managed, so it is a field of its own next to the device memory. An `option` is
taken decoded, as a pool and a direction. A failed `ASSERT` only writes to the log.
-/

set_option autoImplicit false

namespace Sudachi.Kernel

open Sudachi.Common Function

namespace KMemoryManager

/-- `KMemoryManager::Pool`. -/
inductive Pool
  | application
  | applet
  | system
  | systemNonSecure
  deriving DecidableEq

/-- `KMemoryManager::Direction`. -/
inductive Direction
  | fromFront
  | fromBack
  deriving DecidableEq

/-- The results with which an allocation of pages fails. -/
inductive AllocateError
  | outOfMemory
  | outOfResource
  deriving DecidableEq

/-- `KMemoryManager::Impl`. -/
structure Impl where
  heap : KPageHeap
  pageReferenceCounts : Nat → BitVec 16
  optimizeMap : Nat → BitVec 64
  pool : Pool

namespace Impl

def getEndAddress (m : Impl) : Nat := m.heap.heapAddress + m.heap.heapSize

def getPageOffset (m : Impl) (address : Nat) : Nat := (address - m.heap.heapAddress) / pageSize

def getPageOffsetToEnd (m : Impl) (address : Nat) : Nat := (m.getEndAddress - address) / pageSize

/-- `Free`. -/
def free (m : Impl) (addr numPages : Nat) : Impl := { m with heap := m.heap.free addr numPages }

/-- The loop of `OpenFirst` and `Open`, which differ in an assertion only. -/
def openLoop : Nat → Nat → (Nat → BitVec 16) → Nat → BitVec 16
  | 0, _, counts => counts
  | n + 1, index, counts => openLoop n (index + 1) (update counts index (counts index + 1))

/-- `Open`. -/
def openPages (m : Impl) (address numPages : Nat) : Impl :=
  { m with
    pageReferenceCounts := openLoop numPages (m.getPageOffset address) m.pageReferenceCounts }

/-- `OpenFirst`. -/
def openFirst (m : Impl) (address numPages : Nat) : Impl :=
  { m with
    pageReferenceCounts := openLoop numPages (m.getPageOffset address) m.pageReferenceCounts }

/-- The run of pages that `Close` is about to free. -/
def freeRun (m : Impl) (freeStart freeCount : Nat) : Impl :=
  if freeCount > 0 then m.free (m.heap.heapAddress + freeStart * pageSize) freeCount else m

/-- The loop of `Close`, with the call behind it. -/
def closeLoop : Nat → Nat → Nat → Nat → Impl → Impl
  | 0, _, freeStart, freeCount, m => m.freeRun freeStart freeCount
  | n + 1, index, freeStart, freeCount, m =>
    let refCount := m.pageReferenceCounts index - 1
    let m := { m with pageReferenceCounts := update m.pageReferenceCounts index refCount }
    if refCount = 0 then
      if freeCount > 0 then closeLoop n (index + 1) freeStart (freeCount + 1) m
      else closeLoop n (index + 1) index 1 m
    else closeLoop n (index + 1) freeStart 0 (m.freeRun freeStart freeCount)

/-- `Close`. -/
def close (m : Impl) (address numPages : Nat) : Impl :=
  closeLoop numPages (m.getPageOffset address) 0 0 m

/-- The loop of the two functions that track an allocation: `write` changes the bit of the mask. -/
def trackLoop (write : BitVec 64 → BitVec 64 → BitVec 64) :
    Nat → Nat → (Nat → BitVec 64) → Nat → BitVec 64
  | 0, _, map => map
  | n + 1, offset, map =>
    trackLoop write n (offset + 1) (update map (offset / bitSize)
      (write (map (offset / bitSize)) (1#64 <<< (offset % bitSize))))

/-- `TrackUnoptimizedAllocation`. -/
def trackUnoptimizedAllocation (m : Impl) (block numPages : Nat) : Impl :=
  { m with
    optimizeMap :=
      trackLoop (fun word mask => word &&& ~~~mask) numPages (m.getPageOffset block) m.optimizeMap }

/-- `TrackOptimizedAllocation`. -/
def trackOptimizedAllocation (m : Impl) (block numPages : Nat) : Impl :=
  { m with
    optimizeMap :=
      trackLoop (fun word mask => word ||| mask) numPages (m.getPageOffset block) m.optimizeMap }

/-- `CalculateOptimizedProcessOverheadSize`. -/
def calculateOptimizedProcessOverheadSize (regionSize : Nat) : Nat :=
  alignUp (regionSize / pageSize) bitSize / bitSize * 8

/-- `InitializeOptimizedMemory` of a manager. -/
def initializeOptimizedMemory (m : Impl) : Impl :=
  { m with
    optimizeMap := fun i =>
      if i * 8 < calculateOptimizedProcessOverheadSize m.heap.heapSize then 0 else m.optimizeMap i }

end Impl

/-- `std::memset` on the device memory. -/
def memset (memory : Nat → BitVec 8) (addr : Nat) (value : BitVec 8) (size : Nat) :
    Nat → BitVec 8 :=
  fun a => if addr ≤ a ∧ a < addr + size then value else memory a

/-- The loop of `ProcessOptimizedAllocation`: whether a page is new, and the device memory. -/
def Impl.processLoop (m : Impl) (fillPattern : BitVec 8) :
    Nat → Nat → Bool → (Nat → BitVec 8) → Bool × (Nat → BitVec 8)
  | 0, _, anyNew, memory => (anyNew, memory)
  | n + 1, offset, anyNew, memory =>
    if m.optimizeMap (offset / bitSize) &&& (1#64 <<< (offset % bitSize)) = 0 then
      processLoop m fillPattern n (offset + 1) true
        (memset memory (m.heap.heapAddress + offset * pageSize) fillPattern pageSize)
    else processLoop m fillPattern n (offset + 1) anyNew memory

/-- `ProcessOptimizedAllocation`. -/
def Impl.processOptimizedAllocation (m : Impl) (memory : Nat → BitVec 8) (block numPages : Nat)
    (fillPattern : BitVec 8) : Bool × (Nat → BitVec 8) :=
  m.processLoop fillPattern numPages (m.getPageOffset block) false memory

end KMemoryManager

open KMemoryManager in
/-- `KMemoryManager`, with the memory layout and the device memory that it works on. -/
structure KMemoryManager where
  managers : Nat → Impl
  numManagers : Nat
  layout : Nat → Nat
  optimizedProcessIds : Pool → Nat
  hasOptimizedProcess : Pool → Bool
  memory : Nat → BitVec 8

namespace KMemoryManager

def setManager (mm : KMemoryManager) (i : Nat) (m : Impl) : KMemoryManager :=
  { mm with managers := update mm.managers i m }

/-- `GetManager`. -/
def getManager (mm : KMemoryManager) (address : Nat) : Impl := mm.managers (mm.layout address)

/-- The managers that `GetFirstManager` and `GetNextManager` go through. -/
def poolManagers (mm : KMemoryManager) (pool : Pool) (dir : Direction) : List Nat :=
  let front := (List.range mm.numManagers).filter fun i => (mm.managers i).pool = pool
  match dir with
  | .fromFront => front
  | .fromBack => front.reverse

/-! ## References -/

/-- The loop over the managers that a range of pages reaches into. A round takes a page at least, so
that `numPages` bounds the number of rounds. -/
def rangeLoop (f : Impl → Nat → Nat → Impl) : Nat → Nat → Nat → KMemoryManager → KMemoryManager
  | 0, _, _, mm => mm
  | fuel + 1, address, numPages, mm =>
    if numPages = 0 then mm
    else
      let manager := mm.getManager address
      let curPages := min numPages (manager.getPageOffsetToEnd address)
      rangeLoop f fuel (address + curPages * pageSize) (numPages - curPages)
        (mm.setManager (mm.layout address) (f manager address curPages))

/-- `Open`. -/
def openPages (mm : KMemoryManager) (address numPages : Nat) : KMemoryManager :=
  rangeLoop Impl.openPages numPages address numPages mm

/-- `OpenFirst`. -/
def openFirst (mm : KMemoryManager) (address numPages : Nat) : KMemoryManager :=
  rangeLoop Impl.openFirst numPages address numPages mm

/-- `Close`. -/
def close (mm : KMemoryManager) (address numPages : Nat) : KMemoryManager :=
  rangeLoop Impl.close numPages address numPages mm

/-! ## Page groups -/

/-- The state of `AllocatePageGroupImpl`; `failed` once it has left its loops with an error. -/
structure GroupState where
  mm : KMemoryManager
  out : KPageGroup
  numPages : Nat
  failed : Bool

/-- The `while` loop of `AllocatePageGroupImpl` for the manager `i`. Every round takes a page at
least. -/
def allocateWhile (index : Nat) (unoptimized random : Bool) (i : Nat) :
    Nat → GroupState → GroupState
  | 0, s => s
  | fuel + 1, s =>
    let pagesPerAlloc := KPageHeap.getBlockNumPages index
    if s.numPages ≥ pagesPerAlloc then
      let manager := s.mm.managers i
      let (allocatedBlock, heap) := manager.heap.allocateBlock index random
      let manager := { manager with heap := heap }
      if allocatedBlock = 0 then { s with mm := s.mm.setManager i manager }
      else
        let (added, out) := s.out.addBlock allocatedBlock pagesPerAlloc
        if added then
          let manager :=
            if unoptimized then manager.trackUnoptimizedAllocation allocatedBlock pagesPerAlloc
            else manager
          allocateWhile index unoptimized random i fuel
            { mm := s.mm.setManager i manager
              out := out
              numPages := s.numPages - pagesPerAlloc
              failed := false }
        else
          -- The block that could not be added is freed when the scope is left.
          { mm := s.mm.setManager i (manager.free allocatedBlock pagesPerAlloc)
            out := out
            numPages := s.numPages
            failed := true }
    else s

/-- The loop of `AllocatePageGroupImpl` over the managers of the pool. -/
def allocateManagers (index : Nat) (unoptimized random : Bool) : List Nat → GroupState → GroupState
  | [], s => s
  | i :: rest, s =>
    let s := allocateWhile index unoptimized random i s.numPages s
    if s.failed then s else allocateManagers index unoptimized random rest s

/-- The loop of `AllocatePageGroupImpl` over the block sizes, the indices below. -/
def allocateIndices (managers : List Nat) (unoptimized random : Bool) :
    Nat → GroupState → GroupState
  | 0, s => s
  | index + 1, s =>
    if s.numPages > 0 then
      let s := allocateManagers index unoptimized random managers s
      if s.failed then s else allocateIndices managers unoptimized random index s
    else s

/-- What happens to a block of the group on failure: it is freed through the manager of its first
page, up to the end of that manager. -/
def freeNode (mm : KMemoryManager) (it : KBlockInfo) : KMemoryManager :=
  let manager := mm.getManager it.getAddress
  let nodeNumPages := min it.getNumPages ((manager.getEndAddress - it.getAddress) / pageSize)
  mm.setManager (mm.layout it.getAddress) (manager.free it.getAddress nodeNumPages)

/-- `ON_RESULT_FAILURE` of `AllocatePageGroupImpl`. -/
def rollback (mm : KMemoryManager) (blocks : List KBlockInfo) : KMemoryManager :=
  blocks.foldl freeNode mm

/-- The loops of `AllocatePageGroupImpl`, from the largest block size that fits. -/
def allocateGroup (mm : KMemoryManager) (out : KPageGroup) (numPages heapIndex : Nat) (pool : Pool)
    (dir : Direction) (unoptimized random : Bool) : GroupState :=
  allocateIndices (mm.poolManagers pool dir) unoptimized random (heapIndex + 1)
    { mm := mm, out := out, numPages := numPages, failed := false }

/-- `AllocatePageGroupImpl`. -/
def allocatePageGroupImpl (mm : KMemoryManager) (out : KPageGroup) (numPages : Nat) (pool : Pool)
    (dir : Direction) (unoptimized random : Bool) :
    Except AllocateError KPageGroup × KMemoryManager :=
  match KPageHeap.getBlockIndex numPages with
  | none => (.error .outOfMemory, mm)
  | some heapIndex =>
    let s := mm.allocateGroup out numPages heapIndex pool dir unoptimized random
    if s.failed then (.error .outOfResource, s.mm.rollback s.out.blocks)
    else if s.numPages = 0 then (.ok s.out, s.mm)
    else (.error .outOfMemory, s.mm.rollback s.out.blocks)

/-- `AllocateAndOpen`. -/
def allocateAndOpen (mm : KMemoryManager) (out : KPageGroup) (numPages : Nat) (pool : Pool)
    (dir : Direction) : Except AllocateError KPageGroup × KMemoryManager :=
  if numPages = 0 then (.ok out, mm)
  else
    match mm.allocatePageGroupImpl out numPages pool dir (mm.hasOptimizedProcess pool) true with
    | (.error e, mm) => (.error e, mm)
    | (.ok out, mm) =>
      (.ok out, out.blocks.foldl (fun mm block =>
        rangeLoop Impl.openFirst block.getNumPages block.getAddress block.getNumPages mm) mm)

/-- The loop of `AllocateAndOpenContinuous` over the managers: the block and its manager. -/
def continuousLoop (heapIndex numPages alignPages : Nat) :
    List Nat → KMemoryManager → Option (Nat × Nat) × KMemoryManager
  | [], mm => (none, mm)
  | i :: rest, mm =>
    let manager := mm.managers i
    let (allocatedBlock, heap) := manager.heap.allocateAligned heapIndex numPages alignPages
    let mm := mm.setManager i { manager with heap := heap }
    if allocatedBlock ≠ 0 then (some (i, allocatedBlock), mm)
    else continuousLoop heapIndex numPages alignPages rest mm

/-- `AllocateAndOpenContinuous`. For a request that no block size fits it indexes the blocks of the
heap with -1, and has no result. -/
def allocateAndOpenContinuous (mm : KMemoryManager) (numPages alignPages : Nat) (pool : Pool)
    (dir : Direction) : Option (Nat × KMemoryManager) :=
  if numPages = 0 then some (0, mm)
  else
    match KPageHeap.getAlignedBlockIndex numPages alignPages with
    | none => none
    | some heapIndex =>
      match mm.continuousLoop heapIndex numPages alignPages (mm.poolManagers pool dir) with
      | (none, mm) => some (0, mm)
      | (some (i, allocatedBlock), mm) =>
        let manager := mm.managers i
        let manager :=
          if mm.hasOptimizedProcess pool then
            manager.trackUnoptimizedAllocation allocatedBlock numPages
          else manager
        some (allocatedBlock, mm.setManager i (manager.openFirst allocatedBlock numPages))

/-! ## Optimized processes -/

/-- `InitializeOptimizedMemory`; there is no result while the pool has an optimized process. -/
def initializeOptimizedMemory (mm : KMemoryManager) (processId : Nat) (pool : Pool) :
    Option KMemoryManager :=
  if mm.hasOptimizedProcess pool then none
  else
    let mm :=
      { mm with
        optimizedProcessIds := update mm.optimizedProcessIds pool processId
        hasOptimizedProcess := update mm.hasOptimizedProcess pool true }
    some ((mm.poolManagers pool .fromFront).foldl
      (fun mm i => mm.setManager i (mm.managers i).initializeOptimizedMemory) mm)

/-- The first loop of `AllocateForProcess` over the managers of a block: whether there are new pages,
which every round says anew, and the device memory. -/
def processBlock (mm : KMemoryManager) (fillPattern : BitVec 8) :
    Nat → Nat → Nat → Bool → (Nat → BitVec 8) → Bool × (Nat → BitVec 8)
  | 0, _, _, anyNew, memory => (anyNew, memory)
  | fuel + 1, curAddress, remainingPages, anyNew, memory =>
    if remainingPages = 0 then (anyNew, memory)
    else
      let manager := mm.getManager curAddress
      let curPages := min remainingPages (manager.getPageOffsetToEnd curAddress)
      let (anyNew, memory) :=
        manager.processOptimizedAllocation memory curAddress curPages fillPattern
      processBlock mm fillPattern fuel (curAddress + curPages * pageSize)
        (remainingPages - curPages) anyNew memory

/-- What `AllocateForProcess` does with a block for the optimized process. -/
def optimizeBlock (fillPattern : BitVec 8) (mm : KMemoryManager) (block : KBlockInfo) :
    KMemoryManager :=
  let blockPages := block.getNumPages
  if blockPages = 0 then mm
  else
    let (anyNew, memory) :=
      mm.processBlock fillPattern blockPages block.getAddress blockPages false mm.memory
    let mm := { mm with memory := memory }
    if anyNew then
      rangeLoop Impl.trackOptimizedAllocation blockPages block.getAddress blockPages mm
    else mm

/-- What `AllocateForProcess` does with a block for any other process. -/
def fillBlock (fillPattern : BitVec 8) (mm : KMemoryManager) (block : KBlockInfo) :
    KMemoryManager :=
  { mm with memory := memset mm.memory block.getAddress fillPattern block.getSize }

/-- `AllocateForProcess`. -/
def allocateForProcess (mm : KMemoryManager) (out : KPageGroup) (numPages : Nat) (pool : Pool)
    (dir : Direction) (processId : Nat) (fillPattern : BitVec 8) :
    Except AllocateError KPageGroup × KMemoryManager :=
  let hasOptimized := mm.hasOptimizedProcess pool
  let isOptimized := decide (mm.optimizedProcessIds pool = processId)
  match mm.allocatePageGroupImpl out numPages pool dir (hasOptimized && !isOptimized) false with
  | (.error e, mm) => (.error e, mm)
  | (.ok out, mm) =>
    if hasOptimized && isOptimized then
      (.ok out, out.blocks.foldl (optimizeBlock fillPattern) mm)
    else (.ok out, out.blocks.foldl (fillBlock fillPattern) mm)

end KMemoryManager

end Sudachi.Kernel
