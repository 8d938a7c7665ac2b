import Sudachi.Foundations.Guarded
import Sudachi.Kernel.PageTableOperate

/-!
# Setting up a buffer for IPC

`KPageTableBase::SetupForIpc` of `k_page_table_base.cpp` with the functions it calls:
`SetupForIpcClient` locks the pages of a buffer in the client, `SetupForIpcServer` maps them in the
server, and `CleanupForIpcClientOnServerSetupFailure` gives the client's pages their permissions
back. The whole pages of the buffer are mapped to the client's own physical pages. A page that the
buffer covers only in part is not shared: the server gets a new page with a copy of that part.

The random numbers of `FindFreeArea` and the block infos are open, and so are the numbers of memory
blocks that the two slab managers have left.
-/

set_option autoImplicit false

namespace Sudachi.Kernel

open Sudachi.Common Sudachi.Foundations
open KMemoryAttribute (deviceShared locked uncached)
open Guarded (changing fail onExit onFailure reading require)
open KMemoryManager (memset)

namespace KMemoryState

def flagCanUseIpc : KMemoryState := 1 <<< 10
def flagCanUseNonDeviceIpc : KMemoryState := 1 <<< 11
def flagCanUseNonSecureIpc : KMemoryState := 1 <<< 12
def nonSecureIpc : KMemoryState := 0x045C3811
def nonDeviceIpc : KMemoryState := 0x044C2812

end KMemoryState

/-- How a set-up ends other than with success: with a result, or without a defined one. -/
inductive IpcError where
  | result (e : PageTableError)
  | fault (f : Fault)
  | wildPointer
deriving DecidableEq, Repr

/-- A result of the page table as one of the set-up. -/
def liftResult {α : Type} : Except PageTableError α → Except IpcError α
  | .ok a => .ok a
  | .error e => .error (.result e)

/-! ## Resource limits -/

/-- `KResourceLimit`, for the physical memory. -/
structure KResourceLimit where
  limitValue : Nat
  currentValue : Nat
  currentHint : Nat
deriving DecidableEq, Repr

namespace KResourceLimit

/-- The constructor of `KScopedResourceReservation`, with `Reserve` if there is something to
reserve. A reservation that has to wait for other threads runs into its timeout. -/
def reserve (l : KResourceLimit) (value : Nat) : Option KResourceLimit :=
  if value = 0 then some l
  else if l.limitValue ≤ l.currentHint then none
  else if l.currentValue + value ≤ l.limitValue then
    some { l with currentValue := l.currentValue + value, currentHint := l.currentHint + value }
  else none

/-- `Release`. -/
def release (l : KResourceLimit) (value : Nat) : KResourceLimit :=
  { l with currentValue := l.currentValue - value, currentHint := l.currentHint - value }

theorem release_of_reserve {l l' : KResourceLimit} {value : Nat} (h : l.reserve value = some l') :
    l'.release value = l := by
  rw [reserve] at h
  split_ifs at h with hzero hhint hfits
  · obtain rfl := Option.some.inj h
    rw [hzero]
    rfl
  · obtain rfl := Option.some.inj h
    simp only [release, Nat.add_sub_cancel]

end KResourceLimit

/-! ## Free areas -/

/-- The loop of `KMemoryBlockManager::FindFreeArea` over the blocks from the start of the region on;
zero if there is no area. -/
def findFreeAreaLoop (regionStart regionLast numPages alignment offset guardPages : Nat) :
    List KMemoryBlock → Nat
  | [] => 0
  | info :: rest =>
    if regionLast < info.address then 0
    else if info.memoryState ≠ KMemoryState.free then
      findFreeAreaLoop regionStart regionLast numPages alignment offset guardPages rest
    else
      let area := (if info.address ≤ regionStart then regionStart else info.address) +
        guardPages * pageSize
      let offsetArea := alignDown area alignment + offset
      let area := if area ≤ offsetArea then offsetArea else offsetArea + alignment
      let areaLast := area + numPages * pageSize + guardPages * pageSize - 1
      if info.address ≤ area ∧ area < areaLast ∧ areaLast ≤ regionLast ∧
          areaLast ≤ info.getLastAddress then area
      else findFreeAreaLoop regionStart regionLast numPages alignment offset guardPages rest

/-- `KMemoryBlockManager::FindFreeArea`. -/
def KMemoryBlockManager.findFreeArea (m : KMemoryBlockManager)
    (regionStart regionNumPages numPages alignment offset guardPages : Nat) : Nat :=
  if 0 < numPages then
    let regionLast := (regionStart + regionNumPages * pageSize + (2 ^ 64 - 1)) % 2 ^ 64
    findFreeAreaLoop regionStart regionLast numPages alignment offset guardPages
      (m.findIterator regionStart).2
  else 0

/-- What `FindFreeArea` reads of the page table it is called on, and of the random numbers. -/
structure AreaSettings where
  aslrEnabled : Bool
  randomRange : Nat → Nat
  guardPages : Nat

namespace KPageTableBase

/-- One of the random tries of `FindFreeArea`: the candidate, if it is free. -/
def tryFreeArea (pt : KPageTableBase) (settings : AreaSettings)
    (regionStart regionNumPages numPages alignment offset i : Nat) : Option Nat :=
  let bound := (regionNumPages + 2 ^ 64 - numPages - settings.guardPages) * pageSize % 2 ^ 64 /
    alignment
  let candidate := alignDown ((regionStart + settings.randomRange i % (bound + 1) * alignment) %
    2 ^ 64) alignment + offset
  let last := candidate + (numPages + settings.guardPages) * pageSize - 1
  match (pt.memoryBlockManager.findIterator candidate).2 with
  | [] => none
  | info :: _ =>
    if info.memoryState = KMemoryState.free ∧ regionStart ≤ candidate ∧
        info.address + settings.guardPages * pageSize ≤ candidate ∧
        last ≤ info.getLastAddress ∧ last ≤ regionStart + regionNumPages * pageSize - 1 then
      some candidate
    else none

/-- `KPageTableBase::FindFreeArea`. -/
def findFreeArea (pt : KPageTableBase) (settings : AreaSettings)
    (regionStart regionNumPages numPages alignment offset : Nat) : Nat :=
  let guardPages := settings.guardPages
  if numPages ≤ regionNumPages then
    let address :=
      if settings.aslrEnabled then
        let address := ((List.range 8).findSome?
          (pt.tryFreeArea settings regionStart regionNumPages numPages alignment offset)).getD 0
        if address = 0 then
          let bound := (regionNumPages + 2 ^ 64 - numPages - guardPages) % 2 ^ 64
          let offsetPages := settings.randomRange 8 % (bound + 1)
          pt.memoryBlockManager.findFreeArea ((regionStart + offsetPages * pageSize) % 2 ^ 64)
            ((regionNumPages + 2 ^ 64 - offsetPages) % 2 ^ 64) numPages alignment offset guardPages
        else address
      else 0
    if address = 0 then
      pt.memoryBlockManager.findFreeArea regionStart regionNumPages numPages alignment offset
        guardPages
    else address
  else 0

end KPageTableBase

/-! ## Buffers -/

/-- The arguments of `SetupForIpc` that describe the buffer. -/
structure IpcBuffer where
  address : Nat
  size : Nat
  testPerm : KMemoryPermission
  dstState : KMemoryState
  send : Bool

namespace IpcBuffer

variable (b : IpcBuffer)

def endAddress : Nat := b.address + b.size
def alignedStart : Nat := alignDown b.address pageSize
def alignedEnd : Nat := alignUp (b.address + b.size) pageSize
def mappingStart : Nat := alignUp b.address pageSize
def mappingEnd : Nat := alignDown (b.address + b.size) pageSize
def alignedSize : Nat := b.alignedEnd - b.alignedStart

def mappingSize : Nat :=
  if b.mappingStart < b.mappingEnd then b.mappingEnd - b.mappingStart else 0

/-- The size of the pages that are charged to the server. -/
def unmappedSize : Nat := b.alignedSize - b.mappingSize

/-- The permission that the client keeps while the buffer is mapped. -/
def srcPerm : KMemoryPermission :=
  if b.testPerm = KMemoryPermission.userReadWrite then
    KMemoryPermission.kernelReadWrite ||| KMemoryPermission.notMapped
  else KMemoryPermission.userRead

/-- The state check of the client's blocks; none for a state that is not one of IPC. -/
def stateCheck : Option StateCheck :=
  let check (state : KMemoryState) (attrMask : KMemoryAttribute) : StateCheck :=
    ⟨state, state, b.testPerm, b.testPerm, attrMask, KMemoryAttribute.none⟩
  if b.dstState = KMemoryState.ipc then
    some (check KMemoryState.flagCanUseIpc
      (uncached ||| deviceShared ||| locked))
  else if b.dstState = KMemoryState.nonSecureIpc then
    some (check KMemoryState.flagCanUseNonSecureIpc
      (uncached ||| locked))
  else if b.dstState = KMemoryState.nonDeviceIpc then
    some (check KMemoryState.flagCanUseNonDeviceIpc
      (uncached ||| locked))
  else none

/-- There is a partial page at the start. -/
def hasStartPage : Bool := b.alignedStart < b.mappingStart

/-- There is a partial page at the end that is not the one at the start. -/
def hasEndPage : Bool :=
  b.mappingEnd < b.alignedEnd &&
    (b.alignedStart < b.mappingEnd || b.alignedStart == b.mappingStart)

end IpcBuffer

/-! ## The client -/

/-- The local variables of `SetupForIpcClient`, with the page table. -/
structure ClientCursor where
  impl : PageTable
  mappedSize : Nat
  blocksNeeded : Nat

/-- What `SetupForIpcClient` does with a block that has passed the check. -/
def IpcBuffer.setupBlock (b : IpcBuffer) (info : KMemoryBlock) (c : ClientCursor) : ClientCursor :=
  if b.mappingStart < b.mappingEnd ∧ b.mappingStart < info.getEndAddress ∧
      info.address < b.mappingEnd then
    let curStart := if b.mappingStart ≤ info.address then info.address else b.mappingStart
    let curEnd :=
      if info.getLastAddress ≤ b.mappingEnd - 1 then info.getEndAddress else b.mappingEnd
    let curSize := curEnd - curStart
    { impl :=
        if info.permission &&& KMemoryPermission.ipcLockChangeMask ≠ b.srcPerm then
          c.impl.protectRegion curStart (curSize / pageSize * pageSize)
            (convertToMemoryPermission b.srcPerm)
        else c.impl
      mappedSize := c.mappedSize + curSize
      blocksNeeded := c.blocksNeeded + (if info.address < b.mappingStart then 1 else 0) +
        (if b.mappingEnd - 1 < info.getLastAddress then 1 else 0) }
  else c

/-- The loop of `SetupForIpcClient`. -/
def IpcBuffer.setupLoop (b : IpcBuffer) (check : StateCheck) :
    List KMemoryBlock → Guarded ClientCursor IpcError Unit
  | [] => fail (.fault .nullIterator)
  | info :: rest => do
      reading fun _ => liftResult (KPageTableBase.checkMemoryState info check)
      changing (b.setupBlock info)
      if b.alignedEnd - 1 ≤ info.getLastAddress then pure () else b.setupLoop check rest

/-- What `CleanupForIpcClientOnServerSetupFailure` does with a block. -/
def cleanupBlock (address size : Nat) (protPerm : KMemoryPermission) (info : KMemoryBlock)
    (t : PageTable) : PageTable :=
  let srcMapEnd := address + size
  let curStart := if address ≤ info.address then info.address else address
  let curEnd := if srcMapEnd - 1 ≤ info.getLastAddress then srcMapEnd else info.getEndAddress
  let masked := info.permission &&& KMemoryPermission.ipcLockChangeMask
  if (info.ipcLockCount = 0 ∧ masked ≠ protPerm) ∨ (info.ipcLockCount ≠ 0 ∧
      info.originalPermission &&& KMemoryPermission.ipcLockChangeMask ≠ protPerm) then
    if curEnd = srcMapEnd ∨ info.address ≤ address ∨ masked ≠ protPerm then
      t.protectRegion curStart ((curEnd - curStart) / pageSize * pageSize)
        (convertToMemoryPermission info.permission)
    else t
  else t

/-- The loop of `CleanupForIpcClientOnServerSetupFailure`. -/
def cleanupLoop (address size : Nat) (protPerm : KMemoryPermission) :
    List KMemoryBlock → PageTable → PageTable
  | [], t => t
  | info :: rest, t =>
    let t := cleanupBlock address size protPerm info t
    if address + size - 1 ≤ info.getLastAddress then t else cleanupLoop address size protPerm rest t

namespace KPageTableBase

/-- `CleanupForIpcClientOnServerSetupFailure`. -/
def cleanupForIpcClientOnServerSetupFailure (pt : KPageTableBase) (address size : Nat)
    (protPerm : KMemoryPermission) : KPageTableBase :=
  { pt with
    impl := cleanupLoop address size protPerm (pt.memoryBlockManager.findIterator address).2 pt.impl }

/-- The loop of `SetupForIpcClient` with its rollback, and the value of `out_blocks_needed`. -/
def setupBlocks (b : IpcBuffer) (check : StateCheck) : Guarded KPageTableBase IpcError Nat :=
  fun pt =>
    let blocks := (pt.memoryBlockManager.findIterator b.alignedStart).2
    match b.setupLoop check blocks { impl := pt.impl, mappedSize := 0, blocksNeeded := 0 } with
    | (.ok _, c) => (.ok c.blocksNeeded, { pt with impl := c.impl })
    | (.error e, c) =>
      let pt := { pt with impl := c.impl }
      (.error e,
        if 0 < c.mappedSize then
          pt.cleanupForIpcClientOnServerSetupFailure b.mappingStart c.mappedSize b.srcPerm
        else pt)

/-- `SetupForIpcClient`. -/
def setupForIpcClient (b : IpcBuffer) : Guarded KPageTableBase IpcError Nat := do
  reading fun pt =>
    if pt.contains b.address b.size then .ok () else .error (.result .invalidCurrentMemory)
  match b.stateCheck with
  | none => fail (.result .invalidCombination)
  | some check => setupBlocks b check

end KPageTableBase

/-! ## The server -/

/-- What `SetupForIpc` reads and does not change. -/
structure IpcEnvironment where
  isHeapPhysicalAddress : Nat → Bool
  blockInfoManager : KBlockInfoManager
  clientSlabBlocks : Nat
  serverSlabBlocks : Nat
  areaSettings : AreaSettings
  aliasRegionStart : Nat
  aliasRegionEnd : Nat
  pool : KMemoryManager.Pool
  direction : KMemoryManager.Direction
  ipcFillValue : BitVec 8

/-- What `SetupForIpc` works on: the two page tables, the physical memory and the resource limit of
the server. -/
structure IpcState where
  client : KPageTableBase
  server : KPageTableBase
  memory : KMemoryManager
  resourceLimit : KResourceLimit

/-- `std::memcpy` inside the device memory. -/
def memcpy (memory : Nat → BitVec 8) (dst src size : Nat) : Nat → BitVec 8 :=
  fun a => if dst ≤ a ∧ a < dst + size then memory (src + (a - dst)) else memory a

/-- `GetHeapVirtualPointer`, as a physical address. Below the DRAM it points at no memory. -/
def getHeapVirtualPointer (addr : Nat) : Except IpcError Nat :=
  if dramBase ≤ addr then .ok addr else .error .wildPointer

/-- The local variables of `SetupForIpcServer` behind the start of the traversal. -/
structure ServerCursor where
  state : OperateState
  context : TraversalContext
  curMappedAddr : Nat
  curBlockAddr : Nat
  curBlockSize : Nat
  totBlockSize : Nat

namespace IpcBuffer

variable (b : IpcBuffer) (env : IpcEnvironment)

/-- The contents of the partial page at the start. -/
def fillStartPage (page curBlockAddr : Nat) (memory : Nat → BitVec 8) :
    Except IpcError (Nat → BitVec 8) :=
  if b.send then do
    let partialOffset := b.address - b.alignedStart
    let copySize := if b.endAddress < b.mappingStart then b.size else b.mappingStart - b.address
    let clearSize := if b.endAddress < b.mappingStart then b.mappingStart - b.endAddress else 0
    let source ← getHeapVirtualPointer curBlockAddr
    let memory := memset memory page env.ipcFillValue partialOffset
    let memory := memcpy memory (page + partialOffset) (source + partialOffset) copySize
    pure (if 0 < clearSize then
      memset memory (page + partialOffset + copySize) env.ipcFillValue clearSize
    else memory)
  else .ok (memset memory page env.ipcFillValue pageSize)

/-- The contents of the partial page at the end. -/
def fillEndPage (page curBlockAddr : Nat) (memory : Nat → BitVec 8) :
    Except IpcError (Nat → BitVec 8) :=
  if b.send then do
    let copySize := b.endAddress - b.mappingEnd
    let source ← getHeapVirtualPointer curBlockAddr
    let memory := memcpy memory page source copySize
    pure (memset memory (page + copySize) env.ipcFillValue (pageSize - copySize))
  else .ok (memset memory page env.ipcFillValue pageSize)

/-- Map pages of the server with the permission of the buffer. -/
def mapBlock (virtAddr numPages physAddr : Nat) (s : OperateState) : Except IpcError OperateState :=
  liftResult (operate env.isHeapPhysicalAddress env.blockInfoManager s virtAddr numPages b.testPerm
    (.map physAddr))

/-- What the start page leaves to map: the next page of the client, if the block was one page. -/
def behindStartPage (client : PageTable) (state : OperateState) (c : ServerCursor) : ServerCursor :=
  if c.curBlockSize - pageSize = 0 ∧ pageSize < b.alignedSize then
    let next := client.continueTraversal c.context
    { state := state
      context := next.context
      curMappedAddr := c.curMappedAddr + pageSize
      curBlockAddr := next.entry.physAddr
      curBlockSize := next.entry.blockSize
      totBlockSize := c.totBlockSize + next.entry.blockSize }
  else
    { c with
      state := state
      curMappedAddr := c.curMappedAddr + pageSize
      curBlockAddr := c.curBlockAddr + pageSize
      curBlockSize := c.curBlockSize - pageSize }

/-- Map the start page, if we have one. -/
def mapStartPage (client : PageTable) (page : Nat) (c : ServerCursor) :
    Except IpcError ServerCursor :=
  if page = 0 then .ok c
  else do
    let memory ← b.fillStartPage env page c.curBlockAddr c.state.memory.memory
    let state ← b.mapBlock env c.curMappedAddr 1 page
      { c.state with memory := { c.state.memory with memory := memory } }
    pure (b.behindStartPage client state c)

/-- One iteration of the loop that maps the remaining pages. -/
def mapPagesStep (client : PageTable) (c : ServerCursor) : Except IpcError ServerCursor :=
  let next := client.continueTraversal c.context
  if next.entry.physAddr ≠ c.curBlockAddr + c.curBlockSize then do
    let state ← b.mapBlock env c.curMappedAddr (c.curBlockSize / pageSize) c.curBlockAddr c.state
    pure {
      state := state
      context := next.context
      curMappedAddr := c.curMappedAddr + c.curBlockSize
      curBlockAddr := next.entry.physAddr
      curBlockSize := next.entry.blockSize
      totBlockSize := c.totBlockSize + next.entry.blockSize }
  else
    .ok { c with
      context := next.context
      curBlockSize := c.curBlockSize + next.entry.blockSize
      totBlockSize := c.totBlockSize + next.entry.blockSize }

/-- `while (aligned_src_start + tot_block_size < mapping_src_end)`. Every iteration takes a page. -/
def mapPagesLoop (client : PageTable) : Nat → ServerCursor → Except IpcError ServerCursor
  | 0, c => .ok c
  | fuel + 1, c =>
    if b.alignedStart + c.totBlockSize < b.mappingEnd then
      b.mapPagesStep env client c >>= mapPagesLoop client fuel
    else .ok c

/-- Handle the last direct-mapped page. -/
def mapLastBlock (client : PageTable) (c : ServerCursor) : Except IpcError ServerCursor :=
  let mappedBlockEnd := b.alignedStart + c.totBlockSize - c.curBlockSize
  if mappedBlockEnd < b.mappingEnd then do
    let lastBlockSize := b.mappingEnd - mappedBlockEnd
    let state ← b.mapBlock env c.curMappedAddr (lastBlockSize / pageSize) c.curBlockAddr c.state
    let next := client.continueTraversal c.context
    let continues := mappedBlockEnd + c.curBlockSize < b.alignedEnd ∧ c.curBlockSize = lastBlockSize
    pure { c with
      state := state
      context := if continues then next.context else c.context
      curMappedAddr := c.curMappedAddr + lastBlockSize
      curBlockAddr :=
        if continues then next.entry.physAddr else c.curBlockAddr + lastBlockSize }
  else .ok c

/-- Map the end page, if we have one. -/
def mapEndPage (page : Nat) (c : ServerCursor) : Except IpcError OperateState :=
  if page = 0 then .ok c.state
  else do
    let memory ← b.fillEndPage env page c.curBlockAddr c.state.memory.memory
    b.mapBlock env c.curMappedAddr 1 page
      { c.state with memory := { c.state.memory with memory := memory } }

/-- The part of `SetupForIpcServer` from the traversal to the update of the memory blocks. -/
def mapBuffer (client : PageTable) (dstAddr startPage endPage : Nat) (s : OperateState) :
    Except IpcError OperateState := do
  let first := client.beginTraversal b.alignedStart
  let curBlockSize := first.entry.blockSize - (first.entry.physAddr &&& (first.entry.blockSize - 1))
  let c : ServerCursor :=
    ⟨s, first.context, dstAddr, first.entry.physAddr, curBlockSize, curBlockSize⟩
  let c ← b.mapStartPage env client startPage c
  let c ← b.mapPagesLoop env client (b.alignedSize / pageSize) c
  let c ← b.mapLastBlock env client c
  b.mapEndPage env endPage c

/-- The address at which `SetupForIpcServer` maps the pages. -/
def serverArea (server : KPageTableBase) : Except PageTableError Nat :=
  let regionSize := env.aliasRegionEnd - env.aliasRegionStart
  if regionSize ≤ b.size then .error .outOfAddressSpace
  else
    let alignment := 0x1000
    let offset := b.alignedStart &&& (alignment - 1)
    let dstAddr := server.findFreeArea env.areaSettings env.aliasRegionStart (regionSize / pageSize)
      (b.alignedSize / pageSize) alignment offset
    if dstAddr = 0 then .error .outOfAddressSpace else .ok dstAddr

end IpcBuffer

namespace IpcState

/-- Allocate a partial page if it is needed; zero stands for no page. -/
def allocatePartialPage (env : IpcEnvironment) (needed : Bool) : Guarded IpcState IpcError Nat :=
  fun s =>
    if needed then
      match s.memory.allocateAndOpenContinuous 1 1 env.pool env.direction with
      | none => (.error (.fault .nullIterator), s)
      | some (page, memory) =>
        (if page = 0 then .error (.result .outOfMemory) else .ok page, { s with memory := memory })
    else (.ok 0, s)

/-- Close a partial page if there is one. -/
def closePartialPage (page : Nat) (s : IpcState) : IpcState :=
  if page ≠ 0 then { s with memory := s.memory.close page 1 } else s

/-- `SetupForIpcServer` once it has its pages: map them and update the memory blocks. -/
def mapInServer (env : IpcEnvironment) (b : IpcBuffer) (dstAddr startPage endPage : Nat) :
    Guarded IpcState IpcError Nat := fun s =>
  match b.mapBuffer env s.client.impl dstAddr startPage endPage ⟨s.server.impl, s.memory⟩ with
  | .error e => (.error e, s)
  | .ok state =>
    let s := { s with
      server := { s.server with impl := state.table }
      memory := state.memory }
    match s.server.memoryBlockManager.update
        (UpdateAllocator.withBlocks UpdateAllocator.maxBlocks) dstAddr (b.alignedSize / pageSize)
        b.dstState b.testPerm KMemoryAttribute.none DisableMergeAttribute.normal
        DisableMergeAttribute.none with
    | .error f => (.error (.fault f), s)
    | .ok (blocks, _) =>
      (.ok (dstAddr + (b.address - b.alignedStart)),
        { s with server := { s.server with memoryBlockManager := blocks } })

/-- `SetupForIpcServer` once the physical memory is reserved. -/
def setupWithPartialPages (env : IpcEnvironment) (b : IpcBuffer) (dstAddr : Nat) :
    Guarded IpcState IpcError Nat := do
  let startPage ← allocatePartialPage env b.hasStartPage
  let endPage ← onFailure (closePartialPage startPage)
    (allocatePartialPage env b.hasEndPage)
  onExit (fun s => closePartialPage endPage (closePartialPage startPage s))
    (mapInServer env b dstAddr startPage endPage)

/-- `SetupForIpcServer`. -/
def setupForIpcServer (env : IpcEnvironment) (b : IpcBuffer) : Guarded IpcState IpcError Nat := do
  let dstAddr ← reading fun s => liftResult (b.serverArea env s.server)
  require (UpdateAllocator.maxBlocks ≤ env.serverSlabBlocks) (.result .outOfResource)
  let limit ← reading fun s =>
    match s.resourceLimit.reserve b.unmappedSize with
    | none => .error (.result .limitReached)
    | some limit => .ok limit
  changing fun s => { s with resourceLimit := limit }
  onFailure
    (fun s => { s with resourceLimit := s.resourceLimit.release b.unmappedSize })
    (setupWithPartialPages env b dstAddr)

/-- The call of `SetupForIpcClient`. -/
def setupClient (b : IpcBuffer) : Guarded IpcState IpcError Nat := fun s =>
  let (r, client) := KPageTableBase.setupForIpcClient b s.client
  (r, { s with client := client })

/-- The rollback of the client when the server fails. -/
def cleanupClient (b : IpcBuffer) (s : IpcState) : IpcState :=
  if b.mappingStart < b.mappingEnd then
    { s with
      client := s.client.cleanupForIpcClientOnServerSetupFailure b.mappingStart
        (b.mappingEnd - b.mappingStart) b.srcPerm }
  else s

/-- If anything was mapped, ipc-lock the pages. -/
def lockClient (b : IpcBuffer) (numAllocatorBlocks : Nat) : Guarded IpcState IpcError Unit := fun s =>
  if b.mappingStart < b.mappingEnd then
    match s.client.memoryBlockManager.updateLock (UpdateAllocator.withBlocks numAllocatorBlocks)
        b.mappingStart ((b.mappingEnd - b.mappingStart) / pageSize) .lockForIpc b.srcPerm with
    | .error f => (.error (.fault f), s)
    | .ok (blocks, _) =>
      (.ok (), { s with client := { s.client with memoryBlockManager := blocks } })
  else (.ok (), s)

/-- `SetupForIpc`. -/
def setupForIpc (env : IpcEnvironment) (b : IpcBuffer) : Guarded IpcState IpcError Nat := do
  let numAllocatorBlocks ← setupClient b
  require (numAllocatorBlocks ≤ env.clientSlabBlocks) (.result .outOfResource)
  onFailure (cleanupClient b) do
    let dstAddr ← setupForIpcServer env b
    lockClient b numAllocatorBlocks
    pure dstAddr

end IpcState

end Sudachi.Kernel
