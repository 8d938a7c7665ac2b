import Sudachi.Kernel.MemoryBlock

/-!
# The memory block manager

`KMemoryBlockManager` of `k_memory_block_manager.cpp`. The intrusive red-black tree is modelled by
its in-order sequence of blocks and an iterator by the split of that sequence in front of it. A
block that `Split` creates is inserted directly in front of the block it was cut from: its address
is the old address of that block, and every earlier block ends at or before it.

The four update functions share one loop (`updateLoop`): they differ in the blocks they rewrite and
in the rewrite. `coalesceForUpdate` follows. Reading through an iterator that points at no block,
and taking a block from an exhausted update allocator, have no defined result in the source; both
end the operation with a `Fault` here.
-/

set_option autoImplicit false

namespace Sudachi.Kernel

/-- How an operation can fail to have a defined result. `outOfFuel` is the loop bound of the model,
which `updateLoop` never reaches on a well-formed tree. -/
inductive Fault where
  | nullIterator
  | allocatorExhausted
  | outOfFuel
deriving DecidableEq, Repr

/-- `KMemoryBlockManagerUpdateAllocator`: `index` is `m_index`, and `taken` counts the blocks that
`Allocate` has handed out. -/
structure UpdateAllocator where
  index : Nat
  taken : Nat
deriving DecidableEq, Repr

namespace UpdateAllocator

/-- `MaxBlocks`. -/
def maxBlocks : Nat := 2

/-- The allocator after its `Initialize(num_blocks)`. -/
def withBlocks (numBlocks : Nat) : UpdateAllocator := ⟨maxBlocks - numBlocks, 0⟩

/-- `Allocate`. -/
def allocate (a : UpdateAllocator) : Except Fault UpdateAllocator :=
  if a.index < maxBlocks then .ok ⟨a.index + 1, a.taken + 1⟩ else .error .allocatorExhausted

/-- `Free`. With `m_index` at zero the block goes back to the slab manager. -/
def free (a : UpdateAllocator) : UpdateAllocator := ⟨a.index - 1, a.taken⟩

end UpdateAllocator

/-- Loop state of an update: the blocks in front of the iterator, the block under it with the ones
after it, and the local variables `cur_address` and `remaining_pages`. -/
structure UpdateCursor where
  before : List KMemoryBlock
  after : List KMemoryBlock
  curAddress : Nat
  remainingPages : Nat
  allocator : UpdateAllocator
deriving DecidableEq, Repr

namespace UpdateCursor

/-- Skip the block under the iterator. -/
def skip (c : UpdateCursor) (it : KMemoryBlock) (rest : List KMemoryBlock) : UpdateCursor :=
  let remainingSize := c.remainingPages * pageSize
  if c.curAddress + remainingSize < it.getEndAddress then
    { c with
      before := c.before ++ [it]
      after := rest
      remainingPages := 0
      curAddress := c.curAddress + remainingSize }
  else
    { c with
      before := c.before ++ [it]
      after := rest
      remainingPages := (c.curAddress + remainingSize - it.getEndAddress) / pageSize
      curAddress := it.getEndAddress }

/-- If the block under the iterator starts elsewhere than at `cur_address`, create a new block
before and insert it. -/
def splitBefore (c : UpdateCursor) (it : KMemoryBlock) (rest : List KMemoryBlock) :
    Except Fault (UpdateCursor × KMemoryBlock) :=
  if it.address ≠ c.curAddress then do
    let allocator ← c.allocator.allocate
    let (newBlock, it') := it.split c.curAddress
    pure ({ c with
      before := c.before ++ [newBlock]
      after := it' :: rest
      curAddress := it'.address
      allocator := allocator }, it')
  else pure (c, it)

/-- If the block under the iterator is longer than what remains, create a new block after and insert
it; then rewrite the block under the iterator by `f` and advance. -/
def splitAfterAndApply (f : KMemoryBlock → KMemoryBlock) (c : UpdateCursor) (it : KMemoryBlock)
    (rest : List KMemoryBlock) : Except Fault UpdateCursor :=
  let remainingSize := c.remainingPages * pageSize
  if it.getSize > remainingSize then do
    let allocator ← c.allocator.allocate
    let (newBlock, it') := it.split (c.curAddress + remainingSize)
    pure { c with
      before := c.before ++ [f newBlock]
      after := it' :: rest
      curAddress := c.curAddress + newBlock.getSize
      remainingPages := c.remainingPages - newBlock.numPages
      allocator := allocator }
  else
    pure { c with
      before := c.before ++ [f it]
      after := rest
      curAddress := c.curAddress + it.getSize
      remainingPages := c.remainingPages - it.numPages }

end UpdateCursor

/-- One iteration of the loop of an update that rewrites by `f` the blocks that `needs` selects. -/
def updateStep (needs : KMemoryBlock → Bool) (f : KMemoryBlock → KMemoryBlock) (c : UpdateCursor) :
    Except Fault UpdateCursor :=
  match c.after with
  | [] => .error .nullIterator
  | it :: rest =>
    if needs it then do
      let (c', it') ← c.splitBefore it rest
      c'.splitAfterAndApply f it' rest
    else .ok (c.skip it rest)

/-- `while (remaining_pages > 0)`, at most `fuel` times. -/
def updateLoop (needs : KMemoryBlock → Bool) (f : KMemoryBlock → KMemoryBlock) :
    Nat → UpdateCursor → Except Fault UpdateCursor
  | 0, c => if c.remainingPages = 0 then .ok c else .error .outOfFuel
  | fuel + 1, c =>
    if c.remainingPages = 0 then .ok c
    else updateStep needs f c >>= updateLoop needs f fuel

/-- `KMemoryBlockManager`. -/
structure KMemoryBlockManager where
  memoryBlockTree : List KMemoryBlock
  startAddress : Nat
  endAddress : Nat
deriving DecidableEq, Repr

/-- The loop of `CoalesceForUpdate` from the block `prev` with the blocks `after` behind it;
`rangeEnd` is `address + num_pages * PageSize`. -/
def coalesceLoop (rangeEnd : Nat) :
    KMemoryBlock → List KMemoryBlock → UpdateAllocator → List KMemoryBlock × UpdateAllocator
  | prev, [], a => ([prev], a)
  | prev, it :: rest, a =>
    if prev.canMergeWith it then
      let merged := prev.add it
      if rangeEnd < merged.getEndAddress then (merged :: rest, a.free)
      else coalesceLoop rangeEnd merged rest a.free
    else if rangeEnd < it.getEndAddress then (prev :: it :: rest, a)
    else
      let (l, a') := coalesceLoop rangeEnd it rest a
      (prev :: l, a')

namespace KMemoryBlockManager

/-- `Initialize(st, nd)` when the slab manager has a block. -/
def initializeManager (st nd : Nat) : KMemoryBlockManager where
  memoryBlockTree := [KMemoryBlock.initializeBlock st ((nd - st) / pageSize) KMemoryState.free
    KMemoryPermission.none KMemoryAttribute.none]
  startAddress := st
  endAddress := nd

/-- `FindIterator`: the blocks in front of the one whose extent holds `address`, and the rest. The
rest is empty when the iterator is `end()`. -/
def findIterator (m : KMemoryBlockManager) (address : Nat) : List KMemoryBlock × List KMemoryBlock :=
  let key := KMemoryBlock.initializeBlock address 1 KMemoryState.free KMemoryPermission.none
    KMemoryAttribute.none
  m.memoryBlockTree.span fun b => key.compare b != 0

/-- `CoalesceForUpdate`. The step back from the first block leaves a null iterator, and the loop
then reads the successor of it. -/
def coalesceForUpdate (m : KMemoryBlockManager) (a : UpdateAllocator) (address numPages : Nat) :
    Except Fault (KMemoryBlockManager × UpdateAllocator) :=
  let rangeEnd := address + numPages * pageSize
  match m.findIterator address with
  | (_, []) => .error .nullIterator
  | (before, it :: rest) =>
    if address ≠ m.startAddress then
      match before.getLast? with
      | none => .error .nullIterator
      | some prev =>
        let (l, a') := coalesceLoop rangeEnd prev (it :: rest) a
        .ok ({ m with memoryBlockTree := before.dropLast ++ l }, a')
    else
      let (l, a') := coalesceLoop rangeEnd it rest a
      .ok ({ m with memoryBlockTree := before ++ l }, a')

/-- The common body of the update functions. -/
def updateRange (needs : KMemoryBlock → Bool) (f : KMemoryBlock → KMemoryBlock)
    (m : KMemoryBlockManager) (a : UpdateAllocator) (address numPages : Nat) :
    Except Fault (KMemoryBlockManager × UpdateAllocator) := do
  let (before, after) := m.findIterator address
  let c ← updateLoop needs f after.length ⟨before, after, address, numPages, a⟩
  let m' := { m with memoryBlockTree := c.before ++ c.after }
  m'.coalesceForUpdate c.allocator address numPages

/-- `Update`. -/
def update (m : KMemoryBlockManager) (a : UpdateAllocator) (address numPages : Nat)
    (state : KMemoryState) (perm : KMemoryPermission) (attr : KMemoryAttribute)
    (setDisableAttr clearDisableAttr : DisableMergeAttribute) :
    Except Fault (KMemoryBlockManager × UpdateAllocator) :=
  m.updateRange (fun it => !it.hasProperties state perm attr)
    (fun it => it.update state perm attr (it.address == address) setDisableAttr clearDisableAttr)
    a address numPages

/-- `UpdateIfMatch`. -/
def updateIfMatch (m : KMemoryBlockManager) (a : UpdateAllocator) (address numPages : Nat)
    (testState : KMemoryState) (testPerm : KMemoryPermission) (testAttr : KMemoryAttribute)
    (state : KMemoryState) (perm : KMemoryPermission) (attr : KMemoryAttribute)
    (setDisableAttr clearDisableAttr : DisableMergeAttribute) :
    Except Fault (KMemoryBlockManager × UpdateAllocator) :=
  m.updateRange
    (fun it => it.hasProperties testState testPerm testAttr && !it.hasProperties state perm attr)
    (fun it => it.update state perm attr false setDisableAttr clearDisableAttr) a address numPages

/-- `UpdateAttribute`. -/
def updateAttribute (m : KMemoryBlockManager) (a : UpdateAllocator) (address numPages : Nat)
    (mask attr : KMemoryAttribute) : Except Fault (KMemoryBlockManager × UpdateAllocator) :=
  m.updateRange (fun it => (it.memoryAttribute &&& mask) != attr)
    (fun it => it.updateAttribute mask attr) a address numPages

end KMemoryBlockManager

/-- The members of `KMemoryBlock` that are passed to `UpdateLock`. -/
inductive LockFunction where
  | shareToDevice
  | unshareToDevice
  | unshareToDeviceRight
  | updateDeviceDisableMergeStateForShare
  | updateDeviceDisableMergeStateForShareRight
  | updateDeviceDisableMergeStateForUnshare
  | updateDeviceDisableMergeStateForUnshareRight
  | lockForIpc
  | unlockForIpc
deriving DecidableEq, Repr

/-- The call `(it->*lock_func)(new_perm, left, right)`. -/
def LockFunction.call (fn : LockFunction) (newPerm : KMemoryPermission) (left right : Bool)
    (it : KMemoryBlock) : KMemoryBlock :=
  match fn with
  | shareToDevice => it.shareToDevice left right
  | unshareToDevice => it.unshareToDevice left right
  | unshareToDeviceRight => it.unshareToDeviceRight right
  | updateDeviceDisableMergeStateForShare => it.updateDeviceDisableMergeStateForShare left right
  | updateDeviceDisableMergeStateForShareRight =>
    it.updateDeviceDisableMergeStateForShareRight right
  | updateDeviceDisableMergeStateForUnshare => it.updateDeviceDisableMergeStateForUnshare left right
  | updateDeviceDisableMergeStateForUnshareRight =>
    it.updateDeviceDisableMergeStateForUnshareRight right
  | lockForIpc => it.lockForIpc newPerm left
  | unlockForIpc => it.unlockForIpc left

namespace KMemoryBlockManager

/-- `UpdateLock`. -/
def updateLock (m : KMemoryBlockManager) (a : UpdateAllocator) (address numPages : Nat)
    (fn : LockFunction) (perm : KMemoryPermission) :
    Except Fault (KMemoryBlockManager × UpdateAllocator) :=
  let endAddress := address + numPages * pageSize
  m.updateRange (fun _ => true)
    (fun it => fn.call perm (it.address == address) (it.getEndAddress == endAddress) it)
    a address numPages

/-- The lock counts that `CheckState` looks at: a locked block has a count. -/
def countsPresent (b : KMemoryBlock) : Bool :=
  !((b.memoryAttribute &&& KMemoryAttribute.ipcLocked) != KMemoryAttribute.none &&
      b.ipcLockCount == 0) &&
    !((b.memoryAttribute &&& KMemoryAttribute.deviceShared) != KMemoryAttribute.none &&
      b.deviceUseCount == 0)

/-- The loop of `CheckState` with the iterators `prev` and `it`. -/
def checkStateLoop : KMemoryBlock → List KMemoryBlock → Bool
  | prev, [] => countsPresent prev
  | prev, it :: rest =>
    !prev.canMergeWith it && prev.getEndAddress == it.address && countsPresent it &&
      checkStateLoop it rest

/-- `CheckState`. An empty tree has no defined result; the model answers `false`. -/
def checkState (m : KMemoryBlockManager) : Bool :=
  match m.memoryBlockTree with
  | [] => false
  | prev :: rest => checkStateLoop prev rest

end KMemoryBlockManager

end Sudachi.Kernel
