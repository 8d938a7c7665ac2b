import Mathlib.Data.List.Basic
import Mathlib.Tactic

/-!
# Memory blocks of a process address space

`KMemoryBlock` of `k_memory_block.h`: a run of pages with one state, permission and attribute, the
reference counts of the IPC and device locks on it, and the marks that keep it apart from its
neighbours. The enumerations of the source are flag sets and are modelled by bit vectors of their
underlying type; the `u16` counts wrap as they do there. A failed `ASSERT` only writes to the log
(`assert_fail_impl` stops nothing unless `use_debug_asserts` is set), so the functions below have no
assertion branch.

`PageProperties` collects the fields that every page of a block shares. Two blocks may be merged
when they have the same properties and no mark forbids it (`canMergeWith_iff`).
-/

set_option autoImplicit false

namespace Sudachi.Kernel

/-- `PageSize` of `memory_types.h`. -/
def pageSize : Nat := 0x1000

theorem pageSize_pos : 0 < pageSize := by decide

/-- `enum class KMemoryState : u32`. -/
abbrev KMemoryState := BitVec 32

/-- `enum class KMemoryPermission : u8`. -/
abbrev KMemoryPermission := BitVec 8

/-- `enum class KMemoryAttribute : u8`. -/
abbrev KMemoryAttribute := BitVec 8

/-- `enum class KMemoryBlockDisableMergeAttribute : u8`. -/
abbrev DisableMergeAttribute := BitVec 8

namespace KMemoryState

def none : KMemoryState := 0x0
def free : KMemoryState := 0x0
def normal : KMemoryState := 0x077EBD05
def ipc : KMemoryState := 0x045C3C0A

end KMemoryState

namespace KMemoryPermission

def none : KMemoryPermission := 0x00
def kernelRead : KMemoryPermission := 1 <<< 3
def kernelWrite : KMemoryPermission := 2 <<< 3
def notMapped : KMemoryPermission := 1 <<< 6
def kernelReadWrite : KMemoryPermission := kernelRead ||| kernelWrite
def userRead : KMemoryPermission := 1 ||| kernelRead
def userWrite : KMemoryPermission := 2 ||| kernelWrite
def userReadWrite : KMemoryPermission := userRead ||| userWrite
def ipcLockChangeMask : KMemoryPermission := notMapped ||| userReadWrite

end KMemoryPermission

namespace KMemoryAttribute

def none : KMemoryAttribute := 0x00
def locked : KMemoryAttribute := 0x01
def ipcLocked : KMemoryAttribute := 0x02
def deviceShared : KMemoryAttribute := 0x04
def uncached : KMemoryAttribute := 0x08
def permissionLocked : KMemoryAttribute := 0x10

/-- The two bits that belong to the lock functions: `AttributeIgnoreMask` of `HasProperties`. -/
def lockBits : KMemoryAttribute := ipcLocked ||| deviceShared

end KMemoryAttribute

namespace DisableMergeAttribute

def none : DisableMergeAttribute := 0x00
def normal : DisableMergeAttribute := 0x01
def deviceLeft : DisableMergeAttribute := 0x02
def ipcLeft : DisableMergeAttribute := 0x04
def locked : DisableMergeAttribute := 0x08
def deviceRight : DisableMergeAttribute := 0x10
def allLeft : DisableMergeAttribute := normal ||| deviceLeft ||| ipcLeft ||| locked
def allRight : DisableMergeAttribute := deviceRight

end DisableMergeAttribute

/-! A flag test is a test of one bit. -/

theorem and_ipcLocked_ne_none_iff (a : KMemoryAttribute) :
    a &&& KMemoryAttribute.ipcLocked ≠ KMemoryAttribute.none ↔ a.getLsbD 1 = true := by
  revert a
  decide

theorem and_deviceShared_ne_none_iff (a : KMemoryAttribute) :
    a &&& KMemoryAttribute.deviceShared ≠ KMemoryAttribute.none ↔ a.getLsbD 2 = true := by
  revert a
  decide

theorem and_lockBits_eq_none_iff (a : KMemoryAttribute) :
    a &&& KMemoryAttribute.lockBits = KMemoryAttribute.none ↔
      a.getLsbD 1 = false ∧ a.getLsbD 2 = false := by
  revert a
  decide

/-- `class KMemoryBlock`, without its tree node. -/
structure KMemoryBlock where
  deviceDisableMergeLeftCount : BitVec 16
  deviceDisableMergeRightCount : BitVec 16
  address : Nat
  numPages : Nat
  memoryState : KMemoryState
  ipcLockCount : BitVec 16
  deviceUseCount : BitVec 16
  ipcDisableMergeCount : BitVec 16
  permission : KMemoryPermission
  originalPermission : KMemoryPermission
  memoryAttribute : KMemoryAttribute
  disableMergeAttribute : DisableMergeAttribute
deriving DecidableEq, Repr

/-- The fields that every page of a block shares. -/
structure PageProperties where
  memoryState : KMemoryState
  permission : KMemoryPermission
  originalPermission : KMemoryPermission
  memoryAttribute : KMemoryAttribute
  ipcLockCount : BitVec 16
  deviceUseCount : BitVec 16
deriving DecidableEq, Repr

namespace KMemoryBlock

def getSize (b : KMemoryBlock) : Nat := b.numPages * pageSize

def getEndAddress (b : KMemoryBlock) : Nat := b.address + b.getSize

def getLastAddress (b : KMemoryBlock) : Nat := b.getEndAddress - 1

/-- The constructor from an address, a page count, a state, a permission and an attribute. The
remaining members have their default initializers. `Initialize` writes the same values to a block
that the slab heap has just constructed. -/
def initializeBlock (address numPages : Nat) (state : KMemoryState) (perm : KMemoryPermission)
    (attr : KMemoryAttribute) : KMemoryBlock where
  deviceDisableMergeLeftCount := 0
  deviceDisableMergeRightCount := 0
  address := address
  numPages := numPages
  memoryState := state
  ipcLockCount := 0
  deviceUseCount := 0
  ipcDisableMergeCount := 0
  permission := perm
  originalPermission := KMemoryPermission.none
  memoryAttribute := attr
  disableMergeAttribute := DisableMergeAttribute.none

/-- `KMemoryBlock::Compare`. -/
def compare (lhs rhs : KMemoryBlock) : Int :=
  if lhs.address < rhs.address then -1 else if lhs.address ≤ rhs.getLastAddress then 0 else 1

def hasProperties (b : KMemoryBlock) (s : KMemoryState) (p : KMemoryPermission)
    (a : KMemoryAttribute) : Bool :=
  b.memoryState == s && b.permission == p &&
    (b.memoryAttribute ||| KMemoryAttribute.lockBits) == (a ||| KMemoryAttribute.lockBits)

def hasSameProperties (b rhs : KMemoryBlock) : Bool :=
  b.memoryState == rhs.memoryState && b.permission == rhs.permission &&
    b.originalPermission == rhs.originalPermission && b.memoryAttribute == rhs.memoryAttribute &&
    b.ipcLockCount == rhs.ipcLockCount && b.deviceUseCount == rhs.deviceUseCount

def canMergeWith (b rhs : KMemoryBlock) : Bool :=
  b.hasSameProperties rhs &&
    (b.disableMergeAttribute &&& DisableMergeAttribute.allRight) == DisableMergeAttribute.none &&
    (rhs.disableMergeAttribute &&& DisableMergeAttribute.allLeft) == DisableMergeAttribute.none

def add (b addedBlock : KMemoryBlock) : KMemoryBlock :=
  { b with
    numPages := b.numPages + addedBlock.numPages
    disableMergeAttribute := b.disableMergeAttribute ||| addedBlock.disableMergeAttribute
    deviceDisableMergeRightCount := addedBlock.deviceDisableMergeRightCount }

def update (b : KMemoryBlock) (s : KMemoryState) (p : KMemoryPermission) (a : KMemoryAttribute)
    (setDisableMergeAttr : Bool) (setMask clearMask : DisableMergeAttribute) : KMemoryBlock :=
  let d := b.disableMergeAttribute
  let d := if setDisableMergeAttr && setMask != 0 then d ||| setMask else d
  let d := if clearMask != 0 then d &&& ~~~clearMask else d
  { b with
    memoryState := s
    permission := p
    memoryAttribute := a ||| (b.memoryAttribute &&& KMemoryAttribute.lockBits)
    disableMergeAttribute := d }

def updateAttribute (b : KMemoryBlock) (mask attr : KMemoryAttribute) : KMemoryBlock :=
  { b with memoryAttribute := (b.memoryAttribute &&& ~~~mask) ||| attr }

/-- `Split(block, addr)`: the new block in front of `addr` and what is left of the old one. -/
def split (b : KMemoryBlock) (addr : Nat) : KMemoryBlock × KMemoryBlock :=
  let frontPages := (addr - b.address) / pageSize
  ({ b with
      numPages := frontPages
      disableMergeAttribute := b.disableMergeAttribute &&& DisableMergeAttribute.allLeft
      deviceDisableMergeRightCount := 0 },
    { b with
      address := addr
      numPages := b.numPages - frontPages
      ipcDisableMergeCount := 0
      deviceDisableMergeLeftCount := 0
      disableMergeAttribute := b.disableMergeAttribute &&& DisableMergeAttribute.allRight })

/-! ## Lock functions -/

def updateDeviceDisableMergeStateForShareLeft (b : KMemoryBlock) (left : Bool) : KMemoryBlock :=
  if left then
    { b with
      disableMergeAttribute := b.disableMergeAttribute ||| DisableMergeAttribute.deviceLeft
      deviceDisableMergeLeftCount := b.deviceDisableMergeLeftCount + 1 }
  else b

def updateDeviceDisableMergeStateForShareRight (b : KMemoryBlock) (right : Bool) : KMemoryBlock :=
  if right then
    { b with
      disableMergeAttribute := b.disableMergeAttribute ||| DisableMergeAttribute.deviceRight
      deviceDisableMergeRightCount := b.deviceDisableMergeRightCount + 1 }
  else b

def updateDeviceDisableMergeStateForShare (b : KMemoryBlock) (left right : Bool) : KMemoryBlock :=
  (b.updateDeviceDisableMergeStateForShareLeft left).updateDeviceDisableMergeStateForShareRight
    right

def shareToDevice (b : KMemoryBlock) (left right : Bool) : KMemoryBlock :=
  { b with
    deviceUseCount := b.deviceUseCount + 1
    memoryAttribute := b.memoryAttribute ||| KMemoryAttribute.deviceShared
  }.updateDeviceDisableMergeStateForShare left right

def updateDeviceDisableMergeStateForUnshareLeft (b : KMemoryBlock) (left : Bool) : KMemoryBlock :=
  -- With `left` set and no left count, the source returns before it caps the count.
  if left && b.deviceDisableMergeLeftCount == 0 then b
  else
    let count := if left then b.deviceDisableMergeLeftCount - 1 else b.deviceDisableMergeLeftCount
    let count := if b.deviceUseCount < count then b.deviceUseCount else count
    { b with
      deviceDisableMergeLeftCount := count
      disableMergeAttribute :=
        if count == 0 then b.disableMergeAttribute &&& ~~~DisableMergeAttribute.deviceLeft
        else b.disableMergeAttribute }

def updateDeviceDisableMergeStateForUnshareRight (b : KMemoryBlock) (right : Bool) :
    KMemoryBlock :=
  if right then
    { b with
      deviceDisableMergeRightCount := b.deviceDisableMergeRightCount - 1
      disableMergeAttribute :=
        if b.deviceDisableMergeRightCount == 1 then
          b.disableMergeAttribute &&& ~~~DisableMergeAttribute.deviceRight
        else b.disableMergeAttribute }
  else b

def updateDeviceDisableMergeStateForUnshare (b : KMemoryBlock) (left right : Bool) :
    KMemoryBlock :=
  (b.updateDeviceDisableMergeStateForUnshareLeft left).updateDeviceDisableMergeStateForUnshareRight
    right

/-- The part that `UnshareToDevice` and `UnshareToDeviceRight` share: drop one use. -/
def dropDeviceUse (b : KMemoryBlock) : KMemoryBlock :=
  { b with
    deviceUseCount := b.deviceUseCount - 1
    memoryAttribute :=
      if b.deviceUseCount == 1 then b.memoryAttribute &&& ~~~KMemoryAttribute.deviceShared
      else b.memoryAttribute }

def unshareToDevice (b : KMemoryBlock) (left right : Bool) : KMemoryBlock :=
  b.dropDeviceUse.updateDeviceDisableMergeStateForUnshare left right

def unshareToDeviceRight (b : KMemoryBlock) (right : Bool) : KMemoryBlock :=
  b.dropDeviceUse.updateDeviceDisableMergeStateForUnshareRight right

def lockForIpc (b : KMemoryBlock) (newPerm : KMemoryPermission) (left : Bool) : KMemoryBlock :=
  let newLockCount := b.ipcLockCount + 1
  { b with
    ipcLockCount := newLockCount
    originalPermission := if newLockCount == 1 then b.permission else b.originalPermission
    permission :=
      if newLockCount == 1 then
        (newPerm &&& KMemoryPermission.ipcLockChangeMask) |||
          (b.permission &&& ~~~KMemoryPermission.ipcLockChangeMask)
      else b.permission
    memoryAttribute := b.memoryAttribute ||| KMemoryAttribute.ipcLocked
    disableMergeAttribute :=
      if left then b.disableMergeAttribute ||| DisableMergeAttribute.ipcLeft
      else b.disableMergeAttribute
    ipcDisableMergeCount :=
      if left then b.ipcDisableMergeCount + 1 else b.ipcDisableMergeCount }

def unlockForIpc (b : KMemoryBlock) (left : Bool) : KMemoryBlock :=
  { b with
    ipcLockCount := b.ipcLockCount - 1
    permission := if b.ipcLockCount == 1 then b.originalPermission else b.permission
    originalPermission :=
      if b.ipcLockCount == 1 then KMemoryPermission.none else b.originalPermission
    memoryAttribute :=
      if b.ipcLockCount == 1 then b.memoryAttribute &&& ~~~KMemoryAttribute.ipcLocked else b.memoryAttribute
    ipcDisableMergeCount :=
      if left then b.ipcDisableMergeCount - 1 else b.ipcDisableMergeCount
    disableMergeAttribute :=
      if left && b.ipcDisableMergeCount == 1 then
        b.disableMergeAttribute &&& ~~~DisableMergeAttribute.ipcLeft
      else b.disableMergeAttribute }

/-! ## Properties shared by the pages of a block -/

def properties (b : KMemoryBlock) : PageProperties where
  memoryState := b.memoryState
  permission := b.permission
  originalPermission := b.originalPermission
  memoryAttribute := b.memoryAttribute
  ipcLockCount := b.ipcLockCount
  deviceUseCount := b.deviceUseCount

theorem hasSameProperties_iff (b rhs : KMemoryBlock) :
    b.hasSameProperties rhs = true ↔ b.properties = rhs.properties := by
  simp [hasSameProperties, properties, and_assoc]

/-- A merge needs equal properties and no mark on either side of the common boundary. -/
theorem canMergeWith_iff (b rhs : KMemoryBlock) :
    b.canMergeWith rhs = true ↔ b.properties = rhs.properties ∧
      b.disableMergeAttribute &&& DisableMergeAttribute.allRight = DisableMergeAttribute.none ∧
      rhs.disableMergeAttribute &&& DisableMergeAttribute.allLeft = DisableMergeAttribute.none := by
  simp [canMergeWith, hasSameProperties_iff, and_assoc]

end KMemoryBlock

end Sudachi.Kernel
