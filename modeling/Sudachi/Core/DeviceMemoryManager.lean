import Sudachi.Common.Alignment

/-!
# The device memory manager

`DeviceMemoryManager` of `device_memory_manager.h` and `device_memory_manager.inc`: the address space of
a device, page by page. `Map` enters for each device page the physical page behind a page of a
process, and for the physical page the device pages that it is mapped to: one is kept in line, several
in a chain of `MultiAddressContainer`. A table of runs of contiguous pages serves the block accesses.

Tables are functions of the index of a page. A pointer into the backing memory is its distance from
`physical_base`; `none` is the null pointer.
-/

set_option autoImplicit false

namespace Sudachi.Core

open Sudachi.Common Function

/-! ## Chains of device pages -/

/-- `MultiAddressContainer::Entry`. -/
structure Entry where
  nextEntry : Nat := 0
  value : Nat := 0
  deriving DecidableEq

structure MultiAddressContainer where
  storage : List Entry := []
  freeEntries : List Nat := []

namespace MultiAddressContainer

/-- `storage[id - 1]`. For zero the index wraps, and lies behind the storage as others may. -/
def entry (c : MultiAddressContainer) (id : Nat) : Option Entry :=
  if id = 0 then none else c.storage[id - 1]?

/-- Write the next entry of an entry. -/
def setNext (c : MultiAddressContainer) (id next : Nat) : MultiAddressContainer :=
  { c with storage := c.storage.modify (id - 1) fun e => { e with nextEntry := next } }

def getNewEntry (c : MultiAddressContainer) : Nat × MultiAddressContainer :=
  match c.freeEntries with
  | result :: rest => (result, { c with freeEntries := rest })
  | [] =>
    let storage := c.storage ++ [{}]
    (storage.length % 2 ^ 32, { c with storage })

def registerImplementation (c : MultiAddressContainer) (value : Nat) : Nat × MultiAddressContainer :=
  let (entryId, c) := c.getNewEntry
  (entryId, { c with storage := c.storage.set (entryId - 1) { nextEntry := 0, value } })

/-- `Register(value)`. -/
def register (c : MultiAddressContainer) (value : Nat) : Nat × MultiAddressContainer :=
  c.registerImplementation value

/-- The walk to the last entry. A walk that leaves the storage, or takes more steps than there are
entries and so runs in a circle, has no result. -/
def lastEntry (c : MultiAddressContainer) : Nat → Nat → Option Nat
  | 0, _ => none
  | fuel + 1, iterEntry => do
      let current ← c.entry iterEntry
      if current.nextEntry ≠ 0 then c.lastEntry fuel current.nextEntry else some iterEntry

/-- `Register(value, start_entry)`. -/
def registerAt (c : MultiAddressContainer) (value startEntry : Nat) :
    Option MultiAddressContainer := do
  let (entryId, c) := c.registerImplementation value
  let last ← c.lastEntry c.storage.length startEntry
  return c.setNext last entryId

/-- The walk of `Unregister` to the value: the previous entry, the entry, and the steps taken. -/
def findValue (c : MultiAddressContainer) (value : Nat) :
    Nat → Option Nat → Nat → Nat → Option (Option Nat × Nat × Nat)
  | 0, _, _, _ => none
  | fuel + 1, previous, iterEntry, count => do
      let current ← c.entry iterEntry
      if current.value ≠ value then
        c.findValue value fuel (some iterEntry) current.nextEntry (count + 1)
      else some (previous, iterEntry, count)

/-- `more_than_one_remaining` of `Unregister`. -/
def moreThanOneRemaining (c : MultiAddressContainer) (previous : Option Nat) (nextEntry : Nat) :
    Option Bool :=
  if nextEntry ≠ 0 then
    (c.entry nextEntry).map fun next => next.nextEntry ≠ 0 || previous.isSome
  else some false

/-- `Unregister`. -/
def unregister (c : MultiAddressContainer) (value startEntry : Nat) :
    Option ((Bool × Nat) × MultiAddressContainer) := do
  let (previous, iterEntry, count) ← c.findValue value c.storage.length none startEntry 0
  let current ← c.entry iterEntry
  let nextEntry := current.nextEntry
  let more ← c.moreThanOneRemaining previous nextEntry
  let (c, resultStart) := match previous with
    | some previous => (c.setNext previous nextEntry, startEntry)
    | none => (c, nextEntry)
  return ((more || decide (1 < count), resultStart),
    { c with freeEntries := c.freeEntries ++ [iterEntry] })

def releaseEntry (c : MultiAddressContainer) (startEntry : Nat) :
    Option (Nat × MultiAddressContainer) := do
  let current ← c.entry startEntry
  return (current.value, { c with freeEntries := c.freeEntries ++ [startEntry] })

/-- The loop of `GatherValues`. -/
def gatherFrom (c : MultiAddressContainer) : Nat → Nat → Option (List Nat)
  | 0, _ => none
  | fuel + 1, iterEntry => do
      let current ← c.entry iterEntry
      if current.nextEntry ≠ 0 then
        let values ← c.gatherFrom fuel current.nextEntry
        return current.value :: values
      else return [current.value]

def gatherValues (c : MultiAddressContainer) (startEntry : Nat) : Option (List Nat) :=
  c.gatherFrom c.storage.length startEntry

end MultiAddressContainer

/-! ## The manager -/

namespace DeviceMemory

def pageBits : Nat := 12

def pageSize : Nat := 2 ^ pageBits

def multiFlagBits : Nat := 31

def multiFlag : Nat := 2 ^ multiFlagBits

/-- The bits of device addresses and of the physical addresses behind them. Numbers of device pages leave
the flag of a chain clear. -/
structure Traits where
  deviceVirtualBits : Nat
  physicalBits : Nat
  deviceVirtualBits_le : deviceVirtualBits ≤ 42
  physicalBits_le : physicalBits ≤ 42

/-- `MaxwellDeviceTraits`, with 4 GiB of memory. -/
def maxwellDeviceTraits : Traits where
  deviceVirtualBits := 34
  physicalBits := 32
  deviceVirtualBits_le := by decide
  physicalBits_le := by decide

def Traits.deviceAsSize (t : Traits) : Nat := 2 ^ t.deviceVirtualBits

/-- The number of device pages. -/
def Traits.devicePages (t : Traits) : Nat := t.deviceAsSize >>> pageBits

/-- The physical memory in bytes. -/
def Traits.physicalSize (t : Traits) : Nat := 2 ^ t.physicalBits

/-- The pages that `Map` and its kin go over for a size. -/
def pageCount (size : Nat) : Nat := alignUp size pageSize >>> pageBits

/-- The part of the manager that leads from physical pages back to device pages. -/
structure ReverseMap where
  compressedDeviceAddr : Nat → Nat
  multiDevAddress : MultiAddressContainer

namespace ReverseMap

def setDeviceAddr (r : ReverseMap) (physAddr word : Nat) : ReverseMap :=
  { r with compressedDeviceAddr := update r.compressedDeviceAddr (physAddr - 1) word }

/-- What `Map` does for a device page once its physical page is known. -/
def insertDevice (r : ReverseMap) (physAddr newDev : Nat) : Option ReverseMap :=
  let baseDev := r.compressedDeviceAddr (physAddr - 1)
  if baseDev = 0 then some (r.setDeviceAddr physAddr newDev)
  else if baseDev >>> multiFlagBits = 0 then do
    let (startId, c) := r.multiDevAddress.register baseDev
    let c ← c.registerAt newDev startId
    return { r.setDeviceAddr physAddr (multiFlag ||| startId) with multiDevAddress := c }
  else do
    let startId := baseDev &&& (multiFlag - 1)
    let c ← r.multiDevAddress.registerAt newDev startId
    return { r with multiDevAddress := c }

/-- What `Unmap` does for a device page that is mapped to a physical page. -/
def removeDevice (r : ReverseMap) (physAddr dev : Nat) : Option ReverseMap :=
  let baseDev := r.compressedDeviceAddr (physAddr - 1)
  if baseDev >>> multiFlagBits = 0 then some (r.setDeviceAddr physAddr 0)
  else do
    let ((moreEntries, newStart), c) ←
      r.multiDevAddress.unregister dev (baseDev &&& (multiFlag - 1))
    if !moreEntries then
      let (value, c) ← c.releaseEntry newStart
      return { r.setDeviceAddr physAddr value with multiDevAddress := c }
    else return { r.setDeviceAddr physAddr (newStart ||| multiFlag) with multiDevAddress := c }

/-- `InnerGatherDeviceAddresses`. -/
def gatherDeviceAddresses (r : ReverseMap) (physPage : Nat) : Option (List Nat) :=
  let backing := r.compressedDeviceAddr physPage
  if backing >>> multiFlagBits ≠ 0 then
    r.multiDevAddress.gatherValues (backing &&& (multiFlag - 1))
  else some [backing]

end ReverseMap

end DeviceMemory

open DeviceMemory

/-- The manager. The map back from physical pages is `none` once a walk has left its chain. -/
structure DeviceMemoryManager where
  compressedPhysicalPtr : Nat → Nat
  continuityTracker : Nat → Nat
  cpuBackingAddress : Nat → Nat
  reverse : Option ReverseMap

namespace DeviceMemoryManager

/-- The manager as it is constructed. -/
def initial : DeviceMemoryManager where
  compressedPhysicalPtr := fun _ => 0
  continuityTracker := fun _ => 1
  cpuBackingAddress := fun _ => 0
  reverse := some { compressedDeviceAddr := fun _ => 0, multiDevAddress := {} }

def guestMaxAsBits : Nat := 39

/-- The word that `InsertCPUBacking` writes. -/
def cpuBacking (address asid : Nat) : Nat := address ||| asid <<< guestMaxAsBits

/-- The word for a pointer: the number of its physical page and one, zero for null. -/
def physAddrOf : Option Nat → Nat
  | none => 0
  | some raw => ((raw >>> pageBits) % 2 ^ 32 + 1) % 2 ^ 32

/-- The body of the loop in `Map`, for a page of the process and the pointer to it. -/
def mapPage (d : DeviceMemoryManager) (page newVaddress asid : Nat) (ptr : Option Nat) :
    DeviceMemoryManager :=
  let physAddr := physAddrOf ptr
  let d := { d with compressedPhysicalPtr := update d.compressedPhysicalPtr page physAddr }
  if ptr.isNone then d
  else
    { d with
      cpuBackingAddress := update d.cpuBackingAddress page (cpuBacking newVaddress asid)
      reverse := d.reverse.bind fun r => r.insertDevice physAddr (page % 2 ^ 32) }

/-- The body of the loop in `Unmap`. -/
def unmapPage (d : DeviceMemoryManager) (page : Nat) : DeviceMemoryManager :=
  let physAddr := d.compressedPhysicalPtr page
  { d with
    compressedPhysicalPtr := update d.compressedPhysicalPtr page 0
    cpuBackingAddress := update d.cpuBackingAddress page 0
    reverse := if physAddr = 0 then d.reverse
      else d.reverse.bind fun r => r.removeDevice physAddr (page % 2 ^ 32) }

/-- The loop of `TrackContinuityImpl` over the pages below `i`, from the last one down. -/
def trackPages (memory : Nat → Option Nat) (startPage virtualAddress : Nat) :
    Nat → Option Nat → Nat → (Nat → Nat) → Nat → Nat
  | 0, _, _, tracker => tracker
  | index + 1, lastPtr, pageCount, tracker =>
    let newPtr := memory (virtualAddress + index * pageSize)
    -- a null pointer is not continued: no page of the backing begins one page behind null
    let pageCount := if newPtr.isSome ∧ newPtr.map (· + pageSize) = lastPtr then pageCount + 1 else 1
    trackPages memory startPage virtualAddress index newPtr pageCount
      (update tracker (startPage + index) (pageCount % 2 ^ 32))

/-- `TrackContinuityImpl`; `memory` is what `GetPointerSilent` gives for the process of the asid. -/
def trackContinuity (d : DeviceMemoryManager) (memory : Nat → Option Nat)
    (address virtualAddress size : Nat) : DeviceMemoryManager :=
  let startPage := address >>> pageBits
  { d with
    continuityTracker :=
      trackPages memory startPage virtualAddress (pageCount size) none 1 d.continuityTracker }

/-- `Map`. -/
def map (d : DeviceMemoryManager) (memory : Nat → Option Nat) (address virtualAddress size asid : Nat)
    (track : Bool) : DeviceMemoryManager :=
  let d := (List.range (pageCount size)).foldl (fun d i =>
    let newVaddress := virtualAddress + i * pageSize
    d.mapPage (address >>> pageBits + i) newVaddress asid (memory newVaddress)) d
  if track then d.trackContinuity memory address virtualAddress size else d

/-- `Unmap`. -/
def unmap (d : DeviceMemoryManager) (address size : Nat) : DeviceMemoryManager :=
  (List.range (pageCount size)).foldl (fun d i => d.unmapPage (address >>> pageBits + i)) d

/-- A call, with the page table of the process at its time. -/
inductive Operation where
  | map (memory : Nat → Option Nat) (address virtualAddress size asid : Nat) (track : Bool)
  | trackContinuity (memory : Nat → Option Nat) (address virtualAddress size : Nat)
  | unmap (address size : Nat)

def apply (d : DeviceMemoryManager) : Operation → DeviceMemoryManager
  | .map memory address virtualAddress size asid track =>
    d.map memory address virtualAddress size asid track
  | .trackContinuity memory address virtualAddress size =>
    d.trackContinuity memory address virtualAddress size
  | .unmap address size => d.unmap address size

/-- The device pages that a call goes over: the first one and their number. -/
def Operation.pages : Operation → Nat × Nat
  | .map _ address _ size _ _ => (address >>> pageBits, pageCount size)
  | .trackContinuity _ address _ size => (address >>> pageBits, pageCount size)
  | .unmap address size => (address >>> pageBits, pageCount size)

end DeviceMemoryManager

end Sudachi.Core
