import Sudachi.Common.Alignment
import Sudachi.Foundations.Results
import Mathlib.Logic.Function.Basic

/-!
# The handles of nvmap

`NvMap` of `nvmap.cpp`: the handles that the guest and the emulator refer to, how often each is
pinned to the address space of the device, and the queue of those that nobody pins but that are
mapped still. What an allocator answers is an argument of a step. The page tables stand for single
addresses, and so does the count of the mappings that a `HeapMapper` keeps.
-/

set_option autoImplicit false

namespace Sudachi.Service.Nvdrv

open Sudachi.Foundations Sudachi.Common
open Function (update)

def pageSize : Nat := 4096

structure Flags where
  mapUncached : Bool
  keepUncachedAfterFree : Bool
  deriving DecidableEq

/-- `NvMap::Handle`. The place of a handle in the unmap queue is read off the queue;
`unmapQueueEntry` tells whether there is one. -/
structure Handle where
  id : Nat
  align : Nat
  size : Nat
  alignedSize : Nat
  dupes : Int
  internalDupes : Int
  pins : Int
  pinVirtAddress : Nat
  unmapQueueEntry : Bool
  flags : Flags
  address : Nat
  kind : Nat
  allocated : Bool
  inHeap : Bool
  sessionId : Nat
  dAddress : Nat
  deriving DecidableEq

/-- The memory of a handle that has not been made. -/
def Handle.blank : Handle where
  id := 0
  align := 0
  size := 0
  alignedSize := 0
  dupes := 0
  internalDupes := 0
  pins := 0
  pinVirtAddress := 0
  unmapQueueEntry := false
  flags := ⟨false, false⟩
  address := 0
  kind := 0
  allocated := false
  inHeap := false
  sessionId := 0
  dAddress := 0

/-- The constructor of `Handle`. -/
def Handle.new (size id : Nat) : Handle :=
  { Handle.blank with id := id, size := size, alignedSize := size, dupes := 1 }

inductive NvResult where
  | success
  | accessDenied
  | badValue
  deriving DecidableEq

/-- The arguments of `Alloc`. -/
structure AllocParams where
  flags : Flags
  align : Nat
  kind : Nat
  address : Nat
  sessionId : Nat

/-- `AlignUp` on 64 bits. -/
def alignUp64 (value size : Nat) : Nat := alignUp value size % 2 ^ 64

/-- `Handle::Alloc`. -/
def Handle.alloc (h : Handle) (p : AllocParams) : NvResult × Handle :=
  if h.allocated then (.accessDenied, h)
  else
    let align := if p.align < pageSize then pageSize else p.align
    let size := alignUp64 h.size pageSize
    (.success, { h with
      flags := if p.address ≠ 0 then { p.flags with keepUncachedAfterFree := false } else p.flags
      kind := p.kind
      align := align
      sessionId := p.sessionId
      size := size
      alignedSize := alignUp64 size align
      address := p.address
      allocated := true })

/-- `Handle::Duplicate`. -/
def Handle.duplicate (h : Handle) (internalSession : Bool) : NvResult × Handle :=
  if !h.allocated then (.badValue, h)
  else if internalSession then (.success, { h with internalDupes := h.internalDupes + 1 })
  else (.success, { h with dupes := h.dupes + 1 })

/-! ## The sessions -/

/-- The region of a `HeapMapper`. -/
structure Area where
  vaddress : Nat
  daddress : Nat
  size : Nat

/-- `IsInBounds`. -/
def Area.isInBounds (a : Area) (start size : Nat) : Prop :=
  a.vaddress ≤ start ∧ (start + size) % 2 ^ 64 ≤ a.vaddress + a.size

instance (a : Area) (start size : Nat) : Decidable (a.isInBounds start size) :=
  inferInstanceAs (Decidable (_ ∧ _))

/-- A session; the area is there where `has_preallocated_area` is set. -/
structure Session where
  asid : Nat
  area : Option Area

def Area.Holds (a : Area) (d : Nat) : Prop := a.daddress ≤ d ∧ d < a.daddress + a.size

/-- The open sessions, and what `OpenSession` has got for them: the region of a heap mapper is an
allocation of the device, which never starts at zero, and no two of them meet. -/
structure Sessions where
  get : Nat → Session
  positive : ∀ i a, (get i).area = some a → 0 < a.daddress
  apart : ∀ i j a b d, (get i).area = some a → (get j).area = some b → a.Holds d → b.Holds d → i = j

/-- No session has a heap mapper. -/
def noAreas : Sessions where
  get := fun _ => ⟨0, none⟩
  positive := fun _ _ h => absurd h (Option.some_ne_none _).symm
  apart := fun _ _ _ _ _ h => absurd h (Option.some_ne_none _).symm

/-! ## The state -/

/-- What the device reads at an address of its own: an address of the guest, and the address space
it belongs to. -/
abbrev DeviceEntry : Type := Nat × Nat

structure NvMap where
  /-- The handles in memory, by the order in which they were made. -/
  object : Nat → Handle
  created : Nat
  handles : Nat → Option Nat
  unmapQueue : List Nat
  nextHandleId : Nat
  /-- The page table of the SMMU. -/
  device : Nat → Option DeviceEntry
  /-- The page table of the GMMU of the host, where the low area is. -/
  gmmu : Nat → Option Nat
  /-- How many mappings of a heap mapper lie over an address, by its session. -/
  heap : Nat → Nat → Nat

def NvMap.initial : NvMap where
  object := fun _ => Handle.blank
  created := 0
  handles := fun _ => none
  unmapQueue := []
  nextHandleId := 4
  device := fun _ => none
  gmmu := fun _ => none
  heap := fun _ _ => 0

/-- Why a call does not come back: it reads the front of an empty queue, or it asks the allocator
again and again. -/
inductive Fault where
  | emptyQueue
  | unfinished
  deriving DecidableEq

namespace NvMap

variable (c : Sessions) (m : NvMap)

def setObject (o : Nat) (h : Handle) : NvMap := { m with object := update m.object o h }

/-! ## The page tables -/

/-- Whether an interval of 64-bit addresses holds an address; one that runs past the end is empty.
-/
def Covers (start size va : Nat) : Prop := start ≤ va ∧ va < (start + size) % 2 ^ 64

instance (start size va : Nat) : Decidable (Covers start size va) :=
  inferInstanceAs (Decidable (_ ∧ _))

/-- `Map` of the SMMU. -/
def mapDevice (address vaddress size asid : Nat) : NvMap :=
  { m with
    device := fun d =>
      if address ≤ d ∧ d < address + size then
        some ((vaddress + (d - address)) % 2 ^ 64, asid)
      else m.device d }

/-- `Unmap` of the SMMU. -/
def unmapDevice (address size : Nat) : NvMap :=
  { m with device := fun d => if address ≤ d ∧ d < address + size then none else m.device d }

/-- `HeapMapper::Map` without its result. -/
def mapHeap (session : Nat) (a : Area) (start size : Nat) : NvMap :=
  { m with
    device := fun d =>
      let va := a.vaddress + (d - a.daddress)
      if a.daddress ≤ d ∧ Covers start size va ∧ m.heap session va = 0 then
        some (va, (c.get session).asid)
      else m.device d
    heap := fun i va =>
      if i = session ∧ Covers start size va then m.heap i va + 1 else m.heap i va }

/-- `HeapMapper::Unmap`. -/
def unmapHeap (session : Nat) (a : Area) (start size : Nat) : NvMap :=
  { m with
    device := fun d =>
      let va := a.vaddress + (d - a.daddress)
      if a.daddress ≤ d ∧ Covers start size va ∧ m.heap session va = 1 then none
      else m.device d
    heap := fun i va =>
      if i = session ∧ Covers start size va then m.heap i va - 1 else m.heap i va }

/-! ## The steps of the functions -/

/-- The removal of a handle from the unmap queue, where it has an entry. -/
def dequeue (o : Nat) : NvMap :=
  if (m.object o).unmapQueueEntry then
    { m with
      unmapQueue := m.unmapQueue.erase o
      object := update m.object o { m.object o with unmapQueueEntry := false } }
  else m

/-- The part of `UnmapHandle` that frees the low area. -/
def unmapLowArea (o : Nat) : NvMap :=
  let h := m.object o
  if h.pinVirtAddress ≠ 0 then
    { m with
      gmmu := fun g =>
        if h.pinVirtAddress ≤ g ∧ g < h.pinVirtAddress + h.alignedSize then none else m.gmmu g
      object := update m.object o { h with pinVirtAddress := 0 } }
  else m

/-- The part of `UnmapHandle` that unmaps the handle from the SMMU. -/
def unmapSmmu (o : Nat) : NvMap :=
  let h := m.object o
  if h.inHeap then
    match (c.get h.sessionId).area with
    | some a =>
      (m.unmapHeap h.sessionId a h.address h.alignedSize).setObject o
        { h with dAddress := 0, inHeap := false }
    -- no session without an area has put a handle into its heap
    | none => m
  else (m.unmapDevice h.dAddress h.alignedSize).setObject o { h with dAddress := 0 }

/-- `UnmapHandle`. -/
def unmapHandle (o : Nat) : NvMap := ((m.dequeue o).unmapLowArea o).unmapSmmu c o

/-- `TryRemoveHandle`. -/
def tryRemoveHandle (h : Handle) : Bool × NvMap :=
  if h.dupes = 0 ∧ h.internalDupes = 0 then
    (true, { m with handles := update m.handles h.id none })
  else (false, m)

/-- `CreateHandle`; `emplace` leaves an entry of the table that is there already. -/
def createHandle (size : Nat) : Option Nat × NvMap :=
  if size = 0 then (none, m)
  else
    (some m.created, { m with
      object := update m.object m.created (Handle.new size m.nextHandleId)
      created := m.created + 1
      nextHandleId := (m.nextHandleId + 4) % 2 ^ 32
      handles :=
        if m.handles m.nextHandleId = none then
          update m.handles m.nextHandleId (some m.created)
        else m.handles })

/-! ## The calls -/

/-- `GetHandle`, with the memory of the handle. -/
def getHandle (id : Nat) : Option (Nat × Handle) := (m.handles id).map fun o => (o, m.object o)

/-- `map_low_area` of `PinHandle`, where the allocator of the low area answers `answer`. -/
def mapLowArea (o answer : Nat) : NvMap :=
  let h := m.object o
  if h.pinVirtAddress = 0 then
    { m with
      gmmu := fun g =>
        if answer ≤ g ∧ g < answer + h.alignedSize then some (h.dAddress + (g - answer))
        else m.gmmu g
      object := update m.object o { h with pinVirtAddress := answer } }
  else m

/-- The loop of `PinHandle` that asks the SMMU for space until it gets some, with the answers. The
front of the queue is unmapped where the handle that is to be pinned has an address. -/
def allocateSmmu (o : Nat) : NvMap → List Nat → Except Fault (Nat × NvMap)
  | _, [] => .error .unfinished
  | m, answer :: answers =>
    if answer ≠ 0 then .ok (answer, m)
    else
      match m.unmapQueue with
      | [] => .error .emptyQueue
      | freeHandle :: _ =>
        allocateSmmu o (if (m.object o).dAddress ≠ 0 then m.unmapHandle c freeHandle else m)
          answers

/-- The part of `PinHandle` that maps the handle into the address space of the device. -/
def mapSmmu (o : Nat) (answers : List Nat) : Except Fault NvMap := do
  let h := m.object o
  let session := c.get h.sessionId
  match session.area.filter fun a => a.isInBounds h.address h.alignedSize with
  | some a =>
    return (m.mapHeap c h.sessionId a h.address h.alignedSize).setObject o
      { h with dAddress := a.daddress + (h.address - a.vaddress), inHeap := true }
  | none =>
    let (address, m) ← allocateSmmu c o m answers
    return (m.mapDevice address h.address h.alignedSize session.asid).setObject o
      { m.object o with dAddress := address, inHeap := false }

/-- The end of `PinHandle`. -/
def countPin (o : Nat) (lowAreaPin : Bool) (lowAnswer : Nat) : Nat × NvMap :=
  let m := if lowAreaPin then m.mapLowArea o lowAnswer else m
  let m := m.setObject o { m.object o with pins := (m.object o).pins + 1 }
  (if lowAreaPin then (m.object o).pinVirtAddress else (m.object o).dAddress, m)

/-- `PinHandle`. -/
def pinHandle (id : Nat) (lowAreaPin : Bool) (answers : List Nat) (lowAnswer : Nat) :
    Except Fault (Nat × NvMap) := do
  match m.getHandle id with
  | none => return (0, m)
  | some (o, h) =>
    if h.pins ≠ 0 then return m.countPin o lowAreaPin lowAnswer
    else if h.unmapQueueEntry then return (m.dequeue o).countPin o lowAreaPin lowAnswer
    else
      let m ← m.mapSmmu c o answers
      return m.countPin o lowAreaPin lowAnswer

/-- `UnpinHandle`. -/
def unpinHandle (id : Nat) : NvMap :=
  match m.getHandle id with
  | none => m
  | some (o, h) =>
    let pins := h.pins - 1
    if pins = 0 then
      { m with
        unmapQueue := m.unmapQueue ++ [o]
        object := update m.object o { h with pins := pins, unmapQueueEntry := true } }
    else m.setObject o { h with pins := pins }

/-- `DuplicateHandle`. -/
def duplicateHandle (id : Nat) (internalSession : Bool) : NvMap :=
  match m.getHandle id with
  | none => m
  | some (o, h) => m.setObject o (h.duplicate internalSession).2

/-- The counts that `FreeHandle` lowers. -/
def releaseDupe (o : Nat) (internalSession : Bool) : NvMap :=
  let h := m.object o
  if internalSession then m.setObject o { h with internalDupes := h.internalDupes - 1 }
  else
    let m := m.setObject o { h with dupes := h.dupes - 1 }
    if h.dupes - 1 = 0 then
      let m := if h.dAddress ≠ 0 then m.unmapHandle c o else m
      m.setObject o { m.object o with pins := 0 }
    else m

/-- What `FreeHandle` tells of a handle. -/
structure FreeInfo where
  address : Nat
  size : Nat
  wasUncached : Bool
  canUnlock : Bool

/-- `FreeHandle`. A handle is freed from memory when neither the table nor the queue has it. -/
def freeHandle (id : Nat) (internalSession : Bool) : Option FreeInfo × NvMap :=
  match m.getHandle id with
  | none => (none, m)
  | some (o, _) =>
    let m := m.releaseDupe c o internalSession
    let h := m.object o
    let m := (m.tryRemoveHandle h).2
    (some ⟨h.address, h.size, h.flags.mapUncached,
      decide (m.handles h.id ≠ some o ∧ o ∉ m.unmapQueue)⟩, m)

/-- `Alloc` of the handle with an id. -/
def allocHandle (id : Nat) (p : AllocParams) : NvMap :=
  match m.getHandle id with
  | none => m
  | some (o, h) => m.setObject o (h.alloc p).2

end NvMap

end Sudachi.Service.Nvdrv
