import Sudachi.Foundations.SearchTree
import Mathlib.Logic.Function.Basic

/-!
# The heap tracker

`HeapTracker` of `heap_tracker.cpp`: the mappings of a separate heap, in one tree by address and, as
long as they are mapped in the host address space, in another one by the time of their last use. The
mappings are nodes in memory that the two trees share. Offsets do not run past the end of the
address space, as `HostMemory` asserts.
-/

set_option autoImplicit false

namespace Sudachi.Common

open Sudachi.Foundations Function

structure MemoryPermission where
  read : Bool
  write : Bool
  execute : Bool
  deriving DecidableEq

structure SeparateHeapMap where
  vaddr : Nat
  paddr : Nat
  size : Nat
  tick : Nat
  perm : MemoryPermission
  isResident : Bool
  deriving DecidableEq

namespace SeparateHeapMap

/-- `SeparateHeapMapAddrComparator::Compare`, where the left side is an address; an empty mapping at
zero reaches to the last address. -/
def addrCompare (vaddr : Nat) (rhs : SeparateHeapMap) : Int :=
  if vaddr < rhs.vaddr then -1
  else if vaddr ≤ (rhs.vaddr + rhs.size + (2 ^ 64 - 1)) % 2 ^ 64 then 0
  else 1

/-- `SeparateHeapMapTickComparator::Compare`. -/
def tickCompare (lhs rhs : SeparateHeapMap) : Int :=
  if lhs.tick < rhs.tick then -1
  else if lhs.tick > rhs.tick then 1
  else addrCompare lhs.vaddr rhs

/-- An address in the mapping. -/
def Covers (h : SeparateHeapMap) (v : Nat) : Prop := h.vaddr ≤ v ∧ v < h.vaddr + h.size

instance (h : SeparateHeapMap) (v : Nat) : Decidable (h.Covers v) :=
  inferInstanceAs (Decidable (_ ∧ _))

end SeparateHeapMap

/-- What an address is mapped to, and how. -/
abbrev HeapEntry : Type := Nat × MemoryPermission

structure HeapTracker where
  /-- The nodes in memory, by the order in which they were made. -/
  item : Nat → SeparateHeapMap
  created : Nat
  mappings : SearchTree Nat
  residentMappings : SearchTree Nat
  mapCount : Int
  residentMapCount : Int
  maxResidentMapCount : Int
  tick : Nat
  /-- The host address space. -/
  buffer : Nat → Option HeapEntry

namespace HeapTracker

/-! ## The host address space -/

/-- `HostMemory::Map`. -/
def bufferMap (s : HeapTracker) (virtualOffset hostOffset length : Nat)
    (perm : MemoryPermission) : HeapTracker :=
  { s with
    buffer := fun v =>
      if virtualOffset ≤ v ∧ v < virtualOffset + length then
        some (hostOffset + (v - virtualOffset), perm)
      else s.buffer v }

/-- `HostMemory::Unmap`. -/
def bufferUnmap (s : HeapTracker) (virtualOffset length : Nat) : HeapTracker :=
  { s with
    buffer := fun v =>
      if virtualOffset ≤ v ∧ v < virtualOffset + length then none else s.buffer v }

/-- `HostMemory::Protect`. -/
def bufferProtect (s : HeapTracker) (virtualOffset length : Nat) (perm : MemoryPermission) :
    HeapTracker :=
  { s with
    buffer := fun v =>
      if virtualOffset ≤ v ∧ v < virtualOffset + length then
        (s.buffer v).map fun entry => (entry.1, perm)
      else s.buffer v }

/-! ## The trees -/

def setItem (s : HeapTracker) (id : Nat) (h : SeparateHeapMap) : HeapTracker :=
  { s with item := update s.item id h }

/-- `new SeparateHeapMap`. -/
def newItem (s : HeapTracker) (h : SeparateHeapMap) : HeapTracker :=
  { s with item := update s.item s.created h, created := s.created + 1 }

variable (bal : SearchTree.Balancing Nat)

/-- `m_mappings.insert`, and the count. -/
def insertMapping (s : HeapTracker) (id : Nat) : HeapTracker :=
  { s with
    mapCount := s.mapCount + 1
    mappings := s.mappings.insert bal
      (fun other => SeparateHeapMap.addrCompare (s.item id).vaddr (s.item other)) id }

/-- `m_resident_mappings.insert`, and the count. -/
def insertResident (s : HeapTracker) (id : Nat) : HeapTracker :=
  { s with
    residentMapCount := s.residentMapCount + 1
    residentMappings := s.residentMappings.insert bal
      (fun other => SeparateHeapMap.tickCompare (s.item id) (s.item other)) id }

/-- `m_resident_mappings.erase`, and the count. -/
def eraseResident (s : HeapTracker) (id : Nat) : HeapTracker :=
  { s with
    residentMapCount := s.residentMapCount - 1
    residentMappings := bal.remove id s.residentMappings }

/-- `m_mappings.erase`, and the count. -/
def eraseMapping (s : HeapTracker) (id : Nat) : HeapTracker :=
  { s with mapCount := s.mapCount - 1, mappings := bal.remove id s.mappings }

/-- `GetNearestHeapMapLocked`. -/
def getNearestHeapMapLocked (s : HeapTracker) (offset : Nat) : Option Nat :=
  s.mappings.find fun id => SeparateHeapMap.addrCompare offset (s.item id)

/-- The nodes from an iterator of a tree on. -/
def nodesFrom (t : SearchTree Nat) : Option Nat → List Nat
  | none => []
  | some id => t.toList.dropWhile fun other => decide (other ≠ id)

/-! ## The functions -/

/-- `SplitHeapMapLocked`. -/
def splitHeapMapLocked (s : HeapTracker) (offset : Nat) : HeapTracker :=
  match s.getNearestHeapMapLocked offset with
  | none => s
  | some id =>
    let left := s.item id
    if left.vaddr = offset then s
    else
      let leftSize := offset - left.vaddr
      let right : SeparateHeapMap :=
        { left with
          vaddr := left.vaddr + leftSize
          paddr := left.paddr + leftSize
          size := left.size - leftSize }
      let rightId := s.created
      let s := ((s.setItem id { left with size := leftSize }).newItem right).insertMapping bal
        rightId
      if right.isResident then s.insertResident bal rightId else s

/-- `SplitHeapMap`. -/
def splitHeapMap (s : HeapTracker) (offset size : Nat) : HeapTracker :=
  (s.splitHeapMapLocked bal offset).splitHeapMapLocked bal (offset + size)

/-- The loop of `RebuildSeparateHeapAddressSpace` over the mappings that are to go. -/
def evictLoop (s : HeapTracker) : List Nat → HeapTracker
  | [] => s
  | id :: ids =>
    let h := s.item id
    evictLoop
      (((s.setItem id { h with isResident := false }).bufferUnmap h.vaddr h.size).eraseResident
        bal id) ids

/-- `RebuildSeparateHeapAddressSpace`. -/
def rebuildSeparateHeapAddressSpace (s : HeapTracker) : HeapTracker :=
  let desiredCount := (min s.residentMapCount s.maxResidentMapCount).tdiv 2
  let evictCount := (s.residentMapCount - desiredCount).toNat
  s.evictLoop bal (s.residentMappings.toList.take evictCount)

/-- `DeferredMapSeparateHeap`. -/
def deferredMapSeparateHeap (s : HeapTracker) (virtualOffset : Nat) : Bool × HeapTracker :=
  match s.getNearestHeapMapLocked virtualOffset with
  | none => (false, s)
  | some id =>
    if (s.item id).isResident then (false, s)
    else
      let rebuildRequired := decide (s.residentMapCount > s.maxResidentMapCount)
      let h := { s.item id with tick := s.tick, isResident := true }
      let s := ({ s with tick := s.tick + 1 }.bufferMap h.vaddr h.paddr h.size h.perm)
      let s := (s.setItem id h).insertResident bal id
      (true, if rebuildRequired then s.rebuildSeparateHeapAddressSpace bal else s)

/-- `Map`. -/
def map (s : HeapTracker) (virtualOffset hostOffset length : Nat) (perm : MemoryPermission)
    (isSeparateHeap : Bool) : HeapTracker :=
  if !isSeparateHeap then s.bufferMap virtualOffset hostOffset length perm
  else
    let id := s.created
    let s := ({ s with tick := s.tick + 1 }.newItem
      { vaddr := virtualOffset, paddr := hostOffset, size := length, tick := s.tick, perm := perm,
        isResident := false }).insertMapping bal id
    (s.deferredMapSeparateHeap bal virtualOffset).2

/-- The loop of `Unmap` over the mappings in the range. -/
def eraseLoop (limit : Nat) (s : HeapTracker) : List Nat → HeapTracker
  | [] => s
  | id :: ids =>
    if (s.item id).vaddr < limit then
      let s := if (s.item id).isResident then s.eraseResident bal id else s
      eraseLoop limit (s.eraseMapping bal id) ids
    else s

/-- `Unmap`. -/
def unmap (s : HeapTracker) (virtualOffset size : Nat) (isSeparateHeap : Bool) : HeapTracker :=
  let s :=
    if isSeparateHeap then
      let s := s.splitHeapMap bal virtualOffset size
      s.eraseLoop bal (virtualOffset + size)
        (nodesFrom s.mappings (s.getNearestHeapMapLocked virtualOffset))
    else s
  s.bufferUnmap virtualOffset size

/-- The loop of `Protect`, with a bound on how often it runs. -/
def protectLoop (limit : Nat) (perm : MemoryPermission) :
    Nat → HeapTracker → Nat → Option HeapTracker
  | 0, s, cur => if cur < limit then none else some s
  | fuel + 1, s, cur =>
    if cur < limit then
      match s.mappings.nfind (fun id => SeparateHeapMap.addrCompare cur (s.item id)) none with
      | none => some (s.bufferProtect cur (limit - cur) perm)
      | some id =>
        let h := s.item id
        if h.vaddr = cur then
          let s := s.setItem id { h with perm := perm }
          let next := min (cur + h.size) limit
          protectLoop limit perm fuel
            (if h.isResident then s.bufferProtect cur (next - cur) perm else s) next
        else
          let next := min h.vaddr limit
          protectLoop limit perm fuel (s.bufferProtect cur (next - cur) perm) next
    else some s

/-- `Protect`; no turn of the loop stays where it is. -/
def protect (s : HeapTracker) (virtualOffset size : Nat) (perm : MemoryPermission) :
    Option HeapTracker :=
  protectLoop (virtualOffset + size) perm size (s.splitHeapMap bal virtualOffset size) virtualOffset

end HeapTracker

end Sudachi.Common
