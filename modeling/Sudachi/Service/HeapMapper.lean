import Sudachi.Common.RangeSets
import Sudachi.Core.DeviceMemoryManager
import Sudachi.Foundations.Runs

/-!
# The heap mapper

`HeapMapper` of `nvdrv/core/heap_mapper.cpp`: handles of the guest's heap share one preallocated
area of the device, and the ranges they map may overlap, nest and repeat. A split map counts the
handles over each address, so that the device memory manager is called for what a range adds and
for what the removal of a range leaves without a handle.

The model follows the calls of `Map` and `Unmap` on the device memory manager, each for the device
pages of its range. The counts are `s32` in the source; a handle is mapped once at a time, and the
`u32` numbers of handles, four apart, leave far fewer than `2 ^ 31` of them.
-/

set_option autoImplicit false

namespace Sudachi.Service

open Common.RangeSets Core.DeviceMemory Foundations.Runs

/-- The constants of a mapper. The heap region begins at a page. -/
structure HeapMapper where
  vaddress : Nat
  daddress : Nat
  size : Nat
  asid : Nat
  vaddress_aligned : vaddress % pageSize = 0

namespace HeapMapper

/-- A call on the device memory manager. -/
inductive DeviceCall where
  | map (address virtualAddress size asid : Nat)
  | unmap (address size : Nat)
deriving DecidableEq, Repr

section Operations

variable {S M : Type} (I : IntervalSet S) (N : SplitIntervalMap M) (h : HeapMapper)

/-- The call for what a range adds. -/
def mapCall (i : Interval) : DeviceCall :=
  let subSize := i.upper - i.lower
  let offset := i.lower - h.vaddress
  .map (h.daddress + offset) (h.vaddress + offset) subSize h.asid

/-- The call for what is left without a handle. -/
def unmapCall (i : Interval) : DeviceCall :=
  let subSize := i.upper - i.lower
  let offset := i.lower - h.vaddress
  .unmap (h.daddress + offset) subSize

/-- `m_temporary_set` when `Map` goes over it: the range without what is mapped already. -/
def newRanges (mappedRanges : M) (start size : Nat) : S :=
  (OverlapRangeSet.forEachInRange N mappedRanges start size).foldl
    (fun temporary it => RangeSet.subtract I temporary it.lower (it.upper - it.lower))
    (RangeSet.add I I.empty start size)

/-- `Map`: the calls, the mapped ranges, and the device address that is returned. -/
def map (mappedRanges : M) (start size : Nat) : List DeviceCall × M × Nat :=
  ((RangeSet.forEach I (newRanges I N mappedRanges start size)).map h.mapCall,
    OverlapRangeSet.add N mappedRanges start size,
    h.daddress + (start - h.vaddress))

/-- `Unmap`. -/
def unmap (mappedRanges : M) (start size : Nat) : List DeviceCall × M :=
  let (deleted, mappedRanges) := OverlapRangeSet.subtract N mappedRanges start size
  (deleted.map h.unmapCall, mappedRanges)

/-! ## Runs -/

/-- A use of the mapper, by a handle that is pinned or released. -/
inductive Input where
  | map (start size : Nat)
  | unmap (start size : Nat)
deriving DecidableEq, Repr

/-- The pages that a call goes over, as `Map` and `Unmap` of the device memory manager count
them. -/
def DeviceCall.Touches (page : Nat) : DeviceCall → Prop
  | .map address _ size _ | .unmap address size =>
    address >>> pageBits ≤ page ∧ page < (address >>> pageBits) + pageCount size

instance (page : Nat) : DecidablePred (DeviceCall.Touches page) := by
  intro call
  cases call <;> exact inferInstanceAs (Decidable (_ ∧ _))

def DeviceCall.IsMap : DeviceCall → Bool
  | .map .. => true
  | .unmap .. => false

/-- The device's table of guest pages after a call. -/
def DeviceCall.apply (table : Nat → Option Nat) (call : DeviceCall) : Nat → Option Nat :=
  fun page =>
    if call.Touches page then
      match call with
      | .map address virtualAddress _ _ =>
        some ((virtualAddress >>> pageBits) + (page - (address >>> pageBits)))
      | .unmap _ _ => none
    else table page

/-- The mapper with the device's table and the ranges of the handles that are mapped. -/
structure Machine (M : Type) where
  mappedRanges : M
  table : Nat → Option Nat
  live : List Interval

def Machine.initial : Machine M where
  mappedRanges := N.empty
  table := fun _ => none
  live := []

/-- The calls of an operation, in order. -/
def Machine.calls (k : Machine M) : Input → List DeviceCall
  | .map start size => (h.map I N k.mappedRanges start size).1
  | .unmap start size => (h.unmap N k.mappedRanges start size).1

def Machine.step (k : Machine M) : Input → Machine M
  | .map start size =>
    let (calls, mappedRanges, _) := h.map I N k.mappedRanges start size
    { mappedRanges := mappedRanges
      table := calls.foldl DeviceCall.apply k.table
      live := ⟨start, start + size⟩ :: k.live }
  | .unmap start size =>
    let (calls, mappedRanges) := h.unmap N k.mappedRanges start size
    { mappedRanges := mappedRanges
      table := calls.foldl DeviceCall.apply k.table
      live := k.live.erase ⟨start, start + size⟩ }

/-- A range of pages inside the heap; a range that is unmapped has been mapped, and not unmapped
since. -/
def Allowed (k : Machine M) : Input → Prop
  | .map start size =>
    start % pageSize = 0 ∧ size % pageSize = 0 ∧ 0 < size ∧
      h.vaddress ≤ start ∧ start + size ≤ h.vaddress + h.size
  | .unmap start size => ⟨start, start + size⟩ ∈ k.live

/-- The number of handles over an address. -/
def coverAt (live : List Interval) (x : Nat) : Nat :=
  live.countP (fun i => i.Contains x)

/-- The number of handles over a page of the heap. -/
def cover (live : List Interval) (page : Nat) : Nat :=
  coverAt live (h.vaddress + page * pageSize)

/-- The device page of a page of the heap. -/
def devicePage (page : Nat) : Nat := (h.daddress >>> pageBits) + page

/-- A page of the heap is mapped, to itself, exactly if a handle covers it, and nothing else is. -/
structure CoveredMapped (k : Machine M) : Prop where
  heap : ∀ page, page * pageSize < h.size → k.table (h.devicePage page) =
    if 0 < h.cover k.live page then some ((h.vaddress >>> pageBits) + page) else none
  outside : ∀ page, (∀ p, p * pageSize < h.size → page ≠ h.devicePage p) → k.table page = none

/-- The calls of an operation map a page of the heap once if its count leaves zero, unmap it once
if its count returns to zero, and do not touch it otherwise. -/
def CalledOnce (k : Machine M) (i : Input) : Prop :=
  ∀ page, page * pageSize < h.size →
    (k.calls I N h i).countP (fun call => call.IsMap ∧ call.Touches (h.devicePage page)) =
        (if h.cover k.live page = 0 ∧ 0 < h.cover (k.step I N h i).live page then 1 else 0) ∧
      (k.calls I N h i).countP (fun call => ¬call.IsMap ∧ call.Touches (h.devicePage page)) =
        if 0 < h.cover k.live page ∧ h.cover (k.step I N h i).live page = 0 then 1 else 0

end Operations

end HeapMapper

end Sudachi.Service
