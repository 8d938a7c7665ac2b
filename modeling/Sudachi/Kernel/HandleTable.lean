import Mathlib.Tactic

/-!
# The handle table of a process

`KHandleTable` of `k_handle_table.h` and `k_handle_table.cpp`. An entry is a union: the linear id of
the object that is registered, or the index of the next free entry; both are views of the same
sixteen bits. The references that the table takes on its objects are left out.
-/

set_option autoImplicit false

namespace Sudachi.Kernel

open List Function

abbrev Handle := BitVec 32

namespace HandlePack

def index (handle : Handle) : Nat := handle.toNat % 2 ^ 15

def linearId (handle : Handle) : Nat := handle.toNat / 2 ^ 15 % 2 ^ 15

def reserved (handle : Handle) : Nat := handle.toNat / 2 ^ 30

end HandlePack

/-- `IsPseudoHandle`. -/
def isPseudoHandle (handle : Handle) : Bool := handle = 0xFFFF8001 || handle = 0xFFFF8000

/-- `EncodeHandle`; a bit field takes the low bits of what is assigned to it. -/
def encodeHandle (index linearId : Nat) : Handle :=
  BitVec.ofNat 32 (index % 2 ^ 15 + linearId % 2 ^ 15 * 2 ^ 15)

inductive HandleTableError where
  | outOfMemory
  | outOfHandles
  deriving DecidableEq

/-- `KHandleTable` over the objects `α`; `none` is the null pointer. -/
structure KHandleTable (α : Type) where
  entryInfos : Nat → BitVec 16
  objects : Nat → Option α
  freeHeadIndex : Int
  tableSize : Nat
  maxCount : Nat
  nextLinearId : Nat
  count : Nat

namespace KHandleTable

variable {α : Type}

def maxTableSize : Nat := 1024

def minLinearId : Nat := 1

def maxLinearId : Nat := 0x7FFF

/-- `GetNextFreeIndex` of an entry. -/
def nextFreeIndex (t : KHandleTable α) (index : Nat) : Int := (t.entryInfos index).toInt

/-- `GetLinearId` of an entry. -/
def linearIdAt (t : KHandleTable α) (index : Nat) : Nat := (t.entryInfos index).toNat

/-- One turn of the loop of `Initialize`. -/
def freeInitially (t : KHandleTable α) (i : Nat) : KHandleTable α :=
  { t with
    objects := update t.objects i none
    entryInfos := update t.entryInfos i (BitVec.ofInt 16 (i - 1))
    freeHeadIndex := i }

/-- The fields as `Initialize` sets them before its loop. -/
def cleared (t : KHandleTable α) (tableSize : Nat) : KHandleTable α :=
  { t with
    maxCount := 0
    tableSize := tableSize
    nextLinearId := minLinearId
    count := 0
    freeHeadIndex := -1 }

/-- `Initialize`. -/
def initializeTable (t : KHandleTable α) (size : Int) :
    Except HandleTableError (KHandleTable α) :=
  if size ≤ maxTableSize then
    let tableSize := if size ≤ 0 then maxTableSize else size.toNat
    .ok ((List.range tableSize).foldl freeInitially (t.cleared tableSize))
  else .error .outOfMemory

/-- `AllocateEntry`. There is no entry at a negative index, so no result either. -/
def allocateEntry (t : KHandleTable α) : Option (Nat × KHandleTable α) :=
  if 0 ≤ t.freeHeadIndex then
    let index := t.freeHeadIndex.toNat
    some (index,
      { t with
        freeHeadIndex := t.nextFreeIndex index
        count := t.count + 1
        maxCount := max t.maxCount (t.count + 1) })
  else none

/-- `FreeEntry`. -/
def freeEntry (t : KHandleTable α) (index : Nat) : KHandleTable α :=
  { t with
    objects := update t.objects index none
    entryInfos := update t.entryInfos index (BitVec.ofInt 16 t.freeHeadIndex)
    freeHeadIndex := index
    count := t.count - 1 }

/-- `AllocateLinearId`. -/
def allocateLinearId (t : KHandleTable α) : Nat × KHandleTable α :=
  let next := t.nextLinearId + 1
  (t.nextLinearId, { t with nextLinearId := if maxLinearId < next then minLinearId else next })

/-- `IsValidHandle`. -/
def isValidHandle (t : KHandleTable α) (handle : Handle) : Bool :=
  let index := HandlePack.index handle
  let linearId := HandlePack.linearId handle
  if handle = 0 then false
  else if linearId = 0 then false
  else if t.tableSize ≤ index then false
  else if (t.objects index).isNone then false
  else t.linearIdAt index = linearId

/-- `GetObjectImpl`. -/
def getObjectImpl (t : KHandleTable α) (handle : Handle) : Option α :=
  if HandlePack.reserved handle ≠ 0 then none
  else if t.isValidHandle handle then t.objects (HandlePack.index handle)
  else none

/-- `Remove`. -/
def remove (t : KHandleTable α) (handle : Handle) : Bool × KHandleTable α :=
  if isPseudoHandle handle then (false, t)
  else if HandlePack.reserved handle ≠ 0 then (false, t)
  else if t.isValidHandle handle then (true, t.freeEntry (HandlePack.index handle))
  else (false, t)

/-- `m_entry_infos[index].linear_id = linear_id; m_objects[index] = obj`. -/
def setEntry (t : KHandleTable α) (index linearId : Nat) (obj : α) : KHandleTable α :=
  { t with
    entryInfos := update t.entryInfos index (BitVec.ofNat 16 linearId)
    objects := update t.objects index (some obj) }

/-- `Add`; no result is an access outside the table. -/
def add (t : KHandleTable α) (obj : α) :
    Option (Except HandleTableError Handle × KHandleTable α) :=
  if t.count < t.tableSize then do
    let (linearId, t) := t.allocateLinearId
    let (index, t) ← t.allocateEntry
    return (.ok (encodeHandle index linearId), t.setEntry index linearId obj)
  else some (.error .outOfHandles, t)

/-- `Reserve`. -/
def reserve (t : KHandleTable α) : Option (Except HandleTableError Handle × KHandleTable α) :=
  if t.count < t.tableSize then do
    let (index, t) ← t.allocateEntry
    let (linearId, t) := t.allocateLinearId
    return (.ok (encodeHandle index linearId), t)
  else some (.error .outOfHandles, t)

/-- `Unreserve`. -/
def unreserve (t : KHandleTable α) (handle : Handle) : KHandleTable α :=
  if HandlePack.index handle < t.tableSize then t.freeEntry (HandlePack.index handle) else t

/-- `Register`. -/
def register (t : KHandleTable α) (handle : Handle) (obj : α) : KHandleTable α :=
  if HandlePack.index handle < t.tableSize then
    t.setEntry (HandlePack.index handle) (HandlePack.linearId handle) obj
  else t

/-! ## The list of free entries -/

/-- The free entries in the order in which they are linked, from `head` on. -/
def FreeChain (t : KHandleTable α) : Int → List Nat → Prop
  | head, [] => head = -1
  | head, i :: rest => head = i ∧ FreeChain t (t.nextFreeIndex i) rest

theorem FreeChain.congr {t t' : KHandleTable α} {head : Int} {free : List Nat}
    (h : t.FreeChain head free) (heq : ∀ i ∈ free, t'.entryInfos i = t.entryInfos i) :
    t'.FreeChain head free := by
  induction free generalizing head with
  | nil => exact h
  | cons i rest ih =>
    have hnext : t'.nextFreeIndex i = t.nextFreeIndex i := by
      rw [nextFreeIndex, nextFreeIndex, heq i mem_cons_self]
    refine ⟨h.1, ?_⟩
    rw [hnext]
    exact ih h.2 fun j hj => heq j (mem_cons_of_mem i hj)

theorem toInt_ofInt_16 {x : Int} (hlow : -1 ≤ x) (hhigh : x < 1024) :
    (BitVec.ofInt 16 x).toInt = x := by
  rw [BitVec.toInt_ofInt]
  exact Int.bmod_eq_of_le (by omega) (by omega)

theorem FreeChain.head_bounds {t : KHandleTable α} {head : Int} {free : List Nat}
    (h : t.FreeChain head free) (hlt : ∀ i ∈ free, i < maxTableSize) : -1 ≤ head ∧ head < 1024 := by
  cases free with
  | nil =>
    have hhead : head = -1 := h
    omega
  | cons i rest =>
    have hhead : head = i := h.1
    have hi : i < 1024 := hlt i mem_cons_self
    omega

/-- What the loop of `Initialize` has done after `n` turns. -/
structure FreedUpTo (t start : KHandleTable α) (n : Nat) : Prop where
  head : t.freeHeadIndex = (n : Int) - 1
  chain : t.FreeChain t.freeHeadIndex (List.range n).reverse
  objects : ∀ i < n, t.objects i = none
  tableSize : t.tableSize = start.tableSize
  nextLinearId : t.nextLinearId = start.nextLinearId
  count : t.count = start.count

theorem FreedUpTo.freeInitially {t start : KHandleTable α} {n : Nat} (h : t.FreedUpTo start n)
    (hn : n < maxTableSize) : (t.freeInitially n).FreedUpTo start (n + 1) := by
  have hn' : n < 1024 := hn
  have hnext : (t.freeInitially n).nextFreeIndex n = t.freeHeadIndex := by
    simp only [nextFreeIndex, KHandleTable.freeInitially, update_self, h.head]
    exact toInt_ofInt_16 (by omega) (by omega)
  refine ⟨?_, ?_, ?_, h.tableSize, h.nextLinearId, h.count⟩
  · show (n : Int) = ((n + 1 : Nat) : Int) - 1
    omega
  · rw [range_succ, reverse_append]
    refine ⟨rfl, ?_⟩
    rw [hnext]
    refine h.chain.congr fun i hi => update_of_ne ?_ _ _
    have hlt := mem_range.mp (mem_reverse.mp hi)
    omega
  · intro i hi
    by_cases hin : i = n
    · rw [hin]
      exact update_self ..
    · exact (update_of_ne hin _ _).trans (h.objects i (by omega))

theorem freedUpTo_foldl (start : KHandleTable α) (hhead : start.freeHeadIndex = -1) {n : Nat}
    (hn : n ≤ maxTableSize) :
    ((range n).foldl KHandleTable.freeInitially start).FreedUpTo start n := by
  induction n with
  | zero => exact ⟨hhead, hhead, fun i hi => absurd hi (Nat.not_lt_zero i), rfl, rfl, rfl⟩
  | succ n ih =>
    rw [range_succ, foldl_append]
    exact (ih (by omega)).freeInitially (by omega)

end KHandleTable

end Sudachi.Kernel
