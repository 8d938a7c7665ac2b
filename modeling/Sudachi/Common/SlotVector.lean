import Mathlib.Logic.Function.Basic
import Mathlib.Tactic.Common
import Sudachi.Foundations.Word

/-!
# `Common::SlotVector`

Storage that hands out stable ids. Three books are kept of one array: the entries themselves, a set
of bits that says which of them hold an object, and the list of the free indices. `insert` takes an
index from the back of the free list, and doubles the array first when there is none. `Iterator`
walks over the bits. Indices are `u32`, sizes are `size_t`.
-/

set_option autoImplicit false

namespace Sudachi.Common

open Sudachi.Foundations List BitVec Function

/-- `Common::SlotVector`. An entry without an object is `none`, and the free list has its back at
the end. -/
structure SlotVector (T : Type) where
  values : Nat → Option T
  valuesCapacity : Nat
  storedBitset : List (BitVec 64)
  freeList : List Nat

namespace SlotVector

variable {T : Type}

/-- `SlotId::INVALID_INDEX`. -/
def invalidIndex : Nat := 2 ^ 32 - 1

/-- A vector as it is constructed. -/
def empty : SlotVector T := ⟨fun _ => none, 0, [], []⟩

def setStorageBit (s : SlotVector T) (index : Nat) : SlotVector T :=
  { s with storedBitset := s.storedBitset.modify (index / 64) (· ||| 1#64 <<< (index % 64)) }

def resetStorageBit (s : SlotVector T) (index : Nat) : SlotVector T :=
  { s with storedBitset := s.storedBitset.modify (index / 64) (· &&& ~~~(1#64 <<< (index % 64))) }

/-- `ReadStorageBit`, which is `Iterator::IsValid` as well. -/
def readStorageBit (s : SlotVector T) (index : Nat) : Bool :=
  (s.storedBitset.getD (index / 64) 0 >>> (index % 64)) &&& 1#64 != 0#64

/-- `operator[]`: the object of an entry. -/
def get (s : SlotVector T) (id : Nat) : Option T := s.values id

/-- `size`. -/
def size (s : SlotVector T) : Nat := s.valuesCapacity - s.freeList.length

/-- The inner loop of `Reserve`: from the entry `i` on, the objects whose bits are set move to the
new entries. -/
def moveBits (old : Nat → Option T) (bits : BitVec 64) (i : Nat) (new : Nat → Option T) :
    Nat → Option T :=
  if h : bits = 0#64 then new
  else
    moveBits old (bits >>> 1) (i + 1)
      (if bits &&& 1#64 = 0#64 then new else update new i (old i))
termination_by bits.toNat
decreasing_by
  have hpos : bits.toNat ≠ 0 := fun hzero => h (eq_of_toNat_eq hzero)
  rw [toNat_ushiftRight, Nat.shiftRight_one]
  omega

/-- The outer loop of `Reserve`, over the words of the bitset. -/
def moveWords (old : Nat → Option T) : List (BitVec 64) → Nat → (Nat → Option T) → Nat → Option T
  | [], _, new => new
  | bits :: words, index, new => moveWords old words (index + 64) (moveBits old bits index new)

/-- `std::vector::resize` with a value for the new elements. -/
def resize {α : Type} (xs : List α) (count : Nat) (x : α) : List α :=
  xs.take count ++ List.replicate (count - xs.length) x

/-- `Reserve`. The new free indices count up from the old capacity. -/
def reserve (s : SlotVector T) (newCapacity : Nat) : SlotVector T where
  values := moveWords s.values s.storedBitset 0 fun _ => none
  valuesCapacity := newCapacity
  storedBitset := resize s.storedBitset ((newCapacity + 63) / 64) 0#64
  freeList := s.freeList ++
    (List.range (newCapacity - s.valuesCapacity)).map fun i => (s.valuesCapacity + i) % 2 ^ 32

/-- `FreeValueIndex`. -/
def freeValueIndex (s : SlotVector T) : Nat × SlotVector T :=
  let s := if s.freeList = [] then
      s.reserve (if s.valuesCapacity ≠ 0 then s.valuesCapacity * 2 % 2 ^ 64 else 1)
    else s
  (s.freeList.getLastD 0, { s with freeList := s.freeList.dropLast })

/-- `insert`, with the id that it returns. -/
def insert (s : SlotVector T) (x : T) : Nat × SlotVector T :=
  let (index, s) := s.freeValueIndex
  (index, setStorageBit { s with values := update s.values index (some x) } index)

/-- `erase`. -/
def erase (s : SlotVector T) (id : Nat) : SlotVector T :=
  resetStorageBit
    { s with values := update s.values id none, freeList := s.freeList ++ [id] } id

/-- The loop of `Iterator::operator++`, which counts at least once. -/
def nextIndex (s : SlotVector T) (size index : Nat) : Nat :=
  if index + 1 < size ∧ s.readStorageBit (index + 1) = false then s.nextIndex size (index + 1)
  else index + 1
termination_by size - index

/-- `Iterator::operator++` on the index of the iterator. -/
def increment (s : SlotVector T) (index : Nat) : Nat :=
  let size := s.storedBitset.length % 2 ^ 32 * 64 % 2 ^ 32
  if index < size then
    let index := s.nextIndex size index
    if index = size then invalidIndex else index
  else index

/-- `begin`. The distance from the word that was found to the first one is what the source
computes, and it is negative for all words but the first. -/
def beginIndex (s : SlotVector T) : Nat :=
  let it := s.storedBitset.findIdx (· ≠ 0#64)
  if it = s.storedBitset.length then invalidIndex
  else
    let wordIndex := ((0 - it : Int) % 2 ^ 32).toNat
    (wordIndex * 64 + (s.storedBitset.getD it 0).ctz.toNat) % 2 ^ 32

/-- The indices that a loop `for (it = i; it != end(); ++it)` visits, for a loop that ends. -/
inductive Visits (s : SlotVector T) : Nat → List Nat → Prop
  | stop : Visits s invalidIndex []
  | visit {i : Nat} {ids : List Nat} (hne : i ≠ invalidIndex)
      (hrest : Visits s (s.increment i) ids) : Visits s i (i :: ids)

/-! ## The bits -/

variable {words : List (BitVec 64)} {i : Nat} {s : SlotVector T}

theorem readStorageBit_eq (s : SlotVector T) (index : Nat) :
    s.readStorageBit index = (s.storedBitset.getD (index / 64) 0).getLsbD (index % 64) := by
  have hbit := and_one_shiftLeft_eq_zero_iff
    (s.storedBitset.getD (index / 64) 0 >>> (index % 64)) (k := 0) (by decide)
  rw [shiftLeft_zero, getLsbD_ushiftRight, add_zero] at hbit
  rw [readStorageBit, Bool.eq_iff_iff, bne_iff_ne, ne_eq, hbit, Bool.not_eq_false]

theorem getD_modify {k : Nat} (hk : k < words.length) (f : BitVec 64 → BitVec 64) (j : Nat) :
    (words.modify k f).getD j 0 = if j = k then f (words.getD j 0) else words.getD j 0 := by
  rw [getD_eq_getElem?_getD, getD_eq_getElem?_getD, getElem?_modify]
  by_cases hj : j = k
  · subst hj
    rw [List.getElem?_eq_getElem hk]
    simp
  · have hne : k ≠ j := fun h => hj h.symm
    simp [hj, hne]

/-- An index is its word and its position in it. -/
theorem index_eq_iff {j : Nat} : j / 64 = i / 64 ∧ j % 64 = i % 64 ↔ j = i := by
  omega

theorem readStorageBit_setStorageBit (hi : i / 64 < s.storedBitset.length) (j : Nat) :
    (s.setStorageBit i).readStorageBit j = (s.readStorageBit j || decide (j = i)) := by
  rw [readStorageBit_eq, readStorageBit_eq, setStorageBit, getD_modify hi]
  by_cases hword : j / 64 = i / 64
  · rw [if_pos hword, getLsbD_or_one_shiftLeft _ (Nat.mod_lt _ (by decide))]
    simp only [← index_eq_iff (i := i), hword, true_and]
  · have hne : j ≠ i := fun h => hword (h ▸ rfl)
    rw [if_neg hword, decide_eq_false hne, Bool.or_false]

theorem readStorageBit_resetStorageBit (hi : i / 64 < s.storedBitset.length) (j : Nat) :
    (s.resetStorageBit i).readStorageBit j = (s.readStorageBit j && !decide (j = i)) := by
  rw [readStorageBit_eq, readStorageBit_eq, resetStorageBit, getD_modify hi]
  by_cases hword : j / 64 = i / 64
  · rw [if_pos hword, getLsbD_and_not_one_shiftLeft _ (Nat.mod_lt _ (by decide))]
    simp only [← index_eq_iff (i := i), hword, true_and]
  · have hne : j ≠ i := fun h => hword (h ▸ rfl)
    rw [if_neg hword, decide_eq_false hne, Bool.not_false, Bool.and_true]

/-! ## The growth -/

theorem moveBits_apply (old : Nat → Option T) (bits : BitVec 64) (i : Nat) (new : Nat → Option T)
    (j : Nat) : moveBits old bits i new j =
      if i ≤ j ∧ bits.getLsbD (j - i) = true then old j else new j := by
  induction bits, i, new using moveBits.induct old with
  | case1 i new => simp [moveBits]
  | case2 bits i new hbits ih =>
    have hfirst := and_one_shiftLeft_eq_zero_iff bits (k := 0) (by decide)
    rw [shiftLeft_zero] at hfirst
    simp only [dite_eq_ite] at ih
    rw [moveBits, dif_neg hbits, ih]
    rcases Nat.lt_trichotomy j i with hj | rfl | hj
    · have hne : j ≠ i := ne_of_lt hj
      have hlow : ¬i ≤ j := Nat.not_le_of_lt hj
      have hlow' : ¬i + 1 ≤ j := by omega
      simp only [hlow, hlow', false_and, if_false]
      split
      · rfl
      · exact update_of_ne hne _ _
    · have hlow : ¬j + 1 ≤ j := by omega
      simp only [hlow, false_and, if_false, le_refl, true_and, Nat.sub_self]
      by_cases hzero : bits.getLsbD 0 = true
      · have hand : ¬bits &&& 1#64 = 0#64 := fun h => by
          rw [hfirst.mp h] at hzero
          cases hzero
        rw [if_neg hand, if_pos hzero, update_self]
      · rw [if_pos (hfirst.mpr (Bool.eq_false_iff.mpr hzero)), if_neg hzero]
    · have hle : i ≤ j := le_of_lt hj
      have hle' : i + 1 ≤ j := hj
      have hindex : 1 + (j - (i + 1)) = j - i := by omega
      rw [getLsbD_ushiftRight, hindex]
      simp only [hle, hle', true_and]
      split
      · rfl
      · split
        · rfl
        · exact update_of_ne (ne_of_gt hj) _ _

theorem moveWords_apply (old : Nat → Option T) (words : List (BitVec 64)) (index : Nat)
    (new : Nat → Option T) (j : Nat) : moveWords old words index new j =
      if index ≤ j ∧ (words.getD ((j - index) / 64) 0).getLsbD ((j - index) % 64) = true then old j
      else new j := by
  induction words generalizing index new with
  | nil => simp [moveWords]
  | cons bits words ih =>
    rw [moveWords, ih, moveBits_apply]
    by_cases hlow : index ≤ j
    · by_cases hhigh : index + 64 ≤ j
      · have hword : (j - index) / 64 = (j - (index + 64)) / 64 + 1 := by omega
        have hbit : (j - index) % 64 = (j - (index + 64)) % 64 := by omega
        have hout : bits.getLsbD (j - index) = false := getLsbD_of_ge _ _ (by omega)
        rw [hword, hbit, getD_cons_succ, hout]
        simp only [hlow, hhigh, true_and, Bool.false_eq_true, and_false, if_false]
      · have hword : (j - index) / 64 = 0 := by omega
        have hbit : (j - index) % 64 = j - index := by omega
        rw [hword, hbit, getD_cons_zero]
        simp only [hlow, hhigh, true_and, false_and, if_false]
    · have hhigh : ¬index + 64 ≤ j := by omega
      simp only [hlow, hhigh, false_and, if_false]

theorem values_reserve (s : SlotVector T) (newCapacity j : Nat) :
    (s.reserve newCapacity).values j = if s.readStorageBit j = true then s.values j else none := by
  rw [readStorageBit_eq]
  show moveWords s.values s.storedBitset 0 (fun _ => none) j = _
  rw [moveWords_apply, Nat.sub_zero]
  simp only [zero_le, true_and]

theorem getD_resize {count : Nat} (hcount : words.length ≤ count)
    (j : Nat) : (resize words count 0).getD j 0 = words.getD j 0 := by
  rw [resize, take_of_length_le hcount, getD_eq_getElem?_getD, getD_eq_getElem?_getD]
  by_cases hj : j < words.length
  · rw [getElem?_append_left hj]
  · have hle : words.length ≤ j := Nat.le_of_not_lt hj
    rw [getElem?_append_right hle, getElem?_replicate, List.getElem?_eq_none hle]
    split <;> rfl

theorem length_resize {count : Nat} (hcount : words.length ≤ count) :
    (resize words count 0).length = count := by
  rw [resize, take_of_length_le hcount, length_append, length_replicate]
  omega

theorem readStorageBit_reserve {newCapacity : Nat}
    (hwords : s.storedBitset.length ≤ (newCapacity + 63) / 64) (j : Nat) :
    (s.reserve newCapacity).readStorageBit j = s.readStorageBit j := by
  rw [readStorageBit_eq, readStorageBit_eq]
  show ((resize s.storedBitset _ 0).getD _ 0).getLsbD _ = _
  rw [getD_resize hwords]

end SlotVector

end Sudachi.Common
