import Sudachi.Foundations.Breakpoints
import Mathlib.Data.BitVec

/-!
# The flat address space map

`FlatAddressSpaceMap` of `address_space.h` and `address_space.inc`: a vector of blocks sorted by
virtual address, each in force until the next one starts. `MapLocked` and `UnmapLocked` edit it in
place; iterators are indices here, and an access that the code must not make is a `Fault` like a
failed assertion. `UnmappedVa` is zero, as in every instantiation. The callback that is told of each
range is left out.
-/

set_option autoImplicit false

namespace Sudachi.Common

open Sudachi.Foundations

/-- What the template parameters say of physical addresses: the address that stands for none, and
the address `n` bytes into a block. -/
structure Split (Pa : Type) where
  unmappedPa : Pa
  advance : Pa → Nat → Pa
  advance_zero : ∀ pa, advance pa 0 = pa
  advance_add : ∀ pa m n, advance (advance pa m) n = advance pa (m + n)

/-- `PaContigSplit` is false: one address for a whole block. -/
def Split.constant {Pa : Type} (unmappedPa : Pa) : Split Pa :=
  ⟨unmappedPa, fun pa _ => pa, fun _ => rfl, fun _ _ _ => rfl⟩

/-- `PaContigSplit` is true: addresses grow along a block. -/
def Split.contiguous {w : Nat} (unmappedPa : BitVec w) : Split (BitVec w) where
  unmappedPa := unmappedPa
  advance := fun pa n => pa + BitVec.ofNat w n
  advance_zero := fun pa => BitVec.add_zero pa
  advance_add := fun pa m n => by rw [BitVec.add_assoc, BitVec.ofNat_add]

structure Block (Pa Extra : Type) where
  virt : Nat
  phys : Pa
  extraInfo : Extra
  deriving DecidableEq

/-- An assertion that fails, or an iterator that is moved or read outside the vector. -/
inductive Fault where
  | pastVaLimit
  | beforeVaStart
  | contiguousUnmappedRegions
  | unsortedBlock
  | unexpectedState
  | invalidIterator
  | invalidFirstBlock
  | unexpectedAllocatorState
  deriving DecidableEq

/-- The map over a `VaType` of `vaBits` bits. -/
structure FlatAddressSpaceMap (Pa Extra : Type) where
  blocks : List (Block Pa Extra)
  vaLimit : Nat
  vaBits : Nat
  vaLimit_lt : vaLimit < 2 ^ vaBits

section Vector

variable {Pa Extra : Type}

def deref (blocks : List (Block Pa Extra)) (i : Nat) : Except Fault (Block Pa Extra) :=
  match blocks[i]? with
  | some b => .ok b
  | none => .error .invalidIterator

/-- `std::lower_bound` over the blocks. -/
def lowerBound (blocks : List (Block Pa Extra)) (virt : Nat) : Nat :=
  blocks.findIdx fun b => !decide (b.virt < virt)

def insertAt (blocks : List (Block Pa Extra)) (i : Nat) (new : List (Block Pa Extra)) :
    List (Block Pa Extra) :=
  blocks.take i ++ (new ++ blocks.drop i)

/-- `erase(first, last)`. -/
def eraseRange (blocks : List (Block Pa Extra)) (first last : Nat) :
    Except Fault (List (Block Pa Extra)) :=
  if first ≤ last then .ok (blocks.take first ++ blocks.drop last) else .error .invalidIterator

/-- The erasure of overwritten blocks, where there are any. -/
def eraseOverwritten (blocks : List (Block Pa Extra)) (eraseStart endSuccessor : Nat) :
    Except Fault (List (Block Pa Extra)) :=
  if eraseStart ≠ endSuccessor then eraseRange blocks eraseStart endSuccessor else .ok blocks

/-- `walk_back_to_predecessor`: from `i` back to a block that starts before `virt`. -/
def walkBackToPredecessor (blocks : List (Block Pa Extra)) (virt : Nat) : Nat → Except Fault Nat
  | 0 => do
      let b ← deref blocks 0
      if virt ≤ b.virt then throw .invalidIterator else return 0
  | i + 1 => do
      let b ← deref blocks (i + 1)
      if virt ≤ b.virt then walkBackToPredecessor blocks virt i else return i + 1

/-- The loop of `MapLocked`: back from `i` while the block before starts at or after `virt`. -/
def walkToStartSuccessor (blocks : List (Block Pa Extra)) (virt : Nat) : Nat → Except Fault Nat
  | 0 => throw .invalidIterator
  | i + 1 => do
      let b ← deref blocks i
      if virt ≤ b.virt then walkToStartSuccessor blocks virt i else return i + 1

end Vector

section Operations

variable {Pa Extra : Type} [DecidableEq Pa] (sp : Split Pa)

def Block.Unmapped (b : Block Pa Extra) : Prop := b.phys = sp.unmappedPa

instance (b : Block Pa Extra) : Decidable (b.Unmapped sp) :=
  inferInstanceAs (Decidable (b.phys = sp.unmappedPa))

/-- `tailPhys`: unmapped regions are propagated, else the address at `virtEnd`. -/
def Block.tailPhys (b : Block Pa Extra) (virtEnd : Nat) : Pa :=
  if b.Unmapped sp then b.phys else sp.advance b.phys (virtEnd - b.virt)

/-- The part of a block from `virtEnd` on. -/
def Block.tail (b : Block Pa Extra) (virtEnd : Nat) : Block Pa Extra :=
  ⟨virtEnd, b.tailPhys sp virtEnd, b.extraInfo⟩

/-- The rest of `MapLocked` once a block starts at `virtEnd`, at `endSuccessor`. -/
def mapFrom (blocks : List (Block Pa Extra)) (virt virtEnd : Nat) (new : Block Pa Extra)
    (endSuccessor : Nat) : Except Fault (List (Block Pa Extra)) := do
  let startSuccessor ← walkToStartSuccessor blocks virt endSuccessor
  let first ← deref blocks startSuccessor
  if virtEnd < first.virt then throw .unsortedBlock
  else if first.virt = virtEnd then return insertAt blocks startSuccessor [new]
  else
    let blocks ← eraseOverwritten blocks (startSuccessor + 1) endSuccessor
    return blocks.set startSuccessor new

/-- `MapLocked` on the blocks, with the end of the range at hand. -/
def mapBlocks [Inhabited Extra] (blocks : List (Block Pa Extra)) (virt virtEnd : Nat) (phys : Pa)
    (extraInfo : Extra) : Except Fault (List (Block Pa Extra)) := do
  let new : Block Pa Extra := ⟨virt, phys, extraInfo⟩
  let endSuccessor := lowerBound blocks virtEnd
  if endSuccessor = 0 then throw .beforeVaStart
  let endPredecessor := endSuccessor - 1
  let predecessor ← deref blocks endPredecessor
  match blocks[endSuccessor]? with
  | some successor =>
    if successor.virt ≠ virtEnd then
      if endPredecessor ≠ 0 ∧ virt ≤ predecessor.virt then
        -- the start of this block is overwritten, so that it can serve as the tail
        mapFrom (blocks.set endPredecessor (predecessor.tail sp virtEnd)) virt virtEnd new
          endPredecessor
      else return insertAt blocks endSuccessor [new, predecessor.tail sp virtEnd]
    else mapFrom blocks virt virtEnd new endSuccessor
  | none =>
    if endPredecessor ≠ 0 ∧ virt ≤ predecessor.virt then
      mapFrom (blocks.set endPredecessor { predecessor with virt := virtEnd }) virt virtEnd new
        endPredecessor
    else return insertAt blocks endSuccessor [new, ⟨virtEnd, sp.unmappedPa, default⟩]

/-- `erase_blocks_with_end_unmapped`. -/
def eraseBlocksWithEndUnmapped (blocks : List (Block Pa Extra)) (virt unmappedEnd : Nat) :
    Except Fault (List (Block Pa Extra)) := do
  let startPredecessor ← walkBackToPredecessor blocks virt unmappedEnd
  let startSuccessor := startPredecessor + 1
  let predecessor ← deref blocks startPredecessor
  let last ← deref blocks unmappedEnd
  let (blocks, eraseEnd) :=
    if predecessor.Unmapped sp then (blocks, unmappedEnd + 1)
    else (blocks.set unmappedEnd { last with virt := virt }, unmappedEnd)
  match blocks[eraseEnd]? with
  | some b =>
    if eraseEnd = startSuccessor ∨ (predecessor.Unmapped sp ∧ b.Unmapped sp) then
      throw .contiguousUnmappedRegions
    else eraseRange blocks startSuccessor eraseEnd
  | none => eraseRange blocks startSuccessor eraseEnd

/-- The rest of `UnmapLocked` once a mapped block starts at `virtEnd`, at `endSuccessor`. -/
def unmapFrom [Inhabited Extra] (blocks : List (Block Pa Extra)) (virt virtEnd : Nat)
    (endPredecessor endSuccessor : Nat) : Except Fault (List (Block Pa Extra)) := do
  let startPredecessor ← walkBackToPredecessor blocks virt endSuccessor
  let startSuccessor := startPredecessor + 1
  let predecessor ← deref blocks startPredecessor
  let first ← deref blocks startSuccessor
  if virtEnd < first.virt then throw .unsortedBlock
  else if first.virt = virtEnd then
    if ¬predecessor.Unmapped sp then
      return insertAt blocks startSuccessor [⟨virt, sp.unmappedPa, default⟩]
    else return blocks
  else if predecessor.Unmapped sp then eraseRange blocks startSuccessor endPredecessor
  else
    let blocks ← eraseOverwritten blocks (startSuccessor + 1) endSuccessor
    return blocks.set startSuccessor ⟨virt, sp.unmappedPa, first.extraInfo⟩

/-- `UnmapLocked` on the blocks, with the end of the range at hand. -/
def unmapBlocks [Inhabited Extra] (blocks : List (Block Pa Extra)) (virt virtEnd : Nat) :
    Except Fault (List (Block Pa Extra)) := do
  let endSuccessor := lowerBound blocks virtEnd
  if endSuccessor = 0 then throw .beforeVaStart
  let endPredecessor := endSuccessor - 1
  let predecessor ← deref blocks endPredecessor
  if predecessor.Unmapped sp then
    if virt < predecessor.virt then eraseBlocksWithEndUnmapped sp blocks virt endPredecessor
    else return blocks
  else
    match blocks[endSuccessor]? with
    | none => throw .unexpectedState
    | some successor =>
      if successor.virt = virtEnd ∧ successor.Unmapped sp then
        eraseBlocksWithEndUnmapped sp blocks virt endSuccessor
      else if successor.virt ≠ virtEnd then
        if virt ≤ predecessor.virt then
          -- the block before the new tail is the predecessor from here on
          unmapFrom sp (blocks.set endPredecessor
              ⟨virtEnd, sp.advance predecessor.phys (virtEnd - predecessor.virt),
                predecessor.extraInfo⟩)
            virt virtEnd (endPredecessor - 1) endPredecessor
        else
          return insertAt blocks endSuccessor
            [⟨virt, sp.unmappedPa, default⟩,
              ⟨virtEnd, sp.advance predecessor.phys (virtEnd - predecessor.virt),
                predecessor.extraInfo⟩]
      else unmapFrom sp blocks virt virtEnd endPredecessor endSuccessor

variable [Inhabited Extra]

/-- `MapLocked`. -/
def mapLocked (m : FlatAddressSpaceMap Pa Extra) (virt : Nat) (phys : Pa) (size : Nat)
    (extraInfo : Extra) : Except Fault (FlatAddressSpaceMap Pa Extra) := do
  let virtEnd := (virt + size) % 2 ^ m.vaBits
  if m.vaLimit < virtEnd then throw .pastVaLimit
  let blocks ← mapBlocks sp m.blocks virt virtEnd phys extraInfo
  return { m with blocks := blocks }

/-- `UnmapLocked`. -/
def unmapLocked (m : FlatAddressSpaceMap Pa Extra) (virt size : Nat) :
    Except Fault (FlatAddressSpaceMap Pa Extra) := do
  let virtEnd := (virt + size) % 2 ^ m.vaBits
  if m.vaLimit < virtEnd then throw .pastVaLimit
  let blocks ← unmapBlocks sp m.blocks virt virtEnd
  return { m with blocks := blocks }

end Operations

end Sudachi.Common
