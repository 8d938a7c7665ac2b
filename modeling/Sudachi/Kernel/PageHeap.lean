import Sudachi.Kernel.MemoryBlock
import Sudachi.Kernel.PageBitmapRuns

/-!
# The page heap

`KPageHeap` of `k_page_heap.h` and `k_page_heap.cpp`: the free pages of a region, kept as blocks of
seven sizes with a bitmap for each size. The bitmaps own consecutive parts of the management words,
and no bitmap writes outside of its part, so each one has its own storage here. The initial used size
is left out; no function below reads it.
-/

set_option autoImplicit false

namespace Sudachi.Kernel

open Sudachi.Common KPageBitmap

namespace KPageHeap

/-- `MemoryBlockPageShifts`. -/
def memoryBlockPageShifts : List Nat := [0xC, 0x10, 0x15, 0x16, 0x19, 0x1D, 0x1E]

/-- `NumMemoryBlockPageShifts`. -/
def numMemoryBlockPageShifts : Nat := 7

/-- `KPageHeap::Block`. -/
structure Block where
  bitmap : KPageBitmap
  heapAddress : Nat
  endOffset : Nat
  blockShift : Nat
  nextBlockShift : Nat

namespace Block

def getSize (b : Block) : Nat := 2 ^ b.blockShift

def getNumPages (b : Block) : Nat := b.getSize / pageSize

def getNumFreeBlocks (b : Block) : Nat := b.bitmap.numBits

def getNumFreePages (b : Block) : Nat := b.getNumFreeBlocks * b.getNumPages

/-- `Block::Initialize`, on management words that are zero. -/
def initializeBlock (rng : RandomBitGenerator) (addr size bs nbs : Nat) : Block :=
  let stop := addr + size
  let align := if nbs ≠ 0 then 2 ^ nbs else 2 ^ bs
  let addr := alignDown addr align
  let stop := alignUp stop align
  { bitmap := initializeBitmap (fun _ => 0) rng ((stop - addr) / 2 ^ bs)
    heapAddress := addr
    endOffset := (stop - addr) / 2 ^ bs
    blockShift := bs
    nextBlockShift := nbs }

/-- `PushBlock`. The result is the address of the merged block, or 0. -/
def pushBlock (b : Block) (address : Nat) : Nat × Block :=
  let offset := (address - b.heapAddress) / 2 ^ b.blockShift
  let bitmap := b.bitmap.setBit offset
  if b.nextBlockShift ≠ 0 then
    let diff := 2 ^ (b.nextBlockShift - b.blockShift)
    let offset := alignDown offset diff
    let (cleared, bitmap) := bitmap.clearRange offset diff
    if cleared then (b.heapAddress + offset * 2 ^ b.blockShift, { b with bitmap := bitmap })
    else (0, { b with bitmap := bitmap })
  else (0, { b with bitmap := bitmap })

/-- `PopBlock`. -/
def popBlock (b : Block) (random : Bool) : Nat × Block :=
  let (soffset, bitmap) := b.bitmap.findFreeBlock random
  if soffset < 0 then (0, { b with bitmap := bitmap })
  else
    let offset := soffset.toNat
    (b.heapAddress + offset * 2 ^ b.blockShift, { b with bitmap := bitmap.clearBit offset })

end Block

end KPageHeap

/-- `KPageHeap`. -/
structure KPageHeap where
  heapAddress : Nat
  heapSize : Nat
  numBlocks : Nat
  blocks : Nat → KPageHeap.Block
  rng : RandomBitGenerator

namespace KPageHeap

/-- `Initialize`; the generators are the ones of the bitmaps and of the heap itself. -/
def initializeHeap (rngs : Nat → RandomBitGenerator) (rng : RandomBitGenerator)
    (address size : Nat) : KPageHeap where
  heapAddress := address
  heapSize := size
  numBlocks := numMemoryBlockPageShifts
  blocks := fun i =>
    Block.initializeBlock (rngs i) address size (memoryBlockPageShifts.getD i 0)
      (if i ≠ numMemoryBlockPageShifts - 1 then memoryBlockPageShifts.getD (i + 1) 0 else 0)
  rng := rng

def getNumFreePages (h : KPageHeap) : Nat :=
  ∑ i ∈ Finset.range h.numBlocks, (h.blocks i).getNumFreePages

def setBlock (h : KPageHeap) (i : Nat) (b : Block) : KPageHeap :=
  { h with blocks := Function.update h.blocks i b }

/-! ## Block indices -/

/-- `GetBlockSize`. -/
def getBlockSize (index : Nat) : Nat := 2 ^ memoryBlockPageShifts.getD index 0

/-- `GetBlockNumPages`. -/
def getBlockNumPages (index : Nat) : Nat := getBlockSize index / pageSize

/-- `GetAlignedBlockIndex`. -/
def getAlignedBlockIndex (numPages alignPages : Nat) : Option Nat :=
  (List.range numMemoryBlockPageShifts).find? fun i =>
    max numPages alignPages ≤ getBlockNumPages i

/-- `GetBlockIndex`. -/
def getBlockIndex (numPages : Nat) : Option Nat :=
  (List.range numMemoryBlockPageShifts).reverse.find? fun i => getBlockNumPages i ≤ numPages

/-! ## Free -/

/-- The loop of `FreeBlock`. The last level never merges, so the loop ends within the array. -/
def freeBlockLoop : Nat → Nat → Nat → KPageHeap → KPageHeap
  | 0, _, _, h => h
  | fuel + 1, block, index, h =>
    let (merged, b) := (h.blocks index).pushBlock block
    let h := h.setBlock index b
    if merged = 0 then h else freeBlockLoop fuel merged (index + 1) h

/-- `FreeBlock`. -/
def freeBlock (h : KPageHeap) (block index : Nat) : KPageHeap :=
  freeBlockLoop (h.numBlocks - index) block index h

/-- The first loop of `Free`: the largest of the indices below with a block inside the range. -/
def findBigIndex (h : KPageHeap) (start stop : Nat) : Nat → Option Nat
  | 0 => none
  | index + 1 =>
    let blockSize := (h.blocks index).getSize
    if alignUp start blockSize < alignDown stop blockSize then some index
    else findBigIndex h start stop index

/-- The loop of `Free` over the big blocks. -/
def freeBigLoop (bigEnd blockSize index : Nat) : Nat → Nat → KPageHeap → KPageHeap
  | 0, _, h => h
  | fuel + 1, block, h =>
    if block < bigEnd then
      freeBigLoop bigEnd blockSize index fuel (block + blockSize) (h.freeBlock block index)
    else h

/-- The inner loop of `Free` before the big blocks. -/
def freeBeforeBlocks (beforeStart blockSize i : Nat) : Nat → Nat → KPageHeap → Nat × KPageHeap
  | 0, beforeEnd, h => (beforeEnd, h)
  | fuel + 1, beforeEnd, h =>
    if beforeStart + blockSize ≤ beforeEnd then
      freeBeforeBlocks beforeStart blockSize i fuel (beforeEnd - blockSize)
        (h.freeBlock (beforeEnd - blockSize) i)
    else (beforeEnd, h)

/-- The loop of `Free` before the big blocks, over the indices below. -/
def freeBeforeLoop (beforeStart : Nat) : Nat → Nat → KPageHeap → KPageHeap
  | 0, _, h => h
  | i + 1, beforeEnd, h =>
    let (beforeEnd, h) := freeBeforeBlocks beforeStart (h.blocks i).getSize i
      (beforeEnd - beforeStart) beforeEnd h
    freeBeforeLoop beforeStart i beforeEnd h

/-- The inner loop of `Free` after the big blocks. -/
def freeAfterBlocks (afterEnd blockSize i : Nat) : Nat → Nat → KPageHeap → Nat × KPageHeap
  | 0, afterStart, h => (afterStart, h)
  | fuel + 1, afterStart, h =>
    if afterStart + blockSize ≤ afterEnd then
      freeAfterBlocks afterEnd blockSize i fuel (afterStart + blockSize) (h.freeBlock afterStart i)
    else (afterStart, h)

/-- The loop of `Free` after the big blocks, over the indices below. -/
def freeAfterLoop (afterEnd : Nat) : Nat → Nat → KPageHeap → KPageHeap
  | 0, _, h => h
  | i + 1, afterStart, h =>
    let (afterStart, h) := freeAfterBlocks afterEnd (h.blocks i).getSize i
      (afterEnd - afterStart) afterStart h
    freeAfterLoop afterEnd i afterStart h

/-- `Free`. -/
def free (h : KPageHeap) (addr numPages : Nat) : KPageHeap :=
  if numPages = 0 then h
  else
    let start := addr
    let stop := addr + numPages * pageSize
    match h.findBigIndex start stop h.numBlocks with
    | none => h
    | some bigIndex =>
      let blockSize := (h.blocks bigIndex).getSize
      let bigStart := alignUp start blockSize
      let bigEnd := alignDown stop blockSize
      let h := freeBigLoop bigEnd blockSize bigIndex (bigEnd - bigStart) bigStart h
      let h := freeBeforeLoop start bigIndex bigStart h
      freeAfterLoop stop bigIndex bigEnd h

/-! ## Allocation -/

/-- The loop of `AllocateByLinearSearch`. -/
def linearSearchLoop (neededSize : Nat) : Nat → Nat → KPageHeap → Nat × KPageHeap
  | 0, _, h => (0, h)
  | fuel + 1, i, h =>
    let (addr, b) := (h.blocks i).popBlock false
    let h := h.setBlock i b
    if addr ≠ 0 then
      let allocatedSize := b.getSize
      if allocatedSize > neededSize then
        (addr, h.free (addr + neededSize) ((allocatedSize - neededSize) / pageSize))
      else (addr, h)
    else linearSearchLoop neededSize fuel (i + 1) h

/-- `AllocateByLinearSearch`. -/
def allocateByLinearSearch (h : KPageHeap) (index : Nat) : Nat × KPageHeap :=
  linearSearchLoop (h.blocks index).getSize (h.numBlocks - index) index h

/-- `std::countr_zero`. -/
def countrZero (value : Nat) : Nat := (BitVec.ofNat 64 value).ctz.toNat

/-- `MinimumPossibleAlignmentsForRandomAllocation`. -/
def minimumPossibleAlignments : Nat := 4

/-- The places that the free blocks of a level have for an aligned allocation. -/
def levelAlignments (h : KPageHeap) (neededSize alignShift i : Nat) : Nat :=
  (1 + ((h.blocks i).getSize - neededSize) / 2 ^ alignShift) * (h.blocks i).getNumFreeBlocks

/-- The first loop of `AllocateByRandom`: `possible_alignments` and `max_blocks`. -/
def countAlignments (h : KPageHeap) (neededSize alignShift : Nat) : Nat → Nat → Nat → Nat × Nat
  | 0, i, possible => (possible, i)
  | fuel + 1, i, possible =>
    let possible := possible + h.levelAlignments neededSize alignShift i
    if possible ≥ minimumPossibleAlignments then (possible, i + 1)
    else countAlignments h neededSize alignShift fuel (i + 1) possible

/-- The second loop of `AllocateByRandom`: the level of the place with the number `rnd`. -/
def chooseIndex (h : KPageHeap) (neededSize alignShift rnd index : Nat) : Nat → Nat → Nat → Nat
  | 0, _, _ => index
  | fuel + 1, i, possible =>
    let possible := possible + h.levelAlignments neededSize alignShift i
    if rnd < possible then i
    else chooseIndex h neededSize alignShift rnd index fuel (i + 1) possible

/-- The part of `AllocateByRandom` that decides on a block to allocate from. -/
def selectIndex (h : KPageHeap) (neededSize alignShift index : Nat) : Nat × KPageHeap :=
  let (possible, maxBlocks) :=
    h.countAlignments neededSize alignShift (h.numBlocks - index) index 0
  if possible > 0 ∧ index + 1 < maxBlocks then
    let (rnd, rng) := h.rng.generateRandom possible
    (h.chooseIndex neededSize alignShift rnd index (maxBlocks - index) index 0,
      { h with rng := rng })
  else (index, h)

/-- `AllocateByRandom`. -/
def allocateByRandom (h : KPageHeap) (index numPages alignPages : Nat) : Nat × KPageHeap :=
  let neededSize := numPages * pageSize
  let alignSize := alignPages * pageSize
  let alignShift := countrZero alignSize
  let (index, h) := h.selectIndex neededSize alignShift index
  let (addr, b) := (h.blocks index).popBlock true
  let h := h.setBlock index b
  if addr ≠ 0 then
    let leftoverSize := b.getSize - neededSize
    if leftoverSize > 0 then
      let possibleAlignments := 1 + leftoverSize / 2 ^ alignShift
      let (rnd, rng) := h.rng.generateRandom possibleAlignments
      let h := { h with rng := rng }
      let randomOffset := rnd * 2 ^ alignShift
      let h := if randomOffset ≠ 0 then h.free addr (randomOffset / pageSize) else h
      let addr := addr + randomOffset
      let h :=
        if randomOffset ≠ leftoverSize then
          h.free (addr + neededSize) ((leftoverSize - randomOffset) / pageSize)
        else h
      (addr, h)
    else (addr, h)
  else (0, h)

/-- `AllocateBlock`. -/
def allocateBlock (h : KPageHeap) (index : Nat) (random : Bool) : Nat × KPageHeap :=
  if random then
    let blockPages := (h.blocks index).getNumPages
    h.allocateByRandom index blockPages blockPages
  else h.allocateByLinearSearch index

/-- `AllocateAligned`. -/
def allocateAligned (h : KPageHeap) (index numPages alignPages : Nat) : Nat × KPageHeap :=
  h.allocateByRandom index numPages alignPages

end KPageHeap

end Sudachi.Kernel
