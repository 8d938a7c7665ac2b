import Sudachi.Common.Alignment
import Sudachi.Foundations.Word

/-!
# The page bitmap

`KPageBitmap` of `k_page_bitmap.h`: one bit for each block of a region, and over the words of these
leaf bits a tree of summary words. The caller's storage is a function from word positions; a depth
owns the words from `bitStorages` up to `endStorages`, the leaves first. The random generator draws
its bits from an arbitrary stream of 32-bit values, which covers whatever `TinyMT` yields. A failed
`ASSERT` only writes to the log, so no function below has an assertion branch.
-/

set_option autoImplicit false

namespace Sudachi.Kernel

open Sudachi.Common Sudachi.Foundations Function

/-- `Common::BitSize<u64>()`. -/
def bitSize : Nat := 64

/-- `RandomBitGenerator`; the values that `m_rng` is going to yield are `rng 0`, `rng 1`, … -/
structure RandomBitGenerator where
  rng : Nat → BitVec 32
  entropy : BitVec 32
  bitsAvailable : Nat

namespace RandomBitGenerator

def refreshEntropy (g : RandomBitGenerator) : RandomBitGenerator where
  rng := fun n => g.rng (n + 1)
  entropy := g.rng 0
  bitsAvailable := 32

def generateRandomBit (g : RandomBitGenerator) : Bool × RandomBitGenerator :=
  let g := if g.bitsAvailable = 0 then g.refreshEntropy else g
  (g.entropy &&& 1 != 0,
    { g with entropy := g.entropy >>> 1, bitsAvailable := g.bitsAvailable - 1 })

/-- The loop of `SelectRandomBit`, over the values that `cur_num_bits` takes. A random bit is drawn
only when both halves have a bit, as `&&` and `||` do in the source. -/
def selectLoop : List Nat → BitVec 64 → Nat → RandomBitGenerator → Nat × RandomBitGenerator
  | [], _, selected, g => (selected, g)
  | curNumBits :: rest, bitmap, selected, g =>
    let high := bitmap >>> curNumBits
    let low := bitmap &&& ~~~(BitVec.allOnes 64 <<< curNumBits)
    if high = 0 then selectLoop rest low selected g
    else if low = 0 then selectLoop rest high (selected + curNumBits) g
    else
      let (choose, g) := g.generateRandomBit
      if choose then selectLoop rest high (selected + curNumBits) g
      else selectLoop rest low selected g

def selectRandomBit (g : RandomBitGenerator) (bitmap : BitVec 64) : Nat × RandomBitGenerator :=
  selectLoop [32, 16, 8, 4, 2, 1] bitmap 0 g

/-- The loop of `GenerateRandomBits`. Every round takes a bit at least, so that `numBits` bounds the
number of rounds. -/
def generateRandomBitsLoop : Nat → Nat → BitVec 64 → RandomBitGenerator →
    BitVec 64 × RandomBitGenerator
  | 0, _, result, g => (result, g)
  | fuel + 1, numBits, result, g =>
    if numBits = 0 then (result, g)
    else
      let g := if g.bitsAvailable = 0 then g.refreshEntropy else g
      let curBits := min numBits g.bitsAvailable
      let mask := (1#64 <<< curBits) - 1#64
      generateRandomBitsLoop fuel (numBits - curBits)
        ((result <<< curBits) ||| (g.entropy.setWidth 64 &&& mask))
        { g with entropy := g.entropy >>> curBits, bitsAvailable := g.bitsAvailable - curBits }

def generateRandomBits (g : RandomBitGenerator) (numBits : Nat) : BitVec 64 × RandomBitGenerator :=
  generateRandomBitsLoop numBits numBits 0 g

/-- `GenerateRandom(max)`. -/
def generateRandom (g : RandomBitGenerator) (max : Nat) : Nat × RandomBitGenerator :=
  let bitsNeeded := 1 + (64 - (BitVec.ofNat 64 max).clz.toNat)
  let (rnd, g) := g.generateRandomBits bitsNeeded
  (rnd.toNat - rnd.toNat / max * max, g)

end RandomBitGenerator

/-- `KPageBitmap`. -/
structure KPageBitmap where
  storage : Nat → BitVec 64
  bitStorages : Nat → Nat
  endStorages : Nat → Nat
  rng : RandomBitGenerator
  numBits : Nat
  usedDepths : Nat

namespace KPageBitmap

/-- `MaxDepth`. -/
def maxDepth : Nat := 4

/-- `GetRequiredDepth`. -/
def getRequiredDepth (regionSize : Nat) : Nat :=
  if regionSize / bitSize = 0 then 1 else getRequiredDepth (regionSize / bitSize) + 1
termination_by regionSize
decreasing_by
  have : regionSize ≠ 0 := by
    rintro rfl
    simp at *
  exact Nat.div_lt_self (Nat.pos_of_ne_zero this) (by decide)

/-- The number of words for so many bits. -/
def wordsFor (size : Nat) : Nat := alignUp size bitSize / bitSize

/-- The loop of `CalculateManagementOverheadSize` over so many depths. -/
def overheadWords : Nat → Nat → Nat
  | 0, _ => 0
  | depths + 1, regionSize => wordsFor regionSize + overheadWords depths (wordsFor regionSize)

/-- `CalculateManagementOverheadSize`. -/
def calculateManagementOverheadSize (regionSize : Nat) : Nat :=
  overheadWords (getRequiredDepth regionSize) regionSize * 8

/-- The loop of `Initialize`: it lays out the depths `depths - 1` down to `0` from the position
`storage` on, for a level of `size` bits, and returns the position behind. -/
def layoutLoop : Nat → Nat → Nat → KPageBitmap → Nat × KPageBitmap
  | 0, storage, _, bm => (storage, bm)
  | depth + 1, storage, size, bm =>
    let words := wordsFor size
    layoutLoop depth (storage + words) words { bm with
      bitStorages := update bm.bitStorages depth storage
      endStorages := update bm.endStorages depth (storage + words) }

/-- `Initialize`, for a bitmap whose storage starts at position zero. -/
def initializeBitmap (storage : Nat → BitVec 64) (rng : RandomBitGenerator) (size : Nat) :
    KPageBitmap :=
  (layoutLoop (getRequiredDepth size) 0 size
    { storage := storage
      bitStorages := fun _ => 0
      endStorages := fun _ => 0
      rng := rng
      numBits := 0
      usedDepths := getRequiredDepth size }).2

/-- `m_bit_storages[depth][ind]`. -/
def word (bm : KPageBitmap) (depth ind : Nat) : BitVec 64 := bm.storage (bm.bitStorages depth + ind)

/-- `m_bit_storages[depth][ind] = v`. -/
def setWord (bm : KPageBitmap) (depth ind : Nat) (v : BitVec 64) : KPageBitmap :=
  { bm with storage := update bm.storage (bm.bitStorages depth + ind) v }

/-- The loop of `SetBit(depth, offset)`, over `depth + 1`. -/
def setBitLoop : Nat → Nat → KPageBitmap → KPageBitmap
  | 0, _, bm => bm
  | depth + 1, offset, bm =>
    let ind := offset / bitSize
    let which := offset % bitSize
    let mask := 1#64 <<< which
    let v := bm.word depth ind
    let bm := bm.setWord depth ind (v ||| mask)
    if v ≠ 0 then bm else setBitLoop depth ind bm

/-- The loop of `ClearBit(depth, offset)`, over `depth + 1`. -/
def clearBitLoop : Nat → Nat → KPageBitmap → KPageBitmap
  | 0, _, bm => bm
  | depth + 1, offset, bm =>
    let ind := offset / bitSize
    let which := offset % bitSize
    let mask := 1#64 <<< which
    let v := bm.word depth ind &&& ~~~mask
    let bm := bm.setWord depth ind v
    if v ≠ 0 then bm else clearBitLoop depth ind bm

/-- `SetBit(offset)`. -/
def setBit (bm : KPageBitmap) (offset : Nat) : KPageBitmap :=
  let bm := setBitLoop bm.usedDepths offset bm
  { bm with numBits := bm.numBits + 1 }

/-- `ClearBit(offset)`. -/
def clearBit (bm : KPageBitmap) (offset : Nat) : KPageBitmap :=
  let bm := clearBitLoop bm.usedDepths offset bm
  { bm with numBits := bm.numBits - 1 }

/-- The second loop of `ClearRange` from the leaf word `ind` on, over so many words. The count is a
multiple of the word size there, as the source asserts. -/
def clearWordsLoop (depth : Nat) : Nat → Nat → KPageBitmap → KPageBitmap
  | 0, _, bm => bm
  | words + 1, ind, bm =>
    clearWordsLoop depth words (ind + 1) (clearBitLoop depth ind (bm.setWord depth ind 0))

/-- `ClearRange`. -/
def clearRange (bm : KPageBitmap) (offset count : Nat) : Bool × KPageBitmap :=
  let depth := bm.usedDepths - 1
  let bitInd := offset / bitSize
  if count < bitSize then
    let shift := offset % bitSize
    let mask := rangeMask 64 count shift
    let v := bm.word depth bitInd
    if v &&& mask ≠ mask then (false, bm)
    else
      let v := v &&& ~~~mask
      let bm := bm.setWord depth bitInd v
      let bm := if v = 0 then clearBitLoop depth bitInd bm else bm
      (true, { bm with numBits := bm.numBits - count })
  else
    let words := count / bitSize
    if ∃ i < words, bm.word depth (bitInd + i) ≠ BitVec.allOnes 64 then (false, bm)
    else
      let bm := clearWordsLoop depth words bitInd bm
      (true, { bm with numBits := bm.numBits - count })

/-- The choice of a bit in `FindFreeBlock`: a random one, or the lowest. -/
def chooseBit (random : Bool) (g : RandomBitGenerator) (v : BitVec 64) : Nat × RandomBitGenerator :=
  if random then g.selectRandomBit v else (v.ctz.toNat, g)

/-- The loop of `FindFreeBlock` from the given depth and offset on, over the depths that remain. -/
def findFreeBlockLoop (random : Bool) : Nat → Nat → Nat → KPageBitmap → Int × KPageBitmap
  | 0, _, offset, bm => (offset, bm)
  | remaining + 1, depth, offset, bm =>
    let v := bm.word depth offset
    if v = 0 then (-1, bm)
    else
      let (bit, rng) := chooseBit random bm.rng v
      findFreeBlockLoop random remaining (depth + 1) (offset * bitSize + bit) { bm with rng := rng }

/-- `FindFreeBlock`. -/
def findFreeBlock (bm : KPageBitmap) (random : Bool) : Int × KPageBitmap :=
  findFreeBlockLoop random bm.usedDepths 0 0 bm

/-- The local variables of `FindFreeRange`. -/
structure RangeSearch where
  numValidOptions : Nat
  chosenOffset : Int
  rng : RandomBitGenerator

/-- A new valid option. The `k`-th one is chosen with probability `1 / k`. -/
def RangeSearch.foundOption (s : RangeSearch) (offset : Nat) : RangeSearch :=
  let numValidOptions := s.numValidOptions + 1
  if numValidOptions = 1 then ⟨numValidOptions, offset, s.rng⟩
  else
    let (rnd, rng) := s.rng.generateRandom numValidOptions
    ⟨numValidOptions, if rnd = 0 then (offset : Int) else s.chosenOffset, rng⟩

/-- The inner loop of `FindFreeRange` from `option` on, over so many options. -/
def optionLoop (count storageIndex : Nat) : Nat → Nat → BitVec 64 → RangeSearch → RangeSearch
  | 0, _, _, s => s
  | options + 1, option, storage, s =>
    let freeMask := (1#64 <<< count) - 1#64
    optionLoop count storageIndex options (option + 1) (storage >>> count)
      (if storage &&& freeMask = freeMask then
        s.foundOption (storageIndex * bitSize + option * count)
      else s)

/-- The outer loop of `FindFreeRange` from `storageIndex` on, over so many entries. -/
def entryLoop (bm : KPageBitmap) (count : Nat) : Nat → Nat → RangeSearch → RangeSearch
  | 0, _, s => s
  | entries + 1, storageIndex, s =>
    let optionsPerStorage := max (bitSize / count) 1
    entryLoop bm count entries (storageIndex + 1)
      (optionLoop count storageIndex optionsPerStorage 0
        (bm.word (bm.usedDepths - 1) storageIndex) s)

/-- `FindFreeRange`. There is no result for a count of zero, by which the source divides, and for a
count of 64, by which it shifts a 64-bit word. -/
def findFreeRange (bm : KPageBitmap) (count : Nat) : Option (Int × KPageBitmap) :=
  let storageStart := bm.bitStorages (bm.usedDepths - 1)
  let storageEnd := bm.endStorages (bm.usedDepths - 1)
  if ¬(storageStart < storageEnd ∧ count ≤ bitSize) then some (-1, bm)
  else if count = 0 ∨ count = bitSize then none
  else
    let s := entryLoop bm count (max (storageEnd - storageStart) 1) 0 ⟨0, -1, bm.rng⟩
    some (s.chosenOffset, { bm with rng := s.rng })

end KPageBitmap

end Sudachi.Kernel
