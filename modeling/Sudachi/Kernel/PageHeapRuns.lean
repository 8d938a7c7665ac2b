import Sudachi.Kernel.PageHeapAllocate

/-!
# Runs of the page heap

Over every run of `Free`, `AllocateBlock` and `AllocateAligned` the heap is an exact allocator
(`heapRun_spec`): the set bits of all levels denote disjoint ranges, whose union is the set of pages
that were freed and not allocated since, in blocks that are as large as they can be.
`AllocateByRandom` works with the largest power of two that divides the requested alignment, so other
alignments are not respected (`allocateAligned_three_pages`).
-/

set_option autoImplicit false

namespace Sudachi.Kernel

open Sudachi.Common Sudachi.Foundations KPageBitmap Finset

namespace KPageHeap

/-- The pages of the block at a bit of a level. -/
def Block.bitPages (b : Block) (offset : Nat) : Finset Nat :=
  rangePages (b.heapAddress + offset * b.getSize) b.getNumPages

/-- The bits that are set at a level. -/
def levelBlocks (h : KPageHeap) (i : Nat) : Finset Nat :=
  (h.blocks i).bitmap.setBits (h.blocks i).endOffset

/-- The pages of the blocks at the set bits of all levels. -/
def freePages (h : KPageHeap) : Finset Nat :=
  (Finset.range h.numBlocks).biUnion fun i => (h.levelBlocks i).biUnion (h.blocks i).bitPages

/-- The pages that an allocation with the given result takes. -/
def takenPages (addr numPages : Nat) : Finset Nat :=
  if addr = 0 then ∅ else rangePages addr numPages

/-- The heaps that a run leads to, with the pages that were freed and not allocated since: an
`Initialize` that meets its assertions, `Free` of pages in the region that are not free, and
allocations whose requests fit in a block. -/
inductive HeapRun (rngs : Nat → RandomBitGenerator) (rng : RandomBitGenerator)
    (address size : Nat) : KPageHeap → Finset Nat → Prop
  | initialized : HeapRegion address size → (∀ i < 7, getRequiredDepth
        ((initializeHeap rngs rng address size).blocks i).endOffset ≤ maxDepth) →
      HeapRun rngs rng address size (initializeHeap rngs rng address size) ∅
  | freed {h : KPageHeap} {F : Finset Nat} (addr numPages : Nat) :
      HeapRun rngs rng address size h F → pageSize ∣ addr →
      rangePages addr numPages ⊆ rangePages address (size / pageSize) →
      Disjoint (rangePages addr numPages) F →
      HeapRun rngs rng address size (h.free addr numPages) (F ∪ rangePages addr numPages)
  | allocatedBlock {h : KPageHeap} {F : Finset Nat} (index : Nat) (random : Bool) :
      HeapRun rngs rng address size h F → index < numMemoryBlockPageShifts →
      HeapRun rngs rng address size (h.allocateBlock index random).2
        (F \ takenPages (h.allocateBlock index random).1 (getBlockNumPages index))
  | allocatedAligned {h : KPageHeap} {F : Finset Nat} (index numPages alignPages : Nat) :
      HeapRun rngs rng address size h F → index < numMemoryBlockPageShifts → alignPages ≠ 0 →
      max numPages alignPages ≤ getBlockNumPages index →
      HeapRun rngs rng address size (h.allocateAligned index numPages alignPages).2
        (F \ takenPages (h.allocateAligned index numPages alignPages).1 numPages)

/-- An allocation out of the free pages `F`: it fails and changes nothing, or it takes exactly
`numPages` free pages at a multiple of `align`. -/
def AllocatesExactly (F : Finset Nat) (numPages align : Nat) (r : Nat × KPageHeap) : Prop :=
  (r.1 = 0 ∧ r.2.freePages = F) ∨
    (r.1 ≠ 0 ∧ align ∣ r.1 ∧ pageSize ∣ r.1 ∧ rangePages r.1 numPages ⊆ F ∧
      r.2.freePages = F \ rangePages r.1 numPages)

section Runs

variable {rngs : Nat → RandomBitGenerator} {rng : RandomBitGenerator}
variable {address size index numPages align alignPages : Nat} {h : KPageHeap} {F : Finset Nat}
variable {r : Nat × KPageHeap}

theorem Block.Valid.bitPages_eq {i : Nat} {b : Block} (hb : b.Valid address size i)
    (offset : Nat) : b.bitPages offset = ladder.units i (b.firstBlock + offset) := by
  have hpages : 2 ^ levelShift i / pageSize * pageSize = 2 ^ levelShift i :=
    Nat.div_mul_cancel (pageSize_dvd_two_pow i)
  rw [bitPages, getNumPages, getSize, hb.blockShift, hb.start, ← add_mul, rangePages_eq_span,
    hpages, ← Nat.succ_mul, units_eq_span]

theorem HeapInvariant.bitPages_eq (hinv : HeapInvariant address size h F) {i : Nat} (hi : i < 7)
    (offset : Nat) : (h.blocks i).bitPages offset =
      ladder.units i ((h.blocks i).firstBlock + offset) :=
  (hinv.levels i hi).bitPages_eq offset

theorem mem_blockNumbers {i k : Nat} :
    k ∈ h.blockNumbers i ↔ ∃ o ∈ h.levelBlocks i, (h.blocks i).firstBlock + o = k := by
  rw [blockNumbers, Block.numbers, mem_image]
  rfl

theorem HeapInvariant.freePages_eq (hinv : HeapInvariant address size h F) : h.freePages = F := by
  rw [← hinv.free_eq, freePages, Ladder.free, hinv.numBlocks]
  refine biUnion_congr rfl fun i hi => ?_
  rw [blockNumbers, Block.numbers, image_biUnion]
  exact biUnion_congr rfl fun o _ => hinv.bitPages_eq (mem_range.1 hi) o

theorem getBlockSize_eq (hindex : index < 7) : getBlockSize index = 2 ^ levelShift index := by
  rw [getBlockSize, levelShift_eq hindex]

theorem le_getBlockNumPages_iff (hindex : index < 7) :
    numPages ≤ getBlockNumPages index ↔ numPages * pageSize ≤ 2 ^ levelShift index := by
  rw [getBlockNumPages, getBlockSize_eq hindex, Nat.le_div_iff_mul_le pageSize_pos]

theorem countrZero_of_two_pow {t : Nat} (hindex : index < 7)
    (hfits : 2 ^ t * pageSize ≤ 2 ^ levelShift index) :
    2 ^ countrZero (2 ^ t * pageSize) = 2 ^ t * pageSize := by
  have hpage : pageSize = 2 ^ 12 := rfl
  have hpos : 0 < 2 ^ t * pageSize := mul_pos (Nat.two_pow_pos t) pageSize_pos
  have hlt : 2 ^ t * pageSize < 2 ^ 64 := by
    refine lt_of_le_of_lt (hfits.trans (Nat.pow_le_pow_right (by decide)
      (levelShift_mono (le_of_lt hindex)))) ?_
    decide
  refine Nat.dvd_antisymm ((two_pow_dvd_iff_le_ctz hpos hlt).2 (le_refl _)) ?_
  rw [hpage, ← pow_add] at hpos hlt ⊢
  exact pow_dvd_pow 2 ((two_pow_dvd_iff_le_ctz hpos hlt).1 (dvd_refl _))

section

variable (hinv : HeapInvariant address size h F) (hr : HeapRegion address size) (hindex : index < 7)
include hinv hr hindex

/-- `AllocateBlock`, in both modes. -/
theorem HeapInvariant.allocateBlock (random : Bool) :
    Fails address size F h index (h.allocateBlock index random) ∨
      Takes address size F (getBlockNumPages index) (getBlockSize index)
        (h.allocateBlock index random) := by
  rw [getBlockNumPages, getBlockSize_eq hindex]
  cases random with
  | false => exact hinv.allocateByLinearSearch hr hindex
  | true =>
    have hpages : (h.blocks index).getNumPages = 2 ^ levelShift index / pageSize := by
      rw [Block.getNumPages, hinv.getSize hindex]
    have hmul : 2 ^ levelShift index / pageSize * pageSize = 2 ^ levelShift index :=
      Nat.div_mul_cancel (pageSize_dvd_two_pow index)
    have hpow : 2 ^ levelShift index / pageSize = 2 ^ (levelShift index - 12) :=
      Nat.pow_div (pageShift_le_levelShift index) (by decide)
    have hmul' : 2 ^ (levelShift index - 12) * pageSize = 2 ^ levelShift index := by
      rw [← hpow]
      exact hmul
    have hzero : 2 ^ countrZero (2 ^ levelShift index / pageSize * pageSize) =
        2 ^ levelShift index := by
      rw [hpow, countrZero_of_two_pow hindex (le_of_eq hmul'), hmul']
    have hspec := hinv.allocateByRandom hr hindex (le_of_eq hmul)
      (hpow ▸ Nat.two_pow_pos _) (le_of_eq hmul)
    rw [hzero] at hspec
    rw [KPageHeap.allocateBlock, if_pos rfl, hpages]
    exact hspec

theorem HeapInvariant.allocateAligned (halign : alignPages ≠ 0)
    (hfits : max numPages alignPages ≤ getBlockNumPages index) :
    Fails address size F h index (h.allocateAligned index numPages alignPages) ∨
      Takes address size F numPages (2 ^ countrZero (alignPages * pageSize))
        (h.allocateAligned index numPages alignPages) := by
  obtain ⟨hnum, hal⟩ := max_le_iff.1 hfits
  exact hinv.allocateByRandom hr hindex ((le_getBlockNumPages_iff hindex).1 hnum)
    (pos_of_ne_zero halign) ((le_getBlockNumPages_iff hindex).1 hal)

end

theorem Takes.takenPages_eq (ht : Takes address size F numPages align r) :
    takenPages r.1 numPages = rangePages r.1 numPages := if_neg ht.ne_zero

theorem heapInvariant_of_allocation {n : Nat}
    (hspec : Fails address size F h index r ∨ Takes address size F n align r) :
    HeapInvariant address size r.2 (F \ takenPages r.1 n) := by
  rcases hspec with hfails | htakes
  · rw [takenPages, if_pos hfails.eq_zero, sdiff_empty]
    exact hfails.rest
  · rw [htakes.takenPages_eq]
    exact htakes.rest

theorem allocatesExactly_of_allocation {n : Nat}
    (hspec : Fails address size F h index r ∨ Takes address size F n align r) :
    AllocatesExactly F n align r := by
  rcases hspec with hfails | htakes
  · exact .inl ⟨hfails.eq_zero, hfails.rest.freePages_eq⟩
  · exact .inr ⟨htakes.ne_zero, htakes.align_dvd, htakes.page_dvd, htakes.free,
      htakes.rest.freePages_eq⟩

theorem HeapRun.region (hrun : HeapRun rngs rng address size h F) : HeapRegion address size := by
  induction hrun with
  | initialized hr _ => exact hr
  | freed _ _ _ _ _ _ ih => exact ih
  | allocatedBlock _ _ _ _ ih => exact ih
  | allocatedAligned _ _ _ _ _ _ _ ih => exact ih

/-- Every run keeps the invariant. -/
theorem HeapRun.invariant (hrun : HeapRun rngs rng address size h F) :
    HeapInvariant address size h F := by
  induction hrun with
  | initialized hr _ => exact initializeHeap_invariant hr rngs rng
  | freed addr numPages hrun hdvd hin hdis ih => exact ih.free hrun.region hdvd hin hdis
  | allocatedBlock index random hrun hindex ih =>
    exact heapInvariant_of_allocation (ih.allocateBlock hrun.region hindex random)
  | allocatedAligned index numPages alignPages hrun hindex halign hfits ih =>
    exact heapInvariant_of_allocation (ih.allocateAligned hrun.region hindex halign hfits)

/-- In every state of every run: the free pages are the disjoint union of the ranges at the set bits
of all levels, `GetNumFreePages` counts them, and every aligned free range of a block size lies in
one block; `Free` adds exactly its range, and an allocation takes exactly its pages out of the free
ones, at a multiple of the size of its block, or of the largest power of two that divides the
requested alignment. -/
theorem heapRun_spec (hrun : HeapRun rngs rng address size h F) :
    h.freePages = F ∧
      (∀ i < 7, ∀ o ∈ h.levelBlocks i, ∀ j < 7, ∀ o' ∈ h.levelBlocks j, (i, o) ≠ (j, o') →
        Disjoint ((h.blocks i).bitPages o) ((h.blocks j).bitPages o')) ∧
      h.getNumFreePages = F.card ∧
      (∀ i < 7, ∀ k, rangePages (k * getBlockSize i) (getBlockNumPages i) ⊆ F →
        ∃ j, i ≤ j ∧ j < 7 ∧ ∃ o ∈ h.levelBlocks j,
          rangePages (k * getBlockSize i) (getBlockNumPages i) ⊆ (h.blocks j).bitPages o) ∧
      (∀ addr numPages, pageSize ∣ addr →
        rangePages addr numPages ⊆ rangePages address (size / pageSize) →
        Disjoint (rangePages addr numPages) F →
          (h.free addr numPages).freePages = F ∪ rangePages addr numPages) ∧
      (∀ index random, index < 7 → AllocatesExactly F (getBlockNumPages index) (getBlockSize index)
        (h.allocateBlock index random)) ∧
      (∀ index numPages alignPages, index < 7 → alignPages ≠ 0 →
        max numPages alignPages ≤ getBlockNumPages index →
          AllocatesExactly F numPages (2 ^ countrZero (alignPages * pageSize))
            (h.allocateAligned index numPages alignPages)) ∧
      ∀ index numPages t, index < 7 → max numPages (2 ^ t) ≤ getBlockNumPages index →
        AllocatesExactly F numPages (2 ^ t * pageSize)
          (h.allocateAligned index numPages (2 ^ t)) := by
  have hinv := hrun.invariant
  have hr := hrun.region
  have hblock : ∀ i < 7, ∀ k, rangePages (k * getBlockSize i) (getBlockNumPages i) =
      ladder.units i k := by
    intro i hi k
    rw [getBlockNumPages, getBlockSize_eq hi, rangePages_div (pageSize_dvd_two_pow i),
      ← Nat.succ_mul, units_eq_span]
  refine ⟨hinv.freePages_eq, ?_, hinv.getNumFreePages_eq, ?_, ?_, ?_, ?_, ?_⟩
  · intro i hi o ho j hj o' ho' hne
    rw [hinv.bitPages_eq hi, hinv.bitPages_eq hj]
    refine disjoint_left.2 fun p hp hp' => hne ?_
    rw [Ladder.mem_units] at hp hp'
    have hpi : p / ladder.size i ∈ h.blockNumbers i := mem_blockNumbers.2 ⟨o, ho, hp.symm⟩
    have hpj : p / ladder.size j ∈ h.blockNumbers j := mem_blockNumbers.2 ⟨o', ho', hp'.symm⟩
    obtain rfl : i = j := hinv.packed.unique hi hj hpi hpj
    obtain rfl : o = o' := by
      rw [hp] at hp'
      exact Nat.add_left_cancel hp'
    rfl
  · intro i hi k hsub
    rw [hblock i hi, ← hinv.free_eq] at hsub
    obtain ⟨j, hij, hj, k', hk', hcover⟩ := hinv.packed.exists_block i hi hsub
    obtain ⟨o, ho, rfl⟩ := mem_blockNumbers.1 hk'
    refine ⟨j, hij, hj, o, ho, ?_⟩
    rw [hblock i hi, hinv.bitPages_eq hj]
    exact hcover
  · intro addr numPages hdvd hin hdis
    exact (hinv.free hr hdvd hin hdis).freePages_eq
  · intro index random hindex
    exact allocatesExactly_of_allocation (hinv.allocateBlock hr hindex random)
  · intro index numPages alignPages hindex halign hfits
    exact allocatesExactly_of_allocation (hinv.allocateAligned hr hindex halign hfits)
  · intro index numPages t hindex hfits
    have hal := (le_getBlockNumPages_iff hindex).1 (max_le_iff.1 hfits).2
    rw [← countrZero_of_two_pow hindex hal]
    exact allocatesExactly_of_allocation
      (hinv.allocateAligned hr hindex (Nat.ne_of_gt (Nat.two_pow_pos t)) hfits)

end Runs

/-! ## A heap of sixteen pages -/

theorem heapRegion_sixteen_pages : HeapRegion 0x10000 0x10000 :=
  ⟨by decide, by decide, by decide, by decide⟩

/-- A heap over sixteen pages that have all been freed. -/
def sixteenPages : KPageHeap :=
  (initializeHeap (fun _ => zeroGenerator) zeroGenerator 0x10000 0x10000).free 0x10000 16

theorem heapRun_sixteenPages :
    HeapRun (fun _ => zeroGenerator) zeroGenerator 0x10000 0x10000 sixteenPages
      (∅ ∪ rangePages 0x10000 16) := by
  refine .freed 0x10000 16 (.initialized heapRegion_sixteen_pages fun i hi => ?_) (by decide)
    (by decide) (disjoint_empty_right _)
  have hlt : ((initializeHeap (fun _ => zeroGenerator) zeroGenerator 0x10000 0x10000).blocks
      i).endOffset < 64 := by
    interval_cases i <;> decide
  rw [getRequiredDepth_of_lt hlt]
  decide

/-- The sixteen pages are one free block. -/
theorem heapRun_spec_sixteenPages : sixteenPages.getNumFreePages = 16 := by
  rw [(heapRun_spec heapRun_sixteenPages).2.2.1]
  decide

/-- An alignment to three pages fits, and is not respected: the only place for sixteen pages is the
whole block. -/
theorem allocateAligned_three_pages :
    HeapRun (fun _ => zeroGenerator) zeroGenerator 0x10000 0x10000 sixteenPages
        (∅ ∪ rangePages 0x10000 16) ∧
      max 16 3 ≤ getBlockNumPages 1 ∧ (sixteenPages.allocateAligned 1 16 3).1 ≠ 0 ∧
      ¬3 * pageSize ∣ (sixteenPages.allocateAligned 1 16 3).1 := by
  refine ⟨heapRun_sixteenPages, by decide, ?_⟩
  have hinv := heapRun_sixteenPages.invariant
  rcases hinv.allocateAligned heapRegion_sixteen_pages (show 1 < 7 by decide) (by decide)
    (show max 16 3 ≤ getBlockNumPages 1 by decide) with hfails | htakes
  · -- A free range of sixteen pages lies in a block of level 1 or above.
    obtain ⟨j, hj, hj7, k, hk, -⟩ := @Ladder.Packed.exists_block _ _ _ hinv.packed 1 1 (by decide)
      (by rw [hinv.free_eq]; decide)
    rw [hfails.exhausted j hj hj7] at hk
    exact absurd hk (notMem_empty k)
  · refine ⟨htakes.ne_zero, ?_⟩
    obtain ⟨x, hx⟩ := htakes.page_dvd
    have hsub := htakes.free
    rw [hx, rangePages, Nat.mul_div_cancel_left _ pageSize_pos, empty_union, rangePages,
      Finset.Ico_subset_Ico_iff (by omega)] at hsub
    have hplace : x = 16 := by
      have h1 : 0x10000 / pageSize = 16 := by decide
      omega
    rw [hx, hplace]
    decide

end KPageHeap

end Sudachi.Kernel
