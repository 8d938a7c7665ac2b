import Sudachi.Foundations.Buddy
import Sudachi.Kernel.PageHeap

/-!
# The blocks of the page heap

The levels of the heap as a ladder of block sizes, in pages. A level is valid if its bitmap is in
order and covers the region of the heap up to whole blocks of the next level; then `PushBlock` adds
a block to the level or takes its group out (`Block.pushBlock_spec`), `PopBlock` takes a block out
(`Block.popBlock_spec`), and `FreeBlock` adds exactly the pages of its block to the free pages of the
heap, merged as far as possible (`HeapInvariant.freeBlock`).
-/

set_option autoImplicit false

namespace Sudachi.Kernel

open Sudachi.Common Sudachi.Foundations KPageBitmap Finset Function

namespace KPageHeap

/-- The shift of each level, continued beyond the last one. -/
def levelShift (i : Nat) : Nat := memoryBlockPageShifts.getD i 0x1E

variable {i address size : Nat}

theorem levelShift_of_ge (h : 7 ≤ i) : levelShift i = 0x1E := by
  rw [levelShift, List.getD_eq_getElem?_getD, List.getElem?_eq_none h, Option.getD_none]

theorem levelShift_eq (h : i < 7) : memoryBlockPageShifts.getD i 0 = levelShift i := by
  interval_cases i <;> rfl

theorem levelShift_le_succ (i : Nat) : levelShift i ≤ levelShift (i + 1) := by
  rcases lt_or_ge i 7 with h | h
  · interval_cases i <;> decide
  · rw [levelShift_of_ge h, levelShift_of_ge (by omega)]

theorem pageShift_le_levelShift (i : Nat) : 12 ≤ levelShift i := by
  induction i with
  | zero => decide
  | succ i ih => exact ih.trans (levelShift_le_succ i)

theorem levelShift_succ_sub_le : levelShift (i + 1) - levelShift i ≤ 5 := by
  rcases lt_or_ge i 7 with h | h
  · interval_cases i <;> decide
  · rw [levelShift_of_ge h, levelShift_of_ge (by omega)]
    decide

/-- The sizes of the blocks, in pages. -/
def ladder : Ladder where
  size := fun i => 2 ^ (levelShift i - 12)
  size_pos := fun _ => Nat.two_pow_pos _
  size_dvd := fun i => Nat.pow_dvd_pow 2 (Nat.sub_le_sub_right (levelShift_le_succ i) 12)

theorem size_mul_pageSize (i : Nat) : ladder.size i * pageSize = 2 ^ levelShift i := by
  have hpage : pageSize = 2 ^ 12 := rfl
  rw [hpage, ladder, ← pow_add, Nat.sub_add_cancel (pageShift_le_levelShift i)]

theorem ratio_eq (i : Nat) : ladder.ratio i = 2 ^ (levelShift (i + 1) - levelShift i) := by
  have h1 := pageShift_le_levelShift i
  have h2 := levelShift_le_succ i
  rw [Ladder.ratio, ladder, Nat.pow_div (by omega) (by decide)]
  congr 1
  omega

theorem ratio_mul (i : Nat) : ladder.ratio i * 2 ^ levelShift i = 2 ^ levelShift (i + 1) := by
  rw [ratio_eq, ← pow_add, Nat.sub_add_cancel (levelShift_le_succ i)]

/-- The pages of a range. -/
def rangePages (addr numPages : Nat) : Finset Nat :=
  Finset.Ico (addr / pageSize) (addr / pageSize + numPages)

/-- The region of a heap, as `Initialize` asserts it and its caller promises it. -/
structure HeapRegion (address size : Nat) : Prop where
  address_dvd : pageSize ∣ address
  size_dvd : pageSize ∣ size
  address_pos : 0 < address
  size_pos : 0 < size

theorem HeapRegion.units_subset_iff (h : HeapRegion address size) (i k : Nat) :
    ladder.units i k ⊆ rangePages address (size / pageSize) ↔
      address ≤ k * 2 ^ levelShift i ∧ (k + 1) * 2 ^ levelShift i ≤ address + size := by
  obtain ⟨x, rfl⟩ := h.address_dvd
  obtain ⟨y, rfl⟩ := h.size_dvd
  have hpos := ladder.size_pos i
  have hlt : k * ladder.size i < (k + 1) * ladder.size i := Nat.mul_lt_mul_of_pos_right (by omega) hpos
  rw [Ladder.units, rangePages, Nat.mul_div_cancel_left _ pageSize_pos,
    Nat.mul_div_cancel_left _ pageSize_pos, Finset.Ico_subset_Ico_iff hlt, ← size_mul_pageSize,
    ← mul_assoc, ← mul_assoc, ← mul_add, mul_comm pageSize, mul_comm pageSize,
    Nat.mul_le_mul_right_iff pageSize_pos, Nat.mul_le_mul_right_iff pageSize_pos]

namespace Block

/-- The number of the first block of a level. -/
def firstBlock (b : Block) : Nat := b.heapAddress / b.getSize

/-- The numbers of the free blocks of a level. -/
def numbers (b : Block) : Finset Nat :=
  (b.bitmap.setBits b.endOffset).image (b.firstBlock + ·)

/-- The level `i` of a heap over the region. -/
structure Valid (address size i : Nat) (b : Block) : Prop where
  blockShift : b.blockShift = levelShift i
  nextBlockShift : b.nextBlockShift = if i + 1 < 7 then levelShift (i + 1) else 0
  start : b.heapAddress = b.firstBlock * 2 ^ levelShift i
  first_dvd : ladder.ratio i ∣ b.firstBlock
  end_dvd : ladder.ratio i ∣ b.endOffset
  start_le : b.firstBlock * 2 ^ levelShift i ≤ address
  le_end : address + size ≤ (b.firstBlock + b.endOffset) * 2 ^ levelShift i
  bitmap : BitmapInvariant (fun _ => 0) b.endOffset b.bitmap

section Level

variable {address size i k : Nat} {b : Block}

theorem mem_numbers (hlo : b.firstBlock ≤ k) :
    k ∈ b.numbers ↔ k - b.firstBlock ∈ b.bitmap.setBits b.endOffset := by
  rw [numbers, mem_image]
  constructor
  · rintro ⟨o, ho, rfl⟩
    rw [Nat.add_sub_cancel_left]
    exact ho
  · intro h
    exact ⟨_, h, Nat.add_sub_cancel' hlo⟩

/-- What an operation on the bitmap of a level does to the blocks of the level. -/
theorem numbers_with_bitmap (bitmap : KPageBitmap) : numbers { b with bitmap := bitmap } =
      (bitmap.setBits b.endOffset).image (b.firstBlock + ·) := rfl

section

variable (h : b.Valid address size i)
include h

theorem Valid.with_bitmap {bitmap : KPageBitmap}
    (hbitmap : BitmapInvariant (fun _ => 0) b.endOffset bitmap) :
    Valid address size i { b with bitmap := bitmap } :=
  ⟨h.1, h.2, h.3, h.4, h.5, h.6, h.7, hbitmap⟩

/-- A block inside the region has a bit in the bitmap of its level. -/
theorem Valid.offset_lt (hlo : address ≤ k * 2 ^ levelShift i)
    (hhi : (k + 1) * 2 ^ levelShift i ≤ address + size) :
    b.firstBlock ≤ k ∧ k < b.firstBlock + b.endOffset := by
  have hpos : 0 < 2 ^ levelShift i := Nat.two_pow_pos _
  constructor
  · exact Nat.le_of_mul_le_mul_right (h.start_le.trans hlo) hpos
  · exact Nat.le_of_mul_le_mul_right (hhi.trans h.le_end) hpos

theorem Valid.offset_eq (k : Nat) :
    (k * 2 ^ levelShift i - b.heapAddress) / 2 ^ b.blockShift = k - b.firstBlock := by
  rw [h.start, h.blockShift, ← Nat.sub_mul, Nat.mul_div_cancel _ (Nat.two_pow_pos _)]

/-- The group of a block, from the offset of the block. -/
theorem Valid.group_eq (hlo : b.firstBlock ≤ k) : ladder.group i (k / ladder.ratio i) =
      (Finset.Ico (alignDown (k - b.firstBlock) (ladder.ratio i))
        (alignDown (k - b.firstBlock) (ladder.ratio i) + ladder.ratio i)).image
          (b.firstBlock + ·) := by
  have hpos : 0 < ladder.ratio i := Ladder.ratio_pos i
  obtain ⟨q, hq⟩ := h.first_dvd
  have hstart : k / ladder.ratio i * ladder.ratio i =
      b.firstBlock + alignDown (k - b.firstBlock) (ladder.ratio i) := by
    obtain ⟨o, rfl⟩ := Nat.exists_eq_add_of_le hlo
    rw [Nat.add_sub_cancel_left, alignDown_eq, hq, Nat.mul_add_div hpos, add_mul,
      mul_comm q]
  rw [Ladder.group, image_add_left_Ico, Nat.succ_mul, hstart, add_assoc]

/-- The range of bits of a group is one that `ClearRange` takes. -/
theorem Valid.rangeFits {o : Nat} (ho : o < b.endOffset) :
    RangeFits b.endOffset (alignDown o (ladder.ratio i)) (ladder.ratio i) := by
  have hpos : 0 < ladder.ratio i := Ladder.ratio_pos i
  obtain ⟨n, hn⟩ := h.end_dvd
  have hend : alignDown o (ladder.ratio i) + ladder.ratio i ≤ b.endOffset := by
    have hdiv : o / ladder.ratio i < n := Nat.div_lt_of_lt_mul (hn ▸ ho)
    rw [alignDown_eq, hn, ← Nat.succ_mul, mul_comm _ n]
    exact Nat.mul_le_mul_right _ hdiv
  have hdvd : ladder.ratio i ∣ 64 := by
    rw [ratio_eq]
    exact (pow_dvd_pow 2 levelShift_succ_sub_le).trans (by decide)
  have hlt : ladder.ratio i < 64 := by
    rw [ratio_eq]
    exact lt_of_le_of_lt (Nat.pow_le_pow_right (by decide) levelShift_succ_sub_le) (by decide)
  refine ⟨by omega, hend, fun _ => ?_, fun hge => absurd hlt (by omega)⟩
  -- A word is a whole number of groups.
  obtain ⟨m, hm⟩ := hdvd
  have hmod : alignDown o (ladder.ratio i) % 64 = ladder.ratio i * (o / ladder.ratio i % m) := by
    rw [alignDown_eq, mul_comm, hm, Nat.mul_mod_mul_left]
  have hmpos : 0 < m := pos_of_ne_zero fun hzero => by rw [hzero] at hm; omega
  rw [hmod, ← Nat.mul_succ, hm]
  exact Nat.mul_le_mul_left _ (Nat.mod_lt _ hmpos)

/-- `PushBlock` adds a block, or takes its group out and yields the block of the next level. -/
theorem pushBlock_spec (hlo : b.firstBlock ≤ k)
    (hhi : k < b.firstBlock + b.endOffset) (hk : k ∉ b.numbers) :
    (i + 1 < 7 ∧ ladder.group i (k / ladder.ratio i) ⊆ insert k b.numbers ∧
        ∃ b', b.pushBlock (k * 2 ^ levelShift i) =
            (k / ladder.ratio i * 2 ^ levelShift (i + 1), b') ∧
          b'.Valid address size i ∧
          b'.numbers = insert k b.numbers \ ladder.group i (k / ladder.ratio i)) ∨
      ((i + 1 < 7 → ¬ladder.group i (k / ladder.ratio i) ⊆ insert k b.numbers) ∧
        ∃ b', b.pushBlock (k * 2 ^ levelShift i) = (0, b') ∧ b'.Valid address size i ∧
          b'.numbers = insert k b.numbers) := by
  have hoff : k - b.firstBlock < b.endOffset := by omega
  have hclear : b.bitmap.leaf (k - b.firstBlock) = false := by
    rw [mem_numbers hlo, mem_setBits] at hk
    exact Bool.eq_false_iff.2 fun hset => hk ⟨hoff, hset⟩
  obtain ⟨hset, hbits⟩ := h.bitmap.setBit hoff hclear
  have hinsert : ((b.bitmap.setBit (k - b.firstBlock)).setBits b.endOffset).image
      (b.firstBlock + ·) = insert k b.numbers := by
    rw [hbits, image_insert, Nat.add_sub_cancel' hlo]
    rfl
  by_cases hlast : i + 1 < 7
  swap
  · refine .inr ⟨fun hcon => absurd hcon hlast, _, ?_, h.with_bitmap hset, hinsert⟩
    have hnext : b.nextBlockShift = 0 := by rw [h.nextBlockShift, if_neg hlast]
    simp only [pushBlock, h.offset_eq, hnext]
    rfl
  have hnext : b.nextBlockShift ≠ 0 := by
    rw [h.nextBlockShift, if_pos hlast]
    have := pageShift_le_levelShift (i + 1)
    omega
  have hdiff : 2 ^ (b.nextBlockShift - b.blockShift) = ladder.ratio i := by
    rw [h.nextBlockShift, if_pos hlast, h.blockShift, ratio_eq]
  have hfits := h.rangeFits hoff
  obtain ⟨hinv, hcases⟩ := hset.clearRange hfits
  -- All bits of the range are set exactly when the level has all blocks of the group.
  have hall : AllSet (b.bitmap.setBit (k - b.firstBlock))
      (alignDown (k - b.firstBlock) (ladder.ratio i)) (ladder.ratio i) ↔
        ladder.group i (k / ladder.ratio i) ⊆ insert k b.numbers := by
    rw [h.group_eq hlo, ← hinsert, image_subset_image_iff (add_right_injective b.firstBlock)]
    constructor
    · intro hset' o ho
      obtain ⟨h1, h2⟩ := mem_Ico.1 ho
      exact mem_setBits.2 ⟨lt_of_lt_of_le h2 hfits.end_le, hset' o h1 h2⟩
    · intro hsub o h1 h2
      exact (mem_setBits.1 (hsub (mem_Ico.2 ⟨h1, h2⟩))).2
  rcases hcases with ⟨hset', htrue, hcleared⟩ | ⟨hset', heq⟩
  · refine .inl ⟨hlast, hall.1 hset', _, ?_, h.with_bitmap hinv, ?_⟩
    · have haddr : b.heapAddress + alignDown (k - b.firstBlock) (ladder.ratio i) *
          2 ^ b.blockShift = k / ladder.ratio i * 2 ^ levelShift (i + 1) := by
        obtain ⟨o, rfl⟩ := Nat.exists_eq_add_of_le hlo
        obtain ⟨q, hq⟩ := h.first_dvd
        rw [h.start, h.blockShift, ← ratio_mul, Nat.add_sub_cancel_left, alignDown_eq, ← add_mul,
          ← mul_assoc, hq, Nat.mul_add_div (Ladder.ratio_pos i), add_mul q,
          mul_comm q]
      simp only [pushBlock, h.offset_eq, hdiff, if_pos hnext, htrue, if_true, haddr]
    · rw [numbers_with_bitmap, hcleared, image_sdiff _ _ (add_right_injective _), hinsert,
        h.group_eq hlo]
  · refine .inr ⟨fun _ hcon => hset' (hall.2 hcon), _, ?_, h.with_bitmap hset, hinsert⟩
    simp only [pushBlock, h.offset_eq, hdiff, if_pos hnext, heq]
    rfl

/-- `PopBlock` takes a block out if there is one. -/
theorem popBlock_spec (random : Bool) :
    (b.numbers = ∅ ∧ ∃ b', b.popBlock random = (0, b') ∧ b'.Valid address size i ∧ b'.numbers = ∅) ∨
      ∃ k ∈ b.numbers, ∃ b', b.popBlock random = (k * 2 ^ levelShift i, b') ∧
        b'.Valid address size i ∧ b'.numbers = b.numbers.erase k := by
  obtain ⟨⟨g, hg⟩, hcases⟩ := h.bitmap.findFreeBlock random
  rcases hcases with ⟨hempty, heq⟩ | ⟨o, ho, heq, -⟩
  · have hfind : b.bitmap.findFreeBlock random = (-1, { b.bitmap with rng := g }) := Prod.ext heq hg
    have hnone : b.numbers = ∅ := by rw [numbers, hempty, image_empty]
    refine .inl ⟨hnone, _, ?_, h.with_bitmap (h.bitmap.with_rng g), hnone⟩
    simp only [popBlock, hfind]
    rfl
  · have hfind : b.bitmap.findFreeBlock random = ((o : Int), { b.bitmap with rng := g }) :=
      Prod.ext heq hg
    obtain ⟨hlt, hleaf⟩ := mem_setBits.1 ho
    obtain ⟨hinv, hbits⟩ := (h.bitmap.with_rng g).clearBit hlt hleaf
    refine .inr ⟨b.firstBlock + o, mem_image_of_mem _ ho, _, ?_, h.with_bitmap hinv, ?_⟩
    · have hneg : ¬((o : Int) < 0) := by omega
      simp only [popBlock, hfind, hneg, if_false, Int.toNat_natCast]
      rw [h.start, h.blockShift, add_mul]
    · rw [numbers_with_bitmap, hbits, image_erase (add_right_injective _)]
      rfl

end

end Level

end Block

/-! ## The invariant of the heap -/

/-- The numbers of the free blocks of each level. -/
def blockNumbers (h : KPageHeap) (i : Nat) : Finset Nat := (h.blocks i).numbers

/-- The heap over the region has exactly the free pages `F`, in blocks that are as large as they can
be. -/
structure HeapInvariant (address size : Nat) (h : KPageHeap) (F : Finset Nat) : Prop where
  heapAddress : h.heapAddress = address
  heapSize : h.heapSize = size
  numBlocks : h.numBlocks = 7
  levels : ∀ i < 7, (h.blocks i).Valid address size i
  packed : ladder.Packed 7 h.blockNumbers
  free_eq : ladder.free 7 h.blockNumbers = F
  inside : F ⊆ rangePages address (size / pageSize)

section Heap

variable {address size i k : Nat} {h : KPageHeap} {F : Finset Nat}

theorem blockNumbers_setBlock (h : KPageHeap) (i : Nat) (b : Block) :
    (h.setBlock i b).blockNumbers = update h.blockNumbers i b.numbers := by
  funext j
  by_cases hj : j = i
  · subst hj
    simp only [blockNumbers, setBlock, update_self]
  · simp only [blockNumbers, setBlock, update_of_ne hj]

section

variable (hinv : HeapInvariant address size h F)
include hinv

/-- A step that changes one level. -/
theorem HeapInvariant.setBlock {b : Block} {F' : Finset Nat} (hb : b.Valid address size i)
    (hpacked : ladder.Packed 7 (update h.blockNumbers i b.numbers))
    (hfree : ladder.free 7 (update h.blockNumbers i b.numbers) = F')
    (hin : F' ⊆ rangePages address (size / pageSize)) :
    HeapInvariant address size (h.setBlock i b) F' := by
  refine ⟨hinv.heapAddress, hinv.heapSize, hinv.numBlocks, fun j hj => ?_, ?_, ?_, hin⟩
  · by_cases hji : j = i
    · subst hji
      simp only [KPageHeap.setBlock, update_self]
      exact hb
    · simp only [KPageHeap.setBlock, update_of_ne hji]
      exact hinv.levels j hj
  · rw [blockNumbers_setBlock]
    exact hpacked
  · rw [blockNumbers_setBlock]
    exact hfree

theorem HeapInvariant.with_rng (g : RandomBitGenerator) :
    HeapInvariant address size { h with rng := g } F :=
  ⟨hinv.1, hinv.2, hinv.3, hinv.4, hinv.5, hinv.6, hinv.7⟩

theorem HeapInvariant.getSize (hi : i < 7) : (h.blocks i).getSize = 2 ^ levelShift i := by
  rw [Block.getSize, (hinv.levels i hi).blockShift]

/-- The pages of a block of the heap lie in its region. -/
theorem HeapInvariant.units_subset (hi : i < 7)
    (hk : k ∈ h.blockNumbers i) : ladder.units i k ⊆ rangePages address (size / pageSize) :=
  (Ladder.units_subset_free hi hk).trans (hinv.free_eq ▸ hinv.inside)

end

/-- The loop of `FreeBlock`: one level after the other, until a block completes no group. -/
theorem HeapInvariant.freeBlockLoop (hr : HeapRegion address size) (fuel : Nat) :
    ∀ {i k : Nat} {h : KPageHeap} {F : Finset Nat}, i < 7 → 7 ≤ fuel + i →
      HeapInvariant address size h F → ladder.units i k ⊆ rangePages address (size / pageSize) →
      Disjoint (ladder.units i k) F →
        HeapInvariant address size (freeBlockLoop fuel (k * 2 ^ levelShift i) i h)
          (F ∪ ladder.units i k) := by
  induction fuel with
  | zero => intro i k h F hi hfuel; omega
  | succ fuel ih =>
    intro i k h F hi hfuel hinv hin hdis
    obtain ⟨hstart, hstop⟩ := (hr.units_subset_iff i k).1 hin
    have hlevel := hinv.levels i hi
    obtain ⟨hlo, hhi⟩ := hlevel.offset_lt hstart hstop
    have hdis' : Disjoint (ladder.units i k) (ladder.free 7 h.blockNumbers) := hinv.free_eq ▸ hdis
    have hk : k ∉ (h.blocks i).numbers := by
      intro hmem
      obtain ⟨u, hu⟩ := ladder.units_nonempty i k
      exact disjoint_left.1 hdis' hu (Ladder.units_subset_free hi hmem hu)
    have hunion : F ∪ ladder.units i k ⊆ rangePages address (size / pageSize) :=
      union_subset hinv.inside hin
    rcases Block.pushBlock_spec hlevel hlo hhi hk with
      ⟨hlast, hgroup, b, heq, hb, hnum⟩ | ⟨hgroup, b, heq, hb, hnum⟩
    · obtain ⟨hpacked, hdisj, hfree⟩ := hinv.packed.mergeGroup hi hdis' hgroup
      have hnext : ladder.units (i + 1) (k / ladder.ratio i) ⊆
          rangePages address (size / pageSize) := by
        refine Finset.Subset.trans ?_ hunion
        rw [← hinv.free_eq, ← hfree]
        exact subset_union_right
      have hstep : HeapInvariant address size (h.setBlock i b)
          (ladder.free 7 (update h.blockNumbers i b.numbers)) := by
        refine hinv.setBlock hb (hnum ▸ hpacked) rfl ?_
        refine Finset.Subset.trans ?_ hunion
        rw [← hinv.free_eq, ← hfree, hnum]
        exact subset_union_left
      -- The region does not start at address 0, so the merged block is not taken for a failure.
      have hne : k / ladder.ratio i * 2 ^ levelShift (i + 1) ≠ 0 := by
        have := ((hr.units_subset_iff _ _).1 hnext).1
        have := hr.address_pos
        omega
      have hloop : KPageHeap.freeBlockLoop (fuel + 1) (k * 2 ^ levelShift i) i h =
          KPageHeap.freeBlockLoop fuel (k / ladder.ratio i * 2 ^ levelShift (i + 1)) (i + 1)
            (h.setBlock i b) := by
        simp only [KPageHeap.freeBlockLoop, heq, if_neg hne]
      rw [hloop, ← hinv.free_eq, ← hfree]
      rw [hnum] at hstep
      exact ih hlast (by omega) hstep hnext hdisj
    · obtain ⟨hpacked, hfree⟩ := hinv.packed.insertBlock hi hdis' hgroup
      have hloop : KPageHeap.freeBlockLoop (fuel + 1) (k * 2 ^ levelShift i) i h =
          h.setBlock i b := by
        simp only [KPageHeap.freeBlockLoop, heq, if_true]
      rw [hloop]
      refine hinv.setBlock hb (hnum ▸ hpacked) ?_ hunion
      rw [hnum, ← hinv.free_eq]
      exact hfree

/-- `FreeBlock` adds the pages of its block to the free ones. -/
theorem HeapInvariant.freeBlock (hinv : HeapInvariant address size h F)
    (hr : HeapRegion address size) (hi : i < 7)
    (hin : ladder.units i k ⊆ rangePages address (size / pageSize))
    (hdis : Disjoint (ladder.units i k) F) :
    HeapInvariant address size (h.freeBlock (k * 2 ^ levelShift i) i) (F ∪ ladder.units i k) := by
  rw [KPageHeap.freeBlock, hinv.numBlocks]
  exact HeapInvariant.freeBlockLoop hr (7 - i) hi (by omega) hinv hin hdis

/-- Taking a block out of the level `i`, or finding that it has none. -/
theorem HeapInvariant.popBlock (hinv : HeapInvariant address size h F)
    (hr : HeapRegion address size) (hi : i < 7) (random : Bool) :
    (h.blockNumbers i = ∅ ∧ ∃ b, (h.blocks i).popBlock random = (0, b) ∧
        HeapInvariant address size (h.setBlock i b) F ∧
        (h.setBlock i b).blockNumbers = h.blockNumbers) ∨
      ∃ k b, (h.blocks i).popBlock random = (k * 2 ^ levelShift i, b) ∧
        k * 2 ^ levelShift i ≠ 0 ∧ b.getSize = 2 ^ levelShift i ∧
        ladder.units i k ⊆ F ∧
        HeapInvariant address size (h.setBlock i b) (F \ ladder.units i k) := by
  rcases Block.popBlock_spec (hinv.levels i hi) random with
    ⟨hempty, b, heq, hb, hnum⟩ | ⟨k, hk, b, heq, hb, hnum⟩
  · have hsame : update h.blockNumbers i b.numbers = h.blockNumbers := by
      rw [hnum, ← hempty]
      exact update_eq_self i h.blockNumbers
    refine .inl ⟨hempty, b, heq, hinv.setBlock hb ?_ ?_ hinv.inside, ?_⟩
    · rw [hsame]
      exact hinv.packed
    · rw [hsame]
      exact hinv.free_eq
    · rw [blockNumbers_setBlock, hsame]
  · obtain ⟨hpacked, hsub, hfree⟩ := hinv.packed.eraseBlock hi hk
    have hne : k * 2 ^ levelShift i ≠ 0 := by
      have := ((hr.units_subset_iff _ _).1 (hinv.units_subset hi hk)).1
      have := hr.address_pos
      omega
    refine .inr ⟨k, b, heq, hne, by rw [Block.getSize, hb.blockShift], hinv.free_eq ▸ hsub, ?_⟩
    refine hinv.setBlock hb (hnum ▸ hpacked) ?_ (sdiff_subset.trans hinv.inside)
    rw [hnum, ← hinv.free_eq]
    exact hfree

theorem HeapInvariant.getNumFreePages_eq (hinv : HeapInvariant address size h F) :
    h.getNumFreePages = F.card := by
  rw [getNumFreePages, hinv.numBlocks, ← hinv.free_eq, hinv.packed.card_free]
  refine sum_congr rfl fun i hi => ?_
  have hlevel := hinv.levels i (mem_range.1 hi)
  have hcard : (h.blockNumbers i).card = (h.blocks i).bitmap.numBits := by
    rw [blockNumbers, Block.numbers, card_image_of_injective _ (add_right_injective _),
      hlevel.bitmap.numBits]
  have hpages : (h.blocks i).getNumPages = ladder.size i := by
    rw [Block.getNumPages, Block.getSize, hlevel.blockShift, ← size_mul_pageSize,
      Nat.mul_div_cancel _ pageSize_pos]
  rw [Block.getNumFreePages, Block.getNumFreeBlocks, hcard, hpages]

end Heap

/-! ## Initialization -/

theorem Block.initializeBlock_valid (hr : HeapRegion address size)
    (hi : i < 7) (rng : RandomBitGenerator) : (Block.initializeBlock rng address size (levelShift i)
        (if i + 1 < 7 then levelShift (i + 1) else 0)).Valid address size i ∧
      (Block.initializeBlock rng address size (levelShift i)
        (if i + 1 < 7 then levelShift (i + 1) else 0)).numbers = ∅ := by
  have hpos : 0 < 2 ^ levelShift i := Nat.two_pow_pos _
  have hpos' : 0 < 2 ^ levelShift (i + 1) := Nat.two_pow_pos _
  have halign : (if (if i + 1 < 7 then levelShift (i + 1) else 0) ≠ 0
      then 2 ^ (if i + 1 < 7 then levelShift (i + 1) else 0) else 2 ^ levelShift i) =
        2 ^ levelShift (i + 1) := by
    by_cases hlast : i + 1 < 7
    · have := pageShift_le_levelShift (i + 1)
      rw [if_pos hlast, if_pos (by omega)]
    · obtain rfl : i = 6 := by omega
      rfl
  -- The level starts and ends with whole blocks of the next level.
  obtain ⟨q, hq⟩ := dvd_alignDown address (2 ^ levelShift (i + 1))
  obtain ⟨q', hq'⟩ := dvd_alignUp (address + size) (2 ^ levelShift (i + 1))
  have hstart := alignDown_le address (2 ^ levelShift (i + 1))
  have hstop := le_alignUp (address + size) (2 ^ levelShift (i + 1)) hpos'
  have hqle : q ≤ q' := by
    refine Nat.le_of_mul_le_mul_left ?_ hpos'
    rw [← hq, ← hq']
    omega
  have hend : (alignUp (address + size) (2 ^ levelShift (i + 1)) -
      alignDown address (2 ^ levelShift (i + 1))) / 2 ^ levelShift i =
        ladder.ratio i * (q' - q) := by
    rw [hq, hq', ← Nat.mul_sub, ← ratio_mul, mul_right_comm, Nat.mul_div_cancel _ hpos]
  have hfirst : alignDown address (2 ^ levelShift (i + 1)) / 2 ^ levelShift i =
      ladder.ratio i * q := by
    rw [hq, ← ratio_mul, mul_right_comm, Nat.mul_div_cancel _ hpos]
  have hlt : 0 < ladder.ratio i * (q' - q) := by
    refine mul_pos (Ladder.ratio_pos i) (Nat.sub_pos_of_lt (lt_of_le_of_ne hqle ?_))
    rintro rfl
    have := hr.size_pos
    omega
  obtain ⟨hinv, hempty⟩ := @initializeBitmap_invariant (fun _ => 0) rng (ladder.ratio i * (q' - q))
    hlt fun _ _ => rfl
  have hblock : Block.initializeBlock rng address size (levelShift i)
      (if i + 1 < 7 then levelShift (i + 1) else 0) =
      { bitmap := initializeBitmap (fun _ => 0) rng (ladder.ratio i * (q' - q))
        heapAddress := 2 ^ levelShift (i + 1) * q
        endOffset := ladder.ratio i * (q' - q)
        blockShift := levelShift i
        nextBlockShift := if i + 1 < 7 then levelShift (i + 1) else 0 } := by
    simp only [Block.initializeBlock]
    rw [halign, hend, hq]
  have hnumber : 2 ^ levelShift (i + 1) * q / 2 ^ levelShift i = ladder.ratio i * q := hq ▸ hfirst
  rw [hblock]
  refine ⟨⟨rfl, rfl, ?_, ?_, dvd_mul_right _ _, ?_, ?_, hinv⟩, ?_⟩
  · simp only [Block.firstBlock, Block.getSize, hnumber]
    rw [mul_right_comm, ratio_mul]
  · simp only [Block.firstBlock, Block.getSize, hnumber]
    exact dvd_mul_right _ _
  · simp only [Block.firstBlock, Block.getSize, hnumber]
    rw [mul_right_comm, ratio_mul, ← hq]
    exact hstart
  · simp only [Block.firstBlock, Block.getSize, hnumber]
    rw [← mul_add, Nat.add_sub_cancel' hqle, mul_right_comm, ratio_mul, ← hq']
    exact hstop
  · simp only [Block.numbers, hempty, image_empty]

/-- `Initialize` leaves a heap without free pages. -/
theorem initializeHeap_invariant (hr : HeapRegion address size)
    (rngs : Nat → RandomBitGenerator) (rng : RandomBitGenerator) :
    HeapInvariant address size (initializeHeap rngs rng address size) ∅ := by
  have hblock : ∀ i < 7, (initializeHeap rngs rng address size).blocks i =
      Block.initializeBlock (rngs i) address size (levelShift i)
        (if i + 1 < 7 then levelShift (i + 1) else 0) := by
    intro i hi
    interval_cases i <;> rfl
  have hnone : ∀ i < 7, (initializeHeap rngs rng address size).blockNumbers i = ∅ := by
    intro i hi
    rw [blockNumbers, hblock i hi]
    exact (Block.initializeBlock_valid hr hi _).2
  refine ⟨rfl, rfl, rfl, fun i hi => ?_, ⟨?_, ?_⟩, ?_, empty_subset _⟩
  · rw [hblock i hi]
    exact (Block.initializeBlock_valid hr hi _).1
  · intro u i j hi _ hui huj
    rw [hnone i hi] at hui
    exact absurd hui (notMem_empty _)
  · intro i hi g hsub
    rw [hnone i (by omega)] at hsub
    exact absurd (hsub (Ladder.mem_group.2 (Nat.mul_div_cancel g (Ladder.ratio_pos i))))
      (notMem_empty _)
  · refine eq_empty_of_forall_notMem fun u hu => ?_
    obtain ⟨i, hi, hmem⟩ := Ladder.mem_free.1 hu
    rw [hnone i hi] at hmem
    exact absurd hmem (notMem_empty _)

end KPageHeap

end Sudachi.Kernel
