import Sudachi.Kernel.PageBitmapRuns

/-!
# Finding a range of bits

`FindFreeRange` looks at the places of a leaf word where a run of `count` bits may start. Whatever
the random generator yields, the place it settles on is one where all bits are set, so that
`ClearRange` takes them (`findFreeRange_spec`). The guard of the search lets a count of 64 pass, by
which it then shifts a word of 64 bits: there it has no result (`findsRange_iff`).
-/

set_option autoImplicit false

namespace Sudachi.Kernel

open Sudachi.Common Sudachi.Foundations

namespace KPageBitmap

/-- The search has found nothing yet, or it has chosen an offset with `P`. -/
def RangeSearch.Chose (P : Nat → Prop) (s : RangeSearch) : Prop :=
  (s.numValidOptions = 0 ∧ s.chosenOffset = -1) ∨
    (s.numValidOptions ≠ 0 ∧ ∃ offset : Nat, s.chosenOffset = (offset : Int) ∧ P offset)

theorem RangeSearch.Chose.foundOption {P : Nat → Prop} {s : RangeSearch} (h : s.Chose P)
    {offset : Nat} (hoff : P offset) : (s.foundOption offset).Chose P := by
  by_cases hfirst : s.numValidOptions + 1 = 1
  · rw [RangeSearch.foundOption, if_pos hfirst]
    exact .inr ⟨by simp, offset, rfl, hoff⟩
  · rw [RangeSearch.foundOption, if_neg hfirst]
    refine .inr ⟨by simp, ?_⟩
    rcases h with ⟨hzero, -⟩ | ⟨-, chosen, heq, hchosen⟩
    · omega
    · by_cases hrnd : (s.rng.generateRandom (s.numValidOptions + 1)).1 = 0
      · exact ⟨offset, if_pos hrnd, hoff⟩
      · exact ⟨chosen, (if_neg hrnd).trans heq, hchosen⟩

/-- A place in the leaf words where `count` set bits start, within one word. -/
def FreeRange (bm : KPageBitmap) (count offset : Nat) : Prop :=
  offset % 64 + count ≤ 64 ∧
    offset / 64 < bm.endStorages (bm.usedDepths - 1) - bm.bitStorages (bm.usedDepths - 1) ∧
    (∃ k, offset = offset / 64 * 64 + k * count) ∧ AllSet bm offset count

section Search

variable {bm : KPageBitmap} {count : Nat}

theorem optionLoop_chose (hpos : 0 < count) (hcount : count < 64) {storageIndex : Nat}
    (hindex : storageIndex <
      bm.endStorages (bm.usedDepths - 1) - bm.bitStorages (bm.usedDepths - 1))
    (options : Nat) : ∀ (option : Nat) (storage : BitVec 64) (s : RangeSearch),
    (option + options) * count ≤ 64 →
      storage = bm.word (bm.usedDepths - 1) storageIndex >>> (option * count) →
      s.Chose (bm.FreeRange count) →
      (optionLoop count storageIndex options option storage s).Chose (bm.FreeRange count) := by
  induction options with
  | zero => intro option storage s _ _ hs; exact hs
  | succ options ih =>
    intro option storage s hfits hstorage hs
    have hplace : option * count + count ≤ 64 := by
      have hstep : (option + 1) * count ≤ (option + (options + 1)) * count :=
        Nat.mul_le_mul_right count (by omega)
      rw [add_mul, one_mul] at hstep
      omega
    refine ih (option + 1) _ _ (by rw [show option + 1 + options = option + (options + 1) by omega]
                                   exact hfits) ?_ ?_
    · rw [hstorage, ← BitVec.shiftRight_add, add_mul, one_mul]
    · by_cases hfree : storage &&& ((1#64 <<< count) - 1#64) = (1#64 <<< count) - 1#64
      · rw [if_pos hfree]
        refine hs.foundOption ?_
        have hdiv : (storageIndex * 64 + option * count) / 64 = storageIndex := by omega
        have hmod : (storageIndex * 64 + option * count) % 64 = option * count := by omega
        refine ⟨by rw [bitSize, hmod]; exact hplace, by rw [bitSize, hdiv]; exact hindex,
          ⟨option, by rw [bitSize, hdiv]⟩, fun i h1 h2 => ?_⟩
        rw [bitSize] at h1 h2
        -- The bits that the mask covers are the ones of the place.
        have hbit := and_eq_right_iff.1 hfree (i - (storageIndex * 64 + option * count)) (by omega)
          (by rw [getLsbD_one_shiftLeft_sub_one hcount]; exact decide_eq_true (by omega))
        rw [hstorage, BitVec.getLsbD_ushiftRight] at hbit
        rw [leaf, bit, show i / 64 = storageIndex by omega,
          show i % 64 = option * count + (i - (storageIndex * 64 + option * count)) by omega]
        exact hbit
      · rw [if_neg hfree]
        exact hs

theorem entryLoop_chose (hpos : 0 < count) (hcount : count < 64) (entries : Nat) :
    ∀ (storageIndex : Nat) (s : RangeSearch), storageIndex + entries ≤
      bm.endStorages (bm.usedDepths - 1) - bm.bitStorages (bm.usedDepths - 1) →
    s.Chose (bm.FreeRange count) →
      (entryLoop bm count entries storageIndex s).Chose (bm.FreeRange count) := by
  induction entries with
  | zero => intro storageIndex s _ hs; exact hs
  | succ entries ih =>
    intro storageIndex s hfits hs
    refine ih (storageIndex + 1) _ (by omega) ?_
    have hone : 1 ≤ 64 / count := (Nat.one_le_div_iff hpos).2 (by omega)
    refine optionLoop_chose hpos hcount (by omega) _ 0 _ s ?_ (by simp) hs
    rw [bitSize, max_eq_left hone, zero_add]
    exact Nat.div_mul_le_self 64 count

/-- `FindFreeRange` has a result for the counts that it can divide and shift by, and settles on a
place where a range of set bits starts, or on none. -/
theorem findFreeRange_spec (hzero : count ≠ 0) (hword : count ≠ 64) :
    ∃ (result : Int) (g : RandomBitGenerator),
      bm.findFreeRange count = some (result, { bm with rng := g }) ∧
        (result = -1 ∨ ∃ offset : Nat, result = (offset : Int) ∧ count < 64 ∧
          bm.FreeRange count offset) := by
  by_cases hguard : bm.bitStorages (bm.usedDepths - 1) < bm.endStorages (bm.usedDepths - 1) ∧
      count ≤ bitSize
  · have hcount : count < 64 := by
      have := hguard.2
      rw [bitSize] at this
      omega
    have hone : 1 ≤ bm.endStorages (bm.usedDepths - 1) - bm.bitStorages (bm.usedDepths - 1) := by
      omega
    have hchose := entryLoop_chose (pos_of_ne_zero hzero) hcount
      (bm.endStorages (bm.usedDepths - 1) - bm.bitStorages (bm.usedDepths - 1)) 0 ⟨0, -1, bm.rng⟩
      (le_of_eq (zero_add _)) (.inl ⟨rfl, rfl⟩)
    have heq : bm.findFreeRange count = some
        ((entryLoop bm count
          (bm.endStorages (bm.usedDepths - 1) - bm.bitStorages (bm.usedDepths - 1)) 0
            ⟨0, -1, bm.rng⟩).chosenOffset,
          { bm with rng := (entryLoop bm count
            (bm.endStorages (bm.usedDepths - 1) - bm.bitStorages (bm.usedDepths - 1)) 0
              ⟨0, -1, bm.rng⟩).rng }) := by
      rw [findFreeRange, if_neg (not_not.2 hguard), if_neg (by rw [bitSize]; omega),
        max_eq_left hone]
    refine ⟨_, _, heq, ?_⟩
    rcases hchose with ⟨-, hnone⟩ | ⟨-, offset, hoff, hfree⟩
    · exact .inl hnone
    · exact .inr ⟨offset, hoff, hcount, hfree⟩
  · exact ⟨-1, bm.rng, if_pos hguard, .inl rfl⟩

end Search

/-- In a bitmap of a run, the range that `FindFreeRange` settles on is one that `ClearRange` takes. -/
theorem BitmapInvariant.rangeFits {storage : Nat → BitVec 64} {size : Nat} {bm : KPageBitmap}
    (h : BitmapInvariant storage size bm) {count offset : Nat} (hpos : 0 < count)
    (hcount : count < 64) (hfree : bm.FreeRange count offset) : RangeFits size offset count := by
  obtain ⟨hword, hentry, -, hset⟩ := hfree
  -- The last bit of the range is set, so it lies in the region.
  have hlast : offset + count - 1 < size := by
    by_contra hge
    have hdepth := getRequiredDepth_pos size
    have htail := h.hierarchy.tail (bm.usedDepths - 1) h.hierarchy.lastDepth_lt (offset + count - 1)
      (by rw [h.usedDepths, levelBits_last]; omega) (by
        have hends := h.laidOut.ends (bm.usedDepths - 1) (by rw [h.usedDepths]; omega)
        rw [levelBits, h.usedDepths]
        rw [h.usedDepths] at hends hentry
        omega)
    have hleaf := hset (offset + count - 1) (by omega) (by omega)
    rw [leaf, htail] at hleaf
    exact absurd hleaf (by decide)
  exact ⟨by omega, by omega, fun _ => hword, fun hge => absurd hcount (by omega)⟩

/-! ## Finding a range and clearing it -/

/-- The search for `count` bits in a region of `size` bits has a result, and a range that it finds
is one of set bits in one leaf word, on a multiple of the count if this is a power of two, and
`ClearRange` succeeds and clears exactly its bits. -/
def FindsRange (bm : KPageBitmap) (size count : Nat) : Prop :=
  ∃ result found, bm.findFreeRange count = some (result, found) ∧
    ∀ offset : Nat, result = (offset : Int) →
      Finset.Ico offset (offset + count) ⊆ found.setBits size ∧
        offset % bitSize + count ≤ bitSize ∧ (∀ k, count = 2 ^ k → count ∣ offset) ∧
        (found.clearRange offset count).1 = true ∧
        (found.clearRange offset count).2.setBits size =
          found.setBits size \ Finset.Ico offset (offset + count)

/-- A place in a word that is a multiple of a power of two is one in the region. -/
theorem FreeRange.dvd {bm : KPageBitmap} {count offset k : Nat} (hfree : bm.FreeRange count offset)
    (hcount : count < 64) (hk : count = 2 ^ k) : count ∣ offset := by
  obtain ⟨-, -, ⟨option, hplace⟩, -⟩ := hfree
  have hword : count ∣ 64 := by
    rw [hk] at hcount ⊢
    have h64 : (64 : Nat) = 2 ^ 6 := rfl
    rw [h64] at hcount ⊢
    exact pow_dvd_pow 2 (le_of_lt ((Nat.pow_lt_pow_iff_right (by decide)).mp hcount))
  rw [hplace]
  exact dvd_add (hword.mul_left _) (dvd_mul_left _ _)

section FindsRange

variable {storage : Nat → BitVec 64} {size count : Nat} {bm : KPageBitmap}

theorem BitmapInvariant.findsRange (h : BitmapInvariant storage size bm) (hpos : 0 < count)
    (hcount : count < 64) : bm.FindsRange size count := by
  obtain ⟨result, g, hfind, hcase⟩ :=
    @findFreeRange_spec bm count (Nat.pos_iff_ne_zero.mp hpos) (ne_of_lt hcount)
  refine ⟨result, _, hfind, ?_⟩
  rintro offset rfl
  rcases hcase with hnone | ⟨offset', hoffset, -, hfree⟩
  · exact absurd hnone (by omega)
  · obtain rfl : offset = offset' := by exact_mod_cast hoffset
    have hfits := h.rangeFits hpos hcount hfree
    obtain ⟨-, hclear⟩ := (h.with_rng g).clearRange hfits
    rcases hclear with ⟨hall, htrue, hbits⟩ | ⟨hall, -⟩
    · refine ⟨?_, hfree.1, fun k hk => hfree.dvd hcount hk, htrue, hbits⟩
      intro i hi
      obtain ⟨hstart, hend⟩ := Finset.mem_Ico.1 hi
      exact mem_setBits.2 ⟨lt_of_lt_of_le hend hfits.end_le, hall i hstart hend⟩
    · exact absurd hfree.2.2.2 hall

/-- The last depth of a region has a word. -/
theorem BitmapInvariant.has_leaf_word (h : BitmapInvariant storage size bm) :
    bm.bitStorages (bm.usedDepths - 1) < bm.endStorages (bm.usedDepths - 1) := by
  have hsize : 0 < size := by
    apply pos_of_ne_zero
    rintro rfl
    have htop := h.hierarchy.top
    have hdepth : getRequiredDepth 0 = 1 := by rw [getRequiredDepth, if_pos (by decide)]
    rw [levelBits, hdepth] at htop
    exact absurd htop (by decide)
  have hdepth := getRequiredDepth_pos size
  have hends := h.laidOut.ends (bm.usedDepths - 1) (by rw [h.usedDepths]; omega)
  have hwords := wordsFor_pos hsize
  rw [h.usedDepths] at hends ⊢
  rw [Nat.sub_self] at hends
  change _ = _ + wordsFor size at hends
  omega

/-- Of the counts that the guard of `FindFreeRange` lets pass, the search works for those below the
number of bits in a word. -/
theorem findsRange_iff (h : BitmapInvariant storage size bm) (hpos : 0 < count)
    (hle : count ≤ bitSize) : bm.FindsRange size count ↔ count < bitSize := by
  constructor
  · rintro ⟨result, found, hfind, -⟩
    apply Nat.lt_of_le_of_ne hle
    intro hword
    rw [findFreeRange, if_neg (not_not.2 ⟨h.has_leaf_word, hle⟩), if_pos (Or.inr hword)] at hfind
    cases hfind
  · exact h.findsRange hpos

end FindsRange

/-- A bitmap for a hundred bits, all of them clear. -/
def hundredBits : KPageBitmap := initializeBitmap (fun _ => 0) zeroGenerator 100

theorem hundredBits_invariant : BitmapInvariant (fun _ => 0) 100 hundredBits :=
  (initializeBitmap_invariant (by decide) fun _ _ => rfl).1

/-- The search for eight bits works there. -/
theorem findsRange_iff_hundredBits :
    0 < 8 ∧ 8 ≤ bitSize ∧ (hundredBits.FindsRange 100 8 ↔ 8 < bitSize) :=
  ⟨by decide, by decide, findsRange_iff hundredBits_invariant (by decide) (by decide)⟩

/-- The search for a whole word does not. -/
theorem not_findsRange_wholeWord :
    BitmapInvariant (fun _ => 0) 100 hundredBits ∧ ¬hundredBits.FindsRange 100 64 := by
  refine ⟨hundredBits_invariant, ?_⟩
  rintro ⟨result, found, hfind, -⟩
  rw [findFreeRange, if_neg (not_not.2 ⟨hundredBits_invariant.has_leaf_word, by decide⟩),
    if_pos (by decide)] at hfind
  cases hfind

end KPageBitmap

end Sudachi.Kernel
