import Sudachi.Kernel.PageBitmapOperations

/-!
# Runs of the page bitmap

`Initialize` on cleared storage lays the depths out one behind the other and establishes the
hierarchy invariant (`initializeBitmap_hierarchy`). Every run keeps the invariant, the layout and the
count of the set bits (`bitmapRun_spec`).
-/

set_option autoImplicit false

namespace Sudachi.Kernel

open Sudachi.Common Sudachi.Foundations Function Finset

namespace KPageBitmap

/-! ## Initialization -/

/-- The number of bits at each depth of a bitmap for `size` bits. -/
def levelBits (size d : Nat) : Nat := wordsFor^[getRequiredDepth size - 1 - d] size

variable {n n' : Nat}

theorem lt_pow_getRequiredDepth (size : Nat) : size < 64 ^ getRequiredDepth size := by
  induction size using Nat.strong_induction_on with
  | _ size ih =>
    rw [getRequiredDepth]
    by_cases h : size / bitSize = 0
    · rw [if_pos h]
      simp only [bitSize] at h
      omega
    · rw [if_neg h, pow_succ]
      simp only [bitSize] at h ⊢
      have := ih (size / 64) (by omega)
      omega

theorem getRequiredDepth_pos (size : Nat) : 0 < getRequiredDepth size := by
  rw [getRequiredDepth]
  split_ifs <;> omega

theorem getRequiredDepth_of_lt (h : n < 64) : getRequiredDepth n = 1 := by
  have hdiv : n / bitSize = 0 := Nat.div_eq_of_lt h
  rw [getRequiredDepth, if_pos hdiv]

theorem wordsFor_le_pow {k : Nat} (h : n ≤ 64 ^ (k + 1)) : wordsFor n ≤ 64 ^ k := by
  rw [wordsFor_eq]
  rw [pow_succ] at h
  omega

theorem wordsFor_pos (h : 0 < n) : 0 < wordsFor n := by
  rw [wordsFor_eq]
  omega

theorem iterate_wordsFor_le (k : Nat) :
    ∀ {n j : Nat}, n ≤ 64 ^ (k + j) → wordsFor^[k] n ≤ 64 ^ j := by
  induction k with
  | zero => intro n j h; simpa using h
  | succ k ih =>
    intro n j h
    rw [iterate_succ_apply]
    exact ih (wordsFor_le_pow (by rw [show k + j + 1 = k + 1 + j by omega]; exact h))

theorem iterate_wordsFor_pos (h : 0 < n) (k : Nat) : 0 < wordsFor^[k] n := by
  induction k with
  | zero => exact h
  | succ k ih =>
    rw [iterate_succ_apply']
    exact wordsFor_pos ih

/-- The top depth has one word. -/
theorem wordsFor_levelBits_zero {size : Nat} (h : 0 < size) : wordsFor (levelBits size 0) = 1 := by
  have hdepth := getRequiredDepth_pos size
  have hsucc : wordsFor (levelBits size 0) = wordsFor^[getRequiredDepth size] size := by
    rw [levelBits, ← iterate_succ_apply' wordsFor]
    congr 1
    omega
  have hle : wordsFor^[getRequiredDepth size] size ≤ 64 ^ 0 :=
    iterate_wordsFor_le _ (le_of_lt (lt_pow_getRequiredDepth size))
  have hpos := iterate_wordsFor_pos h (getRequiredDepth size)
  rw [hsucc]
  omega

theorem wordsFor_mono (h : n ≤ n') : wordsFor n ≤ wordsFor n' := by
  rw [wordsFor_eq, wordsFor_eq]
  omega

theorem getRequiredDepth_mono (h : n ≤ n') : getRequiredDepth n ≤ getRequiredDepth n' := by
  induction n' using Nat.strong_induction_on generalizing n with
  | _ n' ih =>
    by_cases hsmall : n / bitSize = 0
    · rw [getRequiredDepth, if_pos hsmall]
      exact getRequiredDepth_pos n'
    · have hdiv : n / bitSize ≤ n' / bitSize := Nat.div_le_div_right h
      have hbig : n' / bitSize ≠ 0 := fun hcon => hsmall (Nat.le_zero.1 (hcon ▸ hdiv))
      have hn : getRequiredDepth n = getRequiredDepth (n / bitSize) + 1 := by
        rw [getRequiredDepth, if_neg hsmall]
      have hn' : getRequiredDepth n' = getRequiredDepth (n' / bitSize) + 1 := by
        rw [getRequiredDepth, if_neg hbig]
      rw [hn, hn']
      refine Nat.succ_le_succ (ih (n' / bitSize) ?_ hdiv)
      simp only [bitSize] at hbig ⊢
      omega

theorem overheadWords_mono (k : Nat) : ∀ {k' n n' : Nat}, k ≤ k' → n ≤ n' →
    overheadWords k n ≤ overheadWords k' n' := by
  induction k with
  | zero => intro k' n n' _ _; exact Nat.zero_le _
  | succ k ih =>
    intro k' n n' hk hn
    obtain ⟨j, rfl⟩ := Nat.exists_eq_succ_of_ne_zero (ne_of_gt (lt_of_lt_of_le k.succ_pos hk))
    have hwords := wordsFor_mono hn
    exact Nat.add_le_add hwords (ih (Nat.le_of_succ_le_succ hk) hwords)

/-- A smaller region needs no more management words. -/
theorem calculateManagementOverheadSize_mono (h : n ≤ n') :
    calculateManagementOverheadSize n ≤ calculateManagementOverheadSize n' :=
  Nat.mul_le_mul_right 8 (overheadWords_mono _ (getRequiredDepth_mono h) h)

theorem levelBits_last (size : Nat) : levelBits size (getRequiredDepth size - 1) = size := by
  rw [levelBits, Nat.sub_self]
  rfl

/-- What the loop of `Initialize` lays out: consecutive parts, the last depth first. -/
structure LaidOut (bm : KPageBitmap) (depths start size stop : Nat) : Prop where
  ends : ∀ d < depths, bm.endStorages d = bm.bitStorages d + wordsFor (wordsFor^[depths - 1 - d] size)
  next : ∀ d d', d < d' → d' < depths → bm.endStorages d' ≤ bm.bitStorages d
  bounds : ∀ d < depths, start ≤ bm.bitStorages d ∧ bm.endStorages d ≤ stop
  first : 0 < depths → bm.endStorages 0 = stop

theorem layoutLoop_spec (depths : Nat) : ∀ (start size : Nat) (bm : KPageBitmap),
    (layoutLoop depths start size bm).1 = start + overheadWords depths size ∧
      LaidOut (layoutLoop depths start size bm).2 depths start size
        (start + overheadWords depths size) ∧
      (∀ d, depths ≤ d → (layoutLoop depths start size bm).2.bitStorages d = bm.bitStorages d ∧
          (layoutLoop depths start size bm).2.endStorages d = bm.endStorages d) ∧
      (layoutLoop depths start size bm).2.storage = bm.storage ∧
      (layoutLoop depths start size bm).2.usedDepths = bm.usedDepths ∧
      (layoutLoop depths start size bm).2.numBits = bm.numBits := by
  induction depths with
  | zero =>
    intro start size bm
    refine ⟨rfl, ⟨?_, ?_, ?_, ?_⟩, fun _ _ => ⟨rfl, rfl⟩, rfl, rfl, rfl⟩
    · exact fun d hd => absurd hd (Nat.not_lt_zero d)
    · exact fun d d' _ hd => absurd hd (Nat.not_lt_zero d')
    · exact fun d hd => absurd hd (Nat.not_lt_zero d)
    · exact fun hd => absurd hd (Nat.not_lt_zero 0)
  | succ depths ih =>
    intro start size bm
    obtain ⟨hend, hlaid, hkeep, hstorage, hused, hnum⟩ := ih (start + wordsFor size) (wordsFor size)
      { bm with
        bitStorages := update bm.bitStorages depths start
        endStorages := update bm.endStorages depths (start + wordsFor size) }
    have heq : layoutLoop (depths + 1) start size bm =
        layoutLoop depths (start + wordsFor size) (wordsFor size) { bm with
          bitStorages := update bm.bitStorages depths start
          endStorages := update bm.endStorages depths (start + wordsFor size) } := rfl
    have htotal : start + overheadWords (depths + 1) size =
        start + wordsFor size + overheadWords depths (wordsFor size) := by
      rw [overheadWords, add_assoc]
    rw [heq, htotal]
    set bm' := (layoutLoop depths (start + wordsFor size) (wordsFor size) { bm with
      bitStorages := update bm.bitStorages depths start
      endStorages := update bm.endStorages depths (start + wordsFor size) }).2
    obtain ⟨hlastBit, hlastEnd⟩ := hkeep depths (le_refl _)
    simp only [update_self] at hlastBit hlastEnd
    refine ⟨hend, ⟨?_, ?_, ?_, ?_⟩, ?_, hstorage, hused, hnum⟩
    · intro d hd
      rcases lt_or_ge d depths with hlt | hge
      · rw [hlaid.ends d hlt, ← iterate_succ_apply]
        rw [show (depths - 1 - d).succ = depths + 1 - 1 - d by omega]
      · obtain rfl : d = depths := by omega
        rw [hlastBit, hlastEnd, show d + 1 - 1 - d = 0 by omega]
        rfl
    · intro d d' hlt hd'
      rcases lt_or_ge d' depths with hlt' | hge
      · exact hlaid.next d d' hlt hlt'
      · obtain rfl : d' = depths := by omega
        rw [hlastEnd]
        exact (hlaid.bounds d hlt).1
    · intro d hd
      rcases lt_or_ge d depths with hlt | hge
      · obtain ⟨h1, h2⟩ := hlaid.bounds d hlt
        exact ⟨by omega, h2⟩
      · obtain rfl : d = depths := by omega
        rw [hlastBit, hlastEnd]
        omega
    · intro _
      rcases Nat.eq_zero_or_pos depths with rfl | hpos
      · exact hlastEnd
      · exact hlaid.first hpos
    · intro d hd
      obtain ⟨h1, h2⟩ := hkeep d (by omega)
      rw [h1, h2]
      exact ⟨update_of_ne (by omega) _ _, update_of_ne (by omega) _ _⟩

section Initialize

variable {storage : Nat → BitVec 64} {rng : RandomBitGenerator} {size : Nat}

theorem initializeBitmap_laidOut :
    LaidOut (initializeBitmap storage rng size) (getRequiredDepth size) 0 size
      (overheadWords (getRequiredDepth size) size) := by
  obtain ⟨-, hlaid, -⟩ := layoutLoop_spec (getRequiredDepth size) 0 size
    { storage := storage
      bitStorages := fun _ => 0
      endStorages := fun _ => 0
      rng := rng
      numBits := 0
      usedDepths := getRequiredDepth size }
  rw [zero_add] at hlaid
  exact hlaid

theorem initializeBitmap_fields : (initializeBitmap storage rng size).storage = storage ∧
      (initializeBitmap storage rng size).usedDepths = getRequiredDepth size ∧
      (initializeBitmap storage rng size).numBits = 0 := by
  obtain ⟨-, -, -, h⟩ := layoutLoop_spec (getRequiredDepth size) 0 size
    { storage := storage
      bitStorages := fun _ => 0
      endStorages := fun _ => 0
      rng := rng
      numBits := 0
      usedDepths := getRequiredDepth size }
  exact h

/-- On cleared storage `Initialize` establishes the invariant with no bit set. -/
theorem initializeBitmap_hierarchy (hsize : 0 < size)
    (hzero : ∀ p < overheadWords (getRequiredDepth size) size, storage p = 0) :
    Hierarchy (initializeBitmap storage rng size) (levelBits size) ∧
      ∀ i < size, (initializeBitmap storage rng size).leaf i = false := by
  obtain ⟨hstorage, hused, -⟩ := @initializeBitmap_fields storage rng size
  have hlaid := @initializeBitmap_laidOut storage rng size
  set bm := initializeBitmap storage rng size
  have hdepth := getRequiredDepth_pos size
  have hword : ∀ d < getRequiredDepth size, ∀ i < wordsFor (levelBits size d), bm.word d i = 0 := by
    intro d hd i hi
    rw [word, hstorage]
    have h1 := hlaid.ends d hd
    have h2 := (hlaid.bounds d hd).2
    refine hzero _ ?_
    rw [levelBits] at hi
    omega
  have hbit : ∀ d < getRequiredDepth size, ∀ i, i / 64 < wordsFor (levelBits size d) →
      bm.bit d i = false := by
    intro d hd i hi
    rw [bit, hword d hd _ hi]
    exact BitVec.getLsbD_zero
  have hlevel : ∀ d, d + 1 < getRequiredDepth size →
      levelBits size d = wordsFor (levelBits size (d + 1)) := by
    intro d hd
    rw [levelBits, levelBits, ← iterate_succ_apply' wordsFor]
    congr 1
    omega
  refine ⟨⟨⟨?_, ?_⟩, by rw [hused]; exact hdepth, wordsFor_levelBits_zero hsize, ?_, ?_⟩, ?_⟩
  · rw [hused]
    exact hlevel
  · rw [hused]
    intro d d' i i' hd hd' hi hi' heq
    have h1 := hlaid.ends d hd
    have h2 := hlaid.ends d' hd'
    rw [levelBits] at hi hi'
    rcases Nat.lt_trichotomy d d' with hlt | rfl | hlt
    · have := hlaid.next d d' hlt hd'
      omega
    · exact ⟨rfl, by omega⟩
    · have := hlaid.next d' d hlt hd
      omega
  · rw [hused]
    intro d hd j hj
    have hnext : j < wordsFor (levelBits size (d + 1)) := by
      rw [← hlevel d (by omega)]
      exact hj
    rw [hbit d (by omega) j (div_lt_wordsFor hj), hword (d + 1) (by omega) j hnext]
    simp
  · rw [hused]
    exact fun d hd i _ hi => hbit d hd i hi
  · intro i hi
    rw [leaf, hused]
    exact hbit _ (by omega) i (by rw [levelBits_last]; exact div_lt_wordsFor hi)

end Initialize

/-! ## Runs -/

/-- The bitmaps that a run leads to: an `Initialize` that meets its assertion, then `SetBit` of clear
bits, `ClearBit` of set bits, `ClearRange` and `FindFreeBlock`, inside the region. -/
inductive BitmapRun (storage : Nat → BitVec 64) (rng : RandomBitGenerator) (size : Nat) :
    KPageBitmap → Prop
  | initialized : getRequiredDepth size ≤ maxDepth →
      BitmapRun storage rng size (initializeBitmap storage rng size)
  | setBit {bm : KPageBitmap} (offset : Nat) : BitmapRun storage rng size bm → offset < size →
      bm.leaf offset = false → BitmapRun storage rng size (bm.setBit offset)
  | clearBit {bm : KPageBitmap} (offset : Nat) : BitmapRun storage rng size bm → offset < size →
      bm.leaf offset = true → BitmapRun storage rng size (bm.clearBit offset)
  | clearRange {bm : KPageBitmap} (offset count : Nat) : BitmapRun storage rng size bm →
      RangeFits size offset count → BitmapRun storage rng size (bm.clearRange offset count).2
  | findFreeBlock {bm : KPageBitmap} (random : Bool) : BitmapRun storage rng size bm →
      BitmapRun storage rng size (bm.findFreeBlock random).2

/-- The set bits of a region of `size` bits. -/
def setBits (bm : KPageBitmap) (size : Nat) : Finset Nat :=
  (Finset.range size).filter fun i => bm.leaf i = true

theorem mem_setBits {bm : KPageBitmap} {size i : Nat} :
    i ∈ bm.setBits size ↔ i < size ∧ bm.leaf i = true := by
  rw [setBits, mem_filter, mem_range]

/-- The invariant of a run over a region of `size` bits in the given storage. -/
structure BitmapInvariant (storage : Nat → BitVec 64) (size : Nat) (bm : KPageBitmap) : Prop where
  hierarchy : Hierarchy bm (levelBits size)
  usedDepths : bm.usedDepths = getRequiredDepth size
  laidOut : LaidOut bm (getRequiredDepth size) 0 size (overheadWords (getRequiredDepth size) size)
  outside : ∀ p, overheadWords (getRequiredDepth size) size ≤ p → bm.storage p = storage p
  numBits : bm.numBits = (bm.setBits size).card

section Runs

variable {storage : Nat → BitVec 64} {rng : RandomBitGenerator} {size : Nat} {bm bm' : KPageBitmap}

theorem BitmapInvariant.regionSize_eq (h : BitmapInvariant storage size bm) :
    bm.regionSize (levelBits size) = size := by
  rw [regionSize, h.usedDepths, levelBits_last]

/-- An operation inside the region keeps the invariant if it keeps the hierarchy and the count. -/
theorem BitmapInvariant.of_sameRegion (h : BitmapInvariant storage size bm)
    (hhier : Hierarchy bm' (levelBits size)) (hreg : SameRegion bm bm' (levelBits size))
    (hcount : bm'.numBits = (bm'.setBits size).card) : BitmapInvariant storage size bm' := by
  refine ⟨hhier, hreg.usedDepths.trans h.usedDepths, ⟨?_, ?_, ?_, ?_⟩, fun p hp => ?_, hcount⟩
  · rw [hreg.bitStorages, hreg.endStorages]
    exact h.laidOut.ends
  · rw [hreg.bitStorages, hreg.endStorages]
    exact h.laidOut.next
  · rw [hreg.bitStorages, hreg.endStorages]
    exact h.laidOut.bounds
  · rw [hreg.endStorages]
    exact h.laidOut.first
  · rw [hreg.outside p fun d hd i hi => ?_, h.outside p hp]
    rw [h.usedDepths] at hd
    have h1 := h.laidOut.ends d hd
    have h2 := (h.laidOut.bounds d hd).2
    rw [levelBits] at hi
    omega

theorem BitmapInvariant.setBit (h : BitmapInvariant storage size bm) {offset : Nat}
    (hoff : offset < size) (hclear : bm.leaf offset = false) :
    BitmapInvariant storage size (bm.setBit offset) ∧
      (bm.setBit offset).setBits size = insert offset (bm.setBits size) := by
  obtain ⟨hhier, hreg, hnum, hleaf⟩ := setBit_spec h.hierarchy (h.regionSize_eq.symm ▸ hoff)
  rw [h.regionSize_eq] at hleaf
  have hset : (bm.setBit offset).setBits size = insert offset (bm.setBits size) := by
    ext i
    rw [mem_insert, mem_setBits, mem_setBits]
    constructor
    · rintro ⟨hi, hl⟩
      rw [hleaf i hi, Bool.or_eq_true, decide_eq_true_eq] at hl
      exact hl.symm.imp id fun hl => ⟨hi, hl⟩
    · rintro (rfl | ⟨hi, hl⟩)
      · exact ⟨hoff, by rw [hleaf i hoff, decide_eq_true rfl, Bool.or_true]⟩
      · exact ⟨hi, by rw [hleaf i hi, hl, Bool.true_or]⟩
  refine ⟨h.of_sameRegion hhier hreg ?_, hset⟩
  have hnot : offset ∉ bm.setBits size := by
    rw [mem_setBits, hclear]
    exact fun hcon => absurd hcon.2 (by decide)
  rw [hset, card_insert_of_notMem hnot, hnum, h.numBits]

theorem sameShape_setBitLoop (k : Nat) : ∀ (offset : Nat) (bm : KPageBitmap),
    (setBitLoop k offset bm).bitStorages = bm.bitStorages ∧
      (setBitLoop k offset bm).usedDepths = bm.usedDepths := by
  induction k with
  | zero => intro offset bm; exact ⟨rfl, rfl⟩
  | succ k ih =>
    intro offset bm
    rw [setBitLoop]
    split_ifs
    · exact ⟨rfl, rfl⟩
    · exact ih _ _

/-- The loop of `SetBit` writes behind the start of the last of its depths only. -/
theorem storage_setBitLoop_of_lt (k : Nat) : ∀ (offset : Nat) (bm : KPageBitmap) {p : Nat},
    (∀ d < k, p < bm.bitStorages d) → (setBitLoop k offset bm).storage p = bm.storage p := by
  induction k with
  | zero => intro offset bm p _; rfl
  | succ k ih =>
    intro offset bm p hp
    have hne : p ≠ bm.bitStorages k + offset / bitSize :=
      ne_of_lt (Nat.lt_add_right _ (hp k (Nat.lt_succ_self k)))
    rw [setBitLoop]
    split_ifs
    · exact update_of_ne hne _ _
    · refine (ih _ (bm.setWord k (offset / bitSize) _) fun d hd =>
        hp d (Nat.lt_succ_of_lt hd)).trans ?_
      exact update_of_ne hne _ _

section

variable (h : BitmapInvariant storage size bm)
include h

/-- `SetBit` touches no other bit of the region, even for an offset outside of the region. -/
theorem BitmapInvariant.leaf_setBit_of_ne {offset i : Nat}
    (hi : i < size) (hne : i ≠ offset) : (bm.setBit offset).leaf i = bm.leaf i := by
  have hdepth : bm.usedDepths = bm.usedDepths - 1 + 1 :=
    (Nat.sub_add_cancel h.hierarchy.depth_pos).symm
  have hlast := h.hierarchy.lastDepth_lt
  -- The levels above the leaves lie behind the leaf word of the bit.
  have hbehind : ∀ d < bm.usedDepths - 1,
      bm.bitStorages (bm.usedDepths - 1) + i / 64 < bm.bitStorages d := by
    intro d hd
    have hends := h.laidOut.ends (bm.usedDepths - 1) (by rw [← h.usedDepths]; exact hlast)
    have hnext := h.laidOut.next d (bm.usedDepths - 1) hd (by rw [← h.usedDepths]; exact hlast)
    have hword := div_lt_wordsFor hi
    rw [h.usedDepths, Nat.sub_self] at hends
    rw [h.usedDepths] at hnext
    rw [h.usedDepths]
    have hsize : wordsFor (wordsFor^[0] size) = wordsFor size := rfl
    omega
  set v := bm.word (bm.usedDepths - 1) (offset / 64) ||| 1#64 <<< (offset % 64)
  have hword : (setBitLoop bm.usedDepths offset bm).storage
      (bm.bitStorages (bm.usedDepths - 1) + i / 64) =
        (bm.setWord (bm.usedDepths - 1) (offset / 64) v).storage
          (bm.bitStorages (bm.usedDepths - 1) + i / 64) := by
    rw [hdepth, setBitLoop]
    split_ifs
    · rfl
    · exact storage_setBitLoop_of_lt _ _ _ hbehind
  have hshape : (setBitLoop bm.usedDepths offset bm).bitStorages = bm.bitStorages ∧
      (setBitLoop bm.usedDepths offset bm).usedDepths = bm.usedDepths :=
    sameShape_setBitLoop _ _ _
  have hleaf : (bm.setBit offset).leaf i = ((setBitLoop bm.usedDepths offset bm).storage
        ((setBitLoop bm.usedDepths offset bm).bitStorages
          ((setBitLoop bm.usedDepths offset bm).usedDepths - 1) + i / 64)).getLsbD (i % 64) := rfl
  rw [hleaf, hshape.1, hshape.2, hword]
  by_cases hind : i / 64 = offset / 64
  · have hbit : (bm.setWord (bm.usedDepths - 1) (offset / 64) v).storage
        (bm.bitStorages (bm.usedDepths - 1) + i / 64) = v := by
      rw [hind]
      exact update_self ..
    rw [hbit, getLsbD_or_one_shiftLeft _ (Nat.mod_lt i (by decide)), decide_eq_false (by omega),
      Bool.or_false, leaf, bit, hind]
  · have hbit : (bm.setWord (bm.usedDepths - 1) (offset / 64) v).storage
        (bm.bitStorages (bm.usedDepths - 1) + i / 64) =
          bm.storage (bm.bitStorages (bm.usedDepths - 1) + i / 64) :=
      update_of_ne (by omega) _ _
    rw [hbit]
    rfl

theorem BitmapInvariant.clearBit {offset : Nat}
    (hoff : offset < size) (hset : bm.leaf offset = true) :
    BitmapInvariant storage size (bm.clearBit offset) ∧
      (bm.clearBit offset).setBits size = (bm.setBits size).erase offset := by
  obtain ⟨hhier, hreg, hnum, hleaf⟩ := clearBit_spec h.hierarchy (h.regionSize_eq.symm ▸ hoff)
  rw [h.regionSize_eq] at hleaf
  have hbits : (bm.clearBit offset).setBits size = (bm.setBits size).erase offset := by
    ext i
    rw [mem_erase, mem_setBits, mem_setBits]
    constructor
    · rintro ⟨hi, hl⟩
      rw [hleaf i hi, Bool.and_eq_true, Bool.not_eq_true', decide_eq_false_iff_not] at hl
      exact ⟨hl.2, hi, hl.1⟩
    · rintro ⟨hne, hi, hl⟩
      exact ⟨hi, by rw [hleaf i hi, hl, decide_eq_false hne]; rfl⟩
  refine ⟨h.of_sameRegion hhier hreg ?_, hbits⟩
  rw [hbits, card_erase_of_mem (mem_setBits.2 ⟨hoff, hset⟩), hnum, h.numBits]

theorem BitmapInvariant.clearRange {offset count : Nat} (hr : RangeFits size offset count) :
    BitmapInvariant storage size (bm.clearRange offset count).2 ∧
      ((AllSet bm offset count ∧ (bm.clearRange offset count).1 = true ∧
          (bm.clearRange offset count).2.setBits size =
            bm.setBits size \ Finset.Ico offset (offset + count)) ∨
        (¬AllSet bm offset count ∧ bm.clearRange offset count = (false, bm))) := by
  have hcases := clearRange_spec h.hierarchy (h.regionSize_eq.symm ▸ hr)
  rcases hcases with ⟨hall, htrue, hcleared⟩ | ⟨hall, heq⟩
  · have hleaf := hcleared.leaf
    rw [h.regionSize_eq] at hleaf
    have hbits : (bm.clearRange offset count).2.setBits size =
        bm.setBits size \ Finset.Ico offset (offset + count) := by
      ext i
      rw [mem_sdiff, mem_setBits, mem_setBits, mem_Ico]
      constructor
      · rintro ⟨hi, hl⟩
        rw [hleaf i hi, ← Bool.decide_and, Bool.and_eq_true, Bool.not_eq_true',
          decide_eq_false_iff_not] at hl
        exact ⟨⟨hi, hl.1⟩, hl.2⟩
      · rintro ⟨⟨hi, hl⟩, hnot⟩
        exact ⟨hi, by rw [hleaf i hi, hl, ← Bool.decide_and, decide_eq_false hnot]; rfl⟩
    refine ⟨h.of_sameRegion hcleared.hierarchy hcleared.region ?_, .inl ⟨hall, htrue, hbits⟩⟩
    have hsub : Finset.Ico offset (offset + count) ⊆ bm.setBits size := by
      intro i hi
      obtain ⟨h1, h2⟩ := mem_Ico.1 hi
      exact mem_setBits.2 ⟨lt_of_lt_of_le h2 hr.end_le, hall i h1 h2⟩
    rw [hbits, card_sdiff_of_subset hsub, Nat.card_Ico, hcleared.numBits, h.numBits,
      Nat.add_sub_cancel_left]
  · rw [heq]
    exact ⟨h, .inr ⟨hall, rfl⟩⟩

theorem BitmapInvariant.with_rng (g : RandomBitGenerator) :
    BitmapInvariant storage size { bm with rng := g } :=
  ⟨h.hierarchy.with_rng g, h.usedDepths, ⟨h.laidOut.1, h.laidOut.2, h.laidOut.3, h.laidOut.4⟩,
    h.outside, h.numBits⟩

theorem BitmapInvariant.findFreeBlock (random : Bool) :
    (∃ g, (bm.findFreeBlock random).2 = { bm with rng := g }) ∧
      ((bm.setBits size = ∅ ∧ (bm.findFreeBlock random).1 = -1) ∨
        ∃ i ∈ bm.setBits size, (bm.findFreeBlock random).1 = (i : Int) ∧
          (random = false → ∀ j ∈ bm.setBits size, i ≤ j)) := by
  have hspec := findFreeBlock_spec h.hierarchy random
  rw [h.regionSize_eq] at hspec
  rcases hspec with ⟨hnone, heq⟩ | ⟨i, g, heq, hi, hleaf, hmin⟩
  · rw [heq]
    refine ⟨⟨bm.rng, rfl⟩, .inl ⟨eq_empty_of_forall_notMem fun i hi => ?_, rfl⟩⟩
    obtain ⟨hi, hl⟩ := mem_setBits.1 hi
    rw [hnone i hi] at hl
    exact absurd hl (by decide)
  · rw [heq]
    refine ⟨⟨g, rfl⟩, .inr ⟨i, mem_setBits.2 ⟨hi, hleaf⟩, rfl, fun hr j hj => ?_⟩⟩
    by_contra hlt
    have := hmin hr j (Nat.lt_of_not_le hlt)
    rw [(mem_setBits.1 hj).2] at this
    exact absurd this (by decide)

end

section

variable (hsize : 0 < size)
  (hzero : ∀ p < overheadWords (getRequiredDepth size) size, storage p = 0)
include hsize hzero

theorem initializeBitmap_invariant :
    BitmapInvariant storage size (initializeBitmap storage rng size) ∧
      (initializeBitmap storage rng size).setBits size = ∅ := by
  obtain ⟨hstorage, hused, hnum⟩ := @initializeBitmap_fields storage rng size
  obtain ⟨hhier, hleaf⟩ := @initializeBitmap_hierarchy storage rng size hsize hzero
  have hempty : (initializeBitmap storage rng size).setBits size = ∅ := by
    refine eq_empty_of_forall_notMem fun i hi => ?_
    obtain ⟨hi, hl⟩ := mem_setBits.1 hi
    rw [hleaf i hi] at hl
    exact absurd hl (by decide)
  refine ⟨⟨hhier, hused, initializeBitmap_laidOut, fun p _ => by rw [hstorage], ?_⟩, hempty⟩
  rw [hnum, hempty, card_empty]

theorem BitmapRun.invariant
    (h : BitmapRun storage rng size bm) : BitmapInvariant storage size bm := by
  induction h with
  | initialized _ => exact (initializeBitmap_invariant hsize hzero).1
  | setBit offset _ hoff hclear ih => exact (ih.setBit hoff hclear).1
  | clearBit offset _ hoff hset ih => exact (ih.clearBit hoff hset).1
  | clearRange offset count _ hr ih => exact (ih.clearRange hr).1
  | findFreeBlock random _ ih =>
    obtain ⟨g, heq⟩ := (ih.findFreeBlock random).1
    rw [heq]
    exact ih.with_rng g

end

/-- In every state of every run over a region that is not empty, in storage that was cleared: each
bit above the last depth is set exactly when its word is not zero; the top depth has one word; the
depths own disjoint parts of the storage within the management overhead, and no other word changes;
`m_num_bits` counts the set bits. So `FindFreeBlock` returns -1 exactly when no bit is set and a set
bit otherwise, the lowest one unless it is random, and `ClearRange` clears its bits if they are all
set and changes nothing otherwise. -/
theorem bitmapRun_spec (hsize : 0 < size)
    (hzero : ∀ p, 8 * p < calculateManagementOverheadSize size → storage p = 0)
    (h : BitmapRun storage rng size bm) :
    (∀ d, d + 1 < bm.usedDepths → ∀ j < bm.endStorages (d + 1) - bm.bitStorages (d + 1),
        (bm.bit d j = true ↔ bm.word (d + 1) j ≠ 0)) ∧
      bm.endStorages 0 = bm.bitStorages 0 + 1 ∧
      (∀ d < bm.usedDepths, 8 * bm.endStorages d ≤ calculateManagementOverheadSize size) ∧
      (∀ d d', d < d' → d' < bm.usedDepths → bm.endStorages d' ≤ bm.bitStorages d) ∧
      (∀ p, calculateManagementOverheadSize size ≤ 8 * p → bm.storage p = storage p) ∧
      bm.numBits = (bm.setBits size).card ∧
      (∀ random, ((bm.findFreeBlock random).1 = -1 ∧ bm.setBits size = ∅) ∨
        ∃ i ∈ bm.setBits size, (bm.findFreeBlock random).1 = (i : Int) ∧
          (random = false → ∀ j ∈ bm.setBits size, i ≤ j)) ∧
      ∀ offset count, RangeFits size offset count →
        (Finset.Ico offset (offset + count) ⊆ bm.setBits size ∧
            (bm.clearRange offset count).1 = true ∧
            (bm.clearRange offset count).2.setBits size =
              bm.setBits size \ Finset.Ico offset (offset + count)) ∨
          (¬Finset.Ico offset (offset + count) ⊆ bm.setBits size ∧
            bm.clearRange offset count = (false, bm)) := by
  have hsizes : calculateManagementOverheadSize size =
      8 * overheadWords (getRequiredDepth size) size := Nat.mul_comm ..
  rw [hsizes] at hzero ⊢
  have hinv := h.invariant hsize fun p hp => hzero p (by omega)
  have hlaid := hinv.laidOut
  have hused := hinv.usedDepths
  refine ⟨?_, ?_, ?_, ?_, ?_, hinv.numBits, ?_, ?_⟩
  · intro d hd j hj
    refine hinv.hierarchy.links d (by omega) j ?_
    rw [hinv.hierarchy.layout.bits_eq d hd, levelBits]
    rw [hused] at hd
    rw [hlaid.ends (d + 1) hd] at hj
    omega
  · have hfirst := hlaid.ends 0 (getRequiredDepth_pos size)
    have htop := hinv.hierarchy.top
    rw [levelBits] at htop
    rw [hfirst, htop]
  · intro d hd
    rw [hused] at hd
    exact Nat.mul_le_mul_left 8 (hlaid.bounds d hd).2
  · intro d d' hlt hd'
    rw [hused] at hd'
    exact hlaid.next d d' hlt hd'
  · intro p hp
    exact hinv.outside p (by omega)
  · intro random
    rcases (hinv.findFreeBlock random).2 with ⟨hempty, heq⟩ | hsome
    · exact Or.inl ⟨heq, hempty⟩
    · exact Or.inr hsome
  · intro offset count hr
    have hiff : AllSet bm offset count ↔ Finset.Ico offset (offset + count) ⊆ bm.setBits size := by
      constructor
      · intro hall i hi
        obtain ⟨h1, h2⟩ := mem_Ico.1 hi
        exact mem_setBits.2 ⟨Nat.lt_of_lt_of_le h2 hr.end_le, hall i h1 h2⟩
      · intro hsub i h1 h2
        exact (mem_setBits.1 (hsub (mem_Ico.2 ⟨h1, h2⟩))).2
    rw [← hiff]
    exact (hinv.clearRange hr).2

end Runs

/-- A generator that yields zeros only. -/
def zeroGenerator : RandomBitGenerator := ⟨fun _ => 0, 0, 0⟩

theorem getRequiredDepth_hundred : getRequiredDepth 100 = 2 := by
  rw [getRequiredDepth, if_neg (by decide), getRequiredDepth, if_pos (by decide)]

/-- A bitmap for a hundred bits, with one of them set. -/
theorem bitmapRun_spec_hundred :
    (((initializeBitmap (fun _ => 0) zeroGenerator 100).setBit 77).findFreeBlock true).1 = 77 := by
  have hrun : BitmapRun (fun _ => 0) zeroGenerator 100
      (initializeBitmap (fun _ => 0) zeroGenerator 100) :=
    .initialized (by rw [getRequiredDepth_hundred]; decide)
  obtain ⟨hinv, hempty⟩ := @initializeBitmap_invariant (fun _ => 0) zeroGenerator 100 (by decide)
    fun _ _ => rfl
  have hclear : (initializeBitmap (fun _ => 0) zeroGenerator 100).leaf 77 = false := by
    by_contra hcon
    have hmem : 77 ∈ (initializeBitmap (fun _ => 0) zeroGenerator 100).setBits 100 :=
      mem_setBits.2 ⟨by decide, by simpa using hcon⟩
    rw [hempty] at hmem
    exact absurd hmem (notMem_empty 77)
  have hbits : ((initializeBitmap (fun _ => 0) zeroGenerator 100).setBit 77).setBits 100 = {77} := by
    rw [(hinv.setBit (by decide) hclear).2, hempty]
    rfl
  obtain ⟨-, -, -, -, -, -, hfind, -⟩ := bitmapRun_spec (by decide) (fun _ _ => rfl)
    (hrun.setBit 77 (by decide) hclear)
  rcases hfind true with ⟨-, hcon⟩ | ⟨i, hi, heq, -⟩
  · rw [hbits] at hcon
    exact absurd hcon (singleton_ne_empty 77)
  · rw [hbits, mem_singleton] at hi
    rw [heq, hi]
    rfl

/-- An empty region has no top word at all. -/
theorem initializeBitmap_zero_has_no_word :
    BitmapRun (fun _ => 0) zeroGenerator 0 (initializeBitmap (fun _ => 0) zeroGenerator 0) ∧
      (initializeBitmap (fun _ => 0) zeroGenerator 0).endStorages 0 ≠
        (initializeBitmap (fun _ => 0) zeroGenerator 0).bitStorages 0 + 1 := by
  have hdepth : getRequiredDepth 0 = 1 := by rw [getRequiredDepth, if_pos (by decide)]
  refine ⟨.initialized (by rw [hdepth]; decide), ?_⟩
  have hends := (@initializeBitmap_laidOut (fun _ => 0) zeroGenerator 0).ends 0
    (by rw [hdepth]; decide)
  have hwords : wordsFor (wordsFor^[1 - 1 - 0] 0) = 0 := by decide
  rw [hdepth, hwords] at hends
  omega

end KPageBitmap

end Sudachi.Kernel
