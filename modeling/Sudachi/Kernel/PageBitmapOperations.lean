import Sudachi.Kernel.PageBitmapHierarchy

/-!
# The operations of the page bitmap

What each operation does to the leaf bits of a bitmap with the hierarchy invariant: `SetBit` adds a
bit (`setBit_spec`), `ClearBit` and `ClearRange` remove bits (`clearBit_spec`, `clearRange_spec`),
and `FindFreeBlock` finds a bit whenever there is one, for every outcome of the random generator
(`findFreeBlock_spec`).
-/

set_option autoImplicit false

namespace Sudachi.Kernel

open Sudachi.Common Sudachi.Foundations BitVec

/-! ## The random bit -/

/-- The values of `cur_num_bits` in `SelectRandomBit` for a word of `2 ^ k` bits. -/
def halvings : Nat → List Nat
  | 0 => []
  | k + 1 => 2 ^ k :: halvings k

/-- Whatever the generator yields, the position that `SelectRandomBit` ends at is set. -/
theorem selectLoop_spec (k : Nat) :
    ∀ (bitmap : BitVec 64) (selected : Nat) (g : RandomBitGenerator),
    bitmap ≠ 0 → (∀ i, 2 ^ k ≤ i → bitmap.getLsbD i = false) →
      ∃ j < 2 ^ k, (RandomBitGenerator.selectLoop (halvings k) bitmap selected g).1 = selected + j ∧
        bitmap.getLsbD j = true := by
  induction k with
  | zero =>
    intro bitmap selected g hne hhigh
    refine ⟨0, by decide, rfl, ?_⟩
    by_contra hbit
    refine hne (eq_zero_iff_getLsbD.2 fun i _ => ?_)
    cases i with
    | zero => simpa using hbit
    | succ i => exact hhigh (i + 1) (by simp)
  | succ k ih =>
    intro bitmap selected g hne hhigh
    have hhighBit : ∀ i, (bitmap >>> 2 ^ k).getLsbD i = bitmap.getLsbD (2 ^ k + i) :=
      fun i => getLsbD_ushiftRight ..
    have hlowBit := getLsbD_and_not_allOnes_shiftLeft bitmap (2 ^ k)
    -- Going on with the upper half, or with the lower one, keeps the position in the word.
    have hupper : ∀ g', bitmap >>> 2 ^ k ≠ 0 → ∃ j < 2 ^ (k + 1),
        (RandomBitGenerator.selectLoop (halvings k) (bitmap >>> 2 ^ k) (selected + 2 ^ k) g').1 =
          selected + j ∧ bitmap.getLsbD j = true := by
      intro g' h
      obtain ⟨j, hj, heq, hbit⟩ := ih (bitmap >>> 2 ^ k) (selected + 2 ^ k) g' h fun i hi => by
        rw [hhighBit]
        exact hhigh _ (by omega)
      exact ⟨2 ^ k + j, by omega, by rw [heq, add_assoc], (hhighBit j).symm.trans hbit⟩
    have hlower : ∀ g', bitmap &&& ~~~(allOnes 64 <<< 2 ^ k) ≠ 0 → ∃ j < 2 ^ (k + 1),
        (RandomBitGenerator.selectLoop (halvings k) (bitmap &&& ~~~(allOnes 64 <<< 2 ^ k))
          selected g').1 = selected + j ∧ bitmap.getLsbD j = true := by
      intro g' h
      obtain ⟨j, hj, heq, hbit⟩ := ih _ selected g' h fun i hi => by
        rw [hlowBit, decide_eq_false (by omega), Bool.and_false]
      rw [hlowBit, Bool.and_eq_true] at hbit
      exact ⟨j, by omega, heq, hbit.1⟩
    simp only [halvings, RandomBitGenerator.selectLoop]
    by_cases hhz : bitmap >>> 2 ^ k = 0
    · rw [if_pos hhz]
      refine hlower g fun hlz => hne (eq_zero_iff_getLsbD.2 fun i _ => ?_)
      rcases lt_or_ge i (2 ^ k) with hlt | hge
      · have := (hlowBit i).symm.trans (congrArg (fun x => x.getLsbD i) hlz)
        simpa [hlt] using this
      · have := (hhighBit (i - 2 ^ k)).symm.trans (congrArg (fun x => x.getLsbD (i - 2 ^ k)) hhz)
        rw [Nat.add_sub_cancel' hge] at this
        simpa using this
    · rw [if_neg hhz]
      by_cases hlz : bitmap &&& ~~~(allOnes 64 <<< 2 ^ k) = 0
      · rw [if_pos hlz]
        exact hupper g hhz
      · rw [if_neg hlz]
        by_cases hchoose : g.generateRandomBit.1 = true
        · rw [if_pos hchoose]
          exact hupper _ hhz
        · rw [if_neg hchoose]
          exact hlower _ hlz

namespace KPageBitmap

/-- A bit chosen in a word that is not zero is set, and the lowest one unless chosen at random. -/
theorem chooseBit_spec (random : Bool) (g : RandomBitGenerator) {v : BitVec 64} (h : v ≠ 0) :
    (chooseBit random g v).1 < 64 ∧ v.getLsbD (chooseBit random g v).1 = true ∧
      (random = false → ∀ k < (chooseBit random g v).1, v.getLsbD k = false) := by
  cases random with
  | false =>
    exact ⟨ctz_toNat_lt h, getLsbD_true_ctz_of_ne_zero h,
      fun _ k hk => getLsbD_false_of_lt_ctz hk⟩
  | true =>
    obtain ⟨j, hj, heq, hbit⟩ := selectLoop_spec 6 v 0 g h fun i hi => getLsbD_of_ge v i hi
    have hsel : (chooseBit true g v).1 = j := by
      rw [← zero_add j]
      exact heq
    rw [hsel]
    exact ⟨hj, hbit, fun hcon => absurd hcon (by decide)⟩

/-! ## The operations on the leaf bits -/

/-- The same region: the pointers and the words of the storage that no depth owns are as before. -/
structure SameRegion (bm bm' : KPageBitmap) (nb : Nat → Nat) : Prop where
  bitStorages : bm'.bitStorages = bm.bitStorages
  endStorages : bm'.endStorages = bm.endStorages
  usedDepths : bm'.usedDepths = bm.usedDepths
  outside : ∀ p, (∀ d < bm.usedDepths, ∀ i < wordsFor (nb d), p ≠ bm.bitStorages d + i) →
    bm'.storage p = bm.storage p

theorem SameRegion.refl (bm : KPageBitmap) (nb : Nat → Nat) : SameRegion bm bm nb :=
  ⟨rfl, rfl, rfl, fun _ _ => rfl⟩

theorem SameRegion.trans {a b c : KPageBitmap} {nb : Nat → Nat} (h : SameRegion a b nb)
    (h' : SameRegion b c nb) : SameRegion a c nb := by
  refine ⟨h'.1.trans h.1, h'.2.trans h.2, h'.3.trans h.3, fun p hp => ?_⟩
  rw [h'.outside p (by rw [h.usedDepths, h.bitStorages]; exact hp), h.outside p hp]

theorem WordWritten.sameRegion {bm bm' : KPageBitmap} {nb : Nat → Nat} {d ind : Nat} {v : BitVec 64}
    (h : WordWritten bm bm' nb d ind v) : SameRegion bm bm' nb :=
  ⟨h.shape.1, h.shape.2, h.shape.3, h.outside⟩

section Operations

variable {bm : KPageBitmap} {nb : Nat → Nat}

/-- The number of bits of the region. -/
abbrev regionSize (bm : KPageBitmap) (nb : Nat → Nat) : Nat := nb (bm.usedDepths - 1)

variable {offset count : Nat}

section

variable (h : Hierarchy bm nb)
include h

theorem Hierarchy.with_rng (g : RandomBitGenerator) : Hierarchy { bm with rng := g } nb :=
  ⟨⟨h.layout.1, h.layout.2⟩, h.depth_pos, h.top, h.links, h.tail⟩

theorem Hierarchy.with_numBits (n : Nat) : Hierarchy { bm with numBits := n } nb :=
  ⟨⟨h.layout.1, h.layout.2⟩, h.depth_pos, h.top, h.links, h.tail⟩

theorem Hierarchy.lastDepth_lt : bm.usedDepths - 1 < bm.usedDepths :=
  Nat.sub_lt h.depth_pos (by decide)

/-- `SetBit` adds its bit. -/
theorem setBit_spec (hoff : offset < bm.regionSize nb) :
    Hierarchy (bm.setBit offset) nb ∧ SameRegion bm (bm.setBit offset) nb ∧
      (bm.setBit offset).numBits = bm.numBits + 1 ∧
      ∀ i < bm.regionSize nb, (bm.setBit offset).leaf i = (bm.leaf i || decide (i = offset)) := by
  have hdepth : bm.usedDepths = bm.usedDepths - 1 + 1 := (Nat.sub_add_cancel h.depth_pos).symm
  have hw := setBitLoop_spec (bm.usedDepths - 1) offset bm h.layout h.lastDepth_lt
    (div_lt_wordsFor hoff) h.links
  rw [← hdepth] at hw
  have hhier : Hierarchy (setBitLoop bm.usedDepths offset bm) nb := by
    have hoff' : offset < nb (bm.usedDepths - 1) := hoff
    refine h.of_wordWritten hw fun k hk hnb => ?_
    rw [getLsbD_or_one_shiftLeft _ hk, decide_eq_false (by omega), Bool.or_false]
    have hind : (64 * (offset / 64) + k) / 64 = offset / 64 := by omega
    have hmod : (64 * (offset / 64) + k) % 64 = k := by omega
    have htail := h.tail _ h.lastDepth_lt (64 * (offset / 64) + k) hnb
      (by rw [hind]; exact div_lt_wordsFor hoff)
    rwa [bit, hind, hmod] at htail
  refine ⟨hhier.with_numBits _, ⟨hw.shape.1, hw.shape.2, hw.shape.3, hw.outside⟩,
    congrArg (· + 1) hw.shape.numBits, fun i hi => ?_⟩
  refine (leaf_of_wordWritten hw hi).trans ?_
  by_cases hind : i / 64 = offset / 64
  · rw [if_pos hind, getLsbD_or_one_shiftLeft _ (Nat.mod_lt i (by decide)), ← hind]
    refine congrArg _ (decide_eq_decide.2 ?_)
    omega
  · rw [if_neg hind, decide_eq_false (by rintro rfl; exact hind rfl), Bool.or_false]

/-- Clearing bits of one leaf word removes these bits. -/
theorem clearMask_spec {bm' : KPageBitmap} {ind : Nat} {mask : BitVec 64}
    (hind : ind < wordsFor (bm.regionSize nb)) (hw : WordWritten bm bm' nb (bm.usedDepths - 1) ind
      (bm.word (bm.usedDepths - 1) ind &&& ~~~mask)) : Hierarchy bm' nb ∧ ∀ i < bm.regionSize nb,
      bm'.leaf i = (bm.leaf i && !(decide (i / 64 = ind) && mask.getLsbD (i % 64))) := by
  constructor
  · refine h.of_wordWritten hw fun k hk hnb => ?_
    have hdiv : (64 * ind + k) / 64 = ind := by omega
    have hmod : (64 * ind + k) % 64 = k := by omega
    have htail := h.tail _ h.lastDepth_lt (64 * ind + k) hnb (by rw [hdiv]; exact hind)
    rw [bit, hdiv, hmod] at htail
    rw [getLsbD_and, htail, Bool.false_and]
  · intro i hi
    rw [leaf_of_wordWritten hw hi]
    by_cases hi' : i / 64 = ind
    · rw [if_pos hi', decide_eq_true hi', Bool.true_and, getLsbD_and, getLsbD_not,
        decide_eq_true (Nat.mod_lt i (by decide)), Bool.true_and, leaf, bit, hi']
    · rw [if_neg hi', decide_eq_false hi', Bool.false_and, Bool.not_false, Bool.and_true]

/-- `ClearBit` removes its bit. -/
theorem clearBit_spec (hoff : offset < bm.regionSize nb) :
    Hierarchy (bm.clearBit offset) nb ∧ SameRegion bm (bm.clearBit offset) nb ∧
      (bm.clearBit offset).numBits = bm.numBits - 1 ∧
      ∀ i < bm.regionSize nb, (bm.clearBit offset).leaf i = (bm.leaf i && !decide (i = offset)) := by
  have hdepth : bm.usedDepths = bm.usedDepths - 1 + 1 := (Nat.sub_add_cancel h.depth_pos).symm
  have hw := clearBitLoop_spec h.layout h.lastDepth_lt (div_lt_wordsFor hoff) h.links
  rw [← hdepth] at hw
  obtain ⟨hhier, hleaf⟩ := clearMask_spec h (div_lt_wordsFor hoff) hw
  refine ⟨hhier.with_numBits _, ⟨hw.shape.1, hw.shape.2, hw.shape.3, hw.outside⟩,
    congrArg (· - 1) hw.shape.numBits, fun i hi => (hleaf i hi).trans ?_⟩
  rw [getLsbD_one_shiftLeft, decide_eq_true (Nat.mod_lt i (by decide)), Bool.true_and,
    ← Bool.decide_and]
  refine congrArg (fun x => bm.leaf i && !x) (decide_eq_decide.2 ?_)
  omega

end

/-- The second loop of `ClearRange` removes the bits of its words. -/
theorem clearWordsLoop_spec (words : Nat) : ∀ (ind : Nat) (bm : KPageBitmap), Hierarchy bm nb →
    64 * (ind + words) ≤ bm.regionSize nb →
      Hierarchy (clearWordsLoop (bm.usedDepths - 1) words ind bm) nb ∧
        SameRegion bm (clearWordsLoop (bm.usedDepths - 1) words ind bm) nb ∧
        (clearWordsLoop (bm.usedDepths - 1) words ind bm).numBits = bm.numBits ∧
        ∀ i < bm.regionSize nb, (clearWordsLoop (bm.usedDepths - 1) words ind bm).leaf i =
          (bm.leaf i && !(decide (64 * ind ≤ i) && decide (i < 64 * (ind + words)))) := by
  induction words with
  | zero =>
    intro ind bm h _
    refine ⟨h, SameRegion.refl bm nb, rfl, fun i _ => ?_⟩
    have hempty : ¬(64 * ind ≤ i ∧ i < 64 * (ind + 0)) := by omega
    rw [← Bool.decide_and, decide_eq_false hempty, Bool.not_false, Bool.and_true]
    rfl
  | succ words ih =>
    intro ind bm h hle
    have hind : ind < wordsFor (bm.regionSize nb) := by
      have := div_lt_wordsFor (show 64 * ind < bm.regionSize nb by omega)
      rwa [Nat.mul_div_cancel_left _ (by decide)] at this
    have hw := wordWritten_clear (bm.usedDepths - 1) ind 0 bm h.layout h.lastDepth_lt hind h.links
      fun hcon => absurd rfl hcon
    rw [if_pos rfl] at hw
    set bm₁ := clearBitLoop (bm.usedDepths - 1) ind (bm.setWord (bm.usedDepths - 1) ind 0) with hbm₁
    have hzero : bm.word (bm.usedDepths - 1) ind &&& ~~~(allOnes 64) = 0 := by
      rw [not_allOnes, and_zero]
      rfl
    obtain ⟨hhier, hleaf⟩ := clearMask_spec h hind (hzero ▸ hw)
    have hdepths : bm₁.usedDepths = bm.usedDepths := hw.shape.usedDepths
    have hrec := ih (ind + 1) bm₁ hhier (by
      rw [regionSize, hdepths]
      exact le_trans (le_of_eq (by omega)) hle)
    rw [regionSize, hdepths] at hrec
    obtain ⟨h1, h2, h3, h4⟩ := hrec
    have heq : clearWordsLoop (bm.usedDepths - 1) (words + 1) ind bm =
        clearWordsLoop (bm.usedDepths - 1) words (ind + 1) bm₁ := rfl
    rw [heq]
    refine ⟨h1, hw.sameRegion.trans h2, h3.trans hw.shape.numBits, fun i hi => ?_⟩
    rw [h4 i hi, hleaf i hi, getLsbD_allOnes, decide_eq_true (Nat.mod_lt i (by decide)),
      Bool.and_true, Bool.and_assoc, ← Bool.not_or, ← Bool.decide_and, ← Bool.decide_or,
      ← Bool.decide_and]
    refine congrArg (fun x => bm.leaf i && !x) (decide_eq_decide.2 ?_)
    omega

/-- A range that `ClearRange` accepts: it lies in the region and, as the source asserts, either in
one word or on word boundaries. -/
structure RangeFits (size offset count : Nat) : Prop where
  start_lt : offset < size
  end_le : offset + count ≤ size
  inWord : count < 64 → offset % 64 + count ≤ 64
  aligned : 64 ≤ count → 64 ∣ offset ∧ 64 ∣ count

/-- All bits of the range are set. -/
def AllSet (bm : KPageBitmap) (offset count : Nat) : Prop :=
  ∀ i, offset ≤ i → i < offset + count → bm.leaf i = true

/-- The bitmap `bm'` is `bm` without the bits of the range. -/
structure RangeCleared (bm bm' : KPageBitmap) (nb : Nat → Nat) (offset count : Nat) : Prop where
  hierarchy : Hierarchy bm' nb
  region : SameRegion bm bm' nb
  numBits : bm'.numBits = bm.numBits - count
  leaf : ∀ i < bm.regionSize nb,
    bm'.leaf i = (bm.leaf i && !(decide (offset ≤ i) && decide (i < offset + count)))

section

variable (h : Hierarchy bm nb) (hr : RangeFits (bm.regionSize nb) offset count)
include h hr

theorem clearRange_of_lt (hcount : count < 64) :
    (AllSet bm offset count ∧ (bm.clearRange offset count).1 = true ∧
        RangeCleared bm (bm.clearRange offset count).2 nb offset count) ∨
      (¬AllSet bm offset count ∧ bm.clearRange offset count = (false, bm)) := by
  have hword := hr.inWord hcount
  have hind : offset / 64 < wordsFor (bm.regionSize nb) := div_lt_wordsFor hr.start_lt
  have hmask : ∀ i, (decide (i / 64 = offset / 64) &&
      (rangeMask 64 count (offset % 64)).getLsbD (i % 64)) =
        (decide (offset ≤ i) && decide (i < offset + count)) := by
    intro i
    rw [getLsbD_rangeMask hcount (Nat.mod_lt i (by decide)), ← Bool.decide_and, ← Bool.decide_and,
      ← Bool.decide_and]
    refine decide_eq_decide.2 ?_
    omega
  have hall : bm.word (bm.usedDepths - 1) (offset / 64) &&& rangeMask 64 count (offset % 64) =
      rangeMask 64 count (offset % 64) ↔ AllSet bm offset count := by
    rw [and_eq_right_iff]
    constructor
    · intro hset i h1 h2
      have hi := hmask i
      have hdiv : i / 64 = offset / 64 := by omega
      rw [decide_eq_true hdiv, Bool.true_and, decide_eq_true h1, decide_eq_true h2,
        Bool.true_and] at hi
      have hbit := hset (i % 64) (Nat.mod_lt i (by decide)) hi
      rwa [leaf, bit, hdiv]
    · intro hset k hk hbit
      have hdiv : (64 * (offset / 64) + k) / 64 = offset / 64 := by omega
      have hmod : (64 * (offset / 64) + k) % 64 = k := by omega
      have hi := hmask (64 * (offset / 64) + k)
      rw [decide_eq_true hdiv, Bool.true_and, hmod, hbit, ← Bool.decide_and] at hi
      obtain ⟨h1, h2⟩ := of_decide_eq_true hi.symm
      have hleaf := hset _ h1 h2
      rwa [leaf, bit, hdiv, hmod] at hleaf
  by_cases hset : AllSet bm offset count
  · refine .inl ⟨hset, ?_⟩
    have hv := hall.2 hset
    have hw := wordWritten_clear (bm.usedDepths - 1) (offset / 64)
      (bm.word (bm.usedDepths - 1) (offset / 64) &&& ~~~(rangeMask 64 count (offset % 64))) bm
      h.layout h.lastDepth_lt hind h.links ne_zero_of_and_ne_zero
    have heq : bm.clearRange offset count = (true,
        { (if bm.word (bm.usedDepths - 1) (offset / 64) &&&
              ~~~(rangeMask 64 count (offset % 64)) = 0 then
            clearBitLoop (bm.usedDepths - 1) (offset / 64) (bm.setWord (bm.usedDepths - 1)
              (offset / 64) (bm.word (bm.usedDepths - 1) (offset / 64) &&&
                ~~~(rangeMask 64 count (offset % 64))))
          else bm.setWord (bm.usedDepths - 1) (offset / 64)
            (bm.word (bm.usedDepths - 1) (offset / 64) &&&
              ~~~(rangeMask 64 count (offset % 64)))) with numBits := bm.numBits - count }) := by
      rw [← hw.shape.numBits]
      simp only [clearRange, bitSize, hcount, if_true, ne_eq, hv, not_true_eq_false, if_false]
      rfl
    obtain ⟨hhier, hleaf⟩ := clearMask_spec h hind hw
    rw [heq]
    refine ⟨rfl, hhier.with_numBits _, ⟨hw.shape.1, hw.shape.2, hw.shape.3, hw.outside⟩, rfl,
      fun i hi => ?_⟩
    rw [← hmask i]
    exact hleaf i hi
  · refine .inr ⟨hset, ?_⟩
    simp only [clearRange, bitSize, hcount, if_true, ne_eq, hall, hset, not_false_eq_true]

theorem clearRange_of_ge (hcount : 64 ≤ count) :
    (AllSet bm offset count ∧ (bm.clearRange offset count).1 = true ∧
        RangeCleared bm (bm.clearRange offset count).2 nb offset count) ∨
      (¬AllSet bm offset count ∧ bm.clearRange offset count = (false, bm)) := by
  obtain ⟨⟨ind, rfl⟩, words, rfl⟩ := hr.aligned hcount
  have hall : (¬∃ i < words, bm.word (bm.usedDepths - 1) (ind + i) ≠ allOnes 64) ↔
      AllSet bm (64 * ind) (64 * words) := by
    constructor
    · intro hno i h1 h2
      have hfull : bm.word (bm.usedDepths - 1) (i / 64) = allOnes 64 := by
        by_contra hne
        refine hno ⟨i / 64 - ind, by omega, ?_⟩
        rwa [Nat.add_sub_cancel' (by omega)]
      rw [leaf, bit, hfull, getLsbD_allOnes]
      exact decide_eq_true (Nat.mod_lt i (by decide))
    · rintro hset ⟨i, hi, hne⟩
      refine hne (eq_of_getLsbD_eq fun k hk => ?_)
      have hdiv : (64 * (ind + i) + k) / 64 = ind + i := by omega
      have hmod : (64 * (ind + i) + k) % 64 = k := by omega
      have hleaf := hset (64 * (ind + i) + k) (by omega) (by omega)
      rw [leaf, bit, hdiv, hmod] at hleaf
      rw [hleaf, getLsbD_allOnes, decide_eq_true hk]
  have hnot : ¬64 * words < 64 := by omega
  have hdivs : 64 * ind / 64 = ind ∧ 64 * words / 64 = words := by omega
  by_cases hset : AllSet bm (64 * ind) (64 * words)
  · refine .inl ⟨hset, ?_⟩
    obtain ⟨h1, h2, h3, h4⟩ := clearWordsLoop_spec words ind bm h
      (le_trans (le_of_eq (by omega)) hr.end_le)
    have heq : bm.clearRange (64 * ind) (64 * words) = (true,
        { clearWordsLoop (bm.usedDepths - 1) words ind bm with
          numBits := bm.numBits - 64 * words }) := by
      rw [← h3]
      simp only [clearRange, bitSize, hnot, if_false, hdivs.1, hdivs.2, hall.2 hset]
    rw [heq]
    refine ⟨rfl, h1.with_numBits _, ⟨h2.1, h2.2, h2.3, h2.4⟩, rfl, fun i hi => ?_⟩
    refine (h4 i hi).trans ?_
    rw [Nat.mul_add]
  · refine .inr ⟨hset, ?_⟩
    have hex := not_not.1 (mt hall.1 hset)
    simp only [clearRange, bitSize, hnot, if_false, hdivs.1, hdivs.2, if_pos hex]

/-- `ClearRange` removes exactly the bits of the range if they are all set, and changes nothing
otherwise. -/
theorem clearRange_spec : (AllSet bm offset count ∧ (bm.clearRange offset count).1 = true ∧
        RangeCleared bm (bm.clearRange offset count).2 nb offset count) ∨
      (¬AllSet bm offset count ∧ bm.clearRange offset count = (false, bm)) := by
  rcases lt_or_ge count 64 with hlt | hge
  · exact clearRange_of_lt h hr hlt
  · exact clearRange_of_ge h hr hge

end

/-! ## Finding a bit -/

/-- From a word that is not zero the loop of `FindFreeBlock` descends to a set bit, and to the lowest
one if no bit below that word is set and none is chosen at random. -/
theorem findFreeBlockLoop_spec (random : Bool) (remaining : Nat) : ∀ (depth offset : Nat)
    (bm : KPageBitmap), Hierarchy bm nb → depth + (remaining + 1) = bm.usedDepths →
      offset < wordsFor (nb depth) → bm.word depth offset ≠ 0 →
      ∃ (i : Nat) (g : RandomBitGenerator),
        findFreeBlockLoop random (remaining + 1) depth offset bm = ((i : Int), { bm with rng := g }) ∧
          i < bm.regionSize nb ∧ bm.leaf i = true ∧
          (random = false → (∀ j < offset, bm.word depth j = 0) → ∀ j < i, bm.leaf j = false) := by
  induction remaining with
  | zero =>
    intro depth offset bm h hdepth hoff hv
    obtain ⟨hlt, hset, hlow⟩ := chooseBit_spec random bm.rng hv
    generalize hk : chooseBit random bm.rng (bm.word depth offset) = k at hlt hset hlow
    have hlast : depth = bm.usedDepths - 1 := by omega
    have hbit : bm.bit depth (offset * 64 + k.1) = true := by
      rwa [bit, show (offset * 64 + k.1) / 64 = offset by omega,
        show (offset * 64 + k.1) % 64 = k.1 by omega]
    refine ⟨offset * 64 + k.1, k.2, ?_, ?_, ?_, ?_⟩
    · simp only [findFreeBlockLoop, if_neg hv, hk, bitSize]
    · by_contra hge
      have htail := h.tail depth (by omega) (offset * 64 + k.1)
        (by rw [hlast]; exact Nat.le_of_not_lt hge)
        (by rw [show (offset * 64 + k.1) / 64 = offset by omega]; exact hoff)
      rw [hbit] at htail
      exact absurd htail (by decide)
    · rw [leaf, ← hlast]
      exact hbit
    · intro hrandom hzero j hj
      rw [leaf, ← hlast, bit]
      rcases lt_or_ge (j / 64) offset with hlt' | hge
      · rw [hzero _ hlt']
        exact getLsbD_zero
      · rw [show j / 64 = offset by omega]
        exact hlow hrandom _ (by omega)
  | succ remaining ih =>
    intro depth offset bm h hdepth hoff hv
    obtain ⟨hlt, hset, hlow⟩ := chooseBit_spec random bm.rng hv
    generalize hk : chooseBit random bm.rng (bm.word depth offset) = k at hlt hset hlow
    have hdiv : (offset * 64 + k.1) / 64 = offset := by omega
    have hbit : bm.bit depth (offset * 64 + k.1) = true := by
      rwa [bit, hdiv, show (offset * 64 + k.1) % 64 = k.1 by omega]
    -- The bit belongs to a word of the next depth, because the bits behind the last word are clear.
    have hnext : offset * 64 + k.1 < nb depth := by
      by_contra hge
      have htail := h.tail depth (by omega) (offset * 64 + k.1) (Nat.le_of_not_lt hge)
        (by rw [hdiv]; exact hoff)
      rw [hbit] at htail
      exact absurd htail (by decide)
    have hword := (h.links depth (by omega) _ hnext).1 hbit
    obtain ⟨i, g, heq, hi, hleaf, hmin⟩ := ih (depth + 1) (offset * 64 + k.1)
      { bm with rng := k.2 } (h.with_rng k.2) (by rw [← hdepth]; omega)
      (by rw [← h.layout.bits_eq depth (by omega)]; exact hnext) hword
    refine ⟨i, g, ?_, hi, hleaf, fun hrandom hzero => hmin hrandom fun j hj => ?_⟩
    · rw [findFreeBlockLoop, if_neg hv, hk]
      exact heq
    · by_contra hne
      have hjbit := (h.links depth (by omega) j (lt_trans hj hnext)).2 hne
      rw [bit] at hjbit
      rcases lt_or_ge (j / 64) offset with hlt' | hge
      · rw [hzero _ hlt'] at hjbit
        simp at hjbit
      · rw [show j / 64 = offset by omega, hlow hrandom _ (by omega)] at hjbit
        exact absurd hjbit (by decide)

/-- If the word at the top is zero, no word is set at any depth. -/
theorem Hierarchy.word_eq_zero (h : Hierarchy bm nb) (htop : bm.word 0 0 = 0) (d : Nat) :
    d < bm.usedDepths → ∀ i < wordsFor (nb d), bm.word d i = 0 := by
  induction d with
  | zero =>
    intro _ i hi
    rw [h.top] at hi
    obtain rfl : i = 0 := by omega
    exact htop
  | succ d ih =>
    intro hd i hi
    by_contra hne
    rw [← h.layout.bits_eq d hd] at hi
    have hbit := (h.links d (by omega) i hi).2 hne
    rw [bit, ih (by omega) (i / 64) (div_lt_wordsFor hi)] at hbit
    simp at hbit

/-- `FindFreeBlock` finds a set bit whenever there is one. -/
theorem findFreeBlock_spec (h : Hierarchy bm nb) (random : Bool) :
    ((∀ i < bm.regionSize nb, bm.leaf i = false) ∧ bm.findFreeBlock random = (-1, bm)) ∨
      ∃ (i : Nat) (g : RandomBitGenerator),
        bm.findFreeBlock random = ((i : Int), { bm with rng := g }) ∧ i < bm.regionSize nb ∧
          bm.leaf i = true ∧ (random = false → ∀ j < i, bm.leaf j = false) := by
  have hdepth : bm.usedDepths = bm.usedDepths - 1 + 1 := (Nat.sub_add_cancel h.depth_pos).symm
  by_cases hv : bm.word 0 0 = 0
  · refine .inl ⟨fun i hi => ?_, ?_⟩
    · rw [leaf, bit, h.word_eq_zero hv _ h.lastDepth_lt _ (div_lt_wordsFor hi)]
      exact getLsbD_zero
    · rw [findFreeBlock, hdepth, findFreeBlockLoop, if_pos hv]
  · obtain ⟨i, g, heq, hi, hleaf, hmin⟩ := findFreeBlockLoop_spec random (bm.usedDepths - 1) 0 0 bm h
      (by omega) (by rw [h.top]; decide) hv
    rw [← hdepth] at heq
    exact .inr ⟨i, g, heq, hi, hleaf, fun hr => hmin hr fun j hj => absurd hj (Nat.not_lt_zero j)⟩

end Operations

end KPageBitmap

end Sudachi.Kernel
