import Sudachi.Kernel.PageBitmap

/-!
# The hierarchy of the page bitmap

A level of `nb d` bits is stored in `wordsFor (nb d)` words, and each word has one bit at the level
above it. `Hierarchy` says that every such bit is set exactly when its word is not zero. All writers
follow one scheme: they rewrite a word of some depth and then repair the bit above it
(`WordWritten.step`), so that the invariant is proved once for the three of them.
-/

set_option autoImplicit false

namespace Sudachi.Kernel

open Sudachi.Common Sudachi.Foundations

namespace KPageBitmap

variable {nb : Nat → Nat} {bm bm' : KPageBitmap} {v : BitVec 64} {ind : Nat}

theorem wordsFor_eq (n : Nat) : wordsFor n = (n + 63) / 64 := alignUp_div n (by decide)

theorem div_lt_wordsFor {n i : Nat} (h : i < n) : i / 64 < wordsFor n := by
  rw [wordsFor_eq]
  omega

/-- `m_bit_storages[depth]` as a sequence of bits. -/
def bit (bm : KPageBitmap) (depth i : Nat) : Bool := (bm.word depth (i / 64)).getLsbD (i % 64)

/-! ## Layout -/

/-- The depths own disjoint parts of the storage, and each has one bit for every word of the depth
below it. -/
structure Layout (bm : KPageBitmap) (nb : Nat → Nat) : Prop where
  bits_eq : ∀ d, d + 1 < bm.usedDepths → nb d = wordsFor (nb (d + 1))
  injective : ∀ d d' i i', d < bm.usedDepths → d' < bm.usedDepths → i < wordsFor (nb d) →
    i' < wordsFor (nb d') → bm.bitStorages d + i = bm.bitStorages d' + i' → d = d' ∧ i = i'

/-- The two bitmaps differ in the contents of the storage at most. -/
structure SameShape (bm bm' : KPageBitmap) : Prop where
  bitStorages : bm'.bitStorages = bm.bitStorages
  endStorages : bm'.endStorages = bm.endStorages
  usedDepths : bm'.usedDepths = bm.usedDepths
  rng : bm'.rng = bm.rng
  numBits : bm'.numBits = bm.numBits

theorem SameShape.trans {a b c : KPageBitmap} (h : SameShape a b) (h' : SameShape b c) :
    SameShape a c :=
  ⟨h'.1.trans h.1, h'.2.trans h.2, h'.3.trans h.3, h'.4.trans h.4, h'.5.trans h.5⟩

theorem sameShape_setWord (bm : KPageBitmap) (depth ind : Nat) (v : BitVec 64) :
    SameShape bm (bm.setWord depth ind v) := ⟨rfl, rfl, rfl, rfl, rfl⟩

theorem Layout.congr (h : Layout bm nb) (hs : SameShape bm bm') : Layout bm' nb := by
  constructor
  · rw [hs.usedDepths]
    exact h.bits_eq
  · rw [hs.usedDepths, hs.bitStorages]
    exact h.injective

section SetWord

variable {bm : KPageBitmap} {nb : Nat → Nat} {d ind : Nat} {v : BitVec 64}

theorem word_setWord_self : (bm.setWord d ind v).word d ind = v := Function.update_self ..

theorem word_setWord (hl : Layout bm nb) (hd : d < bm.usedDepths) (hind : ind < wordsFor (nb d))
    {d' i : Nat} (hd' : d' < bm.usedDepths) (hi : i < wordsFor (nb d')) :
    (bm.setWord d ind v).word d' i = if d' = d ∧ i = ind then v else bm.word d' i := by
  by_cases h : d' = d ∧ i = ind
  · obtain ⟨rfl, rfl⟩ := h
    rw [if_pos ⟨rfl, rfl⟩]
    exact word_setWord_self
  · rw [if_neg h]
    refine Function.update_of_ne (fun heq => h ?_) _ _
    exact hl.injective d' d i ind hd' hd hi hind heq

end SetWord

/-! ## Writing a word and repairing the levels above it -/

/-- Every bit above the depth `d` is set exactly when its word is not zero. -/
def LinksAbove (bm : KPageBitmap) (nb : Nat → Nat) (d : Nat) : Prop :=
  ∀ d' < d, ∀ j < nb d', bm.bit d' j = true ↔ bm.word (d' + 1) j ≠ 0

/-- The bitmap `bm'` is `bm` with the word `ind` of the depth `d` replaced by `v` and the bits above
it repaired. -/
structure WordWritten (bm bm' : KPageBitmap) (nb : Nat → Nat) (d ind : Nat) (v : BitVec 64) :
    Prop where
  shape : SameShape bm bm'
  written : ∀ i < wordsFor (nb d), bm'.word d i = if i = ind then v else bm.word d i
  below : ∀ d', d < d' → d' < bm.usedDepths → ∀ i < wordsFor (nb d'), bm'.word d' i = bm.word d' i
  links : LinksAbove bm' nb d
  tail : ∀ d' < d, ∀ i, nb d' ≤ i → i / 64 < wordsFor (nb d') → bm'.bit d' i = bm.bit d' i
  outside : ∀ p, (∀ d' < bm.usedDepths, ∀ i < wordsFor (nb d'), p ≠ bm.bitStorages d' + i) →
    bm'.storage p = bm.storage p

section Write

variable {bm bm' : KPageBitmap} {nb : Nat → Nat} {d ind : Nat} {v : BitVec 64}

theorem storage_setWord_of_outside (hd : d < bm.usedDepths) (hind : ind < wordsFor (nb d)) {p : Nat}
    (hp : ∀ d' < bm.usedDepths, ∀ i < wordsFor (nb d'), p ≠ bm.bitStorages d' + i) :
    (bm.setWord d ind v).storage p = bm.storage p :=
  Function.update_of_ne (hp d hd ind hind) _ _

/-- The bits above the word's own level do not see the write. -/
theorem bit_setWord_of_ne (hl : Layout bm nb) (hd : d < bm.usedDepths)
    (hind : ind < wordsFor (nb d)) {d' i : Nat} (hd' : d' < bm.usedDepths) (hne : d' ≠ d)
    (hi : i / 64 < wordsFor (nb d')) : (bm.setWord d ind v).bit d' i = bm.bit d' i := by
  rw [bit, word_setWord hl hd hind hd' hi, if_neg fun h => hne h.1]
  rfl

/-- If the word is zero after the write exactly when it was before, the bits above are right. -/
theorem wordWritten_of_iff (hl : Layout bm nb) (hd : d < bm.usedDepths)
    (hind : ind < wordsFor (nb d)) (hlinks : LinksAbove bm nb d)
    (hiff : d ≠ 0 → (v ≠ 0 ↔ bm.word d ind ≠ 0)) :
    WordWritten bm (bm.setWord d ind v) nb d ind v := by
  refine ⟨sameShape_setWord .., ?_, ?_, ?_, ?_, ?_⟩
  · intro i hi
    rw [word_setWord hl hd hind hd hi]
    simp only [true_and]
  · intro d' hlt hd' i hi
    rw [word_setWord hl hd hind hd' hi, if_neg (by omega)]
  · intro d' hd' j hj
    have hwords : nb d' = wordsFor (nb (d' + 1)) := hl.bits_eq d' (by omega)
    rw [bit_setWord_of_ne hl hd hind (by omega) (by omega) (div_lt_wordsFor hj),
      word_setWord hl hd hind (by omega) (hwords ▸ hj), hlinks d' hd' j hj]
    by_cases h : d' + 1 = d ∧ j = ind
    · obtain ⟨rfl, rfl⟩ := h
      rw [if_pos ⟨rfl, rfl⟩, hiff (by omega)]
    · rw [if_neg h]
  · intro d' hd' i _ hi
    exact bit_setWord_of_ne hl hd hind (by omega) (by omega) hi
  · intro p hp
    exact storage_setWord_of_outside hd hind hp

/-- Otherwise the bit above has to be rewritten, one level up. -/
theorem WordWritten.step (hl : Layout bm nb) {e : Nat} (hd : e + 1 < bm.usedDepths)
    (hind : ind < wordsFor (nb (e + 1))) {u : BitVec 64}
    (h : WordWritten (bm.setWord (e + 1) ind v) bm' nb e (ind / 64) u) (hu : ∀ k < 64, u.getLsbD k =
      if k = ind % 64 then decide (v ≠ 0) else (bm.word e (ind / 64)).getLsbD k)
    (hlinks : LinksAbove bm nb (e + 1)) : WordWritten bm bm' nb (e + 1) ind v := by
  have hwords : nb e = wordsFor (nb (e + 1)) := hl.bits_eq e hd
  have hinde : ind < nb e := by rw [hwords]; exact hind
  have hbelow : ∀ i < wordsFor (nb (e + 1)), bm'.word (e + 1) i =
      if i = ind then v else bm.word (e + 1) i := by
    intro i hi
    rw [h.below (e + 1) (Nat.lt_succ_self e) hd i hi, word_setWord hl hd hind hd hi]
    simp only [true_and]
  -- The bits of the level above, after the repair.
  have hbits : ∀ j, j / 64 < wordsFor (nb e) → bm'.bit e j =
      if j = ind then decide (v ≠ 0) else bm.bit e j := by
    intro j hj
    rw [bit, h.written (j / 64) hj]
    by_cases hword : j / 64 = ind / 64
    · rw [if_pos hword, hu _ (Nat.mod_lt j (by decide))]
      by_cases hjind : j = ind
      · rw [if_pos (by rw [hjind]), if_pos hjind]
      · rw [if_neg (by omega), if_neg hjind, bit, hword]
    · rw [if_neg hword, if_neg (by rintro rfl; exact hword rfl), bit,
        word_setWord hl hd hind (by omega) hj, if_neg (by omega)]
  refine ⟨(sameShape_setWord ..).trans h.shape, hbelow, ?_, ?_, ?_, ?_⟩
  · intro d' hlt hd' i hi
    rw [h.below d' (by omega) hd' i hi, word_setWord hl hd hind hd' hi, if_neg (by omega)]
  · intro d' hd' j hj
    rcases lt_or_ge d' e with hlt | hge
    · exact h.links d' hlt j hj
    · obtain rfl : d' = e := by omega
      rw [hbits j (div_lt_wordsFor hj), hbelow j (hwords ▸ hj)]
      by_cases hjind : j = ind
      · rw [if_pos hjind, if_pos hjind, decide_eq_true_eq]
      · rw [if_neg hjind, if_neg hjind]
        exact hlinks d' (Nat.lt_succ_self d') j hj
  · intro d' hd' i hnb hi
    rcases lt_or_ge d' e with hlt | hge
    · rw [h.tail d' hlt i hnb hi]
      exact bit_setWord_of_ne hl hd hind (by omega) (by omega) hi
    · obtain rfl : d' = e := by omega
      rw [hbits i hi, if_neg (by omega)]
  · intro p hp
    rw [h.outside p hp]
    exact storage_setWord_of_outside hd hind hp

end Write

/-! ## The loops -/

theorem LinksAbove.setWord {e : Nat}
    (hl : Layout bm nb) (hd : e + 1 < bm.usedDepths) (hind : ind < wordsFor (nb (e + 1)))
    (h : LinksAbove bm nb (e + 1)) : LinksAbove (bm.setWord (e + 1) ind v) nb e := by
  intro d' hd' j hj
  have hwords : nb d' = wordsFor (nb (d' + 1)) := hl.bits_eq d' (by omega)
  rw [bit_setWord_of_ne hl hd hind (by omega) (by omega) (div_lt_wordsFor hj),
    word_setWord hl hd hind (by omega) (hwords ▸ hj), if_neg (by omega)]
  exact h d' (by omega) j hj

/-- The loop of `SetBit` sets the bit and repairs the levels above. -/
theorem setBitLoop_spec (d : Nat) : ∀ (offset : Nat) (bm : KPageBitmap),
    Layout bm nb → d < bm.usedDepths → offset / 64 < wordsFor (nb d) → LinksAbove bm nb d →
      WordWritten bm (setBitLoop (d + 1) offset bm) nb d (offset / 64)
        (bm.word d (offset / 64) ||| 1#64 <<< (offset % 64)) := by
  induction d with
  | zero =>
    intro offset bm hl hd hind hlinks
    have heq : setBitLoop 1 offset bm = bm.setWord 0 (offset / 64)
        (bm.word 0 (offset / 64) ||| 1#64 <<< (offset % 64)) := ite_self _
    rw [heq]
    exact wordWritten_of_iff hl hd hind hlinks fun h => absurd rfl h
  | succ e ih =>
    intro offset bm hl hd hind hlinks
    have hne : bm.word (e + 1) (offset / 64) ||| 1#64 <<< (offset % 64) ≠ 0 :=
      or_one_shiftLeft_ne_zero _ (Nat.mod_lt offset (by decide))
    by_cases hv : bm.word (e + 1) (offset / 64) = 0
    · have heq : setBitLoop (e + 2) offset bm = setBitLoop (e + 1) (offset / 64)
          (bm.setWord (e + 1) (offset / 64)
            (bm.word (e + 1) (offset / 64) ||| 1#64 <<< (offset % 64))) :=
        if_neg (not_not.2 hv)
      rw [heq]
      have hup : offset / 64 / 64 < wordsFor (nb e) :=
        div_lt_wordsFor (by rw [hl.bits_eq e hd]; exact hind)
      refine WordWritten.step hl hd hind
        (ih (offset / 64) _ (hl.congr (sameShape_setWord ..)) (Nat.lt_of_succ_lt hd) hup
          (hlinks.setWord hl hd hind)) (fun k hk => ?_) hlinks
      rw [getLsbD_or_one_shiftLeft _ hk,
        word_setWord hl hd hind (Nat.lt_of_succ_lt hd) hup, if_neg (by omega), decide_eq_true hne]
      by_cases hkind : k = offset / 64 % 64
      · rw [if_pos hkind, decide_eq_true hkind, Bool.or_true]
      · rw [if_neg hkind, decide_eq_false hkind, Bool.or_false]
    · have heq : setBitLoop (e + 2) offset bm = bm.setWord (e + 1) (offset / 64)
          (bm.word (e + 1) (offset / 64) ||| 1#64 <<< (offset % 64)) := if_pos hv
      rw [heq]
      exact wordWritten_of_iff hl hd hind hlinks fun _ => iff_of_true hne hv

theorem clearBitLoop_succ (d offset : Nat) (bm : KPageBitmap) : clearBitLoop (d + 1) offset bm =
      if bm.word d (offset / 64) &&& ~~~(1#64 <<< (offset % 64)) = 0 then
        clearBitLoop d (offset / 64) (bm.setWord d (offset / 64)
          (bm.word d (offset / 64) &&& ~~~(1#64 <<< (offset % 64))))
      else bm.setWord d (offset / 64)
        (bm.word d (offset / 64) &&& ~~~(1#64 <<< (offset % 64))) := ite_not ..

theorem ne_zero_of_and_ne_zero {mask : BitVec 64} (h : v &&& mask ≠ 0) : v ≠ 0 := by
  rintro rfl
  exact h BitVec.zero_and

/-- Rewriting a word by a smaller one: a word that becomes zero clears its bit above, which is the
loop of `ClearBit` one level up. -/
theorem wordWritten_clear (d : Nat) : ∀ (ind : Nat) (v : BitVec 64)
    (bm : KPageBitmap), Layout bm nb → d < bm.usedDepths → ind < wordsFor (nb d) →
      LinksAbove bm nb d → (v ≠ 0 → bm.word d ind ≠ 0) → WordWritten bm
        (if v = 0 then clearBitLoop d ind (bm.setWord d ind v) else bm.setWord d ind v) nb d ind
        v := by
  induction d with
  | zero =>
    intro ind v bm hl hd hind hlinks _
    have heq : (if v = 0 then clearBitLoop 0 ind (bm.setWord 0 ind v) else bm.setWord 0 ind v) =
        bm.setWord 0 ind v := ite_self _
    rw [heq]
    exact wordWritten_of_iff hl hd hind hlinks fun h => absurd rfl h
  | succ e ih =>
    intro ind v bm hl hd hind hlinks hv
    by_cases hzero : v = 0
    · rw [if_pos hzero, clearBitLoop_succ]
      have hup : ind / 64 < wordsFor (nb e) := div_lt_wordsFor (by rw [hl.bits_eq e hd]; exact hind)
      refine WordWritten.step hl hd hind
        (ih (ind / 64) _ _ (hl.congr (sameShape_setWord ..)) (Nat.lt_of_succ_lt hd) hup
          (hlinks.setWord hl hd hind) ne_zero_of_and_ne_zero) (fun k hk => ?_) hlinks
      rw [getLsbD_and_not_one_shiftLeft _ hk, word_setWord hl hd hind (Nat.lt_of_succ_lt hd) hup,
        if_neg (by omega), decide_eq_false (not_not.2 hzero)]
      by_cases hkind : k = ind % 64
      · rw [if_pos hkind, decide_eq_true hkind, Bool.not_true, Bool.and_false]
      · rw [if_neg hkind, decide_eq_false hkind, Bool.not_false, Bool.and_true]
    · rw [if_neg hzero]
      exact wordWritten_of_iff hl hd hind hlinks fun _ => iff_of_true hzero (hv hzero)

/-- The loop of `ClearBit` clears the bit and repairs the levels above. -/
theorem clearBitLoop_spec {d offset : Nat} (hl : Layout bm nb)
    (hd : d < bm.usedDepths) (hind : offset / 64 < wordsFor (nb d)) (hlinks : LinksAbove bm nb d) :
    WordWritten bm (clearBitLoop (d + 1) offset bm) nb d (offset / 64)
      (bm.word d (offset / 64) &&& ~~~(1#64 <<< (offset % 64))) := by
  rw [clearBitLoop_succ]
  exact wordWritten_clear d _ _ bm hl hd hind hlinks ne_zero_of_and_ne_zero

/-! ## The invariant -/

/-- The hierarchy invariant of a bitmap whose depth `d` has `nb d` bits. -/
structure Hierarchy (bm : KPageBitmap) (nb : Nat → Nat) : Prop where
  layout : Layout bm nb
  depth_pos : 0 < bm.usedDepths
  top : wordsFor (nb 0) = 1
  links : LinksAbove bm nb (bm.usedDepths - 1)
  tail : ∀ d < bm.usedDepths, ∀ i, nb d ≤ i → i / 64 < wordsFor (nb d) → bm.bit d i = false

/-- The bits of the last depth. -/
def leaf (bm : KPageBitmap) (i : Nat) : Bool := bm.bit (bm.usedDepths - 1) i

/-- Rewriting a leaf word keeps the invariant, as long as it sets no bit behind the region. -/
theorem Hierarchy.of_wordWritten
    (h : Hierarchy bm nb) (hw : WordWritten bm bm' nb (bm.usedDepths - 1) ind v)
    (htail : ∀ k < 64, nb (bm.usedDepths - 1) ≤ 64 * ind + k → v.getLsbD k = false) :
    Hierarchy bm' nb := by
  refine ⟨h.layout.congr hw.shape, ?_, h.top, ?_, ?_⟩
  · rw [hw.shape.usedDepths]
    exact h.depth_pos
  · rw [hw.shape.usedDepths]
    exact hw.links
  · intro d hd i hnb hi
    rw [hw.shape.usedDepths] at hd
    rcases lt_or_ge d (bm.usedDepths - 1) with hlt | hge
    · rw [hw.tail d hlt i hnb hi]
      exact h.tail d hd i hnb hi
    · obtain rfl : d = bm.usedDepths - 1 := by omega
      rw [bit, hw.written _ hi]
      by_cases hind : i / 64 = ind
      · rw [if_pos hind]
        exact htail _ (Nat.mod_lt i (by decide)) (by omega)
      · rw [if_neg hind]
        exact h.tail _ hd i hnb hi

theorem leaf_of_wordWritten (hw : WordWritten bm bm' nb (bm.usedDepths - 1) ind v) {i : Nat}
    (hi : i < nb (bm.usedDepths - 1)) :
    bm'.leaf i = if i / 64 = ind then v.getLsbD (i % 64) else bm.leaf i := by
  rw [leaf, hw.shape.usedDepths, bit, hw.written _ (div_lt_wordsFor hi)]
  by_cases hind : i / 64 = ind
  · rw [if_pos hind, if_pos hind]
  · rw [if_neg hind, if_neg hind]
    rfl

end KPageBitmap

end Sudachi.Kernel
