import Mathlib.Tactic

/-!
# Machine words as sets of bit positions

A word of width `w` is a set of positions below `w`. The lemmas below say what the usual mask
arithmetic does to that set: setting and clearing one position, the mask of a run of positions, the
two halves of a word, and the position that counting trailing zeros finds.
-/

set_option autoImplicit false

namespace Sudachi.Foundations

open Nat BitVec

variable {w : Nat}
variable {v : BitVec w} {i k n : Nat}

theorem getLsbD_one_shiftLeft (k i : Nat) :
    ((1#w) <<< k).getLsbD i = (decide (i < w) && decide (i = k)) := by
  rw [getLsbD_shiftLeft, getLsbD_one]
  by_cases hi : i < w
  · by_cases hk : i < k
    · have : i ≠ k := by omega
      simp [hi, hk, this]
    · by_cases hik : i = k
      · subst hik
        simp [hi]
        omega
      · have : i - k ≠ 0 := by omega
        simp [hi, hk, hik, this]
  · simp [hi]

theorem getLsbD_or_one_shiftLeft (v : BitVec w) (hi : i < w) :
    (v ||| (1#w) <<< k).getLsbD i = (v.getLsbD i || decide (i = k)) := by
  rw [getLsbD_or, getLsbD_one_shiftLeft, decide_eq_true hi, Bool.true_and]

theorem getLsbD_and_not_one_shiftLeft (v : BitVec w) (hi : i < w) :
    (v &&& ~~~((1#w) <<< k)).getLsbD i = (v.getLsbD i && !decide (i = k)) := by
  rw [getLsbD_and, getLsbD_not, getLsbD_one_shiftLeft, decide_eq_true hi,
    Bool.true_and, Bool.true_and]

theorem or_one_shiftLeft_ne_zero (v : BitVec w) (hk : k < w) : v ||| (1#w) <<< k ≠ 0#w := by
  intro h
  have hbit := congrArg (fun x => x.getLsbD k) h
  simp only [getLsbD_or_one_shiftLeft v hk, decide_true, Bool.or_true, getLsbD_zero] at hbit
  exact absurd hbit (by decide)

theorem ne_zero_of_getLsbD (h : v.getLsbD i = true) : v ≠ 0#w := by
  rintro rfl
  simp at h

theorem eq_zero_iff_getLsbD : v = 0#w ↔ ∀ i < w, v.getLsbD i = false := by
  constructor
  · rintro rfl i _
    exact getLsbD_zero
  · intro h
    refine eq_of_getLsbD_eq fun i hi => ?_
    rw [h i hi, getLsbD_zero]

/-- A word has no bit of a one-bit mask exactly if the bit is clear. -/
theorem and_one_shiftLeft_eq_zero_iff (v : BitVec w) (hk : k < w) :
    v &&& (1#w <<< k) = 0#w ↔ v.getLsbD k = false := by
  rw [eq_zero_iff_getLsbD]
  constructor
  · intro h
    have hbit := h k hk
    rw [getLsbD_and, getLsbD_one_shiftLeft] at hbit
    simpa [hk] using hbit
  · intro h i _
    rw [getLsbD_and, getLsbD_one_shiftLeft]
    by_cases hik : i = k
    · rw [hik, h, Bool.false_and]
    · simp [hik]

/-- The mask of `count` positions from `shift` on. -/
def rangeMask (w count shift : Nat) : BitVec w := ((1#w <<< count) - 1#w) <<< shift

theorem getLsbD_one_shiftLeft_sub_one {count : Nat} (hcount : count < w) :
    ((1#w <<< count) - 1#w).getLsbD i = decide (i < count) := by
  have hpow : 2 ^ count < 2 ^ w := Nat.pow_lt_pow_right (by decide) hcount
  have hone : 1 ≤ 2 ^ count := Nat.one_le_two_pow
  have hval : ((1#w <<< count) - 1#w).toNat = 2 ^ count - 1 := by
    have h1 : (1#w).toNat = 1 := by
      rw [toNat_ofNat, mod_eq_of_lt (by omega)]
    have hshift : (1#w <<< count).toNat = 2 ^ count := by
      rw [toNat_shiftLeft, h1, Nat.shiftLeft_eq, one_mul, mod_eq_of_lt hpow]
    rw [toNat_sub, hshift, h1]
    have hsum : 2 ^ w - 1 + 2 ^ count = (2 ^ count - 1) + 2 ^ w := by omega
    rw [hsum, add_mod_right, mod_eq_of_lt (by omega)]
  rw [getLsbD, hval, testBit_two_pow_sub_one]

theorem getLsbD_rangeMask {count shift : Nat} (hcount : count < w) (hi : i < w) :
    (rangeMask w count shift).getLsbD i = (decide (shift ≤ i) && decide (i < shift + count)) := by
  rw [rangeMask, getLsbD_shiftLeft, getLsbD_one_shiftLeft_sub_one hcount]
  by_cases h : i < shift
  · simp [hi, h]
  · have h1 : shift ≤ i := Nat.le_of_not_lt h
    have h2 : i - shift < count ↔ i < shift + count := by omega
    simp [hi, h1, h2]

/-- A word covers a mask when every position of the mask is set. -/
theorem and_eq_right_iff {mask : BitVec w} :
    v &&& mask = mask ↔ ∀ i < w, mask.getLsbD i = true → v.getLsbD i = true := by
  constructor
  · intro h i _ hm
    have hbit := congrArg (fun x => x.getLsbD i) h
    simp only [getLsbD_and, hm, Bool.and_true] at hbit
    exact hbit
  · intro h
    refine eq_of_getLsbD_eq fun i hi => ?_
    rw [getLsbD_and]
    cases hm : mask.getLsbD i with
    | false => rw [Bool.and_false]
    | true => rw [h i hi hm, Bool.and_true]

/-! The two parts of a word. -/

theorem getLsbD_and_not_allOnes_shiftLeft (v : BitVec w) (n i : Nat) :
    (v &&& ~~~(allOnes w <<< n)).getLsbD i = (v.getLsbD i && decide (i < n)) := by
  rw [getLsbD_and, getLsbD_not, getLsbD_shiftLeft, getLsbD_allOnes]
  by_cases hi : i < w
  · by_cases hn : i < n
    · simp [hi, hn]
    · simp [hi, hn]
      omega
  · simp [getLsbD_of_ge v i (Nat.le_of_not_lt hi)]

theorem ctz_toNat_lt (h : v ≠ 0#w) : v.ctz.toNat < w := by
  by_contra hge
  have hbit := getLsbD_true_ctz_of_ne_zero h
  rw [getLsbD_of_ge v _ (Nat.le_of_not_lt hge)] at hbit
  exact absurd hbit (by decide)

theorem clz_toNat_lt (h : v ≠ 0#w) : v.clz.toNat < w := by
  have hlt := clz_lt_iff_ne_zero.mpr h
  rw [lt_def, natCast_eq_ofNat, toNat_ofNat, mod_eq_of_lt Nat.lt_two_pow_self] at hlt
  exact hlt

/-- The last one of a word is before its leading zeros. -/
theorem lt_sub_clz_of_getLsbD (h : v.getLsbD i = true) : i < w - v.clz.toNat := by
  by_contra hge
  have hlt : v.toNat < 2 ^ i := lt_of_lt_of_le toNat_lt_two_pow_sub_clz
    (Nat.pow_le_pow_right (by decide) (Nat.le_of_not_lt hge))
  rw [getLsbD, testBit_lt_two_pow hlt] at h
  cases h

/-! The ones at the end of a word. -/

/-- The number of ones below the first zero. -/
def trailingOnes (v : BitVec w) : Nat := (~~~v).ctz.toNat

theorem ctz_zero_toNat : (0#w).ctz.toNat = w := by
  have hreverse : (0#w).reverse = 0#w := reverse_eq_zero_iff.mpr rfl
  rw [ctz, hreverse, clz_eq_iff_eq_zero.mpr rfl, natCast_eq_ofNat,
    toNat_ofNat, mod_eq_of_lt Nat.lt_two_pow_self]

theorem trailingOnes_le (v : BitVec w) : trailingOnes v ≤ w := by
  by_cases h : ~~~v = 0#w
  · rw [trailingOnes, h, ctz_zero_toNat]
  · exact le_of_lt (ctz_toNat_lt h)

theorem getLsbD_of_lt_trailingOnes (h : i < trailingOnes v) : v.getLsbD i = true := by
  have hbit : (~~~v).getLsbD i = false := getLsbD_false_of_lt_ctz h
  have hi : i < w := lt_of_lt_of_le h (trailingOnes_le v)
  rw [getLsbD_not, decide_eq_true hi, Bool.true_and] at hbit
  simpa using hbit

theorem getLsbD_trailingOnes (v : BitVec w) : v.getLsbD (trailingOnes v) = false := by
  by_cases h : ~~~v = 0#w
  · rw [trailingOnes, h, ctz_zero_toNat]
    exact getLsbD_of_ge v w (le_refl w)
  · have hbit : (~~~v).getLsbD (trailingOnes v) = true := getLsbD_true_ctz_of_ne_zero h
    rw [getLsbD_not, Bool.and_eq_true] at hbit
    simpa using hbit.2

theorem trailingOnes_pos (h : v.getLsbD 0 = true) : 0 < trailingOnes v := by
  by_contra hzero
  have hbit := getLsbD_trailingOnes v
  rw [Nat.eq_zero_of_not_pos hzero, h] at hbit
  cases hbit

theorem testBit_eq_getLsbD_ofNat (hlt : n < 2 ^ w) (i : Nat) :
    n.testBit i = (BitVec.ofNat w n).getLsbD i := by
  rw [getLsbD, toNat_ofNat, mod_eq_of_lt hlt]

theorem ofNat_ne_zero (hpos : 0 < n) (hlt : n < 2 ^ w) : BitVec.ofNat w n ≠ 0#w := by
  intro h
  have := congrArg BitVec.toNat h
  rw [toNat_ofNat, mod_eq_of_lt hlt] at this
  exact absurd this (ne_of_gt hpos)

/-- The number of trailing zeros is the exponent of the largest power of two that divides. -/
theorem two_pow_dvd_iff_le_ctz {t : Nat} (hpos : 0 < n) (hlt : n < 2 ^ w) :
    2 ^ t ∣ n ↔ t ≤ (BitVec.ofNat w n).ctz.toNat := by
  constructor
  · rintro ⟨m, rfl⟩
    by_contra hcon
    have hbit := getLsbD_true_ctz_of_ne_zero (ofNat_ne_zero hpos hlt)
    rw [← testBit_eq_getLsbD_ofNat hlt, testBit_two_pow_mul] at hbit
    simp only [ge_iff_le, Bool.and_eq_true, decide_eq_true_eq] at hbit
    exact hcon hbit.1
  · intro hle
    refine dvd_of_mod_eq_zero (eq_of_testBit_eq fun i => ?_)
    rw [testBit_mod_two_pow, zero_testBit]
    by_cases hi : i < t
    · rw [testBit_eq_getLsbD_ofNat hlt,
        getLsbD_false_of_lt_ctz (lt_of_lt_of_le hi hle), Bool.and_false]
    · rw [decide_eq_false hi, Bool.false_and]

end Sudachi.Foundations
