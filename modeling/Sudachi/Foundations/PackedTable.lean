import Mathlib.Data.BitVec
import Mathlib.Logic.Function.Basic
import Mathlib.Tactic.Common

/-!
# Tables of small fields

A table of fields of `b` bits, `n` of them packed in each word. Writing a field changes that field
and leaves the others, those of the same word included, as they are.
-/

set_option autoImplicit false

namespace Sudachi.Foundations.PackedTable

open BitVec

variable {w : Nat}

/-- The lowest `b` bits. -/
def lowMask (w b : Nat) : BitVec w := BitVec.ofNat w (2 ^ b - 1)

/-- The field of a table. -/
def field (b n : Nat) (words : Nat → BitVec w) (i : Nat) : BitVec w :=
  (words (i / n) >>> (b * (i % n))) &&& lowMask w b

/-- The table with a field replaced. -/
def setField (b n : Nat) (words : Nat → BitVec w) (i : Nat) (x : BitVec w) : Nat → BitVec w :=
  Function.update words (i / n)
    ((~~~(lowMask w b <<< (b * (i % n))) &&& words (i / n)) ||| (x <<< (b * (i % n))))

variable {b n i j k : Nat} {words : Nat → BitVec w} {x v : BitVec w}

theorem getLsbD_lowMask : (lowMask w b).getLsbD k = (decide (k < w) && decide (k < b)) := by
  rw [lowMask, getLsbD_ofNat, Nat.testBit_two_pow_sub_one]

theorem getLsbD_of_lowMask (hx : x &&& lowMask w b = x) (hk : b ≤ k) : x.getLsbD k = false := by
  rw [← hx, getLsbD_and, getLsbD_lowMask, decide_eq_false (Nat.not_lt.mpr hk),
    Bool.and_false, Bool.and_false]

/-- The field that has been written. -/
theorem replaced_self (hx : x &&& lowMask w b = x) (hroom : i + b ≤ w) :
    (((~~~(lowMask w b <<< i) &&& v) ||| (x <<< i)) >>> i) &&& lowMask w b = x := by
  refine eq_of_getLsbD_eq fun k hk => ?_
  rw [getLsbD_and, getLsbD_ushiftRight, getLsbD_or, getLsbD_and, getLsbD_not, getLsbD_shiftLeft,
    getLsbD_shiftLeft, getLsbD_lowMask, getLsbD_lowMask, Nat.add_sub_cancel_left]
  by_cases hkb : k < b
  · have hin : i + k < w := by omega
    have hge : ¬i + k < i := Nat.not_lt.mpr (Nat.le_add_right i k)
    simp [hkb, hin, hk, hge]
  · rw [getLsbD_of_lowMask hx (Nat.le_of_not_lt hkb)]
    simp [hkb]

/-- A field of the same word that has not been written. -/
theorem replaced_of_disjoint (hx : x &&& lowMask w b = x) (hdisjoint : i + b ≤ j ∨ j + b ≤ i) :
    (((~~~(lowMask w b <<< i) &&& v) ||| (x <<< i)) >>> j) &&& lowMask w b =
      (v >>> j) &&& lowMask w b := by
  refine eq_of_getLsbD_eq fun k hk => ?_
  rw [getLsbD_and, getLsbD_ushiftRight, getLsbD_or, getLsbD_and, getLsbD_not, getLsbD_shiftLeft,
    getLsbD_shiftLeft, getLsbD_lowMask, getLsbD_and, getLsbD_ushiftRight, getLsbD_lowMask]
  by_cases hkb : k < b
  · rcases hdisjoint with hbefore | hafter
    · -- the field lies above the one that is written
      have hge : b ≤ j + k - i := by omega
      rw [getLsbD_of_lowMask hx hge]
      by_cases hin : j + k < w
      · simp [hin, hk, hkb, Nat.not_lt.mpr hge]
      · simp [hin, getLsbD_of_ge v _ (Nat.le_of_not_lt hin)]
    · have hlt : j + k < i := by omega
      by_cases hin : j + k < w
      · simp [hin, hlt]
      · simp [hin, getLsbD_of_ge v _ (Nat.le_of_not_lt hin)]
  · simp [hkb]

/-- Writing a field of a table. -/
theorem field_setField (hroom : b * n ≤ w) (hn : 0 < n) (hx : x &&& lowMask w b = x) :
    field b n (setField b n words i x) j = if j = i then x else field b n words j := by
  have hmod : ∀ i, b * (i % n) + b ≤ b * n := fun i => by
    rw [← Nat.mul_succ]
    exact Nat.mul_le_mul_left _ (Nat.mod_lt i hn)
  rw [field, setField]
  split
  case isTrue heq =>
    rw [heq, Function.update_self]
    exact replaced_self hx (le_trans (hmod i) hroom)
  case isFalse hne =>
    by_cases hword : j / n = i / n
    · have hdisjoint : b * (i % n) + b ≤ b * (j % n) ∨ b * (j % n) + b ≤ b * (i % n) := by
        have hrest : i % n ≠ j % n := fun h => hne (by
          rw [← Nat.div_add_mod j n, ← Nat.div_add_mod i n, hword, h])
        rw [← Nat.mul_succ, ← Nat.mul_succ]
        rcases Nat.lt_or_gt_of_ne hrest with hlt | hgt
        · exact .inl (Nat.mul_le_mul_left _ hlt)
        · exact .inr (Nat.mul_le_mul_left _ hgt)
      rw [hword, Function.update_self, replaced_of_disjoint hx hdisjoint, field, hword]
    · rw [Function.update_of_ne hword, field]

end Sudachi.Foundations.PackedTable
