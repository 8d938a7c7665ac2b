import Mathlib.Tactic

/-!
# Alignment

`AlignUp` and `AlignDown` of `alignment.h` on unsigned values.
-/

set_option autoImplicit false

namespace Sudachi.Common

open Nat

def alignUp (value size : Nat) : Nat :=
  let mod := value % size
  let value := value - mod
  if mod = 0 then value else value + size

def alignDown (value size : Nat) : Nat := value - value % size

variable {value size : Nat}

theorem alignDown_eq (value size : Nat) : alignDown value size = value / size * size := by
  have := div_add_mod value size
  rw [alignDown, mul_comm]
  omega

theorem alignUp_eq_of_dvd (h : size ∣ value) : alignUp value size = value := by
  simp [alignUp, mod_eq_zero_of_dvd h]

theorem alignUp_eq_of_not_dvd (h : ¬size ∣ value) :
    alignUp value size = (value / size + 1) * size := by
  have hmod : value % size ≠ 0 := fun h' => h (dvd_of_mod_eq_zero h')
  have hdiv := div_add_mod value size
  rw [alignUp, if_neg hmod, add_mul, one_mul, mul_comm (value / size)]
  omega

theorem dvd_alignUp (value size : Nat) : size ∣ alignUp value size := by
  by_cases h : size ∣ value
  · rw [alignUp_eq_of_dvd h]
    exact h
  · rw [alignUp_eq_of_not_dvd h]
    exact dvd_mul_left size _

theorem dvd_alignDown (value size : Nat) : size ∣ alignDown value size := by
  rw [alignDown_eq]
  exact dvd_mul_left size _

theorem le_alignUp (value size : Nat) (hsize : 0 < size) : value ≤ alignUp value size := by
  by_cases h : size ∣ value
  · rw [alignUp_eq_of_dvd h]
  · rw [alignUp_eq_of_not_dvd h]
    exact le_of_lt (lt_mul_of_div_lt (lt_succ_self _) hsize)

theorem alignUp_lt (value : Nat) (hsize : 0 < size) : alignUp value size < value + size := by
  by_cases h : size ∣ value
  · rw [alignUp_eq_of_dvd h]
    omega
  · have hmod : value % size ≠ 0 := fun h' => h (dvd_of_mod_eq_zero h')
    have hle := mod_le value size
    rw [alignUp, if_neg hmod]
    omega

theorem lt_alignDown_add (value : Nat) (hsize : 0 < size) :
    value < alignDown value size + size := by
  have hlt := mod_lt value hsize
  rw [alignDown]
  omega

theorem alignDown_le (value size : Nat) : alignDown value size ≤ value := sub_le _ _

/-- `AlignUp(value, size) / size` is the number of pieces of the given size that cover the value. -/
theorem alignUp_div (value : Nat) (hsize : 0 < size) :
    alignUp value size / size = (value + size - 1) / size := by
  by_cases h : size ∣ value
  · obtain ⟨k, rfl⟩ := h
    rw [alignUp_eq_of_dvd (dvd_mul_right _ _), Nat.mul_div_cancel_left _ hsize,
      Nat.add_sub_assoc hsize, mul_add_div hsize, div_eq_of_lt (by omega), add_zero]
  · have hlt := mod_lt value hsize
    have hval : value + size - 1 = size * (value / size + 1) + (value % size - 1) := by
      have := div_add_mod value size
      rw [mul_add, mul_one]
      omega
    have hsmall : (value % size - 1) / size = 0 := div_eq_of_lt (by omega)
    rw [alignUp_eq_of_not_dvd h, Nat.mul_div_cancel _ hsize, hval, mul_add_div hsize, hsmall,
      add_zero]

end Sudachi.Common
