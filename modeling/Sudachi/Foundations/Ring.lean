import Mathlib.Data.Nat.ModEq
import Mathlib.Logic.Function.Basic

/-!
# Positions in a ring

The elements of a sequence lie in a ring of `N` cells, the element `n` in the cell `n % N`. As long
as no more than `N` of them are there at a time, each has a cell of its own. An index into the ring
is the position of an element up to rounds, and `back` takes a number of steps back from it.
-/

set_option autoImplicit false

namespace Sudachi.Foundations.Ring

open List Nat Function

variable {α : Type} {N : Nat}

/-- The cell `count` steps before a cell, where at most one round is made. -/
def back (N index count : Nat) : Nat := if index < count then index + N - count else index - count

theorem back_mod {position count : Nat} (hround : count ≤ N) (hstart : count ≤ position) :
    back N (position % N) count = (position - count) % N := by
  rcases Nat.eq_zero_or_pos N with rfl | hpos
  · obtain rfl : count = 0 := le_zero.mp hround
    rfl
  · have hlt := mod_lt position hpos
    have hsplit := div_add_mod position N
    generalize position % N = cell at *
    generalize position / N = rounds at *
    subst hsplit
    rw [back]
    by_cases hcell : cell < count
    · cases rounds with
      | zero => omega
      | succ rounds =>
        have hposition : N * (rounds + 1) + cell - count = cell + N - count + N * rounds := by
          rw [mul_succ]
          omega
        rw [if_pos hcell, hposition, add_mul_mod_self_left, mod_eq_of_lt (by omega)]
    · have hposition : N * rounds + cell - count = cell - count + N * rounds := by omega
      rw [if_neg hcell, hposition, add_mul_mod_self_left, mod_eq_of_lt (by omega)]

/-- Two positions within one round have different cells. -/
theorem position_eq_of_mod {first m n : Nat} (hm : first ≤ m) (hm' : m < first + N)
    (hn : first ≤ n) (hn' : n < first + N) (h : m % N = n % N) : m = n := by
  have hmod : m ≡ n [MOD N] := h
  rcases le_total m n with hle | hle
  · have hzero := eq_zero_of_dvd_of_lt ((modEq_iff_dvd' hle).mp hmod) (by omega)
    omega
  · have hzero := eq_zero_of_dvd_of_lt ((modEq_iff_dvd' hle).mp hmod.symm) (by omega)
    omega

/-- The cells hold the elements of a sequence from one position to another. -/
def Holds (N : Nat) (cell : Nat → α) (element : Nat → α) (first last : Nat) : Prop :=
  ∀ n, first ≤ n → n < last → cell (n % N) = element n

variable {cell element : Nat → α} {first last : Nat}

theorem Holds.mono (h : Holds N cell element first last) {first' last' : Nat}
    (hfirst : first ≤ first') (hlast : last' ≤ last) : Holds N cell element first' last' :=
  fun n hn hn' => h n (le_trans hfirst hn) (lt_of_lt_of_le hn' hlast)

/-- A new element goes behind the last one. -/
theorem Holds.append (h : Holds N cell element first last) (hle : first ≤ last)
    (hroom : last < first + N) :
    Holds N (update cell (last % N) (element last)) element first (last + 1) := by
  intro n hn hn'
  by_cases hlast : n = last
  · subst hlast
    exact update_self _ _ _
  · have hne : n % N ≠ last % N := fun hmod =>
      hlast (position_eq_of_mod hn (by omega) hle hroom hmod)
    rw [update_of_ne hne]
    exact h n hn (by omega)

/-- The cell of the first element is free once the element is gone. -/
theorem Holds.release (h : Holds N cell element first last) (hround : last ≤ first + N) (x : α) :
    Holds N (update cell (first % N) x) element (first + 1) last := by
  intro n hn hn'
  have hne : n % N ≠ first % N := fun hmod =>
    absurd (position_eq_of_mod (le_of_succ_le hn) (by omega) (le_refl first) (by omega)
      hmod) (by omega)
  rw [update_of_ne hne]
  exact h n (le_of_succ_le hn) hn'

/-! ## The elements between two positions -/

/-- The elements from one position to another, in order. -/
def between (element : Nat → α) (first last : Nat) : List α :=
  (range' first (last - first)).map element

theorem between_self (element : Nat → α) (first : Nat) : between element first first = [] := by
  rw [between, Nat.sub_self]
  rfl

theorem between_append (element : Nat → α) {middle : Nat} (hfirst : first ≤ middle)
    (hlast : middle ≤ last) :
    between element first middle ++ between element middle last = between element first last := by
  have hmiddle : first + (middle - first) = middle := by omega
  have hcount : middle - first + (last - middle) = last - first := by omega
  have hrange := range'_append_1 (s := first) (m := middle - first) (n := last - middle)
  rw [hmiddle, hcount] at hrange
  rw [between, between, between, ← map_append, hrange]

theorem between_succ (element : Nat → α) (first : Nat) :
    between element first (first + 1) = [element first] := by
  rw [between, Nat.add_sub_cancel_left]
  rfl

theorem between_congr {element' : Nat → α}
    (h : ∀ n, first ≤ n → n < last → element n = element' n) :
    between element first last = between element' first last := by
  refine map_congr_left ?_
  intro n hn
  obtain ⟨hle, hlt⟩ := mem_range'_1.mp hn
  exact h n hle (by omega)

theorem mem_between {x : α} :
    x ∈ between element first last ↔ ∃ n, first ≤ n ∧ n < last ∧ element n = x := by
  simp only [between, mem_map, mem_range'_1]
  constructor
  · rintro ⟨n, ⟨hle, hlt⟩, hx⟩
    exact ⟨n, hle, by omega, hx⟩
  · rintro ⟨n, hle, hlt, hx⟩
    exact ⟨n, ⟨hle, by omega⟩, hx⟩

theorem length_between (element : Nat → α) (first last : Nat) :
    (between element first last).length = last - first := by
  rw [between, length_map, length_range']

/-- What the cells between two positions hold. -/
theorem Holds.between_eq (h : Holds N cell element first last) :
    between (fun n => cell (n % N)) first last = between element first last :=
  between_congr h

end Sudachi.Foundations.Ring
