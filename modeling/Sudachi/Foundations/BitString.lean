import Mathlib.Data.Nat.Bitwise
import Mathlib.Data.List.Induction

/-!
# Bit strings

Numbers as lists of bits with the most significant bit first, in the way a bit stream holds them.
`readBits` takes a number of a given width from the head of a list, and `readBits_eq_some_iff` says
what it took. A list of descriptors is read by `readAll`. The unsigned Exp-Golomb code of a number
`n` is `n + 1` in binary behind one zero for each of its bits but the first one.
-/

set_option autoImplicit false

namespace Sudachi.Foundations

open List

/-- The lowest `n` bits of a number, the most significant one first. -/
def bitsOf : Nat → Nat → List Bool
  | 0, _ => []
  | n + 1, x => x.testBit n :: bitsOf n x

/-- The number that bits stand for. -/
def ofBits (bits : List Bool) : Nat := bits.foldl (fun x bit => 2 * x + bit.toNat) 0

/-- A number of `n` bits from the head of a list, with the rest of the list. -/
def readBits (n : Nat) (bits : List Bool) : Option (Nat × List Bool) :=
  if n ≤ bits.length then some (ofBits (bits.take n), bits.drop n) else none

/-- The values that a list of descriptors finds at the head of a list, with the rest of it. -/
def readAll {δ α : Type} (read : δ → List Bool → Option (α × List Bool)) :
    List δ → List Bool → Option (List α × List Bool)
  | [], bits => some ([], bits)
  | d :: ds, bits => (read d bits).bind fun first =>
    (readAll read ds first.2).map fun others => (first.1 :: others.1, others.2)

variable {n x y : Nat} {bits rest : List Bool}

@[simp] theorem length_bitsOf (n x : Nat) : (bitsOf n x).length = n := by
  induction n with
  | zero => rfl
  | succ n ih => rw [bitsOf, length_cons, ih]

theorem bitsOf_congr (h : ∀ i < n, x.testBit i = y.testBit i) : bitsOf n x = bitsOf n y := by
  induction n with
  | zero => rfl
  | succ n ih =>
    rw [bitsOf, bitsOf, h n (Nat.lt_succ_self n), ih fun i hi => h i (Nat.lt_succ_of_lt hi)]

theorem bitsOf_add (m n x : Nat) : bitsOf (m + n) x = bitsOf m (x >>> n) ++ bitsOf n x := by
  induction m with
  | zero => rw [zero_add, bitsOf, nil_append]
  | succ m ih =>
    rw [add_right_comm, bitsOf, bitsOf, ih, Nat.testBit_shiftRight, add_comm n m]
    rfl

theorem bitsOf_zero (n : Nat) : bitsOf n 0 = replicate n false := by
  induction n with
  | zero => rfl
  | succ n ih => rw [bitsOf, ih, Nat.zero_testBit, replicate_succ]

theorem ofBits_append_singleton (bits : List Bool) (bit : Bool) :
    ofBits (bits ++ [bit]) = 2 * ofBits bits + bit.toNat := by
  rw [ofBits, foldl_append]
  rfl

theorem bitsOf_succ (n x : Nat) : bitsOf (n + 1) x = bitsOf n (x / 2) ++ [x.testBit 0] := by
  rw [bitsOf_add n 1, Nat.shiftRight_one]
  rfl

theorem ofBits_bitsOf (n x : Nat) : ofBits (bitsOf n x) = x % 2 ^ n := by
  induction n generalizing x with
  | zero =>
    rw [pow_zero, Nat.mod_one]
    rfl
  | succ n ih =>
    have hbit : (x.testBit 0).toNat = x % 2 := by
      rw [Nat.testBit_zero]
      rcases Nat.mod_two_eq_zero_or_one x with h | h <;> rw [h] <;> rfl
    rw [bitsOf_succ, ofBits_append_singleton, ih, hbit, Nat.pow_succ', Nat.mod_mul, add_comm]

theorem bitsOf_ofBits (bits : List Bool) : bitsOf bits.length (ofBits bits) = bits := by
  induction bits using reverseRecOn with
  | nil => rfl
  | append_singleton bits bit ih =>
    have hhalf : (2 * ofBits bits + bit.toNat) / 2 = ofBits bits := by
      have := Bool.toNat_le bit
      omega
    have hlast : (2 * ofBits bits + bit.toNat).testBit 0 = bit := by
      rw [Nat.testBit_zero]
      cases bit
      · rw [Bool.toNat_false]
        apply decide_eq_false
        omega
      · rw [Bool.toNat_true]
        apply decide_eq_true
        omega
    rw [length_append, length_singleton, ofBits_append_singleton, bitsOf_succ, hhalf, hlast, ih]

theorem ofBits_lt (bits : List Bool) : ofBits bits < 2 ^ bits.length := by
  rw [← bitsOf_ofBits bits, length_bitsOf, ofBits_bitsOf]
  exact Nat.mod_lt _ (Nat.two_pow_pos _)

/-- What stands at the head of the list is the number that is read. -/
theorem readBits_eq_some_iff :
    readBits n bits = some (x, rest) ↔ x < 2 ^ n ∧ bits = bitsOf n x ++ rest := by
  rw [readBits]
  constructor
  · intro h
    split at h
    · rename_i hle
      obtain ⟨rfl, rfl⟩ := Prod.mk.inj (Option.some.inj h)
      have hlength : (bits.take n).length = n := length_take_of_le hle
      have hlt := ofBits_lt (bits.take n)
      have hbits := bitsOf_ofBits (bits.take n)
      rw [hlength] at hlt hbits
      rw [hbits, take_append_drop]
      exact ⟨hlt, rfl⟩
    · cases h
  · rintro ⟨hlt, rfl⟩
    have hle : n ≤ (bitsOf n x ++ rest).length := by
      rw [length_append, length_bitsOf]
      exact Nat.le_add_right n _
    rw [if_pos hle, take_left' (length_bitsOf n x), drop_left' (length_bitsOf n x),
      ofBits_bitsOf, Nat.mod_eq_of_lt hlt]

theorem readBits_append (h : x < 2 ^ n) (rest : List Bool) :
    readBits n (bitsOf n x ++ rest) = some (x, rest) :=
  readBits_eq_some_iff.mpr ⟨h, rfl⟩

theorem readBits_one (bit : Bool) (rest : List Bool) :
    readBits 1 (bit :: rest) = some (bit.toNat, rest) := by
  apply readBits_eq_some_iff.mpr
  cases bit
  · exact ⟨Nat.zero_lt_two, rfl⟩
  · exact ⟨Nat.one_lt_two, rfl⟩

/-- Reading what an encoder wrote for a list of items gives their values. -/
theorem readAll_flatMap {γ δ α : Type} {read : δ → List Bool → Option (α × List Bool)}
    {descriptor : γ → δ} {value : γ → α} {encode : γ → List Bool} {items : List γ}
    (h : ∀ item ∈ items, ∀ rest, read (descriptor item) (encode item ++ rest) =
      some (value item, rest)) (rest : List Bool) :
    readAll read (items.map descriptor) (items.flatMap encode ++ rest) =
      some (items.map value, rest) := by
  induction items with
  | nil => rfl
  | cons item items ih =>
    have hrest := ih fun item hitem => h item (mem_cons_of_mem _ hitem)
    rw [map_cons, map_cons, flatMap_cons, append_assoc, readAll,
      h item mem_cons_self, Option.bind_some, hrest, Option.map_some]

theorem eq_zero_of_bits (hx : x < 2 ^ n) (h : ∀ bit ∈ bitsOf n x, bit = false) : x = 0 := by
  have hzero : bitsOf n x = bitsOf n 0 := by
    rw [bitsOf_zero]
    exact eq_replicate_iff.mpr ⟨length_bitsOf n x, h⟩
  have hvalue := congrArg ofBits hzero
  rw [ofBits_bitsOf, ofBits_bitsOf, Nat.mod_eq_of_lt hx, Nat.zero_mod] at hvalue
  exact hvalue

/-- What is left when a list is read from some places behind an item that it was written with. -/
theorem eq_drop_of_drop_append {written tail taken : List Bool} {k d : Nat}
    (hk : k ≤ (written ++ tail).length) (h : (written ++ tail).drop k = taken ++ rest)
    (hlength : taken.length = written.length + d) :
    k + d ≤ tail.length ∧ rest = tail.drop (k + d) := by
  have hdrop := congrArg (drop taken.length) h
  have hplace : k + taken.length = written.length + (k + d) := by omega
  rw [drop_drop, drop_left, hplace, ← drop_drop, drop_left] at hdrop
  have hlengths := congrArg length h
  simp only [length_drop, length_append] at hk hlengths
  exact ⟨by omega, hdrop.symm⟩

/-- Bits that end in zeros and come again some places later are zeros. -/
theorem eq_false_of_shift {k m : Nat} (hk : 0 < k)
    (h : (bits ++ replicate m false).drop k = bits ++ rest) {bit : Bool} (hbit : bit ∈ bits) :
    bit = false := by
  have hzero (d i : Nat) (hi : i < bits.length) (hd : bits.length - i = d) :
      bits[i]? = some false := by
    induction d using Nat.strong_induction_on generalizing i with
    | _ d ih =>
      have hshift := congrArg (fun l : List Bool => l[i]?) h
      simp only [getElem?_drop] at hshift
      rw [getElem?_append_left hi] at hshift
      rw [← hshift]
      by_cases hlater : k + i < bits.length
      · rw [getElem?_append_left hlater]
        exact ih (bits.length - (k + i)) (by omega) (k + i) hlater rfl
      · rw [getElem?_append_right (Nat.le_of_not_lt hlater), getElem?_replicate]
        split
        · rfl
        · rename_i hend
          -- the place that is read would be behind the end
          rw [getElem?_append_right (Nat.le_of_not_lt hlater), getElem?_replicate,
            if_neg hend, getElem?_eq_getElem hi] at hshift
          cases hshift
  obtain ⟨i, hi, rfl⟩ := getElem_of_mem hbit
  have := hzero _ i hi rfl
  rw [getElem?_eq_getElem hi] at this
  exact Option.some.inj this

/-! ## Exp-Golomb codes -/

/-- The code of a number of which the successor has `size` bits. -/
def expGolomb (size n : Nat) : List Bool :=
  bitsOf size 1 ++ bitsOf (size - 1) (n - (2 ^ (size - 1) - 1))

/-- The zeros in front of the first one, which is taken off as well. -/
def leadingZeroBits : List Bool → Option (Nat × List Bool)
  | [] => none
  | true :: bits => some (0, bits)
  | false :: bits => (leadingZeroBits bits).map fun (count, bits) => (count + 1, bits)

/-- A number from its code at the head of a list. -/
def readExpGolomb (bits : List Bool) : Option (Nat × List Bool) :=
  (leadingZeroBits bits).bind fun zeros =>
    (readBits zeros.1 zeros.2).map fun found => (2 ^ zeros.1 - 1 + found.1, found.2)

theorem leadingZeroBits_bitsOf_one (size : Nat) (rest : List Bool) :
    leadingZeroBits (bitsOf (size + 1) 1 ++ rest) = some (size, rest) := by
  induction size with
  | zero => rfl
  | succ size ih =>
    have hzero : Nat.testBit 1 (size + 1) = false := by
      rw [Nat.testBit_succ]
      exact Nat.zero_testBit size
    rw [bitsOf, hzero, cons_append, leadingZeroBits, ih]
    rfl

theorem readExpGolomb_append {size : Nat} (hlower : 2 ^ size ≤ n + 1)
    (hupper : n + 1 < 2 ^ (size + 1)) (rest : List Bool) :
    readExpGolomb (expGolomb (size + 1) n ++ rest) = some (n, rest) := by
  have hlt : n - (2 ^ size - 1) < 2 ^ size := by
    rw [pow_succ] at hupper
    omega
  have hpos : 0 < 2 ^ size := Nat.two_pow_pos size
  have hsum : 2 ^ size - 1 + (n - (2 ^ size - 1)) = n := by omega
  rw [readExpGolomb, expGolomb, append_assoc, leadingZeroBits_bitsOf_one, Option.bind_some,
    Nat.add_sub_cancel, readBits_append hlt, Option.map_some, hsum]

end Sudachi.Foundations
