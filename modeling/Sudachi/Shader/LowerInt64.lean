import Mathlib.Tactic
import Sudachi.Shader.Ir

/-!
# Lowering of 64-bit integers

`LowerInt64ToInt32`: the 32-bit instructions that stand for a 64-bit one. A value that is not
defined is none, as that of a 32-bit shift by 32 or more; such a value may be there as long as no
`Select` takes it. The results are the halves of the 64-bit result (`lower_value`).
-/

set_option autoImplicit false

namespace Sudachi.Shader.LowerInt64

open Option BitVec

/-! ## The 32-bit instructions -/

/-- The value of an instruction, if it is defined. -/
abbrev U32 : Type := Option (BitVec 32)

abbrev U1 : Type := Option Bool

def imm32 (w : BitVec 32) : U32 := some w

def iAdd (a b : U32) : U32 := map₂ (· + ·) a b

/-- `GetCarryFromOp` of an `IAdd`. -/
def getCarryFromIAdd (a b : U32) : U1 := map₂ uaddOverflow a b

def iSub (a b : U32) : U32 := map₂ (· - ·) a b

def bitwiseNot (a : U32) : U32 := a.map (~~~·)

def bitwiseOr (a b : U32) : U32 := map₂ (· ||| ·) a b

def iEqual (a b : U32) : U1 := map₂ (· == ·) a b

/-- `IGreaterThan` without a sign. -/
def iGreaterThan (a b : U32) : U1 := map₂ (fun a b => b.ult a) a b

/-- `IGreaterThanEqual` with a sign. -/
def iGreaterThanEqual (a b : U32) : U1 := map₂ (fun a b => b.sle a) a b

def select (condition : U1) (trueValue falseValue : U32) : U32 :=
  condition.bind fun c => if c then trueValue else falseValue

/-- A shift, which is not defined for amounts from 32 on. -/
def shiftBy (f : BitVec 32 → Nat → BitVec 32) (base shift : U32) : U32 := do
  let base ← base
  let shift ← shift
  if shift.toNat < 32 then return f base shift.toNat else none

def shiftLeftLogical : U32 → U32 → U32 := shiftBy (· <<< ·)

def shiftRightLogical : U32 → U32 → U32 := shiftBy (· >>> ·)

def shiftRightArithmetic : U32 → U32 → U32 := shiftBy sshiftRight

/-- `BitFieldExtract` without a sign. -/
def bitFieldExtract (base offset count : U32) : U32 := do
  let base ← base
  let offset ← offset
  let count ← count
  if offset.toNat + count.toNat ≤ 32 then
    return bitFieldUExtract base offset.toNat count.toNat
  else none

/-- `BitFieldInsert`. -/
def bitFieldInsert (base insert offset count : U32) : U32 := do
  let base ← base
  let insert ← insert
  let offset ← offset
  let count ← count
  if offset.toNat + count.toNat ≤ 32 then
    return Shader.bitFieldInsert base insert offset.toNat count.toNat
  else none

/-! ## The 64-bit instructions -/

/-- A 64-bit argument. -/
inductive Packed where
  | imm (value : BitVec 64)
  | composite (lo hi : U32)

/-- The value that an argument or a result stands for. -/
def Packed.value : Packed → Option (BitVec 64)
  | .imm v => some v
  | .composite lo hi => map₂ (· ++ ·) hi lo

def unpack : Packed → U32 × U32
  | .imm v => (imm32 (v.setWidth 32), imm32 ((v >>> 32).setWidth 32))
  | .composite lo hi => (lo, hi)

def iAdd64To32 (a b : Packed) : Packed :=
  let (aLo, aHi) := unpack a
  let (bLo, bHi) := unpack b
  let retLo := iAdd aLo bLo
  let carry := select (getCarryFromIAdd aLo bLo) (imm32 1) (imm32 0)
  let retHi := iAdd (iAdd aHi bHi) carry
  .composite retLo retHi

def iSub64To32 (a b : Packed) : Packed :=
  let (aLo, aHi) := unpack a
  let (bLo, bHi) := unpack b
  let retLo := iSub aLo bLo
  let underflow := iGreaterThan retLo aLo
  let underflowBit := select underflow (imm32 1) (imm32 0)
  let retHi := iSub (iSub aHi bHi) underflowBit
  .composite retLo retHi

def iNeg64To32 (a : Packed) : Packed :=
  let (lo, hi) := unpack a
  let notLo := bitwiseNot lo
  let notHi := bitwiseNot hi
  let retLo := iAdd notLo (imm32 1)
  let carry := select (getCarryFromIAdd notLo (imm32 1)) (imm32 1) (imm32 0)
  .composite retLo (iAdd notHi carry)

def shiftLeftLogical64To32 (base : Packed) (shift : U32) : Packed :=
  let (lo, hi) := unpack base
  let shiftedLo := shiftLeftLogical lo shift
  let shiftedHi := shiftLeftLogical hi shift
  let invShift := iSub shift (imm32 32)
  let isLong := iGreaterThanEqual invShift (imm32 0)
  let isZero := iEqual shift (imm32 0)
  let longRetLo := imm32 0
  let longRetHi := shiftLeftLogical lo invShift
  let shiftComplement := iSub (imm32 32) shift
  let loExtract := bitFieldExtract lo shiftComplement shift
  let shortRetLo := shiftedLo
  let shortRetHi := bitwiseOr shiftedHi loExtract
  let nonZeroLo := select isLong longRetLo shortRetLo
  let nonZeroHi := select isLong longRetHi shortRetHi
  .composite (select isZero lo nonZeroLo) (select isZero hi nonZeroHi)

def shiftRightLogical64To32 (base : Packed) (shift : U32) : Packed :=
  let (lo, hi) := unpack base
  let shiftedLo := shiftRightLogical lo shift
  let shiftedHi := shiftRightLogical hi shift
  let invShift := iSub shift (imm32 32)
  let isLong := iGreaterThanEqual invShift (imm32 0)
  let isZero := iEqual shift (imm32 0)
  let longRetHi := imm32 0
  let longRetLo := shiftRightLogical hi invShift
  let shiftComplement := iSub (imm32 32) shift
  let shortHiExtract := bitFieldExtract hi (imm32 0) shift
  let shortRetHi := shiftedHi
  let shortRetLo := bitFieldInsert shiftedLo shortHiExtract shiftComplement shift
  let nonZeroLo := select isLong longRetLo shortRetLo
  let nonZeroHi := select isLong longRetHi shortRetHi
  .composite (select isZero lo nonZeroLo) (select isZero hi nonZeroHi)

def shiftRightArithmetic64To32 (base : Packed) (shift : U32) : Packed :=
  let (lo, hi) := unpack base
  let shiftedLo := shiftRightLogical lo shift
  let shiftedHi := shiftRightArithmetic hi shift
  let signExtension := shiftRightArithmetic hi (imm32 31)
  let invShift := iSub shift (imm32 32)
  let isLong := iGreaterThanEqual invShift (imm32 0)
  let isZero := iEqual shift (imm32 0)
  let longRetHi := signExtension
  let longRetLo := shiftRightArithmetic hi invShift
  let shiftComplement := iSub (imm32 32) shift
  let shortHiExtract := bitFieldExtract hi (imm32 0) shift
  let shortRetHi := shiftedHi
  let shortRetLo := bitFieldInsert shiftedLo shortHiExtract shiftComplement shift
  let nonZeroLo := select isLong longRetLo shortRetLo
  let nonZeroHi := select isLong longRetHi shortRetHi
  .composite (select isZero lo nonZeroLo) (select isZero hi nonZeroHi)

inductive Inst64 where
  | iAdd64 (a b : Packed)
  | iSub64 (a b : Packed)
  | iNeg64 (a : Packed)
  | shiftLeftLogical64 (base : Packed) (shift : U32)
  | shiftRightLogical64 (base : Packed) (shift : U32)
  | shiftRightArithmetic64 (base : Packed) (shift : U32)

/-- A 64-bit shift, which is not defined for amounts from 64 on. -/
def shift64By (f : BitVec 64 → Nat → BitVec 64) (base : Packed) (shift : U32) :
    Option (BitVec 64) := do
  let base ← base.value
  let shift ← shift
  if shift.toNat < 64 then return f base shift.toNat else none

/-- What a 64-bit instruction computes. -/
def Inst64.value : Inst64 → Option (BitVec 64)
  | .iAdd64 a b => map₂ (· + ·) a.value b.value
  | .iSub64 a b => map₂ (· - ·) a.value b.value
  | .iNeg64 a => a.value.map (-·)
  | .shiftLeftLogical64 base shift => shift64By (· <<< ·) base shift
  | .shiftRightLogical64 base shift => shift64By (· >>> ·) base shift
  | .shiftRightArithmetic64 base shift => shift64By sshiftRight base shift

/-- `Lower`, which refuses an instruction with an associated pseudo operation. -/
def lower (hasAssociatedPseudoOperation : Bool) (inst : Inst64) : Option Packed :=
  if hasAssociatedPseudoOperation then none
  else
    match inst with
    | .iAdd64 a b => some (iAdd64To32 a b)
    | .iSub64 a b => some (iSub64To32 a b)
    | .iNeg64 a => some (iNeg64To32 a)
    | .shiftLeftLogical64 base shift => some (shiftLeftLogical64To32 base shift)
    | .shiftRightLogical64 base shift => some (shiftRightLogical64To32 base shift)
    | .shiftRightArithmetic64 base shift => some (shiftRightArithmetic64To32 base shift)

/-! ## Halves -/

section Halves

variable {lo hi lo' hi' : BitVec 32} {s i : Nat}

theorem toNat_halves : (hi ++ lo).toNat = hi.toNat * 2 ^ 32 + lo.toNat := by
  rw [toNat_append, ← Nat.shiftLeft_add_eq_or_of_lt lo.isLt, Nat.shiftLeft_eq]

theorem add_halves : (hi + hi' + if uaddOverflow lo lo' then 1 else 0) ++ (lo + lo') =
    (hi ++ lo) + (hi' ++ lo') := by
  apply eq_of_toNat_eq
  simp only [toNat_halves, toNat_add, uaddOverflow, decide_eq_true_eq]
  split
  next => bv_omega
  next => bv_omega

theorem sub_halves : (hi - hi' - if lo.ult (lo - lo') then 1 else 0) ++ (lo - lo') =
    (hi ++ lo) - (hi' ++ lo') := by
  apply eq_of_toNat_eq
  simp only [toNat_halves, toNat_sub, BitVec.ult, decide_eq_true_eq]
  split
  next => bv_omega
  next => bv_omega

theorem neg_halves : (~~~hi + if uaddOverflow (~~~lo) 1 then 1 else 0) ++ (~~~lo + 1) =
    -(hi ++ lo) := by
  apply eq_of_toNat_eq
  simp only [toNat_halves, toNat_neg, toNat_add, toNat_not, uaddOverflow, decide_eq_true_eq]
  split
  next => bv_omega
  next => bv_omega

theorem shiftLeft_halves_short (hs : 0 < s) (hlt : s < 32) :
    (hi <<< s ||| bitFieldUExtract lo (32 - s) s) ++ (lo <<< s) = (hi ++ lo) <<< s := by
  apply eq_of_getLsbD_eq
  intro i hi
  simp only [getLsbD_append, getLsbD_shiftLeft, getLsbD_or, bitFieldUExtract,
    getLsbD_setWidth, getLsbD_extractLsb']
  grind

theorem shiftLeft_halves_long (hle : 32 ≤ s) : (lo <<< (s - 32)) ++ 0#32 = (hi ++ lo) <<< s := by
  apply eq_of_getLsbD_eq
  intro i hi
  simp only [getLsbD_append, getLsbD_shiftLeft, getLsbD_zero]
  grind

/-- The low half of a shift to the right takes its upper bits from the high half. -/
theorem getLsbD_shiftedIn (hs : 0 < s) (hlt : s < 32) (hi32 : i < 32) :
    (Shader.bitFieldInsert (lo >>> s) (bitFieldUExtract hi 0 s) (32 - s) s).getLsbD i =
      if s + i < 32 then lo.getLsbD (s + i) else hi.getLsbD (s + i - 32) := by
  simp only [bitFieldUExtract, Shader.bitFieldInsert, getLsbD_and, getLsbD_or, getLsbD_not,
    getLsbD_shiftLeft, getLsbD_ushiftRight, getLsbD_allOnes, getLsbD_setWidth, getLsbD_extractLsb',
    hi32, decide_true, Bool.true_and]
  split
  next hlow =>
    have hbelow : i < 32 - s := by omega
    simp [hbelow]
  next hhigh =>
    have habove : ¬i < 32 - s := by omega
    have hin : i - (32 - s) < s := by omega
    have heq : i - (32 - s) = s + i - 32 := by omega
    rw [heq] at hin
    simp [habove, heq, hin, hin.trans hlt]

theorem shiftRight_halves_short (hs : 0 < s) (hlt : s < 32) :
    (hi >>> s) ++ (Shader.bitFieldInsert (lo >>> s) (bitFieldUExtract hi 0 s) (32 - s) s) =
      (hi ++ lo) >>> s := by
  apply eq_of_getLsbD_eq
  intro i _
  rw [getLsbD_append, getLsbD_ushiftRight, getLsbD_ushiftRight, getLsbD_append]
  split
  next hi32 => exact getLsbD_shiftedIn hs hlt hi32
  next => grind

theorem shiftRight_halves_long (hle : 32 ≤ s) : 0#32 ++ (hi >>> (s - 32)) = (hi ++ lo) >>> s := by
  apply eq_of_getLsbD_eq
  intro i _
  simp only [getLsbD_append, getLsbD_ushiftRight, getLsbD_zero]
  grind

theorem msb_halves : (hi ++ lo).msb = hi.msb := by
  rw [msb_append]
  simp

theorem sshiftRight_halves_short (hs : 0 < s) (hlt : s < 32) :
    hi.sshiftRight s ++ (Shader.bitFieldInsert (lo >>> s) (bitFieldUExtract hi 0 s) (32 - s) s) =
      (hi ++ lo).sshiftRight s := by
  apply eq_of_getLsbD_eq
  intro i _
  rw [getLsbD_append, getLsbD_sshiftRight, getLsbD_sshiftRight, getLsbD_append, msb_halves]
  split
  next hi32 =>
    rw [getLsbD_shiftedIn hs hlt hi32]
    grind
  next => grind

theorem sshiftRight_halves_long (hle : 32 ≤ s) :
    hi.sshiftRight 31 ++ hi.sshiftRight (s - 32) = (hi ++ lo).sshiftRight s := by
  apply eq_of_getLsbD_eq
  intro i _
  rw [getLsbD_append, getLsbD_sshiftRight, getLsbD_sshiftRight,
    getLsbD_sshiftRight, getLsbD_append, msb_halves]
  grind

end Halves

/-! ## The lowered instructions -/

variable {a b base p : Packed} {v w : BitVec 64} {s lo hi : BitVec 32}

theorem unpack_of_value (h : p.value = some v) :
    ∃ lo hi, unpack p = (some lo, some hi) ∧ v = hi ++ lo := by
  cases p with
  | imm value =>
    cases h
    refine ⟨_, _, rfl, eq_of_toNat_eq ?_⟩
    rw [toNat_halves]
    simp only [toNat_setWidth, toNat_ushiftRight, Nat.shiftRight_eq_div_pow]
    omega
  | composite lo hi =>
    obtain ⟨hi, lo, rfl, rfl, rfl⟩ := map₂_eq_some_iff.mp h
    exact ⟨lo, hi, rfl, rfl⟩

/-- What the selects of a shift come to. -/
theorem select_shift (hs : s.toNat < 64) (zero long short : U32) :
    select (iEqual (some s) (imm32 0)) zero
      (select (iGreaterThanEqual (iSub (some s) (imm32 32)) (imm32 0)) long short) =
        if s.toNat = 0 then zero else if 32 ≤ s.toNat then long else short := by
  have htable : ∀ n < 64, (BitVec.ofNat 32 n == 0) = decide (n = 0) ∧
      (0 : BitVec 32).sle (BitVec.ofNat 32 n - 32) = decide (32 ≤ n) := by decide
  obtain ⟨hzero, hlong⟩ := htable s.toNat hs
  rw [ofNat_toNat, setWidth_eq] at hzero hlong
  simp only [select, iEqual, iGreaterThanEqual, iSub, imm32, map₂_some_some,
    bind_some, hzero, hlong, decide_eq_true_eq]

theorem shiftBy_some {f : BitVec 32 → Nat → BitVec 32} (hs : s.toNat < 32) :
    shiftBy f (some lo) (some s) = some (f lo s.toNat) := if_pos hs

/-- A shift by the amount that is left over. -/
theorem shiftBy_invShift {f : BitVec 32 → Nat → BitVec 32} (hs : s.toNat < 64)
    (hlong : 32 ≤ s.toNat) :
    shiftBy f (some lo) (iSub (some s) (imm32 32)) = some (f lo (s.toNat - 32)) := by
  have hinv : (s - 32).toNat = s.toNat - 32 := by bv_omega
  rw [iSub, imm32, map₂_some_some, shiftBy_some (by omega), hinv]

section Short

variable (hs : s.toNat < 32)
include hs

theorem toNat_complement : (32 - s).toNat = 32 - s.toNat := by bv_omega

theorem bitFieldExtract_complement : bitFieldExtract (some lo) (iSub (imm32 32) (some s)) (some s) =
      some (bitFieldUExtract lo (32 - s.toNat) s.toNat) := by
  rw [iSub, imm32, map₂_some_some, ← toNat_complement hs]
  exact if_pos (by rw [toNat_complement hs]; omega)

theorem bitFieldExtract_zero :
    bitFieldExtract (some hi) (imm32 0) (some s) = some (bitFieldUExtract hi 0 s.toNat) :=
  if_pos (by simpa using hs.le)

theorem bitFieldInsert_complement :
    bitFieldInsert (some lo) (some hi) (iSub (imm32 32) (some s)) (some s) =
      some (Shader.bitFieldInsert lo hi (32 - s.toNat) s.toNat) := by
  rw [iSub, imm32, map₂_some_some, ← toNat_complement hs]
  exact if_pos (by rw [toNat_complement hs]; omega)

end Short

theorem iAdd64To32_value (ha : a.value = some v) (hb : b.value = some w) :
    (iAdd64To32 a b).value = some (v + w) := by
  obtain ⟨aLo, aHi, hunpackA, rfl⟩ := unpack_of_value ha
  obtain ⟨bLo, bHi, hunpackB, rfl⟩ := unpack_of_value hb
  rw [iAdd64To32, hunpackA, hunpackB, ← add_halves]
  simp only [Packed.value, iAdd, select, getCarryFromIAdd, imm32, map₂_some_some,
    bind_some, ← apply_ite some]

theorem iSub64To32_value (ha : a.value = some v) (hb : b.value = some w) :
    (iSub64To32 a b).value = some (v - w) := by
  obtain ⟨aLo, aHi, hunpackA, rfl⟩ := unpack_of_value ha
  obtain ⟨bLo, bHi, hunpackB, rfl⟩ := unpack_of_value hb
  rw [iSub64To32, hunpackA, hunpackB, ← sub_halves]
  simp only [Packed.value, iSub, select, iGreaterThan, imm32, map₂_some_some,
    bind_some, ← apply_ite some]

theorem iNeg64To32_value (ha : a.value = some v) : (iNeg64To32 a).value = some (-v) := by
  obtain ⟨lo, hi, hunpack, rfl⟩ := unpack_of_value ha
  rw [iNeg64To32, hunpack, ← neg_halves]
  simp only [Packed.value, iAdd, bitwiseNot, select, getCarryFromIAdd, imm32, map_some,
    map₂_some_some, bind_some, ← apply_ite some]

/-! A shift takes the halves themselves for the amount zero, and one half is filled from the other
one below 32. -/

section

variable (hbase : base.value = some v) (hs : s.toNat < 64)
include hbase hs

theorem shiftLeftLogical64To32_value :
    (shiftLeftLogical64To32 base (some s)).value = some (v <<< s.toNat) := by
  obtain ⟨lo, hi, hunpack, rfl⟩ := unpack_of_value hbase
  rw [shiftLeftLogical64To32, hunpack]
  simp only [Packed.value, select_shift hs]
  by_cases hzero : s.toNat = 0
  · simp [hzero]
  · by_cases hlong : 32 ≤ s.toNat
    · simp only [if_neg hzero, if_pos hlong, shiftLeftLogical, shiftBy_invShift hs hlong]
      rw [← shiftLeft_halves_long hlong]
      rfl
    · have hshort : s.toNat < 32 := Nat.lt_of_not_le hlong
      simp only [if_neg hzero, if_neg hlong, shiftLeftLogical, shiftBy_some hshort,
        bitFieldExtract_complement hshort]
      rw [← shiftLeft_halves_short (pos_of_ne_zero hzero) hshort]
      rfl

theorem shiftRightLogical64To32_value :
    (shiftRightLogical64To32 base (some s)).value = some (v >>> s.toNat) := by
  obtain ⟨lo, hi, hunpack, rfl⟩ := unpack_of_value hbase
  rw [shiftRightLogical64To32, hunpack]
  simp only [Packed.value, select_shift hs]
  by_cases hzero : s.toNat = 0
  · simp [hzero]
  · by_cases hlong : 32 ≤ s.toNat
    · simp only [if_neg hzero, if_pos hlong, shiftRightLogical, shiftBy_invShift hs hlong]
      rw [← shiftRight_halves_long hlong]
      rfl
    · have hshort : s.toNat < 32 := Nat.lt_of_not_le hlong
      simp only [if_neg hzero, if_neg hlong, shiftRightLogical, shiftBy_some hshort,
        bitFieldExtract_zero hshort, bitFieldInsert_complement hshort]
      rw [← shiftRight_halves_short (pos_of_ne_zero hzero) hshort]
      rfl

theorem shiftRightArithmetic64To32_value :
    (shiftRightArithmetic64To32 base (some s)).value = some (v.sshiftRight s.toNat) := by
  obtain ⟨lo, hi, hunpack, rfl⟩ := unpack_of_value hbase
  rw [shiftRightArithmetic64To32, hunpack]
  simp only [Packed.value, select_shift hs]
  by_cases hzero : s.toNat = 0
  · simp [hzero]
  · by_cases hlong : 32 ≤ s.toNat
    · simp only [if_neg hzero, if_pos hlong, shiftRightArithmetic, shiftBy_invShift hs hlong]
      rw [← sshiftRight_halves_long hlong]
      rfl
    · have hshort : s.toNat < 32 := Nat.lt_of_not_le hlong
      simp only [if_neg hzero, if_neg hlong, shiftRightLogical, shiftRightArithmetic,
        shiftBy_some hshort, bitFieldExtract_zero hshort, bitFieldInsert_complement hshort]
      rw [← sshiftRight_halves_short (pos_of_ne_zero hzero) hshort]
      rfl

end

theorem shift64By_eq_some {f : BitVec 64 → Nat → BitVec 64} {shift : U32}
    (h : shift64By f base shift = some w) :
    ∃ v s, base.value = some v ∧ shift = some s ∧ s.toNat < 64 ∧ w = f v s.toNat := by
  obtain ⟨v, hbase, h⟩ := bind_eq_some_iff.mp h
  obtain ⟨s, hshift, h⟩ := bind_eq_some_iff.mp h
  by_cases hs : s.toNat < 64
  · rw [if_pos hs] at h
    exact ⟨v, s, hbase, hshift, hs, (some.inj h).symm⟩
  · rw [if_neg hs] at h
    cases h

/-- Where a 64-bit instruction has a value, the halves that stand for it are defined and make up
this value. -/
theorem lower_value {inst : Inst64} (h : inst.value = some v) :
    ∃ p, lower false inst = some p ∧ p.value = some v := by
  cases inst with
  | iAdd64 a b =>
    obtain ⟨_, _, ha, hb, rfl⟩ := map₂_eq_some_iff.mp h
    exact ⟨_, rfl, iAdd64To32_value ha hb⟩
  | iSub64 a b =>
    obtain ⟨_, _, ha, hb, rfl⟩ := map₂_eq_some_iff.mp h
    exact ⟨_, rfl, iSub64To32_value ha hb⟩
  | iNeg64 a =>
    obtain ⟨_, ha, rfl⟩ := map_eq_some_iff.mp h
    exact ⟨_, rfl, iNeg64To32_value ha⟩
  | shiftLeftLogical64 base shift =>
    obtain ⟨_, _, hbase, rfl, hs, rfl⟩ := shift64By_eq_some h
    exact ⟨_, rfl, shiftLeftLogical64To32_value hbase hs⟩
  | shiftRightLogical64 base shift =>
    obtain ⟨_, _, hbase, rfl, hs, rfl⟩ := shift64By_eq_some h
    exact ⟨_, rfl, shiftRightLogical64To32_value hbase hs⟩
  | shiftRightArithmetic64 base shift =>
    obtain ⟨_, _, hbase, rfl, hs, rfl⟩ := shift64By_eq_some h
    exact ⟨_, rfl, shiftRightArithmetic64To32_value hbase hs⟩

theorem lower_value_longShift : ∃ p,
    lower false (.shiftRightArithmetic64 (.imm (-2)) (some 63)) = some p ∧ p.value = some (-1) :=
  lower_value rfl

end Sudachi.Shader.LowerInt64
