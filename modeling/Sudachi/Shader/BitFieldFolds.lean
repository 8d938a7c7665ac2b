import Sudachi.Shader.ConstantPropagationXmad

/-!
# Folds of bit fields

The words that `ConstantPropagation` puts in the place of `BitFieldUExtract`, `BitFieldSExtract` and
`BitFieldInsert` when all arguments are immediates, against what the instructions of SPIR-V give that
the back end emits. For fields inside of the word they agree on most arguments: the folds refuse some
empty fields, shift by the width of the word for others, and the insertion keeps the bits of the
inserted word that lie above the field.
-/

set_option autoImplicit false

namespace Sudachi.Shader

open BitVec (eq_of_getLsbD_eq getLsbD_and getLsbD_not getLsbD_or getLsbD_shiftLeft getLsbD_zero
  ofNat_eq_ofNat toNat_sub)

/-- Why a fold has no word: it throws the `LogicError` of an undefined result, or it shifts by the
width of the word or more, which C++ leaves undefined. -/
inductive FoldFailure where
  | undefinedResult | undefinedShift
  deriving DecidableEq, Repr

def shiftedLeft (a : BitVec 32) (amount : BitVec 32) : Except FoldFailure (BitVec 32) :=
  if amount.toNat < 32 then .ok (a <<< amount.toNat) else .error .undefinedShift

def shiftedRight (a : BitVec 32) (amount : BitVec 32) : Except FoldFailure (BitVec 32) :=
  if amount.toNat < 32 then .ok (a >>> amount.toNat) else .error .undefinedShift

/-- The fold of `BitFieldUExtract`. -/
def foldBitFieldUExtract (base shift count : BitVec 32) : Except FoldFailure (BitVec 32) :=
  if shift.toNat + count.toNat > 32 then .error .undefinedResult
  else do return (← shiftedRight base shift) &&& ((← shiftedLeft 1 count) - 1)

/-- The fold of `BitFieldSExtract`. The amounts of its shifts wrap, to 64 and to 32 bits. -/
def foldBitFieldSExtract (base shift count : BitVec 32) : Except FoldFailure (BitVec 32) :=
  let backShift := shift.setWidth 64 + count.setWidth 64
  let leftShift := (32 - backShift).toNat
  let rightShift := (32 - count).toNat
  if backShift.toNat > 32 ∨ leftShift ≥ 32 ∨ rightShift ≥ 32 then .error .undefinedResult
  else .ok ((base <<< leftShift).sshiftRight rightShift)

/-- The fold of `BitFieldInsert`. -/
def foldBitFieldInsert (base insert offset bits : BitVec 32) : Except FoldFailure (BitVec 32) :=
  if bits.toNat ≥ 32 ∨ offset.toNat ≥ 32 then .error .undefinedResult
  else do
    let field ← shiftedLeft (~~~(← shiftedLeft (~~~0) bits)) offset
    return (base &&& ~~~field) ||| (← shiftedLeft insert offset)

/-- Read a bit field with its sign, as `OpBitFieldSExtract` does. -/
def bitFieldSExtract (base : BitVec 32) (offset count : Nat) : BitVec 32 :=
  (base.extractLsb' offset count).signExtend 32

/-- What lies of the inserted word above the field, at its place. -/
def spilled (insert : BitVec 32) (offset count : Nat) : BitVec 32 :=
  (insert >>> count) <<< (offset + count)

variable {base insert offset count : BitVec 32}

theorem foldBitFieldUExtract_eq (h : offset.toNat + count.toNat ≤ 32) (hoffset : offset.toNat < 32)
    (hcount : count.toNat < 32) : foldBitFieldUExtract base offset count =
      .ok (bitFieldUExtract base offset.toNat count.toNat) := by
  have hmask : ∀ j < 32, ((1 : BitVec 32) <<< count.toNat - 1).getLsbD j =
      decide (j < count.toNat) := by
    intro j hj
    have hnot : (1 : BitVec 32) <<< count.toNat - 1 = ~~~(BitVec.allOnes 32 <<< count.toNat) := by
      rw [show (1 : BitVec 32) = 1#32 from rfl, ← BitVec.neg_one_eq_allOnes, BitVec.shiftLeft_neg,
        BitVec.not_neg]
    rw [hnot, getLsbD_not, getLsbD_shiftLeft, BitVec.getLsbD_allOnes]
    by_cases hlt : j < count.toNat
    · simp [hj, hlt]
    · simp [hlt, show j - count.toNat < 32 by omega]
  have heq : base >>> offset.toNat &&& ((1 : BitVec 32) <<< count.toNat - 1) =
      bitFieldUExtract base offset.toNat count.toNat := by
    refine eq_of_getLsbD_eq fun j hj => ?_
    rw [getLsbD_and, BitVec.getLsbD_ushiftRight, hmask j hj,
      getLsbD_bitFieldUExtract _ _ _ _ hj, Bool.and_comm]
  rw [foldBitFieldUExtract, if_neg (by omega), shiftedRight, if_pos hoffset, shiftedLeft, if_pos hcount,
    ← heq]
  rfl

theorem foldBitFieldSExtract_eq (h : offset.toNat + count.toNat ≤ 32) (hcount : count ≠ 0) :
    foldBitFieldSExtract base offset count =
      .ok (bitFieldSExtract base offset.toNat count.toNat) := by
  have hpos : count.toNat ≠ 0 := fun hzero => hcount (BitVec.eq_of_toNat_eq hzero)
  have hback : (offset.setWidth 64 + count.setWidth 64).toNat = offset.toNat + count.toNat := by
    simp only [BitVec.toNat_add, BitVec.toNat_setWidth]
    omega
  have hleft : (32 - (offset.setWidth 64 + count.setWidth 64)).toNat =
      32 - (offset.toNat + count.toNat) := by
    rw [toNat_sub, hback, show (32 : BitVec 64).toNat = 32 from rfl]
    omega
  have hright : (32 - count).toNat = 32 - count.toNat := by
    rw [toNat_sub, show (32 : BitVec 32).toNat = 32 from rfl]
    omega
  have heq : (base <<< (32 - (offset.toNat + count.toNat))).sshiftRight (32 - count.toNat) =
      bitFieldSExtract base offset.toNat count.toNat := by
    refine eq_of_getLsbD_eq fun j hj => ?_
    rw [bitFieldSExtract, BitVec.getLsbD_signExtend, BitVec.getLsbD_sshiftRight,
      BitVec.msb_eq_getLsbD_last, BitVec.msb_eq_getLsbD_last]
    simp only [getLsbD_shiftLeft, BitVec.getLsbD_extractLsb']
    grind
  simp only [foldBitFieldSExtract, hback, hleft, hright]
  rw [if_neg (by omega), heq]

/-- The insertion also keeps what lies above the field. -/
theorem foldBitFieldInsert_eq (hoffset : offset.toNat < 32) (hcount : count.toNat < 32) :
    foldBitFieldInsert base insert offset count =
      .ok (bitFieldInsert base insert offset.toNat count.toNat |||
        spilled insert offset.toNat count.toNat) := by
  have heq : (base &&& ~~~(~~~(~~~(0 : BitVec 32) <<< count.toNat) <<< offset.toNat)) |||
      (insert <<< offset.toNat) = bitFieldInsert base insert offset.toNat count.toNat |||
        spilled insert offset.toNat count.toNat := by
    refine eq_of_getLsbD_eq fun j hj => ?_
    rw [getLsbD_or, getLsbD_or, getLsbD_bitFieldInsert _ _ _ _ _ hj]
    simp only [spilled, getLsbD_and, getLsbD_not, getLsbD_shiftLeft,
      BitVec.getLsbD_ushiftRight, ofNat_eq_ofNat, getLsbD_zero]
    by_cases hlow : j < offset.toNat
    · simp only [hlow, decide_true, Bool.not_true]
      grind
    · by_cases hin : j < offset.toNat + count.toNat
      · have hfield : j - offset.toNat < count.toNat := by omega
        simp only [hin, hfield, decide_true, Bool.not_true]
        grind
      · have hindex : count.toNat + (j - (offset.toNat + count.toNat)) = j - offset.toNat := by omega
        have hfield : ¬j - offset.toNat < count.toNat := by omega
        simp only [hindex, hfield, decide_false, Bool.not_false]
        grind
  simp only [foldBitFieldInsert, shiftedLeft, if_pos hcount, if_pos hoffset]
  rw [if_neg (by omega), ← heq]
  rfl

theorem or_spilled_eq_iff : bitFieldInsert base insert offset.toNat count.toNat |||
      spilled insert offset.toNat count.toNat =
        bitFieldInsert base insert offset.toNat count.toNat ↔
    spilled insert offset.toNat count.toNat &&& ~~~base = 0 := by
  have hbits : ∀ j < 32, (spilled insert offset.toNat count.toNat).getLsbD j = true →
      (bitFieldInsert base insert offset.toNat count.toNat).getLsbD j = base.getLsbD j := by
    intro j hj hspilled
    rw [spilled, getLsbD_shiftLeft] at hspilled
    rw [getLsbD_bitFieldInsert _ _ _ _ _ hj]
    grind
  constructor
  · intro h
    refine eq_of_getLsbD_eq fun j hj => ?_
    have hj' := congrArg (·.getLsbD j) h
    simp only [getLsbD_or] at hj'
    rw [getLsbD_and, getLsbD_not, ofNat_eq_ofNat, getLsbD_zero]
    grind
  · intro h
    refine eq_of_getLsbD_eq fun j hj => ?_
    have hj' := congrArg (·.getLsbD j) h
    simp only [getLsbD_and, getLsbD_not, ofNat_eq_ofNat, getLsbD_zero] at hj'
    rw [getLsbD_or]
    grind

/-- For a field inside of the word: when the folds have the words of the instructions of SPIR-V. -/
theorem bitFieldFolds_iff (base insert : BitVec 32) (h : offset.toNat + count.toNat ≤ 32) :
    (foldBitFieldUExtract base offset count = .ok (bitFieldUExtract base offset.toNat count.toNat) ↔
      offset.toNat < 32 ∧ count.toNat < 32) ∧
    (foldBitFieldSExtract base offset count =
        .ok (bitFieldSExtract base offset.toNat count.toNat) ↔ count ≠ 0) ∧
    (foldBitFieldInsert base insert offset count =
        .ok (bitFieldInsert base insert offset.toNat count.toNat) ↔
      offset.toNat < 32 ∧ count.toNat < 32 ∧
        spilled insert offset.toNat count.toNat &&& ~~~base = 0) := by
  refine ⟨⟨fun hfold => ?_, fun ⟨hoffset, hcount⟩ => foldBitFieldUExtract_eq h hoffset hcount⟩,
    ⟨?_, foldBitFieldSExtract_eq h⟩, ⟨fun hfold => ?_, fun ⟨hoffset, hcount, hspilled⟩ => ?_⟩⟩
  · rw [foldBitFieldUExtract, if_neg (by omega), shiftedRight, shiftedLeft] at hfold
    by_cases hoffset : offset.toNat < 32
    · by_cases hcount : count.toNat < 32
      · exact ⟨hoffset, hcount⟩
      · rw [if_pos hoffset, if_neg hcount] at hfold
        cases hfold
    · rw [if_neg hoffset] at hfold
      cases hfold
  · rintro hfold rfl
    rw [foldBitFieldSExtract, if_pos (.inr (.inr (by decide)))] at hfold
    cases hfold
  · by_cases hinside : count.toNat ≥ 32 ∨ offset.toNat ≥ 32
    · rw [foldBitFieldInsert, if_pos hinside] at hfold
      cases hfold
    · obtain ⟨hcount, hoffset⟩ := not_or.mp hinside
      rw [foldBitFieldInsert_eq (by omega) (by omega)] at hfold
      exact ⟨by omega, by omega, or_spilled_eq_iff.mp (Except.ok.inj hfold)⟩
  · rw [foldBitFieldInsert_eq hoffset hcount, or_spilled_eq_iff.mpr hspilled]

theorem bitFieldFolds_iff_lowByte :
    foldBitFieldInsert 0xffffff00 0x12 0 8 = .ok 0xffffff12 ↔
      (0 : BitVec 32).toNat < 32 ∧ (8 : BitVec 32).toNat < 32 ∧
        spilled 0x12 (0 : BitVec 32).toNat (8 : BitVec 32).toNat &&& ~~~0xffffff00 = 0 :=
  have hwidth : (0 : BitVec 32).toNat + (8 : BitVec 32).toNat ≤ 32 := by decide
  (bitFieldFolds_iff 0xffffff00 0x12 hwidth).2.2

/-- A word of nine bits in a field of eight. -/
theorem foldBitFieldInsert_spills : ¬∀ base insert offset count : BitVec 32,
    offset.toNat + count.toNat ≤ 32 → foldBitFieldUExtract base offset count =
          .ok (bitFieldUExtract base offset.toNat count.toNat) ∧
        foldBitFieldSExtract base offset count =
            .ok (bitFieldSExtract base offset.toNat count.toNat) ∧
          foldBitFieldInsert base insert offset count =
            .ok (bitFieldInsert base insert offset.toNat count.toNat) := by
  intro h
  exact absurd (h 0 0x100 0 8 (by decide)).2.2 (by decide)

end Sudachi.Shader
