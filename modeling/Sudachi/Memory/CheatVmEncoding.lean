import Mathlib.Tactic
import Sudachi.Memory.CheatVmBlocks

/-!
# The documented layouts of the cheat opcodes

The comments of `DecodeNextOpcode` write every opcode as a row of hexadecimal digits. A
`WrittenOpcode` is such a row with its letters filled in; `words` spells it out and `opcode` is the
opcode it stands for. `DecodeNextOpcode` gives the opcode back for every row but two kinds: the
register of a control loop is written in the fourth digit and read from the third, and the row in
the comment of `ResumeProcess` is the row of `PauseProcess`.
-/

set_option autoImplicit false

namespace Sudachi.Memory

open Sudachi.Foundations BitVec
open CheatVmOpcodeType (ofNat)
open CompareRegisterValueType (ofNibble)

/-! ## Hexadecimal digits -/

/-- The word with the given hexadecimal digits, the first one at the top. -/
def hexWord (d7 d6 d5 d4 d3 d2 d1 d0 : Fin 16) : Dword :=
  BitVec.ofNat 32 (((((((d7.val * 16 + d6) * 16 + d5) * 16 + d4) * 16 + d3) * 16 + d2) * 16 + d1) *
    16 + d0)

/-- Digit `k` of a number, counted from the right. -/
def hexDigit (n k : Nat) : Fin 16 := ⟨n / 16 ^ k % 16, Nat.mod_lt _ (by decide)⟩

/-- The digit of a flag. -/
def flagDigit (b : Bool) : Fin 16 := if b then 1 else 0

section HexWord

variable (d7 d6 d5 d4 d3 d2 d1 d0 : Fin 16)

theorem toNat_hexWord : (hexWord d7 d6 d5 d4 d3 d2 d1 d0).toNat =
    ((((((d7.val * 16 + d6) * 16 + d5) * 16 + d4) * 16 + d3) * 16 + d2) * 16 + d1) * 16 + d0 := by
  rw [hexWord, toNat_ofNat, Nat.mod_eq_of_lt]
  omega

@[simp] theorem nibble_hexWord : nibble (hexWord d7 d6 d5 d4 d3 d2 d1 d0) 28 = d7 ∧
      nibble (hexWord d7 d6 d5 d4 d3 d2 d1 d0) 24 = d6 ∧
      nibble (hexWord d7 d6 d5 d4 d3 d2 d1 d0) 20 = d5 ∧
      nibble (hexWord d7 d6 d5 d4 d3 d2 d1 d0) 16 = d4 ∧
      nibble (hexWord d7 d6 d5 d4 d3 d2 d1 d0) 12 = d3 ∧
      nibble (hexWord d7 d6 d5 d4 d3 d2 d1 d0) 8 = d2 ∧
      nibble (hexWord d7 d6 d5 d4 d3 d2 d1 d0) 4 = d1 ∧
      nibble (hexWord d7 d6 d5 d4 d3 d2 d1 d0) 0 = d0 := by
  simp only [nibble, toNat_hexWord, Nat.shiftRight_eq_div_pow, Fin.ext_iff]
  omega

end HexWord

@[simp] theorem flagDigit_eq_zero (b : Bool) : flagDigit b = 0 ↔ b = false := by
  cases b <;> decide

theorem toNat_joinDwords (high low : Dword) :
    (joinDwords high low).toNat = high.toNat * 2 ^ 32 + low.toNat := by
  have hhigh := high.isLt
  have hlow := low.isLt
  have hshift : (high.zeroExtend 64 <<< 32).toNat = high.toNat * 2 ^ 32 := by
    simp only [toNat_shiftLeft, truncate_eq_setWidth, toNat_setWidth, Nat.shiftLeft_eq]
    omega
  have hext : (low.zeroExtend 64).toNat = low.toNat := by
    simp only [truncate_eq_setWidth, toNat_setWidth]
    omega
  rw [joinDwords, toNat_or, hshift, hext, ← Nat.shiftLeft_eq, Nat.shiftLeft_add_eq_or_of_lt hlow]

/-- A number in two words, the upper one first. -/
@[simp] theorem joinDwords_halves (v : Qword) :
    joinDwords ((v >>> 32).setWidth 32) (v.setWidth 32) = v := by
  have hv := v.isLt
  refine eq_of_toNat_eq ?_
  rw [toNat_joinDwords]
  simp only [toNat_setWidth, toNat_ushiftRight, Nat.shiftRight_eq_div_pow]
  omega

theorem toNat_and_lowMask (v : Dword) {mask : Dword} {k : Nat} (hmask : mask.toNat = 2 ^ k - 1) :
    (v &&& mask).toNat = v.toNat % 2 ^ k := by
  rw [toNat_and, hmask, Nat.and_two_pow_sub_one_eq_mod]

section Address

variable (d7 d6 d5 d4 d3 d2 d1 : Fin 16)

/-- An address whose upper eight bits are the last two digits of the first word. -/
@[simp] theorem relAddressOf_hexWord_40 (a : BitVec 40) :
    relAddressOf (hexWord d7 d6 d5 d4 d3 d2 (hexDigit a.toNat 9) (hexDigit a.toNat 8)) 255#32
      (a.setWidth 32) = a.setWidth 64 := by
  have ha := a.isLt
  refine eq_of_toNat_eq ?_
  rw [relAddressOf, toNat_joinDwords, toNat_and_lowMask (k := 8) _ (by decide), toNat_hexWord]
  simp only [hexDigit, toNat_setWidth]
  omega

/-- An address whose upper four bits are the last digit of the first word. -/
@[simp] theorem relAddressOf_hexWord_36 (a : BitVec 36) :
    relAddressOf (hexWord d7 d6 d5 d4 d3 d2 d1 (hexDigit a.toNat 8)) 15#32 (a.setWidth 32) =
      a.setWidth 64 := by
  have ha := a.isLt
  refine eq_of_toNat_eq ?_
  rw [relAddressOf, toNat_joinDwords, toNat_and_lowMask (k := 4) _ (by decide), toNat_hexWord]
  simp only [hexDigit, toNat_setWidth]
  omega

end Address

/-! ## Numbers spelled out in digits -/

theorem and_lowMask_hexWord (d7 : Fin 16) (k : BitVec 28) :
    hexWord d7 (hexDigit k.toNat 6) (hexDigit k.toNat 5) (hexDigit k.toNat 4) (hexDigit k.toNat 3)
      (hexDigit k.toNat 2) (hexDigit k.toNat 1) (hexDigit k.toNat 0) &&& 0x0FFFFFFF#32 =
      k.setWidth 32 := by
  have hk := k.isLt
  refine eq_of_toNat_eq ?_
  rw [toNat_and_lowMask (k := 28) _ (by decide), toNat_hexWord]
  simp only [hexDigit, toNat_setWidth]
  omega

theorem setWidth_hexWord (d7 d6 d5 d4 : Fin 16) (mask : BitVec 16) :
    (hexWord d7 d6 d5 d4 (hexDigit mask.toNat 3) (hexDigit mask.toNat 2) (hexDigit mask.toNat 1)
      (hexDigit mask.toNat 0)).setWidth 16 = mask := by
  have hmask := mask.isLt
  refine eq_of_toNat_eq ?_
  rw [toNat_setWidth, toNat_hexWord]
  simp only [hexDigit]
  omega

theorem shiftRight_hexWord (d7 d6 d5 d4 d3 d0 : Fin 16) (n : Fin 256) :
    (hexWord d7 d6 d5 d4 d3 (hexDigit n.val 1) (hexDigit n.val 0) d0).toNat >>> 4 % 256 = n.val := by
  rw [toNat_hexWord, Nat.shiftRight_eq_div_pow]
  simp only [hexDigit]
  omega

/-! ## Immediate values -/

/-- The number of bits of a `VmInt` of width `T`; the union has a member for four widths. -/
def immediateBits (t : Fin 16) : Nat :=
  match t.val with
  | 1 => 8
  | 2 => 16
  | 4 => 32
  | 8 => 64
  | _ => 0

/-- `YYYYYYYY (YYYYYYYY)`: the second word is there for the width of eight bytes. -/
def immediateWords (t : Fin 16) (v : BitVec (immediateBits t)) : List Dword :=
  if t = 8 then [((v.zeroExtend 64) >>> 32).truncate 32, (v.zeroExtend 64).truncate 32]
  else [v.zeroExtend 32]

@[simp] theorem parse_getNextDword (x : Dword) (rest : List Dword) :
    getNextDword.parse (x :: rest) = some (x, rest) := rfl

theorem setWidth_setWidth_of_le {k : Nat} (v : BitVec k) (hk : k ≤ 32) :
    ((v.setWidth 32).setWidth k).setWidth 64 = v.setWidth 64 := by
  rw [BitVec.setWidth_setWidth_of_le _ hk, setWidth_eq]

@[simp] theorem parse_getNextVmInt (t : Fin 16) (v : BitVec (immediateBits t)) :
    (getNextVmInt t).parse (immediateWords t v) = some (v.setWidth 64, []) := by
  by_cases h8 : t = 8
  · subst h8
    rw [immediateWords, if_pos rfl]
    exact congrArg (fun q => some (q, [])) (joinDwords_halves _)
  · rw [immediateWords, if_neg h8]
    -- a width without a member of the union has one value, and the code leaves it at zero
    have hzero : ∀ u : BitVec 0, some ((0 : VmInt), ([] : List Dword)) = some (u.setWidth 64, []) := by
      decide
    fin_cases t
    all_goals first
      | exact hzero v
      | exact congrArg (fun q => some (q, [])) (setWidth_setWidth_of_le v (by decide))
      | exact absurd rfl h8

/-! ## The layouts -/

/-- The operands of offset type `O` of `ATSRIOxa (aaaaaaaa)`. Which types have a memory region and
which a relative address is what the line on `O` says. -/
inductive WrittenOffset where
  | none (x a : Fin 16)
  | reg (x a : Fin 16)
  | imm (x : Fin 16) (a : BitVec 36)
  | memReg (x a : Fin 16)
  | memImm (x : Fin 16) (a : BitVec 36)
  | memImmReg (x : Fin 16) (a : BitVec 36)

/-- The value operands that `C0TcSX##` and `FFFTIX##` share: `0Ma aaaaaaaa`, `1Mr`, `2Ra aaaaaaaa`
and `3Rr`. -/
inductive WrittenAddress where
  | memoryRelAddr (m : Fin 16) (a : BitVec 36)
  | memoryOfsReg (m r : Fin 16)
  | registerRelAddr (r : Fin 16) (a : BitVec 36)
  | registerOfsReg (r o : Fin 16)

/-- The comments of `DecodeNextOpcode`, with a value for every letter and every `?`. A flag is one
digit. The comment of `EndConditionalBlock` has no letter, so there is no else. -/
inductive WrittenOpcode where
  | storeStatic (t m r : Fin 16) (a : BitVec 40) (y : BitVec (immediateBits t))
  | beginConditional (t m c : Fin 16) (a : BitVec 40) (y : BitVec (immediateBits t))
  | endConditional
  | startLoop (r : Fin 16) (v : Dword)
  | endLoop (r : Fin 16)
  | loadRegisterStatic (r : Fin 16) (v : Qword)
  | loadRegisterMemory (t m r : Fin 16) (i : Bool) (a : BitVec 40)
  | storeStaticToAddress (t r : Fin 16) (i o : Bool) (r' : Fin 16) (v : Qword)
  | performArithmeticStatic (t r c : Fin 16) (v : Dword)
  | beginKeypressConditional (k : BitVec 28)
  | performArithmeticRegister (t c r s s' : Fin 16)
  | performArithmeticImmediate (t c r s s' : Fin 16) (v : BitVec (immediateBits t))
  | storeRegisterToAddress (t s r : Fin 16) (i : Bool) (offset : WrittenOffset)
  | beginRegisterConditionalAddress (t c s : Fin 16) (operand : WrittenAddress)
  | beginRegisterConditionalStatic (t c s : Fin 16) (v : BitVec (immediateBits t))
  | beginRegisterConditionalOther (t c s x : Fin 16)
  | saveRestoreRegister (d s x : Fin 16)
  | saveRestoreRegisterMask (x : Fin 16) (mask : BitVec 16)
  | readWriteStaticRegister (staticIdx : Fin 256) (idx : Fin 16)
  | pauseProcess (unused : BitVec 20)
  | resumeProcess (unused : BitVec 20)
  | debugLogAddress (t i : Fin 16) (operand : WrittenAddress)
  | debugLogRegister (t i x : Fin 16)

/-- The digits of `Oxa` and the words behind. -/
def WrittenOffset.digits : WrittenOffset → Fin 16 × Fin 16 × Fin 16 × List Dword
  | .none x a => (0, x, a, [])
  | .reg x a => (1, x, a, [])
  | .imm x a => (2, x, hexDigit a.toNat 8, [a.truncate 32])
  | .memReg x a => (3, x, a, [])
  | .memImm x a => (4, x, hexDigit a.toNat 8, [a.truncate 32])
  | .memImmReg x a => (5, x, hexDigit a.toNat 8, [a.truncate 32])

/-- The digits of `X##` and the words behind. -/
def WrittenAddress.digits : WrittenAddress → Fin 16 × Fin 16 × Fin 16 × List Dword
  | .memoryRelAddr m a => (0, m, hexDigit a.toNat 8, [a.truncate 32])
  | .memoryOfsReg m r => (1, m, r, [])
  | .registerRelAddr r a => (2, r, hexDigit a.toNat 8, [a.truncate 32])
  | .registerOfsReg r o => (3, r, o, [])

namespace WrittenOpcode

/-- The words that a layout spells out. -/
def words : WrittenOpcode → List Dword
  -- 0TMR00AA AAAAAAAA YYYYYYYY (YYYYYYYY)
  | .storeStatic t m r a y =>
    hexWord 0 t m r 0 0 (hexDigit a.toNat 9) (hexDigit a.toNat 8) :: a.truncate 32 ::
      immediateWords t y
  -- 1TMC00AA AAAAAAAA YYYYYYYY (YYYYYYYY)
  | .beginConditional t m c a y =>
    hexWord 1 t m c 0 0 (hexDigit a.toNat 9) (hexDigit a.toNat 8) :: a.truncate 32 ::
      immediateWords t y
  -- 20000000
  | .endConditional => [hexWord 2 0 0 0 0 0 0 0]
  -- 300R0000 VVVVVVVV
  | .startLoop r v => [hexWord 3 0 0 r 0 0 0 0, v]
  -- 310R0000
  | .endLoop r => [hexWord 3 1 0 r 0 0 0 0]
  -- 400R0000 VVVVVVVV VVVVVVVV
  | .loadRegisterStatic r v =>
    [hexWord 4 0 0 r 0 0 0 0, (v >>> 32).truncate 32, v.truncate 32]
  -- 5TMRI0AA AAAAAAAA
  | .loadRegisterMemory t m r i a =>
    [hexWord 5 t m r (flagDigit i) 0 (hexDigit a.toNat 9) (hexDigit a.toNat 8), a.truncate 32]
  -- 6T0RIor0 VVVVVVVV VVVVVVVV
  | .storeStaticToAddress t r i o r' v =>
    [hexWord 6 t 0 r (flagDigit i) (flagDigit o) r' 0, (v >>> 32).truncate 32, v.truncate 32]
  -- 7T0RC000 VVVVVVVV
  | .performArithmeticStatic t r c v => [hexWord 7 t 0 r c 0 0 0, v]
  -- 8kkkkkkk
  | .beginKeypressConditional k =>
    [hexWord 8 (hexDigit k.toNat 6) (hexDigit k.toNat 5) (hexDigit k.toNat 4)
      (hexDigit k.toNat 3) (hexDigit k.toNat 2) (hexDigit k.toNat 1) (hexDigit k.toNat 0)]
  -- 9TCRSIs0 (VVVVVVVV (VVVVVVVV))
  | .performArithmeticRegister t c r s s' => [hexWord 9 t c r s (flagDigit false) s' 0]
  | .performArithmeticImmediate t c r s s' v =>
    hexWord 9 t c r s (flagDigit true) s' 0 :: immediateWords t v
  -- ATSRIOxa (aaaaaaaa)
  | .storeRegisterToAddress t s r i offset =>
    let (o, x, a, rest) := offset.digits
    hexWord 10 t s r (flagDigit i) o x a :: rest
  -- C0TcS0Ma aaaaaaaa, C0TcS1Mr, C0TcS2Ra aaaaaaaa and C0TcS3Rr
  | .beginRegisterConditionalAddress t c s operand =>
    let (x, d1, d0, rest) := operand.digits
    hexWord 12 0 t c s x d1 d0 :: rest
  -- C0TcS400 VVVVVVVV (VVVVVVVV)
  | .beginRegisterConditionalStatic t c s v => hexWord 12 0 t c s 4 0 0 :: immediateWords t v
  -- C0TcS5X0
  | .beginRegisterConditionalOther t c s x => [hexWord 12 0 t c s 5 x 0]
  -- C10D0Sx0
  | .saveRestoreRegister d s x => [hexWord 12 1 0 d 0 s x 0]
  -- C2x0XXXX
  | .saveRestoreRegisterMask x mask =>
    [hexWord 12 2 x 0 (hexDigit mask.toNat 3) (hexDigit mask.toNat 2) (hexDigit mask.toNat 1)
      (hexDigit mask.toNat 0)]
  -- C3000XXx
  | .readWriteStaticRegister staticIdx idx =>
    [hexWord 12 3 0 0 0 (hexDigit staticIdx.val 1) (hexDigit staticIdx.val 0) idx]
  -- FF0?????, for both: the comment of `ResumeProcess` repeats the one of `PauseProcess`
  | .pauseProcess unused | .resumeProcess unused =>
    [hexWord 15 15 0 (hexDigit unused.toNat 4) (hexDigit unused.toNat 3)
      (hexDigit unused.toNat 2) (hexDigit unused.toNat 1) (hexDigit unused.toNat 0)]
  -- FFFTI0Ma aaaaaaaa, FFFTI1Mr, FFFTI2Ra aaaaaaaa and FFFTI3Rr
  | .debugLogAddress t i operand =>
    let (x, d1, d0, rest) := operand.digits
    hexWord 15 15 15 t i x d1 d0 :: rest
  -- FFFTI4X0
  | .debugLogRegister t i x => [hexWord 15 15 15 t i 4 x 0]

end WrittenOpcode

/-- The operands of an offset type as fields. The source fills `ofs_reg_index` from `x` for all
types. -/
def WrittenOffset.opcode (o : StoreRegisterToAddressOpcode) :
    WrittenOffset → StoreRegisterToAddressOpcode
  | .none x _ => { o with ofsType := .none, ofsRegIndex := x }
  | .reg x _ => { o with ofsType := .reg, ofsRegIndex := x }
  | .imm x a => { o with ofsType := .imm, ofsRegIndex := x, relAddress := a.zeroExtend 64 }
  | .memReg x _ => { o with ofsType := .memReg, ofsRegIndex := x, memType := .ofNibble x }
  | .memImm x a =>
    { o with
      ofsType := .memImm, ofsRegIndex := x, memType := .ofNibble x, relAddress := a.zeroExtend 64 }
  | .memImmReg x a =>
    { o with
      ofsType := .memImmReg, ofsRegIndex := x, memType := .ofNibble x
      relAddress := a.zeroExtend 64 }

/-- The value operand of a condition as fields. -/
def WrittenAddress.condition (o : BeginRegisterConditionalOpcode) :
    WrittenAddress → BeginRegisterConditionalOpcode
  | .memoryRelAddr m a =>
    { o with compType := .memoryRelAddr, memType := .ofNibble m, relAddress := a.zeroExtend 64 }
  | .memoryOfsReg m r =>
    { o with compType := .memoryOfsReg, memType := .ofNibble m, ofsRegIndex := r }
  | .registerRelAddr r a =>
    { o with compType := .registerRelAddr, addrRegIndex := r, relAddress := a.zeroExtend 64 }
  | .registerOfsReg r o' =>
    { o with compType := .registerOfsReg, addrRegIndex := r, ofsRegIndex := o' }

/-- The value operand of a log as fields. -/
def WrittenAddress.log (o : DebugLogOpcode) : WrittenAddress → DebugLogOpcode
  | .memoryRelAddr m a =>
    { o with valType := .memoryRelAddr, memType := .ofNibble m, relAddress := a.zeroExtend 64 }
  | .memoryOfsReg m r =>
    { o with valType := .memoryOfsReg, memType := .ofNibble m, ofsRegIndex := r }
  | .registerRelAddr r a =>
    { o with valType := .registerRelAddr, addrRegIndex := r, relAddress := a.zeroExtend 64 }
  | .registerOfsReg r o' =>
    { o with valType := .registerOfsReg, addrRegIndex := r, ofsRegIndex := o' }

namespace WrittenOpcode

/-- The opcode that a layout stands for. A field for which it has no letter is zero. -/
def opcode : WrittenOpcode → Opcode
  | .storeStatic t m r a y => .storeStatic ⟨t, .ofNibble m, r, a.zeroExtend 64, y.zeroExtend 64⟩
  | .beginConditional t m c a y =>
    .beginConditional ⟨t, .ofNibble m, .ofNibble c, a.zeroExtend 64, y.zeroExtend 64⟩
  | .endConditional => .endConditional ⟨false⟩
  | .startLoop r v => .controlLoop ⟨true, r, v⟩
  | .endLoop r => .controlLoop ⟨false, r, 0⟩
  | .loadRegisterStatic r v => .loadRegisterStatic ⟨r, v⟩
  | .loadRegisterMemory t m r i a =>
    .loadRegisterMemory ⟨t, .ofNibble m, r, i, a.zeroExtend 64⟩
  | .storeStaticToAddress t r i o r' v => .storeStaticToAddress ⟨t, r, i, o, r', v⟩
  | .performArithmeticStatic t r c v => .performArithmeticStatic ⟨t, r, .ofNibble c, v⟩
  | .beginKeypressConditional k => .beginKeypressConditional ⟨k.zeroExtend 32⟩
  | .performArithmeticRegister t c r s s' =>
    .performArithmeticRegister ⟨t, .ofNibble c, r, s, s', false, 0⟩
  | .performArithmeticImmediate t c r s _ v =>
    .performArithmeticRegister ⟨t, .ofNibble c, r, s, 0, true, v.zeroExtend 64⟩
  | .storeRegisterToAddress t s r i offset =>
    .storeRegisterToAddress (offset.opcode ⟨t, s, r, i, .none, .mainNso, 0, 0⟩)
  | .beginRegisterConditionalAddress t c s operand =>
    .beginRegisterConditional
      (operand.condition ⟨t, .ofNibble c, s, .memoryRelAddr, .mainNso, 0, 0, 0, 0, 0⟩)
  | .beginRegisterConditionalStatic t c s v =>
    .beginRegisterConditional
      ⟨t, .ofNibble c, s, .staticValue, .mainNso, 0, 0, 0, 0, v.zeroExtend 64⟩
  | .beginRegisterConditionalOther t c s x =>
    .beginRegisterConditional ⟨t, .ofNibble c, s, .otherRegister, .mainNso, 0, x, 0, 0, 0⟩
  | .saveRestoreRegister d s x => .saveRestoreRegister ⟨d, s, .ofNibble x⟩
  | .saveRestoreRegisterMask x mask => .saveRestoreRegisterMask ⟨.ofNibble x, mask⟩
  | .readWriteStaticRegister staticIdx idx => .readWriteStaticRegister ⟨staticIdx, idx⟩
  | .pauseProcess _ => .pauseProcess
  | .resumeProcess _ => .resumeProcess
  | .debugLogAddress t i operand =>
    .debugLog (operand.log ⟨t, i, .memoryRelAddr, .mainNso, 0, 0, 0, 0⟩)
  | .debugLogRegister t i x => .debugLog ⟨t, i, .registerValue, .mainNso, 0, x, 0, 0⟩

/-- The opcode with its flag for the start of a block. -/
def cheatVmOpcode (w : WrittenOpcode) : CheatVmOpcode :=
  ⟨w.opcode.beginsBlock, w.opcode⟩

/-- The layouts that the code reads as they are written: a control loop on register 0 only, and
any opcode but `ResumeProcess`. -/
def ReadAsWritten : WrittenOpcode → Prop
  | .startLoop r _ => r = 0
  | .endLoop r => r = 0
  | .resumeProcess _ => False
  | _ => True

theorem parse_of_decodeOperands {firstDword : Dword} {ws rest : List Dword} {op : Opcode}
    (h : (decodeOperands firstDword (opcodeTypeOf firstDword)).parse ws = some (some op, rest)) :
    decoder.parse (firstDword :: ws) = some (some ⟨op.beginsBlock, op⟩, rest) := by
  have hbegins := (beginsBlock_decodeOperands firstDword _).of_parse h op rfl
  rw [← hbegins]
  exact Reader.parse_bind_of_parse h

theorem parse_words (w : WrittenOpcode) (h : w.ReadAsWritten) :
    decoder.parse w.words = some (some w.cheatVmOpcode, []) := by
  cases w <;> refine parse_of_decodeOperands ?_
  case startLoop r v =>
    obtain rfl : r = 0 := h
    simp [opcodeTypeOf, ofNat, decodeOperands, opcode]
  case endLoop r =>
    obtain rfl : r = 0 := h
    simp [opcodeTypeOf, ofNat, decodeOperands, opcode]
  case storeRegisterToAddress t s r i offset =>
    cases offset <;>
      simp [opcodeTypeOf, ofNat, decodeOperands, opcode, WrittenOffset.opcode,
        StoreRegisterOffsetType.ofNibble]
  case beginRegisterConditionalAddress t c s operand =>
    cases operand <;>
      simp [opcodeTypeOf, ofNat, decodeOperands, opcode, WrittenAddress.condition, ofNibble]
  case debugLogAddress t i operand =>
    cases operand <;>
      simp [opcodeTypeOf, ofNat, decodeOperands, opcode, WrittenAddress.log,
        DebugLogValueType.ofNibble]
  case beginKeypressConditional k =>
    simp [opcodeTypeOf, ofNat, decodeOperands, opcode, and_lowMask_hexWord]
  case saveRestoreRegisterMask x mask =>
    simp [opcodeTypeOf, ofNat, decodeOperands, opcode, setWidth_hexWord]
  case readWriteStaticRegister n idx =>
    simp [opcodeTypeOf, ofNat, decodeOperands, opcode, shiftRight_hexWord]
  case beginRegisterConditionalStatic | beginRegisterConditionalOther =>
    simp [opcodeTypeOf, ofNat, decodeOperands, opcode, ofNibble]
  case debugLogRegister =>
    simp [opcodeTypeOf, ofNat, decodeOperands, opcode, DebugLogValueType.ofNibble]
  case resumeProcess => exact h.elim
  all_goals simp [opcodeTypeOf, ofNat, decodeOperands, opcode]

end WrittenOpcode

/-! ## How many words an opcode has -/

/-- The words of an immediate value. -/
def immediateCount (t : Fin 16) : Nat := if t = 8 then 2 else 1

/-- The words behind the first one, by the layout of the opcode type. -/
def operandCount (firstDword : Dword) : CheatVmOpcodeType → Nat
  | .storeStatic | .beginConditionalBlock => 1 + immediateCount (nibble firstDword 24)
  | .controlLoop => if nibble firstDword 24 = 0 then 1 else 0
  | .loadRegisterStatic | .storeStaticToAddress => 2
  | .loadRegisterMemory | .performArithmeticStatic => 1
  | .performArithmeticRegister =>
    if nibble firstDword 8 = 0 then 0 else immediateCount (nibble firstDword 24)
  | .storeRegisterToAddress =>
    match StoreRegisterOffsetType.ofNibble (nibble firstDword 8) with
    | .imm | .memImm | .memImmReg => 1
    | _ => 0
  | .beginRegisterConditionalBlock =>
    match ofNibble (nibble firstDword 8) with
    | .memoryRelAddr | .registerRelAddr => 1
    | .staticValue => immediateCount (nibble firstDword 20)
    | _ => 0
  | .debugLog =>
    match DebugLogValueType.ofNibble (nibble firstDword 8) with
    | .memoryRelAddr | .registerRelAddr => 1
    | _ => 0
  | _ => 0

/-- The number of words of the opcode that starts with a word. -/
def wordCount (firstDword : Dword) : Nat := 1 + operandCount firstDword (opcodeTypeOf firstDword)

/-- The opcode types that `DecodeNextOpcode` has a case for. -/
def CheatVmOpcodeType.isKnown : CheatVmOpcodeType → Bool
  | .reserved11 | .extendedWidth | .doubleExtendedWidth | .unrecognized _ => false
  | _ => true

theorem reads_getNextDword : getNextDword.Reads 1 := Reader.Reads.word

theorem reads_getNextVmInt (t : Fin 16) : (getNextVmInt t).Reads (immediateCount t) := by
  fin_cases t
  all_goals first
    | exact ⟨0, rfl, fun _ => rfl⟩
    | exact ⟨1, rfl, fun _ => ⟨0, rfl, fun _ => rfl⟩⟩

theorem reads_word_pure {α : Type} (f : Dword → α) :
    (getNextDword >>= fun x => pure (f x)).Reads 1 :=
  reads_getNextDword.bind fun _ => .pure _

theorem reads_vmInt_pure {α : Type} (t : Fin 16) (f : VmInt → α) :
    (getNextVmInt t >>= fun v => pure (f v)).Reads (immediateCount t) :=
  (reads_getNextVmInt t).bind fun _ => .pure _

theorem decodeOperands_reads (firstDword : Dword) (t : CheatVmOpcodeType) :
    (decodeOperands firstDword t).Reads (operandCount firstDword t) := by
  cases t with
  | storeStatic => exact reads_getNextDword.bind fun _ => reads_vmInt_pure _ _
  | beginConditionalBlock => exact reads_getNextDword.bind fun _ => reads_vmInt_pure _ _
  | controlLoop =>
    simp only [decodeOperands, operandCount]
    by_cases h : nibble firstDword 24 = 0
    · simp only [h, decide_true, if_true]
      exact reads_word_pure _
    · simp only [h, decide_false, if_false]
      exact .pure _
  | loadRegisterStatic => exact reads_getNextDword.bind fun _ => reads_word_pure _
  | storeStaticToAddress => exact reads_getNextDword.bind fun _ => reads_word_pure _
  | loadRegisterMemory => exact reads_word_pure _
  | performArithmeticStatic => exact reads_word_pure _
  | performArithmeticRegister =>
    simp only [decodeOperands, operandCount]
    by_cases h : nibble firstDword 8 = 0
    · simp only [h, ne_eq, not_true, decide_false, if_true]
      exact .pure _
    · simp only [h, ne_eq, not_false_iff, decide_true, if_true, if_false]
      exact reads_vmInt_pure _ _
  | storeRegisterToAddress =>
    simp only [decodeOperands, operandCount]
    cases StoreRegisterOffsetType.ofNibble (nibble firstDword 8) with
    | imm | memImm | memImmReg => exact reads_word_pure _
    | _ => rfl
  | beginRegisterConditionalBlock =>
    simp only [decodeOperands, operandCount]
    cases ofNibble (nibble firstDword 8) with
    | memoryRelAddr | registerRelAddr => exact reads_word_pure _
    | staticValue => exact reads_vmInt_pure _ _
    | _ => rfl
  | debugLog =>
    simp only [decodeOperands, operandCount]
    cases DebugLogValueType.ofNibble (nibble firstDword 8) with
    | memoryRelAddr | registerRelAddr => exact reads_word_pure _
    | _ => rfl
  | _ => rfl

theorem isSome_decodeOperands (firstDword : Dword) (t : CheatVmOpcodeType) :
    (decodeOperands firstDword t).All fun o => o.isSome = t.isKnown := by
  have hleaf : ∀ op : Opcode, t.isKnown = true →
      (pure (some op) : Reader Dword (Option Opcode)).All fun o => o.isSome = t.isKnown :=
    fun _ hknown => hknown.symm
  cases t <;> simp only [decodeOperands]
  case reserved11 | extendedWidth | doubleExtendedWidth | unrecognized => exact rfl
  all_goals
    repeat' first
      | exact hleaf _ rfl
      | refine .bind _ fun _ => ?_
      | split

theorem decodeRest_reads (firstDword : Dword) :
    (decodeRest firstDword).Reads (operandCount firstDword (opcodeTypeOf firstDword)) :=
  (decodeOperands_reads firstDword _).bind fun _ => .pure _

theorem isSome_decodeRest (firstDword : Dword) :
    (decodeRest firstDword).All fun o => o.isSome = (opcodeTypeOf firstDword).isKnown := by
  refine Reader.All.map (isSome_decodeOperands firstDword _) fun o ho => ?_
  rw [Option.isSome_map, ho]

theorem length_immediateWords (t : Fin 16) (v : BitVec (immediateBits t)) :
    (immediateWords t v).length = immediateCount t := by
  rw [immediateWords, immediateCount]
  split_ifs <;> rfl

/-- A layout has as many words as its first word says. -/
theorem WrittenOpcode.length_words (w : WrittenOpcode) :
    ∃ firstDword ws, w.words = firstDword :: ws ∧ w.words.length = wordCount firstDword := by
  cases w
  case storeRegisterToAddress t s r i offset =>
    refine ⟨_, _, rfl, ?_⟩
    cases offset <;>
      simp [words, WrittenOffset.digits, wordCount, opcodeTypeOf, ofNat,
        operandCount, StoreRegisterOffsetType.ofNibble]
  case beginRegisterConditionalAddress t c s operand =>
    refine ⟨_, _, rfl, ?_⟩
    cases operand <;>
      simp [words, WrittenAddress.digits, wordCount, opcodeTypeOf, ofNat, operandCount, ofNibble]
  case debugLogAddress t i operand =>
    refine ⟨_, _, rfl, ?_⟩
    cases operand <;>
      simp [words, WrittenAddress.digits, wordCount, opcodeTypeOf, ofNat,
        operandCount, DebugLogValueType.ofNibble]
  all_goals
    refine ⟨_, _, rfl, ?_⟩
    simp [words, wordCount, opcodeTypeOf, ofNat, operandCount,
      length_immediateWords, ofNibble, DebugLogValueType.ofNibble]
  all_goals omega

/-! ## Decoding what is written -/

namespace DmntCheatVm

variable {σ : Type}

/-- `DecodeNextOpcode` on words that decode to one opcode. -/
theorem decodeNextOpcode_of_parse {vm : DmntCheatVm σ} {firstDword : Dword} {ws tail : List Dword}
    {op : CheatVmOpcode} (h : decoder.parse (firstDword :: ws) = some (some op, []))
    (hat : vm.At (firstDword :: ws ++ tail)) :
    vm.decodeNextOpcode = (some op, vm.moveTo (vm.instructionPtr + (firstDword :: ws).length)) := by
  obtain ⟨hfirst, hws⟩ := Reader.of_drop_eq_cons hat.code_eq
  have hrun := Reader.runFrom_of_parse_all (r := decodeRest firstDword) h hws true
  have hlength : vm.instructionPtr + 1 + ws.length =
      vm.instructionPtr + (firstDword :: ws).length := by
    rw [List.length_cons]
    omega
  simp only [decodeNextOpcode, hfirst, hat.success, if_true, hrun, moveTo, hlength]

/-- The decode fails exactly if a word is missing or the opcode type is not known. -/
theorem decodeNextOpcode_eq_none_iff {vm : DmntCheatVm σ} (h : vm.decodeSuccess = true) :
    vm.decodeNextOpcode.1 = none ↔ vm.program.length ≤ vm.instructionPtr ∨
        ∃ firstDword, vm.program[vm.instructionPtr]? = some firstDword ∧
          ((opcodeTypeOf firstDword).isKnown = false ∨
            vm.program.length < vm.instructionPtr + wordCount firstDword) := by
  cases hfirst : vm.program[vm.instructionPtr]? with
  | none =>
    have hout := List.getElem?_eq_none_iff.mp hfirst
    simp only [decodeNextOpcode, hfirst]
    exact iff_of_true trivial (.inl hout)
  | some firstDword =>
    have hin := (List.getElem?_eq_some_iff.mp hfirst).1
    have hvalid := (decodeRest_reads firstDword).runFrom_valid vm.program
      (vm.instructionPtr + 1) true
    have hknown := (isSome_decodeRest firstDword).of_runFrom vm.program (vm.instructionPtr + 1) true
    have hlong : (vm.instructionPtr + 1 + operandCount firstDword (opcodeTypeOf firstDword) ≤
        vm.program.length ∨ operandCount firstDword (opcodeTypeOf firstDword) = 0) ↔
        ¬vm.program.length < vm.instructionPtr + wordCount firstDword := by
      rw [wordCount]
      omega
    have hiff : vm.decodeNextOpcode.1 = none ↔
        ((decodeRest firstDword).runFrom vm.program (vm.instructionPtr + 1) true).1 = none ∨
          ((decodeRest firstDword).runFrom vm.program (vm.instructionPtr + 1) true).2.2 =
            false := by
      simp only [decodeNextOpcode, hfirst, h, if_true]
      rcases (decodeRest firstDword).runFrom vm.program (vm.instructionPtr + 1) true with
        ⟨_ | op, ip, _ | _⟩ <;> simp
    rw [hiff, hvalid, Bool.true_and, decide_eq_false_iff_not, hlong, Classical.not_not,
      ← Option.isNone_iff_eq_none, ← Option.isSome_eq_false_iff, hknown]
    constructor
    · exact fun hfail => .inr ⟨firstDword, rfl, hfail⟩
    · rintro (hout | ⟨_, ⟨⟩, hfail⟩)
      · omega
      · exact hfail

end DmntCheatVm

namespace WrittenOpcode

/-- Wherever the interpreter stands before the words of the layout, `DecodeNextOpcode` delivers its
opcode and moves behind its words. -/
def Decodes (w : WrittenOpcode) : Prop :=
  ∀ (σ : Type) (vm : DmntCheatVm σ) (tail : List Dword), vm.At (w.words ++ tail) →
    vm.decodeNextOpcode = (some w.cheatVmOpcode, vm.moveTo (vm.instructionPtr + w.words.length))

theorem decodes_of_readAsWritten {w : WrittenOpcode} (h : w.ReadAsWritten) : w.Decodes := by
  intro σ vm tail hat
  obtain ⟨firstDword, ws, hwords, -⟩ := w.length_words
  have hparse := w.parse_words h
  rw [hwords] at hat hparse ⊢
  exact DmntCheatVm.decodeNextOpcode_of_parse hparse hat

/-- What the words of a layout decode to is the only opcode they can give back. -/
theorem Decodes.eq_of_parse {w : WrittenOpcode} (h : w.Decodes) {op : CheatVmOpcode}
    (hparse : decoder.parse w.words = some (some op, [])) : op = w.cheatVmOpcode := by
  obtain ⟨firstDword, ws, hwords, -⟩ := w.length_words
  have hat : (loaded w.words).resetState.At (w.words ++ []) := ⟨rfl, (List.append_nil _).symm⟩
  have hdecode := h Unit (loaded w.words).resetState [] hat
  rw [hwords] at hat hparse hdecode
  rw [DmntCheatVm.decodeNextOpcode_of_parse hparse hat] at hdecode
  exact Option.some.inj (Prod.mk.inj hdecode).1

/-- The register of a loop start is read from a digit that its layout keeps at zero. -/
theorem parse_startLoop (r : Fin 16) (v : Dword) :
    decoder.parse (startLoop r v).words = some (some ⟨false, .controlLoop ⟨true, 0, v⟩⟩, []) := by
  refine @parse_of_decodeOperands _ _ _ (.controlLoop ⟨true, 0, v⟩) ?_
  simp [opcodeTypeOf, ofNat, decodeOperands]

theorem parse_endLoop (r : Fin 16) :
    decoder.parse (endLoop r).words = some (some ⟨false, .controlLoop ⟨false, 0, 0⟩⟩, []) := by
  refine @parse_of_decodeOperands _ _ _ (.controlLoop ⟨false, 0, 0⟩) ?_
  simp [opcodeTypeOf, ofNat, decodeOperands]

theorem decodes_iff (w : WrittenOpcode) : w.Decodes ↔ w.ReadAsWritten := by
  refine ⟨fun h => ?_, decodes_of_readAsWritten⟩
  cases w with
  | startLoop r v =>
    have heq := h.eq_of_parse (parse_startLoop r v)
    injection heq with _ hop
    injection hop with hloop
    injection hloop with _ hr
    exact hr.symm
  | endLoop r =>
    have heq := h.eq_of_parse (parse_endLoop r)
    injection heq with _ hop
    injection hop with hloop
    injection hloop with _ hr
    exact hr.symm
  | resumeProcess unused =>
    have heq := h.eq_of_parse ((pauseProcess unused).parse_words trivial)
    injection heq with _ hop
    cases hop
  | _ => trivial

/-- The round trip holds exactly for the layouts that the code reads as they are written; a layout
has the number of words that its first word announces, and on every program the decode fails
exactly if one of these is missing or the type is not known. -/
theorem decode_words_iff (w : WrittenOpcode) :
    (w.Decodes ↔ w.ReadAsWritten) ∧ (∃ firstDword ws,
        w.words = firstDword :: ws ∧ w.words.length = wordCount firstDword) ∧
      ∀ (σ : Type) (vm : DmntCheatVm σ), vm.decodeSuccess = true → (vm.decodeNextOpcode.1 = none ↔
          vm.program.length ≤ vm.instructionPtr ∨
            ∃ firstDword, vm.program[vm.instructionPtr]? = some firstDword ∧
              ((opcodeTypeOf firstDword).isKnown = false ∨
                vm.program.length < vm.instructionPtr + wordCount firstDword)) :=
  ⟨decodes_iff w, length_words w, fun _ _ h => DmntCheatVm.decodeNextOpcode_eq_none_iff h⟩

theorem decode_words_saveRegister :
    (saveRestoreRegister 4 7 1).Decodes ∧ (saveRestoreRegister 4 7 1).words = [0xC1040710] ∧
      (loaded [0xC1040710]).resetState.decodeNextOpcode.1 ≠ none := by
  refine ⟨(decode_words_iff _).1.mpr trivial, rfl, fun h => ?_⟩
  have hfails := (decode_words_iff (saveRestoreRegister 4 7 1)).2.2 Unit
    (loaded [0xC1040710]).resetState rfl
  rcases hfails.mp h with hout | ⟨_, ⟨⟩, hfail⟩
  · exact absurd hout (by decide)
  · exact absurd hfail (by decide)

/-- `30010000 00000005`, a loop on register 1, is decoded as a loop on register 0. -/
theorem decode_startLoop_one :
    (loaded (startLoop 1 5).words).resetState.decodeNextOpcode.1 =
        some ⟨false, .controlLoop ⟨true, 0, 5⟩⟩ ∧
      ¬∀ w : WrittenOpcode, w.Decodes := by
  refine ⟨rfl, fun h => ?_⟩
  have heq := (h (startLoop 1 5)).eq_of_parse (parse_startLoop 1 5)
  revert heq
  decide

end WrittenOpcode

end Sudachi.Memory
