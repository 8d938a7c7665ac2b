import Mathlib.Logic.Function.Basic
import Sudachi.Foundations.WordReader
import Mathlib.Algebra.Order.Ring.Nat

/-!
# The cheat virtual machine

`DmntCheatVm` of `dmnt_cheat_vm.h` and `dmnt_cheat_vm.cpp`: the opcodes, their decoding from a list
of 32-bit words, and the interpreter. The memory of the process and the logging sit behind the
callbacks, which are arbitrary functions on an arbitrary world; a read leaves the world alone.
`CommandLog` only prints and is left out. A shift by 64 or more, undefined in the source, takes the
shift amount modulo 64.
-/

set_option autoImplicit false

namespace Sudachi.Memory

open Sudachi.Foundations Function

abbrev Dword := BitVec 32

abbrev Qword := BitVec 64

instance neZero_sixteen : NeZero 16 := ⟨by decide⟩

/-- The four bits of a dword from bit `shift` on: `(dword >> shift) & 0xF`. -/
def nibble (dword : Dword) (shift : Nat) : Fin 16 :=
  ⟨dword.toNat >>> shift % 16, Nat.mod_lt _ (by decide)⟩

/-- `CheatVmOpcodeType`; `unrecognized` is every value without a name. -/
inductive CheatVmOpcodeType where
  | storeStatic
  | beginConditionalBlock
  | endConditionalBlock
  | controlLoop
  | loadRegisterStatic
  | loadRegisterMemory
  | storeStaticToAddress
  | performArithmeticStatic
  | beginKeypressConditionalBlock
  | performArithmeticRegister
  | storeRegisterToAddress
  | reserved11
  | extendedWidth
  | beginRegisterConditionalBlock
  | saveRestoreRegister
  | saveRestoreRegisterMask
  | readWriteStaticRegister
  | doubleExtendedWidth
  | pauseProcess
  | resumeProcess
  | debugLog
  | unrecognized (value : Nat)
  deriving DecidableEq

def CheatVmOpcodeType.ofNat : Nat → CheatVmOpcodeType
  | 0 => .storeStatic
  | 1 => .beginConditionalBlock
  | 2 => .endConditionalBlock
  | 3 => .controlLoop
  | 4 => .loadRegisterStatic
  | 5 => .loadRegisterMemory
  | 6 => .storeStaticToAddress
  | 7 => .performArithmeticStatic
  | 8 => .beginKeypressConditionalBlock
  | 9 => .performArithmeticRegister
  | 10 => .storeRegisterToAddress
  | 11 => .reserved11
  | 12 => .extendedWidth
  | 0xC0 => .beginRegisterConditionalBlock
  | 0xC1 => .saveRestoreRegister
  | 0xC2 => .saveRestoreRegisterMask
  | 0xC3 => .readWriteStaticRegister
  | 0xF0 => .doubleExtendedWidth
  | 0xFF0 => .pauseProcess
  | 0xFF1 => .resumeProcess
  | 0xFFF => .debugLog
  | value => .unrecognized value

/-- `MemoryAccessType`; the four-bit field of an instruction also has values without a name. -/
inductive MemoryAccessType where
  | mainNso
  | heap
  | alias
  | aslr
  | unnamed (value : Fin 16)
  deriving DecidableEq

def MemoryAccessType.ofNibble (value : Fin 16) : MemoryAccessType :=
  match value.val with
  | 0 => .mainNso
  | 1 => .heap
  | 2 => .alias
  | 3 => .aslr
  | _ => .unnamed value

/-- `ConditionalComparisonType`. -/
inductive ConditionalComparisonType where
  | gt
  | ge
  | lt
  | le
  | eq
  | ne
  | unnamed (value : Fin 16)
  deriving DecidableEq

def ConditionalComparisonType.ofNibble (value : Fin 16) : ConditionalComparisonType :=
  match value.val with
  | 1 => .gt
  | 2 => .ge
  | 3 => .lt
  | 4 => .le
  | 5 => .eq
  | 6 => .ne
  | _ => .unnamed value

/-- `RegisterArithmeticType`. -/
inductive RegisterArithmeticType where
  | addition
  | subtraction
  | multiplication
  | leftShift
  | rightShift
  | logicalAnd
  | logicalOr
  | logicalNot
  | logicalXor
  | none
  | unnamed (value : Fin 16)
  deriving DecidableEq

def RegisterArithmeticType.ofNibble (value : Fin 16) : RegisterArithmeticType :=
  match value.val with
  | 0 => .addition
  | 1 => .subtraction
  | 2 => .multiplication
  | 3 => .leftShift
  | 4 => .rightShift
  | 5 => .logicalAnd
  | 6 => .logicalOr
  | 7 => .logicalNot
  | 8 => .logicalXor
  | 9 => .none
  | _ => .unnamed value

/-- `StoreRegisterOffsetType`. -/
inductive StoreRegisterOffsetType where
  | none
  | reg
  | imm
  | memReg
  | memImm
  | memImmReg
  | unnamed (value : Fin 16)
  deriving DecidableEq

def StoreRegisterOffsetType.ofNibble (value : Fin 16) : StoreRegisterOffsetType :=
  match value.val with
  | 0 => .none
  | 1 => .reg
  | 2 => .imm
  | 3 => .memReg
  | 4 => .memImm
  | 5 => .memImmReg
  | _ => .unnamed value

/-- `CompareRegisterValueType`. -/
inductive CompareRegisterValueType where
  | memoryRelAddr
  | memoryOfsReg
  | registerRelAddr
  | registerOfsReg
  | staticValue
  | otherRegister
  | unnamed (value : Fin 16)
  deriving DecidableEq

def CompareRegisterValueType.ofNibble (value : Fin 16) : CompareRegisterValueType :=
  match value.val with
  | 0 => .memoryRelAddr
  | 1 => .memoryOfsReg
  | 2 => .registerRelAddr
  | 3 => .registerOfsReg
  | 4 => .staticValue
  | 5 => .otherRegister
  | _ => .unnamed value

/-- `SaveRestoreRegisterOpType`. -/
inductive SaveRestoreRegisterOpType where
  | restore
  | save
  | clearSaved
  | clearRegs
  | unnamed (value : Fin 16)
  deriving DecidableEq

def SaveRestoreRegisterOpType.ofNibble (value : Fin 16) : SaveRestoreRegisterOpType :=
  match value.val with
  | 0 => .restore
  | 1 => .save
  | 2 => .clearSaved
  | 3 => .clearRegs
  | _ => .unnamed value

/-- `DebugLogValueType`. -/
inductive DebugLogValueType where
  | memoryRelAddr
  | memoryOfsReg
  | registerRelAddr
  | registerOfsReg
  | registerValue
  | unnamed (value : Fin 16)
  deriving DecidableEq

def DebugLogValueType.ofNibble (value : Fin 16) : DebugLogValueType :=
  match value.val with
  | 0 => .memoryRelAddr
  | 1 => .memoryOfsReg
  | 2 => .registerRelAddr
  | 3 => .registerOfsReg
  | 4 => .registerValue
  | _ => .unnamed value

/-- `VmInt`, as the 64 bits of the union. -/
abbrev VmInt := Qword

structure StoreStaticOpcode where
  bitWidth : Fin 16
  memType : MemoryAccessType
  offsetRegister : Fin 16
  relAddress : Qword
  value : VmInt
  deriving DecidableEq

structure BeginConditionalOpcode where
  bitWidth : Fin 16
  memType : MemoryAccessType
  condType : ConditionalComparisonType
  relAddress : Qword
  value : VmInt
  deriving DecidableEq

structure EndConditionalOpcode where
  isElse : Bool
  deriving DecidableEq

structure ControlLoopOpcode where
  startLoop : Bool
  regIndex : Fin 16
  numIters : Dword
  deriving DecidableEq

structure LoadRegisterStaticOpcode where
  regIndex : Fin 16
  value : Qword
  deriving DecidableEq

structure LoadRegisterMemoryOpcode where
  bitWidth : Fin 16
  memType : MemoryAccessType
  regIndex : Fin 16
  loadFromReg : Bool
  relAddress : Qword
  deriving DecidableEq

structure StoreStaticToAddressOpcode where
  bitWidth : Fin 16
  regIndex : Fin 16
  incrementReg : Bool
  addOffsetReg : Bool
  offsetRegIndex : Fin 16
  value : Qword
  deriving DecidableEq

structure PerformArithmeticStaticOpcode where
  bitWidth : Fin 16
  regIndex : Fin 16
  mathType : RegisterArithmeticType
  value : Dword
  deriving DecidableEq

structure BeginKeypressConditionalOpcode where
  keyMask : Dword
  deriving DecidableEq

structure PerformArithmeticRegisterOpcode where
  bitWidth : Fin 16
  mathType : RegisterArithmeticType
  dstRegIndex : Fin 16
  srcReg1Index : Fin 16
  srcReg2Index : Fin 16
  hasImmediate : Bool
  value : VmInt
  deriving DecidableEq

structure StoreRegisterToAddressOpcode where
  bitWidth : Fin 16
  strRegIndex : Fin 16
  addrRegIndex : Fin 16
  incrementReg : Bool
  ofsType : StoreRegisterOffsetType
  memType : MemoryAccessType
  ofsRegIndex : Fin 16
  relAddress : Qword
  deriving DecidableEq

structure BeginRegisterConditionalOpcode where
  bitWidth : Fin 16
  condType : ConditionalComparisonType
  valRegIndex : Fin 16
  compType : CompareRegisterValueType
  memType : MemoryAccessType
  addrRegIndex : Fin 16
  otherRegIndex : Fin 16
  ofsRegIndex : Fin 16
  relAddress : Qword
  value : VmInt
  deriving DecidableEq

structure SaveRestoreRegisterOpcode where
  dstIndex : Fin 16
  srcIndex : Fin 16
  opType : SaveRestoreRegisterOpType
  deriving DecidableEq

/-- Bit `i` of `shouldOperate` is the source's `should_operate[i]`. -/
structure SaveRestoreRegisterMaskOpcode where
  opType : SaveRestoreRegisterOpType
  shouldOperate : BitVec 16
  deriving DecidableEq

structure ReadWriteStaticRegisterOpcode where
  staticIdx : Fin 256
  idx : Fin 16
  deriving DecidableEq

structure DebugLogOpcode where
  bitWidth : Fin 16
  logId : Fin 16
  valType : DebugLogValueType
  memType : MemoryAccessType
  addrRegIndex : Fin 16
  valRegIndex : Fin 16
  ofsRegIndex : Fin 16
  relAddress : Qword
  deriving DecidableEq

/-- The variant of `CheatVmOpcode`. -/
inductive Opcode where
  | storeStatic (o : StoreStaticOpcode)
  | beginConditional (o : BeginConditionalOpcode)
  | endConditional (o : EndConditionalOpcode)
  | controlLoop (o : ControlLoopOpcode)
  | loadRegisterStatic (o : LoadRegisterStaticOpcode)
  | loadRegisterMemory (o : LoadRegisterMemoryOpcode)
  | storeStaticToAddress (o : StoreStaticToAddressOpcode)
  | performArithmeticStatic (o : PerformArithmeticStaticOpcode)
  | beginKeypressConditional (o : BeginKeypressConditionalOpcode)
  | performArithmeticRegister (o : PerformArithmeticRegisterOpcode)
  | storeRegisterToAddress (o : StoreRegisterToAddressOpcode)
  | beginRegisterConditional (o : BeginRegisterConditionalOpcode)
  | saveRestoreRegister (o : SaveRestoreRegisterOpcode)
  | saveRestoreRegisterMask (o : SaveRestoreRegisterMaskOpcode)
  | readWriteStaticRegister (o : ReadWriteStaticRegisterOpcode)
  | pauseProcess
  | resumeProcess
  | debugLog (o : DebugLogOpcode)
  deriving DecidableEq

/-- `CheatVmOpcode`. An unrecognized instruction never leaves the decoder and has no place here. -/
structure CheatVmOpcode where
  beginConditionalBlock : Bool
  opcode : Opcode
  deriving DecidableEq

/-- `GetNextDword`. -/
def getNextDword : Reader Dword Dword := .word

/-- Two dwords as the halves of a 64-bit number. -/
def joinDwords (high low : Dword) : Qword := high.zeroExtend 64 <<< 32 ||| low.zeroExtend 64

/-- `GetNextVmInt`. -/
def getNextVmInt (bitWidth : Fin 16) : Reader Dword VmInt := do
  let firstDword ← getNextDword
  match bitWidth.val with
  | 1 => pure ((firstDword.truncate 8).zeroExtend 64)
  | 2 => pure ((firstDword.truncate 16).zeroExtend 64)
  | 4 => pure (firstDword.zeroExtend 64)
  | 8 =>
    let secondDword ← getNextDword
    pure (joinDwords firstDword secondDword)
  | _ => pure 0

/-- The opcode type in the first one, two or three nibbles of an instruction. -/
def opcodeTypeOf (firstDword : Dword) : CheatVmOpcodeType :=
  let narrow := (nibble firstDword 28).val
  let extended := if 12 ≤ narrow then narrow <<< 4 ||| (nibble firstDword 24).val else narrow
  .ofNat (if 0xF0 ≤ extended then extended <<< 4 ||| (nibble firstDword 20).val else extended)

/-- Whether an opcode type starts a conditional block. -/
def CheatVmOpcodeType.beginsConditionalBlock : CheatVmOpcodeType → Bool
  | .beginConditionalBlock => true
  | .beginKeypressConditionalBlock => true
  | .beginRegisterConditionalBlock => true
  | _ => false

/-- The relative address whose upper `mask` bits come from the first dword. -/
def relAddressOf (firstDword : Dword) (mask : Dword) (secondDword : Dword) : Qword :=
  joinDwords (firstDword &&& mask) secondDword

/-- The switch of `DecodeNextOpcode`; `none` is an instruction that cannot be decoded. -/
def decodeOperands (firstDword : Dword) : CheatVmOpcodeType → Reader Dword (Option Opcode)
  | .storeStatic => do
      let secondDword ← getNextDword
      let bitWidth := nibble firstDword 24
      let value ← getNextVmInt bitWidth
      pure <| some <| .storeStatic
        { bitWidth := bitWidth
          memType := .ofNibble (nibble firstDword 20)
          offsetRegister := nibble firstDword 16
          relAddress := relAddressOf firstDword 0xFF secondDword
          value := value }
  | .beginConditionalBlock => do
      let secondDword ← getNextDword
      let bitWidth := nibble firstDword 24
      let value ← getNextVmInt bitWidth
      pure <| some <| .beginConditional
        { bitWidth := bitWidth
          memType := .ofNibble (nibble firstDword 20)
          condType := .ofNibble (nibble firstDword 16)
          relAddress := relAddressOf firstDword 0xFF secondDword
          value := value }
  | .endConditionalBlock =>
    pure <| some <| .endConditional { isElse := nibble firstDword 24 = 1 }
  | .controlLoop => do
      let startLoop : Bool := nibble firstDword 24 = 0
      let numIters ← if startLoop then getNextDword else pure 0
      pure <| some <| .controlLoop
        { startLoop := startLoop
          regIndex := nibble firstDword 20
          numIters := numIters }
  | .loadRegisterStatic => do
      let high ← getNextDword
      let low ← getNextDword
      pure <| some <| .loadRegisterStatic
        { regIndex := nibble firstDword 16
          value := joinDwords high low }
  | .loadRegisterMemory => do
      let secondDword ← getNextDword
      pure <| some <| .loadRegisterMemory
        { bitWidth := nibble firstDword 24
          memType := .ofNibble (nibble firstDword 20)
          regIndex := nibble firstDword 16
          loadFromReg := nibble firstDword 12 ≠ 0
          relAddress := relAddressOf firstDword 0xFF secondDword }
  | .storeStaticToAddress => do
      let high ← getNextDword
      let low ← getNextDword
      pure <| some <| .storeStaticToAddress
        { bitWidth := nibble firstDword 24
          regIndex := nibble firstDword 16
          incrementReg := nibble firstDword 12 ≠ 0
          addOffsetReg := nibble firstDword 8 ≠ 0
          offsetRegIndex := nibble firstDword 4
          value := joinDwords high low }
  | .performArithmeticStatic => do
      let value ← getNextDword
      pure <| some <| .performArithmeticStatic
        { bitWidth := nibble firstDword 24
          regIndex := nibble firstDword 16
          mathType := .ofNibble (nibble firstDword 12)
          value := value }
  | .beginKeypressConditionalBlock =>
    pure <| some <| .beginKeypressConditional { keyMask := firstDword &&& 0x0FFFFFFF }
  | .performArithmeticRegister => do
      let bitWidth := nibble firstDword 24
      let hasImmediate : Bool := nibble firstDword 8 ≠ 0
      let value ← if hasImmediate then getNextVmInt bitWidth else pure 0
      pure <| some <| .performArithmeticRegister
        { bitWidth := bitWidth
          mathType := .ofNibble (nibble firstDword 20)
          dstRegIndex := nibble firstDword 16
          srcReg1Index := nibble firstDword 12
          srcReg2Index := if hasImmediate then 0 else nibble firstDword 4
          hasImmediate := hasImmediate
          value := value }
  | .storeRegisterToAddress => do
      let base : StoreRegisterToAddressOpcode :=
        { bitWidth := nibble firstDword 24
          strRegIndex := nibble firstDword 20
          addrRegIndex := nibble firstDword 16
          incrementReg := nibble firstDword 12 ≠ 0
          ofsType := .ofNibble (nibble firstDword 8)
          memType := .mainNso
          ofsRegIndex := nibble firstDword 4
          relAddress := 0 }
      match base.ofsType with
      | .none => pure <| some <| .storeRegisterToAddress base
      | .reg => pure <| some <| .storeRegisterToAddress base
      | .imm =>
        let secondDword ← getNextDword
        pure <| some <| .storeRegisterToAddress
          { base with relAddress := relAddressOf firstDword 0xF secondDword }
      | .memReg =>
        pure <| some <| .storeRegisterToAddress
          { base with memType := .ofNibble (nibble firstDword 4) }
      | .memImm | .memImmReg =>
        let secondDword ← getNextDword
        pure <| some <| .storeRegisterToAddress
          { base with
            memType := .ofNibble (nibble firstDword 4)
            relAddress := relAddressOf firstDword 0xF secondDword }
      | .unnamed _ => pure <| some <| .storeRegisterToAddress { base with ofsType := .none }
  | .beginRegisterConditionalBlock => do
      let base : BeginRegisterConditionalOpcode :=
        { bitWidth := nibble firstDword 20
          condType := .ofNibble (nibble firstDword 16)
          valRegIndex := nibble firstDword 12
          compType := .ofNibble (nibble firstDword 8)
          memType := .mainNso
          addrRegIndex := 0
          otherRegIndex := 0
          ofsRegIndex := 0
          relAddress := 0
          value := 0 }
      match base.compType with
      | .staticValue =>
        let value ← getNextVmInt base.bitWidth
        pure <| some <| .beginRegisterConditional { base with value := value }
      | .otherRegister =>
        pure <| some <| .beginRegisterConditional
          { base with otherRegIndex := nibble firstDword 4 }
      | .memoryRelAddr =>
        let secondDword ← getNextDword
        pure <| some <| .beginRegisterConditional
          { base with
            memType := .ofNibble (nibble firstDword 4)
            relAddress := relAddressOf firstDword 0xF secondDword }
      | .memoryOfsReg =>
        pure <| some <| .beginRegisterConditional
          { base with
            memType := .ofNibble (nibble firstDword 4)
            ofsRegIndex := nibble firstDword 0 }
      | .registerRelAddr =>
        let secondDword ← getNextDword
        pure <| some <| .beginRegisterConditional
          { base with
            addrRegIndex := nibble firstDword 4
            relAddress := relAddressOf firstDword 0xF secondDword }
      | .registerOfsReg =>
        pure <| some <| .beginRegisterConditional
          { base with
            addrRegIndex := nibble firstDword 4
            ofsRegIndex := nibble firstDword 0 }
      | .unnamed _ => pure <| some <| .beginRegisterConditional base
  | .saveRestoreRegister =>
    pure <| some <| .saveRestoreRegister
      { dstIndex := nibble firstDword 16
        srcIndex := nibble firstDword 8
        opType := .ofNibble (nibble firstDword 4) }
  | .saveRestoreRegisterMask =>
    pure <| some <| .saveRestoreRegisterMask
      { opType := .ofNibble (nibble firstDword 20)
        shouldOperate := firstDword.truncate 16 }
  | .readWriteStaticRegister =>
    pure <| some <| .readWriteStaticRegister
      { staticIdx := ⟨firstDword.toNat >>> 4 % 256, Nat.mod_lt _ (by decide)⟩
        idx := nibble firstDword 0 }
  | .pauseProcess => pure <| some .pauseProcess
  | .resumeProcess => pure <| some .resumeProcess
  | .debugLog => do
      let base : DebugLogOpcode :=
        { bitWidth := nibble firstDword 16
          logId := nibble firstDword 12
          valType := .ofNibble (nibble firstDword 8)
          memType := .mainNso
          addrRegIndex := 0
          valRegIndex := 0
          ofsRegIndex := 0
          relAddress := 0 }
      match base.valType with
      | .registerValue =>
        pure <| some <| .debugLog { base with valRegIndex := nibble firstDword 4 }
      | .memoryRelAddr =>
        let secondDword ← getNextDword
        pure <| some <| .debugLog
          { base with
            memType := .ofNibble (nibble firstDword 4)
            relAddress := relAddressOf firstDword 0xF secondDword }
      | .memoryOfsReg =>
        pure <| some <| .debugLog
          { base with
            memType := .ofNibble (nibble firstDword 4)
            ofsRegIndex := nibble firstDword 0 }
      | .registerRelAddr =>
        let secondDword ← getNextDword
        pure <| some <| .debugLog
          { base with
            addrRegIndex := nibble firstDword 4
            relAddress := relAddressOf firstDword 0xF secondDword }
      | .registerOfsReg =>
        pure <| some <| .debugLog
          { base with
            addrRegIndex := nibble firstDword 4
            ofsRegIndex := nibble firstDword 0 }
      | .unnamed _ => pure <| some <| .debugLog base
  | .reserved11 | .extendedWidth | .doubleExtendedWidth | .unrecognized _ => pure none

/-- The reads of `DecodeNextOpcode` once the first dword is there. -/
def decodeRest (firstDword : Dword) : Reader Dword (Option CheatVmOpcode) := do
  let opcodeType := opcodeTypeOf firstDword
  let opcode ← decodeOperands firstDword opcodeType
  pure (opcode.map fun o => { beginConditionalBlock := opcodeType.beginsConditionalBlock,
                              opcode := o })

/-- `MemoryRegionExtents`. -/
structure MemoryRegionExtents where
  base : Qword
  size : Qword

/-- `CheatProcessMetadata`, as far as the interpreter reads it. -/
structure CheatProcessMetadata where
  mainNsoExtents : MemoryRegionExtents
  heapExtents : MemoryRegionExtents
  aliasExtents : MemoryRegionExtents
  aslrExtents : MemoryRegionExtents

/-- `DmntCheatVm::Callbacks` over a world `σ`. A read delivers eight bytes, of which the caller takes
the size it asked for. -/
structure Callbacks (σ : Type) where
  memoryReadUnsafe : σ → Qword → Nat → Qword
  memoryWriteUnsafe : σ → Qword → Qword → Nat → σ
  hidKeysDown : σ → Qword × σ
  pauseProcess : σ → σ
  resumeProcess : σ → σ
  debugLog : σ → Fin 16 → Qword → σ

/-- What an opcode other than a jump works on: the registers and the world. -/
structure CheatState (σ : Type) where
  registers : Fin 16 → Qword
  savedValues : Fin 16 → Qword
  staticRegisters : Fin 256 → Qword
  world : σ

/-- What stays fixed while `Execute` runs. -/
structure Environment (σ : Type) where
  callbacks : Callbacks σ
  metadata : CheatProcessMetadata
  kDown : Qword

/-- `GetVmInt`. -/
def getVmInt (value : VmInt) (bitWidth : Fin 16) : Qword :=
  match bitWidth.val with
  | 1 => (value.truncate 8).zeroExtend 64
  | 2 => (value.truncate 16).zeroExtend 64
  | 4 => (value.truncate 32).zeroExtend 64
  | 8 => value
  | _ => 0

/-- The cast of a 64-bit number to the type of `bitWidth` bytes; another width leaves it alone. -/
def applyBitWidth (value : Qword) (bitWidth : Fin 16) : Qword :=
  match bitWidth.val with
  | 1 => (value.truncate 8).zeroExtend 64
  | 2 => (value.truncate 16).zeroExtend 64
  | 4 => (value.truncate 32).zeroExtend 64
  | _ => value

/-- The widths on which memory is read or written. -/
def validBitWidth (bitWidth : Fin 16) : Bool :=
  bitWidth = 1 || bitWidth = 2 || bitWidth = 4 || bitWidth = 8

/-- `GetCheatProcessAddress`. -/
def getCheatProcessAddress (metadata : CheatProcessMetadata) (memType : MemoryAccessType)
    (relAddress : Qword) : Qword :=
  match memType with
  | .mainNso | .unnamed _ => metadata.mainNsoExtents.base + relAddress
  | .heap => metadata.heapExtents.base + relAddress
  | .alias => metadata.aliasExtents.base + relAddress
  | .aslr => metadata.aslrExtents.base + relAddress

/-- The comparison of `cond_type`; a value without a name is never met. -/
def ConditionalComparisonType.holds (condType : ConditionalComparisonType) (a b : Qword) : Bool :=
  match condType with
  | .gt => a.toNat > b.toNat
  | .ge => a.toNat ≥ b.toNat
  | .lt => a.toNat < b.toNat
  | .le => a.toNat ≤ b.toNat
  | .eq => a = b
  | .ne => a ≠ b
  | .unnamed _ => false

/-- The result of a register arithmetic; `fallback` is what an unnamed type leaves behind. -/
def RegisterArithmeticType.apply (mathType : RegisterArithmeticType) (a b fallback : Qword) :
    Qword :=
  match mathType with
  | .addition => a + b
  | .subtraction => a - b
  | .multiplication => a * b
  | .leftShift => a <<< (b.toNat % 64)
  | .rightShift => a >>> (b.toNat % 64)
  | .logicalAnd => a &&& b
  | .logicalOr => a ||| b
  | .logicalNot => ~~~a
  | .logicalXor => a ^^^ b
  | .none => a
  | .unnamed _ => fallback

/-- The types of arithmetic that `PerformArithmeticStatic` handles. -/
def RegisterArithmeticType.isBasic : RegisterArithmeticType → Bool
  | .addition | .subtraction | .multiplication | .leftShift | .rightShift => true
  | _ => false

variable {σ : Type}

namespace CheatState

def setRegister (s : CheatState σ) (r : Fin 16) (value : Qword) : CheatState σ :=
  { s with registers := update s.registers r value }

def setSavedValue (s : CheatState σ) (r : Fin 16) (value : Qword) : CheatState σ :=
  { s with savedValues := update s.savedValues r value }

/-- `MemoryReadUnsafe` into the variable that holds `data`: the bytes above the width stay. -/
def memoryRead (s : CheatState σ) (env : Environment σ) (address : Qword) (bitWidth : Fin 16)
    (data : Qword) : Qword :=
  let value := env.callbacks.memoryReadUnsafe s.world address bitWidth.val
  match bitWidth.val with
  | 1 => data &&& ~~~0xFF ||| value &&& 0xFF
  | 2 => data &&& ~~~0xFFFF ||| value &&& 0xFFFF
  | 4 => data &&& ~~~0xFFFFFFFF ||| value &&& 0xFFFFFFFF
  | 8 => value
  | _ => data

/-- `MemoryWriteUnsafe` on a valid width. -/
def memoryWrite (s : CheatState σ) (env : Environment σ) (address value : Qword)
    (bitWidth : Fin 16) : CheatState σ :=
  if validBitWidth bitWidth then
    { s with world := env.callbacks.memoryWriteUnsafe s.world address value bitWidth.val }
  else s

end CheatState

/-- The condition of a `BeginConditionalOpcode`. -/
def BeginConditionalOpcode.condMet (o : BeginConditionalOpcode) (env : Environment σ)
    (s : CheatState σ) : Bool :=
  let srcAddress := getCheatProcessAddress env.metadata o.memType o.relAddress
  let srcValue := s.memoryRead env srcAddress o.bitWidth 0
  o.condType.holds srcValue (getVmInt o.value o.bitWidth)

/-- The condition of a `BeginKeypressConditionalOpcode`. -/
def BeginKeypressConditionalOpcode.condMet (o : BeginKeypressConditionalOpcode)
    (env : Environment σ) : Bool :=
  o.keyMask.zeroExtend 64 &&& env.kDown = o.keyMask.zeroExtend 64

/-- The value a `BeginRegisterConditionalOpcode` compares with. -/
def BeginRegisterConditionalOpcode.condValue (o : BeginRegisterConditionalOpcode)
    (env : Environment σ) (s : CheatState σ) : Qword :=
  match o.compType with
  | .staticValue => getVmInt o.value o.bitWidth
  | .otherRegister => getVmInt (s.registers o.otherRegIndex) o.bitWidth
  | .memoryRelAddr =>
    s.memoryRead env (getCheatProcessAddress env.metadata o.memType o.relAddress) o.bitWidth 0
  | .memoryOfsReg =>
    s.memoryRead env
      (getCheatProcessAddress env.metadata o.memType (s.registers o.ofsRegIndex)) o.bitWidth 0
  | .registerRelAddr => s.memoryRead env (s.registers o.addrRegIndex + o.relAddress) o.bitWidth 0
  | .registerOfsReg =>
    s.memoryRead env (s.registers o.addrRegIndex + s.registers o.ofsRegIndex) o.bitWidth 0
  | .unnamed _ => s.memoryRead env 0 o.bitWidth 0

/-- The condition of a `BeginRegisterConditionalOpcode`. -/
def BeginRegisterConditionalOpcode.condMet (o : BeginRegisterConditionalOpcode)
    (env : Environment σ) (s : CheatState σ) : Bool :=
  o.condType.holds (getVmInt (s.registers o.valRegIndex) o.bitWidth) (o.condValue env s)

/-- The address a `StoreRegisterToAddressOpcode` writes to. -/
def StoreRegisterToAddressOpcode.dstAddress (o : StoreRegisterToAddressOpcode)
    (env : Environment σ) (s : CheatState σ) : Qword :=
  match o.ofsType with
  | .none | .unnamed _ => s.registers o.addrRegIndex
  | .reg => s.registers o.addrRegIndex + s.registers o.ofsRegIndex
  | .imm => s.registers o.addrRegIndex + o.relAddress
  | .memReg => getCheatProcessAddress env.metadata o.memType (s.registers o.addrRegIndex)
  | .memImm => getCheatProcessAddress env.metadata o.memType o.relAddress
  | .memImmReg =>
    getCheatProcessAddress env.metadata o.memType (s.registers o.addrRegIndex + o.relAddress)

/-- The value a `DebugLogOpcode` logs. -/
def DebugLogOpcode.logValue (o : DebugLogOpcode) (env : Environment σ) (s : CheatState σ) : Qword :=
  match o.valType with
  | .registerValue => getVmInt (s.registers o.valRegIndex) o.bitWidth
  | .memoryRelAddr =>
    s.memoryRead env (getCheatProcessAddress env.metadata o.memType o.relAddress) o.bitWidth 0
  | .memoryOfsReg =>
    s.memoryRead env
      (getCheatProcessAddress env.metadata o.memType (s.registers o.ofsRegIndex)) o.bitWidth 0
  | .registerRelAddr => s.memoryRead env (s.registers o.addrRegIndex + o.relAddress) o.bitWidth 0
  | .registerOfsReg =>
    s.memoryRead env (s.registers o.addrRegIndex + s.registers o.ofsRegIndex) o.bitWidth 0
  | .unnamed _ => s.memoryRead env 0 o.bitWidth 0

/-- A `SaveRestoreRegisterOpcode`. -/
def SaveRestoreRegisterOpcode.perform (o : SaveRestoreRegisterOpcode) (s : CheatState σ) :
    CheatState σ :=
  match o.opType with
  | .clearRegs => s.setRegister o.dstIndex 0
  | .clearSaved => s.setSavedValue o.dstIndex 0
  | .save => s.setSavedValue o.dstIndex (s.registers o.srcIndex)
  | .restore | .unnamed _ => s.setRegister o.dstIndex (s.savedValues o.srcIndex)

/-- A `SaveRestoreRegisterMaskOpcode`. The loop touches each index once and reads the other array,
so all indices change at once. -/
def SaveRestoreRegisterMaskOpcode.perform (o : SaveRestoreRegisterMaskOpcode) (s : CheatState σ) :
    CheatState σ :=
  let masked (dst src : Fin 16 → Qword) : Fin 16 → Qword :=
    fun i => if o.shouldOperate.getLsbD i.val then src i else dst i
  match o.opType with
  | .clearSaved => { s with savedValues := masked s.savedValues fun _ => 0 }
  | .save => { s with savedValues := masked s.savedValues s.registers }
  | .clearRegs => { s with registers := masked s.registers fun _ => 0 }
  | .restore | .unnamed _ => { s with registers := masked s.registers s.savedValues }

/-- What `Execute` does on an opcode that neither starts nor ends a block and is no loop control. -/
def Opcode.perform (op : Opcode) (env : Environment σ) (s : CheatState σ) : CheatState σ :=
  match op with
  | .storeStatic o =>
    let dstAddress := getCheatProcessAddress env.metadata o.memType
      (o.relAddress + s.registers o.offsetRegister)
    s.memoryWrite env dstAddress (getVmInt o.value o.bitWidth) o.bitWidth
  | .loadRegisterStatic o => s.setRegister o.regIndex o.value
  | .loadRegisterMemory o =>
    let srcAddress :=
      if o.loadFromReg then s.registers o.regIndex + o.relAddress
      else getCheatProcessAddress env.metadata o.memType o.relAddress
    s.setRegister o.regIndex (s.memoryRead env srcAddress o.bitWidth (s.registers o.regIndex))
  | .storeStaticToAddress o =>
    let dstAddress := s.registers o.regIndex +
      (if o.addOffsetReg then s.registers o.offsetRegIndex else 0)
    let written := s.memoryWrite env dstAddress o.value o.bitWidth
    if o.incrementReg then
      written.setRegister o.regIndex (s.registers o.regIndex + BitVec.ofNat 64 o.bitWidth.val)
    else written
  | .performArithmeticStatic o =>
    let a := s.registers o.regIndex
    let result :=
      if o.mathType.isBasic then o.mathType.apply a (o.value.zeroExtend 64) a else a
    s.setRegister o.regIndex (applyBitWidth result o.bitWidth)
  | .performArithmeticRegister o =>
    let operand2 :=
      if o.hasImmediate then getVmInt o.value o.bitWidth else s.registers o.srcReg2Index
    let result := o.mathType.apply (s.registers o.srcReg1Index) operand2 0
    s.setRegister o.dstRegIndex (applyBitWidth result o.bitWidth)
  | .storeRegisterToAddress o =>
    let written := s.memoryWrite env (o.dstAddress env s) (s.registers o.strRegIndex) o.bitWidth
    if o.incrementReg then
      written.setRegister o.addrRegIndex
        (s.registers o.addrRegIndex + BitVec.ofNat 64 o.bitWidth.val)
    else written
  | .saveRestoreRegister o => o.perform s
  | .saveRestoreRegisterMask o => o.perform s
  | .readWriteStaticRegister o =>
    if o.staticIdx.val < 0x80 then s.setRegister o.idx (s.staticRegisters o.staticIdx)
    else
      { s with
        staticRegisters := update s.staticRegisters o.staticIdx (s.registers o.idx) }
  | .pauseProcess => { s with world := env.callbacks.pauseProcess s.world }
  | .resumeProcess => { s with world := env.callbacks.resumeProcess s.world }
  | .debugLog o => { s with world := env.callbacks.debugLog s.world o.logId (o.logValue env s) }
  | .beginConditional _ | .beginKeypressConditional _ | .beginRegisterConditional _
  | .endConditional _ | .controlLoop _ => s

/-- `DmntCheatVm`; `num_opcodes` is the length of the program. -/
structure DmntCheatVm (σ : Type) where
  program : List Dword
  instructionPtr : Nat
  conditionDepth : Nat
  decodeSuccess : Bool
  loopTops : Fin 16 → Nat
  state : CheatState σ

namespace DmntCheatVm

/-- `DecodeNextOpcode`: the opcode, if the decode succeeds. -/
def decodeNextOpcode (vm : DmntCheatVm σ) : Option CheatVmOpcode × DmntCheatVm σ :=
  match vm.program[vm.instructionPtr]? with
  | none => (none, { vm with decodeSuccess := false })
  | some firstDword =>
    if vm.decodeSuccess then
      match (decodeRest firstDword).runFrom vm.program (vm.instructionPtr + 1) true with
      | (some opcode, ip, true) => (some opcode, { vm with instructionPtr := ip })
      | (_, ip, _) => (none, { vm with instructionPtr := ip, decodeSuccess := false })
    else (none, { vm with instructionPtr := vm.instructionPtr + 1 })

/-- The loop of `SkipConditionalBlock`. Every turn but the last consumes a dword, so as many turns
as there are dwords in the program, and one more, are enough. -/
def skipLoop (isIf : Bool) (desiredDepth : Nat) : Nat → DmntCheatVm σ → DmntCheatVm σ
  | 0, vm => vm
  | fuel + 1, vm =>
    if desiredDepth < vm.conditionDepth then
      match vm.decodeNextOpcode with
      | (none, vm) => vm
      | (some skipOpcode, vm) =>
        if skipOpcode.beginConditionalBlock then
          skipLoop isIf desiredDepth fuel { vm with conditionDepth := vm.conditionDepth + 1 }
        else
          match skipOpcode.opcode with
          | .endConditional endCond =>
            if !endCond.isElse then
              skipLoop isIf desiredDepth fuel
                { vm with conditionDepth := vm.conditionDepth - 1 }
            else if isIf && vm.conditionDepth - 1 == desiredDepth then vm
            else skipLoop isIf desiredDepth fuel vm
          | _ => skipLoop isIf desiredDepth fuel vm
    else vm

/-- `SkipConditionalBlock`; `none` is the `UNREACHABLE_MSG` at depth zero. -/
def skipConditionalBlock (vm : DmntCheatVm σ) (isIf : Bool) : Option (DmntCheatVm σ) :=
  if 0 < vm.conditionDepth then
    some (vm.skipLoop isIf (vm.conditionDepth - 1) (vm.program.length + 1))
  else none

/-- The body of the loop of `Execute` once the opcode is decoded; `none` is a crash. -/
def executeOpcode (env : Environment σ) (op : CheatVmOpcode) (vm : DmntCheatVm σ) :
    Option (DmntCheatVm σ) :=
  let vm :=
    if op.beginConditionalBlock then { vm with conditionDepth := vm.conditionDepth + 1 } else vm
  match op.opcode with
  | .beginConditional o => if o.condMet env vm.state then some vm else vm.skipConditionalBlock true
  | .beginKeypressConditional o => if o.condMet env then some vm else vm.skipConditionalBlock true
  | .beginRegisterConditional o =>
    if o.condMet env vm.state then some vm else vm.skipConditionalBlock true
  | .endConditional o =>
    if o.isElse then vm.skipConditionalBlock false
    else some { vm with conditionDepth := vm.conditionDepth - 1 }
  | .controlLoop o =>
    if o.startLoop then
      some { vm with
        state := vm.state.setRegister o.regIndex (o.numIters.zeroExtend 64)
        loopTops := update vm.loopTops o.regIndex vm.instructionPtr }
    else
      let counter := vm.state.registers o.regIndex - 1
      let vm := { vm with state := vm.state.setRegister o.regIndex counter }
      some (if counter ≠ 0 then { vm with instructionPtr := vm.loopTops o.regIndex } else vm)
  | opcode => some { vm with state := opcode.perform env vm.state }

/-- `ResetState`. The static registers and the world outlive it. -/
def resetState (vm : DmntCheatVm σ) : DmntCheatVm σ :=
  { vm with
    instructionPtr := 0
    conditionDepth := 0
    decodeSuccess := true
    loopTops := fun _ => 0
    state := { vm.state with registers := fun _ => 0, savedValues := fun _ => 0 } }

end DmntCheatVm

/-- One performed opcode, with the condition depth and the state it found. -/
structure Performed (σ : Type) where
  opcode : Opcode
  conditionDepth : Nat
  state : CheatState σ

/-- How a run of at most some number of opcodes ends: the program is over, the run goes on, or the
interpreter crashes. -/
inductive Outcome (σ : Type) where
  | finished (s : CheatState σ)
  | running (s : CheatState σ)
  | crashed

namespace DmntCheatVm

/-- The first `n` turns of the loop of `Execute`: the opcodes performed and how they end. -/
def executeLoop (env : Environment σ) : Nat → DmntCheatVm σ → List (Performed σ) × Outcome σ
  | 0, vm => ([], .running vm.state)
  | n + 1, vm =>
    match vm.decodeNextOpcode with
    | (none, vm) => ([], .finished vm.state)
    | (some op, vm) =>
      let performed : Performed σ := ⟨op.opcode, vm.conditionDepth, vm.state⟩
      match vm.executeOpcode env op with
      | none => ([performed], .crashed)
      | some vm =>
        let (trace, outcome) := executeLoop env n vm
        (performed :: trace, outcome)

/-- `Execute`, for the first `n` opcodes. -/
def execute (callbacks : Callbacks σ) (metadata : CheatProcessMetadata) (n : Nat)
    (vm : DmntCheatVm σ) : List (Performed σ) × Outcome σ :=
  let (kDown, world) := callbacks.hidKeysDown vm.state.world
  let vm := { vm with state := { vm.state with world := world } }
  executeLoop ⟨callbacks, metadata, kDown⟩ n vm.resetState

end DmntCheatVm

end Sudachi.Memory
