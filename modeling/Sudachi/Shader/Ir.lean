import Mathlib.Data.BitVec

/-!
# Shader IR

The instructions of the shader recompiler, as far as the integer and boolean rewrites look at them.
An instruction is known by its place in a list, as it is known by its address in the source, and an
argument is an immediate or an instruction. `Means` says what the opcodes compute.
-/

set_option autoImplicit false

namespace Sudachi.Shader

/-- The opcodes that the rewrites know. The others have a number. -/
inductive Opcode where
  | phi | identity | getCbufU32
  | selectU1 | selectU8 | selectU16 | selectU32 | selectU64 | selectF16 | selectF32 | selectF64
  | iAdd32 | iAdd64 | iSub32 | iMul32
  | shiftLeftLogical32 | shiftRightArithmetic32
  | bitwiseAnd32 | bitwiseOr32 | bitwiseXor32 | bitFieldInsert | bitFieldUExtract
  | sLessThan | uLessThan | iEqual | sLessThanEqual | uLessThanEqual
  | sGreaterThan | uGreaterThan | iNotEqual | sGreaterThanEqual | uGreaterThanEqual
  | logicalOr | logicalAnd | logicalNot
  | other (number : Nat)
  deriving DecidableEq, Repr

/-- The immediates, which are also the values that instructions have. Those of the types that no
rewrite reads have the number of their type and their bits. -/
inductive Imm where
  | u1 (value : Bool)
  | u32 (value : BitVec 32)
  | u64 (value : BitVec 64)
  | other (type : Nat) (bits : BitVec 64)
  deriving DecidableEq, Repr

/-- The types of immediates that `Arg` reads, with a value for those of other types. -/
class Immediate (α : Type) where
  imm : α → Imm
  read : Imm → α

instance : Immediate Bool where
  imm := .u1
  read | .u1 b => b | _ => false

instance : Immediate (BitVec 32) where
  imm := .u32
  read | .u32 w => w | _ => 0

instance : Immediate (BitVec 64) where
  imm := .u64
  read | .u64 w => w | _ => 0

/-- `IR::Value`. -/
inductive Value where
  | imm (imm : Imm)
  | inst (id : Nat)
  deriving DecidableEq, Repr

/-- `IR::Inst`, with whether it has an associated pseudo operation. -/
structure Inst where
  opcode : Opcode
  args : List Value
  pseudo : Bool
  deriving DecidableEq, Repr

/-- An argument. The arguments that an opcode does not have are void. -/
def Inst.arg (inst : Inst) (index : Nat) : Value := inst.args.getD index (.imm (.other 0 0))

/-- The instructions of a program. -/
structure Insts where
  list : List Inst
  deriving DecidableEq, Repr

namespace Insts

variable (s : Insts)

def count : Nat := s.list.length

def inst (id : Nat) : Inst := s.list.getD id ⟨.other 0, [], false⟩

/-- `Resolve`, with the number of identities that may follow. -/
def resolveLoop : Nat → Value → Value
  | left + 1, .inst id =>
    if (s.inst id).opcode = .identity then resolveLoop left ((s.inst id).arg 0) else .inst id
  | _, value => value

/-- What is behind a chain of identities, which has no more of them than there are instructions. -/
def resolve (value : Value) : Value := s.resolveLoop s.count value

def isImmediate (value : Value) : Bool :=
  match s.resolve value with
  | .imm _ => true
  | .inst _ => false

/-- `TryInstRecursive`. -/
def tryInstRecursive (value : Value) : Option Nat :=
  match s.resolve value with
  | .imm _ => none
  | .inst id => some id

def set (id : Nat) (inst : Inst) : Insts := ⟨s.list.set id inst⟩

def setArgs (id : Nat) (args : List Value) : Insts := s.set id { s.inst id with args := args }

/-- `ReplaceUsesWith`. -/
def replaceUsesWith (id : Nat) (value : Value) : Insts :=
  s.set id { s.inst id with opcode := .identity, args := [value] }

/-- `PrependNewInst`: the instructions with a new one, and what it is known by. -/
def newInst (opcode : Opcode) (args : List Value) : Insts × Value :=
  (⟨s.list ++ [⟨opcode, args, false⟩]⟩, .inst s.count)

end Insts

/-! ## What instructions compute -/

/-- Read a bit field. -/
def bitFieldUExtract (base : BitVec 32) (offset count : Nat) : BitVec 32 :=
  (base.extractLsb' offset count).setWidth 32

/-- Write a bit field. -/
def bitFieldInsert (base insert : BitVec 32) (offset count : Nat) : BitVec 32 :=
  let mask := (BitVec.allOnes count).setWidth 32
  (base &&& ~~~(mask <<< offset)) ||| ((insert &&& mask) <<< offset)

def MeansBinary {α β : Type} [Immediate α] [Immediate β] (f : α → α → β) (args : List Imm)
    (result : Imm) : Prop :=
  ∃ a b, args = [Immediate.imm a, Immediate.imm b] ∧ result = Immediate.imm (f a b)

def MeansSelect (args : List Imm) (result : Imm) : Prop :=
  ∃ c a b, args = [.u1 c, a, b] ∧ result = if c then a else b

/-- A shift, whose result is not defined for amounts from 32 on. -/
def MeansShift (f : BitVec 32 → Nat → BitVec 32) (args : List Imm) (result : Imm) : Prop :=
  ∃ a b r, args = [.u32 a, .u32 b] ∧ result = .u32 r ∧ (b.toNat < 32 → r = f a b.toNat)

/-- What an instruction may have as its value, for the values of its arguments. The values of phis
and of the opcodes that are not known here are free, and a constant buffer has one value at each
place. -/
def Means (cbuf : Imm → Imm → BitVec 32) : Opcode → List Imm → Imm → Prop
  | .identity, args, r => args = [r]
  | .getCbufU32, args, r =>
    ∃ binding offset, args = [binding, offset] ∧ r = .u32 (cbuf binding offset)
  | .selectU1, args, r | .selectU8, args, r | .selectU16, args, r | .selectU32, args, r
  | .selectU64, args, r | .selectF16, args, r | .selectF32, args, r | .selectF64, args, r =>
    MeansSelect args r
  | .iAdd32, args, r => MeansBinary (fun a b : BitVec 32 => a + b) args r
  | .iAdd64, args, r => MeansBinary (fun a b : BitVec 64 => a + b) args r
  | .iSub32, args, r => MeansBinary (fun a b : BitVec 32 => a - b) args r
  | .iMul32, args, r => MeansBinary (fun a b : BitVec 32 => a * b) args r
  | .shiftLeftLogical32, args, r => MeansShift (· <<< ·) args r
  | .shiftRightArithmetic32, args, r => MeansShift BitVec.sshiftRight args r
  | .bitwiseAnd32, args, r => MeansBinary (fun a b : BitVec 32 => a &&& b) args r
  | .bitwiseOr32, args, r => MeansBinary (fun a b : BitVec 32 => a ||| b) args r
  | .bitwiseXor32, args, r => MeansBinary (fun a b : BitVec 32 => a ^^^ b) args r
  | .bitFieldInsert, args, r => ∃ base insert offset count w,
      args = [.u32 base, .u32 insert, .u32 offset, .u32 count] ∧ r = .u32 w ∧
        (offset.toNat + count.toNat ≤ 32 → w = bitFieldInsert base insert offset.toNat count.toNat)
  | .bitFieldUExtract, args, r => ∃ base offset count w,
      args = [.u32 base, .u32 offset, .u32 count] ∧ r = .u32 w ∧
        (offset.toNat + count.toNat ≤ 32 → w = bitFieldUExtract base offset.toNat count.toNat)
  | .sLessThan, args, r => MeansBinary (fun a b : BitVec 32 => a.slt b) args r
  | .uLessThan, args, r => MeansBinary (fun a b : BitVec 32 => a.ult b) args r
  | .iEqual, args, r => MeansBinary (fun a b : BitVec 32 => a == b) args r
  | .sLessThanEqual, args, r => MeansBinary (fun a b : BitVec 32 => a.sle b) args r
  | .uLessThanEqual, args, r => MeansBinary (fun a b : BitVec 32 => a.ule b) args r
  | .sGreaterThan, args, r => MeansBinary (fun a b : BitVec 32 => b.slt a) args r
  | .uGreaterThan, args, r => MeansBinary (fun a b : BitVec 32 => b.ult a) args r
  | .iNotEqual, args, r => MeansBinary (fun a b : BitVec 32 => a != b) args r
  | .sGreaterThanEqual, args, r => MeansBinary (fun a b : BitVec 32 => b.sle a) args r
  | .uGreaterThanEqual, args, r => MeansBinary (fun a b : BitVec 32 => b.ule a) args r
  | .logicalOr, args, r => MeansBinary (fun a b : Bool => a || b) args r
  | .logicalAnd, args, r => MeansBinary (fun a b : Bool => a && b) args r
  | .logicalNot, args, r => ∃ a, args = [.u1 a] ∧ r = .u1 !a
  | .phi, _, _ => True
  | .other _, _, _ => True

/-- The value of an argument, for values of the instructions. -/
def Value.eval (v : Nat → Imm) : Value → Imm
  | .imm i => i
  | .inst id => v id

/-- An argument that is an instruction is one of the program. -/
def Insts.Has (s : Insts) (value : Value) : Prop := ∀ id, value = .inst id → id < s.count

/-- The instructions have arguments of the program, and their values are what they may be. -/
structure Respects (cbuf : Imm → Imm → BitVec 32) (s : Insts) (v : Nat → Imm) : Prop where
  closed : ∀ id < s.count, ∀ value ∈ (s.inst id).args, s.Has value
  means : ∀ id < s.count, Means cbuf (s.inst id).opcode ((s.inst id).args.map (·.eval v)) (v id)

/-- After a rewrite the instructions can have the values that they had before. -/
def Preserved (cbuf : Imm → Imm → BitVec 32) (s s' : Insts) (v : Nat → Imm) : Prop :=
  ∃ v', (∀ id < s.count, v' id = v id) ∧ Respects cbuf s' v'

end Sudachi.Shader
