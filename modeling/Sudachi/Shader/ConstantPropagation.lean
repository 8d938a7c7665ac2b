import Sudachi.Shader.Ir

/-!
# Constant propagation

The integer and boolean rewrites of `ConstantPropagationPass`. A rewrite changes one instruction,
and those of multiplications in parts also make new ones. The other opcodes of the pass are left
out: those for floats, for bit fields, for composites, for registers and for the environment.
-/

set_option autoImplicit false

namespace Sudachi.Shader

namespace Insts

variable {α β : Type} [Immediate α] [Immediate β] (s : Insts)

/-- The immediate that an argument is. -/
def immOf (value : Value) : Imm :=
  match s.resolve value with
  | .imm imm => imm
  | .inst _ => .other 0 0

/-- `Arg`. -/
def argOf (value : Value) : α := Immediate.read (s.immOf value)

/-- `FoldCommutative`: the instructions, and whether there is more to fold. -/
def foldCommutative (immFn : α → α → α) (id : Nat) : Insts × Bool :=
  let inst := s.inst id
  let lhs := inst.arg 0
  let rhs := inst.arg 1
  match s.tryInstRecursive lhs, s.tryInstRecursive rhs with
  | none, none =>
    (s.replaceUsesWith id (.imm (Immediate.imm (immFn (s.argOf lhs) (s.argOf rhs)))), false)
  | none, some rhsId =>
    let rhsInst := s.inst rhsId
    if rhsInst.opcode = inst.opcode ∧ s.isImmediate (rhsInst.arg 1) then
      let combined := immFn (s.argOf lhs) (s.argOf (rhsInst.arg 1))
      (s.setArgs id [rhsInst.arg 0, .imm (Immediate.imm combined)], true)
    else
      -- normalize
      (s.setArgs id [rhs, lhs], true)
  | some lhsId, none =>
    let lhsInst := s.inst lhsId
    if lhsInst.opcode = inst.opcode ∧ s.isImmediate (lhsInst.arg 1) then
      let combined := immFn (s.argOf rhs) (s.argOf (lhsInst.arg 1))
      (s.setArgs id [lhsInst.arg 0, .imm (Immediate.imm combined)], true)
    else (s, true)
  | some _, some _ => (s, true)

/-- `FoldWhenAllImmediates`: the instructions, and whether they have been folded. There is no result
where the function has none. -/
def foldWhenAllImmediates (id : Nat) (func : List Imm → Option Imm) : Option (Insts × Bool) :=
  let inst := s.inst id
  if !inst.args.all s.isImmediate || inst.pseudo then some (s, false)
  else (func (inst.args.map s.immOf)).map fun result => (s.replaceUsesWith id (.imm result), true)

/-- A function of two immediates. -/
def evalBinary (f : α → α → β) (args : List Imm) : Option Imm :=
  some (Immediate.imm (f (Immediate.read (args.getD 0 (.other 0 0)))
    (Immediate.read (args.getD 1 (.other 0 0)))))

/-- An arithmetic shift of two immediates, which the language leaves undefined from 32 on. -/
def evalShiftRightArithmetic (args : List Imm) : Option Imm :=
  let a : BitVec 32 := Immediate.read (args.getD 0 (.other 0 0))
  let b : BitVec 32 := Immediate.read (args.getD 1 (.other 0 0))
  if b.toNat < 32 then some (.u32 (a.sshiftRight b.toNat)) else none

/-! ## Multiplications in parts -/

def tryInst (value : Value) : Option Inst := (s.tryInstRecursive value).map s.inst

abbrev zero : Value := .imm (.u32 0)

abbrev sixteen : Value := .imm (.u32 16)

/-- An instruction takes the lower 16 bits of its first argument. -/
def isLow (inst : Inst) : Bool :=
  inst.opcode = .bitFieldUExtract && inst.arg 1 = zero && inst.arg 2 = sixteen

/-- An instruction takes the upper 16 bits of its first argument. -/
def isHigh (inst : Inst) : Bool :=
  inst.opcode = .bitFieldUExtract && inst.arg 1 = sixteen && inst.arg 2 = sixteen

/-- An instruction shifts its first argument to the upper 16 bits. -/
def isShifted (inst : Inst) : Bool :=
  inst.opcode = .shiftLeftLogical32 && inst.arg 1 = sixteen

/-- `FoldXmadMultiply`. -/
def foldXmadMultiply (id : Nat) : Option Insts := do
  let inst := s.inst id
  let lhsShl ← s.tryInst (inst.arg 0)
  let rhsMul ← s.tryInst (inst.arg 1)
  guard (isShifted lhsShl)
  let lhsMul ← s.tryInst (lhsShl.arg 0)
  guard (lhsMul.opcode = .iMul32 ∧ rhsMul.opcode = .iMul32)
  let factorB := lhsMul.arg 1
  guard (s.resolve factorB = s.resolve (rhsMul.arg 1))
  let lhsBfe ← s.tryInst (lhsMul.arg 0)
  let rhsBfe ← s.tryInst (rhsMul.arg 0)
  guard (isHigh lhsBfe ∧ isLow rhsBfe)
  let factorA := lhsBfe.arg 0
  guard (s.resolve factorA = s.resolve (rhsBfe.arg 0))
  let product := s.newInst .iMul32 [factorA, factorB]
  return product.1.replaceUsesWith id product.2

/-- Two instructions read the same place of a constant buffer. -/
def equalCbuf (a b : Inst) : Bool :=
  a.opcode = .getCbufU32 && b.opcode = .getCbufU32 && a.arg 0 = b.arg 0 && a.arg 1 = b.arg 1

/-- Two values are equal, or read the same place of a constant buffer (`AreEqual`). -/
def areEqual (lhs rhs : Value) : Bool :=
  s.resolve lhs = s.resolve rhs ||
    match s.tryInst lhs, s.tryInst rhs with
    | some a, some b => equalCbuf a b
    | _, _ => false

/-- `%11` of the pattern of `FoldXmadMultiplyAdd`, whose upper half has been replaced: the operands
of `%7`, `%6` and `%10`. -/
def xmadInsert (i11 : Inst) : Option (Value × Value × Value) := do
  guard (i11.opcode = .bitFieldInsert ∧ i11.arg 2 = sixteen ∧ i11.arg 3 = sixteen)
  let i8 ← s.tryInst (i11.arg 0)
  let i10 ← s.tryInst (i11.arg 1)
  guard (i8.opcode = .iMul32)
  let i6 ← s.tryInst (i8.arg 0)
  let i7 ← s.tryInst (i8.arg 1)
  guard (isLow i6 ∧ isHigh i7 ∧ isLow i10)
  return (i7.arg 0, i6.arg 0, i10.arg 0)

/-- `%18` of the pattern, the product of lower halves with something added to it: the operands of
`%16` and `%15`, and what is added. -/
def xmadLower (i18 : Inst) : Option (Value × Value × Value) := do
  guard (i18.opcode = .iAdd32)
  let i17 ← s.tryInst (i18.arg 0)
  guard (i17.opcode = .iMul32)
  let i15 ← s.tryInst (i17.arg 0)
  let i16 ← s.tryInst (i17.arg 1)
  guard (isLow i15 ∧ isLow i16)
  return (i16.arg 0, i15.arg 0, i18.arg 1)

/-- `%25` of the pattern, the product of an upper half with that of `%11`: the operand of `%22`, and
`%11`. -/
def xmadUpper (i25 : Inst) : Option (Value × Value) := do
  guard (isShifted i25)
  let i24 ← s.tryInst (i25.arg 0)
  guard (i24.opcode = .iMul32)
  let i22 ← s.tryInst (i24.arg 0)
  let i23 ← s.tryInst (i24.arg 1)
  guard (isHigh i22 ∧ isHigh i23)
  return (i22.arg 0, i23.arg 0)

/-- `FoldXmadMultiplyAdd`. -/
def foldXmadMultiplyAdd (id : Nat) : Option Insts := do
  let inst := s.inst id
  let i25 ← s.tryInst (inst.arg 0)
  let i27 ← s.tryInst (inst.arg 1)
  guard (i27.opcode = .iAdd32)
  let (b22, arg23) ← s.xmadUpper i25
  let id11 ← s.tryInstRecursive arg23
  let (a7, b6, a10) ← s.xmadInsert (s.inst id11)
  let i26 ← s.tryInst (i27.arg 0)
  let i18 ← s.tryInst (i27.arg 1)
  guard (isShifted i26 ∧ s.tryInstRecursive (i26.arg 0) = some id11)
  let (a16, b15, opC) ← s.xmadLower i18
  guard (s.areEqual a7 a16 ∧ s.areEqual a16 a10 ∧ s.areEqual b22 b6 ∧ s.areEqual b6 b15)
  let product := s.newInst .iMul32 [s.resolve a7, s.resolve b6]
  let sum := product.1.newInst .iAdd32 [product.2, opC]
  return sum.1.replaceUsesWith id sum.2

/-! ## The folds -/

/-- `FoldAdd`, with what 32-bit additions try at the end. -/
def foldAdd (α : Type) [Immediate α] [Add α] [OfNat α 0] [DecidableEq α]
    (xmad : Insts → Insts) (id : Nat) : Insts :=
  if (s.inst id).pseudo then s
  else
    let r := s.foldCommutative (fun a b : α => a + b) id
    if !r.2 then r.1
    else
      let rhs := (r.1.inst id).arg 1
      if r.1.isImmediate rhs ∧ r.1.argOf rhs = (0 : α) then
        r.1.replaceUsesWith id ((r.1.inst id).arg 0)
      else xmad r.1

def foldXmad (id : Nat) (s : Insts) : Insts :=
  match s.foldXmadMultiply id with
  | some s' => s'
  | none => (s.foldXmadMultiplyAdd id).getD s

/-- What is added to a constant buffer in `opA`, if `opB` reads the same place of it. -/
def addedToCbuf (opA opB : Inst) : Option Value := do
  guard (opB.opcode = .getCbufU32)
  guard (opA.opcode = .iAdd32)
  -- canonicalize
  let ops := if s.isImmediate (opA.arg 1) then (opA.arg 1, opA.arg 0) else (opA.arg 0, opA.arg 1)
  let addCbuf ← s.tryInst ops.2
  guard (equalCbuf addCbuf opB)
  return ops.1

/-- What `FoldISub32` does with two arguments that are instructions. -/
def foldISub32Insts (id : Nat) (opA opB : Inst) : Insts :=
  if equalCbuf opA opB then s.replaceUsesWith id zero
  else
    -- canonicalize local variables to simplify the following logic
    let ops := if opB.opcode = .iAdd32 then (opB, opA) else (opA, opB)
    match s.addedToCbuf ops.1 ops.2 with
    | some value => s.replaceUsesWith id value
    | none => s

def foldISub32 (id : Nat) : Option Insts :=
  (s.foldWhenAllImmediates id (evalBinary fun a b : BitVec 32 => a - b)).map fun r =>
    if r.2 then r.1
    else
      match s.tryInst ((s.inst id).arg 0), s.tryInst ((s.inst id).arg 1) with
      | some opA, some opB => s.foldISub32Insts id opA opB
      | _, _ => s

def foldSelect (id : Nat) : Insts :=
  let cond := (s.inst id).arg 0
  if s.isImmediate cond then
    s.replaceUsesWith id (if (s.argOf cond : Bool) then (s.inst id).arg 1 else (s.inst id).arg 2)
  else s

def foldLogicalAnd (id : Nat) : Insts :=
  let r := s.foldCommutative (fun a b : Bool => a && b) id
  if !r.2 then r.1
  else
    let rhs := (r.1.inst id).arg 1
    if r.1.isImmediate rhs then
      if (r.1.argOf rhs : Bool) then r.1.replaceUsesWith id ((r.1.inst id).arg 0)
      else r.1.replaceUsesWith id (.imm (.u1 false))
    else r.1

def foldLogicalOr (id : Nat) : Insts :=
  let r := s.foldCommutative (fun a b : Bool => a || b) id
  if !r.2 then r.1
  else
    let rhs := (r.1.inst id).arg 1
    if r.1.isImmediate rhs then
      if (r.1.argOf rhs : Bool) then r.1.replaceUsesWith id (.imm (.u1 true))
      else r.1.replaceUsesWith id ((r.1.inst id).arg 0)
    else r.1

def foldLogicalNot (id : Nat) : Insts :=
  let value := (s.inst id).arg 0
  match s.tryInst value with
  | none => s.replaceUsesWith id (.imm (.u1 !s.argOf value))
  | some arg => if arg.opcode = .logicalNot then s.replaceUsesWith id (arg.arg 0) else s

/-- A fold that is done when all arguments are immediates. -/
def foldImmediates (func : List Imm → Option Imm) (id : Nat) : Option Insts :=
  (s.foldWhenAllImmediates id func).map Prod.fst

/-- `ConstantPropagation`. -/
def constantPropagation (id : Nat) : Option Insts :=
  match (s.inst id).opcode with
  | .iAdd32 => some (s.foldAdd (BitVec 32) (foldXmad id) id)
  | .iAdd64 => some (s.foldAdd (BitVec 64) (fun s => s) id)
  | .iSub32 => s.foldISub32 id
  | .iMul32 => s.foldImmediates (evalBinary fun a b : BitVec 32 => a * b) id
  | .shiftRightArithmetic32 => s.foldImmediates evalShiftRightArithmetic id
  | .selectU1 | .selectU8 | .selectU16 | .selectU32 | .selectU64 | .selectF16 | .selectF32
  | .selectF64 => some (s.foldSelect id)
  | .logicalAnd => some (s.foldLogicalAnd id)
  | .logicalOr => some (s.foldLogicalOr id)
  | .logicalNot => some (s.foldLogicalNot id)
  | .sLessThan => s.foldImmediates (evalBinary fun a b : BitVec 32 => a.slt b) id
  | .uLessThan => s.foldImmediates (evalBinary fun a b : BitVec 32 => a.ult b) id
  | .sLessThanEqual => s.foldImmediates (evalBinary fun a b : BitVec 32 => a.sle b) id
  | .uLessThanEqual => s.foldImmediates (evalBinary fun a b : BitVec 32 => a.ule b) id
  | .sGreaterThan => s.foldImmediates (evalBinary fun a b : BitVec 32 => b.slt a) id
  | .uGreaterThan => s.foldImmediates (evalBinary fun a b : BitVec 32 => b.ult a) id
  | .sGreaterThanEqual => s.foldImmediates (evalBinary fun a b : BitVec 32 => b.sle a) id
  | .uGreaterThanEqual => s.foldImmediates (evalBinary fun a b : BitVec 32 => b.ule a) id
  | .iEqual => s.foldImmediates (evalBinary fun a b : BitVec 32 => a == b) id
  | .iNotEqual => s.foldImmediates (evalBinary fun a b : BitVec 32 => a != b) id
  | .bitwiseAnd32 => s.foldImmediates (evalBinary fun a b : BitVec 32 => a &&& b) id
  | .bitwiseOr32 => s.foldImmediates (evalBinary fun a b : BitVec 32 => a ||| b) id
  | .bitwiseXor32 => s.foldImmediates (evalBinary fun a b : BitVec 32 => a ^^^ b) id
  | _ => some s

end Insts

end Sudachi.Shader
