import Sudachi.Shader.ConstantPropagationXmad

/-!
# The constant propagation pass

A rewrite of the pass keeps the values of all instructions, with one exception: where a constant
buffer plus something is subtracted from the same place of the constant buffer, `FoldISub32` swaps
the operands and leaves the something instead of its negation
(`constantPropagation_preserves_iff`).
-/

set_option autoImplicit false

namespace Sudachi.Shader

open Insts Option

variable {cbuf : Imm → Imm → BitVec 32} {s s' : Insts} {v : Nat → Imm} {id : Nat} {i : Inst}
  {x y : Value}

/-! ## Subtractions -/

/-- What is added to the constant buffer, in values. -/
theorem Respects.addedToCbuf (h : Respects cbuf s v) {opA opB : Inst} {z : Value}
    (hA : Stands cbuf s v x opA) (hB : Stands cbuf s v y opB)
    (hz : s.addedToCbuf opA opB = some z) :
    s.Has z ∧ ∃ a b, z.eval v = .u32 a ∧ y.eval v = .u32 b ∧ x.eval v = .u32 (a + b) := by
  simp only [Insts.addedToCbuf, bind_eq_bind, bind_eq_some_iff,
    guard_eq_some', exists_const, pure_def, some.injEq] at hz
  obtain ⟨-, hadd, addCbuf, hcbuf, hequal, hz⟩ := hz
  obtain ⟨a, b, ha, hb, hx⟩ := hA.iAdd32 hadd
  split at hcbuf
  case isTrue himm =>
    rw [if_pos himm] at hz
    subst hz
    have heq := eval_of_equalCbuf (h.stands (hA.has_arg 0) hcbuf) hB hequal
    refine ⟨hA.has_arg 1, b, a, hb, heq.symm.trans ha, ?_⟩
    rw [hx, BitVec.add_comm]
  case isFalse himm =>
    rw [if_neg himm] at hz
    subst hz
    have heq := eval_of_equalCbuf (h.stands (hA.has_arg 1) hcbuf) hB hequal
    exact ⟨hA.has_arg 0, a, b, ha, heq.symm.trans hb, hx⟩

/-- The something, where an instruction subtracts something plus a constant buffer from the same
place of the constant buffer. -/
def Insts.reversedSum (s : Insts) (id : Nat) : Option Value := do
  guard ((s.inst id).opcode = .iSub32)
  let opA ← s.tryInst ((s.inst id).arg 0)
  let opB ← s.tryInst ((s.inst id).arg 1)
  guard (opB.opcode = .iAdd32)
  s.addedToCbuf opB opA

/-- The value of a subtraction of the program. -/
theorem Respects.iSub32 (h : Respects cbuf s v) (hid : id < s.count)
    (hop : (s.inst id).opcode = .iSub32) : ∃ a b, ((s.inst id).arg 0).eval v = .u32 a ∧
      ((s.inst id).arg 1).eval v = .u32 b ∧ v id = .u32 (a - b) := by
  have hmeans := h.means id hid
  rw [hop] at hmeans
  exact MeansBinary.args (f := fun a b : BitVec 32 => a - b) hmeans

/-- An identity has the value of the instruction before it only if its argument has. -/
theorem Respects.preserved_replaceUsesWith_iff (h : Respects cbuf s v) (hid : id < s.count)
    (hx : s.Has x) : Preserved cbuf s (s.replaceUsesWith id x) v ↔ x.eval v = v id := by
  constructor
  case mp =>
    rintro ⟨v', hv', hrespects⟩
    have hmeans := hrespects.means id (by rw [Insts.replaceUsesWith, count_set]; exact hid)
    rw [Insts.replaceUsesWith, inst_set_self hid] at hmeans
    have heval : x.eval v' = v' id := List.cons.inj hmeans |>.1
    rw [← hv' id hid, ← heval]
    cases x with
    | imm imm => rfl
    | inst j => exact (hv' j (hx j rfl)).symm
  case mpr => exact fun heval => (h.replaceUsesWith hx fun _ => heval).preserved

/-- Where `FoldISub32` swaps the operands, the something has to be its own negation. -/
def OwnNegation (v : Nat → Imm) (x : Value) : Prop := ∃ w, x.eval v = .u32 w ∧ w + w = 0

theorem sub_add_self_iff (a b : BitVec 32) : a = b - (a + b) ↔ a + a = 0 := by
  have hneg : b - (a + b) = -a := by ring
  rw [hneg]
  constructor
  · intro h
    nth_rewrite 2 [h]
    exact add_neg_cancel a
  · exact fun h => eq_neg_of_add_eq_zero_left h

theorem reversedSum_eq_some : s.reversedSum id = some x ↔ (s.inst id).opcode = .iSub32 ∧
    ∃ opA, s.tryInst ((s.inst id).arg 0) = some opA ∧ ∃ opB,
      s.tryInst ((s.inst id).arg 1) = some opB ∧ opB.opcode = .iAdd32 ∧
        s.addedToCbuf opB opA = some x := by
  simp only [reversedSum, bind_eq_bind, bind_eq_some_iff,
    guard_eq_some', exists_const]

/-- A fold of immediates has immediates as its arguments. -/
theorem tryInst_of_folded {func : List Imm → Option Imm} {result : Insts × Bool}
    (hresult : s.foldWhenAllImmediates id func = some result) (hdone : result.2 = true) (k : Nat) :
    s.tryInst ((s.inst id).arg k) = none := by
  rw [Insts.foldWhenAllImmediates] at hresult
  split at hresult
  case isTrue =>
    cases hresult
    cases hdone
  case isFalse himm =>
    simp only [Bool.or_eq_true, Bool.not_eq_true', not_or] at himm
    have hargs := List.all_eq_true.mp (Bool.eq_true_of_not_eq_false himm.1)
    refine map_eq_none_iff.mpr ?_
    rw [Inst.arg]
    by_cases hk : k < (s.inst id).args.length
    · rw [List.getD_eq_getElem _ _ hk]
      exact isImmediate_iff.mp (hargs _ (List.getElem_mem hk))
    · rw [List.getD_eq_default _ _ (Nat.le_of_not_lt hk), tryInstRecursive, Insts.resolve]
      cases s.count <;> rfl

section

variable (h : Respects cbuf s v) (hid : id < s.count)
include h hid

theorem Respects.foldISub32Insts (hop : (s.inst id).opcode = .iSub32) {opA opB : Inst}
    (hA : s.tryInst ((s.inst id).arg 0) = some opA)
    (hB : s.tryInst ((s.inst id).arg 1) = some opB) :
    Preserved cbuf s (s.foldISub32Insts id opA opB) v ↔
      ∀ x, s.reversedSum id = some x → OwnNegation v x := by
  have sA := h.stands (h.has_arg id 0) hA
  have sB := h.stands (h.has_arg id 1) hB
  obtain ⟨a, b, ha, hb, hv⟩ := h.iSub32 hid hop
  have hreversed : ∀ x, s.reversedSum id = some x ↔
      opB.opcode = .iAdd32 ∧ s.addedToCbuf opB opA = some x := by
    intro x
    rw [reversedSum_eq_some, hA, hB]
    constructor
    · rintro ⟨-, _, hA', _, hB', hx⟩
      cases hA'
      cases hB'
      exact hx
    · exact fun hx => ⟨hop, opA, rfl, opB, rfl, hx⟩
  simp only [hreversed]
  rw [Insts.foldISub32Insts]
  split
  case isTrue hequal =>
    have hab : a = b := u32_unique ha (by rw [eval_of_equalCbuf sA sB hequal, hb])
    refine iff_of_true (h.replaceUsesWith (has_imm _) fun _ => ?_).preserved ?_
    · rw [hv, hab, sub_self]
      rfl
    · rintro x ⟨hadd, -⟩
      simp only [equalCbuf, Bool.and_eq_true, decide_eq_true_eq] at hequal
      rw [hequal.1.1.2] at hadd
      cases hadd
  case isFalse =>
    by_cases hadd : opB.opcode = .iAdd32
    case pos =>
      -- the operands are swapped
      simp only [hadd, if_true, true_and]
      cases hz : s.addedToCbuf opB opA with
      | none => exact iff_of_true h.preserved fun x hx => by cases hx
      | some z =>
        obtain ⟨hhas, w, c, hw, hc, hsum⟩ := h.addedToCbuf sB sA hz
        have hvalue : z.eval v = v id ↔ w + w = 0 := by
          rw [hw, hv, u32_unique ha hc, u32_unique hb hsum, Imm.u32.injEq]
          exact sub_add_self_iff w c
        refine (h.preserved_replaceUsesWith_iff hid hhas).trans (hvalue.trans ?_)
        constructor
        · rintro hzero x hx
          cases hx
          exact ⟨w, hw, hzero⟩
        · intro hall
          obtain ⟨w', hw', hzero⟩ := hall z rfl
          rw [u32_unique hw hw']
          exact hzero
    case neg =>
      simp only [hadd, if_false, false_and]
      refine iff_of_true ?_ fun x hx => hx.elim
      cases hz : s.addedToCbuf opA opB with
      | none => exact h.preserved
      | some z =>
        obtain ⟨hhas, w, c, hw, hc, hsum⟩ := h.addedToCbuf sA sB hz
        refine (h.replaceUsesWith hhas fun _ => ?_).preserved
        rw [hw, hv, u32_unique ha hsum, u32_unique hb hc, add_sub_cancel_right]

theorem Respects.foldISub32 (hop : (s.inst id).opcode = .iSub32) (hs : s.foldISub32 id = some s') :
    Preserved cbuf s s' v ↔ ∀ x, s.reversedSum id = some x → OwnNegation v x := by
  obtain ⟨result, hresult, rfl⟩ := map_eq_some_iff.mp hs
  cases hdone : result.2 with
  | true =>
    have hrespects := h.foldWhenAllImmediates hid (fun args r hr hmeans => by
      rw [hop] at hmeans
      exact evalBinary_spec hr hmeans) hresult
    rw [if_pos rfl]
    refine iff_of_true hrespects.preserved fun x hx => ?_
    obtain ⟨-, opA, hA, -⟩ := reversedSum_eq_some.mp hx
    rw [tryInst_of_folded hresult hdone] at hA
    cases hA
  | false =>
    rw [if_neg Bool.false_ne_true]
    cases hA : s.tryInst ((s.inst id).arg 0) with
    | none =>
      refine iff_of_true h.preserved fun x hx => ?_
      obtain ⟨-, opA, hA', -⟩ := reversedSum_eq_some.mp hx
      rw [hA] at hA'
      cases hA'
    | some opA =>
      cases hB : s.tryInst ((s.inst id).arg 1) with
      | none =>
        refine iff_of_true h.preserved fun x hx => ?_
        obtain ⟨-, -, -, opB, hB', -⟩ := reversedSum_eq_some.mp hx
        rw [hB] at hB'
        cases hB'
      | some opB => exact h.foldISub32Insts hid hop hA hB

/-! ## The pass -/

theorem Respects.foldBinary {α β : Type} [Immediate α] [LawfulImmediate α] [Immediate β]
    {f : α → α → β} (hop : ∀ args r, Means cbuf (s.inst id).opcode args r → MeansBinary f args r)
    (hs : s.foldImmediates (evalBinary f) id = some s') : Preserved cbuf s s' v :=
  (h.foldImmediates hid (fun _ _ hr hmeans => evalBinary_spec hr (hop _ _ hmeans)) hs).preserved

theorem Respects.foldXmad
    (hop : (s.inst id).opcode = .iAdd32) : Preserved cbuf s (Insts.foldXmad id s) v := by
  rw [Insts.foldXmad]
  cases hmul : s.foldXmadMultiply id with
  | some s' => exact h.foldXmadMultiply hid hop hmul
  | none =>
    cases hadd : s.foldXmadMultiplyAdd id with
    | some s' => exact h.foldXmadMultiplyAdd hid hop hadd
    | none => exact h.preserved

/-- The rewrites of the other instructions than subtractions. -/
theorem Respects.constantPropagation (hsub : (s.inst id).opcode ≠ .iSub32)
    (hs : s.constantPropagation id = some s') : Preserved cbuf s s' v := by
  rw [Insts.constantPropagation] at hs
  cases hop : (s.inst id).opcode with
  | iSub32 => exact absurd hop hsub
  | iAdd32 =>
    rw [hop] at hs
    obtain rfl := some.inj hs
    exact h.foldAdd hid hop (fun _ _ => .rfl) BitVec.add_assoc BitVec.add_comm BitVec.add_zero
      fun s' hcount hrespects hop' => hrespects.foldXmad (hcount ▸ hid) hop'
  | iAdd64 =>
    rw [hop] at hs
    obtain rfl := some.inj hs
    exact h.foldAdd hid hop (fun _ _ => .rfl) BitVec.add_assoc BitVec.add_comm BitVec.add_zero
      fun _ _ hrespects _ => hrespects.preserved
  | logicalAnd =>
    rw [hop] at hs
    obtain rfl := some.inj hs
    exact (h.foldLogicalAnd hid hop).preserved
  | logicalOr =>
    rw [hop] at hs
    obtain rfl := some.inj hs
    exact (h.foldLogicalOr hid hop).preserved
  | logicalNot =>
    rw [hop] at hs
    obtain rfl := some.inj hs
    exact (h.foldLogicalNot hid hop).preserved
  | selectU1 | selectU8 | selectU16 | selectU32 | selectU64 | selectF16 | selectF32 | selectF64 =>
    rw [hop] at hs
    obtain rfl := some.inj hs
    exact (h.foldSelect hid fun _ _ hmeans => by rw [hop] at hmeans; exact hmeans).preserved
  | shiftRightArithmetic32 =>
    rw [hop] at hs
    refine (h.foldImmediates hid (fun args r hr hmeans => ?_) hs).preserved
    rw [hop] at hmeans
    exact evalShiftRightArithmetic_spec hr hmeans
  | iMul32 | bitwiseAnd32 | bitwiseOr32 | bitwiseXor32 | sLessThan | uLessThan | iEqual
  | sLessThanEqual | uLessThanEqual | sGreaterThan | uGreaterThan | iNotEqual | sGreaterThanEqual
  | uGreaterThanEqual =>
    rw [hop] at hs
    exact h.foldBinary hid (fun _ _ hmeans => by rw [hop] at hmeans; exact hmeans) hs
  | _ =>
    rw [hop] at hs
    obtain rfl := some.inj hs
    exact h.preserved

end

/-- A rewrite of an instruction keeps the values of all instructions, unless the instruction
subtracts something plus a constant buffer from the same place of the constant buffer. There the
values are kept if and only if the something is its own negation. -/
theorem constantPropagation_preserves_iff (h : Respects cbuf s v) (hid : id < s.count)
    (hs : s.constantPropagation id = some s') :
    Preserved cbuf s s' v ↔ ∀ x, s.reversedSum id = some x → OwnNegation v x := by
  by_cases hop : (s.inst id).opcode = .iSub32
  · rw [Insts.constantPropagation, hop] at hs
    exact h.foldISub32 hid hop hs
  · exact iff_of_true (h.constantPropagation hid hop hs) fun x hx =>
      absurd (reversedSum_eq_some.mp hx).1 hop

/-- The program of `c[0][0] - (x + c[0][0])`. -/
def reversedProgram : Insts :=
  ⟨[⟨.getCbufU32, [zero, zero], false⟩, ⟨.other 1, [], false⟩,
    ⟨.iAdd32, [.inst 1, .inst 0], false⟩, ⟨.iSub32, [.inst 0, .inst 2], false⟩]⟩

/-- The values of its instructions, for 5 in the constant buffer and an `x` of 1. -/
def reversedValues : Nat → Imm
  | 0 => .u32 5
  | 1 => .u32 1
  | 2 => .u32 6
  | _ => .u32 (-1)

theorem reversedProgram_respects : Respects (fun _ _ => 5) reversedProgram reversedValues := by
  constructor
  case closed =>
    intro id _ x hx j hj
    subst hj
    obtain _ | _ | _ | _ | id := id
    · simp [reversedProgram, inst] at hx
    · simp [reversedProgram, inst] at hx
    · simp [reversedProgram, inst] at hx; rcases hx with rfl | rfl <;> decide
    · simp [reversedProgram, inst] at hx; rcases hx with rfl | rfl <;> decide
    · simp [reversedProgram, inst] at hx
  case means =>
    intro id hid
    obtain _ | _ | _ | _ | id := id
    · exact ⟨.u32 0, .u32 0, rfl, rfl⟩
    · trivial
    · exact ⟨(1 : BitVec 32), (5 : BitVec 32), rfl, by decide⟩
    · exact ⟨(5 : BitVec 32), (6 : BitVec 32), rfl, by decide⟩
    · exact absurd hid (by simp [reversedProgram, Insts.count])

/-- The rewrite leaves `x` for the subtraction, with the value 1 instead of -1. -/
theorem constantPropagation_drops_negation :
    Respects (fun _ _ => 5) reversedProgram reversedValues ∧
      reversedProgram.constantPropagation 3 = some (reversedProgram.replaceUsesWith 3 (.inst 1)) ∧
      ¬Preserved (fun _ _ => 5) reversedProgram (reversedProgram.replaceUsesWith 3 (.inst 1))
        reversedValues := by
  refine ⟨reversedProgram_respects, by decide, fun hpreserved => ?_⟩
  have hhas : reversedProgram.Has (.inst 1) := fun j hj => by cases hj; decide
  have hvalue := (reversedProgram_respects.preserved_replaceUsesWith_iff (by decide) hhas).mp
    hpreserved
  exact absurd hvalue (by decide)

theorem constantPropagation_preserves_iff_reversedProgram :
    Preserved (fun _ _ => 5) reversedProgram (reversedProgram.replaceUsesWith 3 (.inst 1))
        reversedValues ↔
      ∀ x, reversedProgram.reversedSum 3 = some x → OwnNegation reversedValues x :=
  constantPropagation_preserves_iff reversedProgram_respects (by decide) (by decide)

end Sudachi.Shader
