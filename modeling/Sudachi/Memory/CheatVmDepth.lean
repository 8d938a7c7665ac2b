import Sudachi.Memory.CheatVmBlocks

/-!
# The condition depth of the cheat virtual machine

`SkipConditionalBlock` ends with a fatal error when the condition depth is zero, in the belief that
this cannot happen. The three opcodes that begin a block raise the depth first. An `else` does not:
a program that performs one with no block open reaches the error (`execute_safe_iff`).

The depth is unsigned. `executeChecked` is the interpreter with every `condition_depth--` checked; it
does what the interpreter does, so the depth never wraps.
-/

set_option autoImplicit false

namespace Sudachi.Memory

open Sudachi.Foundations

variable {σ : Type}

namespace DmntCheatVm

/-! ## Checked decrements -/

/-- `condition_depth--`; `none` is a depth that wraps. -/
def decrementDepth (vm : DmntCheatVm σ) : Option (DmntCheatVm σ) :=
  if vm.conditionDepth = 0 then none else some (vm.setDepth (vm.conditionDepth - 1))

/-- The loop of `SkipConditionalBlock`. -/
def skipLoopChecked (isIf : Bool) (desiredDepth : Nat) :
    Nat → DmntCheatVm σ → Option (DmntCheatVm σ)
  | 0, vm => some vm
  | fuel + 1, vm =>
    if desiredDepth < vm.conditionDepth then
      match vm.decodeNextOpcode with
      | (none, vm) => some vm
      | (some skipOpcode, vm) =>
        if skipOpcode.beginConditionalBlock then
          skipLoopChecked isIf desiredDepth fuel (vm.setDepth (vm.conditionDepth + 1))
        else
          match skipOpcode.opcode with
          | .endConditional endCond =>
            if !endCond.isElse then
              vm.decrementDepth.bind (skipLoopChecked isIf desiredDepth fuel)
            else if isIf && vm.conditionDepth - 1 == desiredDepth then some vm
            else skipLoopChecked isIf desiredDepth fuel vm
          | _ => skipLoopChecked isIf desiredDepth fuel vm
    else some vm

/-- `SkipConditionalBlock`. -/
def skipConditionalBlockChecked (vm : DmntCheatVm σ) (isIf : Bool) : Option (DmntCheatVm σ) :=
  if 0 < vm.conditionDepth then
    vm.skipLoopChecked isIf (vm.conditionDepth - 1) (vm.program.length + 1)
  else none

/-- The body of the loop of `Execute` once the opcode is decoded. -/
def executeOpcodeChecked (env : Environment σ) (op : CheatVmOpcode) (vm : DmntCheatVm σ) :
    Option (DmntCheatVm σ) :=
  let begun := if op.beginConditionalBlock then vm.setDepth (vm.conditionDepth + 1) else vm
  match op.opcode with
  | .beginConditional o =>
    if o.condMet env begun.state then some begun else begun.skipConditionalBlockChecked true
  | .beginKeypressConditional o =>
    if o.condMet env then some begun else begun.skipConditionalBlockChecked true
  | .beginRegisterConditional o =>
    if o.condMet env begun.state then some begun else begun.skipConditionalBlockChecked true
  | .endConditional o =>
    if o.isElse then begun.skipConditionalBlockChecked false
    else if 0 < begun.conditionDepth then begun.decrementDepth
    else some begun
  | _ => vm.executeOpcode env op

/-- The first `n` turns of the loop of `Execute`. -/
def executeLoopChecked (env : Environment σ) :
    Nat → DmntCheatVm σ → List (Performed σ) × Outcome σ
  | 0, vm => ([], .running vm.state)
  | n + 1, vm =>
    match vm.decodeNextOpcode with
    | (none, vm) => ([], .finished vm.state)
    | (some op, vm) =>
      let performed : Performed σ := ⟨op.opcode, vm.conditionDepth, vm.state⟩
      match vm.executeOpcodeChecked env op with
      | none => ([performed], .crashed)
      | some vm =>
        let (trace, outcome) := executeLoopChecked env n vm
        (performed :: trace, outcome)

/-- `Execute`, for the first `n` opcodes. -/
def executeChecked (callbacks : Callbacks σ) (metadata : CheatProcessMetadata) (n : Nat)
    (vm : DmntCheatVm σ) : List (Performed σ) × Outcome σ :=
  let (kDown, world) := callbacks.hidKeysDown vm.state.world
  let vm := { vm with state := { vm.state with world := world } }
  executeLoopChecked ⟨callbacks, metadata, kDown⟩ n vm.resetState

/-- Decoding leaves the depth alone. -/
theorem conditionDepth_decodeNextOpcode (vm : DmntCheatVm σ) :
    vm.decodeNextOpcode.2.conditionDepth = vm.conditionDepth := by
  rw [decodeNextOpcode]
  split
  · rfl
  · split
    · split <;> rfl
    · rfl

/-- The depth is above the desired one whenever the loop lowers it. -/
theorem skipLoopChecked_eq (isIf : Bool) (desiredDepth fuel : Nat) (vm : DmntCheatVm σ) :
    vm.skipLoopChecked isIf desiredDepth fuel = some (vm.skipLoop isIf desiredDepth fuel) := by
  induction fuel generalizing vm with
  | zero => rfl
  | succ fuel ih =>
    rw [skipLoopChecked, skipLoop]
    by_cases hdepth : desiredDepth < vm.conditionDepth
    · rw [if_pos hdepth, if_pos hdepth]
      have hsame := vm.conditionDepth_decodeNextOpcode
      generalize vm.decodeNextOpcode = decoded at hsame
      obtain ⟨_ | ⟨begins, opcode⟩, next⟩ := decoded
      · rfl
      · have hpos : next.conditionDepth ≠ 0 := by
          intro hzero
          exact absurd (hsame.symm.trans hzero) (ne_of_gt (Nat.zero_lt_of_lt hdepth))
        dsimp only
        split
        · exact ih _
        · cases opcode with
          | endConditional endCond =>
            dsimp only
            split
            · rw [decrementDepth, if_neg hpos]
              exact ih _
            · split
              · rfl
              · exact ih _
          | _ => exact ih _
    · rw [if_neg hdepth, if_neg hdepth]

theorem skipConditionalBlockChecked_eq (vm : DmntCheatVm σ) (isIf : Bool) :
    vm.skipConditionalBlockChecked isIf = vm.skipConditionalBlock isIf := by
  rw [skipConditionalBlockChecked, skipConditionalBlock]
  split
  · exact vm.skipLoopChecked_eq isIf _ _
  · rfl

theorem executeOpcodeChecked_eq (env : Environment σ) (op : CheatVmOpcode) (vm : DmntCheatVm σ) :
    vm.executeOpcodeChecked env op = vm.executeOpcode env op := by
  obtain ⟨begins, opcode⟩ := op
  rw [executeOpcodeChecked, executeOpcode]
  simp only [skipConditionalBlockChecked_eq]
  cases opcode with
  | endConditional o =>
    dsimp only
    split
    · rfl
    · -- at depth zero the source skips the decrement, which the subtraction of the model does too
      rw [decrementDepth]
      cases begins with
      | true => rfl
      | false =>
        obtain ⟨program, ip, depth, success, loopTops, state⟩ := vm
        cases depth with
        | zero => rfl
        | succ depth => rfl
  | _ => rfl

/-- No `condition_depth--` of a run wraps. -/
theorem executeChecked_eq (callbacks : Callbacks σ) (metadata : CheatProcessMetadata) (n : Nat)
    (vm : DmntCheatVm σ) :
    vm.executeChecked callbacks metadata n = vm.execute callbacks metadata n := by
  have hloop (env : Environment σ) (vm : DmntCheatVm σ) :
      vm.executeLoopChecked env n = vm.executeLoop env n := by
    induction n generalizing vm with
    | zero => rfl
    | succ n ih =>
      rw [executeLoopChecked, executeLoop]
      obtain ⟨op, vm⟩ := vm.decodeNextOpcode
      cases op with
      | none => rfl
      | some op =>
        dsimp only
        rw [executeOpcodeChecked_eq]
        cases vm.executeOpcode env op with
        | none => rfl
        | some vm =>
          dsimp only
          rw [ih]
  exact hloop _ _

/-! ## The fatal branch -/

/-- Decoding tells a beginning block from other opcodes. -/
theorem beginConditionalBlock_decodeNextOpcode {vm next : DmntCheatVm σ} {op : CheatVmOpcode}
    (h : vm.decodeNextOpcode = (some op, next)) :
    op.beginConditionalBlock = op.opcode.beginsBlock := by
  rw [decodeNextOpcode] at h
  split at h
  · cases h
  · rename_i firstDword _
    split at h
    · have hall := (beginsBlock_decoder firstDword).of_runFrom vm.program (vm.instructionPtr + 1) true
      split at h
      · rename_i hrun
        rw [hrun] at hall
        cases h
        exact hall _ rfl
      · cases h
    · cases h

/-- An opcode crashes the interpreter exactly if it is an `else` at depth zero. -/
theorem executeOpcode_eq_none_iff (env : Environment σ) (vm : DmntCheatVm σ) {op : CheatVmOpcode}
    (hbegin : op.beginConditionalBlock = op.opcode.beginsBlock) : vm.executeOpcode env op = none ↔
      op.opcode = .endConditional ⟨true⟩ ∧ vm.conditionDepth = 0 := by
  -- the depth has been raised when a block is skipped whose condition is not met
  have hbegun (condMet : Bool) :
      ¬(if condMet then some (vm.setDepth (vm.conditionDepth + 1))
        else (vm.setDepth (vm.conditionDepth + 1)).skipConditionalBlock true) = none := by
    have hpos : 0 < (vm.setDepth (vm.conditionDepth + 1)).conditionDepth := Nat.succ_pos _
    rw [skipConditionalBlock, if_pos hpos]
    split <;> exact Option.some_ne_none _
  obtain ⟨begins, opcode⟩ := op
  obtain rfl : begins = opcode.beginsBlock := hbegin
  cases opcode with
  | beginConditional o => exact iff_of_false (hbegun (o.condMet env vm.state)) (fun h => by cases h.1)
  | beginKeypressConditional o => exact iff_of_false (hbegun (o.condMet env)) (fun h => by cases h.1)
  | beginRegisterConditional o => exact iff_of_false (hbegun (o.condMet env vm.state)) (fun h => by cases h.1)
  | endConditional o =>
    obtain ⟨_ | _⟩ := o
    · exact iff_of_false (Option.some_ne_none _) (fun h => by cases h.1)
    · change vm.skipConditionalBlock false = none ↔ _
      rw [skipConditionalBlock]
      split
      · rename_i hpos
        exact iff_of_false (Option.some_ne_none _) fun h => ne_of_gt hpos h.2
      · rename_i hzero
        exact iff_of_true rfl ⟨rfl, Nat.eq_zero_of_not_pos hzero⟩
  | controlLoop o =>
    apply iff_of_false _ (fun h => by cases h.1)
    obtain ⟨_ | _, r, numIters⟩ := o <;> exact Option.some_ne_none _
  | _ => exact iff_of_false (Option.some_ne_none _) (fun h => by cases h.1)

end DmntCheatVm

/-- The opcode found a block to skip the rest of, if it is an `else`. -/
def Performed.ElseInBlock (p : Performed σ) : Prop :=
  p.opcode = .endConditional ⟨true⟩ → 0 < p.conditionDepth

namespace DmntCheatVm

theorem executeLoop_safe_iff (env : Environment σ) (n : Nat) (vm : DmntCheatVm σ) :
    (vm.executeLoop env n).2 ≠ .crashed ↔ ∀ p ∈ (vm.executeLoop env n).1, p.ElseInBlock := by
  induction n generalizing vm with
  | zero => exact iff_of_true (fun h => by cases h) fun p hp => absurd hp List.not_mem_nil
  | succ n ih =>
    rw [executeLoop]
    rcases hdecode : vm.decodeNextOpcode with ⟨_ | op, next⟩
    · exact iff_of_true (fun h => by cases h) fun p hp => absurd hp List.not_mem_nil
    · have hnone := executeOpcode_eq_none_iff env next
        (beginConditionalBlock_decodeNextOpcode hdecode)
      dsimp only
      rcases hexec : next.executeOpcode env op with _ | after
      · obtain ⟨helse, hzero⟩ := hnone.mp hexec
        apply iff_of_false (fun h => h rfl)
        intro h
        exact ne_of_gt (h _ List.mem_cons_self helse) hzero
      · have hhead : Performed.ElseInBlock ⟨op.opcode, next.conditionDepth, next.state⟩ := by
          intro helse
          apply pos_of_ne_zero
          intro hzero
          rw [hnone.mpr ⟨helse, hzero⟩] at hexec
          cases hexec
        rw [List.forall_mem_cons, and_iff_right hhead]
        exact ih after

end DmntCheatVm

end Sudachi.Memory
