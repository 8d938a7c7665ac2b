import Sudachi.Memory.CheatVm

/-!
# Structured control flow of the cheat virtual machine

A program whose conditional blocks and control loops are properly nested, as a syntax tree over
decodable instructions, and the interpreter of that tree: it keeps a list of tasks, never searches
for the end of a block, and jumps nowhere. `DmntCheatVm::Execute`, which finds the end of a branch
that is not taken by decoding forward and counting, performs the same opcodes on the same states.
-/

set_option autoImplicit false

namespace Sudachi.Memory

open Sudachi.Foundations List Function

variable {σ : Type}

/-- The part an opcode plays in the control flow. -/
inductive OpcodeKind where
  | plain
  | beginBlock
  | elseBlock
  | endBlock
  | startLoop (regIndex : Fin 16) (numIters : Dword)
  | endLoop (regIndex : Fin 16)
  deriving DecidableEq

def Opcode.kind : Opcode → OpcodeKind
  | .beginConditional _ | .beginKeypressConditional _ | .beginRegisterConditional _ => .beginBlock
  | .endConditional o => if o.isElse then .elseBlock else .endBlock
  | .controlLoop o => if o.startLoop then .startLoop o.regIndex o.numIters else .endLoop o.regIndex
  | _ => .plain

variable {op : Opcode} {r : Fin 16}

theorem Opcode.eq_of_elseBlock (h : op.kind = .elseBlock) : op = .endConditional ⟨true⟩ := by
  cases op with
  | endConditional o =>
    rcases o with ⟨_ | _⟩
    · cases h
    · rfl
  | controlLoop o => rcases o with ⟨_ | _, r, n⟩ <;> cases h
  | _ => cases h

theorem Opcode.eq_of_endBlock (h : op.kind = .endBlock) : op = .endConditional ⟨false⟩ := by
  cases op with
  | endConditional o =>
    rcases o with ⟨_ | _⟩
    · rfl
    · cases h
  | controlLoop o => rcases o with ⟨_ | _, r, n⟩ <;> cases h
  | _ => cases h

theorem Opcode.eq_of_startLoop {numIters : Dword}
    (h : op.kind = .startLoop r numIters) : op = .controlLoop ⟨true, r, numIters⟩ := by
  cases op with
  | endConditional o => rcases o with ⟨_ | _⟩ <;> cases h
  | controlLoop o =>
    rcases o with ⟨_ | _, r', n⟩
    · cases h
    · cases h
      rfl
  | _ => cases h

theorem Opcode.eq_of_endLoop (h : op.kind = .endLoop r) :
    ∃ numIters, op = .controlLoop ⟨false, r, numIters⟩ := by
  cases op with
  | endConditional o => rcases o with ⟨_ | _⟩ <;> cases h
  | controlLoop o =>
    rcases o with ⟨_ | _, r', n⟩
    · cases h
      exact ⟨n, rfl⟩
    · cases h
  | _ => cases h

/-- The condition of an opcode that begins a block. -/
def Opcode.condMet (op : Opcode) (env : Environment σ) (s : CheatState σ) : Bool :=
  match op with
  | .beginConditional o => o.condMet env s
  | .beginKeypressConditional o => o.condMet env
  | .beginRegisterConditional o => o.condMet env s
  | _ => true

/-- The reads of `DecodeNextOpcode`, the first dword included. -/
def decoder : Reader Dword (Option CheatVmOpcode) := .read decodeRest

/-- Words that decode to one opcode, with no word left over. -/
structure Instruction where
  words : List Dword
  op : CheatVmOpcode
  decodes : decoder.parse words = some (some op, [])

namespace Instruction

/-- The part the instruction plays in the control flow. -/
def kind (i : Instruction) : OpcodeKind := i.op.opcode.kind

/-- The opcode of the instruction. -/
def opcode (i : Instruction) : Opcode := i.op.opcode

theorem words_ne_nil (i : Instruction) : i.words ≠ [] := by
  intro h
  have hdecodes := i.decodes
  rw [h] at hdecodes
  cases hdecodes

end Instruction

/-- A program with properly nested conditional blocks and control loops. Every constructor holds the
instructions that open, separate and close its branches. -/
inductive Program where
  | done
  | plain (i : Instruction) (kind : i.kind = .plain) (rest : Program)
  | ifEnd (b : Instruction) (hb : b.kind = .beginBlock) (thenBranch : Program)
      (e : Instruction) (he : e.kind = .endBlock) (rest : Program)
  | ifElse (b : Instruction) (hb : b.kind = .beginBlock) (thenBranch : Program)
      (l : Instruction) (hl : l.kind = .elseBlock) (elseBranch : Program)
      (e : Instruction) (he : e.kind = .endBlock) (rest : Program)
  | loop (r : Fin 16) (numIters : Dword) (b : Instruction) (hb : b.kind = .startLoop r numIters)
      (body : Program) (e : Instruction) (he : e.kind = .endLoop r) (rest : Program)

namespace Program

/-- The words of a program, as they stand in `DmntCheatVm::program`. -/
def words : Program → List Dword
  | done => []
  | plain i _ rest => i.words ++ rest.words
  | ifEnd b _ thenBranch e _ rest => b.words ++ (thenBranch.words ++ (e.words ++ rest.words))
  | ifElse b _ thenBranch l _ elseBranch e _ rest =>
    b.words ++ (thenBranch.words ++ (l.words ++ (elseBranch.words ++ (e.words ++ rest.words))))
  | loop _ _ b _ body e _ rest => b.words ++ (body.words ++ (e.words ++ rest.words))

/-- The number of instructions of a program. -/
def size : Program → Nat
  | done => 0
  | plain _ _ rest => rest.size + 1
  | ifEnd _ _ thenBranch _ _ rest => rest.size + 1 + thenBranch.size + 1
  | ifElse _ _ thenBranch _ _ elseBranch _ _ rest =>
    rest.size + 1 + elseBranch.size + 1 + thenBranch.size + 1
  | loop _ _ _ _ body _ _ rest => rest.size + 1 + body.size + 1

/-- No loop starts on a register that an enclosing loop counts with; `active` are the registers of
the loops around the program. -/
def LoopsNested (active : List (Fin 16)) : Program → Prop
  | done => True
  | plain _ _ rest => rest.LoopsNested active
  | ifEnd _ _ thenBranch _ _ rest => thenBranch.LoopsNested active ∧ rest.LoopsNested active
  | ifElse _ _ thenBranch _ _ elseBranch _ _ rest =>
    thenBranch.LoopsNested active ∧ elseBranch.LoopsNested active ∧ rest.LoopsNested active
  | loop r _ _ _ body _ _ rest =>
    r ∉ active ∧ body.LoopsNested (r :: active) ∧ rest.LoopsNested active

attribute [local simp] words in
theorem size_le_length (p : Program) : p.size ≤ p.words.length := by
  have hpos : ∀ i : Instruction, 0 < i.words.length := fun i =>
    length_pos_iff.mpr i.words_ne_nil
  induction p with
  | done => exact le_refl 0
  | plain i _ rest ih =>
    have hi := hpos i
    simp only [size, words, length_append]
    omega
  | ifEnd b _ thenBranch e _ rest ihThen ihRest =>
    have hb := hpos b
    have he := hpos e
    simp only [size, words, length_append]
    omega
  | ifElse b _ thenBranch l _ elseBranch e _ rest ihThen ihElse ihRest =>
    have hb := hpos b
    have hl := hpos l
    have he := hpos e
    simp only [size, words, length_append]
    omega
  | loop r numIters b _ body e _ rest ihBody ihRest =>
    have hb := hpos b
    have he := hpos e
    simp only [size, words, length_append]
    omega

end Program

/-- What the structured interpreter still has to do: run a program, perform the end of the block
whose branch it runs, perform the `else` after a taken branch and leave the block, or perform the
end of a loop and go round again. -/
inductive Task where
  | run (p : Program)
  | endBlock (e : Instruction) (he : e.kind = .endBlock)
  | leaveAtElse (l : Instruction) (hl : l.kind = .elseBlock) (elseBranch : Program)
      (e : Instruction) (he : e.kind = .endBlock)
  | endLoop (r : Fin 16) (body : Program) (e : Instruction) (he : e.kind = .endLoop r)

/-- The number of conditional blocks the interpreter is inside of. -/
def openBlocks : List Task → Nat
  | [] => 0
  | .run _ :: tasks => openBlocks tasks
  | .endBlock _ _ :: tasks => openBlocks tasks + 1
  | .leaveAtElse _ _ _ _ _ :: tasks => openBlocks tasks + 1
  | .endLoop _ _ _ _ :: tasks => openBlocks tasks

/-- One opcode of the structured interpreter: the opcode, the state after it, and what is then left
to do. -/
def structuredStep (env : Environment σ) (s : CheatState σ) :
    List Task → Option (Opcode × CheatState σ × List Task)
  | [] => none
  | .run .done :: tasks => structuredStep env s tasks
  | .run (.plain i _ rest) :: tasks =>
    some (i.opcode, i.opcode.perform env s, .run rest :: tasks)
  | .run (.ifEnd b _ thenBranch e he rest) :: tasks =>
    some (b.opcode, s,
      if b.opcode.condMet env s then .run thenBranch :: .endBlock e he :: .run rest :: tasks
      else .run rest :: tasks)
  | .run (.ifElse b _ thenBranch l hl elseBranch e he rest) :: tasks =>
    some (b.opcode, s,
      if b.opcode.condMet env s then
        .run thenBranch :: .leaveAtElse l hl elseBranch e he :: .run rest :: tasks
      else .run elseBranch :: .endBlock e he :: .run rest :: tasks)
  | .run (.loop r numIters b _ body e he rest) :: tasks =>
    some (b.opcode, s.setRegister r (numIters.zeroExtend 64),
      .run body :: .endLoop r body e he :: .run rest :: tasks)
  | .endBlock e _ :: tasks => some (e.opcode, s, tasks)
  | .leaveAtElse l _ _ _ _ :: tasks => some (l.opcode, s, tasks)
  | .endLoop r body e he :: tasks =>
    some (e.opcode, s.setRegister r (s.registers r - 1),
      if s.registers r - 1 ≠ 0 then .run body :: .endLoop r body e he :: tasks else tasks)

/-- The first `n` opcodes of the structured interpreter. -/
def structuredLoop (env : Environment σ) :
    Nat → CheatState σ → List Task → List (Performed σ) × Outcome σ
  | 0, s, _ => ([], .running s)
  | n + 1, s, tasks =>
    match structuredStep env s tasks with
    | none => ([], .finished s)
    | some (op, s', tasks') =>
      let (trace, outcome) := structuredLoop env n s' tasks'
      (⟨op, openBlocks tasks, s⟩ :: trace, outcome)

/-- The structured interpreter on a whole program, with the registers cleared and the keys read as
`Execute` does. -/
def structuredExecute (callbacks : Callbacks σ) (metadata : CheatProcessMetadata) (n : Nat)
    (p : Program) (s : CheatState σ) : List (Performed σ) × Outcome σ :=
  let (kDown, world) := callbacks.hidKeysDown s.world
  structuredLoop ⟨callbacks, metadata, kDown⟩ n
    { s with registers := fun _ => 0, savedValues := fun _ => 0, world := world } [.run p]

/-! ## Decoding an instruction -/

/-- Whether an opcode is of one of the three variants that begin a block. -/
def Opcode.beginsBlock : Opcode → Bool
  | .beginConditional _ | .beginKeypressConditional _ | .beginRegisterConditional _ => true
  | _ => false

theorem kind_eq_beginBlock_iff (op : Opcode) : op.kind = .beginBlock ↔ op.beginsBlock = true := by
  cases op with
  | endConditional o => rcases o with ⟨_ | _⟩ <;> decide
  | controlLoop o => rcases o with ⟨_ | _, r, n⟩ <;> simp [Opcode.kind, Opcode.beginsBlock]
  | _ => simp [Opcode.kind, Opcode.beginsBlock]

theorem beginsBlock_decodeOperands (firstDword : Dword) (t : CheatVmOpcodeType) :
    (decodeOperands firstDword t).All fun o =>
      ∀ op ∈ o, t.beginsConditionalBlock = op.beginsBlock := by
  have hleaf : ∀ op : Opcode, t.beginsConditionalBlock = op.beginsBlock →
      (pure (some op) : Reader Dword (Option Opcode)).All fun o =>
        ∀ op ∈ o, t.beginsConditionalBlock = op.beginsBlock := by
    intro op hop op' hmem
    cases hmem
    exact hop
  cases t <;> simp only [decodeOperands]
  case reserved11 | extendedWidth | doubleExtendedWidth | unrecognized =>
    exact fun op hmem => nomatch hmem
  -- every leaf of a case delivers an opcode of the case's own variant
  all_goals
    repeat' first
      | exact hleaf _ rfl
      | refine .bind _ fun _ => ?_
      | split

theorem beginsBlock_decoder :
    decoder.All fun o => ∀ op ∈ o, op.beginConditionalBlock = op.opcode.beginsBlock := by
  intro firstDword
  refine Reader.All.map (beginsBlock_decodeOperands firstDword (opcodeTypeOf firstDword)) ?_
  intro o ho op hmem
  obtain ⟨op', hop', rfl⟩ := Option.map_eq_some_iff.mp hmem
  exact ho op' hop'

namespace Instruction

theorem beginConditionalBlock_iff (i : Instruction) :
    i.op.beginConditionalBlock = true ↔ i.kind = .beginBlock := by
  rw [beginsBlock_decoder.of_parse i.decodes i.op rfl]
  exact (kind_eq_beginBlock_iff _).symm

theorem not_beginConditionalBlock {i : Instruction} {k : OpcodeKind}
    (h : i.kind = k) (hk : k ≠ .beginBlock) : ¬ i.op.beginConditionalBlock = true :=
  fun hflag => hk (h.symm.trans (i.beginConditionalBlock_iff.mp hflag))

end Instruction

namespace DmntCheatVm

/-- The interpreter has not failed to decode, and its cursor is at the given words. -/
structure At (vm : DmntCheatVm σ) (code : List Dword) : Prop where
  success : vm.decodeSuccess = true
  code_eq : vm.program.drop vm.instructionPtr = code

/-- The interpreter with its cursor moved. -/
def moveTo (vm : DmntCheatVm σ) (ip : Nat) : DmntCheatVm σ := { vm with instructionPtr := ip }

/-- The interpreter at another condition depth. -/
def setDepth (vm : DmntCheatVm σ) (d : Nat) : DmntCheatVm σ := { vm with conditionDepth := d }

variable {vm : DmntCheatVm σ}

theorem At.setDepth {code : List Dword} (h : vm.At code) (d : Nat) : (vm.setDepth d).At code :=
  ⟨h.success, h.code_eq⟩

theorem At.decode {i : Instruction} {tail : List Dword} (h : vm.At (i.words ++ tail)) :
    ∃ ip, vm.decodeNextOpcode = (some i.op, vm.moveTo ip) ∧ (vm.moveTo ip).At tail := by
  have hparse : decoder.parse (vm.program.drop vm.instructionPtr) = some (some i.op, tail) := by
    rw [h.code_eq]
    exact Reader.parse_append tail i.decodes
  obtain ⟨ip, hrun, -, htail⟩ := Reader.runFrom_of_parse hparse true
  refine ⟨ip, ?_, h.success, htail⟩
  unfold decodeNextOpcode
  cases hfirst : vm.program[vm.instructionPtr]? with
  | none =>
    have hnil : vm.program.drop vm.instructionPtr = [] := by
      rw [drop_eq_nil_iff]
      exact getElem?_eq_none_iff.mp hfirst
    rw [hnil] at hparse
    cases hparse
  | some firstDword =>
    have hrest : (decodeRest firstDword).runFrom vm.program (vm.instructionPtr + 1) true =
        (some i.op, ip, true) := by
      simpa only [decoder, Reader.runFrom, hfirst] using hrun
    simp only [h.success, if_true, hrest, moveTo]

theorem At.decode_nil (h : vm.At []) :
    vm.decodeNextOpcode = (none, { vm with decodeSuccess := false }) := by
  have hnone : vm.program[vm.instructionPtr]? = none := by
    rw [getElem?_eq_none_iff, ← drop_eq_nil_iff]
    exact h.code_eq
  simp only [decodeNextOpcode, hnone]

/-! ## Skipping a branch -/

section Skip

variable {vm : DmntCheatVm σ} {i : Instruction} {tail : List Dword} {isIf : Bool} {desired : Nat}

theorem skipLoop_of_le (fuel : Nat) (h : vm.conditionDepth ≤ desired) :
    skipLoop isIf desired fuel vm = vm := by
  cases fuel with
  | zero => rfl
  | succ fuel => exact if_neg (by omega)

attribute [local simp] skipLoop in
section

variable (hat : vm.At (i.words ++ tail)) (hdepth : desired < vm.conditionDepth)
include hat hdepth

/-- An instruction that is no part of a block is stepped over. -/
theorem skipLoop_step (hbegin : i.kind ≠ .beginBlock) (helse : i.kind ≠ .elseBlock)
    (hend : i.kind ≠ .endBlock) : ∃ ip, (∀ fuel, skipLoop isIf desired (fuel + 1) vm =
      skipLoop isIf desired fuel (vm.moveTo ip)) ∧ (vm.moveTo ip).At tail := by
  obtain ⟨ip, hdecode, hat'⟩ := hat.decode
  refine ⟨ip, fun fuel => ?_, hat'⟩
  have hflag := Instruction.not_beginConditionalBlock rfl hbegin
  simp only [skipLoop, if_pos hdepth, hdecode, if_neg hflag]
  split
  · rename_i o ho
    exfalso
    have hkind : i.kind = if o.isElse then .elseBlock else .endBlock := by
      rw [Instruction.kind, ho]
      rfl
    split at hkind
    · exact helse hkind
    · exact hend hkind
  · rfl

theorem skipLoop_beginBlock (hkind : i.kind = .beginBlock) :
    ∃ ip, (∀ fuel, skipLoop isIf desired (fuel + 1) vm =
      skipLoop isIf desired fuel ((vm.moveTo ip).setDepth (vm.conditionDepth + 1))) ∧
      (vm.moveTo ip).At tail := by
  obtain ⟨ip, hdecode, hat'⟩ := hat.decode
  refine ⟨ip, fun fuel => ?_, hat'⟩
  have hflag : i.op.beginConditionalBlock = true := i.beginConditionalBlock_iff.mpr hkind
  simp only [skipLoop, if_pos hdepth, hdecode, if_pos hflag]
  rfl

theorem skipLoop_endBlock (hkind : i.kind = .endBlock) :
    ∃ ip, (∀ fuel, skipLoop isIf desired (fuel + 1) vm =
      skipLoop isIf desired fuel ((vm.moveTo ip).setDepth (vm.conditionDepth - 1))) ∧
      (vm.moveTo ip).At tail := by
  obtain ⟨ip, hdecode, hat'⟩ := hat.decode
  refine ⟨ip, fun fuel => ?_, hat'⟩
  have hflag := Instruction.not_beginConditionalBlock hkind (by simp)
  simp only [skipLoop, if_pos hdepth, hdecode, if_neg hflag, Opcode.eq_of_endBlock hkind]
  rfl

/-- An `else` of an inner block, or of the block whose `else` branch is skipped, is stepped over. -/
theorem skipLoop_elseBlock (hkind : i.kind = .elseBlock)
    (hinner : isIf = true → vm.conditionDepth - 1 ≠ desired) :
    ∃ ip, (∀ fuel, skipLoop isIf desired (fuel + 1) vm =
      skipLoop isIf desired fuel (vm.moveTo ip)) ∧ (vm.moveTo ip).At tail := by
  obtain ⟨ip, hdecode, hat'⟩ := hat.decode
  refine ⟨ip, fun fuel => ?_, hat'⟩
  have hflag := Instruction.not_beginConditionalBlock hkind (by simp)
  have hstay : ¬ (isIf && (vm.moveTo ip).conditionDepth - 1 == desired) = true := by
    rw [Bool.and_eq_true, beq_iff_eq]
    exact fun h => hinner h.1 h.2
  simp only [skipLoop, if_pos hdepth, hdecode, if_neg hflag, Opcode.eq_of_elseBlock hkind,
    if_neg hstay]
  rfl

end

/-- The `else` of the block itself ends the skipping of a branch that is not taken. -/
theorem skipLoop_ownElse (hat : vm.At (i.words ++ tail)) (hdepth : vm.conditionDepth = desired + 1)
    (hkind : i.kind = .elseBlock) (fuel : Nat) :
    ∃ ip, skipLoop true desired (fuel + 1) vm = vm.moveTo ip ∧ (vm.moveTo ip).At tail := by
  obtain ⟨ip, hdecode, hat'⟩ := hat.decode
  refine ⟨ip, ?_, hat'⟩
  have hflag := Instruction.not_beginConditionalBlock hkind (by simp)
  have hlt : desired < vm.conditionDepth := by omega
  have hown : (true && (vm.moveTo ip).conditionDepth - 1 == desired) = true := by
    rw [Bool.true_and, beq_iff_eq]
    exact (congrArg (· - 1) hdepth).trans (Nat.add_sub_cancel desired 1)
  simp only [skipLoop, if_pos hlt, hdecode, if_neg hflag, Opcode.eq_of_elseBlock hkind, if_pos hown]
  rfl

/-- Skipping a properly nested program keeps the depth and consumes its words. -/
theorem skipLoop_program (p : Program)
    (hat : vm.At (p.words ++ tail)) (hdepth : desired < vm.conditionDepth) :
    ∃ ip, (∀ fuel, skipLoop isIf desired (fuel + p.size) vm =
      skipLoop isIf desired fuel (vm.moveTo ip)) ∧ (vm.moveTo ip).At tail := by
  induction p generalizing vm tail with
  | done => exact ⟨vm.instructionPtr, fun _ => rfl, hat⟩
  | plain i hi rest ih =>
    simp only [Program.words, append_assoc] at hat
    obtain ⟨ip, hskip, hat⟩ := skipLoop_step hat hdepth (by rw [hi]; decide) (by rw [hi]; decide)
      (by rw [hi]; decide)
    obtain ⟨ip', hskip', hat'⟩ := ih hat hdepth
    exact ⟨ip', fun fuel => (hskip (fuel + rest.size)).trans (hskip' fuel), hat'⟩
  | ifEnd b hb thenBranch e he rest ihThen ihRest =>
    simp only [Program.words, append_assoc] at hat
    obtain ⟨ip₁, hskip₁, hat⟩ := skipLoop_beginBlock hat hdepth hb
    obtain ⟨ip₂, hskip₂, hat⟩ := ihThen (hat.setDepth (vm.conditionDepth + 1))
      (Nat.lt_succ_of_lt hdepth)
    obtain ⟨ip₃, hskip₃, hat⟩ := skipLoop_endBlock hat (Nat.lt_succ_of_lt hdepth) he
    obtain ⟨ip₄, hskip₄, hat⟩ := ihRest (hat.setDepth vm.conditionDepth) hdepth
    refine ⟨ip₄, fun fuel => ?_, hat⟩
    have hfuel : fuel + (Program.ifEnd b hb thenBranch e he rest).size =
        fuel + rest.size + 1 + thenBranch.size + 1 := by
      simp only [Program.size]
      omega
    rw [hfuel, hskip₁, hskip₂, hskip₃]
    exact hskip₄ fuel
  | ifElse b hb thenBranch l hl elseBranch e he rest ihThen ihElse ihRest =>
    simp only [Program.words, append_assoc] at hat
    obtain ⟨ip₁, hskip₁, hat⟩ := skipLoop_beginBlock hat hdepth hb
    obtain ⟨ip₂, hskip₂, hat⟩ := ihThen (hat.setDepth (vm.conditionDepth + 1))
      (Nat.lt_succ_of_lt hdepth)
    -- the `else` sits one block deeper than the one being skipped
    obtain ⟨ip₃, hskip₃, hat⟩ := skipLoop_elseBlock hat (Nat.lt_succ_of_lt hdepth) hl
      (fun _ => (ne_of_lt hdepth).symm)
    obtain ⟨ip₄, hskip₄, hat⟩ := ihElse hat (Nat.lt_succ_of_lt hdepth)
    obtain ⟨ip₅, hskip₅, hat⟩ := skipLoop_endBlock hat (Nat.lt_succ_of_lt hdepth) he
    obtain ⟨ip₆, hskip₆, hat⟩ := ihRest (hat.setDepth vm.conditionDepth) hdepth
    refine ⟨ip₆, fun fuel => ?_, hat⟩
    have hfuel : fuel + (Program.ifElse b hb thenBranch l hl elseBranch e he rest).size =
        fuel + rest.size + 1 + elseBranch.size + 1 + thenBranch.size + 1 := by
      simp only [Program.size]
      omega
    rw [hfuel, hskip₁, hskip₂, hskip₃, hskip₄, hskip₅]
    exact hskip₆ fuel
  | loop r numIters b hb body e he rest ihBody ihRest =>
    simp only [Program.words, append_assoc] at hat
    obtain ⟨ip₁, hskip₁, hat⟩ := skipLoop_step hat hdepth (by simp [hb]) (by simp [hb])
      (by simp [hb])
    obtain ⟨ip₂, hskip₂, hat⟩ := ihBody hat hdepth
    obtain ⟨ip₃, hskip₃, hat⟩ := skipLoop_step hat hdepth (by simp [he]) (by simp [he])
      (by simp [he])
    obtain ⟨ip₄, hskip₄, hat⟩ := ihRest hat hdepth
    refine ⟨ip₄, fun fuel => ?_, hat⟩
    have hfuel : fuel + (Program.loop r numIters b hb body e he rest).size =
        fuel + rest.size + 1 + body.size + 1 := by
      simp only [Program.size]
      omega
    rw [hfuel, hskip₁, hskip₂, hskip₃]
    exact hskip₄ fuel

theorem At.length_le {code : List Dword} (h : vm.At code) : code.length ≤ vm.program.length := by
  rw [← h.code_eq, length_drop]
  exact Nat.sub_le _ _

/-- A branch up to the end of its block is skipped, and the block with it. -/
theorem skipConditionalBlock_toEnd (p : Program) {e : Instruction} (he : e.kind = .endBlock)
    (hat : vm.At (p.words ++ (e.words ++ tail))) {d : Nat} (hdepth : vm.conditionDepth = d + 1) :
    ∃ ip, vm.skipConditionalBlock isIf = some ((vm.moveTo ip).setDepth d) ∧
      (vm.moveTo ip).At tail := by
  have hlen := hat.length_le
  have hsize := p.size_le_length
  simp only [length_append] at hlen
  obtain ⟨fuel, hfuel⟩ : ∃ fuel, vm.program.length + 1 = fuel + 1 + p.size :=
    ⟨vm.program.length - p.size, by omega⟩
  have hlt : d < vm.conditionDepth := by omega
  obtain ⟨ip₁, hskip₁, hat⟩ := skipLoop_program p hat hlt
  obtain ⟨ip₂, hskip₂, hat⟩ := skipLoop_endBlock hat hlt he
  have hback : (vm.moveTo ip₁).conditionDepth - 1 = d := by
    show vm.conditionDepth - 1 = d
    omega
  have hstop : skipLoop isIf d fuel (((vm.moveTo ip₁).moveTo ip₂).setDepth d) =
      (vm.moveTo ip₂).setDepth d :=
    skipLoop_of_le fuel (le_refl d)
  refine ⟨ip₂, ?_, hat⟩
  rw [skipConditionalBlock, if_pos (by omega), show vm.conditionDepth - 1 = d by omega, hfuel,
    hskip₁, hskip₂, hback, hstop]

/-- A branch that is not taken is skipped up to the `else` of its block, which stays open. -/
theorem skipConditionalBlock_toElse (p : Program) {l : Instruction} (hl : l.kind = .elseBlock)
    (hat : vm.At (p.words ++ (l.words ++ tail))) {d : Nat} (hdepth : vm.conditionDepth = d + 1) :
    ∃ ip, vm.skipConditionalBlock true = some (vm.moveTo ip) ∧ (vm.moveTo ip).At tail := by
  have hlen := hat.length_le
  have hsize := p.size_le_length
  simp only [length_append] at hlen
  obtain ⟨fuel, hfuel⟩ : ∃ fuel, vm.program.length + 1 = fuel + 1 + p.size :=
    ⟨vm.program.length - p.size, by omega⟩
  obtain ⟨ip₁, hskip₁, hat⟩ := skipLoop_program p hat (show d < vm.conditionDepth by omega)
  obtain ⟨ip₂, hskip₂, hat⟩ := skipLoop_ownElse hat hdepth hl fuel
  refine ⟨ip₂, ?_, hat⟩
  rw [skipConditionalBlock, if_pos (by omega), show vm.conditionDepth - 1 = d by omega, hfuel,
    hskip₁, hskip₂]
  rfl

end Skip

end DmntCheatVm

/-! ## Performing an opcode -/

namespace DmntCheatVm

variable {vm : DmntCheatVm σ} {i : Instruction} {env : Environment σ}

theorem executeOpcode_plain (h : i.kind = .plain) :
    vm.executeOpcode env i.op = some { vm with state := i.opcode.perform env vm.state } := by
  have hflag := Instruction.not_beginConditionalBlock h (by simp)
  rcases i with ⟨words, ⟨flag, op⟩, hdecodes⟩
  simp only [executeOpcode, if_neg hflag, Instruction.opcode]
  cases op with
  | endConditional o => rcases o with ⟨_ | _⟩ <;> cases h
  | controlLoop o => rcases o with ⟨_ | _, r, n⟩ <;> cases h
  | beginConditional o => cases h
  | beginKeypressConditional o => cases h
  | beginRegisterConditional o => cases h
  | _ => rfl

theorem executeOpcode_beginBlock (h : i.kind = .beginBlock) : vm.executeOpcode env i.op =
      if i.opcode.condMet env vm.state then
        some (vm.setDepth (vm.conditionDepth + 1))
      else (vm.setDepth (vm.conditionDepth + 1)).skipConditionalBlock true := by
  have hflag : i.op.beginConditionalBlock = true := i.beginConditionalBlock_iff.mpr h
  rw [Instruction.kind, kind_eq_beginBlock_iff] at h
  rcases i with ⟨words, ⟨flag, op⟩, hdecodes⟩
  simp only [executeOpcode, if_pos hflag, Instruction.opcode]
  cases op with
  | beginConditional o => rfl
  | beginKeypressConditional o => rfl
  | beginRegisterConditional o => rfl
  | _ => cases h

theorem executeOpcode_endBlock (h : i.kind = .endBlock) :
    vm.executeOpcode env i.op = some (vm.setDepth (vm.conditionDepth - 1)) := by
  have hflag := Instruction.not_beginConditionalBlock h (by simp)
  simp only [executeOpcode, if_neg hflag, Opcode.eq_of_endBlock h]
  rfl

theorem executeOpcode_elseBlock (h : i.kind = .elseBlock) :
    vm.executeOpcode env i.op = vm.skipConditionalBlock false := by
  have hflag := Instruction.not_beginConditionalBlock h (by simp)
  simp only [executeOpcode, if_neg hflag, Opcode.eq_of_elseBlock h]
  rfl

theorem executeOpcode_startLoop {r : Fin 16} {numIters : Dword} (h : i.kind = .startLoop r numIters) :
    vm.executeOpcode env i.op = some { vm with
        state := vm.state.setRegister r (numIters.zeroExtend 64)
        loopTops := update vm.loopTops r vm.instructionPtr } := by
  have hflag := Instruction.not_beginConditionalBlock h (by simp)
  simp only [executeOpcode, if_neg hflag, Opcode.eq_of_startLoop h]
  rfl

theorem executeOpcode_endLoop {r : Fin 16} (h : i.kind = .endLoop r) : vm.executeOpcode env i.op =
      some (if vm.state.registers r - 1 ≠ 0 then
          { vm with
            state := vm.state.setRegister r (vm.state.registers r - 1)
            instructionPtr := vm.loopTops r }
        else { vm with state := vm.state.setRegister r (vm.state.registers r - 1) }) := by
  obtain ⟨numIters, hop⟩ := Opcode.eq_of_endLoop h
  have hflag := Instruction.not_beginConditionalBlock h (by simp)
  simp only [executeOpcode, if_neg hflag, hop]
  rfl

end DmntCheatVm

/-! ## The simulation -/

/-- The words that are left when the tasks are left. -/
def codeOf : List Task → List Dword
  | [] => []
  | .run p :: tasks => p.words ++ codeOf tasks
  | .endBlock e _ :: tasks => e.words ++ codeOf tasks
  | .leaveAtElse l _ elseBranch e _ :: tasks =>
    l.words ++ (elseBranch.words ++ (e.words ++ codeOf tasks))
  | .endLoop _ _ e _ :: tasks => e.words ++ codeOf tasks

/-- The registers that the open loops count with. -/
def openLoops : List Task → List (Fin 16)
  | [] => []
  | .run _ :: tasks => openLoops tasks
  | .endBlock _ _ :: tasks => openLoops tasks
  | .leaveAtElse _ _ _ _ _ :: tasks => openLoops tasks
  | .endLoop r _ _ _ :: tasks => r :: openLoops tasks

/-- For every open loop the loop tops hold the position of its body, and no task starts a loop on
its register. -/
def LoopsRecorded (program : List Dword) (loopTops : Fin 16 → Nat) : List Task → Prop
  | [] => True
  | .run p :: tasks => p.LoopsNested (openLoops tasks) ∧ LoopsRecorded program loopTops tasks
  | .endBlock _ _ :: tasks => LoopsRecorded program loopTops tasks
  | .leaveAtElse _ _ _ _ _ :: tasks => LoopsRecorded program loopTops tasks
  | .endLoop r body e _ :: tasks =>
    r ∉ openLoops tasks ∧ body.LoopsNested (r :: openLoops tasks) ∧
      program.drop (loopTops r) = body.words ++ (e.words ++ codeOf tasks) ∧
      LoopsRecorded program loopTops tasks

theorem LoopsRecorded.update {program : List Dword} {loopTops : Fin 16 → Nat} {tasks : List Task}
    (h : LoopsRecorded program loopTops tasks) (hr : r ∉ openLoops tasks) (ip : Nat) :
    LoopsRecorded program (update loopTops r ip) tasks := by
  induction tasks with
  | nil => trivial
  | cons task tasks ih =>
    cases task with
    | run p => exact ⟨h.1, ih h.2 hr⟩
    | endBlock e he => exact ih h hr
    | leaveAtElse l hl elseBranch e he => exact ih h hr
    | endLoop r' body e he =>
      obtain ⟨hfresh, hnested, htop, hrest⟩ := h
      obtain ⟨hne, hr⟩ := not_or.mp (mem_cons.not.mp hr)
      refine ⟨hfresh, hnested, ?_, ih hrest hr⟩
      rw [update_of_ne (Ne.symm hne)]
      exact htop

/-- The interpreter stands where the structured one does. -/
structure Related (vm : DmntCheatVm σ) (s : CheatState σ) (tasks : List Task) : Prop where
  position : vm.At (codeOf tasks)
  depth : vm.conditionDepth = openBlocks tasks
  state : vm.state = s
  loops : LoopsRecorded vm.program vm.loopTops tasks

/-- What the interpreter does with its next opcode agrees with what the structured one does. -/
def Agrees (env : Environment σ) (vm : DmntCheatVm σ) (s : CheatState σ) (depth : Nat) :
    Option (Opcode × CheatState σ × List Task) → Prop
  | none => ∃ vm', vm.decodeNextOpcode = (none, vm') ∧ vm'.state = s
  | some (op, s', tasks') =>
    ∃ i ip vm', vm.decodeNextOpcode = (some i, vm.moveTo ip) ∧ i.opcode = op ∧
      vm.conditionDepth = depth ∧ vm.state = s ∧
      (vm.moveTo ip).executeOpcode env i = some vm' ∧ Related vm' s' tasks'

section Step

variable {env : Environment σ} {vm : DmntCheatVm σ} {s : CheatState σ} {tasks : List Task}
variable {e b : Instruction} {rest : Program}

theorem agrees_plain {i : Instruction} (hi : i.kind = .plain)
    (h : Related vm s (.run (.plain i hi rest) :: tasks)) : Agrees env vm s (openBlocks tasks)
      (some (i.opcode, i.opcode.perform env s, .run rest :: tasks)) := by
  obtain ⟨hat, hdepth, rfl, hloops⟩ := h
  simp only [codeOf, Program.words, append_assoc] at hat
  obtain ⟨ip, hdecode, hat⟩ := hat.decode
  refine ⟨i.op, ip, _, hdecode, rfl, hdepth, rfl, DmntCheatVm.executeOpcode_plain hi, ?_⟩
  exact ⟨⟨hat.success, hat.code_eq⟩, hdepth, rfl, hloops⟩

theorem agrees_ifEnd (hb : b.kind = .beginBlock) (he : e.kind = .endBlock) {thenBranch : Program}
    (h : Related vm s (.run (.ifEnd b hb thenBranch e he rest) :: tasks)) :
    Agrees env vm s (openBlocks tasks) (some (b.opcode, s,
        if b.opcode.condMet env s then .run thenBranch :: .endBlock e he :: .run rest :: tasks
        else .run rest :: tasks)) := by
  obtain ⟨hat, hdepth, rfl, ⟨hthen, hrest⟩, hloops⟩ := h
  simp only [codeOf, Program.words, append_assoc] at hat
  obtain ⟨ip, hdecode, hat⟩ := hat.decode
  have hexec := @DmntCheatVm.executeOpcode_beginBlock _ (vm.moveTo ip) b env hb
  by_cases hcond : b.opcode.condMet env vm.state = true
  · rw [if_pos hcond]
    rw [if_pos (show b.opcode.condMet env (vm.moveTo ip).state = true from hcond)] at hexec
    refine ⟨b.op, ip, _, hdecode, rfl, hdepth, rfl, hexec, ?_⟩
    exact ⟨hat.setDepth _, congrArg (· + 1) hdepth, rfl, hthen, hrest, hloops⟩
  · rw [if_neg hcond]
    rw [if_neg (show ¬ b.opcode.condMet env (vm.moveTo ip).state = true from hcond)] at hexec
    obtain ⟨ip', hskip, hat'⟩ := DmntCheatVm.skipConditionalBlock_toEnd thenBranch he
      (hat.setDepth (vm.conditionDepth + 1)) rfl
    refine ⟨b.op, ip, _, hdecode, rfl, hdepth, rfl, hexec.trans hskip, ?_⟩
    exact ⟨hat'.setDepth _, hdepth, rfl, hrest, hloops⟩

theorem agrees_ifElse {l : Instruction} (hb : b.kind = .beginBlock) (hl : l.kind = .elseBlock)
    (he : e.kind = .endBlock) {thenBranch elseBranch : Program}
    (h : Related vm s (.run (.ifElse b hb thenBranch l hl elseBranch e he rest) :: tasks)) :
    Agrees env vm s (openBlocks tasks) (some (b.opcode, s,
        if b.opcode.condMet env s then
          .run thenBranch :: .leaveAtElse l hl elseBranch e he :: .run rest :: tasks
        else .run elseBranch :: .endBlock e he :: .run rest :: tasks)) := by
  obtain ⟨hat, hdepth, rfl, ⟨hthen, helse, hrest⟩, hloops⟩ := h
  simp only [codeOf, Program.words, append_assoc] at hat
  obtain ⟨ip, hdecode, hat⟩ := hat.decode
  have hexec := @DmntCheatVm.executeOpcode_beginBlock _ (vm.moveTo ip) b env hb
  by_cases hcond : b.opcode.condMet env vm.state = true
  · rw [if_pos hcond]
    rw [if_pos (show b.opcode.condMet env (vm.moveTo ip).state = true from hcond)] at hexec
    refine ⟨b.op, ip, _, hdecode, rfl, hdepth, rfl, hexec, ?_⟩
    exact ⟨hat.setDepth _, congrArg (· + 1) hdepth, rfl, hthen, hrest, hloops⟩
  · rw [if_neg hcond]
    rw [if_neg (show ¬ b.opcode.condMet env (vm.moveTo ip).state = true from hcond)] at hexec
    obtain ⟨ip', hskip, hat'⟩ := DmntCheatVm.skipConditionalBlock_toElse thenBranch hl
      (hat.setDepth (vm.conditionDepth + 1)) rfl
    refine ⟨b.op, ip, _, hdecode, rfl, hdepth, rfl, hexec.trans hskip, ?_⟩
    exact ⟨hat', congrArg (· + 1) hdepth, rfl, helse, hrest, hloops⟩

theorem agrees_loop {r : Fin 16} {numIters : Dword}
    (hb : b.kind = .startLoop r numIters) (he : e.kind = .endLoop r) {body : Program}
    (h : Related vm s (.run (.loop r numIters b hb body e he rest) :: tasks)) :
    Agrees env vm s (openBlocks tasks) (some (b.opcode, s.setRegister r (numIters.zeroExtend 64),
        .run body :: .endLoop r body e he :: .run rest :: tasks)) := by
  obtain ⟨hat, hdepth, rfl, ⟨hfresh, hbody, hrest⟩, hloops⟩ := h
  simp only [codeOf, Program.words, append_assoc] at hat
  obtain ⟨ip, hdecode, hat⟩ := hat.decode
  refine ⟨b.op, ip, _, hdecode, rfl, hdepth, rfl, DmntCheatVm.executeOpcode_startLoop hb, ?_⟩
  refine ⟨⟨hat.success, hat.code_eq⟩, hdepth, rfl, hbody, hfresh, hbody, ?_, hrest,
    hloops.update hfresh ip⟩
  show vm.program.drop (update vm.loopTops r ip r) = _
  rw [update_self]
  exact hat.code_eq

theorem agrees_endBlock (he : e.kind = .endBlock) (h : Related vm s (.endBlock e he :: tasks)) :
    Agrees env vm s (openBlocks tasks + 1) (some (e.opcode, s, tasks)) := by
  obtain ⟨hat, hdepth, rfl, hloops⟩ := h
  obtain ⟨ip, hdecode, hat⟩ := hat.decode
  refine ⟨e.op, ip, _, hdecode, rfl, hdepth, rfl, DmntCheatVm.executeOpcode_endBlock he, ?_⟩
  exact ⟨hat.setDepth _, congrArg (· - 1) hdepth, rfl, hloops⟩

theorem agrees_leaveAtElse {l : Instruction} (hl : l.kind = .elseBlock) (he : e.kind = .endBlock)
    {elseBranch : Program} (h : Related vm s (.leaveAtElse l hl elseBranch e he :: tasks)) :
    Agrees env vm s (openBlocks tasks + 1) (some (l.opcode, s, tasks)) := by
  obtain ⟨hat, hdepth, rfl, hloops⟩ := h
  obtain ⟨ip, hdecode, hat⟩ := hat.decode
  obtain ⟨ip', hskip, hat'⟩ := DmntCheatVm.skipConditionalBlock_toEnd elseBranch he hat hdepth
  refine ⟨l.op, ip, _, hdecode, rfl, hdepth, rfl,
    (DmntCheatVm.executeOpcode_elseBlock hl).trans hskip, ?_⟩
  exact ⟨hat'.setDepth _, rfl, rfl, hloops⟩

theorem agrees_endLoop {r : Fin 16} {body : Program} (he : e.kind = .endLoop r)
    (h : Related vm s (.endLoop r body e he :: tasks)) :
    Agrees env vm s (openBlocks tasks) (some (e.opcode, s.setRegister r (s.registers r - 1),
        if s.registers r - 1 ≠ 0 then .run body :: .endLoop r body e he :: tasks else tasks)) := by
  obtain ⟨hat, hdepth, rfl, hloops⟩ := h
  obtain ⟨hfresh, hbody, htop, hrest⟩ := hloops
  obtain ⟨ip, hdecode, hat⟩ := hat.decode
  refine ⟨e.op, ip, _, hdecode, rfl, hdepth, rfl, DmntCheatVm.executeOpcode_endLoop he, ?_⟩
  by_cases hcounter : vm.state.registers r - 1 ≠ 0
  · rw [if_pos hcounter, if_pos (show (vm.moveTo ip).state.registers r - 1 ≠ 0 from hcounter)]
    exact ⟨⟨hat.success, htop⟩, hdepth, rfl, hbody, hfresh, hbody, htop, hrest⟩
  · rw [if_neg hcounter, if_neg (show ¬ (vm.moveTo ip).state.registers r - 1 ≠ 0 from hcounter)]
    exact ⟨⟨hat.success, hat.code_eq⟩, hdepth, rfl, hrest⟩

/-- One opcode of the interpreter is one opcode of the structured interpreter. -/
theorem agrees_structuredStep (h : Related vm s tasks) :
    Agrees env vm s (openBlocks tasks) (structuredStep env s tasks) := by
  induction tasks with
  | nil =>
    obtain ⟨hat, -, rfl, -⟩ := h
    exact ⟨_, hat.decode_nil, rfl⟩
  | cons task tasks ih =>
    cases task with
    | run p =>
      cases p with
      | done => exact ih ⟨h.position, h.depth, h.state, h.loops.2⟩
      | plain i hi rest => exact agrees_plain hi h
      | ifEnd b hb thenBranch e he rest => exact agrees_ifEnd hb he h
      | ifElse b hb thenBranch l hl elseBranch e he rest => exact agrees_ifElse hb hl he h
      | loop r numIters b hb body e he rest => exact agrees_loop hb he h
    | endBlock e he => exact agrees_endBlock he h
    | leaveAtElse l hl elseBranch e he => exact agrees_leaveAtElse hl he h
    | endLoop r body e he => exact agrees_endLoop he h

end Step

/-- From related states the interpreter performs the opcodes of the structured one. -/
theorem executeLoop_eq (env : Environment σ) (n : Nat) {vm : DmntCheatVm σ} {s : CheatState σ}
    {tasks : List Task} (h : Related vm s tasks) :
    vm.executeLoop env n = structuredLoop env n s tasks := by
  induction n generalizing vm s tasks with
  | zero =>
    obtain ⟨-, -, rfl, -⟩ := h
    rfl
  | succ n ih =>
    have hstep := @agrees_structuredStep _ env _ _ _ h
    cases hs : structuredStep env s tasks with
    | none =>
      rw [hs] at hstep
      obtain ⟨vm', hdecode, rfl⟩ := hstep
      simp only [DmntCheatVm.executeLoop, structuredLoop, hdecode, hs]
    | some next =>
      obtain ⟨op, s', tasks'⟩ := next
      rw [hs] at hstep
      obtain ⟨i, ip, vm', hdecode, rfl, hdepth, rfl, hexec, hrel⟩ := hstep
      simp only [DmntCheatVm.executeLoop, structuredLoop, hdecode, hs, hexec, ih hrel, ← hdepth]
      rfl

/-- A memory that reads as zero, with no key down. -/
def quietCallbacks : Callbacks Unit where
  memoryReadUnsafe _ _ _ := 0
  memoryWriteUnsafe _ _ _ _ := ()
  hidKeysDown _ := (0, ())
  pauseProcess _ := ()
  resumeProcess _ := ()
  debugLog _ _ _ := ()

def quietMetadata : CheatProcessMetadata := ⟨⟨0, 0⟩, ⟨0, 0⟩, ⟨0, 0⟩, ⟨0, 0⟩⟩

/-- The interpreter with the given words loaded. -/
def loaded (program : List Dword) : DmntCheatVm Unit where
  program := program
  instructionPtr := 0
  conditionDepth := 0
  decodeSuccess := false
  loopTops _ := 0
  state := ⟨fun _ => 0, fun _ => 0, fun _ => 0, ()⟩

/-- `80000000`: the keys of the empty mask are always down. -/
def alwaysBegin : Instruction :=
  ⟨[0x80000000], ⟨true, .beginKeypressConditional ⟨0⟩⟩, rfl⟩

/-- `21000000`. -/
def elseInstruction : Instruction :=
  ⟨[0x21000000], ⟨false, .endConditional ⟨true⟩⟩, rfl⟩

/-- `20000000`. -/
def endInstruction : Instruction :=
  ⟨[0x20000000], ⟨false, .endConditional ⟨false⟩⟩, rfl⟩

/-- `30000000 00000002`: a loop of two rounds on register 0. -/
def twoRounds : Instruction :=
  ⟨[0x30000000, 2], ⟨false, .controlLoop ⟨true, 0, 2⟩⟩, rfl⟩

/-- `31000000`. -/
def endRounds : Instruction :=
  ⟨[0x31000000], ⟨false, .controlLoop ⟨false, 0, 0⟩⟩, rfl⟩

/-- A loop inside the branch that is taken, before an `else`. -/
def loopInBranch : Program :=
  .ifElse alwaysBegin rfl (.loop 0 2 twoRounds rfl .done endRounds rfl .done)
    elseInstruction rfl .done endInstruction rfl .done

/-- Instructions whose conditional opcodes are properly nested, whatever the others are. -/
inductive BlocksNested : List Instruction → Prop where
  | nil : BlocksNested []
  | other (i : Instruction) {rest : List Instruction} (hbegin : i.kind ≠ .beginBlock)
      (helse : i.kind ≠ .elseBlock) (hend : i.kind ≠ .endBlock) (hrest : BlocksNested rest) :
      BlocksNested (i :: rest)
  | ifEnd (b e : Instruction) {thenBranch rest : List Instruction} (hb : b.kind = .beginBlock)
      (he : e.kind = .endBlock) (hthen : BlocksNested thenBranch) (hrest : BlocksNested rest) :
      BlocksNested (b :: (thenBranch ++ e :: rest))
  | ifElse (b l e : Instruction) {thenBranch elseBranch rest : List Instruction}
      (hb : b.kind = .beginBlock) (hl : l.kind = .elseBlock) (he : e.kind = .endBlock)
      (hthen : BlocksNested thenBranch) (helse : BlocksNested elseBranch)
      (hrest : BlocksNested rest) :
      BlocksNested (b :: (thenBranch ++ l :: (elseBranch ++ e :: rest)))

/-- A loop that starts in the branch that is taken and ends after the block. -/
def loopAcrossBlock : List Instruction :=
  [alwaysBegin, twoRounds, elseInstruction, endInstruction, endRounds]

end Sudachi.Memory
