import Mathlib.Data.List.GetD
import Sudachi.Shader.ConstantPropagation

/-!
# Constant propagation keeps values

Values of all instructions that fit the program before a rewrite fit it afterwards, too. This module
has the facts about arguments and about rewrites of one instruction, and the folds without new
instructions.
-/

set_option autoImplicit false

namespace Sudachi.Shader

open List

variable {cbuf : Imm → Imm → BitVec 32} {s s' : Insts} {v : Nat → Imm} {id : Nat} {i : Inst}
  {x y : Value}

/-! ## Arguments and what they stand for -/

namespace Insts

theorem inst_of_ge (h : s.count ≤ id) : s.inst id = ⟨.other 0, [], false⟩ :=
  getD_eq_default _ _ h

theorem lt_count_of_opcode (h : (s.inst id).opcode ≠ .other 0) : id < s.count := by
  by_contra hge
  rw [inst_of_ge (Nat.le_of_not_lt hge)] at h
  exact h rfl

@[simp] theorem count_set (id : Nat) (i : Inst) : (s.set id i).count = s.count :=
  length_set

theorem inst_set_self (h : id < s.count) (i : Inst) : (s.set id i).inst id = i := by
  have hlt : id < (s.list.set id i).length := by rwa [length_set]
  rw [inst, set, getD_eq_getElem _ _ hlt, getElem_set_self]

theorem inst_set_of_ne {j : Nat} (h : id ≠ j) (i : Inst) : (s.set id i).inst j = s.inst j := by
  rw [inst, set, inst, getD_eq_getElem?_getD, getD_eq_getElem?_getD, getElem?_set_ne h]

end Insts

open Insts

variable {r : Imm}

theorem Respects.has_arg (h : Respects cbuf s v) (id k : Nat) : s.Has ((s.inst id).arg k) := by
  rw [Inst.arg]
  by_cases hk : k < (s.inst id).args.length
  · rw [getD_eq_getElem _ _ hk]
    refine h.closed id ?_ _ (getElem_mem hk)
    by_contra hge
    rw [inst_of_ge (Nat.le_of_not_lt hge)] at hk
    exact absurd hk (Nat.not_lt_zero k)
  · rw [getD_eq_default _ _ (Nat.le_of_not_lt hk)]
    intro j hj
    cases hj

theorem has_imm (imm : Imm) : s.Has (.imm imm) := fun _ hj => by cases hj

theorem eval_arg (v : Nat → Imm) (i : Inst) (k : Nat) :
    (i.arg k).eval v = (i.args.map (·.eval v)).getD k (.other 0 0) := by
  exact (getD_map i.args (.imm (.other 0 0)) (Value.eval v)).symm

/-- The argument of an identity has its value. -/
theorem Respects.eval_identity (h : Respects cbuf s v) (hid : (s.inst id).opcode = .identity) :
    ((s.inst id).arg 0).eval v = v id := by
  have hlt : id < s.count := lt_count_of_opcode (by rw [hid]; exact fun heq => by cases heq)
  have hmeans := h.means id hlt
  rw [hid] at hmeans
  rw [eval_arg, show (s.inst id).args.map (·.eval v) = [v id] from hmeans]
  rfl

theorem Respects.resolveLoop (h : Respects cbuf s v) (left : Nat) (hx : s.Has x) :
    s.Has (s.resolveLoop left x) ∧ (s.resolveLoop left x).eval v = x.eval v := by
  induction left generalizing x with
  | zero =>
    cases x with
    | imm imm => exact ⟨hx, rfl⟩
    | inst id => exact ⟨hx, rfl⟩
  | succ left ih =>
    cases x with
    | imm imm => exact ⟨hx, rfl⟩
    | inst id =>
      rw [resolveLoop]
      split
      case isTrue hid =>
        obtain ⟨hhas, heval⟩ := ih (h.has_arg id 0)
        exact ⟨hhas, heval.trans (h.eval_identity hid)⟩
      case isFalse => exact ⟨hx, rfl⟩

theorem Respects.has_resolve (h : Respects cbuf s v) (hx : s.Has x) : s.Has (s.resolve x) :=
  (h.resolveLoop s.count hx).1

theorem Respects.eval_resolve (h : Respects cbuf s v) (hx : s.Has x) :
    (s.resolve x).eval v = x.eval v :=
  (h.resolveLoop s.count hx).2

theorem isImmediate_iff : s.isImmediate x = true ↔ s.tryInstRecursive x = none := by
  rw [isImmediate, tryInstRecursive]
  cases s.resolve x with
  | imm imm => simp
  | inst id => simp

/-- The value of an immediate. -/
theorem Respects.eval_imm (h : Respects cbuf s v) (hx : s.Has x)
    (himm : s.tryInstRecursive x = none) : x.eval v = s.immOf x := by
  rw [← h.eval_resolve hx]
  rw [tryInstRecursive] at himm
  rw [immOf]
  cases hr : s.resolve x with
  | imm imm => rfl
  | inst id => rw [hr] at himm; cases himm

/-- The value of an argument that is an instruction. -/
theorem Respects.eval_inst (h : Respects cbuf s v) (hx : s.Has x)
    (hinst : s.tryInstRecursive x = some id) : x.eval v = v id := by
  rw [← h.eval_resolve hx]
  rw [tryInstRecursive] at hinst
  cases hr : s.resolve x with
  | imm imm => rw [hr] at hinst; cases hinst
  | inst j => rw [hr] at hinst; cases hinst; rfl

/-- An instruction that an argument stands for, with the value of the argument. -/
structure Stands (cbuf : Imm → Imm → BitVec 32) (s : Insts) (v : Nat → Imm) (x : Value) (i : Inst) :
    Prop where
  has_arg : ∀ k, s.Has (i.arg k)
  means : Means cbuf i.opcode (i.args.map (·.eval v)) (x.eval v)

theorem Respects.inst_stands (h : Respects cbuf s v) (hx : s.Has x)
    (hinst : s.tryInstRecursive x = some id) : Stands cbuf s v x (s.inst id) := by
  refine ⟨h.has_arg id, ?_⟩
  rw [h.eval_inst hx hinst]
  by_cases hlt : id < s.count
  · exact h.means id hlt
  · rw [inst_of_ge (Nat.le_of_not_lt hlt)]
    trivial

theorem Respects.stands (h : Respects cbuf s v) (hx : s.Has x) (hinst : s.tryInst x = some i) :
    Stands cbuf s v x i := by
  obtain ⟨id, hid, rfl⟩ := Option.map_eq_some_iff.mp hinst
  exact h.inst_stands hx hid

/-! ## Instructions with two arguments -/

class LawfulImmediate (α : Type) [Immediate α] : Prop where
  read_imm : ∀ a : α, Immediate.read (Immediate.imm a) = a

instance : LawfulImmediate Bool := ⟨fun _ => rfl⟩

instance : LawfulImmediate (BitVec 32) := ⟨fun _ => rfl⟩

instance : LawfulImmediate (BitVec 64) := ⟨fun _ => rfl⟩

variable {α β : Type} [Immediate α] [Immediate β] {f : α → α → β}
variable {a : α} {g : α → α → α}

/-- The arguments of an instruction with two of them. -/
theorem MeansBinary.args (h : MeansBinary f (i.args.map (·.eval v)) r) :
    ∃ a b, (i.arg 0).eval v = Immediate.imm a ∧ (i.arg 1).eval v = Immediate.imm b ∧
      r = Immediate.imm (f a b) := by
  obtain ⟨a, b, hargs, hr⟩ := h
  refine ⟨a, b, ?_, ?_, hr⟩
  · rw [eval_arg, hargs]
    rfl
  · rw [eval_arg, hargs]
    rfl

/-! ## Rewrites of one instruction -/

/-- A new instruction in the place of one with the same value. -/
theorem Respects.set (h : Respects cbuf s v) (hargs : ∀ x ∈ i.args, s.Has x)
    (hmeans : id < s.count → Means cbuf i.opcode (i.args.map (·.eval v)) (v id)) :
    Respects cbuf (s.set id i) v := by
  have hhas : ∀ x, s.Has x → (s.set id i).Has x := fun x hx j hj => by
    rw [count_set]
    exact hx j hj
  constructor
  case closed =>
    intro j hj x hx
    rw [count_set] at hj
    by_cases hij : id = j
    · subst hij
      rw [inst_set_self hj] at hx
      exact hhas x (hargs x hx)
    · rw [inst_set_of_ne hij] at hx
      exact hhas x (h.closed j hj x hx)
  case means =>
    intro j hj
    rw [count_set] at hj
    by_cases hij : id = j
    · subst hij
      rw [inst_set_self hj]
      exact hmeans hj
    · rw [inst_set_of_ne hij]
      exact h.means j hj

theorem Respects.replaceUsesWith (h : Respects cbuf s v) (hx : s.Has x)
    (heval : id < s.count → x.eval v = v id) : Respects cbuf (s.replaceUsesWith id x) v := by
  refine h.set (fun y hy => ?_) fun hid => ?_
  · rw [mem_singleton.mp hy]
    exact hx
  · exact congrArg (fun r => [r]) (heval hid)

theorem Respects.setArgs (h : Respects cbuf s v) {args : List Value} (hargs : ∀ x ∈ args, s.Has x)
    (hmeans : id < s.count → Means cbuf (s.inst id).opcode (args.map (·.eval v)) (v id)) :
    Respects cbuf (s.setArgs id args) v :=
  h.set hargs hmeans

theorem opcode_setArgs (hid : id < s.count) (args : List Value) :
    ((s.setArgs id args).inst id).opcode = (s.inst id).opcode := by
  rw [setArgs, inst_set_self hid]

/-- What a fold of a commutative operation leaves. -/
structure Commuted (cbuf : Imm → Imm → BitVec 32) (s : Insts) (v : Nat → Imm) (id : Nat)
    (result : Insts × Bool) : Prop where
  respects : Respects cbuf result.1 v
  count : result.1.count = s.count
  opcode : result.2 = true → (result.1.inst id).opcode = (s.inst id).opcode

theorem Respects.commuted_setArgs (h : Respects cbuf s v) (hid : id < s.count)
    (hop : ∀ args r, Means cbuf (s.inst id).opcode args r ↔ MeansBinary f args r) (hx : s.Has x)
    (hy : s.Has y) {b : α} (ha : x.eval v = Immediate.imm a) (hb : y.eval v = Immediate.imm b)
    (hv : v id = Immediate.imm (f a b)) : Commuted cbuf s v id (s.setArgs id [x, y], true) := by
  refine ⟨h.setArgs (fun z hz => ?_) fun _ => ?_, count_set _ _, fun _ => opcode_setArgs hid _⟩
  · rcases mem_pair.mp hz with rfl | rfl
    · exact hx
    · exact hy
  · refine (hop _ _).mpr ⟨a, b, ?_, hv⟩
    rw [map_cons, map_cons, map_nil, ha, hb]

variable [LawfulImmediate α]

theorem imm_injective {b : α} (h : (Immediate.imm a : Imm) = Immediate.imm b) : a = b := by
  rw [← LawfulImmediate.read_imm a, h, LawfulImmediate.read_imm]

/-- What `Arg` reads from an immediate of its type. -/
theorem Respects.eval_argOf (h : Respects cbuf s v) (hx : s.Has x)
    (himm : s.tryInstRecursive x = none) (ha : x.eval v = Immediate.imm a) : s.argOf x = a := by
  rw [argOf, ← h.eval_imm hx himm, ha, LawfulImmediate.read_imm]

/-- `FoldCommutative`, for an associative and commutative function. -/
theorem Respects.foldCommutative (h : Respects cbuf s v) (hid : id < s.count)
    (hop : ∀ args r, Means cbuf (s.inst id).opcode args r ↔ MeansBinary g args r)
    (hassoc : ∀ a b c, g (g a b) c = g a (g b c)) (hcomm : ∀ a b, g a b = g b a) :
    Commuted cbuf s v id (s.foldCommutative g id) := by
  obtain ⟨a, b, ha, hb, hv⟩ := ((hop _ _).mp (h.means id hid)).args
  have hlhs := h.has_arg id 0
  have hrhs := h.has_arg id 1
  rw [Insts.foldCommutative]
  cases hl : s.tryInstRecursive ((s.inst id).arg 0) with
  | none =>
    cases hr : s.tryInstRecursive ((s.inst id).arg 1) with
    | none =>
      dsimp only
      refine ⟨h.replaceUsesWith (has_imm _) fun _ => ?_, count_set _ _,
        fun hfalse => absurd hfalse Bool.false_ne_true⟩
      rw [h.eval_argOf hlhs hl ha, h.eval_argOf hrhs hr hb, hv]
      rfl
    | some rhsId =>
      dsimp only
      split
      case isFalse =>
        refine h.commuted_setArgs hid hop hrhs hlhs hb ha ?_
        rw [hv, hcomm]
      case isTrue hmatch =>
        obtain ⟨hopcode, himm⟩ := hmatch
        have hstands := h.inst_stands hrhs hr
        have hmeans := hstands.means
        rw [hopcode] at hmeans
        obtain ⟨c, d, hc, hd, hcd⟩ := ((hop _ _).mp hmeans).args
        have hb' : b = g c d := imm_injective (hb.symm.trans hcd)
        rw [h.eval_argOf hlhs hl ha, h.eval_argOf (hstands.has_arg 1) (isImmediate_iff.mp himm) hd]
        refine h.commuted_setArgs hid hop (hstands.has_arg 0) (has_imm _) hc rfl ?_
        rw [hv, hb', ← hassoc, hcomm a c, hassoc]
  | some lhsId =>
    cases hr : s.tryInstRecursive ((s.inst id).arg 1) with
    | some rhsId => exact ⟨h, rfl, fun _ => rfl⟩
    | none =>
      dsimp only
      split
      case isFalse => exact ⟨h, rfl, fun _ => rfl⟩
      case isTrue hmatch =>
        obtain ⟨hopcode, himm⟩ := hmatch
        have hstands := h.inst_stands hlhs hl
        have hmeans := hstands.means
        rw [hopcode] at hmeans
        obtain ⟨c, d, hc, hd, hcd⟩ := ((hop _ _).mp hmeans).args
        have ha' : a = g c d := imm_injective (ha.symm.trans hcd)
        rw [h.eval_argOf hrhs hr hb, h.eval_argOf (hstands.has_arg 1) (isImmediate_iff.mp himm) hd]
        refine h.commuted_setArgs hid hop (hstands.has_arg 0) (has_imm _) hc rfl ?_
        rw [hv, ha', hassoc, hcomm b d]

/-- The second argument is an immediate, after which the fold leaves the first one. -/
theorem Respects.replace_first (h : Respects cbuf s v) (hid : id < s.count)
    (hop : ∀ args r, Means cbuf (s.inst id).opcode args r ↔ MeansBinary g args r)
    (himm : s.isImmediate ((s.inst id).arg 1) = true)
    (hneutral : ∀ a, g a (s.argOf ((s.inst id).arg 1)) = a) :
    Respects cbuf (s.replaceUsesWith id ((s.inst id).arg 0)) v := by
  obtain ⟨a, b, ha, hb, hv⟩ := ((hop _ _).mp (h.means id hid)).args
  refine h.replaceUsesWith (h.has_arg id 0) fun _ => ?_
  rw [h.eval_argOf (h.has_arg id 1) (isImmediate_iff.mp himm) hb] at hneutral
  rw [ha, hv, hneutral]

/-- The second argument is an immediate, after which the fold leaves it. -/
theorem Respects.replace_imm (h : Respects cbuf s v) (hid : id < s.count)
    (hop : ∀ args r, Means cbuf (s.inst id).opcode args r ↔ MeansBinary g args r)
    (himm : s.isImmediate ((s.inst id).arg 1) = true) {c : α}
    (habsorbing : ∀ a, g a (s.argOf ((s.inst id).arg 1)) = c) :
    Respects cbuf (s.replaceUsesWith id (.imm (Immediate.imm c))) v := by
  obtain ⟨a, b, ha, hb, hv⟩ := ((hop _ _).mp (h.means id hid)).args
  refine h.replaceUsesWith (has_imm _) fun _ => ?_
  rw [h.eval_argOf (h.has_arg id 1) (isImmediate_iff.mp himm) hb] at habsorbing
  rw [hv, habsorbing]
  rfl

/-! ## Folds of immediates -/

omit [LawfulImmediate α] in
theorem Respects.map_eval_imms (h : Respects cbuf s v) {args : List Value}
    (hargs : ∀ x ∈ args, s.Has x) (himm : args.all s.isImmediate = true) :
    args.map (·.eval v) = args.map s.immOf := by
  refine map_congr_left fun x hx => h.eval_imm (hargs x hx) ?_
  exact isImmediate_iff.mp (all_eq_true.mp himm x hx)

/-- A function of immediates that gives the value of the instruction, where it gives one. -/
theorem Respects.foldWhenAllImmediates (h : Respects cbuf s v) (hid : id < s.count)
    {func : List Imm → Option Imm} {result : Insts × Bool}
    (hfunc : ∀ args r, func args = some r → Means cbuf (s.inst id).opcode args (v id) → r = v id)
    (hresult : s.foldWhenAllImmediates id func = some result) : Respects cbuf result.1 v := by
  rw [Insts.foldWhenAllImmediates] at hresult
  split at hresult
  case isTrue =>
    cases hresult
    exact h
  case isFalse himm =>
    obtain ⟨r, hr, rfl⟩ := Option.map_eq_some_iff.mp hresult
    have hargs : (s.inst id).args.all s.isImmediate = true := by
      simp only [Bool.or_eq_true, Bool.not_eq_true', not_or] at himm
      exact Bool.eq_true_of_not_eq_false himm.1
    have hmeans := h.means id hid
    rw [h.map_eval_imms (h.closed id hid) hargs] at hmeans
    exact h.replaceUsesWith (has_imm _) fun _ => hfunc _ _ hr hmeans

theorem Respects.foldImmediates (h : Respects cbuf s v) (hid : id < s.count)
    {func : List Imm → Option Imm}
    (hfunc : ∀ args r, func args = some r → Means cbuf (s.inst id).opcode args (v id) → r = v id)
    (hresult : s.foldImmediates func id = some s') : Respects cbuf s' v := by
  obtain ⟨result, hfold, rfl⟩ := Option.map_eq_some_iff.mp hresult
  exact h.foldWhenAllImmediates hid hfunc hfold

theorem evalBinary_spec {args : List Imm} {r' : Imm} (h : evalBinary f args = some r)
    (hmeans : MeansBinary f args r') : r = r' := by
  obtain ⟨a, b, rfl, rfl⟩ := hmeans
  rw [evalBinary] at h
  obtain rfl := Option.some.inj h
  rw [getD_cons_zero, getD_cons_succ, getD_cons_zero, LawfulImmediate.read_imm,
    LawfulImmediate.read_imm]

theorem evalShiftRightArithmetic_spec {args : List Imm} {r' : Imm}
    (h : evalShiftRightArithmetic args = some r) (hmeans : MeansShift BitVec.sshiftRight args r') :
    r = r' := by
  obtain ⟨a, b, w, rfl, rfl, hw⟩ := hmeans
  change (if b.toNat < 32 then some (Imm.u32 (a.sshiftRight b.toNat)) else none) = some r at h
  split at h
  case isTrue hlt =>
    obtain rfl := Option.some.inj h
    rw [hw hlt]
  case isFalse => cases h

/-! ## The folds -/

theorem Respects.preserved (h : Respects cbuf s' v) :
    Preserved cbuf s s' v := ⟨v, fun _ _ => rfl, h⟩

theorem Respects.foldSelect (h : Respects cbuf s v) (hid : id < s.count)
    (hop : ∀ args r, Means cbuf (s.inst id).opcode args r → MeansSelect args r) :
    Respects cbuf (s.foldSelect id) v := by
  obtain ⟨c, a, b, hargs, hv⟩ := hop _ _ (h.means id hid)
  have h0 : ((s.inst id).arg 0).eval v = .u1 c := by rw [eval_arg, hargs]; rfl
  have h1 : ((s.inst id).arg 1).eval v = a := by rw [eval_arg, hargs]; rfl
  have h2 : ((s.inst id).arg 2).eval v = b := by rw [eval_arg, hargs]; rfl
  rw [Insts.foldSelect]
  split
  case isFalse => exact h
  case isTrue himm =>
    have hcond : (s.argOf ((s.inst id).arg 0) : Bool) = c :=
      h.eval_argOf (h.has_arg id 0) (isImmediate_iff.mp himm) h0
    rw [hcond]
    cases c with
    | true => exact h.replaceUsesWith (h.has_arg id 1) fun _ => by rw [if_pos rfl, h1, hv]; rfl
    | false =>
      refine h.replaceUsesWith (h.has_arg id 2) fun _ => ?_
      rw [if_neg Bool.false_ne_true, h2, hv]
      rfl

/-- The argument of a negation. -/
theorem means_logicalNot (h : Means cbuf .logicalNot (i.args.map (·.eval v)) (x.eval v)) :
    ∃ a, (i.arg 0).eval v = .u1 a ∧ x.eval v = .u1 !a := by
  obtain ⟨a, hargs, hr⟩ := h
  refine ⟨a, ?_, hr⟩
  rw [eval_arg, hargs]
  rfl

section

variable (h : Respects cbuf s v) (hid : id < s.count)
include h hid

theorem Respects.foldLogicalNot
    (hop : (s.inst id).opcode = .logicalNot) : Respects cbuf (s.foldLogicalNot id) v := by
  have hmeans : Means cbuf (s.inst id).opcode _ ((Value.inst id).eval v) := h.means id hid
  rw [hop] at hmeans
  obtain ⟨a, ha, hv⟩ := means_logicalNot hmeans
  rw [Insts.foldLogicalNot]
  cases harg : s.tryInst ((s.inst id).arg 0) with
  | none =>
    have himm : s.tryInstRecursive ((s.inst id).arg 0) = none := Option.map_eq_none_iff.mp harg
    refine h.replaceUsesWith (has_imm _) fun _ => ?_
    rw [h.eval_argOf (h.has_arg id 0) himm ha]
    exact hv.symm
  | some arg =>
    dsimp only
    split
    case isFalse => exact h
    case isTrue hnot =>
      -- a double negation
      have hstands := h.stands (h.has_arg id 0) harg
      have hmeans' := hstands.means
      rw [hnot] at hmeans'
      obtain ⟨b, hb, hnb⟩ := means_logicalNot hmeans'
      refine h.replaceUsesWith (hstands.has_arg 0) fun _ => ?_
      have hab : a = !b := Imm.u1.inj (ha.symm.trans hnb)
      rw [hab, Bool.not_not] at hv
      exact hb.trans hv.symm

theorem Respects.foldLogicalAnd
    (hop : (s.inst id).opcode = .logicalAnd) : Respects cbuf (s.foldLogicalAnd id) v := by
  have hmeans : ∀ o, o = Opcode.logicalAnd → ∀ args r,
      Means cbuf o args r ↔ MeansBinary (fun a b : Bool => a && b) args r := by
    rintro _ rfl _ _
    exact .rfl
  have hcomm := h.foldCommutative hid (hmeans _ hop) Bool.and_assoc Bool.and_comm
  rw [Insts.foldLogicalAnd]
  generalize s.foldCommutative (fun a b : Bool => a && b) id = result at hcomm ⊢
  obtain ⟨hrespects, hcount, hopcode⟩ := hcomm
  rw [← hcount] at hid
  cases hmore : result.2 with
  | false => exact hrespects
  | true =>
    have hop' := hmeans _ ((hopcode hmore).trans hop)
    simp only [Bool.not_true, Bool.false_eq_true, if_false]
    split
    case isFalse => exact hrespects
    case isTrue himm =>
      split
      case isTrue htrue =>
        refine hrespects.replace_first hid hop' himm fun a => ?_
        rw [htrue, Bool.and_true]
      case isFalse hfalse =>
        refine hrespects.replace_imm hid hop' himm fun a => ?_
        rw [Bool.eq_false_of_not_eq_true hfalse, Bool.and_false]

theorem Respects.foldLogicalOr
    (hop : (s.inst id).opcode = .logicalOr) : Respects cbuf (s.foldLogicalOr id) v := by
  have hmeans : ∀ o, o = Opcode.logicalOr → ∀ args r,
      Means cbuf o args r ↔ MeansBinary (fun a b : Bool => a || b) args r := by
    rintro _ rfl _ _
    exact .rfl
  have hcomm := h.foldCommutative hid (hmeans _ hop) Bool.or_assoc Bool.or_comm
  rw [Insts.foldLogicalOr]
  generalize s.foldCommutative (fun a b : Bool => a || b) id = result at hcomm ⊢
  obtain ⟨hrespects, hcount, hopcode⟩ := hcomm
  rw [← hcount] at hid
  cases hmore : result.2 with
  | false => exact hrespects
  | true =>
    have hop' := hmeans _ ((hopcode hmore).trans hop)
    simp only [Bool.not_true, Bool.false_eq_true, if_false]
    split
    case isFalse => exact hrespects
    case isTrue himm =>
      split
      case isTrue htrue =>
        refine hrespects.replace_imm hid hop' himm fun a => ?_
        rw [htrue, Bool.or_true]
      case isFalse hfalse =>
        refine hrespects.replace_first hid hop' himm fun a => ?_
        rw [Bool.eq_false_of_not_eq_true hfalse, Bool.or_false]

/-- `FoldAdd`, if what comes at its end keeps the values. -/
theorem Respects.foldAdd [Add α] [OfNat α 0] [DecidableEq α] {o : Opcode} (hopcode : (s.inst id).opcode = o)
    (hop : ∀ args r, Means cbuf o args r ↔ MeansBinary (fun a b : α => a + b) args r)
    (hassoc : ∀ a b c : α, a + b + c = a + (b + c)) (hcomm : ∀ a b : α, a + b = b + a)
    (hzero : ∀ a : α, a + 0 = a) {xmad : Insts → Insts}
    (hxmad : ∀ s', s'.count = s.count → Respects cbuf s' v → (s'.inst id).opcode = o →
      Preserved cbuf s' (xmad s') v) : Preserved cbuf s (s.foldAdd α xmad id) v := by
  have hcommuted := h.foldCommutative (g := fun a b : α => a + b) hid
    (fun args r => by rw [hopcode]; exact hop args r) hassoc hcomm
  rw [Insts.foldAdd]
  split
  case isTrue => exact h.preserved
  case isFalse =>
    generalize s.foldCommutative (fun a b : α => a + b) id = result at hcommuted ⊢
    rcases result with ⟨s', more⟩
    obtain ⟨hrespects, hcount, hopcode'⟩ := hcommuted
    rw [← hcount] at hid
    cases more with
    | false => exact hrespects.preserved
    | true =>
      have ho : (s'.inst id).opcode = o := (hopcode' rfl).trans hopcode
      simp only [Bool.not_true, Bool.false_eq_true, if_false]
      split
      case isTrue himm =>
        have hop' : ∀ args r, Means cbuf (s'.inst id).opcode args r ↔
            MeansBinary (fun a b : α => a + b) args r := by
          rw [ho]
          exact hop
        refine (hrespects.replace_first hid hop' himm.1 fun a => ?_).preserved
        rw [himm.2, hzero]
      case isFalse =>
        obtain ⟨v', hv', hr⟩ := hxmad s' hcount hrespects ho
        exact ⟨v', fun j hj => hv' j (by rwa [hcount]), hr⟩

end

end Sudachi.Shader
