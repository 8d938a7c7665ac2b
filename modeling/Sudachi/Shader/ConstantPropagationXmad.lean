import Mathlib.Tactic.Ring
import Sudachi.Shader.ConstantPropagationValues

/-!
# Multiplications in parts

`FoldXmadMultiply` and `FoldXmadMultiplyAdd` find a product of words that is computed from the halves
of its factors, and put the product itself in the place of the instruction.
-/

set_option autoImplicit false

namespace Sudachi.Shader

open Insts List Option Function

variable {cbuf : Imm → Imm → BitVec 32} {s s' : Insts} {v : Nat → Imm} {id : Nat} {i : Inst}
  {x y : Value}

/-! ## Halves of words -/

/-- The upper half of a word. -/
abbrev high (a : BitVec 32) : BitVec 32 := bitFieldUExtract a 16 16

/-- The lower half of a word. -/
abbrev low (a : BitVec 32) : BitVec 32 := bitFieldUExtract a 0 16

theorem high_low (a : BitVec 32) : high a * 65536 + low a = a := by
  refine BitVec.eq_of_toNat_eq ?_
  have hhigh : (high a).toNat = a.toNat / 65536 := by
    simp [high, bitFieldUExtract, BitVec.extractLsb'_toNat, Nat.shiftRight_eq_div_pow]
    omega
  have hlow : (low a).toNat = a.toNat % 65536 := by
    simp [low, bitFieldUExtract, BitVec.extractLsb'_toNat]
    omega
  rw [BitVec.toNat_add, BitVec.toNat_mul, hhigh, hlow]
  simp
  omega

theorem shiftLeft_sixteen (a : BitVec 32) : a <<< 16 = a * 65536 := by
  rw [BitVec.shiftLeft_eq_mul_twoPow]
  rfl

theorem mul_parts (a b : BitVec 32) : (high a * b) <<< 16 + low a * b = a * b := by
  calc (high a * b) <<< 16 + low a * b
      _ = (high a * 65536 + low a) * b := by rw [shiftLeft_sixteen]; ring
      _ = a * b := by rw [high_low]

theorem getLsbD_bitFieldUExtract (base : BitVec 32) (offset count j : Nat) (hj : j < 32) :
    (bitFieldUExtract base offset count).getLsbD j =
      (decide (j < count) && base.getLsbD (offset + j)) := by
  simp [-BitVec.getLsbD_eq_getElem, bitFieldUExtract, hj]

theorem getLsbD_bitFieldInsert (base insert : BitVec 32) (offset count j : Nat) (hj : j < 32) :
    (bitFieldInsert base insert offset count).getLsbD j =
      if offset ≤ j ∧ j < offset + count then insert.getLsbD (j - offset) else base.getLsbD j := by
  have hmask : ∀ k < 32, ((BitVec.allOnes count).setWidth 32).getLsbD k = decide (k < count) := by
    intro k hk
    rw [BitVec.getLsbD_setWidth, BitVec.getLsbD_allOnes, decide_eq_true hk, Bool.true_and]
  simp only [bitFieldInsert, BitVec.getLsbD_or, BitVec.getLsbD_and, BitVec.getLsbD_not,
    BitVec.getLsbD_shiftLeft, hj, hmask (j - offset) (by omega), decide_true, Bool.true_and]
  by_cases hle : offset ≤ j
  · have hlt : j - offset < count ↔ j < offset + count := by omega
    have hnot : ¬j < offset := by omega
    by_cases hin : j < offset + count <;> simp [-BitVec.getLsbD_eq_getElem, hle, hlt, hnot, hin]
  · have hlt : j < offset := by omega
    simp [-BitVec.getLsbD_eq_getElem, hle, hlt]

theorem high_insert (base a : BitVec 32) : high (bitFieldInsert base (low a) 16 16) = low a := by
  refine BitVec.eq_of_getLsbD_eq fun j hj => ?_
  rw [high, getLsbD_bitFieldUExtract _ _ _ _ hj]
  by_cases hlt : j < 16
  · rw [getLsbD_bitFieldInsert _ _ _ _ _ (by omega), if_pos (by omega), Nat.add_sub_cancel_left,
      decide_eq_true hlt, Bool.true_and]
  · rw [low, getLsbD_bitFieldUExtract _ _ _ _ hj, decide_eq_false hlt, Bool.false_and,
      Bool.false_and]

theorem insert_shift (base a : BitVec 32) : bitFieldInsert base a 16 16 <<< 16 = base <<< 16 := by
  refine BitVec.eq_of_getLsbD_eq fun j hj => ?_
  rw [BitVec.getLsbD_shiftLeft, BitVec.getLsbD_shiftLeft,
    getLsbD_bitFieldInsert _ _ _ _ _ (by omega), if_neg (by omega)]

theorem mul_add_parts (a b c base : BitVec 32) (h : base = low b * high a) :
    (high b * high (bitFieldInsert base (low a) 16 16)) <<< 16 +
        (bitFieldInsert base (low a) 16 16 <<< 16 + (low b * low a + c)) = a * b + c := by
  have hzero : (65536 * 65536 : BitVec 32) = 0 := by decide
  rw [high_insert, insert_shift, shiftLeft_sixteen, shiftLeft_sixteen, h]
  calc high b * low a * 65536 + (low b * high a * 65536 + (low b * low a + c))
      _ = (high a * 65536 + low a) * (high b * 65536 + low b) + c -
          high a * high b * (65536 * 65536) := by ring
      _ = a * b + c := by rw [hzero, mul_zero, sub_zero, high_low, high_low]

theorem eval_update (hx : s.Has x) (r : Imm) : x.eval (update v s.count r) = x.eval v := by
  cases x with
  | imm imm => rfl
  | inst id => exact update_of_ne (ne_of_lt (hx id rfl)) r v

theorem count_newInst (o : Opcode) (args : List Value) : (s.newInst o args).1.count = s.count + 1 :=
  length_append

theorem has_newInst (o : Opcode) (args : List Value) (hx : s.Has x) :
    (s.newInst o args).1.Has x := fun j hj => by
  rw [count_newInst]
  exact Nat.lt_succ_of_lt (hx j hj)

/-- A new instruction with a value that it may have. -/
theorem Respects.newInst (h : Respects cbuf s v) {o : Opcode} {args : List Value} {r : Imm}
    (hargs : ∀ x ∈ args, s.Has x) (hmeans : Means cbuf o (args.map (·.eval v)) r) :
    Respects cbuf (s.newInst o args).1 (update v s.count r) := by
  have hold : ∀ j < s.count, (s.newInst o args).1.inst j = s.inst j := fun j hj => by
    rw [Insts.newInst, inst, inst, getD_append _ _ _ _ hj]
  have hnew : (s.newInst o args).1.inst s.count = ⟨o, args, false⟩ := by
    rw [Insts.newInst, inst, Insts.count, getD_append_right _ _ _ _ (le_refl _),
      Nat.sub_self]
    rfl
  have hmap : ∀ l : List Value, (∀ x ∈ l, s.Has x) →
      l.map (·.eval (update v s.count r)) = l.map (·.eval v) := fun l hl =>
    map_congr_left fun x hx => eval_update (hl x hx) r
  constructor
  case closed =>
    intro j hj x hx
    rw [count_newInst] at hj
    rcases Nat.lt_succ_iff_lt_or_eq.mp hj with hlt | rfl
    · rw [hold j hlt] at hx
      exact has_newInst o args (h.closed j hlt x hx)
    · rw [hnew] at hx
      exact has_newInst o args (hargs x hx)
  case means =>
    intro j hj
    rw [count_newInst] at hj
    rcases Nat.lt_succ_iff_lt_or_eq.mp hj with hlt | rfl
    · rw [hold j hlt, hmap _ (h.closed j hlt), update_of_ne (ne_of_lt hlt)]
      exact h.means j hlt
    · rw [hnew, hmap _ hargs, update_self]
      exact hmeans

theorem has_inst_count (o : Opcode) (args : List Value) :
    (s.newInst o args).1.Has (.inst s.count) := fun j hj => by
  cases hj
  rw [count_newInst]
  exact Nat.lt_succ_self _

/-! ### The instructions of the patterns -/

section

variable (h : Stands cbuf s v x i)
include h

theorem Stands.bitFieldUExtract {offset : BitVec 32}
    (hop : i.opcode = .bitFieldUExtract) (hoffset : i.arg 1 = .imm (.u32 offset))
    (hcount : i.arg 2 = sixteen) (hle : offset.toNat ≤ 16) :
    ∃ a, (i.arg 0).eval v = .u32 a ∧ x.eval v = .u32 (bitFieldUExtract a offset.toNat 16) := by
  have hmeans := h.means
  rw [hop] at hmeans
  obtain ⟨a, offset', count, w, hargs, hr, hw⟩ := hmeans
  have h1 := eval_arg v i 1
  have h2 := eval_arg v i 2
  rw [hargs] at h1 h2
  rw [hoffset] at h1
  rw [hcount] at h2
  obtain rfl : offset = offset' := Imm.u32.inj h1
  obtain rfl : 16 = count := Imm.u32.inj h2
  have hsixteen : (16 : BitVec 32).toNat = 16 := rfl
  rw [hsixteen] at hw
  refine ⟨a, ?_, hw (by omega) ▸ hr⟩
  rw [eval_arg, hargs]
  rfl

theorem Stands.isHigh (hi : isHigh i = true) :
    ∃ a, (i.arg 0).eval v = .u32 a ∧ x.eval v = .u32 (high a) := by
  simp only [Insts.isHigh, Bool.and_eq_true, decide_eq_true_eq] at hi
  exact h.bitFieldUExtract hi.1.1 hi.1.2 hi.2 (by decide)

theorem Stands.isLow (hi : isLow i = true) :
    ∃ a, (i.arg 0).eval v = .u32 a ∧ x.eval v = .u32 (low a) := by
  simp only [Insts.isLow, Bool.and_eq_true, decide_eq_true_eq] at hi
  exact h.bitFieldUExtract hi.1.1 hi.1.2 hi.2 (by decide)

theorem Stands.isShifted (hi : isShifted i = true) :
    ∃ a, (i.arg 0).eval v = .u32 a ∧ x.eval v = .u32 (a <<< 16) := by
  simp only [Insts.isShifted, Bool.and_eq_true, decide_eq_true_eq] at hi
  have hmeans := h.means
  rw [hi.1] at hmeans
  obtain ⟨a, b, w, hargs, hr, hw⟩ := hmeans
  have h1 := eval_arg v i 1
  rw [hargs, hi.2] at h1
  obtain rfl : 16 = b := Imm.u32.inj h1
  have hw' : w = a <<< 16 := hw (by decide)
  refine ⟨a, ?_, hw' ▸ hr⟩
  rw [eval_arg, hargs]
  rfl

theorem Stands.iMul32 (hi : i.opcode = .iMul32) :
    ∃ a b, (i.arg 0).eval v = .u32 a ∧ (i.arg 1).eval v = .u32 b ∧ x.eval v = .u32 (a * b) := by
  have hmeans := h.means
  rw [hi] at hmeans
  exact MeansBinary.args (f := fun a b : BitVec 32 => a * b) hmeans

theorem Stands.iAdd32 (hi : i.opcode = .iAdd32) :
    ∃ a b, (i.arg 0).eval v = .u32 a ∧ (i.arg 1).eval v = .u32 b ∧ x.eval v = .u32 (a + b) := by
  have hmeans := h.means
  rw [hi] at hmeans
  exact MeansBinary.args (f := fun a b : BitVec 32 => a + b) hmeans

theorem Stands.bitFieldInsert (hi : i.opcode = .bitFieldInsert)
    (hoffset : i.arg 2 = sixteen) (hcount : i.arg 3 = sixteen) :
    ∃ a b, (i.arg 0).eval v = .u32 a ∧ (i.arg 1).eval v = .u32 b ∧
      x.eval v = .u32 (Shader.bitFieldInsert a b 16 16) := by
  have hmeans := h.means
  rw [hi] at hmeans
  obtain ⟨a, b, offset, count, w, hargs, hr, hw⟩ := hmeans
  have h2 := eval_arg v i 2
  have h3 := eval_arg v i 3
  rw [hargs] at h2 h3
  rw [hoffset] at h2
  rw [hcount] at h3
  obtain rfl : 16 = offset := Imm.u32.inj h2
  obtain rfl : 16 = count := Imm.u32.inj h3
  refine ⟨a, b, ?_, ?_, hw (by decide) ▸ hr⟩
  · rw [eval_arg, hargs]
    rfl
  · rw [eval_arg, hargs]
    rfl

end

/-- Two arguments with the same instruction or immediate behind them. -/
theorem Respects.eval_of_resolve (h : Respects cbuf s v) (hx : s.Has x) (hy : s.Has y)
    (hxy : s.resolve x = s.resolve y) : x.eval v = y.eval v := by
  rw [← h.eval_resolve hx, hxy, h.eval_resolve hy]

/-- Two reads of the same place of a constant buffer. -/
theorem eval_of_equalCbuf {j : Inst} (hx : Stands cbuf s v x i) (hy : Stands cbuf s v y j)
    (h : equalCbuf i j = true) : x.eval v = y.eval v := by
  simp only [equalCbuf, Bool.and_eq_true, decide_eq_true_eq] at h
  obtain ⟨⟨⟨hi, hj⟩, h0⟩, h1⟩ := h
  have hmeans := hx.means
  have hmeans' := hy.means
  rw [hi] at hmeans
  rw [hj] at hmeans'
  obtain ⟨binding, offset, hargs, hr⟩ := hmeans
  obtain ⟨binding', offset', hargs', hr'⟩ := hmeans'
  have hb := eval_arg v i 0
  have ho := eval_arg v i 1
  rw [hargs, h0, eval_arg, hargs'] at hb
  rw [hargs, h1, eval_arg, hargs'] at ho
  have hbinding : binding' = binding := hb
  have hoffset : offset' = offset := ho
  rw [hr, hr', hbinding, hoffset]

theorem Respects.eval_of_areEqual (h : Respects cbuf s v) (hx : s.Has x) (hy : s.Has y)
    (hxy : s.areEqual x y = true) : x.eval v = y.eval v := by
  rw [areEqual, Bool.or_eq_true, decide_eq_true_eq] at hxy
  rcases hxy with hxy | hxy
  · exact h.eval_of_resolve hx hy hxy
  · cases hi : s.tryInst x with
    | none => rw [hi] at hxy; cases hxy
    | some i =>
      cases hj : s.tryInst y with
      | none => rw [hi, hj] at hxy; cases hxy
      | some j =>
        rw [hi, hj] at hxy
        exact eval_of_equalCbuf (h.stands hx hi) (h.stands hy hj) hxy

/-- A new product in the place of an instruction with its value. -/
theorem Respects.replace_product (h : Respects cbuf s v) {a b : BitVec 32} (hx : s.Has x)
    (hy : s.Has y) (ha : x.eval v = .u32 a) (hb : y.eval v = .u32 b)
    (hv : v id = .u32 (a * b)) (hid : id < s.count) :
    Preserved cbuf s ((s.newInst .iMul32 [x, y]).1.replaceUsesWith id (.inst s.count)) v := by
  refine ⟨_, fun j hj => update_of_ne (ne_of_lt hj) (.u32 (a * b)) v, ?_⟩
  have hmeans : Means cbuf .iMul32 ([x, y].map (·.eval v)) (.u32 (a * b)) := by
    refine ⟨a, b, ?_, rfl⟩
    rw [map_cons, map_cons, map_nil, ha, hb]
    rfl
  refine (h.newInst (fun z hz => ?_) hmeans).replaceUsesWith (has_inst_count _ _) fun _ => ?_
  · rcases mem_pair.mp hz with rfl | rfl
    · exact hx
    · exact hy
  · rw [update_of_ne (ne_of_lt hid), hv]
    exact update_self ..

/-- The value of an addition of the program. -/
theorem Respects.iAdd32 (h : Respects cbuf s v) (hid : id < s.count)
    (hop : (s.inst id).opcode = .iAdd32) : ∃ a b, ((s.inst id).arg 0).eval v = .u32 a ∧
      ((s.inst id).arg 1).eval v = .u32 b ∧ v id = .u32 (a + b) := by
  have hmeans := h.means id hid
  rw [hop] at hmeans
  exact MeansBinary.args (f := fun a b : BitVec 32 => a + b) hmeans

theorem u32_unique {a b : BitVec 32} (ha : x.eval v = .u32 a) (hb : x.eval v = .u32 b) : a = b :=
  Imm.u32.inj (ha.symm.trans hb)

section

variable (h : Respects cbuf s v)
include h

/-- What `FoldXmadMultiply` matches is the product of the factors that it finds. -/
theorem Respects.foldXmadMultiply_product (hid : id < s.count)
    (hop : (s.inst id).opcode = .iAdd32) (hs : s.foldXmadMultiply id = some s') :
    ∃ x y a b, (s.Has x ∧ s.Has y) ∧ x.eval v = .u32 a ∧ y.eval v = .u32 b ∧ v id = .u32 (a * b) ∧
        s' = (s.newInst .iMul32 [x, y]).1.replaceUsesWith id (.inst s.count) := by
  simp only [Insts.foldXmadMultiply, bind_eq_bind, bind_eq_some_iff,
    guard_eq_some', exists_const, Option.pure_def, some.injEq] at hs
  obtain ⟨lhsShl, hlhsShl, rhsMul, hrhsMul, hshifted, lhsMul, hlhsMul, ⟨hmul, hmul'⟩, hfactorB,
    lhsBfe, hlhsBfe, rhsBfe, hrhsBfe, ⟨hhigh, hlow⟩, hfactorA, rfl⟩ := hs
  have slhsShl := h.stands (h.has_arg id 0) hlhsShl
  have srhsMul := h.stands (h.has_arg id 1) hrhsMul
  have slhsMul := h.stands (slhsShl.has_arg 0) hlhsMul
  have slhsBfe := h.stands (slhsMul.has_arg 0) hlhsBfe
  have srhsBfe := h.stands (srhsMul.has_arg 0) hrhsBfe
  obtain ⟨p, q, hp, hq, hv⟩ := h.iAdd32 hid hop
  obtain ⟨w, hw, hshl⟩ := slhsShl.isShifted hshifted
  obtain ⟨ahigh, b, hahigh, hb, hlhs⟩ := slhsMul.iMul32 hmul
  obtain ⟨alow, b', halow, hb', hrhs⟩ := srhsMul.iMul32 hmul'
  obtain ⟨a, ha, hbfe⟩ := slhsBfe.isHigh hhigh
  obtain ⟨a', ha', hbfe'⟩ := srhsBfe.isLow hlow
  have haa : a = a' := by
    refine u32_unique ha ?_
    rw [h.eval_of_resolve (slhsBfe.has_arg 0) (srhsBfe.has_arg 0) hfactorA, ha']
  have hbb : b = b' := by
    refine u32_unique hb ?_
    rw [h.eval_of_resolve (slhsMul.has_arg 1) (srhsMul.has_arg 1) hfactorB, hb']
  have hproduct : p + q = a * b := by
    rw [u32_unique hp hshl, u32_unique hw hlhs, u32_unique hq hrhs, u32_unique hahigh hbfe,
      u32_unique halow hbfe', ← haa, ← hbb, mul_parts]
  rw [hproduct] at hv
  exact ⟨_, _, a, b, ⟨slhsBfe.has_arg 0, slhsMul.has_arg 1⟩, ha, hb, hv, rfl⟩

theorem Respects.foldXmadMultiply (hid : id < s.count) (hop : (s.inst id).opcode = .iAdd32)
    (hs : s.foldXmadMultiply id = some s') : Preserved cbuf s s' v := by
  obtain ⟨x, y, a, b, ⟨hx, hy⟩, ha, hb, hv, rfl⟩ := h.foldXmadMultiply_product hid hop hs
  exact h.replace_product hx hy ha hb hv hid

theorem Respects.xmadInsert (hi : Stands cbuf s v x i)
    {a7 b6 a10 : Value} (hs : s.xmadInsert i = some (a7, b6, a10)) :
    (s.Has a7 ∧ s.Has b6 ∧ s.Has a10) ∧ ∃ a b a', a7.eval v = .u32 a ∧ b6.eval v = .u32 b ∧
      a10.eval v = .u32 a' ∧
        x.eval v = .u32 (Shader.bitFieldInsert (low b * high a) (low a') 16 16) := by
  simp only [Insts.xmadInsert, bind_eq_bind, bind_eq_some_iff,
    guard_eq_some', exists_const, Option.pure_def, some.injEq, Prod.mk.injEq] at hs
  obtain ⟨⟨hop, hoffset, hcount⟩, i8, hi8, i10, hi10, hmul, i6, hi6, i7, hi7,
    ⟨hlow6, hhigh7, hlow10⟩, rfl, rfl, rfl⟩ := hs
  have s8 := h.stands (hi.has_arg 0) hi8
  have s10 := h.stands (hi.has_arg 1) hi10
  have s6 := h.stands (s8.has_arg 0) hi6
  have s7 := h.stands (s8.has_arg 1) hi7
  obtain ⟨p, q, hp, hq, hx⟩ := hi.bitFieldInsert hop hoffset hcount
  obtain ⟨l, m, hl, hm, hp'⟩ := s8.iMul32 hmul
  obtain ⟨b, hb, hl'⟩ := s6.isLow hlow6
  obtain ⟨a, ha, hm'⟩ := s7.isHigh hhigh7
  obtain ⟨a', ha', hq'⟩ := s10.isLow hlow10
  refine ⟨⟨s7.has_arg 0, s6.has_arg 0, s10.has_arg 0⟩, a, b, a', ha, hb, ha', ?_⟩
  rw [hx, u32_unique hp hp', u32_unique hl hl', u32_unique hm hm', u32_unique hq hq']

theorem Respects.xmadLower (hi : Stands cbuf s v x i)
    {a16 b15 opC : Value} (hs : s.xmadLower i = some (a16, b15, opC)) :
    (s.Has a16 ∧ s.Has b15 ∧ s.Has opC) ∧ ∃ a b c, a16.eval v = .u32 a ∧ b15.eval v = .u32 b ∧
      opC.eval v = .u32 c ∧ x.eval v = .u32 (low b * low a + c) := by
  simp only [Insts.xmadLower, bind_eq_bind, bind_eq_some_iff,
    guard_eq_some', exists_const, Option.pure_def, some.injEq, Prod.mk.injEq] at hs
  obtain ⟨hop, i17, hi17, hmul, i15, hi15, i16, hi16, ⟨hlow15, hlow16⟩, rfl, rfl, rfl⟩ := hs
  have s17 := h.stands (hi.has_arg 0) hi17
  have s15 := h.stands (s17.has_arg 0) hi15
  have s16 := h.stands (s17.has_arg 1) hi16
  obtain ⟨p, c, hp, hc, hx⟩ := hi.iAdd32 hop
  obtain ⟨l, m, hl, hm, hp'⟩ := s17.iMul32 hmul
  obtain ⟨b, hb, hl'⟩ := s15.isLow hlow15
  obtain ⟨a, ha, hm'⟩ := s16.isLow hlow16
  refine ⟨⟨s16.has_arg 0, s15.has_arg 0, hi.has_arg 1⟩, a, b, c, ha, hb, hc, ?_⟩
  rw [hx, u32_unique hp hp', u32_unique hl hl', u32_unique hm hm']

theorem Respects.xmadUpper (hi : Stands cbuf s v x i)
    {b22 arg23 : Value} (hs : s.xmadUpper i = some (b22, arg23)) :
    (s.Has b22 ∧ s.Has arg23) ∧ ∃ b w, b22.eval v = .u32 b ∧ arg23.eval v = .u32 w ∧
      x.eval v = .u32 ((high b * high w) <<< 16) := by
  simp only [Insts.xmadUpper, bind_eq_bind, bind_eq_some_iff,
    guard_eq_some', exists_const, Option.pure_def, some.injEq, Prod.mk.injEq] at hs
  obtain ⟨hshifted, i24, hi24, hmul, i22, hi22, i23, hi23, ⟨hhigh22, hhigh23⟩, rfl, rfl⟩ := hs
  have s24 := h.stands (hi.has_arg 0) hi24
  have s22 := h.stands (s24.has_arg 0) hi22
  have s23 := h.stands (s24.has_arg 1) hi23
  obtain ⟨p, hp, hx⟩ := hi.isShifted hshifted
  obtain ⟨l, m, hl, hm, hp'⟩ := s24.iMul32 hmul
  obtain ⟨b, hb, hl'⟩ := s22.isHigh hhigh22
  obtain ⟨w, hw, hm'⟩ := s23.isHigh hhigh23
  refine ⟨⟨s22.has_arg 0, s23.has_arg 0⟩, b, w, hb, hw, ?_⟩
  rw [hx, u32_unique hp hp', u32_unique hl hl', u32_unique hm hm']

/-- A new product and a new sum in the place of an instruction with the value of the sum. -/
theorem Respects.replace_sum {a b c : BitVec 32} {z : Value} (hx : s.Has x)
    (hy : s.Has y) (hz : s.Has z) (ha : x.eval v = .u32 a) (hb : y.eval v = .u32 b)
    (hc : z.eval v = .u32 c) (hv : v id = .u32 (a * b + c)) (hid : id < s.count) :
    Preserved cbuf s (((s.newInst .iMul32 [x, y]).1.newInst .iAdd32 [.inst s.count, z]).1
      |>.replaceUsesWith id (.inst (s.newInst .iMul32 [x, y]).1.count)) v := by
  have hproduct : Means cbuf .iMul32 ([x, y].map (·.eval v)) (.u32 (a * b)) := by
    refine ⟨a, b, ?_, rfl⟩
    rw [map_cons, map_cons, map_nil, ha, hb]
    rfl
  have h1 := h.newInst (fun t ht => ?_) hproduct
  · have hsum : Means cbuf .iAdd32 ([.inst s.count, z].map
        (·.eval (update v s.count (.u32 (a * b))))) (.u32 (a * b + c)) := by
      refine ⟨a * b, c, ?_, rfl⟩
      rw [map_cons, map_cons, map_nil, eval_update hz, hc, Value.eval, update_self]
      rfl
    have h2 := h1.newInst (fun t ht => ?_) hsum
    · have hcount := count_newInst (s := s) .iMul32 [x, y]
      refine ⟨_, fun j hj => ?_, h2.replaceUsesWith (has_inst_count _ _) fun _ => ?_⟩
      · rw [update_of_ne (by omega), update_of_ne (ne_of_lt hj)]
      · rw [Value.eval, update_self, update_of_ne (by omega), update_of_ne (ne_of_lt hid), hv]
    · rcases mem_pair.mp ht with rfl | rfl
      · exact has_inst_count _ _
      · exact has_newInst _ _ hz
  · rcases mem_pair.mp ht with rfl | rfl
    · exact hx
    · exact hy

/-- What `FoldXmadMultiplyAdd` matches is the product of the factors that it finds, with the addend. -/
theorem Respects.foldXmadMultiplyAdd_sum (hid : id < s.count)
    (hop : (s.inst id).opcode = .iAdd32) (hs : s.foldXmadMultiplyAdd id = some s') :
    ∃ x y z a b c, (s.Has x ∧ s.Has y ∧ s.Has z) ∧
      (x.eval v = .u32 a ∧ y.eval v = .u32 b ∧ z.eval v = .u32 c) ∧ v id = .u32 (a * b + c) ∧
        s' = ((s.newInst .iMul32 [x, y]).1.newInst .iAdd32 [.inst s.count, z]).1.replaceUsesWith id
          (.inst (s.newInst .iMul32 [x, y]).1.count) := by
  simp only [Insts.foldXmadMultiplyAdd, bind_eq_bind, bind_eq_some_iff,
    guard_eq_some', exists_const, Option.pure_def, some.injEq, Prod.exists] at hs
  obtain ⟨i25, hi25, i27, hi27, hadd, b22, arg23, hupper, id11, hid11, a7, b6, a10, hinsert, i26,
    hi26, i18, hi18, ⟨hshifted, hid11'⟩, a16, b15, opC, hlower, ⟨ha1, ha2, hb1, hb2⟩, rfl⟩ := hs
  have s25 := h.stands (h.has_arg id 0) hi25
  have s27 := h.stands (h.has_arg id 1) hi27
  have s26 := h.stands (s27.has_arg 0) hi26
  have s18 := h.stands (s27.has_arg 1) hi18
  obtain ⟨⟨hb22, harg23⟩, b, w, hb, hw, h25⟩ := h.xmadUpper s25 hupper
  have s11 := h.inst_stands harg23 hid11
  obtain ⟨⟨ha7, hb6, ha10⟩, a, b', a', ha, hb', ha', h11⟩ := h.xmadInsert s11 hinsert
  obtain ⟨⟨ha16, hb15, hopC⟩, a'', b'', c, ha'', hb'', hc, h18⟩ := h.xmadLower s18 hlower
  obtain ⟨p, q, hp, hq, hv⟩ := h.iAdd32 hid hop
  obtain ⟨r, t, hr, ht, h27⟩ := s27.iAdd32 hadd
  obtain ⟨w', hw', h26⟩ := s26.isShifted hshifted
  -- the operands of the pattern have two values
  have hbb' : b = b' := u32_unique hb (by rw [h.eval_of_areEqual hb22 hb6 hb1, hb'])
  have hbb'' : b' = b'' := u32_unique hb' (by rw [h.eval_of_areEqual hb6 hb15 hb2, hb''])
  have haa'' : a = a'' := u32_unique ha (by rw [h.eval_of_areEqual ha7 ha16 ha1, ha''])
  have haa' : a'' = a' := u32_unique ha'' (by rw [h.eval_of_areEqual ha16 ha10 ha2, ha'])
  have hww' : w = w' := by
    refine u32_unique hw ?_
    rw [h.eval_inst harg23 hid11, ← h.eval_inst (s26.has_arg 0) hid11', hw']
  have hsum : p + q = a * b + c := by
    rw [u32_unique hp h25, u32_unique hq h27, u32_unique hr h26, u32_unique ht h18, ← hww',
      u32_unique hw h11, ← haa', ← haa'', ← hbb'', ← hbb']
    exact mul_add_parts a b c _ rfl
  rw [hsum] at hv
  refine ⟨_, _, _, a, b, c, ⟨h.has_resolve ha7, h.has_resolve hb6, hopC⟩, ⟨?_, ?_, hc⟩, hv, rfl⟩
  · rw [h.eval_resolve ha7, ha]
  · rw [h.eval_resolve hb6, hb', hbb']

theorem Respects.foldXmadMultiplyAdd (hid : id < s.count) (hop : (s.inst id).opcode = .iAdd32)
    (hs : s.foldXmadMultiplyAdd id = some s') : Preserved cbuf s s' v := by
  obtain ⟨x, y, z, a, b, c, ⟨hx, hy, hz⟩, ⟨ha, hb, hc⟩, hv, rfl⟩ :=
    h.foldXmadMultiplyAdd_sum hid hop hs
  exact h.replace_sum hx hy hz ha hb hc hv hid

end

/-! ### Exactness -/

/-- What the two folds match has the value of the instructions that they put in its place, for all
values that the operands may have: a product, or a product with an addend. -/
theorem xmad_exact (h : Respects cbuf s v) (hid : id < s.count)
    (hop : (s.inst id).opcode = .iAdd32) :
    (∀ s', s.foldXmadMultiply id = some s' →
      ∃ x y a b, x.eval v = .u32 a ∧ y.eval v = .u32 b ∧ v id = .u32 (a * b) ∧
        s' = (s.newInst .iMul32 [x, y]).1.replaceUsesWith id (.inst s.count) ∧
        Preserved cbuf s s' v) ∧
    ∀ s', s.foldXmadMultiplyAdd id = some s' →
      ∃ x y z a b c, (x.eval v = .u32 a ∧ y.eval v = .u32 b ∧ z.eval v = .u32 c) ∧
        v id = .u32 (a * b + c) ∧
        s' = ((s.newInst .iMul32 [x, y]).1.newInst .iAdd32 [.inst s.count, z]).1.replaceUsesWith id
          (.inst (s.newInst .iMul32 [x, y]).1.count) ∧
        Preserved cbuf s s' v := by
  refine ⟨fun s' hs => ?_, fun s' hs => ?_⟩
  · obtain ⟨x, y, a, b, -, ha, hb, hv, heq⟩ := h.foldXmadMultiply_product hid hop hs
    exact ⟨x, y, a, b, ha, hb, hv, heq, h.foldXmadMultiply hid hop hs⟩
  · obtain ⟨x, y, z, a, b, c, -, hxyz, hv, heq⟩ := h.foldXmadMultiplyAdd_sum hid hop hs
    exact ⟨x, y, z, a, b, c, hxyz, hv, heq, h.foldXmadMultiplyAdd hid hop hs⟩

/-- The program of two multiplications of halves. -/
def halvesProgram : Insts :=
  ⟨[⟨.other 1, [], false⟩, ⟨.other 1, [], false⟩,
    ⟨.bitFieldUExtract, [.inst 0, zero, sixteen], false⟩, ⟨.iMul32, [.inst 2, .inst 1], false⟩,
    ⟨.bitFieldUExtract, [.inst 0, sixteen, sixteen], false⟩, ⟨.iMul32, [.inst 4, .inst 1], false⟩,
    ⟨.shiftLeftLogical32, [.inst 5, sixteen], false⟩, ⟨.iAdd32, [.inst 6, .inst 3], false⟩]⟩

def halvesValues (id : Nat) : Imm :=
  .u32 (([0x30002, 7, 2, 14, 3, 21, 0x150000, 0x15000e] : List (BitVec 32)).getD id 0)

theorem halvesProgram_respects : Respects (fun _ _ => 0) halvesProgram halvesValues := by
  constructor
  case closed =>
    have hargs : ∀ i ∈ halvesProgram.list, ∀ x ∈ i.args, x = zero ∨ x = sixteen ∨
        ∃ j ∈ List.range 8, x = .inst j := by decide
    intro id hid x hx j hj
    subst hj
    rw [inst, List.getD_eq_getElem _ _ hid] at hx
    obtain hx | hx | ⟨k, hk, hx⟩ := hargs _ (List.getElem_mem hid) _ hx
    · cases hx
    · cases hx
    · obtain rfl := Value.inst.inj hx
      exact List.mem_range.mp hk
  case means =>
    intro id hid
    obtain _ | _ | _ | _ | _ | _ | _ | _ | id := id
    · trivial
    · trivial
    · exact ⟨0x30002, 0, 16, 2, rfl, rfl, by decide⟩
    · exact ⟨(2 : BitVec 32), (7 : BitVec 32), rfl, by decide⟩
    · exact ⟨0x30002, 16, 16, 3, rfl, rfl, by decide⟩
    · exact ⟨(3 : BitVec 32), (7 : BitVec 32), rfl, by decide⟩
    · exact ⟨21, 16, 0x150000, rfl, rfl, by decide⟩
    · exact ⟨(0x150000 : BitVec 32), (14 : BitVec 32), rfl, by decide⟩
    · exact absurd hid (by simp [halvesProgram, Insts.count])

theorem xmad_exact_halves :
    ∃ s', halvesProgram.foldXmadMultiply 7 = some s' ∧
      ∃ x y a b, x.eval halvesValues = .u32 a ∧ y.eval halvesValues = .u32 b ∧
        halvesValues 7 = .u32 (a * b) ∧
        s' = (halvesProgram.newInst .iMul32 [x, y]).1.replaceUsesWith 7 (.inst 8) ∧
        Preserved (fun _ _ => 0) halvesProgram s' halvesValues :=
  ⟨_, rfl, (xmad_exact halvesProgram_respects (by decide) rfl).1 _ rfl⟩

end Sudachi.Shader
