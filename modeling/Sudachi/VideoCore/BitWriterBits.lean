import Sudachi.Foundations.Word
import Sudachi.VideoCore.BitWriters

/-!
# The bits of a writer

`bits` is what a writer has taken so far: the bytes that it has pushed and the filled part of its
buffer. `bits_writeBits` says that `WriteBits` appends the bits of the value, whatever the position
in the buffer is, and `bits_flush` that `Flush` pads the bits with zeros to whole bytes. The bits of
a call are its `encode`.
-/

set_option autoImplicit false

namespace Sudachi.VideoCore

open Foundations List Nat BitVec

namespace BitWriter

/-- The bits that were written so far. -/
def bits (w : BitWriter) : List Bool :=
  bitsOfBytes w.byteArray ++ bitsOf w.bufferPos (w.buffer.toNat >>> (bufferSize - w.bufferPos))

/-- The part of the buffer that is not filled holds zeros. -/
def Clean (w : BitWriter) : Prop := ∀ i < bufferSize - w.bufferPos, w.buffer.getLsbD i = false

theorem length_bitsOfBytes (bytes : List (BitVec 8)) :
    (bitsOfBytes bytes).length = 8 * bytes.length := by
  induction bytes with
  | nil => rfl
  | cons byte bytes ih =>
    rw [bitsOfBytes, flatMap_cons, length_append, length_bitsOf, ← bitsOfBytes, ih,
      length_cons, Nat.mul_succ, add_comm]

theorem bits_new : new.bits = [] := rfl

theorem clean_new : new.Clean := fun _ _ => getLsbD_zero

variable {w : BitWriter}

theorem bits_flush (h : w.Clean) :
    w.flush.bits = w.bits ++ replicate (if w.bufferPos = 0 then 0 else 8 - w.bufferPos) false
      := by
  rw [flush]
  split
  · rw [List.replicate_zero, append_nil]
  · have hle : w.bufferPos ≤ 8 := w.bufferPos_le
    have hsplit := bitsOf_add w.bufferPos (8 - w.bufferPos) (w.buffer.setWidth 8).toNat
    rw [Nat.add_sub_cancel' hle] at hsplit
    have hfilled : bitsOf w.bufferPos ((w.buffer.setWidth 8).toNat >>> (8 - w.bufferPos)) =
        bitsOf w.bufferPos (w.buffer.toNat >>> (8 - w.bufferPos)) := by
      apply bitsOf_congr
      intro i hi
      rw [testBit_shiftRight, testBit_shiftRight, testBit_toNat,
        testBit_toNat, getLsbD_setWidth, decide_eq_true (by omega), Bool.true_and]
    have hfree : bitsOf (8 - w.bufferPos) (w.buffer.setWidth 8).toNat =
        bitsOf (8 - w.bufferPos) 0 := by
      apply bitsOf_congr
      intro i hi
      rw [testBit_toNat, getLsbD_setWidth, h i hi, Bool.and_false, zero_testBit]
    rw [bits, bits, bitsOfBytes, flatMap_append, flatMap_singleton, hsplit, hfilled,
      hfree, bitsOf_zero, bitsOf, append_nil, List.append_assoc]
    rfl

theorem clean_flush (h : w.Clean) : w.flush.Clean := by
  rw [flush]
  split
  · exact h
  · exact fun _ _ => getLsbD_zero

theorem bits_makeRoom (h : w.Clean) : w.makeRoom.bits = w.bits := by
  rw [makeRoom]
  split
  · rename_i hfull
    rw [bits_flush h, hfull]
    exact append_nil _
  · rfl

theorem clean_makeRoom (h : w.Clean) : w.makeRoom.Clean := by
  rw [makeRoom]
  split
  · exact clean_flush h
  · exact h

/-- A shift of the source, which on the low bits of its result is a shift of the number. -/
def ShiftsRight (shiftRight : BitVec 32 → Nat → BitVec 32) : Prop :=
  ∀ value shift i, shift + i < 32 → (shiftRight value shift).getLsbD i = value.getLsbD (shift + i)

theorem shiftsRight_sshiftRight : ShiftsRight sshiftRight := by
  intro value shift i hi
  rw [getLsbD_sshiftRight, if_pos hi, decide_eq_false (by omega), Bool.not_false, Bool.true_and]

theorem shiftsRight_ushiftRight : ShiftsRight ushiftRight := by
  intro value shift i _
  exact getLsbD_ushiftRight value shift i

variable {shiftRight : BitVec 32 → Nat → BitVec 32} {value : BitVec 32}

/-- The mask of the loop takes the low bits of the shifted value. -/
theorem getLsbD_masked (hshift : ShiftsRight shiftRight) {copySize srcShift i : Nat}
    (hcopy : copySize < 32) (hsrc : srcShift + copySize ≤ 32) :
    (shiftRight value srcShift &&& (1#32 <<< copySize - 1#32)).getLsbD i =
      (decide (i < copySize) && value.getLsbD (srcShift + i)) := by
  rw [getLsbD_and, getLsbD_one_shiftLeft_sub_one hcopy, Bool.and_comm]
  by_cases hi : i < copySize
  · rw [hshift _ _ _ (by omega)]
  · rw [decide_eq_false hi, Bool.false_and, Bool.false_and]

/-- Bits that are put into the buffer are appended. -/
theorem bits_put (h : w.Clean) {source : BitVec 32} {copySize : Nat}
    (hcopy : copySize ≤ w.freeBufferBits) (hsource : ∀ i, copySize ≤ i → source.getLsbD i = false) :
    (w.put source copySize hcopy).bits = w.bits ++ bitsOf copySize source.toNat ∧
      (w.put source copySize hcopy).Clean := by
  have hsize : bufferSize = 8 := rfl
  have hle := w.bufferPos_le
  rw [freeBufferBits] at hcopy
  have hbit (i : Nat) (hi : i < 32) : (w.put source copySize hcopy).buffer.getLsbD i =
      (w.buffer.getLsbD i || (!decide (i < bufferSize - w.bufferPos - copySize) &&
        source.getLsbD (i - (bufferSize - w.bufferPos - copySize)))) := by
    change (w.buffer ||| source <<< (bufferSize - w.bufferPos - copySize)).getLsbD i = _
    rw [getLsbD_or, getLsbD_shiftLeft, decide_eq_true hi, Bool.true_and]
  constructor
  · have hbuffer : bitsOf (w.bufferPos + copySize) ((w.put source copySize hcopy).buffer.toNat >>>
          (bufferSize - (w.bufferPos + copySize))) =
        bitsOf w.bufferPos (w.buffer.toNat >>> (bufferSize - w.bufferPos)) ++
          bitsOf copySize source.toNat := by
      rw [bitsOf_add, ← Nat.shiftRight_add]
      congr 1
      · apply bitsOf_congr
        intro i hi
        rw [testBit_shiftRight, testBit_shiftRight, testBit_toNat, testBit_toNat, hbit _ (by omega)]
        -- the new bits end below the filled part
        rw [hsource _ (by omega), Bool.and_false, Bool.or_false]
        congr 1
        omega
      · apply bitsOf_congr
        intro i hi
        rw [testBit_shiftRight, testBit_toNat, testBit_toNat, hbit _ (by omega), h _ (by omega),
          decide_eq_false (by omega), Bool.false_or, Bool.not_false, Bool.true_and]
        congr 1
        omega
    rw [bits, bits, List.append_assoc, ← hbuffer]
    rfl
  · intro i hi
    have hlow : i < bufferSize - w.bufferPos - copySize := by
      have : (w.put source copySize hcopy).bufferPos = w.bufferPos + copySize := rfl
      omega
    rw [hbit i (by omega), h i (by omega), decide_eq_true hlow]
    rfl

/-- One iteration of the loop puts some of the remaining bits into the buffer. -/
theorem writeBitsFrom_of_ne (w : BitWriter) (shiftRight : BitVec 32 → Nat → BitVec 32)
    (value : BitVec 32) (bitCount valuePos : Nat) {remaining : Nat} (hremaining : remaining ≠ 0) :
    ∃ (copySize : Nat) (hcopy : copySize ≤ w.makeRoom.freeBufferBits), 0 < copySize ∧
      copySize ≤ remaining ∧ w.writeBitsFrom shiftRight value bitCount valuePos remaining =
        (w.makeRoom.put (shiftRight value (bitCount - valuePos - copySize) &&&
          (1#32 <<< copySize - 1#32)) copySize hcopy).writeBitsFrom shiftRight value bitCount
            (valuePos + copySize) (remaining - copySize) := by
  refine ⟨min remaining w.makeRoom.freeBufferBits, min_le_right _ _,
    Nat.lt_min.mpr ⟨pos_of_ne_zero hremaining, w.freeBufferBits_pos⟩, min_le_left _ _, ?_⟩
  rw [writeBitsFrom, if_neg hremaining]

theorem bits_writeBitsFrom (hshift : ShiftsRight shiftRight) {bitCount valuePos remaining : Nat}
    (hcount : bitCount ≤ 32) (hpos : valuePos + remaining = bitCount) (h : w.Clean) :
    (w.writeBitsFrom shiftRight value bitCount valuePos remaining).bits =
        w.bits ++ bitsOf remaining value.toNat ∧
      (w.writeBitsFrom shiftRight value bitCount valuePos remaining).Clean := by
  induction remaining using Nat.strong_induction_on generalizing valuePos w with
  | _ remaining ih =>
    by_cases hzero : remaining = 0
    · rw [writeBitsFrom, if_pos hzero, hzero, bitsOf, append_nil]
      exact ⟨rfl, h⟩
    · obtain ⟨copySize, hcopy, hpositive, hle, hstep⟩ :=
        w.writeBitsFrom_of_ne shiftRight value bitCount valuePos hzero
      have hfree : w.makeRoom.freeBufferBits ≤ 8 := sub_le _ _
      have hsrc : bitCount - valuePos - copySize + copySize ≤ 32 := by omega
      have hsmall : copySize < 32 := by omega
      have hmasked (i : Nat) : (shiftRight value (bitCount - valuePos - copySize) &&&
            (1#32 <<< copySize - 1#32)).getLsbD i =
          (decide (i < copySize) && value.getLsbD (bitCount - valuePos - copySize + i)) :=
        getLsbD_masked hshift hsmall hsrc
      obtain ⟨hput, hclean⟩ := bits_put (clean_makeRoom h) hcopy fun i hi =>
        (hmasked i).trans (by rw [decide_eq_false (Nat.not_lt_of_le hi), Bool.false_and])
      obtain ⟨hbits, hclean'⟩ := ih (remaining - copySize) (by omega)
        (by omega : valuePos + copySize + (remaining - copySize) = bitCount) hclean
      have hchunk : bitsOf copySize (shiftRight value (bitCount - valuePos - copySize) &&&
            (1#32 <<< copySize - 1#32)).toNat =
          bitsOf copySize (value.toNat >>> (remaining - copySize)) := by
        apply bitsOf_congr
        intro i hi
        rw [testBit_toNat, hmasked, decide_eq_true hi, Bool.true_and,
          testBit_shiftRight, testBit_toNat]
        congr 2
        omega
      rw [hstep]
      refine ⟨?_, hclean'⟩
      rw [hbits, hput, bits_makeRoom h, hchunk, List.append_assoc, ← bitsOf_add,
        Nat.add_sub_cancel' hle]

/-- `WriteBits` appends the bits of the value. -/
theorem bits_writeBits (hshift : ShiftsRight shiftRight) {bitCount : Nat} (hcount : bitCount ≤ 32)
    (h : w.Clean) :
    (w.writeBits shiftRight value bitCount).bits = w.bits ++ bitsOf bitCount value.toNat ∧
      (w.writeBits shiftRight value bitCount).Clean :=
  bits_writeBitsFrom hshift hcount (zero_add _) h

/-- A writer whose bits are the given ones, and which can write on. -/
def Holds (w : BitWriter) (bits : List Bool) : Prop := w.bits = bits ∧ w.Clean

theorem holds_new : new.Holds [] := ⟨bits_new, clean_new⟩

theorem Holds.writeBits {written : List Bool} (h : w.Holds written)
    (hshift : ShiftsRight shiftRight) (value : BitVec 32) {bitCount : Nat}
    (hcount : bitCount ≤ 32) :
    (w.writeBits shiftRight value bitCount).Holds (written ++ bitsOf bitCount value.toNat) := by
  rw [← h.1]
  exact bits_writeBits hshift hcount h.2

/-- What `Flush` leaves is whole bytes. -/
theorem Holds.flush {written : List Bool} (h : w.Holds written) :
    ∃ padding < 8, bitsOfBytes w.flush.byteArray = written ++ replicate padding false ∧
      8 ∣ written.length + padding := by
  have hbits := bits_flush h.2
  have hbytes : w.flush.bits = bitsOfBytes w.flush.byteArray := by
    rw [bits, BitWriter.flush]
    split
    · rename_i hempty
      rw [hempty, bitsOf, append_nil]
    · exact append_nil _
  rw [hbytes, h.1] at hbits
  refine ⟨_, ?_, hbits, ?_⟩
  · split <;> omega
  · have hlength := congrArg length hbits
    rw [length_bitsOfBytes, length_append, length_replicate] at hlength
    exact ⟨_, hlength.symm⟩

end BitWriter

/-! ## The calls of `H264BitWriter` -/

/-- The number of bits of a value in front of which `WriteExpGolombCodedUInt` puts zeros. -/
def golombSize (value : BitVec 32) : Nat := 32 - countlZero (value + 1)

variable {value : BitVec 32}

theorem golombSize_spec (hvalue : value.toNat < 2 ^ 32 - 1) :
    0 < golombSize value ∧ golombSize value ≤ 32 ∧
      2 ^ (golombSize value - 1) ≤ value.toNat + 1 ∧ value.toNat + 1 < 2 ^ golombSize value := by
  have hsucc : (value + 1).toNat = value.toNat + 1 := by
    have hone : (1 : BitVec 32).toNat = 1 := rfl
    rw [toNat_add, hone, mod_eq_of_lt (by omega)]
  have hne : value + 1 ≠ 0#32 := by
    intro hzero
    rw [hzero] at hsucc
    exact absurd hsucc (succ_ne_zero _).symm
  have hlt := clz_toNat_lt hne
  have hlower := two_pow_sub_clz_le_toNat_of_ne_zero (by decide) hne
  have hupper := toNat_lt_two_pow_sub_clz (x := value + 1)
  rw [hsucc] at hlower hupper
  refine ⟨Nat.sub_pos_of_lt hlt, sub_le _ _, ?_, hupper⟩
  rw [golombSize, countlZero, Nat.sub_sub, add_comm, ← Nat.sub_sub]
  exact hlower

/-- The code number that `WriteExpGolombCodedInt` computes. -/
def codeNum (value : BitVec 32) : BitVec 32 :=
  (if value.toInt < 0 then -value else value) <<< 1 - (if value.toInt ≤ 0 then 0 else 1)

theorem codeNum_spec (hvalue : -2 ^ 31 < value.toInt) :
    (codeNum value).toNat < 2 ^ 32 - 1 ∧ seOfCodeNum (codeNum value).toNat = value.toInt := by
  have hlt := value.isLt
  have hint := toInt_eq_toNat_cond value
  by_cases hpositive : 0 < value.toInt
  · have hcode : (codeNum value).toNat = 2 * value.toNat - 1 := by
      rw [codeNum, if_neg (by omega), if_neg (by omega), toNat_sub, toNat_shiftLeft,
        Nat.shiftLeft_eq]
      have hone : (1 : BitVec 32).toNat = 1 := rfl
      omega
    have hodd : (codeNum value).toNat % 2 = 1 := by omega
    rw [seOfCodeNum, if_pos hodd]
    omega
  · have hcode : (codeNum value).toNat = 2 * value.toInt.natAbs := by
      rw [codeNum, if_pos (by omega : value.toInt ≤ 0)]
      have hzero : (0 : BitVec 32).toNat = 0 := rfl
      split
      · rw [toNat_sub, toNat_shiftLeft, Nat.shiftLeft_eq, toNat_neg]
        omega
      · rw [toNat_sub, toNat_shiftLeft, Nat.shiftLeft_eq]
        omega
    have heven : ¬(codeNum value).toNat % 2 = 1 := by omega
    rw [seOfCodeNum, if_neg heven]
    omega

theorem holds_writeExpGolombCodedUInt {w : BitWriter} {written : List Bool} (h : w.Holds written)
    (hvalue : value.toNat < 2 ^ 32 - 1) : (H264BitWriter.writeExpGolombCodedUInt w value).Holds
      (written ++ expGolomb (golombSize value) value.toNat) := by
  obtain ⟨hpos, hle, hlower, -⟩ := golombSize_spec hvalue
  have hpow : 2 ^ (golombSize value - 1) < 2 ^ 32 := Nat.pow_lt_pow_right (by decide) (by omega)
  have hmask : (1#32 <<< (golombSize value - 1) - 1#32).toNat = 2 ^ (golombSize value - 1) - 1 := by
    have hone := Nat.two_pow_pos (golombSize value - 1)
    have hshift : (1#32 <<< (golombSize value - 1)).toNat = 2 ^ (golombSize value - 1) := by
      rw [toNat_shiftLeft, Nat.shiftLeft_eq, toNat_ofNat]
      omega
    rw [toNat_sub, hshift, toNat_ofNat]
    omega
  have hrest : (value - (1#32 <<< (golombSize value - 1) - 1#32)).toNat =
      value.toNat - (2 ^ (golombSize value - 1) - 1) := by
    have := value.isLt
    rw [toNat_sub, hmask]
    omega
  have hfirst := h.writeBits BitWriter.shiftsRight_sshiftRight 1 hle
  have hsecond := hfirst.writeBits BitWriter.shiftsRight_sshiftRight
    (value - (1#32 <<< (golombSize value - 1) - 1#32)) (le_trans (sub_le _ 1) hle)
  rw [hrest, List.append_assoc] at hsecond
  exact hsecond

namespace H264Call

/-- The bits that a call writes. -/
def encode : H264Call → List Bool
  | writeU value valueSz => bitsOf valueSz value.toNat
  | writeUe value => expGolomb (golombSize value) value.toNat
  | writeSe value => expGolomb (golombSize (codeNum value)) (codeNum value).toNat
  | writeBit state => [state]

theorem holds_run {w : BitWriter} {written : List Bool} (h : w.Holds written) (call : H264Call)
    (hfits : call.Fits) : (run w call).Holds (written ++ call.encode) := by
  cases call with
  | writeU value valueSz => exact h.writeBits BitWriter.shiftsRight_sshiftRight value hfits.1
  | writeUe value => exact holds_writeExpGolombCodedUInt h hfits
  | writeSe value => exact holds_writeExpGolombCodedUInt h (codeNum_spec hfits).1
  | writeBit state =>
    have hbit := h.writeBits BitWriter.shiftsRight_sshiftRight (if state then 1 else 0)
      (by decide : 1 ≤ 32)
    cases state <;> exact hbit

theorem read_expGolomb {value : BitVec 32} (hvalue : value.toNat < 2 ^ 32 - 1) (rest : List Bool) :
    readExpGolomb (expGolomb (golombSize value) value.toNat ++ rest) =
      some (value.toNat, rest) := by
  obtain ⟨hpos, -, hlower, hupper⟩ := golombSize_spec hvalue
  obtain ⟨size, hsize⟩ := exists_eq_succ_of_ne_zero hpos.ne'
  rw [hsize] at hlower hupper ⊢
  exact readExpGolomb_append hlower hupper rest

/-- The descriptor of a call finds its value in what it writes. -/
theorem read_encode {call : H264Call} (hfits : call.Fits) (rest : List Bool) :
    call.descriptor.read (call.encode ++ rest) = some (call.value, rest) := by
  cases call with
  | writeU value valueSz =>
    rw [descriptor, encode, H264Descriptor.read, readBits_append hfits.2]
    rfl
  | writeUe value =>
    rw [descriptor, encode, H264Descriptor.read, read_expGolomb hfits]
    rfl
  | writeSe value =>
    obtain ⟨hcode, hse⟩ := codeNum_spec hfits
    rw [descriptor, encode, H264Descriptor.read, read_expGolomb hcode, Option.map_some, hse]
    rfl
  | writeBit state => cases state <;> rfl

end H264Call

/-- The bits of a run of calls. -/
theorem holds_foldl {γ : Type} {run : BitWriter → γ → BitWriter} {encode : γ → List Bool}
    {calls : List γ} (h : ∀ call ∈ calls, ∀ {w : BitWriter} {written : List Bool},
      w.Holds written → (run w call).Holds (written ++ encode call))
    {w : BitWriter} {written : List Bool} (hw : w.Holds written) :
    (calls.foldl run w).Holds (written ++ calls.flatMap encode) := by
  induction calls generalizing w written with
  | nil => rwa [flatMap_nil, append_nil]
  | cons call calls ih =>
    rw [flatMap_cons, ← List.append_assoc]
    exact ih (fun call hcall => h call (mem_cons_of_mem _ hcall)) (h call mem_cons_self hw)

theorem h264_roundTrips {calls : List H264Call} (hfits : ∀ call ∈ calls, call.Fits) :
    H264RoundTrips calls := by
  have hcalls : (calls.foldl H264Call.run .new).Holds ([] ++ calls.flatMap H264Call.encode) :=
    holds_foldl (fun call hcall _ _ hw => H264Call.holds_run hw call (hfits call hcall))
      BitWriter.holds_new
  have hstop : (H264BitWriter.writeBit (calls.foldl H264Call.run .new) true).Holds _ :=
    H264Call.holds_run hcalls (.writeBit true) trivial
  obtain ⟨padding, hpadding, hbytes, -⟩ := hstop.flush
  have hstream : bitsOfBytes (h264Bytes calls) =
      calls.flatMap H264Call.encode ++ true :: replicate padding false := by
    rw [nil_append, List.append_assoc] at hbytes
    exact hbytes
  refine ⟨padding, hpadding, ?_⟩
  rw [hstream]
  exact readAll_flatMap (fun call hcall rest => H264Call.read_encode (hfits call hcall) rest) _

/-! ## The calls of `VpxBitStreamWriter` -/

namespace VpxCall

/-- The bits that a call writes. -/
def encode : VpxCall → List Bool
  | writeU value valueSize => bitsOf valueSize value.toNat
  | writeS value valueSize => bitsOf valueSize value.toInt.natAbs ++ [decide (value.toInt < 0)]
  | writeBit state => [state]
  | writeDeltaQ value => if value = 0 then [false] else true :: bitsOf 4 value.toNat

theorem length_encode (call : VpxCall) : call.encode.length = call.bitCount := by
  cases call with
  | writeU value valueSize => exact length_bitsOf _ _
  | writeS value valueSize =>
    rw [encode, length_append, length_bitsOf]
    rfl
  | writeBit state => rfl
  | writeDeltaQ value =>
    rw [encode, bitCount]
    split
    · rfl
    · rw [length_cons, length_bitsOf]

/-- The value that `WriteS` writes is the magnitude with the sign behind it. -/
theorem bitsOf_signed {value : BitVec 32} {valueSize : Nat} (hsize : valueSize < 32)
    (hfits : value.toInt.natAbs < 2 ^ valueSize) :
    bitsOf (valueSize + 1) ((if decide (value.toInt < 0) then -value else value) <<< 1 |||
        if decide (value.toInt < 0) then 1 else 0).toNat =
      bitsOf valueSize value.toInt.natAbs ++ [decide (value.toInt < 0)] := by
  have hpow : 2 ^ valueSize ≤ 2 ^ 31 := Nat.pow_le_pow_right (by decide) (by omega)
  have hmagnitude : (if decide (value.toInt < 0) then -value else value).toNat =
      value.toInt.natAbs := by
    have hlt := value.isLt
    have hint := toInt_eq_toNat_cond value
    by_cases hneg : value.toInt < 0
    · rw [decide_eq_true hneg, if_pos rfl, toNat_neg]
      omega
    · rw [decide_eq_false hneg, if_neg Bool.false_ne_true]
      omega
  generalize (if decide (value.toInt < 0) then -value else value) = magnitude at hmagnitude ⊢
  rw [bitsOf_succ, ← hmagnitude]
  have hlow (state : Bool) : (if state then 1 else 0 : BitVec 32).getLsbD 0 = state := by
    cases state <;> rfl
  have hhigh (state : Bool) (i : Nat) :
      (if state then 1 else 0 : BitVec 32).getLsbD (i + 1) = false := by
    cases state
    · exact getLsbD_zero
    · rw [if_pos rfl]
      exact getLsbD_one.trans (by simp)
  congr 1
  · apply bitsOf_congr
    intro i hi
    rw [testBit_div_two, testBit_toNat, testBit_toNat, getLsbD_or, hhigh,
      Bool.or_false, getLsbD_shiftLeft, decide_eq_true (by omega : i + 1 < 32)]
    rfl
  · rw [testBit_toNat, getLsbD_or, hlow, getLsbD_shiftLeft]
    rfl

theorem holds_run {w : BitWriter} {written : List Bool} (h : w.Holds written) (call : VpxCall)
    (hfits : call.Fits) : (run w call).Holds (written ++ call.encode) := by
  have hbit {w : BitWriter} {written : List Bool} (h : w.Holds written) (state : Bool) :
      (VpxBitStreamWriter.writeBit w state).Holds (written ++ [state]) := by
    have hbit := h.writeBits BitWriter.shiftsRight_ushiftRight (if state then 1 else 0)
      (by decide : 1 ≤ 32)
    cases state <;> exact hbit
  cases call with
  | writeU value valueSize => exact h.writeBits BitWriter.shiftsRight_ushiftRight value hfits.1
  | writeS value valueSize =>
    have hsign := h.writeBits BitWriter.shiftsRight_ushiftRight
      ((if decide (value.toInt < 0) then -value else value) <<< 1 |||
        if decide (value.toInt < 0) then 1 else 0) (succ_le_of_lt hfits.1)
    rw [bitsOf_signed hfits.1 hfits.2] at hsign
    exact hsign
  | writeBit state => exact hbit h state
  | writeDeltaQ value =>
    rw [run, VpxBitStreamWriter.writeDeltaQ, encode]
    by_cases hzero : value = 0
    · rw [if_pos hzero, if_neg (by simpa using hzero), decide_eq_false (not_not.mpr hzero)]
      exact hbit h false
    · rw [if_neg hzero, if_pos (by simpa using hzero), decide_eq_true hzero]
      have hcoded := (hbit h true).writeBits BitWriter.shiftsRight_ushiftRight value
        (by decide : 4 ≤ 32)
      rw [List.append_assoc] at hcoded
      exact hcoded

end VpxCall

end Sudachi.VideoCore
