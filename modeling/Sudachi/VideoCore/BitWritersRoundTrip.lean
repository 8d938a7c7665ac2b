import Sudachi.VideoCore.BitWriterBits

/-!
# What the descriptors read back

The descriptors of H.264 read back all that `H264BitWriter` writes. For VP9 this holds as long as no
`WriteDeltaQ` has a value other than 0: the syntax of `delta_q` ends with a sign that `WriteDeltaQ`
does not write, so that the next bit of the stream is taken for the sign, and all that follows is
read one bit too late. This goes well only where all that follows are zeros
(`eq_zero_of_shifted`), which makes `writers_roundTrip_iff` exact.
-/

set_option autoImplicit false

namespace Sudachi.VideoCore

open Foundations List Option BitVec
open List (replicate)
open VpxDescriptor (readSigned)

namespace VpxCall

variable {calls : List VpxCall} {rest : List Bool} {call : VpxCall} {k : Nat}

theorem readSigned_append {value : Int} {n : Nat} (hvalue : value.natAbs < 2 ^ n)
    (rest : List Bool) : readSigned n (bitsOf n value.natAbs ++ decide (value < 0) :: rest) =
      some (value, rest) := by
  rw [readSigned, readBits_append hvalue, bind_some, readBits_one, map_some]
  dsimp only
  by_cases hneg : value < 0
  · have habs : -(value.natAbs : Int) = value := by omega
    rw [decide_eq_true hneg, Bool.toNat_true, if_pos rfl, habs]
  · have habs : (value.natAbs : Int) = value := by omega
    rw [decide_eq_false hneg, Bool.toNat_false, if_neg Nat.zero_ne_one, habs]

/-- The descriptor of a call finds its value in what it writes, unless it is a `delta_q` that is
coded. -/
theorem read_encode (hfits : call.Fits) (hcoded : ∀ value, call = writeDeltaQ value → value = 0)
    (rest : List Bool) : call.descriptor.read (call.encode ++ rest) = some (call.value, rest) := by
  cases call with
  | writeU value valueSize =>
    rw [descriptor, encode, VpxDescriptor.read, readBits_append hfits.2]
    rfl
  | writeS value valueSize =>
    rw [descriptor, encode, VpxDescriptor.read, List.append_assoc]
    exact readSigned_append hfits.2 rest
  | writeBit state => cases state <;> rfl
  | writeDeltaQ value =>
    rw [hcoded value rfl]
    rfl

/-- A call with the value 0 writes zeros. -/
theorem encode_eq_replicate (hzero : call.value = 0) :
    call.encode = replicate call.bitCount false := by
  cases call with
  | writeU value valueSize =>
    have hvalue : value.toNat = 0 := Int.ofNat_eq_zero.mp hzero
    rw [encode, hvalue, bitsOf_zero]
    rfl
  | writeS value valueSize =>
    have hvalue : value.toInt = 0 := hzero
    rw [encode, hvalue, Int.natAbs_zero, bitsOf_zero, bitCount, List.replicate_succ']
    rfl
  | writeBit state =>
    cases state with
    | false => rfl
    | true => cases hzero
  | writeDeltaQ value =>
    have hvalue : value = 0 := eq_of_toInt_eq hzero
    rw [hvalue]
    rfl

theorem flatMap_encode_eq_replicate (hzero : ∀ call ∈ calls, call.value = 0) :
    calls.flatMap encode = replicate (calls.map bitCount).sum false := by
  induction calls with
  | nil => rfl
  | cons call calls ih =>
    rw [flatMap_cons, encode_eq_replicate (hzero call mem_cons_self),
      ih fun call hcall => hzero call (mem_cons_of_mem _ hcall), map_cons,
      sum_cons, replicate_append_replicate]

/-- What `su(n)` found. -/
theorem readSigned_eq_some {n : Nat} {bits : List Bool} {value : Int}
    (h : readSigned n bits = some (value, rest)) :
    ∃ x sign, x < 2 ^ n ∧ bits = bitsOf n x ++ sign :: rest ∧
      value = if sign then -(x : Int) else x := by
  rw [readSigned] at h
  obtain ⟨⟨x, behind⟩, hread, h⟩ := bind_eq_some_iff.mp h
  obtain ⟨⟨sign, last⟩, hsign, h⟩ := map_eq_some_iff.mp h
  obtain ⟨hx, hbits⟩ := readBits_eq_some_iff.mp hread
  obtain ⟨hlt, hbehind⟩ := readBits_eq_some_iff.mp hsign
  obtain ⟨hvalue, rfl⟩ := Prod.mk.inj h
  refine ⟨x, sign.testBit 0, hx, ?_, ?_⟩
  · obtain rfl : behind = bitsOf 1 sign ++ last := hbehind
    exact hbits
  · rw [← hvalue]
    rcases lt_or_ge sign 1 with hzero | hone
    · obtain rfl := Nat.lt_one_iff.mp hzero
      rfl
    · obtain rfl : sign = 1 := by omega
      rfl

/-- The bits of a `delta_q` that is coded come again behind their place only if they are zeros. -/
theorem eq_zero_of_coded {value : BitVec 32} {m x : Nat} {sign : Bool}
    (hk : 0 < k) (hle : k ≤ (true :: bitsOf 4 value.toNat ++ replicate m false).length)
    (h : (true :: bitsOf 4 value.toNat ++ replicate m false).drop k =
      bitsOf 1 1 ++ (bitsOf 4 x ++ sign :: rest))
    (hx : x < 2 ^ 4) (hvalue : value.toInt = if sign then -(x : Int) else x) : value = 0 := by
  obtain ⟨j, rfl⟩ := Nat.exists_eq_succ_of_ne_zero hk.ne'
  have hafter : (bitsOf 4 value.toNat ++ replicate m false).drop (j + 1) =
      bitsOf 4 x ++ sign :: rest := by
    have hdrop := congrArg (drop 1) h
    rw [drop_drop] at hdrop
    exact hdrop
  have hlengths := congrArg length h
  simp only [length_drop, length_append, length_cons, length_bitsOf,
    length_replicate] at hle hlengths
  -- the sign is one of the zeros
  obtain ⟨-, hlast⟩ := eq_drop_of_drop_append (d := 0)
    (by rw [length_append, length_bitsOf, length_replicate]; omega) hafter
    (by rw [length_bitsOf, length_bitsOf])
  have hsign : sign = false := by
    rw [drop_replicate] at hlast
    exact eq_of_mem_replicate (hlast ▸ mem_cons_self)
  rw [hsign, if_neg Bool.false_ne_true] at hvalue
  have hnat : value.toNat = x := by
    have := toInt_eq_toNat_cond value
    omega
  rw [← hnat] at hafter hx
  have hzero := eq_zero_of_bits hx fun bit hbit => eq_false_of_shift hk hafter hbit
  exact eq_of_toNat_eq hzero

/-- What is read behind the place where it was written ends in the same tail, behind its start.
Before a tail of zeros it is 0. -/
theorem read_shifted (hfits : call.Fits) {tail : List Bool}
    (hk : 0 < k) (hle : k ≤ (call.encode ++ tail).length)
    (h : call.descriptor.read ((call.encode ++ tail).drop k) = some (call.value, rest)) :
    ∃ d, (k + d ≤ tail.length ∧ rest = tail.drop (k + d)) ∧
      ∀ m, tail = replicate m false → call.value = 0 := by
  cases call with
  | writeU value valueSize =>
    obtain ⟨⟨x, behind⟩, hread, h⟩ := map_eq_some_iff.mp h
    obtain ⟨hx, hbits⟩ := readBits_eq_some_iff.mp hread
    obtain ⟨hvalue, rfl⟩ := Prod.mk.inj h
    obtain rfl : x = value.toNat := Int.ofNat_inj.mp hvalue
    refine ⟨0, eq_drop_of_drop_append hle hbits rfl, ?_⟩
    rintro m rfl
    exact congrArg Int.ofNat (eq_zero_of_bits hx fun bit hbit => eq_false_of_shift hk hbits hbit)
  | writeS value valueSize =>
    obtain ⟨x, sign, -, hbits, hvalue⟩ := readSigned_eq_some h
    have hmagnitude : value.toInt.natAbs = x := by
      have : value.toInt = if sign then -(x : Int) else x := hvalue
      cases sign <;> simp only [if_true, Bool.false_eq_true, if_false] at this <;> omega
    have hbits' : (encode (writeS value valueSize) ++ tail).drop k =
        (bitsOf valueSize x ++ [sign]) ++ rest := by
      rw [List.append_assoc]
      exact hbits
    have hlength : (bitsOf valueSize x ++ [sign]).length =
        (encode (writeS value valueSize)).length := by
      rw [length_encode, length_append, length_bitsOf]
      rfl
    refine ⟨0, eq_drop_of_drop_append hle hbits' hlength, ?_⟩
    rintro m rfl
    by_contra hne
    have hsign : sign = decide (value.toInt < 0) := by
      have hvalue' : value.toInt = if sign then -(x : Int) else x := hvalue
      have hne' : value.toInt ≠ 0 := hne
      cases sign
      · rw [if_neg Bool.false_ne_true] at hvalue'
        exact (decide_eq_false (by omega)).symm
      · rw [if_pos rfl] at hvalue'
        exact (decide_eq_true (by omega)).symm
    rw [hsign, ← hmagnitude] at hbits'
    have hzero := eq_zero_of_bits hfits.2 fun bit hbit =>
      eq_false_of_shift hk hbits' (mem_append_left _ hbit)
    exact hne (Int.natAbs_eq_zero.mp hzero)
  | writeBit state =>
    obtain ⟨⟨x, behind⟩, hread, h⟩ := map_eq_some_iff.mp h
    obtain ⟨hx, hbits⟩ := readBits_eq_some_iff.mp hread
    obtain ⟨hvalue, rfl⟩ := Prod.mk.inj h
    obtain rfl : x = state.toNat := Int.ofNat_inj.mp hvalue
    have hstate : bitsOf 1 state.toNat = [state] := by cases state <;> rfl
    rw [hstate] at hbits
    refine ⟨0, eq_drop_of_drop_append hle hbits rfl, ?_⟩
    rintro m rfl
    rw [eq_false_of_shift hk hbits mem_cons_self]
    rfl
  | writeDeltaQ value =>
    obtain ⟨⟨coded, behind⟩, hread, h⟩ := bind_eq_some_iff.mp h
    obtain ⟨hcoded, hbits⟩ := readBits_eq_some_iff.mp hread
    dsimp only at h
    split at h
    · rename_i hone
      obtain rfl : coded = 1 := hone
      obtain ⟨x, sign, hx, rfl, hvalue⟩ := readSigned_eq_some h
      have hbits' : (encode (writeDeltaQ value) ++ tail).drop k =
          (true :: bitsOf 4 x ++ [sign]) ++ rest := by
        rw [List.append_assoc]
        exact hbits
      by_cases hzero : value = 0
      · refine ⟨5, eq_drop_of_drop_append hle hbits' ?_, fun _ _ => ?_⟩
        · rw [hzero]
          rfl
        · rw [hzero]
          rfl
      · refine ⟨1, eq_drop_of_drop_append hle hbits' ?_, ?_⟩
        · rw [length_encode, bitCount, if_neg hzero]
          rfl
        · rintro m rfl
          rw [encode, if_neg hzero] at hbits hle
          exact absurd (eq_zero_of_coded hk hle hbits hx hvalue) hzero
    · obtain ⟨hvalue, rfl⟩ := Prod.mk.inj (some.inj h)
      have hzero : value = 0 := eq_of_toInt_eq hvalue.symm
      refine ⟨0, eq_drop_of_drop_append hle hbits ?_, fun _ _ => hvalue.symm⟩
      rw [hzero]
      rfl

/-- Only zeros are read behind the place where they were written. -/
theorem eq_zero_of_shifted (hfits : ∀ call ∈ calls, call.Fits) {padding : Nat} (hk : 0 < k)
    (hle : k ≤ (calls.flatMap encode ++ replicate padding false).length)
    (h : readAll VpxDescriptor.read (calls.map descriptor)
      ((calls.flatMap encode ++ replicate padding false).drop k) = some (calls.map value, rest)) :
    (∀ call ∈ calls, call.value = 0) ∧ k ≤ padding := by
  induction calls generalizing k rest with
  | nil =>
    rw [flatMap_nil, nil_append, length_replicate] at hle
    exact ⟨fun call hcall => absurd hcall not_mem_nil, hle⟩
  | cons call calls ih =>
    rw [map_cons, map_cons, flatMap_cons, List.append_assoc, readAll] at h
    rw [flatMap_cons, List.append_assoc] at hle
    obtain ⟨⟨first, behind⟩, hfirst, h⟩ := bind_eq_some_iff.mp h
    obtain ⟨⟨others, last⟩, hothers, h⟩ := map_eq_some_iff.mp h
    obtain ⟨hvalues, -⟩ := Prod.mk.inj h
    obtain ⟨hvalue, hvalues'⟩ := cons.inj hvalues
    dsimp only at hvalue hvalues'
    rw [hvalue] at hfirst
    rw [hvalues'] at hothers
    obtain ⟨d, ⟨hd, rfl⟩, hzero⟩ := read_shifted (hfits call mem_cons_self) hk hle hfirst
    obtain ⟨hrest, hpadding⟩ := ih (fun call hcall => hfits call (mem_cons_of_mem _ hcall))
      (Nat.add_pos_left hk d) hd hothers
    refine ⟨fun other hother => ?_, by omega⟩
    rcases mem_cons.mp hother with rfl | hmem
    · apply hzero ((calls.map bitCount).sum + padding)
      rw [flatMap_encode_eq_replicate hrest, replicate_append_replicate]
    · exact hrest other hmem

theorem readAll_of_value_zero (hfits : ∀ call ∈ calls, call.Fits)
    (hzero : ∀ call ∈ calls, call.value = 0) (rest : List Bool) :
    readAll VpxDescriptor.read (calls.map descriptor) (calls.flatMap encode ++ rest) =
      some (calls.map value, rest) := by
  refine readAll_flatMap (fun call hcall rest => read_encode (hfits call hcall) ?_ rest) rest
  rintro v rfl
  exact eq_of_toInt_eq (hzero _ hcall)

/-- A `delta_q` that is coded takes the next bit of the stream for its sign. -/
theorem readAll_coded_iff {v : BitVec 32} (hv : v ≠ 0)
    (hfits : (writeDeltaQ v).Fits) (hcalls : ∀ call ∈ calls, call.Fits) (padding : Nat) :
    (∃ rest, readAll VpxDescriptor.read ((writeDeltaQ v :: calls).map descriptor)
      ((writeDeltaQ v :: calls).flatMap encode ++ replicate padding false) =
        some ((writeDeltaQ v :: calls).map value, rest)) ↔
      0 < v.toInt ∧ (∀ call ∈ calls, call.value = 0) ∧ 0 < padding := by
  have hint := toInt_eq_toNat_cond v
  have hsmall : v.toInt.natAbs < 2 ^ 4 := hfits
  have hne : v.toInt ≠ 0 := fun hzero => hv (eq_of_toInt_eq hzero)
  have hencode : (writeDeltaQ v :: calls).flatMap encode ++ replicate padding false =
      bitsOf 1 1 ++ (bitsOf 4 v.toNat ++ (calls.flatMap encode ++ replicate padding false)) := by
    rw [flatMap_cons, encode, if_neg hv, List.append_assoc]
    rfl
  rw [hencode, map_cons, map_cons, readAll]
  have hcoded : VpxDescriptor.read (writeDeltaQ v).descriptor
      (bitsOf 1 1 ++ (bitsOf 4 v.toNat ++ (calls.flatMap encode ++ replicate padding false))) =
        readSigned 4
          (bitsOf 4 v.toNat ++ (calls.flatMap encode ++ replicate padding false)) := by
    rw [descriptor, VpxDescriptor.read, VpxDescriptor.readDeltaQ, readBits_append Nat.one_lt_two]
    rfl
  rw [hcoded]
  constructor
  · rintro ⟨rest, h⟩
    obtain ⟨⟨first, behind⟩, hfirst, h⟩ := bind_eq_some_iff.mp h
    obtain ⟨⟨others, last⟩, hothers, h⟩ := map_eq_some_iff.mp h
    obtain ⟨hvalues, -⟩ := Prod.mk.inj h
    obtain ⟨hvalue, hvalues'⟩ := cons.inj hvalues
    dsimp only at hvalue hvalues' hothers
    rw [hvalues'] at hothers
    obtain ⟨x, sign, hx, hbits, hfound⟩ := readSigned_eq_some hfirst
    obtain ⟨-, hbehind⟩ := append_inj hbits (by rw [length_bitsOf, length_bitsOf])
    -- what follows is read one bit behind its place
    have hle : 1 ≤ (calls.flatMap encode ++ replicate padding false).length := by
      rw [hbehind]
      exact Nat.succ_pos _
    have hshifted : behind = (calls.flatMap encode ++ replicate padding false).drop 1 := by
      rw [hbehind]
      rfl
    rw [hshifted] at hothers
    obtain ⟨hzero, hpadding⟩ := eq_zero_of_shifted hcalls one_pos hle hothers
    refine ⟨?_, hzero, hpadding⟩
    have hsign : sign = false := by
      rw [flatMap_encode_eq_replicate hzero, replicate_append_replicate] at hbehind
      exact eq_of_mem_replicate (hbehind ▸ mem_cons_self)
    rw [hsign, if_neg Bool.false_ne_true, hvalue] at hfound
    have hvalue' : (writeDeltaQ v).value = v.toInt := rfl
    omega
  · rintro ⟨hpositive, hzero, hpadding⟩
    obtain ⟨padding, rfl⟩ := Nat.exists_eq_succ_of_ne_zero hpadding.ne'
    have hstream : calls.flatMap encode ++ replicate (padding + 1) false =
        decide (v.toInt < 0) :: (calls.flatMap encode ++ replicate padding false) := by
      rw [flatMap_encode_eq_replicate hzero, replicate_append_replicate, replicate_append_replicate,
        decide_eq_false (by omega), ← add_assoc, List.replicate_succ]
    have hnat : v.toNat = v.toInt.natAbs := by omega
    rw [hnat, hstream, readSigned_append hsmall, bind_some, readAll_of_value_zero hcalls hzero]
    exact ⟨_, rfl⟩

/-- When the descriptors read back what the calls wrote in front of some padding. -/
theorem readAll_iff (hfits : ∀ call ∈ calls, call.Fits) (padding : Nat) :
    (∃ rest, readAll VpxDescriptor.read (calls.map descriptor)
      (calls.flatMap encode ++ replicate padding false) = some (calls.map value, rest)) ↔
      ∀ before v after, calls = before ++ writeDeltaQ v :: after → v ≠ 0 →
        0 < v.toInt ∧ (∀ call ∈ after, call.value = 0) ∧ 0 < padding := by
  induction calls with
  | nil =>
    refine ⟨fun _ before v after h => absurd h (ne_nil_of_length_pos ?_).symm,
      fun _ => ⟨_, rfl⟩⟩
    rw [length_append, length_cons]
    omega
  | cons call calls ih =>
    have hcalls : ∀ call ∈ calls, call.Fits :=
      fun call hcall => hfits call (mem_cons_of_mem _ hcall)
    by_cases hcoded : ∃ v, call = writeDeltaQ v ∧ v ≠ 0
    · obtain ⟨v, rfl, hv⟩ := hcoded
      rw [readAll_coded_iff hv (hfits _ mem_cons_self) hcalls]
      constructor
      · rintro ⟨hpositive, hzero, hpadding⟩ before v' after h hv'
        cases before with
        | nil =>
          obtain ⟨hsame, rfl⟩ := cons.inj h
          obtain rfl := VpxCall.writeDeltaQ.inj hsame
          exact ⟨hpositive, hzero, hpadding⟩
        | cons first before =>
          -- another one that is coded would not be 0
          obtain ⟨-, rfl⟩ := cons.inj h
          have hzero' : v'.toInt = 0 := hzero (writeDeltaQ v') (mem_append_right _ mem_cons_self)
          exact absurd (eq_of_toInt_eq hzero') hv'
      · intro h
        exact h [] v calls rfl hv
    · have hread := read_encode (hfits call mem_cons_self)
        (fun v hv => by_contra fun hne => hcoded ⟨v, hv, hne⟩)
      have hstep : (∃ rest, readAll VpxDescriptor.read ((call :: calls).map descriptor)
            ((call :: calls).flatMap encode ++ replicate padding false) =
              some ((call :: calls).map value, rest)) ↔
          ∃ rest, readAll VpxDescriptor.read (calls.map descriptor)
            (calls.flatMap encode ++ replicate padding false) = some (calls.map value, rest) := by
        rw [map_cons, map_cons, flatMap_cons, List.append_assoc, readAll, hread, bind_some]
        refine exists_congr fun rest => ?_
        rw [map_eq_some_iff]
        constructor
        · rintro ⟨⟨others, last⟩, hothers, h⟩
          obtain ⟨hvalues, rfl⟩ := Prod.mk.inj h
          obtain rfl := (cons.inj hvalues).2
          exact hothers
        · intro h
          exact ⟨_, h, rfl⟩
      rw [hstep, ih hcalls]
      constructor
      · intro h before v after hcons hv
        cases before with
        | nil => exact absurd ⟨v, (cons.inj hcons).1, hv⟩ hcoded
        | cons first before => exact h before v after (cons.inj hcons).2 hv
      · intro h before v after hcons hv
        exact h (call :: before) v after (congrArg (cons call) hcons) hv

end VpxCall

/-- Every `WriteDeltaQ` with a value other than 0 has a positive one, all later calls have the value
0, and the bits do not fill their last byte. -/
def SignBitsAreZeros (calls : List VpxCall) : Prop :=
  ∀ before v after, calls = before ++ .writeDeltaQ v :: after → v ≠ 0 →
    0 < v.toInt ∧ (∀ call ∈ after, call.value = 0) ∧ ¬8 ∣ (calls.map (·.bitCount)).sum

theorem vpx_roundTrips_iff {calls : List VpxCall} (hfits : ∀ call ∈ calls, call.Fits) :
    VpxRoundTrips calls ↔ SignBitsAreZeros calls := by
  have hcalls : (calls.foldl VpxCall.run .new).Holds ([] ++ calls.flatMap VpxCall.encode) :=
    holds_foldl (fun call hcall _ _ hw => VpxCall.holds_run hw call (hfits call hcall))
      BitWriter.holds_new
  obtain ⟨padding, hpadding, hbytes, hdvd⟩ := hcalls.flush
  rw [nil_append] at hbytes hdvd
  have hlength : (calls.flatMap VpxCall.encode).length = (calls.map (·.bitCount)).sum := by
    rw [length_flatMap]
    exact congrArg sum (map_congr_left fun call _ => call.length_encode)
  have hpositive : 0 < padding ↔ ¬8 ∣ (calls.map (·.bitCount)).sum := by
    rw [hlength] at hdvd
    omega
  rw [VpxRoundTrips, vpxBytes, hbytes, SignBitsAreZeros, ← hpositive]
  exact VpxCall.readAll_iff hfits padding

/-- What the two writers write is read back with the values of the calls, unless a sign of a
`delta_q` is missed. -/
theorem writers_roundTrip_iff {h264Calls : List H264Call} {vpxCalls : List VpxCall}
    (hh264 : ∀ call ∈ h264Calls, call.Fits) (hvpx : ∀ call ∈ vpxCalls, call.Fits) :
    (H264RoundTrips h264Calls ∧ VpxRoundTrips vpxCalls) ↔ SignBitsAreZeros vpxCalls := by
  rw [vpx_roundTrips_iff hvpx]
  exact and_iff_right (h264_roundTrips hh264)

theorem writers_roundTrip_iff_headers :
    (H264RoundTrips [.writeU 100 8, .writeUe 5, .writeSe (-3), .writeBit true] ∧
        VpxRoundTrips [.writeU 60 8, .writeDeltaQ 0, .writeS (-5) 6, .writeBit true]) ↔
      SignBitsAreZeros [.writeU 60 8, .writeDeltaQ 0, .writeS (-5) 6, .writeBit true] :=
  writers_roundTrip_iff (by decide) (by decide)

/-- A `delta_q` of 1 in front of elements that are not all zeros, and one of -1. -/
theorem not_roundTrips_deltaQ :
    [[VpxCall.writeDeltaQ 1, .writeDeltaQ 0, .writeDeltaQ 0, .writeBit true],
      [.writeDeltaQ (-1)]].Forall fun calls => ¬VpxRoundTrips calls := by
  refine ⟨?_, ?_⟩
  all_goals
    rintro ⟨rest, h⟩
    have hvalues := congrArg (Option.map Prod.fst) h
    simp only [map_some] at hvalues
    exact absurd hvalues (by decide +kernel)

end Sudachi.VideoCore
