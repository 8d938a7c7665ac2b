import Sudachi.FileSys.IpsLayer
import Mathlib.Tactic

/-!
# What `PatchIPS` makes of a patch

Records that are accepted are applied one after the other. The other ones make the call fail, a
standard record also where only its end lies beyond the file. A patch that breaks off is recognised,
unless the bytes of its last, incomplete offset complete the one before to an end marker.
-/

set_option autoImplicit false

namespace Sudachi.FileSys

open List

variable {type : IPSFileType} {data temp rest input part : List UInt8} {r : IpsRecord}
  {records : List IpsRecord} {n width offset size fuel : Nat}

/-! ## Numbers -/

theorem length_bigEndianBytes (width n : Nat) : (bigEndianBytes width n).length = width := by
  induction width generalizing n with
  | zero => rfl
  | succ width ih => rw [bigEndianBytes, length_append, ih, length_singleton]

theorem bigEndian_bigEndianBytes (hn : n < 256 ^ width) :
    bigEndian (bigEndianBytes width n) = n := by
  induction width generalizing n with
  | zero =>
    have hzero : n = 0 := Nat.lt_one_iff.mp hn
    rw [hzero]
    rfl
  | succ width ih =>
    have hdiv : n / 256 < 256 ^ width := Nat.div_lt_of_lt_mul (by rwa [← Nat.pow_succ'])
    have hlast : (UInt8.ofNat (n % 256)).toNat = n % 256 := by
      rw [UInt8.toNat_ofNat']
      omega
    have hprev : (bigEndianBytes width (n / 256)).foldl (fun n byte => n * 256 + byte.toNat) 0 =
      n / 256 := ih hdiv
    rw [bigEndianBytes, bigEndian, foldl_append, hprev, foldl_cons, foldl_nil, hlast]
    omega

/-- A size of two bytes. -/
theorem bigEndianBytes_two (n : Nat) :
    bigEndianBytes 2 n = [UInt8.ofNat (n / 256 % 256), UInt8.ofNat (n % 256)] := rfl

theorem bigEndian_two (hn : n < 2 ^ 16) :
    bigEndian [UInt8.ofNat (n / 256 % 256), UInt8.ofNat (n % 256)] = n := by
  rw [← bigEndianBytes_two]
  exact bigEndian_bigEndianBytes (by omega)

theorem length_eof (htype : type ≠ .error) : type.eof.length = type.width := by
  cases type with
  | ips => rfl
  | ips32 => rfl
  | error => exact absurd rfl htype

theorem isEOF_iff (htype : type ≠ .error) : isEOF type temp = true ↔ temp = type.eof := by
  cases type with
  | ips => simp [isEOF]
  | ips32 => simp [isEOF]
  | error => exact absurd rfl htype

/-! ## One record -/

theorem length_apply (data : List UInt8) (r : IpsRecord) : (r.apply data).length = data.length :=
  length_mapIdx

theorem length_foldl_apply (records : List IpsRecord) (data : List UInt8) :
    (records.foldl IpsRecord.apply data).length = data.length := by
  induction records generalizing data with
  | nil => rfl
  | cons r records ih => rw [foldl_cons, ih, length_apply]

/-- What is applied of a record is what fits into the file. -/
theorem apply_eq_writeAt (hoffset : r.offset ≤ data.length) :
    r.apply data = writeAt data r.offset (r.bytes.take (data.length - r.offset)) := by
  refine ext_getElem? fun i => ?_
  rw [IpsRecord.apply, getElem?_mapIdx, writeAt, append_assoc, getElem?_append, length_take,
    min_eq_left hoffset, getElem?_append, length_take, getElem?_drop]
  by_cases hbefore : i < r.offset
  · rw [if_pos hbefore, getElem?_take_of_lt hbefore]
    simp only [if_neg (Nat.not_le.mpr hbefore), Option.map_id']
  · rw [if_neg hbefore]
    simp only [if_pos (Nat.not_lt.mp hbefore)]
    by_cases hin : i - r.offset < min (data.length - r.offset) r.bytes.length
    · obtain ⟨hfile, hbytes⟩ := Nat.lt_min.mp hin
      have hi : i < data.length := by omega
      rw [if_pos hin, getElem?_take_of_lt hfile, getElem?_eq_getElem hi, getElem?_eq_getElem hbytes]
      simp [getD_eq_getElem?_getD, getElem?_eq_getElem hbytes]
    · rw [if_neg hin]
      have hsame : r.offset + min (data.length - r.offset) r.bytes.length +
          (i - r.offset - min (data.length - r.offset) r.bytes.length) = i := by omega
      rw [hsame]
      by_cases hi : i < data.length
      · have hbytes : r.bytes.length ≤ i - r.offset := by omega
        rw [getElem?_eq_getElem hi]
        simp [getD_eq_getElem?_getD, getElem?_eq_none hbytes]
      · rw [getElem?_eq_none (Nat.not_lt.mp hi)]
        rfl

/-- A size within the file is not clipped. -/
theorem clipSize_of_le (hfits : offset + size ≤ n) : clipSize n offset size = size := by
  have hmod := Nat.mod_le (offset + size) (2 ^ 32)
  rw [clipSize, if_neg (by omega)]

/-- A size beyond the end of the file is clipped, if the end of the record is a number of 32 bits.
-/
theorem clipSize_of_lt (hoffset : offset ≤ n) (hsize : size < 2 ^ 16) (hbeyond : n < offset + size)
    (hend : offset + size < 2 ^ 32) : clipSize n offset size = n - offset := by
  rw [clipSize, Nat.mod_eq_of_lt hend, if_pos hbeyond, Nat.mod_eq_of_lt (by omega)]

/-- Else it is not, and the write runs over the end. -/
theorem clipSize_of_wraps (hoffset : offset ≤ n) (hsize : size < 2 ^ 16)
    (hoffset' : offset < 2 ^ 32) (hend : 2 ^ 32 ≤ offset + size) :
    clipSize n offset size = size := by
  have hmod : (offset + size) % 2 ^ 32 = offset + size - 2 ^ 32 := by omega
  rw [clipSize, hmod, if_neg (by omega)]

theorem patchStandard_of_le {bytes : List UInt8} (hfits : offset + bytes.length ≤ data.length)
    (rest : List UInt8) : patchStandard data offset bytes.length (bytes ++ rest) =
      .next (writeAt data offset bytes) rest := by
  rw [patchStandard, clipSize_of_le hfits, take_left, drop_left, if_neg (Nat.not_lt.mpr hfits)]
  exact if_neg (not_not.mpr rfl)

/-- Of a run-length record the part in the file is written. -/
theorem patchRle_of_accepted {value : UInt8} (hoffset : offset ≤ data.length)
    (hsize : size < 2 ^ 16) (hfits : offset + size ≤ data.length ∨ offset + size < 2 ^ 32)
    (rest : List UInt8) : patchRle data offset size (value :: rest) = .next (writeAt data offset
        ((replicate size value).take (data.length - offset))) rest := by
  have hclip : clipSize data.length offset size = min (data.length - offset) size := by
    by_cases hin : offset + size ≤ data.length
    · rw [clipSize_of_le hin]
      omega
    · rw [clipSize_of_lt hoffset hsize (Nat.not_le.mp hin) (hfits.resolve_left hin)]
      omega
  rw [patchRle, hclip, take_replicate]
  exact if_neg (by omega)

attribute [local simp] patchRecord in
/-- A record that is accepted is applied. -/
theorem patchRecord_of_accepted (hformed : r.WellFormed type) (haccepted : r.Accepted data.length)
    (rest : List UInt8) :
    patchRecord data r.offset (r.body ++ rest) = .next (r.apply data) rest := by
  obtain ⟨hoffset, hfits⟩ := haccepted
  rw [apply_eq_writeAt hoffset]
  cases r with
  | standard offset bytes =>
    obtain ⟨-, -, hpos, hlength⟩ := hformed
    have hfits' : offset + bytes.length ≤ data.length := hfits
    have hbytes : bytes.take (data.length - offset) = bytes := take_of_length_le (by omega)
    simp only [IpsRecord.body, bigEndianBytes_two, cons_append, nil_append, patchRecord,
      bigEndian_two hlength, IpsRecord.offset, IpsRecord.bytes]
    rw [if_neg (by omega), patchStandard_of_le hfits', hbytes]
  | rle offset size value =>
    obtain ⟨-, -, hsize⟩ := hformed
    simp only [IpsRecord.body, bigEndianBytes_two, cons_append, nil_append, patchRecord,
      bigEndian_two (show 0 < 2 ^ 16 by decide), bigEndian_two hsize, if_true, IpsRecord.offset,
      IpsRecord.bytes]
    exact patchRle_of_accepted hoffset hsize hfits rest

/-- Else it makes the call fail, if it does not write past the end of the file. -/
theorem patchRecord_of_not_accepted (hformed : r.WellFormed type) (hoffset : r.offset ≤ data.length)
    (haccepted : ¬r.Accepted data.length) (rest : List UInt8) :
    patchRecord data r.offset (r.body ++ rest) = .null ∨
      patchRecord data r.offset (r.body ++ rest) = .overrun := by
  cases r with
  | standard offset bytes =>
    obtain ⟨-, -, hpos, hlength⟩ := hformed
    have hbeyond : data.length < offset + bytes.length :=
      Nat.not_le.mp fun hfits => haccepted ⟨hoffset, hfits⟩
    simp only [IpsRecord.body, bigEndianBytes_two, cons_append, nil_append, patchRecord,
      bigEndian_two hlength, IpsRecord.offset]
    rw [if_neg (by omega), patchStandard]
    by_cases hover : data.length <
        offset + ((bytes ++ rest).take (clipSize data.length offset bytes.length)).length
    · exact .inr (if_pos hover)
    · exact .inl ((if_neg hover).trans (if_pos (by omega)))
  | rle offset size value =>
    obtain ⟨hlow, -, hsize⟩ := hformed
    have hwidth : 256 ^ type.width ≤ 2 ^ 32 := by
      cases type with
      | ips => decide
      | ips32 => decide
      | error => decide
    have hbeyond : data.length < offset + size :=
      Nat.not_le.mp fun hfits => haccepted ⟨hoffset, .inl hfits⟩
    have hwraps : 2 ^ 32 ≤ offset + size :=
      Nat.not_lt.mp fun hfits => haccepted ⟨hoffset, .inr hfits⟩
    have hclip : clipSize data.length offset size = size :=
      clipSize_of_wraps hoffset hsize (hlow.trans_le hwidth) hwraps
    simp only [IpsRecord.body, bigEndianBytes_two, cons_append, nil_append, patchRecord,
      bigEndian_two (show 0 < 2 ^ 16 by decide), bigEndian_two hsize, if_true, IpsRecord.offset]
    rw [patchRle, hclip]
    exact .inr (if_pos hbeyond)

/-- A record that breaks off makes the call fail. -/
theorem patchRecord_of_part (hformed : r.WellFormed type) (haccepted : r.Accepted data.length)
    (hpart : part <+: r.body) (hne : part ≠ r.body) : patchRecord data r.offset part = .null := by
  cases r with
  | standard offset bytes =>
    obtain ⟨-, -, hpos, hlength⟩ := hformed
    have hfits : offset + bytes.length ≤ data.length := haccepted.2
    simp only [IpsRecord.body, bigEndianBytes_two, cons_append, nil_append] at hpart hne
    obtain rfl | ⟨part₁, rfl, hpart₁⟩ := prefix_cons_iff.mp hpart
    · rfl
    obtain rfl | ⟨part₂, rfl, hpart₂⟩ := prefix_cons_iff.mp hpart₁
    · rfl
    have hshort : part₂.length < bytes.length := by
      refine lt_of_le_of_ne hpart₂.length_le fun heq => hne ?_
      rw [hpart₂.eq_of_length heq]
    simp only [patchRecord, bigEndian_two hlength, IpsRecord.offset]
    rw [if_neg (by omega), patchStandard, clipSize_of_le hfits,
      take_of_length_le hshort.le, if_neg (by omega)]
    exact if_pos (ne_of_lt hshort)
  | rle offset size value =>
    simp only [IpsRecord.body, bigEndianBytes_two, cons_append, nil_append] at hpart hne
    obtain rfl | ⟨part₁, rfl, hpart₁⟩ := prefix_cons_iff.mp hpart
    · rfl
    obtain rfl | ⟨part₂, rfl, hpart₂⟩ := prefix_cons_iff.mp hpart₁
    · rfl
    have hzero : bigEndian [UInt8.ofNat (0 / 256 % 256), UInt8.ofNat (0 % 256)] = 0 :=
      bigEndian_two (by decide)
    simp only [patchRecord, hzero, if_true]
    obtain rfl | ⟨part₃, rfl, hpart₃⟩ := prefix_cons_iff.mp hpart₂
    · rfl
    obtain rfl | ⟨part₄, rfl, hpart₄⟩ := prefix_cons_iff.mp hpart₃
    · rfl
    obtain rfl | ⟨part₅, rfl, hpart₅⟩ := prefix_cons_iff.mp hpart₄
    · rfl
    · rw [prefix_nil.mp hpart₅] at hne
      exact absurd rfl hne

/-! ## The loop -/

attribute [local simp] patchLoop in
/-- The offset of a record is read, and it is no end marker. -/
theorem patchLoop_header (htype : type ≠ .error) (hformed : r.WellFormed type) :
    patchLoop type (fuel + 1) data temp (r.header type ++ rest) =
      if r.offset > data.length then .null
      else
        match patchRecord data r.offset rest with
        | .null => .null
        | .overrun => .overrun
        | .next data rest => patchLoop type fuel data (r.header type) rest := by
  obtain ⟨hlow, hmarker, -⟩ := hformed
  have hlength : (r.header type).length = type.width := length_bigEndianBytes _ _
  have hvalue : bigEndian (r.header type) = r.offset := bigEndian_bigEndianBytes hlow
  have heof : ¬isEOF type (r.header type) = true := fun h => hmarker ((isEOF_iff htype).mp h)
  have hlong : ¬(r.header type ++ rest).length < type.width := by
    rw [length_append, hlength]
    omega
  rw [patchLoop, if_neg hlong]
  simp only [← hlength, take_left, drop_left]
  rewrite [if_neg heof, hvalue]
  rfl

/-- The end marker. -/
theorem patchLoop_eof (htype : type ≠ .error) :
    patchLoop type (fuel + 1) data temp type.eof = .patched data := by
  have hlong : ¬type.eof.length < type.width := by
    rw [length_eof htype]
    omega
  have heof : isEOF type type.eof = true := (isEOF_iff htype).mpr rfl
  rw [patchLoop, if_neg hlong]
  simp only [← length_eof htype, take_length, heof, if_true, finishPatch, Bool.not_true]
  rfl

/-- The offset breaks off. -/
theorem patchLoop_short (hshort : rest.length < type.width) :
    patchLoop type (fuel + 1) data temp rest =
      finishPatch type data (rest ++ temp.drop rest.length) := by
  rw [patchLoop, if_pos hshort]

/-- The last offset that has been read. -/
def lastHeader (type : IPSFileType) (temp : List UInt8) (records : List IpsRecord) : List UInt8 :=
  records.foldl (fun _ r => r.header type) temp

/-- The records of a patch without its end. -/
def recordBytes (type : IPSFileType) (records : List IpsRecord) : List UInt8 :=
  records.flatMap fun r => r.header type ++ r.body

theorem recordBytes_cons (r : IpsRecord) (records : List IpsRecord) :
    recordBytes type (r :: records) = r.header type ++ r.body ++ recordBytes type records :=
  flatMap_cons

theorem encodeRecords_append (type : IPSFileType) (before after : List IpsRecord) :
    encodeRecords type (before ++ after) = recordBytes type before ++ encodeRecords type after := by
  induction before with
  | nil => rfl
  | cons r before ih =>
    rw [cons_append, encodeRecords, ih, recordBytes_cons, append_assoc, append_assoc, append_assoc]

/-- Records that are accepted are applied, and the loop goes on behind them. -/
theorem patchLoop_records (htype : type ≠ .error) (hformed : ∀ r ∈ records, r.WellFormed type)
    (haccepted : ∀ r ∈ records, r.Accepted data.length) (rest : List UInt8) :
    patchLoop type (records.length + fuel) data temp (recordBytes type records ++ rest) =
      patchLoop type fuel (records.foldl IpsRecord.apply data) (lastHeader type temp records)
        rest := by
  induction records generalizing data temp with
  | nil =>
    rw [length_nil, zero_add]
    rfl
  | cons r records ih =>
    obtain ⟨hr, hrest⟩ := forall_mem_cons.mp hformed
    obtain ⟨hra, hresta⟩ := forall_mem_cons.mp haccepted
    have hfuel : (r :: records).length + fuel = records.length + fuel + 1 := by
      rw [length_cons]
      omega
    have hbytes : recordBytes type (r :: records) ++ rest =
        r.header type ++ (r.body ++ (recordBytes type records ++ rest)) := by
      rw [recordBytes_cons, append_assoc, append_assoc]
    have hnext (other) (hmem : other ∈ records) : other.Accepted (r.apply data).length := by
      rw [length_apply]
      exact hresta other hmem
    rw [hfuel, hbytes, patchLoop_header htype hr, if_neg (Nat.not_lt.mpr hra.1),
      patchRecord_of_accepted hr hra]
    exact ih hrest hnext

/-- A patch that is applied has records that are accepted. -/
theorem accepted_of_patched (htype : type ≠ .error) (hformed : ∀ r ∈ records, r.WellFormed type)
    {output : List UInt8}
    (hpatched : patchLoop type fuel data temp (encodeRecords type records) = .patched output) :
    ∀ r ∈ records, r.Accepted data.length := by
  induction records generalizing fuel data temp with
  | nil => simp
  | cons r records ih =>
    obtain ⟨hr, hrest⟩ := forall_mem_cons.mp hformed
    cases fuel with
    | zero => cases hpatched
    | succ fuel =>
      rw [encodeRecords, append_assoc, patchLoop_header htype hr] at hpatched
      by_cases hoffset : r.offset > data.length
      · rw [if_pos hoffset] at hpatched
        cases hpatched
      rw [if_neg hoffset] at hpatched
      by_cases hra : r.Accepted data.length
      · rw [patchRecord_of_accepted hr hra] at hpatched
        have hnext := ih hrest hpatched
        refine forall_mem_cons.mpr ⟨hra, fun other hmem => ?_⟩
        have hother := hnext other hmem
        rwa [length_apply] at hother
      · rcases patchRecord_of_not_accepted hr (Nat.not_lt.mp hoffset) hra
          (encodeRecords type records) with hnull | hover
        · rw [hnull] at hpatched
          cases hpatched
        · rw [hover] at hpatched
          cases hpatched

/-! ## Parts of a patch -/

/-- A list that breaks off in an append breaks off in its first or in its second part. -/
theorem prefix_append_cases {a b : List UInt8} (h : part <+: a ++ b) :
    (part <+: a ∧ part ≠ a) ∨ ∃ part', part = a ++ part' ∧ part' <+: b := by
  obtain ⟨rest, hrest⟩ := h
  rcases append_eq_append_iff.mp hrest with ⟨m, rfl, -⟩ | ⟨m, rfl, hb⟩
  · by_cases hm : m = []
    · exact .inr ⟨[], by simp [hm], nil_prefix⟩
    · refine .inl ⟨prefix_append part m, fun heq => hm ?_⟩
      exact self_eq_append_right.mp heq
  · exact .inr ⟨m, rfl, ⟨rest, hb.symm⟩⟩

/-- Where a patch breaks off: in its records, or in the marker. -/
theorem exists_cut (hpart : part <+: encodeRecords type records)
    (hne : part ≠ encodeRecords type records) :
    ∃ before after last, records = before ++ after ∧ part = recordBytes type before ++ last ∧
      ((after = [] ∧ last <+: type.eof ∧ last ≠ type.eof) ∨
        ∃ r later, after = r :: later ∧ last <+: r.header type ++ r.body ∧
          last ≠ r.header type ++ r.body) := by
  induction records generalizing part with
  | nil => exact ⟨[], [], part, rfl, rfl, .inl ⟨rfl, hpart, hne⟩⟩
  | cons r records ih =>
    rw [encodeRecords] at hpart hne
    rcases prefix_append_cases hpart with ⟨hlast, hlastne⟩ | ⟨part', rfl, hpart'⟩
    · exact ⟨[], r :: records, part, rfl, rfl, .inr ⟨r, records, rfl, hlast, hlastne⟩⟩
    · obtain ⟨before, after, last, hsplit, hbytes, hcases⟩ := ih hpart' fun heq => hne (by rw [heq])
      refine ⟨r :: before, after, last, by rw [hsplit, cons_append], ?_, hcases⟩
      rw [hbytes, recordBytes_cons, append_assoc, append_assoc, append_assoc]

theorem length_le_recordBytes (type : IPSFileType) (records : List IpsRecord) :
    records.length ≤ (recordBytes type records).length := by
  induction records with
  | nil => exact le_refl 0
  | cons r records ih =>
    have hlength : (r.header type).length = type.width := length_bigEndianBytes _ _
    have hwidth : 0 < type.width := by cases type <;> decide
    rw [recordBytes_cons, length_cons, length_append, length_append]
    omega

/-- After the magic the loop runs over the rest of the patch. -/
theorem patchIPS_magic (htype : type ≠ .error) (hinput : input ≠ []) (rest : List UInt8) :
    patchIPS input (type.magic ++ rest) =
      patchLoop type (5 + rest.length) input (replicate type.width 0) rest := by
  have hlength : ¬input.length = 0 := fun h => hinput (length_eq_zero_iff.mp h)
  have hmagic : type.magic.length = 5 := by
    cases type with
    | ips => rfl
    | ips32 => rfl
    | error => rfl
  have htype' : identifyMagic type.magic = type := by
    cases type with
    | ips => rfl
    | ips32 => rfl
    | error => exact absurd rfl htype
  simp only [patchIPS, take_left' hmagic, drop_left' hmagic, htype', if_neg htype,
    if_neg hlength, length_append, hmagic]

/-- The loop may run more often than there are records. -/
theorem exists_fuel (type : IPSFileType) (records : List IpsRecord) (rest : List UInt8) :
    ∃ fuel, 5 + (recordBytes type records ++ rest).length = records.length + (fuel + 1) := by
  have hlength := length_le_recordBytes type records
  refine ⟨4 + (recordBytes type records ++ rest).length - records.length, ?_⟩
  rw [length_append]
  omega

/-- The loop ends in an offset that breaks off behind records that are accepted. -/
theorem patchIPS_short (htype : type ≠ .error) (hinput : input ≠ [])
    (hformed : ∀ r ∈ records, r.WellFormed type)
    (haccepted : ∀ r ∈ records, r.Accepted input.length) (hshort : rest.length < type.width) :
    patchIPS input (type.magic ++ (recordBytes type records ++ rest)) =
      finishPatch type (records.foldl IpsRecord.apply input)
        (rest ++ (lastHeader type (replicate type.width 0) records).drop rest.length) := by
  obtain ⟨fuel, hsplit⟩ := exists_fuel type records rest
  rw [patchIPS_magic htype hinput, hsplit, patchLoop_records htype hformed haccepted,
    patchLoop_short hshort]

theorem lastHeader_concat (before : List IpsRecord) (r : IpsRecord) :
    lastHeader type temp (before ++ [r]) = r.header type := by
  rw [lastHeader, foldl_append, foldl_cons, foldl_nil]

/-- An incomplete offset that is taken for a marker has a record before it. -/
theorem completesMarker_of_eq {before after : List IpsRecord} (htype : type ≠ .error)
    (hformed : ∀ r ∈ before ++ after, r.WellFormed type) (hshort : rest.length < type.width)
    (hrest : rest <+: encodeRecords type after)
    (heq : rest ++ (lastHeader type (replicate type.width 0) before).drop rest.length = type.eof) :
    CompletesMarker type (before ++ after) := by
  have htake : type.eof.take rest.length = rest := by rw [← heq, take_left]
  have hdrop : type.eof.drop rest.length =
      (lastHeader type (replicate type.width 0) before).drop rest.length := by
    rw [← heq, drop_left]
  rcases eq_nil_or_concat before with rfl | ⟨before, r, rfl⟩
  · -- before the first record the vector holds zeros, and the marker ends with another byte
    have hlast : 0x46 ∈ type.eof.drop rest.length := by
      generalize rest.length = k at hshort
      cases type with
      | ips => revert k; decide
      | ips32 => revert k; decide
      | error => exact absurd rfl htype
    rw [hdrop] at hlast
    have hzero := eq_of_mem_replicate (mem_of_mem_drop hlast)
    exact absurd hzero (by decide)
  · rw [concat_eq_append] at hdrop hformed ⊢
    rw [lastHeader_concat] at hdrop
    have hr := hformed r (by simp)
    refine ⟨before, r, after, rest.length, by simp, ?_, hshort, hdrop.symm, by rwa [htake]⟩
    refine pos_of_ne_zero fun hzero => hr.2.1 ?_
    rw [hzero] at hdrop
    exact hdrop.symm

theorem width_le_encodeRecords (htype : type ≠ .error) (records : List IpsRecord) :
    type.width ≤ (encodeRecords type records).length := by
  have hsplit := encodeRecords_append type records []
  rw [append_nil] at hsplit
  rw [hsplit, length_append, encodeRecords, length_eof htype]
  exact Nat.le_add_left _ _

/-- A patch that breaks off in a record or in its offset makes the call fail, unless the offset
completes the one before to a marker. -/
theorem patchIPS_part (htype : type ≠ .error) (hinput : input ≠ [])
    (hformed : ∀ r ∈ records, r.WellFormed type)
    (haccepted : ∀ r ∈ records, r.Accepted input.length) (hmarker : ¬CompletesMarker type records)
    (hpart : part <+: encodeRecords type records) (hne : part ≠ encodeRecords type records) :
    patchIPS input (type.magic ++ part) = .null := by
  obtain ⟨before, after, last, rfl, rfl, hcases⟩ := exists_cut hpart hne
  have hformed' : ∀ r ∈ before, r.WellFormed type := fun r hr => hformed r (by simp [hr])
  have haccepted' : ∀ r ∈ before, r.Accepted input.length := fun r hr => haccepted r (by simp [hr])
  by_cases hshort : last.length < type.width
  · rw [patchIPS_short htype hinput hformed' haccepted' hshort, finishPatch]
    have heof : ¬isEOF type (last ++ (lastHeader type (replicate type.width 0) before).drop
        last.length) = true := by
      rw [isEOF_iff htype]
      intro heq
      have hlast : last <+: encodeRecords type after := by
        rcases hcases with ⟨rfl, hlast, -⟩ | ⟨r, later, rfl, hlast, -⟩
        · exact hlast
        · exact hlast.trans (prefix_append _ _)
      exact hmarker (completesMarker_of_eq htype hformed hshort hlast heq)
    rw [Bool.eq_false_iff.mpr heof]
    rfl
  · rcases hcases with ⟨-, hlast, hlastne⟩ | ⟨r, later, rfl, hlast, hlastne⟩
    · -- the marker is not longer than an offset
      refine absurd (hlast.eq_of_length ?_) hlastne
      have := hlast.length_le
      rw [length_eof htype] at this ⊢
      omega
    · have hr := hformed r (by simp)
      have hra := haccepted r (by simp)
      have hheader : (r.header type).length = type.width := length_bigEndianBytes _ _
      rcases prefix_append_cases hlast with ⟨hin, hinne⟩ | ⟨body, rfl, hbody⟩
      · refine absurd (hin.eq_of_length ?_) hinne
        have := hin.length_le
        omega
      · have hbodyne : body ≠ r.body := fun heq => hlastne (by rw [heq])
        obtain ⟨fuel, hsplit⟩ := exists_fuel type before (r.header type ++ body)
        have hra' : r.Accepted (before.foldl IpsRecord.apply input).length := by
          rwa [length_foldl_apply]
        rw [patchIPS_magic htype hinput, hsplit, patchLoop_records htype hformed' haccepted',
          patchLoop_header htype hr, if_neg (Nat.not_lt.mpr hra'.1),
          patchRecord_of_part hr hra' hbody hbodyne]

theorem appliesPatch_iff (type : IPSFileType) (input : List UInt8) (records : List IpsRecord)
    (htype : type ≠ .error) (hformed : ∀ r ∈ records, r.WellFormed type) :
    AppliesPatch type input records ↔
      input ≠ [] ∧ (∀ r ∈ records, r.Accepted input.length) ∧ ¬CompletesMarker type records := by
  constructor
  · rintro ⟨hpatched, hparts⟩
    have hinput : input ≠ [] := by
      rintro rfl
      have hnull : patchIPS [] (encodePatch type records) = .null := by
        simp only [patchIPS, length_nil, if_true, ite_self]
      rw [hnull] at hpatched
      cases hpatched
    have haccepted : ∀ r ∈ records, r.Accepted input.length := by
      rw [encodePatch, patchIPS_magic htype hinput] at hpatched
      exact accepted_of_patched htype hformed hpatched
    refine ⟨hinput, haccepted, ?_⟩
    rintro ⟨before, r, after, k, rfl, hk, hwidth, hdrop, hprefix⟩
    have hsplit : before ++ r :: after = (before ++ [r]) ++ after := by simp
    rw [hsplit] at hformed haccepted hparts
    have hlength : (type.eof.take k).length = k := by
      rw [length_take, length_eof htype]
      omega
    have hpart := hparts (type.magic ++ (recordBytes type (before ++ [r]) ++ type.eof.take k))
      (by
        rw [encodePatch, encodeRecords_append, prefix_append_right_inj, prefix_append_right_inj]
        exact hprefix)
      (fun heq => by
        rw [encodePatch, encodeRecords_append, append_cancel_left_eq, append_cancel_left_eq] at heq
        have hlong := width_le_encodeRecords htype after
        rw [← heq, hlength] at hlong
        omega)
    rw [patchIPS_short htype hinput (fun r hr => hformed r (mem_append_left _ hr))
      (fun r hr => haccepted r (mem_append_left _ hr)) (by rwa [hlength]), hlength,
      lastHeader_concat, hdrop, take_append_drop, finishPatch,
      (isEOF_iff htype).mpr rfl] at hpart
    cases hpart
  · rintro ⟨hinput, haccepted, hmarker⟩
    refine ⟨?_, fun part hpart hne => ?_⟩
    · have hsplit := encodeRecords_append type records []
      rw [append_nil] at hsplit
      obtain ⟨fuel, hfuel⟩ := exists_fuel type records (encodeRecords type [])
      rw [encodePatch, hsplit, patchIPS_magic htype hinput, hfuel,
        patchLoop_records htype hformed haccepted]
      exact patchLoop_eof htype
    · rcases prefix_append_cases hpart with ⟨hmagic, hmagicne⟩ | ⟨part', rfl, hpart'⟩
      · have hlength : type.magic.length = 5 := by cases type <;> rfl
        have hshort : part.length ≠ 5 := fun heq =>
          hmagicne (hmagic.eq_of_length (heq.trans hlength.symm))
        have hle := hmagic.length_le
        have htype' : identifyMagic (part.take 5) = .error := by
          rw [identifyMagic, take_of_length_le (by omega), if_pos hshort]
        simp only [patchIPS, htype', if_true]
      · exact patchIPS_part htype hinput hformed haccepted hmarker hpart' fun heq =>
          hne (by rw [heq]; rfl)

/-- A standard record, and a run that goes beyond the end of the file. -/
def usualPatch : List IpsRecord := [.standard 1 [1, 2], .rle 3 9 7]

theorem appliesPatch_iff_usualPatch :
    AppliesPatch .ips32 [0, 0, 0, 0, 0] usualPatch ∧
      usualPatch.foldl IpsRecord.apply [0, 0, 0, 0, 0] = [0, 1, 2, 7, 7] := by
  refine ⟨(appliesPatch_iff .ips32 [0, 0, 0, 0, 0] usualPatch (by decide) ?_).mpr
    ⟨by decide, ?_, ?_⟩, rfl⟩
  · simp only [usualPatch, forall_mem_cons]
    exact ⟨⟨by decide, by decide, by decide, by decide⟩, ⟨by decide, by decide, by decide⟩, by simp⟩
  · simp only [usualPatch, forall_mem_cons]
    exact ⟨⟨by decide, by decide⟩, ⟨by decide, .inr (by decide)⟩, by simp⟩
  · rintro ⟨before, r, after, k, hsplit, hk, hwidth, hdrop, -⟩
    have hr : r ∈ usualPatch := by
      rw [hsplit]
      simp
    have hheaders : ∀ r ∈ usualPatch, ∀ k < 4, 0 < k →
        (r.header .ips32).drop k ≠ IPSFileType.ips32.eof.drop k := by decide
    exact hheaders r hr k hwidth hk hdrop

/-- A standard record over the end of the file is refused; a patch without its last byte is taken
for a patch, because the offset of its record ends like the marker. -/
theorem not_appliesPatch :
    (∀ r ∈ [IpsRecord.standard 2 [1, 2, 3], .standard 70 [1]], r.WellFormed .ips) ∧
      ¬AppliesPatch .ips [0, 0, 0, 0] [.standard 2 [1, 2, 3]] ∧
      ¬AppliesPatch .ips (replicate 80 0) [.standard 70 [1]] := by
  refine ⟨?_, fun h => absurd h.1 (by decide +kernel), fun h => ?_⟩
  · simp only [forall_mem_cons]
    exact ⟨⟨by decide, by decide, by decide, by decide⟩,
      ⟨by decide, by decide, by decide, by decide⟩, by simp⟩
  · have hpart := h.2 ((encodePatch .ips [.standard 70 [1]]).take 13) ( take_prefix _ _)
      (by decide +kernel)
    exact absurd hpart (by decide +kernel)

end Sudachi.FileSys
