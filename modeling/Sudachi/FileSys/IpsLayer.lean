import Mathlib.Data.List.Basic
import Mathlib.Algebra.Order.Ring.Nat

/-!
# Patches in the IPS format

`PatchIPS` of `ips_layer.cpp`. The offset into the patch only moves forward, over bytes that have
been read, so the patch is the list of the bytes that are left. A write past the end of the vector
is an outcome of its own (`PatchResult.overrun`).
-/

set_option autoImplicit false

namespace Sudachi.FileSys

inductive IPSFileType where
  | ips | ips32 | error
  deriving DecidableEq

/-- `PATCH`. -/
def patchMagic : List UInt8 := [0x50, 0x41, 0x54, 0x43, 0x48]

/-- `IPS32`. -/
def ips32Magic : List UInt8 := [0x49, 0x50, 0x53, 0x33, 0x32]

def identifyMagic (magic : List UInt8) : IPSFileType :=
  if magic.length ≠ 5 then .error
  else if magic = patchMagic then .ips
  else if magic = ips32Magic then .ips32
  else .error

/-- The markers `EOF` and `EEOF`. -/
def IPSFileType.eof : IPSFileType → List UInt8
  | .ips => [0x45, 0x4f, 0x46]
  | _ => [0x45, 0x45, 0x4f, 0x46]

def isEOF (type : IPSFileType) (data : List UInt8) : Bool :=
  (type == .ips && data == type.eof) || (type == .ips32 && data == type.eof)

/-- The number of bytes in `temp`. -/
def IPSFileType.width : IPSFileType → Nat
  | .ips => 3
  | _ => 4

/-- The number that bytes stand for, the first one being the highest. -/
def bigEndian (bytes : List UInt8) : Nat := bytes.foldl (fun n byte => n * 256 + byte.toNat) 0

/-- What `PatchIPS` comes to. -/
inductive PatchResult where
  | null
  | patched (data : List UInt8)
  | overrun
  deriving DecidableEq

/-- `memset`, `memcpy` and `Read` into the vector. -/
def writeAt (data : List UInt8) (offset : Nat) (bytes : List UInt8) : List UInt8 :=
  data.take offset ++ bytes ++ data.drop (offset + bytes.length)

/-- How much of a record goes into the file: the sum is a number of 32 bits, and the rest of the
file one of 16. -/
def clipSize (fileSize realOffset size : Nat) : Nat :=
  if (realOffset + size) % 2 ^ 32 > fileSize then (fileSize - realOffset) % 2 ^ 16 else size

/-- What a record makes of the file, and the bytes behind it. -/
inductive RecordResult where
  | null
  | overrun
  | next (data rest : List UInt8)

/-- The run-length branch of the loop, behind the two sizes. -/
def patchRle (data : List UInt8) (realOffset rleSize : Nat) : List UInt8 → RecordResult
  | [] => .null
  | value :: rest =>
    let size := clipSize data.length realOffset rleSize
    if data.length < realOffset + size then .overrun
    else .next (writeAt data realOffset (List.replicate size value)) rest

/-- The other branch; `Read` delivers what is there. -/
def patchStandard (data : List UInt8) (realOffset dataSize : Nat) (rest : List UInt8) :
    RecordResult :=
  let bytes := rest.take (clipSize data.length realOffset dataSize)
  if data.length < realOffset + bytes.length then .overrun
  else if bytes.length ≠ dataSize then .null
  else .next (writeAt data realOffset bytes) (rest.drop dataSize)

/-- The loop behind the offset of a record. -/
def patchRecord (data : List UInt8) (realOffset : Nat) : List UInt8 → RecordResult
  | high :: low :: rest =>
    let dataSize := bigEndian [high, low]
    if dataSize = 0 then
      match rest with
      | high :: low :: rest => patchRle data realOffset (bigEndian [high, low]) rest
      | _ => .null
    else patchStandard data realOffset dataSize rest
  | _ => .null

/-- What follows the loop. -/
def finishPatch (type : IPSFileType) (data temp : List UInt8) : PatchResult :=
  if !isEOF type temp then .null else .patched data

/-- The loop, with a bound on how often it runs. -/
def patchLoop (type : IPSFileType) : Nat → List UInt8 → List UInt8 → List UInt8 → PatchResult
  | 0, _, _, _ => .null
  | fuel + 1, data, temp, rest =>
    if rest.length < type.width then finishPatch type data (rest ++ temp.drop rest.length)
    else
      let temp := rest.take type.width
      let rest := rest.drop type.width
      if isEOF type temp then finishPatch type data temp
      else if bigEndian temp > data.length then .null
      else
        match patchRecord data (bigEndian temp) rest with
        | .null => .null
        | .overrun => .overrun
        | .next data rest => patchLoop type fuel data temp rest

/-- `PatchIPS`; each turn of the loop reads at least one byte. -/
def patchIPS (input ips : List UInt8) : PatchResult :=
  let type := identifyMagic (ips.take 5)
  if type = .error then .null
  else if input.length = 0 then .null
  else patchLoop type ips.length input (List.replicate type.width 0) (ips.drop 5)

/-! ## Patches -/

/-- The bytes of a number, the highest one first. -/
def bigEndianBytes : Nat → Nat → List UInt8
  | 0, _ => []
  | width + 1, n => bigEndianBytes width (n / 256) ++ [UInt8.ofNat (n % 256)]

inductive IpsRecord where
  | standard (offset : Nat) (bytes : List UInt8)
  | rle (offset size : Nat) (value : UInt8)

namespace IpsRecord

def offset : IpsRecord → Nat
  | standard offset _ => offset
  | rle offset _ _ => offset

/-- The bytes that the record puts into the file. -/
def bytes : IpsRecord → List UInt8
  | standard _ bytes => bytes
  | rle _ size value => List.replicate size value

/-- The record in the patch, behind its offset. -/
def body : IpsRecord → List UInt8
  | standard _ bytes => bigEndianBytes 2 bytes.length ++ bytes
  | rle _ size value => bigEndianBytes 2 0 ++ bigEndianBytes 2 size ++ [value]

def header (type : IPSFileType) (r : IpsRecord) : List UInt8 := bigEndianBytes type.width r.offset

/-- The numbers of the record fit into their fields, and it does not begin like the end of a patch.
-/
def WellFormed (type : IPSFileType) (r : IpsRecord) : Prop :=
  r.offset < 256 ^ type.width ∧ r.header type ≠ type.eof ∧
    match r with
    | standard _ bytes => 0 < bytes.length ∧ bytes.length < 2 ^ 16
    | rle _ size _ => size < 2 ^ 16

/-- The record is applied; what lies beyond the end of the file is dropped. -/
def apply (data : List UInt8) (r : IpsRecord) : List UInt8 :=
  data.mapIdx fun i byte => if r.offset ≤ i then r.bytes.getD (i - r.offset) byte else byte

/-- The records that `PatchIPS` applies so: the offset is in the file or at its end, a standard
record ends in the file, and a run-length one in the file or below the last number of 32 bits. -/
def Accepted (fileSize : Nat) (r : IpsRecord) : Prop :=
  r.offset ≤ fileSize ∧
    match r with
    | standard offset bytes => offset + bytes.length ≤ fileSize
    | rle offset size _ => offset + size ≤ fileSize ∨ offset + size < 2 ^ 32

end IpsRecord

def IPSFileType.magic : IPSFileType → List UInt8
  | .ips => patchMagic
  | _ => ips32Magic

/-- The records and the end marker. -/
def encodeRecords (type : IPSFileType) : List IpsRecord → List UInt8
  | [] => type.eof
  | r :: records => r.header type ++ r.body ++ encodeRecords type records

def encodePatch (type : IPSFileType) (records : List IpsRecord) : List UInt8 :=
  type.magic ++ encodeRecords type records

/-- The patch is applied, and no part of it is taken for a patch. -/
def AppliesPatch (type : IPSFileType) (input : List UInt8) (records : List IpsRecord) : Prop :=
  patchIPS input (encodePatch type records) = .patched (records.foldl IpsRecord.apply input) ∧
    ∀ part, part <+: encodePatch type records → part ≠ encodePatch type records →
      patchIPS input part = .null

/-- The offset of a record ends like the marker, and what follows the record begins with the bytes
that are missing. -/
def CompletesMarker (type : IPSFileType) (records : List IpsRecord) : Prop :=
  ∃ before r after k, records = before ++ r :: after ∧ 0 < k ∧ k < type.width ∧
    (r.header type).drop k = type.eof.drop k ∧ type.eof.take k <+: encodeRecords type after

end Sudachi.FileSys
