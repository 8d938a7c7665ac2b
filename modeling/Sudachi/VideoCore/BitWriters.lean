import Sudachi.Foundations.BitString

/-!
# `Tegra::Decoders::H264BitWriter` and `Tegra::Decoders::VpxBitStreamWriter`

The two writers of headers for the host's video decoder, and the descriptors of the two formats with
which a decoder reads them. Both writers collect bits in a buffer of eight bits and have the same
loop, except that one shifts signed values and the other one unsigned values. A shift of a 32-bit
value by 32 or more is not defined in the source, so that calls with sizes of more than 32 bits have
no meaning here.
-/

set_option autoImplicit false

namespace Sudachi.VideoCore

open Foundations

/-- `buffer_size`. -/
def bufferSize : Nat := 8

/-- The members that the two writers share. -/
structure BitWriter where
  byteArray : List (BitVec 8)
  buffer : BitVec 32
  bufferPos : Nat
  bufferPos_le : bufferPos ≤ bufferSize

namespace BitWriter

/-- A writer as it is constructed. -/
def new : BitWriter := ⟨[], 0, 0, Nat.zero_le _⟩

def flush (w : BitWriter) : BitWriter :=
  if w.bufferPos = 0 then w
  else ⟨w.byteArray ++ [w.buffer.setWidth 8], 0, 0, Nat.zero_le _⟩

/-- The writer after `GetFreeBufferBits`, which makes room in the buffer. -/
def makeRoom (w : BitWriter) : BitWriter := if w.bufferPos = bufferSize then w.flush else w

/-- The result of `GetFreeBufferBits` with the writer that it leaves. -/
def freeBufferBits (w : BitWriter) : Nat := bufferSize - w.bufferPos

theorem bufferPos_makeRoom_lt (w : BitWriter) : w.makeRoom.bufferPos < bufferSize := by
  rw [makeRoom]
  split
  · rename_i hfull
    rw [flush, if_neg (hfull ▸ by decide)]
    exact Nat.zero_lt_succ 7
  · rename_i hnot
    exact lt_of_le_of_ne w.bufferPos_le hnot

theorem freeBufferBits_pos (w : BitWriter) : 0 < w.makeRoom.freeBufferBits :=
  Nat.sub_pos_of_lt w.bufferPos_makeRoom_lt

/-- The writer with some bits behind the filled part of its buffer. -/
def put (w : BitWriter) (bits : BitVec 32) (copySize : Nat) (h : copySize ≤ w.freeBufferBits) :
    BitWriter where
  byteArray := w.byteArray
  buffer := w.buffer ||| bits <<< (bufferSize - w.bufferPos - copySize)
  bufferPos := w.bufferPos + copySize
  bufferPos_le := Nat.add_sub_cancel' w.bufferPos_le ▸ Nat.add_le_add_left h w.bufferPos

/-- The loop of `WriteBits`. -/
def writeBitsFrom (shiftRight : BitVec 32 → Nat → BitVec 32) (value : BitVec 32) (bitCount : Nat)
    (valuePos remaining : Nat) (w : BitWriter) : BitWriter :=
  if remaining = 0 then w
  else
    let w := w.makeRoom
    let copySize := min remaining w.freeBufferBits
    let mask := 1#32 <<< copySize - 1#32
    let srcShift := bitCount - valuePos - copySize
    writeBitsFrom shiftRight value bitCount (valuePos + copySize) (remaining - copySize)
      (w.put (shiftRight value srcShift &&& mask) copySize (Nat.min_le_right _ _))
termination_by remaining
decreasing_by
  rename_i hremaining
  exact Nat.sub_lt (Nat.pos_of_ne_zero hremaining)
    (Nat.lt_min.mpr ⟨Nat.pos_of_ne_zero hremaining, freeBufferBits_pos _⟩)

/-- `WriteBits`. -/
def writeBits (shiftRight : BitVec 32 → Nat → BitVec 32) (w : BitWriter) (value : BitVec 32)
    (bitCount : Nat) : BitWriter :=
  w.writeBitsFrom shiftRight value bitCount 0 bitCount

end BitWriter

/-- `std::countl_zero`. -/
def countlZero (value : BitVec 32) : Nat := value.clz.toNat

/-! ## H.264 -/

namespace H264BitWriter

/-- `WriteBits`, which takes a signed value. -/
def writeBits (w : BitWriter) (value : BitVec 32) (bitCount : Nat) : BitWriter :=
  w.writeBits BitVec.sshiftRight value bitCount

def writeExpGolombCodedUInt (w : BitWriter) (value : BitVec 32) : BitWriter :=
  let size := 32 - countlZero (value + 1)
  let w := writeBits w 1 size
  let value := value - (1#32 <<< (size - 1) - 1#32)
  writeBits w value (size - 1)

def writeExpGolombCodedInt (w : BitWriter) (value : BitVec 32) : BitWriter :=
  let sign : BitVec 32 := if value.toInt ≤ 0 then 0 else 1
  let value := if value.toInt < 0 then -value else value
  let value := value <<< 1 - sign
  writeExpGolombCodedUInt w value

def writeU (w : BitWriter) (value : BitVec 32) (valueSz : Nat) : BitWriter :=
  writeBits w value valueSz

def writeSe (w : BitWriter) (value : BitVec 32) : BitWriter := writeExpGolombCodedInt w value

def writeUe (w : BitWriter) (value : BitVec 32) : BitWriter := writeExpGolombCodedUInt w value

def writeBit (w : BitWriter) (state : Bool) : BitWriter := writeBits w (if state then 1 else 0) 1

/-- `End`. -/
def finish (w : BitWriter) : BitWriter := (writeBit w true).flush

end H264BitWriter

/-- The calls of the writing functions of `H264BitWriter`. -/
inductive H264Call where
  | writeU (value : BitVec 32) (valueSz : Nat)
  | writeUe (value : BitVec 32)
  | writeSe (value : BitVec 32)
  | writeBit (state : Bool)

/-- The descriptors `u(n)`, `ue(v)` and `se(v)` of H.264. -/
inductive H264Descriptor where
  | u (n : Nat)
  | ue
  | se

namespace H264Call

def run (w : BitWriter) : H264Call → BitWriter
  | writeU value valueSz => H264BitWriter.writeU w value valueSz
  | writeUe value => H264BitWriter.writeUe w value
  | writeSe value => H264BitWriter.writeSe w value
  | writeBit state => H264BitWriter.writeBit w state

/-- The descriptor of the element that a call writes. -/
def descriptor : H264Call → H264Descriptor
  | writeU _ valueSz => .u valueSz
  | writeUe _ => .ue
  | writeSe _ => .se
  | writeBit _ => .u 1

/-- The value of the element that a call writes. -/
def value : H264Call → Int
  | writeU value _ => value.toNat
  | writeUe value => value.toNat
  | writeSe value => value.toInt
  | writeBit state => state.toNat

/-- The value is one that the syntax element has. -/
def Fits : H264Call → Prop
  | writeU value valueSz => valueSz ≤ 32 ∧ value.toNat < 2 ^ valueSz
  | writeUe value => value.toNat < 2 ^ 32 - 1
  | writeSe value => -2 ^ 31 < value.toInt
  | writeBit _ => True

instance (call : H264Call) : Decidable call.Fits :=
  match call with
  | writeU value valueSz => inferInstanceAs (Decidable (valueSz ≤ 32 ∧ value.toNat < 2 ^ valueSz))
  | writeUe value => inferInstanceAs (Decidable (value.toNat < 2 ^ 32 - 1))
  | writeSe value => inferInstanceAs (Decidable (-2 ^ 31 < value.toInt))
  | writeBit _ => inferInstanceAs (Decidable True)

end H264Call

/-- The value that `se(v)` gives to a code number. -/
def seOfCodeNum (codeNum : Nat) : Int :=
  if codeNum % 2 = 1 then (codeNum + 1) / 2 else -(codeNum / 2)

def H264Descriptor.read : H264Descriptor → List Bool → Option (Int × List Bool)
  | u n, bits => (readBits n bits).map fun found => (found.1, found.2)
  | ue, bits => (readExpGolomb bits).map fun found => (found.1, found.2)
  | se, bits => (readExpGolomb bits).map fun found => (seOfCodeNum found.1, found.2)

/-- The bits of a byte array. -/
def bitsOfBytes (bytes : List (BitVec 8)) : List Bool :=
  bytes.flatMap fun byte => bitsOf 8 byte.toNat

/-- The byte array after some calls and `End`. -/
def h264Bytes (calls : List H264Call) : List (BitVec 8) :=
  (H264BitWriter.finish (calls.foldl H264Call.run .new)).byteArray

/-- The values of the calls come back, and a stop bit and less than a byte of zeros follow. -/
def H264RoundTrips (calls : List H264Call) : Prop :=
  ∃ padding < 8, readAll H264Descriptor.read (calls.map (·.descriptor))
    (bitsOfBytes (h264Bytes calls)) =
      some (calls.map (·.value), true :: List.replicate padding false)

/-! ## VP9 -/

namespace VpxBitStreamWriter

/-- `WriteBits`, which takes an unsigned value. -/
def writeBits (w : BitWriter) (value : BitVec 32) (bitCount : Nat) : BitWriter :=
  w.writeBits BitVec.ushiftRight value bitCount

def writeU (w : BitWriter) (value : BitVec 32) (valueSize : Nat) : BitWriter :=
  writeBits w value valueSize

def writeS (w : BitWriter) (value : BitVec 32) (valueSize : Nat) : BitWriter :=
  let sign : Bool := value.toInt < 0
  let value := if sign then -value else value
  writeBits w (value <<< 1 ||| if sign then 1 else 0) (valueSize + 1)

def writeBit (w : BitWriter) (state : Bool) : BitWriter := writeBits w (if state then 1 else 0) 1

def writeDeltaQ (w : BitWriter) (value : BitVec 32) : BitWriter :=
  let deltaCoded : Bool := value ≠ 0
  let w := writeBit w deltaCoded
  if deltaCoded then writeBits w value 4 else w

end VpxBitStreamWriter

/-- The calls of the writing functions of `VpxBitStreamWriter`. -/
inductive VpxCall where
  | writeU (value : BitVec 32) (valueSize : Nat)
  | writeS (value : BitVec 32) (valueSize : Nat)
  | writeBit (state : Bool)
  | writeDeltaQ (value : BitVec 32)

/-- The descriptors `f(n)` and `su(n)` and the syntax of `delta_q` of VP9. -/
inductive VpxDescriptor where
  | f (n : Nat)
  | su (n : Nat)
  | deltaQ

namespace VpxCall

def run (w : BitWriter) : VpxCall → BitWriter
  | writeU value valueSize => VpxBitStreamWriter.writeU w value valueSize
  | writeS value valueSize => VpxBitStreamWriter.writeS w value valueSize
  | writeBit state => VpxBitStreamWriter.writeBit w state
  | writeDeltaQ value => VpxBitStreamWriter.writeDeltaQ w value

/-- The descriptor of the element that a call writes. -/
def descriptor : VpxCall → VpxDescriptor
  | writeU _ valueSize => .f valueSize
  | writeS _ valueSize => .su valueSize
  | writeBit _ => .f 1
  | writeDeltaQ _ => .deltaQ

/-- The value of the element that a call writes. -/
def value : VpxCall → Int
  | writeU value _ => value.toNat
  | writeS value _ => value.toInt
  | writeBit state => state.toNat
  | writeDeltaQ value => value.toInt

/-- The value is one that the syntax element has. -/
def Fits : VpxCall → Prop
  | writeU value valueSize => valueSize ≤ 32 ∧ value.toNat < 2 ^ valueSize
  | writeS value valueSize => valueSize < 32 ∧ value.toInt.natAbs < 2 ^ valueSize
  | writeBit _ => True
  | writeDeltaQ value => value.toInt.natAbs < 2 ^ 4

instance (call : VpxCall) : Decidable call.Fits :=
  match call with
  | writeU value valueSize =>
    inferInstanceAs (Decidable (valueSize ≤ 32 ∧ value.toNat < 2 ^ valueSize))
  | writeS value valueSize =>
    inferInstanceAs (Decidable (valueSize < 32 ∧ value.toInt.natAbs < 2 ^ valueSize))
  | writeBit _ => inferInstanceAs (Decidable True)
  | writeDeltaQ value => inferInstanceAs (Decidable (value.toInt.natAbs < 2 ^ 4))

/-- The number of bits that a call writes. -/
def bitCount : VpxCall → Nat
  | writeU _ valueSize => valueSize
  | writeS _ valueSize => valueSize + 1
  | writeBit _ => 1
  | writeDeltaQ value => if value = 0 then 1 else 5

end VpxCall

namespace VpxDescriptor

/-- `su(n)`: a value and its sign. -/
def readSigned (n : Nat) (bits : List Bool) : Option (Int × List Bool) :=
  (readBits n bits).bind fun value =>
    (readBits 1 value.2).map fun sign =>
      (if sign.1 = 1 then -(value.1 : Int) else value.1, sign.2)

/-- `read_delta_q`: a flag, and behind a flag that is set the value as `su(4)`. -/
def readDeltaQ (bits : List Bool) : Option (Int × List Bool) :=
  (readBits 1 bits).bind fun deltaCoded =>
    if deltaCoded.1 = 1 then readSigned 4 deltaCoded.2 else some (0, deltaCoded.2)

def read : VpxDescriptor → List Bool → Option (Int × List Bool)
  | f n, bits => (readBits n bits).map fun found => (found.1, found.2)
  | su n, bits => readSigned n bits
  | deltaQ, bits => readDeltaQ bits

end VpxDescriptor

/-- The byte array after some calls and `Flush`. -/
def vpxBytes (calls : List VpxCall) : List (BitVec 8) :=
  (calls.foldl VpxCall.run .new).flush.byteArray

/-- The values of the calls come back. -/
def VpxRoundTrips (calls : List VpxCall) : Prop :=
  ∃ rest, readAll VpxDescriptor.read (calls.map (·.descriptor)) (bitsOfBytes (vpxBytes calls)) =
    some (calls.map (·.value), rest)

end Sudachi.VideoCore
