import Sudachi.Common.Alignment
import Sudachi.Foundations.Intervals

/-!
# Receive lists

`ReceiveList` of `k_server_session.cpp` and the pointer descriptors of a message, from
`message_buffer.h`. The receive list of a message says where the pointer buffers of the message that
answers it go: behind the answer in the message buffer, one behind the other into a single entry, or
each into the entry that its descriptor names. A key holds, for the first two, how much of the space
is taken.

`processPointers_placed` says where the buffers of a message are.
-/

set_option autoImplicit false

namespace Sudachi.Kernel

open Sudachi.Common Sudachi.Foundations.Intervals Nat BitVec Function

/-- `PointerTransferBufferAlignment`. -/
def pointerTransferBufferAlignment : BitVec 64 := 0x10

namespace MessageBuffer

/-- `MessageHeader`. -/
structure MessageHeader where
  raw0 : BitVec 32
  raw1 : BitVec 32

/-- `GetPointerCount`, a field of four bits. -/
def MessageHeader.getPointerCount (header : MessageHeader) : BitVec 4 :=
  header.raw0.extractLsb' 16 4

/-- `GetReceiveListCount`, a field of four bits. -/
def MessageHeader.getReceiveListCount (header : MessageHeader) : BitVec 4 :=
  header.raw1.extractLsb' 10 4

/-- `ReceiveListCountType_CountOffset`. -/
def countOffset : Nat := 2

/-- `PointerDescriptor`. -/
structure PointerDescriptor where
  raw0 : BitVec 32
  raw1 : BitVec 32

namespace PointerDescriptor

def getIndex (d : PointerDescriptor) : BitVec 4 := d.raw0.extractLsb' 0 4

def getSize (d : PointerDescriptor) : BitVec 16 := d.raw0.extractLsb' 16 16

def getAddress (d : PointerDescriptor) : BitVec 64 :=
  let addressHigh := (d.raw0.extractLsb' 6 3).setWidth 32
  let addressMid := (d.raw0.extractLsb' 12 4).setWidth 32
  ((addressHigh <<< 4 ||| addressMid).setWidth 64 <<< 32) ||| d.raw1.setWidth 64

/-- The constructor from a buffer, a size and an index. -/
def ofBuffer (buffer : BitVec 64) (size : BitVec 16) (index : BitVec 4) : PointerDescriptor where
  raw0 := index.setWidth 32 ||| ((buffer >>> 36).setWidth 3).setWidth 32 <<< 6 |||
    ((buffer >>> 32).setWidth 4).setWidth 32 <<< 12 ||| size.setWidth 32 <<< 16
  raw1 := buffer.setWidth 32

end PointerDescriptor

/-- `ReceiveListEntry`. -/
structure ReceiveListEntry where
  raw0 : BitVec 32
  raw1 : BitVec 32

namespace ReceiveListEntry

def getAddress (e : ReceiveListEntry) : BitVec 64 :=
  ((e.raw1.extractLsb' 0 7).setWidth 64 <<< 32) ||| e.raw0.setWidth 64

def getSize (e : ReceiveListEntry) : BitVec 64 := (e.raw1.extractLsb' 16 16).setWidth 64

end ReceiveListEntry

end MessageBuffer

open MessageBuffer

/-- `AlignUp` on a `u64`. -/
def alignUp64 (value size : BitVec 64) : BitVec 64 :=
  let mod := value % size
  let value := value - mod
  if mod = 0 then value else value + size

/-- `ReceiveList`. The key is an `int`. -/
structure ReceiveList where
  data : Nat → BitVec 32
  recvListCount : BitVec 4
  msgBufferEnd : BitVec 64
  msgBufferSpaceEnd : BitVec 64

namespace ReceiveList

/-- The constructor, with the words of the destination message. -/
def ofMessage (dstMsg : Nat → BitVec 32) (dstAddress : BitVec 64) (dstHeader : MessageHeader)
    (msgSize outOffset : BitVec 64) (dstRecvListIdx : Nat) : ReceiveList where
  data i := dstMsg (dstRecvListIdx + i)
  recvListCount := dstHeader.getReceiveListCount
  msgBufferEnd := dstAddress + 4 * outOffset
  msgBufferSpaceEnd := dstAddress + msgSize

/-- `IsIndex`. -/
def isIndex (l : ReceiveList) : Bool := countOffset < l.recvListCount.toNat

/-- `IsToMessageBuffer`. -/
def isToMessageBuffer (l : ReceiveList) : Bool := l.recvListCount = 1

/-- The entry with the given number. -/
def entry (l : ReceiveList) (i : Nat) : ReceiveListEntry := ⟨l.data (2 * i), l.data (2 * i + 1)⟩

/-- `GetBuffer`, with the values of `out` and `key` that it leaves. For an indexed list the key is
the index of a descriptor. -/
def getBuffer (l : ReceiveList) (out size : BitVec 64) (key : BitVec 32) :
    BitVec 64 × BitVec 32 :=
  match l.recvListCount with
  | 0 => (0, key)
  | 1 =>
    let buf := alignUp64 (l.msgBufferEnd + key.signExtend 64) pointerTransferBufferAlignment
    if buf < buf + size ∧ buf + size ≤ l.msgBufferSpaceEnd then
      (buf, (buf + size - l.msgBufferEnd).setWidth 32)
    else (0, key)
  | 2 =>
    let entry := l.entry 0
    let buf := alignUp64 (entry.getAddress + key.signExtend 64) pointerTransferBufferAlignment
    let entryAddr := entry.getAddress
    let entrySize := entry.getSize
    if buf < buf + size ∧ entryAddr < entryAddr + entrySize ∧ buf + size ≤ entryAddr + entrySize
    then (buf, (buf + size - entryAddr).setWidth 32)
    else (0, key)
  | count =>
    if key.toInt < (count.toNat : Int) - countOffset then
      let entry := l.entry key.toNat
      let entryAddr := entry.getAddress
      let entrySize := entry.getSize
      if entryAddr < entryAddr + entrySize ∧ size ≤ entrySize then (entryAddr, key)
      else (out, key)
    else (0, key)

end ReceiveList

/-- The results of the processing of a pointer descriptor. -/
inductive PointerResult where
  | success
  | outOfResource
  | copyFailed (raw : Nat)
  deriving DecidableEq

/-- A call of `GetBuffer` for a descriptor with the given index, and the buffer that it gives. -/
structure BufferCall where
  index : BitVec 4
  size : BitVec 16
  pointer : BitVec 64

/-- The local variables `offset` and `pointer_key`, the words of the destination message, and the
calls of `GetBuffer` so far. -/
structure PointerCursor where
  offset : Nat
  pointerKey : BitVec 32
  dstMsg : Nat → BitVec 32
  calls : List BufferCall

/-- `dst_msg.Set` with a pointer descriptor. -/
def PointerCursor.set (c : PointerCursor) (offset : Nat) (d : PointerDescriptor) : PointerCursor :=
  { c with
    dstMsg := update (update c.dstMsg offset d.raw0) (offset + 1) d.raw1 }

/-- The common body of `ProcessReceiveMessagePointerDescriptors` and
`ProcessSendMessagePointerDescriptors`, which differ in the copy between the page tables: `copy` is
its result for a destination, a size and a source. -/
def processPointerDescriptor (copy : BitVec 64 → BitVec 16 → BitVec 64 → PointerResult)
    (srcMsg : Nat → BitVec 32) (l : ReceiveList) (c : PointerCursor) :
    PointerCursor × PointerResult :=
  let curOffset := c.offset
  let srcDesc : PointerDescriptor := ⟨srcMsg curOffset, srcMsg (curOffset + 1)⟩
  let c := { c with offset := c.offset + 2 }
  let srcPointer := srcDesc.getAddress
  let recvSize := srcDesc.getSize
  if recvSize ≠ 0 then
    let key := if l.isIndex then srcDesc.getIndex.setWidth 32 else c.pointerKey
    let (recvPointer, key) := l.getBuffer 0 (recvSize.setWidth 64) key
    let c := { c with
      pointerKey := key
      calls := c.calls ++ [⟨srcDesc.getIndex, recvSize, recvPointer⟩] }
    if recvPointer = 0 then (c, .outOfResource)
    else
      match copy recvPointer recvSize srcPointer with
      | .success => (c.set curOffset (.ofBuffer recvPointer recvSize srcDesc.getIndex), .success)
      | failed => (c, failed)
  else (c.set curOffset (.ofBuffer 0 recvSize srcDesc.getIndex), .success)

/-- The copies between the page tables. The flag of the last one says whether the destination is a
message buffer in the heap of a user. -/
structure PointerCopies where
  copyMemoryFromHeapToHeapWithoutCheckDestination :
    BitVec 64 → BitVec 16 → BitVec 64 → PointerResult
  copyMemoryFromLinearToUser : BitVec 64 → BitVec 16 → BitVec 64 → PointerResult
  copyMemoryFromUserToLinear : Bool → BitVec 64 → BitVec 16 → BitVec 64 → PointerResult

/-- `ProcessReceiveMessagePointerDescriptors`. -/
def processReceiveMessagePointerDescriptors (copies : PointerCopies) (dstUser : Bool)
    (srcMsg : Nat → BitVec 32) (l : ReceiveList) (c : PointerCursor) :
    PointerCursor × PointerResult :=
  processPointerDescriptor
    (if dstUser then copies.copyMemoryFromHeapToHeapWithoutCheckDestination
      else copies.copyMemoryFromLinearToUser) srcMsg l c

/-- `ProcessSendMessagePointerDescriptors`. -/
def processSendMessagePointerDescriptors (copies : PointerCopies) (dstUser : Bool)
    (srcMsg : Nat → BitVec 32) (l : ReceiveList) (c : PointerCursor) :
    PointerCursor × PointerResult :=
  processPointerDescriptor (copies.copyMemoryFromUserToLinear (dstUser && l.isToMessageBuffer))
    srcMsg l c

/-- The loop over the pointer descriptors of a message: it stops at the first failure. -/
def processPointerLoop (process : PointerCursor → PointerCursor × PointerResult) :
    Nat → PointerCursor → PointerCursor × PointerResult
  | 0, c => (c, .success)
  | n + 1, c =>
    match process c with
    | (c, .success) => processPointerLoop process n c
    | (c, failed) => (c, failed)

/-- The pointer descriptors in `ReceiveMessage` and in `SendMessage`, from the offset behind the
special data. -/
def processPointers (process : PointerCursor → PointerCursor × PointerResult)
    (srcHeader : MessageHeader) (offset : Nat) (dstMsg : Nat → BitVec 32) :
    PointerCursor × PointerResult :=
  processPointerLoop process srcHeader.getPointerCount.toNat ⟨offset, 0, dstMsg, []⟩

/-- The buffers of the calls that gave one, with their sizes. -/
def buffers (calls : List BufferCall) : List (Nat × Nat) :=
  (calls.filter fun call => call.pointer ≠ 0).map fun call => (call.pointer.toNat, call.size.toNat)

/-- The buffer of the call is the start of the entry with the index of the descriptor, if there is
such an entry and the buffer fits, and null otherwise. -/
def ReceiveList.InEntry (l : ReceiveList) (call : BufferCall) : Prop :=
  call.pointer =
    if call.index.toNat + countOffset < l.recvListCount.toNat ∧
        call.size.toNat ≤ (l.entry call.index.toNat).getSize.toNat then
      (l.entry call.index.toNat).getAddress
    else 0

/-- Where the buffers of the calls are: behind the message and in front of the end of its buffer, in
the single entry, or in the entries. -/
def ReceiveList.Placed (l : ReceiveList) (calls : List BufferCall) : Prop :=
  match l.recvListCount with
  | 0 => buffers calls = []
  | 1 => ∃ top, Carved l.msgBufferEnd.toNat l.msgBufferSpaceEnd.toNat 16 top (buffers calls)
  | 2 => ∃ top, Carved (l.entry 0).getAddress.toNat
      ((l.entry 0).getAddress.toNat + (l.entry 0).getSize.toNat) 16 top (buffers calls)
  | _ => ∀ call ∈ calls, l.InEntry call

/-! ## Words -/

/-- `AlignUp` wraps only to zero. -/
theorem toNat_alignUp64 (v : BitVec 64) :
    (alignUp64 v pointerTransferBufferAlignment).toNat = alignUp v.toNat 16 % 2 ^ 64 := by
  have hmod : (v % pointerTransferBufferAlignment).toNat = v.toNat % 16 := toNat_umod
  have hle : v % pointerTransferBufferAlignment ≤ v := by
    rw [le_def, hmod]
    exact mod_le _ _
  have hsub := toNat_sub_of_le hle
  rw [hmod] at hsub
  rw [alignUp64, alignUp]
  by_cases hzero : v.toNat % 16 = 0
  · have hzero' : v % pointerTransferBufferAlignment = 0 := eq_of_toNat_eq (hmod.trans hzero)
    rw [if_pos hzero', if_pos hzero, hsub]
    omega
  · have hne : v % pointerTransferBufferAlignment ≠ 0 := by
      intro h
      exact hzero (hmod.symm.trans (congrArg BitVec.toNat h))
    rw [if_neg hne, if_neg hzero, toNat_add, hsub]
    rfl

/-- A key that is not negative, as a `u64`. -/
theorem toNat_signExtend {key : BitVec 32} (hkey : key.toNat < 2 ^ 31) :
    (key.signExtend 64).toNat = key.toNat := by
  have hmsb : key.msb = false := by
    rw [msb_eq_false_iff_two_mul_lt]
    omega
  rw [signExtend_eq_setWidth_of_msb_false hmsb, toNat_setWidth]
  omega

/-- An entry ends below the end of the addresses. -/
theorem MessageBuffer.ReceiveListEntry.bounds (e : ReceiveListEntry) :
    e.getAddress.toNat < 2 ^ 39 ∧ e.getSize.toNat < 2 ^ 16 := by
  constructor
  · have hhigh := (e.raw1.extractLsb' 0 7).isLt
    have hlow := e.raw0.isLt
    rw [ReceiveListEntry.getAddress, toNat_or]
    apply or_lt_two_pow
    · rw [toNat_shiftLeft, toNat_setWidth, Nat.shiftLeft_eq]
      omega
    · rw [toNat_setWidth]
      omega
  · have hlt := (e.raw1.extractLsb' 16 16).isLt
    rw [ReceiveListEntry.getSize, toNat_setWidth]
    omega

/-- An aligned buffer behind the part of the space that the key says is taken. -/
theorem buffer_spec {base buf size : BitVec 64} {key : BitVec 32}
    (hbuf : buf = alignUp64 (base + key.signExtend 64) pointerTransferBufferAlignment)
    (hkey : key.toNat < 2 ^ 31) (hroom : base.toNat + key.toNat < 2 ^ 64) (hne : buf ≠ 0)
    (hlt : buf < buf + size) : 16 ∣ buf.toNat ∧ base.toNat + key.toNat ≤ buf.toNat ∧
      buf.toNat < base.toNat + key.toNat + 16 ∧ (buf + size).toNat = buf.toNat + size.toNat := by
  have hsum : (base + key.signExtend 64).toNat = base.toNat + key.toNat := by
    rw [toNat_add, toNat_signExtend hkey, mod_eq_of_lt hroom]
  have hwrap : buf.toNat = alignUp (base.toNat + key.toNat) 16 % 2 ^ 64 := by
    rw [hbuf, toNat_alignUp64, hsum]
  have hdvd := dvd_alignUp (base.toNat + key.toNat) 16
  have hle := le_alignUp (base.toNat + key.toNat) 16 (by decide)
  have hless := alignUp_lt (base.toNat + key.toNat) (show 0 < 16 by decide)
  -- the next multiple of 16 is a `u64`, or the buffer would be null
  have hsmall : alignUp (base.toNat + key.toNat) 16 < 2 ^ 64 := by
    by_contra hover
    refine hne (eq_of_toNat_eq ?_)
    rw [hwrap]
    show _ = 0
    omega
  rw [mod_eq_of_lt hsmall] at hwrap
  refine ⟨hwrap ▸ hdvd, hwrap ▸ hle, hwrap ▸ hless, ?_⟩
  rw [lt_def, toNat_add] at hlt
  rw [toNat_add]
  omega

/-- The key behind a buffer. -/
theorem toNat_nextKey (base : BitVec 64) {buf size : BitVec 64} (hle : base.toNat ≤ buf.toNat)
    (hadd : (buf + size).toNat = buf.toNat + size.toNat)
    (hsmall : buf.toNat + size.toNat < base.toNat + 2 ^ 31) :
    ((buf + size - base).setWidth 32).toNat = buf.toNat + size.toNat - base.toNat := by
  have hsub : (buf + size - base).toNat = buf.toNat + size.toNat - base.toNat := by
    rw [toNat_sub_of_le (le_def.mpr (by omega)), hadd]
  rw [toNat_setWidth, hsub]
  omega

/-! ## One descriptor -/

/-- The descriptor under the cursor. -/
def PointerCursor.descriptor (c : PointerCursor) (srcMsg : Nat → BitVec 32) : PointerDescriptor :=
  ⟨srcMsg c.offset, srcMsg (c.offset + 1)⟩

/-- The key with which `GetBuffer` is called. -/
def PointerCursor.key (c : PointerCursor) (srcMsg : Nat → BitVec 32) (l : ReceiveList) :
    BitVec 32 :=
  if l.isIndex then (c.descriptor srcMsg).getIndex.setWidth 32 else c.pointerKey

variable (copy : BitVec 64 → BitVec 16 → BitVec 64 → PointerResult) {srcMsg : Nat → BitVec 32}
  {l : ReceiveList} {c : PointerCursor}

/-- A descriptor without a size takes no buffer. -/
theorem processPointerDescriptor_empty (l : ReceiveList) (h : (c.descriptor srcMsg).getSize = 0) :
    (processPointerDescriptor copy srcMsg l c).1.calls = c.calls ∧
      (processPointerDescriptor copy srcMsg l c).1.pointerKey = c.pointerKey := by
  have hsize : ¬(c.descriptor srcMsg).getSize ≠ 0 := not_not.mpr h
  rw [PointerCursor.descriptor] at hsize
  simp only [processPointerDescriptor, if_neg hsize]
  exact ⟨rfl, rfl⟩

/-- A descriptor with a size takes one buffer, and its processing does not succeed without one. -/
theorem processPointerDescriptor_call (h : (c.descriptor srcMsg).getSize ≠ 0)
    {pointer : BitVec 64} {key : BitVec 32}
    (hget : l.getBuffer 0 ((c.descriptor srcMsg).getSize.setWidth 64) (c.key srcMsg l) =
      (pointer, key)) : (processPointerDescriptor copy srcMsg l c).1.calls = c.calls ++
        [⟨(c.descriptor srcMsg).getIndex, (c.descriptor srcMsg).getSize, pointer⟩] ∧
      (processPointerDescriptor copy srcMsg l c).1.pointerKey = key ∧
      ((processPointerDescriptor copy srcMsg l c).2 = .success → pointer ≠ 0) := by
  simp only [PointerCursor.descriptor, PointerCursor.key] at h hget ⊢
  simp only [processPointerDescriptor, if_pos h, hget]
  by_cases hnull : pointer = 0
  · rw [if_pos hnull]
    exact ⟨rfl, rfl, fun hsuccess => by cases hsuccess⟩
  · rw [if_neg hnull]
    split
    · exact ⟨rfl, rfl, fun _ => hnull⟩
    · exact ⟨rfl, rfl, fun _ => hnull⟩

/-- The rule of the loop: an invariant that every successful descriptor carries on, and a property
that each of them leaves. -/
theorem processPointerLoop_spec {process : PointerCursor → PointerCursor × PointerResult}
    (Inv : Nat → PointerCursor → Prop) (P : PointerCursor → Prop) {bound : Nat}
    (hP : ∀ n c, Inv n c → P c) (hstep : ∀ n c, n < bound → Inv n c →
      P (process c).1 ∧ ((process c).2 = .success → Inv (n + 1) (process c).1))
    {n k : Nat} {c : PointerCursor} (hk : n + k ≤ bound) (h : Inv n c) :
    P (processPointerLoop process k c).1 := by
  induction k generalizing n c with
  | zero => exact hP n c h
  | succ k ih =>
    obtain ⟨hleaves, hnext⟩ := hstep n c (by omega) h
    rw [processPointerLoop]
    split
    case h_1 c' heq =>
      rw [heq] at hnext
      exact ih (by omega) (hnext rfl)
    case h_2 c' failed _ heq =>
      rw [heq] at hleaves
      exact hleaves

/-! ## One space for all buffers -/

namespace ReceiveList

/-- The list takes its buffers from the space between `base` and `limit`. -/
structure TakesFrom (l : ReceiveList) (base : BitVec 64) (limit : Nat) : Prop where
  isIndex : l.isIndex = false
  getBuffer : ∀ size key, l.getBuffer 0 size key = (0, key) ∨
    ∃ buf, buf = alignUp64 (base + key.signExtend 64) pointerTransferBufferAlignment ∧
      buf < buf + size ∧ (buf + size).toNat ≤ limit ∧
      l.getBuffer 0 size key = (buf, (buf + size - base).setWidth 32)

variable {l : ReceiveList}

theorem takesFrom_message (h : l.recvListCount = 1) :
    l.TakesFrom l.msgBufferEnd l.msgBufferSpaceEnd.toNat := by
  refine ⟨by rw [isIndex, h]; rfl, fun size key => ?_⟩
  rw [getBuffer, h]
  obtain ⟨buf, hbuf⟩ : ∃ buf, buf =
      alignUp64 (l.msgBufferEnd + key.signExtend 64) pointerTransferBufferAlignment := ⟨_, rfl⟩
  by_cases hfits : buf < buf + size ∧ buf + size ≤ l.msgBufferSpaceEnd
  · exact .inr ⟨buf, hbuf, hfits.1, le_def.mp hfits.2, hbuf ▸ if_pos (hbuf ▸ hfits)⟩
  · exact .inl (if_neg (hbuf ▸ hfits))

theorem takesFrom_single (h : l.recvListCount = 2) : l.TakesFrom (l.entry 0).getAddress
      ((l.entry 0).getAddress.toNat + (l.entry 0).getSize.toNat) := by
  have hbounds := (l.entry 0).bounds
  refine ⟨by rw [isIndex, h]; rfl, fun size key => ?_⟩
  rw [getBuffer, h]
  obtain ⟨buf, hbuf⟩ : ∃ buf, buf =
      alignUp64 ((l.entry 0).getAddress + key.signExtend 64) pointerTransferBufferAlignment :=
    ⟨_, rfl⟩
  by_cases hfits : buf < buf + size ∧
      (l.entry 0).getAddress < (l.entry 0).getAddress + (l.entry 0).getSize ∧
      buf + size ≤ (l.entry 0).getAddress + (l.entry 0).getSize
  · refine .inr ⟨buf, hbuf, hfits.1, ?_, hbuf ▸ if_pos (hbuf ▸ hfits)⟩
    have hle := le_def.mp hfits.2.2
    rwa [toNat_add (l.entry 0).getAddress, mod_eq_of_lt (by omega)] at hle
  · exact .inl (if_neg (hbuf ▸ hfits))

end ReceiveList

/-- `n` descriptors have been processed: the buffers are carved off the space, and the key says
where the last one ends. -/
structure Taking (base : BitVec 64) (limit n : Nat) (c : PointerCursor) : Prop where
  carved : Carved base.toNat limit 16 (base.toNat + c.pointerKey.toNat) (buffers c.calls)
  key_le : c.pointerKey.toNat ≤ n * 0x1000F
  room : base.toNat + c.pointerKey.toNat < 2 ^ 64

theorem buffers_append (calls : List BufferCall) (call : BufferCall) :
    buffers (calls ++ [call]) = buffers calls ++
      if call.pointer = 0 then [] else [(call.pointer.toNat, call.size.toNat)] := by
  rw [buffers, List.filter_append, List.map_append, buffers]
  by_cases hzero : call.pointer = 0
  · simp [hzero]
  · rw [if_neg hzero, List.filter_cons_of_pos (by simpa using hzero)]
    rfl

/-- One descriptor more. -/
theorem Taking.step {base : BitVec 64} {limit n : Nat} (hl : l.TakesFrom base limit)
    (h : Taking base limit n c) (hn : n < 15) (srcMsg : Nat → BitVec 32) :
    (∃ top, Carved base.toNat limit 16 top
        (buffers (processPointerDescriptor copy srcMsg l c).1.calls)) ∧
      ((processPointerDescriptor copy srcMsg l c).2 = .success →
        Taking base limit (n + 1) (processPointerDescriptor copy srcMsg l c).1) := by
  have hkeyle := h.key_le
  by_cases hempty : (c.descriptor srcMsg).getSize = 0
  · obtain ⟨hcalls, hkey⟩ := processPointerDescriptor_empty copy l hempty
    rw [hcalls]
    refine ⟨⟨_, h.carved⟩, fun _ => ⟨?_, ?_, ?_⟩⟩
    · rw [hcalls, hkey]
      exact h.carved
    · exact hkey ▸ hkeyle.trans (Nat.mul_le_mul_right _ (le_succ n))
    · exact hkey ▸ h.room
  have hc : c.key srcMsg l = c.pointerKey := by
    rw [PointerCursor.key, hl.isIndex]
    rfl
  rcases hl.getBuffer ((c.descriptor srcMsg).getSize.setWidth 64) c.pointerKey with
    hnull | ⟨buf, hbuf, hlt, hlimit, hget⟩
  · -- no buffer: the processing ends here
    obtain ⟨hcalls, -, hsuccess⟩ := processPointerDescriptor_call copy hempty (hc.symm ▸ hnull)
    rw [hcalls, buffers_append, if_pos rfl, List.append_nil]
    exact ⟨⟨_, h.carved⟩, fun heq => absurd rfl (hsuccess heq)⟩
  · obtain ⟨hcalls, hkey, hsuccess⟩ := processPointerDescriptor_call copy hempty (hc.symm ▸ hget)
    rw [hcalls, buffers_append]
    by_cases hzero : buf = 0
    · rw [if_pos hzero, List.append_nil]
      exact ⟨⟨_, h.carved⟩, fun heq => absurd hzero (hsuccess heq)⟩
    · have hsize : ((c.descriptor srcMsg).getSize.setWidth 64).toNat =
          (c.descriptor srcMsg).getSize.toNat := by
        rw [toNat_setWidth]
        omega
      have hbound := (c.descriptor srcMsg).getSize.isLt
      have hpos : 0 < (c.descriptor srcMsg).getSize.toNat := by
        rw [Nat.pos_iff_ne_zero]
        exact fun hzero => hempty (eq_of_toNat_eq hzero)
      obtain ⟨hdvd, hle, hless, hadd⟩ := buffer_spec hbuf (by omega) h.room hzero hlt
      have hnext := toNat_nextKey base (by omega) hadd (by omega)
      rw [hadd, hsize] at hlimit
      have hcarved := h.carved.push (r := (buf.toNat, (c.descriptor srcMsg).getSize.toNat)) hdvd
        hpos (by dsimp only; omega) hle hlimit
      rw [if_neg hzero]
      refine ⟨⟨_, hcarved⟩, fun _ => ⟨?_, ?_, ?_⟩⟩
      · rw [hcalls, buffers_append, if_neg hzero, hkey, hnext, hsize]
        rwa [Nat.add_sub_cancel' (by omega)]
      · rw [hkey, hnext, hsize]
        omega
      · rw [hkey, hnext]
        omega

/-! ## The buffers of a message -/

theorem getPointerCount_le (header : MessageHeader) : 0 + header.getPointerCount.toNat ≤ 15 := by
  have hlt := header.getPointerCount.isLt
  omega

/-- The buffers are carved off the space of a list that takes all of them from there. -/
theorem ReceiveList.TakesFrom.carved {base : BitVec 64} {limit : Nat} (hl : l.TakesFrom base limit)
    (srcMsg : Nat → BitVec 32) (srcHeader : MessageHeader) (offset : Nat)
    (dstMsg : Nat → BitVec 32) : ∃ top, Carved base.toNat limit 16 top (buffers (processPointers
      (processPointerDescriptor copy srcMsg l) srcHeader offset dstMsg).1.calls) := by
  have hstart : Taking base limit 0 ⟨offset, 0, dstMsg, []⟩ :=
    ⟨carved_nil _ _ _ _, le_refl 0, base.isLt⟩
  exact processPointerLoop_spec (Taking base limit)
    (fun c => ∃ top, Carved base.toNat limit 16 top (buffers c.calls)) (fun n c h => ⟨_, h.carved⟩)
    (fun n c hn h => h.step copy hl hn srcMsg) (getPointerCount_le srcHeader) hstart

/-- A list of no kind gives no buffer. -/
theorem buffers_none (h : l.recvListCount = 0) (srcMsg : Nat → BitVec 32)
    (srcHeader : MessageHeader) (offset : Nat) (dstMsg : Nat → BitVec 32) :
    buffers (processPointers (processPointerDescriptor copy srcMsg l) srcHeader offset
      dstMsg).1.calls = [] := by
  refine processPointerLoop_spec (fun _ c => buffers c.calls = []) (fun c => buffers c.calls = [])
    (fun _ c h => h) (fun n c _ hc => ?_) (getPointerCount_le srcHeader) rfl
  suffices hnone : buffers (processPointerDescriptor copy srcMsg l c).1.calls = [] from
    ⟨hnone, fun _ => hnone⟩
  by_cases hempty : (c.descriptor srcMsg).getSize = 0
  · rw [(processPointerDescriptor_empty copy l hempty).1]
    exact hc
  · have hget : l.getBuffer 0 ((c.descriptor srcMsg).getSize.setWidth 64) (c.key srcMsg l) =
        (0, c.key srcMsg l) := by
      rw [ReceiveList.getBuffer, h]
      rfl
    rw [(processPointerDescriptor_call copy hempty hget).1, buffers_append, hc]
    rfl

/-- `GetBuffer` of an indexed list. -/
theorem getBuffer_index (h : l.isIndex = true) {size : BitVec 16} (hsize : size ≠ 0)
    (index : BitVec 4) : (l.getBuffer 0 (size.setWidth 64) (index.setWidth 32)).1 =
      if index.toNat + countOffset < l.recvListCount.toNat ∧
          size.toNat ≤ (l.entry index.toNat).getSize.toNat then
        (l.entry index.toNat).getAddress
      else 0 := by
  have hindex : (index.setWidth 32).toNat = index.toNat := by
    have hlt := index.isLt
    rw [toNat_setWidth]
    omega
  have hint : (index.setWidth 32).toInt = index.toNat := by
    rw [toInt_eq_toNat_of_lt (by omega), hindex]
  have hcount : countOffset < l.recvListCount.toNat := of_decide_eq_true h
  have hbounds := (l.entry index.toNat).bounds
  have hwidth : (size.setWidth 64).toNat = size.toNat := by
    have hlt := size.isLt
    rw [toNat_setWidth]
    omega
  have hpos : 0 < size.toNat := pos_of_ne_zero fun hzero => hsize (eq_of_toNat_eq hzero)
  rw [ReceiveList.getBuffer]
  split
  case h_1 heq => rw [heq] at hcount; exact absurd hcount (by decide)
  case h_2 heq => rw [heq] at hcount; exact absurd hcount (by decide)
  case h_3 heq => rw [heq] at hcount; exact absurd hcount (by decide)
  case h_4 =>
    rw [hint, hindex]
    by_cases hentry : index.toNat + countOffset < l.recvListCount.toNat
    · have hentry' : (index.toNat : Int) < (l.recvListCount.toNat : Int) - countOffset := by omega
      -- an entry with room for the buffer does not wrap
      have hfits : ((l.entry index.toNat).getAddress <
          (l.entry index.toNat).getAddress + (l.entry index.toNat).getSize ∧
          size.setWidth 64 ≤ (l.entry index.toNat).getSize) ↔
          size.toNat ≤ (l.entry index.toNat).getSize.toNat := by
        rw [lt_def, le_def, hwidth, toNat_add, mod_eq_of_lt (by omega)]
        omega
      rw [if_pos hentry']
      simp only [hfits, hentry, true_and]
      split
      case isTrue => rfl
      case isFalse => rfl
    · have hentry' : ¬(index.toNat : Int) < (l.recvListCount.toNat : Int) - countOffset := by omega
      rw [if_neg hentry', if_neg fun hboth => hentry hboth.1]

/-- The buffers of an indexed list are those of the entries. -/
theorem calls_index (h : l.isIndex = true) (srcMsg : Nat → BitVec 32) (srcHeader : MessageHeader)
    (offset : Nat) (dstMsg : Nat → BitVec 32) :
    ∀ call ∈ (processPointers (processPointerDescriptor copy srcMsg l) srcHeader offset
      dstMsg).1.calls, l.InEntry call := by
  refine processPointerLoop_spec (fun _ c => ∀ call ∈ c.calls, l.InEntry call)
    (fun c => ∀ call ∈ c.calls, l.InEntry call) (fun _ c h => h) (fun n c _ hc => ?_)
    (getPointerCount_le srcHeader) fun call hcall => absurd hcall List.not_mem_nil
  suffices hone : ∀ call ∈ (processPointerDescriptor copy srcMsg l c).1.calls, l.InEntry call from
    ⟨hone, fun _ => hone⟩
  by_cases hempty : (c.descriptor srcMsg).getSize = 0
  · rw [(processPointerDescriptor_empty copy l hempty).1]
    exact hc
  · have hkey : c.key srcMsg l = (c.descriptor srcMsg).getIndex.setWidth 32 := if_pos h
    have hpointer := getBuffer_index h hempty (c.descriptor srcMsg).getIndex
    rw [← hkey] at hpointer
    rw [(processPointerDescriptor_call copy hempty rfl).1]
    exact List.forall_mem_append.mpr ⟨hc, List.forall_mem_singleton.mpr hpointer⟩

/-- A message that is received into the message buffer: the buffers are behind the message. -/
theorem buffers_behind_message (recvMsg : Nat → BitVec 32) {dstHeader : MessageHeader}
    {dstAddress msgSize outOffset : BitVec 64} (recvListIdx : Nat)
    (hkind : dstHeader.getReceiveListCount = 1) (hend : dstAddress.toNat + msgSize.toNat < 2 ^ 64)
    (hfits : 4 * outOffset.toNat ≤ msgSize.toNat) (srcMsg : Nat → BitVec 32)
    (srcHeader : MessageHeader) (offset : Nat) (dstMsg : Nat → BitVec 32) :
    ∃ top, Carved (dstAddress.toNat + 4 * outOffset.toNat) (dstAddress.toNat + msgSize.toNat) 16 top
      (buffers (processPointers (processPointerDescriptor copy srcMsg
        (.ofMessage recvMsg dstAddress dstHeader msgSize outOffset recvListIdx)) srcHeader offset
          dstMsg).1.calls) := by
  obtain ⟨l, hl⟩ : ∃ l, l = ReceiveList.ofMessage recvMsg dstAddress dstHeader msgSize outOffset
    recvListIdx := ⟨_, rfl⟩
  have hcount : l.recvListCount = 1 := hl ▸ hkind
  have hcarved := (ReceiveList.takesFrom_message hcount).carved copy srcMsg srcHeader offset dstMsg
  have hbase : l.msgBufferEnd.toNat = dstAddress.toNat + 4 * outOffset.toNat := by
    have hoff : (4 * outOffset).toNat = 4 * outOffset.toNat := by
      rw [toNat_mul]
      exact mod_eq_of_lt (by show 4 * outOffset.toNat < _; omega)
    rw [hl, ReceiveList.ofMessage, toNat_add, hoff, mod_eq_of_lt (by omega)]
  have hlimit : l.msgBufferSpaceEnd.toNat = dstAddress.toNat + msgSize.toNat := by
    rw [hl, ReceiveList.ofMessage, toNat_add, mod_eq_of_lt hend]
  rw [hbase, hlimit] at hcarved
  exact hl ▸ hcarved

/-- A message with one descriptor, of 32 bytes. -/
theorem buffers_behind_message_one :
    ∃ top, Carved ((0x1000#64).toNat + 4 * (8#64).toNat) ((0x1000#64).toNat + (0x100#64).toNat) 16
      top (buffers (processPointers (processPointerDescriptor (fun _ _ _ => .success)
        (fun _ => 0x200000) (.ofMessage (fun _ => 0) 0x1000 ⟨0, 0x400⟩ 0x100 8 0)) ⟨0x10000, 0⟩ 0
          fun _ => 0).1.calls) :=
  buffers_behind_message _ (fun _ => 0) 0 rfl (by decide) (by decide) _ _ _ _

/-- The buffers that `GetBuffer` gives for the pointer descriptors of a message are where the kind
of the receive list says: apart from each other and aligned in one space, or in their entries. -/
theorem processPointers_placed (l : ReceiveList) (srcMsg : Nat → BitVec 32)
    (srcHeader : MessageHeader) (offset : Nat) (dstMsg : Nat → BitVec 32) :
    l.Placed (processPointers (processPointerDescriptor copy srcMsg l) srcHeader offset
      dstMsg).1.calls := by
  rw [ReceiveList.Placed]
  split
  case h_1 heq => exact buffers_none copy heq srcMsg srcHeader offset dstMsg
  case h_2 heq =>
    exact (ReceiveList.takesFrom_message heq).carved copy srcMsg srcHeader offset dstMsg
  case h_3 heq =>
    exact (ReceiveList.takesFrom_single heq).carved copy srcMsg srcHeader offset dstMsg
  case h_4 hzero hone htwo =>
    have hindex : l.isIndex = true := by
      refine decide_eq_true ?_
      by_contra hsmall
      have hle : l.recvListCount.toNat ≤ 2 := Nat.not_lt.mp hsmall
      interval_cases hcount : l.recvListCount.toNat
      · exact hzero (eq_of_toNat_eq hcount)
      · exact hone (eq_of_toNat_eq hcount)
      · exact htwo (eq_of_toNat_eq hcount)
    exact calls_index copy hindex srcMsg srcHeader offset dstMsg

end Sudachi.Kernel
