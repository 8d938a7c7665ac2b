import Mathlib.Algebra.Order.Ring.Nat
import Mathlib.Data.List.FinRange
import Mathlib.Data.Fintype.Basic

/-!
# The buffer queue

The queue of graphic buffers between a producer (the game) and a consumer (the compositor):
`BufferQueueCore`, `BufferQueueProducer` and `BufferQueueConsumer`. Each operation is one function
of the state that the two share under the mutex of the core.

A shared pointer to a graphic buffer is the buffer with the address of the object, and two pointers
are equal when the addresses are. `std::make_shared` gives an address that no live object has; the
operations that allocate take the address they get as an argument.

`WaitForFreeSlotThenRelock` gives up the mutex where it waits. A call that waits is a step of its
own, which ends with `Reply.waiting`, and the pass it makes when it is woken is another step that
starts with the flags found so far; what wakes it (`dequeue_possible`) is left out, so that the
next pass may come at any time. The listeners are called without the lock and see no state: only
whether a consumer listens is kept.
-/

set_option autoImplicit false

namespace Sudachi.Service.BufferQueue

open List Function

/-! ## The data -/

/-- The number of buffers that a queue can track. -/
def numBufferSlots : Nat := 64

instance : NeZero numBufferSlots := ⟨by decide⟩

instance (priority := high) neZero_slotCount : NeZero (numBufferSlots + 1) := ⟨by decide⟩

/-- The number of a slot. -/
abbrev SlotIndex : Type := Fin numBufferSlots

inductive Status where
  | noError | staleBufferSlot | noBufferAvailable | presentLater | wouldBlock | noMemory | busy
  | noInit | badValue | invalidOperation
  deriving DecidableEq, Repr

/-- The flags that a successful call returns in place of `NoError`. -/
structure ReturnFlags where
  bufferNeedsReallocation : Bool
  releaseAllBuffers : Bool
  deriving DecidableEq, Repr

def ReturnFlags.none : ReturnFlags := ⟨false, false⟩

inductive PixelFormat where
  | noFormat | rgba8888 | rgbx8888 | rgb888 | rgb565 | bgra8888 | rgba5551 | rgba4444
  | unknown (value : BitVec 32)
  deriving DecidableEq, Repr

inductive NativeWindowApi where
  | noConnectedApi | egl | cpu | media | camera
  | unknown (value : BitVec 32)
  deriving DecidableEq, Repr

inductive NativeWindowScalingMode where
  | freeze | scaleToWindow | scaleCrop | noScaleCrop | preserveAspectRatio
  | unknown (value : BitVec 32)
  deriving DecidableEq, Repr

structure NvFence where
  id : Int
  value : BitVec 32
  deriving DecidableEq, Repr

structure Fence where
  numFences : BitVec 32
  fences : Fin 4 → NvFence
  deriving DecidableEq

/-- A fence as it is constructed. -/
def Fence.initial : Fence := ⟨0, fun _ => ⟨0, 0⟩⟩

def Fence.noFence : Fence := ⟨0, fun _ => ⟨-1, 0⟩⟩

structure Rectangle where
  left : Int
  top : Int
  right : Int
  bottom : Int
  deriving DecidableEq, Repr

/-- The rectangle in which two rectangles overlap. -/
def Rectangle.intersect (r w : Rectangle) : Rectangle :=
  ⟨max r.left w.left, max r.top w.top, min r.right w.right, min r.bottom w.bottom⟩

/-- A buffer that is passed from outside (`NvGraphicBuffer`). -/
structure NvGraphicBuffer where
  width : BitVec 32
  height : BitVec 32
  format : PixelFormat
  usage : BitVec 32
  deriving DecidableEq, Repr

/-- A pointer to a graphic buffer: the buffer, at an address. -/
structure GraphicBuffer extends NvGraphicBuffer where
  address : Nat
  deriving DecidableEq, Repr

inductive BufferState where
  | free | dequeued | queued | acquired
  deriving DecidableEq, Repr

structure BufferSlot where
  graphicBuffer : Option GraphicBuffer
  bufferState : BufferState
  requestBufferCalled : Bool
  frameNumber : Nat
  fence : Fence
  acquireCalled : Bool
  needsCleanupOnRelease : Bool
  attachedByConsumer : Bool
  isPreallocated : Bool
  deriving DecidableEq

/-- A slot as it is constructed. -/
def BufferSlot.initial : BufferSlot where
  graphicBuffer := none
  bufferState := .free
  requestBufferCalled := false
  frameNumber := 0
  fence := .initial
  acquireCalled := false
  needsCleanupOnRelease := false
  attachedByConsumer := false
  isPreallocated := false

/-- The slots of the queue. -/
abbrev Slots : Type := SlotIndex → BufferSlot

structure BufferItem where
  graphicBuffer : Option GraphicBuffer
  fence : Fence
  crop : Rectangle
  transform : BitVec 32
  scalingMode : NativeWindowScalingMode
  timestamp : Int
  isAutoTimestamp : Bool
  frameNumber : Nat
  slot : SlotIndex
  isDroppable : Bool
  acquireCalled : Bool
  transformToDisplayInverse : Bool
  swapInterval : Int
  deriving DecidableEq

/-- `BufferQueueCore`. The buffer count that the producer has set is at most the number of slots by
the check of `SetBufferCount`, and as a number of slots in `SetPreallocatedBuffer`. -/
structure State where
  isAbandoned : Bool
  consumerControlledByApp : Bool
  hasConsumerListener : Bool
  consumerUsageBit : BitVec 32
  connectedApi : NativeWindowApi
  slots : Slots
  queue : List BufferItem
  overrideMaxBufferCount : Fin (numBufferSlots + 1)
  dequeueBufferCannotBlock : Bool
  defaultBufferFormat : PixelFormat
  defaultWidth : BitVec 32
  defaultHeight : BitVec 32
  bufferHasBeenQueued : Bool
  frameCounter : Nat
  transformHint : BitVec 32

/-- The queue as it is constructed. -/
def State.initial : State where
  isAbandoned := false
  consumerControlledByApp := false
  hasConsumerListener := false
  consumerUsageBit := 0
  connectedApi := .noConnectedApi
  slots := fun _ => .initial
  queue := []
  overrideMaxBufferCount := 0
  dequeueBufferCannotBlock := false
  defaultBufferFormat := .rgba8888
  defaultWidth := 1
  defaultHeight := 1
  bufferHasBeenQueued := false
  frameCounter := 0
  transformHint := 0

/-- The operand of `QueueBuffer`. -/
structure QueueBufferInput where
  timestamp : Int
  isAutoTimestamp : Bool
  crop : Rectangle
  scalingMode : NativeWindowScalingMode
  transform : BitVec 32
  async : Bool
  swapInterval : Int
  fence : Fence

structure QueueBufferOutput where
  width : BitVec 32
  height : BitVec 32
  transformHint : BitVec 32
  numPendingBuffers : Nat

/-- What an operation returns. `nullBuffer` is the read through a null pointer that `QueueBuffer`
would make in a slot without a buffer. -/
inductive Reply where
  | status (status : Status)
  | waiting (flags : ReturnFlags)
  | dequeued (slot : SlotIndex) (fence : Fence) (flags : ReturnFlags)
  | attached (slot : SlotIndex) (flags : ReturnFlags)
  | requested (buffer : Option GraphicBuffer)
  | detached (buffer : Option GraphicBuffer) (fence : Fence)
  | queued (output : QueueBufferOutput)
  | acquired (item : BufferItem)
  | nullBuffer

/-! ## The core -/

/-- `use_async_buffer`, which is always disabled. -/
def useAsyncBuffer : Bool := false

/-- `max_acquired_buffer_count`, which is always zero. -/
def maxAcquiredBufferCount : Nat := 0

/-- `default_max_buffer_count`, which nothing sets. -/
def defaultMaxBufferCount : Nat := 2

/-- `UINT32_MAX`, the frame number of a slot whose buffer has been freed. -/
def uint32Max : Nat := 2 ^ 32 - 1

def State.getMinUndequeuedBufferCountLocked (st : State) (async : Bool) : Nat :=
  if !useAsyncBuffer then 0
  else if st.dequeueBufferCannotBlock || async then maxAcquiredBufferCount + 1
  else maxAcquiredBufferCount

def State.getMinMaxBufferCountLocked (st : State) (async : Bool) : Nat :=
  st.getMinUndequeuedBufferCountLocked async

/-- The buffers that the producer has or that wait in the queue keep their slots. -/
def BufferState.preserved (state : BufferState) : Bool :=
  state == .queued || state == .dequeued

def State.getMaxBufferCountLocked (st : State) (async : Bool) : Nat :=
  let maxBufferCount := max defaultMaxBufferCount (st.getMinMaxBufferCountLocked async)
  if st.overrideMaxBufferCount ≠ 0 then st.overrideMaxBufferCount
  else (finRange numBufferSlots).foldl (fun (count : Nat) (slot : SlotIndex) =>
    if maxBufferCount ≤ slot.val ∧ (st.slots slot).bufferState.preserved then slot.val + 1
    else count) maxBufferCount

/-- The slots with a buffer that the producer allocated beforehand. -/
def preallocated (slots : Slots) : List SlotIndex :=
  (finRange numBufferSlots).filter fun slot => (slots slot).isPreallocated

theorem length_preallocated_lt (slots : Slots) :
    (preallocated slots).length < numBufferSlots + 1 := by
  have h := length_filter_le (fun slot => (slots slot).isPreallocated) (finRange numBufferSlots)
  rw [length_finRange] at h
  exact Nat.lt_succ_of_le h

def getPreallocatedBufferCountLocked (slots : Slots) : Fin (numBufferSlots + 1) :=
  ⟨(preallocated slots).length, length_preallocated_lt slots⟩

/-- `FreeBufferLocked`, on the slot. -/
def BufferSlot.freed (slot : BufferSlot) : BufferSlot :=
  { slot with
    graphicBuffer := none
    needsCleanupOnRelease := slot.bufferState == .acquired || slot.needsCleanupOnRelease
    bufferState := .free
    frameNumber := uint32Max
    acquireCalled := false
    fence := .noFence }

/-- Change one slot. -/
def State.setSlot (st : State) (slot : SlotIndex) (value : BufferSlot) : State :=
  { st with slots := update st.slots slot value }

@[simp]
theorem State.setSlot_slots (st : State) (slot : SlotIndex) (value : BufferSlot) :
    (st.setSlot slot value).slots = update st.slots slot value := rfl

def State.freeBufferLocked (st : State) (slot : SlotIndex) : State :=
  st.setSlot slot (st.slots slot).freed

def State.freeAllBuffersLocked (st : State) : State :=
  { st with bufferHasBeenQueued := false, slots := fun slot => (st.slots slot).freed }

/-- Two pointers to graphic buffers are equal. -/
def samePointer : Option GraphicBuffer → Option GraphicBuffer → Bool
  | some a, some b => a.address == b.address
  | none, none => true
  | _, _ => false

def stillTracking (slots : Slots) (item : BufferItem) : Bool :=
  (slots item.slot).graphicBuffer.isSome &&
    samePointer item.graphicBuffer (slots item.slot).graphicBuffer

/-- The slot of an item that leaves the queue is changed, if it still has the buffer. -/
def settle (slots : Slots) (item : BufferItem) (value : BufferSlot → BufferSlot) : Slots :=
  if stillTracking slots item then update slots item.slot (value (slots item.slot))
  else slots

/-- The slot of a number that is checked against the number of slots. -/
def slotIndex (slot : Int) : Option SlotIndex :=
  if h : 0 ≤ slot ∧ slot < numBufferSlots then some ⟨slot.toNat, by omega⟩ else none

/-- The slot with the oldest frame among those that meet a condition, the first of them where
several have it. -/
def oldest (slots : Slots) (eligible : SlotIndex → Bool) : Option SlotIndex :=
  (finRange numBufferSlots).foldl (fun found slot =>
    if eligible slot && found.all (fun f => (slots slot).frameNumber < (slots f).frameNumber)
    then some slot else found) none

/-- The number of slots below a bound that are in a state. -/
def countBelow (slots : Slots) (bound : Nat) (state : BufferState) : Nat :=
  (finRange numBufferSlots).countP fun slot =>
    slot.val < bound && (slots slot).bufferState == state

/-! ## The producer -/

def State.requestBuffer (st : State) (slot : Int) : Reply × State :=
  if st.isAbandoned then (.status .noInit, st)
  else match slotIndex slot with
    | none => (.status .badValue, st)
    | some s =>
      if (st.slots s).bufferState ≠ .dequeued then (.status .badValue, st)
      else (.requested (st.slots s).graphicBuffer,
        st.setSlot s { st.slots s with requestBufferCalled := true })

/-- The status with which `SetBufferCount` refuses the call before it looks at a count of zero. -/
def State.refusesCount (st : State) (bufferCount : Int) : Option Status :=
  if st.isAbandoned then some .noInit
  else if bufferCount > numBufferSlots then some .badValue
  else if (finRange numBufferSlots).any fun s => (st.slots s).bufferState == .dequeued then
    some .badValue
  else none

def State.setBufferCount (st : State) (bufferCount : Int) : Reply × State :=
  match st.refusesCount bufferCount with
  | some status => (.status status, st)
  | none =>
    if bufferCount = 0 then (.status .noError, { st with overrideMaxBufferCount := 0 })
    else if bufferCount < st.getMinMaxBufferCountLocked false then (.status .badValue, st)
    else
      let st := if getPreallocatedBufferCountLocked st.slots ≤ 0 then st.freeAllBuffersLocked
        else st
      (.status .noError, { st with overrideMaxBufferCount := Fin.ofNat _ bufferCount.toNat })

/-- What one pass of `WaitForFreeSlotThenRelock` comes to. -/
inductive Scan where
  | failed (status : Status)
  | waiting
  | found (slot : SlotIndex)
  deriving DecidableEq, Repr

/-- The pass frees the buffer of the slot, which is beyond the buffer count. -/
def releasesBeyond (slots : Slots) (maxBufferCount : Nat) (slot : SlotIndex) : Bool :=
  maxBufferCount ≤ slot.val && (slots slot).graphicBuffer.isSome &&
    (slots slot).bufferState == .free && !(slots slot).isPreallocated

def releaseBeyond (slots : Slots) (maxBufferCount : Nat) : Slots := fun slot =>
  if releasesBeyond slots maxBufferCount slot then (slots slot).freed else slots slot

/-- The condition that the pass asserts at the slots beyond the buffer count, before it frees their
buffers. A failed assertion is reported and the pass goes on. -/
def State.assertsFree (st : State) (async : Bool) : Prop :=
  ∀ slot : SlotIndex, st.getMaxBufferCountLocked async ≤ slot.val →
    (st.slots slot).bufferState = .free

/-- The end of a pass: what the slots it has looked through allow. -/
def State.scanResult (st : State) (async : Bool) (maxBufferCount : Nat) : Scan :=
  let found := oldest st.slots fun slot =>
    slot.val < maxBufferCount && (st.slots slot).bufferState == .free
  let dequeuedCount := countBelow st.slots maxBufferCount .dequeued
  let acquiredCount := countBelow st.slots maxBufferCount .acquired
  if st.overrideMaxBufferCount = 0 ∧ dequeuedCount ≠ 0 then .failed .invalidOperation
  else if st.bufferHasBeenQueued = true ∧
      (maxBufferCount : Int) - (dequeuedCount + 1) < st.getMinUndequeuedBufferCountLocked async then
    .failed .invalidOperation
  else
    let tooManyBuffers := decide (st.queue.length > maxBufferCount)
    match found, tooManyBuffers with
    | some slot, false => .found slot
    | _, _ =>
      if st.dequeueBufferCannotBlock = true ∧ acquiredCount ≤ maxAcquiredBufferCount then
        .failed .wouldBlock
      else .waiting

/-- One pass of `WaitForFreeSlotThenRelock`. -/
def State.waitForFreeSlotThenRelock (st : State) (async : Bool) (flags : ReturnFlags) :
    Scan × ReturnFlags × State :=
  if st.isAbandoned then (.failed .noInit, flags, st)
  else
    let maxBufferCount := st.getMaxBufferCountLocked async
    if async = true ∧ st.overrideMaxBufferCount ≠ 0 ∧
        st.overrideMaxBufferCount.val < maxBufferCount then
      (.failed .badValue, flags, st)
    else
      let released := (finRange numBufferSlots).any (releasesBeyond st.slots maxBufferCount)
      let flags := { flags with releaseAllBuffers := flags.releaseAllBuffers || released }
      let st := { st with slots := releaseBeyond st.slots maxBufferCount }
      (st.scanResult async maxBufferCount, flags, st)

/-- The operands of `DequeueBuffer`. -/
structure DequeueInput where
  async : Bool
  width : BitVec 32
  height : BitVec 32
  format : PixelFormat
  usage : BitVec 32
  deriving DecidableEq, Repr

/-- The buffer that `DequeueBuffer` is asked for, with the defaults of the queue. -/
def State.wanted (st : State) (input : DequeueInput) : NvGraphicBuffer where
  width := if input.width = 0 ∧ input.height = 0 then st.defaultWidth else input.width
  height := if input.width = 0 ∧ input.height = 0 then st.defaultHeight else input.height
  format := if input.format = .noFormat then st.defaultBufferFormat else input.format
  usage := input.usage ||| st.consumerUsageBit

/-- A buffer can be used where another one is asked for. -/
def GraphicBuffer.serves (buffer : GraphicBuffer) (wanted : NvGraphicBuffer) : Bool :=
  buffer.width == wanted.width && buffer.height == wanted.height &&
    buffer.format == wanted.format && buffer.usage &&& wanted.usage == wanted.usage

/-- `DequeueBuffer` on the slot it has found: its buffer is used again, or a new one is made. -/
def BufferSlot.dequeue (slot : BufferSlot) (wanted : NvGraphicBuffer) (address : Nat) :
    BufferSlot :=
  if slot.graphicBuffer.any (·.serves wanted) then
    { slot with bufferState := .dequeued, fence := .noFence }
  else
    { slot with
      bufferState := .dequeued
      acquireCalled := false
      graphicBuffer := some ⟨wanted, address⟩
      requestBufferCalled := false
      fence := .noFence
      frameNumber := uint32Max }

def State.dequeueBuffer (st : State) (input : DequeueInput) (flags : ReturnFlags)
    (address : Nat) : Reply × State :=
  if (input.width ≠ 0 ∧ input.height = 0) ∨ (input.width = 0 ∧ input.height ≠ 0) then
    (.status .badValue, st)
  else match st.waitForFreeSlotThenRelock input.async flags with
    | (.failed status, _, st) => (.status status, st)
    | (.waiting, flags, st) => (.waiting flags, st)
    | (.found s, flags, st) =>
      let wanted := st.wanted input
      let kept := (st.slots s).graphicBuffer.any (·.serves wanted)
      let fence := if kept then (st.slots s).fence else .noFence
      (.dequeued s fence
        { flags with bufferNeedsReallocation := !kept || (st.slots s).attachedByConsumer },
        st.setSlot s ((st.slots s).dequeue wanted address))

def State.detachBuffer (st : State) (slot : Int) : Reply × State :=
  if st.isAbandoned then (.status .noInit, st)
  else match slotIndex slot with
    | none => (.status .badValue, st)
    | some s =>
      if (st.slots s).bufferState ≠ .dequeued then (.status .badValue, st)
      else if !(st.slots s).requestBufferCalled then (.status .badValue, st)
      else (.status .noError, st.freeBufferLocked s)

def State.detachNextBuffer (st : State) : Reply × State :=
  if st.isAbandoned then (.status .noInit, st)
  else match oldest st.slots fun s =>
      (st.slots s).bufferState == .free && (st.slots s).graphicBuffer.isSome with
    | none => (.status .noMemory, st)
    | some s => (.detached (st.slots s).graphicBuffer (st.slots s).fence, st.freeBufferLocked s)

/-- `AttachBuffer` on the slot it has found. -/
def BufferSlot.attach (slot : BufferSlot) (buffer : GraphicBuffer) : BufferSlot :=
  { slot with
    graphicBuffer := some buffer
    bufferState := .dequeued
    fence := .noFence
    requestBufferCalled := true }

def State.attachBuffer (st : State) (buffer : Option GraphicBuffer) (flags : ReturnFlags) :
    Reply × State :=
  match buffer with
  | none => (.status .badValue, st)
  | some buffer =>
    match st.waitForFreeSlotThenRelock false flags with
    | (.failed status, _, st) => (.status status, st)
    | (.waiting, flags, st) => (.waiting flags, st)
    | (.found s, flags, st) =>
      (.attached s flags, st.setSlot s ((st.slots s).attach buffer))

def NativeWindowScalingMode.isKnown : NativeWindowScalingMode → Bool
  | .unknown _ => false
  | _ => true

/-- The flag `NativeWindowTransform::InverseDisplay`. -/
def inverseDisplay : BitVec 32 := 8

/-- The item that `QueueBuffer` makes of a slot. -/
def State.queuedItem (st : State) (s : SlotIndex) (input : QueueBufferInput)
    (frameNumber : Nat) : BufferItem where
  graphicBuffer := (st.slots s).graphicBuffer
  fence := input.fence
  crop := input.crop
  transform := input.transform &&& ~~~inverseDisplay
  scalingMode := input.scalingMode
  timestamp := input.timestamp
  isAutoTimestamp := input.isAutoTimestamp
  frameNumber := frameNumber
  slot := s
  isDroppable := st.dequeueBufferCannotBlock || input.async
  acquireCalled := (st.slots s).acquireCalled
  transformToDisplayInverse := input.transform &&& inverseDisplay != 0
  swapInterval := input.swapInterval

/-- The slot of a droppable item that is replaced is the first in line to be dequeued again. -/
def BufferSlot.dropped (slot : BufferSlot) : BufferSlot :=
  { slot with bufferState := .free, frameNumber := 0 }

/-- Put an item into the queue: in the place of the item in front, if that is droppable, and else
at the end. -/
def enqueue (slots : Slots) (queue : List BufferItem) (item : BufferItem) :
    Slots × List BufferItem :=
  match queue with
  | [] => (slots, [item])
  | front :: rest =>
    if front.isDroppable then
      (settle slots front BufferSlot.dropped, item :: rest)
    else (slots, queue ++ [item])

/-- The checks of `QueueBuffer`: the slot, with its buffer, or the reply of the call. -/
def State.queueable (st : State) (slot : Int) (input : QueueBufferInput) :
    Except Reply SlotIndex :=
  if !input.scalingMode.isKnown then .error (.status .badValue)
  else if st.isAbandoned then .error (.status .noInit)
  else
    let maxBufferCount := st.getMaxBufferCountLocked input.async
    if input.async = true ∧ st.overrideMaxBufferCount ≠ 0 ∧
        st.overrideMaxBufferCount.val < maxBufferCount then .error (.status .badValue)
    else match slotIndex slot with
      | none => .error (.status .badValue)
      | some s =>
        if maxBufferCount ≤ s.val then .error (.status .badValue)
        else if (st.slots s).bufferState ≠ .dequeued then .error (.status .badValue)
        else if !(st.slots s).requestBufferCalled then .error (.status .badValue)
        else match (st.slots s).graphicBuffer with
          | none => .error .nullBuffer
          | some buffer =>
            if input.crop.intersect ⟨0, 0, buffer.width.toInt, buffer.height.toInt⟩ ≠ input.crop
            then .error (.status .badValue)
            else .ok s

/-- The state that `QueueBuffer` leaves when it accepts the slot. -/
def State.afterQueue (st : State) (s : SlotIndex) (input : QueueBufferInput) : State :=
  let frameNumber := (st.frameCounter + 1) % 2 ^ 64
  let item := st.queuedItem s input frameNumber
  let slots := update st.slots s { st.slots s with
    fence := input.fence, bufferState := .queued, frameNumber := frameNumber }
  let queued := enqueue slots st.queue item
  { st with
    slots := queued.1, queue := queued.2, frameCounter := frameNumber, bufferHasBeenQueued := true }

def State.queueBuffer (st : State) (slot : Int) (input : QueueBufferInput) : Reply × State :=
  match st.queueable slot input with
  | .error reply => (reply, st)
  | .ok s =>
    let queued := st.afterQueue s input
    (.queued ⟨st.defaultWidth, st.defaultHeight, st.transformHint, queued.queue.length⟩, queued)

def State.cancelBuffer (st : State) (slot : Int) (fence : Fence) : State :=
  if st.isAbandoned then st
  else match slotIndex slot with
    | none => st
    | some s =>
      if (st.slots s).bufferState ≠ .dequeued then st
      else st.setSlot s { st.slots s with bufferState := .free, frameNumber := 0, fence := fence }

def NativeWindowApi.isKnown : NativeWindowApi → Bool
  | .egl | .cpu | .media | .camera => true
  | .noConnectedApi | .unknown _ => false

def State.connect (st : State) (api : NativeWindowApi) (producerControlledByApp : Bool) :
    Reply × State :=
  if st.isAbandoned then (.status .noInit, st)
  else if !st.hasConsumerListener then (.status .noInit, st)
  else if st.connectedApi ≠ .noConnectedApi then (.status .badValue, st)
  else
    let connected := { st with
      bufferHasBeenQueued := false
      dequeueBufferCannotBlock := st.consumerControlledByApp && producerControlledByApp }
    if api.isKnown then
      (.queued ⟨st.defaultWidth, st.defaultHeight, st.transformHint, st.queue.length⟩,
        { connected with connectedApi := api })
    else (.status .badValue, connected)

def State.disconnect (st : State) (api : NativeWindowApi) : Reply × State :=
  if st.isAbandoned then (.status .noError, st)
  else if !api.isKnown then (.status .badValue, st)
  else if st.connectedApi ≠ api then (.status .badValue, st)
  else (.status .noError,
    { ({ st with queue := [] } : State).freeAllBuffersLocked with connectedApi := .noConnectedApi })

/-- The buffer of an empty pointer, where `SetPreallocatedBuffer` is called with one. -/
def NvGraphicBuffer.empty : NvGraphicBuffer := ⟨0, 0, .noFormat, 0⟩

/-- The slot that `SetPreallocatedBuffer` leaves. -/
def BufferSlot.preallocate (buffer : Option NvGraphicBuffer) (address : Nat) : BufferSlot :=
  { BufferSlot.initial with
    fence := .noFence
    graphicBuffer := some ⟨buffer.getD .empty, address⟩
    isPreallocated := buffer.isSome }

def State.setPreallocatedBuffer (st : State) (slot : Int) (buffer : Option NvGraphicBuffer)
    (address : Nat) : Reply × State :=
  match slotIndex slot with
  | none => (.status .badValue, st)
  | some s =>
    let st := st.setSlot s (.preallocate buffer address)
    match buffer with
    | none => (.status .noError, st)
    | some buffer => (.status .noError,
        { st with
          overrideMaxBufferCount := getPreallocatedBufferCountLocked st.slots
          defaultWidth := buffer.width
          defaultHeight := buffer.height
          defaultBufferFormat := buffer.format })

/-! ## The consumer -/

/-- `MAX_REASONABLE_NSEC`, one second. -/
def maxReasonableNsec : Int := 1000000000

/-- The loop of `AcquireBuffer` that drops the frame in front while the next one is timely. -/
def dropLoop (expectedPresent : Int) : Slots → List BufferItem → Slots × List BufferItem
  | slots, front :: next :: rest =>
    if front.isAutoTimestamp = true ∨ next.timestamp < expectedPresent - maxReasonableNsec ∨
        next.timestamp > expectedPresent then
      (slots, front :: next :: rest)
    else
      dropLoop expectedPresent (settle slots front fun slot => { slot with bufferState := .free })
        (next :: rest)
  | slots, queue => (slots, queue)

/-- The item that `AcquireBuffer` hands out. -/
def BufferItem.handedOut (item : BufferItem) : BufferItem :=
  if item.acquireCalled then { item with graphicBuffer := none } else item

/-- `AcquireBuffer` on the slot of the item. -/
def BufferSlot.acquire (slot : BufferSlot) : BufferSlot :=
  { slot with acquireCalled := true, needsCleanupOnRelease := false, bufferState := .acquired }

/-- The end of `AcquireBuffer`, with the item in front. -/
def State.acquireFront (st : State) : Reply × State :=
  match st.queue with
  | [] => (.status .noBufferAvailable, st)
  | front :: rest =>
    (.acquired front.handedOut,
      { st with
        slots := settle st.slots front BufferSlot.acquire
        queue := rest })

/-- The frame is set to be shown in the near future. -/
def BufferItem.isEarly (item : BufferItem) (expectedPresent : Int) : Bool :=
  item.timestamp > expectedPresent && item.timestamp < expectedPresent + maxReasonableNsec

def State.acquireBuffer (st : State) (expectedPresent : Int) : Reply × State :=
  if countBelow st.slots numBufferSlots .acquired ≥ maxAcquiredBufferCount + 1 then
    (.status .invalidOperation, st)
  else if st.queue.isEmpty then (.status .noBufferAvailable, st)
  else if expectedPresent = 0 then st.acquireFront
  else
    let (slots, queue) := dropLoop expectedPresent st.slots st.queue
    let st := { st with slots := slots, queue := queue }
    if queue.head?.any (·.isEarly expectedPresent) then (.status .presentLater, st)
    else st.acquireFront

def State.releaseBuffer (st : State) (slot : Int) (frameNumber : Nat) : Reply × State :=
  match slotIndex slot with
  | none => (.status .badValue, st)
  | some s =>
    if frameNumber ≠ (st.slots s).frameNumber then (.status .staleBufferSlot, st)
    else if st.queue.any (fun item => item.slot = s) then (.status .badValue, st)
    else if (st.slots s).bufferState = .acquired then
      (.status .noError, st.setSlot s { st.slots s with bufferState := .free })
    else if (st.slots s).needsCleanupOnRelease then
      (.status .staleBufferSlot, st.setSlot s { st.slots s with needsCleanupOnRelease := false })
    else (.status .badValue, st)

/-- `BufferQueueConsumer::Connect`. -/
def State.consumerConnect (st : State) (listens controlledByApp : Bool) : Reply × State :=
  if !listens then (.status .badValue, st)
  else if st.isAbandoned then (.status .noInit, st)
  else (.status .noError,
    { st with hasConsumerListener := true, consumerControlledByApp := controlledByApp })

/-- `BufferQueueConsumer::Disconnect`. -/
def State.consumerDisconnect (st : State) : Reply × State :=
  if !st.hasConsumerListener then (.status .badValue, st)
  else (.status .noError,
    ({ st with isAbandoned := true, hasConsumerListener := false, queue := [] } :
      State).freeAllBuffersLocked)

/-! ## Runs -/

/-- A call of the producer or of the consumer. -/
inductive Operation where
  | requestBuffer (slot : Int)
  | setBufferCount (bufferCount : Int)
  | dequeueBuffer (input : DequeueInput) (flags : ReturnFlags) (address : Nat)
  | detachBuffer (slot : Int)
  | detachNextBuffer
  | attachBuffer (buffer : Option GraphicBuffer) (flags : ReturnFlags)
  | queueBuffer (slot : Int) (input : QueueBufferInput)
  | cancelBuffer (slot : Int) (fence : Fence)
  | connect (api : NativeWindowApi) (producerControlledByApp : Bool)
  | disconnect (api : NativeWindowApi)
  | setPreallocatedBuffer (slot : Int) (buffer : Option NvGraphicBuffer) (address : Nat)
  | acquireBuffer (expectedPresent : Int)
  | releaseBuffer (slot : Int) (frameNumber : Nat)
  | consumerConnect (listens controlledByApp : Bool)
  | consumerDisconnect

/-- The reply of a call, and the state it leaves. -/
def State.perform (st : State) : Operation → Reply × State
  | .requestBuffer slot => st.requestBuffer slot
  | .setBufferCount count => st.setBufferCount count
  | .dequeueBuffer input flags address => st.dequeueBuffer input flags address
  | .detachBuffer slot => st.detachBuffer slot
  | .detachNextBuffer => st.detachNextBuffer
  | .attachBuffer buffer flags => st.attachBuffer buffer flags
  | .queueBuffer slot input => st.queueBuffer slot input
  | .cancelBuffer slot fence => (.status .noError, st.cancelBuffer slot fence)
  | .connect api controlled => st.connect api controlled
  | .disconnect api => st.disconnect api
  | .setPreallocatedBuffer slot buffer address => st.setPreallocatedBuffer slot buffer address
  | .acquireBuffer expectedPresent => st.acquireBuffer expectedPresent
  | .releaseBuffer slot frameNumber => st.releaseBuffer slot frameNumber
  | .consumerConnect listens controlled => st.consumerConnect listens controlled
  | .consumerDisconnect => st.consumerDisconnect

/-- One step of the queue. -/
def State.step (st : State) (op : Operation) : State := (st.perform op).2

end Sudachi.Service.BufferQueue
