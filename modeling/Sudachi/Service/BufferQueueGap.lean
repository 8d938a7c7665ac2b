import Sudachi.Service.BufferQueueOwnership

/-!
# The gap of `DequeueBuffer`

`DequeueBuffer` gives up the mutex while it makes a new buffer for the slot it has chosen. Here the
call is two steps, between which other calls of the producer and of the consumer may come. The calls
that would free the slot wait as long as `is_allocating` is set, but nothing sets it, so they do not
wait, and the second section puts the buffer into the slot without a look at its state. The slot is
the caller's all along exactly when no call in the gap takes it away, or the queue is abandoned in
the gap, so that the call fails (`keepsOwnership_iff`).
-/

set_option autoImplicit false

namespace Sudachi.Service.BufferQueue

open Sudachi.Foundations.Runs List Function

/-! ## The two sections -/

/-- What a call keeps over the gap: the slot that it has chosen, the buffer that it makes, and what
it will return. -/
structure Pending where
  slot : SlotIndex
  wanted : NvGraphicBuffer
  flags : ReturnFlags

inductive FirstSection where
  | returned (reply : Reply)
  | allocates (pending : Pending)

/-- The slot without its buffer, which does not serve. -/
def BufferSlot.choose (slot : BufferSlot) : BufferSlot :=
  { slot with
    bufferState := .dequeued
    acquireCalled := false
    graphicBuffer := none
    requestBufferCalled := false
    fence := .noFence }

/-- `DequeueBuffer` until it gives up the mutex. -/
def State.dequeueFirst (st : State) (input : DequeueInput) (flags : ReturnFlags) :
    FirstSection × State :=
  if (input.width ≠ 0 ∧ input.height = 0) ∨ (input.width = 0 ∧ input.height ≠ 0) then
    (.returned (.status .badValue), st)
  else match st.waitForFreeSlotThenRelock input.async flags with
    | (.failed status, _, st) => (.returned (.status status), st)
    | (.waiting, flags, st) => (.returned (.waiting flags), st)
    | (.found s, flags, st) =>
      let wanted := st.wanted input
      if (st.slots s).graphicBuffer.any (·.serves wanted) then
        (.returned (.dequeued s (st.slots s).fence
          { flags with bufferNeedsReallocation := (st.slots s).attachedByConsumer }),
          st.setSlot s { st.slots s with bufferState := .dequeued, fence := .noFence })
      else
        (.allocates ⟨s, wanted, { flags with bufferNeedsReallocation := true }⟩,
          st.setSlot s (st.slots s).choose)

/-- The slot with the new buffer. -/
def BufferSlot.install (slot : BufferSlot) (buffer : GraphicBuffer) : BufferSlot :=
  { slot with frameNumber := uint32Max, graphicBuffer := some buffer }

/-- `DequeueBuffer` from where it has the mutex again; the buffer is at the address. -/
def State.dequeueSecond (st : State) (pending : Pending) (address : Nat) : Reply × State :=
  if st.isAbandoned then (.status .noInit, st)
  else
    (.dequeued pending.slot .noFence pending.flags,
      st.setSlot pending.slot ((st.slots pending.slot).install ⟨pending.wanted, address⟩))

/-- The rest of the call, if nothing comes between. -/
def finishDequeue (address : Nat) : FirstSection × State → Reply × State
  | (.returned reply, st) => (reply, st)
  | (.allocates pending, st) => st.dequeueSecond pending address

/-- Another step: a whole call, or a section of another `DequeueBuffer`. -/
inductive GapStep where
  | call (op : Operation)
  | first (input : DequeueInput) (flags : ReturnFlags)
  | second (pending : Pending) (address : Nat)

def State.gapStep (st : State) : GapStep → State
  | .call op => st.step op
  | .first input flags => (st.dequeueFirst input flags).2
  | .second pending address => (st.dequeueSecond pending address).2

/-- The objects that are made in the gap are new. -/
def State.GapAllocates (st : State) : GapStep → Prop
  | .call op => st.Allocates op
  | .first _ _ => True
  | .second _ address => Unheld st.queue address

/-- The call takes a slot of the producer's away. -/
def State.Takes (s : SlotIndex) (st : State) : GapStep → Prop
  | .call (.detachBuffer slot) =>
    slotIndex slot = some s ∧ (st.slots s).requestBufferCalled = true
  | .call (.queueBuffer slot input) => st.queueable slot input = .ok s
  | .call (.cancelBuffer slot _) => slotIndex slot = some s
  | .call (.disconnect api) => api.isKnown = true ∧ st.connectedApi = api
  | .call (.setPreallocatedBuffer slot _ _) => slotIndex slot = some s
  | .call .consumerDisconnect => st.hasConsumerListener = true
  | _ => False

def State.IsDequeued (s : SlotIndex) (st : State) : Prop := (st.slots s).bufferState = .dequeued

/-- A call that comes back with a slot has had it all along, and it writes to no other slot. -/
def KeepsOwnership (st : State) (gap : List GapStep) (pending : Pending) (address : Nat) : Prop :=
  let last := gap.foldl State.gapStep st
  (∀ s fence flags, (last.dequeueSecond pending address).1 = .dequeued s fence flags →
    Throughout State.gapStep (State.IsDequeued s) st gap) ∧
  ∀ s, (last.dequeueSecond pending address).2.slots s ≠ last.slots s →
    Throughout State.gapStep (State.IsDequeued s) st gap

/-- The slot is the caller's, and no item of the queue has its buffer. -/
structure State.Holds (s : SlotIndex) (st : State) : Prop where
  dequeued : st.IsDequeued s
  unqueued : Unqueued st.queue s (st.slots s).graphicBuffer
  running : st.isAbandoned = false

variable {s t : SlotIndex} {st st' : State} {input : DequeueInput} {flags : ReturnFlags}
  {pending : Pending} {gap : List GapStep} {address : Nat} {slots slots' : Slots}
  {queue queue' : List BufferItem} {item : BufferItem}

/-! ## The sections without a gap -/

theorem waitForFreeSlotThenRelock_running {async : Bool} {flags' : ReturnFlags}
    (h : st.waitForFreeSlotThenRelock async flags = (.found s, flags', st')) :
    st.isAbandoned = false ∧ st' = st.scanned async ∧
      ((st.scanned async).slots s).bufferState = .free := by
  obtain ⟨-, hnone⟩ | ⟨hscanned, hfound⟩ := waitForFreeSlotThenRelock_spec h
  · exact absurd rfl (hnone s)
  refine ⟨Bool.eq_false_iff.mpr fun habandoned => ?_, hscanned, (hfound s rfl).2⟩
  rw [State.waitForFreeSlotThenRelock, if_pos habandoned] at h
  cases h

theorem setSlot_setSlot (value value' : BufferSlot) :
    (st.setSlot s value).setSlot s value' = st.setSlot s value' := by
  simp only [State.setSlot, update_idem]

/-- The slot of which nothing is kept gets the new buffer. -/
theorem dequeue_eq_install {slot : BufferSlot} {wanted : NvGraphicBuffer}
    (hkept : ¬slot.graphicBuffer.any (·.serves wanted) = true) (address : Nat) :
    slot.dequeue wanted address = slot.choose.install ⟨wanted, address⟩ := if_neg hkept

/-- Without a gap the two sections are the call. -/
theorem dequeueBuffer_eq (st : State) (input : DequeueInput) (flags : ReturnFlags) (address : Nat) :
    st.dequeueBuffer input flags address = finishDequeue address (st.dequeueFirst input flags) := by
  rw [State.dequeueBuffer, State.dequeueFirst]
  split
  · rfl
  obtain ⟨⟨scan, flags', st'⟩, hscan⟩ : ∃ result,
    st.waitForFreeSlotThenRelock input.async flags = result := ⟨_, rfl⟩
  rw [hscan]
  cases scan with
  | failed status => rfl
  | waiting => rfl
  | found s =>
    obtain ⟨hrunning, rfl, -⟩ := waitForFreeSlotThenRelock_running hscan
    by_cases hkept : ((st.scanned input.async).slots s).graphicBuffer.any
        (·.serves ((st.scanned input.async).wanted input)) = true
    · simp only [BufferSlot.dequeue, hkept, if_true, finishDequeue, Bool.not_true, Bool.false_or]
    · have hrunning' : ¬((st.scanned input.async).setSlot s
          ((st.scanned input.async).slots s).choose).isAbandoned = true :=
        Bool.eq_false_iff.mp hrunning
      simp only [dequeue_eq_install hkept, if_neg hkept, finishDequeue, State.dequeueSecond,
        if_neg hrunning', setSlot_setSlot, update_self, State.setSlot_slots]
      rw [Bool.eq_false_iff.mpr hkept, Bool.not_false, Bool.true_or]

theorem waitForFreeSlotThenRelock_queue {async : Bool} {flags' : ReturnFlags} {scan : Scan}
    (h : st.waitForFreeSlotThenRelock async flags = (scan, flags', st')) :
    st'.queue = st.queue := by
  obtain ⟨rfl, -⟩ | ⟨rfl, -⟩ := waitForFreeSlotThenRelock_spec h
  · rfl
  · rfl

theorem dequeueFirst_queue (st : State) (input : DequeueInput) (flags : ReturnFlags) :
    (st.dequeueFirst input flags).2.queue = st.queue := by
  rw [State.dequeueFirst]
  split
  · rfl
  split
  case h_1 hscan => exact waitForFreeSlotThenRelock_queue hscan
  case h_2 hscan => exact waitForFreeSlotThenRelock_queue hscan
  case h_3 hscan =>
    have hqueue := waitForFreeSlotThenRelock_queue hscan
    dsimp only
    split
    · exact hqueue
    · exact hqueue

/-! ## What the other calls do to a slot of the caller's -/

namespace State.Holds

variable {slot : Int}

theorem keep (h : st.Holds s) (hstate : (st'.slots s).bufferState = (st.slots s).bufferState)
    (hbuffer : (st'.slots s).graphicBuffer = (st.slots s).graphicBuffer)
    (hqueue : ∀ item ∈ st'.queue, item.slot = s → item ∈ st.queue)
    (hrunning : st'.isAbandoned = st.isAbandoned) : st'.Holds s where
  dequeued := hstate.trans h.dequeued
  unqueued item hmem hslot := by
    rw [hbuffer]
    exact h.unqueued item (hqueue item hmem hslot) hslot
  running := hrunning.trans h.running

theorem of_slots (h : st.Holds s) (hslots : st'.slots = st.slots) (hqueue : st'.queue = st.queue)
    (hrunning : st'.isAbandoned = st.isAbandoned) : st'.Holds s :=
  h.keep (by rw [hslots]) (by rw [hslots]) (fun item hmem _ => by rwa [← hqueue]) hrunning

/-- One slot changes, which is another one or stays the caller's with its buffer. -/
theorem setSlot (h : st.Holds s) {value : BufferSlot}
    (hvalue : t = s → value.bufferState = (st.slots s).bufferState ∧
      value.graphicBuffer = (st.slots s).graphicBuffer) : (st.setSlot t value).Holds s := by
  by_cases hts : t = s
  · obtain ⟨hstate, hbuffer⟩ := hvalue hts
    subst hts
    have hself : (st.setSlot t value).slots t = value := update_self ..
    exact h.keep (by rw [hself, hstate]) (by rw [hself, hbuffer]) (fun _ hmem _ => hmem) rfl
  · have hother : (st.setSlot t value).slots s = st.slots s := update_of_ne (Ne.symm hts) ..
    exact h.keep (by rw [hother]) (by rw [hother]) (fun _ hmem _ => hmem) rfl

theorem setOther (h : st.Holds s) (hne : t ≠ s) (value : BufferSlot) :
    (st.setSlot t value).Holds s :=
  h.setSlot fun heq => absurd heq hne

theorem ne_of_state (h : st.Holds s) {state : BufferState} (ht : (st.slots t).bufferState = state)
    (hstate : state ≠ .dequeued) : t ≠ s := by
  rintro rfl
  exact hstate (ht.symm.trans h.dequeued)

theorem scanned (h : st.Holds s) (async : Bool) : (st.scanned async).Holds s := by
  have hkept : (st.scanned async).slots s = st.slots s := by
    have hdequeued : (st.slots s).bufferState = .dequeued := h.dequeued
    simp [State.scanned, releaseBeyond, releasesBeyond, hdequeued]
  exact h.keep (by rw [hkept]) (by rw [hkept]) (fun _ hmem _ => hmem) rfl

/-- The slot is not one that an item which leaves the queue refers to. -/
theorem settle_eq (hunqueued : Unqueued (item :: queue) s (slots s).graphicBuffer)
    (value : BufferSlot → BufferSlot) : settle slots item value s = slots s := by
  rw [settle]
  split
  case isFalse => rfl
  case isTrue htrack =>
    refine update_of_ne ?_ ..
    rintro rfl
    obtain ⟨hsome, hsame⟩ := Bool.and_eq_true_iff.mp htrack
    exact hunqueued item mem_cons_self rfl hsome hsame

theorem drains_eq (hunqueued : Unqueued queue s (slots s).graphicBuffer)
    (hdrains : Drains slots queue slots' queue') :
    slots' s = slots s ∧ ∀ item ∈ queue', item ∈ queue := by
  induction hdrains with
  | refl => exact ⟨rfl, fun _ hmem => hmem⟩
  | @pop slots slots' front rest queue' value _ _ ih =>
    have hkept := settle_eq hunqueued value
    have hrest : Unqueued rest s (settle slots front value s).graphicBuffer := by
      rw [hkept]
      exact fun item hmem => hunqueued item (mem_cons_of_mem _ hmem)
    obtain ⟨hslot, hqueue⟩ := ih hrest
    exact ⟨hslot.trans hkept, fun item hmem => mem_cons_of_mem _ (hqueue item hmem)⟩

section

variable (h : st.Holds s)
include h

theorem requestBuffer (slot : Int) : (st.requestBuffer slot).2.Holds s := by
  rw [State.requestBuffer]
  split
  · exact h
  split
  · exact h
  split
  · exact h
  · exact h.setSlot fun heq => by rw [heq]; exact ⟨rfl, rfl⟩

/-- The count cannot be set while the producer has a slot. -/
theorem setBufferCount (count : Int) : (st.setBufferCount count).2.Holds s := by
  have hrefused : ∃ status, st.refusesCount count = some status := by
    have hany : ((finRange numBufferSlots).any
        fun s => (st.slots s).bufferState == .dequeued) = true := by
      have hdequeued : (st.slots s).bufferState = .dequeued := h.dequeued
      exact any_eq_true.mpr ⟨s, mem_finRange s, by rw [hdequeued]; rfl⟩
    rw [State.refusesCount, if_neg (Bool.eq_false_iff.mp h.running), if_pos hany]
    split
    · exact ⟨_, rfl⟩
    · exact ⟨_, rfl⟩
  obtain ⟨status, hstatus⟩ := hrefused
  rw [State.setBufferCount, hstatus]
  exact h

/-- A slot that another call finds is not the caller's. -/
theorem ne_of_found {async : Bool} {flags' : ReturnFlags}
    (hscan : st.waitForFreeSlotThenRelock async flags = (.found t, flags', st')) :
    st'.Holds s ∧ t ≠ s := by
  obtain ⟨-, rfl, hfree⟩ := waitForFreeSlotThenRelock_running hscan
  exact ⟨h.scanned async, (h.scanned async).ne_of_state hfree (by decide)⟩

theorem of_scan {async : Bool} {flags' : ReturnFlags} {scan : Scan}
    (hscan : st.waitForFreeSlotThenRelock async flags = (scan, flags', st')) : st'.Holds s := by
  obtain ⟨rfl, -⟩ | ⟨rfl, -⟩ := waitForFreeSlotThenRelock_spec hscan
  · exact h
  · exact h.scanned async

theorem dequeueFirst (input : DequeueInput) (flags : ReturnFlags) :
    (st.dequeueFirst input flags).2.Holds s := by
  rw [State.dequeueFirst]
  split
  · exact h
  split
  case h_1 hscan => exact h.of_scan hscan
  case h_2 hscan => exact h.of_scan hscan
  case h_3 hscan =>
    obtain ⟨hnext, hne⟩ := h.ne_of_found hscan
    dsimp only
    split
    · exact hnext.setOther hne _
    · exact hnext.setOther hne _

/-- The second section of another call may be for the slot, which then has a new buffer. -/
theorem dequeueSecond (pending : Pending) (hfresh : Unheld st.queue address) :
    (st.dequeueSecond pending address).2.Holds s := by
  rw [State.dequeueSecond, if_neg (Bool.eq_false_iff.mp h.running)]
  by_cases hs : pending.slot = s
  · have hself : (st.setSlot s ((st.slots s).install ⟨pending.wanted, address⟩)).slots s =
        (st.slots s).install ⟨pending.wanted, address⟩ := update_self ..
    rw [hs]
    refine ⟨?_, ?_, h.running⟩
    · rw [State.IsDequeued, hself]
      exact h.dequeued
    · rw [hself]
      exact hfresh.unqueued s pending.wanted
  · exact h.setOther hs _

theorem dequeueBuffer (input : DequeueInput) (flags : ReturnFlags)
    (hfresh : Unheld st.queue address) : (st.dequeueBuffer input flags address).2.Holds s := by
  rw [dequeueBuffer_eq]
  have hfirst := h.dequeueFirst input flags
  have hqueue := dequeueFirst_queue st input flags
  cases hsection : st.dequeueFirst input flags with
  | mk first st' =>
    rw [hsection] at hfirst hqueue
    cases first with
    | returned reply => exact hfirst
    | allocates pending =>
      refine hfirst.dequeueSecond pending ?_
      rw [hqueue]
      exact hfresh

theorem detachNextBuffer : st.detachNextBuffer.2.Holds s := by
  rw [State.detachNextBuffer]
  split
  · exact h
  split
  · exact h
  case h_2 t hfound =>
    have hfree : (st.slots t).bufferState = .free :=
      beq_iff_eq.mp (Bool.and_eq_true_iff.mp (oldest_eligible hfound)).1
    exact h.setOther (h.ne_of_state hfree (by decide)) _

theorem attachBuffer (buffer : Option GraphicBuffer) (flags : ReturnFlags) :
    (st.attachBuffer buffer flags).2.Holds s := by
  cases buffer with
  | none => exact h
  | some buffer =>
    rw [State.attachBuffer]
    split
    case h_1 hscan => exact h.of_scan hscan
    case h_2 hscan => exact h.of_scan hscan
    case h_3 hscan =>
      obtain ⟨hnext, hne⟩ := h.ne_of_found hscan
      exact hnext.setOther hne _

theorem acquireFront : st.acquireFront.2.Holds s := by
  rw [State.acquireFront]
  split
  · exact h
  case h_2 front rest hqueue =>
    have hunqueued := h.unqueued
    rw [hqueue] at hunqueued
    have hkept := settle_eq hunqueued BufferSlot.acquire
    exact h.keep (congrArg BufferSlot.bufferState hkept) (congrArg BufferSlot.graphicBuffer hkept)
      (fun item hmem _ => hqueue ▸ mem_cons_of_mem _ hmem) rfl

theorem acquireBuffer (expected : Int) : (st.acquireBuffer expected).2.Holds s := by
  obtain ⟨hslot, hsub⟩ := drains_eq h.unqueued (dropLoop_drains expected st.slots st.queue)
  have hdropped : State.Holds s { st with
      slots := (dropLoop expected st.slots st.queue).1
      queue := (dropLoop expected st.slots st.queue).2 } :=
    h.keep (congrArg BufferSlot.bufferState hslot) (congrArg BufferSlot.graphicBuffer hslot)
      (fun item hmem _ => hsub item hmem) rfl
  rw [State.acquireBuffer]
  split
  · exact h
  split
  · exact h
  split
  · exact h.acquireFront
  dsimp only
  split
  · exact hdropped
  · exact hdropped.acquireFront

theorem releaseBuffer (slot : Int) (frameNumber : Nat) :
    (st.releaseBuffer slot frameNumber).2.Holds s := by
  rw [State.releaseBuffer]
  split
  · exact h
  split
  · exact h
  split
  · exact h
  split
  case isTrue hacquired => exact h.setOther (h.ne_of_state hacquired (by decide)) _
  split
  · exact h.setSlot fun heq => by rw [heq]; exact ⟨rfl, rfl⟩
  · exact h

theorem connect (api : NativeWindowApi) (controlled : Bool) :
    (st.connect api controlled).2.Holds s := by
  rw [State.connect]
  split
  · exact h
  split
  · exact h
  split
  · exact h
  dsimp only
  split
  · exact h.of_slots rfl rfl rfl
  · exact h.of_slots rfl rfl rfl

theorem consumerConnect (listens controlled : Bool) :
    (st.consumerConnect listens controlled).2.Holds s := by
  rw [State.consumerConnect]
  split
  · exact h
  split
  · exact h
  · exact h.of_slots rfl rfl rfl

end

theorem enqueue_slot (hunqueued : Unqueued queue s (slots s).graphicBuffer) :
    (enqueue slots queue item).1 s = slots s := by
  cases queue with
  | nil => rfl
  | cons front rest =>
    rw [enqueue]
    split
    · exact settle_eq hunqueued BufferSlot.dropped
    · rfl

theorem mem_enqueue {other : BufferItem} (hmem : other ∈ (enqueue slots queue item).2) :
    other = item ∨ other ∈ queue := by
  cases queue with
  | nil => exact .inl (mem_singleton.mp hmem)
  | cons front rest =>
    rw [enqueue] at hmem
    split at hmem
    · exact (mem_cons.mp hmem).imp_right (mem_cons_of_mem _)
    · exact (mem_append.mp hmem).symm.imp_left mem_singleton.mp

section

variable (h : st.Holds s)
include h

/-- A frame of another slot is queued. -/
theorem afterQueue (hne : t ≠ s) (input : QueueBufferInput) : (st.afterQueue t input).Holds s := by
  have hother (value : BufferSlot) : update st.slots t value s = st.slots s :=
    update_of_ne (Ne.symm hne) ..
  have hunqueued (value : BufferSlot) :
      Unqueued st.queue s (update st.slots t value s).graphicBuffer := by
    rw [hother]
    exact h.unqueued
  have hslot : (st.afterQueue t input).slots s = st.slots s :=
    (enqueue_slot (hunqueued _)).trans (hother _)
  refine h.keep (congrArg BufferSlot.bufferState hslot) (congrArg BufferSlot.graphicBuffer hslot)
    (fun item hmem hitem => ?_) rfl
  rcases mem_enqueue hmem with rfl | hmem
  · exact absurd hitem hne
  · exact hmem

theorem detachBuffer
    (hkeeps : ¬(slotIndex slot = some s ∧ (st.slots s).requestBufferCalled = true)) :
    (st.detachBuffer slot).2.Holds s := by
  rw [State.detachBuffer]
  split
  · exact h
  split
  · exact h
  case h_2 t hslot =>
    split
    · exact h
    split
    · exact h
    case isFalse hrequested =>
      refine h.setOther ?_ _
      rintro rfl
      exact hkeeps ⟨hslot, by simpa using hrequested⟩

theorem queueBuffer {input : QueueBufferInput}
    (hkeeps : ¬st.queueable slot input = .ok s) : (st.queueBuffer slot input).2.Holds s := by
  rw [State.queueBuffer]
  split
  · exact h
  case h_2 t hok =>
    refine h.afterQueue ?_ input
    rintro rfl
    exact hkeeps hok

theorem cancelBuffer (hkeeps : ¬slotIndex slot = some s)
    (fence : Fence) : (st.cancelBuffer slot fence).Holds s := by
  rw [State.cancelBuffer]
  split
  · exact h
  split
  · exact h
  case h_2 t hslot =>
    split
    · exact h
    · refine h.setOther ?_ _
      rintro rfl
      exact hkeeps hslot

theorem disconnect {api : NativeWindowApi}
    (hkeeps : ¬(api.isKnown = true ∧ st.connectedApi = api)) : (st.disconnect api).2.Holds s := by
  rw [State.disconnect]
  split
  · exact h
  split
  · exact h
  split
  · exact h
  case isFalse hknown hconnected =>
    exact absurd ⟨by simpa using hknown, not_not.mp hconnected⟩ hkeeps

theorem setPreallocatedBuffer (hkeeps : ¬slotIndex slot = some s) (buffer : Option NvGraphicBuffer)
    (address : Nat) : (st.setPreallocatedBuffer slot buffer address).2.Holds s := by
  rw [State.setPreallocatedBuffer]
  split
  · exact h
  case h_2 t hslot =>
    have hne : t ≠ s := by
      rintro rfl
      exact hkeeps hslot
    have hset := h.setOther hne (.preallocate buffer address)
    cases buffer with
    | none => exact hset
    | some buffer => exact hset.of_slots rfl rfl rfl

theorem consumerDisconnect (hkeeps : ¬st.hasConsumerListener = true) :
    st.consumerDisconnect.2.Holds s := by
  rw [State.consumerDisconnect, if_pos (by simpa using hkeeps)]
  exact h

end

end State.Holds

/-! ## The calls that take a slot away -/

/-- A step takes the slot away, or the caller still has it. -/
theorem gapStep_holds {step : GapStep} (h : st.Holds s) (hfresh : st.GapAllocates step)
    (hkeeps : ¬st.Takes s step) : (st.gapStep step).Holds s := by
  cases step with
  | first input flags => exact h.dequeueFirst input flags
  | second pending address => exact h.dequeueSecond pending hfresh
  | call op =>
    cases op with
    | requestBuffer slot => exact h.requestBuffer slot
    | setBufferCount count => exact h.setBufferCount count
    | dequeueBuffer input flags address => exact h.dequeueBuffer input flags hfresh
    | detachBuffer slot => exact h.detachBuffer hkeeps
    | detachNextBuffer => exact h.detachNextBuffer
    | attachBuffer buffer flags => exact h.attachBuffer buffer flags
    | queueBuffer slot input => exact h.queueBuffer hkeeps
    | cancelBuffer slot fence => exact h.cancelBuffer hkeeps fence
    | connect api controlled => exact h.connect api controlled
    | disconnect api => exact h.disconnect hkeeps
    | setPreallocatedBuffer slot buffer address =>
      exact h.setPreallocatedBuffer hkeeps buffer address
    | acquireBuffer expected => exact h.acquireBuffer expected
    | releaseBuffer slot frameNumber => exact h.releaseBuffer slot frameNumber
    | consumerConnect listens controlled => exact h.consumerConnect listens controlled
    | consumerDisconnect => exact h.consumerDisconnect hkeeps

/-- A call that takes the slot away leaves it in another state. -/
theorem not_isDequeued_of_takes {step : GapStep} (h : st.Holds s) (htakes : st.Takes s step) :
    ¬(st.gapStep step).IsDequeued s := by
  have hdequeued : (st.slots s).bufferState = .dequeued := h.dequeued
  have hrunning := Bool.eq_false_iff.mp h.running
  cases step with
  | first input flags => exact absurd htakes id
  | second pending address => exact absurd htakes id
  | call op =>
    cases op with
    | detachBuffer slot =>
      obtain ⟨hslot, hrequested⟩ := htakes
      have hstep : st.gapStep (.call (.detachBuffer slot)) = st.freeBufferLocked s := by
        simp [State.gapStep, State.step, State.perform, State.detachBuffer, hrunning, hslot,
          hdequeued, hrequested]
      simp [hstep, State.IsDequeued, State.freeBufferLocked, BufferSlot.freed]
    | queueBuffer slot input =>
      have hok : st.queueable slot input = .ok s := htakes
      have hstep : st.gapStep (.call (.queueBuffer slot input)) = st.afterQueue s input := by
        simp only [State.gapStep, State.step, State.perform, State.queueBuffer, hok]
      have hslot : (st.afterQueue s input).slots s = { st.slots s with
          fence := input.fence
          bufferState := .queued
          frameNumber := (st.frameCounter + 1) % 2 ^ 64 } := by
        refine (State.Holds.enqueue_slot ?_).trans (update_self ..)
        rw [update_self]
        exact h.unqueued
      simp [hstep, State.IsDequeued, hslot]
    | cancelBuffer slot fence =>
      have hslot : slotIndex slot = some s := htakes
      simp [State.gapStep, State.step, State.perform, State.cancelBuffer, hrunning, hslot,
        hdequeued, State.IsDequeued]
    | disconnect api =>
      obtain ⟨hknown, hconnected⟩ := htakes
      simp [State.gapStep, State.step, State.perform, State.disconnect, hrunning, hknown,
        hconnected, State.IsDequeued, State.freeAllBuffersLocked, BufferSlot.freed]
    | setPreallocatedBuffer slot buffer address =>
      have hslot : slotIndex slot = some s := htakes
      have hfree : ((st.setSlot s (.preallocate buffer address)).slots
          s).bufferState = .free := by
        rw [State.setSlot_slots, update_self]
        rfl
      have hstep : ((st.gapStep (.call (.setPreallocatedBuffer slot buffer address))).slots
          s).bufferState = .free := by
        rw [← hfree]
        simp only [State.gapStep, State.step, State.perform, State.setPreallocatedBuffer, hslot]
        cases buffer with
        | none => rfl
        | some buffer => rfl
      rw [State.IsDequeued, hstep]
      decide
    | consumerDisconnect =>
      have hlistens : st.hasConsumerListener = true := htakes
      simp [State.gapStep, State.step, State.perform, State.consumerDisconnect, hlistens,
        State.IsDequeued, State.freeAllBuffersLocked, BufferSlot.freed]
    | _ => exact absurd htakes id

/-! ## The gap -/

/-- The slot is the caller's when the gap begins. -/
theorem holds_of_dequeueFirst (hfirst : st.dequeueFirst input flags = (.allocates pending, st')) :
    st'.Holds pending.slot := by
  rw [State.dequeueFirst] at hfirst
  split at hfirst
  · cases hfirst
  split at hfirst
  · cases hfirst
  · cases hfirst
  case h_3 s flags' scanned hscan =>
    obtain ⟨hrunning, rfl, -⟩ := waitForFreeSlotThenRelock_running hscan
    dsimp only at hfirst
    split at hfirst
    case isTrue => cases hfirst
    case isFalse =>
      cases hfirst
      have hself : (((st.scanned input.async).setSlot s
          ((st.scanned input.async).slots s).choose).slots s) =
            ((st.scanned input.async).slots s).choose := update_self ..
      refine ⟨?_, ?_, hrunning⟩
      · rw [State.IsDequeued, hself]
        rfl
      · rw [hself]
        exact unqueued_none

/-- A call keeps its slot over a gap, as long as it does not fail, exactly when no step of the gap
takes the slot away. -/
theorem keepsOwnership_iff (st st' : State) (input : DequeueInput) (flags : ReturnFlags)
    (pending : Pending) (gap : List GapStep) (address : Nat)
    (hfirst : st.dequeueFirst input flags = (.allocates pending, st'))
    (hfresh : Along State.gapStep State.GapAllocates st' gap) :
    KeepsOwnership st' gap pending address ↔ (gap.foldl State.gapStep st').isAbandoned = true ∨
        Along State.gapStep (fun st step => ¬st.Takes pending.slot step) st' gap := by
  have hrun : Throughout State.gapStep (State.IsDequeued pending.slot) st' gap ↔
      Along State.gapStep (fun st step => ¬st.Takes pending.slot step) st' gap :=
    throughout_iff_along (fun _ h => h.dequeued)
      (fun _ _ h hfresh hkeeps => gapStep_holds h hfresh hkeeps)
      (fun _ _ h _ htakes => not_isDequeued_of_takes h (not_not.mp htakes))
      (holds_of_dequeueFirst hfirst) hfresh
  rw [← hrun]
  by_cases habandoned : (gap.foldl State.gapStep st').isAbandoned = true
  · refine iff_of_true ⟨fun s fence flags hreply => ?_, fun s hwrites => ?_⟩ (.inl habandoned)
    · rw [State.dequeueSecond, if_pos habandoned] at hreply
      cases hreply
    · rw [State.dequeueSecond, if_pos habandoned] at hwrites
      exact absurd rfl hwrites
  · have hsecond : (gap.foldl State.gapStep st').dequeueSecond pending address =
        (.dequeued pending.slot .noFence pending.flags, (gap.foldl State.gapStep st').setSlot
          pending.slot (((gap.foldl State.gapStep st').slots pending.slot).install
            ⟨pending.wanted, address⟩)) := by
      rw [State.dequeueSecond, if_neg habandoned]
    constructor
    · intro hkeeps
      exact .inr (hkeeps.1 pending.slot .noFence pending.flags (congrArg Prod.fst hsecond))
    · intro hcondition
      have hthroughout := hcondition.resolve_left habandoned
      refine ⟨fun s fence flags hreply => ?_, fun s hwrites => ?_⟩
      · rw [hsecond] at hreply
        cases hreply
        exact hthroughout
      · -- the one slot that the second section writes to
        have hs : s = pending.slot := by
          by_contra hne
          rw [hsecond] at hwrites
          exact hwrites (update_of_ne hne ..)
        rw [hs]
        exact hthroughout

/-! ## Gaps -/

/-- A queue with a consumer and a producer. -/
def connectedQueue : State :=
  ([.consumerConnect true false, .connect .egl false] : List Operation).foldl State.step .initial

/-- What `DequeueBuffer` makes a buffer for in that queue. -/
def firstPending : Pending := ⟨0, ⟨1, 1, .rgba8888, 0⟩, ⟨true, false⟩⟩

/-- The producer asks about its slot, and another call of `DequeueBuffer` is refused. -/
def quietGap : List GapStep := [.call (.requestBuffer 0), .first defaultRequest .none]

theorem keepsOwnership_iff_quietGap :
    KeepsOwnership (connectedQueue.dequeueFirst defaultRequest .none).2 quietGap firstPending 1 ∧
      connectedQueue.dequeueFirst defaultRequest .none =
        (.allocates firstPending, (connectedQueue.dequeueFirst defaultRequest .none).2) := by
  have hfirst : connectedQueue.dequeueFirst defaultRequest .none =
      (.allocates firstPending, (connectedQueue.dequeueFirst defaultRequest .none).2) := rfl
  exact ⟨(keepsOwnership_iff connectedQueue _ defaultRequest .none firstPending quietGap 1 hfirst
    ⟨trivial, trivial, trivial⟩).mpr (.inr ⟨id, id, trivial⟩), hfirst⟩

/-- The producer disconnects in the gap, which frees the slot; the call gives it out nevertheless.
-/
theorem not_keepsOwnership_disconnect :
    connectedQueue.dequeueFirst defaultRequest .none =
        (.allocates firstPending, (connectedQueue.dequeueFirst defaultRequest .none).2) ∧
      Along State.gapStep State.GapAllocates
        (connectedQueue.dequeueFirst defaultRequest .none).2 [.call (.disconnect .egl)] ∧
      ¬KeepsOwnership (connectedQueue.dequeueFirst defaultRequest .none).2
        [.call (.disconnect .egl)] firstPending 1 := by
  refine ⟨rfl, ⟨trivial, trivial⟩, fun hkeeps => ?_⟩
  have hthroughout := hkeeps.1 0 .noFence ⟨true, false⟩ rfl
  have hlast : (((connectedQueue.dequeueFirst defaultRequest .none).2.gapStep
    (.call (.disconnect .egl))).slots 0).bufferState = .dequeued := hthroughout.2
  exact absurd hlast (by decide +kernel)

end Sudachi.Service.BufferQueue
