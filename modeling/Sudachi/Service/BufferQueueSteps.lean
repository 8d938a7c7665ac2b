import Sudachi.Foundations.Runs
import Sudachi.Service.BufferQueue

/-!
# What a call of the buffer queue can do

`perform_outcome` says once what a call does to the slots, the items, the buffer count and the
counter of the frames. The invariants of the queue are read off the outcomes.
-/

set_option autoImplicit false

namespace Sudachi.Service.BufferQueue

variable {slots slots' : Slots} {queue queue' rest : List BufferItem} {item front : BufferItem}
  {s t : SlotIndex} {st st' : State}

/-! ## Changes of slots and of the queue -/

/-- The number of the frame that a call hands out. -/
def Reply.frames : Reply → List Nat
  | .acquired item => [item.frameNumber]
  | _ => []

/-- What a call that finds a slot by its number does to it: its buffer and its state are kept, or
its owner gives it back, or its buffer is freed. -/
inductive SlotMove (old new : BufferSlot) : Prop where
  | kept (hbuffer : new.graphicBuffer = old.graphicBuffer)
      (hstate : new.bufferState = old.bufferState)
  | returned (howner : old.bufferState = .dequeued ∨ old.bufferState = .acquired)
      (hbuffer : new.graphicBuffer = old.graphicBuffer) (hstate : new.bufferState = .free)
  | freed (h : new = old.freed)

/-- What becomes of the slot of an item that is taken from the queue. -/
structure Leaves (value : BufferSlot → BufferSlot) : Prop where
  buffer : ∀ old, (value old).graphicBuffer = old.graphicBuffer
  state : ∀ old, (value old).bufferState = .free ∨ (value old).bufferState = .acquired

/-- Items are taken from the front of the queue, one after another. -/
inductive Drains : Slots → List BufferItem → Slots → List BufferItem → Prop where
  | refl (slots : Slots) (queue : List BufferItem) : Drains slots queue slots queue
  | pop {slots slots' : Slots} {front : BufferItem} {rest queue' : List BufferItem}
      {value : BufferSlot → BufferSlot} (hvalue : Leaves value)
      (h : Drains (settle slots front value) rest slots' queue') :
      Drains slots (front :: rest) slots' queue'

theorem leaves_dropped : Leaves BufferSlot.dropped := ⟨fun _ => rfl, fun _ => .inl rfl⟩

theorem leaves_free : Leaves fun slot => { slot with bufferState := .free } :=
  ⟨fun _ => rfl, fun _ => .inl rfl⟩

theorem leaves_acquire : Leaves BufferSlot.acquire := ⟨fun _ => rfl, fun _ => .inr rfl⟩

theorem dropLoop_drains (expected : Int) (slots : Slots) (queue : List BufferItem) :
    Drains slots queue (dropLoop expected slots queue).1 (dropLoop expected slots queue).2 := by
  fun_induction dropLoop expected slots queue with
  | case1 => exact .refl _ _
  | case2 slots front next rest _ ih => exact .pop leaves_free ih
  | case3 => exact .refl _ _

theorem Drains.sublist (h : Drains slots queue slots' queue') : queue'.Sublist queue := by
  induction h with
  | refl => exact List.Sublist.refl _
  | pop _ _ ih => exact ih.trans (List.sublist_cons_self _ _)

/-! ## The search for a free slot -/

/-- The slot that is found is one of those that meet the condition. -/
theorem oldest_eligible {eligible : SlotIndex → Bool} (h : oldest slots eligible = some s) :
    eligible s = true := by
  have hfold : ∀ (l : List SlotIndex) (found : Option SlotIndex),
      (∀ t, found = some t → eligible t = true) →
      ∀ t, l.foldl (fun found slot =>
        if eligible slot && found.all (fun f => (slots slot).frameNumber < (slots f).frameNumber)
        then some slot else found) found = some t → eligible t = true := by
    intro l
    induction l with
    | nil => exact fun found hfound => hfound
    | cons slot _ ih =>
      intro found hfound
      refine ih _ fun t ht => ?_
      dsimp only at ht
      split at ht
      case isTrue hif =>
        cases ht
        exact (Bool.and_eq_true_iff.mp hif).1
      case isFalse => exact hfound t ht
  exact hfold _ none (by simp) s h

theorem scanResult_found {async : Bool} {bound : Nat} (h : st.scanResult async bound = .found s) :
    s.val < bound ∧ (st.slots s).bufferState = .free := by
  rw [State.scanResult] at h
  split at h
  · cases h
  split at h
  · cases h
  dsimp only at h
  split at h
  case h_1 slot _ hfound _ =>
    cases h
    simpa using oldest_eligible hfound
  case h_2 =>
    split at h
    · cases h
    · cases h

/-- The state that a pass for a free slot leaves. -/
def State.scanned (st : State) (async : Bool) : State :=
  { st with slots := releaseBeyond st.slots (st.getMaxBufferCountLocked async) }

/-- A pass for a free slot at most frees buffers beyond the count, and the slot it finds is a free
one below the count. -/
theorem waitForFreeSlotThenRelock_spec {async : Bool} {flags flags' : ReturnFlags} {scan : Scan}
    (h : st.waitForFreeSlotThenRelock async flags = (scan, flags', st')) :
    (st' = st ∧ ∀ s, scan ≠ .found s) ∨ (st' = st.scanned async ∧ ∀ s, scan = .found s →
      s.val < st.getMaxBufferCountLocked async ∧ ((st.scanned async).slots s).bufferState = .free) := by
  rw [State.waitForFreeSlotThenRelock] at h
  split at h
  case isTrue =>
    cases h
    exact .inl ⟨rfl, fun s hs => by cases hs⟩
  dsimp only at h
  split at h
  case isTrue =>
    cases h
    exact .inl ⟨rfl, fun s hs => by cases hs⟩
  case isFalse =>
    cases h
    exact .inr ⟨rfl, fun s hs => scanResult_found hs⟩

/-! ## The outcomes -/

/-- What a call can do. -/
inductive Outcome (st : State) : Operation → Reply → State → Prop where
  /-- Nothing that concerns the slots and the items. -/
  | quiet {op : Operation} {reply : Reply} {st' : State} (hreply : reply.frames = [])
      (hslots : st'.slots = st.slots) (hqueue : st'.queue = st.queue)
      (hcount : st'.overrideMaxBufferCount = st.overrideMaxBufferCount)
      (hcounter : st'.frameCounter = st.frameCounter) : Outcome st op reply st'
  | moved {op : Operation} {reply : Reply} {s : SlotIndex} {value : BufferSlot}
      (hreply : reply.frames = []) (hmove : SlotMove (st.slots s) value) :
      Outcome st op reply (st.setSlot s value)
  | scanned {op : Operation} {reply : Reply} {async : Bool} (hreply : reply.frames = []) :
      Outcome st op reply (st.scanned async)
  | dequeued {input : DequeueInput} {flags : ReturnFlags} {address : Nat} {reply : Reply}
      {s : SlotIndex} {wanted : NvGraphicBuffer} (hreply : reply.frames = [])
      (hcount : s.val < st.getMaxBufferCountLocked input.async)
      (hfree : ((st.scanned input.async).slots s).bufferState = .free) :
      Outcome st (.dequeueBuffer input flags address) reply
        ((st.scanned input.async).setSlot s (((st.scanned input.async).slots s).dequeue wanted address))
  | attached {buffer : GraphicBuffer} {flags flags' : ReturnFlags} {reply : Reply} {s : SlotIndex}
      (hreply : reply.frames = [])
      (hscan : st.waitForFreeSlotThenRelock false flags = (.found s, flags', st.scanned false))
      (hcount : s.val < st.getMaxBufferCountLocked false)
      (hfree : ((st.scanned false).slots s).bufferState = .free) :
      Outcome st (.attachBuffer (some buffer) flags) reply
        ((st.scanned false).setSlot s (((st.scanned false).slots s).attach buffer))
  /-- The count is set, with the buffers as they are. -/
  | counted {count : Fin (numBufferSlots + 1)} {reply : Reply} (hreply : reply.frames = [])
      (haccepted : st.refusesCount count = none)
      (hkept : count = 0 ∨ 0 < getPreallocatedBufferCountLocked st.slots) :
      Outcome st (.setBufferCount count) reply { st with overrideMaxBufferCount := count }
  /-- The count is set, and all buffers are freed. -/
  | recounted {op : Operation} {count : Fin (numBufferSlots + 1)} {reply : Reply}
      (hreply : reply.frames = []) :
      Outcome st op reply { st.freeAllBuffersLocked with overrideMaxBufferCount := count }
  | emptied {slot : Int} {address : Nat} {reply : Reply} {s : SlotIndex}
      (hreply : reply.frames = []) (hslot : slotIndex slot = some s) :
      Outcome st (.setPreallocatedBuffer slot none address) reply
        (st.setSlot s (.preallocate none address))
  | preallocated {slot : Int} {buffer : NvGraphicBuffer} {address : Nat} {reply : Reply}
      {s : SlotIndex} {st' : State} (hreply : reply.frames = []) (hslot : slotIndex slot = some s)
      (hslots : st'.slots = (st.setSlot s (.preallocate (some buffer) address)).slots)
      (hqueue : st'.queue = st.queue)
      (hcount : st'.overrideMaxBufferCount = getPreallocatedBufferCountLocked st'.slots)
      (hcounter : st'.frameCounter = st.frameCounter) :
      Outcome st (.setPreallocatedBuffer slot (some buffer) address) reply st'
  | queued {slot : Int} {input : QueueBufferInput} {reply : Reply} {s : SlotIndex}
      (hreply : reply.frames = []) (hok : st.queueable slot input = .ok s) :
      Outcome st (.queueBuffer slot input) reply (st.afterQueue s input)
  | drained {op : Operation} {reply : Reply} {slots' : Slots} {queue' : List BufferItem}
      (hreply : reply.frames = []) (hdrains : Drains st.slots st.queue slots' queue') :
      Outcome st op reply { st with slots := slots', queue := queue' }
  | acquired {op : Operation} {slots' : Slots} {front : BufferItem} {rest : List BufferItem}
      (hdrains : Drains st.slots st.queue slots' (front :: rest)) :
      Outcome st op (.acquired front.handedOut)
        { st with slots := settle slots' front BufferSlot.acquire, queue := rest }
  | cleared {op : Operation} {reply : Reply} {st' : State} (hreply : reply.frames = [])
      (hslots : st'.slots = fun s => (st.slots s).freed) (hqueue : st'.queue = [])
      (hcount : st'.overrideMaxBufferCount = st.overrideMaxBufferCount)
      (hcounter : st'.frameCounter = st.frameCounter) : Outcome st op reply st'

theorem outcome_same {op : Operation} {reply : Reply} (hreply : reply.frames = []) :
    Outcome st op reply st :=
  .quiet hreply rfl rfl rfl rfl

theorem requestBuffer_outcome (op : Operation) (slot : Int) :
    Outcome st op (st.requestBuffer slot).1 (st.requestBuffer slot).2 := by
  rw [State.requestBuffer]
  split
  · exact outcome_same rfl
  split
  · exact outcome_same rfl
  split
  · exact outcome_same rfl
  · exact .moved rfl (.kept rfl rfl)

/-- The count that `SetBufferCount` accepts is stored as it is. -/
theorem refusesCount_eq_none {count : Int} (h : st.refusesCount count = none) (hcount : 0 ≤ count) :
    ((Fin.ofNat (numBufferSlots + 1) count.toNat).val : Int) = count := by
  rw [State.refusesCount] at h
  split at h
  · cases h
  split at h
  · cases h
  case isFalse hle =>
    have hlt : count.toNat < numBufferSlots + 1 := by omega
    rw [Fin.val_ofNat, Nat.mod_eq_of_lt hlt]
    exact Int.toNat_of_nonneg hcount

theorem setBufferCount_outcome (count : Int) : Outcome st (.setBufferCount count)
    (st.setBufferCount count).1 (st.setBufferCount count).2 := by
  rw [State.setBufferCount]
  split
  · exact outcome_same rfl
  case h_2 haccepted =>
    split
    case isTrue hzero =>
      subst hzero
      have hcounted : Outcome st (.setBufferCount ((0 : Fin (numBufferSlots + 1)).val : Int))
          (.status .noError) { st with overrideMaxBufferCount := 0 } :=
        .counted rfl haccepted (.inl rfl)
      exact hcounted
    split
    · exact outcome_same rfl
    case isFalse hmin =>
      dsimp only
      split
      case isTrue => exact .recounted rfl
      case isFalse hpre =>
        have hstored := refusesCount_eq_none haccepted (by omega)
        have hpositive : 0 < getPreallocatedBufferCountLocked st.slots :=
          Fin.pos_of_ne_zero fun h => hpre (h ▸ Fin.le_refl _)
        have hcounted : Outcome st
            (.setBufferCount ((Fin.ofNat (numBufferSlots + 1) count.toNat).val : Int))
            (.status .noError)
            { st with overrideMaxBufferCount := Fin.ofNat (numBufferSlots + 1) count.toNat } :=
          .counted rfl (by rw [hstored]; exact haccepted) (.inr hpositive)
        rw [hstored] at hcounted
        exact hcounted

theorem dequeueBuffer_outcome (input : DequeueInput) (flags : ReturnFlags) (address : Nat) :
    Outcome st (.dequeueBuffer input flags address) (st.dequeueBuffer input flags address).1
      (st.dequeueBuffer input flags address).2 := by
  rw [State.dequeueBuffer]
  split
  · exact outcome_same rfl
  split
  case h_1 heq =>
    obtain ⟨rfl, -⟩ | ⟨rfl, -⟩ := waitForFreeSlotThenRelock_spec heq
    · exact outcome_same rfl
    · exact .scanned rfl
  case h_2 heq =>
    obtain ⟨rfl, -⟩ | ⟨rfl, -⟩ := waitForFreeSlotThenRelock_spec heq
    · exact outcome_same rfl
    · exact .scanned rfl
  case h_3 s flags' st' heq =>
    obtain ⟨-, hnone⟩ | ⟨rfl, hfound⟩ := waitForFreeSlotThenRelock_spec heq
    · exact absurd rfl (hnone s)
    · exact .dequeued rfl (hfound s rfl).1 (hfound s rfl).2

theorem detachBuffer_outcome (op : Operation) (slot : Int) :
    Outcome st op (st.detachBuffer slot).1 (st.detachBuffer slot).2 := by
  rw [State.detachBuffer]
  split
  · exact outcome_same rfl
  split
  · exact outcome_same rfl
  split
  · exact outcome_same rfl
  split
  · exact outcome_same rfl
  · exact .moved rfl (.freed rfl)

theorem detachNextBuffer_outcome (op : Operation) :
    Outcome st op st.detachNextBuffer.1 st.detachNextBuffer.2 := by
  rw [State.detachNextBuffer]
  split
  · exact outcome_same rfl
  split
  · exact outcome_same rfl
  · exact .moved rfl (.freed rfl)

theorem attachBuffer_outcome (buffer : Option GraphicBuffer) (flags : ReturnFlags) :
    Outcome st (.attachBuffer buffer flags) (st.attachBuffer buffer flags).1
      (st.attachBuffer buffer flags).2 := by
  cases buffer with
  | none => exact outcome_same rfl
  | some buffer =>
    rw [State.attachBuffer]
    split
    case h_1 heq =>
      obtain ⟨rfl, -⟩ | ⟨rfl, -⟩ := waitForFreeSlotThenRelock_spec heq
      · exact outcome_same rfl
      · exact .scanned rfl
    case h_2 heq =>
      obtain ⟨rfl, -⟩ | ⟨rfl, -⟩ := waitForFreeSlotThenRelock_spec heq
      · exact outcome_same rfl
      · exact .scanned rfl
    case h_3 s flags' st' heq =>
      obtain ⟨-, hnone⟩ | ⟨rfl, hfound⟩ := waitForFreeSlotThenRelock_spec heq
      · exact absurd rfl (hnone s)
      · exact .attached rfl heq (hfound s rfl).1 (hfound s rfl).2

/-- `QueueBuffer` accepts a slot of the producer's, and refuses the others without a frame. -/
theorem queueable_spec (st : State) (slot : Int) (input : QueueBufferInput) :
    (∃ s, st.queueable slot input = .ok s ∧ (st.slots s).bufferState = .dequeued) ∨
      ∃ reply, st.queueable slot input = .error reply ∧ reply.frames = [] := by
  rw [State.queueable]
  split
  · exact .inr ⟨_, rfl, rfl⟩
  split
  · exact .inr ⟨_, rfl, rfl⟩
  dsimp only
  split
  · exact .inr ⟨_, rfl, rfl⟩
  split
  · exact .inr ⟨_, rfl, rfl⟩
  split
  · exact .inr ⟨_, rfl, rfl⟩
  split
  · exact .inr ⟨_, rfl, rfl⟩
  case isFalse s _ _ hstate =>
    split
    · exact .inr ⟨_, rfl, rfl⟩
    split
    · exact .inr ⟨_, rfl, rfl⟩
    split
    · exact .inr ⟨_, rfl, rfl⟩
    · exact .inl ⟨s, rfl, by simpa using hstate⟩

theorem queueable_dequeued {slot : Int} {input : QueueBufferInput}
    (h : st.queueable slot input = .ok s) : (st.slots s).bufferState = .dequeued := by
  obtain ⟨t, hok, hdequeued⟩ | ⟨reply, herror, -⟩ := queueable_spec st slot input
  · rw [h] at hok
    cases hok
    exact hdequeued
  · rw [h] at herror
    cases herror

theorem queueBuffer_outcome (slot : Int) (input : QueueBufferInput) :
    Outcome st (.queueBuffer slot input) (st.queueBuffer slot input).1
      (st.queueBuffer slot input).2 := by
  obtain ⟨s, hok, -⟩ | ⟨reply, herror, hframes⟩ := queueable_spec st slot input
  · rw [State.queueBuffer, hok]
    exact .queued rfl hok
  · rw [State.queueBuffer, herror]
    exact outcome_same hframes

theorem cancelBuffer_outcome (op : Operation) (slot : Int) (fence : Fence) :
    Outcome st op (.status .noError) (st.cancelBuffer slot fence) := by
  rw [State.cancelBuffer]
  split
  · exact outcome_same rfl
  split
  · exact outcome_same rfl
  split
  · exact outcome_same rfl
  case isFalse hstate => exact .moved rfl (.returned (.inl (by simpa using hstate)) rfl rfl)

theorem connect_outcome (op : Operation) (api : NativeWindowApi) (controlled : Bool) :
    Outcome st op (st.connect api controlled).1 (st.connect api controlled).2 := by
  rw [State.connect]
  split
  · exact outcome_same rfl
  split
  · exact outcome_same rfl
  split
  · exact outcome_same rfl
  dsimp only
  split
  · exact .quiet rfl rfl rfl rfl rfl
  · exact .quiet rfl rfl rfl rfl rfl

theorem disconnect_outcome (op : Operation) (api : NativeWindowApi) :
    Outcome st op (st.disconnect api).1 (st.disconnect api).2 := by
  rw [State.disconnect]
  split
  · exact outcome_same rfl
  split
  · exact outcome_same rfl
  split
  · exact outcome_same rfl
  · exact .cleared rfl rfl rfl rfl rfl

theorem setPreallocatedBuffer_outcome (slot : Int) (buffer : Option NvGraphicBuffer)
    (address : Nat) : Outcome st (.setPreallocatedBuffer slot buffer address)
      (st.setPreallocatedBuffer slot buffer address).1
      (st.setPreallocatedBuffer slot buffer address).2 := by
  rw [State.setPreallocatedBuffer]
  split
  · exact outcome_same rfl
  case h_2 s hslot =>
    cases buffer with
    | none => exact .emptied rfl hslot
    | some buffer => exact .preallocated rfl hslot rfl rfl rfl rfl

theorem acquireFront_outcome (op : Operation) (hdrains : Drains st.slots st.queue slots' queue') :
    Outcome st op ({ st with slots := slots', queue := queue' } : State).acquireFront.1
      ({ st with slots := slots', queue := queue' } : State).acquireFront.2 := by
  cases queue' with
  | nil => exact .drained rfl hdrains
  | cons front rest => exact .acquired hdrains

theorem acquireBuffer_outcome (op : Operation) (expected : Int) :
    Outcome st op (st.acquireBuffer expected).1 (st.acquireBuffer expected).2 := by
  rw [State.acquireBuffer]
  split
  · exact outcome_same rfl
  split
  · exact outcome_same rfl
  split
  · exact acquireFront_outcome op (.refl _ _)
  dsimp only
  split
  · exact .drained rfl (dropLoop_drains expected st.slots st.queue)
  · exact acquireFront_outcome op (dropLoop_drains expected st.slots st.queue)

theorem releaseBuffer_outcome (op : Operation) (slot : Int) (frameNumber : Nat) :
    Outcome st op (st.releaseBuffer slot frameNumber).1 (st.releaseBuffer slot frameNumber).2 := by
  rw [State.releaseBuffer]
  split
  · exact outcome_same rfl
  split
  · exact outcome_same rfl
  split
  · exact outcome_same rfl
  split
  case isTrue hacquired => exact .moved rfl (.returned (.inr hacquired) rfl rfl)
  split
  · exact .moved rfl (.kept rfl rfl)
  · exact outcome_same rfl

theorem consumerConnect_outcome (op : Operation) (listens controlled : Bool) :
    Outcome st op (st.consumerConnect listens controlled).1
      (st.consumerConnect listens controlled).2 := by
  rw [State.consumerConnect]
  split
  · exact outcome_same rfl
  split
  · exact outcome_same rfl
  · exact .quiet rfl rfl rfl rfl rfl

theorem consumerDisconnect_outcome (op : Operation) :
    Outcome st op st.consumerDisconnect.1 st.consumerDisconnect.2 := by
  rw [State.consumerDisconnect]
  split
  · exact outcome_same rfl
  · exact .cleared rfl rfl rfl rfl rfl

/-- Every call has one of the outcomes. -/
theorem perform_outcome (st : State) (op : Operation) :
    Outcome st op (st.perform op).1 (st.step op) := by
  cases op with
  | requestBuffer slot => exact requestBuffer_outcome _ slot
  | setBufferCount count => exact setBufferCount_outcome count
  | dequeueBuffer input flags address => exact dequeueBuffer_outcome input flags address
  | detachBuffer slot => exact detachBuffer_outcome _ slot
  | detachNextBuffer => exact detachNextBuffer_outcome _
  | attachBuffer buffer flags => exact attachBuffer_outcome buffer flags
  | queueBuffer slot input => exact queueBuffer_outcome slot input
  | cancelBuffer slot fence => exact cancelBuffer_outcome _ slot fence
  | connect api controlled => exact connect_outcome _ api controlled
  | disconnect api => exact disconnect_outcome _ api
  | setPreallocatedBuffer slot buffer address =>
    exact setPreallocatedBuffer_outcome slot buffer address
  | acquireBuffer expected => exact acquireBuffer_outcome _ expected
  | releaseBuffer slot frameNumber => exact releaseBuffer_outcome _ slot frameNumber
  | consumerConnect listens controlled => exact consumerConnect_outcome _ listens controlled
  | consumerDisconnect => exact consumerDisconnect_outcome _

/-- The object that the call makes is not one that an item of the queue keeps alive. -/
def Unheld (queue : List BufferItem) (address : Nat) : Prop :=
  ∀ item ∈ queue, ∀ buffer, item.graphicBuffer = some buffer → buffer.address ≠ address

/-- `std::make_shared` gives the call an object that no item of the queue holds. -/
def State.Allocates (st : State) : Operation → Prop
  | .dequeueBuffer _ _ address => Unheld st.queue address
  | .setPreallocatedBuffer _ _ address => Unheld st.queue address
  | _ => True

end Sudachi.Service.BufferQueue
