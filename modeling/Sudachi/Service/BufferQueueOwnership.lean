import Sudachi.Service.BufferQueueSteps

/-!
# Who owns the slots of the buffer queue

An item of the queue refers to a slot as long as the slot still has the buffer that was queued
(`StillTracking`); an item that has outlived its slot is stale. In a queue whose slots are owned as
they should be, a slot in state `Queued` is referred to by exactly one item, and the others by none.

`AttachBuffer` is the one call that can break this: it puts a buffer of the caller into a free slot
without a look at the queue. If a stale item holds that very buffer for the slot, the item refers to
the slot again, which the producer now owns.
-/

set_option autoImplicit false

namespace Sudachi.Service.BufferQueue

open Sudachi.Foundations.Runs Function
open State (initial step)

/-! ## Items that refer to a slot -/

/-- The item is not stale, and it refers to the slot. -/
def refers (slots : Slots) (s : SlotIndex) (item : BufferItem) : Bool :=
  decide (item.slot = s) && stillTracking slots item

/-- The number of items of the queue that refer to the slot. -/
def references (slots : Slots) (queue : List BufferItem) (s : SlotIndex) : Nat :=
  queue.countP (refers slots s)

/-- A slot is queued exactly when one item refers to it, and no item refers to another slot. -/
def State.SlotOwnership (st : State) : Prop :=
  ∀ s, ((st.slots s).bufferState = .queued ↔ references st.slots st.queue s = 1) ∧
    ((st.slots s).bufferState ≠ .queued → references st.slots st.queue s = 0)

/-- The ownership of the slots as an invariant: the producer has a buffer in each slot of its own,
so that it can queue it. -/
structure Owned (slots : Slots) (queue : List BufferItem) : Prop where
  count : ∀ s, references slots queue s = if (slots s).bufferState = .queued then 1 else 0
  held : ∀ s, (slots s).bufferState = .dequeued → (slots s).graphicBuffer.isSome

variable {slots slots' : Slots} {queue queue' rest : List BufferItem} {item front : BufferItem}
  {s t : SlotIndex} {st st' : State}
variable {value : BufferSlot} {address : Nat}

theorem Owned.slotOwnership (h : Owned st.slots st.queue) : st.SlotOwnership := by
  intro s
  rw [h.count s]
  by_cases hq : (st.slots s).bufferState = .queued
  · simp [hq]
  · simp [hq]

theorem refers_congr (h : (slots' s).graphicBuffer = (slots s).graphicBuffer) :
    refers slots' s item = refers slots s item := by
  by_cases hs : item.slot = s
  · subst hs
    simp only [refers, stillTracking, h]
  · simp [refers, hs]

theorem references_congr (h : (slots' s).graphicBuffer = (slots s).graphicBuffer) :
    references slots' queue s = references slots queue s := by
  have hfun : refers slots' s = refers slots s := funext fun item => refers_congr h
  rw [references, references, hfun]

/-- No item of the queue has the buffer for the slot. -/
def Unqueued (queue : List BufferItem) (s : SlotIndex) (buffer : Option GraphicBuffer) : Prop :=
  ∀ item ∈ queue, item.slot = s → buffer.isSome = true → ¬samePointer item.graphicBuffer buffer

theorem references_eq_zero_iff :
    references slots queue s = 0 ↔ Unqueued queue s (slots s).graphicBuffer := by
  rw [references, List.countP_eq_zero]
  constructor
  case mp =>
    intro h item hmem hslot hsome hsame
    subst hslot
    exact h item hmem (by simp [refers, stillTracking, hsome, hsame])
  case mpr =>
    intro h item hmem hrefers
    simp only [refers, stillTracking, Bool.and_eq_true, decide_eq_true_eq] at hrefers
    obtain ⟨rfl, hsome, hsame⟩ := hrefers
    exact h item hmem rfl hsome hsame

theorem unqueued_none : Unqueued queue s none := by
  intro item _ _ hsome
  simp at hsome

/-! ## Changes of the slots -/

/-- A change of a slot that leaves the ownership right: the slot keeps its buffer, and stays in the
queue or out of it; or it is out of the queue, with a buffer that no item holds. -/
inductive SlotChange (queue : List BufferItem) (s : SlotIndex) (old new : BufferSlot) : Prop where
  | kept (hbuffer : new.graphicBuffer = old.graphicBuffer)
      (hstate : new.bufferState = .queued ↔ old.bufferState = .queued)
      (hheld : new.bufferState = .dequeued → new.graphicBuffer.isSome)
  | renewed (hstate : new.bufferState ≠ .queued) (hbuffer : Unqueued queue s new.graphicBuffer)
      (hheld : new.bufferState = .dequeued → new.graphicBuffer.isSome)

theorem Owned.change (h : Owned slots queue)
    (hchange : ∀ s, SlotChange queue s (slots s) (slots' s)) : Owned slots' queue := by
  constructor
  case count =>
    intro s
    cases hchange s with
    | kept hbuffer hstate hheld =>
      rw [references_congr hbuffer, h.count s]
      simp only [hstate]
    | renewed hstate hbuffer hheld =>
      rw [if_neg hstate]
      exact references_eq_zero_iff.mpr hbuffer
  case held =>
    intro s
    cases hchange s with
    | kept hbuffer hstate hheld => exact hheld
    | renewed hstate hbuffer hheld => exact hheld

theorem Owned.unchanged (h : Owned slots queue) (s : SlotIndex) :
    SlotChange queue s (slots s) (slots s) :=
  .kept rfl .rfl (h.held s)

theorem Owned.update (h : Owned slots queue) (hchange : SlotChange queue s (slots s) value) :
    Owned (Function.update slots s value) queue := by
  refine h.change fun t => ?_
  by_cases hts : t = s
  · subst hts
    rw [update_self]
    exact hchange
  · rw [update_of_ne hts]
    exact h.unchanged t

theorem slotChange_freed (old : BufferSlot) : SlotChange queue s old old.freed :=
  .renewed (by simp [BufferSlot.freed]) unqueued_none (by simp [BufferSlot.freed])

theorem Owned.freeAll (slots : Slots) : Owned (fun s => (slots s).freed) [] where
  count s := by simp [references, BufferSlot.freed]
  held _ := by simp [BufferSlot.freed]

/-! ## Items that come and go -/

theorem references_cons : references slots (item :: queue) s =
    references slots queue s + if refers slots s item then 1 else 0 :=
  List.countP_cons

theorem refers_slot : refers slots item.slot item = stillTracking slots item := by
  simp [refers]

theorem refers_of_ne (h : item.slot ≠ s) : refers slots s item = false := by
  simp [refers, h]

/-- An item leaves the front of the queue, and its slot leaves the queue with it. -/
theorem Owned.pop (h : Owned slots (front :: rest)) {value : BufferSlot → BufferSlot}
    (hvalue : Leaves value) : Owned (settle slots front value) rest := by
  have hcount := fun s => references_cons.symm.trans (h.count s)
  by_cases htrack : stillTracking slots front
  case neg =>
    rw [settle, if_neg htrack]
    refine ⟨fun s => ?_, h.held⟩
    have hs := hcount s
    have hrefers : refers slots s front = false := by simp [refers, htrack]
    simpa [hrefers] using hs
  case pos =>
    rw [settle, if_pos htrack]
    constructor
    case count =>
      intro s
      have hs := hcount s
      by_cases hfront : s = front.slot
      · subst hfront
        have hkept : references (Function.update slots front.slot (value (slots front.slot))) rest
            front.slot = references slots rest front.slot :=
          references_congr (by rw [update_self, hvalue.buffer])
        rw [hkept, update_self]
        rw [refers_slot, htrack] at hs
        have hout : (value (slots front.slot)).bufferState ≠ .queued := by
          rcases hvalue.state (slots front.slot) with hfree | hacquired
          · simp [hfree]
          · simp [hacquired]
        rw [if_neg hout]
        rw [if_pos rfl] at hs
        split at hs
        · exact Nat.succ.inj hs
        · cases hs
      · have hkept : references (Function.update slots front.slot (value (slots front.slot))) rest s
            = references slots rest s :=
          references_congr (by rw [update_of_ne hfront])
        rw [hkept, update_of_ne hfront]
        rw [refers_of_ne (Ne.symm hfront)] at hs
        simpa using hs
    case held =>
      intro s hdequeued
      by_cases hfront : s = front.slot
      · subst hfront
        rw [update_self] at hdequeued
        rcases hvalue.state (slots front.slot) with hfree | hacquired
        · rw [hfree] at hdequeued
          cases hdequeued
        · rw [hacquired] at hdequeued
          cases hdequeued
      · rw [update_of_ne hfront] at hdequeued ⊢
        exact h.held s hdequeued

/-- A slot of the producer goes into the queue, with an item for it. -/
theorem Owned.push (h : Owned slots queue) (hdequeued : (slots s).bufferState = .dequeued)
    (hslot : item.slot = s) (hbuffer : item.graphicBuffer = (slots s).graphicBuffer)
    (hkept : value.graphicBuffer = (slots s).graphicBuffer) (hqueued : value.bufferState = .queued)
    (hperm : queue'.Perm (item :: queue)) : Owned (Function.update slots s value) queue' := by
  constructor
  case count =>
    intro t
    rw [references, hperm.countP_eq, ← references, references_cons]
    by_cases hts : t = s
    · subst hts
      have hsome := h.held t hdequeued
      have hsame : samePointer item.graphicBuffer (slots t).graphicBuffer := by
        obtain ⟨buffer, hbuf⟩ := Option.isSome_iff_exists.mp hsome
        simp [hbuffer, hbuf, samePointer]
      have hgb : (Function.update slots t value t).graphicBuffer = (slots t).graphicBuffer := by
        rw [update_self, hkept]
      have hrefers : refers (Function.update slots t value) t item = true := by
        rw [refers_congr hgb]
        simp [refers, stillTracking, hslot, hsome, hsame]
      rw [references_congr hgb, h.count t, hrefers, update_self]
      simp [hdequeued, hqueued]
    · have hgb : (Function.update slots s value t).graphicBuffer = (slots t).graphicBuffer := by
        rw [update_of_ne hts]
      have hrefers : refers (Function.update slots s value) t item = false :=
        refers_of_ne (by rw [hslot]; exact Ne.symm hts)
      rw [references_congr hgb, h.count t, hrefers, update_of_ne hts]
      simp
  case held =>
    intro t ht
    by_cases hts : t = s
    · subst hts
      rw [update_self, hqueued] at ht
      cases ht
    · rw [update_of_ne hts] at ht ⊢
      exact h.held t ht

/-! ## The steps -/

theorem Unheld.unqueued (h : Unheld queue address) (s : SlotIndex)
    (buffer : NvGraphicBuffer) : Unqueued queue s (some ⟨buffer, address⟩) := by
  intro item hmem _ _ hsame
  cases hbuf : item.graphicBuffer with
  | none => simp [hbuf, samePointer] at hsame
  | some held =>
    rw [hbuf, samePointer] at hsame
    exact h item hmem held hbuf (beq_iff_eq.mp hsame)

theorem Owned.moved (h : Owned slots queue)
    (hmove : SlotMove (slots s) value) : Owned (Function.update slots s value) queue := by
  refine h.update ?_
  cases hmove with
  | kept hbuffer hstate =>
    exact .kept hbuffer (by rw [hstate]) fun hdequeued => by
      rw [hbuffer]
      exact h.held s (hstate ▸ hdequeued)
  | returned howner hbuffer hstate =>
    have hout : (slots s).bufferState ≠ .queued := by
      rcases howner with hdequeued | hacquired
      · simp [hdequeued]
      · simp [hacquired]
    exact .kept hbuffer (iff_of_false (by simp [hstate]) hout) (by simp [hstate])
  | freed hfreed =>
    subst hfreed
    exact slotChange_freed _

theorem Owned.scanned (h : Owned st.slots st.queue) (async : Bool) :
    Owned (st.scanned async).slots st.queue := by
  refine h.change fun s => ?_
  simp only [State.scanned, releaseBeyond]
  split
  · exact slotChange_freed _
  · exact h.unchanged s

/-- The slot that `DequeueBuffer` takes keeps its buffer, or gets one that is new. -/
theorem slotChange_dequeue {old : BufferSlot} (hfree : old.bufferState = .free)
    (hfresh : Unheld queue address) (wanted : NvGraphicBuffer) :
    SlotChange queue s old (old.dequeue wanted address) := by
  rw [BufferSlot.dequeue]
  split
  case isTrue hserves =>
    have hsome : old.graphicBuffer.isSome := by
      cases hbuf : old.graphicBuffer with
      | none => simp [hbuf] at hserves
      | some buffer => rfl
    exact .kept rfl (by simp [hfree]) fun _ => hsome
  case isFalse => exact .renewed (by simp) (hfresh.unqueued s _) fun _ => rfl

theorem slotChange_preallocate {old : BufferSlot} (hfresh : Unheld queue address)
    (buffer : Option NvGraphicBuffer) : SlotChange queue s old (.preallocate buffer address) :=
  .renewed (by simp [BufferSlot.preallocate, BufferSlot.initial]) (hfresh.unqueued s _)
    fun _ => rfl

theorem Owned.drains (h : Owned slots queue) (hdrains : Drains slots queue slots' queue') :
    Owned slots' queue' := by
  induction hdrains with
  | refl => exact h
  | pop hvalue _ ih => exact ih (h.pop hvalue)

theorem Owned.enqueue (h : Owned slots queue) (hdequeued : (slots s).bufferState = .dequeued)
    (hslot : item.slot = s) (hbuffer : item.graphicBuffer = (slots s).graphicBuffer) (hkept : value.graphicBuffer = (slots s).graphicBuffer)
    (hqueued : value.bufferState = .queued) :
    Owned (enqueue (Function.update slots s value) queue item).1
      (enqueue (Function.update slots s value) queue item).2 := by
  cases queue with
  | nil => exact h.push hdequeued hslot hbuffer hkept hqueued (.refl [item])
  | cons front rest =>
    rw [BufferQueue.enqueue]
    split
    case isFalse =>
      have hperm : (front :: rest ++ [item]).Perm (item :: front :: rest) := List.perm_append_comm
      exact h.push hdequeued hslot hbuffer hkept hqueued hperm
    case isTrue =>
      have hpop := h.pop leaves_dropped
      -- the item in front does not refer to the slot, which the producer owns
      have hzero : references slots (front :: rest) s = 0 := by
        rw [h.count s, hdequeued]
        rfl
      have hfront : refers slots s front = false := by
        rw [references, List.countP_eq_zero] at hzero
        simpa using hzero front List.mem_cons_self
      have hgb : (Function.update slots s value front.slot).graphicBuffer =
          (slots front.slot).graphicBuffer := by
        by_cases hs : front.slot = s
        · rw [hs, update_self, hkept]
        · rw [update_of_ne hs]
      have htrack : stillTracking (Function.update slots s value) front =
          stillTracking slots front := by
        rw [← refers_slot, ← refers_slot, refers_congr hgb]
      by_cases ht : stillTracking slots front
      · have hne : front.slot ≠ s := by
          intro heq
          subst heq
          rw [refers_slot, ht] at hfront
          cases hfront
        have hsettle : settle (Function.update slots s value) front BufferSlot.dropped =
            Function.update (settle slots front BufferSlot.dropped) s value := by
          rw [settle, settle, if_pos ht, htrack, if_pos ht, update_of_ne hne, update_comm hne]
        rw [settle, if_pos ht] at hpop
        have hsame : Function.update slots front.slot (slots front.slot).dropped s = slots s :=
          update_of_ne hne.symm _ _
        rw [hsettle, settle, if_pos ht]
        exact hpop.push (by rw [hsame, hdequeued]) hslot (by rw [hsame, hbuffer])
          (by rw [hsame, hkept]) hqueued (.refl _)
      · rw [settle, htrack, if_neg ht]
        rw [settle, if_neg ht] at hpop
        exact hpop.push hdequeued hslot hbuffer hkept hqueued (.refl _)

/-- No item of the queue still holds the buffer that the call attaches, for the slot that the call
finds for it. -/
def State.AttachesNew (st : State) : Operation → Prop
  | .attachBuffer buffer flags => ∀ s flags' st',
      st.waitForFreeSlotThenRelock false flags = (.found s, flags', st') →
        Unqueued st.queue s buffer
  | _ => True

theorem Owned.step (h : Owned st.slots st.queue) {op : Operation} {reply : Reply}
    (halloc : st.Allocates op) (hattach : st.AttachesNew op) (houtcome : Outcome st op reply st') :
    Owned st'.slots st'.queue := by
  cases houtcome with
  | quiet hreply hslots hqueue hcount hcounter =>
    rw [hslots, hqueue]
    exact h
  | moved hreply hmove => exact h.moved hmove
  | scanned hreply => exact h.scanned _
  | dequeued hreply hcount hfree =>
    exact (h.scanned _).update (slotChange_dequeue hfree halloc _)
  | attached hreply hscan hcount hfree =>
    have hunqueued := hattach _ _ _ hscan
    exact (h.scanned _).update (.renewed (by simp [BufferSlot.attach]) hunqueued fun _ => rfl)
  | counted hreply haccepted hkept => exact h
  | recounted hreply => exact h.change fun s => slotChange_freed (st.slots s)
  | emptied hreply hslot => exact h.update (slotChange_preallocate halloc none)
  | preallocated hreply hslot hslots hqueue hcount hcounter =>
    rw [hslots, hqueue]
    exact h.update (slotChange_preallocate halloc (some _))
  | queued hreply hok =>
    exact h.enqueue (queueable_dequeued hok) rfl rfl rfl rfl
  | drained hreply hdrains => exact h.drains hdrains
  | acquired hdrains => exact (h.drains hdrains).pop leaves_acquire
  | cleared hreply hslots hqueue hcount hcounter =>
    rw [hslots, hqueue]
    exact .freeAll st.slots

/-! ## Runs -/

/-- A call that attaches a buffer which an item still holds for the slot leaves a slot of the
producer's to which that item refers. -/
theorem not_slotOwnership_of_attach {op : Operation}
    (hattach : ¬st.AttachesNew op) : ¬(st.step op).SlotOwnership := by
  cases op with
  | attachBuffer buffer flags =>
    simp only [State.AttachesNew] at hattach
    push Not at hattach
    obtain ⟨s, flags', st', hscan, hqueued⟩ := hattach
    obtain ⟨-, hnone⟩ | ⟨rfl, -⟩ := waitForFreeSlotThenRelock_spec hscan
    · exact absurd rfl (hnone s)
    cases buffer with
    | none => exact absurd unqueued_none hqueued
    | some buffer =>
      have hstep : st.step (.attachBuffer (some buffer) flags) =
          (st.scanned false).setSlot s (((st.scanned false).slots s).attach buffer) := by
        simp only [step, State.perform, State.attachBuffer, hscan]
      intro hown
      have hs := (hown s).2
      rw [hstep] at hs
      have hslot : ((st.scanned false).setSlot s (((st.scanned false).slots s).attach buffer)).slots s =
          ((st.scanned false).slots s).attach buffer := update_self ..
      have hzero := hs (by rw [hslot]; simp [BufferSlot.attach])
      have hunqueued := references_eq_zero_iff.mp hzero
      rw [hslot] at hunqueued
      change Unqueued (st.scanned false).queue s (some buffer) at hunqueued
      exact hqueued hunqueued
  | _ => exact absurd trivial hattach

theorem owned_initial : Owned initial.slots initial.queue where
  count s := rfl
  held s h := by cases h

/-- The slots are owned as they should be in every state of a run exactly when no `AttachBuffer` of
the run attaches a buffer that an item of the queue still holds for the slot. -/
theorem throughout_slotOwnership_iff (ops : List Operation)
    (halloc : Along step State.Allocates initial ops) :
    Throughout step State.SlotOwnership initial ops ↔ Along step State.AttachesNew initial ops :=
  throughout_iff_along (fun _ h => Owned.slotOwnership h)
    (fun st op h halloc hattach => Owned.step h halloc hattach (perform_outcome st op))
    (fun _ _ _ _ hattach => not_slotOwnership_of_attach hattach) owned_initial halloc

/-! ## A buffer that comes back -/

/-- A request for a buffer of the default size. -/
def defaultRequest : DequeueInput := ⟨false, 0, 0, .noFormat, 0⟩

/-- A frame without a crop, which may be dropped or not. -/
def plainFrame (async : Bool) : QueueBufferInput :=
  ⟨0, true, ⟨0, 0, 0, 0⟩, .freeze, 0, async, 1, .noFence⟩

/-- A frame is queued and acquired, and its slot is released. -/
def frameRun : List Operation :=
  [.dequeueBuffer defaultRequest .none 1, .requestBuffer 0, .queueBuffer 0 (plainFrame false),
    .acquireBuffer 0, .releaseBuffer 0 1]

theorem throughout_slotOwnership_iff_frameRun :
    Along step State.Allocates initial frameRun ∧
      Throughout step State.SlotOwnership initial frameRun := by
  have halloc : Along step State.Allocates initial frameRun :=
    ⟨fun item h => (List.not_mem_nil h).elim, trivial, trivial, trivial, trivial, trivial⟩
  exact ⟨halloc, (throughout_slotOwnership_iff frameRun halloc).mpr
    ⟨trivial, trivial, trivial, trivial, trivial, trivial⟩⟩

/-- The buffer that the first `DequeueBuffer` of a run makes. -/
def firstBuffer : GraphicBuffer := ⟨⟨1, 1, .rgba8888, 0⟩, 1⟩

/-- A frame is queued, the buffer count is set, which frees the slot of the frame, and the buffer of
the frame is attached. -/
def attachRun : List Operation :=
  [.dequeueBuffer defaultRequest .none 1, .requestBuffer 0, .queueBuffer 0 (plainFrame false),
    .setBufferCount 2, .attachBuffer (some firstBuffer) .none]

/-- The slot belongs to the producer, and an item of the queue refers to it. -/
theorem attachBuffer_revives_stale_item :
    Along step State.Allocates initial attachRun ∧
      ((attachRun.foldl step initial).slots 0).bufferState = .dequeued ∧
      references (attachRun.foldl step initial).slots
        (attachRun.foldl step initial).queue 0 = 1 ∧
      ¬(attachRun.foldl step initial).SlotOwnership := by
  have hstate : ((attachRun.foldl step initial).slots 0).bufferState = .dequeued := by
    decide +kernel
  have hcount : references (attachRun.foldl step initial).slots
      (attachRun.foldl step initial).queue 0 = 1 := by
    decide +kernel
  refine ⟨⟨fun item h => (List.not_mem_nil h).elim, trivial, trivial, trivial, trivial, trivial⟩,
    hstate, hcount, fun h => ?_⟩
  have hzero := (h 0).2 (by rw [hstate]; decide)
  rw [hcount] at hzero
  cases hzero

end Sudachi.Service.BufferQueue
