import Sudachi.Service.BufferQueueOwnership

/-!
# Slots beyond the buffer count

A pass for a free slot asserts that the slots beyond the buffer count are free. The producer gets
its slots below the count, and a slot that is free stays free until it is given out, so the
assertion can fail only where the count has been lowered below a slot in use: by `SetBufferCount`,
which looks for slots of the producer's and not for those that wait in the queue or that the consumer
has, or by `SetPreallocatedBuffer`, which looks for none.
-/

set_option autoImplicit false

namespace Sudachi.Service.BufferQueue

open Sudachi.Foundations.Runs Function
open State (initial setSlot_slots step)

/-- The slots from a count on are free, and no item of the queue refers to them. -/
def FreeFrom (slots : Slots) (queue : List BufferItem) (count : Nat) : Prop :=
  ∀ s : SlotIndex, count ≤ s.val → (slots s).bufferState = .free ∧ references slots queue s = 0

/-- The count that a stored one stands for. -/
def effectiveCount (count : Fin (numBufferSlots + 1)) : Nat :=
  if count = 0 then defaultMaxBufferCount else count.val

/-- The call does not lower the count below a slot in use. `SetBufferCount` with no buffer
allocated beforehand and a count other than zero frees all slots. -/
def State.KeepsCount (st : State) : Operation → Prop
  | .setBufferCount count => ∀ stored : Fin (numBufferSlots + 1), count = stored.val →
      st.refusesCount count = none →
      (stored = 0 ∨ 0 < getPreallocatedBufferCountLocked st.slots) →
      FreeFrom st.slots st.queue (effectiveCount stored)
  | .setPreallocatedBuffer slot (some buffer) address => ∀ s, slotIndex slot = some s →
      ∀ t, t ≠ s → (getPreallocatedBufferCountLocked
        (st.setSlot s (.preallocate (some buffer) address)).slots).val ≤ t.val →
      (st.slots t).bufferState = .free ∧ references st.slots st.queue t = 0
  | _ => True

variable {slots slots' : Slots} {queue queue' rest : List BufferItem} {front : BufferItem}
  {s : SlotIndex} {st st' : State} {count : Nat}

/-! ## The buffer count -/

variable {value : BufferSlot}

theorem getMaxBufferCountLocked_eq (async : Bool) (h : FreeFrom st.slots st.queue
    (effectiveCount st.overrideMaxBufferCount)) :
    st.getMaxBufferCountLocked async = effectiveCount st.overrideMaxBufferCount := by
  rw [State.getMaxBufferCountLocked, effectiveCount]
  by_cases hzero : st.overrideMaxBufferCount = 0
  case neg => simp [hzero]
  case pos =>
    have hmin : st.getMinMaxBufferCountLocked async = 0 := rfl
    rw [effectiveCount, if_pos hzero] at h
    simp only [hzero, hmin, ne_eq, not_true_eq_false, if_false, if_true, Nat.max_zero]
    -- no slot from the default count on is kept for the producer or the queue
    have hfold : ∀ l : List SlotIndex, l.foldl (fun (count : Nat) (slot : SlotIndex) =>
        if defaultMaxBufferCount ≤ slot.val ∧ (st.slots slot).bufferState.preserved then
          slot.val + 1 else count) defaultMaxBufferCount = defaultMaxBufferCount := by
      intro l
      induction l with
      | nil => rfl
      | cons slot l ih =>
        have hskip : ¬(defaultMaxBufferCount ≤ slot.val ∧
            (st.slots slot).bufferState.preserved = true) := by
          rintro ⟨hle, hpreserved⟩
          rw [(h slot hle).1] at hpreserved
          cases hpreserved
        rw [List.foldl_cons, if_neg hskip]
        exact ih
    exact hfold _

theorem getPreallocatedBufferCountLocked_ne_zero (h : (slots s).isPreallocated = true) :
    getPreallocatedBufferCountLocked slots ≠ 0 := by
  have hmem : s ∈ preallocated slots := List.mem_filter.mpr ⟨List.mem_finRange s, h⟩
  intro hzero
  exact absurd (congrArg Fin.val hzero) (List.length_pos_of_mem hmem).ne'

theorem FreeFrom.assertsFree (h : FreeFrom st.slots st.queue
    (effectiveCount st.overrideMaxBufferCount)) (async : Bool) : st.assertsFree async := by
  intro s hs
  rw [getMaxBufferCountLocked_eq async h] at hs
  exact (h s hs).1

/-! ## The steps -/

section

variable (h : FreeFrom slots queue count)
include h

theorem FreeFrom.update
    (hvalue : count ≤ s.val → value.bufferState = .free ∧ Unqueued queue s value.graphicBuffer) :
    FreeFrom (Function.update slots s value) queue count := by
  intro t ht
  by_cases hts : t = s
  · subst hts
    rw [references_eq_zero_iff, update_self]
    exact hvalue ht
  · have hgb : (Function.update slots s value t).graphicBuffer = (slots t).graphicBuffer := by
      rw [update_of_ne hts]
    rw [references_congr hgb, update_of_ne hts]
    exact h t ht

theorem FreeFrom.update_below
    (hs : s.val < count) : FreeFrom (Function.update slots s value) queue count :=
  h.update fun hle => absurd hs (Nat.not_lt.mpr hle)

/-- A slot that is in use is below the count. -/
theorem FreeFrom.lt (hs : (slots s).bufferState ≠ .free) : s.val < count := by
  by_contra hle
  exact hs (h s (Nat.not_lt.mp hle)).1

theorem FreeFrom.moved
    (hmove : SlotMove (slots s) value) : FreeFrom (Function.update slots s value) queue count := by
  cases hmove with
  | kept hbuffer hstate =>
    refine h.update fun hle => ?_
    rw [hstate, hbuffer, ← references_eq_zero_iff]
    exact h s hle
  | returned howner hbuffer hstate =>
    refine h.update_below (h.lt ?_)
    rcases howner with hdequeued | hacquired
    · simp [hdequeued]
    · simp [hacquired]
  | freed hfreed =>
    subst hfreed
    exact h.update fun _ => ⟨rfl, unqueued_none⟩

end

theorem freeFrom_freeAll (slots : Slots) (queue : List BufferItem) (count : Nat) :
    FreeFrom (fun s => (slots s).freed) queue count :=
  fun _ _ => ⟨rfl, references_eq_zero_iff.mpr unqueued_none⟩

theorem FreeFrom.scanned (h : FreeFrom st.slots st.queue count) (async : Bool) :
    FreeFrom (st.scanned async).slots st.queue count := by
  intro s hs
  have hslot : (st.scanned async).slots s = (st.slots s).freed ∨
      (st.scanned async).slots s = st.slots s := by
    simp only [State.scanned, releaseBeyond]
    split
    · exact .inl rfl
    · exact .inr rfl
  rw [references_eq_zero_iff]
  rcases hslot with hfreed | hsame
  · rw [hfreed]
    exact ⟨rfl, unqueued_none⟩
  · rw [hsame, ← references_eq_zero_iff]
    exact h s hs

/-- An item that is taken from the queue refers to a slot below the count, if it refers to one. -/
theorem FreeFrom.pop (h : FreeFrom slots (front :: rest) count)
    (value : BufferSlot → BufferSlot) : FreeFrom (settle slots front value) rest count := by
  have hrest : FreeFrom slots rest count := by
    intro s hs
    obtain ⟨hfree, hzero⟩ := h s hs
    rw [references_cons] at hzero
    exact ⟨hfree, by omega⟩
  rw [settle]
  split
  case isFalse => exact hrest
  case isTrue htrack =>
    refine hrest.update_below ?_
    by_contra hle
    obtain ⟨-, hzero⟩ := h front.slot (Nat.not_lt.mp hle)
    rw [references_cons, refers_slot, if_pos htrack] at hzero
    omega

theorem FreeFrom.drains (h : FreeFrom slots queue count)
    (hdrains : Drains slots queue slots' queue') : FreeFrom slots' queue' count := by
  induction hdrains with
  | refl => exact h
  | pop _ _ ih => exact ih (h.pop _)

theorem FreeFrom.push (h : FreeFrom slots queue count) {item : BufferItem}
    (hitem : item.slot.val < count) (hperm : queue'.Perm (item :: queue)) :
    FreeFrom slots queue' count := by
  intro s hs
  have hne : item.slot ≠ s := by
    rintro rfl
    omega
  rw [references, hperm.countP_eq, ← references, references_cons, refers_of_ne hne]
  exact h s hs

theorem FreeFrom.enqueue (h : FreeFrom slots queue count) {item : BufferItem}
    (hitem : item.slot.val < count) :
    FreeFrom (enqueue slots queue item).1 (enqueue slots queue item).2 count := by
  cases queue with
  | nil => exact h.push hitem (.refl _)
  | cons front rest =>
    rw [BufferQueue.enqueue]
    split
    · exact (h.pop _).push hitem (.refl _)
    · exact h.push hitem List.perm_append_comm

theorem FreeFrom.step {op : Operation} {reply : Reply}
    (h : FreeFrom st.slots st.queue (effectiveCount st.overrideMaxBufferCount))
    (halloc : st.Allocates op) (hkeeps : st.KeepsCount op) (houtcome : Outcome st op reply st') :
    FreeFrom st'.slots st'.queue (effectiveCount st'.overrideMaxBufferCount) := by
  cases houtcome with
  | quiet hreply hslots hqueue hcount hcounter =>
    rw [hslots, hqueue, hcount]
    exact h
  | moved hreply hmove => exact h.moved hmove
  | scanned hreply => exact h.scanned _
  | dequeued hreply hcount hfree =>
    rw [getMaxBufferCountLocked_eq _ h] at hcount
    exact (h.scanned _).update_below hcount
  | attached hreply hscan hcount hfree =>
    rw [getMaxBufferCountLocked_eq _ h] at hcount
    exact (h.scanned _).update_below hcount
  | counted hreply haccepted hkept => exact hkeeps _ rfl haccepted hkept
  | recounted hreply => exact freeFrom_freeAll st.slots st.queue _
  | emptied hreply hslot =>
    exact h.update fun _ => ⟨rfl, Unheld.unqueued halloc _ _⟩
  | @preallocated slot buffer address reply s st' hreply hslot hslots hqueue hcount hcounter =>
    rw [hcount, hslots, hqueue]
    intro t ht
    by_cases hts : t = s
    · subst hts
      rw [references_eq_zero_iff]
      rw [setSlot_slots, update_self]
      exact ⟨rfl, Unheld.unqueued halloc _ _⟩
    · have hpositive : getPreallocatedBufferCountLocked
          (st.setSlot s (.preallocate (some buffer) address)).slots ≠ 0 :=
        getPreallocatedBufferCountLocked_ne_zero (by rw [setSlot_slots, update_self]; rfl)
      rw [effectiveCount, if_neg hpositive] at ht
      have hgb : ((st.setSlot s (.preallocate (some buffer) address)).slots t).graphicBuffer =
          (st.slots t).graphicBuffer := by
        rw [setSlot_slots, update_of_ne hts]
      rw [references_congr hgb, setSlot_slots, update_of_ne hts]
      exact hkeeps s hslot t hts ht
  | @queued slot input reply s hreply hok =>
    have hs : s.val < effectiveCount st.overrideMaxBufferCount :=
      h.lt (by rw [queueable_dequeued hok]; decide)
    exact (h.update_below hs).enqueue hs
  | drained hreply hdrains => exact h.drains hdrains
  | acquired hdrains => exact (h.drains hdrains).pop _
  | cleared hreply hslots hqueue hcount hcounter =>
    rw [hslots, hqueue]
    exact freeFrom_freeAll st.slots [] _

/-! ## Runs -/

theorem freeFrom_initial : FreeFrom initial.slots initial.queue
    (effectiveCount initial.overrideMaxBufferCount) :=
  fun _ _ => ⟨rfl, rfl⟩

/-- In every run in which no call lowers the buffer count below a slot in use, the slots beyond the
count are free whenever a pass looks for a free slot. -/
theorem throughout_assertsFree (ops : List Operation)
    (halloc : Along step State.Allocates initial ops)
    (hkeeps : Along step State.KeepsCount initial ops) :
    Throughout step (fun st => ∀ async, st.assertsFree async) initial ops :=
  throughout_of_along (fun _ h async => FreeFrom.assertsFree h async)
    (fun st op h hstep => FreeFrom.step h hstep.1 hstep.2 (perform_outcome st op))
    freeFrom_initial (halloc.and hkeeps)

theorem throughout_assertsFree_frameRun :
    Along step State.Allocates initial frameRun ∧ Along step State.KeepsCount initial frameRun ∧
      Throughout step (fun st => ∀ async, st.assertsFree async) initial frameRun := by
  have halloc : Along step State.Allocates initial frameRun :=
    ⟨fun item h => (List.not_mem_nil h).elim, trivial, trivial, trivial, trivial, trivial⟩
  have hkeeps : Along step State.KeepsCount initial frameRun :=
    ⟨trivial, trivial, trivial, trivial, trivial, trivial⟩
  exact ⟨halloc, hkeeps, throughout_assertsFree frameRun halloc hkeeps⟩

/-- With a count of three, the frame of the third slot is queued and acquired; then the count is set
back to the default of two. -/
def lowerCountRun : List Operation :=
  [.setBufferCount 3, .dequeueBuffer defaultRequest .none 1, .dequeueBuffer defaultRequest .none 2,
    .dequeueBuffer defaultRequest .none 3, .requestBuffer 2, .queueBuffer 2 (plainFrame false),
    .cancelBuffer 0 .noFence, .cancelBuffer 1 .noFence, .acquireBuffer 0, .setBufferCount 0]

/-- The next `DequeueBuffer` makes its pass, and finds the third slot with the consumer. -/
theorem setBufferCount_strands_acquired_slot :
    (lowerCountRun.foldl step initial).isAbandoned = false ∧
      (lowerCountRun.foldl step initial).getMaxBufferCountLocked false = 2 ∧
      ((lowerCountRun.foldl step initial).slots 2).bufferState = .acquired ∧
      ¬(lowerCountRun.foldl step initial).assertsFree false := by
  have hrunning : (lowerCountRun.foldl step initial).isAbandoned = false := by
    decide +kernel
  have hcount : (lowerCountRun.foldl step initial).getMaxBufferCountLocked false = 2 :=
    by decide +kernel
  have hstate : ((lowerCountRun.foldl step initial).slots 2).bufferState = .acquired :=
    by decide +kernel
  refine ⟨hrunning, hcount, hstate, fun h => ?_⟩
  have hfree := h 2 (by rw [hcount]; decide)
  rw [hstate] at hfree
  cases hfree

end Sudachi.Service.BufferQueue
