import Sudachi.Service.BufferQueueSteps

/-!
# The signal for waiting producers

A producer that finds no free slot waits until `dequeue_possible` is set, which
`SignalDequeueCondition` does. A call that frees a slot sets it before it gives up the mutex, on each
of its ways out. `AcquireBuffer` has one that does not: it defers the frame in front. There it has
dropped nothing, for a frame that comes to the front by a drop is not early.
-/

set_option autoImplicit false

namespace Sudachi.Service.BufferQueue

open State (perform step)

/-- `CancelBuffer` gives the slot back. -/
def State.cancels (st : State) (slot : Int) : Bool :=
  !st.isAbandoned && (slotIndex slot).any fun s => (st.slots s).bufferState == .dequeued

/-- `NoError`, for the calls that signal: with nothing else, or with what they hand out. -/
def Reply.isNoError : Reply → Bool
  | .status .noError | .queued _ | .acquired _ => true
  | _ => false

/-- The call comes to `SignalDequeueCondition`, which stands before the successful return. -/
def State.signals (st : State) (op : Operation) : Bool :=
  match op with
  | .cancelBuffer slot _ => st.cancels slot
  | .disconnect _ => !st.isAbandoned && (st.perform op).1.isNoError
  | .setBufferCount _ | .detachBuffer _ | .queueBuffer _ _ | .setPreallocatedBuffer _ _ _
  | .acquireBuffer _ | .releaseBuffer _ _ | .consumerDisconnect => (st.perform op).1.isNoError
  | _ => false

/-- The queue with `dequeue_possible`. -/
structure SignalledState where
  core : State
  dequeuePossible : Bool

/-- A call, up to the point where it gives up the mutex. -/
def SignalledState.step (q : SignalledState) (op : Operation) : SignalledState :=
  ⟨q.core.step op, q.dequeuePossible || q.core.signals op⟩

/-- `WaitForDequeueCondition` returns. -/
def SignalledState.wake (q : SignalledState) : Option SignalledState :=
  if q.dequeuePossible then some { q with dequeuePossible := false } else none

variable {st st' : State} {s : SlotIndex}

/-- No slot has become free. -/
def Keeps (st st' : State) : Prop :=
  ∀ s, (st'.slots s).bufferState = .free → (st.slots s).bufferState = .free

theorem Keeps.refl (st : State) : Keeps st st := fun _ h => h

theorem Keeps.trans {st'' : State} (h : Keeps st st') (h' : Keeps st' st'') : Keeps st st'' :=
  fun s hs => h s (h' s hs)

theorem keeps_setSlot {value : BufferSlot}
    (h : value.bufferState = .free → (st.slots s).bufferState = .free) :
    Keeps st (st.setSlot s value) := by
  intro t ht
  by_cases hts : t = s
  · subst hts
    rw [State.setSlot_slots, Function.update_self] at ht
    exact h ht
  · rwa [State.setSlot_slots, Function.update_of_ne hts] at ht

theorem keeps_scanned (st : State) (async : Bool) : Keeps st (st.scanned async) := by
  intro s hs
  by_cases hreleased : releasesBeyond st.slots (st.getMaxBufferCountLocked async) s = true
  · simp only [releasesBeyond, Bool.and_eq_true, beq_iff_eq] at hreleased
    exact hreleased.1.2
  · simp only [State.scanned, releaseBeyond, if_neg hreleased] at hs
    exact hs

theorem keeps_waitForFreeSlotThenRelock {async : Bool} {flags flags' : ReturnFlags} {scan : Scan}
    (h : st.waitForFreeSlotThenRelock async flags = (scan, flags', st')) : Keeps st st' := by
  obtain ⟨rfl, -⟩ | ⟨rfl, -⟩ := waitForFreeSlotThenRelock_spec h
  · exact .refl _
  · exact keeps_scanned st async

/-- After a drop the frame in front is not set to be shown later. -/
theorem dropLoop_front (expected : Int) (slots : Slots) (queue : List BufferItem) :
    dropLoop expected slots queue = (slots, queue) ∨
      ∃ front rest, (dropLoop expected slots queue).2 = front :: rest ∧
        front.timestamp ≤ expected := by
  fun_induction dropLoop expected slots queue with
  | case1 => exact .inl rfl
  | case2 slots front next rest hdrop ih =>
    rcases ih with heq | hfront
    · rw [heq]
      exact .inr ⟨next, rest, rfl, by omega⟩
    · exact .inr hfront
  | case3 => exact .inl rfl

theorem acquireFront_signals (st : State) :
    (∃ item, st.acquireFront.1 = .acquired item) ∨ st.queue = [] ∧ st.acquireFront.2 = st := by
  rw [State.acquireFront]
  split
  case h_1 hempty => exact .inr ⟨hempty, rfl⟩
  case h_2 => exact .inl ⟨_, rfl⟩

theorem acquireBuffer_signals (expected : Int) :
    st.signals (.acquireBuffer expected) = true ∨ Keeps st (st.step (.acquireBuffer expected)) := by
  have hfront := dropLoop_front expected st.slots st.queue
  simp only [State.signals, step, perform, State.acquireBuffer]
  split_ifs with hmax hempty hnow hlater
  · exact .inr (.refl _)
  · exact .inr (.refl _)
  · rcases acquireFront_signals st with ⟨item, hitem⟩ | ⟨-, hsame⟩
    · rw [hitem]
      exact .inl rfl
    · rw [hsame]
      exact .inr (.refl _)
  · -- the frame is deferred, so none has been dropped
    rcases hfront with heq | ⟨front, rest, hrest, hle⟩
    · rw [heq]
      exact .inr (.refl _)
    · rw [hrest] at hlater
      simp only [List.head?_cons, Option.any_some, BufferItem.isEarly, Bool.and_eq_true,
        decide_eq_true_eq] at hlater
      omega
  · rcases acquireFront_signals { st with
      slots := (dropLoop expected st.slots st.queue).1
      queue := (dropLoop expected st.slots st.queue).2 } with ⟨item, hitem⟩ | ⟨hnone, hsame⟩
    · rw [hitem]
      exact .inl rfl
    · rw [hsame]
      rcases hfront with heq | ⟨front, rest, hrest, -⟩
      · rw [heq]
        exact .inr (.refl _)
      · rw [hrest] at hnone
        cases hnone

/-- A call signals, or no slot becomes free by it. -/
theorem signals_or_keeps (st : State) (op : Operation) :
    st.signals op = true ∨ Keeps st (st.step op) := by
  cases op with
  | requestBuffer slot =>
    refine .inr ?_
    simp only [step, perform, State.requestBuffer]
    repeat' split
    any_goals exact .refl _
    exact keeps_setSlot id
  | setBufferCount count =>
    simp only [State.signals, step, perform, State.setBufferCount]
    repeat' split
    all_goals first | exact .inl rfl | exact .inr (.refl _)
  | dequeueBuffer input flags address =>
    refine .inr ?_
    simp only [step, perform, State.dequeueBuffer]
    split_ifs
    · exact .refl _
    · split
      case h_1 heq => exact keeps_waitForFreeSlotThenRelock heq
      case h_2 heq => exact keeps_waitForFreeSlotThenRelock heq
      case h_3 heq =>
        refine (keeps_waitForFreeSlotThenRelock heq).trans (keeps_setSlot fun hfree => ?_)
        rw [BufferSlot.dequeue] at hfree
        split_ifs at hfree
  | detachBuffer slot =>
    simp only [State.signals, step, perform, State.detachBuffer]
    repeat' split
    all_goals first | exact .inl rfl | exact .inr (.refl _)
  | detachNextBuffer =>
    refine .inr ?_
    simp only [step, perform, State.detachNextBuffer]
    split_ifs
    · exact .refl _
    · split
      · exact .refl _
      case h_2 heq =>
        have hfree := oldest_eligible heq
        simp only [Bool.and_eq_true, beq_iff_eq] at hfree
        exact keeps_setSlot fun _ => hfree.1
  | attachBuffer buffer flags =>
    refine .inr ?_
    cases buffer with
    | none => exact .refl _
    | some buffer =>
      simp only [step, perform, State.attachBuffer]
      split
      case h_1 heq => exact keeps_waitForFreeSlotThenRelock heq
      case h_2 heq => exact keeps_waitForFreeSlotThenRelock heq
      case h_3 heq =>
        exact (keeps_waitForFreeSlotThenRelock heq).trans (keeps_setSlot fun hfree => by cases hfree)
  | queueBuffer slot input =>
    simp only [State.signals, step, perform, State.queueBuffer]
    cases hqueueable : st.queueable slot input with
    | error reply => exact .inr (.refl _)
    | ok s => exact .inl rfl
  | cancelBuffer slot fence =>
    simp only [State.signals, step, perform, State.cancelBuffer, State.cancels]
    split_ifs with habandoned
    · exact .inr (.refl _)
    · cases hslot : slotIndex slot with
      | none => exact .inr (.refl _)
      | some s =>
        dsimp only
        split_ifs with hstate
        · exact .inr (.refl _)
        · exact .inl (by simp_all)
  | connect api controlled =>
    refine .inr ?_
    simp only [step, perform, State.connect]
    split_ifs
    all_goals exact fun _ h => h
  | disconnect api =>
    simp only [State.signals, step, perform, State.disconnect]
    split_ifs with habandoned
    any_goals exact .inr (.refl _)
    exact .inl (by simp_all [Reply.isNoError])
  | setPreallocatedBuffer slot buffer address =>
    simp only [State.signals, step, perform, State.setPreallocatedBuffer]
    repeat' split
    all_goals first | exact .inl rfl | exact .inr (.refl _)
  | acquireBuffer expected => exact acquireBuffer_signals expected
  | releaseBuffer slot frameNumber =>
    simp only [State.signals, step, perform, State.releaseBuffer]
    repeat' split
    any_goals exact .inr (.refl _)
    · exact .inl rfl
    · exact .inr (keeps_setSlot id)
  | consumerConnect listens controlled =>
    refine .inr ?_
    simp only [step, perform, State.consumerConnect]
    split_ifs
    all_goals exact fun _ h => h
  | consumerDisconnect =>
    simp only [State.signals, step, perform, State.consumerDisconnect]
    split_ifs
    · exact .inr (.refl _)
    · exact .inl rfl

variable {q : SignalledState}

/-- A call that frees a slot leaves `dequeue_possible` set when it gives up the mutex. -/
theorem step_possible (op : Operation) (hused : (q.core.slots s).bufferState ≠ .free)
    (hfree : ((q.step op).core.slots s).bufferState = .free) :
    (q.step op).dequeuePossible = true := by
  rcases signals_or_keeps q.core op with hsignals | hkeeps
  · rw [SignalledState.step, hsignals, Bool.or_true]
  · exact absurd (hkeeps s hfree) hused

theorem foldl_step_of_possible {ops : List Operation} (h : q.dequeuePossible = true) :
    (ops.foldl SignalledState.step q).dequeuePossible = true := by
  induction ops generalizing q with
  | nil => exact h
  | cons op _ ih =>
    refine ih ?_
    rw [SignalledState.step, h, Bool.true_or]

/-- No signal is lost: a call that frees a slot sets `dequeue_possible`, and a wait returns that comes
after calls by which a slot has become free. -/
theorem freed_signals (hused : (q.core.slots s).bufferState ≠ .free) :
    (∀ op, ((q.step op).core.slots s).bufferState = .free → (q.step op).dequeuePossible = true) ∧
      ∀ ops : List Operation, ((ops.foldl SignalledState.step q).core.slots s).bufferState = .free →
        (ops.foldl SignalledState.step q).wake.isSome = true := by
  refine ⟨fun op => step_possible op hused, fun ops hfree => ?_⟩
  have hpossible : (ops.foldl SignalledState.step q).dequeuePossible = true := by
    induction ops generalizing q with
    | nil => exact absurd hfree hused
    | cons op ops ih =>
      by_cases hstep : ((q.step op).core.slots s).bufferState = .free
      · exact foldl_step_of_possible (q := q.step op) (step_possible op hused hstep)
      · exact ih hstep hfree
  rw [SignalledState.wake, if_pos hpossible, Option.isSome_some]

/-- A game gives back a slot that it has dequeued. -/
theorem freed_signals_cancel :
    let q : SignalledState :=
      ⟨State.initial.setSlot 0 { BufferSlot.initial with bufferState := .dequeued }, false⟩
    (q.step (.cancelBuffer 0 .noFence)).dequeuePossible = true :=
  (freed_signals (s := 0) (by decide)).1 (.cancelBuffer 0 .noFence) (by decide)

end Sudachi.Service.BufferQueue
