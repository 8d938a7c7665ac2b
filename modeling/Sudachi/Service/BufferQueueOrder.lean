import Sudachi.Service.BufferQueueOwnership
import Mathlib.Data.List.Pairwise

/-!
# The order of the frames

`QueueBuffer` numbers the frames, and `AcquireBuffer` takes them from the front of the queue. The
frames come out in the order of their numbers as long as a droppable frame is replaced only where it
is the last of the queue: a frame that takes the place of a droppable one in front of others is
handed out before those that were queued before it.
-/

set_option autoImplicit false

namespace Sudachi.Service.BufferQueue

open Sudachi.Foundations.Runs List

/-! ## The frames that are handed out -/

/-- A queue with the numbers of the frames that have been acquired, the first one first. -/
structure Watched where
  state : State
  acquired : List Nat

def Watched.initial : Watched := ⟨.initial, []⟩

def Watched.step (w : Watched) (op : Operation) : Watched :=
  ⟨w.state.step op, w.acquired ++ (w.state.perform op).1.frames⟩

/-- The numbers of the frames that wait in the queue. -/
def State.frames (st : State) : List Nat := st.queue.map BufferItem.frameNumber

/-- The frames have been acquired in the order of their numbers, and wait in this order. -/
def Watched.FrameOrder (w : Watched) : Prop :=
  w.acquired.Pairwise (· < ·) ∧ w.state.frames.Pairwise (· < ·)

/-- The frames that were acquired come before those that wait, and the counter is at the last. -/
structure Watched.InOrder (w : Watched) : Prop where
  pairwise : (w.acquired ++ w.state.frames).Pairwise (· < ·)
  bounded : ∀ f ∈ w.acquired ++ w.state.frames, f ≤ w.state.frameCounter

/-- The call does not overwrite a droppable frame with others behind it. -/
def Watched.ReplacesLast (w : Watched) : Operation → Prop
  | .queueBuffer slot input => ∀ s, w.state.queueable slot input = .ok s →
      ∀ front next rest, w.state.queue = front :: next :: rest → front.isDroppable = false
  | _ => True

/-- The counter of the frames does not wrap around. -/
def Watched.Counts (w : Watched) : Operation → Prop
  | .queueBuffer _ _ => w.state.frameCounter + 1 < 2 ^ 64
  | _ => True

variable {w : Watched} {st st' : State} {op : Operation} {reply : Reply} {acquired : List Nat}

theorem Watched.InOrder.frameOrder (h : w.InOrder) : w.FrameOrder :=
  ⟨(pairwise_append.mp h.pairwise).1, (pairwise_append.mp h.pairwise).2.1⟩

/-! ## The steps -/

/-- The frames that a call hands out and leaves, in order, are some of those it found, and it
numbers none. -/
structure State.Consumes (st : State) (reply : Reply) (st' : State) : Prop where
  sublist : (reply.frames ++ st'.frames).Sublist st.frames
  counter : st'.frameCounter = st.frameCounter

theorem State.consumes_of_sublist (hreply : reply.frames = []) (hqueue : st'.queue.Sublist st.queue)
    (hcounter : st'.frameCounter = st.frameCounter) : st.Consumes reply st' := by
  refine ⟨?_, hcounter⟩
  rw [hreply]
  exact hqueue.map BufferItem.frameNumber

theorem handedOut_frameNumber (item : BufferItem) :
    item.handedOut.frameNumber = item.frameNumber := by
  rw [BufferItem.handedOut]
  split
  · rfl
  · rfl

/-- Every call but one that queues a frame only takes frames from the front. -/
theorem consumes_or_queues (h : Outcome st op reply st') :
    st.Consumes reply st' ∨ ∃ slot input s, op = .queueBuffer slot input ∧ reply.frames = [] ∧
      st.queueable slot input = .ok s ∧ st' = st.afterQueue s input := by
  cases h with
  | quiet hreply hslots hqueue hcount hcounter =>
    exact .inl (State.consumes_of_sublist hreply (by rw [hqueue]) hcounter)
  | moved hreply hmove => exact .inl (State.consumes_of_sublist hreply (.refl _) rfl)
  | scanned hreply => exact .inl (State.consumes_of_sublist hreply (.refl _) rfl)
  | dequeued hreply hcount hfree => exact .inl (State.consumes_of_sublist hreply (.refl _) rfl)
  | attached hreply hscan hcount hfree =>
    exact .inl (State.consumes_of_sublist hreply (.refl _) rfl)
  | counted hreply haccepted hkept => exact .inl (State.consumes_of_sublist hreply (.refl _) rfl)
  | recounted hreply => exact .inl (State.consumes_of_sublist hreply (.refl _) rfl)
  | emptied hreply hslot => exact .inl (State.consumes_of_sublist hreply (.refl _) rfl)
  | preallocated hreply hslot hslots hqueue hcount hcounter =>
    exact .inl (State.consumes_of_sublist hreply (by rw [hqueue]) hcounter)
  | queued hreply hok => exact .inr ⟨_, _, _, rfl, hreply, hok, rfl⟩
  | drained hreply hdrains => exact .inl (State.consumes_of_sublist hreply hdrains.sublist rfl)
  | acquired hdrains =>
    have hsublist := hdrains.sublist.map BufferItem.frameNumber
    rw [map_cons, ← handedOut_frameNumber] at hsublist
    exact .inl ⟨hsublist, rfl⟩
  | cleared hreply hslots hqueue hcount hcounter =>
    exact .inl (State.consumes_of_sublist hreply (by rw [hqueue]; exact nil_sublist _) hcounter)

theorem Watched.InOrder.consume (h : Watched.InOrder ⟨st, acquired⟩)
    (hconsumes : st.Consumes reply st') : Watched.InOrder ⟨st', acquired ++ reply.frames⟩ := by
  have hsublist : (acquired ++ reply.frames ++ st'.frames).Sublist (acquired ++ st.frames) := by
    rw [append_assoc]
    exact hconsumes.sublist.append_left acquired
  refine ⟨h.pairwise.sublist hsublist, fun f hf => ?_⟩
  rw [hconsumes.counter]
  exact h.bounded f (hsublist.subset hf)

/-- A frame with a new number at the end of those that are already there. -/
theorem Watched.InOrder.append (h : Watched.InOrder ⟨st, acquired⟩)
    (hcounter : st'.frameCounter = st.frameCounter + 1)
    {frames : List Nat} (hframes : frames.Sublist st.frames)
    (hst' : st'.frames = frames ++ [st.frameCounter + 1]) : Watched.InOrder ⟨st', acquired⟩ := by
  have hsublist : (acquired ++ frames).Sublist (acquired ++ st.frames) :=
    hframes.append_left acquired
  have hbounded : ∀ f ∈ acquired ++ frames, f ≤ st.frameCounter :=
    fun f hf => h.bounded f (hsublist.subset hf)
  constructor
  case pairwise =>
    show (acquired ++ st'.frames).Pairwise (· < ·)
    rw [hst', ← append_assoc, pairwise_append]
    refine ⟨h.pairwise.sublist hsublist, pairwise_singleton _ _, fun f hf g hg => ?_⟩
    rw [mem_singleton.mp hg]
    exact Nat.lt_succ_of_le (hbounded f hf)
  case bounded =>
    intro f hf
    change f ∈ acquired ++ st'.frames at hf
    show f ≤ st'.frameCounter
    rw [hst', ← append_assoc, mem_append, mem_singleton] at hf
    rw [hcounter]
    rcases hf with hf | rfl
    · exact Nat.le_succ_of_le (hbounded f hf)
    · exact le_refl _

theorem afterQueue_counter {s : SlotIndex} {input : QueueBufferInput}
    (hcounts : st.frameCounter + 1 < 2 ^ 64) :
    (st.afterQueue s input).frameCounter = st.frameCounter + 1 :=
  Nat.mod_eq_of_lt hcounts

/-- The frames in the queue after a frame has been queued: the new one is the last, except where it
takes the place of a droppable one in front of others. -/
theorem afterQueue_frames (s : SlotIndex) (input : QueueBufferInput)
    (hcounts : st.frameCounter + 1 < 2 ^ 64) : (∃ frames, frames.Sublist st.frames ∧
        (st.afterQueue s input).frames = frames ++ [st.frameCounter + 1]) ∨
      ∃ front next rest, st.queue = front :: next :: rest ∧ front.isDroppable = true ∧
        (st.afterQueue s input).frames =
          (st.frameCounter + 1) :: next.frameNumber :: rest.map BufferItem.frameNumber := by
  have hnumber : (st.frameCounter + 1) % 2 ^ 64 = st.frameCounter + 1 := Nat.mod_eq_of_lt hcounts
  simp only [State.frames, State.afterQueue, hnumber]
  rcases st.queue with _ | ⟨front, _ | ⟨next, rest⟩⟩
  case nil => exact .inl ⟨[], nil_sublist _, rfl⟩
  case cons.nil =>
    rw [enqueue]
    split
    · exact .inl ⟨[], nil_sublist _, rfl⟩
    · exact .inl ⟨[front.frameNumber], .refl _, rfl⟩
  case cons.cons =>
    rw [enqueue]
    split
    case isTrue hdroppable => exact .inr ⟨front, next, rest, rfl, hdroppable, rfl⟩
    case isFalse => exact .inl ⟨_, .refl _, by simp only [map_append]; rfl⟩

theorem Watched.InOrder.step (h : w.InOrder) (hcounts : w.Counts op) (hlast : w.ReplacesLast op) :
    (w.step op).InOrder := by
  obtain hconsumes | ⟨slot, input, s, rfl, hreply, hok, hst'⟩ :=
    consumes_or_queues (perform_outcome w.state op)
  case inl => exact h.consume hconsumes
  case inr =>
    rw [Watched.step, hreply, append_nil, hst']
    obtain ⟨frames, hframes, heq⟩ | ⟨front, next, rest, hqueue, hdroppable, -⟩ :=
      afterQueue_frames s input hcounts
    · exact h.append (afterQueue_counter hcounts) hframes heq
    · rw [hlast s hok front next rest hqueue] at hdroppable
      cases hdroppable

/-- A frame that is put in front of an older one is out of order. -/
theorem not_frameOrder_of_replaces (h : w.InOrder) (hcounts : w.Counts op)
    (hlast : ¬w.ReplacesLast op) : ¬(w.step op).FrameOrder := by
  cases op with
  | queueBuffer slot input =>
    simp only [Watched.ReplacesLast] at hlast
    push Not at hlast
    obtain ⟨s, hok, front, next, rest, hqueue, hdroppable⟩ := hlast
    intro horder
    have hframes := horder.2
    have hstep : (w.step (.queueBuffer slot input)).state = w.state.afterQueue s input := by
      simp only [Watched.step, State.step, State.perform, State.queueBuffer, hok]
    have hnumber : (w.state.frameCounter + 1) % 2 ^ 64 = w.state.frameCounter + 1 :=
      Nat.mod_eq_of_lt hcounts
    have hnext : next.frameNumber ≤ w.state.frameCounter := by
      refine h.bounded _ (mem_append_right _ ?_)
      simp [State.frames, hqueue]
    rw [hstep] at hframes
    simp only [State.frames, State.afterQueue, hqueue, enqueue, hnumber] at hframes
    rw [if_pos (by simpa using hdroppable)] at hframes
    have hlt := (pairwise_cons.mp hframes).1 next.frameNumber mem_cons_self
    have hlt' : w.state.frameCounter + 1 < next.frameNumber := hlt
    omega
  | _ => exact absurd trivial hlast

/-! ## Runs -/

theorem inOrder_initial : Watched.initial.InOrder where
  pairwise := List.Pairwise.nil
  bounded := fun _ hf => (not_mem_nil hf).elim

/-- The frames are acquired in order, and wait in order, in every state of a run exactly when no
call of the run overwrites a droppable frame that has others behind it. -/
theorem throughout_frameOrder_iff (ops : List Operation)
    (hcounts : Along Watched.step Watched.Counts .initial ops) :
    Throughout Watched.step Watched.FrameOrder .initial ops ↔
      Along Watched.step Watched.ReplacesLast .initial ops :=
  throughout_iff_along (fun _ h => h.frameOrder) (fun _ _ h hcounts hlast => h.step hcounts hlast)
    (fun _ _ h hcounts hlast => not_frameOrder_of_replaces h hcounts hlast) inOrder_initial hcounts

theorem throughout_frameOrder_iff_frameRun :
    Along Watched.step Watched.Counts .initial frameRun ∧
      Throughout Watched.step Watched.FrameOrder .initial frameRun := by
  have hcounts : Along Watched.step Watched.Counts .initial frameRun :=
    ⟨trivial, trivial, by show 0 + 1 < 2 ^ 64; decide, trivial, trivial, trivial⟩
  refine ⟨hcounts, (throughout_frameOrder_iff frameRun hcounts).mpr ⟨trivial, trivial, ?_, trivial,
    trivial, trivial⟩⟩
  intro s _ front next rest hqueue
  cases hqueue

/-- A slot is dequeued, and a frame is queued in it. -/
def presentFrame (slot : Nat) (async : Bool) : List Operation :=
  [.dequeueBuffer defaultRequest .none slot, .requestBuffer slot,
    .queueBuffer slot (plainFrame async)]

/-- Three frames are queued, of which the second is droppable; the first is acquired, so that the
second is in front, and a fourth frame takes its place. -/
def outOfOrderRun : List Operation :=
  [.setBufferCount 4] ++ presentFrame 0 false ++ presentFrame 1 true ++ presentFrame 2 false ++
    [.acquireBuffer 0] ++ presentFrame 3 false ++
    [.releaseBuffer 0 1, .acquireBuffer 0, .releaseBuffer 3 4, .acquireBuffer 0]

/-- The fourth frame is acquired before the third. -/
theorem queueBuffer_overtakes_older_frame :
    (outOfOrderRun.foldl Watched.step .initial).acquired = [1, 4, 3] ∧
      ¬(outOfOrderRun.foldl Watched.step .initial).FrameOrder := by
  have hacquired : (outOfOrderRun.foldl Watched.step .initial).acquired = [1, 4, 3] := by
    decide +kernel
  refine ⟨hacquired, fun h => ?_⟩
  have hpairwise := h.1
  rw [hacquired] at hpairwise
  revert hpairwise
  decide

end Sudachi.Service.BufferQueue
