import Mathlib.Data.List.Sort
import Mathlib.Tactic

/-!
# Timed events

`CoreTiming` of `core_timing.cpp`: events queued by time, and `Advance`, which calls back the types of
those that are due. A callback runs without the lock of the queue, so that anything may be scheduled
and unscheduled meanwhile; `Advance` is therefore a machine with the phases of `Phase`, one action of
which is one turn of its loop up to a callback, or the return of one. The queue is listed in the
order in which the heap gives its events up. An event type that has been destroyed is not `alive`;
weak pointers to it are empty.
-/

set_option autoImplicit false

namespace Sudachi.Core.Timing

open Function

abbrev TypeId := Nat

/-- `CoreTiming::Event`; handles of the heap are numbers that are not used again. -/
structure Event where
  time : Int
  fifoOrder : Nat
  type : TypeId
  rescheduleTime : Int
  handle : Nat
  deriving DecidableEq

/-- `operator<` of events. -/
def Event.Lt (a b : Event) : Prop :=
  a.time < b.time ∨ (a.time = b.time ∧ a.fifoOrder < b.fifoOrder)

instance : DecidableRel Event.Lt := fun a b =>
  inferInstanceAs (Decidable (a.time < b.time ∨ (a.time = b.time ∧ a.fifoOrder < b.fifoOrder)))

/-- Where `Advance` is: nowhere, at the head of its loop with the lock of the queue, or in the
callback of an event without it. -/
inductive Phase where
  | idle
  | looking
  | calling (evt : Event) (sequenceNum : Nat)
  deriving DecidableEq

structure CoreTiming where
  eventQueue : List Event
  eventFifoId : Nat
  sequenceNumber : TypeId → Nat
  alive : TypeId → Bool
  pauseEndTime : Int
  globalTimer : Int
  phase : Phase

namespace CoreTiming

/-- The queue with one more event. -/
def push (queue : List Event) (e : Event) : List Event := queue.orderedInsert Event.Lt e

/-- `event_queue.emplace`. -/
def emplace (s : CoreTiming) (time : Int) (type : TypeId) (rescheduleTime : Int) : CoreTiming :=
  { s with
    eventQueue := push s.eventQueue ⟨time, s.eventFifoId, type, rescheduleTime, s.eventFifoId⟩
    eventFifoId := s.eventFifoId + 1 }

/-- `ScheduleEvent`, at the time `now`. -/
def scheduleEvent (s : CoreTiming) (now nsIntoFuture : Int) (type : TypeId) (absoluteTime : Bool) :
    CoreTiming :=
  s.emplace (if absoluteTime then nsIntoFuture else now + nsIntoFuture) type 0

/-- `ScheduleLoopingEvent`. -/
def scheduleLoopingEvent (s : CoreTiming) (now startTime reschedTime : Int) (type : TypeId)
    (absoluteTime : Bool) : CoreTiming :=
  s.emplace (if absoluteTime then startTime else now + startTime) type reschedTime

/-- `UnscheduleEvent`. With `UnscheduleEventType::Wait` it returns once `Advance` is idle, which does
not change the state. -/
def unscheduleEvent (s : CoreTiming) (type : TypeId) : CoreTiming :=
  { s with
    eventQueue := s.eventQueue.filter fun e => e.type ≠ type
    sequenceNumber := update s.sequenceNumber type (s.sequenceNumber type + 1) }

/-- The event that a turn of the loop calls back. -/
def fires (s : CoreTiming) : Option Event :=
  match s.eventQueue with
  | [] => none
  | evt :: _ => if evt.time ≤ s.globalTimer ∧ s.alive evt.type then some evt else none

/-- A turn of the loop of `Advance`, until it calls back or ends. -/
def turn (s : CoreTiming) (now : Int) : CoreTiming :=
  match s.eventQueue with
  | [] => { s with phase := .idle }
  | evt :: rest =>
    if evt.time ≤ s.globalTimer then
      if s.alive evt.type then
        if evt.rescheduleTime = 0 then
          { s with
            eventQueue := rest
            phase := .calling evt (s.sequenceNumber evt.type) }
        else { s with phase := .calling evt (s.sequenceNumber evt.type) }
      else { s with globalTimer := now }
    else { s with phase := .idle }

/-- When a looping event is due again. -/
def nextTime (s : CoreTiming) (evt : Event) (period : Int) : Int :=
  if evt.time < s.pauseEndTime then s.pauseEndTime + period else evt.time + period

/-- The rest of a turn once the callback has returned. -/
def finishCall (s : CoreTiming) (now : Int) (evt : Event) (sequenceNum : Nat)
    (newScheduleTime : Option Int) : CoreTiming :=
  if evt.rescheduleTime = 0 then { s with globalTimer := now, phase := .looking }
  else if sequenceNum ≠ s.sequenceNumber evt.type then { s with phase := .looking }
  else
    let period := newScheduleTime.getD evt.rescheduleTime
    let next : Event := ⟨s.nextTime evt period, s.eventFifoId, evt.type, period, evt.handle⟩
    { s with
      eventQueue := push (s.eventQueue.filter fun e => e.handle ≠ evt.handle) next
      eventFifoId := s.eventFifoId + 1
      globalTimer := now
      phase := .looking }

/-- What may happen next, with the time that is read. -/
inductive Action where
  | scheduleEvent (now nsIntoFuture : Int) (type : TypeId) (absoluteTime : Bool)
  | scheduleLoopingEvent (now startTime reschedTime : Int) (type : TypeId) (absoluteTime : Bool)
  | unscheduleEvent (type : TypeId)
  | destroy (type : TypeId)
  | endPause (now : Int)
  | advance (now : Int)
  | turn (now : Int)
  | callbackReturns (now : Int) (newScheduleTime : Option Int)

/-- Whether the lock of the queue is free. -/
def Unlocked (s : CoreTiming) : Prop := s.phase ≠ .looking

instance (s : CoreTiming) : Decidable s.Unlocked := inferInstanceAs (Decidable (_ ≠ _))

/-- One action; no result is an action that cannot happen now. Who schedules and unschedules holds
the type. -/
def perform (s : CoreTiming) : Action → Option CoreTiming
  | .scheduleEvent now nsIntoFuture type absoluteTime =>
    if s.Unlocked ∧ s.alive type then
      some (s.scheduleEvent now nsIntoFuture type absoluteTime)
    else none
  | .scheduleLoopingEvent now startTime reschedTime type absoluteTime =>
    if s.Unlocked ∧ s.alive type then
      some (s.scheduleLoopingEvent now startTime reschedTime type absoluteTime)
    else none
  | .unscheduleEvent type =>
    if s.Unlocked ∧ s.alive type then some (s.unscheduleEvent type) else none
  | .destroy type => some { s with alive := update s.alive type false }
  | .endPause now => some { s with pauseEndTime := now }
  | .advance now =>
    if s.phase = .idle then some { s with globalTimer := now, phase := .looking } else none
  | .turn now => if s.phase = .looking then some (s.turn now) else none
  | .callbackReturns now newScheduleTime =>
    match s.phase with
    | .calling evt sequenceNum => some (s.finishCall now evt sequenceNum newScheduleTime)
    | _ => none

end CoreTiming

end Sudachi.Core.Timing
