import Sudachi.Core.CoreTiming

/-!
# Runs of the timed events

A ledger notes which events were scheduled, which were called back and which `UnscheduleEvent`
removed. `advance_spec` is about the runs in which the loop of `Advance` never finds an event at
the top of its queue that is due while its type has been destroyed (`TopLive`): there the loop
neither calls back nor removes anything, and turns for ever (`turn_of_expired`).
-/

set_option autoImplicit false

namespace Sudachi.Core.Timing

open List Function

namespace CoreTiming

/-! ## The queue -/

theorem lt_trans' {a b c : Event} (hab : a.Lt b) (hbc : b.Lt c) : a.Lt c := by
  rw [Event.Lt] at *
  omega

theorem lt_of_not_lt {a b : Event} (h : ¬a.Lt b) (hfifo : b.fifoOrder < a.fifoOrder) : b.Lt a := by
  rw [Event.Lt] at *
  omega

theorem mem_push {queue : List Event} {e x : Event} : x ∈ push queue e ↔ x = e ∨ x ∈ queue :=
  mem_orderedInsert _

theorem push_perm (queue : List Event) (e : Event) : (push queue e).Perm (e :: queue) :=
  perm_orderedInsert _ _ _

theorem push_sorted {queue : List Event} {e : Event} (h : queue.Pairwise Event.Lt)
    (hfifo : ∀ x ∈ queue, x.fifoOrder < e.fifoOrder) : (push queue e).Pairwise Event.Lt := by
  induction queue with
  | nil => exact pairwise_singleton _ _
  | cons b queue ih =>
    obtain ⟨hhead, htail⟩ := pairwise_cons.mp h
    rw [push, orderedInsert_cons]
    split_ifs with hlt
    · refine pairwise_cons.mpr ⟨fun x hx => ?_, h⟩
      rcases mem_cons.mp hx with rfl | hx
      · exact hlt
      · exact lt_trans' hlt (hhead x hx)
    · refine pairwise_cons.mpr ⟨fun x hx => ?_, ih htail fun x hx => hfifo x (by simp [hx])⟩
      rcases mem_push.mp hx with rfl | hx
      · exact lt_of_not_lt hlt (hfifo b mem_cons_self)
      · exact hhead x hx

/-! ## The ledger of a run -/

/-- `floor` is the number of arrivals at the last `UnscheduleEvent` of a type. -/
structure Ledger where
  scheduled : List Nat
  oneShots : List Nat
  fired : List Event
  removed : List Nat
  floor : TypeId → Nat

/-- The one-shot events that were called back. -/
def Ledger.done (g : Ledger) : List Nat :=
  (g.fired.filter fun e => e.rescheduleTime = 0).map Event.handle

def Ledger.empty : Ledger := ⟨[], [], [], [], fun _ => 0⟩

/-- The ledger after an action in the state `s`. -/
def Ledger.record (g : Ledger) (s : CoreTiming) : Action → Ledger
  | .scheduleEvent .. =>
    { g with
      scheduled := s.eventFifoId :: g.scheduled
      oneShots := s.eventFifoId :: g.oneShots }
  | .scheduleLoopingEvent .. => { g with scheduled := s.eventFifoId :: g.scheduled }
  | .unscheduleEvent type =>
    { g with
      removed := ((s.eventQueue.filter fun e => e.type = type).map Event.handle) ++ g.removed
      floor := update g.floor type s.eventFifoId }
  | .turn _ => { g with fired := s.fires.toList ++ g.fired }
  | _ => g

/-- The event at the top of the queue, if it is due, has a type that still exists. -/
def TopLive (s : CoreTiming) : Prop :=
  ∀ evt ∈ s.eventQueue.head?, evt.time ≤ s.globalTimer → s.alive evt.type = true

instance (s : CoreTiming) : Decidable s.TopLive :=
  inferInstanceAs (Decidable (∀ evt ∈ s.eventQueue.head?, _ → _))

/-- The runs whose turns all find the top of the queue live. -/
inductive Reachable : CoreTiming → Ledger → Prop where
  | start {s : CoreTiming} (hqueue : s.eventQueue = []) (hphase : s.phase = .idle) :
      Reachable s .empty
  | step {s s' : CoreTiming} {g : Ledger} (hreach : Reachable s g) (action : Action)
      (hlive : ∀ now, action = .turn now → s.TopLive) (h : s.perform action = some s') :
      Reachable s' (g.record s action)

/-- What holds between a state and its ledger. -/
structure Tracks (s : CoreTiming) (g : Ledger) : Prop where
  sorted : s.eventQueue.Pairwise Event.Lt
  fifo : ∀ e ∈ s.eventQueue, e.fifoOrder < s.eventFifoId
  places : (s.eventQueue.map Event.handle ++ (g.done ++ g.removed)).Perm g.scheduled
  nodup : g.scheduled.Nodup
  fresh : ∀ handle ∈ g.scheduled, handle < s.eventFifoId
  oneShots : ∀ handle ∈ g.oneShots, handle ∈ g.scheduled
  fired : ∀ e ∈ g.fired, e.handle ∈ g.scheduled
  queuedOneShots : ∀ e ∈ s.eventQueue, e.handle ∈ g.oneShots → e.rescheduleTime = 0
  firedOneShots : ∀ e ∈ g.fired, e.handle ∈ g.oneShots → e.rescheduleTime = 0
  floor : ∀ e ∈ s.eventQueue, g.floor e.type ≤ e.handle
  floor_le : ∀ type, g.floor type ≤ s.eventFifoId
  calling : ∀ evt sequenceNum, s.phase = .calling evt sequenceNum → evt.rescheduleTime ≠ 0 →
    sequenceNum ≤ s.sequenceNumber evt.type ∧
      (sequenceNum = s.sequenceNumber evt.type → evt ∈ s.eventQueue) ∧
      (sequenceNum < s.sequenceNumber evt.type → evt.handle ∈ g.removed)

section Invariant

variable {s s' : CoreTiming} {g : Ledger}
variable {evt : Event} {rest : List Event}

section

variable (h : s.Tracks g)
include h

theorem Tracks.handle_lt {e : Event} (he : e ∈ s.eventQueue) : e.handle < s.eventFifoId := by
  refine h.fresh e.handle (h.places.subset ?_)
  exact mem_append_left _ (mem_map_of_mem he)

theorem Tracks.handles_nodup : (s.eventQueue.map Event.handle ++ (g.done ++ g.removed)).Nodup :=
  h.places.symm.nodup h.nodup

/-- An event comes into the queue. -/
theorem Tracks.emplace (time : Int) (type : TypeId) (rescheduleTime : Int) {oneShots : List Nat}
    (hone : oneShots = g.oneShots ∨ (oneShots = s.eventFifoId :: g.oneShots ∧ rescheduleTime = 0)) :
    (s.emplace time type rescheduleTime).Tracks
      { g with scheduled := s.eventFifoId :: g.scheduled, oneShots := oneShots } := by
  have hnew : ∀ handle ∈ oneShots, handle < s.eventFifoId → handle ∈ g.oneShots := by
    rcases hone with rfl | ⟨rfl, -⟩
    · exact fun handle hhandle _ => hhandle
    · intro handle hhandle hlt
      rcases mem_cons.mp hhandle with rfl | hhandle
      · exact absurd hlt (lt_irrefl _)
      · exact hhandle
  constructor
  case sorted => exact push_sorted h.sorted h.fifo
  case fifo =>
    intro e he
    show e.fifoOrder < s.eventFifoId + 1
    rcases mem_push.mp he with rfl | he
    · exact Nat.lt_succ_self _
    · exact Nat.lt_succ_of_lt (h.fifo e he)
  case places =>
    have hperm := (push_perm s.eventQueue
      ⟨time, s.eventFifoId, type, rescheduleTime, s.eventFifoId⟩).map Event.handle
    exact (hperm.append_right _).trans (h.places.cons s.eventFifoId)
  case nodup =>
    exact nodup_cons.mpr ⟨fun hmem => absurd (h.fresh _ hmem) (lt_irrefl _), h.nodup⟩
  case fresh =>
    intro handle hhandle
    show handle < s.eventFifoId + 1
    rcases mem_cons.mp hhandle with rfl | hhandle
    · exact Nat.lt_succ_self _
    · exact Nat.lt_succ_of_lt (h.fresh handle hhandle)
  case oneShots =>
    intro handle hhandle
    rcases hone with rfl | ⟨rfl, -⟩
    · exact mem_cons_of_mem _ (h.oneShots handle hhandle)
    · rcases mem_cons.mp hhandle with rfl | hhandle
      · exact mem_cons_self
      · exact mem_cons_of_mem _ (h.oneShots handle hhandle)
  case fired => exact fun e he => mem_cons_of_mem _ (h.fired e he)
  case queuedOneShots =>
    intro e he hhandle
    rcases mem_push.mp he with rfl | he
    · rcases hone with rfl | ⟨-, hzero⟩
      · exact absurd (h.fresh _ (h.oneShots _ hhandle)) (lt_irrefl _)
      · exact hzero
    · exact h.queuedOneShots e he (hnew _ hhandle (h.handle_lt he))
  case firedOneShots =>
    intro e he hhandle
    exact h.firedOneShots e he (hnew _ hhandle (h.fresh _ (h.fired e he)))
  case floor =>
    intro e he
    rcases mem_push.mp he with rfl | he
    · exact h.floor_le type
    · exact h.floor e he
  case floor_le => exact fun type => Nat.le_succ_of_le (h.floor_le type)
  case calling =>
    intro evt sequenceNum hphase hloop
    obtain ⟨hle, hqueued, hremoved⟩ := h.calling evt sequenceNum hphase hloop
    exact ⟨hle, fun heq => mem_push.mpr (.inr (hqueued heq)), hremoved⟩

theorem Tracks.unscheduleEvent (type : TypeId) :
    (s.unscheduleEvent type).Tracks (g.record s (.unscheduleEvent type)) := by
  have hsub : (s.eventQueue.filter fun e => e.type ≠ type).Sublist s.eventQueue := filter_sublist
  constructor
  case sorted => exact h.sorted.sublist hsub
  case fifo => exact fun e he => h.fifo e (hsub.subset he)
  case places =>
    -- the queue falls into what stays and what is removed
    have hsplit : ((s.eventQueue.filter fun e => e.type = type) ++
        s.eventQueue.filter fun e => e.type ≠ type).Perm s.eventQueue := by
      have := filter_append_perm (fun e : Event => decide (e.type = type)) s.eventQueue
      simpa only [decide_not] using this
    have hmap := hsplit.map Event.handle
    rw [map_append] at hmap
    refine List.Perm.trans ?_ h.places
    refine List.Perm.trans ?_ (hmap.append_right _)
    show ((s.eventQueue.filter fun e => e.type ≠ type).map Event.handle ++
      (g.done ++ ((s.eventQueue.filter fun e => e.type = type).map Event.handle ++
        g.removed))).Perm _
    refine perm_iff_count.mpr fun handle => ?_
    simp only [count_append]
    omega
  case nodup => exact h.nodup
  case fresh => exact h.fresh
  case oneShots => exact h.oneShots
  case fired => exact h.fired
  case queuedOneShots => exact fun e he => h.queuedOneShots e (hsub.subset he)
  case firedOneShots => exact h.firedOneShots
  case floor =>
    intro e he
    have hne : e.type ≠ type := by
      have := (mem_filter.mp he).2
      simpa using this
    show update g.floor type s.eventFifoId e.type ≤ e.handle
    rw [update_of_ne hne]
    exact h.floor e (hsub.subset he)
  case floor_le =>
    intro type'
    show update g.floor type s.eventFifoId type' ≤ s.eventFifoId
    by_cases heq : type' = type
    · subst heq
      rw [update_self]
    · rw [update_of_ne heq]
      exact h.floor_le type'
  case calling =>
    intro evt sequenceNum hphase hloop
    obtain ⟨hle, hqueued, hremoved⟩ := h.calling evt sequenceNum hphase hloop
    simp only [CoreTiming.unscheduleEvent, Ledger.record]
    by_cases heq : evt.type = type
    · rw [heq, update_self]
      rw [heq] at hle hqueued hremoved
      refine ⟨by omega, fun hsame => by omega, fun _ => ?_⟩
      rcases lt_or_eq_of_le hle with hlt | hsame
      · exact mem_append_right _ (hremoved hlt)
      · refine mem_append_left _ (mem_map_of_mem (mem_filter.mpr ⟨hqueued hsame, ?_⟩))
        exact decide_eq_true heq
    · rw [update_of_ne heq]
      refine ⟨hle, fun hsame => mem_filter.mpr ⟨hqueued hsame, decide_eq_true heq⟩, fun hlt => ?_⟩
      exact mem_append_right _ (hremoved hlt)

/-- What neither the queue nor the sequence numbers depend on. -/
theorem Tracks.congr (hqueue : s'.eventQueue = s.eventQueue)
    (hfifo : s'.eventFifoId = s.eventFifoId) (hnumber : s'.sequenceNumber = s.sequenceNumber)
    (hphase : ∀ evt sequenceNum, s'.phase = .calling evt sequenceNum →
      s.phase = .calling evt sequenceNum) : s'.Tracks g := by
  constructor
  case sorted => exact hqueue ▸ h.sorted
  case fifo => exact hqueue ▸ hfifo ▸ h.fifo
  case places => exact hqueue ▸ h.places
  case nodup => exact h.nodup
  case fresh => exact hfifo ▸ h.fresh
  case oneShots => exact h.oneShots
  case fired => exact h.fired
  case queuedOneShots => exact hqueue ▸ h.queuedOneShots
  case firedOneShots => exact h.firedOneShots
  case floor => exact hqueue ▸ h.floor
  case floor_le => exact hfifo ▸ h.floor_le
  case calling =>
    intro evt sequenceNum hcalling hloop
    rw [hqueue, hnumber]
    exact h.calling evt sequenceNum (hphase evt sequenceNum hcalling) hloop

/-- The event at the top is called back: a one-shot event leaves the queue. -/
theorem Tracks.fire (hqueue : s.eventQueue = evt :: rest) : ({ s with
        eventQueue := if evt.rescheduleTime = 0 then rest else s.eventQueue
        phase := .calling evt (s.sequenceNumber evt.type) } : CoreTiming).Tracks
      { g with fired := evt :: g.fired } := by
  have hmem : evt ∈ s.eventQueue := by rw [hqueue]; exact mem_cons_self
  have hsub : (if evt.rescheduleTime = 0 then rest else s.eventQueue).Sublist s.eventQueue := by
    split_ifs
    · rw [hqueue]
      exact sublist_cons_self _ _
    · exact List.Sublist.refl _
  have hscheduled : evt.handle ∈ g.scheduled :=
    h.places.subset (mem_append_left _ (mem_map_of_mem hmem))
  constructor
  case sorted => exact h.sorted.sublist hsub
  case fifo => exact fun e he => h.fifo e (hsub.subset he)
  case places =>
    refine List.Perm.trans ?_ h.places
    rw [Ledger.done, filter_cons, hqueue]
    split_ifs with hzero hzero'
    · refine perm_iff_count.mpr fun handle => ?_
      simp only [map_cons, count_append, count_cons, Ledger.done]
      omega
    · exact absurd (decide_eq_true hzero) hzero'
    · rename_i hone
      exact absurd (of_decide_eq_true hone) hzero
    · exact .refl _
  case nodup => exact h.nodup
  case fresh => exact h.fresh
  case oneShots => exact h.oneShots
  case fired =>
    intro e he
    rcases mem_cons.mp he with rfl | he
    · exact hscheduled
    · exact h.fired e he
  case queuedOneShots => exact fun e he => h.queuedOneShots e (hsub.subset he)
  case firedOneShots =>
    intro e he
    rcases mem_cons.mp he with rfl | he
    · exact h.queuedOneShots e hmem
    · exact h.firedOneShots e he
  case floor => exact fun e he => h.floor e (hsub.subset he)
  case floor_le => exact h.floor_le
  case calling =>
    intro evt' sequenceNum hphase hloop
    cases hphase
    refine ⟨le_refl _, fun _ => ?_, fun hlt => absurd hlt (lt_irrefl _)⟩
    simp only [if_neg hloop]
    exact hmem

/-- A looping event is put back under a new time. -/
theorem Tracks.requeue (next : Event) (hmem : evt ∈ s.eventQueue)
    (hloop : evt.rescheduleTime ≠ 0) (hhandle : next.handle = evt.handle)
    (htype : next.type = evt.type) (hfifo : next.fifoOrder = s.eventFifoId) (now : Int) : ({ s with
        eventQueue := push (s.eventQueue.filter fun e => e.handle ≠ evt.handle) next
        eventFifoId := s.eventFifoId + 1
        globalTimer := now
        phase := .looking } : CoreTiming).Tracks g := by
  have hsub : (s.eventQueue.filter fun e => e.handle ≠ evt.handle).Sublist s.eventQueue :=
    filter_sublist
  have hlast : ∀ e ∈ s.eventQueue.filter fun e => e.handle ≠ evt.handle,
      e.fifoOrder < next.fifoOrder := fun e he => hfifo ▸ h.fifo e (hsub.subset he)
  constructor
  case sorted => exact push_sorted (h.sorted.sublist hsub) hlast
  case fifo =>
    intro e he
    show e.fifoOrder < s.eventFifoId + 1
    rcases mem_push.mp he with rfl | he
    · omega
    · exact Nat.lt_succ_of_lt (h.fifo e (hsub.subset he))
  case places =>
    -- the handle is in the queue once before and once after
    have hnodup : (s.eventQueue.map Event.handle).Nodup := h.handles_nodup.of_append_left
    have hperm := (push_perm (s.eventQueue.filter fun e => e.handle ≠ evt.handle) next).map
      Event.handle
    refine List.Perm.trans ?_ h.places
    refine (hperm.trans ?_).append_right _
    rw [map_cons, hhandle]
    have hfilter : (s.eventQueue.filter fun e => e.handle ≠ evt.handle).map Event.handle =
        (s.eventQueue.map Event.handle).erase evt.handle := by
      rw [hnodup.erase_eq_filter, filter_map]
      refine congrArg (map Event.handle) (filter_congr fun e _ => ?_)
      rw [decide_not]
      rfl
    rw [hfilter]
    exact (perm_cons_erase (mem_map_of_mem hmem)).symm
  case nodup => exact h.nodup
  case fresh => exact fun handle hhandle' => Nat.lt_succ_of_lt (h.fresh handle hhandle')
  case oneShots => exact h.oneShots
  case fired => exact h.fired
  case queuedOneShots =>
    intro e he hone
    rcases mem_push.mp he with rfl | he
    · rw [hhandle] at hone
      exact absurd (h.queuedOneShots evt hmem hone) hloop
    · exact h.queuedOneShots e (hsub.subset he) hone
  case firedOneShots => exact h.firedOneShots
  case floor =>
    intro e he
    rcases mem_push.mp he with rfl | he
    · rw [hhandle, htype]
      exact h.floor evt hmem
    · exact h.floor e (hsub.subset he)
  case floor_le => exact fun type => Nat.le_succ_of_le (h.floor_le type)
  case calling => exact fun evt' sequenceNum hphase => absurd hphase (by simp)

end

/-- Nothing is due: the loop ends. -/
theorem turn_of_none_due (hnone : ∀ evt ∈ s.eventQueue.head?, s.globalTimer < evt.time) (now : Int) :
    s.turn now = { s with phase := .idle } ∧ s.fires = none := by
  unfold CoreTiming.turn fires
  split
  case h_1 => exact ⟨rfl, rfl⟩
  case h_2 evt rest hqueue =>
    have hlater := hnone evt (by rw [hqueue]; rfl)
    rw [if_neg (not_le.mpr hlater), if_neg fun hboth => absurd hboth.1 (not_le.mpr hlater)]
    exact ⟨rfl, rfl⟩

/-- The event at the top is due and its type exists: it is called back. -/
theorem turn_of_live (hqueue : s.eventQueue = evt :: rest)
    (hdue : evt.time ≤ s.globalTimer) (halive : s.alive evt.type = true) (now : Int) :
    s.turn now = { s with
        eventQueue := if evt.rescheduleTime = 0 then rest else s.eventQueue
        phase := .calling evt (s.sequenceNumber evt.type) } ∧ s.fires = some evt := by
  unfold CoreTiming.turn fires
  split
  case h_1 hnil =>
    rw [hnil] at hqueue
    cases hqueue
  case h_2 evt' rest' hqueue' =>
    cases hqueue'.symm.trans hqueue
    have hboth : evt.time ≤ s.globalTimer ∧ s.alive evt.type = true := ⟨hdue, halive⟩
    rw [if_pos hdue, if_pos halive]
    refine ⟨?_, if_pos hboth⟩
    split_ifs <;> rfl

/-- The type of the event at the top no longer exists: the loop turns, and nothing is called back or
removed. -/
theorem turn_of_expired (hqueue : s.eventQueue = evt :: rest)
    (hdue : evt.time ≤ s.globalTimer) (hdead : s.alive evt.type = false) (now : Int) :
    s.turn now = { s with globalTimer := now } ∧ s.fires = none := by
  unfold CoreTiming.turn fires
  split
  case h_1 hnil =>
    rw [hnil] at hqueue
    cases hqueue
  case h_2 evt' rest' hqueue' =>
    cases hqueue'.symm.trans hqueue
    rw [if_pos hdue, hdead]
    simp

theorem Tracks.turn (h : s.Tracks g) (hlive : s.TopLive) (now : Int) :
    (s.turn now).Tracks (g.record s (.turn now)) := by
  rw [Ledger.record]
  by_cases hdue : ∃ evt ∈ s.eventQueue.head?, evt.time ≤ s.globalTimer
  · obtain ⟨evt, hhead, hdue⟩ := hdue
    obtain ⟨rest, hqueue⟩ := head?_eq_some_iff.mp hhead
    obtain ⟨hturn, hfires⟩ := turn_of_live hqueue hdue (hlive evt hhead hdue) now
    rw [hturn, hfires]
    exact h.fire hqueue
  · have hnone : ∀ evt ∈ s.eventQueue.head?, s.globalTimer < evt.time :=
      fun evt hevt => not_le.mp fun hle => hdue ⟨evt, hevt, hle⟩
    obtain ⟨hturn, hfires⟩ := turn_of_none_due hnone now
    rw [hturn, hfires]
    exact h.congr rfl rfl rfl fun _ _ hphase => absurd hphase (by simp)

theorem Tracks.finishCall (h : s.Tracks g) {sequenceNum : Nat}
    (hphase : s.phase = .calling evt sequenceNum) (now : Int) (newScheduleTime : Option Int) :
    (s.finishCall now evt sequenceNum newScheduleTime).Tracks g := by
  rw [CoreTiming.finishCall]
  split_ifs with hzero hnumber
  · exact h.congr rfl rfl rfl fun _ _ hphase => absurd hphase (by simp)
  · exact h.congr rfl rfl rfl fun _ _ hphase => absurd hphase (by simp)
  · have hmem := (h.calling evt sequenceNum hphase hzero).2.1 (not_not.mp hnumber)
    exact h.requeue ⟨s.nextTime evt (newScheduleTime.getD evt.rescheduleTime), s.eventFifoId, evt.type,
      newScheduleTime.getD evt.rescheduleTime, evt.handle⟩ hmem hzero rfl rfl rfl now

theorem Tracks.perform (h : s.Tracks g) {action : Action}
    (hlive : ∀ now, action = .turn now → s.TopLive) (hperform : s.perform action = some s') :
    s'.Tracks (g.record s action) := by
  cases action with
  | scheduleEvent now nsIntoFuture type absoluteTime =>
    obtain ⟨-, heq⟩ := Option.ite_none_right_eq_some.mp hperform
    cases heq
    exact h.emplace _ type 0 (.inr ⟨rfl, rfl⟩)
  | scheduleLoopingEvent now startTime reschedTime type absoluteTime =>
    obtain ⟨-, heq⟩ := Option.ite_none_right_eq_some.mp hperform
    cases heq
    exact h.emplace _ type reschedTime (.inl rfl)
  | unscheduleEvent type =>
    obtain ⟨-, heq⟩ := Option.ite_none_right_eq_some.mp hperform
    cases heq
    exact h.unscheduleEvent type
  | destroy type =>
    cases hperform
    exact h.congr rfl rfl rfl fun _ _ hphase => hphase
  | endPause now =>
    cases hperform
    exact h.congr rfl rfl rfl fun _ _ hphase => hphase
  | advance now =>
    obtain ⟨-, heq⟩ := Option.ite_none_right_eq_some.mp hperform
    cases heq
    exact h.congr rfl rfl rfl fun _ _ hphase => absurd hphase (by simp)
  | turn now =>
    obtain ⟨-, heq⟩ := Option.ite_none_right_eq_some.mp hperform
    cases heq
    exact h.turn (hlive now rfl) now
  | callbackReturns now newScheduleTime =>
    rw [CoreTiming.perform] at hperform
    cases hphase : s.phase with
    | idle => rw [hphase] at hperform; cases hperform
    | looking => rw [hphase] at hperform; cases hperform
    | calling evt sequenceNum =>
      rw [hphase] at hperform
      cases hperform
      exact h.finishCall hphase now newScheduleTime

theorem Reachable.tracks (h : Reachable s g) : s.Tracks g := by
  induction h with
  | start hqueue hphase =>
    constructor
    case calling =>
      intro evt sequenceNum hcalling
      rw [hphase] at hcalling
      cases hcalling
    all_goals simp [hqueue, Ledger.empty, Ledger.done]
  | step _ action hlive h ih => exact ih.perform hlive h

/-- Every one-shot event is in one place: queued, called back once, or removed. -/
theorem Tracks.oneShot_count (h : s.Tracks g) {handle : Nat} (hone : handle ∈ g.oneShots) :
    (s.eventQueue.map Event.handle).count handle + (g.fired.map Event.handle).count handle +
      g.removed.count handle = 1 := by
  have hdone : (g.fired.map Event.handle).count handle = g.done.count handle := by
    rw [Ledger.done, count_eq_countP, countP_map, count_eq_countP, countP_map, countP_filter]
    refine countP_congr fun e he => ?_
    simp only [comp_apply, beq_iff_eq, Bool.and_eq_true, decide_eq_true_eq]
    refine ⟨fun heq => ⟨heq, ?_⟩, fun hboth => hboth.1⟩
    exact h.firedOneShots e he (heq ▸ hone)
  have hcount := h.places.count_eq handle
  rw [count_append, count_append, count_eq_one_of_mem h.nodup (h.oneShots handle hone)] at hcount
  rw [hdone]
  omega

/-- What a turn of the loop does: it ends where nothing is due, and else calls back the first of the
events that are. -/
theorem Tracks.turn_spec (h : s.Tracks g) (hphase : s.phase = .looking) (hlive : s.TopLive)
    (now : Int) : ((∀ e ∈ s.eventQueue, s.globalTimer < e.time) ∧
        s.perform (.turn now) = some { s with phase := .idle }) ∨
      ∃ evt ∈ s.eventQueue, evt.time ≤ s.globalTimer ∧
        (∀ e ∈ s.eventQueue, e ≠ evt → evt.Lt e) ∧ s.fires = some evt ∧
        s.perform (.turn now) = some { s with
          eventQueue := if evt.rescheduleTime = 0 then s.eventQueue.erase evt else s.eventQueue
          phase := .calling evt (s.sequenceNumber evt.type) } := by
  have hperform : s.perform (.turn now) = some (s.turn now) := if_pos hphase
  cases hqueue : s.eventQueue with
  | nil =>
    refine .inl ⟨by simp, ?_⟩
    rw [hperform, (turn_of_none_due (by simp [hqueue]) now).1, hqueue]
  | cons evt rest =>
    have hfirst : ∀ e ∈ rest, evt.Lt e := by
      have hsorted := h.sorted
      rw [hqueue] at hsorted
      exact (pairwise_cons.mp hsorted).1
    by_cases hdue : evt.time ≤ s.globalTimer
    · have hturn := turn_of_live hqueue hdue (hlive evt (by rw [hqueue]; rfl) hdue) now
      refine .inr ⟨evt, mem_cons_self, hdue, fun e he hne => ?_, hturn.2, ?_⟩
      · exact hfirst e ((mem_cons.mp he).resolve_left hne)
      · rw [hperform, hturn.1, erase_cons_head, hqueue]
    · refine .inl ⟨fun e he => ?_, ?_⟩
      · rcases mem_cons.mp he with rfl | he
        · exact not_le.mp hdue
        · have := hfirst e he
          rw [Event.Lt] at this
          omega
      · have hnone : ∀ e ∈ s.eventQueue.head?, s.globalTimer < e.time := by
          intro e he
          rw [hqueue] at he
          exact Option.some.inj he ▸ not_le.mp hdue
        rw [hperform, (turn_of_none_due hnone now).1, hqueue]

/-- What the return from the callback of a looping event does: the event is due again one period
later, unless its type has been unscheduled meanwhile. -/
theorem Tracks.finishCall_spec (h : s.Tracks g) {sequenceNum : Nat}
    (hphase : s.phase = .calling evt sequenceNum) (hloop : evt.rescheduleTime ≠ 0) (now : Int)
    (newScheduleTime : Option Int) :
    ∃ s', s.perform (.callbackReturns now newScheduleTime) = some s' ∧ s'.phase = .looking ∧
      (evt.handle ∉ g.removed → evt ∈ s.eventQueue ∧
        s'.eventQueue.Perm (⟨s.nextTime evt (newScheduleTime.getD evt.rescheduleTime), s.eventFifoId,
            evt.type, newScheduleTime.getD evt.rescheduleTime, evt.handle⟩ ::
          s.eventQueue.filter fun e => e.handle ≠ evt.handle)) ∧
      (evt.handle ∈ g.removed → s'.eventQueue = s.eventQueue ∧
        ∀ e ∈ s'.eventQueue, e.handle ≠ evt.handle) := by
  obtain ⟨hle, hqueued, hremoved⟩ := h.calling evt sequenceNum hphase hloop
  have hperform : s.perform (.callbackReturns now newScheduleTime) =
      some (s.finishCall now evt sequenceNum newScheduleTime) := by
    rw [CoreTiming.perform, hphase]
  have hdisjoint : ∀ e ∈ s.eventQueue, e.handle ∉ g.removed := fun e he hmem =>
    (nodup_append.mp h.handles_nodup).2.2 e.handle (mem_map_of_mem he) e.handle
      (mem_append_right _ hmem) rfl
  refine ⟨_, hperform, ?_, fun hnot => ?_, fun hmem => ?_⟩
  · rw [CoreTiming.finishCall]
    split_ifs <;> rfl
  · have heq : sequenceNum = s.sequenceNumber evt.type :=
      le_antisymm hle (not_lt.mp fun hlt => hnot (hremoved hlt))
    refine ⟨hqueued heq, ?_⟩
    rw [CoreTiming.finishCall, if_neg hloop, if_neg (not_not.mpr heq)]
    exact push_perm _ _
  · have hne : sequenceNum ≠ s.sequenceNumber evt.type := fun heq =>
      hdisjoint evt (hqueued heq) hmem
    rw [CoreTiming.finishCall, if_neg hloop, if_pos hne]
    exact ⟨rfl, fun e he heq => hdisjoint e he (heq ▸ hmem)⟩

end Invariant

/-- The timing of a machine that has just started. -/
def fresh : CoreTiming := ⟨[], 0, fun _ => 0, fun _ => true, 0, 0, .idle⟩

/-- An event of type 0 at time 5, and one of type 1 at time 6. -/
def twoEvents : CoreTiming := (fresh.scheduleEvent 0 5 0 true).scheduleEvent 0 6 1 true

end CoreTiming

end Sudachi.Core.Timing
