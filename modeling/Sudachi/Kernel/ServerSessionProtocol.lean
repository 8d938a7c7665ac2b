import Mathlib.Data.List.Nodup
import Mathlib.Data.List.Perm.Basic
import Sudachi.Kernel.ServerSession

/-!
# The request protocol of a session

What holds in every state that a session reaches, whatever the order in which its clients send
requests, its server receives and answers them, threads terminate and either end goes away. A request
that the session has accepted waits in the list, is the current one, or is finished; an operation may
also hold one in its hand while it runs. `Sound` says what is true of the requests at every such
moment, and each piece of an operation has one lemma that says how it moves a request.
-/

set_option autoImplicit false

namespace Sudachi.Kernel

open List Option Function
open References (close1 open1)

/-! ## One request -/

/-- The references of a request: `held` of the session, one of a sender still in its call, and
`lent` on the client thread beyond the one of the request itself, which it has as long as it lives. -/
structure RecordSound (q : KSessionRequest) (held lent : Nat) : Prop where
  references : q.references.opened = q.references.closed + held + (if q.inCall then 1 else 0)
  thread : q.threadReferences.opened = q.threadReferences.closed + lent +
    (if q.references.closed < q.references.opened ∧ q.thread.isSome then 1 else 0)
  event : q.eventReferences.opened = q.eventReferences.closed +
    (if q.references.closed < q.references.opened ∧ q.event.isSome then 1 else 0)

/-- Closing a reference changes nothing but counts. -/
theorem KSessionRequest.close_view (q : KSessionRequest) :
    q.close.thread = q.thread ∧ q.close.event = q.event ∧ q.close.sender = q.sender ∧
      q.close.answers = q.answers := by
  unfold KSessionRequest.close
  split <;> exact ⟨rfl, rfl, rfl, rfl⟩

theorem KSessionRequest.openRequest_view (q : KSessionRequest) :
    q.openRequest.thread = q.thread ∧ q.openRequest.event = q.event ∧
      q.openRequest.sender = q.sender ∧ q.openRequest.answers = q.answers := by
  unfold KSessionRequest.openRequest
  split <;> exact ⟨rfl, rfl, rfl, rfl⟩

namespace RecordSound

variable {q : KSessionRequest} {held lent : Nat}

theorem create (sender : Nat) (event : Option Nat) : RecordSound (.create sender event) 0 0 := by
  refine ⟨rfl, rfl, ?_⟩
  cases event <;> rfl

theorem openRequest (h : RecordSound q held lent) (halive : 0 < held ∨ q.inCall = true) :
    RecordSound q.openRequest (held + 1) lent := by
  obtain ⟨hrefs, hthread, hevent⟩ := h
  have hlt : q.references.closed < q.references.opened := by
    rcases halive with hheld | hcall
    · omega
    · rw [if_pos hcall] at hrefs
      omega
  have hlt' : q.references.closed < q.references.opened + 1 := by omega
  unfold KSessionRequest.openRequest
  rw [if_neg (by omega)]
  refine ⟨?_, ?_, ?_⟩
  · show q.references.opened + 1 = q.references.closed + (held + 1) + (if q.inCall then 1 else 0)
    omega
  · simp only [hlt, true_and] at hthread
    simp only [open1, hlt', true_and]
    exact hthread
  · simp only [hlt, true_and] at hevent
    simp only [open1, hlt', true_and]
    exact hevent

theorem close (h : RecordSound q (held + 1) lent) : RecordSound q.close held lent := by
  obtain ⟨hrefs, hthread, hevent⟩ := h
  have hlt : q.references.closed < q.references.opened := by omega
  simp only [hlt, true_and] at hthread hevent
  unfold KSessionRequest.close
  by_cases hlast : q.references.close1.opened = q.references.close1.closed
  · rw [if_pos hlast]
    simp only [close1] at hlast
    refine ⟨?_, ?_, ?_⟩
    · show q.references.opened = q.references.closed + 1 + held + (if q.inCall then 1 else 0)
      omega
    · simp only [KSessionRequest.finalize, close1, hlast, Nat.lt_irrefl, false_and, if_false]
      cases hq : q.thread.isSome <;> simp only [hq, if_true, if_false, Bool.false_eq_true] at * <;>
        omega
    · simp only [KSessionRequest.finalize, close1, hlast, Nat.lt_irrefl, false_and, if_false]
      cases hq : q.event.isSome <;> simp only [hq, if_true, if_false, Bool.false_eq_true] at * <;>
        omega
  · rw [if_neg hlast]
    simp only [close1] at hlast
    have hlt' : q.references.closed + 1 < q.references.opened := by omega
    refine ⟨?_, ?_, ?_⟩
    · show q.references.opened = q.references.closed + 1 + held + (if q.inCall then 1 else 0)
      omega
    · simp only [close1, hlt', true_and]
      exact hthread
    · simp only [close1, hlt', true_and]
      exact hevent

theorem returned (h : RecordSound q held lent) (hcall : q.inCall = true) :
    RecordSound { q with inCall := false }.close held lent := by
  refine close ⟨?_, h.thread, h.event⟩
  have hrefs := h.references
  rw [if_pos hcall] at hrefs
  exact hrefs.trans (by simp only [Bool.false_eq_true, if_false]; omega)

theorem detach (h : RecordSound q (held + 1) lent) (hthread : q.thread.isSome = true) :
    RecordSound q.detach (held + 1) lent := by
  obtain ⟨hrefs, hthreads, hevents⟩ := h
  have hlt : q.references.closed < q.references.opened := by omega
  simp only [hlt, hthread, and_self, if_true] at hthreads
  simp only [hlt, true_and] at hevents
  refine ⟨hrefs, ?_, ?_⟩
  · simp only [KSessionRequest.detach, close1, isSome_none, Bool.false_eq_true, and_false, if_false]
    omega
  · simp only [KSessionRequest.detach, isSome_none, Bool.false_eq_true, and_false, if_false]
    cases hq : q.event.isSome <;>
      simp only [hq, close1, if_true, if_false, Bool.false_eq_true] at * <;> omega

theorem openThread (h : RecordSound q held lent) :
    RecordSound { q with threadReferences := q.threadReferences.open1 } held (lent + 1) := by
  refine ⟨h.references, ?_, h.event⟩
  have hthread := h.thread
  simp only [open1]
  omega

theorem closeThread (h : RecordSound q held (lent + 1)) :
    RecordSound { q with threadReferences := q.threadReferences.close1 } held lent := by
  refine ⟨h.references, ?_, h.event⟩
  have hthread := h.thread
  simp only [close1]
  omega

theorem answer (h : RecordSound q held lent) (answers : List Answer) :
    RecordSound { q with answers := answers } held lent :=
  ⟨h.references, h.thread, h.event⟩

/-- A request with no reference left has closed all that it opened. -/
theorem balanced (h : RecordSound q 0 0) (hcall : q.inCall = false) :
    q.references.opened = q.references.closed ∧
      q.threadReferences.opened = q.threadReferences.closed ∧
      q.eventReferences.opened = q.eventReferences.closed := by
  obtain ⟨hrefs, hthread, hevent⟩ := h
  simp only [hcall, Bool.false_eq_true, if_false, Nat.add_zero] at hrefs
  simp only [hrefs, Nat.lt_irrefl, false_and, if_false, Nat.add_zero] at hthread hevent
  exact ⟨hrefs, hthread, hevent⟩

end RecordSound

/-! ## The requests of a session -/

namespace KServerSession

/-- The requests that are not finished: those in the list, the current one, and the one in the hand
of the operation that runs. -/
def unfinished (s : KServerSession) (hand : Option Nat) : List Nat :=
  s.requestList ++ (s.currentRequest.toList ++ hand.toList)

/-- Whether the thread that sent a request terminates. -/
def senderTerminates (s : KServerSession) (r : Nat) : Bool :=
  (s.threads (s.requests r).sender).terminationRequested

/-- The request still has its thread, or the session let go of it because the thread terminates. -/
def Attached (s : KServerSession) (r : Nat) : Prop :=
  (s.requests r).thread = some (s.requests r).sender ∨
    ((s.requests r).thread = none ∧ (s.requests r).event = none ∧ s.senderTerminates r = true ∧
      r ∉ s.requestList ∧ s.state ≠ .normal)

variable {s : KServerSession}

theorem modifyRequest_self (s : KServerSession) (r : Nat) (f : KSessionRequest → KSessionRequest) :
    (s.modifyRequest r f).requests r = f (s.requests r) :=
  update_self _ _ _

theorem modifyRequest_of_ne {r x : Nat} (hx : x ≠ r) (f : KSessionRequest → KSessionRequest) :
    (s.modifyRequest r f).requests x = s.requests x :=
  update_of_ne hx _ _

theorem state_eq_normal (h : ¬ s.isClosed = true) : s.state = .normal := by
  simpa only [isClosed, decide_not, Bool.not_eq_true', decide_eq_false_iff_not, not_not] using h

/-- What the client of a finished request got: at most one answer, and one if its thread lives. -/
def Settled (s : KServerSession) (r : Nat) : Prop :=
  (s.requests r).answers.length ≤ 1 ∧ (s.senderTerminates r = false → (s.requests r).answers ≠ [])

/-- The requests of a session while an operation has `hand` in its hand and holds a reference to the
thread of `lent`. -/
structure Sound (s : KServerSession) (hand lent : Option Nat) : Prop where
  partition : (s.unfinished hand ++ s.finished).Perm s.accepted
  nodup : s.accepted.Nodup
  bound : ∀ r ∈ s.accepted, r < s.nextRequest
  order : ∃ rest, s.accepted = s.becameCurrent ++ rest ∧ (s.state = .normal → rest = s.requestList)
  records : ∀ r < s.nextRequest, RecordSound (s.requests r) (if r ∈ s.unfinished hand then 1 else 0)
      (if lent = some r then 1 else 0)
  attached : ∀ r < s.nextRequest, s.Attached r
  unanswered : ∀ r ∈ s.unfinished none, (s.requests r).answers = []
  settled : ∀ r ∈ s.finished, s.Settled r
  waits : ∀ r ∈ s.unfinished none, (s.requests r).event = none → s.senderTerminates r = false →
    (s.threads (s.requests r).sender).waiting = true
  single : ∀ r ∈ s.unfinished hand, ∀ r' ∈ s.unfinished hand, (s.requests r).event = none →
    (s.requests r').event = none → (s.requests r).sender = (s.requests r').sender →
    s.senderTerminates r = false → r = r'

namespace Sound

variable {s : KServerSession} {hand lent : Option Nat} {r : Nat}

theorem unfinished_hand : s.unfinished (some r) = s.unfinished none ++ [r] := by
  simp only [unfinished, toList_some, toList_none, append_nil, append_assoc]

theorem nodup_unfinished (h : s.Sound hand lent) : (s.unfinished hand ++ s.finished).Nodup :=
  h.partition.nodup_iff.mpr h.nodup

theorem mem_accepted (h : s.Sound hand lent) (hr : r ∈ s.unfinished hand) : r ∈ s.accepted :=
  h.partition.subset (mem_append_left _ hr)

theorem lt_next (h : s.Sound hand lent) (hr : r ∈ s.unfinished hand) : r < s.nextRequest :=
  h.bound r (h.mem_accepted hr)

theorem notifyAvailable (h : s.Sound hand lent) : s.notifyAvailable.Sound hand lent := by
  unfold KServerSession.notifyAvailable
  split
  · exact ⟨h.partition, h.nodup, h.bound, h.order, h.records, h.attached, h.unanswered, h.settled,
      h.waits, h.single⟩
  · exact h

theorem mem_unfinished_current (hcurrent : s.currentRequest = some r) : r ∈ s.unfinished hand := by
  rw [unfinished, hcurrent]
  exact mem_append_right _ (mem_append_left _ (mem_singleton_self r))

theorem mem_unfinished_front {rest : List Nat} (hlist : s.requestList = r :: rest) :
    r ∈ s.unfinished hand := by
  rw [unfinished, hlist]
  exact mem_append_left _ mem_cons_self

/-- The current request is taken into the hand. -/
theorem takeCurrent (h : s.Sound none lent) (hr : s.currentRequest = some r) :
    Sound { s with currentRequest := none } (some r) lent := by
  have hsame : unfinished { s with currentRequest := none } (some r) = s.unfinished none := by
    simp only [unfinished, hr, toList_some, toList_none, append_nil, nil_append]
  have hsub : ∀ x ∈ unfinished { s with currentRequest := none } none, x ∈ s.unfinished none := by
    intro x hx
    simp only [unfinished, toList_none, append_nil] at hx
    exact mem_append_left _ hx
  refine ⟨?_, h.nodup, h.bound, h.order, ?_, h.attached, ?_, h.settled, ?_, ?_⟩
  · rw [hsame]
    exact h.partition
  · rw [hsame]
    exact h.records
  · exact fun x hx => h.unanswered x (hsub x hx)
  · exact fun x hx => h.waits x (hsub x hx)
  · rw [hsame]
    exact h.single

/-- The front of the list is taken into the hand; the session is closed. -/
theorem takeFront (h : s.Sound none lent) {rest : List Nat} (hlist : s.requestList = r :: rest)
    (hclosed : s.state ≠ .normal) : Sound { s with requestList := rest } (some r) lent := by
  have hperm : (unfinished { s with requestList := rest } (some r)).Perm (s.unfinished none) := by
    simp only [unfinished, hlist, toList_some, toList_none, append_nil]
    rw [← append_assoc, cons_append]
    exact perm_append_singleton r _
  have hsub : ∀ x ∈ unfinished { s with requestList := rest } none, x ∈ s.unfinished none := by
    intro x hx
    simp only [unfinished, hlist, cons_append] at hx ⊢
    exact mem_cons_of_mem r hx
  obtain ⟨later, hlater, -⟩ := h.order
  refine ⟨(hperm.append_right _).trans h.partition, h.nodup, h.bound,
    ⟨later, hlater, fun hnormal => absurd hnormal hclosed⟩, ?_, ?_, ?_, h.settled, ?_, ?_⟩
  · intro x hx
    have hrec := h.records x hx
    simp only [hperm.mem_iff]
    exact hrec
  · intro x hx
    rcases h.attached x hx with hthread | ⟨hthread, hevent, hterm, hnot, hstate⟩
    · exact .inl hthread
    · refine .inr ⟨hthread, hevent, hterm, fun hmem => hnot ?_, hstate⟩
      rw [hlist]
      exact mem_cons_of_mem r hmem
  · exact fun x hx => h.unanswered x (hsub x hx)
  · exact fun x hx => h.waits x (hsub x hx)
  · intro x hx y hy
    exact h.single x (hperm.mem_iff.mp hx) y (hperm.mem_iff.mp hy)

/-- The front of the list of an open session becomes the current request. -/
theorem makeCurrent (h : s.Sound none lent) {rest : List Nat} (hlist : s.requestList = r :: rest)
    (hcurrent : s.currentRequest = none) (hnormal : s.state = .normal) :
    (s.makeCurrent r rest).Sound none lent := by
  have hperm : ((s.makeCurrent r rest).unfinished none).Perm (s.unfinished none) := by
    simp only [unfinished, KServerSession.makeCurrent, hlist, hcurrent, toList_some, toList_none, append_nil]
    exact perm_append_singleton r rest
  obtain ⟨later, hlater, hlist'⟩ := h.order
  refine ⟨(hperm.append_right _).trans h.partition, h.nodup, h.bound, ⟨rest, ?_, fun _ => rfl⟩,
    ?_, ?_, ?_, h.settled, ?_, ?_⟩
  · show s.accepted = s.becameCurrent ++ [r] ++ rest
    rw [hlater, hlist' hnormal, hlist, append_assoc]
    rfl
  · intro x hx
    have hrec := h.records x hx
    simp only [hperm.mem_iff]
    exact hrec
  · intro x hx
    rcases h.attached x hx with hthread | ⟨-, -, -, -, hstate⟩
    · exact .inl hthread
    · exact absurd hnormal hstate
  · exact fun x hx => h.unanswered x (hperm.mem_iff.mp hx)
  · exact fun x hx => h.waits x (hperm.mem_iff.mp hx)
  · intro x hx y hy
    exact h.single x (hperm.mem_iff.mp hx) y (hperm.mem_iff.mp hy)

/-- One record changes, in its references and, if its client cannot have got an answer yet, in its
answers. The request may go from the hand to the finished ones. -/
theorem recount (h : s.Sound hand lent) {f : KSessionRequest → KSessionRequest}
    {finished : List Nat} {hand' lent' : Option Nat}
    (hview : (f (s.requests r)).thread = (s.requests r).thread ∧
      (f (s.requests r)).event = (s.requests r).event ∧
      (f (s.requests r)).sender = (s.requests r).sender)
    (hanswers : (f (s.requests r)).answers = (s.requests r).answers ∨
      r ∉ s.unfinished none ∧ r ∉ finished)
    (hrecord : r < s.nextRequest → RecordSound (f (s.requests r))
      (if r ∈ s.unfinished hand' then 1 else 0) (if lent' = some r then 1 else 0))
    (hpartition : (s.unfinished hand' ++ finished).Perm s.accepted)
    (hsettled : ∀ x ∈ finished, s.Settled x)
    (hsub : ∀ x ∈ s.unfinished hand', x ∈ s.unfinished hand) (hother : ∀ x, x ≠ r →
      (x ∈ s.unfinished hand' ↔ x ∈ s.unfinished hand) ∧ (lent' = some x ↔ lent = some x)) :
    Sound { s.modifyRequest r f with finished := finished } hand' lent' := by
  have hviews : ∀ x, ((s.modifyRequest r f).requests x).thread = (s.requests x).thread ∧
      ((s.modifyRequest r f).requests x).event = (s.requests x).event ∧
      ((s.modifyRequest r f).requests x).sender = (s.requests x).sender := by
    intro x
    by_cases hx : x = r
    · subst hx
      rw [modifyRequest_self]
      exact hview
    · rw [modifyRequest_of_ne hx]
      exact ⟨rfl, rfl, rfl⟩
  have hanswered : ∀ x, x ∈ s.unfinished none ∨ x ∈ finished →
      ((s.modifyRequest r f).requests x).answers = (s.requests x).answers := by
    intro x hmem
    by_cases hx : x = r
    · subst hx
      rw [modifyRequest_self]
      exact hanswers.resolve_right fun hnot => hmem.elim hnot.1 hnot.2
    · rw [modifyRequest_of_ne hx]
  have hterm : ∀ x, senderTerminates { s.modifyRequest r f with finished := finished } x =
      s.senderTerminates x := by
    intro x
    simp only [senderTerminates, (hviews x).2.2]
    rfl
  refine ⟨hpartition, h.nodup, h.bound, h.order, ?_, ?_, ?_, ?_, ?_, ?_⟩
  · intro x hlt
    show RecordSound _ (if x ∈ s.unfinished hand' then 1 else 0) _
    by_cases hx : x = r
    · subst hx
      rw [modifyRequest_self]
      exact hrecord hlt
    · simp only [modifyRequest_of_ne hx, hother x hx]
      exact h.records x hlt
  · intro x hx
    simp only [Attached, hterm, hviews x]
    exact h.attached x hx
  · exact fun x hx => (hanswered x (.inl hx)).trans (h.unanswered x hx)
  · intro x hx
    simp only [Settled, hterm, hanswered x (.inr hx)]
    exact hsettled x hx
  · intro x hx
    simp only [hterm, hviews x]
    exact h.waits x hx
  · intro x hx y hy
    simp only [hterm, hviews x, hviews y]
    exact h.single x (hsub x hx) y (hsub y hy)

/-- One record changes in its references. -/
theorem recountOne (h : s.Sound hand lent) {f : KSessionRequest → KSessionRequest}
    {lent' : Option Nat} (hview : (f (s.requests r)).thread = (s.requests r).thread ∧
      (f (s.requests r)).event = (s.requests r).event ∧
      (f (s.requests r)).sender = (s.requests r).sender ∧
      (f (s.requests r)).answers = (s.requests r).answers)
    (hrecord : r < s.nextRequest → RecordSound (f (s.requests r))
      (if r ∈ s.unfinished hand then 1 else 0) (if lent' = some r then 1 else 0))
    (hother : ∀ x, x ≠ r → (lent' = some x ↔ lent = some x)) :
    (s.modifyRequest r f).Sound hand lent' :=
  h.recount ⟨hview.1, hview.2.1, hview.2.2.1⟩ (.inl hview.2.2.2) hrecord h.partition h.settled
    (fun _ => id) fun x hx => ⟨.rfl, hother x hx⟩

theorem openThread (h : s.Sound hand none) : (s.openThread r).Sound hand (some r) := by
  refine h.recountOne ⟨rfl, rfl, rfl, rfl⟩ ?_ ?_
  · intro hlt
    rw [if_pos rfl]
    exact (h.records r hlt).openThread
  · intro x hx
    constructor
    · intro heq
      exact absurd (some.inj heq).symm hx
    · exact fun heq => nomatch heq

theorem closeThread (h : s.Sound hand (some r)) : (s.closeThread r).Sound hand none := by
  refine h.recountOne ⟨rfl, rfl, rfl, rfl⟩ ?_ ?_
  · intro hlt
    have hrec := h.records r hlt
    rw [if_pos rfl] at hrec
    exact hrec.closeThread
  · intro x hx
    constructor
    · exact fun heq => nomatch heq
    · intro heq
      exact absurd (some.inj heq).symm hx

/-- The client leaves its call. -/
theorem returnFromCall (h : s.Sound none none) (hcall : (s.requests r).inCall = true) :
    (s.returnFromCall r).Sound none none := by
  refine h.recountOne ?_ ?_ fun x _ => .rfl
  · exact KSessionRequest.close_view _
  · intro hlt
    exact (h.records r hlt).returned hcall

theorem hand_not_mem (h : s.Sound (some r) lent) : r ∉ s.unfinished none ∧ r ∉ s.finished := by
  have hnodup := h.nodup_unfinished
  rw [unfinished_hand] at hnodup
  obtain ⟨hleft, -, hright⟩ := nodup_append.mp hnodup
  refine ⟨fun hmem => ?_, fun hmem => ?_⟩
  · exact (nodup_append.mp hleft).2.2 r hmem r (mem_singleton_self r) rfl
  · exact hright r (mem_append_right _ (mem_singleton_self r)) r hmem rfl

theorem mem_unfinished_hand : r ∈ s.unfinished (some r) := by
  rw [unfinished_hand]
  exact mem_append_right _ (mem_singleton_self r)

theorem mem_unfinished_of_none {x : Nat} (hx : x ∈ s.unfinished none) : x ∈ s.unfinished hand := by
  simp only [unfinished, toList_none, append_nil, mem_append] at hx ⊢
  rcases hx with hx | hx
  · exact .inl hx
  · exact .inr (.inl hx)

/-- An answer is recorded for the request in the hand. -/
theorem answer (h : s.Sound (some r) lent) (a : Answer) : (s.answer r a).Sound (some r) lent :=
  h.recount (f := fun q => { q with answers := q.answers ++ [a] }) ⟨rfl, rfl, rfl⟩
    (.inr h.hand_not_mem) (fun hlt => (h.records r hlt).answer _) h.partition h.settled
    (fun _ => id) fun _ _ => ⟨.rfl, .rfl⟩

/-- The wait of the sender of the request in the hand ends: no other request waits for that thread. -/
theorem endWait (h : s.Sound (some r) lent) (hevent : (s.requests r).event = none) :
    (s.endWait (s.requests r).sender).Sound (some r) lent := by
  have hterm : ∀ x, (s.endWait (s.requests r).sender).senderTerminates x =
      s.senderTerminates x := by
    intro x
    by_cases hx : (s.requests x).sender = (s.requests r).sender
    · simp only [senderTerminates, KServerSession.endWait, hx, update_self]
    · simp only [senderTerminates, KServerSession.endWait, update_of_ne hx]
  refine ⟨h.partition, h.nodup, h.bound, h.order, h.records, ?_, h.unanswered, ?_, ?_, ?_⟩
  · intro x hlt
    unfold Attached
    rw [hterm]
    exact h.attached x hlt
  · intro x hx
    unfold Settled
    rw [hterm]
    exact h.settled x hx
  · intro x hx hnone hx'
    rw [hterm] at hx'
    by_cases hsame : (s.requests x).sender = (s.requests r).sender
    · have heq : x = r :=
        h.single x (mem_unfinished_of_none hx) r mem_unfinished_hand hnone hevent hsame hx'
      exact absurd (heq ▸ hx) h.hand_not_mem.1
    · simp only [KServerSession.endWait, update_of_ne hsame]
      exact h.waits x hx hnone hx'
  · intro x hx y hy
    rw [hterm]
    exact h.single x hx y hy

/-- The request in the hand is answered. -/
theorem reply (h : s.Sound (some r) lent) (hunanswered : (s.requests r).answers = [])
    (result : SessionResult) :
    (s.reply r (s.requests r).sender (s.requests r).event result).Sound (some r) lent ∧
      (s.reply r (s.requests r).sender (s.requests r).event result).Settled r := by
  have hone : ∀ a : Answer, ((s.answer r a).requests r).answers = [a] := by
    intro a
    simp only [KServerSession.answer, modifyRequest, update_self, hunanswered, nil_append]
  cases hevent : (s.requests r).event with
  | some e =>
    refine ⟨h.answer (.signal e), ?_⟩
    unfold KServerSession.reply Settled
    rw [hone]
    exact ⟨Nat.le_refl 1, fun _ => cons_ne_nil _ _⟩
  | none =>
    unfold KServerSession.reply
    by_cases hterm : s.senderTerminates r = true
    · simp only [senderTerminates] at hterm
      simp only [hterm, if_true]
      refine ⟨h, ?_, fun hlive => ?_⟩
      · rw [hunanswered]
        exact Nat.zero_le 1
      · rw [senderTerminates, hterm] at hlive
        cases hlive
    · have hlive := Bool.eq_false_iff.mpr hterm
      simp only [senderTerminates] at hlive
      simp only [hlive, Bool.false_eq_true, if_false]
      have hsender : ((s.answer r (.endWait result)).requests r).sender =
          (s.requests r).sender := by
        simp only [KServerSession.answer, modifyRequest, update_self]
      have hend := (h.answer (.endWait result)).endWait
        (by simp only [KServerSession.answer, modifyRequest, update_self, hevent])
      rw [hsender] at hend
      refine ⟨hend, ?_, fun _ hnil => ?_⟩
      · exact Nat.le_of_eq (congrArg length (hone (.endWait result)))
      · exact cons_ne_nil _ _ ((hone (.endWait result)).symm.trans hnil)

/-- The request in the hand is finished. -/
theorem finish (h : s.Sound (some r) lent) (hsettled : s.Settled r) :
    (s.finish r).Sound none lent := by
  obtain ⟨hthread, hevent, hsender, hanswers⟩ := KSessionRequest.close_view (s.requests r)
  refine h.recount ⟨hthread, hevent, hsender⟩ (.inl hanswers) ?_ ?_ ?_
    (fun x => mem_unfinished_of_none) ?_
  · intro hlt
    have hrec := h.records r hlt
    rw [if_pos mem_unfinished_hand] at hrec
    rw [if_neg h.hand_not_mem.1]
    exact hrec.close
  · refine List.Perm.trans ?_ h.partition
    rw [unfinished_hand, append_assoc]
    exact perm_append_comm.append_left _
  · intro x hx
    rcases mem_append.mp hx with hx | hx
    · exact h.settled x hx
    · exact mem_singleton.mp hx ▸ hsettled
  · intro x hx
    rw [unfinished_hand, mem_append, mem_singleton]
    exact ⟨⟨.inl, fun hor => hor.resolve_right hx⟩, .rfl⟩

theorem setWaiters (h : s.Sound hand lent) (waiters : List Nat) :
    Sound { s with waiters := waiters } hand lent :=
  ⟨h.partition, h.nodup, h.bound, h.order, h.records, h.attached, h.unanswered, h.settled, h.waits,
    h.single⟩

/-- The request in the hand is answered, if it still has a thread, and finished. -/
theorem replyAndFinish (h : s.Sound (some r) lent) (hunanswered : (s.requests r).answers = [])
    (result : SessionResult) : ((match (s.requests r).thread with
      | none => s
      | some t => s.reply r t (s.requests r).event result).finish r).Sound none lent := by
  rcases h.attached r (h.lt_next mem_unfinished_hand) with hthread | ⟨hthread, -, hterm, -⟩
  · rw [hthread]
    obtain ⟨hsound, hsettled⟩ := h.reply hunanswered result
    exact hsound.finish hsettled
  · rw [hthread]
    refine h.finish ⟨?_, fun hlive => ?_⟩
    · rw [hunanswered]
      exact Nat.zero_le 1
    · rw [hterm] at hlive
      cases hlive

/-! ## The operations -/

theorem initial (threads : Nat → SessionThread) :
    (KServerSession.initial threads).Sound none none := by
  refine ⟨.nil, .nil, ?_, ⟨[], rfl, fun _ => rfl⟩, ?_, ?_, ?_, ?_, ?_, ?_⟩
  · exact fun r hr => nomatch hr
  · exact fun r hr => absurd hr (Nat.not_lt_zero r)
  · exact fun r hr => absurd hr (Nat.not_lt_zero r)
  · exact fun r hr => nomatch hr
  · exact fun r hr => nomatch hr
  · exact fun r hr => nomatch hr
  · exact fun r hr => nomatch hr

theorem next_not_mem (h : s.Sound hand lent) : s.nextRequest ∉ s.accepted :=
  fun hmem => Nat.lt_irrefl _ (h.bound _ hmem)

/-- A request is created by the thread that will send it. -/
theorem created (h : s.Sound none none) (sender : Nat) (event : Option Nat) :
    (s.createRequest sender event).Sound none none := by
  have hother : ∀ x ∈ s.accepted,
      update s.requests s.nextRequest (.create sender event) x = s.requests x :=
    fun x hx => update_of_ne (fun heq : x = s.nextRequest =>
      h.next_not_mem (heq ▸ hx)) _ _
  have hopen : ∀ x ∈ s.unfinished none,
      update s.requests s.nextRequest (.create sender event) x = s.requests x :=
    fun x hx => hother x (h.mem_accepted hx)
  have hdone : ∀ x ∈ s.finished, x ∈ s.accepted :=
    fun x hx => h.partition.subset (mem_append_right _ hx)
  refine ⟨h.partition, h.nodup, fun x hx => Nat.lt_succ_of_lt (h.bound x hx), h.order, ?_, ?_, ?_,
    ?_, ?_, ?_⟩
  · intro x hlt
    show RecordSound _ (if x ∈ s.unfinished none then 1 else 0) _
    by_cases hx : x = s.nextRequest
    · subst hx
      rw [if_neg fun hmem => h.next_not_mem (h.mem_accepted hmem), if_neg fun heq => nomatch heq]
      simp only [createRequest, update_self]
      exact .create sender event
    · simp only [createRequest, update_of_ne hx]
      exact h.records x (Nat.lt_of_le_of_ne (Nat.lt_succ_iff.mp hlt) hx)
  · intro x hlt
    by_cases hx : x = s.nextRequest
    · subst hx
      refine .inl ?_
      simp only [createRequest, update_self]
      rfl
    · simp only [Attached, senderTerminates, createRequest, update_of_ne hx]
      exact h.attached x (Nat.lt_of_le_of_ne (Nat.lt_succ_iff.mp hlt) hx)
  · intro x hx
    simp only [createRequest, hopen x hx]
    exact h.unanswered x hx
  · intro x hx
    simp only [Settled, senderTerminates, createRequest, hother x (hdone x hx)]
    exact h.settled x hx
  · intro x hx
    simp only [senderTerminates, createRequest, hopen x hx]
    exact h.waits x hx
  · intro x hx y hy
    simp only [senderTerminates, createRequest, hopen x hx, hopen y hy]
    exact h.single x hx y hy

/-- A created request of a living thread is accepted; `threads` are the threads once a synchronous
sender waits. -/
theorem accept (h : s.Sound none none) (hlt : r < s.nextRequest) (hnew : r ∉ s.accepted)
    (hcall : (s.requests r).inCall = true)
    (hthread : (s.requests r).thread = some (s.requests r).sender)
    (hunanswered : (s.requests r).answers = []) (hnormal : s.state = .normal)
    {threads : Nat → SessionThread}
    (hterm : ∀ t, (threads t).terminationRequested = (s.threads t).terminationRequested)
    (hwaiting : ∀ t, (s.threads t).waiting = true → (threads t).waiting = true)
    (hidle : (s.threads (s.requests r).sender).waiting = false)
    (hsync : (s.requests r).event = none → (threads (s.requests r).sender).waiting = true) :
    Sound { s.modifyRequest r KSessionRequest.openRequest with
      requestList := s.requestList ++ [r]
      accepted := s.accepted ++ [r]
      threads := threads } none none := by
  have hview : ∀ x,
      (update s.requests r (s.requests r).openRequest x).thread = (s.requests x).thread ∧
        (update s.requests r (s.requests r).openRequest x).event = (s.requests x).event ∧
        (update s.requests r (s.requests r).openRequest x).sender = (s.requests x).sender ∧
        (update s.requests r (s.requests r).openRequest x).answers =
          (s.requests x).answers := by
    intro x
    by_cases hx : x = r
    · subst hx
      rw [update_self]
      exact KSessionRequest.openRequest_view _
    · rw [update_of_ne hx]
      exact ⟨rfl, rfl, rfl, rfl⟩
  have hperm : (s.requestList ++ [r] ++ (s.currentRequest.toList ++ [])).Perm
      (r :: s.unfinished none) := by
    rw [append_assoc]
    exact perm_middle
  have hmem : ∀ x, x ∈ s.requestList ++ [r] ++ (s.currentRequest.toList ++ []) →
      x = r ∨ x ∈ s.unfinished none :=
    fun x hx => mem_cons.mp (hperm.subset hx)
  have hfresh : r ∉ s.unfinished none := fun hx => hnew (h.mem_accepted hx)
  refine ⟨?_, ?_, ?_, ?_, ?_, ?_, ?_, ?_, ?_, ?_⟩
  · refine ((hperm.append_right s.finished).trans (h.partition.cons r)).trans ?_
    exact (perm_append_singleton r s.accepted).symm
  · exact nodup_append.mpr ⟨h.nodup, nodup_singleton r, fun x hx y hy heq =>
      hnew (mem_singleton.mp hy ▸ heq ▸ hx)⟩
  · intro x hx
    rcases mem_append.mp hx with hx | hx
    · exact h.bound x hx
    · rw [mem_singleton.mp hx]
      exact hlt
  · obtain ⟨rest, hrest, hlist⟩ := h.order
    refine ⟨rest ++ [r], ?_, fun _ => ?_⟩
    · show s.accepted ++ [r] = s.becameCurrent ++ (rest ++ [r])
      rw [hrest, append_assoc]
    · rw [hlist hnormal]
  · intro x hx
    have hrec := h.records x hx
    show RecordSound _
      (if x ∈ s.requestList ++ [r] ++ (s.currentRequest.toList ++ []) then 1 else 0) _
    simp only [hperm.mem_iff, mem_cons, modifyRequest]
    by_cases hxr : x = r
    · subst hxr
      rw [if_neg hfresh] at hrec
      rw [if_pos (.inl rfl), update_self]
      exact hrec.openRequest (.inr hcall)
    · simp only [hxr, false_or, update_of_ne hxr]
      exact hrec
  · intro x hx
    refine .inl ?_
    rcases h.attached x hx with hthread | ⟨-, -, -, -, hstate⟩
    · exact (hview x).1.trans (hthread.trans (congrArg some (hview x).2.2.1.symm))
    · exact absurd hnormal hstate
  · intro x hx
    refine (hview x).2.2.2.trans ?_
    rcases hmem x hx with rfl | hx
    · exact hunanswered
    · exact h.unanswered x hx
  · intro x hx
    simp only [Settled, senderTerminates, modifyRequest, (hview x).2.2.1, (hview x).2.2.2, hterm]
    exact h.settled x hx
  · intro x hx
    simp only [senderTerminates, modifyRequest, (hview x).2.1, (hview x).2.2.1, hterm]
    intro hevent hlive
    rcases hmem x hx with rfl | hx
    · exact hsync hevent
    · exact hwaiting _ (h.waits x hx hevent hlive)
  · intro x hx y hy
    simp only [senderTerminates, modifyRequest, (hview x).2.1, (hview x).2.2.1, (hview y).2.1,
      (hview y).2.2.1, hterm]
    intro hevent hevent' hsender hlive
    -- a thread that already has an unfinished synchronous request waits, and sends no other
    rcases hmem x hx with hxr | hxu
    · rcases hmem y hy with hyr | hyu
      · exact hxr.trans hyr.symm
      · have hwait := h.waits y hyu hevent' (by rw [senderTerminates, ← hsender]; exact hlive)
        rw [← hsender, hxr, hidle] at hwait
        cases hwait
    · rcases hmem y hy with hyr | hyu
      · have hwait := h.waits x hxu hevent hlive
        rw [hsender, hyr, hidle] at hwait
        cases hwait
      · exact h.single x hxu y hyu hevent hevent' hsender hlive

/-- `SendSyncRequest` and `SendAsyncRequest` on a thread that does not wait. -/
theorem sendRequest (h : s.Sound none none) (sender : Nat) (event : Option Nat)
    (hidle : (s.threads sender).waiting = false) :
    (s.sendRequest sender event).2.Sound none none := by
  have hcreated := h.created sender event
  have hrecord : (s.createRequest sender event).requests s.nextRequest = .create sender event :=
    update_self _ _ _
  have hlt : s.nextRequest < (s.createRequest sender event).nextRequest := Nat.lt_succ_self _
  unfold KServerSession.sendRequest KServerSession.onRequest
  split
  · exact hcreated
  · rename_i hopen
    have hnormal : (s.createRequest sender event).state = .normal := state_eq_normal hopen
    split
    · exact hcreated
    · have hsender : ((s.createRequest sender event).requests s.nextRequest).sender = sender := by
        rw [hrecord]
        rfl
      have hevent : ((s.createRequest sender event).requests s.nextRequest).event = event := by
        rw [hrecord]
        rfl
      have haccept := @accept _ s.nextRequest hcreated hlt h.next_not_mem (by rw [hrecord]; rfl)
        (by rw [hrecord]; rfl) (by rw [hrecord]; rfl) hnormal
      simp only [hevent]
      cases event with
      | some e =>
        have hsound := haccept (fun t => rfl) (fun t ht => ht)
          (by rw [hsender]; exact hidle) (fun hnone => by rw [hevent] at hnone; cases hnone)
        simp only [isSome_some, if_true]
        split
        · exact hsound.notifyAvailable
        · exact hsound
      | none =>
        have hsound := @haccept
          (update s.threads sender { s.threads sender with waiting := true })
          (fun t => by
            by_cases ht : t = sender
            · subst ht
              rw [update_self]
              rfl
            · rw [update_of_ne ht]
              rfl)
          (fun t hwait => by
            by_cases ht : t = sender
            · subst ht
              rw [update_self]
            · rw [update_of_ne ht]
              exact hwait)
          (by rw [hsender]; exact hidle)
          (fun _ => by rw [hsender, update_self])
        simp only [isSome_none, Bool.false_eq_true, if_false]
        split
        · unfold KServerSession.notifyAvailable
          split
          · exact hsound.setWaiters []
          · exact hsound
        · exact hsound

theorem clearCurrent (h : s.Sound none lent) (hr : s.currentRequest = some r) :
    s.clearCurrent.Sound (some r) lent := by
  unfold KServerSession.clearCurrent
  split
  · exact h.takeCurrent hr
  · exact (h.takeCurrent hr).notifyAvailable

theorem clearCurrent_requests (s : KServerSession) : s.clearCurrent.requests = s.requests := by
  unfold KServerSession.clearCurrent KServerSession.notifyAvailable
  split
  · rfl
  · split <;> rfl

/-- `ReceiveRequest`. -/
theorem receiveRequest (h : s.Sound none none) (hle : Bool) (result : SessionResult)
    (broken : Bool) : (s.receiveRequest hle result broken).2.Sound none none := by
  unfold KServerSession.receiveRequest
  split
  · exact h
  · rename_i hopen
    have hnormal : s.state = .normal := state_eq_normal hopen
    split
    · exact h
    · rename_i hcurrent
      have hcurrent : s.currentRequest = none := by
        simpa only [Bool.not_eq_true, isSome_eq_false_iff, isNone_iff_eq_none]
          using hcurrent
      split
      · exact h
      · rename_i r rest hlist
        have hmem : r ∈ s.unfinished none := mem_unfinished_front hlist
        have hthread : (s.requests r).thread = some (s.requests r).sender := by
          rcases h.attached r (h.lt_next hmem) with hthread | ⟨-, -, -, -, hstate⟩
          · exact hthread
          · exact absurd hnormal hstate
        have hreceived := (h.makeCurrent hlist hcurrent hnormal).openThread (r := r)
        simp only [hthread]
        split
        · exact hreceived.closeThread
        · split
          · have hhand := hreceived.clearCurrent rfl
            have hrecord : ((s.makeCurrent r rest).openThread r).clearCurrent.requests r =
                { s.requests r with
                  threadReferences := (s.requests r).threadReferences.open1 } := by
              rw [clearCurrent_requests]
              exact update_self _ _ _
            have hreply := hhand.reply (by rw [hrecord]; exact h.unanswered r hmem) result
            rw [show (((s.makeCurrent r rest).openThread r).clearCurrent.requests r).sender =
              (s.requests r).sender by rw [hrecord]] at hreply
            exact (hreply.1.finish hreply.2).closeThread
          · exact hreceived.closeThread

/-- `SendReply`. -/
theorem sendReply (h : s.Sound none none) (hle : Bool) (sendResult cleanupResult : SessionResult) :
    (s.sendReply hle sendResult cleanupResult).2.Sound none none := by
  unfold KServerSession.sendReply
  split
  · exact h
  · rename_i r hcurrent
    refine (h.clearCurrent hcurrent).replyAndFinish ?_ _
    rw [clearCurrent_requests]
    exact h.unanswered r (mem_unfinished_current hcurrent)

/-- A turn of `CleanupRequests`. -/
theorem cleanupRequest (h : s.Sound (some r) lent) (hunanswered : (s.requests r).answers = []) :
    (s.cleanupRequest r).Sound none lent :=
  h.replyAndFinish hunanswered .sessionClosed

end Sound

/-- What an operation leaves alone when it only works on the request in its hand. -/
structure SameQueue (s s' : KServerSession) : Prop where
  state : s'.state = s.state
  requestList : s'.requestList = s.requestList
  currentRequest : s'.currentRequest = s.currentRequest
  waiters : s'.waiters = s.waiters

theorem sameQueue_reply (s : KServerSession) (r t : Nat) (event : Option Nat)
    (result : SessionResult) : SameQueue s (s.reply r t event result) := by
  unfold reply
  cases event with
  | some e => exact ⟨rfl, rfl, rfl, rfl⟩
  | none =>
    simp only
    split <;> exact ⟨rfl, rfl, rfl, rfl⟩

theorem sameQueue_cleanupRequest (s : KServerSession) (r : Nat) :
    SameQueue s (s.cleanupRequest r) := by
  unfold cleanupRequest
  cases (s.requests r).thread with
  | none => exact ⟨rfl, rfl, rfl, rfl⟩
  | some t =>
    have h := sameQueue_reply s r t (s.requests r).event .sessionClosed
    exact ⟨h.state, h.requestList, h.currentRequest, h.waiters⟩

namespace Sound

variable {s : KServerSession} {hand lent : Option Nat} {r : Nat}

/-- The loop of `CleanupRequests` finishes every request. -/
theorem cleanupLoop (fuel : Nat) (h : s.Sound none none) (hclosed : s.state ≠ .normal)
    (hfuel : s.requestList.length + s.currentRequest.toList.length < fuel) :
    (KServerSession.cleanupLoop fuel s).Sound none none ∧
      (KServerSession.cleanupLoop fuel s).state = s.state ∧
      (KServerSession.cleanupLoop fuel s).waiters = s.waiters ∧
      (KServerSession.cleanupLoop fuel s).requestList = [] ∧
      (KServerSession.cleanupLoop fuel s).currentRequest = none := by
  induction fuel generalizing s with
  | zero => exact absurd hfuel (Nat.not_lt_zero _)
  | succ fuel ih =>
    cases hcurrent : s.currentRequest with
    | some r =>
      have hstep : KServerSession.cleanupLoop (fuel + 1) s = KServerSession.cleanupLoop fuel
          (KServerSession.cleanupRequest { s with currentRequest := none } r) := by
        simp only [KServerSession.cleanupLoop, hcurrent]
      have hsame := sameQueue_cleanupRequest { s with currentRequest := none } r
      have hsound := (h.takeCurrent hcurrent).cleanupRequest
        (h.unanswered r (mem_unfinished_current hcurrent))
      obtain ⟨hs, hstate, hwaiters, hempty⟩ := ih hsound
        (fun hn => hclosed (hsame.state.symm.trans hn))
        (by
          rw [hsame.requestList, hsame.currentRequest]
          simp only [hcurrent, toList_some, toList_none, length_singleton, length_nil] at hfuel ⊢
          omega)
      rw [hstep]
      exact ⟨hs, hstate.trans hsame.state, hwaiters.trans hsame.waiters, hempty⟩
    | none =>
      cases hlist : s.requestList with
      | nil =>
        have hstop : KServerSession.cleanupLoop (fuel + 1) s = s := by
          simp only [KServerSession.cleanupLoop, hcurrent, hlist]
        rw [hstop]
        exact ⟨h, rfl, rfl, hlist, hcurrent⟩
      | cons r rest =>
        have hstep : KServerSession.cleanupLoop (fuel + 1) s = KServerSession.cleanupLoop fuel
            (KServerSession.cleanupRequest { s with requestList := rest } r) := by
          simp only [KServerSession.cleanupLoop, hcurrent, hlist]
        have hsame := sameQueue_cleanupRequest { s with requestList := rest } r
        have hsound := (h.takeFront hlist hclosed).cleanupRequest
          (h.unanswered r (mem_unfinished_front hlist))
        obtain ⟨hs, hstate, hwaiters, hempty⟩ := ih hsound
          (fun hn => hclosed (hsame.state.symm.trans hn))
          (by
            rw [hsame.requestList, hsame.currentRequest]
            simp only [hlist, hcurrent, toList_none, length_cons, length_nil] at hfuel ⊢
            omega)
        rw [hstep]
        exact ⟨hs, hstate.trans hsame.state, hwaiters.trans hsame.waiters, hempty⟩

theorem length_toList_le (o : Option Nat) : o.toList.length ≤ 1 := by
  cases o with
  | none => exact Nat.zero_le 1
  | some r => exact Nat.le_refl 1

/-- The state of the session may only move away from `normal`. -/
theorem setState (h : s.Sound hand lent) {state : SessionState} (hstate : state ≠ .normal) :
    Sound { s with state := state } hand lent := by
  obtain ⟨rest, hrest, -⟩ := h.order
  refine ⟨h.partition, h.nodup, h.bound, ⟨rest, hrest, fun hn => absurd hn hstate⟩, h.records, ?_,
    h.unanswered, h.settled, h.waits, h.single⟩
  intro x hx
  rcases h.attached x hx with hthread | ⟨hthread, hevent, hterm, hnot, -⟩
  · exact .inl hthread
  · exact .inr ⟨hthread, hevent, hterm, hnot, hstate⟩

/-- `Destroy` leaves no request behind. -/
theorem destroy (h : s.Sound none none) : s.destroy.Sound none none ∧
      s.destroy.state = (if s.state = .normal then .serverClosed else s.state) ∧
      s.destroy.waiters = s.waiters ∧ s.destroy.requestList = [] ∧
      s.destroy.currentRequest = none := by
  have hle := length_toList_le s.currentRequest
  unfold KServerSession.destroy KServerSession.onServerClosed KServerSession.cleanupRequests
  split
  · have hstate : SessionState.serverClosed ≠ .normal := by decide
    exact (h.setState hstate).cleanupLoop (s.requestList.length + 2) hstate
      (by show s.requestList.length + s.currentRequest.toList.length < _; omega)
  · rename_i hclosed
    exact h.cleanupLoop (s.requestList.length + 2) hclosed (by omega)

theorem current_not_mem (h : s.Sound hand lent) (hcurrent : s.currentRequest = some r) :
    r ∉ s.requestList := by
  intro hmem
  have hnodup := (nodup_append.mp h.nodup_unfinished).1
  rw [unfinished, hcurrent] at hnodup
  exact (nodup_append.mp hnodup).2.2 r hmem r (mem_append_left _ (mem_singleton_self r)) rfl

/-- The current request lets go of its thread, which terminates. -/
theorem detached (h : s.Sound none none) (hcurrent : s.currentRequest = some r)
    (hclosed : s.state ≠ .normal) (hterm : s.senderTerminates r = true)
    {f : KSessionRequest → KSessionRequest}
    (hview : (f (s.requests r)).thread = none ∧ (f (s.requests r)).event = none ∧
      (f (s.requests r)).sender = (s.requests r).sender ∧
      (f (s.requests r)).answers = (s.requests r).answers)
    (hrecord : RecordSound (s.requests r) 1 0 → RecordSound (f (s.requests r)) 1 0) :
    (s.modifyRequest r f).Sound none none := by
  have hself := s.modifyRequest_self r f
  have hother : ∀ x, x ≠ r → (s.modifyRequest r f).requests x = s.requests x :=
    fun x hx => modifyRequest_of_ne hx f
  have hsender : ∀ x, ((s.modifyRequest r f).requests x).sender = (s.requests x).sender ∧
      ((s.modifyRequest r f).requests x).answers = (s.requests x).answers := by
    intro x
    by_cases hx : x = r
    · subst hx
      rw [hself]
      exact hview.2.2
    · rw [hother x hx]
      exact ⟨rfl, rfl⟩
  have hterms : ∀ x, (s.modifyRequest r f).senderTerminates x = s.senderTerminates x := by
    intro x
    unfold senderTerminates
    rw [(hsender x).1]
    rfl
  refine ⟨h.partition, h.nodup, h.bound, h.order, ?_, ?_, ?_, ?_, ?_, ?_⟩
  · intro x hlt
    have hrec := h.records x hlt
    by_cases hx : x = r
    · subst hx
      rw [if_pos (mem_unfinished_current hcurrent), if_neg fun heq => nomatch heq] at hrec
      show RecordSound _ (if x ∈ s.unfinished none then 1 else 0) _
      rw [hself, if_pos (mem_unfinished_current hcurrent), if_neg fun heq => nomatch heq]
      exact hrecord hrec
    · rw [hother x hx]
      exact hrec
  · intro x hlt
    by_cases hx : x = r
    · subst hx
      refine .inr ⟨?_, ?_, (hterms x).trans hterm, h.current_not_mem hcurrent, hclosed⟩
      · rw [hself]
        exact hview.1
      · rw [hself]
        exact hview.2.1
    · unfold Attached
      rw [hterms, hother x hx]
      exact h.attached x hlt
  · intro x hx
    exact (hsender x).2.trans (h.unanswered x hx)
  · intro x hx
    unfold Settled
    rw [hterms, (hsender x).2]
    exact h.settled x hx
  · intro x hx hevent hlive
    rw [hterms] at hlive
    have hxr : x ≠ r := by
      rintro rfl
      rw [hterm] at hlive
      cases hlive
    rw [hother x hxr] at hevent ⊢
    exact h.waits x hx hevent hlive
  · intro x hx y hy hevent hevent' heq hlive
    rw [hterms] at hlive
    rw [(hsender x).1, (hsender y).1] at heq
    have hxr : x ≠ r := by
      rintro rfl
      rw [hterm] at hlive
      cases hlive
    have hyr : y ≠ r := by
      rintro rfl
      rw [senderTerminates, heq, ← senderTerminates, hterm] at hlive
      cases hlive
    rw [hother x hxr] at hevent
    rw [hother y hyr] at hevent'
    exact h.single x hx y hy hevent hevent' heq hlive

theorem modifyRequest_comp (s : KServerSession) (r : Nat) (f g : KSessionRequest → KSessionRequest) :
    (s.modifyRequest r f).modifyRequest r g = s.modifyRequest r fun q => g (f q) := by
  simp only [modifyRequest, update_self, update_idem]

/-- The turn of `OnClientClosed` on the current request. -/
theorem closeCurrent (h : s.Sound none none) (hcurrent : s.currentRequest = some r)
    (hclosed : s.state ≠ .normal) (hthread : (s.requests r).thread = some (s.requests r).sender) :
    ∃ f, s.closeCurrent r = some (s.modifyRequest r f) ∧ (s.modifyRequest r f).Sound none none := by
  have hopened : ((s.modifyRequest r KSessionRequest.openRequest).requests r).thread =
      some (s.requests r).sender := by
    rw [modifyRequest]
    simp only [update_self, (KSessionRequest.openRequest_view _).1, hthread]
  unfold KServerSession.closeCurrent
  simp only [hopened]
  by_cases hterm : (s.threads (s.requests r).sender).terminationRequested = true
  · refine ⟨_, by
      rw [if_pos (show ((s.modifyRequest r KSessionRequest.openRequest).threads
        (s.requests r).sender).terminationRequested = true from hterm), modifyRequest_comp,
        modifyRequest_comp], ?_⟩
    refine h.detached hcurrent hclosed hterm ?_ ?_
    · obtain ⟨hthread', hevent', hsender', hanswers'⟩ :=
        KSessionRequest.close_view (s.requests r).openRequest.detach
      exact ⟨hthread', hevent', hsender'.trans (KSessionRequest.openRequest_view _).2.2.1,
        hanswers'.trans (KSessionRequest.openRequest_view _).2.2.2⟩
    · intro hrec
      have hopen := hrec.openRequest (.inl Nat.one_pos)
      exact (hopen.detach (by rw [(KSessionRequest.openRequest_view _).1, hthread]; rfl)).close
  · refine ⟨_, by
      rw [if_neg (show ¬ ((s.modifyRequest r KSessionRequest.openRequest).threads
        (s.requests r).sender).terminationRequested = true from hterm), modifyRequest_comp], ?_⟩
    refine h.recountOne ?_ ?_ fun x _ => .rfl
    · obtain ⟨hthread', hevent', hsender', hanswers'⟩ :=
        KSessionRequest.close_view (s.requests r).openRequest
      obtain ⟨hthread'', hevent'', hsender'', hanswers''⟩ := KSessionRequest.openRequest_view (s.requests r)
      exact ⟨hthread'.trans hthread'', hevent'.trans hevent'', hsender'.trans hsender'',
        hanswers'.trans hanswers''⟩
    · intro hlt
      have hrec := h.records r hlt
      rw [if_pos (mem_unfinished_current hcurrent)] at hrec ⊢
      exact (hrec.openRequest (.inl Nat.one_pos)).close

/-- The turn of `OnClientClosed` on a request from the list: it is answered if it is asynchronous, and
nobody waits for it if it is not. -/
theorem closePending (h : s.Sound (some r) none) (hunanswered : (s.requests r).answers = [])
    (hthread : (s.requests r).thread = some (s.requests r).sender)
    (hsync : (s.requests r).event = none → s.senderTerminates r = true) :
    ∃ s', s.closePending r = some s' ∧ s'.Sound none none ∧ SameQueue s s' ∧
      s'.threads = s.threads ∧ ∀ x, x ≠ r → s'.requests x = s.requests x := by
  unfold KServerSession.closePending
  simp only [hthread]
  cases hevent : (s.requests r).event with
  | some e =>
    have hreply := h.reply hunanswered .sessionClosed
    rw [hevent] at hreply
    refine ⟨_, rfl, hreply.1.finish hreply.2, ⟨rfl, rfl, rfl, rfl⟩, rfl, ?_⟩
    intro x hx
    simp only [KServerSession.finish, KServerSession.reply, KServerSession.answer, modifyRequest,
      update_of_ne hx]
  | none =>
    refine ⟨_, rfl, h.finish ⟨?_, fun hlive => ?_⟩, ⟨rfl, rfl, rfl, rfl⟩, rfl, ?_⟩
    · rw [hunanswered]
      exact Nat.zero_le 1
    · rw [hsync hevent] at hlive
      cases hlive
    · intro x hx
      simp only [KServerSession.finish, modifyRequest, update_of_ne hx]

/-- The loop of `OnClientClosed` finishes every pending request. `prev` is the current request once
it has had its turn. -/
theorem closeLoop (fuel : Nat) {prev : Option Nat} (h : s.Sound none none)
    (hclosed : s.state ≠ .normal)
    (hsync : ∀ x ∈ s.requestList, (s.requests x).event = none → s.senderTerminates x = true)
    (hturn : s.currentRequest = prev ∨ ∀ r, s.currentRequest = some r →
      (s.requests r).thread = some (s.requests r).sender)
    (hfuel : s.requestList.length + (if s.currentRequest = prev then 0 else 1) < fuel) :
    ∃ s', KServerSession.closeLoop fuel prev s = some s' ∧ s'.Sound none none ∧
      s'.state = s.state ∧ s'.requestList = [] := by
  induction fuel generalizing s prev with
  | zero => exact absurd hfuel (Nat.not_lt_zero _)
  | succ fuel ih =>
    unfold KServerSession.closeLoop
    by_cases hcur : s.currentRequest.isSome ∧ s.currentRequest ≠ prev
    · rw [if_pos hcur]
      obtain ⟨r, hcurrent⟩ := isSome_iff_exists.mp hcur.1
      obtain ⟨f, hclose, hsound⟩ := h.closeCurrent hcurrent hclosed
        (hturn.resolve_left hcur.2 r hcurrent)
      have hother : ∀ x ∈ s.requestList, (s.modifyRequest r f).requests x = s.requests x := by
        intro x hx
        refine update_of_ne ?_ _ _
        rintro rfl
        exact h.current_not_mem hcurrent hx
      rw [if_neg hcur.2] at hfuel
      obtain ⟨s', hloop, hs', hstate, hempty⟩ := @ih (s.modifyRequest r f) (some r) hsound hclosed
        (fun x hx => by
          rw [senderTerminates, hother x hx]
          exact hsync x hx)
        (.inl hcurrent)
        (by
          show s.requestList.length + (if s.currentRequest = some r then 0 else 1) < fuel
          rw [if_pos hcurrent]
          omega)
      refine ⟨s', ?_, hs', hstate, hempty⟩
      simp only [hcurrent, hclose, bind_some]
      exact hloop
    · rw [if_neg hcur]
      cases hlist : s.requestList with
      | nil => exact ⟨s, rfl, h, rfl, hlist⟩
      | cons r rest =>
        have hmem : r ∈ s.unfinished none := mem_unfinished_front hlist
        have hfront : r ∈ s.requestList := by
          rw [hlist]
          exact mem_cons_self
        have hthread : (s.requests r).thread = some (s.requests r).sender := by
          rcases h.attached r (h.lt_next hmem) with hthread | ⟨-, -, -, hnot, -⟩
          · exact hthread
          · exact absurd hfront hnot
        have hnodup : (r :: rest).Nodup := by
          rw [← hlist]
          exact (nodup_append.mp (nodup_append.mp h.nodup_unfinished).1).1
        obtain ⟨s₁, hclose, hsound, hsame, hthreads, hother⟩ :=
          (h.takeFront hlist hclosed).closePending (h.unanswered r hmem) hthread
            (hsync r hfront)
        have hother' : ∀ x ∈ rest, s₁.requests x = s.requests x := by
          intro x hx
          refine hother x ?_
          rintro rfl
          exact (nodup_cons.mp hnodup).1 hx
        have hlist' : s₁.requestList = rest := hsame.requestList
        have hcurrent' : s₁.currentRequest = s.currentRequest := hsame.currentRequest
        obtain ⟨s', hloop, hs', hstate, hempty⟩ := @ih s₁ prev hsound
          (fun hn => hclosed (hsame.state.symm.trans hn))
          (fun x hx => by
            rw [hlist'] at hx
            rw [senderTerminates, hother' x hx, hthreads]
            exact hsync x (hlist ▸ mem_cons_of_mem r hx))
          (by
            rw [hcurrent']
            by_cases hprev : s.currentRequest = prev
            · exact .inl hprev
            · refine .inr fun y hy => absurd ⟨?_, hprev⟩ hcur
              rw [hy]
              rfl)
          (by
            rw [hlist', hcurrent']
            rw [hlist, length_cons] at hfuel
            omega)
        refine ⟨s', ?_, hs', hstate.trans hsame.state, hempty⟩
        simp only [hclose, bind_some]
        exact hloop

/-- `OnClientClosed`: it never meets a request without a thread, and finishes every pending one. -/
theorem onClientClosed (h : s.Sound none none)
    (hwaiting : ∀ r ∈ s.unfinished none, (s.requests r).event = none →
      s.senderTerminates r = true ∨ (s.threads (s.requests r).sender).waiting = false) :
    ∃ s', s.onClientClosed = some s' ∧ s'.Sound none none ∧
      (s' = s ∨ (s'.state = .clientClosed ∧ s'.requestList = [] ∧ s'.waiters = [])) := by
  unfold KServerSession.onClientClosed
  by_cases hnormal : s.state = .normal
  · rw [if_pos hnormal]
    have hstate : SessionState.clientClosed ≠ .normal := by decide
    have hsync : ∀ x ∈ s.requestList, (s.requests x).event = none →
        s.senderTerminates x = true := by
      intro x hx hevent
      have hmem : x ∈ s.unfinished none := mem_append_left _ hx
      by_contra hlive
      have hwait := h.waits x hmem hevent (Bool.eq_false_iff.mpr hlive)
      rcases hwaiting x hmem hevent with hterm | hidle
      · exact hlive hterm
      · rw [hidle] at hwait
        cases hwait
    have hattached : ∀ r, s.currentRequest = some r →
        (s.requests r).thread = some (s.requests r).sender := by
      intro r hcurrent
      rcases h.attached r (h.lt_next (mem_unfinished_current hcurrent)) with
        hthread | ⟨-, -, -, -, hclosed⟩
      · exact hthread
      · exact absurd hnormal hclosed
    obtain ⟨s₁, hloop, hs₁, hstate₁, hempty⟩ := closeLoop (s.requestList.length + 2)
      (h.setState hstate) hstate hsync (.inr hattached) (by
        show s.requestList.length + (if s.currentRequest = none then 0 else 1) < _
        split <;> omega)
    have hsignaled : s₁.isSignaled = true := by
      rw [isSignaled, isClosed, hstate₁]
      rfl
    refine ⟨s₁.notifyAvailable, ?_, hs₁.notifyAvailable, .inr ?_⟩
    · rw [serverOnClientClosed, hloop]
      rfl
    · rw [KServerSession.notifyAvailable, if_pos hsignaled]
      exact ⟨hstate₁, hempty, rfl⟩
  · rw [if_neg hnormal]
    exact ⟨s, rfl, h, .inl rfl⟩

/-- A thread terminates. -/
theorem terminateThread (h : s.Sound none none) (t : Nat) :
    (s.terminateThread t).Sound none none := by
  have hother : ∀ x, (s.terminateThread t).senderTerminates x = false →
      s.senderTerminates x = false ∧
        (s.terminateThread t).threads (s.requests x).sender = s.threads (s.requests x).sender := by
    intro x hlive
    by_cases hx : (s.requests x).sender = t
    · rw [senderTerminates] at hlive
      simp only [KServerSession.terminateThread, hx, update_self] at hlive
      cases hlive
    · have hsame : (s.terminateThread t).threads (s.requests x).sender =
          s.threads (s.requests x).sender := update_of_ne hx _ _
      refine ⟨?_, hsame⟩
      rw [senderTerminates, ← hsame]
      exact hlive
  refine ⟨h.partition, h.nodup, h.bound, h.order, h.records, ?_, h.unanswered, ?_, ?_, ?_⟩
  · intro x hx
    rcases h.attached x hx with hthread | ⟨hthread, hevent, hterm, hnot, hstate⟩
    · exact .inl hthread
    · refine .inr ⟨hthread, hevent, ?_, hnot, hstate⟩
      by_contra hlive
      have hlive' := (hother x (Bool.eq_false_iff.mpr hlive)).1
      rw [hterm] at hlive'
      cases hlive'
  · intro x hx
    exact ⟨(h.settled x hx).1, fun hlive => (h.settled x hx).2 (hother x hlive).1⟩
  · intro x hx hevent hlive
    have hsame := (hother x hlive).2
    show ((s.terminateThread t).threads (s.requests x).sender).waiting = true
    rw [hsame]
    exact h.waits x hx hevent (hother x hlive).1
  · intro x hx y hy hevent hevent' hsender hlive
    exact h.single x hx y hy hevent hevent' hsender (hother x hlive).1

end Sound

/-! ## The threads that wait for the session -/

/-- No thread sleeps on a signaled session, as long as the server end exists; after that there is
nothing to wait for. -/
def Woken (s : KServerSession) : Prop :=
  (s.state = .serverClosed → s.requestList = []) ∧
    (s.state ≠ .serverClosed → s.isSignaled = true → s.waiters = [])

namespace Woken

variable {s s' : KServerSession}

theorem of_sameQueue (h : s.Woken) (hsame : SameQueue s s') : s'.Woken := by
  have hsignaled : s'.isSignaled = s.isSignaled := by
    simp only [isSignaled, isClosed, hsame.state, hsame.requestList, hsame.currentRequest]
  unfold Woken
  rw [hsame.state, hsame.requestList, hsame.waiters, hsignaled]
  exact h

theorem notifyAvailable (hlist : s.state = .serverClosed → s.requestList = []) :
    s.notifyAvailable.Woken := by
  unfold KServerSession.notifyAvailable
  split
  · exact ⟨hlist, fun _ _ => rfl⟩
  · rename_i hquiet
    exact ⟨hlist, fun _ hsignaled => absurd hsignaled hquiet⟩

theorem waiters_of_isClosed (h : s.Woken) (hopen : s.state ≠ .serverClosed)
    (hclosed : s.isClosed = true) : s.waiters = [] := by
  refine h.2 hopen ?_
  rw [isSignaled, hclosed, Bool.true_or]

theorem clearCurrent (h : s.Woken) : s.clearCurrent.Woken := by
  unfold KServerSession.clearCurrent
  split
  · rename_i hempty
    refine ⟨h.1, fun hopen hsignaled => h.waiters_of_isClosed hopen ?_⟩
    simp only [isSignaled, hempty, Bool.not_true, Bool.false_and, Bool.or_false] at hsignaled
    exact hsignaled
  · exact notifyAvailable h.1

theorem sendRequest (h : s.Woken) (sender : Nat) (event : Option Nat) :
    (s.sendRequest sender event).2.Woken := by
  have hcreated : (s.createRequest sender event).Woken := h.of_sameQueue ⟨rfl, rfl, rfl, rfl⟩
  unfold KServerSession.sendRequest KServerSession.onRequest
  split
  · exact hcreated
  · rename_i hopen
    have hnormal : s.state = .normal := state_eq_normal hopen
    have hserver : s.state ≠ .serverClosed := by
      rw [hnormal]
      decide
    split
    · exact hcreated
    · simp only
      -- a list that was not empty has already woken everyone, or a request is current
      have hwoken : Woken (if (s.createRequest sender event).requestList.isEmpty = true then
          KServerSession.notifyAvailable
            { (s.createRequest sender event).modifyRequest s.nextRequest
                KSessionRequest.openRequest with
              requestList := s.requestList ++ [s.nextRequest]
              accepted := s.accepted ++ [s.nextRequest] }
          else
            { (s.createRequest sender event).modifyRequest s.nextRequest
                KSessionRequest.openRequest with
              requestList := s.requestList ++ [s.nextRequest]
              accepted := s.accepted ++ [s.nextRequest] }) := by
        split
        · exact notifyAvailable fun hstate => absurd hstate hserver
        · rename_i hlist
          refine ⟨fun hstate => absurd hstate hserver, fun _ hsignaled => h.2 hserver ?_⟩
          cases hfront : s.requestList with
          | nil => exact absurd (congrArg isEmpty hfront) hlist
          | cons r rest =>
            change (s.isClosed || (!(s.requestList ++ [s.nextRequest]).isEmpty &&
              s.currentRequest.isNone)) = true at hsignaled
            rw [hfront] at hsignaled
            rw [isSignaled, hfront]
            exact hsignaled
      split
      · exact hwoken
      · exact hwoken.of_sameQueue ⟨rfl, rfl, rfl, rfl⟩

theorem receiveRequest (h : s.Woken) (hle : Bool) (result : SessionResult) (broken : Bool)
    (hsound : s.Sound none none) : (s.receiveRequest hle result broken).2.Woken := by
  unfold KServerSession.receiveRequest
  split
  · exact h
  · rename_i hopen
    have hnormal : s.state = .normal := state_eq_normal hopen
    split
    · exact h
    · split
      · exact h
      · rename_i r rest hlist
        have hthread : (s.requests r).thread = some (s.requests r).sender := by
          rcases hsound.attached r (hsound.lt_next (Sound.mem_unfinished_front hlist)) with
            hthread | ⟨-, -, -, -, hstate⟩
          · exact hthread
          · exact absurd hnormal hstate
        have hreceived : ((s.makeCurrent r rest).openThread r).Woken := by
          refine ⟨fun hstate => ?_, fun _ hsignaled => ?_⟩
          · exact absurd (hnormal.symm.trans hstate) (by decide)
          · have hquiet : ((s.makeCurrent r rest).openThread r).isSignaled = false := by
              show (s.isClosed || (!rest.isEmpty && false)) = false
              rw [isClosed, hnormal, Bool.and_false]
              rfl
            rw [hquiet] at hsignaled
            cases hsignaled
        simp only [hthread]
        split
        · exact hreceived.of_sameQueue ⟨rfl, rfl, rfl, rfl⟩
        · split
          · refine hreceived.clearCurrent.of_sameQueue ?_
            have hsame := sameQueue_reply ((s.makeCurrent r rest).openThread r).clearCurrent r
              (s.requests r).sender
              (((s.makeCurrent r rest).openThread r).clearCurrent.requests r).event result
            exact ⟨hsame.state, hsame.requestList, hsame.currentRequest, hsame.waiters⟩
          · exact hreceived.of_sameQueue ⟨rfl, rfl, rfl, rfl⟩

theorem sendReply (h : s.Woken) (hle : Bool) (sendResult cleanupResult : SessionResult) :
    (s.sendReply hle sendResult cleanupResult).2.Woken := by
  unfold KServerSession.sendReply
  split
  · exact h
  · rename_i r _
    refine h.clearCurrent.of_sameQueue ?_
    simp only
    cases (s.clearCurrent.requests r).thread with
    | none => exact ⟨rfl, rfl, rfl, rfl⟩
    | some t =>
      have hsame := fun result =>
        sameQueue_reply s.clearCurrent r t (s.clearCurrent.requests r).event result
      exact ⟨(hsame _).state, (hsame _).requestList, (hsame _).currentRequest, (hsame _).waiters⟩

theorem waitFor (h : s.Woken) (t : Nat) : (s.waitFor t).Woken := by
  unfold KServerSession.waitFor
  split
  · exact h
  · rename_i hquiet
    exact ⟨h.1, fun _ hsignaled => absurd hsignaled hquiet⟩

end Woken

/-! ## Runs -/

/-- The client end may close: no synchronous request that is not finished has a living thread that
waits. -/
def ClientMayClose (s : KServerSession) : Prop :=
  ∀ r ∈ s.unfinished none, (s.requests r).event = none →
    s.senderTerminates r = true ∨ (s.threads (s.requests r).sender).waiting = false

/-- One step of a session, in whatever order its users take them. -/
inductive Step : KServerSession → KServerSession → Prop
  | sendRequest (s : KServerSession) (sender : Nat) (event : Option Nat)
      (hidle : (s.threads sender).waiting = false) : Step s (s.sendRequest sender event).2
  | returnFromCall (s : KServerSession) (r : Nat) (hcall : (s.requests r).inCall = true)
      (hidle : (s.threads (s.requests r).sender).waiting = false) : Step s (s.returnFromCall r)
  | receiveRequest (s : KServerSession) (hle : Bool) (result : SessionResult) (broken : Bool) :
      Step s (s.receiveRequest hle result broken).2
  | sendReply (s : KServerSession) (hle : Bool) (sendResult cleanupResult : SessionResult) :
      Step s (s.sendReply hle sendResult cleanupResult).2
  | onClientClosed (s s' : KServerSession) (hmay : s.ClientMayClose)
      (hclose : s.onClientClosed = some s') : Step s s'
  | destroy (s : KServerSession) : Step s s.destroy
  | terminateThread (s : KServerSession) (t : Nat) : Step s (s.terminateThread t)
  | waitFor (s : KServerSession) (t : Nat) : Step s (s.waitFor t)

/-- The states that a session reaches from its creation. -/
inductive Run (threads : Nat → SessionThread) : KServerSession → Prop
  | start : Run threads (initial threads)
  | step {s s' : KServerSession} (hrun : Run threads s) (hstep : Step s s') : Run threads s'

theorem Step.keeps {s' : KServerSession} (hstep : Step s s') (hsound : s.Sound none none)
    (hwoken : s.Woken) : s'.Sound none none ∧ s'.Woken := by
  cases hstep with
  | sendRequest sender event hidle =>
    exact ⟨hsound.sendRequest sender event hidle, hwoken.sendRequest sender event⟩
  | returnFromCall r hcall hidle =>
    exact ⟨hsound.returnFromCall hcall, hwoken.of_sameQueue ⟨rfl, rfl, rfl, rfl⟩⟩
  | receiveRequest hle result broken =>
    exact ⟨hsound.receiveRequest hle result broken, hwoken.receiveRequest hle result broken hsound⟩
  | sendReply hle sendResult cleanupResult =>
    exact ⟨hsound.sendReply hle sendResult cleanupResult,
      hwoken.sendReply hle sendResult cleanupResult⟩
  | onClientClosed _ hmay hclose =>
    obtain ⟨s₁, hclose₁, hsound₁, hend⟩ := hsound.onClientClosed hmay
    have heq : s' = s₁ := some.inj (hclose.symm.trans hclose₁)
    subst heq
    refine ⟨hsound₁, ?_⟩
    rcases hend with rfl | ⟨-, hlist, hwaiters⟩
    · exact hwoken
    · exact ⟨fun _ => hlist, fun _ _ => hwaiters⟩
  | destroy =>
    obtain ⟨hsound', hstate, hwaiters, hlist, -⟩ := hsound.destroy
    refine ⟨hsound', fun _ => hlist, fun hserver _ => ?_⟩
    -- a client that closed first has already woken everyone
    have hclosed : s.state ≠ .normal := by
      intro hnormal
      rw [hstate, if_pos hnormal] at hserver
      exact hserver rfl
    rw [hstate, if_neg hclosed] at hserver
    rw [hwaiters]
    exact hwoken.waiters_of_isClosed hserver (decide_eq_true hclosed)
  | terminateThread t =>
    exact ⟨hsound.terminateThread t, hwoken.of_sameQueue ⟨rfl, rfl, rfl, rfl⟩⟩
  | waitFor t =>
    refine ⟨?_, hwoken.waitFor t⟩
    unfold KServerSession.waitFor
    split
    · exact hsound
    · exact hsound.setWaiters _

/-- What every state of a session promises. -/
structure Protocol (s : KServerSession) : Prop where
  /-- An accepted request is pending, current or finished, and only one of them. -/
  exactlyOne : ∀ r ∈ s.accepted, (r ∈ s.requestList ∧ s.currentRequest ≠ some r ∧ r ∉ s.finished) ∨
      (r ∉ s.requestList ∧ s.currentRequest = some r ∧ r ∉ s.finished) ∨
      (r ∉ s.requestList ∧ s.currentRequest ≠ some r ∧ r ∈ s.finished)
  /-- No request is twice in the list, finished twice, or there without being accepted. -/
  distinct : s.accepted.Nodup ∧ s.requestList.Nodup ∧ s.finished.Nodup ∧
    (∀ r, r ∈ s.requestList ∨ s.currentRequest = some r ∨ r ∈ s.finished → r ∈ s.accepted)
  /-- Requests become current in the order they were accepted. -/
  order : s.becameCurrent <+: s.accepted
  /-- A request is answered when it is finished, at most once, and once if its thread lives. -/
  answered : (∀ r, r ∈ s.requestList ∨ s.currentRequest = some r → (s.requests r).answers = []) ∧
    (∀ r ∈ s.finished, (s.requests r).answers.length ≤ 1 ∧
      (s.senderTerminates r = false → (s.requests r).answers.length = 1))
  /-- The session has closed every reference that it opened on a finished request, and once the
  sender has left its call every reference for it is closed. -/
  references : ∀ r ∈ s.finished, (s.requests r).references.opened =
        (s.requests r).references.closed + (if (s.requests r).inCall then 1 else 0) ∧
      ((s.requests r).inCall = false →
        (s.requests r).threadReferences.opened = (s.requests r).threadReferences.closed ∧
          (s.requests r).eventReferences.opened = (s.requests r).eventReferences.closed)
  /-- A pending request with no current one leaves the session signaled, and nobody asleep. -/
  signaled : s.requestList ≠ [] → s.currentRequest = none → s.isSignaled = true ∧ s.waiters = []
  /-- The client end closes without meeting a request that has no thread. -/
  closes : s.ClientMayClose → s.onClientClosed.isSome

theorem Sound.references_of_finished (h : s.Sound none none) {r : Nat}
    (hr : r ∈ s.finished) : RecordSound (s.requests r) 0 0 := by
  have haccepted : r ∈ s.accepted := h.partition.subset (mem_append_right _ hr)
  have hnot : r ∉ s.unfinished none := fun hmem =>
    (nodup_append.mp h.nodup_unfinished).2.2 r hmem r hr rfl
  have hrec := h.records r (h.bound r haccepted)
  rw [if_neg hnot, if_neg fun heq => nomatch heq] at hrec
  exact hrec

theorem Sound.exactlyOne (h : s.Sound none none) {r : Nat} (hr : r ∈ s.accepted) :
    (r ∈ s.requestList ∧ s.currentRequest ≠ some r ∧ r ∉ s.finished) ∨
      (r ∉ s.requestList ∧ s.currentRequest = some r ∧ r ∉ s.finished) ∨
      (r ∉ s.requestList ∧ s.currentRequest ≠ some r ∧ r ∈ s.finished) := by
  have hapart : ∀ x ∈ s.unfinished none, x ∉ s.finished := fun x hx hdone =>
    (nodup_append.mp h.nodup_unfinished).2.2 x hx x hdone rfl
  rcases mem_append.mp (h.partition.symm.subset hr) with hopen | hdone
  · have hdone := hapart r hopen
    by_cases hcurrent : s.currentRequest = some r
    · exact .inr (.inl ⟨h.current_not_mem hcurrent, hcurrent, hdone⟩)
    · rcases mem_append.mp hopen with hlist | hrest
      · exact .inl ⟨hlist, hcurrent, hdone⟩
      · simp only [toList_none, append_nil, mem_toList] at hrest
        exact absurd hrest hcurrent
  · refine .inr (.inr ⟨fun hlist => ?_, fun hcurrent => ?_, hdone⟩)
    · exact hapart r (mem_append_left _ hlist) hdone
    · exact hapart r (mem_unfinished_current hcurrent) hdone

theorem Sound.protocol (h : s.Sound none none) (hwoken : s.Woken) : s.Protocol where
  exactlyOne r hr := h.exactlyOne hr
  distinct := by
    have hnodup := nodup_append.mp h.nodup_unfinished
    refine ⟨h.nodup, (nodup_append.mp hnodup.1).1, hnodup.2.1, ?_⟩
    rintro r (hlist | hcurrent | hdone)
    · exact h.mem_accepted (mem_append_left _ hlist)
    · exact h.mem_accepted (mem_unfinished_current hcurrent)
    · exact h.partition.subset (mem_append_right _ hdone)
  order := by
    obtain ⟨rest, hrest, -⟩ := h.order
    exact ⟨rest, hrest.symm⟩
  answered := by
    refine ⟨?_, fun r hr => ⟨(h.settled r hr).1, fun hlive => ?_⟩⟩
    · rintro r (hlist | hcurrent)
      · exact h.unanswered r (mem_append_left _ hlist)
      · exact h.unanswered r (mem_unfinished_current hcurrent)
    · have hpos := length_pos_iff.mpr ((h.settled r hr).2 hlive)
      have hle := (h.settled r hr).1
      omega
  references r hr := by
    have hrec := h.references_of_finished hr
    refine ⟨?_, fun hcall => (hrec.balanced hcall).2⟩
    have hrefs := hrec.references
    rw [Nat.add_zero] at hrefs
    exact hrefs
  signaled hlist hcurrent := by
    have hsignaled : s.isSignaled = true := by
      cases hfront : s.requestList with
      | nil => exact absurd hfront hlist
      | cons r rest =>
        rw [isSignaled, hfront, hcurrent]
        exact Bool.or_true _
    exact ⟨hsignaled, hwoken.2 (fun hstate => hlist (hwoken.1 hstate)) hsignaled⟩
  closes hmay := by
    obtain ⟨s', hclose, -⟩ := h.onClientClosed hmay
    rw [hclose]
    rfl

/-- The request protocol: whatever the order in which requests are sent, received, answered and
dropped, every state that a session reaches keeps its promises. -/
theorem run_protocol (threads : Nat → SessionThread) (s : KServerSession) (hrun : Run threads s) :
    s.Protocol := by
  have hkeeps : s.Sound none none ∧ s.Woken := by
    induction hrun with
    | start =>
      refine ⟨.initial threads, fun hstate => ?_, fun _ _ => rfl⟩
      exact nomatch (show SessionState.normal = .serverClosed from hstate)
    | step _ hstep ih => exact hstep.keeps ih.1 ih.2
  exact hkeeps.1.protocol hkeeps.2

/-- Two threads that live and do not wait. -/
def idleThreads : Nat → SessionThread := fun _ => ⟨false, false⟩

/-- Thread 1 sends a synchronous request and thread 2 an asynchronous one with event 7; the server
receives the first, thread 1 terminates, the client end closes, and the server end goes away. -/
def closingSession : KServerSession :=
  let s := ((initial idleThreads).sendRequest 1 none).2
  let s := (s.sendRequest 2 (some 7)).2
  let s := (s.receiveRequest true .success false).2
  let s := s.terminateThread 1
  (s.onClientClosed.getD s).destroy

theorem run_protocol_closingSession :
    closingSession.Protocol ∧ closingSession.accepted = [0, 1] ∧
      closingSession.becameCurrent = [0] ∧ closingSession.finished = [1, 0] ∧
      (closingSession.requests 1).answers = [.signal 7] := by
  refine ⟨run_protocol idleThreads closingSession ?_, by decide, by decide, by decide, by decide⟩
  refine .step (.step (.step (.step (.step (.step .start (.sendRequest _ 1 none rfl))
    (.sendRequest _ 2 (some 7) (by decide))) (.receiveRequest _ true .success false))
    (.terminateThread _ 1)) (.onClientClosed _ _ ?_ rfl)) (.destroy _)
  unfold ClientMayClose
  decide

/-! ## After the server end -/

variable {s' : KServerSession} {threads : Nat → SessionThread}

theorem Run.keeps (hrun : Run threads s) : s.Sound none none ∧ s.Woken := by
  induction hrun with
  | start => exact ⟨.initial threads, nofun, fun _ _ => rfl⟩
  | step _ hstep ih => exact hstep.keeps ih.1 ih.2

theorem accepted_cleanupLoop (fuel : Nat) : (s.cleanupLoop fuel).accepted = s.accepted := by
  have hcleanup (s : KServerSession) (r : Nat) : (s.cleanupRequest r).accepted = s.accepted := by
    unfold cleanupRequest reply
    split
    · rfl
    · split
      · rfl
      · split <;> rfl
  fun_induction cleanupLoop fuel s with
  | case1 | case3 => rfl
  | case2 _ _ _ _ ih | case4 _ _ _ _ _ _ ih => exact ih.trans (hcleanup _ _)

/-- One end has gone away, and no request is left. -/
def Drained (s : KServerSession) : Prop :=
  s.isClosed = true ∧ s.requestList = [] ∧ s.currentRequest = none

theorem Drained.step (h : s.Drained) (hstep : Step s s') :
    s'.Drained ∧ s'.accepted = s.accepted := by
  obtain ⟨hclosed, hlist, hcurrent⟩ := id h
  cases hstep with
  | returnFromCall | terminateThread => exact ⟨h, rfl⟩
  | sendRequest sender event =>
    have hrefused : (s.createRequest sender event).isClosed = true := hclosed
    rw [sendRequest, onRequest, if_pos hrefused]
    exact ⟨h, rfl⟩
  | receiveRequest =>
    rw [receiveRequest, if_pos hclosed]
    exact ⟨h, rfl⟩
  | sendReply =>
    rw [sendReply, hcurrent]
    exact ⟨h, rfl⟩
  | onClientClosed _ _ hclose =>
    rw [onClientClosed, if_neg (of_decide_eq_true hclosed)] at hclose
    exact some.inj hclose ▸ ⟨h, rfl⟩
  | destroy =>
    rw [destroy, onServerClosed, if_neg (of_decide_eq_true hclosed), cleanupRequests, hlist,
      cleanupLoop, hcurrent, hlist]
    exact ⟨h, rfl⟩
  | waitFor =>
    rw [waitFor, if_pos (by rw [isSignaled, hclosed]; rfl)]
    exact ⟨h, rfl⟩

/-- The server end goes away in whatever state: every request that was accepted is finished then and
remains so, answered once if its thread lives, and no request is accepted any more. -/
theorem run_afterDestroy (hrun : Run threads s)
    (hlater : Relation.ReflTransGen Step s.destroy s') : s'.accepted = s.accepted ∧
      ∀ r ∈ s.accepted, r ∈ s'.finished ∧
        (s'.senderTerminates r = false → (s'.requests r).answers.length = 1) := by
  have hkept : Run threads s' ∧ s'.Drained ∧ s'.accepted = s.accepted := by
    induction hlater with
    | refl =>
      obtain ⟨-, hstate, -, hlist, hcurrent⟩ := hrun.keeps.1.destroy
      refine ⟨hrun.step (.destroy s), ⟨decide_eq_true ?_, hlist, hcurrent⟩, ?_⟩
      · rw [hstate]
        split
        · decide
        · assumption
      · rw [destroy, cleanupRequests, accepted_cleanupLoop, onServerClosed]
        split <;> rfl
    | tail _ hstep ih =>
      obtain ⟨hrun', hdrained, haccepted⟩ := ih
      exact ⟨hrun'.step hstep, (hdrained.step hstep).imp_right (·.trans haccepted)⟩
  obtain ⟨hrun', ⟨-, hlist, hcurrent⟩, haccepted⟩ := hkept
  obtain ⟨hsound, hwoken⟩ := hrun'.keeps
  refine ⟨haccepted, fun r hr => ?_⟩
  have hdone := hsound.partition.symm.subset (haccepted ▸ hr)
  rw [unfinished, hlist, hcurrent] at hdone
  exact ⟨hdone, ((hsound.protocol hwoken).answered.2 r hdone).2⟩

/-- Thread 1 has sent a request when the server end goes away. -/
theorem run_afterDestroy_pending :
    let s := ((initial idleThreads).sendRequest 1 none).2
    0 ∈ s.destroy.finished ∧ (s.destroy.requests 0).answers.length = 1 :=
  have h := run_afterDestroy (.step .start (.sendRequest (initial idleThreads) 1 none rfl)) .refl
  have hzero := h.2 0 (by decide)
  ⟨hzero.1, hzero.2 rfl⟩

end KServerSession

end Sudachi.Kernel
