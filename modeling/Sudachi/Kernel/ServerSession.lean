import Mathlib.Logic.Function.Basic

/-!
# Server sessions

The requests of `KSession`, `KClientSession`, `KServerSession` and `KSessionRequest`, from
`k_session.h`, `k_session.cpp`, `k_client_session.cpp`, `k_server_session.cpp` and
`k_session_request.h`. Requests, threads and events are numbered. The translation of the messages is
left open here: the result of `ReceiveMessage`, `SendMessage`, `CleanupServerHandles` and `CleanupMap`
is an argument. `ReplyAsyncError` and `UnlockForIpcUserBuffer` only touch the memory of the client
and are left out.

Next to what the source keeps, a request counts the references that were opened and closed for it and
lists the answers its client got, and a session keeps the history of its requests.
-/

set_option autoImplicit false

namespace Sudachi.Kernel

open Function

/-- The results of this file; `other` is any other failure. -/
inductive SessionResult where
  | success
  | sessionClosed
  | notFound
  | invalidState
  | terminationRequested
  | receiveListBroken
  | other (raw : Nat)
  deriving DecidableEq

/-- `R_FAILED`. -/
def SessionResult.failed (r : SessionResult) : Bool := r ≠ .success

/-- How often references to an object were opened and closed. -/
structure References where
  opened : Nat
  closed : Nat
  deriving DecidableEq

namespace References

def open1 (c : References) : References := { c with opened := c.opened + 1 }

def close1 (c : References) : References := { c with closed := c.closed + 1 }

end References

/-- What the client of a request gets: the end of its wait or a signaled event. -/
inductive Answer where
  | endWait (result : SessionResult)
  | signal (event : Nat)
  deriving DecidableEq

/-- `KSessionRequest`, with the references to the request itself, those taken for it on the client
thread and on the event, the thread that sent it, whether that thread is still in its call, and the
answers. -/
structure KSessionRequest where
  thread : Option Nat
  event : Option Nat
  references : References
  threadReferences : References
  eventReferences : References
  sender : Nat
  inCall : Bool
  answers : List Answer
  deriving DecidableEq

namespace KSessionRequest

/-- `Create` and `Initialize`: the creator holds the first reference. -/
def create (sender : Nat) (event : Option Nat) : KSessionRequest where
  thread := some sender
  event := event
  references := ⟨1, 0⟩
  threadReferences := ⟨1, 0⟩
  eventReferences := if event.isSome then ⟨1, 0⟩ else ⟨0, 0⟩
  sender := sender
  inCall := true
  answers := []

/-- `Finalize`. -/
def finalize (q : KSessionRequest) : KSessionRequest :=
  { q with
    threadReferences := if q.thread.isSome then q.threadReferences.close1 else q.threadReferences
    eventReferences := if q.event.isSome then q.eventReferences.close1 else q.eventReferences }

/-- `Open`, which does nothing on an object that has no reference left. -/
def openRequest (q : KSessionRequest) : KSessionRequest :=
  if q.references.opened = q.references.closed then q
  else { q with references := q.references.open1 }

/-- `Close`, with `Destroy` when the last reference goes. -/
def close (q : KSessionRequest) : KSessionRequest :=
  if q.references.close1.opened = q.references.close1.closed then
    finalize { q with references := q.references.close1 }
  else { q with references := q.references.close1 }

/-- The end of the branch of `OnClientClosed` for a current request whose thread terminates: the
request lets go of its thread and its event. -/
def detach (q : KSessionRequest) : KSessionRequest :=
  { q with
    thread := none
    event := none
    threadReferences := q.threadReferences.close1
    eventReferences := if q.event.isSome then q.eventReferences.close1 else q.eventReferences }

end KSessionRequest

/-- The part of `KThread` that requests are about. -/
structure SessionThread where
  terminationRequested : Bool
  waiting : Bool
  deriving DecidableEq

/-- `KSession::State`. -/
inductive SessionState where
  | normal
  | clientClosed
  | serverClosed
  deriving DecidableEq

/-- A session with its server side, the threads that wait on it, and its history: the requests it
accepted, those that became current and those it is done with, each in that order. -/
structure KServerSession where
  state : SessionState
  requestList : List Nat
  currentRequest : Option Nat
  requests : Nat → KSessionRequest
  nextRequest : Nat
  threads : Nat → SessionThread
  waiters : List Nat
  accepted : List Nat
  becameCurrent : List Nat
  finished : List Nat

namespace KServerSession

/-- A new session. -/
def initial (threads : Nat → SessionThread) : KServerSession where
  state := .normal
  requestList := []
  currentRequest := none
  requests := fun _ => KSessionRequest.create 0 none
  nextRequest := 0
  threads := threads
  waiters := []
  accepted := []
  becameCurrent := []
  finished := []

/-- `IsServerClosed` and `IsClientClosed` are the same test. -/
def isClosed (s : KServerSession) : Bool := s.state ≠ .normal

/-- `IsSignaled`. -/
def isSignaled (s : KServerSession) : Bool :=
  s.isClosed || (!s.requestList.isEmpty && s.currentRequest.isNone)

/-- `NotifyAvailable`: every thread that waits is woken if the session is signaled. -/
def notifyAvailable (s : KServerSession) : KServerSession :=
  if s.isSignaled then { s with waiters := [] } else s

def modifyRequest (s : KServerSession) (r : Nat) (f : KSessionRequest → KSessionRequest) :
    KServerSession :=
  { s with requests := update s.requests r (f (s.requests r)) }

/-- An answer to the client of a request. -/
def answer (s : KServerSession) (r : Nat) (a : Answer) : KServerSession :=
  s.modifyRequest r fun q => { q with answers := q.answers ++ [a] }

/-- `KThread::EndWait`: a wait of the thread ends. -/
def endWait (s : KServerSession) (t : Nat) : KServerSession :=
  { s with threads := update s.threads t { s.threads t with waiting := false } }

/-- `Signal` of the event of an asynchronous request, or `EndWait` of the client thread unless it
terminates. -/
def reply (s : KServerSession) (r t : Nat) (event : Option Nat) (result : SessionResult) :
    KServerSession :=
  match event with
  | some e => s.answer r (.signal e)
  | none =>
    if (s.threads t).terminationRequested then s
    else (s.answer r (.endWait result)).endWait t

/-- The session closes its reference to a request that it has taken out of the list and of the
current slot. -/
def finish (s : KServerSession) (r : Nat) : KServerSession :=
  let s := s.modifyRequest r KSessionRequest.close
  { s with finished := s.finished ++ [r] }

/-- `KSessionRequest::Create` and `Initialize` on the current thread `sender`. -/
def createRequest (s : KServerSession) (sender : Nat) (event : Option Nat) : KServerSession :=
  { s with
    requests := update s.requests s.nextRequest (.create sender event)
    nextRequest := s.nextRequest + 1 }

/-- `KThread::BeginWait`. -/
def beginWait (s : KServerSession) (t : Nat) : KServerSession :=
  { s with threads := update s.threads t { s.threads t with waiting := true } }

/-- `OnRequest` on the current thread `sender`, up to the point where it returns or waits. -/
def onRequest (s : KServerSession) (r sender : Nat) : SessionResult × KServerSession :=
  if s.isClosed then (.sessionClosed, s)
  else if (s.threads sender).terminationRequested then (.terminationRequested, s)
  else
    let wasEmpty := s.requestList.isEmpty
    let event := (s.requests r).event
    let s := s.modifyRequest r KSessionRequest.openRequest
    let s := { s with requestList := s.requestList ++ [r], accepted := s.accepted ++ [r] }
    let s := if wasEmpty then s.notifyAvailable else s
    if event.isSome then (.success, s) else (.success, s.beginWait sender)

/-- `SendSyncRequest`, or with an event `SendAsyncRequest`, up to the same point. -/
def sendRequest (s : KServerSession) (sender : Nat) (event : Option Nat) :
    SessionResult × KServerSession :=
  (s.createRequest sender event).onRequest s.nextRequest sender

/-- The client thread leaves its call and closes the reference that it created the request with. -/
def returnFromCall (s : KServerSession) (r : Nat) : KServerSession :=
  s.modifyRequest r fun q => { q with inCall := false }.close

/-- The front of the list becomes the current request. -/
def makeCurrent (s : KServerSession) (r : Nat) (rest : List Nat) : KServerSession :=
  { s with
    requestList := rest
    currentRequest := some r
    becameCurrent := s.becameCurrent ++ [r] }

/-- `Open` of the client thread while a request is received. -/
def openThread (s : KServerSession) (r : Nat) : KServerSession :=
  s.modifyRequest r fun q => { q with threadReferences := q.threadReferences.open1 }

/-- `Close` of the client thread. -/
def closeThread (s : KServerSession) (r : Nat) : KServerSession :=
  s.modifyRequest r fun q => { q with threadReferences := q.threadReferences.close1 }

/-- The current request is cleared, and the threads that wait hear of the next one. -/
def clearCurrent (s : KServerSession) : KServerSession :=
  if s.requestList.isEmpty then { s with currentRequest := none }
  else notifyAvailable { s with currentRequest := none }

/-- `ReceiveRequest`; `hle` is whether a context is asked for, `result` what `ReceiveMessage`
returns, and `broken` whether it broke the receive list. -/
def receiveRequest (s : KServerSession) (hle : Bool) (result : SessionResult) (broken : Bool) :
    SessionResult × KServerSession :=
  if s.isClosed then (.sessionClosed, s)
  else if s.currentRequest.isSome then (.notFound, s)
  else
    match s.requestList with
    | [] => (.notFound, s)
    | r :: rest =>
      match (s.requests r).thread with
      | none => (.sessionClosed, { s with requestList := rest })
      | some t =>
        let s := (s.makeCurrent r rest).openThread r
        if hle then (.success, s.closeThread r)
        else if result.failed then
          let s := s.clearCurrent
          let s := (s.reply r t (s.requests r).event result).finish r
          (if broken then .receiveListBroken else .notFound, s.closeThread r)
        else (result, s.closeThread r)

/-- The result `SendReply` keeps for the server and the one for the client. -/
def selectResults (closed : Bool) (result : SessionResult) : SessionResult × SessionResult :=
  if closed && !result.failed then (.sessionClosed, .sessionClosed) else (.success, result)

/-- `SendReply`; `sendResult` is what `SendMessage` returns, and `cleanupResult` the first failure of
`CleanupServerHandles` and `CleanupMap`. -/
def sendReply (s : KServerSession) (hle : Bool) (sendResult cleanupResult : SessionResult) :
    SessionResult × KServerSession :=
  match s.currentRequest with
  | none => (.invalidState, s)
  | some r =>
    let s := s.clearCurrent
    let closed := (s.requests r).thread.isNone || s.isClosed
    let result :=
      if !closed then (if hle then .success else sendResult)
      else if !hle then cleanupResult
      else .success
    let (serverResult, clientResult) := selectResults closed result
    let s :=
      match (s.requests r).thread with
      | none => s
      | some t => s.reply r t (s.requests r).event clientResult
    (serverResult, s.finish r)

/-- One turn of the loop of `CleanupRequests` on the request it has taken. -/
def cleanupRequest (s : KServerSession) (r : Nat) : KServerSession :=
  let s :=
    match (s.requests r).thread with
    | none => s
    | some t => s.reply r t (s.requests r).event .sessionClosed
  s.finish r

/-- The loop of `CleanupRequests`. -/
def cleanupLoop : Nat → KServerSession → KServerSession
  | 0, s => s
  | fuel + 1, s =>
    match s.currentRequest with
    | some r => cleanupLoop fuel (cleanupRequest { s with currentRequest := none } r)
    | none =>
      match s.requestList with
      | [] => s
      | r :: rest => cleanupLoop fuel (cleanupRequest { s with requestList := rest } r)

/-- `CleanupRequests`. A turn takes the current request or the front of the list, so one turn more
than there are pending requests, and the last one that finds nothing, are enough. -/
def cleanupRequests (s : KServerSession) : KServerSession :=
  cleanupLoop (s.requestList.length + 2) s

/-- `KSession::OnServerClosed`. -/
def onServerClosed (s : KServerSession) : KServerSession :=
  if s.state = .normal then { s with state := .serverClosed } else s

/-- `KServerSession::Destroy`. -/
def destroy (s : KServerSession) : KServerSession := s.onServerClosed.cleanupRequests

/-- The turn of the loop of `OnClientClosed` on the current request, which stays current. The source
takes the thread without a check; `none` is a request that has none. -/
def closeCurrent (s : KServerSession) (r : Nat) : Option KServerSession :=
  let s := s.modifyRequest r KSessionRequest.openRequest
  match (s.requests r).thread with
  | none => none
  | some t =>
    let s := if (s.threads t).terminationRequested then s.modifyRequest r .detach else s
    some (s.modifyRequest r KSessionRequest.close)

/-- The turn of the loop of `OnClientClosed` on a request that it has taken from the list. -/
def closePending (s : KServerSession) (r : Nat) : Option KServerSession :=
  match (s.requests r).thread with
  | none => none
  | some t =>
    match (s.requests r).event with
    | some e => some ((s.reply r t (some e) .sessionClosed).finish r)
    | none => some (s.finish r)

/-- The loop of `OnClientClosed`; `prev` is `prev_request`. -/
def closeLoop : Nat → Option Nat → KServerSession → Option KServerSession
  | 0, _, s => some s
  | fuel + 1, prev, s =>
    if s.currentRequest.isSome ∧ s.currentRequest ≠ prev then
      match s.currentRequest with
      | none => none
      | some r => (s.closeCurrent r).bind (closeLoop fuel (some r))
    else
      match s.requestList with
      | [] => some s
      | r :: rest =>
        (closePending { s with requestList := rest } r).bind (closeLoop fuel prev)

/-- `KServerSession::OnClientClosed`. A turn takes the current request, which it does once, or the
front of the list. -/
def serverOnClientClosed (s : KServerSession) : Option KServerSession :=
  (closeLoop (s.requestList.length + 2) none s).map notifyAvailable

/-- `KSession::OnClientClosed`. -/
def onClientClosed (s : KServerSession) : Option KServerSession :=
  if s.state = .normal then { s with state := .clientClosed }.serverOnClientClosed else some s

/-- A thread is asked to terminate, or terminates by itself: a wait of its ends. -/
def terminateThread (s : KServerSession) (t : Nat) : KServerSession :=
  { s with threads := update s.threads t ⟨true, false⟩ }

/-- A server thread waits for the session, unless it is signaled. -/
def waitFor (s : KServerSession) (t : Nat) : KServerSession :=
  if s.isSignaled then s else { s with waiters := t :: s.waiters }

end KServerSession

end Sudachi.Kernel
