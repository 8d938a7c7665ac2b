import Sudachi.Kernel.ThreadLocks

/-!
# Mutexes and condition variables

`KConditionVariable` of `k_condition_variable.cpp`, with the wait queues that its threads wait in
(`k_thread_queue.cpp`, and the queues of `k_light_lock.cpp`, `k_address_arbiter.cpp` and `k_process.cpp`
that locks and trees meet), and the end of a thread that holds locks (`KThread::Finalize`). The threads,
the memory and the handle table are those of one process. Every function runs under the scheduler lock,
so that it is one step; a function without a result follows a null pointer or fails an assertion.
Timers and what only a debugger reads are left out.
-/

set_option autoImplicit false

namespace Sudachi.Kernel.ThreadLocks

open Sudachi.Foundations Function
open SearchTree (Balancing)

abbrev Handle := BitVec 32

/-- `Svc::HandleWaitMask`. -/
def handleWaitMask : Handle := 1 <<< 30

/-- `Svc::InvalidHandle`. -/
def invalidHandle : Handle := 0

inductive SvcResult where
  | success
  | invalidState
  | invalidHandle
  | timedOut
  | cancelled
  | terminationRequested
  deriving DecidableEq

inductive ThreadState where
  | initialized
  | waiting
  | runnable
  | terminated
  deriving DecidableEq

/-- The wait queues that a thread can be in while it waits on a lock or in a tree. -/
inductive WaitQueue where
  | waitForAddress
  | waitConditionVariable (tree : TreeId)
  | addressArbiter (tree : TreeId)
  | lightLock
  | enterUserException
  deriving DecidableEq

structure Process (T : Type) extends State T where
  threadState : T → ThreadState
  waitQueue : T → Option WaitQueue
  waitResult : T → SvcResult
  terminationRequested : T → Bool
  memory : BitVec 64 → BitVec 32
  /-- `GetObjectWithoutPseudoHandle<KThread>` of the handle table. -/
  handles : Handle → Option T
  /-- `m_exception_thread`. -/
  exceptionThread : Option T

namespace Process

variable {T : Type} [DecidableEq T]

/-- `WriteToUser`. -/
def writeToUser (p : Process T) (address : BitVec 64) (value : BitVec 32) : Process T :=
  { p with memory := update p.memory address value }

/-! ## Waiting -/

/-- `KThread::BeginWait`. -/
def beginWait (p : Process T) (thread : T) (queue : WaitQueue) : Process T :=
  { p with
    threadState := update p.threadState thread .waiting
    waitQueue := update p.waitQueue thread (some queue) }

/-- `KThreadQueue::EndWait`, and `KThreadQueue::CancelWait` but for the timer. -/
def wakeUp (p : Process T) (thread : T) (result : SvcResult) : Process T :=
  { p with
    waitResult := update p.waitResult thread result
    threadState := update p.threadState thread .runnable
    waitQueue := update p.waitQueue thread none }

/-- `KThread::EndWait`. -/
def endWait (p : Process T) (thread : T) (result : SvcResult) : Option (Process T) :=
  if p.threadState thread = .waiting then
    match p.waitQueue thread with
    | none => none
    | some .enterUserException =>
      some ({ p with exceptionThread := some thread }.wakeUp thread result)
    | some _ => some (p.wakeUp thread result)
  else some p

/-- A thread leaves the tree of its queue, if it is in one. -/
def leaveTree (bal : Balancing T) (p : Process T) (tree : TreeId) (thread : T) :
    Process T :=
  if p.conditionVariableTree thread ≠ none then
    { p with toState := (p.toState.eraseCondvar bal tree thread).clearConditionVariable thread }
  else p

variable [Fintype T]

/-- `RemoveWaiter` of the thread that `thread` waits for, if there is one. -/
def leaveOwner (bal : Balancing T) (p : Process T) (thread : T) : Option (Process T) :=
  match p.getLockOwner thread with
  | some owner => (p.toState.removeWaiter bal owner thread).map fun s => { p with toState := s }
  | none => some p

/-- The same, where the owner is not compared with null first. -/
def leaveOwnerUnchecked (bal : Balancing T) (p : Process T) (thread : T) :
    Option (Process T) :=
  match p.getLockOwner thread with
  | some owner => (p.toState.removeWaiter bal owner thread).map fun s => { p with toState := s }
  | none => none

/-- `CancelWait` of the queues. -/
def queueCancelWait (bal : Balancing T) (p : Process T) (thread : T)
    (result : SvcResult) : WaitQueue → Option (Process T)
  | .waitForAddress | .enterUserException =>
    (p.leaveOwnerUnchecked bal thread).map fun p => p.wakeUp thread result
  | .waitConditionVariable tree =>
    (p.leaveOwner bal thread).map fun p => (p.leaveTree bal tree thread).wakeUp thread result
  | .addressArbiter tree => some ((p.leaveTree bal tree thread).wakeUp thread result)
  | .lightLock => (p.leaveOwner bal thread).map fun p => p.wakeUp thread result

/-- `KThread::CancelWait`. -/
def cancelWait (bal : Balancing T) (p : Process T) (thread : T) (result : SvcResult) :
    Option (Process T) :=
  if p.threadState thread = .waiting then
    match p.waitQueue thread with
    | none => none
    | some queue => p.queueCancelWait bal thread result queue
  else some p

/-! ## `KThread::Finalize` -/

/-- The loop that removes the waiters of a lock, for as many turns as `fuel` says, with the threads
whose waits it has cancelled. -/
def cancelWaiters (bal : Balancing T) (lock : LockId) :
    Nat → Process T → Option (List T × Process T)
  | 0, p => if p.lockWaiterCount lock = 0 then some ([], p) else none
  | fuel + 1, p =>
    if p.lockWaiterCount lock = 0 then some ([], p)
    else do
      let waiter ← p.getHighestPriorityWaiter lock
      let p := { p with toState := p.toState.lockRemoveWaiter bal lock waiter }
      let p ← p.cancelWait bal waiter .invalidState
      let (cancelled, p) ← cancelWaiters bal lock fuel p
      some (waiter :: cancelled, p)

/-- The loop over the held locks. -/
def finalizeLocks (bal : Balancing T) (this : T) :
    List LockId → Process T → Option (List T × Process T)
  | [], p => some ([], p)
  | lock :: rest, p =>
    if p.lockIsKernelAddressKey lock then none
    else do
      let (cancelled, p) ← cancelWaiters bal lock (p.lockWaiterCount lock) p
      let (others, p) ←
        finalizeLocks bal this rest { p with toState := p.toState.eraseHeldLock this lock }
      some (cancelled ++ others, p)

/-- What `KThread::Finalize` does to the waiters, with the threads whose waits it has cancelled. -/
def finalize (bal : Balancing T) (p : Process T) (this : T) :
    Option (List T × Process T) :=
  if p.waitingLockInfo this ≠ none ∨ p.numKernelWaiters this ≠ 0 then none
  else finalizeLocks bal this (p.heldLockInfoList this) p

/-! ## Mutexes -/

/-- The tag that a thread leaves behind for the next owner of a mutex. -/
def nextTag (s : State T) (next : Option T) (hasWaiters : Bool) : BitVec 32 :=
  match next with
  | none => 0
  | some next =>
    if hasWaiters then s.addressKeyValue next ||| handleWaitMask else s.addressKeyValue next

def endWaitOfNext (p : Process T) (next : Option T) (result : SvcResult) : Option (Process T) :=
  match next with
  | none => some p
  | some next => p.endWait next result

/-- `SignalToAddress`; `WriteToUser` never fails. -/
def signalToAddress (bal : Balancing T) (p : Process T) (curThread : T)
    (addr : BitVec 64) : Option (SvcResult × Process T) := do
  let (next, hasWaiters, s) ← p.toState.removeWaiterByKey bal curThread addr false
  let p := { p with toState := s }.writeToUser addr (nextTag s next hasWaiters)
  let p ← p.endWaitOfNext next .success
  some (.success, p)

/-- `WaitForAddress`; no result is a wait that has begun. -/
def waitForAddress (bal : Balancing T) (p : Process T) (curThread : T)
    (handle : Handle) (addr : BitVec 64) (value : BitVec 32) :
    Option (Option SvcResult × Process T) :=
  if p.terminationRequested curThread then some (some .terminationRequested, p)
  else if p.memory addr ≠ handle ||| handleWaitMask then some (some .success, p)
  else
    match p.handles handle with
    | none => some (some .invalidHandle, p)
    | some owner => do
        let s ← p.toState.setUserAddressKey curThread addr value
        let s ← s.addWaiter bal owner curThread
        some (none, { p with toState := s }.beginWait curThread .waitForAddress)

/-! ## Condition variables -/

/-- `UpdateLockAtomic`: a store that fails is tried again, so that the read and the write are one
step. -/
def updateLockAtomic (p : Process T) (address : BitVec 64) (ifZero newOrrMask : BitVec 32) :
    BitVec 32 × Process T :=
  let expected := p.memory address
  (expected, p.writeToUser address (if expected = 0 then ifZero else expected ||| newOrrMask))

/-- `SignalImpl`. -/
def signalImpl (bal : Balancing T) (p : Process T) (thread : T) :
    Option (Process T) :=
  let (prevTag, p) :=
    p.updateLockAtomic (p.addressKey thread) (p.addressKeyValue thread) handleWaitMask
  if prevTag = invalidHandle then p.endWait thread .success
  else
    match p.handles (prevTag &&& ~~~ handleWaitMask) with
    | some owner => (p.toState.addWaiter bal owner thread).map fun s => { p with toState := s }
    | none => p.endWait thread .invalidState

/-- The node behind `thread` in a tree. -/
def successor (p : Process T) (tree : TreeId) (thread : T) : Option T :=
  ((p.condvarTree tree).toList.dropWhile fun other => other ≠ thread)[1]?

/-- The loop of `Signal` from the iterator `it` on: where the iterator stands in the end, and the
threads it has signalled. It erases a node in each turn, so `fuel` is the size of the tree. -/
def signalLoop (bal : Balancing T) (tree : TreeId) (cvKey : BitVec 64) (count : Int) :
    Nat → Process T → Option T → Nat → Option (Option T × List T × Process T)
  | _, p, none, _ => some (none, [], p)
  | 0, _, some _, _ => none
  | fuel + 1, p, some target, numWaiters =>
    if (count ≤ 0 ∨ numWaiters < count) ∧ p.conditionVariableKey target = cvKey then do
      let it := p.successor tree target
      let p := { p with
        toState := (p.toState.eraseCondvar bal tree target).clearConditionVariable target }
      let p ← p.signalImpl bal target
      let (it, signalled, p) ← signalLoop bal tree cvKey count fuel p it (numWaiters + 1)
      some (it, target :: signalled, p)
    else some (some target, [], p)

/-- `m_tree.nfind_key({cv_key, -1})`. -/
def nfindKey (p : Process T) (tree : TreeId) (cvKey : BitVec 64) : Option T :=
  (p.condvarTree tree).nfind
    (fun other =>
      if cvKey < p.conditionVariableKey other then -1
      else if cvKey = p.conditionVariableKey other ∧ -1 < p.priority other then -1
      else 1)
    none

/-- `Signal`, with the threads it has signalled. -/
def signal (bal : Balancing T) (p : Process T) (tree : TreeId) (cvKey : BitVec 64)
    (count : BitVec 32) : Option (List T × Process T) := do
  let (it, signalled, p) ←
    signalLoop bal tree cvKey count.toInt (p.condvarTree tree).toList.length p
      (p.nfindKey tree cvKey) 0
  match it with
  | none => some (signalled, p.writeToUser cvKey 0)
  | some thread =>
    if p.conditionVariableKey thread ≠ cvKey then some (signalled, p.writeToUser cvKey 0)
    else some (signalled, p)

/-- `Wait`; no result is a wait that has begun. -/
def wait (bal : Balancing T) (p : Process T) (tree : TreeId) (curThread : T)
    (addr key : BitVec 64) (value : BitVec 32) (timeout : Int) :
    Option (Option SvcResult × Process T) :=
  if p.terminationRequested curThread then some (some .terminationRequested, p)
  else do
    let (next, hasWaiters, s) ← p.toState.removeWaiterByKey bal curThread addr false
    let p ← { p with toState := s }.endWaitOfNext next .success
    let p := (p.writeToUser key 1).writeToUser addr (nextTag s next hasWaiters)
    if timeout = 0 then some (some .timedOut, p)
    else
      let s ← p.toState.setConditionVariable curThread tree addr key value
      some (none, { p with
        toState := s.insertCondvar bal tree curThread }.beginWait curThread
          (.waitConditionVariable tree))

end Process

end Sudachi.Kernel.ThreadLocks
