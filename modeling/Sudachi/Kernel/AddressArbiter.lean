import Sudachi.Foundations.SearchTree
import Mathlib.Data.Prod.Lex

/-!
# The address arbiter

`KAddressArbiter` of `k_address_arbiter.cpp`: threads that wait for a signal at an address, all in one
red-black tree by address and priority. Timers and the debugging fields of a thread are left out. The
counters of the loops are natural numbers: there are never `2 ^ 31` threads.
-/

set_option autoImplicit false

namespace Sudachi.Kernel

open Sudachi.Foundations Function
open SearchTree (Balancing)

namespace AddressArbiter

abbrev ThreadId := Nat

inductive SvcResult where
  | success
  | invalidState
  | timedOut
  | terminationRequested
  | cancelled
  deriving DecidableEq

/-- What the arbiter reads and writes of a thread. `inTree` says whether `m_condvar_tree` is set. -/
structure Thread where
  priority : Int
  conditionVariableKey : BitVec 64
  inTree : Bool
  waiting : Bool
  waitResult : SvcResult
  terminationRequested : Bool

/-- The arbiter of a process, with the threads and the memory of that process. -/
structure KAddressArbiter where
  tree : SearchTree ThreadId
  threads : ThreadId → Thread
  memory : BitVec 64 → BitVec 32

/-- `ConditionVariableComparator::Compare`. -/
def compare (lKey : BitVec 64) (lPriority : Int) (rhs : Thread) : Int :=
  if lKey < rhs.conditionVariableKey then -1
  else if lKey = rhs.conditionVariableKey ∧ lPriority < rhs.priority then -1
  else 1

namespace KAddressArbiter

def setThread (s : KAddressArbiter) (id : ThreadId) (f : Thread → Thread) : KAddressArbiter :=
  { s with threads := update s.threads id (f (s.threads id)) }

/-- `m_tree.insert`. -/
def insertThread (bal : Balancing ThreadId) (s : KAddressArbiter) (id : ThreadId) :
    KAddressArbiter :=
  let thread := s.threads id
  { s with
    tree := s.tree.insert bal
      (fun other => compare thread.conditionVariableKey thread.priority (s.threads other)) id }

/-- `m_tree.erase`. -/
def eraseThread (bal : Balancing ThreadId) (s : KAddressArbiter) (id : ThreadId) :
    KAddressArbiter :=
  { s with tree := bal.remove id s.tree }

/-- `UpdateIfEqual`: an exclusive store that fails is tried again, so that the read and the write
are one step. -/
def updateIfEqual (s : KAddressArbiter) (address : BitVec 64) (value newValue : BitVec 32) :
    BitVec 32 × KAddressArbiter :=
  let current := s.memory address
  if current = value then
    (current, { s with memory := update s.memory address newValue })
  else (current, s)

/-- `DecrementIfLessThan`. -/
def decrementIfLessThan (s : KAddressArbiter) (address : BitVec 64) (value : BitVec 32) :
    BitVec 32 × KAddressArbiter :=
  let current := s.memory address
  if current.toInt < value.toInt then
    (current, { s with memory := update s.memory address (current - 1) })
  else (current, s)

/-- `KThread::EndWait` of a thread that waits in the queue of the arbiter. -/
def endWait (s : KAddressArbiter) (id : ThreadId) (result : SvcResult) : KAddressArbiter :=
  if (s.threads id).waiting then
    s.setThread id fun thread => { thread with waitResult := result, waiting := false }
  else s

/-- The body of the loops that signal: `EndWait`, `ClearAddressArbiter` and `erase`. -/
def wake (bal : Balancing ThreadId) (s : KAddressArbiter) (id : ThreadId) :
    KAddressArbiter :=
  ((s.endWait id .success).setThread id fun thread => { thread with inTree := false }).eraseThread
    bal id

/-- `m_tree.nfind_key({addr, -1})`. -/
def nfindKey (s : KAddressArbiter) (addr : BitVec 64) : Option ThreadId :=
  s.tree.nfind (fun other => compare addr (-1) (s.threads other)) none

/-- The nodes that an iterator passes from `it` to the end of the tree. -/
def nodesFrom (s : KAddressArbiter) : Option ThreadId → List ThreadId
  | none => []
  | some id => s.tree.toList.dropWhile fun other => other ≠ id

/-- The loop that signals, over the nodes from the iterator on. -/
def signalLoop (bal : Balancing ThreadId) (addr : BitVec 64) (count : Int) :
    List ThreadId → Nat → KAddressArbiter → KAddressArbiter
  | [], _, s => s
  | id :: rest, numWaiters, s =>
    if (count ≤ 0 ∨ numWaiters < count) ∧ (s.threads id).conditionVariableKey = addr then
      signalLoop bal addr count rest (numWaiters + 1) (s.wake bal id)
    else s

/-- The loop that counts the waiters behind the first one, over the nodes behind the iterator. -/
def countLoop (s : KAddressArbiter) (addr : BitVec 64) (count : Int) : List ThreadId → Nat → Nat
  | [], tmpNumWaiters => tmpNumWaiters
  | id :: rest, tmpNumWaiters =>
    if (s.threads id).conditionVariableKey = addr then
      if count ≤ tmpNumWaiters then tmpNumWaiters + 1
      else countLoop s addr count rest (tmpNumWaiters + 1)
    else tmpNumWaiters

/-- `Signal`. -/
def signal (bal : Balancing ThreadId) (s : KAddressArbiter) (addr : BitVec 64)
    (count : BitVec 32) : SvcResult × KAddressArbiter :=
  (.success, signalLoop bal addr count.toInt (s.nodesFrom (s.nfindKey addr)) 0 s)

/-- `SignalAndIncrementIfEqual`. -/
def signalAndIncrementIfEqual (bal : Balancing ThreadId) (s : KAddressArbiter)
    (addr : BitVec 64) (value count : BitVec 32) : SvcResult × KAddressArbiter :=
  let (userValue, s) := s.updateIfEqual addr value (value + 1)
  if userValue ≠ value then (.invalidState, s)
  else (.success, signalLoop bal addr count.toInt (s.nodesFrom (s.nfindKey addr)) 0 s)

/-- Whether the iterator stands at a thread that waits at `addr`. -/
def waitsAt (s : KAddressArbiter) (addr : BitVec 64) : Option ThreadId → Bool
  | none => false
  | some id => (s.threads id).conditionVariableKey = addr

/-- The value that `SignalAndModifyByWaitingCountIfEqual` is to write. -/
def modifiedValue (s : KAddressArbiter) (addr : BitVec 64) (value count : BitVec 32) : BitVec 32 :=
  let it := s.nfindKey addr
  if count.toInt ≤ 0 then
    if s.waitsAt addr it then value - 2 else value + 1
  else if s.waitsAt addr it then
    if s.countLoop addr count.toInt (s.nodesFrom it).tail 0 < count.toInt then value - 1 else value
  else value + 1

/-- `SignalAndModifyByWaitingCountIfEqual`. -/
def signalAndModifyByWaitingCountIfEqual (bal : Balancing ThreadId) (s : KAddressArbiter)
    (addr : BitVec 64) (value count : BitVec 32) : SvcResult × KAddressArbiter :=
  let it := s.nfindKey addr
  let newValue := s.modifiedValue addr value count
  let (userValue, s) :=
    if value ≠ newValue then s.updateIfEqual addr value newValue else (s.memory addr, s)
  if userValue ≠ value then (.invalidState, s)
  else (.success, signalLoop bal addr count.toInt (s.nodesFrom it) 0 s)

inductive SignalType where
  | signal
  | signalAndIncrementIfEqual
  | signalAndModifyByWaitingCountIfEqual
  deriving DecidableEq

/-- `SignalToAddress`. -/
def signalToAddress (bal : Balancing ThreadId) (s : KAddressArbiter) (addr : BitVec 64)
    (value count : BitVec 32) : SignalType → SvcResult × KAddressArbiter
  | .signal => s.signal bal addr count
  | .signalAndIncrementIfEqual => s.signalAndIncrementIfEqual bal addr value count
  | .signalAndModifyByWaitingCountIfEqual =>
    s.signalAndModifyByWaitingCountIfEqual bal addr value count

/-- The end of both ways to wait: `SetAddressArbiter`, `insert` and `BeginWait`. -/
def beginWait (bal : Balancing ThreadId) (s : KAddressArbiter) (cur : ThreadId)
    (addr : BitVec 64) : KAddressArbiter :=
  ((s.setThread cur fun thread =>
      { thread with inTree := true, conditionVariableKey := addr }).insertThread bal cur).setThread
    cur fun thread => { thread with waiting := true }

/-- `WaitIfLessThan`; no result is a wait that has begun. -/
def waitIfLessThan (bal : Balancing ThreadId) (s : KAddressArbiter) (cur : ThreadId)
    (addr : BitVec 64) (value : BitVec 32) (decrement : Bool) (timeout : Int) :
    Option SvcResult × KAddressArbiter :=
  if (s.threads cur).terminationRequested then (some .terminationRequested, s)
  else
    let (userValue, s) :=
      if decrement then s.decrementIfLessThan addr value else (s.memory addr, s)
    if value.toInt ≤ userValue.toInt then (some .invalidState, s)
    else if timeout = 0 then (some .timedOut, s)
    else (none, s.beginWait bal cur addr)

/-- `WaitIfEqual`. -/
def waitIfEqual (bal : Balancing ThreadId) (s : KAddressArbiter) (cur : ThreadId)
    (addr : BitVec 64) (value : BitVec 32) (timeout : Int) : Option SvcResult × KAddressArbiter :=
  if (s.threads cur).terminationRequested then (some .terminationRequested, s)
  else if value ≠ s.memory addr then (some .invalidState, s)
  else if timeout = 0 then (some .timedOut, s)
  else (none, s.beginWait bal cur addr)

/-- `CancelWait` of `ThreadQueueImplForKAddressArbiter`. -/
def cancelWait (bal : Balancing ThreadId) (s : KAddressArbiter) (id : ThreadId)
    (result : SvcResult) : KAddressArbiter :=
  if (s.threads id).waiting then
    let s :=
      if (s.threads id).inTree then
        (s.eraseThread bal id).setThread id fun thread => { thread with inTree := false }
      else s
    s.setThread id fun thread => { thread with waitResult := result, waiting := false }
  else s

/-- What `RestorePriority` does to a thread whose priority changes: `BeforeUpdatePriority`,
`SetPriority` and `AfterUpdatePriority`. -/
def updatePriority (bal : Balancing ThreadId) (s : KAddressArbiter) (id : ThreadId)
    (priority : Int) : KAddressArbiter :=
  if priority = (s.threads id).priority then s
  else if (s.threads id).inTree then
    ((s.eraseThread bal id).setThread id fun thread =>
      { thread with priority := priority }).insertThread bal id
  else s.setThread id fun thread => { thread with priority := priority }

end KAddressArbiter

end AddressArbiter

end Sudachi.Kernel
