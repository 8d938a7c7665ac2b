import Sudachi.Foundations.SearchTree
import Mathlib.Data.Fintype.Card

/-!
# Locks with priority inheritance

What `KThread` does for locks that other threads wait on (`k_thread.cpp`, and
`LockWithPriorityInheritanceInfo` of `k_thread.h`). A field of `KThread` is a function of the thread, a
field of a lock a function of the lock. A function that has no result here is one that fails an
assertion or follows a null pointer; the scheduler's own data and the context of a thread are left
out. Locks come from a slab heap with room for as many as there are threads: there is no lock without a
waiter, so that it never runs out.
-/

set_option autoImplicit false

namespace Sudachi.Kernel.ThreadLocks

open Sudachi.Foundations
open SearchTree (Balancing)
open Function (update)

abbrev LockId := Nat

/-- A tree of threads that wait for a condition variable or for an address arbiter. -/
abbrev TreeId := Nat

structure State (T : Type) where
  /-- `m_base_priority` and `m_priority`. -/
  basePriority : T → Int
  priority : T → Int
  /-- `m_address_key`, `m_address_key_value` and `m_is_kernel_address_key`. -/
  addressKey : T → BitVec 64
  addressKeyValue : T → BitVec 32
  isKernelAddressKey : T → Bool
  heldLockInfoList : T → List LockId
  waitingLockInfo : T → Option LockId
  numKernelWaiters : T → Int
  /-- `m_condvar_tree` and `m_condvar_key`. -/
  conditionVariableTree : T → Option TreeId
  conditionVariableKey : T → BitVec 64
  condvarTree : TreeId → SearchTree T
  /-- When a thread was put into its tree last, and when the next one will be. The source does not
  keep these: they say what the order of arrival is. -/
  insertTime : T → Nat
  time : Nat
  /-- `m_tree`, `m_address_key`, `m_is_kernel_address_key`, `m_owner` and `m_waiter_count` of a lock. -/
  lockTree : LockId → SearchTree T
  lockAddressKey : LockId → BitVec 64
  lockIsKernelAddressKey : LockId → Bool
  lockOwner : LockId → Option T
  lockWaiterCount : LockId → Nat
  /-- The first lock that has not been allocated. -/
  nextLock : LockId

namespace State

variable {T : Type} [DecidableEq T]

/-! ## `LockWithPriorityInheritanceInfo` -/

/-- `LockWithPriorityInheritanceComparator::Compare`. -/
def lockCompare (s : State T) (lhs rhs : T) : Int :=
  if s.priority lhs < s.priority rhs then -1 else 1

/-- `Create`. -/
def create (s : State T) (addressKey : BitVec 64) (isKernelAddressKey : Bool) :
    LockId × State T :=
  (s.nextLock,
    { s with
      lockTree := update s.lockTree s.nextLock .leaf
      lockAddressKey := update s.lockAddressKey s.nextLock addressKey
      lockIsKernelAddressKey :=
        update s.lockIsKernelAddressKey s.nextLock isKernelAddressKey
      lockOwner := update s.lockOwner s.nextLock none
      lockWaiterCount := update s.lockWaiterCount s.nextLock 0
      nextLock := s.nextLock + 1 })

/-- `LockWithPriorityInheritanceInfo::AddWaiter`. -/
def lockAddWaiter (bal : Balancing T) (s : State T) (lock : LockId) (waiter : T) :
    State T :=
  { s with
    lockTree := update s.lockTree lock
      ((s.lockTree lock).insert bal (s.lockCompare waiter) waiter)
    lockWaiterCount := update s.lockWaiterCount lock (s.lockWaiterCount lock + 1)
    waitingLockInfo := update s.waitingLockInfo waiter (some lock) }

/-- The effect of `LockWithPriorityInheritanceInfo::RemoveWaiter`; it returns whether the count that
remains is zero. -/
def lockRemoveWaiter (bal : Balancing T) (s : State T) (lock : LockId) (waiter : T) :
    State T :=
  { s with
    lockTree := update s.lockTree lock (bal.remove waiter (s.lockTree lock))
    waitingLockInfo := update s.waitingLockInfo waiter none
    lockWaiterCount := update s.lockWaiterCount lock (s.lockWaiterCount lock - 1) }

/-- `GetHighestPriorityWaiter`: the front of the tree. -/
def getHighestPriorityWaiter (s : State T) (lock : LockId) : Option T :=
  (s.lockTree lock).toList.head?

/-! ## Waiters -/

/-- `AddHeldLock`. -/
def addHeldLock (s : State T) (this : T) (lock : LockId) : State T :=
  { s with
    lockOwner := update s.lockOwner lock (some this)
    heldLockInfoList :=
      update s.heldLockInfoList this (lock :: s.heldLockInfoList this) }

/-- `m_held_lock_info_list.erase`. -/
def eraseHeldLock (s : State T) (this : T) (lock : LockId) : State T :=
  { s with
    heldLockInfoList :=
      update s.heldLockInfoList this ((s.heldLockInfoList this).erase lock) }

/-- `FindHeldLock`. -/
def findHeldLock (s : State T) (this : T) (addressKey : BitVec 64) (isKernelAddressKey : Bool) :
    Option LockId :=
  (s.heldLockInfoList this).find? fun lock =>
    s.lockAddressKey lock = addressKey ∧ s.lockIsKernelAddressKey lock = isKernelAddressKey

/-- `GetLockOwner`. -/
def getLockOwner (s : State T) (this : T) : Option T :=
  (s.waitingLockInfo this).bind s.lockOwner

def setNumKernelWaiters (s : State T) (this : T) (value : Int) : State T :=
  { s with numKernelWaiters := update s.numKernelWaiters this value }

/-- The lock of `AddWaiterImpl`: one that is held, or a new one. -/
def findOrCreateLock (s : State T) (this : T) (addressKey : BitVec 64)
    (isKernelAddressKey : Bool) : LockId × State T :=
  match s.findHeldLock this addressKey isKernelAddressKey with
  | some lock => (lock, s)
  | none =>
    let (lock, s) := s.create addressKey isKernelAddressKey
    (lock, s.addHeldLock this lock)

/-- `AddWaiterImpl`. -/
def addWaiterImpl (bal : Balancing T) (s : State T) (this thread : T) :
    Option (State T) :=
  if s.conditionVariableTree thread ≠ none then none
  else if s.isKernelAddressKey thread ∧ s.numKernelWaiters this < 0 then none
  else
    let s₁ :=
      if s.isKernelAddressKey thread then
        s.setNumKernelWaiters this (s.numKernelWaiters this + 1)
      else s
    let (lock, s₂) :=
      s₁.findOrCreateLock this (s.addressKey thread) (s.isKernelAddressKey thread)
    some (s₂.lockAddWaiter bal lock thread)

/-- `RemoveWaiterImpl`. -/
def removeWaiterImpl (bal : Balancing T) (s : State T) (this thread : T) :
    Option (State T) :=
  if s.isKernelAddressKey thread ∧ s.numKernelWaiters this ≤ 0 then none
  else
    let s₁ :=
      if s.isKernelAddressKey thread then
        s.setNumKernelWaiters this (s.numKernelWaiters this - 1)
      else s
    match s₁.waitingLockInfo thread with
    | none => none
    | some lock =>
      if s₁.lockOwner lock ≠ some this then none
      else
        let s₂ := s₁.lockRemoveWaiter bal lock thread
        some (if s₂.lockWaiterCount lock = 0 then s₂.eraseHeldLock this lock else s₂)

/-! ## Priorities -/

/-- `ConditionVariableComparator::Compare`. -/
def condvarCompare (s : State T) (lhs rhs : T) : Int :=
  if s.conditionVariableKey lhs < s.conditionVariableKey rhs then -1
  else if s.conditionVariableKey lhs = s.conditionVariableKey rhs ∧
      s.priority lhs < s.priority rhs then -1
  else 1

/-- `insert` of a tree of threads that wait for a condition variable or an arbiter. -/
def insertCondvar (bal : Balancing T) (s : State T) (tree : TreeId) (thread : T) :
    State T :=
  { s with
    condvarTree := update s.condvarTree tree
      ((s.condvarTree tree).insert bal (s.condvarCompare thread) thread)
    insertTime := update s.insertTime thread s.time
    time := s.time + 1 }

/-- `erase` of such a tree. -/
def eraseCondvar (bal : Balancing T) (s : State T) (tree : TreeId) (thread : T) :
    State T :=
  { s with
    condvarTree :=
      update s.condvarTree tree (bal.remove thread (s.condvarTree tree)) }

/-- `SetPriority`. -/
def setPriority (s : State T) (thread : T) (value : Int) : State T :=
  { s with priority := update s.priority thread value }

/-- The change of a priority between `BeforeUpdatePriority` and `AfterUpdatePriority`. -/
def changePriority (bal : Balancing T) (s : State T) (thread : T) (value : Int) :
    State T :=
  match s.conditionVariableTree thread with
  | some tree =>
    ((s.eraseCondvar bal tree thread).setPriority thread value).insertCondvar bal tree thread
  | none => s.setPriority thread value

/-- The priority that `RestorePriority` computes for a thread. -/
def newPriority (s : State T) (thread : T) : Option Int :=
  (s.heldLockInfoList thread).foldlM
    (fun newPriority lock =>
      (s.getHighestPriorityWaiter lock).map fun waiter => min newPriority (s.priority waiter))
    (s.basePriority thread)

/-- The body of the loop of `RestorePriority` once the new priority is known to differ. -/
def requeue (bal : Balancing T) (s : State T) (thread : T) (value : Int) :
    Option (State T) :=
  match s.getLockOwner thread with
  | none => some (s.changePriority bal thread value)
  | some lockOwner => do
      let s ← s.removeWaiterImpl bal lockOwner thread
      (s.changePriority bal thread value).addWaiterImpl bal lockOwner thread

/-- The loop of `RestorePriority`, for as many turns as `fuel` says. -/
def restorePriorityLoop (bal : Balancing T) :
    Nat → State T → Option T → Option (State T)
  | _, s, none => some s
  | 0, _, some _ => none
  | fuel + 1, s, some thread => do
      let newPriority ← s.newPriority thread
      if newPriority = s.priority thread then some s
      else
        let lockOwner := s.getLockOwner thread
        let s ← s.requeue bal thread newPriority
        restorePriorityLoop bal fuel s lockOwner

variable [Fintype T]

/-- `RestorePriority`. The loop goes up from a thread to the thread it waits for: more turns than
there are threads it only makes when threads wait for each other in a circle. -/
def restorePriority (bal : Balancing T) (s : State T) (thread : T) : Option (State T) :=
  restorePriorityLoop bal (Fintype.card T + 1) s (some thread)

/-- `AddWaiter`. -/
def addWaiter (bal : Balancing T) (s : State T) (this thread : T) :
    Option (State T) := do
  let s ← s.addWaiterImpl bal this thread
  if s.priority thread < s.priority this then s.restorePriority bal this else some s

/-- `RemoveWaiter`. -/
def removeWaiter (bal : Balancing T) (s : State T) (this thread : T) :
    Option (State T) := do
  let s ← s.removeWaiterImpl bal this thread
  if s.priority this = s.priority thread ∧ s.priority this < s.basePriority this then
    s.restorePriority bal this
  else some s

/-- `RemoveWaiterByKey` up to the restoration of the priority, for the lock that was found: the next
owner and whether the lock has more waiters. -/
def handOverLock (bal : Balancing T) (s : State T) (this : T) (lock : LockId) :
    Option (T × Bool × State T) :=
  let s₁ := s.eraseHeldLock this lock
  let count : Int := s.lockWaiterCount lock
  if s.lockIsKernelAddressKey lock ∧ s.numKernelWaiters this - count < 0 then none
  else
    let s₂ :=
      if s.lockIsKernelAddressKey lock then
        s₁.setNumKernelWaiters this (s.numKernelWaiters this - count)
      else s₁
    if s.lockWaiterCount lock = 0 then none
    else
      match s₂.getHighestPriorityWaiter lock with
      | none => none
      | some next =>
        let s₃ := s₂.lockRemoveWaiter bal lock next
        if s₃.lockWaiterCount lock = 0 then some (next, false, s₃)
        else
          let s₄ := s₃.addHeldLock next lock
          let total := s₄.numKernelWaiters next + s₄.lockWaiterCount lock
          if s.lockIsKernelAddressKey lock then
            if total ≤ 0 then none
            else some (next, true, s₄.setNumKernelWaiters next total)
          else some (next, true, s₄)

/-- `RemoveWaiterByKey`. -/
def removeWaiterByKey (bal : Balancing T) (s : State T) (this : T)
    (addressKey : BitVec 64) (isKernelAddressKey : Bool) : Option (Option T × Bool × State T) :=
  match s.findHeldLock this addressKey isKernelAddressKey with
  | none => some (none, false, s)
  | some lock => do
      let (next, hasWaiters, s) ← s.handOverLock bal this lock
      let s ←
        if s.priority this = s.priority next ∧ s.priority this < s.basePriority this then
          s.restorePriority bal this
        else some s
      some (some next, hasWaiters, s)

/-- `Svc::HighestThreadPriority` and `Svc::LowestThreadPriority`. -/
def highestThreadPriority : Int := 0

def lowestThreadPriority : Int := 63

def setBase (s : State T) (thread : T) (value : Int) : State T :=
  { s with basePriority := update s.basePriority thread value }

/-- `SetBasePriority`. -/
def setBasePriority (bal : Balancing T) (s : State T) (thread : T) (value : Int) :
    Option (State T) :=
  if highestThreadPriority ≤ value ∧ value ≤ lowestThreadPriority then
    (s.setBase thread value).restorePriority bal thread
  else none

/-- `IncreaseBasePriority`. -/
def increaseBasePriority (bal : Balancing T) (s : State T) (thread : T)
    (priority : Int) : Option (State T) :=
  if highestThreadPriority ≤ priority ∧ priority ≤ lowestThreadPriority then
    if priority < s.basePriority thread then
      (s.setBase thread priority).restorePriority bal thread
    else some s
  else none

/-! ## Keys -/

/-- `SetUserAddressKey`. -/
def setUserAddressKey (s : State T) (thread : T) (key : BitVec 64) (value : BitVec 32) :
    Option (State T) :=
  if s.waitingLockInfo thread ≠ none then none
  else
    some { s with
      addressKey := update s.addressKey thread key
      addressKeyValue := update s.addressKeyValue thread value
      isKernelAddressKey := update s.isKernelAddressKey thread false }

/-- `SetKernelAddressKey`. -/
def setKernelAddressKey (s : State T) (thread : T) (key : BitVec 64) : Option (State T) :=
  if s.waitingLockInfo thread ≠ none then none
  else
    some { s with
      addressKey := update s.addressKey thread key
      isKernelAddressKey := update s.isKernelAddressKey thread true }

/-- `SetConditionVariable`. -/
def setConditionVariable (s : State T) (thread : T) (tree : TreeId) (address cvKey : BitVec 64)
    (value : BitVec 32) : Option (State T) :=
  if s.waitingLockInfo thread ≠ none then none
  else
    some { s with
      conditionVariableTree := update s.conditionVariableTree thread (some tree)
      conditionVariableKey := update s.conditionVariableKey thread cvKey
      addressKey := update s.addressKey thread address
      addressKeyValue := update s.addressKeyValue thread value
      isKernelAddressKey := update s.isKernelAddressKey thread false }

/-- `SetAddressArbiter`. -/
def setAddressArbiter (s : State T) (thread : T) (tree : TreeId) (address : BitVec 64) :
    Option (State T) :=
  if s.waitingLockInfo thread ≠ none then none
  else
    some { s with
      conditionVariableTree := update s.conditionVariableTree thread (some tree)
      conditionVariableKey := update s.conditionVariableKey thread address }

/-- `ClearConditionVariable` and `ClearAddressArbiter`. -/
def clearConditionVariable (s : State T) (thread : T) : State T :=
  { s with conditionVariableTree := update s.conditionVariableTree thread none }

end State

end Sudachi.Kernel.ThreadLocks
