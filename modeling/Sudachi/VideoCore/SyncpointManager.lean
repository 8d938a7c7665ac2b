import Mathlib.Data.List.Sort
import Mathlib.Logic.Function.Basic
import Mathlib.Algebra.Order.Ring.Nat

/-!
# The actions of a syncpoint

`SyncpointManager` of `host1x/syncpoint_manager.cpp`, for one syncpoint. The counter is an atomic
word that `Increment` advances outside the lock; the list of registered actions is only touched
under the lock. A thread is therefore inside `Increment` with the value it has captured, inside
`RegisterAction` after a failed check without the lock, or in neither.

`step` is one atomic piece of one of these functions, by any thread, and `run` any interleaving of
them. Beside the fields of the source the state keeps what has happened: the value with which each
action was registered, the calls of actions, each with the counter at that moment, and the actions
that a `DeregisterAction` took out of the storage.
-/

set_option autoImplicit false

namespace Sudachi.VideoCore.SyncpointManager

open Function

/-- An element of `action_storage`. `node` is the address of its list node, which is what an
`ActionHandle` holds; `action` names the registration whose function it stores. -/
structure RegisteredAction where
  node : Nat
  expectedValue : Nat
  action : Nat
deriving DecidableEq, Repr

/-- One call of an action, with the value of the syncpoint when it was made. -/
structure Execution where
  action : Nat
  syncpoint : Nat
deriving DecidableEq, Repr

/-- Where a thread is: outside, after the atomic add of `Increment` with its `new_value`, or after
the failed unlocked check of `RegisterAction`. -/
inductive ThreadState where
  | idle
  | incrementing (newValue : Nat)
  | registering (expectedValue action : Nat)
deriving DecidableEq, Repr

/-- A syncpoint, its storage, the threads that use it, and the history of the run. The `i`-th
element of `registered` is the expected value of the `i`-th call of `RegisterAction`. -/
structure State (T : Type) where
  syncpoint : Nat
  actionStorage : List RegisteredAction
  threads : T → ThreadState
  registered : List Nat
  executed : List Execution
  deregistered : List Nat

/-- The members as they are constructed. -/
def State.initial (T : Type) : State T where
  syncpoint := 0
  actionStorage := []
  threads := fun _ => .idle
  registered := []
  executed := []
  deregistered := []

/-- The loop of `Increment`: the actions it calls, in order, and the storage it leaves. -/
def runReached (newValue : Nat) :
    List RegisteredAction → List RegisteredAction × List RegisteredAction
  | [] => ([], [])
  | it :: rest =>
    if it.expectedValue > newValue then ([], it :: rest)
    else (it :: (runReached newValue rest).1, (runReached newValue rest).2)

/-- The loop and the `emplace` of `RegisterAction`: in front of the first element that expects no
less. -/
def emplaceSorted (storage : List RegisteredAction) (new : RegisteredAction) :
    List RegisteredAction :=
  storage.orderedInsert (fun x it => x.expectedValue ≤ it.expectedValue) new

/-- The atomic pieces: the two of `Increment`, the two of `RegisterAction`, and
`DeregisterAction`. `node` is the address the allocator returns for the new list node. -/
inductive Step (T : Type) where
  | fetchAdd (thread : T)
  | runActions (thread : T)
  | checkUnlocked (thread : T) (expectedValue : Nat)
  | registerLocked (thread : T) (node : Nat)
  | deregister (handle : Nat)
deriving DecidableEq, Repr

section Steps

variable {T : Type} [DecidableEq T]

/-- `syncpoint.fetch_add(1) + 1`, on 32-bit words. -/
def State.fetchAdd (s : State T) (t : T) : State T :=
  { s with
    syncpoint := (s.syncpoint + 1) % 2 ^ 32
    threads := update s.threads t (.incrementing ((s.syncpoint + 1) % 2 ^ 32)) }

/-- The locked part of `Increment`. -/
def State.runActions (s : State T) (t : T) (newValue : Nat) : State T :=
  { s with
    actionStorage := (runReached newValue s.actionStorage).2
    threads := update s.threads t .idle
    executed := s.executed ++
      (runReached newValue s.actionStorage).1.map (fun it => ⟨it.action, s.syncpoint⟩) }

/-- The call of the action in `RegisterAction`, after either check. -/
def State.execute (s : State T) (action : Nat) : State T :=
  { s with executed := s.executed ++ [⟨action, s.syncpoint⟩] }

/-- The start of a call of `RegisterAction` with its check outside the lock. -/
def State.checkUnlocked (s : State T) (t : T) (expectedValue : Nat) : State T :=
  let called := { s with registered := s.registered ++ [expectedValue] }
  if s.syncpoint ≥ expectedValue then called.execute s.registered.length
  else { called with
    threads := update s.threads t (.registering expectedValue s.registered.length) }

/-- The locked part of `RegisterAction`. -/
def State.registerLocked (s : State T) (t : T) (node expectedValue action : Nat) : State T :=
  let done := { s with threads := update s.threads t .idle }
  if s.syncpoint ≥ expectedValue then done.execute action
  else { done with actionStorage := emplaceSorted s.actionStorage ⟨node, expectedValue, action⟩ }

/-- `DeregisterAction`: the first node that is the handle's is erased. -/
def State.deregister (s : State T) (handle : Nat) : State T :=
  match s.actionStorage.find? (fun it => it.node = handle) with
  | none => s
  | some it =>
    { s with
      actionStorage := s.actionStorage.eraseP (fun it => it.node = handle)
      deregistered := s.deregistered ++ [it.action] }

/-- One piece, where the thread is at the point it belongs to. The allocator does not return the
address of a node that is still in the list; it may return that of an erased one. -/
def step (s : State T) : Step T → Option (State T)
  | .fetchAdd t =>
    match s.threads t with
    | .idle => some (s.fetchAdd t)
    | _ => none
  | .runActions t =>
    match s.threads t with
    | .incrementing newValue => some (s.runActions t newValue)
    | _ => none
  | .checkUnlocked t expectedValue =>
    match s.threads t with
    | .idle => some (s.checkUnlocked t expectedValue)
    | _ => none
  | .registerLocked t node =>
    match s.threads t with
    | .registering expectedValue action =>
      if node ∈ s.actionStorage.map RegisteredAction.node then none
      else some (s.registerLocked t node expectedValue action)
    | _ => none
  | .deregister handle => some (s.deregister handle)

/-- An interleaving, from a state. -/
def run (s : State T) : List (Step T) → Option (State T)
  | [] => some s
  | i :: is => (step s i).bind (fun s' => run s' is)

end Steps

/-- Whether a piece is the atomic add of an `Increment`. -/
def Step.IsFetchAdd {T : Type} : Step T → Bool
  | .fetchAdd _ => true
  | _ => false

/-- The number of increments of an interleaving. -/
def increments {T : Type} (is : List (Step T)) : Nat :=
  is.countP Step.IsFetchAdd

/-- The calls made so far of one action. -/
def State.calls {T : Type} (s : State T) (action : Nat) : Nat :=
  (s.executed.map Execution.action).count action

/-- What the syncpoint promises for its actions. -/
structure Sound {T : Type} (s : State T) : Prop where
  /-- The storage is sorted by expected value. -/
  sorted : s.actionStorage.Pairwise (fun x y => x.expectedValue ≤ y.expectedValue)
  /-- No action is called twice. -/
  once : ∀ a, s.calls a ≤ 1
  /-- No action is called before the counter has reached its expected value. -/
  notBefore : ∀ x ∈ s.executed, ∃ expectedValue,
    s.registered[x.action]? = some expectedValue ∧ expectedValue ≤ x.syncpoint
  /-- An action that was deregistered while stored is not called. -/
  dropped : ∀ a ∈ s.deregistered, s.calls a = 0
  /-- When no thread is inside, nothing that the counter has reached is stored. -/
  nothingLeft : (∀ t, s.threads t = .idle) → ∀ x ∈ s.actionStorage, s.syncpoint < x.expectedValue
  /-- When no thread is inside, every other action that the counter has reached has been called
  once, and those it has not reached are stored. -/
  complete : (∀ t, s.threads t = .idle) → ∀ a expectedValue,
    s.registered[a]? = some expectedValue → a ∉ s.deregistered →
      if expectedValue ≤ s.syncpoint then s.calls a = 1
      else s.calls a = 0 ∧ a ∈ s.actionStorage.map RegisteredAction.action

end Sudachi.VideoCore.SyncpointManager
