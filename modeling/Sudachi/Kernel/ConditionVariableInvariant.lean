import Sudachi.Kernel.ConditionVariable
import Sudachi.Kernel.ThreadLocksOperations

/-!
# Where a thread waits

A thread is idle, or it waits on one lock, or it waits in one tree (`Placed`). The operations of mutexes
and condition variables take a thread from one of these places to another and leave the others where
they are (`Unmoved`). While threads wait on a lock, the word in memory that the lock is for has
`HandleWaitMask` set.
-/

set_option autoImplicit false

namespace Sudachi.Kernel.ThreadLocks

open Sudachi.Foundations Sudachi.Foundations.WaitGraph Relation BitVec

/-- The tree of the threads that wait for a condition variable; the others belong to arbiters. -/
def conditionVariables : TreeId := 0

/-- A tag that a thread may name itself by. -/
structure ValidTag (value : BitVec 32) : Prop where
  ne_zero : value ≠ 0
  unmasked : value &&& handleWaitMask = 0

def HasWaitMask (tag : BitVec 32) : Prop :=
  tag &&& handleWaitMask ≠ 0

theorem hasWaitMask_or (tag : BitVec 32) : HasWaitMask (tag ||| handleWaitMask) := by
  have hself : (tag ||| handleWaitMask) &&& handleWaitMask = handleWaitMask := by
    ext i hi
    simp only [getElem_and, getElem_or]
    cases tag[i] <;> cases handleWaitMask[i] <;> rfl
  rw [HasWaitMask, hself]
  decide

theorem HasWaitMask.ne_zero {tag : BitVec 32} (h : HasWaitMask tag) : tag ≠ 0 := by
  rintro rfl
  exact h (by simp)

/-- What is left of a tag without the mask. -/
def holderOf (tag : BitVec 32) : Handle :=
  tag &&& ~~~ handleWaitMask

theorem holderOf_or (tag : BitVec 32) : holderOf (tag ||| handleWaitMask) = holderOf tag := by
  ext i hi
  simp only [holderOf, getElem_and, getElem_or, getElem_not]
  cases tag[i] <;> cases handleWaitMask[i] <;> rfl

theorem ValidTag.holderOf_eq {value : BitVec 32} (h : ValidTag value) : holderOf value = value := by
  have hbit : ∀ i (hi : i < 32), value[i] = true → handleWaitMask[i] = false := by
    intro i hi hv
    have hand := congrArg (fun x : BitVec 32 => x[i]) h.unmasked
    simpa [hv] using hand
  ext i hi
  simp only [holderOf, getElem_and, getElem_not]
  cases hv : value[i] with
  | false => rfl
  | true => rw [hbit i hi hv]; rfl

namespace Process

variable {T : Type}

/-! ## Places -/

structure Idle (p : Process T) (t : T) : Prop where
  state : p.threadState t ≠ .waiting
  owner : p.getLockOwner t = none
  tree : p.conditionVariableTree t = none

structure OnLock (p : Process T) (t : T) : Prop where
  state : p.threadState t = .waiting
  owner : p.getLockOwner t ≠ none
  tree : p.conditionVariableTree t = none
  queue : p.waitQueue t = some .waitForAddress ∨
    p.waitQueue t = some (.waitConditionVariable conditionVariables)
  kernel : p.isKernelAddressKey t = false
  value : ValidTag (p.addressKeyValue t)
  tag : HasWaitMask (p.memory (p.addressKey t))

/-- The queue of the threads in a tree. -/
def queueOf (tree : TreeId) : WaitQueue :=
  if tree = conditionVariables then .waitConditionVariable tree else .addressArbiter tree

structure InTree (p : Process T) (t : T) (c : TreeId) : Prop where
  state : p.threadState t = .waiting
  owner : p.getLockOwner t = none
  tree : p.conditionVariableTree t = some c
  queue : p.waitQueue t = some (queueOf c)
  kernel : c = conditionVariables → p.isKernelAddressKey t = false
  value : c = conditionVariables → ValidTag (p.addressKeyValue t)

def Placed (p : Process T) (t : T) : Prop :=
  p.Idle t ∨ p.OnLock t ∨ ∃ tree, p.InTree t tree

/-- A thread waits on a lock that is for the word at `address`. -/
def WaitsAt (p : Process T) (t : T) (address : BitVec 64) : Prop :=
  p.getLockOwner t ≠ none ∧ p.addressKey t = address

structure Invariant (p : Process T) : Prop where
  consistent : p.toState.Consistent
  keys : p.toState.KeysDistinct
  bounded : p.toState.AtLeast 0
  placed : ∀ t, p.Placed t

/-- A step that leaves `t` where it is. Its lock may have come to another owner. -/
structure Unmoved (p p' : Process T) (t : T) : Prop where
  state : p'.threadState t = p.threadState t
  queue : p'.waitQueue t = p.waitQueue t
  address : p'.addressKey t = p.addressKey t
  value : p'.addressKeyValue t = p.addressKeyValue t
  kernel : p'.isKernelAddressKey t = p.isKernelAddressKey t
  tree : p'.conditionVariableTree t = p.conditionVariableTree t
  owner : p'.getLockOwner t = none ↔ p.getLockOwner t = none
  tag : p.OnLock t → HasWaitMask (p'.memory (p.addressKey t))

section Places

variable {p p' : Process T} {t : T}

theorem Unmoved.placed (h : Unmoved p p' t) (hp : p.Placed t) : p'.Placed t := by
  rcases hp with hidle | hlock | ⟨tree, htree⟩
  · exact .inl ⟨h.state ▸ hidle.state, h.owner.mpr hidle.owner, h.tree.trans hidle.tree⟩
  · refine .inr (.inl ⟨h.state.trans hlock.state, fun hn => hlock.owner (h.owner.mp hn),
      h.tree.trans hlock.tree, h.queue ▸ hlock.queue, h.kernel.trans hlock.kernel,
      h.value ▸ hlock.value, ?_⟩)
    rw [h.address]
    exact h.tag hlock
  · exact .inr (.inr ⟨tree, h.state.trans htree.state, h.owner.mpr htree.owner,
      h.tree.trans htree.tree, h.queue.trans htree.queue, fun hc => h.kernel.trans (htree.kernel hc),
      fun hc => h.value ▸ htree.value hc⟩)

theorem Placed.idle (h : p.Placed t) (ht : p.threadState t ≠ .waiting) : p.Idle t := by
  rcases h with hidle | hlock | ⟨tree, htree⟩
  · exact hidle
  · exact absurd hlock.state ht
  · exact absurd htree.state ht

theorem Placed.onLock (h : p.Placed t) (ht : p.getLockOwner t ≠ none) : p.OnLock t := by
  rcases h with hidle | hlock | ⟨tree, htree⟩
  · exact absurd hidle.owner ht
  · exact hlock
  · exact absurd htree.owner ht

theorem Placed.inTree (h : p.Placed t) {tree : TreeId} (ht : p.conditionVariableTree t = some tree) :
    p.InTree t tree := by
  rcases h with hidle | hlock | ⟨tree', htree⟩
  · exact absurd (hidle.tree.symm.trans ht) (by simp)
  · exact absurd (hlock.tree.symm.trans ht) (by simp)
  · obtain rfl := Option.some.inj (htree.tree.symm.trans ht)
    exact htree

theorem Invariant.waitingLockInfo_eq_none (h : p.Invariant) (ht : p.getLockOwner t = none) :
    p.waitingLockInfo t = none :=
  h.consistent.wellFormed.getLockOwner_eq_none.mp ht

end Places

/-! ## Changes of the locks alone -/

section Locks

variable {p : Process T} {s' : State T}

/-- An operation on locks leaves a thread where it is when its owner is still there. -/
theorem unmoved_of_frame (hframe : State.Frame p.toState s') {t : T}
    (howner : s'.getLockOwner t = none ↔ p.getLockOwner t = none) :
    Unmoved p { p with toState := s' } t where
  state := rfl
  queue := rfl
  address := congrFun hframe.addressKey t
  value := congrFun hframe.addressKeyValue t
  kernel := congrFun hframe.isKernelAddressKey t
  tree := congrFun hframe.conditionVariableTree t
  owner := howner
  tag := fun h => h.tag

theorem Unmoved.trans {p p' p'' : Process T} {t : T} (h : Unmoved p p' t) (h' : Unmoved p' p'' t)
    (hp : p.Placed t) : Unmoved p p'' t where
  state := h'.state.trans h.state
  queue := h'.queue.trans h.queue
  address := h'.address.trans h.address
  value := h'.value.trans h.value
  kernel := h'.kernel.trans h.kernel
  tree := h'.tree.trans h.tree
  owner := h'.owner.trans h.owner
  tag := fun hlock => by
    have hlock' := (h.placed hp).onLock fun hn => hlock.owner (h.owner.mp hn)
    rw [← h.address]
    exact h'.tag hlock'

theorem memory_writeToUser (p : Process T) (address : BitVec 64) (value : BitVec 32) :
    (p.writeToUser address value).memory = Function.update p.memory address value :=
  rfl

variable [DecidableEq T]

theorem unmoved_beginWait (p : Process T) {t u : T} (queue : WaitQueue) (ht : t ≠ u) :
    Unmoved p (p.beginWait u queue) t where
  state := by simp [beginWait, ht]
  queue := by simp [beginWait, ht]
  address := rfl
  value := rfl
  kernel := rfl
  tree := rfl
  owner := .rfl
  tag := fun h => h.tag

theorem unmoved_wakeUp (p : Process T) {t u : T} (result : SvcResult) (ht : t ≠ u) :
    Unmoved p (p.wakeUp u result) t where
  state := by simp [wakeUp, ht]
  queue := by simp [wakeUp, ht]
  address := rfl
  value := rfl
  kernel := rfl
  tree := rfl
  owner := .rfl
  tag := fun h => h.tag

omit [DecidableEq T] in
/-- A store to memory that keeps the mask where threads wait. -/
theorem unmoved_writeToUser (p : Process T) (address : BitVec 64) (value : BitVec 32) {t : T}
    (hmask : p.OnLock t → p.addressKey t = address → HasWaitMask value) :
    Unmoved p (p.writeToUser address value) t where
  state := rfl
  queue := rfl
  address := rfl
  value := rfl
  kernel := rfl
  tree := rfl
  owner := .rfl
  tag := fun h => by
    by_cases heq : p.addressKey t = address
    · rw [heq, memory_writeToUser, Function.update_self]
      exact hmask h heq
    · rw [memory_writeToUser, Function.update_of_ne heq]
      exact h.tag

end Locks

end Process

end Sudachi.Kernel.ThreadLocks
