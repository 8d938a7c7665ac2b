import Sudachi.Kernel.ThreadLocksOperations

/-!
# Runs of the operations on locks

Threads that add and remove waiters, hand locks over and change base priorities in any order, where no
thread comes to wait for itself. In every state of such a run every thread has the priority it inherits,
and the trees, owners and counters of the locks agree with each other (`reachable_inherits`).
-/

set_option autoImplicit false

namespace Sudachi.Kernel.ThreadLocks

open Sudachi.Foundations Sudachi.Foundations.WaitGraph Relation List
open SearchTree (Balancing rebuilding toList)

namespace State

variable {T : Type}

/-- No thread waits for anything. -/
structure Initial (s : State T) : Prop where
  priority : s.priority = s.basePriority
  held : ∀ t, s.heldLockInfoList t = []
  waiting : ∀ t, s.waitingLockInfo t = none
  kernelWaiters : ∀ t, s.numKernelWaiters t = 0
  conditionVariable : ∀ t, s.conditionVariableTree t = none
  condvarTree : ∀ c, s.condvarTree c = .leaf
  lockTree : ∀ l, s.lockTree l = .leaf
  waiterCount : ∀ l, s.lockWaiterCount l = 0
  insertTime : ∀ t, s.insertTime t < s.time

theorem Initial.getLockOwner_eq {s : State T} (h : s.Initial) : s.getLockOwner = fun _ => none := by
  funext t
  rw [getLockOwner, h.waiting, Option.bind_none]

theorem Initial.consistent {s : State T} (h : s.Initial) : s.Consistent := by
  have howner := h.getLockOwner_eq
  have hwaiters : ∀ l, s.waiters l = [] := fun l => by rw [waiters, h.lockTree, toList]
  have htree : ∀ c, (s.condvarTree c).toList = [] := fun c => by
    rw [h.condvarTree, toList]
  refine ⟨?_, ?_, fun t => ?_⟩
  · constructor
    case condvar =>
      constructor
      case mem_iff => simp [htree, h.conditionVariable]
      case nodup => simp [htree]
      case sorted => simp [htree]
      case insertTime_lt => exact h.insertTime
    case waiterCount_eq => simp [h.waiterCount, hwaiters]
    case numKernelWaiters_eq => simp [h.kernelWaiters, h.held]
    all_goals simp [h.held, h.waiting, hwaiters]
  · simp [NoEmptyLock, h.held]
  · rw [Inherited, Inherits, Inheritable, howner, h.priority]
    simp

variable [DecidableEq T] [Fintype T]

/-! ## Runs -/

/-- What happens to the threads: the operations on locks, and what sets the keys that they wait for or
puts them into the trees of condition variables and arbiters. -/
inductive Operation (T : Type) where
  | addWaiter (this thread : T)
  | removeWaiter (this thread : T)
  | removeWaiterByKey (this : T) (key : BitVec 64) (isKernelAddressKey : Bool)
  | setBasePriority (thread : T) (value : Int)
  | increaseBasePriority (thread : T) (priority : Int)
  | setUserAddressKey (thread : T) (key : BitVec 64) (value : BitVec 32)
  | setKernelAddressKey (thread : T) (key : BitVec 64)
  | waitConditionVariable (thread : T) (tree : TreeId) (address cvKey : BitVec 64)
      (value : BitVec 32)
  | waitAddressArbiter (thread : T) (tree : TreeId) (address : BitVec 64)
  | leaveTree (thread : T)

def apply (bal : Balancing T) (s : State T) : Operation T → Option (State T)
  | .addWaiter this thread => s.addWaiter bal this thread
  | .removeWaiter this thread => s.removeWaiter bal this thread
  | .removeWaiterByKey this key isKernelAddressKey =>
    (s.removeWaiterByKey bal this key isKernelAddressKey).map fun result => result.2.2
  | .setBasePriority thread value => s.setBasePriority bal thread value
  | .increaseBasePriority thread priority => s.increaseBasePriority bal thread priority
  | .setUserAddressKey thread key value => s.setUserAddressKey thread key value
  | .setKernelAddressKey thread key => s.setKernelAddressKey thread key
  | .waitConditionVariable thread tree address cvKey value =>
    (s.setConditionVariable thread tree address cvKey value).map fun s =>
      s.insertCondvar bal tree thread
  | .waitAddressArbiter thread tree address =>
    (s.setAddressArbiter thread tree address).map fun s => s.insertCondvar bal tree thread
  | .leaveTree thread =>
    (s.conditionVariableTree thread).map fun tree =>
      (s.eraseCondvar bal tree thread).clearConditionVariable thread

/-- When an operation may be called: a thread waits for one thing at a time, a waiter is removed from
the thread it waits for, priorities are those of user threads, and the new waiter of `AddWaiter` is not
among the threads that its owner waits for. -/
def Allowed (s : State T) : Operation T → Prop
  | .addWaiter this thread =>
    s.waitingLockInfo thread = none ∧ s.conditionVariableTree thread = none ∧
      ¬ ReflTransGen (WaitsFor s.getLockOwner) this thread
  | .removeWaiter this thread => s.getLockOwner thread = some this
  | .removeWaiterByKey _ _ _ => True
  | .setBasePriority _ value | .increaseBasePriority _ value =>
    highestThreadPriority ≤ value ∧ value ≤ lowestThreadPriority
  | .setUserAddressKey thread _ _ | .setKernelAddressKey thread _ =>
    s.waitingLockInfo thread = none
  | .waitConditionVariable thread _ _ _ _ | .waitAddressArbiter thread _ _ =>
    s.waitingLockInfo thread = none ∧ s.conditionVariableTree thread = none
  | .leaveTree thread => s.conditionVariableTree thread ≠ none

theorem apply_spec (bal : Balancing T) {s : State T} (h : s.Consistent)
    (hacyclic : Acyclic s.getLockOwner) {op : Operation T} (hop : s.Allowed op) :
    ∃ s', s.apply bal op = some s' ∧ s'.Consistent ∧ Acyclic s'.getLockOwner := by
  cases op with
  | addWaiter this thread =>
    obtain ⟨hw, htree, hcycle⟩ := hop
    obtain ⟨s', hs', h', -, howner⟩ := addWaiter_spec bal h this hw htree
    exact ⟨s', hs', h', howner ▸ hacyclic.update_some hcycle⟩
  | removeWaiter this thread =>
    obtain ⟨s', hs', h', -, -, howner⟩ := removeWaiter_spec bal h hop
    exact ⟨s', hs', h', howner ▸ hacyclic.update_none thread⟩
  | removeWaiterByKey this key isKernelAddressKey =>
    cases hfind : s.findHeldLock this key isKernelAddressKey with
    | none => exact ⟨s, by simp [apply, removeWaiterByKey, hfind], h, hacyclic⟩
    | some l =>
      have hself : s.waitingLockInfo this ≠ some l := by
        intro hw
        have howner : s.getLockOwner this = some this :=
          h.wellFormed.getLockOwner_iff.mpr ⟨l, hw, mem_of_find?_eq_some hfind⟩
        exact hacyclic.owner_ne howner rfl
      obtain ⟨next, rest, s', -, hs', h', -, -, hover⟩ := removeWaiterByKey_spec bal h hfind hself
      exact ⟨s', by simp [apply, hs'], h', hover.acyclic hacyclic⟩
  | setBasePriority thread value =>
    obtain ⟨s', hs', h', -, -, howner⟩ := restorePriority_setBase_spec bal h thread value
    rw [Allowed] at hop
    exact ⟨s', by rw [apply, setBasePriority, if_pos hop, hs'], h', howner ▸ hacyclic⟩
  | increaseBasePriority thread priority =>
    obtain ⟨s', hs', h', -, -, howner⟩ := restorePriority_setBase_spec bal h thread priority
    rw [Allowed] at hop
    rw [apply, increaseBasePriority, if_pos hop]
    by_cases hlt : priority < s.basePriority thread
    · exact ⟨s', by rw [if_pos hlt, hs'], h', howner ▸ hacyclic⟩
    · exact ⟨s, by rw [if_neg hlt], h, hacyclic⟩
  | setUserAddressKey thread key value =>
    obtain ⟨s', hs', h', heq⟩ := h.setUserAddressKey hop key value
    exact ⟨s', hs', h', heq ▸ hacyclic⟩
  | setKernelAddressKey thread key =>
    obtain ⟨s', hs', h', howner⟩ := h.setKernelAddressKey hop key
    exact ⟨s', hs', h', howner ▸ hacyclic⟩
  | waitConditionVariable thread tree address cvKey value =>
    obtain ⟨s', hs', h', heq⟩ := h.setConditionVariable bal hop.1 hop.2 tree address cvKey value
    have howner : (s'.insertCondvar bal tree thread).getLockOwner = s.getLockOwner := by
      rw [heq]
      rfl
    exact ⟨_, by rw [apply, hs', Option.map_some], h', howner ▸ hacyclic⟩
  | waitAddressArbiter thread tree address =>
    obtain ⟨s', hs', h', heq⟩ := h.setAddressArbiter bal hop.1 hop.2 tree address
    have howner : (s'.insertCondvar bal tree thread).getLockOwner = s.getLockOwner := by
      rw [heq]
      rfl
    exact ⟨_, by rw [apply, hs', Option.map_some], h', howner ▸ hacyclic⟩
  | leaveTree thread =>
    obtain ⟨c, hc⟩ := Option.ne_none_iff_exists'.mp hop
    exact ⟨_, by rw [apply, hc, Option.map_some], h.leaveTree bal hc, hacyclic⟩

inductive Reachable (bal : Balancing T) : State T → Prop where
  | initial {s : State T} (h : s.Initial) : Reachable bal s
  | step {s s' : State T} {op : Operation T} (h : Reachable bal s) (hop : s.Allowed op)
      (hs' : s.apply bal op = some s') : Reachable bal s'

theorem Reachable.consistent {bal : Balancing T} {s : State T} (h : Reachable bal s) :
    s.Consistent ∧ Acyclic s.getLockOwner := by
  induction h with
  | initial h => exact ⟨h.consistent, h.getLockOwner_eq ▸ acyclic_none⟩
  | step _ hop hs' ih =>
    obtain ⟨s'', hs'', h''⟩ := apply_spec bal ih.1 ih.2 hop
    rw [hs', Option.some.injEq] at hs''
    exact hs'' ▸ h''

/-! ## The facts of every state -/

variable {s : State T}

section

omit [DecidableEq T] [Fintype T]

theorem sum_kernelWeight (s : State T) (L : List LockId) : (L.map s.kernelWeight).sum =
      (((L.filter s.lockIsKernelAddressKey).flatMap s.waiters).length : Int) := by
  induction L with
  | nil => rfl
  | cons l L ih =>
    rw [map_cons, sum_cons, ih, kernelWeight]
    cases hl : s.lockIsKernelAddressKey l with
    | true => simp [hl]
    | false => simp [hl]

theorem WellFormed.nodup_flatMap_waiters (h : s.WellFormed) {L : List LockId} (hL : L.Nodup) :
    (L.flatMap s.waiters).Nodup := by
  refine nodup_flatMap.mpr ⟨fun l _ => h.waiters_nodup l, hL.imp fun hne w hw hw' => hne ?_⟩
  have heq := ((h.mem_waiters _ w).mp hw).symm.trans ((h.mem_waiters _ w).mp hw')
  exact Option.some.inj heq

end

/-- The threads that wait on a kernel lock of `t`. -/
def kernelWaiters (s : State T) (t : T) : Finset T :=
  Finset.univ.filter fun w =>
    ∃ l ∈ s.heldLockInfoList t, s.lockIsKernelAddressKey l = true ∧ w ∈ s.waiters l

theorem WellFormed.numKernelWaiters_eq_card (h : s.WellFormed) (t : T) :
    s.numKernelWaiters t = ((s.kernelWaiters t).card : Int) := by
  have hnodup := h.nodup_flatMap_waiters ((h.held_nodup t).filter s.lockIsKernelAddressKey)
  have hset : s.kernelWaiters t =
      (((s.heldLockInfoList t).filter s.lockIsKernelAddressKey).flatMap s.waiters).toFinset := by
    ext w
    simp [kernelWaiters, and_assoc]
  rw [h.numKernelWaiters_eq, sum_kernelWeight, hset, toFinset_card_of_nodup hnodup]

omit [DecidableEq T] [Fintype T] in
/-- Of every lock only the first waiter counts. -/
theorem WellFormed.isLeast_fronts (h : s.WellFormed) (hempty : s.NoEmptyLock) {t : T}
    (hinherited : s.Inherited t) : IsLeast (insert (s.basePriority t)
      {p | ∃ l ∈ s.heldLockInfoList t, ∃ w, s.getHighestPriorityWaiter l = some w ∧
        s.priority w = p}) (s.priority t) := by
  rw [Inherited, Inherits, h.inheritable_eq] at hinherited
  obtain ⟨hmem, hlow⟩ := hinherited
  constructor
  · rcases hmem with heq | ⟨l, hl, w, hw, heq⟩
    · exact .inl heq
    · -- the front of the lock is as urgent as the waiter that the priority is inherited from
      obtain ⟨front, rest, hwaiters⟩ := exists_cons_of_ne_nil (hempty t l hl)
      have hfront : s.getHighestPriorityWaiter l = some front := by
        rw [getHighestPriorityWaiter, show (s.lockTree l).toList = front :: rest from hwaiters,
          head?_cons]
      have hle : s.priority front ≤ s.priority t := heq ▸ priority_front_le h hfront hw
      have hge : s.priority t ≤ s.priority front :=
        hlow (.inr ⟨l, hl, front, by simp [hwaiters], rfl⟩)
      exact .inr ⟨l, hl, front, hfront, le_antisymm hle hge⟩
  · rintro p (rfl | ⟨l, hl, w, hw, rfl⟩)
    · exact hlow (.inl rfl)
    · exact hlow (.inr ⟨l, hl, w, mem_of_head? hw, rfl⟩)

/-- In every state of a run: a thread has the least of its base priority and of the priorities of the
front waiters of the locks that it holds, which all have one; the waiters of a lock are sorted by
priority; a lock that is waited on has one owner, and is in the list of that owner alone; the counters
are right; and every operation that may be called comes to an end. -/
theorem reachable_inherits {bal : Balancing T} (h : Reachable bal s) :
    (∀ t, IsLeast (insert (s.basePriority t)
      {p | ∃ l ∈ s.heldLockInfoList t, ∃ w, s.getHighestPriorityWaiter l = some w ∧
        s.priority w = p}) (s.priority t)) ∧
    (∀ t, ∀ l ∈ s.heldLockInfoList t, s.getHighestPriorityWaiter l ≠ none) ∧
    (∀ l, (s.lockTree l).toList.Pairwise fun a b => s.priority a ≤ s.priority b) ∧
    (∀ w l, s.waitingLockInfo w = some l → w ∈ (s.lockTree l).toList ∧
      ∃ t, s.lockOwner l = some t ∧ ∀ u, l ∈ s.heldLockInfoList u ↔ u = t) ∧
    (∀ l, s.lockWaiterCount l = (s.lockTree l).toList.length) ∧
    (∀ t, s.numKernelWaiters t = ((s.kernelWaiters t).card : Int)) ∧
    ∀ op, s.Allowed op → ∃ s', s.apply bal op = some s' ∧ Reachable bal s' := by
  obtain ⟨hconsistent, hacyclic⟩ := h.consistent
  have hwf := hconsistent.wellFormed
  refine ⟨fun t => hwf.isLeast_fronts hconsistent.noEmptyLock (hconsistent.inherited t),
    fun t l hl => ?_, hwf.waiters_sorted, fun w l hw => ?_, hwf.waiterCount_eq,
    hwf.numKernelWaiters_eq_card, fun op hop => ?_⟩
  · rw [getHighestPriorityWaiter, ne_eq, head?_eq_none_iff]
    exact hconsistent.noEmptyLock t l hl
  · obtain ⟨t, ht⟩ := hwf.waiting_held w l hw
    refine ⟨(hwf.mem_waiters l w).mpr hw, t, hwf.held_owner t l ht, fun u => ⟨fun hu => ?_, ?_⟩⟩
    · exact hwf.eq_of_held hu ht
    · rintro rfl
      exact ht
  · obtain ⟨s', hs', -⟩ := apply_spec bal hconsistent hacyclic hop
    exact ⟨s', hs', h.step hop hs'⟩

instance neZero_three : NeZero 3 := ⟨by decide⟩

/-- Threads 0, 1 and 2 of the base priorities 30, 40 and 20, before any of them waits. -/
def idle : State (Fin 3) where
  basePriority := ![30, 40, 20]
  priority := ![30, 40, 20]
  addressKey := fun _ => 0
  addressKeyValue := fun _ => 0
  isKernelAddressKey := fun _ => false
  heldLockInfoList := fun _ => []
  waitingLockInfo := fun _ => none
  numKernelWaiters := fun _ => 0
  conditionVariableTree := fun _ => none
  conditionVariableKey := fun _ => 0
  condvarTree := fun _ => .leaf
  insertTime := fun _ => 0
  time := 1
  lockTree := fun _ => .leaf
  lockAddressKey := fun _ => 0
  lockIsKernelAddressKey := fun _ => false
  lockOwner := fun _ => none
  lockWaiterCount := fun _ => 0
  nextLock := 0

/-- Thread 1 has come to wait for thread 0 in a lock at an address of user memory. -/
def oneWaiting : State (Fin 3) :=
  ((idle.apply rebuilding (.setUserAddressKey 1 0x1000 0)).bind fun s =>
    s.apply rebuilding (.addWaiter 0 1)).getD idle

/-- Thread 2 has come to wait for thread 1 in a lock of the kernel. -/
def twoWaiting : State (Fin 3) :=
  ((oneWaiting.apply rebuilding (.setKernelAddressKey 2 0x2000)).bind fun s =>
    s.apply rebuilding (.addWaiter 1 2)).getD idle

theorem reachable_inherits_twoWaiting :
    (twoWaiting.priority 0 = 20 ∧ twoWaiting.priority 1 = 20 ∧ twoWaiting.numKernelWaiters 1 = 1) ∧
      IsLeast (insert (twoWaiting.basePriority 0)
        {p | ∃ l ∈ twoWaiting.heldLockInfoList 0, ∃ w,
          twoWaiting.getHighestPriorityWaiter l = some w ∧ twoWaiting.priority w = p}) 20 := by
  have hidle : Reachable rebuilding idle :=
    .initial ⟨rfl, fun _ => rfl, fun _ => rfl, fun _ => rfl, fun _ => rfl, fun _ => rfl,
      fun _ => rfl, fun _ => rfl, fun _ => Nat.one_pos⟩
  have hone : Reachable rebuilding oneWaiting := by
    have hkey := Reachable.step hidle (show idle.Allowed (.setUserAddressKey 1 0x1000 0) from rfl) rfl
    exact Reachable.step hkey (show Allowed _ (.addWaiter 0 1) from
      ⟨rfl, rfl, not_reaches_of_none rfl (by decide)⟩) rfl
  have htwo : Reachable rebuilding twoWaiting := by
    have hkey := Reachable.step hone
      (show oneWaiting.Allowed (.setKernelAddressKey 2 0x2000) from rfl) rfl
    refine Reachable.step hkey (show Allowed _ (.addWaiter 1 2) from ⟨rfl, rfl, fun h => ?_⟩) rfl
    -- thread 1 waits for thread 0, and thread 0 for none
    rcases ReflTransGen.cases_head h with h | ⟨t, ht, h⟩
    · exact absurd h (by decide)
    · obtain rfl : (0 : Fin 3) = t := Option.some.inj ht
      exact not_reaches_of_none rfl (by decide) h
  have hspec := (reachable_inherits htwo).1 0
  exact ⟨by decide, hspec⟩

/-- In every state of a run a thread has the base priority of the most urgent of those that wait for
it, directly or not, and of itself. -/
theorem reachable_mostUrgent {bal : Balancing T} (h : Reachable bal s) (t : T) :
    IsLeast (s.basePriority '' {u | ReflTransGen (WaitsFor s.getLockOwner) u t})
      (s.priority t) := by
  obtain ⟨hconsistent, hacyclic⟩ := h.consistent
  exact hacyclic.isLeast_base hconsistent.inherited t

/-- Thread 0 has the priority of thread 2, which waits for it. -/
theorem reachable_mostUrgent_waiting : ∃ s : State (Fin 3), s.priority 0 = 20 ∧
    IsLeast (s.basePriority '' {u | ReflTransGen (WaitsFor s.getLockOwner) u 0}) 20 := by
  have hidle : Reachable rebuilding idle :=
    .initial ⟨rfl, fun _ => rfl, fun _ => rfl, fun _ => rfl, fun _ => rfl, fun _ => rfl,
      fun _ => rfl, fun _ => rfl, fun _ => one_pos⟩
  have hkey := hidle.step (show idle.Allowed (.setUserAddressKey 2 0x1000 0) from rfl) rfl
  have hwait := hkey.step (show Allowed _ (.addWaiter 0 2) from
    ⟨rfl, rfl, not_reaches_of_none rfl (by decide)⟩) rfl
  exact ⟨_, rfl, reachable_mostUrgent hwait 0⟩

end State

end Sudachi.Kernel.ThreadLocks
