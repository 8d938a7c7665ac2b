import Sudachi.Kernel.ThreadLocksInvariant

/-!
# Priority inheritance

What `AddWaiterImpl`, `RemoveWaiterImpl` and the hand-over of a lock do to the wait-for graph, and that
`RestorePriority` makes every thread inherit again: one turn of its loop sets the thread right that it
is at, and leaves only the thread above it to be set right.
-/

set_option autoImplicit false

namespace Sudachi.Kernel.ThreadLocks

open Sudachi.Foundations Sudachi.Foundations.WaitGraph Relation List Function
open SearchTree (Balancing)
open Function (update)

namespace State

variable {T : Type} [DecidableEq T]

/-- What the operations on locks leave as it is. -/
structure Frame (s s' : State T) : Prop where
  basePriority : s'.basePriority = s.basePriority
  addressKey : s'.addressKey = s.addressKey
  addressKeyValue : s'.addressKeyValue = s.addressKeyValue
  isKernelAddressKey : s'.isKernelAddressKey = s.isKernelAddressKey
  conditionVariableTree : s'.conditionVariableTree = s.conditionVariableTree
  conditionVariableKey : s'.conditionVariableKey = s.conditionVariableKey

/-- A step that leaves the priorities as they are, too. -/
structure Steady (s s' : State T) : Prop extends Frame s s' where
  priority : s'.priority = s.priority
  condvarTree : s'.condvarTree = s.condvarTree

variable {s s' s'' : State T}

section

omit [DecidableEq T]

theorem Frame.refl (s : State T) : Frame s s :=
  ⟨rfl, rfl, rfl, rfl, rfl, rfl⟩

theorem Frame.trans (h : Frame s s') (h' : Frame s' s'') : Frame s s'' where
  basePriority := h'.basePriority.trans h.basePriority
  addressKey := h'.addressKey.trans h.addressKey
  addressKeyValue := h'.addressKeyValue.trans h.addressKeyValue
  isKernelAddressKey := h'.isKernelAddressKey.trans h.isKernelAddressKey
  conditionVariableTree := h'.conditionVariableTree.trans h.conditionVariableTree
  conditionVariableKey := h'.conditionVariableKey.trans h.conditionVariableKey

theorem Steady.trans (h : Steady s s') (h' : Steady s' s'') : Steady s s'' where
  toFrame := h.toFrame.trans h'.toFrame
  priority := h'.priority.trans h.priority
  condvarTree := h'.condvarTree.trans h.condvarTree

end

theorem steady_leave (bal : Balancing T) (s : State T) (this : T) (l : LockId) (w : T) :
    Steady s (s.leave bal this l w) :=
  ⟨⟨rfl, rfl, rfl, rfl, rfl, rfl⟩, rfl, rfl⟩

theorem steady_eraseHeldLock (s : State T) (this : T) (l : LockId) :
    Steady s (s.eraseHeldLock this l) :=
  ⟨⟨rfl, rfl, rfl, rfl, rfl, rfl⟩, rfl, rfl⟩

theorem steady_transfer (s : State T) (this next : T) (l : LockId) :
    Steady s (s.transfer this next l) :=
  ⟨⟨rfl, rfl, rfl, rfl, rfl, rfl⟩, rfl, rfl⟩

/-- No thread holds two locks with one key. -/
def KeysDistinct (s : State T) : Prop :=
  ∀ t, ∀ l ∈ s.heldLockInfoList t, ∀ m ∈ s.heldLockInfoList t,
    s.lockAddressKey l = s.lockAddressKey m →
    s.lockIsKernelAddressKey l = s.lockIsKernelAddressKey m → l = m

/-- A step that leaves the priorities and the places in the trees alone, but for the threads with
`reach`. -/
structure Local (s s' : State T) (reach : T → Prop) : Prop extends Frame s s' where
  keys : s.KeysDistinct → s'.KeysDistinct
  priority_eq : ∀ u, ¬ reach u → s'.priority u = s.priority u
  tree_eq : ∀ c (P : T → Bool), (∀ u, P u = true → ¬ reach u) →
    (s'.condvarTree c).toList.filter P = (s.condvarTree c).toList.filter P

section

omit [DecidableEq T]

theorem Local.refl (s : State T) (reach : T → Prop) : Local s s reach :=
  ⟨.refl s, id, fun _ _ => rfl, fun _ _ _ => rfl⟩

theorem Local.trans {reach reach' : T → Prop} (h : Local s s' reach)
    (h' : Local s' s'' reach') (hsub : ∀ u, reach' u → reach u) : Local s s'' reach where
  toFrame := h.toFrame.trans h'.toFrame
  keys := fun hkeys => h'.keys (h.keys hkeys)
  priority_eq := fun u hu => (h'.priority_eq u fun hr => hu (hsub u hr)).trans (h.priority_eq u hu)
  tree_eq := fun c P hP => by
    rw [h'.tree_eq c P fun u hu hr => hP u hu (hsub u hr), h.tree_eq c P hP]

theorem Steady.local (h : Steady s s') (reach : T → Prop)
    (hkeys : s.KeysDistinct → s'.KeysDistinct) : Local s s' reach where
  toFrame := h.toFrame
  keys := hkeys
  priority_eq := fun u _ => congrFun h.priority u
  tree_eq := fun c P _ => by rw [h.condvarTree]

end

/-! ## The wait-for graph -/

section Graph

variable {s : State T} {this next w : T} {l : LockId} {bal : Balancing T}

theorem getLockOwner_newLock (h : s.WellFormed) (this : T) (key : BitVec 64) (isKernel : Bool) :
    (s.newLock this key isKernel).getLockOwner = s.getLockOwner := by
  funext v
  have hwaiting : (s.newLock this key isKernel).waitingLockInfo v = s.waitingLockInfo v := rfl
  rw [getLockOwner, getLockOwner, hwaiting]
  cases hv : s.waitingLockInfo v with
  | none => rfl
  | some m =>
    obtain ⟨t, ht⟩ := h.waiting_held v m hv
    have hne : m ≠ s.nextLock := fun heq => h.nextLock_not_held t (heq ▸ ht)
    simp [newLock, create, addHeldLock, hne]

theorem getLockOwner_join (hl : s.lockOwner l = some this) :
    (s.join bal this l w).getLockOwner = update s.getLockOwner w (some this) := by
  funext v
  have howner : (s.join bal this l w).lockOwner = s.lockOwner := rfl
  rw [getLockOwner, waitingLockInfo_join, howner]
  by_cases hv : v = w
  · simp [hv, hl]
  · simp [hv, getLockOwner]

theorem getLockOwner_leave :
    (s.leave bal this l w).getLockOwner = update s.getLockOwner w none := by
  funext v
  have howner : (s.leave bal this l w).lockOwner = s.lockOwner := rfl
  rw [getLockOwner, waitingLockInfo_leave, howner]
  by_cases hv : v = w
  · simp [hv]
  · simp [hv, getLockOwner]

theorem getLockOwner_transfer (v : T) : (s.transfer this next l).getLockOwner v =
      if s.waitingLockInfo v = some l then some next else s.getLockOwner v := by
  have hwaiting : (s.transfer this next l).waitingLockInfo v = s.waitingLockInfo v := rfl
  have howner : (s.transfer this next l).lockOwner = update s.lockOwner l (some next) := rfl
  rw [getLockOwner, hwaiting, howner, getLockOwner]
  cases hv : s.waitingLockInfo v with
  | none => simp
  | some m =>
    by_cases hm : m = l
    · simp [hm]
    · simp [hm]

end Graph

/-! ## `AddWaiterImpl` and `RemoveWaiterImpl` -/

section Waiters

variable {s : State T} {this thread : T} {bal : Balancing T}

section

omit [DecidableEq T]

theorem kernelWeight_nonneg (s : State T) (l : LockId) : 0 ≤ s.kernelWeight l := by
  unfold kernelWeight
  split <;> simp

theorem WellFormed.numKernelWaiters_nonneg (h : s.WellFormed) (t : T) :
    0 ≤ s.numKernelWaiters t := by
  rw [h.numKernelWaiters_eq]
  refine sum_nonneg fun n hn => ?_
  obtain ⟨l, -, rfl⟩ := mem_map.mp hn
  exact s.kernelWeight_nonneg l

theorem WellFormed.kernelWeight_le (h : s.WellFormed) {t : T} {l : LockId}
    (hl : l ∈ s.heldLockInfoList t) : s.kernelWeight l ≤ s.numKernelWaiters t := by
  rw [h.numKernelWaiters_eq]
  refine single_le_sum (fun n hn => ?_) _ (mem_map_of_mem hl)
  obtain ⟨m, -, rfl⟩ := mem_map.mp hn
  exact s.kernelWeight_nonneg m

end

theorem findOrCreateLock_cases (s : State T) (this : T) (key : BitVec 64) (isKernel : Bool) :
    (∃ l ∈ s.heldLockInfoList this, s.lockAddressKey l = key ∧
      s.lockIsKernelAddressKey l = isKernel ∧
      s.findOrCreateLock this key isKernel = (l, s)) ∨
    s.findHeldLock this key isKernel = none ∧
      s.findOrCreateLock this key isKernel = (s.nextLock, s.newLock this key isKernel) := by
  rw [findOrCreateLock]
  cases hfind : s.findHeldLock this key isKernel with
  | some l =>
    have hl := find?_some hfind
    simp only [decide_eq_true_eq] at hl
    exact .inl ⟨l, mem_of_find?_eq_some hfind, hl.1, hl.2, rfl⟩
  | none => exact .inr ⟨rfl, rfl⟩

/-- A new lock for a key that no held lock has. -/
theorem KeysDistinct.newLock (hkeys : s.KeysDistinct) (h : s.WellFormed) {key : BitVec 64}
    {isKernel : Bool} (hfind : s.findHeldLock this key isKernel = none) :
    (s.newLock this key isKernel).KeysDistinct := by
  have hnone : ∀ m ∈ s.heldLockInfoList this,
      ¬ (s.lockAddressKey m = key ∧ s.lockIsKernelAddressKey m = isKernel) := by
    intro m hm
    simpa using find?_eq_none.mp hfind m hm
  have hold : ∀ t, ∀ m ∈ s.heldLockInfoList t, m ≠ s.nextLock :=
    fun t m hm heq => h.nextLock_not_held t (heq ▸ hm)
  have hnew : ∀ {m}, m ∈ s.heldLockInfoList this → ((s.newLock this key isKernel).lockAddressKey m =
          (s.newLock this key isKernel).lockAddressKey s.nextLock ∧
        (s.newLock this key isKernel).lockIsKernelAddressKey m =
          (s.newLock this key isKernel).lockIsKernelAddressKey s.nextLock) → False := by
    intro m hm heq
    refine hnone m hm ?_
    simpa [State.newLock, create, addHeldLock, hold this m hm] using heq
  intro t l hl m hm hkey hkernel
  by_cases ht : t = this
  · subst ht
    have hlist : (s.newLock t key isKernel).heldLockInfoList t =
        s.nextLock :: s.heldLockInfoList t := by
      simp [State.newLock, create, addHeldLock]
    rw [hlist] at hl hm
    rcases mem_cons.mp hl with rfl | hl
    · rcases mem_cons.mp hm with rfl | hm
      · rfl
      · exact (hnew hm ⟨hkey.symm, hkernel.symm⟩).elim
    · rcases mem_cons.mp hm with rfl | hm
      · exact (hnew hl ⟨hkey, hkernel⟩).elim
      · refine hkeys t l hl m hm ?_ ?_
        · simpa [State.newLock, create, addHeldLock, hold t l hl, hold t m hm] using hkey
        · simpa [State.newLock, create, addHeldLock, hold t l hl, hold t m hm] using hkernel
  · have hlist : (s.newLock this key isKernel).heldLockInfoList t = s.heldLockInfoList t := by
      simp [State.newLock, create, addHeldLock, ht]
    rw [hlist] at hl hm
    refine hkeys t l hl m hm ?_ ?_
    · simpa [State.newLock, create, addHeldLock, hold t l hl, hold t m hm] using hkey
    · simpa [State.newLock, create, addHeldLock, hold t l hl, hold t m hm] using hkernel

/-- Counting the waiter and finding its lock do not disturb each other. -/
theorem findOrCreateLock_setNumKernelWaiters (s : State T) (this : T) (n : Int) (key : BitVec 64)
    (isKernel : Bool) : (s.setNumKernelWaiters this n).findOrCreateLock this key isKernel =
      ((s.findOrCreateLock this key isKernel).1,
        (s.findOrCreateLock this key isKernel).2.setNumKernelWaiters this n) := by
  have hfind : (s.setNumKernelWaiters this n).findHeldLock this key isKernel =
      s.findHeldLock this key isKernel := rfl
  rw [findOrCreateLock, findOrCreateLock, hfind]
  cases s.findHeldLock this key isKernel with
  | some l => rfl
  | none => rfl

theorem addWaiterImpl_eq (h : s.WellFormed) (hcondvar : s.conditionVariableTree thread = none) :
    s.addWaiterImpl bal this thread =
      some ((s.findOrCreateLock this (s.addressKey thread) (s.isKernelAddressKey thread)).2.join bal
        this (s.findOrCreateLock this (s.addressKey thread) (s.isKernelAddressKey thread)).1
        thread) := by
  have hpos := not_lt.mpr (h.numKernelWaiters_nonneg this)
  have hcases := s.findOrCreateLock_cases this (s.addressKey thread) (s.isKernelAddressKey thread)
  rw [addWaiterImpl, if_neg (by simpa using hcondvar), if_neg fun hand => hpos hand.2]
  cases hk : s.isKernelAddressKey thread with
  | true =>
    simp only [if_true, findOrCreateLock_setNumKernelWaiters]
    rw [hk] at hcases
    rcases hcases with ⟨l, -, -, -, heq⟩ | ⟨-, heq⟩
    · simp [heq, join, kernelUnit, hk, addKernelWaiters]
    · simp [heq, join, kernelUnit, addKernelWaiters, newLock, create, addHeldLock, hk]
  | false =>
    rw [hk] at hcases
    rcases hcases with ⟨l, -, -, -, heq⟩ | ⟨-, heq⟩
    · simp [heq, join, kernelUnit, hk, addKernelWaiters_zero]
    · have hk' : (s.newLock this (s.addressKey thread) false).isKernelAddressKey thread = false :=
        hk
      simp [heq, join, kernelUnit, hk', addKernelWaiters_zero]

/-- What `AddWaiterImpl` comes to. -/
theorem addWaiterImpl_spec (bal : Balancing T) (this : T) (h : s.WellFormed)
    (hempty : s.NoEmptyLock) (hw : s.waitingLockInfo thread = none)
    (hcondvar : s.conditionVariableTree thread = none) :
    ∃ s', s.addWaiterImpl bal this thread = some s' ∧ s'.WellFormed ∧ s'.NoEmptyLock ∧
      Steady s s' ∧ (s.KeysDistinct → s'.KeysDistinct) ∧
      s'.getLockOwner = update s.getLockOwner thread (some this) := by
  rw [addWaiterImpl_eq h hcondvar]
  refine ⟨_, rfl, ?_⟩
  have hmem : ∀ {s₁ : State T} {l : LockId}, s₁.WellFormed →
      thread ∈ (s₁.join bal this l thread).waiters l :=
    fun h₁ => (waiters_join h₁ bal this _ thread).1.mem_iff.mpr (by simp)
  rcases s.findOrCreateLock_cases this (s.addressKey thread) (s.isKernelAddressKey thread) with
    ⟨l, hl, hkey, hkernel, heq⟩ | ⟨hfind, heq⟩
  · rw [heq]
    refine ⟨h.join hl hw hcondvar hkey.symm hkernel.symm, ?_, ⟨⟨rfl, rfl, rfl, rfl, rfl, rfl⟩, rfl,
      rfl⟩, id, getLockOwner_join (h.held_owner this l hl)⟩
    intro t m hm
    by_cases hml : m = l
    · rw [hml]
      exact ne_nil_of_mem (hmem h)
    · rw [waiters_join_of_ne hml]
      exact hempty t m hm
  · rw [heq]
    have h₁ := h.newLock this (s.addressKey thread) (s.isKernelAddressKey thread)
    have howner : (s.newLock this (s.addressKey thread) (s.isKernelAddressKey thread)).lockOwner
        s.nextLock = some this := by
      simp [newLock, create, addHeldLock]
    refine ⟨h₁.join ?_ hw hcondvar ?_ ?_, ?_, ⟨⟨rfl, rfl, rfl, rfl, rfl, rfl⟩, rfl, rfl⟩,
      fun hkeys => hkeys.newLock h hfind, ?_⟩
    · simp [newLock, create, addHeldLock]
    · simp [newLock, create, addHeldLock]
    · simp [newLock, create, addHeldLock]
    · intro t m hm
      by_cases hml : m = s.nextLock
      · rw [hml]
        exact ne_nil_of_mem (hmem h₁)
      · rw [waiters_join_of_ne hml, waiters_newLock h]
        refine hempty t m ?_
        by_cases ht : t = this
        · subst ht
          simpa [join, lockAddWaiter, addKernelWaiters, setNumKernelWaiters, newLock, create,
            addHeldLock, hml] using hm
        · simpa [join, lockAddWaiter, addKernelWaiters, setNumKernelWaiters, newLock, create,
            addHeldLock, ht] using hm
    · rw [getLockOwner_join howner, getLockOwner_newLock h]

theorem removeWaiterImpl_eq (h : s.WellFormed) {l : LockId} (hw : s.waitingLockInfo thread = some l)
    (hl : l ∈ s.heldLockInfoList this) : s.removeWaiterImpl bal this thread =
      some (if ((s.leave bal this l thread).waiters l) = [] then
        (s.leave bal this l thread).eraseHeldLock this l else s.leave bal this l thread) := by
  have howner : s.lockOwner l = some this := h.held_owner this l hl
  have hcount : (s.leave bal this l thread).lockWaiterCount l = 0 ↔
      (s.leave bal this l thread).waiters l = [] := by
    rw [(h.leave hl hw).waiterCount_eq, length_eq_zero_iff]
  rw [removeWaiterImpl]
  cases hk : s.isKernelAddressKey thread with
  | true =>
    have hpos : 0 < s.numKernelWaiters this := by
      refine lt_of_lt_of_le ?_ (h.kernelWeight_le hl)
      rw [kernelWeight, ← h.isKernel_eq thread l hw, hk, if_pos rfl]
      have hmem := (h.mem_waiters l thread).mpr hw
      exact Int.natCast_pos.mpr (length_pos_of_mem hmem)
    have hleave : (s.setNumKernelWaiters this (s.numKernelWaiters this - 1)).lockRemoveWaiter bal
        l thread = s.leave bal this l thread := by
      simp [leave, kernelUnit, hk, addKernelWaiters, sub_eq_add_neg]
    have hw₁ : (s.setNumKernelWaiters this (s.numKernelWaiters this - 1)).waitingLockInfo thread =
        some l := hw
    have howner₁ : (s.setNumKernelWaiters this (s.numKernelWaiters this - 1)).lockOwner l =
        some this := howner
    rw [if_neg (by simp [hpos])]
    simp [hw₁, howner₁, hleave, hcount]
  | false =>
    have hleave : s.lockRemoveWaiter bal l thread = s.leave bal this l thread := by
      simp [leave, kernelUnit, hk, addKernelWaiters_zero]
    simp [hw, howner, hleave, hcount]

/-- What `RemoveWaiterImpl` comes to. -/
theorem removeWaiterImpl_spec (bal : Balancing T) (h : s.WellFormed)
    (hempty : s.NoEmptyLock) (hw : s.getLockOwner thread = some this) :
    ∃ s', s.removeWaiterImpl bal this thread = some s' ∧ s'.WellFormed ∧ s'.NoEmptyLock ∧
      Steady s s' ∧ (s.KeysDistinct → s'.KeysDistinct) ∧ s'.waitingLockInfo thread = none ∧
      s'.getLockOwner = update s.getLockOwner thread none := by
  obtain ⟨l, hwl, hl⟩ := h.getLockOwner_iff.mp hw
  have h₁ : (s.leave bal this l thread).WellFormed := h.leave hl hwl
  have howner : (s.leave bal this l thread).getLockOwner =
      update s.getLockOwner thread none := getLockOwner_leave
  have hwaiting : (s.leave bal this l thread).waitingLockInfo thread = none := by
    rw [waitingLockInfo_leave, if_pos rfl]
  have hothers : ∀ t, ∀ m ∈ s.heldLockInfoList t, m ≠ l →
      (s.leave bal this l thread).waiters m ≠ [] := by
    intro t m hm hml
    rw [waiters_leave_of_ne hml]
    exact hempty t m hm
  rw [removeWaiterImpl_eq h hwl hl]
  refine ⟨_, rfl, ?_⟩
  by_cases hnil : (s.leave bal this l thread).waiters l = []
  · rw [if_pos hnil]
    refine ⟨h₁.drop hnil, fun t m hm => ?_,
      (steady_leave bal s this l thread).trans (steady_eraseHeldLock _ this l), ?_, hwaiting,
      howner⟩
    · obtain ⟨hm, hnot⟩ := (mem_eraseHeldLock h₁ this l).mp hm
      refine hothers t m hm fun hml => hnot ⟨?_, hml⟩
      exact h.eq_of_held (hml ▸ hm) hl
    · exact fun hkeys t m hm n hn => hkeys t m ((mem_eraseHeldLock h₁ this l).mp hm).1 n
        ((mem_eraseHeldLock h₁ this l).mp hn).1
  · rw [if_neg hnil]
    refine ⟨h₁, fun t m hm => ?_, steady_leave bal s this l thread, id, hwaiting, howner⟩
    by_cases hml : m = l
    · rwa [hml]
    · exact hothers t m hm hml

end Waiters

/-! ## The hand-over of a lock -/

section HandOver

variable {s : State T}

variable {l : LockId} {this : T}

omit [DecidableEq T] in
theorem priority_front_le (h : s.WellFormed) {front w : T}
    (hfront : s.getHighestPriorityWaiter l = some front) (hw : w ∈ s.waiters l) :
    s.priority front ≤ s.priority w := by
  obtain ⟨rest, hrest⟩ := head?_eq_some_iff.mp hfront
  have hsorted := h.waiters_sorted l
  rw [waiters, hrest] at hw hsorted
  rcases mem_cons.mp hw with rfl | hw
  · exact le_rfl
  · exact (pairwise_cons.mp hsorted).1 w hw

/-- The state in which the next owner has left the lock. -/
theorem lockRemoveWaiter_eq (bal : Balancing T) {next : T} {n : Int}
    (hn : n = s.kernelUnit next + (s.leave bal this l next).kernelWeight l) :
    ((s.eraseHeldLock this l).setNumKernelWaiters this
        (s.numKernelWaiters this - n)).lockRemoveWaiter bal l next =
      ((s.leave bal this l next).eraseHeldLock this l).addKernelWaiters this
        (- (s.leave bal this l next).kernelWeight l) := by
  generalize (s.leave bal this l next).kernelWeight l = weight at hn
  have hnum : s.numKernelWaiters this - n =
      s.numKernelWaiters this + - s.kernelUnit next + - weight := by omega
  simp [eraseHeldLock, setNumKernelWaiters, lockRemoveWaiter, leave, addKernelWaiters, hnum]

theorem handOverLock_eq (bal : Balancing T) (h : s.WellFormed) {next : T} {rest : List T}
    (hl : l ∈ s.heldLockInfoList this) (hne : next ≠ this) (hwaiters : s.waiters l = next :: rest) :
    s.handOverLock bal this l =
      some (if rest = [] then (next, false, (s.leave bal this l next).eraseHeldLock this l)
        else (next, true, (s.leave bal this l next).transfer this next l)) := by
  have hcount : s.lockWaiterCount l = rest.length + 1 := by
    rw [h.waiterCount_eq, hwaiters, length_cons]
  have hw : s.waitingLockInfo next = some l := (h.mem_waiters l next).mp (by simp [hwaiters])
  have hk := h.isKernel_eq next l hw
  have h₁ : (s.leave bal this l next).WellFormed := h.leave hl hw
  have hrest : (s.leave bal this l next).waiters l = rest := by
    rw [waiters_leave, hwaiters, erase_cons_head]
  have hcount₁ : (s.leave bal this l next).lockWaiterCount l = rest.length := by
    rw [h₁.waiterCount_eq, hrest]
  have hfront : ∀ n, ((s.eraseHeldLock this l).setNumKernelWaiters this n).getHighestPriorityWaiter
      l = some next := fun n => by
    have htree : (s.lockTree l).toList = next :: rest := hwaiters
    simp [getHighestPriorityWaiter, eraseHeldLock, setNumKernelWaiters, htree]
  have hweight : (s.leave bal this l next).kernelWeight l =
      if s.lockIsKernelAddressKey l then (rest.length : Int) else 0 := by
    rw [kernelWeight, hrest]
    rfl
  have hunit : s.kernelUnit next = if s.lockIsKernelAddressKey l then 1 else 0 := by
    rw [kernelUnit, hk]
  -- the state once the next owner has left the lock
  have hstate : (if s.lockIsKernelAddressKey l then (s.eraseHeldLock this l).setNumKernelWaiters this
        (s.numKernelWaiters this - (s.lockWaiterCount l : Int)) else s.eraseHeldLock this l) =
      (s.eraseHeldLock this l).setNumKernelWaiters this (s.numKernelWaiters this -
        (s.kernelUnit next + (s.leave bal this l next).kernelWeight l)) := by
    rw [hunit, hweight, hcount]
    split
    · simp [add_comm]
    · simp [setNumKernelWaiters, eraseHeldLock]
  have hnot : ¬ (s.lockIsKernelAddressKey l = true ∧
      s.numKernelWaiters this - (s.lockWaiterCount l : Int) < 0) := by
    rintro ⟨hkernel, hlt⟩
    have hle := h.kernelWeight_le hl
    rw [kernelWeight, hkernel, if_pos rfl, ← h.waiterCount_eq] at hle
    omega
  simp only [handOverLock, hstate, lockRemoveWaiter_eq bal rfl, hfront]
  rw [if_neg hnot, if_neg (by omega)]
  generalize s.leave bal this l next = s₁ at *
  have hzero : ((s₁.eraseHeldLock this l).addKernelWaiters this (- s₁.kernelWeight l)).lockWaiterCount
      l = rest.length := hcount₁
  by_cases hnil : rest = []
  · have hnone : s₁.kernelWeight l = 0 := by
      rw [hweight, hnil]
      simp
    rw [if_pos (by rw [hzero, hnil]; rfl), if_pos hnil, hnone, neg_zero, addKernelWaiters_zero]
  · have hpos : 0 < rest.length := length_pos_of_ne_nil hnil
    rw [if_neg (by rw [hzero]; omega), if_neg hnil]
    cases hkernel : s.lockIsKernelAddressKey l with
    | true =>
      have hnext : 0 ≤ s₁.numKernelWaiters next := h₁.numKernelWaiters_nonneg next
      have htotal : (((s₁.eraseHeldLock this l).addKernelWaiters this
          (- s₁.kernelWeight l)).addHeldLock next l).numKernelWaiters next =
            s₁.numKernelWaiters next := by
        simp [addHeldLock, addKernelWaiters, setNumKernelWaiters, eraseHeldLock, hne]
      have hlock : (((s₁.eraseHeldLock this l).addKernelWaiters this
          (- s₁.kernelWeight l)).addHeldLock next l).lockWaiterCount l = rest.length := hcount₁
      rw [hkernel, if_pos rfl] at hweight
      have hadd : (((s₁.eraseHeldLock this l).addKernelWaiters this
          (- s₁.kernelWeight l)).addHeldLock next l).addKernelWaiters next (s₁.kernelWeight l) =
            (((s₁.eraseHeldLock this l).addKernelWaiters this
              (- s₁.kernelWeight l)).addHeldLock next l).setNumKernelWaiters next
                (s₁.numKernelWaiters next + rest.length) := by
        rw [addKernelWaiters, htotal, hweight]
      rw [if_pos rfl, hlock, htotal, if_neg (by omega), transfer, hadd]
    | false =>
      rw [hkernel] at hweight
      simp only [Bool.false_eq_true, if_false] at hweight
      rw [if_neg (by simp), transfer, hweight, addKernelWaiters_zero]

/-- What the hand-over of a lock comes to: its waiters wait for the first of them from now on. -/
theorem handOverLock_spec (bal : Balancing T) (h : s.WellFormed) (hempty : s.NoEmptyLock)
    (hl : l ∈ s.heldLockInfoList this) (hself : s.waitingLockInfo this ≠ some l) :
    ∃ next rest s', s.waiters l = next :: rest ∧
      s.handOverLock bal this l = some (next, decide (rest ≠ []), s') ∧ s'.WellFormed ∧
      s'.NoEmptyLock ∧ Steady s s' ∧
      ((∀ m ∈ s.heldLockInfoList next, s.lockAddressKey m = s.lockAddressKey l →
        s.lockIsKernelAddressKey m ≠ s.lockIsKernelAddressKey l) → s.KeysDistinct →
          s'.KeysDistinct) ∧
      HandOver s.getLockOwner s'.getLockOwner s.priority this next
        {w | s.waitingLockInfo w = some l} := by
  obtain ⟨next, rest, hwaiters⟩ := exists_cons_of_ne_nil (hempty this l hl)
  have hnext : s.waitingLockInfo next = some l := (h.mem_waiters l next).mp (by simp [hwaiters])
  have howner : ∀ w, s.waitingLockInfo w = some l → s.getLockOwner w = some this :=
    fun w hw => h.getLockOwner_iff.mpr ⟨l, hw, hl⟩
  have hne : next ≠ this := fun heq => hself (heq ▸ hnext)
  have hfront : s.getHighestPriorityWaiter l = some next := by
    rw [getHighestPriorityWaiter, show (s.lockTree l).toList = next :: rest from hwaiters,
      head?_cons]
  have hleast : ∀ w, s.waitingLockInfo w = some l → s.priority next ≤ s.priority w :=
    fun w hw => priority_front_le h hfront ((h.mem_waiters l w).mpr hw)
  have h₁ : (s.leave bal this l next).WellFormed := h.leave hl hnext
  have hrest : (s.leave bal this l next).waiters l = rest := by
    rw [waiters_leave, hwaiters, erase_cons_head]
  have howner₁ : (s.leave bal this l next).getLockOwner =
      update s.getLockOwner next none := getLockOwner_leave
  have hothers : ∀ t, ∀ m ∈ s.heldLockInfoList t, m ≠ l →
      (s.leave bal this l next).waiters m ≠ [] := by
    intro t m hm hml
    rw [waiters_leave_of_ne hml]
    exact hempty t m hm
  rw [handOverLock_eq bal h hl hne hwaiters]
  by_cases hnil : rest = []
  · refine ⟨next, rest, (s.leave bal this l next).eraseHeldLock this l, hwaiters, by simp [hnil],
      h₁.drop (hrest.trans hnil), fun t m hm => ?_,
      (steady_leave bal s this l next).trans (steady_eraseHeldLock _ this l), ?_, ?_⟩
    · obtain ⟨hm, hnot⟩ := (mem_eraseHeldLock h₁ this l).mp hm
      exact hothers t m hm fun hml => hnot ⟨h.eq_of_held (hml ▸ hm) hl, hml⟩
    · exact fun _ hkeys t m hm n hn => hkeys t m ((mem_eraseHeldLock h₁ this l).mp hm).1 n
        ((mem_eraseHeldLock h₁ this l).mp hn).1
    · have hsingle : {w | s.waitingLockInfo w = some l} = {next} := by
        ext w
        rw [Set.mem_ofPred_eq, ← h.mem_waiters, hwaiters, hnil]
        simp
      rw [hsingle]
      exact howner₁ ▸ handOver_single (howner next hnext)
  · refine ⟨next, rest, (s.leave bal this l next).transfer this next l, hwaiters, by simp [hnil],
      h₁.transfer hne hl, fun t m hm => ?_,
      (steady_leave bal s this l next).trans (steady_transfer _ this next l), ?_, ?_⟩
    · rcases (mem_transfer h₁ hl).mp hm with ⟨rfl, -⟩ | ⟨hml, hm⟩
      · exact hrest.symm ▸ hnil
      · exact hothers t m hm hml
    · intro hfree hkeys t m hm n hn hkey hkernel
      rcases (mem_transfer h₁ hl).mp hm with ⟨rfl, rfl⟩ | ⟨-, hm⟩
      · rcases (mem_transfer h₁ hl).mp hn with ⟨rfl, -⟩ | ⟨-, hn⟩
        · rfl
        · exact absurd hkernel.symm (hfree n hn hkey.symm)
      · rcases (mem_transfer h₁ hl).mp hn with ⟨rfl, rfl⟩ | ⟨-, hn⟩
        · exact absurd hkernel (hfree m hm hkey)
        · exact hkeys t m hm n hn hkey hkernel
    · constructor
      case mem => exact hnext
      case least => exact hleast
      case waits => exact howner
      case next => rw [getLockOwner_transfer, waitingLockInfo_leave, howner₁]; simp
      case others =>
        intro w hw hwn
        have hw' : (s.leave bal this l next).waitingLockInfo w = some l := by
          rw [waitingLockInfo_leave, if_neg hwn]
          exact hw
        rw [getLockOwner_transfer, if_pos hw']
      case rest =>
        intro w hw
        rw [Set.mem_ofPred_eq] at hw
        have hwn : w ≠ next := fun heq => hw (heq ▸ hnext)
        rw [getLockOwner_transfer, waitingLockInfo_leave, if_neg hwn, if_neg hw, howner₁,
          update_of_ne hwn]

end HandOver

/-! ## `RestorePriority` -/

section Restore

variable {s : State T}

/-- The priority of a thread is the least of its base priority and of those of its waiters. -/
def Inherited (s : State T) (t : T) : Prop :=
  Inherits s.getLockOwner s.basePriority s.priority t

section

omit [DecidableEq T]

/-- The loop over the held locks: the least priority of their waiters and of the start value. -/
theorem foldlM_newPriority (h : s.WellFormed) (L : List LockId)
    (hL : ∀ l ∈ L, s.waiters l ≠ []) (start : Int) : ∃ p, L.foldlM (fun newPriority lock =>
        (s.getHighestPriorityWaiter lock).map fun waiter => min newPriority (s.priority waiter))
          start = some p ∧
      IsLeast (insert start {q | ∃ l ∈ L, ∃ w ∈ s.waiters l, s.priority w = q}) p := by
  induction L generalizing start with
  | nil => exact ⟨start, rfl, by simp⟩
  | cons l L ih =>
    cases hfront : s.getHighestPriorityWaiter l with
    | none =>
      rw [getHighestPriorityWaiter, head?_eq_none_iff] at hfront
      exact absurd hfront (hL l (by simp))
    | some front =>
      have hmem : front ∈ s.waiters l := mem_of_head? hfront
      obtain ⟨p, hp, hin, hlow⟩ :=
        ih (fun m hm => hL m (by simp [hm])) (min start (s.priority front))
      have hpmin : p ≤ min start (s.priority front) := hlow (.inl rfl)
      refine ⟨p, ?_, ?_, ?_⟩
      · rw [foldlM_cons, hfront]
        exact hp
      · rcases hin with hin | ⟨m, hm, w, hw, hin⟩
        · rcases min_choice start (s.priority front) with hmin | hmin
          · exact .inl (hin.trans hmin)
          · exact .inr ⟨l, by simp, front, hmem, (hin.trans hmin).symm⟩
        · exact .inr ⟨m, by simp [hm], w, hw, hin⟩
      · rintro q (rfl | ⟨m, hm, w, hw, rfl⟩)
        · exact hpmin.trans (min_le_left _ _)
        · rcases mem_cons.mp hm with rfl | hm
          · exact (hpmin.trans (min_le_right _ _)).trans (priority_front_le h hfront hw)
          · exact hlow (.inr ⟨m, hm, w, hw, rfl⟩)

theorem WellFormed.inheritable_eq (h : s.WellFormed) (t : T) :
    Inheritable s.getLockOwner s.basePriority s.priority t = insert (s.basePriority t)
        {q | ∃ l ∈ s.heldLockInfoList t, ∃ w ∈ s.waiters l, s.priority w = q} := by
  refine congrArg _ (Set.ext fun q => ?_)
  simp only [Set.mem_image, Set.mem_ofPred_eq, h.getLockOwner_iff]
  constructor
  · rintro ⟨w, ⟨l, hw, hl⟩, hq⟩
    exact ⟨l, hl, w, (h.mem_waiters l w).mpr hw, hq⟩
  · rintro ⟨l, hl, w, hw, hq⟩
    exact ⟨w, ⟨l, (h.mem_waiters l w).mp hw, hl⟩, hq⟩

theorem newPriority_spec (h : s.WellFormed) (hempty : s.NoEmptyLock) (t : T) :
    ∃ p, s.newPriority t = some p ∧
      IsLeast (Inheritable s.getLockOwner s.basePriority s.priority t) p := by
  rw [h.inheritable_eq]
  exact foldlM_newPriority h _ (hempty t) _

end

theorem filter_eraseCondvar (s : State T) (bal : Balancing T) (c : TreeId) {w : T}
    {P : T → Bool} (hP : P w = false) (c' : TreeId) :
    ((s.eraseCondvar bal c w).condvarTree c').toList.filter P =
      (s.condvarTree c').toList.filter P := by
  by_cases hc : c' = c
  · subst hc
    have hout : w ∉ (s.condvarTree c').toList.filter P := by simp [hP]
    simp only [eraseCondvar, update_self, bal.toList_remove]
    rw [← erase_filter, erase_of_not_mem hout]
  · simp only [eraseCondvar, update_of_ne hc]

theorem filter_insertCondvar (bal : Balancing T) {c : TreeId} {w : T} {P : T → Bool}
    (hP : P w = false)
    (hsorted : (s.condvarTree c).toList.Pairwise fun a b => s.condvarOrder a ≤ s.condvarOrder b)
    (c' : TreeId) : ((s.insertCondvar bal c w).condvarTree c').toList.filter P =
      (s.condvarTree c').toList.filter P := by
  by_cases hc : c' = c
  · subst hc
    obtain ⟨before, after, hsplit, hinsert, -, -⟩ := SearchTree.exists_toList_insert bal
      (fun b _ => s.condvarCompare_ne_zero w b) (fun b _ => s.condvarCompare_neg_iff w b) hsorted
    simp only [insertCondvar, update_self]
    rw [hinsert, hsplit]
    simp [hP]
  · simp only [insertCondvar, update_of_ne hc]

theorem local_changePriority (h : s.CondvarTrees) (bal : Balancing T) (w : T) (p : Int) :
    Local s (s.changePriority bal w p) fun u => u = w := by
  obtain ⟨trees, times, now, heq⟩ := s.changePriority_eq bal w p
  constructor
  case toFrame =>
    rw [heq]
    exact ⟨rfl, rfl, rfl, rfl, rfl, rfl⟩
  case keys =>
    rw [heq]
    exact id
  case priority_eq =>
    intro u hu
    rw [heq]
    exact update_of_ne hu p s.priority
  case tree_eq =>
    intro c' P hP
    have hPw : P w = false := by
      by_contra hne
      exact hP w (by simpa using hne) rfl
    rw [changePriority]
    cases hw : s.conditionVariableTree w with
    | none => rfl
    | some c =>
      have hout : w ∉ ((s.eraseCondvar bal c w).condvarTree c).toList := fun hmem =>
        ((mem_eraseCondvar h bal hw c w).mp hmem).2 rfl
      have hsorted := (h.sorted c).sublist (eraseCondvar_sublist s bal c w c)
      have hsorted' : ((s.eraseCondvar bal c w).condvarTree c).toList.Pairwise
          ((s.eraseCondvar bal c w).setPriority w p).Precedes :=
        pairwise_precedes (s := s) hout
          (fun t ht => by simp [condvarOrder, setPriority, eraseCondvar, ht]) (fun _ _ => rfl)
          hsorted
      have hinsert := filter_insertCondvar (s := (s.eraseCondvar bal c w).setPriority w p) bal hPw
        (hsorted'.imp Precedes.le) c'
      exact hinsert.trans (filter_eraseCondvar s bal c hPw c')

/-- One turn of the loop: the priority changes, and the thread waits for the same thread as before. -/
theorem requeue_spec (bal : Balancing T) (h : s.WellFormed) (hempty : s.NoEmptyLock)
    (t : T) (p : Int) : ∃ s', s.requeue bal t p = some s' ∧ s'.WellFormed ∧ s'.NoEmptyLock ∧
      Local s s' (fun u => u = t) ∧ s'.priority = update s.priority t p ∧
      s'.getLockOwner = s.getLockOwner := by
  rw [requeue]
  cases howner : s.getLockOwner t with
  | none =>
    have hw : s.waitingLockInfo t = none := h.getLockOwner_eq_none.mp howner
    have h₁ : (s.changePriority bal t p).WellFormed := h.changePriority hw p
    have hlocal := local_changePriority h.condvar bal t p
    obtain ⟨trees, times, now, heq⟩ := s.changePriority_eq bal t p
    rw [heq] at h₁ hlocal ⊢
    exact ⟨_, rfl, h₁, hempty, hlocal, rfl, rfl⟩
  | some o =>
    have hcondvar : s.conditionVariableTree t = none := by
      obtain ⟨l, hw, -⟩ := h.getLockOwner_iff.mp howner
      exact h.not_condvar t l hw
    obtain ⟨s₁, hs₁, h₁, hempty₁, hsteady₁, hkeys₁, hw₁, howner₁⟩ :=
      removeWaiterImpl_spec bal h hempty howner
    have h₂ : (s₁.changePriority bal t p).WellFormed := h₁.changePriority hw₁ p
    have hlocal₂ := local_changePriority h₁.condvar bal t p
    have hprio₂ : (s₁.changePriority bal t p).priority = update s₁.priority t p := by
      obtain ⟨trees, times, now, heq⟩ := s₁.changePriority_eq bal t p
      rw [heq]
    have howner₂ : (s₁.changePriority bal t p).getLockOwner = s₁.getLockOwner := by
      obtain ⟨trees, times, now, heq⟩ := s₁.changePriority_eq bal t p
      rw [heq]
      rfl
    have hempty₂ : (s₁.changePriority bal t p).NoEmptyLock := by
      obtain ⟨trees, times, now, heq⟩ := s₁.changePriority_eq bal t p
      rw [heq]
      exact hempty₁
    have hw₂ : (s₁.changePriority bal t p).waitingLockInfo t = none := by
      obtain ⟨trees, times, now, heq⟩ := s₁.changePriority_eq bal t p
      rw [heq]
      exact hw₁
    obtain ⟨s', hs', h', hempty', hsteady, hkeys, howner'⟩ :=
      addWaiterImpl_spec bal o h₂ hempty₂ hw₂ (by
        rw [hlocal₂.conditionVariableTree, hsteady₁.conditionVariableTree, hcondvar])
    refine ⟨s', by simp [hs₁, hs'], h', hempty', ?_, ?_, ?_⟩
    · have hlocal := (hsteady₁.local (fun u => u = t) hkeys₁).trans hlocal₂ fun _ hu => hu
      exact hlocal.trans (hsteady.local (fun u => u = t) hkeys) fun _ hu => hu
    · rw [hsteady.priority, hprio₂, hsteady₁.priority]
    · rw [howner', howner₂, howner₁, update_idem, ← howner, update_eq_self]

variable [Fintype T]

/-- `RestorePriority` from a thread that is the only one that may not inherit. Only the threads that it
waits for, at once or through others, are touched. -/
theorem restorePriorityLoop_spec (bal : Balancing T) (fuel : Nat) (s : State T)
    (thread : Option T) (h : s.WellFormed) (hempty : s.NoEmptyLock)
    (hrest : ∀ u, thread ≠ some u → s.Inherited u)
    (hfuel : ∀ t, thread = some t → Pending s.getLockOwner s.basePriority s.priority t fuel) :
    ∃ s', restorePriorityLoop bal fuel s thread = some s' ∧ s'.WellFormed ∧ s'.NoEmptyLock ∧
      Local s s' (fun u => ∃ t, thread = some t ∧ ReflTransGen (WaitsFor s.getLockOwner) t u) ∧
      s'.getLockOwner = s.getLockOwner ∧ ∀ u, s'.Inherited u := by
  induction fuel generalizing s thread with
  | zero =>
    cases thread with
    | none => exact ⟨s, rfl, h, hempty, .refl s _, rfl, fun u => hrest u (by simp)⟩
    | some t => exact absurd (hfuel t rfl).1 (lt_irrefl 0)
  | succ fuel ih =>
    cases thread with
    | none => exact ⟨s, rfl, h, hempty, .refl s _, rfl, fun u => hrest u (by simp)⟩
    | some t =>
      obtain ⟨p, hp, hleast⟩ := newPriority_spec h hempty t
      have hothers : ∀ u, u ≠ t → s.Inherited u := fun u hu => hrest u (by simp [hu.symm])
      rw [restorePriorityLoop, hp]
      by_cases hsame : p = s.priority t
      · -- nothing changes, so the thread inherits already
        refine ⟨s, by simp [hsame], h, hempty, .refl s _, rfl, fun u => ?_⟩
        by_cases hu : u = t
        · rw [hu, Inherited, Inherits, ← hsame]
          exact hleast
        · exact hothers u hu
      · obtain ⟨s₁, hs₁, h₁, hempty₁, hlocal₁, hprio₁, howner₁⟩ := requeue_spec bal h hempty t p
        obtain ⟨s', hs', h', hempty', hlocal, howner', hinherited⟩ :=
          ih s₁ (s.getLockOwner t) h₁ hempty₁
            (fun u hu => by
              rw [Inherited, howner₁, hlocal₁.basePriority, hprio₁]
              exact Inherits.update_prio hleast hothers hu)
            (fun o ho => by
              rw [howner₁, hlocal₁.basePriority, hprio₁]
              exact (hfuel t rfl).next hothers hleast hsame ho)
        refine ⟨s', by simp [hsame, hs₁, hs'], h', hempty', ?_, howner'.trans howner₁, hinherited⟩
        have hwide : Local s s₁ fun u => ∃ v, some t = some v ∧
            ReflTransGen (WaitsFor s.getLockOwner) v u :=
          (Local.refl s _).trans hlocal₁ fun u hu => ⟨t, rfl, hu ▸ .refl⟩
        refine hwide.trans hlocal ?_
        rintro u ⟨o, ho, hou⟩
        rw [howner₁] at hou
        exact ⟨t, rfl, .head ho hou⟩

theorem restorePriority_spec (bal : Balancing T) {t : T} (h : s.WellFormed)
    (hempty : s.NoEmptyLock) (hrest : ∀ u, u ≠ t → s.Inherited u) :
    ∃ s', s.restorePriority bal t = some s' ∧ s'.WellFormed ∧ s'.NoEmptyLock ∧
      Local s s' (ReflTransGen (WaitsFor s.getLockOwner) t) ∧
      s'.getLockOwner = s.getLockOwner ∧ ∀ u, s'.Inherited u := by
  obtain ⟨s', hs', h', hempty', hlocal, howner, hinherited⟩ :=
    restorePriorityLoop_spec bal (Fintype.card T + 1) s (some t) h hempty
      (fun u hu => hrest u fun heq => hu (by rw [heq])) fun u _ =>
        pending_card s.getLockOwner s.basePriority s.priority u
  refine ⟨s', hs', h', hempty', (Local.refl s _).trans hlocal ?_, howner, hinherited⟩
  rintro u ⟨v, hv, hvu⟩
  rwa [Option.some.inj hv]

end Restore

end State

end Sudachi.Kernel.ThreadLocks
