import Sudachi.Kernel.ThreadLocksInheritance

/-!
# The operations on locks

What `AddWaiter`, `RemoveWaiter`, `RemoveWaiterByKey` and a new base priority come to in a state in which
every thread inherits (`Consistent`): they come to an end, every thread inherits again, and the wait-for
graph has changed as it should.
-/

set_option autoImplicit false

namespace Sudachi.Kernel.ThreadLocks

open Sudachi.Foundations Sudachi.Foundations.WaitGraph Relation Option
open SearchTree (Balancing)
open Function (update)

namespace State

variable {T : Type}

/-- What holds between the operations. -/
structure Consistent (s : State T) : Prop where
  wellFormed : s.WellFormed
  noEmptyLock : s.NoEmptyLock
  inherited : ∀ t, s.Inherited t

variable [DecidableEq T] [Fintype T] {s : State T}

section

variable (bal : Balancing T) (h : s.Consistent)
include bal h

theorem addWaiter_spec (this : T) {thread : T}
    (hw : s.waitingLockInfo thread = none) (hcondvar : s.conditionVariableTree thread = none) :
    ∃ s', s.addWaiter bal this thread = some s' ∧ s'.Consistent ∧
      Local s s' (ReflTransGen (WaitsFor s'.getLockOwner) this) ∧
      s'.getLockOwner = update s.getLockOwner thread (some this) := by
  have hnone : s.getLockOwner thread = none := h.wellFormed.getLockOwner_eq_none.mpr hw
  obtain ⟨s₁, hs₁, h₁, hempty₁, hsteady, hkeys, howner⟩ :=
    addWaiterImpl_spec bal this h.wellFormed h.noEmptyLock hw hcondvar
  have hothers : ∀ u, u ≠ this → s₁.Inherited u := by
    intro u hu
    rw [Inherited, howner, hsteady.basePriority, hsteady.priority]
    exact (h.inherited u).add_of_ne hnone hu
  by_cases hlt : s₁.priority thread < s₁.priority this
  · obtain ⟨s', hs', h', hempty', hlocal, howner', hinherited⟩ :=
      restorePriority_spec bal h₁ hempty₁ hothers
    refine ⟨s', by simp [addWaiter, hs₁, hlt, hs'], ⟨h', hempty', hinherited⟩, ?_,
      howner'.trans howner⟩
    rw [howner']
    exact (hsteady.local _ hkeys).trans hlocal fun _ hu => hu
  · refine ⟨s₁, by simp [addWaiter, hs₁, hlt], ⟨h₁, hempty₁, fun u => ?_⟩,
      hsteady.local _ hkeys, howner⟩
    by_cases hu : u = this
    · subst hu
      rw [hsteady.priority] at hlt
      rw [Inherited, howner, hsteady.basePriority, hsteady.priority]
      exact (h.inherited u).add_of_le (not_lt.mp hlt)
    · exact hothers u hu

/-- The end of `RemoveWaiter` and `RemoveWaiterByKey`: after a hand-over the old owner may have to give
up a priority that it had inherited. -/
theorem restore_after_handOver {s₁ : State T} {this next : T} {W : Set T} (h₁ : s₁.WellFormed)
    (hempty₁ : s₁.NoEmptyLock) (hsteady : Steady s s₁)
    (hover : HandOver s.getLockOwner s₁.getLockOwner s.priority this next W) :
    ∃ s', (if s₁.priority this = s₁.priority next ∧ s₁.priority this < s₁.basePriority this then
        s₁.restorePriority bal this else some s₁) = some s' ∧ s'.Consistent ∧
      Local s₁ s' (ReflTransGen (WaitsFor s₁.getLockOwner) this) ∧
      s'.getLockOwner = s₁.getLockOwner := by
  have hinherits : ∀ u, Inherits s₁.getLockOwner s.basePriority s.priority u → s₁.Inherited u :=
    fun u hu => by rwa [Inherited, hsteady.basePriority, hsteady.priority]
  have hothers : ∀ u, u ≠ this → s₁.Inherited u := by
    intro u hu
    refine hinherits u ?_
    by_cases hun : u = next
    · subst hun
      exact hover.inherits_next hu (h.inherited u)
    · exact hover.inherits_of_ne hu hun (h.inherited u)
  by_cases hrestore : s₁.priority this = s₁.priority next ∧ s₁.priority this < s₁.basePriority this
  · obtain ⟨s', hs', h', hempty', hlocal, howner', hinherited⟩ :=
      restorePriority_spec bal h₁ hempty₁ hothers
    exact ⟨s', by rw [if_pos hrestore, hs'], ⟨h', hempty', hinherited⟩, hlocal, howner'⟩
  · refine ⟨s₁, by rw [if_neg hrestore], ⟨h₁, hempty₁, fun u => ?_⟩, .refl s₁ _, rfl⟩
    by_cases hu : u = this
    · subst hu
      rw [hsteady.priority, hsteady.basePriority] at hrestore
      exact hinherits u (hover.inherits_owner (h.inherited u) hrestore)
    · exact hothers u hu

theorem removeWaiter_spec {this thread : T} (hw : s.getLockOwner thread = some this) :
    ∃ s', s.removeWaiter bal this thread = some s' ∧ s'.Consistent ∧ Frame s s' ∧
      (s.KeysDistinct → s'.KeysDistinct) ∧
      s'.getLockOwner = update s.getLockOwner thread none := by
  obtain ⟨s₁, hs₁, h₁, hempty₁, hsteady, hkeys, -, howner⟩ :=
    removeWaiterImpl_spec bal h.wellFormed h.noEmptyLock hw
  obtain ⟨s', hs', h', hlocal, howner'⟩ := restore_after_handOver bal h h₁ hempty₁ hsteady
    (howner ▸ handOver_single hw)
  exact ⟨s', by simpa [removeWaiter, hs₁] using hs', h', hsteady.toFrame.trans hlocal.toFrame,
    fun hdistinct => hlocal.keys (hkeys hdistinct), howner'.trans howner⟩

/-- `RemoveWaiterByKey` of a key that a held lock has. -/
theorem removeWaiterByKey_spec {this : T} {key : BitVec 64} {isKernel : Bool} {l : LockId}
    (hl : s.findHeldLock this key isKernel = some l) (hself : s.waitingLockInfo this ≠ some l) :
    ∃ next rest s', s.waiters l = next :: rest ∧
      s.removeWaiterByKey bal this key isKernel = some (some next, decide (rest ≠ []), s') ∧
      s'.Consistent ∧ Frame s s' ∧
      ((∀ m ∈ s.heldLockInfoList next, s.lockAddressKey m = s.lockAddressKey l →
        s.lockIsKernelAddressKey m ≠ s.lockIsKernelAddressKey l) → s.KeysDistinct →
          s'.KeysDistinct) ∧
      HandOver s.getLockOwner s'.getLockOwner s.priority this next
        {w | s.waitingLockInfo w = some l} := by
  obtain ⟨next, rest, s₁, hwaiters, hs₁, h₁, hempty₁, hsteady, hkeys, hover⟩ :=
    handOverLock_spec bal h.wellFormed h.noEmptyLock (List.mem_of_find?_eq_some hl) hself
  obtain ⟨s', hs', h', hlocal, howner'⟩ := restore_after_handOver bal h h₁ hempty₁ hsteady hover
  refine ⟨next, rest, s', hwaiters, ?_, h', hsteady.toFrame.trans hlocal.toFrame,
    fun hfree hdistinct => hlocal.keys (hkeys hfree hdistinct), howner' ▸ hover⟩
  rw [removeWaiterByKey, hl]
  by_cases hrestore : s₁.priority this = s₁.priority next ∧ s₁.priority this < s₁.basePriority this
  · rw [if_pos hrestore] at hs'
    simp only [hs₁, bind_eq_bind, bind_some, if_pos hrestore, hs']
  · rw [if_neg hrestore] at hs'
    obtain rfl := some.inj hs'
    simp only [hs₁, bind_eq_bind, bind_some, if_neg hrestore]

end

omit [Fintype T] in
theorem WellFormed.setBase (hwf : s.WellFormed) (t : T) (value : Int) :
    (s.setBase t value).WellFormed := by
  constructor
  case condvar =>
    exact ⟨hwf.condvar.mem_iff, hwf.condvar.nodup, hwf.condvar.sorted, hwf.condvar.insertTime_lt⟩
  case held_nodup => exact hwf.held_nodup
  case held_owner => exact hwf.held_owner
  case held_lt => exact hwf.held_lt
  case waiting_held => exact hwf.waiting_held
  case mem_waiters => exact hwf.mem_waiters
  case waiters_nodup => exact hwf.waiters_nodup
  case waiters_sorted => exact hwf.waiters_sorted
  case waiterCount_eq => exact hwf.waiterCount_eq
  case addressKey_eq => exact hwf.addressKey_eq
  case isKernel_eq => exact hwf.isKernel_eq
  case not_condvar => exact hwf.not_condvar
  case numKernelWaiters_eq => exact hwf.numKernelWaiters_eq

theorem restorePriority_setBase_spec (bal : Balancing T) (h : s.Consistent) (t : T) (value : Int) :
    ∃ s', (s.setBase t value).restorePriority bal t = some s' ∧ s'.Consistent ∧
      Frame (s.setBase t value) s' ∧ (s.KeysDistinct → s'.KeysDistinct) ∧
      s'.getLockOwner = s.getLockOwner := by
  have hothers : ∀ u, u ≠ t → (s.setBase t value).Inherited u := by
    intro u hu
    have hinherits := h.inherited u
    have hbase : (s.setBase t value).basePriority u = s.basePriority u := by
      simp [setBase, hu]
    rw [Inherited, Inherits, Inheritable] at hinherits ⊢
    rw [hbase]
    exact hinherits
  obtain ⟨s', hs', h', hempty', hlocal, howner, hinherited⟩ :=
    restorePriority_spec bal (h.wellFormed.setBase t value) h.noEmptyLock hothers
  exact ⟨s', hs', ⟨h', hempty', hinherited⟩, hlocal.toFrame, hlocal.keys, howner⟩

omit [DecidableEq T] [Fintype T] in
/-- What has to be shown of a step that only sets the fields of one thread that waits on no lock. -/
theorem Consistent.of_keys {s' : State T} (h : s.Consistent) {t : T}
    (hw : s.waitingLockInfo t = none) (hcondvar : s'.CondvarTrees) (hsame : s' = { s with
      addressKey := s'.addressKey
      addressKeyValue := s'.addressKeyValue
      isKernelAddressKey := s'.isKernelAddressKey
      conditionVariableTree := s'.conditionVariableTree
      conditionVariableKey := s'.conditionVariableKey
      condvarTree := s'.condvarTree
      insertTime := s'.insertTime
      time := s'.time })
    (haddress : ∀ u, u ≠ t → s'.addressKey u = s.addressKey u)
    (hkernel : ∀ u, u ≠ t → s'.isKernelAddressKey u = s.isKernelAddressKey u)
    (htree : ∀ u, u ≠ t → s'.conditionVariableTree u = s.conditionVariableTree u) :
    s'.Consistent := by
  have hne : ∀ w l, s.waitingLockInfo w = some l → w ≠ t := by
    rintro w l hwl rfl
    rw [hw] at hwl
    exact absurd hwl (by simp)
  rw [hsame] at hcondvar ⊢
  refine ⟨?_, h.noEmptyLock, h.inherited⟩
  constructor
  case condvar => exact hcondvar
  case held_nodup => exact h.wellFormed.held_nodup
  case held_owner => exact h.wellFormed.held_owner
  case held_lt => exact h.wellFormed.held_lt
  case waiting_held => exact h.wellFormed.waiting_held
  case mem_waiters => exact h.wellFormed.mem_waiters
  case waiters_nodup => exact h.wellFormed.waiters_nodup
  case waiters_sorted => exact h.wellFormed.waiters_sorted
  case waiterCount_eq => exact h.wellFormed.waiterCount_eq
  case addressKey_eq =>
    exact fun w l hwl => (haddress w (hne w l hwl)).trans (h.wellFormed.addressKey_eq w l hwl)
  case isKernel_eq =>
    exact fun w l hwl => (hkernel w (hne w l hwl)).trans (h.wellFormed.isKernel_eq w l hwl)
  case not_condvar =>
    exact fun w l hwl => (htree w (hne w l hwl)).trans (h.wellFormed.not_condvar w l hwl)
  case numKernelWaiters_eq => exact h.wellFormed.numKernelWaiters_eq

/-! ## Bounds of the priorities -/

section Bounds

variable {s' : State T} {b : Int}

/-- No priority is more urgent than `b`. -/
structure AtLeast (s : State T) (b : Int) : Prop where
  base : ∀ t, b ≤ s.basePriority t
  priority : ∀ t, b ≤ s.priority t

variable {bal : Balancing T} {this thread : T} {p : Int}

omit [DecidableEq T] [Fintype T] in
theorem AtLeast.of_eq (h : s.AtLeast b) (hbase : s'.basePriority = s.basePriority)
    (hpriority : s'.priority = s.priority) : s'.AtLeast b :=
  ⟨fun t => hbase ▸ h.base t, fun t => hpriority ▸ h.priority t⟩

section

omit [Fintype T]

theorem AtLeast.addWaiterImpl (h : s.AtLeast b)
    (hs' : s.addWaiterImpl bal this thread = some s') : s'.AtLeast b := by
  have hcreate : ∀ (s : State T) key isKernel,
      (s.findOrCreateLock this key isKernel).2.basePriority = s.basePriority ∧
        (s.findOrCreateLock this key isKernel).2.priority = s.priority := by
    intro s key isKernel
    rw [findOrCreateLock]
    split
    · exact ⟨rfl, rfl⟩
    · exact ⟨rfl, rfl⟩
  rw [State.addWaiterImpl] at hs'
  split_ifs at hs'
  all_goals
    obtain rfl := some.inj hs'
    exact h.of_eq (hcreate _ _ _).1 (hcreate _ _ _).2

theorem AtLeast.removeWaiterImpl (h : s.AtLeast b)
    (hs' : s.removeWaiterImpl bal this thread = some s') : s'.AtLeast b := by
  rw [State.removeWaiterImpl] at hs'
  dsimp only at hs'
  split_ifs at hs'
  all_goals
    split at hs'
    · exact absurd hs' (by simp)
    · split_ifs at hs'
      all_goals
        obtain rfl := some.inj hs'
        exact h.of_eq rfl rfl

theorem AtLeast.handOverLock (h : s.AtLeast b) {next : T} {lock : LockId} {more : Bool}
    (hs' : s.handOverLock bal this lock = some (next, more, s')) : s'.AtLeast b := by
  rw [State.handOverLock] at hs'
  dsimp only at hs'
  split_ifs at hs'
  all_goals
    split at hs'
    · exact absurd hs' (by simp)
    · split_ifs at hs'
      all_goals
        simp only [some.injEq, Prod.mk.injEq] at hs'
        obtain ⟨-, -, rfl⟩ := hs'
        exact h.of_eq rfl rfl

end

omit [DecidableEq T] [Fintype T] in
theorem AtLeast.newPriority (h : s.AtLeast b) {t : T} (hp : s.newPriority t = some p) : b ≤ p := by
  have hfold : ∀ (L : List LockId) (q : Int), b ≤ q →
      L.foldlM (fun newPriority lock =>
        (s.getHighestPriorityWaiter lock).map fun waiter => min newPriority (s.priority waiter)) q =
        some p → b ≤ p := by
    intro L
    induction L with
    | nil =>
      intro q hq heq
      obtain rfl := some.inj heq
      exact hq
    | cons l L ih =>
      intro q hq heq
      rw [List.foldlM_cons] at heq
      cases hw : s.getHighestPriorityWaiter l with
      | none => simp [hw] at heq
      | some w =>
        rw [hw, map_some] at heq
        exact ih _ (le_min hq (h.priority w)) heq
  exact hfold _ _ (h.base t) hp

section

omit [Fintype T]

theorem AtLeast.changePriority (h : s.AtLeast b) (bal : Balancing T) (t : T)
    (hp : b ≤ p) : (s.changePriority bal t p).AtLeast b := by
  obtain ⟨trees, times, now, heq⟩ := s.changePriority_eq bal t p
  rw [heq]
  refine ⟨h.base, fun u => ?_⟩
  by_cases hu : u = t
  · simpa [hu] using hp
  · simpa [hu] using h.priority u

theorem AtLeast.requeue (h : s.AtLeast b) {t : T}
    (hp : b ≤ p) (hs' : s.requeue bal t p = some s') : s'.AtLeast b := by
  rw [State.requeue] at hs'
  split at hs'
  · obtain rfl := some.inj hs'
    exact h.changePriority bal t hp
  · obtain ⟨s₁, hs₁, hs'⟩ := bind_eq_some_iff.mp hs'
    exact ((h.removeWaiterImpl hs₁).changePriority bal t hp).addWaiterImpl hs'

theorem AtLeast.restorePriorityLoop (h : s.AtLeast b) {fuel : Nat}
    {it : Option T} (hs' : restorePriorityLoop bal fuel s it = some s') : s'.AtLeast b := by
  induction fuel generalizing s it with
  | zero =>
    cases it with
    | none => exact some.inj hs' ▸ h
    | some t => exact absurd hs' (by simp [State.restorePriorityLoop])
  | succ fuel ih =>
    cases it with
    | none => exact some.inj hs' ▸ h
    | some t =>
      rw [State.restorePriorityLoop] at hs'
      obtain ⟨p, hp, hs'⟩ := bind_eq_some_iff.mp hs'
      split at hs'
      · exact some.inj hs' ▸ h
      · obtain ⟨s₁, hs₁, hs'⟩ := bind_eq_some_iff.mp hs'
        exact ih (h.requeue (h.newPriority hp) hs₁) hs'

end

theorem AtLeast.addWaiter (h : s.AtLeast b)
    (hs' : s.addWaiter bal this thread = some s') : s'.AtLeast b := by
  obtain ⟨s₁, hs₁, hs'⟩ := bind_eq_some_iff.mp hs'
  have h₁ := h.addWaiterImpl hs₁
  split at hs'
  · exact h₁.restorePriorityLoop hs'
  · exact some.inj hs' ▸ h₁

theorem AtLeast.removeWaiter (h : s.AtLeast b)
    (hs' : s.removeWaiter bal this thread = some s') : s'.AtLeast b := by
  obtain ⟨s₁, hs₁, hs'⟩ := bind_eq_some_iff.mp hs'
  have h₁ := h.removeWaiterImpl hs₁
  split at hs'
  · exact h₁.restorePriorityLoop hs'
  · exact some.inj hs' ▸ h₁

theorem AtLeast.removeWaiterByKey (h : s.AtLeast b)
    {key : BitVec 64} {isKernel more : Bool} {next : Option T}
    (hs' : s.removeWaiterByKey bal this key isKernel = some (next, more, s')) : s'.AtLeast b := by
  rw [State.removeWaiterByKey] at hs'
  split at hs'
  · simp only [some.injEq, Prod.mk.injEq] at hs'
    exact hs'.2.2 ▸ h
  · obtain ⟨⟨n, m, s₁⟩, hs₁, hs'⟩ := bind_eq_some_iff.mp hs'
    have h₁ := h.handOverLock hs₁
    dsimp only at hs'
    split at hs'
    · obtain ⟨s₂, hs₂, hs'⟩ := bind_eq_some_iff.mp hs'
      simp only [some.injEq, Prod.mk.injEq] at hs'
      exact hs'.2.2 ▸ h₁.restorePriorityLoop hs₂
    · simp only [bind_eq_bind, bind_some, some.injEq, Prod.mk.injEq] at hs'
      exact hs'.2.2 ▸ h₁

end Bounds

/-! ## Keys and trees -/

section Keys

variable {t : T}

section

omit [Fintype T]

theorem Consistent.setUserAddressKey (h : s.Consistent) (hw : s.waitingLockInfo t = none)
    (key : BitVec 64) (value : BitVec 32) :
    ∃ s', s.setUserAddressKey t key value = some s' ∧ s'.Consistent ∧
      s' = { s with
        addressKey := update s.addressKey t key
        addressKeyValue := update s.addressKeyValue t value
        isKernelAddressKey := update s.isKernelAddressKey t false } := by
  have hcondvar := h.wellFormed.condvar
  rw [State.setUserAddressKey, if_neg (not_not.mpr hw)]
  refine ⟨_, rfl, h.of_keys hw
    ⟨hcondvar.mem_iff, hcondvar.nodup, hcondvar.sorted, hcondvar.insertTime_lt⟩ rfl ?_ ?_
    fun u _ => rfl, rfl⟩
  · exact fun u hu => by simp [hu]
  · exact fun u hu => by simp [hu]

theorem Consistent.setKernelAddressKey (h : s.Consistent) (hw : s.waitingLockInfo t = none)
    (key : BitVec 64) : ∃ s', s.setKernelAddressKey t key = some s' ∧ s'.Consistent ∧
      s'.getLockOwner = s.getLockOwner := by
  have hcondvar := h.wellFormed.condvar
  rw [State.setKernelAddressKey, if_neg (not_not.mpr hw)]
  refine ⟨_, rfl, h.of_keys hw
    ⟨hcondvar.mem_iff, hcondvar.nodup, hcondvar.sorted, hcondvar.insertTime_lt⟩ rfl ?_ ?_
    fun u _ => rfl, rfl⟩
  · exact fun u hu => by simp [hu]
  · exact fun u hu => by simp [hu]

/-- A thread begins to wait for a condition variable. -/
theorem Consistent.setConditionVariable (h : s.Consistent) (bal : Balancing T)
    (hw : s.waitingLockInfo t = none) (htree : s.conditionVariableTree t = none) (c : TreeId)
    (address cvKey : BitVec 64) (value : BitVec 32) :
    ∃ s', s.setConditionVariable t c address cvKey value = some s' ∧
      (s'.insertCondvar bal c t).Consistent ∧
      s' = { s with
        conditionVariableTree := update s.conditionVariableTree t (some c)
        conditionVariableKey := update s.conditionVariableKey t cvKey
        addressKey := update s.addressKey t address
        addressKeyValue := update s.addressKeyValue t value
        isKernelAddressKey := update s.isKernelAddressKey t false } := by
  rw [State.setConditionVariable, if_neg (not_not.mpr hw)]
  refine ⟨_, rfl, h.of_keys hw
    (h.wellFormed.condvar.enter bal htree rfl rfl ?_ rfl rfl) rfl ?_ ?_ ?_, rfl⟩
  · exact fun u hu => by simp [condvarOrder, hu]
  · exact fun u hu => by simp [insertCondvar, hu]
  · exact fun u hu => by simp [insertCondvar, hu]
  · exact fun u hu => by simp [insertCondvar, hu]

/-- A thread begins to wait for an address arbiter. -/
theorem Consistent.setAddressArbiter (h : s.Consistent) (bal : Balancing T)
    (hw : s.waitingLockInfo t = none) (htree : s.conditionVariableTree t = none) (c : TreeId)
    (address : BitVec 64) :
    ∃ s', s.setAddressArbiter t c address = some s' ∧ (s'.insertCondvar bal c t).Consistent ∧
      s' = { s with
        conditionVariableTree := update s.conditionVariableTree t (some c)
        conditionVariableKey := update s.conditionVariableKey t address } := by
  rw [State.setAddressArbiter, if_neg (not_not.mpr hw)]
  refine ⟨_, rfl, h.of_keys hw
    (h.wellFormed.condvar.enter bal htree rfl rfl ?_ rfl rfl) rfl (fun u _ => rfl)
    (fun u _ => rfl) ?_, rfl⟩
  · exact fun u hu => by simp [condvarOrder, hu]
  · exact fun u hu => by simp [insertCondvar, hu]

end

omit [DecidableEq T] [Fintype T] in
theorem Consistent.waitingLockInfo_of_tree (h : s.Consistent) {c : TreeId}
    (hc : s.conditionVariableTree t = some c) : s.waitingLockInfo t = none := by
  refine eq_none_iff_forall_ne_some.mpr fun l hl => ?_
  rw [h.wellFormed.not_condvar t l hl] at hc
  exact absurd hc (by simp)

omit [Fintype T] in
/-- A thread leaves its tree. -/
theorem Consistent.leaveTree (h : s.Consistent) (bal : Balancing T) {c : TreeId}
    (hc : s.conditionVariableTree t = some c) :
    ((s.eraseCondvar bal c t).clearConditionVariable t).Consistent := by
  refine h.of_keys (h.waitingLockInfo_of_tree hc) (h.wellFormed.condvar.leave bal hc) rfl
    (fun u _ => rfl) (fun u _ => rfl) ?_
  exact fun u hu => by simp [clearConditionVariable, eraseCondvar, hu]

end Keys

end State

end Sudachi.Kernel.ThreadLocks
