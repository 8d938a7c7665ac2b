import Sudachi.Kernel.ThreadLocks
import Sudachi.Foundations.WaitGraph
import Mathlib.Data.Prod.Lex

/-!
# What holds of threads and locks

`WellFormed` ties the held locks, the trees of waiters and the counters of a state together;
`NoEmptyLock` says that a held lock has a waiter. Both hold between the operations. Inside of one a
lock may be empty for a moment: the steps that operations are made of keep `WellFormed` one by one
(`newLock`, `join`, `leave`, `drop` and `transfer`), and `AddWaiterImpl`, `RemoveWaiterImpl` and
the hand-over of a lock are put together from them.
-/

set_option autoImplicit false

namespace Sudachi.Kernel.ThreadLocks

open Sudachi.Foundations List Function Option
open SearchTree (Balancing)

namespace State

variable {T : Type} [DecidableEq T]

/-- The waiters of a lock, in the order of its tree. -/
def waiters (s : State T) (l : LockId) : List T :=
  (s.lockTree l).toList

/-- How many kernel waiters a lock stands for. -/
def kernelWeight (s : State T) (l : LockId) : Int :=
  if s.lockIsKernelAddressKey l then (s.waiters l).length else 0

/-- By what the trees of condition variables and arbiters are sorted. -/
def condvarOrder (s : State T) (t : T) : ℕ ×ₗ ℤ :=
  toLex ((s.conditionVariableKey t).toNat, s.priority t)

/-- The order of a tree: by key, then by priority, and then by the time of arrival. -/
def Precedes (s : State T) (a b : T) : Prop :=
  s.condvarOrder a < s.condvarOrder b ∨
    s.condvarOrder a = s.condvarOrder b ∧ s.insertTime a < s.insertTime b

structure CondvarTrees (s : State T) : Prop where
  mem_iff : ∀ c t, t ∈ (s.condvarTree c).toList ↔ s.conditionVariableTree t = some c
  nodup : ∀ c, (s.condvarTree c).toList.Nodup
  sorted : ∀ c, (s.condvarTree c).toList.Pairwise s.Precedes
  insertTime_lt : ∀ t, s.insertTime t < s.time

structure WellFormed (s : State T) : Prop where
  held_nodup : ∀ t, (s.heldLockInfoList t).Nodup
  held_owner : ∀ t, ∀ l ∈ s.heldLockInfoList t, s.lockOwner l = some t
  held_lt : ∀ t, ∀ l ∈ s.heldLockInfoList t, l < s.nextLock
  waiting_held : ∀ w l, s.waitingLockInfo w = some l → ∃ t, l ∈ s.heldLockInfoList t
  mem_waiters : ∀ l w, w ∈ s.waiters l ↔ s.waitingLockInfo w = some l
  waiters_nodup : ∀ l, (s.waiters l).Nodup
  waiters_sorted : ∀ l, (s.waiters l).Pairwise fun a b => s.priority a ≤ s.priority b
  waiterCount_eq : ∀ l, s.lockWaiterCount l = (s.waiters l).length
  addressKey_eq : ∀ w l, s.waitingLockInfo w = some l → s.addressKey w = s.lockAddressKey l
  isKernel_eq : ∀ w l, s.waitingLockInfo w = some l →
    s.isKernelAddressKey w = s.lockIsKernelAddressKey l
  not_condvar : ∀ w l, s.waitingLockInfo w = some l → s.conditionVariableTree w = none
  numKernelWaiters_eq : ∀ t, s.numKernelWaiters t = ((s.heldLockInfoList t).map s.kernelWeight).sum
  condvar : s.CondvarTrees

def NoEmptyLock (s : State T) : Prop :=
  ∀ t, ∀ l ∈ s.heldLockInfoList t, s.waiters l ≠ []

/-! ## First consequences -/

namespace WellFormed

variable {s : State T} {t u w : T} {l : LockId}

omit [DecidableEq T]

theorem eq_of_held (h : s.WellFormed) (ht : l ∈ s.heldLockInfoList t)
    (hu : l ∈ s.heldLockInfoList u) : t = u :=
  some.inj ((h.held_owner t l ht).symm.trans (h.held_owner u l hu))

theorem held_of_owner (h : s.WellFormed) (hw : s.waitingLockInfo w = some l)
    (ho : s.lockOwner l = some t) : l ∈ s.heldLockInfoList t := by
  obtain ⟨u, hu⟩ := h.waiting_held w l hw
  obtain rfl := some.inj ((h.held_owner u l hu).symm.trans ho)
  exact hu

theorem getLockOwner_iff (h : s.WellFormed) :
    s.getLockOwner w = some t ↔ ∃ l, s.waitingLockInfo w = some l ∧ l ∈ s.heldLockInfoList t := by
  simp only [getLockOwner, bind_eq_some_iff]
  constructor
  · rintro ⟨l, hw, ho⟩
    exact ⟨l, hw, h.held_of_owner hw ho⟩
  · rintro ⟨l, hw, hl⟩
    exact ⟨l, hw, h.held_owner t l hl⟩

theorem getLockOwner_eq_none (h : s.WellFormed) :
    s.getLockOwner w = none ↔ s.waitingLockInfo w = none := by
  constructor
  · intro hnone
    cases hw : s.waitingLockInfo w with
    | none => rfl
    | some l =>
      obtain ⟨t, ht⟩ := h.waiting_held w l hw
      rw [h.getLockOwner_iff.mpr ⟨l, hw, ht⟩] at hnone
      exact absurd hnone (by simp)
  · intro hw
    rw [getLockOwner, hw, bind_none]

theorem waiters_eq_nil (h : s.WellFormed) (hl : ∀ t, l ∉ s.heldLockInfoList t) :
    s.waiters l = [] := by
  refine eq_nil_iff_forall_not_mem.mpr fun w hw => ?_
  obtain ⟨t, ht⟩ := h.waiting_held w l ((h.mem_waiters l w).mp hw)
  exact hl t ht

theorem nextLock_not_held (h : s.WellFormed) (t : T) : s.nextLock ∉ s.heldLockInfoList t :=
  fun hmem => absurd (h.held_lt t _ hmem) (lt_irrefl _)

end WellFormed

/-! ## The sum of the kernel waiters -/

theorem sum_map_update {L : List LockId} {f g : LockId → Int} {l : LockId} (hnodup : L.Nodup)
    (hl : l ∈ L) (hfg : ∀ m, m ≠ l → g m = f m) : (L.map g).sum = (L.map f).sum + (g l - f l) := by
  have hrest : (L.erase l).map g = (L.erase l).map f :=
    map_congr_left fun m hm => hfg m fun heq => by
      rw [heq] at hm
      exact hnodup.not_mem_erase hm
  have hf := sum_map_erase f hl
  have hg := sum_map_erase g hl
  rw [hrest] at hg
  omega

theorem map_congr_of_not_mem {L : List LockId} {f g : LockId → Int} {l : LockId}
    (hl : l ∉ L) (hfg : ∀ m, m ≠ l → g m = f m) : L.map g = L.map f :=
  map_congr_left fun m hm => hfg m fun heq => hl (heq ▸ hm)

/-! ## The steps of the operations -/

section Steps

variable {s : State T} {this w : T} {l : LockId}

/-- A new lock that has no waiter yet. -/
def newLock (s : State T) (this : T) (addressKey : BitVec 64) (isKernel : Bool) : State T :=
  (s.create addressKey isKernel).2.addHeldLock this s.nextLock

theorem waiters_newLock (h : s.WellFormed) (this : T) (key : BitVec 64) (isKernel : Bool)
    (m : LockId) : (s.newLock this key isKernel).waiters m = s.waiters m := by
  by_cases hm : m = s.nextLock
  · subst hm
    rw [h.waiters_eq_nil h.nextLock_not_held]
    simp [waiters, newLock, create, addHeldLock, SearchTree.toList]
  · simp [waiters, newLock, create, addHeldLock, hm]

theorem WellFormed.newLock (h : s.WellFormed) (this : T) (key : BitVec 64) (isKernel : Bool) :
    (s.newLock this key isKernel).WellFormed := by
  have hwaiters := waiters_newLock h this key isKernel
  have hfresh : ∀ w l, s.waitingLockInfo w = some l → l ≠ s.nextLock := by
    rintro w l hw rfl
    obtain ⟨t, ht⟩ := h.waiting_held w _ hw
    exact h.nextLock_not_held t ht
  have hheld : ∀ t l, l ∈ (s.newLock this key isKernel).heldLockInfoList t ↔
      l = s.nextLock ∧ t = this ∨ l ∈ s.heldLockInfoList t := by
    intro t l
    by_cases ht : t = this
    · subst ht
      simp [State.newLock, create, addHeldLock]
    · simp [State.newLock, create, addHeldLock, ht]
  constructor
  case held_nodup =>
    intro t
    by_cases ht : t = this
    · subst ht
      simpa [State.newLock, create, addHeldLock] using ⟨h.nextLock_not_held t, h.held_nodup t⟩
    · simpa [State.newLock, create, addHeldLock, ht] using h.held_nodup t
  case held_owner =>
    intro t l hl
    rcases (hheld t l).mp hl with ⟨rfl, rfl⟩ | hl
    · simp [State.newLock, create, addHeldLock]
    · have hne : l ≠ s.nextLock := fun heq => h.nextLock_not_held t (heq ▸ hl)
      simpa [State.newLock, create, addHeldLock, hne] using h.held_owner t l hl
  case held_lt =>
    intro t l hl
    rcases (hheld t l).mp hl with ⟨rfl, rfl⟩ | hl
    · exact Nat.lt_succ_self _
    · exact Nat.lt_succ_of_lt (h.held_lt t l hl)
  case waiting_held =>
    intro w l hw
    obtain ⟨t, ht⟩ := h.waiting_held w l hw
    exact ⟨t, (hheld t l).mpr (.inr ht)⟩
  case mem_waiters => exact fun l w => by rw [hwaiters]; exact h.mem_waiters l w
  case waiters_nodup => exact fun l => by rw [hwaiters]; exact h.waiters_nodup l
  case waiters_sorted => exact fun l => by rw [hwaiters]; exact h.waiters_sorted l
  case waiterCount_eq =>
    intro l
    rw [hwaiters]
    by_cases hl : l = s.nextLock
    · subst hl
      simp [State.newLock, create, addHeldLock, h.waiters_eq_nil h.nextLock_not_held]
    · simpa [State.newLock, create, addHeldLock, hl] using h.waiterCount_eq l
  case addressKey_eq =>
    intro w l hw
    simpa [State.newLock, create, addHeldLock, hfresh w l hw] using h.addressKey_eq w l hw
  case isKernel_eq =>
    intro w l hw
    simpa [State.newLock, create, addHeldLock, hfresh w l hw] using h.isKernel_eq w l hw
  case not_condvar => exact h.not_condvar
  case numKernelWaiters_eq =>
    intro t
    have hweight : ∀ m, m ≠ s.nextLock →
        (s.newLock this key isKernel).kernelWeight m = s.kernelWeight m := by
      intro m hm
      rw [kernelWeight, kernelWeight, hwaiters]
      simp [State.newLock, create, addHeldLock, hm]
    have hmap := map_congr_of_not_mem (h.nextLock_not_held t) hweight
    by_cases ht : t = this
    · subst ht
      have hzero : (s.newLock t key isKernel).kernelWeight s.nextLock = 0 := by
        rw [kernelWeight, hwaiters, h.waiters_eq_nil h.nextLock_not_held]
        simp
      have hlist : (s.newLock t key isKernel).heldLockInfoList t =
          s.nextLock :: s.heldLockInfoList t := by
        simp [State.newLock, create, addHeldLock]
      rw [hlist, map_cons, sum_cons, hzero, hmap, zero_add]
      exact h.numKernelWaiters_eq t
    · have hlist : (s.newLock this key isKernel).heldLockInfoList t = s.heldLockInfoList t := by
        simp [State.newLock, create, addHeldLock, ht]
      rw [hlist, hmap]
      exact h.numKernelWaiters_eq t
  case condvar =>
    exact ⟨h.condvar.mem_iff, h.condvar.nodup, h.condvar.sorted, h.condvar.insertTime_lt⟩

/-- One waiter more, counted with the kernel waiters when it is one. -/
def addKernelWaiters (s : State T) (this : T) (n : Int) : State T :=
  s.setNumKernelWaiters this (s.numKernelWaiters this + n)

theorem addKernelWaiters_zero (s : State T) (this : T) : s.addKernelWaiters this 0 = s := by
  simp [addKernelWaiters, setNumKernelWaiters]

/-- What one waiter counts for. -/
def kernelUnit (s : State T) (w : T) : Int :=
  if s.isKernelAddressKey w then 1 else 0

def join (bal : Balancing T) (s : State T) (this : T) (l : LockId) (w : T) : State T :=
  (s.addKernelWaiters this (s.kernelUnit w)).lockAddWaiter bal l w

def leave (bal : Balancing T) (s : State T) (this : T) (l : LockId) (w : T) : State T :=
  (s.addKernelWaiters this (- s.kernelUnit w)).lockRemoveWaiter bal l w

omit [DecidableEq T] in
theorem lockCompare_neg_iff (s : State T) (a b : T) :
    s.lockCompare a b < 0 ↔ s.priority a < s.priority b := by
  by_cases hab : s.priority a < s.priority b
  · simp [lockCompare, hab]
  · simp [lockCompare, hab]

omit [DecidableEq T] in
theorem lockCompare_ne_zero (s : State T) (a b : T) : s.lockCompare a b ≠ 0 := by
  unfold lockCompare
  split <;> simp

variable {bal : Balancing T}

theorem waiters_join_of_ne {m : LockId} (hm : m ≠ l) :
    (s.join bal this l w).waiters m = s.waiters m := by
  simp [waiters, join, lockAddWaiter, addKernelWaiters, setNumKernelWaiters, hm]

theorem waiters_join (h : s.WellFormed) (bal : Balancing T) (this : T) (l : LockId) (w : T) :
    ((s.join bal this l w).waiters l).Perm (w :: s.waiters l) ∧
      ((s.join bal this l w).waiters l).Pairwise fun a b => s.priority a ≤ s.priority b := by
  have htree : (s.join bal this l w).waiters l =
      ((s.lockTree l).insert bal (s.lockCompare w) w).toList := by
    simp only [waiters, join, lockAddWaiter, addKernelWaiters, setNumKernelWaiters, update_self]
    rfl
  rw [htree]
  have hne := fun b (_ : b ∈ (s.lockTree l).toList) => s.lockCompare_ne_zero w b
  have hcmp := fun b (_ : b ∈ (s.lockTree l).toList) => s.lockCompare_neg_iff w b
  exact ⟨SearchTree.toList_insert_perm bal hne hcmp (h.waiters_sorted l),
    SearchTree.pairwise_toList_insert bal hne hcmp (h.waiters_sorted l)⟩

theorem waitingLockInfo_join (v : T) : (s.join bal this l w).waitingLockInfo v =
      if v = w then some l else s.waitingLockInfo v := by
  simp [join, lockAddWaiter, addKernelWaiters, setNumKernelWaiters, update_apply]

theorem WellFormed.join (h : s.WellFormed) (hl : l ∈ s.heldLockInfoList this)
    (hw : s.waitingLockInfo w = none) (hcondvar : s.conditionVariableTree w = none)
    (hkey : s.addressKey w = s.lockAddressKey l)
    (hkernel : s.isKernelAddressKey w = s.lockIsKernelAddressKey l) :
    (s.join bal this l w).WellFormed := by
  obtain ⟨hperm, hsorted⟩ := waiters_join h bal this l w
  have hout : w ∉ s.waiters l := fun hmem => by
    rw [(h.mem_waiters l w).mp hmem] at hw
    exact absurd hw (by simp)
  have hwaiting : ∀ {v m}, (s.join bal this l w).waitingLockInfo v = some m →
      v = w ∧ m = l ∨ s.waitingLockInfo v = some m := by
    intro v m hv
    rw [waitingLockInfo_join] at hv
    split at hv
    · case isTrue heq => exact .inl ⟨heq, (some.inj hv).symm⟩
    · exact .inr hv
  constructor
  case held_nodup => exact h.held_nodup
  case held_owner => exact h.held_owner
  case held_lt => exact h.held_lt
  case waiting_held =>
    intro v m hv
    rcases hwaiting hv with ⟨rfl, rfl⟩ | hv
    · exact ⟨this, hl⟩
    · exact h.waiting_held v m hv
  case mem_waiters =>
    intro m v
    rw [waitingLockInfo_join]
    by_cases hm : m = l
    · subst hm
      rw [hperm.mem_iff, mem_cons, h.mem_waiters]
      by_cases hv : v = w
      · simp [hv]
      · simp [hv]
    · rw [waiters_join_of_ne hm, h.mem_waiters]
      by_cases hv : v = w
      · simp [hv, hw, Ne.symm hm]
      · simp [hv]
  case waiters_nodup =>
    intro m
    by_cases hm : m = l
    · subst hm
      exact hperm.nodup_iff.mpr (nodup_cons.mpr ⟨hout, h.waiters_nodup m⟩)
    · rw [waiters_join_of_ne hm]
      exact h.waiters_nodup m
  case waiters_sorted =>
    intro m
    by_cases hm : m = l
    · subst hm
      exact hsorted
    · rw [waiters_join_of_ne hm]
      exact h.waiters_sorted m
  case waiterCount_eq =>
    intro m
    by_cases hm : m = l
    · subst hm
      rw [hperm.length_eq, length_cons, ← h.waiterCount_eq]
      simp [State.join, lockAddWaiter, addKernelWaiters, setNumKernelWaiters]
    · rw [waiters_join_of_ne hm, ← h.waiterCount_eq]
      simp [State.join, lockAddWaiter, addKernelWaiters, setNumKernelWaiters, hm]
  case addressKey_eq =>
    intro v m hv
    rcases hwaiting hv with ⟨rfl, rfl⟩ | hv
    · exact hkey
    · exact h.addressKey_eq v m hv
  case isKernel_eq =>
    intro v m hv
    rcases hwaiting hv with ⟨rfl, rfl⟩ | hv
    · exact hkernel
    · exact h.isKernel_eq v m hv
  case not_condvar =>
    intro v m hv
    rcases hwaiting hv with ⟨rfl, rfl⟩ | hv
    · exact hcondvar
    · exact h.not_condvar v m hv
  case numKernelWaiters_eq =>
    have hweight : ∀ m, m ≠ l → (s.join bal this l w).kernelWeight m = s.kernelWeight m := by
      intro m hm
      rw [kernelWeight, waiters_join_of_ne hm]
      rfl
    have hdelta : (s.join bal this l w).kernelWeight l - s.kernelWeight l = s.kernelUnit w := by
      simp only [kernelWeight, kernelUnit, hperm.length_eq, hkernel,
        show (s.join bal this l w).lockIsKernelAddressKey l = s.lockIsKernelAddressKey l from rfl]
      split <;> simp
    intro t
    have hheld : (s.join bal this l w).heldLockInfoList t = s.heldLockInfoList t := rfl
    rw [hheld]
    by_cases ht : t = this
    · subst ht
      rw [sum_map_update (h.held_nodup t) hl hweight, hdelta, ← h.numKernelWaiters_eq]
      simp [State.join, lockAddWaiter, addKernelWaiters, setNumKernelWaiters]
    · have hnot : l ∉ s.heldLockInfoList t := fun hmem => ht (h.eq_of_held hmem hl)
      rw [map_congr_of_not_mem hnot hweight, ← h.numKernelWaiters_eq]
      simp [State.join, lockAddWaiter, addKernelWaiters, setNumKernelWaiters, ht]
  case condvar =>
    exact ⟨h.condvar.mem_iff, h.condvar.nodup, h.condvar.sorted, h.condvar.insertTime_lt⟩

theorem waiters_leave_of_ne {m : LockId} (hm : m ≠ l) :
    (s.leave bal this l w).waiters m = s.waiters m := by
  simp [waiters, leave, lockRemoveWaiter, addKernelWaiters, setNumKernelWaiters, hm]

theorem waiters_leave : (s.leave bal this l w).waiters l = (s.waiters l).erase w := by
  simp [waiters, leave, lockRemoveWaiter, addKernelWaiters, setNumKernelWaiters, bal.toList_remove]

theorem waitingLockInfo_leave (v : T) : (s.leave bal this l w).waitingLockInfo v =
      if v = w then none else s.waitingLockInfo v := by
  simp [leave, lockRemoveWaiter, addKernelWaiters, setNumKernelWaiters, update_apply]

theorem WellFormed.leave (h : s.WellFormed) (hl : l ∈ s.heldLockInfoList this)
    (hw : s.waitingLockInfo w = some l) : (s.leave bal this l w).WellFormed := by
  have hmem : w ∈ s.waiters l := (h.mem_waiters l w).mpr hw
  have hwaiting : ∀ {v m}, (s.leave bal this l w).waitingLockInfo v = some m →
      v ≠ w ∧ s.waitingLockInfo v = some m := by
    intro v m hv
    rw [waitingLockInfo_leave] at hv
    split at hv
    · exact absurd hv (by simp)
    · case isFalse hne => exact ⟨hne, hv⟩
  constructor
  case held_nodup => exact h.held_nodup
  case held_owner => exact h.held_owner
  case held_lt => exact h.held_lt
  case waiting_held => exact fun v m hv => h.waiting_held v m (hwaiting hv).2
  case mem_waiters =>
    intro m v
    rw [waitingLockInfo_leave]
    by_cases hm : m = l
    · subst hm
      rw [waiters_leave, (h.waiters_nodup m).mem_erase_iff, h.mem_waiters]
      by_cases hv : v = w
      · simp [hv]
      · simp [hv]
    · rw [waiters_leave_of_ne hm, h.mem_waiters]
      by_cases hv : v = w
      · simp [hv, hw, Ne.symm hm]
      · simp [hv]
  case waiters_nodup =>
    intro m
    by_cases hm : m = l
    · subst hm
      rw [waiters_leave]
      exact (h.waiters_nodup m).erase w
    · rw [waiters_leave_of_ne hm]
      exact h.waiters_nodup m
  case waiters_sorted =>
    intro m
    by_cases hm : m = l
    · subst hm
      rw [waiters_leave]
      exact (h.waiters_sorted m).sublist erase_sublist
    · rw [waiters_leave_of_ne hm]
      exact h.waiters_sorted m
  case waiterCount_eq =>
    intro m
    by_cases hm : m = l
    · subst hm
      rw [waiters_leave, length_erase_of_mem hmem, ← h.waiterCount_eq]
      simp [State.leave, lockRemoveWaiter, addKernelWaiters, setNumKernelWaiters]
    · rw [waiters_leave_of_ne hm, ← h.waiterCount_eq]
      simp [State.leave, lockRemoveWaiter, addKernelWaiters, setNumKernelWaiters, hm]
  case addressKey_eq => exact fun v m hv => h.addressKey_eq v m (hwaiting hv).2
  case isKernel_eq => exact fun v m hv => h.isKernel_eq v m (hwaiting hv).2
  case not_condvar => exact fun v m hv => h.not_condvar v m (hwaiting hv).2
  case numKernelWaiters_eq =>
    have hweight : ∀ m, m ≠ l → (s.leave bal this l w).kernelWeight m = s.kernelWeight m := by
      intro m hm
      rw [kernelWeight, waiters_leave_of_ne hm]
      rfl
    have hdelta :
        (s.leave bal this l w).kernelWeight l - s.kernelWeight l = - s.kernelUnit w := by
      have hpos : 0 < (s.waiters l).length := length_pos_of_mem hmem
      simp only [kernelWeight, kernelUnit, waiters_leave, length_erase_of_mem hmem,
        h.isKernel_eq w l hw,
        show (s.leave bal this l w).lockIsKernelAddressKey l = s.lockIsKernelAddressKey l from rfl]
      split
      · omega
      · rfl
    intro t
    have hheld : (s.leave bal this l w).heldLockInfoList t = s.heldLockInfoList t := rfl
    rw [hheld]
    by_cases ht : t = this
    · subst ht
      rw [sum_map_update (h.held_nodup t) hl hweight, hdelta, ← h.numKernelWaiters_eq]
      simp [State.leave, lockRemoveWaiter, addKernelWaiters, setNumKernelWaiters]
    · have hnot : l ∉ s.heldLockInfoList t := fun hmem => ht (h.eq_of_held hmem hl)
      rw [map_congr_of_not_mem hnot hweight, ← h.numKernelWaiters_eq]
      simp [State.leave, lockRemoveWaiter, addKernelWaiters, setNumKernelWaiters, ht]
  case condvar =>
    exact ⟨h.condvar.mem_iff, h.condvar.nodup, h.condvar.sorted, h.condvar.insertTime_lt⟩

theorem mem_eraseHeldLock (h : s.WellFormed) (this : T) (l : LockId) {t : T} {m : LockId} :
    m ∈ (s.eraseHeldLock this l).heldLockInfoList t ↔
      m ∈ s.heldLockInfoList t ∧ ¬ (t = this ∧ m = l) := by
  by_cases ht : t = this
  · subst ht
    simp [eraseHeldLock, (h.held_nodup t).mem_erase_iff, and_comm]
  · simp [eraseHeldLock, ht]

/-- A lock without waiters is dropped. -/
theorem WellFormed.drop (h : s.WellFormed) (hempty : s.waiters l = []) :
    (s.eraseHeldLock this l).WellFormed := by
  have hheld := @mem_eraseHeldLock T _ s h this l
  constructor
  case held_nodup =>
    intro t
    by_cases ht : t = this
    · subst ht
      simpa [eraseHeldLock] using (h.held_nodup t).erase l
    · simpa [eraseHeldLock, ht] using h.held_nodup t
  case held_owner => exact fun t m hm => h.held_owner t m (hheld.mp hm).1
  case held_lt => exact fun t m hm => h.held_lt t m (hheld.mp hm).1
  case waiting_held =>
    intro v m hv
    obtain ⟨t, ht⟩ := h.waiting_held v m hv
    refine ⟨t, hheld.mpr ⟨ht, ?_⟩⟩
    rintro ⟨-, rfl⟩
    have hmem := (h.mem_waiters m v).mpr hv
    rw [hempty] at hmem
    exact absurd hmem (by simp)
  case mem_waiters => exact h.mem_waiters
  case waiters_nodup => exact h.waiters_nodup
  case waiters_sorted => exact h.waiters_sorted
  case waiterCount_eq => exact h.waiterCount_eq
  case addressKey_eq => exact h.addressKey_eq
  case isKernel_eq => exact h.isKernel_eq
  case not_condvar => exact h.not_condvar
  case numKernelWaiters_eq =>
    intro t
    have hzero : s.kernelWeight l = 0 := by
      simp [kernelWeight, hempty]
    by_cases ht : t = this
    · subst ht
      have hlist : (s.eraseHeldLock t l).heldLockInfoList t = (s.heldLockInfoList t).erase l := by
        simp [eraseHeldLock]
      have hsum : (((s.heldLockInfoList t).erase l).map s.kernelWeight).sum =
          ((s.heldLockInfoList t).map s.kernelWeight).sum := by
        by_cases hl : l ∈ s.heldLockInfoList t
        · have herase := sum_map_erase s.kernelWeight hl
          rwa [hzero, zero_add] at herase
        · rw [erase_of_not_mem hl]
      rw [hlist]
      exact (h.numKernelWaiters_eq t).trans hsum.symm
    · have hlist : (s.eraseHeldLock this l).heldLockInfoList t = s.heldLockInfoList t := by
        simp [eraseHeldLock, ht]
      rw [hlist]
      exact h.numKernelWaiters_eq t
  case condvar =>
    exact ⟨h.condvar.mem_iff, h.condvar.nodup, h.condvar.sorted, h.condvar.insertTime_lt⟩

/-- A lock goes over to another thread with the waiters it has. -/
def transfer (s : State T) (this next : T) (l : LockId) : State T :=
  (((s.eraseHeldLock this l).addKernelWaiters this (- s.kernelWeight l)).addHeldLock next
    l).addKernelWaiters next (s.kernelWeight l)

theorem mem_transfer (h : s.WellFormed) {this next : T} (hl : l ∈ s.heldLockInfoList this) {t : T}
    {m : LockId} : m ∈ (s.transfer this next l).heldLockInfoList t ↔
      m = l ∧ t = next ∨ m ≠ l ∧ m ∈ s.heldLockInfoList t := by
  have herase : m ∈ (s.eraseHeldLock this l).heldLockInfoList t ↔
      m ≠ l ∧ m ∈ s.heldLockInfoList t := by
    rw [mem_eraseHeldLock h]
    constructor
    · rintro ⟨hm, hnot⟩
      refine ⟨?_, hm⟩
      rintro rfl
      exact hnot ⟨h.eq_of_held hm hl, rfl⟩
    · rintro ⟨hne, hm⟩
      exact ⟨hm, fun heq => hne heq.2⟩
  by_cases ht : t = next
  · subst ht
    simp only [transfer, addKernelWaiters, setNumKernelWaiters, addHeldLock, update_self,
      mem_cons, herase]
    by_cases hm : m = l
    · simp [hm]
    · simp [hm]
  · simp only [transfer, addKernelWaiters, setNumKernelWaiters, addHeldLock,
      update_of_ne ht, herase]
    simp [ht]

theorem WellFormed.transfer (h : s.WellFormed) {this next : T} (hne : next ≠ this)
    (hl : l ∈ s.heldLockInfoList this) : (s.transfer this next l).WellFormed := by
  have hheld := @mem_transfer T _ s l h this next hl
  have hnext : l ∉ s.heldLockInfoList next := fun hmem => hne (h.eq_of_held hmem hl)
  have hlist : ∀ t, (s.transfer this next l).heldLockInfoList t =
      if t = next then l :: s.heldLockInfoList next
      else if t = this then (s.heldLockInfoList this).erase l
      else s.heldLockInfoList t := by
    intro t
    by_cases ht : t = next
    · subst ht
      simp [State.transfer, addKernelWaiters, setNumKernelWaiters, addHeldLock, eraseHeldLock, hne]
    · by_cases ht' : t = this
      · subst ht'
        simp [State.transfer, addKernelWaiters, setNumKernelWaiters, addHeldLock, eraseHeldLock, ht]
      · simp [State.transfer, addKernelWaiters, setNumKernelWaiters, addHeldLock, eraseHeldLock, ht,
          ht']
  constructor
  case held_nodup =>
    intro t
    rw [hlist]
    split
    · exact nodup_cons.mpr ⟨hnext, h.held_nodup next⟩
    · split
      · exact (h.held_nodup this).erase l
      · exact h.held_nodup t
  case held_owner =>
    intro t m hm
    rcases hheld.mp hm with ⟨rfl, rfl⟩ | ⟨hml, hm⟩
    · simp [State.transfer, addKernelWaiters, setNumKernelWaiters, addHeldLock]
    · simpa [State.transfer, addKernelWaiters, setNumKernelWaiters, addHeldLock, eraseHeldLock, hml]
        using h.held_owner t m hm
  case held_lt =>
    intro t m hm
    rcases hheld.mp hm with ⟨rfl, rfl⟩ | ⟨-, hm⟩
    · exact h.held_lt this m hl
    · exact h.held_lt t m hm
  case waiting_held =>
    intro v m hv
    obtain ⟨t, ht⟩ := h.waiting_held v m hv
    by_cases hm : m = l
    · exact ⟨next, hheld.mpr (.inl ⟨hm, rfl⟩)⟩
    · exact ⟨t, hheld.mpr (.inr ⟨hm, ht⟩)⟩
  case mem_waiters => exact h.mem_waiters
  case waiters_nodup => exact h.waiters_nodup
  case waiters_sorted => exact h.waiters_sorted
  case waiterCount_eq => exact h.waiterCount_eq
  case addressKey_eq => exact h.addressKey_eq
  case isKernel_eq => exact h.isKernel_eq
  case not_condvar => exact h.not_condvar
  case numKernelWaiters_eq =>
    intro t
    have hweight : (s.transfer this next l).kernelWeight = s.kernelWeight := rfl
    rw [hlist, hweight]
    by_cases ht : t = next
    · subst ht
      rw [if_pos rfl, map_cons, sum_cons, ← h.numKernelWaiters_eq, add_comm]
      simp [State.transfer, addKernelWaiters, setNumKernelWaiters, addHeldLock, eraseHeldLock, hne]
    · by_cases ht' : t = this
      · subst ht'
        have herase := sum_map_erase s.kernelWeight hl
        rw [← h.numKernelWaiters_eq] at herase
        rw [if_neg ht, if_pos rfl]
        simp [State.transfer, addKernelWaiters, setNumKernelWaiters, addHeldLock, eraseHeldLock, ht]
        omega
      · rw [if_neg ht, if_neg ht', ← h.numKernelWaiters_eq]
        simp [State.transfer, addKernelWaiters, setNumKernelWaiters, addHeldLock, eraseHeldLock, ht,
          ht']
  case condvar =>
    exact ⟨h.condvar.mem_iff, h.condvar.nodup, h.condvar.sorted, h.condvar.insertTime_lt⟩

end Steps

/-! ## A change of priority -/

section Priority

variable {s : State T} {w : T} {bal : Balancing T}

section

omit [DecidableEq T]

theorem condvarCompare_neg_iff (s : State T) (a b : T) :
    s.condvarCompare a b < 0 ↔ s.condvarOrder a < s.condvarOrder b := by
  rw [condvarOrder, condvarOrder, Prod.Lex.toLex_lt_toLex, condvarCompare]
  simp only [BitVec.lt_def, ← BitVec.toNat_inj]
  by_cases hlt : (s.conditionVariableKey a).toNat < (s.conditionVariableKey b).toNat
  · simp [hlt]
  · by_cases hrest : (s.conditionVariableKey a).toNat = (s.conditionVariableKey b).toNat ∧
        s.priority a < s.priority b
    · simp [hrest]
    · simp [hlt, hrest]

theorem condvarCompare_ne_zero (s : State T) (a b : T) : s.condvarCompare a b ≠ 0 := by
  unfold condvarCompare
  split
  · simp
  · split <;> simp

theorem Precedes.le {a b : T} (h : s.Precedes a b) : s.condvarOrder a ≤ s.condvarOrder b := by
  rcases h with hlt | ⟨heq, -⟩
  · exact hlt.le
  · exact heq.le

end

/-- Inserting a thread whose key is set into its tree: it arrives last. -/
theorem CondvarTrees.insertCondvar {c : TreeId}
    (hmem : ∀ c' t, t ∈ (s.condvarTree c').toList ↔ s.conditionVariableTree t = some c' ∧ t ≠ w)
    (hnodup : ∀ c', (s.condvarTree c').toList.Nodup)
    (hsorted : ∀ c', (s.condvarTree c').toList.Pairwise s.Precedes)
    (htime : ∀ t, s.insertTime t < s.time) (hw : s.conditionVariableTree w = some c) :
    (s.insertCondvar bal c w).CondvarTrees := by
  have hne := fun b (_ : b ∈ (s.condvarTree c).toList) => s.condvarCompare_ne_zero w b
  have hcmp := fun b (_ : b ∈ (s.condvarTree c).toList) => s.condvarCompare_neg_iff w b
  have hsorted' := (hsorted c).imp Precedes.le
  have hperm := SearchTree.toList_insert_perm bal hne hcmp hsorted'
  have hout : ∀ c', w ∉ (s.condvarTree c').toList := fun c' h => ((hmem c' w).mp h).2 rfl
  have hsame : ∀ {a b : T}, a ≠ w → b ≠ w → s.Precedes a b →
      (s.insertCondvar bal c w).Precedes a b := by
    intro a b ha hb hab
    simpa only [Precedes, condvarOrder, State.insertCondvar, update_of_ne ha,
      update_of_ne hb] using hab
  constructor
  case mem_iff =>
    intro c' t
    by_cases hc : c' = c
    · subst hc
      simp only [State.insertCondvar, update_self, hperm.mem_iff, mem_cons, hmem]
      by_cases ht : t = w
      · simp [ht, hw]
      · simp [ht]
    · simp only [State.insertCondvar, update_of_ne hc, hmem]
      constructor
      · exact fun h => h.1
      · refine fun h => ⟨h, ?_⟩
        rintro rfl
        exact hc (some.inj (h.symm.trans hw))
  case nodup =>
    intro c'
    by_cases hc : c' = c
    · subst hc
      simp only [State.insertCondvar, update_self]
      exact hperm.nodup_iff.mpr (nodup_cons.mpr ⟨hout c', hnodup c'⟩)
    · simpa only [State.insertCondvar, update_of_ne hc] using hnodup c'
  case sorted =>
    intro c'
    have hne' : ∀ {t}, t ∈ (s.condvarTree c').toList → t ≠ w := by
      rintro t ht rfl
      exact hout c' ht
    by_cases hc : c' = c
    · subst hc
      obtain ⟨before, after, hsplit, hinsert, hbefore, hafter⟩ :=
        SearchTree.exists_toList_insert bal hne hcmp hsorted'
      have hold := hsorted c'
      rw [hsplit, pairwise_append] at hold
      obtain ⟨hl, hr, hlr⟩ := hold
      have hb : ∀ {t}, t ∈ before → t ≠ w := fun ht => hne' (by rw [hsplit]; simp [ht])
      have ha : ∀ {t}, t ∈ after → t ≠ w := fun ht => hne' (by rw [hsplit]; simp [ht])
      have htree : ((s.insertCondvar bal c' w).condvarTree c').toList = before ++ w :: after := by
        simpa only [State.insertCondvar, update_self] using hinsert
      have hfront : ∀ t ∈ before, (s.insertCondvar bal c' w).Precedes t w := by
        intro t ht
        simp only [Precedes, condvarOrder, State.insertCondvar, update_self, update_of_ne (hb ht)]
        rcases (hbefore t ht).lt_or_eq with hlt | heq
        · exact .inl hlt
        · exact .inr ⟨heq, htime t⟩
      rw [htree, pairwise_append, pairwise_cons]
      refine ⟨hl.imp_of_mem fun h₁ h₂ => hsame (hb h₁) (hb h₂),
        ⟨fun t ht => .inl (hafter t ht), hr.imp_of_mem fun h₁ h₂ => hsame (ha h₁) (ha h₂)⟩,
        fun t ht u hu => ?_⟩
      rcases mem_cons.mp hu with rfl | hu
      · exact hfront t ht
      · exact hsame (hb ht) (ha hu) (hlr t ht u hu)
    · have htree : ((s.insertCondvar bal c w).condvarTree c').toList =
          (s.condvarTree c').toList := by
        simp only [State.insertCondvar, update_of_ne hc]
      rw [htree]
      exact (hsorted c').imp_of_mem fun h₁ h₂ => hsame (hne' h₁) (hne' h₂)
  case insertTime_lt =>
    intro t
    simp only [State.insertCondvar]
    by_cases ht : t = w
    · rw [ht, update_self]
      exact Nat.lt_succ_self _
    · rw [update_of_ne ht]
      exact Nat.lt_succ_of_lt (htime t)

theorem mem_eraseCondvar (h : s.CondvarTrees) (bal : Balancing T) {c : TreeId}
    (hw : s.conditionVariableTree w = some c) (c' : TreeId) (t : T) :
    t ∈ ((s.eraseCondvar bal c w).condvarTree c').toList ↔
      s.conditionVariableTree t = some c' ∧ t ≠ w := by
  by_cases hc : c' = c
  · subst hc
    simp only [eraseCondvar, update_self, bal.toList_remove,
      (h.nodup c').mem_erase_iff, h.mem_iff, and_comm]
  · simp only [eraseCondvar, update_of_ne hc, h.mem_iff]
    constructor
    · refine fun hmem => ⟨hmem, ?_⟩
      rintro rfl
      exact hc (some.inj (hmem.symm.trans hw))
    · exact fun hmem => hmem.1

theorem eraseCondvar_sublist (s : State T) (bal : Balancing T) (c : TreeId) (w : T) (c' : TreeId) :
    ((s.eraseCondvar bal c w).condvarTree c').toList.Sublist (s.condvarTree c').toList := by
  by_cases hc : c' = c
  · subst hc
    simp only [eraseCondvar, update_self, bal.toList_remove]
    exact erase_sublist
  · simp only [eraseCondvar, update_of_ne hc]
    exact List.Sublist.refl _

omit [DecidableEq T] in
/-- What happens to a thread that is not in the tree disturbs no order. -/
theorem pairwise_precedes {s' : State T} {L : List T} (hw : w ∉ L)
    (hsame : ∀ t, t ≠ w → s'.condvarOrder t = s.condvarOrder t)
    (htime : ∀ t, t ≠ w → s'.insertTime t = s.insertTime t) (h : L.Pairwise s.Precedes) :
    L.Pairwise s'.Precedes := by
  refine h.imp_of_mem fun {a b} ha hb hab => ?_
  have hne : ∀ v ∈ L, v ≠ w := by
    rintro v hv rfl
    exact hw hv
  rwa [Precedes, hsame a (hne a ha), hsame b (hne b hb), htime a (hne a ha), htime b (hne b hb)]

omit [DecidableEq T] in
theorem CondvarTrees.not_mem (h : s.CondvarTrees) (hw : s.conditionVariableTree w = none)
    (c : TreeId) : w ∉ (s.condvarTree c).toList := fun hmem => by
  rw [h.mem_iff, hw] at hmem
  exact absurd hmem (by simp)

theorem CondvarTrees.changePriority (h : s.CondvarTrees) (bal : Balancing T) (w : T)
    (p : Int) : (s.changePriority bal w p).CondvarTrees := by
  have hsame : ∀ t, t ≠ w → (s.setPriority w p).condvarOrder t = s.condvarOrder t := by
    intro t ht
    simp [condvarOrder, setPriority, ht]
  rw [State.changePriority]
  cases hw : s.conditionVariableTree w with
  | none =>
    exact ⟨h.mem_iff, h.nodup, fun c => pairwise_precedes (h.not_mem hw c) hsame (fun _ _ => rfl)
      (h.sorted c), h.insertTime_lt⟩
  | some c =>
    refine CondvarTrees.insertCondvar (mem_eraseCondvar h bal hw)
      (fun c' => (h.nodup c').sublist (eraseCondvar_sublist s bal c w c')) (fun c' => ?_)
      h.insertTime_lt hw
    refine pairwise_precedes (fun hmem => ?_) hsame (fun _ _ => rfl)
      ((h.sorted c').sublist (eraseCondvar_sublist s bal c w c'))
    exact ((mem_eraseCondvar h bal hw c' w).mp hmem).2 rfl

/-- A thread that is in no tree enters one. -/
theorem CondvarTrees.enter {s₁ : State T} (h : s.CondvarTrees) (bal : Balancing T)
    {c : TreeId} (hw : s.conditionVariableTree w = none) (htrees : s₁.condvarTree = s.condvarTree)
    (htree : s₁.conditionVariableTree = update s.conditionVariableTree w (some c))
    (hsame : ∀ t, t ≠ w → s₁.condvarOrder t = s.condvarOrder t)
    (hinsert : s₁.insertTime = s.insertTime) (htime : s₁.time = s.time) :
    (s₁.insertCondvar bal c w).CondvarTrees := by
  refine CondvarTrees.insertCondvar (fun c' t => ?_) (fun c' => htrees ▸ h.nodup c')
    (fun c' => ?_) (fun t => ?_) (by rw [htree, update_self])
  · rw [htrees, htree, h.mem_iff]
    by_cases ht : t = w
    · simp [ht, hw]
    · simp [ht]
  · rw [htrees]
    exact pairwise_precedes (h.not_mem hw c') hsame (fun t _ => congrFun hinsert t) (h.sorted c')
  · rw [hinsert, htime]
    exact h.insertTime_lt t

/-- A thread leaves the tree that it is in. -/
theorem CondvarTrees.leave (h : s.CondvarTrees) (bal : Balancing T) {c : TreeId}
    (hw : s.conditionVariableTree w = some c) :
    ((s.eraseCondvar bal c w).clearConditionVariable w).CondvarTrees := by
  constructor
  case mem_iff =>
    intro c' t
    have hmem := mem_eraseCondvar h bal hw c' t
    by_cases ht : t = w
    · simp [clearConditionVariable, ht, mem_eraseCondvar h bal hw c' w]
    · simp only [clearConditionVariable, update_of_ne ht, hmem]
      exact and_iff_left ht
  case nodup => exact fun c' => (h.nodup c').sublist (eraseCondvar_sublist s bal c w c')
  case sorted => exact fun c' => (h.sorted c').sublist (eraseCondvar_sublist s bal c w c')
  case insertTime_lt => exact h.insertTime_lt

/-- All that a change of priority touches. -/
theorem changePriority_eq (s : State T) (bal : Balancing T) (w : T) (p : Int) :
    ∃ trees times now, s.changePriority bal w p = { s with
        priority := update s.priority w p
        condvarTree := trees
        insertTime := times
        time := now } := by
  rw [changePriority]
  cases s.conditionVariableTree w with
  | none => exact ⟨s.condvarTree, s.insertTime, s.time, rfl⟩
  | some c => exact ⟨_, _, _, rfl⟩

/-- A thread that waits on no lock may change its priority. -/
theorem WellFormed.changePriority (h : s.WellFormed) (hw : s.waitingLockInfo w = none) (p : Int) :
    (s.changePriority bal w p).WellFormed := by
  have hcondvar := h.condvar.changePriority bal w p
  obtain ⟨trees, times, now, heq⟩ := s.changePriority_eq bal w p
  rw [heq] at hcondvar ⊢
  constructor
  case waiters_sorted =>
    intro l
    refine (h.waiters_sorted l).imp_of_mem fun {a b} ha hb hab => ?_
    have hne : ∀ v ∈ s.waiters l, v ≠ w := by
      rintro v hv rfl
      rw [(h.mem_waiters l v).mp hv] at hw
      exact absurd hw (by simp)
    simpa [update_of_ne (hne a ha), update_of_ne (hne b hb)] using hab
  case condvar => exact hcondvar
  case held_nodup => exact h.held_nodup
  case held_owner => exact h.held_owner
  case held_lt => exact h.held_lt
  case waiting_held => exact h.waiting_held
  case mem_waiters => exact h.mem_waiters
  case waiters_nodup => exact h.waiters_nodup
  case waiterCount_eq => exact h.waiterCount_eq
  case addressKey_eq => exact h.addressKey_eq
  case isKernel_eq => exact h.isKernel_eq
  case not_condvar => exact h.not_condvar
  case numKernelWaiters_eq => exact h.numKernelWaiters_eq

end Priority

end State

end Sudachi.Kernel.ThreadLocks
