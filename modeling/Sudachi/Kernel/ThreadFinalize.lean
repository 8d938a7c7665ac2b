import Sudachi.Kernel.ConditionVariable
import Sudachi.Kernel.ThreadLocksRuns

/-!
# The end of a thread that holds locks

`KThread::Finalize` takes the waiters of the locks of a thread one by one out of their locks and cancels
their waits. The queue of a waiter then looks for the thread that the waiter waits for, and there is none
any more: the queue of `Wait` compares with null, the queue of `WaitForAddress` does not. `Finalize`
does its work exactly when no waiter is in a queue of that second kind (`finalize_meets_iff`).
-/

set_option autoImplicit false

namespace Sudachi.Kernel.ThreadLocks

open Sudachi.Foundations Sudachi.Foundations.WaitGraph Relation List Option
open State.Reachable (step)
open SearchTree (Balancing rebuilding)

namespace Process

variable {T : Type} [DecidableEq T] [Fintype T]

omit [DecidableEq T] [Fintype T] in
/-- What holds of the waits of threads: whoever waits on a lock at a user address has come there through
`WaitForAddress` or through `Wait`, and is still waiting. -/
structure Waits (p : Process T) : Prop where
  wellFormed : p.toState.WellFormed
  noEmptyLock : p.toState.NoEmptyLock
  userWaiter : ∀ w l, p.waitingLockInfo w = some l → p.lockIsKernelAddressKey l = false →
    p.threadState w = .waiting ∧ (p.waitQueue w = some .waitForAddress ∨
        ∃ tree, p.waitQueue w = some (.waitConditionVariable tree))

/-- What the end of `this` is to bring about: it comes to its end, no thread waits for `this` and no
lock is left in its list, and the waits of the waiters are cancelled, each of them once, with
`ResultInvalidState`. -/
def FinalizeMeets (bal : Balancing T) (p : Process T) (this : T) : Prop :=
  ∃ cancelled p', p.finalize bal this = some (cancelled, p') ∧
    (∀ w, p'.getLockOwner w ≠ some this) ∧ p'.heldLockInfoList this = [] ∧
    cancelled.Nodup ∧ (∀ w, w ∈ cancelled ↔ p.getLockOwner w = some this) ∧
    ∀ w ∈ cancelled, p'.waitResult w = .invalidState ∧ p'.threadState w = .runnable

/-! ## One waiter -/

section Waiter

variable {bal : Balancing T} {p : Process T} {this w : T} {l : LockId}

/-- A waiter leaves its lock, and its wait is cancelled. -/
def dismiss (bal : Balancing T) (p : Process T) (l : LockId) (w : T) : Process T :=
  { p with toState := p.toState.lockRemoveWaiter bal l w }.wakeUp w .invalidState

omit [Fintype T] in
theorem lockRemoveWaiter_eq_leave (bal : Balancing T) (this : T) (l : LockId)
    (hw : p.isKernelAddressKey w = false) :
    p.toState.lockRemoveWaiter bal l w = p.toState.leave bal this l w := by
  simp [State.leave, State.kernelUnit, hw, State.addKernelWaiters_zero]

theorem cancelWait_of_waitConditionVariable (h : p.toState.WellFormed) {tree : TreeId}
    (hw : p.waitingLockInfo w = some l) (hstate : p.threadState w = .waiting)
    (hqueue : p.waitQueue w = some (.waitConditionVariable tree)) :
    cancelWait bal { p with toState := p.toState.lockRemoveWaiter bal l w } w .invalidState =
      some (p.dismiss bal l w) := by
  have howner : (p.toState.lockRemoveWaiter bal l w).getLockOwner w = none := by
    simp [State.getLockOwner, State.lockRemoveWaiter]
  have htree : (p.toState.lockRemoveWaiter bal l w).conditionVariableTree w = none :=
    h.not_condvar w l hw
  simp [cancelWait, hstate, hqueue, queueCancelWait, leaveOwner, howner, leaveTree, htree, dismiss]

/-- The null pointer: the waiter has left its lock, and with it the thread that it waited for. -/
theorem cancelWait_of_waitForAddress (hstate : p.threadState w = .waiting)
    (hqueue : p.waitQueue w = some .waitForAddress) :
    cancelWait bal { p with toState := p.toState.lockRemoveWaiter bal l w } w .invalidState =
      none := by
  have howner : (p.toState.lockRemoveWaiter bal l w).getLockOwner w = none := by
    simp [State.getLockOwner, State.lockRemoveWaiter]
  simp [cancelWait, hstate, hqueue, queueCancelWait, leaveOwnerUnchecked, howner]

end Waiter

/-! ## The waiters of a lock -/

/-- The waits of `ws` are cancelled, and nothing else happens to the threads. -/
structure Cancelled (p p' : Process T) (ws : List T) : Prop where
  mem : ∀ w ∈ ws, p'.threadState w = .runnable ∧ p'.waitResult w = .invalidState ∧
    p'.waitingLockInfo w = none
  rest : ∀ w, w ∉ ws → p'.threadState w = p.threadState w ∧ p'.waitResult w = p.waitResult w ∧
    p'.waitQueue w = p.waitQueue w ∧ p'.waitingLockInfo w = p.waitingLockInfo w

omit [Fintype T] [DecidableEq T] in
theorem Cancelled.append {p p' p'' : Process T} {ws ws' : List T} (h : Cancelled p p' ws)
    (h' : Cancelled p' p'' ws') : Cancelled p p'' (ws ++ ws') := by
  constructor
  case mem =>
    intro w hw
    by_cases hw' : w ∈ ws'
    · exact h'.mem w hw'
    · have hmem := h.mem w ((mem_append.mp hw).resolve_right hw')
      obtain ⟨hstate, hresult, -, hwaiting⟩ := h'.rest w hw'
      exact ⟨hstate.trans hmem.1, hresult.trans hmem.2.1, hwaiting.trans hmem.2.2⟩
  case rest =>
    intro w hw
    obtain ⟨hout, hout'⟩ := not_or.mp (mt mem_append.mpr hw)
    obtain ⟨hstate, hresult, hqueue, hwaiting⟩ := h.rest w hout
    obtain ⟨hstate', hresult', hqueue', hwaiting'⟩ := h'.rest w hout'
    exact ⟨hstate'.trans hstate, hresult'.trans hresult, hqueue'.trans hqueue,
      hwaiting'.trans hwaiting⟩

section Lock

variable {bal : Balancing T} {p : Process T} {this w : T} {l : LockId}

section

omit [Fintype T]

theorem cancelled_dismiss (bal : Balancing T) (p : Process T) (l : LockId) (w : T) :
    Cancelled p (p.dismiss bal l w) [w] := by
  constructor
  case mem =>
    intro v hv
    obtain rfl := mem_singleton.mp hv
    simp [dismiss, wakeUp, State.lockRemoveWaiter]
  case rest =>
    intro v hv
    have hne : v ≠ w := fun heq => hv (by simp [heq])
    simp [dismiss, wakeUp, State.lockRemoveWaiter, hne]

theorem wellFormed_dismiss (h : p.toState.WellFormed) (hl : l ∈ p.heldLockInfoList this)
    (hkernel : p.lockIsKernelAddressKey l = false) (hw : p.waitingLockInfo w = some l) :
    (p.dismiss bal l w).toState.WellFormed := by
  have hleave := lockRemoveWaiter_eq_leave bal this l ((h.isKernel_eq w l hw).trans hkernel)
  show (p.toState.lockRemoveWaiter bal l w).WellFormed
  rw [hleave]
  exact h.leave hl hw

theorem waiters_dismiss (p : Process T) (l m : LockId) (w : T) :
    (p.dismiss bal l w).waiters m = if m = l then (p.waiters l).erase w else p.waiters m := by
  by_cases hm : m = l
  · simp [hm, dismiss, wakeUp, State.waiters, State.lockRemoveWaiter, bal.toList_remove]
  · simp [hm, dismiss, wakeUp, State.waiters, State.lockRemoveWaiter]

end

/-- One turn of the loop. -/
theorem cancelWaiters_cons (h : p.toState.WellFormed) {rest : List T} (fuel : Nat)
    (hwaiters : p.waiters l = w :: rest) : cancelWaiters bal l (fuel + 1) p =
      (cancelWait bal { p with toState := p.toState.lockRemoveWaiter bal l w } w
        .invalidState).bind fun p' =>
          (cancelWaiters bal l fuel p').map fun result => (w :: result.1, result.2) := by
  have hcount : p.lockWaiterCount l = rest.length + 1 := by
    rw [h.waiterCount_eq, hwaiters, length_cons]
  have hfront : p.getHighestPriorityWaiter l = some w := by
    rw [State.getHighestPriorityWaiter, show (p.lockTree l).toList = w :: rest from hwaiters,
      head?_cons]
  rw [cancelWaiters, if_neg (by omega), hfront]
  simp only [bind_eq_bind, bind_some]
  refine congrArg _ (funext fun p' => ?_)
  cases cancelWaiters bal l fuel p' with
  | none => rfl
  | some result => rfl

/-- What is asked of a waiter whose wait can be cancelled. -/
def WaitsThroughWait (p : Process T) (w : T) : Prop :=
  p.threadState w = .waiting ∧ ∃ tree, p.waitQueue w = some (.waitConditionVariable tree)

omit [Fintype T] [DecidableEq T] in
theorem Cancelled.waitsThroughWait {p' : Process T} {ws : List T} (h : Cancelled p p' ws)
    (hw : w ∉ ws) (hwait : p.WaitsThroughWait w) : p'.WaitsThroughWait w := by
  obtain ⟨hstate, -, hqueue, -⟩ := h.rest w hw
  exact ⟨hstate.trans hwait.1, by rw [hqueue]; exact hwait.2⟩

/-- The state in which a lock has lost all its waiters. -/
structure Emptied (p p' : Process T) (l : LockId) : Prop where
  wellFormed : p'.toState.WellFormed
  empty : p'.waiters l = []
  others : ∀ m, m ≠ l → p'.waiters m = p.waiters m
  held : p'.heldLockInfoList = p.heldLockInfoList
  kernel : p'.lockIsKernelAddressKey = p.lockIsKernelAddressKey
  cancelled : Cancelled p p' (p.waiters l)

/-- What the loop over the waiters of a lock comes to when all of them wait through `Wait`. -/
theorem cancelWaiters_spec (bal : Balancing T) (ws : List T) (p : Process T)
    (h : p.toState.WellFormed) (hl : l ∈ p.heldLockInfoList this)
    (hkernel : p.lockIsKernelAddressKey l = false) (hws : p.waiters l = ws)
    (hwaiters : ∀ w ∈ ws, p.WaitsThroughWait w) :
    ∃ p', cancelWaiters bal l ws.length p = some (ws, p') ∧ Emptied p p' l := by
  induction ws generalizing p with
  | nil =>
    have hcount : p.lockWaiterCount l = 0 := by
      rw [h.waiterCount_eq, hws, length_nil]
    refine ⟨p, by simp [cancelWaiters, hcount], h, hws, fun _ _ => rfl, rfl, rfl, ?_⟩
    rw [hws]
    exact ⟨by simp, fun _ _ => ⟨rfl, rfl, rfl, rfl⟩⟩
  | cons w rest ih =>
    obtain ⟨hstate, tree, hqueue⟩ := hwaiters w (by simp)
    have hw : p.waitingLockInfo w = some l := (h.mem_waiters l w).mp (by simp [hws])
    have hnodup := h.waiters_nodup l
    rw [hws, nodup_cons] at hnodup
    have hrest : (p.dismiss bal l w).waiters l = rest := by
      rw [waiters_dismiss, if_pos rfl, hws, erase_cons_head]
    have hdismiss := cancelled_dismiss bal p l w
    obtain ⟨p', hp', hemptied⟩ := ih (p.dismiss bal l w)
      (wellFormed_dismiss h hl hkernel hw) hl hkernel hrest fun v hv =>
        hdismiss.waitsThroughWait (fun hvw => hnodup.1 (mem_singleton.mp hvw ▸ hv))
          (hwaiters v (by simp [hv]))
    refine ⟨p', ?_, hemptied.wellFormed, hemptied.empty, fun m hm => ?_, hemptied.held,
      hemptied.kernel, ?_⟩
    · rw [length_cons, cancelWaiters_cons h rest.length hws,
        cancelWait_of_waitConditionVariable h hw hstate hqueue, bind_some, hp']
      rfl
    · rw [hemptied.others m hm, waiters_dismiss, if_neg hm]
    · have happend := hdismiss.append hemptied.cancelled
      rwa [hrest, singleton_append, ← hws] at happend

/-- The loop over the waiters of a lock does not get past one that waits through `WaitForAddress`. -/
theorem cancelWaiters_eq_none (ws : List T) (p : Process T) (h : p.toState.WellFormed)
    (hl : l ∈ p.heldLockInfoList this) (hkernel : p.lockIsKernelAddressKey l = false)
    (hws : p.waiters l = ws)
    (hwaiters : ∀ w ∈ ws, p.threadState w = .waiting ∧ (p.waitQueue w = some .waitForAddress ∨
        ∃ tree, p.waitQueue w = some (.waitConditionVariable tree)))
    (hbad : ∃ w ∈ ws, p.waitQueue w = some .waitForAddress) :
    cancelWaiters bal l ws.length p = none := by
  induction ws generalizing p with
  | nil => exact absurd hbad (by simp)
  | cons w rest ih =>
    obtain ⟨hstate, hqueue⟩ := hwaiters w (by simp)
    have hw : p.waitingLockInfo w = some l := (h.mem_waiters l w).mp (by simp [hws])
    have hnodup := h.waiters_nodup l
    rw [hws, nodup_cons] at hnodup
    rw [length_cons, cancelWaiters_cons h rest.length hws]
    rcases hqueue with hqueue | ⟨tree, hqueue⟩
    · rw [cancelWait_of_waitForAddress hstate hqueue, bind_none]
    · have hrest : (p.dismiss bal l w).waiters l = rest := by
        rw [waiters_dismiss, if_pos rfl, hws, erase_cons_head]
      have hsame : ∀ v ∈ rest, (p.dismiss bal l w).threadState v = p.threadState v ∧
          (p.dismiss bal l w).waitQueue v = p.waitQueue v := by
        intro v hv
        have hout : v ∉ [w] := fun hvw => hnodup.1 (mem_singleton.mp hvw ▸ hv)
        obtain ⟨h₁, -, h₃, -⟩ := (cancelled_dismiss bal p l w).rest v hout
        exact ⟨h₁, h₃⟩
      have hnone := ih (p.dismiss bal l w) (wellFormed_dismiss h hl hkernel hw) hl hkernel hrest
        (fun v hv => by
          rw [(hsame v hv).1, (hsame v hv).2]
          exact hwaiters v (by simp [hv]))
        (by
          obtain ⟨v, hv, hvq⟩ := hbad
          rcases mem_cons.mp hv with rfl | hv
          · exact absurd (hqueue.symm.trans hvq) (by simp)
          · exact ⟨v, hv, (hsame v hv).2.trans hvq⟩)
      rw [cancelWait_of_waitConditionVariable h hw hstate hqueue, bind_some, hnone]
      rfl

end Lock

/-! ## The locks of a thread -/

section Locks

variable {bal : Balancing T} {p : Process T} {this w : T} {l : LockId}

omit [Fintype T] [DecidableEq T] in
/-- What `Finalize` finds: the locks `L` are held, none of them at a kernel address, and their waiters
are waiting in one of two queues. -/
structure Holds (p : Process T) (this : T) (L : List LockId) : Prop where
  wellFormed : p.toState.WellFormed
  held : p.heldLockInfoList this = L
  user : ∀ l ∈ L, p.lockIsKernelAddressKey l = false
  waiters : ∀ l ∈ L, ∀ w ∈ p.waiters l, p.threadState w = .waiting ∧
    (p.waitQueue w = some .waitForAddress ∨
      ∃ tree, p.waitQueue w = some (.waitConditionVariable tree))

def eraseLock (p : Process T) (this : T) (l : LockId) : Process T :=
  { p with toState := p.toState.eraseHeldLock this l }

theorem finalizeLocks_cons (rest : List LockId) (p : Process T)
    (hkernel : p.lockIsKernelAddressKey l = false) : finalizeLocks bal this (l :: rest) p =
      (cancelWaiters bal l (p.lockWaiterCount l) p).bind fun first =>
        (finalizeLocks bal this rest (first.2.eraseLock this l)).map fun others =>
          (first.1 ++ others.1, others.2) := by
  rw [finalizeLocks, if_neg (by simp [hkernel])]
  refine congrArg _ (funext fun first => ?_)
  simp only [bind_eq_bind, eraseLock]
  cases finalizeLocks bal this rest
      { first.2 with toState := first.2.toState.eraseHeldLock this l } with
  | none => rfl
  | some others => rfl

omit [Fintype T] in
/-- Once the first lock is empty and gone, the others are as they were. -/
theorem Holds.erase {rest : List LockId} {p' : Process T} (h : p.Holds this (l :: rest))
    (hemptied : Emptied p p' l) :
    (p'.eraseLock this l).Holds this rest ∧ (∀ m ∈ rest, (p'.eraseLock this l).waiters m =
      p.waiters m) ∧ Cancelled p (p'.eraseLock this l) (p.waiters l) ∧
      ∀ m ∈ rest, ∀ w ∈ p.waiters m, (p'.eraseLock this l).waitQueue w = p.waitQueue w := by
  have hnodup := h.wellFormed.held_nodup this
  rw [h.held, nodup_cons] at hnodup
  have hne : ∀ m ∈ rest, m ≠ l := fun m hm heq => hnodup.1 (heq ▸ hm)
  have hwaiters : ∀ m ∈ rest, (p'.eraseLock this l).waiters m = p.waiters m :=
    fun m hm => hemptied.others m (hne m hm)
  have hcancelled : Cancelled p (p'.eraseLock this l) (p.waiters l) :=
    ⟨hemptied.cancelled.mem, hemptied.cancelled.rest⟩
  have hout : ∀ m ∈ rest, ∀ w ∈ p.waiters m, w ∉ p.waiters l := by
    intro m hm w hw hwl
    have heq := ((h.wellFormed.mem_waiters m w).mp hw).symm.trans
      ((h.wellFormed.mem_waiters l w).mp hwl)
    exact hne m hm (some.inj heq)
  refine ⟨⟨hemptied.wellFormed.drop hemptied.empty, ?_, fun m hm => ?_, fun m hm w hw => ?_⟩,
    hwaiters, hcancelled, fun m hm w hw => (hcancelled.rest w (hout m hm w hw)).2.2.1⟩
  · simp [eraseLock, State.eraseHeldLock, hemptied.held, h.held]
  · exact (congrFun hemptied.kernel m).trans (h.user m (by simp [hm]))
  · rw [hwaiters m hm] at hw
    obtain ⟨hstate, -, hqueue, -⟩ := hcancelled.rest w (hout m hm w hw)
    rw [hstate, hqueue]
    exact h.waiters m (by simp [hm]) w hw

omit [Fintype T] [DecidableEq T] in
theorem Holds.waitsThroughWait {L : List LockId} (h : p.Holds this L) (hl : l ∈ L)
    (hw : w ∈ p.waiters l) (hgood : p.waitQueue w ≠ some .waitForAddress) :
    p.WaitsThroughWait w := by
  obtain ⟨hstate, hqueue⟩ := h.waiters l hl w hw
  exact ⟨hstate, hqueue.resolve_left hgood⟩

theorem finalizeLocks_spec (L : List LockId) (p : Process T) (h : p.Holds this L)
    (hgood : ∀ l ∈ L, ∀ w ∈ p.waiters l, p.waitQueue w ≠ some .waitForAddress) :
    ∃ p', finalizeLocks bal this L p = some (L.flatMap p.waiters, p') ∧ p'.toState.WellFormed ∧
      p'.heldLockInfoList this = [] ∧ Cancelled p p' (L.flatMap p.waiters) := by
  induction L generalizing p with
  | nil =>
    exact ⟨p, rfl, h.wellFormed, h.held, by simp, fun _ _ => ⟨rfl, rfl, rfl, rfl⟩⟩
  | cons l rest ih =>
    have hl : l ∈ p.heldLockInfoList this := by simp [h.held]
    obtain ⟨p₁, hp₁, hemptied⟩ := cancelWaiters_spec bal (p.waiters l) p h.wellFormed hl
      (h.user l (by simp)) rfl fun w hw =>
        h.waitsThroughWait (by simp) hw (hgood l (by simp) w hw)
    obtain ⟨hholds, hwaiters, hcancelled, hqueue⟩ := h.erase hemptied
    obtain ⟨p', hp', h', hheld', hcancelled'⟩ := ih (p₁.eraseLock this l) hholds
      fun m hm w hw => by
        rw [hwaiters m hm] at hw
        rw [hqueue m hm w hw]
        exact hgood m (by simp [hm]) w hw
    have hflat : rest.flatMap (p₁.eraseLock this l).waiters = rest.flatMap p.waiters :=
      flatMap_congr hwaiters
    rw [hflat] at hp' hcancelled'
    refine ⟨p', ?_, h', hheld', ?_⟩
    · rw [finalizeLocks_cons rest p (h.user l (by simp)), h.wellFormed.waiterCount_eq, hp₁,
        bind_some, hp']
      rfl
    · exact hcancelled.append hcancelled'

theorem finalizeLocks_eq_none (L : List LockId) (p : Process T) (h : p.Holds this L)
    (hbad : ∃ l ∈ L, ∃ w ∈ p.waiters l, p.waitQueue w = some .waitForAddress) :
    finalizeLocks bal this L p = none := by
  induction L generalizing p with
  | nil => exact absurd hbad (by simp)
  | cons l rest ih =>
    have hl : l ∈ p.heldLockInfoList this := by simp [h.held]
    have huser := h.user l (by simp)
    rw [finalizeLocks_cons rest p huser, h.wellFormed.waiterCount_eq]
    by_cases hfirst : ∃ w ∈ p.waiters l, p.waitQueue w = some .waitForAddress
    · have hnone : cancelWaiters bal l (p.waiters l).length p = none :=
        cancelWaiters_eq_none (p.waiters l) p h.wellFormed hl huser rfl (h.waiters l (by simp))
          hfirst
      rw [hnone, bind_none]
    · obtain ⟨p₁, hp₁, hemptied⟩ := cancelWaiters_spec bal (p.waiters l) p h.wellFormed hl huser rfl
        fun w hw => h.waitsThroughWait (by simp) hw fun hq => hfirst ⟨w, hw, hq⟩
      obtain ⟨hholds, hwaiters, -, hqueue⟩ := h.erase hemptied
      have hnone := ih (p₁.eraseLock this l) hholds (by
        obtain ⟨m, hm, w, hw, hq⟩ := hbad
        rcases mem_cons.mp hm with rfl | hm
        · exact absurd ⟨w, hw, hq⟩ hfirst
        · exact ⟨m, hm, w, by rwa [hwaiters m hm], (hqueue m hm w hw).trans hq⟩)
      rw [hp₁, bind_some, hnone]
      rfl

omit [Fintype T] [DecidableEq T] in
/-- A thread without kernel waiters holds no lock at a kernel address. -/
theorem Waits.holds (h : p.Waits) (hkernel : p.numKernelWaiters this = 0) :
    p.Holds this (p.heldLockInfoList this) := by
  have huser : ∀ l ∈ p.heldLockInfoList this, p.lockIsKernelAddressKey l = false := by
    intro l hl
    have hle := h.wellFormed.kernelWeight_le hl
    have hpos : 0 < (p.waiters l).length := length_pos_of_ne_nil (h.noEmptyLock this l hl)
    rw [hkernel, State.kernelWeight] at hle
    by_contra hne
    rw [if_pos (by simpa using hne)] at hle
    omega
  exact ⟨h.wellFormed, rfl, huser, fun l hl w hw =>
    h.userWaiter w l ((h.wellFormed.mem_waiters l w).mp hw) (huser l hl)⟩

end Locks

/-- `Finalize` of a thread that waits on no lock and has no kernel waiters meets its purpose exactly
when none of its waiters waits through `WaitForAddress`. -/
theorem finalize_meets_iff (bal : Balancing T) (p : Process T) (this : T) (h : p.Waits)
    (hthis : p.waitingLockInfo this = none) (hkernel : p.numKernelWaiters this = 0) :
    FinalizeMeets bal p this ↔
      ∀ w, p.getLockOwner w = some this → p.waitQueue w ≠ some .waitForAddress := by
  have hwf := h.wellFormed
  have hholds := h.holds hkernel
  have hfinalize : p.finalize bal this = finalizeLocks bal this (p.heldLockInfoList this) p := by
    rw [finalize, if_neg (by simp [hthis, hkernel])]
  have hwaiter : ∀ w, p.getLockOwner w = some this ↔
      w ∈ (p.heldLockInfoList this).flatMap p.waiters := by
    intro w
    rw [hwf.getLockOwner_iff, mem_flatMap]
    constructor
    · rintro ⟨l, hw, hl⟩
      exact ⟨l, hl, (hwf.mem_waiters l w).mpr hw⟩
    · rintro ⟨l, hl, hw⟩
      exact ⟨l, (hwf.mem_waiters l w).mp hw, hl⟩
  constructor
  · rintro ⟨cancelled, p', hp', -⟩ w hw hqueue
    obtain ⟨l, hl, hwl⟩ := mem_flatMap.mp ((hwaiter w).mp hw)
    rw [hfinalize, finalizeLocks_eq_none _ p hholds ⟨l, hl, w, hwl, hqueue⟩] at hp'
    exact absurd hp' (by simp)
  · intro hgood
    obtain ⟨p', hp', h', hheld', hcancelled⟩ := finalizeLocks_spec (p.heldLockInfoList this) p hholds
      fun l hl w hw => hgood w ((hwaiter w).mpr (mem_flatMap.mpr ⟨l, hl, hw⟩))
    refine ⟨_, p', hfinalize.trans hp', fun w hw => ?_, hheld',
      hwf.nodup_flatMap_waiters (hwf.held_nodup this), fun w => (hwaiter w).symm, fun w hw => ?_⟩
    · obtain ⟨l, -, hl⟩ := h'.getLockOwner_iff.mp hw
      rw [hheld'] at hl
      exact absurd hl (by simp)
    · obtain ⟨hstate, hresult, -⟩ := hcancelled.mem w hw
      exact ⟨hresult, hstate⟩

/-- Three threads with the handles 100, 101 and 102, before any of them waits; thread 0 has a mutex at
`0x1000` that others want. -/
def started : Process (Fin 3) where
  toState := State.idle
  threadState := fun _ => .runnable
  waitQueue := fun _ => none
  waitResult := fun _ => .success
  terminationRequested := fun _ => false
  memory := fun address => if address = 0x1000 then 100 ||| handleWaitMask else 0
  handles := fun handle =>
    if handle = 100 then some 0 else if handle = 101 then some 1
    else if handle = 102 then some 2 else none
  exceptionThread := none

/-- Threads 1 and 2 wait for the mutex through `WaitForAddress`. -/
def contended : Process (Fin 3) :=
  ((started.waitForAddress rebuilding 1 100 0x1000 101).bind fun result =>
    result.2.waitForAddress rebuilding 2 100 0x1000 102).elim started Prod.snd

/-- Thread 0 has unlocked the mutex: thread 2 is its owner, and thread 1 waits for thread 2. -/
def handedOver : Process (Fin 3) :=
  (contended.signalToAddress rebuilding 0 0x1000).elim started Prod.snd

/-- A thread waits on no lock at a user address but through one of the two queues. -/
theorem Waits.of_reachable {p : Process T} {bal : Balancing T} (h : State.Reachable bal p.toState)
    (huser : ∀ w, p.waitingLockInfo w = none ∨ p.threadState w = .waiting ∧
      (p.waitQueue w = some .waitForAddress ∨
        ∃ tree, p.waitQueue w = some (.waitConditionVariable tree))) : p.Waits := by
  refine ⟨h.consistent.1.wellFormed, h.consistent.1.noEmptyLock, fun w l hw _ => ?_⟩
  refine (huser w).resolve_left fun hnone => ?_
  rw [hw] at hnone
  exact absurd hnone (by simp)

theorem reachable_idle : State.Reachable rebuilding State.idle :=
  .initial ⟨rfl, fun _ => rfl, fun _ => rfl, fun _ => rfl, fun _ => rfl, fun _ => rfl,
    fun _ => rfl, fun _ => rfl, fun _ => one_pos⟩

theorem finalize_follows_null_owner :
    (handedOver.Waits ∧ handedOver.waitingLockInfo 2 = none ∧ handedOver.numKernelWaiters 2 = 0 ∧
      handedOver.getLockOwner 1 = some 2) ∧
    ¬ FinalizeMeets rebuilding handedOver 2 := by
  have hreach : State.Reachable rebuilding handedOver.toState := by
    have hkey₁ := step reachable_idle
      (show State.Allowed _ (.setUserAddressKey 1 0x1000 101) from rfl) rfl
    have hwait₁ := step hkey₁ (show State.Allowed _ (.addWaiter 0 1) from
      ⟨rfl, rfl, not_reaches_of_none rfl (by decide)⟩) rfl
    have hkey₂ := step hwait₁
      (show State.Allowed _ (.setUserAddressKey 2 0x1000 102) from rfl) rfl
    have hwait₂ := step hkey₂ (show State.Allowed _ (.addWaiter 0 2) from
      ⟨rfl, rfl, not_reaches_of_none rfl (by decide)⟩) rfl
    exact step hwait₂
      (show State.Allowed _ (.removeWaiterByKey 0 0x1000 false) from trivial) rfl
  refine ⟨⟨Waits.of_reachable hreach fun w => ?_, rfl, rfl, rfl⟩, ?_⟩
  · fin_cases w
    · exact .inl rfl
    · exact .inr ⟨rfl, .inl rfl⟩
    · exact .inl rfl
  · rintro ⟨cancelled, p', hp', -⟩
    exact absurd (show none = some (cancelled, p') from hp') (by simp)

/-- Thread 1 waits for a condition variable at `0x2000` with the mutex at `0x1000`, thread 0 takes the
mutex and signals: thread 1 waits for thread 0. -/
def signalled : Process (Fin 3) :=
  ((started.wait rebuilding 0 1 0x1000 0x2000 101 (-1)).bind fun result =>
    (result.2.writeToUser 0x1000 100).signal rebuilding 0 0x2000 1).elim started
      Prod.snd

theorem finalize_meets_signalled :
    signalled.getLockOwner 1 = some 0 ∧ FinalizeMeets rebuilding signalled 0 := by
  have hreach : State.Reachable rebuilding signalled.toState := by
    have hwait := step reachable_idle
      (show State.Allowed _ (.waitConditionVariable 1 0 0x1000 0x2000 101) from ⟨rfl, rfl⟩) rfl
    have hleave := step hwait
      (show State.Allowed _ (.leaveTree 1) from by simp [State.Allowed, State.insertCondvar]) rfl
    exact step hleave (show State.Allowed _ (.addWaiter 0 1) from
      ⟨rfl, rfl, not_reaches_of_none rfl (by decide)⟩) rfl
  have hwaits : signalled.Waits := Waits.of_reachable hreach fun w => by
    fin_cases w
    · exact .inl rfl
    · exact .inr ⟨rfl, .inr ⟨0, rfl⟩⟩
    · exact .inl rfl
  refine ⟨rfl, (finalize_meets_iff rebuilding signalled 0 hwaits rfl rfl).mpr ?_⟩
  intro w hw
  fin_cases w
  · exact absurd (show none = some (0 : Fin 3) from hw) (by simp)
  · exact fun hqueue => absurd (show some (WaitQueue.waitConditionVariable 0) = _ from hqueue)
      (by simp)
  · exact absurd (show none = some (0 : Fin 3) from hw) (by simp)

end Process

end Sudachi.Kernel.ThreadLocks
