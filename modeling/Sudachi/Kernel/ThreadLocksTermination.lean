import Sudachi.Kernel.ThreadLocksRuns

/-!
# The loop of `RestorePriority` ends

The loop follows the owners of locks without a mark where it has been. It ends from every state whose
lists and trees are in order, whatever the priorities are and whoever waits for whom: threads may wait
for each other in a circle, and a thread for itself. The operations call it in such states.
-/

set_option autoImplicit false

open Sudachi.Foundations Sudachi.Foundations.WaitGraph
open SearchTree (Balancing)

namespace Sudachi.Kernel.ThreadLocks

namespace State

variable {T : Type} [DecidableEq T] [Fintype T] {s s₁ : State T}

theorem restorePriorityLoop_ends_of_settling (bal : Balancing T) {fuel : Nat}
    {thread : Option T} {done : Finset T} {q : Int} (h : s.WellFormed) (hempty : s.NoEmptyLock)
    (hsettling : ∀ t, thread = some t → Settling s.getLockOwner s.basePriority s.priority done q t ∧
        turnsLeft s.priority done q < fuel) :
    ∃ s', restorePriorityLoop bal fuel s thread = some s' ∧ s'.WellFormed ∧ s'.NoEmptyLock := by
  induction fuel generalizing s thread done q with
  | zero =>
    cases thread with
    | none => exact ⟨s, rfl, h, hempty⟩
    | some t => exact absurd (hsettling t rfl).2 (Nat.not_lt_zero _)
  | succ fuel ih =>
    cases thread with
    | none => exact ⟨s, rfl, h, hempty⟩
    | some t =>
      obtain ⟨hset, hturns⟩ := hsettling t rfl
      obtain ⟨p, hp, hleast⟩ := newPriority_spec h hempty t
      rw [restorePriorityLoop, hp]
      by_cases hsame : p = s.priority t
      · exact ⟨s, by simp [hsame], h, hempty⟩
      · obtain ⟨s₁, hs₁, h₁, hempty₁, hlocal, hprio, howner⟩ := requeue_spec bal h hempty t p
        have hsettling₁ : ∀ o, s.getLockOwner t = some o →
            Settling s₁.getLockOwner s₁.basePriority s₁.priority (insert t done) p o ∧
              turnsLeft s₁.priority (insert t done) p < fuel := by
          intro o ho
          obtain ⟨hnext, hless⟩ := hset.next hleast hsame ho
          rw [howner, hlocal.basePriority, hprio]
          exact ⟨hnext, by omega⟩
        obtain ⟨s', hs', h'⟩ := ih h₁ hempty₁ hsettling₁
        exact ⟨s', by simp [hsame, hs₁, hs'], h'⟩

/-- The turns that the loop makes at most. -/
def maxTurns (T : Type) [Fintype T] : Nat := (Fintype.card T + 1) * (Fintype.card T + 1)

theorem restorePriorityLoop_ends (bal : Balancing T) {fuel : Nat} (h : s.WellFormed)
    (hempty : s.NoEmptyLock) (t : T) (hfuel : maxTurns T ≤ fuel) :
    ∃ s', restorePriorityLoop bal fuel s (some t) = some s' ∧ s'.WellFormed ∧ s'.NoEmptyLock := by
  have hturns : turnsLeft s.priority ∅ (s.basePriority t) < fuel := by
    have hcount := Finset.card_le_univ (Finset.univ.filter fun u => s.basePriority t < s.priority u)
    rw [maxTurns, Nat.succ_mul] at hfuel
    rw [turnsLeft, Finset.card_empty, Nat.sub_zero]
    omega
  refine restorePriorityLoop_ends_of_settling bal h hempty fun u hu => ⟨?_, hturns⟩
  obtain rfl := Option.some.inj hu
  exact settling_start _ _ _ _

/-- The calls of `RestorePriority`: the state in which the operation starts, and the state and the
thread of the call. The thread that gives a lock up does not wait for it. -/
inductive Restores (bal : Balancing T) (s : State T) : State T → T → Prop where
  | setBase (t : T) (value : Int) : Restores bal s (s.setBase t value) t
  | addWaiter {this thread : T} {s₁ : State T} (hw : s.waitingLockInfo thread = none)
      (htree : s.conditionVariableTree thread = none)
      (h : s.addWaiterImpl bal this thread = some s₁) : Restores bal s s₁ this
  | removeWaiter {this thread : T} {s₁ : State T} (howner : s.getLockOwner thread = some this)
      (h : s.removeWaiterImpl bal this thread = some s₁) : Restores bal s s₁ this
  | removeWaiterByKey {this next : T} {lock : LockId} {more : Bool} {s₁ : State T}
      (hlock : lock ∈ s.heldLockInfoList this) (hself : s.waitingLockInfo this ≠ some lock)
      (h : s.handOverLock bal this lock = some (next, more, s₁)) : Restores bal s s₁ this

omit [Fintype T] in
theorem Restores.wellFormed {bal : Balancing T} {t : T} (hcall : Restores bal s s₁ t)
    (h : s.WellFormed) (hempty : s.NoEmptyLock) : s₁.WellFormed ∧ s₁.NoEmptyLock := by
  cases hcall with
  | setBase t value => exact ⟨h.setBase t value, hempty⟩
  | addWaiter hw htree hs =>
    obtain ⟨s', hs', h', hempty', -⟩ := addWaiterImpl_spec bal t h hempty hw htree
    rw [hs, Option.some.injEq] at hs'
    exact hs' ▸ ⟨h', hempty'⟩
  | removeWaiter howner hs =>
    obtain ⟨s', hs', h', hempty', -⟩ := removeWaiterImpl_spec bal h hempty howner
    rw [hs, Option.some.injEq] at hs'
    exact hs' ▸ ⟨h', hempty'⟩
  | removeWaiterByKey hlock hself hs =>
    obtain ⟨next, rest, s', -, hs', h', hempty', -⟩ := handOverLock_spec bal h hempty hlock hself
    rw [hs, Option.some.injEq, Prod.mk.injEq, Prod.mk.injEq] at hs'
    exact hs'.2.2 ▸ ⟨h', hempty'⟩

/-- The loop ends from every thread in every such state, and so does every call of it. -/
theorem restorePriority_ends (bal : Balancing T) {fuel : Nat} (h : s.WellFormed)
    (hempty : s.NoEmptyLock) (hfuel : maxTurns T ≤ fuel) :
    (∀ t, ∃ s', restorePriorityLoop bal fuel s (some t) = some s' ∧ s'.WellFormed ∧
      s'.NoEmptyLock) ∧
    ∀ s₁ t, Restores bal s s₁ t → ∃ s', restorePriorityLoop bal fuel s₁ (some t) = some s' ∧
      s'.WellFormed ∧ s'.NoEmptyLock := by
  refine ⟨fun t => restorePriorityLoop_ends bal h hempty t hfuel, fun s₁ t hcall => ?_⟩
  obtain ⟨h₁, hempty₁⟩ := hcall.wellFormed h hempty
  exact restorePriorityLoop_ends bal h₁ hempty₁ t hfuel

/-- A thread comes to wait for itself. -/
theorem restorePriority_ends_self : ∃ s₁ : State (Fin 3), s₁.getLockOwner 0 = some 0 ∧
    ∃ s', restorePriorityLoop SearchTree.rebuilding 16 s₁ (some 0) = some s' := by
  have hidle : idle.Consistent := Initial.consistent ⟨rfl, fun _ => rfl, fun _ => rfl, fun _ => rfl,
    fun _ => rfl, fun _ => rfl, fun _ => rfl, fun _ => rfl, fun _ => Nat.one_pos⟩
  obtain ⟨s₁, hs₁, -, -, -, -, howner⟩ := @addWaiterImpl_spec _ _ _ (0 : Fin 3)
    SearchTree.rebuilding (0 : Fin 3) hidle.wellFormed hidle.noEmptyLock rfl rfl
  obtain ⟨s', hs', -⟩ := (restorePriority_ends SearchTree.rebuilding hidle.wellFormed
    hidle.noEmptyLock (show maxTurns (Fin 3) ≤ 16 by decide)).2 s₁ 0 (.addWaiter rfl rfl hs₁)
  exact ⟨s₁, by rw [howner, Function.update_self], s', hs'⟩

end State

end Sudachi.Kernel.ThreadLocks
