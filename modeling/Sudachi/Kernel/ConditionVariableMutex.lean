import Sudachi.Kernel.ConditionVariableInvariant

/-!
# Mutexes

`WaitForAddress`, `SignalToAddress`, `Wait` and the end of a wait by a timer or by a request, one by one:
they come to an end and keep the invariant. A mutex is handed over (`release_spec`) to the most urgent of
the threads that wait at its address, and the others wait for that thread from then on.
-/

set_option autoImplicit false

namespace Sudachi.Kernel.ThreadLocks

open Sudachi.Foundations Sudachi.Foundations.WaitGraph Relation Function
open SearchTree (Balancing)

namespace Process

variable {T : Type} [DecidableEq T] [Fintype T]

section Waiting

variable {p : Process T}

/-- `WaitForAddress` by a thread that runs, with a tag that is not zero and has no mask. -/
theorem waitForAddress_spec (bal : Balancing T) (h : p.Invariant) {cur : T}
    (hcur : p.threadState cur ≠ .waiting) (handle : Handle) (addr : BitVec 64) {value : BitVec 32}
    (hvalue : ValidTag value) :
    ∃ result p', p.waitForAddress bal cur handle addr value = some (result, p') ∧ p'.Invariant := by
  have hidle := (h.placed cur).idle hcur
  have hw : p.waitingLockInfo cur = none := h.waitingLockInfo_eq_none hidle.owner
  rw [waitForAddress]
  by_cases hterm : p.terminationRequested cur = true
  · exact ⟨_, p, by rw [if_pos hterm], h⟩
  · rw [if_neg hterm]
    by_cases htag : p.memory addr ≠ handle ||| handleWaitMask
    · exact ⟨_, p, by rw [if_pos htag], h⟩
    · rw [if_neg htag]
      rw [not_not] at htag
      cases hhandle : p.handles handle with
      | none => exact ⟨_, p, rfl, h⟩
      | some owner =>
        obtain ⟨s₁, hs₁, h₁, heq₁⟩ := h.consistent.setUserAddressKey hw addr value
        have hw₁ : s₁.waitingLockInfo cur = none := by rw [heq₁]; exact hw
        have htree₁ : s₁.conditionVariableTree cur = none := by rw [heq₁]; exact hidle.tree
        obtain ⟨s₂, hs₂, h₂, hlocal, howner⟩ := s₁.addWaiter_spec bal h₁ owner hw₁ htree₁
        refine ⟨none, { p with toState := s₂ }.beginWait cur .waitForAddress,
          by simp [hs₁, hs₂], h₂, hlocal.keys (heq₁ ▸ h.keys), ?_, fun t => ?_⟩
        · have hbounded₁ : s₁.AtLeast 0 := heq₁ ▸ h.bounded.of_eq rfl rfl
          exact hbounded₁.addWaiter hs₂
        · have howner₁ : s₁.getLockOwner = p.getLockOwner := by rw [heq₁]; rfl
          rw [howner₁] at howner
          by_cases ht : t = cur
          · subst ht
            refine .inr (.inl ⟨by simp [beginWait], ?_, ?_, .inl (by simp [beginWait]), ?_, ?_, ?_⟩)
            · show s₂.getLockOwner t ≠ none
              rw [howner, update_self]
              simp
            · show s₂.conditionVariableTree t = none
              rw [hlocal.conditionVariableTree, htree₁]
            · show s₂.isKernelAddressKey t = false
              rw [hlocal.isKernelAddressKey, heq₁]
              simp
            · show ValidTag (s₂.addressKeyValue t)
              rw [hlocal.addressKeyValue, heq₁]
              simpa using hvalue
            · show HasWaitMask (p.memory (s₂.addressKey t))
              rw [hlocal.addressKey, heq₁]
              simpa [htag] using hasWaitMask_or handle
          · have hunmoved : Unmoved p { p with toState := s₂ } t := by
              refine ⟨rfl, rfl, ?_, ?_, ?_, ?_, ?_, fun hlock => hlock.tag⟩
              · show s₂.addressKey t = p.addressKey t
                rw [hlocal.addressKey, heq₁]
                simp [ht]
              · show s₂.addressKeyValue t = p.addressKeyValue t
                rw [hlocal.addressKeyValue, heq₁]
                simp [ht]
              · show s₂.isKernelAddressKey t = p.isKernelAddressKey t
                rw [hlocal.isKernelAddressKey, heq₁]
                simp [ht]
              · show s₂.conditionVariableTree t = p.conditionVariableTree t
                rw [hlocal.conditionVariableTree, heq₁]
              · show s₂.getLockOwner t = none ↔ p.getLockOwner t = none
                rw [howner, update_of_ne ht]
            have hbegin := unmoved_beginWait { p with toState := s₂ } .waitForAddress ht
            exact (hunmoved.trans hbegin (h.placed t)).placed (h.placed t)

end Waiting

/-! ## The hand-over of a mutex -/

section Release

variable {p : Process T} {cur : T} {addr : BitVec 64}

variable {w next : T} {s' : State T} {more : Bool}

omit [DecidableEq T] [Fintype T] in
/-- The lock that a thread waits on. -/
theorem Invariant.lock_of_waitsAt (h : p.Invariant) {o : T} (hw : p.WaitsAt w addr)
    (ho : p.getLockOwner w = some o) :
    ∃ l, p.waitingLockInfo w = some l ∧ l ∈ p.heldLockInfoList o ∧ p.lockAddressKey l = addr ∧
      p.lockIsKernelAddressKey l = false := by
  have hwf := h.consistent.wellFormed
  obtain ⟨l, hl, hheld⟩ := hwf.getLockOwner_iff.mp ho
  exact ⟨l, hl, hheld, (hwf.addressKey_eq w l hl).symm.trans hw.2,
    (hwf.isKernel_eq w l hl).symm.trans ((h.placed w).onLock hw.1).kernel⟩

/-- The waiters at `addr` come to wait for `next`, which was the most urgent of them; `more` says
whether there are others. -/
structure HandedOver (p : Process T) (s' : State T) (addr : BitVec 64) (next : T) (more : Bool) :
    Prop where
  consistent : s'.Consistent
  keys : s'.KeysDistinct
  bounded : s'.AtLeast 0
  frame : State.Frame p.toState s'
  waits : p.WaitsAt next addr
  least : ∀ w, p.WaitsAt w addr → p.priority next ≤ p.priority w
  owner_next : s'.getLockOwner next = none
  owner_others : ∀ w, w ≠ next → p.WaitsAt w addr → s'.getLockOwner w = some next
  owner_rest : ∀ w, ¬ p.WaitsAt w addr → s'.getLockOwner w = p.getLockOwner w
  more_iff : more = true ↔ ∃ w, w ≠ next ∧ p.WaitsAt w addr

/-- A thread that runs releases a mutex whose waiters all wait for it. -/
theorem release_spec (bal : Balancing T) (h : p.Invariant) (hcur : p.threadState cur ≠ .waiting)
    (hmine : ∀ w, p.WaitsAt w addr → p.getLockOwner w = some cur) :
    (p.toState.removeWaiterByKey bal cur addr false = some (none, false, p.toState) ∧
      ∀ w, ¬ p.WaitsAt w addr) ∨
    ∃ next more s', p.toState.removeWaiterByKey bal cur addr false = some (some next, more, s') ∧
      HandedOver p s' addr next more := by
  have hwf := h.consistent.wellFormed
  have hidle := (h.placed cur).idle hcur
  cases hfind : p.toState.findHeldLock cur addr false with
  | none =>
    refine .inl ⟨by rw [State.removeWaiterByKey, hfind], fun w hw => ?_⟩
    obtain ⟨l, -, hheld, hkey, hkernel⟩ := h.lock_of_waitsAt hw (hmine w hw)
    have hnot := List.find?_eq_none.mp hfind l hheld
    exact hnot (by simp [hkey, hkernel])
  | some l =>
    have hl : l ∈ p.heldLockInfoList cur := List.mem_of_find?_eq_some hfind
    have hkey : p.lockAddressKey l = addr ∧ p.lockIsKernelAddressKey l = false := by
      simpa using List.find?_some hfind
    have hself : p.waitingLockInfo cur ≠ some l := by
      rw [h.waitingLockInfo_eq_none hidle.owner]
      simp
    -- those who wait on this lock are those who wait at the address
    have hmem : ∀ w, p.waitingLockInfo w = some l ↔ p.WaitsAt w addr := by
      intro w
      constructor
      · intro hw
        have howner : p.getLockOwner w = some cur := hwf.getLockOwner_iff.mpr ⟨l, hw, hl⟩
        exact ⟨by simp [howner], (hwf.addressKey_eq w l hw).trans hkey.1⟩
      · intro hw
        obtain ⟨m, hm, hheld, hmkey, hmkernel⟩ := h.lock_of_waitsAt hw (hmine w hw)
        have hml : m = l := h.keys cur m hheld l hl (hmkey.trans hkey.1.symm)
          (hmkernel.trans hkey.2.symm)
        rw [hm, hml]
    obtain ⟨next, rest, s', hwaiters, hs', h', hframe, hkeys, hover⟩ :=
      State.removeWaiterByKey_spec bal h.consistent hfind hself
    have hnext : p.WaitsAt next addr := (hmem next).mp hover.mem
    refine .inr ⟨next, _, s', hs', h', hkeys ?_ h.keys, h.bounded.removeWaiterByKey hs',
      hframe, hnext, fun w hw => ?_,
      hover.next, fun w hne hw => ?_, fun w hw => ?_, ?_⟩
    · -- a lock of the next owner at this address would have waiters of its own
      intro m hm hmkey _
      obtain ⟨v, vs, hv⟩ := List.exists_cons_of_ne_nil (h.consistent.noEmptyLock next m hm)
      have hvm : p.waitingLockInfo v = some m := (hwf.mem_waiters m v).mp (by simp [hv])
      have hvowner : p.getLockOwner v = some next := hwf.getLockOwner_iff.mpr ⟨m, hvm, hm⟩
      have hvat : p.WaitsAt v addr :=
        ⟨by simp [hvowner], (hwf.addressKey_eq v m hvm).trans (hmkey.trans hkey.1)⟩
      have heq : cur = next := Option.some.inj ((hmine v hvat).symm.trans hvowner)
      exact hnext.1 (heq ▸ hidle.owner)
    · exact hover.least w ((hmem w).mpr hw)
    · exact hover.others w ((hmem w).mpr hw) hne
    · exact hover.rest w fun hwl => hw ((hmem w).mp hwl)
    · have hnodup := hwf.waiters_nodup l
      rw [hwaiters, List.nodup_cons] at hnodup
      rw [decide_eq_true_eq]
      constructor
      · intro hne
        obtain ⟨w, ws, hws⟩ := List.exists_cons_of_ne_nil hne
        have hw : w ∈ p.waiters l := by simp [hwaiters, hws]
        refine ⟨w, fun heq => hnodup.1 (by simp [hws, ← heq]), (hmem w).mp ?_⟩
        exact (hwf.mem_waiters l w).mp hw
      · rintro ⟨w, hne, hw⟩ hnil
        have hwl := (hwf.mem_waiters l w).mpr ((hmem w).mpr hw)
        rw [hwaiters, hnil, List.mem_singleton] at hwl
        exact hne hwl

omit [DecidableEq T] [Fintype T] in
theorem Invariant.writeToUser (h : p.Invariant) {value : BitVec 32}
    (hmask : ∀ t, p.WaitsAt t addr → HasWaitMask value) : (p.writeToUser addr value).Invariant := by
  refine ⟨h.consistent, h.keys, h.bounded, fun t => ?_⟩
  refine (unmoved_writeToUser p addr value fun hlock heq => ?_).placed (h.placed t)
  exact hmask t ⟨hlock.owner, heq⟩

/-- The state in which the next owner of a mutex runs again and the tag is written. -/
def passOn (p : Process T) (s' : State T) (addr : BitVec 64) (next : T) (more : Bool) : Process T :=
  ({ p with toState := s' }.wakeUp next .success).writeToUser addr (nextTag s' (some next) more)

omit [Fintype T] in
theorem endWait_eq {queue : WaitQueue} (hstate : p.threadState w = .waiting)
    (hqueue : p.waitQueue w = some queue) (hne : queue ≠ .enterUserException) (result : SvcResult) :
    p.endWait w result = some (p.wakeUp w result) := by
  rw [endWait, if_pos hstate, hqueue]
  cases queue with
  | enterUserException => exact absurd rfl hne
  | waitForAddress => rfl
  | waitConditionVariable tree => rfl
  | addressArbiter tree => rfl
  | lightLock => rfl

section

omit [DecidableEq T] [Fintype T]

theorem OnLock.exists_queue (h : p.OnLock w) :
    ∃ queue, p.waitQueue w = some queue ∧ queue ≠ .enterUserException := by
  rcases h.queue with hqueue | hqueue
  · exact ⟨_, hqueue, by simp⟩
  · exact ⟨_, hqueue, by simp⟩

theorem HandedOver.unmoved (hover : HandedOver p s' addr next more) {t : T} (ht : t ≠ next) :
    Unmoved p { p with toState := s' } t := by
  refine unmoved_of_frame hover.frame ?_
  by_cases hat : p.WaitsAt t addr
  · rw [hover.owner_others t ht hat]
    simp [hat.1]
  · rw [hover.owner_rest t hat]

theorem nextTag_some (s' : State T) (next : T) (more : Bool) : nextTag s' (some next) more =
      if more then s'.addressKeyValue next ||| handleWaitMask else s'.addressKeyValue next :=
  rfl

end

omit [Fintype T] in
theorem HandedOver.invariant (h : p.Invariant)
    (hover : HandedOver p s' addr next more) : (p.passOn s' addr next more).Invariant := by
  have hlock := (h.placed next).onLock hover.waits.1
  have hwoken : ({ p with toState := s' }.wakeUp next .success).Invariant := by
    refine ⟨hover.consistent, hover.keys, hover.bounded, fun t => ?_⟩
    by_cases ht : t = next
    · subst ht
      refine .inl ⟨by simp [wakeUp], hover.owner_next, ?_⟩
      exact (congrFun hover.frame.conditionVariableTree t).trans hlock.tree
    · have hwake := unmoved_wakeUp { p with toState := s' } .success ht
      exact ((hover.unmoved ht).trans hwake (h.placed t)).placed (h.placed t)
  refine hwoken.writeToUser fun t hat => ?_
  obtain ⟨howner, haddress⟩ := hat
  have ht : t ≠ next := by
    rintro rfl
    exact howner hover.owner_next
  have hat : p.WaitsAt t addr := by
    refine ⟨fun hnone => howner ?_, (congrFun hover.frame.addressKey t).symm.trans haddress⟩
    exact (hover.unmoved ht).owner.mpr hnone
  have hmore : more = true := hover.more_iff.mpr ⟨t, ht, hat⟩
  rw [nextTag_some, if_pos hmore]
  exact hasWaitMask_or _

/-- What unlocking a mutex brings about: nobody waits at the address and the tag is zero, or the most
urgent waiter owns the mutex and runs, the others wait for it, and the tag names it, with the mask
exactly when somebody still waits there. -/
def Unlocks (p p' : Process T) (addr : BitVec 64) : Prop :=
  ((∀ w, ¬ p.WaitsAt w addr) ∧ p'.memory addr = 0) ∨
  ∃ next, p.WaitsAt next addr ∧ (∀ w, p.WaitsAt w addr → p.priority next ≤ p.priority w) ∧
    p'.threadState next = .runnable ∧ p'.waitResult next = .success ∧
    p'.getLockOwner next = none ∧
    (∀ w, w ≠ next → p.WaitsAt w addr → p'.getLockOwner w = some next) ∧
    holderOf (p'.memory addr) = p.addressKeyValue next ∧
    (HasWaitMask (p'.memory addr) ↔ ∃ w, p'.WaitsAt w addr)

omit [Fintype T] in
theorem HandedOver.unlocks (h : p.Invariant)
    (hover : HandedOver p s' addr next more) : Unlocks p (p.passOn s' addr next more) addr := by
  have hvalue := ((h.placed next).onLock hover.waits.1).value
  have hsame : s'.addressKeyValue next = p.addressKeyValue next :=
    congrFun hover.frame.addressKeyValue next
  have htag : (p.passOn s' addr next more).memory addr =
      if more then p.addressKeyValue next ||| handleWaitMask else p.addressKeyValue next := by
    rw [passOn, memory_writeToUser, update_self, nextTag_some, hsame]
  have hwaits : (∃ w, (p.passOn s' addr next more).WaitsAt w addr) ↔ more = true := by
    rw [hover.more_iff]
    constructor
    · rintro ⟨w, howner, haddress⟩
      have hne : w ≠ next := by
        rintro rfl
        exact howner hover.owner_next
      refine ⟨w, hne, fun hnone => howner ((hover.unmoved hne).owner.mpr hnone), ?_⟩
      exact (congrFun hover.frame.addressKey w).symm.trans haddress
    · rintro ⟨w, hne, hw⟩
      refine ⟨w, ?_, (congrFun hover.frame.addressKey w).trans hw.2⟩
      show s'.getLockOwner w ≠ none
      rw [hover.owner_others w hne hw]
      simp
  refine .inr ⟨next, hover.waits, hover.least, by simp [passOn, wakeUp, Process.writeToUser],
    by simp [passOn, wakeUp, Process.writeToUser], hover.owner_next, hover.owner_others, ?_, ?_⟩
  · rw [htag]
    split
    · rw [holderOf_or, hvalue.holderOf_eq]
    · exact hvalue.holderOf_eq
  · rw [hwaits, htag]
    cases more with
    | true => simpa using hasWaitMask_or (p.addressKeyValue next)
    | false => simpa [HasWaitMask] using hvalue.unmasked

section

variable (bal : Balancing T) (h : p.Invariant) (hcur : p.threadState cur ≠ .waiting)
  (hmine : ∀ w, p.WaitsAt w addr → p.getLockOwner w = some cur)
include bal h hcur hmine

/-- `SignalToAddress` by a thread that all waiters of the mutex wait for. -/
theorem signalToAddress_spec :
    ∃ p', p.signalToAddress bal cur addr = some (.success, p') ∧ p'.Invariant ∧
      Unlocks p p' addr := by
  rcases release_spec bal h hcur hmine with ⟨hs, hnone⟩ | ⟨next, more, s', hs, hover⟩
  · refine ⟨p.writeToUser addr 0, by simp [signalToAddress, hs, endWaitOfNext, nextTag],
      h.writeToUser fun t hat => absurd hat (hnone t), .inl ⟨hnone, ?_⟩⟩
    rw [memory_writeToUser, update_self]
  · have hlock := (h.placed next).onLock hover.waits.1
    obtain ⟨queue, hqueue, hne⟩ := hlock.exists_queue
    have hend : ({ p with toState := s' }.writeToUser addr (nextTag s' (some next) more)).endWait next
        .success = some (p.passOn s' addr next more) :=
      endWait_eq (p := { p with toState := s' }.writeToUser addr _) hlock.state hqueue hne .success
    exact ⟨p.passOn s' addr next more, by simp [signalToAddress, hs, endWaitOfNext, hend],
      hover.invariant h, hover.unlocks h⟩

/-- The part of `Wait` that unlocks the mutex. -/
theorem wait_unlock_spec {key : BitVec 64} (hkey : key = addr ∨ ∀ w, ¬ p.WaitsAt w key) :
    ∃ next more s' p₁, p.toState.removeWaiterByKey bal cur addr false = some (next, more, s') ∧
      { p with toState := s' }.endWaitOfNext next .success = some p₁ ∧
      ((p₁.writeToUser key 1).writeToUser addr (nextTag s' next more)).Invariant ∧
      p₁.threadState cur ≠ .waiting ∧
      Unlocks p ((p₁.writeToUser key 1).writeToUser addr (nextTag s' next more)) addr := by
  -- the word of the condition variable is not one that threads wait at, or it is written over
  have hword : ∀ {q : Process T} {tag : BitVec 32}, (q.writeToUser addr tag).Invariant →
      (∀ w, q.WaitsAt w key → p.WaitsAt w key) →
      ((q.writeToUser key 1).writeToUser addr tag).Invariant := by
    intro q tag hq hsub
    by_cases heq : key = addr
    · subst heq
      have hidem : (q.writeToUser key 1).writeToUser key tag = q.writeToUser key tag := by
        simp [Process.writeToUser]
      rwa [hidem]
    · have hcomm : (q.writeToUser key 1).writeToUser addr tag =
          (q.writeToUser addr tag).writeToUser key 1 := by
        simp only [Process.writeToUser, update_comm heq]
      rw [hcomm]
      exact hq.writeToUser fun w hw => absurd (hsub w hw) (hkey.resolve_left heq w)
  have hmemory : ∀ (q : Process T) (tag : BitVec 32),
      ((q.writeToUser key 1).writeToUser addr tag).memory addr = tag := by
    intro q tag
    rw [memory_writeToUser, update_self]
  rcases release_spec bal h hcur hmine with ⟨hs, hnone⟩ | ⟨next, more, s', hs, hover⟩
  · refine ⟨none, false, p.toState, p, hs, rfl, hword (h.writeToUser fun t hat => ?_)
      (fun w hw => hw), hcur, .inl ⟨hnone, hmemory p 0⟩⟩
    exact absurd hat (hnone t)
  · have hlock := (h.placed next).onLock hover.waits.1
    obtain ⟨queue, hqueue, hne⟩ := hlock.exists_queue
    have hne' : cur ≠ next := by
      rintro rfl
      exact hcur hlock.state
    have hend : { p with toState := s' }.endWaitOfNext (some next) .success =
        some ({ p with toState := s' }.wakeUp next .success) :=
      endWait_eq (p := { p with toState := s' }) hlock.state hqueue hne .success
    refine ⟨some next, more, s', _, hs, hend, hword (hover.invariant h) fun w hw => ?_, ?_, ?_⟩
    · have hwn : w ≠ next := by
        rintro rfl
        exact hw.1 hover.owner_next
      refine ⟨fun hnone => hw.1 ((hover.unmoved hwn).owner.mpr hnone), ?_⟩
      exact (congrFun hover.frame.addressKey w).symm.trans hw.2
    · simpa [wakeUp, hne'] using hcur
    · rcases hover.unlocks h with ⟨hnone, -⟩ | hunlocks
      · exact absurd hover.waits (hnone next)
      · right
        have hpass : (p.passOn s' addr next more).memory addr = nextTag s' (some next) more := by
          rw [passOn, memory_writeToUser, update_self]
        rw [hpass] at hunlocks
        rw [hmemory]
        exact hunlocks

/-- `Wait` by a thread that all waiters of the mutex wait for. -/
theorem wait_spec {key : BitVec 64} (hkey : key = addr ∨ ∀ w, ¬ p.WaitsAt w key) {value : BitVec 32}
    (hvalue : ValidTag value) (timeout : Int) :
    ∃ result p', p.wait bal conditionVariables cur addr key value timeout = some (result, p') ∧
      p'.Invariant := by
  rw [wait]
  by_cases hterm : p.terminationRequested cur = true
  · exact ⟨_, p, by rw [if_pos hterm], h⟩
  · rw [if_neg hterm]
    obtain ⟨next, more, s', p₁, hs, hend, h₁, hcur₁, -⟩ := wait_unlock_spec bal h hcur hmine hkey
    generalize hp₂ : (p₁.writeToUser key 1).writeToUser addr (nextTag s' next more) = p₂ at h₁
    have hcur₂ : p₂.threadState cur ≠ .waiting := by
      rw [← hp₂]
      exact hcur₁
    simp only [hs, hend, Option.bind_eq_bind, Option.bind_some, hp₂]
    by_cases htimeout : timeout = 0
    · exact ⟨_, p₂, by rw [if_pos htimeout], h₁⟩
    · rw [if_neg htimeout]
      have hidle := (h₁.placed cur).idle hcur₂
      obtain ⟨s₃, hs₃, h₃, heq₃⟩ := h₁.consistent.setConditionVariable bal
        (h₁.waitingLockInfo_eq_none hidle.owner) hidle.tree conditionVariables addr key value
      refine ⟨none, _, by rw [hs₃]; rfl, h₃, ?_, ?_, fun t => ?_⟩
      · rw [heq₃]
        exact h₁.keys
      · rw [heq₃]
        exact h₁.bounded.of_eq rfl rfl
      · by_cases ht : t = cur
        · subst ht
          refine .inr (.inr ⟨conditionVariables, by simp [beginWait], ?_, ?_, ?_, fun _ => ?_,
            fun _ => ?_⟩)
          · rw [heq₃]
            exact hidle.owner
          · rw [heq₃]
            simp [beginWait, State.insertCondvar]
          · simp [beginWait, queueOf]
          · rw [heq₃]
            simp [beginWait, State.insertCondvar]
          · rw [heq₃]
            simpa [beginWait, State.insertCondvar] using hvalue
        · refine Unmoved.placed ?_ (h₁.placed t)
          rw [heq₃]
          refine ⟨by simp [beginWait, ht], by simp [beginWait, ht],
            by simp [beginWait, State.insertCondvar, ht], by simp [beginWait, State.insertCondvar, ht],
            by simp [beginWait, State.insertCondvar, ht], by simp [beginWait, State.insertCondvar, ht],
            .rfl, fun hlock => hlock.tag⟩

end

end Release

/-! ## The end of a wait -/

section Cancel

variable {p : Process T} {t : T}

section

omit [Fintype T]

/-- A thread that has left its lock runs again. -/
theorem Invariant.wakeUp_of_removed (h : p.Invariant) {s' : State T} (hs' : s'.Consistent)
    (hframe : State.Frame p.toState s') (hkeys : s'.KeysDistinct) (hbounded : s'.AtLeast 0)
    (howner : s'.getLockOwner = update p.getLockOwner t none)
    (htree : p.conditionVariableTree t = none) (result : SvcResult) :
    ({ p with toState := s' }.wakeUp t result).Invariant := by
  refine ⟨hs', hkeys, hbounded, fun u => ?_⟩
  by_cases hu : u = t
  · subst hu
    refine .inl ⟨by simp [wakeUp], ?_, ?_⟩
    · show s'.getLockOwner u = none
      rw [howner, update_self]
    · show s'.conditionVariableTree u = none
      rw [hframe.conditionVariableTree, htree]
  · have hstays : Unmoved p { p with toState := s' } u := unmoved_of_frame hframe (by
      rw [howner, update_of_ne hu])
    have hwake := unmoved_wakeUp { p with toState := s' } result hu
    exact (hstays.trans hwake (h.placed u)).placed (h.placed u)

theorem unmoved_leaveTree (bal : Balancing T) (p : Process T) (c : TreeId) {t u : T} (hu : u ≠ t) :
    Unmoved p { p with
      toState := (p.toState.eraseCondvar bal c t).clearConditionVariable t } u where
  state := rfl
  queue := rfl
  address := rfl
  value := rfl
  kernel := rfl
  tree := update_of_ne hu _ _
  owner := .rfl
  tag := fun hlock => hlock.tag

/-- A thread that has left its tree runs again. -/
theorem Invariant.wakeUp_of_left (h : p.Invariant) (bal : Balancing T) {c : TreeId}
    (htree : p.InTree t c) (result : SvcResult) : ({ p with
      toState := (p.toState.eraseCondvar bal c t).clearConditionVariable t }.wakeUp t
        result).Invariant := by
  refine ⟨h.consistent.leaveTree bal htree.tree, h.keys, h.bounded.of_eq rfl rfl, fun u => ?_⟩
  by_cases hu : u = t
  · subst hu
    exact .inl ⟨by simp [wakeUp], htree.owner, update_self _ _ _⟩
  · have hwake := unmoved_wakeUp { p with
      toState := (p.toState.eraseCondvar bal c t).clearConditionVariable t } result hu
    exact ((unmoved_leaveTree bal p c hu).trans hwake (h.placed u)).placed (h.placed u)

end

/-- `CancelWait` of any thread. -/
theorem cancelWait_spec (bal : Balancing T) (h : p.Invariant) (t : T)
    (result : SvcResult) : ∃ p', p.cancelWait bal t result = some p' ∧ p'.Invariant := by
  rw [cancelWait]
  rcases h.placed t with hidle | hlock | ⟨c, htree⟩
  · exact ⟨p, by rw [if_neg hidle.state], h⟩
  · rw [if_pos hlock.state]
    obtain ⟨owner, howner⟩ := Option.ne_none_iff_exists'.mp hlock.owner
    obtain ⟨s', hs', h', hframe, hkeys, howner'⟩ := State.removeWaiter_spec bal h.consistent howner
    have hwoken := h.wakeUp_of_removed h' hframe (hkeys h.keys) (h.bounded.removeWaiter hs')
      howner' hlock.tree result
    refine ⟨_, ?_, hwoken⟩
    rcases hlock.queue with hqueue | hqueue
    · simp [hqueue, queueCancelWait, leaveOwnerUnchecked, howner, hs']
    · have hout : s'.conditionVariableTree t = none := by
        rw [hframe.conditionVariableTree, hlock.tree]
      simp [hqueue, queueCancelWait, leaveOwner, howner, hs', leaveTree, hout]
  · rw [if_pos htree.state, htree.queue]
    refine ⟨_, ?_, h.wakeUp_of_left bal htree result⟩
    by_cases hc : c = conditionVariables
    · simp [queueOf, hc, queueCancelWait, leaveOwner, htree.owner, leaveTree, htree.tree]
    · simp [queueOf, hc, queueCancelWait, leaveTree, htree.tree]

end Cancel

end Process

end Sudachi.Kernel.ThreadLocks
