import Sudachi.Kernel.ConditionVariableSignal
import Sudachi.Kernel.ThreadFinalize

/-!
# Runs of mutexes and condition variables

Threads that lock and unlock mutexes, wait for condition variables and signal them, in any order, while
waits time out or are cancelled, other threads wait for address arbiters, priorities change and the
program writes to its memory. The kernel takes the word of the program for a mutex as it finds it:
`Allowed` says what a program has to keep to. No waiter is lost in such a run (`reachable_handOff`).
-/

set_option autoImplicit false

namespace Sudachi.Kernel.ThreadLocks

open Sudachi.Foundations Sudachi.Foundations.WaitGraph Relation Option
open SearchTree (Balancing rebuilding)

namespace Process

variable {T : Type}

/-! ## What happens to the threads -/

inductive Operation (T : Type) where
  | waitForAddress (curThread : T) (handle : Handle) (addr : BitVec 64) (value : BitVec 32)
  | signalToAddress (curThread : T) (addr : BitVec 64)
  | wait (curThread : T) (addr key : BitVec 64) (value : BitVec 32) (timeout : Int)
  | signal (cvKey : BitVec 64) (count : BitVec 32)
  /-- A timeout or a request. -/
  | cancelWait (thread : T) (result : SvcResult)
  | waitAddressArbiter (curThread : T) (tree : TreeId) (addr : BitVec 64)
  /-- The arbiter wakes a thread of its tree. -/
  | signalAddressArbiter (thread : T) (tree : TreeId)
  | setBasePriority (thread : T) (value : Int)
  | requestTermination (thread : T)
  /-- Handles are opened and closed. -/
  | setHandles (handles : Handle → Option T)
  /-- The program writes to its memory. -/
  | store (address : BitVec 64) (value : BitVec 32)

variable [DecidableEq T]

/-- A thread waits for an address arbiter. -/
def waitAddressArbiter (bal : Balancing T) (p : Process T) (curThread : T)
    (tree : TreeId) (addr : BitVec 64) : Option (Process T) :=
  (p.toState.setAddressArbiter curThread tree addr).map fun s =>
    { p with toState := s.insertCondvar bal tree curThread }.beginWait curThread
      (.addressArbiter tree)

/-- An arbiter takes a thread from its tree and wakes it. -/
def signalAddressArbiter (bal : Balancing T) (p : Process T) (thread : T)
    (tree : TreeId) : Option (Process T) :=
  { p with
    toState := (p.toState.eraseCondvar bal tree thread).clearConditionVariable
      thread }.endWait thread .success

/-- When an operation may be called: by a thread that does not wait; a mutex is unlocked by the thread
that its waiters wait for; tags that threads name themselves by are not zero and have no mask; and
where threads wait on a mutex, no other store takes the mask from its word. -/
def Allowed (p : Process T) : Operation T → Prop
  | .waitForAddress cur _ _ value => p.threadState cur ≠ .waiting ∧ ValidTag value
  | .signalToAddress cur addr =>
    p.threadState cur ≠ .waiting ∧ ∀ w, p.WaitsAt w addr → p.getLockOwner w = some cur
  | .wait cur addr key value _ =>
    p.threadState cur ≠ .waiting ∧ (∀ w, p.WaitsAt w addr → p.getLockOwner w = some cur) ∧
      ValidTag value ∧ (key = addr ∨ ∀ w, ¬ p.WaitsAt w key)
  | .signal cvKey _ =>
    (∀ w, ¬ p.WaitsAt w cvKey) ∧ ∀ t ∈ p.waitersOf cvKey, p.addressKey t ≠ cvKey
  | .waitAddressArbiter cur tree _ => p.threadState cur ≠ .waiting ∧ tree ≠ conditionVariables
  | .signalAddressArbiter thread tree =>
    p.conditionVariableTree thread = some tree ∧ tree ≠ conditionVariables
  | .setBasePriority _ value =>
    State.highestThreadPriority ≤ value ∧ value ≤ State.lowestThreadPriority
  | .store address value => ∀ w, p.WaitsAt w address → HasWaitMask value
  | .cancelWait _ _ | .requestTermination _ | .setHandles _ => True

variable [Fintype T]

def apply (bal : Balancing T) (p : Process T) : Operation T → Option (Process T)
  | .waitForAddress cur handle addr value =>
    (p.waitForAddress bal cur handle addr value).map Prod.snd
  | .signalToAddress cur addr => (p.signalToAddress bal cur addr).map Prod.snd
  | .wait cur addr key value timeout =>
    (p.wait bal conditionVariables cur addr key value timeout).map Prod.snd
  | .signal cvKey count => (p.signal bal conditionVariables cvKey count).map Prod.snd
  | .cancelWait thread result => p.cancelWait bal thread result
  | .waitAddressArbiter cur tree addr => p.waitAddressArbiter bal cur tree addr
  | .signalAddressArbiter thread tree => p.signalAddressArbiter bal thread tree
  | .setBasePriority thread value =>
    (p.toState.setBasePriority bal thread value).map fun s => { p with toState := s }
  | .requestTermination thread =>
    some { p with
      terminationRequested := Function.update p.terminationRequested thread true }
  | .setHandles handles => some { p with handles := handles }
  | .store address value => some (p.writeToUser address value)

section Steps

variable {p : Process T} (bal : Balancing T)

omit [Fintype T] in
theorem waitAddressArbiter_spec (h : p.Invariant) {cur : T} {tree : TreeId}
    (hcur : p.threadState cur ≠ .waiting) (htree : tree ≠ conditionVariables) (addr : BitVec 64) :
    ∃ p', p.waitAddressArbiter bal cur tree addr = some p' ∧ p'.Invariant := by
  have hidle := (h.placed cur).idle hcur
  obtain ⟨s', hs', h', heq⟩ := h.consistent.setAddressArbiter bal
    (h.waitingLockInfo_eq_none hidle.owner) hidle.tree tree addr
  refine ⟨_, by rw [waitAddressArbiter, hs', map_some], h', ?_, ?_, fun t => ?_⟩
  · rw [heq]
    exact h.keys
  · rw [heq]
    exact h.bounded.of_eq rfl rfl
  · by_cases ht : t = cur
    · subst ht
      refine .inr (.inr ⟨tree, by simp [beginWait], ?_, ?_, ?_, fun hc => absurd hc htree,
        fun hc => absurd hc htree⟩)
      · rw [heq]
        exact hidle.owner
      · rw [heq]
        simp [beginWait, State.insertCondvar]
      · simp [beginWait, queueOf, htree]
    · refine Unmoved.placed ?_ (h.placed t)
      rw [heq]
      exact ⟨by simp [beginWait, ht], by simp [beginWait, ht], rfl, rfl, rfl,
        by simp [beginWait, State.insertCondvar, ht], .rfl, fun hlock => hlock.tag⟩

omit [Fintype T] in
theorem signalAddressArbiter_spec (h : p.Invariant) {t : T} {tree : TreeId}
    (ht : p.conditionVariableTree t = some tree) (htree : tree ≠ conditionVariables) :
    ∃ p', p.signalAddressArbiter bal t tree = some p' ∧ p'.Invariant := by
  have hin := (h.placed t).inTree ht
  have hqueue : p.waitQueue t = some (.addressArbiter tree) := by
    rw [hin.queue, queueOf, if_neg htree]
  refine ⟨_, ?_, h.wakeUp_of_left bal hin .success⟩
  rw [signalAddressArbiter]
  exact endWait_eq (p := { p with
    toState := (p.toState.eraseCondvar bal tree t).clearConditionVariable t }) hin.state hqueue
    (by simp) .success

theorem setBasePriority_spec (h : p.Invariant) (t : T) {value : Int}
    (hvalue : State.highestThreadPriority ≤ value ∧ value ≤ State.lowestThreadPriority) :
    ∃ s', p.toState.setBasePriority bal t value = some s' ∧ { p with toState := s' }.Invariant := by
  obtain ⟨s', hs', h', hframe, hkeys, howner⟩ :=
    State.restorePriority_setBase_spec bal h.consistent t value
  have hbounded : (p.toState.setBase t value).AtLeast 0 := by
    refine ⟨fun u => ?_, h.bounded.priority⟩
    by_cases hu : u = t
    · simpa [State.setBase, hu, State.highestThreadPriority] using hvalue.1
    · simpa [State.setBase, hu] using h.bounded.base u
  refine ⟨s', by rw [State.setBasePriority, if_pos hvalue, hs'], h', hkeys h.keys,
    hbounded.restorePriorityLoop hs', fun u => ?_⟩
  have hmoved : Unmoved { p with toState := p.toState.setBase t value } { p with toState := s' } u :=
    unmoved_of_frame hframe (by rw [howner]; exact .rfl)
  have hset : Unmoved p { p with toState := p.toState.setBase t value } u :=
    ⟨rfl, rfl, rfl, rfl, rfl, rfl, .rfl, fun hlock => hlock.tag⟩
  exact (hset.trans hmoved (h.placed u)).placed (h.placed u)

theorem apply_spec (h : p.Invariant) {op : Operation T} (hop : p.Allowed op) :
    ∃ p', p.apply bal op = some p' ∧ p'.Invariant := by
  cases op with
  | waitForAddress cur handle addr value =>
    obtain ⟨result, p', hp', h'⟩ := waitForAddress_spec bal h hop.1 handle addr hop.2
    exact ⟨p', by rw [apply, hp', map_some], h'⟩
  | signalToAddress cur addr =>
    obtain ⟨p', hp', h', -⟩ := signalToAddress_spec bal h hop.1 hop.2
    exact ⟨p', by rw [apply, hp', map_some], h'⟩
  | wait cur addr key value timeout =>
    obtain ⟨hcur, hmine, hvalue, hkey⟩ := hop
    obtain ⟨result, p', hp', h'⟩ := wait_spec bal h hcur hmine hkey hvalue timeout
    exact ⟨p', by rw [apply, hp', map_some], h'⟩
  | signal cvKey count =>
    obtain ⟨signalled, p', hp', h'⟩ : ∃ signalled p', p.signal bal conditionVariables cvKey count =
        some (signalled, p') ∧ p'.Invariant := signal_spec h cvKey count hop.1 hop.2
    exact ⟨p', by rw [apply, hp', map_some], h'⟩
  | cancelWait thread result => exact cancelWait_spec bal h thread result
  | waitAddressArbiter cur tree addr => exact waitAddressArbiter_spec bal h hop.1 hop.2 addr
  | signalAddressArbiter thread tree => exact signalAddressArbiter_spec bal h hop.1 hop.2
  | setBasePriority thread value =>
    obtain ⟨s', hs', h'⟩ := setBasePriority_spec bal h thread hop
    exact ⟨_, by rw [apply, hs', map_some], h'⟩
  | requestTermination thread =>
    refine ⟨_, rfl, h.consistent, h.keys, h.bounded, fun t => Unmoved.placed ?_ (h.placed t)⟩
    exact ⟨rfl, rfl, rfl, rfl, rfl, rfl, .rfl, fun hlock => hlock.tag⟩
  | setHandles handles =>
    refine ⟨_, rfl, h.consistent, h.keys, h.bounded, fun t => Unmoved.placed ?_ (h.placed t)⟩
    exact ⟨rfl, rfl, rfl, rfl, rfl, rfl, .rfl, fun hlock => hlock.tag⟩
  | store address value => exact ⟨_, rfl, h.writeToUser hop⟩

end Steps

/-! ## Runs -/

/-- No thread waits for anything. -/
structure Initial (p : Process T) : Prop where
  locks : p.toState.Initial
  base : ∀ t, 0 ≤ p.basePriority t
  state : ∀ t, p.threadState t ≠ .waiting

inductive Reachable (bal : Balancing T) : Process T → Prop where
  | initial {p : Process T} (h : p.Initial) : Reachable bal p
  | step {p p' : Process T} {op : Operation T} (h : Reachable bal p) (hop : p.Allowed op)
      (hp' : p.apply bal op = some p') : Reachable bal p'

omit [DecidableEq T] [Fintype T] in
theorem Initial.invariant {p : Process T} (h : p.Initial) : p.Invariant where
  consistent := h.locks.consistent
  keys := fun t l hl => by
    rw [h.locks.held] at hl
    exact absurd hl (by simp)
  bounded := ⟨h.base, fun t => h.locks.priority ▸ h.base t⟩
  placed := fun t =>
    .inl ⟨h.state t, congrFun h.locks.getLockOwner_eq t, h.locks.conditionVariable t⟩

theorem Reachable.invariant {bal : Balancing T} {p : Process T} (h : Reachable bal p) :
    p.Invariant := by
  induction h with
  | initial h => exact h.invariant
  | step _ hop hp' ih =>
    obtain ⟨p'', hp'', h''⟩ := apply_spec bal ih hop
    rw [hp', some.injEq] at hp''
    exact hp'' ▸ h''

/-! ## No waiter is lost -/

/-- What a thread can wait in. -/
inductive Place where
  | lock (lock : LockId)
  | tree (tree : TreeId)

omit [DecidableEq T] [Fintype T] in
/-- The threads in a place. -/
def nodes (p : Process T) : Place → List T
  | .lock lock => (p.lockTree lock).toList
  | .tree tree => (p.condvarTree tree).toList

section Facts

variable {p : Process T} {t : T}

section

omit [DecidableEq T] [Fintype T]

theorem Invariant.mem_nodes_lock (h : p.Invariant) (l : LockId) :
    t ∈ p.nodes (.lock l) ↔ p.waitingLockInfo t = some l :=
  h.consistent.wellFormed.mem_waiters l t

theorem Invariant.mem_nodes_tree (h : p.Invariant) (c : TreeId) :
    t ∈ p.nodes (.tree c) ↔ p.conditionVariableTree t = some c :=
  h.consistent.wellFormed.condvar.mem_iff c t

theorem Invariant.nodup_nodes (h : p.Invariant) (place : Place) : (p.nodes place).Nodup := by
  cases place with
  | lock l => exact h.consistent.wellFormed.waiters_nodup l
  | tree c => exact h.consistent.wellFormed.condvar.nodup c

theorem Invariant.not_mem_nodes (h : p.Invariant) (ht : p.threadState t ≠ .waiting)
    (place : Place) : t ∉ p.nodes place := by
  have hidle := (h.placed t).idle ht
  cases place with
  | lock l =>
    rw [h.mem_nodes_lock, h.waitingLockInfo_eq_none hidle.owner]
    simp
  | tree c =>
    rw [h.mem_nodes_tree, hidle.tree]
    simp

theorem Invariant.existsUnique_place (h : p.Invariant) (ht : p.threadState t = .waiting) :
    ∃! place, t ∈ p.nodes place := by
  rcases h.placed t with hidle | hlock | ⟨c, htree⟩
  · exact absurd ht hidle.state
  · have hwaiting : p.waitingLockInfo t ≠ none := fun hnone =>
      hlock.owner (h.consistent.wellFormed.getLockOwner_eq_none.mpr hnone)
    obtain ⟨l, hl⟩ := ne_none_iff_exists'.mp hwaiting
    refine ⟨.lock l, (h.mem_nodes_lock l).mpr hl, fun place hplace => ?_⟩
    cases place with
    | lock m =>
      rw [h.mem_nodes_lock, hl] at hplace
      rw [some.inj hplace]
    | tree c =>
      rw [h.mem_nodes_tree, hlock.tree] at hplace
      exact absurd hplace (by simp)
  · refine ⟨.tree c, (h.mem_nodes_tree c).mpr htree.tree, fun place hplace => ?_⟩
    cases place with
    | lock m =>
      rw [h.mem_nodes_lock, h.waitingLockInfo_eq_none htree.owner] at hplace
      exact absurd hplace (by simp)
    | tree c' =>
      rw [h.mem_nodes_tree, htree.tree] at hplace
      rw [some.inj hplace]

theorem Invariant.hasWaitMask (h : p.Invariant) {addr : BitVec 64} (ht : p.WaitsAt t addr) :
    HasWaitMask (p.memory addr) :=
  ht.2 ▸ ((h.placed t).onLock ht.1).tag

end

/-- In every state of a run: a thread that waits is once in one lock or tree, and the others are in none;
unlocking a mutex gives it to the most urgent waiter; a signal releases the first waiters of the key,
by priority and then by time of arrival, where the owners they come to wait for do not wait for the
key themselves; the tag of a mutex that is waited on has the mask; and every operation that may be
called comes to an end. -/
theorem reachable_handOff {bal : Balancing T} (h : Reachable bal p) :
    (∀ t, p.threadState t = .waiting → ∃! place, t ∈ p.nodes place) ∧
    (∀ t, p.threadState t ≠ .waiting → ∀ place, t ∉ p.nodes place) ∧
    (∀ place, (p.nodes place).Nodup) ∧
    (∀ cur addr, p.Allowed (.signalToAddress cur addr) →
      ∃ p', p.signalToAddress bal cur addr = some (.success, p') ∧ Unlocks p p' addr) ∧
    (∀ cvKey, (p.waitersOf cvKey).Pairwise fun a b => p.priority a < p.priority b ∨
      p.priority a = p.priority b ∧ p.insertTime a < p.insertTime b) ∧
    (∀ cvKey count, p.Allowed (.signal cvKey count) → p.Undisturbed (p.waitersOf cvKey) →
      ∃ p', p.signal bal conditionVariables cvKey count = some (p.firstWaiters cvKey count, p') ∧
        (∀ t, p'.conditionVariableTree t =
          if t ∈ p.firstWaiters cvKey count then none else p.conditionVariableTree t) ∧
        ∀ t ∈ p.firstWaiters cvKey count, p'.Released t) ∧
    (∀ t addr, p.WaitsAt t addr → HasWaitMask (p.memory addr)) ∧
    ∀ op, p.Allowed op → ∃ p', p.apply bal op = some p' ∧ Reachable bal p' := by
  have hinv := h.invariant
  refine ⟨fun t => hinv.existsUnique_place, fun t => hinv.not_mem_nodes, hinv.nodup_nodes,
    fun cur addr hop => ?_, fun cvKey => hinv.sorted_waitersOf, fun cvKey count hop hundisturbed => ?_,
    fun t addr => hinv.hasWaitMask, fun op hop => ?_⟩
  · obtain ⟨p', hp', -, hunlocks⟩ := signalToAddress_spec bal hinv hop.1 hop.2
    exact ⟨p', hp', hunlocks⟩
  · exact signal_undisturbed hinv cvKey count hop.2 hundisturbed
  · obtain ⟨p', hp', -⟩ := apply_spec bal hinv hop
    exact ⟨p', hp', h.step hop hp'⟩

end Facts

/-! ## Threads that lock one mutex -/

/-- Thread 2 waits for the condition variable at `0x2000` with the mutex at `0x1000`. -/
def sleeping : Process (Fin 3) :=
  (started.apply rebuilding (.wait 2 0x1000 0x2000 102 (-1))).getD started

/-- Thread 0 has locked the mutex, and says that another thread will wait for it. -/
def taken : Process (Fin 3) :=
  (sleeping.apply rebuilding (.store 0x1000 (100 ||| handleWaitMask))).getD started

/-- Thread 1 waits for the mutex. -/
def queued : Process (Fin 3) :=
  (taken.apply rebuilding (.waitForAddress 1 100 0x1000 101)).getD started

theorem initial_started : started.Initial where
  locks := ⟨rfl, fun _ => rfl, fun _ => rfl, fun _ => rfl, fun _ => rfl, fun _ => rfl,
    fun _ => rfl, fun _ => rfl, fun _ => one_pos⟩
  base := by decide
  state := by decide

theorem Reachable.getD {bal : Balancing T} {p : Process T} (h : Reachable bal p)
    (op : Operation T) (hop : p.Allowed op) (q : Process T) :
    Reachable bal ((p.apply bal op).getD q) := by
  obtain ⟨p', hp', -⟩ := apply_spec bal h.invariant hop
  rw [hp', getD_some]
  exact h.step hop hp'

theorem getLockOwner_queued : queued.getLockOwner = ![none, some 0, none] := by
  funext w
  fin_cases w <;> rfl

theorem reachable_queued : Reachable rebuilding queued := by
  have hnobody : ∀ w addr, ¬ started.WaitsAt w addr := fun w addr hw => hw.1 (by fin_cases w <;> rfl)
  have hsleeping : Reachable rebuilding sleeping :=
    (Reachable.initial initial_started).getD (.wait 2 0x1000 0x2000 102 (-1))
      ⟨by decide, fun w hw => absurd hw (hnobody w _), ⟨by decide, by decide⟩,
        .inr fun w => hnobody w _⟩ started
  have htaken : Reachable rebuilding taken :=
    hsleeping.getD (.store 0x1000 (100 ||| handleWaitMask)) (fun _ _ => hasWaitMask_or 100) started
  exact htaken.getD (.waitForAddress 1 100 0x1000 101) ⟨by decide, by decide, by decide⟩ started

theorem reachable_handOff_queued :
    (queued.WaitsAt 1 0x1000 ∧ queued.waitersOf 0x2000 = [2]) ∧
    (∃ p', queued.signalToAddress rebuilding 0 0x1000 = some (.success, p') ∧
      Unlocks queued p' 0x1000) ∧
    ∃ p', queued.signal rebuilding conditionVariables 0x2000 1 =
        some (queued.firstWaiters 0x2000 1, p') ∧
      ∀ t ∈ queued.firstWaiters 0x2000 1, p'.Released t := by
  have howner := getLockOwner_queued
  have hwaiters : queued.waitersOf 0x2000 = [2] := rfl
  have haddress : ∀ w, queued.getLockOwner w ≠ none → queued.addressKey w = 0x1000 := by
    intro w hw
    rw [howner] at hw
    fin_cases w
    · exact absurd rfl hw
    · rfl
    · exact absurd rfl hw
  obtain ⟨-, -, -, hunlock, -, hsignal, -⟩ := reachable_handOff reachable_queued
  refine ⟨⟨⟨by rw [howner]; simp, rfl⟩, hwaiters⟩, hunlock 0 0x1000 ⟨by decide, ?_⟩, ?_⟩
  · intro w hw
    have howned := hw.1
    rw [howner] at howned ⊢
    fin_cases w
    · exact absurd rfl howned
    · rfl
    · exact absurd rfl howned
  · have hallowed : queued.Allowed (.signal 0x2000 1) := by
      refine ⟨fun w hw => absurd ((haddress w hw.1).symm.trans hw.2) (by decide), ?_⟩
      rw [hwaiters]
      simp only [List.mem_singleton, forall_eq]
      decide
    have hundisturbed : queued.Undisturbed (queued.waitersOf 0x2000) := by
      rw [hwaiters]
      constructor
      case holder =>
        intro t ht o ho u hu
        rw [List.mem_singleton] at ht
        subst ht
        obtain rfl : (0 : Fin 3) = o := Option.some.inj ho
        rw [List.mem_singleton]
        rintro rfl
        exact not_reaches_of_none (by rw [howner]; rfl) (by decide) hu
      case own =>
        intro t ht o ho
        rw [List.mem_singleton] at ht
        subst ht
        exact .inl (Option.some.inj ho).symm
    obtain ⟨p', hp', -, hreleased⟩ := hsignal 0x2000 1 hallowed hundisturbed
    exact ⟨p', hp', hreleased⟩

/-- Thread 2 takes no part in the mutex, and unlocks it while thread 1 waits for thread 0. -/
theorem signalToAddress_of_stranger :
    ∃ p p', Reachable rebuilding p ∧ p.threadState 2 ≠ .waiting ∧
      p.signalToAddress rebuilding (2 : Fin 3) 0x1000 = some (.success, p') ∧
      p'.threadState 1 = .waiting ∧ p'.WaitsAt 1 0x1000 ∧ p'.getLockOwner 1 = some 0 ∧
      p'.memory 0x1000 = 0 ∧ ¬ HasWaitMask (p'.memory 0x1000) := by
  have hreach : Reachable rebuilding
      ((started.apply rebuilding (.waitForAddress 1 100 0x1000 101)).getD started) :=
    (Reachable.initial initial_started).getD (.waitForAddress 1 100 0x1000 101)
      ⟨by decide, by decide, by decide⟩ started
  refine ⟨_, _, hreach, by decide, rfl, rfl, ⟨?_, rfl⟩, rfl, rfl, ?_⟩
  · exact some_ne_none 0
  · exact fun hmask => hmask rfl

end Process

end Sudachi.Kernel.ThreadLocks
