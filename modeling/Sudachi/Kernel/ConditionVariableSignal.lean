import Sudachi.Kernel.ConditionVariableMutex

/-!
# Signals of a condition variable

`Signal` takes threads from the tree one by one (`SignalStep`). It always comes to an end and keeps the
invariant (`signal_spec`). The loop goes on from the node that stood behind the signalled thread before
the thread went to wait for the owner of its mutex. When no thread that waits for the key can be moved
by that (`Undisturbed`), the loop signals the first threads of the key in their order
(`signal_undisturbed`).
-/

set_option autoImplicit false

namespace Sudachi.Kernel.ThreadLocks

open Sudachi.Foundations Sudachi.Foundations.WaitGraph Relation List Option Function
open SearchTree (Balancing)

namespace Process

variable {T : Type}

/-! ## One thread -/

/-- The owner that a signalled thread comes to wait for. -/
def newOwner (p : Process T) (t : T) : Option T :=
  if p.memory (p.addressKey t) = 0 then none else p.handles (holderOf (p.memory (p.addressKey t)))

variable [DecidableEq T]

/-- What a signal does to the thread that it is for. -/
structure SignalStep (p p' : Process T) (t : T) : Prop where
  address : p'.addressKey = p.addressKey
  value : p'.addressKeyValue = p.addressKeyValue
  handles : p'.handles = p.handles
  key : p'.conditionVariableKey = p.conditionVariableKey
  tree : p'.conditionVariableTree = update p.conditionVariableTree t none
  memory : p'.memory = update p.memory (p.addressKey t)
    (if p.memory (p.addressKey t) = 0 then p.addressKeyValue t
      else p.memory (p.addressKey t) ||| handleWaitMask)
  owner : p'.getLockOwner = update p.getLockOwner t (p.newOwner t)
  state : ∀ u, u ≠ t → p'.threadState u = p.threadState u
  result : ∀ u, u ≠ t → p'.waitResult u = p.waitResult u
  wakes : p.newOwner t = none → p'.threadState t = .runnable ∧
    p'.waitResult t = if p.memory (p.addressKey t) = 0 then .success else .invalidState
  /-- The threads that the new owner does not wait for keep their order. -/
  order : ∀ P : T → Bool, P t = false → (∀ o, p.newOwner t = some o → ∀ u, P u = true →
      ¬ ReflTransGen (WaitsFor p'.getLockOwner) o u) →
    (p'.condvarTree conditionVariables).toList.filter P =
      (p.condvarTree conditionVariables).toList.filter P

section Step

variable {p : Process T} {t : T}

theorem filter_leaveTree (bal : Balancing T) (s : State T) (c : TreeId) {P : T → Bool}
    (ht : P t = false) :
    (((s.eraseCondvar bal c t).clearConditionVariable t).condvarTree c).toList.filter P =
      (s.condvarTree c).toList.filter P :=
  State.filter_eraseCondvar s bal c ht c

omit [DecidableEq T] in
/-- The tag that a signal leaves keeps the mask where threads wait. -/
theorem Invariant.hasWaitMask_signal (h : p.Invariant) {u : T} {address : BitVec 64}
    (hu : p.WaitsAt u address) (value : BitVec 32) :
    HasWaitMask (if p.memory address = 0 then value else p.memory address ||| handleWaitMask) := by
  have htag := ((h.placed u).onLock hu.1).tag
  rw [hu.2] at htag
  rw [if_neg htag.ne_zero]
  exact hasWaitMask_or _

/-- The process in which a signalled thread has left the tree and the tag is updated. -/
def signalling (bal : Balancing T) (p : Process T) (t : T) : Process T :=
  { p with
    toState := (p.toState.eraseCondvar bal conditionVariables t).clearConditionVariable
      t }.writeToUser (p.addressKey t)
    (if p.memory (p.addressKey t) = 0 then p.addressKeyValue t
      else p.memory (p.addressKey t) ||| handleWaitMask)

variable (bal : Balancing T)

theorem Invariant.wakeUp_signalling (h : p.Invariant) (ht : p.InTree t conditionVariables)
    (result : SvcResult) : ((p.signalling bal t).wakeUp t result).Invariant :=
  (h.wakeUp_of_left bal ht result).writeToUser fun u hu => by
    exact h.hasWaitMask_signal hu (p.addressKeyValue t)

/-- A signalled thread that runs again. -/
theorem signalStep_wakeUp (hnone : p.newOwner t = none) {result : SvcResult}
    (hresult : result = if p.memory (p.addressKey t) = 0 then .success else .invalidState)
    (ht : p.InTree t conditionVariables) :
    SignalStep p ((p.signalling bal t).wakeUp t result) t where
  address := rfl
  value := rfl
  handles := rfl
  key := rfl
  tree := rfl
  memory := rfl
  owner := by
    have hself := update_eq_self t p.getLockOwner
    rw [hnone, ← ht.owner, hself]
    rfl
  state := fun u hu => update_of_ne hu _ _
  result := fun u hu => update_of_ne hu _ _
  wakes := fun _ => ⟨update_self _ _ _, by simp [wakeUp, hresult]⟩
  order := fun _ hP _ => filter_leaveTree bal p.toState conditionVariables hP

theorem endWait_signalling (ht : p.InTree t conditionVariables) (result : SvcResult) :
    (p.signalling bal t).endWait t result = some ((p.signalling bal t).wakeUp t result) := by
  refine endWait_eq (p := p.signalling bal t) ht.state ht.queue ?_ result
  simp [queueOf]

variable [Fintype T]

/-- A signalled thread that comes to wait for the owner of its mutex. -/
theorem signalling_addWaiter_spec (h : p.Invariant) (ht : p.InTree t conditionVariables) {o : T}
    (ho : p.newOwner t = some o) : ∃ s', (p.signalling bal t).addWaiter bal o t = some s' ∧
      { p.signalling bal t with toState := s' }.Invariant ∧
      SignalStep p { p.signalling bal t with toState := s' } t := by
  have hconsistent := h.consistent.leaveTree bal ht.tree
  have htag : p.memory (p.addressKey t) ≠ 0 := by
    intro hzero
    simp [newOwner, hzero] at ho
  have hout : (p.signalling bal t).conditionVariableTree t = none := update_self _ _ _
  obtain ⟨s', hs', h', hlocal, howner⟩ := State.addWaiter_spec bal hconsistent o
    (h.consistent.waitingLockInfo_of_tree ht.tree) hout
  have hmemory : (p.signalling bal t).memory (p.addressKey t) =
      p.memory (p.addressKey t) ||| handleWaitMask := by
    rw [signalling, memory_writeToUser, update_self, if_neg htag]
  have howner' : s'.getLockOwner = update p.getLockOwner t (some o) := howner
  have hbounded : (p.signalling bal t).toState.AtLeast 0 := h.bounded.of_eq rfl rfl
  refine ⟨s', hs', ⟨h', hlocal.keys h.keys, hbounded.addWaiter hs', fun u => ?_⟩, ?_⟩
  · by_cases hu : u = t
    · subst hu
      refine .inr (.inl ⟨ht.state, ?_, ?_, .inr ht.queue, ?_, ?_, ?_⟩)
      · show s'.getLockOwner u ≠ none
        rw [howner', update_self]
        simp
      · show s'.conditionVariableTree u = none
        rw [hlocal.conditionVariableTree]
        exact hout
      · show s'.isKernelAddressKey u = false
        rw [hlocal.isKernelAddressKey]
        exact ht.kernel rfl
      · show ValidTag (s'.addressKeyValue u)
        rw [hlocal.addressKeyValue]
        exact ht.value rfl
      · show HasWaitMask ((p.signalling bal u).memory (s'.addressKey u))
        rw [hlocal.addressKey]
        exact hmemory ▸ hasWaitMask_or _
    · have hleft := unmoved_leaveTree bal p conditionVariables hu
      have hwritten : Unmoved p (p.signalling bal t) u := by
        refine hleft.trans (unmoved_writeToUser _ _ _ fun hlock heq => ?_) (h.placed u)
        exact h.hasWaitMask_signal ⟨hlock.owner, heq⟩ (p.addressKeyValue t)
      have hlast : Unmoved (p.signalling bal t) { p.signalling bal t with toState := s' } u :=
        unmoved_of_frame hlocal.toFrame (by
          rw [howner, update_of_ne hu]
          exact Iff.rfl)
      exact (hwritten.trans hlast (h.placed u)).placed (h.placed u)
  · constructor
    case address => exact hlocal.addressKey
    case value => exact hlocal.addressKeyValue
    case handles => rfl
    case key => exact hlocal.conditionVariableKey
    case tree => exact hlocal.conditionVariableTree
    case memory => rfl
    case owner => exact ho ▸ howner'
    case state => exact fun _ _ => rfl
    case result => exact fun _ _ => rfl
    case wakes => exact fun hnone => absurd (ho.symm.trans hnone) (by simp)
    case order =>
      intro P hP hreach
      refine (hlocal.tree_eq conditionVariables P fun u hu => hreach o ho u hu).trans ?_
      exact filter_leaveTree bal p.toState conditionVariables hP

theorem signalImpl_eq : { p with
      toState := (p.toState.eraseCondvar bal conditionVariables t).clearConditionVariable
        t }.signalImpl bal t =
      if p.memory (p.addressKey t) = 0 then (p.signalling bal t).endWait t .success
      else
        match p.handles (holderOf (p.memory (p.addressKey t))) with
        | some owner => ((p.signalling bal t).addWaiter bal owner t).map fun s =>
          { p.signalling bal t with toState := s }
        | none => (p.signalling bal t).endWait t .invalidState :=
  rfl

/-- `SignalImpl` of a thread that has just been taken from the tree. -/
theorem signalImpl_spec (h : p.Invariant) (ht : p.InTree t conditionVariables) : ∃ p', { p with
        toState := (p.toState.eraseCondvar bal conditionVariables t).clearConditionVariable
          t }.signalImpl bal t = some p' ∧ p'.Invariant ∧ SignalStep p p' t := by
  rw [signalImpl_eq]
  by_cases hzero : p.memory (p.addressKey t) = 0
  · have hnone : p.newOwner t = none := by rw [newOwner, if_pos hzero]
    refine ⟨_, ?_, h.wakeUp_signalling bal ht .success, signalStep_wakeUp bal hnone ?_ ht⟩
    · rw [if_pos hzero, endWait_signalling bal ht]
    · rw [if_pos hzero]
  · have howner : p.newOwner t = p.handles (holderOf (p.memory (p.addressKey t))) := by
      rw [newOwner, if_neg hzero]
    rw [if_neg hzero, ← howner]
    cases ho : p.newOwner t with
    | none =>
      refine ⟨_, endWait_signalling bal ht .invalidState,
        h.wakeUp_signalling bal ht .invalidState, signalStep_wakeUp bal ho ?_ ht⟩
      rw [if_neg hzero]
    | some o =>
      obtain ⟨s', hs', h', hstep⟩ := signalling_addWaiter_spec bal h ht ho
      exact ⟨_, by simp only [hs', map_some], h', hstep⟩

end Step

/-! ## The loop -/

section Loop

variable {p : Process T} [Fintype T] (bal : Balancing T)
variable {t : T} {c : TreeId}

theorem Invariant.length_tree (h : p.Invariant) (c : TreeId) : (p.condvarTree c).toList.length =
      (Finset.univ.filter fun t => p.conditionVariableTree t = some c).card := by
  have hcondvar := h.consistent.wellFormed.condvar
  have hset : (Finset.univ.filter fun t => p.conditionVariableTree t = some c) =
      (p.condvarTree c).toList.toFinset := by
    ext t
    simp [hcondvar.mem_iff]
  rw [hset, toFinset_card_of_nodup (hcondvar.nodup c)]

/-- A signalled thread is one less in the tree. -/
theorem SignalStep.length_tree {p' : Process T} (hstep : SignalStep p p' t)
    (h : p.Invariant) (h' : p'.Invariant) (ht : p.InTree t conditionVariables) :
    (p'.condvarTree conditionVariables).toList.length + 1 =
      (p.condvarTree conditionVariables).toList.length := by
  have hset : (Finset.univ.filter fun u => p'.conditionVariableTree u = some conditionVariables) =
      (Finset.univ.filter fun u => p.conditionVariableTree u = some conditionVariables).erase t := by
    ext u
    rw [hstep.tree]
    by_cases hu : u = t
    · simp [hu]
    · simp [hu]
  have hmem : t ∈ Finset.univ.filter fun u => p.conditionVariableTree u = some conditionVariables := by
    simp [ht.tree]
  rw [h.length_tree, h'.length_tree, hset, Finset.card_erase_add_one hmem]

omit [Fintype T] in
theorem successor_eq {before after : List T}
    (hsplit : (p.condvarTree c).toList = before ++ t :: after) (ht : t ∉ before) :
    p.successor c t = after.head? := by
  have hdrop : (p.condvarTree c).toList.dropWhile (fun u => u ≠ t) = t :: after := by
    rw [hsplit, dropWhile_append_of_pos]
    · simp
    · intro u hu
      simp only [ne_eq, decide_not, Bool.not_eq_true', decide_eq_false_iff_not]
      rintro rfl
      exact ht hu
  rw [successor, hdrop, getElem?_cons_succ, head?_eq_getElem?]

omit [DecidableEq T] [Fintype T] in
/-- Where a thread stands in its tree. -/
theorem Invariant.exists_split (h : p.Invariant) (ht : p.conditionVariableTree t = some c) :
    ∃ before after, (p.condvarTree c).toList = before ++ t :: after ∧ t ∉ before ∧ t ∉ after := by
  have hcondvar := h.consistent.wellFormed.condvar
  obtain ⟨before, after, hsplit⟩ := append_of_mem ((hcondvar.mem_iff c t).mpr ht)
  have hnodup := hcondvar.nodup c
  rw [hsplit, nodup_append] at hnodup
  obtain ⟨-, htail, hdisjoint⟩ := hnodup
  exact ⟨before, after, hsplit, fun hmem => hdisjoint t hmem t (by simp) rfl,
    (nodup_cons.mp htail).1⟩

omit [Fintype T] in
/-- The node that the iterator moves on to is another one of the tree. -/
theorem Invariant.successor_inTree (h : p.Invariant) {u : T}
    (ht : p.conditionVariableTree t = some c) (hsucc : p.successor c t = some u) :
    u ≠ t ∧ p.conditionVariableTree u = some c := by
  obtain ⟨before, after, hsplit, hbefore, hafter⟩ := h.exists_split ht
  rw [successor_eq hsplit hbefore] at hsucc
  have hu : u ∈ after := mem_of_head? hsucc
  constructor
  · rintro rfl
    exact hafter hu
  · rw [← h.consistent.wellFormed.condvar.mem_iff, hsplit]
    simp [hu]

/-- The loop of `Signal` comes to an end from any node of the tree. A thread that waits at an address
afterwards did so before, or was signalled. -/
theorem signalLoop_spec (cvKey : BitVec 64) (count : Int) (fuel : Nat) (p : Process T)
    (it : Option T) (numWaiters : Nat) (h : p.Invariant)
    (hit : ∀ t, it = some t → p.conditionVariableTree t = some conditionVariables)
    (hfuel : (p.condvarTree conditionVariables).toList.length ≤ fuel) :
    ∃ it' signalled p', signalLoop bal conditionVariables cvKey count fuel p it numWaiters =
        some (it', signalled, p') ∧ p'.Invariant ∧
      ∀ w a, p'.WaitsAt w a → p.WaitsAt w a ∨ p.conditionVariableTree w = some conditionVariables ∧
        p.conditionVariableKey w = cvKey ∧ p.addressKey w = a := by
  induction fuel generalizing p it numWaiters with
  | zero =>
    cases it with
    | none => exact ⟨none, [], p, by rw [signalLoop], h, fun w a hw => .inl hw⟩
    | some t =>
      have hmem := (h.consistent.wellFormed.condvar.mem_iff conditionVariables t).mpr (hit t rfl)
      rw [length_eq_zero_iff.mp (Nat.le_zero.mp hfuel)] at hmem
      exact absurd hmem (by simp)
  | succ fuel ih =>
    cases it with
    | none => exact ⟨none, [], p, by rw [signalLoop], h, fun w a hw => .inl hw⟩
    | some t =>
      by_cases hgo : (count ≤ 0 ∨ (numWaiters : Int) < count) ∧ p.conditionVariableKey t = cvKey
      · have ht := (h.placed t).inTree (hit t rfl)
        obtain ⟨p₁, hp₁, h₁, hstep⟩ := signalImpl_spec bal h ht
        have hlength := hstep.length_tree h h₁ ht
        obtain ⟨it', signalled, p', hp', h', hwaits⟩ :=
          ih p₁ (p.successor conditionVariables t) (numWaiters + 1) h₁ (fun u hu => by
            obtain ⟨hne, htree⟩ := h.successor_inTree (hit t rfl) hu
            rw [hstep.tree, update_of_ne hne, htree]) (by omega)
        refine ⟨it', t :: signalled, p', by simp [signalLoop, hgo, hp₁, hp'], h', ?_⟩
        intro w a hw
        rcases hwaits w a hw with ⟨howner, haddress⟩ | ⟨htree, hkey, haddress⟩
        · rw [hstep.address] at haddress
          by_cases hwt : w = t
          · exact .inr ⟨hwt ▸ ht.tree, hwt ▸ hgo.2, haddress⟩
          · rw [hstep.owner, update_of_ne hwt] at howner
            exact .inl ⟨howner, haddress⟩
        · have hwt : w ≠ t := by
            rintro rfl
            rw [hstep.tree, update_self] at htree
            exact absurd htree (by simp)
          rw [hstep.tree, update_of_ne hwt] at htree
          rw [hstep.key] at hkey
          rw [hstep.address] at haddress
          exact .inr ⟨htree, hkey, haddress⟩
      · exact ⟨some t, [], p, by rw [signalLoop, if_neg hgo], h, fun w a hw => .inl hw⟩

end Loop

/-! ## The waiters of a key -/

section Waiters

variable {p : Process T} {cvKey : BitVec 64}

/-- The threads that wait for a key, in the order of the tree. -/
def waitersOf (p : Process T) (cvKey : BitVec 64) : List T :=
  (p.condvarTree conditionVariables).toList.filter fun t => p.conditionVariableKey t = cvKey

section

omit [DecidableEq T]

theorem Invariant.mem_waitersOf (h : p.Invariant) {t : T} : t ∈ p.waitersOf cvKey ↔
      p.conditionVariableTree t = some conditionVariables ∧ p.conditionVariableKey t = cvKey := by
  simp [waitersOf, h.consistent.wellFormed.condvar.mem_iff]

theorem Invariant.nodup_waitersOf (h : p.Invariant) : (p.waitersOf cvKey).Nodup :=
  (h.consistent.wellFormed.condvar.nodup conditionVariables).filter _

/-- More urgent threads come first, and of equally urgent ones those that came first. -/
theorem Invariant.sorted_waitersOf (h : p.Invariant) :
    (p.waitersOf cvKey).Pairwise fun a b => p.priority a < p.priority b ∨
      p.priority a = p.priority b ∧ p.insertTime a < p.insertTime b := by
  have hsorted := (h.consistent.wellFormed.condvar.sorted conditionVariables).filter
    fun t => p.conditionVariableKey t = cvKey
  refine hsorted.imp_of_mem fun {a b} ha hb hab => ?_
  have hkey : p.conditionVariableKey a = p.conditionVariableKey b := by
    rw [(h.mem_waitersOf.mp ha).2, (h.mem_waitersOf.mp hb).2]
  rcases hab with hlt | ⟨heq, htime⟩
  · left
    simpa [State.condvarOrder, Prod.Lex.toLex_lt_toLex, hkey] using hlt
  · right
    simp only [State.condvarOrder, hkey, EmbeddingLike.apply_eq_iff_eq, Prod.mk.injEq] at heq
    exact ⟨heq.2, htime⟩

theorem Invariant.sorted_keys (h : p.Invariant) (c : TreeId) :
    (p.condvarTree c).toList.Pairwise fun a b =>
      (p.conditionVariableKey a).toNat ≤ (p.conditionVariableKey b).toNat :=
  (h.consistent.wellFormed.condvar.sorted c).imp fun hab => Prod.Lex.monotone_fst _ _ hab.le

/-- In a part of the tree without smaller keys the waiters of a key are at the front. -/
theorem head?_filter_key {nodes : List T} (hsorted : nodes.Pairwise fun a b =>
      (p.conditionVariableKey a).toNat ≤ (p.conditionVariableKey b).toNat)
    (hkeys : ∀ t ∈ nodes, cvKey.toNat ≤ (p.conditionVariableKey t).toNat) :
    nodes.head?.filter (fun t => p.conditionVariableKey t = cvKey) =
      (nodes.filter fun t => p.conditionVariableKey t = cvKey).head? := by
  cases nodes with
  | nil => rfl
  | cons t rest =>
    by_cases hkey : p.conditionVariableKey t = cvKey
    · simp [hkey]
    · have hnone : ∀ u ∈ rest, p.conditionVariableKey u ≠ cvKey := by
        intro u hu heq
        have hle := (pairwise_cons.mp hsorted).1 u hu
        have hge := hkeys t (by simp)
        rw [heq] at hle
        exact hkey (BitVec.eq_of_toNat_eq (le_antisymm hle hge))
      have hfilter : rest.filter (fun u => p.conditionVariableKey u = cvKey) = [] :=
        filter_eq_nil_iff.mpr fun u hu => by simpa using hnone u hu
      simp [hkey, hfilter]

/-- `nfind_key` delivers a node of the tree, and the first waiter of the key if there is one. -/
theorem Invariant.nfindKey_spec (h : p.Invariant) (cvKey : BitVec 64) :
    (∀ t, p.nfindKey conditionVariables cvKey = some t →
      p.conditionVariableTree t = some conditionVariables) ∧
    (p.nfindKey conditionVariables cvKey).filter (fun t => p.conditionVariableKey t = cvKey) =
      (p.waitersOf cvKey).head? := by
  have hcondvar := h.consistent.wellFormed.condvar
  have hsorted : (p.condvarTree conditionVariables).toList.Pairwise fun a b =>
      p.condvarOrder a ≤ p.condvarOrder b := (hcondvar.sorted conditionVariables).imp fun hab => hab.le
  obtain ⟨before, after, hsplit, hbefore, hafter⟩ :=
    SearchTree.exists_split p.condvarOrder (toLex (cvKey.toNat, -1)) hsorted
  -- nobody waits with a negative priority
  have hsmaller : ∀ t ∈ before, (p.conditionVariableKey t).toNat < cvKey.toNat := by
    intro t ht
    have hle := hbefore t ht
    have hpriority := h.bounded.priority t
    rw [State.condvarOrder, Prod.Lex.toLex_le_toLex] at hle
    rcases hle with hlt | ⟨-, hle⟩
    · exact hlt
    · omega
  have hfind : p.nfindKey conditionVariables cvKey = after.head? := by
    rw [nfindKey, SearchTree.nfind_eq hsplit (fun t ht => ?_) (fun t ht => ?_), or_none]
    · have hlt := hsmaller t ht
      rw [if_neg (by rw [BitVec.lt_def]; omega), if_neg (by rintro ⟨rfl, -⟩; omega)]
      decide
    · have hlt := hafter t ht
      rw [State.condvarOrder, Prod.Lex.toLex_lt_toLex] at hlt
      rcases hlt with hlt | ⟨heq, hlt⟩
      · rw [if_pos (by rwa [BitVec.lt_def])]
        decide
      · rw [if_neg (by rw [BitVec.lt_def]; omega), if_pos ⟨BitVec.eq_of_toNat_eq heq, hlt⟩]
        decide
  constructor
  · intro t ht
    rw [hfind] at ht
    rw [← hcondvar.mem_iff, hsplit]
    simp [mem_of_head? ht]
  · have hkeys := h.sorted_keys conditionVariables
    rw [hsplit] at hkeys
    have hnone : before.filter (fun t => p.conditionVariableKey t = cvKey) = [] := by
      refine filter_eq_nil_iff.mpr fun t ht heq => ?_
      rw [decide_eq_true_eq] at heq
      exact absurd (hsmaller t ht) (by rw [heq]; exact lt_irrefl _)
    rw [hfind, waitersOf, hsplit, filter_append, hnone, nil_append]
    refine head?_filter_key (pairwise_append.mp hkeys).2.1 fun t ht => ?_
    exact Prod.Lex.monotone_fst _ _ (le_of_lt (hafter t ht))

end

/-- Behind a waiter of a key stands the next one, or none of this key. -/
theorem Invariant.successor_filter (h : p.Invariant) {t : T} {rest : List T}
    (hwaiters : p.waitersOf cvKey = t :: rest) :
    (p.successor conditionVariables t).filter (fun u => p.conditionVariableKey u = cvKey) =
      rest.head? := by
  obtain ⟨htree, hkey⟩ := (h.mem_waitersOf (t := t)).mp (by rw [hwaiters]; simp)
  obtain ⟨before, after, hsplit, hbefore, -⟩ := h.exists_split htree
  have hsorted := h.sorted_keys conditionVariables
  rw [hsplit] at hsorted
  obtain ⟨-, hafter, -⟩ := pairwise_append.mp hsorted
  obtain ⟨hle, hafter⟩ := pairwise_cons.mp hafter
  rw [waitersOf, hsplit, filter_append, filter_cons_of_pos (by simpa using hkey)]
    at hwaiters
  have hnone : before.filter (fun u => p.conditionVariableKey u = cvKey) = [] := by
    cases hf : before.filter (fun u => p.conditionVariableKey u = cvKey) with
    | nil => rfl
    | cons u us =>
      rw [hf, cons_append, cons.injEq] at hwaiters
      have hmem : u ∈ before := (mem_filter.mp (hf ▸ mem_cons_self)).1
      exact absurd (hwaiters.1 ▸ hmem) hbefore
  rw [hnone, nil_append, cons.injEq] at hwaiters
  rw [successor_eq hsplit hbefore, ← hwaiters.2]
  exact head?_filter_key hafter fun u hu => hkey ▸ hle u hu

end Waiters

/-! ## Signals that move no waiter -/

section Undisturbed

/-- Neither `o` nor a thread that it waits for is among `waiters`. -/
def Clear (p : Process T) (waiters : List T) (o : T) : Prop :=
  ∀ u, ReflTransGen (WaitsFor p.getLockOwner) o u → u ∉ waiters

/-- The owners that the `waiters` will wait for do not wait with them: neither the owners of their
mutexes, nor the threads that their own tags name. -/
structure Undisturbed (p : Process T) (waiters : List T) : Prop where
  holder : ∀ t ∈ waiters, ∀ o, p.newOwner t = some o → p.Clear waiters o
  own : ∀ t ∈ waiters, ∀ o, p.handles (p.addressKeyValue t) = some o → o = t ∨ p.Clear waiters o

/-- A signalled thread runs and owns its mutex, or it waits for the thread that owns the mutex, or it
runs and has been told that no such thread exists. -/
structure Released (p : Process T) (t : T) : Prop where
  tag : p.memory (p.addressKey t) ≠ 0
  outcome :
    (p.threadState t = .runnable ∧ p.waitResult t = .success ∧ p.getLockOwner t = none ∧
      holderOf (p.memory (p.addressKey t)) = p.addressKeyValue t) ∨
    (∃ o, p.getLockOwner t = some o ∧ p.handles (holderOf (p.memory (p.addressKey t))) = some o) ∨
    (p.threadState t = .runnable ∧ p.waitResult t = .invalidState ∧ p.getLockOwner t = none ∧
      p.handles (holderOf (p.memory (p.addressKey t))) = none)

variable {p p' : Process T} {t : T} {rest : List T}

section

variable (hstep : SignalStep p p' t)
include hstep

/-- A tag that is not zero names the same thread after a signal. -/
theorem SignalStep.memory_of_ne_zero {address : BitVec 64} (hne : p.memory address ≠ 0) :
    p'.memory address ≠ 0 ∧ holderOf (p'.memory address) = holderOf (p.memory address) := by
  rw [hstep.memory]
  by_cases haddress : address = p.addressKey t
  · subst haddress
    rw [update_self, if_neg hne]
    exact ⟨(hasWaitMask_or _).ne_zero, holderOf_or _⟩
  · rw [update_of_ne haddress]
    exact ⟨hne, rfl⟩

theorem SignalStep.released_of_ne {d : T} (hd : d ≠ t)
    (hreleased : p.Released d) : p'.Released d := by
  obtain ⟨htag, hholder⟩ := hstep.memory_of_ne_zero hreleased.tag
  have howner : p'.getLockOwner d = p.getLockOwner d := by
    rw [hstep.owner, update_of_ne hd]
  refine ⟨by rwa [hstep.address], ?_⟩
  rw [hstep.address, hholder, hstep.state d hd, hstep.result d hd, howner, hstep.value,
    hstep.handles]
  exact hreleased.outcome

theorem SignalStep.released (ht : p.InTree t conditionVariables) : p'.Released t := by
  have hvalue := ht.value rfl
  have howner : p'.getLockOwner t = p.newOwner t := by rw [hstep.owner, update_self]
  by_cases hzero : p.memory (p.addressKey t) = 0
  · have hnone : p.newOwner t = none := by rw [newOwner, if_pos hzero]
    obtain ⟨hstate, hresult⟩ := hstep.wakes hnone
    have htag : p'.memory (p'.addressKey t) = p.addressKeyValue t := by
      rw [hstep.address, hstep.memory, update_self, if_pos hzero]
    refine ⟨htag ▸ hvalue.ne_zero, .inl ⟨hstate, ?_, howner.trans hnone, ?_⟩⟩
    · rw [hresult, if_pos hzero]
    · rw [htag, hvalue.holderOf_eq, hstep.value]
  · have hnew : p.newOwner t = p.handles (holderOf (p.memory (p.addressKey t))) := by
      rw [newOwner, if_neg hzero]
    obtain ⟨htag, hholder⟩ := hstep.memory_of_ne_zero hzero
    refine ⟨by rwa [hstep.address], .inr ?_⟩
    rw [hstep.address, hholder, hstep.handles, howner, ← hnew]
    cases ho : p.newOwner t with
    | none =>
      obtain ⟨hstate, hresult⟩ := hstep.wakes ho
      rw [if_neg hzero] at hresult
      exact .inr ⟨hstate, hresult, rfl, rfl⟩
    | some o => exact .inl ⟨o, rfl, rfl⟩

theorem SignalStep.clear {o : T} (ho : p.Clear (t :: rest) o) : p'.Clear rest o := by
  intro u hu hmem
  rw [hstep.owner] at hu
  have hout : ¬ ReflTransGen (WaitsFor p.getLockOwner) o t := fun hreach => ho t hreach (by simp)
  exact ho u (reaches_of_update hout hu) (by simp [hmem])

/-- The owner of a mutex after a signal: the signalled thread may have taken it. -/
theorem SignalStep.newOwner_eq (hvalue : ValidTag (p.addressKeyValue t)) (u : T) :
    p'.newOwner u = p.newOwner u ∨ p.newOwner t = none ∧
      p'.newOwner u = p.handles (p.addressKeyValue t) := by
  by_cases hzero : p.memory (p.addressKey u) = 0
  · by_cases haddress : p.addressKey u = p.addressKey t
    · right
      rw [haddress] at hzero
      have htag : p'.memory (p'.addressKey u) = p.addressKeyValue t := by
        rw [hstep.address, haddress, hstep.memory, update_self, if_pos hzero]
      rw [newOwner, newOwner, if_pos hzero, htag, if_neg hvalue.ne_zero, hvalue.holderOf_eq,
        hstep.handles]
      exact ⟨rfl, rfl⟩
    · left
      rw [newOwner, newOwner, hstep.address, hstep.memory, update_of_ne haddress, hstep.handles]
  · left
    obtain ⟨htag, hholder⟩ := hstep.memory_of_ne_zero hzero
    rw [newOwner, newOwner, hstep.address, if_neg htag, if_neg hzero, hholder, hstep.handles]

theorem SignalStep.undisturbed (ht : p.InTree t conditionVariables)
    (hnodup : (t :: rest).Nodup) (h : p.Undisturbed (t :: rest)) : p'.Undisturbed rest := by
  constructor
  case holder =>
    intro u hu o ho
    rcases hstep.newOwner_eq (ht.value rfl) u with hsame | ⟨hnone, htaken⟩
    · exact hstep.clear (h.holder u (by simp [hu]) o (hsame ▸ ho))
    · rcases h.own t (by simp) o (htaken ▸ ho) with rfl | hclear
      · -- the signalled thread runs, and is no waiter of this key any more
        intro v hv hmem
        have hself : p'.getLockOwner o = none := by rw [hstep.owner, update_self, hnone]
        have hne : o ≠ v := by
          rintro rfl
          exact (nodup_cons.mp hnodup).1 hmem
        exact not_reaches_of_none hself hne hv
      · exact hstep.clear hclear
  case own =>
    intro u hu o ho
    rw [hstep.handles, hstep.value] at ho
    rcases h.own u (by simp [hu]) o ho with heq | hclear
    · exact .inl heq
    · exact .inr (hstep.clear hclear)

/-- The other waiters of the key stay where they are. -/
theorem SignalStep.waitersOf_eq (h : p.Invariant) (h' : p'.Invariant)
    {cvKey : BitVec 64} (hwaiters : p.waitersOf cvKey = t :: rest)
    (hundisturbed : p.Undisturbed (t :: rest)) : p'.waitersOf cvKey = rest := by
  have hnodup : (t :: rest).Nodup := hwaiters ▸ h.nodup_waitersOf
  have hrest : (p.condvarTree conditionVariables).toList.filter (fun u => u ∈ rest) = rest := by
    have hsub : (p.condvarTree conditionVariables).toList.filter (fun u => u ∈ rest) =
        (p.waitersOf cvKey).filter fun u => u ∈ rest := by
      rw [waitersOf, List.filter_filter]
      refine filter_congr fun u _ => ?_
      have hkey : u ∈ rest → p.conditionVariableKey u = cvKey := fun hu =>
        (h.mem_waitersOf.mp (hwaiters ▸ mem_cons_of_mem t hu)).2
      simpa using hkey
    have hself : rest.filter (fun u => u ∈ rest) = rest :=
      filter_eq_self.mpr fun u hu => by simpa using hu
    rw [hsub, hwaiters, filter_cons_of_neg (by simpa using (nodup_cons.mp hnodup).1), hself]
  have horder : (p'.condvarTree conditionVariables).toList.filter (fun u => u ∈ rest) =
      (p.condvarTree conditionVariables).toList.filter fun u => u ∈ rest := by
    refine hstep.order _ (by simpa using (nodup_cons.mp hnodup).1) fun o ho u hu hreach => ?_
    have hclear := hstep.clear (hundisturbed.holder t (by simp) o ho)
    exact hclear u hreach (by simpa using hu)
  rw [← hrest, ← horder, waitersOf]
  refine filter_congr fun u hu => ?_
  have htree := (h'.consistent.wellFormed.condvar.mem_iff conditionVariables u).mp hu
  have hut : u ≠ t := by
    rintro rfl
    rw [hstep.tree, update_self] at htree
    exact absurd htree (by simp)
  rw [hstep.tree, update_of_ne hut] at htree
  have hmem : u ∈ p.waitersOf cvKey ↔ p.conditionVariableKey u = cvKey := by
    rw [h.mem_waitersOf]
    exact and_iff_right htree
  rw [hwaiters, mem_cons, or_iff_right hut] at hmem
  simp [hstep.key, hmem]

end

end Undisturbed

/-! ## The loop over undisturbed waiters -/

section Serve

/-- The threads in `signalled` have been released. -/
structure Served (p p' : Process T) (cvKey : BitVec 64) (signalled : List T) : Prop where
  address : p'.addressKey = p.addressKey
  key : p'.conditionVariableKey = p.conditionVariableKey
  tree : ∀ t, p'.conditionVariableTree t = if t ∈ signalled then none else p.conditionVariableTree t
  released : ∀ t ∈ signalled, p'.Released t
  others : ∀ t, t ∉ p.waitersOf cvKey → p.Released t → p'.Released t

variable {p : Process T} {cvKey : BitVec 64}

theorem Served.refl (p : Process T) (cvKey : BitVec 64) : Served p p cvKey [] where
  address := rfl
  key := rfl
  tree := fun t => by simp
  released := fun t ht => absurd ht (by simp)
  others := fun t _ hreleased => hreleased

theorem Served.cons {p₁ p' : Process T} {t : T} {rest signalled : List T} (h : p.Invariant)
    (hwaiters : p.waitersOf cvKey = t :: rest) (hstep : SignalStep p p₁ t)
    (hwaiters₁ : p₁.waitersOf cvKey = rest) (hserved : Served p₁ p' cvKey signalled) :
    Served p p' cvKey (t :: signalled) := by
  have hin : t ∈ p.waitersOf cvKey := by rw [hwaiters]; simp
  have hmem := h.mem_waitersOf.mp hin
  have hnodup : (t :: rest).Nodup := hwaiters ▸ h.nodup_waitersOf
  have hout : t ∉ p₁.waitersOf cvKey := hwaiters₁ ▸ (nodup_cons.mp hnodup).1
  constructor
  case address => rw [hserved.address, hstep.address]
  case key => rw [hserved.key, hstep.key]
  case tree =>
    intro u
    rw [hserved.tree, hstep.tree]
    by_cases hu : u = t
    · simp [hu]
    · simp [hu]
  case released =>
    intro u hu
    rcases mem_cons.mp hu with rfl | hu
    · exact hserved.others u hout (hstep.released ((h.placed u).inTree hmem.1))
    · exact hserved.released u hu
  case others =>
    intro u hu hreleased
    rw [hwaiters, mem_cons, not_or] at hu
    exact hserved.others u (hwaiters₁ ▸ hu.2) (hstep.released_of_ne hu.1 hreleased)

/-- How many of the waiters are signalled, when `numWaiters` already are. -/
def quota (count : Int) (numWaiters : Nat) (waiters : List T) : Nat :=
  if count ≤ 0 then waiters.length else count.toNat - numWaiters

variable [Fintype T] (bal : Balancing T)

section

omit [DecidableEq T] [Fintype T]

theorem quota_cons {count : Int} {numWaiters : Nat} (hgo : count ≤ 0 ∨ (numWaiters : Int) < count)
    (t : T) (rest : List T) :
    quota count numWaiters (t :: rest) = quota count (numWaiters + 1) rest + 1 := by
  rw [quota, quota]
  split_ifs with hcount
  · simp
  · omega

theorem quota_eq_zero {count : Int} {numWaiters : Nat}
    (hstop : ¬ (count ≤ 0 ∨ (numWaiters : Int) < count)) (waiters : List T) :
    quota count numWaiters waiters = 0 := by
  rw [not_or] at hstop
  rw [quota, if_neg hstop.1]
  omega

end

/-- The loop signals the first waiters of the key, as many as it may. -/
theorem signalLoop_undisturbed (count : Int) (fuel : Nat) (p : Process T) (it : Option T)
    (numWaiters : Nat) (waiters : List T) (h : p.Invariant)
    (htree : ∀ t, it = some t → p.conditionVariableTree t = some conditionVariables)
    (hwaiters : p.waitersOf cvKey = waiters)
    (hit : it.filter (fun t => p.conditionVariableKey t = cvKey) = waiters.head?)
    (hfuel : (p.condvarTree conditionVariables).toList.length ≤ fuel)
    (hundisturbed : p.Undisturbed waiters) :
    ∃ it' p', signalLoop bal conditionVariables cvKey count fuel p it numWaiters =
        some (it', waiters.take (quota count numWaiters waiters), p') ∧
      Served p p' cvKey (waiters.take (quota count numWaiters waiters)) := by
  induction fuel generalizing p it numWaiters waiters with
  | zero =>
    cases it with
    | none =>
      obtain rfl := head?_eq_none_iff.mp hit.symm
      exact ⟨none, p, by simp [signalLoop], by simpa using Served.refl p cvKey⟩
    | some t =>
      have hmem := (h.consistent.wellFormed.condvar.mem_iff conditionVariables t).mpr (htree t rfl)
      rw [length_eq_zero_iff.mp (Nat.le_zero.mp hfuel)] at hmem
      exact absurd hmem (by simp)
  | succ fuel ih =>
    cases it with
    | none =>
      obtain rfl := head?_eq_none_iff.mp hit.symm
      exact ⟨none, p, by simp [signalLoop], by simpa using Served.refl p cvKey⟩
    | some t =>
      by_cases hkey : p.conditionVariableKey t = cvKey
      · rw [filter_some, if_pos (by simpa using hkey)] at hit
        obtain ⟨rest, rfl⟩ : ∃ rest, waiters = t :: rest := head?_eq_some_iff.mp hit.symm
        by_cases hgo : count ≤ 0 ∨ (numWaiters : Int) < count
        · have ht := (h.placed t).inTree (htree t rfl)
          have hnodup : (t :: rest).Nodup := hwaiters ▸ h.nodup_waitersOf
          obtain ⟨p₁, hp₁, h₁, hstep⟩ := signalImpl_spec bal h ht
          have hlength := hstep.length_tree h h₁ ht
          have hwaiters₁ := hstep.waitersOf_eq h h₁ hwaiters hundisturbed
          have hsucc := h.successor_filter hwaiters
          obtain ⟨it', p', hp', hserved⟩ :=
            ih p₁ (p.successor conditionVariables t) (numWaiters + 1) rest h₁ (fun u hu => by
                obtain ⟨hne, hu⟩ := h.successor_inTree (htree t rfl) hu
                rw [hstep.tree, update_of_ne hne, hu])
              hwaiters₁ (hstep.key ▸ hsucc) (by omega) (hstep.undisturbed ht hnodup hundisturbed)
          rw [quota_cons hgo, take_succ_cons]
          refine ⟨it', p', by simp [signalLoop, hgo, hkey, hp₁, hp'], ?_⟩
          exact hserved.cons h hwaiters hstep hwaiters₁
        · rw [quota_eq_zero hgo, take_zero]
          exact ⟨some t, p, by simp [signalLoop, hgo], .refl p cvKey⟩
      · have hnone : (some t).filter (fun u => p.conditionVariableKey u = cvKey) = none := by
          simp [hkey]
        rw [hnone] at hit
        obtain rfl := head?_eq_none_iff.mp hit.symm
        exact ⟨some t, p, by simp [signalLoop, hkey], by simpa using Served.refl p cvKey⟩

variable {bal}

/-- `Signal` where no waiter of the key waits at the address of the key itself. -/
theorem signal_spec (h : p.Invariant) (cvKey : BitVec 64) (count : BitVec 32)
    (hnone : ∀ w, ¬ p.WaitsAt w cvKey)
    (haddress : ∀ t ∈ p.waitersOf cvKey, p.addressKey t ≠ cvKey) :
    ∃ signalled p', p.signal bal conditionVariables cvKey count = some (signalled, p') ∧
      p'.Invariant := by
  obtain ⟨htree, -⟩ := h.nfindKey_spec cvKey
  obtain ⟨it, signalled, p', hloop, h', hwaits⟩ := signalLoop_spec bal cvKey count.toInt
    (p.condvarTree conditionVariables).toList.length p _ 0 h htree le_rfl
  have hclear : (p'.writeToUser cvKey 0).Invariant := by
    refine h'.writeToUser fun t ht => ?_
    rcases hwaits t cvKey ht with hat | ⟨hin, hkey, haddr⟩
    · exact absurd hat (hnone t)
    · exact absurd haddr (haddress t (h.mem_waitersOf.mpr ⟨hin, hkey⟩))
  simp only [signal, hloop, bind_eq_bind, bind_some]
  cases it with
  | none => exact ⟨signalled, _, rfl, hclear⟩
  | some thread =>
    dsimp only
    split
    · exact ⟨signalled, _, rfl, hclear⟩
    · exact ⟨signalled, _, rfl, h'⟩

/-- The waiters that `Signal` is for: all of the key where `count` is not positive. -/
def firstWaiters (p : Process T) (cvKey : BitVec 64) (count : BitVec 32) : List T :=
  if count.toInt ≤ 0 then p.waitersOf cvKey else (p.waitersOf cvKey).take count.toInt.toNat

/-- A signal to waiters that it does not move. -/
theorem signal_undisturbed (h : p.Invariant) (cvKey : BitVec 64) (count : BitVec 32)
    (haddress : ∀ t ∈ p.waitersOf cvKey, p.addressKey t ≠ cvKey)
    (hundisturbed : p.Undisturbed (p.waitersOf cvKey)) :
    ∃ p', p.signal bal conditionVariables cvKey count = some (p.firstWaiters cvKey count, p') ∧
      (∀ t, p'.conditionVariableTree t =
        if t ∈ p.firstWaiters cvKey count then none else p.conditionVariableTree t) ∧
      ∀ t ∈ p.firstWaiters cvKey count, p'.Released t := by
  obtain ⟨htree, hit⟩ := h.nfindKey_spec cvKey
  obtain ⟨it, p', hloop, hserved⟩ := signalLoop_undisturbed bal count.toInt
    (p.condvarTree conditionVariables).toList.length p _ 0 (p.waitersOf cvKey) h htree rfl hit
    le_rfl hundisturbed
  have hfirst : (p.waitersOf cvKey).take (quota count.toInt 0 (p.waitersOf cvKey)) =
      p.firstWaiters cvKey count := by
    rw [quota, firstWaiters]
    split_ifs
    · exact take_length
    · rw [Nat.sub_zero]
  rw [hfirst] at hloop hserved
  have hsub : ∀ t ∈ p.firstWaiters cvKey count, t ∈ p.waitersOf cvKey := by
    intro t ht
    rw [← hfirst] at ht
    exact mem_of_mem_take ht
  -- the word of the key is not the word of a mutex
  have hclear : ∀ t ∈ p.firstWaiters cvKey count, (p'.writeToUser cvKey 0).Released t := by
    intro t ht
    have hne : p'.addressKey t ≠ cvKey := hserved.address ▸ haddress t (hsub t ht)
    have hword : (p'.writeToUser cvKey 0).memory (p'.addressKey t) = p'.memory (p'.addressKey t) := by
      rw [memory_writeToUser, update_of_ne hne]
    obtain ⟨htag, houtcome⟩ := hserved.released t ht
    exact ⟨hword ▸ htag, hword ▸ houtcome⟩
  simp only [signal, hloop, bind_eq_bind, bind_some]
  cases it with
  | none => exact ⟨_, rfl, hserved.tree, hclear⟩
  | some thread =>
    dsimp only
    split
    · exact ⟨_, rfl, hserved.tree, hclear⟩
    · exact ⟨_, rfl, hserved.tree, hserved.released⟩

end Serve

end Process

end Sudachi.Kernel.ThreadLocks
