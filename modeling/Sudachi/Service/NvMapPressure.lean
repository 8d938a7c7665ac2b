import Sudachi.Common.FlatAllocator
import Sudachi.Service.NvMapRuns

/-!
# Pinning under pressure

The loop of `PinHandle` with the allocator of the SMMU that answers it. A round without space is to
unmap the handle at the front of the unmap queue. It does so only where the handle that is to be
pinned has an address, and not where the one at the front has (`served_iff`). No handle that comes
to the loop has an address yet, so that the loop unmaps nothing (`throughout_notServed`).
-/

set_option autoImplicit false

namespace Sudachi.Service.Nvdrv

open List

open Sudachi.Common (FlatAllocator)
open Sudachi.Foundations.Runs NvMap

def bigPageSize : Nat := pageSize * 16

/-- What `UnmapHandle` gives back to the allocator of the SMMU. -/
def Handle.release (h : Handle) (a : FlatAllocator) : Except Common.Fault FlatAllocator :=
  if h.inHeap then .ok a else a.free h.dAddress (alignUp64 h.alignedSize bigPageSize)

/-- The handles, and the allocator of the SMMU. -/
abbrev Pressed : Type := NvMap × FlatAllocator

/-- What a round of the loop comes to. -/
inductive Round where
  | allocated (address : Nat)
  | again (s : Pressed)
  | emptyQueue
  | fault (fault : Common.Fault)

/-- A round of the loop of `PinHandle` that asks for an address. -/
def Pressed.round (c : Sessions) (o size : Nat) (s : Pressed) : Round :=
  match s.2.allocate size with
  | .error fault => .fault fault
  | .ok (address, a) =>
    if address ≠ 0 then .allocated address
    else
      match s.1.unmapQueue with
      | [] => .emptyQueue
      | freeHandle :: _ =>
        if (s.1.object o).dAddress ≠ 0 then
          match (s.1.object freeHandle).release a with
          | .error fault => .fault fault
          | .ok a => .again (s.1.unmapHandle c freeHandle, a)
        else .again (s.1, a)

/-- The loop comes to an address, and each round before that unmaps a handle of the queue. -/
inductive Served (c : Sessions) (o size : Nat) : Pressed → Nat → Prop
  | allocated {s address} : s.round c o size = .allocated address → Served c o size s 0
  | unmapped {s s' freeHandle k} : s.round c o size = .again s' →
      s.1.unmapQueue = freeHandle :: s'.1.unmapQueue → s'.1 = s.1.unmapHandle c freeHandle →
      Served c o size s' k → Served c o size s (k + 1)

/-- What the loop is to come to. -/
def ServedInTime (c : Sessions) (o size : Nat) (s : Pressed) : Prop :=
  ∃ k ≤ s.1.unmapQueue.length, Served c o size s k

/-! ## The condition -/

def HasSpace (a : FlatAllocator) (size : Nat) : Prop :=
  ∃ address a', a.allocate size = .ok (address, a') ∧ address ≠ 0

def Full (a a' : FlatAllocator) (size : Nat) : Prop := a.allocate size = .ok (0, a')

/-- There is space once the allocator has got back the ranges of the first handles of a queue. -/
def HasSpaceBehind (m : NvMap) (size : Nat) : List Nat → FlatAllocator → Prop
  | [], a => HasSpace a size
  | freeHandle :: queue, a => HasSpace a size ∨
      ∃ a' a'', Full a a' size ∧ (m.object freeHandle).release a' = .ok a'' ∧
        HasSpaceBehind m size queue a''

/-- The handles of the queue have their entries there. -/
structure Queued (m : NvMap) : Prop where
  entry : ∀ o ∈ m.unmapQueue, (m.object o).unmapQueueEntry = true
  nodup : m.unmapQueue.Nodup

/-! ## Unmapping a handle of the queue -/

variable {c : Sessions} {m : NvMap} {s s' : Pressed} {a a' : FlatAllocator}
variable {o o' size k freeHandle address : Nat} {queue : List Nat}

theorem unmapHandle_object_of_ne (hne : o' ≠ o) : (m.unmapHandle c o).object o' = m.object o' := by
  have hdequeue : (m.dequeue o).object o' = m.object o' := by
    rw [dequeue]
    split
    next => exact Function.update_of_ne hne _ _
    next => rfl
  have hlow : ((m.dequeue o).unmapLowArea o).object o' = (m.dequeue o).object o' := by
    rw [unmapLowArea]
    split
    next => exact Function.update_of_ne hne _ _
    next => rfl
  rw [unmapHandle, ← hdequeue, ← hlow, unmapSmmu]
  split
  next =>
    split
    next => exact Function.update_of_ne hne _ _
    next => rfl
  next => exact Function.update_of_ne hne _ _

theorem unmapHandle_unmapQueue (hentry : (m.object o).unmapQueueEntry = true) :
    (m.unmapHandle c o).unmapQueue = m.unmapQueue.erase o := by
  have hlow : ((m.dequeue o).unmapLowArea o).unmapQueue = (m.dequeue o).unmapQueue := by
    rw [unmapLowArea]
    split
    next => rfl
    next => rfl
  have hdequeue : (m.dequeue o).unmapQueue = m.unmapQueue.erase o := by
    rw [dequeue, if_pos hentry]
  rw [unmapHandle, ← hdequeue, ← hlow, unmapSmmu]
  split
  next =>
    split
    next => rfl
    next => rfl
  next => rfl

/-- A handle at the front of the queue is unmapped: the other ones keep their places. -/
theorem Queued.unmapHandle (hq : Queued m) (hqueue : m.unmapQueue = freeHandle :: queue) :
    Queued (m.unmapHandle c freeHandle) ∧ (m.unmapHandle c freeHandle).unmapQueue = queue ∧
      ∀ o ∈ queue, (m.unmapHandle c freeHandle).object o = m.object o := by
  obtain ⟨hfront, hnodup⟩ := nodup_cons.mp (hqueue ▸ hq.nodup)
  have hentry : (m.object freeHandle).unmapQueueEntry = true := hq.entry _ (hqueue ▸ mem_cons_self)
  have hrest : (m.unmapHandle c freeHandle).unmapQueue = queue := by
    rw [unmapHandle_unmapQueue hentry, hqueue, erase_cons_head]
  have hobject (o) (ho : o ∈ queue) : (m.unmapHandle c freeHandle).object o = m.object o :=
    unmapHandle_object_of_ne fun h => hfront (h ▸ ho)
  refine ⟨⟨fun o ho => ?_, hrest ▸ hnodup⟩, hrest, hobject⟩
  rw [hrest] at ho
  rw [hobject o ho]
  exact hq.entry o (hqueue ▸ mem_cons_of_mem _ ho)

/-! ## The rounds -/

theorem round_of_hasSpace (h : HasSpace s.2 size) :
    ∃ address, s.round c o size = .allocated address := by
  obtain ⟨address, a', hallocate, hne⟩ := h
  exact ⟨address, by simp [Pressed.round, hallocate, hne]⟩

/-- A round without space unmaps a handle, if the one that is to be pinned has an address. -/
theorem round_of_full (hfull : Full s.2 a' size) (hqueue : s.1.unmapQueue = freeHandle :: queue) :
    s.round c o size =
      if (s.1.object o).dAddress ≠ 0 then
        match (s.1.object freeHandle).release a' with
        | .error fault => .fault fault
        | .ok a'' => .again (s.1.unmapHandle c freeHandle, a'')
      else .again (s.1, a') := by
  rw [Full] at hfull
  simp [Pressed.round, hfull, hqueue]

theorem hasSpace_or_full (hfault : ∀ fault, s.round c o size ≠ .fault fault)
    (hempty : s.round c o size ≠ .emptyQueue) : HasSpace s.2 size ∨
      ∃ freeHandle queue a', s.1.unmapQueue = freeHandle :: queue ∧ Full s.2 a' size := by
  cases hallocate : s.2.allocate size with
  | error fault => exact absurd (by simp [Pressed.round, hallocate]) (hfault fault)
  | ok result =>
    obtain ⟨answer, a'⟩ := result
    by_cases hne : answer ≠ 0
    · exact .inl ⟨answer, a', hallocate, hne⟩
    · obtain rfl := not_not.mp hne
      cases hqueue : s.1.unmapQueue with
      | nil => exact absurd (by simp [Pressed.round, hallocate, hqueue]) hempty
      | cons freeHandle queue => exact .inr ⟨freeHandle, queue, a', rfl, hallocate⟩

/-- A round with an address to show for it had space. -/
theorem hasSpace_of_allocated (h : s.round c o size = .allocated address) : HasSpace s.2 size := by
  refine (hasSpace_or_full (c := c) (o := o) (by simp [h]) (by simp [h])).resolve_right ?_
  rintro ⟨freeHandle, queue, a', hqueue, hfull⟩
  rw [round_of_full hfull hqueue] at h
  split at h
  next => split at h <;> cases h
  next => cases h

/-- A round that is not the last one had no space, and has unmapped a handle or nothing. -/
theorem full_of_again (h : s.round c o size = .again s') :
    ∃ freeHandle queue a', s.1.unmapQueue = freeHandle :: queue ∧ Full s.2 a' size ∧
      if (s.1.object o).dAddress ≠ 0 then
        ∃ a'', (s.1.object freeHandle).release a' = .ok a'' ∧
          s' = (s.1.unmapHandle c freeHandle, a'')
      else s' = (s.1, a') := by
  rcases @hasSpace_or_full c s o size (by simp [h]) (by simp [h]) with
    hspace | ⟨freeHandle, queue, a', hqueue, hfull⟩
  · obtain ⟨address, hallocated⟩ := round_of_hasSpace (c := c) (o := o) hspace
    cases hallocated.symm.trans h
  · refine ⟨freeHandle, queue, a', hqueue, hfull, ?_⟩
    rw [round_of_full hfull hqueue] at h
    split at h
    next hd =>
      rw [if_pos hd]
      split at h
      next => cases h
      next a'' hrelease => exact ⟨a'', hrelease, (Round.again.inj h).symm⟩
    next hd =>
      rw [if_neg hd]
      exact (Round.again.inj h).symm

/-- Without an address of the handle that is to be pinned no round unmaps anything. -/
theorem dAddress_ne_zero_of_served (hfull : Full s.2 a' size) (h : Served c o size s k) :
    (s.1.object o).dAddress ≠ 0 := by
  intro hd
  cases h with
  | allocated hallocated =>
    obtain ⟨address, a'', hallocate, hne⟩ := hasSpace_of_allocated hallocated
    cases hfull.symm.trans hallocate
    exact hne rfl
  | unmapped hagain hqueue _ _ =>
    obtain ⟨_, _, a'', _, _, hs'⟩ := full_of_again hagain
    rw [if_neg (not_not.mpr hd)] at hs'
    rw [hs'] at hqueue
    exact cons_ne_self _ _ hqueue.symm

/-! ## The condition is exact -/

/-- The condition looks at the handles of the queue only. -/
theorem HasSpaceBehind.congr {m' : NvMap} (h : HasSpaceBehind m size queue a)
    (hobject : ∀ f ∈ queue, m'.object f = m.object f) : HasSpaceBehind m' size queue a := by
  induction queue generalizing a with
  | nil => exact h
  | cons f queue ih =>
    refine h.imp_right fun ⟨a', a'', hfull, hrelease, hrest⟩ => ⟨a', a'', hfull, ?_, ?_⟩
    · rw [hobject f mem_cons_self]
      exact hrelease
    · exact ih hrest fun f' hf' => hobject f' (mem_cons_of_mem _ hf')

theorem hasSpaceBehind_of_served (hq : Queued s.1) (h : Served c o size s k) :
    HasSpaceBehind s.1 size s.1.unmapQueue s.2 := by
  induction h with
  | @allocated s address hallocated =>
    have hspace := hasSpace_of_allocated hallocated
    cases s.1.unmapQueue with
    | nil => exact hspace
    | cons freeHandle queue => exact .inl hspace
  | @unmapped s s' freeHandle k hagain hqueue hs' _ ih =>
    obtain ⟨hq', hrest, hobject⟩ := hq.unmapHandle (c := c) hqueue
    obtain ⟨f, queue, a', hqueue', hfull, hnext⟩ := full_of_again hagain
    obtain ⟨rfl, -⟩ := cons.inj (hqueue.symm.trans hqueue')
    split at hnext
    next =>
      obtain ⟨a'', hrelease, rfl⟩ := hnext
      rw [hqueue]
      refine .inr ⟨a', a'', hfull, hrelease, ?_⟩
      exact (ih hq').congr fun o ho => (hobject o ho).symm
    next =>
      rw [hnext] at hqueue
      exact absurd hqueue.symm (cons_ne_self _ _)

theorem servedInTime_of_hasSpaceBehind (hq : Queued s.1) (ho : o ∉ s.1.unmapQueue)
    (hd : (s.1.object o).dAddress ≠ 0) (h : HasSpaceBehind s.1 size s.1.unmapQueue s.2) :
    ServedInTime c o size s := by
  induction hqueue : s.1.unmapQueue generalizing s with
  | nil =>
    rw [hqueue] at h
    obtain ⟨address, hallocated⟩ := round_of_hasSpace (c := c) (o := o) h
    exact ⟨0, Nat.zero_le _, .allocated hallocated⟩
  | cons freeHandle queue ih =>
    rw [hqueue] at h ho
    rcases h with hspace | ⟨a', a'', hfull, hrelease, hbehind⟩
    · obtain ⟨address, hallocated⟩ := round_of_hasSpace (c := c) (o := o) hspace
      exact ⟨0, Nat.zero_le _, .allocated hallocated⟩
    · obtain ⟨hne, hout⟩ := not_or.mp fun h => ho (mem_cons.mpr h)
      obtain ⟨hq', hrest, hobject⟩ := hq.unmapHandle (c := c) hqueue
      have hround : s.round c o size = .again (s.1.unmapHandle c freeHandle, a'') := by
        rw [round_of_full hfull hqueue, if_pos hd, hrelease]
      obtain ⟨k, hk, hserved⟩ := ih (s := (s.1.unmapHandle c freeHandle, a'')) hq'
        (by rwa [hrest]) (by rwa [unmapHandle_object_of_ne hne])
        (by rw [hrest]; exact hbehind.congr hobject) hrest
      refine ⟨k + 1, ?_, .unmapped hround (hqueue.trans ?_) rfl hserved⟩
      · rw [hqueue, length_cons]
        exact Nat.succ_le_succ (hrest ▸ hk)
      · rw [hrest]

/-- A request that cannot be served at first is served, with one handle of the queue unmapped in
each round, exactly when the handle that is to be pinned has an address, and the ranges of the first
handles of the queue make space for it. -/
theorem servedInTime_iff (hq : Queued m) (ho : (m.object o).unmapQueueEntry = false)
    (hfull : Full a a' size) : ServedInTime c o size (m, a) ↔
      (m.object o).dAddress ≠ 0 ∧ HasSpaceBehind m size m.unmapQueue a := by
  constructor
  · rintro ⟨k, -, hserved⟩
    exact ⟨dAddress_ne_zero_of_served hfull hserved, hasSpaceBehind_of_served hq hserved⟩
  · rintro ⟨hd, hspace⟩
    refine servedInTime_of_hasSpaceBehind hq (fun hmem => ?_) hd hspace
    exact Bool.false_ne_true (ho.symm.trans (hq.entry o hmem))

/-- The rounds are those of the loop with the answers of the allocator. -/
theorem Served.allocateSmmu (h : Served c o size s k) : ∃ answers m', answers.length = k + 1 ∧
    ∃ address, allocateSmmu c o s.1 answers = .ok (address, m') := by
  induction h with
  | @allocated s address hallocated =>
    obtain ⟨answer, -, -, hne⟩ := hasSpace_of_allocated hallocated
    exact ⟨[answer], s.1, rfl, answer, if_pos hne⟩
  | @unmapped s s' freeHandle k hagain hqueue hs' _ ih =>
    obtain ⟨answers, m', hlength, address, hrest⟩ := ih
    obtain ⟨_, _, a', _, _, hnext⟩ := full_of_again hagain
    refine ⟨0 :: answers, m', congrArg (· + 1) hlength, address, ?_⟩
    rw [NvMap.allocateSmmu, if_neg (not_not.mpr rfl), hqueue]
    split at hnext
    next hd =>
      simp only [if_pos hd, ← hs']
      exact hrest
    next =>
      rw [hnext] at hqueue
      exact absurd hqueue.symm (cons_ne_self _ _)

/-! ## The states that the loop starts in -/

theorem not_answered_replicate (n : Nat) : ¬Answered m (replicate n 0) address := by
  induction n with
  | zero => exact id
  | succ n ih =>
    rw [replicate_succ, Answered, if_neg (not_not.mpr rfl)]
    exact fun h => ih h.2

/-- A handle that is not pinned and has no entry in the queue has no address, so that no request is
served that is not served at first: with an allocator that goes on to have no space, no number of
rounds is enough. -/
theorem Books.not_served (hb : Books m) (hpins : (m.object o).pins = 0)
    (ho : (m.object o).unmapQueueEntry = false) :
    (∀ a a', Full a a' size → ¬ServedInTime c o size (m, a)) ∧
      ∀ n, ∃ fault, allocateSmmu c o m (replicate n 0) = .error fault := by
  have hc := hb.counted o
  have hd : (m.object o).dAddress = 0 := by
    by_contra hd
    exact Bool.false_ne_true (ho.symm.trans (hc.entry.mpr (hc.queue.mpr ⟨hpins, hd⟩)))
  exact ⟨fun a a' hfull ⟨k, _, hserved⟩ => dAddress_ne_zero_of_served hfull hserved hd,
    fun n => allocateSmmu_of_not_answered hd fun _ => not_answered_replicate n⟩

/-- The allocation of no handle that is pinned anew ends once the allocator has no space. -/
def NotServed (c : Sessions) (s : Traced) : Prop :=
  ∀ o size, (s.map.object o).pins = 0 → (s.map.object o).unmapQueueEntry = false →
    (∀ a a', Full a a' size → ¬ServedInTime c o size (s.map, a)) ∧
      ∀ n, ∃ fault, allocateSmmu c o s.map (replicate n 0) = .error fault

/-- A handle that has been pinned and unpinned, and another one. -/
def waiting : NvMap :=
  ([.createHandle 0x1000, .alloc 4 ⟨⟨false, false⟩, 0, 0, 0x10000, 0⟩,
    .pinHandle 4 false [0x1000] 0, .unpinHandle 4, .createHandle 0x1000,
    .alloc 8 ⟨⟨false, false⟩, 0, 0, 0x20000, 0⟩].foldl (step noAreas) Traced.initial).map

def fullAllocator : FlatAllocator where
  blocks := [⟨0, false, ()⟩, ⟨0x1000, true, ()⟩, ⟨2 ^ 34 - 1, false, ()⟩]
  vaLimit := 2 ^ 34 - 1
  vaBits := 64
  vaLimit_lt := by decide
  virtStart := 0x1000
  currentLinearAllocEnd := 2 ^ 34 - 1

/-- The handle in the queue is not unmapped for the other one. -/
theorem not_servedInTime_waiting : waiting.unmapQueue = [0] ∧
    Full fullAllocator fullAllocator bigPageSize ∧
    ¬ServedInTime noAreas 1 bigPageSize (waiting, fullAllocator) := by
  refine ⟨rfl, rfl, ?_⟩
  rintro ⟨k, -, hserved⟩
  have hfull : Full fullAllocator fullAllocator bigPageSize := rfl
  exact dAddress_ne_zero_of_served hfull hserved rfl

theorem queued_waiting : Queued waiting where
  entry o ho := by
    obtain rfl := mem_singleton.mp ho
    rfl
  nodup := nodup_singleton 0

theorem servedInTime_iff_waiting :
    ServedInTime noAreas 1 bigPageSize (waiting, fullAllocator) ↔ (waiting.object 1).dAddress ≠ 0 ∧
        HasSpaceBehind waiting bigPageSize waiting.unmapQueue fullAllocator :=
  servedInTime_iff queued_waiting rfl (show Full fullAllocator fullAllocator bigPageSize from rfl)

end Sudachi.Service.Nvdrv
