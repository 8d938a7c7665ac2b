import Sudachi.Service.NvMapBooks

/-!
# Pinning a handle

The ways through `PinHandle`. A handle that is pinned or in the unmap queue has its address; one
that is not mapped gets a place in the heap of its session or asks the SMMU for one. As long as the
SMMU has none, the loop that is to unmap the handles of the queue looks at the address of the handle
that is to be pinned, which is none, and unmaps nothing (`allocateSmmu_of_not_answered`).
-/

set_option autoImplicit false

namespace Sudachi.Service.Nvdrv

open Sudachi.Foundations Sudachi.Foundations.Runs NvMap Function

variable {c : Sessions} {m m' : NvMap} {s : Traced} {o o' id address : Nat} {h : Handle}

/-! ## Counting the pin -/

section CountPin

variable {lowAreaPin : Bool} {lowAnswer : Nat}

theorem mapLowArea_object_self : (m.mapLowArea o lowAnswer).object o = { m.object o with
      pinVirtAddress :=
        if (m.object o).pinVirtAddress = 0 then lowAnswer else (m.object o).pinVirtAddress } := by
  rw [mapLowArea]
  by_cases hzero : (m.object o).pinVirtAddress = 0
  · simp only [if_pos hzero, update_self]
  · simp only [if_neg hzero]

theorem mapLowArea_object_of_ne (hne : o' ≠ o) :
    (m.mapLowArea o lowAnswer).object o' = m.object o' := by
  rw [mapLowArea]
  split
  next => exact update_of_ne hne _ _
  next => rfl

theorem mapLowArea_frame : (m.mapLowArea o lowAnswer).unmapQueue = m.unmapQueue ∧
    (m.mapLowArea o lowAnswer).handles = m.handles ∧
    (m.mapLowArea o lowAnswer).created = m.created := by
  rw [mapLowArea]
  split
  next => exact ⟨rfl, rfl, rfl⟩
  next => exact ⟨rfl, rfl, rfl⟩

theorem countPin_object_self : (m.countPin o lowAreaPin lowAnswer).2.object o = { m.object o with
      pins := (m.object o).pins + 1
      pinVirtAddress :=
        if lowAreaPin = true ∧ (m.object o).pinVirtAddress = 0 then lowAnswer
        else (m.object o).pinVirtAddress } := by
  cases lowAreaPin with
  | false => simp [countPin]
  | true => simp [countPin, mapLowArea_object_self]

theorem countPin_object_of_ne (hne : o' ≠ o) :
    (m.countPin o lowAreaPin lowAnswer).2.object o' = m.object o' := by
  cases lowAreaPin with
  | false => exact setObject_object_of_ne hne
  | true => exact (setObject_object_of_ne hne).trans (mapLowArea_object_of_ne hne)

theorem countPin_frame : (m.countPin o lowAreaPin lowAnswer).2.unmapQueue = m.unmapQueue ∧
    (m.countPin o lowAreaPin lowAnswer).2.handles = m.handles ∧
    (m.countPin o lowAreaPin lowAnswer).2.created = m.created := by
  cases lowAreaPin with
  | false => exact ⟨rfl, rfl, rfl⟩
  | true => exact mapLowArea_frame

theorem countPin_fst : (m.countPin o lowAreaPin lowAnswer).1 =
    if lowAreaPin then ((m.countPin o lowAreaPin lowAnswer).2.object o).pinVirtAddress
    else ((m.countPin o lowAreaPin lowAnswer).2.object o).dAddress := rfl

section

variable (hm : Mappings c m) (ho : o < m.created) (hd : (m.object o).dAddress ≠ 0)
  (hlow : lowAreaPin = true → (m.object o).pinVirtAddress = 0 → lowAnswer ≠ 0 ∧ ∀ x < (m.object o).alignedSize, m.gmmu (lowAnswer + x) = none)
include hm ho hd hlow

theorem countPin_mappings : Mappings c (m.countPin o lowAreaPin lowAnswer).2 := by
  cases lowAreaPin with
  | false =>
    exact hm.of_sameExtent rfl rfl ho rfl rfl rfl ⟨rfl, rfl, rfl, rfl, rfl, rfl⟩
  | true =>
    have hmapped := hm.mapLowArea ho hd fun hzero => (hlow rfl hzero).2
    have ho' : o < (m.mapLowArea o lowAnswer).created := by
      rw [mapLowArea_frame.2.2]
      exact ho
    exact hmapped.of_sameExtent rfl rfl ho' rfl rfl rfl ⟨rfl, rfl, rfl, rfl, rfl, rfl⟩

/-- A pin of a handle that is mapped returns an address at which it is. -/
theorem countPin_live :
    if lowAreaPin then
      LowLiveAt c (m.countPin o lowAreaPin lowAnswer).2
        ((m.countPin o lowAreaPin lowAnswer).2.object o) (m.countPin o lowAreaPin lowAnswer).1
    else
      LiveAt c (m.countPin o lowAreaPin lowAnswer).2
        ((m.countPin o lowAreaPin lowAnswer).2.object o) (m.countPin o lowAreaPin lowAnswer).1 := by
  have hmapped := countPin_mappings hm ho hd hlow
  have hself := @countPin_object_self m o lowAreaPin lowAnswer
  rw [countPin_fst]
  cases lowAreaPin with
  | false => exact hmapped.liveAt (by rw [hself]; exact hd)
  | true =>
    refine hmapped.lowLiveAt ?_
    rw [hself]
    by_cases hzero : (m.object o).pinVirtAddress = 0
    · simpa [hzero] using (hlow rfl hzero).1
    · simp [hzero]

end

end CountPin

/-! ## Mapping the handle -/

/-- The handle is mapped and in no queue, and the rest is as before: what the ways through
`PinHandle` come to before the pin is counted. -/
structure Ready (m m' : NvMap) (o : Nat) : Prop where
  object : ∀ o' ≠ o, m'.object o' = m.object o'
  queue : ∀ o' ≠ o, o' ∈ m'.unmapQueue ↔ o' ∈ m.unmapQueue
  nodup : m'.unmapQueue.Nodup
  notQueued : o ∉ m'.unmapQueue
  handles : m'.handles = m.handles
  created : m'.created = m.created
  gmmu : m'.gmmu = m.gmmu
  self : ∃ address inHeap, address ≠ 0 ∧ m'.object o =
    { m.object o with unmapQueueEntry := false, dAddress := address, inHeap := inHeap }

variable {answers : List Nat}

/-- The queue entry of a handle that is taken out. -/
theorem dequeue_spec (hc : Counted m o) : (m.dequeue o).unmapQueue = m.unmapQueue.erase o ∧
    (m.dequeue o).object = update m.object o { m.object o with unmapQueueEntry := false } ∧
    (m.dequeue o).handles = m.handles ∧ (m.dequeue o).created = m.created ∧
    (m.dequeue o).device = m.device ∧ (m.dequeue o).gmmu = m.gmmu ∧
    (m.dequeue o).heap = m.heap := by
  rw [dequeue]
  split
  next => exact ⟨rfl, rfl, rfl, rfl, rfl, rfl, rfl⟩
  next hentry =>
    have hout : o ∉ m.unmapQueue := fun hmem => hentry (hc.entry.mpr hmem)
    have hself : { m.object o with unmapQueueEntry := false } = m.object o := by
      rw [← Bool.eq_false_iff.mpr hentry]
    exact ⟨(List.erase_of_not_mem hout).symm, by rw [hself, update_eq_self], rfl, rfl, rfl,
      rfl, rfl⟩

/-- Whatever the allocator answers first, nothing is unmapped for a handle without an address. -/
theorem allocateSmmu_of_answered (hd : (m.object o).dAddress = 0)
    (hanswered : Answered m answers address) :
    allocateSmmu c o m answers = .ok (address, m) ∧ address ≠ 0 := by
  induction answers with
  | nil => exact hanswered.elim
  | cons answer answers ih =>
    rw [Answered] at hanswered
    rw [allocateSmmu]
    split at hanswered
    next hanswer =>
      subst hanswered
      exact ⟨if_pos hanswer, hanswer⟩
    next hzero =>
      obtain ⟨hqueue, hrest⟩ := hanswered
      rw [if_neg hzero]
      cases hfront : m.unmapQueue with
      | nil => exact absurd hfront hqueue
      | cons freeHandle others =>
        simp only [hd, ne_eq, not_true_eq_false, if_false]
        exact ih hrest

/-- As long as the allocator has no space, the loop unmaps nothing and does not end, whatever the
queue holds. -/
theorem allocateSmmu_of_not_answered (hd : (m.object o).dAddress = 0)
    (hanswered : ∀ address, ¬Answered m answers address) :
    ∃ fault, allocateSmmu c o m answers = .error fault := by
  induction answers with
  | nil => exact ⟨.unfinished, rfl⟩
  | cons answer answers ih =>
    rw [allocateSmmu]
    by_cases hanswer : answer ≠ 0
    · exact absurd (by rw [Answered, if_pos hanswer]) (hanswered answer)
    · rw [if_neg hanswer]
      cases hfront : m.unmapQueue with
      | nil => exact ⟨.emptyQueue, rfl⟩
      | cons freeHandle others =>
        simp only [hd, ne_eq, not_true_eq_false, if_false]
        refine ih fun address hrest => hanswered address ?_
        rw [Answered, if_neg hanswer]
        exact ⟨by rw [hfront]; exact List.cons_ne_nil _ _, hrest⟩

/-- A handle that is mapped already is ready once it is out of the queue. -/
theorem Ready.dequeue (hb : Books m) (hd : (m.object o).dAddress ≠ 0) :
    Ready m (m.dequeue o) o := by
  obtain ⟨hqueue, hobject, hhandles, hcreated, _, hgmmu, _⟩ := dequeue_spec (hb.counted o)
  refine ⟨fun o' hne => ?_, fun o' hne => ?_, ?_, ?_, hhandles, hcreated, hgmmu,
    (m.object o).dAddress, (m.object o).inHeap, hd, ?_⟩
  · rw [hobject, update_of_ne hne]
  · rw [hqueue]
    exact List.mem_erase_of_ne hne
  · rw [hqueue]
    exact hb.nodup.erase o
  · rw [hqueue]
    exact hb.nodup.not_mem_erase
  · rw [hobject, update_self]

theorem dequeue_mappings (hm : Mappings c m) (hc : Counted m o) (ho : o < m.created) :
    Mappings c (m.dequeue o) := by
  obtain ⟨_, hobject, _, hcreated, hdevice, hgmmu, hheap⟩ := dequeue_spec hc
  exact hm.of_sameExtent hobject hcreated ho hdevice hgmmu hheap ⟨rfl, rfl, rfl, rfl, rfl, rfl⟩

/-- A handle that is not mapped gets a place in the address space of the device. -/
theorem mapSmmu_spec (hm : Mappings c m) (hb : Books m) (ho : o < m.created)
    (hd : (m.object o).dAddress = 0) (hmappable : Mappable c m (m.object o) answers) :
    ∃ m', m.mapSmmu c o answers = .ok m' ∧ Mappings c m' ∧ Ready m m' o := by
  have hc := hb.counted o
  have hnotQueued : o ∉ m.unmapQueue := by
    rw [hc.queue]
    exact fun hqueued => hqueued.2 hd
  have hentry : (m.object o).unmapQueueEntry = false := by
    rw [← Bool.not_eq_true, hc.entry]
    exact hnotQueued
  have hready (m' : NvMap) (address' : Nat) (inHeap : Bool) (haddress : address' ≠ 0)
      (hqueue : m'.unmapQueue = m.unmapQueue) (hhandles : m'.handles = m.handles)
      (hcreated : m'.created = m.created) (hgmmu : m'.gmmu = m.gmmu)
      (hobject : m'.object = update m.object o
        { m.object o with dAddress := address', inHeap := inHeap }) : Ready m m' o := by
    refine ⟨fun o' hne => ?_, fun o' _ => by rw [hqueue], by rw [hqueue]; exact hb.nodup,
      by rw [hqueue]; exact hnotQueued, hhandles, hcreated, hgmmu, address', inHeap, haddress, ?_⟩
    · rw [hobject, update_of_ne hne]
    · rw [hobject, update_self, ← hentry]
  rw [Mappable] at hmappable
  rw [mapSmmu]
  cases harea : (c.get (m.object o).sessionId).area.filter
      fun a => a.isInBounds (m.object o).address (m.object o).alignedSize with
  | some a =>
    rw [harea] at hmappable
    obtain ⟨hsession, hin⟩ := Option.filter_eq_some_iff.mp harea
    have hpositive := c.positive _ a hsession
    exact ⟨_, rfl, hm.mapHeap ho hd hsession (of_decide_eq_true hin) hmappable,
      hready _ _ true (by omega) rfl rfl rfl rfl rfl⟩
  | none =>
    rw [harea] at hmappable
    obtain ⟨address, hanswered, hunused⟩ := hmappable
    obtain ⟨hallocate, haddress⟩ := allocateSmmu_of_answered (c := c) hd hanswered
    refine ⟨_, ?_, hm.mapDevice ho hd hunused, hready _ address false haddress rfl rfl rfl rfl rfl⟩
    simp only [hallocate]
    rfl

/-- What a pin comes to once the handle is ready. -/
theorem Ready.inv {lowAreaPin : Bool} {lowAnswer : Nat} {s' : Traced} (hi : Inv c s)
    (ho : s.map.handles id = some o) (hm : Mappings c m) (hr : Ready s.map m o)
    (hlow : lowAreaPin = true → (s.map.object o).pinVirtAddress = 0 →
      lowAnswer ≠ 0 ∧ ∀ x < (s.map.object o).alignedSize, s.map.gmmu (lowAnswer + x) = none)
    (hs' : s' = { s with
      map := (m.countPin o lowAreaPin lowAnswer).2
      outstanding := count (some o) 1 s.outstanding }) :
    Inv c s' ∧
      if lowAreaPin then
        LowLiveAt c (m.countPin o lowAreaPin lowAnswer).2
          ((m.countPin o lowAreaPin lowAnswer).2.object o) (m.countPin o lowAreaPin lowAnswer).1
      else
        LiveAt c (m.countPin o lowAreaPin lowAnswer).2
          ((m.countPin o lowAreaPin lowAnswer).2.object o)
          (m.countPin o lowAreaPin lowAnswer).1 := by
  subst hs'
  obtain ⟨address, inHeap, haddress, hself⟩ := hr.self
  have hlt : o < m.created := by
    rw [hr.created]
    exact lt_created hi.mappings hi.books ho
  have hd : (m.object o).dAddress ≠ 0 := by rwa [hself]
  have hlow' : lowAreaPin = true → (m.object o).pinVirtAddress = 0 →
      lowAnswer ≠ 0 ∧ ∀ x < (m.object o).alignedSize, m.gmmu (lowAnswer + x) = none := by
    rw [hself, hr.gmmu]
    exact hlow
  obtain ⟨hqueue, hhandles, hcreated⟩ := @countPin_frame m o lowAreaPin lowAnswer
  have hobject (o') (hne : o' ≠ o) :
      (m.countPin o lowAreaPin lowAnswer).2.object o' = s.map.object o' :=
    (countPin_object_of_ne hne).trans (hr.object o' hne)
  have hpinned := @countPin_object_self m o lowAreaPin lowAnswer
  rw [hself] at hpinned
  have hc := hi.books.counted o
  have ht := hi.tallied o
  have hpins := hc.pins
  refine ⟨hi.update (o := o) (countPin_mappings hm hlt hd hlow')
    (hi.books.update (o := o) hobject (fun o' hne => ?_) ?_ (fun id' o' _ => ?_) ?_
      ((hi.books.tabled o).congr ?_ ?_ fun id' => ?_))
    ?_ hobject (fun o' hne => count_of_ne hne) (fun _ _ => rfl) (fun _ _ => rfl)
    ⟨fun _ => ?_, ?_, ?_⟩, countPin_live hm hlt hd hlow'⟩
  · rw [hqueue]
    exact hr.queue o' hne
  · rw [hqueue]
    exact hr.nodup
  · rw [hhandles, hr.handles]
  · refine ⟨?_, ?_, ?_, ?_, ?_, ?_⟩
    · rw [hqueue, hpinned]
      exact ⟨fun hmem => absurd hmem hr.notQueued, fun h => absurd h.1 (by simp only; omega)⟩
    · rw [hqueue, hpinned]
      exact ⟨fun hentry => absurd hentry Bool.false_ne_true, fun hmem => absurd hmem hr.notQueued⟩
    · rw [hpinned]
      simp only
      omega
    · rw [hpinned]
      exact fun _ => haddress
    · rw [hpinned]
      exact hc.dupes
    · rw [hpinned]
      exact hc.internalDupes
  · rw [hpinned]
  · rw [hpinned, Handle.Referenced, Handle.Referenced]
  · rw [hhandles, hr.handles]
  · rw [hcreated, hr.created]
  · rw [hpinned]
    exact count_self.trans (congrArg (· + 1) (ht.outstanding (.inl (hi.books.referenced ho))))
  · rw [hpinned]
    exact ht.guestRefs
  · rw [hpinned]
    exact ht.internalRefs

section PinHandle

variable {lowAreaPin : Bool} {answers : List Nat} {lowAnswer : Nat}

/-- The ways through `PinHandle`: the handle is pinned already, it is in the queue, or it is to be
mapped. -/
theorem pinHandle_spec (lowAreaPin : Bool) (lowAnswer : Nat) (hi : Inv c s)
    (ho : s.map.handles id = some o)
    (hmappable : (s.map.object o).dAddress = 0 → Mappable c s.map (s.map.object o) answers) :
    ∃ m, Mappings c m ∧ Ready s.map m o ∧ s.map.pinHandle c id lowAreaPin answers lowAnswer =
        .ok (m.countPin o lowAreaPin lowAnswer) := by
  have hc := hi.books.counted o
  have hlt := lt_created hi.mappings hi.books ho
  rw [pinHandle, getHandle_some ho]
  by_cases hpinned : (s.map.object o).pins ≠ 0
  · have hnotQueued : o ∉ s.map.unmapQueue := fun hmem => hpinned (hc.queue.mp hmem).1
    have hentry : (s.map.object o).unmapQueueEntry = false := by
      rw [← Bool.not_eq_true, hc.entry]
      exact hnotQueued
    exact ⟨s.map, hi.mappings, ⟨fun _ _ => rfl, fun _ _ => Iff.rfl, hi.books.nodup, hnotQueued, rfl,
      rfl, rfl, _, (s.map.object o).inHeap, hc.pinned hpinned, by rw [← hentry]⟩, if_pos hpinned⟩
  · cases hentry : (s.map.object o).unmapQueueEntry with
    | true =>
      have hd := (hc.queue.mp (hc.entry.mp hentry)).2
      refine ⟨s.map.dequeue o, dequeue_mappings hi.mappings hc hlt, Ready.dequeue hi.books hd, ?_⟩
      simp only [if_neg hpinned, hentry, if_true]
      rfl
    | false =>
      have hd : (s.map.object o).dAddress = 0 := by
        by_contra hd
        have hmem := hc.queue.mpr ⟨not_not.mp hpinned, hd⟩
        exact Bool.false_ne_true (hentry.symm.trans (hc.entry.mpr hmem))
      obtain ⟨m, hmap, hm, hr⟩ := mapSmmu_spec hi.mappings hi.books hlt hd (hmappable hd)
      refine ⟨m, hm, hr, ?_⟩
      simp only [if_neg hpinned, hentry, Bool.false_eq_true, if_false, hmap]
      rfl

theorem pinHandle_inv (hi : Inv c s) (hs : Sound c s (.pinHandle id lowAreaPin answers lowAnswer)) :
    Inv c (step c s (.pinHandle id lowAreaPin answers lowAnswer)) := by
  cases ho : s.map.handles id with
  | none =>
    have hpin : s.map.pinHandle c id lowAreaPin answers lowAnswer = .ok (0, s.map) := by
      rw [pinHandle, getHandle_none ho]
      rfl
    have hstep : step c s (.pinHandle id lowAreaPin answers lowAnswer) = s := by
      rw [step, hpin, ho]
      rfl
    rwa [hstep]
  | some o =>
    obtain ⟨hmappable, hlow⟩ := hs o ho
    obtain ⟨m, hm, hr, hpin⟩ := pinHandle_spec lowAreaPin lowAnswer hi ho hmappable
    refine (hr.inv hi ho hm hlow ?_).1
    rw [step, hpin, ho]

theorem pinHandle_right (hi : Inv c s) (hs : Sound c s (.pinHandle id lowAreaPin answers
    lowAnswer)) : PinRight c s (.pinHandle id lowAreaPin answers lowAnswer) := by
  intro o ho _
  obtain ⟨hmappable, hlow⟩ := hs o ho
  obtain ⟨m, hm, hr, hpin⟩ := pinHandle_spec lowAreaPin lowAnswer hi ho hmappable
  exact ⟨_, _, hpin, (hr.inv hi ho hm hlow rfl).2⟩

end PinHandle

end Sudachi.Service.Nvdrv
