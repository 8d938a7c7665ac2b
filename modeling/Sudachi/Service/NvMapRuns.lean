import Sudachi.Service.NvMapPinning

/-!
# The runs of nvmap

Freeing a handle, and the accounts of nvmap over the runs of its calls. The last guest reference
takes all pins of a handle away; if an internal reference keeps the handle, the unpins that belong
to them are still to come (`unpinHandle_after_freeHandle`). Without that, and where the allocators
and the table have room, the accounts are right in every state of a run, and each pin returns an
address at which its handle is mapped (`accounted_run`).
-/

set_option autoImplicit false

namespace Sudachi.Service.Nvdrv

open Sudachi.Foundations Sudachi.Foundations.Runs NvMap Function Option
open Traced (initial)

variable {c : Sessions} {m m' : NvMap} {s : Traced} {o o' id address : Nat} {h : Handle}

/-! ## Freeing -/

theorem unmapLowArea_spec :
    (m.unmapLowArea o).object = update m.object o { m.object o with pinVirtAddress := 0 } ∧
    (m.unmapLowArea o).unmapQueue = m.unmapQueue ∧ (m.unmapLowArea o).handles = m.handles ∧
    (m.unmapLowArea o).created = m.created := by
  rw [unmapLowArea]
  by_cases hlow : (m.object o).pinVirtAddress ≠ 0
  · rw [if_pos hlow]
    exact ⟨rfl, rfl, rfl, rfl⟩
  · have hself : { m.object o with pinVirtAddress := 0 } = m.object o := by
      rw [← not_not.mp hlow]
    rw [if_neg hlow, hself, update_eq_self]
    exact ⟨rfl, rfl, rfl, rfl⟩

/-- The last part of `UnmapHandle`, where the low area is free already. -/
theorem unmapSmmu_spec (hm : Mappings c m) (ho : o < m.created) (hd : (m.object o).dAddress ≠ 0)
    (hlow : (m.object o).pinVirtAddress = 0) : Mappings c (m.unmapSmmu c o) ∧
    (m.unmapSmmu c o).object =
      update m.object o { m.object o with dAddress := 0, inHeap := false } ∧
    (m.unmapSmmu c o).unmapQueue = m.unmapQueue ∧ (m.unmapSmmu c o).handles = m.handles ∧
    (m.unmapSmmu c o).created = m.created := by
  rw [unmapSmmu]
  by_cases hheap : (m.object o).inHeap = true
  · obtain ⟨a, ha⟩ := hm.inArea o hheap
    simp only [if_pos hheap, ha.1]
    exact ⟨hm.unmapHeap ho hheap ha hlow, rfl, rfl, rfl, rfl⟩
  · have hfalse := Bool.eq_false_iff.mpr hheap
    have hself : { m.object o with dAddress := 0 } =
        { m.object o with dAddress := 0, inHeap := false } := by rw [← hfalse]
    simp only [if_neg hheap]
    exact ⟨hm.unmapDevice ho hfalse hd hlow, by rw [← hself]; rfl, rfl, rfl, rfl⟩

/-- `UnmapHandle`. -/
theorem unmapHandle_spec (hm : Mappings c m) (hc : Counted m o) (ho : o < m.created)
    (hd : (m.object o).dAddress ≠ 0) : Mappings c (m.unmapHandle c o) ∧
    (m.unmapHandle c o).object = update m.object o { m.object o with
        unmapQueueEntry := false, pinVirtAddress := 0, dAddress := 0, inHeap := false } ∧
    (m.unmapHandle c o).unmapQueue = m.unmapQueue.erase o ∧
    (m.unmapHandle c o).handles = m.handles ∧ (m.unmapHandle c o).created = m.created := by
  obtain ⟨hqueue, hobject, hhandles, hcreated, _⟩ := dequeue_spec hc
  obtain ⟨hobject', hqueue', hhandles', hcreated'⟩ := unmapLowArea_spec (m := m.dequeue o) (o := o)
  have hself : (m.dequeue o).object o = { m.object o with unmapQueueEntry := false } := by
    rw [hobject, update_self]
  have hlow : ((m.dequeue o).unmapLowArea o).object o =
      { m.object o with unmapQueueEntry := false, pinVirtAddress := 0 } := by
    rw [hobject', update_self, hself]
  have hlt : o < (m.dequeue o).created := by rwa [hcreated]
  have hm' := (dequeue_mappings hm hc ho).unmapLowArea hlt
  obtain ⟨hmapped, hobject'', hqueue'', hhandles'', hcreated''⟩ :=
    unmapSmmu_spec hm' (by rwa [hcreated', hcreated]) (by rw [hlow]; exact hd) (by rw [hlow])
  refine ⟨hmapped, ?_, ?_, ?_, ?_⟩
  · rw [unmapHandle, hobject'', hlow, hobject', update_idem, hobject, update_idem]
  · rw [unmapHandle, hqueue'', hqueue', hqueue]
  · rw [unmapHandle, hhandles'', hhandles', hhandles]
  · rw [unmapHandle, hcreated'', hcreated', hcreated]

/-- A reference of the handle is given up, and the table does not know it yet. -/
structure Released (m m' : NvMap) (o : Nat) : Prop where
  object : ∀ o' ≠ o, m'.object o' = m.object o'
  queue : ∀ o' ≠ o, o' ∈ m'.unmapQueue ↔ o' ∈ m.unmapQueue
  nodup : m'.unmapQueue.Nodup
  handles : m'.handles = m.handles
  created : m'.created = m.created
  id : (m'.object o).id = (m.object o).id
  counted : Counted m' o

theorem Released.setObject (hb : Books m) (hid : h.id = (m.object o).id)
    (hc : Counted (m.setObject o h) o) : Released m (m.setObject o h) o :=
  ⟨fun _ hne => setObject_object_of_ne hne, fun _ _ => .rfl, hb.nodup, rfl, rfl,
    by rw [setObject_object_self, hid], hc⟩

/-- A handle has been unmapped by force, or it was not mapped. -/
structure Forced (m m' : NvMap) (o : Nat) : Prop where
  object : ∀ o' ≠ o, m'.object o' = m.object o'
  queue : ∀ o' ≠ o, o' ∈ m'.unmapQueue ↔ o' ∈ m.unmapQueue
  nodup : m'.unmapQueue.Nodup
  handles : m'.handles = m.handles
  created : m'.created = m.created
  notQueued : o ∉ m'.unmapQueue
  self : ∃ pinVirtAddress inHeap, m'.object o =
    { m.object o with
      unmapQueueEntry := false
      pinVirtAddress := pinVirtAddress
      dAddress := 0
      inHeap := inHeap }

theorem Forced.unmapHandle (hm : Mappings c m) (hnodup : m.unmapQueue.Nodup) (hc : Counted m o)
    (ho : o < m.created) (hd : (m.object o).dAddress ≠ 0) :
    Mappings c (m.unmapHandle c o) ∧ Forced m (m.unmapHandle c o) o := by
  obtain ⟨hmapped, hobject, hqueue, hhandles, hcreated⟩ := unmapHandle_spec hm hc ho hd
  refine ⟨hmapped, fun o' hne => ?_, fun o' hne => ?_, ?_, hhandles, hcreated, ?_, 0, false, ?_⟩
  · rw [hobject, update_of_ne hne]
  · rw [hqueue]
    exact List.mem_erase_of_ne hne
  · rw [hqueue]
    exact hnodup.erase o
  · rw [hqueue]
    exact hnodup.not_mem_erase
  · rw [hobject, update_self]

theorem Forced.refl (hnodup : m.unmapQueue.Nodup) (hc : Counted m o)
    (hd : (m.object o).dAddress = 0) : Forced m m o := by
  have hnotQueued : o ∉ m.unmapQueue := fun hmem => (hc.queue.mp hmem).2 hd
  have hentry : (m.object o).unmapQueueEntry = false := by
    rw [← Bool.not_eq_true, hc.entry]
    exact hnotQueued
  exact ⟨fun _ _ => rfl, fun _ _ => .rfl, hnodup, rfl, rfl, hnotQueued,
    (m.object o).pinVirtAddress, (m.object o).inHeap, by rw [← hentry, ← hd]⟩

/-- The last guest reference takes the mappings and the pins of a handle away. -/
theorem releaseDupe_last (hm : Mappings c m) (hb : Books m) (ho : o < m.created)
    (hlast : (m.object o).dupes - 1 = 0) :
    Mappings c (m.releaseDupe c o false) ∧ Released m (m.releaseDupe c o false) o ∧
    ((m.releaseDupe c o false).object o).dupes = 0 ∧
    ((m.releaseDupe c o false).object o).internalDupes = (m.object o).internalDupes ∧
    ((m.releaseDupe c o false).object o).pins = 0 := by
  have hc := hb.counted o
  obtain ⟨m₀, hm₀⟩ : ∃ m₀, m₀ = m.setObject o { m.object o with dupes := (m.object o).dupes - 1 } :=
    ⟨_, rfl⟩
  have hself : m₀.object o = { m.object o with dupes := (m.object o).dupes - 1 } := by
    rw [hm₀, setObject_object_self]
  have hfewer : Counted m₀ o := by
    rw [hm₀]
    exact hc.setObject rfl rfl rfl (by simp only; omega) hc.internalDupes
  have hsame : Mappings c m₀ := by
    rw [hm₀]
    exact hm.of_sameExtent rfl rfl ho rfl rfl rfl ⟨rfl, rfl, rfl, rfl, rfl, rfl⟩
  have hlt : o < m₀.created := by rwa [hm₀]
  have hnodup : m₀.unmapQueue.Nodup := by
    rw [hm₀]
    exact hb.nodup
  obtain ⟨m₁, hm₁, hmapped, hforced⟩ : ∃ m₁,
      m₁ = (if (m.object o).dAddress ≠ 0 then m₀.unmapHandle c o else m₀) ∧ Mappings c m₁ ∧
        Forced m₀ m₁ o := by
    by_cases hd : (m.object o).dAddress ≠ 0
    · obtain ⟨hmapped, hforced⟩ := Forced.unmapHandle hsame hnodup hfewer hlt (by rwa [hself])
      exact ⟨_, (if_pos hd).symm, hmapped, hforced⟩
    · have hzero : (m₀.object o).dAddress = 0 := by
        rw [hself]
        exact not_not.mp hd
      exact ⟨_, (if_neg hd).symm, hsame, Forced.refl hnodup hfewer hzero⟩
  have hrelease : m.releaseDupe c o false = m₁.setObject o { m₁.object o with pins := 0 } := by
    rw [releaseDupe, if_neg Bool.false_ne_true]
    simp only [if_pos hlast, ← hm₀, ← hm₁]
  obtain ⟨pinVirtAddress, inHeap, hunmapped⟩ := hforced.self
  rw [hself] at hunmapped
  rw [hrelease]
  simp only [setObject_object_self]
  refine ⟨hmapped.of_sameExtent rfl rfl (by rwa [hforced.created]) rfl rfl rfl
      ⟨rfl, rfl, rfl, rfl, rfl, rfl⟩,
    ⟨fun o' hne => ?_, fun o' hne => ?_, hforced.nodup, ?_, ?_, ?_, ⟨?_, ?_, ?_, ?_, ?_, ?_⟩⟩,
    ?_, ?_, trivial⟩
  · rw [setObject_object_of_ne hne, hforced.object o' hne, hm₀, setObject_object_of_ne hne]
  · refine (hforced.queue o' hne).trans ?_
    rw [hm₀]
    rfl
  · refine hforced.handles.trans ?_
    rw [hm₀]
    rfl
  · refine hforced.created.trans ?_
    rw [hm₀]
    rfl
  · rw [setObject_object_self, hunmapped]
  · rw [setObject_object_self, hunmapped]
    exact ⟨fun hmem => absurd hmem hforced.notQueued, fun h => absurd rfl h.2⟩
  · rw [setObject_object_self, hunmapped]
    exact ⟨fun hentry => absurd hentry Bool.false_ne_true,
      fun hmem => absurd hmem hforced.notQueued⟩
  · rw [setObject_object_self]
  · rw [setObject_object_self]
    exact fun hne => absurd rfl hne
  · rw [setObject_object_self, hunmapped]
    simp only
    omega
  · rw [setObject_object_self, hunmapped]
    exact hc.internalDupes
  · rw [hunmapped]
    exact hlast
  · rw [hunmapped]

/-- The table loses the handle once it has no reference. -/
theorem Released.books (hb : Books m) (hr : Released m m' o) (ho : m.handles id = some o) :
    Books (m'.tryRemoveHandle (m'.object o)).2 := by
  have hid : (m'.object o).id = id := hr.id.trans (hb.id_eq ho)
  rw [tryRemoveHandle]
  have hdupes := hr.counted.dupes
  have hinternal := hr.counted.internalDupes
  by_cases hnone : (m'.object o).dupes = 0 ∧ (m'.object o).internalDupes = 0
  · simp only [if_pos hnone, hid]
    have hnot : ¬(m'.object o).Referenced := by
      rw [Handle.Referenced]
      omega
    refine hb.update (o := o) hr.object hr.queue hr.nodup (fun id' o' hne => ?_)
      (hr.counted.congr rfl .rfl) fun id' => ?_
    · by_cases heq : id' = id
      · subst heq
        simp [ho, Ne.symm hne]
      · simp [update_of_ne heq, hr.handles]
    · by_cases heq : id' = id
      · subst heq
        simp [hnot]
      · have hother : m.handles id' ≠ some o := fun hsome => heq ((hb.id_eq hsome).symm.trans
          (hb.id_eq ho))
        simp [update_of_ne heq, hr.handles, hother, hnot]
  · simp only [if_neg hnone]
    have href : (m'.object o).Referenced := by
      rw [Handle.Referenced]
      omega
    refine hb.update (o := o) hr.object hr.queue hr.nodup (fun id' o' _ => by rw [hr.handles])
      hr.counted ((hb.tabled o).congr hr.id ?_ fun id' => ?_)
    · exact ⟨fun _ => hb.referenced ho, fun _ => href⟩
    · rw [hr.handles]

theorem tryRemoveHandle_frame : (m.tryRemoveHandle h).2.object = m.object ∧
    (m.tryRemoveHandle h).2.created = m.created := by
  rw [tryRemoveHandle]
  split
  next => exact ⟨rfl, rfl⟩
  next => exact ⟨rfl, rfl⟩

theorem tryRemoveHandle_mappings (hm : Mappings c m) : Mappings c (m.tryRemoveHandle h).2 := by
  rw [tryRemoveHandle]
  split
  next => exact { hm with }
  next => exact hm

/-- What a reference that is given up comes to, in the state and in the history. -/
theorem Released.inv {s' : Traced} (hi : Inv c s) (ho : s.map.handles id = some o)
    (hm : Mappings c m) (hr : Released s.map m o)
    (hmap : s'.map = (m.tryRemoveHandle (m.object o)).2)
    (houtstanding : s'.outstanding = s.outstanding)
    (hguest : ∀ o' ≠ o, s'.guestRefs o' = s.guestRefs o')
    (hinternal : ∀ o' ≠ o, s'.internalRefs o' = s.internalRefs o')
    (hpins : (m.object o).Referenced → (m.object o).pins = (s.map.object o).pins)
    (hguestSelf : s'.guestRefs o = (m.object o).dupes)
    (hinternalSelf : s'.internalRefs o = (m.object o).internalDupes) : Inv c s' := by
  obtain ⟨hobject, hcreated⟩ := tryRemoveHandle_frame (m := m) (h := m.object o)
  have hlt := lt_created hi.mappings hi.books ho
  refine hi.update (o := o) ?_ ?_ ?_ (fun o' hne => ?_) (fun o' _ => by rw [houtstanding]) hguest
    hinternal ⟨fun href => ?_, ?_, ?_⟩
  · rw [hmap]
    exact tryRemoveHandle_mappings hm
  · rw [hmap]
    exact hr.books hi.books ho
  · rw [hmap, hcreated, hr.created]
  · rw [hmap, hobject]
    exact hr.object o' hne
  · rw [hmap, hobject, hcreated, hr.created] at href
    rw [hmap, hobject, houtstanding]
    have htally := (hi.tallied o).outstanding (.inl (hi.books.referenced ho))
    rcases href with href | hle
    · rw [hpins href]
      exact htally
    · omega
  · rw [hmap, hobject]
    exact hguestSelf
  · rw [hmap, hobject]
    exact hinternalSelf

theorem freeHandle_inv {internalSession : Bool} (hi : Inv c s)
    (hbalanced : Balanced s (.freeHandle id internalSession))
    (hs : Sound c s (.freeHandle id internalSession)) :
    Inv c (step c s (.freeHandle id internalSession)) := by
  cases ho : s.map.handles id with
  | none =>
    have hstep : step c s (.freeHandle id internalSession) = s := by
      rw [step, freeHandle, getHandle_none ho, ho]
      cases internalSession with
      | false => rfl
      | true => rfl
    rwa [hstep]
  | some o =>
    have hlt := lt_created hi.mappings hi.books ho
    have hc := hi.books.counted o
    have ht := hi.tallied o
    have hreference := hbalanced o ho
    have hmap : (s.map.freeHandle c id internalSession).2 =
        ((s.map.releaseDupe c o internalSession).tryRemoveHandle
          ((s.map.releaseDupe c o internalSession).object o)).2 := by
      rw [freeHandle, getHandle_some ho]
    cases internalSession with
    | true =>
      rw [if_pos rfl, ht.internalRefs] at hreference
      have hr : Released s.map (s.map.releaseDupe c o true) o :=
        Released.setObject hi.books rfl
          (hc.setObject rfl rfl rfl hc.dupes (by simp only; omega))
      have hm : Mappings c (s.map.releaseDupe c o true) :=
        hi.mappings.of_sameExtent rfl rfl hlt rfl rfl rfl ⟨rfl, rfl, rfl, rfl, rfl, rfl⟩
      have hself : (s.map.releaseDupe c o true).object o =
          { s.map.object o with internalDupes := (s.map.object o).internalDupes - 1 } :=
        setObject_object_self
      refine hr.inv hi ho hm hmap rfl (fun _ _ => rfl) (fun o' hne => ?_) (fun _ => ?_) ?_
        ?_
      · rw [step, ho]
        exact count_of_ne hne
      · rw [hself]
      · rw [hself]
        exact ht.guestRefs
      · rw [step, ho, hself]
        exact count_self.trans (congrArg (· + -1) ht.internalRefs)
    | false =>
      rw [if_neg Bool.false_ne_true, ht.guestRefs] at hreference
      by_cases hlast : (s.map.object o).dupes - 1 = 0
      · obtain ⟨hm, hr, hdupes, hinternal, hpins⟩ :=
          releaseDupe_last (c := c) hi.mappings hi.books hlt hlast
        refine hr.inv hi ho hm hmap rfl (fun o' hne => ?_) (fun _ _ => rfl) (fun href => ?_) ?_
          ?_
        · rw [step, ho]
          exact count_of_ne hne
        · rw [hpins]
          rw [Handle.Referenced, hdupes, hinternal] at href
          exact (hs o ho rfl (by omega) (by omega)).symm
        · rw [step, ho, hdupes]
          refine Eq.trans ?_ hlast
          exact count_self.trans (congrArg (· + -1) ht.guestRefs)
        · rw [hinternal]
          exact ht.internalRefs
      · have hrelease : s.map.releaseDupe c o false =
            s.map.setObject o { s.map.object o with dupes := (s.map.object o).dupes - 1 } := by
          rw [releaseDupe, if_neg Bool.false_ne_true]
          exact if_neg hlast
        have hr : Released s.map (s.map.setObject o
            { s.map.object o with dupes := (s.map.object o).dupes - 1 }) o :=
          Released.setObject hi.books rfl
            (hc.setObject rfl rfl rfl (by simp only; omega) hc.internalDupes)
        have hm : Mappings c (s.map.setObject o
            { s.map.object o with dupes := (s.map.object o).dupes - 1 }) :=
          hi.mappings.of_sameExtent rfl rfl hlt rfl rfl rfl ⟨rfl, rfl, rfl, rfl, rfl, rfl⟩
        rw [hrelease] at hmap
        refine hr.inv hi ho hm hmap rfl (fun o' hne => ?_) (fun _ _ => rfl) (fun _ => ?_) ?_ ?_
        · rw [step, ho]
          exact count_of_ne hne
        · rw [setObject_object_self]
        · rw [step, ho, setObject_object_self]
          exact count_self.trans (congrArg (· + -1) ht.guestRefs)
        · rw [setObject_object_self]
          exact ht.internalRefs

/-! ## The runs -/

theorem step_inv (hi : Inv c s) (op : Op) (hbalanced : Balanced s op) (hs : Sound c s op) :
    Inv c (step c s op) ∧ PinRight c s op := by
  cases op with
  | createHandle size => exact ⟨createHandle_inv hi size hs, trivial⟩
  | alloc id p => exact ⟨alloc_inv hi hs, trivial⟩
  | duplicateHandle id internalSession => exact ⟨duplicateHandle_inv hi, trivial⟩
  | pinHandle id lowAreaPin answers lowAnswer => exact ⟨pinHandle_inv hi hs, pinHandle_right hi hs⟩
  | unpinHandle id => exact ⟨unpinHandle_inv hi hbalanced, trivial⟩
  | freeHandle id internalSession => exact ⟨freeHandle_inv hi hbalanced hs, trivial⟩

theorem along_pinRight (ops : List Op) (hi : Inv c s) (hbalanced : Along (step c) Balanced s ops)
    (hs : Along (step c) (Sound c) s ops) : Along (step c) (PinRight c) s ops := by
  induction ops generalizing s with
  | nil => trivial
  | cons op ops ih =>
    obtain ⟨hnext, hpin⟩ := step_inv hi op hbalanced.1 hs.1
    exact ⟨hpin, ih hnext hbalanced.2 hs.2⟩

/-- In a run of balanced calls with room in the table, for the device and in the low area, in which
no handle changes its range while it is mapped and none with an internal reference loses its last
guest reference while it is pinned, the accounts are right, and so is what each pin returns. -/
theorem accounted_run (c : Sessions) (ops : List Op)
    (hbalanced : Along (step c) Balanced initial ops) (hs : Along (step c) (Sound c) initial ops) :
    Throughout (step c) (Accounted c) initial ops ∧ Along (step c) (PinRight c) initial ops := by
  refine ⟨?_, along_pinRight ops (initial_inv c) hbalanced hs⟩
  exact throughout_of_along (I := Inv c) (fun _ hi => hi.accounted)
    (fun _ op hi hstep => (step_inv hi op hstep.1 hstep.2).1) (initial_inv c) (hbalanced.and hs)

def params (address : Nat) : AllocParams := ⟨⟨false, false⟩, 4096, 0, address, 0⟩

/-- A handle of one page that is pinned and parked, comes back from the queue and is freed. -/
def usualRun : List Op :=
  [.createHandle 4096, .alloc 4 (params 0), .pinHandle 4 false [65536] 0, .unpinHandle 4,
    .pinHandle 4 true [] 8192, .unpinHandle 4, .freeHandle 4 false]

/-- A buffer holds a handle and pins it, and the guest frees the handle before the buffer is gone.
-/
def earlyFree : List Op :=
  [.createHandle 4096, .alloc 4 (params 0), .duplicateHandle 4 true, .pinHandle 4 false [65536] 0,
    .freeHandle 4 false, .unpinHandle 4]

/-- The device has room for one handle, which is parked when the second one is to be pinned. -/
def fullDevice : List Op :=
  [.createHandle 4096, .alloc 4 (params 0), .pinHandle 4 false [65536] 0, .unpinHandle 4,
    .createHandle 4096, .alloc 8 (params 4096), .pinHandle 8 false [0, 0, 0] 0]

theorem outside_noAreas (d : Nat) : noAreas.Outside d := fun _ _ h =>
  absurd h (some_ne_none _).symm

theorem usualRun_balanced : Along (step noAreas) Balanced initial usualRun := by
  refine ⟨trivial, trivial, trivial, ?_, trivial, ?_, ?_, trivial⟩
  · intro o ho
    obtain rfl : 0 = o := some.inj ho
    decide
  · intro o ho
    obtain rfl : 0 = o := some.inj ho
    decide
  · intro o ho
    obtain rfl : 0 = o := some.inj ho
    decide

theorem usualRun_sound : Along (step noAreas) (Sound noAreas) initial usualRun := by
  refine ⟨fun _ => rfl, ?_, ?_, trivial, ?_, trivial, ?_, trivial⟩
  · intro o ho _
    obtain rfl : 0 = o := some.inj ho
    rfl
  · intro o ho
    obtain rfl : 0 = o := some.inj ho
    refine ⟨fun _ => ?_, fun hlow => absurd hlow Bool.false_ne_true⟩
    show ∃ address, Answered _ [65536] address ∧ Unused _ _ address 4096
    exact ⟨65536, rfl, fun x _ => ⟨rfl, outside_noAreas _⟩⟩
  · intro o ho
    obtain rfl : 0 = o := some.inj ho
    refine ⟨fun hd => absurd hd (by decide), fun _ _ => ⟨by decide, fun x _ => rfl⟩⟩
  · intro o ho _ _ hinternal
    obtain rfl : 0 = o := some.inj ho
    exact absurd rfl hinternal

theorem accounted_usualRun :
    Throughout (step noAreas) (Accounted noAreas) initial usualRun ∧
      Along (step noAreas) (PinRight noAreas) initial usualRun :=
  accounted_run noAreas usualRun usualRun_balanced usualRun_sound

theorem not_accounted_earlyFree :
    (Along (step noAreas) Balanced initial earlyFree ∧
      ¬Throughout (step noAreas) (Accounted noAreas) initial earlyFree) ∧
    (Along (step noAreas) Balanced initial fullDevice ∧
      ¬Along (step noAreas) (PinRight noAreas) initial fullDevice) := by
  refine ⟨⟨⟨trivial, trivial, trivial, trivial, ?_, ?_, trivial⟩, fun h => ?_⟩,
    ⟨trivial, trivial, trivial, ?_, trivial, trivial, trivial, trivial⟩, fun h => ?_⟩
  · intro o ho
    obtain rfl : 0 = o := Option.some.inj ho
    decide
  · intro o ho
    obtain rfl : 0 = o := Option.some.inj ho
    decide
  · have hpins := h.2.2.2.2.2.2.pins 0
    exact absurd hpins (by decide)
  · intro o ho
    obtain rfl : 0 = o := Option.some.inj ho
    decide
  · obtain ⟨address, m, hpin, _⟩ := h.2.2.2.2.2.2.1 1 rfl rfl
    have hstuck : (Except.error Fault.unfinished : Except Fault (Nat × NvMap)) = .ok (address, m) :=
      hpin
    exact absurd hstuck (by simp)

end Sudachi.Service.Nvdrv
