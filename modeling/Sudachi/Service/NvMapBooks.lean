import Sudachi.Service.NvMapMappings
import Sudachi.Foundations.Runs

/-!
# The books of nvmap

The calls of nvmap with the history of each handle, what they are owed, and the books that the code
keeps: the counts of a handle, the unmap queue and the table. The calls that make, allocate,
duplicate and unpin a handle keep the books in step with the history.
-/

set_option autoImplicit false

namespace Sudachi.Service.Nvdrv

open Sudachi.Foundations Sudachi.Foundations.Runs NvMap Function
open Handle (blank duplicate new)

/-! ## The calls, and what they are owed -/

inductive Op where
  | createHandle (size : Nat)
  | alloc (id : Nat) (p : AllocParams)
  | duplicateHandle (id : Nat) (internalSession : Bool)
  | pinHandle (id : Nat) (lowAreaPin : Bool) (answers : List Nat) (lowAnswer : Nat)
  | unpinHandle (id : Nat)
  | freeHandle (id : Nat) (internalSession : Bool)

/-- A state with the history of each handle: the pins less the unpins, and the references that it
has been given less those that have been freed. -/
structure Traced where
  map : NvMap
  outstanding : Nat → Int
  guestRefs : Nat → Int
  internalRefs : Nat → Int

def Traced.initial : Traced := ⟨NvMap.initial, fun _ => 0, fun _ => 0, fun _ => 0⟩

/-- A count of the handle that an id stands for, and of no handle if it stands for none. -/
def count (handle : Option Nat) (k : Int) (counts : Nat → Int) : Nat → Int :=
  match handle with
  | none => counts
  | some o => Function.update counts o (counts o + k)

/-- One call. A pin that does not come back counts for nothing. -/
def step (c : Sessions) (s : Traced) : Op → Traced
  | .createHandle size =>
    { s with
      map := (s.map.createHandle size).2
      guestRefs := count (s.map.createHandle size).1 1 s.guestRefs }
  | .alloc id p => { s with map := s.map.allocHandle id p }
  | .duplicateHandle id internalSession =>
    let granted := (s.map.handles id).filter fun o => (s.map.object o).allocated
    { s with
      map := s.map.duplicateHandle id internalSession
      guestRefs := if internalSession then s.guestRefs else count granted 1 s.guestRefs
      internalRefs := if internalSession then count granted 1 s.internalRefs else s.internalRefs }
  | .pinHandle id lowAreaPin answers lowAnswer =>
    match s.map.pinHandle c id lowAreaPin answers lowAnswer with
    | .error _ => s
    | .ok (_, m) => { s with map := m, outstanding := count (s.map.handles id) 1 s.outstanding }
  | .unpinHandle id =>
    { s with
      map := s.map.unpinHandle id
      outstanding := count (s.map.handles id) (-1) s.outstanding }
  | .freeHandle id internalSession =>
    { s with
      map := (s.map.freeHandle c id internalSession).2
      guestRefs :=
        if internalSession then s.guestRefs else count (s.map.handles id) (-1) s.guestRefs
      internalRefs :=
        if internalSession then count (s.map.handles id) (-1) s.internalRefs else s.internalRefs }

/-- An unpin undoes a pin of the handle, and a free gives up a reference that it has. -/
def Balanced (s : Traced) : Op → Prop
  | .unpinHandle id => ∀ o, s.map.handles id = some o → 0 < s.outstanding o
  | .freeHandle id internalSession =>
    ∀ o, s.map.handles id = some o → 0 < if internalSession then s.internalRefs o else s.guestRefs o
  | _ => True

/-- What the accounts are to say in a state: the unmap queue holds the handles that are mapped and
not pinned, each once; no handle is pinned less than never; the table holds the handles with
references; and a handle with an address is mapped there. -/
structure Accounted (c : Sessions) (s : Traced) : Prop where
  queue : ∀ o, o ∈ s.map.unmapQueue ↔ (s.map.object o).pins = 0 ∧ (s.map.object o).dAddress ≠ 0
  nodup : s.map.unmapQueue.Nodup
  pins : ∀ o, 0 ≤ (s.map.object o).pins
  table : ∀ o, s.map.handles (s.map.object o).id = some o ↔ 0 < s.guestRefs o ∨ 0 < s.internalRefs o
  live : ∀ o, (s.map.object o).dAddress ≠ 0 →
    LiveAt c s.map (s.map.object o) (s.map.object o).dAddress

/-- What a pin is to return. -/
def PinRight (c : Sessions) (s : Traced) : Op → Prop
  | .pinHandle id lowAreaPin answers lowAnswer =>
    ∀ o, s.map.handles id = some o → (s.map.object o).allocated = true →
      ∃ address m, s.map.pinHandle c id lowAreaPin answers lowAnswer = .ok (address, m) ∧
        if lowAreaPin then LowLiveAt c m (m.object o) address
        else LiveAt c m (m.object o) address
  | _ => True

/-! ## The condition -/

/-- The loop of `PinHandle` comes to an answer while nothing is unmapped. -/
def Answered (m : NvMap) : List Nat → Nat → Prop
  | [], _ => False
  | answer :: answers, address =>
    if answer ≠ 0 then address = answer else m.unmapQueue ≠ [] ∧ Answered m answers address

/-- A range of the device of which nothing is in use. -/
def Unused (c : Sessions) (m : NvMap) (address size : Nat) : Prop :=
  ∀ x < size, m.device (address + x) = none ∧ c.Outside (address + x)

/-- The handle can be mapped: its range of the heap does not run past the end of the address space,
or the SMMU gets a range that is free. -/
def Mappable (c : Sessions) (m : NvMap) (h : Handle) (answers : List Nat) : Prop :=
  if ((c.get h.sessionId).area.filter fun a => a.isInBounds h.address h.alignedSize).isSome then
    h.address + h.alignedSize < 2 ^ 64
  else ∃ address, Answered m answers address ∧ Unused c m address h.alignedSize

/-- The steps that the code gets right. -/
def Sound (c : Sessions) (s : Traced) : Op → Prop
  | .createHandle size => size ≠ 0 → s.map.handles s.map.nextHandleId = none
  | .alloc id _ => ∀ o, s.map.handles id = some o →
      (s.map.object o).allocated = false → (s.map.object o).dAddress = 0
  | .duplicateHandle _ _ => True
  | .pinHandle id lowAreaPin answers lowAnswer => ∀ o, s.map.handles id = some o →
      ((s.map.object o).dAddress = 0 → Mappable c s.map (s.map.object o) answers) ∧
      (lowAreaPin = true → (s.map.object o).pinVirtAddress = 0 →
        lowAnswer ≠ 0 ∧ ∀ x < (s.map.object o).alignedSize, s.map.gmmu (lowAnswer + x) = none)
  | .unpinHandle _ => True
  | .freeHandle id internalSession => ∀ o, s.map.handles id = some o → internalSession = false →
      (s.map.object o).dupes = 1 → (s.map.object o).internalDupes ≠ 0 → (s.map.object o).pins = 0

/-! ## The accounts -/

def Handle.Referenced (h : Handle) : Prop := 0 < h.dupes ∨ 0 < h.internalDupes

/-- The counts of a handle, and its place in the queue. -/
structure Counted (m : NvMap) (o : Nat) : Prop where
  queue : o ∈ m.unmapQueue ↔ (m.object o).pins = 0 ∧ (m.object o).dAddress ≠ 0
  entry : (m.object o).unmapQueueEntry = true ↔ o ∈ m.unmapQueue
  pins : 0 ≤ (m.object o).pins
  pinned : (m.object o).pins ≠ 0 → (m.object o).dAddress ≠ 0
  dupes : 0 ≤ (m.object o).dupes
  internalDupes : 0 ≤ (m.object o).internalDupes

/-- The table has the handle under its id, as long as there are references. -/
def Tabled (m : NvMap) (o : Nat) : Prop :=
  ∀ id, m.handles id = some o ↔ (m.object o).id = id ∧ (m.object o).Referenced

structure Books (m : NvMap) : Prop where
  counted : ∀ o, Counted m o
  nodup : m.unmapQueue.Nodup
  tabled : ∀ o, Tabled m o

/-- The counts of a handle are those of its history; a handle without references may have lost its
pins. -/
structure Tallied (s : Traced) (o : Nat) : Prop where
  outstanding : (s.map.object o).Referenced ∨ s.map.created ≤ o →
    s.outstanding o = (s.map.object o).pins
  guestRefs : s.guestRefs o = (s.map.object o).dupes
  internalRefs : s.internalRefs o = (s.map.object o).internalDupes

/-- The state after a run of sound steps. -/
structure Inv (c : Sessions) (s : Traced) : Prop where
  mappings : Mappings c s.map
  books : Books s.map
  tallied : ∀ o, Tallied s o

variable {c : Sessions} {m m' : NvMap} {s : Traced} {o o' id address : Nat} {h : Handle}

theorem initial_inv (c : Sessions) : Inv c Traced.initial where
  mappings := initial_mappings c
  books :=
    { counted := fun _ => ⟨by simp [Traced.initial, initial, blank],
        by simp [Traced.initial, initial, blank], le_refl _,
        fun hne => absurd rfl hne, le_refl _, le_refl _⟩
      nodup := List.nodup_nil
      tabled := fun _ _ => ⟨fun hsome => absurd hsome (by simp [Traced.initial, initial]),
        fun href => absurd href.2 (by
          simp [Handle.Referenced, Traced.initial, initial, blank])⟩ }
  tallied _ := ⟨fun _ => rfl, rfl, rfl⟩

theorem Inv.accounted (hi : Inv c s) : Accounted c s where
  queue o := (hi.books.counted o).queue
  nodup := hi.books.nodup
  pins o := (hi.books.counted o).pins
  table o := by
    rw [hi.books.tabled o, (hi.tallied o).guestRefs, (hi.tallied o).internalRefs]
    exact ⟨fun h => h.2, fun h => ⟨rfl, h⟩⟩
  live o hd := hi.mappings.liveAt hd

theorem Counted.congr (hc : Counted m o) (hobject : m'.object o = m.object o)
    (hqueue : o ∈ m'.unmapQueue ↔ o ∈ m.unmapQueue) : Counted m' o := by
  refine ⟨?_, ?_, ?_, ?_, ?_, ?_⟩
  · rw [hqueue, hobject]
    exact hc.queue
  · rw [hqueue, hobject]
    exact hc.entry
  · rw [hobject]
    exact hc.pins
  · rw [hobject]
    exact hc.pinned
  · rw [hobject]
    exact hc.dupes
  · rw [hobject]
    exact hc.internalDupes

theorem Tabled.congr (ht : Tabled m o) (hid : (m'.object o).id = (m.object o).id)
    (href : (m'.object o).Referenced ↔ (m.object o).Referenced)
    (hhandles : ∀ id, m'.handles id = some o ↔ m.handles id = some o) : Tabled m' o := by
  intro id
  rw [hhandles, ht id, hid, href]

/-- A step that changes one handle, and its own places in the queue and in the table. -/
theorem Books.update (hb : Books m) (hobject : ∀ o' ≠ o, m'.object o' = m.object o')
    (hqueue : ∀ o' ≠ o, o' ∈ m'.unmapQueue ↔ o' ∈ m.unmapQueue) (hnodup : m'.unmapQueue.Nodup)
    (hhandles : ∀ id, ∀ o' ≠ o, m'.handles id = some o' ↔ m.handles id = some o')
    (hcounted : Counted m' o) (htabled : Tabled m' o) : Books m' := by
  refine ⟨fun o' => ?_, hnodup, fun o' => ?_⟩
  · by_cases hne : o' = o
    · rw [hne]
      exact hcounted
    · exact (hb.counted o').congr (hobject o' hne) (hqueue o' hne)
  · by_cases hne : o' = o
    · rw [hne]
      exact htabled
    · refine (hb.tabled o').congr ?_ ?_ fun id => hhandles id o' hne
      · rw [hobject o' hne]
      · rw [hobject o' hne]

/-- A step that leaves the queue and the table as they are. -/
theorem Books.of_same (hb : Books m) (hobject : ∀ o' ≠ o, m'.object o' = m.object o')
    (hqueue : m'.unmapQueue = m.unmapQueue) (hhandles : m'.handles = m.handles)
    (hcounted : Counted m' o) (hid : (m'.object o).id = (m.object o).id)
    (href : (m'.object o).Referenced ↔ (m.object o).Referenced) : Books m' :=
  hb.update hobject (fun o' _ => by rw [hqueue]) (by rw [hqueue]; exact hb.nodup)
    (fun id o' _ => by rw [hhandles]) hcounted
    ((hb.tabled o).congr hid href fun id => by rw [hhandles])

theorem Books.referenced (hb : Books m) (ho : m.handles id = some o) : (m.object o).Referenced :=
  ((hb.tabled o id).mp ho).2

theorem Books.id_eq (hb : Books m) (ho : m.handles id = some o) : (m.object o).id = id :=
  ((hb.tabled o id).mp ho).1

theorem lt_created (hm : Mappings c m) (hb : Books m) (ho : m.handles id = some o) :
    o < m.created := by
  refine hm.lt_created fun hblank => ?_
  have href := hb.referenced ho
  rw [hblank] at href
  exact href.elim (fun h => absurd h (lt_irrefl 0)) fun h => absurd h (lt_irrefl 0)

/-- A step about one handle. -/
theorem Inv.update {s' : Traced} (hi : Inv c s) (hmappings : Mappings c s'.map)
    (hbooks : Books s'.map) (hcreated : s.map.created ≤ s'.map.created)
    (hobject : ∀ o' ≠ o, s'.map.object o' = s.map.object o')
    (houtstanding : ∀ o' ≠ o, s'.outstanding o' = s.outstanding o')
    (hguest : ∀ o' ≠ o, s'.guestRefs o' = s.guestRefs o')
    (hinternal : ∀ o' ≠ o, s'.internalRefs o' = s.internalRefs o') (hself : Tallied s' o) :
    Inv c s' := by
  refine ⟨hmappings, hbooks, fun o' => ?_⟩
  by_cases hne : o' = o
  · rw [hne]
    exact hself
  · have ht := hi.tallied o'
    refine ⟨fun href => ?_, ?_, ?_⟩
    · rw [hobject o' hne] at href ⊢
      rw [houtstanding o' hne]
      exact ht.outstanding (href.imp_right hcreated.trans)
    · rw [hobject o' hne, hguest o' hne]
      exact ht.guestRefs
    · rw [hobject o' hne, hinternal o' hne]
      exact ht.internalRefs

theorem count_of_ne {counts : Nat → Int} {k : Int} (hne : o' ≠ o) :
    count (some o) k counts o' = counts o' := update_of_ne hne _ _

theorem count_self {counts : Nat → Int} {k : Int} : count (some o) k counts o = counts o + k :=
  update_self _ _ _

/-! ## Creating, allocating and duplicating -/

theorem not_referenced_blank : ¬blank.Referenced := fun href =>
  href.elim (fun h => absurd h (lt_irrefl 0)) fun h => absurd h (lt_irrefl 0)

/-- The table and the queue after a handle has been made whose id is not in use. -/
theorem Books.createHandle {size : Nat} (hb : Books m) (hblank : m.object m.created = blank)
    (hsize : size ≠ 0) (hfree : m.handles m.nextHandleId = none) :
    Books (m.createHandle size).2 := by
  have hobject : (m.createHandle size).2.object =
      Function.update m.object m.created (new size m.nextHandleId) := by
    rw [NvMap.createHandle, if_neg hsize]
  have hqueue : (m.createHandle size).2.unmapQueue = m.unmapQueue := by
    rw [NvMap.createHandle, if_neg hsize]
  have hhandles : (m.createHandle size).2.handles =
      Function.update m.handles m.nextHandleId (some m.created) := by
    rw [NvMap.createHandle, if_neg hsize, if_pos hfree]
  have hself : (m.createHandle size).2.object m.created = new size m.nextHandleId := by
    rw [hobject, update_self]
  have hnotQueued : m.created ∉ m.unmapQueue := by
    rw [(hb.counted _).queue, hblank]
    exact fun h => h.2 rfl
  refine hb.update (o := m.created) (fun o' hne => ?_) (fun o' _ => by rw [hqueue])
    (by rw [hqueue]; exact hb.nodup) (fun id o' hne => ?_) ?_ fun id => ?_
  · rw [hobject, update_of_ne hne]
  · rw [hhandles]
    by_cases hid : id = m.nextHandleId
    · subst hid
      simp [hfree, Ne.symm hne]
    · rw [update_of_ne hid]
  · refine ⟨?_, ?_, ?_, ?_, ?_, ?_⟩ <;>
      simp [hself, hqueue, new, blank, hnotQueued]
  · rw [hhandles, hself]
    by_cases hid : id = m.nextHandleId
    · subst hid
      simp [new, Handle.Referenced]
    · have hnone : m.handles id ≠ some m.created := fun hsome => by
        have href := hb.referenced hsome
        rw [hblank] at href
        exact not_referenced_blank href
      simp [update_of_ne hid, hnone, new, Ne.symm hid]

theorem createHandle_inv (hi : Inv c s) (size : Nat) (hs : Sound c s (.createHandle size)) :
    Inv c (step c s (.createHandle size)) := by
  by_cases hsize : size = 0
  · have hmap : s.map.createHandle size = (none, s.map) := if_pos hsize
    have hstep : step c s (.createHandle size) = s := by rw [step, hmap]; rfl
    rwa [hstep]
  have hblank := hi.mappings.blank s.map.created (le_refl _)
  have htallied := hi.tallied s.map.created
  have hbooks := hi.books.createHandle hblank hsize (hs hsize)
  have hmappings : Mappings c (s.map.createHandle size).2 := by
    rw [NvMap.createHandle, if_neg hsize]
    exact hi.mappings.grow.of_unmapped rfl rfl (Nat.lt_succ_self _) rfl rfl rfl
      (by rw [hblank]; rfl) ⟨rfl, rfl, rfl⟩
  have hobject : (s.map.createHandle size).2.object =
      Function.update s.map.object s.map.created (new size s.map.nextHandleId) := by
    rw [NvMap.createHandle, if_neg hsize]
  have hguest : (step c s (.createHandle size)).guestRefs =
      count (some s.map.created) 1 s.guestRefs := by
    rw [step, NvMap.createHandle, if_neg hsize]
  have hself : (step c s (.createHandle size)).map.object s.map.created =
      new size s.map.nextHandleId := by
    rw [step, hobject, update_self]
  have hcreated : (step c s (.createHandle size)).map.created = s.map.created + 1 := by
    rw [step, NvMap.createHandle, if_neg hsize]
  refine hi.update (o := s.map.created) hmappings hbooks (by omega) (fun o' hne => ?_)
    (fun _ _ => rfl) (fun o' hne => ?_) (fun _ _ => rfl) ⟨fun _ => ?_, ?_, ?_⟩
  · rw [step, hobject, update_of_ne hne]
  · rw [hguest, count_of_ne hne]
  · rw [hself]
    exact (htallied.outstanding (.inr (le_refl _))).trans (by rw [hblank]; rfl)
  · rw [hself, hguest, count_self, htallied.guestRefs, hblank]
    rfl
  · rw [hself]
    exact htallied.internalRefs.trans (by rw [hblank]; rfl)

/-- A call about a handle that the table does not have leaves everything as it is. -/
theorem getHandle_none (hnone : m.handles id = none) : m.getHandle id = none := by
  rw [getHandle, hnone]
  rfl

theorem getHandle_some (ho : m.handles id = some o) : m.getHandle id = some (o, m.object o) := by
  rw [getHandle, ho]
  rfl

@[simp] theorem setObject_object_self : (m.setObject o h).object o = h :=
  update_self _ _ _

theorem setObject_object_of_ne (hne : o' ≠ o) : (m.setObject o h).object o' = m.object o' :=
  update_of_ne hne _ _

theorem Counted.setObject (hc : Counted m o) (hpins : h.pins = (m.object o).pins)
    (hd : h.dAddress = (m.object o).dAddress)
    (hentry : h.unmapQueueEntry = (m.object o).unmapQueueEntry) (hdupes : 0 ≤ h.dupes)
    (hinternal : 0 ≤ h.internalDupes) : Counted (m.setObject o h) o := by
  refine ⟨?_, ?_, ?_, ?_, ?_, ?_⟩
  · rw [setObject_object_self, hpins, hd]
    exact hc.queue
  · rw [setObject_object_self, hentry]
    exact hc.entry
  · rw [setObject_object_self, hpins]
    exact hc.pins
  · rw [setObject_object_self, hpins, hd]
    exact hc.pinned
  · rwa [setObject_object_self]
  · rwa [setObject_object_self]

/-- A second call of `Alloc` changes nothing, and the first one sets what is read when the handle is
mapped. -/
theorem Handle.alloc_cases (h : Handle) (p : AllocParams) :
    (h.allocated = true ∧ (h.alloc p).2 = h) ∨
    (h.allocated = false ∧ (h.alloc p).2.id = h.id ∧ (h.alloc p).2.dupes = h.dupes ∧
      (h.alloc p).2.internalDupes = h.internalDupes ∧ (h.alloc p).2.pins = h.pins ∧
      (h.alloc p).2.unmapQueueEntry = h.unmapQueueEntry ∧ (h.alloc p).2.dAddress = h.dAddress ∧
      (h.alloc p).2.inHeap = h.inHeap ∧ (h.alloc p).2.pinVirtAddress = h.pinVirtAddress) := by
  cases hallocated : h.allocated with
  | true => exact .inl ⟨rfl, by rw [Handle.alloc, if_pos hallocated]⟩
  | false =>
    have hfirst : ¬h.allocated = true := by rw [hallocated]; exact Bool.false_ne_true
    refine .inr ⟨rfl, ?_, ?_, ?_, ?_, ?_, ?_, ?_, ?_⟩ <;> rw [Handle.alloc, if_neg hfirst]

theorem alloc_inv {p : AllocParams} (hi : Inv c s) (hs : Sound c s (.alloc id p)) :
    Inv c (step c s (.alloc id p)) := by
  cases ho : s.map.handles id with
  | none =>
    have hstep : step c s (.alloc id p) = s := by
      rw [step, allocHandle, getHandle_none ho]
    rwa [hstep]
  | some o =>
    have hmap : s.map.allocHandle id p = s.map.setObject o ((s.map.object o).alloc p).2 := by
      rw [allocHandle, getHandle_some ho]
    have hlt := lt_created hi.mappings hi.books ho
    have ht := hi.tallied o
    have hc := hi.books.counted o
    rw [step, hmap]
    rcases (s.map.object o).alloc_cases p with ⟨_, hsame⟩ |
      ⟨hnew, hid, hdupes, hinternal, hpins, hentry, hd, hheap, hlow⟩
    · rw [hsame, setObject, update_eq_self]
      exact hi
    · have hzero := hs o ho hnew
      have hu := hi.mappings.unmapped hzero
      have href : ((s.map.object o).alloc p).2.Referenced ↔ (s.map.object o).Referenced := by
        rw [Handle.Referenced, Handle.Referenced, hdupes, hinternal]
      refine hi.update (o := o)
        (hi.mappings.of_unmapped rfl rfl hlt rfl rfl rfl hzero
          ⟨hd.trans hzero, hheap.trans hu.inHeap, hlow.trans hu.pinVirtAddress⟩)
        (hi.books.of_same (fun o' hne => setObject_object_of_ne hne) rfl rfl
          (hc.setObject hpins hd hentry (by rw [hdupes]; exact hc.dupes)
            (by rw [hinternal]; exact hc.internalDupes)) ?_ ?_) (le_refl _)
        (fun o' hne => setObject_object_of_ne hne) (fun _ _ => rfl) (fun _ _ => rfl)
        (fun _ _ => rfl) ⟨fun _ => ?_, ?_, ?_⟩
      · rw [setObject_object_self, hid]
      · rw [setObject_object_self, href]
      · rw [setObject_object_self, hpins]
        exact ht.outstanding (.inl (hi.books.referenced ho))
      · rw [setObject_object_self, hdupes]
        exact ht.guestRefs
      · rw [setObject_object_self, hinternal]
        exact ht.internalRefs

theorem duplicateHandle_inv {internalSession : Bool} (hi : Inv c s) :
    Inv c (step c s (.duplicateHandle id internalSession)) := by
  cases ho : s.map.handles id with
  | none =>
    have hstep : step c s (.duplicateHandle id internalSession) = s := by
      rw [step, duplicateHandle, getHandle_none ho, ho]
      cases internalSession with
      | false => rfl
      | true => rfl
    rwa [hstep]
  | some o =>
    have hlt := lt_created hi.mappings hi.books ho
    have ht := hi.tallied o
    have hc := hi.books.counted o
    have href := hi.books.referenced ho
    rw [step, duplicateHandle, getHandle_some ho, ho, Option.filter_some]
    cases hallocated : (s.map.object o).allocated with
    | false =>
      have hsame : ((s.map.object o).duplicate internalSession).2 = s.map.object o := by
        rw [duplicate, hallocated]
        rfl
      simp only [hsame, setObject, update_eq_self, count, Bool.false_eq_true,
        if_false, ite_self]
      exact hi
    | true =>
      have hdup : ((s.map.object o).duplicate internalSession).2 =
          if internalSession then
            { s.map.object o with internalDupes := (s.map.object o).internalDupes + 1 }
          else { s.map.object o with dupes := (s.map.object o).dupes + 1 } := by
        rw [duplicate, if_neg (by rw [hallocated]; exact Bool.false_ne_true)]
        cases internalSession with
        | false => rfl
        | true => rfl
      have hdupes := hc.dupes
      have hinternal := hc.internalDupes
      rw [if_pos rfl]
      cases internalSession with
      | true =>
        simp only [hdup, if_true]
        refine hi.update (o := o) (hi.mappings.of_sameExtent rfl rfl hlt rfl rfl rfl
            ⟨rfl, rfl, rfl, rfl, rfl, rfl⟩)
          (hi.books.of_same (fun o' hne => setObject_object_of_ne hne) rfl rfl
            (hc.setObject rfl rfl rfl hdupes (by simp only; omega)) ?_ ?_) (le_refl _)
          (fun o' hne => setObject_object_of_ne hne) (fun _ _ => rfl) (fun _ _ => rfl)
          (fun o' hne => count_of_ne hne) ⟨fun _ => ?_, ?_, ?_⟩
        · rw [setObject_object_self]
        · rw [setObject_object_self]
          exact ⟨fun _ => href, fun _ => .inr (by simp only; omega)⟩
        · rw [setObject_object_self]
          exact ht.outstanding (.inl href)
        · rw [setObject_object_self]
          exact ht.guestRefs
        · rw [setObject_object_self]
          exact count_self.trans (congrArg (· + 1) ht.internalRefs)
      | false =>
        simp only [hdup, Bool.false_eq_true, if_false]
        refine hi.update (o := o) (hi.mappings.of_sameExtent rfl rfl hlt rfl rfl rfl
            ⟨rfl, rfl, rfl, rfl, rfl, rfl⟩)
          (hi.books.of_same (fun o' hne => setObject_object_of_ne hne) rfl rfl
            (hc.setObject rfl rfl rfl (by simp only; omega) hinternal) ?_ ?_) (le_refl _)
          (fun o' hne => setObject_object_of_ne hne) (fun _ _ => rfl)
          (fun o' hne => count_of_ne hne) (fun _ _ => rfl) ⟨fun _ => ?_, ?_, ?_⟩
        · rw [setObject_object_self]
        · rw [setObject_object_self]
          exact ⟨fun _ => href, fun _ => .inl (by simp only; omega)⟩
        · rw [setObject_object_self]
          exact ht.outstanding (.inl href)
        · rw [setObject_object_self]
          exact count_self.trans (congrArg (· + 1) ht.guestRefs)
        · rw [setObject_object_self]
          exact ht.internalRefs

/-! ## Unpinning -/

theorem unpinHandle_inv (hi : Inv c s) (hbalanced : Balanced s (.unpinHandle id)) :
    Inv c (step c s (.unpinHandle id)) := by
  cases ho : s.map.handles id with
  | none =>
    have hstep : step c s (.unpinHandle id) = s := by
      rw [step, unpinHandle, getHandle_none ho, ho]
      rfl
    rwa [hstep]
  | some o =>
    have hlt := lt_created hi.mappings hi.books ho
    have href := hi.books.referenced ho
    have ht := hi.tallied o
    have hc := hi.books.counted o
    have htally := ht.outstanding (.inl href)
    have hpositive : 0 < (s.map.object o).pins := by
      rw [← htally]
      exact hbalanced o ho
    have hnotQueued : o ∉ s.map.unmapQueue := by
      rw [hc.queue]
      omega
    rw [step, unpinHandle, getHandle_some ho, ho]
    by_cases hlast : (s.map.object o).pins - 1 = 0
    · simp only [if_pos hlast]
      refine hi.update (o := o) (hi.mappings.of_sameExtent rfl rfl hlt rfl rfl rfl
          ⟨rfl, rfl, rfl, rfl, rfl, rfl⟩)
        (hi.books.update (o := o) (fun o' hne => update_of_ne hne _ _)
          (fun o' hne => ?_) ?_ (fun _ _ _ => .rfl) ?_ ((hi.books.tabled o).congr ?_ ?_
            fun _ => .rfl)) (le_refl _)
        (fun o' hne => update_of_ne hne _ _) (fun o' hne => count_of_ne hne)
        (fun _ _ => rfl) (fun _ _ => rfl) ⟨fun _ => ?_, ?_, ?_⟩
      · simp [hne]
      · exact hi.books.nodup.append (List.nodup_singleton o) (by simpa using hnotQueued)
      · refine ⟨?_, ?_, ?_, ?_, ?_, ?_⟩
        · simpa [hlast] using hc.pinned (ne_of_gt hpositive)
        · simp
        · simp [hlast]
        · simp [hlast]
        · simpa using hc.dupes
        · simpa using hc.internalDupes
      · simp
      · simp [Handle.Referenced]
      · simp only [update_self]
        exact count_self.trans (congrArg (· + -1) htally)
      · simpa using ht.guestRefs
      · simpa using ht.internalRefs
    · simp only [if_neg hlast]
      refine hi.update (o := o) (hi.mappings.of_sameExtent rfl rfl hlt rfl rfl rfl
          ⟨rfl, rfl, rfl, rfl, rfl, rfl⟩)
        (hi.books.of_same (fun o' hne => setObject_object_of_ne hne) rfl rfl
          ⟨?_, ?_, ?_, ?_, ?_, ?_⟩ ?_ ?_) (le_refl _)
        (fun o' hne => setObject_object_of_ne hne) (fun o' hne => count_of_ne hne)
        (fun _ _ => rfl) (fun _ _ => rfl) ⟨fun _ => ?_, ?_, ?_⟩
      · rw [setObject_object_self]
        exact ⟨fun hmem => absurd hmem hnotQueued, fun h => absurd h.1 hlast⟩
      · rw [setObject_object_self]
        exact hc.entry
      · rw [setObject_object_self]
        simp only
        omega
      · rw [setObject_object_self]
        exact fun _ => hc.pinned (ne_of_gt hpositive)
      · rw [setObject_object_self]
        exact hc.dupes
      · rw [setObject_object_self]
        exact hc.internalDupes
      · rw [setObject_object_self]
      · rw [setObject_object_self, Handle.Referenced, Handle.Referenced]
      · rw [setObject_object_self]
        exact count_self.trans (congrArg (· + -1) htally)
      · rw [setObject_object_self]
        exact ht.guestRefs
      · rw [setObject_object_self]
        exact ht.internalRefs

end Sudachi.Service.Nvdrv
