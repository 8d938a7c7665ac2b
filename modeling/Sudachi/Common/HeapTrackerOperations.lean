import Sudachi.Common.HeapTrackerPages

/-!
# The operations of the heap tracker

What each operation makes of the recorded pages: a mapping that enters or leaves the host address
space leaves them as they are, `Map` and `Unmap` set and clear them, and `Protect` changes the
permission of those in its range.
-/

set_option autoImplicit false

namespace Sudachi.Common

open Sudachi.Foundations List Function

namespace HeapTracker

variable {bal : SearchTree.Balancing Nat} {s s' : HeapTracker} {l r : List Nat} {a b id : Nat}
variable {x v : Nat} {h : SeparateHeapMap} {pages pages' : Nat → Option HeapEntry}

/-- A change of the host address space outside of the mappings. -/
theorem Records.of_buffer (hr : s.Records pages) {buffer : Nat → Option HeapEntry}
    (hbuffer : ∀ a ∈ s.mappings.toList, ∀ v, (s.item a).Covers v → buffer v = s.buffer v) :
    Records { s with buffer := buffer } pages where
  trees := { hr.trees with }
  covered := hr.covered
  exact := hr.exact
  hosted a ha v hv := (hbuffer a ha v hv).trans (hr.hosted a ha v hv)

/-- One mapping changes in place, and with it the pages that it covers. -/
theorem Records.updateItem (hr : s.Records pages) (hid : id ∈ s.mappings.toList)
    (hmappings : s'.mappings = s.mappings) (hcreated : s'.created = s.created)
    (hitem : s'.item = update s.item id h)
    (hplace : h.vaddr = (s.item id).vaddr ∧ h.size = (s.item id).size)
    (hresident : ∀ a, a ∈ s'.residentMappings.toList ↔
      a ∈ s.mappings.toList ∧ (s'.item a).isResident = true)
    (hordered : s'.residentMappings.toList.Pairwise fun a b => (s'.item a).key < (s'.item b).key)
    (hcount : s'.residentMapCount = s'.residentMappings.toList.length)
    (hcovered : ∀ v, h.Covers v → pages' v = some (h.paddr + (v - h.vaddr), h.perm))
    (hpages : ∀ v, ¬h.Covers v → pages' v = pages v)
    (hhosted : ∀ v, h.Covers v → s'.buffer v = if h.isResident then pages' v else none)
    (hbuffer : ∀ v, ¬h.Covers v → s'.buffer v = s.buffer v) : s'.Records pages' := by
  have hself : s'.item id = h := by rw [hitem, update_self]
  have hother (a) (ha : a ≠ id) : s'.item a = s.item a := by rw [hitem, update_of_ne ha]
  have hshape (a) : (s'.item a).vaddr = (s.item a).vaddr ∧ (s'.item a).size = (s.item a).size := by
    by_cases ha : a = id
    · rw [ha, hself]
      exact hplace
    · rw [hother a ha]
      exact ⟨rfl, rfl⟩
  have hcovers (v) : h.Covers v ↔ (s.item id).Covers v := by
    rw [SeparateHeapMap.Covers, SeparateHeapMap.Covers, hplace.1, hplace.2]
  have hapart (a) (hmem : a ∈ s.mappings.toList) (ha : a ≠ id) (v) (hv : (s.item a).Covers v) :
      ¬h.Covers v := fun hv' => ha (hr.trees.unique hmem hid hv ((hcovers v).mp hv'))
  refine ⟨⟨fun a ha => ?_, ?_, fun a ha => ?_, fun a => ?_, hordered, hcount⟩, fun a ha v hv => ?_,
    fun v hv => ?_, fun a ha v hv => ?_⟩
  · rw [hmappings] at ha
    rw [SeparateHeapMap.Sized, (hshape a).1, (hshape a).2]
    exact hr.trees.sized a ha
  · rw [hmappings]
    refine hr.trees.sorted.imp fun {a b} hab => ?_
    rwa [(hshape a).1, (hshape a).2, (hshape b).1]
  · rw [hmappings] at ha
    rw [hcreated]
    exact hr.trees.created a ha
  · rw [hmappings]
    exact hresident a
  · rw [hmappings] at ha
    by_cases hne : a = id
    · rw [hne, hself] at hv ⊢
      exact hcovered v hv
    · rw [hother a hne] at hv ⊢
      rw [hpages v (hapart a ha hne v hv)]
      exact hr.covered a ha v hv
  · rw [hmappings]
    by_cases hin : h.Covers v
    · exact ⟨id, hid, by rwa [hself]⟩
    · rw [hpages v hin] at hv
      obtain ⟨a, ha, hcov⟩ := hr.exact v hv
      have hne : a ≠ id := by
        rintro rfl
        exact hin ((hcovers v).mpr hcov)
      exact ⟨a, ha, by rwa [hother a hne]⟩
  · rw [hmappings] at ha
    by_cases hne : a = id
    · rw [hne, hself] at hv ⊢
      exact hhosted v hv
    · rw [hother a hne] at hv ⊢
      rw [hbuffer v (hapart a ha hne v hv), hpages v (hapart a ha hne v hv)]
      exact hr.hosted a ha v hv

/-! ## Eviction -/

variable (bal) in
/-- A resident mapping leaves the host address space. -/
theorem Records.evict (hr : s.Records pages) (hid : id ∈ s.residentMappings.toList)
    (hs' : s' = (((s.setItem id { s.item id with isResident := false }).bufferUnmap
      (s.item id).vaddr (s.item id).size).eraseResident bal id)) :
    s'.Records pages ∧ s'.residentMappings.toList = s.residentMappings.toList.erase id := by
  obtain ⟨hmem, -⟩ := (hr.trees.resident id).mp hid
  have hitem : s'.item = update s.item id { s.item id with isResident := false } := by
    rw [hs']
    rfl
  have hresidents : s'.residentMappings.toList = s.residentMappings.toList.erase id := by
    rw [hs']
    exact bal.toList_remove id s.residentMappings
  have hkey (a) : (s'.item a).key = (s.item a).key := by
    rw [hitem]
    by_cases ha : a = id
    · rw [ha, update_self]
      rfl
    · rw [update_of_ne ha]
  have hnodup := hr.trees.nodup_resident
  refine ⟨hr.updateItem hmem (by rw [hs']; rfl) (by rw [hs']; rfl) hitem ⟨rfl, rfl⟩
    (fun a => ?_) ?_ ?_ (fun v hv => hr.covered id hmem v hv) (fun _ _ => rfl) (fun v hv => ?_)
    (fun v hv => ?_), hresidents⟩
  · rw [hresidents, hnodup.mem_erase_iff, hr.trees.resident, hitem]
    by_cases ha : a = id
    · simp [ha]
    · simp [ha]
  · rw [hresidents]
    refine (hr.trees.ordered.sublist erase_sublist).imp fun {a b} hab => ?_
    rwa [hkey a, hkey b]
  · have hcount : s'.residentMapCount = s.residentMapCount - 1 := by
      rw [hs']
      rfl
    have hpos := length_pos_of_mem hid
    rw [hcount, hresidents, hr.trees.count, length_erase_of_mem hid]
    omega
  · rw [hs']
    exact if_pos hv
  · rw [hs']
    exact if_neg hv

theorem Records.evictLoop {ids : List Nat} (hr : s.Records pages) (hnodup : ids.Nodup)
    (hids : ∀ id ∈ ids, id ∈ s.residentMappings.toList) : (s.evictLoop bal ids).Records pages := by
  induction ids generalizing s with
  | nil => exact hr
  | cons id ids ih =>
    obtain ⟨hhead, htail⟩ := nodup_cons.mp hnodup
    obtain ⟨hnext, hresidents⟩ := hr.evict bal (hids id (by simp)) rfl
    refine ih hnext htail fun other hother => ?_
    rw [hresidents]
    refine (mem_erase_of_ne ?_).mpr (hids other (by simp [hother]))
    rintro rfl
    exact hhead hother

theorem Records.rebuild (hr : s.Records pages) :
    (s.rebuildSeparateHeapAddressSpace bal).Records pages :=
  hr.evictLoop (hr.trees.nodup_resident.sublist (take_sublist _ _))
    fun _ hid => mem_of_mem_take hid

/-! ## Mapping -/

variable (bal) in
/-- A mapping comes into the host address space and into the second tree. -/
theorem Records.makeResident (hr : s.Records pages) (hid : id ∈ s.mappings.toList)
    (hout : ¬(s.item id).isResident = true) (tick : Nat)
    (hs' : s' = ((s.bufferMap (s.item id).vaddr (s.item id).paddr (s.item id).size
      (s.item id).perm).setItem id
        { s.item id with tick := tick, isResident := true }).insertResident bal id) : s'.Records pages := by
  have hmem (b) (hb : b ∈ s.residentMappings.toList) := (hr.trees.resident b).mp hb
  have hne (b) (hb : b ∈ s.residentMappings.toList) : b ≠ id := by
    rintro rfl
    exact hout (hmem b hb).2
  obtain ⟨s₁, hs₁⟩ : ∃ s₁, s₁ = (s.bufferMap (s.item id).vaddr (s.item id).paddr (s.item id).size
      (s.item id).perm).setItem id { s.item id with tick := tick, isResident := true } := ⟨_, rfl⟩
  have hitem : s₁.item = update s.item id
      { s.item id with tick := tick, isResident := true } := by
    rw [hs₁]
    rfl
  have hresidents : s₁.residentMappings = s.residentMappings := by
    rw [hs₁]
    rfl
  have hother (b) (hb : b ∈ s.residentMappings.toList) : s₁.item b = s.item b := by
    rw [hitem, update_of_ne (hne b hb)]
  have hself : s₁.item id = { s.item id with tick := tick, isResident := true } := by
    rw [hitem, update_self]
  have hordered : s₁.residentMappings.toList.Pairwise
      fun a b => (s₁.item a).key < (s₁.item b).key := by
    rw [hresidents]
    refine hr.trees.ordered.imp_of_mem fun ha hb hab => ?_
    rwa [hother _ ha, hother _ hb]
  have hsized := hr.trees.sized id hid
  obtain ⟨hperm, hpairwise⟩ := insertResident_spec bal hordered
    (fun b hb => by
      rw [hresidents] at hb
      rw [hother b hb]
      exact hr.trees.sized b (hmem b hb).1)
    (fun b hb hcovers => by
      rw [hresidents] at hb
      rw [hother b hb, hself] at hcovers
      refine hne b hb (hr.trees.unique (hmem b hb).1 hid hcovers ⟨le_refl _, ?_⟩)
      have := hsized.1
      simp only
      omega)
  rw [← hs₁] at hs'
  rw [hresidents] at hperm
  have hitem' : s'.item = s₁.item := by
    rw [hs']
    rfl
  have hbuffer : s'.buffer = (s.bufferMap (s.item id).vaddr (s.item id).paddr (s.item id).size
      (s.item id).perm).buffer := by
    rw [hs', hs₁]
    rfl
  have hlist : s'.residentMappings = (s₁.insertResident bal id).residentMappings := by rw [hs']
  refine hr.updateItem hid (by rw [hs', hs₁]; rfl) (by rw [hs', hs₁]; rfl) (hitem'.trans hitem)
    ⟨rfl, rfl⟩ (fun a => ?_) ?_ ?_ (fun v hv => hr.covered id hid v hv) (fun _ _ => rfl)
    (fun v hv => ?_) (fun v hv => ?_)
  · rw [hlist, hperm.mem_iff, mem_cons, hr.trees.resident, hitem', hitem]
    by_cases ha : a = id
    · simp [ha, hid]
    · simp [ha]
  · rw [hlist, hitem']
    exact hpairwise
  · have hcount : s'.residentMapCount = s.residentMapCount + 1 := by
      rw [hs', hs₁]
      rfl
    rw [hcount, hlist, hperm.length_eq, hr.trees.count]
    simp
  · rw [hbuffer, hr.covered id hid v hv]
    exact if_pos hv
  · rw [hbuffer]
    exact if_neg hv

theorem Records.withTick (hr : s.Records pages) (tick : Nat) :
    Records { s with tick := tick } pages where
  trees := { hr.trees with }
  covered := hr.covered
  exact := hr.exact
  hosted := hr.hosted

theorem Records.deferredMap (hr : s.Records pages) (x : Nat) :
    (s.deferredMapSeparateHeap bal x).2.Records pages := by
  obtain ⟨l, covering, r, hsplit, hl, hcovering, hafter⟩ := hr.trees.cut x
  have hnearest := hr.trees.nearest_eq hsplit hl hcovering hafter
  rw [deferredMapSeparateHeap, hnearest]
  cases covering with
  | none => exact hr
  | some id =>
    have hid : id ∈ s.mappings.toList := by rw [hsplit]; simp
    by_cases hres : (s.item id).isResident = true
    · simp only [if_pos hres]
      exact hr
    · have hnext := (hr.withTick (s.tick + 1)).makeResident bal hid hres
        s.tick rfl
      simp only [if_neg hres]
      split
      next => exact hnext.rebuild
      next => exact hnext

/-- The pages after `Map`. -/
def mapPages (virtualOffset hostOffset length : Nat) (perm : MemoryPermission)
    (pages : Nat → Option HeapEntry) : Nat → Option HeapEntry := fun v =>
  if virtualOffset ≤ v ∧ v < virtualOffset + length then
    some (hostOffset + (v - virtualOffset), perm)
  else pages v

/-- The pages after `Unmap`. -/
def unmapPages (virtualOffset size : Nat) (pages : Nat → Option HeapEntry) :
    Nat → Option HeapEntry := fun v =>
  if virtualOffset ≤ v ∧ v < virtualOffset + size then none else pages v

/-- The pages after `Protect`. -/
def protectPages (virtualOffset size : Nat) (perm : MemoryPermission)
    (pages : Nat → Option HeapEntry) : Nat → Option HeapEntry := fun v =>
  if virtualOffset ≤ v ∧ v < virtualOffset + size then (pages v).map fun entry => (entry.1, perm)
  else pages v

/-- A range without pages lies outside of the mappings. -/
theorem Records.outside {offset size : Nat} (hr : s.Records pages)
    (hfree : ∀ v, offset ≤ v → v < offset + size → pages v = none) (ha : a ∈ s.mappings.toList)
    (hv : (s.item a).Covers v) : ¬(offset ≤ v ∧ v < offset + size) := by
  rintro ⟨hle, hlt⟩
  have hpage := hr.covered a ha v hv
  rw [hfree v hle hlt] at hpage
  exact absurd hpage (by simp)

variable (bal) in
/-- A new mapping of a range without pages. -/
theorem Records.insertNew {virtualOffset hostOffset length tick : Nat} {perm : MemoryPermission}
    (hr : s.Records pages) (hlength : 0 < length) (hbound : virtualOffset + length ≤ 2 ^ 64)
    (hfree : ∀ v, virtualOffset ≤ v → v < virtualOffset + length → pages v = none)
    (hempty : ∀ v, virtualOffset ≤ v → v < virtualOffset + length → s.buffer v = none)
    (hh : h = ⟨virtualOffset, hostOffset, length, tick, perm, false⟩)
    (hs' : s' = (s.newItem h).insertMapping bal s.created) :
    s'.Records (mapPages virtualOffset hostOffset length perm pages) ∧
      s.created ∈ s'.mappings.toList := by
  have hvaddr : h.vaddr = virtualOffset := by rw [hh]
  have hsize : h.size = length := by rw [hh]
  have hapart (a) (ha : a ∈ s.mappings.toList) (v) (hv : (s.item a).Covers v) :
      ¬(virtualOffset ≤ v ∧ v < virtualOffset + length) := hr.outside hfree ha hv
  have hother (a) (ha : a ∈ s.mappings.toList) : (s.newItem h).item a = s.item a :=
    update_of_ne (ne_of_lt (hr.trees.created a ha)) _ _
  have hself : (s.newItem h).item s.created = h := update_self _ _ _
  obtain ⟨l, covering, r, hsplit, hl, hcovering, hafter⟩ := hr.trees.cut virtualOffset
  obtain rfl : covering = none := by
    cases covering with
    | none => rfl
    | some a =>
      have ha : a ∈ s.mappings.toList := by rw [hsplit]; simp
      exact absurd ⟨le_refl _, by omega⟩ (hapart a ha _ (hcovering a rfl))
  have hbefore : s.mappings.toList = l ++ r := hsplit
  have hmem (b) : b ∈ s.mappings.toList ↔ b ∈ l ∨ b ∈ r := by rw [hbefore, mem_append]
  have hbehind (b) (hb : b ∈ r) : virtualOffset + length ≤ (s.item b).vaddr := by
    have hb' := (hmem b).mpr (.inr hb)
    have hpos := (hr.trees.sized b hb').1
    have hstart := hafter b hb
    by_contra hlt
    exact hapart b hb' (s.item b).vaddr ⟨le_refl _, by omega⟩ ⟨by omega, by omega⟩
  have hlist : s'.mappings.toList = l ++ s.created :: r := by
    rw [hs']
    refine toList_insertMapping bal _ hbefore (fun b hb => ?_) fun b hb => ?_
    · have hb' := (hmem b).mpr (.inl hb)
      rw [hself, hvaddr, hother b hb']
      exact (hr.trees.sized b hb').addrCompare_pos (hl b hb)
    · rw [hself, hvaddr, hother b ((hmem b).mpr (.inr hb))]
      exact SeparateHeapMap.addrCompare_neg (hafter b hb)
  have hitem : s'.item = (s.newItem h).item := by rw [hs']; rfl
  have hresidents : s'.residentMappings = s.residentMappings := by rw [hs']; rfl
  have hbuffer : s'.buffer = s.buffer := by rw [hs']; rfl
  have hcreated : s'.created = s.created + 1 := by rw [hs']; rfl
  have hcount : s'.residentMapCount = s.residentMapCount := by rw [hs']; rfl
  have hmem' (a) : a ∈ s'.mappings.toList ↔ a = s.created ∨ a ∈ s.mappings.toList := by
    rw [hlist, hmem, mem_append, mem_cons]
    tauto
  refine ⟨⟨⟨fun a ha => ?_, ?_, fun a ha => ?_, fun a => ?_, ?_, ?_⟩, fun a ha v hv => ?_,
    fun v hv => ?_, fun a ha v hv => ?_⟩, (hmem' _).mpr (.inl rfl)⟩
  · rw [hitem]
    rcases (hmem' a).mp ha with rfl | ha
    · rw [hself, SeparateHeapMap.Sized, hvaddr, hsize]
      exact ⟨hlength, hbound⟩
    · rw [hother a ha]
      exact hr.trees.sized a ha
  · have hsorted := hr.trees.sorted
    rw [hbefore, pairwise_append] at hsorted
    obtain ⟨hl', hr', hlr⟩ := hsorted
    have hsame (b) (hb : b ∈ l ∨ b ∈ r) := hother b ((hmem b).mpr hb)
    rw [hlist, hitem, pairwise_append, pairwise_cons]
    refine ⟨hl'.imp_of_mem fun ha hb hab => ?_, ⟨fun b hb => ?_,
      hr'.imp_of_mem fun ha hb hab => ?_⟩, fun a ha b hb => ?_⟩
    · rwa [hsame _ (.inl ha), hsame _ (.inl hb)]
    · rw [hself, hvaddr, hsize, hsame b (.inr hb)]
      exact hbehind b hb
    · rwa [hsame _ (.inr ha), hsame _ (.inr hb)]
    · rw [hsame a (.inl ha)]
      rcases mem_cons.mp hb with rfl | hb
      · rw [hself, hvaddr]
        exact hl a ha
      · rw [hsame b (.inr hb)]
        exact hlr a ha b hb
  · rw [hcreated]
    rcases (hmem' a).mp ha with rfl | ha
    · exact Nat.lt_succ_self _
    · exact Nat.lt_succ_of_lt (hr.trees.created a ha)
  · rw [hresidents, hr.trees.resident, hmem', hitem]
    by_cases hnew : a = s.created
    · rw [hnew, hself, hh]
      have hnot : s.created ∉ s.mappings.toList := fun hin =>
        lt_irrefl _ (hr.trees.created _ hin)
      simp [hnot]
    · by_cases ha : a ∈ s.mappings.toList
      · simp [hother a ha, ha]
      · simp [hnew, ha]
  · rw [hresidents, hitem]
    refine hr.trees.ordered.imp_of_mem fun ha hb hab => ?_
    rwa [hother _ ((hr.trees.resident _).mp ha).1, hother _ ((hr.trees.resident _).mp hb).1]
  · rw [hcount, hresidents]
    exact hr.trees.count
  · rw [hitem] at hv ⊢
    rcases (hmem' a).mp ha with rfl | ha
    · rw [hself] at hv ⊢
      rw [hh] at hv ⊢
      exact if_pos hv
    · rw [hother a ha] at hv ⊢
      exact (if_neg (hapart a ha v hv)).trans (hr.covered a ha v hv)
  · rw [hitem]
    by_cases hin : virtualOffset ≤ v ∧ v < virtualOffset + length
    · refine ⟨s.created, (hmem' _).mpr (.inl rfl), ?_⟩
      rw [hself, SeparateHeapMap.Covers, hvaddr, hsize]
      exact hin
    · rw [mapPages, if_neg hin] at hv
      obtain ⟨a, ha, hcovers⟩ := hr.exact v hv
      exact ⟨a, (hmem' a).mpr (.inr ha), by rwa [hother a ha]⟩
  · rw [hbuffer]
    rw [hitem] at hv ⊢
    rcases (hmem' a).mp ha with rfl | ha
    · rw [hself] at hv ⊢
      rw [hh] at hv ⊢
      exact hempty v hv.1 hv.2
    · rw [hother a ha] at hv ⊢
      rw [mapPages, if_neg (hapart a ha v hv)]
      exact hr.hosted a ha v hv

theorem bufferMap_bufferUnmap (virtualOffset hostOffset length : Nat) (perm : MemoryPermission) :
    (s.bufferUnmap virtualOffset length).bufferMap virtualOffset hostOffset length perm =
      s.bufferMap virtualOffset hostOffset length perm := by
  have hbuffer : ((s.bufferUnmap virtualOffset length).bufferMap virtualOffset hostOffset length
      perm).buffer = (s.bufferMap virtualOffset hostOffset length perm).buffer := by
    funext v
    by_cases hin : virtualOffset ≤ v ∧ v < virtualOffset + length
    · exact (if_pos hin).trans (if_pos hin).symm
    · exact (if_neg hin).trans ((if_neg hin).trans (if_neg hin).symm)
  exact congrArg (fun buffer => { s with buffer := buffer }) hbuffer

variable (bal) in
/-- What a mapping finds in its place in the host address space does not matter. -/
theorem deferredMap_bufferUnmap (hnearest : s.getNearestHeapMapLocked x = some id)
    (hout : ¬(s.item id).isResident = true) :
    ((s.bufferUnmap (s.item id).vaddr (s.item id).size).deferredMapSeparateHeap bal x) =
      s.deferredMapSeparateHeap bal x := by
  have hnearest' : (s.bufferUnmap (s.item id).vaddr
      (s.item id).size).getNearestHeapMapLocked x = some id := hnearest
  have hbuffer := bufferMap_bufferUnmap (s := { s with tick := s.tick + 1 }) (s.item id).vaddr
    (s.item id).paddr (s.item id).size (s.item id).perm
  rw [deferredMapSeparateHeap, deferredMapSeparateHeap, hnearest, hnearest']
  have hout' : ¬((s.bufferUnmap (s.item id).vaddr
      (s.item id).size).item id).isResident = true := hout
  simp only [if_neg hout, if_neg hout']
  exact congrArg (fun t =>
    let t := (t.setItem id { s.item id with tick := s.tick, isResident := true }).insertResident
      bal id
    (true, if decide (s.residentMapCount > s.maxResidentMapCount) then
      t.rebuildSeparateHeapAddressSpace bal else t)) hbuffer

/-- `Map` of a separate heap. What the host address space has had in the range is replaced. -/
theorem Records.map {virtualOffset hostOffset length : Nat} {perm : MemoryPermission}
    (hr : s.Records pages) (hlength : 0 < length) (hbound : virtualOffset + length ≤ 2 ^ 64)
    (hfree : ∀ v, virtualOffset ≤ v → v < virtualOffset + length → pages v = none) :
    (s.map bal virtualOffset hostOffset length perm true).Records
      (mapPages virtualOffset hostOffset length perm pages) := by
  have hcleared : (s.bufferUnmap virtualOffset length).Records pages :=
    hr.of_buffer fun a ha v hv => if_neg (hr.outside hfree ha hv)
  have hempty (v) (hle : virtualOffset ≤ v) (hlt : v < virtualOffset + length) :
      (s.bufferUnmap virtualOffset length).buffer v = none := if_pos ⟨hle, hlt⟩
  obtain ⟨t, ht⟩ : ∃ t, t = ({ s with tick := s.tick + 1 }.newItem
      ⟨virtualOffset, hostOffset, length, s.tick, perm, false⟩).insertMapping bal s.created :=
    ⟨_, rfl⟩
  obtain ⟨hnew, hmem⟩ : (t.bufferUnmap virtualOffset length).Records
      (mapPages virtualOffset hostOffset length perm pages) ∧ s.created ∈ t.mappings.toList := by
    rw [ht]
    exact (hcleared.withTick (s.tick + 1)).insertNew bal hlength hbound hfree hempty rfl
      rfl
  have hself : t.item s.created = ⟨virtualOffset, hostOffset, length, s.tick, perm, false⟩ := by
    rw [ht]
    exact update_self _ _ _
  have hnearest : t.getNearestHeapMapLocked virtualOffset = some s.created := by
    refine hnew.trees.nearest_of_covers hmem ?_
    have hcovers : (t.item s.created).Covers virtualOffset := by
      rw [hself]
      exact ⟨le_refl _, Nat.lt_add_of_pos_right hlength⟩
    exact hcovers
  have hmap : s.map bal virtualOffset hostOffset length perm true =
      (t.deferredMapSeparateHeap bal virtualOffset).2 := by
    rw [ht]
    rfl
  have hdeferred := deferredMap_bufferUnmap bal hnearest (by rw [hself]; exact Bool.false_ne_true)
  rw [hself] at hdeferred
  rw [hmap, ← hdeferred]
  exact hnew.deferredMap virtualOffset

end HeapTracker

end Sudachi.Common
