import Sudachi.Common.HeapTrackerTrees

/-!
# The pages of the heap tracker

The pages of the separate heap, as a function of the address, and what the tracker records of them:
each page is in one mapping, with its place and its permission, and it is in the host address space
if that mapping is resident. Splitting a mapping, moving mappings in and out of the host address
space, and the loops over the mappings of a range keep this in step.
-/

set_option autoImplicit false

namespace Sudachi.Common

open Sudachi.Foundations List Function

namespace HeapTracker

/-- The tracker records these pages. -/
structure Records (s : HeapTracker) (pages : Nat → Option HeapEntry) : Prop where
  trees : s.Trees
  covered : ∀ a ∈ s.mappings.toList, ∀ v, (s.item a).Covers v →
    pages v = some ((s.item a).paddr + (v - (s.item a).vaddr), (s.item a).perm)
  exact : ∀ v, pages v ≠ none → ∃ a ∈ s.mappings.toList, (s.item a).Covers v
  hosted : ∀ a ∈ s.mappings.toList, ∀ v, (s.item a).Covers v →
    s.buffer v = if (s.item a).isResident then pages v else none

/-- No mapping lies over the offset with pages on both sides of it. -/
def Boundary (s : HeapTracker) (x : Nat) : Prop :=
  ∀ a ∈ s.mappings.toList, ¬((s.item a).vaddr < x ∧ x < (s.item a).vaddr + (s.item a).size)

variable {bal : SearchTree.Balancing Nat} {s s' : HeapTracker} {l r : List Nat} {a b id : Nat}
variable {x v : Nat} {h : SeparateHeapMap} {pages : Nat → Option HeapEntry}

/-! ## Splitting -/

/-- The parts of a mapping that is split. -/
def leftPart (h : SeparateHeapMap) (x : Nat) : SeparateHeapMap := { h with size := x - h.vaddr }

def rightPart (h : SeparateHeapMap) (x : Nat) : SeparateHeapMap :=
  { h with
    vaddr := h.vaddr + (x - h.vaddr)
    paddr := h.paddr + (x - h.vaddr)
    size := h.size - (x - h.vaddr) }

/-- What a split at an offset comes to. -/
structure SplitAt (s s' : HeapTracker) (id x : Nat) (l r : List Nat) : Prop where
  before : s.mappings.toList = l ++ id :: r
  inside : (s.item id).vaddr < x ∧ x < (s.item id).vaddr + (s.item id).size
  lower : ∀ b ∈ l, (s.item b).vaddr + (s.item b).size ≤ x
  upper : ∀ b ∈ r, x < (s.item b).vaddr
  item : s'.item = update (update s.item id (leftPart (s.item id) x)) s.created
    (rightPart (s.item id) x)
  created : s'.created = s.created + 1
  after : s'.mappings.toList = l ++ id :: s.created :: r
  residents : s'.residentMappings.toList.Perm
    (if (s.item id).isResident then s.created :: s.residentMappings.toList
      else s.residentMappings.toList)
  ordered : s'.residentMappings.toList.Pairwise fun a b => (s'.item a).key < (s'.item b).key
  count : s'.residentMapCount = s.residentMapCount + if (s.item id).isResident then 1 else 0
  buffer : s'.buffer = s.buffer

namespace SplitAt

variable (hsplit : SplitAt s s' id x l r) (ht : s.Trees)
include hsplit ht

theorem id_ne : id ≠ s.created :=
  ne_of_lt (ht.created id (by rw [hsplit.before]; simp))

theorem item_left : s'.item id = leftPart (s.item id) x := by
  rw [hsplit.item, update_of_ne (hsplit.id_ne ht), update_self]

omit ht in
theorem item_right : s'.item s.created = rightPart (s.item id) x := by
  rw [hsplit.item, update_self]

theorem item_other (hb : b ∈ l ++ r) : s'.item b = s.item b := by
  have hmem : b ∈ s.mappings.toList := by
    rw [hsplit.before]
    rcases mem_append.mp hb with hb | hb
    · simp [hb]
    · simp [hb]
  have hnodup := ht.nodup
  rw [hsplit.before] at hnodup
  have hne : b ≠ id := by
    rintro rfl
    rw [nodup_middle, nodup_cons] at hnodup
    exact hnodup.1 hb
  rw [hsplit.item, update_of_ne (ne_of_lt (ht.created b hmem)), update_of_ne hne]

omit ht in
theorem mem_iff : a ∈ s'.mappings.toList ↔ a = id ∨ a = s.created ∨ a ∈ l ++ r := by
  rw [hsplit.after]
  simp only [mem_append, mem_cons]
  tauto

omit ht in
theorem mem_before_iff : a ∈ s.mappings.toList ↔ a = id ∨ a ∈ l ++ r := by
  rw [hsplit.before]
  simp only [mem_append, mem_cons]
  tauto

theorem trees : s'.Trees := by
  have hleft := hsplit.item_left ht
  have hright := hsplit.item_right
  have hsame (b) (hb : b ∈ l ++ r) := hsplit.item_other ht hb
  obtain ⟨hlow, hhigh⟩ := hsplit.inside
  have hid : id ∈ s.mappings.toList := hsplit.mem_before_iff.mpr (.inl rfl)
  have hend := (ht.sized id hid).2
  have hfresh : s.created ∉ s.mappings.toList := fun h => lt_irrefl _ (ht.created _ h)
  refine ⟨fun a ha => ?_, ?_, fun a ha => ?_, fun a => ?_, hsplit.ordered, ?_⟩
  · rcases hsplit.mem_iff.mp ha with rfl | rfl | ha
    · rw [hleft]
      simp only [SeparateHeapMap.Sized, leftPart]
      omega
    · rw [hright]
      simp only [SeparateHeapMap.Sized, rightPart]
      omega
    · rw [hsame a ha]
      exact ht.sized a (hsplit.mem_before_iff.mpr (.inr ha))
  · have hsorted := ht.sorted
    rw [hsplit.before, pairwise_append, pairwise_cons] at hsorted
    obtain ⟨hl, ⟨hidr, hr⟩, hlr⟩ := hsorted
    rw [hsplit.after, pairwise_append, pairwise_cons, pairwise_cons]
    refine ⟨hl.imp_of_mem fun ha hb hab => ?_, ⟨fun b hb => ?_, fun b hb => ?_,
      hr.imp_of_mem fun ha hb hab => ?_⟩, fun a ha b hb => ?_⟩
    · rwa [hsame _ (by simp [ha]), hsame _ (by simp [hb])]
    · rw [hleft]
      rcases mem_cons.mp hb with rfl | hb
      · rw [hright]
        simp only [leftPart, rightPart]
        omega
      · rw [hsame b (by simp [hb])]
        have := hsplit.upper b hb
        simp only [leftPart]
        omega
    · rw [hright, hsame b (by simp [hb])]
      have := hidr b hb
      simp only [rightPart]
      omega
    · rwa [hsame _ (by simp [ha]), hsame _ (by simp [hb])]
    · rw [hsame a (by simp [ha])]
      have hstart := hlr a ha id (by simp)
      rcases mem_cons.mp hb with rfl | hb
      · rwa [hleft]
      · rcases mem_cons.mp hb with rfl | hb
        · rw [hright]
          simp only [rightPart]
          omega
        · rw [hsame b (by simp [hb])]
          exact hlr a ha b (by simp [hb])
  · rw [hsplit.created]
    rcases hsplit.mem_iff.mp ha with rfl | rfl | ha
    · exact Nat.lt_succ_of_lt (ht.created _ hid)
    · exact Nat.lt_succ_self _
    · exact Nat.lt_succ_of_lt (ht.created a (hsplit.mem_before_iff.mpr (.inr ha)))
  · have hresident : (s'.item a).isResident =
        if a = s.created then (s.item id).isResident else (s.item a).isResident := by
      by_cases hnew : a = s.created
      · rw [if_pos hnew, hnew, hright]
        rfl
      · rw [if_neg hnew, hsplit.item, update_of_ne hnew]
        by_cases hold : a = id
        · rw [hold, update_self]
          rfl
        · rw [update_of_ne hold]
    have hmem : a ∈ s'.mappings.toList ↔ a = s.created ∨ a ∈ s.mappings.toList := by
      rw [hsplit.mem_iff, hsplit.mem_before_iff]
      tauto
    rw [hsplit.residents.mem_iff, hmem, hresident]
    by_cases hnew : a = s.created
    · subst hnew
      by_cases hpart : (s.item id).isResident = true
      · simp [hpart]
      · simp [hpart, ht.resident, hfresh]
    · by_cases hpart : (s.item id).isResident = true
      · simp [hpart, hnew, ht.resident]
      · simp [hpart, hnew, ht.resident]
  · rw [hsplit.count, hsplit.residents.length_eq, ht.count]
    by_cases hpart : (s.item id).isResident = true
    · simp [hpart]
    · simp [hpart]

/-- The mappings cover what they have covered, with the same places. -/
theorem records (hr : s.Records pages) : s'.Records pages := by
  have hleft := hsplit.item_left ht
  have hright := hsplit.item_right
  obtain ⟨hlow, hhigh⟩ := hsplit.inside
  have hid : id ∈ s.mappings.toList := hsplit.mem_before_iff.mpr (.inl rfl)
  have hleftCovers (v) (hv : (leftPart (s.item id) x).Covers v) : (s.item id).Covers v := by
    simp only [SeparateHeapMap.Covers, leftPart] at hv ⊢
    omega
  have hrightCovers (v) (hv : (rightPart (s.item id) x).Covers v) : (s.item id).Covers v := by
    simp only [SeparateHeapMap.Covers, rightPart] at hv ⊢
    omega
  refine ⟨hsplit.trees ht, fun a ha v hv => ?_, fun v hv => ?_, fun a ha v hv => ?_⟩
  · rcases hsplit.mem_iff.mp ha with rfl | rfl | ha
    · rw [hleft] at hv ⊢
      exact hr.covered _ hid v (hleftCovers v hv)
    · rw [hright] at hv ⊢
      rw [hr.covered id hid v (hrightCovers v hv)]
      have hplace : (s.item id).paddr + (v - (s.item id).vaddr) =
          (rightPart (s.item id) x).paddr + (v - (rightPart (s.item id) x).vaddr) := by
        simp only [SeparateHeapMap.Covers, rightPart] at hv ⊢
        omega
      rw [hplace]
      rfl
    · rw [hsplit.item_other ht ha] at hv ⊢
      exact hr.covered a (hsplit.mem_before_iff.mpr (.inr ha)) v hv
  · obtain ⟨a, ha, hcovers⟩ := hr.exact v hv
    rcases hsplit.mem_before_iff.mp ha with rfl | ha
    · by_cases hx : v < x
      · refine ⟨a, hsplit.mem_iff.mpr (.inl rfl), ?_⟩
        rw [hleft]
        simp only [SeparateHeapMap.Covers, leftPart] at hcovers ⊢
        omega
      · refine ⟨s.created, hsplit.mem_iff.mpr (.inr (.inl rfl)), ?_⟩
        rw [hright]
        simp only [SeparateHeapMap.Covers, rightPart] at hcovers ⊢
        omega
    · refine ⟨a, hsplit.mem_iff.mpr (.inr (.inr ha)), ?_⟩
      rwa [hsplit.item_other ht ha]
  · rw [hsplit.buffer]
    rcases hsplit.mem_iff.mp ha with rfl | rfl | ha
    · rw [hleft] at hv ⊢
      exact hr.hosted _ hid v (hleftCovers v hv)
    · rw [hright] at hv ⊢
      exact hr.hosted id hid v (hrightCovers v hv)
    · rw [hsplit.item_other ht ha] at hv ⊢
      exact hr.hosted a (hsplit.mem_before_iff.mpr (.inr ha)) v hv

theorem boundary : s'.Boundary x := by
  intro a ha
  rcases hsplit.mem_iff.mp ha with rfl | rfl | ha
  · rw [hsplit.item_left ht]
    simp only [leftPart]
    omega
  · have := hsplit.inside
    rw [hsplit.item_right]
    simp only [rightPart]
    omega
  · rw [hsplit.item_other ht ha]
    rcases mem_append.mp ha with ha | ha
    · have := hsplit.lower a ha
      omega
    · have := hsplit.upper a ha
      omega

theorem boundary_of (y : Nat) (hy : s.Boundary y) : s'.Boundary y := by
  have hinside := hsplit.inside
  intro a ha
  rcases hsplit.mem_iff.mp ha with rfl | rfl | ha
  · have := hy a (hsplit.mem_before_iff.mpr (.inl rfl))
    rw [hsplit.item_left ht]
    simp only [leftPart]
    omega
  · have := hy id (hsplit.mem_before_iff.mpr (.inl rfl))
    rw [hsplit.item_right]
    simp only [rightPart]
    omega
  · rw [hsplit.item_other ht ha]
    exact hy a (hsplit.mem_before_iff.mpr (.inr ha))

end SplitAt

/-- The state of a split before its right part may enter the second tree. -/
theorem splitAt_insertMapping (ht : s.Trees) (hbefore : s.mappings.toList = l ++ id :: r)
    (hinside : (s.item id).vaddr < x ∧ x < (s.item id).vaddr + (s.item id).size)
    (hl : ∀ b ∈ l, (s.item b).vaddr + (s.item b).size ≤ x) (hr : ∀ b ∈ r, x < (s.item b).vaddr)
    (hs' : s' = ((s.setItem id (leftPart (s.item id) x)).newItem
      (rightPart (s.item id) x)).insertMapping bal s.created) :
    s'.item = update (update s.item id (leftPart (s.item id) x)) s.created
        (rightPart (s.item id) x) ∧
      s'.mappings.toList = l ++ id :: s.created :: r ∧
      (∀ b, b ≠ s.created → b ≠ id → s'.item b = s.item b) ∧
      s'.item id = leftPart (s.item id) x ∧ s'.item s.created = rightPart (s.item id) x := by
  have hmem (b) (hb : b = id ∨ b ∈ l ++ r) : b ∈ s.mappings.toList := by
    rw [hbefore]
    simp only [mem_append, mem_cons]
    rw [mem_append] at hb
    tauto
  have hid : id ≠ s.created := ne_of_lt (ht.created id (hmem id (.inl rfl)))
  have hnodup := ht.nodup
  rw [hbefore, nodup_middle, nodup_cons] at hnodup
  have hitem : s'.item = update
      (update s.item id (leftPart (s.item id) x)) s.created (rightPart (s.item id) x) := by
    rw [hs']
    rfl
  have hleft : s'.item id = leftPart (s.item id) x := by
    rw [hitem, update_of_ne hid, update_self]
  have hright : s'.item s.created = rightPart (s.item id) x := by
    rw [hitem, update_self]
  have hother (b) (hb : b ≠ s.created) (hb' : b ≠ id) : s'.item b = s.item b := by
    rw [hitem, update_of_ne hb, update_of_ne hb']
  have hsame (b) (hb : b ∈ l ++ r) : s'.item b = s.item b := by
    refine hother b (ne_of_lt (ht.created b (hmem b (.inr hb)))) ?_
    rintro rfl
    exact hnodup.1 hb
  have hstart : (rightPart (s.item id) x).vaddr = x := by
    simp only [rightPart]
    omega
  refine ⟨hitem, ?_, hother, hleft, hright⟩
  have hlist : s.mappings.toList = (l ++ [id]) ++ r := by rw [hbefore]; simp
  have hinsert := toList_insertMapping bal s.created
    (s := (s.setItem id (leftPart (s.item id) x)).newItem (rightPart (s.item id) x)) hlist
    (fun b hb => ?_) (fun b hb => ?_)
  · rw [hs', hinsert]
    simp
  · have hvalue : 0 < SeparateHeapMap.addrCompare (s'.item s.created).vaddr (s'.item b) := by
      rw [hright, hstart]
      rcases mem_append.mp hb with hb | hb
      · rw [hsame b (by simp [hb])]
        exact (ht.sized b (hmem b (by simp [hb]))).addrCompare_pos (hl b hb)
      · rw [mem_singleton.mp hb, hleft]
        have hsized : (leftPart (s.item id) x).Sized := by
          have := (ht.sized id (hmem id (.inl rfl))).2
          simp only [SeparateHeapMap.Sized, leftPart]
          omega
        refine hsized.addrCompare_pos ?_
        simp only [leftPart]
        omega
    rw [hs'] at hvalue
    exact hvalue
  · have hvalue : SeparateHeapMap.addrCompare (s'.item s.created).vaddr (s'.item b) < 0 := by
      rw [hright, hstart, hsame b (by simp [hb])]
      exact SeparateHeapMap.addrCompare_neg (hr b hb)
    rw [hs'] at hvalue
    exact hvalue

variable (bal) in
/-- A split leaves everything as it is where no mapping lies over the offset. -/
theorem splitHeapMapLocked_cases (ht : s.Trees) (x : Nat) :
    (s.splitHeapMapLocked bal x = s ∧ s.Boundary x) ∨
      ∃ id l r, SplitAt s (s.splitHeapMapLocked bal x) id x l r := by
  obtain ⟨l, covering, r, hsplit, hl, hcovering, hr⟩ := ht.cut x
  have hnearest := ht.nearest_eq hsplit hl hcovering hr
  rw [splitHeapMapLocked, hnearest]
  cases covering with
  | none =>
    refine .inl ⟨rfl, fun a ha => ?_⟩
    rw [hsplit] at ha
    rcases mem_append.mp ha with ha | ha
    · have := hl a ha
      omega
    · have := hr a ha
      omega
  | some id =>
    obtain ⟨hlow, hhigh⟩ := hcovering id rfl
    have hbefore : s.mappings.toList = l ++ id :: r := hsplit
    by_cases hstart : (s.item id).vaddr = x
    · simp only [if_pos hstart]
      refine .inl ⟨trivial, fun a ha => ?_⟩
      rw [hbefore] at ha
      rcases mem_append.mp ha with ha | ha
      · have := hl a ha
        omega
      · rcases mem_cons.mp ha with rfl | ha
        · omega
        · have := hr a ha
          omega
    · have hinside : (s.item id).vaddr < x ∧ x < (s.item id).vaddr + (s.item id).size :=
        ⟨by omega, hhigh⟩
      obtain ⟨s₁, hs₁⟩ : ∃ s₁, s₁ = ((s.setItem id (leftPart (s.item id) x)).newItem
        (rightPart (s.item id) x)).insertMapping bal s.created := ⟨_, rfl⟩
      obtain ⟨hitem, hafter, hother, hleft, hright⟩ :=
        splitAt_insertMapping ht hbefore hinside hl hr hs₁
      have hresidents : s₁.residentMappings = s.residentMappings := by
        rw [hs₁]
        rfl
      have hmem (b) (hb : b ∈ s.residentMappings.toList) : b ∈ s.mappings.toList :=
        ((ht.resident b).mp hb).1
      have hid : id ∈ s.mappings.toList := by rw [hbefore]; simp
      have hkey (b) (hb : b ∈ s.residentMappings.toList) : (s₁.item b).key = (s.item b).key := by
        have hne := ne_of_lt (ht.created b (hmem b hb))
        by_cases hsame : b = id
        · rw [hsame, hleft]
          rfl
        · rw [hother b hne hsame]
      have hordered : s₁.residentMappings.toList.Pairwise
          fun a b => (s₁.item a).key < (s₁.item b).key := by
        rw [hresidents]
        refine ht.ordered.imp_of_mem fun ha hb hab => ?_
        rwa [hkey _ ha, hkey _ hb]
      have hcreated : s₁.created = s.created + 1 := by rw [hs₁]; rfl
      have hcount : s₁.residentMapCount = s.residentMapCount := by rw [hs₁]; rfl
      have hbuffer : s₁.buffer = s.buffer := by rw [hs₁]; rfl
      have hgoal : SplitAt s (if (rightPart (s.item id) x).isResident = true then
          s₁.insertResident bal s.created else s₁) id x l r := by
        by_cases hpart : (s.item id).isResident = true
        · have hparts (b) (hb : b ∈ s₁.residentMappings.toList) :
              (s₁.item b).Sized ∧ ¬(s₁.item b).Covers (s₁.item s.created).vaddr := by
            rw [hresidents] at hb
            have hsized := ht.sized b (hmem b hb)
            rw [hright]
            by_cases hsame : b = id
            · rw [hsame] at hsized ⊢
              rw [hleft]
              simp only [SeparateHeapMap.Sized, SeparateHeapMap.Covers, leftPart,
                rightPart] at hsized ⊢
              omega
            · rw [hother b (ne_of_lt (ht.created b (hmem b hb))) hsame]
              refine ⟨hsized, fun hcovers => hsame ?_⟩
              have hplace : (rightPart (s.item id) x).vaddr = x := by
                simp only [rightPart]
                omega
              rw [hplace] at hcovers
              exact ht.unique (hmem b hb) hid hcovers ⟨hlow, hhigh⟩
          obtain ⟨hperm, hpairwise⟩ := insertResident_spec bal hordered
            (fun b hb => (hparts b hb).1) fun b hb => (hparts b hb).2
          have hresult : (if (rightPart (s.item id) x).isResident = true then
              s₁.insertResident bal s.created else s₁) = s₁.insertResident bal s.created :=
            if_pos hpart
          rw [hresult]
          refine ⟨hbefore, hinside, hl, hr, hitem, hcreated, hafter, ?_, hpairwise, ?_, hbuffer⟩
          · rw [if_pos hpart, ← hresidents]
            exact hperm
          · rw [if_pos hpart, ← hcount]
            rfl
        · have hresult : (if (rightPart (s.item id) x).isResident = true then
              s₁.insertResident bal s.created else s₁) = s₁ := if_neg hpart
          rw [hresult]
          refine ⟨hbefore, hinside, hl, hr, hitem, hcreated, hafter, ?_, hordered, ?_, hbuffer⟩
          · rw [if_neg hpart, hresidents]
          · rw [if_neg hpart, hcount, Int.add_zero]
      rw [hs₁] at hgoal
      refine .inr ⟨id, l, r, ?_⟩
      simp only [if_neg hstart]
      exact hgoal

variable (bal) in
/-- After a split the offset is a boundary, and nothing else has changed. -/
theorem Records.split (hr : s.Records pages) (x : Nat) :
    (s.splitHeapMapLocked bal x).Records pages ∧ (s.splitHeapMapLocked bal x).Boundary x ∧
      (∀ y, s.Boundary y → (s.splitHeapMapLocked bal x).Boundary y) ∧
      (s.splitHeapMapLocked bal x).buffer = s.buffer := by
  rcases splitHeapMapLocked_cases bal hr.trees x with ⟨hsame, hx⟩ | ⟨id, l, r, hsplit⟩
  · rw [hsame]
    exact ⟨hr, hx, fun _ hy => hy, rfl⟩
  · exact ⟨hsplit.records hr.trees hr, hsplit.boundary hr.trees,
      fun y hy => hsplit.boundary_of hr.trees y hy, hsplit.buffer⟩

variable (bal) in
theorem Records.splitRange (hr : s.Records pages) (offset size : Nat) :
    (s.splitHeapMap bal offset size).Records pages ∧
      (s.splitHeapMap bal offset size).Boundary offset ∧
      (s.splitHeapMap bal offset size).Boundary (offset + size) ∧
      (s.splitHeapMap bal offset size).buffer = s.buffer := by
  obtain ⟨hr₁, hoffset, _, hbuffer₁⟩ := hr.split bal offset
  obtain ⟨hr₂, hend, hkeep, hbuffer₂⟩ := hr₁.split bal (offset + size)
  exact ⟨hr₂, hkeep offset hoffset, hend, hbuffer₂.trans hbuffer₁⟩

end HeapTracker

end Sudachi.Common
