import Sudachi.Common.HeapTrackerOperations

/-!
# The loops of the heap tracker over a range

`Unmap` and `Protect` split the mappings at both ends of their range. After that each mapping is in
the range as a whole or outside of it, and the loops meet those in the range one after the other.
-/

set_option autoImplicit false

namespace Sudachi.Common

open Sudachi.Foundations List

namespace HeapTracker

variable {bal : SearchTree.Balancing Nat} {s s' : HeapTracker} {l mid r : List Nat} {a b id : Nat}
variable {x y v limit : Nat} {h : SeparateHeapMap} {pages pages' : Nat → Option HeapEntry}

/-! ## Ranges between boundaries -/

variable {size : Nat} {perm : MemoryPermission}

theorem Boundary.cases (hx : s.Boundary x) (ha : a ∈ s.mappings.toList) :
    (s.item a).vaddr + (s.item a).size ≤ x ∨ x ≤ (s.item a).vaddr := by
  have := hx a ha
  omega

theorem Boundary.congr (hx : s.Boundary x) (hmappings : s'.mappings = s.mappings)
    (hplace : ∀ b, (s'.item b).vaddr = (s.item b).vaddr ∧ (s'.item b).size = (s.item b).size) :
    s'.Boundary x := by
  intro a ha
  rw [hmappings] at ha
  rw [(hplace a).1, (hplace a).2]
  exact hx a ha

/-- The next boundary is where the next mapping begins, or its end. -/
theorem boundary_of_split (hsplit : s.mappings.toList = l ++ a :: r)
    (hl : ∀ b ∈ l, (s.item b).vaddr + (s.item b).size ≤ x)
    (hr : ∀ b ∈ r, (s.item a).vaddr + (s.item a).size ≤ (s.item b).vaddr) (hle : x ≤ y)
    (hy : y ≤ (s.item a).vaddr ∨ y = (s.item a).vaddr + (s.item a).size) : s.Boundary y := by
  intro b hb
  rw [hsplit] at hb
  rcases mem_append.mp hb with hb | hb
  · have := hl b hb
    omega
  · rcases mem_cons.mp hb with rfl | hb
    · omega
    · have := hr b hb
      omega

/-- The mappings before, in, and behind a range. -/
theorem Trees.range (ht : s.Trees) (hx : s.Boundary x) (hy : s.Boundary y) :
    ∃ l mid r, s.mappings.toList = l ++ (mid ++ r) ∧
      (∀ b ∈ l, (s.item b).vaddr + (s.item b).size ≤ x) ∧
      (∀ b ∈ mid, x ≤ (s.item b).vaddr ∧ (s.item b).vaddr + (s.item b).size ≤ y) ∧
      ∀ b ∈ r, x ≤ (s.item b).vaddr ∧ y ≤ (s.item b).vaddr := by
  -- the keys are one more, so that an element at the offset itself goes to the right
  have hkeys : s.mappings.toList.Pairwise fun a b => (s.item a).vaddr + 1 ≤ (s.item b).vaddr + 1 :=
    ht.sorted.imp fun hab => by omega
  obtain ⟨l, rest, hsplit, hl, hrest⟩ :=
    SearchTree.exists_split (fun a => (s.item a).vaddr + 1) x hkeys
  have hkeys' : rest.Pairwise fun a b => (s.item a).vaddr + 1 ≤ (s.item b).vaddr + 1 :=
    hkeys.sublist (by rw [hsplit]; exact sublist_append_right _ _)
  obtain ⟨mid, r, hsplit', hmid, hr⟩ :=
    SearchTree.exists_split (fun a => (s.item a).vaddr + 1) y hkeys'
  have hmem (b) (hb : b ∈ l ∨ b ∈ mid ∨ b ∈ r) : b ∈ s.mappings.toList := by
    rw [hsplit, hsplit', mem_append, mem_append]
    exact hb
  have hright (b) (hb : b ∈ mid ∨ b ∈ r) : x ≤ (s.item b).vaddr := by
    have := hrest b (by rw [hsplit', mem_append]; exact hb)
    omega
  refine ⟨l, mid, r, by rw [hsplit, hsplit'], fun b hb => ?_, fun b hb => ⟨hright b (.inl hb), ?_⟩,
    fun b hb => ⟨hright b (.inr hb), ?_⟩⟩
  · have := hl b hb
    have := hx.cases (hmem b (.inl hb))
    omega
  · have := hmid b hb
    have := hy.cases (hmem b (.inr (.inl hb)))
    omega
  · have := hr b hb
    omega

/-- The iteration from the mapping on that starts at an offset. -/
theorem Trees.nodesFrom_eq (ht : s.Trees) {rest : List Nat} (hsplit : s.mappings.toList = l ++ rest)
    (hl : ∀ b ∈ l, (s.item b).vaddr + (s.item b).size ≤ x)
    (hrest : ∀ b ∈ rest, x ≤ (s.item b).vaddr) (ha : a ∈ rest) (hstart : (s.item a).vaddr = x) :
    nodesFrom s.mappings (some a) = rest := by
  have hmem (b) (hb : b ∈ l ++ rest) : b ∈ s.mappings.toList := by rwa [hsplit]
  have hpos (b) (hb : b ∈ l ++ rest) := (ht.sized b (hmem b hb)).1
  have hbefore : ∀ b ∈ l, decide (b ≠ a) = true := by
    intro b hb
    refine decide_eq_true ?_
    rintro rfl
    have := hl b hb
    have := hpos b (by simp [hb])
    omega
  rw [nodesFrom, hsplit, dropWhile_append_of_pos hbefore]
  cases rest with
  | nil => exact absurd ha (by simp)
  | cons c rest =>
    have hhead : c = a := by
      by_contra hne
      have hin : a ∈ rest := (mem_cons.mp ha).resolve_left (Ne.symm hne)
      have hsorted := ht.sorted
      rw [hsplit, pairwise_append, pairwise_cons] at hsorted
      have hapart := hsorted.2.1.1 a hin
      have := hpos c (by simp)
      have := hrest c (by simp)
      omega
    rw [dropWhile_cons_of_neg (by simp [hhead])]

/-! ## `Unmap` -/

theorem Trees.erase (ht : s.Trees) (ha : a ∈ s.mappings.toList)
    (hs' : s' = (if (s.item a).isResident then s.eraseResident bal a else s).eraseMapping bal a) :
    s'.Trees ∧ s'.mappings.toList = s.mappings.toList.erase a ∧ s'.item = s.item ∧
      s'.buffer = s.buffer := by
  have hitem : s'.item = s.item := by
    rw [hs']
    split <;> rfl
  have hbuffer : s'.buffer = s.buffer := by
    rw [hs']
    split <;> rfl
  have hcreated : s'.created = s.created := by
    rw [hs']
    split <;> rfl
  have hmappings : s'.mappings.toList = s.mappings.toList.erase a := by
    rw [hs']
    split <;> exact bal.toList_remove a s.mappings
  have hresidents : s'.residentMappings.toList = s.residentMappings.toList.erase a := by
    rw [hs']
    by_cases hres : (s.item a).isResident = true
    · rw [if_pos hres]
      exact bal.toList_remove a s.residentMappings
    · rw [if_neg hres]
      have hout : a ∉ s.residentMappings.toList := fun hin => hres ((ht.resident a).mp hin).2
      exact (erase_of_not_mem hout).symm
  have hcount : s'.residentMapCount = s'.residentMappings.toList.length := by
    rw [hresidents, hs']
    by_cases hres : (s.item a).isResident = true
    · have hin := (ht.resident a).mpr ⟨ha, hres⟩
      have hpos := length_pos_of_mem hin
      have hlength := length_erase_of_mem hin
      have hcount := ht.count
      rw [if_pos hres]
      simp only [eraseMapping, eraseResident]
      omega
    · rw [if_neg hres]
      have hout : a ∉ s.residentMappings.toList := fun hin => hres ((ht.resident a).mp hin).2
      rw [erase_of_not_mem hout]
      exact ht.count
  have hsub : s'.mappings.toList.Sublist s.mappings.toList := by
    rw [hmappings]
    exact erase_sublist
  refine ⟨⟨fun b hb => ?_, ?_, fun b hb => ?_, fun b => ?_, ?_, hcount⟩, hmappings, hitem, hbuffer⟩
  · rw [hitem]
    exact ht.sized b (hsub.subset hb)
  · rw [hitem]
    exact ht.sorted.sublist hsub
  · rw [hcreated]
    exact ht.created b (hsub.subset hb)
  · rw [hresidents, hmappings, hitem, ht.nodup_resident.mem_erase_iff, ht.nodup.mem_erase_iff,
      ht.resident]
    tauto
  · rw [hitem, hresidents]
    exact ht.ordered.sublist erase_sublist

/-- The loop erases the mappings that begin in the range. -/
theorem Trees.eraseLoop (ht : s.Trees) (hsplit : s.mappings.toList = l ++ (mid ++ r))
    (hmid : ∀ b ∈ mid, (s.item b).vaddr < limit) (hr : ∀ b ∈ r, limit ≤ (s.item b).vaddr) :
    (s.eraseLoop bal limit (mid ++ r)).Trees ∧
      (s.eraseLoop bal limit (mid ++ r)).mappings.toList = l ++ r ∧
      (s.eraseLoop bal limit (mid ++ r)).item = s.item ∧
      (s.eraseLoop bal limit (mid ++ r)).buffer = s.buffer := by
  induction mid generalizing s with
  | nil =>
    cases r with
    | nil => exact ⟨ht, hsplit, rfl, rfl⟩
    | cons b r =>
      have hstop : ¬(s.item b).vaddr < limit := Nat.not_lt.mpr (hr b (by simp))
      rw [nil_append, HeapTracker.eraseLoop, if_neg hstop]
      exact ⟨ht, hsplit, rfl, rfl⟩
  | cons a mid ih =>
    have ha : a ∈ s.mappings.toList := by rw [hsplit]; simp
    obtain ⟨s₁, hs₁⟩ : ∃ s₁, s₁ = (if (s.item a).isResident then s.eraseResident bal a
      else s).eraseMapping bal a := ⟨_, rfl⟩
    obtain ⟨ht₁, hmappings, hitem, hbuffer⟩ := ht.erase ha hs₁
    have hnodup := ht.nodup
    rw [hsplit, cons_append, nodup_middle, nodup_cons] at hnodup
    have hout : a ∉ l := fun hin => hnodup.1 (by simp [hin])
    have hsplit₁ : s₁.mappings.toList = l ++ (mid ++ r) := by
      rw [hmappings, hsplit, erase_append_right _ hout, cons_append, erase_cons_head]
    obtain ⟨ht', hlist, hitem', hbuffer'⟩ := ih ht₁ hsplit₁
      (fun b hb => by rw [hitem]; exact hmid b (by simp [hb]))
      (fun b hb => by rw [hitem]; exact hr b hb)
    have hloop : s.eraseLoop bal limit (a :: mid ++ r) = s₁.eraseLoop bal limit (mid ++ r) := by
      rw [cons_append, HeapTracker.eraseLoop, if_pos (hmid a (by simp)), hs₁]
    rw [hloop]
    exact ⟨ht', hlist, hitem'.trans hitem, hbuffer'.trans hbuffer⟩

/-- The pages that leave are those of the mappings in the range. -/
theorem Records.unmap {virtualOffset : Nat} (hr : s.Records pages)
    (hmapped : ∀ v, virtualOffset ≤ v → v < virtualOffset + size → pages v ≠ none) :
    (s.unmap bal virtualOffset size true).Records (unmapPages virtualOffset size pages) := by
  obtain ⟨hr₁, hstart, hend, -⟩ := hr.splitRange bal virtualOffset size
  obtain ⟨s₁, hs₁⟩ : ∃ s₁, s₁ = s.splitHeapMap bal virtualOffset size := ⟨_, rfl⟩
  rw [← hs₁] at hr₁ hstart hend
  obtain ⟨l, mid, r, hsplit, hl, hmid, hafter⟩ := hr₁.trees.range hstart hend
  have hmem (b) : b ∈ s₁.mappings.toList ↔ b ∈ l ∨ b ∈ mid ∨ b ∈ r := by
    rw [hsplit, mem_append, mem_append]
  have hpos (b) (hb : b ∈ l ∨ b ∈ mid ∨ b ∈ r) := (hr₁.trees.sized b ((hmem b).mpr hb)).1
  obtain ⟨s₂, hs₂⟩ : ∃ s₂, s₂ = s₁.eraseLoop bal (virtualOffset + size)
    (nodesFrom s₁.mappings (s₁.getNearestHeapMapLocked virtualOffset)) := ⟨_, rfl⟩
  have herase : s₂.Trees ∧ s₂.mappings.toList = l ++ r ∧ s₂.item = s₁.item ∧
      s₂.buffer = s₁.buffer := by
    rw [hs₂]
    cases hnearest : s₁.getNearestHeapMapLocked virtualOffset with
    | none =>
      have hmid' : mid = [] := by
        refine eq_nil_iff_forall_not_mem.mpr fun b hb => ?_
        have hin := hmid b hb
        have := hpos b (.inr (.inl hb))
        obtain ⟨a, ha, hcovers⟩ := hr₁.exact virtualOffset
          (hmapped virtualOffset (le_refl _) (by omega))
        rw [hr₁.trees.nearest_of_covers ha hcovers] at hnearest
        exact absurd hnearest (by simp)
      rw [hmid', nil_append] at hsplit
      exact ⟨hr₁.trees, hsplit, rfl, rfl⟩
    | some a =>
      obtain ⟨ha, hlow, hhigh⟩ := hr₁.trees.covers_of_nearest hnearest
      have hbound (b) (hb : b ∈ mid ++ r) : virtualOffset ≤ (s₁.item b).vaddr := by
        rcases mem_append.mp hb with hb | hb
        · exact (hmid b hb).1
        · exact (hafter b hb).1
      have hin : a ∈ mid ++ r := by
        rw [hsplit] at ha
        refine (mem_append.mp ha).resolve_left fun hin => ?_
        have := hl a hin
        omega
      rw [hr₁.trees.nodesFrom_eq hsplit hl hbound hin (le_antisymm hlow (hbound a hin))]
      refine hr₁.trees.eraseLoop hsplit (fun b hb => ?_) fun b hb => (hafter b hb).2
      have := hmid b hb
      have := hpos b (.inr (.inl hb))
      omega
  obtain ⟨ht₂, hlist, hitem, hbuffer⟩ := herase
  have hunmap : s.unmap bal virtualOffset size true = s₂.bufferUnmap virtualOffset size := by
    rw [hs₂, hs₁]
    rfl
  have hkept (b) (hb : b ∈ s₂.mappings.toList) (v) (hv : (s₂.item b).Covers v) :
      b ∈ s₁.mappings.toList ∧ (s₁.item b).Covers v ∧
        ¬(virtualOffset ≤ v ∧ v < virtualOffset + size) := by
    rw [hlist, mem_append] at hb
    rw [hitem] at hv
    obtain ⟨hlow, hhigh⟩ := hv
    rcases hb with hb | hb
    · have := hl b hb
      exact ⟨(hmem b).mpr (.inl hb), ⟨hlow, hhigh⟩, by omega⟩
    · have := hafter b hb
      exact ⟨(hmem b).mpr (.inr (.inr hb)), ⟨hlow, hhigh⟩, by omega⟩
  rw [hunmap]
  refine ⟨{ ht₂ with }, fun b hb v hv => ?_, fun v hv => ?_, fun b hb v hv => ?_⟩
  · obtain ⟨hb', hv', hout⟩ := hkept b hb v hv
    have hpage := hr₁.covered b hb' v hv'
    rw [← hitem] at hpage
    exact (if_neg hout).trans hpage
  · by_cases hin : virtualOffset ≤ v ∧ v < virtualOffset + size
    · exact absurd (if_pos hin) hv
    · rw [unmapPages, if_neg hin] at hv
      obtain ⟨b, hb, hcovers⟩ := hr₁.exact v hv
      obtain ⟨hlow, hhigh⟩ := hcovers
      have hkeep : b ∈ s₂.mappings.toList := by
        rw [hlist, mem_append]
        rcases (hmem b).mp hb with hb | hb | hb
        · exact .inl hb
        · have := hmid b hb
          omega
        · exact .inr hb
      rw [← hitem] at hlow hhigh
      exact ⟨b, hkeep, hlow, hhigh⟩
  · obtain ⟨hb', hv', hout⟩ := hkept b hb v hv
    have hhosted := hr₁.hosted b hb' v hv'
    rw [← hitem, ← hbuffer] at hhosted
    rw [unmapPages, if_neg hout]
    exact (if_neg hout).trans hhosted

/-! ## `Protect` -/

theorem protectPages_append {size' : Nat} (perm : MemoryPermission) :
    protectPages (x + size) size' perm (protectPages x size perm pages) =
      protectPages x (size + size') perm pages := by
  funext v
  simp only [protectPages]
  split_ifs with h₁ h₂ h₃ h₄ h₅ <;> first | rfl | omega

/-- Where no page is, `Protect` changes none. -/
theorem protectPages_eq (hfree : ∀ v, x ≤ v → v < x + size → pages v = none) :
    protectPages x size perm pages = pages := by
  funext v
  by_cases hin : x ≤ v ∧ v < x + size
  · rw [protectPages, if_pos hin, hfree v hin.1 hin.2]
    rfl
  · exact if_neg hin

/-- At a boundary the loop finds the first mapping behind it. -/
theorem Trees.nfind_eq (ht : s.Trees) (hx : s.Boundary x) :
    ∃ l r, s.mappings.toList = l ++ r ∧ (∀ b ∈ l, (s.item b).vaddr + (s.item b).size ≤ x) ∧
      (∀ b ∈ r, x ≤ (s.item b).vaddr) ∧
      s.mappings.nfind (fun id => SeparateHeapMap.addrCompare x (s.item id)) none = r.head? := by
  obtain ⟨l, covering, r, hsplit, hl, hcovering, hr⟩ := ht.cut x
  cases covering with
  | none =>
    have hsplit' : s.mappings.toList = l ++ r := hsplit
    refine ⟨l, r, hsplit', hl, fun b hb => (hr b hb).le, ?_⟩
    have hbefore : ∀ b ∈ l, 0 < SeparateHeapMap.addrCompare x (s.item b) := fun b hb =>
      (ht.sized b (by rw [hsplit]; simp [hb])).addrCompare_pos (hl b hb)
    rw [SearchTree.nfind_eq hsplit' hbefore
      (fun b hb => SeparateHeapMap.addrCompare_neg (hr b hb)) none, Option.or_none]
  | some a =>
    obtain ⟨hlow, hhigh⟩ := hcovering a rfl
    have ha : a ∈ s.mappings.toList := by rw [hsplit]; simp
    have hstart := hx a ha
    refine ⟨l, a :: r, hsplit, hl, fun b hb => ?_, ?_⟩
    · rcases mem_cons.mp hb with rfl | hb
      · omega
      · exact (hr b hb).le
    · exact SearchTree.nfind_of_find (ht.nearest_of_covers ha ⟨hlow, hhigh⟩) none

/-- The host address space changes outside of the mappings. -/
theorem Records.bufferProtect (hr : s.Records pages) (perm : MemoryPermission)
    (hfree : ∀ v, x ≤ v → v < x + size → pages v = none) :
    (s.bufferProtect x size perm).Records pages :=
  hr.of_buffer fun _ ha _ hv => if_neg (hr.outside hfree ha hv)

/-- The mapping takes the permission, and so do its pages, in the host address space as well. -/
theorem Records.protectItem (hr : s.Records pages) (ha : a ∈ s.mappings.toList)
    (hs' : s' = if (s.item a).isResident then
      (s.setItem a { s.item a with perm := perm }).bufferProtect (s.item a).vaddr
        (s.item a).size perm
      else s.setItem a { s.item a with perm := perm }) :
    s'.Records (protectPages (s.item a).vaddr (s.item a).size perm pages) ∧
      s'.mappings = s.mappings ∧ ∀ b, (s'.item b).vaddr = (s.item b).vaddr ∧
        (s'.item b).size = (s.item b).size := by
  have hitem : s'.item = Function.update s.item a { s.item a with perm := perm } := by
    rw [hs']
    split <;> rfl
  have hmappings : s'.mappings = s.mappings := by
    rw [hs']
    split <;> rfl
  have hresidents : s'.residentMappings = s.residentMappings := by
    rw [hs']
    split <;> rfl
  have hsame (b) : (s'.item b).isResident = (s.item b).isResident ∧
      (s'.item b).key = (s.item b).key ∧ (s'.item b).vaddr = (s.item b).vaddr ∧
      (s'.item b).size = (s.item b).size := by
    rw [hitem]
    by_cases hb : b = a
    · rw [hb, Function.update_self]
      exact ⟨rfl, rfl, rfl, rfl⟩
    · rw [Function.update_of_ne hb]
      exact ⟨rfl, rfl, rfl, rfl⟩
  refine ⟨hr.updateItem ha hmappings ?_ hitem ⟨rfl, rfl⟩ (fun b => ?_) ?_ ?_ (fun v hv => ?_)
    (fun v hv => if_neg hv) (fun v hv => ?_) (fun v hv => ?_), hmappings,
    fun b => (hsame b).2.2⟩
  · rw [hs']
    split <;> rfl
  · rw [hresidents, (hsame b).1]
    exact hr.trees.resident b
  · rw [hresidents]
    refine hr.trees.ordered.imp fun {b c} hbc => ?_
    rwa [(hsame b).2.1, (hsame c).2.1]
  · have hcount : s'.residentMapCount = s.residentMapCount := by
      rw [hs']
      split <;> rfl
    rw [hcount, hresidents]
    exact hr.trees.count
  · have hin : (s.item a).Covers v := hv
    refine (if_pos hin).trans ?_
    rw [hr.covered a ha v hin]
    rfl
  · have hin : (s.item a).Covers v := hv
    have hpage := hr.hosted a ha v hin
    have hprotect : protectPages (s.item a).vaddr (s.item a).size perm pages v =
      (pages v).map fun entry => (entry.1, perm) := if_pos hin
    rw [hprotect, hs']
    by_cases hres : (s.item a).isResident = true
    · rw [if_pos hres] at hpage ⊢
      rw [← hpage]
      exact (if_pos hin).trans (if_pos hres).symm
    · rw [if_neg hres] at hpage ⊢
      exact hpage.trans (if_neg hres).symm
  · rw [hs']
    by_cases hres : (s.item a).isResident = true
    · rw [if_pos hres]
      exact if_neg hv
    · rw [if_neg hres]
      rfl

/-- Each turn of the loop brings the pages up to the next boundary. -/
theorem Records.protectLoop (fuel : Nat) {cur : Nat} (perm : MemoryPermission)
    (hr : s.Records pages) (hcur : cur ≤ limit) (hx : s.Boundary cur) (hy : s.Boundary limit)
    (hfuel : limit - cur ≤ fuel) : ∃ s', s.protectLoop limit perm fuel cur = some s' ∧
      s'.Records (protectPages cur (limit - cur) perm pages) := by
  induction fuel generalizing s cur pages with
  | zero =>
    have hdone : ¬cur < limit := by omega
    refine ⟨s, by rw [HeapTracker.protectLoop, if_neg hdone], ?_⟩
    rwa [protectPages_eq fun v hle hlt => by omega]
  | succ fuel ih =>
    by_cases hdone : cur < limit
    · obtain ⟨l, r, hsplit, hl, hafter, hnfind⟩ := hr.trees.nfind_eq hx
      rw [HeapTracker.protectLoop, if_pos hdone, hnfind]
      have hmem (b) : b ∈ s.mappings.toList ↔ b ∈ l ∨ b ∈ r := by rw [hsplit, mem_append]
      cases r with
      | nil =>
        have hfree (v) (hle : cur ≤ v) (_ : v < cur + (limit - cur)) : pages v = none := by
          by_contra hpage
          obtain ⟨b, hb, -, hhigh⟩ := hr.exact v hpage
          have := hl b (((hmem b).mp hb).resolve_right (by simp))
          omega
        refine ⟨_, rfl, ?_⟩
        rw [protectPages_eq hfree]
        exact hr.bufferProtect perm hfree
      | cons a r =>
        have ha : a ∈ s.mappings.toList := (hmem a).mpr (.inr (by simp))
        have hsorted := hr.trees.sorted
        rw [hsplit, pairwise_append, pairwise_cons] at hsorted
        have hbehind := hsorted.2.1.1
        have hpos := (hr.trees.sized a ha).1
        have hend := hy.cases ha
        have hstart := hafter a (by simp)
        simp only [head?_cons]
        by_cases heq : (s.item a).vaddr = cur
        · subst heq
          obtain ⟨s₁, hs₁⟩ : ∃ s₁, s₁ = if (s.item a).isResident then
            (s.setItem a { s.item a with perm := perm }).bufferProtect (s.item a).vaddr
              (s.item a).size perm
            else s.setItem a { s.item a with perm := perm } := ⟨_, rfl⟩
          obtain ⟨hr₁, hmappings, hplace⟩ := hr.protectItem ha hs₁
          have hnext : min ((s.item a).vaddr + (s.item a).size) limit =
            (s.item a).vaddr + (s.item a).size := by omega
          have hx₁ : s.Boundary ((s.item a).vaddr + (s.item a).size) :=
            boundary_of_split hsplit hl hbehind (by omega) (.inr rfl)
          obtain ⟨s', hloop, hr'⟩ := ih hr₁
            (show (s.item a).vaddr + (s.item a).size ≤ limit by omega) (hx₁.congr hmappings hplace) (hy.congr hmappings hplace) (by omega)
          refine ⟨s', ?_, ?_⟩
          · rw [if_pos rfl, hnext, Nat.add_sub_cancel_left, ← hloop, hs₁]
          · have hsize : (s.item a).size + (limit - ((s.item a).vaddr + (s.item a).size)) =
              limit - (s.item a).vaddr := by omega
            rw [protectPages_append, hsize] at hr'
            exact hr'
        · obtain ⟨next, hnext⟩ : ∃ next, next = min (s.item a).vaddr limit := ⟨_, rfl⟩
          have hfree (v) (hle : cur ≤ v) (hlt : v < cur + (next - cur)) : pages v = none := by
            by_contra hpage
            obtain ⟨b, hb, hlow, hhigh⟩ := hr.exact v hpage
            rcases (hmem b).mp hb with hb | hb
            · have := hl b hb
              omega
            · rcases mem_cons.mp hb with rfl | hb
              · omega
              · have := hbehind b hb
                omega
          have hx₁ : s.Boundary next :=
            boundary_of_split hsplit hl hbehind (by omega) (.inl (by omega))
          obtain ⟨s', hloop, hr'⟩ := ih (hr.bufferProtect perm hfree)
            (show next ≤ limit by omega) hx₁ hy (by omega)
          refine ⟨s', ?_, ?_⟩
          · rw [if_neg heq, ← hnext, hloop]
          · have hsize : next - cur + (limit - next) = limit - cur := by omega
            have hcurnext : cur + (next - cur) = next := by omega
            have hpages : protectPages (cur + (next - cur)) (limit - next) perm
                  (protectPages cur (next - cur) perm pages) =
                protectPages cur (next - cur + (limit - next)) perm pages :=
              protectPages_append perm
            rw [protectPages_eq hfree, hcurnext, hsize] at hpages
            rwa [hpages] at hr'
    · refine ⟨s, by rw [HeapTracker.protectLoop, if_neg hdone], ?_⟩
      rwa [protectPages_eq fun v hle hlt => by omega]

/-- The bound on the turns of the loop is never reached. -/
theorem Records.protect {virtualOffset : Nat} (hr : s.Records pages) :
    ∃ s', s.protect bal virtualOffset size perm = some s' ∧
      s'.Records (protectPages virtualOffset size perm pages) := by
  obtain ⟨hr₁, hstart, hend, -⟩ := hr.splitRange bal virtualOffset size
  have hloop := hr₁.protectLoop size perm (Nat.le_add_right virtualOffset size)
    hstart hend (by omega)
  rwa [Nat.add_sub_cancel_left] at hloop

end HeapTracker

end Sudachi.Common
