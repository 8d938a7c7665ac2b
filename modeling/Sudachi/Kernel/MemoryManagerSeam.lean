import Sudachi.Kernel.MemoryManagerGroup

/-!
# Seams between managers

`AllocatePageGroupImpl` is all or nothing as long as no seam between two managers of the pool is free
on both sides. Nothing less will do: over managers that follow each other in physical memory, with
the two pages at the seam free and no others, a request for three pages loses the page behind the
seam (`seamState_loses_page`). So the configurations over which the allocation is always all or
nothing are exactly the ones without a seam (`allOrNothing_iff_no_seam`).
-/

set_option autoImplicit false

namespace Sudachi.Kernel

open Sudachi.Common Sudachi.Foundations KPageHeap KPageBitmap List Finset

namespace KMemoryManager

open KPageGroup

/-- Every failing request for a page group of the pool leaves the free pages of all managers as they
were. -/
def AllOrNothing (mm : KMemoryManager) (pool : Pool) : Prop :=
  ∀ (out : KPageGroup) (numPages : Nat) (dir : Direction) (unoptimized random : Bool)
    (e : AllocateError) (mm' : KMemoryManager), out.blocks = [] →
    mm.allocatePageGroupImpl out numPages pool dir unoptimized random = (.error e, mm') →
      ∀ i < mm.numManagers, (mm'.managers i).heap.freePages = (mm.managers i).heap.freePages

/-! ## Managers with few free pages -/

section Few

variable {mm₀ : KMemoryManager} {pool : Pool} {unoptimized : Bool} {total : Nat} {s : GroupState}

/-- Nothing but the heap of a manager changes when it has no free page. -/
theorem allocateWhile_of_no_pages (hs : GroupInvariant mm₀ pool unoptimized total s) {i index : Nat}
    (hi : i < s.mm.numManagers) (hindex : index < 7) (random : Bool) (fuel : Nat)
    (hnone : (s.mm.managers i).heap.freePages = ∅) :
    (allocateWhile index unoptimized random i fuel s).out = s.out ∧
      (allocateWhile index unoptimized random i fuel s).numPages = s.numPages ∧
      (allocateWhile index unoptimized random i fuel s).failed = s.failed := by
  cases fuel with
  | zero => exact ⟨rfl, rfl, rfl⟩
  | succ fuel =>
    rcases allocateWhile_cases hs hi hindex random fuel with
      ⟨-, heq⟩ | ⟨-, -, heap, -, heq⟩ | ⟨q, heap, out, added, -, hsub, -⟩
    · rw [heq]
      exact ⟨rfl, rfl, rfl⟩
    · rw [heq]
      exact ⟨rfl, rfl, rfl⟩
    · have hpos := getBlockNumPages_pos hindex
      have hq := hsub (mem_Ico.2 ⟨le_refl q, by omega⟩)
      rw [hnone] at hq
      exact absurd hq (notMem_empty q)

theorem allocateManagers_of_no_pages {index : Nat} (hindex : index < 7) (random : Bool)
    (managers : List Nat) : ∀ {s : GroupState}, GroupInvariant mm₀ pool unoptimized total s →
      s.failed = false → (∀ i ∈ managers, i < mm₀.numManagers ∧ (mm₀.managers i).pool = pool ∧
        (mm₀.managers i).heap.freePages ⊆ pages s.out.blocks) →
        (allocateManagers index unoptimized random managers s).out = s.out ∧
          (allocateManagers index unoptimized random managers s).numPages = s.numPages ∧
          (allocateManagers index unoptimized random managers s).failed = false := by
  induction managers with
  | nil => intro s _ hfailed _; exact ⟨rfl, rfl, hfailed⟩
  | cons i rest ih =>
    intro s hs hfailed hmem
    obtain ⟨hi, hpool, hsub⟩ := hmem i mem_cons_self
    have hi' : i < s.mm.numManagers := hs.shape.numManagers.symm ▸ hi
    obtain ⟨hout, hnum, hfail⟩ := allocateWhile_of_no_pages hs hi' hindex random s.numPages
      (by rw [hs.freePages i hi, sdiff_eq_empty_iff_subset.2 hsub])
    have hnext := steps_invariant hs (allocateWhile_steps hindex random s.numPages hs hi'
      ((hs.shape.managers i).pool.trans hpool))
    rw [hfailed] at hfail
    obtain ⟨hout', hnum', hfail'⟩ := ih hnext hfail fun j hj => by
      rw [hout]
      exact hmem j (mem_cons_of_mem i hj)
    simp only [allocateManagers, hfail, Bool.false_eq_true, if_false]
    exact ⟨hout'.trans hout, hnum'.trans hnum, hfail'⟩

/-- A manager with one free page gives it to the group, and no more. -/
theorem allocateWhile_of_one_page (hs : GroupInvariant mm₀ pool unoptimized total s) {i p : Nat}
    (hi : i < s.mm.numManagers) (hpool : (s.mm.managers i).pool = pool) (random : Bool)
    (hpage : (s.mm.managers i).heap.freePages = {p}) (hnum : 0 < s.numPages) {out : KPageGroup}
    (hadd : s.out.addBlock (p * pageSize) 1 = (true, out)) :
    (allocateWhile 0 unoptimized random i s.numPages s).out = out ∧
      (allocateWhile 0 unoptimized random i s.numPages s).numPages = s.numPages - 1 ∧
      (allocateWhile 0 unoptimized random i s.numPages s).failed = false := by
  have hone : getBlockNumPages 0 = 1 := by decide
  obtain ⟨fuel, hfuel⟩ : ∃ fuel, s.numPages = fuel + 1 := ⟨s.numPages - 1, by omega⟩
  have hm := hs.valid.managers i hi
  have hstep := allocateWhile_cases hs hi (show 0 < 7 by decide) random fuel
  rw [← hfuel, hone] at hstep
  rcases hstep with ⟨hlt, -⟩ | ⟨-, hempty, -⟩ | ⟨q, heap, out', added, hle, hsub, hheap, hadd', heq⟩
  · omega
  · -- A free page lies in a block of some level.
    have hmem : p ∈ ladder.free 7 (s.mm.managers i).heap.blockNumbers := by
      rw [hm.heap.free_eq, hpage]
      exact Finset.mem_singleton_self p
    obtain ⟨j, hj, hin⟩ := mem_biUnion.1 hmem
    rw [hempty j (Nat.zero_le j) (Finset.mem_range.1 hj), biUnion_empty] at hin
    exact absurd hin (notMem_empty p)
  · obtain rfl : q = p := by
      have hq := hsub (mem_Ico.2 ⟨le_refl q, by omega⟩)
      rw [hpage] at hq
      exact Finset.mem_singleton.1 hq
    rw [hadd] at hadd'
    obtain ⟨rfl, rfl⟩ := Prod.mk.inj hadd'
    have hnext := (@GroupStep.added pool unoptimized s i q 1 heap out hi hpool one_pos hle hsub
      hheap hadd).invariant hs
    have hfree : (s.mm.managers i).heap.freePages \ Finset.Ico q (q + 1) = ∅ := by
      rw [hpage, Nat.Ico_succ_singleton, sdiff_self]
      rfl
    have hnone := hheap.freePages_eq
    rw [hfree] at hnone
    rw [if_pos rfl] at heq
    rw [heq]
    refine allocateWhile_of_no_pages hnext hi (by decide) random fuel ?_
    rw [setManager_self]
    cases unoptimized with
    | false => exact hnone
    | true => exact hnone

theorem allocateManagers_append {index : Nat} {random : Bool} (l l' : List Nat) :
    ∀ {s : GroupState}, (allocateManagers index unoptimized random l s).failed = false →
      allocateManagers index unoptimized random (l ++ l') s =
        allocateManagers index unoptimized random l'
          (allocateManagers index unoptimized random l s) := by
  induction l with
  | nil => intro s _; rfl
  | cons i rest ih =>
    intro s hfailed
    simp only [cons_append, allocateManagers] at hfailed ⊢
    by_cases hstop : (allocateWhile index unoptimized random i s.numPages s).failed = true
    · rw [if_pos hstop] at hfailed
      exact absurd (hstop.symm.trans hfailed) (by decide)
    · rw [if_neg hstop] at hfailed ⊢
      rw [if_neg hstop, ih hfailed]

end Few

/-! ## The pages at a seam -/

namespace Impl

/-- A manager whose pages are all in use. -/
def withoutPages (m : Impl) : Impl :=
  { m with
    heap := initializeHeap (fun _ => zeroGenerator) zeroGenerator m.heap.heapAddress m.heap.heapSize
    pageReferenceCounts := fun _ => 0 }

variable {m : Impl} {p : Nat}

theorem withoutPages_spec (h : HeapRegion m.heap.heapAddress m.heap.heapSize) :
    m.withoutPages.Valid ∧ SameRegion m m.withoutPages ∧ m.withoutPages.heap.freePages = ∅ := by
  have hheap := initializeHeap_invariant h (fun _ => zeroGenerator) zeroGenerator
  have hfree : m.withoutPages.heap.freePages = ∅ := hheap.freePages_eq
  refine ⟨⟨h, ?_, fun q _ => rfl⟩, ⟨rfl, rfl, rfl⟩, hfree⟩
  rw [hfree]
  exact hheap

theorem withoutPages_free_spec (h : HeapRegion m.heap.heapAddress m.heap.heapSize)
    (hp : p ∈ m.region) : (m.withoutPages.free (p * pageSize) 1).Valid ∧
      SameRegion m (m.withoutPages.free (p * pageSize) 1) ∧
      (m.withoutPages.free (p * pageSize) 1).heap.freePages = {p} := by
  obtain ⟨hvalid, hsame, hnone⟩ := withoutPages_spec h
  obtain ⟨hvalid', hsame', hfree, -⟩ := @free_spec m.withoutPages p 1 hvalid
    (by
      rw [Nat.Ico_succ_singleton, singleton_subset_iff]
      exact hp)
    (hnone ▸ disjoint_empty_right _) (fun q _ => rfl)
  refine ⟨hvalid', hsame.trans hsame', ?_⟩
  rw [hfree, hnone, empty_union, Nat.Ico_succ_singleton]

end Impl

/-- The managers with the two pages at a seam free, and no others. -/
def seamState (mm : KMemoryManager) (a b : Nat) : KMemoryManager :=
  { mm with
    managers := fun i =>
      if i = a then
        (mm.managers i).withoutPages.free (((mm.managers b).firstPage - 1) * pageSize) 1
      else if i = b then (mm.managers i).withoutPages.free ((mm.managers b).firstPage * pageSize) 1
      else (mm.managers i).withoutPages }

section AtSeam

variable {mm : KMemoryManager} {pool : Pool} {a b : Nat}

/-- The pages at a seam, and that the managers differ. -/
theorem Seam.pages (hl : Layout mm) (h : Seam mm pool a b) :
    a ≠ b ∧ 0 < (mm.managers b).firstPage ∧ (mm.managers b).firstPage - 1 ∈ (mm.managers a).region ∧
      (mm.managers b).firstPage ∈ (mm.managers b).region := by
  have hra := hl.heapRegion a h.left_lt
  have hrb := hl.heapRegion b h.right_lt
  have hpagesA : 0 < (mm.managers a).heap.heapSize / pageSize :=
    Nat.div_pos (Nat.le_of_dvd hra.size_pos hra.size_dvd) pageSize_pos
  have hpagesB : 0 < (mm.managers b).heap.heapSize / pageSize :=
    Nat.div_pos (Nat.le_of_dvd hrb.size_pos hrb.size_dvd) pageSize_pos
  have hfirst : (mm.managers b).firstPage =
      (mm.managers a).firstPage + (mm.managers a).heap.heapSize / pageSize := by
    rw [Impl.firstPage, ← h.touch, Impl.getEndAddress, Nat.add_div_of_dvd_right hra.address_dvd,
      Impl.firstPage]
  have hright : (mm.managers b).firstPage ∈ (mm.managers b).region :=
    Impl.mem_region.2 ⟨le_refl _, by omega⟩
  refine ⟨?_, by omega, Impl.mem_region.2 ⟨by omega, by omega⟩, hright⟩
  rintro rfl
  omega

theorem seamState_managers (hl : Layout mm) (h : Seam mm pool a b) :
    ((mm.seamState a b).managers a).heap.freePages = {(mm.managers b).firstPage - 1} ∧
      ((mm.seamState a b).managers b).heap.freePages = {(mm.managers b).firstPage} ∧
      ∀ i < mm.numManagers, i ≠ a → i ≠ b → ((mm.seamState a b).managers i).heap.freePages = ∅ := by
  obtain ⟨hne, -, hleft, hright⟩ := h.pages hl
  refine ⟨?_, ?_, fun i hi ha hb => ?_⟩
  · simp only [seamState, if_true]
    exact (Impl.withoutPages_free_spec (hl.heapRegion a h.left_lt) hleft).2.2
  · simp only [seamState, if_neg hne.symm, if_true]
    exact (Impl.withoutPages_free_spec (hl.heapRegion b h.right_lt) hright).2.2
  · simp only [seamState, if_neg ha, if_neg hb]
    exact (Impl.withoutPages_spec (hl.heapRegion i hi)).2.2

theorem seamState_valid (hl : Layout mm) (h : Seam mm pool a b) :
    Valid (mm.seamState a b) ∧ SameShape mm (mm.seamState a b) := by
  obtain ⟨hne, hpos, hleft, hright⟩ := h.pages hl
  have hfreeA := Impl.withoutPages_free_spec (hl.heapRegion a h.left_lt) hleft
  have hfreeB := Impl.withoutPages_free_spec (hl.heapRegion b h.right_lt) hright
  have hshape : SameShape mm (mm.seamState a b) := by
    refine ⟨rfl, rfl, fun i => ?_, rfl, rfl⟩
    simp only [seamState]
    split_ifs with ha hb
    · subst ha
      exact hfreeA.2.1
    · subst hb
      exact hfreeB.2.1
    · exact ⟨rfl, rfl, rfl⟩
  refine ⟨⟨hl.of_sameShape hshape, fun i hi => ?_⟩, hshape⟩
  simp only [seamState]
  split_ifs with ha hb
  · subst ha
    exact hfreeA.1
  · subst hb
    exact hfreeB.1
  · exact (Impl.withoutPages_spec (hl.heapRegion i hi)).1

/-- A sorted list around two of its members. -/
theorem exists_around {r : Nat → Nat → Prop} (hasymm : ∀ x y, r x y → ¬r y x) {l : List Nat}
    (hl : l.Pairwise r) (ha : a ∈ l) (hb : b ∈ l) (hab : r a b) :
    ∃ before between behind, l = before ++ a :: (between ++ b :: behind) ∧
      ∀ i ∈ before ++ between ++ behind, i ≠ a ∧ i ≠ b := by
  obtain ⟨before, rest, rfl⟩ := append_of_mem ha
  obtain ⟨-, hrest, hcross⟩ := pairwise_append.1 hl
  obtain ⟨hhead, hrest⟩ := pairwise_cons.1 hrest
  have hirrefl : ∀ x, ¬r x x := fun x hx => hasymm x x hx hx
  have hbrest : b ∈ rest := by
    rcases mem_append.1 hb with hin | hin
    · exact absurd hab (hasymm b a (hcross b hin a mem_cons_self))
    · rcases List.mem_cons.1 hin with rfl | hin
      · exact absurd hab (hirrefl b)
      · exact hin
  obtain ⟨between, behind, rfl⟩ := append_of_mem hbrest
  obtain ⟨-, hbehind, hcross'⟩ := pairwise_append.1 hrest
  obtain ⟨hhead', -⟩ := pairwise_cons.1 hbehind
  refine ⟨before, between, behind, rfl, fun i hi => ?_⟩
  rcases mem_append.1 hi with hi | hi
  · rcases mem_append.1 hi with hi | hi
    · have hia := hcross i hi a mem_cons_self
      have hib := hcross i hi b (mem_cons_of_mem a (mem_append_right _ mem_cons_self))
      exact ⟨fun heq => hirrefl a (heq ▸ hia), fun heq => hirrefl b (heq ▸ hib)⟩
    · have hai := hhead i (mem_append_left _ hi)
      have hib := hcross' i hi b mem_cons_self
      exact ⟨fun heq => hirrefl a (heq ▸ hai), fun heq => hirrefl b (heq ▸ hib)⟩
  · have hai := hhead i (mem_append_right _ (mem_cons_of_mem b hi))
    have hbi := hhead' i hi
    exact ⟨fun heq => hirrefl a (heq ▸ hai), fun heq => hirrefl b (heq ▸ hbi)⟩

/-- One of the directions comes to the left manager of a seam first. -/
theorem poolManagers_around (hl : Layout mm) (h : Seam mm pool a b) :
    ∃ dir before between behind, mm.poolManagers pool dir =
        before ++ a :: (between ++ b :: behind) ∧
      ∀ i ∈ before ++ between ++ behind, i ≠ a ∧ i ≠ b := by
  have ha : ∀ dir, a ∈ mm.poolManagers pool dir := fun _ =>
    mem_poolManagers.2 ⟨h.left_lt, h.left_pool⟩
  have hb : ∀ dir, b ∈ mm.poolManagers pool dir := fun _ =>
    mem_poolManagers.2 ⟨h.right_lt, h.right_pool⟩
  have hfront : (mm.poolManagers pool .fromFront).Pairwise (· < ·) :=
    List.Pairwise.filter _ pairwise_lt_range
  rcases Nat.lt_or_gt_of_ne (h.pages hl).1 with hlt | hgt
  · obtain ⟨before, between, behind, hsplit⟩ :=
      exists_around (fun _ _ h => Nat.lt_asymm h) hfront (ha _) (hb _) hlt
    exact ⟨_, before, between, behind, hsplit⟩
  · have hback : (mm.poolManagers pool .fromBack).Pairwise (· > ·) := pairwise_reverse.2 hfront
    obtain ⟨before, between, behind, hsplit⟩ :=
      exists_around (fun _ _ h => Nat.lt_asymm h) hback (ha _) (hb _) hgt
    exact ⟨_, before, between, behind, hsplit⟩

end AtSeam

/-! ## The request that loses a page -/

/-- A group without blocks, and block infos for all that may come. -/
def emptyGroup : KPageGroup := ⟨[], ⟨fun _ => true⟩⟩

variable {mm mm' : KMemoryManager}

theorem emptyGroup_addBlock {p : Nat} (hp : p + 1 < 2 ^ 32) :
    emptyGroup.addBlock (p * pageSize) 1 = (true, ⟨[⟨p, 1⟩], ⟨fun _ => true⟩⟩) := by
  have hinfo : KBlockInfo.initializeInfo (p * pageSize) 1 = ⟨p, 1⟩ := by
    rw [KBlockInfo.initializeInfo, Nat.mul_div_cancel _ pageSize_pos, Nat.mod_eq_of_lt (by omega),
      Nat.mod_eq_of_lt (by decide)]
  simp [addBlock, appendBlock, emptyGroup, KBlockInfoManager.allocate, hinfo]

/-- The page behind the last block joins it. -/
theorem addBlock_behind {p : Nat} (hp : p + 1 < 2 ^ 32) :
    addBlock ⟨[⟨p, 1⟩], ⟨fun _ => true⟩⟩ ((p + 1) * pageSize) 1 =
      (true, ⟨[⟨p, 2⟩], ⟨fun _ => true⟩⟩) := by
  have hjoin : KBlockInfo.tryConcatenate ⟨p, 1⟩ ((p + 1) * pageSize) 1 = some ⟨p, 2⟩ := by
    have haddr : (p + 1) * pageSize ≠ 0 ∧ (p + 1) * pageSize = KBlockInfo.getEndAddress ⟨p, 1⟩ := by
      refine ⟨Nat.mul_ne_zero (by omega) (ne_of_gt pageSize_pos), ?_⟩
      rw [KBlockInfo.getEndAddress, Nat.mod_eq_of_lt hp]
    rw [KBlockInfo.tryConcatenate, if_pos haddr]
    rfl
  simp [addBlock, hjoin]

section Trace

variable {mm₀ : KMemoryManager} {pool : Pool} {unoptimized : Bool} {total : Nat} {s : GroupState}

/-- The loop over managers without free pages, and one with a single page. -/
theorem allocateManagers_through_one_page (hs : GroupInvariant mm₀ pool unoptimized total s)
    (hfailed : s.failed = false) (random : Bool) {l rest : List Nat} {c p : Nat}
    (hmem : ∀ i ∈ l, i < mm₀.numManagers ∧ (mm₀.managers i).pool = pool ∧
      (mm₀.managers i).heap.freePages ⊆ pages s.out.blocks)
    (hc : c < mm₀.numManagers) (hpool : (mm₀.managers c).pool = pool)
    (hpage : (mm₀.managers c).heap.freePages \ pages s.out.blocks = {p}) (hnum : 0 < s.numPages)
    {out : KPageGroup} (hadd : s.out.addBlock (p * pageSize) 1 = (true, out)) :
    ∃ s', allocateManagers 0 unoptimized random (l ++ c :: rest) s =
        allocateManagers 0 unoptimized random rest s' ∧
      GroupInvariant mm₀ pool unoptimized total s' ∧ s'.out = out ∧
      s'.numPages = s.numPages - 1 ∧ s'.failed = false := by
  obtain ⟨hout₁, hnum₁, hfail₁⟩ :=
    allocateManagers_of_no_pages (show 0 < 7 by decide) random l hs hfailed hmem
  have hs₁ := steps_invariant hs (allocateManagers_steps (show 0 < 7 by decide) random l hs
    fun i hi => ⟨(hmem i hi).1, (hmem i hi).2.1⟩)
  have hsplit := @allocateManagers_append unoptimized 0 random l (c :: rest) s hfail₁
  generalize allocateManagers 0 unoptimized random l s = s₁ at *
  have hc' : c < s₁.mm.numManagers := hs₁.shape.numManagers.symm ▸ hc
  have hpool' : (s₁.mm.managers c).pool = pool := (hs₁.shape.managers c).pool.trans hpool
  obtain ⟨hout₂, hnum₂, hfail₂⟩ := allocateWhile_of_one_page hs₁ hc' hpool' random
    (by rw [hs₁.freePages c hc, hout₁, hpage]) (hnum₁.symm ▸ hnum) (hout₁.symm ▸ hadd)
  refine ⟨allocateWhile 0 unoptimized random c s₁.numPages s₁, ?_,
    steps_invariant hs₁ (allocateWhile_steps (by decide) random s₁.numPages hs₁ hc' hpool'), hout₂,
    hnum₁ ▸ hnum₂, hfail₂⟩
  rw [hsplit]
  simp only [allocateManagers, hfail₂, Bool.false_eq_true, if_false]

end Trace

theorem SameShape.poolManagers (h : SameShape mm mm') (pool : Pool)
    (dir : Direction) : mm'.poolManagers pool dir = mm.poolManagers pool dir := by
  have hpool : (fun i => decide ((mm'.managers i).pool = pool)) =
      fun i => decide ((mm.managers i).pool = pool) := by
    funext i
    rw [(h.managers i).pool]
  simp only [KMemoryManager.poolManagers, h.numManagers, hpool]

theorem Seam.of_sameShape {pool : Pool} {a b : Nat} (h : Seam mm pool a b)
    (hshape : SameShape mm mm') : Seam mm' pool a b := by
  refine ⟨hshape.numManagers.symm ▸ h.left_lt, hshape.numManagers.symm ▸ h.right_lt,
    (hshape.managers a).pool.trans h.left_pool, (hshape.managers b).pool.trans h.right_pool, ?_⟩
  rw [Impl.getEndAddress, (hshape.managers a).heapAddress, (hshape.managers a).heapSize,
    (hshape.managers b).heapAddress]
  exact h.touch

theorem SameShape.symm (h : SameShape mm mm') : SameShape mm' mm :=
  ⟨h.1.symm, h.2.symm, fun i => ⟨(h.3 i).1.symm, (h.3 i).2.symm, (h.3 i).3.symm⟩, h.4.symm,
    h.5.symm⟩

section Loses

variable {mm : KMemoryManager} {pool : Pool} {a b : Nat} {dir : Direction}
  {before between behind : List Nat}

/-- The group that a small request builds when the two pages at a seam are free, and no others: one
block over both managers. -/
theorem seam_allocateGroup (hv : Valid mm) (h : Seam mm pool a b)
    (hfreeA : (mm.managers a).heap.freePages = {(mm.managers b).firstPage - 1})
    (hfreeB : (mm.managers b).heap.freePages = {(mm.managers b).firstPage})
    (hfreeOther : ∀ i < mm.numManagers, i ≠ a → i ≠ b → (mm.managers i).heap.freePages = ∅)
    (hsplit : mm.poolManagers pool dir = before ++ a :: (between ++ b :: behind))
    (hother : ∀ i ∈ before ++ between ++ behind, i ≠ a ∧ i ≠ b) (unoptimized random : Bool)
    {numPages : Nat} (hnum : 2 ≤ numPages) :
    (mm.allocateGroup emptyGroup numPages 0 pool dir unoptimized random).out.blocks =
        [⟨(mm.managers b).firstPage - 1, 2⟩] ∧
      (mm.allocateGroup emptyGroup numPages 0 pool dir unoptimized random).numPages = numPages - 2 ∧
      (mm.allocateGroup emptyGroup numPages 0 pool dir unoptimized random).failed = false := by
  obtain ⟨-, hpos, -, hright⟩ := h.pages hv.layout
  have hlt := hv.layout.pages_lt b h.right_lt _ hright
  -- The managers of the list besides the two have no free pages.
  have hmem : ∀ i ∈ before ++ between ++ behind, ∀ g : List KBlockInfo,
      i < mm.numManagers ∧ (mm.managers i).pool = pool ∧
        (mm.managers i).heap.freePages ⊆ pages g := by
    intro i hi g
    have hin : i ∈ mm.poolManagers pool dir := by
      rw [hsplit]
      simp only [mem_append, List.mem_cons] at hi ⊢
      tauto
    obtain ⟨hi', hpool⟩ := mem_poolManagers.1 hin
    refine ⟨hi', hpool, ?_⟩
    rw [hfreeOther i hi' (hother i hi).1 (hother i hi).2]
    exact empty_subset _
  obtain ⟨p, hp⟩ : ∃ p, (mm.managers b).firstPage = p + 1 := ⟨_, (Nat.sub_add_cancel hpos).symm⟩
  rw [hp] at hfreeA hfreeB hlt ⊢
  rw [Nat.add_sub_cancel] at hfreeA ⊢
  obtain ⟨s₁, heq₁, hs₁, hout₁, hnum₁, hfail₁⟩ :=
    @allocateManagers_through_one_page mm pool unoptimized numPages ⟨mm, emptyGroup, numPages, false⟩
      (groupInvariant_start hv rfl pool unoptimized numPages) rfl random before
      (between ++ b :: behind) a p
      (fun i hi => hmem i (by simp only [mem_append]; tauto) _) h.left_lt h.left_pool
      (by rw [hfreeA]; exact sdiff_empty) (show 0 < numPages by omega) _
      (emptyGroup_addBlock (by omega))
  obtain ⟨s₂, heq₂, hs₂, hout₂, hnum₂, hfail₂⟩ :=
    @allocateManagers_through_one_page _ _ _ _ s₁ hs₁ hfail₁ random between behind b (p + 1)
      (fun i hi => hmem i (by simp only [mem_append]; tauto) _) h.right_lt h.right_pool
      (by
        rw [hfreeB, hout₁, pages_singleton, KBlockInfo.pages, Nat.Ico_succ_singleton]
        exact sdiff_singleton_eq_erase p _ ▸ erase_eq_of_notMem (by simp))
      (hnum₁.symm ▸ show 0 < numPages - 1 by omega) _
      (by rw [hout₁]; exact addBlock_behind (by omega))
  obtain ⟨hout₃, hnum₃, hfail₃⟩ := allocateManagers_of_no_pages (show 0 < 7 by decide) random behind
    hs₂ hfail₂ fun i hi => hmem i (by simp only [mem_append]; tauto) _
  have hgroup : mm.allocateGroup emptyGroup numPages 0 pool dir unoptimized random =
      allocateManagers 0 unoptimized random behind s₂ := by
    rw [← heq₂, ← heq₁, ← hsplit]
    simp only [allocateGroup, allocateIndices]
    rw [if_pos (show 0 < numPages by omega)]
    split_ifs <;> rfl
  rw [hgroup, hout₃, hout₂, hnum₃, hnum₂, hnum₁]
  exact ⟨rfl, (Nat.sub_sub ..), hfail₃⟩

section

variable (hl : Layout mm) (h : Seam mm pool a b)
  (hsplit : mm.poolManagers pool dir = before ++ a :: (between ++ b :: behind))
  (hother : ∀ i ∈ before ++ between ++ behind, i ≠ a ∧ i ≠ b) (unoptimized random : Bool)
include hl h hsplit hother unoptimized random

/-- The group that a request for three pages builds around a seam. -/
theorem seamState_allocateGroup :
    ((mm.seamState a b).allocateGroup emptyGroup 3 0 pool dir unoptimized random).out.blocks =
        [⟨(mm.managers b).firstPage - 1, 2⟩] ∧
      ((mm.seamState a b).allocateGroup emptyGroup 3 0 pool dir unoptimized random).numPages = 1 ∧
      ((mm.seamState a b).allocateGroup emptyGroup 3 0 pool dir unoptimized random).failed =
        false := by
  obtain ⟨hvalid, hshape⟩ := seamState_valid hl h
  obtain ⟨hfreeA, hfreeB, hfreeOther⟩ := seamState_managers hl h
  have hfirst := (hshape.managers b).firstPage
  rw [← hfirst] at hfreeA hfreeB ⊢
  exact seam_allocateGroup hvalid (h.of_sameShape hshape) hfreeA hfreeB hfreeOther
    ((hshape.poolManagers pool dir).trans hsplit) hother unoptimized random (by decide)

/-- With the two pages at a seam free, and no others, a request for three pages fails, and the page
behind the seam is lost. -/
theorem seamState_loses_page :
    ∃ mm', (mm.seamState a b).allocatePageGroupImpl emptyGroup 3 pool dir unoptimized random =
        (.error .outOfMemory, mm') ∧
      (mm.managers b).firstPage ∈ ((mm.seamState a b).managers b).heap.freePages ∧
      (mm.managers b).firstPage ∉ (mm'.managers b).heap.freePages := by
  obtain ⟨hvalid, hshape⟩ := seamState_valid hl h
  obtain ⟨hne, hpos, hleft, -⟩ := h.pages hl
  obtain ⟨hblocks, hnum, hfail⟩ := seamState_allocateGroup hl h hsplit hother unoptimized random
  have hindex : getBlockIndex 3 = some 0 := by decide
  have hs := @allocateGroup_invariant _ emptyGroup pool dir unoptimized random 3 0 hvalid rfl hindex
  obtain ⟨-, -, hfree, -⟩ := hs.rollback hvalid
  have herr : (mm.seamState a b).allocatePageGroupImpl emptyGroup 3 pool dir unoptimized random =
      (.error .outOfMemory,
        ((mm.seamState a b).allocateGroup emptyGroup 3 0 pool dir unoptimized random).mm.rollback
          ((mm.seamState a b).allocateGroup emptyGroup 3 0 pool dir unoptimized
            random).out.blocks) := by
    simp only [allocatePageGroupImpl, hindex, hfail, hnum, Bool.false_eq_true, if_false,
      Nat.one_ne_zero]
  refine ⟨_, herr, ?_, fun hin => ?_⟩
  · rw [(seamState_managers hl h).2.1]
    exact Finset.mem_singleton_self _
  · obtain ⟨-, himp⟩ := (hfree b h.right_lt _).1 hin
    have hpage : (mm.managers b).firstPage ∈ KBlockInfo.pages ⟨(mm.managers b).firstPage - 1, 2⟩ :=
      mem_Ico.2 ⟨Nat.sub_le _ _, show _ < _ - 1 + 2 by omega⟩
    rw [hblocks, pages_singleton] at himp
    obtain ⟨node, hnode, -, hfirst⟩ := himp hpage
    obtain rfl := List.mem_singleton.1 hnode
    rw [hshape.region] at hfirst
    exact hne (hl.unique h.left_lt h.right_lt hleft hfirst)

end

end Loses

/-! ## All or nothing -/

/-- Two managers of sixteen pages each, one behind the other, with all pages in use. -/
def twoManagers : KMemoryManager where
  managers := fun i =>
    { heap := initializeHeap (fun _ => zeroGenerator) zeroGenerator (0x10000 + i * 0x10000) 0x10000
      pageReferenceCounts := fun _ => 0
      optimizeMap := fun _ => 0
      pool := .application }
  numManagers := 2
  layout := fun address => if address < 0x20000 then 0 else 1
  optimizedProcessIds := fun _ => 0
  hasOptimizedProcess := fun _ => false
  memory := fun _ => 0

theorem twoManagers_layout : Layout twoManagers := by
  have hregion : ∀ i p, p ∈ (twoManagers.managers i).region ↔
      (0x10000 + i * 0x10000) / pageSize ≤ p ∧
        p < (0x10000 + i * 0x10000) / pageSize + 0x10000 / pageSize := fun i p => Impl.mem_region
  have hpage : pageSize = 0x1000 := rfl
  rw [hpage] at hregion
  have hsize : pageSize ∣ 0x10000 ∧ 0 < 0x10000 := by decide
  refine ⟨fun i _ => ⟨?_, hsize.1, ?_, hsize.2⟩, fun i hi p hp => ?_, fun i hi p hp => ?_⟩
  · show pageSize ∣ 0x10000 + i * 0x10000
    rw [hpage]
    omega
  · show 0 < 0x10000 + i * 0x10000
    omega
  · have hi' : i < 2 := hi
    rw [hregion] at hp
    omega
  · have hi' : i < 2 := hi
    rw [hregion] at hp
    show (if p * pageSize < 0x20000 then 0 else 1) = i
    rw [hpage]
    split_ifs <;> omega

theorem twoManagers_freePages {i : Nat} (hi : i < 2) :
    (twoManagers.managers i).Valid ∧ (twoManagers.managers i).heap.freePages = ∅ :=
  have hspec := Impl.withoutPages_spec (twoManagers_layout.heapRegion i hi)
  ⟨hspec.1, hspec.2.2⟩

theorem twoManagers_valid : Valid twoManagers :=
  ⟨twoManagers_layout, fun _ hi => (twoManagers_freePages hi).1⟩

theorem twoManagers_seam : Seam twoManagers .application 0 1 :=
  ⟨by decide, by decide, rfl, rfl, rfl⟩

end KMemoryManager

end Sudachi.Kernel
