import Sudachi.Kernel.MemoryManagerSeam

/-!
# References over runs

The pages that the allocations take leave the free pages of their managers and get their first
reference: in the call for `AllocateAndOpen` and `AllocateAndOpenContinuous`, by `OpenFirst` for the
pages that `AllocateForProcess` hands out. Over every run in which `OpenFirst` is applied to such
pages, `Open` to pages with a reference, and every `Close` matches an earlier open, a page is free
exactly when it has no reference and is not waiting for its first one, and `Close` frees exactly the
pages whose count drops to zero (`referenceRun_spec`).
-/

set_option autoImplicit false

namespace Sudachi.Kernel

open Sudachi.Common Sudachi.Foundations KPageHeap Finset

namespace KMemoryManager

open KPageGroup

/-! ## Opening the pages of a group -/

/-- The managers after the pages of a set have been opened once. -/
structure Opened (mm mm' : KMemoryManager) (S : Finset Nat) : Prop where
  shape : SameShape mm mm'
  valid : Valid mm'
  refCount : ∀ i < mm.numManagers, ∀ q ∈ (mm.managers i).region, (mm'.managers i).refCount q =
    if q ∈ S then (mm.managers i).refCount q + 1 else (mm.managers i).refCount q
  freePages : ∀ i < mm.numManagers, (mm'.managers i).heap.freePages = (mm.managers i).heap.freePages
  optimizeMap : ∀ i, (mm'.managers i).optimizeMap = (mm.managers i).optimizeMap

section Opening

variable {mm mm' mm'' : KMemoryManager} {S T : Finset Nat}

theorem opened_empty (hv : Valid mm) : Opened mm mm ∅ := by
  refine ⟨SameShape.refl mm, hv, fun i _ q _ => ?_, fun _ _ => rfl, fun _ => rfl⟩
  rw [if_neg (notMem_empty q)]

theorem Opened.trans (h : Opened mm mm' S) (h' : Opened mm' mm'' T) (hdis : Disjoint S T) :
    Opened mm mm'' (S ∪ T) := by
  refine ⟨h.shape.trans h'.shape, h'.valid, fun i hi q hq => ?_, fun i hi => ?_, fun i => ?_⟩
  · rw [h'.refCount i (h.shape.numManagers.symm ▸ hi) q ((h.shape.region i).symm ▸ hq),
      h.refCount i hi q hq]
    by_cases hT : q ∈ T
    · rw [if_pos hT, if_neg (disjoint_right.1 hdis hT), if_pos (mem_union_right S hT)]
    · rw [if_neg hT]
      simp only [mem_union, hT, or_false]
  · rw [h'.freePages i (h.shape.numManagers.symm ▸ hi), h.freePages i hi]
  · rw [h'.optimizeMap, h.optimizeMap]

/-- `Open` and `OpenFirst` of managed pages that are not free. -/
theorem openPages_opened (hv : Valid mm) {p n : Nat}
    (hmanaged : ∀ q ∈ Finset.Ico p (p + n), Managed mm q)
    (hused : ∀ i < mm.numManagers, ∀ q ∈ Finset.Ico p (p + n), q ∈ (mm.managers i).region →
      q ∉ (mm.managers i).heap.freePages) :
    Opened mm (mm.openPages (p * pageSize) n) (Finset.Ico p (p + n)) := by
  obtain ⟨hshape, hcounted⟩ := openPages_spec hv hmanaged hused
  refine ⟨hshape, hcounted.valid, hcounted.refCount, fun i hi => ?_, hcounted.optimizeMap⟩
  rw [hcounted.freePages i hi]
  simp only [Bool.false_eq_true, and_false, filter_false, union_empty]

/-- The loop of `AllocateAndOpen` over the blocks of a group. -/
theorem openBlocks_opened (blocks : List KBlockInfo) : ∀ {mm : KMemoryManager}, Valid mm →
    blocks.Pairwise (fun b b' => Disjoint b.pages b'.pages) → (∀ p ∈ pages blocks, Managed mm p) →
    (∀ i < mm.numManagers, ∀ p ∈ pages blocks, p ∈ (mm.managers i).region →
      p ∉ (mm.managers i).heap.freePages) → Opened mm (blocks.foldl (fun mm block =>
        rangeLoop Impl.openFirst block.getNumPages block.getAddress block.getNumPages mm) mm)
        (pages blocks) := by
  induction blocks with
  | nil => intro mm hv _ _ _; exact opened_empty hv
  | cons b rest ih =>
    intro mm hv hdis hmanaged hused
    obtain ⟨hhead, hrest⟩ := List.pairwise_cons.1 hdis
    have hsplit : pages (b :: rest) = b.pages ∪ pages rest := rfl
    rw [hsplit] at hmanaged hused ⊢
    have hfirst : Opened mm (mm.openPages (b.pageIndex * pageSize) b.numPages) b.pages :=
      openPages_opened hv (fun q hq => hmanaged q (mem_union_left _ hq))
        fun i hi q hq => hused i hi q (mem_union_left _ hq)
    refine hfirst.trans (ih hfirst.valid hrest (fun p hp => ?_) fun i hi p hp hreg => ?_) ?_
    · obtain ⟨i, hi, hreg⟩ := hmanaged p (mem_union_right _ hp)
      exact ⟨i, hfirst.shape.numManagers.symm ▸ hi, (hfirst.shape.region i).symm ▸ hreg⟩
    · have hi₀ : i < mm.numManagers := hfirst.shape.numManagers ▸ hi
      rw [hfirst.freePages i hi₀]
      exact hused i hi₀ p (mem_union_right _ hp) (hfirst.shape.region i ▸ hreg)
    · refine disjoint_right.2 fun p hp hpb => ?_
      obtain ⟨b', hb', hp'⟩ := mem_pages.1 hp
      exact disjoint_left.1 (hhead b' hb') hpb hp'

end Opening

/-! ## Taking pages -/

/-- The managers after pages have been taken out of the heaps of a pool, with what this does to
their references. -/
structure TakenPages (mm mm' : KMemoryManager) (pool : Pool) (change : BitVec 16 → BitVec 16)
    (S : Finset Nat) : Prop where
  shape : SameShape mm mm'
  valid : Valid mm'
  source : ∀ p ∈ S, ∃ i < mm.numManagers, (mm.managers i).pool = pool ∧
    p ∈ (mm.managers i).heap.freePages
  freePages : ∀ i < mm.numManagers,
    (mm'.managers i).heap.freePages = (mm.managers i).heap.freePages \ S
  refCount : ∀ i < mm.numManagers, ∀ q ∈ (mm.managers i).region, (mm'.managers i).refCount q =
    if q ∈ S then change ((mm.managers i).refCount q) else (mm.managers i).refCount q

/-- The same, with what it does to the marks of the pages. -/
structure Taken (mm mm' : KMemoryManager) (pool : Pool) (unoptimized : Bool)
    (change : BitVec 16 → BitVec 16) (S : Finset Nat) : Prop
    extends TakenPages mm mm' pool change S where
  marked : ∀ i < mm.numManagers, ∀ q ∈ (mm.managers i).region, (mm'.managers i).marked q =
    if unoptimized = true ∧ q ∈ S then false else (mm.managers i).marked q

section Taking

variable {mm mm₁ mm' : KMemoryManager} {pool : Pool} {unoptimized : Bool}
  {change : BitVec 16 → BitVec 16} {S : Finset Nat}

theorem Opened.marked_eq (h : Opened mm mm' S) (i q : Nat) :
    (mm'.managers i).marked q = (mm.managers i).marked q := by
  rw [Impl.marked, Impl.marked, h.optimizeMap, (h.shape.managers i).firstPage]

theorem Taken.opened (ht : Taken mm mm₁ pool unoptimized id S) (ho : Opened mm₁ mm' S) :
    Taken mm mm' pool unoptimized (· + 1) S := by
  refine ⟨⟨ht.shape.trans ho.shape, ho.valid, ht.source, fun i hi => ?_, fun i hi q hq => ?_⟩,
    fun i hi q hq => ?_⟩
  · rw [ho.freePages i (ht.shape.numManagers.symm ▸ hi), ht.freePages i hi]
  · rw [ho.refCount i (ht.shape.numManagers.symm ▸ hi) q ((ht.shape.region i).symm ▸ hq),
      ht.refCount i hi q hq]
    by_cases hS : q ∈ S
    · rw [if_pos hS, if_pos hS, if_pos hS, id]
    · rw [if_neg hS, if_neg hS, if_neg hS]
  · rw [ho.marked_eq i q, ht.marked i hi q hq]

theorem taken_empty (hv : Valid mm) (pool : Pool) (unoptimized : Bool)
    (change : BitVec 16 → BitVec 16) : Taken mm mm pool unoptimized change ∅ := by
  refine ⟨⟨SameShape.refl mm, hv, fun p hp => absurd hp (notMem_empty p),
    fun i _ => sdiff_empty.symm, fun i _ q _ => ?_⟩, fun i _ q _ => ?_⟩
  · rw [if_neg (notMem_empty q)]
  · rw [if_neg fun h => notMem_empty q h.2]

/-- Taking pages after nothing has been taken. -/
theorem Taken.after_empty {change' : BitVec 16 → BitVec 16} {unoptimized' : Bool}
    (h : Taken mm mm₁ pool unoptimized' change' ∅) (h' : Taken mm₁ mm' pool unoptimized change S) :
    Taken mm mm' pool unoptimized change S := by
  have hnum : mm₁.numManagers = mm.numManagers := h.shape.numManagers
  have hregion := h.shape.region
  have hfree : ∀ i < mm.numManagers, (mm₁.managers i).heap.freePages =
      (mm.managers i).heap.freePages := by
    intro i hi
    rw [h.freePages i hi, sdiff_empty]
  have hcount : ∀ i < mm.numManagers, ∀ q ∈ (mm.managers i).region, (mm₁.managers i).refCount q =
      (mm.managers i).refCount q := by
    intro i hi q hq
    rw [h.refCount i hi q hq, if_neg (notMem_empty q)]
  have hmark : ∀ i < mm.numManagers, ∀ q ∈ (mm.managers i).region, (mm₁.managers i).marked q =
      (mm.managers i).marked q := by
    intro i hi q hq
    rw [h.marked i hi q hq, if_neg fun hin => notMem_empty q hin.2]
  refine ⟨⟨h.shape.trans h'.shape, h'.valid, fun p hp => ?_, fun i hi => ?_,
    fun i hi q hq => ?_⟩, fun i hi q hq => ?_⟩
  · obtain ⟨i, hi, hpool, hp⟩ := h'.source p hp
    have hi' : i < mm.numManagers := hnum ▸ hi
    exact ⟨i, hi', (h.shape.managers i).pool.symm.trans hpool, hfree i hi' ▸ hp⟩
  · rw [h'.freePages i (hnum.symm ▸ hi), hfree i hi]
  · rw [h'.refCount i (hnum.symm ▸ hi) q ((hregion i).symm ▸ hq), hcount i hi q hq]
  · rw [h'.marked i (hnum.symm ▸ hi) q ((hregion i).symm ▸ hq), hmark i hi q hq]

/-- Taking pages out of one manager. -/
theorem taken_setManager (hv : Valid mm) {i : Nat} {m : Impl} (hi : i < mm.numManagers)
    (hpool : (mm.managers i).pool = pool) (hsame : Impl.SameRegion (mm.managers i) m) (hm : m.Valid)
    (hS : S ⊆ (mm.managers i).heap.freePages)
    (hfree : m.heap.freePages = (mm.managers i).heap.freePages \ S)
    (hcount : ∀ q ∈ (mm.managers i).region, m.refCount q =
      if q ∈ S then change ((mm.managers i).refCount q) else (mm.managers i).refCount q)
    (hmark : ∀ q ∈ (mm.managers i).region, m.marked q =
      if unoptimized = true ∧ q ∈ S then false else (mm.managers i).marked q) :
    Taken mm (mm.setManager i m) pool unoptimized change S := by
  have hother : ∀ {j : Nat}, j < mm.numManagers → j ≠ i → ∀ q ∈ (mm.managers j).region, q ∉ S := by
    intro j hj hji q hq hqS
    exact hji (hv.layout.unique hj hi hq ((hv.managers i hi).freePages_subset (hS hqS)))
  refine ⟨⟨sameShape_setManager hsame, hv.setManager hsame hm, fun p hp => ⟨i, hi, hpool, hS hp⟩,
    fun j hj => ?_, fun j hj q hq => ?_⟩, fun j hj q hq => ?_⟩ <;> by_cases hji : j = i
  · subst hji
    rw [setManager_self, hfree]
  · rw [setManager_of_ne mm m hji]
    refine (sdiff_eq_self_of_disjoint (disjoint_left.2 fun q hq => ?_)).symm
    exact hother hj hji q ((hv.managers j hj).freePages_subset hq)
  · subst hji
    rw [setManager_self]
    exact hcount q hq
  · rw [setManager_of_ne mm m hji, if_neg (hother hj hji q hq)]
  · subst hji
    rw [setManager_self]
    exact hmark q hq
  · rw [setManager_of_ne mm m hji, if_neg fun h => hother hj hji q hq h.2]

end Taking

/-! ## Allocating groups -/

section Groups

variable {mm mm' : KMemoryManager} {out g : KPageGroup} {pool : Pool} {dir : Direction}
  {unoptimized random : Bool} {numPages total : Nat} {s : GroupState}

/-- What a success of `AllocatePageGroupImpl` means. -/
theorem allocatePageGroupImpl_ok (hv : Valid mm) (hout : out.blocks = [])
    (hok : mm.allocatePageGroupImpl out numPages pool dir unoptimized random = (.ok g, mm')) :
    GroupInvariant mm pool unoptimized numPages ⟨mm', g, 0, false⟩ := by
  rw [allocatePageGroupImpl] at hok
  cases hindex : getBlockIndex numPages with
  | none =>
    rw [hindex] at hok
    exact absurd (Prod.mk.inj hok).1 (by simp)
  | some heapIndex =>
    have hs := @allocateGroup_invariant mm out pool dir unoptimized random numPages heapIndex hv hout
      hindex
    simp only [hindex] at hok
    generalize mm.allocateGroup out numPages heapIndex pool dir unoptimized random = s at hs hok
    obtain ⟨smm, sout, snum, sfailed⟩ := s
    split_ifs at hok with hfailed hzero
    · exact absurd (Prod.mk.inj hok).1 (by simp)
    · obtain ⟨h1, h2⟩ := Prod.mk.inj hok
      obtain rfl : sout = g := Except.ok.inj h1
      obtain rfl : smm = mm' := h2
      obtain rfl : snum = 0 := hzero
      obtain rfl : sfailed = false := by simpa using hfailed
      exact hs
    · exact absurd (Prod.mk.inj hok).1 (by simp)

theorem GroupInvariant.taken (hs : GroupInvariant mm pool unoptimized total s) :
    Taken mm s.mm pool unoptimized id (pages s.out.blocks) := by
  refine ⟨⟨hs.shape, hs.valid, hs.source, hs.freePages, fun i _ q _ => ?_⟩, hs.marked⟩
  rw [Impl.refCount, Impl.refCount, hs.counts, (hs.shape.managers i).firstPage, id, ite_self]

/-- Pages that have been taken are managed and not free any more. -/
theorem TakenPages.managed {change : BitVec 16 → BitVec 16} {S : Finset Nat} (hv : Valid mm)
    (ht : TakenPages mm mm' pool change S) {p : Nat} (hp : p ∈ S) : Managed mm' p := by
  obtain ⟨i, hi, -, hfree⟩ := ht.source p hp
  exact ⟨i, ht.shape.numManagers.symm ▸ hi,
    (ht.shape.region i).symm ▸ (hv.managers i hi).freePages_subset hfree⟩

theorem TakenPages.not_free {change : BitVec 16 → BitVec 16} {S : Finset Nat}
    (ht : TakenPages mm mm' pool change S) {i p : Nat} (hi : i < mm'.numManagers)
    (hp : p ∈ S) : p ∉ (mm'.managers i).heap.freePages := by
  rw [ht.freePages i (ht.shape.numManagers ▸ hi)]
  exact fun hin => (mem_sdiff.1 hin).2 hp

/-- A success of `AllocateAndOpen`: the pages of the group are taken, with a reference each. -/
theorem allocateAndOpen_ok (hv : Valid mm) (hout : out.blocks = [])
    (hok : mm.allocateAndOpen out numPages pool dir = (.ok g, mm')) :
    Taken mm mm' pool (mm.hasOptimizedProcess pool) (· + 1) (pages g.blocks) ∧
      (pages g.blocks).card = numPages := by
  rw [allocateAndOpen] at hok
  split_ifs at hok with hzero
  · obtain ⟨h1, rfl⟩ := Prod.mk.inj hok
    obtain rfl : out = g := Except.ok.inj h1
    rw [hout]
    exact ⟨taken_empty hv pool _ _, hzero.symm⟩
  · rcases halloc : mm.allocatePageGroupImpl out numPages pool dir (mm.hasOptimizedProcess pool)
      true with ⟨e | g', mm₁⟩
    · rw [halloc] at hok
      exact absurd (Prod.mk.inj hok).1 (by simp)
    · rw [halloc] at hok
      obtain ⟨h1, rfl⟩ := Prod.mk.inj hok
      obtain rfl : g' = g := Except.ok.inj h1
      have hs := allocatePageGroupImpl_ok hv hout halloc
      have hcard := hs.card
      refine ⟨hs.taken.opened (openBlocks_opened g'.blocks hs.valid hs.disjoint
        (fun p hp => hs.taken.managed hv hp) fun i hi p hp _ => hs.taken.not_free hi hp), ?_⟩
      simpa using hcard

theorem rollback_optimizeMap (blocks : List KBlockInfo) : ∀ (mm : KMemoryManager) (i : Nat),
    ((mm.rollback blocks).managers i).optimizeMap = (mm.managers i).optimizeMap := by
  induction blocks with
  | nil => intro mm i; rfl
  | cons b rest ih =>
    intro mm i
    have hroll : mm.rollback (b :: rest) = (mm.freeNode b).rollback rest := rfl
    rw [hroll, ih]
    by_cases hi : i = mm.layout b.getAddress
    · subst hi
      simp only [freeNode, setManager_self]
      rfl
    · simp only [freeNode]
      rw [setManager_of_ne _ _ hi]

/-- The managers after an allocation has failed. Pages may have lost their marks. -/
structure Failed (mm mm' : KMemoryManager) (pool : Pool) : Prop where
  shape : SameShape mm mm'
  valid : Valid mm'
  refCount : ∀ i, (mm'.managers i).pageReferenceCounts = (mm.managers i).pageReferenceCounts
  marked : ∀ i < mm.numManagers, ∀ q ∈ (mm.managers i).region, (mm'.managers i).marked q = true →
    (mm.managers i).marked q = true
  freePages : (∀ a b, ¬FreeSeam mm pool a b) → ∀ i < mm.numManagers,
    (mm'.managers i).heap.freePages = (mm.managers i).heap.freePages

theorem allocatePageGroupImpl_failed (hv : Valid mm) (hout : out.blocks = []) {e : AllocateError}
    (herr : mm.allocatePageGroupImpl out numPages pool dir unoptimized random = (.error e, mm')) :
    Failed mm mm' pool := by
  have hfree := (allocatePageGroupImpl_error hv hout herr).2
  rcases allocatePageGroupImpl_error_cases herr with ⟨-, rfl⟩ | ⟨heapIndex, hsome, rfl⟩
  · exact ⟨SameShape.refl _, hv, fun _ => rfl, fun _ _ _ _ h => h, hfree⟩
  · have hs := @allocateGroup_invariant mm out pool dir unoptimized random numPages heapIndex hv hout
      hsome
    obtain ⟨hvalid, hshape, -, hcounts⟩ := hs.rollback hv
    refine ⟨hshape, hvalid, hcounts, fun i hi q hq hmark => ?_, hfree⟩
    rw [Impl.marked, rollback_optimizeMap, (hshape.managers i).firstPage] at hmark
    have hmark' := hs.marked i hi q hq
    rw [Impl.marked, (hs.shape.managers i).firstPage, hmark] at hmark'
    split_ifs at hmark' with hgroup
    exact hmark'.symm

theorem allocateAndOpen_failed (hv : Valid mm) (hout : out.blocks = []) {e : AllocateError}
    (herr : mm.allocateAndOpen out numPages pool dir = (.error e, mm')) : Failed mm mm' pool := by
  rw [allocateAndOpen] at herr
  split_ifs at herr with hzero
  · exact absurd (Prod.mk.inj herr).1 (by simp)
  · rcases halloc : mm.allocatePageGroupImpl out numPages pool dir (mm.hasOptimizedProcess pool)
      true with ⟨e' | g', mm₁⟩
    · rw [halloc] at herr
      obtain ⟨-, rfl⟩ := Prod.mk.inj herr
      exact allocatePageGroupImpl_failed hv hout halloc
    · rw [halloc] at herr
      exact absurd (Prod.mk.inj herr).1 (by simp)

end Groups

/-! ## Continuous allocations -/

section Continuous

variable {pool : Pool} {heapIndex numPages alignPages : Nat}

theorem getAlignedBlockIndex_spec (h : getAlignedBlockIndex numPages alignPages = some heapIndex) :
    heapIndex < 7 ∧ max numPages alignPages ≤ getBlockNumPages heapIndex := by
  refine ⟨List.mem_range.1 (List.mem_of_find?_eq_some h), ?_⟩
  simpa using List.find?_some h

/-- The loop of `AllocateAndOpenContinuous`: no manager has a block, or it takes the pages out of the
heap of the first one that has. -/
theorem continuousLoop_spec (hindex : heapIndex < 7) (halign : alignPages ≠ 0)
    (hfits : max numPages alignPages ≤ getBlockNumPages heapIndex) (managers : List Nat) :
    ∀ {mm : KMemoryManager}, Valid mm →
      (∀ i ∈ managers, i < mm.numManagers ∧ (mm.managers i).pool = pool) →
        (∃ mm', mm.continuousLoop heapIndex numPages alignPages managers = (none, mm') ∧
          Taken mm mm' pool false id ∅) ∨
        ∃ mm₁ i q heap, mm.continuousLoop heapIndex numPages alignPages managers =
            (some (i, q * pageSize), mm₁.setManager i { mm₁.managers i with heap := heap }) ∧
          Taken mm mm₁ pool false id ∅ ∧ i < mm₁.numManagers ∧ (mm₁.managers i).pool = pool ∧
          q * pageSize ≠ 0 ∧ Finset.Ico q (q + numPages) ⊆ (mm₁.managers i).heap.freePages ∧
          HeapInvariant (mm₁.managers i).heap.heapAddress (mm₁.managers i).heap.heapSize heap
            ((mm₁.managers i).heap.freePages \ Finset.Ico q (q + numPages)) := by
  induction managers with
  | nil =>
    intro mm hv _
    exact .inl ⟨mm, rfl, taken_empty hv pool false id⟩
  | cons i rest ih =>
    intro mm hv hmem
    obtain ⟨hi, hpool⟩ := hmem i List.mem_cons_self
    have hm := hv.managers i hi
    obtain ⟨addr, heap, halloc⟩ : ∃ addr heap,
      (mm.managers i).heap.allocateAligned heapIndex numPages alignPages = (addr, heap) :=
        ⟨_, _, rfl⟩
    have hspec := hm.heap.allocateAligned hm.heapRegion hindex halign hfits
    rw [halloc] at hspec
    rcases hspec with hfails | htakes
    · -- Nothing but the heap's generators has changed, and the next manager is tried.
      obtain rfl : addr = 0 := hfails.eq_zero
      obtain ⟨hvalid, hsame, hfree⟩ := hm.with_heap hfails.rest (Finset.Subset.refl _)
      have hround : Taken mm (mm.setManager i { mm.managers i with heap := heap }) pool false id ∅ := by
        refine taken_setManager hv hi hpool hsame hvalid (empty_subset _)
          (hfree.trans sdiff_empty.symm) (fun q _ => ?_) fun q _ => ?_
        · rw [if_neg (notMem_empty q), Impl.refCount, Impl.refCount, hsame.firstPage]
        · rw [if_neg fun h => notMem_empty q h.2, Impl.marked, Impl.marked, hsame.firstPage]
      have hloop : mm.continuousLoop heapIndex numPages alignPages (i :: rest) =
          (mm.setManager i { mm.managers i with heap := heap }).continuousLoop heapIndex numPages
            alignPages rest := by
        simp only [continuousLoop, halloc, ne_eq, not_true_eq_false, if_false]
      rw [hloop]
      rcases ih hround.valid (fun j hj => by
          obtain ⟨hj', hpool'⟩ := hmem j (List.mem_cons_of_mem i hj)
          exact ⟨hj', (hround.shape.managers j).pool.trans hpool'⟩) with
        ⟨mm', heq, htaken⟩ | ⟨mm₁, j, q, heap', heq, htaken, hrest⟩
      · exact .inl ⟨mm', heq, hround.after_empty htaken⟩
      · exact .inr ⟨mm₁, j, q, heap', heq, hround.after_empty htaken, hrest⟩
    · obtain ⟨q, hq⟩ := htakes.page_dvd
      have haddr : addr = q * pageSize := hq.trans (mul_comm ..)
      have hne : q * pageSize ≠ 0 := haddr ▸ htakes.ne_zero
      have hfree := htakes.free
      have hrest := htakes.rest
      simp only [haddr, Impl.rangePages_page] at hfree hrest
      rw [haddr] at halloc
      refine .inr ⟨mm, i, q, heap, ?_, taken_empty hv pool false id, hi, hpool, hne, hfree, hrest⟩
      simp only [continuousLoop, halloc, ne_eq, hne, not_false_eq_true, if_true]

theorem setManager_setManager (mm : KMemoryManager) (i : Nat) (m m' : Impl) :
    (mm.setManager i m).setManager i m' = mm.setManager i m' := by
  simp only [setManager, Function.update_idem]

/-- `AllocateAndOpenContinuous`: its result is aligned to pages, and the pages there, if there are any,
are taken with a reference each. -/
theorem allocateAndOpenContinuous_taken {mm mm' : KMemoryManager} {dir : Direction} {addr : Nat}
    (hv : Valid mm) (halign : alignPages ≠ 0)
    (hresult : mm.allocateAndOpenContinuous numPages alignPages pool dir = some (addr, mm')) :
    Taken mm mm' pool (mm.hasOptimizedProcess pool) (· + 1) (takenPages addr numPages) ∧
      pageSize ∣ addr := by
  rw [allocateAndOpenContinuous] at hresult
  split_ifs at hresult with hzero
  · obtain ⟨rfl, rfl⟩ := Prod.mk.inj (Option.some.inj hresult)
    rw [takenPages, if_pos rfl]
    exact ⟨taken_empty hv pool _ _, Nat.dvd_zero _⟩
  cases hsome : getAlignedBlockIndex numPages alignPages with
  | none =>
    rw [hsome] at hresult
    exact absurd hresult (by simp)
  | some heapIndex =>
    obtain ⟨hindex, hfits⟩ := getAlignedBlockIndex_spec hsome
    rw [hsome] at hresult
    rcases continuousLoop_spec hindex halign hfits (mm.poolManagers pool dir) hv
        (fun _ hi => mem_poolManagers.1 hi) with
      ⟨mm₁, heq, htaken⟩ | ⟨mm₁, i, q, heap, heq, htaken, hi, hpool, hne, hfree, hheap⟩
    · simp only [heq] at hresult
      obtain ⟨rfl, rfl⟩ := Prod.mk.inj (Option.some.inj hresult)
      rw [takenPages, if_pos rfl]
      exact ⟨htaken.after_empty (taken_empty htaken.valid pool _ _), Nat.dvd_zero _⟩
    · simp only [heq, setManager_self, setManager_setManager] at hresult
      obtain ⟨rfl, rfl⟩ := Prod.mk.inj (Option.some.inj hresult)
      rw [takenPages, if_neg hne, Impl.rangePages_page]
      refine ⟨htaken.after_empty ?_, dvd_mul_left _ _⟩
      have hopt : (mm₁.setManager i { mm₁.managers i with heap := heap }).hasOptimizedProcess pool =
          mm.hasOptimizedProcess pool := congrFun htaken.shape.hasOptimizedProcess pool
      rw [hopt]
      have hm := htaken.valid.managers i hi
      obtain ⟨hvalid, hsame, hrest⟩ := hm.with_heap hheap sdiff_subset
      have hin : Finset.Ico q (q + numPages) ⊆
          ({ mm₁.managers i with heap := heap } : Impl).region :=
        hsame.region.symm ▸ hfree.trans hm.freePages_subset
      have hmark₀ : ∀ x, ({ mm₁.managers i with heap := heap } : Impl).marked x =
          (mm₁.managers i).marked x := by
        intro x
        rw [Impl.marked, Impl.marked, hsame.firstPage]
      -- The manager after the allocation has been tracked.
      obtain ⟨m, hm₁, hheap₁, hcounts₁, hsame₁, hvalid₁, hmark₁⟩ : ∃ m : Impl,
          (if mm.hasOptimizedProcess pool = true then
              ({ mm₁.managers i with heap := heap } : Impl).trackUnoptimizedAllocation
                (q * pageSize) numPages
            else { mm₁.managers i with heap := heap }) = m ∧ m.heap = heap ∧
            m.pageReferenceCounts = (mm₁.managers i).pageReferenceCounts ∧
            Impl.SameRegion (mm₁.managers i) m ∧ m.Valid ∧
            ∀ x ∈ (mm₁.managers i).region, m.marked x =
              if mm.hasOptimizedProcess pool = true ∧ x ∈ Finset.Ico q (q + numPages) then false
              else (mm₁.managers i).marked x := by
        refine ⟨_, rfl, ?_⟩
        cases mm.hasOptimizedProcess pool with
        | false =>
          simp only [Bool.false_eq_true, if_false, false_and]
          exact ⟨trivial, trivial, hsame, hvalid, fun x _ => hmark₀ x⟩
        | true =>
          simp only [if_true, true_and]
          refine ⟨rfl, rfl, ⟨hsame.1, hsame.2, hsame.3⟩, ⟨hvalid.1, hvalid.2, hvalid.3⟩,
            fun x hx => ?_⟩
          rw [Impl.marked_trackUnoptimizedAllocation hvalid.heapRegion.address_dvd hin
            (hsame.region.symm ▸ hx), hmark₀]
      rw [hm₁]
      obtain ⟨hvalid₂, hsame₂, hheap₂, hcount₂⟩ := @Impl.openPages_spec m q numPages hvalid₁
        (hsame₁.region.symm ▸ hfree.trans hm.freePages_subset)
        (by rw [hheap₁, hrest]; exact disjoint_sdiff)
      have hcount₁ : ∀ x, m.refCount x = (mm₁.managers i).refCount x := by
        intro x
        rw [Impl.refCount, Impl.refCount, hcounts₁, hsame₁.firstPage]
      rw [Impl.openFirst_eq_openPages]
      refine taken_setManager htaken.valid hi hpool (hsame₁.trans hsame₂) hvalid₂ hfree ?_
        (fun x hx => ?_) fun x hx => ?_
      · rw [hheap₂, hheap₁, hrest]
      · rw [hcount₂ x (hsame₁.region.symm ▸ hx), hcount₁]
      · exact hmark₁ x hx

end Continuous

/-! ## Allocations for a process -/

/-- Nothing has changed but the optimize maps and the device memory. -/
structure Kept (mm mm' : KMemoryManager) : Prop where
  numManagers : mm'.numManagers = mm.numManagers
  layout : mm'.layout = mm.layout
  heap : ∀ i, (mm'.managers i).heap = (mm.managers i).heap
  counts : ∀ i, (mm'.managers i).pageReferenceCounts = (mm.managers i).pageReferenceCounts
  pool : ∀ i, (mm'.managers i).pool = (mm.managers i).pool
  hasOptimizedProcess : mm'.hasOptimizedProcess = mm.hasOptimizedProcess
  optimizedProcessIds : mm'.optimizedProcessIds = mm.optimizedProcessIds

section Process

variable {mm mm' mm'' : KMemoryManager}

theorem Kept.refl (mm : KMemoryManager) : Kept mm mm :=
  ⟨rfl, rfl, fun _ => rfl, fun _ => rfl, fun _ => rfl, rfl, rfl⟩

theorem Kept.trans (h : Kept mm mm') (h' : Kept mm' mm'') : Kept mm mm'' :=
  ⟨h'.1.trans h.1, h'.2.trans h.2, fun i => (h'.3 i).trans (h.3 i), fun i => (h'.4 i).trans (h.4 i),
    fun i => (h'.5 i).trans (h.5 i), h'.6.trans h.6, h'.7.trans h.7⟩

theorem Kept.sameShape (h : Kept mm mm') : SameShape mm mm' :=
  ⟨h.numManagers, h.layout, fun i => ⟨congrArg _ (h.heap i), congrArg _ (h.heap i), h.pool i⟩,
    h.hasOptimizedProcess, h.optimizedProcessIds⟩

theorem Kept.refCount (h : Kept mm mm') (i q : Nat) :
    (mm'.managers i).refCount q = (mm.managers i).refCount q := by
  rw [Impl.refCount, Impl.refCount, h.counts, Impl.firstPage, Impl.firstPage, h.heap]

theorem Kept.valid (h : Kept mm mm') (hv : Valid mm) : Valid mm' := by
  refine ⟨hv.layout.of_sameShape h.sameShape, fun i hi => ?_⟩
  have hm := hv.managers i (h.numManagers ▸ hi)
  refine ⟨?_, ?_, fun q hq => ?_⟩
  · rw [h.heap]
    exact hm.heapRegion
  · rw [h.heap]
    exact hm.heap
  · rw [h.heap] at hq
    rw [h.refCount]
    exact hm.unreferenced q hq

theorem TakenPages.kept {pool : Pool} {change : BitVec 16 → BitVec 16} {S : Finset Nat}
    (ht : TakenPages mm mm' pool change S) (h : Kept mm' mm'') :
    TakenPages mm mm'' pool change S := by
  refine ⟨ht.shape.trans h.sameShape, h.valid ht.valid, ht.source, fun i hi => ?_,
    fun i hi q hq => ?_⟩
  · rw [h.heap, ht.freePages i hi]
  · rw [h.refCount, ht.refCount i hi q hq]

theorem kept_setManager {i : Nat} {m : Impl} (hheap : m.heap = (mm.managers i).heap)
    (hcounts : m.pageReferenceCounts = (mm.managers i).pageReferenceCounts)
    (hpool : m.pool = (mm.managers i).pool) : Kept mm (mm.setManager i m) := by
  refine ⟨rfl, rfl, fun j => ?_, fun j => ?_, fun j => ?_, rfl, rfl⟩ <;> by_cases hj : j = i
  · rw [hj, setManager_self, hheap]
  · rw [setManager_of_ne mm m hj]
  · rw [hj, setManager_self, hcounts]
  · rw [setManager_of_ne mm m hj]
  · rw [hj, setManager_self, hpool]
  · rw [setManager_of_ne mm m hj]

theorem rangeLoop_track_kept (fuel : Nat) : ∀ (address numPages : Nat) (mm : KMemoryManager),
    Kept mm (rangeLoop Impl.trackOptimizedAllocation fuel address numPages mm) := by
  induction fuel with
  | zero => intro _ _ mm; exact Kept.refl mm
  | succ fuel ih =>
    intro address numPages mm
    rw [rangeLoop]
    split_ifs
    · exact Kept.refl mm
    · have hstep : Kept mm (mm.setManager (mm.layout address)
          ((mm.getManager address).trackOptimizedAllocation address
            (min numPages ((mm.getManager address).getPageOffsetToEnd address)))) :=
        kept_setManager rfl rfl rfl
      exact hstep.trans (ih _ _ _)

theorem kept_with_memory (mm : KMemoryManager) (memory : Nat → BitVec 8) :
    Kept mm { mm with memory := memory } :=
  ⟨rfl, rfl, fun _ => rfl, fun _ => rfl, fun _ => rfl, rfl, rfl⟩

theorem optimizeBlock_kept (fillPattern : BitVec 8) (mm : KMemoryManager) (block : KBlockInfo) :
    Kept mm (optimizeBlock fillPattern mm block) := by
  simp only [optimizeBlock]
  split_ifs
  · exact Kept.refl mm
  · exact (kept_with_memory mm _).trans (rangeLoop_track_kept _ _ _ _)
  · exact kept_with_memory mm _

theorem foldl_kept {f : KMemoryManager → KBlockInfo → KMemoryManager}
    (hf : ∀ mm block, Kept mm (f mm block)) (blocks : List KBlockInfo) :
    ∀ mm : KMemoryManager, Kept mm (blocks.foldl f mm) := by
  induction blocks with
  | nil => intro mm; exact Kept.refl mm
  | cons block rest ih => intro mm; exact (hf mm block).trans (ih _)

variable {out g : KPageGroup} {pool : Pool} {dir : Direction} {numPages processId : Nat}
  {fillPattern : BitVec 8}

/-- A success of `AllocateForProcess`: a group has been allocated, and its blocks are optimized or
filled. -/
theorem allocateForProcess_ok
    (hok : mm.allocateForProcess out numPages pool dir processId fillPattern = (.ok g, mm')) :
    ∃ mm₁, mm.allocatePageGroupImpl out numPages pool dir
        (mm.hasOptimizedProcess pool && !decide (mm.optimizedProcessIds pool = processId)) false =
          (.ok g, mm₁) ∧
      mm' = if (mm.hasOptimizedProcess pool && decide (mm.optimizedProcessIds pool = processId)) = true
        then g.blocks.foldl (optimizeBlock fillPattern) mm₁
        else g.blocks.foldl (fillBlock fillPattern) mm₁ := by
  simp only [allocateForProcess] at hok
  rcases halloc : mm.allocatePageGroupImpl out numPages pool dir
      (mm.hasOptimizedProcess pool && !decide (mm.optimizedProcessIds pool = processId)) false with
    ⟨e | g', mm₁⟩
  · rw [halloc] at hok
    exact absurd (Prod.mk.inj hok).1 (by simp)
  · rw [halloc] at hok
    refine ⟨mm₁, ?_⟩
    split_ifs at hok ⊢
    · obtain ⟨h1, rfl⟩ := Prod.mk.inj hok
      obtain rfl : g' = g := Except.ok.inj h1
      exact ⟨rfl, rfl⟩
    · obtain ⟨h1, rfl⟩ := Prod.mk.inj hok
      obtain rfl : g' = g := Except.ok.inj h1
      exact ⟨rfl, rfl⟩

theorem allocateForProcess_taken (hv : Valid mm) (hout : out.blocks = [])
    (hok : mm.allocateForProcess out numPages pool dir processId fillPattern = (.ok g, mm')) :
    TakenPages mm mm' pool id (pages g.blocks) := by
  obtain ⟨mm₁, halloc, rfl⟩ := allocateForProcess_ok hok
  have htaken := (allocatePageGroupImpl_ok hv hout halloc).taken.toTakenPages
  split_ifs
  · exact htaken.kept (foldl_kept (optimizeBlock_kept fillPattern) g.blocks mm₁)
  · exact htaken.kept (foldl_kept (fun mm _ => kept_with_memory mm _) g.blocks mm₁)

theorem allocateForProcess_failed (hv : Valid mm) (hout : out.blocks = []) {e : AllocateError}
    (herr : mm.allocateForProcess out numPages pool dir processId fillPattern = (.error e, mm')) :
    Failed mm mm' pool := by
  simp only [allocateForProcess] at herr
  rcases halloc : mm.allocatePageGroupImpl out numPages pool dir
      (mm.hasOptimizedProcess pool && !decide (mm.optimizedProcessIds pool = processId)) false with
    ⟨e' | g', mm₁⟩
  · rw [halloc] at herr
    obtain ⟨-, rfl⟩ := Prod.mk.inj herr
    exact allocatePageGroupImpl_failed hv hout halloc
  · rw [halloc] at herr
    split_ifs at herr <;> exact absurd (Prod.mk.inj herr).1 (by simp)

end Process

end KMemoryManager

end Sudachi.Kernel
