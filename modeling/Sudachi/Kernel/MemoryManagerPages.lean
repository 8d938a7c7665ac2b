import Sudachi.Kernel.MemoryManager

/-!
# Pages and references of the memory manager

A manager is valid if its heap is in order and its free pages have no references. `Open` and `Close`
act on each page of their range on its own: `Close` drops a reference of each page, and exactly the
pages without a reference left become free (`Impl.close_spec`). The loop over the managers of a range
is one induction (`rangeLoop_induct`), so the same holds for ranges that reach over several managers
(`openPages_spec`, `close_spec`).
-/

set_option autoImplicit false

namespace Sudachi.Kernel

open Sudachi.Common KPageHeap Function Finset Or

namespace KMemoryManager

namespace Impl

/-- The pages that a manager manages. -/
def region (m : Impl) : Finset Nat := rangePages m.heap.heapAddress (m.heap.heapSize / pageSize)

/-- The number of the first page of a manager. -/
def firstPage (m : Impl) : Nat := m.heap.heapAddress / pageSize

/-- The reference count of a page. -/
def refCount (m : Impl) (p : Nat) : BitVec 16 := m.pageReferenceCounts (p - m.firstPage)

/-- The heap of a manager is in order, and free pages have no references. -/
structure Valid (m : Impl) : Prop where
  heapRegion : HeapRegion m.heap.heapAddress m.heap.heapSize
  heap : HeapInvariant m.heap.heapAddress m.heap.heapSize m.heap m.heap.freePages
  unreferenced : ∀ p ∈ m.heap.freePages, m.refCount p = 0

/-- What no operation changes. -/
structure SameRegion (m m' : Impl) : Prop where
  heapAddress : m'.heap.heapAddress = m.heap.heapAddress
  heapSize : m'.heap.heapSize = m.heap.heapSize
  pool : m'.pool = m.pool

variable {m m' : Impl} {p o n : Nat}
variable {freeStart freeCount : Nat}

theorem SameRegion.refl (m : Impl) : SameRegion m m := ⟨rfl, rfl, rfl⟩

theorem SameRegion.trans {m'' : Impl} (h : SameRegion m m') (h' : SameRegion m' m'') :
    SameRegion m m'' :=
  ⟨h'.1.trans h.1, h'.2.trans h.2, h'.3.trans h.3⟩

theorem SameRegion.firstPage (h : SameRegion m m') : m'.firstPage = m.firstPage := by
  rw [Impl.firstPage, Impl.firstPage, h.heapAddress]

theorem SameRegion.region (h : SameRegion m m') : m'.region = m.region := by
  rw [Impl.region, Impl.region, h.heapAddress, h.heapSize]

theorem mem_region :
    p ∈ m.region ↔ m.firstPage ≤ p ∧ p < m.firstPage + m.heap.heapSize / pageSize := by
  rw [region, rangePages, mem_Ico, firstPage]

theorem Valid.freePages_subset (h : m.Valid) : m.heap.freePages ⊆ m.region := h.heap.inside

theorem getPageOffset_page (h : pageSize ∣ m.heap.heapAddress) (p : Nat) :
    m.getPageOffset (p * pageSize) = p - m.firstPage := by
  obtain ⟨x, hx⟩ := h
  rw [getPageOffset, firstPage, hx, Nat.mul_div_cancel_left _ pageSize_pos, mul_comm pageSize,
    ← Nat.sub_mul, Nat.mul_div_cancel _ pageSize_pos]

theorem rangePages_page (p n : Nat) : rangePages (p * pageSize) n = Finset.Ico p (p + n) := by
  rw [rangePages, Nat.mul_div_cancel _ pageSize_pos]

/-! ## Open -/

theorem openLoop_apply (n : Nat) : ∀ (o : Nat) (counts : Nat → BitVec 16) (j : Nat),
    openLoop n o counts j = if o ≤ j ∧ j < o + n then counts j + 1 else counts j := by
  induction n with
  | zero =>
    intro o counts j
    rw [openLoop, if_neg (by omega)]
  | succ n ih =>
    intro o counts j
    rw [openLoop, ih]
    by_cases hj : j = o
    · subst hj
      rw [if_neg (by omega), if_pos (by omega), update_self]
    · rw [update_of_ne hj]
      by_cases hin : o + 1 ≤ j ∧ j < o + 1 + n
      · rw [if_pos hin, if_pos (by omega)]
      · rw [if_neg hin, if_neg (by omega)]

theorem openFirst_eq_openPages : openFirst = openPages := rfl

section

variable (h : m.Valid) (hin : Finset.Ico p (p + n) ⊆ m.region)
  (hdis : Disjoint (Finset.Ico p (p + n)) m.heap.freePages)
include h hin hdis

/-- `Open` of pages of a manager that are not free. -/
theorem openPages_spec :
    (m.openPages (p * pageSize) n).Valid ∧ SameRegion m (m.openPages (p * pageSize) n) ∧
      (m.openPages (p * pageSize) n).heap = m.heap ∧
      ∀ q ∈ m.region, (m.openPages (p * pageSize) n).refCount q =
        if q ∈ Finset.Ico p (p + n) then m.refCount q + 1 else m.refCount q := by
  have hcount : ∀ q ∈ m.region, (m.openPages (p * pageSize) n).refCount q =
      if q ∈ Finset.Ico p (p + n) then m.refCount q + 1 else m.refCount q := by
    intro q hq
    have hge := (mem_region.1 hq).1
    have heq : (m.openPages (p * pageSize) n).refCount q =
        openLoop n (m.getPageOffset (p * pageSize)) m.pageReferenceCounts (q - m.firstPage) := rfl
    rw [heq, openLoop_apply, getPageOffset_page h.heapRegion.address_dvd, refCount]
    rcases Nat.eq_zero_or_pos n with rfl | hn
    · rw [if_neg (by omega), if_neg (by simp)]
    · have hp := (mem_region.1 (hin (mem_Ico.2 ⟨le_refl p, by omega⟩))).1
      by_cases hmem : q ∈ Finset.Ico p (p + n)
      · rw [if_pos hmem, if_pos (by rw [mem_Ico] at hmem; omega)]
      · rw [if_neg hmem, if_neg (by rw [mem_Ico] at hmem; omega)]
  refine ⟨⟨h.heapRegion, h.heap, fun q hq => ?_⟩, ⟨rfl, rfl, rfl⟩, rfl, hcount⟩
  have hfree : q ∈ m.heap.freePages := hq
  rw [hcount q (h.freePages_subset hfree), if_neg fun hmem => disjoint_left.1 hdis hmem hfree]
  exact h.unreferenced q hfree

/-! ## Close -/

theorem free_spec (hzero : ∀ q ∈ Finset.Ico p (p + n), m.refCount q = 0) :
    (m.free (p * pageSize) n).Valid ∧ SameRegion m (m.free (p * pageSize) n) ∧
      (m.free (p * pageSize) n).heap.freePages = m.heap.freePages ∪ Finset.Ico p (p + n) ∧
      (m.free (p * pageSize) n).pageReferenceCounts = m.pageReferenceCounts := by
  have hrange := rangePages_page p n
  have hheap := h.heap.free h.heapRegion (dvd_mul_left pageSize p) (hrange ▸ hin) (hrange ▸ hdis)
  rw [hrange] at hheap
  have hsame : SameRegion m (m.free (p * pageSize) n) := ⟨hheap.heapAddress, hheap.heapSize, rfl⟩
  have hfree : (m.free (p * pageSize) n).heap.freePages =
      m.heap.freePages ∪ Finset.Ico p (p + n) := hheap.freePages_eq
  refine ⟨⟨?_, ?_, fun q hq => ?_⟩, hsame, hfree, rfl⟩
  · rw [hsame.heapAddress, hsame.heapSize]
    exact h.heapRegion
  · rw [hsame.heapAddress, hsame.heapSize, hfree]
    exact hheap
  · have hcount : (m.free (p * pageSize) n).refCount q = m.refCount q := by
      rw [refCount, refCount, hsame.firstPage]
      rfl
    rw [hcount]
    rw [hfree] at hq
    exact (mem_union.1 hq).elim (h.unreferenced q) (hzero q)

end

/-- The run that `Close` has collected: pages without references that are not free yet. -/
structure Pending (m : Impl) (freeStart freeCount : Nat) : Prop where
  inside : ∀ k, freeStart ≤ k → k < freeStart + freeCount → m.firstPage + k ∈ m.region
  fresh : ∀ k, freeStart ≤ k → k < freeStart + freeCount → m.firstPage + k ∉ m.heap.freePages
  zero : ∀ k, freeStart ≤ k → k < freeStart + freeCount → m.pageReferenceCounts k = 0

/-- The pages at a run of offsets. -/
def offsetPages (m : Impl) (o n : Nat) : Finset Nat :=
  Finset.Ico (m.firstPage + o) (m.firstPage + o + n)

theorem mem_offsetPages_iff {q : Nat} :
    q ∈ m.offsetPages o n ↔ ∃ k, o ≤ k ∧ k < o + n ∧ q = m.firstPage + k := by
  rw [offsetPages, mem_Ico]
  constructor
  · intro hq
    exact ⟨q - m.firstPage, by omega, by omega, by omega⟩
  · rintro ⟨k, h1, h2, rfl⟩
    omega

theorem freeRun_spec (h : m.Valid) (hp : m.Pending freeStart freeCount) :
    (m.freeRun freeStart freeCount).Valid ∧ SameRegion m (m.freeRun freeStart freeCount) ∧
      (m.freeRun freeStart freeCount).heap.freePages =
        m.heap.freePages ∪ m.offsetPages freeStart freeCount ∧
      (m.freeRun freeStart freeCount).pageReferenceCounts = m.pageReferenceCounts := by
  by_cases hpos : freeCount > 0
  · have haddr : m.heap.heapAddress + freeStart * pageSize =
        (m.firstPage + freeStart) * pageSize := by
      rw [add_mul, firstPage, Nat.div_mul_cancel h.heapRegion.address_dvd]
    rw [freeRun, if_pos hpos, haddr]
    refine free_spec h (fun q hq => ?_) (disjoint_left.2 fun q hq => ?_) fun q hq => ?_ <;>
      obtain ⟨k, h1, h2, rfl⟩ := mem_offsetPages_iff.1 hq
    · exact hp.inside k h1 h2
    · exact hp.fresh k h1 h2
    · rw [refCount, Nat.add_sub_cancel_left]
      exact hp.zero k h1 h2
  · obtain rfl : freeCount = 0 := by omega
    rw [freeRun, if_neg hpos, offsetPages, add_zero, Finset.Ico_self, union_empty]
    exact ⟨h, SameRegion.refl m, rfl, rfl⟩

/-- A page that loses a reference. -/
def dropRef (m : Impl) (index : Nat) : Impl :=
  { m with
    pageReferenceCounts :=
      update m.pageReferenceCounts index (m.pageReferenceCounts index - 1) }

theorem closeLoop_succ (n index freeStart freeCount : Nat) (m : Impl) :
    closeLoop (n + 1) index freeStart freeCount m =
      if m.pageReferenceCounts index - 1 = 0 then
        if freeCount > 0 then closeLoop n (index + 1) freeStart (freeCount + 1) (m.dropRef index)
        else closeLoop n (index + 1) index 1 (m.dropRef index)
      else closeLoop n (index + 1) freeStart 0 ((m.dropRef index).freeRun freeStart freeCount) := rfl

theorem dropRef_valid (h : m.Valid) (hne : m.pageReferenceCounts o ≠ 0) :
    (m.dropRef o).Valid ∧ m.firstPage + o ∉ m.heap.freePages := by
  have hnot : m.firstPage + o ∉ m.heap.freePages := by
    intro hfree
    have hzero := h.unreferenced _ hfree
    rw [refCount, Nat.add_sub_cancel_left] at hzero
    exact hne hzero
  refine ⟨⟨h.heapRegion, h.heap, fun q hq => ?_⟩, hnot⟩
  have hfree : q ∈ m.heap.freePages := hq
  have hge := (mem_region.1 (h.freePages_subset hfree)).1
  have hdiff : q - m.firstPage ≠ o := by
    rintro rfl
    rw [Nat.add_sub_cancel' hge] at hnot
    exact hnot hfree
  exact (update_of_ne hdiff _ _).trans (h.unreferenced q hfree)

/-- Pages of a run that loses its first page's reference. -/
theorem filter_offsetPages_succ (o n : Nat) :
    (m.offsetPages o (n + 1)).filter (fun q => m.refCount q = 1) =
      (if m.pageReferenceCounts o = 1 then {m.firstPage + o} else ∅) ∪
        ((m.dropRef o).offsetPages (o + 1) n).filter (fun q => (m.dropRef o).refCount q = 1) := by
  have hcount : ∀ k, k ≠ o → (m.dropRef o).refCount (m.firstPage + k) =
      m.refCount (m.firstPage + k) := by
    intro k hk
    rw [refCount, refCount]
    refine update_of_ne ?_ _ _
    show m.firstPage + k - m.firstPage ≠ o
    omega
  have hself : m.refCount (m.firstPage + o) = m.pageReferenceCounts o := by
    rw [refCount, Nat.add_sub_cancel_left]
  ext q
  rw [mem_union, mem_filter, mem_filter, mem_offsetPages_iff, mem_offsetPages_iff]
  constructor
  · rintro ⟨⟨k, h1, h2, rfl⟩, hone⟩
    by_cases hk : k = o
    · subst hk
      rw [hself] at hone
      rw [if_pos hone]
      exact inl (mem_singleton_self _)
    · exact inr ⟨⟨k, by omega, by omega, rfl⟩, (hcount k hk).trans hone⟩
  · rintro (hq | ⟨⟨k, h1, h2, rfl⟩, hone⟩)
    · by_cases hone : m.pageReferenceCounts o = 1
      · rw [if_pos hone, mem_singleton] at hq
        exact ⟨⟨o, le_refl o, by omega, hq⟩, by rw [hq, hself, hone]⟩
      · rw [if_neg hone] at hq
        exact absurd hq (notMem_empty q)
    · exact ⟨⟨k, by omega, by omega, rfl⟩, (hcount k (by omega)).symm.trans hone⟩

theorem Pending.dropRef (hp : m.Pending freeStart freeCount)
    (hadj : 0 < freeCount → freeStart + freeCount = o) :
    (m.dropRef o).Pending freeStart freeCount := by
  refine ⟨hp.inside, hp.fresh, fun k h1 h2 => ?_⟩
  have hne : k ≠ o := by
    have := hadj (by omega)
    omega
  exact (update_of_ne hne _ _).trans (hp.zero k h1 h2)

/-- The page behind the run joins it. -/
theorem Pending.grow (hp : m.Pending freeStart freeCount) (hadj : freeStart + freeCount = o)
    (hpage : m.firstPage + o ∈ m.region) (hnot : m.firstPage + o ∉ m.heap.freePages)
    (hzero : m.pageReferenceCounts o = 0) : m.Pending freeStart (freeCount + 1) := by
  have hcases : ∀ k, k < freeStart + (freeCount + 1) → k = o ∨ k < freeStart + freeCount := by
    intro k hk
    omega
  refine ⟨fun k h1 h2 => ?_, fun k h1 h2 => ?_, fun k h1 h2 => ?_⟩ <;>
    rcases hcases k h2 with rfl | hlt
  · exact hpage
  · exact hp.inside k h1 hlt
  · exact hnot
  · exact hp.fresh k h1 hlt
  · exact hzero
  · exact hp.zero k h1 hlt

theorem pending_zero (m : Impl) (freeStart : Nat) : m.Pending freeStart 0 := by
  refine ⟨fun k h1 h2 => ?_, fun k h1 h2 => ?_, fun k h1 h2 => ?_⟩ <;> omega

theorem offsetPages_zero (m : Impl) (o : Nat) : m.offsetPages o 0 = ∅ := by
  rw [offsetPages, add_zero, Finset.Ico_self]

theorem offsetPages_succ (m : Impl) (o n : Nat) :
    m.offsetPages o (n + 1) = m.offsetPages o n ∪ {m.firstPage + (o + n)} := by
  ext q
  rw [mem_union, mem_singleton, offsetPages, offsetPages, mem_Ico, mem_Ico]
  omega

/-- The loop of `Close`: the pages it goes through lose a reference, and at the end the pending run
and the pages without a reference left are free. -/
theorem closeLoop_spec (n : Nat) : ∀ {o freeStart freeCount : Nat} {m : Impl}, m.Valid →
    m.Pending freeStart freeCount → (0 < freeCount → freeStart + freeCount = o) →
    m.offsetPages o n ⊆ m.region → (∀ k, o ≤ k → k < o + n → m.pageReferenceCounts k ≠ 0) →
      (closeLoop n o freeStart freeCount m).Valid ∧
        SameRegion m (closeLoop n o freeStart freeCount m) ∧
        (closeLoop n o freeStart freeCount m).heap.freePages =
          m.heap.freePages ∪ m.offsetPages freeStart freeCount ∪
            (m.offsetPages o n).filter (fun q => m.refCount q = 1) ∧
        ∀ k, (closeLoop n o freeStart freeCount m).pageReferenceCounts k =
          if o ≤ k ∧ k < o + n then m.pageReferenceCounts k - 1 else m.pageReferenceCounts k := by
  induction n with
  | zero =>
    intro o freeStart freeCount m h hp _ _ _
    obtain ⟨hvalid, hsame, hfree, hcounts⟩ := freeRun_spec h hp
    refine ⟨hvalid, hsame, ?_, fun k => ?_⟩
    · rw [offsetPages_zero m o, filter_empty, union_empty]
      exact hfree
    · rw [if_neg (by omega)]
      exact congrFun hcounts k
  | succ n ih =>
    intro o freeStart freeCount m h hp hadj hin hne
    obtain ⟨hdrop, hnot⟩ := dropRef_valid h (hne o (le_refl o) (by omega))
    have hpage : m.firstPage + o ∈ m.region :=
      hin (mem_offsetPages_iff.2 ⟨o, le_refl o, by omega, rfl⟩)
    have hin' : (m.dropRef o).offsetPages (o + 1) n ⊆ (m.dropRef o).region := by
      intro q hq
      obtain ⟨k, h1, h2, rfl⟩ := mem_offsetPages_iff.1 hq
      exact hin (mem_offsetPages_iff.2 ⟨k, by omega, by omega, rfl⟩)
    have hne' : ∀ k, o + 1 ≤ k → k < o + 1 + n → (m.dropRef o).pageReferenceCounts k ≠ 0 := by
      intro k h1 h2
      have hkeep : (m.dropRef o).pageReferenceCounts k = m.pageReferenceCounts k :=
        update_of_ne (by omega) _ _
      rw [hkeep]
      exact hne k (by omega) (by omega)
    have hcounts : ∀ {f : Nat → BitVec 16}, (∀ k, f k = if o + 1 ≤ k ∧ k < o + 1 + n
          then (m.dropRef o).pageReferenceCounts k - 1 else (m.dropRef o).pageReferenceCounts k) →
        ∀ k, f k = if o ≤ k ∧ k < o + (n + 1) then m.pageReferenceCounts k - 1
          else m.pageReferenceCounts k := by
      intro f hf k
      rw [hf k]
      by_cases hk : k = o
      · subst hk
        rw [if_neg (by omega), if_pos (by omega)]
        exact update_self ..
      · have hkeep : (m.dropRef o).pageReferenceCounts k = m.pageReferenceCounts k :=
          update_of_ne hk _ _
        rw [hkeep]
        by_cases hrange : o + 1 ≤ k ∧ k < o + 1 + n
        · rw [if_pos hrange, if_pos (by omega)]
        · rw [if_neg hrange, if_neg (by omega)]
    have hpend := hp.dropRef hadj
    rw [closeLoop_succ, filter_offsetPages_succ]
    by_cases hone : m.pageReferenceCounts o = 1
    · rw [hone, if_pos (by decide), if_pos rfl]
      have hlast : (m.dropRef o).pageReferenceCounts o = 0 := by
        show update m.pageReferenceCounts o _ o = 0
        rw [update_self, hone]
        decide
      have hgrow : ∀ fs fc, fs + fc = o → (m.dropRef o).Pending fs fc →
          (closeLoop n (o + 1) fs (fc + 1) (m.dropRef o)).Valid ∧
            SameRegion m (closeLoop n (o + 1) fs (fc + 1) (m.dropRef o)) ∧
            (closeLoop n (o + 1) fs (fc + 1) (m.dropRef o)).heap.freePages =
              m.heap.freePages ∪ m.offsetPages fs fc ∪ ({m.firstPage + o} ∪
                ((m.dropRef o).offsetPages (o + 1) n).filter
                  (fun q => (m.dropRef o).refCount q = 1)) ∧
            ∀ k, (closeLoop n (o + 1) fs (fc + 1) (m.dropRef o)).pageReferenceCounts k =
              if o ≤ k ∧ k < o + (n + 1) then m.pageReferenceCounts k - 1
              else m.pageReferenceCounts k := by
        intro fs fc hend hpending
        obtain ⟨hvalid, hsame, hfree, hc⟩ := ih hdrop
          (hpending.grow hend hpage hnot hlast) (fun _ => by omega) hin' hne'
        refine ⟨hvalid, ⟨hsame.1, hsame.2, hsame.3⟩, ?_, hcounts hc⟩
        rw [hfree, offsetPages_succ, hend, ← union_assoc, ← union_assoc]
        rfl
      -- The page joins the pending run, or starts one.
      by_cases hpos : freeCount > 0
      · rw [if_pos hpos]
        exact hgrow freeStart freeCount (hadj hpos) hpend
      · obtain rfl : freeCount = 0 := by omega
        rw [if_neg hpos, offsetPages_zero, ← offsetPages_zero m o]
        exact hgrow o 0 (add_zero o) (pending_zero _ o)
    · have hsub : m.pageReferenceCounts o - 1 ≠ 0 := by
        intro hzero
        refine hone ?_
        rw [← BitVec.sub_add_cancel (m.pageReferenceCounts o) 1, hzero]
        rfl
      rw [if_neg hsub, if_neg hone, empty_union]
      -- The pending run is freed here.
      obtain ⟨hrunValid, hrunSame, hrunFree, hrunCounts⟩ := freeRun_spec hdrop hpend
      have hregion := hrunSame.region
      have hfirst := hrunSame.firstPage
      have hpages : ∀ a b, ((m.dropRef o).freeRun freeStart freeCount).offsetPages a b =
          (m.dropRef o).offsetPages a b := by
        intro a b
        rw [offsetPages, offsetPages, hfirst]
      obtain ⟨hvalid, hsame, hfree, hc⟩ := @ih (o + 1) freeStart 0 _ hrunValid
        (pending_zero _ freeStart) (fun hcon => absurd hcon (by omega))
        (by rw [hpages, hregion]; exact hin') (by rw [hrunCounts]; exact hne')
      have htotal := hrunSame.trans hsame
      refine ⟨hvalid, ⟨htotal.1, htotal.2, htotal.3⟩, ?_, ?_⟩
      · have href : ∀ q, ((m.dropRef o).freeRun freeStart freeCount).refCount q =
            (m.dropRef o).refCount q := by
          intro q
          rw [refCount, refCount, hfirst, hrunCounts]
        rw [hfree, hrunFree, hpages, hpages, offsetPages_zero, union_empty]
        simp only [href]
        rfl
      · rw [hrunCounts] at hc
        exact hcounts hc

theorem closeLoop_optimizeMap (n : Nat) : ∀ (o freeStart freeCount : Nat) (m : Impl),
    (closeLoop n o freeStart freeCount m).optimizeMap = m.optimizeMap := by
  have hrun : ∀ (m : Impl) (freeStart freeCount : Nat),
      (m.freeRun freeStart freeCount).optimizeMap = m.optimizeMap := by
    intro m freeStart freeCount
    rw [freeRun]
    split_ifs <;> rfl
  induction n with
  | zero => intro _ freeStart freeCount m; exact hrun m freeStart freeCount
  | succ n ih =>
    intro o freeStart freeCount m
    rw [closeLoop_succ]
    split_ifs
    · rw [ih]
      rfl
    · rw [ih]
      rfl
    · rw [ih, hrun]
      rfl

theorem close_optimizeMap : (m.close p n).optimizeMap = m.optimizeMap :=
  closeLoop_optimizeMap n _ 0 0 m

/-- `Close` of pages of a manager that all have a reference. -/
theorem close_spec (h : m.Valid) (hin : Finset.Ico p (p + n) ⊆ m.region)
    (hne : ∀ q ∈ Finset.Ico p (p + n), m.refCount q ≠ 0) :
    (m.close (p * pageSize) n).Valid ∧ SameRegion m (m.close (p * pageSize) n) ∧
      (m.close (p * pageSize) n).heap.freePages =
        m.heap.freePages ∪ (Finset.Ico p (p + n)).filter (fun q => m.refCount q = 1) ∧
      ∀ q ∈ m.region, (m.close (p * pageSize) n).refCount q =
        if q ∈ Finset.Ico p (p + n) then m.refCount q - 1 else m.refCount q := by
  rw [close, getPageOffset_page h.heapRegion.address_dvd]
  have hpages : m.offsetPages (p - m.firstPage) n = Finset.Ico p (p + n) := by
    rcases Nat.eq_zero_or_pos n with rfl | hn
    · rw [offsetPages, add_zero, add_zero, Finset.Ico_self, Finset.Ico_self]
    · have hp := (mem_region.1 (hin (mem_Ico.2 ⟨le_refl p, by omega⟩))).1
      rw [offsetPages, Nat.add_sub_cancel' hp]
  have hne' : ∀ k, p - m.firstPage ≤ k → k < p - m.firstPage + n → m.pageReferenceCounts k ≠ 0 := by
    intro k h1 h2
    have hq := hne (m.firstPage + k) (hpages ▸ mem_offsetPages_iff.2 ⟨k, h1, h2, rfl⟩)
    rw [refCount, Nat.add_sub_cancel_left] at hq
    exact hq
  obtain ⟨hvalid, hsame, hfree, hcounts⟩ := closeLoop_spec n h (pending_zero m 0)
    (fun hcon => absurd hcon (by omega)) (hpages.symm ▸ hin) hne'
  refine ⟨hvalid, hsame, ?_, fun q hq => ?_⟩
  · rw [hfree, hpages, offsetPages_zero, union_empty]
  · have hge := (mem_region.1 hq).1
    rw [refCount, hsame.firstPage, hcounts, refCount]
    by_cases hmem : q ∈ Finset.Ico p (p + n)
    · have hoff : p - m.firstPage ≤ q - m.firstPage ∧ q - m.firstPage < p - m.firstPage + n := by
        obtain ⟨k, h1, h2, rfl⟩ := mem_offsetPages_iff.1 (hpages.symm ▸ hmem)
        omega
      rw [if_pos hmem, if_pos hoff]
    · have hoff : ¬(p - m.firstPage ≤ q - m.firstPage ∧ q - m.firstPage < p - m.firstPage + n) := by
        rintro ⟨h1, h2⟩
        exact hmem (hpages ▸ mem_offsetPages_iff.2 ⟨_, h1, h2, by omega⟩)
      rw [if_neg hmem, if_neg hoff]

end Impl

/-! ## The managers together -/

/-- The memory layout matches the managers: their regions are the ones `Initialize` asserts, the
pages have 32-bit numbers, and the attributes of a page tell its manager. -/
structure Layout (mm : KMemoryManager) : Prop where
  heapRegion : ∀ i < mm.numManagers,
    HeapRegion (mm.managers i).heap.heapAddress (mm.managers i).heap.heapSize
  pages_lt : ∀ i < mm.numManagers, ∀ p ∈ (mm.managers i).region, p + 1 < 2 ^ 32
  lookup : ∀ i < mm.numManagers, ∀ p ∈ (mm.managers i).region, mm.layout (p * pageSize) = i

/-- What no operation on the managers changes. -/
structure SameShape (mm mm' : KMemoryManager) : Prop where
  numManagers : mm'.numManagers = mm.numManagers
  layout : mm'.layout = mm.layout
  managers : ∀ i, Impl.SameRegion (mm.managers i) (mm'.managers i)
  hasOptimizedProcess : mm'.hasOptimizedProcess = mm.hasOptimizedProcess
  optimizedProcessIds : mm'.optimizedProcessIds = mm.optimizedProcessIds

/-- The managers are valid and match the layout. -/
structure Valid (mm : KMemoryManager) : Prop where
  layout : Layout mm
  managers : ∀ i < mm.numManagers, (mm.managers i).Valid

section Managers

variable {mm mm' mm'' : KMemoryManager} {i p n : Nat}
variable {m : Impl}

theorem SameShape.refl (mm : KMemoryManager) : SameShape mm mm :=
  ⟨rfl, rfl, fun _ => Impl.SameRegion.refl _, rfl, rfl⟩

theorem SameShape.trans (h : SameShape mm mm') (h' : SameShape mm' mm'') : SameShape mm mm'' :=
  ⟨h'.1.trans h.1, h'.2.trans h.2, fun i => (h.3 i).trans (h'.3 i), h'.4.trans h.4, h'.5.trans h.5⟩

theorem SameShape.region (h : SameShape mm mm') (i : Nat) :
    (mm'.managers i).region = (mm.managers i).region := (h.managers i).region

theorem Layout.of_sameShape (hl : Layout mm) (h : SameShape mm mm') : Layout mm' := by
  refine ⟨fun i hi => ?_, fun i hi p hp => ?_, fun i hi p hp => ?_⟩
  · rw [(h.managers i).heapAddress, (h.managers i).heapSize]
    exact hl.heapRegion i (h.numManagers ▸ hi)
  · exact hl.pages_lt i (h.numManagers ▸ hi) p (h.region i ▸ hp)
  · rw [h.layout]
    exact hl.lookup i (h.numManagers ▸ hi) p (h.region i ▸ hp)

theorem setManager_self (mm : KMemoryManager) (i : Nat) (m : Impl) :
    (mm.setManager i m).managers i = m := update_self ..

theorem setManager_of_ne {j : Nat} (mm : KMemoryManager) (m : Impl) (h : j ≠ i) :
    (mm.setManager i m).managers j = mm.managers j := update_of_ne h _ _

theorem sameShape_setManager (h : Impl.SameRegion (mm.managers i) m) :
    SameShape mm (mm.setManager i m) := by
  refine ⟨rfl, rfl, fun j => ?_, rfl, rfl⟩
  by_cases hj : j = i
  · rw [hj, setManager_self]
    exact h
  · rw [setManager_of_ne mm m hj]
    exact Impl.SameRegion.refl _

theorem Valid.setManager (hv : Valid mm) (hsame : Impl.SameRegion (mm.managers i) m)
    (hm : m.Valid) : Valid (mm.setManager i m) := by
  refine ⟨hv.layout.of_sameShape (sameShape_setManager hsame), fun j hj => ?_⟩
  by_cases hji : j = i
  · rw [hji, setManager_self]
    exact hm
  · rw [setManager_of_ne mm m hji]
    exact hv.managers j hj

/-- A page has one manager. -/
theorem Layout.unique (hl : Layout mm) {j : Nat} (hi : i < mm.numManagers) (hj : j < mm.numManagers)
    (hpi : p ∈ (mm.managers i).region) (hpj : p ∈ (mm.managers j).region) : i = j := by
  rw [← hl.lookup i hi p hpi, hl.lookup j hj p hpj]

/-- The pages that the managers manage. -/
def Managed (mm : KMemoryManager) (p : Nat) : Prop :=
  ∃ i < mm.numManagers, p ∈ (mm.managers i).region

theorem Impl.getPageOffsetToEnd_page (h : HeapRegion m.heap.heapAddress m.heap.heapSize) (p : Nat) :
    m.getPageOffsetToEnd (p * pageSize) = m.firstPage + m.heap.heapSize / pageSize - p := by
  obtain ⟨x, hx⟩ := h.address_dvd
  obtain ⟨y, hy⟩ := h.size_dvd
  rw [getPageOffsetToEnd, getEndAddress, firstPage, hx, hy, Nat.mul_div_cancel_left _ pageSize_pos,
    Nat.mul_div_cancel_left _ pageSize_pos, ← mul_add, mul_comm pageSize, ← Nat.sub_mul,
    Nat.mul_div_cancel _ pageSize_pos]

/-- The loop over the managers of a range: it cuts the range `[p, p + n)` into parts that lie in one
manager each. A property of the part that is done holds at the end if every part carries it on. -/
theorem rangeLoop_induct {f : Impl → Nat → Nat → Impl} {motive : Nat → KMemoryManager → Prop}
    {mm₀ : KMemoryManager} (hl : Layout mm₀) (hmanaged : ∀ q ∈ Finset.Ico p (p + n), Managed mm₀ q)
    (hstep : ∀ {k c i : Nat} {mm : KMemoryManager}, SameShape mm₀ mm → motive k mm →
      i < mm₀.numManagers → k + c ≤ n → Finset.Ico (p + k) (p + k + c) ⊆ (mm₀.managers i).region →
        Impl.SameRegion (mm.managers i) (f (mm.managers i) ((p + k) * pageSize) c) ∧
          motive (k + c) (mm.setManager i (f (mm.managers i) ((p + k) * pageSize) c)))
    (fuel : Nat) : ∀ {k : Nat} {mm : KMemoryManager}, k ≤ n → n - k ≤ fuel →
      SameShape mm₀ mm → motive k mm →
        SameShape mm₀ (rangeLoop f fuel ((p + k) * pageSize) (n - k) mm) ∧
          motive n (rangeLoop f fuel ((p + k) * pageSize) (n - k) mm) := by
  induction fuel with
  | zero =>
    intro k mm hk hfuel hshape hmotive
    obtain rfl : k = n := by omega
    exact ⟨hshape, hmotive⟩
  | succ fuel ih =>
    intro k mm hk hfuel hshape hmotive
    by_cases hdone : n - k = 0
    · obtain rfl : k = n := by omega
      rw [rangeLoop, if_pos hdone]
      exact ⟨hshape, hmotive⟩
    · obtain ⟨i, hi, hp⟩ := hmanaged (p + k) (mem_Ico.2 ⟨by omega, by omega⟩)
      have hi' : mm.layout ((p + k) * pageSize) = i := by
        rw [hshape.layout]
        exact hl.lookup i hi _ hp
      have hregion : HeapRegion (mm.managers i).heap.heapAddress
          (mm.managers i).heap.heapSize := by
        rw [(hshape.managers i).heapAddress, (hshape.managers i).heapSize]
        exact hl.heapRegion i hi
      have hp' : p + k ∈ (mm.managers i).region := hshape.region i ▸ hp
      obtain ⟨hlo, hhi⟩ := Impl.mem_region.1 hp'
      -- The part goes to the end of the range or of the manager.
      obtain ⟨c, hc⟩ : ∃ c, min (n - k) ((mm.managers i).getPageOffsetToEnd ((p + k) * pageSize)) =
        c := ⟨_, rfl⟩
      have hc' := hc
      rw [Impl.getPageOffsetToEnd_page hregion] at hc'
      have hpart : Finset.Ico (p + k) (p + k + c) ⊆ (mm₀.managers i).region := by
        rw [← hshape.region i]
        intro q hq
        rw [mem_Ico] at hq
        exact Impl.mem_region.2 ⟨by omega, by omega⟩
      obtain ⟨hsame, hmotive'⟩ := hstep hshape hmotive hi (by omega) hpart
      have hnext : (p + k) * pageSize + c * pageSize = (p + (k + c)) * pageSize := by
        rw [← add_mul, add_assoc]
      have hloop : rangeLoop f (fuel + 1) ((p + k) * pageSize) (n - k) mm =
          rangeLoop f fuel ((p + (k + c)) * pageSize) (n - (k + c))
            (mm.setManager i (f (mm.managers i) ((p + k) * pageSize) c)) := by
        rw [rangeLoop, if_neg hdone]
        simp only [getManager, hi', hc, hnext, Nat.sub_sub]
      rw [hloop]
      exact ih (by omega) (by omega) (hshape.trans (sameShape_setManager hsame)) hmotive'

/-- The managers after the references of the first `k` pages of a range have changed. -/
structure Counted (mm mm' : KMemoryManager) (change : BitVec 16 → BitVec 16)
    (freed : BitVec 16 → Bool) (p k : Nat) : Prop where
  valid : Valid mm'
  refCount : ∀ i < mm.numManagers, ∀ q ∈ (mm.managers i).region, (mm'.managers i).refCount q =
    if q ∈ Finset.Ico p (p + k) then change ((mm.managers i).refCount q)
    else (mm.managers i).refCount q
  freePages : ∀ i < mm.numManagers, (mm'.managers i).heap.freePages =
    (mm.managers i).heap.freePages ∪ (Finset.Ico p (p + k)).filter fun q =>
      q ∈ (mm.managers i).region ∧ freed ((mm.managers i).refCount q) = true
  optimizeMap : ∀ i, (mm'.managers i).optimizeMap = (mm.managers i).optimizeMap

/-- What an operation does to the pages of a part that lies in one manager. -/
structure PartCounted (m m' : Impl) (change : BitVec 16 → BitVec 16) (freed : BitVec 16 → Bool)
    (p c : Nat) : Prop where
  valid : m'.Valid
  same : Impl.SameRegion m m'
  freePages : m'.heap.freePages =
    m.heap.freePages ∪ (Finset.Ico p (p + c)).filter fun q => freed (m.refCount q) = true
  refCount : ∀ q ∈ m.region, m'.refCount q =
    if q ∈ Finset.Ico p (p + c) then change (m.refCount q) else m.refCount q
  optimizeMap : m'.optimizeMap = m.optimizeMap

theorem counted_zero (hv : Valid mm) (change : BitVec 16 → BitVec 16) (freed : BitVec 16 → Bool)
    (p : Nat) : Counted mm mm change freed p 0 := by
  refine ⟨hv, fun i _ q _ => ?_, fun i _ => ?_, fun i => rfl⟩
  · rw [if_neg (by simp)]
  · rw [add_zero, Finset.Ico_self, filter_empty, union_empty]

/-- One part more. -/
theorem Counted.step {change : BitVec 16 → BitVec 16} {freed : BitVec 16 → Bool} {k c : Nat}
    (hl : Layout mm) (hshape : SameShape mm mm') (hc : Counted mm mm' change freed p k)
    (hi : i < mm.numManagers) (hpart : Finset.Ico (p + k) (p + k + c) ⊆ (mm.managers i).region)
    (hm : PartCounted (mm'.managers i) m change freed (p + k) c) :
    Counted mm (mm'.setManager i m) change freed p (k + c) := by
  have hold : ∀ q ∈ Finset.Ico (p + k) (p + k + c), (mm'.managers i).refCount q =
      (mm.managers i).refCount q := by
    intro q hq
    rw [hc.refCount i hi q (hpart hq), if_neg]
    rw [mem_Ico] at hq ⊢
    omega
  have hsplit : ∀ q, q ∈ Finset.Ico p (p + (k + c)) ↔
      q ∈ Finset.Ico p (p + k) ∨ q ∈ Finset.Ico (p + k) (p + k + c) := by
    intro q
    simp only [mem_Ico]
    omega
  refine ⟨hc.valid.setManager hm.same hm.valid, fun j hj q hq => ?_, fun j hj => ?_, fun j => ?_⟩
  · by_cases hji : j = i
    · subst hji
      rw [setManager_self, hm.refCount q (hshape.region j ▸ hq)]
      by_cases hnew : q ∈ Finset.Ico (p + k) (p + k + c)
      · rw [if_pos hnew, hold q hnew, if_pos ((hsplit q).2 (inr hnew))]
      · rw [if_neg hnew, hc.refCount j hj q hq]
        simp only [hsplit q, hnew, or_false]
    · rw [setManager_of_ne mm' m hji, hc.refCount j hj q hq]
      have hnot : q ∉ Finset.Ico (p + k) (p + k + c) := fun hnew =>
        hji (hl.unique hj hi hq (hpart hnew))
      simp only [hsplit q, hnot, or_false]
  · ext q
    by_cases hji : j = i
    · subst hji
      rw [setManager_self, hm.freePages, hc.freePages j hj]
      simp only [mem_union, mem_filter, hsplit q]
      constructor
      · rintro ((hfree | ⟨hin, hreg⟩) | ⟨hnew, hfreed⟩)
        · exact inl hfree
        · exact inr ⟨inl hin, hreg⟩
        · exact inr ⟨inr hnew, hpart hnew, hold q hnew ▸ hfreed⟩
      · rintro (hfree | ⟨hin | hnew, hreg, hfreed⟩)
        · exact inl (inl hfree)
        · exact inl (inr ⟨hin, hreg, hfreed⟩)
        · exact inr ⟨hnew, (hold q hnew).symm ▸ hfreed⟩
    · rw [setManager_of_ne mm' m hji, hc.freePages j hj]
      simp only [mem_union, mem_filter, hsplit q]
      constructor
      · rintro (hfree | ⟨hin, hreg⟩)
        · exact inl hfree
        · exact inr ⟨inl hin, hreg⟩
      · rintro (hfree | ⟨hin | hnew, hreg, hfreed⟩)
        · exact inl hfree
        · exact inr ⟨hin, hreg, hfreed⟩
        · exact absurd (hl.unique hj hi hreg (hpart hnew)) hji
  · by_cases hji : j = i
    · subst hji
      rw [setManager_self, hm.optimizeMap, hc.optimizeMap]
    · rw [setManager_of_ne mm' m hji, hc.optimizeMap]

/-- An operation that does its work on every part does it on a range that reaches over several
managers, if each page of the range meets its condition. -/
theorem counted_rangeLoop {f : Impl → Nat → Nat → Impl} {change : BitVec 16 → BitVec 16}
    {freed : BitVec 16 → Bool} {Cond : Prop → BitVec 16 → Prop}
    (hf : ∀ {m : Impl} {q c : Nat}, m.Valid → Finset.Ico q (q + c) ⊆ m.region →
      (∀ x ∈ Finset.Ico q (q + c), Cond (x ∈ m.heap.freePages) (m.refCount x)) →
        PartCounted m (f m (q * pageSize) c) change freed q c)
    (hv : Valid mm) (hmanaged : ∀ q ∈ Finset.Ico p (p + n), Managed mm q)
    (hcond : ∀ i < mm.numManagers, ∀ q ∈ Finset.Ico p (p + n), q ∈ (mm.managers i).region →
      Cond (q ∈ (mm.managers i).heap.freePages) ((mm.managers i).refCount q)) :
    SameShape mm (rangeLoop f n (p * pageSize) n mm) ∧
      Counted mm (rangeLoop f n (p * pageSize) n mm) change freed p n := by
  have hloop := @rangeLoop_induct p n f (fun k mm' => Counted mm mm' change freed p k) mm hv.layout
    hmanaged (fun {k c i mm'} hshape hc hi hle hpart => by
      have hvalid := hc.valid.managers i (hshape.numManagers.symm ▸ hi)
      have hm := hf hvalid (hshape.region i ▸ hpart) (fun x hx => by
        -- The pages of the part are as they were at the beginning.
        have hx' := mem_Ico.1 hx
        have hout : x ∉ Finset.Ico p (p + k) := by
          rw [mem_Ico]
          omega
        have hfree : (x ∈ (mm'.managers i).heap.freePages) =
            (x ∈ (mm.managers i).heap.freePages) := by
          rw [hc.freePages i hi, mem_union, mem_filter]
          simp only [hout, false_and, or_false]
        rw [hfree, hc.refCount i hi x (hpart hx), if_neg hout]
        exact hcond i hi x (mem_Ico.2 ⟨by omega, by omega⟩) (hpart hx))
      exact ⟨hm.same, hc.step hv.layout hshape hi hpart hm⟩)
    n 0 mm (Nat.zero_le n) (le_refl _) (SameShape.refl mm) (counted_zero hv change freed p)
  exact hloop

/-- `Open` of managed pages that are not free. -/
theorem openPages_spec (hv : Valid mm) (hmanaged : ∀ q ∈ Finset.Ico p (p + n), Managed mm q)
    (hused : ∀ i < mm.numManagers, ∀ q ∈ Finset.Ico p (p + n), q ∈ (mm.managers i).region →
      q ∉ (mm.managers i).heap.freePages) : SameShape mm (mm.openPages (p * pageSize) n) ∧
      Counted mm (mm.openPages (p * pageSize) n) (· + 1) (fun _ => false) p n := by
  refine @counted_rangeLoop mm p n Impl.openPages (· + 1) (fun _ => false) (fun free _ => ¬free)
    ?_ hv hmanaged hused
  intro m q c hm hin hcond
  obtain ⟨hvalid, hsame, hheap, hcount⟩ := Impl.openPages_spec hm hin (disjoint_left.2 hcond)
  refine ⟨hvalid, hsame, ?_, hcount, rfl⟩
  simp only [Bool.false_eq_true, filter_false, union_empty, hheap]

theorem openFirst_eq_openPages : openFirst = openPages := rfl

/-- `Close` of managed pages that have a reference. -/
theorem close_spec (hv : Valid mm) (hmanaged : ∀ q ∈ Finset.Ico p (p + n), Managed mm q)
    (hopen : ∀ i < mm.numManagers, ∀ q ∈ Finset.Ico p (p + n), q ∈ (mm.managers i).region →
      (mm.managers i).refCount q ≠ 0) : SameShape mm (mm.close (p * pageSize) n) ∧
      Counted mm (mm.close (p * pageSize) n) (· - 1) (fun c => decide (c = 1)) p n := by
  refine @counted_rangeLoop mm p n Impl.close (· - 1) (fun c => decide (c = 1))
    (fun _ count => count ≠ 0) ?_ hv hmanaged hopen
  intro m q c hm hin hcond
  obtain ⟨hvalid, hsame, hfree, hcount⟩ := Impl.close_spec hm hin hcond
  refine ⟨hvalid, hsame, ?_, hcount, Impl.close_optimizeMap⟩
  simp only [decide_eq_true_eq, hfree]

end Managers

end KMemoryManager

end Sudachi.Kernel
