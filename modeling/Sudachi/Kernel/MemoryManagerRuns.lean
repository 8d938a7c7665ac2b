import Sudachi.Kernel.MemoryManagerReferences

/-!
# Runs of the memory manager

The books of a run: how often each page has been opened and not closed since, and which pages
`AllocateForProcess` has handed out that nobody has opened yet. Every operation keeps the managers in
agreement with the books (`Accounted`), so over every run a page is free exactly when it has no
reference and is not waiting for its first one, and `Close` frees exactly the pages whose last
reference it drops (`referenceRun_spec`). `OpenFirst` does not look at the heap: applied to a free
page it leaves a page that is free and has a reference (`openFirst_free_page`).
-/

set_option autoImplicit false

namespace Sudachi.Kernel

open Sudachi.Common Sudachi.Foundations KPageHeap KPageBitmap Finset

namespace KMemoryManager

open KPageGroup

/-- The managers as `Initialize` leaves them: the pages of the initial process binary have a
reference, and all others are free. -/
structure Initialized (mm : KMemoryManager) (reserved : Finset Nat) : Prop where
  valid : Valid mm
  managed : ∀ p ∈ reserved, Managed mm p
  freePages : ∀ i < mm.numManagers,
    (mm.managers i).heap.freePages = (mm.managers i).region \ reserved
  refCount : ∀ i < mm.numManagers, ∀ p ∈ (mm.managers i).region,
    (mm.managers i).refCount p = if p ∈ reserved then 1 else 0

/-- The references after the pages of a set have been opened. -/
def addRefs (refs : Nat → Nat) (S : Finset Nat) : Nat → Nat :=
  fun p => if p ∈ S then refs p + 1 else refs p

/-- The references after the pages of a set have been closed. -/
def dropRefs (refs : Nat → Nat) (S : Finset Nat) : Nat → Nat :=
  fun p => if p ∈ S then refs p - 1 else refs p

/-- The managers agree with the books. -/
structure Accounted (mm : KMemoryManager) (refs : Nat → Nat) (pending : Finset Nat) : Prop where
  valid : Valid mm
  managed : ∀ p, 0 < refs p ∨ p ∈ pending → Managed mm p
  unopened : ∀ p ∈ pending, refs p = 0
  refCount : ∀ i < mm.numManagers, ∀ p ∈ (mm.managers i).region,
    ((mm.managers i).refCount p).toNat = refs p
  free_iff : ∀ i < mm.numManagers, ∀ p ∈ (mm.managers i).region,
    p ∈ (mm.managers i).heap.freePages ↔ refs p = 0 ∧ p ∉ pending

section Steps

variable {mm mm' : KMemoryManager} {refs : Nat → Nat} {pending S : Finset Nat} {pool : Pool}

theorem Managed.of_sameShape {p : Nat} (h : Managed mm p) (hshape : SameShape mm mm') :
    Managed mm' p := by
  obtain ⟨i, hi, hp⟩ := h
  exact ⟨i, hshape.numManagers.symm ▸ hi, (hshape.region i).symm ▸ hp⟩

theorem Initialized.accounted {reserved : Finset Nat} (h : Initialized mm reserved) :
    Accounted mm (addRefs (fun _ => 0) reserved) ∅ := by
  refine ⟨h.valid, fun p hp => ?_, fun p hp => absurd hp (notMem_empty p),
    fun i hi p hp => ?_, fun i hi p hp => ?_⟩
  · refine h.managed p ?_
    rcases hp with hp | hp
    · by_contra hnot
      rw [addRefs, if_neg hnot] at hp
      exact lt_irrefl 0 hp
    · exact absurd hp (notMem_empty p)
  · rw [h.refCount i hi p hp, addRefs]
    split_ifs <;> rfl
  · rw [h.freePages i hi, mem_sdiff, addRefs]
    by_cases hres : p ∈ reserved
    · simp only [hres, not_true_eq_false, and_false, if_true, Nat.add_one_ne_zero, false_and]
    · simp only [hp, hres, not_false_eq_true, and_self, if_false, notMem_empty]

section

variable (ha : Accounted mm refs pending)
include ha

/-- The pages of an allocation that opens them were free, and have a reference now. -/
theorem Accounted.allocated (ht : TakenPages mm mm' pool (· + 1) S) :
    Accounted mm' (addRefs refs S) pending := by
  have hfree : ∀ p ∈ S, refs p = 0 ∧ p ∉ pending := by
    intro p hp
    obtain ⟨i, hi, -, hin⟩ := ht.source p hp
    exact (ha.free_iff i hi p ((ha.valid.managers i hi).freePages_subset hin)).1 hin
  refine ⟨ht.valid, fun p hp => ?_, fun p hp => ?_, fun i hi p hp => ?_, fun i hi p hp => ?_⟩
  · by_cases hS : p ∈ S
    · exact ht.managed ha.valid hS
    · rw [addRefs, if_neg hS] at hp
      exact (ha.managed p hp).of_sameShape ht.shape
  · have hS : p ∉ S := fun hS => (hfree p hS).2 hp
    rw [addRefs, if_neg hS]
    exact ha.unopened p hp
  · have hi₀ : i < mm.numManagers := ht.shape.numManagers ▸ hi
    have hp₀ : p ∈ (mm.managers i).region := ht.shape.region i ▸ hp
    have hold := ha.refCount i hi₀ p hp₀
    rw [ht.refCount i hi₀ p hp₀, addRefs]
    by_cases hS : p ∈ S
    · have hzero : (mm.managers i).refCount p = 0 := by
        apply BitVec.eq_of_toNat_eq
        rw [hold, (hfree p hS).1]
        rfl
      rw [if_pos hS, if_pos hS, hzero, (hfree p hS).1]
      rfl
    · rw [if_neg hS, if_neg hS]
      exact hold
  · have hi₀ : i < mm.numManagers := ht.shape.numManagers ▸ hi
    have hp₀ : p ∈ (mm.managers i).region := ht.shape.region i ▸ hp
    rw [ht.freePages i hi₀, mem_sdiff, ha.free_iff i hi₀ p hp₀, addRefs]
    by_cases hS : p ∈ S
    · simp only [hS, not_true_eq_false, and_false, if_true, Nat.add_one_ne_zero, false_and]
    · simp only [hS, not_false_eq_true, and_true, if_false]

/-- The pages that `AllocateForProcess` hands out were free, and wait for their first reference. -/
theorem Accounted.handedOut (ht : TakenPages mm mm' pool id S) :
    Accounted mm' refs (pending ∪ S) := by
  have hfree : ∀ p ∈ S, refs p = 0 := by
    intro p hp
    obtain ⟨i, hi, -, hin⟩ := ht.source p hp
    exact ((ha.free_iff i hi p ((ha.valid.managers i hi).freePages_subset hin)).1 hin).1
  refine ⟨ht.valid, fun p hp => ?_, fun p hp => ?_, fun i hi p hp => ?_, fun i hi p hp => ?_⟩
  · by_cases hS : p ∈ S
    · exact ht.managed ha.valid hS
    · rw [mem_union, or_iff_left hS] at hp
      exact (ha.managed p hp).of_sameShape ht.shape
  · exact (mem_union.1 hp).elim (ha.unopened p) (hfree p)
  · have hp₀ : p ∈ (mm.managers i).region := ht.shape.region i ▸ hp
    rw [ht.refCount i (ht.shape.numManagers ▸ hi) p hp₀, id, ite_self]
    exact ha.refCount i (ht.shape.numManagers ▸ hi) p hp₀
  · have hi₀ : i < mm.numManagers := ht.shape.numManagers ▸ hi
    rw [ht.freePages i hi₀, mem_sdiff, ha.free_iff i hi₀ p (ht.shape.region i ▸ hp),
      mem_union, not_or, and_assoc]

/-- `Open` and `OpenFirst` of pages that are not free, with room in their counts. -/
theorem Accounted.opened (ho : Opened mm mm' S) (hused : ∀ p ∈ S, 0 < refs p ∨ p ∈ pending)
    (hroom : ∀ p ∈ S, refs p + 1 < 2 ^ 16) : Accounted mm' (addRefs refs S) (pending \ S) := by
  refine ⟨ho.valid, fun p hp => ?_, fun p hp => ?_, fun i hi p hp => ?_, fun i hi p hp => ?_⟩
  · refine (ha.managed p ?_).of_sameShape ho.shape
    by_cases hS : p ∈ S
    · exact hused p hS
    · rw [addRefs, if_neg hS, mem_sdiff] at hp
      exact hp.imp id And.left
  · obtain ⟨hpend, hS⟩ := mem_sdiff.1 hp
    rw [addRefs, if_neg hS]
    exact ha.unopened p hpend
  · have hi₀ : i < mm.numManagers := ho.shape.numManagers ▸ hi
    have hp₀ : p ∈ (mm.managers i).region := ho.shape.region i ▸ hp
    have hold := ha.refCount i hi₀ p hp₀
    rw [ho.refCount i hi₀ p hp₀, addRefs]
    by_cases hS : p ∈ S
    · have hone : (1 : BitVec 16).toNat = 1 := rfl
      rw [if_pos hS, if_pos hS, BitVec.toNat_add, hold, hone, Nat.mod_eq_of_lt (hroom p hS)]
    · rw [if_neg hS, if_neg hS]
      exact hold
  · have hi₀ : i < mm.numManagers := ho.shape.numManagers ▸ hi
    rw [ho.freePages i hi₀, ha.free_iff i hi₀ p (ho.shape.region i ▸ hp), addRefs, mem_sdiff]
    by_cases hS : p ∈ S
    · have hnot : ¬(refs p = 0 ∧ p ∉ pending) := by
        rintro ⟨hzero, hpend⟩
        rcases hused p hS with hpos | hpend'
        · omega
        · exact hpend hpend'
      simp only [hS, hnot, if_true, Nat.add_one_ne_zero, false_and]
    · simp only [hS, if_false, not_false_eq_true, and_true]

theorem Accounted.failed (hf : Failed mm mm' pool)
    (hseam : ∀ a b, ¬FreeSeam mm pool a b) : Accounted mm' refs pending := by
  refine ⟨hf.valid, fun p hp => (ha.managed p hp).of_sameShape hf.shape, ha.unopened,
    fun i hi p hp => ?_, fun i hi p hp => ?_⟩
  · rw [Impl.refCount, hf.refCount, (hf.shape.managers i).firstPage]
    exact ha.refCount i (hf.shape.numManagers ▸ hi) p (hf.shape.region i ▸ hp)
  · have hi₀ : i < mm.numManagers := hf.shape.numManagers ▸ hi
    rw [hf.freePages hseam i hi₀]
    exact ha.free_iff i hi₀ p (hf.shape.region i ▸ hp)

/-- A count, as a number of references. -/
theorem Accounted.refCount_eq_iff {i p n : Nat}
    (hi : i < mm.numManagers) (hp : p ∈ (mm.managers i).region) (hn : n < 2 ^ 16) :
    (mm.managers i).refCount p = BitVec.ofNat 16 n ↔ refs p = n := by
  rw [← ha.refCount i hi p hp, ← BitVec.toNat_inj, BitVec.toNat_ofNat, Nat.mod_eq_of_lt hn]

/-- What `Close` of pages with a reference does. -/
theorem Accounted.close {p n : Nat} (hopen : ∀ q ∈ Finset.Ico p (p + n), 0 < refs q) :
    SameShape mm (mm.close (p * pageSize) n) ∧
      Counted mm (mm.close (p * pageSize) n) (· - 1) (fun c => decide (c = 1)) p n := by
  refine close_spec ha.valid (fun q hq => ha.managed q (.inl (hopen q hq)))
    fun i hi q hq hreg hzero => ?_
  have := (ha.refCount_eq_iff hi hreg (show 0 < 2 ^ 16 by decide)).1 hzero
  have := hopen q hq
  omega

theorem Accounted.closed {p n : Nat} (hopen : ∀ q ∈ Finset.Ico p (p + n), 0 < refs q) :
    Accounted (mm.close (p * pageSize) n) (dropRefs refs (Finset.Ico p (p + n))) pending := by
  obtain ⟨hshape, hc⟩ := ha.close hopen
  refine ⟨hc.valid, fun q hq => (ha.managed q ?_).of_sameShape hshape, fun q hq => ?_,
    fun i hi q hq => ?_, fun i hi q hq => ?_⟩
  · refine hq.imp (fun hpos => ?_) id
    rw [dropRefs] at hpos
    split_ifs at hpos <;> omega
  · have hzero := ha.unopened q hq
    rw [dropRefs]
    split_ifs <;> omega
  · have hi₀ : i < mm.numManagers := hshape.numManagers ▸ hi
    have hq₀ : q ∈ (mm.managers i).region := hshape.region i ▸ hq
    have hold := ha.refCount i hi₀ q hq₀
    rw [hc.refCount i hi₀ q hq₀, dropRefs]
    by_cases hin : q ∈ Finset.Ico p (p + n)
    · have hle : (1 : BitVec 16) ≤ (mm.managers i).refCount q := by
        rw [BitVec.le_def, hold]
        exact hopen q hin
      have hone : (1 : BitVec 16).toNat = 1 := rfl
      rw [if_pos hin, if_pos hin, BitVec.toNat_sub_of_le hle, hold, hone]
    · rw [if_neg hin, if_neg hin]
      exact hold
  · have hi₀ : i < mm.numManagers := hshape.numManagers ▸ hi
    have hq₀ : q ∈ (mm.managers i).region := hshape.region i ▸ hq
    have hone := ha.refCount_eq_iff hi₀ hq₀ (show 1 < 2 ^ 16 by decide)
    rw [hc.freePages i hi₀, mem_union, mem_filter, ha.free_iff i hi₀ q hq₀, dropRefs]
    by_cases hin : q ∈ Finset.Ico p (p + n)
    · have hpos := hopen q hin
      have hpend : q ∉ pending := fun hq' => by
        have := ha.unopened q hq'
        omega
      simp only [hin, hq₀, true_and, decide_eq_true_eq, if_true, hpend, not_false_eq_true, and_true]
      constructor
      · rintro (hzero | heq)
        · omega
        · have := hone.1 heq
          omega
      · intro hzero
        exact .inr (hone.2 (by omega))
    · simp only [hin, false_and, or_false, if_false]

end

end Steps

/-! ## Runs -/

/-- The managers that a run leads to, with its books. `OpenFirst` is for pages that
`AllocateForProcess` has handed out, `Open` for pages that have a reference and room in their counts,
as both assert, and a `Close` matches an earlier open of each of its pages. A continuous allocation
asks for a block that some block size fits, and for an alignment. Allocations may fail where no seam
of the pool is free on both sides. -/
inductive ReferenceRun : KMemoryManager → (Nat → Nat) → Finset Nat → Prop
  | initialized {mm : KMemoryManager} {reserved : Finset Nat} : Initialized mm reserved →
      ReferenceRun mm (addRefs (fun _ => 0) reserved) ∅
  | allocatedAndOpened {mm mm' : KMemoryManager} {refs : Nat → Nat} {pending : Finset Nat}
      {out g : KPageGroup} (numPages : Nat) (pool : Pool) (dir : Direction) :
      ReferenceRun mm refs pending → out.blocks = [] →
      mm.allocateAndOpen out numPages pool dir = (.ok g, mm') →
      ReferenceRun mm' (addRefs refs (pages g.blocks)) pending
  | allocateAndOpenFailed {mm mm' : KMemoryManager} {refs : Nat → Nat} {pending : Finset Nat}
      {out : KPageGroup} {e : AllocateError} (numPages : Nat) (pool : Pool) (dir : Direction) :
      ReferenceRun mm refs pending → out.blocks = [] → (∀ a b, ¬FreeSeam mm pool a b) →
      mm.allocateAndOpen out numPages pool dir = (.error e, mm') →
      ReferenceRun mm' refs pending
  | allocatedContinuous {mm mm' : KMemoryManager} {refs : Nat → Nat} {pending : Finset Nat}
      {addr : Nat} (numPages alignPages : Nat) (pool : Pool) (dir : Direction) :
      ReferenceRun mm refs pending → alignPages ≠ 0 →
      mm.allocateAndOpenContinuous numPages alignPages pool dir = some (addr, mm') →
      ReferenceRun mm' (addRefs refs (takenPages addr numPages)) pending
  | allocatedForProcess {mm mm' : KMemoryManager} {refs : Nat → Nat} {pending : Finset Nat}
      {out g : KPageGroup} (numPages : Nat) (pool : Pool) (dir : Direction) (processId : Nat)
      (fillPattern : BitVec 8) :
      ReferenceRun mm refs pending → out.blocks = [] →
      mm.allocateForProcess out numPages pool dir processId fillPattern = (.ok g, mm') →
      ReferenceRun mm' refs (pending ∪ pages g.blocks)
  | allocateForProcessFailed {mm mm' : KMemoryManager} {refs : Nat → Nat} {pending : Finset Nat}
      {out : KPageGroup} {e : AllocateError} (numPages : Nat) (pool : Pool) (dir : Direction)
      (processId : Nat) (fillPattern : BitVec 8) :
      ReferenceRun mm refs pending → out.blocks = [] → (∀ a b, ¬FreeSeam mm pool a b) →
      mm.allocateForProcess out numPages pool dir processId fillPattern = (.error e, mm') →
      ReferenceRun mm' refs pending
  | openedFirst {mm : KMemoryManager} {refs : Nat → Nat} {pending : Finset Nat} (p n : Nat) :
      ReferenceRun mm refs pending → (∀ q ∈ Finset.Ico p (p + n), q ∈ pending) →
      ReferenceRun (mm.openFirst (p * pageSize) n) (addRefs refs (Finset.Ico p (p + n)))
        (pending \ Finset.Ico p (p + n))
  | opened {mm : KMemoryManager} {refs : Nat → Nat} {pending : Finset Nat} (p n : Nat) :
      ReferenceRun mm refs pending →
      (∀ q ∈ Finset.Ico p (p + n), 0 < refs q ∧ refs q + 1 < 2 ^ 16) →
      ReferenceRun (mm.openPages (p * pageSize) n) (addRefs refs (Finset.Ico p (p + n)))
        (pending \ Finset.Ico p (p + n))
  | closed {mm : KMemoryManager} {refs : Nat → Nat} {pending : Finset Nat} (p n : Nat) :
      ReferenceRun mm refs pending → (∀ q ∈ Finset.Ico p (p + n), 0 < refs q) →
      ReferenceRun (mm.close (p * pageSize) n) (dropRefs refs (Finset.Ico p (p + n))) pending

section Runs

variable {mm : KMemoryManager} {refs : Nat → Nat} {pending : Finset Nat}

/-- Pages in use are not free. -/
theorem Accounted.not_free (ha : Accounted mm refs pending) {i q : Nat} (hi : i < mm.numManagers)
    (hq : q ∈ (mm.managers i).region) (hused : 0 < refs q ∨ q ∈ pending) :
    q ∉ (mm.managers i).heap.freePages := by
  intro hin
  obtain ⟨hzero, hnot⟩ := (ha.free_iff i hi q hq).1 hin
  rcases hused with hpos | hpend
  · omega
  · exact hnot hpend

/-- Opening a range of pages in use. -/
theorem Accounted.openPages (ha : Accounted mm refs pending) {p n : Nat}
    (hused : ∀ q ∈ Finset.Ico p (p + n), 0 < refs q ∨ q ∈ pending)
    (hroom : ∀ q ∈ Finset.Ico p (p + n), refs q + 1 < 2 ^ 16) :
    Accounted (mm.openPages (p * pageSize) n) (addRefs refs (Finset.Ico p (p + n)))
      (pending \ Finset.Ico p (p + n)) :=
  ha.opened (openPages_opened ha.valid (fun q hq => ha.managed q (hused q hq))
    fun _ hi q hq hreg => ha.not_free hi hreg (hused q hq)) hused hroom

/-- Every run keeps the managers in agreement with its books. -/
theorem ReferenceRun.accounted (hrun : ReferenceRun mm refs pending) :
    Accounted mm refs pending := by
  induction hrun with
  | initialized h => exact h.accounted
  | allocatedAndOpened _ _ _ _ hout hok ih =>
    exact ih.allocated (allocateAndOpen_ok ih.valid hout hok).1.toTakenPages
  | allocateAndOpenFailed _ _ _ _ hout hseam herr ih =>
    exact ih.failed (allocateAndOpen_failed ih.valid hout herr) hseam
  | allocatedContinuous _ _ _ _ _ halign hresult ih =>
    exact ih.allocated (allocateAndOpenContinuous_taken ih.valid halign hresult).1.toTakenPages
  | allocatedForProcess _ _ _ _ _ _ hout hok ih =>
    exact ih.handedOut (allocateForProcess_taken ih.valid hout hok)
  | allocateForProcessFailed _ _ _ _ _ _ hout hseam herr ih =>
    exact ih.failed (allocateForProcess_failed ih.valid hout herr) hseam
  | openedFirst p n _ hpend ih =>
    rw [openFirst_eq_openPages]
    refine ih.openPages (fun q hq => .inr (hpend q hq)) fun q hq => ?_
    rw [ih.unopened q (hpend q hq)]
    decide
  | opened p n _ hopen ih =>
    exact ih.openPages (fun q hq => .inl (hopen q hq).1) fun q hq => (hopen q hq).2
  | closed p n _ hopen ih => exact ih.closed hopen

/-- In every state of every run: the count of a page is the number of its references, a page is free
exactly if its count is zero and it is not waiting for its first reference, and `Close` of pages with
references adds to the free pages of each manager exactly the pages of the range whose count drops to
zero, none of which was free. -/
theorem referenceRun_spec (hrun : ReferenceRun mm refs pending) :
    (∀ i < mm.numManagers, ∀ p ∈ (mm.managers i).region,
        ((mm.managers i).refCount p).toNat = refs p ∧
        (p ∈ (mm.managers i).heap.freePages ↔ (mm.managers i).refCount p = 0 ∧ p ∉ pending)) ∧
      ∀ p n, (∀ q ∈ Finset.Ico p (p + n), 0 < refs q) → ∀ i < mm.numManagers, ∃ S : Finset Nat,
          (∀ q, q ∈ S ↔ q ∈ Finset.Ico p (p + n) ∧ q ∈ (mm.managers i).region ∧
            ((mm.close (p * pageSize) n).managers i).refCount q = 0) ∧
          Disjoint (mm.managers i).heap.freePages S ∧
          ((mm.close (p * pageSize) n).managers i).heap.freePages =
            (mm.managers i).heap.freePages ∪ S ∧
          ((mm.close (p * pageSize) n).managers i).heap.getNumFreePages =
            (mm.managers i).heap.getNumFreePages + S.card := by
  have ha := hrun.accounted
  refine ⟨fun i hi p hp => ⟨ha.refCount i hi p hp, ?_⟩, fun p n hopen i hi => ?_⟩
  · rw [ha.free_iff i hi p hp, ← ha.refCount_eq_iff hi hp (show 0 < 2 ^ 16 by decide)]
    rfl
  · obtain ⟨hshape, hc⟩ := ha.close hopen
    have hi' : i < (mm.close (p * pageSize) n).numManagers := hshape.numManagers.symm ▸ hi
    have hdis : Disjoint (mm.managers i).heap.freePages ((Finset.Ico p (p + n)).filter fun q =>
        q ∈ (mm.managers i).region ∧ decide ((mm.managers i).refCount q = 1) = true) := by
      refine disjoint_right.2 fun q hq => ?_
      obtain ⟨hin, hreg, -⟩ := mem_filter.1 hq
      exact ha.not_free hi hreg (Or.inl (hopen q hin))
    refine ⟨_, fun q => ?_, hdis, hc.freePages i hi, ?_⟩
    · rw [mem_filter, decide_eq_true_eq]
      refine and_congr_right fun hin => and_congr_right fun hreg => ?_
      -- A count drops to zero exactly if it was one.
      rw [hc.refCount i hi q hreg, if_pos hin]
      refine ⟨fun hone => by rw [hone]; rfl, fun hzero => ?_⟩
      rw [← BitVec.sub_add_cancel ((mm.managers i).refCount q) 1, hzero]
      rfl
    · rw [(ha.valid.managers i hi).heap.getNumFreePages_eq,
        (hc.valid.managers i hi').heap.getNumFreePages_eq, hc.freePages i hi,
        card_union_of_disjoint hdis]

end Runs

/-! ## One manager -/

/-- One manager with the given heap, and no references. -/
def oneManager (heap : KPageHeap) : KMemoryManager where
  managers := fun _ =>
    { heap := heap
      pageReferenceCounts := fun _ => 0
      optimizeMap := fun _ => 0
      pool := .application }
  numManagers := 1
  layout := fun _ => 0
  optimizedProcessIds := fun _ => 0
  hasOptimizedProcess := fun _ => false
  memory := fun _ => 0

theorem oneManager_heap (heap : KPageHeap) (i : Nat) : ((oneManager heap).managers i).heap = heap :=
  rfl

theorem sixteenPages_facts : sixteenPages.heapAddress = 0x10000 ∧ sixteenPages.heapSize = 0x10000 ∧
    sixteenPages.freePages = rangePages 0x10000 16 := by
  have hinv := heapRun_sixteenPages.invariant
  exact ⟨hinv.heapAddress, hinv.heapSize, hinv.freePages_eq.trans (empty_union _)⟩

theorem oneManager_initialized : Initialized (oneManager sixteenPages) ∅ := by
  obtain ⟨haddr, hsize, hfree⟩ := sixteenPages_facts
  have hpages : 0x10000 / pageSize = 16 := by decide
  have hregion : ∀ i, ((oneManager sixteenPages).managers i).region = rangePages 0x10000 16 := by
    intro i
    rw [Impl.region, oneManager_heap, haddr, hsize, hpages]
  have hheapRegion : ∀ i, HeapRegion ((oneManager sixteenPages).managers i).heap.heapAddress
      ((oneManager sixteenPages).managers i).heap.heapSize := by
    intro i
    rw [oneManager_heap, haddr, hsize]
    exact heapRegion_sixteen_pages
  refine ⟨⟨⟨fun i _ => hheapRegion i, fun i _ p hp => ?_, fun i hi p _ => ?_⟩,
    fun i _ => ⟨hheapRegion i, ?_, fun _ _ => rfl⟩⟩, fun p hp => absurd hp (notMem_empty p),
    fun i _ => ?_, fun i _ p _ => rfl⟩
  · rw [hregion, rangePages, mem_Ico, hpages] at hp
    omega
  · have hi' : i < 1 := hi
    have hlookup : (oneManager sixteenPages).layout (p * pageSize) = 0 := rfl
    omega
  · have hinv := heapRun_sixteenPages.invariant
    rw [oneManager_heap, haddr, hsize, hinv.freePages_eq]
    exact hinv
  · rw [hregion, sdiff_empty, oneManager_heap]
    exact hfree

/-- A run of one allocation: a page is free exactly if it has no reference. -/
theorem referenceRun_spec_allocateAndOpen :
    ∃ result mm' refs, (oneManager sixteenPages).allocateAndOpen emptyGroup 3 .application .fromBack =
        (result, mm') ∧ ReferenceRun mm' refs ∅ ∧
      ∀ p ∈ (mm'.managers 0).region,
        p ∈ (mm'.managers 0).heap.freePages ↔ (mm'.managers 0).refCount p = 0 := by
  have hinit := oneManager_initialized
  have hstart := ReferenceRun.initialized hinit
  have hseam : ∀ a b, ¬FreeSeam (oneManager sixteenPages) .application a b := by
    intro a b hseam
    have ha : a < 1 := hseam.left_lt
    have hb : b < 1 := hseam.right_lt
    exact (hseam.toSeam.pages hinit.valid.layout).1 (by omega)
  have hspec : ∀ {mm' : KMemoryManager} {refs : Nat → Nat}, SameShape (oneManager sixteenPages) mm' →
      ReferenceRun mm' refs ∅ → ∀ p ∈ (mm'.managers 0).region,
        p ∈ (mm'.managers 0).heap.freePages ↔ (mm'.managers 0).refCount p = 0 := by
    intro mm' refs hshape hrun p hp
    have hnum : 0 < mm'.numManagers := hshape.numManagers.symm ▸ Nat.one_pos
    rw [((referenceRun_spec hrun).1 0 hnum p hp).2]
    exact and_iff_left (notMem_empty p)
  rcases hresult : (oneManager sixteenPages).allocateAndOpen emptyGroup 3 .application .fromBack with
    ⟨e | g, mm'⟩
  · have hrun := ReferenceRun.allocateAndOpenFailed 3 .application .fromBack hstart rfl hseam hresult
    exact ⟨_, mm', _, rfl, hrun, hspec (allocateAndOpen_failed hinit.valid rfl hresult).shape hrun⟩
  · have hrun := ReferenceRun.allocatedAndOpened 3 .application .fromBack hstart rfl hresult
    exact ⟨_, mm', _, rfl, hrun, hspec (allocateAndOpen_ok hinit.valid rfl hresult).1.shape hrun⟩

/-- `OpenFirst` of a free page gives it a reference and leaves it free. -/
theorem openFirst_free_page :
    Initialized (oneManager sixteenPages) ∅ ∧
      16 ∈ (((oneManager sixteenPages).openFirst 0x10000 1).managers 0).heap.freePages ∧
      (((oneManager sixteenPages).openFirst 0x10000 1).managers 0).refCount 16 = 1 := by
  obtain ⟨haddr, hsize, hfree⟩ := sixteenPages_facts
  have hopen : (oneManager sixteenPages).openFirst 0x10000 1 =
      (oneManager sixteenPages).setManager 0
        (((oneManager sixteenPages).managers 0).openFirst 0x10000 1) := by
    have hlookup : (oneManager sixteenPages).layout 0x10000 = 0 := rfl
    have hpages :
        min 1 (((oneManager sixteenPages).managers 0).getPageOffsetToEnd 0x10000) = 1 := by
      rw [Impl.getPageOffsetToEnd, Impl.getEndAddress, oneManager_heap, haddr, hsize]
      decide
    simp only [openFirst, rangeLoop, Nat.one_ne_zero, if_false, getManager, hlookup, hpages]
  have hheap : ∀ m : Impl, (m.openFirst 0x10000 1).heap = m.heap := fun _ => rfl
  have hcounts : ∀ m : Impl, (m.openFirst 0x10000 1).pageReferenceCounts =
      Impl.openLoop 1 (m.getPageOffset 0x10000) m.pageReferenceCounts := fun _ => rfl
  have hzero : ((oneManager sixteenPages).managers 0).pageReferenceCounts = fun _ => 0 := rfl
  refine ⟨oneManager_initialized, ?_, ?_⟩
  · rw [hopen, setManager_self, hheap, oneManager_heap, hfree]
    decide
  · rw [hopen, setManager_self, Impl.refCount, Impl.firstPage, hcounts, hheap, Impl.getPageOffset,
      oneManager_heap, haddr, hzero]
    decide

end KMemoryManager

end Sudachi.Kernel
