import Sudachi.Kernel.MemoryManagerPages

/-!
# Allocating a page group

What one round of `AllocatePageGroupImpl` can do is said once (`GroupStep`), and the loops are runs
of such steps (`allocateGroup_steps`). Every state of the loops accounts for the pages of the group
(`GroupInvariant`). On failure each block of the group is freed through the manager of its first page
only, so a block that reaches into another manager is not freed as a whole: the free pages are what
they were exactly when every block lies in one manager, which holds if no seam between two managers
of the pool is free on both sides (`allocatePageGroupImpl_error`).
-/

set_option autoImplicit false

namespace Sudachi.Kernel

open Sudachi.Common Sudachi.Foundations KPageHeap Nat Finset Or

/-- The pages of a block. -/
def KBlockInfo.pages (b : KBlockInfo) : Finset Nat :=
  Finset.Ico b.pageIndex (b.pageIndex + b.numPages)

namespace KPageGroup

/-- The pages of the blocks of a group. -/
def pages (blocks : List KBlockInfo) : Finset Nat :=
  blocks.foldr (fun b acc => b.pages ∪ acc) ∅

theorem mem_pages {blocks : List KBlockInfo} {p : Nat} :
    p ∈ pages blocks ↔ ∃ b ∈ blocks, p ∈ b.pages := by
  induction blocks with
  | nil => simp [pages]
  | cons b rest ih =>
    simp only [List.mem_cons, exists_eq_or_imp, ← ih]
    exact mem_union

theorem pages_append (l l' : List KBlockInfo) : pages (l ++ l') = pages l ∪ pages l' := by
  ext p
  rw [mem_union, mem_pages, mem_pages, mem_pages]
  constructor
  · rintro ⟨b, hb, hp⟩
    exact (List.mem_append.1 hb).imp (fun h => ⟨b, h, hp⟩) (fun h => ⟨b, h, hp⟩)
  · rintro (⟨b, hb, hp⟩ | ⟨b, hb, hp⟩)
    · exact ⟨b, List.mem_append_left _ hb, hp⟩
    · exact ⟨b, List.mem_append_right _ hb, hp⟩

theorem pages_singleton (b : KBlockInfo) : pages [b] = b.pages := union_empty _

/-- The blocks of a group are not empty and have 32-bit numbers. -/
def Fits (blocks : List KBlockInfo) : Prop :=
  ∀ b ∈ blocks, 0 < b.numPages ∧ b.pageIndex + b.numPages < 2 ^ 32

/-- `AddBlock` of a block that starts at the end of the last one. -/
theorem addBlock_of_joins {g : KPageGroup} (hfits : Fits g.blocks) {init : List KBlockInfo}
    {last : KBlockInfo} (hlist : g.blocks = init ++ [last]) {q n : Nat}
    (hjoin : last.pageIndex + last.numPages = q) (hn : 0 < n) (hlt : q + n < 2 ^ 32) :
    g.addBlock (q * pageSize) n =
      (true, ⟨init ++ [⟨last.pageIndex, last.numPages + n⟩], g.manager⟩) := by
  have hlast : g.blocks.getLast? = some last := by
    rw [hlist, List.getLast?_append, List.getLast?_singleton, Option.some_or]
  obtain ⟨hpos, hend⟩ := hfits last (hlist ▸ List.mem_append_right _ (List.mem_singleton_self _))
  have hconcat : last.tryConcatenate (q * pageSize) n =
      some ⟨last.pageIndex, last.numPages + n⟩ := by
    have haddr : q * pageSize ≠ 0 ∧ q * pageSize = last.getEndAddress := by
      refine ⟨Nat.mul_ne_zero (by omega) (ne_of_gt pageSize_pos), ?_⟩
      rw [KBlockInfo.getEndAddress, mod_eq_of_lt hend, hjoin]
    rw [KBlockInfo.tryConcatenate, if_pos haddr, mod_eq_of_lt (show n < 2 ^ 32 by omega),
      mod_eq_of_lt (by omega)]
  rw [addBlock, if_neg (by omega), hlast]
  simp only [hconcat]
  rw [hlist, List.dropLast_concat]

/-- What `AddBlock` does with a block that fits: it joins the last block if it starts at the end of
it, or it becomes a block of its own, unless there is no block info. -/
theorem addBlock_cases {g : KPageGroup} (hfits : Fits g.blocks) {q n : Nat} (hq : 0 < q)
    (hn : 0 < n) (hlt : q + n < 2 ^ 32) :
    (∃ init last manager, g.blocks = init ++ [last] ∧ last.pageIndex + last.numPages = q ∧
        g.addBlock (q * pageSize) n =
          (true, ⟨init ++ [⟨last.pageIndex, last.numPages + n⟩], manager⟩)) ∨
      (∃ manager, g.addBlock (q * pageSize) n = (true, ⟨g.blocks ++ [⟨q, n⟩], manager⟩)) ∨
      ∃ manager, g.addBlock (q * pageSize) n = (false, ⟨g.blocks, manager⟩) := by
  have happend : (∃ manager, g.appendBlock (q * pageSize) n =
        (true, ⟨g.blocks ++ [⟨q, n⟩], manager⟩)) ∨
      ∃ manager, g.appendBlock (q * pageSize) n = (false, ⟨g.blocks, manager⟩) := by
    have hinfo : KBlockInfo.initializeInfo (q * pageSize) n = ⟨q, n⟩ := by
      rw [KBlockInfo.initializeInfo, Nat.mul_div_cancel _ pageSize_pos, mod_eq_of_lt (by omega),
        mod_eq_of_lt (by omega)]
    rw [appendBlock, hinfo]
    cases hfound : g.manager.answers 0 with
    | true => exact inl ⟨_, if_pos hfound⟩
    | false => exact inr ⟨_, if_neg (by rw [hfound]; decide)⟩
  rcases List.eq_nil_or_concat g.blocks with hnil | ⟨init, last, hlist⟩
  · rw [addBlock, if_neg (by omega)]
    rw [hnil] at happend ⊢
    exact inr happend
  · rw [List.concat_eq_append] at hlist
    have hlast : g.blocks.getLast? = some last := by
      rw [hlist, List.getLast?_append, List.getLast?_singleton, Option.some_or]
    obtain ⟨-, hend⟩ := hfits last (hlist ▸ List.mem_append_right _ (List.mem_singleton_self _))
    by_cases hjoin : last.pageIndex + last.numPages = q
    · exact inl ⟨init, last, g.manager, hlist, hjoin, addBlock_of_joins hfits hlist hjoin hn hlt⟩
    · have hconcat : last.tryConcatenate (q * pageSize) n = none := by
        rw [KBlockInfo.tryConcatenate, if_neg]
        rintro ⟨-, heq⟩
        rw [KBlockInfo.getEndAddress, mod_eq_of_lt hend] at heq
        exact hjoin (eq_of_mul_eq_mul_right pageSize_pos heq).symm
      rw [addBlock, if_neg (by omega), hlast]
      simp only [hconcat]
      exact inr happend

end KPageGroup

namespace KMemoryManager

open KPageGroup

/-! ## The optimize map -/

namespace Impl

/-- Whether a page is marked in the optimize map. -/
def marked (m : Impl) (p : Nat) : Bool :=
  (m.optimizeMap ((p - m.firstPage) / 64)).getLsbD ((p - m.firstPage) % 64)

/-- The loop that tracks an allocation writes the bits of its offsets and no other. -/
theorem getLsbD_trackLoop {write : BitVec 64 → BitVec 64 → BitVec 64} {value : Bool}
    (hwrite : ∀ (w : BitVec 64) (k t : Nat), k < 64 → t < 64 →
      (write w (1#64 <<< k)).getLsbD t = if t = k then value else w.getLsbD t) (n : Nat) :
    ∀ (o : Nat) (map : Nat → BitVec 64) (j : Nat),
      (trackLoop write n o map (j / 64)).getLsbD (j % 64) =
        if o ≤ j ∧ j < o + n then value else (map (j / 64)).getLsbD (j % 64) := by
  induction n with
  | zero =>
    intro o map j
    rw [trackLoop, if_neg (by omega)]
  | succ n ih =>
    intro o map j
    have hbits : (Function.update map (o / bitSize) (write (map (o / bitSize))
        (1#64 <<< (o % bitSize))) (j / 64)).getLsbD (j % 64) =
          if j = o then value else (map (j / 64)).getLsbD (j % 64) := by
      simp only [bitSize]
      by_cases hword : j / 64 = o / 64
      · rw [hword, Function.update_self, hwrite _ _ _ (mod_lt _ (by decide)) (mod_lt _ (by decide))]
        by_cases hj : j = o
        · rw [if_pos (by rw [hj]), if_pos hj]
        · rw [if_neg (by omega), if_neg hj]
      · rw [Function.update_of_ne hword, if_neg (by rintro rfl; exact hword rfl)]
    rw [trackLoop, ih, hbits]
    by_cases hj : j = o
    · subst hj
      rw [if_neg (by omega), if_pos rfl, if_pos (by omega)]
    · rw [if_neg hj]
      by_cases hin : o + 1 ≤ j ∧ j < o + 1 + n
      · rw [if_pos hin, if_pos (by omega)]
      · rw [if_neg hin, if_neg (by omega)]

variable {m : Impl} {p n : Nat}

/-- The marks after the bits of a range have been written. -/
theorem marked_trackLoop {write : BitVec 64 → BitVec 64 → BitVec 64} {value : Bool}
    (hwrite : ∀ (w : BitVec 64) (k t : Nat), k < 64 → t < 64 →
      (write w (1#64 <<< k)).getLsbD t = if t = k then value else w.getLsbD t)
    (hregion : pageSize ∣ m.heap.heapAddress) (hin : Finset.Ico p (p + n) ⊆ m.region) {q : Nat}
    (hq : q ∈ m.region) : marked { m with
        optimizeMap := trackLoop write n (m.getPageOffset (p * pageSize)) m.optimizeMap } q =
      if q ∈ Finset.Ico p (p + n) then value else m.marked q := by
  have hge := (mem_region.1 hq).1
  have hmark : marked { m with
        optimizeMap := trackLoop write n (m.getPageOffset (p * pageSize)) m.optimizeMap } q =
      (trackLoop write n (m.getPageOffset (p * pageSize)) m.optimizeMap
        ((q - m.firstPage) / 64)).getLsbD ((q - m.firstPage) % 64) := rfl
  rw [hmark, getLsbD_trackLoop hwrite, getPageOffset_page hregion, marked]
  rcases Nat.eq_zero_or_pos n with rfl | hn
  · rw [if_neg (by omega), if_neg (by simp)]
  · have hp := (mem_region.1 (hin (mem_Ico.2 ⟨le_refl p, by omega⟩))).1
    by_cases hmem : q ∈ Finset.Ico p (p + n)
    · rw [if_pos hmem, if_pos (by rw [mem_Ico] at hmem; omega)]
    · rw [if_neg hmem, if_neg (by rw [mem_Ico] at hmem; omega)]

theorem marked_trackUnoptimizedAllocation (hregion : pageSize ∣ m.heap.heapAddress)
    (hin : Finset.Ico p (p + n) ⊆ m.region) {q : Nat} (hq : q ∈ m.region) :
    (m.trackUnoptimizedAllocation (p * pageSize) n).marked q =
      if q ∈ Finset.Ico p (p + n) then false else m.marked q := by
  refine marked_trackLoop (fun w k t _ ht => ?_) hregion hin hq
  rw [getLsbD_and_not_one_shiftLeft w ht]
  by_cases htk : t = k
  · rw [if_pos htk, decide_eq_true htk, Bool.not_true, Bool.and_false]
  · rw [if_neg htk, decide_eq_false htk, Bool.not_false, Bool.and_true]

theorem marked_trackOptimizedAllocation (hregion : pageSize ∣ m.heap.heapAddress)
    (hin : Finset.Ico p (p + n) ⊆ m.region) {q : Nat} (hq : q ∈ m.region) :
    (m.trackOptimizedAllocation (p * pageSize) n).marked q =
      if q ∈ Finset.Ico p (p + n) then true else m.marked q := by
  refine marked_trackLoop (fun w k t _ ht => ?_) hregion hin hq
  rw [getLsbD_or_one_shiftLeft w ht]
  by_cases htk : t = k
  · rw [if_pos htk, decide_eq_true htk, Bool.or_true]
  · rw [if_neg htk, decide_eq_false htk, Bool.or_false]

/-- A manager whose heap has lost free pages. -/
theorem Valid.with_heap (h : m.Valid) {heap : KPageHeap} {F : Finset Nat}
    (hheap : HeapInvariant m.heap.heapAddress m.heap.heapSize heap F)
    (hsub : F ⊆ m.heap.freePages) :
    Valid { m with heap := heap } ∧ SameRegion m { m with heap := heap } ∧ heap.freePages = F := by
  have hfree := hheap.freePages_eq
  have hsame : SameRegion m { m with heap := heap } := ⟨hheap.heapAddress, hheap.heapSize, rfl⟩
  refine ⟨⟨?_, ?_, fun q hq => ?_⟩, hsame, hfree⟩
  · rw [hsame.heapAddress, hsame.heapSize]
    exact h.heapRegion
  · rw [hsame.heapAddress, hsame.heapSize]
    show HeapInvariant _ _ heap heap.freePages
    rw [hfree]
    exact hheap
  · have hcount : refCount { m with heap := heap } q = m.refCount q := by
      rw [refCount, refCount, hsame.firstPage]
    rw [hcount]
    exact h.unreferenced q (hsub (hfree ▸ hq))

end Impl

/-! ## Steps of the allocation -/

/-- What a round of the `while` loop of `AllocatePageGroupImpl` can do with a manager of the pool:
find no block, add the block that it takes out of the heap to the group, or put it back because there
is no block info. -/
inductive GroupStep (pool : Pool) (unoptimized : Bool) : GroupState → GroupState → Prop
  | exhausted {s : GroupState} {i : Nat} {heap : KPageHeap} : i < s.mm.numManagers →
      (s.mm.managers i).pool = pool →
      HeapInvariant (s.mm.managers i).heap.heapAddress (s.mm.managers i).heap.heapSize heap
        (s.mm.managers i).heap.freePages →
      GroupStep pool unoptimized s
        { s with mm := s.mm.setManager i { s.mm.managers i with heap := heap } }
  | added {s : GroupState} {i q n : Nat} {heap : KPageHeap} {out : KPageGroup} :
      i < s.mm.numManagers → (s.mm.managers i).pool = pool → 0 < n → n ≤ s.numPages →
      Finset.Ico q (q + n) ⊆ (s.mm.managers i).heap.freePages →
      HeapInvariant (s.mm.managers i).heap.heapAddress (s.mm.managers i).heap.heapSize heap
        ((s.mm.managers i).heap.freePages \ Finset.Ico q (q + n)) →
      s.out.addBlock (q * pageSize) n = (true, out) →
      GroupStep pool unoptimized s
        { mm := s.mm.setManager i
            (if unoptimized then
              ({ s.mm.managers i with heap := heap } : Impl).trackUnoptimizedAllocation
                (q * pageSize) n
            else { s.mm.managers i with heap := heap })
          out := out
          numPages := s.numPages - n
          failed := false }
  | rejected {s : GroupState} {i q n : Nat} {heap : KPageHeap} {out : KPageGroup} :
      i < s.mm.numManagers → (s.mm.managers i).pool = pool → 0 < n →
      Finset.Ico q (q + n) ⊆ (s.mm.managers i).heap.freePages →
      HeapInvariant (s.mm.managers i).heap.heapAddress (s.mm.managers i).heap.heapSize heap
        ((s.mm.managers i).heap.freePages \ Finset.Ico q (q + n)) →
      s.out.addBlock (q * pageSize) n = (false, out) →
      GroupStep pool unoptimized s
        { mm := s.mm.setManager i (({ s.mm.managers i with heap := heap } : Impl).free
            (q * pageSize) n)
          out := out
          numPages := s.numPages
          failed := true }

/-- The states of the allocation of a group: what was free is free or in the group. -/
structure GroupInvariant (mm₀ : KMemoryManager) (pool : Pool) (unoptimized : Bool) (total : Nat)
    (s : GroupState) : Prop where
  shape : SameShape mm₀ s.mm
  valid : Valid s.mm
  fits : Fits s.out.blocks
  disjoint : s.out.blocks.Pairwise fun b b' => Disjoint b.pages b'.pages
  source : ∀ p ∈ pages s.out.blocks, ∃ i < mm₀.numManagers, (mm₀.managers i).pool = pool ∧
    p ∈ (mm₀.managers i).heap.freePages
  freePages : ∀ i < mm₀.numManagers, (s.mm.managers i).heap.freePages =
    (mm₀.managers i).heap.freePages \ pages s.out.blocks
  counts : ∀ i, (s.mm.managers i).pageReferenceCounts = (mm₀.managers i).pageReferenceCounts
  marked : ∀ i < mm₀.numManagers, ∀ p ∈ (mm₀.managers i).region, (s.mm.managers i).marked p =
    if unoptimized = true ∧ p ∈ pages s.out.blocks then false else (mm₀.managers i).marked p
  card : s.numPages + (pages s.out.blocks).card = total

section Steps

variable {mm₀ : KMemoryManager} {pool : Pool} {unoptimized : Bool} {total : Nat}
  {s s' : GroupState}
variable {i index q n : Nat} {out : KPageGroup}

/-- A group after `AddBlock` has succeeded. -/
theorem addBlock_added {g : KPageGroup} (hfits : Fits g.blocks)
    (hdis : g.blocks.Pairwise fun b b' => Disjoint b.pages b'.pages) (hq : 0 < q)
    (hn : 0 < n) (hlt : q + n < 2 ^ 32) (hnew : Disjoint (pages g.blocks) (Finset.Ico q (q + n)))
    (hadd : g.addBlock (q * pageSize) n = (true, out)) :
    Fits out.blocks ∧ out.blocks.Pairwise (fun b b' => Disjoint b.pages b'.pages) ∧
      pages out.blocks = pages g.blocks ∪ Finset.Ico q (q + n) := by
  rcases addBlock_cases hfits hq hn hlt with
    ⟨init, last, manager, hlist, hjoin, heq⟩ | ⟨manager, heq⟩ | ⟨manager, heq⟩
  · rw [heq] at hadd
    obtain ⟨-, rfl⟩ := Prod.mk.inj hadd
    rw [hlist] at hfits hdis hnew ⊢
    have hlonger : KBlockInfo.pages ⟨last.pageIndex, last.numPages + n⟩ =
        last.pages ∪ Finset.Ico q (q + n) := by
      ext p
      simp only [KBlockInfo.pages, mem_union, mem_Ico]
      omega
    refine ⟨fun b hb => ?_, ?_, ?_⟩
    · rcases List.mem_append.1 hb with hold | hlast
      · exact hfits b (List.mem_append_left _ hold)
      · obtain rfl := List.mem_singleton.1 hlast
        have := (hfits last (List.mem_append_right _ (List.mem_singleton_self _))).1
        exact ⟨by show 0 < last.numPages + n; omega,
          by show last.pageIndex + (last.numPages + n) < 2 ^ 32; omega⟩
    · rw [List.pairwise_append] at hdis ⊢
      refine ⟨hdis.1, List.pairwise_singleton _ _, fun b hb b' hb' => ?_⟩
      obtain rfl := List.mem_singleton.1 hb'
      rw [hlonger]
      refine disjoint_union_right.2 ⟨hdis.2.2 b hb last (List.mem_singleton_self _), ?_⟩
      refine hnew.mono_left fun p hp => ?_
      exact mem_pages.2 ⟨b, List.mem_append_left _ hb, hp⟩
    · rw [pages_append, pages_append, pages_singleton, pages_singleton, hlonger, union_assoc]
  · rw [heq] at hadd
    obtain ⟨-, rfl⟩ := Prod.mk.inj hadd
    refine ⟨fun b hb => ?_, ?_, ?_⟩
    · rcases List.mem_append.1 hb with hold | hlast
      · exact hfits b hold
      · obtain rfl := List.mem_singleton.1 hlast
        exact ⟨hn, hlt⟩
    · rw [List.pairwise_append]
      refine ⟨hdis, List.pairwise_singleton _ _, fun b hb b' hb' => ?_⟩
      obtain rfl := List.mem_singleton.1 hb'
      exact hnew.mono_left fun p hp => mem_pages.2 ⟨b, hb, hp⟩
    · rw [pages_append, pages_singleton]
      rfl
  · rw [heq] at hadd
    exact absurd (congrArg Prod.fst hadd) (by simp)

theorem addBlock_rejected {g : KPageGroup} (hfits : Fits g.blocks) (hq : 0 < q)
    (hn : 0 < n) (hlt : q + n < 2 ^ 32) (hadd : g.addBlock (q * pageSize) n = (false, out)) :
    out.blocks = g.blocks := by
  rcases addBlock_cases hfits hq hn hlt with
    ⟨init, last, manager, hlist, hjoin, heq⟩ | ⟨manager, heq⟩ | ⟨manager, heq⟩
  · rw [heq] at hadd
    exact absurd (congrArg Prod.fst hadd) (by simp)
  · rw [heq] at hadd
    exact absurd (congrArg Prod.fst hadd) (by simp)
  · rw [heq] at hadd
    obtain ⟨-, rfl⟩ := Prod.mk.inj hadd
    rfl

/-- Pages of a manager have positive 32-bit numbers. -/
theorem Layout.page_bounds {mm : KMemoryManager} (hl : Layout mm)
    (hi : i < mm.numManagers) (hn : 0 < n)
    (hin : Finset.Ico q (q + n) ⊆ (mm.managers i).region) : 0 < q ∧ q + n < 2 ^ 32 := by
  have hfirst := hin (mem_Ico.2 ⟨le_refl q, by omega⟩)
  have hlast := hin (mem_Ico.2 ⟨show q ≤ q + n - 1 by omega, by omega⟩)
  have hlt := hl.pages_lt i hi _ hlast
  have hpos : 0 < (mm.managers i).firstPage := by
    have hr := hl.heapRegion i hi
    exact Nat.div_pos (le_of_dvd hr.address_pos hr.address_dvd) pageSize_pos
  have hge := (Impl.mem_region.1 hfirst).1
  omega

section

variable (hs : GroupInvariant mm₀ pool unoptimized total s)
include hs

theorem GroupInvariant.setManager_facts (hi : i < s.mm.numManagers) {T : Finset Nat} {m : Impl}
    (hT : T ⊆ (s.mm.managers i).heap.freePages)
    (hm : m.heap.freePages = (s.mm.managers i).heap.freePages \ T) :
    ∀ j < mm₀.numManagers, ((s.mm.setManager i m).managers j).heap.freePages =
      (mm₀.managers j).heap.freePages \ (pages s.out.blocks ∪ T) := by
  have hi₀ : i < mm₀.numManagers := hs.shape.numManagers ▸ hi
  intro j hj
  by_cases hji : j = i
  · subst hji
    rw [setManager_self, hm, hs.freePages j hj, sdiff_sdiff, sup_eq_union]
  · rw [setManager_of_ne s.mm m hji, hs.freePages j hj]
    -- The pages of another manager are none of these.
    ext p
    simp only [mem_sdiff, mem_union, not_or]
    refine ⟨fun hp => ⟨hp.1, hp.2, fun hpT => hji ?_⟩, fun hp => ⟨hp.1, hp.2.1⟩⟩
    have hpj : p ∈ (s.mm.managers j).region :=
      (hs.valid.managers j (hs.shape.numManagers.symm ▸ hj)).freePages_subset
        (hs.freePages j hj ▸ mem_sdiff.2 hp)
    have hpi := (hs.valid.managers i hi).freePages_subset (hT hpT)
    exact hs.valid.layout.unique (hs.shape.numManagers.symm ▸ hj) hi hpj hpi

/-- A step that replaces one manager, takes the pages `T` out of its heap and adds them to the
group. -/
theorem GroupInvariant.replace {m : Impl} {T : Finset Nat} {numPages : Nat} {failed : Bool}
    (hi : i < s.mm.numManagers) (hpool : (s.mm.managers i).pool = pool)
    (hsame : Impl.SameRegion (s.mm.managers i) m) (hm : m.Valid)
    (hcounts : m.pageReferenceCounts = (s.mm.managers i).pageReferenceCounts)
    (hT : T ⊆ (s.mm.managers i).heap.freePages)
    (hfree : m.heap.freePages = (s.mm.managers i).heap.freePages \ T)
    (hmark : ∀ p ∈ (s.mm.managers i).region, m.marked p =
      if unoptimized = true ∧ p ∈ T then false else (s.mm.managers i).marked p)
    (hfits : Fits out.blocks) (hdis : out.blocks.Pairwise fun b b' => Disjoint b.pages b'.pages)
    (hpages : pages out.blocks = pages s.out.blocks ∪ T) (hnum : numPages + T.card = s.numPages) :
    GroupInvariant mm₀ pool unoptimized total ⟨s.mm.setManager i m, out, numPages, failed⟩ := by
  have hi₀ : i < mm₀.numManagers := hs.shape.numManagers ▸ hi
  have hfresh : Disjoint (pages s.out.blocks) T := by
    refine disjoint_right.2 fun p hp hold => ?_
    have hp' := hT hp
    rw [hs.freePages i hi₀] at hp'
    exact (mem_sdiff.1 hp').2 hold
  have hsource : T ⊆ (mm₀.managers i).heap.freePages := by
    intro p hp
    have hp' := hT hp
    rw [hs.freePages i hi₀] at hp'
    exact (mem_sdiff.1 hp').1
  have hnew : ∀ {j : Nat}, j < mm₀.numManagers → j ≠ i → ∀ p ∈ (mm₀.managers j).region, p ∉ T := by
    intro j hj hji p hp hpT
    have hpj : p ∈ (s.mm.managers j).region := (hs.shape.region j).symm ▸ hp
    have hpi := (hs.valid.managers i hi).freePages_subset (hT hpT)
    exact hji (hs.valid.layout.unique (hs.shape.numManagers.symm ▸ hj) hi hpj hpi)
  refine ⟨hs.shape.trans (sameShape_setManager hsame), hs.valid.setManager hsame hm, hfits, hdis,
    fun p hp => ?_, fun j hj => ?_, fun j => ?_, fun j hj p hp => ?_, ?_⟩
  · rw [hpages] at hp
    rcases mem_union.1 hp with hold | hpT
    · exact hs.source p hold
    · exact ⟨i, hi₀, (hs.shape.managers i).pool.symm.trans hpool, hsource hpT⟩
  · rw [hpages]
    exact hs.setManager_facts hi hT hfree j hj
  · by_cases hji : j = i
    · subst hji
      rw [setManager_self, hcounts]
      exact hs.counts j
    · rw [setManager_of_ne s.mm m hji]
      exact hs.counts j
  · by_cases hji : j = i
    · subst hji
      rw [setManager_self, hmark p ((hs.shape.region j).symm ▸ hp), hs.marked j hj p hp, hpages]
      simp only [mem_union]
      by_cases hu : unoptimized = true <;> by_cases hpT : p ∈ T <;>
        by_cases hold : p ∈ pages s.out.blocks <;> simp [hu, hpT, hold]
    · rw [setManager_of_ne s.mm m hji, hs.marked j hj p hp, hpages]
      simp only [mem_union, hnew hj hji p hp, or_false]
  · show numPages + (pages out.blocks).card = total
    rw [hpages, card_union_of_disjoint hfresh, ← hs.card, ← hnum]
    omega

/-- A step keeps the invariant. -/
theorem GroupStep.invariant
    (hstep : GroupStep pool unoptimized s s') : GroupInvariant mm₀ pool unoptimized total s' := by
  cases hstep with
  | @exhausted i heap hi hpool hheap =>
    obtain ⟨hvalid, hsame, hfree⟩ := (hs.valid.managers i hi).with_heap hheap (Finset.Subset.refl _)
    refine hs.replace hi hpool hsame hvalid rfl (empty_subset _)
      (hfree.trans sdiff_empty.symm) (fun p _ => ?_) hs.fits hs.disjoint
      (union_empty _).symm (add_zero _)
    rw [if_neg (fun hcon => notMem_empty p hcon.2), Impl.marked, Impl.marked, hsame.firstPage]
  | @added i q n heap out hi hpool hn hle hsub hheap hadd =>
    have hm := hs.valid.managers i hi
    obtain ⟨hvalid, hsame, hfree⟩ := hm.with_heap hheap sdiff_subset
    obtain ⟨hq, hlt⟩ := hs.valid.layout.page_bounds hi hn (hsub.trans hm.freePages_subset)
    have hi₀ : i < mm₀.numManagers := hs.shape.numManagers ▸ hi
    have hfresh : Disjoint (pages s.out.blocks) (Finset.Ico q (q + n)) := by
      refine disjoint_right.2 fun p hp hold => ?_
      have hp' := hsub hp
      rw [hs.freePages i hi₀] at hp'
      exact (mem_sdiff.1 hp').2 hold
    obtain ⟨hfits, hdis, hpages⟩ := addBlock_added hs.fits hs.disjoint hq hn hlt hfresh hadd
    have hcard : s.numPages - n + (Finset.Ico q (q + n)).card = s.numPages := by
      rw [card_Ico]
      omega
    have hmark₀ : ∀ p, ({ s.mm.managers i with heap := heap } : Impl).marked p =
        (s.mm.managers i).marked p := by
      intro p
      rw [Impl.marked, Impl.marked, hsame.firstPage]
    cases unoptimized with
    | false =>
      simp only [Bool.false_eq_true, if_false]
      refine hs.replace hi hpool hsame hvalid rfl hsub hfree (fun p _ => ?_) hfits hdis hpages hcard
      rw [if_neg (fun hcon => absurd hcon.1 (by decide))]
      exact hmark₀ p
    | true =>
      simp only [if_true]
      have htrack : Impl.SameRegion (s.mm.managers i)
          (({ s.mm.managers i with heap := heap } : Impl).trackUnoptimizedAllocation
            (q * pageSize) n) := ⟨hsame.1, hsame.2, hsame.3⟩
      refine hs.replace hi hpool htrack ⟨hvalid.1, hvalid.2, hvalid.3⟩ rfl hsub hfree
        (fun p hp => ?_) hfits hdis hpages hcard
      have hregion := hsame.region
      refine (Impl.marked_trackUnoptimizedAllocation hvalid.heapRegion.address_dvd
        (hregion.symm ▸ hsub.trans hm.freePages_subset) (hregion.symm ▸ hp)).trans ?_
      rw [hmark₀ p]
      simp only [true_and]
  | @rejected i q n heap out hi hpool hn hsub hheap hadd =>
    have hm := hs.valid.managers i hi
    obtain ⟨hvalid, hsame, hfree⟩ := hm.with_heap hheap sdiff_subset
    have hin := hsub.trans hm.freePages_subset
    obtain ⟨hq, hlt⟩ := hs.valid.layout.page_bounds hi hn hin
    have hblocks := addBlock_rejected hs.fits hq hn hlt hadd
    have hcount : ∀ p, ({ s.mm.managers i with heap := heap } : Impl).refCount p =
        (s.mm.managers i).refCount p := by
      intro p
      rw [Impl.refCount, Impl.refCount, hsame.firstPage]
    obtain ⟨hvalid', hsame', hfree', -⟩ := Impl.free_spec hvalid (hsame.region.symm ▸ hin)
      (hfree.symm ▸ disjoint_sdiff)
      (fun p hp => (hcount p).trans (hm.unreferenced p (hsub hp)))
    refine hs.replace hi hpool (hsame.trans hsame') hvalid' rfl (empty_subset _) ?_
      (fun p _ => ?_) (hblocks.symm ▸ hs.fits) (hblocks.symm ▸ hs.disjoint) ?_ (add_zero _)
    · rw [hfree', hfree, sdiff_empty, sdiff_union_of_subset hsub]
    · rw [if_neg (fun hcon => notMem_empty p hcon.2), Impl.marked, Impl.marked,
        (hsame.trans hsame').firstPage]
      rfl
    · rw [hblocks, union_empty]

end

theorem getBlockNumPages_pos (hindex : index < 7) : 0 < getBlockNumPages index :=
  (le_getBlockNumPages_iff hindex).2 (by
    rw [Nat.one_mul]
    exact le_of_dvd (Nat.two_pow_pos _) (pageSize_dvd_two_pow index))

/-- One round of the `while` loop: it ends, or it is a step. -/
theorem allocateWhile_cases (hs : GroupInvariant mm₀ pool unoptimized total s)
    (hi : i < s.mm.numManagers) (hindex : index < 7) (random : Bool) (fuel : Nat) :
    (s.numPages < getBlockNumPages index ∧
        allocateWhile index unoptimized random i (fuel + 1) s = s) ∨
      (getBlockNumPages index ≤ s.numPages ∧
        (∀ j, index ≤ j → j < 7 → (s.mm.managers i).heap.blockNumbers j = ∅) ∧
        ∃ heap, HeapInvariant (s.mm.managers i).heap.heapAddress (s.mm.managers i).heap.heapSize
            heap (s.mm.managers i).heap.freePages ∧
          allocateWhile index unoptimized random i (fuel + 1) s =
            { s with mm := s.mm.setManager i { s.mm.managers i with heap := heap } }) ∨
      ∃ q heap out added, getBlockNumPages index ≤ s.numPages ∧
        Finset.Ico q (q + getBlockNumPages index) ⊆ (s.mm.managers i).heap.freePages ∧
        HeapInvariant (s.mm.managers i).heap.heapAddress (s.mm.managers i).heap.heapSize heap
          ((s.mm.managers i).heap.freePages \ Finset.Ico q (q + getBlockNumPages index)) ∧
        s.out.addBlock (q * pageSize) (getBlockNumPages index) = (added, out) ∧
        allocateWhile index unoptimized random i (fuel + 1) s =
          if added then
            allocateWhile index unoptimized random i fuel
              { mm := s.mm.setManager i
                  (if unoptimized then
                    ({ s.mm.managers i with heap := heap } : Impl).trackUnoptimizedAllocation
                      (q * pageSize) (getBlockNumPages index)
                  else { s.mm.managers i with heap := heap })
                out := out
                numPages := s.numPages - getBlockNumPages index
                failed := false }
          else
            { mm := s.mm.setManager i (({ s.mm.managers i with heap := heap } : Impl).free
                (q * pageSize) (getBlockNumPages index))
              out := out
              numPages := s.numPages
              failed := true } := by
  have hm := hs.valid.managers i hi
  by_cases henough : s.numPages ≥ getBlockNumPages index
  swap
  · refine inl ⟨by omega, ?_⟩
    rw [allocateWhile, if_neg henough]
  refine inr ?_
  obtain ⟨addr, heap, halloc⟩ : ∃ addr heap,
      (s.mm.managers i).heap.allocateBlock index random = (addr, heap) := ⟨_, _, rfl⟩
  have hspec := hm.heap.allocateBlock hm.heapRegion hindex random
  rw [halloc] at hspec
  rcases hspec with hfails | htakes
  · obtain rfl : addr = 0 := hfails.eq_zero
    refine inl ⟨henough, hfails.exhausted, heap, hfails.rest, ?_⟩
    simp only [allocateWhile, if_pos henough, halloc, if_true]
  · obtain ⟨q, hq⟩ := htakes.page_dvd
    have haddr : addr = q * pageSize := hq.trans (mul_comm ..)
    have hne : q * pageSize ≠ 0 := haddr ▸ htakes.ne_zero
    have hfree := htakes.free
    have hrest := htakes.rest
    simp only [haddr, Impl.rangePages_page] at hfree hrest
    obtain ⟨added, out, hadd⟩ : ∃ added out,
        s.out.addBlock (q * pageSize) (getBlockNumPages index) = (added, out) := ⟨_, _, rfl⟩
    refine inr ⟨q, heap, out, added, henough, hfree, hrest, hadd, ?_⟩
    rw [haddr] at halloc
    simp only [allocateWhile, if_pos henough, halloc, if_neg hne, hadd]

/-- The `while` loop is a run of steps. -/
theorem allocateWhile_steps (hindex : index < 7) (random : Bool) (fuel : Nat) :
    ∀ {s : GroupState}, GroupInvariant mm₀ pool unoptimized total s → i < s.mm.numManagers →
      (s.mm.managers i).pool = pool → Relation.ReflTransGen (GroupStep pool unoptimized) s
          (allocateWhile index unoptimized random i fuel s) := by
  induction fuel with
  | zero => intro s _ _ _; exact .refl
  | succ fuel ih =>
    intro s hs hi hpool
    rcases allocateWhile_cases hs hi hindex random fuel with
      ⟨-, heq⟩ | ⟨-, -, heap, hheap, heq⟩ | ⟨q, heap, out, added, hle, hsub, hheap, hadd, heq⟩
    · rw [heq]
    · rw [heq]
      exact .single (.exhausted hi hpool hheap)
    · have hn := getBlockNumPages_pos hindex
      cases added with
      | false =>
        rw [heq]
        exact .single (.rejected hi hpool hn hsub hheap hadd)
      | true =>
        have hstep := @GroupStep.added pool unoptimized s i q _ heap out hi hpool hn hle hsub hheap
          hadd
        rw [heq, if_pos rfl]
        refine .head hstep (ih (hstep.invariant hs) hi ?_)
        have hshape := (hstep.invariant hs).shape.managers i
        exact hshape.pool.trans ((hs.shape.managers i).pool.symm.trans hpool)

theorem steps_invariant (hs : GroupInvariant mm₀ pool unoptimized total s)
    (hsteps : Relation.ReflTransGen (GroupStep pool unoptimized) s s') :
    GroupInvariant mm₀ pool unoptimized total s' := by
  induction hsteps with
  | refl => exact hs
  | tail _ hstep ih => exact hstep.invariant ih

theorem allocateManagers_steps (hindex : index < 7) (random : Bool)
    (managers : List Nat) : ∀ {s : GroupState}, GroupInvariant mm₀ pool unoptimized total s →
      (∀ i ∈ managers, i < mm₀.numManagers ∧ (mm₀.managers i).pool = pool) →
        Relation.ReflTransGen (GroupStep pool unoptimized) s
          (allocateManagers index unoptimized random managers s) := by
  induction managers with
  | nil => intro s _ _; exact .refl
  | cons i rest ih =>
    intro s hs hmem
    obtain ⟨hi, hpool⟩ := hmem i List.mem_cons_self
    have hwhile := @allocateWhile_steps mm₀ pool unoptimized total i index hindex random s.numPages s
      hs (hs.shape.numManagers.symm ▸ hi) ((hs.shape.managers i).pool.trans hpool)
    simp only [allocateManagers]
    split_ifs
    · exact hwhile
    · exact hwhile.trans (ih (steps_invariant hs hwhile)
        fun j hj => hmem j (List.mem_cons_of_mem i hj))

theorem allocateIndices_steps (random : Bool) {managers : List Nat}
    (hmem : ∀ i ∈ managers, i < mm₀.numManagers ∧ (mm₀.managers i).pool = pool) (index : Nat) :
    ∀ {s : GroupState}, index ≤ 7 → GroupInvariant mm₀ pool unoptimized total s →
      Relation.ReflTransGen (GroupStep pool unoptimized) s
        (allocateIndices managers unoptimized random index s) := by
  induction index with
  | zero => intro s _ _; exact .refl
  | succ index ih =>
    intro s hindex hs
    have hround := @allocateManagers_steps mm₀ pool unoptimized total index (by omega) random
      managers s hs hmem
    simp only [allocateIndices]
    split_ifs
    · exact hround
    · exact hround.trans (ih (by omega) (steps_invariant hs hround))
    · exact .refl

end Steps

theorem mem_poolManagers {mm : KMemoryManager} {pool : Pool} {dir : Direction} {i : Nat} :
    i ∈ mm.poolManagers pool dir ↔ i < mm.numManagers ∧ (mm.managers i).pool = pool := by
  cases dir with
  | fromFront => simp [poolManagers]
  | fromBack => simp [poolManagers]

theorem getBlockIndex_lt {numPages heapIndex : Nat} (h : getBlockIndex numPages = some heapIndex) :
    heapIndex < 7 := by
  have hmem := List.mem_of_find?_eq_some h
  rw [List.mem_reverse, List.mem_range] at hmem
  exact hmem

section Group

variable {mm : KMemoryManager} {out : KPageGroup} {pool : Pool} {dir : Direction}
  {unoptimized random : Bool} {numPages heapIndex : Nat}

theorem groupInvariant_start (hv : Valid mm) (hout : out.blocks = []) (pool : Pool)
    (unoptimized : Bool) (numPages : Nat) :
    GroupInvariant mm pool unoptimized numPages ⟨mm, out, numPages, false⟩ := by
  have hnone : pages out.blocks = ∅ := by
    rw [hout]
    rfl
  refine ⟨SameShape.refl mm, hv, ?_, ?_, fun p hp => ?_, fun i _ => ?_, fun i => rfl,
    fun i _ p _ => ?_, ?_⟩
  · show Fits out.blocks
    rw [hout]
    exact fun b hb => absurd hb List.not_mem_nil
  · show out.blocks.Pairwise _
    rw [hout]
    exact List.Pairwise.nil
  · exact absurd (hnone ▸ hp) (notMem_empty p)
  · rw [hnone, sdiff_empty]
  · rw [if_neg]
    rintro ⟨-, hp⟩
    exact absurd (hnone ▸ hp) (notMem_empty p)
  · show numPages + (pages out.blocks).card = numPages
    rw [hnone, card_empty, add_zero]

/-- The loops of `AllocatePageGroupImpl` are a run of steps. -/
theorem allocateGroup_steps (hv : Valid mm) (hout : out.blocks = [])
    (hindex : getBlockIndex numPages = some heapIndex) :
    Relation.ReflTransGen (GroupStep pool unoptimized) ⟨mm, out, numPages, false⟩
      (mm.allocateGroup out numPages heapIndex pool dir unoptimized random) :=
  allocateIndices_steps random (fun _ hi => mem_poolManagers.1 hi) (heapIndex + 1)
    (getBlockIndex_lt hindex) (groupInvariant_start hv hout pool unoptimized numPages)

theorem allocateGroup_invariant (hv : Valid mm) (hout : out.blocks = [])
    (hindex : getBlockIndex numPages = some heapIndex) : GroupInvariant mm pool unoptimized numPages
      (mm.allocateGroup out numPages heapIndex pool dir unoptimized random) :=
  steps_invariant (groupInvariant_start hv hout pool unoptimized numPages)
    (allocateGroup_steps hv hout hindex)

end Group

/-! ## Rollback -/

section Rollback

variable {mm : KMemoryManager} {i : Nat}

/-- The pages of a block that its first page's manager manages. -/
theorem freeNode_pages {m : Impl} (h : HeapRegion m.heap.heapAddress m.heap.heapSize)
    {b : KBlockInfo} (hfirst : b.pageIndex ∈ m.region) : Finset.Ico b.pageIndex (b.pageIndex +
        min b.getNumPages ((m.getEndAddress - b.getAddress) / pageSize)) =
      b.pages.filter (· ∈ m.region) := by
  have hend := Impl.getPageOffsetToEnd_page h b.pageIndex
  rw [Impl.getPageOffsetToEnd] at hend
  obtain ⟨hlo, hhi⟩ := Impl.mem_region.1 hfirst
  rw [KBlockInfo.getAddress, hend, KBlockInfo.getNumPages]
  ext p
  rw [mem_filter, KBlockInfo.pages, mem_Ico, mem_Ico, Impl.mem_region]
  omega

/-- Freeing a block whose pages were free before: the ones in the manager of its first page become
free. -/
theorem freeNode_spec (hv : Valid mm) {b : KBlockInfo} (hi : i < mm.numManagers)
    (hfirst : b.pageIndex ∈ (mm.managers i).region)
    (hused : ∀ p ∈ b.pages, p ∈ (mm.managers i).region →
      p ∉ (mm.managers i).heap.freePages ∧ (mm.managers i).refCount p = 0) :
    Valid (mm.freeNode b) ∧ SameShape mm (mm.freeNode b) ∧
      ((mm.freeNode b).managers i).heap.freePages =
        (mm.managers i).heap.freePages ∪ b.pages.filter (· ∈ (mm.managers i).region) ∧
      (∀ j, j ≠ i → (mm.freeNode b).managers j = mm.managers j) ∧
      ∀ j, ((mm.freeNode b).managers j).pageReferenceCounts =
        (mm.managers j).pageReferenceCounts := by
  have hm := hv.managers i hi
  have hlookup : mm.layout b.getAddress = i := hv.layout.lookup i hi _ hfirst
  have hpages := freeNode_pages hm.heapRegion hfirst
  have hsub : b.pages.filter (· ∈ (mm.managers i).region) ⊆ (mm.managers i).region :=
    fun p hp => (mem_filter.1 hp).2
  obtain ⟨hvalid, hsame, hfree, hcounts⟩ := @Impl.free_spec (mm.managers i) b.pageIndex
    (min b.getNumPages (((mm.managers i).getEndAddress - b.getAddress) / pageSize)) hm
    (hpages ▸ hsub)
    (by
      rw [hpages]
      refine disjoint_left.2 fun p hp => ?_
      obtain ⟨h1, h2⟩ := mem_filter.1 hp
      exact (hused p h1 h2).1)
    (by
      rw [hpages]
      intro p hp
      obtain ⟨h1, h2⟩ := mem_filter.1 hp
      exact (hused p h1 h2).2)
  rw [hpages] at hfree
  have hnode : mm.freeNode b = mm.setManager i ((mm.managers i).free (b.pageIndex * pageSize)
      (min b.getNumPages (((mm.managers i).getEndAddress - b.getAddress) / pageSize))) := by
    simp only [freeNode, getManager, hlookup]
    rfl
  rw [hnode]
  refine ⟨hv.setManager hsame hvalid, sameShape_setManager hsame, ?_,
    fun j hj => setManager_of_ne _ _ hj, fun j => ?_⟩
  · rw [setManager_self]
    exact hfree
  · by_cases hji : j = i
    · subst hji
      rw [setManager_self]
      exact hcounts
    · rw [setManager_of_ne _ _ hji]

/-- Rolling back a group of blocks whose pages were free before. A page becomes free again exactly
if the first page of its block has the same manager. -/
theorem rollback_spec (blocks : List KBlockInfo) : ∀ {mm : KMemoryManager}, Valid mm →
    Fits blocks → blocks.Pairwise (fun b b' => Disjoint b.pages b'.pages) →
    (∀ b ∈ blocks, ∀ p ∈ b.pages, Managed mm p) →
    (∀ i < mm.numManagers, ∀ b ∈ blocks, ∀ p ∈ b.pages, p ∈ (mm.managers i).region →
      p ∉ (mm.managers i).heap.freePages ∧ (mm.managers i).refCount p = 0) →
      Valid (mm.rollback blocks) ∧ SameShape mm (mm.rollback blocks) ∧
        (∀ i < mm.numManagers, ∀ p, p ∈ ((mm.rollback blocks).managers i).heap.freePages ↔
          p ∈ (mm.managers i).heap.freePages ∨ (p ∈ (mm.managers i).region ∧
            ∃ b ∈ blocks, p ∈ b.pages ∧ b.pageIndex ∈ (mm.managers i).region)) ∧
        ∀ i, ((mm.rollback blocks).managers i).pageReferenceCounts =
          (mm.managers i).pageReferenceCounts := by
  induction blocks with
  | nil =>
    intro mm hv _ _ _ _
    refine ⟨hv, SameShape.refl mm, fun i _ p => ?_, fun i => rfl⟩
    simp [rollback]
  | cons b rest ih =>
    intro mm hv hfits hdis hmanaged hused
    obtain ⟨hdisHead, hdisRest⟩ := List.pairwise_cons.1 hdis
    obtain ⟨hpos, hlt⟩ := hfits b List.mem_cons_self
    obtain ⟨i, hi, hfirst⟩ := hmanaged b List.mem_cons_self b.pageIndex
      (mem_Ico.2 ⟨le_refl _, by omega⟩)
    obtain ⟨hvalid, hshape, hfree, hother, hcounts⟩ := freeNode_spec hv hi hfirst
      fun p hp hreg => hused i hi b List.mem_cons_self p hp hreg
    have hregion : ∀ j, ((mm.freeNode b).managers j).region = (mm.managers j).region :=
      fun j => hshape.region j
    -- The block just freed has none of the pages of the other blocks.
    have hused' : ∀ j < (mm.freeNode b).numManagers, ∀ b' ∈ rest, ∀ p ∈ b'.pages,
        p ∈ ((mm.freeNode b).managers j).region → p ∉ ((mm.freeNode b).managers j).heap.freePages ∧
            ((mm.freeNode b).managers j).refCount p = 0 := by
      intro j hj b' hb' p hp hreg
      rw [hregion] at hreg
      obtain ⟨hnot, hzero⟩ :=
        hused j (hshape.numManagers ▸ hj) b' (List.mem_cons_of_mem _ hb') p hp hreg
      refine ⟨fun hin => ?_, ?_⟩
      · by_cases hji : j = i
        · subst hji
          rw [hfree] at hin
          rcases mem_union.1 hin with hold | hnew
          · exact hnot hold
          · exact disjoint_left.1 (hdisHead b' hb') (mem_filter.1 hnew).1 hp
        · rw [hother j hji] at hin
          exact hnot hin
      · rw [Impl.refCount, hcounts, (hshape.managers j).firstPage]
        exact hzero
    obtain ⟨hvalid', hshape', hfree', hcounts'⟩ := ih hvalid
      (fun b' hb' => hfits b' (List.mem_cons_of_mem _ hb')) hdisRest
      (fun b' hb' p hp => by
        obtain ⟨j, hj, hreg⟩ := hmanaged b' (List.mem_cons_of_mem _ hb') p hp
        exact ⟨j, hshape.numManagers.symm ▸ hj, (hregion j).symm ▸ hreg⟩) hused'
    have hroll : mm.rollback (b :: rest) = (mm.freeNode b).rollback rest := rfl
    rw [hroll]
    refine ⟨hvalid', hshape.trans hshape', fun j hj p => ?_, fun j =>
      (hcounts' j).trans (hcounts j)⟩
    rw [hfree' j (hshape.numManagers.symm ▸ hj) p, hregion]
    by_cases hji : j = i
    · subst hji
      rw [hfree, mem_union, mem_filter]
      constructor
      · rintro ((hold | ⟨hp, hreg⟩) | ⟨hreg, b', hb', hp, hf⟩)
        · exact inl hold
        · exact inr ⟨hreg, b, List.mem_cons_self, hp, hfirst⟩
        · exact inr ⟨hreg, b', List.mem_cons_of_mem _ hb', hp, hf⟩
      · rintro (hold | ⟨hreg, b', hb', hp, hf⟩)
        · exact inl (inl hold)
        · rcases List.mem_cons.1 hb' with rfl | hb'
          · exact inl (inr ⟨hp, hreg⟩)
          · exact inr ⟨hreg, b', hb', hp, hf⟩
    · rw [hother j hji]
      constructor
      · rintro (hold | ⟨hreg, b', hb', hp, hf⟩)
        · exact inl hold
        · exact inr ⟨hreg, b', List.mem_cons_of_mem _ hb', hp, hf⟩
      · rintro (hold | ⟨hreg, b', hb', hp, hf⟩)
        · exact inl hold
        · rcases List.mem_cons.1 hb' with rfl | hb'
          · exact absurd (hv.layout.unique hj hi hf hfirst) hji
          · exact inr ⟨hreg, b', hb', hp, hf⟩

end Rollback

/-! ## Failure -/

/-- The pages of the block have one manager. -/
def InOneManager (mm : KMemoryManager) (b : KBlockInfo) : Prop :=
  ∃ i < mm.numManagers, b.pages ⊆ (mm.managers i).region

/-- Two managers of the pool follow each other in physical memory. -/
structure Seam (mm : KMemoryManager) (pool : Pool) (a b : Nat) : Prop where
  left_lt : a < mm.numManagers
  right_lt : b < mm.numManagers
  left_pool : (mm.managers a).pool = pool
  right_pool : (mm.managers b).pool = pool
  touch : (mm.managers a).getEndAddress = (mm.managers b).heap.heapAddress

/-- A seam with a free page on both sides. -/
structure FreeSeam (mm : KMemoryManager) (pool : Pool) (a b : Nat) : Prop
    extends Seam mm pool a b where
  left_free : (mm.managers b).firstPage - 1 ∈ (mm.managers a).heap.freePages
  right_free : (mm.managers b).firstPage ∈ (mm.managers b).heap.freePages

section Failure

variable {mm : KMemoryManager} {out : KPageGroup} {pool : Pool} {dir : Direction}
  {unoptimized random : Bool} {numPages heapIndex total : Nat} {s s' : GroupState}

/-- Neighbouring pages of two managers are a seam. -/
theorem Layout.touch_of_neighbours (hl : Layout mm) {a b q : Nat} (ha : a < mm.numManagers)
    (hb : b < mm.numManagers) (hne : a ≠ b) (hq : 0 < q)
    (hleft : q - 1 ∈ (mm.managers a).region) (hright : q ∈ (mm.managers b).region) :
    (mm.managers a).getEndAddress = (mm.managers b).heap.heapAddress ∧
      (mm.managers b).firstPage = q := by
  obtain ⟨hla, hra⟩ := Impl.mem_region.1 hleft
  obtain ⟨hlb, hrb⟩ := Impl.mem_region.1 hright
  have hnotLeft : q ∉ (mm.managers a).region := fun hin => hne (hl.unique ha hb hin hright)
  have hnotRight : q - 1 ∉ (mm.managers b).region := fun hin => hne (hl.unique ha hb hleft hin)
  rw [Impl.mem_region] at hnotLeft hnotRight
  have hfirst : (mm.managers b).firstPage = q := by omega
  have hregionA := hl.heapRegion a ha
  have hregionB := hl.heapRegion b hb
  refine ⟨?_, hfirst⟩
  have hend : (mm.managers a).getEndAddress =
      ((mm.managers a).firstPage + (mm.managers a).heap.heapSize / pageSize) * pageSize := by
    rw [Impl.getEndAddress, Impl.firstPage, add_mul, Nat.div_mul_cancel hregionA.address_dvd,
      Nat.div_mul_cancel hregionA.size_dvd]
  have hstart : (mm.managers b).heap.heapAddress = (mm.managers b).firstPage * pageSize := by
    rw [Impl.firstPage, Nat.div_mul_cancel hregionB.address_dvd]
  rw [hend, hstart, hfirst]
  congr 1
  omega

section

variable (hv : Valid mm) (hseam : ∀ a b, ¬FreeSeam mm pool a b)
  (hs : GroupInvariant mm pool unoptimized total s)
include hv hseam hs

/-- Without a free seam a step keeps every block in one manager. -/
theorem GroupStep.inOneManager (hstep : GroupStep pool unoptimized s s')
    (hone : ∀ b ∈ s.out.blocks, InOneManager mm b) : ∀ b ∈ s'.out.blocks, InOneManager mm b := by
  cases hstep with
  | exhausted _ _ _ => exact hone
  | @rejected i q n heap out hi hpool hn hsub hheap hadd =>
    have hin := hsub.trans (hs.valid.managers i hi).freePages_subset
    obtain ⟨hq, hlt⟩ := hs.valid.layout.page_bounds hi hn hin
    show ∀ b ∈ out.blocks, InOneManager mm b
    rw [addBlock_rejected hs.fits hq hn hlt hadd]
    exact hone
  | @added i q n heap out hi hpool hn hle hsub hheap hadd =>
    have hi₀ : i < mm.numManagers := hs.shape.numManagers ▸ hi
    have hin : Finset.Ico q (q + n) ⊆ (mm.managers i).region :=
      hs.shape.region i ▸ hsub.trans (hs.valid.managers i hi).freePages_subset
    obtain ⟨hq, hlt⟩ := hs.valid.layout.page_bounds hi hn ((hs.shape.region i).symm ▸ hin)
    show ∀ b ∈ out.blocks, InOneManager mm b
    rcases addBlock_cases hs.fits hq hn hlt with
      ⟨init, last, manager, hlist, hjoin, heq⟩ | ⟨manager, heq⟩ | ⟨manager, heq⟩
    · rw [heq] at hadd
      obtain ⟨-, rfl⟩ := Prod.mk.inj hadd
      rw [hlist] at hone
      have hlast := List.mem_append_right init (List.mem_singleton_self last)
      intro b hb
      rcases List.mem_append.1 hb with hold | hb
      · exact hone b (List.mem_append_left _ hold)
      obtain rfl := List.mem_singleton.1 hb
      obtain ⟨a, ha, hsubLast⟩ := hone last hlast
      have hfits := hs.fits last (hlist ▸ hlast)
      have hleftPage : q - 1 ∈ last.pages := mem_Ico.2 ⟨by omega, by omega⟩
      have hrightPage : q ∈ Finset.Ico q (q + n) := mem_Ico.2 ⟨le_refl q, by omega⟩
      by_cases hai : a = i
      · subst hai
        refine ⟨a, ha, fun p hp => ?_⟩
        simp only [KBlockInfo.pages, mem_Ico] at hp
        by_cases hpq : p < q
        · exact hsubLast (mem_Ico.2 ⟨hp.1, by omega⟩)
        · exact hin (mem_Ico.2 ⟨by omega, by omega⟩)
      · -- The block would join two managers at a seam that is free on both sides.
        have hleft := hsubLast hleftPage
        obtain ⟨htouch, hfirst⟩ :=
          hv.layout.touch_of_neighbours ha hi₀ hai hq hleft (hin hrightPage)
        obtain ⟨j, hj, hpoolLeft, hfreeLeft⟩ := hs.source (q - 1)
          (mem_pages.2 ⟨last, hlist ▸ hlast, hleftPage⟩)
        obtain rfl : j = a :=
          hv.layout.unique hj ha ((hv.managers j hj).freePages_subset hfreeLeft) hleft
        have hfreeRight : q ∈ (mm.managers i).heap.freePages := by
          have := hsub hrightPage
          rw [hs.freePages i hi₀] at this
          exact (mem_sdiff.1 this).1
        exact absurd ⟨⟨hj, hi₀, hpoolLeft, (hs.shape.managers i).pool.symm.trans hpool, htouch⟩,
          hfirst.symm ▸ hfreeLeft, hfirst.symm ▸ hfreeRight⟩ (hseam j i)
    · rw [heq] at hadd
      obtain ⟨-, rfl⟩ := Prod.mk.inj hadd
      intro b hb
      rcases List.mem_append.1 hb with hold | hb
      · exact hone b hold
      · obtain rfl := List.mem_singleton.1 hb
        exact ⟨i, hi₀, hin⟩
    · rw [heq] at hadd
      exact absurd (congrArg Prod.fst hadd) (by simp)

theorem steps_inOneManager (hsteps : Relation.ReflTransGen (GroupStep pool unoptimized) s s')
    (hone : ∀ b ∈ s.out.blocks, InOneManager mm b) : ∀ b ∈ s'.out.blocks, InOneManager mm b := by
  induction hsteps with
  | refl => exact hone
  | tail hsteps hstep ih => exact hstep.inOneManager hv hseam (steps_invariant hs hsteps) ih

end

theorem eq_of_mem_pages {blocks : List KBlockInfo}
    (hdis : blocks.Pairwise fun b b' => Disjoint b.pages b'.pages) {b b' : KBlockInfo} {p : Nat}
    (hb : b ∈ blocks) (hb' : b' ∈ blocks) (hp : p ∈ b.pages) (hp' : p ∈ b'.pages) : b = b' := by
  by_contra hne
  have hsymm : Std.Symm fun b b' : KBlockInfo => Disjoint b.pages b'.pages := ⟨fun _ _ h => h.symm⟩
  exact disjoint_left.1 (hdis.forall hb hb' hne) hp hp'

/-- What rolling back the group leaves. -/
theorem GroupInvariant.rollback (hv : Valid mm) (hs : GroupInvariant mm pool unoptimized total s) :
    Valid (s.mm.rollback s.out.blocks) ∧ SameShape mm (s.mm.rollback s.out.blocks) ∧
      (∀ i < mm.numManagers, ∀ p, p ∈ ((s.mm.rollback s.out.blocks).managers i).heap.freePages ↔
          p ∈ (mm.managers i).heap.freePages ∧ (p ∈ pages s.out.blocks →
            ∃ b ∈ s.out.blocks, p ∈ b.pages ∧ b.pageIndex ∈ (mm.managers i).region)) ∧
      ∀ i, ((s.mm.rollback s.out.blocks).managers i).pageReferenceCounts =
        (mm.managers i).pageReferenceCounts := by
  have hown : ∀ i < mm.numManagers, ∀ p ∈ pages s.out.blocks, p ∈ (mm.managers i).region →
      p ∈ (mm.managers i).heap.freePages := by
    intro i hi p hp hreg
    obtain ⟨j, hj, -, hfree⟩ := hs.source p hp
    obtain rfl := hv.layout.unique hj hi ((hv.managers j hj).freePages_subset hfree) hreg
    exact hfree
  obtain ⟨hvalid, hshape, hfree, hcounts⟩ := rollback_spec s.out.blocks hs.valid hs.fits hs.disjoint
    (fun b hb p hp => by
      obtain ⟨j, hj, -, hsource⟩ := hs.source p (mem_pages.2 ⟨b, hb, hp⟩)
      exact ⟨j, hs.shape.numManagers.symm ▸ hj,
        (hs.shape.region j).symm ▸ (hv.managers j hj).freePages_subset hsource⟩)
    (fun i hi b hb p hp hreg => by
      have hi₀ : i < mm.numManagers := hs.shape.numManagers ▸ hi
      have hgroup := mem_pages.2 ⟨b, hb, hp⟩
      refine ⟨fun hin => ?_, ?_⟩
      · rw [hs.freePages i hi₀] at hin
        exact (mem_sdiff.1 hin).2 hgroup
      · rw [Impl.refCount, hs.counts, (hs.shape.managers i).firstPage]
        exact (hv.managers i hi₀).unreferenced p (hown i hi₀ p hgroup (hs.shape.region i ▸ hreg)))
  refine ⟨hvalid, hs.shape.trans hshape, fun i hi p => ?_, fun i => (hcounts i).trans (hs.counts i)⟩
  rw [hfree i (hs.shape.numManagers.symm ▸ hi) p, hs.freePages i hi, mem_sdiff, hs.shape.region]
  constructor
  · rintro (⟨hold, hnot⟩ | ⟨hreg, b, hb, hp, hf⟩)
    · exact ⟨hold, fun hin => absurd hin hnot⟩
    · exact ⟨hown i hi p (mem_pages.2 ⟨b, hb, hp⟩) hreg, fun _ => ⟨b, hb, hp, hf⟩⟩
  · rintro ⟨hold, himp⟩
    by_cases hgroup : p ∈ pages s.out.blocks
    · obtain ⟨b, hb, hp, hf⟩ := himp hgroup
      exact inr ⟨(hv.managers i hi).freePages_subset hold, b, hb, hp, hf⟩
    · exact inl ⟨hold, hgroup⟩

/-- Rolling back restores the free pages exactly when every block has one manager. -/
theorem GroupInvariant.rollback_restores_iff (hv : Valid mm)
    (hs : GroupInvariant mm pool unoptimized total s) :
    (∀ i < mm.numManagers, ((s.mm.rollback s.out.blocks).managers i).heap.freePages =
        (mm.managers i).heap.freePages) ↔ ∀ b ∈ s.out.blocks, InOneManager mm b := by
  obtain ⟨-, -, hfree, -⟩ := hs.rollback hv
  constructor
  · intro hrestored b hb
    obtain ⟨hpos, -⟩ := hs.fits b hb
    have hfirst : b.pageIndex ∈ b.pages := mem_Ico.2 ⟨le_refl _, by omega⟩
    obtain ⟨i, hi, -, hsource⟩ := hs.source _ (mem_pages.2 ⟨b, hb, hfirst⟩)
    have hregion := (hv.managers i hi).freePages_subset hsource
    refine ⟨i, hi, fun p hp => ?_⟩
    have hgroup := mem_pages.2 ⟨b, hb, hp⟩
    obtain ⟨j, hj, -, hsource'⟩ := hs.source p hgroup
    -- The page is free again, so its block starts in its manager.
    rw [← hrestored j hj] at hsource'
    obtain ⟨hold, himp⟩ := (hfree j hj p).1 hsource'
    obtain ⟨b', hb', hp', hf⟩ := himp hgroup
    obtain rfl := eq_of_mem_pages hs.disjoint hb hb' hp hp'
    obtain rfl := hv.layout.unique hj hi hf hregion
    exact (hv.managers j hj).freePages_subset hold
  · intro hone i hi
    ext p
    rw [hfree i hi p]
    refine ⟨fun h => h.1, fun hold => ⟨hold, fun hgroup => ?_⟩⟩
    obtain ⟨b, hb, hp⟩ := mem_pages.1 hgroup
    obtain ⟨j, hj, hsub⟩ := hone b hb
    obtain rfl := hv.layout.unique hj hi (hsub hp) ((hv.managers i hi).freePages_subset hold)
    obtain ⟨hpos, -⟩ := hs.fits b hb
    exact ⟨b, hb, hp, hsub (mem_Ico.2 ⟨le_refl _, by omega⟩)⟩

/-- What an error of `AllocatePageGroupImpl` means: nothing was tried, or the group was rolled back. -/
theorem allocatePageGroupImpl_error_cases {e : AllocateError} {mm' : KMemoryManager}
    (herr : mm.allocatePageGroupImpl out numPages pool dir unoptimized random = (.error e, mm')) :
    (getBlockIndex numPages = none ∧ mm' = mm) ∨
      ∃ heapIndex, getBlockIndex numPages = some heapIndex ∧
        mm' = (mm.allocateGroup out numPages heapIndex pool dir unoptimized random).mm.rollback
          (mm.allocateGroup out numPages heapIndex pool dir unoptimized random).out.blocks := by
  rw [allocatePageGroupImpl] at herr
  cases hindex : getBlockIndex numPages with
  | none =>
    rw [hindex] at herr
    exact inl ⟨rfl, (Prod.mk.inj herr).2.symm⟩
  | some heapIndex =>
    simp only [hindex] at herr
    refine inr ⟨heapIndex, rfl, ?_⟩
    split_ifs at herr
    · exact (Prod.mk.inj herr).2.symm
    · exact absurd (Prod.mk.inj herr).1 (by simp)
    · exact (Prod.mk.inj herr).2.symm

/-- A failed allocation of a page group leaves the free pages of all managers as they were, exactly
when every block of the group that it had built has one manager; and this is the case if no seam
between two managers of the pool was free on both sides. -/
theorem allocatePageGroupImpl_error (hv : Valid mm) (hout : out.blocks = []) {e : AllocateError}
    {mm' : KMemoryManager}
    (herr : mm.allocatePageGroupImpl out numPages pool dir unoptimized random = (.error e, mm')) :
    ((∀ i < mm.numManagers, (mm'.managers i).heap.freePages = (mm.managers i).heap.freePages) ↔
        ∀ heapIndex, getBlockIndex numPages = some heapIndex →
          ∀ b ∈ (mm.allocateGroup out numPages heapIndex pool dir unoptimized random).out.blocks,
            InOneManager mm b) ∧
      ((∀ a b, ¬FreeSeam mm pool a b) → ∀ i < mm.numManagers,
        (mm'.managers i).heap.freePages = (mm.managers i).heap.freePages) := by
  rcases allocatePageGroupImpl_error_cases herr with ⟨hnone, rfl⟩ | ⟨heapIndex, hsome, rfl⟩
  · refine ⟨⟨fun _ heapIndex hsome => ?_, fun _ i _ => rfl⟩, fun _ i _ => rfl⟩
    rw [hnone] at hsome
    exact absurd hsome (by simp)
  · have hs : GroupInvariant mm pool unoptimized numPages
        (mm.allocateGroup out numPages heapIndex pool dir unoptimized random) :=
      allocateGroup_invariant hv hout hsome
    have hiff := hs.rollback_restores_iff hv
    refine ⟨⟨fun hrestored index hindex => ?_, fun hone => hiff.2 (hone heapIndex hsome)⟩,
      fun hseam => hiff.2 ?_⟩
    · rw [hsome] at hindex
      obtain rfl := Option.some.inj hindex
      exact hiff.1 hrestored
    · refine steps_inOneManager hv hseam (groupInvariant_start hv hout pool unoptimized numPages)
        (allocateGroup_steps hv hout hsome) fun b hb => ?_
      have hb' : b ∈ out.blocks := hb
      rw [hout] at hb'
      exact absurd hb' List.not_mem_nil

end Failure

end KMemoryManager

end Sudachi.Kernel
