import Sudachi.Foundations.Results
import Sudachi.Kernel.MemoryManagerRuns
import Sudachi.Kernel.PageTable

/-!
# Operations on a page table

`KPageTableBase::Operate` and `KPageTableBase::MakePageGroup` of `k_page_table_base.cpp`. Every
mapping of a heap page holds a reference to it. An operation that unmaps a range collects the pages
of the range in a page group, whose blocks are the runs of the range that are contiguous in physical
memory, and closes them when it returns. The result of `MakePageGroup` is not looked at: when it
fails half-way, for want of a block info or at a page mapped to its own address, the range is
unmapped all the same and the pages that were not collected keep their references.

`operate_unmap_releases_iff` says exactly when all references are dropped.
-/

set_option autoImplicit false

namespace Sudachi.Kernel

open Sudachi.Common Sudachi.Foundations List Nat
open Nat (add_zero mul_div_cancel one_mul)

/-- The operations of the first overload of `Operate`; the rest of its properties argument is not
used there. -/
inductive PageOperation where
  | unmap
  | unmapPhysical
  | map (physAddr : Nat)
  | separate
  | changePermissions
  | changePermissionsAndRefresh
  | changePermissionsAndRefreshAndFlush
deriving DecidableEq, Repr

/-- The local variables of `MakePageGroup`. -/
structure GroupCursor where
  context : TraversalContext
  curAddr : Nat
  curSize : Nat
  totSize : Nat
  group : KPageGroup

/-- A failure of `MakePageGroup` leaves the blocks that it has added in the group. -/
abbrev GroupResult (α : Type) := Except (PageTableError × KPageGroup) α

/-- Add the current run to the group. -/
def addCurrentBlock (isHeap : Nat → Bool) (c : GroupCursor) : GroupResult KPageGroup :=
  if !isHeap c.curAddr then .error (.invalidCurrentMemory, c.group)
  else
    match c.group.addBlock c.curAddr (c.curSize / pageSize) with
    | (true, g) => .ok g
    | (false, g) => .error (.outOfResource, g)

/-- One iteration of the loop of `MakePageGroup`. -/
def makePageGroupStep (isHeap : Nat → Bool) (t : PageTable) (c : GroupCursor) :
    GroupResult GroupCursor :=
  let next := t.continueTraversal c.context
  if !next.valid then .error (.invalidCurrentMemory, c.group)
  else if next.entry.physAddr ≠ c.curAddr + c.curSize then do
    let g ← addCurrentBlock isHeap c
    pure ⟨next.context, next.entry.physAddr, next.entry.blockSize,
      c.totSize + next.entry.blockSize, g⟩
  else
    .ok ⟨next.context, c.curAddr, c.curSize + next.entry.blockSize,
      c.totSize + next.entry.blockSize, c.group⟩

/-- `while (tot_size < size)`. Every iteration takes a page. -/
def makePageGroupLoop (isHeap : Nat → Bool) (t : PageTable) (size : Nat) :
    Nat → GroupCursor → GroupResult GroupCursor
  | 0, c => .ok c
  | fuel + 1, c =>
    if c.totSize < size then
      makePageGroupStep isHeap t c >>= makePageGroupLoop isHeap t size fuel
    else .ok c

/-- `MakePageGroup`. -/
def makePageGroup (isHeap : Nat → Bool) (t : PageTable) (pg : KPageGroup) (addr numPages : Nat) :
    GroupResult KPageGroup := do
  let size := numPages * pageSize
  if !pg.blocks.isEmpty then throw (.invalidCurrentMemory, pg)
  let first := t.beginTraversal addr
  if !first.valid then throw (.invalidCurrentMemory, pg)
  let curSize := first.entry.blockSize - (first.entry.physAddr &&& (first.entry.blockSize - 1))
  let c ← makePageGroupLoop isHeap t size numPages
    ⟨first.context, first.entry.physAddr, curSize, curSize, pg⟩
  let c := if size < c.totSize then { c with curSize := c.curSize - (c.totSize - size) } else c
  addCurrentBlock isHeap c

/-- The group that `MakePageGroup` leaves, whether or not it fails. -/
def GroupResult.group : GroupResult KPageGroup → KPageGroup
  | .ok g => g
  | .error (_, g) => g

namespace KMemoryManager

/-- `KPageGroup::Close`, and what `KPageGroup::CloseAndReset` does to the pages. -/
def closeGroup (mm : KMemoryManager) (blocks : List KBlockInfo) : KMemoryManager :=
  blocks.foldl (fun mm b => mm.close b.getAddress b.getNumPages) mm

end KMemoryManager

/-- What `Operate` works on besides its arguments: the page table and the physical memory. -/
structure OperateState where
  table : PageTable
  memory : KMemoryManager

/-- `Operate(page_list, virt_addr, num_pages, phys_addr, is_pa_valid, properties, operation,
reuse_ll)` with the permission of its properties. -/
def operate (isHeap : Nat → Bool) (manager : KBlockInfoManager) (s : OperateState)
    (virtAddr numPages : Nat) (perm : KMemoryPermission) (operation : PageOperation) :
    Except PageTableError OperateState :=
  match operation with
  | .unmap | .unmapPhysical =>
    let pagesToClose := (makePageGroup isHeap s.table ⟨[], manager⟩ virtAddr numPages).group
    .ok {
      table := s.table.unmapRegion virtAddr (numPages * pageSize)
      memory := s.memory.closeGroup pagesToClose.blocks }
  | .map physAddr =>
    .ok {
      table := s.table.mapMemoryRegion virtAddr (numPages * pageSize) physAddr
        (convertToMemoryPermission perm)
      memory := if isHeap physAddr then s.memory.openPages physAddr numPages else s.memory }
  | .separate => .ok s
  | .changePermissions | .changePermissionsAndRefresh | .changePermissionsAndRefreshAndFlush =>
    .ok { s with
      table := s.table.protectRegion virtAddr (numPages * pageSize)
        (convertToMemoryPermission perm) }

/-! ## Closing a group -/

namespace KMemoryManager

open KPageGroup

variable {mm mm' : KMemoryManager}

/-- The number of references to a page. -/
def references (mm : KMemoryManager) (q : Nat) : Nat :=
  ((mm.getManager (q * pageSize)).refCount q).toNat

theorem Valid.references_eq (hv : Valid mm) {i q : Nat} (hi : i < mm.numManagers)
    (hq : q ∈ (mm.managers i).region) : mm.references q = ((mm.managers i).refCount q).toNat := by
  rw [references, getManager, hv.layout.lookup i hi q hq]

/-- Closing a range of pages drops one reference of each. -/
theorem close_references (hv : Valid mm) {p n : Nat}
    (hmanaged : ∀ q ∈ Finset.Ico p (p + n), Managed mm q)
    (hrefs : ∀ q ∈ Finset.Ico p (p + n), 0 < mm.references q) :
    SameShape mm (mm.close (p * pageSize) n) ∧ Valid (mm.close (p * pageSize) n) ∧
      ∀ q, Managed mm q → (mm.close (p * pageSize) n).references q =
        mm.references q - if q ∈ Finset.Ico p (p + n) then 1 else 0 := by
  obtain ⟨hshape, hcounted⟩ := close_spec hv hmanaged (fun i hi q hq hreg h0 => by
    have := hrefs q hq
    rw [hv.references_eq hi hreg, h0] at this
    exact absurd this (by decide))
  refine ⟨hshape, hcounted.valid, ?_⟩
  rintro q ⟨i, hi, hq⟩
  have hi' : i < (mm.close (p * pageSize) n).numManagers := hshape.numManagers.symm ▸ hi
  rw [hcounted.valid.references_eq hi' ((hshape.region i).symm ▸ hq), hv.references_eq hi hq,
    hcounted.refCount i hi q hq]
  split
  · rename_i hmem
    have hpos := hrefs q hmem
    rw [hv.references_eq hi hq] at hpos
    have hone : (1 : BitVec 16).toNat ≤ ((mm.managers i).refCount q).toNat := hpos
    rw [BitVec.toNat_sub_of_le (BitVec.le_def.mpr hone)]
    rfl
  · rw [Nat.sub_zero]

/-- The pages of the blocks of a group, in order. -/
def pageList (blocks : List KBlockInfo) : List Nat :=
  blocks.flatMap fun b => range' b.pageIndex b.numPages

theorem pageList_append (l l' : List KBlockInfo) :
    pageList (l ++ l') = pageList l ++ pageList l' := flatMap_append

theorem pageList_cons (b : KBlockInfo) (blocks : List KBlockInfo) :
    pageList (b :: blocks) = range' b.pageIndex b.numPages ++ pageList blocks :=
  flatMap_cons

theorem pageList_singleton (b : KBlockInfo) :
    pageList [b] = range' b.pageIndex b.numPages := flatMap_singleton ..

theorem count_range' (q s n : Nat) :
    (range' s n).count q = if q ∈ Finset.Ico s (s + n) then 1 else 0 := by
  split
  · rename_i h
    rw [Finset.mem_Ico] at h
    exact count_eq_one_of_mem nodup_range' (mem_range'_1.mpr h)
  · rename_i h
    rw [Finset.mem_Ico] at h
    exact count_eq_zero_of_not_mem fun hmem => h (mem_range'_1.mp hmem)

/-- Closing a group drops as many references of a page as the group has of it. -/
theorem closeGroup_references {blocks : List KBlockInfo} (hv : Valid mm)
    (hmanaged : ∀ q ∈ pageList blocks, Managed mm q)
    (hrefs : ∀ q ∈ pageList blocks, (pageList blocks).count q ≤ mm.references q) :
    SameShape mm (mm.closeGroup blocks) ∧ Valid (mm.closeGroup blocks) ∧ ∀ q, Managed mm q →
        (mm.closeGroup blocks).references q = mm.references q - (pageList blocks).count q := by
  induction blocks generalizing mm with
  | nil => exact ⟨SameShape.refl mm, hv, fun q _ => rfl⟩
  | cons b rest ih =>
    have hcons := pageList_cons b rest
    have hcount : ∀ q, (pageList (b :: rest)).count q =
        (if q ∈ Finset.Ico b.pageIndex (b.pageIndex + b.numPages) then 1 else 0) +
          (pageList rest).count q := by
      intro q
      rw [hcons, count_append, count_range']
    have hmem : ∀ q ∈ Finset.Ico b.pageIndex (b.pageIndex + b.numPages),
        q ∈ pageList (b :: rest) := by
      intro q hq
      rw [hcons]
      exact mem_append_left _ (mem_range'_1.mpr (Finset.mem_Ico.mp hq))
    have hrest : ∀ q ∈ pageList rest, q ∈ pageList (b :: rest) := by
      intro q hq
      rw [hcons]
      exact mem_append_right _ hq
    obtain ⟨hshape, hvalid, hclose⟩ :=
      @close_references mm hv b.pageIndex b.numPages (fun q hq => hmanaged q (hmem q hq))
        (fun q hq => by
          have hle := hrefs q (hmem q hq)
          rw [hcount q, if_pos hq] at hle
          omega)
    obtain ⟨hshape', hvalid', hgroup⟩ :=
      @ih (mm.close b.getAddress b.getNumPages) hvalid
        (fun q hq => (hmanaged q (hrest q hq)).of_sameShape hshape)
        (fun q hq => by
          have hle := hrefs q (hrest q hq)
          have heq := hclose q (hmanaged q (hrest q hq))
          rw [hcount q] at hle
          show _ ≤ (mm.close (b.pageIndex * pageSize) b.numPages).references q
          omega)
    refine ⟨hshape.trans hshape', hvalid', fun q hq => ?_⟩
    have heq := hclose q hq
    have hgroup' := hgroup q (hq.of_sameShape hshape)
    rw [hcount q]
    show ((mm.close (b.pageIndex * pageSize) b.numPages).closeGroup rest).references q = _
    change ((mm.close (b.pageIndex * pageSize) b.numPages).closeGroup rest).references q = _
      at hgroup'
    rw [hgroup', show (mm.close b.getAddress b.getNumPages).references q =
      (mm.close (b.pageIndex * pageSize) b.numPages).references q from rfl, heq, Nat.sub_sub]

end KMemoryManager

/-! ## Collecting the pages of a range -/

section MakePageGroup

open KMemoryManager KPageGroup

variable {isHeap : Nat → Bool} {mm : KMemoryManager} {t : PageTable} {page n : Nat}
  {answers : Nat → Bool}

/-- The physical page of the page `k` of a range. -/
def PageTable.physPage (t : PageTable) (page k : Nat) : Nat := t.frame (page + k) / pageSize

/-- The page `k` of a range starts a run: it does not continue the page before it. -/
def PageTable.startsRun (t : PageTable) (page k : Nat) : Bool :=
  k == 0 || t.frame (page + k) != t.frame (page + (k - 1)) + pageSize

/-- The number of runs, contiguous in physical memory, of the first `n` pages of a range. -/
def PageTable.runCount (t : PageTable) (page n : Nat) : Nat :=
  ((List.range n).filter (t.startsRun page)).length

/-- A range of mapped heap pages. -/
structure HeapBacked (isHeap : Nat → Bool) (mm : KMemoryManager) (t : PageTable) (page n : Nat) :
    Prop where
  table : t.WellFormed
  memory : mm.Valid
  mapped : ∀ k < n, t.mapped (page + k) = true
  heap : ∀ k < n, isHeap (t.frame (page + k)) = true
  managed : ∀ k < n, Managed mm (t.physPage page k)

variable {k j : Nat} {c : GroupCursor}

theorem PageTable.runCount_succ (t : PageTable) (page n : Nat) :
    t.runCount page (n + 1) = t.runCount page n + if t.startsRun page n then 1 else 0 := by
  rw [runCount, range_succ, filter_append, length_append, runCount]
  cases h : t.startsRun page n with
  | true => simp [h]
  | false => simp [h]

theorem PageTable.runCount_mono (t : PageTable) (page : Nat) (h : j ≤ k) :
    t.runCount page j ≤ t.runCount page k := by
  induction h with
  | refl => exact le_refl _
  | step _ ih =>
    rw [runCount_succ]
    omega

/-- No run starts inside a run. -/
theorem PageTable.runCount_run (hj : t.startsRun page j = true)
    (hjk : j < k) (hrun : ∀ i, j < i → i < k → t.startsRun page i = false) :
    t.runCount page k = t.runCount page j + 1 := by
  induction k with
  | zero => omega
  | succ k ih =>
    rw [runCount_succ]
    rcases eq_or_lt_of_le (le_of_lt_succ hjk) with rfl | hlt
    · rw [if_pos hj]
    · rw [ih hlt (fun i hi hik => hrun i hi (by omega)), hrun k hlt (lt_succ_self k)]
      rfl

theorem HeapBacked.frame_eq (h : HeapBacked isHeap mm t page n) (k : Nat) :
    t.frame (page + k) = t.physPage page k * pageSize :=
  (Nat.div_mul_cancel (h.table.pageSize_dvd_frame _)).symm

theorem KMemoryManager.Valid.page_bounds (hv : mm.Valid) {q : Nat} (hq : Managed mm q) :
    0 < q ∧ q + 1 < 2 ^ 32 := by
  obtain ⟨i, hi, hq⟩ := hq
  refine hv.layout.page_bounds hi one_pos fun q' hq' => ?_
  rw [Finset.mem_Ico] at hq'
  obtain rfl : q' = q := by omega
  exact hq

theorem HeapBacked.physPage_bounds (h : HeapBacked isHeap mm t page n) (hk : k < n) :
    0 < t.physPage page k ∧ t.physPage page k + 1 < 2 ^ 32 :=
  h.memory.page_bounds (h.managed k hk)

/-- The first `k` pages of the range have been taken; the pages from `j` on are the current run, and
those in front of it are in the group. -/
structure GroupProgress (t : PageTable) (page : Nat) (answers : Nat → Bool) (j k : Nat)
    (c : GroupCursor) : Prop where
  lt : j < k
  context : c.context = ⟨page + k, (page + k) * pageSize⟩
  tot : c.totSize = k * pageSize
  curAddr : c.curAddr = t.frame (page + j)
  curSize : c.curSize = (k - j) * pageSize
  starts : t.startsRun page j = true
  run : ∀ i, j < i → i < k → t.startsRun page i = false
  seen : ∀ i < k, ¬t.IdentityMapped (page + i)
  fits : Fits c.group.blocks
  pages : pageList c.group.blocks = (List.range j).map (t.physPage page)
  manager : c.group.manager.answers = fun i => answers (t.runCount page j + i)
  answered : ∀ i < t.runCount page j, answers i = true

theorem startsRun_eq_false_iff : t.startsRun page (k + 1) = false ↔
      t.frame (page + (k + 1)) = t.frame (page + k) + pageSize := by
  simp [PageTable.startsRun]

/-- The pages of the current run follow each other. -/
theorem frame_run (hrun : ∀ i, j < i → i < k → t.startsRun page i = false) {i : Nat} (hji : j ≤ i)
    (hik : i < k) : t.frame (page + i) = t.frame (page + j) + (i - j) * pageSize := by
  induction i with
  | zero =>
    obtain rfl : j = 0 := by omega
    simp only [Nat.sub_self, zero_mul, add_zero]
  | succ i ih =>
    rcases eq_or_lt_of_le hji with rfl | hlt
    · simp only [Nat.sub_self, zero_mul, add_zero]
    · rw [startsRun_eq_false_iff.mp (hrun (i + 1) hlt hik), ih (by omega) (by omega),
        succ_sub (by omega), succ_mul, add_assoc]

theorem HeapBacked.physPage_run (h : HeapBacked isHeap mm t page n)
    (hrun : ∀ i, j < i → i < k → t.startsRun page i = false) {i : Nat} (hji : j ≤ i) (hik : i < k) :
    t.physPage page i = t.physPage page j + (i - j) := by
  have hframe := frame_run hrun hji hik
  rw [h.frame_eq i, h.frame_eq j, ← add_mul] at hframe
  exact eq_of_mul_eq_mul_right pageSize_pos hframe

/-- `AddBlock` of a block that does not start at the end of the last one. -/
theorem addBlock_of_apart {g : KPageGroup} (hfits : Fits g.blocks) {q m : Nat} (hm : 0 < m)
    (hapart : ∀ last, g.blocks.getLast? = some last → last.pageIndex + last.numPages ≠ q) :
    g.addBlock (q * pageSize) m = g.appendBlock (q * pageSize) m := by
  rw [addBlock, if_neg (by omega)]
  cases hlast : g.blocks.getLast? with
  | none => rfl
  | some last =>
    have hend := (hfits last (mem_of_getLast? hlast)).2
    have hnone : last.tryConcatenate (q * pageSize) m = none := by
      rw [KBlockInfo.tryConcatenate, if_neg]
      rintro ⟨-, heq⟩
      rw [KBlockInfo.getEndAddress, mod_eq_of_lt hend] at heq
      exact hapart last hlast (eq_of_mul_eq_mul_right pageSize_pos heq).symm
    simp only [hnone]

/-- The last block of the group ends with the page in front of the current run. -/
theorem last_block_end {blocks : List KBlockInfo} (hfits : Fits blocks) {last : KBlockInfo}
    (hlast : blocks.getLast? = some last) {f : Nat → Nat}
    (hpages : pageList blocks = (range j).map f) :
    0 < j ∧ last.pageIndex + last.numPages = f (j - 1) + 1 := by
  obtain ⟨init, rfl⟩ := getLast?_eq_some_iff.mp hlast
  have hpos := (hfits last (mem_append_right _ (mem_singleton_self _))).1
  obtain ⟨m, hm⟩ := exists_eq_add_one.mpr hpos
  rw [pageList_append, pageList_singleton, hm, range'_concat] at hpages
  cases j with
  | zero =>
    rw [range_zero, map_nil] at hpages
    exact absurd (congrArg length hpages) (by simp)
  | succ j =>
    rw [range_succ, map_append, map_singleton, ← append_assoc] at hpages
    have hend := (append_inj' hpages rfl).2
    rw [singleton_inj, one_mul] at hend
    refine ⟨succ_pos j, ?_⟩
    rw [Nat.add_sub_cancel, hm]
    omega

/-- Adding the current run asks for the next block info. -/
theorem GroupProgress.addCurrentBlock (hb : HeapBacked isHeap mm t page n)
    (h : GroupProgress t page answers j k c) (hk : k ≤ n) :
    (answers (t.runCount page j) = true → ∃ g, addCurrentBlock isHeap c = .ok g ∧ Fits g.blocks ∧
        pageList g.blocks = (range k).map (t.physPage page) ∧
        g.manager.answers = fun i => answers (t.runCount page k + i)) ∧
    (answers (t.runCount page j) = false →
      ∃ e g, addCurrentBlock isHeap c = .error (e, g) ∧ g.blocks = c.group.blocks) := by
  have hlt := h.lt
  have hcount := PageTable.runCount_run h.starts hlt h.run
  have hfirst := hb.physPage_bounds (show j < n by omega)
  have hlast := hb.physPage_bounds (show k - 1 < n by omega)
  rw [hb.physPage_run h.run (show j ≤ k - 1 by omega) (by omega)] at hlast
  have hpages : c.curSize / pageSize = k - j := by
    rw [h.curSize, mul_div_cancel _ pageSize_pos]
  have happly : c.group.addBlock c.curAddr (c.curSize / pageSize) =
      c.group.appendBlock (t.physPage page j * pageSize) (k - j) := by
    rw [hpages, h.curAddr, hb.frame_eq j]
    refine addBlock_of_apart h.fits (by omega) fun last hl => ?_
    obtain ⟨hpos, hend⟩ := last_block_end h.fits hl h.pages
    obtain ⟨i, rfl⟩ := exists_eq_add_one.mpr hpos
    have hstart := h.starts
    rw [← Bool.not_eq_false, startsRun_eq_false_iff, hb.frame_eq, hb.frame_eq i] at hstart
    rw [hend, Nat.add_sub_cancel]
    intro heq
    rw [← heq, add_mul, one_mul] at hstart
    exact hstart rfl
  have hinfo : KBlockInfo.initializeInfo (t.physPage page j * pageSize) (k - j) =
      ⟨t.physPage page j, k - j⟩ := by
    rw [KBlockInfo.initializeInfo, mul_div_cancel _ pageSize_pos,
      mod_eq_of_lt (by omega), mod_eq_of_lt (by omega)]
  have hheap : isHeap c.curAddr = true := by
    rw [h.curAddr]
    exact hb.heap j (by omega)
  have hfound : c.group.manager.answers 0 = answers (t.runCount page j) := by
    simp only [h.manager, add_zero]
  constructor
  · intro hanswer
    refine ⟨⟨c.group.blocks ++ [⟨t.physPage page j, k - j⟩],
      ⟨fun i => c.group.manager.answers (i + 1)⟩⟩, ?_, ?_, ?_, ?_⟩
    · rw [Kernel.addCurrentBlock, hheap, happly, appendBlock, hinfo,
        KBlockInfoManager.allocate, hfound, hanswer]
      rfl
    · intro b hbm
      rcases mem_append.mp hbm with hold | hnew
      · exact h.fits b hold
      · obtain rfl := mem_singleton.mp hnew
        exact ⟨by show 0 < k - j; omega, by show t.physPage page j + (k - j) < 2 ^ 32; omega⟩
    · rw [pageList_append, pageList_singleton, h.pages]
      have hsum : k = j + (k - j) := by omega
      conv_rhs => rw [hsum, range_add, map_append, map_map]
      refine congrArg _ (ext_getElem (by simp) fun i hi hi' => ?_)
      have hik : i < k - j := by simpa using hi
      simp only [getElem_range', getElem_map, getElem_range, Function.comp_apply, one_mul]
      rw [hb.physPage_run h.run (le_add_right j i) (by omega), Nat.add_sub_cancel_left]
    · funext i
      simp only [h.manager, hcount, add_assoc, add_comm 1 i]
  · intro hanswer
    refine ⟨.outOfResource, { c.group with
      manager := ⟨fun i => c.group.manager.answers (i + 1)⟩ }, ?_, rfl⟩
    rw [Kernel.addCurrentBlock, hheap, happly, appendBlock, KBlockInfoManager.allocate, hfound,
      hanswer]
    rfl

/-- What `MakePageGroup` needs: the range has no page mapped to its own address, and there is a
block info for every run. -/
def Collectable (t : PageTable) (page n : Nat) (answers : Nat → Bool) : Prop :=
  (∀ k < n, ¬t.IdentityMapped (page + k)) ∧ ∀ i < t.runCount page n, answers i = true

/-- The group holds the first `j` pages of the range, and all of them exactly if everything that
`MakePageGroup` needs is there. -/
structure Collected (t : PageTable) (page n : Nat) (answers : Nat → Bool) (j : Nat)
    (g : KPageGroup) : Prop where
  le : j ≤ n
  fits : Fits g.blocks
  pages : pageList g.blocks = (List.range j).map (t.physPage page)
  all_iff : j = n ↔ Collectable t page n answers

/-- A run that could not be added: the pages in front of it are in the group. -/
theorem GroupProgress.collected_of_rejected
    (h : GroupProgress t page answers j k c) (hk : k ≤ n) (hno : ¬Collectable t page n answers)
    {g : KPageGroup} (hg : g.blocks = c.group.blocks) : Collected t page n answers j g := by
  have hlt := h.lt
  refine ⟨by omega, hg ▸ h.fits, hg ▸ h.pages, ?_⟩
  constructor
  · intro heq
    omega
  · intro hyes
    exact absurd hyes hno

theorem GroupProgress.not_collectable (h : GroupProgress t page answers j k c) (hk : k ≤ n)
    (hanswer : answers (t.runCount page j) = false) : ¬Collectable t page n answers := by
  rintro ⟨-, hall⟩
  have hcount := PageTable.runCount_run h.starts h.lt h.run
  have hmono := t.runCount_mono page hk
  rw [hall _ (by omega)] at hanswer
  cases hanswer

/-- One more page of the range. -/
theorem GroupProgress.step (hb : HeapBacked isHeap mm t page n)
    (h : GroupProgress t page answers j k c) (hk : k < n) :
    (∃ j' c', makePageGroupStep isHeap t c = .ok c' ∧ GroupProgress t page answers j' (k + 1) c') ∨
    ∃ e g, makePageGroupStep isHeap t c = .error (e, g) ∧
      ∃ j', j' < n ∧ Collected t page n answers j' g := by
  have hlt := h.lt
  have hm := hb.mapped k hk
  have hentry := hb.table.continueTraversal_entry hm pageSize_pos
  simp only [add_zero] at hentry
  by_cases hid : t.IdentityMapped (page + k)
  · -- the traversal takes the page for an unmapped one
    have hzero := (hb.table.backingAddr_eq_zero_iff hm).mpr hid
    refine .inr ⟨.invalidCurrentMemory, c.group, ?_, j, by omega,
      h.collected_of_rejected (by omega) (fun hyes => hyes.1 k hk hid) rfl⟩
    simp only [makePageGroupStep, h.context, hentry, hzero]
    rfl
  · have hne := (hb.table.backingAddr_eq_zero_iff hm).not.mpr hid
    have haddr := hb.table.traversedAddress_eq hm hid 0
    rw [add_zero] at haddr
    have hseen : ∀ i < k + 1, ¬t.IdentityMapped (page + i) := by
      intro i hi
      rcases eq_or_lt_of_le (le_of_lt_succ hi) with rfl | hi
      · exact hid
      · exact h.seen i hi
    have hend : c.curAddr + c.curSize = t.frame (page + (k - 1)) + pageSize := by
      rw [h.curAddr, h.curSize, frame_run h.run (show j ≤ k - 1 by omega) (by omega)]
      have hsub : k - j = k - 1 - j + 1 := by omega
      rw [hsub, add_mul, one_mul, add_assoc]
    have hstarts : t.startsRun page k = true ↔ t.frame (page + k) ≠ c.curAddr + c.curSize := by
      rw [hend]
      obtain ⟨i, rfl⟩ := exists_eq_add_one.mpr (show 0 < k by omega)
      rw [← Bool.not_eq_false, startsRun_eq_false_iff, Nat.add_sub_cancel]
    have htot : c.totSize + pageSize = (k + 1) * pageSize := by
      rw [h.tot, add_mul, one_mul]
    simp only [makePageGroupStep, h.context, hentry, haddr, hne, ne_eq, not_false_eq_true,
      decide_true, Bool.not_true, Bool.false_eq_true, if_false]
    by_cases hnew : t.frame (page + k) = c.curAddr + c.curSize
    · -- the page continues the current run
      rw [if_neg (not_not.mpr hnew)]
      refine .inl ⟨j, _, rfl, ?_⟩
      constructor
      case lt => omega
      case context => rfl
      case tot => exact htot
      case curAddr => exact h.curAddr
      case curSize =>
        have hsub : k + 1 - j = k - j + 1 := by omega
        simp only [h.curSize, hsub, add_mul, one_mul]
      case starts => exact h.starts
      case run =>
        intro i hi hik
        rcases eq_or_lt_of_le (le_of_lt_succ hik) with rfl | hik
        · exact Bool.eq_false_iff.mpr fun hs => hstarts.mp hs hnew
        · exact h.run i hi hik
      case seen => exact hseen
      case fits => exact h.fits
      case pages => exact h.pages
      case manager => exact h.manager
      case answered => exact h.answered
    · -- the page starts a run: the current one goes into the group
      rw [if_pos hnew]
      cases hanswer : answers (t.runCount page j) with
      | false =>
        obtain ⟨e, g, hadd, hg⟩ := (h.addCurrentBlock hb (le_of_lt hk)).2 hanswer
        refine .inr ⟨e, g, ?_, j, by omega, h.collected_of_rejected (le_of_lt hk)
          (h.not_collectable (le_of_lt hk) hanswer) hg⟩
        rw [hadd]
        rfl
      | true =>
        obtain ⟨g, hadd, hfits, hpages, hmanager⟩ :=
          (h.addCurrentBlock hb (le_of_lt hk)).1 hanswer
        refine .inl ⟨k, _, by rw [hadd]; rfl, ?_⟩
        constructor
        case lt => exact lt_succ_self k
        case context => rfl
        case tot => exact htot
        case curAddr => rfl
        case curSize => rw [Nat.add_sub_cancel_left, one_mul]
        case starts => exact hstarts.mpr hnew
        case run =>
          intro i hi hik
          omega
        case seen => exact hseen
        case fits => exact hfits
        case pages => exact hpages
        case manager => exact hmanager
        case answered =>
          intro i hi
          rw [PageTable.runCount_run h.starts hlt h.run] at hi
          rcases eq_or_lt_of_le (le_of_lt_succ hi) with rfl | hi
          · exact hanswer
          · exact h.answered i hi

theorem GroupProgress.loop (hb : HeapBacked isHeap mm t page n) {fuel : Nat}
    (h : GroupProgress t page answers j k c) (hk : k ≤ n) (hfuel : n ≤ k + fuel) :
    (∃ j' c', makePageGroupLoop isHeap t (n * pageSize) fuel c = .ok c' ∧
      GroupProgress t page answers j' n c') ∨
    ∃ e g, makePageGroupLoop isHeap t (n * pageSize) fuel c = .error (e, g) ∧
      ∃ j', j' < n ∧ Collected t page n answers j' g := by
  induction fuel generalizing j k c with
  | zero =>
    obtain rfl : k = n := by omega
    exact .inl ⟨j, c, rfl, h⟩
  | succ fuel ih =>
    rw [makePageGroupLoop, h.tot]
    rcases eq_or_lt_of_le hk with rfl | hlt
    · rw [if_neg (lt_irrefl _)]
      exact .inl ⟨j, c, rfl, h⟩
    · rw [if_pos (Nat.mul_lt_mul_of_pos_right hlt pageSize_pos)]
      rcases h.step hb hlt with ⟨j', c', hstep, h'⟩ | ⟨e, g, hstep, hcol⟩
      · rw [hstep, ok_bind]
        exact ih h' hlt (by omega)
      · rw [hstep, error_bind]
        exact .inr ⟨e, g, rfl, hcol⟩

theorem collected_nil (hno : ¬Collectable t page n answers) (hn : 0 < n)
    (manager : KBlockInfoManager) : Collected t page n answers 0 ⟨[], manager⟩ := by
  refine ⟨zero_le n, fun b hb => absurd hb not_mem_nil, rfl, ?_⟩
  constructor
  · intro heq
    omega
  · intro hyes
    exact absurd hyes hno

/-- The first page of the range, as the traversal sees it. -/
theorem HeapBacked.beginTraversal_eq (hb : HeapBacked isHeap mm t page n) (hn : 0 < n)
    (hid : ¬t.IdentityMapped page) : t.beginTraversal (page * pageSize) =
      ⟨true, ⟨t.frame page, pageSize⟩, ⟨page + 1, (page + 1) * pageSize⟩⟩ := by
  have hm : t.mapped page = true := hb.mapped 0 hn
  have hne := (hb.table.backingAddr_eq_zero_iff hm).not.mpr hid
  have haddr := hb.table.traversedAddress_eq hm hid 0
  rw [← mul_div_cancel page pageSize_pos] at hm
  rw [hb.table.beginTraversal_entry hm, mul_div_cancel _ pageSize_pos, mul_mod_left, haddr,
    decide_eq_true hne]
  simp only [add_zero]

/-- The size of the first page that `MakePageGroup` computes. -/
theorem HeapBacked.firstSize_eq (hb : HeapBacked isHeap mm t page n) :
    pageSize - (t.frame page &&& (pageSize - 1)) = pageSize := by
  rw [pageSize_sub_and, mod_eq_zero_of_dvd (hb.table.pageSize_dvd_frame page), Nat.sub_zero]

/-- The start of the loop: the first page is the current run. -/
theorem groupProgress_start (hid : ¬t.IdentityMapped page) (manager : KBlockInfoManager) :
    GroupProgress t page manager.answers 0 1
      ⟨⟨page + 1, (page + 1) * pageSize⟩, t.frame page, pageSize, pageSize, ⟨[], manager⟩⟩ := by
  constructor
  case lt => exact one_pos
  case context => rfl
  case tot => exact (one_mul _).symm
  case curAddr => rfl
  case curSize => exact (one_mul _).symm
  case starts => rfl
  case run =>
    intro i hi hik
    omega
  case seen =>
    intro i hi
    obtain rfl : i = 0 := by omega
    exact hid
  case fits => exact fun b hbm => absurd hbm not_mem_nil
  case pages => rfl
  case manager =>
    funext i
    simp only [PageTable.runCount, range_zero, filter_nil, length_nil, zero_add]
  case answered =>
    intro i hi
    exact absurd hi (Nat.not_lt_zero i)

/-- `MakePageGroup` returns a group with all pages of the range, or fails with a group of the first
ones. -/
theorem makePageGroup_cases (hb : HeapBacked isHeap mm t page n) (hn : 0 < n)
    (manager : KBlockInfoManager) :
    (∃ g, makePageGroup isHeap t ⟨[], manager⟩ (page * pageSize) n = .ok g ∧
      Collected t page n manager.answers n g) ∨
    ∃ e g j, makePageGroup isHeap t ⟨[], manager⟩ (page * pageSize) n = .error (e, g) ∧ j < n ∧
      Collected t page n manager.answers j g := by
  by_cases hid : t.IdentityMapped page
  · have hm : t.mapped (page * pageSize / pageSize) = true := by
      rw [mul_div_cancel _ pageSize_pos]
      exact hb.mapped 0 hn
    have hentry := hb.table.beginTraversal_entry hm
    rw [mul_div_cancel _ pageSize_pos] at hm hentry
    have hzero := (hb.table.backingAddr_eq_zero_iff hm).mpr hid
    have hgroup : makePageGroup isHeap t ⟨[], manager⟩ (page * pageSize) n =
        .error (.invalidCurrentMemory, ⟨[], manager⟩) := by
      simp only [makePageGroup, hentry, hzero]
      rfl
    exact .inr ⟨_, _, 0, hgroup, hn, collected_nil (fun hyes => hyes.1 0 hn hid) hn manager⟩
  · have hstart := groupProgress_start hid manager
    have hgroup : makePageGroup isHeap t ⟨[], manager⟩ (page * pageSize) n =
        (makePageGroupLoop isHeap t (n * pageSize) n
          ⟨⟨page + 1, (page + 1) * pageSize⟩, t.frame page, pageSize, pageSize, ⟨[], manager⟩⟩ >>=
        fun c => addCurrentBlock isHeap (if n * pageSize < c.totSize then
          { c with curSize := c.curSize - (c.totSize - n * pageSize) } else c)) := by
      simp only [makePageGroup, hb.beginTraversal_eq hn hid, hb.firstSize_eq]
      rfl
    rw [hgroup]
    rcases hstart.loop hb hn (le_add_left n 1) with
      ⟨j, c, hloop, h⟩ | ⟨e, g, hloop, j, hlt, hcol⟩
    · rw [hloop, ok_bind, if_neg (by rw [h.tot]; exact lt_irrefl _)]
      have hlt := h.lt
      cases hanswer : manager.answers (t.runCount page j) with
      | false =>
        obtain ⟨e, g, hadd, hg⟩ := (h.addCurrentBlock hb (le_refl n)).2 hanswer
        exact .inr ⟨e, g, j, hadd, hlt, h.collected_of_rejected (le_refl n)
          (h.not_collectable (le_refl n) hanswer) hg⟩
      | true =>
        obtain ⟨g, hadd, hfits, hpages, -⟩ := (h.addCurrentBlock hb (le_refl n)).1 hanswer
        refine .inl ⟨g, hadd, le_refl n, hfits, hpages,
          iff_of_true rfl ⟨h.seen, fun i hi => ?_⟩⟩
        rw [PageTable.runCount_run h.starts h.lt h.run] at hi
        rcases eq_or_lt_of_le (le_of_lt_succ hi) with rfl | hi
        · exact hanswer
        · exact h.answered i hi
    · rw [hloop, error_bind]
      exact .inr ⟨e, g, j, rfl, hlt, hcol⟩

/-- The group that `MakePageGroup` leaves: the first pages of the range, and all of them exactly if
everything that it needs is there. -/
theorem makePageGroup_collected (hb : HeapBacked isHeap mm t page n) (hn : 0 < n)
    (manager : KBlockInfoManager) : ∃ j, Collected t page n manager.answers j
      (makePageGroup isHeap t ⟨[], manager⟩ (page * pageSize) n).group := by
  rcases makePageGroup_cases hb hn manager with ⟨g, heq, hcol⟩ | ⟨e, g, j, heq, -, hcol⟩
  · exact ⟨n, heq ▸ hcol⟩
  · exact ⟨j, heq ▸ hcol⟩

end MakePageGroup

/-! ## Unmapping -/

section Unmap

open KMemoryManager KPageHeap KPageBitmap

variable {isHeap : Nat → Bool} {s s' : OperateState} {page n : Nat}

/-- How often a range maps a physical page. -/
def PageTable.mappings (t : PageTable) (page n q : Nat) : Nat :=
  ((List.range n).map (t.physPage page)).count q

/-- The range is unmapped, and every page has lost as many references as the range mapped it. -/
structure Releases (s s' : OperateState) (page n : Nat) : Prop where
  unmapped : ∀ k < n, s'.table.mapped (page + k) = false
  released : ∀ q, Managed s.memory q →
    s'.memory.references q + s.table.mappings page n q = s.memory.references q

theorem PageTable.mappings_mono (t : PageTable) (page q : Nat) {j n : Nat} (h : j ≤ n) :
    t.mappings page j q ≤ t.mappings page n q := by
  obtain ⟨m, rfl⟩ := Nat.exists_eq_add_of_le h
  rw [mappings, mappings, range_add, map_append, count_append]
  exact le_add_right _ _

/-- The first pages of a range do not map the next page as often as the whole range does. -/
theorem PageTable.mappings_lt (t : PageTable) (page : Nat) {j n : Nat} (h : j < n) :
    t.mappings page j (t.physPage page j) < t.mappings page n (t.physPage page j) := by
  have hsucc : t.mappings page (j + 1) (t.physPage page j) =
      t.mappings page j (t.physPage page j) + 1 := by
    rw [mappings, mappings, range_succ, map_append, count_append, map_singleton,
      count_singleton_self]
  have hmono := t.mappings_mono page (t.physPage page j) (show j + 1 ≤ n from h)
  omega

theorem unmapRegion_mapped (t : PageTable) {page n k : Nat} (hk : k < n) :
    (t.unmapRegion (page * pageSize) (n * pageSize)).mapped (page + k) = false := by
  have hmem : page * pageSize / pageSize ≤ page + k ∧
      page + k < page * pageSize / pageSize + n * pageSize / pageSize := by
    rw [mul_div_cancel _ pageSize_pos, mul_div_cancel _ pageSize_pos]
    omega
  exact if_pos hmem

/-- An operation that unmaps a range of mapped heap pages, each of which has a reference for each of
its mappings, drops all these references if and only if no page of the range is mapped to its own
address and the block info manager has a block info for every run of the range that is contiguous in
physical memory. -/
theorem operate_unmap_releases_iff (isHeap : Nat → Bool) (manager : KBlockInfoManager)
    (s : OperateState) (page n : Nat) (perm : KMemoryPermission) (op : PageOperation)
    (hop : op = .unmap ∨ op = .unmapPhysical) (hn : 0 < n)
    (hb : HeapBacked isHeap s.memory s.table page n)
    (hrefs : ∀ q, Managed s.memory q → s.table.mappings page n q ≤ s.memory.references q) :
    (∃ s', operate isHeap manager s (page * pageSize) n perm op = .ok s' ∧ Releases s s' page n) ↔
      Collectable s.table page n manager.answers := by
  obtain ⟨j, hcol⟩ := makePageGroup_collected hb hn manager
  have hcount : ∀ q, (pageList (makePageGroup isHeap s.table ⟨[], manager⟩ (page * pageSize)
      n).group.blocks).count q = s.table.mappings page j q := fun q => by
    rw [hcol.pages, PageTable.mappings]
  have hle := hcol.le
  have hmem : ∀ q ∈ pageList (makePageGroup isHeap s.table ⟨[], manager⟩ (page * pageSize)
      n).group.blocks, Managed s.memory q := by
    intro q hq
    rw [hcol.pages, mem_map] at hq
    obtain ⟨k, hk, rfl⟩ := hq
    rw [mem_range] at hk
    exact hb.managed k (by omega)
  obtain ⟨-, -, hclosed⟩ := closeGroup_references hb.memory hmem (fun q hq => by
    rw [hcount q]
    exact Nat.le_trans (s.table.mappings_mono page q hle) (hrefs q (hmem q hq)))
  have hrun : operate isHeap manager s (page * pageSize) n perm op = .ok
      { table := s.table.unmapRegion (page * pageSize) (n * pageSize)
        memory := s.memory.closeGroup
          (makePageGroup isHeap s.table ⟨[], manager⟩ (page * pageSize) n).group.blocks } := by
    rcases hop with rfl | rfl
    · rfl
    · rfl
  rw [hrun, ← hcol.all_iff]
  constructor
  · rintro ⟨s', hs', hrel⟩
    cases hs'
    by_contra hne
    have hlt : j < n := by omega
    have hq := hb.managed j hlt
    have hfewer := s.table.mappings_lt page hlt
    have hrel' := hrel.released _ hq
    have hall := hrefs _ hq
    rw [hclosed _ hq, hcount] at hrel'
    omega
  · intro heq
    subst heq
    refine ⟨_, rfl, fun k hk => unmapRegion_mapped s.table hk, fun q hq => ?_⟩
    rw [hclosed q hq, hcount]
    exact Nat.sub_add_cancel (hrefs q hq)

/-- Sixteen pages at the start of the DRAM, all in use with one reference. -/
def dramPages : KMemoryManager where
  managers := fun _ =>
    { heap := initializeHeap (fun _ => zeroGenerator) zeroGenerator dramBase 0x10000
      pageReferenceCounts := fun _ => 1
      optimizeMap := fun _ => 0
      pool := .application }
  numManagers := 1
  layout := fun _ => 0
  optimizedProcessIds := fun _ => 0
  hasOptimizedProcess := fun _ => false
  memory := fun _ => 0

theorem dramPages_mem_region {i p : Nat} :
    p ∈ (dramPages.managers i).region ↔ 0x80000 ≤ p ∧ p < 0x80010 := by
  have hfirst : (dramPages.managers i).firstPage = dramBase / pageSize := rfl
  have hsize : (dramPages.managers i).heap.heapSize = 0x10000 := rfl
  rw [Impl.mem_region, hfirst, hsize]
  exact .rfl

theorem dramPages_valid : Valid dramPages := by
  have hregion : HeapRegion dramBase 0x10000 := ⟨by decide, by decide, by decide, by decide⟩
  have hheap := initializeHeap_invariant hregion (fun _ => zeroGenerator) zeroGenerator
  refine ⟨⟨fun i _ => hregion, fun i _ p hp => ?_, fun i hi p _ => ?_⟩, fun i _ => ?_⟩
  · have hlt := (dramPages_mem_region.mp hp).2
    omega
  · have hi' : i < 1 := hi
    show 0 = i
    omega
  · have hfree : (dramPages.managers i).heap.freePages = ∅ := hheap.freePages_eq
    refine ⟨hregion, ?_, fun p hp => ?_⟩
    · rw [hfree]
      exact hheap
    · rw [hfree] at hp
      exact absurd hp (Finset.notMem_empty p)

/-- Two pages of an address space that are not contiguous in physical memory. -/
def apartTable : PageTable :=
  ((PageTable.resized 16).mapPages 8 1 dramBase).mapPages 9 1 (dramBase + 0x5000)

theorem apartTable_wellFormed : apartTable.WellFormed :=
  ((PageTable.resized_wellFormed (by decide)).mapPages (by decide) (by decide) (by decide)
    (by decide)).mapPages (by decide) (by decide) (by decide) (by decide)

theorem apartTable_heapBacked : HeapBacked (fun _ => true) dramPages apartTable 8 2 := by
  refine ⟨apartTable_wellFormed, dramPages_valid, by decide +kernel, fun k _ => rfl, ?_⟩
  intro k hk
  refine ⟨0, one_pos, dramPages_mem_region.mpr ?_⟩
  revert k
  decide +kernel

theorem apartTable_mappings (q : Nat) : apartTable.mappings 8 2 q ≤ dramPages.references q := by
  have hnodup : ((range 2).map (apartTable.physPage 8)).Nodup := by decide +kernel
  exact nodup_iff_count_le_one.mp hnodup q

theorem operate_apartTable_releases :
    ∃ s', operate (fun _ => true) ⟨fun _ => true⟩ ⟨apartTable, dramPages⟩ (8 * pageSize) 2
        KMemoryPermission.none .unmap = .ok s' ∧
      Releases ⟨apartTable, dramPages⟩ s' 8 2 :=
  (operate_unmap_releases_iff (fun _ => true) ⟨fun _ => true⟩ ⟨apartTable, dramPages⟩ 8 2
    KMemoryPermission.none .unmap (Or.inl rfl) Nat.two_pos apartTable_heapBacked
    (fun q _ => apartTable_mappings q)).mpr ⟨by decide +kernel, fun _ _ => rfl⟩

/-- Without a block info the two pages are unmapped and keep their references. -/
theorem operate_apartTable_leaks :
    HeapBacked (fun _ => true) dramPages apartTable 8 2 ∧
      ∃ s', operate (fun _ => true) ⟨fun _ => false⟩ ⟨apartTable, dramPages⟩ (8 * pageSize) 2
          KMemoryPermission.none .unmap = .ok s' ∧
        s'.table.mapped 8 = false ∧ s'.table.mapped 9 = false ∧
        (∀ q, s'.memory.references q = dramPages.references q) ∧
        apartTable.mappings 8 2 0x80000 = 1 ∧
        ¬Releases ⟨apartTable, dramPages⟩ s' 8 2 := by
  have hmap : apartTable.mappings 8 2 0x80000 = 1 := by decide +kernel
  have hblocks : (makePageGroup (fun _ => true) apartTable ⟨[], ⟨fun _ => false⟩⟩ (8 * pageSize)
      2).group.blocks = [] := by decide +kernel
  have hkept : ∀ q, (dramPages.closeGroup (makePageGroup (fun _ => true) apartTable
      ⟨[], ⟨fun _ => false⟩⟩ (8 * pageSize) 2).group.blocks).references q =
        dramPages.references q := by
    intro q
    rw [hblocks]
    rfl
  refine ⟨apartTable_heapBacked, _, rfl, by decide +kernel, by decide +kernel, hkept, hmap, ?_⟩
  intro hrel
  have hpage := hrel.released 0x80000
    ⟨0, Nat.one_pos, dramPages_mem_region.mpr (by decide)⟩
  simp only [hkept, hmap] at hpage
  omega

end Unmap

end Sudachi.Kernel
