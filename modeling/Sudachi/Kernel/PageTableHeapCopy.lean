import Sudachi.Kernel.PageTableCopy

/-!
# Copies between two heaps

`CopyMemoryFromHeapToHeap` and `CopyMemoryFromHeapToHeapWithoutCheckDestination` of
`k_page_table_base.cpp`. One loop traverses both ranges at once. An iteration that finds both sides
contiguous skips the copy in order to merge the pages, but it moves neither the block address of the
destination nor the smaller of the two sizes, so that the following iterations find the same state
again. The offset in the first page is added to the entry of every page on both sides.

The copy terminates and is exact if and only if it stays in the first page on both sides, or both
ranges start at a page boundary and no two pages that follow each other are contiguous on both sides
(`HeapCopyRoutine.run_exact_iff`).
-/

set_option autoImplicit false

namespace Sudachi.Kernel

open Sudachi.Common Sudachi.Foundations List Nat
open Nat (add_mul add_zero one_mul)

/-- The local variables of the loop, and the bytes moved so far. -/
structure HeapCopyState where
  srcContext : TraversalContext
  dstContext : TraversalContext
  srcNextEntry : TraversalEntry
  dstNextEntry : TraversalEntry
  curSrcBlockAddr : Nat
  curDstBlockAddr : Nat
  curSrcSize : Nat
  curDstSize : Nat
  curSrcAddr : Nat
  curDstAddr : Nat
  curMinSize : Nat
  ofs : Nat
  moved : List Transfer
deriving DecidableEq, Repr

/-- The bytes that `memcpy` of `n` bytes moves. -/
def heapRun (dst src n : Nat) : List Transfer :=
  (List.range n).map fun i => ⟨.linear (dst + i), .linear (src + i)⟩

/-- The outcome of advancing one traversal in an iteration. -/
structure HeapAdvance where
  context : TraversalContext
  entry : TraversalEntry
  updated : Bool
deriving DecidableEq, Repr

/-- Continue a traversal if the copied part ends at `stop`. -/
def advanceHeapTraversal (t : PageTable) (context : TraversalContext) (entry : TraversalEntry)
    (curAddr curMinSize stop : Nat) : HeapAdvance :=
  if (curAddr + curMinSize) % 2 ^ 64 = stop then
    let next := t.continueTraversal context
    ⟨next.context, next.entry, decide ((curAddr + curMinSize) % 2 ^ 64 ≠ next.entry.physAddr)⟩
  else ⟨context, entry, false⟩

/-- `cur_block_addr - cur_addr + cur_size` on 64-bit values. -/
def remainingInBlock (blockAddr addr size : Nat) : Nat :=
  (blockAddr + (2 ^ 64 - addr) + size) % 2 ^ 64

/-- The end of an iteration: `cur_src_size`, `cur_dst_size` and `cur_min_size`. -/
def HeapCopyState.updateMinSize (s : HeapCopyState) : HeapCopyState :=
  { s with
    curSrcSize := s.srcNextEntry.blockSize
    curDstSize := s.dstNextEntry.blockSize
    curMinSize := min
      (remainingInBlock s.curSrcBlockAddr s.curSrcAddr s.srcNextEntry.blockSize)
      (remainingInBlock s.curDstBlockAddr s.curDstAddr s.dstNextEntry.blockSize) }

/-- The variables after `memcpy` in an iteration that does not skip the copy. -/
def HeapCopyState.copied (s : HeapCopyState) (curCopySize : Nat) (updatedSrc updatedDst : Bool) :
    HeapCopyState :=
  { s with
    moved := s.moved ++ heapRun s.curDstAddr s.curSrcAddr curCopySize
    curSrcBlockAddr := s.srcNextEntry.physAddr
    curSrcAddr :=
      if updatedSrc then s.srcNextEntry.physAddr else (s.curSrcAddr + curCopySize) % 2 ^ 64
    curDstBlockAddr := s.dstNextEntry.physAddr
    curDstAddr :=
      if updatedDst then s.dstNextEntry.physAddr else (s.curDstAddr + curCopySize) % 2 ^ 64
    ofs := s.ofs + curCopySize }

/-- The copy of an iteration that does not skip it. -/
def HeapCopyState.copy (isHeap : Nat → Bool) (s : HeapCopyState) (curCopySize : Nat)
    (updatedSrc updatedDst : Bool) : Except PageTableError HeapCopyState :=
  if !isHeap s.curSrcAddr then .error .invalidCurrentMemory
  else if !isHeap s.curDstAddr then .error .invalidCurrentMemory
  else .ok (s.copied curCopySize updatedSrc updatedDst)

/-- The source traversal of an iteration that does not end the copy. -/
def HeapCopyState.advanceSrc (src : PageTable) (s : HeapCopyState) : HeapAdvance :=
  advanceHeapTraversal src s.srcContext s.srcNextEntry s.curSrcAddr s.curMinSize
    ((s.curSrcBlockAddr + s.curSrcSize) % 2 ^ 64)

/-- The destination traversal. It looks at the next entry where the source looks at the block. -/
def HeapCopyState.advanceDst (dst : PageTable) (s : HeapCopyState) : HeapAdvance :=
  advanceHeapTraversal dst s.dstContext s.dstNextEntry s.curDstAddr s.curMinSize
    ((s.dstNextEntry.physAddr + s.dstNextEntry.blockSize) % 2 ^ 64)

/-- The variables after both traversals. -/
def HeapCopyState.withAdvances (s : HeapCopyState) (a b : HeapAdvance) : HeapCopyState :=
  { s with
    srcContext := a.context
    srcNextEntry := a.entry
    dstContext := b.context
    dstNextEntry := b.entry }

/-- An iteration that skips the copy only updates the source block address. -/
def HeapCopyState.skipCopy (s : HeapCopyState) : HeapCopyState :=
  { s with curSrcBlockAddr := s.srcNextEntry.physAddr }

/-- One iteration of the loop. -/
def heapCopyStep (isHeap : Nat → Bool) (src dst : PageTable) (size : Nat) (s : HeapCopyState) :
    Except PageTableError HeapCopyState :=
  let curCopySize := min s.curMinSize (size - s.ofs)
  if s.ofs + curCopySize ≠ size then
    let a := s.advanceSrc src
    let b := s.advanceDst dst
    if !a.updated && !b.updated then .ok (s.withAdvances a b).skipCopy.updateMinSize
    else
      ((s.withAdvances a b).copy isHeap curCopySize a.updated b.updated).map
        HeapCopyState.updateMinSize
  else (s.copy isHeap curCopySize false false).map HeapCopyState.updateMinSize

/-- `while (ofs < size)`, at most `fuel` times. -/
def heapCopyLoop (isHeap : Nat → Bool) (src dst : PageTable) (size : Nat) :
    Nat → HeapCopyState → Except PageTableError HeapCopyState
  | 0, s => if s.ofs < size then .error (.fault .outOfFuel) else .ok s
  | fuel + 1, s =>
    if s.ofs < size then
      heapCopyStep isHeap src dst size s >>= heapCopyLoop isHeap src dst size fuel
    else .ok s

/-- The local variables before the loop. -/
def heapCopyStart (src dst : PageTable) (srcAddr dstAddr : Nat) : HeapCopyState :=
  let s := src.beginTraversal srcAddr
  let d := dst.beginTraversal dstAddr
  let srcSize := s.entry.blockSize - (s.entry.physAddr &&& (s.entry.blockSize - 1))
  let dstSize := d.entry.blockSize - (d.entry.physAddr &&& (d.entry.blockSize - 1))
  { srcContext := s.context
    dstContext := d.context
    srcNextEntry := { s.entry with blockSize := srcSize }
    dstNextEntry := { d.entry with blockSize := dstSize }
    curSrcBlockAddr := s.entry.physAddr
    curDstBlockAddr := d.entry.physAddr
    curSrcSize := srcSize
    curDstSize := dstSize
    curSrcAddr := s.entry.physAddr
    curDstAddr := d.entry.physAddr
    curMinSize := min srcSize dstSize
    ofs := 0
    moved := [] }

/-- The body that both copies share, after the checks. -/
def copyHeapRange (isHeap : Nat → Bool) (src dst : PageTable) (dstAddr size srcAddr fuel : Nat) :
    Except PageTableError (List Transfer) :=
  if size = 0 then .ok []
  else do
    let s ← heapCopyLoop isHeap src dst size fuel (heapCopyStart src dst srcAddr dstAddr)
    pure s.moved

/-- The state arguments of one side of a copy. -/
structure CopyState where
  stateMask : KMemoryState
  state : KMemoryState
  testPerm : KMemoryPermission
  attrMask : KMemoryAttribute
  attr : KMemoryAttribute

/-- The call of `CheckMemoryStateContiguous` for one side. -/
def KPageTableBase.checkCopyState (pt : KPageTableBase) (address size : Nat) (c : CopyState) :
    Except PageTableError Unit := do
  let _ ← pt.checkMemoryStateContiguous address size
    ⟨c.stateMask, c.state, c.testPerm, c.testPerm, c.attrMask ||| KMemoryAttribute.uncached, c.attr⟩
  pure ()

/-- `CopyMemoryFromHeapToHeap`, with at most `fuel` iterations. -/
def KPageTableBase.copyMemoryFromHeapToHeap (isHeap : Nat → Bool)
    (srcPageTable dstPageTable : KPageTableBase) (dstAddr size : Nat) (dstState : CopyState)
    (srcAddr : Nat) (srcState : CopyState) (fuel : Nat) :
    Except PageTableError (List Transfer) := do
  if !srcPageTable.contains srcAddr size then throw .invalidCurrentMemory
  if !dstPageTable.contains dstAddr size then throw .invalidCurrentMemory
  srcPageTable.checkCopyState srcAddr size srcState
  dstPageTable.checkCopyState dstAddr size dstState
  copyHeapRange isHeap srcPageTable.impl dstPageTable.impl dstAddr size srcAddr fuel

/-- `CopyMemoryFromHeapToHeapWithoutCheckDestination`, with at most `fuel` iterations. Its state
arguments for the destination are not used. -/
def KPageTableBase.copyMemoryFromHeapToHeapWithoutCheckDestination (isHeap : Nat → Bool)
    (srcPageTable dstPageTable : KPageTableBase) (dstAddr size srcAddr : Nat)
    (srcState : CopyState) (fuel : Nat) : Except PageTableError (List Transfer) := do
  if !srcPageTable.contains srcAddr size then throw .invalidCurrentMemory
  if !dstPageTable.contains dstAddr size then throw .invalidCurrentMemory
  srcPageTable.checkCopyState srcAddr size srcState
  copyHeapRange isHeap srcPageTable.impl dstPageTable.impl dstAddr size srcAddr fuel

/-- The bytes of two virtual ranges, in order. -/
def exactHeapTransfers (src dst : PageTable) (srcAddr dstAddr size : Nat) : List Transfer :=
  (List.range size).map fun i =>
    ⟨.linear (dst.getPhysicalAddress (dstAddr + i)), .linear (src.getPhysicalAddress (srcAddr + i))⟩

section Loop

variable {isHeap : Nat → Bool} {src dst : PageTable} {size : Nat} {s s' : HeapCopyState}

/-! ## The moved bytes only grow -/

variable {srcOffset dstOffset offset : Nat} {t : PageTable} {c : TraversalContext}
  {e : TraversalEntry}

theorem HeapCopyState.copy_eq (s : HeapCopyState) (n : Nat) (us ud : Bool) :
    s.copy isHeap n us ud =
      if isHeap s.curSrcAddr ∧ isHeap s.curDstAddr then .ok (s.copied n us ud)
      else .error .invalidCurrentMemory := by
  rw [copy]
  cases isHeap s.curSrcAddr <;> cases isHeap s.curDstAddr <;> rfl

theorem HeapCopyState.copy_eq_ok {n : Nat} {us ud : Bool} (h : s.copy isHeap n us ud = .ok s') :
    s' = s.copied n us ud := by
  rw [copy_eq] at h
  split at h
  · cases h
    rfl
  · cases h

theorem map_eq_ok {α β : Type} {f : α → β} {x : Except PageTableError α} {b : β}
    (h : x.map f = .ok b) : ∃ a, x = .ok a ∧ b = f a := by
  cases x with
  | error e => cases h
  | ok a =>
    cases h
    exact ⟨a, rfl, rfl⟩

/-- What an iteration moves: nothing, or a run at the current addresses. -/
theorem heapCopyStep_moved (h : heapCopyStep isHeap src dst size s = .ok s') :
    s'.moved = s.moved ∨ s'.moved = s.moved ++
        heapRun s.curDstAddr s.curSrcAddr (min s.curMinSize (size - s.ofs)) := by
  simp only [heapCopyStep] at h
  split at h
  · split at h
    · cases h
      exact .inl rfl
    · obtain ⟨s₁, h₁, rfl⟩ := map_eq_ok h
      rw [HeapCopyState.copy_eq_ok h₁]
      exact .inr rfl
  · obtain ⟨s₁, h₁, rfl⟩ := map_eq_ok h
    rw [HeapCopyState.copy_eq_ok h₁]
    exact .inr rfl

theorem heapCopyLoop_done (fuel : Nat) (h : size ≤ s.ofs) :
    heapCopyLoop isHeap src dst size fuel s = .ok s := by
  cases fuel with
  | zero => rw [heapCopyLoop, if_neg (by omega)]
  | succ fuel => rw [heapCopyLoop, if_neg (by omega)]

theorem heapCopyLoop_isPrefix {fuel : Nat}
    (h : heapCopyLoop isHeap src dst size fuel s = .ok s') : s.moved <+: s'.moved := by
  induction fuel generalizing s with
  | zero =>
    rw [heapCopyLoop] at h
    split at h
    · cases h
    · cases h
      exact prefix_refl _
  | succ fuel ih =>
    rw [heapCopyLoop] at h
    split at h
    · obtain ⟨s₁, hstep, hrest⟩ := bind_eq_ok.mp h
      refine List.IsPrefix.trans ?_ (ih hrest)
      rcases heapCopyStep_moved hstep with hm | hm
      · rw [hm]
      · rw [hm]
        exact prefix_append _ _
    · cases h
      exact prefix_refl _

/-! ## Before the next copy

Until an iteration copies, the current addresses stay where they are and the smaller of the two
remaining sizes stays positive. A copy that starts from wrong addresses therefore moves a wrong
byte, whatever the traversals do. -/

/-- The context of a traversal that started at offset `offset` in its first page. -/
def TraversalContext.StartedAt (offset : Nat) (c : TraversalContext) : Prop :=
  c.nextOffset = c.nextPage * pageSize + offset

/-- An entry that a traversal can have reported. -/
structure TraversalEntry.Bounded (e : TraversalEntry) : Prop where
  addr : e.physAddr + pageSize < 2 ^ 64
  size : e.blockSize ≤ pageSize

theorem PageTable.WellFormed.continueTraversal_bounded (hwf : t.WellFormed)
    (hoff : offset < pageSize) (hc : c.StartedAt offset) :
    (t.continueTraversal c).entry.Bounded ∧ (t.continueTraversal c).entry.blockSize = pageSize ∧
      (t.continueTraversal c).context.StartedAt offset := by
  obtain ⟨page, nextOffset⟩ := c
  obtain rfl : nextOffset = page * pageSize + offset := hc
  have hnext : page * pageSize + offset + pageSize = (page + 1) * pageSize + offset := by
    rw [add_mul, one_mul]
    omega
  by_cases hm : t.mapped page = true
  · rw [hwf.continueTraversal_entry hm hoff]
    refine ⟨⟨?_, le_refl _⟩, rfl, rfl⟩
    have hal := hwf.pageSize_dvd_frame page
    have hroom := hwf.room page hm
    simp only [PageTable.traversedAddress]
    split
    · decide
    · simp only [pageSize] at *
      omega
  · have hzero := hwf.cleared page (Bool.eq_false_iff.mpr hm)
    rw [PageTable.continueTraversal, if_pos (.inr hzero)]
    exact ⟨⟨by show 0 + pageSize < 2 ^ 64; decide, le_refl _⟩, rfl, hnext⟩

/-- What advancing a traversal in an iteration does: the part copied reaches up to `reached`, and the
traversal goes on if that is `stop`. -/
structure HeapAdvance.Outcome (a : HeapAdvance) (offset : Nat) (e : TraversalEntry)
    (reached stop : Nat) : Prop where
  entry : a.entry.Bounded
  context : a.context.StartedAt offset
  cases : reached = stop ∧ a.entry.blockSize = pageSize ∧
      (a.updated = false → a.entry.physAddr = reached) ∨
    reached ≠ stop ∧ a.entry = e ∧ a.updated = false

theorem advanceHeapTraversal_of_ne {cur m stop : Nat} (h : (cur + m) % 2 ^ 64 ≠ stop) :
    advanceHeapTraversal t c e cur m stop = ⟨c, e, false⟩ := if_neg h

theorem advanceHeapTraversal_outcome (hwf : t.WellFormed)
    (hoff : offset < pageSize) (hc : c.StartedAt offset) (he : e.Bounded) (cur m stop : Nat) :
    (advanceHeapTraversal t c e cur m stop).Outcome offset e ((cur + m) % 2 ^ 64) stop := by
  obtain ⟨hb, hsize, hnext⟩ := hwf.continueTraversal_bounded hoff hc
  rw [advanceHeapTraversal]
  split
  · rename_i hstop
    refine ⟨hb, hnext, .inl ⟨hstop, hsize, fun hupd => ?_⟩⟩
    exact (not_not.mp (of_decide_eq_false hupd)).symm
  · rename_i hstop
    exact ⟨he, hc, .inr ⟨hstop, rfl, rfl⟩⟩

/-- The variables between two iterations, as far as they bound the size of the next copy. -/
structure Tame (srcOffset dstOffset : Nat) (s : HeapCopyState) : Prop where
  srcContext : s.srcContext.StartedAt srcOffset
  dstContext : s.dstContext.StartedAt dstOffset
  srcEntry : s.srcNextEntry.Bounded
  dstEntry : s.dstNextEntry.Bounded
  srcBlock : s.curSrcBlockAddr = s.srcNextEntry.physAddr
  srcSize : s.curSrcSize = s.srcNextEntry.blockSize
  dstBlock : s.curDstBlockAddr + pageSize < 2 ^ 64
  dstBlock_le : s.curDstBlockAddr ≤ s.curDstAddr
  srcAhead : s.curSrcAddr < s.curSrcBlockAddr + s.srcNextEntry.blockSize
  dstAhead : s.curDstAddr < s.curDstBlockAddr + s.dstNextEntry.blockSize
  minSize : s.curMinSize = min (s.curSrcBlockAddr + s.srcNextEntry.blockSize - s.curSrcAddr)
      (s.curDstBlockAddr + s.dstNextEntry.blockSize - s.curDstAddr)

theorem remainingInBlock_eq {blockAddr addr n : Nat} (h : addr < blockAddr + n)
    (hend : blockAddr + n < 2 ^ 64) : remainingInBlock blockAddr addr n = blockAddr + n - addr := by
  rw [remainingInBlock]
  omega

theorem Tame.advanceSrc_outcome (hsrc : src.WellFormed)
    (hso : srcOffset < pageSize) (h : Tame srcOffset dstOffset s) :
    (s.advanceSrc src).Outcome srcOffset s.srcNextEntry (s.curSrcAddr + s.curMinSize)
      (s.curSrcBlockAddr + s.srcNextEntry.blockSize) := by
  have hout : (s.advanceSrc src).Outcome srcOffset s.srcNextEntry
      ((s.curSrcAddr + s.curMinSize) % 2 ^ 64) ((s.curSrcBlockAddr + s.curSrcSize) % 2 ^ 64) :=
    advanceHeapTraversal_outcome hsrc hso h.srcContext h.srcEntry _ _ _
  have hmin := h.minSize
  have hahead := h.srcAhead
  have haddr := h.srcEntry.addr
  have hsize := h.srcEntry.size
  have hblk := h.srcBlock
  rwa [h.srcSize, mod_eq_of_lt (by omega), mod_eq_of_lt (by omega)] at hout

theorem Tame.advanceDst_outcome (hdst : dst.WellFormed)
    (hdo : dstOffset < pageSize) (h : Tame srcOffset dstOffset s) :
    (s.advanceDst dst).Outcome dstOffset s.dstNextEntry (s.curDstAddr + s.curMinSize)
      (s.dstNextEntry.physAddr + s.dstNextEntry.blockSize) := by
  have hout : (s.advanceDst dst).Outcome dstOffset s.dstNextEntry
      ((s.curDstAddr + s.curMinSize) % 2 ^ 64)
      ((s.dstNextEntry.physAddr + s.dstNextEntry.blockSize) % 2 ^ 64) :=
    advanceHeapTraversal_outcome hdst hdo h.dstContext h.dstEntry _ _ _
  have hmin := h.minSize
  have hahead := h.dstAhead
  have haddr := h.dstEntry.addr
  have hsize := h.dstEntry.size
  have hblk := h.dstBlock
  rwa [mod_eq_of_lt (by omega), mod_eq_of_lt (by omega)] at hout

/-- After an iteration that skips the copy the variables are tame and the addresses unchanged. -/
theorem Tame.skip (hsrc : src.WellFormed) (hdst : dst.WellFormed)
    (hso : srcOffset < pageSize) (hdo : dstOffset < pageSize) (h : Tame srcOffset dstOffset s)
    (hua : (s.advanceSrc src).updated = false) :
    Tame srcOffset dstOffset
      (s.withAdvances (s.advanceSrc src) (s.advanceDst dst)).skipCopy.updateMinSize := by
  obtain ⟨habound, hactx, hacases⟩ := h.advanceSrc_outcome hsrc hso
  obtain ⟨hbbound, hbctx, hbcases⟩ := h.advanceDst_outcome hdst hdo
  generalize s.advanceSrc src = a at *
  generalize s.advanceDst dst = b at *
  have hmin := h.minSize
  have hsa := h.srcAhead
  have hda := h.dstAhead
  have hblk := h.srcBlock
  have hes := h.srcEntry
  have hed := h.dstEntry
  have hle := h.dstBlock_le
  have hdb := h.dstBlock
  have hpos := pageSize_pos
  have hds := hed.size
  have habound' := habound.addr
  have hasize := habound.size
  have hbsize := hbbound.size
  have hsrcAhead : s.curSrcAddr < a.entry.physAddr + a.entry.blockSize := by
    rcases hacases with ⟨-, hsize, hphys⟩ | ⟨-, hentry, -⟩
    · -- a traversed source continues where the copied part would end
      rw [hphys hua, hsize]
      omega
    · rw [hentry]
      omega
  have hdstAhead : s.curDstAddr < s.curDstBlockAddr + b.entry.blockSize := by
    rcases hbcases with ⟨-, hsize, -⟩ | ⟨-, hentry, -⟩
    · omega
    · rw [hentry]
      exact hda
  constructor
  case srcContext => exact hactx
  case dstContext => exact hbctx
  case srcEntry => exact habound
  case dstEntry => exact hbbound
  case srcBlock => rfl
  case srcSize => rfl
  case dstBlock => exact hdb
  case dstBlock_le => exact hle
  case srcAhead => exact hsrcAhead
  case dstAhead => exact hdstAhead
  case minSize =>
    simp only [HeapCopyState.updateMinSize, HeapCopyState.skipCopy, HeapCopyState.withAdvances]
    rw [remainingInBlock_eq hsrcAhead (by omega), remainingInBlock_eq hdstAhead (by omega)]

theorem Tame.minSize_pos (h : Tame srcOffset dstOffset s) : 0 < s.curMinSize := by
  have hsa := h.srcAhead
  have hda := h.dstAhead
  rw [h.minSize]
  omega

/-- From a tame state, the next byte moved is the one at the current addresses. -/
theorem Tame.loop_moves (hsrc : src.WellFormed) (hdst : dst.WellFormed) (hso : srcOffset < pageSize)
    (hdo : dstOffset < pageSize) {fuel : Nat} (h : Tame srcOffset dstOffset s) (hlt : s.ofs < size)
    (hloop : heapCopyLoop isHeap src dst size fuel s = .ok s') :
    s.moved ++ [⟨.linear s.curDstAddr, .linear s.curSrcAddr⟩] <+: s'.moved := by
  induction fuel generalizing s with
  | zero =>
    rw [heapCopyLoop, if_pos hlt] at hloop
    cases hloop
  | succ fuel ih =>
    rw [heapCopyLoop, if_pos hlt] at hloop
    obtain ⟨s₁, hstep, hrest⟩ := bind_eq_ok.mp hloop
    have hpos := h.minSize_pos
    have hcopied : s₁.moved = s.moved ++
        heapRun s.curDstAddr s.curSrcAddr (min s.curMinSize (size - s.ofs)) →
        s.moved ++ [⟨.linear s.curDstAddr, .linear s.curSrcAddr⟩] <+: s'.moved := by
      intro hm
      refine List.IsPrefix.trans ?_ (heapCopyLoop_isPrefix hrest)
      obtain ⟨n, hn⟩ : ∃ n, min s.curMinSize (size - s.ofs) = n + 1 :=
        exists_eq_add_one.mpr (by omega)
      rw [hm, hn, heapRun, range_succ_eq_map, map_cons, prefix_append_right_inj]
      exact ⟨_, rfl⟩
    simp only [heapCopyStep] at hstep
    split at hstep
    · split at hstep
      · rename_i hupd
        rw [Bool.and_eq_true, Bool.not_eq_true', Bool.not_eq_true'] at hupd
        cases hstep
        have hnext := ih (h.skip hsrc hdst hso hdo hupd.1) hlt hrest
        exact hnext
      · obtain ⟨s₂, h₂, rfl⟩ := map_eq_ok hstep
        rw [HeapCopyState.copy_eq_ok h₂] at hcopied
        exact hcopied rfl
    · obtain ⟨s₂, h₂, rfl⟩ := map_eq_ok hstep
      rw [HeapCopyState.copy_eq_ok h₂] at hcopied
      exact hcopied rfl

/-- The address of one side after an iteration that copies lies in the block of that side. -/
theorem HeapAdvance.Outcome.address {a : HeapAdvance}
    {cur m : Nat} (h : a.Outcome offset e (cur + m) (e.physAddr + e.blockSize))
    (hcur : e.physAddr ≤ cur) (hm : cur + m ≤ e.physAddr + e.blockSize) (he : e.Bounded) :
    let addr := if a.updated then a.entry.physAddr else (cur + m) % 2 ^ 64
    a.entry.physAddr ≤ addr ∧ addr < a.entry.physAddr + a.entry.blockSize := by
  have haddr := he.addr
  have hsize := he.size
  have hpos := pageSize_pos
  have hmod : (cur + m) % 2 ^ 64 = cur + m := mod_eq_of_lt (by omega)
  rw [hmod]
  rcases h.cases with ⟨-, hblock, hphys⟩ | ⟨hne, hentry, hupd⟩
  · cases hupd : a.updated with
    | true =>
      simp only [if_true]
      omega
    | false =>
      have := hphys hupd
      simp only [Bool.false_eq_true, if_false]
      omega
  · rw [hupd, hentry]
    simp only [Bool.false_eq_true, if_false]
    omega

/-- The first copy of a range leaves the variables tame. -/
theorem Tame.copy (hsrc : src.WellFormed) (hdst : dst.WellFormed)
    (hso : srcOffset < pageSize) (hdo : dstOffset < pageSize) (h : Tame srcOffset dstOffset s)
    (hsrcAddr : s.srcNextEntry.physAddr ≤ s.curSrcAddr)
    (hdstBlock : s.curDstBlockAddr = s.dstNextEntry.physAddr)
    (hcopy : (s.withAdvances (s.advanceSrc src) (s.advanceDst dst)).copy isHeap s.curMinSize
      (s.advanceSrc src).updated (s.advanceDst dst).updated = .ok s') :
    Tame srcOffset dstOffset s'.updateMinSize := by
  have hblk := h.srcBlock
  have hmin := h.minSize
  have hsa := h.srcAhead
  have hda := h.dstAhead
  have hle := h.dstBlock_le
  have ha := h.advanceSrc_outcome hsrc hso
  have hb := h.advanceDst_outcome hdst hdo
  rw [hblk] at ha
  have hasrc := ha.address hsrcAddr (by omega) h.srcEntry
  have hbdst := hb.address (by omega) (by omega) h.dstEntry
  have habound := ha.entry.addr
  have hasize := ha.entry.size
  have hbbound := hb.entry.addr
  have hbsize := hb.entry.size
  have hactx := ha.context
  have hbctx := hb.context
  have haentry := ha.entry
  have hbentry := hb.entry
  rw [HeapCopyState.copy_eq_ok hcopy]
  generalize s.advanceSrc src = a at *
  generalize s.advanceDst dst = b at *
  constructor
  case srcContext => exact hactx
  case dstContext => exact hbctx
  case srcEntry => exact haentry
  case dstEntry => exact hbentry
  case srcBlock => rfl
  case srcSize => rfl
  case dstBlock => exact hbbound
  case dstBlock_le => exact hbdst.1
  case srcAhead => exact hasrc.2
  case dstAhead => exact hbdst.2
  case minSize =>
    simp only [HeapCopyState.updateMinSize, HeapCopyState.copied, HeapCopyState.withAdvances]
    rw [remainingInBlock_eq hasrc.2 (by omega), remainingInBlock_eq hbdst.2 (by omega)]

end Loop

/-! ## The first iteration -/

section Start

variable {isHeap : Nat → Bool} {src dst : PageTable} {srcAddr dstAddr size : Nat}
variable {s' : HeapCopyState} {fuel : Nat}

theorem heapCopyStart_eq (hsrc : src.WellFormed) (hdst : dst.WellFormed)
    (hms : src.mapped (srcAddr / pageSize) = true) (hmd : dst.mapped (dstAddr / pageSize) = true) :
    heapCopyStart src dst srcAddr dstAddr =
      { srcContext := ⟨srcAddr / pageSize + 1,
          (srcAddr / pageSize + 1) * pageSize + srcAddr % pageSize⟩
        dstContext := ⟨dstAddr / pageSize + 1,
          (dstAddr / pageSize + 1) * pageSize + dstAddr % pageSize⟩
        srcNextEntry := ⟨src.traversedAddress (srcAddr / pageSize) (srcAddr % pageSize),
          headSize src srcAddr⟩
        dstNextEntry := ⟨dst.traversedAddress (dstAddr / pageSize) (dstAddr % pageSize),
          headSize dst dstAddr⟩
        curSrcBlockAddr := src.traversedAddress (srcAddr / pageSize) (srcAddr % pageSize)
        curDstBlockAddr := dst.traversedAddress (dstAddr / pageSize) (dstAddr % pageSize)
        curSrcSize := headSize src srcAddr
        curDstSize := headSize dst dstAddr
        curSrcAddr := src.traversedAddress (srcAddr / pageSize) (srcAddr % pageSize)
        curDstAddr := dst.traversedAddress (dstAddr / pageSize) (dstAddr % pageSize)
        curMinSize := min (headSize src srcAddr) (headSize dst dstAddr)
        ofs := 0
        moved := [] } := by
  have hhead : ∀ (t : PageTable) (address : Nat),
      pageSize - (t.traversedAddress (address / pageSize) (address % pageSize) &&& (pageSize - 1)) =
        headSize t address := fun _ _ => pageSize_sub_and _
  simp only [heapCopyStart, hsrc.beginTraversal_entry hms, hdst.beginTraversal_entry hmd, hhead]

theorem traversedAddress_bounded {t : PageTable} (hwf : t.WellFormed) {page offset : Nat}
    (hm : t.mapped page = true) (hoff : offset < pageSize) :
    t.traversedAddress page offset + pageSize < 2 ^ 64 := by
  have hb := (hwf.continueTraversal_bounded hoff (c := ⟨page, page * pageSize + offset⟩) rfl).1.addr
  rwa [hwf.continueTraversal_entry hm hoff] at hb

theorem heapCopyStart_tame (hsrc : src.WellFormed) (hdst : dst.WellFormed)
    (hms : src.mapped (srcAddr / pageSize) = true) (hmd : dst.mapped (dstAddr / pageSize) = true) :
    Tame (srcAddr % pageSize) (dstAddr % pageSize) (heapCopyStart src dst srcAddr dstAddr) := by
  have hso := mod_lt srcAddr pageSize_pos
  have hdo := mod_lt dstAddr pageSize_pos
  have hsb := traversedAddress_bounded hsrc hms hso
  have hdb := traversedAddress_bounded hdst hmd hdo
  have hsp := headSize_pos src srcAddr
  have hdp := headSize_pos dst dstAddr
  rw [heapCopyStart_eq hsrc hdst hms hmd]
  constructor
  case srcContext => rfl
  case dstContext => rfl
  case srcEntry => exact ⟨hsb, headSize_le _ _⟩
  case dstEntry => exact ⟨hdb, headSize_le _ _⟩
  case srcBlock => rfl
  case srcSize => rfl
  case dstBlock => exact hdb
  case dstBlock_le => exact le_refl _
  case srcAhead => exact Nat.lt_add_of_pos_right hsp
  case dstAhead => exact Nat.lt_add_of_pos_right hdp
  case minSize => simp only [Nat.add_sub_cancel_left]

theorem length_heapRun (a b n : Nat) : (heapRun a b n).length = n := by
  rw [heapRun, length_map, length_range]

/-- If a copy from a tame state ends up exact, its current addresses are the right ones. -/
theorem Tame.addresses_eq {srcOffset dstOffset : Nat} (hsrc : src.WellFormed)
    (hdst : dst.WellFormed) (hso : srcOffset < pageSize) (hdo : dstOffset < pageSize)
    {s : HeapCopyState} (h : Tame srcOffset dstOffset s) (hlen : s.moved.length = s.ofs)
    (hlt : s.ofs < size) (hloop : heapCopyLoop isHeap src dst size fuel s = .ok s')
    (hexact : s'.moved = exactHeapTransfers src dst srcAddr dstAddr size) :
    s.curSrcAddr = src.getPhysicalAddress (srcAddr + s.ofs) ∧
      s.curDstAddr = dst.getPhysicalAddress (dstAddr + s.ofs) := by
  obtain ⟨rest, hrest⟩ := h.loop_moves hsrc hdst hso hdo hlt hloop
  have hget := congrArg (fun l => l[s.ofs]?) hrest
  simp only [hexact, exactHeapTransfers, ← hlen, append_assoc, getElem?_append_right, le_refl,
    Nat.sub_self, singleton_append, getElem?_cons_zero, getElem?_map, getElem?_range (hlen ▸ hlt),
    Option.map_some, Option.some.injEq, Transfer.mk.injEq, CopyByte.linear.injEq] at hget
  rw [← hlen]
  exact ⟨hget.2, hget.1⟩

/-- The traversal of a range that does not start at a page boundary finds a wrong address for the
second page, and one that does not continue the first page. -/
theorem advanceHeapTraversal_second {t : PageTable} {address : Nat} (hwf : t.WellFormed)
    (hm : t.mapped (address / pageSize) = true) (hid : ¬t.IdentityMapped (address / pageSize))
    (hm' : t.mapped (address / pageSize + 1) = true) (hoff : address % pageSize ≠ 0)
    (e : TraversalEntry) {stop : Nat}
    (hstop : (t.traversedAddress (address / pageSize) (address % pageSize) +
      headSize t address) % 2 ^ 64 = stop) :
    let a := advanceHeapTraversal t ⟨address / pageSize + 1,
        (address / pageSize + 1) * pageSize + address % pageSize⟩ e
      (t.traversedAddress (address / pageSize) (address % pageSize)) (headSize t address) stop
    a.updated = true ∧ a.entry.physAddr ≠ t.getPhysicalAddress (address + headSize t address) := by
  have hlt := mod_lt address pageSize_pos
  have hal := hwf.pageSize_dvd_frame (address / pageSize)
  have hal' := hwf.pageSize_dvd_frame (address / pageSize + 1)
  have hroom := hwf.room _ hm
  have hdram := hwf.inDram _ hm'
  have hhead := headSize_eq hwf hm hid
  have hnext : t.getPhysicalAddress (address + headSize t address) =
      t.frame (address / pageSize + 1) := by
    have hlater := @getPhysicalAddress_later t address hwf 0 0 pageSize_pos
    simpa only [hhead, zero_mul, add_zero] using hlater
  have hend : (t.traversedAddress (address / pageSize) (address % pageSize) +
      headSize t address) % 2 ^ 64 = t.frame (address / pageSize) + pageSize := by
    rw [hwf.traversedAddress_eq hm hid, hhead]
    omega
  rw [hend] at hstop
  simp only [advanceHeapTraversal, hend, hstop, if_true, hwf.continueTraversal_entry hm' hlt, hnext,
    decide_eq_true_eq]
  rw [← hstop]
  by_cases hid' : t.IdentityMapped (address / pageSize + 1)
  · rw [hwf.traversedAddress_eq_zero hm' hid']
    simp only [dramBase, pageSize] at *
    omega
  · rw [hwf.traversedAddress_eq hm' hid']
    simp only [pageSize] at *
    omega

/-- An exact copy finds neither first page mapped to its own address. -/
theorem not_identityMapped_of_exact (hsrc : src.WellFormed) (hdst : dst.WellFormed)
    (hms : src.mapped (srcAddr / pageSize) = true)
    (hmd : dst.mapped (dstAddr / pageSize) = true) (hsize : 0 < size)
    (hloop : heapCopyLoop isHeap src dst size fuel (heapCopyStart src dst srcAddr dstAddr) = .ok s')
    (hexact : s'.moved = exactHeapTransfers src dst srcAddr dstAddr size) :
    ¬src.IdentityMapped (srcAddr / pageSize) ∧ ¬dst.IdentityMapped (dstAddr / pageSize) := by
  have hso := mod_lt srcAddr pageSize_pos
  have hdo := mod_lt dstAddr pageSize_pos
  have heq := heapCopyStart_eq hsrc hdst hms hmd
  have hofs : (heapCopyStart src dst srcAddr dstAddr).ofs = 0 := by rw [heq]
  have hmoved : (heapCopyStart src dst srcAddr dstAddr).moved = [] := by rw [heq]
  have haddr := (heapCopyStart_tame hsrc hdst hms hmd).addresses_eq hsrc hdst hso hdo
    (by rw [hofs, hmoved, length_nil]) (by rwa [hofs]) hloop hexact
  simp only [heq, add_zero, hsrc.getPhysicalAddress_eq, hdst.getPhysicalAddress_eq] at haddr
  exact ⟨(hsrc.traversedAddress_eq_iff hms _).mp haddr.1,
    (hdst.traversedAddress_eq_iff hmd _).mp haddr.2⟩

/-- An exact copy that leaves one of its first pages starts at a page boundary on both sides. -/
theorem aligned_of_exact (hsrc : src.WellFormed) (hdst : dst.WellFormed)
    (hrs : src.RangeMapped srcAddr size) (hrd : dst.RangeMapped dstAddr size)
    (hids : ¬src.IdentityMapped (srcAddr / pageSize))
    (hidd : ¬dst.IdentityMapped (dstAddr / pageSize))
    (hcross : min (headSize src srcAddr) (headSize dst dstAddr) < size)
    (hloop : heapCopyLoop isHeap src dst size fuel (heapCopyStart src dst srcAddr dstAddr) = .ok s')
    (hexact : s'.moved = exactHeapTransfers src dst srcAddr dstAddr size) :
    srcAddr % pageSize = 0 ∧ dstAddr % pageSize = 0 := by
  by_contra hnot
  have hsize : 0 < size := by omega
  have hms : src.mapped (srcAddr / pageSize) = true := hrs 0 hsize
  have hmd : dst.mapped (dstAddr / pageSize) = true := hrd 0 hsize
  have hso := mod_lt srcAddr pageSize_pos
  have hdo := mod_lt dstAddr pageSize_pos
  have htame := heapCopyStart_tame hsrc hdst hms hmd
  have heq := heapCopyStart_eq hsrc hdst hms hmd
  have hhs := headSize_eq hsrc hms hids
  have hhd := headSize_eq hdst hmd hidd
  -- the smaller first part ends with a page that does not start at the boundary
  have hside : headSize src srcAddr ≤ headSize dst dstAddr ∧ srcAddr % pageSize ≠ 0 ∨
      headSize dst dstAddr ≤ headSize src srcAddr ∧ dstAddr % pageSize ≠ 0 := by omega
  have hsecond : ∀ {t : PageTable} {address : Nat}, t.WellFormed → t.RangeMapped address size →
      headSize t address < size → t.mapped (address / pageSize + 1) = true := by
    intro t address hwf hr hlt
    have := mapped_of_totSize_lt hwf hr (k := 0) (by omega)
    rwa [add_zero] at this
  generalize hs : heapCopyStart src dst srcAddr dstAddr = s at *
  have hofs : s.ofs = 0 := by rw [heq]
  have hmoved : s.moved = [] := by rw [heq]
  have hmin : s.curMinSize = min (headSize src srcAddr) (headSize dst dstAddr) := by rw [heq]
  have hcopySize : min s.curMinSize (size - s.ofs) = s.curMinSize := by omega
  have hwrong : ((s.advanceSrc src).updated = true ∧ (s.advanceSrc src).entry.physAddr ≠
        src.getPhysicalAddress (srcAddr + s.curMinSize)) ∨
      ((s.advanceDst dst).updated = true ∧ (s.advanceDst dst).entry.physAddr ≠
        dst.getPhysicalAddress (dstAddr + s.curMinSize)) := by
    rcases hside with ⟨hle, hoff⟩ | ⟨hle, hoff⟩
    · left
      rw [min_eq_left hle] at hmin hcross
      rw [HeapCopyState.advanceSrc, hmin, heq]
      exact advanceHeapTraversal_second hsrc hms hids (hsecond hsrc hrs hcross) hoff _ rfl
    · right
      rw [min_eq_right hle] at hmin hcross
      rw [HeapCopyState.advanceDst, hmin, heq]
      exact advanceHeapTraversal_second hdst hmd hidd (hsecond hdst hrd hcross) hoff _ rfl
  have hupd : (!(s.advanceSrc src).updated && !(s.advanceDst dst).updated) = false := by
    rcases hwrong with h | h
    · rw [h.1]
      rfl
    · rw [h.1]
      exact Bool.and_false _
  cases fuel with
  | zero =>
    rw [heapCopyLoop, if_pos (by omega)] at hloop
    cases hloop
  | succ fuel =>
    rw [heapCopyLoop, if_pos (by omega)] at hloop
    obtain ⟨s₁, hstep, hrest⟩ := bind_eq_ok.mp hloop
    simp only [heapCopyStep, hcopySize, hupd] at hstep
    rw [if_pos (by omega), if_neg (by decide)] at hstep
    obtain ⟨s₂, hcopy, rfl⟩ := map_eq_ok hstep
    have htame₂ := htame.copy hsrc hdst hso hdo (by rw [heq]) (by rw [heq]) hcopy
    have hs₂ := HeapCopyState.copy_eq_ok hcopy
    have hofs₂ : s₂.updateMinSize.ofs = s.curMinSize := by
      rw [hs₂]
      simp only [HeapCopyState.updateMinSize, HeapCopyState.copied, HeapCopyState.withAdvances,
        hofs, zero_add]
    have hlen₂ : s₂.updateMinSize.moved.length = s₂.updateMinSize.ofs := by
      rw [hofs₂, hs₂]
      simp only [HeapCopyState.updateMinSize, HeapCopyState.copied, HeapCopyState.withAdvances,
        hmoved, nil_append, length_heapRun]
    have haddr := htame₂.addresses_eq hsrc hdst hso hdo hlen₂ (by omega) hrest hexact
    rw [hofs₂, hs₂] at haddr
    simp only [HeapCopyState.updateMinSize, HeapCopyState.copied,
      HeapCopyState.withAdvances] at haddr
    rcases hwrong with ⟨hu, hne⟩ | ⟨hu, hne⟩
    · rw [if_pos hu] at haddr
      exact hne haddr.1
    · rw [if_pos hu] at haddr
      exact hne haddr.2

end Start

/-! ## Ranges that start at a page boundary -/

section Aligned

variable {isHeap : Nat → Bool} {src dst : PageTable} {srcPage dstPage size k : Nat}

/-- The bytes that a copy of ranges at page boundaries moves, by the addresses that the traversals
report. -/
def traversedTransfers (src dst : PageTable) (srcPage dstPage n : Nat) : List Transfer :=
  (List.range n).map fun i =>
    ⟨.linear (dst.traversedAddress (dstPage + i / pageSize) 0 + i % pageSize),
      .linear (src.traversedAddress (srcPage + i / pageSize) 0 + i % pageSize)⟩

/-- The variables when `k` pages have been copied. -/
def freshState (src dst : PageTable) (srcPage dstPage k : Nat) : HeapCopyState where
  srcContext := ⟨srcPage + k + 1, (srcPage + k + 1) * pageSize⟩
  dstContext := ⟨dstPage + k + 1, (dstPage + k + 1) * pageSize⟩
  srcNextEntry := ⟨src.traversedAddress (srcPage + k) 0, pageSize⟩
  dstNextEntry := ⟨dst.traversedAddress (dstPage + k) 0, pageSize⟩
  curSrcBlockAddr := src.traversedAddress (srcPage + k) 0
  curDstBlockAddr := dst.traversedAddress (dstPage + k) 0
  curSrcSize := pageSize
  curDstSize := pageSize
  curSrcAddr := src.traversedAddress (srcPage + k) 0
  curDstAddr := dst.traversedAddress (dstPage + k) 0
  curMinSize := pageSize
  ofs := k * pageSize
  moved := traversedTransfers src dst srcPage dstPage (k * pageSize)

/-- The variables after an iteration that found page `k` and the next one contiguous on both
sides. -/
def stuckState (src dst : PageTable) (srcPage dstPage k : Nat) : HeapCopyState :=
  { freshState src dst srcPage dstPage k with
    srcContext := ⟨srcPage + k + 2, (srcPage + k + 2) * pageSize⟩
    dstContext := ⟨dstPage + k + 2, (dstPage + k + 2) * pageSize⟩
    srcNextEntry := ⟨src.traversedAddress (srcPage + k + 1) 0, pageSize⟩
    dstNextEntry := ⟨dst.traversedAddress (dstPage + k + 1) 0, pageSize⟩
    curSrcBlockAddr := src.traversedAddress (srcPage + k + 1) 0 }

/-- Page `k` and the next one are contiguous, by the addresses that the traversals report, on both
sides. -/
def TraversedContiguous (src dst : PageTable) (srcPage dstPage k : Nat) : Prop :=
  src.traversedAddress (srcPage + k) 0 + pageSize = src.traversedAddress (srcPage + k + 1) 0 ∧
    dst.traversedAddress (dstPage + k) 0 + pageSize = dst.traversedAddress (dstPage + k + 1) 0

instance (src dst : PageTable) (srcPage dstPage k : Nat) :
    Decidable (TraversedContiguous src dst srcPage dstPage k) :=
  inferInstanceAs (Decidable (_ ∧ _))

/-- Both ranges of `size` bytes at page boundaries are mapped. -/
structure AlignedRanges (src dst : PageTable) (srcPage dstPage size : Nat) : Prop where
  srcTable : src.WellFormed
  dstTable : dst.WellFormed
  srcMapped : ∀ k, k * pageSize < size → src.mapped (srcPage + k) = true
  dstMapped : ∀ k, k * pageSize < size → dst.mapped (dstPage + k) = true

theorem traversedTransfers_append (k : Nat) {n : Nat} (hn : n ≤ pageSize) :
    traversedTransfers src dst srcPage dstPage (k * pageSize) ++
        heapRun (dst.traversedAddress (dstPage + k) 0) (src.traversedAddress (srcPage + k) 0) n =
      traversedTransfers src dst srcPage dstPage (k * pageSize + n) := by
  rw [traversedTransfers, traversedTransfers, range_add, map_append, map_map, heapRun]
  refine congrArg _ (map_congr_left fun i hi => ?_)
  have hlt : i < pageSize := lt_of_lt_of_le (mem_range.mp hi) hn
  have hdiv : (k * pageSize + i) / pageSize = k := by
    rw [add_comm, add_mul_div_right _ _ pageSize_pos, div_eq_of_lt hlt, zero_add]
  have hmod : (k * pageSize + i) % pageSize = i := by
    rw [add_comm, add_mul_mod_self_right, mod_eq_of_lt hlt]
  rw [Function.comp_apply, hdiv, hmod]

theorem remainingInBlock_self {addr : Nat} (h : addr + pageSize < 2 ^ 64) :
    remainingInBlock addr addr pageSize = pageSize := by
  rw [remainingInBlock_eq (Nat.lt_add_of_pos_right pageSize_pos) h, Nat.add_sub_cancel_left]

/-- Advancing the traversal of one side over page `k`. -/
theorem advanceHeapTraversal_page {t : PageTable} {page : Nat} (hwf : t.WellFormed)
    (hm : t.mapped page = true) (hm' : t.mapped (page + 1) = true) (e : TraversalEntry) :
    advanceHeapTraversal t ⟨page + 1, (page + 1) * pageSize⟩ e (t.traversedAddress page 0) pageSize
        ((t.traversedAddress page 0 + pageSize) % 2 ^ 64) =
      ⟨⟨page + 2, (page + 2) * pageSize⟩, ⟨t.traversedAddress (page + 1) 0, pageSize⟩,
        decide (t.traversedAddress page 0 + pageSize ≠ t.traversedAddress (page + 1) 0)⟩ := by
  have hb := traversedAddress_bounded hwf hm pageSize_pos
  have hentry := hwf.continueTraversal_entry hm' pageSize_pos
  simp only [add_zero] at hentry
  simp only [advanceHeapTraversal, if_true, hentry, mod_eq_of_lt hb]

namespace AlignedRanges

section

variable (h : AlignedRanges src dst srcPage dstPage size) (hlt : (k + 1) * pageSize < size)
include h hlt

theorem advanceSrc_fresh : (freshState src dst srcPage dstPage k).advanceSrc src =
      ⟨⟨srcPage + k + 2, (srcPage + k + 2) * pageSize⟩,
        ⟨src.traversedAddress (srcPage + k + 1) 0, pageSize⟩,
        decide (src.traversedAddress (srcPage + k) 0 + pageSize ≠
          src.traversedAddress (srcPage + k + 1) 0)⟩ := by
  have hk : k * pageSize < size := by
    rw [add_mul] at hlt
    omega
  exact advanceHeapTraversal_page h.srcTable (h.srcMapped k hk) (h.srcMapped (k + 1) hlt) _

theorem advanceDst_fresh : (freshState src dst srcPage dstPage k).advanceDst dst =
      ⟨⟨dstPage + k + 2, (dstPage + k + 2) * pageSize⟩,
        ⟨dst.traversedAddress (dstPage + k + 1) 0, pageSize⟩,
        decide (dst.traversedAddress (dstPage + k) 0 + pageSize ≠
          dst.traversedAddress (dstPage + k + 1) 0)⟩ := by
  have hk : k * pageSize < size := by
    rw [add_mul] at hlt
    omega
  exact advanceHeapTraversal_page h.dstTable (h.dstMapped k hk) (h.dstMapped (k + 1) hlt) _

/-- Two pages contiguous on both sides make the iteration skip its copy. -/
theorem step_stuck (hcont : TraversedContiguous src dst srcPage dstPage k) :
    heapCopyStep isHeap src dst size (freshState src dst srcPage dstPage k) =
      .ok (stuckState src dst srcPage dstPage k) := by
  have hk : k * pageSize + pageSize < size := by rwa [add_mul, one_mul] at hlt
  have hps : src.traversedAddress (srcPage + k + 1) 0 + pageSize < 2 ^ 64 :=
    traversedAddress_bounded h.srcTable (h.srcMapped (k + 1) hlt) pageSize_pos
  have hpd := traversedAddress_bounded h.dstTable (h.dstMapped k (by omega)) pageSize_pos
  have hmin : min (freshState src dst srcPage dstPage k).curMinSize
      (size - (freshState src dst srcPage dstPage k).ofs) = pageSize := by
    simp only [freshState]
    omega
  obtain ⟨hs, hd⟩ := hcont
  have hpos := pageSize_pos
  have hrem : remainingInBlock (src.traversedAddress (srcPage + k + 1) 0)
      (src.traversedAddress (srcPage + k) 0) pageSize = pageSize + pageSize := by
    rw [remainingInBlock_eq (by omega) hps, ← hs]
    omega
  simp only [heapCopyStep, hmin, h.advanceSrc_fresh hlt, h.advanceDst_fresh hlt, hs, hd]
  rw [if_pos (by simp only [freshState]; omega), if_pos (by simp)]
  simp only [HeapCopyState.updateMinSize, HeapCopyState.skipCopy, HeapCopyState.withAdvances,
    freshState, stuckState, hrem, remainingInBlock_self hpd,
    min_eq_right (le_add_left pageSize pageSize)]

/-- From then on every iteration leaves the variables as they are. -/
theorem step_stuckState (hcont : TraversedContiguous src dst srcPage dstPage k) :
    heapCopyStep isHeap src dst size (stuckState src dst srcPage dstPage k) =
      .ok (stuckState src dst srcPage dstPage k) := by
  have hk : k * pageSize + pageSize < size := by rwa [add_mul, one_mul] at hlt
  have hps : src.traversedAddress (srcPage + k + 1) 0 + pageSize < 2 ^ 64 :=
    traversedAddress_bounded h.srcTable (h.srcMapped (k + 1) hlt) pageSize_pos
  have hpd' : dst.traversedAddress (dstPage + k + 1) 0 + pageSize < 2 ^ 64 :=
    traversedAddress_bounded h.dstTable (h.dstMapped (k + 1) hlt) pageSize_pos
  have hpd := traversedAddress_bounded h.dstTable (h.dstMapped k (by omega)) pageSize_pos
  have hmin : min (stuckState src dst srcPage dstPage k).curMinSize
      (size - (stuckState src dst srcPage dstPage k).ofs) = pageSize := by
    simp only [stuckState, freshState]
    omega
  obtain ⟨hs, hd⟩ := hcont
  have hpos := pageSize_pos
  have hrem : remainingInBlock (src.traversedAddress (srcPage + k + 1) 0)
      (src.traversedAddress (srcPage + k) 0) pageSize = pageSize + pageSize := by
    rw [remainingInBlock_eq (by omega) hps, ← hs]
    omega
  -- the part that would be copied ends in front of the block on both sides
  have hsrc : (stuckState src dst srcPage dstPage k).advanceSrc src =
      ⟨⟨srcPage + k + 2, (srcPage + k + 2) * pageSize⟩,
        ⟨src.traversedAddress (srcPage + k + 1) 0, pageSize⟩, false⟩ := by
    refine advanceHeapTraversal_of_ne ?_
    simp only [stuckState, freshState]
    rw [mod_eq_of_lt hps, mod_eq_of_lt (by omega)]
    omega
  have hdst : (stuckState src dst srcPage dstPage k).advanceDst dst =
      ⟨⟨dstPage + k + 2, (dstPage + k + 2) * pageSize⟩,
        ⟨dst.traversedAddress (dstPage + k + 1) 0, pageSize⟩, false⟩ := by
    refine advanceHeapTraversal_of_ne ?_
    simp only [stuckState, freshState]
    rw [mod_eq_of_lt hpd', mod_eq_of_lt hpd]
    omega
  simp only [heapCopyStep, hmin, hsrc, hdst]
  rw [if_pos (by simp only [stuckState, freshState]; omega), if_pos (by decide)]
  simp only [HeapCopyState.updateMinSize, HeapCopyState.skipCopy, HeapCopyState.withAdvances,
    freshState, stuckState, hrem, remainingInBlock_self hpd,
    min_eq_right (le_add_left pageSize pageSize)]

theorem loop_stuckState (hcont : TraversedContiguous src dst srcPage dstPage k) (fuel : Nat) :
    heapCopyLoop isHeap src dst size fuel (stuckState src dst srcPage dstPage k) =
      .error (.fault .outOfFuel) := by
  have hofs : (stuckState src dst srcPage dstPage k).ofs < size := by
    rw [add_mul] at hlt
    simp only [stuckState, freshState]
    omega
  induction fuel with
  | zero => rw [heapCopyLoop, if_pos hofs]
  | succ fuel ih =>
    rw [heapCopyLoop, if_pos hofs, h.step_stuckState hlt hcont, ok_bind, ih]

/-- A copy that has come to two pages contiguous on both sides does not end. -/
theorem loop_contiguous (hcont : TraversedContiguous src dst srcPage dstPage k) (fuel : Nat) :
    heapCopyLoop isHeap src dst size fuel (freshState src dst srcPage dstPage k) =
      .error (.fault .outOfFuel) := by
  have hofs : (freshState src dst srcPage dstPage k).ofs < size := by
    rw [add_mul] at hlt
    simp only [freshState]
    omega
  cases fuel with
  | zero => rw [heapCopyLoop, if_pos hofs]
  | succ fuel =>
    rw [heapCopyLoop, if_pos hofs, h.step_stuck hlt hcont, ok_bind, h.loop_stuckState hlt hcont]

/-- An iteration that copies the whole page `k`. -/
theorem step_fresh (hcont : ¬TraversedContiguous src dst srcPage dstPage k) :
    heapCopyStep isHeap src dst size (freshState src dst srcPage dstPage k) =
      if isHeap (src.traversedAddress (srcPage + k) 0) ∧
          isHeap (dst.traversedAddress (dstPage + k) 0) then
        .ok (freshState src dst srcPage dstPage (k + 1))
      else .error .invalidCurrentMemory := by
  have hk : k * pageSize + pageSize < size := by rwa [add_mul, one_mul] at hlt
  have hps : src.traversedAddress (srcPage + k + 1) 0 + pageSize < 2 ^ 64 :=
    traversedAddress_bounded h.srcTable (h.srcMapped (k + 1) hlt) pageSize_pos
  have hpd : dst.traversedAddress (dstPage + k + 1) 0 + pageSize < 2 ^ 64 :=
    traversedAddress_bounded h.dstTable (h.dstMapped (k + 1) hlt) pageSize_pos
  have hps₀ := traversedAddress_bounded h.srcTable (h.srcMapped k (by omega)) pageSize_pos
  have hpd₀ := traversedAddress_bounded h.dstTable (h.dstMapped k (by omega)) pageSize_pos
  have hmin : min (freshState src dst srcPage dstPage k).curMinSize
      (size - (freshState src dst srcPage dstPage k).ofs) = pageSize := by
    simp only [freshState]
    omega
  -- whether or not a side was updated, its address is that of the next page
  have hnext : ∀ x y : Nat, x < 2 ^ 64 → (if decide (x ≠ y) = true then y else x % 2 ^ 64) = y := by
    intro x y hx
    by_cases hxy : x = y
    · rw [hxy, if_neg (by simp), mod_eq_of_lt (hxy ▸ hx)]
    · rw [if_pos (by simpa using hxy)]
  have hupd : (!decide (src.traversedAddress (srcPage + k) 0 + pageSize ≠
        src.traversedAddress (srcPage + k + 1) 0) &&
      !decide (dst.traversedAddress (dstPage + k) 0 + pageSize ≠
        dst.traversedAddress (dstPage + k + 1) 0)) = false := by
    by_contra hne
    rw [Bool.not_eq_false, Bool.and_eq_true] at hne
    exact hcont (by simpa [TraversedContiguous] using hne)
  have hmoved := @traversedTransfers_append src dst srcPage dstPage k pageSize (le_refl _)
  simp only [heapCopyStep, hmin, h.advanceSrc_fresh hlt, h.advanceDst_fresh hlt, hupd]
  rw [if_pos (by simp only [freshState]; omega), if_neg (by decide)]
  have hsucc : k * pageSize + pageSize = (k + 1) * pageSize := by rw [add_mul, one_mul]
  rw [HeapCopyState.copy_eq]
  split
  · rw [if_pos ‹_›]
    simp only [Except.map, HeapCopyState.updateMinSize, HeapCopyState.copied,
      HeapCopyState.withAdvances, freshState, hnext _ _ hps₀, hnext _ _ hpd₀, hmoved, hsucc,
      remainingInBlock_self hps, remainingInBlock_self hpd, min_self]
    rfl
  · rw [if_neg ‹_›]
    rfl

end

/-- The iteration that ends the copy. -/
theorem step_last (hlt : k * pageSize < size) (hle : size ≤ (k + 1) * pageSize) :
    heapCopyStep isHeap src dst size (freshState src dst srcPage dstPage k) =
      if isHeap (src.traversedAddress (srcPage + k) 0) ∧
          isHeap (dst.traversedAddress (dstPage + k) 0) then
        .ok ((freshState src dst srcPage dstPage k).copied (size - k * pageSize) false
          false).updateMinSize
      else .error .invalidCurrentMemory := by
  have hle' : size ≤ k * pageSize + pageSize := by rwa [add_mul, one_mul] at hle
  have hmin : min (freshState src dst srcPage dstPage k).curMinSize
      (size - (freshState src dst srcPage dstPage k).ofs) = size - k * pageSize := by
    simp only [freshState]
    omega
  simp only [heapCopyStep, hmin]
  rw [if_neg (by simp only [freshState]; omega), HeapCopyState.copy_eq]
  split
  · rw [if_pos ‹_›]
    rfl
  · rw [if_neg ‹_›]
    rfl

theorem copied_last (hlt : k * pageSize < size) (hle : size ≤ (k + 1) * pageSize) :
    ((freshState src dst srcPage dstPage k).copied (size - k * pageSize) false
        false).updateMinSize.ofs = size ∧
      ((freshState src dst srcPage dstPage k).copied (size - k * pageSize) false
        false).updateMinSize.moved = traversedTransfers src dst srcPage dstPage size := by
  have hle' : size ≤ k * pageSize + pageSize := by rwa [add_mul, one_mul] at hle
  have hmoved := @traversedTransfers_append src dst srcPage dstPage k (size - k * pageSize)
    (by omega)
  have hsum : k * pageSize + (size - k * pageSize) = size := by omega
  rw [hsum] at hmoved
  exact ⟨hsum, hmoved⟩

/-- A copy that ends has moved the traversed bytes, and found no two contiguous pages. -/
theorem loop_fresh_sound (h : AlignedRanges src dst srcPage dstPage size)
    (hlt : k * pageSize < size) {fuel : Nat} {s' : HeapCopyState}
    (hloop : heapCopyLoop isHeap src dst size fuel (freshState src dst srcPage dstPage k) =
      .ok s') :
    s'.moved = traversedTransfers src dst srcPage dstPage size ∧
      ∀ j, k ≤ j → (j + 1) * pageSize < size → ¬TraversedContiguous src dst srcPage dstPage j := by
  induction fuel generalizing k with
  | zero =>
    rw [heapCopyLoop, if_pos (show (freshState src dst srcPage dstPage k).ofs < size from hlt)]
      at hloop
    cases hloop
  | succ fuel ih =>
    rw [heapCopyLoop, if_pos (show (freshState src dst srcPage dstPage k).ofs < size from hlt)]
      at hloop
    obtain ⟨s₁, hstep, hrest⟩ := bind_eq_ok.mp hloop
    by_cases hnext : (k + 1) * pageSize < size
    · by_cases hcont : TraversedContiguous src dst srcPage dstPage k
      · rw [h.step_stuck hnext hcont] at hstep
        cases hstep
        rw [h.loop_stuckState hnext hcont] at hrest
        cases hrest
      · rw [h.step_fresh hnext hcont] at hstep
        split at hstep
        · cases hstep
          obtain ⟨hmoved, hlater⟩ := ih hnext hrest
          refine ⟨hmoved, fun j hj hjlt => ?_⟩
          rcases eq_or_lt_of_le hj with rfl | hj
          · exact hcont
          · exact hlater j hj hjlt
        · cases hstep
    · have hle : size ≤ (k + 1) * pageSize := by omega
      rw [step_last hlt hle] at hstep
      split at hstep
      · cases hstep
        obtain ⟨hofs, hmoved⟩ := @copied_last src dst srcPage dstPage size k hlt hle
        rw [heapCopyLoop_done fuel (le_of_eq hofs.symm)] at hrest
        cases hrest
        refine ⟨hmoved, fun j hj hjlt => absurd hjlt ?_⟩
        have := Nat.mul_le_mul_right pageSize (Nat.add_le_add_right hj 1)
        omega
      · cases hstep

/-- Without contiguous pages the copy ends. -/
theorem loop_fresh_total (h : AlignedRanges src dst srcPage dstPage size)
    (hheap : ∀ j, j * pageSize < size → isHeap (src.traversedAddress (srcPage + j) 0) = true ∧
      isHeap (dst.traversedAddress (dstPage + j) 0) = true)
    (hcont : ∀ j, (j + 1) * pageSize < size → ¬TraversedContiguous src dst srcPage dstPage j)
    (n : Nat) (hlt : k * pageSize < size) (hn : size ≤ (k + 1 + n) * pageSize) :
    ∃ s', heapCopyLoop isHeap src dst size (n + 1) (freshState src dst srcPage dstPage k) =
      .ok s' := by
  induction n generalizing k with
  | zero =>
    rw [heapCopyLoop, if_pos (show (freshState src dst srcPage dstPage k).ofs < size from hlt),
      step_last hlt hn, if_pos (hheap k hlt), ok_bind]
    have hofs := (@copied_last src dst srcPage dstPage size k hlt hn).1
    exact ⟨_, heapCopyLoop_done 0 (le_of_eq hofs.symm)⟩
  | succ n ih =>
    rw [heapCopyLoop, if_pos (show (freshState src dst srcPage dstPage k).ofs < size from hlt)]
    by_cases hnext : (k + 1) * pageSize < size
    · rw [h.step_fresh hnext (hcont k hnext), if_pos (hheap k hlt), ok_bind]
      have hsum : k + 1 + 1 + n = k + 1 + (n + 1) := by omega
      exact ih hnext (hsum ▸ hn)
    · have hle : size ≤ (k + 1) * pageSize := by omega
      rw [step_last hlt hle, if_pos (hheap k hlt), ok_bind]
      have hofs := (@copied_last src dst srcPage dstPage size k hlt hle).1
      exact ⟨_, heapCopyLoop_done (n + 1) (le_of_eq hofs.symm)⟩

end AlignedRanges

end Aligned

/-! ## When a copy ends and is exact -/

section Exact

variable {isHeap : Nat → Bool} {src dst : PageTable} {srcAddr dstAddr size : Nat}

/-- No page of the ranges is mapped to its own address, and the copy stays in the first page on both
sides, or both ranges start at a page boundary and no two pages that follow each other are
contiguous in physical memory on both sides. -/
def HeapCopyable (src dst : PageTable) (srcAddr dstAddr size : Nat) : Prop :=
  (∀ i < size, ¬src.IdentityMapped ((srcAddr + i) / pageSize) ∧
    ¬dst.IdentityMapped ((dstAddr + i) / pageSize)) ∧
  ((srcAddr % pageSize + size ≤ pageSize ∧ dstAddr % pageSize + size ≤ pageSize) ∨
    (srcAddr % pageSize = 0 ∧ dstAddr % pageSize = 0 ∧ ∀ k, (k + 1) * pageSize < size →
        ¬(src.frame (srcAddr / pageSize + k) + pageSize = src.frame (srcAddr / pageSize + k + 1) ∧
          dst.frame (dstAddr / pageSize + k) + pageSize = dst.frame (dstAddr / pageSize + k + 1))))

variable {address : Nat} {t : PageTable}

theorem page_of_aligned (hal : address % pageSize = 0) (i : Nat) :
    (address + i) / pageSize = address / pageSize + i / pageSize := by
  have hdiv := div_add_mod' address pageSize
  have hsum : address + i = i + address / pageSize * pageSize := by omega
  rw [hsum, add_mul_div_right _ _ pageSize_pos, add_comm]

theorem getPhysicalAddress_of_aligned (hwf : t.WellFormed)
    (hal : address % pageSize = 0) (i : Nat) :
    t.getPhysicalAddress (address + i) = t.frame (address / pageSize + i / pageSize) +
      i % pageSize := by
  have hdiv := div_add_mod' address pageSize
  have hsum : address + i = i + address / pageSize * pageSize := by omega
  have hmod : (address + i) % pageSize = i % pageSize := by
    rw [hsum, add_mul_mod_self_right]
  rw [hwf.getPhysicalAddress_eq, page_of_aligned hal, hmod]

theorem headSize_of_aligned (hwf : t.WellFormed)
    (hal : address % pageSize = 0) : headSize t address = pageSize := by
  have hframe := hwf.pageSize_dvd_frame (address / pageSize)
  rw [headSize, hal, PageTable.traversedAddress]
  split
  · rfl
  · rw [add_zero, mod_eq_zero_of_dvd hframe, Nat.sub_zero]

theorem mapped_of_aligned (hal : address % pageSize = 0) (hm : t.RangeMapped address size) {k : Nat}
    (hk : k * pageSize < size) : t.mapped (address / pageSize + k) = true := by
  have hpage := hm _ hk
  rwa [page_of_aligned hal, Nat.mul_div_cancel _ pageSize_pos] at hpage

section

variable (hsrc : src.WellFormed) (hdst : dst.WellFormed)
include hsrc hdst

theorem alignedRanges (hrs : src.RangeMapped srcAddr size) (hrd : dst.RangeMapped dstAddr size)
    (hso : srcAddr % pageSize = 0) (hdo : dstAddr % pageSize = 0) :
    AlignedRanges src dst (srcAddr / pageSize) (dstAddr / pageSize) size where
  srcTable := hsrc
  dstTable := hdst
  srcMapped _ hk := mapped_of_aligned hso hrs hk
  dstMapped _ hk := mapped_of_aligned hdo hrd hk

theorem heapCopyStart_of_aligned
    (hms : src.mapped (srcAddr / pageSize) = true) (hmd : dst.mapped (dstAddr / pageSize) = true)
    (hso : srcAddr % pageSize = 0) (hdo : dstAddr % pageSize = 0) :
    heapCopyStart src dst srcAddr dstAddr =
      freshState src dst (srcAddr / pageSize) (dstAddr / pageSize) 0 := by
  rw [heapCopyStart_eq hsrc hdst hms hmd, headSize_of_aligned hsrc hso,
    headSize_of_aligned hdst hdo]
  simp only [hso, hdo, freshState, add_zero, min_self, zero_mul, traversedTransfers,
    range_zero, map_nil]

/-- The traversed bytes are the right ones exactly if no page is mapped to its own address. -/
theorem traversedTransfers_eq_iff
    (hrs : src.RangeMapped srcAddr size) (hrd : dst.RangeMapped dstAddr size)
    (hso : srcAddr % pageSize = 0) (hdo : dstAddr % pageSize = 0) :
    traversedTransfers src dst (srcAddr / pageSize) (dstAddr / pageSize) size =
        exactHeapTransfers src dst srcAddr dstAddr size ↔
      ∀ i < size, ¬src.IdentityMapped ((srcAddr + i) / pageSize) ∧
        ¬dst.IdentityMapped ((dstAddr + i) / pageSize) := by
  rw [traversedTransfers, exactHeapTransfers, map_inj_left]
  simp only [mem_range, Transfer.mk.injEq, CopyByte.linear.injEq]
  refine forall_congr' fun i => forall_congr' fun hi => ?_
  have hms := hrs i hi
  have hmd := hrd i hi
  rw [page_of_aligned hso] at hms
  rw [page_of_aligned hdo] at hmd
  have hs := hsrc.traversedAddress_eq_iff hms 0
  have hd := hdst.traversedAddress_eq_iff hmd 0
  rw [add_zero] at hs hd
  rw [getPhysicalAddress_of_aligned hsrc hso, getPhysicalAddress_of_aligned hdst hdo,
    add_right_cancel_iff, add_right_cancel_iff, hs, hd, page_of_aligned hso,
    page_of_aligned hdo, and_comm]

/-- Without pages mapped to their own address, the traversals see what is contiguous. -/
theorem traversedContiguous_iff
    (hrs : src.RangeMapped srcAddr size) (hrd : dst.RangeMapped dstAddr size)
    (hso : srcAddr % pageSize = 0) (hdo : dstAddr % pageSize = 0)
    (hid : ∀ i < size, ¬src.IdentityMapped ((srcAddr + i) / pageSize) ∧
      ¬dst.IdentityMapped ((dstAddr + i) / pageSize)) {k : Nat} (hk : (k + 1) * pageSize < size) :
    TraversedContiguous src dst (srcAddr / pageSize) (dstAddr / pageSize) k ↔
      src.frame (srcAddr / pageSize + k) + pageSize = src.frame (srcAddr / pageSize + k + 1) ∧
        dst.frame (dstAddr / pageSize + k) + pageSize = dst.frame (dstAddr / pageSize + k + 1) := by
  have hk₀ : k * pageSize < size := by
    rw [add_mul] at hk
    omega
  have haddr : ∀ j, j * pageSize < size →
      src.traversedAddress (srcAddr / pageSize + j) 0 = src.frame (srcAddr / pageSize + j) ∧
        dst.traversedAddress (dstAddr / pageSize + j) 0 = dst.frame (dstAddr / pageSize + j) := by
    intro j hj
    obtain ⟨hs, hd⟩ := hid _ hj
    rw [page_of_aligned hso, Nat.mul_div_cancel _ pageSize_pos] at hs
    rw [page_of_aligned hdo, Nat.mul_div_cancel _ pageSize_pos] at hd
    exact ⟨hsrc.traversedAddress_eq (mapped_of_aligned hso hrs hj) hs 0,
      hdst.traversedAddress_eq (mapped_of_aligned hdo hrd hj) hd 0⟩
  have hnext := haddr (k + 1) hk
  rw [← add_assoc, ← add_assoc] at hnext
  rw [TraversedContiguous, (haddr k hk₀).1, (haddr k hk₀).2, hnext.1, hnext.2]

/-- A copy inside the first pages takes one iteration. -/
theorem loop_within_page (hsize : 0 < size)
    (hms : src.mapped (srcAddr / pageSize) = true) (hmd : dst.mapped (dstAddr / pageSize) = true)
    (hids : ¬src.IdentityMapped (srcAddr / pageSize))
    (hidd : ¬dst.IdentityMapped (dstAddr / pageSize))
    (hss : srcAddr % pageSize + size ≤ pageSize) (hds : dstAddr % pageSize + size ≤ pageSize)
    (hheap : isHeap (src.getPhysicalAddress srcAddr) = true ∧
      isHeap (dst.getPhysicalAddress dstAddr) = true) :
    ∃ s', heapCopyLoop isHeap src dst size 1 (heapCopyStart src dst srcAddr dstAddr) = .ok s' ∧
      s'.moved = exactHeapTransfers src dst srcAddr dstAddr size := by
  have hhs := headSize_eq hsrc hms hids
  have hhd := headSize_eq hdst hmd hidd
  have has : src.traversedAddress (srcAddr / pageSize) (srcAddr % pageSize) =
      src.getPhysicalAddress srcAddr := by
    rw [hsrc.traversedAddress_eq hms hids, hsrc.getPhysicalAddress_eq]
  have had : dst.traversedAddress (dstAddr / pageSize) (dstAddr % pageSize) =
      dst.getPhysicalAddress dstAddr := by
    rw [hdst.traversedAddress_eq hmd hidd, hdst.getPhysicalAddress_eq]
  have heq := heapCopyStart_eq hsrc hdst hms hmd
  generalize heapCopyStart src dst srcAddr dstAddr = s at *
  have hofs : s.ofs = 0 := by rw [heq]
  have hmoved : s.moved = [] := by rw [heq]
  have hcs : s.curSrcAddr = src.getPhysicalAddress srcAddr := by rw [heq, ← has]
  have hcd : s.curDstAddr = dst.getPhysicalAddress dstAddr := by rw [heq, ← had]
  have hmin : min s.curMinSize (size - s.ofs) = size := by
    have hcur : s.curMinSize = min (headSize src srcAddr) (headSize dst dstAddr) := by rw [heq]
    omega
  have hstep : heapCopyStep isHeap src dst size s =
      .ok (s.copied size false false).updateMinSize := by
    simp only [heapCopyStep, hmin]
    rw [if_neg (by omega), HeapCopyState.copy_eq, hcs, hcd, if_pos hheap]
    rfl
  refine ⟨(s.copied size false false).updateMinSize, ?_, ?_⟩
  · rw [heapCopyLoop, if_pos (by omega), hstep, ok_bind]
    exact heapCopyLoop_done 0 (by
      show size ≤ s.ofs + size
      omega)
  · show s.moved ++ heapRun s.curDstAddr s.curSrcAddr size = _
    rw [hmoved, nil_append, heapRun, exactHeapTransfers, hcs, hcd]
    refine map_congr_left fun i hi => ?_
    rw [mem_range] at hi
    rw [getPhysicalAddress_first hsrc (by omega), getPhysicalAddress_first hdst (by omega),
      hsrc.getPhysicalAddress_eq, hdst.getPhysicalAddress_eq]

end

theorem copyHeapRange_eq_ok {ts : List Transfer} {fuel : Nat} (hsize : 0 < size)
    (h : copyHeapRange isHeap src dst dstAddr size srcAddr fuel = .ok ts) :
    ∃ s', heapCopyLoop isHeap src dst size fuel (heapCopyStart src dst srcAddr dstAddr) = .ok s' ∧
      s'.moved = ts := by
  rw [copyHeapRange, if_neg (by omega)] at h
  obtain ⟨s', hloop, hpure⟩ := bind_eq_ok.mp h
  cases hpure
  exact ⟨s', hloop, rfl⟩

theorem copyHeapRange_of_loop {s' : HeapCopyState} {fuel : Nat} (hsize : 0 < size)
    (h : heapCopyLoop isHeap src dst size fuel (heapCopyStart src dst srcAddr dstAddr) = .ok s') :
    copyHeapRange isHeap src dst dstAddr size srcAddr fuel = .ok s'.moved := by
  rw [copyHeapRange, if_neg (by omega), h]
  rfl

/-- The loop ends after some number of iterations with exactly the bytes of the two ranges moved if
and only if the ranges are copyable. -/
theorem copyHeapRange_exact_iff (hsrc : src.WellFormed) (hdst : dst.WellFormed) (hsize : 0 < size)
    (hrs : src.RangeMapped srcAddr size) (hrd : dst.RangeMapped dstAddr size)
    (hhs : ∀ i < size, isHeap (src.getPhysicalAddress (srcAddr + i)) = true)
    (hhd : ∀ i < size, isHeap (dst.getPhysicalAddress (dstAddr + i)) = true) :
    (∃ fuel, copyHeapRange isHeap src dst dstAddr size srcAddr fuel =
        .ok (exactHeapTransfers src dst srcAddr dstAddr size)) ↔
      HeapCopyable src dst srcAddr dstAddr size := by
  have hms : src.mapped (srcAddr / pageSize) = true := hrs 0 hsize
  have hmd : dst.mapped (dstAddr / pageSize) = true := hrd 0 hsize
  constructor
  · rintro ⟨fuel, hok⟩
    obtain ⟨s', hloop, hexact⟩ := copyHeapRange_eq_ok hsize hok
    obtain ⟨hids, hidd⟩ := not_identityMapped_of_exact hsrc hdst hms hmd hsize hloop hexact
    have hheads := headSize_eq hsrc hms hids
    have hheadd := headSize_eq hdst hmd hidd
    by_cases hcross : min (headSize src srcAddr) (headSize dst dstAddr) < size
    · obtain ⟨hso, hdo⟩ := aligned_of_exact hsrc hdst hrs hrd hids hidd hcross hloop hexact
      have hal := alignedRanges hsrc hdst hrs hrd hso hdo
      rw [heapCopyStart_of_aligned hsrc hdst hms hmd hso hdo] at hloop
      obtain ⟨hmoved, hcont⟩ := hal.loop_fresh_sound (k := 0) (by omega) hloop
      rw [hexact] at hmoved
      have hid := (traversedTransfers_eq_iff hsrc hdst hrs hrd hso hdo).mp hmoved.symm
      refine ⟨hid, .inr ⟨hso, hdo, fun k hk => ?_⟩⟩
      rw [← traversedContiguous_iff hsrc hdst hrs hrd hso hdo hid hk]
      exact hcont k (zero_le k) hk
    · have hso := mod_lt srcAddr pageSize_pos
      have hdo := mod_lt dstAddr pageSize_pos
      refine ⟨fun i hi => ?_, .inl ⟨by omega, by omega⟩⟩
      rw [page_first (by omega), page_first (by omega)]
      exact ⟨hids, hidd⟩
  · rintro ⟨hid, hshape⟩
    rcases hshape with ⟨hss, hds⟩ | ⟨hso, hdo, hcont⟩
    · obtain ⟨s', hloop, hexact⟩ := loop_within_page hsrc hdst hsize hms hmd (hid 0 hsize).1
        (hid 0 hsize).2 hss hds ⟨hhs 0 hsize, hhd 0 hsize⟩
      exact ⟨1, hexact ▸ copyHeapRange_of_loop hsize hloop⟩
    · have hal := alignedRanges hsrc hdst hrs hrd hso hdo
      have hmoved := (traversedTransfers_eq_iff hsrc hdst hrs hrd hso hdo).mpr hid
      have hheap : ∀ j, j * pageSize < size →
          isHeap (src.traversedAddress (srcAddr / pageSize + j) 0) = true ∧
            isHeap (dst.traversedAddress (dstAddr / pageSize + j) 0) = true := by
        intro j hj
        have hs := hhs _ hj
        have hd := hhd _ hj
        obtain ⟨hids, hidd⟩ := hid _ hj
        rw [getPhysicalAddress_of_aligned hsrc hso, Nat.mul_div_cancel _ pageSize_pos,
          mul_mod_left] at hs
        rw [getPhysicalAddress_of_aligned hdst hdo, Nat.mul_div_cancel _ pageSize_pos,
          mul_mod_left] at hd
        rw [page_of_aligned hso, Nat.mul_div_cancel _ pageSize_pos] at hids
        rw [page_of_aligned hdo, Nat.mul_div_cancel _ pageSize_pos] at hidd
        rw [hsrc.traversedAddress_eq (hal.srcMapped j hj) hids,
          hdst.traversedAddress_eq (hal.dstMapped j hj) hidd]
        exact ⟨hs, hd⟩
      have hcont' : ∀ j, (j + 1) * pageSize < size →
          ¬TraversedContiguous src dst (srcAddr / pageSize) (dstAddr / pageSize) j := by
        intro j hj
        rw [traversedContiguous_iff hsrc hdst hrs hrd hso hdo hid hj]
        exact hcont j hj
      have hzero : 0 * pageSize < size := by omega
      have hfuel : size ≤ (0 + 1 + size) * pageSize :=
        le_trans (by omega) (Nat.le_mul_of_pos_right _ pageSize_pos)
      obtain ⟨s', hloop⟩ := hal.loop_fresh_total hheap hcont' size hzero hfuel
      have hsound := (hal.loop_fresh_sound hzero hloop).1
      rw [← heapCopyStart_of_aligned hsrc hdst hms hmd hso hdo] at hloop
      exact ⟨size + 1, (hsound.trans hmoved) ▸ copyHeapRange_of_loop hsize hloop⟩

end Exact

/-- The two copies. -/
inductive HeapCopyRoutine where
  | checkDestination
  | withoutCheckDestination
deriving DecidableEq, Repr

namespace HeapCopyRoutine

variable {isHeap : Nat → Bool} {srcPageTable dstPageTable : KPageTableBase}
  {dstAddr size srcAddr : Nat} {dstState srcState : CopyState}

def run (r : HeapCopyRoutine) (isHeap : Nat → Bool) (srcPageTable dstPageTable : KPageTableBase)
    (dstAddr size : Nat) (dstState : CopyState) (srcAddr : Nat) (srcState : CopyState)
    (fuel : Nat) : Except PageTableError (List Transfer) :=
  match r with
  | checkDestination =>
    srcPageTable.copyMemoryFromHeapToHeap isHeap dstPageTable dstAddr size dstState srcAddr
      srcState fuel
  | withoutCheckDestination =>
    srcPageTable.copyMemoryFromHeapToHeapWithoutCheckDestination isHeap dstPageTable dstAddr size
      srcAddr srcState fuel

/-- The checks in front of the loop. -/
structure ChecksPass (r : HeapCopyRoutine) (srcPageTable dstPageTable : KPageTableBase)
    (dstAddr size : Nat) (dstState : CopyState) (srcAddr : Nat) (srcState : CopyState) : Prop where
  srcContains : srcPageTable.contains srcAddr size = true
  dstContains : dstPageTable.contains dstAddr size = true
  srcCheck : srcPageTable.checkCopyState srcAddr size srcState = .ok ()
  dstCheck : r = checkDestination → dstPageTable.checkCopyState dstAddr size dstState = .ok ()

theorem run_eq {r : HeapCopyRoutine}
    (h : r.ChecksPass srcPageTable dstPageTable dstAddr size dstState srcAddr srcState)
    (isHeap : Nat → Bool) (fuel : Nat) :
    r.run isHeap srcPageTable dstPageTable dstAddr size dstState srcAddr srcState fuel =
      copyHeapRange isHeap srcPageTable.impl dstPageTable.impl dstAddr size srcAddr fuel := by
  cases r with
  | checkDestination =>
    simp only [run, KPageTableBase.copyMemoryFromHeapToHeap, h.srcContains, h.dstContains,
      h.srcCheck, h.dstCheck rfl]
    rfl
  | withoutCheckDestination =>
    simp only [run, KPageTableBase.copyMemoryFromHeapToHeapWithoutCheckDestination,
      h.srcContains, h.dstContains, h.srcCheck]
    rfl

theorem ChecksPass.size_pos {r : HeapCopyRoutine}
    (h : r.ChecksPass srcPageTable dstPageTable dstAddr size dstState srcAddr srcState) :
    0 < size := by
  have hcontains := h.srcContains
  simp only [KPageTableBase.contains, Bool.and_eq_true, decide_eq_true_eq] at hcontains
  omega

/-- A copy whose checks pass and whose ranges lie in mapped heap pages ends after finitely many
iterations and moves exactly the bytes of the two ranges, in order, if and only if the ranges are
copyable. -/
theorem run_exact_iff (r : HeapCopyRoutine) (isHeap : Nat → Bool)
    (srcPageTable dstPageTable : KPageTableBase) (dstAddr size : Nat) (dstState : CopyState)
    (srcAddr : Nat) (srcState : CopyState) (hsrc : srcPageTable.impl.WellFormed)
    (hdst : dstPageTable.impl.WellFormed)
    (hrs : srcPageTable.impl.RangeMapped srcAddr size)
    (hrd : dstPageTable.impl.RangeMapped dstAddr size)
    (hchecks : r.ChecksPass srcPageTable dstPageTable dstAddr size dstState srcAddr srcState)
    (hheap : ∀ i < size, isHeap (srcPageTable.impl.getPhysicalAddress (srcAddr + i)) = true ∧
      isHeap (dstPageTable.impl.getPhysicalAddress (dstAddr + i)) = true) :
    (∃ fuel, r.run isHeap srcPageTable dstPageTable dstAddr size dstState srcAddr srcState fuel =
        .ok (exactHeapTransfers srcPageTable.impl dstPageTable.impl srcAddr dstAddr size)) ↔
      HeapCopyable srcPageTable.impl dstPageTable.impl srcAddr dstAddr size := by
  simp only [run_eq hchecks isHeap]
  exact copyHeapRange_exact_iff hsrc hdst hchecks.size_pos hrs hrd (fun i hi => (hheap i hi).1)
    (fun i hi => (hheap i hi).2)

/-- An address space of sixteen pages of normal memory with two neighbouring pages mapped to
`first` and `second`. -/
def twoPages (first second : Nat) : KPageTableBase where
  impl := ((PageTable.resized 16).mapPages 8 1 first).mapPages 9 1 second
  memoryBlockManager := ⟨[KMemoryBlock.initializeBlock 0 16 KMemoryState.normal
    KMemoryPermission.userReadWrite KMemoryAttribute.none], 0, 0x10000⟩
  addressSpaceStart := 0
  addressSpaceEnd := 0x10000

/-- The state arguments for normal memory. -/
def normalState : CopyState :=
  ⟨KMemoryState.normal, KMemoryState.normal, KMemoryPermission.userRead, KMemoryAttribute.none,
    KMemoryAttribute.none⟩

theorem twoPages_wellFormed {first second : Nat} (hf : pageSize ∣ first) (hs : pageSize ∣ second)
    (hfd : dramBase ≤ first) (hsd : dramBase ≤ second) (hfr : first + 1 * pageSize < 2 ^ 64)
    (hsr : second + 1 * pageSize < 2 ^ 64) : (twoPages first second).impl.WellFormed :=
  ((PageTable.resized_wellFormed (by decide)).mapPages (by decide) hf hfd hfr).mapPages
    (show 9 + 1 ≤ 16 by decide) hs hsd hsr

theorem page_twoPages {i : Nat} (hi : i < 0x2000) :
    (0x8000 + i) / pageSize = 8 ∨ (0x8000 + i) / pageSize = 9 := by
  simp only [pageSize]
  omega

theorem twoPages_rangeMapped {first second size : Nat} (hf : first ≠ 0) (hs : second ≠ 0)
    (hsize : size ≤ 0x2000) : (twoPages first second).impl.RangeMapped 0x8000 size := by
  intro i hi
  rcases @page_twoPages i (by omega) with h | h
  · rw [h]
    exact decide_eq_true hf
  · rw [h]
    exact decide_eq_true hs

/-- A page and one byte that are contiguous on both sides are never copied: the loop finds the same
state in every iteration. -/
theorem run_contiguous_diverges :
    ¬∃ fuel ts, checkDestination.run (fun _ => true) (twoPages 0x80000000 0x80001000)
      (twoPages 0x80010000 0x80011000) 0x8000 0x1001 normalState 0x8000 normalState fuel =
        .ok ts := by
  rintro ⟨fuel, ts, hrun⟩
  have hsrc : (twoPages 0x80000000 0x80001000).impl.WellFormed :=
    twoPages_wellFormed (by decide) (by decide) (by decide) (by decide) (by decide) (by decide)
  have hdst : (twoPages 0x80010000 0x80011000).impl.WellFormed :=
    twoPages_wellFormed (by decide) (by decide) (by decide) (by decide) (by decide) (by decide)
  have hrs := @twoPages_rangeMapped 0x80000000 0x80001000 0x1001 (by decide) (by decide) (by decide)
  have hrd := @twoPages_rangeMapped 0x80010000 0x80011000 0x1001 (by decide) (by decide) (by decide)
  have hal := alignedRanges hsrc hdst hrs hrd (by decide) (by decide)
  have hstart := heapCopyStart_of_aligned hsrc hdst (hrs 0 (by decide)) (hrd 0 (by decide))
    (show 0x8000 % pageSize = 0 by decide) (show 0x8000 % pageSize = 0 by decide)
  have hcont : TraversedContiguous (twoPages 0x80000000 0x80001000).impl
      (twoPages 0x80010000 0x80011000).impl (0x8000 / pageSize) (0x8000 / pageSize) 0 := by
    decide +kernel
  rw [run_eq ⟨rfl, rfl, rfl, fun _ => rfl⟩, copyHeapRange, if_neg (by decide), hstart,
    hal.loop_contiguous (by decide) hcont] at hrun
  cases hrun

/-- A page and one byte that are apart in the source are copied. -/
theorem run_scattered_exact :
    ∃ fuel, withoutCheckDestination.run (fun _ => true) (twoPages 0x80000000 0x80005000)
      (twoPages 0x80010000 0x80011000) 0x8000 0x1001 normalState 0x8000 normalState fuel =
        .ok (exactHeapTransfers (twoPages 0x80000000 0x80005000).impl
          (twoPages 0x80010000 0x80011000).impl 0x8000 0x8000 0x1001) := by
  refine (run_exact_iff withoutCheckDestination (fun _ => true) (twoPages 0x80000000 0x80005000)
    (twoPages 0x80010000 0x80011000) 0x8000 0x1001 normalState 0x8000 normalState
    (twoPages_wellFormed (by decide) (by decide) (by decide) (by decide) (by decide) (by decide))
    (twoPages_wellFormed (by decide) (by decide) (by decide) (by decide) (by decide) (by decide))
    (twoPages_rangeMapped (by decide) (by decide) (by decide))
    (twoPages_rangeMapped (by decide) (by decide) (by decide)) ⟨rfl, rfl, rfl, fun _ => rfl⟩
    (fun _ _ => ⟨rfl, rfl⟩)).mpr ⟨fun i hi => ?_, Or.inr ⟨by decide, by decide, fun k hk => ?_⟩⟩
  · rcases @page_twoPages i (by omega) with h | h
    · rw [h]
      decide
    · rw [h]
      decide
  · have hk₀ : k = 0 := by
      simp only [pageSize] at hk
      omega
    subst hk₀
    decide

end HeapCopyRoutine

end Sudachi.Kernel
