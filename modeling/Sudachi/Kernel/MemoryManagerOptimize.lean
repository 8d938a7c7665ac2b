import Sudachi.Kernel.MemoryManagerRuns

/-!
# Memory for the optimized process

`AllocateForProcess` fills what it hands out, except for pages that the optimize map marks as last
handed to the optimized process, when they go back to it. What the loops over a block do is said page
by page (`processBlock_spec`, `optimizeBlock_spec`). The flag that says whether a block has new pages
is the one of its last part (`LastPartNew`), so a block over several managers may stay unmarked. Over
every run the marks name pages that were last handed to the optimized process
(`OptimizedRun.invariant`), so no page with the contents of another process is handed out
(`optimizedRun_spec`).
-/

set_option autoImplicit false

namespace Sudachi.Kernel

open Sudachi.Common Sudachi.Foundations KPageHeap KPageBitmap Finset Or Function

namespace KMemoryManager

open KPageGroup

/-! ## Filling the new pages of a part -/

namespace Impl

variable {m : Impl} {p n : Nat} {fillPattern : BitVec 8}

/-- The device memory after the new pages of a run of offsets have been filled. -/
theorem processLoop_spec (m : Impl) (fillPattern : BitVec 8) (n : Nat) :
    ∀ (o : Nat) (anyNew : Bool) (memory : Nat → BitVec 8),
      ((m.processLoop fillPattern n o anyNew memory).1 = true ↔
        anyNew = true ∨ ∃ k, o ≤ k ∧ k < o + n ∧ (m.optimizeMap (k / 64)).getLsbD (k % 64) = false) ∧
      ∀ a, (m.processLoop fillPattern n o anyNew memory).2 a = fillPattern ∧
          (∃ k, o ≤ k ∧ k < o + n ∧ (m.optimizeMap (k / 64)).getLsbD (k % 64) = false ∧
            m.heap.heapAddress + k * pageSize ≤ a ∧
            a < m.heap.heapAddress + k * pageSize + pageSize) ∨
        (m.processLoop fillPattern n o anyNew memory).2 a = memory a ∧
          ¬∃ k, o ≤ k ∧ k < o + n ∧ (m.optimizeMap (k / 64)).getLsbD (k % 64) = false ∧
            m.heap.heapAddress + k * pageSize ≤ a ∧
            a < m.heap.heapAddress + k * pageSize + pageSize := by
  induction n with
  | zero =>
    intro o anyNew memory
    refine ⟨⟨inl, ?_⟩, fun a => inr ⟨rfl, ?_⟩⟩
    · rintro (h | ⟨k, h1, h2, -⟩)
      · exact h
      · omega
    · rintro ⟨k, h1, h2, -⟩
      omega
  | succ n ih =>
    intro o anyNew memory
    have hbit := and_one_shiftLeft_eq_zero_iff (m.optimizeMap (o / 64))
      (Nat.mod_lt o (show 0 < 64 by decide))
    have hsplit : ∀ P : Nat → Prop, (∃ k, o ≤ k ∧ k < o + (n + 1) ∧ P k) ↔
        P o ∨ ∃ k, o + 1 ≤ k ∧ k < o + 1 + n ∧ P k := by
      intro P
      constructor
      · rintro ⟨k, h1, h2, hP⟩
        rcases eq_or_lt_of_le h1 with rfl | hlt
        · exact inl hP
        · exact inr ⟨k, hlt, by omega, hP⟩
      · rintro (hP | ⟨k, h1, h2, hP⟩)
        · exact ⟨o, le_refl o, by omega, hP⟩
        · exact ⟨k, by omega, by omega, hP⟩
    simp only [hsplit]
    by_cases hnew : (m.optimizeMap (o / 64)).getLsbD (o % 64) = false
    · have hloop : m.processLoop fillPattern (n + 1) o anyNew memory =
          m.processLoop fillPattern n (o + 1) true
            (memset memory (m.heap.heapAddress + o * pageSize) fillPattern pageSize) := by
        rw [processLoop]
        exact if_pos (hbit.2 hnew)
      obtain ⟨hany, hmem⟩ := ih (o + 1) true
        (memset memory (m.heap.heapAddress + o * pageSize) fillPattern pageSize)
      rw [hloop]
      refine ⟨?_, fun a => ?_⟩
      · rw [hany]
        simp [hnew]
      · rcases hmem a with ⟨hfill, hin⟩ | ⟨hkeep, hnot⟩
        · exact inl ⟨hfill, inr hin⟩
        · rw [hkeep, memset]
          by_cases hhere : m.heap.heapAddress + o * pageSize ≤ a ∧
              a < m.heap.heapAddress + o * pageSize + pageSize
          · exact inl ⟨if_pos hhere, inl ⟨hnew, hhere⟩⟩
          · exact inr ⟨if_neg hhere, fun h => h.elim (fun h => hhere h.2) hnot⟩
    · have hloop : m.processLoop fillPattern (n + 1) o anyNew memory =
          m.processLoop fillPattern n (o + 1) anyNew memory := by
        rw [processLoop]
        exact if_neg fun h => hnew (hbit.1 h)
      obtain ⟨hany, hmem⟩ := ih (o + 1) anyNew memory
      rw [hloop]
      refine ⟨?_, fun a => ?_⟩
      · rw [hany]
        simp [hnew]
      · rcases hmem a with ⟨hfill, hin⟩ | ⟨hkeep, hnot⟩
        · exact inl ⟨hfill, inr hin⟩
        · exact inr ⟨hkeep, fun h => h.elim (fun h => hnew h.1) hnot⟩

/-- `ProcessOptimizedAllocation` of pages of a manager: whether one of them is not marked, and the
memory with these filled. -/
theorem processOptimizedAllocation_spec (hdvd : pageSize ∣ m.heap.heapAddress)
    (hin : Finset.Ico p (p + n) ⊆ m.region) (memory : Nat → BitVec 8) (fillPattern : BitVec 8) :
    ((m.processOptimizedAllocation memory (p * pageSize) n fillPattern).1 = true ↔
        ∃ q ∈ Finset.Ico p (p + n), m.marked q = false) ∧
      ∀ a, (m.processOptimizedAllocation memory (p * pageSize) n fillPattern).2 a =
        if a / pageSize ∈ Finset.Ico p (p + n) ∧ m.marked (a / pageSize) = false then fillPattern
        else memory a := by
  obtain ⟨hany, hmem⟩ := processLoop_spec m fillPattern n (p - m.firstPage) false memory
  rw [processOptimizedAllocation, getPageOffset_page hdvd]
  -- The offsets of the run are the pages of the range.
  have hpages : ∀ P : Nat → Prop, (∃ k, p - m.firstPage ≤ k ∧ k < p - m.firstPage + n ∧ P k) ↔
      ∃ q ∈ Finset.Ico p (p + n), P (q - m.firstPage) := by
    intro P
    rcases Nat.eq_zero_or_pos n with rfl | hn
    · simp only [add_zero, Finset.Ico_self, notMem_empty, false_and, exists_false, iff_false]
      rintro ⟨k, h1, h2, -⟩
      omega
    · have hp := (mem_region.1 (hin (mem_Ico.2 ⟨le_refl p, by omega⟩))).1
      constructor
      · rintro ⟨k, h1, h2, hP⟩
        refine ⟨m.firstPage + k, mem_Ico.2 ⟨by omega, by omega⟩, ?_⟩
        rwa [Nat.add_sub_cancel_left]
      · rintro ⟨q, hq, hP⟩
        rw [mem_Ico] at hq
        exact ⟨q - m.firstPage, by omega, by omega, hP⟩
  have hcell : ∀ {q a : Nat}, m.firstPage ≤ q →
      ((m.heap.heapAddress + (q - m.firstPage) * pageSize ≤ a ∧
        a < m.heap.heapAddress + (q - m.firstPage) * pageSize + pageSize) ↔ a / pageSize = q) := by
    intro q a hq
    have hstart : m.heap.heapAddress + (q - m.firstPage) * pageSize = q * pageSize := by
      conv_lhs => rw [← Nat.div_mul_cancel hdvd]
      rw [← add_mul]
      congr 1
      exact Nat.add_sub_cancel' hq
    rw [hstart, Nat.div_eq_iff pageSize_pos]
    have hpos := pageSize_pos
    omega
  refine ⟨?_, fun a => ?_⟩
  · refine hany.trans ?_
    rw [hpages]
    simp only [Bool.false_eq_true, false_or]
    rfl
  · have hwhere : (∃ k, p - m.firstPage ≤ k ∧ k < p - m.firstPage + n ∧
        (m.optimizeMap (k / 64)).getLsbD (k % 64) = false ∧ m.heap.heapAddress + k * pageSize ≤ a ∧
          a < m.heap.heapAddress + k * pageSize + pageSize) ↔
        a / pageSize ∈ Finset.Ico p (p + n) ∧ m.marked (a / pageSize) = false := by
      rw [hpages]
      constructor
      · rintro ⟨q, hq, hbit, hlo, hhi⟩
        obtain rfl := (hcell (mem_region.1 (hin hq)).1).1 ⟨hlo, hhi⟩
        exact ⟨hq, hbit⟩
      · rintro ⟨hq, hbit⟩
        exact ⟨_, hq, hbit, (hcell (mem_region.1 (hin hq)).1).2 rfl⟩
    rcases hmem a with ⟨hfill, hin'⟩ | ⟨hkeep, hnot⟩
    · rw [if_pos (hwhere.1 hin')]
      exact hfill
    · rw [if_neg fun h => hnot (hwhere.2 h)]
      exact hkeep

end Impl

/-! ## Blocks -/

/-- Whether a page is marked in the optimize map of its manager. -/
def markedPage (mm : KMemoryManager) (q : Nat) : Bool :=
  (mm.managers (mm.layout (q * pageSize))).marked q

/-- The last part of the range, in the manager of its last page, has a page that is not marked. -/
def LastPartNew (mm : KMemoryManager) (p n : Nat) : Prop :=
  ∃ q ∈ Finset.Ico p (p + n), mm.layout (q * pageSize) = mm.layout ((p + n - 1) * pageSize) ∧
    mm.markedPage q = false

section Blocks

variable {mm mm' : KMemoryManager} {p n : Nat} {fillPattern : BitVec 8}

theorem Layout.markedPage_eq (hl : Layout mm) {i q : Nat} (hi : i < mm.numManagers)
    (hq : q ∈ (mm.managers i).region) : mm.markedPage q = (mm.managers i).marked q := by
  rw [markedPage, hl.lookup i hi q hq]

/-- The loop over the managers of a block: the pages that are not marked are filled, and the flag is
the one of the last part. -/
theorem processBlock_spec (hl : Layout mm) (fillPattern : BitVec 8) (fuel : Nat) :
    ∀ {p n : Nat} (anyNew : Bool) (memory : Nat → BitVec 8), n ≤ fuel →
      (∀ q ∈ Finset.Ico p (p + n), Managed mm q) →
        ((mm.processBlock fillPattern fuel (p * pageSize) n anyNew memory).1 = true ↔
          if n = 0 then anyNew = true else mm.LastPartNew p n) ∧
        ∀ a, (mm.processBlock fillPattern fuel (p * pageSize) n anyNew memory).2 a =
          if a / pageSize ∈ Finset.Ico p (p + n) ∧ mm.markedPage (a / pageSize) = false
          then fillPattern else memory a := by
  induction fuel with
  | zero =>
    intro p n anyNew memory hfuel _
    obtain rfl : n = 0 := by omega
    refine ⟨?_, fun a => ?_⟩
    · rw [if_pos rfl]
      rfl
    · rw [if_neg (by simp)]
      rfl
  | succ fuel ih =>
    intro p n anyNew memory hfuel hmanaged
    by_cases hzero : n = 0
    · subst hzero
      rw [processBlock, if_pos rfl]
      refine ⟨?_, fun a => ?_⟩
      · rw [if_pos rfl]
      · rw [if_neg (by simp)]
    · obtain ⟨i, hi, hp⟩ := hmanaged p (mem_Ico.2 ⟨le_refl p, by omega⟩)
      have hregion := hl.heapRegion i hi
      obtain ⟨hlo, hhi⟩ := Impl.mem_region.1 hp
      -- The part goes to the end of the block or of the manager.
      obtain ⟨c, hc⟩ : ∃ c, min n ((mm.managers i).getPageOffsetToEnd (p * pageSize)) = c :=
        ⟨_, rfl⟩
      have hc' := hc
      rw [Impl.getPageOffsetToEnd_page hregion] at hc'
      have hpart : Finset.Ico p (p + c) ⊆ (mm.managers i).region := by
        intro q hq
        rw [mem_Ico] at hq
        exact Impl.mem_region.2 ⟨by omega, by omega⟩
      obtain ⟨hanyPart, hmemPart⟩ := Impl.processOptimizedAllocation_spec hregion.address_dvd hpart
        memory fillPattern
      obtain ⟨anyNew', memory', hprocess⟩ : ∃ anyNew' memory',
          (mm.managers i).processOptimizedAllocation memory (p * pageSize) c fillPattern =
            (anyNew', memory') := ⟨_, _, rfl⟩
      simp only [hprocess] at hanyPart hmemPart
      have hnext : p * pageSize + c * pageSize = (p + c) * pageSize := (add_mul ..).symm
      have hloop : mm.processBlock fillPattern (fuel + 1) (p * pageSize) n anyNew memory =
          mm.processBlock fillPattern fuel ((p + c) * pageSize) (n - c) anyNew' memory' := by
        simp only [processBlock, if_neg hzero, getManager, hl.lookup i hi p hp, hc, hprocess, hnext]
      obtain ⟨hany, hmem⟩ := @ih (p + c) (n - c) anyNew' memory' (by omega) fun q hq =>
        hmanaged q (by rw [mem_Ico] at hq ⊢; omega)
      have hend : p + c + (n - c) = p + n := by omega
      rw [hend] at hmem
      have hmarked : ∀ q ∈ Finset.Ico p (p + c), mm.markedPage q = (mm.managers i).marked q :=
        fun q hq => hl.markedPage_eq hi (hpart hq)
      rw [hloop, if_neg hzero]
      refine ⟨hany.trans ?_, fun a => ?_⟩
      · by_cases hlast : n - c = 0
        · -- The block ends in this manager.
          obtain rfl : c = n := by omega
          rw [if_pos hlast, hanyPart]
          constructor
          · rintro ⟨q, hq, hmark⟩
            refine ⟨q, hq, ?_, (hmarked q hq).trans hmark⟩
            rw [hl.lookup i hi q (hpart hq), hl.lookup i hi (p + c - 1)
              (hpart (mem_Ico.2 ⟨by omega, by omega⟩))]
          · rintro ⟨q, hq, -, hmark⟩
            exact ⟨q, hq, (hmarked q hq).symm.trans hmark⟩
        · rw [if_neg hlast]
          -- The rest lies behind this manager, so its last page has another one.
          obtain ⟨j, hj, hpj⟩ := hmanaged (p + n - 1) (mem_Ico.2 ⟨by omega, by omega⟩)
          have hne : j ≠ i := by
            rintro rfl
            have := (Impl.mem_region.1 hpj).2
            omega
          rw [LastPartNew, LastPartNew, hend]
          constructor
          · rintro ⟨q, hq, hsame, hmark⟩
            exact ⟨q, by rw [mem_Ico] at hq ⊢; omega, hsame, hmark⟩
          · rintro ⟨q, hq, hsame, hmark⟩
            refine ⟨q, ?_, hsame, hmark⟩
            rw [mem_Ico] at hq ⊢
            refine ⟨?_, hq.2⟩
            by_contra hlt
            rw [hl.lookup i hi q (hpart (mem_Ico.2 ⟨hq.1, by omega⟩)),
              hl.lookup j hj _ hpj] at hsame
            exact hne hsame.symm
      · rw [hmem, hmemPart]
        have hsplit : a / pageSize ∈ Finset.Ico p (p + n) ↔
            a / pageSize ∈ Finset.Ico p (p + c) ∨ a / pageSize ∈ Finset.Ico (p + c) (p + n) := by
          simp only [mem_Ico]
          omega
        by_cases hin : a / pageSize ∈ Finset.Ico p (p + c)
        · have hout : a / pageSize ∉ Finset.Ico (p + c) (p + n) := by
            rw [mem_Ico] at hin ⊢
            omega
          simp only [hsplit, hin, hout, or_false, true_and, false_and, if_false, hmarked _ hin]
        · simp only [hsplit, hin, false_or, false_and, if_false]

/-- The loop that tracks a block marks its pages and no others. -/
theorem rangeLoop_track_marked (hl : Layout mm)
    (hmanaged : ∀ q ∈ Finset.Ico p (p + n), Managed mm q) :
    ∀ i < mm.numManagers, ∀ q ∈ (mm.managers i).region,
      ((rangeLoop Impl.trackOptimizedAllocation n (p * pageSize) n mm).managers i).marked q =
        if q ∈ Finset.Ico p (p + n) then true else (mm.managers i).marked q := by
  have hloop := @rangeLoop_induct p n Impl.trackOptimizedAllocation
    (fun k mm' => ∀ i < mm.numManagers, ∀ q ∈ (mm.managers i).region, (mm'.managers i).marked q =
        if q ∈ Finset.Ico p (p + k) then true else (mm.managers i).marked q) mm hl hmanaged
    (fun {k c i mm'} hshape hmark hi _ hpart => by
      have hdvd : pageSize ∣ (mm'.managers i).heap.heapAddress := by
        rw [(hshape.managers i).heapAddress]
        exact (hl.heapRegion i hi).address_dvd
      refine ⟨⟨rfl, rfl, rfl⟩, fun j hj q hq => ?_⟩
      have hsplit : q ∈ Finset.Ico p (p + (k + c)) ↔
          q ∈ Finset.Ico p (p + k) ∨ q ∈ Finset.Ico (p + k) (p + k + c) := by
        simp only [mem_Ico]
        omega
      by_cases hji : j = i
      · subst hji
        rw [setManager_self, Impl.marked_trackOptimizedAllocation hdvd
          ((hshape.region j).symm ▸ hpart) ((hshape.region j).symm ▸ hq), hmark j hj q hq]
        by_cases hnew : q ∈ Finset.Ico (p + k) (p + k + c)
        · rw [if_pos hnew, if_pos (hsplit.2 (inr hnew))]
        · rw [if_neg hnew]
          simp only [hsplit, hnew, or_false]
      · rw [setManager_of_ne _ _ hji, hmark j hj q hq]
        have hnot : q ∉ Finset.Ico (p + k) (p + k + c) := fun hnew =>
          hji (hl.unique hj hi hq (hpart hnew))
        simp only [hsplit, hnot, or_false])
    n 0 mm (Nat.zero_le n) (le_refl _) (SameShape.refl mm) (fun i _ q _ => by
      rw [if_neg (by simp)])
  exact hloop.2

theorem rangeLoop_memory (f : Impl → Nat → Nat → Impl) (fuel : Nat) :
    ∀ (address numPages : Nat) (mm : KMemoryManager),
      (rangeLoop f fuel address numPages mm).memory = mm.memory := by
  induction fuel with
  | zero => intro address numPages mm; rfl
  | succ fuel ih =>
    intro address numPages mm
    rw [rangeLoop]
    split_ifs
    · rfl
    · rw [ih]
      rfl

theorem Kept.managed_iff (h : Kept mm mm') (q : Nat) : Managed mm' q ↔ Managed mm q := by
  simp only [Managed, h.numManagers, h.sameShape.region]

/-- Whether the last part has a new page depends on the marks of the range only. -/
theorem lastPartNew_congr (hlayout : mm'.layout = mm.layout)
    (hmarked : ∀ q ∈ Finset.Ico p (p + n), mm'.markedPage q = mm.markedPage q) :
    mm'.LastPartNew p n ↔ mm.LastPartNew p n := by
  rw [LastPartNew, LastPartNew, hlayout]
  constructor
  · rintro ⟨q, hq, hsame, hmark⟩
    exact ⟨q, hq, hsame, (hmarked q hq).symm.trans hmark⟩
  · rintro ⟨q, hq, hsame, hmark⟩
    exact ⟨q, hq, hsame, (hmarked q hq).trans hmark⟩

/-- What `AllocateForProcess` does with a block for the optimized process: the pages that are not
marked are filled, and all are marked if the last part has one of these. -/
theorem optimizeBlock_spec (hl : Layout mm) {b : KBlockInfo} (hpos : 0 < b.numPages)
    (hmanaged : ∀ q ∈ b.pages, Managed mm q) (fillPattern : BitVec 8) :
    (∀ a, (optimizeBlock fillPattern mm b).memory a =
        if a / pageSize ∈ b.pages ∧ mm.markedPage (a / pageSize) = false then fillPattern
        else mm.memory a) ∧
      ∀ q, Managed mm q → ((optimizeBlock fillPattern mm b).markedPage q = true ↔
        mm.markedPage q = true ∨ q ∈ b.pages ∧ mm.LastPartNew b.pageIndex b.numPages) := by
  obtain ⟨hany, hmem⟩ := processBlock_spec hl fillPattern b.numPages false mm.memory (le_refl _)
    hmanaged
  rw [if_neg (by omega)] at hany
  obtain ⟨anyNew, memory, hprocess⟩ : ∃ anyNew memory, mm.processBlock fillPattern b.numPages
      (b.pageIndex * pageSize) b.numPages false mm.memory = (anyNew, memory) := ⟨_, _, rfl⟩
  simp only [hprocess] at hany hmem
  have hblock : optimizeBlock fillPattern mm b =
      if anyNew = true then rangeLoop Impl.trackOptimizedAllocation b.numPages
        (b.pageIndex * pageSize) b.numPages { mm with memory := memory }
      else { mm with memory := memory } := by
    simp only [optimizeBlock, KBlockInfo.getNumPages, KBlockInfo.getAddress, hprocess]
    rw [if_neg (by omega)]
  rw [hblock]
  by_cases hnew : anyNew = true
  · rw [if_pos hnew]
    refine ⟨fun a => ?_, fun q hq => ?_⟩
    · rw [rangeLoop_memory]
      exact hmem a
    · obtain ⟨i, hi, hreg⟩ := hq
      have hkept := rangeLoop_track_kept b.numPages (b.pageIndex * pageSize) b.numPages
        { mm with memory := memory }
      have hmark : ((rangeLoop Impl.trackOptimizedAllocation b.numPages (b.pageIndex * pageSize)
          b.numPages { mm with memory := memory }).managers i).marked q =
            if q ∈ b.pages then true else (mm.managers i).marked q :=
        rangeLoop_track_marked (hl.of_sameShape (kept_with_memory mm memory).sameShape)
          hmanaged i hi q hreg
      have hlayout : (rangeLoop Impl.trackOptimizedAllocation b.numPages (b.pageIndex * pageSize)
          b.numPages { mm with memory := memory }).layout = mm.layout := hkept.layout
      rw [markedPage, hlayout, hl.lookup i hi q hreg, hmark, hl.markedPage_eq hi hreg]
      by_cases hin : q ∈ b.pages
      · rw [if_pos hin]
        exact ⟨fun _ => inr ⟨hin, hany.1 hnew⟩, fun _ => rfl⟩
      · rw [if_neg hin]
        exact ⟨inl, fun h => h.elim id fun h => absurd h.1 hin⟩
  · rw [if_neg hnew]
    refine ⟨hmem, fun q _ => ?_⟩
    show mm.markedPage q = true ↔ _
    exact ⟨inl, fun h => h.elim id fun h => absurd (hany.2 h.2) hnew⟩

/-- The blocks of a group for the optimized process. -/
theorem optimizeBlocks_spec (fillPattern : BitVec 8) (blocks : List KBlockInfo) :
    ∀ {mm : KMemoryManager}, Layout mm → Fits blocks →
      blocks.Pairwise (fun b b' => Disjoint b.pages b'.pages) → (∀ q ∈ pages blocks, Managed mm q) →
        (∀ a, (blocks.foldl (optimizeBlock fillPattern) mm).memory a =
          if a / pageSize ∈ pages blocks ∧ mm.markedPage (a / pageSize) = false then fillPattern
          else mm.memory a) ∧
        ∀ q, Managed mm q → ((blocks.foldl (optimizeBlock fillPattern) mm).markedPage q = true ↔
          mm.markedPage q = true ∨
            ∃ b ∈ blocks, q ∈ b.pages ∧ mm.LastPartNew b.pageIndex b.numPages) := by
  induction blocks with
  | nil =>
    intro mm _ _ _ _
    refine ⟨fun a => ?_, fun q _ => ?_⟩
    · rw [if_neg fun h => notMem_empty _ h.1]
      rfl
    · simp
  | cons b rest ih =>
    intro mm hl hfits hdis hmanaged
    obtain ⟨hhead, hrest⟩ := List.pairwise_cons.1 hdis
    have hsplit : pages (b :: rest) = b.pages ∪ pages rest := rfl
    rw [hsplit] at hmanaged ⊢
    obtain ⟨hmem, hmark⟩ := optimizeBlock_spec hl (hfits b List.mem_cons_self).1
      (fun q hq => hmanaged q (mem_union_left _ hq)) fillPattern
    have hkept := optimizeBlock_kept fillPattern mm b
    obtain ⟨hmem', hmark'⟩ := ih (hl.of_sameShape hkept.sameShape)
      (fun b' hb' => hfits b' (List.mem_cons_of_mem _ hb')) hrest
      (fun q hq => (hkept.managed_iff q).2 (hmanaged q (mem_union_right _ hq)))
    -- The other blocks have none of the pages of this one.
    have hother : ∀ b' ∈ rest, ∀ q ∈ b'.pages, q ∉ b.pages := fun b' hb' q hq hin =>
      disjoint_left.1 (hhead b' hb') hin hq
    have hsame : ∀ b' ∈ rest, ∀ q ∈ b'.pages,
        (optimizeBlock fillPattern mm b).markedPage q = mm.markedPage q := by
      intro b' hb' q hq
      have hq' := hmark q (hmanaged q (mem_union_right _ (mem_pages.2 ⟨b', hb', hq⟩)))
      rw [Bool.eq_iff_iff, hq', or_iff_left fun h => hother b' hb' q hq h.1]
    refine ⟨fun a => ?_, fun q hq => ?_⟩
    · rw [List.foldl_cons, hmem', hmem]
      by_cases hin : a / pageSize ∈ pages rest
      · obtain ⟨b', hb', hq'⟩ := mem_pages.1 hin
        have hout := hother b' hb' _ hq'
        simp only [hin, hout, mem_union, false_or, true_and, false_and, if_false,
          hsame b' hb' _ hq']
      · simp only [hin, mem_union, or_false, false_and, if_false]
    · rw [List.foldl_cons, hmark' q ((hkept.managed_iff q).2 hq), hmark q hq]
      have hlast : ∀ b' ∈ rest, ((optimizeBlock fillPattern mm b).LastPartNew b'.pageIndex
          b'.numPages ↔ mm.LastPartNew b'.pageIndex b'.numPages) := fun b' hb' =>
        lastPartNew_congr hkept.layout fun q hq => hsame b' hb' q hq
      simp only [List.mem_cons, exists_eq_or_imp, or_assoc]
      refine or_congr_right (or_congr_right (exists_congr fun b' => and_congr_right fun hb' => ?_))
      rw [hlast b' hb']

/-- The blocks of a group for any other process. -/
theorem fillBlocks_memory (fillPattern : BitVec 8) (blocks : List KBlockInfo) :
    ∀ (mm : KMemoryManager) (a : Nat), (blocks.foldl (fillBlock fillPattern) mm).memory a =
      if a / pageSize ∈ pages blocks then fillPattern else mm.memory a := by
  induction blocks with
  | nil =>
    intro mm a
    exact (if_neg (notMem_empty (a / pageSize))).symm
  | cons b rest ih =>
    intro mm a
    have hsplit : pages (b :: rest) = b.pages ∪ pages rest := rfl
    have hin : b.getAddress ≤ a ∧ a < b.getAddress + b.getSize ↔ a / pageSize ∈ b.pages := by
      rw [KBlockInfo.getAddress, KBlockInfo.getSize, KBlockInfo.getNumPages, ← add_mul,
        KBlockInfo.pages, mem_Ico, Nat.le_div_iff_mul_le pageSize_pos,
        Nat.div_lt_iff_lt_mul pageSize_pos]
    have hmem : (fillBlock fillPattern mm b).memory a =
        if a / pageSize ∈ b.pages then fillPattern else mm.memory a := by
      simp only [fillBlock, memset, hin]
    rw [List.foldl_cons, ih, hsplit, hmem]
    by_cases h1 : a / pageSize ∈ b.pages <;> by_cases h2 : a / pageSize ∈ pages rest <;>
      simp [h1, h2]

theorem fillBlocks_managers (fillPattern : BitVec 8) (blocks : List KBlockInfo) :
    ∀ mm : KMemoryManager, (blocks.foldl (fillBlock fillPattern) mm).managers = mm.managers ∧
      (blocks.foldl (fillBlock fillPattern) mm).layout = mm.layout := by
  induction blocks with
  | nil => intro mm; exact ⟨rfl, rfl⟩
  | cons b _ ih => intro mm; exact ih _

end Blocks

/-! ## Seams and marks -/

/-- If the first page of a manager of the pool is free and marked, then every page from which free
pages of the pool lead up to it is marked. -/
def MarksAgree (mm : KMemoryManager) (pool : Pool) : Prop :=
  ∀ i < mm.numManagers, (mm.managers i).pool = pool →
    (mm.managers i).firstPage ∈ (mm.managers i).heap.freePages →
    (mm.managers i).marked (mm.managers i).firstPage = true → ∀ p < (mm.managers i).firstPage,
        (∀ q ∈ Finset.Ico p (mm.managers i).firstPage, ∃ j < mm.numManagers,
          (mm.managers j).pool = pool ∧ q ∈ (mm.managers j).heap.freePages) →
        mm.markedPage p = true

section Agreement

variable {mm : KMemoryManager} {pool : Pool} {p n : Nat}

/-- Where the marks agree, a range of free pages whose last part has no new page has none at all. -/
theorem MarksAgree.all_marked (h : MarksAgree mm pool) (hv : Valid mm)
    (hfree : ∀ q ∈ Finset.Ico p (p + n), ∃ j < mm.numManagers,
      (mm.managers j).pool = pool ∧ q ∈ (mm.managers j).heap.freePages)
    (hold : ¬mm.LastPartNew p n) : ∀ q ∈ Finset.Ico p (p + n), mm.markedPage q = true := by
  intro q hq
  have hq' := mem_Ico.1 hq
  obtain ⟨i, hi, hpool, hlast⟩ := hfree (p + n - 1) (mem_Ico.2 ⟨by omega, by omega⟩)
  have hlastRegion := (hv.managers i hi).freePages_subset hlast
  obtain ⟨hlo, hhi⟩ := Impl.mem_region.1 hlastRegion
  -- A page of the last part is marked.
  have hpart : ∀ x ∈ Finset.Ico p (p + n), (mm.managers i).firstPage ≤ x →
      mm.markedPage x = true := by
    intro x hx hge
    have hx' := mem_Ico.1 hx
    have hregion : x ∈ (mm.managers i).region := Impl.mem_region.2 ⟨hge, by omega⟩
    by_contra hmark
    refine hold ⟨x, hx, ?_, by simpa using hmark⟩
    rw [hv.layout.lookup i hi x hregion, hv.layout.lookup i hi _ hlastRegion]
  by_cases hge : (mm.managers i).firstPage ≤ q
  · exact hpart q hq hge
  · have hfirst : (mm.managers i).firstPage ∈ Finset.Ico p (p + n) := mem_Ico.2 ⟨by omega, by omega⟩
    have hregion : (mm.managers i).firstPage ∈ (mm.managers i).region :=
      Impl.mem_region.2 ⟨le_refl _, by omega⟩
    obtain ⟨j, hj, -, hfirstFree⟩ := hfree _ hfirst
    obtain rfl : j = i := hv.layout.unique hj hi
      ((hv.managers j hj).freePages_subset hfirstFree) hregion
    refine h j hj hpool hfirstFree ?_ q (by omega) fun x hx => hfree x ?_
    · rw [← hv.layout.markedPage_eq hj hregion]
      exact hpart _ hfirst (le_refl _)
    · rw [mem_Ico] at hx ⊢
      omega

end Agreement

/-! ## Runs with an optimized process -/

/-- The managers that a run leads to after `InitializeOptimizedMemory`, with the process that each
page was last handed to since. -/
inductive OptimizedRun (processId : Nat) (pool : Pool) : KMemoryManager → (Nat → Option Nat) → Prop
  | registered {mm mm' : KMemoryManager} : Valid mm →
      mm.initializeOptimizedMemory processId pool = some mm' →
      OptimizedRun processId pool mm' fun _ => none
  | allocatedForProcess {mm mm' : KMemoryManager} {last : Nat → Option Nat} {out g : KPageGroup}
      (numPages : Nat) (source : Pool) (dir : Direction) (caller : Nat) (fillPattern : BitVec 8) :
      OptimizedRun processId pool mm last → out.blocks = [] →
      mm.allocateForProcess out numPages source dir caller fillPattern = (.ok g, mm') →
      OptimizedRun processId pool mm' fun p => if p ∈ pages g.blocks then some caller else last p
  | allocateForProcessFailed {mm mm' : KMemoryManager} {last : Nat → Option Nat} {out : KPageGroup}
      {e : AllocateError} (numPages : Nat) (source : Pool) (dir : Direction) (caller : Nat)
      (fillPattern : BitVec 8) :
      OptimizedRun processId pool mm last → out.blocks = [] →
      mm.allocateForProcess out numPages source dir caller fillPattern = (.error e, mm') →
      OptimizedRun processId pool mm' last
  | allocatedAndOpened {mm mm' : KMemoryManager} {last : Nat → Option Nat} {out g : KPageGroup}
      (numPages : Nat) (source : Pool) (dir : Direction) :
      OptimizedRun processId pool mm last → out.blocks = [] →
      mm.allocateAndOpen out numPages source dir = (.ok g, mm') →
      OptimizedRun processId pool mm' fun p => if p ∈ pages g.blocks then none else last p
  | allocateAndOpenFailed {mm mm' : KMemoryManager} {last : Nat → Option Nat} {out : KPageGroup}
      {e : AllocateError} (numPages : Nat) (source : Pool) (dir : Direction) :
      OptimizedRun processId pool mm last → out.blocks = [] →
      mm.allocateAndOpen out numPages source dir = (.error e, mm') →
      OptimizedRun processId pool mm' last
  | allocatedContinuous {mm mm' : KMemoryManager} {last : Nat → Option Nat} {addr : Nat}
      (numPages alignPages : Nat) (source : Pool) (dir : Direction) :
      OptimizedRun processId pool mm last → alignPages ≠ 0 →
      mm.allocateAndOpenContinuous numPages alignPages source dir = some (addr, mm') →
      OptimizedRun processId pool mm' fun p =>
        if p ∈ takenPages addr numPages then none else last p
  | openedFirst {mm : KMemoryManager} {last : Nat → Option Nat} (p n : Nat) :
      OptimizedRun processId pool mm last → (∀ q ∈ Finset.Ico p (p + n), Managed mm q) →
      (∀ i < mm.numManagers, ∀ q ∈ Finset.Ico p (p + n), q ∈ (mm.managers i).region →
        q ∉ (mm.managers i).heap.freePages) →
      OptimizedRun processId pool (mm.openFirst (p * pageSize) n) last
  | opened {mm : KMemoryManager} {last : Nat → Option Nat} (p n : Nat) :
      OptimizedRun processId pool mm last → (∀ q ∈ Finset.Ico p (p + n), Managed mm q) →
      (∀ i < mm.numManagers, ∀ q ∈ Finset.Ico p (p + n), q ∈ (mm.managers i).region →
        q ∉ (mm.managers i).heap.freePages) →
      OptimizedRun processId pool (mm.openPages (p * pageSize) n) last
  | closed {mm : KMemoryManager} {last : Nat → Option Nat} (p n : Nat) :
      OptimizedRun processId pool mm last → (∀ q ∈ Finset.Ico p (p + n), Managed mm q) →
      (∀ i < mm.numManagers, ∀ q ∈ Finset.Ico p (p + n), q ∈ (mm.managers i).region →
        (mm.managers i).refCount q ≠ 0) →
      OptimizedRun processId pool (mm.close (p * pageSize) n) last

/-- The pool has its optimized process, and the marks name pages that were last handed to it. -/
structure MarksSound (processId : Nat) (pool : Pool) (mm : KMemoryManager) (last : Nat → Option Nat) :
    Prop where
  valid : Valid mm
  hasProcess : mm.hasOptimizedProcess pool = true
  isProcess : mm.optimizedProcessIds pool = processId
  marked : ∀ i < mm.numManagers, (mm.managers i).pool = pool → ∀ q ∈ (mm.managers i).region,
    (mm.managers i).marked q = true → last q = some processId

section Sound

variable {processId : Nat} {pool source : Pool} {mm mm' : KMemoryManager} {last : Nat → Option Nat}

/-- A step keeps the marks sound if it marks only pages that it hands to the process. -/
theorem MarksSound.step (h : MarksSound processId pool mm last) {last' : Nat → Option Nat}
    (hshape : SameShape mm mm') (hvalid : Valid mm')
    (hmarks : ∀ i < mm.numManagers, (mm.managers i).pool = pool → ∀ q ∈ (mm.managers i).region,
      (mm'.managers i).marked q = true → last' q = some processId) :
    MarksSound processId pool mm' last' := by
  refine ⟨hvalid, ?_, ?_, fun i hi hpool q hq => ?_⟩
  · rw [hshape.hasOptimizedProcess]
    exact h.hasProcess
  · rw [hshape.optimizedProcessIds]
    exact h.isProcess
  · exact hmarks i (hshape.numManagers ▸ hi) ((hshape.managers i).pool.symm.trans hpool) q
      (hshape.region i ▸ hq)

/-- Taking pages for no process. -/
theorem MarksSound.taken (h : MarksSound processId pool mm last) {change : BitVec 16 → BitVec 16}
    {S : Finset Nat} (ht : Taken mm mm' source (mm.hasOptimizedProcess source) change S) :
    MarksSound processId pool mm' fun p => if p ∈ S then none else last p := by
  refine h.step ht.shape ht.valid fun i hi hpool q hq hmark => ?_
  rw [ht.marked i hi q hq] at hmark
  by_cases hS : q ∈ S
  · -- The page comes from the pool, so that its mark is gone.
    obtain ⟨j, hj, hsource, hfree⟩ := ht.source q hS
    obtain rfl := h.valid.layout.unique hj hi ((h.valid.managers j hj).freePages_subset hfree) hq
    obtain rfl : source = pool := hsource.symm.trans hpool
    rw [if_pos ⟨h.hasProcess, hS⟩] at hmark
    exact absurd hmark (by decide)
  · rw [if_neg fun hin => hS hin.2] at hmark
    simp only [if_neg hS]
    exact h.marked i hi hpool q hq hmark

theorem MarksSound.failed (h : MarksSound processId pool mm last) (hf : Failed mm mm' source) :
    MarksSound processId pool mm' last :=
  h.step hf.shape hf.valid fun i hi hpool q hq hmark =>
    h.marked i hi hpool q hq (hf.marked i hi q hq hmark)

/-- A step that leaves the optimize maps alone. -/
theorem MarksSound.of_optimizeMap (h : MarksSound processId pool mm last)
    (hshape : SameShape mm mm') (hvalid : Valid mm')
    (hmap : ∀ i, (mm'.managers i).optimizeMap = (mm.managers i).optimizeMap) :
    MarksSound processId pool mm' last := by
  refine h.step hshape hvalid fun i hi hpool q hq hmark => h.marked i hi hpool q hq ?_
  rw [Impl.marked, hmap, (hshape.managers i).firstPage] at hmark
  exact hmark

end Sound

section Register

variable {processId : Nat} {pool : Pool} {mm mm' : KMemoryManager}

/-- The optimize map of a manager covers its pages, and is cleared. -/
theorem Impl.marked_initializeOptimizedMemory {m : Impl} {q : Nat} (hq : q ∈ m.region) :
    m.initializeOptimizedMemory.marked q = false := by
  obtain ⟨hlo, hhi⟩ := mem_region.1 hq
  have hword : (q - m.firstPage) / 64 * 8 <
      calculateOptimizedProcessOverheadSize m.heap.heapSize := by
    have hup : m.heap.heapSize / pageSize ≤
        alignUp (m.heap.heapSize / pageSize) bitSize / bitSize * bitSize := by
      rw [Nat.div_mul_cancel (dvd_alignUp _ _)]
      exact le_alignUp _ _ (by decide)
    have hbits : bitSize = 64 := rfl
    rw [calculateOptimizedProcessOverheadSize]
    rw [hbits] at hup ⊢
    refine Nat.mul_lt_mul_of_pos_right ?_ (by decide)
    rw [Nat.div_lt_iff_lt_mul (by decide)]
    omega
  have hmap : m.initializeOptimizedMemory.optimizeMap ((q - m.firstPage) / 64) = 0 := if_pos hword
  have hfirst : m.initializeOptimizedMemory.firstPage = m.firstPage := rfl
  rw [marked, hfirst, hmap]
  exact BitVec.getLsbD_zero

/-- The loop that clears the optimize maps of the managers of a pool. -/
theorem foldl_initializeOptimizedMemory (l : List Nat) : ∀ mm : KMemoryManager,
    Kept mm (l.foldl (fun mm i => mm.setManager i (mm.managers i).initializeOptimizedMemory) mm) ∧
      ∀ i, (i ∈ l ∨ ∀ q ∈ (mm.managers i).region, (mm.managers i).marked q = false) →
        ∀ q ∈ (mm.managers i).region,
          ((l.foldl (fun mm i => mm.setManager i (mm.managers i).initializeOptimizedMemory)
            mm).managers i).marked q = false := by
  induction l with
  | nil =>
    intro mm
    refine ⟨Kept.refl mm, fun i hi => ?_⟩
    rcases hi with hi | hi
    · exact absurd hi List.not_mem_nil
    · exact hi
  | cons j rest ih =>
    intro mm
    have hstep : Kept mm (mm.setManager j (mm.managers j).initializeOptimizedMemory) :=
      kept_setManager rfl rfl rfl
    obtain ⟨hkept, hclear⟩ := ih (mm.setManager j (mm.managers j).initializeOptimizedMemory)
    refine ⟨hstep.trans hkept, fun i hi q hq => ?_⟩
    have hregion := hstep.sameShape.region i
    refine hclear i ?_ q (hregion.symm ▸ hq)
    by_cases hij : i = j
    · subst hij
      refine inr fun q hq => ?_
      rw [setManager_self]
      exact Impl.marked_initializeOptimizedMemory (hregion ▸ hq)
    · rw [setManager_of_ne _ _ hij]
      exact hi.imp (fun h => (List.mem_cons.1 h).resolve_left hij) id

/-- After `InitializeOptimizedMemory` no page of the pool is marked. -/
theorem initializeOptimizedMemory_sound (hv : Valid mm)
    (hinit : mm.initializeOptimizedMemory processId pool = some mm') :
    MarksSound processId pool mm' (fun _ => none) ∧
      ∀ i < mm'.numManagers, (mm'.managers i).pool = pool → ∀ q ∈ (mm'.managers i).region,
        (mm'.managers i).marked q = false := by
  rw [initializeOptimizedMemory] at hinit
  split_ifs at hinit
  obtain rfl := Option.some.inj hinit
  obtain ⟨hkept, hclear⟩ := foldl_initializeOptimizedMemory (mm.poolManagers pool .fromFront)
    { mm with
      optimizedProcessIds := update mm.optimizedProcessIds pool processId
      hasOptimizedProcess := update mm.hasOptimizedProcess pool true }
  have hvalid := hkept.valid ⟨⟨hv.layout.1, hv.layout.2, hv.layout.3⟩, hv.managers⟩
  have hclear' : ∀ i, _ → _ → ∀ q, _ → _ = false := fun i hi hpool q hq =>
    hclear i (inl (mem_poolManagers.2
      ⟨hkept.numManagers ▸ hi, (hkept.pool i).symm.trans hpool⟩)) q (hkept.sameShape.region i ▸ hq)
  refine ⟨⟨hvalid, ?_, ?_, fun i hi hpool q hq hmark => ?_⟩, hclear'⟩
  · exact (congrFun hkept.hasOptimizedProcess pool).trans (update_self ..)
  · exact (congrFun hkept.optimizedProcessIds pool).trans (update_self ..)
  · exact absurd ((hclear' i hi hpool q hq).symm.trans hmark) (by decide)

theorem initializeOptimizedMemory_heap
    (hinit : mm.initializeOptimizedMemory processId pool = some mm') :
    mm'.numManagers = mm.numManagers ∧ ∀ i, (mm'.managers i).heap = (mm.managers i).heap ∧
        (mm'.managers i).pool = (mm.managers i).pool := by
  rw [initializeOptimizedMemory] at hinit
  split_ifs at hinit
  obtain rfl := Option.some.inj hinit
  obtain ⟨hkept, -⟩ := foldl_initializeOptimizedMemory (mm.poolManagers pool .fromFront)
    { mm with
      optimizedProcessIds := update mm.optimizedProcessIds pool processId
      hasOptimizedProcess := update mm.hasOptimizedProcess pool true }
  exact ⟨hkept.numManagers, fun i => ⟨hkept.heap i, hkept.pool i⟩⟩

end Register

/-! ## Handing out pages -/

/-- Every byte of the page has the value. -/
def Filled (mm : KMemoryManager) (fillPattern : BitVec 8) (p : Nat) : Prop :=
  ∀ a, a / pageSize = p → mm.memory a = fillPattern

section HandOut

variable {processId : Nat} {pool source : Pool} {mm mm' : KMemoryManager} {last : Nat → Option Nat}
  {out g : KPageGroup} {dir : Direction} {numPages caller : Nat} {fillPattern : BitVec 8}

/-- An allocation for the optimized process of its pool. -/
theorem allocateForProcess_optimized (hv : Valid mm) (hout : out.blocks = [])
    (hhas : mm.hasOptimizedProcess source = true) (his : mm.optimizedProcessIds source = caller)
    (hok : mm.allocateForProcess out numPages source dir caller fillPattern = (.ok g, mm')) :
    SameShape mm mm' ∧ Valid mm' ∧
      (∀ p ∈ pages g.blocks, mm.markedPage p = false → Filled mm' fillPattern p) ∧
      (∀ q, Managed mm q → (mm'.markedPage q = true ↔ mm.markedPage q = true ∨
        ∃ b ∈ g.blocks, q ∈ b.pages ∧ mm.LastPartNew b.pageIndex b.numPages)) := by
  have htaken := allocateForProcess_taken hv hout hok
  obtain ⟨mm₁, halloc, rfl⟩ := allocateForProcess_ok hok
  have hoptimized : (mm.hasOptimizedProcess source && decide (mm.optimizedProcessIds source = caller)) =
      true := by rw [hhas, decide_eq_true his]; rfl
  have hunoptimized : (mm.hasOptimizedProcess source &&
      !decide (mm.optimizedProcessIds source = caller)) = false := by
    rw [hhas, decide_eq_true his]
    rfl
  rw [hunoptimized] at halloc
  rw [if_pos hoptimized] at htaken ⊢
  have hs := allocatePageGroupImpl_ok hv hout halloc
  have hmanaged : ∀ q, Managed mm q → Managed mm₁ q := fun q hq => hq.of_sameShape hs.shape
  have hmark : ∀ q, Managed mm q → mm₁.markedPage q = mm.markedPage q := by
    rintro q ⟨i, hi, hq⟩
    rw [hv.layout.markedPage_eq hi hq, hs.valid.layout.markedPage_eq (hs.shape.numManagers.symm ▸ hi)
      ((hs.shape.region i).symm ▸ hq), hs.marked i hi q hq, if_neg (fun h => absurd h.1 (by decide))]
  have hpages : ∀ q ∈ pages g.blocks, Managed mm q := by
    intro q hq
    obtain ⟨i, hi, -, hfree⟩ := hs.source q hq
    exact ⟨i, hi, (hv.managers i hi).freePages_subset hfree⟩
  obtain ⟨hmem, hmarks⟩ := optimizeBlocks_spec fillPattern g.blocks hs.valid.layout hs.fits
    hs.disjoint fun q hq => hmanaged q (hpages q hq)
  refine ⟨htaken.shape, htaken.valid, fun p hp hnew a ha => ?_, fun q hq => ?_⟩
  · rw [hmem, ha, if_pos ⟨hp, (hmark p (hpages p hp)).trans hnew⟩]
  · rw [hmarks q (hmanaged q hq), hmark q hq]
    refine or_congr_right (exists_congr fun b => and_congr_right fun hb => and_congr_right fun _ => ?_)
    exact lastPartNew_congr hs.shape.layout fun x hx => hmark x (hpages x (mem_pages.2 ⟨b, hb, hx⟩))

/-- An allocation for any other process. -/
theorem allocateForProcess_unoptimized (hv : Valid mm) (hout : out.blocks = [])
    (hnot : ¬(mm.hasOptimizedProcess source = true ∧ mm.optimizedProcessIds source = caller))
    (hok : mm.allocateForProcess out numPages source dir caller fillPattern = (.ok g, mm')) :
    (∀ p ∈ pages g.blocks, Filled mm' fillPattern p) ∧
      Taken mm mm' source (mm.hasOptimizedProcess source) id (pages g.blocks) := by
  obtain ⟨mm₁, halloc, rfl⟩ := allocateForProcess_ok hok
  have hoptimized : ¬(mm.hasOptimizedProcess source &&
      decide (mm.optimizedProcessIds source = caller)) = true := by
    rw [Bool.and_eq_true, decide_eq_true_eq]
    exact hnot
  have hunoptimized : (mm.hasOptimizedProcess source &&
      !decide (mm.optimizedProcessIds source = caller)) = mm.hasOptimizedProcess source := by
    cases hhas : mm.hasOptimizedProcess source with
    | false => rfl
    | true =>
      rw [decide_eq_false fun his => hnot ⟨hhas, his⟩]
      rfl
  rw [hunoptimized] at halloc
  rw [if_neg hoptimized]
  have ht := (allocatePageGroupImpl_ok hv hout halloc).taken
  obtain ⟨hmanagers, -⟩ := fillBlocks_managers fillPattern g.blocks mm₁
  refine ⟨fun p hp a ha => ?_, ht.toTakenPages.kept
    (foldl_kept (fun mm _ => kept_with_memory mm _) g.blocks mm₁), fun i hi q hq => ?_⟩
  · rw [fillBlocks_memory, ha, if_pos hp]
  · rw [hmanagers]
    exact ht.marked i hi q hq

/-- An allocation for a process keeps the marks sound. -/
theorem MarksSound.allocatedForProcess (h : MarksSound processId pool mm last)
    (hout : out.blocks = [])
    (hok : mm.allocateForProcess out numPages source dir caller fillPattern = (.ok g, mm')) :
    MarksSound processId pool mm' fun p => if p ∈ pages g.blocks then some caller else last p := by
  have hv := h.valid
  have hsource := (allocateForProcess_taken hv hout hok).source
  -- A page of the group in a manager of the pool has been allocated from the pool.
  have hpool : ∀ i < mm.numManagers, (mm.managers i).pool = pool → ∀ q ∈ (mm.managers i).region,
      q ∈ pages g.blocks → source = pool := by
    intro i hi hpool q hq hin
    obtain ⟨j, hj, hsrc, hfree⟩ := hsource q hin
    obtain rfl := hv.layout.unique hj hi ((hv.managers j hj).freePages_subset hfree) hq
    exact hsrc.symm.trans hpool
  by_cases hopt : mm.hasOptimizedProcess source = true ∧ mm.optimizedProcessIds source = caller
  · obtain ⟨hshape, hvalid, -, hmarks⟩ := allocateForProcess_optimized hv hout hopt.1 hopt.2 hok
    refine h.step hshape hvalid fun i hi hp q hq hmark => ?_
    rw [← hvalid.layout.markedPage_eq (hshape.numManagers.symm ▸ hi)
      ((hshape.region i).symm ▸ hq), hmarks q ⟨i, hi, hq⟩, hv.layout.markedPage_eq hi hq] at hmark
    by_cases hin : q ∈ pages g.blocks
    · obtain rfl := hpool i hi hp q hq hin
      simp only [if_pos hin, ← hopt.2, h.isProcess]
    · simp only [if_neg hin]
      rcases hmark with hmark | ⟨b, hb, hqb, -⟩
      · exact h.marked i hi hp q hq hmark
      · exact absurd (mem_pages.2 ⟨b, hb, hqb⟩) hin
  · obtain ⟨-, ht⟩ := allocateForProcess_unoptimized hv hout hopt hok
    refine h.step ht.shape ht.valid fun i hi hp q hq hmark => ?_
    rw [ht.marked i hi q hq] at hmark
    by_cases hin : q ∈ pages g.blocks
    · obtain rfl := hpool i hi hp q hq hin
      rw [if_pos ⟨h.hasProcess, hin⟩] at hmark
      exact absurd hmark (by decide)
    · rw [if_neg fun hcon => hin hcon.2] at hmark
      simp only [if_neg hin]
      exact h.marked i hi hp q hq hmark

/-- Over every run the marks name pages that were last handed to the optimized process. -/
theorem OptimizedRun.sound (hrun : OptimizedRun processId pool mm last) :
    MarksSound processId pool mm last := by
  induction hrun with
  | registered hv hinit => exact (initializeOptimizedMemory_sound hv hinit).1
  | allocatedForProcess _ _ _ _ _ _ hout hok ih => exact ih.allocatedForProcess hout hok
  | allocateForProcessFailed _ _ _ _ _ _ hout herr ih =>
    exact ih.failed (allocateForProcess_failed ih.valid hout herr)
  | allocatedAndOpened _ _ _ _ hout hok ih => exact ih.taken (allocateAndOpen_ok ih.valid hout hok).1
  | allocateAndOpenFailed _ _ _ _ hout herr ih =>
    exact ih.failed (allocateAndOpen_failed ih.valid hout herr)
  | allocatedContinuous _ _ _ _ _ halign hresult ih =>
    exact ih.taken (allocateAndOpenContinuous_taken ih.valid halign hresult).1
  | openedFirst p n _ hmanaged hused ih =>
    have ho := openPages_opened ih.valid hmanaged hused
    exact ih.of_optimizeMap ho.shape ho.valid ho.optimizeMap
  | opened p n _ hmanaged hused ih =>
    have ho := openPages_opened ih.valid hmanaged hused
    exact ih.of_optimizeMap ho.shape ho.valid ho.optimizeMap
  | closed p n _ hmanaged hopen ih =>
    obtain ⟨hshape, hc⟩ := close_spec ih.valid hmanaged hopen
    exact ih.of_optimizeMap hshape hc.valid hc.optimizeMap

/-- In every state of every run, `AllocateForProcess` fills every page that it hands out, or the page
is marked, was last handed to the optimized process, and goes back to it. After an allocation for
another process no page of it is marked; after one for the optimized process all are, if the marks at
the seams of the pool agreed. -/
theorem optimizedRun_spec (hrun : OptimizedRun processId pool mm last) (hout : out.blocks = [])
    (hok : mm.allocateForProcess out numPages pool dir caller fillPattern = (.ok g, mm')) :
    (∀ p ∈ pages g.blocks, Filled mm' fillPattern p ∨
        mm.markedPage p = true ∧ last p = some processId ∧ caller = processId) ∧
      (caller ≠ processId → ∀ p ∈ pages g.blocks, mm'.markedPage p = false) ∧
      (caller = processId → MarksAgree mm pool → ∀ p ∈ pages g.blocks, mm'.markedPage p = true) := by
  have h := hrun.sound
  have hv := h.valid
  have hsource := (allocateForProcess_taken hv hout hok).source
  by_cases hcaller : caller = processId
  · subst hcaller
    obtain ⟨-, -, hfilled, hmarks⟩ :=
      allocateForProcess_optimized hv hout h.hasProcess h.isProcess hok
    refine ⟨fun p hp => ?_, fun hne => absurd rfl hne, fun _ hagree p hp => ?_⟩
    · obtain ⟨i, hi, hpool, hfree⟩ := hsource p hp
      have hreg := (hv.managers i hi).freePages_subset hfree
      cases hmark : mm.markedPage p with
      | false => exact inl (hfilled p hp hmark)
      | true =>
        rw [hv.layout.markedPage_eq hi hreg] at hmark
        exact inr ⟨rfl, h.marked i hi hpool p hreg hmark, rfl⟩
    · obtain ⟨b, hb, hpb⟩ := mem_pages.1 hp
      obtain ⟨i, hi, -, hfree⟩ := hsource p hp
      rw [hmarks p ⟨i, hi, (hv.managers i hi).freePages_subset hfree⟩]
      by_cases hlast : mm.LastPartNew b.pageIndex b.numPages
      · exact inr ⟨b, hb, hpb, hlast⟩
      · exact inl (hagree.all_marked hv
          (fun q hq => hsource q (mem_pages.2 ⟨b, hb, hq⟩)) hlast p hpb)
  · have hnot : ¬(mm.hasOptimizedProcess pool = true ∧ mm.optimizedProcessIds pool = caller) :=
      fun hopt => hcaller (hopt.2.symm.trans h.isProcess)
    obtain ⟨hfilled, ht⟩ := allocateForProcess_unoptimized hv hout hnot hok
    refine ⟨fun p hp => inl (hfilled p hp), fun _ p hp => ?_, fun heq => absurd heq hcaller⟩
    obtain ⟨i, hi, -, hfree⟩ := hsource p hp
    have hreg := (hv.managers i hi).freePages_subset hfree
    rw [ht.valid.layout.markedPage_eq (ht.shape.numManagers.symm ▸ hi)
      ((ht.shape.region i).symm ▸ hreg), ht.marked i hi p hreg, if_pos ⟨h.hasProcess, hp⟩]

end HandOut

/-! ## A block over two managers -/

section Example

variable {mm mm₁ : KMemoryManager} {g : KPageGroup} {pool : Pool} {dir : Direction}
  {numPages heapIndex processId : Nat} {fillPattern : BitVec 8}

theorem allocateForProcess_of_allocateGroup (hindex : getBlockIndex numPages = some heapIndex)
    (hnum : ∀ unoptimized random, (mm.allocateGroup emptyGroup numPages heapIndex pool dir unoptimized
      random).numPages = 0)
    (hfail : ∀ unoptimized random, (mm.allocateGroup emptyGroup numPages heapIndex pool dir unoptimized
      random).failed = false)
    (hout : ∀ unoptimized random, (mm.allocateGroup emptyGroup numPages heapIndex pool dir unoptimized
      random).out.blocks = g.blocks) : ∃ g' mm', g'.blocks = g.blocks ∧
      mm.allocateForProcess emptyGroup numPages pool dir processId fillPattern = (.ok g', mm') := by
  simp only [allocateForProcess, allocatePageGroupImpl, hindex, hfail, hnum, Bool.false_eq_true,
    if_false, if_true]
  split_ifs
  · exact ⟨_, _, hout _ _, rfl⟩
  · exact ⟨_, _, hout _ _, rfl⟩

/-- The managers with the pages 31 and 32 free on both sides of the seam. -/
theorem twoManagers_seamState :
    Valid (twoManagers.seamState 0 1) ∧ SameShape twoManagers (twoManagers.seamState 0 1) ∧
      ((twoManagers.seamState 0 1).managers 0).heap.freePages = {31} ∧
      ((twoManagers.seamState 0 1).managers 1).heap.freePages = {32} := by
  obtain ⟨hvalid, hshape⟩ := seamState_valid twoManagers_layout twoManagers_seam
  obtain ⟨hfree₀, hfree₁, -⟩ := seamState_managers twoManagers_layout twoManagers_seam
  exact ⟨hvalid, hshape, hfree₀, hfree₁⟩

/-- After the registration of process 7 the same pages are free, and none is marked. -/
theorem registered_seamState :
    ∃ mm₀, (twoManagers.seamState 0 1).initializeOptimizedMemory 7 .application = some mm₀ ∧
      OptimizedRun 7 .application mm₀ (fun _ => none) ∧ mm₀.numManagers = 2 ∧
      Seam mm₀ .application 0 1 ∧ (mm₀.managers 1).firstPage = 32 ∧
      (mm₀.managers 0).heap.freePages = {31} ∧ (mm₀.managers 1).heap.freePages = {32} ∧
      ∀ q, Managed mm₀ q → mm₀.markedPage q = false := by
  obtain ⟨hvalid, hshape, hfree₀, hfree₁⟩ := twoManagers_seamState
  obtain ⟨mm₀, hinit⟩ : ∃ mm₀,
      (twoManagers.seamState 0 1).initializeOptimizedMemory 7 .application = some mm₀ :=
    ⟨_, if_neg Bool.false_ne_true⟩
  have hrun := OptimizedRun.registered hvalid hinit
  obtain ⟨hsound, hclear⟩ := initializeOptimizedMemory_sound hvalid hinit
  obtain ⟨hnum', hsame⟩ := initializeOptimizedMemory_heap hinit
  have hnum : mm₀.numManagers = 2 := hnum'
  have hheap : ∀ i, (mm₀.managers i).heap = ((twoManagers.seamState 0 1).managers i).heap :=
    fun i => (hsame i).1
  have hpool : ∀ i, (mm₀.managers i).pool = .application :=
    fun i => (hsame i).2.trans (hshape.managers i).pool
  have hseam := twoManagers_seam.of_sameShape hshape
  refine ⟨mm₀, hinit, hrun, hnum, ⟨?_, ?_, hpool 0, hpool 1, ?_⟩, ?_, ?_, ?_, ?_⟩
  · rw [hnum]
    decide
  · rw [hnum]
    decide
  · rw [Impl.getEndAddress, hheap, hheap]
    exact hseam.touch
  · rw [Impl.firstPage, hheap, (hshape.managers 1).heapAddress]
    rfl
  · rw [hheap]
    exact hfree₀
  · rw [hheap]
    exact hfree₁
  · rintro q ⟨i, hi, hq⟩
    rw [hsound.valid.layout.markedPage_eq hi hq]
    exact hclear i hi (hpool i) q hq

/-- From the back, process 7 gets page 32. -/
theorem registered_allocate_back :
    ∃ mm₀ g mm₁, (twoManagers.seamState 0 1).initializeOptimizedMemory 7 .application = some mm₀ ∧
      OptimizedRun 7 .application mm₀ (fun _ => none) ∧ mm₀.numManagers = 2 ∧
      Seam mm₀ .application 0 1 ∧ (mm₀.managers 1).firstPage = 32 ∧
      (mm₀.managers 0).heap.freePages = {31} ∧ (mm₀.managers 1).heap.freePages = {32} ∧
      (∀ q, Managed mm₀ q → mm₀.markedPage q = false) ∧
      mm₀.allocateForProcess emptyGroup 1 .application .fromBack 7 0xAA = (.ok g, mm₁) ∧
      g.blocks = [⟨32, 1⟩] := by
  obtain ⟨mm₀, hinit, hrun, hnum, hseam, hfirst, hfree₀, hfree₁, hclear⟩ := registered_seamState
  have hv := hrun.sound.valid
  have hlist : mm₀.poolManagers .application .fromBack = [1, 0] := by
    have h0 := hseam.left_pool
    have h1 := hseam.right_pool
    simp [poolManagers, hnum, List.range_succ, h0, h1]
  have hgroup : ∀ unoptimized random,
      (mm₀.allocateGroup emptyGroup 1 0 .application .fromBack unoptimized random).out.blocks =
          [⟨32, 1⟩] ∧
        (mm₀.allocateGroup emptyGroup 1 0 .application .fromBack unoptimized random).numPages = 0 ∧
        (mm₀.allocateGroup emptyGroup 1 0 .application .fromBack unoptimized random).failed =
          false := by
    intro unoptimized random
    obtain ⟨s, heq, hs, hout, hnumPages, hfail⟩ :=
      @allocateManagers_through_one_page mm₀ .application unoptimized 1 ⟨mm₀, emptyGroup, 1, false⟩
        (groupInvariant_start hv rfl .application unoptimized 1) rfl random [] [0] 1 32
        (fun i hi => absurd hi List.not_mem_nil) hseam.right_lt hseam.right_pool
        (by rw [hfree₁]; exact sdiff_empty) one_pos _ (emptyGroup_addBlock (by decide))
    have hdone : allocateWhile 0 unoptimized random 0 s.numPages s = s := by
      rw [hnumPages]
      rfl
    have hend : mm₀.allocateGroup emptyGroup 1 0 .application .fromBack unoptimized random = s := by
      rw [List.nil_append] at heq
      simp only [allocateGroup, hlist, allocateIndices, gt_iff_lt, one_pos, if_true, heq]
      simp only [allocateManagers, hdone, hfail, Bool.false_eq_true, if_false]
    rw [hend, hout, hnumPages, hfail]
    exact ⟨rfl, rfl, rfl⟩
  obtain ⟨g, mm₁, hblocks, hok⟩ := @allocateForProcess_of_allocateGroup mm₀ ⟨[⟨32, 1⟩], ⟨fun _ => true⟩⟩
    .application .fromBack 1 0 7 0xAA (by decide) (fun u r => (hgroup u r).2.1)
    (fun u r => (hgroup u r).2.2) fun u r => (hgroup u r).1
  exact ⟨mm₀, g, mm₁, hinit, hrun, hnum, hseam, hfirst, hfree₀, hfree₁, hclear, hok, hblocks⟩

/-- The page that process 7 gets is filled, and marked afterwards. -/
theorem optimizedRun_spec_registered :
    ∃ mm₀ g mm₁, (twoManagers.seamState 0 1).initializeOptimizedMemory 7 .application = some mm₀ ∧
      mm₀.allocateForProcess emptyGroup 1 .application .fromBack 7 0xAA = (.ok g, mm₁) ∧
      Filled mm₁ 0xAA 32 ∧ mm₁.markedPage 32 = true := by
  obtain ⟨mm₀, g, mm₁, hinit, hrun, -, hseam, hfirst, -, -, hclear, hok, hblocks⟩ :=
    registered_allocate_back
  have hv := hrun.sound.valid
  obtain ⟨hfilled, -, hmarked⟩ := optimizedRun_spec hrun rfl hok
  have hpage : 32 ∈ pages g.blocks := by
    rw [hblocks]
    decide
  have hregion : Managed mm₀ 32 :=
    ⟨1, hseam.right_lt, hfirst ▸ (hseam.pages hv.layout).2.2.2⟩
  refine ⟨mm₀, g, mm₁, hinit, hok, ?_, hmarked rfl ?_ 32 hpage⟩
  · rcases hfilled 32 hpage with hfill | ⟨hmark, -⟩
    · exact hfill
    · exact absurd ((hclear 32 hregion).symm.trans hmark) (by decide)
  · -- No page is marked, so the marks agree.
    intro i hi _ hfree hmark
    have hreg := (hv.managers i hi).freePages_subset hfree
    rw [← hv.layout.markedPage_eq hi hreg, hclear _ ⟨i, hi, hreg⟩] at hmark
    exact absurd hmark (by decide)

/-- After page 32 has been returned, process 7 asks for two pages. It gets one block over both
managers, with a new page in the first part and none in the last, and the new page stays
unmarked. -/
theorem allocateForProcess_leaves_unmarked :
    ∃ mm₀ g₁ mm₁ g₂ mm₂ last,
      (twoManagers.seamState 0 1).initializeOptimizedMemory 7 .application = some mm₀ ∧
      mm₀.allocateForProcess emptyGroup 1 .application .fromBack 7 0xAA = (.ok g₁, mm₁) ∧
      OptimizedRun 7 .application ((mm₁.openFirst (32 * pageSize) 1).close (32 * pageSize) 1) last ∧
      ((mm₁.openFirst (32 * pageSize) 1).close (32 * pageSize) 1).allocateForProcess emptyGroup 2
        .application .fromFront 7 0xAA = (.ok g₂, mm₂) ∧
      31 ∈ pages g₂.blocks ∧ mm₂.markedPage 31 = false := by
  obtain ⟨mm₀, g₁, mm₁, hinit, hrun₀, hnum, hseam, hfirst, hfree₀, hfree₁, hclear, hok₁, hblocks₁⟩ :=
    registered_allocate_back
  have hsound₀ := hrun₀.sound
  have hv₀ := hsound₀.valid
  have hrun₁ := OptimizedRun.allocatedForProcess 1 .application .fromBack 7 0xAA hrun₀ rfl hok₁
  have htaken := allocateForProcess_taken hv₀ rfl hok₁
  obtain ⟨hshape₁, hv₁, -, hmarks₁⟩ :=
    allocateForProcess_optimized hv₀ rfl hsound₀.hasProcess hsound₀.isProcess hok₁
  obtain ⟨hne, -, hleft, hright⟩ := hseam.pages hv₀.layout
  rw [hfirst] at hleft hright
  have hpages₁ : pages g₁.blocks = {32} := by
    rw [hblocks₁]
    decide
  have hmanaged31 : Managed mm₀ 31 := ⟨0, hseam.left_lt, hleft⟩
  have hmanaged32 : Managed mm₀ 32 := ⟨1, hseam.right_lt, hright⟩
  -- Page 32 is in use now, and marked; page 31 is as it was.
  rw [hpages₁] at htaken
  have hone : Finset.Ico 32 (32 + 1) = {32} := Nat.Ico_succ_singleton 32
  have hcount : (mm₁.managers 1).refCount 32 = 0 := by
    rw [htaken.refCount 1 hseam.right_lt 32 hright, id, ite_self]
    exact (hv₀.managers 1 hseam.right_lt).unreferenced 32 (hfree₁ ▸ mem_singleton_self 32)
  have hlt₁ : ∀ i, i < mm₁.numManagers ↔ i < 2 := fun i => by rw [hshape₁.numManagers, hnum]
  have honly : ∀ i < mm₁.numManagers, 32 ∈ (mm₁.managers i).region → i = 1 := by
    intro i hi hreg
    exact hv₁.layout.unique hi ((hlt₁ 1).2 (by decide)) hreg ((hshape₁.region 1).symm ▸ hright)
  have hmanaged₁ : ∀ q ∈ Finset.Ico 32 (32 + 1), Managed mm₁ q := by
    intro q hq
    rw [hone, mem_singleton] at hq
    exact hq ▸ hmanaged32.of_sameShape hshape₁
  have hused₁ : ∀ i < mm₁.numManagers, ∀ q ∈ Finset.Ico 32 (32 + 1), q ∈ (mm₁.managers i).region →
      q ∉ (mm₁.managers i).heap.freePages := by
    intro i hi q hq _
    rw [hone] at hq
    exact htaken.not_free hi hq
  have hopened := openPages_opened hv₁ hmanaged₁ hused₁
  have hrun₂ := OptimizedRun.openedFirst 32 1 hrun₁ hmanaged₁ hused₁
  rw [openFirst_eq_openPages] at hrun₂ ⊢
  have hmanaged₂ : ∀ q ∈ Finset.Ico 32 (32 + 1), Managed (mm₁.openPages (32 * pageSize) 1) q :=
    fun q hq => (hmanaged₁ q hq).of_sameShape hopened.shape
  have hcount₂ : ((mm₁.openPages (32 * pageSize) 1).managers 1).refCount 32 = 1 := by
    rw [hopened.refCount 1 ((hlt₁ 1).2 (by decide)) 32 ((hshape₁.region 1).symm ▸ hright),
      if_pos (by decide), hcount]
    rfl
  have hopen₂ : ∀ i < (mm₁.openPages (32 * pageSize) 1).numManagers, ∀ q ∈ Finset.Ico 32 (32 + 1),
      q ∈ ((mm₁.openPages (32 * pageSize) 1).managers i).region →
        ((mm₁.openPages (32 * pageSize) 1).managers i).refCount q ≠ 0 := by
    intro i hi q hq hreg
    rw [hone, mem_singleton] at hq
    subst hq
    rw [honly i (hopened.shape.numManagers ▸ hi) (hopened.shape.region i ▸ hreg), hcount₂]
    decide
  obtain ⟨hshape₃, hcounted⟩ := close_spec hopened.valid hmanaged₂ hopen₂
  have hrun₃ := OptimizedRun.closed 32 1 hrun₂ hmanaged₂ hopen₂
  have hshape : SameShape mm₀ ((mm₁.openPages (32 * pageSize) 1).close (32 * pageSize) 1) :=
    (hshape₁.trans hopened.shape).trans hshape₃
  have hv₃ := hcounted.valid
  have hlt₂ : ∀ i < 2, i < (mm₁.openPages (32 * pageSize) 1).numManagers := fun i hi =>
    hopened.shape.numManagers.symm ▸ (hlt₁ i).2 hi
  have hfreed : ∀ i < 2, (((mm₁.openPages (32 * pageSize) 1).close
      (32 * pageSize) 1).managers i).heap.freePages = (mm₀.managers i).heap.freePages := by
    intro i hi
    have hi₀ : i < mm₀.numManagers := hnum ▸ hi
    ext q
    rw [hcounted.freePages i (hlt₂ i hi), hopened.freePages i ((hlt₁ i).2 hi),
      htaken.freePages i hi₀, mem_union, mem_sdiff, mem_filter, hone,
      mem_singleton, decide_eq_true_eq]
    constructor
    · rintro (⟨hin, -⟩ | ⟨rfl, hreg, -⟩)
      · exact hin
      · rw [honly i ((hlt₁ i).2 hi) (hopened.shape.region i ▸ hreg), hfree₁]
        exact mem_singleton_self 32
    · intro hin
      by_cases hq : q = 32
      · subst hq
        have hreg : 32 ∈ ((mm₁.openPages (32 * pageSize) 1).managers i).region :=
          ((hshape₁.trans hopened.shape).region i).symm ▸
            (hv₀.managers i hi₀).freePages_subset hin
        obtain rfl := honly i ((hlt₁ i).2 hi) (hopened.shape.region i ▸ hreg)
        exact inr ⟨rfl, hreg, hcount₂⟩
      · exact inl ⟨hin, hq⟩
  have hmarked₃ : ∀ q, ((mm₁.openPages (32 * pageSize) 1).close (32 * pageSize) 1).markedPage q =
      mm₁.markedPage q := by
    intro q
    rw [markedPage, markedPage, hshape₃.layout, hopened.shape.layout, Impl.marked, Impl.marked,
      hcounted.optimizeMap, hopened.optimizeMap,
      ((hopened.shape.trans hshape₃).managers _).firstPage]
  have hmark32 : mm₁.markedPage 32 = true :=
    (hmarks₁ 32 hmanaged32).2 (inr ⟨⟨32, 1⟩, hblocks₁ ▸ List.mem_singleton_self _, by decide, 32,
      by decide, rfl, hclear 32 hmanaged32⟩)
  have hmark31 : mm₁.markedPage 31 = false := by
    by_contra hmark
    rcases (hmarks₁ 31 hmanaged31).1 (by simpa using hmark) with hold | ⟨b, hb, hin, -⟩
    · exact absurd ((hclear 31 hmanaged31).symm.trans hold) (by decide)
    · rw [hblocks₁, List.mem_singleton] at hb
      subst hb
      exact absurd hin (by decide)
  -- Both pages are free again, and a request for two of them gets one block.
  have hseam₃ := hseam.of_sameShape hshape
  have hfirst₃ := ((hshape.managers 1).firstPage).trans hfirst
  have hnum₃ : ((mm₁.openPages (32 * pageSize) 1).close (32 * pageSize) 1).numManagers = 2 :=
    hshape.numManagers.trans hnum
  have hlist : ((mm₁.openPages (32 * pageSize) 1).close (32 * pageSize) 1).poolManagers .application
      .fromFront = [] ++ 0 :: ([] ++ 1 :: []) := by
    have h0 := hseam₃.left_pool
    have h1 := hseam₃.right_pool
    simp [poolManagers, hnum₃, List.range_succ, h0, h1]
  have hgroup := fun unoptimized random => @seam_allocateGroup
    ((mm₁.openPages (32 * pageSize) 1).close (32 * pageSize) 1) .application 0 1 .fromFront [] [] []
    hv₃ hseam₃ (by rw [hfreed 0 (by decide), hfree₀, hfirst₃])
    (by rw [hfreed 1 (by decide), hfree₁, hfirst₃]) (fun i hi h0 h1 => by omega) hlist
    (fun i hi => absurd hi List.not_mem_nil) unoptimized random 2 (by decide)
  simp only [hfirst₃] at hgroup
  obtain ⟨g₂, mm₂, hblocks₂, hok₂⟩ := @allocateForProcess_of_allocateGroup
    ((mm₁.openPages (32 * pageSize) 1).close (32 * pageSize) 1) ⟨[⟨31, 2⟩], ⟨fun _ => true⟩⟩
    .application .fromFront 2 0 7 0xAA (by decide) (fun u r => (hgroup u r).2.1)
    (fun u r => (hgroup u r).2.2) fun u r => (hgroup u r).1
  refine ⟨mm₀, g₁, mm₁, g₂, mm₂, _, hinit, hok₁, hrun₃, hok₂, ?_, ?_⟩
  · rw [hblocks₂]
    decide
  · have hsound₃ := hrun₃.sound
    obtain ⟨-, -, -, hmarks₂⟩ :=
      allocateForProcess_optimized hv₃ rfl hsound₃.hasProcess hsound₃.isProcess hok₂
    by_contra hmark
    rcases (hmarks₂ 31 (hmanaged31.of_sameShape hshape)).1 (by simpa using hmark) with
      hold | ⟨b, hb, -, hlast⟩
    · exact absurd ((hmarked₃ 31).symm.trans hold |>.symm.trans hmark31) (by decide)
    · rw [hblocks₂, List.mem_singleton] at hb
      subst hb
      -- The last part is page 32, which is marked.
      obtain ⟨q, hq, hsame, hnew⟩ := hlast
      have hlookup : ∀ i < 2, ∀ x ∈ (mm₀.managers i).region,
          ((mm₁.openPages (32 * pageSize) 1).close (32 * pageSize) 1).layout (x * pageSize) = i :=
        fun i hi x hx => hshape.layout ▸ hv₀.layout.lookup i (hnum ▸ hi) x hx
      have hq' : q = 31 ∨ q = 32 := by
        have hrange : 31 ≤ q ∧ q < 31 + 2 := mem_Ico.1 hq
        omega
      rcases hq' with rfl | rfl
      · have h0 := hlookup 0 (by decide) 31 hleft
        have h1 := hlookup 1 (by decide) 32 hright
        rw [h0] at hsame
        exact absurd (hsame.trans h1) (by decide)
      · exact absurd ((hmarked₃ 32).symm.trans hnew |>.symm.trans hmark32) (by decide)

end Example

end KMemoryManager

end Sudachi.Kernel
