import Sudachi.Kernel.PageHeapBlocks

/-!
# Freeing a range of pages

`Free` frees the largest blocks in the middle of its range first, and then smaller and smaller blocks
on both sides. Each loop keeps a range `[lo, hi)` of pages that are free already, and extends it by
one block at an end (`Freeable.extendRight`, `Freeable.extendLeft`); at the end it is the whole range
(`HeapInvariant.free`).
-/

set_option autoImplicit false

namespace Sudachi.Kernel

open Sudachi.Common Sudachi.Foundations Finset

namespace KPageHeap

/-- The pages between two addresses. -/
def span (start stop : Nat) : Finset Nat := Finset.Ico (start / pageSize) (stop / pageSize)

theorem units_eq_span (i k : Nat) :
    ladder.units i k = span (k * 2 ^ levelShift i) ((k + 1) * 2 ^ levelShift i) := by
  rw [span, ← size_mul_pageSize, ← mul_assoc, ← mul_assoc, Nat.mul_div_cancel _ pageSize_pos,
    Nat.mul_div_cancel _ pageSize_pos, Ladder.units]

theorem span_subset_span {lo hi start stop : Nat} (h1 : start ≤ lo) (h2 : hi ≤ stop) :
    span lo hi ⊆ span start stop :=
  Finset.Ico_subset_Ico (Nat.div_le_div_right h1) (Nat.div_le_div_right h2)

theorem span_union_span {a b c : Nat} (h1 : a ≤ b) (h2 : b ≤ c) : span a b ∪ span b c = span a c :=
  Finset.Ico_union_Ico_eq_Ico (Nat.div_le_div_right h1) (Nat.div_le_div_right h2)

theorem span_disjoint_span (a b c : Nat) : Disjoint (span a b) (span b c) :=
  Finset.Ico_disjoint_Ico_consecutive _ _ _

theorem rangePages_eq_span (addr numPages : Nat) :
    rangePages addr numPages = span addr (addr + numPages * pageSize) := by
  rw [rangePages, span, Nat.add_mul_div_right _ _ pageSize_pos]

/-- A range that may be freed to a heap with the free pages `F`. -/
structure Freeable (address size start stop : Nat) (F : Finset Nat) : Prop where
  start_dvd : pageSize ∣ start
  stop_dvd : pageSize ∣ stop
  inside : span start stop ⊆ rangePages address (size / pageSize)
  fresh : Disjoint (span start stop) F

section Loops

variable {address size start stop lo hi i : Nat} {F : Finset Nat} {h : KPageHeap}

section

variable (hf : Freeable address size start stop F) (hr : HeapRegion address size)
include hf hr

/-- One block more behind the range that is free already. -/
theorem Freeable.extendRight (hi7 : i < 7) (hstart : start ≤ lo) (hle : lo ≤ hi)
    (hdvd : 2 ^ levelShift i ∣ hi) (hstop : hi + 2 ^ levelShift i ≤ stop)
    (hinv : HeapInvariant address size h (F ∪ span lo hi)) :
    HeapInvariant address size (h.freeBlock hi i) (F ∪ span lo (hi + 2 ^ levelShift i)) := by
  obtain ⟨k, rfl⟩ := hdvd
  rw [mul_comm] at hle hstop hinv ⊢
  rw [← Nat.succ_mul] at hstop ⊢
  have hunits := units_eq_span i k
  have hsub : ladder.units i k ⊆ span start stop := by
    rw [hunits]
    exact span_subset_span (hstart.trans hle) hstop
  have hdis : Disjoint (ladder.units i k) (F ∪ span lo (k * 2 ^ levelShift i)) := by
    refine disjoint_union_right.2 ⟨hf.fresh.mono_left hsub, ?_⟩
    rw [hunits]
    exact (span_disjoint_span _ _ _).symm
  have hstep := hinv.freeBlock hr hi7 (hsub.trans hf.inside) hdis
  rw [hunits, union_assoc, span_union_span hle (Nat.mul_le_mul_right _ (Nat.le_succ k))] at hstep
  exact hstep

/-- One block more before the range that is free already. -/
theorem Freeable.extendLeft (hi7 : i < 7) (hstop : hi ≤ stop) (hle : lo ≤ hi)
    (hdvd : 2 ^ levelShift i ∣ lo) (hstart : start + 2 ^ levelShift i ≤ lo)
    (hinv : HeapInvariant address size h (F ∪ span lo hi)) :
    HeapInvariant address size (h.freeBlock (lo - 2 ^ levelShift i) i)
      (F ∪ span (lo - 2 ^ levelShift i) hi) := by
  obtain ⟨k', rfl⟩ := hdvd
  have hpos : 0 < 2 ^ levelShift i := Nat.two_pow_pos _
  have hk' : k' ≠ 0 := by
    rintro rfl
    omega
  obtain ⟨k, rfl⟩ := Nat.exists_eq_succ_of_ne_zero hk'
  have hlo : 2 ^ levelShift i * k.succ - 2 ^ levelShift i = k * 2 ^ levelShift i := by
    rw [Nat.mul_succ, Nat.add_sub_cancel, mul_comm]
  rw [hlo]
  rw [mul_comm] at hle hstart hinv
  have hunits := units_eq_span i k
  have hnext : k * 2 ^ levelShift i ≤ k.succ * 2 ^ levelShift i :=
    Nat.mul_le_mul_right _ (Nat.le_succ k)
  have hsub : ladder.units i k ⊆ span start stop := by
    rw [hunits]
    refine span_subset_span ?_ (hle.trans hstop)
    rw [Nat.succ_mul] at hstart
    omega
  have hdis : Disjoint (ladder.units i k) (F ∪ span (k.succ * 2 ^ levelShift i) hi) := by
    refine disjoint_union_right.2 ⟨hf.fresh.mono_left hsub, ?_⟩
    rw [hunits]
    exact span_disjoint_span _ _ _
  have hstep := hinv.freeBlock hr hi7 (hsub.trans hf.inside) hdis
  rw [hunits, union_assoc, union_comm (span _ hi), span_union_span hnext hle] at hstep
  exact hstep

/-- The loop over the big blocks. -/
theorem Freeable.freeBigLoop (hi7 : i < 7) {bigEnd : Nat} (hstart : start ≤ lo)
    (hend : bigEnd ≤ stop) (hdvdEnd : 2 ^ levelShift i ∣ bigEnd) (fuel : Nat) :
    ∀ {block : Nat} {h : KPageHeap}, lo ≤ block → block ≤ bigEnd → bigEnd ≤ block + fuel →
      2 ^ levelShift i ∣ block → HeapInvariant address size h (F ∪ span lo block) →
        HeapInvariant address size
          (KPageHeap.freeBigLoop bigEnd (2 ^ levelShift i) i fuel block h) (F ∪ span lo bigEnd) := by
  induction fuel with
  | zero =>
    intro block h _ hle hfuel _ hinv
    obtain rfl : block = bigEnd := by omega
    exact hinv
  | succ fuel ih =>
    intro block h hlo hle hfuel hdvd hinv
    rw [KPageHeap.freeBigLoop]
    by_cases hlt : block < bigEnd
    · -- Both ends are multiples of the block size, so a whole block is left.
      have hroom : block + 2 ^ levelShift i ≤ bigEnd := by
        obtain ⟨x, rfl⟩ := hdvd
        obtain ⟨y, rfl⟩ := hdvdEnd
        rw [← Nat.mul_succ]
        exact Nat.mul_le_mul_left _ (Nat.lt_of_mul_lt_mul_left hlt)
      rw [if_pos hlt]
      exact ih (by omega) hroom (by omega) (dvd_add hdvd (dvd_refl _))
        (hf.extendRight hr hi7 hstart hlo hdvd (hroom.trans hend) hinv)
    · obtain rfl : block = bigEnd := by omega
      rw [if_neg hlt]
      exact hinv

theorem Freeable.freeBeforeBlocks (hi7 : i < 7) (hstop : hi ≤ stop) (fuel : Nat) :
    ∀ {beforeEnd : Nat} {h : KPageHeap}, start ≤ beforeEnd → beforeEnd ≤ hi →
      beforeEnd ≤ start + fuel → 2 ^ levelShift i ∣ beforeEnd →
      HeapInvariant address size h (F ∪ span beforeEnd hi) →
        ∃ beforeEnd' h', KPageHeap.freeBeforeBlocks start (2 ^ levelShift i) i fuel beforeEnd h =
            (beforeEnd', h') ∧ start ≤ beforeEnd' ∧ beforeEnd' ≤ hi ∧
          beforeEnd' < start + 2 ^ levelShift i ∧ 2 ^ levelShift i ∣ beforeEnd' ∧
          HeapInvariant address size h' (F ∪ span beforeEnd' hi) := by
  have hpos : 0 < 2 ^ levelShift i := Nat.two_pow_pos _
  induction fuel with
  | zero =>
    intro beforeEnd h hge hle hfuel hdvd hinv
    exact ⟨beforeEnd, h, rfl, hge, hle, by omega, hdvd, hinv⟩
  | succ fuel ih =>
    intro beforeEnd h hge hle hfuel hdvd hinv
    rw [KPageHeap.freeBeforeBlocks]
    by_cases hroom : start + 2 ^ levelShift i ≤ beforeEnd
    · rw [if_pos hroom]
      exact ih (by omega) (by omega) (by omega) (Nat.dvd_sub hdvd (dvd_refl _))
        (hf.extendLeft hr hi7 hstop hle hdvd hroom hinv)
    · rw [if_neg hroom]
      exact ⟨beforeEnd, h, rfl, hge, hle, by omega, hdvd, hinv⟩

/-- The loop before the big blocks: less than a block of the current level is left, and no page once
there is no level left. -/
theorem Freeable.freeBeforeLoop (hstop : hi ≤ stop) (i : Nat) :
    ∀ {beforeEnd : Nat} {h : KPageHeap}, i < 7 → start ≤ beforeEnd → beforeEnd ≤ hi →
      beforeEnd < start + 2 ^ levelShift i → 2 ^ levelShift i ∣ beforeEnd →
      HeapInvariant address size h (F ∪ span beforeEnd hi) →
        HeapInvariant address size (KPageHeap.freeBeforeLoop start i beforeEnd h)
          (F ∪ span start hi) := by
  induction i with
  | zero =>
    intro beforeEnd h _ hge _ hlt hdvd hinv
    have heq : beforeEnd = start := by
      obtain ⟨x, hx⟩ := hf.start_dvd
      obtain ⟨y, hy⟩ := hdvd
      have hsize : 2 ^ levelShift 0 = pageSize := rfl
      rw [hsize] at hlt hy
      simp only [pageSize] at hlt hx hy
      omega
    rw [heq] at hinv
    exact hinv
  | succ i ih =>
    intro beforeEnd h hi7 hge hle _ hdvd hinv
    have hdvd' : 2 ^ levelShift i ∣ beforeEnd :=
      (pow_dvd_pow 2 (levelShift_le_succ i)).trans hdvd
    obtain ⟨beforeEnd', h', heq, h1, h2, h3, h4, hinv'⟩ :=
      hf.freeBeforeBlocks hr (by omega) hstop (beforeEnd - start) hge hle (by omega) hdvd' hinv
    have hsize := hinv.getSize (show i < 7 by omega)
    simp only [KPageHeap.freeBeforeLoop, hsize, heq]
    exact ih (by omega) h1 h2 h3 h4 hinv'

theorem Freeable.freeAfterBlocks (hi7 : i < 7) (hstart : start ≤ lo) (fuel : Nat) :
    ∀ {afterStart : Nat} {h : KPageHeap}, lo ≤ afterStart → afterStart ≤ stop →
      stop ≤ afterStart + fuel → 2 ^ levelShift i ∣ afterStart →
      HeapInvariant address size h (F ∪ span lo afterStart) →
        ∃ afterStart' h', KPageHeap.freeAfterBlocks stop (2 ^ levelShift i) i fuel afterStart h =
            (afterStart', h') ∧ lo ≤ afterStart' ∧ afterStart' ≤ stop ∧
          stop < afterStart' + 2 ^ levelShift i ∧ 2 ^ levelShift i ∣ afterStart' ∧
          HeapInvariant address size h' (F ∪ span lo afterStart') := by
  have hpos : 0 < 2 ^ levelShift i := Nat.two_pow_pos _
  induction fuel with
  | zero =>
    intro afterStart h hge hle hfuel hdvd hinv
    exact ⟨afterStart, h, rfl, hge, hle, by omega, hdvd, hinv⟩
  | succ fuel ih =>
    intro afterStart h hge hle hfuel hdvd hinv
    rw [KPageHeap.freeAfterBlocks]
    by_cases hroom : afterStart + 2 ^ levelShift i ≤ stop
    · rw [if_pos hroom]
      exact ih (by omega) hroom (by omega) (dvd_add hdvd (dvd_refl _))
        (hf.extendRight hr hi7 hstart hge hdvd hroom hinv)
    · rw [if_neg hroom]
      exact ⟨afterStart, h, rfl, hge, hle, by omega, hdvd, hinv⟩

/-- The loop after the big blocks. -/
theorem Freeable.freeAfterLoop (hstart : start ≤ lo) (i : Nat) :
    ∀ {afterStart : Nat} {h : KPageHeap}, i < 7 → lo ≤ afterStart → afterStart ≤ stop →
      stop < afterStart + 2 ^ levelShift i → 2 ^ levelShift i ∣ afterStart →
      HeapInvariant address size h (F ∪ span lo afterStart) →
        HeapInvariant address size (KPageHeap.freeAfterLoop stop i afterStart h)
          (F ∪ span lo stop) := by
  induction i with
  | zero =>
    intro afterStart h _ _ hle hlt hdvd hinv
    have heq : afterStart = stop := by
      obtain ⟨x, hx⟩ := hf.stop_dvd
      obtain ⟨y, hy⟩ := hdvd
      have hsize : 2 ^ levelShift 0 = pageSize := rfl
      rw [hsize] at hlt hy
      simp only [pageSize] at hlt hx hy
      omega
    rw [heq] at hinv
    exact hinv
  | succ i ih =>
    intro afterStart h hi7 hge hle _ hdvd hinv
    have hdvd' : 2 ^ levelShift i ∣ afterStart :=
      (pow_dvd_pow 2 (levelShift_le_succ i)).trans hdvd
    obtain ⟨afterStart', h', heq, h1, h2, h3, h4, hinv'⟩ :=
      hf.freeAfterBlocks hr (by omega) hstart (stop - afterStart) hge hle (by omega) hdvd' hinv
    have hsize := hinv.getSize (show i < 7 by omega)
    simp only [KPageHeap.freeAfterLoop, hsize, heq]
    exact ih (by omega) h1 h2 h3 h4 hinv'

end

/-- Some level has a block inside a range of pages that is not empty. -/
theorem findBigIndex_spec (hinv : HeapInvariant address size h F) (hstart : pageSize ∣ start)
    (hstop : pageSize ∣ stop) (hlt : start < stop) (n : Nat) : n < 7 →
    ∃ i < 7, h.findBigIndex start stop (n + 1) = some i ∧
      alignUp start (2 ^ levelShift i) < alignDown stop (2 ^ levelShift i) := by
  have hzero : alignUp start (2 ^ levelShift 0) < alignDown stop (2 ^ levelShift 0) := by
    have hsize : 2 ^ levelShift 0 = pageSize := rfl
    rw [hsize, alignUp_eq_of_dvd hstart, alignDown_eq, Nat.div_mul_cancel hstop]
    exact hlt
  induction n with
  | zero =>
    intro hn
    refine ⟨0, hn, ?_, hzero⟩
    simp only [findBigIndex, hinv.getSize hn, if_pos hzero]
  | succ n ih =>
    intro hn
    by_cases hfits : alignUp start (2 ^ levelShift (n + 1)) <
        alignDown stop (2 ^ levelShift (n + 1))
    · refine ⟨n + 1, hn, ?_, hfits⟩
      simp only [findBigIndex, hinv.getSize hn, if_pos hfits]
    · obtain ⟨i, hi, heq, hi'⟩ := ih (by omega)
      refine ⟨i, hi, ?_, hi'⟩
      rw [findBigIndex, hinv.getSize hn, if_neg hfits]
      exact heq

end Loops

/-- `Free` adds exactly the pages of its range to the free ones. -/
theorem HeapInvariant.free {address size addr numPages : Nat} {h : KPageHeap} {F : Finset Nat}
    (hinv : HeapInvariant address size h F) (hr : HeapRegion address size)
    (hdvd : pageSize ∣ addr) (hin : rangePages addr numPages ⊆ rangePages address (size / pageSize))
    (hdis : Disjoint (rangePages addr numPages) F) :
    HeapInvariant address size (h.free addr numPages) (F ∪ rangePages addr numPages) := by
  by_cases hzero : numPages = 0
  · subst hzero
    rw [KPageHeap.free, if_pos rfl, rangePages, add_zero, Finset.Ico_self, union_empty]
    exact hinv
  have hf : Freeable address size addr (addr + numPages * pageSize) F :=
    ⟨hdvd, dvd_add hdvd (dvd_mul_left _ _), rangePages_eq_span addr numPages ▸ hin,
      rangePages_eq_span addr numPages ▸ hdis⟩
  rw [rangePages_eq_span]
  set stop := addr + numPages * pageSize with hstop
  have hlt : addr < stop := by
    have := mul_pos (pos_of_ne_zero hzero) pageSize_pos
    omega
  obtain ⟨i, hi, hbig, hfits⟩ := findBigIndex_spec hinv hf.start_dvd hf.stop_dvd hlt 6 (by decide)
  have hpos : 0 < 2 ^ levelShift i := Nat.two_pow_pos _
  have hup := le_alignUp addr (2 ^ levelShift i) hpos
  have hdown := alignDown_le stop (2 ^ levelShift i)
  have hupDvd := dvd_alignUp addr (2 ^ levelShift i)
  have hdownDvd := dvd_alignDown stop (2 ^ levelShift i)
  have hupLt := alignUp_lt addr hpos
  have hdownLt := lt_alignDown_add stop hpos
  have hsize := hinv.getSize hi
  have hnone : HeapInvariant address size h
      (F ∪ span (alignUp addr (2 ^ levelShift i)) (alignUp addr (2 ^ levelShift i))) := by
    rw [span, Finset.Ico_self, union_empty]
    exact hinv
  have hmiddle := hf.freeBigLoop hr hi hup hdown hdownDvd
    (alignDown stop (2 ^ levelShift i) - alignUp addr (2 ^ levelShift i)) (le_refl _)
    (le_of_lt hfits) (by omega) hupDvd hnone
  have hbefore := hf.freeBeforeLoop hr hdown i hi hup (le_of_lt hfits) hupLt hupDvd hmiddle
  have hafter := hf.freeAfterLoop hr (le_refl addr) i hi (by omega) hdown hdownLt hdownDvd
    hbefore
  have heq : h.free addr numPages = KPageHeap.freeAfterLoop stop i
      (alignDown stop (2 ^ levelShift i)) (KPageHeap.freeBeforeLoop addr i
        (alignUp addr (2 ^ levelShift i)) (KPageHeap.freeBigLoop
          (alignDown stop (2 ^ levelShift i)) (2 ^ levelShift i) i
          (alignDown stop (2 ^ levelShift i) - alignUp addr (2 ^ levelShift i))
          (alignUp addr (2 ^ levelShift i)) h)) := by
    simp only [KPageHeap.free, if_neg hzero, ← hstop, hinv.numBlocks, hbig, hsize]
  rw [heq]
  exact hafter

end KPageHeap

end Sudachi.Kernel
