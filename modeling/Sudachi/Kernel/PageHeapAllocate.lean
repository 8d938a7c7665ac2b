import Sudachi.Kernel.PageHeapFree

/-!
# Allocating from the page heap

Both searches take a block out of a level and free what is left of it. An allocation takes free pages
at an aligned address, and fails only if no level from the requested one on has a block
(`HeapInvariant.allocateByRandom`, `HeapInvariant.allocateByLinearSearch`).
-/

set_option autoImplicit false

namespace Sudachi.Kernel

open Sudachi.Common Sudachi.Foundations Finset

namespace KPageHeap

/-- An allocation of `numPages` pages out of the free pages `F`. -/
structure Takes (address size : Nat) (F : Finset Nat) (numPages align : Nat)
    (r : Nat × KPageHeap) : Prop where
  ne_zero : r.1 ≠ 0
  page_dvd : pageSize ∣ r.1
  align_dvd : align ∣ r.1
  free : rangePages r.1 numPages ⊆ F
  rest : HeapInvariant address size r.2 (F \ rangePages r.1 numPages)

/-- A failed allocation, for want of a block of level `index` or above. -/
structure Fails (address size : Nat) (F : Finset Nat) (h : KPageHeap) (index : Nat)
    (r : Nat × KPageHeap) : Prop where
  eq_zero : r.1 = 0
  exhausted : ∀ j, index ≤ j → j < 7 → h.blockNumbers j = ∅
  rest : HeapInvariant address size r.2 F

section Remainder

variable {address size a b c d : Nat} {F : Finset Nat} {h : KPageHeap}

theorem free_zero (h : KPageHeap) (addr : Nat) : h.free addr 0 = h := if_pos rfl

theorem free_if_ne_zero (h : KPageHeap) (addr offset : Nat) :
    (if offset ≠ 0 then h.free addr (offset / pageSize) else h) =
      h.free addr (offset / pageSize) := by
  by_cases hzero : offset = 0
  · rw [if_neg (not_not.2 hzero), hzero, Nat.zero_div, free_zero]
  · rw [if_pos hzero]

theorem free_if_ne (h : KPageHeap) (addr offset total : Nat) :
    (if offset ≠ total then h.free addr ((total - offset) / pageSize) else h) =
      h.free addr ((total - offset) / pageSize) := by
  by_cases hall : offset = total
  · rw [if_neg (not_not.2 hall), hall, Nat.sub_self, Nat.zero_div, free_zero]
  · rw [if_pos hall]

/-- What is left of a block before and after the pages that are taken out of it. -/
theorem sdiff_union_span_union_span (hF : span a d ⊆ F) (h1 : a ≤ b) (h2 : b ≤ c) (h3 : c ≤ d) :
    F \ span a d ∪ span a b ∪ span c d = F \ span b c := by
  have hab : a / pageSize ≤ b / pageSize := Nat.div_le_div_right h1
  have hbc : b / pageSize ≤ c / pageSize := Nat.div_le_div_right h2
  have hcd : c / pageSize ≤ d / pageSize := Nat.div_le_div_right h3
  ext p
  simp only [mem_union, mem_sdiff, span, mem_Ico]
  constructor
  · rintro ((⟨hp, hnot⟩ | hp) | hp)
    · exact ⟨hp, fun hcon => hnot (by omega)⟩
    · exact ⟨hF (mem_Ico.2 (by omega)), fun hcon => by omega⟩
    · exact ⟨hF (mem_Ico.2 (by omega)), fun hcon => by omega⟩
  · rintro ⟨hp, hnot⟩
    by_cases hin : a / pageSize ≤ p ∧ p < d / pageSize
    · by_cases hlt : p < b / pageSize
      · exact .inl (.inr (by omega))
      · exact .inr (by omega)
    · exact .inl (.inl ⟨hp, hin⟩)

/-- Freeing the remainders of a block that was taken out. -/
theorem HeapInvariant.free_remainders (hr : HeapRegion address size) (hF : span a d ⊆ F)
    (hin : F ⊆ rangePages address (size / pageSize))
    (hinv : HeapInvariant address size h (F \ span a d)) (h1 : a ≤ b) (h2 : b ≤ c) (h3 : c ≤ d)
    (ha : pageSize ∣ a) (hb : pageSize ∣ b) (hc : pageSize ∣ c) (hd : pageSize ∣ d) :
    HeapInvariant address size
      ((h.free a ((b - a) / pageSize)).free c ((d - c) / pageSize)) (F \ span b c) := by
  have hleft : rangePages a ((b - a) / pageSize) = span a b := by
    rw [rangePages_eq_span, Nat.div_mul_cancel (Nat.dvd_sub hb ha), Nat.add_sub_cancel' h1]
  have hright : rangePages c ((d - c) / pageSize) = span c d := by
    rw [rangePages_eq_span, Nat.div_mul_cancel (Nat.dvd_sub hd hc), Nat.add_sub_cancel' h3]
  have hsubLeft : span a b ⊆ span a d := span_subset_span (le_refl a) (h2.trans h3)
  have hsubRight : span c d ⊆ span a d := span_subset_span (h1.trans h2) (le_refl d)
  have hstep := hinv.free hr ha (hleft ▸ (hsubLeft.trans hF).trans hin)
    (hleft ▸ disjoint_sdiff.mono_left hsubLeft)
  have hdis : Disjoint (span c d) (F \ span a d ∪ span a b) := by
    refine disjoint_union_right.2 ⟨disjoint_sdiff.mono_left hsubRight, ?_⟩
    exact (Disjoint.mono_right (span_subset_span (le_refl b) (le_refl d))
      (span_disjoint_span a b d)).symm.mono_left (span_subset_span h2 (le_refl d))
  rw [hleft] at hstep
  have hstep' := hstep.free hr hc (hright ▸ (hsubRight.trans hF).trans hin) (hright ▸ hdis)
  rw [hright, sdiff_union_span_union_span hF h1 h2 h3] at hstep'
  exact hstep'

end Remainder

section Search

variable {address size index : Nat} {F : Finset Nat} {h : KPageHeap}

theorem levelShift_mono {i j : Nat} (hij : i ≤ j) : levelShift i ≤ levelShift j := by
  induction hij with
  | refl => exact le_refl _
  | step _ ih => exact ih.trans (levelShift_le_succ _)

theorem pageSize_dvd_two_pow (i : Nat) : pageSize ∣ 2 ^ levelShift i := by
  have hpage : pageSize = 2 ^ 12 := rfl
  rw [hpage]
  exact pow_dvd_pow 2 (pageShift_le_levelShift i)

theorem rangePages_div {addr bytes : Nat} (h : pageSize ∣ bytes) :
    rangePages addr (bytes / pageSize) = span addr (addr + bytes) := by
  rw [rangePages_eq_span, Nat.div_mul_cancel h]

/-- The loop of the linear search, from the level `i` on. -/
theorem HeapInvariant.linearSearchLoop (hr : HeapRegion address size) (fuel : Nat) :
    ∀ {i : Nat} {h : KPageHeap}, i + fuel = 7 → index ≤ i → HeapInvariant address size h F →
      Fails address size F h i (linearSearchLoop (2 ^ levelShift index) fuel i h) ∨
        Takes address size F (2 ^ levelShift index / pageSize) (2 ^ levelShift index)
          (linearSearchLoop (2 ^ levelShift index) fuel i h) := by
  induction fuel with
  | zero =>
    intro i h hfuel _ hinv
    exact .inl ⟨rfl, fun j h1 h2 => absurd h2 (by omega), hinv⟩
  | succ fuel ih =>
    intro i h hfuel hindex hinv
    have hi : i < 7 := by omega
    have hle : 2 ^ levelShift index ≤ 2 ^ levelShift i :=
      Nat.pow_le_pow_right (by decide) (levelShift_mono hindex)
    rcases hinv.popBlock hr hi false with
      ⟨hempty, b, hpop, hinv', hsame⟩ | ⟨k, b, hpop, hne, hsize, hsub, hinv'⟩
    · have hloop : KPageHeap.linearSearchLoop (2 ^ levelShift index) (fuel + 1) i h =
          KPageHeap.linearSearchLoop (2 ^ levelShift index) fuel (i + 1) (h.setBlock i b) := by
        simp only [KPageHeap.linearSearchLoop, hpop, ne_eq, not_true_eq_false, if_false]
      rw [hloop]
      refine (ih (by omega) (by omega) hinv').imp (fun hfails => ⟨hfails.1, ?_, hfails.3⟩) id
      intro j h1 h2
      by_cases hji : j = i
      · rw [hji]
        exact hempty
      · rw [← hsame]
        exact hfails.2 j (by omega) h2
    · rw [units_eq_span, Nat.succ_mul] at hsub hinv'
      set addr := k * 2 ^ levelShift i with haddr
      have hdvd : 2 ^ levelShift i ∣ addr := dvd_mul_left _ _
      have hpage : pageSize ∣ addr := (pageSize_dvd_two_pow i).trans hdvd
      -- The block is freed but for its beginning; nothing is left of a block of the right size.
      have hloop : KPageHeap.linearSearchLoop (2 ^ levelShift index) (fuel + 1) i h =
          (addr, (h.setBlock i b).free (addr + 2 ^ levelShift index)
            ((addr + 2 ^ levelShift i - (addr + 2 ^ levelShift index)) / pageSize)) := by
        simp only [KPageHeap.linearSearchLoop, hpop, ne_eq, hne, not_false_eq_true, if_true, hsize]
        by_cases hgt : 2 ^ levelShift i > 2 ^ levelShift index
        · rw [if_pos hgt, Nat.add_sub_add_left]
        · have hzero : (addr + 2 ^ levelShift i - (addr + 2 ^ levelShift index)) / pageSize = 0 := by
            rw [Nat.add_sub_add_left, Nat.sub_eq_zero_of_le (Nat.le_of_not_lt hgt), Nat.zero_div]
          rw [if_neg hgt, hzero, free_zero]
      have hrest := hinv'.free_remainders hr hsub hinv.inside (le_refl addr)
        (Nat.le_add_right addr _) (Nat.add_le_add_left hle addr) hpage hpage
        (dvd_add hpage (pageSize_dvd_two_pow index))
        (dvd_add hpage (pageSize_dvd_two_pow i))
      rw [Nat.sub_self, Nat.zero_div, free_zero] at hrest
      rw [hloop]
      refine .inr ⟨hne, hpage, ?_, ?_, ?_⟩
      · exact (pow_dvd_pow 2 (levelShift_mono hindex)).trans hdvd
      · rw [rangePages_div (pageSize_dvd_two_pow index)]
        exact (span_subset_span (le_refl addr) (Nat.add_le_add_left hle addr)).trans hsub
      · rw [rangePages_div (pageSize_dvd_two_pow index)]
        exact hrest

/-- `AllocateByLinearSearch`. -/
theorem HeapInvariant.allocateByLinearSearch (hinv : HeapInvariant address size h F)
    (hr : HeapRegion address size) (hindex : index < 7) :
    Fails address size F h index (h.allocateByLinearSearch index) ∨
      Takes address size F (2 ^ levelShift index / pageSize) (2 ^ levelShift index)
        (h.allocateByLinearSearch index) := by
  rw [KPageHeap.allocateByLinearSearch, hinv.getSize hindex, hinv.numBlocks]
  exact HeapInvariant.linearSearchLoop hr (7 - index) (by omega) (le_refl index) hinv

end Search

/-! ## Random allocation -/

theorem generateRandom_lt (g : RandomBitGenerator) {max : Nat} (hmax : 0 < max) :
    (g.generateRandom max).1 < max := by
  have hmod : ∀ n : Nat, n - n / max * max = n % max := by
    intro n
    have := Nat.div_add_mod' n max
    omega
  simp only [RandomBitGenerator.generateRandom, hmod]
  exact Nat.mod_lt _ hmax

section Select

variable {neededSize alignShift : Nat} {h : KPageHeap}

/-- What the first loop finds: it stops behind a level, where it has seen enough places or all levels. -/
theorem countAlignments_spec (fuel : Nat) : ∀ {i possible P M : Nat},
    h.countAlignments neededSize alignShift fuel i possible = (P, M) →
      possible ≤ P ∧ i ≤ M ∧ M ≤ i + fuel ∧ (P < minimumPossibleAlignments → M = i + fuel) ∧
        (P = possible → ∀ j, i ≤ j → j < M → h.levelAlignments neededSize alignShift j = 0) ∧
        (0 < fuel → i < M) ∧
        (M = i + 1 → P = possible + h.levelAlignments neededSize alignShift i) := by
  induction fuel with
  | zero =>
    intro i possible P M heq
    obtain ⟨rfl, rfl⟩ := Prod.mk.inj heq
    exact ⟨le_refl _, le_refl _, le_refl _, fun _ => rfl,
      fun _ j h1 h2 => absurd h1 (by omega), fun hcon => absurd hcon (by decide),
      fun hcon => absurd hcon (by omega)⟩
  | succ fuel ih =>
    intro i possible P M heq
    rw [countAlignments] at heq
    by_cases hmany : possible + h.levelAlignments neededSize alignShift i ≥
        minimumPossibleAlignments
    · simp only [if_pos hmany] at heq
      obtain ⟨rfl, rfl⟩ := Prod.mk.inj heq
      refine ⟨by omega, by omega, by omega, fun hcon => absurd hmany (by omega), ?_, by omega,
        fun _ => rfl⟩
      intro hsame j h1 h2
      obtain rfl : j = i := by omega
      omega
    · simp only [if_neg hmany] at heq
      obtain ⟨h1, h2, h3, h4, h5, h6, -⟩ := ih heq
      refine ⟨by omega, by omega, by omega, fun hlt => ?_, ?_, by omega, fun hone => ?_⟩
      · rw [h4 hlt]
        omega
      · intro hsame j hij hjM
        by_cases hji : j = i
        · subst hji
          omega
        · exact h5 (by omega) j (by omega) hjM
      · cases fuel with
        | zero => exact (Prod.mk.inj heq).1.symm
        | succ fuel => exact absurd (h6 (Nat.succ_pos fuel)) (by omega)

/-- The second loop finds a level with a place, for every number below the count of the first. -/
theorem chooseIndex_spec {rnd index : Nat} (fuel : Nat) : ∀ {i possible P M : Nat},
    h.countAlignments neededSize alignShift fuel i possible = (P, M) → possible ≤ rnd → rnd < P →
      ∃ j, h.chooseIndex neededSize alignShift rnd index (M - i) i possible = j ∧ i ≤ j ∧ j < M ∧
        0 < h.levelAlignments neededSize alignShift j := by
  induction fuel with
  | zero =>
    intro i possible P M heq hlo hhi
    obtain ⟨rfl, rfl⟩ := Prod.mk.inj heq
    omega
  | succ fuel ih =>
    intro i possible P M heq hlo hhi
    have hM := (countAlignments_spec _ heq).2.2.2.2.2.1 (Nat.succ_pos fuel)
    obtain ⟨n, hn⟩ : ∃ n, M - i = n + 1 := ⟨M - i - 1, by omega⟩
    rw [hn, chooseIndex]
    by_cases hhere : rnd < possible + h.levelAlignments neededSize alignShift i
    · exact ⟨i, if_pos hhere, le_refl i, hM, by omega⟩
    · rw [countAlignments] at heq
      by_cases hmany : possible + h.levelAlignments neededSize alignShift i ≥
          minimumPossibleAlignments
      · simp only [if_pos hmany] at heq
        obtain ⟨rfl, rfl⟩ := Prod.mk.inj heq
        exact absurd hhi hhere
      · simp only [if_neg hmany] at heq
        obtain ⟨j, hj, h1, h2, h3⟩ := ih heq (Nat.le_of_not_lt hhere) hhi
        rw [show M - (i + 1) = n by omega] at hj
        exact ⟨j, by simp only [if_neg hhere, hj], by omega, h2, h3⟩

end Select

section Random

variable {address size index numPages alignPages : Nat} {F : Finset Nat} {h : KPageHeap}

theorem HeapInvariant.levelAlignments_pos_iff (hinv : HeapInvariant address size h F)
    (neededSize alignShift : Nat) {i : Nat} (hi : i < 7) :
    0 < h.levelAlignments neededSize alignShift i ↔ h.blockNumbers i ≠ ∅ := by
  have hcard : (h.blocks i).getNumFreeBlocks = (h.blockNumbers i).card := by
    rw [Block.getNumFreeBlocks, blockNumbers, Block.numbers,
      card_image_of_injective _ (add_right_injective _), (hinv.levels i hi).bitmap.numBits]
  rw [levelAlignments, hcard, ← nonempty_iff_ne_empty, ← card_pos]
  exact ⟨fun hpos => Nat.pos_of_mul_pos_left hpos, fun hpos => mul_pos (Nat.add_pos_left one_pos _) hpos⟩

/-- The level to allocate from: one with a block, if any level from `index` on has one. -/
theorem HeapInvariant.selectIndex (hinv : HeapInvariant address size h F)
    (neededSize alignShift : Nat) (hindex : index < 7) :
    ∃ i g, h.selectIndex neededSize alignShift index = (i, { h with rng := g }) ∧ index ≤ i ∧
      i < 7 ∧ (h.blockNumbers i = ∅ → ∀ j, index ≤ j → j < 7 → h.blockNumbers j = ∅) := by
  obtain ⟨P, M, heq⟩ : ∃ P M,
      h.countAlignments neededSize alignShift (h.numBlocks - index) index 0 = (P, M) := ⟨_, _, rfl⟩
  obtain ⟨-, hindexM, hM, hfew, hnone, hsome, hone⟩ := countAlignments_spec _ heq
  rw [hinv.numBlocks] at hM hfew hsome
  have hempty : ∀ j, j < 7 → h.levelAlignments neededSize alignShift j = 0 →
      h.blockNumbers j = ∅ := by
    intro j hj hzero
    by_contra hne
    have := (hinv.levelAlignments_pos_iff neededSize alignShift hj).2 hne
    omega
  by_cases hpick : P > 0 ∧ index + 1 < M
  · have hrnd := generateRandom_lt h.rng hpick.1
    obtain ⟨j, hj, h1, h2, hpos⟩ := @chooseIndex_spec _ _ _ _ index _ _ _ _ _ heq
      (Nat.zero_le (h.rng.generateRandom P).1) hrnd
    refine ⟨j, (h.rng.generateRandom P).2, ?_, h1, by omega, fun hcon => ?_⟩
    · simp only [KPageHeap.selectIndex, heq, if_pos hpick, hj]
    · exact absurd hcon ((hinv.levelAlignments_pos_iff neededSize alignShift (by omega)).1 hpos)
  · refine ⟨index, h.rng, ?_, le_refl index, hindex, fun hcon j h1 h2 => ?_⟩
    · simp only [KPageHeap.selectIndex, heq, if_neg hpick]
    · have hzero : P = 0 := by
        by_contra hne
        -- Only the level itself has been counted.
        have hM1 : M = index + 1 := by
          have := hsome (by omega)
          omega
        have hP := hone hM1
        rw [zero_add] at hP
        exact absurd hcon ((hinv.levelAlignments_pos_iff neededSize alignShift hindex).1 (by omega))
      have hM7 : M = 7 := by
        have := hfew (by rw [hzero]; decide)
        omega
      exact hempty j h2 (hnone hzero j h1 (by omega))

/-- The alignment that `AllocateByRandom` works with. -/
theorem countrZero_spec (halign : 0 < alignPages)
    (hfits : alignPages * pageSize ≤ 2 ^ levelShift index) (hindex : index < 7) :
    12 ≤ countrZero (alignPages * pageSize) ∧
      countrZero (alignPages * pageSize) ≤ levelShift index := by
  have hpos : 0 < alignPages * pageSize := mul_pos halign pageSize_pos
  have hlt : alignPages * pageSize < 2 ^ 64 := by
    refine lt_of_le_of_lt (hfits.trans (Nat.pow_le_pow_right (by decide)
      (levelShift_mono (le_of_lt hindex)))) ?_
    decide
  constructor
  · exact (two_pow_dvd_iff_le_ctz hpos hlt).1 (dvd_mul_left pageSize alignPages)
  · have hdvd := (two_pow_dvd_iff_le_ctz hpos hlt).2 (le_refl _)
    exact (Nat.pow_le_pow_iff_right (by decide)).1 ((Nat.le_of_dvd hpos hdvd).trans hfits)

/-- Taking pages at a random aligned place of a block that was popped. -/
theorem HeapInvariant.takeFromBlock (hr : HeapRegion address size) {i k neededSize s rnd : Nat}
    (hs : 12 ≤ s) (hneeded : neededSize ≤ 2 ^ levelShift i) (hpages : pageSize ∣ neededSize)
    (hsub : ladder.units i k ⊆ F) (hin : F ⊆ rangePages address (size / pageSize))
    (hinv : HeapInvariant address size h (F \ ladder.units i k))
    (hrnd : rnd < 1 + (2 ^ levelShift i - neededSize) / 2 ^ s) :
    let addr := k * 2 ^ levelShift i
    let leftoverSize := 2 ^ levelShift i - neededSize
    let randomOffset := rnd * 2 ^ s
    randomOffset ≤ leftoverSize ∧ rangePages (addr + randomOffset) (neededSize / pageSize) ⊆ F ∧
      HeapInvariant address size
        ((h.free addr (randomOffset / pageSize)).free (addr + randomOffset + neededSize)
          ((leftoverSize - randomOffset) / pageSize))
        (F \ rangePages (addr + randomOffset) (neededSize / pageSize)) := by
  intro addr leftoverSize randomOffset
  have hplace : rnd ≤ leftoverSize / 2 ^ s := by
    rw [add_comm] at hrnd
    exact Nat.le_of_lt_succ hrnd
  have hoffset : randomOffset ≤ leftoverSize :=
    (Nat.mul_le_mul_right _ hplace).trans (Nat.div_mul_le_self leftoverSize (2 ^ s))
  have hpageOffset : pageSize ∣ randomOffset :=
    (pow_dvd_pow 2 hs).trans (dvd_mul_left (2 ^ s) rnd)
  have hpageAddr : pageSize ∣ addr := (pageSize_dvd_two_pow i).trans (dvd_mul_left _ _)
  have hpageStart := dvd_add hpageAddr hpageOffset
  rw [units_eq_span, Nat.succ_mul] at hsub hinv
  rw [rangePages_div hpages]
  have hend : addr + randomOffset + neededSize ≤ addr + 2 ^ levelShift i := by
    have : leftoverSize = 2 ^ levelShift i - neededSize := rfl
    omega
  have hrest := hinv.free_remainders hr hsub hin (Nat.le_add_right addr randomOffset)
    (Nat.le_add_right _ neededSize) hend hpageAddr hpageStart (dvd_add hpageStart hpages)
    (dvd_add hpageAddr (pageSize_dvd_two_pow i))
  have hleft : addr + randomOffset - addr = randomOffset := Nat.add_sub_cancel_left ..
  have hright : addr + 2 ^ levelShift i - (addr + randomOffset + neededSize) =
      leftoverSize - randomOffset := by
    have : leftoverSize = 2 ^ levelShift i - neededSize := rfl
    omega
  rw [hleft, hright] at hrest
  exact ⟨hoffset, (span_subset_span (Nat.le_add_right addr randomOffset) hend).trans hsub, hrest⟩

/-- `AllocateByRandom`, for a request that fits in a block of level `index`. -/
theorem HeapInvariant.allocateByRandom (hinv : HeapInvariant address size h F)
    (hr : HeapRegion address size) (hindex : index < 7)
    (hneeded : numPages * pageSize ≤ 2 ^ levelShift index) (halign : 0 < alignPages)
    (hfits : alignPages * pageSize ≤ 2 ^ levelShift index) :
    Fails address size F h index (h.allocateByRandom index numPages alignPages) ∨
      Takes address size F numPages (2 ^ countrZero (alignPages * pageSize))
        (h.allocateByRandom index numPages alignPages) := by
  obtain ⟨hs12, hsle⟩ := countrZero_spec halign hfits hindex
  obtain ⟨s, hs⟩ : ∃ s, countrZero (alignPages * pageSize) = s := ⟨_, rfl⟩
  rw [hs] at hs12 hsle ⊢
  obtain ⟨i, g, hselect, hle, hi, hempty⟩ := hinv.selectIndex (numPages * pageSize) s hindex
  have hshift := levelShift_mono hle
  have hpow : 2 ^ levelShift index ≤ 2 ^ levelShift i := Nat.pow_le_pow_right (by decide) hshift
  have hpages : numPages * pageSize / pageSize = numPages := Nat.mul_div_cancel _ pageSize_pos
  rcases (hinv.with_rng g).popBlock hr hi true with
    ⟨hnone, b, hpop, hinv', -⟩ | ⟨k, b, hpop, hne, hsize, hsub, hinv'⟩
  · refine .inl ?_
    have heq : h.allocateByRandom index numPages alignPages =
        (0, { h with rng := g }.setBlock i b) := by
      simp only [KPageHeap.allocateByRandom, hs, hselect, hpop, ne_eq, not_true_eq_false, if_false]
    rw [heq]
    exact ⟨rfl, hempty hnone, hinv'⟩
  · refine .inr ?_
    have hdvd : 2 ^ s ∣ k * 2 ^ levelShift i :=
      (pow_dvd_pow 2 (hsle.trans hshift)).trans (dvd_mul_left _ _)
    have hpageAddr : pageSize ∣ k * 2 ^ levelShift i :=
      (pageSize_dvd_two_pow i).trans (dvd_mul_left _ _)
    by_cases hleft : 2 ^ levelShift i - numPages * pageSize > 0
    · set possible := 1 + (2 ^ levelShift i - numPages * pageSize) / 2 ^ s
      have hrnd : (g.generateRandom possible).1 < possible :=
        generateRandom_lt g (Nat.add_pos_left one_pos _)
      obtain ⟨hoffset, hfree, hrest⟩ := HeapInvariant.takeFromBlock hr hs12 (hneeded.trans hpow)
        (dvd_mul_left pageSize numPages) hsub hinv.inside
        (hinv'.with_rng (g.generateRandom possible).2) hrnd
      rw [hpages] at hfree hrest
      set offset := (g.generateRandom possible).1 * 2 ^ s
      have heq : h.allocateByRandom index numPages alignPages = (k * 2 ^ levelShift i + offset,
          (({ { h with rng := g }.setBlock i b with rng := (g.generateRandom possible).2 }.free
            (k * 2 ^ levelShift i) (offset / pageSize)).free
              (k * 2 ^ levelShift i + offset + numPages * pageSize)
              ((2 ^ levelShift i - numPages * pageSize - offset) / pageSize))) := by
        simp only [KPageHeap.allocateByRandom, hs, hselect, hpop, if_pos hne, hsize, if_pos hleft,
          free_if_ne_zero, free_if_ne]
        rfl
      rw [heq]
      refine ⟨?_, ?_, ?_, hfree, hrest⟩
      · show k * 2 ^ levelShift i + offset ≠ 0
        omega
      · exact dvd_add hpageAddr ((pow_dvd_pow 2 hs12).trans (dvd_mul_left (2 ^ s) _))
      · exact dvd_add hdvd (dvd_mul_left (2 ^ s) _)
    · have hexact : numPages * pageSize = 2 ^ levelShift i := by omega
      have heq : h.allocateByRandom index numPages alignPages =
          (k * 2 ^ levelShift i, { h with rng := g }.setBlock i b) := by
        simp only [KPageHeap.allocateByRandom, hs, hselect, hpop, if_pos hne, hsize, if_neg hleft]
      have hrange : rangePages (k * 2 ^ levelShift i) numPages = ladder.units i k := by
        rw [rangePages_eq_span, hexact, units_eq_span, Nat.succ_mul]
      rw [heq]
      exact ⟨hne, hpageAddr, hdvd, hrange.symm ▸ hsub, hrange.symm ▸ hinv'⟩

end Random

end KPageHeap

end Sudachi.Kernel
