import Mathlib.Tactic
import Mathlib.Algebra.Order.BigOperators.Group.Finset

/-!
# Buddy blocks

Free units kept as aligned blocks of several sizes. The block `k` of a level covers the units whose
quotient by the size of the level is `k`, so that most facts about blocks are facts about quotients.
A packed family of blocks covers each unit once and keeps no complete group of a level; then every
free range of a block size lies in one block (`Packed.exists_block`). The lemmas `Packed.insertBlock`,
`Packed.mergeGroup` and `Packed.eraseBlock` are the steps of freeing and allocating a block.
-/

set_option autoImplicit false

namespace Sudachi.Foundations

open Function Finset

/-- The sizes of the blocks of each level, every one a multiple of the one before. -/
structure Ladder where
  size : Nat → Nat
  size_pos : ∀ i, 0 < size i
  size_dvd : ∀ i, size i ∣ size (i + 1)

namespace Ladder

variable (L : Ladder)

/-- The number of blocks of level `i` in a block of the next level. -/
def ratio (i : Nat) : Nat := L.size (i + 1) / L.size i

/-- The units of the block `k` of level `i`. -/
def units (i k : Nat) : Finset Nat := Finset.Ico (k * L.size i) ((k + 1) * L.size i)

/-- The blocks of level `i` in the block `g` of the next level. -/
def group (i g : Nat) : Finset Nat := Finset.Ico (g * L.ratio i) ((g + 1) * L.ratio i)

/-- The units of the blocks of all levels. -/
def free (levels : Nat) (B : Nat → Finset Nat) : Finset Nat :=
  (Finset.range levels).biUnion fun i => (B i).biUnion (L.units i)

/-- Every unit is in one block at most, and no level has all the blocks of a group. -/
structure Packed (levels : Nat) (B : Nat → Finset Nat) : Prop where
  unique : ∀ {u i j : Nat}, i < levels → j < levels → u / L.size i ∈ B i → u / L.size j ∈ B j →
    i = j
  incomplete : ∀ i, i + 1 < levels → ∀ g, ¬L.group i g ⊆ B i

variable {L} {levels : Nat} {B B' : Nat → Finset Nat} {i j k g u : Nat}

/-! ## Quotients -/

theorem mem_Ico_mul_iff {n q u : Nat} (hn : 0 < n) :
    u ∈ Finset.Ico (q * n) ((q + 1) * n) ↔ u / n = q := by
  rw [mem_Ico, Nat.div_eq_iff hn]
  have : (q + 1) * n = q * n + n := Nat.succ_mul q n
  omega

theorem size_succ (i : Nat) : L.size (i + 1) = L.size i * L.ratio i :=
  (Nat.mul_div_cancel' (L.size_dvd i)).symm

theorem ratio_pos (i : Nat) : 0 < L.ratio i :=
  Nat.div_pos (Nat.le_of_dvd (L.size_pos (i + 1)) (L.size_dvd i)) (L.size_pos i)

theorem size_dvd_of_le (h : i ≤ j) : L.size i ∣ L.size j := by
  induction h with
  | refl => exact dvd_refl _
  | step _ ih => exact ih.trans (L.size_dvd _)

theorem div_size_succ (u i : Nat) : u / L.size (i + 1) = u / L.size i / L.ratio i := by
  rw [size_succ, Nat.div_div_eq_div_mul]

theorem div_size_of_le (h : i ≤ j) (u : Nat) :
    u / L.size j = u / L.size i / (L.size j / L.size i) := by
  rw [Nat.div_div_eq_div_mul, Nat.mul_div_cancel' (size_dvd_of_le h)]

theorem mem_units : u ∈ L.units i k ↔ u / L.size i = k := mem_Ico_mul_iff (L.size_pos i)

theorem mem_group : k ∈ L.group i g ↔ k / L.ratio i = g := mem_Ico_mul_iff (ratio_pos i)

theorem mem_free : u ∈ L.free levels B ↔ ∃ i < levels, u / L.size i ∈ B i := by
  simp only [free, mem_biUnion, mem_range, mem_units]
  constructor
  · rintro ⟨i, hi, k, hk, rfl⟩
    exact ⟨i, hi, hk⟩
  · rintro ⟨i, hi, hk⟩
    exact ⟨i, hi, _, hk, rfl⟩

theorem units_nonempty (i k : Nat) : (L.units i k).Nonempty :=
  ⟨k * L.size i, mem_units.2 (Nat.mul_div_cancel k (L.size_pos i))⟩

theorem card_units (i k : Nat) : (L.units i k).card = L.size i := by
  rw [units, Nat.card_Ico, Nat.succ_mul, Nat.add_sub_cancel_left]

/-- A block that shares a unit with a block of a higher level lies in it. -/
theorem units_subset_of_mem (h : i ≤ j) (hi : u ∈ L.units i k) (hj : u ∈ L.units j g) :
    L.units i k ⊆ L.units j g := by
  intro v hv
  rw [mem_units] at hi hj hv ⊢
  rw [div_size_of_le h, hv, ← hi, ← div_size_of_le h, hj]

/-! ## Packed families -/

/-- Fewer blocks remain packed. -/
theorem Packed.mono (h : L.Packed levels B) (hsub : ∀ i, B' i ⊆ B i) : L.Packed levels B' where
  unique := fun hi hj hui huj => h.unique hi hj (hsub _ hui) (hsub _ huj)
  incomplete := fun i hi g hgroup => h.incomplete i hi g (hgroup.trans (hsub i))

theorem free_mono (hsub : ∀ i, B' i ⊆ B i) : L.free levels B' ⊆ L.free levels B := by
  intro u hu
  obtain ⟨i, hi, hmem⟩ := mem_free.1 hu
  exact mem_free.2 ⟨i, hi, hsub i hmem⟩

theorem units_subset_free (hi : i < levels) (hk : k ∈ B i) : L.units i k ⊆ L.free levels B := by
  intro u hu
  rw [mem_units] at hu
  exact mem_free.2 ⟨i, hi, hu.symm ▸ hk⟩

theorem free_update_insert (hi : i < levels) :
    L.free levels (update B i (insert k (B i))) = L.free levels B ∪ L.units i k := by
  ext u
  rw [mem_union, mem_free, mem_free, mem_units]
  constructor
  · rintro ⟨j, hj, hmem⟩
    by_cases hji : j = i
    · subst hji
      rw [update_self, mem_insert] at hmem
      exact hmem.symm.imp (fun h => ⟨j, hj, h⟩) id
    · rw [update_of_ne hji] at hmem
      exact .inl ⟨j, hj, hmem⟩
  · rintro (⟨j, hj, hmem⟩ | rfl)
    · refine ⟨j, hj, ?_⟩
      by_cases hji : j = i
      · subst hji
        rw [update_self]
        exact mem_insert_of_mem hmem
      · rw [update_of_ne hji]
        exact hmem
    · exact ⟨i, hi, by rw [update_self]; exact mem_insert_self _ _⟩

section

variable (h : L.Packed levels B)
include h

/-- A block whose units are not free is added, and does not complete its group. -/
theorem Packed.insertBlock (hi : i < levels) (hdis : Disjoint (L.units i k) (L.free levels B))
    (hgroup : i + 1 < levels → ¬L.group i (k / L.ratio i) ⊆ insert k (B i)) :
    L.Packed levels (update B i (insert k (B i))) ∧
      L.free levels (update B i (insert k (B i))) = L.free levels B ∪ L.units i k := by
  refine ⟨⟨?_, ?_⟩, free_update_insert hi⟩
  · -- A unit of the new block is in no other one, because it was not free.
    have hnew : ∀ {u a b : Nat}, a < levels → b < levels → u / L.size a = k → a = i → b ≠ i →
        u / L.size b ∈ B b → False := by
      rintro u a b - hb hua rfl - hub
      exact disjoint_left.1 hdis (mem_units.2 hua) (mem_free.2 ⟨b, hb, hub⟩)
    intro u a b ha hb hua hub
    by_cases hai : a = i <;> by_cases hbi : b = i
    · rw [hai, hbi]
    · rw [hai, update_self, mem_insert] at hua
      rw [update_of_ne hbi] at hub
      rcases hua with hua | hua
      · exact (hnew hi hb hua rfl hbi hub).elim
      · rw [hai]
        exact h.unique hi hb hua hub
    · rw [update_of_ne hai] at hua
      rw [hbi, update_self, mem_insert] at hub
      rcases hub with hub | hub
      · exact (hnew hi ha hub rfl hai hua).elim
      · rw [hbi]
        exact h.unique ha hi hua hub
    · rw [update_of_ne hai] at hua
      rw [update_of_ne hbi] at hub
      exact h.unique ha hb hua hub
  · intro a ha g hsub
    by_cases hai : a = i
    · subst hai
      rw [update_self] at hsub
      by_cases hg : k / L.ratio a = g
      · exact hgroup ha (hg ▸ hsub)
      · -- The new block belongs to another group.
        refine h.incomplete a ha g fun k' hk' => ?_
        rcases mem_insert.1 (hsub hk') with rfl | hold
        · exact absurd (mem_group.1 hk') hg
        · exact hold
    · rw [update_of_ne hai] at hsub
      exact h.incomplete a ha g hsub

/-- A block whose units are not free completes its group: with the group taken out, the block of the
next level is one whose units are not free, and adding it has the same effect. -/
theorem Packed.mergeGroup (hi : i < levels) (hdis : Disjoint (L.units i k) (L.free levels B))
    (hgroup : L.group i (k / L.ratio i) ⊆ insert k (B i)) :
    let B' := update B i (insert k (B i) \ L.group i (k / L.ratio i))
    L.Packed levels B' ∧ Disjoint (L.units (i + 1) (k / L.ratio i)) (L.free levels B') ∧
      L.free levels B' ∪ L.units (i + 1) (k / L.ratio i) = L.free levels B ∪ L.units i k := by
  intro B'
  have hself : k ∈ L.group i (k / L.ratio i) := mem_group.2 rfl
  have hsub : ∀ j, B' j ⊆ B j := by
    intro j
    by_cases hji : j = i
    · subst hji
      intro k' hk'
      simp only [B', update_self, mem_sdiff, mem_insert] at hk'
      rcases hk' with ⟨rfl | hold, hnot⟩
      · exact absurd hself hnot
      · exact hold
    · simp only [B', update_of_ne hji]
      exact Finset.Subset.refl _
  -- The units of the block of the next level are the ones of the group.
  have hunits : ∀ {u}, u ∈ L.units (i + 1) (k / L.ratio i) →
      u / L.size i ∈ L.group i (k / L.ratio i) := by
    intro u hu
    rw [mem_units, div_size_succ] at hu
    exact mem_group.2 hu
  refine ⟨h.mono hsub, ?_, ?_⟩
  · refine disjoint_left.2 fun u hu hfree => ?_
    obtain ⟨j, hj, hmem⟩ := mem_free.1 hfree
    have hin := hunits hu
    by_cases hji : j = i
    · subst hji
      simp only [B', update_self, mem_sdiff] at hmem
      exact hmem.2 hin
    · rcases mem_insert.1 (hgroup hin) with heq | hold
      · exact disjoint_left.1 hdis (mem_units.2 heq) (mem_free.2 ⟨j, hj, hsub j hmem⟩)
      · exact hji (h.unique hj hi (hsub j hmem) hold)
  · ext u
    rw [mem_union, mem_union]
    constructor
    · rintro (hfree | hu)
      · exact .inl (free_mono hsub hfree)
      · rcases mem_insert.1 (hgroup (hunits hu)) with heq | hold
        · exact .inr (mem_units.2 heq)
        · exact .inl (mem_free.2 ⟨i, hi, hold⟩)
    · rintro (hfree | hu)
      · obtain ⟨j, hj, hmem⟩ := mem_free.1 hfree
        by_cases hji : j = i
        · subst hji
          by_cases hin : u / L.size j ∈ L.group j (k / L.ratio j)
          · refine .inr (mem_units.2 ?_)
            rw [div_size_succ]
            exact mem_group.1 hin
          · refine .inl (mem_free.2 ⟨j, hj, ?_⟩)
            simp only [B', update_self, mem_sdiff]
            exact ⟨mem_insert_of_mem hmem, hin⟩
        · refine .inl (mem_free.2 ⟨j, hj, ?_⟩)
          simp only [B', update_of_ne hji]
          exact hmem
      · refine .inr (mem_units.2 ?_)
        rw [div_size_succ, mem_units.1 hu]

/-- A block is taken out. -/
theorem Packed.eraseBlock (hi : i < levels) (hk : k ∈ B i) :
    L.Packed levels (update B i ((B i).erase k)) ∧ L.units i k ⊆ L.free levels B ∧
      L.free levels (update B i ((B i).erase k)) = L.free levels B \ L.units i k := by
  have hsub : ∀ j, update B i ((B i).erase k) j ⊆ B j := by
    intro j
    by_cases hji : j = i
    · subst hji
      rw [update_self]
      exact erase_subset _ _
    · rw [update_of_ne hji]
  refine ⟨h.mono hsub, units_subset_free hi hk, ?_⟩
  ext u
  rw [mem_sdiff, mem_free, mem_free, mem_units]
  constructor
  · rintro ⟨j, hj, hmem⟩
    refine ⟨⟨j, hj, hsub j hmem⟩, fun heq => ?_⟩
    have hji : j = i := h.unique hj hi (hsub j hmem) (heq.symm ▸ hk)
    subst hji
    rw [update_self, heq] at hmem
    exact absurd hmem (notMem_erase k _)
  · rintro ⟨⟨j, hj, hmem⟩, hne⟩
    refine ⟨j, hj, ?_⟩
    by_cases hji : j = i
    · subst hji
      rw [update_self]
      exact mem_erase_of_ne_of_mem hne hmem
    · rw [update_of_ne hji]
      exact hmem

/-- The blocks cover disjoint units, so that their sizes add up. -/
theorem Packed.card_free :
    (L.free levels B).card = ∑ i ∈ range levels, (B i).card * L.size i := by
  rw [free, card_biUnion]
  · refine sum_congr rfl fun i _ => ?_
    rw [card_biUnion]
    · rw [sum_congr rfl fun k _ => card_units i k, sum_const, smul_eq_mul]
    · intro k _ k' _ hne
      refine disjoint_left.2 fun u hu hu' => hne ?_
      rw [mem_units] at hu hu'
      rw [← hu, ← hu']
  · intro i hi j hj hne
    refine disjoint_left.2 fun u hu hu' => hne ?_
    obtain ⟨k, hk, hku⟩ := mem_biUnion.1 hu
    obtain ⟨k', hk', hku'⟩ := mem_biUnion.1 hu'
    rw [mem_units] at hku hku'
    exact h.unique (mem_range.1 hi) (mem_range.1 hj) (hku ▸ hk) (hku' ▸ hk')

/-- Blocks are as large as they can be: a free range of a block size lies in one block. -/
theorem Packed.exists_block (j : Nat) : ∀ {g : Nat}, j < levels → L.units j g ⊆ L.free levels B →
      ∃ i, j ≤ i ∧ i < levels ∧ ∃ k ∈ B i, L.units j g ⊆ L.units i k := by
  induction j with
  | zero =>
    intro g _ hsub
    obtain ⟨u, hu⟩ := L.units_nonempty 0 g
    obtain ⟨i, hi, hmem⟩ := mem_free.1 (hsub hu)
    exact ⟨i, Nat.zero_le i, hi, _, hmem, units_subset_of_mem (Nat.zero_le i) hu (mem_units.2 rfl)⟩
  | succ j ih =>
    intro g hj hsub
    -- Some block of the group is missing; what covers its units instead is larger.
    obtain ⟨k, hk, hnot⟩ := not_subset.1 (h.incomplete j hj g)
    have hin : L.units j k ⊆ L.units (j + 1) g := by
      intro u hu
      rw [mem_units] at hu ⊢
      rw [div_size_succ, hu]
      exact mem_group.1 hk
    obtain ⟨i, hji, hi, k', hk', hcover⟩ := ih (Nat.lt_of_succ_lt hj) (hin.trans hsub)
    obtain ⟨u, hu⟩ := L.units_nonempty j k
    have hne : i ≠ j := by
      rintro rfl
      have heq : k' = k := by
        rw [← mem_units.1 (hcover hu), mem_units.1 hu]
      exact hnot (heq ▸ hk')
    have hlt : j + 1 ≤ i := by omega
    exact ⟨i, hlt, hi, k', hk', units_subset_of_mem hlt (hin hu) (hcover hu)⟩

end

end Ladder

end Sudachi.Foundations
