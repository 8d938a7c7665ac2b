import Mathlib.Data.List.Chain
import Mathlib.Data.List.TakeDrop
import Sudachi.Kernel.MemoryBlockUpdate

/-!
# Coalescing after an update

`CoalesceForUpdate` looks at the pairs of neighbours from the block in front of the updated range to
the first block that reaches beyond it. Whether a block can be merged with a neighbour depends only
on its properties and on the marks of that side (`LooksSameFromLeft`, `LooksSameFromRight`). Cuts
and merges keep both, so a pair outside the window stays unmergeable and the result has no mergeable
neighbours (`updateRange_ok`). The update has no result exactly when the range starts inside the
first block and that block is skipped (`updateRange_error`): the step back then leaves the tree.
-/

set_option autoImplicit false

namespace Sudachi.Kernel

open Sudachi.Foundations List
open DisableMergeAttribute (allLeft allRight)
open Option (mem_some_iff some_or)

/-- No two neighbours can be merged. -/
def Coalesced (l : List KMemoryBlock) : Prop :=
  l.IsChain fun a b => a.canMergeWith b = false

/-- The same properties and the same marks on the left side. -/
def LooksSameFromLeft (a b : KMemoryBlock) : Prop :=
  a.properties = b.properties ∧ a.disableMergeAttribute &&& allLeft =
      b.disableMergeAttribute &&& allLeft

/-- The same properties and the same marks on the right side. -/
def LooksSameFromRight (a b : KMemoryBlock) : Prop :=
  a.properties = b.properties ∧ a.disableMergeAttribute &&& allRight =
      b.disableMergeAttribute &&& allRight

namespace KMemoryBlock

variable {a b : KMemoryBlock}

theorem canMergeWith_congr_right {c : KMemoryBlock} (h : LooksSameFromLeft b c) :
    a.canMergeWith b = a.canMergeWith c := by
  rw [Bool.eq_iff_iff, canMergeWith_iff, canMergeWith_iff, h.1, h.2]

theorem canMergeWith_congr_left {c : KMemoryBlock} (h : LooksSameFromRight a b) :
    a.canMergeWith c = b.canMergeWith c := by
  rw [Bool.eq_iff_iff, canMergeWith_iff, canMergeWith_iff, h.1, h.2]

theorem split_fst_looksSameFromLeft (b : KMemoryBlock) (a : Nat) :
    LooksSameFromLeft (b.split a).1 b := by
  refine ⟨rfl, ?_⟩
  simp only [split, BitVec.and_assoc, BitVec.and_self]

theorem split_snd_looksSameFromRight (b : KMemoryBlock) (a : Nat) :
    LooksSameFromRight (b.split a).2 b := by
  refine ⟨rfl, ?_⟩
  simp only [split, BitVec.and_assoc, BitVec.and_self]

@[simp] theorem add_address (a b : KMemoryBlock) : (a.add b).address = a.address := rfl

@[simp] theorem add_properties (a b : KMemoryBlock) : (a.add b).properties = a.properties := rfl

theorem add_getEndAddress (h : a.getEndAddress = b.address) :
    (a.add b).getEndAddress = b.getEndAddress := by
  simp only [getEndAddress_eq, add] at h ⊢
  rw [add_mul]
  omega

theorem add_looksSameFromLeft (h : a.canMergeWith b = true) : LooksSameFromLeft (a.add b) a := by
  obtain ⟨-, -, hright⟩ := (canMergeWith_iff a b).1 h
  refine ⟨rfl, ?_⟩
  have hor : (a.add b).disableMergeAttribute &&& allLeft = (a.disableMergeAttribute &&& allLeft) |||
        (b.disableMergeAttribute &&& allLeft) :=
    BitVec.and_or_distrib_right
  rw [hor, hright]
  exact BitVec.or_zero

theorem add_looksSameFromRight (h : a.canMergeWith b = true) : LooksSameFromRight (a.add b) b := by
  obtain ⟨hprop, hleft, -⟩ := (canMergeWith_iff a b).1 h
  refine ⟨hprop, ?_⟩
  have hor : (a.add b).disableMergeAttribute &&& allRight =
      (a.disableMergeAttribute &&& allRight) ||| (b.disableMergeAttribute &&& allRight) :=
    BitVec.and_or_distrib_right
  rw [hor, hleft]
  exact BitVec.zero_or

end KMemoryBlock

/-! ## The coalescing loop -/

/-- One merge of two neighbours. -/
inductive MergeStep : List KMemoryBlock → List KMemoryBlock → Prop
  | merge (pre : List KMemoryBlock) (a b : KMemoryBlock) (post : List KMemoryBlock) :
      a.canMergeWith b = true → MergeStep (pre ++ a :: b :: post) (pre ++ a.add b :: post)

/-- Merges of neighbours, one after the other. -/
abbrev Merges : List KMemoryBlock → List KMemoryBlock → Prop := Relation.ReflTransGen MergeStep

variable {l l' : List KMemoryBlock} {s e : Nat}

theorem MergeStep.append_left (pre : List KMemoryBlock)
    (h : MergeStep l l') : MergeStep (pre ++ l) (pre ++ l') := by
  cases h with
  | merge pre' a b post hab =>
    have hstep := MergeStep.merge (pre ++ pre') a b post hab
    rwa [append_assoc, append_assoc] at hstep

theorem Merges.append_left (pre : List KMemoryBlock)
    (h : Merges l l') : Merges (pre ++ l) (pre ++ l') := by
  induction h with
  | refl => exact Relation.ReflTransGen.refl
  | tail _ hstep ih => exact ih.tail (hstep.append_left pre)

theorem coalesceLoop_merges (rangeEnd : Nat) (after : List KMemoryBlock) :
    ∀ (prev : KMemoryBlock) (a : UpdateAllocator),
      Merges (prev :: after) (coalesceLoop rangeEnd prev after a).1 := by
  induction after with
  | nil => intro prev _; exact Relation.ReflTransGen.refl
  | cons it rest ih =>
    intro prev a
    by_cases hm : prev.canMergeWith it = true
    · have hstep : MergeStep (prev :: it :: rest) (prev.add it :: rest) :=
        MergeStep.merge [] prev it rest hm
      by_cases hend : rangeEnd < (prev.add it).getEndAddress
      · simp only [coalesceLoop, if_pos hm, if_pos hend]
        exact Relation.ReflTransGen.single hstep
      · simp only [coalesceLoop, if_pos hm, if_neg hend]
        exact Relation.ReflTransGen.head hstep (ih (prev.add it) a.free)
    · by_cases hend : rangeEnd < it.getEndAddress
      · simp only [coalesceLoop, if_neg hm, if_pos hend]
        exact Relation.ReflTransGen.refl
      · simp only [coalesceLoop, if_neg hm, if_neg hend]
        exact (ih it a).append_left [prev]

theorem coalesceLoop_taken (rangeEnd : Nat) (after : List KMemoryBlock) :
    ∀ (prev : KMemoryBlock) (a : UpdateAllocator),
      (coalesceLoop rangeEnd prev after a).2.taken = a.taken := by
  induction after with
  | nil => intro prev a; rfl
  | cons it rest ih =>
    intro prev a
    by_cases hm : prev.canMergeWith it = true
    · by_cases hend : rangeEnd < (prev.add it).getEndAddress
      · simp only [coalesceLoop, if_pos hm, if_pos hend, UpdateAllocator.free]
      · simp only [coalesceLoop, if_pos hm, if_neg hend, ih, UpdateAllocator.free]
    · by_cases hend : rangeEnd < it.getEndAddress
      · simp only [coalesceLoop, if_neg hm, if_pos hend]
      · simp only [coalesceLoop, if_neg hm, if_neg hend, ih]

theorem MergeStep.tiles (h : MergeStep l l') (ht : BlocksTile s e l) : BlocksTile s e l' := by
  cases h with
  | merge pre a b post hab =>
    obtain ⟨m, hpre, hadd, hlt, hadj, hlt', hpost⟩ := tiles_append.1 ht
    refine tiles_append.2 ⟨m, hpre, hadd, ?_, ?_⟩
    · rw [KMemoryBlock.add_getEndAddress hadj.symm]; omega
    · rw [KMemoryBlock.add_getEndAddress hadj.symm]; exact hpost

theorem Merges.tiles (h : Merges l l') (ht : BlocksTile s e l) : BlocksTile s e l' := by
  induction h with
  | refl => exact ht
  | tail _ hstep ih => exact hstep.tiles ih

/-- The neighbours behind `r` cannot be merged. -/
def CoalescedFrom (r : Nat) (l : List KMemoryBlock) : Prop :=
  l.IsChain fun a b => r < a.getEndAddress → a.canMergeWith b = false

theorem CoalescedFrom.coalesced {r : Nat} {b : KMemoryBlock} (h : CoalescedFrom r (b :: l))
    (ht : BlocksTile s e (b :: l)) (hb : r < b.getEndAddress) : Coalesced (b :: l) := by
  induction l generalizing b s with
  | nil => exact .singleton b
  | cons c l ih =>
    obtain ⟨hbc, htl⟩ := isChain_cons_cons.1 h
    obtain ⟨-, -, htc⟩ := ht
    refine isChain_cons_cons.2 ⟨hbc hb, ih htl htc ?_⟩
    have := htc.2.1
    omega

/-- The loop leaves no mergeable neighbours, and its first block looks from the left like the block
it started with. -/
theorem coalesceLoop_coalesced {r : Nat} (after : List KMemoryBlock) :
    ∀ (prev : KMemoryBlock) (a : UpdateAllocator) (s e : Nat), BlocksTile s e (prev :: after) →
      CoalescedFrom r (prev :: after) → Coalesced (coalesceLoop r prev after a).1 ∧
        ∃ x xs, (coalesceLoop r prev after a).1 = x :: xs ∧ LooksSameFromLeft x prev := by
  induction after with
  | nil =>
    intro prev a s e _ _
    exact ⟨.singleton prev, prev, [], rfl, rfl, rfl⟩
  | cons it rest ih =>
    intro prev a s e ht hc
    obtain ⟨-, hrest⟩ := isChain_cons_cons.1 hc
    have hadj : prev.getEndAddress = it.address := ht.2.2.1.symm
    by_cases hm : prev.canMergeWith it = true
    · have hend := KMemoryBlock.add_getEndAddress hadj
      have htm : BlocksTile s e (prev.add it :: rest) :=
        (MergeStep.merge [] prev it rest hm).tiles ht
      -- The merged block has the right side of `it`, so the pair behind it is as before.
      have hcm : CoalescedFrom r (prev.add it :: rest) := by
        refine hrest.tail.cons fun y hy => ?_
        rw [hend, KMemoryBlock.canMergeWith_congr_left (KMemoryBlock.add_looksSameFromRight hm)]
        exact hrest.rel_head? hy
      have hleft := KMemoryBlock.add_looksSameFromLeft hm
      by_cases hr : r < (prev.add it).getEndAddress
      · simp only [coalesceLoop, if_pos hm, if_pos hr]
        exact ⟨hcm.coalesced htm hr, _, _, rfl, hleft⟩
      · simp only [coalesceLoop, if_pos hm, if_neg hr]
        obtain ⟨h1, x, xs, h2, h3⟩ := ih (prev.add it) a.free s e htm hcm
        exact ⟨h1, x, xs, h2, h3.1.trans hleft.1, h3.2.trans hleft.2⟩
    · have hm' : prev.canMergeWith it = false := by simpa using hm
      by_cases hr : r < it.getEndAddress
      · simp only [coalesceLoop, if_neg hm, if_pos hr]
        exact ⟨isChain_cons_cons.2 ⟨hm', CoalescedFrom.coalesced hrest ht.2.2 hr⟩, _, _, rfl,
          rfl, rfl⟩
      · simp only [coalesceLoop, if_neg hm, if_neg hr]
        obtain ⟨h1, x, xs, h2, h3⟩ := ih it a prev.getEndAddress e ht.2.2 hrest
        refine ⟨?_, _, _, rfl, rfl, rfl⟩
        rw [h2] at h1 ⊢
        refine isChain_cons_cons.2 ⟨?_, h1⟩
        rw [KMemoryBlock.canMergeWith_congr_right h3]
        exact hm'

/-! ## Finding the range -/

theorem compare_key_eq_zero_iff {address : Nat} {b : KMemoryBlock}
    (hb : b.address < b.getEndAddress) :
    (KMemoryBlock.initializeBlock address 1 KMemoryState.free KMemoryPermission.none
      KMemoryAttribute.none).compare b = 0 ↔ b.address ≤ address ∧ address < b.getEndAddress := by
  simp only [KMemoryBlock.compare, KMemoryBlock.initializeBlock, KMemoryBlock.getLastAddress]
  split_ifs <;> omega

/-- On a tiling, `FindIterator` stops at the block that holds the address. -/
theorem findIterator_eq {m : KMemoryBlockManager} {address : Nat}
    (ht : BlocksTile s e m.memoryBlockTree) (hs : s ≤ address) (he : address < e) :
    ∃ before it rest, m.findIterator address = (before, it :: rest) ∧
      m.memoryBlockTree = before ++ it :: rest ∧ it.address ≤ address ∧
      address < it.getEndAddress ∧ BlocksTile s it.address before ∧
      BlocksTile it.getEndAddress e rest := by
  obtain ⟨before, it, rest, heq, h1, h2, ht1, ht2⟩ := ht.exists_split hs he
  refine ⟨before, it, rest, ?_, heq, h1, h2, ht1, ht2⟩
  have hbefore : ∀ b ∈ before, ((KMemoryBlock.initializeBlock address 1 KMemoryState.free
      KMemoryPermission.none KMemoryAttribute.none).compare b != 0) = true := by
    intro b hb
    obtain ⟨-, hpos, hend⟩ := ht1.mem hb
    rw [bne_iff_ne, Ne, compare_key_eq_zero_iff hpos]
    omega
  have hit : ((KMemoryBlock.initializeBlock address 1 KMemoryState.free
      KMemoryPermission.none KMemoryAttribute.none).compare it != 0) = false := by
    rw [bne_eq_false_iff_eq, compare_key_eq_zero_iff (by omega)]
    exact ⟨h1, h2⟩
  simp only [KMemoryBlockManager.findIterator, span_eq_takeWhile_dropWhile, heq]
  rw [takeWhile_append_of_pos hbefore, dropWhile_append_of_pos hbefore]
  simp [hit]

/-! ## Neighbours after the loop -/

/-- The neighbours in front of `lo` and the neighbours behind `hi` cannot be merged. -/
def CoalescedOutside (lo hi : Nat) (l : List KMemoryBlock) : Prop :=
  l.IsChain fun a b => b.getEndAddress ≤ lo ∨ hi < a.getEndAddress → a.canMergeWith b = false

section Segments

variable {needs : KMemoryBlock → Bool} {f : KMemoryBlock → KMemoryBlock} {lo hi : Nat}

theorem segment_ne_nil (b : KMemoryBlock) : segment needs f lo hi b ≠ [] := by
  unfold segment cutBack
  split_ifs <;> simp

/-- The first block of a segment looks from the left like the block it replaces, unless it is the
rewritten part; that part reaches into the range. -/
theorem head_segment {b x : KMemoryBlock} (hf : KeepsExtent f) (hlt : lo < hi)
    (hhi : pageSize ∣ hi - b.address) (hx : x ∈ (segment needs f lo hi b).head?)
    (hend : x.getEndAddress ≤ lo) : LooksSameFromLeft x b := by
  by_cases h : needs b = true ∧ lo < b.getEndAddress ∧ b.address < hi
  · rw [segment, if_pos h] at hx
    by_cases hcut : b.address < lo
    · simp only [cutFront, if_pos hcut, singleton_append, head?_cons, mem_some_iff] at hx
      rw [← hx]
      exact KMemoryBlock.split_fst_looksSameFromLeft b lo
    · exfalso
      simp only [cutFront, if_neg hcut, nil_append, cutBack] at hx
      by_cases hb : hi < b.getEndAddress
      · simp only [if_pos hb, head?_cons, mem_some_iff] at hx
        rw [← hx, hf.getEndAddress,
          KMemoryBlock.split_fst_getEndAddress (le_of_lt h.2.2) hhi] at hend
        omega
      · simp only [if_neg hb, head?_cons, mem_some_iff] at hx
        rw [← hx, hf.getEndAddress] at hend
        omega
  · rw [segment, if_neg h] at hx
    simp only [head?_cons, mem_some_iff] at hx
    rw [← hx]
    exact ⟨rfl, rfl⟩

/-- The last block of a segment looks from the right like the block it replaces, unless it is the
rewritten part; that part ends inside the range. -/
theorem getLast_segment {b x : KMemoryBlock} (hf : KeepsExtent f)
    (hlo : pageSize ∣ lo - b.address) (hx : x ∈ (segment needs f lo hi b).getLast?)
    (hend : hi < x.getEndAddress) : LooksSameFromRight x b := by
  by_cases h : needs b = true ∧ lo < b.getEndAddress ∧ b.address < hi
  · rw [segment, if_pos h] at hx
    have hfrontEnd := cutFront_snd_getEndAddress (le_of_lt h.2.1) hlo
    have hfront : LooksSameFromRight (cutFront lo b).2 b := by
      by_cases hcut : b.address < lo
      · simp only [cutFront, if_pos hcut]
        exact KMemoryBlock.split_snd_looksSameFromRight b lo
      · simp only [cutFront, if_neg hcut]
        exact ⟨rfl, rfl⟩
    by_cases hb : hi < (cutFront lo b).2.getEndAddress
    · simp only [cutBack, if_pos hb, getLast?_append, getLast?_cons_cons,
        getLast?_singleton, some_or, mem_some_iff] at hx
      have hback := KMemoryBlock.split_snd_looksSameFromRight (cutFront lo b).2 hi
      rw [← hx]
      exact ⟨hback.1.trans hfront.1, hback.2.trans hfront.2⟩
    · exfalso
      simp only [cutBack, if_neg hb, getLast?_append, getLast?_singleton,
        some_or, mem_some_iff] at hx
      rw [← hx, hf.getEndAddress] at hend
      omega
  · rw [segment, if_neg h] at hx
    simp only [getLast?_singleton, mem_some_iff] at hx
    rw [← hx]
    exact ⟨rfl, rfl⟩

/-- The cuts inside a segment are at the ends of the range. -/
theorem segment_coalescedOutside {b : KMemoryBlock} (hf : KeepsExtent f) (hlt : lo < hi)
    (hlo : pageSize ∣ lo - b.address) (hhi : pageSize ∣ hi - b.address)
    (hlohi : pageSize ∣ hi - lo) : CoalescedOutside lo hi (segment needs f lo hi b) := by
  by_cases h : needs b = true ∧ lo < b.getEndAddress ∧ b.address < hi
  · obtain ⟨-, h1, -⟩ := id h
    have hadd : (cutFront lo b).2.address = max b.address lo := cutFront_snd_address
    have hend := cutFront_snd_getEndAddress (le_of_lt h1) hlo
    have hdvd : pageSize ∣ hi - (cutFront lo b).2.address := by
      rcases le_total b.address lo with hle | hle
      · rw [hadd, max_eq_right hle]; exact hlohi
      · rw [hadd, max_eq_left hle]; exact hhi
    have hfst := KMemoryBlock.split_fst_getEndAddress (by omega) hdvd
    have hsnd (hb : hi < (cutFront lo b).2.getEndAddress) :=
      KMemoryBlock.split_snd_getEndAddress (by omega) (le_of_lt hb) hdvd
    have hback : CoalescedOutside lo hi (cutBack f hi (cutFront lo b).2) := by
      by_cases hb : hi < (cutFront lo b).2.getEndAddress
      · simp only [cutBack, if_pos hb]
        refine isChain_cons_cons.2 ⟨?_, .singleton _⟩
        rw [hf.getEndAddress, hfst, hsnd hb]
        omega
      · simp only [cutBack, if_neg hb]
        exact .singleton _
    rw [segment, if_pos h]
    refine List.IsChain.append ?_ hback ?_
    · by_cases hcut : b.address < lo
      · simp only [cutFront, if_pos hcut]
        exact .singleton _
      · simp only [cutFront, if_neg hcut]
        exact .nil
    · intro x hx y hy
      by_cases hcut : b.address < lo
      · have hxe : x.getEndAddress = lo := by
          simp only [cutFront, if_pos hcut, getLast?_singleton, mem_some_iff] at hx
          rw [← hx]
          exact KMemoryBlock.split_fst_getEndAddress (le_of_lt hcut) hlo
        have hye : lo < y.getEndAddress := by
          by_cases hb : hi < (cutFront lo b).2.getEndAddress
          · simp only [cutBack, if_pos hb, head?_cons, mem_some_iff] at hy
            rw [← hy, hf.getEndAddress, hfst]
            exact hlt
          · simp only [cutBack, if_neg hb, head?_cons, mem_some_iff] at hy
            rw [← hy, hf.getEndAddress, hend]
            exact h1
        omega
      · simp only [cutFront, if_neg hcut, getLast?_nil] at hx
        exact absurd hx (by simp)
  · rw [segment, if_neg h]
    exact .singleton b

/-- Outside the range, the neighbours after the loop are as unmergeable as those before it. -/
theorem flatMap_segment_coalescedOutside (hf : KeepsExtent f) (hlt : lo < hi)
    (hlo : pageSize ∣ lo) (hhi : pageSize ∣ hi) {l : List KMemoryBlock} :
    ∀ {s e : Nat}, BlocksTile s e l → (∀ b ∈ l, pageSize ∣ b.address) → Coalesced l →
      CoalescedOutside lo hi (l.flatMap (segment needs f lo hi)) := by
  have hlohi : pageSize ∣ hi - lo := Nat.dvd_sub hhi hlo
  induction l with
  | nil => intro s e _ _ _; exact .nil
  | cons b l ih =>
    intro s e ht hal hc
    have hsub (c : KMemoryBlock) (hmem : c ∈ b :: l) :
        pageSize ∣ lo - c.address ∧ pageSize ∣ hi - c.address :=
      ⟨Nat.dvd_sub hlo (hal c hmem), Nat.dvd_sub hhi (hal c hmem)⟩
    have hpos := (ht.mem mem_cons_self).2.1
    obtain ⟨-, -, htl⟩ := id ht
    obtain ⟨hblo, hbhi⟩ := hsub b mem_cons_self
    rw [flatMap_cons]
    refine List.IsChain.append (segment_coalescedOutside hf hlt hblo hbhi hlohi)
      (ih htl (fun c hmem => hal c (mem_cons_of_mem b hmem)) hc.tail) ?_
    intro x hx y hy
    cases l with
    | nil => simp at hy
    | cons c l =>
      obtain ⟨hclo, hchi⟩ := hsub c (by simp)
      have hcb : c.address = b.getEndAddress := htl.1
      have htb := tiles_segment needs hf hlt hpos hblo hbhi hlohi
      have htc := tiles_segment needs hf hlt (htl.mem mem_cons_self).2.1 hclo hchi
        hlohi
      have hbc : b.canMergeWith c = false := (isChain_cons_cons.1 hc).1
      have hy' : y ∈ (segment needs f lo hi c).head? := by
        rwa [flatMap_cons, head?_append_of_ne_nil _ (segment_ne_nil c)] at hy
      rintro (hend | hend)
      · have hyc : c.address < y.getEndAddress := by
          obtain ⟨ys, hys⟩ := head?_eq_some_iff.1 hy'
          rw [hys] at htc
          exact htc.2.1
        have hbdis : segment needs f lo hi b = [b] := segment_of_disjoint (.inl (by omega))
        rw [hbdis] at hx
        simp only [getLast?_singleton, mem_some_iff] at hx
        rw [← hx, KMemoryBlock.canMergeWith_congr_right (head_segment hf hlt hchi hy' hend)]
        exact hbc
      · have hxb : x.getEndAddress ≤ b.getEndAddress := (htb.mem (mem_of_mem_getLast? hx)).2.2
        have hcdis : segment needs f lo hi c = [c] := segment_of_disjoint (.inr (by omega))
        rw [hcdis] at hy'
        simp only [head?_cons, mem_some_iff] at hy'
        rw [← hy', KMemoryBlock.canMergeWith_congr_left (getLast_segment hf hblo hx hend)]
        exact hbc

end Segments

theorem CoalescedOutside.coalesced_of_le {lo hi : Nat}
    (h : CoalescedOutside lo hi l) (hle : ∀ b ∈ l, b.getEndAddress ≤ lo) : Coalesced l := by
  induction l with
  | nil => exact .nil
  | cons b l ih =>
    refine (ih h.tail fun c hc => hle c (mem_cons_of_mem b hc)).cons fun y hy => ?_
    exact h.rel_head? hy (.inl (hle y (mem_cons_of_mem b (mem_of_mem_head? hy))))

theorem CoalescedOutside.coalescedFrom {lo hi : Nat}
    (h : CoalescedOutside lo hi l) : CoalescedFrom hi l :=
  h.imp fun _ _ hab hr => hab (.inr hr)

/-- On an aligned tiling every block is aligned. -/
theorem aligned_of_tiles : ∀ {s e : Nat}, BlocksTile s e l → pageSize ∣ s →
    ∀ b ∈ l, pageSize ∣ b.address := by
  induction l with
  | nil => intro s e _ _ b hb; simp at hb
  | cons c l ih =>
    intro s e ht hs b hb
    obtain ⟨hcs, -, htl⟩ := ht
    rcases mem_cons.1 hb with rfl | hb
    · rw [hcs]; exact hs
    · refine ih htl ?_ b hb
      rw [KMemoryBlock.getEndAddress_eq, hcs]
      exact dvd_add hs (dvd_mul_left pageSize _)

/-! ## A whole update -/

namespace KMemoryBlockManager

/-- The representation invariant: the blocks tile the managed range and no two neighbours can be
merged. -/
structure WellFormed (m : KMemoryBlockManager) : Prop where
  startAligned : pageSize ∣ m.startAddress
  tiles : BlocksTile m.startAddress m.endAddress m.memoryBlockTree
  coalesced : Coalesced m.memoryBlockTree

/-- A nonempty, page-aligned range inside the managed one. -/
structure ValidRange (m : KMemoryBlockManager) (address numPages : Nat) : Prop where
  aligned : pageSize ∣ address
  nonempty : numPages ≠ 0
  start_le : m.startAddress ≤ address
  end_le : address + numPages * pageSize ≤ m.endAddress

/-- The block in front of the range exists once the loop is done: the range starts with the managed
one, or behind the first block, or the first block is rewritten and therefore cut at the start of
the range. -/
def HasBlockBefore (m : KMemoryBlockManager) (needs : KMemoryBlock → Bool) (address : Nat) : Prop :=
  address = m.startAddress ∨
    ∀ b ∈ m.memoryBlockTree.head?, address < b.getEndAddress → needs b = true

/-- The sequence of blocks between the loop and the coalescing. -/
def segments (m : KMemoryBlockManager) (needs : KMemoryBlock → Bool)
    (f : KMemoryBlock → KMemoryBlock) (address numPages : Nat) : List KMemoryBlock :=
  m.memoryBlockTree.flatMap (segment needs f address (address + numPages * pageSize))

section UpdateRange

variable {m : KMemoryBlockManager} {needs : KMemoryBlock → Bool}
  {f : KMemoryBlock → KMemoryBlock} {a : UpdateAllocator} {address numPages : Nat}

variable {rest : List KMemoryBlock} {it : KMemoryBlock}

variable (needs) in
theorem segments_tile (hm : m.WellFormed) (hr : m.ValidRange address numPages)
    (hf : KeepsExtent f) :
    BlocksTile m.startAddress m.endAddress (m.segments needs f address numPages) := by
  have hpos := mul_pos (pos_of_ne_zero hr.nonempty) pageSize_pos
  have hhi : pageSize ∣ address + numPages * pageSize :=
    dvd_add hr.aligned (dvd_mul_left pageSize _)
  refine hm.tiles.flatMap fun b hb => ?_
  have hb' := aligned_of_tiles hm.tiles hm.startAligned b hb
  exact tiles_segment needs hf (by omega) (hm.tiles.mem hb).2.1 (Nat.dvd_sub hr.aligned hb')
    (Nat.dvd_sub hhi hb') (Nat.dvd_sub hhi hr.aligned)

variable (needs) in
theorem segments_coalescedOutside (hm : m.WellFormed) (hr : m.ValidRange address numPages)
    (hf : KeepsExtent f) : CoalescedOutside address (address + numPages * pageSize)
      (m.segments needs f address numPages) := by
  have hpos := mul_pos (pos_of_ne_zero hr.nonempty) pageSize_pos
  exact flatMap_segment_coalescedOutside hf (by omega) hr.aligned
    (dvd_add hr.aligned (dvd_mul_left pageSize _)) hm.tiles
    (aligned_of_tiles hm.tiles hm.startAligned) hm.coalesced

variable (needs f) in
/-- An update is the segmentation of the tree followed by the coalescing. -/
theorem updateRange_eq (hm : m.WellFormed) (hr : m.ValidRange address numPages) (ha : a.index = 0) :
    ∃ n ≤ 2, m.updateRange needs f a address numPages =
      { m with memoryBlockTree := m.segments needs f address numPages }.coalesceForUpdate
        (a.takeBlocks n) address numPages := by
  have hpos := mul_pos (pos_of_ne_zero hr.nonempty) pageSize_pos
  obtain ⟨before, it, rest, hfind, htree, hle, hend, htb, htr⟩ :=
    findIterator_eq hm.tiles hr.start_le (by have := hr.end_le; omega)
  have hit := aligned_of_tiles hm.tiles hm.startAligned it (by rw [htree]; simp)
  obtain ⟨c', n, hrun, hlist, halloc, hn⟩ := updateLoop_eq_flatMap needs f
    hr.end_le (it :: rest).length ⟨before, it :: rest, address, numPages, a⟩ it.address
    ⟨rfl, by omega, htr⟩ hle (by simpa using hend) (Nat.dvd_sub hr.aligned hit) rfl hr.nonempty
    (le_refl _) (by
      rw [show a.index = 0 from ha]
      split_ifs <;> decide)
  have hbefore : before.flatMap (segment needs f address (address + numPages * pageSize)) =
      before :=
    flatMap_segment_of_disjoint fun b hb => .inl (le_trans (htb.mem hb).2.2 hle)
  have hsegs : m.segments needs f address numPages = c'.before ++ c'.after := by
    rw [hlist, segments, htree, flatMap_append, hbefore]
  refine ⟨n, le_trans hn (by split_ifs <;> omega), ?_⟩
  rw [hsegs, ← halloc, updateRange, hfind]
  simp only [hrun]
  rfl

/-! The three ways in which `CoalesceForUpdate` can start. -/

theorem coalesceForUpdate_of_start {before : List KMemoryBlock}
    (hfind : m.findIterator address = (before, it :: rest)) (h : address = m.startAddress) :
    m.coalesceForUpdate a address numPages = .ok ({ m with memoryBlockTree :=
        before ++ (coalesceLoop (address + numPages * pageSize) it rest a).1 },
        (coalesceLoop (address + numPages * pageSize) it rest a).2) := by
  simp only [coalesceForUpdate, hfind, if_neg (not_not.2 h)]

theorem coalesceForUpdate_of_prev {pre : List KMemoryBlock} {prev : KMemoryBlock}
    (hfind : m.findIterator address = (pre ++ [prev], it :: rest)) (h : address ≠ m.startAddress) :
    m.coalesceForUpdate a address numPages = .ok ({ m with memoryBlockTree :=
        pre ++ (coalesceLoop (address + numPages * pageSize) prev (it :: rest) a).1 },
        (coalesceLoop (address + numPages * pageSize) prev (it :: rest) a).2) := by
  simp only [coalesceForUpdate, hfind, if_pos h, getLast?_concat, dropLast_concat]

theorem coalesceForUpdate_of_first
    (hfind : m.findIterator address = ([], it :: rest)) (h : address ≠ m.startAddress) :
    m.coalesceForUpdate a address numPages = .error .nullIterator := by
  simp only [coalesceForUpdate, hfind, if_pos h, getLast?_nil]

section

variable (hm : m.WellFormed) (hr : m.ValidRange address numPages)
include hm hr

/-- With a block in front of the range, the loop ends with one in front of the iterator. -/
theorem before_ne_nil_of_hasBlockBefore
    (hstart : address ≠ m.startAddress) (hb : m.HasBlockBefore needs address)
    (hend : address < it.getEndAddress) : m.segments needs f address numPages ≠ it :: rest := by
  intro hlist
  have hpos := mul_pos (pos_of_ne_zero hr.nonempty) pageSize_pos
  have hstart_le := hr.start_le
  have htiles := hm.tiles
  cases htree : m.memoryBlockTree with
  | nil => simp [segments, htree] at hlist
  | cons b l =>
    rw [htree] at htiles
    have hbs : b.address = m.startAddress := htiles.1
    have hbal := aligned_of_tiles hm.tiles hm.startAligned b (by rw [htree]; simp)
    simp only [segments, htree, flatMap_cons] at hlist
    by_cases hin : address < b.getEndAddress
    · have hneeds : needs b = true := hb.resolve_left hstart b (by rw [htree]; rfl) hin
      have hcut : b.address < address := by omega
      rw [segment, if_pos ⟨hneeds, hin, by omega⟩] at hlist
      simp only [cutFront, if_pos hcut, cons_append, cons.injEq] at hlist
      rw [← hlist.1, KMemoryBlock.split_fst_getEndAddress (le_of_lt hcut)
        (Nat.dvd_sub hr.aligned hbal)] at hend
      omega
    · rw [segment_of_disjoint (.inl (by omega))] at hlist
      simp only [cons_append, cons.injEq] at hlist
      rw [← hlist.1] at hend
      omega

/-- An update with a block in front of its range succeeds, keeps the representation invariant and
takes at most two blocks from the allocator. Its result is the segmented tree with neighbours
merged. -/
theorem updateRange_ok
    (hf : KeepsExtent f) (ha : a.index = 0) (hb : m.HasBlockBefore needs address) :
    ∃ m' a', m.updateRange needs f a address numPages = .ok (m', a') ∧
      m'.startAddress = m.startAddress ∧ m'.endAddress = m.endAddress ∧ m'.WellFormed ∧
      Merges (m.segments needs f address numPages) m'.memoryBlockTree ∧
      a'.taken ≤ a.taken + 2 := by
  have hpos := mul_pos (pos_of_ne_zero hr.nonempty) pageSize_pos
  obtain ⟨n, hn, heq⟩ := updateRange_eq needs f hm hr ha
  have htiles := segments_tile needs hm hr hf
  have hout := segments_coalescedOutside needs hm hr hf
  obtain ⟨before, it, rest, hfind, htree, hle, hend, htb, htr⟩ := findIterator_eq
    (m := { m with memoryBlockTree := m.segments needs f address numPages }) htiles hr.start_le
    (by have := hr.end_le; omega)
  have htree' : m.segments needs f address numPages = before ++ it :: rest := htree
  have htake : (a.takeBlocks n).taken ≤ a.taken + 2 := by
    simp only [UpdateAllocator.takeBlocks]; omega
  -- What the loop returns for a window that starts with `prev` behind the blocks `pre`.
  have key : ∀ (pre : List KMemoryBlock) (prev : KMemoryBlock) (after : List KMemoryBlock),
      before ++ it :: rest = pre ++ prev :: after → Coalesced (pre ++ [prev]) →
      { m with memoryBlockTree := pre ++ (coalesceLoop (address + numPages * pageSize) prev after
          (a.takeBlocks n)).1 }.WellFormed ∧
        Merges (m.segments needs f address numPages) (pre ++ (coalesceLoop
          (address + numPages * pageSize) prev after (a.takeBlocks n)).1) ∧
        (coalesceLoop (address + numPages * pageSize) prev after (a.takeBlocks n)).2.taken ≤
          a.taken + 2 := by
    intro pre prev after hsplit hpre
    rw [htree', hsplit] at htiles hout
    obtain ⟨s, -, htwin⟩ := tiles_append.1 htiles
    have hmerges := (coalesceLoop_merges (address + numPages * pageSize) after prev
      (a.takeBlocks n)).append_left pre
    refine ⟨⟨hm.startAligned, hmerges.tiles htiles, ?_⟩, ?_, ?_⟩
    · obtain ⟨hco, x, xs, hxs, hlook⟩ := coalesceLoop_coalesced after prev (a.takeBlocks n) s
        m.endAddress htwin (CoalescedOutside.coalescedFrom hout.right_of_append)
      refine List.IsChain.append hpre.left_of_append hco fun p hp y hy => ?_
      rw [hxs] at hy
      simp only [head?_cons, mem_some_iff] at hy
      rw [← hy, KMemoryBlock.canMergeWith_congr_right hlook]
      exact (isChain_append.1 hpre).2.2 p hp prev rfl
    · rw [htree', hsplit]
      exact hmerges
    · rw [coalesceLoop_taken]
      exact htake
  by_cases hstart : address = m.startAddress
  · -- The window starts with the first block of the tree.
    have hnil : before = [] := by
      cases before with
      | nil => rfl
      | cons c l =>
        obtain ⟨h1, h2, h3⟩ := htb.mem (mem_cons_self (a := c) (l := l))
        omega
    subst hnil
    obtain ⟨h1, h2, h3⟩ := key [] it rest rfl (.singleton it)
    rw [heq, coalesceForUpdate_of_start hfind hstart]
    exact ⟨_, _, rfl, rfl, rfl, h1, h2, h3⟩
  · have hne : before ≠ [] := by
      rintro rfl
      exact before_ne_nil_of_hasBlockBefore hm hr hstart hb hend htree'
    obtain ⟨pre, prev, hprev⟩ : ∃ pre prev, before = pre ++ [prev] :=
      ⟨before.dropLast, before.getLast hne, (dropLast_append_getLast hne).symm⟩
    subst hprev
    have hco : Coalesced (pre ++ [prev]) := by
      rw [htree'] at hout
      have hleft : CoalescedOutside address (address + numPages * pageSize) (pre ++ [prev]) :=
        hout.left_of_append
      exact hleft.coalesced_of_le fun b hb' => le_trans (htb.mem hb').2.2 hle
    obtain ⟨h1, h2, h3⟩ := key pre prev (it :: rest) (by simp) hco
    rw [heq, coalesceForUpdate_of_prev hfind hstart]
    exact ⟨_, _, rfl, rfl, rfl, h1, h2, h3⟩

/-- Without a block in front of its range, an update steps back from the first block. -/
theorem updateRange_error
    (hf : KeepsExtent f) (ha : a.index = 0) (hb : ¬ m.HasBlockBefore needs address) :
    m.updateRange needs f a address numPages = .error .nullIterator := by
  have hpos := mul_pos (pos_of_ne_zero hr.nonempty) pageSize_pos
  obtain ⟨n, -, heq⟩ := updateRange_eq needs f hm hr ha
  have htiles := segments_tile needs hm hr hf
  obtain ⟨before, it, rest, hfind, htree, hle, hend, htb, htr⟩ := findIterator_eq
    (m := { m with memoryBlockTree := m.segments needs f address numPages }) htiles hr.start_le
    (by have := hr.end_le; omega)
  simp only [HasBlockBefore, not_or, not_forall] at hb
  obtain ⟨hstart, b, hhead, hin, hneeds⟩ := hb
  obtain ⟨l, hl⟩ := head?_eq_some_iff.1 hhead
  have hfirst : m.segments needs f address numPages =
      b :: l.flatMap (segment needs f address (address + numPages * pageSize)) := by
    rw [segments, hl, flatMap_cons, segment_of_skipped (by simpa using hneeds)]
    rfl
  have hnil : before = [] := by
    cases before with
    | nil => rfl
    | cons c before' =>
      have hcb : c = b := by
        have htree' : m.segments needs f address numPages = c :: before' ++ it :: rest := htree
        rw [hfirst] at htree'
        exact (cons.inj htree').1.symm
      have hc := htb.mem (mem_cons_self (a := c) (l := before'))
      rw [hcb] at hc
      omega
  rw [hnil] at hfind
  rw [heq, coalesceForUpdate_of_first hfind hstart]

end

end UpdateRange

end KMemoryBlockManager

end Sudachi.Kernel
