import Sudachi.Foundations.Tiling
import Sudachi.Kernel.MemoryBlockManager

/-!
# What an update does to the block sequence

On a sequence of blocks that tiles an address range, the loop of an update cuts each selected block
at the ends of the updated range and rewrites the part inside: its result is the original sequence
with every block replaced by its `segment` (`updateLoop_eq_flatMap`). The loop takes at most one
block from the allocator for each end of the range.
-/

set_option autoImplicit false

namespace Sudachi.Kernel

open Sudachi.Foundations List

/-- `l` tiles the address range `[s, e)`. -/
abbrev BlocksTile (s e : Nat) (l : List KMemoryBlock) : Prop :=
  Tiles KMemoryBlock.address KMemoryBlock.getEndAddress s e l

namespace KMemoryBlock

variable {b : KMemoryBlock} {a : Nat}

theorem getEndAddress_eq (b : KMemoryBlock) :
    b.getEndAddress = b.address + b.numPages * pageSize := rfl

@[simp] theorem split_fst_address (b : KMemoryBlock) (a : Nat) :
    (b.split a).1.address = b.address := rfl

@[simp] theorem split_snd_address (b : KMemoryBlock) (a : Nat) : (b.split a).2.address = a := rfl

@[simp] theorem split_fst_properties (b : KMemoryBlock) (a : Nat) :
    (b.split a).1.properties = b.properties := rfl

@[simp] theorem split_snd_properties (b : KMemoryBlock) (a : Nat) :
    (b.split a).2.properties = b.properties := rfl

theorem split_fst_getSize (hdvd : pageSize ∣ a - b.address) :
    (b.split a).1.getSize = a - b.address :=
  Nat.div_mul_cancel hdvd

theorem split_fst_getEndAddress (hle : b.address ≤ a)
    (hdvd : pageSize ∣ a - b.address) : (b.split a).1.getEndAddress = a := by
  have h := split_fst_getSize hdvd
  simp only [getEndAddress, split_fst_address, h]
  omega

theorem split_snd_getEndAddress (hle : b.address ≤ a) (hend : a ≤ b.getEndAddress)
    (hdvd : pageSize ∣ a - b.address) : (b.split a).2.getEndAddress = b.getEndAddress := by
  obtain ⟨k, hk⟩ := hdvd
  have hpages : (b.split a).2.numPages = b.numPages - k := by
    simp [split, hk, Nat.mul_div_cancel_left k pageSize_pos]
  rw [getEndAddress_eq] at hend ⊢
  rw [getEndAddress_eq, hpages, split_snd_address]
  have hkle : k ≤ b.numPages := by
    have : pageSize * k ≤ pageSize * b.numPages := by rw [mul_comm _ b.numPages]; omega
    exact Nat.le_of_mul_le_mul_left this pageSize_pos
  rw [Nat.sub_mul, mul_comm k]
  have : pageSize * k ≤ b.numPages * pageSize := by
    rw [mul_comm b.numPages]; exact Nat.mul_le_mul_left _ hkle
  omega

end KMemoryBlock

/-- A rewrite that keeps the extent of a block. -/
def KeepsExtent (f : KMemoryBlock → KMemoryBlock) : Prop :=
  ∀ b, (f b).address = b.address ∧ (f b).numPages = b.numPages

variable {f : KMemoryBlock → KMemoryBlock} {lo hi : Nat} {needs : KMemoryBlock → Bool}
  {b : KMemoryBlock}

theorem KeepsExtent.getEndAddress (hf : KeepsExtent f)
    (b : KMemoryBlock) : (f b).getEndAddress = b.getEndAddress := by
  simp only [KMemoryBlock.getEndAddress_eq, (hf b).1, (hf b).2]

/-! ## Cutting one block -/

/-- The part of `b` in front of `lo`, if any, and the part from `lo` on. -/
def cutFront (lo : Nat) (b : KMemoryBlock) : List KMemoryBlock × KMemoryBlock :=
  if b.address < lo then ([(b.split lo).1], (b.split lo).2) else ([], b)

/-- The part of `b` up to `hi`, rewritten by `f`, and the part from `hi` on, if any. -/
def cutBack (f : KMemoryBlock → KMemoryBlock) (hi : Nat) (b : KMemoryBlock) : List KMemoryBlock :=
  if hi < b.getEndAddress then [f (b.split hi).1, (b.split hi).2] else [f b]

/-- The blocks that an update of `[lo, hi)` puts in the place of `b`. -/
def segment (needs : KMemoryBlock → Bool) (f : KMemoryBlock → KMemoryBlock) (lo hi : Nat)
    (b : KMemoryBlock) : List KMemoryBlock :=
  if needs b = true ∧ lo < b.getEndAddress ∧ b.address < hi then
    (cutFront lo b).1 ++ cutBack f hi (cutFront lo b).2
  else [b]

theorem segment_of_disjoint (h : b.getEndAddress ≤ lo ∨ hi ≤ b.address) :
    segment needs f lo hi b = [b] := by
  refine if_neg ?_
  rintro ⟨-, h1, h2⟩
  omega

theorem segment_of_skipped (h : needs b = false) : segment needs f lo hi b = [b] := by
  refine if_neg ?_
  rintro ⟨h1, -, -⟩
  simp [h] at h1

/-- Behind the lower end of the range the lower end does not matter. -/
theorem segment_congr_lo {lo' : Nat} (hpos : b.address < b.getEndAddress) (h : lo ≤ b.address)
    (h' : lo' ≤ b.address) : segment needs f lo hi b = segment needs f lo' hi b := by
  have e : cutFront lo b = ([], b) := if_neg (by omega)
  have e' : cutFront lo' b = ([], b) := if_neg (by omega)
  simp only [segment, e, e']
  refine if_congr ?_ rfl rfl
  constructor
  · rintro ⟨h1, -, h3⟩; exact ⟨h1, by omega, h3⟩
  · rintro ⟨h1, -, h3⟩; exact ⟨h1, by omega, h3⟩

theorem flatMap_segment_congr_lo {lo' s e : Nat} {l : List KMemoryBlock} (ht : BlocksTile s e l)
    (h : lo ≤ s) (h' : lo' ≤ s) :
    l.flatMap (segment needs f lo hi) = l.flatMap (segment needs f lo' hi) := by
  refine flatMap_congr fun b hb => ?_
  obtain ⟨h1, h2, -⟩ := ht.mem hb
  exact segment_congr_lo h2 (le_trans h h1) (le_trans h' h1)

theorem flatMap_segment_of_disjoint {l : List KMemoryBlock}
    (h : ∀ b ∈ l, b.getEndAddress ≤ lo ∨ hi ≤ b.address) :
    l.flatMap (segment needs f lo hi) = l := by
  induction l with
  | nil => rfl
  | cons b l ih =>
    rw [flatMap_cons, segment_of_disjoint (h b mem_cons_self),
      ih fun c hc => h c (mem_cons_of_mem b hc)]
    rfl

section Cut

variable {b : KMemoryBlock} {lo hi : Nat}

theorem cutFront_snd_getEndAddress (hlo : lo ≤ b.getEndAddress) (hdvd : pageSize ∣ lo - b.address) :
    (cutFront lo b).2.getEndAddress = b.getEndAddress := by
  by_cases h : b.address < lo
  · simp only [cutFront, if_pos h]
    exact KMemoryBlock.split_snd_getEndAddress (le_of_lt h) hlo hdvd
  · simp only [cutFront, if_neg h]

theorem cutFront_snd_address : (cutFront lo b).2.address = max b.address lo := by
  by_cases h : b.address < lo
  · simp only [cutFront, if_pos h, KMemoryBlock.split_snd_address]
    omega
  · simp only [cutFront, if_neg h]
    omega

theorem tiles_cutFront (hdvd : pageSize ∣ lo - b.address) :
    BlocksTile b.address (max b.address lo) (cutFront lo b).1 := by
  by_cases h : b.address < lo
  · have hend := KMemoryBlock.split_fst_getEndAddress (le_of_lt h) hdvd
    simp only [BlocksTile, cutFront, if_pos h, tiles_cons, tiles_nil, KMemoryBlock.split_fst_address, hend,
      true_and]
    omega
  · simp only [BlocksTile, cutFront, if_neg h, tiles_nil]
    omega

theorem tiles_cutBack {f : KMemoryBlock → KMemoryBlock} (hf : KeepsExtent f)
    (hpos : b.address < b.getEndAddress) (hhi : b.address < hi) (hdvd : pageSize ∣ hi - b.address) :
    BlocksTile b.address b.getEndAddress (cutBack f hi b) := by
  by_cases h : hi < b.getEndAddress
  · have h1 := KMemoryBlock.split_fst_getEndAddress (le_of_lt hhi) hdvd
    have h2 := KMemoryBlock.split_snd_getEndAddress (le_of_lt hhi) (le_of_lt h) hdvd
    simp only [BlocksTile, cutBack, if_pos h, tiles_cons, tiles_nil, hf.getEndAddress, (hf _).1, h1, h2,
      KMemoryBlock.split_fst_address, KMemoryBlock.split_snd_address, true_and, and_true]
    omega
  · simp only [BlocksTile, cutBack, if_neg h, tiles_cons, tiles_nil, hf.getEndAddress, (hf _).1,
      true_and, and_true]
    exact hpos

end Cut

/-- The blocks that replace `b` have the extent of `b`. -/
theorem tiles_segment (needs : KMemoryBlock → Bool) (hf : KeepsExtent f) (hlt : lo < hi)
    (hpos : b.address < b.getEndAddress) (hlo : pageSize ∣ lo - b.address)
    (hhi : pageSize ∣ hi - b.address) (hlohi : pageSize ∣ hi - lo) :
    BlocksTile b.address b.getEndAddress (segment needs f lo hi b) := by
  by_cases h : needs b = true ∧ lo < b.getEndAddress ∧ b.address < hi
  · obtain ⟨-, h1, -⟩ := id h
    rw [segment, if_pos h, BlocksTile, tiles_append]
    refine ⟨max b.address lo, tiles_cutFront hlo, ?_⟩
    have hend := cutFront_snd_getEndAddress (le_of_lt h1) hlo
    have hadd : (cutFront lo b).2.address = max b.address lo := cutFront_snd_address
    rw [← hadd, ← hend]
    refine tiles_cutBack hf (by omega) (by omega) ?_
    rcases le_total b.address lo with hle | hle
    · rw [hadd, max_eq_right hle]; exact hlohi
    · rw [hadd, max_eq_left hle]; exact hhi
  · rw [segment, if_neg h]
    exact ⟨rfl, hpos, rfl⟩

/-! ## One iteration -/

/-- The allocator after `n` more blocks were taken from it. -/
def UpdateAllocator.takeBlocks (a : UpdateAllocator) (n : Nat) : UpdateAllocator :=
  ⟨a.index + n, a.taken + n⟩

theorem UpdateAllocator.allocate_eq {a : UpdateAllocator} (h : a.index + 1 ≤ maxBlocks) :
    a.allocate = .ok (a.takeBlocks 1) :=
  if_pos h

/-- The number of blocks that `cutFront lo b` adds. -/
def frontCuts (lo : Nat) (b : KMemoryBlock) : Nat := if b.address < lo then 1 else 0

/-- The number of blocks that `cutBack f hi b` adds. -/
def backCuts (hi : Nat) (b : KMemoryBlock) : Nat := if hi < b.getEndAddress then 1 else 0

section Step

variable {needs : KMemoryBlock → Bool} {f : KMemoryBlock → KMemoryBlock} {c : UpdateCursor}
  {it : KMemoryBlock} {rest : List KMemoryBlock} {hi : Nat}

theorem splitBefore_eq (hle : it.address ≤ c.curAddress)
    (ha : c.allocator.index + frontCuts c.curAddress it ≤ UpdateAllocator.maxBlocks)
    (hafter : c.after = it :: rest) : c.splitBefore it rest = .ok ({ c with
      before := c.before ++ (cutFront c.curAddress it).1
      after := (cutFront c.curAddress it).2 :: rest
      allocator := c.allocator.takeBlocks (frontCuts c.curAddress it) },
      (cutFront c.curAddress it).2) := by
  by_cases h : it.address < c.curAddress
  · simp only [frontCuts, if_pos h] at ha
    simp [UpdateCursor.splitBefore, cutFront, frontCuts, h, ne_of_lt h,
      UpdateAllocator.allocate_eq ha, Bind.bind, Except.bind, Pure.pure, Except.pure]
  · have heq : it.address = c.curAddress := by omega
    simp [UpdateCursor.splitBefore, cutFront, frontCuts, heq, UpdateAllocator.takeBlocks,
      Pure.pure, Except.pure, ← hafter]

variable (f rest) in
/-- The second half of an iteration. Either the block under the iterator is used up, or it reached
beyond the range; then nothing remains to be done and the iterator is at the part behind. -/
theorem splitAfterAndApply_spec (hadd : it.address = c.curAddress)
    (hhi : hi = c.curAddress + c.remainingPages * pageSize)
    (ha : c.allocator.index + backCuts hi it ≤ UpdateAllocator.maxBlocks) :
    ∃ c', c.splitAfterAndApply f it rest = .ok c' ∧
      c'.allocator = c.allocator.takeBlocks (backCuts hi it) ∧
      ((it.getEndAddress ≤ hi ∧ c'.before = c.before ++ cutBack f hi it ∧ c'.after = rest ∧
          c'.curAddress = it.getEndAddress ∧
          c'.curAddress + c'.remainingPages * pageSize = hi) ∨
        (c'.before ++ c'.after = c.before ++ cutBack f hi it ++ rest ∧ c'.remainingPages = 0 ∧
          hi < it.getEndAddress)) := by
  have hsize : it.getSize > c.remainingPages * pageSize ↔ hi < it.getEndAddress := by
    rw [KMemoryBlock.getEndAddress]; omega
  by_cases h : hi < it.getEndAddress
  · simp only [backCuts, if_pos h] at ha ⊢
    have hpages : (it.split (c.curAddress + c.remainingPages * pageSize)).1.numPages =
        c.remainingPages := by
      simp [KMemoryBlock.split, hadd, Nat.mul_div_cancel _ pageSize_pos]
    have heq : c.splitAfterAndApply f it rest = .ok { c with
        before := c.before ++ [f (it.split hi).1]
        after := (it.split hi).2 :: rest
        curAddress := c.curAddress + (it.split hi).1.getSize
        remainingPages := c.remainingPages - (it.split hi).1.numPages
        allocator := c.allocator.takeBlocks 1 } := by
      subst hhi
      simp only [UpdateCursor.splitAfterAndApply, if_pos (hsize.2 h),
        UpdateAllocator.allocate_eq ha]
      rfl
    refine ⟨_, heq, rfl, .inr ⟨?_, ?_, h⟩⟩
    · simp [cutBack, h]
    · simp [hhi, hpages]
  · simp only [backCuts, if_neg h, add_zero] at ha ⊢
    refine ⟨_, if_neg (by rw [hsize]; exact h), rfl, .inl ⟨by omega, ?_, rfl, ?_, ?_⟩⟩
    · simp [cutBack, h]
    · simp [KMemoryBlock.getEndAddress, hadd]
    · have hle : it.numPages * pageSize ≤ c.remainingPages * pageSize := by
        simp only [KMemoryBlock.getEndAddress, KMemoryBlock.getSize] at h
        omega
      simp only [KMemoryBlock.getSize, Nat.sub_mul]
      omega

variable (rest) in
theorem skip_spec (hend : c.curAddress < it.getEndAddress)
    (hhi : hi = c.curAddress + c.remainingPages * pageSize)
    (hdvd : pageSize ∣ it.getEndAddress - c.curAddress) :
    (c.skip it rest).before = c.before ++ [it] ∧ (c.skip it rest).after = rest ∧
      (c.skip it rest).allocator = c.allocator ∧
      (c.skip it rest).curAddress + (c.skip it rest).remainingPages * pageSize = hi ∧
      (c.skip it rest).curAddress ≤ it.getEndAddress ∧
      ((c.skip it rest).remainingPages ≠ 0 → (c.skip it rest).curAddress = it.getEndAddress) := by
  by_cases h : c.curAddress + c.remainingPages * pageSize < it.getEndAddress
  · simp only [UpdateCursor.skip, if_pos h, ne_eq, not_true_eq_false, false_implies, true_and,
      and_true]
    omega
  · simp only [UpdateCursor.skip, if_neg h, true_and, le_refl, implies_true, and_true]
    have hdvd' : pageSize ∣ c.curAddress + c.remainingPages * pageSize - it.getEndAddress := by
      obtain ⟨k, hk⟩ := hdvd
      refine ⟨c.remainingPages - k, ?_⟩
      rw [Nat.mul_sub, ← hk, mul_comm pageSize]
      omega
    rw [Nat.div_mul_cancel hdvd']
    omega

variable (needs f) in
/-- One iteration replaces the block under the iterator by its segment. Unless the range is used
up, the iterator is then at the next block and `cur_address` at its start. -/
theorem updateStep_spec (hafter : c.after = it :: rest) (hle : it.address ≤ c.curAddress)
    (hend : c.curAddress < it.getEndAddress) (hdvd : pageSize ∣ c.curAddress - it.address)
    (hhi : hi = c.curAddress + c.remainingPages * pageSize) (hlt : c.curAddress < hi)
    (ha : c.allocator.index + frontCuts c.curAddress it + backCuts hi it ≤
      UpdateAllocator.maxBlocks) :
    ∃ c' n, updateStep needs f c = .ok c' ∧ c'.allocator = c.allocator.takeBlocks n ∧
      n ≤ frontCuts c.curAddress it + backCuts hi it ∧
      ((c'.before = c.before ++ segment needs f c.curAddress hi it ∧ c'.after = rest ∧
          c'.curAddress ≤ it.getEndAddress ∧
          c'.curAddress + c'.remainingPages * pageSize = hi ∧
          (c'.remainingPages ≠ 0 → c'.curAddress = it.getEndAddress)) ∨
        (c'.before ++ c'.after = c.before ++ segment needs f c.curAddress hi it ++ rest ∧
          c'.remainingPages = 0 ∧ hi ≤ it.getEndAddress)) := by
  have hsegEnd := cutFront_snd_getEndAddress (le_of_lt hend) hdvd
  by_cases hn : needs it = true
  · have hseg : segment needs f c.curAddress hi it =
        (cutFront c.curAddress it).1 ++ cutBack f hi (cutFront c.curAddress it).2 :=
      if_pos ⟨hn, hend, by omega⟩
    have hback : backCuts hi (cutFront c.curAddress it).2 = backCuts hi it := by
      simp only [backCuts, hsegEnd]
    have hadd' : (cutFront c.curAddress it).2.address = c.curAddress := by
      rw [cutFront_snd_address]
      omega
    obtain ⟨c', hrun, halloc, hcase⟩ := splitAfterAndApply_spec f rest (c := { c with
        before := c.before ++ (cutFront c.curAddress it).1
        after := (cutFront c.curAddress it).2 :: rest
        allocator := c.allocator.takeBlocks (frontCuts c.curAddress it) }) hadd' hhi
      (by rw [hback]; exact ha)
    refine ⟨c', frontCuts c.curAddress it + backCuts hi it, ?_, ?_, le_refl _, ?_⟩
    · simp only [updateStep, hafter, if_pos hn, splitBefore_eq hle (by omega) hafter]
      exact hrun
    · rw [halloc, hback]
      simp only [UpdateAllocator.takeBlocks, add_assoc]
    · rw [hsegEnd] at hcase
      rcases hcase with ⟨-, hbefore, hrest, hcur, hrem⟩ | ⟨hlist, hrem, hbeyond⟩
      · refine .inl ⟨by rw [hbefore, hseg, append_assoc], hrest, by omega, hrem,
          fun _ => hcur⟩
      · exact .inr ⟨by rw [hlist, hseg]; simp only [append_assoc], hrem, le_of_lt hbeyond⟩
  · have hn' : needs it = false := by simpa using hn
    have hdvd' : pageSize ∣ it.getEndAddress - c.curAddress := by
      obtain ⟨k, hk⟩ := hdvd
      refine ⟨it.numPages - k, ?_⟩
      rw [Nat.mul_sub, ← hk, KMemoryBlock.getEndAddress_eq, mul_comm pageSize]
      omega
    obtain ⟨h1, h2, h3, h4, h5, h6⟩ := skip_spec rest hend hhi hdvd'
    refine ⟨c.skip it rest, 0, by simp [updateStep, hafter, hn'], h3, Nat.zero_le _,
      .inl ⟨?_, h2, h5, h4, h6⟩⟩
    rw [h1, segment_of_skipped hn']

end Step

/-! ## The whole loop -/

section Loop

variable {needs : KMemoryBlock → Bool} {f : KMemoryBlock → KMemoryBlock}

theorem updateLoop_of_remainingPages_eq_zero {c : UpdateCursor} (h : c.remainingPages = 0)
    (fuel : Nat) : updateLoop needs f fuel c = .ok c := by
  cases fuel with
  | zero => exact if_pos h
  | succ n => exact if_pos h

variable (needs f) in
/-- On a tiling, the loop replaces every block by its segment. It takes one block from the allocator
for each end of the range at most, and none for the lower end if a block starts there. -/
theorem updateLoop_eq_flatMap {hi e : Nat} (hhie : hi ≤ e) (fuel : Nat) :
    ∀ (c : UpdateCursor) (s : Nat), BlocksTile s e c.after → s ≤ c.curAddress →
      (∀ it ∈ c.after.head?, c.curAddress < it.getEndAddress) → pageSize ∣ c.curAddress - s →
      hi = c.curAddress + c.remainingPages * pageSize → c.remainingPages ≠ 0 →
      c.after.length ≤ fuel →
      c.allocator.index + (if s < c.curAddress then 2 else 1) ≤ UpdateAllocator.maxBlocks →
      ∃ c' n, updateLoop needs f fuel c = .ok c' ∧
        c'.before ++ c'.after = c.before ++ c.after.flatMap (segment needs f c.curAddress hi) ∧
        c'.allocator = c.allocator.takeBlocks n ∧ n ≤ if s < c.curAddress then 2 else 1 := by
  induction fuel with
  | zero =>
    intro c s ht hs _ _ hhi hrem hfuel _
    have hnil : c.after = [] := eq_nil_of_length_eq_zero (Nat.le_zero.1 hfuel)
    rw [hnil] at ht
    have hse : s = e := ht
    have := mul_pos (pos_of_ne_zero hrem) pageSize_pos
    omega
  | succ fuel ih =>
    intro c s ht hs hhead hdvd hhi hrem hfuel ha
    have hpos := mul_pos (pos_of_ne_zero hrem) pageSize_pos
    obtain ⟨it, rest, hafter⟩ : ∃ it rest, c.after = it :: rest := by
      cases hc : c.after with
      | nil =>
        rw [hc] at ht
        have hse : s = e := ht
        omega
      | cons it rest => exact ⟨it, rest, rfl⟩
    rw [hafter] at ht hfuel
    obtain ⟨hits, -, hrest⟩ := ht
    subst hits
    have hend : c.curAddress < it.getEndAddress := hhead it (by rw [hafter]; rfl)
    have hfront : frontCuts c.curAddress it + 1 = if it.address < c.curAddress then 2 else 1 := by
      by_cases h : it.address < c.curAddress <;> simp [frontCuts, h]
    have hback : backCuts hi it ≤ 1 := by
      by_cases h : hi < it.getEndAddress <;> simp [backCuts, h]
    obtain ⟨c', n, hstep, halloc, hn, hcase⟩ := updateStep_spec needs f hafter hs
      hend hdvd hhi (by omega) (by omega)
    have hrun : updateLoop needs f (fuel + 1) c = updateLoop needs f fuel c' := by
      rw [updateLoop, if_neg hrem, hstep]
      rfl
    have hflat : c.after.flatMap (segment needs f c.curAddress hi) =
        segment needs f c.curAddress hi it ++ rest.flatMap (segment needs f c.curAddress hi) := by
      rw [hafter, flatMap_cons]
    -- Once the range is used up, the blocks behind the iterator lie behind the range.
    have hdone : hi ≤ it.getEndAddress → rest.flatMap (segment needs f c.curAddress hi) = rest :=
      fun hle => flatMap_segment_of_disjoint fun b hb =>
        .inr (le_trans hle (hrest.mem hb).1)
    rcases hcase with ⟨hbefore, hafter', hcur, hhi', hnext⟩ | ⟨hlist, hrem', hle⟩
    · by_cases hrem' : c'.remainingPages = 0
      · refine ⟨c', n, hrun.trans (updateLoop_of_remainingPages_eq_zero hrem' fuel), ?_, halloc,
          by omega⟩
        rw [hrem', zero_mul, add_zero] at hhi'
        rw [hbefore, hafter', hflat, hdone (by omega), append_assoc]
      · have hcur' := hnext hrem'
        have hpos' := mul_pos (pos_of_ne_zero hrem') pageSize_pos
        have hback0 : backCuts hi it = 0 := if_neg (by omega)
        obtain ⟨c'', n', hrun', hlist', halloc', hn'⟩ := ih c' it.getEndAddress
          (by rw [hafter']; exact hrest) hcur'.ge
          (by
            intro b hb
            rw [hafter'] at hb
            have hmem := hrest.mem (mem_of_mem_head? hb)
            cases hr : rest with
            | nil => rw [hr] at hb; simp at hb
            | cons d l =>
              rw [hr] at hb hrest
              have hbd : d = b := by simpa using hb
              rw [hcur', ← hbd]
              exact hrest.2.1)
          (by rw [hcur', Nat.sub_self]; exact dvd_zero _) hhi'.symm hrem'
          (by rw [hafter']; simpa using hfuel)
          (by
            rw [halloc, hcur', if_neg (lt_irrefl _)]
            simp only [UpdateAllocator.takeBlocks]
            omega)
        refine ⟨c'', n + n', hrun.trans hrun', ?_, ?_, ?_⟩
        · rw [hlist', hbefore, hafter', hflat, hcur',
            flatMap_segment_congr_lo hrest (le_refl _) (le_of_lt hend), append_assoc]
        · rw [halloc', halloc]
          simp only [UpdateAllocator.takeBlocks, add_assoc]
        · rw [hcur', if_neg (lt_irrefl _)] at hn'
          omega
    · refine ⟨c', n, hrun.trans (updateLoop_of_remainingPages_eq_zero hrem' fuel), ?_, halloc,
        by omega⟩
      rw [hlist, hflat, hdone hle, append_assoc]

end Loop

end Sudachi.Kernel
