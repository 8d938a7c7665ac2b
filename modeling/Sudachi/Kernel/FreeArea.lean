import Mathlib.Order.Bounds.Basic
import Sudachi.Kernel.MemoryBlockCoalesce
import Sudachi.Kernel.PageTableIpc

/-!
# Finding a free area

`KMemoryBlockManager::FindFreeArea` looks for the lowest address at which a number of pages with
guard pages around them fit into a free block and into a region. In each free block it tries the
lowest address with the requested remainder that leaves room for the guard pages in front
(`isLeast_lowestFrom`), so that it misses none (`findFreeArea_isLeast`). An address of zero stands
for a failure, and so does a request for no pages.
-/

set_option autoImplicit false

namespace Sudachi.Kernel

open Sudachi.Common Sudachi.Foundations List Nat Option

/-! ## The lowest number with a remainder -/

/-- The lowest number from `start` on that leaves the remainder `offset` when it is divided by
`alignment`, in the arithmetic of the source. -/
def lowestFrom (start alignment offset : Nat) : Nat :=
  let aligned := alignDown start alignment + offset
  if start ≤ aligned then aligned else aligned + alignment

variable {alignment offset : Nat}

theorem lowestFrom_mod (h : offset < alignment) (start : Nat) :
    lowestFrom start alignment offset % alignment = offset := by
  rw [lowestFrom, alignDown_eq]
  split
  · rw [mul_add_mod_self_right, mod_eq_of_lt h]
  · rw [add_mod_right, mul_add_mod_self_right, mod_eq_of_lt h]

theorem le_lowestFrom (h : offset < alignment) (start : Nat) :
    start ≤ lowestFrom start alignment offset := by
  have hdiv := div_add_mod start alignment
  have hmod := mod_lt start (zero_lt_of_lt h)
  rw [lowestFrom, alignDown]
  split <;> omega

theorem isLeast_lowestFrom (h : offset < alignment) (start : Nat) :
    IsLeast {a | start ≤ a ∧ a % alignment = offset} (lowestFrom start alignment offset) := by
  refine ⟨⟨le_lowestFrom h start, lowestFrom_mod h start⟩, ?_⟩
  rintro a ⟨hstart, hmod⟩
  have hdiv := div_add_mod a alignment
  have hle : alignDown start alignment ≤ alignment * (a / alignment) := by
    rw [alignDown_eq, mul_comm]
    exact mul_le_mul_left _ (Nat.div_le_div_right hstart)
  rw [lowestFrom]
  split
  · omega
  · rename_i hbelow
    -- the multiple of `alignment` below `a` is not the one below `start`
    have hlt : start / alignment < a / alignment := by
      by_contra hge
      have hmul := mul_le_mul_left alignment (Nat.le_of_not_lt hge)
      rw [alignDown_eq, mul_comm] at hbelow
      omega
    have hmul := mul_le_mul_left alignment (succ_le_of_lt hlt)
    rw [mul_succ] at hmul
    rw [alignDown_eq, mul_comm]
    omega

/-! ## Requests -/

/-- The arguments of `FindFreeArea`. -/
structure AreaRequest where
  regionStart : Nat
  regionNumPages : Nat
  numPages : Nat
  alignment : Nat
  offset : Nat
  guardPages : Nat

namespace AreaRequest

variable (q : AreaRequest)

/-- `region_end`. -/
def regionEnd : Nat := q.regionStart + q.regionNumPages * pageSize

/-- The local variable `area` in its final value. -/
def candidate (info : KMemoryBlock) : Nat :=
  lowestFrom ((if info.address ≤ q.regionStart then q.regionStart else info.address) +
    q.guardPages * pageSize) q.alignment q.offset

/-- `area_end`. -/
def areaEnd (area : Nat) : Nat := area + q.numPages * pageSize + q.guardPages * pageSize

/-- The area from `area` on, with the guard pages around it, lies in the block. -/
structure PlacedIn (info : KMemoryBlock) (area : Nat) : Prop where
  free : info.memoryState = KMemoryState.free
  aligned : area % q.alignment = q.offset
  regionStart_le : q.regionStart + q.guardPages * pageSize ≤ area
  le_regionEnd : q.areaEnd area ≤ q.regionEnd
  blockStart_le : info.address + q.guardPages * pageSize ≤ area
  le_blockEnd : q.areaEnd area ≤ info.getEndAddress

/-- An address with the requested remainder such that the area and its guard pages lie in one free
block and in the region. -/
def Placed (m : KMemoryBlockManager) (area : Nat) : Prop :=
  ∃ info ∈ m.memoryBlockTree, q.PlacedIn info area

/-- The loop of `FindFreeArea`, with checked additions: `none` if one wraps. Of the sums of an
iteration the end of the area is the largest. -/
def findLoop : List KMemoryBlock → Option Nat
  | [] => some 0
  | info :: rest =>
    if q.regionEnd - 1 < info.address then some 0
    else if info.memoryState ≠ KMemoryState.free then findLoop rest
    else
      let area := q.candidate info
      let areaLast := q.areaEnd area - 1
      if 2 ^ 64 ≤ q.areaEnd area then none
      else if info.address ≤ area ∧ area < areaLast ∧ areaLast ≤ q.regionEnd - 1 ∧
          areaLast ≤ info.getLastAddress then some area
      else findLoop rest

/-- `FindFreeArea` with checked additions. -/
def find (m : KMemoryBlockManager) : Option Nat :=
  if 0 < q.numPages then
    if 2 ^ 64 ≤ q.regionEnd then none else q.findLoop (m.findIterator q.regionStart).2
  else some 0

variable {q} {m : KMemoryBlockManager} {info : KMemoryBlock} {area : Nat}

/-- Where no addition wraps, the checked function computes what `FindFreeArea` does, apart from the
empty region at address zero. -/
theorem findFreeArea_eq_of_find (hregion : 0 < q.regionEnd) (h : q.find m = some area) :
    m.findFreeArea q.regionStart q.regionNumPages q.numPages q.alignment q.offset q.guardPages =
      area := by
  rw [find] at h
  rw [KMemoryBlockManager.findFreeArea]
  by_cases hpages : 0 < q.numPages
  · rw [if_pos hpages] at h ⊢
    rw [ite_none_left_eq_some] at h
    obtain ⟨hfits, h⟩ := h
    have hlast : (q.regionStart + q.regionNumPages * pageSize + (2 ^ 64 - 1)) % 2 ^ 64 =
        q.regionEnd - 1 := by
      rw [← regionEnd]
      omega
    dsimp only
    rw [hlast]
    generalize (m.findIterator q.regionStart).2 = blocks at h
    induction blocks with
    | nil => exact some.inj h
    | cons info rest ih =>
      rw [findLoop] at h
      rw [findFreeAreaLoop]
      split at h
      · rename_i hbehind
        rw [if_pos hbehind]
        exact some.inj h
      · rename_i hinside
        rw [if_neg hinside]
        split at h
        · rename_i hused
          rw [if_pos hused]
          exact ih h
        · rename_i hfree
          rw [if_neg hfree]
          rw [ite_none_left_eq_some] at h
          replace h := h.2
          split at h
          · rename_i hfound
            exact (if_pos hfound).trans (some.inj h)
          · rename_i hmissed
            exact (if_neg hmissed).trans (ih h)
  · rw [if_neg hpages] at h ⊢
    exact some.inj h

/-! ## The search in one block -/

theorem areaEnd_lt (hpages : 0 < q.numPages) : area + 1 < q.areaEnd area := by
  rw [areaEnd]
  simp only [pageSize] at *
  omega

/-- The candidate of a block is the only address that has to be tried. -/
theorem PlacedIn.candidate (h : q.PlacedIn info area) (hoffset : q.offset < q.alignment) :
    q.candidate info ≤ area ∧ q.PlacedIn info (q.candidate info) := by
  have hstart : (if info.address ≤ q.regionStart then q.regionStart else info.address) +
      q.guardPages * pageSize ≤ area := by
    split
    · exact h.regionStart_le
    · exact h.blockStart_le
  have hle : q.candidate info ≤ area := (isLeast_lowestFrom hoffset _).2 ⟨hstart, h.aligned⟩
  have hfrom := le_lowestFrom hoffset
    ((if info.address ≤ q.regionStart then q.regionStart else info.address) +
      q.guardPages * pageSize)
  rw [← AreaRequest.candidate] at hfrom
  have hends : q.areaEnd (q.candidate info) ≤ q.areaEnd area := by
    rw [areaEnd, areaEnd]
    omega
  refine ⟨hle, h.free, lowestFrom_mod hoffset _, ?_, hends.trans h.le_regionEnd, ?_,
    hends.trans h.le_blockEnd⟩
  · split at hfrom <;> omega
  · split at hfrom <;> omega

/-- What the loop checks of a candidate. -/
theorem placedIn_candidate_iff (hoffset : q.offset < q.alignment) (hpages : 0 < q.numPages)
    (hregion : 0 < q.regionEnd) (hfree : info.memoryState = KMemoryState.free) :
    (info.address ≤ q.candidate info ∧ q.candidate info < q.areaEnd (q.candidate info) - 1 ∧
        q.areaEnd (q.candidate info) - 1 ≤ q.regionEnd - 1 ∧
        q.areaEnd (q.candidate info) - 1 ≤ info.getLastAddress) ↔
      q.PlacedIn info (q.candidate info) := by
  have hend := @areaEnd_lt q (q.candidate info) hpages
  have hfrom := le_lowestFrom hoffset
    ((if info.address ≤ q.regionStart then q.regionStart else info.address) +
      q.guardPages * pageSize)
  rw [← AreaRequest.candidate] at hfrom
  rw [KMemoryBlock.getLastAddress]
  constructor
  · rintro ⟨-, -, hlast, hblock⟩
    refine ⟨hfree, lowestFrom_mod hoffset _, ?_, by omega, ?_, by omega⟩
    · split at hfrom <;> omega
    · split at hfrom <;> omega
  · intro h
    have hlast := h.le_regionEnd
    have hblock := h.le_blockEnd
    have hstart := h.blockStart_le
    exact ⟨by omega, by omega, by omega, by omega⟩

/-! ## The search over the blocks -/

/-- An area in a block lies behind its start. -/
theorem PlacedIn.address_le (h : q.PlacedIn info area) : info.address ≤ area :=
  le_trans (Nat.le_add_right _ _) h.blockStart_le

theorem findLoop_spec (hoffset : q.offset < q.alignment) (hpages : 0 < q.numPages)
    (hregion : 0 < q.regionEnd) {blocks : List KMemoryBlock} {s e result : Nat}
    (htiles : BlocksTile s e blocks) (h : q.findLoop blocks = some result) :
    (result = 0 ∧ ∀ info ∈ blocks, ∀ area, ¬q.PlacedIn info area) ∨
      ∃ info ∈ blocks, q.PlacedIn info result ∧
        ∀ other ∈ blocks, ∀ area, q.PlacedIn other area → result ≤ area := by
  induction blocks generalizing s with
  | nil =>
    exact .inl ⟨(some.inj h).symm, fun info hinfo => absurd hinfo not_mem_nil⟩
  | cons info rest ih =>
    obtain ⟨haddress, hlt, hrest⟩ := htiles
    -- the blocks behind lie behind the end of this one
    have hbehind : ∀ other ∈ rest, info.getEndAddress ≤ other.address :=
      fun other hother => (hrest.mem hother).1
    rw [findLoop] at h
    split at h
    · rename_i hlast
      refine .inl ⟨(some.inj h).symm, fun other hother area hplaced => ?_⟩
      have hend := @areaEnd_lt q area hpages
      have hplace := hplaced.address_le
      have hregionEnd := hplaced.le_regionEnd
      rcases mem_cons.mp hother with rfl | hother
      · omega
      · have := hbehind other hother
        omega
    · split at h
      · rename_i hused
        rcases ih hrest h with ⟨hzero, hnone⟩ | ⟨found, hfound, hplaced, hleast⟩
        · exact .inl ⟨hzero, forall_mem_cons.mpr ⟨fun _ h => hused h.free, hnone⟩⟩
        · exact .inr ⟨found, mem_cons_of_mem _ hfound, hplaced,
            forall_mem_cons.mpr ⟨fun _ h => absurd h.free hused, hleast⟩⟩
      · rename_i hfree
        rw [ite_none_left_eq_some] at h
        replace h := h.2
        have hiff := placedIn_candidate_iff hoffset hpages hregion (not_not.mp hfree)
        split at h
        · rename_i hchecks
          obtain rfl := some.inj h
          have hplaced := hiff.mp hchecks
          refine .inr ⟨info, mem_cons_self, hplaced, ?_⟩
          rw [forall_mem_cons]
          refine ⟨fun area harea => (harea.candidate hoffset).1, fun other hother area harea => ?_⟩
          have hend := @areaEnd_lt q (q.candidate info) hpages
          have hblock := hplaced.le_blockEnd
          have hplace := harea.address_le
          have := hbehind other hother
          omega
        · rename_i hchecks
          have hhere : ∀ area, ¬q.PlacedIn info area :=
            fun area harea => hchecks (hiff.mpr (harea.candidate hoffset).2)
          rcases ih hrest h with ⟨hzero, hnone⟩ | ⟨found, hfound, hplaced, hleast⟩
          · exact .inl ⟨hzero, forall_mem_cons.mpr ⟨hhere, hnone⟩⟩
          · exact .inr ⟨found, mem_cons_of_mem _ hfound, hplaced,
              forall_mem_cons.mpr ⟨fun area h => absurd h (hhere area), hleast⟩⟩

/-- A request that the search can answer: it is for some pages, its region is not the empty one at
zero and starts inside of the managed addresses, and its offset is a remainder. -/
structure Answerable (q : AreaRequest) (m : KMemoryBlockManager) : Prop where
  pages : 0 < q.numPages
  region : 0 < q.regionEnd
  start_le : m.startAddress ≤ q.regionStart
  lt_end : q.regionStart < m.endAddress
  offset_lt : q.offset < q.alignment

/-- `FindFreeArea` returns the lowest address of a free area. It returns zero if there is none, or
if zero is the lowest address of one. -/
theorem findFreeArea_isLeast {q : AreaRequest} {m : KMemoryBlockManager}
    (htiles : BlocksTile m.startAddress m.endAddress m.memoryBlockTree) (hq : q.Answerable m)
    {result : Nat} (hfind : q.find m = some result) :
    m.findFreeArea q.regionStart q.regionNumPages q.numPages q.alignment q.offset q.guardPages =
        result ∧
      (result ≠ 0 → IsLeast {area | q.Placed m area} result) ∧
      (result = 0 ↔ (∀ area, ¬q.Placed m area) ∨ q.Placed m 0) := by
  refine ⟨findFreeArea_eq_of_find hq.region hfind, ?_⟩
  obtain ⟨before, it, rest, hiter, htree, hit, -, hbefore, -⟩ :=
    findIterator_eq htiles hq.start_le hq.lt_end
  have hsearched : BlocksTile it.address m.endAddress (it :: rest) := by
    obtain ⟨x, hx, hsuffix⟩ := tiles_append.mp (htree ▸ htiles)
    obtain ⟨rfl, -⟩ := id hsuffix
    exact hsuffix
  -- the blocks in front of the iterator end before the region starts
  have hskipped : ∀ info ∈ before, ∀ area, ¬q.PlacedIn info area := by
    intro info hinfo area hplaced
    have hend := @areaEnd_lt q area hq.pages
    have hblock := hplaced.le_blockEnd
    have hstart := hplaced.regionStart_le
    have hle := (hbefore.mem hinfo).2.2
    omega
  have hall {P : Nat → Prop} (h : ∀ info ∈ it :: rest, ∀ area, q.PlacedIn info area → P area) :
      ∀ area, q.Placed m area → P area := by
    rintro area ⟨info, hinfo, hplaced⟩
    rw [htree] at hinfo
    rcases mem_append.mp hinfo with hinfo | hinfo
    · exact absurd hplaced (hskipped info hinfo area)
    · exact h info hinfo area hplaced
  rw [find, if_pos hq.pages, Option.ite_none_left_eq_some, hiter] at hfind
  rcases findLoop_spec hq.offset_lt hq.pages hq.region hsearched hfind.2 with
    ⟨rfl, hnone⟩ | ⟨info, hinfo, hplaced, hleast⟩
  · exact ⟨fun h => absurd rfl h, iff_of_true rfl (Or.inl (hall hnone))⟩
  · have hresult : q.Placed m result := by
      refine ⟨info, ?_, hplaced⟩
      rw [htree]
      exact mem_append_right _ hinfo
    refine ⟨fun _ => ⟨hresult, hall hleast⟩, ?_⟩
    constructor
    · rintro rfl
      exact Or.inr hresult
    · rintro (hnone | hzero)
      · exact absurd hresult (hnone result)
      · exact eq_zero_of_le_zero (hall hleast 0 hzero)

/-- One free block from one page on, and a request for a page behind a guard page. -/
def onePageBehindGuard : AreaRequest where
  regionStart := 0x1000
  regionNumPages := 7
  numPages := 1
  alignment := 0x2000
  offset := 0x1000
  guardPages := 1

theorem findFreeArea_isLeast_onePage :
    onePageBehindGuard.find (.initializeManager 0x1000 0x8000) = some 0x3000 ∧
      IsLeast {area | onePageBehindGuard.Placed (.initializeManager 0x1000 0x8000) area} 0x3000 := by
  have hfind : onePageBehindGuard.find (.initializeManager 0x1000 0x8000) = some 0x3000 := by
    decide
  have htiles : BlocksTile 0x1000 0x8000
      (KMemoryBlockManager.initializeManager 0x1000 0x8000).memoryBlockTree :=
    ⟨rfl, by decide, rfl⟩
  have hq : onePageBehindGuard.Answerable (.initializeManager 0x1000 0x8000) := by
    constructor <;> decide
  exact ⟨hfind, (findFreeArea_isLeast htiles hq hfind).2.1 (by decide)⟩

/-- The function returns zero although there is an area: for no pages, for the lowest address zero,
and in a region that starts in front of the managed addresses. In the empty region at zero it finds
an area outside of the region. -/
theorem findFreeArea_misses :
    (AreaRequest.find ⟨0x1000, 7, 0, 1, 0, 0⟩ (.initializeManager 0x1000 0x8000) = some 0 ∧
        AreaRequest.Placed ⟨0x1000, 7, 0, 1, 0, 0⟩ (.initializeManager 0x1000 0x8000) 0x1000) ∧
      (AreaRequest.find ⟨0, 8, 1, 1, 0, 0⟩ (.initializeManager 0 0x8000) = some 0 ∧
        AreaRequest.Placed ⟨0, 8, 1, 1, 0, 0⟩ (.initializeManager 0 0x8000) 0) ∧
      (AreaRequest.find ⟨0, 8, 1, 1, 0, 0⟩ (.initializeManager 0x1000 0x8000) = some 0 ∧
        AreaRequest.Placed ⟨0, 8, 1, 1, 0, 0⟩ (.initializeManager 0x1000 0x8000) 0x1000) ∧
      (KMemoryBlockManager.initializeManager 0 0x8000).findFreeArea 0 0 1 1 0 1 = 0x1000 := by
  refine ⟨⟨by decide, _, mem_singleton_self _, ?_⟩, ⟨by decide, _,
    mem_singleton_self _, ?_⟩, ⟨by decide, _, mem_singleton_self _, ?_⟩, by decide⟩
  all_goals constructor <;> decide

end AreaRequest

end Sudachi.Kernel
