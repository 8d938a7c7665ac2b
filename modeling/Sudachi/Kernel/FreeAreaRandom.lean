import Sudachi.Kernel.FreeArea

/-!
# Finding a free area at a random address

`KPageTableBase::FindFreeArea` in an address space with address randomization. It tries eight random
candidates, then the search of the memory block manager from a random page on, and last the search
in the whole region. The last page of the random ranges is `region_num_pages - num_pages -
guard_pages`, where only `num_pages <= region_num_pages` is checked: with less than the guard pages
left the difference wraps, and the candidates are random addresses. A candidate is rounded down to
the alignment and moved by the offset, so it can also be in front of the region or behind its end,
and the guard pages in front of it are looked for in its memory block but not in the region.

`findFreeArea_sound_iff` says exactly for which requests all random draws give a right result.
-/

set_option autoImplicit false

namespace Sudachi.Kernel

open Sudachi.Common Sudachi.Foundations List Nat

namespace AreaRequest

variable (q : AreaRequest) (pt : KPageTableBase) (settings : AreaSettings)

/-- The candidate of the try `i`. -/
def candidateOf (i : Nat) : Nat :=
  let bound := (q.regionNumPages + 2 ^ 64 - q.numPages - settings.guardPages) * pageSize % 2 ^ 64 /
    q.alignment
  alignDown ((q.regionStart + settings.randomRange i % (bound + 1) * q.alignment) % 2 ^ 64)
    q.alignment + q.offset

/-- The try `i`. -/
def tryAt (i : Nat) : Option Nat :=
  pt.tryFreeArea settings q.regionStart q.regionNumPages q.numPages q.alignment q.offset i

/-- The search with random draws. -/
def search : Nat :=
  pt.findFreeArea settings q.regionStart q.regionNumPages q.numPages q.alignment q.offset

/-- The search of the memory block manager in the whole region. -/
def deterministic : Nat :=
  pt.memoryBlockManager.findFreeArea q.regionStart q.regionNumPages q.numPages q.alignment q.offset
    q.guardPages

/-- The request is for a region of the address space. No sum of the search of the memory block
manager has more than 64 bits: addresses have at most 39, the guard pages are at most four, and the
alignment is that of a page or a block. -/
structure InSpace : Prop where
  tiles : BlocksTile pt.memoryBlockManager.startAddress pt.memoryBlockManager.endAddress
    pt.memoryBlockManager.memoryBlockTree
  start_le : pt.memoryBlockManager.startAddress ≤ q.regionStart
  end_le : q.regionEnd ≤ pt.memoryBlockManager.endAddress
  region : 0 < q.regionEnd
  pages_le : q.numPages ≤ q.regionNumPages
  offset_lt : q.offset < q.alignment
  fits : pt.memoryBlockManager.endAddress + (q.numPages + 2 * q.guardPages) * pageSize +
    q.alignment ≤ 2 ^ 64

/-- A run of the search is right: the difference of the page counts does not wrap, the candidates
that are queried are managed addresses, an address that is found is one that the memory block
manager could have found, and none is found only if the memory block manager finds none. -/
structure Sound : Prop where
  noWrap : settings.aslrEnabled = true → q.numPages + q.guardPages ≤ q.regionNumPages
  inside : settings.aslrEnabled = true → ∀ i < 8, (∀ j < i, q.tryAt pt settings j = none) →
    pt.memoryBlockManager.startAddress ≤ q.candidateOf settings i ∧
      q.candidateOf settings i < pt.memoryBlockManager.endAddress
  placed : q.search pt settings ≠ 0 → q.Placed pt.memoryBlockManager (q.search pt settings)
  complete : q.search pt settings = 0 → q.deterministic pt = 0

/-- The largest factor of the alignment that can be drawn. -/
def lastDraw : Nat := (q.regionNumPages - q.numPages - q.guardPages) * pageSize / q.alignment

/-- The candidate for a factor. -/
def drawn (k : Nat) : Nat := alignDown q.regionStart q.alignment + k * q.alignment + q.offset

/-- The pages and the guard pages fit into the region, the lowest and the highest candidate are
managed addresses, and no area is free at a candidate that is less than the guard pages away from
the start of the region. -/
structure RandomSafe : Prop where
  pages : q.numPages + q.guardPages ≤ q.regionNumPages
  first : pt.memoryBlockManager.startAddress ≤ q.drawn 0
  last : q.drawn q.lastDraw < pt.memoryBlockManager.endAddress
  guarded : ∀ k ≤ q.lastDraw, q.drawn k ≠ 0 → q.regionStart ≤ q.drawn k →
    q.drawn k < q.regionStart + q.guardPages * pageSize → q.areaEnd (q.drawn k) ≤ q.regionEnd →
      ∀ info ∈ pt.memoryBlockManager.memoryBlockTree, info.memoryState = KMemoryState.free →
        info.address + q.guardPages * pageSize ≤ q.drawn k →
          ¬q.areaEnd (q.drawn k) ≤ info.getEndAddress

variable {q pt settings}

/-! ## The deterministic search -/

theorem lowestFrom_lt (start : Nat) {alignment offset : Nat} (h : offset < alignment) :
    lowestFrom start alignment offset < start + alignment := by
  have hle := alignDown_le start alignment
  rw [lowestFrom]
  split
  · omega
  · omega

/-- No sum of the search wraps, from wherever in the region it starts. -/
theorem InSpace.find_isSome (h : q.InSpace pt) :
    ∃ area, q.find pt.memoryBlockManager = some area := by
  rw [find]
  by_cases hpages : 0 < q.numPages
  · have hfits := h.fits
    have hend := h.end_le
    have hsum : ∀ info ∈ pt.memoryBlockManager.memoryBlockTree,
        q.areaEnd (q.candidate info) < 2 ^ 64 := by
      intro info hinfo
      have hblock := h.tiles.mem hinfo
      have hlow := lowestFrom_lt ((if info.address ≤ q.regionStart then q.regionStart
        else info.address) + q.guardPages * pageSize) h.offset_lt
      rw [← candidate] at hlow
      have hstart : (if info.address ≤ q.regionStart then q.regionStart else info.address) ≤
          pt.memoryBlockManager.endAddress := by
        split
        · exact (le_add_right _ _).trans hend
        · omega
      rw [areaEnd]
      rw [add_mul, mul_assoc] at hfits
      omega
    have hregion : ¬2 ^ 64 ≤ q.regionEnd := by
      have hpos : 0 < q.alignment := zero_lt_of_lt h.offset_lt
      omega
    rw [if_pos hpages, if_neg hregion]
    have hsub : ∀ info ∈ (pt.memoryBlockManager.findIterator q.regionStart).2,
        info ∈ pt.memoryBlockManager.memoryBlockTree := by
      intro info hinfo
      rw [KMemoryBlockManager.findIterator, span_eq_takeWhile_dropWhile] at hinfo
      exact (dropWhile_sublist _).subset hinfo
    generalize (pt.memoryBlockManager.findIterator q.regionStart).2 = blocks at hsub
    induction blocks with
    | nil => exact ⟨0, rfl⟩
    | cons info rest ih =>
      have hrest := ih fun other hother => hsub other (mem_cons_of_mem _ hother)
      have hsmall := hsum info (hsub info mem_cons_self)
      rw [findLoop]
      split
      · exact ⟨0, rfl⟩
      · split
        · exact hrest
        · rw [if_neg (not_le.mpr hsmall)]
          split
          · exact ⟨_, rfl⟩
          · exact hrest
  · exact ⟨0, if_neg hpages⟩

/-- What the search of the memory block manager finds is placed. -/
theorem InSpace.deterministic_placed (h : q.InSpace pt) (hne : q.deterministic pt ≠ 0) :
    q.Placed pt.memoryBlockManager (q.deterministic pt) := by
  obtain ⟨area, hfind⟩ := h.find_isSome
  have hpages : 0 < q.numPages := by
    by_contra hzero
    rw [deterministic, KMemoryBlockManager.findFreeArea, if_neg hzero] at hne
    exact hne rfl
  have hpage := mul_le_mul_right pageSize (hpages.trans_le h.pages_le)
  have hq : q.Answerable pt.memoryBlockManager := by
    refine ⟨hpages, h.region, h.start_le, ?_, h.offset_lt⟩
    have hend := h.end_le
    rw [regionEnd] at hend
    simp only [pageSize] at *
    omega
  obtain ⟨heq, hleast, -⟩ := findFreeArea_isLeast h.tiles hq hfind
  rw [deterministic, heq] at hne ⊢
  exact (hleast hne).1

/-! ## The random tries -/

/-- The page counts of a region of the address space are small. -/
theorem InSpace.region_lt (h : q.InSpace pt) : q.regionNumPages * pageSize < 2 ^ 64 := by
  have hend := h.end_le
  have hfits := h.fits
  have hpos := zero_lt_of_lt h.offset_lt
  rw [regionEnd] at hend
  omega

/-- If the pages and the guard pages fit, a try draws a factor up to the last one. -/
theorem InSpace.candidateOf_eq (h : q.InSpace pt) (hguard : settings.guardPages = q.guardPages)
    (hpages : q.numPages + q.guardPages ≤ q.regionNumPages) (i : Nat) :
    q.candidateOf settings i = q.drawn (settings.randomRange i % (q.lastDraw + 1)) := by
  have hlt := h.region_lt
  have hpos := zero_lt_of_lt h.offset_lt
  have hbound : (q.regionNumPages + 2 ^ 64 - q.numPages - q.guardPages) * pageSize % 2 ^ 64 =
      (q.regionNumPages - q.numPages - q.guardPages) * pageSize := by
    have hsplit : q.regionNumPages + 2 ^ 64 - q.numPages - q.guardPages =
        q.regionNumPages - q.numPages - q.guardPages + 2 ^ 64 := by omega
    have hle : (q.regionNumPages - q.numPages - q.guardPages) * pageSize ≤
        q.regionNumPages * pageSize := mul_le_mul_right _ (by omega)
    rw [hsplit, add_mul, mul_comm (2 ^ 64), add_mul_mod_self_right,
      mod_eq_of_lt (hle.trans_lt hlt)]
  obtain ⟨k, hk⟩ : ∃ k, settings.randomRange i % (q.lastDraw + 1) = k := ⟨_, rfl⟩
  have hle : k ≤ q.lastDraw := hk ▸ le_of_lt_succ (mod_lt _ (succ_pos _))
  have hsum : q.regionStart + k * q.alignment < 2 ^ 64 := by
    have hmul := mul_le_mul_right q.alignment hle
    have hdiv := div_mul_le_self ((q.regionNumPages - q.numPages - q.guardPages) * pageSize)
      q.alignment
    have hpart : (q.regionNumPages - q.numPages - q.guardPages) * pageSize ≤
        q.regionNumPages * pageSize := mul_le_mul_right _ (by omega)
    have hend := h.end_le
    have hfits := h.fits
    rw [← lastDraw] at hdiv
    rw [regionEnd] at hend
    omega
  rw [hk, candidateOf, drawn, hguard]
  rw [hbound, ← lastDraw, hk, mod_eq_of_lt hsum, alignDown_eq, alignDown_eq,
    add_mul_div_right _ _ hpos, add_mul]

theorem drawn_mod (h : q.InSpace pt) (k : Nat) : q.drawn k % q.alignment = q.offset := by
  rw [drawn, alignDown_eq, ← add_mul, mul_add_mod_self_right, mod_eq_of_lt h.offset_lt]

theorem drawn_mono {k k' : Nat} (h : k ≤ k') : q.drawn k ≤ q.drawn k' := by
  have hmul := mul_le_mul_right q.alignment h
  rw [drawn, drawn]
  omega

/-- What a try checks of its candidate. -/
structure Passes (info : KMemoryBlock) (c : Nat) : Prop where
  free : info.memoryState = KMemoryState.free
  regionStart_le : q.regionStart ≤ c
  blockStart_le : info.address + q.guardPages * pageSize ≤ c
  le_blockEnd : q.areaEnd c - 1 ≤ info.getLastAddress
  le_regionEnd : q.areaEnd c - 1 ≤ q.regionEnd - 1

theorem areaEnd_eq (c : Nat) : c + (q.numPages + q.guardPages) * pageSize = q.areaEnd c := by
  rw [areaEnd, add_mul, add_assoc]

theorem tryAt_eq_some_iff (hguard : settings.guardPages = q.guardPages) {i c : Nat} :
    q.tryAt pt settings i = some c ↔ q.candidateOf settings i = c ∧
        ∃ info rest, (pt.memoryBlockManager.findIterator c).2 = info :: rest ∧ q.Passes info c := by
  have hnil (heq : (pt.memoryBlockManager.findIterator (q.candidateOf settings i)).2 = []) :
      q.tryAt pt settings i = none := by
    unfold candidateOf at heq
    simp only [tryAt, KPageTableBase.tryFreeArea, heq]
  have hcons {info rest}
      (heq : (pt.memoryBlockManager.findIterator (q.candidateOf settings i)).2 = info :: rest) :
      q.tryAt pt settings i =
        if info.memoryState = KMemoryState.free ∧ q.regionStart ≤ q.candidateOf settings i ∧
            info.address + q.guardPages * pageSize ≤ q.candidateOf settings i ∧
            q.areaEnd (q.candidateOf settings i) - 1 ≤ info.getLastAddress ∧
            q.areaEnd (q.candidateOf settings i) - 1 ≤ q.regionEnd - 1 then
          some (q.candidateOf settings i)
        else none := by
    rw [← areaEnd_eq, ← hguard]
    unfold candidateOf at heq ⊢
    simp only [tryAt, KPageTableBase.tryFreeArea, heq]
    rfl
  constructor
  · intro hsome
    cases heq : (pt.memoryBlockManager.findIterator (q.candidateOf settings i)).2 with
    | nil =>
      rw [hnil heq] at hsome
      cases hsome
    | cons info rest =>
      rw [hcons heq, Option.ite_none_right_eq_some] at hsome
      obtain ⟨⟨hfree, hstart, hblock, hend, hregion⟩, hc⟩ := hsome
      obtain rfl := Option.some.inj hc
      exact ⟨rfl, info, rest, heq, hfree, hstart, hblock, hend, hregion⟩
  · rintro ⟨rfl, info, rest, heq, hpasses⟩
    rw [hcons heq]
    exact if_pos ⟨hpasses.free, hpasses.regionStart_le, hpasses.blockStart_le, hpasses.le_blockEnd,
      hpasses.le_regionEnd⟩

/-- A candidate that is found in a safe request is placed. -/
theorem RandomSafe.placed (hs : q.RandomSafe pt) (h : q.InSpace pt)
    (hguard : settings.guardPages = q.guardPages) {i c : Nat}
    (htry : q.tryAt pt settings i = some c) (hne : c ≠ 0) : q.Placed pt.memoryBlockManager c := by
  obtain ⟨hc, info, rest, hfind, hpasses⟩ := (tryAt_eq_some_iff hguard).mp htry
  have hinfo : info ∈ pt.memoryBlockManager.memoryBlockTree := by
    have hmem : info ∈ (pt.memoryBlockManager.findIterator c).2 := hfind ▸ mem_cons_self
    rw [KMemoryBlockManager.findIterator, span_eq_takeWhile_dropWhile] at hmem
    exact (dropWhile_sublist _).subset hmem
  rw [h.candidateOf_eq hguard hs.pages] at hc
  obtain ⟨k, hk⟩ : ∃ k, settings.randomRange i % (q.lastDraw + 1) = k := ⟨_, rfl⟩
  have hle : k ≤ q.lastDraw := hk ▸ le_of_lt_succ (mod_lt _ (succ_pos _))
  rw [hk] at hc
  have hblock := (h.tiles.mem hinfo).2.1
  have hlast := hpasses.le_blockEnd
  have hregion := hpasses.le_regionEnd
  have hpos := h.region
  rw [KMemoryBlock.getLastAddress] at hlast
  have hregionEnd : q.areaEnd c ≤ q.regionEnd := by omega
  have hblockEnd : q.areaEnd c ≤ info.getEndAddress := by omega
  refine ⟨info, hinfo, hpasses.free, hc ▸ drawn_mod h k, ?_, hregionEnd, hpasses.blockStart_le,
    hblockEnd⟩
  -- the guard pages in front are in the region, or the request would not be safe
  by_contra hnear
  subst hc
  exact hs.guarded k hle hne hpasses.regionStart_le (not_le.mp hnear) hregionEnd info hinfo
    hpasses.free hpasses.blockStart_le hblockEnd

/-! ## The search from a random page on -/

/-- The request for the part of the region from a page on. -/
def fromPage (q : AreaRequest) (page : Nat) : AreaRequest :=
  { q with
    regionStart := q.regionStart + page * pageSize
    regionNumPages := q.regionNumPages - page }

theorem InSpace.fromPage (h : q.InSpace pt) {page : Nat}
    (hle : page + q.numPages ≤ q.regionNumPages) :
    (q.fromPage page).InSpace pt ∧ (q.fromPage page).regionEnd = q.regionEnd := by
  have hend : (q.fromPage page).regionEnd = q.regionEnd := by
    rw [regionEnd, regionEnd, AreaRequest.fromPage]
    dsimp only
    rw [add_assoc, ← add_mul, Nat.add_sub_cancel' (by omega)]
  refine ⟨⟨h.tiles, h.start_le.trans (le_add_right _ _), hend ▸ h.end_le, hend ▸ h.region, ?_,
    h.offset_lt, h.fits⟩, hend⟩
  exact le_sub_of_add_le (Nat.add_comm _ _ ▸ hle)

theorem Placed.of_fromPage {page area : Nat} (hend : (q.fromPage page).regionEnd = q.regionEnd)
    (hp : (q.fromPage page).Placed pt.memoryBlockManager area) :
    q.Placed pt.memoryBlockManager area := by
  obtain ⟨info, hinfo, hplaced⟩ := hp
  have hstart := hplaced.regionStart_le
  refine ⟨info, hinfo, hplaced.free, hplaced.aligned, ?_, hend ▸ hplaced.le_regionEnd,
    hplaced.blockStart_le, hplaced.le_blockEnd⟩
  exact (Nat.add_le_add_right (le_add_right _ _) _).trans hstart

/-! ## The whole search -/

/-- The search from a random page on. -/
def fallback (q : AreaRequest) (pt : KPageTableBase) (settings : AreaSettings) : Nat :=
  let bound := (q.regionNumPages + 2 ^ 64 - q.numPages - settings.guardPages) % 2 ^ 64
  let offsetPages := settings.randomRange 8 % (bound + 1)
  pt.memoryBlockManager.findFreeArea ((q.regionStart + offsetPages * pageSize) % 2 ^ 64)
    ((q.regionNumPages + 2 ^ 64 - offsetPages) % 2 ^ 64) q.numPages q.alignment q.offset
    settings.guardPages

/-- The page that the search starts from lies in the region, with room for the pages behind it. -/
theorem InSpace.fallback_eq (h : q.InSpace pt) (hguard : settings.guardPages = q.guardPages)
    (hpages : q.numPages + q.guardPages ≤ q.regionNumPages) :
    ∃ page, page + q.numPages ≤ q.regionNumPages ∧
      q.fallback pt settings = (q.fromPage page).deterministic pt := by
  have hlt := h.region_lt
  have hend := h.end_le
  have hfits := h.fits
  have hpos := zero_lt_of_lt h.offset_lt
  have hregion : q.regionNumPages < 2 ^ 64 := (Nat.le_mul_of_pos_right _ pageSize_pos).trans_lt hlt
  have hbound : (q.regionNumPages + 2 ^ 64 - q.numPages - q.guardPages) % 2 ^ 64 =
      q.regionNumPages - q.numPages - q.guardPages := by omega
  obtain ⟨page, hpage⟩ : ∃ page, settings.randomRange 8 %
    (q.regionNumPages - q.numPages - q.guardPages + 1) = page := ⟨_, rfl⟩
  have hle : page ≤ q.regionNumPages - q.numPages - q.guardPages :=
    hpage ▸ le_of_lt_succ (mod_lt _ (succ_pos _))
  have hstart : (q.regionStart + page * pageSize) % 2 ^ 64 = q.regionStart + page * pageSize := by
    have hmul : page * pageSize ≤ q.regionNumPages * pageSize := mul_le_mul_right _ (by omega)
    rw [regionEnd] at hend
    exact mod_eq_of_lt (by omega)
  have hcount : (q.regionNumPages + 2 ^ 64 - page) % 2 ^ 64 = q.regionNumPages - page := by omega
  refine ⟨page, by omega, ?_⟩
  rw [fallback, hguard, hbound, hpage, hstart, hcount]
  rfl

/-- The address that is found with random draws, or zero. -/
def randomAddress (q : AreaRequest) (pt : KPageTableBase) (settings : AreaSettings) : Nat :=
  if settings.aslrEnabled then
    if ((List.range 8).findSome? (q.tryAt pt settings)).getD 0 = 0 then q.fallback pt settings
    else ((List.range 8).findSome? (q.tryAt pt settings)).getD 0
  else 0

theorem InSpace.search_eq (h : q.InSpace pt) (hguard : settings.guardPages = q.guardPages) :
    q.search pt settings =
      if q.randomAddress pt settings = 0 then q.deterministic pt
      else q.randomAddress pt settings := by
  rw [search, KPageTableBase.findFreeArea, deterministic, ← hguard]
  exact if_pos h.pages_le

/-- The search fails only if the search in the whole region does. -/
theorem InSpace.complete (h : q.InSpace pt) (hguard : settings.guardPages = q.guardPages)
    (hzero : q.search pt settings = 0) : q.deterministic pt = 0 := by
  rw [h.search_eq hguard] at hzero
  split at hzero
  case isTrue => exact hzero
  case isFalse hne => exact absurd hzero hne

/-- A random address comes from the first try that finds one, or from the search behind it. -/
theorem randomAddress_cases (hne : q.randomAddress pt settings ≠ 0) : settings.aslrEnabled = true ∧
      ((∃ i, q.tryAt pt settings i = some (q.randomAddress pt settings)) ∨
        q.randomAddress pt settings = q.fallback pt settings) := by
  have heq : q.randomAddress pt settings = if settings.aslrEnabled then _ else 0 := rfl
  split at heq
  case isFalse => exact absurd heq hne
  case isTrue haslr =>
    refine ⟨haslr, ?_⟩
    cases htry : (range 8).findSome? (q.tryAt pt settings) with
    | none =>
      right
      rw [heq, htry]
      exact if_pos rfl
    | some c =>
      obtain ⟨i, -, hi⟩ := exists_of_findSome?_eq_some htry
      rw [htry, Option.getD_some] at heq
      split at heq
      case isTrue => exact .inr heq
      case isFalse => exact .inl ⟨i, heq ▸ hi⟩

section

variable (hs : q.RandomSafe pt) (h : q.InSpace pt) (hguard : settings.guardPages = q.guardPages)
include hs h hguard

/-- With the region and the lowest and the highest candidate in the address space, all of the
candidates are. -/
theorem RandomSafe.inside (i : Nat) :
    pt.memoryBlockManager.startAddress ≤ q.candidateOf settings i ∧
      q.candidateOf settings i < pt.memoryBlockManager.endAddress := by
  rw [h.candidateOf_eq hguard hs.pages]
  constructor
  · exact hs.first.trans (drawn_mono (zero_le _))
  · exact (drawn_mono (le_of_lt_succ (mod_lt _ (succ_pos _)))).trans_lt hs.last

/-- Every run of a safe request is right. -/
theorem RandomSafe.sound : q.Sound pt settings := by
  refine ⟨fun _ => hs.pages, fun _ i _ _ => hs.inside h hguard i, ?_, h.complete hguard⟩
  intro hne
  rw [h.search_eq hguard] at hne ⊢
  split
  case isTrue hzero =>
    rw [if_pos hzero] at hne
    exact h.deterministic_placed hne
  case isFalse hfound =>
    rcases (randomAddress_cases hfound).2 with ⟨i, htry⟩ | hfall
    · exact hs.placed h hguard htry hfound
    · obtain ⟨page, hle, heq⟩ := h.fallback_eq hguard hs.pages
      obtain ⟨hspace, hend⟩ := h.fromPage hle
      rw [hfall, heq] at hfound ⊢
      exact Placed.of_fromPage hend (hspace.deterministic_placed hfound)

end

/-- Without randomization there is only the search in the whole region. -/
theorem InSpace.sound_of_not_aslr (h : q.InSpace pt) (hguard : settings.guardPages = q.guardPages)
    (haslr : settings.aslrEnabled = false) : q.Sound pt settings := by
  have hoff : settings.aslrEnabled ≠ true := by
    rw [haslr]
    exact Bool.false_ne_true
  have hzero : q.randomAddress pt settings = 0 := if_neg hoff
  refine ⟨fun h => absurd h hoff, fun h => absurd h hoff, ?_, h.complete hguard⟩
  rw [h.search_eq hguard, if_pos hzero]
  exact h.deterministic_placed

/-! ## Requests that are not safe -/

/-- If the first try draws a candidate at which the area is free, it is the result. -/
theorem search_of_tryAt_zero (h : q.InSpace pt) (hguard : settings.guardPages = q.guardPages)
    (haslr : settings.aslrEnabled = true) {c : Nat} (hc : c ≠ 0)
    (htry : q.tryAt pt settings 0 = some c) : q.search pt settings = c := by
  have hrange : range 8 = 0 :: [1, 2, 3, 4, 5, 6, 7] := rfl
  have hfirst : (range 8).findSome? (q.tryAt pt settings) = some c := by
    rw [hrange, findSome?_cons, htry]
  have hrandom : q.randomAddress pt settings = c := by
    rw [randomAddress, if_pos haslr, hfirst]
    exact if_neg hc
  rw [h.search_eq hguard, hrandom, if_neg hc]

/-- A request with right results for all draws is safe. -/
theorem InSpace.randomSafe (h : q.InSpace pt)
    (hsound : ∀ random, q.Sound pt ⟨true, random, q.guardPages⟩) : q.RandomSafe pt := by
  have hpages := (hsound fun _ => 0).noWrap rfl
  have hdrawn {k : Nat} (hk : k ≤ q.lastDraw) :
      q.candidateOf ⟨true, fun _ => k, q.guardPages⟩ 0 = q.drawn k := by
    rw [h.candidateOf_eq rfl hpages, mod_eq_of_lt (lt_succ_of_le hk)]
  have hfirst {k : Nat} (hk : k ≤ q.lastDraw) :
      pt.memoryBlockManager.startAddress ≤ q.drawn k ∧
        q.drawn k < pt.memoryBlockManager.endAddress := by
    have hinside := (hsound fun _ => k).inside rfl 0 (by omega) fun j hj =>
      absurd hj (Nat.not_lt_zero j)
    rwa [hdrawn hk] at hinside
  refine ⟨hpages, (hfirst (zero_le _)).1, (hfirst (le_refl _)).2, ?_⟩
  intro k hk hne hstart hnear hregion info hinfo hfree hblock hend
  have hguarded : q.drawn k < info.getEndAddress := by
    rw [areaEnd] at hend
    omega
  -- the candidate is looked up in the block, so that the try finds it
  obtain ⟨before, it, rest, hiter, htree, hit, hit', -⟩ :=
    findIterator_eq h.tiles (hfirst hk).1 (hfirst hk).2
  have hsame : it = info := by
    have hlook := h.tiles.lookup_eq_some hinfo ((le_add_right _ _).trans hblock) hguarded
    have hmem : it ∈ pt.memoryBlockManager.memoryBlockTree :=
      htree ▸ mem_append_right _ mem_cons_self
    rw [h.tiles.lookup_eq_some hmem hit hit'] at hlook
    exact Option.some.inj hlook
  subst hsame
  have hpasses : q.Passes it (q.drawn k) := by
    refine ⟨hfree, hstart, hblock, ?_, Nat.sub_le_sub_right hregion 1⟩
    rw [KMemoryBlock.getLastAddress]
    exact Nat.sub_le_sub_right hend 1
  have htry : q.tryAt pt ⟨true, fun _ => k, q.guardPages⟩ 0 = some (q.drawn k) :=
    (tryAt_eq_some_iff rfl).mpr ⟨hdrawn hk, it, rest, congrArg Prod.snd hiter, hpasses⟩
  have hsearch := search_of_tryAt_zero h rfl rfl hne htry
  obtain ⟨other, -, hplaced⟩ := (hsound fun _ => k).placed (hsearch ▸ hne)
  have hfar := hplaced.regionStart_le
  rw [hsearch] at hfar
  exact absurd hnear (Nat.not_lt.mpr hfar)

/-- All random draws give a right result exactly if there is no randomization or the request is
safe. -/
theorem findFreeArea_sound_iff (h : q.InSpace pt) (aslr : Bool) :
    (∀ random, q.Sound pt ⟨aslr, random, q.guardPages⟩) ↔ aslr = false ∨ q.RandomSafe pt := by
  constructor
  · intro hsound
    cases aslr with
    | false => exact Or.inl rfl
    | true => exact Or.inr (h.randomSafe hsound)
  · rintro (rfl | hs) random
    · exact h.sound_of_not_aslr rfl rfl
    · exact hs.sound h rfl

/-- Seven free pages. -/
def sevenPages : KPageTableBase where
  impl := PageTable.resized 16
  memoryBlockManager := .initializeManager 0x1000 0x8000
  addressSpaceStart := 0x1000
  addressSpaceEnd := 0x8000

theorem findFreeArea_sound_sevenPages :
    AreaRequest.Sound ⟨0x1000, 7, 1, 0x1000, 0, 1⟩ sevenPages ⟨true, fun _ => 0, 1⟩ := by
  have hspace : AreaRequest.InSpace ⟨0x1000, 7, 1, 0x1000, 0, 1⟩ sevenPages :=
    ⟨⟨rfl, by decide, rfl⟩, by decide, by decide, by decide, by decide, by decide, by decide⟩
  refine (findFreeArea_sound_iff hspace true).mpr (Or.inr ?_) fun _ => 0
  refine ⟨by decide, by decide, by decide, ?_⟩
  intro k _ _ _ hnear _ info hinfo _ hblock
  obtain rfl := mem_singleton.mp hinfo
  -- the block starts with the region, so that its guard pages are those of the region
  exact absurd hblock (Nat.not_le.mpr hnear)

/-- With six of seven pages and four guard pages the difference wraps and a candidate is not in the
address space. With a region inside the free block the result has its guard pages in front of the
region. -/
theorem findFreeArea_unsound :
    (AreaRequest.InSpace ⟨0x1000, 7, 6, 0x1000, 0, 4⟩ sevenPages ∧ ¬(6 + 4 ≤ 7) ∧
      sevenPages.memoryBlockManager.endAddress ≤
        AreaRequest.candidateOf ⟨0x1000, 7, 6, 0x1000, 0, 4⟩ ⟨true, fun _ => 100, 4⟩ 0 ∧
      ¬∀ random, AreaRequest.Sound ⟨0x1000, 7, 6, 0x1000, 0, 4⟩ sevenPages ⟨true, random, 4⟩) ∧
    AreaRequest.InSpace ⟨0x4000, 3, 1, 0x1000, 0, 1⟩ sevenPages ∧
      AreaRequest.search ⟨0x4000, 3, 1, 0x1000, 0, 1⟩ sevenPages ⟨true, fun _ => 0, 1⟩ = 0x4000 ∧
      ¬AreaRequest.Placed ⟨0x4000, 3, 1, 0x1000, 0, 1⟩ sevenPages.memoryBlockManager 0x4000 := by
  have htiles : BlocksTile 0x1000 0x8000 sevenPages.memoryBlockManager.memoryBlockTree :=
    ⟨rfl, by decide, rfl⟩
  refine ⟨⟨⟨htiles, by decide, by decide, by decide, by decide, by decide, by decide⟩, by decide,
    by decide, ?_⟩, ⟨htiles, by decide, by decide, by decide, by decide, by decide, by decide⟩,
    by decide, ?_⟩
  · intro hsound
    have hinside := ((hsound fun _ => 100).inside rfl 0 (by decide) fun j hj =>
      absurd hj (Nat.not_lt_zero j)).2
    exact absurd hinside (by decide)
  · rintro ⟨info, -, hplaced⟩
    exact absurd hplaced.regionStart_le (by decide)

end AreaRequest

end Sudachi.Kernel
