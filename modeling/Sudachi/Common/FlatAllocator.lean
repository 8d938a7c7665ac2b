import Sudachi.Common.AddressSpaceRuns
import Mathlib.Order.Interval.Set.Basic
import Mathlib.Order.CompletePartialOrder

/-!
# The flat allocator

`FlatAllocator` of `address_space.h` and `address_space.inc`: a map in which every address is allocated
or not. `Allocate` first goes on from the end of its last allocation, and searches for a gap between
two allocations where that fails. The first pass takes the place that it means to skip: the allocator is
right exactly where `AllocateSound` says (`reachable_allocate_iff`).
-/

set_option autoImplicit false

namespace Sudachi.Common

open Sudachi.Foundations Set

/-- `bool` for physical addresses, where `false` stands for none. -/
abbrev allocation : Split Bool := Split.constant false

structure FlatAllocator extends FlatAddressSpaceMap Bool Unit where
  virtStart : Nat
  currentLinearAllocEnd : Nat

namespace FlatAllocator

/-- The loop that is to skip over fixed mappings, from the iterators to `predecessor` and to the first
of the blocks behind it; zero is `UnmappedVa`. -/
def skipMappings (s : FlatAllocator) (size : Nat) :
    Block Bool Unit → List (Block Bool Unit) → Nat
  | _, [] => 0
  | predecessor, successor :: rest =>
    if successor.virt - predecessor.virt < size ∨ ¬predecessor.Unmapped allocation then
      predecessor.virt
    else if rest = [] then
      let allocEnd := (successor.virt + size) % 2 ^ s.vaBits
      if successor.virt ≤ allocEnd ∧ allocEnd ≤ s.vaLimit then successor.virt else 0
    else skipMappings s size successor rest

/-- The first pass of `Allocate`. -/
def linearStart (s : FlatAllocator) (size : Nat) : Except Fault Nat := do
  let allocEnd := (s.currentLinearAllocEnd + size) % 2 ^ s.vaBits
  if s.currentLinearAllocEnd ≤ allocEnd ∧ allocEnd ≤ s.vaLimit then
    let allocEndSuccessor := lowerBound s.blocks allocEnd
    if allocEndSuccessor = 0 then throw .invalidFirstBlock
    let predecessor ← deref s.blocks (allocEndSuccessor - 1)
    if predecessor.virt ≤ s.currentLinearAllocEnd then return s.currentLinearAllocEnd
    else return s.skipMappings size predecessor (s.blocks.drop allocEndSuccessor)
  else return 0

/-- The second pass: the first gap that is large enough. -/
def searchGap (size : Nat) : Block Bool Unit → List (Block Bool Unit) → Option Nat
  | _, [] => none
  | predecessor, successor :: rest =>
    if successor.virt - predecessor.virt < size ∨ ¬predecessor.Unmapped allocation then
      searchGap size successor rest
    else some predecessor.virt

def search (s : FlatAllocator) (size : Nat) : Except Fault (Option Nat) :=
  if s.blocks.length ≤ 2 then .error .unexpectedAllocatorState
  else
    match s.blocks.drop 1 with
    | [] => .error .invalidIterator
    | predecessor :: rest => .ok (searchGap size predecessor rest)

/-- `MapLocked` with `true` for the physical address. -/
def mapRange (s : FlatAllocator) (virt size : Nat) : Except Fault FlatAllocator :=
  (mapLocked allocation s.toFlatAddressSpaceMap virt true size ()).map fun m =>
    { s with toFlatAddressSpaceMap := m }

/-- The end of `Allocate` after the first pass. -/
def allocateLinear (s : FlatAllocator) (allocStart size : Nat) :
    Except Fault (Nat × FlatAllocator) := do
  let s ← { s with
    currentLinearAllocEnd := (allocStart + size) % 2 ^ s.vaBits }.mapRange allocStart size
  return (allocStart, s)

/-- The second pass of `Allocate`, and its end. -/
def allocateGap (s : FlatAllocator) (size : Nat) : Except Fault (Nat × FlatAllocator) := do
  match ← s.search size with
  | some allocStart =>
    let s ← s.mapRange allocStart size
    return (allocStart, s)
  | none => return (0, s)

/-- `Allocate`. -/
def allocate (s : FlatAllocator) (size : Nat) : Except Fault (Nat × FlatAllocator) := do
  let allocStart ← s.linearStart size
  if allocStart ≠ 0 then s.allocateLinear allocStart size else s.allocateGap size

/-- `AllocateFixed`. -/
def allocateFixed (s : FlatAllocator) (virt size : Nat) : Except Fault FlatAllocator :=
  s.mapRange virt size

/-- `Free`. -/
def free (s : FlatAllocator) (virt size : Nat) : Except Fault FlatAllocator :=
  (unmapLocked allocation s.toFlatAddressSpaceMap virt size).map fun m =>
    { s with toFlatAddressSpaceMap := m }

/-! ## What an allocation is to be -/

/-- Whether a result of `Allocate` is right: a range of the allocator that meets no allocation, or none
where there is no such range. -/
def Right (s : FlatAllocator) (live : Set Nat) (size : Nat)
    (outcome : Except Fault (Nat × FlatAllocator)) : Prop :=
  ∃ result s', outcome = .ok (result, s') ∧
    (result ≠ 0 → s.virtStart ≤ result ∧ result + size ≤ s.vaLimit ∧
      Disjoint (Set.Ico result (result + size)) live) ∧
    (result = 0 → ¬∃ a, s.virtStart ≤ a ∧ a + size ≤ s.vaLimit ∧
      Disjoint (Set.Ico a (a + size)) live)

/-- A gap of the size between two allocations. -/
def Between (live : Set Nat) (size a : Nat) : Prop :=
  Disjoint (Set.Ico a (a + size)) live ∧ (∃ x ∈ live, x < a) ∧ ∃ y ∈ live, a + size ≤ y

/-- When the second pass begins: there is no room up to the limit, or the last allocation ends within
the range that comes next, or this range is free and starts at zero. -/
def Searches (s : FlatAllocator) (live : Set Nat) (size : Nat) : Prop :=
  s.vaLimit < s.currentLinearAllocEnd + size ∨
  ((∃ x ∈ live, s.currentLinearAllocEnd ≤ x) ∧ ∀ y ∈ live, y + 1 < s.currentLinearAllocEnd + size) ∨
  (s.currentLinearAllocEnd = 0 ∧ Disjoint (Set.Ico 0 size) live)

/-- What the second pass gets right: something is allocated, and where it finds a gap, none is below the
start; where it finds none, there is no room before the first and behind the last allocation either. -/
def SearchSound (s : FlatAllocator) (live : Set Nat) (size : Nat) : Prop :=
  live.Nonempty ∧ (((∃ a, Between live size a) ∧ ∀ a, Between live size a → s.virtStart ≤ a) ∨
      (¬∃ a, Between live size a) ∧ ¬∃ a, s.virtStart ≤ a ∧ a + size ≤ s.vaLimit ∧
        Disjoint (Set.Ico a (a + size)) live)

/-- The allocations that the code gets right: the range that comes next is free, or the second pass
begins and gets it right. -/
def AllocateSound (s : FlatAllocator) (live : Set Nat) (size : Nat) : Prop :=
  (s.currentLinearAllocEnd ≠ 0 ∧ s.currentLinearAllocEnd + size ≤ s.vaLimit ∧
    Disjoint (Set.Ico s.currentLinearAllocEnd (s.currentLinearAllocEnd + size)) live) ∨
  (s.Searches live size ∧ s.SearchSound live size)

/-! ## The blocks of an allocator -/

/-- The blocks stand for the allocated addresses. -/
structure Tracks (s : FlatAllocator) (live : Set Nat) : Prop where
  wellFormed : WellFormed allocation s.blocks
  live_iff : ∀ va, va ∈ live ↔ mappingAt allocation s.blocks va ≠ none
  zero : 0 ∉ live
  below : ∀ va ∈ live, va < s.vaLimit
  start : s.virtStart ≤ s.currentLinearAllocEnd
  width : s.currentLinearAllocEnd < 2 ^ s.vaBits

section Blocks

variable {s : FlatAllocator} {live : Set Nat} {size a va : Nat} {b c p : Block Bool Unit}
variable {l r rest : List (Block Bool Unit)}

theorem not_disjoint_Ico (hx : va ∈ live) (hle : a ≤ va) (hlt : va < a + size) :
    ¬Disjoint (Set.Ico a (a + size)) live :=
  not_disjoint_iff.mpr ⟨va, ⟨hle, hlt⟩, hx⟩

theorem disjoint_Ico (h : ∀ va, a ≤ va → va < a + size → va ∉ live) :
    Disjoint (Set.Ico a (a + size)) live :=
  disjoint_left.mpr fun va hva => h va hva.1 hva.2

section

variable (h : s.Tracks live)
include h

theorem Tracks.mem_iff (hsplit : s.blocks = l ++ b :: r) (hb : b.virt ≤ va)
    (hr : ∀ c ∈ r, va < c.virt) : va ∈ live ↔ ¬b.Unmapped allocation := by
  rw [h.live_iff, hsplit, mappingAt_singleton_append hb hr, Block.valueAt]
  by_cases hu : b.Unmapped allocation
  · simp [hu]
  · simp [hu]

theorem Tracks.sorted (hsplit : s.blocks = l ++ r) : r.Pairwise fun a b => a.virt < b.virt := by
  have hsorted := pairwise_of_isChain h.wellFormed.chain
  rw [hsplit] at hsorted
  exact (List.pairwise_append.mp hsorted).2.1

theorem Tracks.follows (hsplit : s.blocks = l ++ b :: c :: r) : b.Follows allocation c := by
  have hchain := h.wellFormed.chain
  rw [hsplit] at hchain
  exact (List.isChain_cons_cons.mp hchain.right_of_append).1

/-- The addresses of a block that is not the last one. -/
theorem Tracks.mem_iff_of_lt (hsplit : s.blocks = l ++ b :: c :: r)
    (hb : b.virt ≤ va) (hc : va < c.virt) : va ∈ live ↔ ¬b.Unmapped allocation := by
  refine h.mem_iff hsplit hb fun d hd => ?_
  have hsorted := h.sorted (l := l ++ [b]) (r := c :: r) (by simp [hsplit])
  rcases List.mem_cons.mp hd with rfl | hd
  · exact hc
  · exact lt_trans hc ((List.pairwise_cons.mp hsorted).1 d hd)

theorem Tracks.last_unmapped (hsplit : s.blocks = l ++ [b]) : b.Unmapped allocation :=
  h.wellFormed.last b (by rw [hsplit]; simp)

/-- Nothing is allocated from the last block on. -/
theorem Tracks.not_mem_of_last (hsplit : s.blocks = l ++ [b]) (hb : b.virt ≤ va) : va ∉ live := by
  rw [h.mem_iff hsplit hb (by simp), not_not]
  exact h.last_unmapped hsplit

/-- A block that is mapped has one behind it. -/
theorem Tracks.exists_next (hsplit : s.blocks = l ++ b :: r)
    (hb : ¬b.Unmapped allocation) : ∃ c rest, r = c :: rest := by
  cases r with
  | nil => exact absurd (h.last_unmapped hsplit) hb
  | cons c rest => exact ⟨c, rest, rfl⟩

/-- A mapped block is allocated from its start on. -/
theorem Tracks.virt_mem (hsplit : s.blocks = l ++ b :: r)
    (hb : ¬b.Unmapped allocation) : b.virt ∈ live := by
  obtain ⟨c, rest, rfl⟩ := h.exists_next hsplit hb
  exact (h.mem_iff_of_lt hsplit le_rfl (h.follows hsplit).lt).mpr hb

/-- A block that follows an unmapped one starts with an allocation. -/
theorem Tracks.next_mem (hsplit : s.blocks = l ++ b :: c :: r)
    (hb : b.Unmapped allocation) : ¬c.Unmapped allocation ∧ c.virt ∈ live := by
  have hc : ¬c.Unmapped allocation := fun hc => (h.follows hsplit).notBoth ⟨hb, hc⟩
  exact ⟨hc, h.virt_mem (l := l ++ [b]) (r := r) (by simp [hsplit]) hc⟩

/-- Right before a block that follows a mapped one something is allocated. -/
theorem Tracks.pred_mem (hsplit : s.blocks = l ++ b :: c :: r)
    (hb : ¬b.Unmapped allocation) : c.virt - 1 ∈ live := by
  have hlt := (h.follows hsplit).lt
  exact (h.mem_iff_of_lt hsplit (by omega) (by omega)).mpr hb

/-- The first block is the one that the map began with. -/
theorem Tracks.first : ∃ b r, s.blocks = b :: r ∧ b.virt = 0 ∧ b.Unmapped allocation := by
  obtain ⟨b, hb, hzero⟩ := h.wellFormed.first
  obtain ⟨r, hr⟩ := List.head?_eq_some_iff.mp hb
  refine ⟨b, r, hr, hzero, by_contra fun hmapped => h.zero ?_⟩
  exact hzero ▸ h.virt_mem (l := []) hr hmapped

/-! ## The second pass -/

/-- A gap that the search finds is free and below an allocation, and it is the first one. -/
theorem Tracks.searchGap_spec (hsize : 0 < size) (hsplit : s.blocks = l ++ p :: rest) :
    (∀ v, searchGap size p rest = some v → p.virt ≤ v ∧ Disjoint (Set.Ico v (v + size)) live ∧
      ∃ y ∈ live, v + size ≤ y) ∧
    ∀ a, p.virt ≤ a → Disjoint (Set.Ico a (a + size)) live → (∃ y ∈ live, a + size ≤ y) →
      ∃ v, searchGap size p rest = some v ∧ v ≤ a := by
  induction rest generalizing l p with
  | nil =>
    refine ⟨fun v hv => absurd hv (by simp [searchGap]), fun a ha _ hy => ?_⟩
    obtain ⟨y, hy, hle⟩ := hy
    exact absurd hy (h.not_mem_of_last hsplit (by omega))
  | cons c rest ih =>
    have hlt := (h.follows hsplit).lt
    have hsplit' : s.blocks = (l ++ [p]) ++ c :: rest := by simp [hsplit]
    obtain ⟨hsome, hfirst⟩ := ih hsplit'
    rw [searchGap]
    by_cases hskip : c.virt - p.virt < size ∨ ¬p.Unmapped allocation
    · rw [if_pos hskip]
      refine ⟨fun v hv => ?_, fun a ha hfree hy => ?_⟩
      · obtain ⟨hle, hrest⟩ := hsome v hv
        exact ⟨by omega, hrest⟩
      · by_cases hac : c.virt ≤ a
        · exact hfirst a hac hfree hy
        · -- a gap within this block would reach into the next one, or into the block itself
          refine absurd hfree ?_
          by_cases hp : p.Unmapped allocation
          · have hshort := hskip.resolve_right (not_not.mpr hp)
            exact not_disjoint_Ico (h.next_mem hsplit hp).2 (by omega) (by omega)
          · exact not_disjoint_Ico ((h.mem_iff_of_lt hsplit ha (by omega)).mpr hp) le_rfl (by omega)
    · rw [if_neg hskip]
      rw [not_or, not_not] at hskip
      obtain ⟨hlong, hp⟩ := hskip
      refine ⟨fun v hv => ?_, fun a ha _ _ => ⟨p.virt, rfl, ha⟩⟩
      obtain rfl := Option.some.inj hv
      refine ⟨le_rfl, disjoint_Ico fun va hle hva => ?_, c.virt, (h.next_mem hsplit hp).2, by omega⟩
      rw [h.mem_iff_of_lt hsplit hle (by omega), not_not]
      exact hp

/-- The second pass finds the first gap between two allocations. Where there is no allocation its
assertion fails. -/
theorem Tracks.search_spec (hsize : 0 < size) :
    (live = ∅ ∧ s.search size = .error .unexpectedAllocatorState) ∨
    (live.Nonempty ∧ ∃ found, s.search size = .ok found ∧
      (∀ v, found = some v → Between live size v ∧ ∀ a, Between live size a → v ≤ a) ∧
      (found = none → ¬∃ a, Between live size a)) := by
  obtain ⟨b₀, r, hblocks, hzero, hfirst⟩ := h.first
  rcases r with _ | ⟨b₁, _ | ⟨b₂, rest⟩⟩
  · refine .inl ⟨eq_empty_of_forall_notMem fun va => ?_, ?_⟩
    · exact h.not_mem_of_last (l := []) hblocks (by omega)
    · rw [search, hblocks]
      rfl
  · -- the last block would follow an unmapped one
    refine absurd (h.last_unmapped (l := [b₀]) hblocks) ?_
    exact (h.next_mem (l := []) hblocks hfirst).1
  · obtain ⟨-, hmem⟩ := h.next_mem (l := []) hblocks hfirst
    have hsplit : s.blocks = [b₀] ++ b₁ :: b₂ :: rest := hblocks
    obtain ⟨hsome, hleast⟩ := h.searchGap_spec hsize hsplit
    have hbelow : ∀ x ∈ live, b₁.virt ≤ x := by
      intro x hx
      by_contra hlt
      rw [h.mem_iff_of_lt (l := []) hblocks (by omega) (by omega)] at hx
      exact hx hfirst
    have hfound : ∀ a, Between live size a → ∃ v, searchGap size b₁ (b₂ :: rest) = some v ∧ v ≤ a := by
      rintro a ⟨hfree, ⟨x, hx, hxa⟩, habove⟩
      exact hleast a (le_of_lt (lt_of_le_of_lt (hbelow x hx) hxa)) hfree habove
    refine .inr ⟨⟨_, hmem⟩, searchGap size b₁ (b₂ :: rest), ?_, fun v hv => ?_, fun hnone => ?_⟩
    · rw [search, hblocks]
      rfl
    · obtain ⟨hle, hfree, habove⟩ := hsome v hv
      have hne : v ≠ b₁.virt := by
        rintro rfl
        exact not_disjoint_Ico hmem le_rfl (by omega) hfree
      refine ⟨⟨hfree, ⟨_, hmem, by omega⟩, habove⟩, fun a ha => ?_⟩
      obtain ⟨w, hw, hwa⟩ := hfound a ha
      rw [hv] at hw
      exact Option.some.inj hw ▸ hwa
    · rintro ⟨a, ha⟩
      obtain ⟨v, hv, -⟩ := hfound a ha
      rw [hnone] at hv
      exact absurd hv (by simp)

end

/-! ## What is mapped and unmapped -/

theorem perform_limits {m m' : FlatAddressSpaceMap Bool Unit} {op : Operation Bool Unit}
    (h : perform allocation m op = .ok m') : m'.vaLimit = m.vaLimit ∧ m'.vaBits = m.vaBits := by
  cases op with
  | map virt phys size extraInfo =>
    rw [perform, mapLocked] at h
    split at h
    · cases h
    · cases hmap : mapBlocks allocation m.blocks virt ((virt + size) % 2 ^ m.vaBits) phys extraInfo with
      | error e =>
        rw [hmap] at h
        cases h
      | ok blocks =>
        rw [hmap] at h
        cases h
        exact ⟨rfl, rfl⟩
  | unmap virt size =>
    rw [perform, unmapLocked] at h
    split at h
    · cases h
    · cases hmap : unmapBlocks allocation m.blocks virt ((virt + size) % 2 ^ m.vaBits) with
      | error e =>
        rw [hmap] at h
        cases h
      | ok blocks =>
        rw [hmap] at h
        cases h
        exact ⟨rfl, rfl⟩

/-- An operation that the map gets right. -/
theorem Tracks.perform (h : s.Tracks live) (op : Operation Bool Unit) (live' : Set Nat)
    (hrange : op.InRange allocation s.toFlatAddressSpaceMap)
    (hsound : op.Sound allocation s.toFlatAddressSpaceMap)
    (hlive : ∀ va, va ∈ live' ↔ op.apply allocation (mappingAt allocation s.blocks) va ≠ none)
    (hzero : 0 ∉ live') (hbelow : ∀ va ∈ live', va < s.vaLimit) :
    ∃ m', Common.perform allocation s.toFlatAddressSpaceMap op = .ok m' ∧
      { s with toFlatAddressSpaceMap := m' }.Tracks live' := by
  rcases perform_outcome h.wellFormed hrange with ⟨-, m', hm', hwf, hmapping⟩ | ⟨hnot, -⟩
  · obtain ⟨hlimit, hbits⟩ := perform_limits hm'
    refine ⟨m', hm', ⟨hwf, fun va => ?_, hzero, fun va hva => ?_, h.start, ?_⟩⟩
    · rw [hlive, hmapping]
    · exact hlimit ▸ hbelow va hva
    · exact hbits ▸ h.width
  · exact absurd hsound hnot

theorem Tracks.mapRange_spec (h : s.Tracks live) {virt : Nat} (hvirt : 0 < virt) (hsize : 0 < size)
    (hlimit : virt + size ≤ s.vaLimit) :
    ∃ s', s.mapRange virt size = .ok s' ∧ s'.Tracks (live ∪ Set.Ico virt (virt + size)) := by
  have hphys : ∀ n < size, allocation.advance true n ≠ allocation.unmappedPa :=
    fun _ _ => Bool.noConfusion
  obtain ⟨m', hm', htracks⟩ := h.perform (.map virt true size ())
    (live ∪ Set.Ico virt (virt + size)) ⟨hvirt, hlimit, hphys⟩ hsize (fun va => by
      rw [Operation.apply, updateRange, mem_union, h.live_iff, mem_Ico]
      split_ifs with hin
      · simp [hin]
      · simp [hin]) (by
      rintro (hmem | hmem)
      · exact h.zero hmem
      · exact absurd hmem.1 (by omega)) (by
      rintro va (hmem | hmem)
      · exact h.below va hmem
      · exact lt_of_lt_of_le hmem.2 hlimit)
  have hmap : mapLocked allocation s.toFlatAddressSpaceMap virt true size () = .ok m' := hm'
  exact ⟨_, by rw [mapRange, hmap]; rfl, htracks⟩

theorem Tracks.free_spec (h : s.Tracks live) {virt : Nat} (hvirt : 0 < virt)
    (hlimit : virt + size ≤ s.vaLimit)
    (hsound : UnmapSound allocation s.blocks virt (virt + size)) :
    ∃ s', s.free virt size = .ok s' ∧ s'.Tracks (live \ Set.Ico virt (virt + size)) := by
  obtain ⟨m', hm', htracks⟩ := h.perform (.unmap virt size) (live \ Set.Ico virt (virt + size))
    ⟨hvirt, hlimit⟩ hsound (fun va => by
      rw [Operation.apply, updateRange, mem_sdiff, h.live_iff, mem_Ico]
      split_ifs with hin
      · simp [hin]
      · simp [hin]) (fun hmem => h.zero hmem.1) (fun va hmem => h.below va hmem.1)
  have hunmap : unmapLocked allocation s.toFlatAddressSpaceMap virt size = .ok m' := hm'
  exact ⟨_, by rw [free, hunmap]; rfl, htracks⟩

/-! ## `Allocate` -/

/-- The second pass as a whole. -/
theorem Tracks.allocateGap_iff (h : s.Tracks live) (hsize : 0 < size) :
    s.Right live size (s.allocateGap size) ↔ s.SearchSound live size := by
  rcases h.search_spec hsize with ⟨hempty, herror⟩ | ⟨hlive, found, hfound, hsome, hnone⟩
  · refine iff_of_false ?_ fun hsound => ?_
    · rintro ⟨result, s', hresult, -⟩
      rw [allocateGap, herror] at hresult
      cases hresult
    · exact hsound.1.ne_empty hempty
  · cases found with
    | none =>
      have hresult : s.allocateGap size = .ok (0, s) := by rw [allocateGap, hfound]; rfl
      have hno := hnone rfl
      rw [Right, hresult]
      constructor
      · rintro ⟨result, s', heq, -, hzero⟩
        cases heq
        exact ⟨hlive, .inr ⟨hno, hzero rfl⟩⟩
      · rintro ⟨-, ⟨hyes, -⟩ | ⟨-, hroom⟩⟩
        · exact absurd hyes hno
        · exact ⟨0, s, rfl, fun hne => absurd rfl hne, fun _ => hroom⟩
    | some v =>
      obtain ⟨hbetween, hleast⟩ := hsome v rfl
      obtain ⟨hfree, ⟨x, -, hx⟩, ⟨y, hy, hvy⟩⟩ := id hbetween
      have hlimit : v + size ≤ s.vaLimit := le_of_lt (lt_of_le_of_lt hvy (h.below y hy))
      obtain ⟨s', hs', -⟩ := h.mapRange_spec (show 0 < v by omega) hsize hlimit
      have hresult : s.allocateGap size = .ok (v, s') := by
        rw [allocateGap, hfound]
        show (s.mapRange v size >>= fun s => pure (v, s)) = _
        rw [hs']
        rfl
      rw [Right, hresult]
      constructor
      · rintro ⟨result, s'', heq, hright, -⟩
        cases heq
        refine ⟨hlive, .inl ⟨⟨v, hbetween⟩, fun a ha => ?_⟩⟩
        exact le_trans (hright (by omega)).1 (hleast a ha)
      · rintro ⟨-, ⟨-, hstart⟩ | ⟨hno, -⟩⟩
        · refine ⟨v, s', rfl, fun _ => ⟨hstart v hbetween, hlimit, hfree⟩, fun hzero => ?_⟩
          omega
        · exact absurd ⟨v, hbetween⟩ hno

omit live in
/-- The first pass is tried where there is room up to the limit. -/
theorem allocEnd_iff (hwidth : s.currentLinearAllocEnd < 2 ^ s.vaBits) (hsize : size < 2 ^ s.vaBits) :
    (s.currentLinearAllocEnd ≤ (s.currentLinearAllocEnd + size) % 2 ^ s.vaBits ∧
      (s.currentLinearAllocEnd + size) % 2 ^ s.vaBits ≤ s.vaLimit) ↔
      s.currentLinearAllocEnd + size ≤ s.vaLimit := by
  have hlimit := s.vaLimit_lt
  by_cases hlt : s.currentLinearAllocEnd + size < 2 ^ s.vaBits
  · rw [Nat.mod_eq_of_lt hlt]
    omega
  · have hmod : (s.currentLinearAllocEnd + size) % 2 ^ s.vaBits =
        s.currentLinearAllocEnd + size - 2 ^ s.vaBits := by
      rw [Nat.mod_eq_sub_mod (by omega), Nat.mod_eq_of_lt (by omega)]
    omega

/-- What the first pass takes where a block lies in front of it: a place that is not free. -/
theorem Tracks.skipMappings_spec (h : s.Tracks live) (hsize : 0 < size)
    (hsplit : s.blocks = l ++ p :: c :: r) :
    s.skipMappings size p (c :: r) ∈ ({p.virt, c.virt} : Set Nat) ∧
      ¬Disjoint (Set.Ico (s.skipMappings size p (c :: r)) (s.skipMappings size p (c :: r) + size))
        live := by
  have hlt := (h.follows hsplit).lt
  have hsplit' : s.blocks = (l ++ [p]) ++ c :: r := by simp [hsplit]
  rw [skipMappings]
  by_cases hp : p.Unmapped allocation
  · obtain ⟨hc, hmem⟩ := h.next_mem hsplit hp
    by_cases hshort : c.virt - p.virt < size
    · rw [if_pos (.inl hshort)]
      exact ⟨.inl rfl, not_disjoint_Ico hmem (by omega) (by omega)⟩
    · -- the gap is passed over, and the mapped block behind it is taken
      obtain ⟨d, rest, rfl⟩ := h.exists_next hsplit' hc
      rw [if_neg (by simp [hshort, hp]), if_neg (by simp), skipMappings, if_pos (.inr hc)]
      exact ⟨.inr rfl, not_disjoint_Ico hmem le_rfl (by omega)⟩
  · rw [if_pos (.inr hp)]
    exact ⟨.inl rfl, not_disjoint_Ico (h.virt_mem hsplit hp) le_rfl (by omega)⟩

/-- The last block that starts before the end of the range that comes next. -/
theorem Tracks.exists_predecessor (h : s.Tracks live) {x : Nat} (hx : 0 < x) :
    ∃ l p r, s.blocks = l ++ p :: r ∧ (∀ b ∈ l ++ [p], b.virt < x) ∧ ∀ b ∈ r, x ≤ b.virt := by
  obtain ⟨before, after, hsplit, hbefore, hafter⟩ :=
    Foundations.exists_cut x (pairwise_of_isChain h.wellFormed.chain)
  obtain ⟨b, rest, hblocks, hzero, -⟩ := h.first
  cases before using List.reverseRecOn with
  | nil =>
    have hmem : b ∈ after := by
      rw [← List.nil_append after, ← hsplit, hblocks]
      simp
    have := hafter b hmem
    omega
  | append_singleton l p => exact ⟨l, p, after, by simp [hsplit], hbefore, hafter⟩

theorem linearStart_eq
    (hroom : s.currentLinearAllocEnd + size ≤ s.vaLimit) (hsplit : s.blocks = l ++ p :: r)
    (hbefore : ∀ b ∈ l ++ [p], b.virt < s.currentLinearAllocEnd + size)
    (hafter : ∀ b ∈ r, s.currentLinearAllocEnd + size ≤ b.virt) :
    s.linearStart size = .ok (if p.virt ≤ s.currentLinearAllocEnd then s.currentLinearAllocEnd
      else s.skipMappings size p r) := by
  have hend := (virtEnd_eq hroom).1
  have hsplit' : s.blocks = (l ++ [p]) ++ r := by simp [hsplit]
  have hbound : lowerBound s.blocks (s.currentLinearAllocEnd + size) = l.length + 1 := by
    rw [lowerBound, hsplit', findIdx_cut hbefore hafter]
    simp
  have hderef : deref s.blocks (l.length + 1 - 1) = .ok p := deref_at hsplit rfl
  have hdrop : s.blocks.drop (l.length + 1) = r := by
    rw [hsplit']
    exact List.drop_left' (by simp)
  rw [linearStart]
  simp only [hend, hbound, hderef, hdrop]
  rw [if_pos ⟨by omega, hroom⟩, if_neg (by omega)]
  show (if p.virt ≤ s.currentLinearAllocEnd then _ else _) = _
  split_ifs <;> rfl

/-- Blocks that start within the range that comes next. -/
theorem Tracks.not_free_of_inside (h : s.Tracks live) {x : Nat} (hsplit : s.blocks = l ++ p :: r)
    (hlt : a < p.virt) (hx : p.virt < a + x) : ¬Disjoint (Set.Ico a (a + x)) live := by
  by_cases hp : p.Unmapped allocation
  · cases l using List.reverseRecOn with
    | nil =>
      obtain ⟨b, rest, hblocks, hzero, -⟩ := h.first
      rw [hsplit, List.nil_append, List.cons.injEq] at hblocks
      rw [hblocks.1] at hlt
      omega
    | append_singleton l q =>
      have hsplit' : s.blocks = l ++ q :: p :: r := by simp [hsplit]
      have hq : ¬q.Unmapped allocation := fun hq => (h.follows hsplit').notBoth ⟨hq, hp⟩
      exact not_disjoint_Ico (h.pred_mem hsplit' hq) (by omega) (by omega)
  · exact not_disjoint_Ico (h.virt_mem hsplit hp) (by omega) (by omega)

/-- Something is allocated at the last address before a block or behind it. -/
theorem Tracks.exists_above (h : s.Tracks live) (hsplit : s.blocks = l ++ p :: c :: r) :
    ∃ y ∈ live, c.virt ≤ y + 1 := by
  by_cases hp : p.Unmapped allocation
  · exact ⟨c.virt, (h.next_mem hsplit hp).2, by omega⟩
  · exact ⟨c.virt - 1, h.pred_mem hsplit hp, by omega⟩

/-- The three outcomes of the first pass: the range that comes next, which is free; none; or a place that
is not free. -/
theorem Tracks.linearStart_cases (h : s.Tracks live) (hsize : 0 < size)
    (hwidth : size < 2 ^ s.vaBits) : ∃ allocStart, s.linearStart size = .ok allocStart ∧
      ((allocStart = s.currentLinearAllocEnd ∧ s.currentLinearAllocEnd ≠ 0 ∧
          s.currentLinearAllocEnd + size ≤ s.vaLimit ∧
          Disjoint (Set.Ico s.currentLinearAllocEnd (s.currentLinearAllocEnd + size)) live) ∨
        (allocStart = 0 ∧ s.Searches live size) ∨
        (allocStart ≠ 0 ∧ ¬Disjoint (Set.Ico allocStart (allocStart + size)) live ∧
          ¬s.Searches live size ∧
          ¬Disjoint (Set.Ico s.currentLinearAllocEnd (s.currentLinearAllocEnd + size)) live)) := by
  have hiff := allocEnd_iff h.width hwidth
  by_cases hroom : s.currentLinearAllocEnd + size ≤ s.vaLimit
  · obtain ⟨l, p, r, hsplit, hbefore, hafter⟩ :=
      h.exists_predecessor (x := s.currentLinearAllocEnd + size) (by omega)
    refine ⟨_, linearStart_eq hroom hsplit hbefore hafter, ?_⟩
    have hp := hbefore p (by simp)
    -- all of the range that comes next lies in one block, or a block starts within it
    by_cases hle : p.virt ≤ s.currentLinearAllocEnd
    · rw [if_pos hle]
      have hmem : ∀ va, s.currentLinearAllocEnd ≤ va → va < s.currentLinearAllocEnd + size →
          (va ∈ live ↔ ¬p.Unmapped allocation) := fun va hlow hhigh =>
        h.mem_iff hsplit (by omega) fun b hb => lt_of_lt_of_le hhigh (hafter b hb)
      by_cases hmapped : p.Unmapped allocation
      · have hfree : Disjoint
            (Set.Ico s.currentLinearAllocEnd (s.currentLinearAllocEnd + size)) live :=
          disjoint_Ico fun va hlow hhigh => by
            rw [hmem va hlow hhigh, not_not]
            exact hmapped
        by_cases hzero : s.currentLinearAllocEnd = 0
        · refine .inr (.inl ⟨hzero, .inr (.inr ⟨hzero, ?_⟩)⟩)
          simpa [hzero] using hfree
        · exact .inl ⟨rfl, hzero, hroom, hfree⟩
      · have hstart := (hmem s.currentLinearAllocEnd le_rfl (by omega)).mpr hmapped
        have hzero : s.currentLinearAllocEnd ≠ 0 := fun hzero => h.zero (hzero ▸ hstart)
        have hnot : ¬Disjoint
            (Set.Ico s.currentLinearAllocEnd (s.currentLinearAllocEnd + size)) live :=
          not_disjoint_Ico hstart le_rfl (by omega)
        refine .inr (.inr ⟨hzero, hnot, ?_, hnot⟩)
        rintro (hfull | ⟨-, hlast⟩ | ⟨hz, -⟩)
        · omega
        · have hend := (hmem (s.currentLinearAllocEnd + size - 1) (by omega) (by omega)).mpr hmapped
          have := hlast _ hend
          omega
        · exact hzero hz
    · rw [if_neg hle]
      rw [not_le] at hle
      have hnot := h.not_free_of_inside hsplit hle hp
      cases r with
      | nil =>
        -- the last block is none that the loop could leave by
        refine .inr (.inl ⟨rfl, .inr (.inl ⟨?_, fun y hy => ?_⟩)⟩)
        · obtain ⟨x, hx, hxlive⟩ := not_disjoint_iff.mp hnot
          exact ⟨x, hxlive, hx.1⟩
        · by_contra hge
          exact h.not_mem_of_last hsplit (by omega) hy
      | cons c r =>
        obtain ⟨hwhere, htaken⟩ := h.skipMappings_spec hsize hsplit
        have hcv := hafter c (by simp)
        refine .inr (.inr ⟨?_, htaken, ?_, hnot⟩)
        · rcases hwhere with heq | heq
          · rw [heq]
            omega
          · rw [heq]
            omega
        · rintro (hfull | ⟨-, hlast⟩ | ⟨hz, hfree⟩)
          · omega
          · obtain ⟨y, hy, hcy⟩ := h.exists_above hsplit
            have := hlast y hy
            omega
          · rw [hz, zero_add] at hnot
            exact hnot hfree
  · refine ⟨0, ?_, .inr (.inl ⟨rfl, .inl (by omega)⟩)⟩
    rw [linearStart, if_neg (by rw [hiff]; exact hroom)]
    rfl

/-- Where the second pass begins, the range that comes next is not one to take. -/
theorem not_free_of_searches (hsearches : s.Searches live size) :
    ¬(s.currentLinearAllocEnd ≠ 0 ∧ s.currentLinearAllocEnd + size ≤ s.vaLimit ∧
      Disjoint (Set.Ico s.currentLinearAllocEnd (s.currentLinearAllocEnd + size)) live) := by
  rintro ⟨hne, hroom, hfree⟩
  rcases hsearches with hfull | ⟨⟨x, hx, hle⟩, hlast⟩ | ⟨hz, -⟩
  · omega
  · have := hlast x hx
    exact not_disjoint_Ico hx hle (by omega) hfree
  · exact hne hz

/-- What is allocated after a call. -/
def grown (live : Set Nat) (result size : Nat) : Set Nat :=
  if result = 0 then live else live ∪ Set.Ico result (result + size)

section

variable (h : s.Tracks live) (hsize : 0 < size)
include h hsize

theorem Tracks.allocateGap_tracks {result : Nat} {s' : FlatAllocator}
    (hresult : s.allocateGap size = .ok (result, s')) : s'.Tracks (grown live result size) := by
  rcases h.search_spec hsize with ⟨-, herror⟩ | ⟨-, found, hfound, hsome, -⟩
  · rw [allocateGap, herror] at hresult
    cases hresult
  · rw [allocateGap, hfound] at hresult
    cases found with
    | none =>
      cases hresult
      rwa [grown, if_pos rfl]
    | some v =>
      obtain ⟨⟨-, ⟨x, -, hx⟩, ⟨y, hy, hvy⟩⟩, -⟩ := hsome v rfl
      obtain ⟨s'', hs'', htracks⟩ := h.mapRange_spec (show 0 < v by omega) hsize
        (le_of_lt (lt_of_le_of_lt hvy (h.below y hy)))
      replace hresult : (s.mapRange v size >>= fun s => pure (v, s)) =
          Except.ok (result, s') := hresult
      rw [hs''] at hresult
      cases hresult
      rwa [grown, if_neg (by omega)]

/-- The first pass takes a range that is free. -/
theorem Tracks.allocateLinear_spec
    (hne : s.currentLinearAllocEnd ≠ 0) (hroom : s.currentLinearAllocEnd + size ≤ s.vaLimit) :
    ∃ s', s.allocateLinear s.currentLinearAllocEnd size = .ok (s.currentLinearAllocEnd, s') ∧
      s'.Tracks (grown live s.currentLinearAllocEnd size) := by
  have hend := (virtEnd_eq hroom).1
  have hstart := h.start
  have h₁ : { s with
      currentLinearAllocEnd := (s.currentLinearAllocEnd + size) % 2 ^ s.vaBits }.Tracks live :=
    ⟨h.wellFormed, h.live_iff, h.zero, h.below, by simp only [hend]; omega, by simp only [hend]; omega⟩
  obtain ⟨s', hs', htracks⟩ := h₁.mapRange_spec (pos_of_ne_zero hne) hsize hroom
  refine ⟨s', by rw [allocateLinear, hs']; rfl, ?_⟩
  rwa [grown, if_neg hne]

theorem Tracks.allocate_iff (hwidth : size < 2 ^ s.vaBits) :
    s.Right live size (s.allocate size) ↔ s.AllocateSound live size := by
  obtain ⟨allocStart, hstart, ⟨rfl, hne, hroom, hfree⟩ | ⟨rfl, hsearches⟩ |
    ⟨hne, htaken, hnosearch, hnot⟩⟩ := h.linearStart_cases hsize hwidth
  · refine iff_of_true ?_ (.inl ⟨hne, hroom, hfree⟩)
    obtain ⟨s', hs', -⟩ := h.allocateLinear_spec hsize hne hroom
    refine ⟨_, s', ?_, fun _ => ⟨h.start, hroom, hfree⟩, fun hzero => absurd hzero hne⟩
    rw [allocate, hstart]
    exact (if_pos hne).trans hs'
  · have hgap : s.allocate size = s.allocateGap size := by
      rw [allocate, hstart]
      rfl
    rw [hgap, h.allocateGap_iff hsize, AllocateSound, or_iff_right (not_free_of_searches hsearches)]
    exact (and_iff_right hsearches).symm
  · refine iff_of_false ?_ ?_
    · rintro ⟨result, s', hresult, hright, -⟩
      have heq : result = allocStart := by
        rw [allocate, hstart] at hresult
        replace hresult := (if_pos hne).symm.trans hresult
        rw [allocateLinear] at hresult
        cases hmap : { s with
          currentLinearAllocEnd := (allocStart + size) % 2 ^ s.vaBits }.mapRange allocStart size with
        | error e =>
          rw [hmap] at hresult
          cases hresult
        | ok s'' =>
          rw [hmap] at hresult
          cases hresult
          rfl
      subst heq
      exact htaken (hright hne).2.2
    · rintro (⟨-, -, hfree⟩ | ⟨hsearches, -⟩)
      · exact hnot hfree
      · exact hnosearch hsearches

theorem Tracks.allocate_tracks (hwidth : size < 2 ^ s.vaBits)
    (hsound : s.AllocateSound live size) {result : Nat} {s' : FlatAllocator}
    (hresult : s.allocate size = .ok (result, s')) : s'.Tracks (grown live result size) := by
  obtain ⟨allocStart, hstart, ⟨rfl, hne, hroom, hfree⟩ | ⟨rfl, hsearches⟩ |
    ⟨-, -, hnosearch, hnot⟩⟩ := h.linearStart_cases hsize hwidth
  · obtain ⟨s'', hs'', htracks⟩ := h.allocateLinear_spec hsize hne hroom
    rw [allocate, hstart] at hresult
    replace hresult := ((if_pos hne).trans hs'').symm.trans hresult
    cases hresult
    exact htracks
  · rw [allocate, hstart] at hresult
    exact h.allocateGap_tracks hsize hresult
  · rcases hsound with ⟨-, -, hfree⟩ | ⟨hsearches, -⟩
    · exact absurd hfree hnot
    · exact absurd hsearches hnosearch

end

end Blocks

/-! ## Runs -/

/-- The states of the runs whose operations the code gets right, with the addresses that are allocated:
those whose last operation was an allocation. -/
inductive Reachable : FlatAllocator → Set Nat → Prop where
  | start {s : FlatAllocator} (hblocks : s.blocks = [⟨0, false, ()⟩])
      (hend : s.currentLinearAllocEnd = s.virtStart) (hwidth : s.virtStart < 2 ^ s.vaBits) :
      Reachable s ∅
  | allocate {s s' : FlatAllocator} {live : Set Nat} {size result : Nat} (h : Reachable s live)
      (hsize : 0 < size) (hwidth : size < 2 ^ s.vaBits) (hsound : s.AllocateSound live size)
      (hs' : s.allocate size = .ok (result, s')) : Reachable s' (grown live result size)
  | allocateFixed {s s' : FlatAllocator} {live : Set Nat} {virt size : Nat} (h : Reachable s live)
      (hvirt : 0 < virt) (hsize : 0 < size) (hlimit : virt + size ≤ s.vaLimit)
      (hs' : s.allocateFixed virt size = .ok s') :
      Reachable s' (live ∪ Set.Ico virt (virt + size))
  | free {s s' : FlatAllocator} {live : Set Nat} {virt size : Nat} (h : Reachable s live)
      (hvirt : 0 < virt) (hlimit : virt + size ≤ s.vaLimit)
      (hsound : UnmapSound allocation s.blocks virt (virt + size))
      (hs' : s.free virt size = .ok s') : Reachable s' (live \ Set.Ico virt (virt + size))

variable {s : FlatAllocator} {live : Set Nat}

theorem Reachable.tracks (h : Reachable s live) : s.Tracks live := by
  induction h with
  | start hblocks hend hwidth =>
    refine ⟨?_, fun va => ?_, notMem_empty 0, fun va hva => absurd hva (notMem_empty va),
      hend.ge, hend ▸ hwidth⟩
    · rw [hblocks]
      exact ⟨⟨_, rfl, rfl⟩, List.isChain_singleton _, fun b hb => Option.some.inj hb ▸ rfl⟩
    · have hfirst : Block.Unmapped allocation (⟨0, false, ()⟩ : Block Bool Unit) := rfl
      rw [hblocks, mappingAt_cons_unmapped hfirst]
      exact iff_of_false (notMem_empty va) fun hne => hne rfl
  | allocate _ hsize hwidth hsound hs' ih => exact ih.allocate_tracks hsize hwidth hsound hs'
  | allocateFixed _ hvirt hsize hlimit hs' ih =>
    obtain ⟨s'', hs'', htracks⟩ := ih.mapRange_spec hvirt hsize hlimit
    rw [FlatAllocator.allocateFixed, hs''] at hs'
    cases hs'
    exact htracks
  | free _ hvirt hlimit hsound hs' ih =>
    obtain ⟨s'', hs'', htracks⟩ := ih.free_spec hvirt hlimit hsound
    rw [hs''] at hs'
    cases hs'
    exact htracks

/-- In every run of operations that the code gets right, of the allocations that may come next the code
gets exactly those right that `AllocateSound` describes, and fixed allocations and those releases that
`UnmapSound` describes succeed. -/
theorem reachable_allocate_iff (h : Reachable s live) :
    (∀ size, 0 < size → size < 2 ^ s.vaBits →
      (s.Right live size (s.allocate size) ↔ s.AllocateSound live size)) ∧
    (∀ virt size, 0 < virt → 0 < size → virt + size ≤ s.vaLimit →
      ∃ s', s.allocateFixed virt size = .ok s' ∧ Reachable s' (live ∪ Set.Ico virt (virt + size))) ∧
    ∀ virt size, 0 < virt → virt + size ≤ s.vaLimit →
      UnmapSound allocation s.blocks virt (virt + size) →
      ∃ s', s.free virt size = .ok s' ∧ Reachable s' (live \ Set.Ico virt (virt + size)) := by
  have htracks := h.tracks
  refine ⟨fun size hsize hwidth => htracks.allocate_iff hsize hwidth,
    fun virt size hvirt hsize hlimit => ?_, fun virt size hvirt hlimit hsound => ?_⟩
  · obtain ⟨s', hs', -⟩ := htracks.mapRange_spec hvirt hsize hlimit
    exact ⟨s', hs', h.allocateFixed hvirt hsize hlimit hs'⟩
  · obtain ⟨s', hs', -⟩ := htracks.free_spec hvirt hlimit hsound
    exact ⟨s', hs', h.free hvirt hlimit hsound hs'⟩

/-- A `FlatAllocator<u32, 0, 32>` of pages, from page 1 on, with given blocks. -/
def fromPage (blocks : List (Block Bool Unit)) : FlatAllocator :=
  ⟨flatAllocator blocks, 1, 1⟩

theorem reachable_fromPage : Reachable (fromPage [⟨0, false, ()⟩]) ∅ :=
  .start rfl rfl (by decide)

theorem reachable_allocate_iff_fromPage :
    (fromPage [⟨0, false, ()⟩]).Right ∅ 1 ((fromPage [⟨0, false, ()⟩]).allocate 1) := by
  refine ((reachable_allocate_iff reachable_fromPage).1 1 (by decide) (by decide)).mpr ?_
  exact .inl ⟨by decide, by decide, disjoint_empty _⟩

/-- `Allocate` takes the region that `AllocateFixed` has just taken. -/
theorem allocate_takes_fixed_region :
    Reachable (fromPage [⟨0, false, ()⟩, ⟨1, true, ()⟩, ⟨2, false, ()⟩])
      (∅ ∪ Set.Ico 1 (1 + 1)) ∧
    (∃ s', (fromPage [⟨0, false, ()⟩, ⟨1, true, ()⟩, ⟨2, false, ()⟩]).allocate 1 = .ok (1, s')) ∧
    ¬Disjoint (Set.Ico 1 (1 + 1)) (∅ ∪ Set.Ico 1 (1 + 1)) ∧
    ¬(fromPage [⟨0, false, ()⟩, ⟨1, true, ()⟩, ⟨2, false, ()⟩]).Right
      (∅ ∪ Set.Ico 1 (1 + 1)) 1
      ((fromPage [⟨0, false, ()⟩, ⟨1, true, ()⟩, ⟨2, false, ()⟩]).allocate 1) := by
  have hoverlap : ¬Disjoint (Set.Ico 1 (1 + 1))
      (∅ ∪ Set.Ico 1 (1 + 1) : Set Nat) :=
    not_disjoint_iff.mpr ⟨1, ⟨le_rfl, by decide⟩, .inr ⟨le_rfl, by decide⟩⟩
  have hfixed : (fromPage [⟨0, false, ()⟩]).allocateFixed 1 1 =
      .ok (fromPage [⟨0, false, ()⟩, ⟨1, true, ()⟩, ⟨2, false, ()⟩]) := rfl
  refine ⟨reachable_fromPage.allocateFixed (by decide) (by decide) (by decide) hfixed, ⟨_, rfl⟩,
    hoverlap, ?_⟩
  rintro ⟨result, s', hresult, hright, -⟩
  cases hresult
  exact hoverlap (hright (by decide)).2.2

end FlatAllocator

end Sudachi.Common
