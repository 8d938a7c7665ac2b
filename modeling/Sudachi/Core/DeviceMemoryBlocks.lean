import Sudachi.Core.DeviceMemoryReverse
import Sudachi.Foundations.BlockAccess
import Mathlib.Data.BitVec

/-!
# Block accesses to device memory

`WalkBlock`, `ReadBlockUnsafe`, `WriteBlockUnsafe` and `GetSpan` of `device_memory_manager.inc` trust the
runs of pages in `continuity_tracker`. They agree with `GetPointer` page by page exactly if every run
describes its pages (`pageWise_iff_runsFit`). `Unmap` leaves the runs as they are, and a `Map` that
does not track its pages does too: `throughout_pageWise_iff` says which calls keep the runs fit.
-/

set_option autoImplicit false

namespace Sudachi.Core.DeviceMemoryManager

open Sudachi.Foundations Sudachi.Foundations.BlockAccess Sudachi.Foundations.Runs DeviceMemory List Nat Option Function
open Nat (add_mul add_zero two_pow_pos)

/-- `GetPointer`. -/
def getPointer (d : DeviceMemoryManager) (address : Nat) : Option Nat :=
  let physAddr := d.compressedPhysicalPtr (address >>> pageBits)
  if physAddr = 0 then none else some ((physAddr - 1) <<< pageBits + address % pageSize)

/-- The loop of `WalkBlock`: the amounts that it hands on, with the pointer for `on_memory` or none for
`on_unmapped`. Each turn takes one byte at least, so that the size is fuel enough. -/
def walkPages (d : DeviceMemoryManager) : Nat → Nat → Nat → Nat → Option (List (Nat × Option Nat))
  | _, _, _, 0 => some []
  | 0, _, _, _ + 1 => none
  | fuel + 1, pageIndex, pageOffset, remainingSize =>
    let nextPages := d.continuityTracker pageIndex
    let copyAmount := min (nextPages <<< pageBits - pageOffset) remainingSize
    let physAddr := d.compressedPhysicalPtr pageIndex
    let memPtr := if physAddr = 0 then none else some ((physAddr - 1) <<< pageBits + pageOffset)
    (d.walkPages fuel (pageIndex + nextPages) 0 (remainingSize - copyAmount)).map
      ((copyAmount, memPtr) :: ·)

def walkBlock (d : DeviceMemoryManager) (address size : Nat) : Option (List (Nat × Option Nat)) :=
  d.walkPages size (address >>> pageBits) (address % pageSize) size

/-- `ReadBlockUnsafe`. -/
def readBlockUnsafe (d : DeviceMemoryManager) (memory : Nat → BitVec 8) (address size : Nat) :
    Option (List (BitVec 8)) :=
  (d.walkBlock address size).map (readSegments memory)

/-- `WriteBlockUnsafe`: the memory afterwards. -/
def writeBlockUnsafe (d : DeviceMemoryManager) (memory : Nat → BitVec 8) (address : Nat)
    (data : List (BitVec 8)) : Option (Nat → BitVec 8) :=
  (d.walkBlock address data.length).map fun segments => writeSegments memory segments data

/-- `GetSpan`. -/
def getSpan (d : DeviceMemoryManager) (address size : Nat) : Option Nat :=
  if size + address % pageSize ≤ d.continuityTracker (address >>> pageBits) <<< pageBits then
    d.getPointer address
  else none

/-- The pointer for each byte of a block. -/
def pointers (d : DeviceMemoryManager) (address size : Nat) : List (Option Nat) :=
  (List.range size).map fun i => d.getPointer (address + i)

/-- The block accesses in the address space of the device agree with those to single bytes. -/
structure PageWise (t : Traits) (d : DeviceMemoryManager) : Prop where
  read : ∀ memory address size, address + size ≤ t.deviceAsSize →
    d.readBlockUnsafe memory address size = some ((d.pointers address size).map (readTarget memory))
  write : ∀ memory address data, address + data.length ≤ t.deviceAsSize →
    d.writeBlockUnsafe memory address data =
      some (writeTargets memory (d.pointers address data.length) data)
  span : ∀ address size ptr, address + size ≤ t.deviceAsSize → d.getSpan address size = some ptr →
    ∀ i < size, d.getPointer (address + i) = some (ptr + i)

/-! ## Runs of pages -/

/-- The word of the page `j` pages behind a page with the word `physAddr` continues its memory, or lack
of memory. -/
def Continues (physAddr j next : Nat) : Prop :=
  if physAddr = 0 then next = 0 else next = physAddr + j

/-- The runs in the continuity table describe the pages that they go over. -/
def RunsFit (d : DeviceMemoryManager) : Prop :=
  ∀ page j, j < d.continuityTracker page →
    Continues (d.compressedPhysicalPtr page) j (d.compressedPhysicalPtr (page + j))

/-- No run is empty, and none leaves the device. -/
def RunsBounded (n : Nat) (d : DeviceMemoryManager) : Prop :=
  ∀ page, 1 ≤ d.continuityTracker page ∧ (page < n → page + d.continuityTracker page ≤ n) ∧
    (n ≤ page → d.continuityTracker page = 1)

variable {t : Traits} {d : DeviceMemoryManager} {n page address size : Nat}

theorem continues_zero {physAddr : Nat} : Continues physAddr 0 physAddr := by
  rw [Continues]
  split
  case isTrue h => exact h
  case isFalse => rfl

theorem runsFit_initial : initial.RunsFit := fun _ _ _ => rfl

theorem runsBounded_initial : initial.RunsBounded n :=
  fun _ => ⟨le_refl 1, fun h => h, fun _ => rfl⟩

theorem page_of_offset {offset : Nat} (h : offset < pageSize) (k : Nat) :
    (k * pageSize + offset) >>> pageBits = k ∧ (k * pageSize + offset) % pageSize = offset := by
  rw [shiftRight_eq_div_pow]
  have hsize : pageSize = 2 ^ pageBits := rfl
  rw [← hsize]
  have hpos : 0 < pageSize := two_pow_pos _
  rw [mul_comm, mul_add_div hpos, mul_add_mod, div_eq_of_lt h, mod_eq_of_lt h]
  exact ⟨rfl, rfl⟩

theorem address_split (address : Nat) :
    address >>> pageBits * pageSize + address % pageSize = address := by
  rw [shiftRight_eq_div_pow, mul_comm]
  exact div_add_mod address (2 ^ pageBits)

theorem offset_lt (address : Nat) : address % pageSize < pageSize :=
  mod_lt _ (two_pow_pos _)

/-- The pointer to a byte that lies some bytes behind a place in a page. -/
theorem getPointer_of_page (j offset : Nat) (h : offset < pageSize) :
    d.getPointer ((page + j) * pageSize + offset) =
      if d.compressedPhysicalPtr (page + j) = 0 then none
      else some ((d.compressedPhysicalPtr (page + j) - 1) <<< pageBits + offset) := by
  obtain ⟨hpage, hoffset⟩ := page_of_offset h (page + j)
  rw [getPointer, hpage, hoffset]

/-- The targets in a run that fits are the pointers to its bytes. -/
theorem RunsFit.segment (h : d.RunsFit) {offset i : Nat}
    (hi : offset + i < d.continuityTracker page <<< pageBits) :
    d.getPointer (page * pageSize + offset + i) = (if d.compressedPhysicalPtr page = 0 then none
        else some ((d.compressedPhysicalPtr page - 1) <<< pageBits + offset)).map (· + i) := by
  have hpos : 0 < pageSize := two_pow_pos _
  have hshift : ∀ k, k <<< pageBits = k * pageSize := fun k => shiftLeft_eq k pageBits
  obtain ⟨j, o, ho, hsplit⟩ : ∃ j o, o < pageSize ∧ offset + i = j * pageSize + o :=
    ⟨(offset + i) / pageSize, (offset + i) % pageSize, mod_lt _ hpos,
      by rw [mul_comm]; exact (div_add_mod _ _).symm⟩
  have hj : j < d.continuityTracker page := by
    rw [hshift, hsplit] at hi
    exact Nat.lt_of_mul_lt_mul_right (lt_of_le_of_lt (le_add_right _ o) hi)
  have haddress : page * pageSize + offset + i = (page + j) * pageSize + o := by
    rw [add_assoc, hsplit, add_mul, add_assoc]
  have hcontinues := h page j hj
  rw [haddress, getPointer_of_page j o ho]
  rw [Continues] at hcontinues
  by_cases hzero : d.compressedPhysicalPtr page = 0
  · rw [if_pos hzero] at hcontinues
    rw [if_pos hcontinues, if_pos hzero]
    rfl
  · obtain ⟨physPage, hphys⟩ := exists_eq_succ_of_ne_zero hzero
    have hnext : d.compressedPhysicalPtr (page + j) = physPage + j + 1 := by
      rw [if_neg hzero, hphys] at hcontinues
      omega
    have hplace : (physPage + j) * pageSize + o = physPage * pageSize + offset + i := by
      rw [add_mul, add_assoc, ← hsplit, ← add_assoc]
    rw [hnext, if_neg (succ_ne_zero _), hphys, if_neg (succ_ne_zero _), map_some,
      Nat.add_sub_cancel, succ_sub_one, hshift, hshift, hplace]

theorem pointers_succ_split {amount : Nat} (hle : amount ≤ size) : d.pointers address size =
      d.pointers address amount ++ d.pointers (address + amount) (size - amount) := by
  obtain ⟨rest, rfl⟩ := Nat.exists_eq_add_of_le hle
  rw [pointers, range_add, map_append, List.map_map, Nat.add_sub_cancel_left]
  refine congrArg₂ _ rfl (map_congr_left fun i _ => ?_)
  show d.getPointer (address + (amount + i)) = d.getPointer (address + amount + i)
  rw [add_assoc]

theorem walkPages_succ (fuel offset : Nat) : d.walkPages (fuel + 1) page offset (size + 1) =
    (d.walkPages fuel (page + d.continuityTracker page) 0
      (size + 1 - min (d.continuityTracker page <<< pageBits - offset) (size + 1))).map
        ((min (d.continuityTracker page <<< pageBits - offset) (size + 1),
          if d.compressedPhysicalPtr page = 0 then none
          else some ((d.compressedPhysicalPtr page - 1) <<< pageBits + offset)) :: ·) := rfl

/-- If the runs fit, the walk finds the pointer to each byte. -/
theorem RunsFit.walkPages_spec (h : d.RunsFit) (hbounded : d.RunsBounded n) {fuel offset : Nat}
    (hoffset : offset < pageSize) (hfuel : size ≤ fuel) :
    ∃ segments, d.walkPages fuel page offset size = some segments ∧
      targets segments = d.pointers (page * pageSize + offset) size := by
  induction fuel generalizing page offset size with
  | zero =>
    obtain rfl := le_zero.mp hfuel
    exact ⟨[], by rw [walkPages], rfl⟩
  | succ fuel ih =>
    cases size with
    | zero => exact ⟨[], by rw [walkPages], rfl⟩
    | succ size =>
      have hrun := (hbounded page).1
      have hshift : d.continuityTracker page <<< pageBits =
          d.continuityTracker page * pageSize := shiftLeft_eq _ pageBits
      have hroom : pageSize ≤ d.continuityTracker page * pageSize := Nat.le_mul_of_pos_left _ hrun
      generalize hamount : min (d.continuityTracker page <<< pageBits - offset) (size + 1) = amount
      have hpos : 1 ≤ amount := by
        rw [← hamount, hshift]
        omega
      have hle : amount ≤ size + 1 := by omega
      obtain ⟨segments, hwalk, htargets⟩ := @ih
        (page + d.continuityTracker page) (size + 1 - amount) 0 (two_pow_pos _) (by omega)
      refine ⟨_, by rw [walkPages_succ, hamount, hwalk, map_some], ?_⟩
      rw [targets_cons, htargets, pointers_succ_split hle]
      refine congrArg₂ _ ?_ ?_
      · -- the bytes of the run itself
        rw [segmentTargets, pointers]
        refine map_congr_left fun i hi => ?_
        have hi := mem_range.mp hi
        exact (h.segment (by omega)).symm
      · rcases lt_or_ge amount (size + 1) with hlt | hge
        · have hend : amount = d.continuityTracker page * pageSize - offset := by omega
          refine congrArg (fun a => d.pointers a _) ?_
          rw [hend, add_mul]
          omega
        · simp [Nat.sub_eq_zero_of_le hge, pointers]

/-- The block accesses agree with those to single bytes if the runs fit. -/
theorem RunsFit.pageWise (h : d.RunsFit) (hbounded : d.RunsBounded n) : d.PageWise t := by
  have hwalk : ∀ address size, ∃ segments, d.walkBlock address size = some segments ∧
      targets segments = d.pointers address size := by
    intro address size
    obtain ⟨segments, hwalk, htargets⟩ := @walkPages_spec d n (address >>> pageBits) size h hbounded
      size (address % pageSize) (offset_lt address) le_rfl
    rw [address_split] at htargets
    exact ⟨segments, hwalk, htargets⟩
  constructor
  case read =>
    intro memory address size _
    obtain ⟨segments, hsegments, htargets⟩ := hwalk address size
    rw [readBlockUnsafe, hsegments, map_some, readSegments_eq, htargets]
  case write =>
    intro memory address data _
    obtain ⟨segments, hsegments, htargets⟩ := hwalk address data.length
    have hlength : (targets segments).length = data.length := by
      rw [htargets, pointers, length_map, length_range]
    rw [writeBlockUnsafe, hsegments, map_some, writeSegments_eq hlength, htargets]
  case span =>
    intro address size ptr _ hspan i hi
    rw [getSpan] at hspan
    split at hspan
    case isFalse => cases hspan
    case isTrue hle =>
      have hfirst := @RunsFit.segment d (address >>> pageBits) h (address % pageSize) 0 (by omega)
      have hbyte := @RunsFit.segment d (address >>> pageBits) h (address % pageSize) i (by omega)
      rw [address_split] at hfirst hbyte
      rw [add_zero, hspan] at hfirst
      rw [hbyte]
      obtain ⟨base, hbase, hptr⟩ := map_eq_some_iff.mp hfirst.symm
      rw [hbase, map_some, ← hptr, add_zero]

/-- A block that begins with a run is read from the memory of its first page. -/
theorem walkBlock_run {page j : Nat} (hj : j < d.continuityTracker page) :
    d.walkBlock (page * pageSize) ((j + 1) * pageSize) = some [((j + 1) * pageSize,
      if d.compressedPhysicalPtr page = 0 then none
      else some ((d.compressedPhysicalPtr page - 1) <<< pageBits))] := by
  have hpos : 0 < pageSize := two_pow_pos _
  obtain ⟨hpage, hoffset⟩ := page_of_offset hpos page
  rw [add_zero] at hpage hoffset
  have hsize : 0 < (j + 1) * pageSize := mul_pos (succ_pos j) hpos
  have hmin : min (d.continuityTracker page <<< pageBits - 0) ((j + 1) * pageSize) =
      (j + 1) * pageSize := by
    rw [Nat.sub_zero, shiftLeft_eq]
    exact min_eq_right (mul_le_mul_right _ hj)
  obtain ⟨size, hsucc⟩ := Nat.exists_eq_add_of_lt hsize
  rw [zero_add] at hsucc
  rw [walkBlock, hpage, hoffset]
  rw [hsucc] at hmin ⊢
  rw [walkPages_succ, hmin, Nat.sub_self]
  cases size <;> simp [walkPages]

/-- A run that does not fit is read wrongly from some memory. -/
theorem PageWise.runsFit (h : d.PageWise t) (hbounded : d.RunsBounded t.devicePages) :
    d.RunsFit := by
  intro page j hj
  by_cases hpage : page < t.devicePages
  case neg =>
    have hone := (hbounded page).2.2 (Nat.le_of_not_lt hpage)
    obtain rfl : j = 0 := by omega
    exact continues_zero
  case pos =>
    have hinside := (hbounded page).2.1 hpage
    have hpages : t.devicePages * pageSize ≤ t.deviceAsSize := by
      rw [Traits.devicePages, shiftRight_eq_div_pow]
      exact div_mul_le_self _ _
    have hblock : page * pageSize + (j + 1) * pageSize ≤ t.deviceAsSize := by
      rw [← add_mul]
      exact le_trans (mul_le_mul_right _ (by omega)) hpages
    have htargets : targets [((j + 1) * pageSize, if d.compressedPhysicalPtr page = 0 then none
        else some ((d.compressedPhysicalPtr page - 1) <<< pageBits))] =
        d.pointers (page * pageSize) ((j + 1) * pageSize) := by
      refine targets_eq_of_read ⟨(1 : BitVec 8), by decide⟩ fun memory => ?_
      have hread := h.read memory _ _ hblock
      rw [readBlockUnsafe, walkBlock_run hj, map_some, some.injEq] at hread
      rw [← readSegments_eq, hread]
    have hpos : 0 < pageSize := two_pow_pos _
    have hlt : j * pageSize < (j + 1) * pageSize := Nat.mul_lt_mul_of_pos_right (lt_succ_self j) hpos
    have hbyte := congrArg (fun l => l[j * pageSize]?) htargets
    have haddress : page * pageSize + j * pageSize = (page + j) * pageSize + 0 := by
      rw [add_zero, add_mul]
    simp only [targets_cons, targets_nil, append_nil, segmentTargets, pointers,
      getElem?_map, getElem?_range hlt, map_some, some.injEq, haddress] at hbyte
    rw [getPointer_of_page j 0 hpos] at hbyte
    rw [Continues]
    split
    case isTrue hzero =>
      by_contra hnext
      rw [if_pos hzero, if_neg hnext] at hbyte
      cases hbyte
    case isFalse hzero =>
      rw [if_neg hzero] at hbyte
      by_cases hnext : d.compressedPhysicalPtr (page + j) = 0
      · rw [if_pos hnext] at hbyte
        cases hbyte
      · rw [if_neg hnext, map_some, some.injEq, shiftLeft_eq, shiftLeft_eq,
          add_zero] at hbyte
        have hword : d.compressedPhysicalPtr page - 1 + j = d.compressedPhysicalPtr (page + j) - 1 := by
          refine eq_of_mul_eq_mul_right hpos ?_
          rw [add_mul]
          exact hbyte
        omega

/-! ## What a call does to the tables -/

/-- The page lies in a range of a first page and a number of pages. -/
def Within (range : Nat × Nat) (page : Nat) : Prop := range.1 ≤ page ∧ page < range.1 + range.2

instance (range : Nat × Nat) (page : Nat) : Decidable (Within range page) :=
  inferInstanceAs (Decidable (_ ∧ _))

/-- The process maps the page behind page `i` of a range to the memory behind that page. -/
def FollowsNext (memory : Nat → Option Nat) (virtualAddress i : Nat) : Prop :=
  (memory (virtualAddress + i * pageSize)).isSome ∧
    (memory (virtualAddress + i * pageSize)).map (· + pageSize) =
      memory (virtualAddress + (i + 1) * pageSize)

instance (memory : Nat → Option Nat) (virtualAddress i : Nat) :
    Decidable (FollowsNext memory virtualAddress i) :=
  inferInstanceAs (Decidable (_ ∧ _))

/-- The word of a page after a call. -/
def Operation.wordAfter (d : DeviceMemoryManager) : Operation → Nat → Nat
  | .map memory address virtualAddress size _ _, page =>
    if Within (address >>> pageBits, pageCount size) page then
      physAddrOf (memory (virtualAddress + (page - address >>> pageBits) * pageSize))
    else d.compressedPhysicalPtr page
  | .trackContinuity _ _ _ _, page => d.compressedPhysicalPtr page
  | .unmap address size, page =>
    if Within (address >>> pageBits, pageCount size) page then 0 else d.compressedPhysicalPtr page

/-- The calls that keep the runs fit. `Unmap` takes the run of a mapped page as a whole or not at all. A
`Map` that tracks its pages replaces their runs, and the pages continue the runs of other pages that
reach to them; one that does not track them leaves the old runs, which fit the new pages too.
`TrackContinuity` is called where the pages are mapped as the process maps them. -/
def KeepsRuns (d : DeviceMemoryManager) (op : Operation) : Prop :=
  match op with
  | .map _ _ _ _ _ true => ∀ page j, j < d.continuityTracker page → ¬Within op.pages page →
      Within op.pages (page + j) →
      Continues (d.compressedPhysicalPtr page) j (op.wordAfter d (page + j))
  | .map _ _ _ _ _ false => ∀ page j, j < d.continuityTracker page →
      Within op.pages page ∨ Within op.pages (page + j) →
      Continues (op.wordAfter d page) j (op.wordAfter d (page + j))
  | .trackContinuity memory address virtualAddress size => ∀ i j, i + j < pageCount size →
      (∀ k < j, FollowsNext memory virtualAddress (i + k)) →
      Continues (d.compressedPhysicalPtr (address >>> pageBits + i)) j
        (d.compressedPhysicalPtr (address >>> pageBits + i + j))
  | .unmap _ _ => ∀ page j, j < d.continuityTracker page → d.compressedPhysicalPtr page ≠ 0 →
      (Within op.pages page ↔ Within op.pages (page + j))

variable {memory : Nat → Option Nat} {virtualAddress i j : Nat} {op : Operation}

/-- The loop of `Map` over the pages of a call, without the tracking. -/
def mapPages (d : DeviceMemoryManager) (memory : Nat → Option Nat)
    (startPage virtualAddress asid count : Nat) : DeviceMemoryManager :=
  (List.range count).foldl (fun d i =>
    let newVaddress := virtualAddress + i * pageSize
    d.mapPage (startPage + i) newVaddress asid (memory newVaddress)) d

theorem continuityTracker_mapPage {newVaddress asid : Nat} {ptr : Option Nat} :
    (d.mapPage page newVaddress asid ptr).continuityTracker = d.continuityTracker := by
  cases ptr <;> rfl

theorem mapPages_spec (startPage asid count : Nat) :
    (d.mapPages memory startPage virtualAddress asid count).continuityTracker =
        d.continuityTracker ∧
      ∀ page, (d.mapPages memory startPage virtualAddress asid count).compressedPhysicalPtr page =
        if Within (startPage, count) page then
          physAddrOf (memory (virtualAddress + (page - startPage) * pageSize))
        else d.compressedPhysicalPtr page := by
  refine foldl_pages (P := fun count d' => d'.continuityTracker = d.continuityTracker ∧
    ∀ page, d'.compressedPhysicalPtr page = if Within (startPage, count) page then
      physAddrOf (memory (virtualAddress + (page - startPage) * pageSize))
      else d.compressedPhysicalPtr page) ⟨rfl, fun page => ?_⟩ fun i d' _ h => ?_
  · rw [if_neg]
    rintro ⟨hle, hlt⟩
    exact absurd hlt (by omega)
  · refine ⟨by rw [continuityTracker_mapPage, h.1], fun page => ?_⟩
    rw [compressedPhysicalPtr_mapPage]
    by_cases hpage : page = startPage + i
    · subst hpage
      rw [update_self, if_pos ⟨by omega, by omega⟩, Nat.add_sub_cancel_left]
    · rw [update_of_ne hpage, h.2]
      have hiff : Within (startPage, i + 1) page ↔ Within (startPage, i) page := by
        simp only [Within]
        omega
      simp only [hiff]

theorem unmap_spec (address size : Nat) :
    (d.unmap address size).continuityTracker = d.continuityTracker ∧
      ∀ page, (d.unmap address size).compressedPhysicalPtr page =
        if Within (address >>> pageBits, pageCount size) page then 0
        else d.compressedPhysicalPtr page := by
  refine foldl_pages (P := fun count d' => d'.continuityTracker = d.continuityTracker ∧
    ∀ page, d'.compressedPhysicalPtr page = if Within (address >>> pageBits, count) page then 0
      else d.compressedPhysicalPtr page) ⟨rfl, fun page => ?_⟩ fun i d' _ h => ?_
  · rw [if_neg]
    rintro ⟨hle, hlt⟩
    exact absurd hlt (by omega)
  · refine ⟨h.1, fun page => ?_⟩
    rw [compressedPhysicalPtr_unmapPage]
    by_cases hpage : page = address >>> pageBits + i
    · subst hpage
      rw [update_self, if_pos ⟨by omega, by omega⟩]
    · rw [update_of_ne hpage, h.2]
      have hiff : Within (address >>> pageBits, i + 1) page ↔
          Within (address >>> pageBits, i) page := by
        simp only [Within]
        omega
      simp only [hiff]

/-- The length of the run of page `i` with `n` pages behind it. -/
def runFrom (memory : Nat → Option Nat) (virtualAddress : Nat) : Nat → Nat → Nat
  | 0, _ => 1
  | n + 1, i =>
    if FollowsNext memory virtualAddress i then runFrom memory virtualAddress n (i + 1) + 1 else 1

theorem lt_runFrom_iff {n : Nat} : j < runFrom memory virtualAddress n i ↔
    j ≤ n ∧ ∀ k < j, FollowsNext memory virtualAddress (i + k) := by
  induction n generalizing i j with
  | zero =>
    rw [runFrom]
    refine ⟨fun h => ⟨by omega, fun k hk => by omega⟩, fun h => by omega⟩
  | succ n ih =>
    rw [runFrom]
    cases j with
    | zero =>
      refine iff_of_true ?_ ⟨zero_le _, fun k hk => absurd hk (not_lt_zero k)⟩
      split
      · exact succ_pos _
      · exact one_pos
    | succ j =>
      split
      case isTrue hnext =>
        rw [Nat.add_lt_add_iff_right, ih, Nat.add_le_add_iff_right]
        refine and_congr_right fun _ => ⟨fun h k hk => ?_, fun h k hk => ?_⟩
        · cases k with
          | zero => exact hnext
          | succ k =>
            have hk := h k (by omega)
            rwa [add_assoc, add_comm 1] at hk
        · have hk := h (k + 1) (by omega)
          rwa [add_assoc, add_comm 1]
      case isFalse hnext =>
        exact iff_of_false (by omega) fun h => hnext (h.2 0 (succ_pos j))

theorem runFrom_le (n i : Nat) : 1 ≤ runFrom memory virtualAddress n i ∧
    runFrom memory virtualAddress n i ≤ n + 1 := by
  have hpos : 0 < runFrom memory virtualAddress n i :=
    lt_runFrom_iff.mpr ⟨zero_le n, fun k hk => absurd hk (not_lt_zero k)⟩
  refine ⟨hpos, ?_⟩
  have hlast := (lt_runFrom_iff.mp (sub_lt hpos one_pos)).1
  omega

/-- What the loop of `TrackContinuityImpl` leaves in the table, when it has come down to page `k`. -/
theorem trackPages_spec {startPage count k : Nat} {lastPtr : Option Nat} {pageCount : Nat}
    {tracker : Nat → Nat} (hcount : count < 2 ^ 32) (hk : k ≤ count)
    (hlast : lastPtr = if k < count then memory (virtualAddress + k * pageSize) else none)
    (hrun : k < count → pageCount = runFrom memory virtualAddress (count - 1 - k) k) (page : Nat) :
    trackPages memory startPage virtualAddress k lastPtr pageCount tracker page =
      if Within (startPage, k) page then
        runFrom memory virtualAddress (count - 1 - (page - startPage)) (page - startPage)
      else tracker page := by
  induction k generalizing lastPtr pageCount tracker with
  | zero =>
    rw [trackPages, if_neg]
    rintro ⟨hle, hlt⟩
    exact absurd hlt (by omega)
  | succ k ih =>
    have hpages : (if (memory (virtualAddress + k * pageSize)).isSome ∧
        (memory (virtualAddress + k * pageSize)).map (· + pageSize) = lastPtr then pageCount + 1
        else 1) = runFrom memory virtualAddress (count - 1 - k) k := by
      rcases lt_or_ge (k + 1) count with hlt | hge
      · have hlength : count - 1 - k = count - 1 - (k + 1) + 1 := by omega
        rw [hlast, if_pos hlt, hrun hlt, hlength, runFrom]
        rfl
      · have hzero : count - 1 - k = 0 := by omega
        have hlast : lastPtr = none := hlast.trans (if_neg (Nat.not_lt.mpr hge))
        rw [hlast, hzero, runFrom, if_neg]
        rintro ⟨hsome, hnone⟩
        rw [map_eq_none_iff] at hnone
        rw [hnone] at hsome
        cases hsome
    have hsmall := (@runFrom_le memory virtualAddress (count - 1 - k) k).2
    rw [trackPages, hpages, ih (by omega) (by rw [if_pos (by omega)]) fun _ => rfl]
    by_cases hpage : page = startPage + k
    · subst hpage
      rw [if_neg (by simp [Within]), update_self, if_pos ⟨by omega, by omega⟩,
        Nat.add_sub_cancel_left, mod_eq_of_lt (by omega)]
    · rw [update_of_ne hpage]
      have hiff : Within (startPage, k + 1) page ↔ Within (startPage, k) page := by
        simp only [Within]
        omega
      simp only [hiff]

/-- The table of runs after the pages of a range have been tracked. -/
theorem trackContinuity_spec (hsize : pageCount size < 2 ^ 32) (page : Nat) :
    (d.trackContinuity memory address virtualAddress size).continuityTracker page =
      if Within (address >>> pageBits, pageCount size) page then
        runFrom memory virtualAddress (pageCount size - 1 - (page - address >>> pageBits))
          (page - address >>> pageBits)
      else d.continuityTracker page := by
  refine trackPages_spec hsize le_rfl ?_ (fun h => absurd h (lt_irrefl _)) page
  rw [if_neg (lt_irrefl _)]

/-! ## Runs of calls -/

theorem Operation.Fits.pages_le (h : op.Fits t) : op.pages.1 + op.pages.2 ≤ t.devicePages := by
  cases op with
  | map => exact h.1
  | trackContinuity => exact h.1
  | unmap => exact h

theorem Operation.Fits.count_lt (h : op.Fits t) : op.pages.2 < 2 ^ 32 := by
  have hle := h.pages_le
  have hroom := devicePages_room t
  omega

theorem map_eq (memory : Nat → Option Nat) (virtualAddress asid : Nat) (track : Bool) :
    d.map memory address virtualAddress size asid track =
      if track then
        (d.mapPages memory (address >>> pageBits) virtualAddress asid (pageCount size)).trackContinuity
          memory address virtualAddress size
      else d.mapPages memory (address >>> pageBits) virtualAddress asid (pageCount size) := rfl

/-- The words of the pages after a call. -/
theorem compressedPhysicalPtr_apply (op : Operation) (page : Nat) :
    (d.apply op).compressedPhysicalPtr page = op.wordAfter d page := by
  cases op with
  | map memory address virtualAddress size asid track =>
    rw [apply, map_eq]
    cases track with
    | true => exact (mapPages_spec _ _ _).2 page
    | false => exact (mapPages_spec _ _ _).2 page
  | trackContinuity memory address virtualAddress size => rfl
  | unmap address size => exact (unmap_spec _ _).2 page

theorem RunsBounded.of_track (h : d.RunsBounded n) {d' : DeviceMemoryManager} {start count : Nat}
    (hinside : start + count ≤ n)
    (htrack : ∀ page, d'.continuityTracker page = if Within (start, count) page then
      runFrom memory virtualAddress (count - 1 - (page - start)) (page - start)
      else d.continuityTracker page) : d'.RunsBounded n := by
  intro page
  rw [htrack]
  split
  case isTrue hwithin =>
    obtain ⟨hle, hlt⟩ := hwithin
    obtain ⟨hpos, hlength⟩ :=
      @runFrom_le memory virtualAddress (count - 1 - (page - start)) (page - start)
    exact ⟨hpos, fun _ => by omega, fun hn => by omega⟩
  case isFalse => exact h page

theorem RunsBounded.apply (h : d.RunsBounded t.devicePages) (hfits : op.Fits t) :
    (d.apply op).RunsBounded t.devicePages := by
  have hle := hfits.pages_le
  have hsize := hfits.count_lt
  cases op with
  | map memory address virtualAddress size asid track =>
    have hmapped : (d.mapPages memory (address >>> pageBits) virtualAddress asid
        (pageCount size)).RunsBounded t.devicePages := by
      intro page
      rw [(mapPages_spec _ _ _).1]
      exact h page
    rw [DeviceMemoryManager.apply, map_eq]
    cases track with
    | true => exact hmapped.of_track hle (trackContinuity_spec hsize)
    | false => exact hmapped
  | trackContinuity memory address virtualAddress size =>
    exact h.of_track hle (trackContinuity_spec hsize)
  | unmap address size =>
    intro page
    rw [DeviceMemoryManager.apply, (unmap_spec _ _).1]
    exact h page

theorem physAddrOf_continues (hmemory : ∀ v raw, memory v = some raw → raw < t.physicalSize)
    (hfollows : ∀ k < j, FollowsNext memory virtualAddress (i + k)) :
    Continues (physAddrOf (memory (virtualAddress + i * pageSize))) j
      (physAddrOf (memory (virtualAddress + (i + j) * pageSize))) := by
  cases j with
  | zero => exact continues_zero
  | succ j =>
    obtain ⟨raw, hraw⟩ := isSome_iff_exists.mp (hfollows 0 (succ_pos j)).1
    have hnext : ∀ k ≤ j + 1,
        memory (virtualAddress + (i + k) * pageSize) = some (raw + k * pageSize) := by
      intro k
      induction k with
      | zero =>
        intro _
        rw [zero_mul, add_zero]
        exact hraw
      | succ k ih =>
        intro hk
        have hstep := (hfollows k (by omega)).2
        rw [ih (by omega), map_some, add_assoc i] at hstep
        rw [← hstep, add_mul, one_mul, add_assoc]
    have hlast := hnext (j + 1) le_rfl
    rw [add_zero] at hraw
    rw [hraw, hlast, physAddrOf_some (hmemory _ _ hraw), physAddrOf_some (hmemory _ _ hlast),
      Continues, if_neg (succ_ne_zero _), shiftRight_eq_div_pow, shiftRight_eq_div_pow,
      add_right_comm]
    exact congrArg Nat.succ (add_mul_div_right _ _ (two_pow_pos pageBits))

/-- The runs fit after a call exactly if the call keeps them so. -/
theorem runsFit_apply_iff (h : d.RunsFit) (hfits : op.Fits t) :
    (d.apply op).RunsFit ↔ KeepsRuns d op := by
  have hsize := hfits.count_lt
  rw [RunsFit]
  simp only [compressedPhysicalPtr_apply]
  cases op with
  | map memory address virtualAddress size asid track =>
    have hmapped := @mapPages_spec d memory virtualAddress (address >>> pageBits) asid (pageCount size)
    have houtside : ∀ page j, j < d.continuityTracker page →
        ¬Within (address >>> pageBits, pageCount size) page →
        ¬Within (address >>> pageBits, pageCount size) (page + j) →
        Continues ((Operation.map memory address virtualAddress size asid track).wordAfter d page) j
          ((Operation.map memory address virtualAddress size asid track).wordAfter d (page + j)) := by
      intro page j hj hpage hnext
      rw [Operation.wordAfter, Operation.wordAfter, if_neg hpage, if_neg hnext]
      exact h page j hj
    cases track with
    | true =>
      rw [apply, map_eq, if_pos rfl]
      simp only [trackContinuity_spec hsize, hmapped.1]
      constructor
      case mp =>
        intro hruns page j hj hpage _
        have hpage : ¬Within (address >>> pageBits, pageCount size) page := hpage
        have hfit := hruns page j (by rwa [if_neg hpage])
        rwa [Operation.wordAfter, if_neg hpage] at hfit
      case mpr =>
        intro hkeeps page j hj
        by_cases hpage : Within (address >>> pageBits, pageCount size) page
        case neg =>
          rw [if_neg hpage] at hj
          by_cases hnext : Within (address >>> pageBits, pageCount size) (page + j)
          · rw [Operation.wordAfter, if_neg hpage]
            exact hkeeps page j hj hpage hnext
          · exact houtside page j hj hpage hnext
        case pos =>
          rw [if_pos hpage] at hj
          obtain ⟨hle, hfollows⟩ := lt_runFrom_iff.mp hj
          have hfirst : address >>> pageBits ≤ page := hpage.1
          have hlast : page < address >>> pageBits + pageCount size := hpage.2
          have hnext : Within (address >>> pageBits, pageCount size) (page + j) :=
            ⟨le_trans hfirst (le_add_right _ _), show _ < _ + _ by omega⟩
          have hdistance : page + j - address >>> pageBits = page - address >>> pageBits + j := by
            omega
          rw [Operation.wordAfter, Operation.wordAfter, if_pos hpage, if_pos hnext, hdistance]
          exact physAddrOf_continues hfits.2 hfollows
    | false =>
      rw [apply, map_eq, if_neg (by decide)]
      simp only [hmapped.1]
      constructor
      case mp => exact fun hruns page j hj _ => hruns page j hj
      case mpr =>
        intro hkeeps page j hj
        by_cases hmeets : Within (address >>> pageBits, pageCount size) page ∨
            Within (address >>> pageBits, pageCount size) (page + j)
        · exact hkeeps page j hj hmeets
        · obtain ⟨hpage, hnext⟩ := not_or.mp hmeets
          exact houtside page j hj hpage hnext
  | trackContinuity memory address virtualAddress size =>
    rw [apply]
    simp only [trackContinuity_spec hsize, Operation.wordAfter]
    constructor
    case mp =>
      intro hruns i j hij hfollows
      refine hruns (address >>> pageBits + i) j ?_
      rw [if_pos ⟨le_add_right _ _, Nat.add_lt_add_left (by omega) _⟩, Nat.add_sub_cancel_left]
      exact lt_runFrom_iff.mpr ⟨by omega, hfollows⟩
    case mpr =>
      intro hkeeps page j hj
      by_cases hpage : Within (address >>> pageBits, pageCount size) page
      case neg =>
        rw [if_neg hpage] at hj
        exact h page j hj
      case pos =>
        rw [if_pos hpage] at hj
        obtain ⟨hle, hfollows⟩ := lt_runFrom_iff.mp hj
        have hfirst : address >>> pageBits ≤ page := hpage.1
        have hlast : page < address >>> pageBits + pageCount size := hpage.2
        have hfit := hkeeps (page - address >>> pageBits) j (by omega) hfollows
        rwa [Nat.add_sub_cancel' hfirst] at hfit
  | unmap address size =>
    rw [apply]
    simp only [(unmap_spec address size).1]
    constructor
    case mp =>
      intro hruns page j hj hmapped
      have hfit := hruns page j hj
      have hold := h page j hj
      rw [Continues, if_neg hmapped] at hold
      rw [Operation.wordAfter, Operation.wordAfter] at hfit
      show Within (address >>> pageBits, pageCount size) page ↔
        Within (address >>> pageBits, pageCount size) (page + j)
      by_cases hpage : Within (address >>> pageBits, pageCount size) page <;>
        by_cases hnext : Within (address >>> pageBits, pageCount size) (page + j)
      · exact iff_of_true hpage hnext
      · rw [if_pos hpage, if_neg hnext, Continues, if_pos rfl] at hfit
        omega
      · rw [if_neg hpage, if_pos hnext, Continues, if_neg hmapped] at hfit
        omega
      · exact iff_of_false hpage hnext
    case mpr =>
      intro hkeeps page j hj
      have hold := h page j hj
      rw [Operation.wordAfter, Operation.wordAfter]
      by_cases hmapped : d.compressedPhysicalPtr page = 0
      · rw [Continues, if_pos hmapped] at hold
        rw [hmapped, hold, ite_self, ite_self]
        exact rfl
      · have hiff : Within (address >>> pageBits, pageCount size) page ↔
            Within (address >>> pageBits, pageCount size) (page + j) := hkeeps page j hj hmapped
        by_cases hpage : Within (address >>> pageBits, pageCount size) page
        · rw [if_pos hpage, if_pos (hiff.mp hpage)]
          exact rfl
        · rw [if_neg hpage, if_neg (mt hiff.mpr hpage)]
          exact hold

/-- The block accesses agree with those to single bytes in every state of a run of calls exactly if each
call keeps the runs fit. -/
theorem throughout_pageWise_iff (t : Traits) (ops : List Operation)
    (hfits : Along apply (fun _ op => op.Fits t) initial ops) :
    Throughout apply (PageWise t) initial ops ↔ Along apply KeepsRuns initial ops :=
  throughout_iff_along (I := fun d => d.RunsFit ∧ d.RunsBounded t.devicePages)
    (fun _ h => h.1.pageWise h.2)
    (fun _ _ h hfits hkeeps => ⟨(runsFit_apply_iff h.1 hfits).mpr hkeeps, h.2.apply hfits⟩)
    (fun _ _ h hfits hbreaks hpages =>
      hbreaks ((runsFit_apply_iff h.1 hfits).mp (hpages.runsFit (h.2.apply hfits))))
    ⟨runsFit_initial, runsBounded_initial⟩ hfits

/-- Two device pages are mapped in one run, and unmapped from the page `first` on. -/
def trackedRun (first count : Nat) : List Operation :=
  [.map (fun v => if v < 2 * pageSize then some v else none) pageSize 0 (2 * pageSize) 0 true,
    .unmap (first * pageSize) (count * pageSize)]

theorem trackedRun_fits {first count : Nat} (h : first + count ≤ 3) :
    Along apply (fun _ op => op.Fits maxwellDeviceTraits) initial (trackedRun first count) := by
  have hstart : (first * pageSize) >>> pageBits = first := by
    rw [shiftRight_eq_div_pow]
    exact Nat.mul_div_cancel _ (two_pow_pos _)
  have hcount : pageCount (count * pageSize) = count := by
    rw [pageCount, Common.alignUp_eq_of_dvd (dvd_mul_left _ _), shiftRight_eq_div_pow]
    exact Nat.mul_div_cancel _ (two_pow_pos _)
  refine ⟨⟨?_, fun v raw hraw => ?_⟩, ?_, trivial⟩
  · rw [devicePages_maxwell]
    decide
  · have hraw : (if v < 2 * pageSize then some v else none) = some raw := hraw
    split at hraw
    case isTrue hlt =>
      rw [← some.inj hraw]
      exact lt_of_lt_of_le hlt (by decide)
    case isFalse => cases hraw
  · show (first * pageSize) >>> pageBits + pageCount (count * pageSize) ≤ _
    rw [hstart, hcount, devicePages_maxwell]
    omega

theorem throughout_pageWise_trackedRun :
    Throughout apply (PageWise maxwellDeviceTraits) initial (trackedRun 1 2) := by
  refine (throughout_pageWise_iff maxwellDeviceTraits _ (trackedRun_fits (by decide))).mpr
    ⟨fun page j hj hpage hnext => ?_, fun page j hj _ => ?_, trivial⟩
  · have hzero : j = 0 := lt_one_iff.mp hj
    subst hzero
    exact absurd hnext hpage
  · rw [apply, map_eq, if_pos rfl, trackContinuity_spec (by decide), (mapPages_spec _ _ _).1] at hj
    have hone : pageSize >>> pageBits = 1 := by decide
    have htwo : pageCount (2 * pageSize) = 2 := by decide
    rw [hone, htwo] at hj
    show Within ((1 * pageSize) >>> pageBits, pageCount (2 * pageSize)) page ↔
      Within ((1 * pageSize) >>> pageBits, pageCount (2 * pageSize)) (page + j)
    rw [Nat.one_mul, hone, htwo]
    split at hj
    case isTrue hwithin =>
      have hlength := (lt_runFrom_iff.mp hj).1
      obtain ⟨hfirst, hlast⟩ := hwithin
      have hfirst : 1 ≤ page := hfirst
      have hlast : page < 1 + 2 := hlast
      exact iff_of_true ⟨hfirst, hlast⟩ ⟨show 1 ≤ page + j by omega, show page + j < 1 + 2 by omega⟩
    case isFalse =>
      have hzero : j = 0 := lt_one_iff.mp hj
      subst hzero
      exact Iff.rfl

/-- The second of two pages in one run is unmapped. The run of the first still goes over it, and a block
that begins there reads the memory of the page that is no longer mapped. -/
theorem unmap_leaves_run :
    Along apply (fun _ op => op.Fits maxwellDeviceTraits) initial (trackedRun 2 1) ∧
      ¬Throughout apply (PageWise maxwellDeviceTraits) initial (trackedRun 2 1) := by
  have hfits : Along apply (fun _ op => op.Fits maxwellDeviceTraits) initial (trackedRun 2 1) :=
    trackedRun_fits (by decide)
  refine ⟨hfits, fun h => ?_⟩
  obtain ⟨-, -, hpages⟩ := h
  have hbounded := (runsBounded_initial.apply hfits.1).apply hfits.2.1
  have hcontinues := hpages.runsFit hbounded 1 1 (by decide)
  rw [Continues, if_neg (by decide)] at hcontinues
  exact absurd hcontinues (by decide)

end Sudachi.Core.DeviceMemoryManager
