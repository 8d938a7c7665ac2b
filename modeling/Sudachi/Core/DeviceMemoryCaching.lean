import Sudachi.Core.DeviceMemoryManager
import Mathlib.Data.List.Range

/-!
# Counts of cached device pages

`UpdatePagesCachedCount` of `device_memory_manager.inc` counts the caches that hold a device page,
and has the pages whose count leaves or comes back to zero marked in the process behind them,
several at once where their virtual pages follow each other. This module holds the walk over the
pages and its pending regions: releasing a region and joining one neither loses nor repeats a page.
-/

set_option autoImplicit false

namespace Sudachi.Core.DeviceMemory

open List Function
open Function (update)

/-- The table of CPU backings, and the memory interface of each process that is registered. -/
structure CpuBackings (P : Type) where
  cpuBackingAddress : Nat → Nat
  registeredProcesses : Nat → Option P

/-- A call of `MarkRegionCaching`; the interface is `none` where it is the null pointer. -/
structure Mark (P : Type) where
  memory : Option P
  address : Nat
  size : Nat
  caching : Bool

namespace CpuBackings

variable {P : Type}

/-- `ExtractCPUBacking`: the process of a device page. -/
def asid (b : CpuBackings P) (page : Nat) : Nat := b.cpuBackingAddress page >>> 39

/-- `ExtractCPUBacking`: the virtual page of a device page, zero where there is none. -/
def vpage (b : CpuBackings P) (page : Nat) : Nat :=
  (b.cpuBackingAddress page &&& (2 ^ 39 - 1)) >>> pageBits

/-- The device page is backed. -/
def Backed (b : CpuBackings P) (page : Nat) : Prop := b.vpage page ≠ 0

instance (b : CpuBackings P) (page : Nat) : Decidable (b.Backed page) :=
  inferInstanceAs (Decidable (_ ≠ _))

end CpuBackings

/-- The variables of `UpdatePagesCachedCount`. The pending regions are `uncache_begin` and
`uncache_bytes` at `false`, `cache_begin` and `cache_bytes` at `true`. -/
structure CachingWalk (P : Type) where
  counts : Nat → BitVec 8
  regionBegin : Bool → Nat
  regionBytes : Bool → Nat
  memoryDeviceInter : Option P
  oldVpage : Nat
  marks : List (Mark P)

namespace CachingWalk

variable {P : Type}

/-- Mark a pending region. -/
def mark (w : CachingWalk P) (caching : Bool) : CachingWalk P :=
  { w with marks := w.marks ++ [⟨w.memoryDeviceInter, w.regionBegin caching <<< pageBits,
      w.regionBytes caching, caching⟩] }

def clear (w : CachingWalk P) (caching : Bool) : CachingWalk P :=
  { w with regionBytes := update w.regionBytes caching 0 }

/-- One half of `release_pending`. -/
def release (w : CachingWalk P) (caching : Bool) : CachingWalk P :=
  if 0 < w.regionBytes caching then
    (if w.memoryDeviceInter.isSome then w.mark caching else w).clear caching
  else w

def releasePending (w : CachingWalk P) : CachingWalk P := (w.release false).release true

/-- A page joins a pending region, or the region is marked. -/
def advance (w : CachingWalk P) (caching joins : Bool) (vpage : Nat) : CachingWalk P :=
  if joins then
    { w with
      regionBegin := if w.regionBytes caching = 0 then update w.regionBegin caching vpage
        else w.regionBegin
      regionBytes := update w.regionBytes caching (w.regionBytes caching + pageSize) }
  else if 0 < w.regionBytes caching then (w.mark caching).clear caching
  else w

/-- The body of the loop in `UpdatePagesCachedCount`. -/
def updatePage (b : CpuBackings P) (firstAsid : Nat) (delta : Int) (w : CachingWalk P)
    (page : Nat) : CachingWalk P :=
  let vpage := b.vpage page
  if vpage = 0 then w.releasePending
  else
    let w := if firstAsid ≠ b.asid page then
        { w.releasePending with memoryDeviceInter := b.registeredProcesses (b.asid page) }
      else w
    let w := if vpage ≠ (w.oldVpage + 1) % 2 ^ 64 then w.releasePending else w
    let count := w.counts page + BitVec.ofInt 8 delta
    let w := { w with oldVpage := vpage, counts := update w.counts page count }
    let w := w.advance false (count = 0) vpage
    w.advance true (count = 1 ∧ 0 < delta) vpage

end CachingWalk

/-- A call of `UpdatePagesCachedCount`. -/
structure CachedUpdate where
  address : Nat
  size : Nat
  delta : Int

namespace CachedUpdate

variable {P : Type}

/-- The first page of the walk. -/
def firstPage (u : CachedUpdate) : Nat := u.address >>> pageBits

/-- The number of pages up to `page_end`. -/
def pageCount (u : CachedUpdate) : Nat :=
  (u.address + u.size + pageSize - 1) / pageSize - u.firstPage

def pages (u : CachedUpdate) : List Nat := range' u.firstPage u.pageCount

/-- The variables before the loop. -/
def start (b : CpuBackings P) (u : CachedUpdate) (counts : Nat → BitVec 8) : CachingWalk P where
  counts := counts
  regionBegin := fun _ => 0
  regionBytes := fun _ => 0
  memoryDeviceInter := b.registeredProcesses (b.asid u.firstPage)
  oldVpage := (b.vpage u.firstPage + (2 ^ 64 - 1)) % 2 ^ 64
  marks := []

/-- `UpdatePagesCachedCount`: the counts afterwards, and the regions that have been marked. -/
def updatePagesCachedCount (b : CpuBackings P) (u : CachedUpdate) (counts : Nat → BitVec 8) :
    (Nat → BitVec 8) × List (Mark P) :=
  let w := (u.pages.foldl (CachingWalk.updatePage b (b.asid u.firstPage) u.delta)
    (u.start b counts)).releasePending
  (w.counts, w.marks)

/-! ## What is to be marked -/

/-- The change that a call is going to make: `true` where the count of a page leaves zero, `false`
where it comes back to zero. -/
def change (u : CachedUpdate) (counts : Nat → BitVec 8) (page : Nat) : Option Bool :=
  if 0 < u.delta ∧ counts page = 0 then some true
  else if u.delta < 0 ∧ counts page = 1 then some false
  else none

/-- A page that is marked in a process. -/
abbrev MarkedPage (P : Type) := Option P × Nat × Bool

/-- The mark that a page needs: `true` where its count goes from zero to one, `false` where it goes
from one to zero. -/
def transition (before after : BitVec 8) : Option Bool :=
  if before = 0 ∧ after = 1 then some true
  else if before = 1 ∧ after = 0 then some false
  else none

/-- The pages to be marked: the backed pages of the range whose count leaves zero or comes back to
it, each in its process. -/
def expected (b : CpuBackings P) (u : CachedUpdate) (before after : Nat → BitVec 8) :
    List (MarkedPage P) :=
  u.pages.flatMap fun page =>
    if b.vpage page = 0 then []
    else (transition (before page) (after page)).toList.map fun caching =>
      (b.registeredProcesses (b.asid page), b.vpage page, caching)

end CachedUpdate

/-- The pages of a marked region. -/
def Mark.pages {P : Type} (m : Mark P) : List (CachedUpdate.MarkedPage P) :=
  (range' (m.address / pageSize) (m.size / pageSize)).map fun vpage =>
    (m.memory, vpage, m.caching)

namespace CachedUpdate

variable {P : Type}

/-- The call marks the pages that are to be marked, each of them once, and no others. -/
def MarksRight (b : CpuBackings P) (counts : Nat → BitVec 8) (u : CachedUpdate) : Prop :=
  ((u.updatePagesCachedCount b counts).2.flatMap Mark.pages).Perm
    (u.expected b counts (u.updatePagesCachedCount b counts).1)

/-- The call adds or subtracts one, and keeps the counts of its pages between 0 and 255. -/
def InRange (b : CpuBackings P) (counts : Nat → BitVec 8) (u : CachedUpdate) : Prop :=
  (u.delta = 1 ∧ ∀ page ∈ u.pages, b.Backed page → counts page ≠ 255) ∨
    (u.delta = -1 ∧ ∀ page ∈ u.pages, b.Backed page → counts page ≠ 0)

/-- The last page of another process than that of the first page, before a page that is of this
process again, is served by the same memory interface. -/
def KeepsProcess (b : CpuBackings P) (first page : Nat) : Prop :=
  ∀ q, first ≤ q → q < page → b.Backed q → b.asid q ≠ b.asid first →
    (∀ r, q < r → r < page → b.Backed r → b.asid r = b.asid first) →
    b.registeredProcesses (b.asid q) = b.registeredProcesses (b.asid first)

/-- No page that changes is of the process of the first page again, after a page of a process with
another memory interface. -/
def StaysWithProcess (b : CpuBackings P) (counts : Nat → BitVec 8) (u : CachedUpdate) : Prop :=
  ∀ page ∈ u.pages, b.Backed page → u.change counts page ≠ none →
    b.asid page = b.asid u.firstPage → KeepsProcess b u.firstPage page

end CachedUpdate

/-! ## The batches -/

namespace CachingWalk

open CachedUpdate

variable {P : Type} {w : CachingWalk P} {caching c : Bool} {v : Nat}

/-- The pages of a pending region. -/
def pendingPages (w : CachingWalk P) (caching : Bool) : List (MarkedPage P) :=
  (range' (w.regionBegin caching) (w.regionBytes caching / pageSize)).map fun vpage =>
    (w.memoryDeviceInter, vpage, caching)

/-- The pages that are marked, and those that are going to be. -/
def allPages (w : CachingWalk P) : List (MarkedPage P) :=
  w.marks.flatMap Mark.pages ++ (w.pendingPages false ++ w.pendingPages true)

/-- A pending region ends before the virtual page. -/
def EndsAt (w : CachingWalk P) (v : Nat) (caching : Bool) : Prop :=
  pageSize ∣ w.regionBytes caching ∧ (0 < w.regionBytes caching →
    w.regionBegin caching + w.regionBytes caching / pageSize = v ∧ w.memoryDeviceInter.isSome)

theorem endsAt_of_empty (h : w.regionBytes c = 0) : w.EndsAt v c :=
  ⟨h ▸ Nat.dvd_zero _, fun hpos => absurd h (Nat.pos_iff_ne_zero.mp hpos)⟩

theorem pendingPages_of_empty (h : w.regionBytes c = 0) : w.pendingPages c = [] := by
  rw [pendingPages, h, Nat.zero_div]
  rfl

@[simp] theorem regionBytes_clear_self : (w.clear c).regionBytes c = 0 := update_self ..

theorem regionBytes_clear_of_ne (h : c ≠ caching) :
    (w.clear caching).regionBytes c = w.regionBytes c := update_of_ne h ..

theorem pendingPages_clear_of_ne (h : c ≠ caching) :
    (w.clear caching).pendingPages c = w.pendingPages c := by
  rw [pendingPages, pendingPages, regionBytes_clear_of_ne h]
  rfl

theorem mark_pages : Mark.pages ⟨w.memoryDeviceInter, w.regionBegin c <<< pageBits,
    w.regionBytes c, c⟩ = w.pendingPages c := by
  have hbegin : (w.regionBegin c <<< pageBits) / pageSize = w.regionBegin c := by
    rw [Nat.shiftLeft_eq]
    exact Nat.mul_div_cancel _ (Nat.two_pow_pos _)
  simp only [Mark.pages, pendingPages, hbegin]

/-- Marking a pending region neither loses nor repeats a page. -/
theorem allPages_mark_clear : ((w.mark c).clear c).allPages.Perm w.allPages := by
  have hmarks : ((w.mark c).clear c).marks.flatMap Mark.pages =
      w.marks.flatMap Mark.pages ++ w.pendingPages c := by
    rw [← mark_pages]
    show (w.marks ++ [_]).flatMap Mark.pages = _
    rw [flatMap_append, flatMap_singleton]
  have hempty : ((w.mark c).clear c).pendingPages c = [] :=
    pendingPages_of_empty regionBytes_clear_self
  rw [allPages, allPages, hmarks]
  cases c with
  | false =>
    rw [hempty, pendingPages_clear_of_ne (by decide), nil_append, append_assoc]
    exact .refl _
  | true =>
    rw [hempty, pendingPages_clear_of_ne (by decide), append_nil, append_assoc]
    exact List.Perm.append_left _ perm_append_comm

theorem release_eq (h : w.EndsAt v c) (hpos : 0 < w.regionBytes c) :
    w.release c = (w.mark c).clear c := by
  rw [release, if_pos hpos, if_pos (h.2 hpos).2]

theorem allPages_release (h : w.EndsAt v c) : (w.release c).allPages.Perm w.allPages := by
  by_cases hpos : 0 < w.regionBytes c
  · rw [release_eq h hpos]
    exact allPages_mark_clear
  · rw [release, if_neg hpos]

theorem regionBytes_release_self : (w.release c).regionBytes c = 0 := by
  rw [release]
  split
  case isTrue => exact regionBytes_clear_self
  case isFalse h => exact Nat.eq_zero_of_not_pos h

theorem release_fields (w : CachingWalk P) (caching : Bool) :
    (w.release caching).counts = w.counts ∧ (w.release caching).oldVpage = w.oldVpage ∧
      (w.release caching).memoryDeviceInter = w.memoryDeviceInter ∧
      (w.release caching).regionBegin = w.regionBegin ∧
      ∀ c, c ≠ caching → (w.release caching).regionBytes c = w.regionBytes c := by
  rw [release]
  split
  case isTrue =>
    split <;> exact ⟨rfl, rfl, rfl, rfl, fun c hc => update_of_ne hc ..⟩
  case isFalse => exact ⟨rfl, rfl, rfl, rfl, fun _ _ => rfl⟩

theorem releasePending_fields (w : CachingWalk P) : w.releasePending.counts = w.counts ∧
    w.releasePending.oldVpage = w.oldVpage ∧
    w.releasePending.memoryDeviceInter = w.memoryDeviceInter ∧
    ∀ c, w.releasePending.regionBytes c = 0 := by
  obtain ⟨hcounts, hold, hmemory, -, -⟩ := w.release_fields false
  obtain ⟨hcounts', hold', hmemory', -, hbytes'⟩ := (w.release false).release_fields true
  refine ⟨hcounts'.trans hcounts, hold'.trans hold, hmemory'.trans hmemory, fun c => ?_⟩
  cases c with
  | false => exact (hbytes' false (by decide)).trans regionBytes_release_self
  | true => exact regionBytes_release_self

theorem EndsAt.release (h : w.EndsAt v c) : (w.release caching).EndsAt v c := by
  by_cases hc : c = caching
  · subst hc
    exact endsAt_of_empty regionBytes_release_self
  · obtain ⟨-, -, hmemory, hbegin, hbytes⟩ := w.release_fields caching
    rw [EndsAt, hbytes c hc, hbegin, hmemory]
    exact h

theorem allPages_releasePending (h : ∀ c, w.EndsAt v c) :
    w.releasePending.allPages.Perm w.allPages :=
  (allPages_release ((h true).release)).trans (allPages_release (h false))

/-! ## One page -/

theorem pendingPages_congr {w' : CachingWalk P}
    (hmemory : w'.memoryDeviceInter = w.memoryDeviceInter)
    (hbegin : w'.regionBegin c = w.regionBegin c) (hbytes : w'.regionBytes c = w.regionBytes c) :
    w'.pendingPages c = w.pendingPages c := by
  rw [pendingPages, hmemory, hbegin, hbytes, pendingPages]

/-- A page joins the region that ends before it. -/
theorem pendingPages_advance (h : w.EndsAt v c) :
    (w.advance c true v).pendingPages c = w.pendingPages c ++ [(w.memoryDeviceInter, v, c)] := by
  have hpos : 0 < pageSize := Nat.two_pow_pos _
  have hbytes : (w.advance c true v).regionBytes c = w.regionBytes c + pageSize := update_self ..
  have hcount : (w.regionBytes c + pageSize) / pageSize = w.regionBytes c / pageSize + 1 :=
    Nat.add_div_right _ hpos
  rw [pendingPages, hbytes, hcount, pendingPages]
  by_cases hempty : w.regionBytes c = 0
  · have hbegin : (w.advance c true v).regionBegin c = v := by
      show (if w.regionBytes c = 0 then update w.regionBegin c v else w.regionBegin) c = v
      rw [if_pos hempty, update_self]
    rw [hbegin, hempty, Nat.zero_div]
    rfl
  · have hbegin : (w.advance c true v).regionBegin c = w.regionBegin c := by
      show (if w.regionBytes c = 0 then update w.regionBegin c v else w.regionBegin) c = _
      rw [if_neg hempty]
    have hend := (h.2 (pos_of_ne_zero hempty)).1
    rw [hbegin, range'_concat, map_append, one_mul, hend]
    rfl

theorem advance_fields (w : CachingWalk P) (caching joins : Bool) (v : Nat) :
    (w.advance caching joins v).counts = w.counts ∧
      (w.advance caching joins v).oldVpage = w.oldVpage ∧
      (w.advance caching joins v).memoryDeviceInter = w.memoryDeviceInter ∧
      ∀ c, c ≠ caching → (w.advance caching joins v).regionBegin c = w.regionBegin c ∧
        (w.advance caching joins v).regionBytes c = w.regionBytes c := by
  cases joins with
  | true =>
    refine ⟨rfl, rfl, rfl, fun c hc => ⟨?_, update_of_ne hc ..⟩⟩
    show (if w.regionBytes caching = 0 then update w.regionBegin caching v
      else w.regionBegin) c = _
    split
    · exact update_of_ne hc ..
    · rfl
  | false =>
    rw [advance, if_neg (by decide)]
    split
    · exact ⟨rfl, rfl, rfl, fun c hc => ⟨rfl, update_of_ne hc ..⟩⟩
    · exact ⟨rfl, rfl, rfl, fun _ _ => ⟨rfl, rfl⟩⟩

theorem EndsAt.advance_of_ne {joins : Bool} {v' : Nat} (h : w.EndsAt v c) (hc : c ≠ caching) :
    (w.advance caching joins v').EndsAt v c := by
  obtain ⟨-, -, hmemory, hfields⟩ := w.advance_fields caching joins v'
  rw [EndsAt, (hfields c hc).1, (hfields c hc).2, hmemory]
  exact h

theorem EndsAt.advance {joins : Bool} (h : w.EndsAt v c)
    (hmemory : joins = true → w.memoryDeviceInter.isSome) :
    (w.advance c joins v).EndsAt (v + 1) c := by
  cases joins with
  | false =>
    refine endsAt_of_empty ?_
    rw [CachingWalk.advance, if_neg (by decide)]
    split
    case isTrue => exact regionBytes_clear_self
    case isFalse hpos => exact Nat.eq_zero_of_not_pos hpos
  | true =>
    have hpos : 0 < pageSize := Nat.two_pow_pos _
    have hbytes : (w.advance c true v).regionBytes c = w.regionBytes c + pageSize := update_self ..
    refine ⟨hbytes ▸ dvd_add h.1 (dvd_refl _), fun _ => ⟨?_, hmemory rfl⟩⟩
    rw [hbytes, Nat.add_div_right _ hpos]
    show (if w.regionBytes c = 0 then update w.regionBegin c v
      else w.regionBegin) c + _ = _
    by_cases hempty : w.regionBytes c = 0
    · rw [if_pos hempty, update_self, hempty, Nat.zero_div]
    · rw [if_neg hempty, ← (h.2 (pos_of_ne_zero hempty)).1]
      rfl

/-- The pages after a page has joined a region, or has not. -/
theorem allPages_advance (joins : Bool) (h : w.EndsAt v c) : (w.advance c joins v).allPages.Perm
      (w.allPages ++ if joins then [(w.memoryDeviceInter, v, c)] else []) := by
  cases joins with
  | false =>
    rw [if_neg (by decide), append_nil, advance, if_neg (by decide)]
    split
    · exact allPages_mark_clear
    · exact .refl _
  | true =>
    obtain ⟨-, -, hmemory, hfields⟩ := w.advance_fields c true v
    have hmarks : (w.advance c true v).marks = w.marks := rfl
    rw [if_pos rfl, allPages, allPages, hmarks]
    cases c with
    | false =>
      have hother := hfields true (by decide)
      rw [pendingPages_advance h, pendingPages_congr hmemory hother.1 hother.2,
        append_assoc, append_assoc, append_assoc]
      exact List.Perm.append_left _ (List.Perm.append_left _ perm_append_comm)
    | true =>
      have hother := hfields false (by decide)
      rw [pendingPages_advance h, pendingPages_congr hmemory hother.1 hother.2,
        append_assoc, append_assoc]

end CachingWalk

end Sudachi.Core.DeviceMemory
