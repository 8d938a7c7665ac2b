import Sudachi.Kernel.MemoryBlock
import Sudachi.Kernel.PageBitmapRange

/-!
# The dynamic page manager

`KDynamicPageManager` of `k_dynamic_page_manager.h`: pages out of a host buffer, tracked by a bitmap
over the guest range that the manager is initialized with. Host pointers and guest addresses are
64-bit numbers. `Allocate` turns a bit into a pointer relative to the buffer, and `Free` turns the
pointer back into a bit relative to the guest address; the two agree exactly when the buffer lies
less than a page above the guest address modulo `2 ^ 64` (`freeOffset_pagePointer_iff`), and only
then the manager is a correct allocator (`pageRun_sound_iff`). The contents of the pages are left
out: no page overlaps the management words at the end of the buffer.
-/

set_option autoImplicit false

namespace Sudachi.Kernel

open Sudachi.Common KPageBitmap Finset Or Option

/-- `KDynamicPageManager`; `backingMemory` is `m_backing_memory.data()`. -/
structure KDynamicPageManager where
  pageBitmap : KPageBitmap
  used : Nat
  peak : Nat
  count : Nat
  address : Nat
  alignedAddress : Nat
  size : Nat
  backingMemory : Nat

namespace KDynamicPageManager

/-- `GetPointer`. -/
def getPointer (m : KDynamicPageManager) (addr : Nat) : Nat :=
  (m.backingMemory + (addr + 2 ^ 64 - m.address)) % 2 ^ 64

/-- `GetPointer<PageBuffer>(m_aligned_address) + offset`. -/
def pagePointer (m : KDynamicPageManager) (offset : Nat) : Nat :=
  (m.getPointer m.alignedAddress + offset * pageSize) % 2 ^ 64

/-- The loop of `Initialize` that frees the pages to the bitmap, from the page `i` on. -/
def freePagesLoop (address alignedAddress : Nat) : Nat → Nat → KPageBitmap → KPageBitmap
  | 0, _, bm => bm
  | pages + 1, i, bm =>
    freePagesLoop address alignedAddress pages (i + 1)
      (bm.setBit ((address + i * pageSize - alignedAddress) / pageSize))

/-- `overhead_size` of `Initialize`. -/
def overheadSize (memory size align : Nat) : Nat :=
  let managedSize := memory + size - alignDown memory align
  alignUp (calculateManagementOverheadSize (managedSize / pageSize)) pageSize

/-- `allocatable_region_size` of `Initialize`. -/
def allocatableRegionSize (memory size align : Nat) : Nat :=
  memory + size - overheadSize memory size align - alignDown memory align

/-- `Initialize`, with the buffer at `backingMemory`. The words of the buffer behind the management
region hold `garbage`. -/
def initializePages (backingMemory : Nat) (rng : RandomBitGenerator) (garbage : Nat → BitVec 64)
    (memory size align : Nat) : Option KDynamicPageManager :=
  if size = 0 then none
  else if ¬overheadSize memory size align < size then none
  else
    let managedPages := alignDown (size - overheadSize memory size align) pageSize
    let count := managedPages / pageSize
    let storage := fun p => if 8 * p < overheadSize memory size align then 0 else garbage p
    let bitmap :=
      initializeBitmap storage rng (allocatableRegionSize memory size align / pageSize)
    some
      { pageBitmap := freePagesLoop memory (alignDown memory align) count 0 bitmap
        used := 0
        peak := 0
        count := count
        address := memory
        alignedAddress := alignDown memory align
        size := managedPages
        backingMemory := backingMemory }

/-- `Allocate()`. -/
def allocate (m : KDynamicPageManager) : Option Nat × KDynamicPageManager :=
  let (soffset, bitmap) := m.pageBitmap.findFreeBlock true
  if soffset < 0 then (none, { m with pageBitmap := bitmap })
  else
    let offset := soffset.toNat
    (some (m.pagePointer offset),
      { m with
        pageBitmap := bitmap.clearBit offset
        used := m.used + 1
        peak := max m.peak (m.used + 1) })

/-- `Allocate(count)`. It has no result for the counts for which `FindFreeRange` has none. -/
def allocateMany (m : KDynamicPageManager) (count : Nat) :
    Option (Option Nat × KDynamicPageManager) :=
  match m.pageBitmap.findFreeRange count with
  | none => none
  | some (soffset, bitmap) =>
    if soffset < 0 then some (none, { m with pageBitmap := bitmap })
    else
      let offset := soffset.toNat
      some (some (m.pagePointer offset),
        { m with
          pageBitmap := (bitmap.clearRange offset count).2
          used := m.used + count
          peak := max m.peak (m.used + count) })

/-- The bit that `Free` sets for a page. -/
def freeOffset (m : KDynamicPageManager) (pb : Nat) : Nat :=
  (pb + 2 ^ 64 - m.alignedAddress) % 2 ^ 64 / pageSize

/-- `Free`. -/
def free (m : KDynamicPageManager) (pb : Nat) : KDynamicPageManager :=
  { m with
    pageBitmap := m.pageBitmap.setBit (m.freeOffset pb)
    used := m.used - 1 }

/-! ## Pages and bits -/

/-- Where the buffer lies relative to the guest address, modulo `2 ^ 64`. -/
def displacement (m : KDynamicPageManager) : Nat := (m.backingMemory + 2 ^ 64 - m.address) % 2 ^ 64

/-- The addresses of the manager are 64-bit numbers, and its range of `pages` pages fits. -/
structure AddressesFit (m : KDynamicPageManager) (pages : Nat) : Prop where
  backing_lt : m.backingMemory < 2 ^ 64
  address_lt : m.address < 2 ^ 64
  aligned_le : m.alignedAddress ≤ m.address
  pages_le : pages * pageSize ≤ 2 ^ 64

section Pointers

variable {m : KDynamicPageManager} {pages o o' : Nat}

theorem pagePointer_inj (h : AddressesFit m pages) (ho : o < pages) (ho' : o' < pages)
    (heq : m.pagePointer o = m.pagePointer o') : o = o' := by
  have hfit := h.pages_le
  simp only [pagePointer, pageSize] at heq hfit
  generalize m.getPointer m.alignedAddress = base at heq
  omega

theorem freeOffset_pagePointer (h : AddressesFit m pages) :
    m.freeOffset (m.pagePointer o) = (m.displacement + o * pageSize) % 2 ^ 64 / pageSize := by
  obtain ⟨h1, h2, h3, -⟩ := h
  simp only [freeOffset, pagePointer, getPointer, displacement, pageSize]
  congr 1
  omega

/-- The round trip from a bit over the pointer to the bit. -/
theorem freeOffset_pagePointer_iff (h : AddressesFit m pages) (ho : o < pages) :
    m.freeOffset (m.pagePointer o) = o ↔ m.displacement < pageSize := by
  have hfit := h.pages_le
  have hlt : m.displacement < 2 ^ 64 := Nat.mod_lt _ (by decide)
  rw [freeOffset_pagePointer h]
  simp only [pageSize] at hfit ⊢
  generalize m.displacement = δ at hlt
  omega

end Pointers

/-! ## Runs -/

/-- The pages that the bitmap holds, as pointers. -/
def allocatable (m : KDynamicPageManager) (pages : Nat) : Finset Nat :=
  (m.pageBitmap.setBits pages).image m.pagePointer

/-- The pages from the pointer `pb` on. -/
def pagesFrom (pb count : Nat) : Finset Nat :=
  (Finset.range count).image fun k => (pb + k * pageSize) % 2 ^ 64

/-- The managers that a run leads to from `m₀`, with the pages that are outstanding. Only pages that
were handed out are freed. -/
inductive PageRun (m₀ : KDynamicPageManager) : KDynamicPageManager → Finset Nat → Prop
  | initialized : PageRun m₀ m₀ ∅
  | allocated {m m' : KDynamicPageManager} {O : Finset Nat} {pb : Nat} : PageRun m₀ m O →
      m.allocate = (some pb, m') → PageRun m₀ m' (insert pb O)
  | notAllocated {m m' : KDynamicPageManager} {O : Finset Nat} : PageRun m₀ m O →
      m.allocate = (none, m') → PageRun m₀ m' O
  | allocatedMany {m m' : KDynamicPageManager} {O : Finset Nat} {pb : Nat} (count : Nat) :
      PageRun m₀ m O → m.allocateMany count = some (some pb, m') →
      PageRun m₀ m' (O ∪ pagesFrom pb count)
  | notAllocatedMany {m m' : KDynamicPageManager} {O : Finset Nat} (count : Nat) :
      PageRun m₀ m O → m.allocateMany count = some (none, m') → PageRun m₀ m' O
  | freed {m : KDynamicPageManager} {O : Finset Nat} {pb : Nat} : PageRun m₀ m O → pb ∈ O →
      PageRun m₀ (m.free pb) (O.erase pb)

/-- What an allocator owes in the state `m` with the outstanding pages `O`: the used count is their
number, an allocation takes pages that are not outstanding out of the bitmap, and freeing a page
puts back exactly that page. -/
structure Sound (pages : Nat) (m : KDynamicPageManager) (O : Finset Nat) : Prop where
  used : m.used = O.card
  disjoint : Disjoint O (m.allocatable pages)
  allocate : ∀ pb m', m.allocate = (some pb, m') →
    pb ∈ m.allocatable pages ∧ pb ∉ O ∧ m'.allocatable pages = (m.allocatable pages).erase pb
  allocateMany : ∀ count pb m', m.allocateMany count = some (some pb, m') →
    (pagesFrom pb count).card = count ∧ pagesFrom pb count ⊆ m.allocatable pages ∧
      Disjoint O (pagesFrom pb count) ∧
      m'.allocatable pages = m.allocatable pages \ pagesFrom pb count
  free : ∀ pb ∈ O, (m.free pb).allocatable pages = insert pb (m.allocatable pages)

section Steps

variable {storage : Nat → BitVec 64} {pages : Nat} {m : KDynamicPageManager}

/-- `Allocate()` takes a page out of the bitmap if there is one. -/
theorem allocate_spec (h : BitmapInvariant storage pages m.pageBitmap) :
    (m.pageBitmap.setBits pages = ∅ ∧ ∃ g, m.allocate =
        (none, { m with pageBitmap := { m.pageBitmap with rng := g } })) ∨
      ∃ i ∈ m.pageBitmap.setBits pages, ∃ bm, BitmapInvariant storage pages bm ∧
        bm.setBits pages = (m.pageBitmap.setBits pages).erase i ∧
        m.allocate = (some (m.pagePointer i),
          { m with pageBitmap := bm, used := m.used + 1, peak := max m.peak (m.used + 1) }) := by
  obtain ⟨⟨g, hg⟩, hcase⟩ := h.findFreeBlock true
  rcases hcase with ⟨hempty, heq⟩ | ⟨i, hi, heq, -⟩
  · have hfind : m.pageBitmap.findFreeBlock true = (-1, { m.pageBitmap with rng := g }) :=
      Prod.ext heq hg
    refine inl ⟨hempty, g, ?_⟩
    simp only [allocate, hfind]
    rfl
  · have hfind : m.pageBitmap.findFreeBlock true = ((i : Int), { m.pageBitmap with rng := g }) :=
      Prod.ext heq hg
    obtain ⟨hlt, hleaf⟩ := mem_setBits.1 hi
    obtain ⟨hinv, hbits⟩ := (h.with_rng g).clearBit hlt hleaf
    refine inr ⟨i, hi, _, hinv, hbits, ?_⟩
    have hneg : ¬((i : Int) < 0) := by omega
    simp only [allocate, hfind, hneg, if_false, Int.toNat_natCast]

/-- `Allocate(count)` takes pages in a row out of the bitmap. -/
theorem allocateMany_spec (h : BitmapInvariant storage pages m.pageBitmap) {count : Nat}
    {result : Option Nat × KDynamicPageManager} (hres : m.allocateMany count = some result) :
    (∃ g, result = (none, { m with pageBitmap := { m.pageBitmap with rng := g } })) ∨
      ∃ offset bm, 0 < count ∧ offset + count ≤ pages ∧
        Finset.Ico offset (offset + count) ⊆ m.pageBitmap.setBits pages ∧
        BitmapInvariant storage pages bm ∧
        bm.setBits pages = m.pageBitmap.setBits pages \ Finset.Ico offset (offset + count) ∧
        result = (some (m.pagePointer offset),
          { m with
            pageBitmap := bm
            used := m.used + count
            peak := max m.peak (m.used + count) }) := by
  by_cases hcount : count ≠ 0 ∧ count ≠ 64
  · obtain ⟨r, g, hfind, hcase⟩ :=
      @findFreeRange_spec m.pageBitmap count hcount.1 hcount.2
    rcases hcase with rfl | ⟨offset, rfl, hlt, hfree⟩
    · refine inl ⟨g, ?_⟩
      rw [allocateMany, hfind] at hres
      exact (some.inj hres).symm
    · have hpos := pos_of_ne_zero hcount.1
      have hfits := h.rangeFits hpos hlt hfree
      obtain ⟨hinv, hclear⟩ := (h.with_rng g).clearRange hfits
      rcases hclear with ⟨-, -, hbits⟩ | ⟨hall, -⟩
      · refine inr ⟨offset, _, hpos, hfits.end_le, ?_, hinv, hbits, ?_⟩
        · intro i hi
          obtain ⟨h1, h2⟩ := mem_Ico.1 hi
          exact mem_setBits.2 ⟨lt_of_lt_of_le h2 hfits.end_le, hfree.2.2.2 i h1 h2⟩
        · have hneg : ¬((offset : Int) < 0) := by omega
          simp only [allocateMany, hfind, hneg, if_false, Int.toNat_natCast] at hres
          exact (some.inj hres).symm
      · exact absurd hfree.2.2.2 hall
  · -- For the remaining counts there is a result only if the region has no words.
    have hnone : m.allocateMany count = none ∨ ∃ g, m.allocateMany count =
        some (none, { m with pageBitmap := { m.pageBitmap with rng := g } }) := by
      rw [allocateMany, findFreeRange]
      by_cases hguard : m.pageBitmap.bitStorages (m.pageBitmap.usedDepths - 1) <
          m.pageBitmap.endStorages (m.pageBitmap.usedDepths - 1) ∧ count ≤ bitSize
      · refine inl ?_
        rw [if_neg (not_not.2 hguard), if_pos (by rw [bitSize]; omega)]
      · refine inr ⟨m.pageBitmap.rng, ?_⟩
        rw [if_pos hguard]
        rfl
    rcases hnone with hnone | ⟨g, hsome⟩
    · rw [hnone] at hres
      exact absurd hres (by simp)
    · rw [hsome] at hres
      exact inl ⟨g, (some.inj hres).symm⟩

theorem pagesFrom_pagePointer (offset count : Nat) : pagesFrom (m.pagePointer offset) count =
      (Finset.Ico offset (offset + count)).image m.pagePointer := by
  have hptr : ∀ k, (m.pagePointer offset + k * pageSize) % 2 ^ 64 = m.pagePointer (offset + k) := by
    intro k
    simp only [pagePointer, pageSize]
    omega
  ext p
  simp only [pagesFrom, mem_image, mem_range, mem_Ico, hptr]
  constructor
  · rintro ⟨k, hk, rfl⟩
    exact ⟨offset + k, by omega, rfl⟩
  · rintro ⟨i, hi, rfl⟩
    exact ⟨i - offset, by omega, by rw [Nat.add_sub_cancel' hi.1]⟩

end Steps

/-- The invariant of a run: the bitmap is in order, the pages that are outstanding have clear bits,
and pointers turn back into their bits unless there never was a page at all. -/
structure PagesTracked (storage : Nat → BitVec 64) (pages : Nat) (m : KDynamicPageManager)
    (O : Finset Nat) : Prop where
  bitmap : BitmapInvariant storage pages m.pageBitmap
  fits : AddressesFit m pages
  used : m.used = O.card
  outstanding : ∀ pb ∈ O, ∃ o < pages, pb = m.pagePointer o ∧ m.pageBitmap.leaf o = false
  placed : m.displacement < pageSize ∨ (O = ∅ ∧ m.pageBitmap.setBits pages = ∅)

section Tracked

variable {storage : Nat → BitVec 64} {pages : Nat} {m m' : KDynamicPageManager} {O : Finset Nat}

theorem AddressesFit.injOn (h : AddressesFit m pages) :
    Set.InjOn m.pagePointer (m.pageBitmap.setBits pages) := by
  intro o ho o' ho' heq
  exact pagePointer_inj h (mem_setBits.1 ho).1 (mem_setBits.1 ho').1 heq

section

variable (h : PagesTracked storage pages m O)
include h

theorem PagesTracked.disjoint : Disjoint O (m.allocatable pages) := by
  refine disjoint_left.2 fun pb hpb hin => ?_
  obtain ⟨o, ho, rfl, hclear⟩ := h.outstanding pb hpb
  obtain ⟨o', ho', heq⟩ := mem_image.1 hin
  obtain ⟨hlt, hset⟩ := mem_setBits.1 ho'
  rw [pagePointer_inj h.fits hlt ho heq, hclear] at hset
  exact absurd hset (by decide)

/-- Taking the pages of the bits `T` out of the bitmap keeps the invariant; the pages were
allocatable and not outstanding, and no longer are allocatable. -/
theorem PagesTracked.take {T : Finset Nat} {bm : KPageBitmap}
    {peak : Nat} (hT : T ⊆ m.pageBitmap.setBits pages) (hinv : BitmapInvariant storage pages bm)
    (hbits : bm.setBits pages = m.pageBitmap.setBits pages \ T)
    (hm : m' = { m with pageBitmap := bm, used := m.used + T.card, peak := peak }) :
    PagesTracked storage pages m' (O ∪ T.image m.pagePointer) ∧
      T.image m.pagePointer ⊆ m.allocatable pages ∧
      Disjoint O (T.image m.pagePointer) ∧
      m'.allocatable pages = m.allocatable pages \ T.image m.pagePointer := by
  subst hm
  have hsub : T.image m.pagePointer ⊆ m.allocatable pages := image_subset_image hT
  have hdis : Disjoint O (T.image m.pagePointer) := h.disjoint.mono_right hsub
  have hinj : Set.InjOn m.pagePointer T := h.fits.injOn.mono (coe_subset.2 hT)
  have hclear : ∀ o < pages, o ∉ bm.setBits pages → bm.leaf o = false := by
    intro o ho hnot
    rw [mem_setBits] at hnot
    exact Bool.eq_false_iff.2 fun hset => hnot ⟨ho, hset⟩
  refine ⟨⟨hinv, ⟨h.fits.1, h.fits.2, h.fits.3, h.fits.4⟩, ?_, ?_, ?_⟩, hsub, hdis, ?_⟩
  · rw [card_union_of_disjoint hdis, card_image_of_injOn hinj, h.used]
  · intro pb hpb
    rcases mem_union.1 hpb with hold | hnew
    · obtain ⟨o, ho, heq, hleaf⟩ := h.outstanding pb hold
      refine ⟨o, ho, heq, hclear o ho ?_⟩
      rw [hbits, mem_sdiff, mem_setBits, hleaf]
      exact fun hcon => absurd hcon.1.2 (by decide)
    · obtain ⟨o, ho, rfl⟩ := mem_image.1 hnew
      refine ⟨o, (mem_setBits.1 (hT ho)).1, rfl, hclear o (mem_setBits.1 (hT ho)).1 ?_⟩
      rw [hbits, mem_sdiff]
      exact fun hcon => hcon.2 ho
  · refine h.placed.imp id fun ⟨hO, hnone⟩ => ?_
    have hTempty : T = ∅ := subset_empty.1 (hnone ▸ hT)
    rw [hbits, hO, hTempty, hnone]
    exact ⟨rfl, rfl⟩
  · have himage : (bm.setBits pages).image m.pagePointer =
        (m.pageBitmap.setBits pages).image m.pagePointer \ T.image m.pagePointer := by
      rw [hbits]
      exact image_sdiff_of_injOn h.fits.injOn hT
    exact himage

theorem PagesTracked.with_rng (g : RandomBitGenerator) :
    PagesTracked storage pages { m with pageBitmap := { m.pageBitmap with rng := g } } O :=
  ⟨h.bitmap.with_rng g, ⟨h.fits.1, h.fits.2, h.fits.3, h.fits.4⟩, h.used, h.outstanding, h.placed⟩

theorem PagesTracked.allocate : (∀ m', m.allocate = (none, m') → PagesTracked storage pages m' O) ∧
      ∀ pb m', m.allocate = (some pb, m') →
        PagesTracked storage pages m' (insert pb O) ∧ pb ∈ m.allocatable pages ∧ pb ∉ O ∧
          m'.allocatable pages = (m.allocatable pages).erase pb := by
  rcases allocate_spec h.bitmap with ⟨-, g, heq⟩ | ⟨i, hi, bm, hinv, hbits, heq⟩
  · rw [heq]
    refine ⟨?_, fun pb m' hres => absurd (congrArg Prod.fst hres) (by simp)⟩
    rintro m' ⟨⟩
    exact h.with_rng g
  · rw [heq]
    refine ⟨fun m' hres => absurd (congrArg Prod.fst hres) (by simp), ?_⟩
    rintro pb m' ⟨⟩
    rw [← sdiff_singleton_eq_erase] at hbits
    obtain ⟨htracked, hsub, hdis, hrest⟩ := h.take (singleton_subset_iff.2 hi) hinv hbits rfl
    rw [image_singleton] at htracked hsub hdis hrest
    rw [insert_eq, union_comm, ← sdiff_singleton_eq_erase]
    exact ⟨htracked, singleton_subset_iff.1 hsub, disjoint_singleton_right.1 hdis, hrest⟩

theorem PagesTracked.allocateMany (count : Nat) :
    (∀ m', m.allocateMany count = some (none, m') → PagesTracked storage pages m' O) ∧
      ∀ pb m', m.allocateMany count = some (some pb, m') →
        PagesTracked storage pages m' (O ∪ pagesFrom pb count) ∧
          (pagesFrom pb count).card = count ∧ pagesFrom pb count ⊆ m.allocatable pages ∧
          Disjoint O (pagesFrom pb count) ∧
          m'.allocatable pages = m.allocatable pages \ pagesFrom pb count := by
  constructor
  · intro m' hres
    rcases allocateMany_spec h.bitmap hres with ⟨g, heq⟩ | ⟨o, bm, -, -, -, -, -, heq⟩
    · obtain ⟨-, rfl⟩ := Prod.mk.inj heq
      exact h.with_rng g
    · exact absurd (congrArg Prod.fst heq) (by simp)
  · intro pb m' hres
    rcases allocateMany_spec h.bitmap hres with ⟨g, heq⟩ | ⟨o, bm, -, -, hsub, hinv, hbits, heq⟩
    · exact absurd (congrArg Prod.fst heq) (by simp)
    · obtain ⟨hpb, rfl⟩ := Prod.mk.inj heq
      obtain rfl := some.inj hpb
      have hcard : (Finset.Ico o (o + count)).card = count := by
        rw [Nat.card_Ico, Nat.add_sub_cancel_left]
      rw [pagesFrom_pagePointer]
      obtain ⟨htracked, htaken, hdis, hrest⟩ := h.take hsub hinv hbits (by rw [hcard])
      refine ⟨htracked, ?_, htaken, hdis, hrest⟩
      rw [card_image_of_injOn (h.fits.injOn.mono (coe_subset.2 hsub)), hcard]

theorem PagesTracked.free {pb : Nat} (hpb : pb ∈ O) :
    PagesTracked storage pages (m.free pb) (O.erase pb) ∧
      (m.free pb).allocatable pages = insert pb (m.allocatable pages) := by
  have hplaced : m.displacement < pageSize :=
    h.placed.resolve_right fun hcon => absurd (hcon.1 ▸ hpb) (notMem_empty pb)
  obtain ⟨o, ho, rfl, hclear⟩ := h.outstanding pb hpb
  have hoff : m.freeOffset (m.pagePointer o) = o := (freeOffset_pagePointer_iff h.fits ho).2 hplaced
  obtain ⟨hinv, hbits⟩ := h.bitmap.setBit ho hclear
  have hfree : m.free (m.pagePointer o) =
      { m with pageBitmap := m.pageBitmap.setBit o, used := m.used - 1 } := by
    rw [KDynamicPageManager.free, hoff]
  rw [hfree]
  refine ⟨⟨hinv, ⟨h.fits.1, h.fits.2, h.fits.3, h.fits.4⟩, ?_, ?_, inl hplaced⟩, ?_⟩
  · rw [card_erase_of_mem hpb, h.used]
  · intro pb' hpb'
    obtain ⟨hne, hmem⟩ := mem_erase.1 hpb'
    obtain ⟨o', ho', rfl, hclear'⟩ := h.outstanding pb' hmem
    have hdiff : o' ≠ o := fun heq => hne (heq ▸ rfl)
    exact ⟨o', ho', rfl, (h.bitmap.leaf_setBit_of_ne ho' hdiff).trans hclear'⟩
  · have himage : ((m.pageBitmap.setBit o).setBits pages).image m.pagePointer =
        insert (m.pagePointer o) ((m.pageBitmap.setBits pages).image m.pagePointer) := by
      rw [hbits, image_insert]
    exact himage

theorem PagesTracked.sound : Sound pages m O where
  used := h.used
  disjoint := h.disjoint
  allocate := fun pb m' hres => (h.allocate.2 pb m' hres).2
  allocateMany := fun count pb m' hres => ((h.allocateMany count).2 pb m' hres).2
  free := fun _ hpb => (h.free hpb).2

end

/-- Every run keeps the invariant. -/
theorem PageRun.tracked {m₀ : KDynamicPageManager} (h₀ : PagesTracked storage pages m₀ ∅)
    (h : PageRun m₀ m O) : PagesTracked storage pages m O := by
  induction h with
  | initialized => exact h₀
  | allocated _ hres ih => exact (ih.allocate.2 _ _ hres).1
  | notAllocated _ hres ih => exact ih.allocate.1 _ hres
  | allocatedMany count _ hres ih => exact ((ih.allocateMany count).2 _ _ hres).1
  | notAllocatedMany count _ hres ih => exact (ih.allocateMany count).1 _ hres
  | freed _ hpb ih => exact (ih.free hpb).1

end Tracked

/-! ## Initialization -/

/-- The loop of `Initialize` sets the bits of pages in a row. -/
theorem freePagesLoop_spec {storage : Nat → BitVec 64} {pages address alignedAddress : Nat}
    (haligned : alignedAddress ≤ address) (n : Nat) : ∀ (i : Nat) (bm : KPageBitmap),
    (address - alignedAddress) / pageSize + i + n ≤ pages → BitmapInvariant storage pages bm →
    (∀ o < pages, (address - alignedAddress) / pageSize + i ≤ o → bm.leaf o = false) →
      BitmapInvariant storage pages (freePagesLoop address alignedAddress n i bm) ∧
        (freePagesLoop address alignedAddress n i bm).setBits pages = bm.setBits pages ∪
          Finset.Ico ((address - alignedAddress) / pageSize + i)
            ((address - alignedAddress) / pageSize + i + n) := by
  induction n with
  | zero =>
    intro i bm _ hinv _
    refine ⟨hinv, ?_⟩
    rw [add_zero, Finset.Ico_self, union_empty]
    rfl
  | succ n ih =>
    intro i bm hle hinv hclear
    have hbit : (address + i * pageSize - alignedAddress) / pageSize =
        (address - alignedAddress) / pageSize + i := by
      simp only [pageSize]
      omega
    rw [freePagesLoop, hbit]
    obtain ⟨hinv', hbits⟩ := hinv.setBit (by omega) (hclear _ (by omega) (le_refl _))
    obtain ⟨hloop, hset⟩ := ih (i + 1) _ (by omega) hinv' fun o ho hge => by
      rw [hinv.leaf_setBit_of_ne ho (by omega)]
      exact hclear o ho (by omega)
    refine ⟨hloop, ?_⟩
    rw [hset, hbits]
    ext o
    simp only [mem_union, mem_insert, mem_Ico]
    constructor
    · rintro ((rfl | hold) | hnew)
      · exact inr (by omega)
      · exact inl hold
      · exact inr (by omega)
    · rintro (hold | hnew)
      · exact inl (inr hold)
      · by_cases heq : o = (address - alignedAddress) / pageSize + i
        · exact inl (inl heq)
        · exact inr (by omega)

/-- An `Initialize` that succeeds and meets its assertions, for a buffer and a guest range that lie
in their address spaces. -/
structure InitializedWith (backingMemory : Nat) (rng : RandomBitGenerator)
    (garbage : Nat → BitVec 64) (memory size align : Nat) (m₀ : KDynamicPageManager) : Prop where
  succeeds : initializePages backingMemory rng garbage memory size align = some m₀
  backing_lt : backingMemory < 2 ^ 64
  range_le : memory + size ≤ 2 ^ 64
  region : pageSize ≤ allocatableRegionSize memory size align
  depth : getRequiredDepth (allocatableRegionSize memory size align / pageSize) ≤ maxDepth

section Initialized

variable {backingMemory memory size align : Nat} {rng : RandomBitGenerator}
  {garbage : Nat → BitVec 64} {m₀ : KDynamicPageManager}

/-- What `Initialize` leaves: a bitmap in which the bits of `count` pages are set. -/
theorem InitializedWith.spec (h : InitializedWith backingMemory rng garbage memory size align m₀) :
    ∃ storage first,
      BitmapInvariant storage (allocatableRegionSize memory size align / pageSize) m₀.pageBitmap ∧
      m₀.pageBitmap.setBits (allocatableRegionSize memory size align / pageSize) =
        Finset.Ico first (first + (size - overheadSize memory size align) / pageSize) ∧
      AddressesFit m₀ (allocatableRegionSize memory size align / pageSize) ∧
      m₀.used = 0 ∧ m₀.displacement = (backingMemory + 2 ^ 64 - memory) % 2 ^ 64 := by
  obtain ⟨hsucceeds, hbacking, hrange, hregion, -⟩ := h
  rw [initializePages] at hsucceeds
  by_cases hsize : size = 0
  · rw [if_pos hsize] at hsucceeds
    exact absurd hsucceeds (by simp)
  rw [if_neg hsize] at hsucceeds
  by_cases hover : overheadSize memory size align < size
  swap
  · rw [if_pos hover] at hsucceeds
    exact absurd hsucceeds (by simp)
  rw [if_neg (not_not.2 hover)] at hsucceeds
  obtain rfl := some.inj hsucceeds
  have haligned : alignDown memory align ≤ memory := alignDown_le memory align
  have hpos : 0 < allocatableRegionSize memory size align / pageSize :=
    Nat.div_pos hregion (by decide)
  -- The bitmap takes no more management words than `Initialize` has cleared.
  have hoverhead : 8 * overheadWords
      (getRequiredDepth (allocatableRegionSize memory size align / pageSize))
      (allocatableRegionSize memory size align / pageSize) ≤ overheadSize memory size align := by
    have hmono := @calculateManagementOverheadSize_mono
      (allocatableRegionSize memory size align / pageSize)
      ((memory + size - alignDown memory align) / pageSize)
      (Nat.div_le_div_right (by rw [allocatableRegionSize]; omega))
    have hup := le_alignUp (calculateManagementOverheadSize
      ((memory + size - alignDown memory align) / pageSize)) pageSize (by decide)
    rw [mul_comm]
    exact hmono.trans hup
  set storage := fun p => if 8 * p < overheadSize memory size align then 0 else garbage p
    with hstorage
  obtain ⟨hinv, hempty⟩ := @initializeBitmap_invariant storage rng _ hpos fun p hp => by
    rw [hstorage]
    exact if_pos (by omega)
  have hcount : alignDown (size - overheadSize memory size align) pageSize / pageSize =
      (size - overheadSize memory size align) / pageSize := by
    rw [alignDown_eq, Nat.mul_div_cancel _ (by decide)]
  have hle : (memory - alignDown memory align) / pageSize + 0 +
      (size - overheadSize memory size align) / pageSize ≤
        allocatableRegionSize memory size align / pageSize := by
    simp only [allocatableRegionSize, pageSize]
    omega
  obtain ⟨hloop, hset⟩ := freePagesLoop_spec haligned
    ((size - overheadSize memory size align) / pageSize) 0 _ hle hinv fun o ho _ => by
      refine Bool.eq_false_iff.2 fun hleaf => ?_
      have hmem := mem_setBits.2 ⟨ho, hleaf⟩
      rw [hempty] at hmem
      exact absurd hmem (notMem_empty o)
  rw [hempty, empty_union] at hset
  refine ⟨storage, (memory - alignDown memory align) / pageSize, ?_, ?_, ?_, rfl, rfl⟩
  · rw [hcount]
    exact hloop
  · rw [hcount]
    exact hset
  · refine ⟨hbacking, by show memory < 2 ^ 64; omega, haligned, ?_⟩
    have hmul := Nat.div_mul_le_self (allocatableRegionSize memory size align) pageSize
    have hsize : allocatableRegionSize memory size align ≤ memory + size := by
      rw [allocatableRegionSize]
      omega
    omega

/-- If the buffer lies a page or more away, then already freeing the first page that was handed out
does not make it allocatable again. -/
theorem InitializedWith.not_sound
    (h : InitializedWith backingMemory rng garbage memory size align m₀)
    (hplace : ¬(backingMemory + 2 ^ 64 - memory) % 2 ^ 64 < pageSize)
    (hcount : ¬size - overheadSize memory size align < pageSize) :
    ¬∀ m O, PageRun m₀ m O → Sound (allocatableRegionSize memory size align / pageSize) m O := by
  obtain ⟨storage, first, hinv, hbits, hfits, -, hdisp⟩ := h.spec
  intro hall
  have hpos : 0 < (size - overheadSize memory size align) / pageSize :=
    Nat.div_pos (Nat.le_of_not_lt hcount) (by decide)
  rcases allocate_spec hinv with ⟨hempty, -⟩ | ⟨i, hi, bm, hinv', hbits', heq⟩
  · rw [hbits, Finset.Ico_eq_empty_iff] at hempty
    omega
  · obtain ⟨hlt, -⟩ := mem_setBits.1 hi
    have hfree := (hall _ _ (PageRun.allocated PageRun.initialized heq)).free (m₀.pagePointer i)
      (mem_insert_self _ _)
    obtain ⟨j, hj, hjeq⟩ := mem_image.1 (hfree ▸ mem_insert_self _ _)
    obtain ⟨hjlt, hjset⟩ := mem_setBits.1 hj
    obtain rfl : j = i := pagePointer_inj hfits hjlt hlt hjeq
    have hoff : m₀.freeOffset (m₀.pagePointer j) ≠ j := fun hcon =>
      hplace (hdisp ▸ (freeOffset_pagePointer_iff hfits hlt).1 hcon)
    have hkeep : (bm.setBit (m₀.freeOffset (m₀.pagePointer j))).leaf j = true := hjset
    rw [hinv'.leaf_setBit_of_ne hlt (Ne.symm hoff)] at hkeep
    have hmem := mem_setBits.2 ⟨hlt, hkeep⟩
    rw [hbits'] at hmem
    exact absurd hmem (notMem_erase j _)

end Initialized

/-- A guest range of three pages takes one of them for the management words. -/
theorem overheadSize_three_pages : overheadSize 0x80060000 0x3000 0x1000 = 0x1000 := by
  have hpages : (0x80060000 + 0x3000 - alignDown 0x80060000 0x1000) / pageSize = 3 := by decide
  simp only [overheadSize, hpages, calculateManagementOverheadSize]
  rw [getRequiredDepth_of_lt (by decide)]
  decide

/-- Such a range is initialized wherever the buffer lies. -/
theorem initializedWith_three_pages {backingMemory : Nat} (h : backingMemory < 2 ^ 64) :
    ∃ m₀, InitializedWith backingMemory zeroGenerator (fun _ => 0) 0x80060000 0x3000 0x1000 m₀ := by
  have hregion : allocatableRegionSize 0x80060000 0x3000 0x1000 = 0x2000 := by
    rw [allocatableRegionSize, overheadSize_three_pages]
    decide
  have hdepth : getRequiredDepth (0x2000 / pageSize) ≤ maxDepth := by
    rw [getRequiredDepth_of_lt (by decide)]
    decide
  have hsome : ∃ m₀, initializePages backingMemory zeroGenerator (fun _ => 0)
      0x80060000 0x3000 0x1000 = some m₀ := by
    rw [initializePages, if_neg (by decide), overheadSize_three_pages, if_neg (by decide)]
    exact ⟨_, rfl⟩
  obtain ⟨m₀, hm₀⟩ := hsome
  exact ⟨m₀, hm₀, h, by decide, by rw [hregion]; decide, by rw [hregion]; exact hdepth⟩

end KDynamicPageManager

end Sudachi.Kernel
