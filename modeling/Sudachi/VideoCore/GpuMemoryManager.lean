import Sudachi.Core.DeviceMemoryBlocks
import Sudachi.Foundations.PackedTable

/-!
# The memory manager of the GPU

`MemoryManager` of `memory_manager.cpp` has two page tables over one address space, one of small
pages and one of big pages, each with a table of two-bit entries. `Map` and `MapSparse` write one of
the two, `Unmap` clears both, and a lookup asks the big pages first. The parts of the state that
come in pairs are indexed by `is_big_page`.
-/

set_option autoImplicit false

namespace Sudachi.VideoCore

open Sudachi.Foundations Sudachi.Foundations.PackedTable Sudachi.Core Function

/-- `cpu_page_bits`. -/
def cpuPageBits : Nat := 12

/-- The constructor's parameters. Small pages are as large as those of the device: 12 bits is what
`nvhost_as_gpu` passes, and the default. The page tables hold page numbers of 32 bits. -/
structure GpuLayout where
  addressSpaceBits : Nat
  bigPageBits : Nat
  pageBits : Nat
  pageBits_eq : pageBits = cpuPageBits
  page_lt : pageBits < bigPageBits
  big_le : bigPageBits ≤ addressSpaceBits

/-- `EntryType`. -/
inductive EntryType where
  | free
  | reserved
  | mapped
deriving DecidableEq

namespace EntryType

def toWord : EntryType → BitVec 64
  | free => 0
  | reserved => 1
  | mapped => 2

/-- The entry of a word of two bits; no table holds a 3, which is neither reserved nor mapped. -/
def ofWord (word : BitVec 64) : EntryType :=
  if word = 2 then mapped else if word = 1 then reserved else free

theorem ofWord_toWord (e : EntryType) : ofWord e.toWord = e := by
  cases e <;> rfl

end EntryType

namespace GpuLayout

def addressSpaceSize (L : GpuLayout) : Nat := 2 ^ L.addressSpaceBits

/-- `page_bits` and `big_page_bits`. -/
def bits (L : GpuLayout) (isBigPage : Bool) : Nat := if isBigPage then L.bigPageBits else L.pageBits

/-- `page_size` and `big_page_size`. -/
def size (L : GpuLayout) (isBigPage : Bool) : Nat := 2 ^ L.bits isBigPage

/-- `PageEntryIndex`. -/
def pageEntryIndex (L : GpuLayout) (isBigPage : Bool) (gpuAddr : Nat) : Nat :=
  (gpuAddr >>> L.bits isBigPage) &&& (2 ^ (L.addressSpaceBits - L.bits isBigPage) - 1)

end GpuLayout

/-- The tables of the memory manager: `entries`, `page_table` and `big_page_table_dev`,
`big_page_continuous`. -/
structure GpuMemoryManager where
  entries : Bool → Nat → BitVec 64
  pageTable : Bool → Nat → BitVec 32
  bigPageContinuous : Nat → BitVec 64

namespace GpuMemoryManager

def initial : GpuMemoryManager where
  entries := fun _ _ => 0
  pageTable := fun _ _ => 0
  bigPageContinuous := fun _ => 0

/-- `GetEntry`. -/
def getEntry (L : GpuLayout) (m : GpuMemoryManager) (isBigPage : Bool) (position : Nat) :
    EntryType :=
  let position := position >>> L.bits isBigPage
  let entryMask := m.entries isBigPage (position / 32)
  let subIndex := position % 32
  .ofWord ((entryMask >>> (2 * subIndex)) &&& 3)

/-- `SetEntry`. -/
def setEntry (L : GpuLayout) (m : GpuMemoryManager) (isBigPage : Bool) (position : Nat)
    (entry : EntryType) : GpuMemoryManager :=
  let position := position >>> L.bits isBigPage
  let entryMask := m.entries isBigPage (position / 32)
  let subIndex := position % 32
  { m with
    entries := update m.entries isBigPage (update (m.entries isBigPage)
      (position / 32)
      ((~~~(3#64 <<< (subIndex * 2)) &&& entryMask) ||| (entry.toWord <<< (subIndex * 2)))) }

/-- `IsBigPageContinuous`. -/
def isBigPageContinuous (m : GpuMemoryManager) (bigPageIndex : Nat) : Bool :=
  let entryMask := m.bigPageContinuous (bigPageIndex / 64)
  let subIndex := bigPageIndex % 64
  ((entryMask >>> subIndex) &&& 1) != 0

/-- `SetBigPageContinuous`. -/
def setBigPageContinuous (m : GpuMemoryManager) (bigPageIndex : Nat) (value : Bool) :
    GpuMemoryManager :=
  let continuousMask := m.bigPageContinuous (bigPageIndex / 64)
  let subIndex := bigPageIndex % 64
  { m with
    bigPageContinuous := update m.bigPageContinuous (bigPageIndex / 64)
      ((~~~(1#64 <<< subIndex) &&& continuousMask) ||| if value then 1#64 <<< subIndex else 0) }

/-- Set a page number in one of the page tables. -/
def setTable (m : GpuMemoryManager) (isBigPage : Bool) (index : Nat) (value : BitVec 32) :
    GpuMemoryManager :=
  { m with
    pageTable := update m.pageTable isBigPage
      (update (m.pageTable isBigPage) index value) }

/-- The test in `BigPageTableOp` of whether the memory behind a big page is in one piece on the
host. -/
def isContinuous (L : GpuLayout) (memory : DeviceMemoryManager) (devAddr : Nat) : Bool :=
  match memory.getPointer devAddr with
  | none => false
  | some basePtr => (List.range (L.size true / L.size false - 1)).all fun k =>
    memory.getPointer (devAddr + (k + 1) * L.size false) = some (basePtr + (k + 1) * L.size false)

/-- The body of the loop in `PageTableOp` and `BigPageTableOp`. -/
def tablePage (L : GpuLayout) (memory : DeviceMemoryManager) (isBigPage : Bool)
    (entryType : EntryType) (gpuAddr devAddr : Nat) (m : GpuMemoryManager) (i : Nat) :
    GpuMemoryManager :=
  let offset := i * L.size isBigPage
  let currentGpuAddr := gpuAddr + offset
  let m := m.setEntry L isBigPage currentGpuAddr entryType
  if entryType = .mapped then
    let currentDevAddr := devAddr + offset
    let index := L.pageEntryIndex isBigPage currentGpuAddr
    let m := m.setTable isBigPage index (.ofNat 32 (currentDevAddr >>> cpuPageBits))
    if isBigPage then m.setBigPageContinuous index (isContinuous L memory currentDevAddr) else m
  else m

/-- The number of pages that the loops go over. -/
def opPages (L : GpuLayout) (isBigPage : Bool) (size : Nat) : Nat :=
  (size + L.size isBigPage - 1) / L.size isBigPage

/-- The loop of `PageTableOp` and `BigPageTableOp`. -/
def tableOp (L : GpuLayout) (memory : DeviceMemoryManager) (isBigPage : Bool)
    (entryType : EntryType) (gpuAddr devAddr size : Nat) (m : GpuMemoryManager) :
    GpuMemoryManager :=
  (List.range (opPages L isBigPage size)).foldl
    (tablePage L memory isBigPage entryType gpuAddr devAddr) m

/-- `PageTableOp`. -/
def pageTableOp (L : GpuLayout) (memory : DeviceMemoryManager) :=
  tableOp L memory false

/-- `BigPageTableOp`. -/
def bigPageTableOp (L : GpuLayout) (memory : DeviceMemoryManager) :=
  tableOp L memory true

/-- `Map`. -/
def map (L : GpuLayout) (memory : DeviceMemoryManager) (gpuAddr devAddr size : Nat)
    (isBigPages : Bool) (m : GpuMemoryManager) : GpuMemoryManager :=
  if isBigPages then bigPageTableOp L memory .mapped gpuAddr devAddr size m
  else pageTableOp L memory .mapped gpuAddr devAddr size m

/-- `MapSparse`. -/
def mapSparse (L : GpuLayout) (memory : DeviceMemoryManager) (gpuAddr size : Nat)
    (isBigPages : Bool) (m : GpuMemoryManager) : GpuMemoryManager :=
  if isBigPages then bigPageTableOp L memory .reserved gpuAddr 0 size m
  else pageTableOp L memory .reserved gpuAddr 0 size m

/-- `Unmap`. -/
def unmap (L : GpuLayout) (memory : DeviceMemoryManager) (gpuAddr size : Nat)
    (m : GpuMemoryManager) : GpuMemoryManager :=
  if size = 0 then m
  else pageTableOp L memory .free gpuAddr 0 size (bigPageTableOp L memory .free gpuAddr 0 size m)

/-- `GpuToCpuAddress`. -/
def gpuToCpuAddress (L : GpuLayout) (m : GpuMemoryManager) (gpuAddr : Nat) : Option Nat :=
  if ¬gpuAddr < L.addressSpaceSize then none
  else if m.getEntry L true gpuAddr ≠ .mapped then
    if m.getEntry L false gpuAddr ≠ .mapped then none
    else
      let devAddrBase := (m.pageTable false (L.pageEntryIndex false gpuAddr)).toNat <<< cpuPageBits
      some (devAddrBase + (gpuAddr &&& (L.size false - 1)))
  else
    let devAddrBase := (m.pageTable true (L.pageEntryIndex true gpuAddr)).toNat <<< cpuPageBits
    some (devAddrBase + (gpuAddr &&& (L.size true - 1)))

end GpuMemoryManager

/-- The calls that change the page tables. -/
inductive GpuOperation where
  | map (gpuAddr devAddr size : Nat) (isBigPages : Bool)
  | mapSparse (gpuAddr size : Nat) (isBigPages : Bool)
  | unmap (gpuAddr size : Nat)

namespace GpuOperation

def gpuAddr : GpuOperation → Nat
  | map gpuAddr _ _ _ => gpuAddr
  | mapSparse gpuAddr _ _ => gpuAddr
  | unmap gpuAddr _ => gpuAddr

def size : GpuOperation → Nat
  | map _ _ size _ => size
  | mapSparse _ size _ => size
  | unmap _ size => size

/-- The pages to which the range of a call is aligned are big. -/
def isBigPages : GpuOperation → Bool
  | map _ _ _ isBigPages => isBigPages
  | mapSparse _ _ isBigPages => isBigPages
  | unmap _ _ => true

/-- The range of the call contains an address. -/
def Contains (op : GpuOperation) (a : Nat) : Prop := op.gpuAddr ≤ a ∧ a < op.gpuAddr + op.size

instance (op : GpuOperation) (a : Nat) : Decidable (op.Contains a) :=
  inferInstanceAs (Decidable (_ ∧ _))

/-- The device address that a call gives to an address of its range. -/
def deviceAddress : GpuOperation → Nat → Option Nat
  | map gpuAddr devAddr _ _, a => some (devAddr + (a - gpuAddr))
  | mapSparse _ _ _, _ => none
  | unmap _ _, _ => none

/-- The range of the call is made of whole pages, and lies in the address space. -/
structure Aligned (L : GpuLayout) (op : GpuOperation) : Prop where
  address : L.size op.isBigPages ∣ op.gpuAddr
  size : L.size op.isBigPages ∣ op.size
  inside : op.gpuAddr + op.size ≤ L.addressSpaceSize

end GpuOperation

namespace GpuMemoryManager

/-- Make a call. -/
def apply (L : GpuLayout) (memory : DeviceMemoryManager) (m : GpuMemoryManager) :
    GpuOperation → GpuMemoryManager
  | .map gpuAddr devAddr size isBigPages => m.map L memory gpuAddr devAddr size isBigPages
  | .mapSparse gpuAddr size isBigPages => m.mapSparse L memory gpuAddr size isBigPages
  | .unmap gpuAddr size => m.unmap L memory gpuAddr size

/-! ## The tables -/

variable {L : GpuLayout} {m : GpuMemoryManager} {memory : DeviceMemoryManager} {big b : Bool}
  {e : EntryType} {page q i : Nat}

/-- The entry of a page. -/
def entryAt (m : GpuMemoryManager) (big : Bool) (page : Nat) : EntryType :=
  .ofWord (field 2 32 (m.entries big) page)

theorem getEntry_eq (a : Nat) : m.getEntry L big a = m.entryAt big (a >>> L.bits big) := rfl

theorem entryAt_setEntry (a : Nat) : (m.setEntry L big a e).entryAt b q =
    if b = big ∧ q = a >>> L.bits big then e else m.entryAt b q := by
  have hentries : (m.setEntry L big a e).entries = update m.entries big
      (setField 2 32 (m.entries big) (a >>> L.bits big) e.toWord) := by
    rw [setEntry, setField, mul_comm 2]
    rfl
  have hword : e.toWord &&& lowMask 64 2 = e.toWord := by cases e <;> rfl
  rw [entryAt, hentries]
  by_cases hb : b = big
  · subst hb
    rw [update_self, field_setField (by decide) (by decide) hword]
    by_cases hq : q = a >>> L.bits b
    · rw [if_pos hq, if_pos ⟨rfl, hq⟩, EntryType.ofWord_toWord]
    · rw [if_neg hq, if_neg fun h => hq h.2]
      rfl
  · rw [update_of_ne hb, if_neg fun h => hb h.1]
    rfl

theorem isBigPageContinuous_eq :
    m.isBigPageContinuous q = (field 1 64 m.bigPageContinuous q != 0) := by
  rw [isBigPageContinuous, field, one_mul]
  rfl

theorem isBigPageContinuous_setBigPageContinuous (value : Bool) :
    (m.setBigPageContinuous page value).isBigPageContinuous q =
      if q = page then value else m.isBigPageContinuous q := by
  have htable : (m.setBigPageContinuous page value).bigPageContinuous =
      setField 1 64 m.bigPageContinuous page (if value then 1 else 0) := by
    rw [setBigPageContinuous, setField, one_mul]
    cases value with
    | true => rfl
    | false =>
      have hzero : (0 : BitVec 64) <<< (page % 64) = 0 := by simp
      rw [if_neg (by decide), if_neg (by decide), hzero]
      rfl
  have hword : (if value then 1 else 0) &&& lowMask 64 1 = (if value then 1 else 0) := by
    cases value <;> rfl
  rw [isBigPageContinuous_eq, htable, field_setField (by decide) (by decide) hword]
  split
  · cases value <;> rfl
  · rw [isBigPageContinuous_eq]

/-- The page of an address, some pages behind another one. -/
theorem page_add (L : GpuLayout) (big : Bool) (a i : Nat) :
    (a + i * L.size big) >>> L.bits big = a >>> L.bits big + i := by
  rw [Nat.shiftRight_eq_div_pow, Nat.shiftRight_eq_div_pow]
  exact Nat.add_mul_div_right _ _ (Nat.two_pow_pos _)

theorem bits_le (L : GpuLayout) (big : Bool) : L.bits big ≤ L.addressSpaceBits := by
  have hlt := L.page_lt
  have hle := L.big_le
  cases big with
  | false => exact le_of_lt (lt_of_lt_of_le hlt hle)
  | true => exact hle

/-- The index into a page table is the page, in the address space. -/
theorem pageEntryIndex_eq {a : Nat} (h : a < L.addressSpaceSize) :
    L.pageEntryIndex big a = a >>> L.bits big := by
  rw [GpuLayout.pageEntryIndex, Nat.and_two_pow_sub_one_eq_mod]
  refine Nat.mod_eq_of_lt ?_
  rw [Nat.shiftRight_eq_div_pow, Nat.div_lt_iff_lt_mul (Nat.two_pow_pos _), ← pow_add,
    Nat.sub_add_cancel (bits_le L big)]
  exact h

/-- What the loops over the pages do: `e` is written to the entries of `count` pages from `first`
on, with the addresses of the device from `devAddr` on where it is `mapped`. -/
structure Wrote (L : GpuLayout) (memory : DeviceMemoryManager) (big : Bool) (e : EntryType)
    (first devAddr count : Nat) (m m' : GpuMemoryManager) : Prop where
  entry : ∀ b q, m'.entryAt b q =
    if b = big ∧ first ≤ q ∧ q < first + count then e else m.entryAt b q
  table : ∀ b q, m'.pageTable b q =
    if (b = big ∧ first ≤ q ∧ q < first + count) ∧ e = .mapped then
      .ofNat 32 ((devAddr + (q - first) * L.size big) >>> cpuPageBits)
    else m.pageTable b q
  continuous : ∀ q, m'.isBigPageContinuous q =
    if (true = big ∧ first ≤ q ∧ q < first + count) ∧ e = .mapped then
      isContinuous L memory (devAddr + (q - first) * L.size big)
    else m.isBigPageContinuous q

theorem tablePage_wrote {gpuAddr devAddr : Nat}
    (h : gpuAddr + i * L.size big < L.addressSpaceSize) :
    Wrote L memory big e (gpuAddr >>> L.bits big + i) (devAddr + i * L.size big) 1 m
      (tablePage L memory big e gpuAddr devAddr m i) := by
  have hindex : L.pageEntryIndex big (gpuAddr + i * L.size big) = gpuAddr >>> L.bits big + i := by
    rw [pageEntryIndex_eq h, page_add]
  have hself : ∀ q, gpuAddr >>> L.bits big + i ≤ q ∧ q < gpuAddr >>> L.bits big + i + 1 ↔
      q = gpuAddr >>> L.bits big + i := fun q => by omega
  have hentry : ∀ b q, (m.setEntry L big (gpuAddr + i * L.size big) e).entryAt b q =
      if b = big ∧ q = gpuAddr >>> L.bits big + i then e else m.entryAt b q := fun b q => by
    rw [entryAt_setEntry, page_add]
  have htable : ∀ b q value, ((m.setEntry L big (gpuAddr + i * L.size big) e).setTable big
      (gpuAddr >>> L.bits big + i) value).pageTable b q =
      if b = big ∧ q = gpuAddr >>> L.bits big + i then value else m.pageTable b q := by
    intro b q value
    show update m.pageTable big _ b q = _
    by_cases hb : b = big
    · subst hb
      rw [update_self]
      by_cases hq : q = gpuAddr >>> L.bits b + i
      · rw [hq, update_self, if_pos ⟨rfl, rfl⟩]
      · rw [update_of_ne hq, if_neg fun h => hq h.2]
        rfl
    · rw [update_of_ne hb, if_neg fun h => hb h.1]
  have hdistance : ∀ q, q = gpuAddr >>> L.bits big + i →
      devAddr + i * L.size big + (q - (gpuAddr >>> L.bits big + i)) * L.size big =
        devAddr + i * L.size big := by
    rintro q rfl
    rw [Nat.sub_self, zero_mul, add_zero]
  by_cases he : e = .mapped
  case neg =>
    rw [tablePage, if_neg he]
    refine ⟨fun b q => by simp only [hself, hentry], fun b q => ?_, fun q => ?_⟩
    · rw [if_neg fun h => he h.2]
      rfl
    · rw [if_neg fun h => he h.2]
      rfl
  case pos =>
    subst he
    rw [tablePage, if_pos rfl, hindex]
    refine ⟨fun b q => ?_, fun b q => ?_, fun q => ?_⟩ <;> simp only [hself, and_true]
    · cases big <;> exact hentry b q
    · have hvalue := htable b q (.ofNat 32 ((devAddr + i * L.size big) >>> cpuPageBits))
      have hboth : (if b = big ∧ q = gpuAddr >>> L.bits big + i then
          BitVec.ofNat 32 ((devAddr + i * L.size big + (q - (gpuAddr >>> L.bits big + i)) *
            L.size big) >>> cpuPageBits) else m.pageTable b q) =
          if b = big ∧ q = gpuAddr >>> L.bits big + i then
            .ofNat 32 ((devAddr + i * L.size big) >>> cpuPageBits) else m.pageTable b q := by
        split
        · rw [hdistance q ‹_ ∧ _›.2]
        · rfl
      rw [hboth]
      cases big <;> exact hvalue
    · cases big with
      | false =>
        rw [if_neg (by decide), if_neg fun h => absurd h.1 (by decide)]
        rfl
      | true =>
        rw [if_pos rfl, isBigPageContinuous_setBigPageContinuous]
        simp only [true_and]
        split
        · rw [hdistance q ‹_›]
        · rfl

/-- The loop writes its pages one after the other. -/
theorem Wrote.trans {first devAddr count : Nat} {m' m'' : GpuMemoryManager}
    (h : Wrote L memory big e first devAddr count m m')
    (h' : Wrote L memory big e (first + count) (devAddr + count * L.size big) 1 m' m'') :
    Wrote L memory big e first devAddr (count + 1) m m'' := by
  have hself : ∀ q, first + count ≤ q ∧ q < first + count + 1 ↔ q = first + count := by
    intro q
    omega
  have hlast : ∀ q, first ≤ q ∧ q < first + (count + 1) ↔
      q = first + count ∨ first ≤ q ∧ q < first + count := by
    intro q
    omega
  have hdistance : devAddr + count * L.size big + (first + count - (first + count)) * L.size big =
      devAddr + (first + count - first) * L.size big := by
    rw [Nat.sub_self, zero_mul, add_zero, Nat.add_sub_cancel_left]
  refine ⟨fun b q => ?_, fun b q => ?_, fun q => ?_⟩
  · rw [h'.entry, h.entry]
    simp only [hself, hlast]
    by_cases hq : q = first + count <;> by_cases hb : b = big <;> simp [hb, hq]
  · rw [h'.table, h.table]
    simp only [hself, hlast]
    by_cases hq : q = first + count
    · rw [hq, hdistance]
      by_cases hb : b = big <;> by_cases he : e = .mapped <;> simp [hb, he]
    · by_cases hb : b = big <;> simp [hb, hq]
  · rw [h'.continuous, h.continuous]
    simp only [hself, hlast]
    by_cases hq : q = first + count
    · rw [hq, hdistance]
      by_cases hb : true = big <;> by_cases he : e = .mapped <;> simp [hb, he]
    · by_cases hb : true = big <;> simp [hb, hq]

/-- `PageTableOp` and `BigPageTableOp`. -/
theorem tableOp_wrote {gpuAddr devAddr size : Nat} (hdvd : L.size big ∣ size)
    (hinside : gpuAddr + size ≤ L.addressSpaceSize) :
    Wrote L memory big e (gpuAddr >>> L.bits big) devAddr (size / L.size big) m
      (tableOp L memory big e gpuAddr devAddr size m) := by
  have hpos : 0 < L.size big := Nat.two_pow_pos _
  obtain ⟨count, rfl⟩ := hdvd
  have hpages : opPages L big (L.size big * count) = count := by
    rw [opPages, Nat.add_sub_assoc hpos, Nat.mul_add_div hpos,
      Nat.div_eq_of_lt (Nat.sub_lt hpos Nat.one_pos), add_zero]
  rw [tableOp, hpages, Nat.mul_div_cancel_left _ hpos]
  have hsteps : ∀ n, n ≤ count → Wrote L memory big e (gpuAddr >>> L.bits big) devAddr n m
      ((List.range n).foldl (tablePage L memory big e gpuAddr devAddr) m) := by
    intro n
    induction n with
    | zero =>
      intro _
      have hnone : ∀ q, ¬(gpuAddr >>> L.bits big ≤ q ∧ q < gpuAddr >>> L.bits big + 0) := by
        intro q
        omega
      exact ⟨fun b q => by rw [if_neg fun h => hnone q h.2]; rfl,
        fun b q => by rw [if_neg fun h => hnone q h.1.2]; rfl,
        fun q => by rw [if_neg fun h => hnone q h.1.2]; rfl⟩
    | succ n ih =>
      intro hn
      rw [List.range_succ, List.foldl_append]
      refine (ih (by omega)).trans (tablePage_wrote ?_)
      have hlt : n * L.size big < count * L.size big := Nat.mul_lt_mul_of_pos_right hn hpos
      rw [mul_comm (L.size big)] at hinside
      omega
  exact hsteps count le_rfl

end GpuMemoryManager

end Sudachi.VideoCore
