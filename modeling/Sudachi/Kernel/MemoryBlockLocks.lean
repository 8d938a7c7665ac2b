import Sudachi.Kernel.MemoryBlockPages

/-!
# Lock flags and lock counts of a block

Each lock flag of a block stands for a count: `IpcLocked` and `DeviceShared` for the number of locks
on every page of the block, the merge marks for the number of locks that start or end with the
block. The functions of `KMemoryBlock` keep flags and counts together as long as no count wraps;
each lemma below asks for exactly the counts that its function steps up or down.
-/

set_option autoImplicit false

namespace Sudachi.Kernel

open Sudachi.Foundations BitVec
open KMemoryAttribute (lockBits)

/-- The merge marks that belong to the lock functions. -/
def DisableMergeAttribute.lockMarks : DisableMergeAttribute :=
  DisableMergeAttribute.deviceLeft ||| DisableMergeAttribute.ipcLeft |||
    DisableMergeAttribute.deviceRight

theorem and_lockMarks_eq_none_iff (d : DisableMergeAttribute) :
    d &&& DisableMergeAttribute.lockMarks = DisableMergeAttribute.none ↔
      d.getLsbD 1 = false ∧ d.getLsbD 2 = false ∧ d.getLsbD 4 = false := by
  revert d
  decide

/-! ## Flags and counts of one block -/

namespace KMemoryBlock

/-- Each lock flag of the block is set exactly when its count is positive. -/
structure FlagsMatchCounts (b : KMemoryBlock) : Prop where
  ipcLocked : b.memoryAttribute &&& KMemoryAttribute.ipcLocked ≠ KMemoryAttribute.none ↔
    0 < b.ipcLockCount.toNat
  ipcLeft : b.disableMergeAttribute &&& DisableMergeAttribute.ipcLeft ≠
    DisableMergeAttribute.none ↔ 0 < b.ipcDisableMergeCount.toNat
  deviceShared : b.memoryAttribute &&& KMemoryAttribute.deviceShared ≠ KMemoryAttribute.none ↔
    0 < b.deviceUseCount.toNat
  deviceLeft : b.disableMergeAttribute &&& DisableMergeAttribute.deviceLeft ≠
    DisableMergeAttribute.none ↔ 0 < b.deviceDisableMergeLeftCount.toNat
  deviceRight : b.disableMergeAttribute &&& DisableMergeAttribute.deviceRight ≠
    DisableMergeAttribute.none ↔ 0 < b.deviceDisableMergeRightCount.toNat

/-- The flag `i` of the set `v` is up exactly when the count `c` is not zero. -/
def FlagMatches (v : BitVec 8) (i : Nat) (c : BitVec 16) : Prop := v.getLsbD i = true ↔ c ≠ 0

theorem and_ipcLeft_ne_none_iff (d : DisableMergeAttribute) :
    d &&& DisableMergeAttribute.ipcLeft ≠ DisableMergeAttribute.none ↔ d.getLsbD 2 = true := by
  revert d
  decide

theorem and_deviceLeft_ne_none_iff (d : DisableMergeAttribute) :
    d &&& DisableMergeAttribute.deviceLeft ≠ DisableMergeAttribute.none ↔ d.getLsbD 1 = true := by
  revert d
  decide

theorem and_deviceRight_ne_none_iff (d : DisableMergeAttribute) :
    d &&& DisableMergeAttribute.deviceRight ≠ DisableMergeAttribute.none ↔ d.getLsbD 4 = true := by
  revert d
  decide

theorem toNat_pos_iff (c : BitVec 16) : 0 < c.toNat ↔ c ≠ 0 := by
  rw [Nat.pos_iff_ne_zero, ne_eq, ne_eq, ← toNat_inj]
  rfl

theorem flagsMatchCounts_iff (b : KMemoryBlock) :
    b.FlagsMatchCounts ↔ FlagMatches b.memoryAttribute 1 b.ipcLockCount ∧
      FlagMatches b.disableMergeAttribute 2 b.ipcDisableMergeCount ∧
      FlagMatches b.memoryAttribute 2 b.deviceUseCount ∧
      FlagMatches b.disableMergeAttribute 1 b.deviceDisableMergeLeftCount ∧
      FlagMatches b.disableMergeAttribute 4 b.deviceDisableMergeRightCount := by
  unfold FlagMatches
  constructor
  · rintro ⟨h1, h2, h3, h4, h5⟩
    simp only [and_ipcLocked_ne_none_iff, and_ipcLeft_ne_none_iff, and_deviceShared_ne_none_iff,
      and_deviceLeft_ne_none_iff, and_deviceRight_ne_none_iff, toNat_pos_iff] at h1 h2 h3 h4 h5
    exact ⟨h1, h2, h3, h4, h5⟩
  · rintro ⟨h1, h2, h3, h4, h5⟩
    constructor <;>
      simpa only [and_ipcLocked_ne_none_iff, and_ipcLeft_ne_none_iff, and_deviceShared_ne_none_iff,
        and_deviceLeft_ne_none_iff, and_deviceRight_ne_none_iff, toNat_pos_iff]

/-! ### What happens to one flag -/

section Flag

variable {v w : BitVec 8} {i : Nat} {c : BitVec 16}

theorem FlagMatches.congr (h : FlagMatches v i c) (hvw : w.getLsbD i = v.getLsbD i) :
    FlagMatches w i c := by
  rw [FlagMatches, hvw]
  exact h

theorem flagMatches_zero (h : v.getLsbD i = false) : FlagMatches v i 0 := by
  simp [FlagMatches, h]

theorem FlagMatches.eq_zero (h : FlagMatches v i c) (hv : v.getLsbD i = false) : c = 0 := by
  by_contra hc
  have := h.2 hc
  simp [hv] at this

/-- Counting one up and setting the flag. -/
theorem flagMatches_add_one (hc : c ≠ 0xFFFF) (hw : w.getLsbD i = true) :
    FlagMatches w i (c + 1) := by
  simp only [FlagMatches, hw, true_iff]
  bv_omega

/-- Clearing other flags, in a branch or not, does not touch the flag. -/
theorem FlagMatches.clear_other (h : FlagMatches v i c) (hi : i < 8) {mask : BitVec 8}
    (hmask : mask.getLsbD i = false) (last : Bool) :
    FlagMatches (if last then v &&& ~~~mask else v) i c := by
  refine h.congr ?_
  cases last with
  | false => rfl
  | true => simp only [if_true, getLsbD_and, getLsbD_not, hmask, hi, decide_true,
      Bool.not_false, Bool.and_true]

/-- Counting one down and clearing the flag with the last one. -/
theorem FlagMatches.sub_one (h : FlagMatches v i c) (hc : c ≠ 0) {mask : BitVec 8}
    (hmask : mask.getLsbD i = true) :
    FlagMatches (if c == 1 then v &&& ~~~mask else v) i (c - 1) := by
  by_cases hone : c = 1
  · subst hone
    refine flagMatches_zero ?_
    simp only [beq_self_eq_true, if_true, getLsbD_and, getLsbD_not, hmask,
      Bool.not_true, Bool.and_false]
  · have hne : c - 1 ≠ 0 := by bv_omega
    rw [if_neg (by simpa using hone)]
    exact iff_of_true (h.2 hc) hne

end Flag

/-! ### What the functions do to the flags -/

section Functions

variable {b : KMemoryBlock} {left right : Bool}

section

variable (h : b.FlagsMatchCounts)
include h

theorem FlagsMatchCounts.update {s : KMemoryState} {p : KMemoryPermission}
    {attr : KMemoryAttribute} {set : Bool} {setMask clearMask : DisableMergeAttribute}
    (hattr : attr &&& lockBits = KMemoryAttribute.none)
    (hset : setMask &&& DisableMergeAttribute.lockMarks = DisableMergeAttribute.none)
    (hclear : clearMask &&& DisableMergeAttribute.lockMarks = DisableMergeAttribute.none) :
    (b.update s p attr set setMask clearMask).FlagsMatchCounts := by
  obtain ⟨h1, h2, h3, h4, h5⟩ := (flagsMatchCounts_iff b).1 h
  obtain ⟨ha1, ha2⟩ := (and_lockBits_eq_none_iff attr).1 hattr
  obtain ⟨hs1, hs2, hs4⟩ := (and_lockMarks_eq_none_iff setMask).1 hset
  obtain ⟨hc1, hc2, hc4⟩ := (and_lockMarks_eq_none_iff clearMask).1 hclear
  have hd : ∀ i, setMask.getLsbD i = false → clearMask.getLsbD i = false → i < 8 →
      (b.update s p attr set setMask clearMask).disableMergeAttribute.getLsbD i =
        b.disableMergeAttribute.getLsbD i := by
    intro i hsi hci hi
    simp only [KMemoryBlock.update]
    split_ifs <;> simp only [getLsbD_and, getLsbD_or, getLsbD_not, hsi, hci, hi,
      decide_true, Bool.not_false, Bool.and_true, Bool.or_false]
  refine (flagsMatchCounts_iff _).2 ⟨h1.congr ?_, h2.congr ?_, h3.congr ?_, h4.congr ?_,
    h5.congr ?_⟩
  · simp [-getLsbD_eq_getElem, KMemoryBlock.update, ha1, lockBits,
      KMemoryAttribute.ipcLocked, KMemoryAttribute.deviceShared]
  · exact hd 2 hs2 hc2 (by decide)
  · simp [-getLsbD_eq_getElem, KMemoryBlock.update, ha2, lockBits,
      KMemoryAttribute.ipcLocked, KMemoryAttribute.deviceShared]
  · exact hd 1 hs1 hc1 (by decide)
  · exact hd 4 hs4 hc4 (by decide)

theorem FlagsMatchCounts.updateAttribute {mask attr : KMemoryAttribute}
    (hmask : mask &&& lockBits = KMemoryAttribute.none)
    (hattr : attr &&& lockBits = KMemoryAttribute.none) :
    (b.updateAttribute mask attr).FlagsMatchCounts := by
  obtain ⟨h1, h2, h3, h4, h5⟩ := (flagsMatchCounts_iff b).1 h
  obtain ⟨ha1, ha2⟩ := (and_lockBits_eq_none_iff attr).1 hattr
  obtain ⟨hm1, hm2⟩ := (and_lockBits_eq_none_iff mask).1 hmask
  refine (flagsMatchCounts_iff _).2 ⟨h1.congr ?_, h2, h3.congr ?_, h4, h5⟩
  · simp [-getLsbD_eq_getElem, KMemoryBlock.updateAttribute, ha1, hm1]
  · simp [-getLsbD_eq_getElem, KMemoryBlock.updateAttribute, ha2, hm2]

theorem FlagsMatchCounts.split_fst (a : Nat) : (b.split a).1.FlagsMatchCounts := by
  obtain ⟨h1, h2, h3, h4, -⟩ := (flagsMatchCounts_iff b).1 h
  refine (flagsMatchCounts_iff _).2 ⟨h1, h2.congr ?_, h3, h4.congr ?_, flagMatches_zero ?_⟩ <;>
    simp [split, DisableMergeAttribute.allLeft, DisableMergeAttribute.normal,
      DisableMergeAttribute.deviceLeft, DisableMergeAttribute.ipcLeft, DisableMergeAttribute.locked]

theorem FlagsMatchCounts.split_snd (a : Nat) : (b.split a).2.FlagsMatchCounts := by
  obtain ⟨h1, -, h3, -, h5⟩ := (flagsMatchCounts_iff b).1 h
  refine (flagsMatchCounts_iff _).2
    ⟨h1, flagMatches_zero ?_, h3, flagMatches_zero ?_, h5.congr ?_⟩ <;>
    simp [split, DisableMergeAttribute.allRight, DisableMergeAttribute.deviceRight]

theorem FlagsMatchCounts.shareLeft (hleft : left = true → b.deviceDisableMergeLeftCount ≠ 0xFFFF) :
    (b.updateDeviceDisableMergeStateForShareLeft left).FlagsMatchCounts := by
  obtain ⟨h1, h2, h3, -, h5⟩ := (flagsMatchCounts_iff b).1 h
  cases left with
  | false => exact h
  | true =>
    refine (flagsMatchCounts_iff _).2
      ⟨h1, h2.congr ?_, h3, flagMatches_add_one (hleft rfl) ?_, h5.congr ?_⟩ <;>
      simp [updateDeviceDisableMergeStateForShareLeft, DisableMergeAttribute.deviceLeft]

theorem FlagsMatchCounts.shareRight
    (hright : right = true → b.deviceDisableMergeRightCount ≠ 0xFFFF) :
    (b.updateDeviceDisableMergeStateForShareRight right).FlagsMatchCounts := by
  obtain ⟨h1, h2, h3, h4, -⟩ := (flagsMatchCounts_iff b).1 h
  cases right with
  | false => exact h
  | true =>
    refine (flagsMatchCounts_iff _).2
      ⟨h1, h2.congr ?_, h3, h4.congr ?_, flagMatches_add_one (hright rfl) ?_⟩ <;>
      simp [updateDeviceDisableMergeStateForShareRight, DisableMergeAttribute.deviceRight]

theorem FlagsMatchCounts.share (hleft : left = true → b.deviceDisableMergeLeftCount ≠ 0xFFFF)
    (hright : right = true → b.deviceDisableMergeRightCount ≠ 0xFFFF) :
    (b.updateDeviceDisableMergeStateForShare left right).FlagsMatchCounts := by
  refine (h.shareLeft hleft).shareRight fun hr => ?_
  cases left <;> exact hright hr

theorem FlagsMatchCounts.shareToDevice (huse : b.deviceUseCount ≠ 0xFFFF)
    (hleft : left = true → b.deviceDisableMergeLeftCount ≠ 0xFFFF)
    (hright : right = true → b.deviceDisableMergeRightCount ≠ 0xFFFF) :
    (b.shareToDevice left right).FlagsMatchCounts := by
  obtain ⟨h1, h2, -, h4, h5⟩ := (flagsMatchCounts_iff b).1 h
  refine FlagsMatchCounts.share ((flagsMatchCounts_iff _).2
    ⟨h1.congr ?_, h2, flagMatches_add_one huse ?_, h4, h5⟩) hleft hright <;>
    simp [KMemoryAttribute.deviceShared]

/-- The count on the left may go down as far as the flag follows it. -/
theorem FlagsMatchCounts.setLeftCount {c : BitVec 16}
    (hpos : c ≠ 0 → b.deviceDisableMergeLeftCount ≠ 0) : FlagsMatchCounts { b with
      deviceDisableMergeLeftCount := c
      disableMergeAttribute :=
        if c == 0 then b.disableMergeAttribute &&& ~~~DisableMergeAttribute.deviceLeft
        else b.disableMergeAttribute } := by
  obtain ⟨h1, h2, h3, h4, h5⟩ := (flagsMatchCounts_iff b).1 h
  by_cases hc : c = 0
  · subst hc
    refine (flagsMatchCounts_iff _).2 ⟨h1, h2.congr ?_, h3, flagMatches_zero ?_, h5.congr ?_⟩ <;>
      simp [DisableMergeAttribute.deviceLeft]
  · have hcb : (c == 0) = false := by simpa using hc
    simp only [hcb, Bool.false_eq_true, if_false]
    exact (flagsMatchCounts_iff _).2 ⟨h1, h2, h3, iff_of_true (h4.2 (hpos hc)) hc, h5⟩

end

/-- What `UpdateDeviceDisableMergeStateForUnshareLeft` makes of the count. -/
def leftCountAfterUnshare (useCount count : BitVec 16) (left : Bool) : BitVec 16 :=
  if left && count == 0 then count
  else
    let count := if left then count - 1 else count
    if useCount < count then useCount else count

theorem leftCountAfterUnshare_zero (useCount : BitVec 16) (left : Bool) :
    leftCountAfterUnshare useCount 0 left = 0 := by
  cases left with
  | false => simp [leftCountAfterUnshare]
  | true => simp [leftCountAfterUnshare]

theorem unshareLeft_leftCount (b : KMemoryBlock) (left : Bool) :
    (b.updateDeviceDisableMergeStateForUnshareLeft left).deviceDisableMergeLeftCount =
      leftCountAfterUnshare b.deviceUseCount b.deviceDisableMergeLeftCount left := by
  unfold updateDeviceDisableMergeStateForUnshareLeft leftCountAfterUnshare
  split_ifs <;> rfl

section

variable (h : b.FlagsMatchCounts)
include h

theorem FlagsMatchCounts.unshareLeft :
    (b.updateDeviceDisableMergeStateForUnshareLeft left).FlagsMatchCounts := by
  by_cases hret : (left && b.deviceDisableMergeLeftCount == 0) = true
  · rw [updateDeviceDisableMergeStateForUnshareLeft, if_pos hret]
    exact h
  · rw [updateDeviceDisableMergeStateForUnshareLeft, if_neg hret]
    refine h.setLeftCount fun hne hzero => hne ?_
    -- The new count is the one that a zero count would stay at.
    have hspec := leftCountAfterUnshare_zero b.deviceUseCount left
    rw [← hzero, leftCountAfterUnshare, if_neg hret] at hspec
    exact hspec.trans hzero

theorem FlagsMatchCounts.unshareRight (hright : right = true → b.deviceDisableMergeRightCount ≠ 0) :
    (b.updateDeviceDisableMergeStateForUnshareRight right).FlagsMatchCounts := by
  obtain ⟨h1, h2, h3, h4, h5⟩ := (flagsMatchCounts_iff b).1 h
  cases right with
  | false => exact h
  | true =>
    exact (flagsMatchCounts_iff _).2 ⟨h1, h2.clear_other (by decide) (by decide) _, h3,
      h4.clear_other (by decide) (by decide) _, h5.sub_one (hright rfl) (by decide)⟩

theorem FlagsMatchCounts.unshare (hright : right = true → b.deviceDisableMergeRightCount ≠ 0) :
    (b.updateDeviceDisableMergeStateForUnshare left right).FlagsMatchCounts := by
  refine h.unshareLeft.unshareRight fun hr => ?_
  unfold updateDeviceDisableMergeStateForUnshareLeft
  split_ifs <;> exact hright hr

theorem FlagsMatchCounts.dropDeviceUse (huse : b.deviceUseCount ≠ 0) :
    b.dropDeviceUse.FlagsMatchCounts := by
  obtain ⟨h1, h2, h3, h4, h5⟩ := (flagsMatchCounts_iff b).1 h
  exact (flagsMatchCounts_iff _).2 ⟨h1.clear_other (by decide) (by decide) _, h2,
    h3.sub_one huse (by decide), h4, h5⟩

theorem FlagsMatchCounts.lockForIpc (hipc : b.ipcLockCount ≠ 0xFFFF)
    (hleft : left = true → b.ipcDisableMergeCount ≠ 0xFFFF) (perm : KMemoryPermission) :
    (b.lockForIpc perm left).FlagsMatchCounts := by
  obtain ⟨-, h2, h3, h4, h5⟩ := (flagsMatchCounts_iff b).1 h
  cases left with
  | false =>
    refine (flagsMatchCounts_iff _).2
      ⟨flagMatches_add_one hipc ?_, h2, h3.congr ?_, h4, h5⟩ <;>
      simp [KMemoryBlock.lockForIpc, KMemoryAttribute.ipcLocked]
  | true =>
    refine (flagsMatchCounts_iff _).2 ⟨flagMatches_add_one hipc ?_,
      flagMatches_add_one (hleft rfl) ?_, h3.congr ?_, h4.congr ?_, h5.congr ?_⟩ <;>
      simp [KMemoryBlock.lockForIpc, KMemoryAttribute.ipcLocked, DisableMergeAttribute.ipcLeft]

theorem FlagsMatchCounts.unlockForIpc (hipc : b.ipcLockCount ≠ 0)
    (hleft : left = true → b.ipcDisableMergeCount ≠ 0) :
    (b.unlockForIpc left).FlagsMatchCounts := by
  obtain ⟨h1, h2, h3, h4, h5⟩ := (flagsMatchCounts_iff b).1 h
  refine (flagsMatchCounts_iff _).2 ⟨h1.sub_one hipc (by decide), ?_,
    h3.clear_other (by decide) (by decide) _, h4.clear_other (by decide) (by decide) _,
    h5.clear_other (by decide) (by decide) _⟩
  cases left with
  | false => exact h2
  | true => exact h2.sub_one (hleft rfl) (by decide)

end

end Functions

end KMemoryBlock

end Sudachi.Kernel
