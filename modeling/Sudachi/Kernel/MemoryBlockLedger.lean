import Sudachi.Kernel.MemoryBlockLocks

/-!
# Lock counts over whole runs

`LockView` is what one address sees of the lock counts. Cutting and merging keep every view
(`pageWise_lockView`), so a run of operations moves the counts as a ledger of the outstanding locks
does, whatever the boundaries of the blocks are. Flags and counts agree in every state of a run that
unlocks what it has locked and never locks a page whose `u16` count is full
(`flagsMatchCounts_of_lockRun`).
-/

set_option autoImplicit false

namespace Sudachi.Kernel

open Sudachi.Foundations Option
open DisableMergeAttribute (allLeft allRight lockMarks)
open KMemoryAttribute (ipcLocked lockBits)
open Option (ite_none_right_eq_some)
open KMemoryBlockManager (initializeManager segments)
open KMemoryBlock (add_address add_getEndAddress add_properties flagMatches_zero
  leftCountAfterUnshare split_fst_address toNat_pos_iff)

/-! ## The counts that one address sees -/

/-- The lock counts at an address: the ones of its page, the ones of the locks that start there, and
the ones of the locks whose last byte it is. -/
structure LockView where
  properties : PageProperties
  ipcLeft : BitVec 16
  deviceLeft : BitVec 16
  deviceRight : BitVec 16
deriving DecidableEq, Repr

/-- What the address `x` sees of the block `b` that holds it. -/
def lockView (x : Nat) (b : KMemoryBlock) : LockView where
  properties := b.properties
  ipcLeft := if b.address = x then b.ipcDisableMergeCount else 0
  deviceLeft := if b.address = x then b.deviceDisableMergeLeftCount else 0
  deviceRight := if b.getEndAddress = x + 1 then b.deviceDisableMergeRightCount else 0

namespace KMemoryBlock

variable {a b : KMemoryBlock}

/-- Without a mark on its right side a block has no count there. -/
theorem FlagsMatchCounts.right_eq_zero (h : a.FlagsMatchCounts)
    (hmark : a.disableMergeAttribute &&& allRight = DisableMergeAttribute.none) :
    a.deviceDisableMergeRightCount = 0 := by
  obtain ⟨-, -, -, -, h5⟩ := (flagsMatchCounts_iff a).1 h
  have hbit : ∀ d : DisableMergeAttribute, d &&& allRight =
      DisableMergeAttribute.none → d.getLsbD 4 = false := by decide
  exact h5.eq_zero (hbit _ hmark)

/-- Without a mark on its left side a block has no counts there. -/
theorem FlagsMatchCounts.left_eq_zero (h : b.FlagsMatchCounts)
    (hmark : b.disableMergeAttribute &&& allLeft = DisableMergeAttribute.none) :
    b.ipcDisableMergeCount = 0 ∧ b.deviceDisableMergeLeftCount = 0 := by
  obtain ⟨-, h2, -, h4, -⟩ := (flagsMatchCounts_iff b).1 h
  have hbit : ∀ d : DisableMergeAttribute, d &&& allLeft =
      DisableMergeAttribute.none → d.getLsbD 2 = false ∧ d.getLsbD 1 = false := by decide
  exact ⟨h2.eq_zero (hbit _ hmark).1, h4.eq_zero (hbit _ hmark).2⟩

theorem FlagsMatchCounts.add (ha : a.FlagsMatchCounts) (hb : b.FlagsMatchCounts)
    (hab : a.canMergeWith b = true) : (a.add b).FlagsMatchCounts := by
  obtain ⟨-, hr, hl⟩ := (canMergeWith_iff a b).1 hab
  obtain ⟨h1, h2, h3, h4, -⟩ := (flagsMatchCounts_iff a).1 ha
  obtain ⟨-, -, -, -, h5⟩ := (flagsMatchCounts_iff b).1 hb
  have hbit : ∀ d : DisableMergeAttribute, (d &&& allLeft =
      DisableMergeAttribute.none → d.getLsbD 2 = false ∧ d.getLsbD 1 = false) ∧
      (d &&& allRight = DisableMergeAttribute.none → d.getLsbD 4 = false) := by decide
  obtain ⟨hb2, hb1⟩ := (hbit _).1 hl
  refine (flagsMatchCounts_iff _).2 ⟨h1, h2.congr ?_, h3, h4.congr ?_, h5.congr ?_⟩
  · simp only [KMemoryBlock.add, BitVec.getLsbD_or, hb2, Bool.or_false]
  · simp only [KMemoryBlock.add, BitVec.getLsbD_or, hb1, Bool.or_false]
  · simp only [KMemoryBlock.add, BitVec.getLsbD_or, (hbit _).2 hr, Bool.false_or]

end KMemoryBlock

/-- Cutting a block and merging two blocks lose no count and duplicate none. -/
theorem pageWise_lockView : PageWise KMemoryBlock.FlagsMatchCounts lockView where
  split_fst {b cut x} _ hend _ hx := by
    have hr : ¬b.getEndAddress = x + 1 := by omega
    have hcount : (b.split cut).1.deviceDisableMergeRightCount = 0 := rfl
    simp only [lockView, hr, if_false, hcount, ite_self, KMemoryBlock.split_fst_properties]
    rfl
  split_snd {b cut x} hlt hend hdvd hx := by
    have hl : ¬b.address = x := by omega
    have h1 : (b.split cut).2.ipcDisableMergeCount = 0 := rfl
    have h2 : (b.split cut).2.deviceDisableMergeLeftCount = 0 := rfl
    simp only [lockView, hl, if_false, h1, h2, ite_self, KMemoryBlock.split_snd_properties,
      KMemoryBlock.split_snd_getEndAddress (le_of_lt hlt) (le_of_lt hend) hdvd]
    rfl
  add_left {a b x} ha _ hab hadj hne hx := by
    obtain ⟨-, hmark, -⟩ := (KMemoryBlock.canMergeWith_iff a b).1 hab
    have hend := add_getEndAddress hadj
    have hr : ¬b.getEndAddress = x + 1 := by omega
    simp only [lockView, hend, hr, if_false, ha.right_eq_zero hmark, ite_self, add_properties]
    rfl
  add_right {a b x} _ hb hab hadj hne hx := by
    obtain ⟨hprop, -, hmark⟩ := (KMemoryBlock.canMergeWith_iff a b).1 hab
    have hend := add_getEndAddress hadj
    have hl : ¬a.address = x := by omega
    obtain ⟨hz1, hz2⟩ := hb.left_eq_zero hmark
    simp only [lockView, hend, add_address, hl, if_false, hz1, hz2, ite_self, add_properties, hprop]
    rfl
  add_inv ha hb hab := ha.add hb hab

/-! ## What an operation does to a view -/

namespace LockFunction

/-- What a lock function makes of the count of the IPC locks that start with a block. -/
def ipcLeftAfter (fn : LockFunction) (left : Bool) (count : BitVec 16) : BitVec 16 :=
  match fn with
  | lockForIpc => if left then count + 1 else count
  | unlockForIpc => if left then count - 1 else count
  | _ => count

/-- What a lock function makes of the count of the device marks at the start of a block; `useCount`
is the device use count that the function leaves. -/
def deviceLeftAfter (fn : LockFunction) (left : Bool) (useCount count : BitVec 16) : BitVec 16 :=
  match fn with
  | shareToDevice => if left then count + 1 else count
  | updateDeviceDisableMergeStateForShare => if left then count + 1 else count
  | unshareToDevice => leftCountAfterUnshare useCount count left
  | updateDeviceDisableMergeStateForUnshare =>
    leftCountAfterUnshare useCount count left
  | _ => count

/-- What a lock function makes of the count of the device marks at the end of a block. -/
def deviceRightAfter (fn : LockFunction) (right : Bool) (count : BitVec 16) : BitVec 16 :=
  match fn with
  | shareToDevice => if right then count + 1 else count
  | updateDeviceDisableMergeStateForShare => if right then count + 1 else count
  | updateDeviceDisableMergeStateForShareRight => if right then count + 1 else count
  | unshareToDevice => if right then count - 1 else count
  | unshareToDeviceRight => if right then count - 1 else count
  | updateDeviceDisableMergeStateForUnshare => if right then count - 1 else count
  | updateDeviceDisableMergeStateForUnshareRight => if right then count - 1 else count
  | lockForIpc => count
  | unlockForIpc => count

variable (fn : LockFunction) (perm : KMemoryPermission) (left right : Bool) (b : KMemoryBlock)

theorem unshare_counts :
    (b.updateDeviceDisableMergeStateForUnshare left right).ipcDisableMergeCount =
        b.ipcDisableMergeCount ∧
      (b.updateDeviceDisableMergeStateForUnshare left right).deviceDisableMergeLeftCount =
        leftCountAfterUnshare b.deviceUseCount b.deviceDisableMergeLeftCount left ∧
      (b.updateDeviceDisableMergeStateForUnshare left right).deviceDisableMergeRightCount =
        if right then b.deviceDisableMergeRightCount - 1 else b.deviceDisableMergeRightCount := by
  rw [← KMemoryBlock.unshareLeft_leftCount, KMemoryBlock.updateDeviceDisableMergeStateForUnshare]
  have hkeep : (b.updateDeviceDisableMergeStateForUnshareLeft left).ipcDisableMergeCount =
      b.ipcDisableMergeCount ∧
      (b.updateDeviceDisableMergeStateForUnshareLeft left).deviceDisableMergeRightCount =
        b.deviceDisableMergeRightCount := by
    unfold KMemoryBlock.updateDeviceDisableMergeStateForUnshareLeft
    split_ifs <;> exact ⟨rfl, rfl⟩
  rw [← hkeep.1, ← hkeep.2]
  cases right <;> exact ⟨rfl, rfl, rfl⟩

theorem call_counts :
    (fn.call perm left right b).ipcDisableMergeCount = fn.ipcLeftAfter left b.ipcDisableMergeCount ∧
      (fn.call perm left right b).deviceDisableMergeLeftCount =
        fn.deviceLeftAfter left (fn.onProperties perm b.properties).deviceUseCount
          b.deviceDisableMergeLeftCount ∧
      (fn.call perm left right b).deviceDisableMergeRightCount =
        fn.deviceRightAfter right b.deviceDisableMergeRightCount := by
  cases fn with
  | shareToDevice => cases left <;> cases right <;> exact ⟨rfl, rfl, rfl⟩
  | unshareToDevice => exact unshare_counts left right b.dropDeviceUse
  | unshareToDeviceRight => cases right <;> exact ⟨rfl, rfl, rfl⟩
  | updateDeviceDisableMergeStateForShare =>
    cases left <;> cases right <;> exact ⟨rfl, rfl, rfl⟩
  | updateDeviceDisableMergeStateForShareRight => cases right <;> exact ⟨rfl, rfl, rfl⟩
  | updateDeviceDisableMergeStateForUnshare => exact unshare_counts left right b
  | updateDeviceDisableMergeStateForUnshareRight => cases right <;> exact ⟨rfl, rfl, rfl⟩
  | lockForIpc => exact ⟨rfl, rfl, rfl⟩
  | unlockForIpc => exact ⟨rfl, rfl, rfl⟩

/-- A boundary that the range does not share keeps its empty counts. -/
theorem counts_zero (useCount : BitVec 16) :
    fn.ipcLeftAfter false 0 = 0 ∧ fn.deviceLeftAfter false useCount 0 = 0 ∧
      fn.deviceRightAfter false 0 = 0 := by
  cases fn <;> exact ⟨rfl, rfl, rfl⟩

end LockFunction

/-- A lock function over the range from `lo` to `hi`, at the address `x` of the range. -/
def LockView.onLock (fn : LockFunction) (perm : KMemoryPermission) (lo hi x : Nat) (w : LockView) :
    LockView :=
  let p := fn.onProperties perm w.properties
  { properties := p
    ipcLeft := fn.ipcLeftAfter (x == lo) w.ipcLeft
    deviceLeft := fn.deviceLeftAfter (x == lo) p.deviceUseCount w.deviceLeft
    deviceRight := fn.deviceRightAfter (x + 1 == hi) w.deviceRight }

theorem lockView_call {b : KMemoryBlock} {lo hi x : Nat} (fn : LockFunction)
    (perm : KMemoryPermission) (hlo : lo ≤ b.address) (hhi : b.getEndAddress ≤ hi)
    (hx : b.address ≤ x ∧ x < b.getEndAddress) :
    lockView x (fn.call perm (b.address == lo) (b.getEndAddress == hi) b) =
      (lockView x b).onLock fn perm lo hi x := by
  set b' := fn.call perm (b.address == lo) (b.getEndAddress == hi) b with hb'
  have hext := fn.call_extent perm (b.address == lo) (b.getEndAddress == hi) b
  obtain ⟨hi1, hi2, hi3⟩ := fn.call_counts perm (b.address == lo) (b.getEndAddress == hi) b
  rw [← hb'] at hext hi1 hi2 hi3
  have hadd : b'.address = b.address := congrArg Prod.fst hext
  have hnum : b'.numPages = b.numPages := congrArg (fun e => e.2.1) hext
  have hprop : b'.properties = fn.onProperties perm b.properties := congrArg (fun e => e.2.2) hext
  have hend : b'.getEndAddress = b.getEndAddress := by
    simp only [KMemoryBlock.getEndAddress_eq, hadd, hnum]
  obtain ⟨hz1, hz2, hz3⟩ := fn.counts_zero (fn.onProperties perm b.properties).deviceUseCount
  simp only [lockView, LockView.onLock, hadd, hend, hprop, hi1, hi2, hi3, LockView.mk.injEq,
    true_and]
  -- The address `x` starts the range only if it starts the block, and likewise for the end.
  have hleft : b.address ≠ x → (x == lo) = false := by
    intro hne
    simp only [beq_eq_false_iff_ne]
    omega
  have hright : b.getEndAddress ≠ x + 1 → (x + 1 == hi) = false := by
    intro hne
    simp only [beq_eq_false_iff_ne]
    omega
  refine ⟨?_, ?_, ?_⟩
  · by_cases h : b.address = x
    · rw [if_pos h, if_pos h, h]
    · rw [if_neg h, if_neg h, hleft h, hz1]
  · by_cases h : b.address = x
    · rw [if_pos h, if_pos h, h]
    · rw [if_neg h, if_neg h, hleft h, hz2]
  · by_cases h : b.getEndAddress = x + 1
    · rw [if_pos h, if_pos h, h]
    · rw [if_neg h, if_neg h, hright h, hz3]

/-- What an operation that rewrites the address `x` makes of its view. -/
def BlockOperation.onView (op : BlockOperation) (x : Nat) (w : LockView) : LockView :=
  match op with
  | updateLock address numPages fn perm =>
    w.onLock fn perm address (address + numPages * pageSize) x
  | op => { w with properties := op.onProperties w.properties }

theorem actsOnView_rewriteBlock (op : BlockOperation) :
    ActsOnView lockView op.rewriteBlock op.address (op.address + op.numPages * pageSize)
      op.onView := by
  intro b x hlo hhi hx
  cases op with
  | update => rfl
  | updateIfMatch => rfl
  | updateAttribute => rfl
  | updateLock address numPages fn perm => exact lockView_call fn perm hlo hhi hx

/-! ## Flags through an operation -/

namespace LockFunction

/-- No count that the function steps up or down at the address `x` wraps. -/
def NoWrap (fn : LockFunction) (lo hi x : Nat) (w : LockView) : Prop :=
  match fn with
  | shareToDevice =>
    w.properties.deviceUseCount ≠ 0xFFFF ∧ (x = lo → w.deviceLeft ≠ 0xFFFF) ∧
      (x + 1 = hi → w.deviceRight ≠ 0xFFFF)
  | unshareToDevice => w.properties.deviceUseCount ≠ 0 ∧ (x + 1 = hi → w.deviceRight ≠ 0)
  | unshareToDeviceRight => w.properties.deviceUseCount ≠ 0 ∧ (x + 1 = hi → w.deviceRight ≠ 0)
  | updateDeviceDisableMergeStateForShare =>
    (x = lo → w.deviceLeft ≠ 0xFFFF) ∧ (x + 1 = hi → w.deviceRight ≠ 0xFFFF)
  | updateDeviceDisableMergeStateForShareRight => x + 1 = hi → w.deviceRight ≠ 0xFFFF
  | updateDeviceDisableMergeStateForUnshare => x + 1 = hi → w.deviceRight ≠ 0
  | updateDeviceDisableMergeStateForUnshareRight => x + 1 = hi → w.deviceRight ≠ 0
  | lockForIpc => w.properties.ipcLockCount ≠ 0xFFFF ∧ (x = lo → w.ipcLeft ≠ 0xFFFF)
  | unlockForIpc => w.properties.ipcLockCount ≠ 0 ∧ (x = lo → w.ipcLeft ≠ 0)

end LockFunction

theorem flagsMatchCounts_call {b : KMemoryBlock} {lo hi : Nat} {fn : LockFunction}
    (perm : KMemoryPermission) (h : b.FlagsMatchCounts) (hne : b.address < b.getEndAddress)
    (hwrap : ∀ x, b.address ≤ x ∧ x < b.getEndAddress → fn.NoWrap lo hi x (lockView x b)) :
    (fn.call perm (b.address == lo) (b.getEndAddress == hi) b).FlagsMatchCounts := by
  -- The first address of the block sees the counts on its left, the last one those on its right.
  have hfirst := hwrap b.address ⟨le_refl _, hne⟩
  have hlast := hwrap (b.getEndAddress - 1) ⟨by omega, by omega⟩
  have hlast' : b.getEndAddress - 1 + 1 = b.getEndAddress := by omega
  have hleft : ∀ {P : Prop}, (b.address = lo → P) → (b.address == lo) = true → P :=
    fun hp hl => hp (by simpa using hl)
  have hright : ∀ {P : Prop}, (b.getEndAddress = hi → P) → (b.getEndAddress == hi) = true → P :=
    fun hp hl => hp (by simpa using hl)
  cases fn <;> simp only [LockFunction.NoWrap, lockView, hlast', if_true] at hfirst hlast
  case shareToDevice =>
    exact h.shareToDevice hfirst.1 (hleft hfirst.2.1) (hright hlast.2.2)
  case unshareToDevice =>
    exact (h.dropDeviceUse hfirst.1).unshare (hright hlast.2)
  case unshareToDeviceRight =>
    exact (h.dropDeviceUse hfirst.1).unshareRight (hright hlast.2)
  case updateDeviceDisableMergeStateForShare =>
    exact h.share (hleft hfirst.1) (hright hlast.2)
  case updateDeviceDisableMergeStateForShareRight =>
    exact h.shareRight (hright hlast)
  case updateDeviceDisableMergeStateForUnshare =>
    exact h.unshare (hright hlast)
  case updateDeviceDisableMergeStateForUnshareRight =>
    exact h.unshareRight (hright hlast)
  case lockForIpc =>
    exact h.lockForIpc hfirst.1 (hleft hfirst.2) perm
  case unlockForIpc =>
    exact h.unlockForIpc hfirst.1 (hleft hfirst.2)

/-- The operation leaves the lock flags to the lock functions: it passes no lock bit and no lock
mark, as all callers of the source do, and a lock function finds `ok` at every address it visits. -/
def BlockOperation.KeepsFlagsWith (ok : LockFunction → Nat → Nat → Nat → LockView → Prop)
    (m : KMemoryBlockManager) : BlockOperation → Prop
  | update _ _ _ _ attr setAttr clearAttr =>
    attr &&& lockBits = KMemoryAttribute.none ∧ setAttr &&& lockMarks = DisableMergeAttribute.none ∧
      clearAttr &&& lockMarks = DisableMergeAttribute.none
  | updateIfMatch _ _ _ _ _ _ _ attr setAttr clearAttr =>
    attr &&& lockBits = KMemoryAttribute.none ∧ setAttr &&& lockMarks = DisableMergeAttribute.none ∧
      clearAttr &&& lockMarks = DisableMergeAttribute.none
  | updateAttribute _ _ mask attr =>
    mask &&& lockBits = KMemoryAttribute.none ∧ attr &&& lockBits = KMemoryAttribute.none
  | updateLock address numPages fn _ =>
    ∀ x w, address ≤ x ∧ x < address + numPages * pageSize →
      viewAt lockView x m.memoryBlockTree = some w →
      ok fn address (address + numPages * pageSize) x w

/-- The operation keeps the lock flags and wraps no count. -/
abbrev BlockOperation.KeepsFlags (m : KMemoryBlockManager) (op : BlockOperation) : Prop :=
  op.KeepsFlagsWith LockFunction.NoWrap m

theorem BlockOperation.flagsMatchCounts_rewriteBlock {m : KMemoryBlockManager} {op : BlockOperation}
    (hk : op.KeepsFlags m) {b : KMemoryBlock} (h : b.FlagsMatchCounts)
    (hne : b.address < b.getEndAddress) (hlo : op.address ≤ b.address)
    (hhi : b.getEndAddress ≤ op.address + op.numPages * pageSize)
    (hview : ∀ x, b.address ≤ x ∧ x < b.getEndAddress →
      viewAt lockView x m.memoryBlockTree = some (lockView x b)) :
    (op.rewriteBlock b).FlagsMatchCounts := by
  cases op with
  | update _ _ state perm attr setAttr clearAttr => exact h.update hk.1 hk.2.1 hk.2.2
  | updateIfMatch _ _ _ _ _ state perm attr setAttr clearAttr => exact h.update hk.1 hk.2.1 hk.2.2
  | updateAttribute _ _ mask attr => exact h.updateAttribute hk.1 hk.2
  | updateLock address numPages fn perm =>
    refine flagsMatchCounts_call perm h hne fun x hx => hk x _ ?_ (hview x hx)
    exact ⟨le_trans hlo hx.1, lt_of_lt_of_le hx.2 hhi⟩

/-- The blocks between the loop and the coalescing have matching flags. -/
theorem flagsMatchCounts_of_mem_segment {m : KMemoryBlockManager} {op : BlockOperation}
    (hm : m.WellFormed) (hr : m.ValidRange op.address op.numPages)
    (hflags : ∀ b ∈ m.memoryBlockTree, b.FlagsMatchCounts) (hk : op.KeepsFlags m)
    {c : KMemoryBlock} (hc : c ∈ m.segments (fun b => op.selects b.properties) op.rewriteBlock
      op.address op.numPages) : c.FlagsMatchCounts := by
  obtain ⟨b, hb, hcb⟩ := List.mem_flatMap.1 hc
  have hflag := hflags b hb
  have hpos := mul_pos (pos_of_ne_zero hr.nonempty) pageSize_pos
  have hal := aligned_of_tiles hm.tiles hm.startAligned b hb
  have hhi : pageSize ∣ op.address + op.numPages * pageSize :=
    dvd_add hr.aligned (dvd_mul_left pageSize _)
  by_cases h : op.selects b.properties = true ∧ op.address < b.getEndAddress ∧
      b.address < op.address + op.numPages * pageSize
  · have hdvd := Nat.dvd_sub hr.aligned hal
    have hadd : (cutFront op.address b).2.address = max b.address op.address := cutFront_snd_address
    have hend := cutFront_snd_getEndAddress (le_of_lt h.2.1) hdvd
    have hnonempty := (hm.tiles.mem hb).2.1
    have hmid : (cutFront op.address b).2.FlagsMatchCounts := by
      unfold cutFront
      split_ifs
      · exact hflag.split_snd _
      · exact hflag
    have hmidView : ∀ x, (cutFront op.address b).2.address ≤ x → x < b.getEndAddress →
        viewAt lockView x m.memoryBlockTree = some (lockView x (cutFront op.address b).2) := by
      intro x h1 h2
      rw [pageWise_lockView.cutFront_snd h.2.1 hdvd (by omega)]
      exact viewAt_eq_some hm.tiles hb ⟨by omega, h2⟩
    rw [segment, if_pos h] at hcb
    rcases List.mem_append.1 hcb with hcb | hcb
    · unfold cutFront at hcb
      split_ifs at hcb
      · rw [List.mem_singleton.1 hcb]
        exact hflag.split_fst _
      · simp at hcb
    · generalize (cutFront op.address b).2 = mid at hadd hend hmid hmidView hcb
      have hdvd' : pageSize ∣ op.address + op.numPages * pageSize - mid.address := by
        rw [hadd]
        rcases le_total b.address op.address with hle | hle
        · rw [max_eq_right hle]; exact Nat.dvd_sub hhi hr.aligned
        · rw [max_eq_left hle]; exact Nat.dvd_sub hhi hal
      unfold cutBack at hcb
      split_ifs at hcb with hcut
      · have hsend := KMemoryBlock.split_fst_getEndAddress
          (b := mid) (a := op.address + op.numPages * pageSize) (by omega) hdvd'
        rcases List.mem_cons.1 hcb with rfl | hcb
        · refine op.flagsMatchCounts_rewriteBlock hk (hmid.split_fst _) ?_ ?_ ?_ ?_
          · rw [hsend]; simp only [split_fst_address]; omega
          · simp only [split_fst_address]; omega
          · rw [hsend]
          · intro x hx
            rw [hsend, split_fst_address] at hx
            rw [pageWise_lockView.split_fst (by omega) hcut hdvd' hx.2]
            exact hmidView x hx.1 (by omega)
        · rw [List.mem_singleton.1 hcb]
          exact hmid.split_snd _
      · rw [List.mem_singleton.1 hcb]
        refine op.flagsMatchCounts_rewriteBlock hk hmid (by omega) (by omega) (by omega) ?_
        intro x hx
        exact hmidView x hx.1 (by omega)
  · rw [segment, if_neg h] at hcb
    rw [List.mem_singleton.1 hcb]
    exact hflag

/-- One operation keeps flags and counts together, and rewrites exactly the views of its range. -/
theorem flagsMatchCounts_of_run {m m' : KMemoryBlockManager} {a : UpdateAllocator}
    {op : BlockOperation} (hm : m.WellFormed) (hr : m.ValidRange op.address op.numPages)
    (hrun : op.run m = .ok (m', a)) (hflags : ∀ b ∈ m.memoryBlockTree, b.FlagsMatchCounts)
    (hk : op.KeepsFlags m) :
    (∀ b ∈ m'.memoryBlockTree, b.FlagsMatchCounts) ∧ ∀ x, viewAt lockView x m'.memoryBlockTree =
        (viewAt lockView x m.memoryBlockTree).map fun w =>
          if (op.address ≤ x ∧ x < op.address + op.numPages * pageSize) ∧
            op.selects w.properties = true then op.onView x w else w :=
  pageWise_lockView.viewAt_of_run (fun w => op.selects w.properties) hm hr hrun
    (actsOnView_rewriteBlock op) (fun _ _ => rfl)
    fun _ hc => flagsMatchCounts_of_mem_segment hm hr hflags hk hc

/-! ## The ledger of outstanding locks -/

/-- The outstanding locks as ranges of addresses: the IPC locks, the device uses and the marks at
the end of a device share. Device marks at a start have no matching unlock of their own (they are
also capped by the use count), so the ledger keeps their number at each address. -/
structure LockLedger where
  ipc : List (Nat × Nat)
  uses : List (Nat × Nat)
  rights : List (Nat × Nat)
  deviceLeft : Nat → Nat

/-- How many of the ranges hold the address `x`. -/
def covering (x : Nat) (ranges : List (Nat × Nat)) : Nat :=
  ranges.countP fun r => r.1 ≤ x ∧ x < r.2

/-- How many of the ranges start at the address `x`. -/
def starting (x : Nat) (ranges : List (Nat × Nat)) : Nat := ranges.countP fun r => r.1 = x

/-- How many of the ranges end with the address `x`. -/
def ending (x : Nat) (ranges : List (Nat × Nat)) : Nat := ranges.countP fun r => r.2 = x + 1

namespace LockLedger

def empty : LockLedger := ⟨[], [], [], fun _ => 0⟩

/-- One more device mark at the start of `r`. -/
def leftUp (L : LockLedger) (r : Nat × Nat) : LockLedger :=
  { L with deviceLeft := fun x => if x = r.1 then L.deviceLeft x + 1 else L.deviceLeft x }

/-- One device mark less at the start of `r`, and none above the uses in `r`. -/
def leftDown (L : LockLedger) (r : Nat × Nat) : LockLedger :=
  { L with
    deviceLeft := fun x =>
      if r.1 ≤ x ∧ x < r.2 then
        min (if x = r.1 then L.deviceLeft x - 1 else L.deviceLeft x) (covering x L.uses)
      else L.deviceLeft x }

/-- The ledger after a lock function over the range `r`. An unlock needs an outstanding lock of
exactly the same range. -/
def afterLock (L : LockLedger) (r : Nat × Nat) : LockFunction → Option LockLedger
  | .lockForIpc => some { L with ipc := r :: L.ipc }
  | .unlockForIpc => if r ∈ L.ipc then some { L with ipc := L.ipc.erase r } else none
  | .shareToDevice => some ({ L with uses := r :: L.uses, rights := r :: L.rights }.leftUp r)
  | .unshareToDevice =>
    if r ∈ L.uses ∧ r ∈ L.rights then
      some ({ L with uses := L.uses.erase r, rights := L.rights.erase r }.leftDown r)
    else none
  | .unshareToDeviceRight =>
    if r ∈ L.uses ∧ r ∈ L.rights then
      some { L with uses := L.uses.erase r, rights := L.rights.erase r }
    else none
  | .updateDeviceDisableMergeStateForShare => some ({ L with rights := r :: L.rights }.leftUp r)
  | .updateDeviceDisableMergeStateForShareRight => some { L with rights := r :: L.rights }
  | .updateDeviceDisableMergeStateForUnshare =>
    if r ∈ L.rights then some ({ L with rights := L.rights.erase r }.leftDown r) else none
  | .updateDeviceDisableMergeStateForUnshareRight =>
    if r ∈ L.rights then some { L with rights := L.rights.erase r } else none

/-- The ledger after an operation. -/
def after (L : LockLedger) : BlockOperation → Option LockLedger
  | .updateLock address numPages fn _ => L.afterLock (address, address + numPages * pageSize) fn
  | _ => some L

/-- The counts that the address `x` sees are the ones of the ledger. -/
structure Matches (L : LockLedger) (x : Nat) (w : LockView) : Prop where
  ipc : w.properties.ipcLockCount.toNat = covering x L.ipc
  ipcLeft : w.ipcLeft.toNat = starting x L.ipc
  use : w.properties.deviceUseCount.toNat = covering x L.uses
  deviceLeft : w.deviceLeft.toNat = L.deviceLeft x
  deviceRight : w.deviceRight.toNat = ending x L.rights

end LockLedger

theorem countP_erase_add {α : Type} [BEq α] [LawfulBEq α] {p : α → Bool} {l : List α} {r : α}
    (h : r ∈ l) : (l.erase r).countP p + (if p r then 1 else 0) = l.countP p := by
  rw [(List.perm_cons_erase h).countP_eq, List.countP_cons]

section Ranges

variable {x lo hi : Nat} {l : List (Nat × Nat)}

theorem covering_cons (hx : lo ≤ x ∧ x < hi) : covering x ((lo, hi) :: l) = covering x l + 1 := by
  simp [covering, hx]

theorem starting_cons :
    starting x ((lo, hi) :: l) = if x = lo then starting x l + 1 else starting x l := by
  simp only [starting, List.countP_cons, decide_eq_true_eq, eq_comm (a := lo)]
  split_ifs <;> rfl

theorem ending_cons :
    ending x ((lo, hi) :: l) = if x + 1 = hi then ending x l + 1 else ending x l := by
  simp only [ending, List.countP_cons, decide_eq_true_eq, eq_comm (a := hi)]
  split_ifs <;> rfl

theorem covering_erase (h : (lo, hi) ∈ l) (hx : lo ≤ x ∧ x < hi) :
    covering x (l.erase (lo, hi)) + 1 = covering x l := by
  have := countP_erase_add (p := fun r : Nat × Nat => r.1 ≤ x ∧ x < r.2) h
  rw [if_pos (by simpa using hx)] at this
  exact this

theorem starting_erase (h : (lo, hi) ∈ l) :
    starting x (l.erase (lo, hi)) + (if x = lo then 1 else 0) = starting x l := by
  have := countP_erase_add (p := fun r : Nat × Nat => r.1 = x) h
  simp only [decide_eq_true_eq, eq_comm (a := lo)] at this
  exact this

theorem ending_erase (h : (lo, hi) ∈ l) :
    ending x (l.erase (lo, hi)) + (if x + 1 = hi then 1 else 0) = ending x l := by
  have := countP_erase_add (p := fun r : Nat × Nat => r.2 = x + 1) h
  simp only [decide_eq_true_eq, eq_comm (a := hi)] at this
  exact this

/-- The two lists have the same ranges as far as the address `x` is concerned. -/
def SameAt (x : Nat) (l l' : List (Nat × Nat)) : Prop :=
  covering x l' = covering x l ∧ starting x l' = starting x l ∧ ending x l' = ending x l

theorem sameAt_cons (hlt : lo < hi) (hx : ¬(lo ≤ x ∧ x < hi)) : SameAt x l ((lo, hi) :: l) := by
  refine ⟨?_, ?_, ?_⟩
  · simp [covering, hx]
  · rw [starting_cons, if_neg (by omega)]
  · rw [ending_cons, if_neg (by omega)]

theorem sameAt_erase (h : (lo, hi) ∈ l) (hlt : lo < hi) (hx : ¬(lo ≤ x ∧ x < hi)) :
    SameAt x l (l.erase (lo, hi)) := by
  have hcover := countP_erase_add (p := fun r : Nat × Nat => r.1 ≤ x ∧ x < r.2) h
  have hstart := starting_erase (x := x) h
  have hend := ending_erase (x := x) h
  rw [if_neg (by simpa using hx)] at hcover
  rw [if_neg (by omega)] at hstart hend
  exact ⟨hcover, hstart, hend⟩

end Ranges

section Counts

variable {c use : BitVec 16} {n : Nat} {left : Bool}

theorem toNat_add_one (hc : c ≠ 0xFFFF) : (c + 1).toNat = c.toNat + 1 := by bv_omega

theorem toNat_sub_one (hc : c ≠ 0) : (c - 1).toNat = c.toNat - 1 := by bv_omega

theorem toNat_stepUp {p : Prop} [Decidable p] (h : c.toNat = n) (hc : p → c ≠ 0xFFFF) :
    (if decide p = true then c + 1 else c).toNat = if p then n + 1 else n := by
  by_cases hp : p
  · simp only [hp, decide_true, if_true, toNat_add_one (hc hp), h]
  · simp only [hp, decide_false, Bool.false_eq_true, if_false, h]

theorem toNat_stepDown {p : Prop} [Decidable p] (h : n + (if p then 1 else 0) = c.toNat) :
    (if decide p = true then c - 1 else c).toNat = n := by
  by_cases hp : p
  · rw [if_pos hp] at h
    have hc : c ≠ 0 := by rw [← toNat_pos_iff]; omega
    simp only [hp, decide_true, if_true, toNat_sub_one hc]
    omega
  · simp only [hp, decide_false, Bool.false_eq_true, if_false] at h ⊢
    omega

theorem toNat_leftCountAfterUnshare : (leftCountAfterUnshare use c left).toNat =
      min (if left then c.toNat - 1 else c.toNat) use.toNat := by
  have hcap : ∀ d : BitVec 16, (if use < d then use else d).toNat = min d.toNat use.toNat := by
    intro d
    split_ifs with hlt
    · rw [min_eq_right (le_of_lt (BitVec.lt_def.1 hlt))]
    · rw [min_eq_left (Nat.le_of_not_lt (fun h => hlt (BitVec.lt_def.2 h)))]
  cases left with
  | false => exact hcap c
  | true =>
    by_cases hc : c = 0
    · subst hc
      simp [leftCountAfterUnshare]
    · simp only [leftCountAfterUnshare, Bool.true_and, beq_iff_eq, hc, if_false,
        if_true, hcap, toNat_sub_one hc]

end Counts

/-- No count that the function steps up at the address `x` is full. -/
def LockFunction.NotFull (fn : LockFunction) (lo hi x : Nat) (w : LockView) : Prop :=
  match fn with
  | shareToDevice =>
    w.properties.deviceUseCount ≠ 0xFFFF ∧ (x = lo → w.deviceLeft ≠ 0xFFFF) ∧
      (x + 1 = hi → w.deviceRight ≠ 0xFFFF)
  | updateDeviceDisableMergeStateForShare =>
    (x = lo → w.deviceLeft ≠ 0xFFFF) ∧ (x + 1 = hi → w.deviceRight ≠ 0xFFFF)
  | updateDeviceDisableMergeStateForShareRight => x + 1 = hi → w.deviceRight ≠ 0xFFFF
  | lockForIpc => w.properties.ipcLockCount ≠ 0xFFFF ∧ (x = lo → w.ipcLeft ≠ 0xFFFF)
  | _ => True

namespace LockLedger

variable {L L' : LockLedger} {lo hi x : Nat} {w : LockView} {fn : LockFunction}

theorem Matches.ipc_ne_zero (h : L.Matches x w) (hr : (lo, hi) ∈ L.ipc) (hx : lo ≤ x ∧ x < hi) :
    w.properties.ipcLockCount ≠ 0 := by
  rw [← toNat_pos_iff, h.ipc, ← covering_erase hr hx]
  omega

theorem Matches.ipcLeft_ne_zero (h : L.Matches x w) (hr : (lo, hi) ∈ L.ipc) (hx : x = lo) :
    w.ipcLeft ≠ 0 := by
  rw [← toNat_pos_iff, h.ipcLeft, ← starting_erase hr, if_pos hx]
  omega

theorem Matches.use_ne_zero (h : L.Matches x w) (hr : (lo, hi) ∈ L.uses) (hx : lo ≤ x ∧ x < hi) :
    w.properties.deviceUseCount ≠ 0 := by
  rw [← toNat_pos_iff, h.use, ← covering_erase hr hx]
  omega

theorem Matches.deviceRight_ne_zero (h : L.Matches x w) (hr : (lo, hi) ∈ L.rights)
    (hx : x + 1 = hi) : w.deviceRight ≠ 0 := by
  rw [← toNat_pos_iff, h.deviceRight, ← ending_erase hr, if_pos hx]
  omega

/-- An unlock of an outstanding lock finds positive counts. -/
theorem Matches.noWrap (h : L.Matches x w) (hx : lo ≤ x ∧ x < hi)
    (hafter : L.afterLock (lo, hi) fn = some L') (hfull : fn.NotFull lo hi x w) :
    fn.NoWrap lo hi x w := by
  cases fn with
  | shareToDevice => exact hfull
  | unshareToDevice =>
    obtain ⟨hr, -⟩ := ite_none_right_eq_some.1 hafter
    exact ⟨h.use_ne_zero hr.1 hx, h.deviceRight_ne_zero hr.2⟩
  | unshareToDeviceRight =>
    obtain ⟨hr, -⟩ := ite_none_right_eq_some.1 hafter
    exact ⟨h.use_ne_zero hr.1 hx, h.deviceRight_ne_zero hr.2⟩
  | updateDeviceDisableMergeStateForShare => exact hfull
  | updateDeviceDisableMergeStateForShareRight => exact hfull
  | updateDeviceDisableMergeStateForUnshare =>
    obtain ⟨hr, -⟩ := ite_none_right_eq_some.1 hafter
    exact h.deviceRight_ne_zero hr
  | updateDeviceDisableMergeStateForUnshareRight =>
    obtain ⟨hr, -⟩ := ite_none_right_eq_some.1 hafter
    exact h.deviceRight_ne_zero hr
  | lockForIpc => exact hfull
  | unlockForIpc =>
    obtain ⟨hr, -⟩ := ite_none_right_eq_some.1 hafter
    exact ⟨h.ipc_ne_zero hr hx, h.ipcLeft_ne_zero hr⟩

/-- The marks at the start of a device share. -/
theorem Matches.leftUp (h : L.deviceLeft x = w.deviceLeft.toNat)
    (hfull : x = lo → w.deviceLeft ≠ 0xFFFF) :
    (if (x == lo) = true then w.deviceLeft + 1 else w.deviceLeft).toNat =
      (L.leftUp (lo, hi)).deviceLeft x :=
  toNat_stepUp h.symm hfull

theorem Matches.leftDown {use : BitVec 16} (h : L.deviceLeft x = w.deviceLeft.toNat)
    (huse : use.toNat = covering x L.uses) (hx : lo ≤ x ∧ x < hi) :
    (leftCountAfterUnshare use w.deviceLeft (x == lo)).toNat =
      (L.leftDown (lo, hi)).deviceLeft x := by
  simp only [LockLedger.leftDown, hx, and_self, if_true, toNat_leftCountAfterUnshare, huse, h,
    beq_iff_eq]

/-- A lock function moves the counts at an address of its range as the ledger does. -/
theorem Matches.onLock (h : L.Matches x w) (hx : lo ≤ x ∧ x < hi)
    (hafter : L.afterLock (lo, hi) fn = some L') (hwrap : fn.NoWrap lo hi x w)
    (perm : KMemoryPermission) : L'.Matches x (w.onLock fn perm lo hi x) := by
  obtain ⟨hipc, hipcLeft, huse, hleft, hright⟩ := h
  cases fn with
  | shareToDevice =>
    obtain rfl := some.inj hafter
    refine ⟨hipc, hipcLeft, ?_, Matches.leftUp hleft.symm hwrap.2.1, ?_⟩
    · exact (toNat_add_one hwrap.1).trans (by rw [huse]; exact (covering_cons hx).symm)
    · exact (toNat_stepUp hright hwrap.2.2).trans ending_cons.symm
  | unshareToDevice =>
    obtain ⟨⟨hr1, hr2⟩, heq⟩ := ite_none_right_eq_some.1 hafter
    obtain rfl := some.inj heq
    have huse' : (w.properties.deviceUseCount - 1).toNat = covering x (L.uses.erase (lo, hi)) := by
      rw [toNat_sub_one hwrap.1, huse, ← covering_erase hr1 hx]
      omega
    exact ⟨hipc, hipcLeft, huse', Matches.leftDown hleft.symm huse' hx,
      toNat_stepDown ((ending_erase hr2).trans hright.symm)⟩
  | unshareToDeviceRight =>
    obtain ⟨⟨hr1, hr2⟩, heq⟩ := ite_none_right_eq_some.1 hafter
    obtain rfl := some.inj heq
    refine ⟨hipc, hipcLeft, ?_, hleft, toNat_stepDown ((ending_erase hr2).trans hright.symm)⟩
    refine (toNat_sub_one hwrap.1).trans ?_
    rw [huse, ← covering_erase hr1 hx]
    rfl
  | updateDeviceDisableMergeStateForShare =>
    obtain rfl := some.inj hafter
    exact ⟨hipc, hipcLeft, huse, Matches.leftUp hleft.symm hwrap.1,
      (toNat_stepUp hright hwrap.2).trans ending_cons.symm⟩
  | updateDeviceDisableMergeStateForShareRight =>
    obtain rfl := some.inj hafter
    exact ⟨hipc, hipcLeft, huse, hleft, (toNat_stepUp hright hwrap).trans ending_cons.symm⟩
  | updateDeviceDisableMergeStateForUnshare =>
    obtain ⟨hr, heq⟩ := ite_none_right_eq_some.1 hafter
    obtain rfl := some.inj heq
    exact ⟨hipc, hipcLeft, huse, Matches.leftDown hleft.symm huse hx,
      toNat_stepDown ((ending_erase hr).trans hright.symm)⟩
  | updateDeviceDisableMergeStateForUnshareRight =>
    obtain ⟨hr, heq⟩ := ite_none_right_eq_some.1 hafter
    obtain rfl := some.inj heq
    exact ⟨hipc, hipcLeft, huse, hleft, toNat_stepDown ((ending_erase hr).trans hright.symm)⟩
  | lockForIpc =>
    obtain rfl := some.inj hafter
    refine ⟨?_, ?_, huse, hleft, hright⟩
    · exact (toNat_add_one hwrap.1).trans (by rw [hipc]; exact (covering_cons hx).symm)
    · exact (toNat_stepUp hipcLeft hwrap.2).trans starting_cons.symm
  | unlockForIpc =>
    obtain ⟨hr, heq⟩ := ite_none_right_eq_some.1 hafter
    obtain rfl := some.inj heq
    refine ⟨?_, toNat_stepDown ((starting_erase hr).trans hipcLeft.symm), huse, hleft, hright⟩
    refine (toNat_sub_one hwrap.1).trans ?_
    rw [hipc, ← covering_erase hr hx]
    rfl

/-- The ledger does not change at an address outside of the range. -/
theorem Matches.of_outside (h : L.Matches x w) (hlt : lo < hi) (hx : ¬(lo ≤ x ∧ x < hi))
    (hafter : L.afterLock (lo, hi) fn = some L') : L'.Matches x w := by
  have hcons : ∀ l, SameAt x l ((lo, hi) :: l) := fun l => sameAt_cons hlt hx
  have herase : ∀ {l}, (lo, hi) ∈ l → SameAt x l (l.erase (lo, hi)) :=
    fun hr => sameAt_erase hr hlt hx
  have hup : ∀ M : LockLedger, (M.leftUp (lo, hi)).deviceLeft x = M.deviceLeft x :=
    fun M => if_neg (show ¬x = lo by omega)
  obtain ⟨hipc, hipcLeft, huse, hleft, hright⟩ := h
  cases fn with
  | shareToDevice =>
    obtain rfl := some.inj hafter
    exact ⟨hipc, hipcLeft, huse.trans (hcons _).1.symm, hleft.trans (hup _).symm,
      hright.trans (hcons _).2.2.symm⟩
  | unshareToDevice =>
    obtain ⟨⟨hr1, hr2⟩, heq⟩ := ite_none_right_eq_some.1 hafter
    obtain rfl := some.inj heq
    exact ⟨hipc, hipcLeft, huse.trans (herase hr1).1.symm, hleft.trans (if_neg hx).symm,
      hright.trans (herase hr2).2.2.symm⟩
  | unshareToDeviceRight =>
    obtain ⟨⟨hr1, hr2⟩, heq⟩ := ite_none_right_eq_some.1 hafter
    obtain rfl := some.inj heq
    exact ⟨hipc, hipcLeft, huse.trans (herase hr1).1.symm, hleft,
      hright.trans (herase hr2).2.2.symm⟩
  | updateDeviceDisableMergeStateForShare =>
    obtain rfl := some.inj hafter
    exact ⟨hipc, hipcLeft, huse, hleft.trans (hup _).symm, hright.trans (hcons _).2.2.symm⟩
  | updateDeviceDisableMergeStateForShareRight =>
    obtain rfl := some.inj hafter
    exact ⟨hipc, hipcLeft, huse, hleft, hright.trans (hcons _).2.2.symm⟩
  | updateDeviceDisableMergeStateForUnshare =>
    obtain ⟨hr, heq⟩ := ite_none_right_eq_some.1 hafter
    obtain rfl := some.inj heq
    exact ⟨hipc, hipcLeft, huse, hleft.trans (if_neg hx).symm, hright.trans (herase hr).2.2.symm⟩
  | updateDeviceDisableMergeStateForUnshareRight =>
    obtain ⟨hr, heq⟩ := ite_none_right_eq_some.1 hafter
    obtain rfl := some.inj heq
    exact ⟨hipc, hipcLeft, huse, hleft, hright.trans (herase hr).2.2.symm⟩
  | lockForIpc =>
    obtain rfl := some.inj hafter
    exact ⟨hipc.trans (hcons _).1.symm, hipcLeft.trans (hcons _).2.1.symm, huse, hleft, hright⟩
  | unlockForIpc =>
    obtain ⟨hr, heq⟩ := ite_none_right_eq_some.1 hafter
    obtain rfl := some.inj heq
    exact ⟨hipc.trans (herase hr).1.symm, hipcLeft.trans (herase hr).2.1.symm, huse, hleft, hright⟩

end LockLedger

/-! ## Runs that unlock what they locked -/

/-- The managers with their ledgers that a run leads to, each operation meeting `P` and each unlock
undoing an outstanding lock of the same range. -/
inductive LockRun (st nd : Nat) (P : KMemoryBlockManager → BlockOperation → Prop) :
    KMemoryBlockManager → LockLedger → Prop
  | initialized : LockRun st nd P (initializeManager st nd) LockLedger.empty
  | step {m m' : KMemoryBlockManager} {L L' : LockLedger} {a : UpdateAllocator}
      (op : BlockOperation) : LockRun st nd P m L → m.ValidRange op.address op.numPages → P m op →
      L.after op = some L' → op.run m = .ok (m', a) → LockRun st nd P m' L'

theorem LockRun.reachable {st nd : Nat} {P : KMemoryBlockManager → BlockOperation → Prop}
    {m : KMemoryBlockManager} {L : LockLedger} (h : LockRun st nd P m L) : Reachable st nd P m := by
  induction h with
  | initialized => exact .initialized
  | step op _ hr hp _ hrun ih => exact .step op ih hr hp hrun

/-- The condition on a step of a run: only the lock functions touch the lock flags, and none of
them steps up a full count. -/
abbrev BlockOperation.LocksFit (m : KMemoryBlockManager) (op : BlockOperation) : Prop :=
  op.KeepsFlagsWith LockFunction.NotFull m

/-- The invariant of a run: the flags match the counts of every block, and the counts that every
address sees are the ones of the ledger. -/
structure LedgerInvariant (m : KMemoryBlockManager) (L : LockLedger) : Prop where
  flags : ∀ b ∈ m.memoryBlockTree, b.FlagsMatchCounts
  ledger : ∀ x w, viewAt lockView x m.memoryBlockTree = some w → L.Matches x w

theorem LedgerInvariant.keepsFlags {m : KMemoryBlockManager} {L L' : LockLedger}
    {op : BlockOperation} (h : LedgerInvariant m L) (hfit : op.LocksFit m)
    (hafter : L.after op = some L') : op.KeepsFlags m := by
  cases op with
  | update => exact hfit
  | updateIfMatch => exact hfit
  | updateAttribute => exact hfit
  | updateLock address numPages fn perm =>
    intro x w hx hw
    exact (h.ledger x w hw).noWrap hx hafter (hfit x w hx hw)

theorem LedgerInvariant.step {m m' : KMemoryBlockManager} {L L' : LockLedger} {a : UpdateAllocator}
    {op : BlockOperation} (h : LedgerInvariant m L) (hm : m.WellFormed)
    (hr : m.ValidRange op.address op.numPages) (hfit : op.LocksFit m)
    (hafter : L.after op = some L') (hrun : op.run m = .ok (m', a)) : LedgerInvariant m' L' := by
  have hk := h.keepsFlags hfit hafter
  obtain ⟨hflags, hview⟩ := flagsMatchCounts_of_run hm hr hrun h.flags hk
  refine ⟨hflags, fun x w' hw' => ?_⟩
  rw [hview x, map_eq_some_iff] at hw'
  obtain ⟨w, hw, rfl⟩ := hw'
  have hmatch := h.ledger x w hw
  cases op with
  | update address numPages state perm attr setAttr clearAttr =>
    obtain rfl := some.inj hafter
    split_ifs <;> exact ⟨hmatch.1, hmatch.2, hmatch.3, hmatch.4, hmatch.5⟩
  | updateIfMatch address numPages testState testPerm testAttr state perm attr setAttr clearAttr =>
    obtain rfl := some.inj hafter
    split_ifs <;> exact ⟨hmatch.1, hmatch.2, hmatch.3, hmatch.4, hmatch.5⟩
  | updateAttribute address numPages mask attr =>
    obtain rfl := some.inj hafter
    split_ifs <;> exact ⟨hmatch.1, hmatch.2, hmatch.3, hmatch.4, hmatch.5⟩
  | updateLock address numPages fn perm =>
    have hpos := mul_pos (pos_of_ne_zero hr.nonempty) pageSize_pos
    by_cases hx : address ≤ x ∧ x < address + numPages * pageSize
    · rw [if_pos ⟨hx, rfl⟩]
      exact hmatch.onLock hx hafter (hk x w hx hw) perm
    · rw [if_neg fun hcon => hx hcon.1]
      refine hmatch.of_outside ?_ hx hafter
      change 0 < numPages * pageSize at hpos
      omega

theorem ledgerInvariant_initialized (st nd : Nat) :
    LedgerInvariant (.initializeManager st nd) .empty := by
  constructor
  · intro b hb
    rw [initializeManager, List.mem_singleton] at hb
    subst hb
    exact (KMemoryBlock.flagsMatchCounts_iff _).2 ⟨flagMatches_zero BitVec.getLsbD_zero,
      flagMatches_zero BitVec.getLsbD_zero, flagMatches_zero BitVec.getLsbD_zero,
      flagMatches_zero BitVec.getLsbD_zero, flagMatches_zero BitVec.getLsbD_zero⟩
  · intro x w hw
    rw [initializeManager, viewAt_cons] at hw
    split_ifs at hw
    · obtain rfl := some.inj hw
      have hzero : ∀ p : Prop, ∀ [Decidable p], (if p then (0 : BitVec 16) else 0).toNat = 0 := by
        intro p _
        rw [ite_self]
        rfl
      exact ⟨rfl, hzero _, rfl, hzero _, hzero _⟩
    · simp [viewAt, lookup] at hw

theorem LockRun.ledgerInvariant {st nd : Nat} (hst : pageSize ∣ st) (hnd : pageSize ∣ nd)
    (hlt : st < nd) {m : KMemoryBlockManager} {L : LockLedger}
    (h : LockRun st nd (fun m op => op.LocksFit m) m L) : LedgerInvariant m L := by
  induction h with
  | initialized => exact ledgerInvariant_initialized st nd
  | step op hrun' hr hfit hafter hrun ih =>
    exact ih.step (hrun'.reachable.wellFormed hst hnd hlt).1 hr hfit hafter hrun

/-- In every state of every run whose steps leave the lock flags to the lock functions and step up
no full count: each flag of each block is set exactly when its count is positive; the counts that an
address sees are the ones of the outstanding locks that cover it, start or end there; and a further
step changes the view of the addresses that it rewrites and of no other, wherever it cuts and
merges blocks. -/
theorem flagsMatchCounts_of_lockRun {st nd : Nat} (hst : pageSize ∣ st) (hnd : pageSize ∣ nd)
    (hlt : st < nd) {m : KMemoryBlockManager} {L : LockLedger}
    (h : LockRun st nd (fun m op => op.LocksFit m) m L) :
    (∀ b ∈ m.memoryBlockTree, b.FlagsMatchCounts) ∧
      (∀ x w, viewAt lockView x m.memoryBlockTree = some w → L.Matches x w) ∧
      ∀ op L' m' a, m.ValidRange op.address op.numPages → op.LocksFit m → L.after op = some L' →
        op.run m = .ok (m', a) → ∀ x, viewAt lockView x m'.memoryBlockTree =
          (viewAt lockView x m.memoryBlockTree).map fun w =>
            if (op.address ≤ x ∧ x < op.address + op.numPages * pageSize) ∧
              op.selects w.properties = true then op.onView x w else w := by
  have hinv := h.ledgerInvariant hst hnd hlt
  refine ⟨hinv.flags, hinv.ledger, fun op L' m' a hr hfit hafter hrun => ?_⟩
  exact (flagsMatchCounts_of_run (h.reachable.wellFormed hst hnd hlt).1 hr hrun hinv.flags
    (hinv.keepsFlags hfit hafter)).2

/-- The run that locks the first two pages for IPC meets the condition. -/
theorem flagsMatchCounts_of_one_lock :
    ∃ m a, (BlockOperation.updateLock 0x1000 2 .lockForIpc .userRead).run
        (.initializeManager 0x1000 0x8000) = .ok (m, a) ∧
      ∀ b ∈ m.memoryBlockTree, b.FlagsMatchCounts := by
  have hvalid : (initializeManager 0x1000 0x8000).ValidRange 0x1000 2 := by
    constructor <;> decide
  obtain ⟨m, a, hrun⟩ := @run_ok_of_hasBlockBefore _
    (.updateLock 0x1000 2 .lockForIpc .userRead)
    (initializeManager_wellFormed (by decide) (by decide) (by decide)) hvalid (Or.inl rfl)
  refine ⟨m, a, hrun, (@flagsMatchCounts_of_lockRun 0x1000 0x8000 (by decide)
    (by decide) (by decide) _ _ (.step (.updateLock 0x1000 2 .lockForIpc .userRead) .initialized hvalid ?_
    rfl hrun)).1⟩
  -- A fresh block has no counts at all.
  intro x w _ hw
  have hmatch := (ledgerInvariant_initialized 0x1000 0x8000).ledger x w hw
  have hipc : w.properties.ipcLockCount.toNat = 0 := hmatch.ipc
  have hleft : w.ipcLeft.toNat = 0 := hmatch.ipcLeft
  constructor
  · bv_omega
  · intro _
    bv_omega

/-! ### A count that wraps -/

theorem eq_singleton_of_merges {b : KMemoryBlock} {l : List KMemoryBlock} (h : Merges [b] l) :
    l = [b] := by
  rcases Relation.ReflTransGen.cases_head h with heq | ⟨l', hstep, -⟩
  · exact heq.symm
  · generalize hl : [b] = l₀ at hstep
    cases hstep with
    | merge pre a c post _ =>
      have hlen := congrArg List.length hl
      simp at hlen
      omega

/-- A lock of the whole managed range rewrites a single block in place. -/
theorem run_updateLock_singleton {m : KMemoryBlockManager} {b : KMemoryBlock} {numPages : Nat}
    (hm : m.WellFormed) (htree : m.memoryBlockTree = [b])
    (hr : m.ValidRange m.startAddress numPages)
    (hend : m.startAddress + numPages * pageSize = m.endAddress) (fn : LockFunction)
    (perm : KMemoryPermission) :
    ∃ m' a, (BlockOperation.updateLock m.startAddress numPages fn perm).run m = .ok (m', a) ∧
      m'.startAddress = m.startAddress ∧ m'.endAddress = m.endAddress ∧
      m'.memoryBlockTree = [fn.call perm true true b] := by
  obtain ⟨m', a, hrun⟩ := @run_ok_of_hasBlockBefore _
    (.updateLock m.startAddress numPages fn perm) hm hr (Or.inl rfl)
  have hop : m.ValidRange (BlockOperation.updateLock m.startAddress numPages fn perm).address
      (BlockOperation.updateLock m.startAddress numPages fn perm).numPages := hr
  obtain ⟨-, hs, he, -, hmerges, -⟩ := run_ok hm hop hrun
  have ht := hm.tiles
  rw [htree] at ht
  obtain ⟨hadd, hne, hbend⟩ := ht
  have hbend' : b.getEndAddress = m.endAddress := hbend
  refine ⟨m', a, hrun, hs, he, eq_singleton_of_merges ?_⟩
  have hcut : cutFront m.startAddress b = ([], b) := if_neg (by omega)
  have hseg : segment (fun _ => true) (fun it => fn.call perm (it.address == m.startAddress)
      (it.getEndAddress == m.endAddress) it) m.startAddress m.endAddress b =
        [fn.call perm true true b] := by
    rw [segment, if_pos ⟨rfl, hne, by omega⟩, hcut, cutBack,
      if_neg (Nat.not_lt.2 (le_of_eq hbend')), hadd, hbend', beq_self_eq_true, beq_self_eq_true]
    rfl
  have hsegs : m.segments (fun _ => true) (fun it => fn.call perm (it.address == m.startAddress)
      (it.getEndAddress == m.startAddress + numPages * pageSize) it) m.startAddress numPages =
        [fn.call perm true true b] := by
    rw [segments, htree, hend]
    exact (List.append_nil _).trans hseg
  rw [← hsegs]
  exact hmerges

/-- Locking the whole range `n` times counts to `n` modulo `2 ^ 16`. -/
theorem exists_lockRun_lockForIpc (n : Nat) :
    ∃ m L b, LockRun 0x1000 0x8000 (fun m op => op.KeepsFlagsWith (fun _ _ _ _ _ => True) m) m L ∧
      m.startAddress = 0x1000 ∧ m.endAddress = 0x8000 ∧ m.memoryBlockTree = [b] ∧
      b.ipcLockCount = BitVec.ofNat 16 n ∧ (n ≠ 0 → b.memoryAttribute.getLsbD 1 = true) := by
  induction n with
  | zero => exact ⟨_, _, _, .initialized, rfl, rfl, rfl, rfl, fun h => absurd rfl h⟩
  | succ n ih =>
    obtain ⟨m, L, b, hrun, hs, he, htree, hcount, -⟩ := ih
    have hwf := (hrun.reachable.wellFormed (by decide) (by decide) (by decide)).1
    have hvalid : m.ValidRange m.startAddress 7 := by
      constructor
      · rw [hs]; decide
      · decide
      · exact le_refl _
      · rw [hs, he]; decide
    obtain ⟨m', a, hstep, hs', he', htree'⟩ := run_updateLock_singleton hwf htree hvalid
      (by rw [hs, he]; rfl) .lockForIpc .userRead
    refine ⟨m', _, _, .step (.updateLock m.startAddress 7 .lockForIpc .userRead) hrun hvalid
      (fun _ _ _ _ => trivial) rfl hstep, hs'.trans hs, he'.trans he, htree', ?_, fun _ => ?_⟩
    · change b.ipcLockCount + 1 = _
      rw [hcount, BitVec.ofNat_add]
      rfl
    · change (b.memoryAttribute ||| ipcLocked).getLsbD 1 = true
      simp [ipcLocked]

/-- After 65536 locks of one range `IpcLocked` is set and the count is zero. -/
theorem lockForIpc_count_wraps :
    ∃ m L, LockRun 0x1000 0x8000 (fun m op => op.KeepsFlagsWith (fun _ _ _ _ _ => True) m) m L ∧
      ∃ b ∈ m.memoryBlockTree, b.memoryAttribute &&& ipcLocked ≠ KMemoryAttribute.none ∧
          ¬0 < b.ipcLockCount.toNat := by
  obtain ⟨m, L, b, hrun, -, -, htree, hcount, hbit⟩ := exists_lockRun_lockForIpc 65536
  refine ⟨m, L, hrun, b, by rw [htree]; exact List.mem_cons_self, ?_, ?_⟩
  · exact (and_ipcLocked_ne_none_iff _).2 (hbit (by decide))
  · rw [hcount]
    decide

end Sudachi.Kernel
