import Sudachi.Kernel.MemoryBlockCoalesce

/-!
# Runs of the memory block manager

An operation is one call of `Update`, `UpdateIfMatch`, `UpdateAttribute` or `UpdateLock` with a
fresh update allocator. `Reachable` collects the managers that a run of operations on valid ranges
leads to from `Initialize`. Every reachable manager is well formed (`Reachable.wellFormed`), and the
next operation has a result exactly when its range has a block in front of it
(`reachable_run_iff_hasBlockBefore`). The lock counts that `CheckState` asks for are present as long
as no count wraps and no caller sets a lock bit by hand.
-/

set_option autoImplicit false

namespace Sudachi.Kernel

open Sudachi.Foundations List BitVec
open UpdateAllocator (maxBlocks withBlocks)
open KMemoryBlockManager (checkState checkStateLoop countsPresent initializeManager
  updateRange_error updateRange_ok)
open KMemoryAttribute (deviceShared ipcLocked)
open KMemoryAttribute (lockBits)

/-! ## Operations on the properties of a page -/

namespace PageProperties

def hasProperties (p : PageProperties) (s : KMemoryState) (perm : KMemoryPermission)
    (attr : KMemoryAttribute) : Bool :=
  p.memoryState == s && p.permission == perm &&
    (p.memoryAttribute ||| lockBits) == (attr ||| lockBits)

def update (p : PageProperties) (s : KMemoryState) (perm : KMemoryPermission)
    (attr : KMemoryAttribute) : PageProperties :=
  { p with
    memoryState := s
    permission := perm
    memoryAttribute := attr ||| (p.memoryAttribute &&& lockBits) }

def updateAttribute (p : PageProperties) (mask attr : KMemoryAttribute) : PageProperties :=
  { p with memoryAttribute := (p.memoryAttribute &&& ~~~mask) ||| attr }

def shareToDevice (p : PageProperties) : PageProperties :=
  { p with
    deviceUseCount := p.deviceUseCount + 1
    memoryAttribute := p.memoryAttribute ||| deviceShared }

def dropDeviceUse (p : PageProperties) : PageProperties :=
  { p with
    deviceUseCount := p.deviceUseCount - 1
    memoryAttribute :=
      if p.deviceUseCount == 1 then p.memoryAttribute &&& ~~~deviceShared
      else p.memoryAttribute }

def lockForIpc (p : PageProperties) (newPerm : KMemoryPermission) : PageProperties :=
  { p with
    ipcLockCount := p.ipcLockCount + 1
    originalPermission := if p.ipcLockCount + 1 == 1 then p.permission else p.originalPermission
    permission :=
      if p.ipcLockCount + 1 == 1 then
        (newPerm &&& KMemoryPermission.ipcLockChangeMask) |||
          (p.permission &&& ~~~KMemoryPermission.ipcLockChangeMask)
      else p.permission
    memoryAttribute := p.memoryAttribute ||| ipcLocked }

def unlockForIpc (p : PageProperties) : PageProperties :=
  { p with
    ipcLockCount := p.ipcLockCount - 1
    permission := if p.ipcLockCount == 1 then p.originalPermission else p.permission
    originalPermission :=
      if p.ipcLockCount == 1 then KMemoryPermission.none else p.originalPermission
    memoryAttribute :=
      if p.ipcLockCount == 1 then p.memoryAttribute &&& ~~~ipcLocked
      else p.memoryAttribute }

end PageProperties

/-- What a lock function does to the properties of the pages of a block. -/
def LockFunction.onProperties (fn : LockFunction) (newPerm : KMemoryPermission)
    (p : PageProperties) : PageProperties :=
  match fn with
  | shareToDevice => p.shareToDevice
  | unshareToDevice => p.dropDeviceUse
  | unshareToDeviceRight => p.dropDeviceUse
  | updateDeviceDisableMergeStateForShare => p
  | updateDeviceDisableMergeStateForShareRight => p
  | updateDeviceDisableMergeStateForUnshare => p
  | updateDeviceDisableMergeStateForUnshareRight => p
  | lockForIpc => p.lockForIpc newPerm
  | unlockForIpc => p.unlockForIpc

namespace KMemoryBlock

variable (b : KMemoryBlock) (left right : Bool)

/-- The extent of a block together with its properties: what the marks and their counts do not
touch. -/
def extent : Nat × Nat × PageProperties := (b.address, b.numPages, b.properties)

theorem extent_shareLeft :
    (b.updateDeviceDisableMergeStateForShareLeft left).extent = b.extent := by
  cases left <;> rfl

theorem extent_shareRight :
    (b.updateDeviceDisableMergeStateForShareRight right).extent = b.extent := by
  cases right <;> rfl

theorem extent_share : (b.updateDeviceDisableMergeStateForShare left right).extent = b.extent := by
  rw [updateDeviceDisableMergeStateForShare, extent_shareRight, extent_shareLeft]

theorem extent_unshareLeft :
    (b.updateDeviceDisableMergeStateForUnshareLeft left).extent = b.extent := by
  unfold updateDeviceDisableMergeStateForUnshareLeft
  split_ifs <;> rfl

theorem extent_unshareRight :
    (b.updateDeviceDisableMergeStateForUnshareRight right).extent = b.extent := by
  cases right <;> rfl

theorem extent_unshare :
    (b.updateDeviceDisableMergeStateForUnshare left right).extent = b.extent := by
  rw [updateDeviceDisableMergeStateForUnshare, extent_unshareRight, extent_unshareLeft]

end KMemoryBlock

variable {m : KMemoryBlockManager} {st nd : Nat}

/-- A lock function keeps the extent of a block and acts on its properties alone. -/
theorem LockFunction.call_extent (fn : LockFunction) (perm : KMemoryPermission)
    (left right : Bool) (b : KMemoryBlock) : (fn.call perm left right b).extent =
      (b.address, b.numPages, fn.onProperties perm b.properties) := by
  cases fn with
  | shareToDevice => exact KMemoryBlock.extent_share _ left right
  | unshareToDevice => exact KMemoryBlock.extent_unshare _ left right
  | unshareToDeviceRight => exact KMemoryBlock.extent_unshareRight _ right
  | updateDeviceDisableMergeStateForShare => exact KMemoryBlock.extent_share b left right
  | updateDeviceDisableMergeStateForShareRight => exact KMemoryBlock.extent_shareRight b right
  | updateDeviceDisableMergeStateForUnshare => exact KMemoryBlock.extent_unshare b left right
  | updateDeviceDisableMergeStateForUnshareRight => exact KMemoryBlock.extent_unshareRight b right
  | lockForIpc => rfl
  | unlockForIpc => rfl

/-! ## Operations -/

/-- One call of an update function. -/
inductive BlockOperation where
  | update (address numPages : Nat) (state : KMemoryState) (perm : KMemoryPermission)
      (attr : KMemoryAttribute) (setDisableAttr clearDisableAttr : DisableMergeAttribute)
  | updateIfMatch (address numPages : Nat) (testState : KMemoryState)
      (testPerm : KMemoryPermission) (testAttr : KMemoryAttribute) (state : KMemoryState)
      (perm : KMemoryPermission) (attr : KMemoryAttribute)
      (setDisableAttr clearDisableAttr : DisableMergeAttribute)
  | updateAttribute (address numPages : Nat) (mask attr : KMemoryAttribute)
  | updateLock (address numPages : Nat) (fn : LockFunction) (perm : KMemoryPermission)
deriving DecidableEq, Repr

namespace BlockOperation

/-- The call itself, with an update allocator that holds `MaxBlocks` blocks. -/
def run (op : BlockOperation) (m : KMemoryBlockManager) :
    Except Fault (KMemoryBlockManager × UpdateAllocator) :=
  let a := withBlocks maxBlocks
  match op with
  | update address numPages state perm attr setAttr clearAttr =>
    m.update a address numPages state perm attr setAttr clearAttr
  | updateIfMatch address numPages testState testPerm testAttr state perm attr setAttr clearAttr =>
    m.updateIfMatch a address numPages testState testPerm testAttr state perm attr setAttr
      clearAttr
  | updateAttribute address numPages mask attr => m.updateAttribute a address numPages mask attr
  | updateLock address numPages fn perm => m.updateLock a address numPages fn perm

def address : BlockOperation → Nat
  | update address .. => address
  | updateIfMatch address .. => address
  | updateAttribute address .. => address
  | updateLock address .. => address

def numPages : BlockOperation → Nat
  | update _ numPages .. => numPages
  | updateIfMatch _ numPages .. => numPages
  | updateAttribute _ numPages .. => numPages
  | updateLock _ numPages .. => numPages

/-- The blocks that the operation rewrites, by their properties. -/
def selects : BlockOperation → PageProperties → Bool
  | update _ _ state perm attr _ _ => fun p => !p.hasProperties state perm attr
  | updateIfMatch _ _ testState testPerm testAttr state perm attr _ _ => fun p =>
    p.hasProperties testState testPerm testAttr && !p.hasProperties state perm attr
  | updateAttribute _ _ mask attr => fun p => (p.memoryAttribute &&& mask) != attr
  | updateLock .. => fun _ => true

/-- What the operation does to a block that it rewrites. -/
def rewriteBlock : BlockOperation → KMemoryBlock → KMemoryBlock
  | update address _ state perm attr setAttr clearAttr => fun it =>
    it.update state perm attr (it.address == address) setAttr clearAttr
  | updateIfMatch _ _ _ _ _ state perm attr setAttr clearAttr => fun it =>
    it.update state perm attr false setAttr clearAttr
  | updateAttribute _ _ mask attr => fun it => it.updateAttribute mask attr
  | updateLock address numPages fn perm => fun it =>
    fn.call perm (it.address == address)
      (it.getEndAddress == address + numPages * pageSize) it

/-- What the operation does to the properties of a page that it rewrites. -/
def onProperties : BlockOperation → PageProperties → PageProperties
  | update _ _ state perm attr _ _ => fun p => p.update state perm attr
  | updateIfMatch _ _ _ _ _ state perm attr _ _ => fun p => p.update state perm attr
  | updateAttribute _ _ mask attr => fun p => p.updateAttribute mask attr
  | updateLock _ _ fn perm => fn.onProperties perm

theorem run_eq (op : BlockOperation) (m : KMemoryBlockManager) :
    op.run m = m.updateRange (fun b => op.selects b.properties) op.rewriteBlock
      (withBlocks maxBlocks) op.address op.numPages := by
  cases op <;> rfl

theorem rewriteBlock_extent (op : BlockOperation) (b : KMemoryBlock) :
    (op.rewriteBlock b).extent = (b.address, b.numPages, op.onProperties b.properties) := by
  cases op with
  | update => rfl
  | updateIfMatch => rfl
  | updateAttribute => rfl
  | updateLock address numPages fn perm => exact fn.call_extent perm _ _ b

theorem keepsExtent_rewriteBlock (op : BlockOperation) : KeepsExtent op.rewriteBlock := fun b =>
  ⟨congrArg Prod.fst (op.rewriteBlock_extent b),
    congrArg (fun x => x.2.1) (op.rewriteBlock_extent b)⟩

theorem rewriteBlock_properties (op : BlockOperation) (b : KMemoryBlock) :
    (op.rewriteBlock b).properties = op.onProperties b.properties :=
  congrArg (fun x => x.2.2) (op.rewriteBlock_extent b)

/-- The condition under which the operation does not step back from the first block: its range
starts with the managed one, or behind the first block, or the operation rewrites the first
block. -/
def HasBlockBefore (op : BlockOperation) (m : KMemoryBlockManager) : Prop :=
  m.HasBlockBefore (fun b => op.selects b.properties) op.address

end BlockOperation

/-! ## Reachable managers -/

/-- The managers that a run of operations on valid ranges leads to, each operation meeting `P`. -/
inductive Reachable (st nd : Nat) (P : KMemoryBlockManager → BlockOperation → Prop) :
    KMemoryBlockManager → Prop
  | initialized : Reachable st nd P (initializeManager st nd)
  | step {m m' : KMemoryBlockManager} {a : UpdateAllocator} (op : BlockOperation) :
      Reachable st nd P m → m.ValidRange op.address op.numPages → P m op →
      op.run m = .ok (m', a) → Reachable st nd P m'

variable {op : BlockOperation}

theorem Reachable.mono {P Q : KMemoryBlockManager → BlockOperation → Prop} (h : Reachable st nd P m)
    (hPQ : ∀ m op, P m op → Q m op) : Reachable st nd Q m := by
  induction h with
  | initialized => exact .initialized
  | step op _ hr hp hrun ih => exact .step op ih hr (hPQ _ op hp) hrun

/-- What one operation on a well-formed manager does when it has a result. -/
theorem run_ok {m' : KMemoryBlockManager} {a : UpdateAllocator}
    (hm : m.WellFormed) (hr : m.ValidRange op.address op.numPages) (hrun : op.run m = .ok (m', a)) :
    op.HasBlockBefore m ∧ m'.startAddress = m.startAddress ∧ m'.endAddress = m.endAddress ∧
      m'.WellFormed ∧
      Merges (m.segments (fun b => op.selects b.properties) op.rewriteBlock op.address op.numPages)
        m'.memoryBlockTree ∧ a.taken ≤ maxBlocks := by
  rw [op.run_eq] at hrun
  have hb : op.HasBlockBefore m := by
    by_contra hcon
    have herr := updateRange_error
      (a := withBlocks maxBlocks) hm hr
      op.keepsExtent_rewriteBlock rfl hcon
    rw [herr] at hrun
    simp at hrun
  obtain ⟨m₁, a₁, hrun', hs, he, hwf, hmerges, htaken⟩ := updateRange_ok
    (a := withBlocks maxBlocks) hm hr op.keepsExtent_rewriteBlock
    rfl hb
  rw [hrun'] at hrun
  obtain ⟨rfl, rfl⟩ := Prod.mk.inj (Except.ok.inj hrun)
  exact ⟨hb, hs, he, hwf, hmerges, htaken⟩

theorem run_ok_of_hasBlockBefore (hm : m.WellFormed) (hr : m.ValidRange op.address op.numPages)
    (hb : op.HasBlockBefore m) : ∃ m' a, op.run m = .ok (m', a) := by
  obtain ⟨m', a', hrun, -⟩ := updateRange_ok
    (a := withBlocks maxBlocks) hm hr op.keepsExtent_rewriteBlock
    rfl hb
  exact ⟨m', a', by rw [op.run_eq]; exact hrun⟩

theorem initializeManager_wellFormed (hst : pageSize ∣ st) (hnd : pageSize ∣ nd)
    (hlt : st < nd) : (initializeManager st nd).WellFormed := by
  have hend : (KMemoryBlock.initializeBlock st ((nd - st) / pageSize) KMemoryState.free
      KMemoryPermission.none KMemoryAttribute.none).getEndAddress = nd := by
    simp only [KMemoryBlock.getEndAddress_eq, KMemoryBlock.initializeBlock,
      Nat.div_mul_cancel (Nat.dvd_sub hnd hst)]
    omega
  refine ⟨hst, ⟨rfl, ?_, ?_⟩, .singleton _⟩
  · rw [hend]; exact hlt
  · exact hend

theorem Reachable.wellFormed {P : KMemoryBlockManager → BlockOperation → Prop} (hst : pageSize ∣ st)
    (hnd : pageSize ∣ nd) (hlt : st < nd) (h : Reachable st nd P m) :
    m.WellFormed ∧ m.startAddress = st ∧ m.endAddress = nd := by
  induction h with
  | initialized => exact ⟨initializeManager_wellFormed hst hnd hlt, rfl, rfl⟩
  | step op _ hr _ hrun ih =>
    obtain ⟨hwf, hs, he⟩ := ih
    obtain ⟨-, hs', he', hwf', -⟩ := run_ok hwf hr hrun
    exact ⟨hwf', hs'.trans hs, he'.trans he⟩

/-! ## Block invariants that only depend on the properties -/

theorem forall_properties_of_merges {Q : PageProperties → Prop} {l l' : List KMemoryBlock}
    (h : Merges l l') (hl : ∀ b ∈ l, Q b.properties) : ∀ b ∈ l', Q b.properties := by
  induction h with
  | refl => exact hl
  | tail _ hstep ih =>
    cases hstep with
    | merge pre a c post hac =>
      intro b hb
      simp only [mem_append, mem_cons] at hb
      rcases hb with hb | rfl | hb
      · exact ih b (by simp [hb])
      · exact ih a (by simp)
      · exact ih b (by simp [hb])

theorem cutFront_properties (lo : Nat) (b : KMemoryBlock) :
    (cutFront lo b).2.properties = b.properties ∧
      ∀ c ∈ (cutFront lo b).1, c.properties = b.properties := by
  by_cases h : b.address < lo
  · simp [cutFront, h]
  · simp [cutFront, h]

/-- The blocks of a segment have the properties of the block they replace or the rewritten ones. -/
theorem properties_of_mem_segment {lo hi : Nat} {b c : KMemoryBlock}
    (hc : c ∈ segment (fun b => op.selects b.properties) op.rewriteBlock lo hi b) :
    c.properties = b.properties ∨
      (op.selects b.properties = true ∧ lo < b.getEndAddress ∧ b.address < hi ∧
        c.properties = op.onProperties b.properties) := by
  by_cases h : op.selects b.properties = true ∧ lo < b.getEndAddress ∧ b.address < hi
  · obtain ⟨h1, h2⟩ := cutFront_properties lo b
    rw [segment, if_pos h] at hc
    rcases mem_append.1 hc with hc | hc
    · exact .inl (h2 c hc)
    · unfold cutBack at hc
      split_ifs at hc with hcut
      · rcases mem_cons.1 hc with rfl | hc
        · refine .inr ⟨h.1, h.2.1, h.2.2, ?_⟩
          rw [op.rewriteBlock_properties, KMemoryBlock.split_fst_properties, h1]
        · rw [mem_singleton] at hc
          rw [hc, KMemoryBlock.split_snd_properties, h1]
          exact .inl rfl
      · rw [mem_singleton] at hc
        refine .inr ⟨h.1, h.2.1, h.2.2, ?_⟩
        rw [hc, op.rewriteBlock_properties, h1]
  · rw [segment, if_neg h, mem_singleton] at hc
    rw [hc]
    exact .inl rfl

/-- An invariant of the properties that the rewrite keeps holds after the operation. -/
theorem forall_properties_of_run {Q : PageProperties → Prop} {m' : KMemoryBlockManager}
    {a : UpdateAllocator} (hm : m.WellFormed)
    (hr : m.ValidRange op.address op.numPages) (hrun : op.run m = .ok (m', a))
    (hQ : ∀ b ∈ m.memoryBlockTree, Q b.properties)
    (hstep : ∀ b ∈ m.memoryBlockTree, op.address < b.getEndAddress →
      b.address < op.address + op.numPages * pageSize → op.selects b.properties = true →
      Q (op.onProperties b.properties)) : ∀ b ∈ m'.memoryBlockTree, Q b.properties := by
  obtain ⟨-, -, -, -, hmerges, -⟩ := run_ok hm hr hrun
  refine forall_properties_of_merges hmerges fun c hc => ?_
  obtain ⟨b, hb, hcb⟩ := mem_flatMap.1 hc
  rcases properties_of_mem_segment hcb with hprop | ⟨hsel, hlo, hhi, hprop⟩
  · rw [hprop]; exact hQ b hb
  · rw [hprop]; exact hstep b hb hlo hhi hsel

/-! ## The lock counts behind `CheckState` -/

/-- A page that carries a lock bit has a lock count. -/
def PageProperties.CountsPresent (p : PageProperties) : Prop :=
  (p.memoryAttribute.getLsbD 1 = true → p.ipcLockCount ≠ 0) ∧
    (p.memoryAttribute.getLsbD 2 = true → p.deviceUseCount ≠ 0)

theorem countsPresent_iff (b : KMemoryBlock) :
    countsPresent b = true ↔ b.properties.CountsPresent := by
  have h1 := and_ipcLocked_ne_none_iff b.memoryAttribute
  have h2 := and_deviceShared_ne_none_iff b.memoryAttribute
  simp only [countsPresent, PageProperties.CountsPresent, KMemoryBlock.properties, Bool.and_eq_true,
    Bool.not_eq_true', Bool.and_eq_false_imp, bne_iff_ne, h1, h2, beq_eq_false_iff_ne]

/-- The preconditions on attributes and counts that the source asserts: no caller passes a lock bit
as an attribute, and no lock is taken on a block whose `u16` count is full. -/
def BlockOperation.KeepsLockCounts (m : KMemoryBlockManager) : BlockOperation → Prop
  | update _ _ _ _ attr _ _ => attr &&& lockBits = KMemoryAttribute.none
  | updateIfMatch _ _ _ _ _ _ _ attr _ _ =>
    attr &&& lockBits = KMemoryAttribute.none
  | updateAttribute _ _ _ attr => attr &&& lockBits = KMemoryAttribute.none
  | updateLock address numPages fn _ =>
    ∀ b ∈ m.memoryBlockTree, address < b.getEndAddress → b.address < address + numPages * pageSize →
      (fn = .lockForIpc → b.ipcLockCount ≠ 0xFFFF) ∧
        (fn = .shareToDevice → b.deviceUseCount ≠ 0xFFFF)

namespace PageProperties

variable {p : PageProperties}

section

variable (h : p.CountsPresent)
include h

theorem CountsPresent.update {attr : KMemoryAttribute}
    (hattr : attr &&& lockBits = KMemoryAttribute.none) (s : KMemoryState)
    (perm : KMemoryPermission) : (p.update s perm attr).CountsPresent := by
  obtain ⟨ha1, ha2⟩ := (and_lockBits_eq_none_iff attr).1 hattr
  constructor
  · intro hbit
    simp only [PageProperties.update, getLsbD_or, getLsbD_and, ha1, Bool.false_or,
      Bool.and_eq_true] at hbit
    exact h.1 hbit.1
  · intro hbit
    simp only [PageProperties.update, getLsbD_or, getLsbD_and, ha2, Bool.false_or,
      Bool.and_eq_true] at hbit
    exact h.2 hbit.1

theorem CountsPresent.updateAttribute {attr : KMemoryAttribute}
    (hattr : attr &&& lockBits = KMemoryAttribute.none)
    (mask : KMemoryAttribute) : (p.updateAttribute mask attr).CountsPresent := by
  obtain ⟨ha1, ha2⟩ := (and_lockBits_eq_none_iff attr).1 hattr
  constructor
  · intro hbit
    simp only [PageProperties.updateAttribute, getLsbD_or, getLsbD_and, ha1,
      Bool.or_false, Bool.and_eq_true] at hbit
    exact h.1 hbit.1
  · intro hbit
    simp only [PageProperties.updateAttribute, getLsbD_or, getLsbD_and, ha2,
      Bool.or_false, Bool.and_eq_true] at hbit
    exact h.2 hbit.1

theorem CountsPresent.shareToDevice (hcount : p.deviceUseCount ≠ 0xFFFF) :
    p.shareToDevice.CountsPresent := by
  constructor
  · intro hbit
    refine h.1 ?_
    simpa [PageProperties.shareToDevice, deviceShared] using hbit
  · intro _
    simp only [PageProperties.shareToDevice]
    bv_omega

theorem CountsPresent.dropDeviceUse : p.dropDeviceUse.CountsPresent := by
  by_cases hone : p.deviceUseCount = 1
  · constructor
    · intro hbit
      refine h.1 ?_
      simpa [PageProperties.dropDeviceUse, hone, deviceShared] using hbit
    · intro hbit
      simp [PageProperties.dropDeviceUse, hone, deviceShared] at hbit
  · have hattr : p.dropDeviceUse.memoryAttribute = p.memoryAttribute :=
      if_neg (by simpa using hone)
    constructor
    · intro hbit
      exact h.1 (hattr ▸ hbit)
    · intro hbit
      have hne := h.2 (hattr ▸ hbit)
      simp only [PageProperties.dropDeviceUse]
      bv_omega

theorem CountsPresent.lockForIpc (hcount : p.ipcLockCount ≠ 0xFFFF)
    (newPerm : KMemoryPermission) : (p.lockForIpc newPerm).CountsPresent := by
  constructor
  · intro _
    simp only [PageProperties.lockForIpc]
    bv_omega
  · intro hbit
    refine h.2 ?_
    simpa [PageProperties.lockForIpc, ipcLocked] using hbit

theorem CountsPresent.unlockForIpc : p.unlockForIpc.CountsPresent := by
  by_cases hone : p.ipcLockCount = 1
  · constructor
    · intro hbit
      simp [PageProperties.unlockForIpc, hone, ipcLocked] at hbit
    · intro hbit
      refine h.2 ?_
      simpa [PageProperties.unlockForIpc, hone, ipcLocked] using hbit
  · have hattr : p.unlockForIpc.memoryAttribute = p.memoryAttribute :=
      if_neg (by simpa using hone)
    constructor
    · intro hbit
      have hne := h.1 (hattr ▸ hbit)
      simp only [PageProperties.unlockForIpc]
      bv_omega
    · intro hbit
      exact h.2 (hattr ▸ hbit)

end

end PageProperties

theorem BlockOperation.countsPresent_onProperties
    (hk : op.KeepsLockCounts m) {b : KMemoryBlock} (hb : b ∈ m.memoryBlockTree)
    (hlo : op.address < b.getEndAddress) (hhi : b.address < op.address + op.numPages * pageSize)
    (h : b.properties.CountsPresent) : (op.onProperties b.properties).CountsPresent := by
  cases op with
  | update _ _ state perm attr _ _ => exact h.update hk state perm
  | updateIfMatch _ _ _ _ _ state perm attr _ _ => exact h.update hk state perm
  | updateAttribute _ _ mask attr => exact h.updateAttribute hk mask
  | updateLock address numPages fn perm =>
    obtain ⟨hipc, hdev⟩ := hk b hb hlo hhi
    cases fn with
    | shareToDevice => exact h.shareToDevice (hdev rfl)
    | unshareToDevice => exact h.dropDeviceUse
    | unshareToDeviceRight => exact h.dropDeviceUse
    | updateDeviceDisableMergeStateForShare => exact h
    | updateDeviceDisableMergeStateForShareRight => exact h
    | updateDeviceDisableMergeStateForUnshare => exact h
    | updateDeviceDisableMergeStateForUnshareRight => exact h
    | lockForIpc => exact h.lockForIpc (hipc rfl) perm
    | unlockForIpc => exact h.unlockForIpc

theorem Reachable.countsPresent (hst : pageSize ∣ st) (hnd : pageSize ∣ nd) (hlt : st < nd)
    (h : Reachable st nd (fun m op => op.KeepsLockCounts m) m) :
    ∀ b ∈ m.memoryBlockTree, b.properties.CountsPresent := by
  induction h with
  | initialized =>
    intro b hb
    rw [initializeManager, mem_singleton] at hb
    subst hb
    constructor <;> intro hbit <;>
      simp [KMemoryBlock.properties, KMemoryBlock.initializeBlock, KMemoryAttribute.none] at hbit
  | step op hreach hr hk hrun ih =>
    exact forall_properties_of_run (hreach.wellFormed hst hnd hlt).1 hr hrun ih
      fun b hb hlo hhi _ => op.countsPresent_onProperties hk hb hlo hhi (ih b hb)

/-- A coalesced tiling whose locked blocks have counts passes the loop of `CheckState`. -/
theorem checkStateLoop_eq_true {prev : KMemoryBlock} {l : List KMemoryBlock} :
    ∀ {s e : Nat}, BlocksTile s e (prev :: l) → Coalesced (prev :: l) →
      (∀ b ∈ prev :: l, b.properties.CountsPresent) → checkStateLoop prev l = true := by
  induction l generalizing prev with
  | nil =>
    intro s e _ _ hcounts
    exact (countsPresent_iff prev).2 (hcounts prev mem_cons_self)
  | cons it rest ih =>
    intro s e ht hc hcounts
    obtain ⟨hmerge, hrest⟩ := isChain_cons_cons.1 hc
    obtain ⟨-, -, htl⟩ := ht
    have hit := (countsPresent_iff it).2 (hcounts it (by simp))
    have hloop := ih htl hrest fun b hb => hcounts b (mem_cons_of_mem prev hb)
    simp [checkStateLoop, hmerge, htl.1, hit, hloop]

theorem checkState_eq_true (hm : m.WellFormed) (hne : m.memoryBlockTree ≠ [])
    (h : ∀ b ∈ m.memoryBlockTree, b.properties.CountsPresent) : m.checkState = true := by
  obtain ⟨-, ht, hc⟩ := hm
  unfold checkState
  cases htree : m.memoryBlockTree with
  | nil => exact absurd htree hne
  | cons prev rest =>
    rw [htree] at ht hc h
    exact checkStateLoop_eq_true ht hc h

/-! ## The representation invariant over whole runs -/

/-- In every state of every run the tree is sorted, contiguous, exact and coalesced. The next
operation on a valid range has a result, again such a tree with at most two blocks taken from the
allocator, exactly when its range has a block in front of it. In the runs whose operations also
keep the lock counts, `CheckState` returns true. -/
theorem reachable_run_iff_hasBlockBefore {st nd : Nat} (hst : pageSize ∣ st) (hnd : pageSize ∣ nd)
    (hlt : st < nd) :
    (∀ m, Reachable st nd (fun m op => op.HasBlockBefore m) m →
      BlocksTile st nd m.memoryBlockTree ∧ Coalesced m.memoryBlockTree ∧
        ∀ op : BlockOperation, m.ValidRange op.address op.numPages →
          ((∃ m' a, op.run m = .ok (m', a) ∧ BlocksTile st nd m'.memoryBlockTree ∧
              Coalesced m'.memoryBlockTree ∧ a.taken ≤ 2) ↔ op.HasBlockBefore m)) ∧
      ∀ m, Reachable st nd (fun m op => op.HasBlockBefore m ∧ op.KeepsLockCounts m) m →
        m.checkState = true := by
  refine ⟨fun m hreach => ?_, fun m hreach => ?_⟩
  · obtain ⟨hwf, hs, he⟩ := hreach.wellFormed hst hnd hlt
    refine ⟨hs ▸ he ▸ hwf.tiles, hwf.coalesced, fun op hr => ⟨?_, fun hb => ?_⟩⟩
    · rintro ⟨m', a, hrun, -⟩
      exact (run_ok hwf hr hrun).1
    · obtain ⟨m', a, hrun⟩ := run_ok_of_hasBlockBefore hwf hr hb
      obtain ⟨-, hs', he', hwf', -, htaken⟩ := run_ok hwf hr hrun
      exact ⟨m', a, hrun, hs ▸ he ▸ hs' ▸ he' ▸ hwf'.tiles, hwf'.coalesced, htaken⟩
  · obtain ⟨hwf, hs, he⟩ := hreach.wellFormed hst hnd hlt
    have hmono : Reachable st nd (fun m op => op.KeepsLockCounts m) m :=
      hreach.mono fun _ _ h => h.2
    refine checkState_eq_true hwf ?_ (hmono.countsPresent hst hnd hlt)
    intro hnil
    have ht := hwf.tiles
    rw [hnil, hs, he] at ht
    exact absurd ht (Nat.ne_of_lt hlt)

/-- A lock inside the first block of a fresh manager cuts it, so the step back has a block. -/
theorem lockForIpc_initialized_ok :
    ∃ m' a, (BlockOperation.updateLock 0x2000 1 .lockForIpc .userRead).run
        (.initializeManager 0x1000 0x8000) = .ok (m', a) ∧
      BlocksTile 0x1000 0x8000 m'.memoryBlockTree ∧ Coalesced m'.memoryBlockTree ∧ a.taken ≤ 2 := by
  have hspec := (@reachable_run_iff_hasBlockBefore 0x1000 0x8000 (by decide)
    (by decide) (by decide)).1 _ .initialized
  refine (hspec.2.2 (.updateLock 0x2000 1 .lockForIpc .userRead) ?_).2 ?_
  · constructor <;> decide
  · exact Or.inr fun _ _ _ => by rfl

/-- Giving the second page of a fresh manager the properties it already has steps back from the
first block: the loop skips the block without cutting it. -/
theorem update_initialized_faults :
    Reachable 0x1000 0x8000 (fun _ _ => True) (.initializeManager 0x1000 0x8000) ∧
      (initializeManager 0x1000 0x8000).ValidRange 0x2000 1 ∧
      (BlockOperation.update 0x2000 1 .free .none .none .none .none).run
        (.initializeManager 0x1000 0x8000) = .error .nullIterator := by
  refine ⟨.initialized, ?_, by decide⟩
  constructor <;> decide

end Sudachi.Kernel
