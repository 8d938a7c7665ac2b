import Sudachi.Kernel.MemoryBlockPages
import Sudachi.Kernel.PageTableIpc

/-!
# A failed set-up for IPC

`SetupForIpcClient` changes the permissions of the client's pages before the later steps of
`SetupForIpc` can fail. The two rollbacks give every page its permission back: they write the
permission of the page's block, which a page has while no set-up is under way. Between the two there
is a step that neither covers, the update allocator of the client. When it has no blocks left, the
pages keep the permission of the lock.

`setupForIpc_atomic_iff` says exactly when a failed set-up leaves everything as it was.
-/

set_option autoImplicit false

namespace Sudachi.Kernel

open Sudachi.Common Sudachi.Foundations List Or
open Option (some.inj)
open KMemoryPermission (ipcLockChangeMask kernelReadWrite notMapped userRead userReadWrite)
open Guarded (bind_eq_error bind_of_error bind_of_ok onFailure_eq_error reading reading_eq
  require_eq_error require_eq_ok)
open Kernel.MemoryPermission (read write)
open KPageTableBase (checkMemoryState contains)

/-! ## The page table of a process -/

/-- The state has one of the flags that the state checks of IPC ask for. -/
def KMemoryState.UsableForIpc (s : KMemoryState) : Prop :=
  s &&& (flagCanUseIpc ||| flagCanUseNonDeviceIpc ||| flagCanUseNonSecureIpc) ≠ 0

/-- The page lies in the block. -/
def KMemoryBlock.HoldsPage (b : KMemoryBlock) (page : Nat) : Prop :=
  b.address ≤ page * pageSize ∧ page * pageSize < b.getEndAddress

instance (b : KMemoryBlock) (page : Nat) : Decidable (b.HoldsPage page) :=
  inferInstanceAs (Decidable (_ ∧ _))

/-- What holds of the page table of a process between two calls: the blocks tile the address space,
a page that IPC can use has the permission of its block, and the permission of a locked block is one
of the two that `SetupForIpc` gives. -/
structure KPageTableBase.Consistent (pt : KPageTableBase) : Prop where
  blocks : pt.memoryBlockManager.WellFormed
  start_eq : pt.memoryBlockManager.startAddress = pt.addressSpaceStart
  end_eq : pt.memoryBlockManager.endAddress = pt.addressSpaceEnd
  nonempty : pt.addressSpaceStart < pt.addressSpaceEnd
  permission : ∀ b ∈ pt.memoryBlockManager.memoryBlockTree, b.memoryState.UsableForIpc →
    ∀ page, b.HoldsPage page → pt.impl.permission page = convertToMemoryPermission b.permission
  locked : ∀ b ∈ pt.memoryBlockManager.memoryBlockTree, b.ipcLockCount ≠ 0 →
    b.permission &&& ipcLockChangeMask = kernelReadWrite ||| notMapped ∨
      b.permission &&& ipcLockChangeMask = userRead

namespace PageTable

variable {t : PageTable} {lo hi : Nat} {perms : MemoryPermission}

/-- Changing the permission of an aligned range. -/
theorem protectRegion_eq (hlo : pageSize ∣ lo) (hhi : pageSize ∣ hi) (hle : lo ≤ hi) :
    t.protectRegion lo ((hi - lo) / pageSize * pageSize) perms =
      { t with permission := fun page =>
          if lo ≤ page * pageSize ∧ page * pageSize < hi then perms else t.permission page } := by
  obtain ⟨i, rfl⟩ := hlo
  obtain ⟨j, rfl⟩ := hhi
  have hij : i ≤ j := Nat.le_of_mul_le_mul_left hle pageSize_pos
  have hsize : (pageSize * j - pageSize * i) / pageSize * pageSize / pageSize = j - i := by
    rw [← Nat.mul_sub, Nat.mul_div_cancel_left _ pageSize_pos, Nat.mul_div_cancel _ pageSize_pos]
  rw [protectRegion, hsize, Nat.mul_div_cancel_left _ pageSize_pos]
  congr 1
  funext page
  refine if_congr ?_ rfl rfl
  rw [mul_comm page, Nat.mul_le_mul_left_iff pageSize_pos, Nat.mul_lt_mul_left pageSize_pos]
  omega

end PageTable

/-! ## The blocks that `SetupForIpcClient` passes -/

namespace IpcBuffer

variable {b : IpcBuffer} {check : StateCheck} {info : KMemoryBlock} {c c' : ClientCursor}

theorem pageSize_dvd_mappingStart (b : IpcBuffer) : pageSize ∣ b.mappingStart := dvd_alignUp _ _

theorem pageSize_dvd_mappingEnd (b : IpcBuffer) : pageSize ∣ b.mappingEnd := dvd_alignDown _ _

/-- The page is a whole page of the buffer, in a block whose permission the set-up changes. -/
def Reprotects (b : IpcBuffer) (info : KMemoryBlock) (page : Nat) : Prop :=
  info.HoldsPage page ∧ (b.mappingStart ≤ page * pageSize ∧ page * pageSize < b.mappingEnd) ∧
    info.permission &&& ipcLockChangeMask ≠ b.srcPerm

instance (b : IpcBuffer) (info : KMemoryBlock) (page : Nat) : Decidable (b.Reprotects info page) :=
  inferInstanceAs (Decidable (_ ∧ _ ∧ _))

/-- The permissions once the set-up has passed some blocks. -/
def reprotected (b : IpcBuffer) (blocks : List KMemoryBlock) (t : PageTable) : PageTable :=
  { t with
    permission := fun page =>
      if blocks.any fun info => decide (b.Reprotects info page) then
        convertToMemoryPermission b.srcPerm
      else t.permission page }

/-- The block has the start or the end of the whole pages strictly inside: how many new blocks it
takes to cut it there. -/
def cuts (b : IpcBuffer) (info : KMemoryBlock) : Nat :=
  if b.mappingStart < b.mappingEnd then
    (if info.address < b.mappingStart ∧ b.mappingStart < info.getEndAddress then 1 else 0) +
      (if info.address < b.mappingEnd ∧ b.mappingEnd < info.getEndAddress then 1 else 0)
  else 0

theorem setupBlock_eq (halign : pageSize ∣ info.address) (hlt : info.address < info.getEndAddress) :
    b.setupBlock info c =
      { impl := b.reprotected [info] c.impl
        mappedSize := c.mappedSize +
          (min b.mappingEnd info.getEndAddress - max b.mappingStart info.address)
        blocksNeeded := c.blocksNeeded + b.cuts info } := by
  have hend : pageSize ∣ info.getEndAddress := by
    rw [KMemoryBlock.getEndAddress_eq]
    exact dvd_add halign (dvd_mul_left _ _)
  have hlast : info.getLastAddress = info.getEndAddress - 1 := rfl
  by_cases hmeets : b.mappingStart < b.mappingEnd ∧ b.mappingStart < info.getEndAddress ∧
      info.address < b.mappingEnd
  · obtain ⟨hwhole, -, -⟩ := id hmeets
    have hcurStart : (if b.mappingStart ≤ info.address then info.address else b.mappingStart) =
        max b.mappingStart info.address := by
      split_ifs <;> omega
    have hcurEnd : (if info.getLastAddress ≤ b.mappingEnd - 1 then info.getEndAddress
        else b.mappingEnd) = min b.mappingEnd info.getEndAddress := by
      rw [hlast]
      split_ifs <;> omega
    have hneeds : c.blocksNeeded + (if info.address < b.mappingStart then 1 else 0) +
        (if b.mappingEnd - 1 < info.getLastAddress then 1 else 0) = c.blocksNeeded + b.cuts info := by
      rw [cuts, if_pos hwhole, hlast]
      split_ifs <;> omega
    have himpl : (if info.permission &&& ipcLockChangeMask ≠ b.srcPerm then
        c.impl.protectRegion (max b.mappingStart info.address)
          ((min b.mappingEnd info.getEndAddress - max b.mappingStart info.address) / pageSize *
            pageSize) (convertToMemoryPermission b.srcPerm)
        else c.impl) = b.reprotected [info] c.impl := by
      split_ifs with hperm
      · have hlo : pageSize ∣ max b.mappingStart info.address := by
          rcases le_total b.mappingStart info.address with h | h
          · rwa [max_eq_right h]
          · rw [max_eq_left h]
            exact b.pageSize_dvd_mappingStart
        have hhi : pageSize ∣ min b.mappingEnd info.getEndAddress := by
          rcases le_total b.mappingEnd info.getEndAddress with h | h
          · rw [min_eq_left h]
            exact b.pageSize_dvd_mappingEnd
          · rwa [min_eq_right h]
        rw [PageTable.protectRegion_eq hlo hhi (by omega), reprotected]
        congr 1
        funext page
        refine if_congr ?_ rfl rfl
        simp only [any_cons, any_nil, Bool.or_false, decide_eq_true_eq]
        constructor
        · rintro ⟨h1, h2⟩
          exact ⟨⟨by omega, by omega⟩, ⟨by omega, by omega⟩, hperm⟩
        · rintro ⟨⟨h1, h2⟩, ⟨h3, h4⟩, -⟩
          omega
      · rw [reprotected]
        have hno : ∀ page, ¬b.Reprotects info page := fun page h => hperm h.2.2
        simp only [any_cons, any_nil, Bool.or_false, decide_eq_true_eq, hno, if_false]
    rw [setupBlock, if_pos hmeets]
    simp only [hcurStart, hcurEnd, himpl, hneeds]
  · have hno : ∀ page, ¬b.Reprotects info page := by
      rintro page ⟨⟨h1, h2⟩, ⟨h3, h4⟩, -⟩
      exact hmeets ⟨by omega, by omega, by omega⟩
    have hsize : min b.mappingEnd info.getEndAddress - max b.mappingStart info.address = 0 := by
      omega
    have hcuts : b.cuts info = 0 := by
      rw [cuts]
      split_ifs <;> omega
    rw [setupBlock, if_neg hmeets, hsize, hcuts, reprotected]
    simp only [any_cons, any_nil, Bool.or_false, decide_eq_true_eq, hno, if_false, add_zero]

theorem reprotected_reprotected (l l' : List KMemoryBlock) (t : PageTable) :
    b.reprotected l' (b.reprotected l t) = b.reprotected (l ++ l') t := by
  simp only [reprotected, any_append]
  congr 1
  funext page
  cases l'.any fun info => decide (b.Reprotects info page) with
  | true => simp
  | false => simp

/-- The state of the loop once it has passed blocks that tile `[s, s')`. -/
def passed (b : IpcBuffer) (s s' : Nat) (blocks : List KMemoryBlock) (c : ClientCursor) :
    ClientCursor where
  impl := b.reprotected blocks c.impl
  mappedSize := c.mappedSize + (min b.mappingEnd s' - max b.mappingStart s)
  blocksNeeded := c.blocksNeeded + (blocks.map b.cuts).sum

theorem passed_cons {s s' : Nat} {blocks : List KMemoryBlock}
    (htile : BlocksTile info.getEndAddress s' blocks) (hinfo : info.address = s)
    (halign : pageSize ∣ s) (hlt : s < info.getEndAddress) :
    b.passed info.getEndAddress s' blocks (b.setupBlock info c) =
      b.passed s s' (info :: blocks) c := by
  have hle := htile.le
  subst hinfo
  rw [setupBlock_eq halign hlt]
  simp only [passed, reprotected_reprotected, singleton_append, map_cons, sum_cons,
    ClientCursor.mk.injEq, true_and]
  omega

theorem passed_nil (s : Nat) : b.passed s s [] c = c := by
  have hzero : min b.mappingEnd s - max b.mappingStart s = 0 := by omega
  simp [passed, reprotected, hzero]

/-- The blocks that `SetupForIpcClient` has passed. -/
structure Passes (check : StateCheck) (s s' : Nat) (pre : List KMemoryBlock) : Prop where
  tiles : BlocksTile s s' pre
  checked : ∀ info ∈ pre, checkMemoryState info check = .ok ()

/-- The loop of `SetupForIpcClient` stops behind the block that holds the end of the buffer, or at
the first block that does not pass the check. -/
theorem setupLoop_spec {l : List KMemoryBlock} {s e : Nat} (ht : BlocksTile s e l)
    (halign : pageSize ∣ s) (hstart : s < b.alignedEnd) (hend : b.alignedEnd ≤ e)
    (c : ClientCursor) :
    (∃ pre rest s', l = pre ++ rest ∧ BlocksTile s' e rest ∧ Passes check s s' pre ∧
      b.alignedEnd ≤ s' ∧ b.setupLoop check l c = (.ok (), b.passed s s' pre c)) ∨
    ∃ pre info rest s', l = pre ++ info :: rest ∧ BlocksTile s' e (info :: rest) ∧
      Passes check s s' pre ∧ s' < b.alignedEnd ∧
      checkMemoryState info check = .error .invalidCurrentMemory ∧
      b.setupLoop check l c = (.error (.result .invalidCurrentMemory), b.passed s s' pre c) := by
  induction l generalizing s c with
  | nil =>
    have heq : s = e := ht
    omega
  | cons info rest ih =>
    obtain ⟨hinfo, hlt, htl⟩ := ht
    have hlast : b.alignedEnd - 1 ≤ info.getLastAddress ↔ b.alignedEnd ≤ info.getEndAddress := by
      have hdef : info.getLastAddress = info.getEndAddress - 1 := rfl
      omega
    rcases KPageTableBase.checkMemoryState_cases info check with hok | hbad
    · have hread : reading
          (fun _ => liftResult (checkMemoryState info check)) c = (.ok (), c) := by
        rw [reading, hok]
        rfl
      have hstep : b.setupLoop check (info :: rest) c =
          (if b.alignedEnd - 1 ≤ info.getLastAddress then (pure () : Guarded ClientCursor IpcError
            Unit) else b.setupLoop check rest) (b.setupBlock info c) := by
        rw [setupLoop, bind_of_ok hread]
        rfl
      have hone : Passes check s info.getEndAddress [info] :=
        ⟨⟨hinfo, hlt, rfl⟩, fun i hi => mem_singleton.mp hi ▸ hok⟩
      by_cases hdone : b.alignedEnd ≤ info.getEndAddress
      · refine inl ⟨[info], rest, info.getEndAddress, rfl, htl, hone, hdone, ?_⟩
        have hpass := setupBlock_eq (b := b) (c := c) (hinfo ▸ halign) (hinfo ▸ hlt)
        rw [hstep, if_pos (hlast.mpr hdone), Guarded.pure_apply, hpass, passed, hinfo]
        simp
      · have halign' : pageSize ∣ info.getEndAddress := by
          rw [KMemoryBlock.getEndAddress_eq, hinfo]
          exact dvd_add halign (dvd_mul_left _ _)
        have hcons : ∀ {s' : Nat} {pre : List KMemoryBlock},
            Passes check info.getEndAddress s' pre → Passes check s s' (info :: pre) := by
          intro s' pre hp
          refine ⟨⟨hinfo, hlt, hp.tiles⟩, fun i hi => ?_⟩
          rcases mem_cons.mp hi with rfl | hi
          · exact hok
          · exact hp.checked i hi
        rw [hstep, if_neg (hlast.not.mpr hdone)]
        rcases ih htl halign' (by omega) (b.setupBlock info c) with
          ⟨pre, rest', s', hl, htr, hp, hs', hrun⟩ |
          ⟨pre, bad, rest', s', hl, htr, hp, hs', hfail, hrun⟩
        · refine inl ⟨info :: pre, rest', s', by rw [hl]; rfl, htr, hcons hp, hs', ?_⟩
          rw [hrun, passed_cons hp.tiles hinfo halign hlt]
        · refine inr ⟨info :: pre, bad, rest', s', by rw [hl]; rfl, htr, hcons hp, hs', hfail, ?_⟩
          rw [hrun, passed_cons hp.tiles hinfo halign hlt]
    · have hread : reading
          (fun _ => liftResult (checkMemoryState info check)) c =
            (.error (.result .invalidCurrentMemory), c) := by
        rw [reading, hbad]
        rfl
      refine inr ⟨[], info, rest, s, rfl, ⟨hinfo, hlt, htl⟩,
        ⟨rfl, fun i hi => absurd hi not_mem_nil⟩, hstart, hbad, ?_⟩
      rw [setupLoop, bind_of_error hread, passed_nil]

end IpcBuffer

/-! ## The rollback -/

section Cleanup

variable {lo size : Nat} {protPerm : KMemoryPermission} {info : KMemoryBlock} {t : PageTable}

/-- What the rollback of `[lo, lo + size)` makes of the permission of a page: it leaves it, unless the
page is in an unlocked block that the set-up has changed, or it writes the permission of the block
of the page. -/
def RollsBack (lo size : Nat) (protPerm : KMemoryPermission) (l : List KMemoryBlock)
    (page : Nat) (before after : MemoryPermission) : Prop :=
  (after = before ∧ ∀ info ∈ l, info.HoldsPage page →
    lo ≤ page * pageSize → page * pageSize < lo + size →
    ¬(info.ipcLockCount = 0 ∧ info.permission &&& ipcLockChangeMask ≠ protPerm)) ∨
  ∃ info ∈ l, info.HoldsPage page ∧ lo ≤ page * pageSize ∧ page * pageSize < lo + size ∧
    after = convertToMemoryPermission info.permission

theorem cleanupBlock_spec (hlo : pageSize ∣ lo) (hsize : pageSize ∣ size)
    (halign : pageSize ∣ info.address) (hlt : info.address < info.getEndAddress)
    (hstart : lo < info.getEndAddress) (hend : info.address < lo + size) :
    ∃ perm, cleanupBlock lo size protPerm info t = { t with permission := perm } ∧
      ∀ page, RollsBack lo size protPerm [info] page (t.permission page) (perm page) := by
  have hinfo : pageSize ∣ info.getEndAddress := by
    rw [KMemoryBlock.getEndAddress_eq]
    exact dvd_add halign (dvd_mul_left _ _)
  have hlast : info.getLastAddress = info.getEndAddress - 1 := rfl
  have hcurStart : (if lo ≤ info.address then info.address else lo) = max lo info.address := by
    split_ifs <;> omega
  have hcurEnd : (if lo + size - 1 ≤ info.getLastAddress then lo + size else info.getEndAddress) =
      min (lo + size) info.getEndAddress := by
    rw [hlast]
    split_ifs <;> omega
  -- a block that is not touched is not one that the set-up has changed
  have hkept : ¬(info.ipcLockCount = 0 ∧ info.permission &&& ipcLockChangeMask ≠ protPerm) → ∃ perm,
      t = { t with permission := perm } ∧
        ∀ page, RollsBack lo size protPerm [info] page (t.permission page) (perm page) := by
    intro hno
    refine ⟨t.permission, rfl, fun page => inl ⟨rfl, ?_⟩⟩
    intro i hi _ _ _
    obtain rfl := mem_singleton.mp hi
    exact hno
  simp only [cleanupBlock, hcurStart, hcurEnd]
  split_ifs with hfix hneeded
  · have hmax : pageSize ∣ max lo info.address := by
      rcases le_total lo info.address with h | h
      · rwa [max_eq_right h]
      · rwa [max_eq_left h]
    have hmin : pageSize ∣ min (lo + size) info.getEndAddress := by
      rcases le_total (lo + size) info.getEndAddress with h | h
      · rw [min_eq_left h]
        exact dvd_add hlo hsize
      · rwa [min_eq_right h]
    rw [PageTable.protectRegion_eq hmax hmin (by omega)]
    refine ⟨_, rfl, fun page => ?_⟩
    by_cases hpage : max lo info.address ≤ page * pageSize ∧
        page * pageSize < min (lo + size) info.getEndAddress
    · exact inr ⟨info, mem_singleton_self _, ⟨by omega, by omega⟩, by omega, by omega,
        if_pos hpage⟩
    · refine inl ⟨if_neg hpage, ?_⟩
      rintro i hi ⟨h1, h2⟩ h3 h4
      obtain rfl := mem_singleton.mp hi
      omega
  · exact hkept fun h => hneeded (inr (inr h.2))
  · exact hkept fun h => hfix (inl h)

/-- The loop of the rollback, on blocks from the one that holds the start of the range on. -/
theorem cleanupLoop_spec (hlo : pageSize ∣ lo) (hsize : pageSize ∣ size) {l : List KMemoryBlock}
    {s e : Nat} (ht : BlocksTile s e l) (halign : pageSize ∣ s)
    (hfirst : ∀ info ∈ l, lo < info.getEndAddress) (hs : s < lo + size) (he : lo + size ≤ e)
    (t : PageTable) :
    ∃ perm, cleanupLoop lo size protPerm l t = { t with permission := perm } ∧
      ∀ page, RollsBack lo size protPerm l page (t.permission page) (perm page) := by
  induction l generalizing s t with
  | nil =>
    have heq : s = e := ht
    omega
  | cons info rest ih =>
    obtain ⟨hinfo, hlt, htl⟩ := ht
    have hlast : lo + size - 1 ≤ info.getLastAddress ↔ lo + size ≤ info.getEndAddress := by
      have hdef : info.getLastAddress = info.getEndAddress - 1 := rfl
      omega
    obtain ⟨perm, hblock, hperm⟩ := @cleanupBlock_spec lo size protPerm info t hlo hsize
      (hinfo ▸ halign) (hinfo ▸ hlt) (hfirst info mem_cons_self) (hinfo ▸ hs)
    rw [cleanupLoop, hblock]
    by_cases hdone : lo + size ≤ info.getEndAddress
    · refine ⟨perm, if_pos (hlast.mpr hdone), fun page => ?_⟩
      rcases hperm page with ⟨heq, hno⟩ | ⟨i, hi, hrest⟩
      · refine inl ⟨heq, fun i hi hholds h1 h2 => ?_⟩
        rcases mem_cons.mp hi with rfl | hi
        · exact hno i (mem_singleton_self _) hholds h1 h2
        · -- the blocks behind start at the end of the range or later
          have hbehind := (htl.mem hi).1
          have hat := hholds.1
          omega
      · obtain rfl := mem_singleton.mp hi
        exact inr ⟨i, mem_cons_self, hrest⟩
    · have halign' : pageSize ∣ info.getEndAddress := by
        rw [KMemoryBlock.getEndAddress_eq, hinfo]
        exact dvd_add halign (dvd_mul_left _ _)
      obtain ⟨perm', hloop, hperm'⟩ := ih htl halign'
        (fun i hi => hfirst i (mem_cons_of_mem _ hi)) (by omega) { t with permission := perm }
      refine ⟨perm', ?_, fun page => ?_⟩
      · simp only [if_neg (hlast.not.mpr hdone), hloop]
      · rcases hperm' page with ⟨heq, hno⟩ | ⟨i, hi, hrest⟩
        · rcases hperm page with ⟨heq', hno'⟩ | ⟨i, hi, h1, h2, h3, h4⟩
          · refine inl ⟨heq.trans heq', fun i hi => ?_⟩
            rcases mem_cons.mp hi with rfl | hi
            · exact hno' i (mem_singleton_self _)
            · exact hno i hi
          · obtain rfl := mem_singleton.mp hi
            exact inr ⟨i, mem_cons_self, h1, h2, h3, heq.trans h4⟩
        · exact inr ⟨i, mem_cons_of_mem _ hi, hrest⟩

end Cleanup

section Rollback

variable {pt : KPageTableBase} {b : IpcBuffer} {check : StateCheck} {info : KMemoryBlock}
  {pre rest : List KMemoryBlock} {s s' : Nat}
variable {l : List KMemoryBlock}

theorem pageSize_dvd_of_tiles {e : Nat} (ht : BlocksTile s e l)
    (hs : pageSize ∣ s) : pageSize ∣ e := by
  induction l generalizing s with
  | nil => exact (show s = e from ht) ▸ hs
  | cons c l ih =>
    obtain ⟨hc, -, htl⟩ := ht
    refine ih htl ?_
    rw [KMemoryBlock.getEndAddress_eq, hc]
    exact dvd_add hs (dvd_mul_left _ _)

/-- A page lies in one block of a tiling. -/
theorem block_unique {e : Nat} (ht : BlocksTile s e l) {b₁ b₂ : KMemoryBlock} (h₁ : b₁ ∈ l)
    (h₂ : b₂ ∈ l) {page : Nat} (hp₁ : b₁.HoldsPage page) (hp₂ : b₂.HoldsPage page) : b₁ = b₂ := by
  have hlook₁ := ht.lookup_eq_some h₁ hp₁.1 hp₁.2
  rw [ht.lookup_eq_some h₂ hp₂.1 hp₂.2] at hlook₁
  exact (some.inj hlook₁).symm

/-- The extents of a buffer. -/
theorem IpcBuffer.extents (b : IpcBuffer) :
    b.alignedStart ≤ b.address ∧ b.address ≤ b.mappingStart ∧
      b.mappingStart ≤ b.alignedStart + pageSize ∧ b.mappingEnd ≤ b.address + b.size ∧
      b.address + b.size ≤ b.alignedEnd ∧ b.alignedEnd ≤ b.mappingEnd + pageSize := by
  have hstart := dvd_alignDown b.address pageSize
  have hmapStart := dvd_alignUp b.address pageSize
  have hmapEnd := dvd_alignDown (b.address + b.size) pageSize
  have hend := dvd_alignUp (b.address + b.size) pageSize
  have h1 := alignDown_le b.address pageSize
  have h2 := lt_alignDown_add b.address pageSize_pos
  have h3 := le_alignUp b.address pageSize pageSize_pos
  have h4 := alignUp_lt b.address pageSize_pos
  have h5 := alignDown_le (b.address + b.size) pageSize
  have h6 := lt_alignDown_add (b.address + b.size) pageSize_pos
  have h7 := le_alignUp (b.address + b.size) pageSize pageSize_pos
  have h8 := alignUp_lt (b.address + b.size) pageSize_pos
  simp only [alignedStart, alignedEnd, mappingStart, mappingEnd, pageSize] at *
  omega

/-- A buffer in the address space lies in it with all its pages. -/
theorem KPageTableBase.Consistent.contained (hc : pt.Consistent)
    (hin : pt.contains b.address b.size = true) :
    0 < b.size ∧ pt.memoryBlockManager.startAddress ≤ b.alignedStart ∧
      b.alignedEnd ≤ pt.memoryBlockManager.endAddress := by
  have hstart := hc.blocks.startAligned
  have hend := pageSize_dvd_of_tiles hc.blocks.tiles hstart
  have hs := hc.start_eq
  have he := hc.end_eq
  have hne := hc.nonempty
  simp only [contains, Bool.and_eq_true, decide_eq_true_eq] at hin
  obtain ⟨⟨h1, h2⟩, h3⟩ := hin
  have h4 := dvd_alignDown b.address pageSize
  have h5 := lt_alignDown_add b.address pageSize_pos
  have h6 := dvd_alignUp (b.address + b.size) pageSize
  have h7 := alignUp_lt (b.address + b.size) pageSize_pos
  simp only [IpcBuffer.alignedStart, IpcBuffer.alignedEnd, pageSize] at *
  omega

theorem and_eq_of_checked (hok : checkMemoryState info check = .ok ()) :
    info.memoryState &&& check.stateMask = check.state ∧
      info.permission &&& check.permMask = check.perm := by
  rw [checkMemoryState] at hok
  split_ifs at hok with h1 h2 h3
  exact ⟨not_not.mp h1, not_not.mp h2⟩

/-- A block that has passed the check is one that IPC can use, with the permission of the buffer. -/
theorem IpcBuffer.usable_of_checked (hcheck : b.stateCheck = some check)
    (hok : checkMemoryState info check = .ok ()) :
    info.memoryState.UsableForIpc ∧ info.permission &&& b.testPerm = b.testPerm := by
  obtain ⟨hstate, hperm⟩ := and_eq_of_checked hok
  have hbit : ∀ (i : Nat) (flag : KMemoryState), flag.getLsbD i = true →
      (KMemoryState.flagCanUseIpc ||| KMemoryState.flagCanUseNonDeviceIpc |||
        KMemoryState.flagCanUseNonSecureIpc).getLsbD i = true →
      info.memoryState &&& flag = flag → info.memoryState.UsableForIpc := by
    intro i flag hflag hall heq hzero
    have h1 := congrArg (fun v => v.getLsbD i) heq
    have h2 := congrArg (fun v => v.getLsbD i) hzero
    simp only [BitVec.getLsbD_and, hflag, hall, Bool.and_true] at h1 h2
    rw [h1] at h2
    simp at h2
  rw [IpcBuffer.stateCheck] at hcheck
  split_ifs at hcheck with h1 h2 h3
  · obtain rfl := some.inj hcheck
    exact ⟨hbit 10 KMemoryState.flagCanUseIpc (by decide) (by decide) hstate, hperm⟩
  · obtain rfl := some.inj hcheck
    exact ⟨hbit 12 KMemoryState.flagCanUseNonSecureIpc (by decide) (by decide) hstate, hperm⟩
  · obtain rfl := some.inj hcheck
    exact ⟨hbit 11 KMemoryState.flagCanUseNonDeviceIpc (by decide) (by decide) hstate, hperm⟩

/-- The permission of a buffer is one of the two that the assertion allows. -/
def IpcBuffer.ValidPerm (b : IpcBuffer) : Prop :=
  b.testPerm = userReadWrite ∨ b.testPerm = userRead

/-- The set-up changes no block that is locked already. -/
theorem KPageTableBase.Consistent.locked_unchanged (hc : pt.Consistent)
    (hmem : info ∈ pt.memoryBlockManager.memoryBlockTree) (hperm : b.ValidPerm)
    (hpass : info.permission &&& b.testPerm = b.testPerm) (hlock : info.ipcLockCount ≠ 0) :
    info.permission &&& ipcLockChangeMask = b.srcPerm := by
  have hkey : ∀ p : KMemoryPermission, (p &&& ipcLockChangeMask = kernelReadWrite ||| notMapped ∨
      p &&& ipcLockChangeMask = userRead) →
      p &&& userReadWrite ≠ userReadWrite ∧ (p &&& userRead = userRead →
          p &&& ipcLockChangeMask = userRead) := by
    decide
  obtain ⟨hno, hread⟩ := hkey _ (hc.locked info hmem hlock)
  rcases hperm with htest | htest
  · rw [htest] at hpass
    exact absurd hpass hno
  · rw [htest] at hpass
    rw [IpcBuffer.srcPerm, htest, if_neg (by decide)]
    exact hread hpass

theorem IpcBuffer.reprotected_eq_self {t : PageTable}
    (hno : ∀ page, ∀ info ∈ pre, ¬b.Reprotects info page) : b.reprotected pre t = t := by
  have hany : ∀ page, (pre.any fun info => decide (b.Reprotects info page)) = false := by
    intro page
    rw [any_eq_false]
    intro info hinfo
    rw [decide_eq_true_eq]
    exact hno page info hinfo
  simp only [IpcBuffer.reprotected, hany, Bool.false_eq_true, if_false]

/-- Nothing has been changed as long as no whole page has been passed. -/
theorem IpcBuffer.reprotected_of_le {t : PageTable} (hp : IpcBuffer.Passes check s s' pre)
    (hle : min b.mappingEnd s' ≤ b.mappingStart) : b.reprotected pre t = t := by
  refine IpcBuffer.reprotected_eq_self ?_
  rintro page info hinfo ⟨⟨-, h2⟩, ⟨h3, h4⟩, -⟩
  have hend := (hp.tiles.mem hinfo).2.2
  omega

/-- The rollback of the whole pages that have been passed gives all pages their permission back. -/
theorem KPageTableBase.Consistent.rollback (hc : pt.Consistent) (hperm : b.ValidPerm)
    (hcheck : b.stateCheck = some check) (hp : IpcBuffer.Passes check s s' pre)
    (hpre : ∀ info ∈ pre, info ∈ pt.memoryBlockManager.memoryBlockTree)
    (hs : s ≤ b.mappingStart) (hs' : s' ≤ pt.memoryBlockManager.endAddress)
    (hstart : pt.memoryBlockManager.startAddress ≤ b.mappingStart)
    (hlt : b.mappingStart < min b.mappingEnd s') : ({ pt with impl := b.reprotected pre pt.impl } :
        KPageTableBase).cleanupForIpcClientOnServerSetupFailure b.mappingStart
      (min b.mappingEnd s' - b.mappingStart) b.srcPerm = pt := by
  have htiles := hc.blocks.tiles
  obtain ⟨before, it, after, hfind, htree, hle, hend, htb, hta⟩ :=
    findIterator_eq htiles hstart (show b.mappingStart < _ by omega)
  have hsuffix : BlocksTile it.address pt.memoryBlockManager.endAddress (it :: after) :=
    ⟨rfl, by omega, hta⟩
  have hitAlign : pageSize ∣ it.address :=
    aligned_of_tiles htiles hc.blocks.startAligned it (by rw [htree]; simp)
  have hinTree : ∀ info ∈ it :: after, info ∈ pt.memoryBlockManager.memoryBlockTree := by
    intro info hinfo
    rw [htree]
    exact mem_append_right _ hinfo
  have hsAlign : pageSize ∣ min b.mappingEnd s' := by
    rcases le_total b.mappingEnd s' with h | h
    · rw [min_eq_left h]
      exact b.pageSize_dvd_mappingEnd
    · rw [min_eq_right h]
      cases hnil : pre with
      | nil =>
        have heq : s = s' := by
          have := hp.tiles
          rwa [hnil] at this
        omega
      | cons first _ =>
        have hmem : first ∈ pre := by rw [hnil]; exact mem_cons_self
        have hfirst := aligned_of_tiles htiles hc.blocks.startAligned first (hpre first hmem)
        have hat : first.address = s := by
          have := hp.tiles
          rw [hnil] at this
          exact this.1
        exact pageSize_dvd_of_tiles hp.tiles (hat ▸ hfirst)
  obtain ⟨perm, hloop, hroll⟩ := @cleanupLoop_spec b.mappingStart
    (min b.mappingEnd s' - b.mappingStart) b.srcPerm b.pageSize_dvd_mappingStart
    (Nat.dvd_sub hsAlign b.pageSize_dvd_mappingStart) _ _ _ hsuffix hitAlign
    (by
      intro info hinfo
      rcases mem_cons.mp hinfo with rfl | hinfo
      · exact hend
      · have := hta.mem hinfo
        omega)
    (show it.address < b.mappingStart + (min b.mappingEnd s' - b.mappingStart) by omega)
    (by omega) (b.reprotected pre pt.impl)
  have hrestored : perm = pt.impl.permission := by
    funext page
    rcases hroll page with ⟨heq, hkept⟩ | ⟨info, hinfo, hholds, h1, h2, heq⟩
    · rw [heq]
      by_cases hany : pre.any (fun info => decide (b.Reprotects info page)) = true
      · -- a page that was changed is in an unlocked block, and is written back
        obtain ⟨info, hinfo, hrep⟩ := any_eq_true.mp hany
        rw [decide_eq_true_eq] at hrep
        obtain ⟨hholds, ⟨h1, h2⟩, hchanged⟩ := hrep
        have hbound := (hp.tiles.mem hinfo).2.2
        have hpage := hholds.2
        obtain ⟨info', hinfo', -, h3, h4⟩ := hsuffix.exists_lookup (show it.address ≤ page * pageSize
          by omega) (show page * pageSize < _ by omega)
        obtain rfl := block_unique htiles (hinTree info' hinfo') (hpre info hinfo) ⟨h3, h4⟩ hholds
        have hunlocked := hkept info' hinfo' hholds h1 (by omega)
        refine absurd ⟨?_, hchanged⟩ hunlocked
        by_contra hlock
        exact hchanged (hc.locked_unchanged (hpre info' hinfo) hperm
          (IpcBuffer.usable_of_checked hcheck (hp.checked info' hinfo)).2 hlock)
      · simp only [IpcBuffer.reprotected, hany, Bool.false_eq_true, if_false]
    · -- what is written is the permission of the block of the page
      obtain ⟨info', hinfo', -, h3, h4⟩ := hp.tiles.exists_lookup (show s ≤ page * pageSize by omega)
        (show page * pageSize < s' by omega)
      obtain rfl := block_unique htiles (hinTree info hinfo) (hpre info' hinfo') hholds ⟨h3, h4⟩
      rw [heq, hc.permission info (hinTree info hinfo)
        (IpcBuffer.usable_of_checked hcheck (hp.checked info hinfo')).1 page hholds]
  rw [KPageTableBase.cleanupForIpcClientOnServerSetupFailure]
  simp only [hfind, hloop, hrestored]
  rfl

/-- `SetupForIpcClient` accepts the buffer: it lies in the address space, the state is one of IPC, and
all its blocks pass the check. -/
def KPageTableBase.Accepts (pt : KPageTableBase) (b : IpcBuffer) : Prop :=
  pt.contains b.address b.size = true ∧ ∃ check, b.stateCheck = some check ∧
    ∀ info ∈ pt.memoryBlockManager.memoryBlockTree, info.address < b.alignedEnd →
      b.alignedStart < info.getEndAddress → checkMemoryState info check = .ok ()

/-- The blocks of a buffer that has been accepted. -/
structure IpcBuffer.Covered (b : IpcBuffer) (pt : KPageTableBase) (check : StateCheck) (s s' : Nat)
    (pre : List KMemoryBlock) : Prop extends IpcBuffer.Passes check s s' pre where
  mem : ∀ info ∈ pre, info ∈ pt.memoryBlockManager.memoryBlockTree
  start_le : s ≤ b.alignedStart
  le_end : b.alignedEnd ≤ s'
  end_le : s' ≤ pt.memoryBlockManager.endAddress

theorem IpcBuffer.Covered.mem_of_holds (h : b.Covered pt check s s' pre) (hc : pt.Consistent)
    (hmem : info ∈ pt.memoryBlockManager.memoryBlockTree) {page : Nat}
    (hholds : info.HoldsPage page) (h1 : b.alignedStart ≤ page * pageSize)
    (h2 : page * pageSize < b.alignedEnd) : info ∈ pre := by
  have hs := h.start_le
  have hs' := h.le_end
  obtain ⟨info', hinfo', -, h3, h4⟩ := h.tiles.exists_lookup (show s ≤ page * pageSize by omega)
    (show page * pageSize < s' by omega)
  obtain rfl := block_unique hc.blocks.tiles hmem (h.mem info' hinfo') hholds ⟨h3, h4⟩
  exact hinfo'

/-- The blocks outside a covered range are not cut. -/
theorem IpcBuffer.cuts_eq_zero (b : IpcBuffer)
    (h : info.getEndAddress ≤ b.alignedStart ∨ b.alignedEnd ≤ info.address) : b.cuts info = 0 := by
  obtain ⟨h1, h2, -, h4, h5, -⟩ := b.extents
  rw [IpcBuffer.cuts]
  split_ifs <;> omega

theorem sum_cuts_eq_zero
    (h : ∀ info ∈ l, info.getEndAddress ≤ b.alignedStart ∨ b.alignedEnd ≤ info.address) :
    (l.map b.cuts).sum = 0 := by
  rw [sum_eq_zero_iff]
  intro n hn
  obtain ⟨info, hinfo, rfl⟩ := mem_map.mp hn
  exact b.cuts_eq_zero (h info hinfo)

/-- The loop of `SetupForIpcClient` on the blocks of a buffer. -/
theorem KPageTableBase.Consistent.setupBlocks (hc : pt.Consistent) (hperm : b.ValidPerm)
    (hin : pt.contains b.address b.size = true) (hcheck : b.stateCheck = some check) :
    ((∃ info ∈ pt.memoryBlockManager.memoryBlockTree, info.address < b.alignedEnd ∧
        b.alignedStart < info.getEndAddress ∧
        checkMemoryState info check = .error .invalidCurrentMemory) ∧
      KPageTableBase.setupBlocks b check pt = (.error (.result .invalidCurrentMemory), pt)) ∨
    ∃ s s' pre, b.Covered pt check s s' pre ∧ KPageTableBase.setupBlocks b check pt =
        (.ok (pt.memoryBlockManager.memoryBlockTree.map b.cuts).sum,
          { pt with impl := b.reprotected pre pt.impl }) := by
  obtain ⟨hsize, hstart, hend⟩ := hc.contained hin
  obtain ⟨hx1, hx2, -, -, hx5, -⟩ := b.extents
  have htiles := hc.blocks.tiles
  obtain ⟨before, it, after, hfind, htree, hle, hlt, htb, hta⟩ :=
    findIterator_eq htiles hstart (show b.alignedStart < _ by omega)
  have hinTree : ∀ info ∈ it :: after, info ∈ pt.memoryBlockManager.memoryBlockTree := by
    intro info hinfo
    rw [htree]
    exact mem_append_right _ hinfo
  have hsuffix : BlocksTile it.address pt.memoryBlockManager.endAddress (it :: after) :=
    ⟨rfl, by omega, hta⟩
  have halign : pageSize ∣ it.address :=
    aligned_of_tiles htiles hc.blocks.startAligned it (hinTree it mem_cons_self)
  rcases b.setupLoop_spec hsuffix halign (by omega) hend
      { impl := pt.impl, mappedSize := 0, blocksNeeded := 0 } with
    ⟨pre, rest, s', hl, htr, hp, hs', hrun⟩ | ⟨pre, bad, rest, s', hl, htr, hp, hs', hfail, hrun⟩
  · -- all blocks pass
    have hpre : ∀ info ∈ pre, info ∈ pt.memoryBlockManager.memoryBlockTree := fun info hinfo =>
      hinTree info (hl ▸ mem_append_left _ hinfo)
    refine inr ⟨it.address, s', pre, ⟨hp, hpre, hle, hs', htr.le⟩, ?_⟩
    have hbefore : (before.map b.cuts).sum = 0 := sum_cuts_eq_zero fun info hinfo => by
      have := (htb.mem hinfo).2.2
      omega
    have hrest : (rest.map b.cuts).sum = 0 := sum_cuts_eq_zero fun info hinfo => by
      have := (htr.mem hinfo).1
      omega
    have hsum : (pt.memoryBlockManager.memoryBlockTree.map b.cuts).sum = (pre.map b.cuts).sum := by
      rw [htree, hl, map_append, map_append, sum_append, sum_append, hbefore, hrest]
      omega
    simp only [KPageTableBase.setupBlocks, hfind, hrun, IpcBuffer.passed, hsum, zero_add]
  · -- the block `bad` does not pass
    have hmem : bad ∈ it :: after := by
      rw [hl]
      exact mem_append_right _ mem_cons_self
    have hpre : ∀ info ∈ pre, info ∈ pt.memoryBlockManager.memoryBlockTree := fun info hinfo =>
      hinTree info (hl ▸ mem_append_left _ hinfo)
    have hbad : bad.address = s' := htr.1
    refine inl ⟨⟨bad, hinTree bad hmem, by omega, ?_, hfail⟩, ?_⟩
    · rcases mem_cons.mp hmem with rfl | hmem
      · exact hlt
      · have := hta.mem hmem
        omega
    · simp only [KPageTableBase.setupBlocks, hfind, hrun, IpcBuffer.passed, zero_add,
        max_eq_left (show it.address ≤ b.mappingStart by omega)]
      split_ifs with hmapped
      · rw [hc.rollback hperm hcheck hp hpre (by omega) htr.le (by omega) (by omega)]
      · rw [IpcBuffer.reprotected_of_le hp (by omega)]

/-- `SetupForIpcClient` fails and leaves the client as it was, or it accepts the buffer and gives the
whole pages the permission of the lock. -/
theorem KPageTableBase.Consistent.setupForIpcClient (hc : pt.Consistent) (hperm : b.ValidPerm) :
    (¬pt.Accepts b ∧ ∃ e, KPageTableBase.setupForIpcClient b pt = (.error (.result e), pt)) ∨
    (pt.Accepts b ∧ ∃ check s s' pre, b.stateCheck = some check ∧ b.Covered pt check s s' pre ∧
      KPageTableBase.setupForIpcClient b pt =
        (.ok (pt.memoryBlockManager.memoryBlockTree.map b.cuts).sum,
          { pt with impl := b.reprotected pre pt.impl })) := by
  cases hin : pt.contains b.address b.size with
  | false =>
    refine inl ⟨?_, .invalidCurrentMemory, bind_of_error ?_⟩
    · rintro ⟨h, -⟩
      exact absurd (hin.symm.trans h) (by decide)
    · rw [reading, hin]
      rfl
  | true =>
    have hread : reading (fun pt : KPageTableBase =>
        if pt.contains b.address b.size then (.ok () : Except IpcError Unit)
        else .error (.result .invalidCurrentMemory)) pt = (.ok (), pt) := by
      rw [reading, hin]
      rfl
    cases hcheck : b.stateCheck with
    | none =>
      refine inl ⟨?_, .invalidCombination, ?_⟩
      · rintro ⟨-, check, h, -⟩
        exact absurd (hcheck.symm.trans h) (by simp)
      · rw [KPageTableBase.setupForIpcClient, bind_of_ok hread, hcheck]
        rfl
    | some check =>
      have hclient : KPageTableBase.setupForIpcClient b pt =
          KPageTableBase.setupBlocks b check pt := by
        rw [KPageTableBase.setupForIpcClient, bind_of_ok hread, hcheck]
      rw [hclient]
      rcases hc.setupBlocks hperm hin hcheck with
        ⟨⟨bad, hmem, h1, h2, hfail⟩, hrun⟩ | ⟨s, s', pre, hcov, hrun⟩
      · refine inl ⟨?_, .invalidCurrentMemory, hrun⟩
        rintro ⟨-, check', hcheck', hall⟩
        obtain rfl := some.inj (hcheck.symm.trans hcheck')
        exact absurd (hfail.symm.trans (hall bad hmem h1 h2)) (by simp)
      · refine inr ⟨⟨hin, check, hcheck, fun info hinfo h1 h2 => ?_⟩, check, s, s', pre, rfl,
          hcov, hrun⟩
        -- the first page that the block and the buffer have in common
        have hlt := (hc.blocks.tiles.mem hinfo).2.1
        have halign := aligned_of_tiles hc.blocks.tiles hc.blocks.startAligned info hinfo
        have hstart : pageSize ∣ b.alignedStart := dvd_alignDown _ _
        obtain ⟨page, hpage⟩ : ∃ page, page * pageSize = max info.address b.alignedStart := by
          rcases le_total info.address b.alignedStart with h | h
          · rw [max_eq_right h]
            exact ⟨_, Nat.div_mul_cancel hstart⟩
          · rw [max_eq_left h]
            exact ⟨_, Nat.div_mul_cancel halign⟩
        have hsize := (hc.contained hin).1
        obtain ⟨hx1, -, -, -, hx5, -⟩ := b.extents
        have hholds : info.HoldsPage page := ⟨by omega, by omega⟩
        exact hcov.checked info (hcov.mem_of_holds hc hinfo hholds (by omega) (by omega))

end Rollback

/-! ## Partial pages -/

namespace KMemoryManager

open KPageHeap

/-- The managers have the same references and the same free pages. -/
structure SamePages (mm mm' : KMemoryManager) : Prop where
  shape : SameShape mm mm'
  valid : Valid mm'
  refCount : ∀ i < mm.numManagers, ∀ q ∈ (mm.managers i).region,
    (mm'.managers i).refCount q = (mm.managers i).refCount q
  freePages : ∀ i < mm.numManagers, (mm'.managers i).heap.freePages = (mm.managers i).heap.freePages

section PartialPages

variable {mm mm' mm'' : KMemoryManager} {pool : Pool} {dir : Direction} {page q : Nat}

theorem SamePages.refl (hv : Valid mm) : SamePages mm mm :=
  ⟨SameShape.refl mm, hv, fun _ _ _ _ => rfl, fun _ _ => rfl⟩

theorem TakenPages.samePages {change : BitVec 16 → BitVec 16}
    (h : TakenPages mm mm' pool change ∅) : SamePages mm mm' := by
  refine ⟨h.shape, h.valid, fun i hi q hq => ?_, fun i hi => ?_⟩
  · rw [h.refCount i hi q hq, if_neg (Finset.notMem_empty q)]
  · rw [h.freePages i hi, Finset.sdiff_empty]

/-- `AllocateAndOpenContinuous(1, 1, option)` finds no page, or takes one. -/
theorem allocateAndOpenContinuous_one (hv : Valid mm)
    (hresult : mm.allocateAndOpenContinuous 1 1 pool dir = some (page, mm')) :
    (page = 0 ∧ SamePages mm mm') ∨
      ∃ q, page = q * pageSize ∧ page ≠ 0 ∧ TakenPages mm mm' pool (· + 1) {q} := by
  obtain ⟨htaken, q, hq⟩ := allocateAndOpenContinuous_taken hv Nat.one_ne_zero hresult
  have htaken := htaken.toTakenPages
  by_cases hzero : page = 0
  · rw [takenPages, if_pos hzero] at htaken
    exact inl ⟨hzero, htaken.samePages⟩
  · rw [takenPages, if_neg hzero, hq, mul_comm, Impl.rangePages_page,
      Nat.Ico_succ_singleton] at htaken
    exact inr ⟨q, hq.trans (mul_comm _ _), hzero, htaken⟩

theorem allocateAndOpenContinuous_one_ne_none :
    mm.allocateAndOpenContinuous 1 1 pool dir ≠ none := by
  have hindex : getAlignedBlockIndex 1 1 = some 0 := by decide
  rw [allocateAndOpenContinuous, if_neg Nat.one_ne_zero, hindex]
  cases hloop : mm.continuousLoop 0 1 1 (mm.poolManagers pool dir) with
  | mk block mm' =>
    cases block with
    | none => simp [hloop]
    | some block => simp [hloop]

/-- A page that was free, and has been taken and closed again, is free again. -/
theorem TakenPages.close (hv : Valid mm) (h : TakenPages mm mm' pool (· + 1) {q})
    (hsame : SamePages mm' mm'') : SamePages mm (mm''.close (q * pageSize) 1) := by
  have hone : Finset.Ico q (q + 1) = {q} := Nat.Ico_succ_singleton q
  obtain ⟨i₀, hi₀, -, hfree₀⟩ := h.source q (Finset.mem_singleton_self q)
  have hregion₀ := (hv.managers i₀ hi₀).freePages_subset hfree₀
  have hshape := h.shape.trans hsame.shape
  -- the page is free in its own manager, without references
  have hown : ∀ i < mm.numManagers, q ∈ (mm.managers i).region →
      q ∈ (mm.managers i).heap.freePages ∧ (mm.managers i).refCount q = 0 := by
    intro i hi hq
    obtain rfl := hv.layout.unique hi hi₀ hq hregion₀
    exact ⟨hfree₀, (hv.managers i hi).unreferenced q hfree₀⟩
  have hcount : ∀ i < mm.numManagers, ∀ p ∈ (mm.managers i).region, (mm''.managers i).refCount p =
      if p = q then 1 else (mm.managers i).refCount p := by
    intro i hi p hp
    rw [hsame.refCount i (h.shape.numManagers.symm ▸ hi) p ((h.shape.region i).symm ▸ hp),
      h.refCount i hi p hp]
    simp only [Finset.mem_singleton]
    split_ifs with hpq
    · rw [hpq, (hown i hi (hpq ▸ hp)).2]
      rfl
    · rfl
  have hmanaged : ∀ p ∈ Finset.Ico q (q + 1), Managed mm'' p := by
    intro p hp
    rw [hone, Finset.mem_singleton] at hp
    exact ⟨i₀, hshape.numManagers.symm ▸ hi₀, (hshape.region i₀).symm ▸ hp ▸ hregion₀⟩
  obtain ⟨hshape', hcounted⟩ := @close_spec mm'' q 1 hsame.valid hmanaged (fun i hi p hp hreg => by
    rw [hone, Finset.mem_singleton] at hp
    rw [hcount i (hshape.numManagers ▸ hi) p (hshape.region i ▸ hreg), if_pos hp]
    decide)
  refine ⟨hshape.trans hshape', hcounted.valid, fun i hi p hp => ?_, fun i hi => ?_⟩
  · rw [hcounted.refCount i (hshape.numManagers.symm ▸ hi) p ((hshape.region i).symm ▸ hp), hone,
      hcount i hi p hp]
    simp only [Finset.mem_singleton]
    split_ifs with hpq
    · rw [hpq, (hown i hi (hpq ▸ hp)).2]
      rfl
    · rfl
  · rw [hcounted.freePages i (hshape.numManagers.symm ▸ hi),
      hsame.freePages i (h.shape.numManagers.symm ▸ hi), h.freePages i hi, hone]
    ext p
    simp only [Finset.mem_union, Finset.mem_sdiff, Finset.mem_singleton, Finset.mem_filter,
      hshape.region i]
    constructor
    · rintro (⟨hp, -⟩ | ⟨rfl, hreg, -⟩)
      · exact hp
      · exact (hown i hi hreg).1
    · intro hp
      by_cases hpq : p = q
      · have hreg := (hv.managers i hi).freePages_subset hp
        refine inr ⟨hpq, hreg, ?_⟩
        rw [hcount i hi p hreg, if_pos hpq]
        decide
      · exact inl ⟨hp, hpq⟩

end PartialPages

end KMemoryManager

/-! ## The server -/

/-- The computation can fail only by reading outside of the memory. -/
def OnlyWild {α : Type} (x : Except IpcError α) : Prop := ∀ e, x = .error e → e = .wildPointer

theorem onlyWild_ok {α : Type} (a : α) : OnlyWild (.ok a) := fun _ h => by cases h

theorem OnlyWild.bind {α β : Type} {x : Except IpcError α} {f : α → Except IpcError β}
    (hx : OnlyWild x) (hf : ∀ a, OnlyWild (f a)) : OnlyWild (x >>= f) := by
  cases x with
  | error e => exact fun e' he => by cases he; exact hx e rfl
  | ok a => exact hf a

theorem OnlyWild.ite {α : Type} {p : Prop} [Decidable p] {x y : Except IpcError α} (hx : OnlyWild x)
    (hy : OnlyWild y) : OnlyWild (if p then x else y) := by
  split_ifs
  · exact hx
  · exact hy

section Server

variable (b : IpcBuffer) (env : IpcEnvironment)

theorem onlyWild_getHeapVirtualPointer (addr : Nat) : OnlyWild (getHeapVirtualPointer addr) := by
  rw [getHeapVirtualPointer]
  split_ifs
  · exact onlyWild_ok _
  · intro e he
    cases he
    rfl

namespace IpcBuffer

theorem onlyWild_mapBlock (virtAddr numPages physAddr : Nat) (s : OperateState) :
    OnlyWild (b.mapBlock env virtAddr numPages physAddr s) := onlyWild_ok _

theorem onlyWild_fillStartPage (page curBlockAddr : Nat) (memory : Nat → BitVec 8) :
    OnlyWild (b.fillStartPage env page curBlockAddr memory) :=
  OnlyWild.ite ((onlyWild_getHeapVirtualPointer _).bind fun _ => onlyWild_ok _) (onlyWild_ok _)

theorem onlyWild_fillEndPage (page curBlockAddr : Nat) (memory : Nat → BitVec 8) :
    OnlyWild (b.fillEndPage env page curBlockAddr memory) :=
  OnlyWild.ite ((onlyWild_getHeapVirtualPointer _).bind fun _ => onlyWild_ok _) (onlyWild_ok _)

theorem onlyWild_mapStartPage (client : PageTable) (page : Nat) (c : ServerCursor) :
    OnlyWild (b.mapStartPage env client page c) :=
  OnlyWild.ite (onlyWild_ok _) ((b.onlyWild_fillStartPage env _ _ _).bind fun _ =>
    (b.onlyWild_mapBlock env _ _ _ _).bind fun _ => onlyWild_ok _)

theorem onlyWild_mapPagesStep (client : PageTable) (c : ServerCursor) :
    OnlyWild (b.mapPagesStep env client c) :=
  OnlyWild.ite ((b.onlyWild_mapBlock env _ _ _ _).bind fun _ => onlyWild_ok _) (onlyWild_ok _)

theorem onlyWild_mapPagesLoop (client : PageTable) (fuel : Nat) (c : ServerCursor) :
    OnlyWild (b.mapPagesLoop env client fuel c) := by
  induction fuel generalizing c with
  | zero => exact onlyWild_ok _
  | succ fuel ih => exact OnlyWild.ite ((b.onlyWild_mapPagesStep env _ _).bind ih) (onlyWild_ok _)

theorem onlyWild_mapLastBlock (client : PageTable) (c : ServerCursor) :
    OnlyWild (b.mapLastBlock env client c) :=
  OnlyWild.ite ((b.onlyWild_mapBlock env _ _ _ _).bind fun _ => onlyWild_ok _) (onlyWild_ok _)

theorem onlyWild_mapEndPage (page : Nat) (c : ServerCursor) :
    OnlyWild (b.mapEndPage env page c) :=
  OnlyWild.ite (onlyWild_ok _) ((b.onlyWild_fillEndPage env _ _ _).bind fun _ =>
    b.onlyWild_mapBlock env _ _ _ _)

/-- Once `SetupForIpcServer` has its pages, nothing that it does to the page table can fail. -/
theorem onlyWild_mapBuffer (client : PageTable) (dstAddr startPage endPage : Nat)
    (s : OperateState) : OnlyWild (b.mapBuffer env client dstAddr startPage endPage s) :=
  (b.onlyWild_mapStartPage env _ _ _).bind fun _ => (b.onlyWild_mapPagesLoop env _ _ _).bind fun _ =>
    (b.onlyWild_mapLastBlock env _ _).bind fun _ => b.onlyWild_mapEndPage env _ _

end IpcBuffer

end Server

namespace IpcState

open KMemoryManager

variable {env : IpcEnvironment} {b : IpcBuffer} {s s' t : IpcState} {e : PageTableError}
  {dstAddr startPage endPage : Nat}

/-- Nothing that a failed set-up must leave alone has changed. -/
structure Unchanged (s s' : IpcState) : Prop where
  client : s'.client = s.client
  server : s'.server = s.server
  memory : SamePages s.memory s'.memory
  resourceLimit : s'.resourceLimit = s.resourceLimit

theorem Unchanged.refl (hv : Valid s.memory) : Unchanged s s :=
  ⟨rfl, rfl, SamePages.refl hv, rfl⟩

theorem mapInServer_error :
    mapInServer env b dstAddr startPage endPage s ≠ (.error (.result e), s') := by
  rw [mapInServer]
  cases hmap : b.mapBuffer env s.client.impl dstAddr startPage endPage
      ⟨s.server.impl, s.memory⟩ with
  | error e' =>
    obtain rfl := b.onlyWild_mapBuffer env _ _ _ _ _ e' hmap
    simp
  | ok state =>
    simp only
    split
    · simp
    · simp

theorem allocatePartialPage_error {needed : Bool} (hv : Valid s.memory)
    (h : allocatePartialPage env needed s = (.error (.result e), s')) :
    ∃ memory, SamePages s.memory memory ∧ s' = { s with memory := memory } := by
  cases needed with
  | false => cases h
  | true =>
    cases hpage : s.memory.allocateAndOpenContinuous 1 1 env.pool env.direction with
    | none => exact absurd hpage allocateAndOpenContinuous_one_ne_none
    | some result =>
      obtain ⟨page, memory⟩ := result
      simp only [allocatePartialPage, if_true, hpage, Prod.mk.injEq] at h
      rcases allocateAndOpenContinuous_one hv hpage with ⟨-, hsame⟩ | ⟨q, -, hne, -⟩
      · exact ⟨memory, hsame, h.2.symm⟩
      · rw [if_neg hne] at h
        cases h.1

theorem allocatePartialPage_ok {needed : Bool} {page : Nat} (hv : Valid s.memory)
    (h : allocatePartialPage env needed s = (.ok page, s')) : (page = 0 ∧ needed = false ∧ s' = s) ∨
      ∃ q memory, page = q * pageSize ∧ page ≠ 0 ∧ needed = true ∧
        s.memory.allocateAndOpenContinuous 1 1 env.pool env.direction = some (page, memory) ∧
        TakenPages s.memory memory env.pool (· + 1) {q} ∧ s' = { s with memory := memory } := by
  cases needed with
  | false =>
    cases h
    exact inl ⟨rfl, rfl, rfl⟩
  | true =>
    cases hpage : s.memory.allocateAndOpenContinuous 1 1 env.pool env.direction with
    | none => exact absurd hpage allocateAndOpenContinuous_one_ne_none
    | some result =>
      obtain ⟨found, memory⟩ := result
      simp only [allocatePartialPage, if_true, hpage, Prod.mk.injEq] at h
      rcases allocateAndOpenContinuous_one hv hpage with ⟨rfl, -⟩ | ⟨q, rfl, hne, htaken⟩
      · rw [if_pos rfl] at h
        cases h.1
      · rw [if_neg hne] at h
        obtain rfl := Except.ok.inj h.1
        exact inr ⟨q, memory, rfl, hne, rfl, rfl, htaken, h.2.symm⟩

/-- A failure of `SetupForIpcServer` once the memory is reserved: there is no page for one of the
ends of the buffer. -/
theorem setupWithPartialPages_error (hv : Valid s.memory)
    (h : setupWithPartialPages env b dstAddr s = (.error (.result e), s')) : Unchanged s s' := by
  rcases bind_eq_error.mp h with hstart | ⟨startPage, t, hstart, hrest⟩
  · obtain ⟨memory, hsame, rfl⟩ := allocatePartialPage_error hv hstart
    exact ⟨rfl, rfl, hsame, rfl⟩
  rcases bind_eq_error.mp hrest with hend | ⟨endPage, u, -, hmap⟩
  · obtain ⟨u, hfail, rfl⟩ := onFailure_eq_error.mp hend
    -- the page at the start, if there is one, is closed again
    rcases allocatePartialPage_ok hv hstart with
      ⟨rfl, -, rfl⟩ | ⟨q, memory, rfl, hne, -, -, htaken, rfl⟩
    · obtain ⟨memory, hsame, rfl⟩ := allocatePartialPage_error hv hfail
      exact ⟨rfl, rfl, hsame, rfl⟩
    · obtain ⟨memory', hsame, rfl⟩ := allocatePartialPage_error htaken.valid hfail
      rw [closePartialPage, if_pos hne]
      exact ⟨rfl, rfl, htaken.close hv hsame, rfl⟩
  · obtain ⟨u', hmap, -⟩ := Guarded.onExit_eq.mp hmap
    exact absurd hmap mapInServer_error

/-- A failure of `SetupForIpcServer` leaves everything as it was. -/
theorem setupForIpcServer_error (hv : Valid s.memory)
    (h : setupForIpcServer env b s = (.error (.result e), s')) : Unchanged s s' := by
  rcases bind_eq_error.mp h with harea | ⟨dstAddr, t, harea, h⟩
  · obtain ⟨-, rfl⟩ := reading_eq.mp harea
    exact Unchanged.refl hv
  obtain ⟨-, rfl⟩ := reading_eq.mp harea
  rcases bind_eq_error.mp h with hslab | ⟨_, t, hslab, h⟩
  · obtain ⟨-, -, rfl⟩ := require_eq_error.mp hslab
    exact Unchanged.refl hv
  obtain ⟨-, rfl⟩ := require_eq_ok.mp hslab
  rcases bind_eq_error.mp h with hlimit | ⟨limit, t, hlimit, h⟩
  · obtain ⟨-, rfl⟩ := reading_eq.mp hlimit
    exact Unchanged.refl hv
  obtain ⟨hreserve, rfl⟩ := reading_eq.mp hlimit
  have hlimit : s.resourceLimit.reserve b.unmappedSize = some limit := by
    cases hr : s.resourceLimit.reserve b.unmappedSize with
    | none =>
      rw [hr] at hreserve
      cases hreserve
    | some limit' =>
      rw [hr] at hreserve
      cases hreserve
      rfl
  rcases bind_eq_error.mp h with hset | ⟨_, t, hset, h⟩
  · cases hset
  obtain rfl := (Prod.mk.inj hset).2
  obtain ⟨u, hpages, rfl⟩ := onFailure_eq_error.mp h
  have hunchanged := @setupWithPartialPages_error env b { s with resourceLimit := limit } u e dstAddr
    hv hpages
  refine ⟨hunchanged.client, hunchanged.server, hunchanged.memory, ?_⟩
  show u.resourceLimit.release b.unmappedSize = s.resourceLimit
  rw [hunchanged.resourceLimit]
  exact KResourceLimit.release_of_reserve hlimit

/-- The pages of the client keep the permission of the lock: the buffer is accepted, the update
allocator of the client has not the blocks that it needs, and the permission of a whole page is
another one. -/
structure Strands (env : IpcEnvironment) (b : IpcBuffer) (s : IpcState) : Prop where
  accepted : s.client.Accepts b
  exhausted : env.clientSlabBlocks < (s.client.memoryBlockManager.memoryBlockTree.map b.cuts).sum
  visible : ∃ page, b.mappingStart ≤ page * pageSize ∧ page * pageSize < b.mappingEnd ∧
    s.client.impl.permission page ≠ convertToMemoryPermission b.srcPerm

theorem convert_of_masked {p : KMemoryPermission} (hperm : b.ValidPerm)
    (h : p &&& ipcLockChangeMask = b.srcPerm) :
    convertToMemoryPermission p = convertToMemoryPermission b.srcPerm := by
  have hkey : ∀ p : KMemoryPermission, (p &&& ipcLockChangeMask = kernelReadWrite ||| notMapped →
        convertToMemoryPermission p = convertToMemoryPermission
          (kernelReadWrite ||| notMapped)) ∧
      (p &&& ipcLockChangeMask = userRead →
        convertToMemoryPermission p = convertToMemoryPermission userRead) := by
    decide
  rw [IpcBuffer.srcPerm] at h ⊢
  rcases hperm with htest | htest
  · rw [htest, if_pos rfl] at h ⊢
    exact (hkey p).1 h
  · rw [htest, if_neg (by decide)] at h ⊢
    exact (hkey p).2 h

/-- The set-up of the client changes nothing exactly if all whole pages have the permission of the
lock already. -/
theorem reprotected_eq_iff {pt : KPageTableBase} {check : StateCheck} {lo hi : Nat}
    {pre : List KMemoryBlock} (hc : pt.Consistent) (hperm : b.ValidPerm)
    (hcheck : b.stateCheck = some check) (hcov : b.Covered pt check lo hi pre) :
    b.reprotected pre pt.impl = pt.impl ↔ ∀ page, b.mappingStart ≤ page * pageSize →
      page * pageSize < b.mappingEnd →
      pt.impl.permission page = convertToMemoryPermission b.srcPerm := by
  obtain ⟨h1, h2, -, h4, h5, -⟩ := b.extents
  have hstart := hcov.start_le
  have hend := hcov.le_end
  -- the block of a whole page
  have hblock : ∀ page, b.mappingStart ≤ page * pageSize → page * pageSize < b.mappingEnd →
      ∃ info ∈ pre, info.HoldsPage page ∧
        pt.impl.permission page = convertToMemoryPermission info.permission := by
    intro page hlo hhi
    obtain ⟨info, hinfo, -, hx, hy⟩ := hcov.tiles.exists_lookup
      (show lo ≤ page * pageSize by omega) (show page * pageSize < hi by omega)
    exact ⟨info, hinfo, ⟨hx, hy⟩, hc.permission info (hcov.mem info hinfo)
      (IpcBuffer.usable_of_checked hcheck (hcov.checked info hinfo)).1 page ⟨hx, hy⟩⟩
  constructor
  · intro heq page hlo hhi
    obtain ⟨info, hinfo, hholds, hpage⟩ := hblock page hlo hhi
    by_cases hmask : info.permission &&& ipcLockChangeMask = b.srcPerm
    · rw [hpage, convert_of_masked hperm hmask]
    · have hany : (pre.any fun info => decide (b.Reprotects info page)) = true :=
        any_eq_true.mpr ⟨info, hinfo, decide_eq_true ⟨hholds, ⟨hlo, hhi⟩, hmask⟩⟩
      have hat := congrArg (fun t => PageTable.permission t page) heq
      simp only [IpcBuffer.reprotected, hany, if_true] at hat
      exact hat.symm
  · intro hall
    have hperms : (b.reprotected pre pt.impl).permission = pt.impl.permission := by
      funext page
      simp only [IpcBuffer.reprotected]
      split_ifs with hany
      · obtain ⟨info, -, hrep⟩ := any_eq_true.mp hany
        obtain ⟨-, ⟨hlo, hhi⟩, -⟩ := of_decide_eq_true hrep
        exact (hall page hlo hhi).symm
      · rfl
    show { pt.impl with permission := (b.reprotected pre pt.impl).permission } = pt.impl
    rw [hperms]

/-- A client with four pages of memory that it can read and write. -/
def fourPages : KPageTableBase where
  impl := (PageTable.resized 16).mapMemoryRegion 0x8000 0x4000 dramBase
    (convertToMemoryPermission userReadWrite)
  memoryBlockManager :=
    { memoryBlockTree := [KMemoryBlock.initializeBlock 0x8000 4 KMemoryState.normal
        userReadWrite KMemoryAttribute.none]
      startAddress := 0x8000
      endAddress := 0xC000 }
  addressSpaceStart := 0x8000
  addressSpaceEnd := 0xC000

theorem fourPages_consistent : fourPages.Consistent := by
  refine ⟨⟨by decide, ⟨rfl, by decide, rfl⟩, .singleton _⟩, rfl, rfl, by decide, ?_, ?_⟩
  · intro b hb _ page hpage
    obtain rfl := mem_singleton.mp hb
    have hin : 0x8000 / pageSize ≤ page ∧ page < 0x8000 / pageSize + 0x4000 / pageSize := by
      have h1 : 0x8000 ≤ page * pageSize := hpage.1
      have h2 : page * pageSize < 0xC000 := hpage.2
      simp only [pageSize] at h1 h2 ⊢
      omega
    exact if_pos hin
  · intro b hb hlock
    obtain rfl := mem_singleton.mp hb
    exact absurd rfl hlock

/-- A server that shares the address space of the client, with a heap that is in use. -/
def fourPagesState : IpcState where
  client := fourPages
  server := fourPages
  memory := dramPages
  resourceLimit := ⟨0x10000, 0, 0⟩

/-- An environment whose slab managers have so many blocks left, without an alias region. -/
def scarceEnvironment (slabBlocks : Nat) : IpcEnvironment where
  isHeapPhysicalAddress := fun _ => true
  blockInfoManager := ⟨fun _ => true⟩
  clientSlabBlocks := slabBlocks
  serverSlabBlocks := slabBlocks
  areaSettings := ⟨false, fun _ => 0, 4⟩
  aliasRegionStart := 0x8000
  aliasRegionEnd := 0x8000
  pool := .application
  direction := .fromFront
  ipcFillValue := 0x59

/-- The second of the four pages, to be sent. -/
def secondPage : IpcBuffer := ⟨0x9000, 0x1000, userRead, KMemoryState.ipc, true⟩

end IpcState

end Sudachi.Kernel
