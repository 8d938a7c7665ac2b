import Sudachi.Service.NvMap
import Mathlib.Data.List.Range
import Mathlib.Tactic

/-!
# The mappings of the handles

What the handles own in the address space of the device: ranges of their own, ranges of the low
area, and a share of the regions of the heap mappers, in which an address stays mapped as long as a
handle lies over it. `Mappings` says that the page tables agree with it, and each way in which nvmap
changes a page table keeps it where the range that an allocator gives is free.
-/

set_option autoImplicit false

namespace Sudachi.Service.Nvdrv

open Sudachi.Foundations Sudachi.Common NvMap List

/-! ## Counting over an array that changes in one place -/

theorem countP_range_update {α : Type} (p : α → Bool) (f : Nat → α) (x : α) {o n : Nat}
    (ho : o < n) :
    ((range n).countP fun i => p (Function.update f o x i)) + (if p (f o) then 1 else 0) =
      ((range n).countP fun i => p (f i)) + if p x then 1 else 0 := by
  induction n with
  | zero => omega
  | succ n ih =>
    rw [range_succ, countP_append, countP_append, countP_singleton, countP_singleton]
    by_cases hlast : o = n
    · subst hlast
      have hsame : ((range o).countP fun i => p (Function.update f o x i)) =
          (range o).countP fun i => p (f i) := by
        refine countP_congr fun i hi => ?_
        rw [Function.update_of_ne (ne_of_lt (mem_range.mp hi))]
      rw [hsame, Function.update_self]
      omega
    · rw [Function.update_of_ne (Ne.symm hlast)]
      have := ih (by omega)
      omega

/-! ## What a handle owns -/

/-- A device address in the range that the handle has got from the SMMU. -/
def Handle.OnDevice (h : Handle) (d : Nat) : Prop :=
  h.dAddress ≠ 0 ∧ h.inHeap = false ∧ h.dAddress ≤ d ∧ d < h.dAddress + h.alignedSize

/-- An address of the low area that is the handle's. -/
def Handle.InLow (h : Handle) (g : Nat) : Prop :=
  h.pinVirtAddress ≠ 0 ∧ h.pinVirtAddress ≤ g ∧ g < h.pinVirtAddress + h.alignedSize

/-- The handle lies over an address of the heap of a session. -/
def Handle.InHeapAt (h : Handle) (i va : Nat) : Bool :=
  h.inHeap && decide (h.sessionId = i) && decide (Covers h.address h.alignedSize va)

/-- What the device is to read at an address of the handle. -/
def Handle.entry (c : Sessions) (h : Handle) (x : Nat) : DeviceEntry :=
  ((h.address + x) % 2 ^ 64, (c.get h.sessionId).asid)

/-- The handle lies in the region of the heap mapper of its session, and it has the address there.
-/
def Handle.InArea (c : Sessions) (h : Handle) (a : Area) : Prop :=
  (c.get h.sessionId).area = some a ∧ a.vaddress ≤ h.address ∧
    h.address + h.alignedSize ≤ a.vaddress + a.size ∧ h.address + h.alignedSize < 2 ^ 64 ∧
    h.dAddress = a.daddress + (h.address - a.vaddress)

/-- A device address that no heap mapper uses. -/
def Sessions.Outside (c : Sessions) (d : Nat) : Prop :=
  ∀ i a, (c.get i).area = some a → ¬a.Holds d

/-- An address at which the device sees all of the handle. -/
def LiveAt (c : Sessions) (m : NvMap) (h : Handle) (address : Nat) : Prop :=
  address ≠ 0 ∧ ∀ x < h.alignedSize, m.device (address + x) = some (h.entry c x)

/-- An address of the low area at which the host sees all of the handle. -/
def LowLiveAt (c : Sessions) (m : NvMap) (h : Handle) (address : Nat) : Prop :=
  address ≠ 0 ∧ ∀ x < h.alignedSize,
    ∃ d, m.gmmu (address + x) = some d ∧ m.device d = some (h.entry c x)

/-- The page tables hold what the handles own. -/
structure Mappings (c : Sessions) (m : NvMap) : Prop where
  device : ∀ o d, (m.object o).OnDevice d →
    m.device d = some ((m.object o).entry c (d - (m.object o).dAddress)) ∧ c.Outside d
  apart : ∀ o o' d, (m.object o).OnDevice d → (m.object o').OnDevice d → o = o'
  low : ∀ o g, (m.object o).InLow g →
    m.gmmu g = some ((m.object o).dAddress + (g - (m.object o).pinVirtAddress))
  lowMapped : ∀ o, (m.object o).pinVirtAddress ≠ 0 → (m.object o).dAddress ≠ 0
  lowApart : ∀ o o' g, (m.object o).InLow g → (m.object o').InLow g → o = o'
  inArea : ∀ o, (m.object o).inHeap = true → ∃ a, (m.object o).InArea c a
  count : ∀ i va, m.heap i va = (List.range m.created).countP fun o => (m.object o).InHeapAt i va
  heap : ∀ i a va, (c.get i).area = some a → a.vaddress ≤ va → va < a.vaddress + a.size →
    0 < m.heap i va → m.device (a.daddress + (va - a.vaddress)) = some (va, (c.get i).asid)
  blank : ∀ o, m.created ≤ o → m.object o = Handle.blank

variable {c : Sessions} {m m' : NvMap} {o o' d g i va : Nat} {h : Handle} {a : Area}

theorem Handle.inHeapAt_iff : h.InHeapAt i va = true ↔
      h.inHeap = true ∧ h.sessionId = i ∧ Covers h.address h.alignedSize va := by
  simp [Handle.InHeapAt, and_assoc]

theorem Handle.placed_inHeapAt {address : Nat} :
    Handle.InHeapAt { h with dAddress := address, inHeap := true } i va = true ↔
      i = h.sessionId ∧ Covers h.address h.alignedSize va := by
  rw [Handle.inHeapAt_iff]
  exact ⟨fun hat => ⟨hat.2.1.symm, hat.2.2⟩, fun hat => ⟨rfl, hat.1.symm, hat.2⟩⟩

theorem Handle.covers_iff (hwrap : h.address + h.alignedSize < 2 ^ 64) :
    Covers h.address h.alignedSize va ↔ h.address ≤ va ∧ va < h.address + h.alignedSize := by
  rw [Covers, Nat.mod_eq_of_lt hwrap]

theorem initial_mappings (c : Sessions) : Mappings c initial where
  device _ _ hd := absurd rfl hd.1
  apart _ _ _ hd := absurd rfl hd.1
  low _ _ hg := absurd rfl hg.1
  lowMapped _ ho := absurd rfl ho
  lowApart _ _ _ hg := absurd rfl hg.1
  inArea _ ho := absurd ho Bool.false_ne_true
  count _ _ := rfl
  heap _ _ _ _ _ _ hpos := absurd hpos (lt_irrefl 0)
  blank _ _ := rfl

namespace Mappings

theorem lt_created (hm : Mappings c m) (ho : m.object o ≠ Handle.blank) : o < m.created := by
  by_contra hle
  exact ho (hm.blank o (by omega))

theorem dAddress_ne_zero (hm : Mappings c m) (ho : (m.object o).inHeap = true) :
    (m.object o).dAddress ≠ 0 := by
  obtain ⟨a, harea, _, _, _, hd⟩ := hm.inArea o ho
  have := c.positive _ a harea
  omega

/-- A handle that is mapped is so at its address. -/
theorem liveAt (hm : Mappings c m) (hd : (m.object o).dAddress ≠ 0) :
    LiveAt c m (m.object o) (m.object o).dAddress := by
  refine ⟨hd, fun x hx => ?_⟩
  cases hheap : (m.object o).inHeap with
  | false =>
    have hon : (m.object o).OnDevice ((m.object o).dAddress + x) := ⟨hd, hheap, by omega, by omega⟩
    have hentry := (hm.device o _ hon).1
    rwa [Nat.add_sub_cancel_left] at hentry
  | true =>
    obtain ⟨a, harea, hlow, hhigh, hwrap, haddr⟩ := hm.inArea o hheap
    have hlt := hm.lt_created (o := o) fun hb => by rw [hb] at hd; exact hd rfl
    have hcovers : (m.object o).InHeapAt (m.object o).sessionId ((m.object o).address + x) :=
      Handle.inHeapAt_iff.mpr ⟨hheap, rfl, (Handle.covers_iff hwrap).mpr (by omega)⟩
    have hpos : 0 < m.heap (m.object o).sessionId ((m.object o).address + x) := by
      rw [hm.count]
      exact countP_pos_iff.mpr ⟨o, mem_range.mpr hlt, hcovers⟩
    have hdevice := hm.heap _ a _ harea (by omega) (by omega) hpos
    have hplace : (m.object o).dAddress + x =
        a.daddress + ((m.object o).address + x - a.vaddress) := by omega
    rw [hplace, hdevice, Handle.entry, Nat.mod_eq_of_lt (by omega)]

theorem lowLiveAt (hm : Mappings c m) (hlow : (m.object o).pinVirtAddress ≠ 0) :
    LowLiveAt c m (m.object o) (m.object o).pinVirtAddress := by
  refine ⟨hlow, fun x hx => ⟨(m.object o).dAddress + x, ?_, ?_⟩⟩
  · have hgmmu := hm.low o ((m.object o).pinVirtAddress + x) ⟨hlow, by omega, by omega⟩
    rwa [Nat.add_sub_cancel_left] at hgmmu
  · exact (hm.liveAt (hm.lowMapped o hlow)).2 x hx

/-- A handle changes, and the page tables with it: its own part is right afterwards, nothing of
another handle has changed, and the counts of the heaps differ by this handle. -/
theorem update (hm : Mappings c m) (hobject : m'.object = Function.update m.object o h)
    (hcreated : m'.created = m.created) (ho : o < m.created)
    (hdevice : ∀ d, h.OnDevice d → m'.device d = some (h.entry c (d - h.dAddress)) ∧ c.Outside d)
    (hothers : ∀ o' d, o' ≠ o → (m.object o').OnDevice d → m'.device d = m.device d ∧ ¬h.OnDevice d)
    (hlow : ∀ g, h.InLow g → m'.gmmu g = some (h.dAddress + (g - h.pinVirtAddress)))
    (hlowMapped : h.pinVirtAddress ≠ 0 → h.dAddress ≠ 0)
    (hlowOthers : ∀ o' g, o' ≠ o → (m.object o').InLow g → m'.gmmu g = m.gmmu g ∧ ¬h.InLow g)
    (harea : h.inHeap = true → ∃ a, h.InArea c a)
    (hcount : ∀ i va, m'.heap i va + (if (m.object o).InHeapAt i va then 1 else 0) =
      m.heap i va + if h.InHeapAt i va then 1 else 0)
    (hheap : ∀ i a va, (c.get i).area = some a → a.vaddress ≤ va → va < a.vaddress + a.size →
      0 < m'.heap i va → m'.device (a.daddress + (va - a.vaddress)) = some (va, (c.get i).asid)) :
    Mappings c m' := by
  have hself : m'.object o = h := by rw [hobject, Function.update_self]
  have hother (o') (hne : o' ≠ o) : m'.object o' = m.object o' := by
    rw [hobject, Function.update_of_ne hne]
  refine ⟨fun o' d hd => ?_, fun o₁ o₂ d h₁ h₂ => ?_, fun o' g hg => ?_, fun o' hlow' => ?_,
    fun o₁ o₂ g h₁ h₂ => ?_, fun o' hin => ?_, fun i va => ?_, hheap, fun o' ho' => ?_⟩
  · by_cases hne : o' = o
    · subst hne
      rw [hself] at hd ⊢
      exact hdevice d hd
    · rw [hother o' hne] at hd ⊢
      rw [(hothers o' d hne hd).1]
      exact hm.device o' d hd
  · by_cases hne₁ : o₁ = o
    · by_cases hne₂ : o₂ = o
      · rw [hne₁, hne₂]
      · rw [hne₁, hself] at h₁
        rw [hother o₂ hne₂] at h₂
        exact absurd h₁ (hothers o₂ d hne₂ h₂).2
    · rw [hother o₁ hne₁] at h₁
      by_cases hne₂ : o₂ = o
      · rw [hne₂, hself] at h₂
        exact absurd h₂ (hothers o₁ d hne₁ h₁).2
      · rw [hother o₂ hne₂] at h₂
        exact hm.apart o₁ o₂ d h₁ h₂
  · by_cases hne : o' = o
    · subst hne
      rw [hself] at hg ⊢
      exact hlow g hg
    · rw [hother o' hne] at hg ⊢
      rw [(hlowOthers o' g hne hg).1]
      exact hm.low o' g hg
  · by_cases hne : o' = o
    · subst hne
      rw [hself] at hlow' ⊢
      exact hlowMapped hlow'
    · rw [hother o' hne] at hlow' ⊢
      exact hm.lowMapped o' hlow'
  · by_cases hne₁ : o₁ = o
    · by_cases hne₂ : o₂ = o
      · rw [hne₁, hne₂]
      · rw [hne₁, hself] at h₁
        rw [hother o₂ hne₂] at h₂
        exact absurd h₁ (hlowOthers o₂ g hne₂ h₂).2
    · rw [hother o₁ hne₁] at h₁
      by_cases hne₂ : o₂ = o
      · rw [hne₂, hself] at h₂
        exact absurd h₂ (hlowOthers o₁ g hne₁ h₁).2
      · rw [hother o₂ hne₂] at h₂
        exact hm.lowApart o₁ o₂ g h₁ h₂
  · by_cases hne : o' = o
    · subst hne
      rw [hself] at hin ⊢
      exact harea hin
    · rw [hother o' hne] at hin ⊢
      exact hm.inArea o' hin
  · have hsum := countP_range_update (fun h => h.InHeapAt i va) m.object h ho
    have := hcount i va
    rw [hm.count i va] at this
    rw [hcreated, hobject]
    omega
  · rw [hcreated] at ho'
    rw [hother o' (by omega)]
    exact hm.blank o' ho'

end Mappings

/-! ## A handle changes and its mappings do not -/

/-- Two states of a handle that own the same. -/
structure Handle.SameExtent (h h' : Handle) : Prop where
  dAddress : h.dAddress = h'.dAddress
  alignedSize : h.alignedSize = h'.alignedSize
  address : h.address = h'.address
  inHeap : h.inHeap = h'.inHeap
  sessionId : h.sessionId = h'.sessionId
  pinVirtAddress : h.pinVirtAddress = h'.pinVirtAddress

/-- A handle that is mapped nowhere. -/
structure Handle.Unmapped (h : Handle) : Prop where
  dAddress : h.dAddress = 0
  inHeap : h.inHeap = false
  pinVirtAddress : h.pinVirtAddress = 0

section Extent

variable {h' : Handle}

section

variable (hs : h.SameExtent h')
include hs

theorem Handle.SameExtent.onDevice_iff : h.OnDevice d ↔ h'.OnDevice d := by
  rw [Handle.OnDevice, Handle.OnDevice, hs.dAddress, hs.alignedSize, hs.inHeap]

theorem Handle.SameExtent.inLow_iff : h.InLow g ↔ h'.InLow g := by
  rw [Handle.InLow, Handle.InLow, hs.pinVirtAddress, hs.alignedSize]

theorem Handle.SameExtent.inHeapAt_eq : h.InHeapAt i va = h'.InHeapAt i va := by
  rw [Handle.InHeapAt, Handle.InHeapAt, hs.inHeap, hs.sessionId, hs.address, hs.alignedSize]

theorem Handle.SameExtent.entry_eq (x : Nat) : h.entry c x = h'.entry c x := by
  rw [Handle.entry, Handle.entry, hs.address, hs.sessionId]

theorem Handle.SameExtent.inArea_iff : h.InArea c a ↔ h'.InArea c a := by
  rw [Handle.InArea, Handle.InArea, hs.sessionId, hs.address, hs.alignedSize, hs.dAddress]

end

theorem Handle.Unmapped.not_inHeapAt (hu : h.Unmapped) : h.InHeapAt i va = false := by
  rw [Handle.InHeapAt, hu.inHeap, Bool.false_and, Bool.false_and]

end Extent

namespace Mappings

section

variable (hm : Mappings c m)
include hm

theorem of_sameExtent (hobject : m'.object = Function.update m.object o h)
    (hcreated : m'.created = m.created) (ho : o < m.created) (hdevice : m'.device = m.device)
    (hgmmu : m'.gmmu = m.gmmu) (hheap : m'.heap = m.heap) (hs : h.SameExtent (m.object o)) :
    Mappings c m' := by
  refine hm.update hobject hcreated ho (fun d hd => ?_) (fun o' d hne hd => ?_) (fun g hg => ?_)
    (fun hlow => ?_) (fun o' g hne hg => ?_) (fun hin => ?_) (fun i va => ?_)
    (fun i a va ha hle hlt hpos => ?_)
  · rw [hdevice, hs.entry_eq, hs.dAddress]
    exact hm.device o d (hs.onDevice_iff.mp hd)
  · exact ⟨by rw [hdevice], fun h' => hne (hm.apart o' o d hd (hs.onDevice_iff.mp h'))⟩
  · rw [hgmmu, hs.dAddress, hs.pinVirtAddress]
    exact hm.low o g (hs.inLow_iff.mp hg)
  · rw [hs.dAddress]
    exact hm.lowMapped o (hs.pinVirtAddress ▸ hlow)
  · exact ⟨by rw [hgmmu], fun h' => hne (hm.lowApart o' o g hg (hs.inLow_iff.mp h'))⟩
  · obtain ⟨a, ha⟩ := hm.inArea o (hs.inHeap ▸ hin)
    exact ⟨a, hs.inArea_iff.mpr ha⟩
  · rw [hheap, hs.inHeapAt_eq]
  · rw [hdevice]
    exact hm.heap i a va ha hle hlt (by rwa [hheap] at hpos)

theorem unmapped (hd : (m.object o).dAddress = 0) : (m.object o).Unmapped := by
  refine ⟨hd, ?_, ?_⟩
  · cases hheap : (m.object o).inHeap with
    | false => rfl
    | true => exact absurd hd (hm.dAddress_ne_zero hheap)
  · by_contra hlow
    exact hm.lowMapped o hlow hd

theorem of_unmapped (hobject : m'.object = Function.update m.object o h)
    (hcreated : m'.created = m.created) (ho : o < m.created) (hdevice : m'.device = m.device)
    (hgmmu : m'.gmmu = m.gmmu) (hheap : m'.heap = m.heap) (hold : (m.object o).dAddress = 0)
    (hu : h.Unmapped) : Mappings c m' := by
  refine hm.update hobject hcreated ho (fun d hd => absurd hu.dAddress hd.1)
    (fun o' d _ _ => ⟨by rw [hdevice], fun h' => h'.1 hu.dAddress⟩)
    (fun g hg => absurd hu.pinVirtAddress hg.1) (fun hlow => absurd hu.pinVirtAddress hlow)
    (fun o' g _ _ => ⟨by rw [hgmmu], fun h' => h'.1 hu.pinVirtAddress⟩)
    (fun hin => absurd hu.inHeap (by rw [hin]; exact Bool.true_eq_false_eq_False))
    (fun i va => ?_) (fun i a va ha hle hlt hpos => ?_)
  · rw [hheap, hu.not_inHeapAt, (hm.unmapped hold).not_inHeapAt]
  · rw [hdevice]
    exact hm.heap i a va ha hle hlt (by rwa [hheap] at hpos)

/-- The memory of one more handle. -/
theorem grow : Mappings c { m with created := m.created + 1 } :=
  { hm with
    count := fun i va => by
      rw [range_succ, countP_append, countP_singleton, hm.blank _ (le_refl _), hm.count i va]
      rfl
    blank := fun o ho => hm.blank o (Nat.le_of_succ_le ho) }

/-! ## The SMMU -/

/-- A new range of the device, of which nothing is in use. -/
theorem mapDevice {address : Nat} (ho : o < m.created) (hd : (m.object o).dAddress = 0)
    (hfree : ∀ x < (m.object o).alignedSize,
      m.device (address + x) = none ∧ c.Outside (address + x)) :
    Mappings c ((m.mapDevice address (m.object o).address (m.object o).alignedSize
      (c.get (m.object o).sessionId).asid).setObject o
        { m.object o with dAddress := address, inHeap := false }) := by
  have hu := hm.unmapped hd
  have hfree' (d) (hle : address ≤ d) (hlt : d < address + (m.object o).alignedSize) :
      m.device d = none ∧ c.Outside d := by
    have := hfree (d - address) (by omega)
    rwa [Nat.add_sub_cancel' hle] at this
  refine hm.update rfl rfl ho (fun d hon => ?_) (fun o' d _ hon => ?_)
    (fun g hg => absurd hu.pinVirtAddress hg.1) (fun hlow => absurd hu.pinVirtAddress hlow)
    (fun o' g _ _ => ⟨rfl, fun h' => h'.1 hu.pinVirtAddress⟩)
    (fun hin => absurd hin Bool.false_ne_true) (fun i va => ?_)
    (fun i a va ha hle hlt hpos => ?_)
  · obtain ⟨_, _, hle, hlt⟩ := hon
    exact ⟨if_pos ⟨hle, hlt⟩, (hfree' d hle hlt).2⟩
  · have hentry := (hm.device o' d hon).1
    have hout : ¬(address ≤ d ∧ d < address + (m.object o).alignedSize) := by
      intro hin
      rw [(hfree' d hin.1 hin.2).1] at hentry
      exact absurd hentry (by simp)
    exact ⟨if_neg hout, fun h' => hout ⟨h'.2.2.1, h'.2.2.2⟩⟩
  · rw [hu.not_inHeapAt]
    rfl
  · have hout : ¬(address ≤ a.daddress + (va - a.vaddress) ∧
        a.daddress + (va - a.vaddress) < address + (m.object o).alignedSize) := by
      intro hin
      exact (hfree' _ hin.1 hin.2).2 i a ha ⟨by omega, by omega⟩
    exact (if_neg hout).trans (hm.heap i a va ha hle hlt hpos)

/-- The handle gives its range of the device up. -/
theorem unmapDevice (ho : o < m.created) (hheap : (m.object o).inHeap = false)
    (hd : (m.object o).dAddress ≠ 0) (hlow : (m.object o).pinVirtAddress = 0) :
    Mappings c ((m.unmapDevice (m.object o).dAddress (m.object o).alignedSize).setObject o
      { m.object o with dAddress := 0 }) := by
  have hon (d) (hin : (m.object o).dAddress ≤ d ∧
      d < (m.object o).dAddress + (m.object o).alignedSize) : (m.object o).OnDevice d :=
    ⟨hd, hheap, hin⟩
  refine hm.update rfl rfl ho (fun d h' => absurd rfl h'.1) (fun o' d hne h' => ?_)
    (fun g hg => absurd hlow hg.1) (fun h' => absurd hlow h')
    (fun o' g _ _ => ⟨rfl, fun h' => h'.1 hlow⟩)
    (fun hin => absurd hin (by rw [hheap]; exact Bool.false_ne_true)) (fun i va => rfl)
    (fun i a va ha hle hlt hpos => ?_)
  · refine ⟨if_neg fun hin => hne (hm.apart o' o d h' (hon d hin)), fun h' => h'.1 rfl⟩
  · have hout : ¬((m.object o).dAddress ≤ a.daddress + (va - a.vaddress) ∧
        a.daddress + (va - a.vaddress) < (m.object o).dAddress + (m.object o).alignedSize) := by
      intro hin
      exact (hm.device o _ (hon _ hin)).2 i a ha ⟨by omega, by omega⟩
    exact (if_neg hout).trans (hm.heap i a va ha hle hlt hpos)

end

/-! ## The heap mappers -/

/-- The handle is in the region, and so is what a heap mapper changes for it. -/
theorem holds_of_covers (hend : h.address + h.alignedSize ≤ a.vaddress + a.size)
    (hwrap : h.address + h.alignedSize < 2 ^ 64) (hle : a.daddress ≤ d)
    (hcov : Covers h.address h.alignedSize (a.vaddress + (d - a.daddress))) : a.Holds d := by
  have := ((Handle.covers_iff hwrap).mp hcov).2
  exact ⟨hle, by omega⟩

/-- An address in the region of a session is not in that of another one. -/
theorem not_holds_of_ne {b : Area} {j : Nat} (hj : j ≠ i) (ha : (c.get i).area = some a)
    (hb : (c.get j).area = some b) (hle : b.vaddress ≤ va) (hlt : va < b.vaddress + b.size) :
    ¬a.Holds (b.daddress + (va - b.vaddress)) := fun hholds =>
  hj (c.apart j i b a _ hb ha ⟨by omega, by omega⟩ hholds)

section

variable (hm : Mappings c m) (ho : o < m.created)
include hm ho

/-- A place in the region of a heap mapper, which other handles may share. -/
theorem mapHeap (hd : (m.object o).dAddress = 0)
    (harea : (c.get (m.object o).sessionId).area = some a)
    (hin : a.isInBounds (m.object o).address (m.object o).alignedSize)
    (hwrap : (m.object o).address + (m.object o).alignedSize < 2 ^ 64) :
    Mappings c ((m.mapHeap c (m.object o).sessionId a (m.object o).address
      (m.object o).alignedSize).setObject o { m.object o with
          dAddress := a.daddress + ((m.object o).address - a.vaddress), inHeap := true }) := by
  have hu := hm.unmapped hd
  obtain ⟨hstart, hend⟩ := hin
  rw [Nat.mod_eq_of_lt hwrap] at hend
  refine hm.update rfl rfl ho (fun d hon => absurd hon.2.1 Bool.true_eq_false_eq_False)
    (fun o' d _ hon => ⟨if_neg fun hcond => ?_, fun h' => Bool.true_eq_false_eq_False h'.2.1⟩)
    (fun g hg => absurd hu.pinVirtAddress hg.1) (fun hlow => absurd hu.pinVirtAddress hlow)
    (fun o' g _ _ => ⟨rfl, fun h' => h'.1 hu.pinVirtAddress⟩)
    (fun _ => ⟨a, harea, hstart, hend, hwrap, rfl⟩) (fun i va => ?_)
    (fun i b va hb hle hlt hpos => ?_)
  · exact (hm.device o' d hon).2 _ a harea (holds_of_covers hend hwrap hcond.1 hcond.2.1)
  · rw [hu.not_inHeapAt, if_neg Bool.false_ne_true, add_zero]
    by_cases hcov : i = (m.object o).sessionId ∧
        Covers (m.object o).address (m.object o).alignedSize va
    · exact (if_pos hcov).trans
        (congrArg (m.heap i va + ·) (if_pos (Handle.placed_inHeapAt.mpr hcov))).symm
    · refine (if_neg hcov).trans ((add_zero _).symm.trans ?_)
      exact (congrArg (m.heap i va + ·) (if_neg (mt Handle.placed_inHeapAt.mp hcov))).symm
  · by_cases hi : i = (m.object o).sessionId
    · subst hi
      obtain rfl : b = a := Option.some.inj (hb.symm.trans harea)
      have hplace : b.vaddress + (b.daddress + (va - b.vaddress) - b.daddress) = va := by omega
      by_cases hnew : Covers (m.object o).address (m.object o).alignedSize va ∧
          m.heap (m.object o).sessionId va = 0
      · refine (if_pos ⟨Nat.le_add_right _ _, ?_⟩).trans (by rw [hplace])
        rwa [hplace]
      · have hold : 0 < m.heap (m.object o).sessionId va := by
          by_contra hzero
          have hnot : ¬Covers (m.object o).address (m.object o).alignedSize va :=
            fun hcov => hnew ⟨hcov, by omega⟩
          exact hzero (lt_of_lt_of_eq hpos (if_neg fun hcond => hnot hcond.2))
        refine (if_neg fun hcond => hnew ?_).trans (hm.heap _ b va hb hle hlt hold)
        have hcov := hcond.2
        rwa [hplace] at hcov
    · have hout := not_holds_of_ne hi harea hb hle hlt
      have hold : 0 < m.heap i va := lt_of_lt_of_eq hpos (if_neg fun hcond => hi hcond.1)
      exact (if_neg fun hcond => hout (holds_of_covers hend hwrap hcond.1 hcond.2.1)).trans
        (hm.heap i b va hb hle hlt hold)

/-- The handle gives its place in the region up; what another handle lies over stays mapped. -/
theorem unmapHeap (hin : (m.object o).inHeap = true)
    (harea : (m.object o).InArea c a) (hlow : (m.object o).pinVirtAddress = 0) :
    Mappings c ((m.unmapHeap (m.object o).sessionId a (m.object o).address
      (m.object o).alignedSize).setObject o
        { m.object o with dAddress := 0, inHeap := false }) := by
  obtain ⟨hsession, hstart, hend, hwrap, _⟩ := harea
  refine hm.update rfl rfl ho (fun d hon => absurd rfl hon.1)
    (fun o' d _ hon => ⟨if_neg fun hcond => ?_, fun h' => h'.1 rfl⟩)
    (fun g hg => absurd hlow hg.1) (fun h' => absurd hlow h')
    (fun o' g _ _ => ⟨rfl, fun h' => h'.1 hlow⟩)
    (fun h' => absurd h' Bool.false_ne_true) (fun i va => ?_)
    (fun i b va hb hle hlt hpos => ?_)
  · exact (hm.device o' d hon).2 _ a hsession (holds_of_covers hend hwrap hcond.1 hcond.2.1)
  · have hnew : Handle.InHeapAt { m.object o with dAddress := 0, inHeap := false } i va = false :=
      rfl
    rw [hnew, if_neg Bool.false_ne_true, add_zero]
    by_cases hcov : i = (m.object o).sessionId ∧
        Covers (m.object o).address (m.object o).alignedSize va
    · have hat : (m.object o).InHeapAt i va = true :=
        Handle.inHeapAt_iff.mpr ⟨hin, hcov.1.symm, hcov.2⟩
      have hpos : 0 < m.heap i va := by
        rw [hm.count]
        exact countP_pos_iff.mpr ⟨o, mem_range.mpr ho, hat⟩
      rw [if_pos hat]
      exact (congrArg (· + 1) (if_pos hcov)).trans (Nat.sub_add_cancel hpos)
    · rw [if_neg fun hat => hcov (by
        obtain ⟨_, hi, hva⟩ := Handle.inHeapAt_iff.mp hat
        exact ⟨hi.symm, hva⟩), add_zero]
      exact if_neg hcov
  · have hold : 0 < m.heap i va ∧ ¬(i = (m.object o).sessionId ∧
        Covers (m.object o).address (m.object o).alignedSize va ∧
          m.heap (m.object o).sessionId va = 1) := by
      by_cases hcov : i = (m.object o).sessionId ∧
          Covers (m.object o).address (m.object o).alignedSize va
      · have hpos' : 0 < m.heap i va - 1 := lt_of_lt_of_eq hpos (if_pos hcov)
        exact ⟨by omega, fun hcond => by rw [hcond.1, hcond.2.2] at hpos'; omega⟩
      · exact ⟨lt_of_lt_of_eq hpos (if_neg hcov), fun hcond => hcov ⟨hcond.1, hcond.2.1⟩⟩
    refine (if_neg fun hcond => ?_).trans (hm.heap i b va hb hle hlt hold.1)
    by_cases hi : i = (m.object o).sessionId
    · obtain rfl : b = a := Option.some.inj (hb.symm.trans (hi ▸ hsession))
      have hplace : b.vaddress + (b.daddress + (va - b.vaddress) - b.daddress) = va := by omega
      have hcov := hcond.2
      rw [hplace] at hcov
      exact hold.2 ⟨hi, hcov⟩
    · exact not_holds_of_ne hi hsession hb hle hlt (holds_of_covers hend hwrap hcond.1 hcond.2.1)

/-! ## The low area -/

theorem mapLowArea {answer : Nat} (hd : (m.object o).dAddress ≠ 0)
    (hfree : (m.object o).pinVirtAddress = 0 →
      ∀ x < (m.object o).alignedSize, m.gmmu (answer + x) = none) :
    Mappings c (m.mapLowArea o answer) := by
  rw [NvMap.mapLowArea]
  split
  next hzero =>
    have hfree' (g) (hle : answer ≤ g) (hlt : g < answer + (m.object o).alignedSize) :
        m.gmmu g = none := by
      have := hfree hzero (g - answer) (by omega)
      rwa [Nat.add_sub_cancel' hle] at this
    refine hm.update rfl rfl ho (fun d hon => hm.device o d hon)
      (fun o' d hne hon => ⟨rfl, fun h' => hne (hm.apart o' o d hon h')⟩)
      (fun g hg => if_pos ⟨hg.2.1, hg.2.2⟩) (fun _ => hd) (fun o' g _ hg => ?_)
      (fun hin => hm.inArea o hin) (fun i va => rfl) (fun i a va ha hle hlt hpos =>
        hm.heap i a va ha hle hlt hpos)
    have hentry := hm.low o' g hg
    have hout : ¬(answer ≤ g ∧ g < answer + (m.object o).alignedSize) := by
      intro hin
      rw [hfree' g hin.1 hin.2] at hentry
      exact absurd hentry (by simp)
    exact ⟨if_neg hout, fun h' => hout h'.2⟩
  next => exact hm

theorem unmapLowArea : Mappings c (m.unmapLowArea o) := by
  rw [NvMap.unmapLowArea]
  split
  next hlow =>
    refine hm.update rfl rfl ho (fun d hon => hm.device o d hon)
      (fun o' d hne hon => ⟨rfl, fun h' => hne (hm.apart o' o d hon h')⟩)
      (fun g hg => absurd rfl hg.1) (fun h' => absurd rfl h') (fun o' g hne hg => ?_)
      (fun hin => hm.inArea o hin) (fun i va => rfl) (fun i a va ha hle hlt hpos =>
        hm.heap i a va ha hle hlt hpos)
    exact ⟨if_neg fun hin => hne (hm.lowApart o' o g hg ⟨hlow, hin⟩), fun h' => h'.1 rfl⟩
  next => exact hm

end

end Mappings

end Sudachi.Service.Nvdrv
