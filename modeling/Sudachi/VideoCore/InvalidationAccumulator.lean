import Sudachi.Common.Alignment
import Sudachi.Foundations.Runs

/-!
# The invalidation accumulator

`InvalidationAccumulator` of `invalidation_accumulator.h`: the ranges written through the cache
whose invalidation is put off until `FlushCaching`. `Add` rounds a range to units of 32 bytes, and
takes its new size before it rounds the start, so that the end moves down with the start. Where
there is room for that in the last unit, no byte is lost (`throughout_covered`).
-/

set_option autoImplicit false

namespace Sudachi.VideoCore

open Sudachi.Common Sudachi.Foundations Sudachi.Foundations.Runs List Nat

/-- A range is its address and its size. -/
abbrev ByteRange : Type := Nat × Nat

def ByteRange.Has (r : ByteRange) (b : Nat) : Prop := r.1 ≤ b ∧ b < r.1 + r.2

structure InvalidationAccumulator where
  startAddress : Nat
  lastCollection : Nat
  accumulatedSize : Nat
  hasCollected : Bool
  buffer : List ByteRange

namespace InvalidationAccumulator

def atomicitySize : Nat := 32

/-- `(value + atomicity_size_mask) & atomicity_mask`, on 64 bits. -/
def roundUp (value : Nat) : Nat :=
  alignDown ((value + (atomicitySize - 1)) % 2 ^ 64) atomicitySize

variable (s : InvalidationAccumulator)

/-- `reset_values` of `Add`. -/
def resetValues (address size : Nat) : InvalidationAccumulator :=
  { s with
    buffer :=
      if s.hasCollected then s.buffer ++ [(s.startAddress, s.accumulatedSize)] else s.buffer
    startAddress := address
    accumulatedSize := size
    lastCollection := (address + size) % 2 ^ 64 }

/-- The end of `Add`, for a range that goes on where the last one ends. -/
def goOn (size : Nat) : InvalidationAccumulator :=
  { s with
    accumulatedSize := (s.accumulatedSize + size) % 2 ^ 64
    lastCollection := (s.lastCollection + size) % 2 ^ 64 }

/-- `Add`. -/
def add (call : ByteRange) : InvalidationAccumulator :=
  let (address, size) := call
  if s.startAddress ≤ address ∧ (address + size) % 2 ^ 64 ≤ s.lastCollection then s
  else
    let size := (roundUp (address + size) + (2 ^ 64 - address)) % 2 ^ 64
    let address := alignDown address atomicitySize
    if !s.hasCollected then { s.resetValues address size with hasCollected := true }
    else if address ≠ s.lastCollection then s.resetValues address size
    else s.goOn size

/-- `Clear`. -/
def clear : InvalidationAccumulator :=
  { s with buffer := [], startAddress := 0, lastCollection := 0, hasCollected := false }

/-- `Callback`, with the ranges that it reports. -/
def callback : List ByteRange × InvalidationAccumulator :=
  if !s.hasCollected then ([], s)
  else
    let buffer := s.buffer ++ [(s.startAddress, s.accumulatedSize)]
    (buffer, { s with buffer := buffer })

/-- `FlushCaching`, with the ranges that it invalidates. -/
def flushCaching : List ByteRange × InvalidationAccumulator :=
  if !s.hasCollected then ([], s) else (s.callback.1, s.callback.2.clear)

/-! ## Runs -/

/-- An accumulator with the ranges added since it was cleared. -/
abbrev Traced : Type := InvalidationAccumulator × List ByteRange

def record (t : Traced) (call : ByteRange) : Traced := (t.1.add call, t.2 ++ [call])

/-- Every byte of every range that has been added is in a range that `Callback` reports. -/
def Covered (t : Traced) : Prop :=
  ∀ call ∈ t.2, ∀ b, call.Has b → ∃ r ∈ t.1.callback.1, r.Has b

/-- The calls that lose no byte: those within the range that is being collected, and those that
leave as much of their last unit as they take from their first. Addresses do not wrap. -/
def Fits (t : Traced) (call : ByteRange) : Prop :=
  call.1 + call.2 + (atomicitySize - 1) < 2 ^ 64 ∧
    (call.2 = 0 ∨ (t.1.startAddress ≤ call.1 ∧ call.1 + call.2 ≤ t.1.lastCollection) ∨
      call.1 % atomicitySize ≤ roundUp (call.1 + call.2) - (call.1 + call.2))

instance (t : Traced) (call : ByteRange) : Decidable (Fits t call) :=
  inferInstanceAs (Decidable (_ ∧ _))

/-- The end of the range that is being collected is kept apart from its size. -/
structure Invariant (t : Traced) : Prop where
  covered : Covered t
  collected : t.1.hasCollected = true → t.1.lastCollection = t.1.startAddress + t.1.accumulatedSize
  fresh : t.1.hasCollected = false → t.1.lastCollection = 0

variable {s} {t : Traced} {call : ByteRange} {b : Nat}

theorem le_roundUp {value : Nat} (h : value + (atomicitySize - 1) < 2 ^ 64) :
    value ≤ roundUp value ∧ roundUp value ≤ value + (atomicitySize - 1) := by
  rw [roundUp, alignDown, mod_eq_of_lt h, atomicitySize]
  omega

/-- The size that `Add` computes. -/
theorem roundedSize_eq (h : call.1 + call.2 + (atomicitySize - 1) < 2 ^ 64) :
    (roundUp (call.1 + call.2) + (2 ^ 64 - call.1)) % 2 ^ 64 =
      roundUp (call.1 + call.2) - call.1 := by
  obtain ⟨hle, hge⟩ := le_roundUp h
  have hsplit : roundUp (call.1 + call.2) + (2 ^ 64 - call.1) =
      roundUp (call.1 + call.2) - call.1 + 2 ^ 64 := by
    omega
  rw [hsplit, add_mod_right]
  exact mod_eq_of_lt (by omega)

/-- The range that `Add` collects for a call ends before the wrap, and has the bytes of the call
where these fit. -/
theorem rounded_spec (h : call.1 + call.2 + (atomicitySize - 1) < 2 ^ 64) :
    alignDown call.1 atomicitySize + (roundUp (call.1 + call.2) - call.1) < 2 ^ 64 ∧
      (call.1 % atomicitySize ≤ roundUp (call.1 + call.2) - (call.1 + call.2) →
        call.Has b → ByteRange.Has
          (alignDown call.1 atomicitySize, roundUp (call.1 + call.2) - call.1) b) := by
  obtain ⟨hle, hge⟩ := le_roundUp h
  have hmod := mod_le call.1 atomicitySize
  rw [alignDown]
  refine ⟨by omega, ?_⟩
  rintro hroom ⟨hb, hlt⟩
  constructor
  · exact (sub_le _ _).trans hb
  · show b < call.1 - call.1 % atomicitySize + (roundUp (call.1 + call.2) - call.1)
    omega

theorem mem_callback {r : ByteRange} (hs : s.hasCollected = true) :
    r ∈ s.callback.1 ↔ r ∈ s.buffer ∨ r = (s.startAddress, s.accumulatedSize) := by
  simp [callback, hs]

/-- What is reported already stays reported when a range is put behind it. -/
theorem mem_callback_resetValues {address size : Nat} {r : ByteRange} :
    r ∈ ({ s.resetValues address size with hasCollected := true } :
      InvalidationAccumulator).callback.1 ↔
      (s.hasCollected = false ∧ r ∈ s.buffer) ∨ r ∈ s.callback.1 ∨ r = (address, size) := by
  rw [mem_callback rfl]
  cases hs : s.hasCollected with
  | false => simp [resetValues, callback, hs]
  | true => simp [resetValues, callback, hs, or_assoc]

/-- A range put behind what is reported keeps the invariant, where it has the bytes of the call. -/
theorem Invariant.resetValues {address size : Nat} (ht : Invariant t)
    (hend : address + size < 2 ^ 64) (hcall : ∀ b, call.Has b → ByteRange.Has (address, size) b) :
    Invariant ({ t.1.resetValues address size with hasCollected := true }, t.2 ++ [call]) := by
  refine ⟨fun c hc b hb => ?_, fun _ => mod_eq_of_lt hend, fun h => nomatch h⟩
  rcases mem_append.mp hc with hold | hnew
  · obtain ⟨r, hr, hrb⟩ := ht.covered c hold b hb
    exact ⟨r, mem_callback_resetValues.mpr (.inr (.inl hr)), hrb⟩
  · obtain rfl := mem_singleton.mp hnew
    exact ⟨(address, size), mem_callback_resetValues.mpr (.inr (.inr rfl)), hcall b hb⟩

/-- A call whose bytes are reported changes nothing. -/
theorem Invariant.skip (ht : Invariant t)
    (hcall : ∀ b, call.Has b → ∃ r ∈ t.1.callback.1, r.Has b) : Invariant (t.1, t.2 ++ [call]) := by
  refine ⟨fun c hc b hb => ?_, ht.collected, ht.fresh⟩
  rcases mem_append.mp hc with hold | hnew
  · exact ht.covered c hold b hb
  · obtain rfl := mem_singleton.mp hnew
    exact hcall b hb

/-- A range that goes on where the last one ends makes the last one longer. -/
theorem Invariant.goOn {size : Nat} (ht : Invariant t) (hs : t.1.hasCollected = true)
    (hend : t.1.lastCollection + size < 2 ^ 64)
    (hcall : ∀ b, call.Has b → ByteRange.Has (t.1.lastCollection, size) b) :
    Invariant (t.1.goOn size, t.2 ++ [call]) := by
  have hlast := ht.collected hs
  have hsize : (t.1.goOn size).accumulatedSize = t.1.accumulatedSize + size :=
    mod_eq_of_lt (by omega)
  have hlonger : (t.1.goOn size).lastCollection = t.1.lastCollection + size := mod_eq_of_lt hend
  have hcallback {r : ByteRange} (hr : r ∈ t.1.buffer ∨
      r = (t.1.startAddress, t.1.accumulatedSize + size)) : r ∈ (t.1.goOn size).callback.1 := by
    rw [← hsize] at hr
    exact (mem_callback (s := t.1.goOn size) hs).mpr hr
  refine ⟨fun c hc b hb => ?_, fun _ => ?_, fun h => absurd hs (ne_true_of_eq_false h)⟩
  · rcases mem_append.mp hc with hold | hnew
    · obtain ⟨r, hr, hrb⟩ := ht.covered c hold b hb
      rcases (mem_callback hs).mp hr with hbuffer | rfl
      · exact ⟨r, hcallback (.inl hbuffer), hrb⟩
      · obtain ⟨hle, hlt⟩ := hrb
        exact ⟨_, hcallback (.inr rfl), hle,
          hlt.trans_le (Nat.add_le_add_left (le_add_right _ _) _)⟩
    · obtain rfl := mem_singleton.mp hnew
      obtain ⟨hle, hlt⟩ := hcall b hb
      rw [hlast] at hle hlt
      rw [add_assoc] at hlt
      exact ⟨_, hcallback (.inr rfl), (le_add_right _ _).trans hle, hlt⟩
  · show (t.1.goOn size).lastCollection = t.1.startAddress + (t.1.goOn size).accumulatedSize
    rw [hlonger, hsize, hlast, add_assoc]

/-- The bytes of the range that is being collected are reported. -/
theorem Invariant.reported (ht : Invariant t) (hle : t.1.startAddress ≤ b)
    (hlt : b < t.1.lastCollection) : ∃ r ∈ t.1.callback.1, r.Has b := by
  cases hs : t.1.hasCollected with
  | false => exact absurd (ht.fresh hs ▸ hlt) (Nat.not_lt_zero b)
  | true => exact ⟨_, (mem_callback hs).mpr (.inr rfl), hle, ht.collected hs ▸ hlt⟩

theorem Invariant.record (ht : Invariant t) (hfits : Fits t call) : Invariant (record t call) := by
  obtain ⟨hspace, hfits⟩ := hfits
  have hwrap : (call.1 + call.2) % 2 ^ 64 = call.1 + call.2 :=
    mod_eq_of_lt ((le_add_right _ _).trans_lt hspace)
  rw [InvalidationAccumulator.record, add, hwrap, roundedSize_eq hspace]
  by_cases hinside : t.1.startAddress ≤ call.1 ∧ call.1 + call.2 ≤ t.1.lastCollection
  · rw [if_pos hinside]
    exact ht.skip fun b hb => ht.reported (hinside.1.trans hb.1) (hb.2.trans_le hinside.2)
  · rw [if_neg hinside]
    -- the bytes of a call that is not skipped are those of its rounded range
    have hcall (b : Nat) (hb : call.Has b) : ByteRange.Has
        (alignDown call.1 atomicitySize, roundUp (call.1 + call.2) - call.1) b := by
      rcases hfits with hzero | hin | hroom
      · rw [ByteRange.Has, hzero] at hb
        exact absurd hb.2 (Nat.not_lt_of_le hb.1)
      · exact absurd hin hinside
      · exact (rounded_spec hspace).2 hroom hb
    have hend := (rounded_spec (b := 0) hspace).1
    by_cases hs : t.1.hasCollected = true
    · rw [if_neg (by simp [hs])]
      by_cases hnext : alignDown call.1 atomicitySize ≠ t.1.lastCollection
      · rw [if_pos hnext]
        have hreset := ht.resetValues hend hcall
        rwa [← hs] at hreset
      · rw [if_neg hnext]
        rw [not_not.mp hnext] at hend hcall
        exact ht.goOn hs hend hcall
    · rw [if_pos (by simp [hs])]
      exact ht.resetValues hend hcall

theorem invariant_clear (s : InvalidationAccumulator) : Invariant (s.clear, []) where
  covered _ hc := absurd hc not_mem_nil
  collected h := nomatch h
  fresh _ := rfl

/-- In every run since a `Clear` in which the calls fit, all bytes of the ranges added so far are in
the ranges that `Callback` reports. -/
theorem throughout_covered (s : InvalidationAccumulator) (calls : List ByteRange)
    (hfits : Along record Fits (s.clear, []) calls) :
    Throughout record Covered (s.clear, []) calls :=
  throughout_of_along (I := Invariant) (fun _ ht => ht.covered) (fun _ _ ht h => ht.record h)
    (invariant_clear s) hfits

def initial : InvalidationAccumulator := ⟨0, 0, 0, false, []⟩

theorem throughout_covered_aligned :
    Throughout record Covered (initial.clear, []) [(0x1000, 0x40), (0x1048, 8), (0x1040, 9)] :=
  throughout_covered initial [(0x1000, 0x40), (0x1048, 8), (0x1040, 9)] (by decide)

/-- The condition is sharp: the first call after a `Clear` that does not fit loses its last byte. -/
theorem covered_first_iff (s : InvalidationAccumulator)
    (hspace : call.1 + call.2 + (atomicitySize - 1) < 2 ^ 64) :
    Covered (record (s.clear, []) call) ↔ Fits (s.clear, []) call := by
  refine ⟨fun h => ⟨hspace, ?_⟩, fun h => ((invariant_clear s).record h).covered⟩
  by_contra hfits
  obtain ⟨hsize, hrest⟩ := not_or.mp hfits
  obtain ⟨houtside, -⟩ := not_or.mp hrest
  obtain ⟨hle, -⟩ := le_roundUp hspace
  have hmod := mod_le call.1 atomicitySize
  have hwrap : (call.1 + call.2) % 2 ^ 64 = call.1 + call.2 :=
    mod_eq_of_lt ((le_add_right _ _).trans_lt hspace)
  have hlast : call.Has (call.1 + call.2 - 1) := ⟨by omega, by omega⟩
  obtain ⟨r, hr, hrb⟩ := h call (mem_singleton.mpr rfl) _ hlast
  rw [record, add, hwrap, roundedSize_eq hspace, if_neg houtside] at hr
  obtain rfl : r = (alignDown call.1 atomicitySize, roundUp (call.1 + call.2) - call.1) := by
    simpa [clear, resetValues, callback] using hr
  have hlt := hrb.2
  simp only [alignDown] at hlt
  omega

/-- The bytes from 0x21 on of a write of 32 bytes at 0x1f are not reported. -/
theorem not_covered_unaligned :
    ¬Covered ([(0x1f, 0x20)].foldl record (initial.clear, [])) := by
  intro h
  obtain ⟨r, hr, hrb⟩ := h (0x1f, 0x20) (by decide) 0x3e ⟨by decide, by decide⟩
  obtain rfl : r = (0, 0x21) := mem_singleton.mp hr
  exact absurd hrb.2 (by decide)

end InvalidationAccumulator

end Sudachi.VideoCore
