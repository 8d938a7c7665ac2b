import Sudachi.VideoCore.GpuMemoryBlocks
import Sudachi.Foundations.StraightRuns

/-!
# Range queries of the GPU

Five queries about the pages of a range. Where no address has an entry in both tables,
`IsContinuousRange`, `MaxContinuousRange` and `GetSubmappedRange` are right for every range.
`IsFullyMappedRange` lets small pages pass that are only reserved, and `IsGranularRange` measures a
continuous big page from the index of the page where it means the offset in it.
`queriesRight_iff` says which ranges are answered rightly.
-/

set_option autoImplicit false

namespace Sudachi.VideoCore.GpuMemoryManager

open Sudachi.Foundations Sudachi.Foundations.EarlyExit Sudachi.Foundations.StraightRuns Sudachi.Core Nat
open DeviceMemory (pageSize)
open GpuHistory (defaultLayout)

/-- `old_page_addr` and `result` of `IsContinuousRange`. -/
structure ContinuousCheck where
  oldPageAddr : Option Nat
  result : Bool

/-- `IsContinuousRange`. -/
def isContinuousRange (L : GpuLayout) (m : GpuMemoryManager) (gpuAddr size : Nat) : Bool :=
  let fail : Callback ContinuousCheck := fun _ _ _ s => ({ s with result := false }, true)
  let check (isBigPage : Bool) : Callback ContinuousCheck := fun pageIndex offset copyAmount s =>
    let devAddrBase := (m.pageTable isBigPage pageIndex).toNat <<< cpuPageBits + offset
    if s.oldPageAddr.isSome ∧ s.oldPageAddr ≠ some devAddrBase then
      ({ s with result := false }, true)
    else ({ s with oldPageAddr := some (devAddrBase + copyAmount) }, false)
  let checkShortPages : Callback ContinuousCheck := fun pageIndex offset copyAmount s =>
    let base := pageIndex <<< L.bits true + offset
    let s := memoryOperation L m false (check false) fail fail base copyAmount s
    (s, !s.result)
  (memoryOperation L m true (check true) fail checkShortPages gpuAddr size ⟨none, true⟩).result

/-- `old_page_addr`, `range_so_far` and `result` of `MaxContinuousRange`. -/
structure MaxContinuous where
  oldPageAddr : Option Nat
  rangeSoFar : Nat
  result : Bool

/-- `MaxContinuousRange`. The check of a big page does not set `result`,
    where that of a small page does. -/
def maxContinuousRange (L : GpuLayout) (m : GpuMemoryManager) (gpuAddr size : Nat) : Nat :=
  let fail : Callback MaxContinuous := fun _ _ _ s => ({ s with result := true }, true)
  let shortCheck : Callback MaxContinuous := fun pageIndex offset copyAmount s =>
    let devAddrBase := (m.pageTable false pageIndex).toNat <<< cpuPageBits + offset
    if s.oldPageAddr.isSome ∧ s.oldPageAddr ≠ some devAddrBase then
      ({ s with result := true }, true)
    else ({ s with
      rangeSoFar := s.rangeSoFar + copyAmount
      oldPageAddr := some (devAddrBase + copyAmount) }, false)
  let bigCheck : Callback MaxContinuous := fun pageIndex offset copyAmount s =>
    let devAddrBase := (m.pageTable true pageIndex).toNat <<< cpuPageBits + offset
    if s.oldPageAddr.isSome ∧ s.oldPageAddr ≠ some devAddrBase then (s, true)
    else ({ s with
      rangeSoFar := s.rangeSoFar + copyAmount
      oldPageAddr := some (devAddrBase + copyAmount) }, false)
  let checkShortPages : Callback MaxContinuous := fun pageIndex offset copyAmount s =>
    let base := pageIndex <<< L.bits true + offset
    let s := memoryOperation L m false shortCheck fail fail base copyAmount s
    (s, s.result)
  (memoryOperation L m true bigCheck fail checkShortPages gpuAddr size ⟨none, 0, false⟩).rangeSoFar

/-- `IsFullyMappedRange`. -/
def isFullyMappedRange (L : GpuLayout) (m : GpuMemoryManager) (gpuAddr size : Nat) : Bool :=
  let fail : Callback Bool := fun _ _ _ _ => (false, true)
  let pass : Callback Bool := fun _ _ _ result => (result, false)
  let checkShortPages : Callback Bool := fun pageIndex offset copyAmount result =>
    let base := pageIndex <<< L.bits true + offset
    let result := memoryOperation L m false pass pass fail base copyAmount result
    (result, !result)
  memoryOperation L m true pass fail checkShortPages gpuAddr size true

/-- `GetSubmappedRange`, with the GPU addresses of the segments. -/
def getSubmappedRange (L : GpuLayout) (m : GpuMemoryManager) (gpuAddr size : Nat) :
    List (Nat × Nat) :=
  let split : Callback Collector := fun _ _ _ s => (s.split, false)
  let extendSizeBig : Callback Collector := fun pageIndex offset copyAmount s =>
    let devAddrBase := (m.pageTable true pageIndex).toNat <<< cpuPageBits + offset
    let newBaseAddr := pageIndex <<< L.bits true + offset
    (s.extend newBaseAddr devAddrBase copyAmount, false)
  let extendSizeShort : Callback Collector := fun pageIndex offset copyAmount s =>
    let devAddrBase := (m.pageTable false pageIndex).toNat <<< cpuPageBits + offset
    let newBaseAddr := pageIndex <<< L.bits false + offset
    (s.extend newBaseAddr devAddrBase copyAmount, false)
  let doShortPages : Callback Collector := fun pageIndex offset copyAmount s =>
    let base := pageIndex <<< L.bits true + offset
    (memoryOperation L m false extendSizeShort split split base copyAmount s, false)
  (memoryOperation L m true extendSizeBig split doShortPages gpuAddr size
    ⟨none, none, []⟩).split.done

/-- `IsGranularRange`. -/
def isGranularRange (L : GpuLayout) (m : GpuMemoryManager) (gpuAddr size : Nat) : Bool :=
  if m.getEntry L true gpuAddr = .mapped then
    let pageIndex := gpuAddr >>> L.bits true
    if m.isBigPageContinuous pageIndex then
      let page := (pageIndex &&& (L.size true - 1)) + size
      page ≤ L.size true
    else
      let page := (gpuAddr &&& (pageSize - 1)) + size
      page ≤ pageSize
  else if m.getEntry L false gpuAddr ≠ .mapped then false
  else
    let page := (gpuAddr &&& (pageSize - 1)) + size
    page ≤ pageSize

/-- `GetPointer`. -/
def getPointer (L : GpuLayout) (m : GpuMemoryManager) (memory : DeviceMemoryManager) (gpuAddr :
    Nat) :
    Option Nat :=
  (m.gpuToCpuAddress L gpuAddr).bind memory.getPointer

/-! ## What the queries are to answer -/

variable {L : GpuLayout} {m : GpuMemoryManager} {memory : DeviceMemoryManager}
  {a address size i : Nat} {p : Piece} {ps : List Piece}

/-- No address has an entry other than `free` in both tables. -/
def NoDouble (L : GpuLayout) (m : GpuMemoryManager) : Prop :=
  ∀ a, m.getEntry L true a ≠ .free → m.getEntry L false a = .free

/-- The answers of the five queries about a range. -/
structure QueriesRight (L : GpuLayout) (m : GpuMemoryManager) (memory : DeviceMemoryManager)
    (address size : Nat) : Prop where
  continuous : m.isContinuousRange L address size = true ↔
    StraightFrom (m.gpuToCpuAddress L) none address size
  fullyMapped : m.isFullyMappedRange L address size = true ↔
    ∀ i < size, m.gpuToCpuAddress L (address + i) ≠ none
  maxContinuous : LongestPrefix (m.gpuToCpuAddress L) none address size
    (m.maxContinuousRange L address size)
  submapped : MaximalRuns (m.gpuToCpuAddress L) address size (m.getSubmappedRange L address size)
  granular : m.isGranularRange L address size = true → ∃ ptr,
    m.getPointer L memory address = some ptr ∧
      ∀ i < size, m.getPointer L memory (address + i) = some (ptr + i)

/-- A range with a small page that is reserved has another page that is not mapped. For a range that
begins in a continuous big page and looks short enough, the bytes behind that page follow it on the
host. For one that begins in another mapped page and ends in the same page of the device, that page
has memory. -/
structure QueriesSound (L : GpuLayout) (m : GpuMemoryManager) (memory : DeviceMemoryManager)
    (address size : Nat) : Prop where
  fullyMapped : (∃ i < size, m.walkEntry L (address + i) = (false, .reserved)) →
    ∃ i < size, m.walkEntry L (address + i) = (true, .reserved) ∨
      m.walkEntry L (address + i) = (false, .free)
  beyond : m.getEntry L true address = .mapped →
    m.isBigPageContinuous (address >>> L.bits true) = true →
    (address >>> L.bits true) % L.size true + size ≤ L.size true →
    ∀ i < size, L.size true ≤ address % L.size true + i →
      m.getPointer L memory (address + i) = (m.getPointer L memory address).map (· + i)
  memory : (m.getEntry L true address = .mapped ∧
      m.isBigPageContinuous (address >>> L.bits true) = false ∨
      m.getEntry L true address ≠ .mapped ∧ m.getEntry L false address = .mapped) →
    address % pageSize + size ≤ pageSize →
    m.getPointer L memory address ≠ none

variable {t t' : Nat → Option Nat} {big : Bool}

/-- Without double entries, the walk sees what a lookup finds. -/
theorem NoDouble.seen_eq (h : NoDouble L m) (ha : a < L.addressSpaceSize) :
    m.seen L a = m.gpuToCpuAddress L a := by
  rw [gpuToCpuAddress_eq ha, seen, walkEntry]
  cases hbig : m.getEntry L true a with
  | free => rfl
  | reserved =>
    rw [h a (by rw [hbig]; decide)]
    rfl
  | mapped => rfl

theorem straightFrom_congr {start : Option Nat} {n : Nat}
    (h : ∀ i < n, t (a + i) = t' (a + i)) : StraightFrom t start a n ↔
        StraightFrom t' start a n := by
  refine exists_congr fun base => and_congr_right fun _ => forall_congr' fun i => ?_
  exact forall_congr' fun hi => by rw [h i hi]

/-! ## The queries by pieces -/

/-- The bytes of a mapped piece are straight. -/
theorem Piece.Covers.straight (h : p.Covers L m a) (hmapped : p.entry m = .mapped) :
    ∀ i < p.amount, m.seen L (a + i) = some (p.devAddrBase m + i) := by
  intro i hi
  rw [h.seen hi, place, if_pos hmapped]
  rfl

theorem Piece.Covers.hole (h : p.Covers L m a) (hmapped : p.entry m ≠ .mapped) :
    ∀ i < p.amount, m.seen L (a + i) = none := by
  intro i hi
  rw [h.seen hi, place, if_neg hmapped]
  rfl

/-- A walk that fails at the pages that are not mapped, and checks the others. -/
theorem runUntil_check {step : Piece → ContinuousCheck → ContinuousCheck × Bool}
    (hfail : ∀ p s, p.entry m ≠ .mapped → step p s = ({ s with result := false }, true))
    (hcheck : ∀ p s, p.entry m = .mapped → step p s =
      if s.oldPageAddr.isSome ∧ s.oldPageAddr ≠ some (p.devAddrBase m) then
        ({ s with result := false }, true)
      else ({ s with oldPageAddr := some (p.devAddrBase m + p.amount) }, false))
    (htiles : Tiles L m a size ps) (old : Option Nat) :
    (runUntil step ps ⟨old, true⟩).1.result = true ↔ StraightFrom (m.seen L) old a size := by
  induction ps generalizing a size old with
  | nil =>
    obtain rfl : size = 0 := htiles
    exact iff_of_true rfl (straightFrom_zero old a)
  | cons p ps ih =>
    obtain ⟨hcovers, hle, hrest⟩ := htiles
    have hpos := hcovers.pos
    rw [runUntil]
    by_cases hmapped : p.entry m = .mapped
    case neg =>
      rw [hfail p _ hmapped, if_pos rfl]
      exact iff_of_false Bool.false_ne_true
        (not_straightFrom (by omega) (hcovers.hole hmapped 0 hpos))
    case pos =>
      rw [straightFrom_split hpos hle (hcovers.straight hmapped), hcheck p _ hmapped]
      by_cases hjump : old.isSome ∧ old ≠ some (p.devAddrBase m)
      · rw [if_pos hjump, if_pos rfl]
        refine iff_of_false Bool.false_ne_true fun h => ?_
        obtain ⟨o, ho⟩ := Option.isSome_iff_exists.mp hjump.1
        exact hjump.2 (ho.trans (congrArg some (h.1 o ho)))
      · rw [if_neg hjump, if_neg Bool.false_ne_true, ih hrest]
        refine (and_iff_right fun o ho => ?_).symm
        by_contra hne
        exact hjump ⟨by rw [ho]; rfl, fun heq => hne (Option.some.inj (ho.symm.trans heq))⟩

/-- The callback for a piece that is not mapped, and for one that is. -/
theorem pieceStep_eq {σ : Type} {bigMapped smallMapped hole : Callback σ} {s : σ} :
    pieceStep m bigMapped hole smallMapped hole hole p s =
      if p.entry m = .mapped then
        (if p.big then bigMapped else smallMapped) p.pageIndex p.offset p.amount s
      else hole p.pageIndex p.offset p.amount s := by
  rw [pieceStep, dispatch]
  cases p.entry m <;> cases p.big <;> rfl

theorem isContinuousRange_iff :
    m.isContinuousRange L address size = true ↔ StraightFrom (m.seen L) none address size := by
  rw [isContinuousRange]
  refine (iff_of_eq (congrArg (fun s => ContinuousCheck.result s = true)
    (memoryOperation_pieces (fun s => !s.result) (fun i o n s hs hstop => ?_) (fun i o n s _ h =>
        ?_)
      (fun i o n s hs => ?_) (fun _ _ _ s _ => ?_) (fun _ _ _ s _ => ?_) ?_))).trans ?_
  · dsimp only at hstop ⊢
    split at hstop
    · cases hstop
    · rw [if_neg ‹_›]
      exact hs
  · cases h
  · dsimp only
    split
    · rfl
    · exact hs.symm
  · rfl
  · rfl
  · rfl
  · refine runUntil_check (fun p s hhole => ?_) (fun p s hmapped => ?_) (pieces_tile L m address
      size)
      none
    · rw [pieceStep_eq, if_neg hhole]
    · rw [pieceStep_eq, if_pos hmapped]
      obtain ⟨big, pageIndex, offset, amount⟩ := p
      cases big <;> rfl

/-- A walk that counts the bytes up to the first page that does not go on. -/
theorem runUntil_count {step : Piece → MaxContinuous → MaxContinuous × Bool}
    (hfail : ∀ p s, p.entry m ≠ .mapped →
      (step p s).2 = true ∧ (step p s).1.rangeSoFar = s.rangeSoFar)
    (hjump : ∀ p s, p.entry m = .mapped →
      s.oldPageAddr.isSome ∧ s.oldPageAddr ≠ some (p.devAddrBase m) →
      (step p s).2 = true ∧ (step p s).1.rangeSoFar = s.rangeSoFar)
    (hnext : ∀ p s, p.entry m = .mapped →
      ¬(s.oldPageAddr.isSome ∧ s.oldPageAddr ≠ some (p.devAddrBase m)) → step p s = ({ s with
        rangeSoFar := s.rangeSoFar + p.amount
        oldPageAddr := some (p.devAddrBase m + p.amount) }, false))
    (htiles : Tiles L m a size ps) (s : MaxContinuous) :
    ∃ k, (runUntil step ps s).1.rangeSoFar = s.rangeSoFar + k ∧
      LongestPrefix (m.seen L) s.oldPageAddr a size k := by
  induction ps generalizing a size s with
  | nil =>
    obtain rfl : size = 0 := htiles
    exact ⟨0, rfl, longestPrefix_zero fun n hpos hle => absurd hpos (by omega)⟩
  | cons p ps ih =>
    obtain ⟨hcovers, hle, hrest⟩ := htiles
    have hpos := hcovers.pos
    rw [runUntil]
    by_cases hmapped : p.entry m = .mapped
    case neg =>
      obtain ⟨hstop, hrange⟩ := hfail p s hmapped
      rw [if_pos hstop]
      refine ⟨0, hrange, longestPrefix_zero fun n hn _ => ?_⟩
      exact not_straightFrom hn (hcovers.hole hmapped 0 hpos)
    case pos =>
      by_cases hbreaks : s.oldPageAddr.isSome ∧ s.oldPageAddr ≠ some (p.devAddrBase m)
      · obtain ⟨hstop, hrange⟩ := hjump p s hmapped hbreaks
        rw [if_pos hstop]
        refine ⟨0, hrange, longestPrefix_zero fun n hn _ => ?_⟩
        rintro ⟨base, hstart, hstraight⟩
        obtain ⟨o, ho⟩ := Option.isSome_iff_exists.mp hbreaks.1
        have hfirst := hstraight 0 hn
        rw [hcovers.straight hmapped 0 hpos, Option.some.injEq] at hfirst
        exact hbreaks.2 (ho.trans (congrArg some ((hstart o ho).trans hfirst.symm)))
      · rw [hnext p s hmapped hbreaks, if_neg Bool.false_ne_true]
        obtain ⟨k, hrange, hlongest⟩ := ih hrest { s with
          rangeSoFar := s.rangeSoFar + p.amount
          oldPageAddr := some (p.devAddrBase m + p.amount) }
        refine ⟨p.amount + k, by rw [hrange, add_assoc], ?_⟩
        refine hlongest.extend hpos hle (hcovers.straight hmapped) fun o ho => ?_
        by_contra hne
        exact hbreaks ⟨by rw [ho]; rfl, fun heq => hne (Option.some.inj (ho.symm.trans heq))⟩

theorem maxContinuousRange_spec :
    LongestPrefix (m.seen L) none address size (m.maxContinuousRange L address size) := by
  rw [maxContinuousRange]
  refine (congrArg (fun s => LongestPrefix (m.seen L) none address size s.rangeSoFar)
    (memoryOperation_pieces (fun s : MaxContinuous => s.result) (fun i o n s hs hstop => ?_)
      (fun i o n s _ h => ?_) (fun i o n s hs => ?_) (fun _ _ _ s _ => ?_) (fun _ _ _ s _ => ?_)
      ?_)).mpr ?_
  · dsimp only at hstop ⊢
    split at hstop
    · cases hstop
    · rw [if_neg ‹_›]
      exact hs
  · cases h
  · dsimp only
    split
    · rfl
    · exact hs.symm
  · rfl
  · rfl
  · rfl
  · refine Exists.elim (runUntil_count (m := m) (fun p s hhole => ?_)
      (fun p s hmapped hbreaks => ?_) (fun p s hmapped hgoes => ?_) (pieces_tile L m address size)
      ⟨none, 0, false⟩) fun k hk => by
        rw [hk.1, zero_add]
        exact hk.2
    · rw [pieceStep_eq, if_neg hhole]
      exact ⟨rfl, rfl⟩
    · rw [pieceStep_eq, if_pos hmapped]
      obtain ⟨big, pageIndex, offset, amount⟩ := p
      cases big with
      | false => exact (congrArg (fun r : MaxContinuous × Bool => r.2 = true ∧ r.1.rangeSoFar = _)
          (if_pos hbreaks)).mpr ⟨rfl, rfl⟩
      | true => exact (congrArg (fun r : MaxContinuous × Bool => r.2 = true ∧ r.1.rangeSoFar = _)
          (if_pos hbreaks)).mpr ⟨rfl, rfl⟩
    · rw [pieceStep_eq, if_pos hmapped]
      obtain ⟨big, pageIndex, offset, amount⟩ := p
      cases big <;> exact if_neg hgoes

/-- A walk that stops at the first page that does not pass. -/
theorem runUntil_pass {step : Piece → Bool → Bool × Bool} {passes : Bool × EntryType → Bool}
    (hstep : ∀ p, step p true = if passes (p.big, p.entry m) then (true, false) else (false, true))
    (htiles : Tiles L m a size ps) :
    (runUntil step ps true).1 = true ↔ ∀ i < size, passes (m.walkEntry L (a + i)) = true := by
  induction ps generalizing a size with
  | nil =>
    obtain rfl : size = 0 := htiles
    exact iff_of_true rfl fun i hi => absurd hi (Nat.not_lt_zero i)
  | cons p ps ih =>
    obtain ⟨hcovers, hle, hrest⟩ := htiles
    have hpos := hcovers.pos
    have hfound := hcovers.found
    rw [runUntil, hstep]
    by_cases hpass : passes (p.big, p.entry m) = true
    · rw [if_pos hpass, if_neg Bool.false_ne_true, ih hrest]
      constructor
      · intro h i hi
        rcases lt_or_ge i p.amount with hlt | hge
        · rw [hfound i hlt]
          exact hpass
        · have hlater := h (i - p.amount) (by omega)
          rwa [add_assoc, Nat.add_sub_cancel' hge] at hlater
      · intro h i hi
        rw [add_assoc]
        exact h _ (by omega)
    · rw [if_neg hpass, if_pos rfl]
      refine iff_of_false Bool.false_ne_true fun h => hpass ?_
      rw [← hfound 0 hpos]
      exact h 0 (by omega)

/-- The pages that `IsFullyMappedRange` lets pass. -/
def fullyPasses : Bool × EntryType → Bool
  | (true, e) => e = .mapped
  | (false, e) => e ≠ .free

theorem isFullyMappedRange_iff : m.isFullyMappedRange L address size = true ↔
    ∀ i < size, fullyPasses (m.walkEntry L (address + i)) = true := by
  rw [isFullyMappedRange]
  refine (iff_of_eq (congrArg (· = true) (memoryOperation_pieces (fun result => !result)
    (fun i o n s hs _ => hs) (fun i o n s _ h => ?_) (fun _ _ _ s hs => hs.symm)
      (fun _ _ _ s hs => hs.symm) (fun _ _ _ s _ => rfl) ?_))).trans ?_
  · cases h
  · rfl
  · refine runUntil_pass (fun p => ?_) (pieces_tile L m address size)
    rw [pieceStep, dispatch]
    cases p.entry m <;> cases p.big <;> rfl

theorem getSubmappedRange_spec :
    MaximalRuns (m.seen L) address size (m.getSubmappedRange L address size) := by
  have hsteps : ∀ ps a size s, Tiles L m a size ps →
      ps.foldl (fun s p => if p.entry m = .mapped then
        s.extend (p.pageIndex <<< L.bits p.big + p.offset) (p.devAddrBase m) p.amount else s.split)
            s =
      (List.range' a size).foldl (Collector.take (m.seen L)) s := by
    intro ps
    induction ps with
    | nil =>
      intro a size s htiles
      obtain rfl : size = 0 := htiles
      rfl
    | cons p ps ih =>
      intro a size s htiles
      obtain ⟨hcovers, hle, hrest⟩ := htiles
      have hsum : size = p.amount + (size - p.amount) := by omega
      have haddress : p.pageIndex <<< L.bits p.big + p.offset = a := by
        rw [hcovers.address, shiftLeft_eq]
        rfl
      rw [List.foldl_cons, ih _ _ _ hrest, hsum, ← List.range'_append_1, List.foldl_append,
        Nat.add_sub_cancel_left]
      by_cases hmapped : p.entry m = .mapped
      · rw [if_pos hmapped, haddress,
          Collector.foldl_take_straight hcovers.pos (hcovers.straight hmapped)]
      · rw [if_neg hmapped, Collector.foldl_take_none hcovers.pos (hcovers.hole hmapped)]
  have hcollect := Collector.maximalRuns_collect (m.seen L) address size
  rw [← hsteps _ _ _ _ (pieces_tile L m address size)] at hcollect
  rw [getSubmappedRange]
  refine (congrArg (fun s => MaximalRuns (m.seen L) address size (Collector.split s).done)
    (memoryOperation_pieces (fun _ => false) (fun _ _ _ _ _ _ => rfl) (fun _ _ _ _ _ _ => rfl)
      (fun _ _ _ _ _ => rfl) (fun _ _ _ _ _ => rfl) (fun _ _ _ _ _ => rfl) rfl)).mpr ?_
  rw [runUntil_congr (k := fun p s => (if p.entry m = .mapped then
      s.extend (p.pageIndex <<< L.bits p.big + p.offset) (p.devAddrBase m) p.amount else s.split,
      false)) fun p _ s => ?_, runUntil_never]
  · exact hcollect
  · rw [pieceStep_eq]
    obtain ⟨big, pageIndex, offset, amount⟩ := p
    split
    · cases big <;> rfl
    · rfl

/-! ## The answers that are right -/

theorem longestPrefix_congr {k : Nat} (h : ∀ i < size, t (a + i) = t' (a + i)) :
    LongestPrefix t none a size k → LongestPrefix t' none a size k := by
  rintro ⟨hle, hstraight, hlongest⟩
  refine ⟨hle, (straightFrom_congr fun i hi => h i (by omega)).mp hstraight, fun n hn hn' => ?_⟩
  exact hlongest n hn ((straightFrom_congr fun i hi => h i (by omega)).mpr hn')

theorem maximalRuns_congr {runs : List (Nat × Nat)} (h : ∀ i < size, t (a + i) = t' (a + i))
    (hruns : MaximalRuns t a size runs) : MaximalRuns t' a size runs := by
  have hat : ∀ c, a ≤ c → c < a + size → t c = t' c := by
    intro c hc hlt
    have hsame := h (c - a) (by omega)
    rwa [Nat.add_sub_cancel' hc] at hsame
  have hjoins : ∀ c, a ≤ c → c + 1 < a + size → (Joins t c ↔ Joins t' c) := by
    intro c hc hlt
    rw [Joins, Joins, hat c hc (by omega), hat (c + 1) (by omega) hlt]
  refine ⟨hruns.inside, fun r hr => ?_, hruns.order, fun c hc hlt hdef => ?_, fun r hr hlt => ?_,
    fun r hr hlt => ?_⟩
  · have hinside := hruns.inside r hr
    exact (straightFrom_congr fun i hi => hat _ (by omega) (by omega)).mp (hruns.straight r hr)
  · exact hruns.cover c hc hlt (hat c hc hlt ▸ hdef)
  · have hinside := hruns.inside r hr
    rw [← hjoins _ (by omega) (by omega)]
    exact hruns.left r hr hlt
  · have hinside := hruns.inside r hr
    rw [← hjoins _ (by omega) (by omega)]
    exact hruns.right r hr hlt

/-- The answer of `IsFullyMappedRange` is right unless small pages that are reserved are all that is
not mapped. -/
theorem fullyMapped_iff (hspace : address + size ≤ L.addressSpaceSize) (hdouble : NoDouble L m) :
    (m.isFullyMappedRange L address size = true ↔
      ∀ i < size, m.gpuToCpuAddress L (address + i) ≠ none) ↔
      ((∃ i < size, m.walkEntry L (address + i) = (false, .reserved)) →
        ∃ i < size, m.walkEntry L (address + i) = (true, .reserved) ∨
          m.walkEntry L (address + i) = (false, .free)) := by
  have hmapped : ∀ i < size, m.gpuToCpuAddress L (address + i) ≠ none ↔
      (m.walkEntry L (address + i)).2 = .mapped := by
    intro i hi
    rw [← hdouble.seen_eq (by omega), seen]
    split
    case isTrue h => exact iff_of_true (fun h => by cases h) h
    case isFalse h => exact iff_of_false (fun hne => hne rfl) h
  have hpasses : ∀ i < size, fullyPasses (m.walkEntry L (address + i)) = true ↔
      ¬(m.walkEntry L (address + i) = (true, .reserved) ∨
        m.walkEntry L (address + i) = (false, .free)) := by
    intro i _
    rw [walkEntry]
    cases hbig : m.getEntry L true (address + i) <;>
      cases hsmall : m.getEntry L false (address + i) <;> decide
  rw [isFullyMappedRange_iff]
  constructor
  · rintro hiff ⟨i, hi, hsmall⟩
    by_contra hnone
    have hall : ∀ j < size, fullyPasses (m.walkEntry L (address + j)) = true := fun j hj =>
      (hpasses j hj).mpr fun h => hnone ⟨j, hj, h⟩
    have hdefined := (hmapped i hi).mp (hiff.mp hall i hi)
    rw [hsmall] at hdefined
    cases hdefined
  · intro hsound
    constructor
    · intro hall i hi
      refine (hmapped i hi).mpr ?_
      by_contra hnot
      have hpass := hall i hi
      obtain ⟨⟨big, e⟩, hentry⟩ : ∃ entry, m.walkEntry L (address + i) = entry := ⟨_, rfl⟩
      rw [hentry] at hpass hnot
      cases big with
      | true => exact hnot (of_decide_eq_true hpass)
      | false =>
        cases e with
        | free => cases hpass
        | mapped => exact hnot rfl
        | reserved =>
          obtain ⟨j, hj, hfails⟩ := hsound ⟨i, hi, hentry⟩
          exact (hpasses j hj).mp (hall j hj) hfails
    · intro hall i hi
      refine (hpasses i hi).mpr fun hfails => ?_
      have hentry := (hmapped i hi).mp (hall i hi)
      rcases hfails with heq | heq <;> rw [heq] at hentry <;> cases hentry

/-! ## Ranges in one piece on the host -/

/-- The bytes of a page of the device lie in one page of either size. -/
theorem same_page (hi : a % L.size big + i < L.size big) :
    (a + i) >>> L.bits big = a >>> L.bits big ∧ (a + i) % L.size big = a % L.size big + i := by
  have hsplit := address_split L big a
  have haddress : a + i = a >>> L.bits big * L.size big + (a % L.size big + i) := by omega
  rw [haddress]
  exact page_of_split hi

theorem devicePage_dvd_size (L : GpuLayout) (big : Bool) : pageSize ∣ L.size big :=
  cpuPage_dvd_size L big

theorem inside_of_devicePage (hi : a % pageSize + i < pageSize) :
    a % L.size big + i < L.size big := by
  have hpos : 0 < pageSize := Nat.two_pow_pos _
  obtain ⟨count, hcount⟩ := devicePage_dvd_size L big
  have hlt := mod_lt a (size_pos L big)
  have hmod : a % L.size big % pageSize = a % pageSize :=
    mod_mod_of_dvd _ (devicePage_dvd_size L big)
  have hsplit := div_add_mod (a % L.size big) pageSize
  rw [hmod] at hsplit
  have hpage : a % L.size big / pageSize < count := by
    rw [Nat.div_lt_iff_lt_mul hpos, mul_comm, ← hcount]
    exact hlt
  have hroom : pageSize * (a % L.size big / pageSize + 1) ≤
      pageSize * count := Nat.mul_le_mul_left _ hpage
  rw [mul_add, mul_one] at hroom
  omega

/-- The lookups in one page follow each other. -/
theorem levelAddress_add (hi : a % L.size big + i < L.size big) :
    m.getEntry L big (a + i) = m.getEntry L big a ∧
      m.levelAddress L big (a + i) = m.levelAddress L big a + i := by
  obtain ⟨hpage, hoffset⟩ := same_page hi
  rw [getEntry_eq, getEntry_eq, levelAddress, levelAddress, hpage, hoffset, add_assoc]
  exact ⟨rfl, rfl⟩

/-- The pointers in one page of the device follow each other. -/
theorem getPointer_in_page (hspace : a + i < L.addressSpaceSize)
    (hi : a % pageSize + i < pageSize) :
    m.getPointer L memory (a + i) = (m.getPointer L memory a).map (· + i) := by
  have hlevel : ∀ big, memory.getPointer (m.levelAddress L big a + i) =
      (memory.getPointer (m.levelAddress L big a)).map (· + i) := by
    intro big
    have hmod : a % L.size big % pageSize = a % pageSize :=
      mod_mod_of_dvd _ (devicePage_dvd_size L big)
    have hsplit := div_add_mod' (a % L.size big) pageSize
    rw [hmod] at hsplit
    have haddress : m.levelAddress L big a = ((m.pageTable big (a >>> L.bits big)).toNat +
        a % L.size big / pageSize) * pageSize + a % pageSize := by
      rw [add_mul, add_assoc, hsplit]
      exact congrArg (· + a % L.size big) (shiftLeft_eq _ _)
    rw [haddress]
    exact getPointer_add hi
  obtain ⟨hbig, hbigLevel⟩ := @levelAddress_add L m a i true (inside_of_devicePage hi)
  obtain ⟨hsmall, hsmallLevel⟩ := @levelAddress_add L m a i false (inside_of_devicePage hi)
  rw [getPointer, getPointer, gpuToCpuAddress_eq hspace, gpuToCpuAddress_eq (by omega), hbig,
    hsmall, hbigLevel, hsmallLevel]
  split
  · exact hlevel true
  · split
    · exact hlevel false
    · rfl

/-- The pointers in a continuous big page follow each other. -/
theorem getPointer_in_bigPage (hfits : ContinuousFits L memory m)
    (hspace : a + i < L.addressSpaceSize) (hmapped : m.getEntry L true a = .mapped)
    (hcontinuous : m.isBigPageContinuous (a >>> L.bits true) = true)
    (hi : a % L.size true + i < L.size true) :
    ∃ ptr, m.getPointer L memory a = some ptr ∧ m.getPointer L memory (a + i) = some (ptr + i) := by
  have hpage := hfits (a >>> L.bits true) hmapped hcontinuous
  rw [shiftLeft_eq] at hpage
  obtain ⟨ptr, hptr, hfirst⟩ := @getPointer_of_isContinuous L memory _ (a % L.size true) hpage
    (by omega)
  obtain ⟨ptr', hptr', hbyte⟩ := @getPointer_of_isContinuous L memory _ (a % L.size true + i) hpage
    hi
  rw [hptr, Option.some.injEq] at hptr'
  obtain ⟨hentry, hlevel⟩ := @levelAddress_add L m a i true hi
  have haddress : m.levelAddress L true a = (m.pageTable true (a >>> L.bits true)).toNat *
      pageSize + a % L.size true :=
    congrArg (· + a % L.size true) (shiftLeft_eq _ _)
  refine ⟨ptr + a % L.size true, ?_, ?_⟩
  · rw [getPointer, gpuToCpuAddress_eq (by omega), if_pos hmapped, haddress]
    exact hfirst
  · rw [getPointer, gpuToCpuAddress_eq hspace, if_pos (hentry.trans hmapped), hlevel, haddress,
      add_assoc, add_assoc, hptr']
    exact hbyte

section

variable (hspace : address + size ≤ L.addressSpaceSize) (hsize : 0 < size)
  (hfits : ContinuousFits L memory m)
include hspace hsize hfits

/-- The answer of `IsGranularRange` is right exactly if the bytes behind a continuous big page
follow it, and the page of the device that holds another range has memory. -/
theorem granular_iff :
    (m.isGranularRange L address size = true → ∃ ptr, m.getPointer L memory address = some ptr ∧
      ∀ i < size, m.getPointer L memory (address + i) = some (ptr + i)) ↔
    (m.getEntry L true address = .mapped → m.isBigPageContinuous (address >>> L.bits true) = true →
      (address >>> L.bits true) % L.size true + size ≤ L.size true →
      ∀ i < size, L.size true ≤ address % L.size true + i →
        m.getPointer L memory (address + i) = (m.getPointer L memory address).map (· + i)) ∧
    ((m.getEntry L true address = .mapped ∧
        m.isBigPageContinuous (address >>> L.bits true) = false ∨
        m.getEntry L true address ≠ .mapped ∧ m.getEntry L false address = .mapped) →
      address % pageSize + size ≤ pageSize → m.getPointer L memory address ≠ none) := by
  have hindex : ∀ x, x &&& (L.size true - 1) = x % L.size true := fun x =>
    and_two_pow_sub_one_eq_mod x _
  have hoffset : ∀ x, x &&& (pageSize - 1) = x % pageSize := fun x =>
    and_two_pow_sub_one_eq_mod x _
  -- a range in one page of the device is in one piece if the page has memory
  have hdevice : (decide (address % pageSize + size ≤ pageSize) = true →
      ∃ ptr, m.getPointer L memory address = some ptr ∧
        ∀ i < size, m.getPointer L memory (address + i) = some (ptr + i)) ↔
      (address % pageSize + size ≤ pageSize → m.getPointer L memory address ≠ none) := by
    rw [decide_eq_true_iff]
    refine forall_congr' fun hle => ⟨?_, fun hptr => ?_⟩
    · rintro ⟨ptr, hptr, -⟩ hnone
      rw [hptr] at hnone
      cases hnone
    · obtain ⟨ptr, hptr⟩ := Option.ne_none_iff_exists'.mp hptr
      refine ⟨ptr, hptr, fun i hi => ?_⟩
      rw [getPointer_in_page (by omega) (by omega), hptr]
      rfl
  rw [isGranularRange]
  simp only [hindex, hoffset]
  by_cases hmapped : m.getEntry L true address = .mapped
  case pos =>
    rw [if_pos hmapped]
    cases hcontinuous : m.isBigPageContinuous (address >>> L.bits true) with
    | false =>
      rw [if_neg Bool.false_ne_true, hdevice]
      refine ⟨fun h => ⟨fun _ h => (by cases h), fun _ => h⟩, fun h => h.2 (.inl ⟨hmapped, rfl⟩)⟩
    | true =>
      have hother : ¬(m.getEntry L true address = .mapped ∧ true = false ∨
          m.getEntry L true address ≠ .mapped ∧ m.getEntry L false address = .mapped) := by
        rintro (⟨-, h⟩ | ⟨h, -⟩)
        · cases h
        · exact h hmapped
      have hpositive := size_pos L true
      have hlt := mod_lt address hpositive
      obtain ⟨ptr, hptr, -⟩ := @getPointer_in_bigPage L m memory address 0 hfits (by omega)
        hmapped
        hcontinuous (by omega)
      rw [if_pos rfl, decide_eq_true_iff, and_iff_left fun h => absurd h hother]
      constructor
      · intro h _ _ hle i hi _
        obtain ⟨ptr', hptr', hbytes⟩ := h hle
        rw [hbytes i hi, hptr']
        rfl
      · intro h hle
        refine ⟨ptr, hptr, fun i hi => ?_⟩
        rcases lt_or_ge (address % L.size true + i) (L.size true) with hin | hbeyond
        · obtain ⟨ptr', hptr', hbyte⟩ := @getPointer_in_bigPage L m memory address i hfits (by
            omega)
            hmapped hcontinuous hin
          rw [hptr, Option.some.injEq] at hptr'
          rw [hbyte, hptr']
        · rw [h hmapped rfl hle i hi hbeyond, hptr]
          rfl
  case neg =>
    rw [if_neg hmapped]
    by_cases hsmall : m.getEntry L false address = .mapped
    · rw [if_neg (not_not.mpr hsmall), hdevice]
      exact ⟨fun h => ⟨fun h => absurd h hmapped, fun _ => h⟩,
        fun h => h.2 (.inr ⟨hmapped, hsmall⟩)⟩
    · rw [if_pos hsmall]
      refine iff_of_true (fun h => by cases h) ⟨fun h => absurd h hmapped, ?_⟩
      rintro (⟨h, -⟩ | ⟨-, h⟩)
      · exact absurd h hmapped
      · exact absurd h hsmall

/-- The queries about a range are answered rightly exactly if the range is sound. -/
theorem queriesRight_iff (hdouble : NoDouble L m) :
    QueriesRight L m memory address size ↔ QueriesSound L m memory address size := by
  have hseen : ∀ i < size, m.seen L (address + i) = m.gpuToCpuAddress L (address + i) :=
    fun i hi => hdouble.seen_eq (by omega)
  constructor
  · intro h
    obtain ⟨hbeyond, hmemory⟩ := (granular_iff hspace hsize hfits).mp h.granular
    exact ⟨(fullyMapped_iff hspace hdouble).mp h.fullyMapped, hbeyond, hmemory⟩
  · intro h
    exact ⟨isContinuousRange_iff.trans (straightFrom_congr hseen),
      (fullyMapped_iff hspace hdouble).mpr h.fullyMapped,
      longestPrefix_congr hseen maxContinuousRange_spec,
      maximalRuns_congr hseen getSubmappedRange_spec,
      (granular_iff hspace hsize hfits).mpr ⟨h.beyond, h.memory⟩⟩

end

/-- Small pages in an empty table leave no double entries. -/
theorem noDouble_small {op : GpuOperation} (h : op.Aligned defaultLayout)
    (hsmall : op.isBigPages = false) : NoDouble defaultLayout
      (run defaultLayout onePageDevice [op]) := by
  intro a hbig
  refine absurd ?_ hbig
  show (initial.apply defaultLayout onePageDevice op).getEntry
    defaultLayout true a = .free
  cases op with
  | map gpuAddr devAddr size isBigPages =>
    obtain rfl : isBigPages = false := hsmall
    have haddr : defaultLayout.size false ∣ gpuAddr := h.address
    have hsize : defaultLayout.size false ∣ size := h.size
    rw [apply, map_eq, getEntry_tableOp haddr hsize h.inside,
      if_neg fun h => absurd h.1 (by decide), getEntry_initial]
  | mapSparse gpuAddr size isBigPages =>
    obtain rfl : isBigPages = false := hsmall
    have haddr : defaultLayout.size false ∣ gpuAddr := h.address
    have hsize : defaultLayout.size false ∣ size := h.size
    rw [apply, mapSparse_eq, getEntry_tableOp haddr hsize h.inside,
      if_neg fun h => absurd h.1 (by decide), getEntry_initial]
  | unmap gpuAddr size => cases hsmall

end Sudachi.VideoCore.GpuMemoryManager
