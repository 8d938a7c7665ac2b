import Sudachi.VideoCore.WordManagerPages
import Sudachi.VideoCore.MemoryTracker

/-!
# The memory tracker, page by page

The pages of device memory are those of the managers, and a region without a manager is one whose
pages are as a new manager has them. A loop of the tracker over the pieces of a range does to every
page of the range what its operation does to a page of a window.
-/

set_option autoImplicit false

namespace Sudachi.VideoCore

open Sudachi.Foundations Sudachi.Foundations.Intervals List Function
open WordManager (u64Max)

/-! ## The pieces of a range -/

/-- A page overlaps a range of bytes. -/
def overlaps (addr size p : Nat) : Bool :=
  decide (0 < size ∧ addr < (p + 1) * 4096 ∧ p * 4096 < addr + size)

/-- A page is in the window of a piece. -/
def RegionPiece.covers (piece : RegionPiece) (p : Nat) : Bool :=
  decide (p / 1024 = piece.pageIndex) && inWindow piece.pageOffset piece.copyAmount (p % 1024)

/-- A piece that the tracker has a region for. -/
structure RegionPiece.Valid (piece : RegionPiece) : Prop where
  window : Piece piece.pageOffset piece.copyAmount
  index : piece.pageIndex < 4096

section

variable (pageIndex : Nat) (pageOffset : Fin higherPageSize) (remainingSize : Nat)
  (hbound : remainingSize ≠ 0 → pageIndex * 4194304 + pageOffset + remainingSize ≤ 2 ^ 34)
include pageIndex pageOffset remainingSize hbound

theorem piecesLoop_valid : ∀ piece ∈ piecesLoop pageIndex pageOffset remainingSize,
      piece.Valid ∧ pageIndex ≤ piece.pageIndex := by
  induction pageIndex, pageOffset, remainingSize using piecesLoop.induct with
  | case1 pageIndex pageOffset =>
    rw [piecesLoop, dif_pos rfl]
    exact fun piece hpiece => absurd hpiece not_mem_nil
  | case2 pageIndex pageOffset remainingSize hne copyAmount ih =>
    have hoffset := pageOffset.isLt
    have hcopy : copyAmount = min (higherPageSize - pageOffset.val) remainingSize := rfl
    simp only [higherPageSize] at hoffset hcopy
    rw [piecesLoop, dif_neg hne]
    intro piece hpiece
    rcases mem_cons.mp hpiece with rfl | hpiece
    · have hpiece : Piece pageOffset.val copyAmount := ⟨by omega, by omega⟩
      exact ⟨⟨hpiece, show pageIndex < 4096 by omega⟩, le_refl _⟩
    · obtain ⟨hvalid, hle⟩ := ih (fun hrest => by dsimp only; omega) piece hpiece
      exact ⟨hvalid, by omega⟩

theorem piecesLoop_ascending : (piecesLoop pageIndex pageOffset remainingSize).Pairwise
      fun a b => a.pageIndex < b.pageIndex := by
  induction pageIndex, pageOffset, remainingSize using piecesLoop.induct with
  | case1 pageIndex pageOffset =>
    rw [piecesLoop, dif_pos rfl]
    exact List.Pairwise.nil
  | case2 pageIndex pageOffset remainingSize hne copyAmount ih =>
    have hoffset := pageOffset.isLt
    have hcopy : copyAmount = min (higherPageSize - pageOffset.val) remainingSize := rfl
    simp only [higherPageSize] at hoffset hcopy
    have hrest : remainingSize - copyAmount ≠ 0 →
        (pageIndex + 1) * 4194304 + 0 + (remainingSize - copyAmount) ≤ 2 ^ 34 := by
      omega
    rw [piecesLoop, dif_neg hne]
    refine pairwise_cons.mpr ⟨fun piece hpiece => ?_, ih hrest⟩
    have hle := (piecesLoop_valid _ ⟨0, by decide⟩ _ hrest piece hpiece).2
    dsimp only
    omega

end

theorem piecesLoop_covers (pageIndex : Nat) (pageOffset : Fin higherPageSize)
    (remainingSize p : Nat) : (piecesLoop pageIndex pageOffset remainingSize).any (·.covers p) =
      overlaps (pageIndex * 4194304 + pageOffset) remainingSize p := by
  induction pageIndex, pageOffset, remainingSize using piecesLoop.induct with
  | case1 pageIndex pageOffset =>
    rw [piecesLoop, dif_pos rfl]
    simp [overlaps]
  | case2 pageIndex pageOffset remainingSize hne copyAmount ih =>
    have hoffset := pageOffset.isLt
    have hcopy : copyAmount = min (higherPageSize - pageOffset.val) remainingSize := rfl
    simp only [higherPageSize] at hoffset hcopy
    rw [piecesLoop, dif_neg hne, any_cons, ih, Bool.eq_iff_iff]
    simp only [RegionPiece.covers, inWindow, overlaps, firstPage, endPage,
      Bool.or_eq_true, Bool.and_eq_true, decide_eq_true_eq, higherPageSize, ← hcopy]
    omega

/-- A range of bytes that the tracker has regions for. -/
def InBounds (addr size : Nat) : Prop := addr + size ≤ 2 ^ 34

variable {addr size : Nat}

theorem pieces_valid (h : InBounds addr size) : ∀ piece ∈ pieces addr size, piece.Valid := by
  intro piece hpiece
  refine (piecesLoop_valid _ _ _ (fun _ => ?_) piece hpiece).1
  rw [InBounds] at h
  simp only [higherPageSize]
  omega

theorem pieces_ascending (h : InBounds addr size) :
    (pieces addr size).Pairwise fun a b => a.pageIndex < b.pageIndex := by
  refine piecesLoop_ascending _ _ _ fun _ => ?_
  rw [InBounds] at h
  simp only [higherPageSize]
  omega

theorem pieces_covers (addr size p : Nat) :
    (pieces addr size).any (·.covers p) = overlaps addr size p := by
  rw [pieces, piecesLoop_covers]
  simp only [higherPageSize, Nat.div_add_mod']

/-! ## The pages of the tracker -/

namespace MemoryTracker

/-- The states of a page of device memory. -/
def bits (t : MemoryTracker) (p : Nat) : PageBits :=
  match t.topTier (p / 1024) with
  | none => initialBits
  | some m => pageBits m.words (p % 1024)

/-- The regions have managers of their own, and those with cached writes are listed. A region that
is listed has a manager: the pointer that `FlushCachedWrites` follows is not null. -/
structure WellFormed (t : MemoryTracker) : Prop where
  managers : ∀ i m, t.topTier i = some m → i < 4096 ∧ Manages (1024 * i) m
  cached : ∀ p, t.bits p .cachedCpu = true → p / 1024 ∈ t.cachedPages
  listed : ∀ i ∈ t.cachedPages, ∃ m, t.topTier i = some m

/-- An operation changes the pages of a set, each in the same way, and the counts of the device
tracker keep their balance. -/
structure Changes (R : Nat → Bool) (f : PageBits → PageBits) (t t' : MemoryTracker) : Prop where
  bits : ∀ p, t'.bits p = if R p then f (t.bits p) else t.bits p
  balance : ∀ p, t'.counts p + untrackedUnit (t'.bits p) = t.counts p + untrackedUnit (t.bits p)

variable {t t' t'' : MemoryTracker} {R R' : Nat → Bool} {f : PageBits → PageBits}
variable {m : WordManager} {i : Nat} {pieces : List RegionPiece}

theorem Changes.none (f : PageBits → PageBits) (t : MemoryTracker) :
    Changes (fun _ => false) f t t :=
  ⟨fun _ => rfl, fun _ => rfl⟩

theorem Changes.trans (h : Changes R f t t') (h' : Changes R' f t' t'')
    (hagain : ∀ p, R p = true → R' p = true → ∀ b, f (f b) = f b) :
    Changes (fun p => R p || R' p) f t t'' := by
  refine ⟨fun p => ?_, fun p => (h'.balance p).trans (h.balance p)⟩
  rw [h'.bits, h.bits]
  cases hp : R p with
  | false => simp
  | true =>
    cases hp' : R' p with
    | false => simp
    | true => simp [hagain p hp hp']

/-- Two operations say the same of the pages where they change them in the same way. -/
theorem Changes.congr (h : Changes R f t t')
    (hR : ∀ p, (if R' p then f (t.bits p) else t.bits p) = if R p then f (t.bits p) else t.bits p) :
    Changes R' f t t' :=
  ⟨fun p => (h.bits p).trans (hR p).symm, h.balance⟩

theorem bits_update (i : Nat) (m : WordManager) (counts : Counts) (ids : List Nat) (p : Nat) :
    (MemoryTracker.mk (update t.topTier i (some m)) ids counts).bits p =
      if p / 1024 = i then pageBits m.words (p % 1024) else t.bits p := by
  rw [bits]
  dsimp only
  by_cases hi : p / 1024 = i
  · rw [if_pos hi, hi, update_self]
  · rw [if_neg hi, update_of_ne hi]
    rfl

/-- The manager of a region, and one that is made for it, has the states of its pages. -/
theorem WellFormed.regionAt (h : WellFormed t) {create : Bool}
    (hi : i < 4096) (hm : t.regionAt create i = some m) :
    Manages (1024 * i) m ∧ ∀ p, p / 1024 = i → t.bits p = pageBits m.words (p % 1024) := by
  rw [MemoryTracker.regionAt] at hm
  cases htop : t.topTier i with
  | some m' =>
    rw [htop] at hm
    cases hm
    refine ⟨(h.managers i m htop).2, fun p hp => ?_⟩
    rw [bits, hp, htop]
  | none =>
    rw [htop] at hm
    dsimp only at hm
    split at hm
    case isFalse => cases hm
    case isTrue =>
      have haddr : i * higherPageSize = 4096 * (1024 * i) := by
        simp only [higherPageSize]
        omega
      rw [haddr] at hm
      cases hm
      refine ⟨manages_create (by omega), fun p hp => ?_⟩
      rw [pageBits_create, bits, hp, htop]

theorem WellFormed.managers_update (h : WellFormed t) (hi : i < 4096)
    (hm : Manages (1024 * i) m) (j : Nat) (m' : WordManager)
    (hj : update t.topTier i (some m) j = some m') : j < 4096 ∧ Manages (1024 * j) m' := by
  by_cases hji : j = i
  · rw [hji, update_self] at hj
    cases hj
    exact hji ▸ ⟨hi, hm⟩
  · rw [update_of_ne hji] at hj
    exact h.managers j m' hj

theorem WellFormed.listed_update (h : WellFormed t) {j : Nat}
    (hj : j = i ∨ j ∈ t.cachedPages) : ∃ m', update t.topTier i (some m) j = some m' := by
  by_cases hji : j = i
  · exact ⟨m, by rw [hji, update_self]⟩
  · obtain ⟨m', hm'⟩ := h.listed j (hj.resolve_left hji)
    exact ⟨m', by rw [update_of_ne hji, hm']⟩

/-- A region without a manager has the pages of a new one. -/
theorem bits_of_regionAt_none {create : Bool} (hm : t.regionAt create i = none) :
    create = false ∧ ∀ p, p / 1024 = i → t.bits p = initialBits := by
  rw [MemoryTracker.regionAt] at hm
  cases htop : t.topTier i with
  | some m => rw [htop] at hm; cases hm
  | none =>
    rw [htop] at hm
    dsimp only at hm
    refine ⟨by simpa using hm, fun p hp => ?_⟩
    rw [bits, hp, htop]

/-! ## Operations on regions -/

/-- What an operation on the manager of a region does: it changes the pages of a window, it reports
the runs of those that it finds, and it lists the region if it may leave cached writes there. -/
structure RegionSpec (op : RegionOp) (window : Nat → Nat → Nat → Bool) (f : PageBits → PageBits)
    (reported : PageBits → Bool) : Prop where
  inside : ∀ {offset size q}, Piece offset size → window offset size q = true → q < 1024
  affects : ∀ {base m offset size} (counts : Counts), Manages base m → Piece offset size →
    Affects base (window offset size) f (m.words, counts)
      ((op m offset size counts).manager.words, (op m offset size counts).counts)
  manages : ∀ {base m offset size} (counts : Counts), Manages base m → Piece offset size →
    Manages base (op m offset size counts).manager
  reports : ∀ {base m offset size} (counts : Counts), Manages base m → Piece offset size →
    ∃ runs, MaximalRuns {q | window offset size q = true ∧
        reported (pageBits m.words q) = true} runs ∧
      (op m offset size counts).reports = runs.map fun run => (4096 * (base + run.1), 4096 * run.2)
  cached : ∀ {i m offset size} (counts : Counts), i < 4096 → Manages (1024 * i) m →
    Piece offset size → (op m offset size counts).cached = [i] ∨
      ((op m offset size counts).cached = [] ∧
        ∀ b : PageBits, f b .cachedCpu = true → b .cachedCpu = true)

/-- The pages of the region of a piece that an operation with a window is about. -/
def touched (window : Nat → Nat → Nat → Bool) (piece : RegionPiece) (p : Nat) : Bool :=
  decide (p / 1024 = piece.pageIndex) && window piece.pageOffset piece.copyAmount (p % 1024)

/-- The bytes of a run of pages. -/
def runBytes (run : Nat × Nat) : Nat × Nat := (4096 * run.1, 4096 * run.2)

variable {op : RegionOp} {window : Nat → Nat → Nat → Bool} {reported : PageBits → Bool}
  {create : Bool} {piece : RegionPiece}

section

variable (hop : RegionSpec op window f reported) (h : WellFormed t) (hvalid : piece.Valid)
  (hm : t.regionAt create piece.pageIndex = some m)
include hop h hvalid hm

/-- Writing back the manager of a region after an operation on it. -/
theorem RegionSpec.changes : Changes (touched window piece) f t ⟨update t.topTier piece.pageIndex
          (some (op m piece.pageOffset piece.copyAmount t.counts).manager),
        t.cachedPages ∪ (op m piece.pageOffset piece.copyAmount t.counts).cached,
        (op m piece.pageOffset piece.copyAmount t.counts).counts⟩ := by
  obtain ⟨hmanages, hbits⟩ := h.regionAt hvalid.index hm
  have haffects := hop.affects t.counts hmanages hvalid.window
  constructor
  case bits =>
    intro p
    rw [bits_update, touched]
    by_cases hi : p / 1024 = piece.pageIndex
    · rw [if_pos hi, haffects.bits, hbits p hi, decide_eq_true hi, Bool.true_and]
    · rw [if_neg hi, decide_eq_false hi]
      rfl
  case balance =>
    intro p
    rw [bits_update]
    rcases Nat.lt_trichotomy (p / 1024) piece.pageIndex with hlt | hi | hgt
    · have hbelow := haffects.below p (by omega)
      rw [if_neg (ne_of_lt hlt)]
      exact congrArg (· + untrackedUnit (t.bits p)) hbelow
    · have hsplit : 1024 * piece.pageIndex + p % 1024 = p := by omega
      have hbalance := haffects.balance (p % 1024)
      rw [hsplit] at hbalance
      rw [if_pos hi, hbits p hi]
      exact hbalance
    · -- the pages behind the region are not in the window
      have hsplit : 1024 * piece.pageIndex + (p - 1024 * piece.pageIndex) = p := by omega
      have hbalance := haffects.balance (p - 1024 * piece.pageIndex)
      have hout : ¬window piece.pageOffset piece.copyAmount (p - 1024 * piece.pageIndex) = true :=
        fun hin => by
          have := hop.inside hvalid.window hin
          omega
      rw [hsplit, haffects.bits, if_neg hout] at hbalance
      rw [if_neg (ne_of_gt hgt)]
      dsimp only at hbalance ⊢
      omega

theorem RegionSpec.wellFormed : WellFormed ⟨update t.topTier piece.pageIndex
          (some (op m piece.pageOffset piece.copyAmount t.counts).manager),
        t.cachedPages ∪ (op m piece.pageOffset piece.copyAmount t.counts).cached,
        (op m piece.pageOffset piece.copyAmount t.counts).counts⟩ := by
  obtain ⟨hmanages, -⟩ := h.regionAt hvalid.index hm
  have hchanges := hop.changes h hvalid hm
  have hcached := hop.cached t.counts hvalid.index hmanages hvalid.window
  constructor
  case managers => exact h.managers_update hvalid.index (hop.manages t.counts hmanages hvalid.window)
  case cached =>
    intro p hp
    rw [hchanges.bits] at hp
    refine mem_union_iff.mpr ?_
    split at hp
    case isFalse => exact .inl (h.cached p hp)
    case isTrue htouched =>
      rw [touched, Bool.and_eq_true, decide_eq_true_eq] at htouched
      rcases hcached with hcached | ⟨-, hkeeps⟩
      · refine .inr ?_
        rw [hcached, htouched.1]
        exact mem_singleton.mpr rfl
      · exact .inl (h.cached p (hkeeps _ hp))
  case listed =>
    intro i hi
    refine h.listed_update ?_
    rcases mem_union_iff.mp hi with hi | hi
    · exact .inr hi
    · rcases hcached with hcached | ⟨hcached, -⟩
      · rw [hcached, mem_singleton] at hi
        exact .inl hi
      · rw [hcached] at hi
        exact absurd hi not_mem_nil

/-- The runs that an operation on a region reports. -/
theorem RegionSpec.runs :
    ∃ runs, BlockRuns 1024 {p | touched window piece p = true ∧ reported (t.bits p) = true} runs ∧
      (op m piece.pageOffset piece.copyAmount t.counts).reports = runs.map runBytes := by
  obtain ⟨hmanages, hbits⟩ := h.regionAt hvalid.index hm
  obtain ⟨runs, hruns, hreports⟩ := hop.reports t.counts hmanages hvalid.window
  have hblock := (hruns.shift (1024 * piece.pageIndex)).blockRuns (n := 1024)
    (i := piece.pageIndex) ?_
  · refine ⟨_, hblock.congr fun p => ?_, ?_⟩
    · rw [Set.mem_ofPred_eq, Set.mem_ofPred_eq, Set.mem_ofPred_eq, touched, Bool.and_eq_true,
        decide_eq_true_eq]
      constructor
      · rintro ⟨⟨hi, hwindow⟩, hreported⟩
        have hmod : p - 1024 * piece.pageIndex = p % 1024 := by omega
        rw [hmod, ← hbits p hi]
        exact ⟨by omega, hwindow, hreported⟩
      · rintro ⟨hle, hwindow, hreported⟩
        have hlt := hop.inside hvalid.window hwindow
        have hi : p / 1024 = piece.pageIndex := by omega
        have hmod : p - 1024 * piece.pageIndex = p % 1024 := by omega
        rw [hmod] at hwindow hreported
        rw [hbits p hi]
        exact ⟨⟨hi, hwindow⟩, hreported⟩
    · rw [hreports, Intervals.shift, map_map]
      rfl
  · rintro p ⟨hle, hwindow, -⟩
    have hlt := hop.inside hvalid.window hwindow
    omega

end

/-- An operation that skips a region without a manager has nothing to do on its pages. -/
def Skips (create : Bool) (f : PageBits → PageBits) (reported : PageBits → Bool) : Prop :=
  create = false → f initialBits = initialBits ∧ reported initialBits = false

/-- What a loop of the tracker leaves and reports. -/
structure Effect (R : Nat → Bool) (f : PageBits → PageBits) (reported : PageBits → Bool)
    (t : MemoryTracker) (result : MemoryTracker × List (Nat × Nat)) : Prop where
  changes : Changes R f t result.1
  wellFormed : WellFormed result.1
  reports : ∃ runs, BlockRuns 1024 {p | R p = true ∧ reported (t.bits p) = true} runs ∧
    result.2 = runs.map runBytes

theorem touched_index {p : Nat} (h : touched window piece p = true) :
    p / 1024 = piece.pageIndex := by
  rw [touched, Bool.and_eq_true, decide_eq_true_eq] at h
  exact h.1

section

variable (hop : RegionSpec op window f reported) (hskips : Skips create f reported)
  (h : WellFormed t)
include hop hskips h

theorem visit_effect (hvalid : piece.Valid) :
    Effect (touched window piece) f reported t (t.visit create op piece) := by
  rw [visit]
  cases hm : t.regionAt create piece.pageIndex with
  | some m => exact ⟨hop.changes h hvalid hm, hop.wellFormed h hvalid hm, hop.runs h hvalid hm⟩
  | none =>
    obtain ⟨hcreate, hbits⟩ := bits_of_regionAt_none hm
    obtain ⟨hsame, hnone⟩ := hskips hcreate
    refine ⟨(Changes.none f t).congr fun p => ?_, h, [], blockRuns_nil ?_, rfl⟩
    · by_cases hp : touched window piece p = true
      · rw [if_pos hp, hbits p (touched_index hp), hsame]
        rfl
      · rw [if_neg hp]
        rfl
    · rintro p ⟨hp, hreported⟩
      rw [hbits p (touched_index hp), hnone] at hreported
      cases hreported

/-- A loop over pieces in ascending order does to the pages of all of them what its operation does
to those of a window. -/
theorem iterateRegions_effect (hvalid : ∀ piece ∈ pieces, piece.Valid)
    (hascending : pieces.Pairwise fun a b => a.pageIndex < b.pageIndex) :
    Effect (fun p => pieces.any (touched window · p)) f reported t
      (iterateRegions create op t pieces) := by
  induction pieces generalizing t with
  | nil =>
    refine ⟨Changes.none f t, h, [], blockRuns_nil ?_, rfl⟩
    rintro p ⟨hp, -⟩
    cases hp
  | cons piece rest ih =>
    have hfirst := visit_effect hop hskips h (hvalid piece mem_cons_self)
    have hrest := ih hfirst.wellFormed (fun p hp => hvalid p (mem_cons_of_mem piece hp))
      hascending.of_cons
    have hlater : ∀ p, rest.any (touched window · p) = true → piece.pageIndex < p / 1024 := by
      intro p hp
      obtain ⟨other, hother, hp⟩ := any_eq_true.mp hp
      rw [touched_index hp]
      exact (pairwise_cons.mp hascending).1 other hother
    have hdisjoint : ∀ p, touched window piece p = true →
        rest.any (touched window · p) = true → False := by
      intro p hp hp'
      have := touched_index hp
      have := hlater p hp'
      omega
    refine ⟨?_, hrest.wellFormed, ?_⟩
    · exact hfirst.changes.trans hrest.changes fun p hp hp' => (hdisjoint p hp hp').elim
    · obtain ⟨runs, hruns, hreports⟩ := hfirst.reports
      obtain ⟨runs', hruns', hreports'⟩ := hrest.reports
      refine ⟨runs ++ runs', ?_, ?_⟩
      · refine (hruns.append (i := piece.pageIndex + 1) hruns' (by decide) ?_ ?_).congr fun p => ?_
        · rintro p ⟨hp, -⟩
          rw [touched_index hp]
          exact Nat.lt_succ_self _
        · rintro p ⟨hp, -⟩
          exact hlater p hp
        · -- the later regions are as they were when the first one is done
          have hlate : rest.any (touched window · p) = true →
              (t.visit create op piece).1.bits p = t.bits p := by
            intro hp
            rw [hfirst.changes.bits, if_neg fun hp' => hdisjoint p hp' hp]
          simp only [Set.mem_ofPred_eq, any_cons, Bool.or_eq_true, or_and_right]
          refine or_congr .rfl (and_congr_right fun hp => ?_)
          rw [hlate hp]
      · rw [iterateRegions, map_append, ← hreports, ← hreports']

end

/-! ## Queries -/

/-- A tracker that differs from another one in that managers have been made for regions. -/
structure Same (t t' : MemoryTracker) : Prop where
  bits : ∀ p, t'.bits p = t.bits p
  counts : t'.counts = t.counts
  wellFormed : WellFormed t'

theorem Same.trans (h : Same t t') (h' : Same t' t'') : Same t t'' :=
  ⟨fun p => (h'.bits p).trans (h.bits p), h'.counts.trans h.counts, h'.wellFormed⟩

theorem WellFormed.same (h : WellFormed t) : Same t t := ⟨fun _ => rfl, rfl, h⟩

theorem WellFormed.keep (h : WellFormed t) (hi : i < 4096) (hm : t.regionAt create i = some m) :
    Same t { t with topTier := update t.topTier i (some m) } := by
  obtain ⟨hmanages, hbits⟩ := h.regionAt hi hm
  have hsame : ∀ p, (MemoryTracker.mk (update t.topTier i (some m)) t.cachedPages
      t.counts).bits p = t.bits p := by
    intro p
    rw [bits_update]
    split
    case isTrue hp => exact (hbits p hp).symm
    case isFalse => rfl
  exact ⟨hsame, rfl, h.managers_update hi hmanages, fun p hp => h.cached p (hsame p ▸ hp),
    fun j hj => h.listed_update (.inr hj)⟩

variable {state : PageState}

/-- The pages of a piece that a query for a state finds, in the manager of its region. -/
theorem WellFormed.found (h : WellFormed t) (hvalid : piece.Valid)
    (hm : t.regionAt create piece.pageIndex = some m) (p : Nat) :
    (piece.covers p = true ∧ modified state (t.bits p) = true) ↔ 1024 * piece.pageIndex ≤ p ∧
      (inWindow piece.pageOffset piece.copyAmount (p - 1024 * piece.pageIndex) = true ∧
        modified state (pageBits m.words (p - 1024 * piece.pageIndex)) = true) := by
  obtain ⟨-, hbits⟩ := h.regionAt hvalid.index hm
  have hinside := hvalid.window.inside
  rw [RegionPiece.covers, Bool.and_eq_true, decide_eq_true_eq]
  constructor
  · rintro ⟨⟨hi, hwindow⟩, hmodified⟩
    have hmod : p - 1024 * piece.pageIndex = p % 1024 := by omega
    rw [hmod, ← hbits p hi]
    exact ⟨by omega, hwindow, hmodified⟩
  · rintro ⟨hle, hwindow, hmodified⟩
    have hlt := (of_decide_eq_true hwindow).2
    rw [endPage] at hlt
    have hi : p / 1024 = piece.pageIndex := by omega
    have hmod : p - 1024 * piece.pageIndex = p % 1024 := by omega
    rw [hmod] at hwindow hmodified
    rw [hbits p hi]
    exact ⟨⟨hi, hwindow⟩, hmodified⟩

/-- No query finds a page in a region that it makes no manager for. -/
theorem not_found (hskips : create = false → modified state initialBits = false)
    (hm : t.regionAt create piece.pageIndex = none) (p : Nat) :
    ¬(piece.covers p = true ∧ modified state (t.bits p) = true) := by
  rintro ⟨hcovers, hmodified⟩
  obtain ⟨hcreate, hbits⟩ := bits_of_regionAt_none hm
  rw [RegionPiece.covers, Bool.and_eq_true, decide_eq_true_eq] at hcovers
  rw [hbits p hcovers.1, hskips hcreate] at hmodified
  cases hmodified

theorem anyRegion_spec (hskips : create = false → modified state initialBits = false)
    (h : WellFormed t) (hvalid : ∀ piece ∈ pieces, piece.Valid) :
    Same t (anyRegion create (·.isRegionModified state) t pieces).1 ∧
      ((anyRegion create (·.isRegionModified state) t pieces).2 = true ↔
        ∃ p, pieces.any (·.covers p) = true ∧ modified state (t.bits p) = true) := by
  induction pieces generalizing t with
  | nil => exact ⟨h.same, by simp [anyRegion]⟩
  | cons piece rest ih =>
    have hpiece := hvalid piece mem_cons_self
    have hrest := fun p hp => hvalid p (mem_cons_of_mem piece hp)
    have hcons : ∀ p, ((piece :: rest).any (·.covers p) = true ∧ modified state (t.bits p) = true) ↔
        (piece.covers p = true ∧ modified state (t.bits p) = true) ∨
          (rest.any (·.covers p) = true ∧ modified state (t.bits p) = true) := by
      intro p
      rw [any_cons, Bool.or_eq_true, or_and_right]
    simp only [hcons, exists_or]
    rw [anyRegion]
    cases hm : t.regionAt create piece.pageIndex with
    | none =>
      obtain ⟨hsame, hanswer⟩ := ih h hrest
      refine ⟨hsame, hanswer.trans ⟨.inr, fun hany => ?_⟩⟩
      exact hany.resolve_left fun ⟨p, hp⟩ => not_found hskips hm p hp
    | some m =>
      have hkeep := h.keep hpiece.index hm
      have hquery := (h.regionAt hpiece.index hm).1.isRegionModified hpiece.window state
      have hfound : m.isRegionModified state piece.pageOffset piece.copyAmount = true ↔
          ∃ p, piece.covers p = true ∧ modified state (t.bits p) = true := by
        rw [hquery]
        constructor
        · rintro ⟨q, hq⟩
          refine ⟨1024 * piece.pageIndex + q, (h.found hpiece hm _).mpr ⟨by omega, ?_⟩⟩
          rwa [Nat.add_sub_cancel_left]
        · rintro ⟨p, hp⟩
          exact ⟨_, ((h.found hpiece hm p).mp hp).2⟩
      dsimp only
      split
      case isTrue hyes => exact ⟨hkeep, iff_of_true rfl (.inl (hfound.mp hyes))⟩
      case isFalse hno =>
        obtain ⟨hsame, hanswer⟩ := ih hkeep.wellFormed hrest
        refine ⟨hkeep.trans hsame, hanswer.trans ?_⟩
        simp only [hkeep.bits]
        exact ⟨.inr, fun hany => hany.resolve_left fun hp => hno (hfound.mpr hp)⟩

/-- The begin and the end in bytes of what a loop over regions has found. -/
structure ByteExtremes (S : Set Nat) (range : Nat × Nat) : Prop where
  empty : (∀ p, p ∉ S) → range = (u64Max, 0)
  nonempty : ∀ p ∈ S, ∃ first last, IsLeast S first ∧ IsGreatest S last ∧
    range = (4096 * first, 4096 * (last + 1))

theorem ByteExtremes.join {S S' Q : Set Nat} {range new : Nat × Nat} {k : Nat}
    (h : ByteExtremes S range) (hnew : Spans Q new) (hshift : ∀ p, p ∈ S' ↔ k ≤ p ∧ p - k ∈ Q)
    (hbefore : ∀ p ∈ S, ∀ q ∈ S', p < q) (hbound : ∀ q ∈ S', 4096 * q ≤ u64Max) :
    ByteExtremes {p | p ∈ S ∨ p ∈ S'} (if new.1 ≠ 0 ∨ new.2 ≠ 0 then
      (min (new.1 + 4096 * k) range.1, max (new.2 + 4096 * k) range.2) else range) := by
  rcases hnew with ⟨hempty, rfl⟩ | ⟨first, last, hfirst, hlast, rfl⟩
  case inl =>
    have hset : {p | p ∈ S ∨ p ∈ S'} = S := by
      ext p
      exact ⟨fun hp => hp.resolve_right fun hp => hempty _ ((hshift p).mp hp).2, .inl⟩
    rw [if_neg (by simp), hset]
    exact h
  case inr =>
    have hmem : ∀ q ∈ Q, k + q ∈ S' := fun q hq =>
      (hshift _).mpr ⟨by omega, by rwa [Nat.add_sub_cancel_left]⟩
    have hle : ∀ p ∈ S', k + first ≤ p ∧ p ≤ k + last := by
      intro p hp
      obtain ⟨hk, hq⟩ := (hshift p).mp hp
      have := hfirst.2 hq
      have := hlast.2 hq
      omega
    have hfl := hfirst.2 hlast.1
    rw [if_pos (.inr (by dsimp only; omega))]
    refine ⟨fun hnone => absurd (.inr (hmem _ hfirst.1)) (hnone (k + first)), fun _ _ => ?_⟩
    dsimp only
    by_cases hS : ∃ p, p ∈ S
    · obtain ⟨p, hp⟩ := hS
      obtain ⟨least, greatest, hleast, hgreatest, rfl⟩ := h.nonempty p hp
      have hlt := hbefore _ hleast.1 _ (hmem _ hfirst.1)
      have hlt' := hbefore _ hgreatest.1 _ (hmem _ hlast.1)
      refine ⟨least, k + last, ⟨.inl hleast.1, ?_⟩, ⟨.inr (hmem _ hlast.1), ?_⟩, ?_⟩
      · rintro q (hq | hq)
        · exact hleast.2 hq
        · have := hle q hq
          omega
      · rintro q (hq | hq)
        · have := hbefore q hq _ (hmem _ hlast.1)
          omega
        · exact (hle q hq).2
      · rw [Prod.mk.injEq]
        dsimp only
        omega
    · have hrange := h.empty fun p hp => hS ⟨p, hp⟩
      have hmax := hbound _ (hmem _ hfirst.1)
      subst hrange
      refine ⟨k + first, k + last, ⟨.inr (hmem _ hfirst.1), ?_⟩, ⟨.inr (hmem _ hlast.1), ?_⟩, ?_⟩
      · rintro q (hq | hq)
        · exact absurd ⟨q, hq⟩ hS
        · exact (hle q hq).1
      · rintro q (hq | hq)
        · exact absurd ⟨q, hq⟩ hS
        · exact (hle q hq).2
      · have hmin : min (4096 * first + 4096 * k) u64Max = 4096 * (k + first) := by
          rw [min_eq_left (by omega)]
          omega
        rw [hmin, Prod.mk.injEq]
        exact ⟨rfl, by omega⟩

/-- The loop over the pieces, with the pages `S` found in the regions before them. -/
theorem pairsLoop_spec (hskips : create = false → modified state initialBits = false)
    {range : Nat × Nat} {S : Set Nat} (h : WellFormed t) (hvalid : ∀ piece ∈ pieces, piece.Valid)
    (hascending : pieces.Pairwise fun a b => a.pageIndex < b.pageIndex)
    (hrange : ByteExtremes S range)
    (hbefore : ∀ p ∈ S, ∀ piece ∈ pieces, p / 1024 < piece.pageIndex) :
    Same t (pairsLoop create (·.modifiedRegion state) t range pieces).1 ∧
      ByteExtremes {p | p ∈ S ∨ (pieces.any (·.covers p) = true ∧ modified state (t.bits p) = true)}
        (pairsLoop create (·.modifiedRegion state) t range pieces).2 := by
  induction pieces generalizing t range S with
  | nil =>
    rw [pairsLoop]
    have hset : {p | p ∈ S ∨ (([] : List RegionPiece).any (·.covers p) = true ∧
        modified state (t.bits p) = true)} = S := by
      ext p
      simp
    rw [hset]
    exact ⟨h.same, hrange⟩
  | cons piece rest ih =>
    have hpiece := hvalid piece mem_cons_self
    have hrest := fun p hp => hvalid p (mem_cons_of_mem piece hp)
    have hcons : {p | p ∈ S ∨ ((piece :: rest).any (·.covers p) = true ∧
        modified state (t.bits p) = true)} =
          {p | p ∈ {p | p ∈ S ∨ p ∈ {p | piece.covers p = true ∧ modified state (t.bits p) = true}} ∨
            (rest.any (·.covers p) = true ∧ modified state (t.bits p) = true)} := by
      ext p
      simp only [Set.mem_ofPred_eq, any_cons, Bool.or_eq_true, or_and_right, or_assoc]
    rw [hcons, pairsLoop]
    cases hm : t.regionAt create piece.pageIndex with
    | none =>
      have hset : {p | p ∈ S ∨ p ∈ {p | piece.covers p = true ∧
          modified state (t.bits p) = true}} = S := by
        ext p
        exact ⟨fun hp => hp.resolve_right (not_found hskips hm p), .inl⟩
      rw [hset]
      exact ih h hrest hascending.of_cons hrange fun p hp other hother =>
        hbefore p hp other (mem_cons_of_mem piece hother)
    | some m =>
      have hkeep := h.keep hpiece.index hm
      have hquery := (h.regionAt hpiece.index hm).1.modifiedRegion hpiece.window state
      have hregion : ∀ p ∈ {p | piece.covers p = true ∧ modified state (t.bits p) = true},
          p / 1024 = piece.pageIndex := by
        rintro p ⟨hcovers, -⟩
        rw [RegionPiece.covers, Bool.and_eq_true, decide_eq_true_eq] at hcovers
        exact hcovers.1
      have hindex := hpiece.index
      have hjoin := hrange.join hquery (fun p => h.found hpiece hm p) ?order ?bound
      case order =>
        intro p hp q hq
        have hlt := hbefore p hp piece mem_cons_self
        rw [← hregion q hq] at hlt
        omega
      case bound =>
        intro q hq
        have := hregion q hq
        simp only [u64Max]
        omega
      have haddr : piece.pageIndex * higherPageSize = 4096 * (1024 * piece.pageIndex) := by
        simp only [higherPageSize]
        omega
      dsimp only
      rw [haddr]
      have hloop := ih hkeep.wellFormed hrest hascending.of_cons hjoin ?behind
      case behind =>
        intro p hp other hother
        have hlt := (pairwise_cons.mp hascending).1 other hother
        rcases hp with hp | hp
        · exact hbefore p hp other (mem_cons_of_mem piece hother)
        · rw [hregion p hp]
          exact hlt
      simp only [hkeep.bits] at hloop
      exact ⟨hkeep.trans hloop.1, hloop.2⟩

/-- `IteratePairs` gives the bytes from the first page that its query finds to the last. -/
theorem iteratePairs_spec (hskips : create = false → modified state initialBits = false)
    (h : WellFormed t) (hbound : InBounds addr size) :
    Same t (t.iteratePairs create (·.modifiedRegion state) addr size).1 ∧
      Spans {p | overlaps addr size p = true ∧ modified state (t.bits p) = true}
        (t.iteratePairs create (·.modifiedRegion state) addr size).2 := by
  have hstart : ByteExtremes ∅ (u64Max, 0) :=
    ⟨fun _ => rfl, fun p hp => absurd hp (Set.notMem_empty p)⟩
  obtain ⟨hsame, hextremes⟩ := pairsLoop_spec hskips h (pieces_valid hbound)
    (pieces_ascending hbound) hstart fun p hp => absurd hp (Set.notMem_empty p)
  simp only [Set.mem_empty_iff_false, false_or, pieces_covers] at hextremes
  refine ⟨hsame, ?_⟩
  rw [iteratePairs]
  dsimp only
  generalize (pairsLoop create (·.modifiedRegion state) t (u64Max, 0)
    (pieces addr size)).2 = range at hextremes
  by_cases hS : ∃ p, p ∈ {p | overlaps addr size p = true ∧ modified state (t.bits p) = true}
  · obtain ⟨p, hp⟩ := hS
    obtain ⟨first, last, hfirst, hlast, rfl⟩ := hextremes.nonempty p hp
    have hle := hfirst.2 hlast.1
    rw [if_pos (by dsimp only; omega)]
    exact .inr ⟨first, last, hfirst, hlast, rfl⟩
  · rw [hextremes.empty fun p hp => hS ⟨p, hp⟩, if_neg (by decide)]
    exact .inl ⟨fun p hp => hS ⟨p, hp⟩, rfl⟩

/-! ## The operations of the tracker on a region -/

/-- The window of an operation that goes through the whole region. -/
def wholeRegion (_offset _size q : Nat) : Bool := decide (q < 1024)

theorem inWindow_lt {offset q : Nat} (h : Piece offset size) (hq : inWindow offset size q = true) :
    q < 1024 := by
  have hlt := (of_decide_eq_true hq).2
  have hinside := h.inside
  rw [endPage] at hlt
  omega

/-- Only a cached write makes a page one with a cached write. -/
theorem changeBits_cachedCpu {enable : Bool} (hcached : state ≠ .cachedCpu) {b : PageBits}
    (h : changeBits state enable b .cachedCpu = true) : b .cachedCpu = true := by
  by_cases hcpu : state = .cpu
  · subst hcpu
    simp only [changeBits, reduceCtorEq, if_false, false_and, and_self, if_true,
      Bool.and_eq_true] at h
    exact h.1.2
  · simpa [changeBits, hcpu, Ne.symm hcached] using h

theorem changeRegion_spec (state : PageState) (enable : Bool) (hstate : state ≠ .untracked)
    (hcached : state ≠ .cachedCpu) :
    RegionSpec (changeRegion state enable) inWindow (changeBits state enable) fun _ => false where
  inside := inWindow_lt
  affects _ h hpiece := (h.changeRegionState hpiece state enable hstate).1
  manages _ h hpiece := (h.changeRegionState hpiece state enable hstate).2
  reports _ _ _ := ⟨[], maximalRuns_nil fun _ hq => absurd hq.2 Bool.false_ne_true, rfl⟩
  cached _ _ _ _ := .inr ⟨rfl, fun _ => changeBits_cachedCpu hcached⟩

theorem cacheRegion_spec :
    RegionSpec cacheRegion inWindow (changeBits .cachedCpu true) fun _ => false where
  inside := inWindow_lt
  affects _ h hpiece := (h.changeRegionState hpiece .cachedCpu true (by decide)).1
  manages _ h hpiece := (h.changeRegionState hpiece .cachedCpu true (by decide)).2
  reports _ _ _ := ⟨[], maximalRuns_nil fun _ hq => absurd hq.2 Bool.false_ne_true, rfl⟩
  cached _ hi h hpiece := by
    have hinside := hpiece.inside
    have hpos := hpiece.pos
    refine .inl ?_
    rw [cacheRegion, h.addr]
    simp only [higherPageSize, cons.injEq, and_true]
    omega

/-- An operation without reports leaves what the operation of the manager leaves. -/
theorem affects_result {base : Nat} {Q : Nat → Bool} {a : Words × Counts} {r : WordManager × Counts}
    (h : Affects base Q f a (r.1.words, r.2)) : Affects base Q f a
      ((RegionResult.mk r.1 r.2 [] []).manager.words, (RegionResult.mk r.1 r.2 [] []).counts) := h

theorem flushRegion_apply (m : WordManager) (offset size : Nat) (counts : Counts) :
    flushRegion m offset size counts =
      ⟨(m.flushCachedWrites counts).1, (m.flushCachedWrites counts).2, [], []⟩ := rfl

theorem flushRegion_spec : RegionSpec flushRegion wholeRegion flushBits fun _ => false where
  inside _ hq := of_decide_eq_true hq
  affects _ h _ := by
    rw [flushRegion_apply]
    exact affects_result h.flushCachedWrites.1
  manages _ h _ := by
    rw [flushRegion_apply]
    exact h.flushCachedWrites.2
  reports _ _ _ := ⟨[], maximalRuns_nil fun _ hq => absurd hq.2 Bool.false_ne_true, rfl⟩
  cached _ _ _ _ := .inr ⟨rfl, fun _ hb => absurd hb Bool.false_ne_true⟩

theorem sweepRegion_spec (state : PageState) (clear : Bool) (hstate : state ≠ .untracked)
    (hcached : state ≠ .cachedCpu) :
    RegionSpec (sweepRegion state clear) inWindow (sweepBits state clear) (modified state) where
  inside := inWindow_lt
  affects _ h hpiece := (h.forEachModifiedRange hpiece state clear hstate).1
  manages _ h hpiece := (h.forEachModifiedRange hpiece state clear hstate).2.1
  reports _ h hpiece := (h.forEachModifiedRange hpiece state clear hstate).2.2
  cached _ _ _ _ := by
    refine .inr ⟨rfl, fun b hb => ?_⟩
    rw [sweepBits] at hb
    split at hb
    · rw [clearBits] at hb
      split at hb
      · exact hb
      · exact changeBits_cachedCpu hcached hb
    · exact hb

theorem touched_inWindow : touched inWindow piece = piece.covers := rfl

theorem touched_wholeRegion (piece : RegionPiece) (p : Nat) :
    touched wholeRegion piece p = decide (p / 1024 = piece.pageIndex) := by
  have hlt : p % 1024 < 1024 := Nat.mod_lt _ (by decide)
  rw [touched, wholeRegion, decide_eq_true hlt, Bool.and_true]

/-! ## All cached writes -/

theorem flushBits_flushBits (b : PageBits) : flushBits (flushBits b) = flushBits b := by
  funext s
  cases s <;> simp [flushBits]

theorem flushBits_of_not_cached {b : PageBits} (h : b .cachedCpu = false) : flushBits b = b := by
  funext s
  cases s <;> simp [flushBits, h]

theorem flush_skips : Skips false flushBits fun _ => false :=
  fun _ => ⟨flushBits_of_not_cached rfl, rfl⟩

/-- The loop of `FlushCachedWrites` over the regions with cached writes. -/
theorem foldl_flushRegion {ids : List Nat} (hids : ∀ i ∈ ids, i < 4096) (h : WellFormed t) :
    Changes (fun p => ids.any fun i => decide (p / 1024 = i)) flushBits t
        (ids.foldl (fun t id => (t.visit false flushRegion ⟨id, 0, higherPageSize⟩).1) t) ∧
      WellFormed (ids.foldl (fun t id => (t.visit false flushRegion ⟨id, 0, higherPageSize⟩).1) t) := by
  induction ids generalizing t with
  | nil => exact ⟨Changes.none flushBits t, h⟩
  | cons i ids ih =>
    have hpiece : Piece 0 higherPageSize := ⟨by decide, by simp only [higherPageSize]; omega⟩
    have hvalid : RegionPiece.Valid ⟨i, 0, higherPageSize⟩ := ⟨hpiece, hids i mem_cons_self⟩
    have hfirst := visit_effect flushRegion_spec flush_skips h hvalid
    have hrest := ih (fun j hj => hids j (mem_cons_of_mem i hj)) hfirst.wellFormed
    rw [foldl_cons]
    refine ⟨(hfirst.changes.trans hrest.1 fun _ _ _ => flushBits_flushBits).congr fun p => ?_,
      hrest.2⟩
    rw [any_cons, touched_wholeRegion]

theorem flushCachedWrites_changes (h : WellFormed t) :
    Changes (fun _ => true) flushBits t t.flushCachedWrites ∧ WellFormed t.flushCachedWrites := by
  have hids : ∀ i ∈ t.cachedPages, i < 4096 := by
    intro i hi
    obtain ⟨m, hm⟩ := h.listed i hi
    exact (h.managers i m hm).1
  obtain ⟨hchanges, hwell⟩ := foldl_flushRegion hids h
  -- a region that is not listed has no cached writes
  have hall : Changes (fun _ => true) flushBits t
      (t.cachedPages.foldl (fun t id => (t.visit false flushRegion ⟨id, 0, higherPageSize⟩).1) t) := by
    refine hchanges.congr fun p => ?_
    rw [if_pos rfl]
    split
    case isTrue => rfl
    case isFalse hnot =>
      refine flushBits_of_not_cached (Bool.eq_false_of_not_eq_true fun hcached => hnot ?_)
      exact any_eq_true.mpr ⟨_, h.cached p hcached, decide_eq_true rfl⟩
  refine ⟨⟨hall.bits, hall.balance⟩, hwell.managers, fun p hp => ?_,
    fun i hi => absurd hi not_mem_nil⟩
  have hbits := congrFun (hall.bits p) .cachedCpu
  exact absurd (hbits.symm.trans hp) Bool.false_ne_true

end MemoryTracker

end Sudachi.VideoCore
