import Sudachi.VideoCore.GpuMemoryMapping
import Sudachi.Foundations.EarlyExit

/-!
# The walk over the pages of a range

`MemoryOperation` goes over a range page by page and hands each page to one of three callbacks. Its
users walk big pages, and small pages below the big ones that are free. Such a walk is one walk over
pieces, which tile the range (`pieces_tile`). Below a big page that is reserved the walk does not
look for small pages, where a lookup does: `seen` is what the walk finds for a byte.
-/

set_option autoImplicit false

namespace Sudachi.VideoCore.GpuMemoryManager

open Sudachi.Foundations Sudachi.Foundations.EarlyExit Sudachi.Core Nat

/-- A callback: the state afterwards, and whether the walk stops. -/
abbrev Callback (σ : Type) := Nat → Nat → Nat → σ → σ × Bool

variable {σ : Type}

/-- The loop of `MemoryOperation`. Each turn takes one byte at least. -/
def memoryOperationLoop (L : GpuLayout) (m : GpuMemoryManager) (isBigPages : Bool)
    (funcMapped funcReserved funcUnmapped : Callback σ) : Nat → Nat → Nat → Nat → Nat → σ → σ
  | 0, _, _, _, _, s => s
  | fuel + 1, pageIndex, pageOffset, currentAddress, remainingSize, s =>
    if remainingSize = 0 then s
    else
      let copyAmount := min (L.size isBigPages - pageOffset) remainingSize
      let result := match m.getEntry L isBigPages currentAddress with
        | .mapped => funcMapped pageIndex pageOffset copyAmount s
        | .reserved => funcReserved pageIndex pageOffset copyAmount s
        | .free => funcUnmapped pageIndex pageOffset copyAmount s
      if result.2 then result.1
      else memoryOperationLoop L m isBigPages funcMapped funcReserved funcUnmapped fuel
        (pageIndex + 1) 0 (currentAddress + copyAmount) (remainingSize - copyAmount) result.1

/-- `MemoryOperation`. -/
def memoryOperation (L : GpuLayout) (m : GpuMemoryManager) (isBigPages : Bool)
    (funcMapped funcReserved funcUnmapped : Callback σ) (gpuSrcAddr size : Nat) (s : σ) : σ :=
  memoryOperationLoop L m isBigPages funcMapped funcReserved funcUnmapped size
    (gpuSrcAddr >>> L.bits isBigPages) (gpuSrcAddr &&& (L.size isBigPages - 1)) gpuSrcAddr size s

/-! ## The pieces of a range -/

/-- A part of a page that the walk hands to a callback. -/
structure Piece where
  big : Bool
  pageIndex : Nat
  offset : Nat
  amount : Nat

namespace Piece

def entry (m : GpuMemoryManager) (p : Piece) : EntryType := m.entryAt p.big p.pageIndex

/-- `dev_addr_base` in the callbacks. -/
def devAddrBase (m : GpuMemoryManager) (p : Piece) : Nat :=
  (m.pageTable p.big p.pageIndex).toNat <<< cpuPageBits + p.offset

/-- The piece begins at an address, and lies in its page. -/
structure At (L : GpuLayout) (p : Piece) (a : Nat) : Prop where
  address : a = p.pageIndex * L.size p.big + p.offset
  pos : 0 < p.amount
  inside : p.offset + p.amount ≤ L.size p.big

end Piece

/-- The turns of the loop of `MemoryOperation`, if no callback stops it. -/
def visitLoop (L : GpuLayout) (big : Bool) : Nat → Nat → Nat → Nat → List Piece
  | 0, _, _, _ => []
  | fuel + 1, pageIndex, pageOffset, remainingSize =>
    if remainingSize = 0 then []
    else
      let copyAmount := min (L.size big - pageOffset) remainingSize
      ⟨big, pageIndex, pageOffset, copyAmount⟩ ::
        visitLoop L big fuel (pageIndex + 1) 0 (remainingSize - copyAmount)

def visits (L : GpuLayout) (big : Bool) (address size : Nat) : List Piece :=
  visitLoop L big size (address >>> L.bits big) (address % L.size big) size

/-- The pieces of a big page: itself, or its small pages if it is free. -/
def piecesOf (L : GpuLayout) (m : GpuMemoryManager) (p : Piece) : List Piece :=
  if p.entry m = .free then visits L false (p.pageIndex <<< L.bits true + p.offset) p.amount
  else [p]

def pieces (L : GpuLayout) (m : GpuMemoryManager) (address size : Nat) : List Piece :=
  (visits L true address size).flatMap (piecesOf L m)

variable {L : GpuLayout} {m : GpuMemoryManager} {big : Bool} {a address size i : Nat} {p : Piece}
  {s : σ}

/-- The callback for a piece. -/
def dispatch (m : GpuMemoryManager) (funcMapped funcReserved funcUnmapped : Callback σ) (p : Piece)
    (s : σ) : σ × Bool :=
  match p.entry m with
  | .mapped => funcMapped p.pageIndex p.offset p.amount s
  | .reserved => funcReserved p.pageIndex p.offset p.amount s
  | .free => funcUnmapped p.pageIndex p.offset p.amount s

theorem page_of_split {index offset : Nat} (h : offset < L.size big) :
    (index * L.size big + offset) >>> L.bits big = index ∧
      (index * L.size big + offset) % L.size big = offset := by
  have hpos := size_pos L big
  constructor
  · rw [shiftRight_eq_div_pow]
    show (index * L.size big + offset) / L.size big = index
    rw [mul_comm, mul_add_div hpos, div_eq_of_lt h, add_zero]
  · rw [mul_comm, mul_add_mod, mod_eq_of_lt h]

theorem address_split (L : GpuLayout) (big : Bool) (a : Nat) :
    a >>> L.bits big * L.size big + a % L.size big = a := by
  rw [shiftRight_eq_div_pow, mul_comm]
  exact div_add_mod a _

theorem memoryOperationLoop_eq {funcMapped funcReserved funcUnmapped : Callback σ}
    {fuel pageIndex pageOffset currentAddress remainingSize : Nat}
    (hoffset : pageOffset < L.size big)
    (haddress : currentAddress = pageIndex * L.size big + pageOffset) :
    memoryOperationLoop L m big funcMapped funcReserved funcUnmapped fuel pageIndex pageOffset
        currentAddress remainingSize s = (runUntil (dispatch m funcMapped funcReserved funcUnmapped)
        (visitLoop L big fuel pageIndex pageOffset remainingSize) s).1 := by
  induction fuel generalizing pageIndex pageOffset currentAddress remainingSize s with
  | zero => rfl
  | succ fuel ih =>
    rw [memoryOperationLoop, visitLoop]
    by_cases hzero : remainingSize = 0
    · rw [if_pos hzero, if_pos hzero]
      rfl
    rw [if_neg hzero, if_neg hzero]
    have hentry : m.getEntry L big currentAddress = m.entryAt big pageIndex := by
      rw [getEntry_eq, haddress, (page_of_split hoffset).1]
    have hresult : (match m.getEntry L big currentAddress with
        | .mapped => funcMapped pageIndex pageOffset
            (min (L.size big - pageOffset) remainingSize) s
        | .reserved => funcReserved pageIndex pageOffset
            (min (L.size big - pageOffset) remainingSize) s
        | .free => funcUnmapped pageIndex pageOffset
            (min (L.size big - pageOffset) remainingSize) s) =
        dispatch m funcMapped funcReserved funcUnmapped ⟨big, pageIndex, pageOffset,
          min (L.size big - pageOffset) remainingSize⟩ s := by
      rw [hentry]
      rfl
    simp only [hresult, runUntil]
    generalize dispatch m funcMapped funcReserved funcUnmapped ⟨big, pageIndex, pageOffset,
      min (L.size big - pageOffset) remainingSize⟩ s = result
    by_cases hstop : result.2
    · rw [if_pos hstop, if_pos hstop]
    · rw [if_neg hstop, if_neg hstop]
      rcases le_total remainingSize (L.size big - pageOffset) with hlast | hmore
      · -- nothing is left for another turn
        rw [min_eq_right hlast, Nat.sub_self]
        cases fuel <;> simp [memoryOperationLoop, visitLoop, runUntil]
      · rw [min_eq_left hmore]
        refine ih (size_pos L big) ?_
        rw [haddress, add_mul, one_mul]
        omega

theorem memoryOperation_eq {funcMapped funcReserved funcUnmapped : Callback σ} :
    memoryOperation L m big funcMapped funcReserved funcUnmapped address size s =
      (runUntil (dispatch m funcMapped funcReserved funcUnmapped)
        (visits L big address size) s).1 := by
  have hoffset : address &&& (L.size big - 1) = address % L.size big :=
    and_two_pow_sub_one_eq_mod _ _
  rw [memoryOperation, hoffset, visits]
  exact memoryOperationLoop_eq (mod_lt _ (size_pos L big)) (address_split L big address).symm

/-- The callback for a piece of a walk over big pages, and over small pages below those that are
free. -/
def pieceStep (m : GpuMemoryManager) (bigMapped bigReserved : Callback σ)
    (smallMapped smallReserved smallUnmapped : Callback σ) (p : Piece) (s : σ) : σ × Bool :=
  if p.big then
    if p.entry m = .mapped then bigMapped p.pageIndex p.offset p.amount s
    else bigReserved p.pageIndex p.offset p.amount s
  else dispatch m smallMapped smallReserved smallUnmapped p s

theorem big_of_mem_visitLoop {fuel pageIndex offset remaining : Nat}
    (h : p ∈ visitLoop L big fuel pageIndex offset remaining) : p.big = big := by
  induction fuel generalizing pageIndex offset remaining with
  | zero => cases h
  | succ fuel ih =>
    rw [visitLoop] at h
    split at h
    · cases h
    · rcases List.mem_cons.mp h with rfl | hrest
      · rfl
      · exact ih hrest

theorem big_of_mem_visits (h : p ∈ visits L big address size) : p.big = big :=
  big_of_mem_visitLoop h

/-- The walk over big pages and the small pages below them is one walk over the pieces. The flag
tells the outer walk that the inner one has stopped. -/
theorem memoryOperation_pieces {bigMapped bigReserved : Callback σ}
    {smallMapped smallReserved smallUnmapped : Callback σ} (flag : σ → Bool)
    (hbigMapped : ∀ i o n s, flag s = false → (bigMapped i o n s).2 = false →
      flag (bigMapped i o n s).1 = false)
    (hbigReserved : ∀ i o n s, flag s = false → (bigReserved i o n s).2 = false →
      flag (bigReserved i o n s).1 = false) (hsmallMapped : ∀ i o n s, flag s = false →
      (smallMapped i o n s).2 = flag (smallMapped i o n s).1)
    (hsmallReserved : ∀ i o n s, flag s = false →
      (smallReserved i o n s).2 = flag (smallReserved i o n s).1)
    (hsmallUnmapped : ∀ i o n s, flag s = false →
      (smallUnmapped i o n s).2 = flag (smallUnmapped i o n s).1) (hs : flag s = false) :
    memoryOperation L m true bigMapped bigReserved (fun pageIndex offset copyAmount s =>
        let base := pageIndex <<< L.bits true + offset
        let s := memoryOperation L m false smallMapped smallReserved smallUnmapped base copyAmount s
        (s, flag s)) address size s =
      (runUntil (pieceStep m bigMapped bigReserved smallMapped smallReserved smallUnmapped)
        (pieces L m address size) s).1 := by
  rw [memoryOperation_eq, pieces]
  refine congrArg Prod.fst
    (runUntil_flatMap (I := fun s => flag s = false) (fun p hp s hs => ?_) hs)
  have hbig : p.big = true := big_of_mem_visits hp
  rw [piecesOf, dispatch]
  cases hentry : p.entry m with
  | mapped =>
    have hstep : pieceStep m bigMapped bigReserved smallMapped smallReserved smallUnmapped p s =
        bigMapped p.pageIndex p.offset p.amount s := by
      rw [pieceStep, if_pos hbig, if_pos hentry]
    refine ⟨?_, hbigMapped _ _ _ s hs⟩
    rw [if_neg (by decide), runUntil, hstep]
    cases hstop : (bigMapped p.pageIndex p.offset p.amount s).2 <;> simp [runUntil, ← hstop]
  | reserved =>
    have hstep : pieceStep m bigMapped bigReserved smallMapped smallReserved smallUnmapped p s =
        bigReserved p.pageIndex p.offset p.amount s := by
      rw [pieceStep, if_pos hbig, if_neg (by rw [hentry]; decide)]
    refine ⟨?_, hbigReserved _ _ _ s hs⟩
    rw [if_neg (by decide), runUntil, hstep]
    cases hstop : (bigReserved p.pageIndex p.offset p.amount s).2 <;> simp [runUntil, ← hstop]
  | free =>
    rw [if_pos rfl]
    have hinner : runUntil (pieceStep m bigMapped bigReserved smallMapped smallReserved
          smallUnmapped)
          (visits L false (p.pageIndex <<< L.bits true + p.offset) p.amount) s =
        runUntil (dispatch m smallMapped smallReserved smallUnmapped)
          (visits L false (p.pageIndex <<< L.bits true + p.offset) p.amount) s := by
      refine runUntil_congr fun q hq s => ?_
      rw [pieceStep, if_neg (by rw [big_of_mem_visits hq]; decide)]
    have hflag := @runUntil_flag _ _ (dispatch m smallMapped smallReserved smallUnmapped) flag
      (visits L false (p.pageIndex <<< L.bits true + p.offset) p.amount) s (fun q _ s hs => by
        rw [dispatch]
        cases q.entry m with
        | mapped => exact hsmallMapped _ _ _ s hs
        | reserved => exact hsmallReserved _ _ _ s hs
        | free => exact hsmallUnmapped _ _ _ s hs) hs
    simp only [memoryOperation_eq]
    refine ⟨?_, id⟩
    rw [hinner, ← hflag]

/-! ## What the pieces cover -/

/-- What the walk finds at a byte: the size of the page that decides, and its entry. -/
def walkEntry (L : GpuLayout) (m : GpuMemoryManager) (a : Nat) : Bool × EntryType :=
  if m.getEntry L true a = .free then (false, m.getEntry L false a) else (true, m.getEntry L true a)

/-- The device address that the walk finds for a byte. -/
def seen (L : GpuLayout) (m : GpuMemoryManager) (a : Nat) : Option Nat :=
  if (m.walkEntry L a).2 = .mapped then some (m.levelAddress L (m.walkEntry L a).1 a) else none

/-- The device address of the first byte of a piece, if it is mapped. -/
def Piece.place (m : GpuMemoryManager) (p : Piece) : Option Nat :=
  if p.entry m = .mapped then some (p.devAddrBase m) else none

/-- The walk finds the piece at each of its bytes. -/
structure Piece.Covers (L : GpuLayout) (m : GpuMemoryManager) (p : Piece) (a : Nat) : Prop extends
    p.At L a where
  found : ∀ i < p.amount, m.walkEntry L (a + i) = (p.big, p.entry m)

/-- The pieces follow each other from an address on, over a number of bytes. -/
def Tiles (L : GpuLayout) (m : GpuMemoryManager) : Nat → Nat → List Piece → Prop
  | _, size, [] => size = 0
  | a, size, p :: ps =>
    p.Covers L m a ∧ p.amount ≤ size ∧ Tiles L m (a + p.amount) (size - p.amount) ps

theorem Piece.At.page (h : p.At L a) (hi : i < p.amount) :
    (a + i) >>> L.bits p.big = p.pageIndex ∧ (a + i) % L.size p.big = p.offset + i := by
  have hinside := h.inside
  rw [h.address, add_assoc]
  exact page_of_split (by omega)

theorem Piece.At.getEntry (h : p.At L a) (hi : i < p.amount) :
    m.getEntry L p.big (a + i) = p.entry m := by
  rw [getEntry_eq, (h.page hi).1]
  rfl

/-- The bytes of a piece are mapped one after the other. -/
theorem Piece.At.levelAddress (h : p.At L a) (hi : i < p.amount) :
    m.levelAddress L p.big (a + i) = p.devAddrBase m + i := by
  rw [GpuMemoryManager.levelAddress, (h.page hi).1, (h.page hi).2, devAddrBase, add_assoc]

theorem Piece.Covers.seen (h : p.Covers L m a) (hi : i < p.amount) :
    m.seen L (a + i) = (p.place m).map (· + i) := by
  rw [GpuMemoryManager.seen, h.found i hi, place]
  split
  · rw [h.levelAddress hi]
    rfl
  · rfl

theorem tiles_append {ps qs : List Piece} {n k : Nat} (hp : Tiles L m a n ps)
    (hq : Tiles L m (a + n) k qs) : Tiles L m a (n + k) (ps ++ qs) := by
  induction ps generalizing a n with
  | nil =>
    obtain rfl : n = 0 := hp
    rwa [zero_add]
  | cons p ps ih =>
    obtain ⟨hcovers, hle, hrest⟩ := hp
    have haddress : a + p.amount + (n - p.amount) = a + n := by omega
    have hsize : n + k - p.amount = n - p.amount + k := by omega
    refine ⟨hcovers, by omega, ?_⟩
    rw [hsize]
    exact ih hrest (haddress.symm ▸ hq)

/-- The turns of the loop follow each other. -/
theorem visitLoop_at {fuel pageIndex offset remaining : Nat} (hoffset : offset < L.size big)
    (hfuel : remaining ≤ fuel) {P : Nat → Nat → List Piece → Prop} (hnil : ∀ a, P a 0 [])
    (hcons : ∀ p ps a n, p.big = big → p.At L a → p.amount ≤ n →
      P (a + p.amount) (n - p.amount) ps → P a n (p :: ps)) :
    P (pageIndex * L.size big + offset) remaining
      (visitLoop L big fuel pageIndex offset remaining) := by
  induction fuel generalizing pageIndex offset remaining with
  | zero =>
    obtain rfl := le_zero.mp hfuel
    exact hnil _
  | succ fuel ih =>
    rw [visitLoop]
    split
    case isTrue hzero => exact hzero ▸ hnil _
    case isFalse hpos =>
      have hsize := size_pos L big
      generalize hamount : min (L.size big - offset) remaining = amount
      refine hcons _ _ _ _ rfl ⟨rfl, show 0 < amount by omega,
        show offset + amount ≤ L.size big by omega⟩
        (show amount ≤ remaining by omega) ?_
      have hnext := @ih (pageIndex + 1) 0 (remaining - amount) hsize (by omega)
      rcases le_total remaining (L.size big - offset) with hlast | hmore
      · have hdone : remaining - amount = 0 := by omega
        show P _ (remaining - amount) _
        rw [hdone]
        have hnil' : visitLoop L big fuel (pageIndex + 1) 0 0 = [] := by
          cases fuel <;> simp [visitLoop]
        rw [hnil']
        exact hnil _
      · have haddress : pageIndex * L.size big + offset + amount =
            (pageIndex + 1) * L.size big + 0 := by
          rw [add_mul, one_mul]
          omega
        rw [← haddress] at hnext
        exact hnext

theorem visits_at {P : Nat → Nat → List Piece → Prop} (hnil : ∀ a, P a 0 [])
    (hcons : ∀ p ps a n, p.big = big → p.At L a → p.amount ≤ n →
      P (a + p.amount) (n - p.amount) ps →
      P a n (p :: ps)) : P address size (visits L big address size) := by
  have hloop := @visitLoop_at L big size (address >>> L.bits big) (address % L.size big) size
    (mod_lt _ (size_pos L big)) le_rfl P hnil hcons
  rwa [address_split] at hloop

/-- The small pages below a free big page tile their part of the range. -/
theorem visits_false_tile (hfree : ∀ i < size, m.getEntry L true (address + i) = .free) :
    Tiles L m address size (visits L false address size) := by
  refine visits_at (P := fun a n ps => (∀ i < n, m.getEntry L true (a + i) = .free) →
    Tiles L m a n ps)
    (fun _ _ => rfl) (fun p ps a n hbig hat hle ih hfree => ?_) hfree
  refine ⟨⟨hat, fun i hi => ?_⟩, hle, ih fun i hi => ?_⟩
  · rw [walkEntry, if_pos (hfree i (by omega)), ← hbig, hat.getEntry hi]
  · rw [add_assoc]
    exact hfree _ (by omega)

/-- The pieces tile the range. -/
theorem pieces_tile (L : GpuLayout) (m : GpuMemoryManager) (address size : Nat) :
    Tiles L m address size (pieces L m address size) := by
  refine visits_at (P := fun a n ps => Tiles L m a n (ps.flatMap (piecesOf L m)))
    (fun _ => rfl) fun p ps a n hbig hat hle ih => ?_
  have hsum : p.amount + (n - p.amount) = n := by omega
  rw [List.flatMap_cons, ← hsum]
  refine tiles_append ?_ (hsum.symm ▸ ih)
  have hentry : ∀ i < p.amount, m.getEntry L true (a + i) = p.entry m := fun i hi =>
    hbig ▸ hat.getEntry hi
  rw [piecesOf]
  split
  case isTrue hfree =>
    have haddress : p.pageIndex <<< L.bits true + p.offset = a := by
      rw [shiftLeft_eq, hat.address, hbig]
      rfl
    rw [haddress]
    exact visits_false_tile fun i hi => (hentry i hi).trans hfree
  case isFalse hused =>
    refine ⟨⟨hat, fun i hi => ?_⟩, le_rfl, Nat.sub_self _⟩
    rw [walkEntry, if_neg (by rw [hentry i hi]; exact hused), hentry i hi, hbig]

end Sudachi.VideoCore.GpuMemoryManager
