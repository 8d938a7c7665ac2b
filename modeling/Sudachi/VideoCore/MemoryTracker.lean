import Sudachi.VideoCore.WordManager

/-!
# The memory tracker

`MemoryTrackerBase`: word managers for regions of 4 MiB, which are made when they are first needed.
A range of bytes is cut at the borders of the regions, and the manager of each region gets its
piece. A manager that has been taken from the pool never goes back to it, so the pool is left out.
-/

set_option autoImplicit false

namespace Sudachi.VideoCore

open Sudachi.Foundations Function

/-- `HIGHER_PAGE_SIZE`. -/
abbrev higherPageSize : Nat := 4194304

/-- The part of a range that is in one region: the region, the offset in it and the size. -/
structure RegionPiece where
  pageIndex : Nat
  pageOffset : Nat
  copyAmount : Nat
  deriving DecidableEq, Repr

/-- The pieces that the loops of the tracker go through. -/
def piecesLoop (pageIndex : Nat) (pageOffset : Fin higherPageSize) (remainingSize : Nat) :
    List RegionPiece :=
  if _h : remainingSize = 0 then []
  else
    let copyAmount := min (higherPageSize - pageOffset) remainingSize
    ⟨pageIndex, pageOffset, copyAmount⟩ ::
      piecesLoop (pageIndex + 1) ⟨0, by decide⟩ (remainingSize - copyAmount)
  termination_by remainingSize
  decreasing_by
    have := pageOffset.isLt
    omega

def pieces (cpuAddress size : Nat) : List RegionPiece :=
  piecesLoop (cpuAddress / higherPageSize) ⟨cpuAddress % higherPageSize, Nat.mod_lt _ (by decide)⟩
    size

/-- The tracker, with the device tracker it notifies. -/
structure MemoryTracker where
  topTier : Nat → Option WordManager
  cachedPages : List Nat
  counts : Counts

/-- A new tracker, and a device tracker with count 0 everywhere. -/
def MemoryTracker.initial : MemoryTracker := ⟨fun _ => none, [], fun _ => 0⟩

/-- What an operation on the manager of a region leaves and reports. -/
structure RegionResult where
  manager : WordManager
  counts : Counts
  reports : List (Nat × Nat)
  cached : List Nat

/-- An operation on the manager of a region: an offset, a size and the device tracker. -/
abbrev RegionOp : Type := WordManager → Nat → Nat → Counts → RegionResult

def changeRegion (state : PageState) (enable : Bool) : RegionOp := fun m offset size counts =>
  let r := m.changeRegionState state enable (m.cpuAddr + offset) size counts
  ⟨r.1, r.2, [], []⟩

def cacheRegion : RegionOp := fun m offset size counts =>
  let cpuAddress := m.cpuAddr + offset
  let r := m.changeRegionState .cachedCpu true cpuAddress size counts
  ⟨r.1, r.2, [], [cpuAddress / higherPageSize % 2 ^ 32]⟩

def flushRegion : RegionOp := fun m _ _ counts =>
  let r := m.flushCachedWrites counts
  ⟨r.1, r.2, [], []⟩

def sweepRegion (state : PageState) (clear : Bool) : RegionOp := fun m offset size counts =>
  let r := m.forEachModifiedRange state clear (m.cpuAddr + offset) size counts
  ⟨r.1, r.2.1, r.2.2, []⟩

namespace MemoryTracker

variable (t : MemoryTracker)

/-- The manager of a region, which may be made where there is none. -/
def regionAt (createRegionOnFail : Bool) (pageIndex : Nat) : Option WordManager :=
  match t.topTier pageIndex with
  | some m => some m
  | none =>
    if createRegionOnFail then some (.create (pageIndex * higherPageSize) higherPageSize) else none

/-- One region in a loop of the tracker. -/
def visit (createRegionOnFail : Bool) (op : RegionOp) (piece : RegionPiece) :
    MemoryTracker × List (Nat × Nat) :=
  match t.regionAt createRegionOnFail piece.pageIndex with
  | none => (t, [])
  | some m =>
    let r := op m piece.pageOffset piece.copyAmount t.counts
    (⟨update t.topTier piece.pageIndex (some r.manager), t.cachedPages ∪ r.cached,
      r.counts⟩, r.reports)

/-- `IteratePages`, for a function without a result. -/
def iterateRegions (createRegionOnFail : Bool) (op : RegionOp) :
    MemoryTracker → List RegionPiece → MemoryTracker × List (Nat × Nat)
  | t, [] => (t, [])
  | t, piece :: rest =>
    let r := t.visit createRegionOnFail op piece
    let s := iterateRegions createRegionOnFail op r.1 rest
    (s.1, r.2 ++ s.2)

/-- `IteratePages`, for a query that ends the loop when it holds. -/
def anyRegion (createRegionOnFail : Bool) (query : WordManager → Nat → Nat → Bool) :
    MemoryTracker → List RegionPiece → MemoryTracker × Bool
  | t, [] => (t, false)
  | t, piece :: rest =>
    match t.regionAt createRegionOnFail piece.pageIndex with
    | none => anyRegion createRegionOnFail query t rest
    | some m =>
      let t := { t with topTier := update t.topTier piece.pageIndex (some m) }
      if query m piece.pageOffset piece.copyAmount then (t, true)
      else anyRegion createRegionOnFail query t rest

/-- The loop of `IteratePairs`, with the begin and the end of the range up to here. -/
def pairsLoop (createRegionOnFail : Bool) (query : WordManager → Nat → Nat → Nat × Nat) :
    MemoryTracker → Nat × Nat → List RegionPiece → MemoryTracker × Nat × Nat
  | t, range, [] => (t, range)
  | t, range, piece :: rest =>
    match t.regionAt createRegionOnFail piece.pageIndex with
    | none => pairsLoop createRegionOnFail query t range rest
    | some m =>
      let t := { t with topTier := update t.topTier piece.pageIndex (some m) }
      let new := query m piece.pageOffset piece.copyAmount
      let baseAddress := piece.pageIndex * higherPageSize
      let range := if new.1 ≠ 0 ∨ new.2 ≠ 0 then
        (min (new.1 + baseAddress) range.1, max (new.2 + baseAddress) range.2) else range
      pairsLoop createRegionOnFail query t range rest

def iteratePairs (createRegionOnFail : Bool) (query : WordManager → Nat → Nat → Nat × Nat)
    (cpuAddress size : Nat) : MemoryTracker × Nat × Nat :=
  let r := pairsLoop createRegionOnFail query t (WordManager.u64Max, 0) (pieces cpuAddress size)
  (r.1, if r.2.1 < r.2.2 then r.2 else (0, 0))

/-- `FlushCachedWrites`, for all regions with cached writes. -/
def flushCachedWrites : MemoryTracker :=
  let flushed := t.cachedPages.foldl (fun t id =>
    (t.visit false flushRegion ⟨id, 0, higherPageSize⟩).1) t
  { flushed with cachedPages := [] }

end MemoryTracker

/-- An operation of the tracker. -/
inductive TrackerOp where
  | modifiedCpuRegion (addr size : Nat)
  | modifiedGpuRegion (addr size : Nat)
  | isRegionCpuModified (addr size : Nat)
  | isRegionGpuModified (addr size : Nat)
  | isRegionPreflushable (addr size : Nat)
  | markRegionAsCpuModified (addr size : Nat)
  | unmarkRegionAsCpuModified (addr size : Nat)
  | markRegionAsGpuModified (addr size : Nat)
  | unmarkRegionAsGpuModified (addr size : Nat)
  | markRegionAsPreflushable (addr size : Nat)
  | unmarkRegionAsPreflushable (addr size : Nat)
  | cachedCpuWrite (addr size : Nat)
  | flushCachedWritesIn (addr size : Nat)
  | flushCachedWrites
  | forEachUploadRange (addr size : Nat)
  | forEachDownloadRange (addr size : Nat) (clear : Bool)
  | forEachDownloadRangeAndClear (addr size : Nat)
  deriving DecidableEq, Repr

/-- What an operation answers: a range of bytes, a truth value, or the calls of its function. -/
inductive Answer where
  | range (range : Nat × Nat)
  | flag (flag : Bool)
  | reports (reports : List (Nat × Nat))
  deriving DecidableEq, Repr

namespace MemoryTracker

/-- An operation, with what it answers. -/
def perform (t : MemoryTracker) : TrackerOp → MemoryTracker × Answer
  | .modifiedCpuRegion addr size =>
    let r := t.iteratePairs true (·.modifiedRegion .cpu) addr size
    (r.1, .range r.2)
  | .modifiedGpuRegion addr size =>
    let r := t.iteratePairs false (·.modifiedRegion .gpu) addr size
    (r.1, .range r.2)
  | .isRegionCpuModified addr size =>
    let r := anyRegion true (·.isRegionModified .cpu) t (pieces addr size)
    (r.1, .flag r.2)
  | .isRegionGpuModified addr size =>
    let r := anyRegion false (·.isRegionModified .gpu) t (pieces addr size)
    (r.1, .flag r.2)
  | .isRegionPreflushable addr size =>
    let r := anyRegion false (·.isRegionModified .preflushable) t (pieces addr size)
    (r.1, .flag r.2)
  | .markRegionAsCpuModified addr size =>
    let r := iterateRegions true (changeRegion .cpu true) t (pieces addr size)
    (r.1, .reports r.2)
  | .unmarkRegionAsCpuModified addr size =>
    let r := iterateRegions true (changeRegion .cpu false) t (pieces addr size)
    (r.1, .reports r.2)
  | .markRegionAsGpuModified addr size =>
    let r := iterateRegions true (changeRegion .gpu true) t (pieces addr size)
    (r.1, .reports r.2)
  | .unmarkRegionAsGpuModified addr size =>
    let r := iterateRegions true (changeRegion .gpu false) t (pieces addr size)
    (r.1, .reports r.2)
  | .markRegionAsPreflushable addr size =>
    let r := iterateRegions true (changeRegion .preflushable true) t (pieces addr size)
    (r.1, .reports r.2)
  | .unmarkRegionAsPreflushable addr size =>
    let r := iterateRegions true (changeRegion .preflushable false) t (pieces addr size)
    (r.1, .reports r.2)
  | .cachedCpuWrite addr size =>
    let r := iterateRegions true cacheRegion t (pieces addr size)
    (r.1, .reports r.2)
  | .flushCachedWritesIn addr size =>
    let r := iterateRegions false flushRegion t (pieces addr size)
    (r.1, .reports r.2)
  | .flushCachedWrites => (t.flushCachedWrites, .reports [])
  | .forEachUploadRange addr size =>
    let r := iterateRegions true (sweepRegion .cpu true) t (pieces addr size)
    (r.1, .reports r.2)
  | .forEachDownloadRange addr size clear =>
    let r := iterateRegions false (sweepRegion .gpu clear) t (pieces addr size)
    (r.1, .reports r.2)
  | .forEachDownloadRangeAndClear addr size =>
    let r := iterateRegions false (sweepRegion .gpu true) t (pieces addr size)
    (r.1, .reports r.2)

/-- One step of the tracker. -/
def step (t : MemoryTracker) (op : TrackerOp) : MemoryTracker := (t.perform op).1

end MemoryTracker

end Sudachi.VideoCore
