import Mathlib.Data.Set.Lattice
import Sudachi.VideoCore.MemoryTrackerPages

/-!
# The memory tracker as sets of pages

What the tracker is for: it keeps the pages that the CPU has modified, those that the GPU has
modified, those with a cached write of the CPU, and those that are not tracked. `PageSets` has them
as sets of page numbers, with the operations as operations on sets. The tracker has the same sets
after every run, and what it answers is what the sets say (`tracker_refines_pageSets`).
-/

set_option autoImplicit false

namespace Sudachi.VideoCore

open Sudachi.Foundations Sudachi.Foundations.Intervals List

@[ext]
structure PageSets where
  cpu : Set Nat
  gpu : Set Nat
  cachedCpu : Set Nat
  untracked : Set Nat
  preflushable : Set Nat

/-- The pages that a range of bytes has a part of. -/
def pagesIn (addr size : Nat) : Set Nat :=
  {p | 0 < size ∧ addr < (p + 1) * 4096 ∧ p * 4096 < addr + size}

/-- The pages of the 4 MiB regions that a range of bytes has a part of. -/
def regionsIn (addr size : Nat) : Set Nat := {p | ∃ q ∈ pagesIn addr size, q / 1024 = p / 1024}

namespace PageSets

/-- All pages are modified by the CPU and not tracked. -/
def initial : PageSets := ⟨Set.univ, ∅, ∅, Set.univ, ∅⟩

variable (s : PageSets)

/-- The pages of `R` are no longer modified by the CPU. A cached write stays where the page was not
modified. -/
def clearCpu (R : Set Nat) : PageSets :=
  { s with cpu := s.cpu \ R, untracked := s.untracked \ R, cachedCpu := s.cachedCpu \ (s.cpu ∩ R) }

/-- The cached writes in `R` become modified pages. -/
def flush (R : Set Nat) : PageSets :=
  { s with
    cpu := s.cpu ∪ (s.cachedCpu ∩ R)
    untracked := s.untracked ∪ (s.cachedCpu ∩ R)
    cachedCpu := s.cachedCpu \ R }

/-- A page is in the set of a state. -/
def has (p : Nat) : PageState → Prop
  | .cpu => p ∈ s.cpu
  | .gpu => p ∈ s.gpu
  | .cachedCpu => p ∈ s.cachedCpu
  | .untracked => p ∈ s.untracked
  | .preflushable => p ∈ s.preflushable

/-- What an operation does to the sets. -/
def step : TrackerOp → PageSets
  | .markRegionAsCpuModified addr size =>
    { s with
      cpu := s.cpu ∪ pagesIn addr size
      untracked := s.untracked ∪ pagesIn addr size
      cachedCpu := s.cachedCpu \ pagesIn addr size }
  | .unmarkRegionAsCpuModified addr size => s.clearCpu (pagesIn addr size)
  | .markRegionAsGpuModified addr size => { s with gpu := s.gpu ∪ pagesIn addr size }
  | .unmarkRegionAsGpuModified addr size => { s with gpu := s.gpu \ pagesIn addr size }
  | .markRegionAsPreflushable addr size =>
    { s with preflushable := s.preflushable ∪ pagesIn addr size }
  | .unmarkRegionAsPreflushable addr size =>
    { s with preflushable := s.preflushable \ pagesIn addr size }
  | .cachedCpuWrite addr size =>
    { s with
      cachedCpu := s.cachedCpu ∪ pagesIn addr size
      untracked := s.untracked ∪ pagesIn addr size }
  | .flushCachedWritesIn addr size => s.flush (regionsIn addr size)
  | .flushCachedWrites => s.flush Set.univ
  | .forEachUploadRange addr size => s.clearCpu (pagesIn addr size)
  | .forEachDownloadRange addr size clear =>
    if clear then { s with gpu := s.gpu \ (pagesIn addr size \ s.untracked) } else s
  | .forEachDownloadRangeAndClear addr size =>
    { s with gpu := s.gpu \ (pagesIn addr size \ s.untracked) }
  | .modifiedCpuRegion _ _ | .modifiedGpuRegion _ _ | .isRegionCpuModified _ _
  | .isRegionGpuModified _ _ | .isRegionPreflushable _ _ => s

/-- The pages of a set are reported in bytes, in runs that are maximal in each region. -/
def Reports (S : Set Nat) (answer : Answer) : Prop :=
  ∃ runs, BlockRuns 1024 S runs ∧ answer = .reports (runs.map MemoryTracker.runBytes)

/-- The answers that the sets give. -/
def Answers : TrackerOp → Answer → Prop
  | .modifiedCpuRegion addr size, answer =>
    ∃ range, answer = .range range ∧ Spans (pagesIn addr size ∩ s.cpu) range
  | .modifiedGpuRegion addr size, answer =>
    ∃ range, answer = .range range ∧ Spans (pagesIn addr size ∩ (s.gpu \ s.untracked)) range
  | .isRegionCpuModified addr size, answer =>
    ∃ flag, answer = .flag flag ∧ (flag = true ↔ (pagesIn addr size ∩ s.cpu).Nonempty)
  | .isRegionGpuModified addr size, answer =>
    ∃ flag, answer = .flag flag ∧
      (flag = true ↔ (pagesIn addr size ∩ (s.gpu \ s.untracked)).Nonempty)
  | .isRegionPreflushable addr size, answer =>
    ∃ flag, answer = .flag flag ∧ (flag = true ↔ (pagesIn addr size ∩ s.preflushable).Nonempty)
  | .forEachUploadRange addr size, answer => Reports (pagesIn addr size ∩ s.cpu) answer
  | .forEachDownloadRange addr size _, answer =>
    Reports (pagesIn addr size ∩ (s.gpu \ s.untracked)) answer
  | .forEachDownloadRangeAndClear addr size, answer =>
    Reports (pagesIn addr size ∩ (s.gpu \ s.untracked)) answer
  | _, answer => answer = .reports []

end PageSets

/-- The range of an operation lies in the device memory that the tracker has regions for. -/
def TrackerOp.InBounds : TrackerOp → Prop
  | .flushCachedWrites => True
  | .modifiedCpuRegion addr size | .modifiedGpuRegion addr size | .isRegionCpuModified addr size
  | .isRegionGpuModified addr size | .isRegionPreflushable addr size
  | .markRegionAsCpuModified addr size | .unmarkRegionAsCpuModified addr size
  | .markRegionAsGpuModified addr size | .unmarkRegionAsGpuModified addr size
  | .markRegionAsPreflushable addr size | .unmarkRegionAsPreflushable addr size
  | .cachedCpuWrite addr size | .flushCachedWritesIn addr size | .forEachUploadRange addr size
  | .forEachDownloadRange addr size _ | .forEachDownloadRangeAndClear addr size =>
    VideoCore.InBounds addr size

namespace MemoryTracker

variable {t t' : MemoryTracker} {addr size : Nat}

/-- The sets of pages of a tracker. -/
def sets (t : MemoryTracker) : PageSets where
  cpu := {p | t.bits p .cpu = true}
  gpu := {p | t.bits p .gpu = true}
  cachedCpu := {p | t.bits p .cachedCpu = true}
  untracked := {p | t.bits p .untracked = true}
  preflushable := {p | t.bits p .preflushable = true}

variable {S : Set Nat} {p : Nat} {R : Nat → Bool} {state : PageState}

theorem mem_pagesIn : p ∈ pagesIn addr size ↔ overlaps addr size p = true := by
  rw [overlaps, decide_eq_true_eq]
  exact .rfl

/-- The regions of the pieces of a range. -/
theorem mem_regionsIn (h : InBounds addr size) : p ∈ regionsIn addr size ↔
    (pieces addr size).any (touched wholeRegion · p) = true := by
  simp only [touched_wholeRegion, any_eq_true, decide_eq_true_eq]
  constructor
  case mp =>
    rintro ⟨q, hq, hregion⟩
    rw [mem_pagesIn, ← pieces_covers, any_eq_true] at hq
    obtain ⟨piece, hpiece, hcovers⟩ := hq
    rw [RegionPiece.covers, Bool.and_eq_true, decide_eq_true_eq] at hcovers
    exact ⟨piece, hpiece, hregion.symm.trans hcovers.1⟩
  case mpr =>
    rintro ⟨piece, hpiece, hregion⟩
    have hpos := (pieces_valid h piece hpiece).window.pos
    have hinside := (pieces_valid h piece hpiece).window.inside
    refine ⟨1024 * piece.pageIndex + piece.pageOffset / 4096, ?_, by omega⟩
    rw [mem_pagesIn, ← pieces_covers]
    refine any_eq_true.mpr ⟨piece, hpiece, ?_⟩
    rw [RegionPiece.covers, Bool.and_eq_true, decide_eq_true_eq, inWindow, decide_eq_true_eq,
      firstPage, endPage]
    omega

/-- The pages that an operation changes. -/
def opPages : TrackerOp → Nat → Bool
  | .markRegionAsCpuModified addr size | .unmarkRegionAsCpuModified addr size
  | .markRegionAsGpuModified addr size | .unmarkRegionAsGpuModified addr size
  | .markRegionAsPreflushable addr size | .unmarkRegionAsPreflushable addr size
  | .cachedCpuWrite addr size | .forEachUploadRange addr size
  | .forEachDownloadRange addr size _ | .forEachDownloadRangeAndClear addr size =>
    overlaps addr size
  | .flushCachedWritesIn addr size => fun p => (pieces addr size).any (touched wholeRegion · p)
  | .flushCachedWrites => fun _ => true
  | _ => fun _ => false

/-- How an operation changes a page. -/
def opBits : TrackerOp → PageBits → PageBits
  | .markRegionAsCpuModified _ _ => changeBits .cpu true
  | .unmarkRegionAsCpuModified _ _ => changeBits .cpu false
  | .markRegionAsGpuModified _ _ => changeBits .gpu true
  | .unmarkRegionAsGpuModified _ _ => changeBits .gpu false
  | .markRegionAsPreflushable _ _ => changeBits .preflushable true
  | .unmarkRegionAsPreflushable _ _ => changeBits .preflushable false
  | .cachedCpuWrite _ _ => changeBits .cachedCpu true
  | .forEachUploadRange _ _ => sweepBits .cpu true
  | .forEachDownloadRange _ _ clear => sweepBits .gpu clear
  | .forEachDownloadRangeAndClear _ _ => sweepBits .gpu true
  | .flushCachedWritesIn _ _ | .flushCachedWrites => flushBits
  | _ => id

/-- What one operation does: it changes its pages, and it answers what the sets say. -/
structure OpSpec (op : TrackerOp) (t : MemoryTracker) (result : MemoryTracker × Answer) : Prop where
  changes : Changes (opPages op) (opBits op) t result.1
  wellFormed : WellFormed result.1
  answers : t.sets.Answers op result.2

theorem Same.changes (h : Same t t') (f : PageBits → PageBits) : Changes (fun _ => false) f t t' :=
  ⟨h.bits, fun p => by rw [h.counts, h.bits]⟩

variable {op : RegionOp} {f : PageBits → PageBits} {reported : PageBits → Bool} {create : Bool}

/-- A loop over the pieces of a range with the windows of the pieces. -/
theorem iterateRegions_range (h : WellFormed t) (hbound : InBounds addr size)
    (hop : RegionSpec op inWindow f reported) (hskips : Skips create f reported) :
    Effect (overlaps addr size) f reported t (iterateRegions create op t (pieces addr size)) := by
  have heffect := iterateRegions_effect hop hskips h (pieces_valid hbound) (pieces_ascending hbound)
  simp only [touched_inWindow, pieces_covers] at heffect
  exact heffect

/-- A loop whose function reports nothing. -/
theorem Effect.silent {result : MemoryTracker × List (Nat × Nat)}
    (h : Effect R f (fun _ => false) t result) : result.2 = [] := by
  obtain ⟨runs, hruns, hreports⟩ := h.reports
  cases runs with
  | nil => exact hreports
  | cons r runs => exact absurd (hruns.ends_mem mem_cons_self).1.2 Bool.false_ne_true

/-- A loop whose function reports the modified pages of a range. -/
theorem Effect.found {result : MemoryTracker × List (Nat × Nat)}
    (h : Effect (overlaps addr size) f (modified state) t result)
    (hS : ∀ p, p ∈ S ↔ modified state (t.bits p) = true) :
    PageSets.Reports (pagesIn addr size ∩ S) (.reports result.2) := by
  obtain ⟨runs, hruns, hreports⟩ := h.reports
  refine ⟨runs, hruns.congr fun p => ?_, congrArg Answer.reports hreports⟩
  rw [Set.mem_inter_iff, mem_pagesIn, hS]
  exact .rfl

theorem mem_cpu : p ∈ t.sets.cpu ↔ modified .cpu (t.bits p) = true := by
  simp [sets, modified]

theorem mem_gpu : p ∈ t.sets.gpu \ t.sets.untracked ↔ modified .gpu (t.bits p) = true := by
  simp [sets, modified]

theorem mem_preflushable : p ∈ t.sets.preflushable ↔ modified .preflushable (t.bits p) = true := by
  simp [sets, modified]

/-- A query for a truth value. -/
theorem query_spec (create : Bool) (h : WellFormed t)
    (hbound : InBounds addr size) (hskips : create = false → modified state initialBits = false)
    (hS : ∀ p, p ∈ S ↔ modified state (t.bits p) = true) :
    Same t (anyRegion create (·.isRegionModified state) t (pieces addr size)).1 ∧
      ∃ flag, Answer.flag
          (anyRegion create (·.isRegionModified state) t (pieces addr size)).2 = .flag flag ∧
        (flag = true ↔ (pagesIn addr size ∩ S).Nonempty) := by
  obtain ⟨hsame, hanswer⟩ := anyRegion_spec hskips h (pieces_valid hbound)
  refine ⟨hsame, _, rfl, hanswer.trans ?_⟩
  simp only [pieces_covers, Set.Nonempty, Set.mem_inter_iff, mem_pagesIn, hS]

/-- A query for a range. -/
theorem pairs_spec (create : Bool) (h : WellFormed t)
    (hbound : InBounds addr size) (hskips : create = false → modified state initialBits = false)
    (hS : ∀ p, p ∈ S ↔ modified state (t.bits p) = true) :
    Same t (t.iteratePairs create (·.modifiedRegion state) addr size).1 ∧
      ∃ range, Answer.range (t.iteratePairs create (·.modifiedRegion state) addr size).2 =
          .range range ∧ Spans (pagesIn addr size ∩ S) range := by
  obtain ⟨hsame, hspans⟩ := iteratePairs_spec hskips h hbound
  have hset : pagesIn addr size ∩ S =
      {p | overlaps addr size p = true ∧ modified state (t.bits p) = true} := by
    ext p
    rw [Set.mem_inter_iff, mem_pagesIn, hS]
    exact .rfl
  refine ⟨hsame, _, rfl, ?_⟩
  rw [hset]
  exact hspans

theorem skips_true : Skips true f reported := fun h => by cases h

theorem sweep_gpu_skips (clear : Bool) : Skips false (sweepBits .gpu clear) (modified .gpu) := by
  refine fun _ => ⟨?_, rfl⟩
  cases clear with
  | false => rfl
  | true =>
    have huntracked : initialBits .untracked = true := rfl
    rw [sweepBits, if_pos rfl, clearBits, if_pos ⟨rfl, huntracked⟩]

/-- An operation that changes the pages of a range and reports nothing. -/
theorem change_spec {o : TrackerOp} (h : WellFormed t) (hbound : InBounds addr size)
    (hop : RegionSpec op inWindow f fun _ => false) (hpages : opPages o = overlaps addr size)
    (hbits : opBits o = f) (hanswer : t.sets.Answers o (.reports [])) :
    OpSpec o t ((iterateRegions true op t (pieces addr size)).1,
      .reports (iterateRegions true op t (pieces addr size)).2) := by
  have heffect := iterateRegions_range h hbound hop skips_true
  constructor
  case changes =>
    rw [hpages, hbits]
    exact heffect.changes
  case wellFormed => exact heffect.wellFormed
  case answers =>
    rw [heffect.silent]
    exact hanswer

theorem perform_spec (o : TrackerOp) (h : WellFormed t) (hbound : o.InBounds) :
    OpSpec o t (t.perform o) := by
  cases o with
  | modifiedCpuRegion addr size =>
    have hquery := pairs_spec true h hbound (by simp) fun _ => mem_cpu
    exact ⟨hquery.1.changes _, hquery.1.wellFormed, hquery.2⟩
  | modifiedGpuRegion addr size =>
    have hquery := pairs_spec false h hbound (fun _ => rfl) fun _ => mem_gpu
    exact ⟨hquery.1.changes _, hquery.1.wellFormed, hquery.2⟩
  | isRegionCpuModified addr size =>
    have hquery := query_spec true h hbound (by simp) fun _ => mem_cpu
    exact ⟨hquery.1.changes _, hquery.1.wellFormed, hquery.2⟩
  | isRegionGpuModified addr size =>
    have hquery := query_spec false h hbound (fun _ => rfl) fun _ => mem_gpu
    exact ⟨hquery.1.changes _, hquery.1.wellFormed, hquery.2⟩
  | isRegionPreflushable addr size =>
    have hquery := query_spec false h hbound (fun _ => rfl) fun _ => mem_preflushable
    exact ⟨hquery.1.changes _, hquery.1.wellFormed, hquery.2⟩
  | markRegionAsCpuModified addr size =>
    exact change_spec h hbound (changeRegion_spec .cpu true (by decide) (by decide)) rfl rfl rfl
  | unmarkRegionAsCpuModified addr size =>
    exact change_spec h hbound (changeRegion_spec .cpu false (by decide) (by decide)) rfl rfl rfl
  | markRegionAsGpuModified addr size =>
    exact change_spec h hbound (changeRegion_spec .gpu true (by decide) (by decide)) rfl rfl rfl
  | unmarkRegionAsGpuModified addr size =>
    exact change_spec h hbound (changeRegion_spec .gpu false (by decide) (by decide)) rfl rfl rfl
  | markRegionAsPreflushable addr size =>
    exact change_spec h hbound (changeRegion_spec .preflushable true (by decide) (by decide)) rfl rfl rfl
  | unmarkRegionAsPreflushable addr size =>
    exact change_spec h hbound (changeRegion_spec .preflushable false (by decide) (by decide)) rfl rfl rfl
  | cachedCpuWrite addr size =>
    exact change_spec h hbound cacheRegion_spec rfl rfl rfl
  | flushCachedWritesIn addr size =>
    have heffect := iterateRegions_effect flushRegion_spec flush_skips h (pieces_valid hbound)
      (pieces_ascending hbound)
    exact ⟨heffect.changes, heffect.wellFormed, congrArg Answer.reports heffect.silent⟩
  | flushCachedWrites =>
    obtain ⟨hchanges, hwell⟩ := flushCachedWrites_changes h
    exact ⟨hchanges, hwell, rfl⟩
  | forEachUploadRange addr size =>
    have heffect := iterateRegions_range h hbound
      (sweepRegion_spec .cpu true (by decide) (by decide)) skips_true
    exact ⟨heffect.changes, heffect.wellFormed, heffect.found fun _ => mem_cpu⟩
  | forEachDownloadRange addr size clear =>
    have heffect := iterateRegions_range h hbound
      (sweepRegion_spec .gpu clear (by decide) (by decide)) (sweep_gpu_skips clear)
    exact ⟨heffect.changes, heffect.wellFormed, heffect.found fun _ => mem_gpu⟩
  | forEachDownloadRangeAndClear addr size =>
    have heffect := iterateRegions_range h hbound
      (sweepRegion_spec .gpu true (by decide) (by decide)) (sweep_gpu_skips true)
    exact ⟨heffect.changes, heffect.wellFormed, heffect.found fun _ => mem_gpu⟩

/-! ## Runs -/

theorem has_sets (p : Nat) (state : PageState) : t.sets.has p state ↔ t.bits p state = true := by
  cases state <;> exact .rfl

theorem sets_eq {s : PageSets} (h : ∀ p state, t.bits p state = true ↔ s.has p state) :
    t.sets = s := by
  ext p
  case cpu => exact h p .cpu
  case gpu => exact h p .gpu
  case cachedCpu => exact h p .cachedCpu
  case untracked => exact h p .untracked
  case preflushable => exact h p .preflushable

theorem changes_clearCpu (hS : ∀ p, p ∈ S ↔ R p = true)
    (h : Changes R (changeBits .cpu false) t t') : t'.sets = t.sets.clearCpu S := by
  refine sets_eq fun p state => ?_
  rw [h.bits]
  by_cases hp : R p = true
  · cases state <;> simp [PageSets.has, PageSets.clearCpu, hS, hp, changeBits, PageState.notifies,
      sets]
  · cases state <;> simp [PageSets.has, PageSets.clearCpu, hS, hp, sets]

theorem changes_flush (hS : ∀ p, p ∈ S ↔ R p = true)
    (h : Changes R flushBits t t') : t'.sets = t.sets.flush S := by
  refine sets_eq fun p state => ?_
  rw [h.bits]
  by_cases hp : R p = true
  · cases state <;> simp [PageSets.has, PageSets.flush, hS, hp, flushBits, sets]
  · cases state <;> simp [PageSets.has, PageSets.flush, hS, hp, sets]

theorem changes_clearGpu (hS : ∀ p, p ∈ S ↔ R p = true) (h : Changes R (sweepBits .gpu true) t t') :
    t'.sets = { t.sets with gpu := t.sets.gpu \ (S \ t.sets.untracked) } := by
  refine sets_eq fun p state => ?_
  rw [h.bits]
  by_cases hp : R p = true
  · cases hu : t.bits p .untracked <;> cases state <;>
      simp [PageSets.has, hS, hp, sweepBits, clearBits, changeBits, PageState.notifies, sets, hu]
  · cases state <;> simp [PageSets.has, hS, hp, sets]

theorem step_sets (o : TrackerOp) (hbound : o.InBounds)
    (hchanges : Changes (opPages o) (opBits o) t t') : t'.sets = t.sets.step o := by
  cases o with
  | unmarkRegionAsCpuModified addr size => exact changes_clearCpu (fun _ => mem_pagesIn) hchanges
  | forEachUploadRange addr size => exact changes_clearCpu (fun _ => mem_pagesIn) hchanges
  | flushCachedWritesIn addr size => exact changes_flush (fun _ => mem_regionsIn hbound) hchanges
  | flushCachedWrites => exact changes_flush (fun _ => by simp [opPages]) hchanges
  | forEachDownloadRangeAndClear addr size =>
    exact changes_clearGpu (fun _ => mem_pagesIn) hchanges
  | forEachDownloadRange addr size clear =>
    cases clear with
    | true => exact changes_clearGpu (fun _ => mem_pagesIn) hchanges
    | false =>
      refine sets_eq fun p state => ?_
      rw [hchanges.bits, PageSets.step, if_neg Bool.false_ne_true, has_sets]
      exact .of_eq (congrArg (fun b : PageBits => b state = true) (ite_self _))
  | markRegionAsCpuModified addr size | markRegionAsGpuModified addr size
  | unmarkRegionAsGpuModified addr size | markRegionAsPreflushable addr size
  | unmarkRegionAsPreflushable addr size | cachedCpuWrite addr size =>
    refine sets_eq fun p state => ?_
    rw [hchanges.bits]
    by_cases hp : overlaps addr size p = true
    · cases state <;> simp [PageSets.has, PageSets.step, opPages, opBits, mem_pagesIn, hp,
        changeBits, PageState.notifies, sets]
    · cases state <;> simp [PageSets.has, PageSets.step, opPages, mem_pagesIn, hp, sets]
  | _ =>
    refine sets_eq fun p state => ?_
    rw [hchanges.bits]
    exact (has_sets p state).symm

theorem wellFormed_initial : WellFormed MemoryTracker.initial :=
  ⟨fun _ _ hm => (Option.some_ne_none _ hm.symm).elim, fun _ hp => absurd hp Bool.false_ne_true,
    fun _ hi => absurd hi not_mem_nil⟩

theorem sets_initial : MemoryTracker.initial.sets = PageSets.initial := by
  refine sets_eq fun p state => ?_
  cases state with
  | cpu => exact iff_of_true rfl (Set.mem_univ p)
  | untracked => exact iff_of_true rfl (Set.mem_univ p)
  | gpu => exact iff_of_false Bool.false_ne_true (Set.notMem_empty p)
  | cachedCpu => exact iff_of_false Bool.false_ne_true (Set.notMem_empty p)
  | preflushable => exact iff_of_false Bool.false_ne_true (Set.notMem_empty p)

/-- The tracker after a run of operations. -/
def run (ops : List TrackerOp) : MemoryTracker := ops.foldl step .initial

/-- What holds of the tracker after a run, next to the sets of the same run. The count of a page and
the unit of an untracked page add up to 1. -/
structure RunSpec (t : MemoryTracker) (s : PageSets) : Prop where
  wellFormed : WellFormed t
  sets : t.sets = s
  balance : ∀ p, t.counts p + untrackedUnit (t.bits p) = 1

theorem RunSpec.step {s : PageSets} (h : RunSpec t s) {o : TrackerOp} (hbound : o.InBounds) :
    RunSpec (t.step o) (s.step o) := by
  have hspec := perform_spec o h.wellFormed hbound
  refine ⟨hspec.wellFormed, ?_, fun p => (hspec.changes.balance p).trans (h.balance p)⟩
  rw [← h.sets]
  exact step_sets o hbound hspec.changes

theorem run_spec {ops : List TrackerOp} (hops : ∀ o ∈ ops, o.InBounds) :
    RunSpec (run ops) (ops.foldl PageSets.step .initial) := by
  have hloop : ∀ (ops : List TrackerOp) (t : MemoryTracker) (s : PageSets), RunSpec t s →
      (∀ o ∈ ops, o.InBounds) →
        RunSpec (ops.foldl MemoryTracker.step t) (ops.foldl PageSets.step s) := by
    intro ops
    induction ops with
    | nil => exact fun _ _ h _ => h
    | cons o ops ih =>
      intro t s h hops
      exact ih _ _ (h.step (hops o mem_cons_self))
        fun o' ho' => hops o' (mem_cons_of_mem o ho')
  exact hloop ops _ _ ⟨wellFormed_initial, sets_initial, fun _ => rfl⟩ hops

/-- After every run of operations the tracker has the sets of pages that the operations on sets
give, and the answer of every further operation is the one that the sets give. -/
theorem tracker_refines_pageSets {ops : List TrackerOp} (hops : ∀ o ∈ ops, o.InBounds) :
    (run ops).sets = ops.foldl PageSets.step .initial ∧ ∀ o : TrackerOp, o.InBounds →
        (ops.foldl PageSets.step .initial).Answers o ((run ops).perform o).2 := by
  have hspec := run_spec hops
  refine ⟨hspec.sets, fun o ho => ?_⟩
  rw [← hspec.sets]
  exact (perform_spec o hspec.wellFormed ho).answers

/-- A run with ranges over the border between two regions. -/
def borderRun : List TrackerOp :=
  [.unmarkRegionAsCpuModified 0 8388608, .markRegionAsGpuModified 4190208 8192,
    .cachedCpuWrite 4194300 8]

theorem borderRun_inBounds : ∀ o ∈ borderRun, o.InBounds := by
  intro o ho
  simp only [borderRun, mem_cons, not_mem_nil, or_false] at ho
  rcases ho with rfl | rfl | rfl <;> simp only [TrackerOp.InBounds, InBounds] <;> omega

theorem tracker_refines_pageSets_borderRun :
    (run borderRun).sets = borderRun.foldl PageSets.step .initial ∧ ∀ o : TrackerOp, o.InBounds →
        (borderRun.foldl PageSets.step .initial).Answers o ((run borderRun).perform o).2 :=
  tracker_refines_pageSets borderRun_inBounds

end MemoryTracker

end Sudachi.VideoCore
