import Sudachi.VideoCore.MemoryTrackerSets

/-!
# Write protection

The device tracker protects the pages with a count of 1, and those are the ones that are tracked. A
page that the CPU has modified is not protected. A cached write is kept until it is flushed, or until
an operation clears what the CPU has modified (`protection_exact`).
-/

set_option autoImplicit false

namespace Sudachi.VideoCore

open Sudachi.Foundations Sudachi.Foundations.Intervals List

namespace TrackerOp

/-- The operation clears the state of the page that the CPU has modified it. -/
def ClearsCpu (p : Nat) : TrackerOp → Prop
  | .unmarkRegionAsCpuModified addr size | .forEachUploadRange addr size => p ∈ pagesIn addr size
  | _ => False

/-- The operation flushes the cached write of the page. -/
def Flushes (p : Nat) : TrackerOp → Prop
  | .flushCachedWrites => True
  | .flushCachedWritesIn addr size => p ∈ regionsIn addr size
  | _ => False

end TrackerOp

namespace PageSets

variable {s : PageSets} {p : Nat}

/-- The pages that the CPU has modified are not tracked. -/
def Unprotected (s : PageSets) : Prop := s.cpu ⊆ s.untracked

theorem Unprotected.clearCpu (h : s.Unprotected) (R : Set Nat) : (s.clearCpu R).Unprotected :=
  Set.sdiff_subset_sdiff_left h

theorem Unprotected.flush (h : s.Unprotected) (R : Set Nat) : (s.flush R).Unprotected :=
  Set.union_subset_union_left _ h

theorem Unprotected.step (h : s.Unprotected) (o : TrackerOp) : (s.step o).Unprotected := by
  cases o with
  | markRegionAsCpuModified addr size => exact Set.union_subset_union_left _ h
  | cachedCpuWrite addr size => exact h.trans Set.subset_union_left
  | unmarkRegionAsCpuModified addr size => exact h.clearCpu _
  | forEachUploadRange addr size => exact h.clearCpu _
  | flushCachedWritesIn addr size => exact h.flush _
  | flushCachedWrites => exact h.flush _
  | forEachDownloadRange addr size clear =>
    cases clear with
    | true => exact h
    | false => exact h
  | _ => exact h

/-- A write of the CPU to the page is known: the page is modified, or its write is cached. -/
def Written (s : PageSets) (p : Nat) : Prop := p ∈ s.cpu ∨ p ∈ s.cachedCpu

theorem written_cachedCpuWrite {addr size : Nat} (hp : p ∈ pagesIn addr size) :
    (s.step (.cachedCpuWrite addr size)).Written p :=
  .inr (.inr hp)

theorem Written.clearCpu (h : s.Written p) {R : Set Nat} (hp : p ∉ R) :
    (s.clearCpu R).Written p := by
  rcases h with h | h
  · exact .inl ⟨h, hp⟩
  · exact .inr ⟨h, fun hr => hp hr.2⟩

theorem Written.flush (h : s.Written p) (R : Set Nat) : (s.flush R).Written p := by
  rcases h with h | h
  · exact .inl (.inl h)
  · by_cases hp : p ∈ R
    · exact .inl (.inr ⟨h, hp⟩)
    · exact .inr ⟨h, hp⟩

theorem Written.step (h : s.Written p) {o : TrackerOp} (ho : ¬o.ClearsCpu p) :
    (s.step o).Written p := by
  cases o with
  | markRegionAsCpuModified addr size =>
    rcases h with h | h
    · exact .inl (.inl h)
    · by_cases hp : p ∈ pagesIn addr size
      · exact .inl (.inr hp)
      · exact .inr ⟨h, hp⟩
  | cachedCpuWrite addr size => exact h.imp id .inl
  | unmarkRegionAsCpuModified addr size => exact h.clearCpu ho
  | forEachUploadRange addr size => exact h.clearCpu ho
  | flushCachedWritesIn addr size => exact h.flush _
  | flushCachedWrites => exact h.flush _
  | forEachDownloadRange addr size clear =>
    cases clear with
    | true => exact h
    | false => exact h
  | _ => exact h

/-- A flush of the page makes it modified. -/
theorem Written.flushed (h : s.Written p) {o : TrackerOp} (ho : o.Flushes p) :
    p ∈ (s.step o).cpu := by
  cases o with
  | flushCachedWritesIn addr size => exact h.imp id fun hp => ⟨hp, ho⟩
  | flushCachedWrites => exact h.imp id fun hp => ⟨hp, trivial⟩
  | _ => exact ho.elim

theorem Unprotected.run (ops : List TrackerOp) :
    (ops.foldl PageSets.step .initial).Unprotected := by
  have hloop : ∀ (ops : List TrackerOp) (s : PageSets), s.Unprotected →
      (ops.foldl PageSets.step s).Unprotected := by
    intro ops
    induction ops with
    | nil => exact fun _ h => h
    | cons o _ ih => exact fun s h => ih _ (h.step o)
  exact hloop ops _ fun _ _ => trivial

theorem Written.run {ops : List TrackerOp} (h : s.Written p) (hops : ∀ o ∈ ops, ¬o.ClearsCpu p) :
    (ops.foldl PageSets.step s).Written p := by
  induction ops generalizing s with
  | nil => exact h
  | cons o ops ih =>
    exact ih (h.step (hops o mem_cons_self))
      fun o' ho' => hops o' (mem_cons_of_mem o ho')

end PageSets

namespace MemoryTracker

instance (t : MemoryTracker) (p : Nat) : Decidable (p ∈ t.sets.untracked) :=
  inferInstanceAs (Decidable (t.bits p .untracked = true))

/-- In every run the count of a page is 1 if the page is tracked and else 0, and the pages that the
CPU has modified are not tracked. A page with a cached write is reported as modified after the next
flush of it, if no operation between them has cleared it. -/
theorem protection_exact {ops : List TrackerOp} (hops : ∀ o ∈ ops, o.InBounds) :
    (∀ p, (run ops).counts p = if p ∈ (run ops).sets.untracked then 0 else 1) ∧
      (run ops).sets.cpu ⊆ (run ops).sets.untracked ∧
      ∀ (before between : List TrackerOp) (addr size p : Nat) (flush : TrackerOp),
        ops = before ++ [.cachedCpuWrite addr size] ++ between ++ [flush] →
        p ∈ pagesIn addr size → (∀ o ∈ between, ¬o.ClearsCpu p) → flush.Flushes p →
          p ∈ (run ops).sets.cpu ∧ ∀ addr' size', InBounds addr' size' → p ∈ pagesIn addr' size' →
            ((run ops).perform (.isRegionCpuModified addr' size')).2 = .flag true := by
  have hspec := run_spec hops
  refine ⟨fun p => ?_, ?_, ?_⟩
  · have hbalance := hspec.balance p
    rw [untrackedUnit] at hbalance
    have huntracked : p ∈ (run ops).sets.untracked ↔ (run ops).bits p .untracked = true := Iff.rfl
    simp only [huntracked]
    split at hbalance
    case isTrue h => rw [if_pos h]; omega
    case isFalse h => rw [if_neg h]; omega
  · rw [hspec.sets]
    exact PageSets.Unprotected.run ops
  · intro before between addr size p flush hsplit hp hbetween hflush
    have hcpu : p ∈ (run ops).sets.cpu := by
      rw [hspec.sets, hsplit, foldl_append, foldl_append, foldl_append]
      exact ((PageSets.written_cachedCpuWrite hp).run hbetween).flushed hflush
    refine ⟨hcpu, fun addr' size' hbound hp' => ?_⟩
    obtain ⟨flag, hflag, hiff⟩ := (perform_spec (.isRegionCpuModified addr' size') hspec.wellFormed
      hbound).answers
    rw [hflag, hiff.mpr ⟨p, hp', hcpu⟩]

/-- A cached write over the border between two regions, and a flush of one of them. -/
def flushedRun : List TrackerOp :=
  [.unmarkRegionAsCpuModified 0 8388608] ++ [.cachedCpuWrite 4194300 8] ++
    [.markRegionAsGpuModified 4190208 8192] ++ [.flushCachedWritesIn 4194304 1]

theorem flushedRun_inBounds : ∀ o ∈ flushedRun, o.InBounds := by
  intro o ho
  simp only [flushedRun, cons_append, nil_append, mem_cons, not_mem_nil, or_false] at ho
  rcases ho with rfl | rfl | rfl | rfl <;> simp only [TrackerOp.InBounds, InBounds] <;> omega

theorem protection_exact_flushedRun :
    (∀ p, (run flushedRun).counts p = if p ∈ (run flushedRun).sets.untracked then 0 else 1) ∧
      1024 ∈ (run flushedRun).sets.cpu := by
  obtain ⟨hcounts, -, hwrites⟩ := protection_exact flushedRun_inBounds
  have hpage : 1024 ∈ pagesIn 4194300 8 := ⟨by decide, by omega, by omega⟩
  have hregion : 1024 ∈ regionsIn 4194304 1 := ⟨1024, ⟨by decide, by omega, by omega⟩, rfl⟩
  refine ⟨hcounts, (hwrites _ _ _ _ 1024 _ rfl hpage ?_ hregion).1⟩
  intro o ho
  rw [mem_singleton] at ho
  rw [ho]
  exact id

end MemoryTracker

end Sudachi.VideoCore
