import Mathlib.Data.List.Pairwise
import Mathlib.Order.Nat
import Mathlib.Tactic.Common

/-!
# Range sets

`RangeSet` and `OverlapRangeSet` of `common/range_sets.inc`. Both keep their ranges in a container
of `boost::icl`, which is a parameter here, with what its documentation says of it: `IntervalSet` is
an `interval_set`, a set of addresses as a list of disjoint intervals, and `SplitIntervalMap` a
`split_interval_map` with `partial_enricher`, whose segments are cut at the borders of every
interval that is added to it and which keeps segments of value zero. Intervals are right open.
-/

set_option autoImplicit false

namespace Sudachi.Common.RangeSets

open List

/-- A `right_open` interval. -/
structure Interval where
  lower : Nat
  upper : Nat
deriving DecidableEq, Repr

def Interval.Contains (i : Interval) (x : Nat) : Prop := i.lower ≤ x ∧ x < i.upper

instance (i : Interval) (x : Nat) : Decidable (i.Contains x) :=
  inferInstanceAs (Decidable (_ ∧ _))

/-- Two intervals that are not empty have a common address. -/
def Interval.Overlaps (i j : Interval) : Prop := j.lower < i.upper ∧ i.lower < j.upper

instance (i j : Interval) : Decidable (i.Overlaps j) := inferInstanceAs (Decidable (_ ∧ _))

/-- An address at which an interval begins or ends. -/
def Interval.HasBorder (i : Interval) (b : Nat) : Prop := b = i.lower ∨ b = i.upper

/-- A segment of a map: an interval and the value that its addresses share. -/
structure Segment extends Interval where
  value : Int
deriving DecidableEq, Repr

/-- The intervals of a list are not empty and stand in ascending order. -/
structure Ordered {α : Type} (interval : α → Interval) (xs : List α) : Prop where
  nonempty : ∀ x ∈ xs, (interval x).lower < (interval x).upper
  ascending : xs.Pairwise (fun x y => (interval x).upper ≤ (interval y).lower)

/-- `boost::icl::interval_set`, with the order of its iteration. -/
structure IntervalSet (S : Type) where
  empty : S
  add : S → Interval → S
  subtract : S → Interval → S
  intervals : S → List Interval
  intervals_empty : intervals empty = []
  ordered : ∀ s, Ordered id (intervals s)
  mem_add : ∀ s i x, (∃ j ∈ intervals (add s i), j.Contains x) ↔
    i.Contains x ∨ ∃ j ∈ intervals s, j.Contains x
  mem_subtract : ∀ s i x, (∃ j ∈ intervals (subtract s i), j.Contains x) ↔
    ¬i.Contains x ∧ ∃ j ∈ intervals s, j.Contains x
  /-- Borders come from the operands. -/
  border_add : ∀ s i, ∀ j ∈ intervals (add s i), ∀ b, j.HasBorder b →
    i.HasBorder b ∨ ∃ k ∈ intervals s, k.HasBorder b
  border_subtract : ∀ s i, ∀ j ∈ intervals (subtract s i), ∀ b, j.HasBorder b →
    i.HasBorder b ∨ ∃ k ∈ intervals s, k.HasBorder b

/-- The value of a list of segments at an address. -/
def valueAt (segments : List Segment) (x : Nat) : Option Int :=
  (segments.find? (fun it => it.Contains x)).map Segment.value

/-- `boost::icl::split_interval_map` with `partial_enricher` and `inplace_plus`. -/
structure SplitIntervalMap (M : Type) where
  empty : M
  /-- `+=` of a pair of an interval and a value. -/
  add : M → Interval → Int → M
  /-- `erase` of the segment at an iterator. -/
  erase : M → Segment → M
  segments : M → List Segment
  segments_empty : segments empty = []
  ordered : ∀ s, Ordered Segment.toInterval (segments s)
  /-- Values are added up where there is one, and put in where there is none. -/
  valueAt_add : ∀ s i amount x, valueAt (segments (add s i amount)) x =
    if i.Contains x then some (amount + (valueAt (segments s) x).getD 0)
    else valueAt (segments s) x
  /-- No segment reaches across a border of what was added. -/
  split_add : ∀ s i amount, i.lower < i.upper → ∀ it ∈ segments (add s i amount),
    i.lower ≤ it.lower ∧ it.upper ≤ i.upper ∨ it.upper ≤ i.lower ∨ i.upper ≤ it.lower
  border_add : ∀ s i amount, ∀ it ∈ segments (add s i amount), ∀ b, it.HasBorder b →
    i.HasBorder b ∨ ∃ k ∈ segments s, k.HasBorder b
  segments_erase : ∀ s it, segments (erase s it) = (segments s).erase it

/-! ## `RangeSet` -/

namespace RangeSet

variable {S : Type} (I : IntervalSet S)

def add (s : S) (baseAddress size : Nat) : S := I.add s ⟨baseAddress, baseAddress + size⟩

def subtract (s : S) (baseAddress size : Nat) : S :=
  I.subtract s ⟨baseAddress, baseAddress + size⟩

/-- The arguments of the calls that `ForEach` makes, in order. -/
def forEach (s : S) : List Interval := I.intervals s

end RangeSet

/-! ## `OverlapRangeSet` -/

namespace OverlapRangeSet

variable {M : Type} (N : SplitIntervalMap M)

/-- The segments from `lower_bound` on, the first that does not lie before the interval, up to
`upper_bound`, the first that lies behind it. -/
def fromLowerToUpperBound (segments : List Segment) (i : Interval) : List Segment :=
  (segments.dropWhile (fun it => it.upper ≤ i.lower)).takeWhile (fun it => it.lower < i.upper)

def add (s : M) (baseAddress size : Nat) : M :=
  N.add s ⟨baseAddress, baseAddress + size⟩ 1

/-- The arguments of the calls that `ForEachInRange` makes, in order. -/
def forEachInRange (s : M) (baseAddress size : Nat) : List Segment :=
  let i : Interval := ⟨baseAddress, baseAddress + size⟩
  (fromLowerToUpperBound (N.segments s) i).map (fun it =>
    { lower := if it.lower < i.lower then i.lower else it.lower
      upper := if it.upper > i.upper then i.upper else it.upper
      value := it.value })

theorem mem_of_mem_fromLowerToUpperBound {segments : List Segment} {i : Interval} {it : Segment}
    (h : it ∈ fromLowerToUpperBound segments i) : it ∈ segments :=
  (dropWhile_suffix _).subset (( takeWhile_prefix _).subset h)

/-- The outer loop of `Subtract`: the first segment in the range whose value is not positive is
erased, `on_delete` is called if the value is zero, and the search starts again. The intervals of
the calls, in order, and the map that is left. -/
def removeAll (s : M) (i : Interval) : List Interval × M :=
  match _hfind : (fromLowerToUpperBound (N.segments s) i).find? (fun it => it.value ≤ 0) with
  | none => ([], s)
  | some it =>
    let rest := removeAll (N.erase s it) i
    (if it.value = 0 then it.toInterval :: rest.1 else rest.1, rest.2)
termination_by (N.segments s).length
decreasing_by
  have hit := mem_of_mem_fromLowerToUpperBound (mem_of_find?_eq_some _hfind)
  have hpos := length_pos_of_mem hit
  rw [N.segments_erase, length_erase_of_mem hit]
  omega

/-- `Subtract` of one, with `on_delete`. -/
def subtract (s : M) (baseAddress size : Nat) : List Interval × M :=
  let i : Interval := ⟨baseAddress, baseAddress + size⟩
  if N.segments s = [] then ([], s) else removeAll N (N.add s i (-1)) i

end OverlapRangeSet

/-! ## Ordered lists of intervals -/

section Lists

variable {α : Type} {interval : α → Interval} {xs : List α}

/-- An address is in one interval of an ordered list at most. -/
theorem Ordered.countP_le_one (h : Ordered interval xs) (x : Nat) :
    xs.countP (fun y => (interval y).Contains x) ≤ 1 := by
  induction xs with
  | nil => exact Nat.zero_le 1
  | cons y ys ih =>
    obtain ⟨hfirst, hrest⟩ := pairwise_cons.mp h.ascending
    have hys : Ordered interval ys := ⟨fun z hz => h.nonempty z (mem_cons_of_mem _ hz), hrest⟩
    rw [countP_cons]
    split
    · rename_i hy
      have hin : (interval y).Contains x := by simpa using hy
      have hnone : ys.countP (fun z => (interval z).Contains x) = 0 := by
        rw [countP_eq_zero]
        intro z hz hcontains
        have hz' : (interval z).Contains x := by simpa using hcontains
        have := hfirst z hz
        have := hin.2
        have := hz'.1
        omega
      omega
    · have := ih hys
      omega

/-- Two intervals of an ordered list with a common address are one. -/
theorem Ordered.eq_of_contains (h : Ordered interval xs) {x : Nat} {y z : α} (hy : y ∈ xs)
    (hz : z ∈ xs) (hyx : (interval y).Contains x) (hzx : (interval z).Contains x) : y = z := by
  induction xs with
  | nil => cases hy
  | cons w ws ih =>
    obtain ⟨hfirst, hrest⟩ := pairwise_cons.mp h.ascending
    have hws : Ordered interval ws := ⟨fun v hv => h.nonempty v (mem_cons_of_mem _ hv), hrest⟩
    have hnot : ∀ v ∈ ws, (interval w).Contains x → ¬(interval v).Contains x := by
      intro v hv hw hvx
      have := hfirst v hv
      have := hw.2
      have := hvx.1
      omega
    rcases mem_cons.mp hy with rfl | hy'
    · rcases mem_cons.mp hz with rfl | hz'
      · rfl
      · exact absurd hzx (hnot z hz' hyx)
    · rcases mem_cons.mp hz with rfl | hz'
      · exact absurd hyx (hnot y hy' hzx)
      · exact ih hws hy' hz'

theorem Ordered.countP_eq_one (h : Ordered interval xs) {x : Nat} {y : α} (hy : y ∈ xs)
    (hx : (interval y).Contains x) : xs.countP (fun y => (interval y).Contains x) = 1 := by
  have hle := h.countP_le_one x
  have hpos : 0 < xs.countP (fun y => (interval y).Contains x) :=
    countP_pos_iff.mpr ⟨y, hy, by simpa using hx⟩
  omega

theorem Ordered.sublist {ys : List α} (h : Ordered interval xs) (hys : ys.Sublist xs) :
    Ordered interval ys :=
  ⟨fun y hy => h.nonempty y (hys.subset hy), h.ascending.sublist hys⟩

end Lists

variable {segments : List Segment} {x : Nat}

theorem valueAt_eq_some {v : Int}
    (h : valueAt segments x = some v) : ∃ it ∈ segments, it.Contains x ∧ it.value = v := by
  obtain ⟨it, hit, hv⟩ := Option.map_eq_some_iff.mp h
  exact ⟨it, mem_of_find?_eq_some hit, by simpa using find?_some hit, hv⟩

theorem valueAt_eq_none_iff : valueAt segments x = none ↔ ∀ it ∈ segments, ¬it.Contains x := by
  rw [valueAt, Option.map_eq_none_iff, find?_eq_none]
  simp

/-- The value at an address is that of any segment that contains it. -/
theorem valueAt_eq_of_mem (h : Ordered Segment.toInterval segments) {it : Segment}
    (hit : it ∈ segments) (hx : it.Contains x) : valueAt segments x = some it.value := by
  induction segments with
  | nil => cases hit
  | cons y ys ih =>
    obtain ⟨hfirst, -⟩ := pairwise_cons.mp h.ascending
    rw [valueAt, find?_cons]
    rcases mem_cons.mp hit with rfl | hit
    · simp [hx]
    · have hlt := hfirst it hit
      have hnot : ¬y.Contains x := by
        intro hy
        have := hy.2
        have := hx.1
        omega
      simp only [hnot, decide_false]
      exact ih (h.sublist (sublist_cons_self y ys)) hit

/-! ## What the operations do -/

namespace OverlapRangeSet

/-- In an ordered list the segments between the two bounds are those that overlap. -/
theorem fromLowerToUpperBound_eq_filter {segments : List Segment}
    (h : Ordered Segment.toInterval segments) (i : Interval) :
    fromLowerToUpperBound segments i = segments.filter (fun it => it.Overlaps i) := by
  induction segments with
  | nil => rfl
  | cons y ys ih =>
    obtain ⟨hfirst, -⟩ := pairwise_cons.mp h.ascending
    have hys := h.sublist (sublist_cons_self y ys)
    by_cases hbefore : y.upper ≤ i.lower
    · have hnot : ¬y.Overlaps i := by
        intro hoverlaps
        have := hoverlaps.1
        omega
      rw [fromLowerToUpperBound, dropWhile_cons_of_pos (by simpa using hbefore),
        filter_cons_of_neg (by simpa using hnot)]
      exact ih hys
    · rw [fromLowerToUpperBound, dropWhile_cons_of_neg (by simpa using hbefore)]
      -- from the lower bound on, all that lies before the upper bound overlaps
      have hafter : ∀ zs : List Segment, Ordered Segment.toInterval zs →
          (∀ z ∈ zs, i.lower < z.upper) →
          zs.takeWhile (fun it => it.lower < i.upper) = zs.filter (fun it => it.Overlaps i) := by
        intro zs hzs hlower
        induction zs with
        | nil => rfl
        | cons z zs ihz =>
          obtain ⟨hz, _⟩ := pairwise_cons.mp hzs.ascending
          have hzlower := hlower z mem_cons_self
          by_cases hin : z.lower < i.upper
          · rw [takeWhile_cons_of_pos (by simpa using hin),
              filter_cons_of_pos (by simpa using ⟨hzlower, hin⟩)]
            rw [ihz (hzs.sublist (sublist_cons_self z zs))
              (fun w hw => hlower w (mem_cons_of_mem _ hw))]
          · have hnone : ∀ w ∈ z :: zs, ¬w.Overlaps i := by
              intro w hw hoverlaps
              have hwin := hoverlaps.2
              rcases mem_cons.mp hw with rfl | hw
              · exact hin hwin
              · have := hz w hw
                have := hzs.nonempty z mem_cons_self
                omega
            rw [takeWhile_cons_of_neg (by simpa using hin),
              filter_eq_nil_iff.mpr (by simpa using hnone)]
      refine hafter (y :: ys) h ?_
      intro z hz
      rcases mem_cons.mp hz with rfl | hz
      · omega
      · have := hfirst z hz
        have := h.nonempty z (mem_cons_of_mem _ hz)
        omega

variable {M : Type} {N : SplitIntervalMap M}

/-- The loop calls `on_delete` once for each segment of value zero that overlaps the range, in
order, and erases those and the ones of negative value. -/
theorem removeAll_spec (s : M) (i : Interval) : (removeAll N s i).1 = ((N.segments s).filter
        (fun it => it.Overlaps i && it.value = 0)).map Segment.toInterval ∧
      N.segments (removeAll N s i).2 =
        (N.segments s).filter (fun it => !(it.Overlaps i && it.value ≤ 0)) := by
  induction hn : (N.segments s).length generalizing s with
  | zero =>
    have hempty : N.segments s = [] := length_eq_zero_iff.mp hn
    rw [removeAll]
    split
    · simp [hempty]
    · rename_i it hfind
      have hit := mem_of_mem_fromLowerToUpperBound (mem_of_find?_eq_some hfind)
      rw [hempty] at hit
      cases hit
  | succ n ih =>
    rw [removeAll]
    split
    · rename_i hfind
      rw [fromLowerToUpperBound_eq_filter (N.ordered s) i, find?_filter, find?_eq_none] at hfind
      have hnone : ∀ it ∈ N.segments s, ¬(it.Overlaps i ∧ it.value ≤ 0) := by
        simpa using hfind
      constructor
      · rw [filter_eq_nil_iff.mpr, map_nil]
        intro it hit hboth
        simp only [Bool.and_eq_true, decide_eq_true_eq] at hboth
        exact hnone it hit ⟨hboth.1, by omega⟩
      · rw [filter_eq_self.mpr]
        intro it hit
        simpa [imp_iff_not_or] using hnone it hit
    · rename_i it hfind
      rw [fromLowerToUpperBound_eq_filter (N.ordered s) i, find?_filter] at hfind
      have hpos : it.Overlaps i ∧ it.value ≤ 0 := by simpa using find?_some hfind
      obtain ⟨before, after, hsplit, hbefore⟩ := find?_eq_some_iff_append.mp hfind |>.2
      have hnotin : it ∉ before := by
        intro hin
        have hnot := hbefore it hin
        simp [hpos.1, hpos.2] at hnot
      have herase : N.segments (N.erase s it) = before ++ after := by
        rw [N.segments_erase, hsplit, erase_append_right _ hnotin, erase_cons_head]
      have hlength : (N.segments (N.erase s it)).length = n := by
        rw [herase]
        rw [hsplit, length_append, length_cons] at hn
        rw [length_append]
        omega
      obtain ⟨hcalls, hleft⟩ := ih (N.erase s it) hlength
      have hbefore' : ∀ y ∈ before, ¬(y.Overlaps i ∧ y.value ≤ 0) := by
        intro y hy
        simpa [imp_iff_not_or] using hbefore y hy
      have hnone : before.filter (fun y => y.Overlaps i && y.value = 0) = [] := by
        rw [filter_eq_nil_iff]
        intro y hy hboth
        simp only [Bool.and_eq_true, decide_eq_true_eq] at hboth
        exact hbefore' y hy ⟨hboth.1, by omega⟩
      constructor
      · simp only [hcalls, herase, hsplit, filter_append, hnone, nil_append, filter_cons]
        by_cases hzero : it.value = 0 <;> simp [hzero, hpos.1]
      · simp only [hleft, herase, hsplit, filter_append, filter_cons]
        simp [hpos.1, hpos.2]

end OverlapRangeSet

end Sudachi.Common.RangeSets
