import Sudachi.Common.RangeSetsLists
import Sudachi.Service.HeapMapper

/-!
# The heap mapper maps exactly what is covered

`Invariant` says that the split map counts the handles over every address. From it follows what
the calls of an operation touch: the temporary set of `Map` is the part of the range that no handle
covers, and the segments that `Unmap` deletes are the part that none covers any more.
-/

set_option autoImplicit false

namespace Sudachi.Service

open Common Common.RangeSets Core.DeviceMemory Foundations.Runs List Or
open OverlapRangeSet (forEachInRange)

namespace HeapMapper

variable {S M : Type} {I : IntervalSet S} {N : SplitIntervalMap M} {h : HeapMapper}

/-- An interval of pages inside the heap. -/
structure InHeap (h : HeapMapper) (i : Interval) : Prop where
  lower_aligned : i.lower % pageSize = 0
  upper_aligned : i.upper % pageSize = 0
  nonempty : i.lower < i.upper
  le_lower : h.vaddress ≤ i.lower
  upper_le : i.upper ≤ h.vaddress + h.size

/-! ## The pages of a call -/

section Pages

variable {i : Interval}
variable {page : Nat}

theorem shiftRight_pageBits (n : Nat) : n >>> pageBits = n / pageSize := by
  rw [Nat.shiftRight_eq_div_pow, pageSize]

theorem pageSize_pos : 0 < pageSize := by decide

/-- The first page and the number of pages of an interval of the heap. -/
theorem InHeap.pages (hi : h.InHeap i) : ∃ first count,
    i.lower = h.vaddress + first * pageSize ∧ i.upper - i.lower = count * pageSize ∧
      (h.daddress + (i.lower - h.vaddress)) >>> pageBits = h.devicePage first ∧
      (h.vaddress + (i.lower - h.vaddress)) >>> pageBits = (h.vaddress >>> pageBits) + first ∧
      pageCount (i.upper - i.lower) = count := by
  have hdvd := h.vaddress_aligned
  obtain ⟨hlower, hupper, hlt, hle, _⟩ := hi
  have hoffset : (i.lower - h.vaddress) % pageSize = 0 := by
    rw [← Nat.dvd_iff_mod_eq_zero] at *
    exact Nat.dvd_sub hlower hdvd
  have hsize : (i.upper - i.lower) % pageSize = 0 := by
    rw [← Nat.dvd_iff_mod_eq_zero] at *
    exact Nat.dvd_sub hupper hlower
  obtain ⟨first, hfirst⟩ := Nat.dvd_of_mod_eq_zero hoffset
  obtain ⟨count, hcount⟩ := Nat.dvd_of_mod_eq_zero hsize
  rw [mul_comm] at hfirst hcount
  refine ⟨first, count, by omega, hcount, ?_, ?_, ?_⟩
  · rw [hfirst, shiftRight_pageBits, Nat.add_mul_div_right _ _ pageSize_pos, devicePage,
      shiftRight_pageBits]
  · rw [hfirst, shiftRight_pageBits, Nat.add_mul_div_right _ _ pageSize_pos, shiftRight_pageBits]
  · rw [pageCount, alignUp_eq_of_dvd (Nat.dvd_of_mod_eq_zero hsize), hcount, shiftRight_pageBits,
      Nat.mul_div_cancel _ pageSize_pos]

theorem add_mul_lt_iff {a first count : Nat} (page : Nat) (hlower : i.lower = a + first * pageSize)
    (hsize : i.upper - i.lower = count * pageSize) (hlt : i.lower < i.upper) :
    i.Contains (a + page * pageSize) ↔ first ≤ page ∧ page < first + count := by
  have hupper : i.upper = a + (first + count) * pageSize := by
    rw [add_mul]
    omega
  rw [Interval.Contains, hlower, hupper, Nat.add_le_add_iff_left, Nat.add_lt_add_iff_left,
    Nat.mul_le_mul_right_iff pageSize_pos, Nat.mul_lt_mul_right pageSize_pos]

theorem apply_of_not_touches {call : DeviceCall} (htouches : ¬call.Touches page)
    (table : Nat → Option Nat) : DeviceCall.apply table call page = table page := by
  simp only [DeviceCall.apply]
  rw [if_neg htouches]

/-- A call touches the page of the heap that its interval contains. -/
theorem touches_mapCall (hi : h.InHeap i) (page : Nat) :
    (h.mapCall i).Touches (h.devicePage page) ↔ i.Contains (h.vaddress + page * pageSize) := by
  obtain ⟨first, count, hlower, hsize, hdevice, _, hcount⟩ := hi.pages
  rw [mapCall, DeviceCall.Touches, hdevice, hcount, add_mul_lt_iff page hlower hsize hi.nonempty,
    devicePage, devicePage]
  omega

theorem touches_unmapCall (hi : h.InHeap i) (page : Nat) :
    (h.unmapCall i).Touches (h.devicePage page) ↔ i.Contains (h.vaddress + page * pageSize) :=
  touches_mapCall hi page

/-- What a call touches is a page of the heap. -/
theorem touches_inHeap (hi : h.InHeap i) (htouches : (h.mapCall i).Touches page) :
    ∃ p, p * pageSize < h.size ∧ page = h.devicePage p := by
  obtain ⟨first, count, hlower, hsize, hdevice, _, hcount⟩ := hi.pages
  rw [mapCall, DeviceCall.Touches, hdevice, hcount] at htouches
  obtain ⟨hle, hlt⟩ := htouches
  rw [devicePage] at hle hlt
  refine ⟨page - (h.daddress >>> pageBits), ?_, ?_⟩
  · have hcontains := (add_mul_lt_iff (page - (h.daddress >>> pageBits)) hlower hsize
      hi.nonempty).mpr ⟨by omega, by omega⟩
    have := hcontains.2
    have := hi.upper_le
    omega
  · rw [devicePage]
    omega

theorem apply_mapCall (hi : h.InHeap i) (table : Nat → Option Nat)
    (htouches : (h.mapCall i).Touches (h.devicePage page)) :
    DeviceCall.apply table (h.mapCall i) (h.devicePage page) =
      some ((h.vaddress >>> pageBits) + page) := by
  obtain ⟨first, count, hlower, hsize, hdevice, hvirtual, hcount⟩ := hi.pages
  simp only [DeviceCall.apply]
  rw [if_pos htouches]
  rw [mapCall, DeviceCall.Touches, hdevice, hcount, devicePage, devicePage] at htouches
  simp only [mapCall, hdevice, hvirtual, devicePage]
  congr 1
  omega

end Pages

/-! ## The calls of an operation -/

section Calls

variable {intervals : List Interval}

/-- The table after calls that all give a page the same entry. -/
theorem foldl_apply {calls : List DeviceCall} {page : Nat} (entry : Option Nat)
    (hentry : ∀ call ∈ calls, call.Touches page → ∀ table, DeviceCall.apply table call page = entry)
    (table : Nat → Option Nat) : calls.foldl DeviceCall.apply table page =
      if ∃ call ∈ calls, call.Touches page then entry else table page := by
  induction calls generalizing table with
  | nil => simp
  | cons call calls ih =>
    rw [foldl_cons, ih (fun c hc => hentry c (mem_cons_of_mem _ hc))]
    by_cases hrest : ∃ c ∈ calls, c.Touches page
    · have hall : ∃ c ∈ call :: calls, c.Touches page := by
        obtain ⟨c, hc, htouches⟩ := hrest
        exact ⟨c, mem_cons_of_mem _ hc, htouches⟩
      rw [if_pos hrest, if_pos hall]
    · rw [if_neg hrest]
      by_cases hfirst : call.Touches page
      · rw [if_pos ⟨call, mem_cons_self, hfirst⟩]
        exact hentry call mem_cons_self hfirst table
      · have hnone : ¬∃ c ∈ call :: calls, c.Touches page := by
          rintro ⟨c, hc, htouches⟩
          rcases mem_cons.mp hc with rfl | hc
          · exact hfirst htouches
          · exact hrest ⟨c, hc, htouches⟩
        rw [if_neg hnone, apply_of_not_touches hfirst]

section

variable (hin : ∀ i ∈ intervals, h.InHeap i)
include hin

theorem exists_touches_mapCall (page : Nat) :
    (∃ call ∈ intervals.map h.mapCall, call.Touches (h.devicePage page)) ↔
      ∃ i ∈ intervals, i.Contains (h.vaddress + page * pageSize) := by
  constructor
  · rintro ⟨call, hcall, htouches⟩
    obtain ⟨i, hi, rfl⟩ := mem_map.mp hcall
    exact ⟨i, hi, (touches_mapCall (hin i hi) page).mp htouches⟩
  · rintro ⟨i, hi, hcontains⟩
    exact ⟨_, mem_map_of_mem hi, (touches_mapCall (hin i hi) page).mpr hcontains⟩

theorem exists_touches_unmapCall (page : Nat) :
    (∃ call ∈ intervals.map h.unmapCall, call.Touches (h.devicePage page)) ↔
      ∃ i ∈ intervals, i.Contains (h.vaddress + page * pageSize) := by
  constructor
  · rintro ⟨call, hcall, htouches⟩
    obtain ⟨i, hi, rfl⟩ := mem_map.mp hcall
    exact ⟨i, hi, (touches_unmapCall (hin i hi) page).mp htouches⟩
  · rintro ⟨i, hi, hcontains⟩
    exact ⟨_, mem_map_of_mem hi, (touches_unmapCall (hin i hi) page).mpr hcontains⟩

theorem table_mapCalls (table : Nat → Option Nat)
    (page : Nat) : (intervals.map h.mapCall).foldl DeviceCall.apply table (h.devicePage page) =
      if ∃ i ∈ intervals, i.Contains (h.vaddress + page * pageSize) then
        some ((h.vaddress >>> pageBits) + page)
      else table (h.devicePage page) := by
  rw [foldl_apply (some ((h.vaddress >>> pageBits) + page))]
  · simp only [exists_touches_mapCall hin]
  · intro call hcall htouches table'
    obtain ⟨i, hi, rfl⟩ := mem_map.mp hcall
    exact apply_mapCall (hin i hi) table' htouches

theorem table_unmapCalls (table : Nat → Option Nat)
    (page : Nat) : (intervals.map h.unmapCall).foldl DeviceCall.apply table (h.devicePage page) =
      if ∃ i ∈ intervals, i.Contains (h.vaddress + page * pageSize) then none
      else table (h.devicePage page) := by
  rw [foldl_apply none]
  · simp only [exists_touches_unmapCall hin]
  · intro call hcall htouches table'
    obtain ⟨i, -, rfl⟩ := mem_map.mp hcall
    simp only [DeviceCall.apply]
    rw [if_pos htouches]
    rfl

end

/-- Calls for intervals of the heap leave the rest of the device alone. -/
theorem table_outside (call : Interval → DeviceCall) (hin : ∀ i ∈ intervals, h.InHeap i)
    (hcall : ∀ i ∈ intervals, ∀ page, (call i).Touches page ↔ (h.mapCall i).Touches page)
    (table : Nat → Option Nat) {page : Nat}
    (hpage : ∀ p, p * pageSize < h.size → page ≠ h.devicePage p) :
    (intervals.map call).foldl DeviceCall.apply table page = table page := by
  have hnone : ∀ i ∈ intervals, ¬(call i).Touches page := by
    intro i hi htouches
    obtain ⟨p, hp, heq⟩ := touches_inHeap (hin i hi) ((hcall i hi page).mp htouches)
    exact hpage p hp heq
  rw [foldl_apply none, if_neg]
  · rintro ⟨c, hc, htouches⟩
    obtain ⟨i, hi, rfl⟩ := mem_map.mp hc
    exact hnone i hi htouches
  · intro c hc htouches
    obtain ⟨i, hi, rfl⟩ := mem_map.mp hc
    exact absurd htouches (hnone i hi)

/-- An address is in one interval of an ordered list, or in none. -/
theorem countP_contains (hordered : Ordered id intervals) (x : Nat) :
    intervals.countP (fun i => i.Contains x) = if ∃ i ∈ intervals, i.Contains x then 1 else 0 := by
  split
  · rename_i hex
    obtain ⟨i, hi, hx⟩ := hex
    exact hordered.countP_eq_one hi hx
  · rename_i hnone
    rw [countP_eq_zero]
    intro i hi hx
    exact hnone ⟨i, hi, by simpa using hx⟩

theorem countP_mapCalls (hin : ∀ i ∈ intervals, h.InHeap i) (hordered : Ordered id intervals)
    (page : Nat) : (intervals.map h.mapCall).countP
        (fun call => call.IsMap ∧ call.Touches (h.devicePage page)) =
      if ∃ i ∈ intervals, i.Contains (h.vaddress + page * pageSize) then 1 else 0 := by
  rw [← countP_contains hordered, countP_map]
  refine countP_congr ?_
  intro i hi
  have htouches := touches_mapCall (hin i hi) page
  simp only [Function.comp_apply, decide_eq_true_eq, htouches]
  exact and_iff_right rfl

theorem countP_unmapCalls (hin : ∀ i ∈ intervals, h.InHeap i) (hordered : Ordered id intervals)
    (page : Nat) : (intervals.map h.unmapCall).countP
        (fun call => ¬call.IsMap ∧ call.Touches (h.devicePage page)) =
      if ∃ i ∈ intervals, i.Contains (h.vaddress + page * pageSize) then 1 else 0 := by
  rw [← countP_contains hordered, countP_map]
  refine countP_congr ?_
  intro i hi
  have htouches := touches_unmapCall (hin i hi) page
  simp only [Function.comp_apply, decide_eq_true_eq, htouches]
  exact and_iff_right (by simp [unmapCall, DeviceCall.IsMap])

theorem countP_unmap_mapCalls (intervals : List Interval) (page : Nat) :
    (intervals.map h.mapCall).countP (fun call => ¬call.IsMap ∧ call.Touches page) = 0 := by
  simp [countP_eq_zero, mapCall, DeviceCall.IsMap]

theorem countP_map_unmapCalls (intervals : List Interval) (page : Nat) :
    (intervals.map h.unmapCall).countP (fun call => call.IsMap ∧ call.Touches page) = 0 := by
  simp [countP_eq_zero, unmapCall, DeviceCall.IsMap]

end Calls

/-! ## The temporary set of `Map` -/

section Temporary

/-- The interval that `Subtract` takes away for a part of a segment. -/
def part (it : Segment) : Interval := ⟨it.lower, it.lower + (it.upper - it.lower)⟩

variable {s : M} {start size b : Nat} {j : Interval}

/-- What `ForEachInRange` gives of a segment is its common part with the range. -/
theorem part_clip {i : Interval} {seg : Segment} (hi : i.lower < i.upper)
    (hseg : seg.lower < seg.upper) (hoverlaps : seg.Overlaps i) :
    part { lower := if seg.lower < i.lower then i.lower else seg.lower
           upper := if seg.upper > i.upper then i.upper else seg.upper
           value := seg.value } =
      ⟨max i.lower seg.lower, min i.upper seg.upper⟩ := by
  obtain ⟨hlower, hupper⟩ := hoverlaps
  simp only [part, Interval.mk.injEq]
  constructor
  · split <;> omega
  · split <;> split <;> omega

theorem mem_forEachInRange (hsize : 0 < size) (j : Interval) :
    (∃ it ∈ forEachInRange N s start size, part it = j) ↔
      ∃ seg ∈ N.segments s, seg.Overlaps ⟨start, start + size⟩ ∧
        j = ⟨max start seg.lower, min (start + size) seg.upper⟩ := by
  have hi : start < start + size := by omega
  simp only [forEachInRange,
    OverlapRangeSet.fromLowerToUpperBound_eq_filter (N.ordered s)]
  constructor
  · rintro ⟨it, hit, rfl⟩
    obtain ⟨seg, hseg, rfl⟩ := mem_map.mp hit
    obtain ⟨hmem, hoverlaps⟩ := mem_filter.mp hseg
    have hoverlaps := of_decide_eq_true hoverlaps
    exact ⟨seg, hmem, hoverlaps,
      part_clip (i := ⟨start, start + size⟩) hi ((N.ordered s).nonempty seg hmem) hoverlaps⟩
  · rintro ⟨seg, hmem, hoverlaps, rfl⟩
    exact ⟨_, mem_map_of_mem (mem_filter.mpr ⟨hmem, decide_eq_true hoverlaps⟩),
      part_clip (i := ⟨start, start + size⟩) hi ((N.ordered s).nonempty seg hmem) hoverlaps⟩

/-- The parts that `ForEachInRange` gives contain what the segments contain of the range. -/
theorem exists_forEachInRange {x : Nat} (hx : (⟨start, start + size⟩ : Interval).Contains x) :
    (∃ it ∈ forEachInRange N s start size, (part it).Contains x) ↔
      ∃ it ∈ N.segments s, it.Contains x := by
  obtain ⟨hle, hlt⟩ := hx
  simp only at hle hlt
  have hsize : 0 < size := by omega
  constructor
  · rintro ⟨it, hit, hpart⟩
    obtain ⟨seg, hseg, _, heq⟩ := (mem_forEachInRange hsize (part it)).mp ⟨it, hit, rfl⟩
    rw [heq] at hpart
    exact ⟨seg, hseg, (le_max_right _ _).trans hpart.1, hpart.2.trans_le (min_le_right _ _)⟩
  · rintro ⟨seg, hseg, hlower, hupper⟩
    have hoverlaps : seg.Overlaps ⟨start, start + size⟩ := ⟨by simp only; omega, by simp only; omega⟩
    obtain ⟨it, hit, heq⟩ := (mem_forEachInRange hsize _).mpr ⟨seg, hseg, hoverlaps, rfl⟩
    refine ⟨it, hit, ?_⟩
    rw [heq]
    exact ⟨max_le hle hlower, lt_min hlt hupper⟩

theorem border_forEachInRange (hsize : 0 < size) {it : Segment}
    (hit : it ∈ forEachInRange N s start size) (hb : (part it).HasBorder b) :
    (⟨start, start + size⟩ : Interval).HasBorder b ∨ ∃ seg ∈ N.segments s, seg.HasBorder b := by
  obtain ⟨seg, hseg, _, heq⟩ := (mem_forEachInRange hsize (part it)).mp ⟨it, hit, rfl⟩
  rw [heq] at hb
  rcases hb with hb | hb
  · rcases max_choice start seg.lower with hmax | hmax
    · exact inl (inl (hb.trans hmax))
    · exact inr ⟨seg, hseg, inl (hb.trans hmax)⟩
  · rcases min_choice (start + size) seg.upper with hmin | hmin
    · exact inl (inr (hb.trans hmin))
    · exact inr ⟨seg, hseg, inr (hb.trans hmin)⟩

theorem mem_foldl_subtract (parts : List Segment) (t : S) (x : Nat) :
    (∃ j ∈ I.intervals (parts.foldl
        (fun t it => RangeSet.subtract I t it.lower (it.upper - it.lower)) t), j.Contains x) ↔
      (∃ j ∈ I.intervals t, j.Contains x) ∧ ¬∃ it ∈ parts, (part it).Contains x := by
  induction parts generalizing t with
  | nil => simp
  | cons it parts ih =>
    rw [foldl_cons, ih, RangeSet.subtract, I.mem_subtract]
    simp only [exists_mem_cons_iff, not_or]
    rw [and_comm (a := ¬_), and_assoc]
    exact .rfl

theorem border_foldl_subtract (parts : List Segment) (t : S) (hj : j ∈ I.intervals (parts.foldl
      (fun t it => RangeSet.subtract I t it.lower (it.upper - it.lower)) t)) (hb : j.HasBorder b) :
    (∃ k ∈ I.intervals t, k.HasBorder b) ∨ ∃ it ∈ parts, (part it).HasBorder b := by
  induction parts generalizing t with
  | nil => exact inl ⟨j, hj, hb⟩
  | cons it parts ih =>
    rcases ih _ hj with ⟨k, hk, hkb⟩ | ⟨it', hit', hb'⟩
    · rcases I.border_subtract t _ k hk b hkb with hfirst | hrest
      · exact inr ⟨it, mem_cons_self, hfirst⟩
      · exact inl hrest
    · exact inr ⟨it', mem_cons_of_mem _ hit', hb'⟩

/-- The temporary set is the part of the range over which there is no segment. -/
theorem mem_newRanges (x : Nat) : (∃ j ∈ I.intervals (newRanges I N s start size), j.Contains x) ↔
      (⟨start, start + size⟩ : Interval).Contains x ∧ valueAt (N.segments s) x = none := by
  have hstart : (∃ j ∈ I.intervals (RangeSet.add I I.empty start size), j.Contains x) ↔
      (⟨start, start + size⟩ : Interval).Contains x := by
    rw [RangeSet.add, I.mem_add, I.intervals_empty]
    simp
  rw [newRanges, mem_foldl_subtract, hstart]
  refine and_congr_right ?_
  intro hx
  rw [exists_forEachInRange hx, valueAt_eq_none_iff]
  simp

theorem border_newRanges (hsize : 0 < size)
    (hj : j ∈ I.intervals (newRanges I N s start size)) (hb : j.HasBorder b) :
    (⟨start, start + size⟩ : Interval).HasBorder b ∨ ∃ seg ∈ N.segments s, seg.HasBorder b := by
  rcases border_foldl_subtract _ _ hj hb with ⟨k, hk, hkb⟩ | ⟨it, hit, hitb⟩
  · rcases I.border_add _ _ k hk b hkb with hfirst | ⟨k', hk', _⟩
    · exact inl hfirst
    · rw [I.intervals_empty] at hk'
      cases hk'
  · exact border_forEachInRange hsize hit hitb

/-- An interval with borders at pages and addresses in a range of the heap lies in the heap. -/
theorem inHeap_of_borders {i : Interval} (hi : h.InHeap i) (hnonempty : j.lower < j.upper)
    (hborders : ∀ b, j.HasBorder b → b % pageSize = 0)
    (hcontains : ∀ x, j.Contains x → i.Contains x) : h.InHeap j := by
  have hfirst := hcontains j.lower ⟨le_rfl, hnonempty⟩
  have hlast := hcontains (j.upper - 1) ⟨by omega, by omega⟩
  have := hi.le_lower
  have := hi.upper_le
  have := hfirst.1
  have := hlast.2
  exact
    { lower_aligned := hborders _ (inl rfl)
      upper_aligned := hborders _ (inr rfl)
      nonempty := hnonempty
      le_lower := by omega
      upper_le := by omega }

end Temporary

/-! ## The invariant -/

/-- The value of the split map at an address with that many handles. -/
def countValue (count : Nat) : Option Int := if count = 0 then none else some count

structure Invariant (N : SplitIntervalMap M) (h : HeapMapper) (k : Machine M) : Prop where
  /-- The split map counts the handles over each address. -/
  counts : ∀ x, valueAt (N.segments k.mappedRanges) x = countValue (coverAt k.live x)
  borders : ∀ it ∈ N.segments k.mappedRanges, ∀ b, it.HasBorder b → b % pageSize = 0
  live : ∀ i ∈ k.live, h.InHeap i
  mapped : CoveredMapped h k

theorem invariant_initial : Invariant N h (Machine.initial N) where
  counts := by
    intro x
    rw [Machine.initial, N.segments_empty]
    rfl
  borders := by
    intro it hit
    rw [Machine.initial, N.segments_empty] at hit
    cases hit
  live := by
    intro i hi
    cases hi
  mapped := ⟨fun _ _ => rfl, fun _ _ => rfl⟩

theorem InHeap.border {i : Interval} (hi : h.InHeap i) {b : Nat} (hb : i.HasBorder b) :
    b % pageSize = 0 := by
  rcases hb with rfl | rfl
  · exact hi.lower_aligned
  · exact hi.upper_aligned

section Mapping

variable {k : Machine M} {start size : Nat}

theorem Allowed.inHeap (hallowed : Allowed h k (.map start size)) :
    h.InHeap ⟨start, start + size⟩ := by
  obtain ⟨hstart, hsize, hpos, hle, hend⟩ := hallowed
  have hupper : (start + size) % pageSize = 0 := by
    rw [Nat.add_mod, hstart, hsize]
    rfl
  exact
    { lower_aligned := hstart
      upper_aligned := hupper
      nonempty := Nat.lt_add_of_pos_right hpos
      le_lower := hle
      upper_le := hend }

theorem Invariant.newRanges_inHeap (hk : Invariant N h k) (hi : h.InHeap ⟨start, start + size⟩) :
    ∀ j ∈ I.intervals (newRanges I N k.mappedRanges start size), h.InHeap j := by
  intro j hj
  have hsize : 0 < size := by
    have := hi.nonempty
    simp only at this
    omega
  refine inHeap_of_borders hi ((I.ordered _).nonempty j hj) ?_ ?_
  · intro b hb
    rcases border_newRanges hsize hj hb with hb | ⟨seg, hseg, hb⟩
    · exact hi.border hb
    · exact hk.borders seg hseg b hb
  · intro x hx
    exact ((mem_newRanges x).mp ⟨j, hj, hx⟩).1

/-- `Map` maps the addresses of the range that no handle covers. -/
theorem Invariant.mem_newRanges (hk : Invariant N h k) (x : Nat) :
    (∃ j ∈ I.intervals (newRanges I N k.mappedRanges start size), j.Contains x) ↔
      (⟨start, start + size⟩ : Interval).Contains x ∧ coverAt k.live x = 0 := by
  rw [HeapMapper.mem_newRanges, hk.counts]
  refine and_congr_right ?_
  intro _
  rw [countValue]
  split <;> simp_all

theorem coverAt_cons (i : Interval) (live : List Interval) (x : Nat) :
    coverAt (i :: live) x = coverAt live x + if i.Contains x then 1 else 0 := by
  rw [coverAt, countP_cons, coverAt]
  simp

theorem Invariant.map (hk : Invariant N h k) (hi : h.InHeap ⟨start, start + size⟩) :
    Invariant N h (k.step I N h (.map start size)) where
  counts := by
    intro x
    change valueAt (N.segments (N.add k.mappedRanges ⟨start, start + size⟩ 1)) x =
      countValue (coverAt (⟨start, start + size⟩ :: k.live) x)
    rw [N.valueAt_add, hk.counts, coverAt_cons]
    split
    · rw [countValue, countValue, if_neg (Nat.succ_ne_zero _)]
      congr 1
      split <;> simp <;> omega
    · rfl
  borders := by
    intro it hit b hb
    rcases N.border_add _ _ _ it hit b hb with hb | ⟨seg, hseg, hb⟩
    · exact hi.border hb
    · exact hk.borders seg hseg b hb
  live := by
    intro i hmem
    rcases mem_cons.mp hmem with rfl | hmem
    · exact hi
    · exact hk.live i hmem
  mapped := by
    have hin := hk.newRanges_inHeap (I := I) hi
    refine ⟨?_, ?_⟩
    · intro page hpage
      change ((I.intervals (newRanges I N k.mappedRanges start size)).map h.mapCall).foldl
        DeviceCall.apply k.table (h.devicePage page) = _
      rw [table_mapCalls hin, hk.mapped.heap page hpage]
      simp only [hk.mem_newRanges, cover]
      change _ = if 0 < coverAt (⟨start, start + size⟩ :: k.live) _ then _ else _
      rw [coverAt_cons]
      by_cases hcontains :
          (⟨start, start + size⟩ : Interval).Contains (h.vaddress + page * pageSize) <;>
        by_cases hzero : coverAt k.live (h.vaddress + page * pageSize) = 0 <;>
        simp [hcontains, hzero, Nat.pos_iff_ne_zero]
    · intro page hpage
      exact (table_outside h.mapCall hin (fun _ _ _ => .rfl) k.table hpage).trans
        (hk.mapped.outside page hpage)

theorem Invariant.map_calledOnce (hk : Invariant N h k) (hi : h.InHeap ⟨start, start + size⟩) :
    CalledOnce I N h k (.map start size) := by
  intro page _
  have hin := hk.newRanges_inHeap (I := I) hi
  have hcover : h.cover (k.step I N h (.map start size)).live page = h.cover k.live page +
        if (⟨start, start + size⟩ : Interval).Contains (h.vaddress + page * pageSize) then 1
        else 0 := coverAt_cons _ _ _
  have hmaps := countP_mapCalls hin (I.ordered _) page
  have hunmaps := countP_unmap_mapCalls (h := h) (I.intervals (newRanges I N k.mappedRanges start size))
    (h.devicePage page)
  simp only [hk.mem_newRanges] at hmaps
  refine ⟨hmaps.trans ?_, hunmaps.trans ?_⟩
  · rw [hcover, cover]
    by_cases hcontains :
        (⟨start, start + size⟩ : Interval).Contains (h.vaddress + page * pageSize) <;>
      by_cases hzero : coverAt k.live (h.vaddress + page * pageSize) = 0 <;>
      simp [hcontains, hzero]
  · rw [if_neg]
    rw [hcover]
    omega

end Mapping

/-! ## What `Unmap` deletes -/

section Unmapping

variable {k : Machine M} {start size : Nat}
variable {i : Interval} {x : Nat} {it : Segment}

theorem coverAt_erase {live : List Interval} (hi : i ∈ live) (x : Nat) :
    coverAt (live.erase i) x = coverAt live x - if i.Contains x then 1 else 0 := by
  rw [coverAt, countP_erase, coverAt]
  simp [hi]

theorem coverAt_pos {live : List Interval} (hi : i ∈ live)
    (hx : i.Contains x) : 0 < coverAt live x :=
  countP_pos_iff.mpr ⟨i, hi, decide_eq_true hx⟩

/-- The segments after the count of the range has been taken down. -/
def lowered (N : SplitIntervalMap M) (k : Machine M) (i : Interval) : List Segment :=
  N.segments (N.add k.mappedRanges i (-1))

theorem Invariant.valueAt_lowered (hk : Invariant N h k) (hlive : i ∈ k.live)
    (x : Nat) : valueAt (lowered N k i) x =
      if i.Contains x then some ((coverAt (k.live.erase i) x : Nat) : Int)
      else countValue (coverAt k.live x) := by
  rw [lowered, N.valueAt_add, hk.counts]
  split
  · rename_i hx
    have hpos := coverAt_pos hlive hx
    rw [coverAt_erase hlive, if_pos hx, countValue, if_neg (by omega), Option.getD_some]
    congr 1
    omega
  · rfl

/-- A segment that reaches into the range lies inside it. -/
theorem inside_of_overlaps (hi : h.InHeap i)
    (hit : it ∈ lowered N k i) (hoverlaps : it.Overlaps i) :
    i.lower ≤ it.lower ∧ it.upper ≤ i.upper := by
  rcases N.split_add _ _ _ hi.nonempty it hit with hinside | hbefore | hafter
  · exact hinside
  · exact absurd hoverlaps.1 (by omega)
  · exact absurd hoverlaps.2 (by omega)

/-- The value of such a segment is the number of handles that are left over its addresses. -/
theorem Invariant.value_lowered (hk : Invariant N h k) (hlive : i ∈ k.live)
    (hit : it ∈ lowered N k i) (hx : it.Contains x) (hin : i.Contains x) :
    it.value = ((coverAt (k.live.erase i) x : Nat) : Int) := by
  have hvalue := valueAt_eq_of_mem (N.ordered _) hit hx
  have hcount := hk.valueAt_lowered hlive x
  rw [if_pos hin] at hcount
  exact Option.some.inj (hvalue.symm.trans hcount)

/-- The intervals that `on_delete` is called for. -/
def deleted (N : SplitIntervalMap M) (k : Machine M) (i : Interval) : List Interval :=
  ((lowered N k i).filter (fun it => it.Overlaps i && it.value = 0)).map Segment.toInterval

theorem Invariant.segments_ne_nil (hk : Invariant N h k) (hlive : i ∈ k.live) :
    N.segments k.mappedRanges ≠ [] := by
  intro hempty
  have hi := hk.live i hlive
  have hpos := coverAt_pos hlive (x := i.lower) ⟨le_rfl, hi.nonempty⟩
  have hcount := hk.counts i.lower
  rw [hempty, countValue, if_neg (by omega)] at hcount
  cases hcount

/-- `Unmap` of a range that is mapped: the calls, and the segments that are left. -/
theorem Invariant.subtract (hk : Invariant N h k) (hlive : ⟨start, start + size⟩ ∈ k.live) :
    (OverlapRangeSet.subtract N k.mappedRanges start size).1 = deleted N k ⟨start, start + size⟩ ∧
      N.segments (OverlapRangeSet.subtract N k.mappedRanges start size).2 =
        (lowered N k ⟨start, start + size⟩).filter
          (fun it => !(it.Overlaps ⟨start, start + size⟩ && it.value ≤ 0)) := by
  rw [OverlapRangeSet.subtract]
  simp only [if_neg (hk.segments_ne_nil hlive)]
  exact OverlapRangeSet.removeAll_spec _ _

theorem ordered_deleted (i : Interval) : Ordered id (deleted N k i) := by
  have hordered := (N.ordered (N.add k.mappedRanges i (-1))).sublist
    (filter_sublist (p := fun it => it.Overlaps i && it.value = 0))
  refine ⟨?_, ?_⟩
  · intro j hj
    obtain ⟨it, hit, rfl⟩ := mem_map.mp hj
    exact hordered.nonempty it hit
  · exact pairwise_map.mpr hordered.ascending

theorem mem_deleted {j : Interval} (hj : j ∈ deleted N k i) :
    ∃ it ∈ lowered N k i, it.Overlaps i ∧ it.value = 0 ∧ it.toInterval = j := by
  obtain ⟨it, hit, heq⟩ := mem_map.mp hj
  obtain ⟨hmem, hboth⟩ := mem_filter.mp hit
  simp only [Bool.and_eq_true, decide_eq_true_eq] at hboth
  exact ⟨it, hmem, hboth.1, hboth.2, heq⟩

/-- `Unmap` deletes the addresses of the range over which no handle is left. -/
theorem Invariant.exists_deleted (hk : Invariant N h k) (hlive : i ∈ k.live)
    (x : Nat) : (∃ j ∈ deleted N k i, j.Contains x) ↔
      i.Contains x ∧ coverAt (k.live.erase i) x = 0 := by
  constructor
  · rintro ⟨j, hj, hx⟩
    obtain ⟨it, hit, hoverlaps, hzero, rfl⟩ := mem_deleted hj
    obtain ⟨hlower, hupper⟩ := inside_of_overlaps (hk.live i hlive) hit hoverlaps
    have hin : i.Contains x := ⟨hlower.trans hx.1, hx.2.trans_le hupper⟩
    have hvalue := hk.value_lowered hlive hit hx hin
    exact ⟨hin, by omega⟩
  · rintro ⟨hin, hzero⟩
    have hvalue := hk.valueAt_lowered hlive x
    rw [if_pos hin, hzero] at hvalue
    obtain ⟨it, hit, hx, hit0⟩ := valueAt_eq_some hvalue
    have hoverlaps : it.Overlaps i := ⟨hin.1.trans_lt hx.2, hx.1.trans_lt hin.2⟩
    refine ⟨it.toInterval, mem_map_of_mem (mem_filter.mpr ⟨hit, ?_⟩), hx⟩
    simpa [hoverlaps] using hit0

theorem Invariant.deleted_inHeap (hk : Invariant N h k) (hlive : i ∈ k.live) :
    ∀ j ∈ deleted N k i, h.InHeap j := by
  intro j hj
  have hi := hk.live i hlive
  obtain ⟨it, hit, _, _, rfl⟩ := mem_deleted hj
  refine inHeap_of_borders hi ((N.ordered _).nonempty it hit) ?_ ?_
  · intro b hb
    rcases N.border_add _ _ _ it hit b hb with hb | ⟨seg, hseg, hb⟩
    · exact hi.border hb
    · exact hk.borders seg hseg b hb
  · intro x hx
    exact ((hk.exists_deleted hlive x).mp ⟨_, hj, hx⟩).1

/-- What is left at an address, by the segment over it. -/
theorem valueAt_filter {segments : List Segment} (hordered : Ordered Segment.toInterval segments)
    {p : Segment → Bool} (hit : it ∈ segments) (hx : it.Contains x) :
    valueAt (segments.filter p) x = if p it then some it.value else none := by
  split
  · rename_i hp
    exact valueAt_eq_of_mem (hordered.sublist filter_sublist) (mem_filter.mpr ⟨hit, hp⟩) hx
  · rename_i hp
    rw [valueAt_eq_none_iff]
    intro other hother hcontains
    obtain ⟨hmem, hpother⟩ := mem_filter.mp hother
    have hsame := hordered.eq_of_contains hmem hit hcontains hx
    rw [hsame] at hpother
    exact hp hpother

theorem Invariant.unmap (hk : Invariant N h k) (hlive : ⟨start, start + size⟩ ∈ k.live) :
    Invariant N h (k.step I N h (.unmap start size)) where
  counts := by
    intro x
    obtain ⟨_, hleft⟩ := hk.subtract hlive
    change valueAt (N.segments (OverlapRangeSet.subtract N k.mappedRanges start size).2) x =
      countValue (coverAt (k.live.erase ⟨start, start + size⟩) x)
    have hvalue := hk.valueAt_lowered hlive x
    have hcover := coverAt_erase hlive x
    rw [hleft]
    cases hat : valueAt (lowered N k ⟨start, start + size⟩) x with
    | none =>
      rw [hat] at hvalue
      have hnone := valueAt_eq_none_iff.mp hat
      have hleftnone : valueAt ((lowered N k ⟨start, start + size⟩).filter
          (fun it => !(it.Overlaps ⟨start, start + size⟩ && it.value ≤ 0))) x = none := by
        rw [valueAt_eq_none_iff]
        intro it hit
        exact hnone it (mem_of_mem_filter hit)
      rw [hleftnone]
      split at hvalue
      · cases hvalue
      · rename_i hout
        rw [hcover, if_neg hout, Nat.sub_zero]
        exact hvalue
    | some v =>
      obtain ⟨it, hit, hx, hv⟩ := valueAt_eq_some hat
      have hordered : Ordered Segment.toInterval (lowered N k ⟨start, start + size⟩) := N.ordered _
      rw [valueAt_filter hordered hit hx]
      rw [hat] at hvalue
      by_cases hin : (⟨start, start + size⟩ : Interval).Contains x
      · -- inside the range the segment is left exactly if a handle is
        have hoverlaps : it.Overlaps ⟨start, start + size⟩ :=
          ⟨hin.1.trans_lt hx.2, hx.1.trans_lt hin.2⟩
        rw [if_pos hin] at hvalue
        have hvalue := Option.some.inj hvalue
        rw [countValue]
        by_cases hzero : coverAt (k.live.erase ⟨start, start + size⟩) x = 0
        · rw [if_pos hzero, if_neg]
          simp only [hoverlaps, decide_true, Bool.true_and, Bool.not_eq_true', not_not,
            decide_eq_false_iff_not]
          omega
        · rw [if_neg hzero, if_pos]
          · rw [hv, hvalue]
          · simp only [hoverlaps, decide_true, Bool.true_and, Bool.not_eq_true',
              decide_eq_false_iff_not]
            omega
      · -- a segment over an address outside the range does not reach into it
        have hnot : ¬it.Overlaps ⟨start, start + size⟩ := by
          intro hoverlaps
          obtain ⟨hlower, hupper⟩ := inside_of_overlaps (hk.live _ hlive) hit hoverlaps
          exact hin ⟨hlower.trans hx.1, hx.2.trans_le hupper⟩
        rw [if_neg hin] at hvalue
        rw [hcover, if_neg hin, Nat.sub_zero, ← hvalue, ← hv, if_pos]
        simp [hnot]
  borders := by
    intro it hit b hb
    obtain ⟨_, hleft⟩ := hk.subtract hlive
    have hmem : it ∈ lowered N k ⟨start, start + size⟩ := by
      change it ∈ N.segments (OverlapRangeSet.subtract N k.mappedRanges start size).2 at hit
      rw [hleft] at hit
      exact mem_of_mem_filter hit
    rcases N.border_add _ _ _ it hmem b hb with hb | ⟨seg, hseg, hb⟩
    · exact (hk.live _ hlive).border hb
    · exact hk.borders seg hseg b hb
  live := by
    intro i hmem
    exact hk.live i (mem_of_mem_erase hmem)
  mapped := by
    have hin := hk.deleted_inHeap hlive
    have htable : (k.step I N h (.unmap start size)).table =
        ((deleted N k ⟨start, start + size⟩).map h.unmapCall).foldl DeviceCall.apply k.table := by
      rw [← (hk.subtract hlive).1]
      rfl
    refine ⟨?_, ?_⟩
    · intro page hpage
      rw [htable, table_unmapCalls hin, hk.mapped.heap page hpage]
      simp only [hk.exists_deleted hlive, cover]
      change _ = if 0 < coverAt (k.live.erase ⟨start, start + size⟩) _ then _ else _
      have hcover := coverAt_erase hlive (h.vaddress + page * pageSize)
      by_cases hcontains :
          (⟨start, start + size⟩ : Interval).Contains (h.vaddress + page * pageSize)
      · have hpos := coverAt_pos hlive hcontains
        by_cases hzero :
            coverAt (k.live.erase ⟨start, start + size⟩) (h.vaddress + page * pageSize) = 0 <;>
          simp [hcontains, hzero, hpos, Nat.pos_iff_ne_zero]
      · rw [if_neg hcontains, Nat.sub_zero] at hcover
        rw [hcover, if_neg (fun hboth => hcontains hboth.1)]
        rfl
    · intro page hpage
      rw [htable, table_outside h.unmapCall hin (fun _ _ _ => .rfl) k.table hpage]
      exact hk.mapped.outside page hpage

theorem Invariant.unmap_calledOnce (hk : Invariant N h k)
    (hlive : ⟨start, start + size⟩ ∈ k.live) : CalledOnce I N h k (.unmap start size) := by
  intro page _
  have hin := hk.deleted_inHeap hlive
  have hcalls : k.calls I N h (.unmap start size) =
      (deleted N k ⟨start, start + size⟩).map h.unmapCall := by
    rw [← (hk.subtract hlive).1]
    rfl
  have hcover : h.cover (k.step I N h (.unmap start size)).live page = h.cover k.live page -
        if (⟨start, start + size⟩ : Interval).Contains (h.vaddress + page * pageSize) then 1
        else 0 := coverAt_erase hlive _
  have hunmaps := countP_unmapCalls hin (ordered_deleted _) page
  simp only [hk.exists_deleted hlive] at hunmaps
  rw [hcalls, countP_map_unmapCalls, hunmaps]
  refine ⟨?_, ?_⟩
  · rw [if_neg]
    rw [hcover]
    omega
  · have hafter : h.cover (k.step I N h (.unmap start size)).live page =
        coverAt (k.live.erase ⟨start, start + size⟩) (h.vaddress + page * pageSize) := rfl
    rw [hafter]
    by_cases hcontains :
        (⟨start, start + size⟩ : Interval).Contains (h.vaddress + page * pageSize)
    · have hpos : 0 < h.cover k.live page := coverAt_pos hlive hcontains
      simp [hcontains, hpos]
    · rw [hafter, if_neg hcontains, Nat.sub_zero] at hcover
      rw [if_neg (fun hboth => hcontains hboth.1), if_neg]
      omega

end Unmapping

theorem Invariant.step {k : Machine M} {i : Input} (hk : Invariant N h k)
    (hallowed : Allowed h k i) : Invariant N h (k.step I N h i) := by
  cases i with
  | map start size => exact hk.map hallowed.inHeap
  | unmap start size => exact hk.unmap hallowed

theorem Invariant.calledOnce {k : Machine M} {i : Input} (hk : Invariant N h k)
    (hallowed : Allowed h k i) : CalledOnce I N h k i := by
  cases i with
  | map start size => exact hk.map_calledOnce hallowed.inHeap
  | unmap start size => exact hk.unmap_calledOnce hallowed

/-- In every run of `Map` and `Unmap` on ranges of pages of the heap, each `Unmap` of a range that
is mapped, the pages that are mapped are at all times those that a handle covers, and each
operation maps a page once if its count leaves zero and unmaps it once if its count returns to
zero. -/
theorem run_counted (I : IntervalSet S) (N : SplitIntervalMap M) (h : HeapMapper) {is : List Input}
    (hallowed : Along (Machine.step I N h) (Allowed h) (Machine.initial N) is) :
    Throughout (Machine.step I N h) (CoveredMapped h) (Machine.initial N) is ∧
      Along (Machine.step I N h) (CalledOnce I N h) (Machine.initial N) is :=
  ⟨throughout_of_along (fun _ hk => hk.mapped) (fun _ _ hk hq => hk.step hq) invariant_initial
      hallowed,
    along_of_along (fun _ _ hk hq => hk.calledOnce hq) (fun _ _ hk hq => hk.step hq)
      invariant_initial hallowed⟩

/-- A heap of four pages, with ranges that overlap, nest and repeat. -/
def fourPages : HeapMapper where
  vaddress := 0x10000
  daddress := 0x200000
  size := 0x4000
  asid := 1
  vaddress_aligned := by decide

theorem run_counted_fourPages :
    Throughout (Machine.step listIntervalSet listSplitMap fourPages) (CoveredMapped fourPages)
        (Machine.initial listSplitMap)
        [.map 0x10000 0x3000, .map 0x11000 0x1000, .map 0x12000 0x2000, .unmap 0x10000 0x3000,
          .map 0x11000 0x1000, .unmap 0x11000 0x1000, .unmap 0x11000 0x1000,
          .unmap 0x12000 0x2000] ∧
      Along (Machine.step listIntervalSet listSplitMap fourPages)
        (CalledOnce listIntervalSet listSplitMap fourPages) (Machine.initial listSplitMap)
        [.map 0x10000 0x3000, .map 0x11000 0x1000, .map 0x12000 0x2000, .unmap 0x10000 0x3000,
          .map 0x11000 0x1000, .unmap 0x11000 0x1000, .unmap 0x11000 0x1000,
          .unmap 0x12000 0x2000] := by
  refine run_counted listIntervalSet listSplitMap fourPages
    ⟨?_, ?_, ?_, ?_, ?_, ?_, ?_, ?_, trivial⟩
  · exact ⟨by decide, by decide, by decide, by decide, by decide⟩
  · exact ⟨by decide, by decide, by decide, by decide, by decide⟩
  · exact ⟨by decide, by decide, by decide, by decide, by decide⟩
  · change _ ∈ ([⟨0x12000, 0x14000⟩, ⟨0x11000, 0x12000⟩, ⟨0x10000, 0x13000⟩] : List Interval)
    decide
  · exact ⟨by decide, by decide, by decide, by decide, by decide⟩
  · change _ ∈ ([⟨0x11000, 0x12000⟩, ⟨0x12000, 0x14000⟩, ⟨0x11000, 0x12000⟩] : List Interval)
    decide
  · change _ ∈ ([⟨0x12000, 0x14000⟩, ⟨0x11000, 0x12000⟩] : List Interval)
    decide
  · change _ ∈ ([⟨0x12000, 0x14000⟩] : List Interval)
    decide

end HeapMapper

end Sudachi.Service
