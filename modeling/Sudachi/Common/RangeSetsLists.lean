import Mathlib.Data.List.Basic
import Mathlib.Order.MinMax
import Sudachi.Common.RangeSets

/-!
# The containers as ordered lists

An `interval_set` and a `split_interval_map` as ordered lists, with what `RangeSets` asks of them:
`listIntervalSet` joins the intervals that touch, `listSplitMap` cuts the segments at the borders
of what is added and fills the gaps.
-/

set_option autoImplicit false

namespace Sudachi.Common.RangeSets

open List Or
open Option (getD_none none_or some_or)

/-! ## Sets -/

/-- An interval that is not empty joins those that it touches. -/
def joinAdd (lower upper : Nat) : List Interval → List Interval
  | [] => [⟨lower, upper⟩]
  | x :: xs =>
    if x.upper < lower then x :: joinAdd lower upper xs
    else if upper < x.lower then ⟨lower, upper⟩ :: x :: xs
    else joinAdd (min lower x.lower) (max upper x.upper) xs

/-- What an interval that is not empty leaves of another one. -/
def cutOut (i x : Interval) : List Interval :=
  (if x.lower < min i.lower x.upper then [⟨x.lower, min i.lower x.upper⟩] else []) ++
    if max i.upper x.lower < x.upper then [⟨max i.upper x.lower, x.upper⟩] else []

section Sets

variable {lower upper bound : Nat} {xs : List Interval} {i : Interval}
variable {α : Type} {interval : α → Interval} {x : α} {j : Interval}

theorem Ordered.tail {xs : List α} (h : Ordered interval (x :: xs)) : Ordered interval xs :=
  h.sublist (sublist_cons_self x xs)

theorem Ordered.head_le {xs : List α}
    (h : Ordered interval (x :: xs)) : ∀ y ∈ xs, (interval x).upper ≤ (interval y).lower :=
  (pairwise_cons.mp h.ascending).1

theorem Ordered.cons {xs : List α} (hx : (interval x).lower < (interval x).upper)
    (hle : ∀ y ∈ xs, (interval x).upper ≤ (interval y).lower) (h : Ordered interval xs) :
    Ordered interval (x :: xs) := by
  refine ⟨?_, pairwise_cons.mpr ⟨hle, h.ascending⟩⟩
  intro y hy
  rcases mem_cons.mp hy with rfl | hy
  · exact hx
  · exact h.nonempty y hy

attribute [local simp] joinAdd in
theorem joinAdd_le (hbound : bound ≤ lower) (hxs : ∀ x ∈ xs, bound ≤ x.lower) :
    ∀ j ∈ joinAdd lower upper xs, bound ≤ j.lower := by
  induction xs generalizing lower upper with
  | nil =>
    intro j hj
    obtain rfl := mem_singleton.mp hj
    exact hbound
  | cons x xs ih =>
    have hx := hxs x mem_cons_self
    have hrest : ∀ y ∈ xs, bound ≤ y.lower := fun y hy => hxs y (mem_cons_of_mem _ hy)
    intro j hj
    rw [joinAdd] at hj
    split at hj
    · rcases mem_cons.mp hj with rfl | hj
      · exact hx
      · exact ih hbound hrest j hj
    · split at hj
      · rcases mem_cons.mp hj with rfl | hj
        · exact hbound
        · exact hxs j hj
      · exact ih (le_min hbound hx) hrest j hj

theorem joinAdd_ordered (hlt : lower < upper) (hxs : Ordered id xs) :
    Ordered id (joinAdd lower upper xs) := by
  induction xs generalizing lower upper with
  | nil =>
    refine ⟨?_, pairwise_singleton _ _⟩
    intro j hj
    obtain rfl := mem_singleton.mp hj
    exact hlt
  | cons x xs ih =>
    have hx := hxs.nonempty x mem_cons_self
    rw [joinAdd]
    split
    · rename_i hbefore
      exact Ordered.cons hx (joinAdd_le hbefore.le hxs.head_le) (ih hlt hxs.tail)
    · split
      · rename_i hafter
        refine Ordered.cons hlt ?_ hxs
        intro y hy
        rcases mem_cons.mp hy with rfl | hy
        · exact hafter.le
        · have := hxs.head_le y hy
          simp only [id] at *
          omega
      · exact ih (by simp only [id] at hx; omega) hxs.tail

theorem mem_joinAdd (hlt : lower < upper) (hxs : Ordered id xs) (p : Nat) :
    (∃ j ∈ joinAdd lower upper xs, j.Contains p) ↔
      (lower ≤ p ∧ p < upper) ∨ ∃ j ∈ xs, j.Contains p := by
  induction xs generalizing lower upper with
  | nil => simp [joinAdd, Interval.Contains]
  | cons x xs ih =>
    have hx := hxs.nonempty x mem_cons_self
    simp only [id] at hx
    rw [joinAdd]
    split
    · simp only [exists_mem_cons_iff, ih hlt hxs.tail]
      exact or_left_comm
    · split
      · simp only [exists_mem_cons_iff, Interval.Contains]
      · rename_i hbefore hafter
        rw [ih (by omega) hxs.tail, exists_mem_cons_iff, ← or_assoc]
        refine or_congr_left ?_
        rw [Interval.Contains]
        omega

theorem border_joinAdd {b : Nat} (hj : j ∈ joinAdd lower upper xs)
    (hb : j.HasBorder b) : b = lower ∨ b = upper ∨ ∃ k ∈ xs, k.HasBorder b := by
  induction xs generalizing lower upper with
  | nil =>
    obtain rfl := mem_singleton.mp hj
    exact hb.imp_right inl
  | cons x xs ih =>
    have hhead : ∀ {b}, x.HasBorder b → ∃ k ∈ x :: xs, k.HasBorder b :=
      fun hb => ⟨x, mem_cons_self, hb⟩
    have htail : (∃ k ∈ xs, k.HasBorder b) → ∃ k ∈ x :: xs, k.HasBorder b := by
      rintro ⟨k, hk, hkb⟩
      exact ⟨k, mem_cons_of_mem _ hk, hkb⟩
    rw [joinAdd] at hj
    split at hj
    · rcases mem_cons.mp hj with rfl | hj
      · exact inr (inr (hhead hb))
      · exact (ih hj).imp_right (imp_right htail)
    · split at hj
      · rcases mem_cons.mp hj with rfl | hj
        · exact hb.imp_right inl
        · exact inr (inr ⟨j, hj, hb⟩)
      · rcases ih hj with hmin | hmax | hin
        · rcases min_choice lower x.lower with hchoice | hchoice
          · exact inl (hmin.trans hchoice)
          · exact inr (inr (hhead (inl (hmin.trans hchoice))))
        · rcases max_choice upper x.upper with hchoice | hchoice
          · exact inr (inl (hmax.trans hchoice))
          · exact inr (inr (hhead (inr (hmax.trans hchoice))))
        · exact inr (inr (htail hin))

theorem mem_cutOut {x : Interval} : j ∈ cutOut i x ↔
    (j = ⟨x.lower, min i.lower x.upper⟩ ∧ x.lower < min i.lower x.upper) ∨
      (j = ⟨max i.upper x.lower, x.upper⟩ ∧ max i.upper x.lower < x.upper) := by
  rw [cutOut, mem_append]
  refine or_congr ?_ ?_ <;>
    · split <;> simp_all

theorem cutOut_ordered (hi : i.lower < i.upper) (hxs : Ordered id xs) :
    Ordered id (xs.flatMap (cutOut i)) := by
  refine ⟨?_, pairwise_flatMap.mpr ⟨?_, ?_⟩⟩
  · intro j hj
    obtain ⟨x, _, hjx⟩ := mem_flatMap.mp hj
    rcases mem_cutOut.mp hjx with ⟨rfl, hlt⟩ | ⟨rfl, hlt⟩ <;> exact hlt
  · intro x _
    rw [cutOut]
    split <;> split <;> simp
    omega
  · refine hxs.ascending.imp ?_
    intro x y hxy j hj k hk
    simp only [id] at hxy
    rcases mem_cutOut.mp hj with ⟨rfl, -⟩ | ⟨rfl, -⟩ <;>
      rcases mem_cutOut.mp hk with ⟨rfl, hlt'⟩ | ⟨rfl, -⟩ <;>
      simp only [id] <;> omega

theorem mem_flatMap_cutOut (p : Nat) :
    (∃ j ∈ xs.flatMap (cutOut i), j.Contains p) ↔ ¬i.Contains p ∧ ∃ j ∈ xs, j.Contains p := by
  constructor
  · rintro ⟨j, hj, hp⟩
    obtain ⟨x, hx, hjx⟩ := mem_flatMap.mp hj
    simp only [Interval.Contains] at hp ⊢
    rcases mem_cutOut.mp hjx with ⟨rfl, -⟩ | ⟨rfl, -⟩
    · exact ⟨by simp only at hp; omega, x, hx, by simp only at hp; omega⟩
    · exact ⟨by simp only at hp; omega, x, hx, by simp only at hp; omega⟩
  · rintro ⟨hout, x, hx, hp⟩
    simp only [Interval.Contains] at hout hp
    by_cases hbefore : p < i.lower
    · refine ⟨⟨x.lower, min i.lower x.upper⟩, mem_flatMap.mpr ⟨x, hx, ?_⟩, ?_⟩
      · exact mem_cutOut.mpr (inl ⟨rfl, by omega⟩)
      · exact ⟨hp.1, by simp only; omega⟩
    · refine ⟨⟨max i.upper x.lower, x.upper⟩, mem_flatMap.mpr ⟨x, hx, ?_⟩, ?_⟩
      · exact mem_cutOut.mpr (inr ⟨rfl, by omega⟩)
      · exact ⟨by simp only; omega, hp.2⟩

theorem border_flatMap_cutOut {b : Nat} (hj : j ∈ xs.flatMap (cutOut i))
    (hb : j.HasBorder b) : i.HasBorder b ∨ ∃ k ∈ xs, k.HasBorder b := by
  obtain ⟨x, hx, hjx⟩ := mem_flatMap.mp hj
  rcases mem_cutOut.mp hjx with ⟨rfl, _⟩ | ⟨rfl, _⟩
  · rcases hb with hb | hb
    · exact inr ⟨x, hx, inl hb⟩
    · rcases min_choice i.lower x.upper with hchoice | hchoice
      · exact inl (inl (hb.trans hchoice))
      · exact inr ⟨x, hx, inr (hb.trans hchoice)⟩
  · rcases hb with hb | hb
    · rcases max_choice i.upper x.lower with hchoice | hchoice
      · exact inl (inr (hb.trans hchoice))
      · exact inr ⟨x, hx, inl (hb.trans hchoice)⟩
    · exact inr ⟨x, hx, inr hb⟩

end Sets

/-- Sets of addresses as ordered lists of intervals. -/
def listIntervalSet : IntervalSet {xs : List Interval // Ordered id xs} where
  empty := ⟨[], ⟨by simp, List.Pairwise.nil⟩⟩
  add s i :=
    if hi : i.lower < i.upper then ⟨joinAdd i.lower i.upper s.1, joinAdd_ordered hi s.2⟩ else s
  subtract s i :=
    if hi : i.lower < i.upper then ⟨s.1.flatMap (cutOut i), cutOut_ordered hi s.2⟩ else s
  intervals s := s.1
  intervals_empty := rfl
  ordered s := s.2
  mem_add s i x := by
    by_cases hi : i.lower < i.upper
    · simp only [dif_pos hi]
      exact mem_joinAdd hi s.2 x
    · simp only [dif_neg hi]
      refine (or_iff_right ?_).symm
      rintro ⟨hle, hlt⟩
      omega
  mem_subtract s i x := by
    by_cases hi : i.lower < i.upper
    · simp only [dif_pos hi]
      exact mem_flatMap_cutOut x
    · simp only [dif_neg hi]
      refine (and_iff_right ?_).symm
      rintro ⟨hle, hlt⟩
      omega
  border_add s i j hj b hb := by
    by_cases hi : i.lower < i.upper
    · simp only [dif_pos hi] at hj
      rcases border_joinAdd hj hb with hb | hb | hb
      · exact inl (inl hb)
      · exact inl (inr hb)
      · exact inr hb
    · simp only [dif_neg hi] at hj
      exact inr ⟨j, hj, hb⟩
  border_subtract s i j hj b hb := by
    by_cases hi : i.lower < i.upper
    · simp only [dif_pos hi] at hj
      exact border_flatMap_cutOut hj hb
    · simp only [dif_neg hi] at hj
      exact inr ⟨j, hj, hb⟩

/-! ## Maps -/

/-- The pieces of a segment that an addition overlaps: before the range, in a gap in front of the
segment, and in common. -/
def splitFirst (lower upper : Nat) (amount : Int) (x : Segment) : List Segment :=
  (if x.lower < lower then [⟨⟨x.lower, lower⟩, x.value⟩] else []) ++
    (if lower < x.lower then [⟨⟨lower, x.lower⟩, amount⟩] else []) ++
    [⟨⟨max lower x.lower, min upper x.upper⟩, amount + x.value⟩]

/-- An amount is added over a range: segments are cut at its borders, and gaps are filled. -/
def splitAdd (lower upper : Nat) (amount : Int) : List Segment → List Segment
  | [] => if lower < upper then [⟨⟨lower, upper⟩, amount⟩] else []
  | x :: xs =>
    if x.upper ≤ lower then x :: splitAdd lower upper amount xs
    else if upper ≤ lower then x :: xs
    else if upper ≤ x.lower then ⟨⟨lower, upper⟩, amount⟩ :: x :: xs
    else splitFirst lower upper amount x ++
      if upper < x.upper then ⟨⟨upper, x.upper⟩, x.value⟩ :: xs
      else splitAdd x.upper upper amount xs

section Maps

variable {lower upper bound : Nat} {amount : Int} {xs : List Segment} {x it : Segment}

theorem mem_splitFirst : it ∈ splitFirst lower upper amount x ↔
    (it = ⟨⟨x.lower, lower⟩, x.value⟩ ∧ x.lower < lower) ∨
      (it = ⟨⟨lower, x.lower⟩, amount⟩ ∧ lower < x.lower) ∨
      it = ⟨⟨max lower x.lower, min upper x.upper⟩, amount + x.value⟩ := by
  rw [splitFirst, mem_append, mem_append, mem_singleton, or_assoc]
  refine or_congr ?_ (or_congr ?_ Iff.rfl) <;>
    · split <;> simp_all

attribute [local simp] splitAdd in
/-- The segments of a sum, by where they come from. -/
theorem mem_splitAdd_cons (hit : it ∈ splitAdd lower upper amount (x :: xs)) :
    (x.upper ≤ lower ∧ (it = x ∨ it ∈ splitAdd lower upper amount xs)) ∨
      (upper ≤ lower ∧ it ∈ x :: xs) ∨
      (lower < upper ∧ upper ≤ x.lower ∧ (it = ⟨⟨lower, upper⟩, amount⟩ ∨ it ∈ x :: xs)) ∨
      (lower < upper ∧ lower < x.upper ∧ x.lower < upper ∧ (it ∈ splitFirst lower upper amount x ∨
          (upper < x.upper ∧ (it = ⟨⟨upper, x.upper⟩, x.value⟩ ∨ it ∈ xs)) ∨
          (x.upper ≤ upper ∧ it ∈ splitAdd x.upper upper amount xs))) := by
  rw [splitAdd] at hit
  split at hit
  · rename_i hbefore
    exact inl ⟨hbefore, mem_cons.mp hit⟩
  · split at hit
    · rename_i hempty
      exact inr (inl ⟨hempty, hit⟩)
    · split at hit
      · rename_i hafter
        exact inr (inr (inl ⟨by omega, hafter, mem_cons.mp hit⟩))
      · refine inr (inr (inr ⟨by omega, by omega, by omega, ?_⟩))
        rcases mem_append.mp hit with hit | hit
        · exact inl hit
        · split at hit
          · rename_i hlast
            exact inr (inl ⟨hlast, mem_cons.mp hit⟩)
          · exact inr (inr ⟨by omega, hit⟩)

theorem splitAdd_le (hbound : bound ≤ lower) (hxs : ∀ x ∈ xs, bound ≤ x.lower)
    (hne : ∀ x ∈ xs, x.lower < x.upper) :
    ∀ it ∈ splitAdd lower upper amount xs, bound ≤ it.lower := by
  induction xs generalizing lower with
  | nil =>
    intro it hit
    rw [splitAdd] at hit
    split at hit
    · obtain rfl := mem_singleton.mp hit
      exact hbound
    · cases hit
  | cons x xs ih =>
    have hx := hxs x mem_cons_self
    have hxne := hne x mem_cons_self
    have hrest : ∀ y ∈ xs, bound ≤ y.lower := fun y hy => hxs y (mem_cons_of_mem _ hy)
    have hnext : ∀ y ∈ xs, y.lower < y.upper := fun y hy => hne y (mem_cons_of_mem _ hy)
    intro it hit
    rcases mem_splitAdd_cons hit with ⟨_, rfl | hit⟩ | ⟨_, hit⟩ | ⟨_, _, rfl | hit⟩ |
      ⟨_, _, _, hit | ⟨_, rfl | hit⟩ | ⟨_, hit⟩⟩
    · exact hx
    · exact ih hbound hrest hnext it hit
    · exact hxs it hit
    · exact hbound
    · exact hxs it hit
    · rcases mem_splitFirst.mp hit with ⟨rfl, _⟩ | ⟨rfl, _⟩ | rfl
      · exact hx
      · exact hbound
      · exact hbound.trans (le_max_left _ _)
    · simp only
      omega
    · exact hrest it hit
    · exact ih (by omega) hrest hnext it hit

theorem splitFirst_ordered (hx : x.lower < x.upper) (hlt : lower < upper) (hlower : lower < x.upper)
    (hupper : x.lower < upper) : Ordered Segment.toInterval (splitFirst lower upper amount x) := by
  refine ⟨?_, ?_⟩
  · intro it hit
    rcases mem_splitFirst.mp hit with ⟨rfl, h⟩ | ⟨rfl, h⟩ | rfl
    · exact h
    · exact h
    · simp only
      omega
  · rw [splitFirst]
    split <;> split <;> simp

theorem Ordered.append {α : Type} {interval : α → Interval} {xs ys : List α} {b : Nat}
    (hxs : Ordered interval xs) (hys : Ordered interval ys)
    (hbefore : ∀ x ∈ xs, (interval x).upper ≤ b) (hafter : ∀ y ∈ ys, b ≤ (interval y).lower) :
    Ordered interval (xs ++ ys) := by
  refine ⟨?_, pairwise_append.mpr ⟨hxs.ascending, hys.ascending, ?_⟩⟩
  · intro z hz
    rcases mem_append.mp hz with hz | hz
    · exact hxs.nonempty z hz
    · exact hys.nonempty z hz
  · intro x hx y hy
    exact (hbefore x hx).trans (hafter y hy)

theorem splitAdd_ordered (hxs : Ordered Segment.toInterval xs) :
    Ordered Segment.toInterval (splitAdd lower upper amount xs) := by
  induction xs generalizing lower with
  | nil =>
    rw [splitAdd]
    split
    · rename_i hlt
      exact Ordered.cons hlt (fun _ hy => by cases hy) hxs
    · exact hxs
  | cons x xs ih =>
    have hx := hxs.nonempty x mem_cons_self
    have hne : ∀ y ∈ xs, y.lower < y.upper := fun y hy => hxs.tail.nonempty y hy
    rw [splitAdd]
    split
    · rename_i hbefore
      exact Ordered.cons hx (splitAdd_le hbefore hxs.head_le hne) (ih hxs.tail)
    · split
      · exact hxs
      · split
        · rename_i hafter
          refine Ordered.cons (by simp only; omega) ?_ hxs
          intro y hy
          rcases mem_cons.mp hy with rfl | hy
          · exact hafter
          · have := hxs.head_le y hy
            simp only
            omega
        · have hlt : lower < upper := by omega
          have hfirst : Ordered Segment.toInterval (splitFirst lower upper amount x) :=
            splitFirst_ordered hx hlt (by omega) (by omega)
          have hends : ∀ it ∈ splitFirst lower upper amount x, it.upper ≤ min upper x.upper := by
            intro it hit
            rcases mem_splitFirst.mp hit with ⟨rfl, _⟩ | ⟨rfl, _⟩ | rfl <;> simp only <;> omega
          split
          · rename_i hlast
            refine hfirst.append ?_ hends ?_
            · exact Ordered.cons hlast hxs.head_le hxs.tail
            · intro y hy
              rcases mem_cons.mp hy with rfl | hy
              · simp only
                omega
              · have := hxs.head_le y hy
                omega
          · rename_i hlast
            refine hfirst.append (ih hxs.tail) hends ?_
            intro y hy
            have := splitAdd_le le_rfl hxs.head_le hne y hy
            omega

/-- No segment of a sum reaches across a border of the range. -/
theorem splitAdd_split (hxs : Ordered Segment.toInterval xs)
    (hit : it ∈ splitAdd lower upper amount xs) :
    lower ≤ it.lower ∧ it.upper ≤ upper ∨ it.upper ≤ lower ∨ upper ≤ it.lower ∨ upper ≤ lower := by
  induction xs generalizing lower with
  | nil =>
    rw [splitAdd] at hit
    split at hit
    · obtain rfl := mem_singleton.mp hit
      exact inl ⟨le_rfl, le_rfl⟩
    · cases hit
  | cons x xs ih =>
    have hle := hxs.head_le
    rcases mem_splitAdd_cons hit with ⟨_, rfl | hit⟩ | ⟨_, -⟩ | ⟨_, _, rfl | hit⟩ |
      ⟨_, _, _, hit | ⟨_, rfl | hit⟩ | ⟨_, hit⟩⟩
    · omega
    · exact ih hxs.tail hit
    · omega
    · simp
    · rcases mem_cons.mp hit with rfl | hit
      · omega
      · have := hle it hit
        have := hxs.nonempty x mem_cons_self
        omega
    · rcases mem_splitFirst.mp hit with ⟨rfl, _⟩ | ⟨rfl, _⟩ | rfl <;> simp only <;> omega
    · simp only
      omega
    · have := hle it hit
      omega
    · have hrange := ih hxs.tail hit
      have := splitAdd_le le_rfl hle (fun y hy => hxs.tail.nonempty y hy) it hit
      omega

theorem border_splitAdd {b : Nat} (hit : it ∈ splitAdd lower upper amount xs)
    (hb : it.HasBorder b) : b = lower ∨ b = upper ∨ ∃ k ∈ xs, k.HasBorder b := by
  induction xs generalizing lower with
  | nil =>
    rw [splitAdd] at hit
    split at hit
    · obtain rfl := mem_singleton.mp hit
      exact hb.imp_right inl
    · cases hit
  | cons x xs ih =>
    have hhead : x.HasBorder b → ∃ k ∈ x :: xs, k.HasBorder b :=
      fun hb => ⟨x, mem_cons_self, hb⟩
    have htail : (∃ k ∈ xs, k.HasBorder b) → ∃ k ∈ x :: xs, k.HasBorder b := by
      rintro ⟨k, hk, hkb⟩
      exact ⟨k, mem_cons_of_mem _ hk, hkb⟩
    rcases mem_splitAdd_cons hit with ⟨_, rfl | hit⟩ | ⟨_, hit⟩ | ⟨_, _, rfl | hit⟩ |
      ⟨_, _, _, hit | ⟨_, rfl | hit⟩ | ⟨_, hit⟩⟩
    · exact inr (inr (hhead hb))
    · exact (ih hit).imp_right (imp_right htail)
    · exact inr (inr ⟨it, hit, hb⟩)
    · exact hb.imp_right inl
    · exact inr (inr ⟨it, hit, hb⟩)
    · rcases mem_splitFirst.mp hit with ⟨rfl, _⟩ | ⟨rfl, _⟩ | rfl
      · rcases hb with hb | hb
        · exact inr (inr (hhead (inl hb)))
        · exact inl hb
      · rcases hb with hb | hb
        · exact inl hb
        · exact inr (inr (hhead (inl hb)))
      · rcases hb with hb | hb
        · rcases max_choice lower x.lower with hchoice | hchoice
          · exact inl (hb.trans hchoice)
          · exact inr (inr (hhead (inl (hb.trans hchoice))))
        · rcases min_choice upper x.upper with hchoice | hchoice
          · exact inr (inl (hb.trans hchoice))
          · exact inr (inr (hhead (inr (hb.trans hchoice))))
    · rcases hb with hb | hb
      · exact inr (inl hb)
      · exact inr (inr (hhead (inr hb)))
    · exact inr (inr (htail ⟨it, hit, hb⟩))
    · rcases ih hit with hb | hb | hb
      · exact inr (inr (hhead (inr hb)))
      · exact inr (inl hb)
      · exact inr (inr (htail hb))

theorem valueAt_nil (p : Nat) : valueAt [] p = none := rfl

theorem valueAt_cons (p : Nat) :
    valueAt (x :: xs) p = if x.Contains p then some x.value else valueAt xs p := by
  rw [valueAt, find?_cons, valueAt]
  by_cases hp : x.Contains p <;> simp [hp]

theorem valueAt_cons_mk (value : Int) (p : Nat) : valueAt (⟨⟨lower, upper⟩, value⟩ :: xs) p =
      if lower ≤ p ∧ p < upper then some value else valueAt xs p :=
  valueAt_cons p

theorem valueAt_append (ys : List Segment) (p : Nat) :
    valueAt (xs ++ ys) p = (valueAt xs p).or (valueAt ys p) := by
  rw [valueAt, find?_append, Option.map_or, valueAt, valueAt]

theorem valueAt_singleton_if (value : Int) (p : Nat) :
    valueAt (if lower < upper then [⟨⟨lower, upper⟩, value⟩] else []) p =
      if lower ≤ p ∧ p < upper then some value else none := by
  split
  · rw [valueAt_cons_mk, valueAt_nil]
  · rw [valueAt_nil, if_neg (by omega)]

theorem valueAt_splitFirst (p : Nat) : valueAt (splitFirst lower upper amount x) p =
    if x.lower ≤ p ∧ p < lower then some x.value
    else if lower ≤ p ∧ p < x.lower then some amount
    else if max lower x.lower ≤ p ∧ p < min upper x.upper then some (amount + x.value)
    else none := by
  rw [splitFirst, valueAt_append, valueAt_append, valueAt_singleton_if, valueAt_singleton_if,
    valueAt_cons_mk, valueAt_nil]
  by_cases hbefore : x.lower ≤ p ∧ p < lower
  · rw [if_pos hbefore, if_pos hbefore, some_or, some_or]
  · rw [if_neg hbefore, if_neg hbefore, none_or]
    by_cases hgap : lower ≤ p ∧ p < x.lower
    · rw [if_pos hgap, if_pos hgap, some_or]
    · rw [if_neg hgap, if_neg hgap, none_or]

/-- Values are added up over the range, and put into the gaps. -/
theorem valueAt_splitAdd (hxs : Ordered Segment.toInterval xs) (p : Nat) :
    valueAt (splitAdd lower upper amount xs) p =
      if lower ≤ p ∧ p < upper then some (amount + (valueAt xs p).getD 0) else valueAt xs p := by
  induction xs generalizing lower with
  | nil =>
    rw [splitAdd]
    split
    · rw [valueAt_cons_mk, valueAt_nil, getD_none, Int.add_zero]
    · rw [if_neg (by omega)]
  | cons x xs ih =>
    have hx := hxs.nonempty x mem_cons_self
    -- nothing behind the first segment contains an address before its end
    have hbelow : p < x.upper → valueAt xs p = none := by
      intro hp
      rw [valueAt_eq_none_iff]
      intro it hit hcontains
      have := hxs.head_le it hit
      have := hcontains.1
      omega
    rw [splitAdd]
    split
    · rw [valueAt_cons, valueAt_cons, ih hxs.tail]
      by_cases hp : x.Contains p
      · have := hp.2
        rw [if_pos hp, if_pos hp, if_neg (by omega)]
      · rw [if_neg hp, if_neg hp]
    · split
      · rw [if_neg (by omega)]
      · split
        · rw [valueAt_cons_mk]
          by_cases hp : lower ≤ p ∧ p < upper
          · have hnone : valueAt (x :: xs) p = none := by
              rw [valueAt_cons, if_neg (fun hcontains => by have := hcontains.1; omega),
                hbelow (by omega)]
            rw [if_pos hp, if_pos hp, hnone, getD_none, Int.add_zero]
          · rw [if_neg hp, if_neg hp]
        · have hrest : valueAt (if upper < x.upper then ⟨⟨upper, x.upper⟩, x.value⟩ :: xs
              else splitAdd x.upper upper amount xs) p =
              if upper ≤ p ∧ p < x.upper then some x.value
              else if x.upper ≤ p ∧ p < upper then some (amount + (valueAt xs p).getD 0)
              else valueAt xs p := by
            split
            · rw [valueAt_cons_mk]
              by_cases hp : upper ≤ p ∧ p < x.upper
              · rw [if_pos hp, if_pos hp]
              · rw [if_neg hp, if_neg hp, if_neg (by omega)]
            · rw [ih hxs.tail, if_neg (by omega : ¬(upper ≤ p ∧ p < x.upper))]
          rw [valueAt_append, valueAt_splitFirst, hrest, valueAt_cons]
          by_cases hin : x.lower ≤ p ∧ p < x.upper
          · -- in the segment: before the range, in it, or behind it
            rw [if_pos (show x.Contains p from hin), Option.getD_some]
            by_cases hbefore : p < lower
            · rw [if_pos ⟨hin.1, hbefore⟩, some_or, if_neg (by omega)]
            · rw [if_neg (by omega : ¬(x.lower ≤ p ∧ p < lower)),
                if_neg (by omega : ¬(lower ≤ p ∧ p < x.lower))]
              by_cases hrange : p < upper
              · rw [if_pos (by omega : max lower x.lower ≤ p ∧ p < min upper x.upper),
                  some_or, if_pos (by omega)]
              · rw [if_neg (by omega : ¬(max lower x.lower ≤ p ∧ p < min upper x.upper)),
                  none_or, if_pos (by omega), if_neg (by omega)]
          · rw [if_neg (show ¬x.Contains p from hin),
              if_neg (by omega : ¬(x.lower ≤ p ∧ p < lower))]
            by_cases hgap : lower ≤ p ∧ p < x.lower
            · rw [if_pos hgap, some_or, if_pos (by omega), hbelow (by omega),
                getD_none, Int.add_zero]
            · rw [if_neg hgap, if_neg (by omega : ¬(max lower x.lower ≤ p ∧ p < min upper x.upper)),
                none_or, if_neg (by omega : ¬(upper ≤ p ∧ p < x.upper))]
              by_cases hrange : x.upper ≤ p ∧ p < upper
              · rw [if_pos hrange, if_pos (by omega)]
              · rw [if_neg hrange, if_neg (by omega)]

end Maps

/-- Maps from addresses to values as ordered lists of segments. -/
def listSplitMap : SplitIntervalMap {xs : List Segment // Ordered Segment.toInterval xs} where
  empty := ⟨[], ⟨by simp, List.Pairwise.nil⟩⟩
  add s i amount := ⟨splitAdd i.lower i.upper amount s.1, splitAdd_ordered s.2⟩
  erase s it := ⟨s.1.erase it, s.2.sublist erase_sublist⟩
  segments s := s.1
  segments_empty := rfl
  ordered s := s.2
  valueAt_add s i amount x := valueAt_splitAdd s.2 x
  split_add s i amount hi it hit := by
    rcases splitAdd_split s.2 hit with hinside | hbefore | hafter | hempty
    · exact inl hinside
    · exact inr (inl hbefore)
    · exact inr (inr hafter)
    · omega
  border_add s i amount it hit b hb := by
    rcases border_splitAdd hit hb with hb | hb | hb
    · exact inl (inl hb)
    · exact inl (inr hb)
    · exact inr hb
  segments_erase s it := rfl

end Sudachi.Common.RangeSets
