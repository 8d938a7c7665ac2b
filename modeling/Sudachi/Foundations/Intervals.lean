import Mathlib.Data.Set.Basic
import Mathlib.Data.List.Pairwise
import Mathlib.Tactic.Common

/-!
# Sets of numbers as lists of intervals

An interval is a pair of its first number and its length. A list of intervals that are in ascending
order and do not touch is the one way to cut a set into its maximal runs. `stitch` joins the
intervals of an ascending list that touch, with one interval pending.
-/

set_option autoImplicit false

namespace Sudachi.Foundations.Intervals

open List

/-- A number is in one of the intervals. -/
def Covered (l : List (Nat × Nat)) (p : Nat) : Prop := ∃ r ∈ l, r.1 ≤ p ∧ p < r.1 + r.2

/-- The intervals are not empty, and each one ends before the next begins. -/
structure Ascending (l : List (Nat × Nat)) : Prop where
  pos : ∀ r ∈ l, 0 < r.2
  ordered : l.Pairwise fun a b => a.1 + a.2 ≤ b.1

/-- The intervals are the maximal runs of the set, in ascending order. -/
structure MaximalRuns (S : Set Nat) (l : List (Nat × Nat)) : Prop where
  pos : ∀ r ∈ l, 0 < r.2
  apart : l.Pairwise fun a b => a.1 + a.2 < b.1
  covered : ∀ p, p ∈ S ↔ Covered l p

variable {l l' : List (Nat × Nat)} {S S' : Set Nat} {r : Nat × Nat} {p : Nat}

theorem not_covered_nil : ¬Covered [] p := by
  rintro ⟨r, hr, -⟩
  exact not_mem_nil hr

theorem covered_cons : Covered (r :: l) p ↔ (r.1 ≤ p ∧ p < r.1 + r.2) ∨ Covered l p := by
  simp [Covered]

theorem covered_append : Covered (l ++ l') p ↔ Covered l p ∨ Covered l' p := by
  simp only [Covered, mem_append, or_and_right, exists_or]

theorem MaximalRuns.ascending (h : MaximalRuns S l) : Ascending l :=
  ⟨h.pos, h.apart.imp fun hlt => le_of_lt hlt⟩

theorem MaximalRuns.congr (h : MaximalRuns S l) (hS : ∀ p, p ∈ S' ↔ p ∈ S) : MaximalRuns S' l :=
  ⟨h.pos, h.apart, fun p => (hS p).trans (h.covered p)⟩

theorem maximalRuns_nil (h : ∀ p, p ∉ S) : MaximalRuns S [] :=
  ⟨fun _ hr => absurd hr not_mem_nil, List.Pairwise.nil,
    fun p => iff_of_false (h p) not_covered_nil⟩

/-- The first number of an interval is covered. -/
theorem MaximalRuns.first_mem (h : MaximalRuns S l) (hr : r ∈ l) : r.1 ∈ S :=
  (h.covered r.1).mpr ⟨r, hr, le_refl _, Nat.lt_add_of_pos_right (h.pos r hr)⟩

/-- An interval in front of those of a set that lies behind it. -/
theorem MaximalRuns.cons (h : MaximalRuns S l) (hpos : 0 < r.2) (hafter : ∀ p ∈ S, r.1 + r.2 < p) :
    MaximalRuns {p | (r.1 ≤ p ∧ p < r.1 + r.2) ∨ p ∈ S} (r :: l) := by
  constructor
  case pos =>
    intro t ht
    rcases mem_cons.mp ht with rfl | ht
    · exact hpos
    · exact h.pos t ht
  case apart =>
    exact pairwise_cons.mpr ⟨fun t ht => hafter t.1 (h.first_mem ht), h.apart⟩
  case covered =>
    intro p
    rw [covered_cons, ← h.covered]
    exact .rfl

/-- Ascending lists, one behind the other. -/
theorem Ascending.append (h : Ascending l) (h' : Ascending l')
    (hbefore : ∀ a ∈ l, ∀ b ∈ l', a.1 + a.2 ≤ b.1) : Ascending (l ++ l') := by
  refine ⟨fun r hr => ?_, pairwise_append.mpr ⟨h.ordered, h'.ordered, hbefore⟩⟩
  rcases mem_append.mp hr with hr | hr
  · exact h.pos r hr
  · exact h'.pos r hr

/-- Shift the intervals. -/
def shift (k : Nat) (l : List (Nat × Nat)) : List (Nat × Nat) := l.map fun r => (k + r.1, r.2)

theorem covered_shift {k : Nat} : Covered (shift k l) p ↔ k ≤ p ∧ Covered l (p - k) := by
  simp only [Covered, shift, mem_map]
  constructor
  case mp =>
    rintro ⟨_, ⟨r, hr, rfl⟩, hle, hlt⟩
    dsimp only at hle hlt
    exact ⟨by omega, r, hr, by omega, by omega⟩
  case mpr =>
    rintro ⟨hk, r, hr, hle, hlt⟩
    exact ⟨(k + r.1, r.2), ⟨r, hr, rfl⟩, by dsimp only; omega, by dsimp only; omega⟩

theorem MaximalRuns.shift (h : MaximalRuns S l) (k : Nat) :
    MaximalRuns {p | k ≤ p ∧ p - k ∈ S} (shift k l) := by
  constructor
  case pos =>
    intro r hr
    obtain ⟨t, ht, rfl⟩ := mem_map.mp hr
    exact h.pos t ht
  case apart =>
    refine pairwise_map.mpr (h.apart.imp fun {a b} hlt => ?_)
    show k + a.1 + a.2 < k + b.1
    omega
  case covered =>
    intro p
    rw [covered_shift, ← h.covered]
    exact .rfl

/-! ## Intervals that touch -/

/-- Join the intervals that touch, with the pending one from `start` up to `stop`. -/
def stitchPending (start stop : Nat) : List (Nat × Nat) → List (Nat × Nat)
  | [] => [(start, stop - start)]
  | r :: l =>
    if stop = r.1 then stitchPending start (stop + r.2) l
    else (start, stop - start) :: stitchPending r.1 (r.1 + r.2) l

def stitch : List (Nat × Nat) → List (Nat × Nat)
  | [] => []
  | r :: l => stitchPending r.1 (r.1 + r.2) l

theorem stitchPending_spec {start stop : Nat} (hpos : start < stop) (h : Ascending l)
    (hafter : ∀ r ∈ l, stop ≤ r.1) :
    MaximalRuns {p | (start ≤ p ∧ p < stop) ∨ Covered l p} (stitchPending start stop l) := by
  induction l generalizing start stop with
  | nil =>
    have hlength : start + (stop - start) = stop := by omega
    refine ⟨fun r hr => ?_, pairwise_singleton _ _, fun p => ?_⟩
    · rw [stitchPending, mem_singleton] at hr
      subst hr
      exact Nat.sub_pos_of_lt hpos
    · simp only [stitchPending, covered_cons, hlength, Set.mem_ofPred_eq]
  | cons r l ih =>
    have hr := hafter r mem_cons_self
    have hrpos := h.pos r mem_cons_self
    have hl : Ascending l := ⟨fun t ht => h.pos t (mem_cons_of_mem r ht), h.ordered.of_cons⟩
    have hrl : ∀ t ∈ l, r.1 + r.2 ≤ t.1 := (pairwise_cons.mp h.ordered).1
    rw [stitchPending]
    split
    case isTrue htouch =>
      refine (ih (by omega) hl fun t ht => ?_).congr fun p => ?_
      · rw [htouch]
        exact hrl t ht
      · simp only [covered_cons, Set.mem_ofPred_eq]
        constructor
        · rintro (hp | hp | hp)
          · exact .inl (by omega)
          · exact .inl (by omega)
          · exact .inr hp
        · rintro (hp | hp)
          · by_cases hlt : p < stop
            · exact .inl (by omega)
            · exact .inr (.inl (by omega))
          · exact .inr (.inr hp)
    case isFalse hgap =>
      have hbehind : ∀ p ∈ {p | (r.1 ≤ p ∧ p < r.1 + r.2) ∨ Covered l p}, stop < p := by
        rintro p (hp | ⟨t, ht, hle, -⟩)
        · omega
        · have := hrl t ht
          omega
      have hlength : start + (stop - start) = stop := by omega
      have hrest := ih (Nat.lt_add_of_pos_right hrpos) hl hrl
      have hcons := hrest.cons (r := (start, stop - start)) (Nat.sub_pos_of_lt hpos)
        (by rw [hlength]; exact hbehind)
      refine hcons.congr fun p => ?_
      simp only [covered_cons, hlength, Set.mem_ofPred_eq]

/-- Stitching an ascending list leaves the maximal runs of what it covers. -/
theorem stitch_spec (h : Ascending l) : MaximalRuns {p | Covered l p} (stitch l) := by
  cases l with
  | nil => exact maximalRuns_nil fun p => not_covered_nil
  | cons r l =>
    have hl : Ascending l := ⟨fun t ht => h.pos t (mem_cons_of_mem r ht), h.ordered.of_cons⟩
    have hpos := h.pos r mem_cons_self
    refine (stitchPending_spec (Nat.lt_add_of_pos_right hpos) hl
      (pairwise_cons.mp h.ordered).1).congr fun p => ?_
    exact covered_cons

/-! ## Runs that end at the borders of blocks -/

/-- The intervals are the runs of the set in ascending order, each one maximal in its block of `n`
numbers. -/
structure BlockRuns (n : Nat) (S : Set Nat) (l : List (Nat × Nat)) : Prop where
  pos : ∀ r ∈ l, 0 < r.2
  inside : ∀ r ∈ l, (r.1 + r.2 - 1) / n = r.1 / n
  apart : l.Pairwise fun a b => a.1 + a.2 < b.1 ∨ (a.1 + a.2 = b.1 ∧ n ∣ b.1)
  covered : ∀ p, p ∈ S ↔ Covered l p

variable {n i : Nat}

theorem blockRuns_nil (h : ∀ p, p ∉ S) : BlockRuns n S [] :=
  ⟨fun _ hr => absurd hr not_mem_nil, fun _ hr => absurd hr not_mem_nil,
    List.Pairwise.nil, fun p => iff_of_false (h p) not_covered_nil⟩

theorem BlockRuns.congr (h : BlockRuns n S l) (hS : ∀ p, p ∈ S' ↔ p ∈ S) : BlockRuns n S' l :=
  ⟨h.pos, h.inside, h.apart, fun p => (hS p).trans (h.covered p)⟩

/-- The first and the last number of an interval are covered. -/
theorem BlockRuns.ends_mem (h : BlockRuns n S l) (hr : r ∈ l) : r.1 ∈ S ∧ r.1 + r.2 - 1 ∈ S := by
  have hpos := h.pos r hr
  exact ⟨(h.covered _).mpr ⟨r, hr, by omega, by omega⟩,
    (h.covered _).mpr ⟨r, hr, by omega, by omega⟩⟩

/-- The maximal runs of a set in one block. -/
theorem MaximalRuns.blockRuns (h : MaximalRuns S l) (hS : ∀ p ∈ S, p / n = i) :
    BlockRuns n S l := by
  refine ⟨h.pos, fun r hr => ?_, h.apart.imp fun hlt => .inl hlt, h.covered⟩
  have hpos := h.pos r hr
  have hlast : r.1 + r.2 - 1 ∈ S := (h.covered _).mpr ⟨r, hr, by omega, by omega⟩
  rw [hS _ (h.first_mem hr), hS _ hlast]

/-- The runs of the blocks before a border and those of the blocks behind it. -/
theorem BlockRuns.append (h : BlockRuns n S l) (h' : BlockRuns n S' l') (hn : 0 < n)
    (hbefore : ∀ p ∈ S, p / n < i) (hbehind : ∀ p ∈ S', i ≤ p / n) :
    BlockRuns n {p | p ∈ S ∨ p ∈ S'} (l ++ l') := by
  have happend : ∀ {P : Nat × Nat → Prop}, (∀ r ∈ l, P r) → (∀ r ∈ l', P r) → ∀ r ∈ l ++ l', P r :=
    fun hl hl' r hr => (mem_append.mp hr).elim (hl r) (hl' r)
  refine ⟨happend h.pos h'.pos, happend h.inside h'.inside,
    pairwise_append.mpr ⟨h.apart, h'.apart, fun a ha b hb => ?_⟩, fun p => ?_⟩
  · have hpos := h.pos a ha
    have hle : a.1 + a.2 - 1 < i * n := (Nat.div_lt_iff_lt_mul hn).mp (hbefore _ (h.ends_mem ha).2)
    have hge : i * n ≤ b.1 := (Nat.le_div_iff_mul_le hn).mp (hbehind _ (h'.ends_mem hb).1)
    rcases lt_or_ge (a.1 + a.2) b.1 with hlt | hnot
    · exact .inl hlt
    · have hb : b.1 = i * n := by omega
      exact .inr ⟨by omega, hb ▸ Nat.dvd_mul_left n i⟩
  · rw [covered_append, ← h.covered, ← h'.covered]
    exact .rfl

/-! ## Intervals carved off an arena -/

/-- The intervals are taken from the arena between `base` and `limit` in ascending order, at
multiples of `align`; what is left begins at `top`. -/
structure Carved (base limit align top : Nat) (l : List (Nat × Nat)) : Prop where
  ascending : Ascending l
  aligned : ∀ r ∈ l, align ∣ r.1
  base_le : ∀ r ∈ l, base ≤ r.1
  le_top : ∀ r ∈ l, r.1 + r.2 ≤ top
  le_limit : ∀ r ∈ l, r.1 + r.2 ≤ limit

theorem carved_nil (base limit align top : Nat) : Carved base limit align top [] where
  ascending := ⟨fun _ hr => absurd hr not_mem_nil, List.Pairwise.nil⟩
  aligned _ hr := absurd hr not_mem_nil
  base_le _ hr := absurd hr not_mem_nil
  le_top _ hr := absurd hr not_mem_nil
  le_limit _ hr := absurd hr not_mem_nil

/-- An interval behind `top` can be carved off. -/
theorem Carved.push {base limit align top : Nat} (h : Carved base limit align top l)
    (halign : align ∣ r.1) (hpos : 0 < r.2) (hbase : base ≤ r.1) (htop : top ≤ r.1)
    (hlimit : r.1 + r.2 ≤ limit) : Carved base limit align (r.1 + r.2) (l ++ [r]) := by
  have hlast : Ascending [r] := ⟨fun t ht => mem_singleton.mp ht ▸ hpos, pairwise_singleton _ _⟩
  constructor
  case ascending =>
    refine h.ascending.append hlast fun a ha b hb => ?_
    rw [mem_singleton.mp hb]
    exact (h.le_top a ha).trans htop
  case aligned => exact forall_mem_append.mpr ⟨h.aligned, forall_mem_singleton.mpr halign⟩
  case base_le => exact forall_mem_append.mpr ⟨h.base_le, forall_mem_singleton.mpr hbase⟩
  case le_top =>
    refine forall_mem_append.mpr ⟨fun t ht => ?_, forall_mem_singleton.mpr le_rfl⟩
    exact (h.le_top t ht).trans (htop.trans (Nat.le_add_right _ _))
  case le_limit =>
    exact forall_mem_append.mpr ⟨h.le_limit, forall_mem_singleton.mpr hlimit⟩

end Sudachi.Foundations.Intervals
