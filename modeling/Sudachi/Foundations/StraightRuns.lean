import Mathlib.Data.List.Basic
import Mathlib.Data.List.Range
import Mathlib.Tactic.Common

/-!
# Straight runs of a partial function

A partial function from addresses to addresses is straight on a range where it is defined and
advances by one from each address to the next. The walk that collects the straight runs of a range
keeps the address that would continue the last one, and opens another run where it finds something
else: `maximalRuns_collect` says that it lists the maximal runs, in their order.
-/

set_option autoImplicit false

namespace Sudachi.Foundations.StraightRuns

open List Option

variable {t : Nat → Option Nat} {a base n k size : Nat} {start : Option Nat}

/-- The function is defined on `n` addresses from `a` on, and advances by one; where a first value
is given, it begins with that one. -/
def StraightFrom (t : Nat → Option Nat) (start : Option Nat) (a n : Nat) : Prop :=
  ∃ base, (∀ o, start = some o → o = base) ∧ ∀ i < n, t (a + i) = some (base + i)

theorem straightFrom_zero (start : Option Nat) (a : Nat) : StraightFrom t start a 0 := by
  cases start with
  | none => exact ⟨0, (fun o h => by cases h), fun i hi => absurd hi (Nat.not_lt_zero i)⟩
  | some o =>
    exact ⟨o, fun o' h => (some.inj h).symm, fun i hi => absurd hi (Nat.not_lt_zero i)⟩

theorem not_straightFrom (hn : 0 < n) (h : t a = none) : ¬StraightFrom t start a n := by
  rintro ⟨base, -, hstraight⟩
  have hfirst := hstraight 0 hn
  rw [Nat.add_zero, h] at hfirst
  cases hfirst

/-- A range that begins with a straight piece is straight exactly if the piece begins as it should
and the rest goes on from its end. -/
theorem straightFrom_split (hk : 0 < k) (hle : k ≤ n) (h : ∀ i < k, t (a + i) = some (base + i)) :
    StraightFrom t start a n ↔
      (∀ o, start = some o → o = base) ∧ StraightFrom t (some (base + k)) (a + k) (n - k) := by
  have hfirst := h 0 hk
  constructor
  · rintro ⟨b, hstart, hstraight⟩
    have hb := hstraight 0 (by omega)
    rw [hfirst, some.injEq] at hb
    obtain rfl : base = b := by omega
    refine ⟨hstart, base + k, fun o ho => (some.inj ho).symm, fun i hi => ?_⟩
    rw [Nat.add_assoc, hstraight _ (by omega), Nat.add_assoc]
  · rintro ⟨hstart, b, hb, hstraight⟩
    obtain rfl := hb _ rfl
    refine ⟨base, hstart, fun i hi => ?_⟩
    rcases lt_or_ge i k with hlt | hge
    · exact h i hlt
    · have hrest := hstraight (i - k) (by omega)
      rwa [Nat.add_assoc, Nat.add_assoc, Nat.add_sub_cancel' hge] at hrest

/-- The longest straight prefix of a range has `k` addresses. -/
structure LongestPrefix (t : Nat → Option Nat) (start : Option Nat) (a size k : Nat) : Prop where
  le : k ≤ size
  straight : StraightFrom t start a k
  longest : ∀ n, n ≤ size → StraightFrom t start a n → n ≤ k

theorem longestPrefix_zero (h : ∀ n, 0 < n → n ≤ size → ¬StraightFrom t start a n) :
    LongestPrefix t start a size 0 :=
  ⟨Nat.zero_le _, straightFrom_zero start a, fun n hn hstraight =>
    Nat.le_of_not_lt fun hpos => h n hpos hn hstraight⟩

/-- The longest prefix of a range that begins with a straight piece. -/
theorem LongestPrefix.extend (hk : 0 < k) (hle : k ≤ size)
    (h : ∀ i < k, t (a + i) = some (base + i)) (hstart : ∀ o, start = some o → o = base)
    (hrest : LongestPrefix t (some (base + k)) (a + k) (size - k) n) :
    LongestPrefix t start a size (k + n) := by
  have hrestLe := hrest.le
  refine ⟨by omega, ?_, fun j hj hstraight => ?_⟩
  · rw [straightFrom_split hk (Nat.le_add_right k n) h, Nat.add_sub_cancel_left]
    exact ⟨hstart, hrest.straight⟩
  · rcases lt_or_ge j k with hlt | hge
    · omega
    · have hlonger := hrest.longest (j - k) (by omega) ((straightFrom_split hk hge h).mp
        hstraight).2
      omega

/-! ## The maximal runs of a range -/

/-- The function advances by one from an address to the next. -/
def Joins (t : Nat → Option Nat) (a : Nat) : Prop := ∃ d, t a = some d ∧ t (a + 1) = some (d + 1)

/-- A list of first addresses and lengths is that of the maximal straight runs of a range, in their
order: each of them is straight, they follow each other without overlap, every address at which the
function is defined lies in one of them, and none can be made longer inside the range. -/
structure MaximalRuns (t : Nat → Option Nat) (a size : Nat) (runs : List (Nat × Nat)) : Prop where
  inside : ∀ r ∈ runs, a ≤ r.1 ∧ 0 < r.2 ∧ r.1 + r.2 ≤ a + size
  straight : ∀ r ∈ runs, StraightFrom t none r.1 r.2
  order : runs.Pairwise fun r r' => r.1 + r.2 ≤ r'.1
  cover : ∀ c, a ≤ c → c < a + size → t c ≠ none → ∃ r ∈ runs, r.1 ≤ c ∧ c < r.1 + r.2
  left : ∀ r ∈ runs, a < r.1 → ¬Joins t (r.1 - 1)
  right : ∀ r ∈ runs, r.1 + r.2 < a + size → ¬Joins t (r.1 + r.2 - 1)

/-- The walk that collects runs: the value that would continue the last run, that run while it can
still grow, and the runs before it. -/
structure Collector where
  next : Option Nat
  last : Option (Nat × Nat)
  done : List (Nat × Nat)

namespace Collector

/-- Close the last run. -/
def split (s : Collector) : Collector :=
  { s with last := none, done := s.done ++ s.last.toList }

/-- Take a straight piece: it makes the last run longer if it continues it,
    and opens another if not. -/
def extend (s : Collector) (a base n : Nat) : Collector :=
  let s := if s.next.isSome ∧ s.next ≠ some base then s.split else s
  { s with
    next := some (base + n)
    last := some (match s.last with
      | none => (a, n)
      | some (first, size) => (first, size + n)) }

/-- Take one address. -/
def take (t : Nat → Option Nat) (s : Collector) (a : Nat) : Collector :=
  match t a with
  | none => s.split
  | some d => s.extend a d 1

def runs (s : Collector) : List (Nat × Nat) := s.done ++ s.last.toList

variable {s : Collector}

theorem split_split : s.split.split = s.split := by
  simp [split]

/-- The last run after a piece, for every length of the piece. -/
theorem extend_eq (s : Collector) (a base : Nat) : ∃ first size done, ∀ n,
    s.extend a base n = ⟨some (base + n), some (first, size + n), done⟩ := by
  obtain ⟨s', hs'⟩ : ∃ s', (if s.next.isSome ∧ s.next ≠ some base then s.split else s) = s' :=
    ⟨_, rfl⟩
  simp only [extend, hs']
  obtain ⟨next, last, done⟩ := s'
  cases last with
  | none => exact ⟨a, 0, done, fun n => by rw [Nat.zero_add]⟩
  | some r => exact ⟨r.1, r.2, done, fun n => rfl⟩

theorem extend_continue (first size n base : Nat) (done : List (Nat × Nat)) :
    (⟨some base, some (first, size), done⟩ : Collector).extend a base n =
      ⟨some (base + n), some (first, size + n), done⟩ := by
  rw [extend, if_neg fun h => h.2 rfl]

/-- A piece is taken address by address. -/
theorem extend_succ :
    s.extend a base (n + 1) = (s.extend a base n).extend (a + n) (base + n) 1 := by
  obtain ⟨first, size, done, h⟩ := s.extend_eq a base
  rw [h, h, extend_continue, Nat.add_assoc, Nat.add_assoc]

theorem foldl_take_straight (hn : 0 < n) (h : ∀ i < n, t (a + i) = some (base + i)) :
    (range' a n).foldl (take t) s = s.extend a base n := by
  induction n with
  | zero => exact absurd hn (lt_irrefl 0)
  | succ n ih =>
    have hlast := h n (Nat.lt_succ_self n)
    rw [range'_concat, foldl_append, Nat.one_mul]
    show take t _ (a + n) = _
    rw [take, hlast]
    rcases Nat.eq_zero_or_pos n with rfl | hpos
    · rfl
    · rw [ih hpos fun i hi => h i (Nat.lt_succ_of_lt hi), extend_succ]

theorem foldl_take_none (hn : 0 < n) (h : ∀ i < n, t (a + i) = none) :
    (range' a n).foldl (take t) s = s.split := by
  induction n with
  | zero => exact absurd hn (lt_irrefl 0)
  | succ n ih =>
    have hlast := h n (Nat.lt_succ_self n)
    rw [range'_concat, foldl_append, Nat.one_mul]
    show take t _ (a + n) = _
    rw [take, hlast]
    rcases Nat.eq_zero_or_pos n with rfl | hpos
    · rfl
    · rw [ih hpos fun i hi => h i (Nat.lt_succ_of_lt hi), split_split]

/-- The invariant of the walk: the runs so far are maximal, and the last one, if it can still grow,
ends where the walk is, with the value before the next one. -/
structure Collected (t : Nat → Option Nat) (a size : Nat) (s : Collector) : Prop where
  maximal : MaximalRuns t a size s.runs
  closed : s.last = none → 0 < size → t (a + size - 1) = none
  growing : ∀ r, s.last = some r → r.1 + r.2 = a + size ∧
    ∃ d, t (a + size - 1) = some d ∧ s.next = some (d + 1)

theorem collected_start (t : Nat → Option Nat) (a : Nat) (next : Option Nat) :
    Collected t a 0 ⟨next, none, []⟩ := by
  refine ⟨⟨fun r hr => ?_, fun r hr => ?_, .nil, fun c hc hlt => ?_, fun r hr => ?_,
    fun r hr => ?_⟩, fun _ h => absurd h (lt_irrefl 0), fun r hr => by cases hr⟩
  · cases hr
  · cases hr
  · omega
  · cases hr
  · cases hr

section

variable (h : Collected t a size s)
include h

/-- The runs stay maximal when the range grows by an address that does not continue the last one. -/
theorem Collected.grow (hjoins : 0 < size → ¬Joins t (a + size - 1)) :
    ∀ r ∈ s.runs, r.1 + r.2 < a + (size + 1) → ¬Joins t (r.1 + r.2 - 1) := by
  intro r hr hlt
  obtain ⟨hge, hpos, -⟩ := h.maximal.inside r hr
  rcases lt_or_ge (r.1 + r.2) (a + size) with hinside | hend
  · exact h.maximal.right r hr hinside
  · have hat : r.1 + r.2 = a + size := by omega
    rw [hat]
    exact hjoins (by omega)

theorem Collected.take_none (hnone : t (a + size) = none) : Collected t a (size + 1) s.split := by
  have hruns : s.split.runs = s.runs := by
    rw [runs, split, runs]
    exact append_nil _
  have hjoins : 0 < size → ¬Joins t (a + size - 1) := by
    rintro hpos ⟨d, -, hd⟩
    have hnext : a + size - 1 + 1 = a + size := by omega
    rw [hnext, hnone] at hd
    cases hd
  refine ⟨hruns ▸ ⟨fun r hr => ?_, h.maximal.straight, h.maximal.order, fun c hc hlt hdef => ?_,
    h.maximal.left, h.grow hjoins⟩, fun _ _ => hnone, fun r hr => by cases hr⟩
  · have hinside := h.maximal.inside r hr
    omega
  · have hne : c ≠ a + size := fun heq => hdef (heq ▸ hnone)
    exact h.maximal.cover c hc (by omega) hdef

/-- The walk opens a run at an address that does not continue the last one. -/
theorem Collected.open_run {d : Nat} (hd : t (a + size) = some d)
    (hjoins : 0 < size → ¬Joins t (a + size - 1)) :
    Collected t a (size + 1) ⟨some (d + 1), some (a + size, 1), s.runs⟩ := by
  have hmem : ∀ r, r ∈ s.runs ++ [(a + size, 1)] ↔ r ∈ s.runs ∨ r = (a + size, 1) := by simp
  refine ⟨⟨fun r hr => ?_, fun r hr => ?_, ?_, fun c hc hlt hdef => ?_, fun r hr hlt => ?_,
    fun r hr hlt => ?_⟩, fun hnone => (by cases hnone), fun r hr => ?_⟩
  · rcases (hmem r).mp hr with hold | rfl
    · have hinside := h.maximal.inside r hold
      omega
    · exact ⟨Nat.le_add_right a size, Nat.one_pos, le_rfl⟩
  · rcases (hmem r).mp hr with hold | rfl
    · exact h.maximal.straight r hold
    · refine ⟨d, (fun o ho => by cases ho), fun i hi => ?_⟩
      obtain rfl : i = 0 := by omega
      exact hd
  · refine pairwise_append.mpr ⟨h.maximal.order, pairwise_singleton _ _, ?_⟩
    intro r hr r' hr'
    rw [mem_singleton.mp hr']
    exact (h.maximal.inside r hr).2.2
  · rcases lt_or_ge c (a + size) with hbefore | hat
    · obtain ⟨r, hr, hin⟩ := h.maximal.cover c hc hbefore hdef
      exact ⟨r, (hmem r).mpr (.inl hr), hin⟩
    · exact ⟨(a + size, 1), (hmem _).mpr (.inr rfl), hat, hlt⟩
  · rcases (hmem r).mp hr with hold | rfl
    · exact h.maximal.left r hold hlt
    · exact hjoins (by omega)
  · rcases (hmem r).mp hr with hold | rfl
    · exact h.grow hjoins r hold hlt
    · exact absurd hlt (lt_irrefl _)
  · obtain rfl : (a + size, 1) = r := some.inj hr
    have hlast : a + (size + 1) - 1 = a + size := by omega
    exact ⟨rfl, d, by rw [hlast]; exact hd, rfl⟩

/-- The walk makes the last run longer at an address that continues it. -/
theorem Collected.lengthen {d first n : Nat} {done : List (Nat × Nat)} {next : Option Nat}
    (hs : s = ⟨next, some (first, n), done⟩) (hnext : next = some d) (hd : t (a + size) = some d) :
    Collected t a (size + 1) ⟨some (d + 1), some (first, n + 1), done⟩ := by
  obtain ⟨hend, e, he, heq⟩ := h.growing (first, n) (by rw [hs])
  have hruns : s.runs = done ++ [(first, n)] := by rw [hs]; rfl
  have hmem : ∀ r, r ∈ s.runs ↔ r ∈ done ∨ r = (first, n) := by simp [hruns]
  have hmem' : ∀ r, r ∈ done ++ [(first, n + 1)] ↔ r ∈ done ∨ r = (first, n + 1) := by simp
  obtain ⟨hge, hpos, -⟩ := h.maximal.inside _ ((hmem _).mpr (.inr rfl))
  have hge : a ≤ first := hge
  have hpos : 0 < n := hpos
  have hend : first + n = a + size := hend
  have horder := pairwise_append.mp (hruns ▸ h.maximal.order)
  have hbefore : ∀ r ∈ done, r.1 + r.2 ≤ first := fun r hr =>
    horder.2.2 r hr _ (mem_singleton.mpr rfl)
  refine ⟨⟨fun r hr => ?_, fun r hr => ?_, ?_, fun c hc hlt hdef => ?_, fun r hr hlt => ?_,
    fun r hr hlt => ?_⟩, fun hnone => (by cases hnone), fun r hr => ?_⟩
  · rcases (hmem' r).mp hr with hold | rfl
    · have hinside := h.maximal.inside r ((hmem r).mpr (.inl hold))
      omega
    · show a ≤ first ∧ 0 < n + 1 ∧ first + (n + 1) ≤ a + (size + 1)
      omega
  · rcases (hmem' r).mp hr with hold | rfl
    · exact h.maximal.straight r ((hmem r).mpr (.inl hold))
    · obtain ⟨b, -, hstraight⟩ := h.maximal.straight _ ((hmem _).mpr (.inr rfl))
      refine ⟨b, (fun o ho => by cases ho), fun i hi => ?_⟩
      rcases lt_or_ge i n with hlt | hge
      · exact hstraight i hlt
      · -- the address before is the last one of the run
        have hprevious : t (first + (n - 1)) = some (b + (n - 1)) := hstraight (n - 1) (by omega)
        have haddress : first + (n - 1) = a + size - 1 := by omega
        have hi : i < n + 1 := hi
        have hfirst : first + i = a + size := by omega
        have hvalue : d = e + 1 := by
          rw [hs, hnext] at heq
          exact some.inj heq
        rw [haddress, he, some.injEq] at hprevious
        show t (first + i) = some (b + i)
        rw [hfirst, hd]
        exact congrArg some (by omega)
  · refine pairwise_append.mpr ⟨horder.1, pairwise_singleton _ _, ?_⟩
    intro r hr r' hr'
    rw [mem_singleton.mp hr']
    exact hbefore r hr
  · rcases lt_or_ge c (a + size) with hin | hat
    · obtain ⟨r, hr, hcover⟩ := h.maximal.cover c hc hin hdef
      rcases (hmem r).mp hr with hold | rfl
      · exact ⟨r, (hmem' r).mpr (.inl hold), hcover⟩
      · have hcover : first ≤ c ∧ c < first + n := hcover
        exact ⟨(first, n + 1), (hmem' _).mpr (.inr rfl), hcover.1,
          show c < first + (n + 1) by omega⟩
    · exact ⟨(first, n + 1), (hmem' _).mpr (.inr rfl), show first ≤ c by omega,
        show c < first + (n + 1) by omega⟩
  · rcases (hmem' r).mp hr with hold | rfl
    · exact h.maximal.left r ((hmem r).mpr (.inl hold)) hlt
    · exact h.maximal.left (first, n) ((hmem _).mpr (.inr rfl)) hlt
  · rcases (hmem' r).mp hr with hold | rfl
    · have hle := hbefore r hold
      exact h.maximal.right r ((hmem r).mpr (.inl hold)) (by omega)
    · omega
  · obtain rfl : (first, n + 1) = r := some.inj hr
    have hlast : a + (size + 1) - 1 = a + size := by omega
    exact ⟨show first + (n + 1) = a + (size + 1) by omega, d, by rw [hlast]; exact hd, rfl⟩

/-- One address more. -/
theorem Collected.take : Collected t a (size + 1) (take t s (a + size)) := by
  rw [Collector.take]
  cases hd : t (a + size) with
  | none => exact h.take_none hd
  | some d =>
    obtain ⟨next, last, done⟩ := s
    have hstep : ∀ size, 0 < size → a + size - 1 + 1 = a + size := fun _ _ => by omega
    cases last with
    | none =>
      have hopen := h.open_run hd fun hpos hjoins => by
        obtain ⟨e, he, -⟩ := hjoins
        rw [h.closed rfl hpos] at he
        cases he
      simp only [runs, toList_none, append_nil] at hopen
      show Collected t a (size + 1) (extend ⟨next, none, done⟩ (a + size) d 1)
      have hsplit : split ⟨next, none, done⟩ = ⟨next, none, done⟩ := by simp [split]
      rw [extend, hsplit, ite_self]
      exact hopen
    | some r =>
      obtain ⟨first, n⟩ := r
      obtain ⟨-, e, he, hnext⟩ := h.growing (first, n) rfl
      have hnext : next = some (e + 1) := hnext
      by_cases hcontinues : next = some d
      · have hlonger := h.lengthen rfl hcontinues hd
        show Collected t a (size + 1) (extend ⟨next, some (first, n), done⟩ (a + size) d 1)
        rw [extend, if_neg fun hne => hne.2 hcontinues]
        exact hlonger
      · have hopen := h.open_run hd fun hpos hjoins => by
          obtain ⟨e', he', hd'⟩ := hjoins
          rw [hstep size hpos, hd] at hd'
          rw [he, some.injEq] at he'
          rw [hnext, he', hd'] at hcontinues
          exact hcontinues rfl
        show Collected t a (size + 1) (extend ⟨next, some (first, n), done⟩ (a + size) d 1)
        rw [extend, if_pos ⟨by rw [hnext]; rfl, hcontinues⟩]
        exact hopen

end

/-- The walk collects the maximal runs. -/
theorem maximalRuns_collect (t : Nat → Option Nat) (a size : Nat) :
    MaximalRuns t a size ((range' a size).foldl (Collector.take t) ⟨none, none, []⟩).runs := by
  have hcollected : ∀ size, Collected t a size
      ((range' a size).foldl (Collector.take t) ⟨none, none, []⟩) := by
    intro size
    induction size with
    | zero => exact collected_start t a none
    | succ size ih =>
      rw [range'_concat, foldl_append, Nat.one_mul]
      exact ih.take
  exact (hcollected size).maximal

end Collector

end Sudachi.Foundations.StraightRuns
