import Sudachi.Foundations.Breakpoints
import Mathlib.Data.BitVec

/-!
# Maps of ranges

`RangeMap` of `range_map.h`: a `std::map` from the start of each range to its value, over the signed type
of the keys. `InternalMap` erases the keys of a range and puts its two ends in where the value changes.
A map stands for the function that gives every key the value of the last operation on it
(`run_refines`). A dereference of the end, and an erasure from behind its end on, have no result.
-/

set_option autoImplicit false

namespace Sudachi.Common

open Sudachi.Foundations List Option Prod

/-- The entries of the container in order, with keys of `w` bits. -/
structure RangeMap (w : Nat) (V : Type) where
  nullValue : V
  container : List (Int × V)

namespace RangeMap

variable {w : Nat} {V : Type}

/-- `std::numeric_limits<KeyT>::min` and `max`. -/
def minKey (w : Nat) : Int := -2 ^ (w - 1)

def maxKey (w : Nat) : Int := 2 ^ (w - 1) - 1

def lowerBound (container : List (Int × V)) (key : Int) : Nat :=
  container.findIdx fun entry => !decide (entry.1 < key)

def upperBound (container : List (Int × V)) (key : Int) : Nat :=
  container.findIdx fun entry => decide (key < entry.1)

/-- `emplace`: a key that is there already keeps its value. -/
def emplace (container : List (Int × V)) (key : Int) (value : V) : List (Int × V) :=
  let i := lowerBound container key
  if (container[i]?).map fst = some key then container
  else container.take i ++ (key, value) :: container.drop i

/-- The loop that erases from `it` to `itEnd`. -/
def eraseRange (container : List (Int × V)) (it itEnd : Nat) : Option (List (Int × V)) :=
  if it ≤ itEnd then some (container.take it ++ container.drop itEnd) else none

def ofNull (w : Nat) (nullValue : V) : RangeMap w V :=
  ⟨nullValue, [(minKey w, nullValue)]⟩

/-- `GetFirstElementBeforeOrOn`. -/
def getFirstElementBeforeOrOn (m : RangeMap w V) (address : Int) : Nat :=
  let it := lowerBound m.container address
  if it = 0 then it
  else if (m.container[it]?).map fst = some address then it
  else it - 1

def getFirstValueWithin (m : RangeMap w V) (address : Int) : Option V :=
  let it := lowerBound m.container address
  if it = 0 then (m.container[it]?).map snd
  else if it = m.container.length then some m.nullValue
  else (m.container[it - 1]?).map snd

def getLastValueWithin (m : RangeMap w V) (address : Int) : Option V :=
  let it := upperBound m.container address
  if it = m.container.length then some m.nullValue
  else if it = 0 then (m.container[it]?).map snd
  else (m.container[it - 1]?).map snd

def getValueInternal (m : RangeMap w V) (address : Int) : V :=
  match m.container[m.getFirstElementBeforeOrOn address]? with
  | none => m.nullValue
  | some entry => entry.2

def getValueAt (m : RangeMap w V) (address : BitVec w) : V :=
  if address.toInt < 0 then m.nullValue else m.getValueInternal address.toInt

variable [DecidableEq V]

def continuousSizeInternal (m : RangeMap w V) (address : Int) : Nat :=
  let it := m.getFirstElementBeforeOrOn address
  match m.container[it]? with
  | none => 0
  | some entry =>
    if entry.2 = m.nullValue then 0
    else
      match m.container[it + 1]? with
      | none => (maxKey w - address).toNat
      | some next => (next.1 - address).toNat

def getContinuousSizeFrom (m : RangeMap w V) (address : BitVec w) : Nat :=
  if address.toInt < 0 then 0 else m.continuousSizeInternal address.toInt

/-- `InternalMap`. -/
def internalMap (m : RangeMap w V) (address addressEnd : Int) (value : V) :
    Option (RangeMap w V) := do
  let firstValue ← m.getFirstValueWithin address
  let lastValue ← m.getLastValueWithin addressEnd
  let mustAddStart := firstValue ≠ value
  let mustAddEnd := lastValue ≠ value
  let container ←
    eraseRange m.container (lowerBound m.container address) (upperBound m.container addressEnd)
  let container := if mustAddStart then emplace container address value else container
  let container := if mustAddEnd then emplace container addressEnd lastValue else container
  return { m with container := container }

/-- `Map`: addresses that are negative as signed keys count as zero. -/
def map (m : RangeMap w V) (address addressEnd : BitVec w) (value : V) : Option (RangeMap w V) :=
  let newAddress := if address.toInt < 0 then 0 else address.toInt
  let newAddressEnd := if addressEnd.toInt < 0 then 0 else addressEnd.toInt
  m.internalMap newAddress newAddressEnd value

def unmap (m : RangeMap w V) (address addressEnd : BitVec w) : Option (RangeMap w V) :=
  m.map address addressEnd m.nullValue

/-! ## The function of a map -/

section Function

variable {nullValue : V} {e f p : Int × V} {l r B C container : List (Int × V)} {a b x : Int}

/-- The value in force at a key. -/
def valueAt (nullValue : V) (container : List (Int × V)) (x : Int) : V :=
  ((inForce fst x container).map snd).getD nullValue

variable {value last : V}

section

omit [DecidableEq V]

theorem valueAt_append_left (h : ∀ f ∈ r, x < f.1) :
    valueAt nullValue (l ++ r) x = valueAt nullValue l x := by
  rw [valueAt, inForce_append_left h, valueAt]

/-- The last entry that is not behind a key is in force there. -/
theorem valueAt_eq (he : e.1 ≤ x) (h : ∀ f ∈ r, x < f.1) :
    valueAt nullValue (l ++ e :: r) x = e.2 := by
  rw [append_cons, valueAt_append_left h, valueAt, inForce_append, inForce_singleton he,
    some_or, map_some, getD_some]

/-- Where an entry of the right part is in force, what stands before it does not count. -/
theorem valueAt_append_right (he : e.1 ≤ x) :
    valueAt nullValue (l ++ e :: r) x = valueAt nullValue (e :: r) x := by
  have hsome : ∃ g, inForce fst x (e :: r) = some g := by
    refine ne_none_iff_exists'.mp fun hnone => ?_
    rw [inForce, getLast?_eq_none_iff, filter_eq_nil_iff] at hnone
    exact hnone e mem_cons_self (decide_eq_true he)
  obtain ⟨g, hg⟩ := hsome
  rw [valueAt, inForce_append, hg, some_or, valueAt, hg]

end

/-- What holds between operations: the first key is negative and the others are not, neighbours have
different values, and the last value is null. -/
structure WellFormed (nullValue : V) (container : List (Int × V)) : Prop where
  first : ∃ e rest, container = e :: rest ∧ e.1 < 0 ∧ ∀ f ∈ rest, 0 ≤ f.1
  sorted : container.Pairwise fun e f => e.1 < f.1
  changes : container.IsChain fun e f => e.2 ≠ f.2
  last : ∀ e ∈ container.getLast?, e.2 = nullValue

/-- The entries before a range, those from its start to its end, and those behind it. -/
structure Cut (container : List (Int × V)) (a b : Int) (l : List (Int × V)) (p : Int × V)
    (B C : List (Int × V)) : Prop where
  eq : container = l ++ p :: (B ++ C)
  before : ∀ e ∈ l ++ [p], e.1 < a
  inside : ∀ e ∈ B, a ≤ e.1 ∧ e.1 ≤ b
  after : ∀ e ∈ C, b < e.1

section

omit [DecidableEq V]

theorem WellFormed.exists_cut (h : WellFormed nullValue container) (ha : 0 ≤ a) :
    ∃ l p B C, Cut container a b l p B C := by
  obtain ⟨before, rest, hsplit, hbefore, hrest⟩ := Foundations.exists_cut a h.sorted
  have hsorted := h.sorted
  rw [hsplit] at hsorted
  obtain ⟨B, C, hsplit', hB, hC⟩ := Foundations.exists_cut (b + 1) (pairwise_append.mp hsorted).2.1
  obtain ⟨e, es, hfirst, hneg, -⟩ := h.first
  cases before using reverseRecOn with
  | nil =>
    have hmem : e ∈ rest := by
      rw [← nil_append rest, ← hsplit, hfirst]
      exact mem_cons_self
    have := hrest e hmem
    omega
  | append_singleton l p =>
    refine ⟨l, p, B, C, ?_, hbefore, fun e he => ⟨hrest e ?_, ?_⟩, fun e he => ?_⟩
    · rw [hsplit, hsplit', append_assoc, singleton_append]
    · rw [hsplit']
      exact mem_append_left C he
    · have := hB e he
      omega
    · have := hC e he
      omega

theorem Cut.lt (hcut : Cut container a b l p B C) : p.1 < a :=
  hcut.before p (by simp)

/-- The last entry that is not behind the range. -/
theorem Cut.exists_last (hcut : Cut container a b l p B C) (hab : a ≤ b) :
    ∃ k z, l ++ p :: B = k ++ [z] ∧ container = k ++ z :: C ∧ z.1 ≤ b := by
  cases B using reverseRecOn with
  | nil =>
    have := hcut.lt
    exact ⟨l, p, rfl, hcut.eq, by omega⟩
  | append_singleton B z =>
    refine ⟨l ++ p :: B, z, by simp, by simp [hcut.eq], ?_⟩
    exact (hcut.inside z (by simp)).2

/-- Entries with the same value in front of a list make no difference behind them. -/
theorem valueAt_cons_congr (he : e.1 ≤ x) (hf : f.1 ≤ x) (hvalue : e.2 = f.2) :
    valueAt nullValue (e :: r) x = valueAt nullValue (f :: r) x := by
  have hcons : ∀ g : Int × V, g.1 ≤ x →
      valueAt nullValue (g :: r) x = ((inForce fst x r).map snd).getD g.2 := by
    intro g hg
    rw [← singleton_append, valueAt, inForce_append, inForce_singleton hg]
    cases inForce fst x r with
    | none => rfl
    | some c => rfl
  rw [hcons e he, hcons f hf, hvalue]

/-- Other entries in the range, the last of which has the value that held at its end. -/
theorem WellFormed.replace (h : WellFormed nullValue container) (hcut : Cut container a b l p B C)
    (ha : 0 ≤ a) (hab : a ≤ b) {M : List (Int × V)} (hM : ∀ e ∈ M, a ≤ e.1 ∧ e.1 ≤ b)
    (hsorted : M.Pairwise fun e f => e.1 < f.1) (hchanges : (p :: M).IsChain fun e f => e.2 ≠ f.2)
    (hlast : ∀ y ∈ (p :: M).getLast?, y.2 = valueAt nullValue container b) :
    WellFormed nullValue (l ++ p :: (M ++ C)) ∧
      ∀ x, b ≤ x → valueAt nullValue (l ++ p :: (M ++ C)) x = valueAt nullValue container x := by
  have hp := hcut.lt
  obtain ⟨k, z, hk, hcontainer, hz⟩ := hcut.exists_last hab
  have hvalue : valueAt nullValue container b = z.2 := by
    rw [hcontainer]
    exact valueAt_eq hz hcut.after
  obtain ⟨y, hy⟩ : ∃ y, (p :: M).getLast? = some y := ⟨_, getLast?_cons⟩
  have hyz : y.2 = z.2 := (hlast y hy).trans hvalue
  have hyb : y.1 ≤ b := by
    rcases mem_cons.mp (mem_of_getLast? hy) with rfl | hmem
    · omega
    · exact (hM y hmem).2
  obtain ⟨n, hn⟩ := getLast?_eq_some_iff.mp hy
  have hnew : l ++ p :: (M ++ C) = (l ++ n) ++ y :: C := by
    rw [← cons_append, hn]
    simp
  refine ⟨?_, fun x hx => ?_⟩
  · constructor
    case first =>
      obtain ⟨e, rest, hfirst, hneg, hpos⟩ := h.first
      have hC : ∀ f ∈ C, 0 ≤ f.1 := fun f hf => by
        have := hcut.after f hf
        omega
      have hrest : ∀ f ∈ M ++ C, 0 ≤ f.1 := fun f hf => by
        rcases mem_append.mp hf with hf | hf
        · have := (hM f hf).1
          omega
        · exact hC f hf
      rw [hcut.eq] at hfirst
      cases l with
      | nil =>
        rw [nil_append, cons.injEq] at hfirst
        exact ⟨p, M ++ C, rfl, hfirst.1 ▸ hneg, hrest⟩
      | cons c l =>
        rw [cons_append, cons.injEq] at hfirst
        refine ⟨c, l ++ p :: (M ++ C), rfl, hfirst.1 ▸ hneg, fun f hf => ?_⟩
        rw [← hfirst.2] at hpos
        rw [append_cons] at hf
        rcases mem_append.mp hf with hf | hf
        · refine hpos f ?_
          rw [append_cons]
          exact mem_append_left _ hf
        · exact hrest f hf
    case sorted =>
      have hold := h.sorted
      rw [hcut.eq, append_cons, ← append_assoc] at hold
      obtain ⟨hleft, hright, hacross⟩ := pairwise_append.mp hold
      rw [append_cons, ← append_assoc]
      refine pairwise_append.mpr ⟨pairwise_append.mpr
        ⟨(pairwise_append.mp hleft).1, hsorted, fun e he f hf => ?_⟩, hright, fun e he f hf => ?_⟩
      · exact lt_of_lt_of_le (hcut.before e he) (hM f hf).1
      · rcases mem_append.mp he with he | he
        · exact hacross e (mem_append_left _ he) f hf
        · exact lt_of_le_of_lt (hM e he).2 (hcut.after f hf)
    case changes =>
      have hold := h.changes
      have hleft : (l ++ [p]).IsChain fun e f => e.2 ≠ f.2 := by
        rw [hcut.eq, append_cons] at hold
        exact hold.left_of_append
      have hright : (z :: C).IsChain fun e f => e.2 ≠ f.2 := by
        rw [hcontainer] at hold
        exact hold.right_of_append
      have hmiddle : (l ++ p :: M).IsChain fun e f => e.2 ≠ f.2 := by
        refine isChain_append.mpr ⟨hleft.left_of_append, hchanges, fun e he f hf => ?_⟩
        obtain rfl := some.inj hf
        exact (isChain_append.mp hleft).2.2 e he p rfl
      rw [← cons_append, ← append_assoc]
      refine isChain_append.mpr ⟨hmiddle, hright.tail, fun e he f hf => ?_⟩
      have hey : e = y := by
        rw [getLast?_append_of_ne_nil _ (by simp), hy] at he
        exact (some.inj he).symm
      cases C with
      | nil => exact absurd hf (by simp)
      | cons c C =>
        obtain rfl := some.inj hf
        rw [hey, hyz]
        exact (isChain_cons_cons.mp hright).1
    case last =>
      have hold := h.last
      intro e he
      rw [hnew] at he
      cases C with
      | nil =>
        rw [getLast?_concat] at he
        rw [hcontainer, getLast?_concat] at hold
        rw [← some.inj he, hyz]
        exact hold z rfl
      | cons c C =>
        refine hold e ?_
        rw [hcontainer, append_cons, getLast?_append_of_ne_nil _ (by simp)]
        rw [append_cons, getLast?_append_of_ne_nil _ (by simp)] at he
        exact he
  · rw [hnew, hcontainer, valueAt_append_right (by omega), valueAt_append_right (by omega)]
    exact valueAt_cons_congr (by omega) (by omega) hyz

end

/-! ## The iterators -/

section

omit [DecidableEq V]

theorem Cut.lowerBound_eq (hcut : Cut container a b l p B C) (hab : a ≤ b) :
    lowerBound container a = l.length + 1 := by
  have hsplit : container = (l ++ [p]) ++ (B ++ C) := by rw [hcut.eq, append_cons]
  rw [lowerBound, hsplit, findIdx_cut hcut.before fun e he => ?_]
  · simp
  · rcases mem_append.mp he with he | he
    · exact (hcut.inside e he).1
    · have := hcut.after e he
      omega

theorem Cut.upperBound_eq (hcut : Cut container a b l p B C) (hab : a ≤ b) :
    upperBound container b = l.length + 1 + B.length := by
  have hsplit : container = (l ++ p :: B) ++ C := by simp [hcut.eq]
  have hpred : (fun entry : Int × V => decide (b < entry.1)) =
      fun entry => !decide (entry.1 < b + 1) := by
    funext entry
    rw [← decide_not, decide_eq_decide]
    omega
  have hbefore : ∀ e ∈ l ++ p :: B, e.1 < b + 1 := by
    intro e he
    rw [append_cons] at he
    rcases mem_append.mp he with he | he
    · have := hcut.before e he
      omega
    · have := (hcut.inside e he).2
      omega
  rw [upperBound, hpred, hsplit, findIdx_cut hbefore fun e he => ?_]
  · rw [length_append, length_cons]
    omega
  · have := hcut.after e he
    omega

theorem emplace_eq {key : Int} (hl : ∀ e ∈ l, e.1 < key) (hr : ∀ e ∈ r, key < e.1) :
    emplace (l ++ r) key value = l ++ (key, value) :: r := by
  have hbound : lowerBound (l ++ r) key = l.length := findIdx_cut hl fun e he => le_of_lt (hr e he)
  have hnew : ((l ++ r)[l.length]?).map fst ≠ some key := by
    rw [getElem?_append_right le_rfl, Nat.sub_self]
    cases r with
    | nil => simp
    | cons e r =>
      have := hr e mem_cons_self
      simp only [getElem?_cons_zero, map_some, ne_eq, some.injEq]
      omega
  rw [emplace]
  simp only [hbound]
  rw [if_neg hnew, take_left, drop_left]

end

variable {m : RangeMap w V}

section

omit [DecidableEq V]

theorem Cut.getFirstValueWithin_eq (hcut : Cut m.container a b l p B C)
    (h : WellFormed m.nullValue m.container) (hab : a ≤ b) :
    m.getFirstValueWithin a = some p.2 := by
  have hlast := h.last
  rw [getFirstValueWithin]
  simp only [hcut.lowerBound_eq hab]
  rw [if_neg (by omega)]
  have hget : (m.container[l.length + 1 - 1]?).map snd = some p.2 := by
    simp [hcut.eq]
  split_ifs with hend
  · -- the last value is null
    rw [← hget, Nat.add_sub_cancel]
    rw [getLast?_eq_getElem?, ← hend, Nat.add_sub_cancel] at hlast
    have hp : m.container[l.length]? = some p := by simp [hcut.eq]
    rw [hp, map_some, hlast p hp]
  · exact hget

theorem Cut.getLastValueWithin_eq (hcut : Cut m.container a b l p B C)
    (h : WellFormed m.nullValue m.container) (hab : a ≤ b) :
    m.getLastValueWithin b = some (valueAt m.nullValue m.container b) := by
  obtain ⟨k, z, hk, hcontainer, hz⟩ := hcut.exists_last hab
  have hvalue : valueAt m.nullValue m.container b = z.2 := by
    rw [hcontainer]
    exact valueAt_eq hz hcut.after
  have hlength : l.length + 1 + B.length = k.length + 1 := by
    have := congrArg length hk
    simp only [length_append, length_cons, length_nil] at this
    omega
  rw [getLastValueWithin]
  simp only [hcut.upperBound_eq hab, hlength]
  split_ifs with hend hzero
  · rw [hvalue]
    have hlast := h.last z (by rw [getLast?_eq_getElem?, ← hend]; simp [hcontainer])
    rw [hlast]
  · exact hzero.elim
  · rw [hvalue, hcontainer]
    simp

theorem Cut.eraseRange_eq (hcut : Cut container a b l p B C) (hab : a ≤ b) :
    eraseRange container (lowerBound container a) (upperBound container b) =
      some (l ++ p :: C) := by
  rw [hcut.lowerBound_eq hab, hcut.upperBound_eq hab, eraseRange, if_pos (by omega)]
  have htake : container.take (l.length + 1) = l ++ [p] := by
    rw [hcut.eq, append_cons]
    exact take_left' (by simp)
  have hdrop : container.drop (l.length + 1 + B.length) = C := by
    rw [hcut.eq, append_cons, ← append_assoc]
    exact drop_left' (by simp; omega)
  rw [htake, hdrop, ← append_cons]

end

/-! ## The operations -/

/-- The entries that `InternalMap` puts into the range: its ends, where the value changes there. -/
def ends (first last value : V) (a b : Int) : List (Int × V) :=
  (if first ≠ value then [(a, value)] else []) ++ if last ≠ value then [(b, last)] else []

theorem mem_ends {first : V} (hab : a < b) :
    ∀ e ∈ ends first last value a b, a ≤ e.1 ∧ e.1 ≤ b := by
  intro e he
  rw [ends, mem_append] at he
  rcases he with he | he
  · split_ifs at he
    · obtain rfl := mem_singleton.mp he
      exact ⟨le_rfl, le_of_lt hab⟩
    · exact absurd he not_mem_nil
  · split_ifs at he
    · obtain rfl := mem_singleton.mp he
      exact ⟨le_of_lt hab, le_rfl⟩
    · exact absurd he not_mem_nil

theorem sorted_ends {first : V} (hab : a < b) :
    (ends first last value a b).Pairwise fun e f => e.1 < f.1 := by
  rw [ends]
  split_ifs <;> simp [hab]

theorem changes_ends : (p :: ends p.2 last value a b).IsChain fun e f => e.2 ≠ f.2 := by
  rw [ends]
  split_ifs with hstart hend hend
  · simp [hstart, Ne.symm hend]
  · simp [hstart]
  · rw [not_not] at hstart
    simp [hstart, Ne.symm hend]
  · simp

theorem getLast_ends : ∀ y ∈ (p :: ends p.2 last value a b).getLast?, y.2 = last := by
  rw [ends]
  split_ifs with hstart hend hend
  · simp
  · rw [not_not] at hend
    simp [hend]
  · simp
  · rw [not_not] at hstart hend
    simp [hstart, hend]

/-- Between the ends the new value is in force. -/
theorem valueAt_ends (hp : p.1 < a) (hax : a ≤ x) (hxb : x < b) (hC : ∀ e ∈ C, x < e.1) :
    valueAt nullValue (l ++ p :: (ends p.2 last value a b ++ C)) x = value := by
  have hrest : ∀ e ∈ (if last ≠ value then [(b, last)] else []) ++ C, x < e.1 := by
    intro e he
    rcases mem_append.mp he with he | he
    · split_ifs at he
      · obtain rfl := mem_singleton.mp he
        exact hxb
      · exact absurd he not_mem_nil
    · exact hC e he
  rw [ends, append_assoc]
  by_cases hstart : p.2 ≠ value
  · rw [if_pos hstart, append_cons, singleton_append]
    exact valueAt_eq hax hrest
  · rw [if_neg hstart, nil_append]
    rw [not_not] at hstart
    exact (valueAt_eq (by omega) hrest).trans hstart

/-- `InternalMap` of a range that is not empty. -/
theorem internalMap_spec (h : WellFormed m.nullValue m.container) (ha : 0 ≤ a) (hab : a < b)
    (value : V) : ∃ m', m.internalMap a b value = some m' ∧ m'.nullValue = m.nullValue ∧
      WellFormed m.nullValue m'.container ∧
      ∀ x, valueAt m.nullValue m'.container x =
        if a ≤ x ∧ x < b then value else valueAt m.nullValue m.container x := by
  obtain ⟨l, p, B, C, hcut⟩ := h.exists_cut (b := b) ha
  have hp := hcut.lt
  generalize hlast : valueAt m.nullValue m.container b = last
  -- the two insertions put the ends where they belong
  have hinsert : (if last ≠ value then
      emplace (if p.2 ≠ value then emplace (l ++ p :: C) a value else l ++ p :: C) b last
      else if p.2 ≠ value then emplace (l ++ p :: C) a value else l ++ p :: C) =
      l ++ p :: (ends p.2 last value a b ++ C) := by
    have hstart : (if p.2 ≠ value then emplace (l ++ p :: C) a value else l ++ p :: C) =
        (l ++ p :: (if p.2 ≠ value then [(a, value)] else [])) ++ C := by
      split_ifs
      · rw [append_cons, emplace_eq hcut.before fun e he => ?_]
        · simp
        · have := hcut.after e he
          omega
      · simp
    rw [hstart, ends]
    by_cases hend : last ≠ value
    · rw [if_pos hend, if_pos hend, emplace_eq ?_ hcut.after]
      · simp
      · intro e he
        rw [append_cons] at he
        rcases mem_append.mp he with he | he
        · have := hcut.before e he
          omega
        · split_ifs at he
          · obtain rfl := mem_singleton.mp he
            exact hab
          · exact absurd he not_mem_nil
    · rw [if_neg hend, if_neg hend]
      simp
  obtain ⟨hwf, hafter⟩ := h.replace hcut ha (le_of_lt hab) (mem_ends hab) (sorted_ends hab)
    changes_ends fun y hy => (getLast_ends y hy).trans hlast.symm
  refine ⟨{ m with container := l ++ p :: (ends p.2 last value a b ++ C) }, ?_, rfl, hwf, fun x => ?_⟩
  · simp only [internalMap, hcut.getFirstValueWithin_eq h (le_of_lt hab),
      hcut.getLastValueWithin_eq h (le_of_lt hab), hcut.eraseRange_eq (le_of_lt hab), hlast,
      bind_eq_bind, bind_some, hinsert]
    rfl
  · by_cases hin : a ≤ x ∧ x < b
    · rw [if_pos hin]
      exact valueAt_ends hp hin.1 hin.2 fun e he => lt_trans hin.2 (hcut.after e he)
    · rw [if_neg hin]
      by_cases hx : b ≤ x
      · exact hafter x hx
      · have hright : ∀ M : List (Int × V), (∀ e ∈ M, a ≤ e.1) →
            valueAt m.nullValue (l ++ p :: M) x = valueAt m.nullValue (l ++ [p]) x := by
          intro M hM
          rw [append_cons]
          exact valueAt_append_left fun e he => lt_of_lt_of_le (by omega) (hM e he)
        have hold : valueAt m.nullValue m.container x = valueAt m.nullValue (l ++ [p]) x := by
          rw [hcut.eq]
          refine hright (B ++ C) fun e he => ?_
          rcases mem_append.mp he with he | he
          · exact (hcut.inside e he).1
          · have := hcut.after e he
            omega
        rw [hold]
        refine hright _ fun e he => ?_
        rcases mem_append.mp he with he | he
        · exact (mem_ends hab e he).1
        · have := hcut.after e he
          omega

omit [DecidableEq V] in
/-- The entry that a key is looked up in, with the one behind it. -/
theorem WellFormed.exists_entry (h : WellFormed m.nullValue m.container) (hx : 0 ≤ x) :
    ∃ l e r, m.container = l ++ e :: r ∧ e.1 ≤ x ∧ (∀ f ∈ r, x < f.1) ∧
      m.getFirstElementBeforeOrOn x = l.length := by
  obtain ⟨l, p, B, C, hcut⟩ := h.exists_cut (b := x) hx
  have hp := hcut.lt
  have hbound := hcut.lowerBound_eq le_rfl
  rw [getFirstElementBeforeOrOn]
  simp only [hbound]
  rw [if_neg (by omega)]
  cases B with
  | nil =>
    refine ⟨l, p, C, hcut.eq, by omega, hcut.after, ?_⟩
    rw [if_neg, Nat.add_sub_cancel]
    have hget : m.container[l.length + 1]? = C[0]? := by
      rw [hcut.eq, nil_append, append_cons, getElem?_append_right (by simp)]
      simp
    rw [hget]
    cases C with
    | nil => simp
    | cons c C =>
      have := hcut.after c mem_cons_self
      simp only [getElem?_cons_zero, map_some, some.injEq]
      omega
  | cons e B =>
    have hin := hcut.inside e mem_cons_self
    have hex : e.1 = x := by omega
    have hcontainer : m.container = (l ++ [p]) ++ e :: (B ++ C) := by simp [hcut.eq]
    refine ⟨l ++ [p], e, B ++ C, hcontainer, by omega, fun f hf => ?_, ?_⟩
    · have hsorted := h.sorted
      rw [hcontainer] at hsorted
      have := (pairwise_cons.mp (pairwise_append.mp hsorted).2.1).1 f hf
      omega
    · have hget : m.container[l.length + 1]? = some e := by simp [hcut.eq]
      rw [hget, map_some, hex, if_pos rfl, length_append, length_singleton]

omit [DecidableEq V] in
theorem getValueInternal_eq (h : WellFormed m.nullValue m.container) (hx : 0 ≤ x) :
    m.getValueInternal x = valueAt m.nullValue m.container x := by
  obtain ⟨l, e, r, hcontainer, he, hr, hit⟩ := h.exists_entry hx
  have hget : m.container[l.length]? = some e := by simp [hcontainer]
  rw [getValueInternal, hit, hget, hcontainer, valueAt_eq he hr]

/-- `n` is the length of the run from `x` on along which a function is constant and not null. -/
def RunLength (f : Int → V) (nullValue : V) (x : Int) (n : Nat) : Prop :=
  if f x = nullValue then n = 0
  else 0 < n ∧ (∀ y, x ≤ y → y < x + n → f y = f x) ∧ f (x + n) ≠ f x

theorem continuousSizeInternal_spec (h : WellFormed m.nullValue m.container) (hx : 0 ≤ x) :
    RunLength (valueAt m.nullValue m.container) m.nullValue x (m.continuousSizeInternal x) := by
  obtain ⟨l, e, r, hcontainer, he, hr, hit⟩ := h.exists_entry hx
  have hget : m.container[l.length]? = some e := by simp [hcontainer]
  have hvalue : valueAt m.nullValue m.container x = e.2 := by
    rw [hcontainer]
    exact valueAt_eq he hr
  rw [RunLength, hvalue]
  simp only [continuousSizeInternal, hit, hget]
  split_ifs with hnull
  · rfl
  · cases r with
    | nil =>
      -- the last value is null
      refine absurd (h.last e ?_) hnull
      rw [hcontainer, getLast?_concat]
      rfl
    | cons f r =>
      have hf := hr f mem_cons_self
      have hnext : m.container[l.length + 1]? = some f := by simp [hcontainer]
      have hsorted := h.sorted
      have hchanges := h.changes
      have hsplit : m.container = (l ++ [e]) ++ f :: r := by simp [hcontainer]
      rw [hsplit] at hsorted
      rw [hcontainer] at hchanges
      have hbehind := (pairwise_cons.mp (pairwise_append.mp hsorted).2.1).1
      have hend : x + ((f.1 - x).toNat : Int) = f.1 := by omega
      simp only [hnext]
      refine ⟨by omega, fun y hxy hy => ?_, ?_⟩
      · rw [hend] at hy
        rw [hcontainer]
        refine valueAt_eq (by omega) fun g hg => ?_
        rcases mem_cons.mp hg with rfl | hg
        · exact hy
        · exact lt_trans hy (hbehind g hg)
      · rw [hend, hsplit, valueAt_eq le_rfl hbehind]
        exact (isChain_cons_cons.mp hchanges.right_of_append).1.symm

end Function

/-! ## Runs -/

/-- An operation of a range map. -/
inductive Operation (w : Nat) (V : Type) where
  | map (address addressEnd : BitVec w) (value : V)
  | unmap (address addressEnd : BitVec w)

namespace Operation

/-- A range of keys that are not negative. -/
def Valid : Operation w V → Prop
  | .map a b _ | .unmap a b => 0 ≤ a.toInt ∧ a.toInt < b.toInt

def apply (m : RangeMap w V) : Operation w V → Option (RangeMap w V)
  | .map a b value => m.map a b value
  | .unmap a b => m.unmap a b

/-- What an operation makes of a function. -/
def update (nullValue : V) (f : Int → V) : Operation w V → Int → V
  | .map a b value, x => if a.toInt ≤ x ∧ x < b.toInt then value else f x
  | .unmap a b, x => if a.toInt ≤ x ∧ x < b.toInt then nullValue else f x

end Operation

/-- The map after some operations, the last of which comes first. -/
def run (nullValue : V) : List (Operation w V) → Option (RangeMap w V)
  | [] => some (ofNull w nullValue)
  | op :: history => (run nullValue history).bind fun m => op.apply m

/-- The value of the last operation whose range contains a key. -/
def lastValue (nullValue : V) : List (Operation w V) → Int → V
  | [], _ => nullValue
  | op :: history, x => op.update nullValue (lastValue nullValue history) x

theorem map_spec {m : RangeMap w V} (h : WellFormed m.nullValue m.container) {a b : BitVec w}
    (ha : 0 ≤ a.toInt) (hab : a.toInt < b.toInt) (value : V) :
    ∃ m', m.map a b value = some m' ∧ m'.nullValue = m.nullValue ∧
      WellFormed m.nullValue m'.container ∧
      ∀ x, valueAt m.nullValue m'.container x =
        if a.toInt ≤ x ∧ x < b.toInt then value else valueAt m.nullValue m.container x := by
  have hstart : (if a.toInt < 0 then 0 else a.toInt) = a.toInt := if_neg (not_lt.mpr ha)
  have hend : (if b.toInt < 0 then 0 else b.toInt) = b.toInt := if_neg (by omega)
  rw [map]
  simp only [hstart, hend]
  exact internalMap_spec h ha hab value

theorem Operation.apply_spec {m : RangeMap w V} (h : WellFormed m.nullValue m.container)
    {op : Operation w V} (hop : op.Valid) :
    ∃ m', op.apply m = some m' ∧ m'.nullValue = m.nullValue ∧ WellFormed m.nullValue m'.container ∧
      ∀ x, valueAt m.nullValue m'.container x =
        op.update m.nullValue (valueAt m.nullValue m.container) x := by
  cases op with
  | map a b value => exact map_spec h hop.1 hop.2 value
  | unmap a b => exact map_spec h hop.1 hop.2 m.nullValue

omit [DecidableEq V] in
theorem wellFormed_ofNull (nullValue : V) :
    WellFormed nullValue (ofNull w nullValue).container where
  first := by
    refine ⟨(minKey w, nullValue), [], rfl, ?_, by simp⟩
    have : (0 : Int) < 2 ^ (w - 1) := by positivity
    rw [minKey]
    omega
  sorted := pairwise_singleton _ _
  changes := isChain_singleton _
  last := fun e he => by
    obtain rfl := some.inj he
    rfl

omit [DecidableEq V] in
theorem valueAt_ofNull (nullValue : V) (x : Int) :
    valueAt nullValue (ofNull w nullValue).container x = nullValue := by
  rw [valueAt, ofNull, inForce]
  by_cases hx : minKey w ≤ x
  · simp [hx]
  · simp [hx]

/-- Every run comes to a map that stands for the function of the last operations. -/
theorem run_spec (nullValue : V) (history : List (Operation w V))
    (hvalid : ∀ op ∈ history, op.Valid) :
    ∃ m : RangeMap w V, run nullValue history = some m ∧ m.nullValue = nullValue ∧
      WellFormed nullValue m.container ∧
      ∀ x, valueAt nullValue m.container x = lastValue nullValue history x := by
  induction history with
  | nil => exact ⟨_, rfl, rfl, wellFormed_ofNull nullValue, valueAt_ofNull nullValue⟩
  | cons op history ih =>
    obtain ⟨m, hm, hnull, hwf, hvalue⟩ := ih fun op hop => hvalid op (by simp [hop])
    subst hnull
    obtain ⟨m', hm', hnull', hwf', hvalue'⟩ := Operation.apply_spec hwf (hvalid op (by simp))
    refine ⟨m', by rw [run, hm, bind_some, hm'], hnull', hwf', fun x => ?_⟩
    have hfun : valueAt m.nullValue m.container = lastValue m.nullValue history := funext hvalue
    rw [hvalue', hfun, lastValue]

omit [DecidableEq V] in
/-- Only ranges of keys that are not negative are ever given a value. -/
theorem lastValue_of_neg (nullValue : V) {history : List (Operation w V)}
    (hvalid : ∀ op ∈ history, op.Valid) {x : Int} (hx : x < 0) :
    lastValue nullValue history x = nullValue := by
  induction history with
  | nil => rfl
  | cons op history ih =>
    have hop := hvalid op (by simp)
    have hrest := ih fun op hop => hvalid op (by simp [hop])
    cases op with
    | map a b value =>
      have hneg : ¬(a.toInt ≤ x ∧ x < b.toInt) := fun hin => by
        have := hop.1
        omega
      rw [lastValue, Operation.update, if_neg hneg, hrest]
    | unmap a b => rw [lastValue, Operation.update, hrest, ite_self]

/-- A run of operations on ranges that are not negative: the map gives every key the value of the last
operation on it, neighbouring keys of the container have different values, and the length of a run of
equal values is what the map says. -/
theorem run_refines (nullValue : V) (history : List (Operation w V))
    (hvalid : ∀ op ∈ history, op.Valid) :
    ∃ m : RangeMap w V, run nullValue history = some m ∧
      (∀ x : BitVec w, m.getValueAt x = lastValue nullValue history x.toInt) ∧
      (m.container.IsChain fun e f => e.2 ≠ f.2) ∧
      ∀ x : BitVec w, RunLength (lastValue nullValue history) nullValue x.toInt
        (m.getContinuousSizeFrom x) := by
  obtain ⟨m, hm, hnull, hwf, hvalue⟩ := run_spec nullValue history hvalid
  subst hnull
  have hfun : valueAt m.nullValue m.container = lastValue m.nullValue history := funext hvalue
  refine ⟨m, hm, fun x => ?_, hwf.changes, fun x => ?_⟩
  · rw [getValueAt]
    split_ifs with hneg
    · exact (lastValue_of_neg m.nullValue hvalid hneg).symm
    · rw [getValueInternal_eq hwf (not_lt.mp hneg), hvalue]
  · rw [getContinuousSizeFrom]
    split_ifs with hneg
    · rw [RunLength, if_pos (lastValue_of_neg m.nullValue hvalid hneg)]
    · rw [← hfun]
      exact continuousSizeInternal_spec hwf (not_lt.mp hneg)

/-- The end of a range is unmapped. -/
theorem run_refines_nested :
    (∀ op ∈ [Operation.unmap 32 36, .map (30 : BitVec 64) 35 (1 : Nat)], op.Valid) ∧
    ∃ m : RangeMap 64 Nat, run 0 [.unmap 32 36, .map 30 35 1] = some m ∧
      RunLength (lastValue 0 [.unmap 32 36, .map (30 : BitVec 64) 35 1]) 0 31
        (m.getContinuousSizeFrom 31) := by
  have hvalid : ∀ op ∈ [Operation.unmap 32 36, .map (30 : BitVec 64) 35 (1 : Nat)], op.Valid := by
    intro op hop
    simp only [mem_cons, not_mem_nil, or_false] at hop
    rcases hop with rfl | rfl
    · exact ⟨by decide, by decide⟩
    · exact ⟨by decide, by decide⟩
  obtain ⟨m, hm, -, -, hrun⟩ := run_refines 0 _ hvalid
  exact ⟨hvalid, m, hm, hrun 31⟩

end RangeMap

end Sudachi.Common
