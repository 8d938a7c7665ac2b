import Mathlib.Data.List.Range
import Mathlib.Data.List.Nodup
import Sudachi.Common.SlotVectorIteration
import Sudachi.Foundations.Runs

/-!
# Runs of a slot vector

A run inserts values and erases ids that it was given and has not erased. Beside the vector the
pairs of an id and its value are kept that the run holds. The free indices and the held ids are
together the indices below the capacity (`Books.Tracks`), so that ids are distinct, each refers to
its value, and `size` counts them.

Iterating is another matter. The word that `begin` starts from is counted with the wrong sign, so
that the iterator starts where it should only when the first word has a bit. A run is sound exactly
when no insertion is made with `2 ^ 31` values stored, and in each of its states there is nothing
stored or an id below 64 (`run_sound_iff`).
-/

set_option autoImplicit false

namespace Sudachi.Common.SlotVector

open Sudachi.Foundations.Runs List Function

/-- An operation of a run. -/
inductive Operation (T : Type)
  | insert (x : T)
  | erase (id : Nat)

/-- A vector with the ids that were handed out and not erased, and their values. -/
structure Books (T : Type) where
  vector : SlotVector T
  stored : List (Nat × T)

variable {T : Type}

namespace Books

def ids (b : Books T) : List Nat := b.stored.map Prod.fst

/-- The books of a new vector. -/
def start : Books T := ⟨SlotVector.empty, []⟩

def step (b : Books T) : Operation T → Books T
  | .insert x => ⟨(b.vector.insert x).2, b.stored ++ [((b.vector.insert x).1, x)]⟩
  | .erase id => ⟨b.vector.erase id, b.stored.filter fun p => p.1 ≠ id⟩

/-- An id that is erased was handed out, and not erased since. -/
def ErasesStored (b : Books T) : Operation T → Prop
  | .insert _ => True
  | .erase id => id ∈ b.ids

/-- What a client relies on. -/
structure Sound (b : Books T) : Prop where
  distinct : b.ids.Nodup
  value : ∀ p ∈ b.stored, b.vector.get p.1 = some p.2
  size : b.vector.size = b.stored.length
  iteration : ∃ ids, Visits b.vector b.vector.beginIndex ids ∧ ids.Pairwise (· < ·) ∧
    ∀ id, id ∈ ids ↔ id ∈ b.ids

/-- There is nothing stored, or something in the first word. -/
def StartsEarly (b : Books T) : Prop := b.stored = [] ∨ ∃ id ∈ b.ids, id < 64

/-- An insertion is made with fewer than half of the indices of a `u32` in use. -/
def BelowLimit (b : Books T) : Operation T → Prop
  | .insert _ => b.stored.length < 2 ^ 31
  | .erase _ => True

instance (b : Books T) (op : Operation T) : Decidable (b.ErasesStored op) :=
  match op with
  | .insert _ => inferInstanceAs (Decidable True)
  | .erase id => inferInstanceAs (Decidable (id ∈ b.ids))

instance (b : Books T) : Decidable b.StartsEarly :=
  inferInstanceAs (Decidable (b.stored = [] ∨ ∃ id ∈ b.ids, id < 64))

instance (b : Books T) (op : Operation T) : Decidable (b.BelowLimit op) :=
  match op with
  | .insert _ => inferInstanceAs (Decidable (b.stored.length < 2 ^ 31))
  | .erase _ => inferInstanceAs (Decidable True)

/-- How the books of the vector fit to the pairs of the run. -/
structure Tracks (b : Books T) : Prop where
  indices : (b.vector.freeList ++ b.ids).Perm (List.range b.vector.valuesCapacity)
  value : ∀ i x, b.vector.values i = some x ↔ (i, x) ∈ b.stored
  bit : ∀ i, b.vector.readStorageBit i = true ↔ i ∈ b.ids
  words : b.vector.storedBitset.length = (b.vector.valuesCapacity + 63) / 64
  capacity : b.vector.valuesCapacity = 0 ∨ ∃ k, b.vector.valuesCapacity = 2 ^ k

namespace Tracks

variable {b : Books T}

theorem nodup (h : Tracks b) : (b.vector.freeList ++ b.ids).Nodup :=
  h.indices.nodup_iff.mpr nodup_range

theorem id_lt (h : Tracks b) {id : Nat} (hid : id ∈ b.ids) : id < b.vector.valuesCapacity :=
  mem_range.mp (h.indices.subset (mem_append_right _ hid))

theorem length_eq (h : Tracks b) :
    b.vector.freeList.length + b.stored.length = b.vector.valuesCapacity := by
  have hlength := h.indices.length_eq
  rwa [length_append, length_range, ids, length_map] at hlength

theorem word_lt (h : Tracks b) {i : Nat} (hi : i < b.vector.valuesCapacity) :
    i / 64 < b.vector.storedBitset.length := by
  rw [h.words]
  omega

end Tracks

variable {b : Books T}

theorem tracks_start : Tracks (start : Books T) where
  indices := .refl []
  value i x := by simp [start, SlotVector.empty]
  bit i := by simp [start, SlotVector.empty, readStorageBit_eq, ids]
  words := by simp [start, SlotVector.empty]
  capacity := .inl rfl

/-! ## The two operations -/

/-- The capacity that `FreeValueIndex` reserves when no index is free. -/
def grown (capacity : Nat) : Nat := if capacity ≠ 0 then capacity * 2 % 2 ^ 64 else 1

theorem lt_grown (capacity : Nat) (hlow : capacity < 2 ^ 32) : capacity < grown capacity := by
  rw [grown]
  split <;> omega

theorem grown_le {capacity : Nat} (hlow : capacity ≤ 2 ^ 31) : grown capacity ≤ 2 ^ 32 := by
  rw [grown]
  split <;> omega

theorem map_iota {capacity newCapacity : Nat} (hhigh : newCapacity ≤ 2 ^ 32) :
    (range (newCapacity - capacity)).map (fun i => (capacity + i) % 2 ^ 32) =
      (range (newCapacity - capacity)).map (capacity + ·) := by
  refine map_congr_left ?_
  intro i hi
  have hlt := mem_range.mp hi
  exact Nat.mod_eq_of_lt (by omega)

/-- Growing a full vector keeps what it holds. -/
theorem Tracks.reserve (h : Tracks b) (hfull : b.vector.freeList = [])
    (hlow : b.vector.valuesCapacity ≤ 2 ^ 31) :
    Tracks ⟨b.vector.reserve (grown b.vector.valuesCapacity), b.stored⟩ := by
  have hgrown := lt_grown b.vector.valuesCapacity (by omega)
  have hwords : b.vector.storedBitset.length ≤ (grown b.vector.valuesCapacity + 63) / 64 := by
    rw [h.words]
    omega
  have hfree : (b.vector.reserve (grown b.vector.valuesCapacity)).freeList =
      (range (grown b.vector.valuesCapacity - b.vector.valuesCapacity)).map
        (b.vector.valuesCapacity + ·) := by
    show b.vector.freeList ++ _ = _
    rw [hfull, nil_append, map_iota (grown_le hlow)]
  constructor
  · have hids : b.ids.Perm (range b.vector.valuesCapacity) := by
      simpa [hfull] using h.indices
    have hsum : range (grown b.vector.valuesCapacity) = range b.vector.valuesCapacity ++
          (range (grown b.vector.valuesCapacity - b.vector.valuesCapacity)).map
            (b.vector.valuesCapacity + ·) := by
      rw [← range_add]
      congr 1
      omega
    show (_ ++ b.ids).Perm (range (grown b.vector.valuesCapacity))
    rw [hfree, hsum]
    exact perm_append_comm.trans (hids.append_right _)
  · intro i x
    show (b.vector.reserve _).values i = some x ↔ (i, x) ∈ b.stored
    rw [values_reserve, ← h.value]
    by_cases hbit : b.vector.readStorageBit i = true
    · rw [if_pos hbit]
    · rw [if_neg hbit]
      constructor
      · intro hnone
        cases hnone
      · intro hvalue
        exact absurd ((h.bit i).mpr (mem_map_of_mem ((h.value i x).mp hvalue))) hbit
  · intro i
    show (b.vector.reserve _).readStorageBit i = true ↔ _
    rw [readStorageBit_reserve hwords]
    exact h.bit i
  · exact length_resize hwords
  · show grown b.vector.valuesCapacity = 0 ∨ ∃ k, grown b.vector.valuesCapacity = 2 ^ k
    right
    rw [grown]
    split
    · obtain hzero | ⟨k, hk⟩ := h.capacity
      · contradiction
      · refine ⟨k + 1, ?_⟩
        rw [Nat.mod_eq_of_lt (by omega), hk, pow_succ]
    · exact ⟨0, rfl⟩

/-- A value goes to a free index. -/
theorem Tracks.place (h : Tracks b) (hfree : b.vector.freeList ≠ []) (x : T) :
    Tracks ⟨setStorageBit { b.vector with
        values := update b.vector.values (b.vector.freeList.getLastD 0) (some x)
        freeList := b.vector.freeList.dropLast } (b.vector.freeList.getLastD 0),
      b.stored ++ [(b.vector.freeList.getLastD 0, x)]⟩ := by
  have hback : b.vector.freeList.getLastD 0 = b.vector.freeList.getLast hfree :=
    getLastD_eq_getLast? .. |>.trans (by rw [getLast?_eq_some_getLast hfree]; rfl)
  rw [hback]
  have hlist : b.vector.freeList.dropLast ++ [b.vector.freeList.getLast hfree] =
      b.vector.freeList := dropLast_append_getLast hfree
  have hnodup := h.nodup
  generalize b.vector.freeList.getLast hfree = index at *
  have hmem : index ∈ b.vector.freeList := by
    rw [← hlist]
    exact mem_append_right _ (mem_singleton_self index)
  have hlt : index < b.vector.valuesCapacity :=
    mem_range.mp (h.indices.subset (mem_append_left _ hmem))
  have hnew : index ∉ b.ids := fun hid => disjoint_of_nodup_append hnodup hmem hid
  have hids : ids ⟨b.vector, b.stored ++ [(index, x)]⟩ = b.ids ++ [index] := by simp [ids]
  constructor
  · show (b.vector.freeList.dropLast ++ ids ⟨b.vector, b.stored ++ [(index, x)]⟩).Perm _
    have hmoved : (b.vector.freeList.dropLast ++ (b.ids ++ [index])).Perm
        (b.vector.freeList.dropLast ++ [index] ++ b.ids) := by
      rw [append_assoc]
      exact perm_append_comm.append_left _
    rw [hlist] at hmoved
    rw [hids]
    exact hmoved.trans h.indices
  · intro i y
    show update b.vector.values index (some x) i = some y ↔ (i, y) ∈ b.stored ++ [(index, x)]
    rw [mem_append, mem_singleton, Prod.mk.injEq]
    by_cases hi : i = index
    · subst hi
      rw [update_self]
      constructor
      · intro hy
        cases hy
        exact .inr ⟨rfl, rfl⟩
      · rintro (hy | ⟨-, rfl⟩)
        · exact absurd (mem_map_of_mem hy) hnew
        · rfl
    · rw [update_of_ne hi, h.value]
      simp [hi]
  · intro i
    show (setStorageBit _ index).readStorageBit i = true ↔ i ∈ ids ⟨b.vector, _⟩
    rw [readStorageBit_setStorageBit (by exact h.word_lt hlt), hids, mem_append,
      mem_singleton, Bool.or_eq_true, decide_eq_true_eq]
    exact or_congr_left (h.bit i)
  · show (b.vector.storedBitset.modify _ _).length = _
    rw [length_modify]
    exact h.words
  · exact h.capacity

/-- What an insertion makes of the capacity. -/
theorem Tracks.insert (h : Tracks b) (hlow : b.vector.valuesCapacity ≤ 2 ^ 31) (x : T) :
    Tracks (b.step (.insert x)) ∧ (b.step (.insert x)).vector.valuesCapacity =
      if b.vector.freeList = [] then grown b.vector.valuesCapacity
      else b.vector.valuesCapacity := by
  by_cases hfull : b.vector.freeList = []
  · have hgrown := lt_grown b.vector.valuesCapacity (by omega)
    have hreserved := h.reserve hfull hlow
    have hfree : (b.vector.reserve (grown b.vector.valuesCapacity)).freeList ≠ [] := by
      intro hnil
      have hlength := hreserved.length_eq
      have hbefore := h.length_eq
      simp only [hnil, hfull, length_nil, zero_add] at hlength hbefore
      have hsame : b.stored.length = grown b.vector.valuesCapacity := hlength
      omega
    have hindex : b.vector.freeValueIndex =
        ((b.vector.reserve (grown b.vector.valuesCapacity)).freeList.getLastD 0,
          { b.vector.reserve (grown b.vector.valuesCapacity) with
            freeList := (b.vector.reserve (grown b.vector.valuesCapacity)).freeList.dropLast }) := by
      simp only [freeValueIndex, hfull, if_true, grown]
    rw [if_pos hfull, step, SlotVector.insert, hindex]
    exact ⟨hreserved.place hfree x, rfl⟩
  · have hindex : b.vector.freeValueIndex = (b.vector.freeList.getLastD 0,
          { b.vector with freeList := b.vector.freeList.dropLast }) := by
      simp only [freeValueIndex, hfull, if_false]
    rw [if_neg hfull, step, SlotVector.insert, hindex]
    exact ⟨h.place hfull x, rfl⟩

theorem Tracks.erase (h : Tracks b) {id : Nat} (hid : id ∈ b.ids) :
    Tracks (b.step (.erase id)) := by
  have hnodup : b.ids.Nodup := h.nodup.of_append_right
  have hids : (b.step (.erase id)).ids = b.ids.erase id := by
    rw [hnodup.erase_eq_filter, ids, ids, filter_map]
    congr 1
    refine filter_congr ?_
    intro p _
    show decide (p.1 ≠ id) = (p.1 != id)
    rw [Bool.eq_iff_iff, decide_eq_true_eq, bne_iff_ne]
  constructor
  · show ((b.vector.freeList ++ [id]) ++ (b.step (.erase id)).ids).Perm _
    rw [hids, append_assoc]
    exact ((perm_cons_erase hid).symm.append_left _).trans h.indices
  · intro i x
    show update b.vector.values id none i = some x ↔ (i, x) ∈ b.stored.filter fun p => p.1 ≠ id
    rw [mem_filter, decide_eq_true_eq]
    by_cases hi : i = id
    · subst hi
      simp
    · rw [update_of_ne hi, h.value]
      simp [hi]
  · intro i
    show (resetStorageBit _ id).readStorageBit i = true ↔ i ∈ (b.step (.erase id)).ids
    rw [readStorageBit_resetStorageBit (by exact h.word_lt (h.id_lt hid)), hids,
      hnodup.mem_erase_iff, Bool.and_eq_true, Bool.not_eq_true', decide_eq_false_iff_not]
    exact (and_congr_left' (h.bit i)).trans and_comm
  · show (b.vector.storedBitset.modify _ _).length = _
    rw [length_modify]
    exact h.words
  · exact h.capacity

/-! ## What a state promises -/

/-- The vector fits to the pairs, and a `u32` counts its indices. -/
structure Inv (b : Books T) : Prop extends Tracks b where
  low : b.vector.valuesCapacity ≤ 2 ^ 31

theorem Tracks.sound_iff (h : Tracks b) :
    Sound b ↔ ∃ ids, Visits b.vector b.vector.beginIndex ids ∧ ids.Pairwise (· < ·) ∧
      ∀ id, id ∈ ids ↔ id ∈ b.ids := by
  constructor
  · exact fun hsound => hsound.iteration
  · intro hiteration
    refine ⟨h.nodup.of_append_right, ?_, ?_, hiteration⟩
    · intro p hp
      exact (h.value p.1 p.2).mpr hp
    · have hlength := h.length_eq
      show b.vector.valuesCapacity - b.vector.freeList.length = _
      omega

/-- An iterator that does not move from the start misses what is stored. -/
theorem Tracks.not_sound_of_stuck (h : Tracks b) (hne : b.stored ≠ [])
    (hstuck : b.vector.increment b.vector.beginIndex = b.vector.beginIndex) : ¬Sound b := by
  rw [h.sound_iff]
  rintro ⟨ids, hvisits, -, hmem⟩
  obtain ⟨p, hp⟩ := exists_mem_of_ne_nil _ hne
  have hid := (hmem p.1).mpr (mem_map_of_mem hp)
  rw [eq_nil_of_visits hstuck hvisits] at hid
  cases hid

theorem Inv.word_count (h : Inv b) : b.vector.storedBitset.length ≤ 2 ^ 25 := by
  rw [h.words]
  have hlow := h.low
  omega

theorem Inv.bit_eq_false (h : Inv b) {i : Nat} (hi : i ∉ b.ids) :
    b.vector.readStorageBit i = false :=
  Bool.eq_false_iff.mpr fun hbit => hi ((h.bit i).mp hbit)

theorem Inv.sound (h : Inv b) (hearly : StartsEarly b) : Sound b := by
  have hwords : b.vector.storedBitset.length * 64 < 2 ^ 32 := by
    have := h.word_count
    omega
  rw [h.sound_iff]
  obtain hnil | ⟨id, hid, hlow⟩ := hearly
  · have hids : b.ids = [] := by rw [ids, hnil, map_nil]
    have hnone : ∀ i, b.vector.readStorageBit i = false := by
      intro i
      refine h.bit_eq_false ?_
      rw [hids]
      exact not_mem_nil
    refine ⟨[], ?_, List.Pairwise.nil, fun id => by rw [hids]⟩
    rw [beginIndex_of_empty hnone]
    exact .stop
  · obtain ⟨hbit, hfirst⟩ := beginIndex_of_early hlow ((h.bit id).mpr hid)
    obtain ⟨visited, hvisits, hascending, hmem⟩ := visits_from hwords hbit
    refine ⟨visited, hvisits, hascending, fun j => ?_⟩
    rw [hmem, h.bit]
    refine and_iff_right_of_imp ?_
    intro hj
    by_contra hbefore
    rw [← h.bit, hfirst j (Nat.lt_of_not_le hbefore)] at hj
    cases hj

theorem Inv.startsEarly_of_sound (h : Inv b) (hsound : Sound b) : StartsEarly b := by
  by_contra hlate
  rw [StartsEarly, not_or] at hlate
  obtain ⟨hne, hnone⟩ := hlate
  obtain ⟨p, hp⟩ := exists_mem_of_ne_nil _ hne
  have hbit := (h.bit p.1).mpr (mem_map_of_mem hp)
  have hempty : ∀ j, j < 64 → b.vector.readStorageBit j = false :=
    fun j hj => h.bit_eq_false fun hid => hnone ⟨j, hid, hj⟩
  exact h.not_sound_of_stuck hne (increment_beginIndex_of_late h.word_count hbit hempty) hsound

/-! ## Runs -/

theorem inv_start : Inv (start : Books T) := ⟨tracks_start, Nat.zero_le _⟩

theorem Inv.step (h : Inv b) {op : Operation T} (hlegal : ErasesStored b op)
    (hlimit : BelowLimit b op) : Inv (b.step op) := by
  cases op with
  | insert x =>
    obtain ⟨htracks, hcapacity⟩ := h.toTracks.insert h.low x
    refine ⟨htracks, ?_⟩
    have hlow := h.low
    rw [hcapacity]
    split
    · rename_i hfull
      have hlength := h.length_eq
      rw [hfull, length_nil, zero_add] at hlength
      have hstored : b.stored.length < 2 ^ 31 := hlimit
      rw [grown]
      split
      · rename_i hpos
        obtain hzero | ⟨k, hk⟩ := h.capacity
        · exact absurd hzero hpos
        · rw [hlength, hk, Nat.pow_lt_pow_iff_right (by decide)] at hstored
          have hgrown : 2 ^ k * 2 ≤ 2 ^ 31 := by
            rw [← pow_succ]
            exact Nat.pow_le_pow_right (by decide) hstored
          rw [hk]
          exact le_trans (Nat.mod_le _ _) hgrown
      · decide
    · exact hlow
  | erase id => exact ⟨h.toTracks.erase hlegal, h.low⟩

/-- An insertion past the limit leaves as many bits as a `u32` has values. -/
theorem Inv.not_sound_of_limit (h : Inv b) (x : T)
    (hlimit : ¬BelowLimit b (.insert x)) : ¬Sound (b.step (.insert x)) := by
  have hlow := h.low
  have hlength := h.length_eq
  have hstored : ¬b.stored.length < 2 ^ 31 := hlimit
  have hfull : b.vector.freeList = [] := eq_nil_of_length_eq_zero (by omega)
  have hcapacity : b.vector.valuesCapacity = 2 ^ 31 := by omega
  obtain ⟨htracks, hgrown⟩ := h.toTracks.insert hlow x
  rw [if_pos hfull, hcapacity] at hgrown
  have hwords := htracks.words
  rw [hgrown] at hwords
  refine htracks.not_sound_of_stuck ?_ (increment_of_full hwords _)
  exact append_ne_nil_of_right_ne_nil _ (cons_ne_nil _ _)

/-- The values of a run keep their distinct ids, are counted, and are all visited in each state of
the run, exactly when no insertion is made at the limit and no state has stored values but none in
the first word. -/
theorem run_sound_iff (operations : List (Operation T))
    (hlegal : Along step ErasesStored start operations) :
    Throughout step Sound start operations ↔
      Throughout step StartsEarly start operations ∧ Along step BelowLimit start operations := by
  have hstart : StartsEarly (start : Books T) := .inl rfl
  have hruns := throughout_iff_along (I := fun b : Books T => Inv b ∧ StartsEarly b)
    (Q := fun b op => BelowLimit b op ∧ StartsEarly (b.step op)) (P := Sound)
    (fun b h => h.1.sound h.2)
    (fun b op h hlegal hq => ⟨h.1.step hlegal hq.1, hq.2⟩)
    (fun b op h hlegal hq hsound => by
      by_cases hlimit : BelowLimit b op
      · exact hq ⟨hlimit, (h.1.step hlegal hlimit).startsEarly_of_sound hsound⟩
      · cases op with
        | insert x => exact h.1.not_sound_of_limit x hlimit hsound
        | erase id => exact hlimit trivial)
    ⟨inv_start, hstart⟩ hlegal
  exact hruns.trans (along_and_next_iff hstart)

/-- Three insertions with an erasure between them. -/
theorem run_sound_iff_threeInserts :
    Throughout step Sound start
      [.insert 'a', .insert 'b', .erase 0, .insert 'c'] := by
  refine (run_sound_iff _ ?_).mpr ⟨?_, ?_⟩
  · exact ⟨trivial, trivial, by decide, trivial, trivial⟩
  · refine ⟨.inl rfl, .inr ⟨0, by decide, by decide⟩, .inr ⟨0, by decide, by decide⟩,
      .inr ⟨1, by decide, by decide⟩, .inr ⟨1, by decide, by decide⟩⟩
  · exact ⟨by decide, by decide, trivial, by decide, trivial⟩

/-- A run that fills the first word, stores one value more and erases the first word. -/
def lateRun : List (Operation Unit) :=
  replicate 65 (.insert ()) ++ (List.range 64).map .erase

/-- At the end of the run one value is stored, and the loop over the vector visits none. -/
theorem not_sound_lateRun :
    ¬∀ operations : List (Operation Unit), Along step ErasesStored start operations →
      Throughout step Sound start operations := by
  intro h
  have hlegal : Along step ErasesStored start lateRun := by decide +kernel
  have hids : (lateRun.foldl step start).ids = [127] := by decide +kernel
  have hbegin : (lateRun.foldl step start).vector.beginIndex = invalidIndex := by decide +kernel
  obtain ⟨ids, hvisits, -, hmem⟩ := (h lateRun hlegal).last.iteration
  rw [hbegin] at hvisits
  have hvisited : 127 ∈ ids := (hmem 127).mpr (hids ▸ mem_singleton_self 127)
  cases hvisits with
  | stop => cases hvisited
  | visit hne hrest => exact hne rfl

end Books

end Sudachi.Common.SlotVector
