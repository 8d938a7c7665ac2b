import Mathlib.Data.List.GetD
import Sudachi.Common.SlotVector

/-!
# Iterating over a slot vector

An iterator that stands on a set bit visits the set bits from there on in ascending order
(`visits_from`). `begin` stands on the first set bit when the first word has one. When only later
words have one, it stands behind the last word, where `operator++` does not move it, and the loop
over the vector does not end or has no iteration (`increment_beginIndex_of_late`).
-/

set_option autoImplicit false

namespace Sudachi.Common.SlotVector

open Sudachi.Foundations List

variable {T : Type} {s : SlotVector T}

/-! ## The walk over the bits -/

variable {i : Nat}

theorem nextIndex_spec {count index : Nat} (hindex : index < count) :
    index < s.nextIndex count index ∧ s.nextIndex count index ≤ count ∧
      (∀ j, index < j → j < s.nextIndex count index → s.readStorageBit j = false) ∧
        (s.nextIndex count index < count → s.readStorageBit (s.nextIndex count index) = true) := by
  induction index using nextIndex.induct s count with
  | case1 index hskip ih =>
    obtain ⟨hlt, hle, hbetween, hstop⟩ := ih hskip.1
    rw [nextIndex, if_pos hskip]
    refine ⟨Nat.lt_of_succ_lt hlt, hle, ?_, hstop⟩
    intro j hj hbefore
    rcases Nat.eq_or_lt_of_le hj with rfl | hj
    · exact hskip.2
    · exact hbetween j hj hbefore
  | case2 index hskip =>
    rw [nextIndex, if_neg hskip]
    refine ⟨Nat.lt_succ_self index, hindex, ?_, ?_⟩
    · intro j hj hbefore
      omega
    · intro hlt
      exact Bool.not_eq_false _ ▸ fun hfalse => hskip ⟨hlt, hfalse⟩

theorem readStorageBit_of_ge (hi : s.storedBitset.length * 64 ≤ i) :
    s.readStorageBit i = false := by
  have hout : s.storedBitset.length ≤ i / 64 := by omega
  rw [readStorageBit_eq, getD_eq_getElem?_getD, getElem?_eq_none hout]
  exact BitVec.getLsbD_zero

/-- The size that `operator++` computes, for bits that a `u32` can count. -/
theorem size_eq (hwords : s.storedBitset.length * 64 < 2 ^ 32) :
    s.storedBitset.length % 2 ^ 32 * 64 % 2 ^ 32 = s.storedBitset.length * 64 := by
  omega

theorem visits_from (hwords : s.storedBitset.length * 64 < 2 ^ 32)
    (hbit : s.readStorageBit i = true) : ∃ ids, Visits s i ids ∧ ids.Pairwise (· < ·) ∧
      ∀ id, id ∈ ids ↔ i ≤ id ∧ s.readStorageBit id = true := by
  have hlt {i : Nat} (hbit : s.readStorageBit i = true) : i < s.storedBitset.length * 64 := by
    by_contra hge
    rw [readStorageBit_of_ge (Nat.le_of_not_lt hge)] at hbit
    cases hbit
  induction hn : s.storedBitset.length * 64 - i using Nat.strong_induction_on generalizing i with
  | _ n ih =>
    have hi := hlt hbit
    obtain ⟨hafter, hle, hbetween, hstop⟩ := nextIndex_spec hi
    have hne : i ≠ invalidIndex := by
      rw [invalidIndex]
      omega
    by_cases hend : s.nextIndex (s.storedBitset.length * 64) i = s.storedBitset.length * 64
    · have hincrement : s.increment i = invalidIndex := by
        rw [increment, size_eq hwords, if_pos hi, if_pos hend]
      refine ⟨[i], .visit hne (hincrement ▸ .stop), pairwise_singleton _ _, ?_⟩
      intro id
      rw [mem_singleton]
      constructor
      · rintro rfl
        exact ⟨le_refl _, hbit⟩
      · rintro ⟨hid, hset⟩
        by_contra hother
        have := hbetween id (by omega) (hend ▸ hlt hset)
        rw [hset] at this
        cases this
    · have hincrement :
          s.increment i = s.nextIndex (s.storedBitset.length * 64) i := by
        rw [increment, size_eq hwords, if_pos hi, if_neg hend]
      have hnext := hstop (by omega)
      obtain ⟨ids, hvisits, hascending, hmem⟩ := ih _ (by omega) hnext rfl
      refine ⟨i :: ids, .visit hne (hincrement ▸ hvisits), ?_, ?_⟩
      · refine pairwise_cons.mpr ⟨?_, hascending⟩
        intro id hid
        exact lt_of_lt_of_le hafter ((hmem id).mp hid).1
      · intro id
        rw [mem_cons, hmem]
        constructor
        · rintro (rfl | ⟨hid, hset⟩)
          · exact ⟨le_refl _, hbit⟩
          · exact ⟨by omega, hset⟩
        · rintro ⟨hid, hset⟩
          by_cases hsame : id = i
          · exact .inl hsame
          · refine .inr ⟨?_, hset⟩
            by_contra hbefore
            have := hbetween id (by omega) (by omega)
            rw [hset] at this
            cases this

/-- From an iterator that does not move, no loop that ends visits anything. -/
theorem eq_nil_of_visits {ids : List Nat} (hstuck : s.increment i = i)
    (h : Visits s i ids) : ids = [] := by
  induction h with
  | stop => rfl
  | visit hne hrest ih =>
    rw [hstuck] at hrest ih
    rw [ih hstuck] at hrest
    cases hrest
    exact absurd rfl hne

/-! ## The start -/

theorem word_eq_zero_iff {k : Nat} :
    s.storedBitset.getD k 0 = 0#64 ↔ ∀ i, i / 64 = k → s.readStorageBit i = false := by
  rw [eq_zero_iff_getLsbD]
  constructor
  · rintro h i rfl
    rw [readStorageBit_eq]
    exact h _ (Nat.mod_lt _ (by decide))
  · intro h j hj
    have hbit := h (k * 64 + j) (by omega)
    have hword : (k * 64 + j) / 64 = k := by omega
    have hposition : (k * 64 + j) % 64 = j := by omega
    rwa [readStorageBit_eq, hword, hposition] at hbit

theorem beginIndex_of_empty (hnone : ∀ i, s.readStorageBit i = false) :
    s.beginIndex = invalidIndex := by
  have hall : s.storedBitset.findIdx (· ≠ 0#64) = s.storedBitset.length := by
    rw [findIdx_eq_length]
    intro bits hbits
    obtain ⟨k, hk, rfl⟩ := getElem_of_mem hbits
    have hzero := word_eq_zero_iff.mpr fun i (_ : i / 64 = k) => hnone i
    rw [getD_eq_getElem _ _ hk] at hzero
    simp [hzero]
  rw [beginIndex, if_pos hall]

theorem beginIndex_of_early (hi : i < 64) (hbit : s.readStorageBit i = true) :
    s.readStorageBit s.beginIndex = true ∧ ∀ j, j < s.beginIndex → s.readStorageBit j = false := by
  have hfirst : s.storedBitset.getD 0 0 ≠ 0#64 := by
    intro hzero
    rw [word_eq_zero_iff.mp hzero i (by omega)] at hbit
    cases hbit
  have hfind : s.storedBitset.findIdx (· ≠ 0#64) = 0 := by
    cases hwords : s.storedBitset with
    | nil =>
      rw [hwords] at hfirst
      exact absurd rfl hfirst
    | cons bits words =>
      rw [hwords, getD_cons_zero] at hfirst
      rw [findIdx_cons]
      simp [hfirst]
  have hlength : 0 ≠ s.storedBitset.length := by
    intro hnil
    rw [eq_nil_of_length_eq_zero hnil.symm] at hfirst
    exact hfirst rfl
  have hctz := ctz_toNat_lt hfirst
  have hbegin : s.beginIndex = (s.storedBitset.getD 0 0).ctz.toNat := by
    rw [beginIndex, hfind, if_neg hlength]
    show (0 * 64 + _) % 2 ^ 32 = _
    omega
  rw [hbegin]
  constructor
  · rw [readStorageBit_eq, Nat.div_eq_of_lt hctz, Nat.mod_eq_of_lt hctz]
    exact BitVec.getLsbD_true_ctz_of_ne_zero hfirst
  · intro j hj
    have hlow : j < 64 := lt_trans hj hctz
    rw [readStorageBit_eq, Nat.div_eq_of_lt hlow, Nat.mod_eq_of_lt hlow]
    exact BitVec.getLsbD_false_of_lt_ctz hj

theorem increment_of_ge (hwords : s.storedBitset.length * 64 < 2 ^ 32)
    (hi : s.storedBitset.length * 64 ≤ i) : s.increment i = i := by
  rw [increment, size_eq hwords, if_neg (Nat.not_lt_of_le hi)]

/-- Without a bit in the first word, `begin` is behind the last word. -/
theorem increment_beginIndex_of_late (hwords : s.storedBitset.length ≤ 2 ^ 25)
    (hbit : s.readStorageBit i = true) (hlate : ∀ j, j < 64 → s.readStorageBit j = false) :
    s.increment s.beginIndex = s.beginIndex := by
  have hfirst : s.storedBitset.getD 0 0 = 0#64 :=
    word_eq_zero_iff.mpr fun j hj => hlate j (by omega)
  have hword : s.storedBitset.getD (i / 64) 0 ≠ 0#64 := by
    intro hzero
    rw [word_eq_zero_iff.mp hzero i rfl] at hbit
    cases hbit
  have hin : i / 64 < s.storedBitset.length := by
    by_contra hge
    rw [getD_eq_getElem?_getD, getElem?_eq_none (Nat.le_of_not_lt hge)] at hword
    exact hword rfl
  rw [getD_eq_getElem _ _ hin] at hword
  have hlt : s.storedBitset.findIdx (· ≠ 0#64) < s.storedBitset.length :=
    findIdx_lt_length_of_exists ⟨_, getElem_mem hin, by simpa using hword⟩
  have hfound := findIdx_getElem (w := hlt)
  generalize hit : s.storedBitset.findIdx (· ≠ 0#64) = it at *
  have hne : s.storedBitset.getD it 0 ≠ 0#64 := by
    rw [getD_eq_getElem _ _ hlt]
    simpa using hfound
  have hpos : it ≠ 0 := by
    rintro rfl
    exact hne hfirst
  have hctz := ctz_toNat_lt hne
  have hdistance : ((0 - it : Int) % 2 ^ 32).toNat = 2 ^ 32 - it := by omega
  have hbegin : s.beginIndex =
      ((2 ^ 32 - it) * 64 + (s.storedBitset.getD it 0).ctz.toNat) % 2 ^ 32 := by
    rw [beginIndex, hit, if_neg (ne_of_lt hlt), ← hdistance]
  refine increment_of_ge (by omega) ?_
  rw [hbegin]
  generalize (s.storedBitset.getD it 0).ctz.toNat = bit at *
  omega

/-- With as many bits as a `u32` has values, the iterator does not move at all. -/
theorem increment_of_full (hwords : s.storedBitset.length = 2 ^ 26) (i : Nat) :
    s.increment i = i := by
  have hcount : 2 ^ 26 % 2 ^ 32 * 64 % 2 ^ 32 = 0 := by decide
  rw [increment, hwords, hcount, if_neg (Nat.not_lt_zero i)]

end Sudachi.Common.SlotVector
