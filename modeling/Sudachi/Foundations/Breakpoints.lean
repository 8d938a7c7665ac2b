import Mathlib.Data.List.Chain
import Mathlib.Tactic

/-!
# Lists of breakpoints

Elements with keys in a linear order, in the order of their keys. The element in force at a point is the
last one whose key is at most that point (`inForce`); a sorted list falls apart at two points into
what starts before, between and after them (`exists_cut`).
-/

set_option autoImplicit false

namespace Sudachi.Foundations

open List

universe u v

variable {α : Type u} {κ : Type v} [LinearOrder κ] {key : α → κ}

/-- The last element whose key is at most `x`. -/
def inForce (key : α → κ) (x : κ) (l : List α) : Option α :=
  (l.filter fun a => key a ≤ x).getLast?

variable {x : κ} {l : List α}

theorem inForce_append (x : κ) (l r : List α) :
    inForce key x (l ++ r) = (inForce key x r).or (inForce key x l) := by
  rw [inForce, filter_append, getLast?_append]
  rfl

theorem inForce_eq_none (h : ∀ a ∈ l, x < key a) : inForce key x l = none := by
  have hnil : (l.filter fun a => key a ≤ x) = [] := by
    rw [filter_eq_nil_iff]
    intro a ha
    simp only [decide_eq_true_eq]
    exact not_le.mpr (h a ha)
  rw [inForce, hnil, getLast?_nil]

theorem inForce_append_left {r : List α} (h : ∀ a ∈ r, x < key a) :
    inForce key x (l ++ r) = inForce key x l := by
  rw [inForce_append, inForce_eq_none h, Option.none_or]

theorem inForce_singleton {a : α} (h : key a ≤ x) : inForce key x [a] = some a := by
  simp [inForce, h]

theorem mem_of_inForce {a : α} (h : inForce key x l = some a) : a ∈ l ∧ key a ≤ x := by
  have hmem := mem_of_getLast? h
  rw [mem_filter, decide_eq_true_eq] at hmem
  exact hmem

/-- A list sorted by its keys falls apart at any point. -/
theorem exists_cut (x : κ) (h : l.Pairwise fun a b => key a < key b) :
    ∃ before after, l = before ++ after ∧ (∀ a ∈ before, key a < x) ∧ ∀ a ∈ after, x ≤ key a := by
  induction l with
  | nil => exact ⟨[], [], rfl, by simp, by simp⟩
  | cons a l ih =>
    obtain ⟨hhead, htail⟩ := pairwise_cons.mp h
    by_cases ha : key a < x
    · obtain ⟨before, after, hsplit, hbefore, hafter⟩ := ih htail
      refine ⟨a :: before, after, by rw [hsplit, cons_append], ?_, hafter⟩
      exact forall_mem_cons.mpr ⟨ha, hbefore⟩
    · have hle := not_lt.mp ha
      refine ⟨[], a :: l, rfl, by simp, forall_mem_cons.mpr ⟨hle, fun b hb => ?_⟩⟩
      exact le_trans hle (le_of_lt (hhead b hb))

omit [LinearOrder κ] in
theorem filter_eq_middle {q : α → Bool} {m r : List α} (hl : ∀ a ∈ l, q a = false)
    (hm : ∀ a ∈ m, q a = true) (hr : ∀ a ∈ r, q a = false) : (l ++ (m ++ r)).filter q = m := by
  rw [filter_append, filter_append, filter_eq_self.mpr hm,
    filter_eq_nil_iff.mpr fun a ha => Bool.not_eq_true _ ▸ hl a ha,
    filter_eq_nil_iff.mpr fun a ha => Bool.not_eq_true _ ▸ hr a ha, append_nil, nil_append]

/-- The index at which the elements with key at least `x` begin. -/
theorem findIdx_cut {before after : List α} (hbefore : ∀ a ∈ before, key a < x)
    (hafter : ∀ a ∈ after, x ≤ key a) :
    (before ++ after).findIdx (fun a => !decide (key a < x)) = before.length := by
  have hnone : before.findIdx (fun a => !decide (key a < x)) = before.length := by
    refine findIdx_eq_length_of_false fun a ha => ?_
    simp only [hbefore a ha, decide_true, Bool.not_true]
  rw [findIdx_append, hnone, if_neg (lt_irrefl _)]
  cases after with
  | nil => simp
  | cons a after =>
    have ha := hafter a mem_cons_self
    have hfirst : (!decide (key a < x)) = true := by
      simp only [Bool.not_eq_true', decide_eq_false_iff_not]
      exact not_lt.mpr ha
    rw [findIdx_cons, hfirst, cond_true, zero_add]

end Sudachi.Foundations
