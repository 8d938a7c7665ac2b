import Mathlib.Data.List.Nodup
import Mathlib.Logic.Function.Basic

/-!
# Lists threaded through next pointers

Objects with a next pointer each, which may be null. From a start pointer they form a list, if the
pointers come to an end at all. Such a list has no object twice. Two operations are enough to
rebuild lists: setting all pointers of a list to null, and linking a sequence of objects, whose
pointers are null, in its order.
-/

set_option autoImplicit false

namespace Sudachi.Foundations.NextPointers

open List Function

variable {κ : Type} {next next' : κ → Option κ} {start : Option κ} {l : List κ}

/-- The pointers lead from the start through the objects of the list to null. -/
def Threaded (next : κ → Option κ) : Option κ → List κ → Prop
  | start, [] => start = none
  | start, id :: rest => start = some id ∧ Threaded next (next id) rest

theorem Threaded.unique {l' : List κ} (h : Threaded next start l) (h' : Threaded next start l') :
    l = l' := by
  induction l generalizing start l' with
  | nil =>
    cases l' with
    | nil => rfl
    | cons id' rest' => cases h.symm.trans h'.1
  | cons id rest ih =>
    cases l' with
    | nil => cases h'.symm.trans h.1
    | cons id' rest' =>
      obtain rfl : id = id' := Option.some.inj (h.1.symm.trans h'.1)
      rw [ih h.2 h'.2]

theorem Threaded.of_append {before after : List κ} (h : Threaded next start (before ++ after)) :
    ∃ start', Threaded next start' after := by
  induction before generalizing start with
  | nil => exact ⟨start, h⟩
  | cons id rest ih => exact ih h.2

/-- A list that comes to an end does not come back to an object. -/
theorem Threaded.nodup (h : Threaded next start l) : l.Nodup := by
  induction l generalizing start with
  | nil => exact nodup_nil
  | cons id rest ih =>
    refine nodup_cons.mpr ⟨fun hmem => ?_, ih h.2⟩
    obtain ⟨before, after, rfl⟩ := append_of_mem hmem
    obtain ⟨start', hagain⟩ := h.2.of_append
    have hsame := h.2.unique hagain.2
    have hlength := congrArg length hsame
    simp at hlength
    omega

/-- A list stays when pointers change elsewhere. -/
theorem Threaded.congr (h : Threaded next start l) (hsame : ∀ id ∈ l, next' id = next id) :
    Threaded next' start l := by
  induction l generalizing start with
  | nil => exact h
  | cons id rest ih =>
    refine ⟨h.1, ?_⟩
    rw [hsame id mem_cons_self]
    exact ih h.2 fun other hother => hsame other (mem_cons_of_mem _ hother)

variable [DecidableEq κ]

/-- The pointers of a list are set to null. -/
def cleared (next : κ → Option κ) (l : List κ) (id : κ) : Option κ :=
  if id ∈ l then none else next id

theorem cleared_ne_none_iff {id : κ} : cleared next l id ≠ none ↔ id ∉ l ∧ next id ≠ none := by
  rw [cleared]
  split
  · rename_i hmem
    exact iff_of_false (fun h => h rfl) fun h => h.1 hmem
  · rename_i hmem
    exact (and_iff_right hmem).symm

theorem cleared_nil : cleared next [] = next := by
  funext id
  rw [cleared, if_neg not_mem_nil]

theorem cleared_cons (id : κ) (rest : List κ) :
    cleared next (id :: rest) = cleared (update next id none) rest := by
  funext other
  by_cases hother : other = id
  · simp [cleared, hother]
  · simp [cleared, hother]

/-- Each object of a sequence is made to lead to the one behind it, from the first on. -/
def linked (next : κ → Option κ) : List κ → κ → Option κ
  | [] => next
  | [_] => next
  | current :: following :: rest =>
    linked (update next current (some following)) (following :: rest)

theorem linked_of_not_mem {id : κ} (hid : id ∉ l) : linked next l id = next id := by
  induction l generalizing next with
  | nil => rfl
  | cons current rest ih =>
    obtain ⟨hne, hrest⟩ := not_or.mp (mem_cons.not.mp hid)
    cases rest with
    | nil => rfl
    | cons following rest => rw [linked, ih hrest, update_of_ne hne]

/-- Linking distinct objects with null pointers gives the list of them. -/
theorem threaded_linked (hnodup : l.Nodup) (hfree : ∀ id ∈ l, next id = none) :
    Threaded (linked next l) l.head? l := by
  induction l generalizing next with
  | nil => rfl
  | cons current rest ih =>
    obtain ⟨hnot, hrest⟩ := nodup_cons.mp hnodup
    cases rest with
    | nil => exact ⟨rfl, hfree current mem_cons_self⟩
    | cons following rest =>
      refine ⟨rfl, ?_⟩
      have hhead : linked next (current :: following :: rest) current = some following := by
        rw [linked, linked_of_not_mem hnot, update_self]
      rw [hhead]
      refine ih hrest fun id hid => ?_
      rw [update_of_ne (ne_of_mem_of_not_mem hid hnot)]
      exact hfree id (mem_cons_of_mem _ hid)

end Sudachi.Foundations.NextPointers
