import Mathlib.Data.List.Basic

/-!
# Walks that can stop early

A walk over a list updates a state, and stops where a step says so. A walk whose steps are walks of
their own is one walk over all their elements (`runUntil_flatMap`), as long as an outer step stops
exactly where its inner walk did.
-/

set_option autoImplicit false

namespace Sudachi.Foundations.EarlyExit

open List

variable {α β σ : Type}

/-- The state after the walk, and whether it has stopped early. -/
def runUntil (f : α → σ → σ × Bool) : List α → σ → σ × Bool
  | [], s => (s, false)
  | a :: l, s => if (f a s).2 then ((f a s).1, true) else runUntil f l (f a s).1

variable {f : α → σ → σ × Bool} {g : β → σ → σ × Bool} {inner : α → List β} {flag : σ → Bool}
  {l l' : List α} {s : σ}

attribute [local simp] runUntil in
theorem runUntil_append : runUntil f (l ++ l') s =
    if (runUntil f l s).2 then runUntil f l s else runUntil f l' (runUntil f l s).1 := by
  induction l generalizing s with
  | nil => simp [runUntil]
  | cons a l ih =>
    rw [cons_append, runUntil, runUntil]
    by_cases hstop : (f a s).2
    · rw [if_pos hstop, if_pos hstop, if_pos rfl]
    · rw [if_neg hstop, if_neg hstop, ih]

theorem runUntil_congr {k : α → σ → σ × Bool} (h : ∀ a ∈ l, ∀ s, f a s = k a s) :
    runUntil f l s = runUntil k l s := by
  induction l generalizing s with
  | nil => rfl
  | cons a l ih =>
    rw [runUntil, runUntil, h a mem_cons_self, ih fun a ha => h a (mem_cons_of_mem _ ha)]

/-- A walk that never stops. -/
theorem runUntil_never (k : α → σ → σ) :
    runUntil (fun a s => (k a s, false)) l s = (l.foldl (fun s a => k a s) s, false) := by
  induction l generalizing s with
  | nil => rfl
  | cons a l ih =>
    rw [runUntil, if_neg Bool.false_ne_true, ih, foldl_cons]

/-- A state that records each stop tells whether the walk has stopped. -/
theorem runUntil_flag (hf : ∀ a ∈ l, ∀ s, flag s = false → (f a s).2 = flag (f a s).1)
    (hs : flag s = false) : (runUntil f l s).2 = flag (runUntil f l s).1 := by
  induction l generalizing s with
  | nil => exact hs.symm
  | cons a l ih =>
    have hstep := hf a mem_cons_self s hs
    rw [runUntil]
    by_cases hstop : (f a s).2
    · rw [if_pos hstop]
      exact hstop ▸ hstep
    · rw [if_neg hstop]
      refine ih (fun a ha => hf a (mem_cons_of_mem _ ha)) ?_
      rw [← hstep]
      exact eq_false_of_ne_true hstop

/-- A walk of walks is one walk over all their elements. -/
theorem runUntil_flatMap {I : σ → Prop}
    (hf : ∀ a ∈ l, ∀ s, I s → f a s = runUntil g (inner a) s ∧ ((f a s).2 = false → I (f a s).1))
    (hs : I s) : runUntil f l s = runUntil g (l.flatMap inner) s := by
  induction l generalizing s with
  | nil => rfl
  | cons a l ih =>
    obtain ⟨heq, hnext⟩ := hf a mem_cons_self s hs
    rw [flatMap_cons, runUntil_append, ← heq, runUntil]
    by_cases hstop : (f a s).2
    · rw [if_pos hstop, if_pos hstop, ← hstop]
    · rw [if_neg hstop, if_neg hstop]
      exact ih (fun a ha => hf a (mem_cons_of_mem _ ha)) (hnext (eq_false_of_ne_true hstop))

end Sudachi.Foundations.EarlyExit
