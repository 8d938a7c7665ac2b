import Mathlib.Init

/-!
# Runs of a state machine

The runs of a machine with a transition function: a condition that the steps of a run meet, and a
property that the states of a run have. `throughout_of_along` is the rule of invariants.
`throughout_iff_along` is its sharper form for a property that some steps break: it reduces the
statement that a property holds in every state of a run exactly when the steps meet a condition to
one statement about a step that meets it and one about a step that does not.
-/

set_option autoImplicit false

namespace Sudachi.Foundations.Runs

variable {σ ι : Type} (step : σ → ι → σ)

/-- Every step of the run from `s` meets the condition `Q`, in the state in which it is made. -/
def Along (Q : σ → ι → Prop) : σ → List ι → Prop
  | _, [] => True
  | s, i :: is => Q s i ∧ Along Q (step s i) is

/-- Every state of the run from `s`, the first and the last one included, has the property `P`. -/
def Throughout (P : σ → Prop) : σ → List ι → Prop
  | s, [] => P s
  | s, i :: is => P s ∧ Throughout P (step s i) is

instance decidableAlong (Q : σ → ι → Prop) [∀ s i, Decidable (Q s i)] :
    ∀ s is, Decidable (Along step Q s is)
  | _, [] => inferInstanceAs (Decidable True)
  | s, i :: is =>
    have := decidableAlong Q (step s i) is
    inferInstanceAs (Decidable (Q s i ∧ Along step Q (step s i) is))

variable {step} {P I : σ → Prop} {A Q : σ → ι → Prop} {s : σ} {is : List ι}

theorem Throughout.head (h : Throughout step P s is) : P s := by
  cases is with
  | nil => exact h
  | cons i is => exact h.1

theorem Throughout.last (h : Throughout step P s is) : P (is.foldl step s) := by
  induction is generalizing s with
  | nil => exact h
  | cons i is ih => exact ih h.2

theorem Along.and (hA : Along step A s is) (hQ : Along step Q s is) :
    Along step (fun s i => A s i ∧ Q s i) s is := by
  induction is generalizing s with
  | nil => trivial
  | cons i is ih => exact ⟨⟨hA.1, hQ.1⟩, ih hA.2 hQ.2⟩

/-- Along a run of steps on which two conditions agree, one is met exactly when the other is. -/
theorem along_congr {Q' : σ → ι → Prop} (h : ∀ s i, A s i → (Q s i ↔ Q' s i))
    (hA : Along step A s is) : Along step Q s is ↔ Along step Q' s is := by
  induction is generalizing s with
  | nil => exact Iff.rfl
  | cons i is ih => exact and_congr (h s i hA.1) (ih hA.2)

/-- An invariant that every step with the condition keeps holds in every state of a run of such
steps, and so does all that follows from it. -/
theorem throughout_of_along (hP : ∀ s, I s → P s) (hstep : ∀ s i, I s → Q s i → I (step s i))
    (hs : I s) (h : Along step Q s is) : Throughout step P s is := by
  induction is generalizing s with
  | nil => exact hP s hs
  | cons i is ih => exact ⟨hP s hs, ih (hstep s i hs h.1) h.2⟩

/-- If the steps with the condition keep an invariant, then all that follows from the two together
holds of every step of a run of such steps. -/
theorem along_of_along {R : σ → ι → Prop} (hR : ∀ s i, I s → Q s i → R s i)
    (hstep : ∀ s i, I s → Q s i → I (step s i)) (hs : I s) (h : Along step Q s is) :
    Along step R s is := by
  induction is generalizing s with
  | nil => trivial
  | cons i is ih => exact ⟨hR s i hs h.1, ih (hstep s i hs h.1) h.2⟩

/-- If the steps with the condition keep an invariant from which the property follows, and a step
without it leaves a state without the property, then the property holds in every state of a run
exactly when every step meets the condition. -/
theorem throughout_iff_along (hP : ∀ s, I s → P s)
    (hstep : ∀ s i, I s → A s i → Q s i → I (step s i))
    (hbreak : ∀ s i, I s → A s i → ¬Q s i → ¬P (step s i)) (hs : I s) (hA : Along step A s is) :
    Throughout step P s is ↔ Along step Q s is := by
  induction is generalizing s with
  | nil => exact ⟨fun _ => trivial, fun _ => hP s hs⟩
  | cons i is ih =>
    by_cases hq : Q s i
    · have hnext := ih (hstep s i hs hA.1 hq) hA.2
      exact ⟨fun h => ⟨hq, hnext.mp h.2⟩, fun h => ⟨hP s hs, hnext.mpr h.2⟩⟩
    · have hbroken := hbreak s i hs hA.1 hq
      exact ⟨fun h => absurd h.2.head hbroken, fun h => absurd h.1 hq⟩

/-- A condition on the steps and on the states that they lead to, taken apart. -/
theorem along_and_next_iff (hs : P s) : Along step (fun s i => Q s i ∧ P (step s i)) s is ↔
      Throughout step P s is ∧ Along step Q s is := by
  induction is generalizing s with
  | nil => exact ⟨fun _ => ⟨hs, trivial⟩, fun _ => trivial⟩
  | cons i is ih =>
    constructor
    · rintro ⟨⟨hq, hnext⟩, hrest⟩
      obtain ⟨hthroughout, halong⟩ := (ih hnext).mp hrest
      exact ⟨⟨hs, hthroughout⟩, hq, halong⟩
    · rintro ⟨⟨-, hthroughout⟩, hq, halong⟩
      have hnext := hthroughout.head
      exact ⟨⟨hq, hnext⟩, (ih hnext).mpr ⟨hthroughout, halong⟩⟩

end Sudachi.Foundations.Runs
