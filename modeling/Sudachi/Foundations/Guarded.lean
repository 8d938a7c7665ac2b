import Sudachi.Foundations.Results

/-!
# Computations with guards

A computation that leaves a state whether it succeeds or fails, and the two scope guards of such
code: one that runs when the scope is left with a failure, and one that runs whenever it is left.
The lemmas say how a composed computation comes to its outcome, so that a proof can take it apart
from the front.
-/

set_option autoImplicit false

namespace Sudachi.Foundations

/-- A computation on a state that can fail, and that leaves a state in both cases. -/
def Guarded (σ ε α : Type) : Type := σ → Except ε α × σ

namespace Guarded

variable {σ ε α β : Type}

/-- Run a computation, and go on with its result if it has one. -/
def andThen (x : Guarded σ ε α) (f : α → Guarded σ ε β) : Guarded σ ε β := fun s =>
  match x s with
  | (.ok a, t) => f a t
  | (.error e, t) => (.error e, t)

instance : Monad (Guarded σ ε) where
  pure a := fun s => (.ok a, s)
  bind := andThen

/-- Fail with the state as it is. -/
def fail (e : ε) : Guarded σ ε α := fun s => (.error e, s)

/-- Fail unless a condition holds. -/
def require (c : Bool) (e : ε) : Guarded σ ε Unit := fun s => (if c then .ok () else .error e, s)

/-- A computation that reads the state, and does not change it. -/
def reading (f : σ → Except ε α) : Guarded σ ε α := fun s => (f s, s)

/-- Change the state. -/
def changing (f : σ → σ) : Guarded σ ε Unit := fun s => (.ok (), f s)

/-- Run a guard on the state when the computation fails. -/
def onFailure (guard : σ → σ) (x : Guarded σ ε α) : Guarded σ ε α := fun s =>
  match x s with
  | (.ok a, t) => (.ok a, t)
  | (.error e, t) => (.error e, guard t)

/-- Run a guard on the state when the computation is left. -/
def onExit (guard : σ → σ) (x : Guarded σ ε α) : Guarded σ ε α := fun s => ((x s).1, guard (x s).2)

variable {x : Guarded σ ε α} {f : α → Guarded σ ε β} {guard : σ → σ} {s t : σ} {a : α} {b : β} {e : ε}

theorem pure_apply (a : α) (s : σ) : (pure a : Guarded σ ε α) s = (.ok a, s) := rfl

theorem bind_eq_error : (x >>= f) s = (.error e, t) ↔
    x s = (.error e, t) ∨ ∃ a u, x s = (.ok a, u) ∧ f a u = (.error e, t) := by
  show andThen x f s = _ ↔ _
  rw [andThen]
  rcases x s with ⟨_ | a, u⟩
  · simp
  · simp

theorem bind_of_ok (h : x s = (.ok a, t)) : (x >>= f) s = f a t := by
  show andThen x f s = _
  rw [andThen, h]

theorem bind_of_error (h : x s = (.error e, t)) : (x >>= f) s = (.error e, t) := by
  show andThen x f s = _
  rw [andThen, h]

theorem onFailure_eq_error :
    onFailure guard x s = (.error e, t) ↔ ∃ u, x s = (.error e, u) ∧ guard u = t := by
  rw [onFailure]
  rcases x s with ⟨_ | a, u⟩
  · simp
  · simp

theorem onExit_eq {r : Except ε α} :
    onExit guard x s = (r, t) ↔ ∃ u, x s = (r, u) ∧ guard u = t := by
  rw [onExit]
  rcases x s with ⟨r', u⟩
  simp only [Prod.mk.injEq]
  constructor
  · rintro ⟨rfl, rfl⟩
    exact ⟨u, ⟨rfl, rfl⟩, rfl⟩
  · rintro ⟨_, ⟨rfl, rfl⟩, rfl⟩
    exact ⟨rfl, rfl⟩

theorem require_eq_ok {c : Bool} {u : Unit} : require c e s = (.ok u, t) ↔ c = true ∧ s = t := by
  cases c with
  | false => simp [require]
  | true => simp [require]

theorem require_eq_error {c : Bool} {e' : ε} :
    require c e s = (.error e', t) ↔ c = false ∧ e = e' ∧ s = t := by
  cases c with
  | false => simp [require]
  | true => simp [require]

theorem reading_eq {g : σ → Except ε α} {r : Except ε α} :
    reading g s = (r, t) ↔ g s = r ∧ s = t := by
  rw [reading, Prod.mk.injEq]

end Guarded

end Sudachi.Foundations
