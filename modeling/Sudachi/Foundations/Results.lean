import Mathlib.Tactic

/-!
# Computations that can fail

How a sequence of two computations in `Except` comes to its result. The lemmas let a proof take a
computation apart step by step without unfolding the monad.
-/

set_option autoImplicit false

namespace Sudachi.Foundations

universe u v

variable {ε : Type u} {α β : Type v}

@[simp] theorem ok_bind (a : α) (f : α → Except ε β) : (Except.ok a >>= f) = f a := rfl

@[simp] theorem error_bind (e : ε) (f : α → Except ε β) :
    ((Except.error e : Except ε α) >>= f) = .error e := rfl

theorem bind_eq_ok {x : Except ε α} {f : α → Except ε β} {b : β} :
    (x >>= f) = .ok b ↔ ∃ a, x = .ok a ∧ f a = .ok b := by
  cases x with
  | error e => simp
  | ok a => simp

end Sudachi.Foundations
