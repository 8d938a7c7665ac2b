import Mathlib.Data.Fintype.Order
import Mathlib.Logic.Relation

/-!
# Walks that end

A walk along the edges of a finite graph ends exactly where they do not lead to a cycle. What a walk
does at a point is left open: `halts n x` says that `n` rounds are enough for it from `x` on, and
that is so where one round less is enough from each neighbour on.
-/

set_option autoImplicit false

namespace Sudachi.Foundations

open Relation

universe u

variable {α : Type u} {r : α → α → Prop} {x : α}

/-- No path that begins at a point comes to a cycle. -/
def AcyclicFrom (r : α → α → Prop) (x : α) : Prop :=
  ∀ y, ReflTransGen r x y → ¬TransGen r y y

theorem AcyclicFrom.acc [Finite α] (h : AcyclicFrom r x) : Acc (flip r) x := by
  let below (a b : { y // ReflTransGen r x y }) : Prop := TransGen r b.1 a.1
  have : IsTrans _ below := ⟨fun _ _ _ hab hbc => hbc.trans hab⟩
  have : Std.Irrefl below := ⟨fun a => h a.1 a.2⟩
  have hwf := Finite.wellFounded_of_trans_of_irrefl below
  have hacc (a : { y // ReflTransGen r x y }) : Acc (flip r) a.1 := by
    induction a using hwf.induction with
    | _ a ih => exact ⟨_, fun b hb => ih ⟨b, a.2.tail hb⟩ (.single hb)⟩
  exact hacc ⟨x, .refl⟩

section Halts

variable {halts : Nat → α → Prop} {n m : Nat} (hzero : ∀ x, ¬halts 0 x)
variable (hsucc : ∀ n x, halts (n + 1) x ↔ ∀ y, r x y → halts n y)
include hzero hsucc

theorem halts_mono (hx : halts n x) (hle : n ≤ m) : halts m x := by
  induction n generalizing m x with
  | zero => exact absurd hx (hzero x)
  | succ n ih =>
    obtain ⟨m, rfl⟩ := Nat.exists_eq_add_of_le' (Nat.one_le_of_lt hle)
    rw [hsucc] at hx ⊢
    exact fun y hxy => ih (hx y hxy) (Nat.le_of_succ_le_succ hle)

theorem exists_halts_of_edge {y : α} (hx : halts n x) (hxy : r x y) : ∃ m < n, halts m y := by
  cases n with
  | zero => exact absurd hx (hzero x)
  | succ n => exact ⟨n, Nat.lt_succ_self n, (hsucc n x).mp hx y hxy⟩

theorem exists_halts_of_transGen {y : α} (hx : halts n x) (hxy : TransGen r x y) :
    ∃ m < n, halts m y := by
  induction hxy with
  | single hxy => exact exists_halts_of_edge hzero hsucc hx hxy
  | tail _ hxy ih =>
    obtain ⟨m, hm, hy⟩ := ih
    obtain ⟨k, hk, hz⟩ := exists_halts_of_edge hzero hsucc hy hxy
    exact ⟨k, hk.trans hm, hz⟩

theorem not_transGen_of_halts (hx : halts n x) : ¬TransGen r x x := by
  induction n using Nat.strong_induction_on with
  | _ n ih =>
    intro hxx
    obtain ⟨m, hm, hxm⟩ := exists_halts_of_transGen hzero hsucc hx hxx
    exact ih m hm hxm hxx

theorem acyclicFrom_of_halts (hx : halts n x) : AcyclicFrom r x := by
  intro y hxy
  rcases reflTransGen_iff_eq_or_transGen.mp hxy with rfl | hxy
  · exact not_transGen_of_halts hzero hsucc hx
  · obtain ⟨m, -, hy⟩ := exists_halts_of_transGen hzero hsucc hx hxy
    exact not_transGen_of_halts hzero hsucc hy

theorem exists_halts_iff [Finite α] : (∃ n, halts n x) ↔ AcyclicFrom r x := by
  refine ⟨fun ⟨n, hx⟩ => acyclicFrom_of_halts hzero hsucc hx, fun h => ?_⟩
  induction h.acc with
  | intro x _ ih =>
    have hneighbours (y) (hxy : r x y) : ∃ n, halts n y := ih y hxy fun z hyz => h z (.head hxy hyz)
    choose! rounds hrounds using hneighbours
    obtain ⟨n, hn⟩ := Finite.exists_le rounds
    exact ⟨n + 1, (hsucc n x).mpr fun y hxy => halts_mono hzero hsucc (hrounds y hxy) (hn y)⟩

end Halts

end Sudachi.Foundations
