import Mathlib.Data.List.Basic
import Mathlib.Tactic

/-!
# Tilings of a half-open interval by consecutive segments

A segment type comes with a lower and an upper end (`lo`, `hi`). A list of nonempty segments tiles
`[s, e)` when the first starts at `s`, each further segment starts where the one before ends, and
the last ends at `e` (`Tiles`). A tiling is sorted, contiguous and exact, and every point of the
interval lies in exactly one segment (`Tiles.exists_split`, `Tiles.lookup_eq_some`).
-/

set_option autoImplicit false

namespace Sudachi.Foundations

universe u v

variable {α : Type u} {β : Type v}

/-- `l` tiles the interval `[s, e)`. -/
def Tiles (lo hi : α → Nat) : Nat → Nat → List α → Prop
  | s, e, [] => s = e
  | s, e, b :: l => lo b = s ∧ s < hi b ∧ Tiles lo hi (hi b) e l

/-- The segment of `l` that contains the point `x`. -/
def lookup (lo hi : α → Nat) (x : Nat) (l : List α) : Option α :=
  l.find? fun b => decide (lo b ≤ x ∧ x < hi b)

section Tiles

variable {lo hi : α → Nat}
variable {l : List α} {x s e : Nat} {b : α}

@[simp] theorem tiles_nil : Tiles lo hi s e [] ↔ s = e := .rfl

@[simp] theorem tiles_cons :
    Tiles lo hi s e (b :: l) ↔ lo b = s ∧ s < hi b ∧ Tiles lo hi (hi b) e l := .rfl

theorem Tiles.le : ∀ {s e : Nat}, Tiles lo hi s e l → s ≤ e := by
  induction l with
  | nil => intro s e h; exact le_of_eq h
  | cons b l ih =>
    intro s e h
    obtain ⟨-, hlt, htl⟩ := h
    exact le_trans (le_of_lt hlt) (ih htl)

theorem tiles_append {l₂ : List α} : ∀ {l₁ : List α} {s e : Nat},
    Tiles lo hi s e (l₁ ++ l₂) ↔ ∃ m, Tiles lo hi s m l₁ ∧ Tiles lo hi m e l₂ := by
  intro l₁
  induction l₁ with
  | nil => intro s e; simp
  | cons b l ih => intro s e; simp [ih, and_assoc]

/-- Every segment of a tiling lies inside the interval and is nonempty. -/
theorem Tiles.mem : ∀ {s e : Nat}, Tiles lo hi s e l → b ∈ l →
    s ≤ lo b ∧ lo b < hi b ∧ hi b ≤ e := by
  induction l with
  | nil => intro s e _ hb; simp at hb
  | cons c l ih =>
    intro s e h hb
    obtain ⟨hlo, hlt, htl⟩ := h
    rcases List.mem_cons.1 hb with rfl | hb
    · exact ⟨hlo.ge, hlo ▸ hlt, htl.le⟩
    · obtain ⟨h1, h2, h3⟩ := ih htl hb
      exact ⟨le_trans (le_of_lt hlt) h1, h2, h3⟩

/-- A point of the interval splits the tiling at the segment that contains it. -/
theorem Tiles.exists_split : ∀ {s e : Nat}, Tiles lo hi s e l →
    s ≤ x → x < e → ∃ l₁ b l₂, l = l₁ ++ b :: l₂ ∧ lo b ≤ x ∧ x < hi b ∧
      Tiles lo hi s (lo b) l₁ ∧ Tiles lo hi (hi b) e l₂ := by
  induction l with
  | nil =>
    intro s e h hs he
    have : s = e := h
    omega
  | cons c l ih =>
    intro s e h hs he
    obtain ⟨hlo, hlt, htl⟩ := h
    by_cases hx : x < hi c
    · exact ⟨[], c, l, rfl, hlo ▸ hs, hx, hlo.symm, htl⟩
    · obtain ⟨l₁, b, l₂, rfl, hb1, hb2, ht1, ht2⟩ := ih htl (Nat.le_of_not_lt hx) he
      exact ⟨c :: l₁, b, l₂, rfl, hb1, hb2, ⟨hlo, hlt, ht1⟩, ht2⟩

theorem lookup_cons :
    lookup lo hi x (b :: l) = if lo b ≤ x ∧ x < hi b then some b else lookup lo hi x l := by
  by_cases h : lo b ≤ x ∧ x < hi b <;> simp [lookup, h]

theorem lookup_append {l₁ l₂ : List α} :
    lookup lo hi x (l₁ ++ l₂) = (lookup lo hi x l₁).or (lookup lo hi x l₂) := by
  simp [lookup, List.find?_append]

/-- No segment of a tiling of `[s, e)` contains a point outside the interval. -/
theorem Tiles.lookup_eq_none (h : Tiles lo hi s e l)
    (hx : x < s ∨ e ≤ x) : lookup lo hi x l = none := by
  refine List.find?_eq_none.2 fun b hb => ?_
  obtain ⟨h1, -, h3⟩ := h.mem hb
  simp only [decide_eq_true_eq, not_and, not_lt]
  intro hlo
  omega

/-- The segment that contains a point of the interval is unique. -/
theorem Tiles.lookup_eq_some (h : Tiles lo hi s e l)
    (hb : b ∈ l) (h1 : lo b ≤ x) (h2 : x < hi b) : lookup lo hi x l = some b := by
  obtain ⟨l₁, l₂, rfl⟩ := List.append_of_mem hb
  obtain ⟨m, ht1, ht2⟩ := tiles_append.1 h
  have hm : lo b = m := ht2.1
  rw [lookup_append, ht1.lookup_eq_none (.inr (by omega)), lookup_cons, if_pos ⟨h1, h2⟩]
  rfl

theorem Tiles.exists_lookup (h : Tiles lo hi s e l) (hs : s ≤ x)
    (he : x < e) : ∃ b ∈ l, lookup lo hi x l = some b ∧ lo b ≤ x ∧ x < hi b := by
  obtain ⟨l₁, b, l₂, rfl, h1, h2, -, -⟩ := h.exists_split hs he
  exact ⟨b, by simp, h.lookup_eq_some (by simp) h1 h2, h1, h2⟩

/-- Replacing each segment by a tiling of its own extent tiles the same interval. -/
theorem Tiles.flatMap {f : α → List α} : ∀ {s e : Nat}, Tiles lo hi s e l →
    (∀ b ∈ l, Tiles lo hi (lo b) (hi b) (f b)) → Tiles lo hi s e (l.flatMap f) := by
  induction l with
  | nil => intro s e h _; exact h
  | cons b l ih =>
    intro s e h hf
    obtain ⟨hlo, -, htl⟩ := h
    rw [List.flatMap_cons, tiles_append]
    refine ⟨hi b, ?_, ih htl fun c hc => hf c (List.mem_cons_of_mem b hc)⟩
    rw [← hlo]
    exact hf b List.mem_cons_self

end Tiles

end Sudachi.Foundations
