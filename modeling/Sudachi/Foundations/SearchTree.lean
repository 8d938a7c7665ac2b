import Mathlib.Data.List.Sort
import Mathlib.Tactic

/-!
# Intrusive search trees

A binary tree that is searched with a three-way comparison, as in the trees of FreeBSD's `tree.h`:
`insert` and `nfind` descend from the root. What rebalancing does to the shape is a parameter
(`Balancing`); it rotates after an insertion, and takes out one node at a removal. The in-order list
of the nodes is all that a user of such a tree can see: inserting puts a node behind those that it
does not compare less than (`toList_insert`), `find` delivers the node that a key compares equal to
(`find_eq`), and `nfind` the first node that a key does not compare greater than (`nfind_eq`,
`nfind_of_find`).
-/

set_option autoImplicit false

namespace Sudachi.Foundations

open List

universe u v

inductive SearchTree (α : Type u) where
  | leaf
  | node (left : SearchTree α) (value : α) (right : SearchTree α)

namespace SearchTree

variable {α : Type u}

/-- The nodes in order. -/
def toList : SearchTree α → List α
  | .leaf => []
  | .node left value right => left.toList ++ value :: right.toList

/-- `RB_INSERT` before it rebalances; `cmp b` compares the new node with the node `b`. -/
def insertNode (cmp : α → Int) (a : α) : SearchTree α → SearchTree α
  | .leaf => .node .leaf a .leaf
  | .node left b right =>
    if cmp b < 0 then .node (left.insertNode cmp a) b right
    else if 0 < cmp b then .node left b (right.insertNode cmp a)
    else .node left b right

/-- `RB_FIND_KEY`; `cmp b` compares the key with `b`. -/
def find (cmp : α → Int) : SearchTree α → Option α
  | .leaf => none
  | .node left b right =>
    if cmp b < 0 then left.find cmp else if 0 < cmp b then right.find cmp else some b

/-- `RB_NFIND_KEY`, with the candidate `res` found so far; `cmp b` compares the key with `b`. -/
def nfind (cmp : α → Int) : SearchTree α → Option α → Option α
  | .leaf, res => res
  | .node left b right, res =>
    if cmp b < 0 then left.nfind cmp (some b)
    else if 0 < cmp b then right.nfind cmp res
    else some b

/-- What a tree becomes by rotations anywhere in it. -/
inductive Rotated : SearchTree α → SearchTree α → Prop where
  | refl (t : SearchTree α) : Rotated t t
  | rotate (l m r : SearchTree α) (a b : α) :
      Rotated (.node l a (.node m b r)) (.node (.node l a m) b r)
  | symm {t t' : SearchTree α} (h : Rotated t t') : Rotated t' t
  | trans {t t' t'' : SearchTree α} (h : Rotated t t') (h' : Rotated t' t'') : Rotated t t''
  | node {l l' r r' : SearchTree α} (a : α) (hl : Rotated l l') (hr : Rotated r r') :
      Rotated (.node l a r) (.node l' a r')

theorem Rotated.toList_eq {t t' : SearchTree α} (h : Rotated t t') : t'.toList = t.toList := by
  induction h with
  | refl => rfl
  | rotate l m r a b => simp [toList]
  | symm _ ih => exact ih.symm
  | trans _ _ ih ih' => exact ih'.trans ih
  | node a hl hr ihl ihr => rw [toList, toList, ihl, ihr]

/-- How a tree keeps its balance: `insertColor` after an insertion, and the removal of a node. -/
structure Balancing (α : Type u) [DecidableEq α] where
  insertColor : SearchTree α → SearchTree α
  rotated_insertColor : ∀ t, Rotated t (insertColor t)
  remove : α → SearchTree α → SearchTree α
  toList_remove : ∀ a t, (remove a t).toList = t.toList.erase a

variable [DecidableEq α]

/-- `RB_INSERT`. -/
def insert (bal : Balancing α) (cmp : α → Int) (a : α) (t : SearchTree α) : SearchTree α :=
  bal.insertColor (t.insertNode cmp a)

/-- A tree that is never balanced, and rebuilt at every removal. -/
def rebuilding : Balancing α where
  insertColor := fun t => t
  rotated_insertColor := .refl
  remove := fun a t => (t.toList.erase a).foldr (fun b r => .node .leaf b r) .leaf
  toList_remove := fun a t => by
    induction t.toList.erase a with
    | nil => rfl
    | cons b l ih => exact congrArg (b :: ·) ih

section

omit [DecidableEq α]

theorem split_left {x y l r : List α} {b : α} (h : x ++ b :: y = l ++ r) (hb : b ∉ l) :
    ∃ m, x = l ++ m ∧ r = m ++ b :: y := by
  rcases append_eq_append_iff.mp h with ⟨m, h₁, h₂⟩ | ⟨m, h₁, h₂⟩
  · cases m with
    | nil => exact ⟨[], by simpa using h₁.symm, by simpa using h₂.symm⟩
    | cons c m =>
      obtain ⟨rfl, -⟩ := cons.inj h₂
      exact absurd (by rw [h₁]; simp) hb
  · exact ⟨m, h₁, h₂⟩

theorem split_right {x y l r : List α} {b : α} (h : x ++ b :: y = l ++ r) (hb : b ∉ r) :
    ∃ m, y = m ++ r ∧ l = x ++ b :: m := by
  rcases append_eq_append_iff.mp h with ⟨m, h₁, h₂⟩ | ⟨m, -, h₂⟩
  · cases m with
    | nil => exact absurd (by rw [← nil_append r, ← h₂]; simp) hb
    | cons c m =>
      obtain ⟨rfl, h₃⟩ := cons.inj h₂
      exact ⟨m, h₃, h₁⟩
  · exact absurd (by rw [h₂]; simp) hb

/-- A list sorted by keys falls apart at any key. -/
theorem exists_split {κ : Type v} [LinearOrder κ] (key : α → κ) (k : κ) {l : List α}
    (h : l.Pairwise fun a b => key a ≤ key b) :
    ∃ before after, l = before ++ after ∧ (∀ a ∈ before, key a ≤ k) ∧ ∀ a ∈ after, k < key a := by
  induction l with
  | nil => exact ⟨[], [], rfl, by simp, by simp⟩
  | cons a l ih =>
    obtain ⟨hhead, htail⟩ := pairwise_cons.mp h
    by_cases ha : key a ≤ k
    · obtain ⟨before, after, hsplit, hbefore, hafter⟩ := ih htail
      refine ⟨a :: before, after, by rw [hsplit, cons_append], ?_, hafter⟩
      exact forall_mem_cons.mpr ⟨ha, hbefore⟩
    · have hk := not_le.mp ha
      exact ⟨[], a :: l, rfl, by simp,
        forall_mem_cons.mpr ⟨hk, fun b hb => lt_of_lt_of_le hk (hhead b hb)⟩⟩

end

section Descent

variable {cmp : α → Int} {t : SearchTree α} {l r : List α}

omit [DecidableEq α] in
/-- The way down between those that a key compares greater than and those that it compares less
than. -/
theorem descent {P : SearchTree α → List α → List α → Prop} (hleaf : P .leaf [] [])
    (hlt : ∀ left b right l m, cmp b < 0 → P left l m →
      P (.node left b right) l (m ++ b :: right.toList))
    (hgt : ∀ left b right m r, 0 < cmp b → P right m r →
      P (.node left b right) (left.toList ++ b :: m) r)
    (ht : t.toList = l ++ r) (hl : ∀ b ∈ l, 0 < cmp b) (hr : ∀ b ∈ r, cmp b < 0) : P t l r := by
  induction t generalizing l r with
  | leaf =>
    obtain ⟨rfl, rfl⟩ := append_eq_nil_iff.mp ht.symm
    exact hleaf
  | node left b right ihl ihr =>
    rw [toList] at ht
    by_cases hb : cmp b < 0
    · obtain ⟨m, hm, rfl⟩ := split_left ht fun hmem => absurd (hl b hmem) (by omega)
      exact hlt left b right l m hb (ihl hm hl fun c hc => hr c (by simp [hc]))
    · have hmem : b ∈ l ++ r := by rw [← ht]; simp
      have hb' : 0 < cmp b := hl b ((mem_append.mp hmem).resolve_right fun h => hb (hr b h))
      obtain ⟨m, hm, rfl⟩ := split_right ht fun hmem => hb (hr b hmem)
      exact hgt left b right m r hb' (ihr hm (fun c hc => hl c (by simp [hc])) hr)

omit [DecidableEq α] in
theorem toList_insertNode (a : α) (ht : t.toList = l ++ r) (hl : ∀ b ∈ l, 0 < cmp b)
    (hr : ∀ b ∈ r, cmp b < 0) : (t.insertNode cmp a).toList = l ++ a :: r := by
  refine descent (P := fun t l r => (t.insertNode cmp a).toList = l ++ a :: r) rfl ?_ ?_ ht hl hr
  · intro left b right l m hb ih
    rw [insertNode, if_pos hb, toList, ih]
    simp
  · intro left b right m r hb ih
    rw [insertNode, if_neg (by omega), if_pos hb, toList, ih]
    simp

/-- A node is inserted between those it does not compare less than and the others. -/
theorem toList_insert (bal : Balancing α) (a : α) (ht : t.toList = l ++ r) (hl : ∀ b ∈ l, 0 < cmp b)
    (hr : ∀ b ∈ r, cmp b < 0) : (t.insert bal cmp a).toList = l ++ a :: r := by
  rw [insert, (bal.rotated_insertColor _).toList_eq, toList_insertNode a ht hl hr]

section

omit [DecidableEq α]

theorem nfind_eq (ht : t.toList = l ++ r) (hl : ∀ b ∈ l, 0 < cmp b)
    (hr : ∀ b ∈ r, cmp b < 0) (res : Option α) : t.nfind cmp res = r.head?.or res := by
  refine descent (P := fun t _ r => ∀ res, t.nfind cmp res = r.head?.or res) (fun _ => rfl) ?_ ?_
    ht hl hr res
  · intro left b right l m hb ih res
    rw [nfind, if_pos hb, ih]
    cases m <;> rfl
  · intro left b right m r hb ih res
    rw [nfind, if_neg (by omega), if_pos hb, ih]

/-- A key that compares equal to a node finds it, whatever it compares to the others. -/
theorem find_eq_of_equal {a : α} (ht : t.toList = l ++ a :: r) (hl : ∀ b ∈ l, 0 < cmp b)
    (ha : cmp a = 0) (hr : ∀ b ∈ r, cmp b < 0) : t.find cmp = some a := by
  induction t generalizing l r with
  | leaf => exact absurd ht (by simp [toList])
  | node left b right ihl ihr =>
    rw [toList] at ht
    rw [find]
    by_cases hb : cmp b < 0
    · have hout : b ∉ l ++ [a] := fun hmem => by
        rcases mem_append.mp hmem with hmem | hmem
        · exact absurd (hl b hmem) (by omega)
        · rw [mem_singleton.mp hmem, ha] at hb
          exact absurd hb (lt_irrefl 0)
      obtain ⟨m, hm, rfl⟩ := split_left (ht.trans (append_cons l a r)) hout
      rw [if_pos hb]
      exact ihl (hm.trans (append_cons l a m).symm) hl fun c hc => hr c (by simp [hc])
    · by_cases hb' : 0 < cmp b
      · have hout : b ∉ a :: r := fun hmem => by
          rcases mem_cons.mp hmem with rfl | hmem
          · omega
          · exact hb (hr b hmem)
        obtain ⟨m, hm, rfl⟩ := split_right ht hout
        rw [if_neg hb, if_pos hb']
        exact ihr hm (fun c hc => hl c (by simp [hc])) hr
      · have hmem : b ∈ l ++ a :: r := by rw [← ht]; simp
        rw [if_neg hb, if_neg hb']
        rcases mem_append.mp hmem with hmem | hmem
        · exact absurd (hl b hmem) hb'
        · rcases mem_cons.mp hmem with rfl | hmem
          · rfl
          · exact absurd (hr b hmem) hb

/-- A key that compares equal to no node finds none. -/
theorem find_eq_none (ht : t.toList = l ++ r) (hl : ∀ b ∈ l, 0 < cmp b)
    (hr : ∀ b ∈ r, cmp b < 0) : t.find cmp = none := by
  refine descent (P := fun t _ _ => t.find cmp = none) rfl ?_ ?_ ht hl hr
  · intro left b right l m hb ih
    rw [find, if_pos hb, ih]
  · intro left b right m r hb ih
    rw [find, if_neg (by omega), if_pos hb, ih]

/-- What a key finds is also the first node that it does not compare greater than. -/
theorem nfind_of_find {a : α} (h : t.find cmp = some a) (res : Option α) :
    t.nfind cmp res = some a := by
  induction t generalizing res with
  | leaf => exact absurd h (by simp [find])
  | node left b right ihl ihr =>
    rw [find] at h
    rw [nfind]
    by_cases hb : cmp b < 0
    · rw [if_pos hb] at h ⊢
      exact ihl h _
    · by_cases hb' : 0 < cmp b
      · rw [if_neg hb, if_pos hb'] at h ⊢
        exact ihr h _
      · rwa [if_neg hb, if_neg hb'] at h ⊢

end

section Ordered

variable {κ : Type v} [LinearOrder κ] {key : α → κ} {a : α}

section

variable (bal : Balancing α) (hne : ∀ b ∈ t.toList, cmp b ≠ 0)
  (hcmp : ∀ b ∈ t.toList, cmp b < 0 ↔ key a < key b)
  (ht : t.toList.Pairwise fun b c => key b ≤ key c)
include bal hne hcmp ht

/-- Where a comparison by keys inserts a node: behind all those of the same key. -/
theorem exists_toList_insert :
    ∃ before after, t.toList = before ++ after ∧ (t.insert bal cmp a).toList = before ++ a :: after ∧
      (∀ b ∈ before, key b ≤ key a) ∧ ∀ b ∈ after, key a < key b := by
  obtain ⟨before, after, hsplit, hbefore, hafter⟩ := exists_split key (key a) ht
  refine ⟨before, after, hsplit, ?_, hbefore, hafter⟩
  have hmem (b) (hb : b ∈ before ++ after) : b ∈ t.toList := hsplit ▸ hb
  refine toList_insert bal a hsplit (fun b hb => ?_) fun b hb => ?_
  · have hb' := hmem b (mem_append_left _ hb)
    have hnot : ¬ cmp b < 0 := fun h => absurd ((hcmp b hb').mp h) (not_lt.mpr (hbefore b hb))
    exact lt_of_le_of_ne (not_lt.mp hnot) (hne b hb').symm
  · exact (hcmp b (hmem b (mem_append_right _ hb))).mpr (hafter b hb)

theorem toList_insert_perm : (t.insert bal cmp a).toList.Perm (a :: t.toList) := by
  obtain ⟨before, after, hsplit, hinsert, -, -⟩ := exists_toList_insert bal hne hcmp ht
  rw [hinsert, hsplit]
  exact perm_middle

theorem pairwise_toList_insert : (t.insert bal cmp a).toList.Pairwise fun b c => key b ≤ key c := by
  obtain ⟨before, after, hsplit, hinsert, hbefore, hafter⟩ := exists_toList_insert bal hne hcmp ht
  rw [hsplit, pairwise_append] at ht
  obtain ⟨hl, hr, hlr⟩ := ht
  rw [hinsert, pairwise_append]
  refine ⟨hl, pairwise_cons.mpr ⟨fun b hb => (hafter b hb).le, hr⟩, fun b hb c hc => ?_⟩
  rcases mem_cons.mp hc with rfl | hc
  · exact hbefore b hb
  · exact hlr b hb c hc

end

end Ordered

end Descent

end SearchTree

end Sudachi.Foundations
