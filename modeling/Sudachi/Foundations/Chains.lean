import Mathlib.Data.List.Nodup
import Mathlib.Logic.Function.Basic
import Mathlib.Tactic.Common

/-!
# Chains of links in a store

A store gives an id a link: the id of the next link and a value. Zero ends a chain and is no id. A chain
is described by the list of its ids and values; it is the only one from its start, so it cannot run
in a circle. The lemmas say what becomes of a chain when a link is written, put behind its end or
taken out.
-/

set_option autoImplicit false

namespace Sudachi.Foundations.Chains

open List

variable {α : Type}

/-- The links from `start` on, as pairs of their ids and values, are those of the list. -/
def Chain (store : Nat → Option (Nat × α)) : Nat → List (Nat × α) → Prop
  | start, [] => start = 0
  | start, link :: rest =>
    start = link.1 ∧ link.1 ≠ 0 ∧ ∃ next, store link.1 = some (next, link.2) ∧ Chain store next rest

/-- The ids of a chain. -/
def ids (l : List (Nat × α)) : List Nat := l.map Prod.fst

/-- The values of a chain. -/
def values (l : List (Nat × α)) : List α := l.map Prod.snd

/-- The start of a chain. -/
def first : List (Nat × α) → Nat
  | [] => 0
  | link :: _ => link.1

variable {store store' : Nat → Option (Nat × α)} {start : Nat} {l before after : List (Nat × α)}

theorem Chain.start_eq (h : Chain store start l) : start = first l := by
  cases l with
  | nil => exact h
  | cons link rest => exact h.1

/-- What a chain from a start is, is settled by the store. -/
theorem Chain.unique {l' : List (Nat × α)} (h : Chain store start l) (h' : Chain store start l') :
    l = l' := by
  induction l generalizing start l' with
  | nil =>
    cases l' with
    | nil => rfl
    | cons link' rest' => exact absurd (h.symm.trans h'.1).symm h'.2.1
  | cons link rest ih =>
    obtain ⟨hstart, hzero, next, hlink, hrest⟩ := h
    cases l' with
    | nil => exact absurd (hstart.symm.trans h') hzero
    | cons link' rest' =>
      obtain ⟨hstart', -, next', hlink', hrest'⟩ := h'
      have hid : link.1 = link'.1 := hstart.symm.trans hstart'
      rw [← hid, hlink, Option.some.injEq, Prod.mk.injEq] at hlink'
      rw [ih hrest (hlink'.1 ▸ hrest'), Prod.ext hid hlink'.2]

/-- The links behind a link of a chain are the chain from the id that it leads to. -/
theorem Chain.of_append (h : Chain store start (before ++ after)) :
    ∃ next, Chain store next after := by
  induction before generalizing start with
  | nil => exact ⟨start, h⟩
  | cons link rest ih =>
    obtain ⟨-, -, next, -, hrest⟩ := h
    exact ih hrest

theorem Chain.link_of_append {link : Nat × α} (h : Chain store start (before ++ link :: after)) :
    link.1 ≠ 0 ∧ ∃ next, store link.1 = some (next, link.2) ∧ Chain store next after := by
  obtain ⟨next, -, hzero, hlink⟩ := h.of_append
  exact ⟨hzero, hlink⟩

theorem Chain.link_of_mem {link : Nat × α} (h : Chain store start l) (hmem : link ∈ l) :
    link.1 ≠ 0 ∧ ∃ next, store link.1 = some (next, link.2) := by
  obtain ⟨before, after, rfl⟩ := append_of_mem hmem
  obtain ⟨hzero, next, hlink, -⟩ := h.link_of_append
  exact ⟨hzero, next, hlink⟩

/-- A chain does not come back to an id. -/
theorem Chain.nodup (h : Chain store start l) : (ids l).Nodup := by
  induction l generalizing start with
  | nil => exact nodup_nil
  | cons link rest ih =>
    have hchain := h
    obtain ⟨-, -, next, hlink, hrest⟩ := h
    refine nodup_cons.mpr ⟨fun hmem => ?_, ih hrest⟩
    obtain ⟨link', hmem', hid⟩ := mem_map.mp hmem
    obtain ⟨before, after, rfl⟩ := append_of_mem hmem'
    obtain ⟨-, next', hlink', hafter⟩ := hrest.link_of_append
    rw [hid, hlink, Option.some.injEq, Prod.mk.injEq] at hlink'
    have hsame := hrest.unique (hlink'.1 ▸ hafter)
    have hlength := congrArg length hsame
    simp at hlength
    omega

/-- A chain stays when the store changes elsewhere. -/
theorem Chain.congr (h : Chain store start l) (hsame : ∀ id ∈ ids l, store' id = store id) :
    Chain store' start l := by
  induction l generalizing start with
  | nil => exact h
  | cons link rest ih =>
    obtain ⟨hstart, hzero, next, hlink, hrest⟩ := h
    have hfirst := hsame link.1 mem_cons_self
    exact ⟨hstart, hzero, next, hfirst.trans hlink,
      ih hrest fun id hid => hsame id (mem_cons_of_mem _ hid)⟩

theorem Chain.update {id : Nat} {link : Option (Nat × α)} (h : Chain store start l)
    (hid : id ∉ ids l) : Chain (Function.update store id link) start l :=
  h.congr fun _ hmem => Function.update_of_ne (ne_of_mem_of_not_mem hmem hid) _ _

/-- A new link of its own. -/
theorem chain_single {id : Nat} {value : α} (hid : id ≠ 0) (hlink : store id = some (0, value)) :
    Chain store id [(id, value)] :=
  ⟨rfl, hid, 0, hlink, rfl⟩

/-- The chain of the links up to one that is made to lead elsewhere, to the start of a chain. -/
theorem Chain.relink {link : Nat × α} {next : Nat} {rest : List (Nat × α)}
    (h : Chain store start (before ++ link :: after)) (hrest : Chain store next rest)
    (hapart : link.1 ∉ ids rest) :
    Chain (Function.update store link.1 (some (next, link.2))) start (before ++ link :: rest) := by
  have hnodup := h.nodup
  induction before generalizing start with
  | nil =>
    obtain ⟨hstart, hzero, -⟩ := h
    exact ⟨hstart, hzero, next, Function.update_self .., hrest.update hapart⟩
  | cons b before ih =>
    obtain ⟨hstart, hzero, nextB, hlink, hbefore⟩ := h
    obtain ⟨hnot, hnodup⟩ := nodup_cons.mp hnodup
    have hne : b.1 ≠ link.1 := by
      intro heq
      exact hnot (mem_map.mpr ⟨link, by simp, heq.symm⟩)
    refine ⟨hstart, hzero, nextB, ?_, ih hbefore hnodup⟩
    rw [Function.update_of_ne hne, hlink]

/-- A chain begins with its first link, or ends at once. -/
theorem Chain.first_eq_zero_iff (h : Chain store start l) : first l = 0 ↔ l = [] := by
  cases l with
  | nil => exact iff_of_true rfl rfl
  | cons link rest => exact iff_of_false h.2.1 (cons_ne_nil _ _)

end Sudachi.Foundations.Chains
