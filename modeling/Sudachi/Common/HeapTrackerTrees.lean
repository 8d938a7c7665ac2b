import Sudachi.Common.HeapTracker
import Mathlib.Data.Prod.Lex
import Mathlib.Tactic

/-!
# The trees of the heap tracker

In the order of the first tree the mappings are nonempty and lie apart, so that a search by an
address finds the one mapping that covers it, and an insertion comes to the place by address. The
second tree holds those of them that are resident, by their ticks, where mappings of the same tick
are parts of one and are ordered by address.
-/

set_option autoImplicit false

namespace Sudachi.Common

open Sudachi.Foundations List

/-! ## The comparisons -/

namespace SeparateHeapMap

/-- A mapping that is not empty and ends within the address space. -/
def Sized (h : SeparateHeapMap) : Prop := 0 < h.size ∧ h.vaddr + h.size ≤ 2 ^ 64

/-- By what the resident mappings are ordered. -/
def key (h : SeparateHeapMap) : ℕ ×ₗ ℕ := toLex (h.tick, h.vaddr)

variable {h a : SeparateHeapMap} {v : Nat}

theorem Sized.addrCompare_eq (hs : h.Sized) :
    addrCompare v h = if v < h.vaddr then -1 else if v < h.vaddr + h.size then 0 else 1 := by
  obtain ⟨hpos, hend⟩ := hs
  have hlast : (h.vaddr + h.size + (2 ^ 64 - 1)) % 2 ^ 64 = h.vaddr + h.size - 1 := by omega
  rw [addrCompare, hlast]
  by_cases hlow : v < h.vaddr
  · rw [if_pos hlow, if_pos hlow]
  · rw [if_neg hlow, if_neg hlow]
    by_cases hhigh : v < h.vaddr + h.size
    · rw [if_pos hhigh, if_pos (by omega)]
    · rw [if_neg hhigh, if_neg (by omega)]

theorem addrCompare_neg (hlow : v < h.vaddr) : addrCompare v h < 0 := by
  rw [addrCompare, if_pos hlow]
  decide

theorem Sized.addrCompare_pos (hs : h.Sized) (hhigh : h.vaddr + h.size ≤ v) :
    0 < addrCompare v h := by
  rw [hs.addrCompare_eq, if_neg (by omega), if_neg (by omega)]
  decide

theorem Sized.addrCompare_eq_zero (hs : h.Sized) (hcovers : h.Covers v) : addrCompare v h = 0 := by
  rw [hs.addrCompare_eq, if_neg (by have := hcovers.1; omega), if_pos hcovers.2]

/-- A mapping that another one does not start in is compared with it by the keys. -/
theorem Sized.tickCompare_spec (hs : h.Sized) (hout : ¬h.Covers a.vaddr) :
    tickCompare a h ≠ 0 ∧ (tickCompare a h < 0 ↔ a.key < h.key) := by
  rw [tickCompare, key, key, Prod.Lex.toLex_lt_toLex]
  rcases lt_trichotomy a.tick h.tick with htick | htick | htick
  · rw [if_pos htick]
    exact ⟨by decide, fun _ => .inl htick, fun _ => by decide⟩
  · rw [if_neg (by omega), if_neg (by omega)]
    by_cases hlow : a.vaddr < h.vaddr
    · rw [addrCompare, if_pos hlow]
      exact ⟨by decide, fun _ => .inr ⟨htick, hlow⟩, fun _ => by decide⟩
    · have hhigh : h.vaddr + h.size ≤ a.vaddr := by
        by_contra hin
        exact hout ⟨by omega, by omega⟩
      have hpos := hs.addrCompare_pos hhigh
      exact ⟨by omega, fun hneg => by omega, fun hkey => by omega⟩
  · rw [if_neg (by omega), if_pos htick]
    exact ⟨by decide, fun hneg => absurd hneg (by decide), fun hkey => by omega⟩

end SeparateHeapMap

namespace HeapTracker

/-! ## What the trees hold -/

/-- The mappings of the first tree lie apart, and the second one holds the resident ones by their
ticks. -/
structure Trees (s : HeapTracker) : Prop where
  sized : ∀ a ∈ s.mappings.toList, (s.item a).Sized
  sorted : s.mappings.toList.Pairwise fun a b =>
    (s.item a).vaddr + (s.item a).size ≤ (s.item b).vaddr
  created : ∀ a ∈ s.mappings.toList, a < s.created
  resident : ∀ a, a ∈ s.residentMappings.toList ↔
    a ∈ s.mappings.toList ∧ (s.item a).isResident = true
  ordered : s.residentMappings.toList.Pairwise fun a b => (s.item a).key < (s.item b).key
  count : s.residentMapCount = s.residentMappings.toList.length

variable {bal : SearchTree.Balancing Nat} {s s' : HeapTracker} {l r : List Nat} {a b id : Nat}
variable {x v : Nat} {h : SeparateHeapMap}

namespace Trees

section

variable (ht : s.Trees)
include ht

theorem nodup : s.mappings.toList.Nodup := by
  refine (ht.sorted.imp_of_mem fun ha _ hab => ?_)
  rintro rfl
  have := (ht.sized _ ha).1
  omega

theorem nodup_resident : s.residentMappings.toList.Nodup :=
  ht.ordered.imp fun hab => by
    rintro rfl
    exact lt_irrefl _ hab

/-- An address is covered by at most one mapping. -/
theorem unique (ha : a ∈ s.mappings.toList) (hb : b ∈ s.mappings.toList)
    (hcovers : (s.item a).Covers x) (hcovers' : (s.item b).Covers x) : a = b := by
  by_contra hne
  obtain ⟨hlow, hhigh⟩ := hcovers
  obtain ⟨hlow', hhigh'⟩ := hcovers'
  have hsym : Std.Symm fun a b => (s.item a).vaddr + (s.item a).size ≤ (s.item b).vaddr ∨
      (s.item b).vaddr + (s.item b).size ≤ (s.item a).vaddr := ⟨fun _ _ h => h.symm⟩
  have hapart : s.mappings.toList.Pairwise fun a b =>
      (s.item a).vaddr + (s.item a).size ≤ (s.item b).vaddr ∨
        (s.item b).vaddr + (s.item b).size ≤ (s.item a).vaddr := ht.sorted.imp fun h => Or.inl h
  have hdisjoint := hapart.forall ha hb hne
  omega

/-- The mappings fall apart at an address into those that end before it, the one that covers it, if
there is one, and those that begin behind it. -/
theorem cut (x : Nat) : ∃ l covering r, s.mappings.toList = l ++ (Option.toList covering ++ r) ∧
      (∀ b ∈ l, (s.item b).vaddr + (s.item b).size ≤ x) ∧
      (∀ a ∈ covering, (s.item a).Covers x) ∧ ∀ b ∈ r, x < (s.item b).vaddr := by
  have hkeys : s.mappings.toList.Pairwise fun a b => (s.item a).vaddr ≤ (s.item b).vaddr :=
    ht.sorted.imp fun hab => by omega
  obtain ⟨before, r, hsplit, hbefore, hr⟩ :=
    SearchTree.exists_split (fun a => (s.item a).vaddr) x hkeys
  rcases eq_nil_or_concat before with rfl | ⟨l, a, rfl⟩
  · exact ⟨[], none, r, by simpa using hsplit, by simp, by simp, hr⟩
  · have hsorted := ht.sorted
    rw [hsplit, concat_eq_append] at hsorted
    have hends : ∀ b ∈ l, (s.item b).vaddr + (s.item b).size ≤ (s.item a).vaddr := fun b hb =>
      (pairwise_append.mp (pairwise_append.mp hsorted).1).2.2 b hb a (by simp)
    have hstart : (s.item a).vaddr ≤ x := hbefore a (by simp)
    by_cases hend : x < (s.item a).vaddr + (s.item a).size
    · refine ⟨l, some a, r, by simpa using hsplit, fun b hb => (hends b hb).trans hstart, ?_, hr⟩
      intro b hb
      obtain rfl := Option.mem_some_iff.mp hb
      exact ⟨hstart, hend⟩
    · refine ⟨l ++ [a], none, r, by simpa using hsplit, fun b hb => ?_, by simp, hr⟩
      rcases mem_append.mp hb with hb | hb
      · exact (hends b hb).trans hstart
      · rw [mem_singleton.mp hb]
        omega

/-- The nearest mapping is the one that covers the offset. -/
theorem nearest_eq {covering : Option Nat}
    (hsplit : s.mappings.toList = l ++ (Option.toList covering ++ r))
    (hl : ∀ b ∈ l, (s.item b).vaddr + (s.item b).size ≤ x)
    (hcovering : ∀ a ∈ covering, (s.item a).Covers x) (hr : ∀ b ∈ r, x < (s.item b).vaddr) :
    s.getNearestHeapMapLocked x = covering := by
  have hbefore : ∀ b ∈ l, 0 < SeparateHeapMap.addrCompare x (s.item b) := fun b hb =>
    (ht.sized b (by rw [hsplit]; simp [hb])).addrCompare_pos (hl b hb)
  have hafter : ∀ b ∈ r, SeparateHeapMap.addrCompare x (s.item b) < 0 := fun b hb =>
    SeparateHeapMap.addrCompare_neg (hr b hb)
  cases covering with
  | none => exact SearchTree.find_eq_none hsplit hbefore hafter
  | some a =>
    have hzero := (ht.sized a (by rw [hsplit]; simp)).addrCompare_eq_zero (hcovering a rfl)
    exact SearchTree.find_eq_of_equal hsplit hbefore hzero hafter

theorem nearest_of_covers (ha : a ∈ s.mappings.toList)
    (hcovers : (s.item a).Covers x) : s.getNearestHeapMapLocked x = some a := by
  obtain ⟨l, covering, r, hsplit, hl, hcovering, hr⟩ := ht.cut x
  rw [ht.nearest_eq hsplit hl hcovering hr]
  obtain ⟨hstart, hend⟩ := hcovers
  rw [hsplit] at ha
  rcases mem_append.mp ha with ha | ha
  · have := hl a ha
    omega
  · rcases mem_append.mp ha with ha | ha
    · exact Option.mem_toList.mp ha
    · have := hr a ha
      omega

theorem covers_of_nearest (hnearest : s.getNearestHeapMapLocked x = some a) :
    a ∈ s.mappings.toList ∧ (s.item a).Covers x := by
  obtain ⟨l, covering, r, hsplit, hl, hcovering, hr⟩ := ht.cut x
  rw [ht.nearest_eq hsplit hl hcovering hr] at hnearest
  subst hnearest
  exact ⟨by rw [hsplit]; simp, hcovering a rfl⟩

end

end Trees

/-! ## Insertions -/

variable (bal id) in
theorem toList_insertMapping (hsplit : s.mappings.toList = l ++ r)
    (hl : ∀ b ∈ l, 0 < SeparateHeapMap.addrCompare (s.item id).vaddr (s.item b))
    (hr : ∀ b ∈ r, SeparateHeapMap.addrCompare (s.item id).vaddr (s.item b) < 0) :
    (s.insertMapping bal id).mappings.toList = l ++ id :: r :=
  SearchTree.toList_insert bal id hsplit hl hr

variable (bal) in
/-- A resident mapping comes to its place by the ticks. -/
theorem insertResident_spec
    (hordered : s.residentMappings.toList.Pairwise fun a b => (s.item a).key < (s.item b).key)
    (hsized : ∀ b ∈ s.residentMappings.toList, (s.item b).Sized)
    (hout : ∀ b ∈ s.residentMappings.toList, ¬(s.item b).Covers (s.item id).vaddr) :
    (s.insertResident bal id).residentMappings.toList.Perm (id :: s.residentMappings.toList) ∧
      (s.insertResident bal id).residentMappings.toList.Pairwise
        fun a b => (s.item a).key < (s.item b).key := by
  have hcmp (b) (hb : b ∈ s.residentMappings.toList) :=
    (hsized b hb).tickCompare_spec (a := s.item id) (hout b hb)
  have hweak : s.residentMappings.toList.Pairwise fun a b => (s.item a).key ≤ (s.item b).key :=
    hordered.imp le_of_lt
  obtain ⟨before, after, hsplit, hinsert, hbefore, hafter⟩ :=
    SearchTree.exists_toList_insert (a := id) bal
      (fun b hb => (hcmp b hb).1) (fun b hb => (hcmp b hb).2) hweak
  have hstrict (b) (hb : b ∈ before) : (s.item b).key < (s.item id).key := by
    have hmem : b ∈ s.residentMappings.toList := by rw [hsplit]; simp [hb]
    refine lt_of_le_of_ne (hbefore b hb) fun heq => hout b hmem ?_
    have hvaddr : (s.item b).vaddr = (s.item id).vaddr :=
      congrArg (fun k => (ofLex k).2) heq
    have := (hsized b hmem).1
    exact ⟨by omega, by omega⟩
  refine ⟨?_, ?_⟩
  · refine (List.Perm.of_eq hinsert).trans ?_
    rw [hsplit]
    exact perm_middle
  · rw [hsplit, pairwise_append] at hordered
    obtain ⟨hl, hr, hlr⟩ := hordered
    have hlist : (s.insertResident bal id).residentMappings.toList = before ++ id :: after :=
      hinsert
    rw [hlist, pairwise_append]
    refine ⟨hl, pairwise_cons.mpr ⟨hafter, hr⟩, fun b hb d hd => ?_⟩
    rcases mem_cons.mp hd with rfl | hd
    · exact hstrict b hb
    · exact hlr b hb d hd

end HeapTracker

end Sudachi.Common
