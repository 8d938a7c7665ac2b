import Sudachi.AudioCore.SplitterContext
import Mathlib.Data.List.Perm.Subperm

/-!
# The order of the mixes

`MixContext::SortInfo` sorts the mixes by their distance from the final mix, so that a mix stands in
front of its destination. The distance is the number of hops along the destinations. Where a mix with
a known distance is met, the source takes that distance and one hop more, whatever number of hops led
there: it is too small unless the first hop led there.
-/

set_option autoImplicit false

namespace Sudachi.AudioCore

open List Function

def finalMixId : Int := 0

def invalidDistanceFromFinalMix : Int := -2 ^ 31

structure MixInfo where
  inUse : Bool
  mixId : Int
  dstMixId : Int

/-- The mixes. One in use is stored under its id. -/
structure MixContext where
  count : Nat
  mixInfos : Nat → MixInfo
  count_lt : count < 2 ^ 31
  mixId_eq : ∀ i < count, (mixInfos i).inUse = true → (mixInfos i).mixId = i

namespace MixContext

variable (c : MixContext) (distances : Nat → Int)

/-- The place of `mix_infos[mix_id]`, if it is inside. -/
def index (mixId : Int) : Option Nat :=
  if 0 ≤ mixId ∧ mixId < c.count then some mixId.toNat else none

/-- The loop along the destinations, with the rounds that are left to the count of the mixes. -/
def walk : Nat → Int → Int → Option Int
  | 0, _, distance => some distance
  | rounds + 1, mixId, distance =>
    if mixId = finalMixId then some distance
    else if mixId = unusedMixId then some invalidDistanceFromFinalMix
    else (c.index mixId).bind fun i =>
      if distances i ≠ invalidDistanceFromFinalMix then some (distances i + 1)
      else walk rounds (c.mixInfos i).dstMixId (distance + 1)

/-- A round of the second loop of `UpdateDistancesFromFinalMix`. -/
def updateDistance (i : Nat) : Option (Nat → Int) :=
  if (c.mixInfos i).inUse then
    (c.walk distances c.count (c.mixInfos i).mixId finalMixId).map fun distance =>
      update distances i (if (c.count : Int) ≤ distance then invalidDistanceFromFinalMix else distance)
  else some distances

/-- The distances after some rounds, if no read was outside of the mixes. -/
def updateDistances (rounds : Nat) : Option (Nat → Int) :=
  (range rounds).foldlM c.updateDistance fun _ => invalidDistanceFromFinalMix

def updateDistancesFromFinalMix : Option (Nat → Int) := c.updateDistances c.count

/-- What the sort of `SortInfo` leaves, where mixes of one distance may stand in any order. -/
structure Sorts (sortedMixInfos : List Nat) : Prop where
  perm : sortedMixInfos.Perm (range c.count)
  sorted : sortedMixInfos.Pairwise fun a b => distances b ≤ distances a

/-! ## What is asked of it -/

/-- The mixes along the destinations from an id on, up to an id at which the walk stops. -/
inductive Route (stops : Int → Prop) : Int → List Nat → Prop
  | stop {id : Int} (h : stops id) : Route stops id []
  | hop {id : Int} {i : Nat} {route : List Nat} (hid : id = i) (hi : i < c.count) (hne : i ≠ 0)
      (h : Route stops (c.mixInfos i).dstMixId route) : Route stops id (i :: route)

/-- The number of hops from a mix to the final one over mixes in use. -/
def Hops (i n : Nat) : Prop :=
  ∃ route, c.Route (· = finalMixId) i route ∧ (∀ j ∈ route, (c.mixInfos j).inUse = true) ∧
    route.length = n

/-- The hops to the final mix, or the invalid distance if it is not reached over mixes in use. -/
def IsDistance (i : Nat) (distance : Int) : Prop :=
  (∀ n, c.Hops i n → distance = n) ∧
    ((∀ n, ¬c.Hops i n) → distance = invalidDistanceFromFinalMix)

/-- No read is outside of the mixes, the distances are right and a mix that reaches the final one is
in front of its destination. -/
def SortsRight : Prop :=
  ∃ distances, c.updateDistancesFromFinalMix = some distances ∧
    (∀ i < c.count, (c.mixInfos i).inUse = true → c.IsDistance i (distances i)) ∧
    ∀ sorted, c.Sorts distances sorted → ∀ i < c.count, i ≠ 0 → (c.mixInfos i).inUse = true →
      (∃ n, c.Hops i n) → ∀ j : Nat, (c.mixInfos i).dstMixId = j →
        sorted.idxOf i < sorted.idxOf j

/-- An id that is looked up, of no mix. -/
def Outside (id : Int) : Prop := id ≠ finalMixId ∧ id ≠ unusedMixId ∧ c.index id = none

/-- The chain of a mix does not leave the mixes, leads to the final one only over mixes in use, and
comes to no mix of a lower number after a first hop to one of a higher number. -/
structure Orderly (i : Nat) : Prop where
  inside : ∀ route, ¬c.Route c.Outside i route
  used : ∀ route, c.Route (· = finalMixId) i route → ∀ j ∈ route, (c.mixInfos j).inUse = true
  ordered : ∀ j route, c.Route (· = finalMixId) i (i :: j :: route) → j < i ∨ ∀ k ∈ route, i ≤ k

/-! ## Routes -/

variable {c distances} {stops : Int → Prop} {id : Int} {route route' l₁ l₂ : List Nat} {i k : Nat}

/-- The walk stops at no mix but the final one. -/
def Ends (c : MixContext) (stops : Int → Prop) : Prop :=
  ∀ i : Nat, i < c.count → i ≠ 0 → ¬stops i

theorem ends_final : c.Ends (· = finalMixId) :=
  fun _ _ hne h => hne (Int.natCast_eq_zero.mp h)

theorem index_natCast (hi : i < c.count) : c.index i = some i := by
  rw [index, if_pos ⟨Int.natCast_nonneg i, Int.ofNat_lt.mpr hi⟩, Int.toNat_natCast]

theorem index_eq_some (h : c.index id = some i) : id = i ∧ i < c.count := by
  rw [index, Option.ite_none_right_eq_some] at h
  obtain ⟨⟨hpos, hlt⟩, h⟩ := h
  have hid := Option.some.inj h
  omega

theorem ends_outside : c.Ends c.Outside := by
  intro i hi _ h
  rw [Outside, index_natCast hi] at h
  cases h.2.2

theorem Route.unique (hends : c.Ends stops) (h : c.Route stops id route)
    (h' : c.Route stops id route') : route = route' := by
  induction h generalizing route' with
  | stop hstop =>
    cases h' with
    | stop => rfl
    | hop hid hi hne => exact absurd (hid ▸ hstop) (hends _ hi hne)
  | hop hid hi hne _ ih =>
    cases h' with
    | stop hstop => exact absurd (hid ▸ hstop) (hends _ hi hne)
    | hop hid' _ _ h' =>
      obtain rfl := Int.ofNat_inj.mp (hid.symm.trans hid')
      rw [ih h']

/-- No chain leads both to the final mix and out of the mixes. -/
theorem Route.inside (h : c.Route (· = finalMixId) id route) : ¬c.Route c.Outside id route' := by
  intro h'
  induction h generalizing route' with
  | stop hstop =>
    cases h' with
    | stop hout => exact hout.1 hstop
    | hop hid hi hne => exact ends_final _ hi hne (hid.symm.trans hstop)
  | hop hid hi hne _ ih =>
    cases h' with
    | stop hout => exact ends_outside _ hi hne (hid ▸ hout)
    | hop hid' _ _ h' =>
      obtain rfl := Int.ofNat_inj.mp (hid.symm.trans hid')
      exact ih h'

/-- A route goes up to each of its mixes and on from it. -/
theorem Route.split (h : c.Route stops id (l₁ ++ k :: l₂)) :
    c.Route (· = (k : Int)) id l₁ ∧ c.Route stops k (k :: l₂) := by
  induction l₁ generalizing id with
  | nil =>
    cases h with
    | hop hid hi hne h => exact ⟨.stop hid, .hop rfl hi hne h⟩
  | cons j l₁ ih =>
    cases h with
    | hop hid hi hne h => exact ⟨.hop hid hi hne (ih h).1, (ih h).2⟩

theorem Route.nodup (hends : c.Ends stops) (h : c.Route stops id route) : route.Nodup := by
  induction h with
  | stop => exact nodup_nil
  | hop _ hi hne h ih =>
    refine nodup_cons.mpr ⟨fun hmem => ?_, ih⟩
    obtain ⟨l₁, l₂, rfl⟩ := append_of_mem hmem
    have hlength := congrArg length (h.split.2.unique hends (.hop rfl hi hne h))
    simp only [length_cons, length_append] at hlength
    omega

theorem Route.length_lt (hends : c.Ends stops) (h : c.Route stops id route) (hpos : 0 < c.count) :
    route.length < c.count := by
  have hsub : route ⊆ range' 1 (c.count - 1) := by
    intro j hj
    obtain ⟨l₁, l₂, rfl⟩ := append_of_mem hj
    cases h.split.2 with
    | hop _ hi hne =>
      rw [mem_range'_1]
      omega
  have hle := (subperm_of_subset (h.nodup hends) hsub).length_le
  rw [length_range'] at hle
  omega

/-! ## Walks -/

theorem walk_hop (hid : id = i) (hi : i < c.count) (hne : i ≠ 0) (rounds : Nat) (distance : Int) :
    c.walk distances (rounds + 1) id distance =
      if distances i ≠ invalidDistanceFromFinalMix then some (distances i + 1)
      else c.walk distances rounds (c.mixInfos i).dstMixId (distance + 1) := by
  have hcount := c.count_lt
  have hunused : (i : Int) ≠ unusedMixId := by
    simp only [unusedMixId]
    omega
  rw [walk, hid, if_neg (ends_final i hi hne), if_neg hunused, index_natCast hi, Option.bind_some]

/-- Along mixes of unknown distances, the walk comes to the end of the route. -/
theorem walk_route (h : c.Route stops id route)
    (hroute : ∀ j ∈ route, distances j = invalidDistanceFromFinalMix) :
    ∃ stop, stops stop ∧ ∀ rounds distance, c.walk distances (rounds + route.length) id distance =
      c.walk distances rounds stop (distance + route.length) := by
  induction h with
  | stop hstop => exact ⟨_, hstop, fun rounds distance => by simp⟩
  | @hop id i route hid hi hne _ ih =>
    obtain ⟨hhead, hrest⟩ := forall_mem_cons.mp hroute
    obtain ⟨stop, hstop, hwalk⟩ := ih hrest
    refine ⟨stop, hstop, fun rounds distance => ?_⟩
    have hsum : distance + 1 + route.length = distance + (route.length + 1 : Nat) := by omega
    rw [length_cons, ← add_assoc, walk_hop hid hi hne, if_neg (not_not.mpr hhead), hwalk, hsum]

/-- The end of a walk along a short route. -/
theorem walk_count (h : c.Route stops id route) (hlt : route.length < c.count)
    (hroute : ∀ j ∈ route, distances j = invalidDistanceFromFinalMix) (distance : Int) :
    ∃ stop rounds, stops stop ∧ c.walk distances c.count id distance =
      c.walk distances (rounds + 1) stop (distance + route.length) := by
  obtain ⟨stop, hstop, hwalk⟩ := walk_route h hroute
  obtain ⟨rounds, hrounds⟩ := Nat.exists_eq_add_of_lt hlt
  refine ⟨stop, rounds, hstop, ?_⟩
  rw [← hwalk]
  congr 1
  omega

/-- A walk that does not lead out of the mixes and not to the final one. -/
theorem walk_unconnected (hinside : ∀ route, ¬c.Route c.Outside id route)
    (hfinal : ∀ route, ¬c.Route (· = finalMixId) id route)
    (hknown : ∀ j, distances j ≠ invalidDistanceFromFinalMix →
      ∃ route, c.Route (· = finalMixId) j route) (rounds : Nat) (distance : Int) :
    ∃ r, c.walk distances rounds id distance = some r ∧
      (r = invalidDistanceFromFinalMix ∨ r = distance + rounds) := by
  induction rounds generalizing id distance with
  | zero => exact ⟨distance, rfl, .inr (Int.add_zero _).symm⟩
  | succ rounds ih =>
    have hne : id ≠ finalMixId := fun h => hfinal [] (.stop h)
    rw [walk, if_neg hne]
    by_cases hunused : id = unusedMixId
    · exact ⟨_, if_pos hunused, .inl rfl⟩
    rw [if_neg hunused]
    cases hindex : c.index id with
    | none => exact absurd (.stop ⟨hne, hunused, hindex⟩) (hinside [])
    | some i =>
      obtain ⟨hid, hi⟩ := index_eq_some hindex
      have hi0 : i ≠ 0 := by
        rintro rfl
        exact hne hid
      rw [Option.bind_some]
      by_cases hunknown : distances i = invalidDistanceFromFinalMix
      · rw [if_neg (not_not.mpr hunknown)]
        obtain ⟨r, hr, hcases⟩ := ih (fun route h => hinside (i :: route) (.hop hid hi hi0 h))
          (fun route h => hfinal (i :: route) (.hop hid hi hi0 h)) (distance + 1)
        exact ⟨r, hr, hcases.imp_right fun h => by omega⟩
      · obtain ⟨route, hroute⟩ := hknown i hunknown
        exact absurd (hid ▸ hroute) (hfinal route)

theorem first_known (distances : Nat → Int) (route : List Nat) :
    (∀ j ∈ route, distances j = invalidDistanceFromFinalMix) ∨
      ∃ l₁ k l₂, route = l₁ ++ k :: l₂ ∧ (∀ j ∈ l₁, distances j = invalidDistanceFromFinalMix) ∧
        distances k ≠ invalidDistanceFromFinalMix := by
  induction route with
  | nil => exact .inl fun j hj => absurd hj not_mem_nil
  | cons j route ih =>
    by_cases hj : distances j = invalidDistanceFromFinalMix
    · rcases ih with hall | ⟨l₁, k, l₂, rfl, hl₁, hk⟩
      · exact .inl (forall_mem_cons.mpr ⟨hj, hall⟩)
      · exact .inr ⟨j :: l₁, k, l₂, rfl, forall_mem_cons.mpr ⟨hj, hl₁⟩, hk⟩
    · exact .inr ⟨[], j, route, rfl, fun _ h => absurd h not_mem_nil, hj⟩

/-! ## A round -/

/-- The mixes on a route to the final mix are in use. -/
def Used (c : MixContext) (route : List Nat) : Prop := ∀ j ∈ route, (c.mixInfos j).inUse = true

theorem Route.hops_iff (h : c.Route (· = finalMixId) i route) {n : Nat} :
    c.Hops i n ↔ c.Used route ∧ route.length = n := by
  constructor
  · rintro ⟨route', h', hused⟩
    rwa [h.unique ends_final h']
  · exact fun hused => ⟨route, h, hused⟩

theorem natCast_ne_invalid (n : Nat) : (n : Int) ≠ invalidDistanceFromFinalMix := by
  simp only [invalidDistanceFromFinalMix]
  omega

section Round

variable (hknown : ∀ j, distances j ≠ invalidDistanceFromFinalMix →
  j < i ∧ (c.mixInfos j).inUse = true)
variable (hright : ∀ j < i, (c.mixInfos j).inUse = true → c.IsDistance j (distances j))
include hright

theorem known_of_lt (l₁ : List Nat) (h : c.Route (· = finalMixId) id (l₁ ++ k :: l₂))
    (hused : c.Used (l₁ ++ k :: l₂)) (hlt : k < i) : distances k ≠ invalidDistanceFromFinalMix := by
  have hsuffix : c.Used (k :: l₂) := fun j hj => hused j (mem_append_right _ hj)
  rw [(hright k hlt (hsuffix k mem_cons_self)).1 _ ⟨_, h.split.2, hsuffix, rfl⟩]
  exact natCast_ne_invalid _

include hknown

theorem known_route (hk : distances k ≠ invalidDistanceFromFinalMix) :
    ∃ route, c.Route (· = finalMixId) k route ∧ distances k = route.length := by
  obtain ⟨hlt, huse⟩ := hknown k hk
  by_cases hhops : ∃ n, c.Hops k n
  · obtain ⟨n, hn⟩ := hhops
    obtain ⟨route, hroute, -, rfl⟩ := id hn
    exact ⟨route, hroute, (hright k hlt huse).1 _ hn⟩
  · exact absurd ((hright k hlt huse).2 (not_exists.mp hhops)) hk

/-- The result is right where the first mix of a known distance is the destination, or there is
none. -/
theorem walk_of_route (h : c.Route (· = finalMixId) i route) (hlt : route.length < c.count) :
    ∃ d : Nat, c.walk distances c.count i finalMixId = some (d : Int) ∧ d < c.count ∧ (c.Used route →
      (d = route.length ↔
        ∀ j rest, route = i :: j :: rest → j < i ∨ ∀ k ∈ rest, i ≤ k)) := by
  rcases first_known distances route with hall | ⟨l₁, k, l₂, rfl, hl₁, hk⟩
  · obtain ⟨_, rounds, rfl, hwalk⟩ := walk_count h hlt hall finalMixId
    refine ⟨route.length, hwalk.trans ?_, hlt, fun hused => iff_of_true rfl ?_⟩
    · rw [walk, if_pos rfl, finalMixId, Int.zero_add]
    · rintro j rest rfl
      refine .inr fun k hk => Nat.not_lt.mp fun hki => ?_
      obtain ⟨a, b, rfl⟩ := append_of_mem hk
      exact known_of_lt hright (i :: j :: a) h hused hki (hall k (by simp))
  · obtain ⟨hto, hfrom⟩ := h.split
    obtain ⟨hki, -⟩ := hknown k hk
    obtain ⟨route, hroute, hdistance⟩ := known_route hknown hright hk
    obtain rfl := hroute.unique ends_final hfrom
    rw [length_append, length_cons] at hlt
    obtain ⟨_, rounds, rfl, hwalk⟩ := walk_count hto (by omega) hl₁ finalMixId
    cases hto with
    | stop hik => exact absurd (Int.ofNat_inj.mp hik) (ne_of_gt hki)
    | @hop _ i' l₁ hid =>
      obtain rfl := Int.ofNat_inj.mp hid
      cases hfrom with
      | hop _ hkc hk0 =>
        refine ⟨l₂.length + 2, ?_, by rw [length_cons] at hlt; omega, fun hused => ?_⟩
        · rw [hwalk, walk_hop rfl hkc hk0, if_pos hk, hdistance]
          rfl
        cases l₁ with
        | nil =>
          refine iff_of_true rfl fun j rest heq => .inl ?_
          obtain ⟨rfl, -⟩ := cons.inj (cons.inj heq).2
          exact hki
        | cons j l₁ =>
          refine iff_of_false (by simp only [length_append, length_cons]; omega) fun hord => ?_
          rcases hord j (l₁ ++ k :: l₂) rfl with hj | hall
          · exact known_of_lt hright [i] h hused hj (hl₁ j (by simp))
          · exact Nat.not_lt.mpr (hall k (by simp)) hki

/-- The round of a mix. -/
theorem updateDistance_iff (hi : i < c.count) (huse : (c.mixInfos i).inUse = true) :
    (∃ d, c.updateDistance distances i = some d ∧ c.IsDistance i (d i)) ↔ c.Orderly i := by
  have hpos := Nat.zero_lt_of_lt hi
  rw [updateDistance, if_pos huse, c.mixId_eq i hi huse]
  by_cases hout : ∃ route, c.Route c.Outside i route
  · obtain ⟨route, h⟩ := hout
    have hunknown : ∀ j ∈ route, distances j = invalidDistanceFromFinalMix := by
      intro j hj
      by_contra hne
      obtain ⟨route', hroute', -⟩ := known_route hknown hright hne
      obtain ⟨l₁, l₂, rfl⟩ := append_of_mem hj
      exact hroute'.inside h.split.2
    obtain ⟨_, rounds, ⟨hfinal, hunused, hindex⟩, hwalk⟩ :=
      walk_count h (h.length_lt ends_outside hpos) hunknown finalMixId
    rw [hwalk, walk, if_neg hfinal, if_neg hunused, hindex]
    exact iff_of_false (fun ⟨d, hd, _⟩ => by cases hd) fun hord => hord.inside route h
  rw [not_exists] at hout
  by_cases hroute : ∃ route, c.Route (· = finalMixId) i route
  · obtain ⟨route, h⟩ := hroute
    obtain ⟨d, hwalk, hd, hiff⟩ := walk_of_route hknown hright h (h.length_lt ends_final hpos)
    have hclip : ¬(c.count : Int) ≤ d := by omega
    rw [hwalk, Option.map_some, if_neg hclip]
    simp only [Option.some.injEq, exists_eq_left', update_self]
    constructor
    · intro hright'
      have hused : c.Used route := by
        by_contra hnot
        exact natCast_ne_invalid d (hright'.2 fun n hn => hnot (h.hops_iff.mp hn).1)
      have hlength := Int.ofNat_inj.mp (hright'.1 _ (h.hops_iff.mpr ⟨hused, rfl⟩))
      refine ⟨hout, fun route' h' => h.unique ends_final h' ▸ hused, fun j rest h' => ?_⟩
      exact (hiff hused).mp hlength j rest (h.unique ends_final h')
    · intro hord
      have hused : c.Used route := hord.used route h
      have hlength := (hiff hused).mpr fun j rest heq => hord.ordered j rest (heq ▸ h)
      rw [hlength]
      refine ⟨fun n hn => ?_, fun hnone => absurd (h.hops_iff.mpr ⟨hused, rfl⟩) (hnone _)⟩
      rw [(h.hops_iff.mp hn).2]
  · rw [not_exists] at hroute
    obtain ⟨r, hwalk, hr⟩ := walk_unconnected hout hroute
      (fun j hj => (known_route hknown hright hj).imp fun _ h => h.1) c.count finalMixId
    have hclip : (if (c.count : Int) ≤ r then invalidDistanceFromFinalMix else r) =
        invalidDistanceFromFinalMix := by
      rcases hr with rfl | rfl
      · exact ite_self _
      · rw [finalMixId, Int.zero_add, if_pos (Int.le_refl _)]
    rw [hwalk, Option.map_some, hclip]
    simp only [Option.some.injEq, exists_eq_left', update_self]
    exact iff_of_true ⟨fun n ⟨route, h, _⟩ => absurd h (hroute route), fun _ => rfl⟩
      ⟨hout, fun route h => absurd h (hroute route), fun j rest h => absurd h (hroute _)⟩

end Round

/-! ## The rounds -/

theorem updateDistances_succ (rounds : Nat) : c.updateDistances (rounds + 1) =
    (c.updateDistances rounds).bind fun d => c.updateDistance d rounds := by
  simp [updateDistances, range_succ, foldlM_append]

theorem updateDistance_of_ne {d : Nat → Int} (h : c.updateDistance distances i = some d)
    (hne : k ≠ i) : d k = distances k := by
  rw [updateDistance] at h
  split at h
  · obtain ⟨_, -, rfl⟩ := Option.map_eq_some_iff.mp h
    exact update_of_ne hne _ _
  · rw [Option.some.inj h]

theorem known_updateDistances {rounds : Nat} (h : c.updateDistances rounds = some distances) :
    ∀ j, distances j ≠ invalidDistanceFromFinalMix → j < rounds ∧ (c.mixInfos j).inUse = true := by
  induction rounds generalizing distances with
  | zero =>
    obtain rfl := Option.some.inj h
    exact fun j hj => absurd rfl hj
  | succ rounds ih =>
    rw [updateDistances_succ] at h
    obtain ⟨d, hd, h⟩ := Option.bind_eq_some_iff.mp h
    intro j hj
    by_cases hne : j = rounds
    · subst hne
      refine ⟨Nat.lt_succ_self _, ?_⟩
      by_contra huse
      rw [updateDistance, if_neg huse] at h
      obtain rfl := Option.some.inj h
      exact lt_irrefl _ (ih hd j hj).1
    · rw [updateDistance_of_ne h hne] at hj
      obtain ⟨hlt, huse⟩ := ih hd j hj
      exact ⟨Nat.lt_succ_of_lt hlt, huse⟩

theorem updateDistances_iff {rounds : Nat} (hle : rounds ≤ c.count) :
    (∃ d, c.updateDistances rounds = some d ∧
        ∀ j < rounds, (c.mixInfos j).inUse = true → c.IsDistance j (d j)) ↔
      ∀ j < rounds, (c.mixInfos j).inUse = true → c.Orderly j := by
  induction rounds with
  | zero =>
    refine iff_of_true ⟨_, rfl, ?_⟩ ?_
    · exact fun j hj => absurd hj j.not_lt_zero
    · exact fun j hj => absurd hj j.not_lt_zero
  | succ rounds ih =>
    have hround {d : Nat → Int} (hd : c.updateDistances rounds = some d)
        (hright : ∀ j < rounds, (c.mixInfos j).inUse = true → c.IsDistance j (d j)) :=
      updateDistance_iff (known_updateDistances hd) hright hle
    rw [updateDistances_succ]
    constructor
    · rintro ⟨d', hd', hright'⟩
      obtain ⟨d, hd, h⟩ := Option.bind_eq_some_iff.mp hd'
      have hright : ∀ j < rounds, (c.mixInfos j).inUse = true → c.IsDistance j (d j) := by
        intro j hj huse
        rw [← updateDistance_of_ne h (ne_of_lt hj)]
        exact hright' j (Nat.lt_succ_of_lt hj) huse
      intro j hj huse
      rcases Nat.lt_succ_iff_lt_or_eq.mp hj with hj | rfl
      · exact (ih (Nat.le_of_succ_le hle)).mp ⟨d, hd, hright⟩ j hj huse
      · exact (hround hd hright huse).mp ⟨d', h, hright' j (Nat.lt_succ_self j) huse⟩
    · intro hord
      obtain ⟨d, hd, hright⟩ := (ih (Nat.le_of_succ_le hle)).mpr fun j hj =>
        hord j (Nat.lt_succ_of_lt hj)
      rw [hd, Option.bind_some]
      have hlast : ∃ d', c.updateDistance d rounds = some d' ∧
          ((c.mixInfos rounds).inUse = true → c.IsDistance rounds (d' rounds)) := by
        by_cases huse : (c.mixInfos rounds).inUse = true
        · obtain ⟨d', hd', h⟩ := (hround hd hright huse).mpr (hord rounds (Nat.lt_succ_self _) huse)
          exact ⟨d', hd', fun _ => h⟩
        · exact ⟨d, by rw [updateDistance, if_neg huse], fun h => absurd h huse⟩
      obtain ⟨d', hd', h⟩ := hlast
      refine ⟨d', hd', fun j hj huse => ?_⟩
      rcases Nat.lt_succ_iff_lt_or_eq.mp hj with hj | rfl
      · rw [updateDistance_of_ne hd' (ne_of_lt hj)]
        exact hright j hj huse
      · exact h huse

theorem Sorts.before {sorted : List Nat} {j : Nat} (h : c.Sorts distances sorted) (hi : i < c.count)
    (hj : j < c.count) (hlt : distances j < distances i) : sorted.idxOf i < sorted.idxOf j := by
  have hi' := idxOf_lt_length_iff.mpr (h.perm.mem_iff.mpr (mem_range.mpr hi))
  have hj' := idxOf_lt_length_iff.mpr (h.perm.mem_iff.mpr (mem_range.mpr hj))
  rcases Nat.lt_trichotomy (sorted.idxOf i) (sorted.idxOf j) with hbefore | heq | hbehind
  · exact hbefore
  · have hij : i = j := by rw [← getElem_idxOf hi', ← getElem_idxOf hj']; simp only [heq]
    exact absurd (hij ▸ hlt) (Int.lt_irrefl _)
  · have hle := pairwise_iff_getElem.mp h.sorted _ _ hj' hi' hbehind
    rw [getElem_idxOf, getElem_idxOf] at hle
    exact absurd hlt (Int.not_lt.mpr hle)

/-- The distances and the order are right if and only if no mix in use has a chain that leaves the
mixes, leads to the final one over a mix not in use, or comes back to a lower number too late. -/
theorem sortsRight_iff (c : MixContext) :
    c.SortsRight ↔ ∀ i < c.count, (c.mixInfos i).inUse = true → c.Orderly i := by
  rw [← updateDistances_iff (Nat.le_refl _)]
  refine exists_congr fun d => and_congr_right fun hd => and_iff_left_of_imp fun hright => ?_
  intro sorted hsorted i hi hne huse ⟨n, route, hroute, hused, hlength⟩ j hj
  cases hroute with
  | stop hstop => exact absurd (Int.natCast_eq_zero.mp hstop) hne
  | @hop _ i' route hid _ _ hrest =>
    obtain rfl := Int.ofNat_inj.mp hid
    rw [hj] at hrest
    have hdi := (hright i hi huse).1 _ ⟨_, .hop rfl hi hne (hj ▸ hrest), hused, rfl⟩
    cases hrest with
    | stop hstop =>
      obtain rfl := Int.natCast_eq_zero.mp hstop
      refine hsorted.before hi (Nat.zero_lt_of_lt hi) ?_
      have hfinal : d 0 = 0 ∨ d 0 = invalidDistanceFromFinalMix := by
        by_cases huse0 : (c.mixInfos 0).inUse = true
        · exact .inl ((hright 0 (Nat.zero_lt_of_lt hi) huse0).1 0
            ⟨[], .stop rfl, fun x hx => absurd hx not_mem_nil, rfl⟩)
        · exact .inr (by_contra fun hne => huse0 (known_updateDistances hd 0 hne).2)
      simp only [hdi, invalidDistanceFromFinalMix, length_cons, length_nil] at hfinal ⊢
      omega
    | @hop _ k route hid hj0 hne' hrest =>
      obtain rfl := Int.ofNat_inj.mp hid
      refine hsorted.before hi hj0 ?_
      rw [hdi, (hright j hj0 (hused j (by simp))).1 _
        ⟨_, .hop rfl hj0 hne' hrest, fun x hx => hused x (mem_cons_of_mem _ hx), rfl⟩]
      exact Int.ofNat_lt.mpr (Nat.lt_succ_self _)

/-- Mix 2 is sent to mix 3, mix 3 to mix 1 and mix 1 to the final mix. -/
def turnedChain : MixContext where
  count := 4
  mixInfos := fun i => ⟨true, i, [0, 0, 3, 1].getD i 0⟩
  count_lt := by decide
  mixId_eq := fun _ _ _ => rfl

/-- Mix 2 is three hops from the final mix and gets the distance of mix 3. -/
theorem not_sortsRight_turnedChain : ¬turnedChain.SortsRight := by
  rintro ⟨distances, hdistances, hright, -⟩
  have hhops : turnedChain.Hops 2 3 :=
    ⟨[2, 3, 1], .hop rfl (by decide) (by decide) (.hop rfl (by decide) (by decide)
      (.hop rfl (by decide) (by decide) (.stop rfl))), fun _ _ => rfl, rfl⟩
  have htwo : distances 2 = 2 := by
    obtain rfl := Option.some.inj hdistances
    rfl
  have hthree := (hright 2 (by decide) rfl).1 3 hhops
  rw [htwo] at hthree
  exact absurd hthree (by decide)

end MixContext

end Sudachi.AudioCore
