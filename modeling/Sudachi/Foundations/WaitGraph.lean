import Mathlib.Logic.Relation
import Mathlib.Data.Fintype.Card
import Mathlib.Order.Bounds.Basic
import Mathlib.Tactic

/-!
# Wait-for graphs

Every thread waits for one other thread at most, so a wait-for graph is a partial function `owner`.
`Acyclic` says that no thread waits for itself, by whatever detour; the operations that add an edge,
take one away or redirect several to a thread that waits for nobody keep it.

A thread inherits (`Inherits`) when its priority is the least of its base priority and of the
priorities of those that wait for it. When one thread does not, its priority is set right, then that of
the thread it waits for, and so on. This walk comes to an end (`Pending.next`) even where threads wait for
each other in a circle: either all priorities on the way fall to the same value, or all of them rise from
the same value.
-/

set_option autoImplicit false

namespace Sudachi.Foundations.WaitGraph

open Relation Function Finset

universe u v

variable {T : Type u}

/-- `w` waits for `o`. -/
def WaitsFor (owner : T → Option T) (w o : T) : Prop :=
  owner w = some o

def Acyclic (owner : T → Option T) : Prop :=
  ∀ t, ¬ TransGen (WaitsFor owner) t t

/-! ## Operations on the graph -/

section Edges

variable {owner owner' : T → Option T}

theorem acyclic_none : Acyclic fun _ : T => (none : Option T) := by
  intro t h
  obtain ⟨o, ho, -⟩ := TransGen.head'_iff.mp h
  exact absurd ho (by simp [WaitsFor])

theorem Acyclic.owner_ne (h : Acyclic owner) {t o : T} (ho : owner t = some o) : t ≠ o := by
  rintro rfl
  exact h t (.single ho)

/-- A thread that waits for nobody does not wait for `w`, either. -/
theorem not_reaches_of_none {o w : T} (ho : owner o = none) (hne : o ≠ w) :
    ¬ ReflTransGen (WaitsFor owner) o w := by
  intro h
  rcases ReflTransGen.cases_head h with heq | ⟨t, ht, -⟩
  · exact hne heq
  · exact absurd (ho.symm.trans ht) (by simp)

/-- New edges that lead to threads that wait for nobody close no cycle. -/
theorem Acyclic.of_sinks (h : Acyclic owner)
    (hsub : ∀ a b, owner' a = some b → owner a = some b ∨ owner' b = none) : Acyclic owner' := by
  have key : ∀ a b, TransGen (WaitsFor owner') a b → owner' b ≠ none →
      TransGen (WaitsFor owner) a b := by
    intro a b hab
    induction hab with
    | single hb => exact fun hne => .single ((hsub _ _ hb).resolve_right hne)
    | tail _ hbc ih =>
      intro hne
      exact (ih (by simp [show owner' _ = some _ from hbc])).tail ((hsub _ _ hbc).resolve_right hne)
  intro t ht
  obtain ⟨o, ho, -⟩ := TransGen.head'_iff.mp ht
  exact h t (key t t ht (by simp [show owner' t = some o from ho]))

variable [DecidableEq T]

theorem Acyclic.update_none (h : Acyclic owner) (w : T) : Acyclic (update owner w none) := by
  refine h.of_sinks fun a b hab => .inl ?_
  by_cases ha : a = w
  · simp [ha] at hab
  · rwa [update_of_ne ha] at hab

/-- Where `t` is not reached, a new edge from `t` makes no difference. -/
theorem reaches_of_update {o t u : T} {x : Option T} (ht : ¬ ReflTransGen (WaitsFor owner) o t)
    (h : ReflTransGen (WaitsFor (update owner t x)) o u) : ReflTransGen (WaitsFor owner) o u := by
  induction h with
  | refl => exact .refl
  | @tail b c _ hbc ih =>
    have hbt : b ≠ t := by
      rintro rfl
      exact ht ih
    rw [WaitsFor, update_of_ne hbt] at hbc
    exact ih.tail hbc

/-- An edge from `w` to `o` closes no cycle when `o` does not wait for `w`. -/
theorem Acyclic.update_some (h : Acyclic owner) {w o : T}
    (hwo : ¬ ReflTransGen (WaitsFor owner) o w) : Acyclic (update owner w (some o)) := by
  have hedge : ∀ {a b}, WaitsFor (update owner w (some o)) a b →
      WaitsFor owner a b ∨ a = w ∧ b = o := by
    intro a b hab
    by_cases ha : a = w
    · subst ha
      simp only [WaitsFor, update_self, Option.some.injEq] at hab
      exact .inr ⟨rfl, hab.symm⟩
    · exact .inl (by rwa [WaitsFor, update_of_ne ha] at hab)
  have key : ∀ a b, TransGen (WaitsFor (update owner w (some o))) a b →
      TransGen (WaitsFor owner) a b ∨
        ReflTransGen (WaitsFor owner) a w ∧ ReflTransGen (WaitsFor owner) o b := by
    intro a b hab
    induction hab with
    | single hb =>
      rcases hedge hb with hb | ⟨rfl, rfl⟩
      · exact .inl (.single hb)
      · exact .inr ⟨.refl, .refl⟩
    | tail _ hbc ih =>
      rcases hedge hbc with hbc | ⟨rfl, rfl⟩
      · exact ih.imp (fun h => h.tail hbc) fun h => ⟨h.1, h.2.tail hbc⟩
      · rcases ih with hab | ⟨-, hob⟩
        · exact .inr ⟨hab.to_reflTransGen, .refl⟩
        · exact absurd hob hwo
  intro t ht
  rcases key t t ht with ht | ⟨htw, hot⟩
  · exact h t ht
  · exact hwo (hot.trans htw)

end Edges

/-! ## Inherited priorities -/

section Inheritance

variable {P : Type v}

/-- The priorities that `t` may take: its own base priority and those of its waiters. -/
def Inheritable (owner : T → Option T) (base prio : T → P) (t : T) : Set P :=
  insert (base t) (prio '' {w | owner w = some t})

def Inherits [LinearOrder P] (owner : T → Option T) (base prio : T → P) (t : T) : Prop :=
  IsLeast (Inheritable owner base prio t) (prio t)

variable {owner owner' : T → Option T} {base prio : T → P}

/-- Where all threads inherit, none waits for a less urgent one, be it in a circle. -/
theorem le_of_reaches [LinearOrder P] (h : ∀ t, Inherits owner base prio t) {t u : T}
    (hut : ReflTransGen (WaitsFor owner) u t) : prio t ≤ prio u := by
  induction hut with
  | refl => exact le_rfl
  | tail _ hbc ih => exact ((h _).2 (.inr ⟨_, hbc, rfl⟩)).trans ih

/-- Where no threads wait in a circle and all inherit, each has the least of the base priorities of
those that wait for it, directly or not, and of itself. -/
theorem Acyclic.isLeast_base [Finite T] [LinearOrder P] (hacyclic : Acyclic owner)
    (h : ∀ t, Inherits owner base prio t) (t : T) :
    IsLeast (base '' {u | ReflTransGen (WaitsFor owner) u t}) (prio t) := by
  constructor
  · have : Std.Irrefl (TransGen (WaitsFor owner)) := ⟨hacyclic⟩
    have hwf := Finite.wellFounded_of_trans_of_irrefl (TransGen (WaitsFor owner))
    induction t using hwf.induction with
    | _ t ih =>
      rcases (h t).1 with heq | ⟨w, hw, heq⟩
      · exact ⟨t, .refl, heq.symm⟩
      · obtain ⟨u, hu, hbase⟩ := ih w (.single hw)
        exact ⟨u, hu.tail hw, hbase.trans heq⟩
  · rintro _ ⟨u, hu, rfl⟩
    exact (le_of_reaches h hu).trans ((h u).2 (.inl rfl))

theorem Inherits.of_waiters [LinearOrder P] {t : T}
    (howner : ∀ w, owner' w = some t ↔ owner w = some t) (h : Inherits owner base prio t) :
    Inherits owner' base prio t := by
  rw [Inherits, Inheritable] at h ⊢
  simpa only [howner] using h

variable [DecidableEq T]

theorem inheritable_update_prio {t u : T} (p : P) (h : owner t ≠ some u) :
    Inheritable owner base (update prio t p) u = Inheritable owner base prio u := by
  have himage : (update prio t p) '' {w | owner w = some u} =
      prio '' {w | owner w = some u} := by
    refine Set.image_congr fun w hw => ?_
    refine update_of_ne (fun hwt => h ?_) p prio
    exact hwt ▸ hw
  rw [Inheritable, Inheritable, himage]

theorem inheritable_update_some {w o : T} : Inheritable (update owner w (some o)) base prio o =
      insert (prio w) (Inheritable owner base prio o) := by
  have hset : {v | update owner w (some o) v = some o} =
      insert w {v | owner v = some o} := by
    ext v
    by_cases hv : v = w
    · simp [hv]
    · simp [hv]
  rw [Inheritable, Inheritable, hset, Set.image_insert_eq, Set.insert_comm]

variable [LinearOrder P]

/-- Setting the priority of `t` right leaves only the thread that `t` waits for to be set right. -/
theorem Inherits.update_prio {t : T} {p : P} (hp : IsLeast (Inheritable owner base prio t) p)
    (hrest : ∀ u, u ≠ t → Inherits owner base prio u) {u : T} (hu : owner t ≠ some u) :
    Inherits owner base (update prio t p) u := by
  rw [Inherits, inheritable_update_prio p hu]
  by_cases hut : u = t
  · subst hut
    rwa [update_self]
  · rw [update_of_ne hut]
    exact hrest u hut

section Walk

variable {t o : T} {q r : P}

section

variable (hrest : ∀ u, u ≠ t → Inherits owner base prio u)
  (hq : IsLeast (Inheritable owner base prio t) q)
include hrest hq

/-- Where a priority has fallen to `q`, the next one may fall to `q`, too. -/
theorem least_of_fall (hlt : q < prio t) (ho : owner t = some o)
    (hr : IsLeast (Inheritable owner base (update prio t q) o) r) :
    r = update prio t q o ∨ r = q ∧ q < update prio t q o := by
  have hmem : q ∈ Inheritable owner base (update prio t q) o := .inr ⟨t, ho, update_self t q prio⟩
  by_cases hot : o = t
  · -- a thread that waits for itself
    subst hot
    rw [update_self]
    refine .inl (le_antisymm (hr.2 hmem) ?_)
    rcases hr.1 with rfl | ⟨w, hw, rfl⟩
    · exact hq.2 (.inl rfl)
    · by_cases hwo : w = o
      · rw [hwo, update_self]
      · rw [update_of_ne hwo]
        exact hq.2 (.inr ⟨w, hw, rfl⟩)
  · have hinherits := hrest o hot
    rw [update_of_ne hot]
    have hle : ∀ p ∈ Inheritable owner base (update prio t q) o, prio o ≤ p ∨ p = q := by
      rintro p (rfl | ⟨w, hw, rfl⟩)
      · exact .inl (hinherits.2 (.inl rfl))
      · by_cases hwt : w = t
        · exact .inr (by rw [hwt, update_self])
        · rw [update_of_ne hwt]
          exact .inl (hinherits.2 (.inr ⟨w, hw, rfl⟩))
    rcases le_or_gt (prio o) q with hoq | hoq
    · -- the priority of `o` does not come from `t`
      refine .inl (le_antisymm (hr.2 ?_) ((hle r hr.1).elim id fun heq => heq ▸ hoq))
      rcases hinherits.1 with heq | ⟨w, hw, heq⟩
      · exact .inl heq
      · have hwt : w ≠ t := by
          rintro rfl
          exact absurd (heq ▸ hoq) (not_le.mpr hlt)
        exact .inr ⟨w, hw, by rw [update_of_ne hwt, heq]⟩
    · refine .inr ⟨le_antisymm (hr.2 hmem) ?_, hoq⟩
      exact (hle r hr.1).elim (fun h => hoq.le.trans h) fun heq => heq.ge

/-- Where a priority has risen from `p`, the next one may rise from `p`, too. -/
theorem least_of_rise (hlt : prio t < q) (ho : owner t = some o)
    (hr : IsLeast (Inheritable owner base (update prio t q) o) r) :
    r = update prio t q o ∨ update prio t q o = prio t ∧ prio t < r := by
  have hot : o ≠ t := by
    rintro rfl
    exact absurd (hq.2 (.inr ⟨o, ho, rfl⟩)) (not_le.mpr hlt)
  have hinherits := hrest o hot
  have hle : prio o ≤ prio t := hinherits.2 (.inr ⟨t, ho, rfl⟩)
  rw [update_of_ne hot]
  have hlow : prio o ≤ r := by
    rcases hr.1 with rfl | ⟨w, hw, rfl⟩
    · exact hinherits.2 (.inl rfl)
    · by_cases hwt : w = t
      · rw [hwt, update_self]
        exact hle.trans hlt.le
      · rw [update_of_ne hwt]
        exact hinherits.2 (.inr ⟨w, hw, rfl⟩)
  rcases hle.lt_or_eq with hot' | hot'
  · -- the priority of `o` does not come from `t`
    refine .inl (le_antisymm (hr.2 ?_) hlow)
    rcases hinherits.1 with heq | ⟨w, hw, heq⟩
    · exact .inl heq
    · have hwt : w ≠ t := by
        rintro rfl
        exact absurd heq hot'.ne'
      exact .inr ⟨w, hw, by rw [update_of_ne hwt, heq]⟩
  · rcases hlow.lt_or_eq with hlt' | heq
    · exact .inr ⟨hot', hot' ▸ hlt'⟩
    · exact .inl heq.symm

end

variable [Fintype T]

/-- The walk at `t` comes to an end after `fuel` turns: it stops here, or the threads whose priority
can still fall or rise on it are fewer than that. -/
def Pending (owner : T → Option T) (base prio : T → P) (t : T) (fuel : Nat) : Prop :=
  0 < fuel ∧ ∀ q, IsLeast (Inheritable owner base prio t) q → q = prio t ∨
    q < prio t ∧ (univ.filter fun u => q < prio u).card < fuel ∨
    prio t < q ∧ (univ.filter fun u => prio u ≤ prio t).card < fuel

omit [DecidableEq T] in
theorem pending_card (owner : T → Option T) (base prio : T → P) (t : T) :
    Pending owner base prio t (Fintype.card T + 1) := by
  refine ⟨Nat.succ_pos _, fun q _ => ?_⟩
  rcases lt_trichotomy q (prio t) with hlt | heq | hlt
  · exact .inr (.inl ⟨hlt, Nat.lt_succ_of_le (card_le_univ _)⟩)
  · exact .inl heq
  · exact .inr (.inr ⟨hlt, Nat.lt_succ_of_le (card_le_univ _)⟩)

theorem Pending.next {fuel : Nat} (h : Pending owner base prio t (fuel + 1))
    (hrest : ∀ u, u ≠ t → Inherits owner base prio u)
    (hq : IsLeast (Inheritable owner base prio t) q) (hne : q ≠ prio t) (ho : owner t = some o) :
    Pending owner base (update prio t q) o fuel := by
  rcases (h.2 q hq).resolve_left hne with ⟨hlt, hcard⟩ | ⟨hlt, hcard⟩
  · have hfewer : (univ.filter fun u => q < update prio t q u).card <
        (univ.filter fun u => q < prio u).card := by
      refine card_lt_card ((ssubset_iff_of_subset fun u hu => ?_).mpr ⟨t, ?_, ?_⟩)
      · simp only [mem_filter, mem_univ, true_and] at hu ⊢
        by_cases hut : u = t
        · rwa [hut]
        · rwa [update_of_ne hut] at hu
      · simpa using hlt
      · simp
    refine ⟨by omega, fun r hr => ?_⟩
    rcases least_of_fall hrest hq hlt ho hr with heq | ⟨rfl, hlt'⟩
    · exact .inl heq
    · exact .inr (.inl ⟨hlt', by omega⟩)
  · have hfewer : (univ.filter fun u => update prio t q u ≤ prio t).card <
        (univ.filter fun u => prio u ≤ prio t).card := by
      refine card_lt_card ((ssubset_iff_of_subset fun u hu => ?_).mpr ⟨t, ?_, ?_⟩)
      · simp only [mem_filter, mem_univ, true_and] at hu ⊢
        by_cases hut : u = t
        · rw [hut]
        · rwa [update_of_ne hut] at hu
      · simp
      · simpa using hlt
    refine ⟨by omega, fun r hr => ?_⟩
    rcases least_of_rise hrest hq hlt ho hr with heq | ⟨heq, hlt'⟩
    · exact .inl heq
    · exact .inr (.inr ⟨by rwa [heq], by rw [heq]; omega⟩)

/-- Where nothing is known of the priorities at first: of those that the walk has set, only that of
the thread it has come to may have to fall, to the value `q` of the last one. -/
structure Settling (owner : T → Option T) (base prio : T → P) (done : Finset T) (q : P) (t : T) :
    Prop where
  low : ∀ u ∈ done, u ≠ t → prio u ∈ lowerBounds (Inheritable owner base prio u)
  le : ∀ u ∈ done, q ≤ prio u
  mem : q ∈ Inheritable owner base prio t
  fall : t ∈ done → ∀ p ∈ Inheritable owner base prio t, prio t ≤ p ∨ p = q

omit [DecidableEq T] [Fintype T] in
theorem settling_start (owner : T → Option T) (base prio : T → P) (t : T) :
    Settling owner base prio ∅ (base t) t := by
  refine ⟨?_, ?_, .inl rfl, ?_⟩
  all_goals simp

/-- The turns that are left: each sets a new thread right, or one that has been set falls to `q`. -/
def turnsLeft (prio : T → P) (done : Finset T) (q : P) : Nat :=
  (Fintype.card T - done.card) * (Fintype.card T + 1) + (univ.filter fun u => q < prio u).card

theorem Settling.next {done : Finset T} (h : Settling owner base prio done q t)
    (hr : IsLeast (Inheritable owner base prio t) r) (hne : r ≠ prio t) (ho : owner t = some o) :
    Settling owner base (update prio t r) (insert t done) r o ∧
      turnsLeft (update prio t r) (insert t done) r < turnsLeft prio done q := by
  have hrq : r ≤ q := hr.2 h.mem
  refine ⟨⟨fun u hu huo => ?_, fun u hu => ?_, .inr ⟨t, ho, update_self t r prio⟩,
    fun hmem p hp => ?_⟩, ?_⟩
  · rw [inheritable_update_prio r fun heq => huo (Option.some.inj (heq.symm.trans ho))]
    by_cases hut : u = t
    · rw [hut, update_self]
      exact hr.2
    · rw [update_of_ne hut]
      exact h.low u (mem_of_mem_insert_of_ne hu hut) hut
  · by_cases hut : u = t
    · rw [hut, update_self]
    · rw [update_of_ne hut]
      exact hrq.trans (h.le u (mem_of_mem_insert_of_ne hu hut))
  · rcases hp with rfl | ⟨w, hw, rfl⟩
    · by_cases hot : o = t
      · rw [hot, update_self]
        exact .inl (hr.2 (.inl rfl))
      · rw [update_of_ne hot]
        exact .inl (h.low o (mem_of_mem_insert_of_ne hmem hot) hot (.inl rfl))
    · by_cases hwt : w = t
      · rw [hwt, update_self]
        exact .inr rfl
      · rw [update_of_ne hwt]
        by_cases hot : o = t
        · rw [hot, update_self]
          exact .inl (hr.2 (.inr ⟨w, hot ▸ hw, rfl⟩))
        · rw [update_of_ne hot]
          exact .inl (h.low o (mem_of_mem_insert_of_ne hmem hot) hot (.inr ⟨w, hw, rfl⟩))
  · by_cases hdone : t ∈ done
    · -- a thread that the walk has come back to: it falls, and nothing rises above `q`
      have hrq' : r = q := by
        refine (h.fall hdone r hr.1).resolve_left fun hle => hne (le_antisymm ?_ hle)
        exact hrq.trans (h.le t hdone)
      subst hrq'
      rw [insert_eq_of_mem hdone]
      refine Nat.add_lt_add_left (card_lt_card ?_) _
      refine (ssubset_iff_of_subset fun u hu => ?_).mpr ⟨t, ?_, by simp⟩
      · simp only [mem_filter, mem_univ, true_and] at hu ⊢
        by_cases hut : u = t
        · rw [hut, update_self] at hu
          exact absurd hu (lt_irrefl r)
        · rwa [update_of_ne hut] at hu
      · simpa using lt_of_le_of_ne (h.le t hdone) hne
    · have hcard := card_insert_of_notMem hdone
      have hle := card_le_univ (insert t done)
      have hcount := card_le_univ (univ.filter fun u => r < update prio t r u)
      obtain ⟨left, hleft⟩ : ∃ left, Fintype.card T - done.card = left + 1 :=
        ⟨Fintype.card T - done.card - 1, by omega⟩
      have hleft' : Fintype.card T - (insert t done).card = left := by omega
      rw [turnsLeft, turnsLeft, hleft, hleft', Nat.succ_mul]
      omega

end Walk

section Waiters

variable {w o n u : T}

theorem Inherits.add_of_ne (hw : owner w = none) (hu : u ≠ o) (h : Inherits owner base prio u) :
    Inherits (update owner w (some o)) base prio u := by
  refine h.of_waiters fun v => ?_
  by_cases hv : v = w
  · simp [hv, hw, hu.symm]
  · rw [update_of_ne hv]

/-- A new waiter that is not more urgent than the thread it waits for changes nothing. -/
theorem Inherits.add_of_le (hle : prio o ≤ prio w) (h : Inherits owner base prio o) :
    Inherits (update owner w (some o)) base prio o := by
  rw [Inherits, inheritable_update_some]
  simpa only [min_eq_right hle] using h.insert (prio w)

/-- The waiters `W` of `o` come to wait for `n`, which was one of them and the most urgent. -/
structure HandOver (owner owner' : T → Option T) (prio : T → P) (o n : T) (W : Set T) : Prop where
  mem : n ∈ W
  least : ∀ w ∈ W, prio n ≤ prio w
  waits : ∀ w ∈ W, owner w = some o
  next : owner' n = none
  others : ∀ w ∈ W, w ≠ n → owner' w = some n
  rest : ∀ w, w ∉ W → owner' w = owner w

variable {W : Set T}

section

omit [DecidableEq T]

theorem HandOver.eq_some (h : HandOver owner owner' prio o n W) {a b : T} (hab : owner' a = some b) :
    a ∈ W ∧ b = n ∨ a ∉ W ∧ owner a = some b := by
  by_cases ha : a ∈ W
  · by_cases han : a = n
    · rw [han, h.next] at hab
      exact absurd hab (by simp)
    · rw [h.others a ha han, Option.some.injEq] at hab
      exact .inl ⟨ha, hab.symm⟩
  · rw [h.rest a ha] at hab
    exact .inr ⟨ha, hab⟩

theorem HandOver.acyclic (h : HandOver owner owner' prio o n W) (hacyclic : Acyclic owner) :
    Acyclic owner' := by
  refine hacyclic.of_sinks fun a b hab => ?_
  rcases h.eq_some hab with ⟨-, rfl⟩ | ⟨-, hab⟩
  · exact .inr h.next
  · exact .inl hab

theorem HandOver.inherits_of_ne (h : HandOver owner owner' prio o n W) (huo : u ≠ o) (hun : u ≠ n)
    (hu : Inherits owner base prio u) : Inherits owner' base prio u := by
  refine hu.of_waiters fun v => ⟨fun hv => ?_, fun hv => ?_⟩
  · rcases h.eq_some hv with ⟨-, rfl⟩ | ⟨-, hv⟩
    · exact absurd rfl hun
    · exact hv
  · by_cases hvW : v ∈ W
    · rw [h.waits v hvW, Option.some.injEq] at hv
      exact absurd hv.symm huo
    · rw [h.rest v hvW, hv]

/-- The next owner keeps its priority: it is no less urgent than those it takes over. -/
theorem HandOver.inherits_next (h : HandOver owner owner' prio o n W) (hne : n ≠ o)
    (hn : Inherits owner base prio n) : Inherits owner' base prio n := by
  refine ⟨?_, ?_⟩
  · rcases hn.1 with hbase | ⟨v, hv, hprio⟩
    · exact .inl hbase
    · have hvW : v ∉ W := fun hvW => hne (Option.some.inj (hv.symm.trans (h.waits v hvW)))
      exact .inr ⟨v, (h.rest v hvW).trans hv, hprio⟩
  · rintro p (rfl | ⟨v, hv, rfl⟩)
    · exact hn.2 (.inl rfl)
    · rcases h.eq_some hv with ⟨hvW, -⟩ | ⟨-, hv⟩
      · exact h.least v hvW
      · exact hn.2 (.inr ⟨v, hv, rfl⟩)

/-- The old owner keeps its priority unless it had inherited that of the next owner. -/
theorem HandOver.inherits_owner (h : HandOver owner owner' prio o n W)
    (ho : Inherits owner base prio o) (hprio : ¬ (prio o = prio n ∧ prio o < base o)) :
    Inherits owner' base prio o := by
  have hbase : prio o ≤ base o := ho.2 (.inl rfl)
  have hnext : prio o ≤ prio n := ho.2 (.inr ⟨n, h.waits n h.mem, rfl⟩)
  refine ⟨?_, ?_⟩
  · rcases ho.1 with heq | ⟨v, hv, heq⟩
    · exact .inl heq
    · by_cases hvW : v ∈ W
      · have hn : prio o = prio n := le_antisymm hnext (heq ▸ h.least v hvW)
        have hnot : ¬ prio o < base o := fun hlt => hprio ⟨hn, hlt⟩
        exact .inl (le_antisymm hbase (not_lt.mp hnot))
      · exact .inr ⟨v, (h.rest v hvW).trans hv, heq⟩
  · rintro p (rfl | ⟨v, hv, rfl⟩)
    · exact hbase
    · rcases h.eq_some hv with ⟨hvW, -⟩ | ⟨-, hv⟩
      · exact hnext.trans (h.least v hvW)
      · exact ho.2 (.inr ⟨v, hv, rfl⟩)

end

/-- A waiter that gives up is handed over alone. -/
theorem handOver_single (hw : owner w = some o) :
    HandOver owner (update owner w none) prio o w {w} where
  mem := rfl
  least := by rintro v rfl; exact le_rfl
  waits := by rintro v rfl; exact hw
  next := update_self w none owner
  others := by rintro v rfl hv; exact absurd rfl hv
  rest := fun v hv => update_of_ne hv none owner

end Waiters

end Inheritance

end Sudachi.Foundations.WaitGraph
