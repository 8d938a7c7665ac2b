import Sudachi.Core.DeviceMemoryManager
import Sudachi.Foundations.Chains

/-!
# The chains of `MultiAddressContainer`

What the operations of the container do to the chains that it holds, one for each key: `Holds` says that
the chains are apart, and that the entries of the storage outside of them are those of the free
list. Each operation is shown to finish, and to change the chain of one key.
-/

set_option autoImplicit false

namespace Sudachi.Core.MultiAddressContainer

open Sudachi.Foundations.Chains List Option Function
open Function (update)

/-- The storage as a store of links. -/
def link (c : MultiAddressContainer) (id : Nat) : Option (Nat × Nat) :=
  (c.entry id).map fun e => (e.nextEntry, e.value)

variable {c c' : MultiAddressContainer} {id next value start p : Nat}

theorem entry_of_link (h : c.link id = some (next, value)) : c.entry id = some ⟨next, value⟩ := by
  obtain ⟨e, he, heq⟩ := map_eq_some_iff.mp h
  cases heq
  exact he

theorem link_bound (h : c.link id = some (next, value)) : id ≠ 0 ∧ id ≤ c.storage.length := by
  have hentry := entry_of_link h
  rw [entry] at hentry
  split at hentry
  case isTrue => cases hentry
  case isFalse hid =>
    obtain ⟨hlt, -⟩ := List.getElem?_eq_some_iff.mp hentry
    exact ⟨hid, by omega⟩

theorem link_zero : c.link 0 = none := rfl

theorem link_setNext (h : c.link id = some (start, value)) :
    (c.setNext id next).link = update c.link id (some (next, value)) := by
  obtain ⟨hid, -⟩ := link_bound h
  have hentry := entry_of_link h
  funext j
  by_cases hj : j = id
  · subst hj
    rw [entry, if_neg hid] at hentry
    simp [link, entry, setNext, hid, hentry]
  · rw [update_of_ne hj]
    rcases Nat.eq_zero_or_pos j with rfl | hpos
    · rfl
    · have hne : id - 1 ≠ j - 1 := by omega
      simp only [link, entry, setNext, getElem?_modify, if_neg hne, id_map']

@[simp] theorem length_setNext : (c.setNext id next).storage.length = c.storage.length := by
  simp [setNext]

/-! ## The chains of the keys -/

/-- The container holds the chains, and all its other entries are free. -/
structure Holds (c : MultiAddressContainer) (chains : Nat → List (Nat × Nat)) : Prop where
  chain : ∀ p, Chain c.link (first (chains p)) (chains p)
  apart : ∀ p q id, id ∈ ids (chains p) → id ∈ ids (chains q) → p = q
  free_nodup : c.freeEntries.Nodup
  free_bound : ∀ id ∈ c.freeEntries, id ≠ 0 ∧ id ≤ c.storage.length
  free_apart : ∀ id ∈ c.freeEntries, ∀ p, id ∉ ids (chains p)
  used : ∀ id, id ≠ 0 → id ≤ c.storage.length → id ∈ c.freeEntries ∨ ∃ p, id ∈ ids (chains p)
  small : c.storage.length < 2 ^ 31

variable {chains : Nat → List (Nat × Nat)}

theorem holds_initial : Holds {} fun _ => [] where
  chain _ := rfl
  apart _ _ _ h := absurd h not_mem_nil
  free_nodup := nodup_nil
  free_bound _ h := absurd h not_mem_nil
  free_apart _ h := absurd h not_mem_nil
  used id hid hle := absurd (Nat.le_zero.mp hle) hid
  small := by decide

theorem Holds.bound (h : c.Holds chains) (hid : id ∈ ids (chains p)) :
    id ≠ 0 ∧ id ≤ c.storage.length := by
  obtain ⟨l, hl, rfl⟩ := mem_map.mp hid
  obtain ⟨-, next, hlink⟩ := (h.chain p).link_of_mem hl
  exact link_bound hlink

/-- A chain is not longer than the storage. -/
theorem Holds.length_le (h : c.Holds chains) (p : Nat) : (chains p).length ≤ c.storage.length := by
  have hsub : ids (chains p) ⊆ range' 1 c.storage.length := by
    intro id hid
    obtain ⟨hne, hle⟩ := h.bound hid
    exact mem_range'_1.mpr ⟨by omega, by omega⟩
  have hle := ((h.chain p).nodup.subperm hsub).length_le
  rwa [ids, length_map, length_range'] at hle

theorem ids_update {l : List (Nat × Nat)} {q : Nat}
    (h : id ∈ ids (update chains p l q)) : (q = p ∧ id ∈ ids l) ∨
      (q ≠ p ∧ id ∈ ids (chains q)) := by
  by_cases hq : q = p
  · subst hq
    rw [update_self] at h
    exact .inl ⟨rfl, h⟩
  · rw [update_of_ne hq] at h
    exact .inr ⟨hq, h⟩

theorem mem_ids_update {l : List (Nat × Nat)} {q : Nat} (hq : q ≠ p) (h : id ∈ ids (chains q)) :
    id ∈ ids (update chains p l q) := by
  rwa [update_of_ne hq]

/-- The chain of a key is replaced: its entries go to the new chain or to the free list, and the new
chain takes no entry of another key. -/
theorem Holds.replace {l : List (Nat × Nat)} (h : c.Holds chains)
    (hchain : Chain c'.link (first l) l)
    (hothers : ∀ q, q ≠ p → ∀ id ∈ ids (chains q), c'.link id = c.link id)
    (hapart : ∀ q, q ≠ p → ∀ id ∈ ids l, id ∉ ids (chains q)) (hnodup : c'.freeEntries.Nodup)
    (hfree : ∀ id ∈ c'.freeEntries, id ≠ 0 ∧ id ≤ c'.storage.length ∧ id ∉ ids l ∧
      (id ∈ c.freeEntries ∨ id ∈ ids (chains p)))
    (hused : ∀ id, id ≠ 0 → id ≤ c'.storage.length → id ∈ c'.freeEntries ∨ id ∈ ids l ∨
      ∃ q, q ≠ p ∧ id ∈ ids (chains q))
    (hsmall : c'.storage.length < 2 ^ 31) : c'.Holds (update chains p l) := by
  constructor
  case chain =>
    intro q
    by_cases hq : q = p
    · subst hq
      rw [update_self]
      exact hchain
    · rw [update_of_ne hq]
      exact (h.chain q).congr (hothers q hq)
  case apart =>
    intro q q' id hid hid'
    rcases ids_update hid with ⟨rfl, hl⟩ | ⟨hq, hc⟩ <;> rcases ids_update hid' with ⟨rfl, hl'⟩ | ⟨hq', hc'⟩
    · rfl
    · exact absurd hc' (hapart q' hq' id hl)
    · exact absurd hc (hapart q hq id hl')
    · exact h.apart q q' id hc hc'
  case free_nodup => exact hnodup
  case free_bound => exact fun id hid => ⟨(hfree id hid).1, (hfree id hid).2.1⟩
  case free_apart =>
    intro id hid q hmem
    obtain ⟨-, -, hnot, hold⟩ := hfree id hid
    rcases ids_update hmem with ⟨-, hl⟩ | ⟨hq, hc⟩
    · exact hnot hl
    · rcases hold with hold | hold
      · exact h.free_apart id hold q hc
      · exact hq (h.apart q p id hc hold)
  case used =>
    intro id hne hle
    rcases hused id hne hle with hfree | hl | ⟨q, hq, hc⟩
    · exact .inl hfree
    · exact .inr ⟨p, by rwa [update_self]⟩
    · exact .inr ⟨q, mem_ids_update hq hc⟩
  case small => exact hsmall

/-! ## Registering a value -/

/-- An entry outside of all chains has been filled. -/
structure Filled (c c' : MultiAddressContainer) (chains : Nat → List (Nat × Nat)) (id value : Nat) :
    Prop where
  link : c'.link = update c.link id (some (0, value))
  fresh : ∀ p, id ∉ ids (chains p)
  pos : id ≠ 0
  free_nodup : c'.freeEntries.Nodup
  free : ∀ j ∈ c'.freeEntries, j ≠ id ∧ j ≠ 0 ∧ j ≤ c'.storage.length ∧ j ∈ c.freeEntries
  used : ∀ j, j ≠ 0 → j ≤ c'.storage.length → j ∈ c'.freeEntries ∨ j = id ∨ ∃ p, j ∈ ids (chains p)
  small : c'.storage.length < 2 ^ 31

theorem link_set {e : Entry} (hid : id ≠ 0) (hle : id ≤ c.storage.length) :
    ({ c with storage := c.storage.set (id - 1) e } : MultiAddressContainer).link =
      update c.link id (some (e.nextEntry, e.value)) := by
  funext j
  by_cases hj : j = id
  · subst hj
    have hlt : j - 1 < c.storage.length := by omega
    simp [link, entry, hid, hlt]
  · rw [update_of_ne hj]
    rcases Nat.eq_zero_or_pos j with rfl | hpos
    · rfl
    · have hne : id - 1 ≠ j - 1 := by omega
      simp [link, entry, getElem?_set_ne hne]

theorem Holds.registerImplementation_spec (h : c.Holds chains) (value : Nat)
    (hroom : c.freeEntries = [] → c.storage.length + 1 < 2 ^ 31) :
    Filled c (c.registerImplementation value).2 chains (c.registerImplementation value).1 value := by
  rw [registerImplementation, getNewEntry]
  cases hfree : c.freeEntries with
  | nil =>
    have hsmall := hroom hfree
    have hlength : (c.storage ++ [({} : Entry)]).length = c.storage.length + 1 := by simp
    have hmod : (c.storage ++ [({} : Entry)]).length % 2 ^ 32 = c.storage.length + 1 := by
      rw [hlength, Nat.mod_eq_of_lt (by omega)]
    have hgrown : ({ c with storage := c.storage ++ [{}] } : MultiAddressContainer).link =
        update c.link (c.storage.length + 1) (some (0, 0)) := by
      funext j
      by_cases hj : j = c.storage.length + 1
      · subst hj
        simp [link, entry]
      · rw [update_of_ne hj]
        rcases Nat.eq_zero_or_pos j with rfl | hpos
        · rfl
        · have hne : j - 1 ≠ c.storage.length := by omega
          simp only [link, entry, if_neg (Nat.pos_iff_ne_zero.mp hpos), getElem?_append]
          split
          · rfl
          · have hlong : c.storage.length < j - 1 := by omega
            rw [getElem?_eq_none (by simp; omega), getElem?_eq_none (by omega)]
    have hset := @link_set { c with storage := c.storage ++ [{}] } (c.storage.length + 1)
      { nextEntry := 0, value } (by omega) (by simp)
    simp only [hmod]
    refine ⟨?_, fun p hp => ?_, by omega, nodup_nil, fun j hj => ?_,
      fun j hj hle => ?_, ?_⟩
    · exact hset.trans (by rw [hgrown, update_idem])
    · have := h.bound hp
      omega
    · exact absurd hj not_mem_nil
    · simp only [length_set, hlength] at hle
      rcases lt_or_ge c.storage.length j with hlt | hge
      · exact .inr (.inl (by omega))
      · rcases h.used j hj hge with hmem | hmem
        · exact .inl (hfree ▸ hmem)
        · exact .inr (.inr hmem)
    · simp only [length_set, hlength]
      exact hsmall
  | cons result rest =>
    have hresult : result ∈ c.freeEntries := by rw [hfree]; exact mem_cons_self
    obtain ⟨hpos, hle⟩ := h.free_bound result hresult
    have hnodup := h.free_nodup
    rw [hfree] at hnodup
    obtain ⟨hnot, hrest⟩ := nodup_cons.mp hnodup
    have hset := @link_set { c with freeEntries := rest } result { nextEntry := 0, value } hpos hle
    refine ⟨hset, fun p => h.free_apart result hresult p, hpos, hrest, fun j hj => ?_,
      fun j hj hle => ?_, ?_⟩
    · have hold : j ∈ c.freeEntries := by rw [hfree]; exact mem_cons_of_mem _ hj
      obtain ⟨hj0, hjle⟩ := h.free_bound j hold
      exact ⟨ne_of_mem_of_not_mem hj hnot, hj0, by simpa using hjle, hfree ▸ hold⟩
    · rcases h.used j hj (by simpa using hle) with hmem | hmem
      · rw [hfree] at hmem
        rcases mem_cons.mp hmem with rfl | hmem
        · exact .inr (.inl rfl)
        · exact .inl hmem
      · exact .inr (.inr hmem)
    · simpa using h.small

theorem Filled.link_of_ne (h : Filled c c' chains id value) {q j : Nat} (hj : j ∈ ids (chains q)) :
    c'.link j = c.link j := by
  rw [h.link, update_of_ne (ne_of_mem_of_not_mem hj (h.fresh q))]

/-- A filled entry becomes the last one of the chain of a key. -/
theorem Filled.holds (hfilled : Filled c c' chains id value) (h : c.Holds chains)
    {c'' : MultiAddressContainer} (hfree : c''.freeEntries = c'.freeEntries)
    (hlength : c''.storage.length = c'.storage.length)
    (hchain : Chain c''.link (first (chains p ++ [(id, value)])) (chains p ++ [(id, value)]))
    (hothers : ∀ q, q ≠ p → ∀ j ∈ ids (chains q), c''.link j = c'.link j) :
    c''.Holds (update chains p (chains p ++ [(id, value)])) := by
  have hids : ids (chains p ++ [(id, value)]) = ids (chains p) ++ [id] := map_append ..
  refine h.replace hchain (fun q hq j hj => ?_) (fun q hq j hj hmem => ?_) (hfree ▸ hfilled.free_nodup)
    (fun j hj => ?_) (fun j hne hle => ?_) (hlength ▸ hfilled.small)
  · rw [hothers q hq j hj, hfilled.link_of_ne hj]
  · rw [hids] at hj
    rcases mem_append.mp hj with hj | hj
    · exact hq (h.apart q p j hmem hj)
    · exact hfilled.fresh q (mem_singleton.mp hj ▸ hmem)
  · obtain ⟨hid, hpos, hle, hold⟩ := hfilled.free j (hfree ▸ hj)
    refine ⟨hpos, hlength ▸ hle, fun hmem => ?_, .inl hold⟩
    rw [hids] at hmem
    rcases mem_append.mp hmem with hmem | hmem
    · exact h.free_apart j hold p hmem
    · exact hid (mem_singleton.mp hmem)
  · rw [hids]
    rcases hfilled.used j hne (hlength ▸ hle) with hmem | rfl | ⟨q, hq⟩
    · exact .inl (hfree ▸ hmem)
    · exact .inr (.inl (mem_append_right _ (mem_singleton_self j)))
    · by_cases hqp : q = p
      · subst hqp
        exact .inr (.inl (mem_append_left _ hq))
      · exact .inr (.inr ⟨q, hqp, hq⟩)

/-- `Register` of a value makes a chain for a key without one. -/
theorem Holds.register_spec (h : c.Holds chains) (value : Nat) (hp : chains p = [])
    (hroom : c.freeEntries = [] → c.storage.length + 1 < 2 ^ 31) :
    (c.register value).2.Holds (update chains p [((c.register value).1, value)]) := by
  have hfilled := h.registerImplementation_spec value hroom
  have hself : (c.register value).2.link (c.register value).1 = some (0, value) := by
    rw [register, hfilled.link, update_self]
  have hholds := hfilled.holds h rfl rfl (p := p) (by
    rw [hp, nil_append]
    exact chain_single hfilled.pos hself) fun q _ j _ => rfl
  rwa [hp, nil_append] at hholds

theorem lastEntry_spec {before : List (Nat × Nat)} {last : Nat × Nat}
    (h : Chain c.link start (before ++ [last])) {fuel : Nat} (hfuel : before.length < fuel) :
    c.lastEntry fuel start = some last.1 := by
  induction before generalizing start fuel with
  | nil =>
    obtain ⟨hstart, -, next, hlink, hnext⟩ := h
    obtain ⟨fuel, rfl⟩ := Nat.exists_eq_add_of_lt hfuel
    have hzero : next = 0 := hnext
    subst hzero
    simp [lastEntry, hstart, entry_of_link hlink]
  | cons b before ih =>
    obtain ⟨hstart, -, next, hlink, hrest⟩ := h
    obtain ⟨fuel, rfl⟩ := Nat.exists_eq_succ_of_ne_zero (Nat.ne_zero_of_lt hfuel)
    have hnext : next ≠ 0 := by
      rw [hrest.start_eq]
      exact mt hrest.first_eq_zero_iff.mp (by simp)
    rw [lastEntry, hstart, entry_of_link hlink, bind_eq_bind, bind_some, if_pos hnext]
    exact ih hrest (Nat.lt_of_succ_lt_succ hfuel)

theorem first_append {before after : List (Nat × Nat)} (hbefore : before ≠ []) :
    first (before ++ after) = first before := by
  cases before with
  | nil => exact absurd rfl hbefore
  | cons b before => rfl

/-- `Register` of a value behind the chain of a key. -/
theorem Holds.registerAt_spec (h : c.Holds chains) (value : Nat) (hp : chains p ≠ [])
    (hroom : c.freeEntries = [] → c.storage.length + 1 < 2 ^ 31) :
    ∃ id c', c.registerAt value (first (chains p)) = some c' ∧
      c'.Holds (update chains p (chains p ++ [(id, value)])) := by
  have hfilled := h.registerImplementation_spec value hroom
  generalize hresult : c.registerImplementation value = result at hfilled
  obtain ⟨id, c₁⟩ := result
  obtain ⟨before, last, hsplit⟩ := (eq_nil_or_concat (chains p)).resolve_left hp
  rw [concat_eq_append] at hsplit
  have hold : Chain c₁.link (first (chains p)) (chains p) :=
    (h.chain p).congr fun j hj => hfilled.link_of_ne hj
  have hlength : before.length < c₁.storage.length := by
    have hsub : ids (chains p) ⊆ range' 1 c₁.storage.length := by
      intro j hj
      obtain ⟨l, hl, rfl⟩ := mem_map.mp hj
      obtain ⟨-, next, hlink⟩ := hold.link_of_mem hl
      obtain ⟨hne, hle⟩ := link_bound hlink
      exact mem_range'_1.mpr ⟨by omega, by omega⟩
    have hle := (hold.nodup.subperm hsub).length_le
    rw [ids, length_map, length_range', hsplit, length_append] at hle
    exact hle
  have hlast : c₁.lastEntry c₁.storage.length (first (chains p)) = some last.1 := by
    rw [hsplit] at hold ⊢
    exact lastEntry_spec hold hlength
  have hmem : last.1 ∈ ids (chains p) := by
    rw [hsplit]
    simp [ids]
  obtain ⟨next, hnext⟩ : ∃ next, c₁.link last.1 = some (next, last.2) :=
    (hold.link_of_mem (by rw [hsplit]; simp)).2
  have hlink : (c₁.setNext last.1 id).link = update c₁.link last.1 (some (id, last.2)) :=
    link_setNext hnext
  refine ⟨id, c₁.setNext last.1 id, ?_, hfilled.holds h rfl length_setNext ?_ fun q hq j hj => ?_⟩
  · simp [registerAt, hresult, hlast]
  · have hself : c₁.link id = some (0, value) := by rw [hfilled.link, update_self]
    have hsingle := chain_single hfilled.pos hself
    rw [first_append hp, hlink, hsplit, append_assoc, singleton_append]
    rw [hsplit] at hold
    refine hold.relink hsingle ?_
    simp only [ids, map_cons, map_nil, mem_singleton]
    exact ne_of_mem_of_not_mem hmem (hfilled.fresh p)
  · rw [hlink, update_of_ne]
    rintro rfl
    exact hq (h.apart q p _ hj hmem)

/-! ## Taking a value out -/

variable {before after : List (Nat × Nat)} {l : Nat × Nat}

/-- The id of the last link, or what there was before. -/
def lastId (previous : Option Nat) (before : List (Nat × Nat)) : Option Nat :=
  match before.getLast? with
  | some last => some last.1
  | none => previous

theorem lastId_cons (previous : Option Nat) (b : Nat × Nat) (before : List (Nat × Nat)) :
    lastId previous (b :: before) = lastId (some b.1) before := by
  rw [lastId, lastId, getLast?_cons]
  cases before.getLast? with
  | none => rfl
  | some last => rfl

/-- The walk of `Unregister` comes to the first link with the value. -/
theorem findValue_spec (h : Chain c.link start (before ++ l :: after))
    (hbefore : l.2 ∉ values before) {fuel count : Nat} {previous : Option Nat}
    (hfuel : before.length < fuel) : c.findValue l.2 fuel previous start count =
      some (lastId previous before, l.1, count + before.length) := by
  induction before generalizing start fuel previous count with
  | nil =>
    obtain ⟨hstart, -, next, hlink, -⟩ := h
    obtain ⟨fuel, rfl⟩ := Nat.exists_eq_succ_of_ne_zero (Nat.ne_zero_of_lt hfuel)
    simp [findValue, hstart, entry_of_link hlink, lastId]
  | cons b before ih =>
    obtain ⟨hstart, -, next, hlink, hrest⟩ := h
    obtain ⟨fuel, rfl⟩ := Nat.exists_eq_succ_of_ne_zero (Nat.ne_zero_of_lt hfuel)
    obtain ⟨hne, hbefore⟩ := not_or.mp (mt mem_cons.mpr hbefore)
    rw [findValue, hstart, entry_of_link hlink, bind_eq_bind, bind_some,
      if_pos (Ne.symm hne), ih hrest hbefore (Nat.lt_of_succ_lt_succ hfuel), lastId_cons,
      length_cons, add_assoc, add_comm 1]

theorem ids_append : ids (before ++ after) = ids before ++ ids after := map_append ..

theorem ids_cons : ids (l :: after) = l.1 :: ids after := rfl

/-- A link has been taken out of the chain of a key, and its entry put on the free list. -/
theorem Holds.remove (h : c.Holds chains) (hp : chains p = before ++ l :: after)
    (hfree : c'.freeEntries = c.freeEntries ++ [l.1])
    (hlength : c'.storage.length = c.storage.length)
    (hchain : Chain c'.link (first (before ++ after)) (before ++ after))
    (hothers : ∀ q, q ≠ p → ∀ j ∈ ids (chains q), c'.link j = c.link j) :
    c'.Holds (update chains p (before ++ after)) := by
  have hids : ids (chains p) = ids before ++ l.1 :: ids after := by rw [hp, ids_append, ids_cons]
  have hmem : l.1 ∈ ids (chains p) := by rw [hids]; simp
  have hnodup := (h.chain p).nodup
  rw [hids] at hnodup
  obtain ⟨-, hafter, hbefore⟩ := nodup_append.mp hnodup
  have hsub : ∀ j ∈ ids (before ++ after), j ∈ ids (chains p) := by
    intro j hj
    rw [hids]
    rw [ids_append] at hj
    exact mem_append.mpr ((mem_append.mp hj).imp_right (mem_cons_of_mem _))
  have hout : l.1 ∉ ids (before ++ after) := by
    rw [ids_append]
    intro hj
    rcases mem_append.mp hj with hj | hj
    · exact hbefore _ hj _ mem_cons_self rfl
    · exact (nodup_cons.mp hafter).1 hj
  refine h.replace hchain hothers (fun q hq j hj hq' => hq (h.apart q p j hq' (hsub j hj))) ?_
    (fun j hj => ?_) (fun j hne hle => ?_) (hlength ▸ h.small)
  · rw [hfree]
    refine nodup_append.mpr ⟨h.free_nodup, nodup_singleton _, fun a ha b hb => ?_⟩
    rw [mem_singleton.mp hb]
    exact fun heq => h.free_apart a ha p (heq ▸ hmem)
  · rw [hfree] at hj
    rcases mem_append.mp hj with hj | hj
    · obtain ⟨hne, hle⟩ := h.free_bound j hj
      exact ⟨hne, hlength ▸ hle, fun hmem' => h.free_apart j hj p (hsub j hmem'), .inl hj⟩
    · obtain rfl := mem_singleton.mp hj
      obtain ⟨hne, hle⟩ := h.bound hmem
      exact ⟨hne, hlength ▸ hle, hout, .inr hmem⟩
  · rw [hfree]
    rcases h.used j hne (hlength ▸ hle) with hj | ⟨q, hq⟩
    · exact .inl (mem_append_left _ hj)
    · by_cases hqp : q = p
      · subst hqp
        rw [hids] at hq
        rcases mem_append.mp hq with hq | hq
        · exact .inr (.inl (by rw [ids_append]; exact mem_append_left _ hq))
        · rcases mem_cons.mp hq with rfl | hq
          · exact .inl (mem_append_right _ (mem_singleton_self _))
          · exact .inr (.inl (by rw [ids_append]; exact mem_append_right _ hq))
      · exact .inr (.inr ⟨q, hqp, hq⟩)

/-- Whether more than one link remains, as `Unregister` finds out from the neighbours of the link. -/
theorem moreThanOneRemaining_spec {next : Nat} (hafter : Chain c.link next after) :
    ∃ more, c.moreThanOneRemaining (lastId none before) next = some more ∧
      (more || decide (1 < before.length)) = decide (2 ≤ (before ++ after).length) := by
  cases after with
  | nil =>
    have hzero : next = 0 := hafter
    refine ⟨false, by rw [moreThanOneRemaining, if_neg (not_not.mpr hzero)], ?_⟩
    rw [Bool.false_or, append_nil]
    rfl
  | cons a after =>
    obtain ⟨hstart, hzero, nextNext, hlink, hrest⟩ := hafter
    refine ⟨decide (nextNext ≠ 0) || (lastId none before).isSome, ?_, ?_⟩
    · rw [moreThanOneRemaining, hstart, if_pos hzero, entry_of_link hlink, map_some]
    · have hlast : nextNext ≠ 0 ↔ after ≠ [] := by
        rw [hrest.start_eq]
        exact not_congr hrest.first_eq_zero_iff
      have hprevious : (lastId none before).isSome = true ↔ before ≠ [] := by
        cases before with
        | nil => simp [lastId]
        | cons b before => simp [lastId, getLast?_cons]
      rw [Bool.eq_iff_iff]
      simp only [Bool.or_eq_true, decide_eq_true_eq, hlast, hprevious, length_append,
        length_cons, ← length_pos_iff]
      omega

/-- `Unregister` of a value in the chain of a key: it tells whether more than one link remains. -/
theorem Holds.unregister_spec (h : c.Holds chains) (hp : chains p = before ++ l :: after)
    (hbefore : l.2 ∉ values before) : ∃ c', c.unregister l.2 (first (chains p)) =
        some ((decide (2 ≤ (before ++ after).length), first (before ++ after)), c') ∧
      c'.Holds (update chains p (before ++ after)) := by
  have hchain := h.chain p
  have hfuel : before.length < c.storage.length := by
    have hle := h.length_le p
    rw [hp, length_append, length_cons] at hle
    omega
  rw [hp] at hchain
  have hfind := @findValue_spec c _ before after l hchain hbefore _ 0 none hfuel
  obtain ⟨-, next, hlink, hafter⟩ := hchain.link_of_append
  obtain ⟨more, hmore, hcount⟩ := @moreThanOneRemaining_spec _ before _ _ hafter
  rw [hp, unregister, hfind]
  simp only [bind_eq_bind, bind_some, entry_of_link hlink, hmore, zero_add, hcount]
  rcases eq_nil_or_concat before with rfl | ⟨before, b, rfl⟩
  case inl =>
    refine ⟨{ c with freeEntries := c.freeEntries ++ [l.1] }, ?_,
      h.remove hp rfl rfl ?_ fun q _ j _ => rfl⟩
    · rw [hafter.start_eq]
      rfl
    · rw [nil_append, ← hafter.start_eq]
      exact hafter
  case inr =>
    rw [concat_eq_append] at hp hchain hfind hbefore ⊢
    have hlast : lastId none (before ++ [b]) = some b.1 := by simp [lastId]
    have hb : b.1 ∈ ids (chains p) := by rw [hp]; simp [ids]
    rw [append_assoc, singleton_append] at hchain
    obtain ⟨-, nextB, hlinkB, -⟩ := hchain.link_of_append
    have hset : (c.setNext b.1 next).link = update c.link b.1 (some (next, b.2)) :=
      link_setNext hlinkB
    have hnodup := hchain.nodup
    rw [ids_append, ids_cons, ids_cons] at hnodup
    have hout : b.1 ∉ ids after := fun hmem =>
      (nodup_cons.mp (nodup_append.mp hnodup).2.1).1 (mem_cons_of_mem _ hmem)
    have hrelinked := hchain.relink hafter hout
    have hlist : before ++ b :: after = before ++ [b] ++ after := by simp
    rw [← hset, hlist] at hrelinked
    rw [hlast]
    refine ⟨{ c.setNext b.1 next with freeEntries := c.freeEntries ++ [l.1] }, ?_,
      h.remove hp rfl length_setNext ?_ fun q hq j hj => ?_⟩
    · simp only [first_append (append_ne_nil_of_right_ne_nil before (cons_ne_nil b []))]
      rfl
    · rw [← hrelinked.start_eq]
      exact hrelinked
    · show (c.setNext b.1 next).link j = c.link j
      rw [hset, update_of_ne]
      rintro rfl
      exact hq (h.apart q p _ hj hb)

/-- `ReleaseEntry` of the only link in the chain of a key. -/
theorem Holds.releaseEntry_spec (h : c.Holds chains) (hp : chains p = [l]) :
    ∃ c', c.releaseEntry (first (chains p)) = some (l.2, c') ∧ c'.Holds (update chains p []) := by
  have hchain := h.chain p
  rw [hp] at hchain
  obtain ⟨-, -, next, hlink, -⟩ := hchain
  have hremoved : ({ c with freeEntries := c.freeEntries ++ [l.1] } : MultiAddressContainer).Holds
      (update chains p ([] ++ [])) :=
    h.remove hp rfl rfl rfl fun q _ j _ => rfl
  refine ⟨{ c with freeEntries := c.freeEntries ++ [l.1] }, ?_, hremoved⟩
  rw [hp, releaseEntry]
  show (c.entry l.1).bind _ = _
  rw [entry_of_link hlink]
  rfl

/-! ## Reading a chain -/

theorem gatherFrom_spec {chain : List (Nat × Nat)} (h : Chain c.link start chain) (hne : chain ≠ [])
    {fuel : Nat} (hfuel : chain.length ≤ fuel) : c.gatherFrom fuel start = some (values chain) := by
  induction chain generalizing start fuel with
  | nil => exact absurd rfl hne
  | cons l rest ih =>
    obtain ⟨hstart, -, next, hlink, hrest⟩ := h
    obtain ⟨fuel, rfl⟩ := Nat.exists_eq_succ_of_ne_zero (Nat.ne_zero_of_lt hfuel)
    rw [gatherFrom, hstart, entry_of_link hlink, bind_eq_bind, bind_some]
    cases rest with
    | nil =>
      have hzero : next = 0 := hrest
      rw [if_neg (not_not.mpr hzero)]
      rfl
    | cons l' rest =>
      have hnext : next ≠ 0 := hrest.1 ▸ hrest.2.1
      rw [if_pos hnext, ih hrest (cons_ne_nil _ _) (Nat.le_of_succ_le_succ hfuel)]
      rfl

/-- `GatherValues` gives the values of a chain. -/
theorem Holds.gatherValues_spec (h : c.Holds chains) (hp : chains p ≠ []) :
    c.gatherValues (first (chains p)) = some (values (chains p)) :=
  gatherFrom_spec (h.chain p) hp (h.length_le p)

end Sudachi.Core.MultiAddressContainer
