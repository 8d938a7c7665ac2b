import Sudachi.Core.MultiAddressContainer
import Sudachi.Foundations.Runs
import Mathlib.Data.Fintype.Card

/-!
# From physical pages back to device pages

The map back holds, for each physical page, exactly the device pages that are mapped to it, each one
once: in line where there is one, in a chain of at least two entries where there are more
(`throughout_exact`). The device page zero is left out, as its number in line stands for none; the
allocator of device addresses starts behind it.
-/

set_option autoImplicit false

namespace Sudachi.Core.DeviceMemory

open Sudachi.Foundations Sudachi.Foundations.Chains List Nat Function

namespace ReverseMap

/-- The word of a physical page is the start of a chain. -/
def Multi (r : ReverseMap) (physPage : Nat) : Prop :=
  r.compressedDeviceAddr physPage >>> multiFlagBits ≠ 0

/-- The device pages recorded for a physical page; zero in line records none. -/
def recorded (r : ReverseMap) (physPage : Nat) : Option (List Nat) :=
  if r.compressedDeviceAddr physPage = 0 then some [] else r.gatherDeviceAddresses physPage

/-- The map back is exact for a table of physical pages: the recorded device pages of a physical page
are those that the table maps to it. The chains are apart from each other and from the free entries. -/
def Exact (r : ReverseMap) (ptr : Nat → Nat) : Prop :=
  (∀ p, ∃ l, r.recorded p = some l ∧ l.Nodup ∧ ∀ d, d ∈ l ↔ ptr d = p + 1) ∧
  ∃ chains, r.multiDevAddress.Holds chains ∧ ∀ p, (r.Multi p ↔ chains p ≠ []) ∧
      (r.Multi p → r.compressedDeviceAddr p &&& (multiFlag - 1) = first (chains p))

end ReverseMap

/-! ## Words of a physical page -/

variable {id word : Nat}

theorem multiFlag_or (h : id < 2 ^ 31) : multiFlag ||| id = multiFlag + id := by
  have hor := two_pow_add_eq_or_of_lt h 1
  rw [mul_one] at hor
  exact hor.symm

theorem multiFlag_or_shift (h : id < 2 ^ 31) : (multiFlag ||| id) >>> multiFlagBits ≠ 0 := by
  rw [multiFlag_or h, shiftRight_eq_div_pow, multiFlag, multiFlagBits]
  omega

theorem multiFlag_or_mask (h : id < 2 ^ 31) : (multiFlag ||| id) &&& (multiFlag - 1) = id := by
  rw [multiFlag_or h, multiFlag, multiFlagBits, and_two_pow_sub_one_eq_mod]
  omega

theorem shift_eq_zero_iff : word >>> multiFlagBits = 0 ↔ word < 2 ^ 31 := by
  rw [shiftRight_eq_div_pow, multiFlagBits]
  omega

/-! ## What the map back tracks -/

/-- The chains are those of the physical pages with several device pages below `n`; others are kept in
line. -/
structure Tracks (n : Nat) (r : ReverseMap) (ptr : Nat → Nat) (chains : Nat → List (Nat × Nat)) :
    Prop where
  holds : r.multiDevAddress.Holds chains
  single : ∀ p, chains p = [] → r.compressedDeviceAddr p < 2 ^ 31 ∧
    ∀ d, ptr d = p + 1 ↔ d ≠ 0 ∧ d = r.compressedDeviceAddr p
  multi : ∀ p, chains p ≠ [] → r.compressedDeviceAddr p = multiFlag ||| first (chains p) ∧
    2 ≤ (chains p).length ∧ (values (chains p)).Nodup ∧
    ∀ d, ptr d = p + 1 ↔ d ∈ values (chains p)
  pages : ∀ d, ptr d ≠ 0 → d ≠ 0 ∧ d < n

variable {n p d : Nat} {r : ReverseMap} {ptr : Nat → Nat} {chains : Nat → List (Nat × Nat)}

theorem tracks_initial :
    Tracks n { compressedDeviceAddr := fun _ => 0, multiDevAddress := {} } (fun _ => 0) fun _ => []
    where
  holds := MultiAddressContainer.holds_initial
  single p _ := ⟨Nat.two_pow_pos 31, fun d => by simp⟩
  multi p h := absurd rfl h
  pages d h := absurd rfl h

theorem Tracks.first_lt (h : Tracks n r ptr chains) : first (chains p) < 2 ^ 31 := by
  cases hp : chains p with
  | nil => exact Nat.two_pow_pos 31
  | cons l rest =>
    have hmem : l.1 ∈ ids (chains p) := by rw [hp]; exact mem_cons_self
    exact lt_of_le_of_lt (h.holds.bound hmem).2 h.holds.small

theorem Tracks.multi_iff (h : Tracks n r ptr chains) : r.Multi p ↔ chains p ≠ [] := by
  by_cases hp : chains p = []
  · exact iff_of_false (not_not.mpr (shift_eq_zero_iff.mpr (h.single p hp).1)) (not_not.mpr hp)
  · refine iff_of_true ?_ hp
    rw [ReverseMap.Multi, (h.multi p hp).1]
    exact multiFlag_or_shift h.first_lt

theorem Tracks.mask (h : Tracks n r ptr chains) (hp : chains p ≠ []) :
    r.compressedDeviceAddr p &&& (multiFlag - 1) = first (chains p) := by
  rw [(h.multi p hp).1, multiFlag_or_mask h.first_lt]

theorem Tracks.exact (h : Tracks n r ptr chains) : r.Exact ptr := by
  refine ⟨fun p => ?_, chains, h.holds, fun p => ⟨h.multi_iff, fun hp => h.mask (h.multi_iff.mp hp)⟩⟩
  by_cases hp : chains p = []
  · obtain ⟨hsmall, haliases⟩ := h.single p hp
    by_cases hzero : r.compressedDeviceAddr p = 0
    · refine ⟨[], if_pos hzero, nodup_nil, fun d => ?_⟩
      rw [haliases, hzero]
      simp
    · refine ⟨[r.compressedDeviceAddr p], ?_, nodup_singleton _, fun d => ?_⟩
      · rw [ReverseMap.recorded, if_neg hzero, ReverseMap.gatherDeviceAddresses,
          if_neg (not_not.mpr (shift_eq_zero_iff.mpr hsmall))]
      · rw [haliases, mem_singleton]
        exact ⟨fun hd => ⟨hd ▸ hzero, hd⟩, fun hd => hd.2⟩
  · obtain ⟨-, -, hnodup, haliases⟩ := h.multi p hp
    have hmulti : r.compressedDeviceAddr p >>> multiFlagBits ≠ 0 := h.multi_iff.mpr hp
    have hzero : r.compressedDeviceAddr p ≠ 0 := by
      intro hzero
      exact hmulti (by rw [hzero, zero_shiftRight])
    refine ⟨values (chains p), ?_, hnodup, fun d => (haliases d).symm⟩
    rw [ReverseMap.recorded, if_neg hzero, ReverseMap.gatherDeviceAddresses, if_pos hmulti, h.mask hp,
      h.holds.gatherValues_spec hp]

/-! ## Room for new entries -/

/-- The values in the chains are different device pages, so that the storage stays small. -/
theorem length_le_of_labelled {c : MultiAddressContainer} (h : c.Holds chains)
    (hfree : c.freeEntries = []) (hlabel : ∀ p, ∀ v ∈ values (chains p), ptr v = p + 1 ∧ v < n)
    (hnodup : ∀ p, (values (chains p)).Nodup) : c.storage.length ≤ n := by
  have hlink : ∀ i : Fin c.storage.length, ∃ p, (i.val + 1, c.storage[i].value) ∈ chains p := by
    intro i
    rcases h.used (i.val + 1) (succ_ne_zero _) i.isLt with hmem | ⟨p, hmem⟩
    · rw [hfree] at hmem
      exact absurd hmem not_mem_nil
    · obtain ⟨l, hl, hid⟩ := mem_map.mp hmem
      obtain ⟨-, next, hlink⟩ := (h.chain p).link_of_mem hl
      have hentry := MultiAddressContainer.entry_of_link hlink
      rw [hid, MultiAddressContainer.entry, if_neg (succ_ne_zero _)] at hentry
      have hvalue : c.storage[i].value = l.2 := by
        obtain ⟨hlt, hget⟩ := List.getElem?_eq_some_iff.mp hentry
        exact congrArg Entry.value hget
      refine ⟨p, ?_⟩
      rw [hvalue, ← hid]
      exact hl
  have hvalue : ∀ i : Fin c.storage.length, c.storage[i].value < n := by
    intro i
    obtain ⟨p, hp⟩ := hlink i
    exact (hlabel p _ (mem_map_of_mem hp)).2
  have hinj : Function.Injective fun i : Fin c.storage.length => (⟨_, hvalue i⟩ : Fin n) := by
    intro i j hij
    have heq : c.storage[i].value = c.storage[j].value := congrArg Fin.val hij
    obtain ⟨p, hp⟩ := hlink i
    obtain ⟨q, hq⟩ := hlink j
    have hpq : p = q := by
      have hptr := (hlabel p _ (mem_map_of_mem hp)).1
      rw [heq, (hlabel q _ (mem_map_of_mem hq)).1] at hptr
      omega
    subst hpq
    have hlinks := inj_on_of_nodup_map (hnodup p) hp hq heq
    exact Fin.ext (Nat.succ.inj (Prod.mk.inj hlinks).1)
  have hcard := Fintype.card_le_of_injective _ hinj
  rwa [Fintype.card_fin, Fintype.card_fin] at hcard

theorem Tracks.labelled (h : Tracks n r ptr chains) :
    ∀ p, ∀ v ∈ values (chains p), ptr v = p + 1 ∧ v < n := by
  intro p v hv
  have hp : chains p ≠ [] := by
    rintro hp
    rw [hp] at hv
    exact not_mem_nil hv
  have hptr := ((h.multi p hp).2.2.2 v).mpr hv
  exact ⟨hptr, (h.pages v (by omega)).2⟩

theorem Tracks.nodup (h : Tracks n r ptr chains) (p : Nat) : (values (chains p)).Nodup := by
  by_cases hp : chains p = []
  · rw [hp]
    exact nodup_nil
  · exact (h.multi p hp).2.2.1

theorem Tracks.room (h : Tracks n r ptr chains) (hn : n + 1 < 2 ^ 31)
    (hfree : r.multiDevAddress.freeEntries = []) :
    r.multiDevAddress.storage.length + 1 < 2 ^ 31 := by
  have := length_le_of_labelled h.holds hfree h.labelled h.nodup
  omega

/-! ## Mapping and unmapping a device page -/

theorem aliases_update (hd : ptr d = 0) {q e : Nat} :
    Function.update ptr d (p + 1) e = q + 1 ↔ (q = p ∧ e = d) ∨ ptr e = q + 1 := by
  by_cases he : e = d
  · subst he
    rw [update_self, hd]
    simp only [and_true, Nat.add_right_cancel_iff]
    exact ⟨fun h => .inl h.symm, fun h => h.elim Eq.symm fun h => absurd h.symm (succ_ne_zero q)⟩
  · rw [update_of_ne he]
    simp [he]

theorem aliases_clear {q e : Nat} : Function.update ptr d 0 e = q + 1 ↔ e ≠ d ∧ ptr e = q + 1 := by
  by_cases he : e = d
  · subst he
    rw [update_self]
    exact iff_of_false (succ_ne_zero q).symm fun h => h.1 rfl
  · rw [update_of_ne he]
    exact ⟨fun h => ⟨he, h⟩, fun h => h.2⟩

/-- The map back has changed for one physical page, whose chain is `l` now. -/
theorem Tracks.change {r' : ReverseMap} {ptr' : Nat → Nat} {l : List (Nat × Nat)}
    (h : Tracks n r ptr chains) (hholds : r'.multiDevAddress.Holds (Function.update chains p l))
    (haddr : ∀ q, q ≠ p → r'.compressedDeviceAddr q = r.compressedDeviceAddr q)
    (hptr : ∀ q, q ≠ p → ∀ e, ptr' e = q + 1 ↔ ptr e = q + 1)
    (hsingle : l = [] → r'.compressedDeviceAddr p < 2 ^ 31 ∧
      ∀ e, ptr' e = p + 1 ↔ e ≠ 0 ∧ e = r'.compressedDeviceAddr p)
    (hmulti : l ≠ [] → r'.compressedDeviceAddr p = multiFlag ||| first l ∧ 2 ≤ l.length ∧
      (values l).Nodup ∧ ∀ e, ptr' e = p + 1 ↔ e ∈ values l)
    (hpages : ∀ e, ptr' e ≠ 0 → e ≠ 0 ∧ e < n) : Tracks n r' ptr' (Function.update chains p l) := by
  refine ⟨hholds, fun q hq => ?_, fun q hq => ?_, hpages⟩
  · by_cases hqp : q = p
    · subst hqp
      rw [update_self] at hq
      exact hsingle hq
    · rw [update_of_ne hqp] at hq
      obtain ⟨hsmall, haliases⟩ := h.single q hq
      rw [haddr q hqp]
      exact ⟨hsmall, fun e => (hptr q hqp e).trans (haliases e)⟩
  · by_cases hqp : q = p
    · subst hqp
      rw [update_self] at hq ⊢
      exact hmulti hq
    · rw [update_of_ne hqp] at hq ⊢
      obtain ⟨hword, hlength, hnodup, haliases⟩ := h.multi q hq
      rw [haddr q hqp]
      exact ⟨hword, hlength, hnodup, fun e => (hptr q hqp e).trans (haliases e)⟩

theorem setDeviceAddr_self {word : Nat} :
    (r.setDeviceAddr (p + 1) word).compressedDeviceAddr p = word := by
  simp [ReverseMap.setDeviceAddr]

theorem setDeviceAddr_of_ne {word q : Nat} (hq : q ≠ p) :
    (r.setDeviceAddr (p + 1) word).compressedDeviceAddr q = r.compressedDeviceAddr q := by
  simp [ReverseMap.setDeviceAddr, update_of_ne hq]

/-- What `Map` does for a device page that is not mapped. -/
theorem Tracks.insertDevice_spec (h : Tracks n r ptr chains) (hn : n + 1 < 2 ^ 31) (hd : ptr d = 0)
    (hpos : d ≠ 0) (hlt : d < n) : ∃ r' chains', r.insertDevice (p + 1) d = some r' ∧
      Tracks n r' (Function.update ptr d (p + 1)) chains' := by
  have hptr : ∀ q, q ≠ p → ∀ e, Function.update ptr d (p + 1) e = q + 1 ↔ ptr e = q + 1 := by
    intro q hq e
    rw [aliases_update hd]
    exact ⟨fun h => h.resolve_left fun h => hq h.1, .inr⟩
  have hself : ∀ e, Function.update ptr d (p + 1) e = p + 1 ↔ e = d ∨ ptr e = p + 1 := by
    intro e
    rw [aliases_update hd]
    exact or_congr_left (and_iff_right rfl)
  have hpages : ∀ e, Function.update ptr d (p + 1) e ≠ 0 → e ≠ 0 ∧ e < n := by
    intro e he
    by_cases hed : e = d
    · exact hed ▸ ⟨hpos, hlt⟩
    · rw [update_of_ne hed] at he
      exact h.pages e he
  have hlookup : r.compressedDeviceAddr (p + 1 - 1) = r.compressedDeviceAddr p := rfl
  by_cases hp : chains p = []
  case pos =>
    obtain ⟨hsmall, haliases⟩ := h.single p hp
    by_cases hzero : r.compressedDeviceAddr p = 0
    case pos =>
      refine ⟨r.setDeviceAddr (p + 1) d, Function.update chains p [], ?_, ?_⟩
      · rw [ReverseMap.insertDevice, hlookup, if_pos hzero]
      · refine h.change ?_ (fun q hq => setDeviceAddr_of_ne hq) hptr (fun _ => ?_)
          (fun hne => absurd rfl hne) hpages
        · rw [← hp, update_eq_self]
          exact h.holds
        · rw [setDeviceAddr_self]
          refine ⟨by omega, fun e => ?_⟩
          rw [hself, haliases, hzero]
          constructor
          · rintro (rfl | ⟨hne, rfl⟩)
            · exact ⟨hpos, rfl⟩
            · exact absurd rfl hne
          · exact fun he => .inl he.2
    case neg =>
      -- the device page in line goes to a chain, and the new one behind it
      have hbase := (haliases (r.compressedDeviceAddr p)).mpr ⟨hzero, rfl⟩
      have hbaseLt := (h.pages _ (by rw [hbase]; exact succ_ne_zero p)).2
      have hregistered := h.holds.register_spec (r.compressedDeviceAddr p) hp (h.room hn)
      generalize hresult : r.multiDevAddress.register (r.compressedDeviceAddr p) = result
        at hregistered
      obtain ⟨startId, c₁⟩ := result
      have hchain : Function.update chains p [(startId, r.compressedDeviceAddr p)] p =
          [(startId, r.compressedDeviceAddr p)] := update_self ..
      have hroom : c₁.freeEntries = [] → c₁.storage.length + 1 < 2 ^ 31 := by
        intro hfree
        have hle := @length_le_of_labelled n ptr _ c₁ hregistered hfree (fun q v hv => by
          by_cases hq : q = p
          · subst hq
            rw [hchain] at hv
            obtain rfl := mem_singleton.mp hv
            exact ⟨hbase, hbaseLt⟩
          · rw [update_of_ne hq] at hv
            exact h.labelled q v hv) fun q => by
          by_cases hq : q = p
          · subst hq
            rw [hchain]
            exact nodup_singleton _
          · rw [update_of_ne hq]
            exact h.nodup q
        omega
      obtain ⟨id, c₂, hat, hholds⟩ := hregistered.registerAt_spec d
        (by rw [hchain]; exact cons_ne_nil _ _) hroom
      rw [hchain, update_idem] at hholds
      rw [hchain] at hat
      refine ⟨{ r.setDeviceAddr (p + 1) (multiFlag ||| startId) with multiDevAddress := c₂ }, _, ?_,
        h.change hholds (fun q hq => setDeviceAddr_of_ne hq) hptr
        (fun hnil => absurd hnil (cons_ne_nil _ _))
        (fun _ => ⟨setDeviceAddr_self, le_refl 2, ?_, ?_⟩) hpages⟩
      · rw [ReverseMap.insertDevice, hlookup, if_neg hzero,
          if_pos (shift_eq_zero_iff.mpr hsmall), hresult]
        show (c₁.registerAt d startId).bind _ = _
        rw [show startId = first [(startId, r.compressedDeviceAddr p)] from rfl, hat]
        rfl
      · have hne : r.compressedDeviceAddr p ≠ d := by
          rintro rfl
          omega
        simpa [values] using hne
      · intro e
        rw [hself, haliases]
        constructor
        · rintro (rfl | ⟨-, rfl⟩)
          · exact mem_cons_of_mem _ mem_cons_self
          · exact mem_cons_self
        · intro he
          rcases mem_cons.mp he with rfl | he
          · exact .inr ⟨hzero, rfl⟩
          · exact .inl (mem_singleton.mp he)
  case neg =>
    obtain ⟨hword, hlength, hnodup, haliases⟩ := h.multi p hp
    have hmulti : r.compressedDeviceAddr p >>> multiFlagBits ≠ 0 := h.multi_iff.mpr hp
    have hzero : r.compressedDeviceAddr p ≠ 0 := by
      intro hzero
      exact hmulti (by rw [hzero, zero_shiftRight])
    obtain ⟨id, c, hat, hholds⟩ := h.holds.registerAt_spec d hp (h.room hn)
    have hvalues : values (chains p ++ [(id, d)]) = values (chains p) ++ [d] := map_append ..
    refine ⟨{ r with multiDevAddress := c }, _, ?_, h.change hholds (fun q _ => rfl) hptr
      (fun hnil => absurd (append_eq_nil_iff.mp hnil).1 hp)
      (fun _ => ⟨?_, ?_, ?_, fun e => ?_⟩) hpages⟩
    · rw [ReverseMap.insertDevice, hlookup, if_neg hzero, if_neg hmulti, h.mask hp]
      show (r.multiDevAddress.registerAt d (first (chains p))).bind _ = _
      rw [hat]
      rfl
    · rw [MultiAddressContainer.first_append hp]
      exact hword
    · rw [length_append]
      omega
    · rw [hvalues]
      refine nodup_append.mpr ⟨hnodup, nodup_singleton _, fun a ha b hb => ?_⟩
      rw [mem_singleton.mp hb]
      rintro rfl
      have := (haliases a).mpr ha
      omega
    · rw [hself, haliases, hvalues, mem_append, mem_singleton, or_comm]

/-- What `Unmap` does for a device page that is mapped to a physical page. -/
theorem Tracks.removeDevice_spec (h : Tracks n r ptr chains) (hn : n + 1 < 2 ^ 31)
    (hd : ptr d = p + 1) : ∃ r' chains', r.removeDevice (p + 1) d = some r' ∧
      Tracks n r' (Function.update ptr d 0) chains' := by
  have hptr : ∀ q, q ≠ p → ∀ e, Function.update ptr d 0 e = q + 1 ↔ ptr e = q + 1 := by
    intro q hq e
    rw [aliases_clear]
    refine ⟨fun h => h.2, fun h => ⟨?_, h⟩⟩
    rintro rfl
    omega
  have hpages : ∀ e, Function.update ptr d 0 e ≠ 0 → e ≠ 0 ∧ e < n := by
    intro e he
    by_cases hed : e = d
    · exact absurd (hed ▸ update_self ..) he
    · rw [update_of_ne hed] at he
      exact h.pages e he
  have hlookup : r.compressedDeviceAddr (p + 1 - 1) = r.compressedDeviceAddr p := rfl
  by_cases hp : chains p = []
  case pos =>
    obtain ⟨hsmall, haliases⟩ := h.single p hp
    refine ⟨r.setDeviceAddr (p + 1) 0, Function.update chains p [], ?_, ?_⟩
    · rw [ReverseMap.removeDevice, hlookup, if_pos (shift_eq_zero_iff.mpr hsmall)]
    · refine h.change ?_ (fun q hq => setDeviceAddr_of_ne hq) hptr (fun _ => ?_)
        (fun hne => absurd rfl hne) hpages
      · rw [← hp, update_eq_self]
        exact h.holds
      · rw [setDeviceAddr_self]
        refine ⟨Nat.two_pow_pos 31, fun e => ?_⟩
        rw [aliases_clear, haliases]
        refine iff_of_false ?_ fun he => he.1 he.2
        rintro ⟨hne, -, rfl⟩
        exact hne ((haliases d).mp hd).2.symm
  case neg =>
    obtain ⟨-, hlength, hnodup, haliases⟩ := h.multi p hp
    have hmulti : r.compressedDeviceAddr p >>> multiFlagBits ≠ 0 := h.multi_iff.mpr hp
    obtain ⟨l, hl, hvalue⟩ := mem_map.mp ((haliases d).mp hd)
    obtain ⟨before, after, hsplit⟩ := append_of_mem hl
    have hvalues : values (chains p) = values before ++ d :: values after := by
      rw [hsplit, ← hvalue]
      exact map_append ..
    have hrest : values (before ++ after) = values before ++ values after := map_append ..
    rw [hvalues] at hnodup
    obtain ⟨hnot, hrestNodup⟩ := nodup_middle.mp hnodup |> nodup_cons.mp
    have hself : ∀ e, Function.update ptr d 0 e = p + 1 ↔ e ∈ values (before ++ after) := by
      intro e
      rw [aliases_clear, haliases, hvalues, hrest, mem_append, mem_cons, mem_append]
      constructor
      · rintro ⟨hne, he | rfl | he⟩
        · exact .inl he
        · exact absurd rfl hne
        · exact .inr he
      · intro he
        refine ⟨?_, he.imp_right .inr⟩
        rintro rfl
        exact hnot (mem_append.mpr he)
    obtain ⟨c, hunregister, hholds⟩ := h.holds.unregister_spec hsplit
      (by rw [hvalue]; exact fun hmem => hnot (mem_append_left _ hmem))
    rw [hvalue] at hunregister
    have hpositive : 1 ≤ (before ++ after).length := by
      rw [hsplit, length_append, length_cons] at hlength
      rw [length_append]
      omega
    by_cases hmore : 2 ≤ (before ++ after).length
    case pos =>
      have hne : before ++ after ≠ [] := ne_nil_of_length_pos hpositive
      refine ⟨{ r.setDeviceAddr (p + 1) (first (before ++ after) ||| multiFlag) with
          multiDevAddress := c }, _, ?_,
        h.change hholds (fun q hq => setDeviceAddr_of_ne hq) hptr (fun hnil => absurd hnil hne)
        (fun _ => ⟨setDeviceAddr_self.trans (Nat.or_comm _ _), hmore, hrest ▸ hrestNodup, hself⟩)
        hpages⟩
      rw [ReverseMap.removeDevice, hlookup, if_neg hmulti, h.mask hp, hunregister]
      simp only [decide_eq_true hmore]
      rfl
    case neg =>
      -- one device page remains, and moves in line
      obtain ⟨rest, hone⟩ := length_eq_one_iff.mp
        (le_antisymm (le_of_lt_succ (Nat.lt_of_not_le hmore)) hpositive)
      have hchain : Function.update chains p (before ++ after) p = [rest] := by
        rw [update_self, hone]
      obtain ⟨c', hrelease, hholds'⟩ := hholds.releaseEntry_spec hchain
      rw [update_idem] at hholds'
      rw [update_self] at hrelease
      have hrestValue : ptr rest.2 = p + 1 := by
        have hmem : rest.2 ∈ values (before ++ after) := by rw [hone]; exact mem_cons_self
        exact (aliases_clear.mp ((hself _).mpr hmem)).2
      obtain ⟨hrestPos, hrestLt⟩ := h.pages rest.2 (by omega)
      refine ⟨{ r.setDeviceAddr (p + 1) rest.2 with multiDevAddress := c' }, _, ?_,
        h.change hholds' (fun q hq => setDeviceAddr_of_ne hq) hptr (fun _ => ?_)
        (fun hne => absurd rfl hne) hpages⟩
      · rw [ReverseMap.removeDevice, hlookup, if_neg hmulti, h.mask hp, hunregister]
        simp only [decide_eq_false hmore, Option.bind_eq_bind, Option.bind_some, Bool.not_false,
          if_true, hrelease]
        rfl
      · show (r.setDeviceAddr (p + 1) rest.2).compressedDeviceAddr p < 2 ^ 31 ∧ ∀ e, _ ↔ e ≠ 0 ∧
          e = (r.setDeviceAddr (p + 1) rest.2).compressedDeviceAddr p
        rw [setDeviceAddr_self]
        refine ⟨by omega, fun e => ?_⟩
        rw [hself, hone]
        show e ∈ [rest.2] ↔ _
        rw [mem_singleton]
        exact ⟨fun he => ⟨he ▸ hrestPos, he⟩, fun he => he.2⟩

end Sudachi.Core.DeviceMemory

namespace Sudachi.Core.DeviceMemoryManager

open Sudachi.Foundations Sudachi.Foundations.Runs DeviceMemory

/-- The map back has not left a chain, and is exact. -/
def ReverseExact (d : DeviceMemoryManager) : Prop :=
  ∃ r, d.reverse = some r ∧ r.Exact d.compressedPhysicalPtr

/-- The pages of the call are pages of the device, and the pointers that it finds lie in the backing
memory. -/
def Operation.Fits (t : Traits) : Operation → Prop
  | .map memory address _ size _ _ => address >>> pageBits + pageCount size ≤ t.devicePages ∧
      ∀ v raw, memory v = some raw → raw < t.physicalSize
  | .trackContinuity memory address _ size => address >>> pageBits + pageCount size ≤ t.devicePages ∧
      ∀ v raw, memory v = some raw → raw < t.physicalSize
  | .unmap address size => address >>> pageBits + pageCount size ≤ t.devicePages

/-- The call fits, and a `Map` is one of device pages that are not mapped. -/
def MapsUnmapped (t : Traits) (d : DeviceMemoryManager) (op : Operation) : Prop :=
  op.Fits t ∧ match op with
    | .map _ address _ size _ _ =>
      ∀ i < pageCount size, d.compressedPhysicalPtr (address >>> pageBits + i) = 0
    | _ => True

/-- A `Map` begins behind the first device page, as the addresses of the allocator do. -/
def Operation.BehindFirst : Operation → Prop
  | .map _ address _ _ _ _ => 1 ≤ address >>> pageBits
  | _ => True

/-- The map back tracks the table of physical pages. -/
def ReverseTracks (n : Nat) (d : DeviceMemoryManager) : Prop :=
  ∃ r chains, d.reverse = some r ∧ Tracks n r d.compressedPhysicalPtr chains

variable {t : Traits} {d : DeviceMemoryManager} {n page newVaddress asid : Nat} {ptr : Option Nat}

theorem ReverseTracks.exact (h : d.ReverseTracks n) : d.ReverseExact := by
  obtain ⟨r, chains, hr, htracks⟩ := h
  exact ⟨r, hr, htracks.exact⟩

theorem reverseTracks_initial : initial.ReverseTracks n := ⟨_, _, rfl, tracks_initial⟩

theorem devicePages_room (t : Traits) : t.devicePages + 1 < 2 ^ 31 := by
  have hle : 2 ^ t.deviceVirtualBits ≤ 2 ^ 42 :=
    Nat.pow_le_pow_right (two_pos) t.deviceVirtualBits_le
  rw [Traits.devicePages, Traits.deviceAsSize, Nat.shiftRight_eq_div_pow, pageBits]
  omega

/-- The word for a pointer into the backing memory does not wrap. -/
theorem physAddrOf_some {raw : Nat} (h : raw < t.physicalSize) :
    physAddrOf (some raw) = raw >>> pageBits + 1 := by
  have hle : t.physicalSize ≤ 2 ^ 42 := Nat.pow_le_pow_right (two_pos) t.physicalBits_le
  rw [physAddrOf, Nat.shiftRight_eq_div_pow, pageBits]
  omega

@[simp] theorem compressedPhysicalPtr_mapPage :
    (d.mapPage page newVaddress asid ptr).compressedPhysicalPtr =
    Function.update d.compressedPhysicalPtr page (physAddrOf ptr) := by
  cases ptr <;> rfl

@[simp] theorem compressedPhysicalPtr_unmapPage : (d.unmapPage page).compressedPhysicalPtr =
    Function.update d.compressedPhysicalPtr page 0 := rfl

theorem ReverseTracks.mapPage (h : d.ReverseTracks n) (hn : n + 1 < 2 ^ 31)
    (hunmapped : d.compressedPhysicalPtr page = 0) (hpos : page ≠ 0) (hlt : page < n)
    (hptr : ∀ raw, ptr = some raw → raw < t.physicalSize) :
    (d.mapPage page newVaddress asid ptr).ReverseTracks n := by
  obtain ⟨r, chains, hr, htracks⟩ := h
  cases ptr with
  | none =>
    refine ⟨r, chains, hr, ?_⟩
    rwa [compressedPhysicalPtr_mapPage, physAddrOf, ← hunmapped, Function.update_eq_self]
  | some raw =>
    obtain ⟨r', chains', hinsert, htracks'⟩ :=
      @Tracks.insertDevice_spec n (raw >>> pageBits) page r _ chains htracks hn hunmapped hpos hlt
    refine ⟨r', chains', ?_, ?_⟩
    · show d.reverse.bind _ = _
      rw [hr, Option.bind_some, physAddrOf_some (hptr raw rfl), Nat.mod_eq_of_lt (by omega), hinsert]
    · rwa [compressedPhysicalPtr_mapPage, physAddrOf_some (hptr raw rfl)]

theorem ReverseTracks.unmapPage (h : d.ReverseTracks n) (hn : n + 1 < 2 ^ 31) (hlt : page < n) :
    (d.unmapPage page).ReverseTracks n := by
  obtain ⟨r, chains, hr, htracks⟩ := h
  cases hphys : d.compressedPhysicalPtr page with
  | zero =>
    refine ⟨r, chains, ?_, ?_⟩
    · simp [DeviceMemoryManager.unmapPage, hphys, hr]
    · rwa [compressedPhysicalPtr_unmapPage, ← hphys, Function.update_eq_self]
  | succ p =>
    obtain ⟨r', chains', hremove, htracks'⟩ := htracks.removeDevice_spec hn hphys
    refine ⟨r', chains', ?_, htracks'⟩
    simp only [DeviceMemoryManager.unmapPage, hphys, if_neg (Nat.succ_ne_zero p), hr,
      Option.bind_some]
    rw [Nat.mod_eq_of_lt (by omega), hremove]

/-- The pages of a call, one after the other, as the loops of `Map` and `Unmap` go over them. -/
theorem foldl_pages {P : Nat → DeviceMemoryManager → Prop} {f : DeviceMemoryManager → Nat →
    DeviceMemoryManager} {count : Nat} (h : P 0 d)
    (hstep : ∀ i d, i < count → P i d → P (i + 1) (f d i)) :
    P count ((List.range count).foldl f d) := by
  induction count with
  | zero => exact h
  | succ count ih =>
    rw [List.range_succ, List.foldl_append]
    exact hstep count _ (Nat.lt_succ_self _) (ih fun i d hi => hstep i d (Nat.lt_succ_of_lt hi))

/-- One call keeps the map back. -/
theorem ReverseTracks.apply {op : Operation} (h : d.ReverseTracks t.devicePages)
    (hmaps : MapsUnmapped t d op) (hbehind : op.BehindFirst) :
    (d.apply op).ReverseTracks t.devicePages := by
  have hn := devicePages_room t
  obtain ⟨hfits, hmaps⟩ := hmaps
  cases op with
  | map memory address virtualAddress size asid track =>
    obtain ⟨hlimit, hmemory⟩ := hfits
    have hbehind : 1 ≤ address >>> pageBits := hbehind
    have hmapped : ((List.range (pageCount size)).foldl (fun d i =>
        d.mapPage (address >>> pageBits + i) (virtualAddress + i * pageSize) asid
          (memory (virtualAddress + i * pageSize))) d).ReverseTracks t.devicePages := by
      -- the pages still to be mapped are not mapped yet
      refine (foldl_pages (P := fun i d => d.ReverseTracks t.devicePages ∧ ∀ j, i ≤ j →
        j < pageCount size → d.compressedPhysicalPtr (address >>> pageBits + j) = 0)
        ⟨h, fun j _ hj => hmaps j hj⟩ fun i d hi hd => ⟨?_, fun j hij hj => ?_⟩).1
      · exact hd.1.mapPage hn (hd.2 i le_rfl hi) (by omega) (by omega)
          fun raw hraw => hmemory _ raw hraw
      · rw [compressedPhysicalPtr_mapPage, Function.update_of_ne (by omega)]
        exact hd.2 j (by omega) hj
    rw [DeviceMemoryManager.apply, DeviceMemoryManager.map]
    split
    · exact hmapped
    · exact hmapped
  | trackContinuity memory address virtualAddress size => exact h
  | unmap address size =>
    have hlimit : address >>> pageBits + pageCount size ≤ t.devicePages := hfits
    exact foldl_pages (P := fun _ d => d.ReverseTracks t.devicePages) h
      fun i d hi hd => hd.unmapPage hn (by omega)

/-- In every state of a run that maps device pages while they are not mapped, none of them the first
one, the device pages recorded for a physical page are those that are mapped to it, each once, and no
walk has left its chain. -/
theorem throughout_reverseExact (t : Traits) (ops : List Operation)
    (h : Along apply (fun d op => MapsUnmapped t d op ∧ op.BehindFirst) initial ops) :
    Throughout apply ReverseExact initial ops :=
  throughout_of_along (fun _ hd => hd.exact)
    (fun _ _ hd hop => ReverseTracks.apply hd hop.1 hop.2) reverseTracks_initial h

/-- Two device pages share the first physical page, and the one of them is unmapped. -/
def sharedRun (page : Nat) : List Operation :=
  [.map (fun _ => some 0) (page * pageSize) 0 pageSize 0 false,
    .map (fun _ => some 0) (5 * pageSize) 0 pageSize 0 false, .unmap (page * pageSize) pageSize]

theorem pageCount_pageSize : pageCount pageSize = 1 := by decide

theorem devicePages_maxwell : maxwellDeviceTraits.devicePages = 2 ^ 22 := by decide

theorem sharedRun_mapsUnmapped {page : Nat} (hpage : page < 5) :
    Along apply (MapsUnmapped maxwellDeviceTraits) initial (sharedRun page) := by
  have hstart : ∀ k, (k * pageSize) >>> pageBits = k := fun k => by
    rw [Nat.shiftRight_eq_div_pow, pageSize, Nat.mul_div_cancel _ (Nat.two_pow_pos _)]
  have hmemory : ∀ _ raw : Nat, some 0 = some raw → raw < maxwellDeviceTraits.physicalSize := by
    intro _ raw hraw
    rw [← Option.some.inj hraw]
    exact Nat.two_pow_pos _
  refine ⟨⟨⟨?_, hmemory⟩, fun i _ => rfl⟩, ⟨⟨?_, hmemory⟩, fun i hi => ?_⟩, ⟨?_, trivial⟩, trivial⟩
  · rw [hstart, pageCount_pageSize, devicePages_maxwell]
    omega
  · rw [hstart, pageCount_pageSize, devicePages_maxwell]
    omega
  · rw [pageCount_pageSize] at hi
    rw [hstart, apply, DeviceMemoryManager.map, pageCount_pageSize, hstart]
    show Function.update _ (page + 0) _ _ = 0
    rw [Function.update_of_ne (by omega)]
    rfl
  · show (page * pageSize) >>> pageBits + _ ≤ _
    rw [hstart, pageCount_pageSize, devicePages_maxwell]
    omega

theorem throughout_reverseExact_sharedRun :
    Throughout apply ReverseExact initial (sharedRun 1) := by
  refine throughout_reverseExact maxwellDeviceTraits _ ((sharedRun_mapsUnmapped (by decide)).and ?_)
  exact ⟨(by decide : 1 ≤ (1 * pageSize) >>> pageBits),
    (by decide : 1 ≤ (5 * pageSize) >>> pageBits), trivial, trivial⟩

/-- The number of the first device page stands for none where it is kept in line: the other device page
takes its place, and is forgotten with it. -/
theorem unmap_first_page_forgets_another :
    Along apply (MapsUnmapped maxwellDeviceTraits) initial (sharedRun 0) ∧
      ¬Throughout apply ReverseExact initial (sharedRun 0) := by
  refine ⟨sharedRun_mapsUnmapped (by decide), fun h => ?_⟩
  obtain ⟨-, -, -, r, hr, hexact, -⟩ := h
  obtain ⟨l, hl, -, hmem⟩ := hexact 0
  have hword : r = { compressedDeviceAddr := Function.update (Function.update (Function.update
      (fun _ => 0) 0 0) 0 5) 0 0, multiDevAddress := {} } := (Option.some.inj hr).symm
  have hnil : l = [] := by
    rw [hword] at hl
    exact (Option.some.inj hl).symm
  have hfive : 5 ∈ l := (hmem 5).mpr rfl
  rw [hnil] at hfive
  exact List.not_mem_nil hfive

end Sudachi.Core.DeviceMemoryManager
