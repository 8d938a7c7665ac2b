import Sudachi.Common.AddressSpace

/-!
# The function of a flat address space map

A vector of blocks stands for a function from virtual addresses (`mappingAt`). `Resumes` says that a
list of blocks goes on from an address as another one does; both operations of the map keep what
starts before their range and end in such a list.
-/

set_option autoImplicit false

namespace Sudachi.Common

open Sudachi.Foundations List Option

section Mapping

variable {Pa Extra : Type} (sp : Split Pa)

/-- What holds between neighbours: they are in order, not both unmapped, and no address of a mapped
block is the one that stands for none. -/
structure Block.Follows (a b : Block Pa Extra) : Prop where
  lt : a.virt < b.virt
  notBoth : ¬(a.Unmapped sp ∧ b.Unmapped sp)
  advance_ne : ¬a.Unmapped sp → ∀ n, a.virt + n < b.virt → sp.advance a.phys n ≠ sp.unmappedPa

structure WellFormed (blocks : List (Block Pa Extra)) : Prop where
  first : ∃ b ∈ blocks.head?, b.virt = 0
  chain : blocks.IsChain (Block.Follows sp)
  last : ∀ b ∈ blocks.getLast?, b.Unmapped sp

variable {sp} {a b : Block Pa Extra} {old l r : List (Block Pa Extra)} {x va : Nat}

theorem Block.Follows.earlier (h : a.Follows sp b) {c : Block Pa Extra} (hlt : a.virt < c.virt)
    (hle : c.virt ≤ b.virt) (hboth : ¬(a.Unmapped sp ∧ c.Unmapped sp)) : a.Follows sp c :=
  ⟨hlt, hboth, fun hmapped n hn => h.advance_ne hmapped n (lt_of_lt_of_le hn hle)⟩

theorem pairwise_of_isChain (h : l.IsChain (Block.Follows sp)) :
    l.Pairwise fun a b => a.virt < b.virt := by
  have hchain : l.IsChain fun a b => a.virt < b.virt := h.imp fun _ _ hfollows => hfollows.lt
  have : Trans (fun a b : Block Pa Extra => a.virt < b.virt)
      (fun a b : Block Pa Extra => a.virt < b.virt) (fun a b : Block Pa Extra => a.virt < b.virt) :=
    ⟨fun h₁ h₂ => lt_trans h₁ h₂⟩
  exact isChain_iff_pairwise.mp hchain

theorem WellFormed.right (h : WellFormed sp (l ++ r)) :
    r.IsChain (Block.Follows sp) ∧ ∀ b ∈ r.getLast?, b.Unmapped sp := by
  refine ⟨h.chain.right_of_append, fun b hb => h.last b ?_⟩
  rw [getLast?_append, mem_def.mp hb]
  rfl

/-- A mapped block has a successor, and no address of it before that one stands for none. -/
theorem WellFormed.advance_ne (h : WellFormed sp (l ++ b :: r)) (hb : b.virt ≤ x)
    (hr : ∀ c ∈ r, x < c.virt) (hmapped : ¬b.Unmapped sp) :
    sp.advance b.phys (x - b.virt) ≠ sp.unmappedPa := by
  obtain ⟨hchain, hlast⟩ := h.right
  cases r with
  | nil => exact absurd (hlast b rfl) hmapped
  | cons c r =>
    have hfollows := (isChain_cons_cons.mp hchain).1
    have hlt := hr c mem_cons_self
    exact hfollows.advance_ne hmapped _ (by omega)

theorem WellFormed.follows_cut (h : WellFormed sp (l ++ b :: r)) (hlt : b.virt < a.virt)
    (hr : ∀ c ∈ r, a.virt ≤ c.virt) (hboth : ¬(b.Unmapped sp ∧ a.Unmapped sp)) :
    b.Follows sp a := by
  obtain ⟨hchain, hlast⟩ := h.right
  cases r with
  | nil => exact ⟨hlt, hboth, fun hmapped => absurd (hlast b rfl) hmapped⟩
  | cons c r =>
    exact (isChain_cons_cons.mp hchain).1.earlier hlt (hr c mem_cons_self) hboth

/-- Blocks put after what starts before a range, and followed by a list that ends well. -/
theorem WellFormed.replace (h : WellFormed sp (l ++ b :: r)) {new : List (Block Pa Extra)}
    (hchain : new.IsChain (Block.Follows sp)) (hhead : ∀ c ∈ new.head?, b.Follows sp c)
    (hlast : ∀ c ∈ new.getLast?, c.Unmapped sp) (hnil : new = [] → b.Unmapped sp) :
    WellFormed sp (l ++ b :: new) := by
  constructor
  case first =>
    obtain ⟨c, hc, hzero⟩ := h.first
    refine ⟨c, ?_, hzero⟩
    cases l <;> exact hc
  case chain =>
    have hleft := h.chain
    rw [isChain_split] at hleft ⊢
    exact ⟨hleft.1, isChain_cons.mpr ⟨hhead, hchain⟩⟩
  case last =>
    intro c hc
    cases new with
    | nil =>
      rw [getLast?_concat] at hc
      cases some.inj hc
      exact hnil rfl
    | cons d new =>
      refine hlast c ?_
      rw [getLast?_append, getLast?_cons_cons] at hc
      cases hd : (d :: new).getLast? with
      | none => simp at hd
      | some e =>
        rw [hd] at hc
        exact hc

section Values

variable [DecidableEq Pa]

/-- What a block says of an address that it is in force at. -/
def Block.valueAt (sp : Split Pa) (b : Block Pa Extra) (va : Nat) : Option (Pa × Extra) :=
  if b.Unmapped sp then none else some (sp.advance b.phys (va - b.virt), b.extraInfo)

/-- The physical address and the extra information of a virtual address, unless it is unmapped. -/
def mappingAt (sp : Split Pa) (blocks : List (Block Pa Extra)) (va : Nat) : Option (Pa × Extra) :=
  (inForce Block.virt va blocks).bind fun b => b.valueAt sp va

variable {rest : List (Block Pa Extra)}

theorem Block.valueAt_eq_none (h : b.Unmapped sp) (va : Nat) : b.valueAt sp va = none :=
  if_pos h

theorem Block.tail_unmapped_iff (hne : ¬b.Unmapped sp → sp.advance b.phys (x - b.virt) ≠
    sp.unmappedPa) : (b.tail sp x).Unmapped sp ↔ b.Unmapped sp := by
  by_cases h : b.Unmapped sp
  · have htail : (b.tail sp x).phys = b.phys := if_pos h
    exact iff_of_true (htail.trans h) h
  · have htail : (b.tail sp x).phys = sp.advance b.phys (x - b.virt) := if_neg h
    exact iff_of_false (fun heq => hne h (htail.symm.trans heq)) h

theorem Block.valueAt_tail (hne : ¬b.Unmapped sp → sp.advance b.phys (x - b.virt) ≠ sp.unmappedPa)
    (hb : b.virt ≤ x) (hx : x ≤ va) : (b.tail sp x).valueAt sp va = b.valueAt sp va := by
  by_cases h : b.Unmapped sp
  · rw [Block.valueAt_eq_none h, Block.valueAt_eq_none ((Block.tail_unmapped_iff hne).mpr h)]
  · rw [Block.valueAt, if_neg (mt (Block.tail_unmapped_iff hne).mp h), Block.valueAt, if_neg h]
    simp only [Block.tail, Block.tailPhys, if_neg h, sp.advance_add]
    have hsum : x - b.virt + (va - x) = va - b.virt := by omega
    rw [hsum]

theorem mappingAt_append_of_lt (h : ∀ c ∈ r, va < c.virt) :
    mappingAt sp (l ++ r) va = mappingAt sp l va := by
  rw [mappingAt, inForce_append_left h, mappingAt]

/-- Where something of the right part is in force, only the right part counts. -/
theorem mappingAt_append_of_some {c : Block Pa Extra} (h : inForce Block.virt va r = some c) :
    mappingAt sp (l ++ r) va = mappingAt sp r va := by
  rw [mappingAt, inForce_append, h, some_or, mappingAt, h]

theorem mappingAt_append_cons (hb : b.virt ≤ va) :
    mappingAt sp (l ++ b :: r) va = mappingAt sp (b :: r) va := by
  cases h : inForce Block.virt va (b :: r) with
  | some c => exact mappingAt_append_of_some h
  | none =>
    have hmem : b ∈ ((b :: r).filter fun a => a.virt ≤ va) := by simp [hb]
    rw [inForce, getLast?_eq_none_iff] at h
    rw [h] at hmem
    exact absurd hmem not_mem_nil

/-- A block that starts the list and is unmapped says no more than a list that starts later. -/
theorem mappingAt_cons_unmapped (h : b.Unmapped sp) :
    mappingAt sp (b :: r) va = mappingAt sp r va := by
  rw [← singleton_append, mappingAt, inForce_append, mappingAt]
  cases inForce Block.virt va r with
  | some c => rfl
  | none =>
    rw [none_or, bind_none]
    cases hb : inForce Block.virt va [b] with
    | none => rfl
    | some c =>
      have hmem := (mem_of_inForce hb).1
      rw [mem_singleton] at hmem
      rw [bind_some, hmem]
      exact Block.valueAt_eq_none h va

theorem mappingAt_singleton_append (hb : b.virt ≤ va) (hr : ∀ c ∈ r, va < c.virt) :
    mappingAt sp (l ++ b :: r) va = b.valueAt sp va := by
  rw [mappingAt_append_cons hb, ← singleton_append, mappingAt_append_of_lt hr, mappingAt,
    inForce_singleton hb, bind_some]

/-- `l` says of the addresses from `x` on what `old` says of them. -/
structure Resumes (sp : Split Pa) (old : List (Block Pa Extra)) (x : Nat)
    (l : List (Block Pa Extra)) : Prop where
  chain : l.IsChain (Block.Follows sp)
  starts : ∀ b ∈ l, x ≤ b.virt
  last : ∀ b ∈ l.getLast?, b.Unmapped sp
  agrees : ∀ va, x ≤ va → mappingAt sp l va = mappingAt sp old va

theorem resumes_of_start (h : WellFormed sp (l ++ b :: r)) (hb : b.virt = x) :
    Resumes sp (l ++ b :: r) x (b :: r) := by
  obtain ⟨hchain, hlast⟩ := h.right
  refine ⟨hchain, ?_, hlast, fun va hva => (mappingAt_append_cons (by omega)).symm⟩
  have hsorted := pairwise_of_isChain hchain
  intro c hc
  rcases mem_cons.mp hc with rfl | hc
  · exact le_of_eq hb.symm
  · exact hb ▸ le_of_lt ((pairwise_cons.mp hsorted).1 c hc)

theorem resumes_tail (h : WellFormed sp (l ++ b :: r)) (hb : b.virt ≤ x)
    (hr : ∀ c ∈ r, x < c.virt) : Resumes sp (l ++ b :: r) x (b.tail sp x :: r) := by
  have hne := h.advance_ne hb hr
  obtain ⟨hchain, hlast⟩ := h.right
  have htail := Block.tail_unmapped_iff hne
  constructor
  case chain =>
    rw [isChain_cons] at hchain ⊢
    refine ⟨fun c hc => ?_, hchain.2⟩
    have hfollows := hchain.1 c hc
    have hc' := hr c (mem_of_mem_head? hc)
    refine ⟨hc', fun hboth => hfollows.notBoth ⟨htail.mp hboth.1, hboth.2⟩, fun hmapped n hn => ?_⟩
    have hmapped' := mt htail.mpr hmapped
    simp only [Block.tail, Block.tailPhys, if_neg hmapped', sp.advance_add] at hn ⊢
    exact hfollows.advance_ne hmapped' _ (by omega)
  case starts =>
    intro c hc
    rcases mem_cons.mp hc with rfl | hc
    · exact le_refl x
    · exact le_of_lt (hr c hc)
  case last =>
    intro c hc
    cases r with
    | nil =>
      cases some.inj hc
      exact htail.mpr (hlast b rfl)
    | cons d r => exact hlast c hc
  case agrees =>
    intro va hva
    rw [mappingAt_append_cons (by omega)]
    cases hforce : inForce Block.virt va r with
    | some c =>
      rw [← singleton_append, mappingAt_append_of_some hforce, ← singleton_append,
        mappingAt_append_of_some hforce]
    | none =>
      -- nothing of the rest is in force yet: the block and its tail say the same
      have hval := Block.valueAt_tail hne hb hva
      rw [← singleton_append, mappingAt, inForce_append, hforce, none_or,
        inForce_singleton (show (b.tail sp x).virt ≤ va from hva), ← singleton_append,
        mappingAt, inForce_append, hforce, none_or, inForce_singleton (by omega)]
      exact hval

theorem resumes_of_unmapped (h : WellFormed sp (l ++ b :: r)) (hunmapped : b.Unmapped sp)
    (hb : b.virt ≤ x) (hr : ∀ c ∈ r, x ≤ c.virt) : Resumes sp (l ++ b :: r) x r := by
  obtain ⟨hchain, hlast⟩ := h.right
  refine ⟨hchain.tail, hr, fun c hc => hlast c ?_, fun va hva => ?_⟩
  · rw [getLast?_cons, mem_def.mp hc]
    rfl
  · rw [mappingAt_append_cons (by omega), mappingAt_cons_unmapped hunmapped]

theorem Resumes.tail_of_unmapped (h : Resumes sp old x (b :: r)) (hb : b.Unmapped sp) :
    Resumes sp old x r := by
  refine ⟨h.chain.tail, fun c hc => h.starts c (mem_cons_of_mem b hc),
    fun c hc => h.last c ?_, fun va hva => ?_⟩
  · rw [getLast?_cons, mem_def.mp hc]
    rfl
  · rw [← h.agrees va hva, mappingAt_cons_unmapped hb]

/-- After an unmapped block that reaches to the end, the vector may end in another one. -/
theorem resumes_singleton (h : WellFormed sp (l ++ [b])) (hb : b.virt ≤ x) (ha : a.Unmapped sp)
    (hx : a.virt = x) : Resumes sp (l ++ [b]) x [a] := by
  have hunmapped := h.right.2 b rfl
  have hnil := resumes_of_unmapped h hunmapped hb (by simp)
  refine ⟨isChain_singleton a, by simp [hx], ?_, fun va hva => ?_⟩
  · intro c hc
    exact some.inj hc ▸ ha
  · rw [mappingAt_cons_unmapped ha]
    exact hnil.agrees va hva

/-! ## The vector after an operation -/

/-- A function with other values on `[lo, hi)`. -/
def updateRange {β : Type} (f : Nat → β) (lo hi : Nat) (g : Nat → β) (va : Nat) : β :=
  if lo ≤ va ∧ va < hi then g va else f va

theorem mappingAt_before {r' : List (Block Pa Extra)} (hva : va < x) (hr : ∀ c ∈ r, x ≤ c.virt)
    (hr' : ∀ c ∈ r', x ≤ c.virt) :
    mappingAt sp (l ++ b :: r) va = mappingAt sp (l ++ b :: r') va := by
  rw [append_cons l b r, mappingAt_append_of_lt fun c hc => lt_of_lt_of_le hva (hr c hc),
    append_cons l b r', mappingAt_append_of_lt fun c hc => lt_of_lt_of_le hva (hr' c hc)]

variable {virt virtEnd : Nat}

/-- A mapped block over the range, then what comes after the range. -/
theorem WellFormed.map_range (h : WellFormed sp (l ++ b :: r)) (hb : b.virt < virt)
    (hr : ∀ c ∈ r, virt ≤ c.virt) (hlt : virt < virtEnd) {new : Block Pa Extra}
    (hnew : new.virt = virt) (hne : ∀ n, virt + n < virtEnd → sp.advance new.phys n ≠ sp.unmappedPa)
    (hmapped : ¬new.Unmapped sp) {t : Block Pa Extra}
    (hrest : Resumes sp (l ++ b :: r) virtEnd (t :: rest)) (ht : t.virt = virtEnd) :
    WellFormed sp (l ++ b :: new :: t :: rest) ∧
      ∀ va, mappingAt sp (l ++ b :: new :: t :: rest) va =
        updateRange (mappingAt sp (l ++ b :: r)) virt virtEnd
          (fun va => some (sp.advance new.phys (va - virt), new.extraInfo)) va := by
  have hfollows : new.Follows sp t :=
    ⟨by omega, fun hboth => hmapped hboth.1, fun _ n hn => hne n (by omega)⟩
  have hafter : ∀ c ∈ new :: t :: rest, virt ≤ c.virt :=
    forall_mem_cons.mpr ⟨le_of_eq hnew.symm, fun c hc => by have := hrest.starts c hc; omega⟩
  refine ⟨h.replace (isChain_cons_cons.mpr ⟨hfollows, hrest.chain⟩) ?_ ?_ ?_, fun va => ?_⟩
  · intro c hc
    cases some.inj hc
    exact h.follows_cut (by omega) (fun c hc => hnew ▸ hr c hc) fun hboth => hmapped hboth.2
  · intro c hc
    exact hrest.last c (by rwa [getLast?_cons_cons] at hc)
  · exact fun hnil => absurd hnil (cons_ne_nil _ _)
  · rw [updateRange]
    split_ifs with hrange
    · have hsplit : l ++ b :: new :: t :: rest = (l ++ [b]) ++ new :: (t :: rest) := by simp
      have hlater : ∀ c ∈ t :: rest, va < c.virt := fun c hc => by
        have := hrest.starts c hc
        omega
      rw [hsplit, mappingAt_singleton_append (by omega) hlater, Block.valueAt, if_neg hmapped, hnew]
    · by_cases hva : va < virt
      · exact mappingAt_before hva hafter hr
      · have hsplit : l ++ b :: new :: t :: rest = (l ++ [b, new]) ++ t :: rest := by simp
        rw [hsplit, mappingAt_append_cons (by omega), hrest.agrees va (by omega)]

/-- An unmapped block in force from the start of the range, then what comes after the range. -/
theorem mappingAt_unmapped_from {u : Block Pa Extra} (hu : u.Unmapped sp) (hstart : u.virt ≤ virt)
    (hva : virt ≤ va) (hrest : Resumes sp old virtEnd rest) : mappingAt sp (l ++ u :: rest) va =
      updateRange (mappingAt sp old) virt virtEnd (fun _ => none) va := by
  rw [mappingAt_append_cons (by omega), mappingAt_cons_unmapped hu, updateRange]
  split_ifs with hrange
  · rw [mappingAt, inForce_eq_none, bind_none]
    intro c hc
    have := hrest.starts c hc
    omega
  · exact hrest.agrees va (by omega)

section

variable (h : WellFormed sp (l ++ b :: r)) (hb : b.virt < virt) (hr : ∀ c ∈ r, virt ≤ c.virt)
include h hb hr

/-- The block before the range is mapped: an unmapped one starts with the range. -/
theorem WellFormed.unmap_range (hlt : virt < virtEnd) (hmapped : ¬b.Unmapped sp)
    {u : Block Pa Extra} (hu : u.Unmapped sp) (hvirt : u.virt = virt)
    (hrest : Resumes sp (l ++ b :: r) virtEnd rest) (hhead : ∀ c ∈ rest.head?, ¬c.Unmapped sp) :
    WellFormed sp (l ++ b :: u :: rest) ∧ ∀ va, mappingAt sp (l ++ b :: u :: rest) va =
        updateRange (mappingAt sp (l ++ b :: r)) virt virtEnd (fun _ => none) va := by
  have hafter : ∀ c ∈ u :: rest, virt ≤ c.virt :=
    forall_mem_cons.mpr ⟨le_of_eq hvirt.symm, fun c hc => by have := hrest.starts c hc; omega⟩
  refine ⟨h.replace (isChain_cons.mpr ⟨?_, hrest.chain⟩) ?_ ?_ ?_, fun va => ?_⟩
  · intro c hc
    have hc' := hrest.starts c (mem_of_mem_head? hc)
    exact ⟨by omega, fun hboth => hhead c hc hboth.2, fun hne => absurd hu hne⟩
  · intro c hc
    cases some.inj hc
    exact h.follows_cut (by omega) (fun c hc => hvirt ▸ hr c hc) fun hboth => hmapped hboth.1
  · intro c hc
    cases rest with
    | nil => exact some.inj hc ▸ hu
    | cons d rest => exact hrest.last c hc
  · exact fun hnil => absurd hnil (cons_ne_nil _ _)
  · by_cases hva : va < virt
    · rw [updateRange, if_neg (by omega)]
      exact mappingAt_before hva hafter hr
    · have hsplit : l ++ b :: u :: rest = (l ++ [b]) ++ u :: rest := by simp
      rw [hsplit]
      exact mappingAt_unmapped_from hu (le_of_eq hvirt) (by omega) hrest

/-- The block before the range is unmapped and reaches over the range. -/
theorem WellFormed.unmap_range_merge (hle : virt ≤ virtEnd) (hunmapped : b.Unmapped sp)
    (hrest : Resumes sp (l ++ b :: r) virtEnd rest) (hhead : ∀ c ∈ rest.head?, ¬c.Unmapped sp) :
    WellFormed sp (l ++ b :: rest) ∧ ∀ va, mappingAt sp (l ++ b :: rest) va =
        updateRange (mappingAt sp (l ++ b :: r)) virt virtEnd (fun _ => none) va := by
  refine ⟨h.replace hrest.chain ?_ hrest.last fun _ => hunmapped, fun va => ?_⟩
  · intro c hc
    have hc' := hrest.starts c (mem_of_mem_head? hc)
    exact ⟨by omega, fun hboth => hhead c hc hboth.2, fun hne => absurd hunmapped hne⟩
  · by_cases hva : va < virt
    · have hafter : ∀ c ∈ rest, virt ≤ c.virt := fun c hc => le_trans hle (hrest.starts c hc)
      rw [updateRange, if_neg (by omega)]
      exact mappingAt_before hva hafter hr
    · exact mappingAt_unmapped_from hunmapped (le_of_lt hb) (by omega) hrest

end

end Values

end Mapping

end Sudachi.Common
