import Sudachi.Kernel.HandleTable

/-!
# Runs of the handle table

The callers' view of a handle table is a ledger: the entries that are taken, with the handle that
was given out for each, the object behind it once there is one, and the number of linear ids that
had been issued before its own; and the handles that were removed. `reachable_spec` relates the
table to the ledger in every run. A removed handle stays dead until the linear ids have come round
to its own again, counted from when the handle was issued and not from when it was removed.
-/

set_option autoImplicit false

namespace Sudachi.Kernel

open List Function
open HandlePack (reserved)

namespace KHandleTable

variable {α : Type}

/-! ## Operations and their ledger -/

inductive Operation (α : Type) where
  | initializeTable (size : Int)
  | reserve
  | register (handle : Handle) (obj : α)
  | unreserve (handle : Handle)
  | add (obj : α)
  | remove (handle : Handle)

/-- What an operation returns. -/
inductive Response where
  | done
  | handle (handle : Handle)
  | failed (error : HandleTableError)
  | removed (found : Bool)
  deriving DecidableEq

/-- The result of a call that delivers a handle. -/
def Response.ofExcept : Except HandleTableError Handle → Response
  | .ok h => .handle h
  | .error e => .failed e

/-- One operation; no result is an access outside the table. -/
def perform (t : KHandleTable α) : Operation α → Option (Response × KHandleTable α)
  | .initializeTable size =>
    match t.initializeTable size with
    | .ok t' => some (.done, t')
    | .error error => some (.failed error, t)
  | .reserve => t.reserve.map fun p => (.ofExcept p.1, p.2)
  | .register handle obj => some (.done, t.register handle obj)
  | .unreserve handle => some (.done, t.unreserve handle)
  | .add obj => (t.add obj).map fun p => (.ofExcept p.1, p.2)
  | .remove handle => some (.removed (t.remove handle).1, (t.remove handle).2)

/-- An entry that is taken: reserved as long as there is no object. `birth` linear ids had been
issued before the one in the handle. -/
structure Slot (α : Type) where
  handle : Handle
  birth : Nat
  object : Option α

def Slot.index (s : Slot α) : Nat := HandlePack.index s.handle

structure Ledger (α : Type) where
  slots : List (Slot α)
  removed : List (Handle × Nat)
  issued : Nat

namespace Ledger

def empty : Ledger α := ⟨[], [], 0⟩

/-- The ledger with a handle given out. -/
def issue (g : Ledger α) (handle : Handle) (object : Option α) : Ledger α :=
  { g with slots := ⟨handle, g.issued, object⟩ :: g.slots, issued := g.issued + 1 }

/-- The ledger with an object behind a handle. -/
def fill (g : Ledger α) (handle : Handle) (obj : α) : Ledger α :=
  { g with
    slots := g.slots.map fun s => if s.handle = handle then { s with object := some obj } else s }

/-- The ledger without the slot of a handle. -/
def release (g : Ledger α) (handle : Handle) : Ledger α :=
  { g with slots := g.slots.filter fun s => s.handle ≠ handle }

/-- The ledger after an operation and its response. -/
def record (g : Ledger α) : Operation α → Response → Ledger α
  | .initializeTable _, .done => empty
  | .reserve, .handle handle => g.issue handle none
  | .register handle obj, .done => g.fill handle obj
  | .unreserve handle, .done => g.release handle
  | .add obj, .handle handle => g.issue handle (some obj)
  | .remove handle, .removed true =>
    let dead := g.slots.filter fun s => s.handle = handle
    { g.release handle with removed := dead.map (fun s => (s.handle, s.birth)) ++ g.removed }
  | _, _ => g

/-- What the callers keep to: `Register` and `Unreserve` are for handles that `Reserve` gave out and
that are still reserved. -/
def Allows (g : Ledger α) : Operation α → Prop
  | .register handle _ => ∃ s ∈ g.slots, s.handle = handle ∧ s.object = none
  | .unreserve handle => ∃ s ∈ g.slots, s.handle = handle ∧ s.object = none
  | _ => True

end Ledger

/-- The tables and ledgers of the runs that begin with a successful `Initialize`. -/
inductive Reachable : KHandleTable α → Ledger α → Prop where
  | start {t t' : KHandleTable α} {size : Int} (h : t.initializeTable size = .ok t') :
      Reachable t' .empty
  | step {t t' : KHandleTable α} {g : Ledger α} (op : Operation α) {response : Response}
      (hreach : Reachable t g) (hallowed : g.Allows op)
      (h : t.perform op = some (response, t')) : Reachable t' (g.record op response)

/-! ## Handles -/

theorem index_encodeHandle {i linearId : Nat} (hi : i < maxTableSize) :
    HandlePack.index (encodeHandle i linearId) = i := by
  have hi' : i < 1024 := hi
  rw [HandlePack.index, encodeHandle, BitVec.toNat_ofNat]
  omega

theorem linearId_encodeHandle {i linearId : Nat} (hid : linearId ≤ maxLinearId) :
    HandlePack.linearId (encodeHandle i linearId) = linearId := by
  have hid' : linearId ≤ 0x7FFF := hid
  rw [HandlePack.linearId, encodeHandle, BitVec.toNat_ofNat]
  omega

theorem reserved_encodeHandle (i linearId : Nat) : reserved (encodeHandle i linearId) = 0 := by
  rw [reserved, encodeHandle, BitVec.toNat_ofNat]
  omega

theorem encodeHandle_eq {handle : Handle} (h : reserved handle = 0) :
    encodeHandle (HandlePack.index handle) (HandlePack.linearId handle) = handle := by
  refine BitVec.eq_of_toNat_eq ?_
  simp only [reserved, HandlePack.index, HandlePack.linearId, encodeHandle,
    BitVec.toNat_ofNat] at h ⊢
  omega

/-- The linear id that is issued after `n` others. -/
def linearIdAfter (n : Nat) : Nat := minLinearId + n % maxLinearId

theorem linearIdAfter_bounds (n : Nat) : 1 ≤ linearIdAfter n ∧ linearIdAfter n ≤ maxLinearId := by
  have := Nat.mod_lt n (show 0 < maxLinearId by decide)
  rw [linearIdAfter, minLinearId]
  omega

theorem linearIdAfter_succ (n : Nat) : linearIdAfter (n + 1) =
      if maxLinearId < linearIdAfter n + 1 then minLinearId else linearIdAfter n + 1 := by
  rw [linearIdAfter, linearIdAfter, minLinearId, maxLinearId]
  by_cases h : 0x7FFF < 1 + n % 0x7FFF + 1
  · rw [if_pos h]
    omega
  · rw [if_neg h]
    omega

/-- The same linear id again takes a full round. -/
theorem linearIdAfter_ne {m n : Nat} (hlt : m < n) (hround : n < m + maxLinearId) :
    linearIdAfter n ≠ linearIdAfter m := by
  simp only [linearIdAfter, minLinearId, maxLinearId] at *
  omega

theorem isValidHandle_encodeHandle (t : KHandleTable α) {i n : Nat} (hi : i < maxTableSize) :
    t.isValidHandle (encodeHandle i (linearIdAfter n)) = true ↔
      i < t.tableSize ∧ t.objects i ≠ none ∧ t.linearIdAt i = linearIdAfter n := by
  have hbounds := linearIdAfter_bounds n
  have hid := linearId_encodeHandle (i := i) hbounds.2
  have hne : encodeHandle i (linearIdAfter n) ≠ 0 := by
    intro hzero
    rw [hzero] at hid
    have : HandlePack.linearId (0 : Handle) = 0 := by decide
    omega
  simp only [isValidHandle, hid, index_encodeHandle hi, if_neg hne]
  rw [if_neg (by omega)]
  by_cases hsize : t.tableSize ≤ i
  · simp [hsize]
  · cases hobj : t.objects i with
    | none => simp
    | some obj =>
      have : i < t.tableSize := by omega
      simp [hsize, this]

/-! ## The invariant -/

/-- The table holds what the ledger says, and its free entries are linked in the given order. -/
structure Tracks (t : KHandleTable α) (g : Ledger α) (free : List Nat) : Prop where
  size_le : t.tableSize ≤ maxTableSize
  chain : t.FreeChain t.freeHeadIndex free
  nodup : (free ++ g.slots.map Slot.index).Nodup
  lt_size : ∀ i ∈ free ++ g.slots.map Slot.index, i < t.tableSize
  length : free.length + g.slots.length = t.tableSize
  count : t.count = g.slots.length
  nextLinearId : t.nextLinearId = linearIdAfter g.issued
  freeObjects : ∀ i ∈ free, t.objects i = none
  handles : ∀ s ∈ g.slots, s.handle = encodeHandle s.index (linearIdAfter s.birth)
  births : ∀ s ∈ g.slots, s.birth < g.issued
  objects : ∀ s ∈ g.slots, t.objects s.index = s.object
  linearIds : ∀ s ∈ g.slots, s.object ≠ none → t.linearIdAt s.index = linearIdAfter s.birth
  removed : ∀ r ∈ g.removed, r.1 = encodeHandle (HandlePack.index r.1) (linearIdAfter r.2) ∧
    HandlePack.index r.1 < t.tableSize ∧
    ∀ s ∈ g.slots, s.index = HandlePack.index r.1 → r.2 < s.birth
  removedBirths : ∀ r ∈ g.removed, r.2 < g.issued

section Invariant

variable {t t' : KHandleTable α} {g : Ledger α} {free : List Nat}
variable {s : Slot α} {i : Nat} {handle : Handle}

theorem tracks_cleared (t : KHandleTable α) {n : Nat} (hn : n ≤ maxTableSize) :
    ((range n).foldl freeInitially (t.cleared n)).Tracks .empty (range n).reverse := by
  have hfreed := freedUpTo_foldl (t.cleared n) rfl hn
  have hsize : ((range n).foldl freeInitially (t.cleared n)).tableSize = n := hfreed.tableSize
  constructor
  case size_le =>
    rw [hsize]
    exact hn
  case chain => exact hfreed.chain
  case nodup => simpa [Ledger.empty] using nodup_range
  case lt_size => simp [Ledger.empty, hsize]
  case length => simp [Ledger.empty, hsize]
  case count => exact hfreed.count
  case nextLinearId => exact hfreed.nextLinearId
  case freeObjects => exact fun i hi => hfreed.objects i (by simpa using hi)
  all_goals exact fun x hx => absurd hx not_mem_nil

theorem tracks_of_initializeTable {size : Int} (h : t.initializeTable size = .ok t') :
    ∃ free, t'.Tracks .empty free := by
  rw [initializeTable] at h
  by_cases hsize : size ≤ maxTableSize
  · rw [if_pos hsize] at h
    injection h with h
    rw [← h]
    refine ⟨_, tracks_cleared t ?_⟩
    split_ifs
    · exact le_refl _
    · omega
  · rw [if_neg hsize] at h
    cases h

/-- A free entry is taken and its handle given out. -/
theorem Tracks.issue {object : Option α} (h : t.Tracks g (i :: free))
    (hsize : t'.tableSize = t.tableSize) (hhead : t'.freeHeadIndex = t.nextFreeIndex i)
    (hcount : t'.count = t.count + 1) (hnext : t'.nextLinearId = linearIdAfter (g.issued + 1))
    (hinfos : ∀ j, j ≠ i → t'.entryInfos j = t.entryInfos j)
    (hobjects : ∀ j, j ≠ i → t'.objects j = t.objects j) (hobject : t'.objects i = object)
    (hid : object ≠ none → t'.linearIdAt i = linearIdAfter g.issued) :
    t'.Tracks (g.issue (encodeHandle i (linearIdAfter g.issued)) object) free := by
  have hi : i < t.tableSize := h.lt_size i (by simp)
  have hindex : HandlePack.index (encodeHandle i (linearIdAfter g.issued)) = i :=
    index_encodeHandle (lt_of_lt_of_le hi h.size_le)
  have hnodup := h.nodup
  rw [cons_append, nodup_cons] at hnodup
  obtain ⟨hnot, hnodup⟩ := hnodup
  have hfree : ∀ j ∈ free, j ≠ i := by
    rintro j hj rfl
    exact hnot (mem_append_left _ hj)
  have hslot : ∀ s ∈ g.slots, s.index ≠ i := by
    intro s hs heq
    exact hnot (mem_append_right _ (heq ▸ mem_map_of_mem hs))
  constructor
  case size_le => exact hsize ▸ h.size_le
  case chain =>
    rw [hhead]
    exact h.chain.2.congr fun j hj => hinfos j (hfree j hj)
  case nodup =>
    simp only [Ledger.issue, map_cons, Slot.index, hindex]
    exact nodup_middle.mpr (nodup_cons.mpr ⟨hnot, hnodup⟩)
  case lt_size =>
    intro j hj
    rw [hsize]
    refine h.lt_size j ?_
    simp only [Ledger.issue, map_cons, Slot.index, hindex] at hj
    simp only [mem_append, mem_cons] at hj ⊢
    tauto
  case length =>
    have hlength := h.length
    simp only [Ledger.issue, length_cons, hsize] at hlength ⊢
    omega
  case count => rw [hcount, h.count, Ledger.issue, length_cons]
  case nextLinearId => exact hnext
  case freeObjects =>
    intro j hj
    rw [hobjects j (hfree j hj)]
    exact h.freeObjects j (mem_cons_of_mem i hj)
  case handles =>
    intro s hs
    rcases mem_cons.mp hs with rfl | hs
    · exact (congrArg (encodeHandle · _) hindex).symm
    · exact h.handles s hs
  case births =>
    intro s hs
    rcases mem_cons.mp hs with rfl | hs
    · exact Nat.lt_succ_self _
    · exact Nat.lt_succ_of_lt (h.births s hs)
  case objects =>
    intro s hs
    rcases mem_cons.mp hs with rfl | hs
    · exact (congrArg t'.objects hindex).trans hobject
    · exact (hobjects _ (hslot s hs)).trans (h.objects s hs)
  case linearIds =>
    intro s hs hsome
    rcases mem_cons.mp hs with rfl | hs
    · exact (congrArg t'.linearIdAt hindex).trans (hid hsome)
    · rw [linearIdAt, hinfos _ (hslot s hs)]
      exact h.linearIds s hs hsome
  case removed =>
    intro r hr
    obtain ⟨hhandle, hlt, hlater⟩ := h.removed r hr
    refine ⟨hhandle, hsize ▸ hlt, fun s hs heq => ?_⟩
    rcases mem_cons.mp hs with rfl | hs
    · exact h.removedBirths r hr
    · exact hlater s hs heq
  case removedBirths => exact fun r hr => Nat.lt_succ_of_lt (h.removedBirths r hr)

theorem allocateEntry_of_head (h : t.freeHeadIndex = i) : t.allocateEntry = some (i, { t with
        freeHeadIndex := t.nextFreeIndex i
        count := t.count + 1
        maxCount := max t.maxCount (t.count + 1) }) := by
  rw [allocateEntry, if_pos (by omega), h, Int.toNat_natCast]

theorem Tracks.allocateLinearId (h : t.Tracks g free) : t.allocateLinearId =
      (linearIdAfter g.issued, { t with nextLinearId := linearIdAfter (g.issued + 1) }) := by
  rw [KHandleTable.allocateLinearId, h.nextLinearId, linearIdAfter_succ]

theorem toNat_ofNat_linearIdAfter (n : Nat) :
    (BitVec.ofNat 16 (linearIdAfter n)).toNat = linearIdAfter n := by
  have hbounds : linearIdAfter n ≤ 0x7FFF := (linearIdAfter_bounds n).2
  rw [BitVec.toNat_ofNat]
  omega

/-- The table with the head of the free list taken and `n` linear ids issued. -/
def takeHead (t : KHandleTable α) (i n : Nat) : KHandleTable α :=
  { t with
    freeHeadIndex := t.nextFreeIndex i
    count := t.count + 1
    maxCount := max t.maxCount (t.count + 1)
    nextLinearId := linearIdAfter n }

theorem Tracks.count_lt (h : t.Tracks g (i :: free)) : t.count < t.tableSize := by
  have hlength := h.length
  rw [length_cons] at hlength
  rw [h.count]
  omega

/-- `Add` takes the head of the free list. -/
theorem Tracks.add_head (h : t.Tracks g (i :: free)) (obj : α) :
    ∃ t', t.perform (.add obj) = some (.handle (encodeHandle i (linearIdAfter g.issued)), t') ∧
      t'.Tracks (g.issue (encodeHandle i (linearIdAfter g.issued)) (some obj)) free := by
  have hhead : t.freeHeadIndex = i := h.chain.1
  have halloc := allocateEntry_of_head
    (t := { t with nextLinearId := linearIdAfter (g.issued + 1) }) hhead
  have hadd : t.add obj = some (.ok (encodeHandle i (linearIdAfter g.issued)),
      (t.takeHead i (g.issued + 1)).setEntry i (linearIdAfter g.issued) obj) := by
    rw [KHandleTable.add, if_pos h.count_lt, h.allocateLinearId]
    simp only [halloc]
    rfl
  refine ⟨_, congrArg (Option.map _) hadd, ?_⟩
  refine h.issue rfl rfl rfl rfl (fun j hj => ?_) (fun j hj => ?_) ?_ fun _ => ?_
  · exact update_of_ne hj _ _
  · exact update_of_ne hj _ _
  · exact update_self ..
  · simp only [linearIdAt, setEntry, update_self]
    exact toNat_ofNat_linearIdAfter _

theorem Tracks.reserve_head (h : t.Tracks g (i :: free)) :
    ∃ t', t.perform .reserve = some (.handle (encodeHandle i (linearIdAfter g.issued)), t') ∧
      t'.Tracks (g.issue (encodeHandle i (linearIdAfter g.issued)) none) free := by
  have hreserve : t.reserve =
      some (.ok (encodeHandle i (linearIdAfter g.issued)), t.takeHead i (g.issued + 1)) := by
    rw [KHandleTable.reserve, if_pos h.count_lt, allocateEntry_of_head h.chain.1]
    simp only [KHandleTable.allocateLinearId, Option.bind_eq_bind, Option.bind_some,
      h.nextLinearId, ← linearIdAfter_succ]
    rfl
  refine ⟨_, congrArg (Option.map _) hreserve, ?_⟩
  refine h.issue rfl rfl rfl rfl (fun j _ => rfl) (fun j _ => rfl) ?_ fun hne => absurd rfl hne
  exact h.freeObjects i mem_cons_self

theorem Tracks.count_eq (h : t.Tracks g []) : ¬t.count < t.tableSize := by
  have hlength := h.length
  rw [length_nil, zero_add] at hlength
  rw [h.count]
  omega

section

variable (h : t.Tracks g free)
include h

theorem Tracks.add (obj : α) : ∃ response t' free', t.perform (.add obj) = some (response, t') ∧
      t'.Tracks (g.record (.add obj) response) free' := by
  cases free with
  | nil =>
    refine ⟨.failed .outOfHandles, t, [], ?_, h⟩
    rw [perform, KHandleTable.add, if_neg h.count_eq]
    rfl
  | cons i rest =>
    obtain ⟨t', hperform, htracks⟩ := h.add_head obj
    exact ⟨_, t', rest, hperform, htracks⟩

theorem Tracks.reserve : ∃ response t' free', t.perform .reserve = some (response, t') ∧
      t'.Tracks (g.record .reserve response) free' := by
  cases free with
  | nil =>
    refine ⟨.failed .outOfHandles, t, [], ?_, h⟩
    rw [perform, KHandleTable.reserve, if_neg h.count_eq]
    rfl
  | cons i rest =>
    obtain ⟨t', hperform, htracks⟩ := h.reserve_head
    exact ⟨_, t', rest, hperform, htracks⟩

/-! Releasing a slot: the handles of different slots differ, because their indices do. -/

theorem Tracks.slots_split (hs : s ∈ g.slots) :
    ∃ before after, g.slots = before ++ s :: after ∧ (∀ s' ∈ before ++ after, s'.index ≠ s.index) ∧
      (g.slots.filter fun s' => s'.handle ≠ s.handle) = before ++ after ∧
      (g.slots.filter fun s' => s'.handle = s.handle) = [s] := by
  obtain ⟨before, after, hsplit⟩ := append_of_mem hs
  have hnodup := (nodup_append.mp h.nodup).2.1
  have hne : ∀ s' ∈ before ++ after, s'.index ≠ s.index := by
    intro s' hs' heq
    rw [hsplit, map_append, map_cons] at hnodup
    refine (nodup_cons.mp (nodup_middle.mp hnodup)).1 ?_
    rw [← map_append, ← heq]
    exact mem_map_of_mem hs'
  have hhandle : ∀ s' ∈ before ++ after, s'.handle ≠ s.handle :=
    fun s' hs' heq => hne s' hs' (congrArg HandlePack.index heq)
  refine ⟨before, after, hsplit, hne, ?_, ?_⟩
  · rw [hsplit, filter_append, filter_cons_of_neg (by simp), ← filter_append, filter_eq_self]
    exact fun s' hs' => by simpa using hhandle s' hs'
  · have hbefore : (before.filter fun s' => s'.handle = s.handle) = [] :=
      filter_eq_nil_iff.mpr fun s' hs' =>
        by simpa using hhandle s' (mem_append_left _ hs')
    have hafter : (after.filter fun s' => s'.handle = s.handle) = [] :=
      filter_eq_nil_iff.mpr fun s' hs' =>
        by simpa using hhandle s' (mem_append_right _ hs')
    rw [hsplit, filter_append, filter_cons_of_pos (by simp), hbefore, hafter]
    rfl

theorem Tracks.release (hs : s ∈ g.slots) :
    (t.freeEntry s.index).Tracks (g.release s.handle) (s.index :: free) := by
  obtain ⟨before, after, hsplit, hne, hrest, -⟩ := h.slots_split hs
  have hslots : (g.release s.handle).slots = before ++ after := hrest
  have hmem : ∀ s' ∈ before ++ after, s' ∈ g.slots := by
    intro s' hs'
    rw [← hrest] at hs'
    exact (mem_filter.mp hs').1
  have hnodup := h.nodup
  rw [hsplit, map_append, map_cons] at hnodup
  have hfree : ∀ i ∈ free, i ≠ s.index := by
    rintro i hi rfl
    exact (nodup_append.mp h.nodup).2.2 _ hi _ (mem_map_of_mem hs) rfl
  constructor
  case size_le => exact h.size_le
  case chain =>
    have hbounds := h.chain.head_bounds fun i hi =>
      lt_of_lt_of_le (h.lt_size i (mem_append_left _ hi)) h.size_le
    have hnext : (t.freeEntry s.index).nextFreeIndex s.index = t.freeHeadIndex := by
      simp only [nextFreeIndex, freeEntry, update_self]
      exact toInt_ofInt_16 hbounds.1 hbounds.2
    refine ⟨rfl, ?_⟩
    rw [hnext]
    exact h.chain.congr fun i hi => update_of_ne (hfree i hi) _ _
  case nodup =>
    rw [hslots, map_append, cons_append]
    rw [← append_assoc] at hnodup ⊢
    exact nodup_middle.mp hnodup
  case lt_size =>
    intro i hi
    refine h.lt_size i ?_
    rw [hsplit]
    rw [hslots] at hi
    simp only [map_append, map_cons, mem_append, mem_cons] at hi ⊢
    tauto
  case length =>
    have hlength := h.length
    rw [hsplit] at hlength
    rw [hslots]
    show _ = t.tableSize
    simp only [length_append, length_cons] at hlength ⊢
    omega
  case count =>
    have hcount := h.count
    rw [hsplit] at hcount
    rw [hslots]
    show t.count - 1 = _
    simp only [length_append, length_cons] at hcount ⊢
    omega
  case nextLinearId => exact h.nextLinearId
  case freeObjects =>
    intro i hi
    rcases mem_cons.mp hi with rfl | hi
    · exact update_self ..
    · exact (update_of_ne (hfree i hi) _ _).trans (h.freeObjects i hi)
  case handles => exact fun s' hs' => h.handles s' (hmem s' (hslots ▸ hs'))
  case births => exact fun s' hs' => h.births s' (hmem s' (hslots ▸ hs'))
  case objects =>
    intro s' hs'
    rw [hslots] at hs'
    exact (update_of_ne (hne s' hs') _ _).trans (h.objects s' (hmem s' hs'))
  case linearIds =>
    intro s' hs' hsome
    rw [hslots] at hs'
    rw [← h.linearIds s' (hmem s' hs') hsome]
    exact congrArg BitVec.toNat (update_of_ne (hne s' hs') _ _)
  case removed =>
    intro r hr
    obtain ⟨hhandle, hlt, hlater⟩ := h.removed r hr
    exact ⟨hhandle, hlt, fun s' hs' => hlater s' (hmem s' (hslots ▸ hs'))⟩
  case removedBirths => exact h.removedBirths

theorem Tracks.index_lt (hs : s ∈ g.slots) : s.index < t.tableSize :=
  h.lt_size _ (mem_append_right _ (mem_map_of_mem hs))

theorem Tracks.unreserve (hallowed : g.Allows (.unreserve handle)) :
    ∃ free', (t.unreserve handle).Tracks (g.release handle) free' := by
  obtain ⟨s, hs, rfl, -⟩ := hallowed
  have hlt : HandlePack.index s.handle < t.tableSize := h.index_lt hs
  refine ⟨s.index :: free, ?_⟩
  rw [KHandleTable.unreserve, if_pos hlt]
  exact h.release hs

/-- A handle in use resolves exactly if there is an object behind it. -/
theorem Tracks.isValidHandle_iff (hs : s ∈ g.slots) :
    t.isValidHandle s.handle = true ↔ s.object ≠ none := by
  have hlt := h.index_lt hs
  rw [h.handles s hs, isValidHandle_encodeHandle t (lt_of_lt_of_le hlt h.size_le), h.objects s hs]
  constructor
  · exact fun hvalid => hvalid.2.1
  · exact fun hsome => ⟨hlt, hsome, h.linearIds s hs hsome⟩

/-- Every entry is free or in use. -/
theorem Tracks.mem_free_or_slot (hi : i < t.tableSize) : i ∈ free ∨ ∃ s ∈ g.slots, s.index = i := by
  have hsubset : (free ++ g.slots.map Slot.index).toFinset ⊆ Finset.range t.tableSize :=
    fun j hj => Finset.mem_range.mpr (h.lt_size j (mem_toFinset.mp hj))
  have hcard : (Finset.range t.tableSize).card ≤ (free ++ g.slots.map Slot.index).toFinset.card := by
    rw [toFinset_card_of_nodup h.nodup, Finset.card_range, length_append, length_map, h.length]
  have heq := Finset.eq_of_subset_of_card_le hsubset hcard
  have hmem : i ∈ (free ++ g.slots.map Slot.index).toFinset := by
    rw [heq]
    exact Finset.mem_range.mpr hi
  simpa using hmem

end

theorem isValidHandle_elim (h : t.isValidHandle handle = true) :
    HandlePack.index handle < t.tableSize ∧ t.objects (HandlePack.index handle) ≠ none ∧
      t.linearIdAt (HandlePack.index handle) = HandlePack.linearId handle := by
  simp only [isValidHandle] at h
  split_ifs at h with h0 h1 h2 h3
  exact ⟨by omega, by simpa using h3, by simpa using h⟩

/-- A handle that resolves is in use. -/
theorem Tracks.exists_slot (h : t.Tracks g free)
    (hreserved : reserved handle = 0) (hvalid : t.isValidHandle handle = true) :
    ∃ s ∈ g.slots, s.handle = handle ∧ s.object ≠ none := by
  obtain ⟨hlt, hobject, hid⟩ := isValidHandle_elim hvalid
  rcases h.mem_free_or_slot hlt with hfree | ⟨s, hs, hindex⟩
  · exact absurd (h.freeObjects _ hfree) hobject
  · have hsome : s.object ≠ none := by
      rw [← h.objects s hs, hindex]
      exact hobject
    refine ⟨s, hs, ?_, hsome⟩
    rw [h.handles s hs, ← h.linearIds s hs hsome, hindex, hid]
    exact encodeHandle_eq hreserved

/-- `Remove` of a handle with an object behind it frees its entry. -/
theorem Tracks.remove_slot (h : t.Tracks g free) (hs : s ∈ g.slots) (hsome : s.object ≠ none) :
    t.remove s.handle = (true, t.freeEntry s.index) ∧
      (t.freeEntry s.index).Tracks (g.record (.remove s.handle) (.removed true))
        (s.index :: free) := by
  obtain ⟨before, after, -, hne, hrest, hdead⟩ := h.slots_split hs
  have hreserved : reserved s.handle = 0 := by
    rw [h.handles s hs]
    exact reserved_encodeHandle _ _
  have hpseudo : ¬isPseudoHandle s.handle = true := by
    intro hpseudo
    simp only [isPseudoHandle, Bool.or_eq_true, decide_eq_true_eq] at hpseudo
    rcases hpseudo with heq | heq <;> exact absurd (heq ▸ hreserved) (by decide)
  have hreleased := h.release hs
  constructor
  · rw [KHandleTable.remove, if_neg hpseudo, if_neg (not_not.mpr hreserved),
      if_pos ((h.isValidHandle_iff hs).mpr hsome)]
    rfl
  · refine { hreleased with removed := ?_, removedBirths := ?_ }
    · intro r hr
      simp only [Ledger.record, hdead, map_cons, map_nil, singleton_append] at hr
      rcases mem_cons.mp hr with rfl | hr
      · refine ⟨h.handles s hs, h.index_lt hs, fun s' hs' heq => ?_⟩
        have hs' : s' ∈ before ++ after := hrest ▸ hs'
        exact absurd heq (hne s' hs')
      · exact hreleased.removed r hr
    · intro r hr
      simp only [Ledger.record, hdead, map_cons, map_nil, singleton_append] at hr
      rcases mem_cons.mp hr with rfl | hr
      · exact h.births s hs
      · exact h.removedBirths r hr

theorem Tracks.remove (h : t.Tracks g free) (handle : Handle) : ∃ free', (t.remove handle).2.Tracks
      (g.record (.remove handle) (.removed (t.remove handle).1)) free' := by
  by_cases hvalid : reserved handle = 0 ∧ t.isValidHandle handle = true
  · obtain ⟨s, hs, rfl, hsome⟩ := h.exists_slot hvalid.1 hvalid.2
    obtain ⟨hremove, htracks⟩ := h.remove_slot hs hsome
    rw [hremove]
    exact ⟨_, htracks⟩
  · have hremove : t.remove handle = (false, t) := by
      rw [KHandleTable.remove]
      split_ifs with hpseudo hreserved hfound
      · rfl
      · rfl
      · exact absurd ⟨not_not.mp hreserved, hfound⟩ hvalid
      · rfl
    rw [hremove]
    exact ⟨free, h⟩

theorem Tracks.eq_of_index (h : t.Tracks g free) {s' : Slot α} (hs : s ∈ g.slots)
    (hs' : s' ∈ g.slots) (heq : s.index = s'.index) : s = s' :=
  inj_on_of_nodup_map (nodup_append.mp h.nodup).2.1 hs hs' heq

/-- A slot of the ledger with an object filled in comes from a slot with the same handle and birth,
and only the one of the handle itself has changed. -/
theorem Ledger.mem_fill {obj : α} (hs : s ∈ (g.fill handle obj).slots) :
    ∃ s' ∈ g.slots, s.handle = s'.handle ∧ s.birth = s'.birth ∧
      s.object = if s'.handle = handle then some obj else s'.object := by
  obtain ⟨s', hs', rfl⟩ := mem_map.mp hs
  refine ⟨s', hs', ?_⟩
  split_ifs <;> exact ⟨rfl, rfl, rfl⟩

theorem Ledger.index_fill (g : Ledger α) (handle : Handle) (obj : α) :
    (g.fill handle obj).slots.map Slot.index = g.slots.map Slot.index := by
  rw [Ledger.fill, map_map]
  refine map_congr_left fun s _ => ?_
  simp only [comp_apply]
  split_ifs <;> rfl

theorem Tracks.register (h : t.Tracks g free) {obj : α}
    (hallowed : g.Allows (.register handle obj)) :
    (t.register handle obj).Tracks (g.fill handle obj) free := by
  obtain ⟨r, hr, rfl, -⟩ := hallowed
  have hlt : HandlePack.index r.handle < t.tableSize := h.index_lt hr
  have hid : HandlePack.linearId r.handle = linearIdAfter r.birth := by
    conv_lhs => rw [h.handles r hr]
    exact linearId_encodeHandle (linearIdAfter_bounds _).2
  have hlength : (g.fill r.handle obj).slots.length = g.slots.length := length_map _
  have hfree : ∀ i ∈ free, i ≠ HandlePack.index r.handle := by
    rintro i hi rfl
    exact (nodup_append.mp h.nodup).2.2 _ hi _ (mem_map_of_mem hr) rfl
  rw [KHandleTable.register, if_pos hlt]
  constructor
  case size_le => exact h.size_le
  case chain => exact h.chain.congr fun i hi => update_of_ne (hfree i hi) _ _
  case nodup =>
    rw [Ledger.index_fill]
    exact h.nodup
  case lt_size =>
    rw [Ledger.index_fill]
    exact h.lt_size
  case length =>
    rw [hlength]
    exact h.length
  case count =>
    rw [hlength]
    exact h.count
  case nextLinearId => exact h.nextLinearId
  case freeObjects =>
    exact fun i hi => (update_of_ne (hfree i hi) _ _).trans (h.freeObjects i hi)
  case handles =>
    intro s hs
    obtain ⟨s', hs', hhandle, hbirth, -⟩ := Ledger.mem_fill hs
    rw [Slot.index, hhandle, hbirth]
    exact h.handles s' hs'
  case births =>
    intro s hs
    obtain ⟨s', hs', -, hbirth, -⟩ := Ledger.mem_fill hs
    rw [hbirth]
    exact h.births s' hs'
  case objects =>
    intro s hs
    obtain ⟨s', hs', hhandle, -, hobject⟩ := Ledger.mem_fill hs
    rw [Slot.index, hhandle, hobject]
    split_ifs with heq
    · rw [heq]
      exact update_self ..
    · have hne : HandlePack.index s'.handle ≠ HandlePack.index r.handle :=
        fun hindex => heq (congrArg Slot.handle (h.eq_of_index hs' hr hindex))
      exact (update_of_ne hne _ _).trans (h.objects s' hs')
  case linearIds =>
    intro s hs hsome
    obtain ⟨s', hs', hhandle, hbirth, hobject⟩ := Ledger.mem_fill hs
    rw [hobject] at hsome
    rw [Slot.index, hhandle, hbirth]
    by_cases heq : s' = r
    · simp only [heq, linearIdAt, setEntry, update_self, hid]
      exact toNat_ofNat_linearIdAfter _
    · have hne : HandlePack.index s'.handle ≠ HandlePack.index r.handle :=
        fun hindex => heq (h.eq_of_index hs' hr hindex)
      rw [if_neg fun hhandle => hne (congrArg HandlePack.index hhandle)] at hsome
      rw [← h.linearIds s' hs' hsome]
      exact congrArg BitVec.toNat (update_of_ne hne _ _)
  case removed =>
    intro d hd
    obtain ⟨hhandle, hsize, hlater⟩ := h.removed d hd
    refine ⟨hhandle, hsize, fun s hs hindex => ?_⟩
    obtain ⟨s', hs', hhandle', hbirth, -⟩ := Ledger.mem_fill hs
    rw [hbirth]
    rw [Slot.index, hhandle'] at hindex
    exact hlater s' hs' hindex
  case removedBirths => exact h.removedBirths

/-- Every operation that the callers may ask for has a result, and the ledger follows it. -/
theorem Tracks.perform (h : t.Tracks g free) (op : Operation α) (hallowed : g.Allows op) :
    ∃ response t' free', t.perform op = some (response, t') ∧
      t'.Tracks (g.record op response) free' := by
  cases op with
  | initializeTable size =>
    cases hinit : t.initializeTable size with
    | ok t' =>
      obtain ⟨free', htracks⟩ := tracks_of_initializeTable hinit
      exact ⟨.done, t', free', by rw [KHandleTable.perform, hinit], htracks⟩
    | error e => exact ⟨.failed e, t, free, by rw [KHandleTable.perform, hinit], h⟩
  | reserve => exact h.reserve
  | register handle obj => exact ⟨.done, _, free, rfl, h.register hallowed⟩
  | unreserve handle =>
    obtain ⟨free', htracks⟩ := h.unreserve hallowed
    exact ⟨.done, _, free', rfl, htracks⟩
  | add obj => exact h.add obj
  | remove handle =>
    obtain ⟨free', htracks⟩ := h.remove handle
    exact ⟨_, _, free', rfl, htracks⟩

theorem Reachable.tracks (h : Reachable t g) : ∃ free, t.Tracks g free := by
  induction h with
  | start h => exact tracks_of_initializeTable h
  | step op _ hallowed h ih =>
    obtain ⟨free, htracks⟩ := ih
    obtain ⟨response, t', free', hperform, htracks'⟩ := htracks.perform op hallowed
    rw [h] at hperform
    cases hperform
    exact ⟨free', htracks'⟩

theorem Tracks.getObjectImpl_slot (h : t.Tracks g free) (hs : s ∈ g.slots) :
    t.getObjectImpl s.handle = s.object := by
  have hreserved : reserved s.handle = 0 := by
    rw [h.handles s hs]
    exact reserved_encodeHandle _ _
  have hobject : t.objects (HandlePack.index s.handle) = s.object := h.objects s hs
  rw [getObjectImpl, if_neg (not_not.mpr hreserved), hobject]
  split_ifs with hvalid
  · rfl
  · rw [h.isValidHandle_iff hs, not_not] at hvalid
    exact hvalid.symm

theorem Tracks.getObjectImpl_removed (h : t.Tracks g free) {r : Handle × Nat}
    (hr : r ∈ g.removed) (hround : g.issued ≤ r.2 + maxLinearId) : t.getObjectImpl r.1 = none := by
  rw [getObjectImpl]
  split_ifs with hreserved hvalid
  · rfl
  · obtain ⟨hhandle, -, hlater⟩ := h.removed r hr
    obtain ⟨s, hs, heq, -⟩ := h.exists_slot (not_not.mp hreserved) hvalid
    have hbirth := hlater s hs (congrArg HandlePack.index heq)
    have hlt := h.births s hs
    -- the entry was taken again with the id of the removed handle, less than a round later
    have hsame : linearIdAfter s.birth = linearIdAfter r.2 := by
      have hids := congrArg HandlePack.linearId ((h.handles s hs).symm.trans (heq.trans hhandle))
      rw [linearId_encodeHandle (linearIdAfter_bounds _).2,
        linearId_encodeHandle (linearIdAfter_bounds _).2] at hids
      exact hids
    exact absurd hsame (linearIdAfter_ne hbirth (by omega))
  · rfl

/-- In every run: the free list is acyclic, has `table_size - count` entries and none that is in
use; handles in use are distinct; a handle resolves to its object, and to nothing while it is only
reserved; a removed handle resolves to nothing until `0x7FFF` linear ids have been issued after its
own; and every operation has a result. -/
theorem reachable_spec (h : Reachable t g) :
    (∃ free, t.FreeChain t.freeHeadIndex free ∧ free.Nodup ∧
        free.length = t.tableSize - t.count ∧ t.count = g.slots.length ∧
        ∀ s ∈ g.slots, s.index ∉ free) ∧
      (g.slots.map Slot.handle).Nodup ∧
      (∀ s ∈ g.slots, t.getObjectImpl s.handle = s.object) ∧
      (∀ r ∈ g.removed, g.issued - (r.2 + 1) < maxLinearId → t.getObjectImpl r.1 = none) ∧
      ∀ op, g.Allows op → ∃ response t', t.perform op = some (response, t') := by
  obtain ⟨free, htracks⟩ := h.tracks
  obtain ⟨hfree, hindices, hdisjoint⟩ := nodup_append.mp htracks.nodup
  refine ⟨⟨free, htracks.chain, hfree, ?_, htracks.count, ?_⟩, ?_, ?_, ?_, ?_⟩
  · have hlength := htracks.length
    rw [htracks.count]
    omega
  · exact fun s hs hmem => hdisjoint _ hmem _ (mem_map_of_mem hs) rfl
  · refine List.Nodup.of_map HandlePack.index ?_
    rw [map_map]
    exact hindices
  · exact fun s hs => htracks.getObjectImpl_slot hs
  · exact fun r hr hround => htracks.getObjectImpl_removed hr (by omega)
  · intro op hallowed
    obtain ⟨response, t', -, hperform, -⟩ := htracks.perform op hallowed
    exact ⟨response, t', hperform⟩

/-- A table as it is constructed. -/
def unused : KHandleTable Nat := ⟨fun _ => 0, fun _ => none, 0, 0, 0, 0, 0⟩

/-- A table of two entries, as `Initialize` leaves it. -/
def twoEntries : KHandleTable Nat :=
  (List.range 2).foldl freeInitially (unused.cleared 2)

theorem reachable_twoEntries : Reachable twoEntries .empty := by
  have hinit : unused.initializeTable 2 = .ok twoEntries := rfl
  exact .start hinit

theorem reachable_spec_add_remove :
    ∃ t t' : KHandleTable Nat, twoEntries.perform (.add 7) = some (.handle (encodeHandle 1 1), t) ∧
        t.getObjectImpl (encodeHandle 1 1) = some 7 ∧
        t.perform (.remove (encodeHandle 1 1)) = some (.removed true, t') ∧
        t'.getObjectImpl (encodeHandle 1 1) = none := by
  have hadd : twoEntries.perform (.add 7) = some (.handle (encodeHandle 1 1), _) := rfl
  have hreach := reachable_twoEntries.step (.add 7) trivial hadd
  have hremove := hreach.step (.remove (encodeHandle 1 1)) trivial rfl
  refine ⟨_, _, hadd, ?_, rfl, ?_⟩
  · exact (reachable_spec hreach).2.2.1 ⟨encodeHandle 1 1, 0, some 7⟩ mem_cons_self
  · exact (reachable_spec hremove).2.2.2.1 (encodeHandle 1 1, 0) (by decide) (by decide)

/-! ## The ids come round -/

/-- An `Add` and the `Remove` of its handle, with one entry free: only the linear ids move on. -/
theorem add_remove (hreach : Reachable t g) (h : t.Tracks g [i])
    (hslots : g.slots = [s]) (obj : α) :
    ∃ t' g', Reachable t' g' ∧ t'.Tracks g' [i] ∧ g'.slots = [s] ∧ g'.issued = g.issued + 1 := by
  obtain ⟨t₁, hadd, h₁⟩ := h.add_head obj
  have hreach₁ := hreach.step (.add obj) trivial hadd
  have hnew : (⟨encodeHandle i (linearIdAfter g.issued), g.issued, some obj⟩ : Slot α) ∈
      (g.issue (encodeHandle i (linearIdAfter g.issued)) (some obj)).slots := mem_cons_self
  obtain ⟨hremove, h₂⟩ := h₁.remove_slot hnew (Option.some_ne_none obj)
  obtain ⟨before, after, -, -, -, -⟩ := h₁.slots_split hnew
  have hindex : HandlePack.index (encodeHandle i (linearIdAfter g.issued)) = i :=
    index_encodeHandle (lt_of_lt_of_le (h.lt_size i (by simp)) h.size_le)
  have hperform : t₁.perform (.remove (encodeHandle i (linearIdAfter g.issued))) =
      some (.removed true, t₁.freeEntry i) := by
    rw [perform, hremove, Slot.index, hindex]
  refine ⟨_, _, hreach₁.step (.remove _) trivial hperform, ?_, ?_, rfl⟩
  · have h₂ := h₂
    simp only [Slot.index, hindex] at h₂
    exact h₂
  · have hdisjoint : s.handle ≠ encodeHandle i (linearIdAfter g.issued) := by
      intro heq
      have hmem : s.index ∈ g.slots.map Slot.index := by simp [hslots]
      have hindex' : s.index = i := (congrArg HandlePack.index heq).trans hindex
      exact (nodup_append.mp h.nodup).2.2 i (by simp) s.index hmem hindex'.symm
    simp [Ledger.record, Ledger.release, Ledger.issue, hslots, hdisjoint]

theorem add_remove_rounds (hreach : Reachable t g) (h : t.Tracks g [i])
    (hslots : g.slots = [s]) (obj : α) (n : Nat) :
    ∃ t' g', Reachable t' g' ∧ t'.Tracks g' [i] ∧ g'.slots = [s] ∧ g'.issued = g.issued + n := by
  induction n with
  | zero => exact ⟨t, g, hreach, h, hslots, rfl⟩
  | succ n ih =>
    obtain ⟨t', g', hreach', h', hslots', hissued⟩ := ih
    obtain ⟨t'', g'', hreach'', h'', hslots'', hissued'⟩ := add_remove hreach' h' hslots' obj
    exact ⟨t'', g'', hreach'', h'', hslots'', by omega⟩

end Invariant

theorem tracks_twoEntries : twoEntries.Tracks .empty [1, 0] :=
  tracks_cleared unused (by decide)

/-- The first handle of a table of two entries, removed after `0x7FFE` handles of the other entry
have come and gone: the next `Add` gives it out again, for another object. -/
theorem add_returns_handle_just_removed :
    ∃ (t t₁ t₂ : KHandleTable Nat) (g : Ledger Nat) (handle : Handle),
      Reachable t g ∧ t.getObjectImpl handle = some 7 ∧
        t.perform (.remove handle) = some (.removed true, t₁) ∧
        t₁.perform (.add 9) = some (.handle handle, t₂) ∧ t₂.getObjectImpl handle = some 9 := by
  obtain ⟨t₀, hadd, h₀⟩ := tracks_twoEntries.add_head 7
  have hreach₀ := reachable_twoEntries.step (.add 7) trivial hadd
  obtain ⟨t, g, hreach, h, hslots, hissued⟩ := add_remove_rounds hreach₀ h₀ rfl 8 0x7FFE
  have hs : (⟨encodeHandle 1 1, 0, some 7⟩ : Slot Nat) ∈ g.slots := by
    rw [hslots]
    exact mem_singleton_self _
  obtain ⟨hremove, h₁⟩ := h.remove_slot hs (Option.some_ne_none 7)
  obtain ⟨t₂, hagain, h₂⟩ := h₁.add_head 9
  have hround : linearIdAfter g.issued = 1 := by
    rw [hissued]
    rfl
  -- the next linear id is that of the handle, and its entry heads the free list
  have hsame : encodeHandle (Slot.index ⟨encodeHandle 1 1, 0, some 7⟩)
      (linearIdAfter (g.record (.remove (encodeHandle 1 1)) (.removed true)).issued) =
        encodeHandle 1 1 := by
    show encodeHandle 1 (linearIdAfter g.issued) = encodeHandle 1 1
    rw [hround]
  rw [hsame] at hagain h₂
  refine ⟨t, t.freeEntry 1, t₂, g, encodeHandle 1 1, hreach, h.getObjectImpl_slot hs, ?_, hagain,
    h₂.getObjectImpl_slot mem_cons_self⟩
  exact congrArg (fun p => some (Response.removed p.1, p.2)) hremove

end KHandleTable

end Sudachi.Kernel
