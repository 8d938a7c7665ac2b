import Sudachi.Kernel.AddressArbiter

/-!
# Runs of the address arbiter

In every run the tree holds exactly the threads that wait, in the order of address, priority and
arrival (`Inv`); a thread arrives when it begins to wait, and anew when its priority changes. A
signal wakes the first of those that wait at its address (`reachable_signal`).
-/

set_option autoImplicit false

namespace Sudachi.Kernel

open Sudachi.Foundations List Function Or

namespace AddressArbiter

theorem compare_ne_zero (key : BitVec 64) (priority : Int) (rhs : Thread) :
    compare key priority rhs ≠ 0 := by
  rw [compare]
  split_ifs <;> decide

/-- The order of the tree. -/
def Thread.order (thread : Thread) : ℕ ×ₗ ℤ :=
  toLex (thread.conditionVariableKey.toNat, thread.priority)

theorem compare_neg_iff (key : BitVec 64) (priority : Int) (rhs : Thread) :
    compare key priority rhs < 0 ↔ toLex (key.toNat, priority) < rhs.order := by
  rw [compare, Thread.order, Prod.Lex.toLex_lt_toLex]
  by_cases hlt : key < rhs.conditionVariableKey
  · rw [if_pos hlt]
    exact iff_of_true (by decide) (inl hlt)
  · have hlt' : ¬key.toNat < rhs.conditionVariableKey.toNat := hlt
    by_cases hboth : key = rhs.conditionVariableKey ∧ priority < rhs.priority
    · rw [if_neg hlt, if_pos hboth]
      exact iff_of_true (by decide) (inr ⟨congrArg BitVec.toNat hboth.1, hboth.2⟩)
    · rw [if_neg hlt, if_neg hboth]
      refine iff_of_false (by decide) ?_
      rintro (h | ⟨heq, h⟩)
      · exact hlt' h
      · exact hboth ⟨BitVec.eq_of_toNat_eq heq, h⟩

theorem compare_pos_iff (key : BitVec 64) (priority : Int) (rhs : Thread) :
    0 < compare key priority rhs ↔ rhs.order ≤ toLex (key.toNat, priority) := by
  rw [← not_lt, ← compare_neg_iff]
  have := compare_ne_zero key priority rhs
  omega

/-- When the threads came into the tree, as the number of arrivals before. -/
structure History where
  arrival : ThreadId → Nat
  clock : Nat

/-- The history with a thread that arrives. -/
def History.arrive (h : History) (id : ThreadId) : History :=
  ⟨Function.update h.arrival id h.clock, h.clock + 1⟩

namespace KAddressArbiter

/-- One thread stands before another in the tree. -/
def Before (s : KAddressArbiter) (h : History) (a b : ThreadId) : Prop :=
  (s.threads a).order < (s.threads b).order ∨
    ((s.threads a).order = (s.threads b).order ∧ h.arrival a < h.arrival b)

structure Inv (s : KAddressArbiter) (h : History) : Prop where
  mem_iff : ∀ id, id ∈ s.tree.toList ↔ (s.threads id).inTree = true
  waiting : ∀ id, (s.threads id).inTree = true → (s.threads id).waiting = true
  priority : ∀ id, 0 ≤ (s.threads id).priority
  arrival : ∀ id ∈ s.tree.toList, h.arrival id < h.clock
  sorted : s.tree.toList.Pairwise (s.Before h)

variable (bal : SearchTree.Balancing ThreadId) {s : KAddressArbiter} {h : History}
variable {id : ThreadId} {addr : BitVec 64} {value : BitVec 32}

theorem Inv.nodup (hinv : s.Inv h) : s.tree.toList.Nodup := by
  refine hinv.sorted.imp fun hab heq => ?_
  rw [heq, Before] at hab
  rcases hab with hlt | ⟨-, hlt⟩
  · exact lt_irrefl _ hlt
  · exact lt_irrefl _ hlt

theorem Inv.sorted_order (hinv : s.Inv h) :
    s.tree.toList.Pairwise fun a b => (s.threads a).order ≤ (s.threads b).order := by
  refine hinv.sorted.imp fun hab => ?_
  rcases hab with hlt | ⟨heq, -⟩
  · exact le_of_lt hlt
  · exact le_of_eq heq

/-! ## The state along an operation -/

/-- The state with another tree and another record of one thread. -/
def replace (s : KAddressArbiter) (tree : SearchTree ThreadId) (id : ThreadId) (thread : Thread) :
    KAddressArbiter :=
  { s with tree := tree, threads := Function.update s.threads id thread }

@[simp] theorem replace_tree (tree : SearchTree ThreadId) (id : ThreadId) (thread : Thread) :
    (s.replace tree id thread).tree = tree := rfl

@[simp] theorem replace_threads_self (tree : SearchTree ThreadId) (id : ThreadId)
    (thread : Thread) : (s.replace tree id thread).threads id = thread :=
  update_self ..

theorem replace_threads_of_ne (tree : SearchTree ThreadId) {a : ThreadId} (thread : Thread)
    (ha : a ≠ id) : (s.replace tree id thread).threads a = s.threads a :=
  update_of_ne ha _ _

/-- A thread that is not in the tree, or no longer. -/
theorem Inv.without (hinv : s.Inv h) {thread : Thread}
    {tree : SearchTree ThreadId} (hout : thread.inTree = false) (hpriority : 0 ≤ thread.priority)
    (htree : tree.toList = s.tree.toList.filter fun a => a ≠ id) :
    (s.replace tree id thread).Inv h := by
  have hmem : ∀ a, a ∈ tree.toList ↔ a ∈ s.tree.toList ∧ a ≠ id := fun a => by
    rw [htree, mem_filter, decide_eq_true_eq]
  constructor
  case mem_iff =>
    intro a
    rw [replace_tree, hmem]
    by_cases ha : a = id
    · subst ha
      rw [replace_threads_self, hout]
      exact iff_of_false (fun hboth => hboth.2 rfl) Bool.false_ne_true
    · rw [replace_threads_of_ne tree thread ha, hinv.mem_iff]
      exact and_iff_left ha
  case waiting =>
    intro a ha
    by_cases heq : a = id
    · subst heq
      rw [replace_threads_self, hout] at ha
      cases ha
    · rw [replace_threads_of_ne tree thread heq] at ha ⊢
      exact hinv.waiting a ha
  case priority =>
    intro a
    by_cases ha : a = id
    · subst ha
      rw [replace_threads_self]
      exact hpriority
    · rw [replace_threads_of_ne tree thread ha]
      exact hinv.priority a
  case arrival => exact fun a ha => hinv.arrival a ((hmem a).mp ha).1
  case sorted =>
    rw [replace_tree]
    have hsub : tree.toList.Pairwise (s.Before h) := by
      rw [htree]
      exact hinv.sorted.filter _
    refine hsub.imp_of_mem fun ha hb hab => ?_
    rwa [Before, replace_threads_of_ne tree thread ((hmem _).mp ha).2,
      replace_threads_of_ne tree thread ((hmem _).mp hb).2]

theorem Inv.toList_remove (hinv : s.Inv h) (id : ThreadId) :
    (bal.remove id s.tree).toList = s.tree.toList.filter fun a => a ≠ id := by
  rw [bal.toList_remove, hinv.nodup.erase_eq_filter]
  refine filter_congr fun a _ => ?_
  rw [bne, decide_not]
  rfl

theorem Inv.update (hinv : s.Inv h) (hout : (s.threads id).inTree = false)
    {thread : Thread} (hthread : thread.inTree = false) (hpriority : 0 ≤ thread.priority) :
    (s.replace s.tree id thread).Inv h := by
  refine hinv.without hthread hpriority (filter_eq_self.mpr fun a ha => ?_).symm
  refine decide_eq_true fun heq => ?_
  rw [heq, hinv.mem_iff, hout] at ha
  cases ha

/-- A thread comes into the tree, behind those of its address and priority. -/
theorem Inv.insert (hinv : s.Inv h) (hout : (s.threads id).inTree = false)
    (thread : Thread) (hin : thread.inTree = true) (hwaiting : thread.waiting = true)
    (hpriority : 0 ≤ thread.priority) {cmp : ThreadId → Int} (hcmp : ∀ a, a ≠ id →
      cmp a = compare thread.conditionVariableKey thread.priority (s.threads a)) :
    (s.replace (s.tree.insert bal cmp id) id thread).Inv (h.arrive id) := by
  obtain ⟨l, r, hsplit, hl, hr⟩ :=
    SearchTree.exists_split (fun a => (s.threads a).order) thread.order hinv.sorted_order
  have hnot : ∀ a ∈ s.tree.toList, a ≠ id := fun a ha heq => by
    rw [heq, hinv.mem_iff, hout] at ha
    cases ha
  have hmeml : ∀ a ∈ l, a ∈ s.tree.toList := fun a ha => by rw [hsplit]; simp [ha]
  have hmemr : ∀ a ∈ r, a ∈ s.tree.toList := fun a ha => by rw [hsplit]; simp [ha]
  have hlist : (s.tree.insert bal cmp id).toList = l ++ id :: r := by
    refine SearchTree.toList_insert bal id hsplit (fun a ha => ?_) fun a ha => ?_
    · rw [hcmp a (hnot a (hmeml a ha)), compare_pos_iff]
      exact hl a ha
    · rw [hcmp a (hnot a (hmemr a ha)), compare_neg_iff]
      exact hr a ha
  have hmem : ∀ a, a ∈ l ++ id :: r ↔ a = id ∨ a ∈ s.tree.toList := fun a => by
    rw [hsplit]
    simp only [mem_append, mem_cons]
    tauto
  have hsame : ∀ a ∈ s.tree.toList,
      ((s.replace (s.tree.insert bal cmp id) id thread).threads a) = s.threads a :=
    fun a ha => replace_threads_of_ne _ thread (hnot a ha)
  have harrival : ∀ a ∈ s.tree.toList, (h.arrive id).arrival a = h.arrival a :=
    fun a ha => update_of_ne (hnot a ha) _ _
  have hnew : (h.arrive id).arrival id = h.clock := update_self ..
  constructor
  case mem_iff =>
    intro a
    rw [replace_tree, hlist, hmem]
    by_cases ha : a = id
    · subst ha
      rw [replace_threads_self, hin]
      exact iff_of_true (inl rfl) rfl
    · rw [replace_threads_of_ne _ thread ha, ← hinv.mem_iff]
      exact or_iff_right ha
  case waiting =>
    intro a ha
    by_cases heq : a = id
    · subst heq
      rw [replace_threads_self]
      exact hwaiting
    · rw [replace_threads_of_ne _ thread heq] at ha ⊢
      exact hinv.waiting a ha
  case priority =>
    intro a
    by_cases ha : a = id
    · subst ha
      rw [replace_threads_self]
      exact hpriority
    · rw [replace_threads_of_ne _ thread ha]
      exact hinv.priority a
  case arrival =>
    intro a ha
    rw [replace_tree, hlist, hmem] at ha
    show (h.arrive id).arrival a < h.clock + 1
    rcases ha with rfl | ha
    · rw [hnew]
      omega
    · rw [harrival a ha]
      have := hinv.arrival a ha
      omega
  case sorted =>
    have hold : (l ++ r).Pairwise
        ((s.replace (s.tree.insert bal cmp id) id thread).Before (h.arrive id)) := by
      rw [← hsplit]
      refine hinv.sorted.imp_of_mem fun ha hb hab => ?_
      rwa [Before, hsame _ ha, hsame _ hb, harrival _ ha, harrival _ hb]
    obtain ⟨hleft, hright, hcross⟩ := pairwise_append.mp hold
    rw [replace_tree, hlist]
    refine pairwise_append.mpr ⟨hleft, pairwise_cons.mpr ⟨fun b hb => ?_, hright⟩, ?_⟩
    · left
      rw [replace_threads_self, hsame b (hmemr b hb)]
      exact hr b hb
    · intro a ha b hb
      rcases mem_cons.mp hb with rfl | hb
      · rw [Before, replace_threads_self, hsame a (hmeml a ha), harrival a (hmeml a ha), hnew]
        rcases lt_or_eq_of_le (hl a ha) with hlt | heq
        · exact inl hlt
        · exact inr ⟨heq, hinv.arrival a (hmeml a ha)⟩
      · exact hcross a ha b hb

/-! ## Waking threads -/

/-- The threads that wait at an address, in the order of the tree. -/
def waiters (s : KAddressArbiter) (addr : BitVec 64) : List ThreadId :=
  s.tree.toList.filter fun id => (s.threads id).conditionVariableKey = addr

/-- A thread whose wait has ended well. -/
def Thread.woken (thread : Thread) : Thread :=
  { thread with inTree := false, waiting := false, waitResult := .success }

theorem Inv.wake_eq (hinv : s.Inv h) (hid : id ∈ s.tree.toList) :
    s.wake bal id = s.replace (bal.remove id s.tree) id (Thread.woken (s.threads id)) := by
  have hwaiting := hinv.waiting id ((hinv.mem_iff id).mp hid)
  rw [wake, endWait, if_pos hwaiting]
  simp only [setThread, eraseThread, replace, update_idem, update_self]
  rfl

theorem Inv.wake (hinv : s.Inv h) (hid : id ∈ s.tree.toList) : (s.wake bal id).Inv h := by
  rw [hinv.wake_eq bal hid]
  exact hinv.without rfl (hinv.priority id) (hinv.toList_remove bal id)

/-- The state once the threads `ids` are woken. -/
structure WokenUp (s s' : KAddressArbiter) (ids : List ThreadId) : Prop where
  toList : s'.tree.toList = s.tree.toList.filter fun id => id ∉ ids
  woken : ∀ id ∈ ids, s'.threads id = Thread.woken (s.threads id)
  others : ∀ id, id ∉ ids → s'.threads id = s.threads id
  memory : s'.memory = s.memory

theorem Inv.wokenUp (hinv : s.Inv h) {ids : List ThreadId} (hids : ∀ id ∈ ids, id ∈ s.tree.toList)
    (hnodup : ids.Nodup) : (ids.foldl (KAddressArbiter.wake bal) s).Inv h ∧
      WokenUp s (ids.foldl (KAddressArbiter.wake bal) s) ids := by
  induction ids generalizing s with
  | nil => exact ⟨hinv, by simp, by simp, by simp, rfl⟩
  | cons id ids ih =>
    obtain ⟨hnot, hnodup⟩ := nodup_cons.mp hnodup
    have hid := hids id mem_cons_self
    have hstep := hinv.wake_eq bal hid
    have hlist : (s.wake bal id).tree.toList = s.tree.toList.filter fun a => a ≠ id := by
      rw [hstep, replace_tree, hinv.toList_remove bal]
    have hids' : ∀ a ∈ ids, a ∈ (s.wake bal id).tree.toList := by
      intro a ha
      rw [hlist, mem_filter, decide_eq_true_eq]
      exact ⟨hids a (mem_cons_of_mem id ha), ne_of_mem_of_not_mem ha hnot⟩
    obtain ⟨hinv', hwoken⟩ := ih (hinv.wake bal hid) hids' hnodup
    refine ⟨hinv', ?_, fun a ha => ?_, fun a ha => ?_, ?_⟩
    · rw [foldl_cons, hwoken.toList, hlist, filter_filter]
      refine filter_congr fun a _ => ?_
      simp [Bool.and_comm]
    · rcases mem_cons.mp ha with rfl | ha
      · rw [foldl_cons, hwoken.others a hnot, hstep, replace_threads_self]
      · have hne := ne_of_mem_of_not_mem ha hnot
        rw [foldl_cons, hwoken.woken a ha, hstep, replace_threads_of_ne _ _ hne]
    · obtain ⟨hne, ha⟩ := not_or.mp (mt mem_cons.mpr ha)
      rw [foldl_cons, hwoken.others a ha, hstep, replace_threads_of_ne _ _ hne]
    · rw [foldl_cons, hwoken.memory, hstep]
      rfl

/-! ## The loops -/

/-- How many of the waiters are woken. -/
def takeCount (count : Int) (ids : List ThreadId) : List ThreadId :=
  if count ≤ 0 then ids else ids.take count.toNat

theorem key_setThread (id a : ThreadId) (f : Thread → Thread)
    (hf : ∀ thread, (f thread).conditionVariableKey = thread.conditionVariableKey) :
    ((s.setThread id f).threads a).conditionVariableKey = (s.threads a).conditionVariableKey := by
  by_cases ha : a = id
  · subst ha
    simp only [setThread, update_self, hf]
  · simp only [setThread, update_of_ne ha]

theorem key_wake (id a : ThreadId) :
    ((s.wake bal id).threads a).conditionVariableKey = (s.threads a).conditionVariableKey := by
  have hend : ((s.endWait id .success).threads a).conditionVariableKey =
      (s.threads a).conditionVariableKey := by
    rw [endWait]
    split_ifs
    · exact key_setThread id a _ fun _ => rfl
    · rfl
  rw [← hend]
  exact key_setThread (s := s.endWait id .success) id a
    (fun thread => { thread with inTree := false }) fun _ => rfl

theorem signalLoop_eq (addr : BitVec 64) (count : Int) (ids : List ThreadId) (numWaiters : Nat) :
    signalLoop bal addr count ids numWaiters s = (if count ≤ 0 then
          ids.takeWhile fun id => (s.threads id).conditionVariableKey = addr
        else
          (ids.takeWhile fun id => (s.threads id).conditionVariableKey = addr).take
            (count.toNat - numWaiters)).foldl (KAddressArbiter.wake bal) s := by
  induction ids generalizing numWaiters s with
  | nil => split_ifs <;> simp [signalLoop]
  | cons id ids ih =>
    rw [signalLoop, takeWhile_cons]
    by_cases hkey : (s.threads id).conditionVariableKey = addr
    · simp only [hkey, decide_true, if_true, and_true]
      by_cases hcount : count ≤ 0
      · rw [if_pos (inl hcount), ih, if_pos hcount, if_pos hcount, foldl_cons]
        simp only [key_wake]
      · by_cases hmore : numWaiters < count
        · have hnat : count.toNat - numWaiters = count.toNat - (numWaiters + 1) + 1 := by omega
          rw [if_pos (inr hmore), ih, if_neg hcount, if_neg hcount, hnat, take_succ_cons,
            foldl_cons]
          simp only [key_wake]
        · have hnat : count.toNat - numWaiters = 0 := by omega
          rw [if_neg (by tauto), if_neg hcount, hnat, take_zero, foldl_nil]
    · have hstop : ¬((count ≤ 0 ∨ numWaiters < count) ∧
          (s.threads id).conditionVariableKey = addr) := fun hboth => hkey hboth.2
      rw [if_neg hstop]
      simp [hkey]

theorem countLoop_lt_iff (addr : BitVec 64) (count : Int) (ids : List ThreadId)
    (tmpNumWaiters : Nat) :
    (s.countLoop addr count ids tmpNumWaiters : Int) < count ↔ tmpNumWaiters +
        (ids.takeWhile fun id => (s.threads id).conditionVariableKey = addr).length < count := by
  induction ids generalizing tmpNumWaiters with
  | nil => simp [countLoop]
  | cons id ids ih =>
    rw [countLoop, takeWhile_cons]
    by_cases hkey : (s.threads id).conditionVariableKey = addr
    · simp only [hkey, if_true, decide_true, length_cons]
      by_cases hle : count ≤ tmpNumWaiters
      · rw [if_pos hle]
        exact iff_of_false (by omega) (by omega)
      · rw [if_neg hle, ih]
        constructor <;> intro hlt <;> push_cast at hlt ⊢ <;> omega
    · simp [hkey]

/-! ## The iterator -/

theorem takeWhile_eq_filter {ids : List ThreadId}
    (hsorted : ids.Pairwise fun a b => (s.threads a).order ≤ (s.threads b).order)
    (hids : ∀ id ∈ ids, addr.toNat ≤ (s.threads id).conditionVariableKey.toNat) :
    (ids.takeWhile fun id => (s.threads id).conditionVariableKey = addr) =
      ids.filter fun id => (s.threads id).conditionVariableKey = addr := by
  induction ids with
  | nil => rfl
  | cons id ids ih =>
    obtain ⟨hhead, htail⟩ := pairwise_cons.mp hsorted
    rw [takeWhile_cons, filter_cons]
    by_cases hkey : (s.threads id).conditionVariableKey = addr
    · simp only [hkey, decide_true, if_true]
      rw [ih htail fun a ha => hids a (mem_cons_of_mem id ha)]
    · simp only [hkey, decide_false]
      refine (filter_eq_nil_iff.mpr fun a ha heq => hkey ?_).symm
      -- a thread behind this one is of no smaller address
      have hle := Prod.Lex.monotone_fst _ _ (hhead a ha)
      have hge := hids id mem_cons_self
      rw [decide_eq_true_eq] at heq
      refine BitVec.eq_of_toNat_eq (le_antisymm ?_ hge)
      rw [← heq]
      exact hle

/-- The iterator that `nfind_key` delivers passes the waiters of the address first. -/
theorem Inv.nfindKey_spec (hinv : s.Inv h) (addr : BitVec 64) :
    ∃ ids, s.nfindKey addr = ids.head? ∧ s.nodesFrom ids.head? = ids ∧
      (ids.takeWhile fun id => (s.threads id).conditionVariableKey = addr) = s.waiters addr := by
  obtain ⟨l, r, hsplit, hl, hr⟩ :=
    SearchTree.exists_split (fun a => (s.threads a).order) (toLex (addr.toNat, -1))
      hinv.sorted_order
  refine ⟨r, ?_, ?_, ?_⟩
  · rw [nfindKey, SearchTree.nfind_eq hsplit
      (fun b hb => (compare_pos_iff _ _ _).mpr (hl b hb))
      (fun b hb => (compare_neg_iff _ _ _).mpr (hr b hb)), Option.or_none]
  · cases r with
    | nil => rfl
    | cons id r =>
      have hnodup := hinv.nodup
      rw [hsplit] at hnodup
      have hnot : ∀ a ∈ l, decide (a ≠ id) = true := fun a ha => decide_eq_true
        ((nodup_append.mp hnodup).2.2 a ha id mem_cons_self)
      rw [head?_cons, nodesFrom, hsplit, dropWhile_append_of_pos hnot]
      simp
  · have hsorted := hinv.sorted_order
    rw [hsplit] at hsorted
    -- nobody waits with a negative priority
    have hleft : (l.filter fun id => (s.threads id).conditionVariableKey = addr) = [] := by
      refine filter_eq_nil_iff.mpr fun a ha heq => ?_
      rw [decide_eq_true_eq] at heq
      have hle := hl a ha
      have hpriority := hinv.priority a
      rw [Thread.order, Prod.Lex.toLex_le_toLex, heq] at hle
      rcases hle with hlt | ⟨-, hle⟩
      · exact lt_irrefl _ hlt
      · omega
    rw [waiters, hsplit, filter_append, hleft, nil_append]
    refine takeWhile_eq_filter (pairwise_append.mp hsorted).2.1 fun a ha => ?_
    exact Prod.Lex.monotone_fst _ _ (le_of_lt (hr a ha))

/-! ## Signals -/

/-- The waiters that a signal wakes: all of them where `count` is not positive. -/
theorem Inv.signalLoop (hinv : s.Inv h) (addr : BitVec 64) (count : Int) :
    let woken := takeCount count (s.waiters addr)
    (signalLoop bal addr count (s.nodesFrom (s.nfindKey addr)) 0 s).Inv h ∧
      WokenUp s (signalLoop bal addr count (s.nodesFrom (s.nfindKey addr)) 0 s) woken := by
  obtain ⟨ids, hfind, hnodes, htake⟩ := hinv.nfindKey_spec addr
  have hwoken : (if count ≤ 0 then
        ids.takeWhile fun id => (s.threads id).conditionVariableKey = addr
      else
        (ids.takeWhile fun id => (s.threads id).conditionVariableKey = addr).take
          (count.toNat - 0)) = takeCount count (s.waiters addr) := by
    rw [htake]
    rfl
  have hsub : (takeCount count (s.waiters addr)).Sublist s.tree.toList := by
    rw [takeCount]
    split_ifs
    · exact filter_sublist
    · exact (take_sublist _ _).trans filter_sublist
  rw [hfind, hnodes, signalLoop_eq, hwoken]
  exact hinv.wokenUp bal (fun id hid => hsub.subset hid) (hinv.nodup.sublist hsub)

/-- The value that is written, by the number of waiters. -/
theorem Inv.modifiedValue_eq (hinv : s.Inv h) (addr : BitVec 64) (value count : BitVec 32) :
    s.modifiedValue addr value count =
      if s.waiters addr = [] then value + 1
      else if count.toInt ≤ 0 then value - 2
      else if (s.waiters addr).length ≤ count.toInt then value - 1
      else value := by
  obtain ⟨ids, hfind, hnodes, htake⟩ := hinv.nfindKey_spec addr
  rw [modifiedValue, hfind, hnodes]
  cases ids with
  | nil =>
    have hnil : s.waiters addr = [] := htake.symm
    simp [waitsAt, hnil]
  | cons id ids =>
    rw [takeWhile_cons] at htake
    by_cases hkey : (s.threads id).conditionVariableKey = addr
    · simp only [hkey, decide_true, if_true] at htake
      have hne : s.waiters addr ≠ [] := by
        rw [← htake]
        exact cons_ne_nil _ _
      have hlength : (s.waiters addr).length = (ids.takeWhile fun id =>
          (s.threads id).conditionVariableKey = addr).length + 1 := by
        rw [← htake, length_cons]
      simp only [head?_cons, waitsAt, hkey, decide_true, if_true, tail_cons, if_neg hne]
      have hcount := s.countLoop_lt_iff addr count.toInt ids 0
      by_cases hpos : count.toInt ≤ 0
      · rw [if_pos hpos, if_pos hpos]
      · rw [if_neg hpos, if_neg hpos]
        refine if_congr (hcount.trans ?_) rfl rfl
        rw [hlength]
        push_cast
        omega
    · simp only [hkey, decide_false, Bool.false_eq_true, if_false] at htake
      simp [waitsAt, hkey, ← htake]

/-- What a signal writes to the address. -/
def signalValue (s : KAddressArbiter) (addr : BitVec 64) (value count : BitVec 32) :
    SignalType → BitVec 32
  | .signal => s.memory addr
  | .signalAndIncrementIfEqual => value + 1
  | .signalAndModifyByWaitingCountIfEqual =>
    if s.waiters addr = [] then value + 1
    else if count.toInt ≤ 0 then value - 2
    else if (s.waiters addr).length ≤ count.toInt then value - 1
    else value

/-- Whether a signal looks at the memory and finds another value there. -/
def Refused (s : KAddressArbiter) (addr : BitVec 64) (value : BitVec 32) (type : SignalType) :
    Prop :=
  type ≠ .signal ∧ s.memory addr ≠ value

/-- The state after a signal. -/
structure Signalled (s s' : KAddressArbiter) (addr : BitVec 64) (value count : BitVec 32)
    (type : SignalType) : Prop where
  toList : s'.tree.toList =
    s.tree.toList.filter fun id => id ∉ takeCount count.toInt (s.waiters addr)
  woken : ∀ id ∈ takeCount count.toInt (s.waiters addr), s'.threads id = Thread.woken (s.threads id)
  others : ∀ id, id ∉ takeCount count.toInt (s.waiters addr) → s'.threads id = s.threads id
  memory : s'.memory = Function.update s.memory addr (s.signalValue addr value count type)

/-- The invariant says nothing of the memory. -/
theorem Inv.setMemory (hinv : s.Inv h) (memory : BitVec 64 → BitVec 32) :
    ({ s with memory := memory } : KAddressArbiter).Inv h :=
  ⟨hinv.mem_iff, hinv.waiting, hinv.priority, hinv.arrival, hinv.sorted⟩

/-- The loop of a signal after the memory has been written. -/
theorem Inv.signalled (hinv : s.Inv h) {count : BitVec 32}
    {type : SignalType} {memory : BitVec 64 → BitVec 32}
    (hmemory : memory = Function.update s.memory addr (s.signalValue addr value count type)) :
    (KAddressArbiter.signalLoop bal addr count.toInt (s.nodesFrom (s.nfindKey addr)) 0
        { s with memory := memory }).Inv h ∧
      Signalled s (KAddressArbiter.signalLoop bal addr count.toInt (s.nodesFrom (s.nfindKey addr)) 0
        { s with memory := memory }) addr value count type := by
  obtain ⟨hinv', hwoken⟩ := (hinv.setMemory memory).signalLoop bal addr count.toInt
  exact ⟨hinv', hwoken.toList, hwoken.woken, hwoken.others, hwoken.memory.trans hmemory⟩

theorem updateIfEqual_of_ne (hne : s.memory addr ≠ value)
    (newValue : BitVec 32) : s.updateIfEqual addr value newValue = (s.memory addr, s) :=
  if_neg hne

theorem updateIfEqual_of_eq (heq : s.memory addr = value) (newValue : BitVec 32) :
    s.updateIfEqual addr value newValue =
      (value, { s with memory := Function.update s.memory addr newValue }) := by
  rw [updateIfEqual]
  simp only [heq, if_true]

theorem Inv.signalToAddress (hinv : s.Inv h) (addr : BitVec 64) (value count : BitVec 32)
    (type : SignalType) :
    (s.Refused addr value type → s.signalToAddress bal addr value count type = (.invalidState, s)) ∧
      (¬s.Refused addr value type →
        ∃ s', s.signalToAddress bal addr value count type = (.success, s') ∧ s'.Inv h ∧
          Signalled s s' addr value count type) := by
  cases type with
  | signal =>
    refine ⟨fun hrefused => absurd rfl hrefused.1, fun _ => ?_⟩
    have hmemory : s.memory =
        Function.update s.memory addr (s.signalValue addr value count .signal) :=
      (update_eq_self addr s.memory).symm
    exact ⟨_, rfl, hinv.signalled bal hmemory⟩
  | signalAndIncrementIfEqual =>
    constructor
    · intro hrefused
      simp only [KAddressArbiter.signalToAddress, signalAndIncrementIfEqual,
        updateIfEqual_of_ne hrefused.2]
      exact if_pos hrefused.2
    · intro haccepted
      have heq : s.memory addr = value := by_contra fun hne => haccepted ⟨by decide, hne⟩
      simp only [KAddressArbiter.signalToAddress, signalAndIncrementIfEqual,
        updateIfEqual_of_eq heq, ne_eq, not_true_eq_false, if_false]
      exact ⟨_, rfl, hinv.signalled bal rfl⟩
  | signalAndModifyByWaitingCountIfEqual =>
    constructor
    · intro hrefused
      simp only [KAddressArbiter.signalToAddress, signalAndModifyByWaitingCountIfEqual,
        updateIfEqual_of_ne hrefused.2, ite_self]
      exact if_pos hrefused.2
    · intro haccepted
      have heq : s.memory addr = value := by_contra fun hne => haccepted ⟨by decide, hne⟩
      have hvalue : s.modifiedValue addr value count =
          s.signalValue addr value count .signalAndModifyByWaitingCountIfEqual :=
        hinv.modifiedValue_eq addr value count
      simp only [KAddressArbiter.signalToAddress, signalAndModifyByWaitingCountIfEqual,
        updateIfEqual_of_eq heq]
      by_cases hsame : value = s.modifiedValue addr value count
      · -- nothing is written where the value stays
        have hmemory : s.memory = Function.update s.memory addr
            (s.signalValue addr value count .signalAndModifyByWaitingCountIfEqual) := by
          rw [← hvalue, ← hsame, ← heq, update_eq_self]
        rw [if_neg (not_not.mpr hsame)]
        simp only [heq, ne_eq, not_true_eq_false, if_false]
        exact ⟨_, rfl, hinv.signalled bal hmemory⟩
      · rw [if_pos hsame]
        simp only [ne_eq, not_true_eq_false, if_false]
        exact ⟨_, rfl, hinv.signalled bal (congrArg (Function.update s.memory addr) hvalue)⟩

/-! ## The other operations -/

theorem Inv.beginWait (hinv : s.Inv h) {cur : ThreadId} (hout : (s.threads cur).inTree = false)
    (addr : BitVec 64) : (s.beginWait bal cur addr).Inv (h.arrive cur) := by
  have heq : s.beginWait bal cur addr = s.replace
      (s.tree.insert bal (fun other => compare addr (s.threads cur).priority
        (Function.update s.threads cur
          { s.threads cur with inTree := true, conditionVariableKey := addr } other)) cur) cur
      { s.threads cur with inTree := true, conditionVariableKey := addr, waiting := true } := by
    simp only [KAddressArbiter.beginWait, setThread, insertThread, replace, update_self,
      update_idem]
  rw [heq]
  refine hinv.insert bal hout
    { s.threads cur with inTree := true, conditionVariableKey := addr, waiting := true } rfl rfl
    (hinv.priority cur) fun a ha => ?_
  rw [update_of_ne ha]

theorem Inv.cancelWait (hinv : s.Inv h) (id : ThreadId) (result : SvcResult) :
    (s.cancelWait bal id result).Inv h := by
  rw [KAddressArbiter.cancelWait]
  by_cases hwaiting : (s.threads id).waiting
  · rw [if_pos hwaiting]
    by_cases hin : (s.threads id).inTree
    · have heq : ((s.eraseThread bal id).setThread id fun thread =>
            { thread with inTree := false }).setThread id
            (fun thread => { thread with waitResult := result, waiting := false }) =
          s.replace (bal.remove id s.tree) id
            { s.threads id with inTree := false, waitResult := result, waiting := false } := by
        simp only [setThread, eraseThread, replace, update_self, update_idem]
      rw [if_pos hin, heq]
      exact hinv.without rfl (hinv.priority id) (hinv.toList_remove bal id)
    · rw [Bool.not_eq_true] at hin
      rw [hin]
      exact hinv.update hin hin (hinv.priority id)
  · rw [if_neg hwaiting]
    exact hinv

theorem Inv.updatePriority_of_inTree (hinv : s.Inv h) {priority : Int} (hpos : 0 ≤ priority)
    (hne : priority ≠ (s.threads id).priority) (hin : (s.threads id).inTree = true) :
    (s.updatePriority bal id priority).Inv (h.arrive id) := by
  -- out of the tree and in again
  let out := s.replace (bal.remove id s.tree) id { s.threads id with inTree := false }
  have hout : out.Inv h := hinv.without rfl (hinv.priority id) (hinv.toList_remove bal id)
  have heq : s.updatePriority bal id priority = out.replace
      (out.tree.insert bal (fun other => compare (s.threads id).conditionVariableKey priority
        (Function.update s.threads id { s.threads id with priority := priority } other)) id) id
      { s.threads id with priority := priority } := by
    rw [KAddressArbiter.updatePriority, if_neg hne, if_pos hin]
    simp only [setThread, eraseThread, insertThread, replace, out, update_self, update_idem]
  rw [heq]
  refine hout.insert bal ?_ _ ?_ ?_ ?_ fun a ha => ?_
  · exact congrArg Thread.inTree (replace_threads_self ..)
  · exact hin
  · exact hinv.waiting id hin
  · exact hpos
  · rw [update_of_ne ha, replace_threads_of_ne _ _ ha]

theorem Inv.updatePriority (hinv : s.Inv h) (id : ThreadId) {priority : Int} (hpos : 0 ≤ priority) :
    (s.updatePriority bal id priority).Inv
      (if (s.threads id).inTree ∧ priority ≠ (s.threads id).priority then h.arrive id else h) := by
  by_cases hin : (s.threads id).inTree = true
  · by_cases hsame : priority = (s.threads id).priority
    · rw [if_neg fun hboth => hboth.2 hsame, KAddressArbiter.updatePriority, if_pos hsame]
      exact hinv
    · rw [if_pos ⟨hin, hsame⟩]
      exact hinv.updatePriority_of_inTree bal hpos hsame hin
  · rw [if_neg fun hboth => hin hboth.1, KAddressArbiter.updatePriority, if_neg hin]
    split_ifs
    · exact hinv
    · rw [Bool.not_eq_true] at hin
      exact hinv.update hin hin hpos

/-- What a call to wait comes to: at most the memory changes, or the wait begins. -/
def WaitOutcome (s : KAddressArbiter) (cur : ThreadId) (addr : BitVec 64)
    (outcome : Option SvcResult × KAddressArbiter) : Prop :=
  ∃ memory, (∃ result, outcome = (some result, { s with memory := memory })) ∨
    outcome = (none, ({ s with memory := memory } : KAddressArbiter).beginWait bal cur addr)

theorem waitOutcome_waitIfEqual (cur : ThreadId) (addr : BitVec 64) (value : BitVec 32)
    (timeout : Int) : s.WaitOutcome bal cur addr (s.waitIfEqual bal cur addr value timeout) := by
  refine ⟨s.memory, ?_⟩
  rw [waitIfEqual]
  split_ifs
  · exact inl ⟨_, rfl⟩
  · exact inl ⟨_, rfl⟩
  · exact inl ⟨_, rfl⟩
  · exact inr rfl

theorem waitOutcome_waitIfLessThan (cur : ThreadId) (addr : BitVec 64) (value : BitVec 32)
    (decrement : Bool) (timeout : Int) :
    s.WaitOutcome bal cur addr (s.waitIfLessThan bal cur addr value decrement timeout) := by
  obtain ⟨userValue, memory, hread⟩ : ∃ userValue memory,
      (if decrement then s.decrementIfLessThan addr value else (s.memory addr, s)) =
        (userValue, ({ s with memory := memory } : KAddressArbiter)) := by
    rw [decrementIfLessThan]
    split_ifs
    · exact ⟨_, _, rfl⟩
    · exact ⟨_, s.memory, rfl⟩
    · exact ⟨_, s.memory, rfl⟩
  rw [waitIfLessThan]
  simp only [hread]
  split_ifs
  · exact ⟨s.memory, inl ⟨_, rfl⟩⟩
  · exact ⟨memory, inl ⟨_, rfl⟩⟩
  · exact ⟨memory, inl ⟨_, rfl⟩⟩
  · exact ⟨memory, inr rfl⟩

theorem Inv.waitOutcome (hinv : s.Inv h) {cur : ThreadId} (hout : (s.threads cur).inTree = false)
    {outcome : Option SvcResult × KAddressArbiter} (hcur : s.WaitOutcome bal cur addr outcome) :
    outcome.2.Inv (if outcome.1 = none then h.arrive cur else h) := by
  obtain ⟨memory, ⟨result, rfl⟩ | rfl⟩ := hcur
  · rw [if_neg (Option.some_ne_none result)]
    exact hinv.setMemory memory
  · rw [if_pos rfl]
    exact (hinv.setMemory memory).beginWait bal hout addr

/-! ## Runs -/

inductive Operation where
  | waitIfLessThan (cur : ThreadId) (addr : BitVec 64) (value : BitVec 32) (decrement : Bool)
      (timeout : Int)
  | waitIfEqual (cur : ThreadId) (addr : BitVec 64) (value : BitVec 32) (timeout : Int)
  | cancelWait (id : ThreadId) (result : SvcResult)
  | updatePriority (id : ThreadId) (priority : Int)
  | requestTermination (id : ThreadId)
  | write (addr : BitVec 64) (value : BitVec 32)
  | signalToAddress (addr : BitVec 64) (value count : BitVec 32) (type : SignalType)

/-- One operation of a thread, of the kernel or of the program that writes its memory; no result is a
wait that has begun. -/
def perform (s : KAddressArbiter) : Operation → Option SvcResult × KAddressArbiter
  | .waitIfLessThan cur addr value decrement timeout =>
    s.waitIfLessThan bal cur addr value decrement timeout
  | .waitIfEqual cur addr value timeout => s.waitIfEqual bal cur addr value timeout
  | .cancelWait id result => (some .success, s.cancelWait bal id result)
  | .updatePriority id priority => (some .success, s.updatePriority bal id priority)
  | .requestTermination id =>
    (some .success, s.setThread id fun thread => { thread with terminationRequested := true })
  | .write addr value =>
    (some .success, { s with memory := Function.update s.memory addr value })
  | .signalToAddress addr value count type =>
    let (result, s) := s.signalToAddress bal addr value count type
    (some result, s)

/-- A thread that calls is not waiting, and priorities are not negative. -/
def Allows (s : KAddressArbiter) : Operation → Prop
  | .waitIfLessThan cur .. => (s.threads cur).waiting = false
  | .waitIfEqual cur .. => (s.threads cur).waiting = false
  | .updatePriority _ priority => 0 ≤ priority
  | _ => True

/-- The history after an operation. -/
def record (s : KAddressArbiter) (h : History) : Operation → History
  | .waitIfLessThan cur addr value decrement timeout =>
    if (s.waitIfLessThan bal cur addr value decrement timeout).1 = none then h.arrive cur else h
  | .waitIfEqual cur addr value timeout =>
    if (s.waitIfEqual bal cur addr value timeout).1 = none then h.arrive cur else h
  | .updatePriority id priority =>
    if (s.threads id).inTree ∧ priority ≠ (s.threads id).priority then h.arrive id else h
  | _ => h

/-- The states of the runs from an arbiter on which nobody waits. -/
inductive Reachable (bal : SearchTree.Balancing ThreadId) : KAddressArbiter → History → Prop where
  | start {s : KAddressArbiter} (h : History) (htree : s.tree = .leaf)
      (hout : ∀ id, (s.threads id).inTree = false)
      (hpriority : ∀ id, 0 ≤ (s.threads id).priority) : Reachable bal s h
  | step {s : KAddressArbiter} {h : History} (op : Operation) (hreach : Reachable bal s h)
      (hallowed : s.Allows op) : Reachable bal (s.perform bal op).2 (s.record bal h op)

theorem Inv.requestTermination (hinv : s.Inv h) (id : ThreadId) :
    (s.setThread id fun thread => { thread with terminationRequested := true }).Inv h := by
  have hsame : ∀ a, ((s.setThread id fun thread =>
      { thread with terminationRequested := true }).threads a) =
        { s.threads a with terminationRequested :=
          (if a = id then true else (s.threads a).terminationRequested) } := by
    intro a
    by_cases ha : a = id
    · subst ha
      simp only [setThread, update_self, if_true]
    · simp only [setThread, update_of_ne ha, if_neg ha]
  refine ⟨fun a => ?_, fun a ha => ?_, fun a => ?_, hinv.arrival, ?_⟩
  · rw [hsame]
    exact hinv.mem_iff a
  · rw [hsame] at ha ⊢
    exact hinv.waiting a ha
  · rw [hsame]
    exact hinv.priority a
  · refine hinv.sorted.imp fun hab => ?_
    rw [Before, hsame, hsame]
    exact hab

theorem Inv.out_of_not_waiting (hinv : s.Inv h)
    (hid : (s.threads id).waiting = false) : (s.threads id).inTree = false := by
  rw [← Bool.not_eq_true]
  intro hin
  rw [hinv.waiting id hin] at hid
  cases hid

theorem Inv.perform (hinv : s.Inv h) {op : Operation} (hallowed : s.Allows op) :
    (s.perform bal op).2.Inv (s.record bal h op) := by
  cases op with
  | waitIfLessThan cur addr value decrement timeout =>
    exact hinv.waitOutcome bal (hinv.out_of_not_waiting hallowed)
      (s.waitOutcome_waitIfLessThan bal cur addr value decrement timeout)
  | waitIfEqual cur addr value timeout =>
    exact hinv.waitOutcome bal (hinv.out_of_not_waiting hallowed)
      (s.waitOutcome_waitIfEqual bal cur addr value timeout)
  | cancelWait id result => exact hinv.cancelWait bal id result
  | updatePriority id priority => exact hinv.updatePriority bal id hallowed
  | requestTermination id => exact hinv.requestTermination id
  | write addr value => exact hinv.setMemory _
  | signalToAddress addr value count type =>
    obtain ⟨hrefuse, haccept⟩ := hinv.signalToAddress bal addr value count type
    by_cases hrefused : s.Refused addr value type
    · rw [KAddressArbiter.perform, hrefuse hrefused]
      exact hinv
    · obtain ⟨s', heq, hinv', -⟩ := haccept hrefused
      rw [KAddressArbiter.perform, heq]
      exact hinv'

theorem Reachable.inv (hreach : Reachable bal s h) : s.Inv h := by
  induction hreach with
  | start h htree hout hpriority =>
    refine ⟨fun id => ?_, fun id hid => ?_, hpriority, ?_, ?_⟩
    · rw [htree, hout]
      exact iff_of_false not_mem_nil Bool.false_ne_true
    · rw [hout] at hid
      cases hid
    · rw [htree]
      exact fun id hid => absurd hid not_mem_nil
    · rw [htree]
      exact List.Pairwise.nil
  | step op _ hallowed ih => exact ih.perform bal hallowed

/-- In every run, a signal wakes the first `count` of the threads that wait at its address, all of
them where `count` is not positive, in the order of priority and of arrival within a priority, and
takes exactly those out of the tree; what it writes depends on the number of waiters; and where it
finds another value in memory it changes nothing. -/
theorem reachable_signal (hreach : Reachable bal s h) (addr : BitVec 64) (value count : BitVec 32)
    (type : SignalType) :
    (∀ id, id ∈ s.waiters addr ↔
        (s.threads id).inTree = true ∧ (s.threads id).conditionVariableKey = addr) ∧
      ((s.waiters addr).Pairwise fun a b => (s.threads a).priority < (s.threads b).priority ∨
        ((s.threads a).priority = (s.threads b).priority ∧ h.arrival a < h.arrival b)) ∧
      (s.Refused addr value type →
        s.signalToAddress bal addr value count type = (.invalidState, s)) ∧
      (¬s.Refused addr value type →
        ∃ s', s.signalToAddress bal addr value count type = (.success, s') ∧
          Signalled s s' addr value count type) := by
  have hinv := hreach.inv
  obtain ⟨hrefuse, haccept⟩ := hinv.signalToAddress bal addr value count type
  refine ⟨fun id => ?_, ?_, hrefuse, fun haccepted => ?_⟩
  · rw [waiters, mem_filter, decide_eq_true_eq, hinv.mem_iff]
  · refine (hinv.sorted.filter _).imp_of_mem fun {a b} ha hb hab => ?_
    rw [waiters, mem_filter, decide_eq_true_eq] at ha hb
    rw [Before, Thread.order, Thread.order, ha.2, hb.2, Prod.Lex.toLex_lt_toLex] at hab
    rcases hab with (hlt | ⟨-, hlt⟩) | ⟨heq, hlt⟩
    · exact absurd hlt (lt_irrefl _)
    · exact inl hlt
    · exact inr ⟨congrArg (fun p => (ofLex p).2) heq, hlt⟩
  · obtain ⟨s', heq, -, hsignalled⟩ := haccept haccepted
    exact ⟨s', heq, hsignalled⟩

/-- A tree that is rebuilt at every removal. -/
def rebuilding : SearchTree.Balancing ThreadId where
  insertColor := fun t => t
  rotated_insertColor := .refl
  remove := fun a t => (t.toList.erase a).foldr (fun b r => .node .leaf b r) .leaf
  toList_remove := fun a t => by
    induction t.toList.erase a with
    | nil => rfl
    | cons b l ih => exact congrArg (b :: ·) ih

/-- Thread 2 has the higher priority. -/
def idleThreads : KAddressArbiter where
  tree := .leaf
  threads := fun id => ⟨if id = 2 then 20 else 30, 0, false, false, .success, false⟩
  memory := fun _ => 0

/-- Threads 1 and 2 have begun to wait at an address, in that order. -/
def twoWaiters : KAddressArbiter :=
  ((idleThreads.perform rebuilding (.waitIfEqual 1 0x1000 0 (-1))).2.perform rebuilding
    (.waitIfEqual 2 0x1000 0 (-1))).2

theorem signalled_twoWaiters :
    twoWaiters.waiters 0x1000 = [2, 1] ∧
      ∃ s', twoWaiters.signalToAddress rebuilding 0x1000 0 1 .signalAndModifyByWaitingCountIfEqual =
          (.success, s') ∧
        Signalled twoWaiters s' 0x1000 0 1 .signalAndModifyByWaitingCountIfEqual := by
  have hstart : Reachable rebuilding idleThreads ⟨fun _ => 0, 0⟩ := by
    refine .start _ rfl (fun _ => rfl) fun id => ?_
    show (0 : Int) ≤ if id = 2 then 20 else 30
    split_ifs <;> decide
  have hreach := (hstart.step (.waitIfEqual 1 0x1000 0 (-1)) rfl).step
    (.waitIfEqual 2 0x1000 0 (-1)) rfl
  have hspec := reachable_signal rebuilding hreach 0x1000 0 1 .signalAndModifyByWaitingCountIfEqual
  exact ⟨by decide, hspec.2.2.2 fun hrefused => hrefused.2 rfl⟩

end KAddressArbiter

end AddressArbiter

end Sudachi.Kernel
