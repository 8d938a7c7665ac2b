import Sudachi.VideoCore.SyncpointManager

/-!
# Every interleaving at a syncpoint is sound

The counter runs ahead of the storage: after an atomic add there may be stored actions that it has
reached. `Invariant.covered` says what makes up for it, namely that for each of them some thread
is still in front of the locked part of `Increment` with a captured value that is large enough.
The other fields are the books: `ledger` lists the actions that are stored, called or
deregistered, each once, and a registration that is not in it belongs to exactly one thread.
-/

set_option autoImplicit false

namespace Sudachi.VideoCore.SyncpointManager

open List Function Or
open Option (some.inj)

variable {T : Type}

/-- The actions that are stored, called or deregistered. -/
def State.ledger (s : State T) : List Nat :=
  s.actionStorage.map RegisteredAction.action ++ (s.executed.map Execution.action ++ s.deregistered)

/-- What holds between the pieces of an interleaving. -/
structure Invariant (s : State T) : Prop where
  sorted : s.actionStorage.Pairwise (fun x y => x.expectedValue ≤ y.expectedValue)
  ledger_nodup : s.ledger.Nodup
  ledger_known : ∀ a ∈ s.ledger, a < s.registered.length
  waiting : ∀ t expectedValue a, s.threads t = .registering expectedValue a →
    s.registered[a]? = some expectedValue ∧ a ∉ s.ledger
  waiting_once : ∀ t t' e e' a, s.threads t = .registering e a →
    s.threads t' = .registering e' a → t = t'
  accounted : ∀ a < s.registered.length, a ∈ s.ledger ∨ ∃ t e, s.threads t = .registering e a
  stored : ∀ x ∈ s.actionStorage, s.registered[x.action]? = some x.expectedValue
  called : ∀ x ∈ s.executed, x.syncpoint ≤ s.syncpoint ∧
    ∃ expectedValue, s.registered[x.action]? = some expectedValue ∧ expectedValue ≤ x.syncpoint
  captured : ∀ t newValue, s.threads t = .incrementing newValue → newValue ≤ s.syncpoint
  /-- A stored action that the counter has reached has an increment on its way that will call
  it. -/
  covered : ∀ x ∈ s.actionStorage, x.expectedValue ≤ s.syncpoint →
    ∃ t newValue, s.threads t = .incrementing newValue ∧ x.expectedValue ≤ newValue

variable {storage : List RegisteredAction}

theorem invariant_initial : Invariant (State.initial T) where
  sorted := List.Pairwise.nil
  ledger_nodup := nodup_nil
  ledger_known := by intro a ha; cases ha
  waiting := by intro t e a ht; cases ht
  waiting_once := by intro t t' e e' a ht; cases ht
  accounted := by intro a ha; cases ha
  stored := by intro x hx; cases hx
  called := by intro x hx; cases hx
  captured := by intro t newValue ht; cases ht
  covered := by intro x hx; cases hx

/-! ## The two loops -/

/-- What `Increment` calls and what it leaves are the storage, in order. -/
theorem runReached_append (newValue : Nat) (storage : List RegisteredAction) :
    (runReached newValue storage).1 ++ (runReached newValue storage).2 = storage := by
  induction storage with
  | nil => rfl
  | cons it rest ih =>
    rw [runReached]
    split
    · rfl
    · simpa using ih

theorem runReached_called (newValue : Nat) (storage : List RegisteredAction) :
    ∀ x ∈ (runReached newValue storage).1, x.expectedValue ≤ newValue := by
  induction storage with
  | nil => intro x hx; cases hx
  | cons it rest ih =>
    intro x hx
    rw [runReached] at hx
    split at hx
    · cases hx
    · rcases mem_cons.mp hx with rfl | hx
      · omega
      · exact ih x hx

/-- In a sorted storage the loop stops at the right place: it leaves nothing that the captured
value has reached. -/
theorem runReached_left {newValue : Nat}
    (hsorted : storage.Pairwise (fun x y => x.expectedValue ≤ y.expectedValue)) :
    ∀ x ∈ (runReached newValue storage).2, newValue < x.expectedValue := by
  induction storage with
  | nil => intro x hx; cases hx
  | cons it rest ih =>
    intro x hx
    obtain ⟨hit, hrest⟩ := pairwise_cons.mp hsorted
    rw [runReached] at hx
    split at hx
    · rcases mem_cons.mp hx with rfl | hx
      · omega
      · have := hit x hx
        omega
    · exact ih hrest x hx

theorem emplaceSorted_perm (storage : List RegisteredAction) (new : RegisteredAction) :
    (emplaceSorted storage new).Perm (new :: storage) :=
  perm_orderedInsert _ new storage

theorem mem_emplaceSorted {new x : RegisteredAction} :
    x ∈ emplaceSorted storage new ↔ x = new ∨ x ∈ storage :=
  mem_orderedInsert _

theorem emplaceSorted_sorted (new : RegisteredAction)
    (hsorted : storage.Pairwise (fun x y => x.expectedValue ≤ y.expectedValue)) :
    (emplaceSorted storage new).Pairwise (fun x y => x.expectedValue ≤ y.expectedValue) := by
  induction storage with
  | nil => exact pairwise_singleton _ new
  | cons it rest ih =>
    obtain ⟨hit, hrest⟩ := pairwise_cons.mp hsorted
    have hinner := ih hrest
    rw [emplaceSorted] at hinner ⊢
    rw [orderedInsert_cons]
    split
    · rename_i hle
      refine pairwise_cons.mpr ⟨?_, hsorted⟩
      intro x hx
      rcases mem_cons.mp hx with rfl | hx
      · exact hle
      · exact hle.trans (hit x hx)
    · rename_i hlt
      refine pairwise_cons.mpr ⟨?_, hinner⟩
      intro x hx
      rcases mem_emplaceSorted.mp hx with rfl | hx
      · omega
      · exact hit x hx

/-! ## One piece at a time -/

section Steps

variable {s : State T}
variable {t : T} {a e : Nat} {s' : State T}

theorem Invariant.new_action (h : Invariant s) : s.registered.length ∉ s.ledger := by
  intro hin
  exact lt_irrefl _ (h.ledger_known _ hin)

/-- An appended registration changes nothing that was already recorded. -/
theorem registered_append {registered : List Nat} (new : Nat)
    (h : registered[a]? = some e) : (registered ++ [new])[a]? = some e := by
  have ha : a < registered.length := (List.getElem?_eq_some_iff.mp h).1
  rw [getElem?_append_left ha]
  exact h

theorem Invariant.waiting_lt (h : Invariant s)
    (ht : s.threads t = .registering e a) : a < s.registered.length :=
  (List.getElem?_eq_some_iff.mp (h.waiting t e a ht).1).1

theorem ledger_execute (s : State T) (action : Nat) :
    (s.execute action).ledger.Perm (action :: s.ledger) := by
  simp only [State.ledger, State.execute, map_append, map_cons, map_nil]
  grind

/-- The registration without its first check: a new action that no list and no thread has. -/
theorem Invariant.execute_new (h : Invariant s) {expectedValue : Nat}
    (hreached : expectedValue ≤ s.syncpoint) :
    Invariant (State.execute { s with registered := s.registered ++ [expectedValue] }
      s.registered.length) := by
  have hperm := ledger_execute { s with registered := s.registered ++ [expectedValue] }
    s.registered.length
  have hmem : ∀ a, a ∈ (State.execute { s with registered := s.registered ++ [expectedValue] }
      s.registered.length).ledger ↔ a = s.registered.length ∨ a ∈ s.ledger := by
    intro a
    rw [hperm.mem_iff, mem_cons]
    exact .rfl
  refine { sorted := h.sorted, ledger_nodup := ?_, ledger_known := ?_, waiting := ?_,
           waiting_once := h.waiting_once, accounted := ?_, stored := ?_, called := ?_,
           captured := h.captured, covered := h.covered }
  · exact hperm.nodup_iff.mpr (nodup_cons.mpr ⟨h.new_action, h.ledger_nodup⟩)
  · intro a ha
    change a < (s.registered ++ [expectedValue]).length
    rw [length_append, length_singleton]
    rcases (hmem a).mp ha with rfl | ha
    · omega
    · have := h.ledger_known a ha
      omega
  · intro t e a ht
    obtain ⟨hval, hnot⟩ := h.waiting t e a ht
    refine ⟨registered_append _ hval, ?_⟩
    rw [hmem, not_or]
    exact ⟨(h.waiting_lt ht).ne, hnot⟩
  · intro a ha
    change a < (s.registered ++ [expectedValue]).length at ha
    rw [length_append, length_singleton] at ha
    rcases Nat.lt_succ_iff_lt_or_eq.mp ha with ha | rfl
    · rcases h.accounted a ha with hin | hin
      · exact inl ((hmem a).mpr (inr hin))
      · exact inr hin
    · exact inl ((hmem _).mpr (inl rfl))
  · intro x hx
    exact registered_append _ (h.stored x hx)
  · intro x hx
    rcases mem_append.mp hx with hx | hx
    · obtain ⟨hle, e, hval, he⟩ := h.called x hx
      exact ⟨hle, e, registered_append _ hval, he⟩
    · obtain rfl := mem_singleton.mp hx
      exact ⟨le_rfl, expectedValue, getElem?_concat_length, hreached⟩

/-- The first element with a property and the others are the whole list. -/
theorem perm_cons_eraseP {α : Type} {p : α → Bool} {xs : List α} {x : α}
    (h : xs.find? p = some x) : xs.Perm (x :: xs.eraseP p) := by
  induction xs with
  | nil => cases h
  | cons y ys ih =>
    rw [find?_cons] at h
    split at h
    · rename_i hy
      obtain rfl := some.inj h
      rw [eraseP_cons_of_pos hy]
    · rename_i hy
      rw [eraseP_cons_of_neg (by simp [hy])]
      exact ((ih h).cons y).trans (List.Perm.swap _ _ _)

theorem ledger_deregister (s : State T) (handle : Nat) :
    (s.deregister handle).ledger.Perm s.ledger := by
  rw [State.deregister]
  split
  · exact .refl _
  · rename_i it hfind
    have hactions := (perm_cons_eraseP hfind).map RegisteredAction.action
    simp only [State.ledger]
    refine List.Perm.trans ?_ (hactions.symm.append_right _)
    simp only [map_cons]
    grind

theorem Invariant.deregister (h : Invariant s) (handle : Nat) :
    Invariant (s.deregister handle) := by
  have hperm := ledger_deregister s handle
  have hmem : ∀ a, a ∈ (s.deregister handle).ledger ↔ a ∈ s.ledger := fun a => hperm.mem_iff
  have hnodup := hperm.nodup_iff.mpr h.ledger_nodup
  rw [State.deregister] at hmem hnodup ⊢
  split at hmem
  · rename_i hfind
    simpa only [hfind] using h
  · rename_i it hfind
    simp only [hfind] at hnodup ⊢
    have hleft := eraseP_sublist (p := fun x => x.node = handle) (l := s.actionStorage)
    exact
      { sorted := h.sorted.sublist hleft
        ledger_nodup := hnodup
        ledger_known := fun a ha => h.ledger_known a ((hmem a).mp ha)
        waiting := fun t e a ht =>
          ⟨(h.waiting t e a ht).1, fun hin => (h.waiting t e a ht).2 ((hmem a).mp hin)⟩
        waiting_once := h.waiting_once
        accounted := fun a ha => (h.accounted a ha).imp_left (hmem a).mpr
        stored := fun x hx => h.stored x (hleft.subset hx)
        called := h.called
        captured := h.captured
        covered := fun x hx => h.covered x (hleft.subset hx) }

variable [DecidableEq T]

/-- After an update of one thread, a thread is either the updated one in its new place or where it
was. -/
theorem threads_update_cases {threads : T → ThreadState} {t' : T} {place place' : ThreadState}
    (h : update threads t place t' = place') :
    t' = t ∧ place = place' ∨ t' ≠ t ∧ threads t' = place' := by
  by_cases ht : t' = t
  · subst ht
    rw [update_self] at h
    exact inl ⟨rfl, h⟩
  · rw [update_of_ne ht] at h
    exact inr ⟨ht, h⟩

theorem Invariant.fetchAdd (h : Invariant s) (ht : s.threads t = .idle)
    (hwrap : s.syncpoint + 1 < 2 ^ 32) : Invariant (s.fetchAdd t) := by
  have hmod : (s.syncpoint + 1) % 2 ^ 32 = s.syncpoint + 1 := Nat.mod_eq_of_lt hwrap
  have hother : ∀ {t' e a}, (s.fetchAdd t).threads t' = .registering e a →
      s.threads t' = .registering e a := by
    intro t' e a h'
    rcases threads_update_cases h' with ⟨_, hplace⟩ | ⟨_, hplace⟩
    · cases hplace
    · exact hplace
  refine { sorted := h.sorted, ledger_nodup := h.ledger_nodup, ledger_known := h.ledger_known,
           waiting := ?_, waiting_once := ?_, accounted := ?_, stored := h.stored, called := ?_,
           captured := ?_, covered := ?_ }
  · intro t' e a h'
    exact h.waiting t' e a (hother h')
  · intro t₁ t₂ e₁ e₂ a h₁ h₂
    exact h.waiting_once t₁ t₂ e₁ e₂ a (hother h₁) (hother h₂)
  · intro a ha
    rcases h.accounted a ha with hin | ⟨t', e, h'⟩
    · exact inl hin
    · refine inr ⟨t', e, ?_⟩
      have hne : t' ≠ t := by
        intro heq
        rw [heq, ht] at h'
        cases h'
      exact (update_of_ne hne _ _).trans h'
  · intro x hx
    obtain ⟨hle, e, he⟩ := h.called x hx
    refine ⟨?_, e, he⟩
    change x.syncpoint ≤ (s.syncpoint + 1) % 2 ^ 32
    omega
  · intro t' v h'
    change v ≤ (s.syncpoint + 1) % 2 ^ 32
    rcases threads_update_cases h' with ⟨_, hplace⟩ | ⟨_, hplace⟩
    · injection hplace with hv
      omega
    · have := h.captured t' v hplace
      omega
  · -- the thread itself carries the new value of the counter
    intro x _ hle
    exact ⟨t, _, update_self _ _ _, hle⟩

theorem ledger_runActions (s : State T) (t : T) (newValue : Nat) :
    (s.runActions t newValue).ledger.Perm s.ledger := by
  have hsplit := runReached_append newValue s.actionStorage
  have hstorage : s.actionStorage.map RegisteredAction.action =
      (runReached newValue s.actionStorage).1.map RegisteredAction.action ++
        (runReached newValue s.actionStorage).2.map RegisteredAction.action := by
    rw [← map_append, hsplit]
  have hcalled : ((runReached newValue s.actionStorage).1.map
      (fun it => (⟨it.action, s.syncpoint⟩ : Execution))).map Execution.action =
        (runReached newValue s.actionStorage).1.map RegisteredAction.action := by
    rw [map_map]
    rfl
  rw [perm_iff_count]
  intro a
  simp only [State.ledger, State.runActions, map_append, hcalled, hstorage, count_append]
  omega

theorem Invariant.runActions (h : Invariant s) {newValue : Nat}
    (ht : s.threads t = .incrementing newValue) : Invariant (s.runActions t newValue) := by
  have hperm := ledger_runActions s t newValue
  have hmem : ∀ a, a ∈ (s.runActions t newValue).ledger ↔ a ∈ s.ledger := fun a => hperm.mem_iff
  have hsplit := runReached_append newValue s.actionStorage
  have hleft : ∀ x ∈ (s.runActions t newValue).actionStorage, x ∈ s.actionStorage := by
    intro x hx
    rw [← hsplit]
    exact mem_append_right _ hx
  have hother : ∀ {t' e a}, (s.runActions t newValue).threads t' = .registering e a →
      s.threads t' = .registering e a := by
    intro t' e a h'
    rcases threads_update_cases h' with ⟨_, hplace⟩ | ⟨_, hplace⟩
    · cases hplace
    · exact hplace
  refine { sorted := ?_, ledger_nodup := hperm.nodup_iff.mpr h.ledger_nodup, ledger_known := ?_,
           waiting := ?_, waiting_once := ?_, accounted := ?_, stored := ?_, called := ?_,
           captured := ?_, covered := ?_ }
  · have hsorted := h.sorted
    rw [← hsplit] at hsorted
    exact (pairwise_append.mp hsorted).2.1
  · intro a ha
    exact h.ledger_known a ((hmem a).mp ha)
  · intro t' e a h'
    rw [hmem]
    exact h.waiting t' e a (hother h')
  · intro t₁ t₂ e₁ e₂ a h₁ h₂
    exact h.waiting_once t₁ t₂ e₁ e₂ a (hother h₁) (hother h₂)
  · intro a ha
    rcases h.accounted a ha with hin | ⟨t', e, h'⟩
    · exact inl ((hmem a).mpr hin)
    · refine inr ⟨t', e, ?_⟩
      have hne : t' ≠ t := by
        intro heq
        rw [heq, ht] at h'
        cases h'
      exact (update_of_ne hne _ _).trans h'
  · intro x hx
    exact h.stored x (hleft x hx)
  · intro x hx
    rcases mem_append.mp hx with hx | hx
    · exact h.called x hx
    · obtain ⟨it, hit, rfl⟩ := mem_map.mp hx
      have hin : it ∈ s.actionStorage := by
        rw [← hsplit]
        exact mem_append_left _ hit
      have hreached := runReached_called newValue s.actionStorage it hit
      have hv := h.captured t newValue ht
      exact ⟨le_rfl, it.expectedValue, h.stored it hin, hreached.trans hv⟩
  · intro t' v h'
    rcases threads_update_cases h' with ⟨_, hplace⟩ | ⟨_, hplace⟩
    · cases hplace
    · exact h.captured t' v hplace
  · -- what is left expects more than this thread has captured, so another thread covers it
    intro x hx hle
    have hmore := runReached_left h.sorted x hx
    obtain ⟨t', v, h', hv⟩ := h.covered x (hleft x hx) hle
    have hne : t' ≠ t := by
      intro heq
      rw [heq, ht] at h'
      injection h' with hval
      omega
    exact ⟨t', v, (update_of_ne hne _ _).trans h', hv⟩

theorem Invariant.checkUnlocked (h : Invariant s) (ht : s.threads t = .idle)
    (expectedValue : Nat) : Invariant (s.checkUnlocked t expectedValue) := by
  rw [State.checkUnlocked]
  split
  · rename_i hreached
    exact h.execute_new hreached
  refine { sorted := h.sorted, ledger_nodup := h.ledger_nodup, ledger_known := ?_, waiting := ?_,
           waiting_once := ?_, accounted := ?_, stored := ?_, called := ?_, captured := ?_,
           covered := ?_ }
  · intro a ha
    have := h.ledger_known a ha
    change a < (s.registered ++ [expectedValue]).length
    rw [length_append]
    omega
  · intro t' e a h'
    rcases threads_update_cases h' with ⟨_, hplace⟩ | ⟨_, hplace⟩
    · injection hplace with he ha
      subst he ha
      exact ⟨getElem?_concat_length, h.new_action⟩
    · obtain ⟨hval, hnot⟩ := h.waiting t' e a hplace
      exact ⟨registered_append _ hval, hnot⟩
  · intro t₁ t₂ e₁ e₂ a h₁ h₂
    rcases threads_update_cases h₁ with ⟨h₁t, h₁p⟩ | ⟨_, h₁p⟩
    · injection h₁p with _ ha
      rcases threads_update_cases h₂ with ⟨h₂t, _⟩ | ⟨_, h₂p⟩
      · rw [h₁t, h₂t]
      · exact absurd (h.waiting_lt h₂p) (by omega)
    · rcases threads_update_cases h₂ with ⟨_, h₂p⟩ | ⟨_, h₂p⟩
      · injection h₂p with _ ha
        exact absurd (h.waiting_lt h₁p) (by omega)
      · exact h.waiting_once t₁ t₂ e₁ e₂ a h₁p h₂p
  · intro a ha
    change a < (s.registered ++ [expectedValue]).length at ha
    rw [length_append, length_singleton] at ha
    rcases Nat.lt_succ_iff_lt_or_eq.mp ha with ha | rfl
    · rcases h.accounted a ha with hin | ⟨t', e, h'⟩
      · exact inl hin
      · have hne : t' ≠ t := by
          intro heq
          rw [heq, ht] at h'
          cases h'
        exact inr ⟨t', e, (update_of_ne hne _ _).trans h'⟩
    · exact inr ⟨t, expectedValue, update_self _ _ _⟩
  · intro x hx
    exact registered_append _ (h.stored x hx)
  · intro x hx
    obtain ⟨hle, e, hval, he⟩ := h.called x hx
    exact ⟨hle, e, registered_append _ hval, he⟩
  · intro t' v h'
    rcases threads_update_cases h' with ⟨_, hplace⟩ | ⟨_, hplace⟩
    · cases hplace
    · exact h.captured t' v hplace
  · intro x hx hle
    obtain ⟨t', v, h', hv⟩ := h.covered x hx hle
    have hne : t' ≠ t := by
      intro heq
      rw [heq, ht] at h'
      cases h'
    exact ⟨t', v, (update_of_ne hne _ _).trans h', hv⟩

theorem Invariant.registerLocked (h : Invariant s) (ht : s.threads t = .registering e a)
    (node : Nat) : Invariant (s.registerLocked t node e a) := by
  obtain ⟨hval, hnot⟩ := h.waiting t e a ht
  -- whichever branch is taken, the action moves from the thread to the ledger
  have hperm : (s.registerLocked t node e a).ledger.Perm (a :: s.ledger) := by
    rw [State.registerLocked]
    split
    · exact ledger_execute _ a
    · exact ((emplaceSorted_perm s.actionStorage ⟨node, e, a⟩).map _).append_right _
  have hthreads : (s.registerLocked t node e a).threads = update s.threads t .idle := by
    rw [State.registerLocked]
    split <;> rfl
  have hregistered : (s.registerLocked t node e a).registered = s.registered := by
    rw [State.registerLocked]
    split <;> rfl
  have hsyncpoint : (s.registerLocked t node e a).syncpoint = s.syncpoint := by
    rw [State.registerLocked]
    split <;> rfl
  have hmem : ∀ b, b ∈ (s.registerLocked t node e a).ledger ↔ b = a ∨ b ∈ s.ledger := by
    intro b
    rw [hperm.mem_iff, mem_cons]
  have hstored : ∀ x ∈ (s.registerLocked t node e a).actionStorage,
      (x = ⟨node, e, a⟩ ∧ s.syncpoint < e) ∨ x ∈ s.actionStorage := by
    intro x hx
    rw [State.registerLocked] at hx
    split at hx
    · exact inr hx
    · rename_i hlt
      rcases mem_emplaceSorted.mp hx with hx | hx
      · exact inl ⟨hx, by omega⟩
      · exact inr hx
  have hother : ∀ {t' place}, (s.registerLocked t node e a).threads t' = place →
      place ≠ .idle → t' ≠ t ∧ s.threads t' = place := by
    intro t' place h' hidle
    rw [hthreads] at h'
    rcases threads_update_cases h' with ⟨_, hplace⟩ | hplace
    · exact absurd hplace.symm hidle
    · exact hplace
  refine { sorted := ?_, ledger_nodup := ?_, ledger_known := ?_, waiting := ?_,
           waiting_once := ?_, accounted := ?_, stored := ?_, called := ?_, captured := ?_,
           covered := ?_ }
  · rw [State.registerLocked]
    split
    · exact h.sorted
    · exact emplaceSorted_sorted _ h.sorted
  · exact hperm.nodup_iff.mpr (nodup_cons.mpr ⟨hnot, h.ledger_nodup⟩)
  · intro b hb
    rw [hregistered]
    rcases (hmem b).mp hb with rfl | hb
    · exact h.waiting_lt ht
    · exact h.ledger_known b hb
  · intro t' e' b h'
    obtain ⟨hne, hplace⟩ := hother h' (by simp)
    obtain ⟨hval', hnot'⟩ := h.waiting t' e' b hplace
    rw [hregistered, hmem, not_or]
    refine ⟨hval', ?_, hnot'⟩
    intro hb
    subst hb
    exact hne (h.waiting_once t' t e' e b hplace ht)
  · intro t₁ t₂ e₁ e₂ b h₁ h₂
    exact h.waiting_once t₁ t₂ e₁ e₂ b (hother h₁ (by simp)).2 (hother h₂ (by simp)).2
  · intro b hb
    rw [hregistered] at hb
    rcases h.accounted b hb with hin | ⟨t', e', h'⟩
    · exact inl ((hmem b).mpr (inr hin))
    · by_cases heq : t' = t
      · rw [heq, ht] at h'
        injection h' with _ hab
        exact inl ((hmem b).mpr (inl hab.symm))
      · refine inr ⟨t', e', ?_⟩
        rw [hthreads, update_of_ne heq]
        exact h'
  · intro x hx
    rw [hregistered]
    rcases hstored x hx with ⟨rfl, _⟩ | hx
    · exact hval
    · exact h.stored x hx
  · intro x hx
    rw [hsyncpoint, hregistered]
    rw [State.registerLocked] at hx
    split at hx
    · rename_i hreached
      rcases mem_append.mp hx with hx | hx
      · exact h.called x hx
      · obtain rfl := mem_singleton.mp hx
        exact ⟨le_rfl, e, hval, hreached⟩
    · exact h.called x hx
  · intro t' v h'
    rw [hsyncpoint]
    exact h.captured t' v (hother h' (by simp)).2
  · -- the second check is made under the lock, so a new element is not yet reached
    intro x hx hle
    rw [hsyncpoint] at hle
    rcases hstored x hx with ⟨rfl, hlt⟩ | hx
    · exact absurd hlt (by simpa using hle)
    · obtain ⟨t', v, h', hv⟩ := h.covered x hx hle
      have hne : t' ≠ t := by
        intro heq
        rw [heq, ht] at h'
        cases h'
      refine ⟨t', v, ?_, hv⟩
      rw [hthreads, update_of_ne hne]
      exact h'

theorem Invariant.step (h : Invariant s) {i : Step T} (hi : step s i = some s')
    (hwrap : i.IsFetchAdd = true → s.syncpoint + 1 < 2 ^ 32) : Invariant s' := by
  cases i with
  | fetchAdd t =>
    rw [SyncpointManager.step] at hi
    split at hi
    · rename_i ht
      obtain rfl := some.inj hi
      exact h.fetchAdd ht (hwrap rfl)
    · cases hi
  | runActions t =>
    rw [SyncpointManager.step] at hi
    split at hi
    · rename_i newValue ht
      obtain rfl := some.inj hi
      exact h.runActions ht
    · cases hi
  | checkUnlocked t expectedValue =>
    rw [SyncpointManager.step] at hi
    split at hi
    · rename_i ht
      obtain rfl := some.inj hi
      exact h.checkUnlocked ht expectedValue
    · cases hi
  | registerLocked t node =>
    rw [SyncpointManager.step] at hi
    split at hi
    · rename_i e a ht
      split at hi
      · cases hi
      · obtain rfl := some.inj hi
        exact h.registerLocked ht node
    · cases hi
  | deregister handle =>
    obtain rfl := some.inj hi
    exact h.deregister handle

/-- The counter moves by one with the atomic add and not at all otherwise. -/
theorem step_syncpoint {i : Step T} (hi : step s i = some s') :
    s'.syncpoint = if i.IsFetchAdd then (s.syncpoint + 1) % 2 ^ 32 else s.syncpoint := by
  cases i with
  | fetchAdd t | runActions t =>
    rw [SyncpointManager.step] at hi
    split at hi
    · obtain rfl := some.inj hi
      rfl
    · cases hi
  | checkUnlocked t expectedValue =>
    rw [SyncpointManager.step] at hi
    split at hi
    · obtain rfl := some.inj hi
      rw [State.checkUnlocked]
      split <;> rfl
    · cases hi
  | registerLocked t node =>
    rw [SyncpointManager.step] at hi
    split at hi
    · split at hi
      · cases hi
      · obtain rfl := some.inj hi
        rw [State.registerLocked]
        split <;> rfl
    · cases hi
  | deregister handle =>
    obtain rfl := some.inj hi
    change (s.deregister handle).syncpoint = s.syncpoint
    rw [State.deregister]
    split <;> rfl

/-- An interleaving without a wrap keeps the invariant. -/
theorem Invariant.run {is : List (Step T)} (h : Invariant s) (his : run s is = some s')
    (hwrap : s.syncpoint + increments is < 2 ^ 32) : Invariant s' := by
  induction is generalizing s with
  | nil =>
    obtain rfl := some.inj his
    exact h
  | cons i is ih =>
    obtain ⟨s₁, hi, hrest⟩ := Option.bind_eq_some_iff.mp his
    rw [increments, countP_cons] at hwrap
    have hcount : increments is = countP Step.IsFetchAdd is := rfl
    have hnext : Invariant s₁ := by
      refine h.step hi ?_
      intro hadd
      rw [if_pos hadd] at hwrap
      omega
    refine ih hnext hrest ?_
    rw [step_syncpoint hi]
    split
    · rename_i hadd
      rw [if_pos hadd] at hwrap
      rw [Nat.mod_eq_of_lt (by omega)]
      omega
    · rename_i hadd
      rw [if_neg hadd] at hwrap
      exact hwrap

end Steps

/-! ## What the invariant gives -/

section Promises

variable {s : State T}

theorem mem_ledger {a : Nat} : a ∈ s.ledger ↔ a ∈ s.actionStorage.map RegisteredAction.action ∨
      a ∈ s.executed.map Execution.action ∨ a ∈ s.deregistered := by
  rw [State.ledger, mem_append, mem_append]

theorem Invariant.calls_le_one (h : Invariant s) (a : Nat) : s.calls a ≤ 1 := by
  have hcalls := (nodup_append.mp (nodup_append.mp h.ledger_nodup).2.1).1
  exact nodup_iff_count_le_one.mp hcalls a

/-- The three parts of the ledger have no action in common. -/
theorem Invariant.calls_eq_zero (h : Invariant s) {a : Nat}
    (ha : a ∈ s.actionStorage.map RegisteredAction.action ∨ a ∈ s.deregistered) :
    s.calls a = 0 := by
  obtain ⟨_, hrest, hstored⟩ := nodup_append.mp h.ledger_nodup
  obtain ⟨_, _, hcalled⟩ := nodup_append.mp hrest
  refine count_eq_zero.mpr ?_
  intro hin
  rcases ha with ha | ha
  · exact hstored a ha a (mem_append_left _ hin) rfl
  · exact hcalled a hin a ha rfl

theorem Invariant.nothingLeft (h : Invariant s) (hidle : ∀ t, s.threads t = .idle)
    {x : RegisteredAction} (hx : x ∈ s.actionStorage) : s.syncpoint < x.expectedValue := by
  by_contra hle
  obtain ⟨t, v, ht, _⟩ := h.covered x hx (by omega)
  rw [hidle t] at ht
  cases ht

theorem Invariant.sound (h : Invariant s) : Sound s where
  sorted := h.sorted
  once := h.calls_le_one
  notBefore := fun x hx => (h.called x hx).2
  dropped := fun a ha => h.calls_eq_zero (inr ha)
  nothingLeft := fun hidle x hx => h.nothingLeft hidle hx
  complete := by
    intro hidle a e ha hkept
    have hin : a ∈ s.ledger := by
      rcases h.accounted a (List.getElem?_eq_some_iff.mp ha).1 with hin | ⟨t, e', ht⟩
      · exact hin
      · rw [hidle t] at ht
        cases ht
    split
    · rename_i hreached
      -- it is not stored, since a stored action has not been reached
      rcases mem_ledger.mp hin with hin | hin | hin
      · obtain ⟨x, hx, rfl⟩ := mem_map.mp hin
        have hlt := h.nothingLeft hidle hx
        have hval := (h.stored x hx).symm.trans ha
        injection hval with hval
        omega
      · have hpos : 0 < s.calls a := count_pos_iff.mpr hin
        have hle := h.calls_le_one a
        omega
      · exact absurd hin hkept
    · rename_i hmore
      rcases mem_ledger.mp hin with hin | hin | hin
      · exact ⟨h.calls_eq_zero (inl hin), hin⟩
      · -- it is not called, since the counter at a call is no more than it is now
        obtain ⟨x, hx, rfl⟩ := mem_map.mp hin
        obtain ⟨hle, e', hval, he'⟩ := h.called x hx
        have hval := hval.symm.trans ha
        injection hval with hval
        omega
      · exact absurd hin hkept

end Promises

end Sudachi.VideoCore.SyncpointManager
