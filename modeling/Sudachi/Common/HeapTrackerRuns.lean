import Sudachi.Common.HeapTrackerLoops
import Sudachi.Foundations.Runs

/-!
# The runs of the heap tracker

A run of operations next to the pages of the separate heap that it leaves: those of the last `Map`
over them that no `Unmap` has followed, with the permission of the last `Map` or `Protect` over
them. If `Map` meets no page that is there already and `Unmap` none that is not, the tracker records
these pages after every run (`sound_run`).
-/

set_option autoImplicit false

namespace Sudachi.Common

open Sudachi.Foundations Sudachi.Foundations.Runs

inductive HeapOperation where
  | map (virtualOffset hostOffset length : Nat) (perm : MemoryPermission) (isSeparateHeap : Bool)
  | unmap (virtualOffset size : Nat) (isSeparateHeap : Bool)
  | protect (virtualOffset size : Nat) (perm : MemoryPermission)
  | deferredMapSeparateHeap (virtualOffset : Nat)
  | rebuildSeparateHeapAddressSpace

namespace HeapTracker

variable (bal : SearchTree.Balancing Nat)

/-- The constructor. -/
def start (maxResidentMapCount : Int) (buffer : Nat → Option HeapEntry) : HeapTracker where
  item := fun _ => ⟨0, 0, 0, 0, ⟨false, false, false⟩, false⟩
  created := 0
  mappings := .leaf
  residentMappings := .leaf
  mapCount := 0
  residentMapCount := 0
  maxResidentMapCount := maxResidentMapCount
  tick := 0
  buffer := buffer

def operate (s : HeapTracker) : HeapOperation → Option HeapTracker
  | .map virtualOffset hostOffset length perm isSeparateHeap =>
    some (s.map bal virtualOffset hostOffset length perm isSeparateHeap)
  | .unmap virtualOffset size isSeparateHeap => some (s.unmap bal virtualOffset size isSeparateHeap)
  | .protect virtualOffset size perm => s.protect bal virtualOffset size perm
  | .deferredMapSeparateHeap virtualOffset =>
    some (s.deferredMapSeparateHeap bal virtualOffset).2
  | .rebuildSeparateHeapAddressSpace => some (s.rebuildSeparateHeapAddressSpace bal)

def run (s : HeapTracker) : List HeapOperation → Option HeapTracker
  | [] => some s
  | operation :: operations => (s.operate bal operation).bind fun s => s.run operations

/-- The pages of the separate heap after an operation. -/
def pagesAfter (pages : Nat → Option HeapEntry) : HeapOperation → Nat → Option HeapEntry
  | .map virtualOffset hostOffset length perm true =>
    mapPages virtualOffset hostOffset length perm pages
  | .unmap virtualOffset size true => unmapPages virtualOffset size pages
  | .protect virtualOffset size perm => protectPages virtualOffset size perm pages
  | _ => pages

/-- The offsets that an operation is about, as `HostMemory` asserts them, are not past the end; a
separate heap is unmapped where it is mapped. -/
def UnmapsMapped (pages : Nat → Option HeapEntry) : HeapOperation → Prop
  | .map virtualOffset _ length _ _ => virtualOffset + length < 2 ^ 64
  | .unmap virtualOffset size isSeparateHeap =>
    virtualOffset + size < 2 ^ 64 ∧ (isSeparateHeap = true →
      ∀ v, virtualOffset ≤ v → v < virtualOffset + size → pages v ≠ none)
  | .protect virtualOffset size _ => virtualOffset + size < 2 ^ 64
  | .deferredMapSeparateHeap _ | .rebuildSeparateHeapAddressSpace => True

/-- What is mapped is not mapped yet, and what other memory is unmapped is not of the heap. -/
def MapsFree (pages : Nat → Option HeapEntry) : HeapOperation → Prop
  | .map virtualOffset _ length _ isSeparateHeap =>
    (isSeparateHeap = true → 0 < length) ∧
      ∀ v, virtualOffset ≤ v → v < virtualOffset + length → pages v = none
  | .unmap virtualOffset size isSeparateHeap => isSeparateHeap = false →
      ∀ v, virtualOffset ≤ v → v < virtualOffset + size → pages v = none
  | _ => True

/-- What the tracker is for. -/
structure Sound (s : HeapTracker) (pages : Nat → Option HeapEntry) : Prop where
  nonempty : ∀ a ∈ s.mappings.toList, 0 < (s.item a).size
  sorted : s.mappings.toList.Pairwise fun a b =>
    (s.item a).vaddr + (s.item a).size ≤ (s.item b).vaddr
  /-- A page lies in its mapping at the place, and with the permission, that it has. -/
  recorded : ∀ a ∈ s.mappings.toList, ∀ v, (s.item a).Covers v →
    pages v = some ((s.item a).paddr + (v - (s.item a).vaddr), (s.item a).perm)
  covered : ∀ v, pages v ≠ none → ∃ a ∈ s.mappings.toList, (s.item a).Covers v
  resident : ∀ a, a ∈ s.residentMappings.toList ↔
    a ∈ s.mappings.toList ∧ (s.item a).isResident = true
  ordered : s.residentMappings.toList.Pairwise fun a b => (s.item a).tick ≤ (s.item b).tick
  nodup : s.residentMappings.toList.Nodup
  count : s.residentMapCount = s.residentMappings.toList.length
  hosted : ∀ a ∈ s.mappings.toList, ∀ v, (s.item a).Covers v →
    s.buffer v = if (s.item a).isResident then pages v else none

variable {bal} {s : HeapTracker} {pages : Nat → Option HeapEntry}

theorem Records.sound (hr : s.Records pages) : s.Sound pages where
  nonempty a ha := (hr.trees.sized a ha).1
  sorted := hr.trees.sorted
  recorded := hr.covered
  covered := hr.exact
  resident := hr.trees.resident
  ordered := hr.trees.ordered.imp fun hab => by
    rcases Prod.Lex.toLex_lt_toLex.mp hab with htick | ⟨htick, -⟩
    · exact le_of_lt htick
    · exact le_of_eq htick
  nodup := hr.trees.nodup_resident
  count := hr.trees.count
  hosted := hr.hosted

theorem records_start (maxResidentMapCount : Int) (buffer : Nat → Option HeapEntry) :
    (start maxResidentMapCount buffer).Records fun _ => none where
  trees :=
    { sized := by intro a ha; cases ha
      sorted := .nil
      created := by intro a ha; cases ha
      resident := by intro a; simp [start, SearchTree.toList]
      ordered := .nil
      count := rfl }
  covered := by intro a ha; cases ha
  exact := by intro v hv; exact absurd rfl hv
  hosted := by intro a ha; cases ha

variable (bal) in
/-- Every operation delivers a state that records the pages after it. -/
theorem Records.operate {operation : HeapOperation} (hr : s.Records pages)
    (hunmaps : UnmapsMapped pages operation) (hmaps : MapsFree pages operation) :
    ∃ s', s.operate bal operation = some s' ∧ s'.Records (pagesAfter pages operation) := by
  cases operation with
  | map virtualOffset hostOffset length perm isSeparateHeap =>
    obtain ⟨hlength, hfree⟩ := hmaps
    refine ⟨_, rfl, ?_⟩
    cases isSeparateHeap with
    | true => exact hr.map (hlength rfl) (le_of_lt hunmaps) hfree
    | false => exact hr.of_buffer fun _ ha _ hv => if_neg (hr.outside hfree ha hv)
  | unmap virtualOffset size isSeparateHeap =>
    refine ⟨_, rfl, ?_⟩
    cases isSeparateHeap with
    | true => exact hr.unmap (hunmaps.2 rfl)
    | false => exact hr.of_buffer fun _ ha _ hv => if_neg (hr.outside (hmaps rfl) ha hv)
  | protect virtualOffset size perm => exact hr.protect
  | deferredMapSeparateHeap virtualOffset => exact ⟨_, rfl, hr.deferredMap virtualOffset⟩
  | rebuildSeparateHeapAddressSpace => exact ⟨_, rfl, hr.rebuild⟩

variable (bal) in
theorem Records.run {operations : List HeapOperation} (hr : s.Records pages)
    (hunmaps : Along pagesAfter UnmapsMapped pages operations)
    (hmaps : Along pagesAfter MapsFree pages operations) :
    ∃ s', s.run bal operations = some s' ∧ s'.Records (operations.foldl pagesAfter pages) := by
  induction operations generalizing s pages with
  | nil => exact ⟨s, rfl, hr⟩
  | cons operation operations ih =>
    obtain ⟨s₁, hoperate, hr₁⟩ := hr.operate bal hunmaps.1 hmaps.1
    obtain ⟨s', hrun, hr'⟩ := ih hr₁ hunmaps.2 hmaps.2
    exact ⟨s', by rw [HeapTracker.run, hoperate, Option.bind_some, hrun], hr'⟩

theorem sound_run (bal : SearchTree.Balancing Nat) (maxResidentMapCount : Int)
    (buffer : Nat → Option HeapEntry) (operations : List HeapOperation)
    (hunmaps : Along pagesAfter UnmapsMapped (fun _ => none) operations)
    (hmaps : Along pagesAfter MapsFree (fun _ => none) operations) :
    ∃ s, (start maxResidentMapCount buffer).run bal operations = some s ∧
      s.Sound (operations.foldl pagesAfter fun _ => none) := by
  obtain ⟨s, hrun, hr⟩ := (records_start maxResidentMapCount buffer).run bal hunmaps hmaps
  exact ⟨s, hrun, hr.sound⟩

/-! ## Runs -/

def readWrite : MemoryPermission := ⟨true, true, false⟩

def readOnly : MemoryPermission := ⟨true, false, false⟩

/-- Three pages of which the second one is protected, evicted and mapped again; the first one makes
room for another one. -/
def usualOperations : List HeapOperation :=
  [.map 0x1000 0 0x3000 readWrite true, .protect 0x2000 0x1000 readOnly,
    .rebuildSeparateHeapAddressSpace, .deferredMapSeparateHeap 0x2000, .unmap 0x1000 0x1000 true,
    .map 0x1000 0x9000 0x1000 readWrite true, .map 0x8000 0xa000 0x1000 readWrite false]

theorem sound_run_usualOperations :
    ∃ s, (start 45530 fun _ => none).run SearchTree.rebuilding usualOperations = some s ∧
      s.Sound (usualOperations.foldl pagesAfter fun _ => none) := by
  refine sound_run SearchTree.rebuilding 45530 (fun _ => none) usualOperations ?_ ?_
  · simp only [usualOperations, Along, UnmapsMapped, pagesAfter, mapPages, protectPages]
    refine ⟨by omega, by omega, trivial, trivial, ⟨by omega, fun _ v hle hlt => ?_⟩, by omega,
      by omega, trivial⟩
    rw [if_neg (by omega), if_pos (by omega)]
    exact Option.some_ne_none _
  · simp only [usualOperations, Along, MapsFree, pagesAfter, mapPages, protectPages, unmapPages]
    refine ⟨⟨fun _ => by omega, fun _ _ _ => trivial⟩, trivial, trivial, trivial, by simp,
      ⟨fun _ => by omega, fun v hle hlt => if_pos (by omega)⟩, ⟨by simp, fun v hle hlt => ?_⟩,
      trivial⟩
    rw [if_neg (by omega), if_neg (by omega), if_neg (by omega), if_neg (by omega)]

/-- What the callers do not do: a mapping over another one, an empty one, and other memory that is
mapped over an evicted mapping or unmapped under a resident one. -/
def overlappingMaps : List HeapOperation :=
  [.map 0x1000 0 0x1000 readWrite true, .map 0 0x8000 0x2000 readWrite true]

def emptyMap : List HeapOperation := [.map 0x1000 0 0 readWrite true]

def otherMap : List HeapOperation :=
  [.map 0x1000 0 0x1000 readWrite true, .rebuildSeparateHeapAddressSpace,
    .map 0x1000 0x8000 0x1000 readWrite false]

def otherUnmap : List HeapOperation :=
  [.map 0x1000 0 0x1000 readWrite true, .unmap 0x1000 0x1000 false]

theorem not_sound_mapsTaken :
    [overlappingMaps, emptyMap, otherMap, otherUnmap].Forall fun operations =>
      Along pagesAfter UnmapsMapped (fun _ => none) operations ∧
        ¬∃ s, (start 45530 fun _ => none).run SearchTree.rebuilding operations = some s ∧
          s.Sound (operations.foldl pagesAfter fun _ => none) := by
  simp only [List.forall_iff_forall_mem, List.forall_mem_cons]
  refine ⟨⟨?_, ?_⟩, ⟨?_, ?_⟩, ⟨?_, ?_⟩, ⟨?_, ?_⟩, by simp⟩
  · simp [overlappingMaps, Along, UnmapsMapped]
  · rintro ⟨s, hrun, hsound⟩
    obtain rfl := Option.some.inj hrun
    exact absurd hsound.sorted (by decide +kernel)
  · simp [emptyMap, Along, UnmapsMapped]
  · rintro ⟨s, hrun, hsound⟩
    obtain rfl := Option.some.inj hrun
    exact absurd hsound.nonempty (by decide +kernel)
  · simp [otherMap, Along, UnmapsMapped]
  · rintro ⟨s, hrun, hsound⟩
    obtain rfl := Option.some.inj hrun
    have hhosted := hsound.hosted 0 (by decide +kernel) 0x1000 (by decide +kernel)
    exact absurd hhosted (by decide +kernel)
  · simp [otherUnmap, Along, UnmapsMapped]
  · rintro ⟨s, hrun, hsound⟩
    obtain rfl := Option.some.inj hrun
    have hhosted := hsound.hosted 0 (by decide +kernel) 0x1000 (by decide +kernel)
    exact absurd hhosted (by decide +kernel)

end HeapTracker

end Sudachi.Common
