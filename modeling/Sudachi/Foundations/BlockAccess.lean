import Mathlib.Data.List.Basic
import Mathlib.Logic.Function.Basic
import Mathlib.Tactic.Common

/-!
# Block accesses

An access to a block of bytes is cut into segments, each of them a number of bytes with the place of
the first one, or with none. `targets` is the place of each byte. Reading and writing by segments is
reading and writing the bytes at their targets, one after the other, and reading settles the
targets: two lists from which every memory reads the same are the same.
-/

set_option autoImplicit false

namespace Sudachi.Foundations.BlockAccess

open List Function

variable {β : Type}

/-- The places of the bytes of a segment. -/
def segmentTargets (segment : Nat × Option Nat) : List (Option Nat) :=
  (List.range segment.1).map fun i => segment.2.map (· + i)

/-- The places of the bytes of an access. -/
def targets (segments : List (Nat × Option Nat)) : List (Option Nat) :=
  segments.flatMap segmentTargets

/-- The bytes from an address on. -/
def bytesAt (memory : Nat → β) (ptr size : Nat) : List β := (List.range size).map fun i => memory (ptr + i)

/-- `memcpy` into the memory. -/
def copyTo (memory : Nat → β) (ptr : Nat) (data : List β) : Nat → β :=
  fun a => if ptr ≤ a then (data[a - ptr]?).getD (memory a) else memory a

/-- The byte at a target, zero where there is none. -/
def readTarget [Zero β] (memory : Nat → β) : Option Nat → β
  | none => 0
  | some ptr => memory ptr

/-- Write a byte at its target, and nothing where there is none. -/
def writeTarget (memory : Nat → β) : Option Nat × β → Nat → β
  | (none, _) => memory
  | (some ptr, value) => update memory ptr value

/-- Write bytes at their targets, one after the other. -/
def writeTargets (memory : Nat → β) (ts : List (Option Nat)) (data : List β) : Nat → β :=
  (ts.zip data).foldl writeTarget memory

/-- The bytes of a segment that is read. -/
def readSegment [Zero β] (memory : Nat → β) : Nat × Option Nat → List β
  | (size, none) => replicate size 0
  | (size, some ptr) => bytesAt memory ptr size

/-- The bytes of an access that reads. -/
def readSegments [Zero β] (memory : Nat → β) (segments : List (Nat × Option Nat)) : List β :=
  segments.flatMap (readSegment memory)

/-- The memory after an access that writes the data. -/
def writeSegments (memory : Nat → β) : List (Nat × Option Nat) → List β → Nat → β
  | [], _ => memory
  | (size, none) :: rest, data => writeSegments memory rest (data.drop size)
  | (size, some ptr) :: rest, data =>
    writeSegments (copyTo memory ptr (data.take size)) rest (data.drop size)

variable {memory : Nat → β} {segments : List (Nat × Option Nat)} {ts ts' : List (Option Nat)}
  {data data' : List β}

@[simp] theorem length_segmentTargets (segment : Nat × Option Nat) :
    (segmentTargets segment).length = segment.1 := by
  simp [segmentTargets]

@[simp] theorem targets_nil : targets [] = [] := rfl

@[simp] theorem targets_cons (segment : Nat × Option Nat) :
    targets (segment :: segments) = segmentTargets segment ++ targets segments := rfl

/-! ## Reading -/

theorem readSegment_eq [Zero β] (segment : Nat × Option Nat) :
    readSegment memory segment = (segmentTargets segment).map (readTarget memory) := by
  obtain ⟨size, place⟩ := segment
  cases place with
  | none =>
    rw [readSegment, segmentTargets, map_map]
    exact (eq_replicate_iff.mpr ⟨by simp, by simp [readTarget]⟩).symm
  | some ptr =>
    rw [readSegment, segmentTargets, map_map]
    rfl

/-- Reading by segments is reading the bytes at their targets. -/
theorem readSegments_eq [Zero β] :
    readSegments memory segments = (targets segments).map (readTarget memory) := by
  induction segments with
  | nil => rfl
  | cons segment segments ih =>
    rw [targets_cons, map_append, ← readSegment_eq, ← ih]
    rfl

/-- Targets from which every memory reads the same bytes are the same. -/
theorem targets_eq_of_read [Zero β] (hone : ∃ b : β, b ≠ 0)
    (h : ∀ memory : Nat → β, ts.map (readTarget memory) = ts'.map (readTarget memory)) :
    ts = ts' := by
  obtain ⟨b, hb⟩ := hone
  have hlength : ts.length = ts'.length := by
    have hmap := congrArg length (h fun _ => 0)
    rwa [length_map, length_map] at hmap
  -- a memory with one byte that is not zero tells its address from all others
  have hget : ∀ (t : Option Nat) (ptr : Nat),
      readTarget (fun a => if a = ptr then b else 0) t = b ↔ t = some ptr := by
    intro t ptr
    cases t with
    | none => simp [readTarget, hb.symm]
    | some a =>
      simp only [readTarget, Option.some.injEq]
      by_cases ha : a = ptr
      · simp [ha]
      · simp [ha, hb.symm]
  refine ext_getElem hlength fun i hi hi' => Option.ext fun ptr => ?_
  have hsame := congrArg (fun l => l[i]?) (h fun a => if a = ptr then b else 0)
  simp only [getElem?_map, getElem?_eq_getElem hi, getElem?_eq_getElem hi',
    Option.map_some, Option.some.injEq] at hsame
  rw [← hget, ← hget, hsame]

/-! ## Writing -/

theorem writeTargets_append (hlength : ts.length = data.length) :
    writeTargets memory (ts ++ ts') (data ++ data') =
      writeTargets (writeTargets memory ts data) ts' data' := by
  rw [writeTargets, zip_append hlength, foldl_append]
  rfl

theorem writeTargets_of_not_mem {a : Nat} (h : some a ∉ ts) :
    writeTargets memory ts data a = memory a := by
  induction ts generalizing memory data with
  | nil => rfl
  | cons t ts ih =>
    obtain ⟨hne, hrest⟩ := not_or.mp (mt mem_cons.mpr h)
    cases data with
    | nil => rfl
    | cons b data =>
      refine (ih hrest).trans ?_
      cases t with
      | none => rfl
      | some ptr => exact update_of_ne (fun heq => hne (congrArg some heq)) _ _

/-- Bytes that are written to different places are read back. -/
theorem map_read_writeTargets [Zero β] (hlength : ts.length = data.length) (hplaces : ts.Nodup)
    (hmapped : none ∉ ts) : ts.map (readTarget (writeTargets memory ts data)) = data := by
  induction ts generalizing memory data with
  | nil => exact (length_eq_zero_iff.mp hlength.symm).symm
  | cons t ts ih =>
    obtain ⟨hfirst, hrest⟩ := nodup_cons.mp hplaces
    obtain ⟨ht, hmapped'⟩ := not_or.mp (mt mem_cons.mpr hmapped)
    obtain ⟨ptr, rfl⟩ := Option.ne_none_iff_exists'.mp (Ne.symm ht)
    cases data with
    | nil => cases hlength
    | cons b data =>
      have hptr := @writeTargets_of_not_mem β (update memory ptr b) ts data ptr hfirst
      rw [update_self] at hptr
      exact congrArg₂ cons hptr (ih (Nat.succ.inj hlength) hrest hmapped')

theorem writeTargets_none {size : Nat} :
    writeTargets memory (segmentTargets (size, none)) data = memory := by
  have hall : ∀ t ∈ segmentTargets (size, none), t = none := by
    intro t ht
    obtain ⟨i, -, rfl⟩ := mem_map.mp ht
    rfl
  generalize segmentTargets (size, none) = ts at hall
  rw [writeTargets]
  induction ts generalizing data with
  | nil => rfl
  | cons t ts ih =>
    cases data with
    | nil => rfl
    | cons b data =>
      rw [hall t mem_cons_self]
      exact ih fun t ht => hall t (mem_cons_of_mem _ ht)

theorem segmentTargets_some_succ (size ptr : Nat) :
    segmentTargets (size + 1, some ptr) = some ptr :: segmentTargets (size, some (ptr + 1)) := by
  rw [segmentTargets, range_succ_eq_map, map_cons, map_map]
  refine congrArg₂ cons rfl (map_congr_left fun i _ => ?_)
  show some (ptr + (i + 1)) = some (ptr + 1 + i)
  rw [Nat.add_assoc, Nat.add_comm 1]

theorem copyTo_cons (ptr : Nat) (b : β) :
    copyTo memory ptr (b :: data) = copyTo (update memory ptr b) (ptr + 1) data := by
  funext a
  rcases Nat.lt_trichotomy a ptr with hlt | rfl | hgt
  · rw [copyTo, copyTo, if_neg (by omega), if_neg (by omega), update_of_ne (by omega)]
  · rw [copyTo, copyTo, if_pos (Nat.le_refl _), if_neg (by omega), update_self]
    simp
  · obtain ⟨k, rfl⟩ := Nat.exists_eq_add_of_lt hgt
    rw [copyTo, copyTo, if_pos (by omega), if_pos (by omega), update_of_ne (by omega)]
    have h₁ : ptr + k + 1 - ptr = k + 1 := by omega
    have h₂ : ptr + k + 1 - (ptr + 1) = k := by omega
    rw [h₁, h₂, getElem?_cons_succ]

/-- `memcpy` writes the bytes at the targets of one segment. -/
theorem copyTo_eq (ptr : Nat) :
    copyTo memory ptr data = writeTargets memory (segmentTargets (data.length, some ptr)) data := by
  induction data generalizing memory ptr with
  | nil =>
    funext a
    simp [copyTo, writeTargets]
  | cons b data ih =>
    rw [copyTo_cons, ih, length_cons, segmentTargets_some_succ]
    rfl

/-- Writing by segments is writing the bytes at their targets, one after the other. -/
theorem writeSegments_eq (hlength : (targets segments).length = data.length) :
    writeSegments memory segments data = writeTargets memory (targets segments) data := by
  induction segments generalizing memory data with
  | nil => rfl
  | cons segment segments ih =>
    obtain ⟨size, place⟩ := segment
    rw [targets_cons, length_append, length_segmentTargets] at hlength
    have htake : (data.take size).length = size := by
      rw [length_take]
      omega
    have hdrop : (targets segments).length = (data.drop size).length := by
      rw [length_drop]
      omega
    have happend : writeTargets memory (targets ((size, place) :: segments)) data =
        writeTargets (writeTargets memory (segmentTargets (size, place)) (data.take size))
          (targets segments) (data.drop size) := by
      rw [targets_cons, ← writeTargets_append (by rw [length_segmentTargets, htake]),
        take_append_drop]
    rw [happend]
    cases place with
    | none => rw [writeSegments, ih hdrop, writeTargets_none]
    | some ptr =>
      have hcopy := @copyTo_eq β memory (data.take size) ptr
      rw [htake] at hcopy
      rw [writeSegments, ih hdrop, hcopy]

end Sudachi.Foundations.BlockAccess
