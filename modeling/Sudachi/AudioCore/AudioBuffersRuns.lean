import Mathlib.Data.List.Nodup
import Mathlib.Data.List.GetD
import Sudachi.AudioCore.AudioBuffers
import Sudachi.Foundations.Runs

/-!
# Runs of a ring of audio buffers

A run appends buffers, moves them through the ring and takes their tags back. Beside the ring the
tags are kept that were appended and that were returned. Four positions in the sequence of all
appended buffers describe the ring (`Tracks`): where the released, the registered and the appended
section begin, and where the last one ends.

The ring is a queue of three stages (`Sound`) in every state of a run exactly when no flush finds
appended buffers, unless they fill the whole ring, and no released buffer is taken with no room for
its tag (`fifo_run_iff`).
-/

set_option autoImplicit false

namespace Sudachi.AudioCore.AudioBuffers

open Sudachi.Foundations.Ring Sudachi.Foundations.Runs List Nat Function
open Function (update)

/-- An operation of a run, with what it asks and is told. -/
inductive Operation
  | append (buffer : AudioBuffer)
  | register
  | release (isConsumed : Nat → AudioBuffer → Bool) (time : Nat → Int) (force : Bool)
  | getReleased (size : Nat)
  | flush

/-- A ring with the tags of all buffers that were appended, and the tags that were returned. -/
structure Books where
  ring : AudioBuffers
  appended : List Nat
  returned : List Nat

/-- The cells of the `count` buffers before an index. -/
def cells (N index count : Nat) : List Nat :=
  (List.range count).map fun i => (back N index count + i) % N

/-- The tags of the `count` buffers before an index. -/
def tags (N : Nat) (s : AudioBuffers) (index count : Nat) : List Nat :=
  (cells N index count).map fun i => (s.buffers i).tag

namespace Books

/-- The books of a new ring of `N` buffers. -/
def start (N : Nat) : Books := ⟨.new N, [], []⟩

def step (N : Nat) (b : Books) : Operation → Books
  | .append buffer => ⟨b.ring.appendBuffer buffer, b.appended ++ [buffer.tag], b.returned⟩
  | .register => { b with ring := (b.ring.registerBuffers N).1 }
  | .release isConsumed time force =>
    { b with ring := (b.ring.releaseBuffers N isConsumed time force).1 }
  | .getReleased size =>
    { b with
      ring := (b.ring.getReleasedBuffers N size).1
      returned := b.returned ++ (b.ring.getReleasedBuffers N size).2.1 }
  | .flush => { b with ring := (b.ring.flushBuffers N).1 }

/-- The guest appends a buffer with a tag, and while there is room in the ring. -/
def AppendsWithRoom (b : Books) : Operation → Prop
  | .append buffer => b.ring.getTotalBufferCount < b.ring.appendLimit ∧ buffer.tag ≠ 0
  | _ => True

/-- The condition under which an operation keeps the order of the ring. -/
def KeepsOrder (N : Nat) (b : Books) : Operation → Prop
  | .getReleased size => 0 < size ∨ b.ring.releasedCount = 0
  | .flush => b.ring.appendedCount = 0 ∨ b.ring.appendedCount = N
  | _ => True

/-- A queue of three stages. -/
structure Sound (N : Nat) (b : Books) : Prop where
  registered : b.ring.registeredIndex + b.ring.appendedCount ≡ b.ring.appendedIndex [MOD N]
  released : b.ring.releasedIndex + b.ring.registeredCount ≡ b.ring.registeredIndex [MOD N]
  /-- No buffer is in two sections. -/
  separate : (cells N b.ring.releasedIndex b.ring.releasedCount ++
    cells N b.ring.registeredIndex b.ring.registeredCount ++
      cells N b.ring.appendedIndex b.ring.appendedCount).Nodup
  /-- What was appended was returned or is in a section, in the order of the appending. -/
  order : b.appended = b.returned ++ (b.ring.tags N b.ring.releasedIndex b.ring.releasedCount ++
      b.ring.tags N b.ring.registeredIndex b.ring.registeredCount ++
        b.ring.tags N b.ring.appendedIndex b.ring.appendedCount)
  contains : ∀ tag, b.ring.containsBuffer tag = true ↔
    tag ∈ b.ring.tags N b.ring.releasedIndex b.ring.releasedCount ∨
      tag ∈ b.ring.tags N b.ring.registeredIndex b.ring.registeredCount ∨
        tag ∈ b.ring.tags N b.ring.appendedIndex b.ring.appendedCount

end Books

theorem tag_update (buffers : Nat → AudioBuffer) (i : Nat) (buffer : AudioBuffer) (j : Nat) :
    (update buffers i buffer j).tag = update (fun k => (buffers k).tag) i buffer.tag j := by
  by_cases hj : j = i
  · rw [hj, update_self, update_self]
  · rw [update_of_ne hj, update_of_ne hj]

/-- The sections of a ring begin at the positions `returned`, `released` and `registered`, and the
last one ends at `appended`. -/
structure Sections (N : Nat) (s : AudioBuffers) (returned released registered appended : Nat) :
    Prop where
  returned_le : returned ≤ released
  released_le : released ≤ registered
  registered_le : registered ≤ appended
  round : appended ≤ returned + N
  limit : s.appendLimit = N
  releasedIndex : s.releasedIndex = released % N
  releasedCount : s.releasedCount = released - returned
  registeredIndex : s.registeredIndex = registered % N
  registeredCount : s.registeredCount = registered - released
  appendedIndex : s.appendedIndex = appended % N
  appendedCount : s.appendedCount = appended - registered

namespace Sections

variable {N : Nat} {s : AudioBuffers} {returned released registered appended : Nat}

section

variable (h : Sections N s returned released registered appended)
include h

theorem firstAppended : back N s.appendedIndex s.appendedCount = registered % N := by
  have hfirst := h.returned_le
  have hmiddle := h.released_le
  have hlast := h.registered_le
  have hround := h.round
  rw [h.appendedIndex, h.appendedCount, back_mod (by omega) (sub_le _ _), Nat.sub_sub_self hlast]

theorem firstRegistered : back N s.registeredIndex s.registeredCount = released % N := by
  have hfirst := h.returned_le
  have hmiddle := h.released_le
  have hlast := h.registered_le
  have hround := h.round
  rw [h.registeredIndex, h.registeredCount, back_mod (by omega) (sub_le _ _),
    Nat.sub_sub_self hmiddle]

theorem firstReleased : back N s.releasedIndex s.releasedCount = returned % N := by
  have hfirst := h.returned_le
  have hmiddle := h.released_le
  have hlast := h.registered_le
  have hround := h.round
  rw [h.releasedIndex, h.releasedCount, back_mod (by omega) (sub_le _ _), Nat.sub_sub_self hfirst]

/-! ## The operations -/

theorem append (hroom : s.getTotalBufferCount < s.appendLimit) (buffer : AudioBuffer) :
    appended < returned + N ∧
      Sections N (s.appendBuffer buffer) returned released registered (appended + 1) := by
  have hlast := h.registered_le
  have hlt : appended < returned + N := by
    rw [getTotalBufferCount, h.appendedCount, h.registeredCount, h.releasedCount, h.limit] at hroom
    have hfirst := h.returned_le
    have hmiddle := h.released_le
    omega
  refine ⟨hlt, { h with
    registered_le := le_succ_of_le hlast
    round := hlt
    appendedIndex := ?_
    appendedCount := ?_ }⟩
  · show (s.appendedIndex + 1) % s.appendLimit = _
    rw [h.appendedIndex, h.limit, mod_add_mod]
  · show s.appendedCount + 1 = _
    rw [h.appendedCount]
    omega

theorem registerLoop_spec {n : Nat} (hn : n ≤ s.appendedCount) (out : List AudioBuffer) :
    ∃ registered', Sections N (registerLoop N n s out).1 returned released registered' appended ∧
      (registerLoop N n s out).1.buffers = s.buffers := by
  induction n generalizing s registered out with
  | zero => exact ⟨registered, h, rfl⟩
  | succ n ih =>
    have hcount := h.appendedCount
    have hmiddle := h.released_le
    have hmoved : Sections N { s with
        registeredCount := s.registeredCount + 1
        registeredIndex := (s.registeredIndex + 1) % s.appendLimit
        appendedCount := s.appendedCount - 1 } returned released (registered + 1) appended := by
      refine { h with
        released_le := le_succ_of_le hmiddle
        registered_le := by omega
        registeredIndex := ?_
        registeredCount := ?_
        appendedCount := ?_ }
      · show (s.registeredIndex + 1) % s.appendLimit = _
        rw [h.registeredIndex, h.limit, mod_add_mod]
      · show s.registeredCount + 1 = _
        rw [h.registeredCount]
        omega
      · show s.appendedCount - 1 = _
        omega
    rw [registerLoop]
    split
    · exact ⟨registered + 1, hmoved, rfl⟩
    · exact ih hmoved (le_sub_one_of_lt hn) _

theorem register :
    ∃ registered', Sections N (s.registerBuffers N).1 returned released registered' appended ∧
      (s.registerBuffers N).1.buffers = s.buffers :=
  h.registerLoop_spec ((min_le_left _ _).trans (min_le_left _ _)) []

/-- One buffer goes from the registered to the released section. -/
theorem release (hpos : 0 < s.registeredCount) (buffers : Nat → AudioBuffer) : Sections N { s with
      buffers := buffers
      registeredCount := s.registeredCount - 1
      releasedCount := s.releasedCount + 1
      releasedIndex := (s.releasedIndex + 1) % s.appendLimit }
      returned (released + 1) registered appended := by
  have hfirst := h.returned_le
  have hcount := h.registeredCount
  refine { h with
    returned_le := le_succ_of_le hfirst
    released_le := by omega
    releasedIndex := ?_
    releasedCount := ?_
    registeredCount := ?_ }
  · show (s.releasedIndex + 1) % s.appendLimit = _
    rw [h.releasedIndex, h.limit, mod_add_mod]
  · show s.releasedCount + 1 = _
    rw [h.releasedCount]
    omega
  · show s.registeredCount - 1 = _
    omega

theorem releaseLoop_spec (isConsumed : Nat → AudioBuffer → Bool) (time : Nat → Int) (force : Bool)
    (i : Nat) (bufferReleased : Bool) :
    ∃ released', Sections N (releaseLoop N isConsumed time force i s bufferReleased).1 returned
        released' registered appended ∧
      ∀ j, ((releaseLoop N isConsumed time force i s bufferReleased).1.buffers j).tag =
        (s.buffers j).tag := by
  induction hn : s.registeredCount generalizing released i s bufferReleased with
  | zero =>
    rw [releaseLoop, if_neg (by omega)]
    exact ⟨released, h, fun _ => rfl⟩
  | succ n ih =>
    have hpos : 0 < s.registeredCount := by omega
    rw [releaseLoop, if_pos hpos]
    dsimp only
    split
    · exact ⟨released, h, fun _ => rfl⟩
    · have hmoved := h.release hpos (s.releaseBuffer
        (back N s.registeredIndex s.registeredCount) (time i)).buffers
      have hcount : s.registeredCount - 1 = n := by omega
      obtain ⟨released', hsections, htags⟩ := ih hmoved (i + 1) true hcount
      refine ⟨released', hsections, fun j => (htags j).trans ?_⟩
      show (update s.buffers _ _ j).tag = _
      rw [tag_update]
      exact congrFun (update_eq_self _ _) j

theorem flushRegisteredLoop_spec {buffersToFlush : Nat} {flushed : List AudioBuffer}
    (hflush : flushed.length + s.registeredCount ≤ buffersToFlush) :
    Sections N (flushRegisteredLoop N buffersToFlush s flushed).1 returned registered registered
        appended ∧
      (flushRegisteredLoop N buffersToFlush s flushed).1.buffers = s.buffers ∧
        (flushRegisteredLoop N buffersToFlush s flushed).2.length =
          flushed.length + s.registeredCount := by
  induction hn : s.registeredCount generalizing released s flushed with
  | zero =>
    have hcount := h.registeredCount
    have hmiddle := h.released_le
    obtain rfl : released = registered := by omega
    rw [flushRegisteredLoop, if_neg (by omega)]
    exact ⟨h, rfl, rfl⟩
  | succ n ih =>
    have hpos : 0 < s.registeredCount := by omega
    have hmoved := h.release hpos s.buffers
    have hcount : s.registeredCount - 1 = n := by omega
    rw [flushRegisteredLoop, if_pos hpos]
    dsimp only
    rw [length_append, length_singleton]
    split
    · rename_i hend
      obtain rfl : n = 0 := by omega
      have hmoved := h.release hpos s.buffers
      have hregistered := h.registeredCount
      obtain rfl : released + 1 = registered := by omega
      exact ⟨hmoved, rfl, length_append⟩
    · have hsize : (flushed ++ [s.buffers (back N s.registeredIndex s.registeredCount)]).length +
          (s.registeredCount - 1) ≤ buffersToFlush := by
        rw [length_append, length_singleton]
        omega
      obtain ⟨hsections, hbuffers, hlength⟩ := ih hmoved hsize hcount
      refine ⟨hsections, hbuffers, hlength.trans ?_⟩
      rw [length_append, length_singleton]
      omega

end

/-- What the second loop does with the appended buffers. The registered section stays where it
was, also when it is empty. -/
theorem flushAppendedLoop_spec {s : AudioBuffers} {position buffersToFlush : Nat}
    {flushed : List AudioBuffer} (hindex : s.releasedIndex = position % s.appendLimit)
    (hflush : flushed.length + s.appendedCount ≤ buffersToFlush) :
    (flushAppendedLoop N buffersToFlush s flushed).1 = { s with
      appendedCount := 0
      releasedCount := s.releasedCount + s.appendedCount
      releasedIndex := (position + s.appendedCount) % s.appendLimit } := by
  induction hn : s.appendedCount generalizing position s flushed with
  | zero => rw [flushAppendedLoop, if_neg (by omega), add_zero, add_zero, ← hn, ← hindex]
  | succ n ih =>
    have hpos : 0 < s.appendedCount := by omega
    have hcount : s.appendedCount - 1 = n := by omega
    have hnext : (s.releasedIndex + 1) % s.appendLimit = (position + 1) % s.appendLimit := by
      rw [hindex, mod_add_mod]
    have hsum : position + (n + 1) = position + 1 + n := by omega
    have hsum' : s.releasedCount + (n + 1) = s.releasedCount + 1 + n := by omega
    rw [flushAppendedLoop, if_pos hpos, hsum, hsum']
    dsimp only
    rw [length_append, length_singleton, hcount, hnext]
    split
    · obtain rfl : n = 0 := by omega
      rfl
    · refine ih rfl ?_ rfl
      rw [length_append, length_singleton]
      show flushed.length + 1 + n ≤ buffersToFlush
      omega

section

variable (h : Sections N s returned released registered appended)
include h

/-- A ring is its buffers and the four positions. -/
theorem eq_mk :
    s = ⟨s.buffers, released % N, released - returned, registered % N, registered - released,
      appended % N, appended - registered, N⟩ := by
  rw [← h.releasedIndex, ← h.releasedCount, ← h.registeredIndex, ← h.registeredCount,
    ← h.appendedIndex, ← h.appendedCount, ← h.limit]

theorem flushBuffers_eq : (s.flushBuffers N).1 =
      ⟨s.buffers, appended % N, appended - returned, registered % N, 0, appended % N, 0, N⟩ := by
  have hfirst := h.returned_le
  have hmiddle := h.released_le
  have hlast := h.registered_le
  have hround := h.round
  have hregistered := h.registeredCount
  have hlength := h.appendedCount
  rw [flushBuffers, getRegisteredAppendedBuffers]
  by_cases hnone : s.registeredCount + s.appendedCount = 0
  · obtain rfl : released = registered := by omega
    obtain rfl : released = appended := by omega
    rw [if_pos hnone]
    refine h.eq_mk.trans ?_
    rw [Nat.sub_self]
  · have hflush : min (s.registeredCount + s.appendedCount) s.appendLimit =
        s.registeredCount + s.appendedCount := by
      rw [h.limit]
      omega
    have hroom : ([] : List AudioBuffer).length + s.registeredCount ≤
        s.registeredCount + s.appendedCount := by simp
    obtain ⟨hsections, hbuffers, hflushed⟩ := h.flushRegisteredLoop_spec hroom
    rw [if_neg hnone, hflush, if_neg hnone]
    dsimp only
    generalize flushRegisteredLoop N (s.registeredCount + s.appendedCount) s [] = first at *
    have hlimit := hsections.limit
    have hindex : first.1.releasedIndex = registered % first.1.appendLimit := by
      rw [hsections.releasedIndex, hlimit]
    have hcount := hsections.appendedCount
    have hall : first.2.length + first.1.appendedCount ≤ s.registeredCount + s.appendedCount := by
      rw [hflushed, hcount, hlength]
      simp
    have hend : registered + (appended - registered) = appended := by omega
    have htotal : registered - returned + (appended - registered) = appended - returned := by omega
    rw [flushAppendedLoop_spec hindex hall, hbuffers, hsections.releasedCount, hcount, hlimit, hend,
      htotal, hsections.registeredIndex, hsections.registeredCount, hsections.appendedIndex,
      Nat.sub_self]

/-- A flush that finds no appended buffers, or a full ring of them, keeps the sections. -/
theorem flush (horder : s.appendedCount = 0 ∨ s.appendedCount = N) :
    Sections N (s.flushBuffers N).1 returned appended appended appended ∧
      (s.flushBuffers N).1.buffers = s.buffers := by
  have hfirst := h.returned_le
  have hmiddle := h.released_le
  have hlast := h.registered_le
  have hcount := h.appendedCount
  have hindex : registered % N = appended % N := by
    rcases horder with hnone | hfull
    · obtain rfl : registered = appended := by omega
      rfl
    · obtain rfl : appended = registered + N := by omega
      rw [add_mod_right]
  rw [h.flushBuffers_eq]
  refine ⟨?_, rfl⟩
  exact {
    returned_le := by omega
    released_le := le_refl _
    registered_le := le_refl _
    round := h.round
    limit := rfl
    releasedIndex := rfl
    releasedCount := rfl
    registeredIndex := hindex
    registeredCount := (Nat.sub_self _).symm
    appendedIndex := rfl
    appendedCount := (Nat.sub_self _).symm }

/-- Taking tags with room for one at least takes them in order. -/
theorem getReleasedLoop_spec
    {element : Nat → Nat} (hholds : Holds N (fun i => (s.buffers i).tag) element returned appended)
    (hnonzero : ∀ n, n < appended → element n ≠ 0) {size count : Nat} (hsize : count < size)
    (written : List Nat) : ∃ returned', returned ≤ returned' ∧
      Sections N (getReleasedLoop N size s written count).1 returned' released registered appended ∧
      Holds N (fun i => ((getReleasedLoop N size s written count).1.buffers i).tag) element
        returned' appended ∧
      (getReleasedLoop N size s written count).2.1 =
        written ++ between element returned returned' := by
  induction hn : s.releasedCount generalizing returned s written count with
  | zero =>
    rw [getReleasedLoop, if_neg (by omega)]
    exact ⟨returned, le_refl _, h, hholds, by rw [between_self, append_nil]⟩
  | succ n ih =>
    have hpos : 0 < s.releasedCount := by omega
    have hcount := h.releasedCount
    have hmiddle := h.released_le
    have hlast := h.registered_le
    have htag : (s.buffers (returned % N)).tag = element returned :=
      hholds returned (le_refl _) (by omega)
    have hne : (s.buffers (returned % N)).tag ≠ 0 := by
      rw [htag]
      exact hnonzero returned (by omega)
    rw [getReleasedLoop, if_pos hpos]
    dsimp only
    rw [h.firstReleased, if_neg hne, if_pos hsize, htag]
    have hmoved : Sections N { s with
        buffers := update s.buffers (returned % N)
          { s.buffers (returned % N) with
            playedTimestamp := 0, samples := 0, tag := 0, size := 0 }
        releasedCount := s.releasedCount - 1 } (returned + 1) released registered appended := by
      refine { h with
        returned_le := by omega
        round := le_trans h.round (by omega)
        releasedCount := ?_ }
      show s.releasedCount - 1 = _
      omega
    have hcleared : Holds N (fun i => (update s.buffers (returned % N)
        { s.buffers (returned % N) with playedTimestamp := 0, samples := 0, tag := 0, size := 0 }
          i).tag) element (returned + 1) appended := by
      simp only [tag_update]
      exact hholds.release h.round 0
    split
    · exact ⟨returned + 1, le_succ _, hmoved, hcleared, by rw [between_succ]⟩
    · rename_i hmore
      obtain ⟨returned', hle, hsections, hheld, hwritten⟩ :=
        ih hmoved hcleared (Nat.lt_of_not_le hmore) (written ++ [element returned])
          (by show s.releasedCount - 1 = n; omega)
      refine ⟨returned', le_of_succ_le hle, hsections, hheld, hwritten.trans ?_⟩
      rw [← between_append element (le_succ returned) hle, between_succ, append_assoc]

end

end Sections

/-! ## What a section is -/

section

variable {N : Nat} {s : AudioBuffers} {index count first : Nat}

theorem cells_eq (hback : back N index count = first % N) :
    cells N index count = (range' first count).map (· % N) := by
  rw [cells, hback, range'_eq_map_range, map_map]
  refine map_congr_left ?_
  intro i _
  exact mod_add_mod _ _ _

theorem tags_eq {element : Nat → Nat} {last : Nat} (hback : back N index count = first % N)
    (hcount : count = last - first) (h : Holds N (fun i => (s.buffers i).tag) element first last) :
    s.tags N index count = between element first last := by
  rw [tags, cells_eq hback, hcount, ← h.between_eq, between, map_map]
  rfl

theorem length_tags : (s.tags N index count).length = count := by
  rw [tags, cells, length_map, length_map, length_range]

theorem containsLoop_iff {tag : Nat} (hlimit : s.appendLimit = N) :
    s.containsLoop tag count (first % N) = true ↔
      ∃ n, first ≤ n ∧ n < first + count ∧ (s.buffers (n % N)).tag = tag := by
  induction count generalizing first with
  | zero =>
    constructor
    · intro hfalse
      cases hfalse
    · rintro ⟨n, hle, hlt, -⟩
      omega
  | succ count ih =>
    have hnext : (first % N + 1) % N = (first + 1) % N := mod_add_mod _ _ _
    rw [containsLoop, hlimit, hnext]
    split
    · rename_i hfound
      exact ⟨fun _ => ⟨first, le_refl _, by omega, hfound⟩, fun _ => rfl⟩
    · rename_i hother
      rw [ih]
      constructor
      · rintro ⟨n, hle, hlt, htag⟩
        exact ⟨n, by omega, by omega, htag⟩
      · rintro ⟨n, hle, hlt, htag⟩
        have hne : n ≠ first := fun h => hother (h ▸ htag)
        exact ⟨n, by omega, by omega, htag⟩

end

namespace Books

/-- The positions of the sections, with the sequence of all tags. -/
structure Tracks (N : Nat) (b : Books) (element : Nat → Nat)
    (returned released registered appended : Nat) : Prop where
  sections : Sections N b.ring returned released registered appended
  holds : Holds N (fun i => (b.ring.buffers i).tag) element returned appended
  nonzero : ∀ n, n < appended → element n ≠ 0
  appended_eq : b.appended = between element 0 appended
  returned_eq : b.returned = between element 0 returned

namespace Tracks

variable {N : Nat} {b : Books} {element : Nat → Nat}
  {returned released registered appended : Nat}

section

variable (h : Tracks N b element returned released registered appended)
include h

theorem releasedTags :
    b.ring.tags N b.ring.releasedIndex b.ring.releasedCount = between element returned released :=
  tags_eq h.sections.firstReleased h.sections.releasedCount
    (h.holds.mono (le_refl _) (h.sections.released_le.trans h.sections.registered_le))

theorem registeredTags : b.ring.tags N b.ring.registeredIndex b.ring.registeredCount =
      between element released registered :=
  tags_eq h.sections.firstRegistered h.sections.registeredCount
    (h.holds.mono h.sections.returned_le h.sections.registered_le)

theorem appendedTags :
    b.ring.tags N b.ring.appendedIndex b.ring.appendedCount = between element registered appended :=
  tags_eq h.sections.firstAppended h.sections.appendedCount
    (h.holds.mono (h.sections.returned_le.trans h.sections.released_le) (le_refl _))

theorem contains_iff (tag : Nat) :
    b.ring.containsBuffer tag = true ↔ tag ∈ between element returned appended := by
  have hfirst := h.sections.returned_le
  have hmiddle := h.sections.released_le
  have hlast := h.sections.registered_le
  have htotal : b.ring.appendedCount + b.ring.registeredCount + b.ring.releasedCount =
      appended - returned := by
    rw [h.sections.appendedCount, h.sections.registeredCount, h.sections.releasedCount]
    omega
  rw [containsBuffer, htotal, ← h.holds.between_eq, mem_between]
  split
  · constructor
    · intro hfalse
      cases hfalse
    · rintro ⟨n, hle, hlt, -⟩
      omega
  · rw [h.sections.limit, h.sections.firstReleased, containsLoop_iff h.sections.limit]
    have hend : returned + (appended - returned) = appended := by omega
    rw [hend]

theorem sound : Sound N b := by
  have hsections := h.sections
  have hfirst := hsections.returned_le
  have hmiddle := hsections.released_le
  have hlast := hsections.registered_le
  have hround := hsections.round
  constructor
  · rw [hsections.registeredIndex, hsections.appendedCount, hsections.appendedIndex, Nat.ModEq,
      mod_add_mod, mod_mod, Nat.add_sub_cancel' hlast]
  · rw [hsections.releasedIndex, hsections.registeredCount, hsections.registeredIndex, Nat.ModEq,
      mod_add_mod, mod_mod, Nat.add_sub_cancel' hmiddle]
  · have hcells : cells N b.ring.releasedIndex b.ring.releasedCount ++
        cells N b.ring.registeredIndex b.ring.registeredCount ++
          cells N b.ring.appendedIndex b.ring.appendedCount =
        between (· % N) returned appended := by
      rw [cells_eq hsections.firstReleased, cells_eq hsections.firstRegistered,
        cells_eq hsections.firstAppended, hsections.releasedCount, hsections.registeredCount,
        hsections.appendedCount, ← between_append _ (hfirst.trans hmiddle) hlast,
        ← between_append _ hfirst hmiddle]
      rfl
    rw [hcells]
    refine List.Nodup.map_on ?_ nodup_range'
    intro m hm n hn hmod
    obtain ⟨hm, hm'⟩ := mem_range'_1.mp hm
    obtain ⟨hn, hn'⟩ := mem_range'_1.mp hn
    exact position_eq_of_mod hm (by omega) hn (by omega) hmod
  · rw [h.releasedTags, h.registeredTags, h.appendedTags, between_append _ hfirst hmiddle,
      between_append _ (hfirst.trans hmiddle) hlast, h.returned_eq,
      between_append _ (zero_le _) (hfirst.trans (hmiddle.trans hlast))]
    exact h.appended_eq
  · intro tag
    rw [h.contains_iff, h.releasedTags, h.registeredTags, h.appendedTags,
      ← between_append _ (hfirst.trans hmiddle) hlast, ← between_append _ hfirst hmiddle,
      mem_append, mem_append, or_assoc]

end

end Tracks

/-- The books fit to some sequence of tags. -/
def Ordered (N : Nat) (b : Books) : Prop :=
  ∃ element returned released registered appended,
    Tracks N b element returned released registered appended

variable {N : Nat} {b : Books}

theorem ordered_start (N : Nat) : Ordered N (start N) := by
  refine ⟨fun _ => 0, 0, 0, 0, 0, ?_, ?_, ?_, rfl, rfl⟩
  · exact ⟨le_refl _, le_refl _, le_refl _, zero_le _, rfl, (zero_mod N).symm,
      rfl, (zero_mod N).symm, rfl, (zero_mod N).symm, rfl⟩
  · intro n _ hn
    omega
  · intro n hn
    omega

theorem Ordered.sound (h : Ordered N b) : Sound N b := by
  obtain ⟨_, _, _, _, _, htracks⟩ := h
  exact htracks.sound

/-- One step of a run that keeps the order. -/
theorem Ordered.step (h : Ordered N b) {op : Operation}
    (hroom : AppendsWithRoom b op) (horder : KeepsOrder N b op) : Ordered N (b.step N op) := by
  obtain ⟨element, returned, released, registered, appended, h⟩ := h
  have hfirst := h.sections.returned_le
  have hmiddle := h.sections.released_le
  have hlast := h.sections.registered_le
  cases op with
  | append buffer =>
    obtain ⟨hlt, hsections⟩ := h.sections.append hroom.1 buffer
    have hsame : ∀ n, 0 ≤ n → n < appended → element n = update element appended buffer.tag n :=
      fun n _ hn => (update_of_ne (Nat.ne_of_lt hn) _ _).symm
    have hnew : update element appended buffer.tag appended = buffer.tag := update_self _ _ _
    refine ⟨update element appended buffer.tag, returned, released, registered,
      appended + 1, hsections, ?_, ?_, ?_, ?_⟩
    · have hholds : Holds N (fun i => (b.ring.buffers i).tag)
          (update element appended buffer.tag) returned appended :=
        fun n hn hn' => (h.holds n hn hn').trans (hsame n (zero_le n) hn')
      have happended := hholds.append (by omega) hlt
      rw [hnew, ← h.sections.appendedIndex] at happended
      show Holds N (fun i => (update b.ring.buffers _ _ i).tag) _ _ _
      simp only [tag_update]
      exact happended
    · intro n hn
      rcases eq_or_lt_of_le (le_of_lt_succ hn) with rfl | hlt
      · rw [hnew]
        exact hroom.2
      · rw [← hsame n (zero_le n) hlt]
        exact h.nonzero n hlt
    · show b.appended ++ [buffer.tag] = _
      rw [← between_append _ (zero_le appended) (le_succ appended), between_succ, hnew,
        ← between_congr hsame, h.appended_eq]
    · show b.returned = _
      rw [h.returned_eq]
      exact between_congr fun n hn hn' => hsame n hn (by omega)
  | register =>
    obtain ⟨registered', hsections, hbuffers⟩ := h.sections.register
    refine ⟨element, returned, released, registered', appended, hsections, ?_, h.nonzero,
      h.appended_eq, h.returned_eq⟩
    show Holds N (fun i => ((b.ring.registerBuffers N).1.buffers i).tag) _ _ _
    rw [hbuffers]
    exact h.holds
  | release isConsumed time force =>
    obtain ⟨released', hsections, htags⟩ :=
      h.sections.releaseLoop_spec isConsumed time force 0 false
    refine ⟨element, returned, released', registered, appended, hsections, ?_, h.nonzero,
      h.appended_eq, h.returned_eq⟩
    exact fun n hn hn' => (htags _).trans (h.holds n hn hn')
  | getReleased size =>
    rcases horder with hsize | hnone
    · obtain ⟨returned', hle, hsections, hholds, hwritten⟩ :=
        h.sections.getReleasedLoop_spec h.holds h.nonzero hsize []
      refine ⟨element, returned', released, registered, appended, hsections, hholds, h.nonzero,
        h.appended_eq, ?_⟩
      show b.returned ++ (getReleasedLoop N size b.ring [] 0).2.1 = _
      rw [hwritten, nil_append, h.returned_eq, between_append _ (zero_le _) hle]
    · have hsame : b.step N (.getReleased size) = b := by
        rw [Books.step, getReleasedBuffers, getReleasedLoop, if_neg (by omega), append_nil]
      rw [hsame]
      exact ⟨element, returned, released, registered, appended, h⟩
  | flush =>
    obtain ⟨hsections, hbuffers⟩ := h.sections.flush horder
    refine ⟨element, returned, appended, appended, appended, hsections, ?_, h.nonzero,
      h.appended_eq, h.returned_eq⟩
    show Holds N (fun i => ((b.ring.flushBuffers N).1.buffers i).tag) _ _ _
    rw [hbuffers]
    exact h.holds

/-- A step that does not keep the order leaves a ring that is no queue of three stages. -/
theorem Ordered.not_sound (h : Ordered N b) {op : Operation}
    (horder : ¬KeepsOrder N b op) : ¬Sound N (b.step N op) := by
  obtain ⟨element, returned, released, registered, appended, h⟩ := h
  intro hsound
  cases op with
  | append buffer => exact horder trivial
  | register => exact horder trivial
  | release isConsumed time force => exact horder trivial
  | getReleased size =>
    obtain ⟨hsize, hsome⟩ := not_or.mp horder
    obtain rfl : size = 0 := by omega
    have hpos : 0 < b.ring.releasedCount := by omega
    have hcount := h.sections.releasedCount
    have hmiddle := h.sections.released_le
    have hlast := h.sections.registered_le
    have htag : (b.ring.buffers (returned % N)).tag ≠ 0 := fun hzero =>
      h.nonzero returned (by omega)
        ((h.holds returned (le_refl _) (by omega)).symm.trans hzero)
    -- The loop takes one buffer, and has no room for its tag.
    have hlength := congrArg length hsound.order
    rw [Books.step, getReleasedBuffers, getReleasedLoop, if_pos hpos] at hlength
    dsimp only at hlength
    rw [h.sections.firstReleased, if_neg htag, if_neg (lt_irrefl 0), if_pos (zero_le _)]
      at hlength
    simp only [length_append, length_tags, h.appended_eq, h.returned_eq, length_between,
      h.sections.registeredCount, h.sections.appendedCount, length_nil] at hlength
    omega
  | flush =>
    obtain ⟨hsome, hnotFull⟩ := not_or.mp horder
    have hmod := hsound.registered
    have hcount := h.sections.appendedCount
    have hround := h.sections.round
    have hfirst := h.sections.returned_le
    have hmiddle := h.sections.released_le
    have hlast := h.sections.registered_le
    rw [Books.step, h.sections.flushBuffers_eq] at hmod
    have hsame : registered % N = appended % N := by
      simpa [Nat.ModEq] using hmod
    have heq := position_eq_of_mod (le_refl registered) (by omega) hlast (by omega) hsame
    omega

/-- The ring is a queue of three stages in every state of a run exactly when each flush finds no
appended buffers, or a full ring of them, and each call that takes released buffers has room for a
tag, or finds none. -/
theorem fifo_run_iff (N : Nat) (operations : List Operation)
    (hroom : Along (step N) AppendsWithRoom (start N) operations) :
    Throughout (step N) (Sound N) (start N) operations ↔
      Along (step N) (KeepsOrder N) (start N) operations :=
  throughout_iff_along (fun _ h => h.sound) (fun _ _ h hroom horder => h.step hroom horder)
    (fun _ _ h _ horder => h.not_sound horder) (ordered_start N) hroom

/-- A buffer with a tag. -/
def tagged (tag : Nat) : AudioBuffer := ⟨0, 0, 0, 0, tag, 0⟩

/-- Two buffers that are played and given back. -/
def usualRun : List Operation :=
  [.append (tagged 1), .append (tagged 2), .register, .release (fun _ _ => true) (fun _ => 0) false,
    .flush, .getReleased 4]

/-- A flush that finds a buffer which was not registered, and a call without room for tags. -/
def brokenRuns : List (List Operation) :=
  [[.append (tagged 1), .flush],
    [.append (tagged 1), .register, .release (fun _ _ => true) (fun _ => 0) false, .getReleased 0]]

theorem fifo_run_iff_usualRun : Throughout (step 32) (Sound 32) (start 32) usualRun := by
  refine (fifo_run_iff 32 usualRun ?_).mpr ?_
  · refine ⟨?_, ?_, trivial, trivial, trivial, trivial, trivial⟩
    · exact ⟨by decide, by decide⟩
    · exact ⟨by decide, by decide⟩
  · refine ⟨trivial, trivial, trivial, trivial, .inl ?_, .inl (by decide), trivial⟩
    decide +kernel

theorem not_sound_brokenRuns :
    brokenRuns.Forall fun operations =>
      Along (step 32) AppendsWithRoom (start 32) operations ∧
        ¬Throughout (step 32) (Sound 32) (start 32) operations := by
  simp only [forall_iff_forall_mem, brokenRuns, forall_mem_cons]
  refine ⟨⟨?_, ?_⟩, ⟨?_, ?_⟩, by simp⟩
  · exact ⟨⟨by decide, by decide⟩, trivial, trivial⟩
  · intro h
    exact absurd h.last.registered (by decide +kernel)
  · exact ⟨⟨by decide, by decide⟩, trivial, trivial, trivial, trivial⟩
  · intro h
    exact absurd h.last.order (by decide +kernel)

end Books

end Sudachi.AudioCore.AudioBuffers
