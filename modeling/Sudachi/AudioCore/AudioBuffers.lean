import Mathlib.Tactic.Common
import Sudachi.Foundations.Ring

/-!
# `AudioCore::AudioBuffers`

The ring of buffers of an audio device. A buffer that the guest appends is first in the appended
section, then with the backend in the registered section, and after it was played in the released
section, from where the guest gets its tag back. Each section is an index behind its last buffer and
a count. The indices and counts are `s32`, and none is counted below zero. The capacity of the array
is the template parameter `N`.
-/

set_option autoImplicit false

namespace Sudachi.AudioCore

open Sudachi.Foundations.Ring Function

/-- `BufferAppendLimit`. -/
def bufferAppendLimit : Nat := 4

structure AudioBuffer where
  startTimestamp : Nat
  endTimestamp : Nat
  playedTimestamp : Int
  samples : Nat
  tag : Nat
  size : Nat

structure AudioBuffers where
  buffers : Nat → AudioBuffer
  releasedIndex : Nat
  releasedCount : Nat
  registeredIndex : Nat
  registeredCount : Nat
  appendedIndex : Nat
  appendedCount : Nat
  appendLimit : Nat

namespace AudioBuffers

/-- The ring as it is constructed. -/
def new (limit : Nat) : AudioBuffers := ⟨fun _ => ⟨0, 0, 0, 0, 0, 0⟩, 0, 0, 0, 0, 0, 0, limit⟩

def appendBuffer (s : AudioBuffers) (buffer : AudioBuffer) : AudioBuffers :=
  { s with
    buffers := update s.buffers s.appendedIndex buffer
    appendedCount := s.appendedCount + 1
    appendedIndex := (s.appendedIndex + 1) % s.appendLimit }

/-- The loop of `RegisterBuffers`, which is left early when nothing is appended any more. -/
def registerLoop (N : Nat) : Nat → AudioBuffers → List AudioBuffer → AudioBuffers × List AudioBuffer
  | 0, s, outBuffers => (s, outBuffers)
  | toRegister + 1, s, outBuffers =>
    let index := back N s.appendedIndex s.appendedCount
    let outBuffers := outBuffers ++ [s.buffers index]
    let s := { s with
      registeredCount := s.registeredCount + 1
      registeredIndex := (s.registeredIndex + 1) % s.appendLimit
      appendedCount := s.appendedCount - 1 }
    if s.appendedCount = 0 then (s, outBuffers) else registerLoop N toRegister s outBuffers

/-- `RegisterBuffers`, with the buffers that it gives out. -/
def registerBuffers (N : Nat) (s : AudioBuffers) : AudioBuffers × List AudioBuffer :=
  let toRegister := min (min s.appendedCount bufferAppendLimit)
    (bufferAppendLimit - s.registeredCount)
  registerLoop N toRegister s []

def releaseBuffer (s : AudioBuffers) (index : Nat) (timestamp : Int) : AudioBuffers :=
  { s with
    buffers := update s.buffers index
      { s.buffers index with playedTimestamp := timestamp }
    registeredCount := s.registeredCount - 1
    releasedCount := s.releasedCount + 1
    releasedIndex := (s.releasedIndex + 1) % s.appendLimit }

/-- The loop of `ReleaseBuffers`. The backend answers the query number `i` with `isConsumed i`, and
the time is then `time i`. -/
def releaseLoop (N : Nat) (isConsumed : Nat → AudioBuffer → Bool) (time : Nat → Int) (force : Bool)
    (i : Nat) (s : AudioBuffers) (bufferReleased : Bool) : AudioBuffers × Bool :=
  if 0 < s.registeredCount then
    let index := back N s.registeredIndex s.registeredCount
    if !force && !isConsumed i (s.buffers index) then (s, bufferReleased)
    else releaseLoop N isConsumed time force (i + 1) (s.releaseBuffer index (time i)) true
  else (s, bufferReleased)
termination_by s.registeredCount
decreasing_by
  simp only [releaseBuffer]
  omega

/-- `ReleaseBuffers`, with its result. -/
def releaseBuffers (N : Nat) (s : AudioBuffers) (isConsumed : Nat → AudioBuffer → Bool)
    (time : Nat → Int) (force : Bool) : AudioBuffers × Bool :=
  let (s, bufferReleased) := releaseLoop N isConsumed time force 0 s false
  (s, bufferReleased || s.registeredCount == 0)

/-- The loop of `GetReleasedBuffers` for a span of `size` tags. The tags that were written to the
span are its beginning. -/
def getReleasedLoop (N size : Nat) (s : AudioBuffers) (tags : List Nat) (released : Nat) :
    AudioBuffers × List Nat × Nat :=
  if 0 < s.releasedCount then
    let index := back N s.releasedIndex s.releasedCount
    let buffer := s.buffers index
    let s' := { s with
      buffers := update s.buffers index
        { buffer with playedTimestamp := 0, samples := 0, tag := 0, size := 0 }
      releasedCount := s.releasedCount - 1 }
    if buffer.tag = 0 then (s', tags, released)
    else
      let tags := if released < size then tags ++ [buffer.tag] else tags
      let released := released + 1
      if size ≤ released then (s', tags, released) else getReleasedLoop N size s' tags released
  else (s, tags, released)
termination_by s.releasedCount

/-- `GetReleasedBuffers`, with the tags that it writes and its result. -/
def getReleasedBuffers (N : Nat) (s : AudioBuffers) (size : Nat) : AudioBuffers × List Nat × Nat :=
  getReleasedLoop N size s [] 0

/-- The first loop of `GetRegisteredAppendedBuffers`. -/
def flushRegisteredLoop (N buffersToFlush : Nat) (s : AudioBuffers)
    (buffersFlushed : List AudioBuffer) : AudioBuffers × List AudioBuffer :=
  if 0 < s.registeredCount then
    let index := back N s.registeredIndex s.registeredCount
    let buffersFlushed := buffersFlushed ++ [s.buffers index]
    let s' := { s with
      registeredCount := s.registeredCount - 1
      releasedCount := s.releasedCount + 1
      releasedIndex := (s.releasedIndex + 1) % s.appendLimit }
    if buffersToFlush ≤ buffersFlushed.length then (s', buffersFlushed)
    else flushRegisteredLoop N buffersToFlush s' buffersFlushed
  else (s, buffersFlushed)
termination_by s.registeredCount
decreasing_by exact Nat.sub_lt ‹_› Nat.one_pos

/-- The second loop of `GetRegisteredAppendedBuffers`. It leaves the registered index where it
is. -/
def flushAppendedLoop (N buffersToFlush : Nat) (s : AudioBuffers)
    (buffersFlushed : List AudioBuffer) : AudioBuffers × List AudioBuffer :=
  if 0 < s.appendedCount then
    let index := back N s.appendedIndex s.appendedCount
    let buffersFlushed := buffersFlushed ++ [s.buffers index]
    let s' := { s with
      appendedCount := s.appendedCount - 1
      releasedCount := s.releasedCount + 1
      releasedIndex := (s.releasedIndex + 1) % s.appendLimit }
    if buffersToFlush ≤ buffersFlushed.length then (s', buffersFlushed)
    else flushAppendedLoop N buffersToFlush s' buffersFlushed
  else (s, buffersFlushed)
termination_by s.appendedCount
decreasing_by exact Nat.sub_lt ‹_› Nat.one_pos

/-- `GetRegisteredAppendedBuffers`, with the buffers that it flushes. Its result is their number. -/
def getRegisteredAppendedBuffers (N : Nat) (s : AudioBuffers) (maxBuffers : Nat) :
    AudioBuffers × List AudioBuffer :=
  if s.registeredCount + s.appendedCount = 0 then (s, [])
  else
    let buffersToFlush := min (s.registeredCount + s.appendedCount) maxBuffers
    if buffersToFlush = 0 then (s, [])
    else
      let (s, buffersFlushed) := flushRegisteredLoop N buffersToFlush s []
      flushAppendedLoop N buffersToFlush s buffersFlushed

/-- `FlushBuffers`, with the number of released buffers and its result. -/
def flushBuffers (N : Nat) (s : AudioBuffers) : AudioBuffers × Nat × Bool :=
  let (s, buffersFlushed) := getRegisteredAppendedBuffers N s s.appendLimit
  let flushed := !decide (0 < s.registeredCount) &&
    !decide (s.appendLimit < s.releasedCount + s.appendedCount)
  (s, buffersFlushed.length, flushed)

/-- The loop of `ContainsBuffer`. -/
def containsLoop (s : AudioBuffers) (tag : Nat) : Nat → Nat → Bool
  | 0, _ => false
  | count + 1, index =>
    if (s.buffers index).tag = tag then true
    else containsLoop s tag count ((index + 1) % s.appendLimit)

def containsBuffer (s : AudioBuffers) (tag : Nat) : Bool :=
  let registeredBuffers := s.appendedCount + s.registeredCount + s.releasedCount
  if registeredBuffers = 0 then false
  else containsLoop s tag registeredBuffers (back s.appendLimit s.releasedIndex s.releasedCount)

/-- The number of buffers in the ring. -/
def getTotalBufferCount (s : AudioBuffers) : Nat :=
  s.appendedCount + s.registeredCount + s.releasedCount

end AudioBuffers

end Sudachi.AudioCore
