import Mathlib.Tactic.Common
import Mathlib.Algebra.Order.Ring.Nat

/-!
# `AudioCore::Renderer::SplitterContext`

The splitters of an audio renderer. A splitter sends a mix to several destinations, which it holds
as a list that is threaded through the `next` pointers of the destinations. `Update` takes a buffer
from the guest: a header, the splitters with the ids of their destinations, and the data of the
destinations. Pointers to destinations are indices into their array, and an access outside of an
array makes a function fail with `none`. Volumes stay the bit patterns that the guest writes.
-/

set_option autoImplicit false

namespace Sudachi.AudioCore

/-- `Common::MakeMagic`. -/
def makeMagic (a b c d : Char) : Nat :=
  a.toNat + b.toNat * 2 ^ 8 + c.toNat * 2 ^ 16 + d.toNat * 2 ^ 24

/-- `GetSplitterInParamHeaderMagic`. -/
def splitterInParamHeaderMagic : Nat := makeMagic 'S' 'N' 'D' 'H'

/-- `GetSplitterInfoMagic`. -/
def splitterInfoMagic : Nat := makeMagic 'S' 'N' 'D' 'I'

/-- `GetSplitterSendDataMagic`. -/
def splitterSendDataMagic : Nat := makeMagic 'S' 'N' 'D' 'D'

/-- `MaxMixBuffers`. -/
def maxMixBuffers : Nat := 24

/-- `UnusedMixId`. -/
def unusedMixId : Int := 2 ^ 31 - 1

/-- The bytes that the guest gives, from the start of the buffer on. -/
abbrev Input := Nat → UInt8

def readU32 (input : Input) (offset : Nat) : Nat :=
  (input offset).toNat + (input (offset + 1)).toNat * 2 ^ 8 +
    (input (offset + 2)).toNat * 2 ^ 16 + (input (offset + 3)).toNat * 2 ^ 24

/-- A `u32` as an `s32`. -/
def toS32 (x : Nat) : Int := if x < 2 ^ 31 then x else x - 2 ^ 32

/-! ## The destinations -/

/-- `SplitterDestinationData::InParameter`. -/
structure DestinationParameter where
  magic : Nat
  id : Int
  mixVolumes : List Nat
  mixId : Nat
  inUse : Bool

def DestinationParameter.read (input : Input) (offset : Nat) : DestinationParameter where
  magic := readU32 input offset
  id := toS32 (readU32 input (offset + 4))
  mixVolumes := (List.range maxMixBuffers).map fun i => readU32 input (offset + 8 + 4 * i)
  mixId := readU32 input (offset + 0x68)
  inUse := input (offset + 0x6C) ≠ 0

/-- `sizeof(SplitterDestinationData::InParameter)`. -/
def destinationParameterSize : Nat := 0x70

structure SplitterDestinationData where
  id : Int
  destinationId : Int
  mixVolumes : List Nat
  prevMixVolumes : List Nat
  next : Option Nat
  inUse : Bool
  needUpdate : Bool

namespace SplitterDestinationData

/-- A destination as it is constructed. -/
def new (id : Int) : SplitterDestinationData :=
  ⟨id, unusedMixId, List.replicate maxMixBuffers 0, List.replicate maxMixBuffers 0, none, false,
    false⟩

def update (d : SplitterDestinationData) (params : DestinationParameter) :
    SplitterDestinationData :=
  if params.id ≠ d.id ∨ params.magic ≠ splitterSendDataMagic then d
  else
    let d := { d with destinationId := toS32 params.mixId, mixVolumes := params.mixVolumes }
    let d := if !d.inUse && params.inUse then
        { d with prevMixVolumes := d.mixVolumes, needUpdate := false }
      else d
    { d with inUse := params.inUse }

def updateInternalState (d : SplitterDestinationData) : SplitterDestinationData :=
  let d := if d.inUse && d.needUpdate then { d with prevMixVolumes := d.mixVolumes } else d
  { d with needUpdate := false }

end SplitterDestinationData

/-! ## The splitters -/

/-- `SplitterInfo::InParameter`. -/
structure InfoParameter where
  magic : Nat
  id : Int
  sampleRate : Nat
  destinationCount : Nat

def InfoParameter.read (input : Input) (offset : Nat) : InfoParameter where
  magic := readU32 input offset
  id := toS32 (readU32 input (offset + 4))
  sampleRate := readU32 input (offset + 8)
  destinationCount := readU32 input (offset + 0xC)

/-- `sizeof(SplitterInfo::InParameter)`. -/
def infoParameterSize : Nat := 0x10

structure SplitterInfo where
  id : Int
  sampleRate : Nat
  destinationCount : Nat
  hasNewConnection : Bool
  destinations : Option Nat

namespace SplitterInfo

/-- A splitter as it is constructed. -/
def new (id : Int) : SplitterInfo := ⟨id, 0, 0, true, none⟩

/-- `Update`, with the size that the splitter takes in the buffer. -/
def update (info : SplitterInfo) (params : InfoParameter) : SplitterInfo × Nat :=
  if params.id ≠ info.id then (info, 0)
  else
    ({ info with sampleRate := params.sampleRate, hasNewConnection := true },
      (infoParameterSize + 3 * 4 + params.destinationCount * 4) % 2 ^ 32)

end SplitterInfo

/-- `GetNext` on a pointer. -/
def nextOf (destinations : List SplitterDestinationData) (d : Nat) : Option Nat :=
  (destinations[d]?).bind (·.next)

/-- `SplitterInfo::GetData` from the start of a list. -/
def getData (destinations : List SplitterDestinationData) (start : Option Nat) : Nat → Option Nat
  | 0 => start
  | i + 1 => start.bind fun d => getData destinations (nextOf destinations d) i

/-- `SplitterInfo::UpdateInternalState` from the start of a list, for the iterations that the fuel
allows. -/
def updateList : Nat → List SplitterDestinationData → Option Nat →
    Option (List SplitterDestinationData)
  | _, destinations, none => some destinations
  | 0, _, some _ => none
  | fuel + 1, destinations, some d =>
    let destinations := destinations.modify d SplitterDestinationData.updateInternalState
    updateList fuel destinations (nextOf destinations d)

/-- The number of the destinations that lead to another one. -/
def leadingCount (destinations : List SplitterDestinationData) : Nat :=
  destinations.countP (·.next.isSome)

theorem leadingCount_set_lt {destinations : List SplitterDestinationData} {d next : Nat}
    {data : SplitterDestinationData} (hd : destinations[d]? = some data)
    (hnext : data.next = some next) :
    leadingCount (destinations.set d { data with next := none }) < leadingCount destinations := by
  obtain ⟨hlt, hdata⟩ := List.getElem?_eq_some_iff.mp hd
  have hpos : 0 < destinations.countP (·.next.isSome) :=
    List.countP_pos_iff.mpr ⟨data, hdata ▸ List.getElem_mem hlt, by rw [hnext]; rfl⟩
  rw [leadingCount, leadingCount, List.countP_set hlt, hdata, hnext]
  simp only [Option.isSome_some, Option.isSome_none, if_true, Bool.false_eq_true, if_false]
  omega

/-- The first loop of `RecomposeDestination`, which takes a list apart. -/
def unlink (destinations : List SplitterDestinationData) (destination : Option Nat) :
    List SplitterDestinationData :=
  match destination with
  | none => destinations
  | some d =>
    match hd : destinations[d]? with
    | none => destinations
    | some data =>
      match hnext : data.next with
      | none => destinations.set d { data with next := none }
      | some next => unlink (destinations.set d { data with next := none }) (some next)
termination_by leadingCount destinations
decreasing_by exact leadingCount_set_lt hd hnext

/-- The second loop of `RecomposeDestination`, which links the destinations with the given ids
behind the current one. -/
def linkFrom (destinations : List SplitterDestinationData) (current : Nat) :
    List Nat → Option (List SplitterDestinationData)
  | [] => some destinations
  | next :: ids => do
      let _ ← destinations[next]?
      let data ← destinations[current]?
      linkFrom (destinations.set current { data with next := some next }) next ids

/-! ## The context -/

structure SplitterContext where
  splitterInfos : List SplitterInfo
  infoCount : Nat
  splitterDestinations : List SplitterDestinationData
  destinationsCount : Nat
  splitterBugFixed : Bool

namespace SplitterContext

/-- The context after `Initialize` with splitters and destinations. -/
def new (infoCount destinationsCount : Nat) (splitterBugFixed : Bool) : SplitterContext where
  splitterInfos := (List.range infoCount).map fun (i : Nat) => .new i
  infoCount := infoCount
  splitterDestinations := (List.range destinationsCount).map fun (i : Nat) => .new i
  destinationsCount := destinationsCount
  splitterBugFixed := splitterBugFixed

def getDestCountPerInfoForCompat (s : SplitterContext) : Nat :=
  if s.infoCount = 0 then 0 else s.destinationsCount / s.infoCount

/-- The number of destinations that `RecomposeDestination` links. -/
def destCount (s : SplitterContext) (infoHeader : InfoParameter) : Nat :=
  if s.splitterBugFixed then infoHeader.destinationCount
  else min infoHeader.destinationCount s.getDestCountPerInfoForCompat

/-- `GetDestinationData`. -/
def getDestinationData (s : SplitterContext) (index destinationId : Nat) : Option Nat :=
  (s.splitterInfos[index]?).bind fun info =>
    getData s.splitterDestinations info.destinations destinationId

/-- `GetDestinationCount` of the splitter with an index. -/
def destinationCountOf (s : SplitterContext) (index : Nat) : Nat :=
  ((s.splitterInfos[index]?).map (·.destinationCount)).getD 0

/-- `RecomposeDestination` on the splitter with an index. The ids of the destinations stand in the
buffer behind the header. -/
def recomposeDestination (s : SplitterContext) (index : Nat) (infoHeader : InfoParameter)
    (destinationIds : Nat → Nat) : Option SplitterContext := do
  let info ← s.splitterInfos[index]?
  let destinations := unlink s.splitterDestinations info.destinations
  let destCount := s.destCount infoHeader
  match (List.range destCount).map destinationIds with
  | [] => some { s with
      splitterInfos := s.splitterInfos.set index { info with destinations := none }
      splitterDestinations := destinations }
  | head :: ids =>
    let _ ← destinations[head]?
    let destinations ← linkFrom destinations head ids
    some { s with
      splitterInfos := s.splitterInfos.set index
        { info with destinations := some head, destinationCount := destCount }
      splitterDestinations := destinations }

/-- The body of the loop of `UpdateInfo` behind its checks, with the size of what was read. -/
def processInfo (s : SplitterContext) (infoHeader : InfoParameter) (destinationIds : Nat → Nat) :
    Option (SplitterContext × Nat) := do
  let index := infoHeader.id.toNat
  let s ← s.recomposeDestination index infoHeader destinationIds
  let info ← s.splitterInfos[index]?
  let (info, size) := info.update infoHeader
  some ({ s with splitterInfos := s.splitterInfos.set index info }, size)

/-- `UpdateInfo`, with the offset behind what it read. -/
def updateInfo (input : Input) : Nat → Nat → SplitterContext → Option (SplitterContext × Nat)
  | 0, offset, s => some (s, offset)
  | splitterCount + 1, offset, s =>
    let infoHeader := InfoParameter.read input offset
    if infoHeader.magic ≠ splitterInfoMagic then updateInfo input splitterCount offset s
    else if infoHeader.id < 0 ∨ (s.infoCount : Int) < infoHeader.id then some (s, offset)
    else do
      let (s, size) ← s.processInfo infoHeader
        fun i => readU32 input (offset + infoParameterSize + 4 * i)
      updateInfo input splitterCount ((offset + size) % 2 ^ 32) s

/-- `UpdateData`, with the offset behind what it read. -/
def updateData (input : Input) : Nat → Nat → SplitterContext → Option (SplitterContext × Nat)
  | 0, offset, s => some (s, offset)
  | count + 1, offset, s =>
    let dataHeader := DestinationParameter.read input offset
    if dataHeader.magic ≠ splitterSendDataMagic then updateData input count offset s
    else if dataHeader.id < 0 ∨ (s.destinationsCount : Int) < dataHeader.id then
      updateData input count offset s
    else do
      let index := dataHeader.id.toNat
      let d ← s.splitterDestinations[index]?
      updateData input count ((offset + destinationParameterSize) % 2 ^ 32)
        { s with splitterDestinations := s.splitterDestinations.set index (d.update dataHeader) }

/-- `sizeof(InParameterHeader)`. -/
def inParameterHeaderSize : Nat := 0x20

/-- `Update`, with the consumed size and the result. -/
def update (s : SplitterContext) (input : Input) : Option (SplitterContext × Nat × Bool) :=
  if s.destinationsCount = 0 ∨ s.infoCount = 0 then some (s, 0, true)
  else if readU32 input 0 ≠ splitterInParamHeaderMagic then some (s, 0, false)
  else do
    let s := { s with
      splitterInfos := s.splitterInfos.map fun info => { info with hasNewConnection := false } }
    let (s, offset) ← updateInfo input (readU32 input 4) inParameterHeaderSize s
    let (s, offset) ← updateData input (readU32 input 8) offset s
    some (s, (offset + 15) / 16 * 16 % 2 ^ 32, true)

/-- `UpdateInternalState`, for the iterations in each list that the fuel allows. -/
def updateInternalState (fuel : Nat) (s : SplitterContext) : Option SplitterContext := do
  let destinations ← (List.range s.infoCount).foldlM (fun destinations i => do
    let info ← s.splitterInfos[i]?
    updateList fuel destinations info.destinations) s.splitterDestinations
  some { s with splitterDestinations := destinations }

end SplitterContext

end Sudachi.AudioCore
