import Sudachi.VideoCore.GpuMemoryWalk

/-!
# Block accesses of the GPU

`ReadBlock` and `WriteBlock` copy piece by piece: small pages and big pages that are in one piece on
the host through one pointer, other big pages through the block accesses of the device. They agree
with the translation of single addresses except below big pages that are reserved, where the
translation finds small pages and the walk does not, and except for small pages without memory of
the device, whose null pointer is copied from. `blocksRight_iff` says this for every access in every
state.

The rasterizer is left out: the host memory is that in which its flushes have been written back.
-/

set_option autoImplicit false

namespace Sudachi.VideoCore.GpuMemoryManager

open Sudachi.Foundations Sudachi.Foundations.BlockAccess Sudachi.Foundations.EarlyExit Sudachi.Core List Option
open DeviceMemory (pageSize)
open GpuHistory (defaultLayout)

/-- The bytes of the host. -/
abbrev HostMemory := Nat → BitVec 8

/-- `memcpy` to the destination of a read; from a null pointer there is no result. -/
def copyFrom (host : HostMemory) (physical : Option Nat) (copyAmount : Nat)
    (dest : Option (List (BitVec 8))) : Option (List (BitVec 8)) :=
  dest.bind fun dest => physical.map fun ptr => dest ++ bytesAt host ptr copyAmount

/-- `ReadBlockImpl`: the bytes read. -/
def readBlockImpl (L : GpuLayout) (m : GpuMemoryManager) (memory : DeviceMemoryManager)
    (host : HostMemory) (gpuSrcAddr size : Nat) : Option (List (BitVec 8)) :=
  let setToZero : Callback (Option (List (BitVec 8))) := fun _ _ copyAmount dest =>
    (dest.map (· ++ replicate copyAmount 0), false)
  let mappedNormal : Callback (Option (List (BitVec 8))) := fun pageIndex offset copyAmount dest =>
    let devAddrBase := (m.pageTable false pageIndex).toNat <<< cpuPageBits + offset
    (copyFrom host (memory.getPointer devAddrBase) copyAmount dest, false)
  let mappedBig : Callback (Option (List (BitVec 8))) := fun pageIndex offset copyAmount dest =>
    let devAddrBase := (m.pageTable true pageIndex).toNat <<< cpuPageBits + offset
    if ¬m.isBigPageContinuous pageIndex then
      (dest.bind fun dest => (memory.readBlockUnsafe host devAddrBase copyAmount).map (dest ++ ·),
        false)
    else (copyFrom host (memory.getPointer devAddrBase) copyAmount dest, false)
  let readShortPages : Callback (Option (List (BitVec 8))) :=
    fun pageIndex offset copyAmount dest =>
    let base := pageIndex <<< L.bits true + offset
    (memoryOperation L m false mappedNormal setToZero setToZero base copyAmount dest, false)
  memoryOperation L m true mappedBig setToZero readShortPages gpuSrcAddr size (some [])

/-- The host memory and the rest of the source of a write. -/
abbrev WriteState := Option (HostMemory × List (BitVec 8))

/-- `memcpy` from the source of a write; to a null pointer there is no result. -/
def copyInto (physical : Option Nat) (copyAmount : Nat) (s : WriteState) : WriteState :=
  s.bind fun (host, src) => physical.map fun ptr =>
    (copyTo host ptr (src.take copyAmount), src.drop copyAmount)

/-- `WriteBlockImpl`: the host memory afterwards. -/
def writeBlockImpl (L : GpuLayout) (m : GpuMemoryManager) (memory : DeviceMemoryManager)
    (host : HostMemory) (gpuDestAddr : Nat) (src : List (BitVec 8)) : Option HostMemory :=
  let justAdvance : Callback WriteState := fun _ _ copyAmount s =>
    (s.map fun (host, src) => (host, src.drop copyAmount), false)
  let mappedNormal : Callback WriteState := fun pageIndex offset copyAmount s =>
    let devAddrBase := (m.pageTable false pageIndex).toNat <<< cpuPageBits + offset
    (copyInto (memory.getPointer devAddrBase) copyAmount s, false)
  let mappedBig : Callback WriteState := fun pageIndex offset copyAmount s =>
    let devAddrBase := (m.pageTable true pageIndex).toNat <<< cpuPageBits + offset
    if ¬m.isBigPageContinuous pageIndex then
      (s.bind fun (host, src) =>
        (memory.writeBlockUnsafe host devAddrBase (src.take copyAmount)).map fun host =>
          (host, src.drop copyAmount), false)
    else (copyInto (memory.getPointer devAddrBase) copyAmount s, false)
  let writeShortPages : Callback WriteState := fun pageIndex offset copyAmount s =>
    let base := pageIndex <<< L.bits true + offset
    (memoryOperation L m false mappedNormal justAdvance justAdvance base copyAmount s, false)
  (memoryOperation L m true mappedBig justAdvance writeShortPages gpuDestAddr src.length
    (some (host, src))).map Prod.fst

/-! ## What is to be read and written -/

variable {L : GpuLayout} {m : GpuMemoryManager} {memory : DeviceMemoryManager} {host : HostMemory}
  {a address size i : Nat} {p : Piece} {ps : List Piece}

/-- The place of each byte of a range on the host: that of the device address that it is translated
to. -/
def wanted (L : GpuLayout) (m : GpuMemoryManager) (memory : DeviceMemoryManager)
    (address size : Nat) : List (Option Nat) :=
  (List.range size).map fun i => (m.gpuToCpuAddress L (address + i)).bind memory.getPointer

/-- The block accesses to a range agree with the translation: a byte that is not mapped reads as
zero, and writes go to the bytes at the addresses, one after the other, and change nothing else. -/
structure BlocksRight (L : GpuLayout) (m : GpuMemoryManager) (memory : DeviceMemoryManager)
    (address size : Nat) : Prop where
  read : ∀ host, m.readBlockImpl L memory host address size =
    some ((m.wanted L memory address size).map (readTarget host))
  write : ∀ host src, src.length = size → m.writeBlockImpl L memory host address src =
    some (writeTargets host (m.wanted L memory address size) src)

/-- The block accesses of the device find the memory of a block. -/
def DeviceWalks (memory : DeviceMemoryManager) (devAddr size : Nat) : Prop :=
  (memory.walkBlock devAddr size).map targets = some (memory.pointers devAddr size)

/-- No small page with memory lies below a reserved big page, the small pages below free big pages
have memory, and the device finds the memory of the parts of big pages that are not in one piece. -/
structure BlockSound (L : GpuLayout) (m : GpuMemoryManager) (memory : DeviceMemoryManager)
    (address size : Nat) : Prop where
  reserved : ∀ i < size, m.getEntry L true (address + i) = .reserved →
    m.getEntry L false (address + i) = .mapped →
    memory.getPointer (m.levelAddress L false (address + i)) = none
  short : ∀ i < size, m.getEntry L true (address + i) = .free →
    m.getEntry L false (address + i) = .mapped →
    memory.getPointer (m.levelAddress L false (address + i)) ≠ none
  walks : ∀ p ∈ pieces L m address size, p.big = true → p.entry m = .mapped →
    m.isBigPageContinuous p.pageIndex = false → DeviceWalks memory (p.devAddrBase m) p.amount

/-! ## The accesses by pieces -/

/-- The places on the host for the bytes of a piece; none at all where a null pointer is used. -/
def hostTargets (m : GpuMemoryManager) (memory : DeviceMemoryManager) (p : Piece) :
    Option (List (Option Nat)) :=
  match p.place m with
  | none => some (segmentTargets (p.amount, none))
  | some base =>
    if p.big = true ∧ m.isBigPageContinuous p.pageIndex = false then
      (memory.walkBlock base p.amount).map targets
    else (memory.getPointer base).map fun ptr => segmentTargets (p.amount, some ptr)

def allTargets (m : GpuMemoryManager) (memory : DeviceMemoryManager) :
    List Piece → Option (List (Option Nat))
  | [] => some []
  | p :: ps => (hostTargets m memory p).bind fun ts => (allTargets m memory ps).map (ts ++ ·)

variable {src : List (BitVec 8)} {n : Nat}

theorem length_walkBlock {segments : List (Nat × Option Nat)}
    (h : memory.walkBlock address size = some segments) : (targets segments).length = size := by
  have hpages : ∀ fuel page offset size segments,
      memory.walkPages fuel page offset size = some segments →
      (targets segments).length = size := by
    intro fuel
    induction fuel with
    | zero =>
      intro page offset size segments h
      cases size with
      | zero =>
        rw [DeviceMemoryManager.walkPages, some.injEq] at h
        rw [← h]
        rfl
      | succ size => cases h
    | succ fuel ih =>
      intro page offset size segments h
      cases size with
      | zero =>
        rw [DeviceMemoryManager.walkPages, some.injEq] at h
        rw [← h]
        rfl
      | succ size =>
        rw [DeviceMemoryManager.walkPages_succ] at h
        obtain ⟨rest, hrest, rfl⟩ := map_eq_some_iff.mp h
        rw [targets_cons, length_append, length_segmentTargets, ih _ _ _ _ hrest]
        omega
  exact hpages _ _ _ _ _ h

theorem length_hostTargets {ts : List (Option Nat)} (h : hostTargets m memory p = some ts) :
    ts.length = p.amount := by
  rw [hostTargets] at h
  split at h
  · rw [← some.inj h, length_segmentTargets]
  · split at h
    · obtain ⟨segments, hwalk, rfl⟩ := map_eq_some_iff.mp h
      exact length_walkBlock hwalk
    · obtain ⟨ptr, -, rfl⟩ := map_eq_some_iff.mp h
      exact length_segmentTargets _

/-- Reading a piece. -/
def readPiece (m : GpuMemoryManager) (memory : DeviceMemoryManager) (host : HostMemory) (p : Piece)
    (dest : Option (List (BitVec 8))) : Option (List (BitVec 8)) :=
  dest.bind fun dest => (hostTargets m memory p).map fun ts => dest ++ ts.map (readTarget host)

theorem copyFrom_eq (host : HostMemory) (physical : Option Nat) (copyAmount : Nat)
    (dest : Option (List (BitVec 8))) : copyFrom host physical copyAmount dest =
      dest.bind fun dest => (physical.map fun ptr => segmentTargets (copyAmount, some ptr)).map
        fun ts => dest ++ ts.map (readTarget host) := by
  cases dest <;> cases physical <;> simp [copyFrom, ← readSegment_eq, readSegment]

theorem foldl_readPiece (ps : List Piece) (dest : List (BitVec 8)) :
    ps.foldl (fun s p => readPiece m memory host p s) (some dest) =
      (allTargets m memory ps).map fun ts => dest ++ ts.map (readTarget host) := by
  have hnone : ∀ ps : List Piece,
      ps.foldl (fun s p => readPiece m memory host p s) none = none := by
    intro ps
    induction ps with
    | nil => rfl
    | cons _ _ ih => exact ih
  induction ps generalizing dest with
  | nil => simp [allTargets]
  | cons p ps ih =>
    rw [foldl_cons, allTargets]
    cases hp : hostTargets m memory p with
    | none =>
      rw [readPiece, hp]
      exact hnone ps
    | some ts =>
      rw [readPiece, hp]
      refine (ih _).trans ?_
      cases allTargets m memory ps <;> simp

/-- A read reads the bytes at the places of its pieces. -/
theorem readBlockImpl_eq : m.readBlockImpl L memory host address size =
    (allTargets m memory (pieces L m address size)).map fun ts => ts.map (readTarget host) := by
  have hfold := @foldl_readPiece m memory host (pieces L m address size) []
  rw [readBlockImpl]
  refine (memoryOperation_pieces (fun _ => false) (fun _ _ _ _ _ _ => rfl) (fun _ _ _ _ _ _ => rfl)
    (fun _ _ _ _ _ => rfl) (fun _ _ _ _ _ => rfl) (fun _ _ _ _ _ => rfl) rfl).trans ?_
  rw [runUntil_congr (k := fun p s => (readPiece m memory host p s, false)) fun p _ dest => ?_,
    runUntil_never, hfold]
  · simp
  · obtain ⟨big, pageIndex, offset, amount⟩ := p
    rw [pieceStep, dispatch, readPiece, hostTargets, Piece.place]
    cases hentry : Piece.entry m ⟨big, pageIndex, offset, amount⟩ with
    | mapped =>
      cases big with
      | false =>
        simp only [copyFrom_eq, Bool.false_eq_true, false_and, if_false, if_true]
        rfl
      | true =>
        cases hcontinuous : m.isBigPageContinuous pageIndex with
        | true =>
          simp only [copyFrom_eq, if_true, not_true_eq_false, if_false, and_false,
            Bool.true_eq_false]
          rfl
        | false =>
          simp only [if_true, Bool.false_eq_true, not_false_eq_true, and_self,
            DeviceMemoryManager.readBlockUnsafe, Option.map_map, Function.comp_def, readSegments_eq]
          rfl
    | reserved => cases big <;> cases dest <;> simp [readTarget, segmentTargets]
    | free => cases big <;> cases dest <;> simp [readTarget, segmentTargets]

/-- Pieces that are written one after the other. -/
theorem runUntil_write {step : Piece → WriteState → WriteState × Bool}
    (hnone : ∀ p, step p none = (none, false))
    (hsome : ∀ p host src, p.amount ≤ src.length → step p (some (host, src)) =
      ((hostTargets m memory p).map fun ts =>
        (writeTargets host ts (src.take p.amount), src.drop p.amount), false))
    (htiles : Tiles L m a size ps) (hsrc : src.length = size) :
    (runUntil step ps (some (host, src))).1.map Prod.fst =
      (allTargets m memory ps).map fun ts => writeTargets host ts src := by
  have hfault : ∀ ps, runUntil step ps none = (none, false) := by
    intro ps
    induction ps with
    | nil => rfl
    | cons p ps ih => rw [runUntil, hnone, if_neg Bool.false_ne_true, ih]
  induction ps generalizing host src a size with
  | nil =>
    obtain rfl : src = [] := eq_nil_of_length_eq_zero (hsrc.trans htiles)
    rfl
  | cons p ps ih =>
    obtain ⟨-, hle, hrest⟩ := htiles
    rw [runUntil, hsome p host src (hsrc ▸ hle), if_neg Bool.false_ne_true, allTargets]
    cases hp : hostTargets m memory p with
    | none =>
      rw [map_none, hfault]
      rfl
    | some ts =>
      have hlength : ts.length = (src.take p.amount).length := by
        rw [length_hostTargets hp, length_take, hsrc, min_eq_left hle]
      rw [map_some, ih hrest (by rw [length_drop, hsrc])]
      cases hps : allTargets m memory ps with
      | none => rfl
      | some ts' =>
        have happend := @writeTargets_append _ host ts ts' (src.take p.amount)
          (src.drop p.amount) hlength
        rw [take_append_drop] at happend
        exact congrArg some happend.symm

theorem copyInto_eq (physical : Option Nat) {copyAmount : Nat}
    (h : copyAmount ≤ src.length) : copyInto physical copyAmount (some (host, src)) =
      (physical.map fun ptr => segmentTargets (copyAmount, some ptr)).map fun ts =>
        (writeTargets host ts (src.take copyAmount), src.drop copyAmount) := by
  cases physical with
  | none => rfl
  | some ptr =>
    have hlength : (src.take copyAmount).length = copyAmount := by
      rw [length_take, min_eq_left h]
    have hcopy := @copyTo_eq _ host (src.take copyAmount) ptr
    rw [hlength] at hcopy
    simp [copyInto, hcopy]

/-- A write writes the bytes at the places of its pieces. -/
theorem writeBlockImpl_eq : m.writeBlockImpl L memory host address src =
      (allTargets m memory (pieces L m address src.length)).map fun ts =>
        writeTargets host ts src := by
  rw [writeBlockImpl]
  refine (congrArg _ (memoryOperation_pieces (fun _ => false) (fun _ _ _ _ _ _ => rfl)
    (fun _ _ _ _ _ _ => rfl) (fun _ _ _ _ _ => rfl) (fun _ _ _ _ _ => rfl) (fun _ _ _ _ _ => rfl)
    rfl)).trans ?_
  refine runUntil_write (fun p => ?_) (fun p host src hle => ?_)
    (pieces_tile L m address src.length) rfl
  · obtain ⟨big, pageIndex, offset, amount⟩ := p
    rw [pieceStep, dispatch]
    cases Piece.entry m ⟨big, pageIndex, offset, amount⟩ <;> cases big <;> simp [copyInto]
  · obtain ⟨big, pageIndex, offset, amount⟩ := p
    rw [pieceStep, dispatch, hostTargets, Piece.place]
    cases hentry : Piece.entry m ⟨big, pageIndex, offset, amount⟩ with
    | mapped =>
      cases big with
      | false =>
        simp only [copyInto_eq _ hle, Bool.false_eq_true, false_and, if_false, if_true]
        rfl
      | true =>
        cases hcontinuous : m.isBigPageContinuous pageIndex with
        | true =>
          simp only [copyInto_eq _ hle, if_true, not_true_eq_false, if_false, and_false,
            Bool.true_eq_false]
          rfl
        | false =>
          have hlength : (src.take amount).length = amount := by
            rw [length_take]
            exact min_eq_left hle
          have hwrite : ∀ devAddr, memory.writeBlockUnsafe host devAddr (src.take amount) =
              ((memory.walkBlock devAddr amount).map targets).map fun ts =>
                writeTargets host ts (src.take amount) := by
            intro devAddr
            rw [DeviceMemoryManager.writeBlockUnsafe, hlength]
            cases hwalk : memory.walkBlock devAddr amount with
            | none => rfl
            | some segments =>
              exact congrArg some (writeSegments_eq ((length_walkBlock hwalk).trans hlength.symm))
          simp only [if_true, Bool.false_eq_true, not_false_eq_true, and_self, hwrite,
            bind_some, Option.map_map, Function.comp_def]
          rfl
    | reserved => cases big <;> simp [writeTargets_none]
    | free => cases big <;> simp [writeTargets_none]

/-! ## The accesses that are right -/

/-- The accesses are right exactly if the places of the pieces are those that are wanted. -/
theorem blocksRight_iff_allTargets : BlocksRight L m memory address size ↔
    allTargets m memory (pieces L m address size) = some (m.wanted L memory address size) := by
  constructor
  case mp =>
    intro hright
    obtain ⟨ts, hts⟩ : ∃ ts, allTargets m memory (pieces L m address size) = some ts := by
      have hread := hright.read fun _ => 0
      rw [readBlockImpl_eq] at hread
      obtain ⟨ts, hts, -⟩ := map_eq_some_iff.mp hread
      exact ⟨ts, hts⟩
    rw [hts]
    refine congrArg some (targets_eq_of_read ⟨(1 : BitVec 8), by decide⟩ fun host => ?_)
    have hread := hright.read host
    rwa [readBlockImpl_eq, hts, map_some, some.injEq] at hread
  case mpr =>
    intro htargets
    refine ⟨fun host => by rw [readBlockImpl_eq, htargets, map_some],
      fun host src hsrc => ?_⟩
    rw [writeBlockImpl_eq, hsrc, htargets, map_some]

theorem length_wanted : (m.wanted L memory address size).length = size := by
  rw [wanted, length_map, length_range]

theorem wanted_split (h : n ≤ size) : m.wanted L memory a size =
    m.wanted L memory a n ++ m.wanted L memory (a + n) (size - n) := by
  obtain ⟨rest, rfl⟩ := Nat.exists_eq_add_of_le h
  rw [wanted, range_add, map_append, List.map_map, Nat.add_sub_cancel_left]
  refine congrArg₂ _ rfl (map_congr_left fun i _ => ?_)
  show (m.gpuToCpuAddress L (a + (n + i))).bind _ = (m.gpuToCpuAddress L (a + n + i)).bind _
  rw [add_assoc]

/-- The pieces have the places that are wanted exactly if each piece does. -/
theorem allTargets_cons_iff (h : p.amount ≤ size) :
    allTargets m memory (p :: ps) = some (m.wanted L memory a size) ↔
      hostTargets m memory p = some (m.wanted L memory a p.amount) ∧
        allTargets m memory ps = some (m.wanted L memory (a + p.amount) (size - p.amount)) := by
  rw [allTargets, wanted_split h]
  constructor
  · intro heq
    obtain ⟨ts, hts, hmap⟩ := bind_eq_some_iff.mp heq
    obtain ⟨ts', hts', happend⟩ := map_eq_some_iff.mp hmap
    obtain ⟨rfl, rfl⟩ := append_inj happend ((length_hostTargets hts).trans length_wanted.symm)
    exact ⟨hts, hts'⟩
  · rintro ⟨hts, hts'⟩
    rw [hts, hts']
    rfl

/-- The big pages that are noted as continuous are in one piece on the host. -/
def ContinuousFits (L : GpuLayout) (memory : DeviceMemoryManager) (m : GpuMemoryManager) : Prop :=
  ∀ q, m.entryAt true q = .mapped → m.isBigPageContinuous q = true →
    isContinuous L memory ((m.pageTable true q).toNat <<< cpuPageBits) = true

theorem size_false (L : GpuLayout) : L.size false = pageSize :=
  congrArg (2 ^ ·) L.pageBits_eq

/-- The pointers to the bytes of a page of the device follow each other. -/
theorem getPointer_add {page offset : Nat} (h : offset + i < pageSize) :
    memory.getPointer (page * pageSize + offset + i) =
      (memory.getPointer (page * pageSize + offset)).map (· + i) := by
  have hfirst := @DeviceMemoryManager.getPointer_of_page memory page 0 offset (by omega)
  have hbyte := @DeviceMemoryManager.getPointer_of_page memory page 0 (offset + i) h
  rw [add_zero] at hfirst hbyte
  rw [add_assoc, hbyte, hfirst]
  split
  · rfl
  · rw [map_some, add_assoc]

/-- The pointers to the bytes of a continuous big page follow each other. -/
theorem getPointer_of_isContinuous {page j : Nat}
    (h : isContinuous L memory (page * pageSize) = true) (hj : j < L.size true) :
    ∃ ptr, memory.getPointer (page * pageSize) = some ptr ∧
      memory.getPointer (page * pageSize + j) = some (ptr + j) := by
  have hpos : 0 < pageSize := Nat.two_pow_pos _
  rw [isContinuous, size_false] at h
  cases hptr : memory.getPointer (page * pageSize) with
  | none =>
    rw [hptr] at h
    cases h
  | some ptr =>
    rw [hptr] at h
    refine ⟨ptr, rfl, ?_⟩
    obtain ⟨k, o, ho, rfl⟩ : ∃ k o, o < pageSize ∧ j = k * pageSize + o :=
      ⟨j / pageSize, j % pageSize, Nat.mod_lt _ hpos, (Nat.div_add_mod' _ _).symm⟩
    have hpage : memory.getPointer ((page + k) * pageSize + 0) = some (ptr + k * pageSize) := by
      rw [add_zero, add_mul]
      cases k with
      | zero => simpa using hptr
      | succ k =>
        have hk : k < L.size true / pageSize - 1 := by
          have hlt : k + 1 < L.size true / pageSize := by
            refine lt_of_lt_of_le (Nat.lt_succ_self _) ?_
            have hdvd : pageSize ∣ L.size true := size_false L ▸ small_dvd_big L
            obtain ⟨count, hcount⟩ := hdvd
            rw [hcount, Nat.mul_div_cancel_left _ hpos]
            rw [hcount, mul_comm] at hj
            exact Nat.lt_of_mul_lt_mul_left (lt_of_le_of_lt (Nat.le_add_right _ o) hj)
          omega
        exact of_decide_eq_true (all_eq_true.mp h k (mem_range.mpr hk))
    have hbyte := @getPointer_add memory o (page + k) 0 (by rwa [zero_add])
    rw [hpage, map_some, add_zero] at hbyte
    rw [← add_assoc, ← add_mul, hbyte, add_assoc]

theorem devAddrBase_eq : p.devAddrBase m =
    (m.pageTable p.big p.pageIndex).toNat * pageSize + p.offset :=
  congrArg (· + p.offset) (Nat.shiftLeft_eq _ _)

theorem segmentTargets_some_eq {ptr : Nat} {f : Nat → Option Nat}
    (h : ∀ i < n, f i = some (ptr + i)) : segmentTargets (n, some ptr) = (range n).map f :=
  map_congr_left fun i hi => (h i (mem_range.mp hi)).symm

theorem map_range_eq_iff {f g : Nat → Option Nat} :
    (range n).map f = (range n).map g ↔ ∀ i < n, f i = g i :=
  map_inj_left.trans (forall_congr' fun i => by rw [mem_range])

/-- What has to hold of the pages below a byte. -/
def ByteSound (L : GpuLayout) (m : GpuMemoryManager) (memory : DeviceMemoryManager) (a : Nat) :
    Prop :=
  m.getEntry L false a = .mapped →
    (m.getEntry L true a = .reserved → memory.getPointer (m.levelAddress L false a) = none) ∧
      (m.getEntry L true a = .free → memory.getPointer (m.levelAddress L false a) ≠ none)

/-- What has to hold of a piece. -/
def WalkSound (m : GpuMemoryManager) (memory : DeviceMemoryManager) (p : Piece) : Prop :=
  p.big = true → p.entry m = .mapped → m.isBigPageContinuous p.pageIndex = false →
    DeviceWalks memory (p.devAddrBase m) p.amount

/-- A big piece is not free. -/
theorem Piece.Covers.entry_ne_free (h : p.Covers L m a) (hbig : p.big = true) :
    p.entry m ≠ .free := by
  intro hfree
  have hfound := h.found 0 h.pos
  have hentry : m.getEntry L true (a + 0) = .free := by
    have hget := h.getEntry (m := m) h.pos
    rwa [hbig, hfree] at hget
  rw [walkEntry, if_pos hentry, hbig] at hfound
  cases hfound

theorem Piece.Covers.getEntry_true (h : p.Covers L m a) (hbig : p.big = false) (hi : i < p.amount) :
    m.getEntry L true (a + i) = .free := by
  have hfound := h.found i hi
  rw [walkEntry] at hfound
  split at hfound
  case isTrue hfree => exact hfree
  case isFalse =>
    rw [hbig] at hfound
    cases hfound

theorem wanted_mapped (hspace : a + p.amount ≤ L.addressSpaceSize) (h : p.Covers L m a)
    (hentry : p.entry m = .mapped) :
    m.wanted L memory a p.amount = memory.pointers (p.devAddrBase m) p.amount := by
  refine map_congr_left fun i hi => ?_
  have hi := mem_range.mp hi
  rw [gpuToCpuAddress_eq (by omega)]
  have hget := h.getEntry (m := m) hi
  have hlevel := h.levelAddress (m := m) hi
  cases hbig : p.big with
  | true =>
    rw [hbig] at hget hlevel
    rw [if_pos (hget.trans hentry), hlevel]
    rfl
  | false =>
    rw [hbig] at hget hlevel
    rw [h.getEntry_true hbig hi, if_neg (by decide), if_pos (hget.trans hentry), hlevel]
    rfl

/-- The places of a piece are those that are wanted exactly if its bytes and its walk are sound. -/
theorem hostTargets_iff (hspace : a + p.amount ≤ L.addressSpaceSize)
    (hfits : ContinuousFits L memory m) (h : p.Covers L m a) :
    hostTargets m memory p = some (m.wanted L memory a p.amount) ↔
      (∀ i < p.amount, ByteSound L m memory (a + i)) ∧ WalkSound m memory p := by
  have hget := fun i hi => h.getEntry (m := m) (i := i) hi
  have hlevel := fun i hi => h.levelAddress (m := m) (i := i) hi
  rw [hostTargets, Piece.place]
  cases hbig : p.big with
  | true =>
    rw [hbig] at hget hlevel
    cases hentry : p.entry m with
    | free => exact absurd hentry (h.entry_ne_free hbig)
    | mapped =>
      have hbytes : ∀ i < p.amount, ByteSound L m memory (a + i) := by
        intro i hi _
        rw [hget i hi, hentry]
        exact ⟨(fun h => by cases h), fun h => by cases h⟩
      rw [wanted_mapped hspace h hentry, if_pos rfl]
      cases hcontinuous : m.isBigPageContinuous p.pageIndex with
      | false =>
        refine ⟨fun hwalk => ⟨hbytes, fun _ _ _ => hwalk⟩, fun hsound => ?_⟩
        exact hsound.2 hbig hentry hcontinuous
      | true =>
        refine iff_of_true ?_ ⟨hbytes, fun _ _ hnot => ?_⟩
        · have hpage := hfits p.pageIndex (hbig ▸ hentry) hcontinuous
          have hinside := h.inside
          have hpos := h.pos
          rw [hbig] at hinside
          rw [Nat.shiftLeft_eq] at hpage
          obtain ⟨ptr, hptr, hfirst⟩ := @getPointer_of_isContinuous L memory _ p.offset hpage
            (by omega)
          have hbase : p.devAddrBase m =
              (m.pageTable true p.pageIndex).toNat * pageSize + p.offset :=
            hbig ▸ devAddrBase_eq
          rw [hbase]
          show (memory.getPointer _).map _ = _
          rw [hfirst, map_some]
          refine congrArg some (segmentTargets_some_eq fun i hi => ?_)
          obtain ⟨ptr', hptr', hbyte⟩ := @getPointer_of_isContinuous L memory _ (p.offset + i)
            hpage (by omega)
          rw [hptr, some.injEq] at hptr'
          rw [add_assoc, hbyte, ← hptr', add_assoc]
        · rw [hcontinuous] at hnot
          cases hnot
    | reserved =>
      rw [if_neg (by decide)]
      have hwalk : WalkSound m memory p := fun _ hmapped => by
        rw [hentry] at hmapped
        cases hmapped
      show some ((range p.amount).map fun i => Option.map (· + i) none) = _ ↔ _
      rw [some.injEq, wanted, map_range_eq_iff, and_iff_left hwalk]
      refine forall_congr' fun i => forall_congr' fun hi => ?_
      rw [gpuToCpuAddress_eq (by omega), ByteSound, hget i hi, hentry, if_neg (by decide)]
      by_cases hsmall : m.getEntry L false (a + i) = .mapped
      · rw [if_pos hsmall]
        refine ⟨fun heq _ => ⟨fun _ => heq.symm, fun h => by cases h⟩, fun hsound => ?_⟩
        exact ((hsound hsmall).1 rfl).symm
      · rw [if_neg hsmall]
        exact iff_of_true rfl fun hmapped => absurd hmapped hsmall
  | false =>
    rw [hbig] at hget hlevel
    have hbigEntry := fun i hi => h.getEntry_true (i := i) hbig hi
    have hwalk : WalkSound m memory p := fun htrue => by
      rw [hbig] at htrue
      cases htrue
    rw [and_iff_left hwalk]
    by_cases hentry : p.entry m = .mapped
    case neg =>
      rw [if_neg hentry]
      refine iff_of_true ?_ fun i hi hmapped => absurd ((hget i hi).symm.trans hmapped) hentry
      refine congrArg some (map_congr_left fun i hi => ?_)
      have hi := mem_range.mp hi
      rw [gpuToCpuAddress_eq (by omega), hbigEntry i hi, hget i hi, if_neg (by decide),
        if_neg hentry]
      rfl
    case pos =>
      have hinside := h.inside
      rw [hbig, size_false] at hinside
      have hpointer : ∀ i < p.amount, memory.getPointer (p.devAddrBase m + i) =
          (memory.getPointer (p.devAddrBase m)).map (· + i) := by
        intro i hi
        rw [devAddrBase_eq]
        exact getPointer_add (by omega)
      have hsound : (∀ i < p.amount, ByteSound L m memory (a + i)) ↔
          memory.getPointer (p.devAddrBase m) ≠ none := by
        constructor
        · intro hbytes
          have hfirst := (hbytes 0 h.pos ((hget 0 h.pos).trans hentry)).2 (hbigEntry 0 h.pos)
          rwa [hlevel 0 h.pos] at hfirst
        · intro hptr i hi _
          rw [hbigEntry i hi, hlevel i hi, hpointer i hi]
          exact ⟨(fun h => by cases h), fun _ hnone => hptr (map_eq_none_iff.mp hnone)⟩
      rw [if_pos hentry, hsound, wanted_mapped hspace h hentry]
      show (if false = true ∧ _ then _ else _) = _ ↔ _
      rw [if_neg fun h => absurd h.1 (by decide)]
      cases hptr : memory.getPointer (p.devAddrBase m) with
      | none => exact iff_of_false (fun h => by cases h) fun h => h rfl
      | some ptr =>
        refine iff_of_true ?_ (fun h => by cases h)
        refine congrArg some (segmentTargets_some_eq fun i hi => ?_)
        rw [hpointer i hi, hptr]
        rfl

/-- The accesses to pieces that tile a range. -/
theorem allTargets_iff (hspace : a + size ≤ L.addressSpaceSize) (hfits : ContinuousFits L memory m)
    (htiles : Tiles L m a size ps) : allTargets m memory ps = some (m.wanted L memory a size) ↔
      (∀ i < size, ByteSound L m memory (a + i)) ∧ ∀ p ∈ ps, WalkSound m memory p := by
  induction ps generalizing a size with
  | nil =>
    obtain rfl : size = 0 := htiles
    exact iff_of_true rfl ⟨fun i hi => absurd hi (Nat.not_lt_zero i), fun p hp => by cases hp⟩
  | cons p ps ih =>
    obtain ⟨hcovers, hle, hrest⟩ := htiles
    rw [allTargets_cons_iff hle, hostTargets_iff (by omega) hfits hcovers, ih (by omega) hrest,
      forall_mem_cons]
    constructor
    · rintro ⟨⟨hbytes, hwalk⟩, hbytes', hwalks⟩
      refine ⟨fun i hi => ?_, hwalk, hwalks⟩
      rcases lt_or_ge i p.amount with hlt | hge
      · exact hbytes i hlt
      · have hbyte := hbytes' (i - p.amount) (by omega)
        rwa [add_assoc, Nat.add_sub_cancel' hge] at hbyte
    · rintro ⟨hbytes, hwalk, hwalks⟩
      refine ⟨⟨fun i hi => hbytes i (by omega), hwalk⟩, fun i hi => ?_, hwalks⟩
      rw [add_assoc]
      exact hbytes _ (by omega)

theorem blockSound_iff : BlockSound L m memory address size ↔
    (∀ i < size, ByteSound L m memory (address + i)) ∧
      ∀ p ∈ pieces L m address size, WalkSound m memory p := by
  constructor
  · rintro ⟨hreserved, hshort, hwalks⟩
    exact ⟨fun i hi hmapped => ⟨fun h => hreserved i hi h hmapped, fun h => hshort i hi h hmapped⟩,
      hwalks⟩
  · rintro ⟨hbytes, hwalks⟩
    exact ⟨fun i hi h hmapped => (hbytes i hi hmapped).1 h,
      fun i hi h hmapped => (hbytes i hi hmapped).2 h, hwalks⟩

/-- The accesses to a range are right exactly if its pages are sound. -/
theorem blocksRight_iff (hspace : address + size ≤ L.addressSpaceSize)
    (hfits : ContinuousFits L memory m) :
    BlocksRight L m memory address size ↔ BlockSound L m memory address size := by
  rw [blocksRight_iff_allTargets, allTargets_iff hspace hfits (pieces_tile L m address size),
    blockSound_iff]

/-! ## Runs of calls -/

/-- The device addresses of a call are those of pages whose numbers have 32 bits; the address space
of the device has 34 bits. -/
def InDevice : GpuOperation → Prop
  | .map _ devAddr size _ => devAddr + size ≤ 2 ^ 44
  | .mapSparse _ _ _ => True
  | .unmap _ _ => True

/-- The tables after some calls. -/
def run (L : GpuLayout) (memory : DeviceMemoryManager) (ops : List GpuOperation) :
    GpuMemoryManager :=
  ops.foldl (apply L memory) initial

/-- A big page is in one piece exactly as its pages are, whatever the offset of its address. -/
theorem isContinuous_floor {devAddr : Nat} (h : isContinuous L memory devAddr = true) :
    isContinuous L memory (devAddr / pageSize * pageSize) = true := by
  have hpos : 0 < pageSize := Nat.two_pow_pos _
  have hoffset := Nat.mod_lt devAddr hpos
  have hpointer : ∀ k, memory.getPointer (devAddr + k * pageSize) =
      (memory.getPointer (devAddr / pageSize * pageSize +
        k * pageSize)).map (· + devAddr % pageSize) := by
    intro k
    have hbyte := @getPointer_add memory (devAddr % pageSize) (devAddr / pageSize + k) 0 (by omega)
    have hsplit := Nat.div_add_mod' devAddr pageSize
    have haddress : (devAddr / pageSize + k) * pageSize + 0 +
        devAddr % pageSize = devAddr + k * pageSize := by
      rw [add_mul]
      omega
    rw [haddress, add_zero, add_mul] at hbyte
    exact hbyte
  have hfirst := hpointer 0
  rw [zero_mul, add_zero, add_zero] at hfirst
  rw [isContinuous] at h ⊢
  cases hbase : memory.getPointer (devAddr / pageSize * pageSize) with
  | none =>
    rw [hfirst, hbase] at h
    cases h
  | some ptr =>
    rw [hfirst, hbase] at h
    refine all_eq_true.mpr fun k hk => decide_eq_true ?_
    have hnext := of_decide_eq_true (all_eq_true.mp h k hk)
    rw [size_false, hpointer] at hnext
    obtain ⟨next, hpage, hsum⟩ := map_eq_some_iff.mp hnext
    rw [size_false, hpage]
    have hsum : next + devAddr % pageSize = ptr + devAddr % pageSize + (k + 1) * pageSize := hsum
    exact congrArg some (by omega)

/-- Writing to the tables keeps the notes of continuous pages right. -/
theorem ContinuousFits.of_wrote {big : Bool} {e : EntryType} {first devAddr count : Nat}
    {m' : GpuMemoryManager} (h : ContinuousFits L memory m)
    (hwrote : Wrote L memory big e first devAddr count m m')
    (hdevice : e = .mapped → ∀ i < count, devAddr + i * L.size big < 2 ^ 44) :
    ContinuousFits L memory m' := by
  intro q hentry hcontinuous
  rw [hwrote.entry] at hentry
  rw [hwrote.continuous] at hcontinuous
  rw [hwrote.table]
  by_cases hin : true = big ∧ first ≤ q ∧ q < first + count
  · rw [if_pos hin] at hentry
    rw [if_pos ⟨hin, hentry⟩] at hcontinuous
    rw [if_pos ⟨hin, hentry⟩]
    have hsmall := hdevice hentry (q - first) (by omega)
    have hpage : (devAddr + (q - first) * L.size big) / 2 ^ cpuPageBits < 2 ^ 32 := by
      rw [cpuPageBits]
      omega
    have hfloor := isContinuous_floor hcontinuous
    rw [BitVec.toNat_ofNat, Nat.shiftRight_eq_div_pow, Nat.shiftLeft_eq]
    rw [Nat.mod_eq_of_lt hpage]
    exact hfloor
  · rw [if_neg hin] at hentry
    rw [if_neg fun h => hin h.1] at hcontinuous
    rw [if_neg fun h => hin h.1]
    exact h q hentry hcontinuous

theorem ContinuousFits.apply {op : GpuOperation} (h : ContinuousFits L memory m)
    (haligned : op.Aligned L) (hdevice : InDevice op) :
    ContinuousFits L memory (m.apply L memory op) := by
  cases op with
  | map gpuAddr devAddr size isBigPages =>
    rw [GpuMemoryManager.apply, map_eq]
    have hsize : L.size isBigPages ∣ size := haligned.size
    refine h.of_wrote (tableOp_wrote hsize haligned.inside) fun _ i hi => ?_
    have hfits : devAddr + size ≤ 2 ^ 44 := hdevice
    have hlt : i * L.size isBigPages < size / L.size isBigPages * L.size isBigPages :=
      Nat.mul_lt_mul_of_pos_right hi (size_pos L isBigPages)
    rw [Nat.div_mul_cancel hsize] at hlt
    omega
  | mapSparse gpuAddr size isBigPages =>
    rw [GpuMemoryManager.apply, mapSparse_eq]
    have hsize : L.size isBigPages ∣ size := haligned.size
    have hinside : gpuAddr + size ≤ L.addressSpaceSize := haligned.inside
    exact h.of_wrote (tableOp_wrote hsize hinside) fun h => by cases h
  | unmap gpuAddr size =>
    rw [GpuMemoryManager.apply, unmap]
    have hsize : L.size true ∣ size := haligned.size
    have hinside : gpuAddr + size ≤ L.addressSpaceSize := haligned.inside
    split
    · exact h
    · have hbig : ContinuousFits L memory (bigPageTableOp L memory .free gpuAddr 0 size m) :=
        h.of_wrote (tableOp_wrote hsize hinside) fun h => by cases h
      exact hbig.of_wrote (tableOp_wrote ((small_dvd_big L).trans hsize) hinside)
        fun h => by cases h

theorem continuousFits_run {ops : List GpuOperation}
    (hops : ∀ op ∈ ops, op.Aligned L ∧ InDevice op) :
    ContinuousFits L memory (run L memory ops) := by
  have hinitial : ContinuousFits L memory initial := by
    intro q hmapped
    have hfree : initial.entryAt true q = .free := by
      simp [entryAt, initial, PackedTable.field, EntryType.ofWord]
    rw [hfree] at hmapped
    cases hmapped
  have hfold : ∀ m, ContinuousFits L memory m →
      ContinuousFits L memory (ops.foldl (GpuMemoryManager.apply L memory) m) := by
    induction ops with
    | nil => exact fun _ h => h
    | cons op ops ih =>
      intro m h
      obtain ⟨haligned, hdevice⟩ := hops op mem_cons_self
      exact ih (fun op hop => hops op (mem_cons_of_mem _ hop)) _ (h.apply haligned hdevice)
  exact hfold initial hinitial

/-- A device whose pages all lie on one page of the host. -/
def onePageDevice : DeviceMemoryManager := { DeviceMemoryManager.initial with
  compressedPhysicalPtr := fun _ => 1 }

theorem smallPage_aligned {ops : List GpuOperation}
    (h : ∀ op ∈ ops, op.Aligned defaultLayout ∧ InDevice op) :
    ∀ op ∈ ops ++ [.map 0 0 (2 ^ 12) false], op.Aligned defaultLayout ∧ InDevice op := by
  intro op hop
  rcases mem_append.mp hop with hop | hop
  · exact h op hop
  · rw [mem_singleton.mp hop]
    exact ⟨⟨Nat.dvd_zero _, by decide, by decide⟩, show 0 + 2 ^ 12 ≤ 2 ^ 44 by decide⟩

end Sudachi.VideoCore.GpuMemoryManager
