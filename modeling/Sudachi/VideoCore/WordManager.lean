import Sudachi.Foundations.Intervals
import Sudachi.Foundations.Word

/-!
# The word manager

The state of the pages of a region of device memory, in words of 64 pages: `WordManager` with its
`Words`. A loop over words or pages that calls a function is the list of the calls it makes, and its
callers go through that list; the device tracker that the manager notifies is the net count of each
page.
-/

set_option autoImplicit false

namespace Sudachi.VideoCore

open Sudachi.Foundations BitVec

/-- `PAGES_PER_WORD`. -/
abbrev pagesPerWord : Nat := 64

/-- `BYTES_PER_PAGE`. -/
abbrev bytesPerPage : Nat := 4096

/-- `BYTES_PER_WORD`. -/
abbrev bytesPerWord : Nat := 262144

/-- The states that are kept for a page (`Type`). -/
inductive PageState where
  | cpu | gpu | cachedCpu | untracked | preflushable
  deriving DecidableEq, Repr

/-- The words of the states. -/
abbrev Words : Type := PageState → Nat → BitVec 64

/-- The count of each page in the device tracker. -/
abbrev Counts : Type := Nat → Int

structure WordManager where
  cpuAddr : Nat
  sizeBytes : Nat
  words : Words

def divCeil (number divisor : Nat) : Nat := (number + divisor - 1) / divisor

namespace Words

/-- Write one word. -/
def set (ws : Words) (state : PageState) (index : Nat) (value : BitVec 64) : Words :=
  fun s i => if s = state ∧ i = index then value else ws s i

/-- The words of a new manager: the pages are modified by the CPU and not tracked, and the bits
behind the last page are cleared. -/
def initial (sizeBytes : Nat) : Words := fun state index =>
  let numWords := divCeil sizeBytes bytesPerWord
  let lastWordSize := sizeBytes % bytesPerWord
  let lastLocalPage := divCeil lastWordSize bytesPerPage
  let shift := (pagesPerWord - lastLocalPage) % pagesPerWord
  let lastWord := (allOnes 64 <<< shift) >>> shift
  match state with
  | .cpu | .untracked => if index = numWords - 1 then lastWord else allOnes 64
  | .gpu | .cachedCpu | .preflushable => 0

end Words

/-! ## The loops -/

def extractBits (word : BitVec 64) (pageStart pageEnd : Nat) : BitVec 64 :=
  let limitPageEnd := 64 - min pageEnd 64
  let bits := (word >>> pageStart) <<< pageStart
  (bits <<< limitPageEnd) >>> limitPageEnd

def getWordPage (address : Nat) : Nat × Nat :=
  (address / bytesPerWord, address % bytesPerWord / bytesPerPage)

/-- The loop of `IterateWords`, with the number of words that are left. -/
def iterateWordsLoop : Nat → Nat → Nat → Nat → List (Nat × BitVec 64)
  | 0, _, _, _ => []
  | left + 1, wordIndex, startPage, endPage =>
    (wordIndex, extractBits (allOnes 64) startPage endPage) ::
      iterateWordsLoop left (wordIndex + 1) 0 ((endPage + 2 ^ 64 - pagesPerWord) % 2 ^ 64)

/-- A 64-bit value that is read as a signed one, and not below zero. -/
def clampSigned (value : Nat) : Nat := if value % 2 ^ 64 < 2 ^ 63 then value % 2 ^ 64 else 0

/-- `std::countr_one`. -/
def countrOne (mask : BitVec 64) : Nat := trailingOnes mask

theorem getLsbD_shiftRight_ctz {mask : BitVec 64} (h : mask ≠ 0#64) :
    (mask >>> mask.ctz.toNat).getLsbD 0 = true := by
  rw [getLsbD_ushiftRight, add_zero]
  exact getLsbD_true_ctz_of_ne_zero h

/-- What is left of a mask behind a run of ones at its end. -/
def skipRun (mask : BitVec 64) (continuousBits : Nat) : BitVec 64 :=
  if continuousBits < pagesPerWord then mask >>> continuousBits else 0#64

theorem skipRun_lt {mask : BitVec 64} (h : mask ≠ 0#64) :
    (skipRun (mask >>> mask.ctz.toNat) (countrOne (mask >>> mask.ctz.toNat))).toNat <
      mask.toNat := by
  have hpos : 0 < mask.toNat := pos_of_ne_zero fun hzero =>
    h (eq_of_toNat_eq (by rw [hzero]; rfl))
  rw [skipRun]
  split
  case isFalse => simpa using hpos
  case isTrue =>
    have hone : 0 < countrOne (mask >>> mask.ctz.toNat) :=
      trailingOnes_pos (getLsbD_shiftRight_ctz h)
    rw [toNat_ushiftRight, toNat_ushiftRight, ← Nat.shiftRight_add, Nat.shiftRight_eq_div_pow]
    exact Nat.div_lt_self hpos (Nat.one_lt_two_pow (by omega))

/-- `IteratePages`: the runs of bits of a mask, with the offset that is reached. -/
def iteratePagesFrom (offset : Nat) (mask : BitVec 64) : List (Nat × Nat) :=
  if _h : mask = 0#64 then []
  else
    let emptyBits := mask.ctz.toNat
    let continuousBits := countrOne (mask >>> emptyBits)
    (offset + emptyBits, continuousBits) :: iteratePagesFrom (offset + emptyBits + continuousBits)
        (skipRun (mask >>> emptyBits) continuousBits)
  termination_by mask.toNat
  decreasing_by exact skipRun_lt _h

def iteratePages (mask : BitVec 64) : List (Nat × Nat) := iteratePagesFrom 0 mask

/-! ## The device tracker -/

/-- `UpdatePagesCachedCount`. -/
def updatePagesCachedCount (counts : Counts) (addr size : Nat) (delta : Int) : Counts :=
  fun page =>
    if addr / bytesPerPage ≤ page ∧ page < (addr + size + bytesPerPage - 1) / bytesPerPage then
      counts page + delta
    else counts page

def notifyRasterizer (addToTracker : Bool) (cpuAddr wordIndex : Nat)
    (currentBits newBits : BitVec 64) (counts : Counts) : Counts :=
  let changedBits := (if addToTracker then currentBits else ~~~currentBits) &&& newBits
  let addr := cpuAddr + wordIndex * bytesPerWord
  (iteratePages changedBits).foldl (fun counts run =>
    updatePagesCachedCount counts (addr + run.1 * bytesPerPage) (run.2 * bytesPerPage)
      (if addToTracker then 1 else -1)) counts

/-! ## The operations -/

/-- The states whose changes are passed on to the device tracker. -/
def PageState.notifies : PageState → Bool
  | .cpu | .cachedCpu => true
  | _ => false

namespace WordManager

variable (m : WordManager)

/-- The manager that `GetNewManager` hands out: a new one, with its address. -/
def create (cpuAddr sizeBytes : Nat) : WordManager := ⟨cpuAddr, sizeBytes, .initial sizeBytes⟩

def numWords : Nat := divCeil m.sizeBytes bytesPerWord

/-- The words and the masks with which `IterateWords` calls its function. -/
def iterateWords (offset size : Nat) : List (Nat × BitVec 64) :=
  let start := clampSigned offset
  let stop := clampSigned (offset + size)
  if start ≥ m.sizeBytes ∨ stop ≤ start then []
  else
    let startWord := min (getWordPage start).1 m.numWords
    let startPage := (getWordPage start).2
    let endWord := min (getWordPage (stop + bytesPerPage - 1)).1 m.numWords
    let endPage := (getWordPage (stop + bytesPerPage - 1)).2
    let diff := endWord - startWord
    let lastWord := min (endWord + (endPage + pagesPerWord - 1) / pagesPerWord) m.numWords
    iterateWordsLoop (lastWord - startWord) startWord startPage (endPage + diff * pagesPerWord)

/-- The offset of an address in the region, as a 64-bit value. -/
def offsetOf (address : Nat) : Nat := (address + 2 ^ 64 - m.cpuAddr) % 2 ^ 64

/-- What `ChangeRegionState` does with a word. -/
def changeWord (state : PageState) (enable : Bool) (ws : Words) (index : Nat) (mask : BitVec 64) :
    Words :=
  if enable then
    let ws := ws.set state index (ws state index ||| mask)
    let ws := if state.notifies then ws.set .untracked index (ws .untracked index ||| mask) else ws
    if state = .cpu then ws.set .cachedCpu index (ws .cachedCpu index &&& ~~~mask) else ws
  else
    let ws := if state = .cpu then
      ws.set .cachedCpu index (ws .cachedCpu index &&& ~~~(ws state index &&& mask)) else ws
    let ws := ws.set state index (ws state index &&& ~~~mask)
    if state.notifies then ws.set .untracked index (ws .untracked index &&& ~~~mask) else ws

/-- A call of the function that `ChangeRegionState` passes to the loop over the words. -/
def changeCall (state : PageState) (enable : Bool) (cpuAddr : Nat) (acc : Words × Counts)
    (call : Nat × BitVec 64) : Words × Counts :=
  (changeWord state enable acc.1 call.1 call.2,
    if state.notifies then
      notifyRasterizer (!enable) cpuAddr call.1 (acc.1 .untracked call.1) call.2 acc.2
    else acc.2)

def changeRegionState (state : PageState) (enable : Bool) (dirtyAddr size : Nat)
    (counts : Counts) : WordManager × Counts :=
  let acc := (m.iterateWords (m.offsetOf dirtyAddr) size).foldl
    (changeCall state enable m.cpuAddr) (m.words, counts)
  ({ m with words := acc.1 }, acc.2)

/-- The pages of a word that a query for a state looks at: for the GPU only those that are
tracked. -/
def queryMask (ws : Words) (state : PageState) (index : Nat) (mask : BitVec 64) : BitVec 64 :=
  if state = .gpu then mask &&& ~~~(ws .untracked index) else mask

/-- What `ForEachModifiedRange` does with a word when it clears. -/
def clearWord (state : PageState) (ws : Words) (index : Nat) (mask : BitVec 64) : Words :=
  let word := ws state index &&& mask
  let ws := ws.set state index (ws state index &&& ~~~mask)
  let ws := if state.notifies then ws.set .untracked index (ws .untracked index &&& ~~~mask) else ws
  if state = .cpu then ws.set .cachedCpu index (ws .cachedCpu index &&& ~~~word) else ws

/-- A word in the loop of `ForEachModifiedRange`: the words, the counts, and the runs of modified
pages up to here. -/
def sweepWord (state : PageState) (clear : Bool) (cpuAddr : Nat)
    (acc : Words × Counts × List (Nat × Nat)) (call : Nat × BitVec 64) :
    Words × Counts × List (Nat × Nat) :=
  let mask := queryMask acc.1 state call.1 call.2
  let word := acc.1 state call.1 &&& mask
  (if clear then clearWord state acc.1 call.1 mask else acc.1,
    if clear && state.notifies then
      notifyRasterizer true cpuAddr call.1 (acc.1 .untracked call.1) mask acc.2.1
    else acc.2.1,
    acc.2.2 ++ Intervals.shift (call.1 * pagesPerWord) (iteratePages word))

/-- `ForEachModifiedRange`, with the calls of its function. The runs of the words are joined where
they touch, with one run pending. -/
def forEachModifiedRange (state : PageState) (clear : Bool) (queryCpuRange size : Nat)
    (counts : Counts) : WordManager × Counts × List (Nat × Nat) :=
  let acc := (m.iterateWords (m.offsetOf queryCpuRange) size).foldl
    (sweepWord state clear m.cpuAddr) (m.words, counts, [])
  ({ m with words := acc.1 }, acc.2.1, (Intervals.stitch acc.2.2).map fun run =>
    (m.cpuAddr + run.1 * bytesPerPage, run.2 * bytesPerPage))

def isRegionModified (state : PageState) (offset size : Nat) : Bool :=
  (m.iterateWords offset size).any fun call =>
    m.words state call.1 &&& queryMask m.words state call.1 call.2 != 0#64

/-- `std::numeric_limits<u64>::max()`. -/
abbrev u64Max : Nat := 2 ^ 64 - 1

/-- A word in the loop of `ModifiedRegion`, with the first page and the end up to here. -/
def regionCall (state : PageState) (acc : Nat × Nat) (call : Nat × BitVec 64) : Nat × Nat :=
  let word := m.words state call.1 &&& queryMask m.words state call.1 call.2
  if word = 0#64 then acc
  else (min acc.1 (call.1 * pagesPerWord + word.ctz.toNat),
    call.1 * pagesPerWord + (pagesPerWord - word.clz.toNat))

def modifiedRegion (state : PageState) (offset size : Nat) : Nat × Nat :=
  let acc := (m.iterateWords offset size).foldl (m.regionCall state) (u64Max, 0)
  if acc.1 < acc.2 then (acc.1 * bytesPerPage, acc.2 * bytesPerPage) else (0, 0)

/-- What `FlushCachedWrites` does with a word. -/
def flushWord (ws : Words) (index : Nat) : Words :=
  let cachedBits := ws .cachedCpu index
  let ws := ws.set .untracked index (ws .untracked index ||| cachedBits)
  let ws := ws.set .cpu index (ws .cpu index ||| cachedBits)
  ws.set .cachedCpu index 0

/-- A word in the loop of `FlushCachedWrites`. -/
def flushCall (cpuAddr : Nat) (acc : Words × Counts) (index : Nat) : Words × Counts :=
  (flushWord acc.1 index,
    notifyRasterizer false cpuAddr index (acc.1 .untracked index) (acc.1 .cachedCpu index) acc.2)

def flushCachedWrites (counts : Counts) : WordManager × Counts :=
  let acc := (List.range m.numWords).foldl (flushCall m.cpuAddr) (m.words, counts)
  ({ m with words := acc.1 }, acc.2)

end WordManager

end Sudachi.VideoCore
