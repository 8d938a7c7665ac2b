import Mathlib.Tactic

/-!
# Character checks of paths

`CheckUtf8`, the functions of `fs_string_util.h` that it calls, and `IsInvalidCharacter` of
`fs_path_utility.h`. A `char` is signed, and where it is widened before it becomes an index, the
bytes from 0x80 on lie far outside the tables: the checks are right for ASCII strings only
(`checksRight_iff`).
-/

set_option autoImplicit false

namespace Sudachi.FileSys.CharacterEncoding

open List

/-- `static_cast` of a `char` to an unsigned type of some bits. -/
def widened (bits : Nat) (c : UInt8) : Nat := (c.toBitVec.signExtend bits).toNat

inductive CharacterEncodingResult where
  | success
  | insufficientLength
  | invalidFormat
  deriving DecidableEq

def utf8NBytesInnerTable : List Int :=
  -1 :: (replicate 128 1 ++ replicate 64 0 ++ replicate 32 2 ++
    replicate 16 3 ++ replicate 8 4 ++ replicate 4 5 ++ replicate 2 6 ++ [7, 8])

/-- `GetUtf8NBytes`; there is no result where the index is not in the table. -/
def getUtf8NBytes (i : Nat) : Option Int := utf8NBytesInnerTable[1 + i]?

/-- Whether `GetUtf8NBytes` tells a byte, cast to `unsigned char`, to go on with a character. -/
def goesOn (c : UInt8) : Option Bool := (getUtf8NBytes c.toNat).map (· == 0)

def allGoOn : List UInt8 → Option Bool
  | [] => some true
  | c :: rest => do if ← goesOn c then allGoOn rest else return false

/-- The code points of two, three and four bytes. -/
def codePoint (mask first : UInt8) (rest : List UInt8) : UInt32 :=
  rest.foldl (fun c p => c <<< 6 ||| (p &&& 0x3F).toUInt32) (first &&& mask).toUInt32

def isThreeByteCodePoint (c : UInt32) : Bool := c &&& 0xF800 ≠ 0 ∧ c &&& 0xF800 ≠ 0xD800

def isFourByteCodePoint (c : UInt32) : Bool := 0x10000 ≤ c ∧ c < 0x110000

/-- `ConvertCharacterUtf8ToUtf32`, with what it writes. -/
def convertCharacterUtf8ToUtf32 (src : List UInt8) :
    Option (CharacterEncodingResult × Option UInt32) := do
  let p := fun k => src.getD k 0
  let converted (c : UInt32) : CharacterEncodingResult × Option UInt32 := (.success, some c)
  match ← getUtf8NBytes (p 0).toNat with
  | 1 => return converted (UInt32.ofNat (widened 32 (p 0)))
  | 2 =>
    if p 0 &&& 0x1E ≠ 0 then
      if ← goesOn (p 1) then return converted (codePoint 0x1F (p 0) [p 1])
    return (.invalidFormat, none)
  | 3 =>
    if ← allGoOn [p 1, p 2] then
      let c := codePoint 0xF (p 0) [p 1, p 2]
      if isThreeByteCodePoint c then return converted c
    return (.invalidFormat, none)
  | 4 =>
    if ← allGoOn [p 1, p 2, p 3] then
      let c := codePoint 0x7 (p 0) [p 1, p 2, p 3]
      if isFourByteCodePoint c then return converted c
    return (.invalidFormat, none)
  | _ => return (.invalidFormat, none)

/-- `PickOutCharacterFromUtf8String`, with the buffer that it writes and the number of bytes by
which the string moves on. -/
def pickOutCharacterFromUtf8String (str : List UInt8) :
    Option (CharacterEncodingResult × List UInt8 × Nat) := do
  let p := fun k => str.getD k 0
  let invalid := (CharacterEncodingResult.invalidFormat, [0, 0, 0, 0], 0)
  -- the cast is to `u32` here, and not to `unsigned char` first
  match ← getUtf8NBytes (widened 32 (p 0)) with
  | 1 => return (.success, [p 0, 0, 0, 0], 1)
  | 2 =>
    if p 0 &&& 0x1E ≠ 0 then
      if ← goesOn (p 1) then return (.success, [p 0, p 1, 0, 0], 2)
    return invalid
  | 3 =>
    if ← allGoOn [p 1, p 2] then
      if isThreeByteCodePoint (codePoint 0xF (p 0) [p 1, p 2]) then
        return (.success, [p 0, p 1, p 2, 0], 3)
    return invalid
  | 4 =>
    if ← allGoOn [p 1, p 2, p 3] then
      if isFourByteCodePoint (codePoint 0x7 (p 0) [p 1, p 2, p 3]) then
        return (.success, [p 0, p 1, p 2, p 3], 4)
    return invalid
  | _ => return invalid

/-- `CheckUtf8`: whether it succeeds, if all its indices are in the table. -/
def checkUtf8 : List UInt8 → Option Bool
  | [] => some true
  | c :: rest =>
    if c = 0 then some true
    else do
      let (picked, buffer, moved) ← pickOutCharacterFromUtf8String (c :: rest)
      if picked ≠ .success then return false
      let (converted, _) ← convertCharacterUtf8ToUtf32 buffer
      if converted ≠ .success then return false
      checkUtf8 (rest.drop (moved - 1))
termination_by s => s.length

/-! ## Forbidden characters -/

/-- `MakeInvalidCharacterMask`. -/
def makeInvalidCharacterMask (invalidCharacterSet : List UInt8) (n : Nat) : UInt64 :=
  invalidCharacterSet.foldl (fun mask c =>
    if widened 64 c / 64 = n then mask ||| 1 <<< UInt64.ofNat (widened 64 c % 64) else mask) 0

/-- `IsInvalidCharacterImpl`; there is no result where the index is not in `Masks`. -/
def isInvalidCharacterImpl (invalidCharacterSet : List UInt8) (c : UInt8) : Option Bool :=
  let masks := (List.range 4).map (makeInvalidCharacterMask invalidCharacterSet)
  masks[widened 64 c / 64]?.map fun mask =>
    mask &&& 1 <<< UInt64.ofNat (widened 64 c % 64) ≠ 0

/-- `InvalidCharacters`: `:`, `*`, `?`, `<`, `>` and `|`. -/
def invalidCharacters : List UInt8 := [0x3A, 0x2A, 0x3F, 0x3C, 0x3E, 0x7C]

def isInvalidCharacter (c : UInt8) : Option Bool := isInvalidCharacterImpl invalidCharacters c

/-! ## The strings that are checked right -/

/-- A string in front of its terminator. -/
abbrev CString : Type := {s : List UInt8 // 0 ∉ s}

/-- The encodings of sequences of Unicode characters. -/
def WellFormed (s : List UInt8) : Prop :=
  ∃ characters : List Char, s = characters.flatMap String.utf8EncodeChar

/-- No check of a string leaves its table, and `CheckUtf8` succeeds where the string is well formed.
-/
structure ChecksRight (s : CString) : Prop where
  checkUtf8 : ∃ succeeds, checkUtf8 s.1 = some succeeds ∧ (succeeds = true ↔ WellFormed s.1)
  characters : ∀ c ∈ s.1, (isInvalidCharacter c).isSome = true

def Ascii (s : List UInt8) : Prop := ∀ c ∈ s, c < 0x80

variable {c : UInt8} {s : List UInt8} {bits : Nat}

theorem widened_of_lt (hbits : 8 ≤ bits) (hc : c < 0x80) : widened bits c = c.toNat := by
  have hlt : c.toBitVec.toNat < 2 ^ 7 := UInt8.lt_iff_toNat_lt.mp hc
  have hmsb : c.toBitVec.msb = false := by
    rw [BitVec.msb_eq_false_iff_two_mul_lt]
    omega
  rw [widened, BitVec.signExtend_eq_setWidth_of_msb_false hmsb, BitVec.toNat_setWidth]
  exact Nat.mod_eq_of_lt (hlt.trans_le (Nat.pow_le_pow_right (by decide) (by omega)))

/-- A byte from 0x80 on is widened to one of the last 128 values. -/
theorem widened_of_not_lt (hbits : 8 ≤ bits) (hc : ¬c < 0x80) :
    2 ^ bits - 2 ^ 7 ≤ widened bits c := by
  have hle : 2 ^ 7 ≤ c.toBitVec.toNat := Nat.not_lt.mp fun h => hc (UInt8.lt_iff_toNat_lt.mpr h)
  have hpow : 2 ^ 8 ≤ 2 ^ bits := Nat.pow_le_pow_right (by decide) hbits
  have hmsb : c.toBitVec.msb = true := by
    rw [BitVec.msb_eq_true_iff_two_mul_ge]
    omega
  rw [widened, BitVec.toNat_signExtend, hmsb, BitVec.toNat_setWidth,
    Nat.mod_eq_of_lt (c.toBitVec.isLt.trans_le hpow)]
  simp only [if_true]
  omega

theorem getUtf8NBytes_widened_of_not_lt (hc : ¬c < 0x80) : getUtf8NBytes (widened 32 c) = none := by
  have hle : 2 ^ 32 - 2 ^ 7 ≤ widened 32 c := widened_of_not_lt (by decide) hc
  have hlength : utf8NBytesInnerTable.length = 257 := by
    simp only [utf8NBytesInnerTable, length_cons, length_append, length_replicate, length_nil]
  refine getElem?_eq_none ?_
  rw [hlength]
  omega

theorem getUtf8NBytes_of_lt (hc : c < 0x80) : getUtf8NBytes c.toNat = some 1 := by
  have hall : ∀ i < 0x80, getUtf8NBytes i = some 1 := by decide
  exact hall _ (UInt8.lt_iff_toNat_lt.mp hc)

theorem isSome_isInvalidCharacter_iff : (isInvalidCharacter c).isSome = true ↔ c < 0x80 := by
  rw [isInvalidCharacter, isInvalidCharacterImpl, Option.isSome_map, Option.isSome_iff_ne_none,
    ne_eq, getElem?_eq_none_iff, not_le, length_map, length_range]
  by_cases hc : c < 0x80
  · have hlt : c.toNat < 0x80 := UInt8.lt_iff_toNat_lt.mp hc
    rw [widened_of_lt (by decide) hc]
    exact iff_of_true (by omega) hc
  · have hle : 2 ^ 64 - 2 ^ 7 ≤ widened 64 c := widened_of_not_lt (by decide) hc
    exact iff_of_false (by omega) hc

/-- A byte from 0x80 on at the start of a character is looked up outside the table. -/
theorem checkUtf8_of_not_ascii (hnul : 0 ∉ s) (hs : ¬Ascii s) : checkUtf8 s = none := by
  induction s with
  | nil => exact absurd (fun _ hc => absurd hc not_mem_nil) hs
  | cons c rest ih =>
    have hzero : c ≠ 0 := fun h => hnul (h ▸ mem_cons_self)
    rw [checkUtf8, if_neg hzero]
    by_cases hc : c < 0x80
    · have hrest : ¬Ascii rest := fun h => hs (forall_mem_cons.mpr ⟨hc, h⟩)
      have hih := ih (fun h => hnul (mem_cons_of_mem _ h)) hrest
      have hwidened : widened 32 c = c.toNat := widened_of_lt (by decide) hc
      simp [pickOutCharacterFromUtf8String, convertCharacterUtf8ToUtf32, hih, hwidened,
        getUtf8NBytes_of_lt hc]
    · simp [pickOutCharacterFromUtf8String, getUtf8NBytes_widened_of_not_lt hc]

theorem checkUtf8_of_ascii (hs : Ascii s) : checkUtf8 s = some true := by
  induction s with
  | nil => rw [checkUtf8]
  | cons c rest ih =>
    obtain ⟨hc, hrest⟩ := forall_mem_cons.mp hs
    rw [checkUtf8]
    by_cases hzero : c = 0
    · rw [if_pos hzero]
    · rw [if_neg hzero]
      have hwidened : widened 32 c = c.toNat := widened_of_lt (by decide) hc
      simp [pickOutCharacterFromUtf8String, convertCharacterUtf8ToUtf32, ih hrest, hwidened,
        getUtf8NBytes_of_lt hc]

theorem wellFormed_of_ascii (hs : Ascii s) : WellFormed s := by
  refine ⟨s.map fun c => Char.ofNat c.toNat, ?_⟩
  induction s with
  | nil => rfl
  | cons c rest ih =>
    obtain ⟨hc, hrest⟩ := forall_mem_cons.mp hs
    have hone : ∀ i < 0x80, String.utf8EncodeChar (Char.ofNat i) = [UInt8.ofNat i] := by decide
    rw [map_cons, flatMap_cons, hone _ (UInt8.lt_iff_toNat_lt.mp hc), ← ih hrest]
    simp

/-- The checks are right for the strings of bytes below 0x80, and for no others. -/
theorem checksRight_iff (s : CString) : ChecksRight s ↔ Ascii s.1 := by
  constructor
  · intro h c hc
    exact isSome_isInvalidCharacter_iff.mp (h.characters c hc)
  · intro h
    exact ⟨⟨true, checkUtf8_of_ascii h, iff_of_true rfl (wellFormed_of_ascii h)⟩,
      fun c hc => isSome_isInvalidCharacter_iff.mpr (h c hc)⟩

/-- The two bytes of `é`. -/
theorem not_checksRight_twoBytes : ¬ChecksRight ⟨[0xC3, 0xA9], by decide⟩ := by
  rintro ⟨⟨succeeds, hchecked, -⟩, -⟩
  have hnone : checkUtf8 [0xC3, 0xA9] = none :=
    checkUtf8_of_not_ascii (by decide) fun h => absurd (h 0xC3 mem_cons_self) (by decide)
  cases hnone.symm.trans hchecked

end Sudachi.FileSys.CharacterEncoding
