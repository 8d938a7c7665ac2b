import Mathlib.Data.List.Basic
import Mathlib.Algebra.Order.Ring.Nat

/-!
# Normalisation of paths

`PathNormalizer` of `fs_path_utility.h`: the automaton of `IsNormalized`, and `Normalize`, which
writes the components of a path into a buffer and takes them back for each parent directory.

A path is the list of its characters in front of the terminator, and the rest of a path from an
index on is a list too. The buffer for the result is a list of its size; `text` is the string that
it holds.
-/

set_option autoImplicit false

namespace Sudachi.FileSys

/-! ## Characters -/

namespace StringTraits

def directorySeparator : Char := '/'
def dot : Char := '.'
def nullTerminator : Char := Char.ofNat 0
def alternateDirectorySeparator : Char := Char.ofNat 0x5C

def invalidCharacters : List Char := [':', '*', '?', '<', '>', '|']

/-- `MakeInvalidCharacterMask`. -/
def makeInvalidCharacterMask (set : List Char) (n : Nat) : Nat :=
  set.foldl (fun mask c => if c.toNat >>> 6 = n then mask ||| 1 <<< (c.toNat &&& 0x3F) else mask) 0

def isInvalidCharacterImpl (set : List Char) (c : Char) : Bool :=
  makeInvalidCharacterMask set (c.toNat >>> 6) &&& 1 <<< (c.toNat &&& 0x3F) != 0

def isInvalidCharacter (c : Char) : Bool := isInvalidCharacterImpl invalidCharacters c

end StringTraits

open StringTraits

/-- The character at an index of a string, or the terminator behind it. -/
def charAt (path : List Char) (i : Nat) : Char := path.getD i nullTerminator

def isCurrentDirectory (path : List Char) : Bool :=
  charAt path 0 = dot &&
    (charAt path 1 = nullTerminator || charAt path 1 = directorySeparator)

def isParentDirectory (path : List Char) : Bool :=
  charAt path 0 = dot && charAt path 1 = dot &&
    (charAt path 2 = nullTerminator || charAt path 2 = directorySeparator)

namespace PathNormalizer

/-- The failures of the functions below; the last two stand for an `ASSERT` that does not hold and
for an index in front of the buffer. -/
inductive Failure where
  | invalidCharacter
  | invalidPathFormat
  | directoryUnobtainable
  | tooLongPath
  | assertion
  | outOfBounds
deriving DecidableEq, Repr

/-! ## Parent directories behind alternate separators -/

def isSeparator (c : Char) : Bool := c = directorySeparator || c = alternateDirectorySeparator

/-- `ReplaceParentDirectoryPath` from an index on, with what is written before it. -/
def replaceFrom (src : List Char) (i : Nat) (dst : List Char) : List Char :=
  if i < src.length then
    if isSeparator (charAt src (i - 1)) && charAt src i = dot && charAt src (i + 1) = dot &&
        isSeparator (charAt src (i + 2)) then
      replaceFrom src (i + 3) (dst.take (i - 1) ++ [directorySeparator, dot, dot,
          directorySeparator])
    else if charAt src (i - 1) = alternateDirectorySeparator && charAt src i = dot &&
        charAt src (i + 1) = dot && charAt src (i + 2) = nullTerminator then
      dst.take (i - 1) ++ [directorySeparator, dot, dot]
    else replaceFrom src (i + 1) (dst ++ [charAt src i])
  else dst
termination_by src.length - i

def replaceParentDirectoryPath (src : List Char) : List Char :=
  replaceFrom src 1 [directorySeparator]

/-- The loop of `IsParentDirectoryPathReplacementNeeded`, and what follows it. -/
def findsParent : List Char → Bool
  | c0 :: c1 :: c2 :: c3 :: rest =>
    if c1 ≠ dot ∨ c2 ≠ dot then findsParent (c1 :: c2 :: c3 :: rest)
    else if c0 = alternateDirectorySeparator ∧ isSeparator c3 then true
    else if c3 = alternateDirectorySeparator ∧ isSeparator c0 then true
    else findsParent (c1 :: c2 :: c3 :: rest)
  | [c0, c1, c2] => c0 = alternateDirectorySeparator && c1 = dot && c2 = dot
  | _ => false

def isParentDirectoryPathReplacementNeeded (path : List Char) : Bool :=
  isSeparator (charAt path 0) && findsParent path

/-! ## IsNormalized -/

inductive PathState where
  | start
  | normal
  | firstSeparator
  | separator
  | currentDir
  | parentDir
deriving DecidableEq, Repr

/-- The loop of `IsNormalized` from a state and a length on: `out`,
    and `out_len` if it is written. -/
def isNormalizedFrom (allowAllCharacters : Bool) :
    PathState → Nat → List Char → Except Failure (Bool × Option Nat)
  | .start, _, [] => .error .invalidPathFormat
  | .normal, len, [] => .ok (true, some len)
  | .firstSeparator, len, [] => .ok (true, some len)
  | .separator, len, [] => .ok (false, some len)
  | .currentDir, len, [] => .ok (false, some len)
  | .parentDir, len, [] => .ok (false, some len)
  | state, len, c :: rest =>
    if allowAllCharacters = false ∧ state ≠ .start ∧ isInvalidCharacter c then
      .error .invalidCharacter
    else
      match state with
      | .start =>
        if c = directorySeparator then
          isNormalizedFrom allowAllCharacters .firstSeparator (len + 1) rest
        else .error .invalidPathFormat
      | .normal =>
        isNormalizedFrom allowAllCharacters
          (if c = directorySeparator then .separator else .normal) (len + 1) rest
      | .firstSeparator | .separator =>
        if c = directorySeparator then .ok (false, none)
        else
          isNormalizedFrom allowAllCharacters (if c = dot then .currentDir else .normal)
            (len + 1) rest
      | .currentDir =>
        if c = directorySeparator then .ok (false, none)
        else
          isNormalizedFrom allowAllCharacters (if c = dot then .parentDir else .normal)
            (len + 1) rest
      | .parentDir =>
        if c = directorySeparator then .ok (false, none)
        else isNormalizedFrom allowAllCharacters .normal (len + 1) rest

def isNormalized (allowAllCharacters : Bool) (path : List Char) :
    Except Failure (Bool × Option Nat) :=
  isNormalizedFrom allowAllCharacters .start 0 path

/-! ## Normalize -/

/-- The failure, the buffer at that time, and `out_len` if it is written. -/
abbrev Abort := Failure × List Char × Option Nat

/-- The buffer, the length written so far and the flag of the loop of `Normalize`. -/
structure Progress where
  dst : List Char
  totalLen : Nat
  skipNextSep : Bool
deriving DecidableEq, Repr

/-- The string in a buffer. -/
def text (dst : List Char) : List Char := dst.takeWhile fun c => c ≠ nullTerminator

/-- Characters written one after the other from an index on. -/
def writeFrom (dst : List Char) (i : Nat) : List Char → List Char
  | [] => dst
  | c :: cs => writeFrom (dst.set i c) (i + 1) cs

/-- The separator in front of a component. -/
def writeSeparator (maxOutSize : Nat) (s : Progress) : Except Abort Progress :=
  if s.skipNextSep then .ok { s with skipNextSep := false }
  else if s.totalLen + 1 = maxOutSize then
    .error (.tooLongPath, s.dst.set s.totalLen nullTerminator, some s.totalLen)
  else
    .ok { dst := s.dst.set s.totalLen directorySeparator, totalLen := s.totalLen + 1,
          skipNextSep := false }

/-- The loop that takes a component back: the index of the separator in front of it. -/
def scanBack (dst : List Char) : Nat → Option Nat
  | 0 => if charAt dst 0 = directorySeparator then some 0 else none
  | n + 1 =>
    if charAt dst (n + 1) = directorySeparator then some (n + 1)
    else if n = 0 then some 0
    else scanBack dst n

/-- A parent directory. -/
def writeParent (isWindowsPath : Bool) (maxOutSize : Nat) (s : Progress) :
    Except Abort Progress := do
  if ¬(0 < s.totalLen ∧ charAt s.dst (s.totalLen - 1) = directorySeparator) then
    throw (.assertion, s.dst, none)
  if isWindowsPath = false ∧ ¬charAt s.dst 0 = directorySeparator then
    throw (.assertion, s.dst, none)
  let totalLen ←
    if s.totalLen = 1 then
      if isWindowsPath then pure 0 else throw (.directoryUnobtainable, s.dst, none)
    else
      match scanBack s.dst (s.totalLen - 2) with
      | some totalLen => pure totalLen
      | none => throw (.outOfBounds, s.dst, none)
  if isWindowsPath = false ∧ ¬charAt s.dst totalLen = directorySeparator then
    throw (.assertion, s.dst, none)
  if ¬totalLen < maxOutSize then throw (.assertion, s.dst, none)
  return { s with totalLen }

/-- Any other component; a copy that does not fit is cut, with the length of a `size_t`. -/
def writeName (maxOutSize : Nat) (s : Progress) (name : List Char) : Except Abort Progress :=
  if s.totalLen + name.length + 1 > maxOutSize then
    let copyLen := (maxOutSize + 2 ^ 64 - (s.totalLen + 1)) % 2 ^ 64
    let totalLen := s.totalLen + copyLen
    .error (.tooLongPath,
      (writeFrom s.dst s.totalLen (name.take copyLen)).set totalLen nullTerminator, some totalLen)
  else
    .ok { s with
      dst := writeFrom s.dst s.totalLen name
      totalLen := s.totalLen + name.length }

/-- One component, at the head of the rest of the path. -/
def writeComponent (isWindowsPath allowAllCharacters : Bool) (maxOutSize : Nat) (s : Progress)
    (path : List Char) : Except Abort Progress :=
  let name := path.takeWhile fun c => c ≠ directorySeparator
  if allowAllCharacters = false ∧ name.any isInvalidCharacter then
    .error (.invalidCharacter, s.dst, none)
  else if isCurrentDirectory path then .ok { s with skipNextSep := true }
  else if isParentDirectory path then writeParent isWindowsPath maxOutSize s
  else writeName maxOutSize s name

/-- The rest of a path without the separators at its head. -/
def skipSeparators (path : List Char) : List Char := path.dropWhile fun c => c = directorySeparator

/-- The rest of a path without the component at its head. -/
def skipName (path : List Char) : List Char := path.dropWhile fun c => c ≠ directorySeparator

theorem skipSeparators_cons (c : Char) (rest : List Char) : skipSeparators (c :: rest) =
      if c = directorySeparator then skipSeparators rest else c :: rest := by
  simp only [skipSeparators, List.dropWhile_cons, decide_eq_true_eq]

theorem skipName_cons (c : Char) (rest : List Char) :
    skipName (c :: rest) = if c = directorySeparator then c :: rest else skipName rest := by
  simp only [skipName, List.dropWhile_cons, decide_eq_true_eq, ite_not]

theorem length_skip_lt {c : Char} {rest : List Char} :
    (skipName (skipSeparators (c :: rest))).length < (c :: rest).length := by
  have hname (path : List Char) : (skipName path).length ≤ path.length :=
    (List.dropWhile_suffix _).length_le
  have hseparators : (skipSeparators rest).length ≤ rest.length :=
    (List.dropWhile_suffix _).length_le
  rw [skipSeparators_cons, List.length_cons]
  split
  · have hboth := hname (skipSeparators rest)
    omega
  · rename_i hc
    have hrest := hname rest
    rw [skipName_cons, if_neg hc]
    omega

/-- The loop over the components. -/
def normalizeFrom (isWindowsPath allowAllCharacters : Bool) (maxOutSize : Nat) (s : Progress) :
    List Char → Except Abort Progress
  | [] => .ok s
  | c :: rest =>
    let next := skipSeparators (c :: rest)
    if c = directorySeparator ∧ next = [] then .ok s
    else do
      let s ← if c = directorySeparator then writeSeparator maxOutSize s else .ok s
      let s ← writeComponent isWindowsPath allowAllCharacters maxOutSize s next
      normalizeFrom isWindowsPath allowAllCharacters maxOutSize s (skipName next)
termination_by path => path.length
decreasing_by exact length_skip_lt

/-- The end of `Normalize`, behind its loop. -/
def finish (allowAllCharacters : Bool) (maxOutSize : Nat) (s : Progress) :
    Except Abort (List Char × Nat) := do
  let totalLen := if s.skipNextSep then s.totalLen - 1 else s.totalLen
  let (dst, totalLen) :=
    if totalLen = 0 ∧ maxOutSize ≠ 0 then (s.dst.set 0 directorySeparator, 1)
    else (s.dst, totalLen)
  -- The length is a `size_t`, so that zero minus one is no small number.
  if ¬maxOutSize ≥ (totalLen + 2 ^ 64 - 1) % 2 ^ 64 then throw (.tooLongPath, dst, none)
  let dst := dst.set totalLen nullTerminator
  match isNormalized allowAllCharacters (text dst) with
  | .error e => throw (e, dst, none)
  | .ok (isNormalized, _) =>
    if ¬isNormalized then throw (.assertion, dst, none)
    return (dst, totalLen)

/-- `Normalize`: the buffer and the length. -/
def normalize (dst path : List Char) (maxOutSize : Nat)
    (isWindowsPath isDriveRelativePath allowAllCharacters : Bool) :
    Except Abort (List Char × Nat) := do
  let s : Progress ←
    if charAt path 0 ≠ directorySeparator then
      if isDriveRelativePath then
        pure { dst := dst.set 0 directorySeparator, totalLen := 1, skipNextSep := false }
      else throw (.invalidPathFormat, dst, none)
    else pure { dst, totalLen := 0, skipNextSep := false }
  let curPath :=
    if isParentDirectoryPathReplacementNeeded path then replaceParentDirectoryPath path else path
  let s ← normalizeFrom isWindowsPath allowAllCharacters maxOutSize s curPath
  finish allowAllCharacters maxOutSize s

end PathNormalizer

end Sudachi.FileSys
