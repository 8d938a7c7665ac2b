import Sudachi.Foundations.Walks
import Mathlib.Tactic

/-!
# Extracting a RomFS

`ExtractRomFS` of `romfs.cpp`. The walk follows the offsets of siblings and children that stand in
the two tables of an image until it comes to the empty entry, and an offset outside a table leads to
a blank entry, whose links are all zero. Nothing in the walk keeps it from coming back to an entry:
it ends exactly where the links have no cycle (`returns_iff`).
-/

set_option autoImplicit false

namespace Sudachi.FileSys.RomFS

open Sudachi.Foundations

/-! ## The tables -/

/-- `ROMFS_ENTRY_EMPTY`. -/
def romfsEntryEmpty : UInt32 := 0xFFFFFFFF

/-- The number in some bytes, with the least significant byte first. -/
def littleEndian (bytes : List UInt8) : Nat := bytes.foldr (fun b n => b.toNat + 256 * n) 0

def u32At (bytes : List UInt8) (offset : Nat) : UInt32 :=
  UInt32.ofNat (littleEndian ((bytes.drop offset).take 4))

def u64At (bytes : List UInt8) (offset : Nat) : Nat := littleEndian ((bytes.drop offset).take 8)

structure TableLocation where
  offset : Nat
  size : Nat

structure RomFSHeader where
  headerSize : Nat
  directoryMeta : TableLocation
  fileMeta : TableLocation
  dataOffset : Nat

/-- `sizeof(RomFSHeader)`. -/
def romFSHeaderSize : Nat := 0x50

def RomFSHeader.parse (bytes : List UInt8) : RomFSHeader where
  headerSize := u64At bytes 0
  directoryMeta := ⟨u64At bytes 0x18, u64At bytes 0x20⟩
  fileMeta := ⟨u64At bytes 0x38, u64At bytes 0x40⟩
  dataOffset := u64At bytes 0x48

structure DirectoryEntry where
  sibling : UInt32
  childDir : UInt32
  childFile : UInt32
  nameLength : UInt32

structure FileEntry where
  sibling : UInt32
  offset : Nat
  size : Nat
  nameLength : UInt32

structure RomFSTraversalContext where
  dataOffset : Nat
  directoryMeta : List UInt8
  fileMeta : List UInt8

/-- `GetEntry`, with the size of an entry. -/
def getEntry {Entry : Type} (blank : Entry) (parse : List UInt8 → Entry)
    (nameLength : Entry → UInt32) (entrySize : Nat) (vec : List UInt8) (offset : UInt32) :
    Entry × List UInt8 :=
  let entryEnd := offset.toNat + entrySize
  if vec.length < entryEnd then (blank, [])
  else
    let entry := parse (vec.drop offset.toNat)
    (entry, (vec.drop entryEnd).take
      (min (entryEnd + (nameLength entry).toNat) vec.length - entryEnd))

namespace RomFSTraversalContext

variable (ctx : RomFSTraversalContext)

def getDirectoryEntry : UInt32 → DirectoryEntry × List UInt8 :=
  getEntry ⟨0, 0, 0, 0⟩
    (fun bytes => ⟨u32At bytes 4, u32At bytes 8, u32At bytes 0xC, u32At bytes 0x14⟩)
    DirectoryEntry.nameLength 0x18 ctx.directoryMeta

def getFileEntry : UInt32 → FileEntry × List UInt8 :=
  getEntry ⟨0, 0, 0, 0⟩
    (fun bytes => ⟨u32At bytes 4, u64At bytes 8, u64At bytes 0x10, u32At bytes 0x1C⟩)
    FileEntry.nameLength 0x20 ctx.fileMeta

end RomFSTraversalContext

/-! ## The walk -/

/-- `OffsetVfsFile`. -/
structure OffsetVfsFile where
  size : Nat
  offset : Nat
  name : List UInt8

/-- `VectorVfsDirectory`. -/
inductive VectorVfsDirectory where
  | mk (files : List OffsetVfsFile) (dirs : List VectorVfsDirectory) (name : List UInt8)

def VectorVfsDirectory.name : VectorVfsDirectory → List UInt8
  | mk _ _ name => name

variable (ctx : RomFSTraversalContext)

/-- `ProcessFile`, for a number of rounds, with the files of the parent; there is no result where
they are too few. -/
def processFile : Nat → UInt32 → List OffsetVfsFile → Option (List OffsetVfsFile)
  | 0, _, _ => none
  | n + 1, thisFileOffset, files =>
    if thisFileOffset = romfsEntryEmpty then some files
    else
      let entry := ctx.getFileEntry thisFileOffset
      processFile n entry.1.sibling
        (files ++ [⟨entry.1.size, (entry.1.offset + ctx.dataOffset) % 2 ^ 64, entry.2⟩])

/-- `ProcessDirectory`, for a number of rounds and calls, with the directories of the parent. -/
def processDirectory : Nat → UInt32 → List VectorVfsDirectory → Option (List VectorVfsDirectory)
  | 0, _, _ => none
  | n + 1, thisDirOffset, dirs =>
    if thisDirOffset = romfsEntryEmpty then some dirs
    else do
      let entry := ctx.getDirectoryEntry thisDirOffset
      let files ← (if entry.1.childFile ≠ romfsEntryEmpty then
        processFile ctx n entry.1.childFile [] else some [])
      let subdirs ← (if entry.1.childDir ≠ romfsEntryEmpty then
        processDirectory n entry.1.childDir [] else some [])
      processDirectory n entry.1.sibling (dirs ++ [.mk files subdirs entry.2])

/-- `Read` of a part of the file, which stops where the file ends. -/
def readBytes (image : List UInt8) (size offset : Nat) : List UInt8 :=
  (image.drop offset).take size

/-- The context that `ExtractRomFS` walks with. -/
def RomFSTraversalContext.ofImage (image : List UInt8) : RomFSTraversalContext :=
  let header := RomFSHeader.parse image
  ⟨header.dataOffset, readBytes image header.directoryMeta.size header.directoryMeta.offset,
    readBytes image header.fileMeta.size header.fileMeta.offset⟩

/-- The images whose header `ExtractRomFS` refuses. -/
def Refused (image : List UInt8) : Prop :=
  (readBytes image romFSHeaderSize 0).length ≠ romFSHeaderSize ∨
    (RomFSHeader.parse image).headerSize ≠ romFSHeaderSize

instance (image : List UInt8) : Decidable (Refused image) := inferInstanceAs (Decidable (_ ∨ _))

/-- `ExtractRomFS`, for a number of rounds and calls. -/
def extractRomFS (n : Nat) (image : List UInt8) : Option (Option VectorVfsDirectory) :=
  if Refused image then some none
  else (processDirectory (.ofImage image) n 0 []).map fun dirs => dirs.find? fun d => d.name = []

def Returns (image : List UInt8) : Prop := ∃ n r, extractRomFS n image = some r

/-! ## The links -/

/-- An entry of the table of the directories, or of that of the files. -/
abbrev Place : Type := UInt32 ⊕ UInt32

/-- The steps of the walk. -/
inductive Link : Place → Place → Prop
  | sibling {o} : o ≠ romfsEntryEmpty → Link (.inl o) (.inl (ctx.getDirectoryEntry o).1.sibling)
  | childDir {o} : o ≠ romfsEntryEmpty → (ctx.getDirectoryEntry o).1.childDir ≠ romfsEntryEmpty →
      Link (.inl o) (.inl (ctx.getDirectoryEntry o).1.childDir)
  | childFile {o} : o ≠ romfsEntryEmpty → (ctx.getDirectoryEntry o).1.childFile ≠ romfsEntryEmpty →
      Link (.inl o) (.inr (ctx.getDirectoryEntry o).1.childFile)
  | nextFile {o} : o ≠ romfsEntryEmpty → Link (.inr o) (.inr (ctx.getFileEntry o).1.sibling)

/-- A number of rounds is enough from an entry on. -/
def Halts (n : Nat) : Place → Prop
  | .inl o => (processDirectory ctx n o []).isSome = true
  | .inr o => (processFile ctx n o []).isSome = true

variable {ctx} {n : Nat} {o : UInt32} {x : Place}

/-- Whether the rounds are enough does not depend on what has been found so far. -/
theorem processFile_isSome (files : List OffsetVfsFile) :
    (processFile ctx n o files).isSome = (processFile ctx n o []).isSome := by
  induction n generalizing o files with
  | zero => rfl
  | succ n ih =>
    rw [processFile, processFile]
    split
    next => rfl
    next => exact (ih _).trans (ih _).symm

theorem isSome_bind_of_isSome {α β : Type} {a : Option α} {f : α → Option β} {b : Bool}
    (h : ∀ v, (f v).isSome = b) : (a >>= f).isSome = (a.isSome && b) := by
  cases a with
  | none => rfl
  | some v => exact h v

theorem isSome_unless {α : Type} {p : Prop} [Decidable p] {a : Option α} {v : α} :
    (if p then a else some v).isSome = true ↔ (p → a.isSome = true) := by
  split
  next hp => exact ⟨fun h _ => h, fun h => h hp⟩
  next hp => exact iff_of_true rfl fun h => absurd h hp

theorem processDirectory_isSome (dirs : List VectorVfsDirectory) :
    (processDirectory ctx n o dirs).isSome = (processDirectory ctx n o []).isSome := by
  induction n generalizing o dirs with
  | zero => rfl
  | succ n ih =>
    rw [processDirectory, processDirectory]
    split
    next => rfl
    next =>
      rw [isSome_bind_of_isSome fun files => isSome_bind_of_isSome fun subdirs => ih _,
        isSome_bind_of_isSome fun files => isSome_bind_of_isSome fun subdirs => ih _]

theorem processDirectory_succ_isSome (ho : o ≠ romfsEntryEmpty) :
    (processDirectory ctx (n + 1) o []).isSome = true ↔
      ((ctx.getDirectoryEntry o).1.childFile ≠ romfsEntryEmpty →
        Halts ctx n (.inr (ctx.getDirectoryEntry o).1.childFile)) ∧
      ((ctx.getDirectoryEntry o).1.childDir ≠ romfsEntryEmpty →
        Halts ctx n (.inl (ctx.getDirectoryEntry o).1.childDir)) ∧
      Halts ctx n (.inl (ctx.getDirectoryEntry o).1.sibling) := by
  rw [processDirectory, if_neg ho, isSome_bind_of_isSome fun files =>
    isSome_bind_of_isSome fun subdirs => processDirectory_isSome _, Bool.and_eq_true,
    Bool.and_eq_true, isSome_unless, isSome_unless]
  rfl

/-- What a round needs: enough rounds from the entries on that it leads to. -/
theorem halts_succ : Halts ctx (n + 1) x ↔ ∀ y, Link ctx x y → Halts ctx n y := by
  rcases x with o | o
  · by_cases ho : o = romfsEntryEmpty
    · refine iff_of_true ?_ ?_
      · rw [Halts, processDirectory, if_pos ho]
        rfl
      · rintro y (hne | ⟨hne, -⟩ | ⟨hne, -⟩)
        all_goals exact absurd ho hne
    · refine (processDirectory_succ_isSome ho).trans ⟨?_, fun h => ?_⟩
      · rintro ⟨hfile, hdir, hsibling⟩ y (_ | ⟨_, hne⟩ | ⟨_, hne⟩)
        · exact hsibling
        · exact hdir hne
        · exact hfile hne
      · exact ⟨fun hne => h _ (.childFile ho hne), fun hne => h _ (.childDir ho hne),
          h _ (.sibling ho)⟩
  · by_cases ho : o = romfsEntryEmpty
    · refine iff_of_true ?_ ?_
      · rw [Halts, processFile, if_pos ho]
        rfl
      · rintro y (hne | ⟨hne, -⟩ | ⟨hne, -⟩ | hne)
        exact absurd ho hne
    · rw [Halts, processFile, if_neg ho, processFile_isSome]
      refine ⟨?_, fun h => h _ (.nextFile ho)⟩
      rintro h y (_ | _ | _ | _)
      exact h

instance finite_uInt32 : Finite UInt32 := Finite.of_injective UInt32.toFin fun _ _ h => UInt32.toFin_inj.mp h

theorem exists_halts_iff_acyclicFrom : (∃ n, Halts ctx n x) ↔ AcyclicFrom (Link ctx) x :=
  exists_halts_iff (fun x => by cases x <;> exact Bool.false_ne_true) fun _ _ => halts_succ

/-- An image is extracted exactly when its header is refused, or no links of the entries that the
root leads to run in a circle. -/
theorem returns_iff (image : List UInt8) :
    Returns image ↔ Refused image ∨ AcyclicFrom (Link (.ofImage image)) (.inl 0) := by
  rw [← exists_halts_iff_acyclicFrom, Returns]
  by_cases hrefused : Refused image
  · exact iff_of_true ⟨0, none, if_pos hrefused⟩ (.inl hrefused)
  · simp [extractRomFS, hrefused, Halts, ← Option.isSome_iff_exists]

/-- A header without tables: every offset leads to a blank entry, and this one to itself. -/
def blankImage : List UInt8 := 0x50 :: List.replicate 0x4F 0

theorem not_returns_blankImage : ¬Returns blankImage := by
  rintro ⟨n, r, hreturns⟩
  rw [extractRomFS, if_neg (by decide)] at hreturns
  have hhalts : Halts (.ofImage blankImage) n (.inl 0) := by
    have hsome := congrArg Option.isSome hreturns
    rwa [Option.isSome_map] at hsome
  have hlink : Link (.ofImage blankImage) (.inl 0) (.inl 0) := .sibling (by decide)
  exact exists_halts_iff_acyclicFrom.mp ⟨n, hhalts⟩ _ .refl (.single hlink)

end Sudachi.FileSys.RomFS
