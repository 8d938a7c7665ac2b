import Sudachi.Kernel.MemoryBlock

/-!
# Page groups

`KBlockInfo` and `KPageGroup` of `k_page_group.h` and `k_page_group.cpp`: the physical blocks of an
allocation, in order. The fields of a block info are 32-bit numbers. Whether the block info manager
has another block info to give is left open: its answers are an arbitrary stream.
-/

set_option autoImplicit false

namespace Sudachi.Kernel

/-- `KBlockInfo`. -/
structure KBlockInfo where
  pageIndex : Nat
  numPages : Nat
  deriving DecidableEq

namespace KBlockInfo

/-- `KBlockInfo::Initialize`. -/
def initializeInfo (addr np : Nat) : KBlockInfo := ⟨addr / pageSize % 2 ^ 32, np % 2 ^ 32⟩

def getAddress (b : KBlockInfo) : Nat := b.pageIndex * pageSize

def getNumPages (b : KBlockInfo) : Nat := b.numPages

def getSize (b : KBlockInfo) : Nat := b.getNumPages * pageSize

def getEndAddress (b : KBlockInfo) : Nat := (b.pageIndex + b.numPages) % 2 ^ 32 * pageSize

/-- `TryConcatenate`, with the longer block if it succeeds. -/
def tryConcatenate (b : KBlockInfo) (addr np : Nat) : Option KBlockInfo :=
  if addr ≠ 0 ∧ addr = b.getEndAddress then some ⟨b.pageIndex, (b.numPages + np % 2 ^ 32) % 2 ^ 32⟩
  else none

end KBlockInfo

/-- `KBlockInfoManager`, as the answers to further calls of `Allocate`. -/
structure KBlockInfoManager where
  answers : Nat → Bool

/-- `Allocate`: whether there is a block info. -/
def KBlockInfoManager.allocate (m : KBlockInfoManager) : Bool × KBlockInfoManager :=
  (m.answers 0, ⟨fun n => m.answers (n + 1)⟩)

/-- `KPageGroup`. -/
structure KPageGroup where
  blocks : List KBlockInfo
  manager : KBlockInfoManager

namespace KPageGroup

/-- `GetNumPages`. -/
def getNumPages (g : KPageGroup) : Nat := (g.blocks.map KBlockInfo.getNumPages).sum

/-- The end of `AddBlock`: a new block at the end of the list, if there is a block info. -/
def appendBlock (g : KPageGroup) (addr numPages : Nat) : Bool × KPageGroup :=
  let (found, manager) := g.manager.allocate
  if found then (true, ⟨g.blocks ++ [KBlockInfo.initializeInfo addr numPages], manager⟩)
  else (false, { g with manager := manager })

/-- `AddBlock`. -/
def addBlock (g : KPageGroup) (addr numPages : Nat) : Bool × KPageGroup :=
  if numPages = 0 then (true, g)
  else
    match g.blocks.getLast? with
    | none => g.appendBlock addr numPages
    | some last =>
      match last.tryConcatenate addr numPages with
      | some longer => (true, { g with blocks := g.blocks.dropLast ++ [longer] })
      | none => g.appendBlock addr numPages

end KPageGroup

end Sudachi.Kernel
