import Mathlib.Logic.Function.Basic
import Sudachi.Foundations.Runs

/-!
# The macro engine

`MacroEngine` of `video_core/macro/macro.cpp`: the uploaded words of each method, the cache of
compiled programs, and `Execute`, which compiles a method at its first execution. A program stands
here for the words it was compiled from; what it does with its parameters is not modelled.

What should be run is a matter of the uploads alone: `Uploads` is the words added at each method
since it was last cleared, and `current` the suffix of the nearest upload that contains a method.
-/

set_option autoImplicit false

namespace Sudachi.VideoCore.MacroEngine

open Function (update)

/-- The two engines of `GetMacroEngine`. The interpreter keeps a reference to the uploaded vector;
the recompiler translates it when it is constructed. -/
inductive Backend where
  | interpreter
  | jit
deriving DecidableEq, Repr

/-- A cached program, with the words that were given to `Compile` and to the hash. -/
structure CacheInfo where
  code : List UInt32
  hasHleProgram : Bool
deriving DecidableEq, Repr

/-- `macro_cache` and `uploaded_macro_code`. -/
structure State where
  macroCache : Nat → Option CacheInfo
  uploadedMacroCode : Nat → Option (List UInt32)

def State.initial : State where
  macroCache := fun _ => none
  uploadedMacroCode := fun _ => none

/-- The words of a method, as `operator[]` gives them. -/
def State.code (s : State) (method : Nat) : List UInt32 :=
  (s.uploadedMacroCode method).getD []

/-- `AddCode`. -/
def State.addCode (s : State) (method : Nat) (data : UInt32) : State :=
  { s with
    uploadedMacroCode :=
      update s.uploadedMacroCode method (some (s.code method ++ [data])) }

/-- `ClearCode`. -/
def State.clearCode (s : State) (method : Nat) : State where
  macroCache := update s.macroCache method none
  uploadedMacroCode := update s.uploadedMacroCode method none

/-- The loop over `uploaded_macro_code`: the first base, in the map's iteration order, whose words
reach to the method. -/
def State.midMethod (s : State) (order : List Nat) (method : Nat) : Option Nat :=
  order.find? (fun base => method ≥ base ∧ method - base < (s.code base).length)

/-- The words of the program that a cache entry runs. A high-level program and a recompiled one are
those of the words seen when they were made. -/
def CacheInfo.program (backend : Backend) (uploaded : List UInt32) (info : CacheInfo) :
    List UInt32 :=
  if info.hasHleProgram then info.code
  else
    match backend with
    | .interpreter => uploaded
    | .jit => info.code

section Engine

-- the engine, and whether there is an enabled high-level program for the hash of some words
variable (backend : Backend) (getHLEProgram : List UInt32 → Bool)

/-- `Execute`, with the iteration order of `uploaded_macro_code` at that moment; the words of the
program that is run, and none where the assertion fails. -/
def State.execute (s : State) (order : List Nat) (method : Nat) :
    State × Option (List UInt32) :=
  match s.macroCache method with
  | some info => (s, some (info.program backend (s.code method)))
  | none =>
    match s.uploadedMacroCode method with
    | some code =>
      ({ s with
          macroCache :=
            update s.macroCache method (some ⟨code, getHLEProgram code⟩) },
        some code)
    | none =>
      match s.midMethod order method with
      | none => (s, none)
      | some base =>
        let code := (s.code base).drop (method - base)
        ({  macroCache :=
              update s.macroCache method (some ⟨code, getHLEProgram code⟩)
            uploadedMacroCode := update s.uploadedMacroCode method (some code) },
          some code)

/-! ## What should be run -/

/-- The words uploaded for each method since it was last cleared. -/
abbrev Uploads := Nat → List UInt32

/-- The greatest upload at or below `base` that contains the method. -/
def nearestFrom (uploads : Uploads) (method : Nat) : Nat → Option Nat
  | 0 => if method < (uploads 0).length then some 0 else none
  | base + 1 =>
    if method - (base + 1) < (uploads (base + 1)).length then some (base + 1)
    else nearestFrom uploads method base

/-- The nearest upload that contains the method, which is its own where there is one. -/
def nearestBase (uploads : Uploads) (method : Nat) : Option Nat :=
  nearestFrom uploads method method

/-- The code of a method: its own upload, or the rest of the nearest base that contains it. -/
def current (uploads : Uploads) (method : Nat) : Option (List UInt32) :=
  (nearestBase uploads method).map (fun base => (uploads base).drop (method - base))

/-- What the guest does with the engine. An execution carries the iteration order of the map. -/
inductive Input where
  | addCode (method : Nat) (data : UInt32)
  | clearCode (method : Nat)
  | execute (order : List Nat) (method : Nat)
deriving DecidableEq, Repr

/-- The engine and the history of its inputs. Beside the uploads the history keeps which compiled
methods have had the base of their code added to or cleared since they were compiled: `oldProgram`
for those whose program does not see the change, `oldCode` for those whose words in the map do
not. -/
structure Machine where
  engine : State
  uploads : Uploads
  oldProgram : Nat → Bool
  oldCode : Nat → Bool

def Machine.initial : Machine where
  engine := State.initial
  uploads := fun _ => []
  oldProgram := fun _ => false
  oldCode := fun _ => false

/-- Whether a method has been compiled and not cleared since. -/
def Machine.Compiled (k : Machine) (method : Nat) : Bool :=
  (k.engine.macroCache method).isSome

/-- Whether the program of a method reads the words of the map: it is interpreted, and it is not a
high-level one. -/
def Machine.ReadsMap (k : Machine) (method : Nat) : Bool :=
  match k.engine.macroCache method with
  | some info => !info.hasHleProgram && backend = .interpreter
  | none => false

/-- The history after `AddCode`: the entry points whose nearest base is the method with its new
word are behind, except the method itself if the word was put to its own upload. -/
def Machine.addCode (k : Machine) (method : Nat) (data : UInt32) : Machine :=
  let uploads := update k.uploads method (k.uploads method ++ [data])
  let own := k.uploads method ≠ []
  { engine := k.engine.addCode method data
    uploads := uploads
    oldProgram := fun m => k.oldProgram m ||
      (k.Compiled m && nearestBase uploads m = some method &&
        !(m = method && own && k.ReadsMap backend m))
    oldCode := fun m => k.oldCode m ||
      (k.Compiled m && nearestBase uploads m = some method && !(m = method && own)) }

/-- The history after `ClearCode`: the entry is gone, and the other entry points into the method
are behind. -/
def Machine.clearCode (k : Machine) (method : Nat) : Machine where
  engine := k.engine.clearCode method
  uploads := update k.uploads method []
  oldProgram := fun m => m ≠ method &&
    (k.oldProgram m || (k.Compiled m && nearestBase k.uploads m = some method))
  oldCode := fun m => m ≠ method &&
    (k.oldCode m || (k.Compiled m && nearestBase k.uploads m = some method))

def Machine.step (k : Machine) : Input → Machine
  | .addCode method data => k.addCode backend method data
  | .clearCode method => k.clearCode method
  | .execute order method =>
    { k with engine := (k.engine.execute backend getHLEProgram order method).1 }

/-- The iteration order lists the keys of the map. -/
def Iterates (k : Machine) : Input → Prop
  | .execute order _ => ∀ base, base ∈ order ↔ (k.engine.uploadedMacroCode base).isSome
  | _ => True

/-- An execution runs the current code of its method, and none where no upload contains it. -/
def RunsCurrent (k : Machine) : Input → Prop
  | .execute order method =>
    (k.engine.execute backend getHLEProgram order method).2 = current k.uploads method
  | _ => True

/-- The condition on an execution. A compiled method's code has not changed behind its program
since it was compiled; a method that is entered for the first time and has no upload of its own
takes its words from a base that is not itself behind and belongs to the same nearest upload. -/
def Fresh (k : Machine) : Input → Prop
  | .execute order method =>
    if k.Compiled method then k.oldProgram method = false
    else if (k.engine.uploadedMacroCode method).isSome then True
    else ∀ base, k.engine.midMethod order method = some base →
      k.oldCode base = false ∧ nearestBase k.uploads base = nearestBase k.uploads method
  | _ => True

end Engine

end Sudachi.VideoCore.MacroEngine
