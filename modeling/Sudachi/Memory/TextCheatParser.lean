import Mathlib.Logic.Relation
import Sudachi.Foundations.Results
import Sudachi.Memory.CheatVm

/-!
# The parser of cheat files

`ExtractName` and `TextCheatParser::Parse` of `cheat_engine.cpp`. The text is not terminated, and a
read at its size or behind it is a fault. The search for the bracket that closes a name compares the
index with the size when it has read already, so a header that is not closed is read beyond the end
(`parse_inBounds_iff`). The loop ends for every text, since each round moves on.
-/

set_option autoImplicit false

namespace Sudachi.Memory

open Sudachi.Foundations List

/-- `CheatDefinition`; the opcodes are those below `num_opcodes`. -/
structure CheatDefinition where
  readableName : List Char
  opcodes : List Dword
  deriving DecidableEq

def CheatDefinition.numOpcodes (d : CheatDefinition) : Nat := d.opcodes.length

structure CheatEntry where
  enabled : Bool
  cheatId : Nat
  definition : CheatDefinition
  deriving DecidableEq

/-- The size of `readable_name`. -/
def readableNameSize : Nat := 0x40

/-- The size of `opcodes`. -/
def maxOpcodes : Nat := 0x100

def CheatEntry.blank : CheatEntry := ⟨false, 0, ⟨replicate readableNameSize '\x00', []⟩⟩

namespace TextCheatParser

/-- A read behind the end of the text. -/
inductive Fault where
  | outOfBounds
  deriving DecidableEq

def charAt (data : List Char) (k : Nat) : Except Fault Char :=
  match data[k]? with
  | some c => .ok c
  | none => .error .outOfBounds

/-- The loop of `ExtractName`; there is no result where it gives up. -/
def findMatch (data : List Char) (closer : Char) (endIndex : Nat) : Except Fault (Option Nat) := do
  if (← charAt data endIndex) = closer then return some endIndex
  else if data.length < endIndex + 1 then return none
  else findMatch data closer (endIndex + 1)
termination_by data.length + 1 - endIndex

/-- `ExtractName`: the size of the name, and the name, which may be shortened. -/
def extractName (data : List Char) (startIndex : Nat) (closer : Char) :
    Except Fault (Nat × List Char) := do
  match ← findMatch data closer startIndex with
  | none => return (0, [])
  | some endIndex =>
    let nameSize := endIndex - startIndex
    return (nameSize, (data.drop startIndex).take (min nameSize readableNameSize))

/-- `isspace`. -/
def isSpace (c : Char) : Bool := c = ' ' || ('\t' ≤ c && c ≤ '\r')

/-- The value of a hexadecimal digit. -/
def digitValue (c : Char) : Option Nat :=
  if '0' ≤ c ∧ c ≤ '9' then some (c.toNat - '0'.toNat)
  else if 'a' ≤ c ∧ c ≤ 'f' then some (c.toNat - 'a'.toNat + 10)
  else if 'A' ≤ c ∧ c ≤ 'F' then some (c.toNat - 'A'.toNat + 10)
  else none

/-- `isxdigit`. -/
def isXDigit (c : Char) : Bool := (digitValue c).isSome

/-- `strtoul` of hexadecimal digits. -/
def wordValue (hex : List Char) : Dword :=
  BitVec.ofNat 32 (hex.foldl (fun n c => 16 * n + (digitValue c).getD 0) 0)

/-- `out` and `current_entry` of `Parse`. -/
structure Progress where
  out : List CheatEntry
  currentEntry : Option Nat
  deriving DecidableEq

namespace Progress

def initial : Progress := ⟨[CheatEntry.blank], none⟩

variable (s : Progress)

def numOpcodes (entry : Nat) : Nat := (s.out.getD entry .blank).definition.numOpcodes

/-- The name is copied over the one that is there, and the buffer is terminated. -/
def setName (entry : Nat) (name : List Char) : Progress :=
  { s with
    out := s.out.modify entry fun e =>
      { e with definition.readableName :=
        (name ++ e.definition.readableName.drop name.length).set (readableNameSize - 1) '\x00' } }

def addOpcode (entry : Nat) (value : Dword) : Progress :=
  { s with
    out := s.out.modify entry fun e =>
      { e with definition.opcodes := e.definition.opcodes ++ [value] } }

/-- The first steps of the branches of the two headers. -/
def openMaster : Progress := { s with currentEntry := some 0 }

def openEntry : Progress := ⟨s.out ++ [.blank], some s.out.length⟩

/-- Whether another word may come. -/
def mayAdd : Bool :=
  match s.currentEntry with
  | none => false
  | some entry => decide (s.numOpcodes entry < maxOpcodes)

/-- The end of `Parse`. -/
def finish : List CheatEntry :=
  s.out.mapIdx fun i e => { e with enabled := decide (0 < e.definition.numOpcodes), cheatId := i }

end Progress

/-- The rest of the branch of a header at index `i`: how far `i` moves on, and the progress; there
is no result where `Parse` returns nothing. -/
def parseName (data : List Char) (i : Nat) (closer : Char) (s : Progress) :
    Except Fault (Option (Nat × Progress)) := do
  let (nameSize, name) ← extractName data (i + 1) closer
  if name = [] then return none
  return some (nameSize + 1, s.setName (s.currentEntry.getD 0) name)

/-- A round of the loop of `Parse` at index `i`, where the character `c` is. -/
def parseAt (data : List Char) (i : Nat) (c : Char) (s : Progress) :
    Except Fault (Option (Nat × Progress)) :=
  if isSpace c then .ok (some (0, s))
  else if c = '{' then
    if 0 < s.numOpcodes 0 then .ok none else parseName data i '}' s.openMaster
  else if c = '[' then parseName data i ']' s.openEntry
  else if isXDigit c then
    if !s.mayAdd then .ok none
    else
      let hex := (data.drop i).take 8
      if hex.all isXDigit then
        .ok (some (8, s.addOpcode (s.currentEntry.getD 0) (wordValue hex)))
      else .ok none
  else .ok none

/-- The loop of `Parse` from index `i` on. -/
def parseLoop (data : List Char) (i : Nat) (s : Progress) : Except Fault (Option Progress) :=
  match h : data[i]? with
  | none => .ok (some s)
  | some c => do
      match ← parseAt data i c s with
      | none => return none
      | some (moved, s) => parseLoop data (i + moved + 1) s
termination_by data.length - i
decreasing_by
  have := (List.getElem?_eq_some_iff.mp h).1
  omega

/-- `TextCheatParser::Parse`; no result stands for the empty one. -/
def parse (data : List Char) : Except Fault (Option (List CheatEntry)) := do
  return (← parseLoop data 0 .initial).map Progress.finish

/-! ## Reading in bounds -/

variable {data rest name : List Char} {i : Nat} {c closer : Char} {s : Progress}

theorem getElem?_of_drop (h : data.drop i = c :: rest) : data[i]? = some c := by
  rw [← head?_drop, h, head?_cons]

theorem drop_of_getElem? (h : data[i]? = some c) : data.drop i = c :: data.drop (i + 1) := by
  obtain ⟨hi, rfl⟩ := List.getElem?_eq_some_iff.mp h
  exact drop_eq_getElem_cons hi

theorem findMatch_of_mem (h : data.drop i = name ++ closer :: rest) (hname : closer ∉ name) :
    findMatch data closer i = .ok (some (i + name.length)) := by
  induction name generalizing i with
  | nil =>
    rw [findMatch, charAt, getElem?_of_drop h]
    exact if_pos rfl
  | cons c name ih =>
    obtain ⟨hc, hname⟩ := not_or.mp fun h => hname (mem_cons.mpr h)
    have hget := getElem?_of_drop h
    have htail : data.drop (i + 1) = name ++ closer :: rest :=
      (List.cons.inj ((drop_of_getElem? hget).symm.trans h)).2
    have hlt := (List.getElem?_eq_some_iff.mp hget).1
    rw [findMatch, charAt, hget]
    simp only [ok_bind, if_neg (Ne.symm hc), if_neg (Nat.not_lt.mpr hlt)]
    rw [ih htail hname, length_cons, Nat.add_assoc, Nat.add_comm 1]

/-- Where the bracket is missing, the text is read up to its end and behind it. -/
theorem findMatch_of_not_mem (h : closer ∉ data.drop i) :
    findMatch data closer i = .error .outOfBounds := by
  induction hrest : data.drop i generalizing i with
  | nil =>
    have hget : data[i]? = none := by rw [← head?_drop, hrest, head?_nil]
    rw [findMatch, charAt, hget]
    rfl
  | cons c rest ih =>
    rw [hrest] at h
    obtain ⟨hc, hclosed⟩ := not_or.mp fun hmem => h (mem_cons.mpr hmem)
    have hget := getElem?_of_drop hrest
    have htail : data.drop (i + 1) = rest :=
      (List.cons.inj ((drop_of_getElem? hget).symm.trans hrest)).2
    have hlt := (List.getElem?_eq_some_iff.mp hget).1
    rw [findMatch, charAt, hget]
    simp only [ok_bind, if_neg (Ne.symm hc), if_neg (Nat.not_lt.mpr hlt)]
    exact ih (htail ▸ hclosed) htail

/-- A header whose bracket is there: what `Parse` makes of it. -/
theorem parseName_of_mem (h : data.drop (i + 1) = name ++ closer :: rest) (hname : closer ∉ name) :
    parseName data i closer s = .ok (if name = [] then none else
      some (name.length + 1, s.setName (s.currentEntry.getD 0) (name.take readableNameSize))) := by
  have htake : (data.drop (i + 1)).take (min name.length readableNameSize) =
      name.take readableNameSize := by
    rw [h, Nat.min_comm, ← take_take, take_left]
  have hnil : name.take readableNameSize = [] ↔ name = [] := by
    simp [readableNameSize]
  rw [parseName, extractName, findMatch_of_mem h hname]
  simp only [ok_bind, pure_bind, Nat.add_sub_cancel_left, htake, hnil]
  split
  next => rfl
  next => rfl

theorem parseName_inBounds_iff :
    (∃ r, parseName data i closer s = .ok r) ↔ closer ∈ data.drop (i + 1) := by
  constructor
  · rintro ⟨r, hr⟩
    by_contra hmissing
    rw [parseName, extractName, findMatch_of_not_mem hmissing] at hr
    cases hr
  · intro hmem
    obtain ⟨name, rest, hsplit, hname⟩ := eq_append_cons_of_mem hmem
    exact ⟨_, parseName_of_mem hsplit hname⟩

/-- A header that the parser begins to read at an index is closed behind it. -/
def HeaderClosed (data : List Char) (i : Nat) (c : Char) (s : Progress) : Prop :=
  (c = '{' → s.numOpcodes 0 = 0 → '}' ∈ data.drop (i + 1)) ∧ (c = '[' → ']' ∈ data.drop (i + 1))

theorem parseAt_inBounds_iff : (∃ r, parseAt data i c s = .ok r) ↔ HeaderClosed data i c s := by
  rw [parseAt, HeaderClosed]
  by_cases hmaster : c = '{'
  · subst hmaster
    rw [if_neg (by decide), if_pos rfl]
    by_cases hopcodes : 0 < s.numOpcodes 0
    · rw [if_pos hopcodes]
      exact iff_of_true ⟨_, rfl⟩ ⟨fun _ hzero => absurd hzero hopcodes.ne', nofun⟩
    · rw [if_neg hopcodes, parseName_inBounds_iff]
      exact ⟨fun h => ⟨fun _ _ => h, nofun⟩,
        fun h => h.1 rfl (Nat.eq_zero_of_not_pos hopcodes)⟩
  · by_cases hentry : c = '['
    · subst hentry
      rw [if_neg (by decide), if_neg hmaster, if_pos rfl, parseName_inBounds_iff]
      exact ⟨fun h => ⟨nofun, fun _ => h⟩, fun h => h.2 rfl⟩
    · refine iff_of_true ?_ ⟨fun h => absurd h hmaster, fun h => absurd h hentry⟩
      rw [if_neg hmaster, if_neg hentry]
      -- what is no header is read without a search
      dsimp only
      split_ifs
      all_goals exact ⟨_, rfl⟩

/-- From one round to the next. -/
def Round (data : List Char) (x y : Nat × Progress) : Prop :=
  ∃ c moved, data[x.1]? = some c ∧ parseAt data x.1 c x.2 = .ok (some (moved, y.2)) ∧
    y.1 = x.1 + moved + 1

/-- The rounds that `Parse` comes to: their indices, and the progress before them. -/
def Reached (data : List Char) : Nat × Progress → Prop :=
  Relation.ReflTransGen (Round data) (0, .initial)

theorem parseLoop_inBounds_iff : (∃ r, parseLoop data i s = .ok r) ↔
    ∀ x, Relation.ReflTransGen (Round data) (i, s) x →
      ∀ c, data[x.1]? = some c → HeaderClosed data x.1 c x.2 := by
  fun_induction parseLoop data i s with
  | case1 i s hend =>
    refine iff_of_true ⟨_, rfl⟩ fun x hx c hc => ?_
    rcases hx.cases_head with rfl | ⟨y, ⟨c', moved, hc', -⟩, -⟩
    · exact absurd (hend.symm.trans hc) nofun
    · exact absurd (hend.symm.trans hc') nofun
  | case2 i s c hget ih =>
    have hclosed : (∃ r, parseAt data i c s = .ok r) ↔ HeaderClosed data i c s :=
      parseAt_inBounds_iff
    cases hround : parseAt data i c s with
    | error fault =>
      refine iff_of_false (fun ⟨r, hr⟩ => nomatch hr) fun h => ?_
      obtain ⟨r, hr⟩ := hclosed.mpr (h (i, s) .refl c hget)
      exact nomatch hround.symm.trans hr
    | ok result =>
      have hhead : HeaderClosed data i c s := hclosed.mp ⟨result, hround⟩
      -- the rounds reached are this one and those reached from the next
      have hrest (x) (hx : Relation.ReflTransGen (Round data) (i, s) x) (d)
          (hd : data[x.1]? = some d) : HeaderClosed data x.1 d x.2 ∨
          ∃ moved s', result = some (moved, s') ∧
            Relation.ReflTransGen (Round data) (i + moved + 1, s') x := by
        rcases hx.cases_head with rfl | ⟨⟨j, s'⟩, ⟨c', moved, hc', hstep, hj⟩, hx⟩
        · obtain rfl := Option.some.inj (hget.symm.trans hd)
          exact .inl hhead
        · obtain rfl := Option.some.inj (hget.symm.trans hc')
          obtain rfl := Except.ok.inj (hround.symm.trans hstep)
          exact .inr ⟨moved, s', rfl, (show j = i + moved + 1 from hj) ▸ hx⟩
      cases result with
      | none =>
        refine iff_of_true ⟨_, rfl⟩ fun x hx d hd => ?_
        exact (hrest x hx d hd).resolve_right fun ⟨_, _, h, _⟩ => nomatch h
      | some next =>
        obtain ⟨moved, s'⟩ := next
        refine (ih moved s').trans ⟨fun h x hx d hd => ?_, fun h x hx => ?_⟩
        · rcases hrest x hx d hd with hnow | ⟨_, _, heq, hlater⟩
          · exact hnow
          · cases heq
            exact h x hlater d hd
        · exact h x (.head ⟨c, moved, hget, hround, rfl⟩ hx)

/-- `Parse` reads in bounds exactly when every header that it comes to is closed. -/
theorem parse_inBounds_iff (data : List Char) : (∃ r, parse data = .ok r) ↔
    ∀ x, Reached data x → ∀ c, data[x.1]? = some c → HeaderClosed data x.1 c x.2 := by
  rw [Reached, ← parseLoop_inBounds_iff, parse]
  cases parseLoop data 0 .initial with
  | error fault => simp
  | ok r => simp

/-- A text that ends where a name is to begin. -/
theorem parse_unclosed : ¬∃ r, parse ['{'] = .ok r := by
  rintro ⟨r, hr⟩
  have hround : parseAt ['{'] 0 '{' .initial = .error .outOfBounds := by
    rw [parseAt, if_neg (by decide), if_pos rfl, if_neg (by decide), parseName, extractName,
      findMatch_of_not_mem (by decide)]
    rfl
  have hloop : parseLoop ['{'] 0 .initial = .error .outOfBounds := by
    rw [parseLoop]
    show (parseAt ['{'] 0 '{' .initial >>= _) = _
    rw [hround]
    rfl
  rw [parse, hloop] at hr
  cases hr

end TextCheatParser

end Sudachi.Memory
