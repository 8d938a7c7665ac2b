import Sudachi.Memory.TextCheatParser

/-!
# The grammar of cheat files

Which texts `TextCheatParser::Parse` accepts, and what it makes of them: headers in brackets,
hexadecimal words behind a header, and whitespace. A word has eight digits, and fewer only at the
end of the text. The loop moves on by one character more than a word has; what the theorem says is
about texts in which that character is whitespace (`parse_eq_some_iff`).
-/

set_option autoImplicit false

namespace Sudachi.Memory.TextCheatParser

open Sudachi.Foundations List

/-- A word ends with the text or in front of whitespace. -/
def Separated (rest : List Char) : Prop := ∀ c, rest.head? = some c → isSpace c = true

def IsWord (digits rest : List Char) : Prop :=
  digits ≠ [] ∧ digits.all isXDigit = true ∧
    (digits.length = 8 ∨ digits.length < 8 ∧ rest = []) ∧ Separated rest

/-- The words of a grammar in which all of them may be short. -/
def IsShortWord (digits rest : List Char) : Prop :=
  digits ≠ [] ∧ digits.all isXDigit = true ∧ digits.length ≤ 8 ∧ Separated rest

namespace Progress

variable (s : Progress)

def named (name : List Char) : Progress :=
  s.setName (s.currentEntry.getD 0) (name.take readableNameSize)

def written (digits : List Char) : Progress :=
  s.addOpcode (s.currentEntry.getD 0) (wordValue digits)

end Progress

/-- A text, and what the parts of it come to from one progress to another. Every character of it
belongs to a part. -/
inductive Parses (Word : List Char → List Char → Prop) : List Char → Progress → Progress → Prop
  | done {s} : Parses Word [] s s
  | space {c rest s t} : isSpace c = true → Parses Word rest s t → Parses Word (c :: rest) s t
  | master {name rest s t} : name ≠ [] → '}' ∉ name → s.numOpcodes 0 = 0 →
      Parses Word rest (s.openMaster.named name) t →
      Parses Word ('{' :: (name ++ '}' :: rest)) s t
  | entry {name rest s t} : name ≠ [] → ']' ∉ name → Parses Word rest (s.openEntry.named name) t →
      Parses Word ('[' :: (name ++ ']' :: rest)) s t
  | word {digits rest s t} : Word digits rest → s.mayAdd = true →
      Parses Word rest (s.written digits) t → Parses Word (digits ++ rest) s t

variable {data rest name digits text : List Char} {i moved : Nat} {c : Char} {s s' t : Progress}

theorem parseLoop_of_none (h : data[i]? = none) : parseLoop data i s = .ok (some s) := by
  rw [parseLoop]
  split
  next => rfl
  next c hc => exact absurd (h.symm.trans hc) nofun

theorem parseLoop_of_next (h : data[i]? = some c)
    (hround : parseAt data i c s = .ok (some (moved, s'))) :
    parseLoop data i s = parseLoop data (i + moved + 1) s' := by
  rw [parseLoop]
  split
  next hend => exact absurd (h.symm.trans hend) nofun
  next d hd =>
    obtain rfl := Option.some.inj (h.symm.trans hd)
    rw [hround]
    rfl

theorem drop_header {closer : Char} (h : data.drop (i + 1) = name ++ closer :: rest) :
    data.drop (i + (name.length + 1) + 1) = rest := by
  have hdrop : data.drop (i + (name.length + 1) + 1) =
      (data.drop (i + 1)).drop (name.length + 1) := by
    rw [drop_drop]
    congr 1
    omega
  rw [hdrop, h]
  simp

theorem not_isXDigit_of_isSpace (h : isSpace c = true) : isXDigit c = false := by
  simp only [isSpace, isXDigit, digitValue, Bool.or_eq_true, Bool.and_eq_true, decide_eq_true_eq,
    Char.le_def, UInt32.le_iff_toNat_le] at h ⊢
  rcases h with rfl | ⟨-, hupper⟩
  · decide
  · have hlt : c.val.toNat ≤ 13 := hupper
    rw [if_neg, if_neg, if_neg, Option.isSome_none]
    · exact fun h => absurd (h.1.trans hlt) (by decide)
    · exact fun h => absurd (h.1.trans hlt) (by decide)
    · exact fun h => absurd (h.1.trans hlt) (by decide)

theorem parseAt_master (h : data.drop (i + 1) = name ++ '}' :: rest) (hne : name ≠ [])
    (hname : '}' ∉ name) (hopcodes : s.numOpcodes 0 = 0) :
    parseAt data i '{' s = .ok (some (name.length + 1, s.openMaster.named name)) := by
  rw [parseAt, if_neg (by decide), if_pos rfl, if_neg (Nat.not_lt.mpr hopcodes.le),
    parseName_of_mem h hname, if_neg hne]
  rfl

theorem parseAt_entry (h : data.drop (i + 1) = name ++ ']' :: rest) (hne : name ≠ [])
    (hname : ']' ∉ name) :
    parseAt data i '[' s = .ok (some (name.length + 1, s.openEntry.named name)) := by
  rw [parseAt, if_neg (by decide), if_neg (by decide), if_pos rfl, parseName_of_mem h hname,
    if_neg hne]
  rfl

/-- A round at a word. -/
theorem parseAt_word (hget : data[i]? = some c) (hall : ((data.drop i).take 8).all isXDigit = true)
    (hadd : s.mayAdd = true) :
    parseAt data i c s = .ok (some (8, s.written ((data.drop i).take 8))) := by
  have hc : isXDigit c = true := by
    rw [drop_of_getElem? hget] at hall
    exact all_eq_true.mp hall c mem_cons_self
  have hspace : ¬isSpace c = true := fun h =>
    Bool.false_ne_true ((not_isXDigit_of_isSpace h).symm.trans hc)
  have hbracket (d : Char) (hd : isXDigit d = false) : c ≠ d := fun h =>
    Bool.false_ne_true (hd.symm.trans (h ▸ hc))
  rw [parseAt, if_neg hspace, if_neg (hbracket '{' (by decide)), if_neg (hbracket '[' (by decide)),
    if_pos hc, if_neg (by simp [hadd])]
  exact if_pos hall

/-- A text of the grammar is parsed. -/
theorem parseLoop_of_parses (h : Parses IsWord text s t) (htext : data.drop i = text) :
    parseLoop data i s = .ok (some t) := by
  induction h generalizing i with
  | done =>
    refine parseLoop_of_none ?_
    rw [← head?_drop, htext, head?_nil]
  | space hspace _ ih =>
    have hget := getElem?_of_drop htext
    rw [parseLoop_of_next hget (if_pos hspace)]
    exact ih (cons.inj ((drop_of_getElem? hget).symm.trans htext)).2
  | master hne hname hopcodes _ ih =>
    have hget := getElem?_of_drop htext
    have htail := (cons.inj ((drop_of_getElem? hget).symm.trans htext)).2
    rw [parseLoop_of_next hget (parseAt_master htail hne hname hopcodes)]
    exact ih (drop_header htail)
  | entry hne hname _ ih =>
    have hget := getElem?_of_drop htext
    have htail := (cons.inj ((drop_of_getElem? hget).symm.trans htext)).2
    rw [parseLoop_of_next hget (parseAt_entry htail hne hname)]
    exact ih (drop_header htail)
  | @word digits rest s t hword hadd _ ih =>
    obtain ⟨hne, hall, hlength, hsep⟩ := hword
    obtain ⟨c, digits', rfl⟩ := exists_cons_of_ne_nil hne
    have hget := getElem?_of_drop htext
    have hle : (c :: digits').length ≤ 8 := hlength.elim le_of_eq fun h => h.1.le
    have htake : (data.drop i).take 8 = c :: digits' := by
      rw [htext]
      rcases hlength with hfull | ⟨_, rfl⟩
      · exact take_left' hfull
      · rw [append_nil, take_of_length_le hle]
    have hround := parseAt_word hget (htake ▸ hall) hadd
    rw [htake] at hround
    rw [parseLoop_of_next hget hround]
    cases rest with
    | nil =>
      have hend : data.drop (i + (8 + 1)) = [] := by
        rw [← drop_drop, htext, append_nil, drop_eq_nil_iff]
        exact hle.trans (Nat.le_succ 8)
      exact ih hend
    | cons d rest =>
      -- the character that the loop steps over is whitespace, which it would skip
      have hfull : (c :: digits').length = 8 := hlength.resolve_right fun h => nomatch h.2
      have hrest : data.drop (i + 8) = d :: rest := by
        rw [← drop_drop, htext, drop_left' hfull]
      have hskip := parseLoop_of_next (s := s.written (c :: digits')) (getElem?_of_drop hrest)
        (if_pos (hsep d rfl))
      exact hskip.symm.trans (ih hrest)

theorem parseName_cases {closer : Char} (h : parseName data i closer s = .ok (some (moved, s'))) :
    ∃ name rest, data.drop (i + 1) = name ++ closer :: rest ∧ name ≠ [] ∧ closer ∉ name ∧
      moved = name.length + 1 ∧ s' = s.named name := by
  obtain ⟨name, rest, hsplit, hname⟩ := eq_append_cons_of_mem (parseName_inBounds_iff.mp ⟨_, h⟩)
  rw [parseName_of_mem hsplit hname] at h
  by_cases hne : name = []
  · rw [if_pos hne] at h
    cases h
  · rw [if_neg hne] at h
    cases h
    exact ⟨name, rest, hsplit, hne, hname, rfl, rfl⟩

/-- The ways through a round. -/
theorem parseAt_cases (h : parseAt data i c s = .ok (some (moved, s'))) :
    (isSpace c = true ∧ moved = 0 ∧ s' = s) ∨
      (∃ name rest, c = '{' ∧ data.drop (i + 1) = name ++ '}' :: rest ∧ name ≠ [] ∧ '}' ∉ name ∧
        s.numOpcodes 0 = 0 ∧ moved = name.length + 1 ∧ s' = s.openMaster.named name) ∨
      (∃ name rest, c = '[' ∧ data.drop (i + 1) = name ++ ']' :: rest ∧ name ≠ [] ∧ ']' ∉ name ∧
        moved = name.length + 1 ∧ s' = s.openEntry.named name) ∨
      (((data.drop i).take 8).all isXDigit = true ∧ s.mayAdd = true ∧ moved = 8 ∧
        s' = s.written ((data.drop i).take 8)) := by
  by_cases hspace : isSpace c = true
  · rw [parseAt, if_pos hspace] at h
    cases h
    exact .inl ⟨hspace, rfl, rfl⟩
  · rw [parseAt, if_neg hspace] at h
    by_cases hmaster : c = '{'
    · rw [if_pos hmaster] at h
      split at h
      next => cases h
      next hopcodes =>
        obtain ⟨name, rest, hsplit, hne, hname, hmoved, hs⟩ := parseName_cases h
        exact .inr (.inl ⟨name, rest, hmaster, hsplit, hne, hname,
          Nat.eq_zero_of_not_pos hopcodes, hmoved, hs⟩)
    · rw [if_neg hmaster] at h
      by_cases hentry : c = '['
      · rw [if_pos hentry] at h
        obtain ⟨name, rest, hsplit, hne, hname, hmoved, hs⟩ := parseName_cases h
        exact .inr (.inr (.inl ⟨name, rest, hentry, hsplit, hne, hname, hmoved, hs⟩))
      · rw [if_neg hentry] at h
        dsimp only at h
        split_ifs at h with hdigit hadd hall
        all_goals cases h
        exact .inr (.inr (.inr ⟨hall, by simpa using hadd, rfl, rfl⟩))

/-- Each word that `Parse` comes to is followed by whitespace, or the text ends with it. -/
def WordsSeparated (data : List Char) (start : Nat × Progress) : Prop :=
  ∀ x, Relation.ReflTransGen (Round data) start x → ((data.drop x.1).take 8).all isXDigit = true →
    Separated (data.drop (x.1 + 8))

theorem parses_of_parseLoop (hsep : WordsSeparated data (i, s))
    (h : parseLoop data i s = .ok (some t)) : Parses IsWord (data.drop i) s t := by
  fun_induction parseLoop data i s with
  | case1 i s hend =>
    cases h
    rw [drop_eq_nil_of_le (getElem?_eq_none_iff.mp hend)]
    exact .done
  | case2 i s c hget ih =>
    obtain ⟨_ | ⟨moved, s'⟩, hround, h⟩ := bind_eq_ok.mp h
    case none => cases h
    case some =>
        have hnext := ih moved s' (fun x hx => hsep x (.head ⟨c, moved, hget, hround, rfl⟩ hx)) h
        have hdrop := drop_of_getElem? hget
        rcases parseAt_cases hround with ⟨hspace, rfl, rfl⟩ |
          ⟨name, rest, rfl, hsplit, hne, hname, hopcodes, rfl, rfl⟩ |
          ⟨name, rest, rfl, hsplit, hne, hname, rfl, rfl⟩ | ⟨hall, hadd, rfl, rfl⟩
        · rw [hdrop]
          exact .space hspace hnext
        · rw [drop_header hsplit] at hnext
          rw [hdrop, hsplit]
          exact .master hne hname hopcodes hnext
        · rw [drop_header hsplit] at hnext
          rw [hdrop, hsplit]
          exact .entry hne hname hnext
        · have hseparated := hsep (i, s) .refl hall
          have hne : (data.drop i).take 8 ≠ [] := by
            rw [hdrop]
            exact cons_ne_nil _ _
          have hlength : ((data.drop i).take 8).length = 8 ∨
              ((data.drop i).take 8).length < 8 ∧ data.drop (i + 8) = [] := by
            rw [length_take, drop_eq_nil_iff, length_drop]
            omega
          rw [← take_append_drop 8 (data.drop i), drop_drop]
          refine .word ⟨hne, hall, hlength, hseparated⟩ hadd ?_
          cases hrest : data.drop (i + 8) with
          | nil =>
            have hend : data.drop (i + 8 + 1) = [] := by
              rw [← drop_drop, hrest, drop_nil]
            rwa [hend] at hnext
          | cons d rest =>
            have htail : data.drop (i + 8 + 1) = rest :=
              (cons.inj ((drop_of_getElem? (getElem?_of_drop hrest)).symm.trans hrest)).2
            rw [htail] at hnext
            exact .space (hseparated d (by rw [hrest]; rfl)) hnext

end Sudachi.Memory.TextCheatParser
