import Mathlib.Data.List.AList
import Mathlib.Data.List.TakeWhile

/-!
# Param packages

`ParamPackage` of `param_package.cpp`, with `SplitString` and `ReplaceAll` of `string_util.cpp`. A
string is the list of its characters, and the map of a package is an `AList`, whose order stands for
that in which the iteration of the hash map comes upon the entries.

A pair whose value is empty ends with the separator, behind which `SplitString` gives no further
piece, so that the parser takes it for invalid: `lookup_parse_serialize` says that just those
entries are lost.
-/

set_option autoImplicit false

namespace Sudachi.Common

open List

abbrev Str := List Char

/-! ## Strings -/

/-- `std::getline`: what it reads, and the rest of the stream, if it reads at all. -/
def getline (delim : Char) (stream : Str) : Option (Str × Str) :=
  if stream = [] then none
  else
    let line := stream.takeWhile fun c => c ≠ delim
    some (line, stream.drop (line.length + 1))

theorem length_lt_of_getline {delim : Char} {stream line rest : Str}
    (h : getline delim stream = some (line, rest)) : rest.length < stream.length := by
  rw [getline] at h
  split at h
  · cases h
  · rename_i hne
    cases h
    have hpos := length_pos_of_ne_nil hne
    rw [length_drop]
    omega

def splitString (delim : Char) (stream : Str) : List Str :=
  match h : getline delim stream with
  | none => []
  | some (line, rest) => line :: splitString delim rest
termination_by stream.length
decreasing_by exact length_lt_of_getline h

/-- The loop of `ReplaceAll` from a position on. -/
def replaceFrom (src dest : Str) : Str → Str
  | [] => []
  | c :: rest =>
    if src ≠ [] ∧ src.isPrefixOf (c :: rest) then
      dest ++ replaceFrom src dest ((c :: rest).drop src.length)
    else c :: replaceFrom src dest rest
termination_by s => s.length
decreasing_by
  · rename_i h
    have hpos := length_pos_of_ne_nil h.1
    rw [length_drop, length_cons]
    omega
  · exact Nat.lt_succ_self _

def replaceAll (result src dest : Str) : Str :=
  if src = dest then result else replaceFrom src dest result

/-! ## Packages -/

namespace ParamPackage

def keyValueSeparator : Char := ':'
def paramSeparator : Char := ','
def escapeCharacter : Char := '$'
def keyValueSeparatorEscape : Str := ['$', '0']
def paramSeparatorEscape : Str := ['$', '1']
def escapeCharacterEscape : Str := ['$', '2']
def emptyPlaceholder : Str := ['[', 'e', 'm', 'p', 't', 'y', ']']

/-- The replacements for a part in `Serialize`. -/
def escapePart (part : Str) : Str :=
  let part := replaceAll part [escapeCharacter] escapeCharacterEscape
  let part := replaceAll part [paramSeparator] paramSeparatorEscape
  replaceAll part [keyValueSeparator] keyValueSeparatorEscape

/-- The replacements for a part in the constructor. -/
def unescapePart (part : Str) : Str :=
  let part := replaceAll part keyValueSeparatorEscape [keyValueSeparator]
  let part := replaceAll part paramSeparatorEscape [paramSeparator]
  replaceAll part escapeCharacterEscape [escapeCharacter]

end ParamPackage

open ParamPackage

structure ParamPackage where
  data : AList (fun _ : Str => Str)

namespace ParamPackage

/-- `Set`, by `insert_or_assign`. -/
def set (p : ParamPackage) (key value : Str) : ParamPackage where
  data := p.data.insert key value

/-- A pair in the constructor. -/
def setPair (p : ParamPackage) (pair : Str) : ParamPackage :=
  match splitString keyValueSeparator pair with
  | [key, value] => p.set (unescapePart key) (unescapePart value)
  | _ => p

/-- The constructor from a string. -/
def parse (serialized : Str) : ParamPackage :=
  if serialized = emptyPlaceholder then ⟨∅⟩
  else (splitString paramSeparator serialized).foldl setPair ⟨∅⟩

/-- What `Serialize` appends for an entry. -/
def serializePair (key value : Str) : Str :=
  escapePart key ++ [keyValueSeparator] ++ escapePart value ++ [paramSeparator]

def serialize (p : ParamPackage) : Str :=
  if p.data.entries = [] then emptyPlaceholder
  else (p.data.entries.foldl (fun result e => result ++ serializePair e.1 e.2) []).dropLast

/-! ## Escapes -/

/-- The characters that a character becomes. -/
def escapeChar (c : Char) : Str :=
  if c = escapeCharacter then escapeCharacterEscape
  else if c = paramSeparator then paramSeparatorEscape
  else if c = keyValueSeparator then keyValueSeparatorEscape
  else [c]

variable {entries : List (Str × Str)} {p : ParamPackage} {key : Str}

/-- The three characters with an escape, and the others. -/
theorem char_cases {P : Char → Prop} (hescape : P escapeCharacter) (hparam : P paramSeparator)
    (hkey : P keyValueSeparator)
    (hother : ∀ c, c ≠ escapeCharacter → c ≠ paramSeparator → c ≠ keyValueSeparator → P c)
    (c : Char) : P c := by
  by_cases hc : c = escapeCharacter
  · exact hc ▸ hescape
  · by_cases hc' : c = paramSeparator
    · exact hc' ▸ hparam
    · by_cases hc'' : c = keyValueSeparator
      · exact hc'' ▸ hkey
      · exact hother c hc hc' hc''

theorem escapeChar_other {c : Char} (hescape : c ≠ escapeCharacter) (hparam : c ≠ paramSeparator)
    (hkey : c ≠ keyValueSeparator) : escapeChar c = [c] := by
  rw [escapeChar, if_neg hescape, if_neg hparam, if_neg hkey]

theorem replaceAll_char {a : Char} {dest : Str} (hdest : [a] ≠ dest) (s : Str) :
    replaceAll s [a] dest = s.flatMap fun c => if c = a then dest else [c] := by
  rw [replaceAll, if_neg hdest]
  induction s with
  | nil => rw [replaceFrom, flatMap_nil]
  | cons c rest ih =>
    rw [replaceFrom, flatMap_cons]
    by_cases hc : c = a
    · subst hc
      simp [ih]
    · have hne : a ≠ c := fun h => hc h.symm
      simp [hc, hne, ih]

theorem escapePart_eq (part : Str) : escapePart part = part.flatMap escapeChar := by
  rw [escapePart, replaceAll_char (by decide), replaceAll_char (by decide),
    replaceAll_char (by decide), flatMap_assoc, flatMap_assoc]
  refine congrArg (fun f => List.flatMap f part) (funext ?_)
  refine char_cases ?_ ?_ ?_ ?_
  · decide
  · decide
  · decide
  · intro c hescape hparam hkey
    simp [escapeChar, hescape, hparam, hkey]

/-- Each character stands for itself or is written as the escape character with another one. -/
def Escapes (f : Char → Str) : Prop :=
  ∀ c, (∃ d, d ≠ escapeCharacter ∧ f c = [escapeCharacter, d]) ∨
    ∃ d, d ≠ escapeCharacter ∧ f c = [d]

/-- A replacement of one escape in a text of escapes replaces it in each of them. -/
theorem replaceAll_escape {f : Char → Str} (hf : Escapes f) {d r : Char} (s : Str) :
    replaceAll (s.flatMap f) [escapeCharacter, d] [r] =
      s.flatMap fun c => if f c = [escapeCharacter, d] then [r] else f c := by
  rw [replaceAll, if_neg (by simp)]
  induction s with
  | nil => rw [flatMap_nil, flatMap_nil, replaceFrom]
  | cons c rest ih =>
    rw [flatMap_cons, flatMap_cons]
    rcases hf c with ⟨x, hx, hc⟩ | ⟨x, hx, hc⟩
    · rw [hc, cons_append, cons_append, nil_append, replaceFrom]
      by_cases hd : x = d
      · subst hd
        simp [ih]
      · have hne : d ≠ x := fun h => hd h.symm
        have hx' : escapeCharacter ≠ x := fun h => hx h.symm
        rw [replaceFrom]
        simp [hne, hd, hx', ih]
    · have hx' : escapeCharacter ≠ x := fun h => hx h.symm
      rw [hc, singleton_append, replaceFrom]
      simp [hx', ih]

theorem unescapePart_escapePart (part : Str) : unescapePart (escapePart part) = part := by
  let first (c : Char) : Str :=
    if escapeChar c = keyValueSeparatorEscape then [keyValueSeparator] else escapeChar c
  let second (c : Char) : Str :=
    if first c = paramSeparatorEscape then [paramSeparator] else first c
  let third (c : Char) : Str :=
    if second c = escapeCharacterEscape then [escapeCharacter] else second c
  have hother (c : Char) (hescape : c ≠ escapeCharacter) (hparam : c ≠ paramSeparator)
      (hkey : c ≠ keyValueSeparator) :
      escapeChar c = [c] ∧ first c = [c] ∧ second c = [c] ∧ third c = [c] := by
    have hchar := escapeChar_other hescape hparam hkey
    have hfirst : first c = [c] := by
      simp [first, hchar, keyValueSeparatorEscape]
    have hsecond : second c = [c] := by
      simp [second, hfirst, paramSeparatorEscape]
    exact ⟨hchar, hfirst, hsecond, by simp [third, hsecond, escapeCharacterEscape]⟩
  have hescapes : Escapes escapeChar :=
    char_cases (.inl ⟨'2', by decide, rfl⟩) (.inl ⟨'1', by decide, rfl⟩)
      (.inl ⟨'0', by decide, rfl⟩)
      fun c hescape hparam hkey => .inr ⟨c, hescape, (hother c hescape hparam hkey).1⟩
  have hfirst : Escapes first :=
    char_cases (.inl ⟨'2', by decide, by decide⟩) (.inl ⟨'1', by decide, by decide⟩)
      (.inr ⟨':', by decide, by decide⟩)
      fun c hescape hparam hkey => .inr ⟨c, hescape, (hother c hescape hparam hkey).2.1⟩
  have hsecond : Escapes second :=
    char_cases (.inl ⟨'2', by decide, by decide⟩) (.inr ⟨',', by decide, by decide⟩)
      (.inr ⟨':', by decide, by decide⟩)
      fun c hescape hparam hkey => .inr ⟨c, hescape, (hother c hescape hparam hkey).2.2.1⟩
  have hthird : third = fun c => [c] :=
    funext (char_cases (by decide) (by decide) (by decide)
      fun c hescape hparam hkey => (hother c hescape hparam hkey).2.2.2)
  rw [unescapePart, escapePart_eq]
  show replaceAll (replaceAll (replaceAll (part.flatMap escapeChar) ['$', '0'] [':'])
    ['$', '1'] [',']) ['$', '2'] ['$'] = part
  have hreplaceFirst : replaceAll (part.flatMap escapeChar) ['$', '0'] [':'] = part.flatMap first :=
    replaceAll_escape hescapes part
  have hreplaceSecond : replaceAll (part.flatMap first) ['$', '1'] [','] = part.flatMap second :=
    replaceAll_escape hfirst part
  have hreplaceThird : replaceAll (part.flatMap second) ['$', '2'] ['$'] = part.flatMap third :=
    replaceAll_escape hsecond part
  rw [hreplaceFirst, hreplaceSecond, hreplaceThird, hthird, flatMap_singleton']

/-! ## Pieces -/

theorem not_mem_escapePart {c : Char} (hc : c = paramSeparator ∨ c = keyValueSeparator)
    (part : Str) : c ∉ escapePart part := by
  rw [escapePart_eq, mem_flatMap]
  rintro ⟨d, -, hmem⟩
  refine char_cases (P := fun d => c ∉ escapeChar d) ?_ ?_ ?_ ?_ d hmem
  · rcases hc with rfl | rfl
    · decide
    · decide
  · rcases hc with rfl | rfl
    · decide
    · decide
  · rcases hc with rfl | rfl
    · decide
    · decide
  · intro d hescape hparam hkey
    rw [escapeChar_other hescape hparam hkey, mem_singleton]
    rcases hc with rfl | rfl
    · exact fun h => hparam h.symm
    · exact fun h => hkey h.symm

theorem escapePart_nil : escapePart [] = [] := by
  rw [escapePart_eq, flatMap_nil]

theorem escapePart_ne_nil {part : Str} (hne : part ≠ []) : escapePart part ≠ [] := by
  intro h
  have hpart := unescapePart_escapePart part
  rw [h, ← escapePart_nil, unescapePart_escapePart] at hpart
  exact hne hpart.symm

theorem splitString_nil (delim : Char) : splitString delim [] = [] := by
  rw [splitString]
  rfl

theorem splitString_append {delim : Char} {line : Str} (hline : delim ∉ line) (rest : Str) :
    splitString delim (line ++ delim :: rest) = line :: splitString delim rest := by
  have hall : ∀ c ∈ line, decide (c ≠ delim) = true := by
    intro c hc
    exact decide_eq_true fun h => hline (h ▸ hc)
  have htake : (line ++ delim :: rest).takeWhile (fun c => c ≠ delim) = line := by
    rw [takeWhile_append_of_pos hall, takeWhile_cons_of_neg (by simp), append_nil]
  have hdrop : (line ++ delim :: rest).drop (line.length + 1) = rest := by
    rw [append_cons]
    exact drop_left' (by simp)
  have hget : getline delim (line ++ delim :: rest) = some (line, rest) := by
    rw [getline, if_neg (by simp), htake]
    simp only [hdrop]
  rw [splitString.eq_def, hget]

theorem splitString_single {delim : Char} {line : Str} (hline : delim ∉ line) (hne : line ≠ []) :
    splitString delim line = [line] := by
  have hall : ∀ c ∈ line, decide (c ≠ delim) = true := by
    intro c hc
    exact decide_eq_true fun h => hline (h ▸ hc)
  have htake : line.takeWhile (fun c => c ≠ delim) = line := takeWhile_eq_self_iff.mpr hall
  have hdrop : line.drop (line.length + 1) = [] := drop_eq_nil_of_le (Nat.le_succ _)
  have hget : getline delim line = some (line, []) := by
    rw [getline, if_neg hne, htake]
    simp only [hdrop]
  rw [splitString.eq_def, hget]
  show line :: splitString delim [] = [line]
  rw [splitString_nil]

/-- The text of an entry, without the separator behind it. -/
def pairText (e : Str × Str) : Str := escapePart e.1 ++ keyValueSeparator :: escapePart e.2

theorem paramSeparator_not_mem_pairText (e : Str × Str) : paramSeparator ∉ pairText e := by
  rw [pairText, mem_append, mem_cons]
  rintro (h | h | h)
  · exact not_mem_escapePart (.inl rfl) _ h
  · exact absurd h (by decide)
  · exact not_mem_escapePart (.inl rfl) _ h

theorem splitString_pairText (e : Str × Str) : splitString keyValueSeparator (pairText e) =
      escapePart e.1 :: if e.2 = [] then [] else [escapePart e.2] := by
  rw [pairText, splitString_append (not_mem_escapePart (.inr rfl) _)]
  split
  · rename_i hvalue
    rw [hvalue, escapePart_nil, splitString_nil]
  · rename_i hvalue
    rw [splitString_single (not_mem_escapePart (.inr rfl) _) (escapePart_ne_nil hvalue)]

/-- A pair with an empty value is no pair for the parser. -/
theorem setPair_pairText (p : ParamPackage) (e : Str × Str) :
    p.setPair (pairText e) = if e.2 = [] then p else p.set e.1 e.2 := by
  rw [setPair, splitString_pairText]
  split
  · rename_i key value hpieces
    split at hpieces
    · cases hpieces
    · rename_i hvalue
      cases hpieces
      rw [if_neg hvalue, unescapePart_escapePart, unescapePart_escapePart]
  · rename_i hpieces
    split
    · rfl
    · rename_i hvalue
      rw [if_neg hvalue] at hpieces
      exact absurd rfl (hpieces _ _)

/-! ## Round trip -/

/-- The entries of a package, as pairs. -/
def pairs (p : ParamPackage) : List (Str × Str) := p.data.entries.map fun e => (e.1, e.2)

/-- The text of some entries, each with a separator behind it. -/
def pairTexts (entries : List (Str × Str)) : Str :=
  entries.flatMap fun e => pairText e ++ [paramSeparator]

theorem splitString_pairTexts :
    splitString paramSeparator (pairTexts entries).dropLast = entries.map pairText := by
  induction entries with
  | nil => rw [pairTexts, flatMap_nil, dropLast_nil, splitString_nil, map_nil]
  | cons e rest ih =>
    have hcons : pairTexts (e :: rest) = pairText e ++ paramSeparator :: pairTexts rest := by
      rw [pairTexts, flatMap_cons, append_assoc]
      rfl
    rw [hcons]
    by_cases hrest : rest = []
    · subst hrest
      have hne : pairText e ≠ [] := by simp [pairText]
      have hnil : pairTexts [] = [] := rfl
      rw [hnil, dropLast_concat, splitString_single (paramSeparator_not_mem_pairText e) hne]
      rfl
    · have hne : pairTexts rest ≠ [] := by
        obtain ⟨first, more, rfl⟩ := exists_cons_of_ne_nil hrest
        simp [pairTexts]
      rw [dropLast_append_of_ne_nil (cons_ne_nil _ _), dropLast_cons_of_ne_nil hne,
        splitString_append (paramSeparator_not_mem_pairText e), ih]
      rfl

theorem serialize_eq (hne : p.data.entries ≠ []) : p.serialize = (pairTexts p.pairs).dropLast := by
  have hfold : ∀ (entries : List (Sigma fun _ : Str => Str)) (text : Str),
      entries.foldl (fun result e => result ++ serializePair e.1 e.2) text =
        text ++ pairTexts (entries.map fun e => (e.1, e.2)) := by
    intro entries
    induction entries with
    | nil => exact fun text => (append_nil text).symm
    | cons e rest ih =>
      intro text
      rw [foldl_cons, ih]
      simp [pairTexts, serializePair, pairText]
  rw [serialize, if_neg hne, hfold, nil_append]
  rfl

theorem serialize_ne_emptyPlaceholder (hne : p.data.entries ≠ []) :
    p.serialize ≠ emptyPlaceholder := by
  intro h
  have hpieces := @splitString_pairTexts p.pairs
  have hempty : splitString paramSeparator emptyPlaceholder = [emptyPlaceholder] :=
    splitString_single (by decide) (by decide)
  rw [← serialize_eq hne, h, hempty] at hpieces
  have hmem : emptyPlaceholder ∈ p.pairs.map pairText := by
    rw [← hpieces]
    exact mem_singleton_self _
  obtain ⟨e, -, he⟩ := mem_map.mp hmem
  have hseparator : keyValueSeparator ∈ pairText e := by simp [pairText]
  rw [he] at hseparator
  exact absurd hseparator (by decide)

/-- An entry of the serialized package, as the parser takes it over. -/
def setEntry (p : ParamPackage) (e : Str × Str) : ParamPackage :=
  if e.2 = [] then p else p.set e.1 e.2

theorem parse_serialize (p : ParamPackage) : parse p.serialize = p.pairs.foldl setEntry ⟨∅⟩ := by
  by_cases hne : p.data.entries = []
  · have hempty : p.serialize = emptyPlaceholder := if_pos hne
    have hpairs : p.pairs = [] := by rw [pairs, hne, map_nil]
    rw [hempty, hpairs, parse, if_pos rfl, foldl_nil]
  · have hstep : ∀ (entries : List (Str × Str)) (q : ParamPackage),
        (entries.map pairText).foldl setPair q = entries.foldl setEntry q := by
      intro entries
      induction entries with
      | nil => exact fun q => rfl
      | cons e rest ih =>
        intro q
        rw [map_cons, foldl_cons, foldl_cons, ih, setPair_pairText, setEntry]
    rw [parse, if_neg (serialize_ne_emptyPlaceholder hne), serialize_eq hne, splitString_pairTexts,
      hstep]

theorem lookup_foldl_of_forall {q : ParamPackage}
    (hnone : ∀ value, (key, value) ∈ entries → value = []) :
    (entries.foldl setEntry q).data.lookup key = q.data.lookup key := by
  induction entries generalizing q with
  | nil => rfl
  | cons e rest ih =>
    rw [foldl_cons, ih fun value hvalue => hnone value (mem_cons_of_mem _ hvalue), setEntry]
    split
    · rfl
    · rename_i hvalue
      have hkey : key ≠ e.1 := by
        rintro rfl
        exact hvalue (hnone e.2 mem_cons_self)
      exact AList.lookup_insert_ne hkey

theorem lookup_foldl_of_mem {q : ParamPackage} {value : Str}
    (hnodup : (entries.map Prod.fst).Nodup) (hmem : (key, value) ∈ entries) (hvalue : value ≠ []) :
    (entries.foldl setEntry q).data.lookup key = some value := by
  induction entries generalizing q with
  | nil => exact absurd hmem not_mem_nil
  | cons e rest ih =>
    obtain ⟨hnot, hrest⟩ := nodup_cons.mp hnodup
    rw [foldl_cons]
    rcases mem_cons.mp hmem with rfl | hmem
    · have hnone : ∀ value', (key, value') ∈ rest → value' = [] := by
        intro value' hmem
        exact absurd (mem_map_of_mem hmem) hnot
      rw [lookup_foldl_of_forall hnone, setEntry, if_neg hvalue]
      exact AList.lookup_insert q.data
    · exact ih hrest hmem

theorem mem_pairs_iff {value : Str} : (key, value) ∈ p.pairs ↔ p.data.lookup key = some value := by
  rw [← Option.mem_def, AList.mem_lookup_iff, pairs, mem_map]
  constructor
  · rintro ⟨e, he, h⟩
    cases h
    exact he
  · intro h
    exact ⟨⟨key, value⟩, h, rfl⟩

theorem nodup_pairs (p : ParamPackage) : (p.pairs.map Prod.fst).Nodup := by
  have h := p.data.nodupKeys
  rw [pairs, map_map]
  exact h

/-- The serialized package keeps the entries whose value is not empty. -/
theorem lookup_parse_serialize (p : ParamPackage) (key : Str) :
    (parse p.serialize).data.lookup key = (p.data.lookup key).filter fun value => value ≠ [] := by
  rw [parse_serialize]
  cases hlookup : p.data.lookup key with
  | none =>
    have hnone : ∀ value, (key, value) ∈ p.pairs → value = [] := by
      intro value hmem
      rw [mem_pairs_iff, hlookup] at hmem
      cases hmem
    rw [lookup_foldl_of_forall hnone]
    rfl
  | some value =>
    by_cases hvalue : value = []
    · have hnone : ∀ value', (key, value') ∈ p.pairs → value' = [] := by
        intro value' hmem
        rw [mem_pairs_iff, hlookup] at hmem
        exact (Option.some.inj hmem).symm.trans hvalue
      rw [lookup_foldl_of_forall hnone, Option.filter_some_neg (by simpa using hvalue)]
      rfl
    · rw [lookup_foldl_of_mem (nodup_pairs p) (mem_pairs_iff.mpr hlookup) hvalue,
        Option.filter_some_pos (by simpa using hvalue)]

/-- A package comes back from its serialized text exactly when no value in it is empty. -/
theorem parse_serialize_eq_iff (p : ParamPackage) :
    (∀ key, (parse p.serialize).data.lookup key = p.data.lookup key) ↔
      ∀ key value, p.data.lookup key = some value → value ≠ [] := by
  constructor
  · intro h key value hlookup
    have hkey := h key
    rw [lookup_parse_serialize, hlookup] at hkey
    rintro rfl
    rw [Option.filter_some_neg (by simp)] at hkey
    cases hkey
  · intro h key
    rw [lookup_parse_serialize]
    cases hlookup : p.data.lookup key with
    | none => rfl
    | some value => exact Option.filter_some_pos (by simpa using h key value hlookup)

/-- One key with an empty value: the serialized text ends with the separator, and the pair is lost.
-/
theorem not_parse_serialize_empty :
    ¬∀ p : ParamPackage, p.data.entries ≠ [] →
      ∀ key, (parse p.serialize).data.lookup key = p.data.lookup key := by
  intro h
  have hkey := h ((⟨∅⟩ : ParamPackage).set ['a'] []) (by decide) ['a']
  have hlookup : ((⟨∅⟩ : ParamPackage).set ['a'] []).data.lookup ['a'] = some [] := by decide
  rw [lookup_parse_serialize, hlookup] at hkey
  exact absurd hkey (by decide)

end ParamPackage

end Sudachi.Common
