import Mathlib.Data.List.GetD
import Mathlib.Order.Nat
import Sudachi.FileSys.PathComponents

/-!
# The loop of Normalize

The buffer holds the path with the names on the stack of the walk over the components, and a
separator more where the next one is to be skipped. `writeComponent_spec` is one component, and
`normalizeFrom_spec` the loop: it ends as the walk does.
-/

set_option autoImplicit false

namespace Sudachi.FileSys.PathNormalizer

open StringTraits List

/-- Each name on a stack, the last one first, with a separator in front of it. -/
def joined : List (List Char) → List Char
  | [] => []
  | name :: stack => joined stack ++ directorySeparator :: name

/-- Characters of the paths in question: no terminator and no alternate separator. -/
def Plain (path : List Char) : Prop :=
  nullTerminator ∉ path ∧ alternateDirectorySeparator ∉ path

theorem Plain.mono {path part : List Char} (hpath : Plain path) (hpart : part ⊆ path) : Plain part
    :=
  ⟨fun h => hpath.1 (hpart h), fun h => hpath.2 (hpart h)⟩

/-- The names that the loop keeps. -/
def Kept (allowAllCharacters : Bool) (stack : List (List Char)) : Prop :=
  ∀ name ∈ stack, IsName name ∧ directorySeparator ∉ name ∧ Plain name ∧
    Valid allowAllCharacters name

theorem rooted_append {names : List (List Char)} (hne : names ≠ []) (name : List Char) :
    rooted (names ++ [name]) = rooted names ++ directorySeparator :: name := by
  induction names with
  | nil => exact absurd rfl hne
  | cons first rest ih =>
    cases rest with
    | nil => simp [rooted, intercalate_cons_of_ne_nil]
    | cons second rest =>
      have htail := ih (cons_ne_nil second rest)
      simp only [rooted, cons_append, cons.injEq, true_and] at htail ⊢
      rw [intercalate_cons_cons, intercalate_cons_cons, htail]
      simp

theorem rooted_reverse {stack : List (List Char)} (hne : stack ≠ []) :
    rooted stack.reverse = joined stack := by
  induction stack with
  | nil => exact absurd rfl hne
  | cons name stack ih =>
    by_cases hstack : stack = []
    · subst hstack
      simp [rooted, joined]
    · rw [reverse_cons, rooted_append (by simpa using hstack), ih hstack, joined]

/-! ## The buffer -/

/-- A buffer begins with some characters, and the length is theirs. -/
structure Written (s : Progress) (written : List Char) : Prop where
  totalLen : s.totalLen = written.length
  take : s.dst.take written.length = written

section Buffer

variable {dst written : List Char}

theorem charAt_eq_of_take {k : Nat} (htake : dst.take written.length = written)
    (hk : k < written.length) : charAt dst k = charAt written k := by
  have hget : written[k]? = dst[k]? := by
    rw [← htake, getElem?_take_of_lt hk]
  rw [charAt, charAt, getD_eq_getElem?_getD, getD_eq_getElem?_getD, hget]

theorem take_set_succ (htake : dst.take written.length = written) (hroom : written.length <
    dst.length)
    (c : Char) : (dst.set written.length c).take (written ++ [c]).length = written ++ [c] := by
  rw [length_append, length_singleton, take_add_one, take_set_of_le (le_refl _), htake,
    getElem?_set_self hroom]
  rfl

theorem length_writeFrom (cs : List Char) (i : Nat) : (writeFrom dst i cs).length = dst.length := by
  induction cs generalizing dst i with
  | nil => rfl
  | cons c cs ih => rw [writeFrom, ih, length_set]

theorem take_writeFrom (cs : List Char) (htake : dst.take written.length = written)
    (hroom : written.length + cs.length ≤ dst.length) :
    (writeFrom dst written.length cs).take (written ++ cs).length = written ++ cs := by
  induction cs generalizing dst written with
  | nil => rw [append_nil, writeFrom, htake]
  | cons c cs ih =>
    rw [length_cons] at hroom
    have hset := take_set_succ htake (by omega) c
    have hlength : (written ++ [c]).length = written.length + 1 := by simp
    have hrest := ih hset (by rw [length_set]; omega)
    rw [hlength, append_assoc] at hrest
    exact hrest

end Buffer

/-! ## Components at the head of a path -/

section Head

variable {name rest : List Char}

theorem takeWhile_append (hname : directorySeparator ∉ name) (hrest : Ended rest) :
    (name ++ rest).takeWhile (fun c => c ≠ directorySeparator) = name ∧
      skipName (name ++ rest) = rest := by
  have hall : ∀ c ∈ name, decide (c ≠ directorySeparator) = true := by
    intro c hc
    exact decide_eq_true fun h => hname (h ▸ hc)
  rw [skipName, takeWhile_append_of_pos hall, dropWhile_append_of_pos hall]
  rcases hrest with rfl | ⟨rest, rfl⟩
  · simp
  · simp

/-- The rest of a path is the component at its head and what follows it. -/
theorem exists_head (path : List Char) :
    ∃ name, path = name ++ skipName path ∧ directorySeparator ∉ name ∧ Ended (skipName path) := by
  induction path with
  | nil => exact ⟨[], rfl, not_mem_nil, .inl rfl⟩
  | cons c path ih =>
    rw [skipName_cons]
    split
    · rename_i hc
      exact ⟨[], rfl, not_mem_nil, .inr ⟨path, by rw [hc]⟩⟩
    · rename_i hc
      obtain ⟨name, hpath, hname, hended⟩ := ih
      refine ⟨c :: name, by rw [cons_append, ← hpath], ?_, hended⟩
      rw [mem_cons]
      rintro (h | h)
      · exact hc h.symm
      · exact hname h

theorem charAt_zero_of_ended (hrest : Ended rest) :
    charAt rest 0 = nullTerminator ∨ charAt rest 0 = directorySeparator := by
  rcases hrest with rfl | ⟨rest, rfl⟩
  · exact .inl rfl
  · exact .inr rfl

section

variable (hname : directorySeparator ∉ name) (hrest : Ended rest) (hnul : nullTerminator ∉ name)
  (hne : name ≠ [])
include hname hrest hnul hne

theorem isCurrentDirectory_append : isCurrentDirectory (name ++ rest) = true ↔ name = [dot] := by
  have hend := charAt_zero_of_ended hrest
  match name with
  | [] => exact absurd rfl hne
  | [c] =>
    show (c = dot && (charAt rest 0 = nullTerminator || charAt rest 0 = directorySeparator)) =
      true ↔ _
    simp [hend]
  | c :: d :: more =>
    have hd : d ≠ nullTerminator ∧ d ≠ directorySeparator := by
      constructor
      · rintro rfl
        exact hnul (by simp)
      · rintro rfl
        exact hname (by simp)
    show (c = dot && (d = nullTerminator || d = directorySeparator)) = true ↔ _
    simp [hd]

theorem isParentDirectory_append : isParentDirectory (name ++ rest) = true ↔ name = [dot, dot] := by
  have hend := charAt_zero_of_ended hrest
  match name with
  | [] => exact absurd rfl hne
  | [c] =>
    have hdot : charAt rest 0 ≠ dot := by
      rcases hend with h | h
      · rw [h]
        decide
      · rw [h]
        decide
    show (c = dot && charAt rest 0 = dot && _) = true ↔ _
    simp [hdot]
  | [c, d] =>
    show (c = dot && d = dot &&
      (charAt rest 0 = nullTerminator || charAt rest 0 = directorySeparator)) = true ↔ _
    simp [hend]
  | c :: d :: e :: more =>
    have he : e ≠ nullTerminator ∧ e ≠ directorySeparator := by
      constructor
      · rintro rfl
        exact hnul (by simp)
      · rintro rfl
        exact hname (by simp)
    show (c = dot && d = dot && (e = nullTerminator || e = directorySeparator)) = true ↔ _
    simp [he]

end

end Head

/-! ## One component -/

section Component

variable {isWindowsPath allowAllCharacters : Bool} {maxOutSize : Nat} {s : Progress}
  {stack : List (List Char)}

theorem charAt_joined_append (name : List Char) (k : Nat) :
    charAt (joined stack ++ directorySeparator :: name) ((joined stack).length + 1 + k) =
      charAt name k := by
  rw [charAt, charAt, getD_append_right _ _ _ _ (by omega)]
  have hsub : (joined stack).length + 1 + k - (joined stack).length = k + 1 := by omega
  rw [hsub]
  rfl

theorem charAt_joined_length (name : List Char) :
    charAt (joined stack ++ directorySeparator :: name) (joined stack).length =
      directorySeparator := by
  rw [charAt, getD_append_right _ _ _ _ (le_refl _), Nat.sub_self]
  rfl

/-- The way back over a name ends at the separator in front of it. -/
theorem scanBack_eq {name dst : List Char} {k : Nat} (hname : directorySeparator ∉ name)
    (hk : k ≤ name.length) (hdst : ∀ j ≤ name.length, charAt dst ((joined stack).length + j) =
      charAt (joined stack ++ directorySeparator :: name) ((joined stack).length + j)) :
    scanBack dst ((joined stack).length + k) = some (joined stack).length := by
  induction k with
  | zero =>
    have hseparator : charAt dst (joined stack).length = directorySeparator := by
      have h := hdst 0 (Nat.zero_le _)
      rw [add_zero] at h
      rw [h, charAt_joined_length]
    rw [add_zero]
    cases hlength : (joined stack).length with
    | zero =>
      rw [hlength] at hseparator
      rw [scanBack, if_pos hseparator]
    | succ n =>
      rw [hlength] at hseparator
      rw [scanBack, if_pos hseparator]
  | succ k ih =>
    have hchar : charAt dst ((joined stack).length + (k + 1)) ≠ directorySeparator := by
      have hindex : (joined stack).length + (k + 1) = (joined stack).length + 1 + k := by omega
      rw [hdst (k + 1) hk, hindex, charAt_joined_append, charAt, getD_eq_getElem _ _ (by omega)]
      intro h
      exact hname (h ▸ getElem_mem _)
    rw [← add_assoc] at hchar ⊢
    rw [scanBack, if_neg hchar]
    split
    · rename_i hzero
      have hlength : (joined stack).length = 0 := by omega
      rw [hlength]
    · exact ih (by omega)

/-- The outcome of a part of the loop is that of the walk over the components. -/
def Follows (allowAllCharacters : Bool) (maxOutSize room : Nat) (outcome : Except Abort Progress) :
    Except Failure (List (List Char)) → Prop
  | .error e => ∃ out, outcome = .error (e, out)
  | .ok stack => ∃ s, outcome = .ok s ∧ s.dst.length = maxOutSize ∧ Kept allowAllCharacters stack ∧
      s.totalLen + room + 1 ≤ maxOutSize ∧
      Written s (joined stack ++ if s.skipNextSep then [directorySeparator] else [])

theorem charAt_zero_joined (name : List Char) :
    charAt (joined stack ++ directorySeparator :: name) 0 = directorySeparator := by
  induction stack generalizing name with
  | nil => rfl
  | cons top stack ih =>
    rw [joined, append_assoc]
    exact ih _

/-- A buffer that begins with some characters begins with the first of them. -/
theorem take_of_append {dst first second : List Char}
    (htake : dst.take (first ++ second).length = first ++ second) :
    dst.take first.length = first := by
  have h := congrArg (take first.length) htake
  rw [take_take, take_left, length_append, min_eq_left (Nat.le_add_right _ _)]
    at h
  exact h

/-- A parent directory takes the name on top of the stack away. -/
theorem writeParent_spec {room : Nat} (hlength : s.dst.length = maxOutSize)
    (hkept : Kept allowAllCharacters stack) (hroom : s.totalLen + room + 1 ≤ maxOutSize)
    (hskip : s.skipNextSep = false) (hwritten : Written s (joined stack ++ [directorySeparator])) :
    Follows allowAllCharacters maxOutSize room (writeParent isWindowsPath maxOutSize s)
      (match push isWindowsPath stack [dot, dot] with
        | some stack' => .ok stack'
        | none => .error .directoryUnobtainable) := by
  obtain ⟨htotal, htake⟩ := hwritten
  have htotalEq : s.totalLen = (joined stack).length + 1 := by
    rw [htotal, length_append, length_singleton]
  have hchar (k : Nat) (hk : k < (joined stack).length + 1) :
      charAt s.dst k = charAt (joined stack ++ [directorySeparator]) k :=
    charAt_eq_of_take htake (by rw [length_append, length_singleton]; exact hk)
  have hlast : 0 < s.totalLen ∧ charAt s.dst (s.totalLen - 1) = directorySeparator := by
    have hindex : s.totalLen - 1 = (joined stack).length := by omega
    rw [hindex, hchar _ (Nat.lt_succ_self _)]
    exact ⟨by omega, charAt_joined_length []⟩
  have hfirst : charAt s.dst 0 = directorySeparator := by
    rw [hchar 0 (Nat.succ_pos _)]
    exact charAt_zero_joined []
  have hbounds (n : Nat) (hn : n ≤ (joined stack).length) : n < maxOutSize := by omega
  rw [writeParent, if_neg (not_not.mpr hlast), if_neg (fun h => h.2 hfirst)]
  cases stack with
  | nil =>
    have hone : s.totalLen = 1 := htotalEq
    rw [if_pos hone]
    cases isWindowsPath with
    | false => exact ⟨_, rfl⟩
    | true =>
      have hzero : maxOutSize ≠ 0 := Nat.ne_zero_of_lt (hbounds 0 (Nat.zero_le _))
      refine ⟨{ s with totalLen := 0 }, ?_, hlength, hkept, ?_, ?_⟩
      · simp [hzero]
        rfl
      · show 0 + room + 1 ≤ maxOutSize
        omega
      · rw [hskip]
        exact ⟨rfl, rfl⟩
  | cons name stack =>
    obtain ⟨hname, hrest⟩ := forall_mem_cons.mp hkept
    have hjoined : (joined (name :: stack)).length = (joined stack).length + 1 + name.length := by
      rw [joined, length_append, length_cons]
      omega
    have hmany : s.totalLen ≠ 1 := by omega
    have hindex : s.totalLen - 2 = (joined stack).length + name.length := by omega
    have hback : scanBack s.dst (s.totalLen - 2) = some (joined stack).length := by
      rw [hindex]
      refine scanBack_eq hname.2.1 (le_refl _) ?_
      intro j hj
      rw [hchar _ (by omega), joined, charAt, charAt, getD_append]
      rw [length_append, length_cons]
      omega
    have hseparator : charAt s.dst (joined stack).length = directorySeparator := by
      rw [hchar _ (by omega), joined, append_assoc]
      exact charAt_joined_length _
    have hinside : ¬maxOutSize ≤ (joined stack).length := Nat.not_le.mpr (hbounds _ (by omega))
    rw [if_neg hmany, hback]
    refine ⟨{ s with totalLen := (joined stack).length }, ?_, hlength, hrest, ?_, ?_⟩
    · simp [hseparator, hinside]
      rfl
    · show (joined stack).length + room + 1 ≤ maxOutSize
      omega
    · rw [hskip]
      have htakeRest : s.dst.take (joined stack).length = joined stack := by
        rw [joined, append_assoc] at htake
        exact take_of_append htake
      refine ⟨?_, ?_⟩
      · simp
      · simpa using htakeRest

/-- Any name goes on top of the stack. -/
theorem writeName_spec {name : List Char} {room : Nat} (hlength : s.dst.length = maxOutSize)
    (hkept : Kept allowAllCharacters stack)
    (hname : IsName name ∧ directorySeparator ∉ name ∧ Plain name ∧ Valid allowAllCharacters name)
    (hroom : s.totalLen + (name.length + room) + 1 ≤ maxOutSize) (hskip : s.skipNextSep = false)
    (hwritten : Written s (joined stack ++ [directorySeparator])) :
    Follows allowAllCharacters maxOutSize room (writeName maxOutSize s name) (.ok (name :: stack))
        := by
  obtain ⟨htotal, htake⟩ := hwritten
  have hfits : ¬s.totalLen + name.length + 1 > maxOutSize := by omega
  have hresult : (joined stack ++ [directorySeparator]) ++ name = joined (name :: stack) := by
    rw [joined, append_assoc]
    rfl
  rw [writeName, if_neg hfits]
  refine ⟨_, rfl, (length_writeFrom name s.totalLen).trans hlength, ?_, ?_, ?_⟩
  · exact forall_mem_cons.mpr ⟨hname, hkept⟩
  · show s.totalLen + name.length + room + 1 ≤ maxOutSize
    omega
  · show Written _ (joined (name :: stack) ++ if s.skipNextSep then [directorySeparator] else [])
    have hwrite := take_writeFrom name htake (by omega)
    rw [← htotal, hresult] at hwrite
    rw [hskip]
    refine ⟨?_, ?_⟩
    · show s.totalLen + name.length = _
      rw [htotal, ← hresult, if_neg Bool.false_ne_true, append_nil]
      exact length_append.symm
    · simpa using hwrite

variable (isWindowsPath) in
/-- One component behind a separator that is written. -/
theorem writeComponent_spec {name rest : List Char} (hlength : s.dst.length = maxOutSize)
    (hkept : Kept allowAllCharacters stack) (hseparator : directorySeparator ∉ name)
    (hrest : Ended rest) (hplain : Plain name) (hne : name ≠ [])
    (hroom : s.totalLen + (name ++ rest).length + 1 ≤ maxOutSize) (hskip : s.skipNextSep = false)
    (hwritten : Written s (joined stack ++ [directorySeparator])) :
    Follows allowAllCharacters maxOutSize rest.length
      (writeComponent isWindowsPath allowAllCharacters maxOutSize s (name ++ rest))
      (step isWindowsPath allowAllCharacters stack name) := by
  have htake := (takeWhile_append hseparator hrest).1
  have hcurrent := isCurrentDirectory_append hseparator hrest hplain.1 hne
  have hparent := isParentDirectory_append hseparator hrest hplain.1 hne
  rw [length_append] at hroom
  rw [writeComponent, htake, step]
  by_cases hinvalid : allowAllCharacters = false ∧ name.any isInvalidCharacter = true
  · rw [if_pos hinvalid, if_pos hinvalid]
    exact ⟨_, rfl⟩
  · rw [if_neg hinvalid, if_neg hinvalid]
    by_cases hdot : name = [dot]
    · rw [if_pos (hcurrent.mpr hdot), if_pos (.inr hdot)]
      exact ⟨_, rfl, hlength, hkept, by show s.totalLen + rest.length + 1 ≤ _; omega,
        hwritten.totalLen, hwritten.take⟩
    · have hproper : ¬(name = [] ∨ name = [dot]) := not_or.mpr ⟨hne, hdot⟩
      rw [if_neg (fun h => hdot (hcurrent.mp h)), if_neg hproper]
      by_cases hdots : name = [dot, dot]
      · rw [if_pos (hparent.mpr hdots), hdots]
        exact writeParent_spec hlength hkept (by omega) hskip hwritten
      · have hpush : push isWindowsPath stack name = some (name :: stack) := if_neg hdots
        rw [if_neg (fun h => hdots (hparent.mp h)), hpush]
        have hname : IsName name := ⟨hne, hdot, hdots⟩
        exact writeName_spec hlength hkept ⟨hname, hseparator, hplain, valid_iff.mpr hinvalid⟩
          (by omega) hskip hwritten

/-- Whatever follows, the loop behind a component ends as the walk does. -/
theorem follows_bind {room : Nat} {outcome : Except Abort Progress}
    {walk : Except Failure (List (List Char))} {next : Progress → Except Abort Progress}
    {nextWalk : List (List Char) → Except Failure (List (List Char))}
    (hfollows : Follows allowAllCharacters maxOutSize room outcome walk)
    (hnext : ∀ (s : Progress) stack, s.dst.length = maxOutSize → Kept allowAllCharacters stack →
      s.totalLen + room + 1 ≤ maxOutSize →
      Written s (joined stack ++ if s.skipNextSep then [directorySeparator] else []) →
      Follows allowAllCharacters maxOutSize 0 (next s) (nextWalk stack)) :
    Follows allowAllCharacters maxOutSize 0 (outcome >>= next) (walk >>= nextWalk) := by
  cases walk with
  | error e =>
    obtain ⟨out, rfl⟩ := hfollows
    exact ⟨out, rfl⟩
  | ok stack =>
    obtain ⟨s, rfl, hlength, hkept, hroom, hwritten⟩ := hfollows
    exact hnext s stack hlength hkept hroom hwritten

/-- The separator in front of a component, unless it is there already. -/
theorem writeSeparator_spec (hlength : s.dst.length = maxOutSize)
    (hroom : s.totalLen + 1 < maxOutSize)
    (hwritten : Written s (joined stack ++ if s.skipNextSep then [directorySeparator] else [])) :
    ∃ s', writeSeparator maxOutSize s = .ok s' ∧ s'.dst.length = maxOutSize ∧
      s'.totalLen ≤ s.totalLen + 1 ∧ s'.skipNextSep = false ∧
      Written s' (joined stack ++ [directorySeparator]) := by
  obtain ⟨htotal, htake⟩ := hwritten
  cases hskip : s.skipNextSep with
  | true =>
    rw [hskip] at htotal htake
    exact ⟨{ s with skipNextSep := false }, by rw [writeSeparator, if_pos hskip], hlength,
      Nat.le_succ _, rfl, htotal, htake⟩
  | false =>
    rw [hskip, if_neg Bool.false_ne_true, append_nil] at htotal htake
    have hset := take_set_succ htake (by omega) directorySeparator
    rw [← htotal] at hset
    refine ⟨_, by rw [writeSeparator, if_neg (by simp [hskip]), if_neg (by omega)], ?_, ?_, rfl,
      ?_, ?_⟩
    · rw [length_set, hlength]
    · exact le_refl _
    · show s.totalLen + 1 = _
      rw [length_append, length_singleton, htotal]
    · exact hset

end Component

/-! ## The loop -/

section Loop

variable {isWindowsPath allowAllCharacters : Bool} {maxOutSize : Nat}

theorem length_skipSeparators_lt {rest : List Char} :
    (skipSeparators (directorySeparator :: rest)).length < (directorySeparator :: rest).length := by
  have hrest : (skipSeparators rest).length ≤ rest.length := (dropWhile_suffix _).length_le
  rw [skipSeparators_cons, if_pos rfl, length_cons]
  omega

/-- Without a separator at its head, a path that is not empty begins with a component. -/
theorem exists_name {path : List Char} (hne : path ≠ [])
    (hhead : ∀ rest, path ≠ directorySeparator :: rest) :
    ∃ name, path = name ++ skipName path ∧ directorySeparator ∉ name ∧ Ended (skipName path) ∧
      name ≠ [] := by
  obtain ⟨name, hpath, hname, hended⟩ := exists_head path
  refine ⟨name, hpath, hname, hended, ?_⟩
  rintro rfl
  rw [nil_append] at hpath
  rcases hended with h | ⟨rest, h⟩
  · exact hne (hpath.trans h)
  · exact hhead rest (hpath.trans h)

theorem skipSeparators_ne_separator (path rest : List Char) :
    skipSeparators path ≠ directorySeparator :: rest := by
  induction path with
  | nil => exact (cons_ne_nil _ _).symm
  | cons c path ih =>
    rw [skipSeparators_cons]
    split
    · exact ih
    · rename_i hc
      intro h
      cases h
      exact hc rfl

/-- The loop from behind a component on ends as the walk over the components does. -/
theorem normalizeFrom_spec {path : List Char} {s : Progress} {stack : List (List Char)}
    (hpath : Ended path) (hplain : Plain path) (hlength : s.dst.length = maxOutSize)
    (hkept : Kept allowAllCharacters stack) (hroom : s.totalLen + path.length + 1 ≤ maxOutSize)
    (hwritten : Written s (joined stack ++ if s.skipNextSep then [directorySeparator] else [])) :
    Follows allowAllCharacters maxOutSize 0
      (normalizeFrom isWindowsPath allowAllCharacters maxOutSize s path)
      (process isWindowsPath allowAllCharacters stack path) := by
  induction hn : path.length using Nat.strong_induction_on generalizing path s stack with
  | _ n ih =>
    subst hn
    rcases hpath with rfl | ⟨rest, rfl⟩
    · rw [process_nil, normalizeFrom]
      exact ⟨s, rfl, hlength, hkept, by simpa using hroom, hwritten⟩
    · have hshorter : (skipSeparators (directorySeparator :: rest)).length <
          (directorySeparator :: rest).length := length_skipSeparators_lt
      have hprocess : process isWindowsPath allowAllCharacters stack
            (skipSeparators (directorySeparator :: rest)) =
          process isWindowsPath allowAllCharacters stack (directorySeparator :: rest) :=
        process_skipSeparators (directorySeparator :: rest)
      have hsubset : skipSeparators (directorySeparator :: rest) ⊆ directorySeparator :: rest :=
        (dropWhile_suffix _).subset
      rw [normalizeFrom, ← hprocess]
      by_cases hend : skipSeparators (directorySeparator :: rest) = []
      · simp only [hend, and_self, if_true, process_nil]
        exact ⟨s, rfl, hlength, hkept, by omega, hwritten⟩
      · obtain ⟨name, hname, hseparator, hended, hne⟩ := exists_name hend
          (skipSeparators_ne_separator (directorySeparator :: rest))
        generalize skipSeparators (directorySeparator :: rest) = next at *
        have hpositive : 0 < next.length := length_pos_of_ne_nil hend
        obtain ⟨s', hwrite, hlength', htotal', hskip', hwritten'⟩ :=
          writeSeparator_spec hlength (by omega) hwritten
        have hplainNext : Plain next := hplain.mono hsubset
        have hplainName : Plain name := hplainNext.mono fun c hc => hname ▸ mem_append_left _ hc
        have hcomponent := writeComponent_spec isWindowsPath hlength' hkept
          hseparator hended hplainName hne (by rw [← hname]; omega) hskip' hwritten'
        have hshort : (skipName next).length < (directorySeparator :: rest).length := by
          have hle : (skipName next).length ≤ next.length := (dropWhile_suffix _).length_le
          omega
        simp only [hend, and_false, if_false, if_true, hwrite]
        rw [← hname] at hcomponent
        rw [hname, process_append hseparator hended, ← hname]
        show Follows allowAllCharacters maxOutSize 0 (do
          let s ← writeComponent isWindowsPath allowAllCharacters maxOutSize s' next
          normalizeFrom isWindowsPath allowAllCharacters maxOutSize s (skipName next)) _
        refine follows_bind hcomponent ?_
        intro s'' stack'' hlength'' hkept'' hroom'' hwritten''
        exact ih _ hshort hended (hplainNext.mono (dropWhile_suffix _).subset) hlength''
          hkept''
          hroom'' hwritten'' rfl

end Loop

end Sudachi.FileSys.PathNormalizer
