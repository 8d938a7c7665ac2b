import Sudachi.FileSys.PathNormalizer

/-!
# Components of paths

The meaning of the normalisation: a path is a list of components between its separators, and a walk
over them from the root keeps a stack (`process`). `rooted` is the path with given components, and
`isNormalized_iff` says which paths the automaton of `IsNormalized` accepts.
-/

set_option autoImplicit false

namespace Sudachi.FileSys.PathNormalizer

open StringTraits List

def components (path : List Char) : List (List Char) := path.splitOn directorySeparator

/-- The components of a normal path. -/
def IsName (name : List Char) : Prop := name ≠ [] ∧ name ≠ [dot] ∧ name ≠ [dot, dot]

instance (name : List Char) : Decidable (IsName name) :=
  inferInstanceAs (Decidable (name ≠ [] ∧ name ≠ [dot] ∧ name ≠ [dot, dot]))

/-- Characters without a forbidden one, where these are not allowed. -/
def Valid (allowAllCharacters : Bool) (name : List Char) : Prop :=
  allowAllCharacters = true ∨ ∀ c ∈ name, isInvalidCharacter c = false

/-- The path from the root with some components. -/
def rooted (names : List (List Char)) : List Char :=
  directorySeparator :: [directorySeparator].intercalate names

/-! ## The walk over the components -/

/-- One component on top of a stack: a parent directory takes the top away, which at the root is
allowed for windows paths only. -/
def push (isWindowsPath : Bool) (stack : List (List Char)) (name : List Char) :
    Option (List (List Char)) :=
  if name = [dot, dot] then
    match stack with
    | [] => if isWindowsPath then some [] else none
    | _ :: rest => some rest
  else some (name :: stack)

/-- The components that are neither empty nor a current directory. -/
def properComponents (path : List Char) : List (List Char) :=
  (components path).filter fun name => name ≠ [] ∧ name ≠ [dot]

/-- The components left of a path, the last one first, if no parent directory climbs above the
    root. -/
def resolve (isWindowsPath : Bool) (path : List Char) : Option (List (List Char)) :=
  (properComponents path).foldlM (push isWindowsPath) []

/-- One component of a walk, with the failures of `Normalize`. -/
def step (isWindowsPath allowAllCharacters : Bool) (stack : List (List Char)) (name : List Char) :
    Except Failure (List (List Char)) :=
  if allowAllCharacters = false ∧ name.any isInvalidCharacter then .error .invalidCharacter
  else if name = [] ∨ name = [dot] then .ok stack
  else
    match push isWindowsPath stack name with
    | some stack' => .ok stack'
    | none => .error .directoryUnobtainable

def process (isWindowsPath allowAllCharacters : Bool) (stack : List (List Char))
    (path : List Char) : Except Failure (List (List Char)) :=
  (components path).foldlM (step isWindowsPath allowAllCharacters) stack

section Process

variable {isWindowsPath allowAllCharacters : Bool} {stack : List (List Char)}

theorem valid_iff {name : List Char} : Valid allowAllCharacters name ↔
      ¬(allowAllCharacters = false ∧ name.any isInvalidCharacter = true) := by
  cases allowAllCharacters with
  | true => simp [Valid]
  | false => simp [Valid]

theorem step_nil : step isWindowsPath allowAllCharacters stack [] = .ok stack := by
  simp [step]

theorem step_of_isName {name : List Char} (hvalid : Valid allowAllCharacters name)
    (hname : IsName name) :
    step isWindowsPath allowAllCharacters stack name = .ok (name :: stack) := by
  obtain ⟨hnil, hdot, hparent⟩ := hname
  have hpush : push isWindowsPath stack name = some (name :: stack) := if_neg hparent
  rw [step, if_neg (valid_iff.mp hvalid), if_neg (by simp [hnil, hdot]), hpush]

theorem process_nil : process isWindowsPath allowAllCharacters stack [] = .ok stack := by
  have hsplit : components [] = [[]] := splitOn_nil directorySeparator
  rw [process, hsplit, foldlM_cons, step_nil]
  rfl

theorem process_separator (path : List Char) :
    process isWindowsPath allowAllCharacters stack (directorySeparator :: path) =
      process isWindowsPath allowAllCharacters stack path := by
  have hsplit : components (directorySeparator :: path) = [] :: components path :=
    splitOn_append_cons_self_of_not_mem (not_mem_nil) path
  rw [process, hsplit, foldlM_cons, step_nil]
  rfl

theorem process_skipSeparators (path : List Char) :
    process isWindowsPath allowAllCharacters stack (skipSeparators path) =
      process isWindowsPath allowAllCharacters stack path := by
  induction path with
  | nil => rfl
  | cons c rest ih =>
    rw [skipSeparators_cons]
    split
    · rename_i hc
      rw [ih, hc, process_separator]
    · rfl

/-- What follows a component: nothing, or a separator. -/
def Ended (path : List Char) : Prop := path = [] ∨ ∃ rest, path = directorySeparator :: rest

theorem process_append {name rest : List Char} (hname : directorySeparator ∉ name)
    (hrest : Ended rest) : process isWindowsPath allowAllCharacters stack (name ++ rest) = (do
      let stack' ← step isWindowsPath allowAllCharacters stack name
      process isWindowsPath allowAllCharacters stack' rest) := by
  rcases hrest with rfl | ⟨rest, rfl⟩
  · have hsplit : components (name ++ []) = [name] := by
      rw [append_nil]
      exact splitOn_eq_singleton hname
    rw [process, hsplit, foldlM_cons]
    simp only [foldlM_nil, process_nil]
    rfl
  · have hsplit : components (name ++ directorySeparator :: rest) = name :: components rest :=
      splitOn_append_cons_self_of_not_mem hname rest
    rw [process, hsplit, foldlM_cons]
    simp only [process_separator]
    rfl

theorem foldlM_step_of_names {names : List (List Char)}
    (hnames : ∀ name ∈ names, IsName name ∧ Valid allowAllCharacters name) :
    names.foldlM (step isWindowsPath allowAllCharacters) stack = .ok (names.reverse ++ stack) := by
  induction names generalizing stack with
  | nil => rfl
  | cons name rest ih =>
    obtain ⟨hname, hvalid⟩ := hnames name mem_cons_self
    have hrest : rest.foldlM (step isWindowsPath allowAllCharacters) (name :: stack) =
        .ok (rest.reverse ++ name :: stack) :=
      ih fun n hn => hnames n (mem_cons_of_mem _ hn)
    rw [foldlM_cons, step_of_isName hvalid hname]
    show rest.foldlM _ (name :: stack) = _
    rw [hrest, reverse_cons, append_assoc]
    rfl

/-- The walk succeeds when no component has a forbidden character and no parent directory climbs
above the root, and then leaves what `resolve` does. -/
theorem foldlM_step_eq_ok_iff {names : List (List Char)} {stack' : List (List Char)} :
    names.foldlM (step isWindowsPath allowAllCharacters) stack = .ok stack' ↔
      (∀ name ∈ names, Valid allowAllCharacters name) ∧
        (names.filter fun name => name ≠ [] ∧ name ≠ [dot]).foldlM (push isWindowsPath) stack =
          some stack' := by
  induction names generalizing stack with
  | nil =>
    show Except.ok stack = Except.ok stack' ↔ _ ∧ some stack = some stack'
    simp
  | cons name rest ih =>
    rw [foldlM_cons, forall_mem_cons, step]
    by_cases hvalid : Valid allowAllCharacters name
    · rw [if_neg (valid_iff.mp hvalid)]
      by_cases hskip : name = [] ∨ name = [dot]
      · have hfilter : ¬(name ≠ [] ∧ name ≠ [dot]) := by tauto
        rw [if_pos hskip, filter_cons_of_neg (by simpa using hfilter)]
        show rest.foldlM _ stack = _ ↔ _
        rw [ih]
        exact ⟨fun h => ⟨⟨hvalid, h.1⟩, h.2⟩, fun h => ⟨h.1.2, h.2⟩⟩
      · have hfilter : name ≠ [] ∧ name ≠ [dot] := by tauto
        rw [if_neg hskip, filter_cons_of_pos (by simpa using hfilter), foldlM_cons]
        cases hpush : push isWindowsPath stack name with
        | none =>
          constructor
          · intro h
            cases h
          · rintro ⟨-, h⟩
            cases h
        | some top =>
          show rest.foldlM _ top = _ ↔ _ ∧ _ = _
          rw [ih]
          exact ⟨fun h => ⟨⟨hvalid, h.1⟩, h.2⟩, fun h => ⟨h.1.2, h.2⟩⟩
    · rw [if_pos (not_not.mp fun h => hvalid (valid_iff.mpr h))]
      constructor
      · intro h
        cases h
      · rintro ⟨⟨h, -⟩, -⟩
        exact absurd h hvalid

theorem process_eq_ok_iff {path : List Char} {stack' : List (List Char)} :
    process isWindowsPath allowAllCharacters [] path = .ok stack' ↔
      (∀ name ∈ components path, Valid allowAllCharacters name) ∧
        resolve isWindowsPath path = some stack' :=
  foldlM_step_eq_ok_iff

/-- At the root of a windows path a parent directory does no harm. -/
theorem isSome_resolve_windows (path : List Char) : (resolve true path).isSome = true := by
  have hwalk : ∀ (names stack : List (List Char)), (names.foldlM (push true) stack).isSome =
    true := by
    intro names
    induction names with
    | nil => exact fun stack => rfl
    | cons name rest ih =>
      intro stack
      have hpush : ∃ stack', push true stack name = some stack' := by
        by_cases hparent : name = [dot, dot]
        · cases stack with
          | nil => exact ⟨[], if_pos hparent⟩
          | cons top stack => exact ⟨stack, if_pos hparent⟩
        · exact ⟨name :: stack, if_neg hparent⟩
      obtain ⟨stack', hpush⟩ := hpush
      rw [foldlM_cons, hpush]
      exact ih stack'
  exact hwalk _ _

end Process

/-! ## The automaton -/

/-- The state of the automaton behind the characters of a component read so far. -/
def stateOf (read : List Char) : PathState :=
  if read = [] then .separator
  else if read = [dot] then .currentDir
  else if read = [dot, dot] then .parentDir
  else .normal

section Automaton

variable {allowAllCharacters : Bool}
variable {read path rest : List Char} {c : Char} {len : Nat} {names : List (List Char)}
  {out : Option Nat}

theorem stateOf_eq_normal (hread : IsName read) : stateOf read = .normal := by
  obtain ⟨hnil, hdot, hparent⟩ := hread
  rw [stateOf, if_neg hnil, if_neg hdot, if_neg hparent]

theorem isName_append (hread : IsName read) (more : List Char) : IsName (read ++ more) := by
  obtain ⟨hnil, hdot, hparent⟩ := hread
  match read with
  | [] => exact absurd rfl hnil
  | [c] =>
    have hc : c ≠ dot := fun h => hdot (by rw [h])
    simp [IsName, hc]
  | [c, d] =>
    refine ⟨by simp, by simp, ?_⟩
    intro heq
    simp only [cons_append, nil_append, cons.injEq] at heq
    exact hparent (by rw [heq.1, heq.2.1])
  | c :: d :: e :: rest => simp [IsName]

theorem isName_or (read : List Char) : read = [] ∨ read = [dot] ∨ read =
    [dot, dot] ∨ IsName read := by
  by_cases hnil : read = []
  · exact .inl hnil
  · by_cases hdot : read = [dot]
    · exact .inr (.inl hdot)
    · by_cases hparent : read = [dot, dot]
      · exact .inr (.inr (.inl hparent))
      · exact .inr (.inr (.inr ⟨hnil, hdot, hparent⟩))

theorem valid_cons_iff : Valid allowAllCharacters (c :: rest) ↔
      ¬(allowAllCharacters = false ∧ isInvalidCharacter c = true) ∧
        Valid allowAllCharacters rest := by
  cases allowAllCharacters with
  | true => simp [Valid]
  | false => simp [Valid]

theorem stateOf_ne_start (read : List Char) : stateOf read ≠ .start := by
  rcases isName_or read with rfl | rfl | rfl | hread
  · decide
  · decide
  · decide
  · rw [stateOf_eq_normal hread]
    decide

attribute [local simp] isNormalizedFrom in
/-- A character of a component. -/
theorem isNormalizedFrom_name (hc : c ≠ directorySeparator)
    (hvalid : ¬(allowAllCharacters = false ∧ isInvalidCharacter c = true)) :
    isNormalizedFrom allowAllCharacters (stateOf read) len (c :: rest) =
      isNormalizedFrom allowAllCharacters (stateOf (read ++ [c])) (len + 1) rest := by
  have hcheck (state : PathState) :
      ¬(allowAllCharacters = false ∧ state ≠ .start ∧ isInvalidCharacter c = true) :=
    fun h => hvalid ⟨h.1, h.2.2⟩
  rcases isName_or read with rfl | rfl | rfl | hread
  · have hnext : stateOf ([] ++ [c]) = if c = dot then .currentDir else .normal := by
      by_cases hdot : c = dot
      · rw [hdot]
        rfl
      · rw [if_neg hdot]
        exact stateOf_eq_normal (by simp [IsName, hdot])
    rw [hnext]
    show isNormalizedFrom allowAllCharacters .separator len (c :: rest) = _
    simp only [isNormalizedFrom, if_neg (hcheck _), if_neg hc]
  · have hnext : stateOf ([dot] ++ [c]) = if c = dot then .parentDir else .normal := by
      by_cases hdot : c = dot
      · rw [hdot]
        rfl
      · rw [if_neg hdot]
        exact stateOf_eq_normal (by simp [IsName, hdot])
    rw [hnext]
    show isNormalizedFrom allowAllCharacters .currentDir len (c :: rest) = _
    simp only [isNormalizedFrom, if_neg (hcheck _), if_neg hc]
  · have hnext : stateOf ([dot, dot] ++ [c]) = .normal := stateOf_eq_normal (by simp [IsName])
    rw [hnext]
    show isNormalizedFrom allowAllCharacters .parentDir len (c :: rest) = _
    simp only [isNormalizedFrom, if_neg (hcheck _), if_neg hc]
  · rw [stateOf_eq_normal hread, stateOf_eq_normal (isName_append hread [c])]
    simp only [isNormalizedFrom, if_neg (hcheck _), if_neg hc]

theorem isNormalizedFrom_invalid {state : PathState}
    (hcheck : allowAllCharacters = false ∧ state ≠ .start ∧ isInvalidCharacter c = true) :
    isNormalizedFrom allowAllCharacters state len (c :: rest) = .error .invalidCharacter := by
  cases state with
  | start => exact absurd rfl hcheck.2.1
  | normal => rw [isNormalizedFrom, if_pos hcheck]
  | firstSeparator => rw [isNormalizedFrom, if_pos hcheck]
  | separator => rw [isNormalizedFrom, if_pos hcheck]
  | currentDir => rw [isNormalizedFrom, if_pos hcheck]
  | parentDir => rw [isNormalizedFrom, if_pos hcheck]

theorem not_isInvalidCharacter_separator : isInvalidCharacter directorySeparator = false := by
  decide

/-- A separator: the component before it is complete. -/
theorem isNormalizedFrom_separator :
    isNormalizedFrom allowAllCharacters (stateOf read) len (directorySeparator :: rest) =
      if IsName read then isNormalizedFrom allowAllCharacters (stateOf []) (len + 1) rest
      else .ok (false, none) := by
  have hcheck (state : PathState) : ¬(allowAllCharacters = false ∧ state ≠ .start ∧
      isInvalidCharacter directorySeparator = true) := by
    rw [not_isInvalidCharacter_separator]
    simp
  rcases isName_or read with rfl | rfl | rfl | hread
  · rw [if_neg (fun h => h.1 rfl)]
    show isNormalizedFrom allowAllCharacters .separator len _ = _
    simp only [isNormalizedFrom, if_neg (hcheck _), if_true]
  · rw [if_neg (fun h => h.2.1 rfl)]
    show isNormalizedFrom allowAllCharacters .currentDir len _ = _
    simp only [isNormalizedFrom, if_neg (hcheck _), if_true]
  · rw [if_neg (fun h => h.2.2 rfl)]
    show isNormalizedFrom allowAllCharacters .parentDir len _ = _
    simp only [isNormalizedFrom, if_neg (hcheck _), if_true]
  · rw [if_pos hread, stateOf_eq_normal hread]
    simp only [isNormalizedFrom, if_neg (hcheck _), if_true]
    rfl

/-- The automaton takes a path whose further components are names, when it has read the beginning of
the first of them. -/
theorem isNormalizedFrom_eq_true_iff (hread : directorySeparator ∉ read) :
    isNormalizedFrom allowAllCharacters (stateOf read) len path = .ok (true, out) ↔
      out = some (len + path.length) ∧ Valid allowAllCharacters path ∧
        ∀ name ∈ components (read ++ path), IsName name := by
  induction path generalizing read len with
  | nil =>
    have hsplit : components (read ++ []) = [read] := by
      rw [append_nil]
      exact splitOn_eq_singleton hread
    have hvalid : Valid allowAllCharacters [] := .inr fun c hc => absurd hc not_mem_nil
    rw [hsplit, forall_mem_singleton]
    rcases isName_or read with rfl | rfl | rfl | hname
    · simp [stateOf, isNormalizedFrom, IsName]
    · simp [stateOf, isNormalizedFrom, IsName]
    · simp [stateOf, isNormalizedFrom, IsName]
    · rw [stateOf_eq_normal hname]
      simp [isNormalizedFrom, hvalid, hname, eq_comm]
  | cons c rest ih =>
    have hlength : len + (c :: rest).length = len + 1 + rest.length := by
      rw [length_cons]
      omega
    rw [hlength, valid_cons_iff]
    by_cases hc : c = directorySeparator
    · subst hc
      have hsplit : components (read ++ directorySeparator :: rest) = read :: components rest :=
        splitOn_append_cons_self_of_not_mem hread rest
      have hvalid : ¬(allowAllCharacters = false ∧ isInvalidCharacter directorySeparator =
        true) := by
        rw [not_isInvalidCharacter_separator]
        simp
      rw [isNormalizedFrom_separator, hsplit, forall_mem_cons]
      by_cases hname : IsName read
      · rw [if_pos hname, ih not_mem_nil]
        simp [hvalid, hname]
      · rw [if_neg hname]
        simp [hname]
    · have hsplit : read ++ c :: rest = read ++ [c] ++ rest := by simp
      by_cases hvalid : allowAllCharacters = false ∧ isInvalidCharacter c = true
      · have hcheck : allowAllCharacters = false ∧ stateOf read ≠ .start ∧
            isInvalidCharacter c = true := ⟨hvalid.1, stateOf_ne_start read, hvalid.2⟩
        rw [isNormalizedFrom_invalid hcheck]
        simp [hvalid]
      · have hnext : directorySeparator ∉ read ++ [c] := by
          rw [mem_append, mem_singleton]
          rintro (h | h)
          · exact hread h
          · exact hc h.symm
        rw [isNormalizedFrom_name hc hvalid, hsplit, ih hnext]
        simp [hvalid]

/-- The automaton takes the root and the paths from the root whose components are names. -/
theorem isNormalized_iff : isNormalized allowAllCharacters path = .ok (true, out) ↔
      out = some path.length ∧ ∃ rest, path = directorySeparator :: rest ∧
        Valid allowAllCharacters rest ∧ (rest = [] ∨ ∀ name ∈ components rest, IsName name) := by
  cases path with
  | nil =>
    constructor
    · intro h
      cases h
    · rintro ⟨-, rest, h, -⟩
      cases h
  | cons c rest =>
    by_cases hc : c = directorySeparator
    · subst hc
      have hstart : isNormalized allowAllCharacters (directorySeparator :: rest) =
          isNormalizedFrom allowAllCharacters .firstSeparator 1 rest := by
        simp [isNormalized, isNormalizedFrom]
      have hvalid : Valid allowAllCharacters [] := .inr fun c hc => absurd hc not_mem_nil
      rw [hstart]
      cases rest with
      | nil => simp [isNormalizedFrom, hvalid, eq_comm]
      | cons d rest =>
        have hsame : isNormalizedFrom allowAllCharacters .firstSeparator 1 (d :: rest) =
            isNormalizedFrom allowAllCharacters (stateOf []) 1 (d :: rest) := by
          show _ = isNormalizedFrom allowAllCharacters .separator 1 (d :: rest)
          simp [isNormalizedFrom]
        rw [hsame, isNormalizedFrom_eq_true_iff not_mem_nil]
        simp [add_comm 1]
    · have hstart : isNormalized allowAllCharacters (c :: rest) = .error .invalidPathFormat := by
        simp [isNormalized, isNormalizedFrom, hc]
      rw [hstart]
      constructor
      · intro h
        cases h
      · rintro ⟨-, rest', h, -⟩
        cases h
        exact absurd rfl hc

/-! ## Normal paths -/

theorem components_intercalate (hne : names ≠ [])
    (hnames : ∀ name ∈ names, directorySeparator ∉ name) :
    components ([directorySeparator].intercalate names) = names :=
  splitOn_intercalate directorySeparator hnames hne

theorem mem_intercalate_iff (hc : c ≠ directorySeparator) :
    c ∈ [directorySeparator].intercalate names ↔ ∃ name ∈ names, c ∈ name := by
  induction names with
  | nil => simp
  | cons name rest ih =>
    rcases rest with _ | ⟨next, rest⟩
    · simp
    · rw [intercalate_cons_of_ne_nil (by simp), mem_append, mem_append, ih]
      simp [hc]

theorem valid_rooted (hnames : ∀ name ∈ names, Valid allowAllCharacters name) :
    Valid allowAllCharacters ([directorySeparator].intercalate names) := by
  rcases Bool.eq_false_or_eq_true allowAllCharacters with hallow | hallow
  · exact .inl hallow
  · refine .inr ?_
    intro c hc
    by_cases hseparator : c = directorySeparator
    · rw [hseparator]
      exact not_isInvalidCharacter_separator
    · obtain ⟨name, hname, hmem⟩ := (mem_intercalate_iff hseparator).mp hc
      rcases hnames name hname with h | h
      · rw [hallow] at h
        exact Bool.noConfusion h
      · exact h c hmem

theorem mem_of_mem_components {name : List Char} (hc : c ≠ directorySeparator)
    (hname : name ∈ components path) (hmem : c ∈ name) : c ∈ path := by
  have hpath : [directorySeparator].intercalate (components path) = path :=
    intercalate_splitOn directorySeparator
  rw [← hpath, mem_intercalate_iff hc]
  exact ⟨name, hname, hmem⟩

theorem valid_of_mem_components {name : List Char} (hvalid : Valid allowAllCharacters path)
    (hname : name ∈ components path) : Valid allowAllCharacters name := by
  rcases hvalid with h | h
  · exact .inl h
  · refine .inr ?_
    intro c hc
    by_cases hseparator : c = directorySeparator
    · rw [hseparator]
      exact not_isInvalidCharacter_separator
    · exact h c (mem_of_mem_components hseparator hname hc)

/-- The path with some names is normal. -/
theorem isNormalized_rooted (hnames : ∀ name ∈ names, IsName name ∧ directorySeparator ∉ name ∧
      Valid allowAllCharacters name) :
    isNormalized allowAllCharacters (rooted names) = .ok (true, some (rooted names).length) := by
  refine isNormalized_iff.mpr ⟨rfl, _, rfl, ?_, ?_⟩
  · exact valid_rooted fun name hname => (hnames name hname).2.2
  · rcases eq_nil_or_concat' names with rfl | ⟨init, last, rfl⟩
    · exact .inl rfl
    · refine .inr ?_
      rw [components_intercalate (by simp) fun name hname => (hnames name hname).2.1]
      exact fun name hname => (hnames name hname).1

/-- A path that the automaton takes is the one with its components, and the walk over them leaves
them all. -/
theorem exists_names_of_isNormalized (h : isNormalized allowAllCharacters path = .ok (true, out)) :
    ∃ names, path = rooted names ∧ ∀ isWindowsPath,
      process isWindowsPath allowAllCharacters [] path = .ok names.reverse := by
  obtain ⟨-, rest, rfl, hvalid, hnames⟩ := isNormalized_iff.mp h
  rcases hnames with rfl | hnames
  · exact ⟨[], rfl, fun isWindowsPath => by rw [process_separator, process_nil]; rfl⟩
  · refine ⟨components rest, ?_, ?_⟩
    · rw [rooted, components, intercalate_splitOn]
    · intro isWindowsPath
      have hall : ∀ name ∈ components rest, IsName name ∧ Valid allowAllCharacters name :=
        fun name hname => ⟨hnames name hname, valid_of_mem_components hvalid hname⟩
      rw [process_separator, process, foldlM_step_of_names hall, append_nil]

end Automaton

end Sudachi.FileSys.PathNormalizer
