import Sudachi.FileSys.PathNormalizerLoop
import Sudachi.Foundations.Results

/-!
# What Normalize does

`normalize_spec`: with room for two characters more than the path has, and without alternate
separators, `Normalize` ends as the walk over the components does, and its buffer holds the path
from the root with the components left. `normalize_correct` says when it succeeds, that its results
are normal, that it leaves normal paths alone, and that no assertion of it fails.
-/

set_option autoImplicit false

namespace Sudachi.FileSys.PathNormalizer

open Foundations StringTraits List

/-! ## Alternate separators -/

theorem findsParent_eq_false {path : List Char} (hpath : alternateDirectorySeparator ∉ path) :
    findsParent path = false := by
  induction path using findsParent.induct with
  | case1 c0 c1 c2 c3 rest hdots ih =>
    rw [findsParent, if_pos hdots]
    exact ih fun h => hpath (mem_cons_of_mem _ h)
  | case2 c0 c1 c2 c3 rest _ hfirst =>
    exact absurd (by rw [hfirst.1]; exact mem_cons_self) hpath
  | case3 c0 c1 c2 c3 rest _ _ hlast =>
    exact absurd (by rw [hlast.1]; simp) hpath
  | case4 c0 c1 c2 c3 rest hdots hfirst hlast ih =>
    rw [findsParent, if_neg hdots, if_neg hfirst, if_neg hlast]
    exact ih fun h => hpath (mem_cons_of_mem _ h)
  | case5 c0 c1 c2 =>
    have hc0 : c0 ≠ alternateDirectorySeparator := by
      rintro rfl
      exact hpath mem_cons_self
    simp [findsParent, hc0]
  | case6 path hfour hthree =>
    match path with
    | [] => rfl
    | [_] => rfl
    | [_, _] => rfl
    | [c0, c1, c2] => exact absurd rfl (hthree c0 c1 c2)
    | c0 :: c1 :: c2 :: c3 :: rest => exact absurd rfl (hfour c0 c1 c2 c3 rest)

theorem isParentDirectoryPathReplacementNeeded_eq_false {path : List Char}
    (hpath : alternateDirectorySeparator ∉ path) :
    isParentDirectoryPathReplacementNeeded path = false := by
  rw [isParentDirectoryPathReplacementNeeded, findsParent_eq_false hpath, Bool.and_false]

/-! ## The end of the function -/

theorem text_set_terminator {dst written : List Char} (htake : dst.take written.length = written)
    (hroom : written.length < dst.length) (hnul : nullTerminator ∉ written) :
    text (dst.set written.length nullTerminator) = written := by
  have hall : ∀ c ∈ written, decide (c ≠ nullTerminator) = true := by
    intro c hc
    exact decide_eq_true fun h => hnul (h ▸ hc)
  rw [text, set_eq_take_append_cons_drop, if_pos hroom, htake,
    takeWhile_append_of_pos hall, takeWhile_cons_of_neg (by simp), append_nil]

theorem nullTerminator_not_mem_rooted {names : List (List Char)}
    (hnames : ∀ name ∈ names, nullTerminator ∉ name) : nullTerminator ∉ rooted names := by
  rw [rooted, mem_cons, mem_intercalate_iff (by decide)]
  rintro (h | ⟨name, hname, hmem⟩)
  · exact absurd h (by decide)
  · exact hnames name hname hmem

section Finish

variable {allowAllCharacters : Bool} {maxOutSize : Nat} {s : Progress} {names : List (List Char)}

/-- The end of the function, when the buffer holds the path from the root without its terminator, or
nothing for the root itself. -/
theorem finish_spec (written : List Char) (hlength : s.dst.length = maxOutSize)
    (hkept : Kept allowAllCharacters names) (htwo : 2 ≤ maxOutSize)
    (hroom : written.length + 1 ≤ maxOutSize)
    (htotal : (if s.skipNextSep then s.totalLen - 1 else s.totalLen) = written.length)
    (htake : s.dst.take written.length = written)
    (hrooted : (if written = [] then [directorySeparator] else written) = rooted names) :
    ∃ dst, finish allowAllCharacters maxOutSize s = .ok (dst, (rooted names).length) ∧
      text dst = rooted names := by
  obtain ⟨dst, hdst, hdstLength, hdstTake, hfits⟩ :
      ∃ dst, (if written.length = 0 ∧ maxOutSize ≠ 0 then (s.dst.set 0 directorySeparator, 1)
        else (s.dst, written.length)) = (dst, (rooted names).length) ∧ dst.length = maxOutSize ∧
          dst.take (rooted names).length = rooted names ∧ (rooted names).length < maxOutSize := by
    by_cases hnil : written = []
    · subst hnil
      have hset := take_set_succ htake (by omega) directorySeparator
      rw [if_pos rfl] at hrooted
      rw [if_pos ⟨rfl, by omega⟩, ← hrooted]
      refine ⟨_, rfl, ?_, hset, ?_⟩
      · rw [length_set, hlength]
      · show 1 < maxOutSize
        omega
    · have hne : written.length ≠ 0 := fun h => hnil (length_eq_zero_iff.mp h)
      rw [if_neg hnil] at hrooted
      rw [if_neg (fun h => hne h.1), ← hrooted]
      exact ⟨s.dst, rfl, hlength, htake, by omega⟩
  have hpositive : 0 < (rooted names).length := by
    rw [rooted, length_cons]
    exact Nat.succ_pos _
  have hsize : maxOutSize ≥ ((rooted names).length + 2 ^ 64 - 1) % 2 ^ 64 := by omega
  have htext : text (dst.set (rooted names).length nullTerminator) = rooted names :=
    text_set_terminator hdstTake (by omega)
      (nullTerminator_not_mem_rooted fun name hname => (hkept name hname).2.2.1.1)
  have hnormal : isNormalized allowAllCharacters (rooted names) =
      .ok (true, some (rooted names).length) :=
    isNormalized_rooted fun name hname =>
      ⟨(hkept name hname).1, (hkept name hname).2.1, (hkept name hname).2.2.2⟩
  refine ⟨_, ?_, htext⟩
  unfold finish
  simp only [htotal, hdst, hsize, htext, hnormal, not_true_eq_false, if_false]
  rfl

end Finish

/-! ## Normalize -/

section Normalize

variable {isWindowsPath isDriveRelativePath allowAllCharacters : Bool} {maxOutSize : Nat}
  {dst path : List Char}

/-- The outcome of the function is that of the walk over the components. -/
def Ends (allowAllCharacters : Bool) (outcome : Except Abort (List Char × Nat)) :
    Except Failure (List (List Char)) → Prop
  | .error e => ∃ out, outcome = .error (e, out)
  | .ok stack => Kept allowAllCharacters stack ∧
      ∃ dst, outcome = .ok (dst, (rooted stack.reverse).length) ∧ text dst = rooted stack.reverse

/-- The end of the function behind a loop that followed the walk. -/
theorem finish_follows {outcome : Except Abort Progress} {walk : Except Failure (List (List Char))}
    (hfollows : Follows allowAllCharacters maxOutSize 0 outcome walk) (htwo : 2 ≤ maxOutSize) :
    Ends allowAllCharacters (outcome >>= finish allowAllCharacters maxOutSize) walk := by
  cases walk with
  | error e =>
    obtain ⟨out, rfl⟩ := hfollows
    exact ⟨out, rfl⟩
  | ok stack =>
    obtain ⟨s, rfl, hlength, hkept, hroom, htotal, htake⟩ := hfollows
    have hkeptReverse : Kept allowAllCharacters stack.reverse :=
      fun name hname => hkept name (mem_reverse.mp hname)
    have hjoinedTake : s.dst.take (joined stack).length = joined stack := take_of_append htake
    have hjoinedTotal :
        (if s.skipNextSep then s.totalLen - 1 else s.totalLen) = (joined stack).length := by
      rw [htotal]
      cases s.skipNextSep with
      | true => simp
      | false => simp
    have hjoinedRoom : (joined stack).length + 1 ≤ maxOutSize := by
      rw [length_append] at htotal
      omega
    have hrooted : (if joined stack = [] then [directorySeparator] else joined stack) =
        rooted stack.reverse := by
      cases stack with
      | nil => rfl
      | cons name stack =>
        have hne : joined (name :: stack) ≠ [] := by
          rw [joined]
          exact append_ne_nil_of_right_ne_nil _ (cons_ne_nil _ _)
        rw [if_neg hne, rooted_reverse (cons_ne_nil _ _)]
    rw [ok_bind]
    exact ⟨hkept, finish_spec _ hlength hkeptReverse htwo hjoinedRoom hjoinedTotal hjoinedTake
      hrooted⟩

variable (isWindowsPath isDriveRelativePath allowAllCharacters) in
/-- `Normalize` of a path from the root. -/
theorem normalize_rooted {rest : List Char} (hplain : Plain (directorySeparator :: rest))
    (hlength : dst.length = maxOutSize)
    (hroom : (directorySeparator :: rest).length + 2 ≤ maxOutSize) :
    normalize dst (directorySeparator :: rest) maxOutSize isWindowsPath isDriveRelativePath
        allowAllCharacters =
      (normalizeFrom isWindowsPath allowAllCharacters maxOutSize ⟨dst, 0, false⟩
        (directorySeparator :: rest) >>= finish allowAllCharacters maxOutSize) ∧
    Follows allowAllCharacters maxOutSize 0
      (normalizeFrom isWindowsPath allowAllCharacters maxOutSize ⟨dst, 0, false⟩
        (directorySeparator :: rest))
      (process isWindowsPath allowAllCharacters [] (directorySeparator :: rest)) := by
  have hreplacement := isParentDirectoryPathReplacementNeeded_eq_false hplain.2
  have hhead : ¬charAt (directorySeparator :: rest) 0 ≠ directorySeparator := not_not.mpr rfl
  constructor
  · rw [normalize, if_neg hhead, pure_bind, hreplacement, if_neg Bool.false_ne_true]
  · refine normalizeFrom_spec (.inr ⟨rest, rfl⟩) hplain hlength ?_ ?_ ⟨rfl, rfl⟩
    · exact fun name hname => absurd hname not_mem_nil
    · show 0 + (directorySeparator :: rest).length + 1 ≤ maxOutSize
      omega

/-- `Normalize` of a drive relative path, with the separator that it writes first. -/
theorem normalize_driveRelative (hplain : Plain path) (hhead : charAt path 0 ≠ directorySeparator) :
    normalize dst path maxOutSize isWindowsPath true allowAllCharacters =
      (normalizeFrom isWindowsPath allowAllCharacters maxOutSize
        ⟨dst.set 0 directorySeparator, 1, false⟩ path >>= finish allowAllCharacters maxOutSize) :=
            by
  have hreplacement := isParentDirectoryPathReplacementNeeded_eq_false hplain.2
  rw [normalize, if_pos hhead, if_pos rfl, pure_bind, hreplacement, if_neg Bool.false_ne_true]

theorem follows_driveRelative {c : Char} {rest : List Char} (hplain : Plain (c :: rest))
    (hc : c ≠ directorySeparator) (hlength : dst.length = maxOutSize)
    (hroom : (c :: rest).length + 2 ≤ maxOutSize) : Follows allowAllCharacters maxOutSize 0
      (normalizeFrom isWindowsPath allowAllCharacters maxOutSize
        ⟨dst.set 0 directorySeparator, 1, false⟩ (c :: rest))
      (process isWindowsPath allowAllCharacters [] (c :: rest)) := by
  have hhead (tail : List Char) : c :: rest ≠ directorySeparator :: tail := by
    intro h
    cases h
    exact hc rfl
  obtain ⟨name, hname, hseparator, hended, hne⟩ := exists_name (cons_ne_nil c rest) hhead
  have hnext : skipSeparators (c :: rest) = c :: rest := by rw [skipSeparators_cons, if_neg hc]
  have hset := take_set_succ (rfl : dst.take ([] : List Char).length = [])
    (by rw [hlength, length_nil]; omega) directorySeparator
  have hplainName : Plain name := hplain.mono fun c hc => hname ▸ mem_append_left _ hc
  have hkept : Kept allowAllCharacters [] := fun name hname => absurd hname not_mem_nil
  have hsize : (dst.set 0 directorySeparator).length = maxOutSize := by
    rw [length_set, hlength]
  have hcomponent := writeComponent_spec (s := ⟨dst.set 0 directorySeparator, 1, false⟩)
    isWindowsPath hsize hkept hseparator hended hplainName hne
    (by rw [← hname, add_comm 1]; omega) rfl ⟨rfl, hset⟩
  rw [← hname] at hcomponent
  rw [normalizeFrom, hnext, hname, process_append hseparator hended, ← hname]
  simp only [hc, false_and, if_false]
  show Follows allowAllCharacters maxOutSize 0 (do
    let s ← writeComponent isWindowsPath allowAllCharacters maxOutSize _ (c :: rest)
    normalizeFrom isWindowsPath allowAllCharacters maxOutSize s (skipName (c :: rest))) _
  refine follows_bind hcomponent ?_
  intro s stack hdst hkept hrest hwritten
  exact normalizeFrom_spec hended (hplain.mono (dropWhile_suffix _).subset) hdst hkept hrest
    hwritten

variable (isWindowsPath isDriveRelativePath allowAllCharacters) in
/-- `Normalize` ends as the walk over the components does. -/
theorem normalize_spec (hplain : Plain path)
    (hstart : charAt path 0 = directorySeparator ∨ isDriveRelativePath = true)
    (hlength : dst.length = maxOutSize) (hroom : path.length + 2 ≤ maxOutSize) :
    Ends allowAllCharacters
      (normalize dst path maxOutSize isWindowsPath isDriveRelativePath allowAllCharacters)
      (process isWindowsPath allowAllCharacters [] path) := by
  have htwo : 2 ≤ maxOutSize := by omega
  by_cases hhead : charAt path 0 = directorySeparator
  · cases path with
    | nil => exact absurd hhead (by decide)
    | cons c rest =>
      obtain rfl : c = directorySeparator := hhead
      obtain ⟨hnormalize, hfollows⟩ := normalize_rooted isWindowsPath isDriveRelativePath
        allowAllCharacters hplain hlength hroom
      rw [hnormalize]
      exact finish_follows hfollows htwo
  · have hdrive : isDriveRelativePath = true := hstart.resolve_left hhead
    subst hdrive
    rw [normalize_driveRelative hplain hhead]
    cases path with
    | nil =>
      have hset := take_set_succ (rfl : dst.take ([] : List Char).length = [])
        (by rw [hlength, length_nil]; omega) directorySeparator
      have hkept : Kept allowAllCharacters [] := fun name hname => absurd hname not_mem_nil
      have hsize : (dst.set 0 directorySeparator).length = maxOutSize := by
        rw [length_set, hlength]
      rw [process_nil, normalizeFrom, ok_bind]
      exact ⟨hkept, finish_spec (s := ⟨dst.set 0 directorySeparator, 1, false⟩)
        [directorySeparator] hsize hkept htwo htwo rfl hset rfl⟩
    | cons c rest => exact finish_follows (follows_driveRelative hplain hhead hlength hroom) htwo

/-- A path that the automaton takes is its own normal form. -/
theorem normalize_of_isNormalized {out : Option Nat} (hplain : Plain path)
    (hlength : dst.length = maxOutSize) (hroom : path.length + 2 ≤ maxOutSize)
    (hnormal : isNormalized allowAllCharacters path = .ok (true, out)) :
    ∃ dst', normalize dst path maxOutSize isWindowsPath isDriveRelativePath allowAllCharacters =
      .ok (dst', path.length) ∧ text dst' = path := by
  obtain ⟨names, hpath, hprocess⟩ := exists_names_of_isNormalized hnormal
  obtain ⟨-, rest, hrest, -⟩ := isNormalized_iff.mp hnormal
  have hstart : charAt path 0 = directorySeparator := by
    rw [hrest]
    rfl
  have hspec := normalize_spec isWindowsPath isDriveRelativePath allowAllCharacters hplain
    (.inl hstart) hlength hroom
  rw [hprocess isWindowsPath] at hspec
  obtain ⟨-, dst', hnormalize, htext⟩ := hspec
  rw [reverse_reverse, ← hpath] at hnormalize htext
  exact ⟨dst', hnormalize, htext⟩

theorem plain_rooted {names : List (List Char)} (hnames : ∀ name ∈ names, Plain name) :
    Plain (rooted names) := by
  have hmem {c : Char} (hc : c ≠ directorySeparator) (hnone : ∀ name ∈ names, c ∉ name) :
      c ∉ rooted names := by
    rw [rooted, mem_cons, mem_intercalate_iff hc]
    rintro (h | ⟨name, hname, hin⟩)
    · exact hc h
    · exact hnone name hname hin
  exact ⟨hmem (by decide) fun name hname => (hnames name hname).1,
    hmem (by decide) fun name hname => (hnames name hname).2⟩

/-- The components left of a path as the result of the function, when it succeeds. -/
theorem exists_resolve_of_normalize {dst' : List Char} {len : Nat} (hplain : Plain path)
    (hlength : dst.length = maxOutSize) (hroom : path.length + 2 ≤ maxOutSize)
    (hnormalize : normalize dst path maxOutSize isWindowsPath isDriveRelativePath
      allowAllCharacters = .ok (dst', len)) :
    (charAt path 0 = directorySeparator ∨ isDriveRelativePath = true) ∧
      ∃ stack, process isWindowsPath allowAllCharacters [] path = .ok stack ∧
        Kept allowAllCharacters stack ∧ len = (rooted stack.reverse).length ∧
        text dst' = rooted stack.reverse := by
  by_cases hstart : charAt path 0 = directorySeparator ∨ isDriveRelativePath = true
  · have hspec := normalize_spec isWindowsPath _ allowAllCharacters hplain hstart hlength hroom
    refine ⟨hstart, ?_⟩
    cases hprocess : process isWindowsPath allowAllCharacters [] path with
    | error e =>
      rw [hprocess] at hspec
      obtain ⟨out, herror⟩ := hspec
      rw [hnormalize] at herror
      cases herror
    | ok stack =>
      rw [hprocess] at hspec
      obtain ⟨hkept, dst'', hok, htext⟩ := hspec
      rw [hnormalize] at hok
      cases hok
      exact ⟨stack, rfl, hkept, rfl, htext⟩
  · obtain ⟨hhead, hdrive⟩ := not_or.mp hstart
    rw [normalize, if_pos hhead, if_neg hdrive] at hnormalize
    cases hnormalize

/-- The failures of a walk. -/
theorem failure_of_foldlM_step {names stack : List (List Char)} {e : Failure}
    (h : names.foldlM (step isWindowsPath allowAllCharacters) stack = .error e) :
    e = .invalidCharacter ∨ e = .directoryUnobtainable := by
  induction names generalizing stack with
  | nil => cases h
  | cons name rest ih =>
    rw [foldlM_cons] at h
    cases hstep : step isWindowsPath allowAllCharacters stack name with
    | ok stack' =>
      rw [hstep, ok_bind] at h
      exact ih h
    | error e' =>
      rw [hstep, error_bind] at h
      obtain rfl : e' = e := Except.error.inj h
      unfold step at hstep
      split at hstep
      · exact .inl (Except.error.inj hstep).symm
      · split at hstep
        · cases hstep
        · split at hstep
          · cases hstep
          · exact .inr (Except.error.inj hstep).symm

/-- For paths over the ASCII characters without a backslash and room for two more: `Normalize`
succeeds exactly when the path is drive relative or from the root, no component has a forbidden
character, and, unless the path is a windows path, no parent directory climbs above the root. Then
the result is the path from the root with the components left; it is normal, and normalising it
leaves it alone. So does normalising any path that is normal. No assertion fails, and no index
leaves the buffer. -/
theorem normalize_correct (isWindowsPath isDriveRelativePath allowAllCharacters : Bool)
    (hchars : ∀ c ∈ path, 0 < c.toNat ∧ c.toNat ≤ 0x7F ∧ c ≠ alternateDirectorySeparator)
    (hlength : dst.length = maxOutSize) (hroom : path.length + 2 ≤ maxOutSize) :
    ((∃ out, normalize dst path maxOutSize isWindowsPath isDriveRelativePath allowAllCharacters =
        .ok out) ↔
      (charAt path 0 = directorySeparator ∨ isDriveRelativePath = true) ∧
        (allowAllCharacters = true ∨
          ∀ name ∈ components path, ∀ c ∈ name, isInvalidCharacter c = false) ∧
        (isWindowsPath = true ∨ (resolve false path).isSome = true)) ∧
    (∀ dst' len, normalize dst path maxOutSize isWindowsPath isDriveRelativePath
        allowAllCharacters = .ok (dst', len) →
      (∃ stack, resolve isWindowsPath path = some stack ∧ text dst' = rooted stack.reverse) ∧
      len = (text dst').length ∧
      isNormalized allowAllCharacters (text dst') = .ok (true, some len) ∧
      ∀ (isWindowsPath' isDriveRelativePath' : Bool) (maxOutSize' : Nat) (buffer : List Char),
        buffer.length = maxOutSize' → len + 2 ≤ maxOutSize' →
        ∃ buffer', normalize buffer (text dst') maxOutSize' isWindowsPath' isDriveRelativePath'
          allowAllCharacters = .ok (buffer', len) ∧ text buffer' = text dst') ∧
    (∀ out, isNormalized allowAllCharacters path = .ok (true, out) →
      ∃ dst', normalize dst path maxOutSize isWindowsPath isDriveRelativePath allowAllCharacters =
        .ok (dst', path.length) ∧ text dst' = path) ∧
    (∀ e out, normalize dst path maxOutSize isWindowsPath isDriveRelativePath allowAllCharacters =
      .error (e, out) → e ≠ .assertion ∧ e ≠ .outOfBounds) := by
  have hplain : Plain path := by
    constructor
    · intro h
      exact absurd (hchars _ h).1 (by decide)
    · intro h
      exact (hchars _ h).2.2 rfl
  have hvalid : (allowAllCharacters = true ∨
      ∀ name ∈ components path, ∀ c ∈ name, isInvalidCharacter c = false) ↔
        ∀ name ∈ components path, Valid allowAllCharacters name := by
    constructor
    · rintro (h | h) name hname
      · exact .inl h
      · exact .inr (h name hname)
    · intro h
      by_cases hallow : allowAllCharacters = true
      · exact .inl hallow
      · exact .inr fun name hname => (h name hname).resolve_left hallow
  have hclimbs : (isWindowsPath = true ∨ (resolve false path).isSome = true) ↔
      (resolve isWindowsPath path).isSome = true := by
    cases isWindowsPath with
    | true => simp [isSome_resolve_windows path]
    | false => simp
  refine ⟨?_, ?_, ?_, ?_⟩
  · rw [hvalid, hclimbs]
    constructor
    · rintro ⟨⟨dst', len⟩, hnormalize⟩
      obtain ⟨hstart, stack, hprocess, -⟩ := exists_resolve_of_normalize hplain hlength hroom
        hnormalize
      obtain ⟨hnames, hresolve⟩ := process_eq_ok_iff.mp hprocess
      exact ⟨hstart, hnames, by rw [hresolve]; rfl⟩
    · rintro ⟨hstart, hnames, hresolve⟩
      obtain ⟨stack, hstack⟩ := Option.isSome_iff_exists.mp hresolve
      have hspec := normalize_spec isWindowsPath _ allowAllCharacters hplain hstart hlength hroom
      rw [process_eq_ok_iff.mpr ⟨hnames, hstack⟩] at hspec
      obtain ⟨-, dst', hok, -⟩ := hspec
      exact ⟨_, hok⟩
  · intro dst' len hnormalize
    obtain ⟨-, stack, hprocess, hkept, hlen, htext⟩ :=
      exists_resolve_of_normalize hplain hlength hroom hnormalize
    have hnames : ∀ name ∈ stack.reverse, IsName name ∧ directorySeparator ∉ name ∧ Plain name ∧
        Valid allowAllCharacters name := fun name hname => hkept name (mem_reverse.mp hname)
    have hnormal : isNormalized allowAllCharacters (rooted stack.reverse) =
        .ok (true, some (rooted stack.reverse).length) :=
      isNormalized_rooted fun name hname =>
        ⟨(hnames name hname).1, (hnames name hname).2.1, (hnames name hname).2.2.2⟩
    rw [htext, hlen]
    refine ⟨⟨stack, (process_eq_ok_iff.mp hprocess).2, rfl⟩, rfl, hnormal, ?_⟩
    intro isWindowsPath' isDriveRelativePath' maxOutSize' buffer hbuffer hsize
    exact normalize_of_isNormalized (plain_rooted fun name hname => (hnames name hname).2.2.1)
      hbuffer hsize hnormal
  · intro out hnormal
    exact normalize_of_isNormalized hplain hlength hroom hnormal
  · intro e out herror
    by_cases hstart : charAt path 0 = directorySeparator ∨ isDriveRelativePath = true
    · have hspec := normalize_spec isWindowsPath _ allowAllCharacters hplain hstart hlength hroom
      cases hprocess : process isWindowsPath allowAllCharacters [] path with
      | error e' =>
        rw [hprocess] at hspec
        obtain ⟨out', herror'⟩ := hspec
        rw [herror] at herror'
        cases herror'
        rcases failure_of_foldlM_step hprocess with rfl | rfl
        · decide
        · decide
      | ok stack =>
        rw [hprocess] at hspec
        obtain ⟨-, dst', hok, -⟩ := hspec
        rw [herror] at hok
        cases hok
    · obtain ⟨hhead, hdrive⟩ := not_or.mp hstart
      rw [normalize, if_pos hhead, if_neg hdrive] at herror
      cases herror
      decide

theorem normalize_correct_parent :
    ∃ dst' len, normalize (replicate 9 'x') ['/', 'a', '/', '.', '.', '/', 'b'] 9 false false
      false = .ok (dst', len) ∧ text dst' = ['/', 'b'] := by
  have hchars : ∀ c ∈ ['/', 'a', '/', '.', '.', '/', 'b'],
      0 < c.toNat ∧ c.toNat ≤ 0x7F ∧ c ≠ alternateDirectorySeparator := by
    simp only [forall_mem_cons, not_mem_nil, false_implies, implies_true, and_true]
    decide
  have hcomponents : components ['/', 'a', '/', '.', '.', '/', 'b'] =
      [[], ['a'], ['.', '.'], ['b']] := by decide
  have hvalid : ∀ name ∈ components ['/', 'a', '/', '.', '.', '/', 'b'], ∀ c ∈ name,
      isInvalidCharacter c = false := by
    rw [hcomponents]
    simp only [forall_mem_cons, not_mem_nil, false_implies, implies_true, and_true]
    decide
  have hlength : (replicate 9 'x').length = 9 := rfl
  obtain ⟨hsuccess, hresult, -⟩ := normalize_correct false false false hchars hlength (by decide)
  obtain ⟨⟨dst', len⟩, hok⟩ := hsuccess.mpr ⟨.inl rfl, .inr hvalid, .inr (by decide)⟩
  obtain ⟨⟨stack, hresolve, htext⟩, -⟩ := hresult dst' len hok
  have hstack : resolve false ['/', 'a', '/', '.', '.', '/', 'b'] = some [['b']] := by decide
  obtain rfl : stack = [['b']] := Option.some.inj (hresolve.symm.trans hstack)
  exact ⟨dst', len, hok, htext⟩

end Normalize

end Sudachi.FileSys.PathNormalizer
