import Mathlib.Data.List.Basic

/-!
# Readers of a word stream

A decoder of variable-length instructions is a tree of reads: it asks for a
word, and what it asks for next depends on the words it has seen. `Reader.runFrom`
runs such a tree over a program with a cursor, in the way an interpreter does: a
read past the end of the program delivers the default word, leaves the cursor
where it is and marks the decode as invalid. `Reader.parse` is the reading of a
list from its head. The two agree on every decode that finds all its words, and
a decode depends on no word it has not consumed.
-/

set_option autoImplicit false

namespace Sudachi.Foundations

universe u v w

variable {W : Type u} {α : Type v} {β : Type w}

/-- A decoder that reads words one at a time. -/
inductive Reader (W : Type u) (α : Type v) where
  | done (a : α)
  | read (next : W → Reader W α)

namespace Reader

/-- The decoder that continues with `f` on the result of `r`. -/
def bind (r : Reader W α) (f : α → Reader W β) : Reader W β :=
  match r with
  | .done a => f a
  | .read next => .read fun x => (next x).bind f

instance : Monad (Reader W) where
  pure := .done
  bind := bind

/-- One read. -/
def word : Reader W W :=
  .read .done

/-- The run of a decoder over `program` from cursor `ip`. The flag records
whether every read so far was inside the program. -/
def runFrom [Inhabited W] (program : List W) : Reader W α → Nat → Bool → α × Nat × Bool
  | .done a, ip, valid => (a, ip, valid)
  | .read next, ip, valid =>
    match program[ip]? with
    | some x => runFrom program (next x) (ip + 1) valid
    | none => runFrom program (next default) ip false

/-- The reading of a list from its head: the result and the words left, or
nothing when the list runs out. -/
def parse : Reader W α → List W → Option (α × List W)
  | .done a, ws => some (a, ws)
  | .read _, [] => none
  | .read next, x :: ws => parse (next x) ws

/-- Every result the decoder can deliver satisfies `P`. -/
def All (P : α → Prop) : Reader W α → Prop
  | .done a => P a
  | .read next => ∀ x, (next x).All P

/-- The decoder asks for exactly `n` words, whatever they are. -/
def Reads : Reader W α → Nat → Prop
  | .done _, n => n = 0
  | .read next, n => ∃ m, n = m + 1 ∧ ∀ x, (next x).Reads m

variable {r : Reader W α} {γ : Type v} {ws program tail : List W} {a : α} {f : α → Reader W γ}
  {ip : Nat} {P : α → Prop}

@[simp] theorem parse_pure (a : α) (ws : List W) :
    (pure a : Reader W α).parse ws = some (a, ws) := rfl

@[simp] theorem parse_word (x : W) (ws : List W) :
    (word : Reader W W).parse (x :: ws) = some (x, ws) := rfl

@[simp] theorem parse_bind (r : Reader W α) (f : α → Reader W γ) (ws : List W) :
    (r >>= f).parse ws = (r.parse ws).bind fun p => (f p.1).parse p.2 := by
  induction r generalizing ws with
  | done a => rfl
  | read next ih =>
    cases ws with
    | nil => rfl
    | cons x ws => exact ih x ws

/-- A decoder that succeeds on its input hands the rest to what follows. -/
theorem parse_bind_of_parse {rest : List W} (h : r.parse ws = some (a, rest)) :
    (r >>= f).parse ws = (f a).parse rest := by
  rw [parse_bind, h]
  rfl

theorem parse_append {rest : List W} (tail : List W)
    (h : r.parse ws = some (a, rest)) : r.parse (ws ++ tail) = some (a, rest ++ tail) := by
  induction r generalizing ws with
  | done b =>
    cases h
    rfl
  | read next ih =>
    cases ws with
    | nil => cases h
    | cons x ws => exact ih x h

theorem of_drop_eq_cons {x : W}
    (h : program.drop ip = x :: ws) : program[ip]? = some x ∧ program.drop (ip + 1) = ws := by
  constructor
  · rw [← List.head?_drop, h]
    rfl
  · rw [← List.tail_drop, h]
    rfl

theorem runFrom_of_parse [Inhabited W]
    (h : r.parse (program.drop ip) = some (a, tail)) (valid : Bool) :
    ∃ ip', r.runFrom program ip valid = (a, ip', valid) ∧ ip ≤ ip' ∧ program.drop ip' = tail := by
  induction r generalizing ip with
  | done b =>
    cases h
    exact ⟨ip, rfl, Nat.le_refl ip, rfl⟩
  | read next ih =>
    cases hdrop : program.drop ip with
    | nil =>
      rw [hdrop] at h
      cases h
    | cons x ws =>
      obtain ⟨hx, hws⟩ := of_drop_eq_cons hdrop
      rw [hdrop] at h
      obtain ⟨ip', hrun, hle, htail⟩ := ih x (hws ▸ h)
      refine ⟨ip', ?_, by omega, htail⟩
      simpa only [runFrom, hx] using hrun

/-- A decoder that uses up a list consumes exactly that list wherever the program holds it. -/
theorem runFrom_of_parse_all [Inhabited W] (h : r.parse ws = some (a, []))
    (hdrop : program.drop ip = ws ++ tail) (valid : Bool) :
    r.runFrom program ip valid = (a, ip + ws.length, valid) := by
  induction r generalizing ip ws with
  | done b =>
    cases h
    rfl
  | read next ih =>
    cases ws with
    | nil => cases h
    | cons x ws =>
      obtain ⟨hx, hws⟩ := of_drop_eq_cons hdrop
      have hlength : ip + 1 + ws.length = ip + (x :: ws).length := by
        rw [List.length_cons]
        omega
      simp only [runFrom, hx]
      rw [ih x h hws, hlength]

theorem Reads.bind {m n : Nat}
    (hr : r.Reads m) (hf : ∀ a, (f a).Reads n) : (r >>= f).Reads (m + n) := by
  induction r generalizing m with
  | done a =>
    rw [show m = 0 from hr, Nat.zero_add]
    exact hf a
  | read next ih =>
    obtain ⟨k, rfl, hnext⟩ := hr
    exact ⟨k + n, by omega, fun x => ih x (hnext x)⟩

theorem Reads.pure (a : α) : (pure a : Reader W α).Reads 0 := rfl

theorem Reads.word : (word : Reader W W).Reads 1 := ⟨0, rfl, fun _ => rfl⟩

/-- A run finds all its words exactly if the program is long enough. -/
theorem Reads.runFrom_valid [Inhabited W] {n : Nat} (hr : r.Reads n)
    (program : List W) (ip : Nat) (valid : Bool) :
    (r.runFrom program ip valid).2.2 = (valid && decide (ip + n ≤ program.length ∨ n = 0)) := by
  induction r generalizing n ip valid with
  | done a =>
    obtain rfl : n = 0 := hr
    simp [runFrom]
  | read next ih =>
    obtain ⟨m, rfl, hnext⟩ := hr
    cases hx : program[ip]? with
    | none =>
      have hout := List.getElem?_eq_none_iff.mp hx
      have hlong : ¬(ip + (m + 1) ≤ program.length ∨ m + 1 = 0) := by omega
      simp only [runFrom, hx]
      rw [ih default (hnext default), decide_eq_false hlong, Bool.false_and, Bool.and_false]
    | some x =>
      have hin := (List.getElem?_eq_some_iff.mp hx).1
      have hlong : (ip + 1 + m ≤ program.length ∨ m = 0) ↔
          (ip + (m + 1) ≤ program.length ∨ m + 1 = 0) := by omega
      simp only [runFrom, hx]
      rw [ih x (hnext x), decide_eq_decide.mpr hlong]

theorem All.of_runFrom [Inhabited W] (hall : r.All P)
    (program : List W) (ip : Nat) (valid : Bool) : P (r.runFrom program ip valid).1 := by
  induction r generalizing ip valid with
  | done a => exact hall
  | read next ih =>
    rw [runFrom]
    split
    · exact ih _ (hall _) _ _
    · exact ih _ (hall _) _ _

theorem All.of_parse (hall : r.All P) (h : r.parse ws = some (a, tail)) : P a := by
  induction r generalizing ws with
  | done b =>
    cases h
    exact hall
  | read next ih =>
    cases ws with
    | nil => cases h
    | cons x ws => exact ih x (hall x) h

theorem All.bind {Q : γ → Prop} (r : Reader W α) (hf : ∀ a, (f a).All Q) : (r >>= f).All Q := by
  induction r with
  | done a => exact hf a
  | read _ ih => exact fun x => ih x

theorem All.map {Q : γ → Prop} {f : α → γ}
    (hr : r.All P) (hf : ∀ a, P a → Q (f a)) : (r >>= fun a => pure (f a)).All Q := by
  induction r with
  | done a => exact hf a hr
  | read next ih => exact fun x => ih x (hr x)

end Reader

end Sudachi.Foundations
