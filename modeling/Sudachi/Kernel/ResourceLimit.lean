import Mathlib.Algebra.BigOperators.Group.Finset.Piecewise
import Mathlib.Algebra.Order.BigOperators.Group.Finset
import Mathlib.Order.Bounds.Basic
import Sudachi.Foundations.Runs

/-!
# Resource limits

`KResourceLimit` counts what is reserved of each resource, the value, and how much of that its owners
have not yet announced to give back, the hint. `Reserve` waits where the value is too great and the
hint is not. The counts are compared with what the owners hold, over runs of calls that interleave
with the waits.
-/

set_option autoImplicit false

namespace Sudachi.Kernel.ResourceLimits

open Function Finset Foundations.Runs

/-- `Common::WrappingAdd` for `s64`. -/
def wrappingAdd (lhs rhs : Int) : Int := (lhs + rhs).bmod (2 ^ 64)

/-- The counts of a resource. Each is an array of `KResourceLimit`. -/
structure LimitCounts where
  limitValue : Int
  currentValue : Int
  currentHint : Int
  peakValue : Int

structure KResourceLimit (R : Type) where
  counts : R → LimitCounts
  waiterCount : Int

namespace LimitCounts

variable (c : LimitCounts) (value : Int)

/-- `SetLimitValue`, if it succeeds. -/
def setLimitValue : Option LimitCounts :=
  if c.currentValue ≤ value then
    some { c with limitValue := value, peakValue := c.currentValue }
  else none

/-- How a round of the loop of `Reserve` ends. -/
inductive Round where
  | reserved | failed | waits

/-- A round of the loop of `Reserve`. The time is up where `inTime` is false. -/
def round (inTime : Bool) : Round :=
  if wrappingAdd c.currentValue value ≤ c.currentValue then .failed
  else if c.currentValue + value ≤ c.limitValue then .reserved
  else if c.currentHint + value ≤ c.limitValue ∧ inTime then .waits
  else .failed

/-- `Reserve`, up to its return or its first wait. -/
def reserve (inTime : Bool) : Round :=
  if c.limitValue ≤ c.currentHint then .failed else c.round value inTime

/-- What a round with success writes. -/
def reserved : LimitCounts :=
  { c with
    currentValue := c.currentValue + value
    currentHint := c.currentHint + value
    peakValue := max c.peakValue (c.currentValue + value) }

/-- `Release`. The broadcast lets the waiting threads come to their next round. -/
def release (hint : Int) : LimitCounts :=
  { c with currentValue := c.currentValue - value, currentHint := c.currentHint - hint }

end LimitCounts

/-! ## Runs of calls -/

/-- What an owner holds of a resource. -/
structure Account where
  value : Int
  hint : Int

/-- The accounts of the owners of a resource, and its values from the last `SetLimitValue` on. -/
structure Books (O : Type) where
  accounts : O → Account
  history : List Int

/-- A resource limit with its books and the threads that wait in `Reserve`, for which owner, resource
and value. -/
structure LimitState (R T O : Type) where
  limit : KResourceLimit R
  books : R → Books O
  waiting : T → Option (O × R × Int)

/-- A call, or the return of a thread from its wait. -/
inductive LimitCall (R T O : Type) where
  | setLimitValue (which : R) (value : Int)
  | reserve (thread : T) (owner : O) (which : R) (value : Int) (inTime : Bool)
  | wake (thread : T) (inTime : Bool)
  | release (owner : O) (which : R) (value hint : Int)

variable {R T O : Type}

/-- The books after an owner has got or given back something. -/
def Books.record [DecidableEq O] (b : Books O) (owner : O) (value hint current : Int) : Books O :=
  ⟨update b.accounts owner ⟨(b.accounts owner).value + value, (b.accounts owner).hint + hint⟩,
    current :: b.history⟩

namespace LimitState

def initial : LimitState R T O where
  limit := ⟨fun _ => ⟨0, 0, 0, 0⟩, 0⟩
  books := fun _ => ⟨fun _ => ⟨0, 0⟩, [0]⟩
  waiting := fun _ => none

variable [DecidableEq R] [DecidableEq T] [DecidableEq O] (s : LimitState R T O)

def put (which : R) (c : LimitCounts) (b : Books O) : LimitState R T O :=
  { s with
    limit := { s.limit with counts := update s.limit.counts which c }
    books := update s.books which b }

/-- A thread goes to wait, or returns from it. -/
def place (thread : T) (waiterCount : Int) (place : Option (O × R × Int)) : LimitState R T O :=
  { s with
    limit := { s.limit with waiterCount }
    waiting := update s.waiting thread place }

/-- The state after a round of `Reserve`. -/
def ended (thread : T) (owner : O) (which : R) (value : Int) : LimitCounts.Round → LimitState R T O
  | .failed => s
  | .waits => s.place thread (s.limit.waiterCount + 1) (some (owner, which, value))
  | .reserved =>
    let c := (s.limit.counts which).reserved value
    s.put which c ((s.books which).record owner value value c.currentValue)

def woken (thread : T) : LimitState R T O := s.place thread (s.limit.waiterCount - 1) none

def step : LimitCall R T O → LimitState R T O
  | .setLimitValue which value =>
    match (s.limit.counts which).setLimitValue value with
    | none => s
    | some c => s.put which c ⟨(s.books which).accounts, [c.currentValue]⟩
  | .reserve thread owner which value inTime =>
    s.ended thread owner which value ((s.limit.counts which).reserve value inTime)
  | .wake thread inTime =>
    match s.waiting thread with
    | none => s
    | some (owner, which, value) =>
      (s.woken thread).ended thread owner which value
        ((s.limit.counts which).round value inTime)
  | .release owner which value hint =>
    let c := (s.limit.counts which).release value hint
    s.put which c ((s.books which).record owner (-value) (-hint) c.currentValue)

/-! ## What is asked of a run -/

/-- The values that `s64` has. -/
def S64 (x : Int) : Prop := -2 ^ 63 ≤ x ∧ x < 2 ^ 63

/-- An owner gives back what it holds, the hint not after the value. -/
def Allowed : LimitCall R T O → Prop
  | .setLimitValue _ value => S64 value
  | .reserve _ _ _ value _ => S64 value
  | .wake _ _ => True
  | .release owner which value hint =>
    let account := (s.books which).accounts owner
    0 ≤ value ∧ 0 ≤ hint ∧ hint ≤ account.hint ∧ account.hint - hint ≤ account.value - value

/-- The sums of a round of `Reserve` do not overflow behind its first check. -/
def Fits (c : LimitCounts) (value : Int) : Prop :=
  ¬wrappingAdd c.currentValue value ≤ c.currentValue →
    S64 (c.currentValue + value) ∧ S64 (c.currentHint + value)

/-- A call of `Reserve` does not overflow, and it fails without an effect. -/
def ReservesSound : LimitCall R T O → Prop
  | .reserve thread owner which value inTime =>
    Fits (s.limit.counts which) value ∧
      ((s.limit.counts which).reserve value inTime = .failed →
        s.step (.reserve thread owner which value inTime) = s)
  | .wake thread inTime => ∀ owner which value, s.waiting thread = some (owner, which, value) →
    Fits (s.limit.counts which) value ∧
      ((s.limit.counts which).round value inTime = .failed →
        s.step (.wake thread inTime) = s.woken thread)
  | _ => True

end LimitState

/-- The counts are right. The peak is that of the values from the last `SetLimitValue` on. -/
structure LimitCounts.Right [Fintype O] (c : LimitCounts) (b : Books O) : Prop where
  hint_nonneg : 0 ≤ c.currentHint
  hint_le : c.currentHint ≤ c.currentValue
  value_le : c.currentValue ≤ c.limitValue
  value_eq : c.currentValue = ∑ o, (b.accounts o).value
  peak : IsGreatest {v | v ∈ b.history} c.peakValue

def LimitState.Sound [Fintype O] (s : LimitState R T O) : Prop :=
  ∀ r, (s.limit.counts r).Right (s.books r)

/-! ## The counts of a resource -/

/-- The invariant of the counts. -/
structure LimitCounts.Kept [Fintype O] (c : LimitCounts) (b : Books O) : Prop where
  account : ∀ o, 0 ≤ (b.accounts o).hint ∧ (b.accounts o).hint ≤ (b.accounts o).value
  value_eq : c.currentValue = ∑ o, (b.accounts o).value
  hint_eq : c.currentHint = ∑ o, (b.accounts o).hint
  value_le : c.currentValue ≤ c.limitValue
  limit_lt : c.limitValue < 2 ^ 63
  value_mem : c.currentValue ∈ b.history
  peak : IsGreatest {v | v ∈ b.history} c.peakValue

namespace LimitCounts.Kept

variable [Fintype O] {c : LimitCounts} {b : Books O} {owner : O} {value hint : Int}

theorem right (h : c.Kept b) : c.Right b where
  hint_nonneg := h.hint_eq ▸ sum_nonneg fun o _ => (h.account o).1
  hint_le := h.hint_eq ▸ h.value_eq ▸ sum_le_sum fun o _ => (h.account o).2
  value_le := h.value_le
  value_eq := h.value_eq
  peak := h.peak

/-- The first check leaves positive values whose sums are those of `s64`. -/
theorem fits (h : c.Kept b) (hvalue : LimitState.S64 value)
    (hadd : ¬wrappingAdd c.currentValue value ≤ c.currentValue) :
    0 < value ∧ LimitState.S64 (c.currentValue + value) ∧
      LimitState.S64 (c.currentHint + value) := by
  have hnonneg := h.right.hint_nonneg
  have hle := h.right.hint_le
  have hlimit := h.value_le.trans_lt h.limit_lt
  rw [wrappingAdd, Int.bmod_def] at hadd
  simp only [LimitState.S64] at hvalue ⊢
  split at hadd <;> omega

theorem setLimitValue (h : c.Kept b) (hle : c.currentValue ≤ value) (hlt : value < 2 ^ 63) :
    Kept { c with limitValue := value, peakValue := c.currentValue }
      ⟨b.accounts, [c.currentValue]⟩ :=
  { h with
    value_le := hle
    limit_lt := hlt
    value_mem := List.mem_singleton_self _
    peak := ⟨List.mem_singleton_self _, fun _ hv => Int.le_of_eq (List.mem_singleton.mp hv)⟩ }

variable [DecidableEq O]

theorem sum_update (f : Account → Int) (accounts : O → Account) (a : Account) :
    ∑ o, f (update accounts owner a o) = ∑ o, f (accounts o) + (f a - f (accounts owner)) := by
  have hpoint : ∀ o, f (update accounts owner a o) =
      f (accounts o) + if o = owner then f a - f (accounts owner) else 0 := by
    intro o
    by_cases ho : o = owner
    · simp [ho]
    · simp [ho]
  rw [sum_congr rfl fun o _ => hpoint o, sum_add_distrib, sum_ite_eq' univ owner,
    if_pos (mem_univ _)]

theorem record (h : c.Kept b) {c' : LimitCounts} (hlimit : c'.limitValue = c.limitValue)
    (hvalue : c'.currentValue = c.currentValue + value)
    (hhint : c'.currentHint = c.currentHint + hint) (haccount : 0 ≤ (b.accounts owner).hint + hint ∧
      (b.accounts owner).hint + hint ≤ (b.accounts owner).value + value)
    (hle : c'.currentValue ≤ c.limitValue)
    (hpeak : c'.peakValue = max c.peakValue c'.currentValue) :
    c'.Kept (b.record owner value hint c'.currentValue) where
  account := by
    intro o
    by_cases ho : o = owner
    · simpa [Books.record, ho] using haccount
    · simpa [Books.record, ho] using h.account o
  value_eq := by
    simp only [Books.record, sum_update Account.value, hvalue, h.value_eq]
    omega
  hint_eq := by
    simp only [Books.record, sum_update Account.hint, hhint, h.hint_eq]
    omega
  value_le := hlimit ▸ hle
  limit_lt := hlimit ▸ h.limit_lt
  value_mem := List.mem_cons_self
  peak := by
    rw [hpeak, max_comm]
    have hset : {v | v ∈ (b.record owner value hint c'.currentValue).history} =
        insert c'.currentValue {v | v ∈ b.history} := Set.ext fun _ => List.mem_cons
    exact hset ▸ h.peak.insert _

end LimitCounts.Kept

/-! ## The calls -/

namespace LimitState

variable [Fintype O] {s : LimitState R T O}

structure Inv (s : LimitState R T O) : Prop where
  kept : ∀ r, (s.limit.counts r).Kept (s.books r)
  waiting : ∀ t o r v, s.waiting t = some (o, r, v) → S64 v

theorem inv_initial : (initial : LimitState R T O).Inv where
  kept := fun _ =>
    { account := fun _ => ⟨Int.le_refl _, Int.le_refl _⟩
      value_eq := sum_const_zero.symm
      hint_eq := sum_const_zero.symm
      value_le := Int.le_refl _
      limit_lt := show (0 : Int) < 2 ^ 63 by decide
      value_mem := List.mem_singleton_self _
      peak := ⟨List.mem_singleton_self _, fun _ h => Int.le_of_eq (List.mem_singleton.mp h)⟩ }
  waiting := fun _ _ _ _ h => by cases h

variable {thread : T} {owner : O} {which : R} {value : Int} {inTime : Bool}

theorem Inv.put [DecidableEq R] (h : s.Inv) {c : LimitCounts} {b : Books O} (hkept : c.Kept b) :
    (s.put which c b).Inv where
  kept := by
    intro r
    by_cases hr : r = which
    · simpa [LimitState.put, hr] using hkept
    · simpa [LimitState.put, hr] using h.kept r
  waiting := h.waiting

variable [DecidableEq T]

theorem Inv.place (h : s.Inv) (waiterCount : Int) {place : Option (O × R × Int)}
    (hplace : ∀ o r v, place = some (o, r, v) → S64 v) : (s.place thread waiterCount place).Inv where
  kept := h.kept
  waiting := by
    intro t
    by_cases ht : t = thread
    · simpa [LimitState.place, ht] using hplace
    · simpa [LimitState.place, ht] using h.waiting t

variable [DecidableEq R] [DecidableEq O]

theorem Inv.ended (h : s.Inv) (hvalue : S64 value) :
    (s.ended thread owner which value ((s.limit.counts which).round value inTime)).Inv := by
  rw [LimitCounts.round]
  split
  · exact h
  rename_i hadd
  split
  · rename_i hle
    obtain ⟨hpos, -⟩ := (h.kept which).fits hvalue hadd
    have haccount := (h.kept which).account owner
    exact h.put ((h.kept which).record rfl rfl rfl (by omega) hle rfl)
  · split
    · exact h.place _ fun o r v hv => by cases hv; exact hvalue
    · exact h

theorem Inv.step (h : s.Inv) (call : LimitCall R T O) (hallowed : s.Allowed call) :
    (s.step call).Inv := by
  cases call with
  | setLimitValue which value =>
    rw [LimitState.step, LimitCounts.setLimitValue]
    by_cases hle : (s.limit.counts which).currentValue ≤ value
    · rw [if_pos hle]
      exact h.put ((h.kept which).setLimitValue hle hallowed.2)
    · rw [if_neg hle]
      exact h
  | reserve thread owner which value inTime =>
    rw [LimitState.step, LimitCounts.reserve]
    split
    · exact h
    · exact h.ended hallowed
  | wake thread inTime =>
    rw [LimitState.step]
    split
    · exact h
    · rename_i owner which value hwaiting
      have hwoken : (s.woken thread).Inv := h.place _ fun _ _ _ hv => by cases hv
      exact hwoken.ended (h.waiting thread owner which value hwaiting)
  | release owner which value hint =>
    obtain ⟨hvalue, -, hle, hrest⟩ := hallowed
    have hlimit := (h.kept which).value_le
    have hpeak := (h.kept which).peak.2 (h.kept which).value_mem
    refine h.put ((h.kept which).record rfl rfl rfl (by omega) ?_ (max_eq_left ?_).symm)
    · exact (Int.sub_le_self _ hvalue).trans hlimit
    · exact (Int.sub_le_self _ hvalue).trans hpeak

theorem Inv.reservesSound (h : s.Inv) (call : LimitCall R T O) (hallowed : s.Allowed call) :
    s.ReservesSound call := by
  cases call with
  | reserve thread owner which value inTime =>
    refine ⟨fun hadd => ((h.kept which).fits hallowed hadd).2, fun hfailed => ?_⟩
    rw [LimitState.step, hfailed, LimitState.ended]
  | wake thread inTime =>
    intro owner which value hwaiting
    have hvalue := h.waiting thread owner which value hwaiting
    refine ⟨fun hadd => ((h.kept which).fits hvalue hadd).2, fun hfailed => ?_⟩
    simp only [LimitState.step, hwaiting, hfailed, LimitState.ended]
  | _ => trivial

/-- In every run of calls that give back what was reserved, the counts are right in every state and
`Reserve` adds without an overflow. -/
theorem counts_right (calls : List (LimitCall R T O))
    (hallowed : Along step (fun s call => s.Allowed call) initial calls) :
    Throughout step Sound (initial : LimitState R T O) calls ∧
      Along step (fun s call => s.ReservesSound call) initial calls :=
  ⟨throughout_of_along (fun _ h r => (h.kept r).right) (fun _ call h => h.step call) inv_initial
      hallowed,
    along_of_along (fun _ call h => h.reservesSound call) (fun _ call h => h.step call) inv_initial
      hallowed⟩

/-- A value is reserved and given back, and the limit set anew. -/
def resetCalls : List (LimitCall Unit Unit Unit) :=
  [.setLimitValue () 5, .reserve () () () 5 true, .release () () 5 5, .setLimitValue () 5]

theorem counts_right_resetCalls :
    Throughout step Sound initial resetCalls ∧
      Along step (fun s call => s.ReservesSound call) initial resetCalls :=
  counts_right resetCalls (by simp [resetCalls, Along, Allowed, S64]; decide)

/-- The last call takes the peak back to 0, and the hint is above a value that is given back first. -/
theorem not_counts_right :
    ((resetCalls.take 2).foldl step initial).limit.counts () = ⟨5, 5, 5, 5⟩ ∧
      (resetCalls.foldl step initial).limit.counts () = ⟨5, 0, 0, 0⟩ ∧
      ((resetCalls.take 2 ++ [LimitCall.release () () 5 0]).foldl step initial).limit.counts () =
        ⟨5, 0, 5, 5⟩ :=
  ⟨rfl, rfl, rfl⟩

end LimitState

end Sudachi.Kernel.ResourceLimits
