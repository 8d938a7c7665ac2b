import Sudachi.VideoCore.WordManager

/-!
# The word manager, page by page

A word is a set of 64 pages, and the loops of the manager go through the words of a region with the
masks of the pages they are about. The lemmas below say what each operation does to a page: the
pages of the window of an operation all change in the same way, and the others stay as they are.
-/

set_option autoImplicit false

namespace Sudachi.VideoCore

open Sudachi.Foundations Sudachi.Foundations.Intervals List Nat
open BitVec (allOnes getLsbD_eq_getElem getLsbD_of_ge getLsbD_ushiftRight getLsbD_zero)
open WordManager (changeCall changeWord clearWord create flushCall flushWord numWords queryMask
  sweepWord u64Max)

/-! ## The loop over the pages of a word -/

variable {calls : List (Nat × BitVec 64)} {b : Nat}

theorem iteratePagesFrom_spec (offset : Nat) (mask : BitVec 64) :
    MaximalRuns {p | offset ≤ p ∧ mask.getLsbD (p - offset) = true}
      (iteratePagesFrom offset mask) := by
  induction offset, mask using iteratePagesFrom.induct with
  | case1 offset => 
    rw [iteratePagesFrom, dif_pos rfl]
    refine maximalRuns_nil fun p hp => ?_
    simp at hp
  | case2 offset mask hmask emptyBits continuousBits ih =>
    rw [iteratePagesFrom, dif_neg hmask]
    have hfirst : (mask >>> emptyBits).getLsbD 0 = true := getLsbD_shiftRight_ctz hmask
    have hpos : 0 < continuousBits := trailingOnes_pos hfirst
    have hbit : ∀ i, (mask >>> emptyBits).getLsbD i = mask.getLsbD (emptyBits + i) :=
      fun i => getLsbD_ushiftRight ..
    -- the bits from the first zero behind the run on
    have hrest : ∀ i, (skipRun (mask >>> emptyBits) continuousBits).getLsbD i =
        mask.getLsbD (emptyBits + continuousBits + i) := by
      intro i
      rw [skipRun]
      split
      case isTrue => rw [getLsbD_ushiftRight, hbit, add_assoc]
      case isFalse hfull =>
        have hge : 64 ≤ continuousBits := Nat.le_of_not_lt hfull
        rw [getLsbD_zero, getLsbD_of_ge _ _ (by omega)]
    have hgap : mask.getLsbD (emptyBits + continuousBits) = false := by
      rw [← hbit]
      exact getLsbD_trailingOnes _
    have hrun : ∀ i, emptyBits ≤ i → i < emptyBits + continuousBits → mask.getLsbD i = true := by
      intro i hle hlt
      have hi := getLsbD_of_lt_trailingOnes (v := mask >>> emptyBits) (i := i - emptyBits)
        (show i - emptyBits < continuousBits by omega)
      rw [hbit] at hi
      rwa [show emptyBits + (i - emptyBits) = i by omega] at hi
    have hbefore : ∀ i < emptyBits, mask.getLsbD i = false :=
      fun i hi => BitVec.getLsbD_false_of_lt_ctz hi
    have hcons := ih.cons (r := (offset + emptyBits, continuousBits)) hpos ?behind
    case behind =>
      rintro p ⟨hle, hset⟩
      dsimp only
      rcases lt_or_eq_of_le hle with hlt | heq
      · exact hlt
      · subst heq
        rw [hrest, Nat.sub_self, add_zero, hgap] at hset
        cases hset
    refine hcons.congr fun p => ?_
    simp only [Set.mem_ofPred_eq, hrest]
    constructor
    case mp =>
      rintro ⟨hle, hset⟩
      by_cases hrunp : p < offset + emptyBits + continuousBits
      · refine .inl ⟨?_, hrunp⟩
        by_contra hlt
        rw [hbefore (p - offset) (by omega)] at hset
        cases hset
      · refine .inr ⟨by omega, ?_⟩
        rwa [show emptyBits + continuousBits + (p - (offset + emptyBits + continuousBits)) =
          p - offset by omega]
    case mpr =>
      rintro (⟨hle, hlt⟩ | ⟨hle, hset⟩)
      · exact ⟨by omega, hrun _ (by omega) (by omega)⟩
      · refine ⟨by omega, ?_⟩
        rwa [show emptyBits + continuousBits + (p - (offset + emptyBits + continuousBits)) =
          p - offset by omega] at hset

/-- The loop over the pages of a word goes through the maximal runs of its bits. -/
theorem iteratePages_spec (mask : BitVec 64) :
    MaximalRuns {p | mask.getLsbD p = true} (iteratePages mask) :=
  (iteratePagesFrom_spec 0 mask).congr fun p => by simp

/-! ## The loop over the words -/

theorem getLsbD_extractBits (word : BitVec 64) (pageStart pageEnd : Nat) (hb : b < 64) :
    (extractBits word pageStart pageEnd).getLsbD b =
      (word.getLsbD b && decide (pageStart ≤ b) && decide (b < pageEnd)) := by
  simp only [extractBits, getLsbD_ushiftRight, BitVec.getLsbD_shiftLeft]
  by_cases hstart : pageStart ≤ b
  · by_cases hend : b < pageEnd
    · have h1 : 64 - min pageEnd 64 + b < 64 := by omega
      have h2 : 64 - min pageEnd 64 + b - (64 - min pageEnd 64) = b := by omega
      have h3 : pageStart + (b - pageStart) = b := by omega
      have h4 : ¬b < pageStart := by omega
      simp [h1, h2, h3, h4, hstart, hend, hb]
    · have h1 : ¬64 - min pageEnd 64 + b < 64 := by omega
      simp [h1, hend]
  · have h2 : 64 - min pageEnd 64 + b - (64 - min pageEnd 64) = b := by omega
    have h4 : b < pageStart := by omega
    simp [h2, h4, hstart]

/-- The mask of the pages from `first` up to `last` in a word. -/
def windowMask (first last index : Nat) : BitVec 64 :=
  extractBits (allOnes 64) (first - 64 * index) (last - 64 * index)

theorem getLsbD_windowMask {first last index : Nat} (hb : b < 64) :
    (windowMask first last index).getLsbD b =
      decide (first ≤ 64 * index + b ∧ 64 * index + b < last) := by
  rw [windowMask, getLsbD_extractBits _ _ _ hb, BitVec.getLsbD_allOnes]
  rw [Bool.eq_iff_iff]
  simp only [hb, decide_true, Bool.true_and, Bool.and_eq_true, decide_eq_true_eq]
  omega

theorem iterateWordsLoop_zero (wordIndex startPage endPage : Nat) :
    iterateWordsLoop 0 wordIndex startPage endPage = [] := by
  rw [iterateWordsLoop]

theorem iterateWordsLoop_succ (left wordIndex startPage endPage : Nat) :
    iterateWordsLoop (left + 1) wordIndex startPage endPage =
      (wordIndex, extractBits (allOnes 64) startPage endPage) ::
        iterateWordsLoop left (wordIndex + 1) 0 ((endPage + 2 ^ 64 - 64) % 2 ^ 64) := by
  rw [iterateWordsLoop]

theorem iterateWordsLoop_eq {first last : Nat} (hlast : last < 2 ^ 64) (left : Nat) :
    ∀ index, first < 64 * (index + 1) → 64 * (index + left) < last + 64 →
      iterateWordsLoop left index (first - 64 * index) (last - 64 * index) =
        (range' index left).map fun i => (i, windowMask first last i) := by
  induction left with
  | zero =>
    intro index _ _
    rw [iterateWordsLoop_zero, range'_zero, map_nil]
  | succ left ih =>
    intro index hfirst hwords
    rw [iterateWordsLoop_succ, range'_succ, map_cons, windowMask]
    cases left with
    | zero => rw [iterateWordsLoop_zero, range'_zero, map_nil]
    | succ left =>
      rw [← ih (index + 1) (by omega) (by omega), show first - 64 * (index + 1) = 0 by omega,
        show (last - 64 * index + 2 ^ 64 - 64) % 2 ^ 64 = last - 64 * (index + 1) by omega]

/-- The first page of a window of bytes. -/
def firstPage (offset : Nat) : Nat := offset / 4096

/-- The page behind the last one of a window of bytes. -/
def endPage (offset size : Nat) : Nat := (offset + size + 4095) / 4096

/-- A window of bytes that is not empty, in a region of 4 MiB. -/
structure Window (m : WordManager) (offset size : Nat) : Prop where
  region : m.sizeBytes = 4194304
  pos : 0 < size
  inside : offset + size ≤ 4194304

theorem Window.iterateWords_eq {m : WordManager} {offset size : Nat} (h : Window m offset size) :
    m.iterateWords offset size = (range' (firstPage offset / 64)
        ((endPage offset size + 63) / 64 - firstPage offset / 64)).map fun i =>
        (i, windowMask (firstPage offset) (endPage offset size) i) := by
  obtain ⟨hm, hpos, hinside⟩ := h
  have hstart : clampSigned offset = offset := by
    rw [clampSigned, mod_eq_of_lt (by omega), if_pos (by omega)]
  have hstop : clampSigned (offset + size) = offset + size := by
    rw [clampSigned, mod_eq_of_lt (by omega), if_pos (by omega)]
  have hwords : m.numWords = 16 := by rw [numWords, hm]; rfl
  have hnot : ¬(offset ≥ m.sizeBytes ∨ offset + size ≤ offset) := by rw [hm]; omega
  simp only [WordManager.iterateWords, hstart, hstop, hwords, if_neg hnot, getWordPage,
    bytesPerWord, bytesPerPage, pagesPerWord]
  rw [← iterateWordsLoop_eq (by simp only [endPage]; omega) _ _ (by omega)
    (by simp only [endPage, firstPage]; omega)]
  simp only [firstPage, endPage]
  congr 1
  · omega
  · omega
  · omega
  · omega

/-! ## What happens to a page -/

/-- The states of a page of the region. -/
abbrev PageBits : Type := PageState → Bool

def pageBits (ws : Words) (q : Nat) : PageBits := fun s => (ws s (q / 64)).getLsbD (q % 64)

/-- What `ChangeRegionState` does to a page of its window. -/
def changeBits (state : PageState) (enable : Bool) (bits : PageBits) : PageBits := fun s =>
  if s = state then enable
  else if s = .untracked ∧ state.notifies = true then enable
  else if s = .cachedCpu ∧ state = .cpu then !enable && bits .cachedCpu && !bits .cpu
  else bits s

/-- What `ForEachModifiedRange` does to a page of its window when it clears. -/
def clearBits (state : PageState) (bits : PageBits) : PageBits :=
  if state = .gpu ∧ bits .untracked = true then bits else changeBits state false bits

/-- What `FlushCachedWrites` does to a page. -/
def flushBits (bits : PageBits) : PageBits := fun s =>
  match s with
  | .cpu => bits .cpu || bits .cachedCpu
  | .untracked => bits .untracked || bits .cachedCpu
  | .cachedCpu => false
  | _ => bits s

/-- A call for a word is about a page. -/
def concerns (call : Nat × BitVec 64) (q : Nat) : Bool :=
  decide (q / 64 = call.1) && call.2.getLsbD (q % 64)

theorem pageBits_changeWord (state : PageState) (enable : Bool) (ws : Words) (index : Nat)
    (mask : BitVec 64) (q : Nat) : pageBits (changeWord state enable ws index mask) q =
      if concerns (index, mask) q then changeBits state enable (pageBits ws q)
      else pageBits ws q := by
  have hq : q % 64 < 64 := mod_lt _ (by decide)
  funext s
  by_cases hi : q / 64 = index
  case neg =>
    have hout : concerns (index, mask) q = false := by simp [concerns, hi]
    simp only [hout]
    cases enable <;> cases state <;>
      simp [pageBits, changeWord, Words.set, PageState.notifies, hi]
  case pos =>
    subst hi
    cases hm : mask.getLsbD (q % 64) <;> cases enable <;> cases state <;> cases s <;>
      simp [-getLsbD_eq_getElem, pageBits, changeWord, Words.set,
        PageState.notifies, concerns, changeBits, hm, hq]

theorem pageBits_clearWord (state : PageState) (ws : Words) (index : Nat) (mask : BitVec 64)
    (q : Nat) : pageBits (clearWord state ws index (queryMask ws state index mask)) q =
      if concerns (index, mask) q then clearBits state (pageBits ws q) else pageBits ws q := by
  have hq : q % 64 < 64 := mod_lt _ (by decide)
  funext s
  by_cases hi : q / 64 = index
  case neg =>
    have hout : concerns (index, mask) q = false := by simp [concerns, hi]
    simp only [hout]
    cases state <;> simp [pageBits, clearWord, Words.set, PageState.notifies, hi]
  case pos =>
    subst hi
    cases hu : (ws .untracked (q / 64)).getLsbD (q % 64) <;>
      cases hm : mask.getLsbD (q % 64) <;> cases state <;> cases s <;>
      simp [-getLsbD_eq_getElem, pageBits, clearWord, queryMask,
        Words.set, PageState.notifies, concerns, clearBits, changeBits, hm, hq, hu]

theorem pageBits_flushWord (ws : Words) (index q : Nat) : pageBits (flushWord ws index) q =
      if q / 64 = index then flushBits (pageBits ws q) else pageBits ws q := by
  funext s
  by_cases hi : q / 64 = index
  case neg => cases s <;> simp [pageBits, flushWord, Words.set, hi]
  case pos =>
    subst hi
    cases s <;> simp [pageBits, flushWord, Words.set, flushBits]

/-! ## The counts of the device tracker -/

variable {base : Nat} {counts counts' : Counts}

theorem updatePagesCachedCount_apply (first length : Nat) (delta : Int) (p : Nat) :
    updatePagesCachedCount counts (4096 * first) (length * 4096) delta p =
      if first ≤ p ∧ p < first + length then counts p + delta else counts p := by
  have hiff : (4096 * first / bytesPerPage ≤ p ∧
      p < (4096 * first + length * 4096 + bytesPerPage - 1) / bytesPerPage) ↔
        (first ≤ p ∧ p < first + length) := by
    simp only [bytesPerPage]
    omega
  simp only [updatePagesCachedCount, hiff]

/-- The notifications for a list of runs change the count of a page once if it is in one of them,
and not at all if it is in none. -/
theorem foldl_updatePagesCachedCount (base : Nat) (delta : Int) {runs : List (Nat × Nat)}
    (h : Ascending runs) (counts : Counts) (p : Nat) :
    (Covered runs p → runs.foldl (fun counts run =>
      updatePagesCachedCount counts (4096 * (base + run.1)) (run.2 * 4096) delta) counts (base + p) =
        counts (base + p) + delta) ∧
    (¬Covered runs p → runs.foldl (fun counts run =>
      updatePagesCachedCount counts (4096 * (base + run.1)) (run.2 * 4096) delta) counts (base + p) =
        counts (base + p)) := by
  induction runs generalizing counts with
  | nil => exact ⟨fun h => absurd h not_covered_nil, fun _ => rfl⟩
  | cons r runs ih =>
    have hruns : Ascending runs := ⟨fun t ht => h.pos t (mem_cons_of_mem r ht), h.ordered.of_cons⟩
    have hbehind : r.1 ≤ p → p < r.1 + r.2 → ¬Covered runs p := by
      rintro - hlt ⟨t, ht, htle, -⟩
      have := (pairwise_cons.mp h.ordered).1 t ht
      omega
    simp only [foldl_cons, covered_cons]
    by_cases hr : r.1 ≤ p ∧ p < r.1 + r.2
    · refine ⟨fun _ => ?_, fun hnot => absurd (.inl hr) hnot⟩
      rw [(ih hruns _).2 (hbehind hr.1 hr.2), updatePagesCachedCount_apply, if_pos (by omega)]
    · have hsame : updatePagesCachedCount counts (4096 * (base + r.1)) (r.2 * 4096) delta
          (base + p) = counts (base + p) := by
        rw [updatePagesCachedCount_apply, if_neg (by omega)]
      refine ⟨fun hcov => ?_, fun hnot => ?_⟩
      · rw [(ih hruns _).1 (hcov.resolve_left hr), hsame]
      · rw [(ih hruns _).2 fun hcov => hnot (.inr hcov), hsame]

theorem foldl_updatePagesCachedCount_below (delta : Int) (runs : List (Nat × Nat)) {p : Nat}
    (hp : p < base) : runs.foldl (fun counts run =>
      updatePagesCachedCount counts (4096 * (base + run.1)) (run.2 * 4096) delta) counts p =
        counts p := by
  induction runs generalizing counts with
  | nil => rfl
  | cons r runs ih =>
    rw [foldl_cons, ih, updatePagesCachedCount_apply, if_neg (by omega)]

/-- The bits of a word that change when pages are added to the tracker, or taken from it. -/
def changedBits (addToTracker : Bool) (currentBits newBits : BitVec 64) : BitVec 64 :=
  (if addToTracker then currentBits else ~~~currentBits) &&& newBits

section

variable (addToTracker : Bool) (wordIndex : Nat) (currentBits newBits : BitVec 64)
include addToTracker wordIndex currentBits newBits

theorem notifyRasterizer_eq :
    notifyRasterizer addToTracker (4096 * base) wordIndex currentBits newBits counts =
      (iteratePages (changedBits addToTracker currentBits newBits)).foldl (fun counts run =>
        updatePagesCachedCount counts (4096 * (base + 64 * wordIndex + run.1)) (run.2 * 4096)
          (if addToTracker then 1 else -1)) counts := by
  have haddr : ∀ o, 4096 * base + wordIndex * bytesPerWord + o * bytesPerPage =
      4096 * (base + 64 * wordIndex + o) := by
    intro o
    simp only [bytesPerWord, bytesPerPage]
    omega
  simp only [notifyRasterizer, changedBits, haddr, bytesPerPage]

/-- A notification counts the pages of the word whose bits change. -/
theorem notifyRasterizer_apply (q : Nat) :
    notifyRasterizer addToTracker (4096 * base) wordIndex currentBits newBits counts (base + q) =
      if concerns (wordIndex, changedBits addToTracker currentBits newBits) q then
        counts (base + q) + (if addToTracker then 1 else -1)
      else counts (base + q) := by
  rw [notifyRasterizer_eq]
  have hruns := iteratePages_spec (changedBits addToTracker currentBits newBits)
  by_cases hbelow : q < 64 * wordIndex
  case pos =>
    have hout : concerns (wordIndex, changedBits addToTracker currentBits newBits) q = false := by
      have hne : q / 64 ≠ wordIndex := by omega
      simp [concerns, hne]
    rw [foldl_updatePagesCachedCount_below _ _ (by omega), hout]
    rfl
  case neg =>
    have hsplit : base + q = base + 64 * wordIndex + (q - 64 * wordIndex) := by omega
    have hfold := foldl_updatePagesCachedCount (base + 64 * wordIndex)
      (if addToTracker then 1 else -1) hruns.ascending counts (q - 64 * wordIndex)
    have hconcerns : concerns (wordIndex, changedBits addToTracker currentBits newBits) q = true ↔
        Covered (iteratePages (changedBits addToTracker currentBits newBits))
          (q - 64 * wordIndex) := by
      rw [← hruns.covered, Set.mem_ofPred_eq]
      by_cases hi : q / 64 = wordIndex
      · have hmod : q % 64 = q - 64 * wordIndex := by omega
        simp [concerns, hi, hmod]
      · have hge : 64 ≤ q - 64 * wordIndex := by omega
        simp [concerns, hi, getLsbD_of_ge _ _ hge]
    rw [← hsplit] at hfold
    by_cases hcov : Covered (iteratePages (changedBits addToTracker currentBits newBits))
        (q - 64 * wordIndex)
    · rw [hfold.1 hcov, if_pos (hconcerns.mpr hcov)]
    · rw [hfold.2 hcov, if_neg fun hc => hcov (hconcerns.mp hc)]

theorem notifyRasterizer_below {p : Nat} (hp : p < base) :
    notifyRasterizer addToTracker (4096 * base) wordIndex currentBits newBits counts p =
      counts p := by
  rw [notifyRasterizer_eq]
  exact foldl_updatePagesCachedCount_below _ _ (by omega)

end

/-! ## Operations on a window of pages -/

/-- The number that a page which is not tracked adds to its count. -/
def untrackedUnit (bits : PageBits) : Int := if bits .untracked then 1 else 0

/-- An operation changes the pages of a set, each in the same way. The count of a page in the
tracker goes down when the page becomes untracked, and up when it becomes tracked; so the count and
the unit of an untracked page have the same sum before and after. -/
structure Affects (base : Nat) (Q : Nat → Bool) (f : PageBits → PageBits)
    (a a' : Words × Counts) : Prop where
  bits : ∀ q, pageBits a'.1 q = if Q q then f (pageBits a.1 q) else pageBits a.1 q
  balance : ∀ q, a'.2 (base + q) + untrackedUnit (pageBits a'.1 q) =
    a.2 (base + q) + untrackedUnit (pageBits a.1 q)
  below : ∀ p < base, a'.2 p = a.2 p

variable {Q Q' : Nat → Bool} {f : PageBits → PageBits} {a a' a'' : Words × Counts}

theorem Affects.none (base : Nat) (f : PageBits → PageBits) (a : Words × Counts) :
    Affects base (fun _ => false) f a a :=
  ⟨fun _ => rfl, fun _ => rfl, fun _ _ => rfl⟩

theorem Affects.trans (h : Affects base Q f a a') (h' : Affects base Q' f a' a'')
    (hdisjoint : ∀ q, Q q = true → Q' q = false) : Affects base (fun q => Q q || Q' q) f a a'' := by
  refine ⟨fun q => ?_, fun q => (h'.balance q).trans (h.balance q),
    fun p hp => (h'.below p hp).trans (h.below p hp)⟩
  rw [h'.bits, h.bits]
  cases hq : Q q with
  | true => simp [hdisjoint q hq]
  | false => simp

theorem Affects.congr (h : Affects base Q f a a') (hQ : ∀ q, Q' q = Q q) :
    Affects base Q' f a a' := by
  have heq : Q' = Q := funext hQ
  rw [heq]
  exact h

/-- The pages that the calls of a loop over the words are about. -/
def concerned (calls : List (Nat × BitVec 64)) (q : Nat) : Bool := calls.any (concerns · q)

theorem concerns_index {call : Nat × BitVec 64} {q : Nat} (h : concerns call q = true) :
    q / 64 = call.1 := by
  simp only [concerns, Bool.and_eq_true, decide_eq_true_eq] at h
  exact h.1

/-- A loop over words changes the pages of all its calls. -/
theorem affects_foldl {σ : Type} (π : σ → Words × Counts) {step : σ → Nat × BitVec 64 → σ}
    (hstep : ∀ a call, Affects base (concerns call) f (π a) (π (step a call)))
    (hcalls : calls.Pairwise fun c d => c.1 < d.1) (a : σ) :
    Affects base (concerned calls) f (π a) (π (calls.foldl step a)) := by
  induction calls generalizing a with
  | nil => exact .none base f (π a)
  | cons call calls ih =>
    rw [foldl_cons]
    refine ((hstep a call).trans (ih hcalls.of_cons (step a call)) fun q hq => ?_).congr
      fun q => rfl
    rw [concerned, any_eq_false]
    intro other hmem hother
    have hlt := (pairwise_cons.mp hcalls).1 other hmem
    have hindex := concerns_index hq
    have hindex' := concerns_index hother
    omega

variable {m : WordManager} {offset size : Nat}

theorem Window.calls_ascending (h : Window m offset size) :
    (m.iterateWords offset size).Pairwise fun c d => c.1 < d.1 := by
  rw [h.iterateWords_eq]
  exact pairwise_map.mpr (pairwise_lt_range' _)

/-- The pages of a window. -/
def inWindow (offset size q : Nat) : Bool := decide (firstPage offset ≤ q ∧ q < endPage offset size)

theorem Window.concerned_eq (h : Window m offset size) (q : Nat) :
    concerned (m.iterateWords offset size) q = inWindow offset size q := by
  have hq : q % 64 < 64 := mod_lt _ (by decide)
  have hdiv : 64 * (q / 64) + q % 64 = q := div_add_mod q 64
  rw [h.iterateWords_eq, Bool.eq_iff_iff, concerned, any_eq_true]
  simp only [mem_map, mem_range'_1]
  constructor
  case mp =>
    rintro ⟨_, ⟨i, -, rfl⟩, hcall⟩
    have hi := concerns_index hcall
    simp only [concerns, Bool.and_eq_true, decide_eq_true_eq] at hcall
    subst hi
    rw [getLsbD_windowMask hq, hdiv] at hcall
    exact hcall.2
  case mpr =>
    intro hin
    have hbounds := of_decide_eq_true hin
    refine ⟨_, ⟨q / 64, ⟨by omega, by omega⟩, rfl⟩, ?_⟩
    simp only [concerns, decide_true, Bool.true_and]
    rw [getLsbD_windowMask hq, hdiv]
    exact hin

theorem getLsbD_changedBits (addToTracker : Bool) (currentBits newBits : BitVec 64)
    (hb : b < 64) : (changedBits addToTracker currentBits newBits).getLsbD b =
      ((addToTracker == currentBits.getLsbD b) && newBits.getLsbD b) := by
  cases addToTracker with
  | true => simp [-getLsbD_eq_getElem, changedBits]
  | false => simp [-getLsbD_eq_getElem, changedBits, hb]

/-- Setting or clearing the untracked bits of a word, with the notification for it, keeps the
balance of the counts. -/
theorem balance_notify (enable : Bool) (ws ws' : Words) (index : Nat) (mask : BitVec 64) (q : Nat)
    (hbits : pageBits ws' q .untracked = if concerns (index, mask) q then enable
      else pageBits ws q .untracked) :
    notifyRasterizer (!enable) (4096 * base) index (ws .untracked index) mask counts (base + q) +
        untrackedUnit (pageBits ws' q) = counts (base + q) + untrackedUnit (pageBits ws q) := by
  have hq : q % 64 < 64 := mod_lt _ (by decide)
  rw [notifyRasterizer_apply, untrackedUnit, untrackedUnit, hbits]
  by_cases hi : q / 64 = index
  case neg => simp [concerns, hi]
  case pos =>
    subst hi
    simp only [concerns, decide_true, Bool.true_and, getLsbD_changedBits _ _ _ hq, pageBits]
    rcases Bool.eq_false_or_eq_true ((ws .untracked (q / 64)).getLsbD (q % 64)) with hu | hu <;>
      cases enable <;> cases mask.getLsbD (q % 64) <;> simp [-getLsbD_eq_getElem, hu]

theorem changeCall_affects (state : PageState) (enable : Bool) (hstate : state ≠ .untracked)
    (a : Words × Counts) (call : Nat × BitVec 64) :
    Affects base (concerns call) (changeBits state enable) a
      (changeCall state enable (4096 * base) a call) := by
  have hbits := pageBits_changeWord state enable a.1 call.1 call.2
  refine ⟨hbits, fun q => ?_, fun p hp => ?_⟩
  · rw [changeCall]
    by_cases hnotifies : state.notifies = true
    · rw [if_pos hnotifies]
      refine balance_notify enable a.1 _ call.1 call.2 q ?_
      rw [hbits]
      split
      · simp [changeBits, hnotifies]
      · rfl
    · rw [if_neg hnotifies]
      have hsame : pageBits (changeWord state enable a.1 call.1 call.2) q .untracked =
          pageBits a.1 q .untracked := by
        rw [hbits]
        split
        · simp [changeBits, hnotifies, Ne.symm hstate]
        · rfl
      simp only [untrackedUnit, hsame]
  · rw [changeCall]
    dsimp only
    split
    · exact notifyRasterizer_below _ _ _ _ hp
    · rfl

theorem clearCall_affects (state : PageState) (hstate : state ≠ .untracked)
    (a : Words × Counts × List (Nat × Nat)) (call : Nat × BitVec 64) :
    Affects base (concerns call) (clearBits state) (a.1, a.2.1)
      ((sweepWord state true (4096 * base) a call).1,
        (sweepWord state true (4096 * base) a call).2.1) := by
  have hbits := pageBits_clearWord state a.1 call.1 call.2
  refine ⟨hbits, fun q => ?_, fun p hp => ?_⟩
  · simp only [sweepWord, if_true, Bool.true_and]
    by_cases hnotifies : state.notifies = true
    · have hgpu : state ≠ .gpu := by
        rintro rfl
        cases hnotifies
      rw [if_pos hnotifies, queryMask, if_neg hgpu]
      rw [queryMask, if_neg hgpu] at hbits
      refine balance_notify false a.1 _ call.1 call.2 q ?_
      rw [hbits]
      split
      · simp [clearBits, changeBits, hnotifies, hgpu]
      · rfl
    · rw [if_neg hnotifies]
      have hsame : pageBits (clearWord state a.1 call.1
          (queryMask a.1 state call.1 call.2)) q .untracked =
            pageBits a.1 q .untracked := by
        rw [hbits]
        split
        · simp only [clearBits]
          split
          · rfl
          · simp [changeBits, hnotifies, Ne.symm hstate]
        · rfl
      simp only [untrackedUnit, hsame]
  · simp only [sweepWord, if_true, Bool.true_and]
    split
    · exact notifyRasterizer_below _ _ _ _ hp
    · rfl

theorem flushCall_affects (a : Words × Counts) (index : Nat) :
    Affects base (fun q => decide (q / 64 = index)) flushBits a
      (flushCall (4096 * base) a index) := by
  have hbits := pageBits_flushWord a.1 index
  refine ⟨fun q => ?_, fun q => ?_, fun p hp => notifyRasterizer_below _ _ _ _ hp⟩
  · rw [flushCall, hbits]
    simp only [decide_eq_true_eq]
  · refine balance_notify true a.1 _ index (a.1 .cachedCpu index) q ?_
    rw [flushCall, hbits]
    by_cases hi : q / 64 = index
    · subst hi
      rw [if_pos rfl]
      simp only [flushBits, concerns, decide_true, Bool.true_and, pageBits]
      cases (a.1 .cachedCpu (q / 64)).getLsbD (q % 64) with
      | true => simp
      | false => simp
    · simp [hi, concerns]

/-! ## The operations of the manager -/

/-- A manager of the region whose first page is `base`. -/
structure Manages (base : Nat) (m : WordManager) : Prop where
  addr : m.cpuAddr = 4096 * base
  region : m.sizeBytes = 4194304
  bounded : m.cpuAddr + 4194304 ≤ 2 ^ 64

theorem Manages.withWords (h : Manages base m) (ws : Words) :
    Manages base { m with words := ws } where
  addr := h.addr
  region := h.region
  bounded := h.bounded

/-- The window of an operation in the region of a manager. -/
structure Piece (offset size : Nat) : Prop where
  pos : 0 < size
  inside : offset + size ≤ 4194304

section

variable (h : Manages base m) (hpiece : Piece offset size)
include h hpiece

theorem Manages.window : Window m offset size :=
  ⟨h.region, hpiece.pos, hpiece.inside⟩

theorem Manages.offsetOf : m.offsetOf (m.cpuAddr + offset) = offset := by
  have := h.bounded
  have := hpiece.inside
  have := hpiece.pos
  rw [WordManager.offsetOf]
  omega

theorem Manages.changeRegionState
    (state : PageState) (enable : Bool) (hstate : state ≠ .untracked) :
    Affects base (inWindow offset size) (changeBits state enable) (m.words, counts)
        ((m.changeRegionState state enable (m.cpuAddr + offset) size counts).1.words,
          (m.changeRegionState state enable (m.cpuAddr + offset) size counts).2) ∧
      Manages base (m.changeRegionState state enable (m.cpuAddr + offset) size counts).1 := by
  refine ⟨?_, h.withWords _⟩
  simp only [WordManager.changeRegionState, h.offsetOf hpiece]
  rw [h.addr]
  exact (affects_foldl id (fun a call => changeCall_affects state enable hstate a call)
    (h.window hpiece).calls_ascending (m.words, counts)).congr
      fun q => ((h.window hpiece).concerned_eq q).symm

end

theorem Manages.flushCachedWrites (h : Manages base m) :
    Affects base (fun q => decide (q < 1024)) flushBits (m.words, counts)
        ((m.flushCachedWrites counts).1.words, (m.flushCachedWrites counts).2) ∧
      Manages base (m.flushCachedWrites counts).1 := by
  refine ⟨?_, h.withWords _⟩
  have hwords : m.numWords = 16 := by rw [numWords, h.region]; rfl
  simp only [WordManager.flushCachedWrites, hwords, h.addr]
  have hloop : ∀ n, Affects base (fun q => decide (q < 64 * n)) flushBits (m.words, counts)
      ((range n).foldl (flushCall (4096 * base)) (m.words, counts)) := by
    intro n
    induction n with
    | zero => exact (Affects.none base flushBits _).congr fun q => by simp
    | succ n ih =>
      rw [range_succ, foldl_append, foldl_cons, foldl_nil]
      refine (ih.trans (flushCall_affects _ n) fun q hq => ?_).congr fun q => ?_
      · have hlt := of_decide_eq_true hq
        exact decide_eq_false (by omega)
      · rw [Bool.eq_iff_iff]
        simp only [Bool.or_eq_true, decide_eq_true_eq]
        omega
  exact (hloop 16).congr fun q => by simp

/-! ## Modified pages -/

/-- The pages that a query for a state finds: for the GPU only tracked ones. -/
def modified (state : PageState) (bits : PageBits) : Bool :=
  bits state && !(decide (state = .gpu) && bits .untracked)

/-- The bits of a word that a query with a mask looks at and finds. -/
theorem getLsbD_queryMask (state : PageState) (ws : Words) (mask : BitVec 64) (q : Nat) :
    (ws state (q / 64) &&& queryMask ws state (q / 64) mask).getLsbD (q % 64) =
      (modified state (pageBits ws q) && mask.getLsbD (q % 64)) := by
  have hq : q % 64 < 64 := mod_lt _ (by decide)
  rw [queryMask, modified]
  by_cases hgpu : state = .gpu
  · simp only [hgpu, if_true, decide_true, Bool.true_and, BitVec.getLsbD_and, BitVec.getLsbD_not, hq,
      pageBits]
    cases mask.getLsbD (q % 64) <;> simp [-getLsbD_eq_getElem]
  · simp [-getLsbD_eq_getElem, hgpu, pageBits]

/-- The runs of modified pages of the words of a loop. -/
def modifiedRuns (state : PageState) (ws : Words) (calls : List (Nat × BitVec 64)) :
    List (Nat × Nat) :=
  calls.flatMap fun call => Intervals.shift (call.1 * 64)
    (iteratePages (ws state call.1 &&& queryMask ws state call.1 call.2))

theorem sweepWord_words_of_ne (state : PageState) (clear : Bool) (cpuAddr : Nat)
    (acc : Words × Counts × List (Nat × Nat)) (call : Nat × BitVec 64) (s : PageState) {i : Nat}
    (hi : i ≠ call.1) : (sweepWord state clear cpuAddr acc call).1 s i = acc.1 s i := by
  cases clear with
  | false => rfl
  | true =>
    simp only [sweepWord, if_true, clearWord]
    split <;> split <;> simp [Words.set, hi]

/-- The loop finds the runs of the words as they were before it. -/
theorem sweep_runs (state : PageState) (clear : Bool) (cpuAddr : Nat)
    (hcalls : calls.Pairwise fun c d => c.1 < d.1) (acc : Words × Counts × List (Nat × Nat)) :
    (calls.foldl (sweepWord state clear cpuAddr) acc).2.2 =
      acc.2.2 ++ modifiedRuns state acc.1 calls := by
  induction calls generalizing acc with
  | nil => simp [modifiedRuns]
  | cons call calls ih =>
    rw [foldl_cons, ih hcalls.of_cons]
    have hsame : modifiedRuns state (sweepWord state clear cpuAddr acc call).1 calls =
        modifiedRuns state acc.1 calls := by
      refine flatMap_congr fun other hmem => ?_
      have hlt := (pairwise_cons.mp hcalls).1 other hmem
      have hwords := fun s => sweepWord_words_of_ne state clear cpuAddr acc call s
        (ne_of_gt hlt)
      simp only [hwords, queryMask]
    rw [hsame, modifiedRuns, modifiedRuns, flatMap_cons, ← append_assoc]
    rfl

theorem mem_iteratePages_le {mask : BitVec 64} {r : Nat × Nat} (hr : r ∈ iteratePages mask) :
    r.1 + r.2 ≤ 64 := by
  have hspec := iteratePages_spec mask
  have hpos := hspec.pos r hr
  have hmem : r.1 + r.2 - 1 ∈ {p | mask.getLsbD p = true} :=
    (hspec.covered _).mpr ⟨r, hr, by omega, by omega⟩
  by_contra hgt
  have hfalse : mask.getLsbD (r.1 + r.2 - 1) = false := getLsbD_of_ge _ _ (by omega)
  rw [Set.mem_ofPred_eq, hfalse] at hmem
  cases hmem

theorem modifiedRuns_ascending (state : PageState) (ws : Words)
    (hcalls : calls.Pairwise fun c d => c.1 < d.1) : Ascending (modifiedRuns state ws calls) := by
  induction calls with
  | nil => exact ⟨fun r hr => absurd hr not_mem_nil, List.Pairwise.nil⟩
  | cons call calls ih =>
    rw [modifiedRuns, flatMap_cons]
    refine ((iteratePages_spec _).shift _).ascending.append (ih hcalls.of_cons) ?_
    intro r hr t ht
    obtain ⟨r', hr', rfl⟩ := mem_map.mp hr
    obtain ⟨other, hother, ht⟩ := mem_flatMap.mp ht
    obtain ⟨t', -, rfl⟩ := mem_map.mp ht
    have hle := mem_iteratePages_le hr'
    have hlt := (pairwise_cons.mp hcalls).1 other hother
    dsimp only
    omega

theorem covered_modifiedRuns (state : PageState) (ws : Words) (calls : List (Nat × BitVec 64))
    (q : Nat) : Covered (modifiedRuns state ws calls) q ↔
      concerned calls q = true ∧ modified state (pageBits ws q) = true := by
  have hword : ∀ call : Nat × BitVec 64, Covered (Intervals.shift (call.1 * 64)
        (iteratePages (ws state call.1 &&& queryMask ws state call.1 call.2))) q ↔
        concerns call q = true ∧ modified state (pageBits ws q) = true := by
    intro call
    rw [covered_shift, ← (iteratePages_spec _).covered, Set.mem_ofPred_eq]
    by_cases hi : q / 64 = call.1
    · have hmod : q - call.1 * 64 = q % 64 := by omega
      have hle : call.1 * 64 ≤ q := by omega
      rw [hmod, ← hi, getLsbD_queryMask]
      simp only [concerns, hi, hle, decide_true, Bool.true_and, Bool.and_eq_true, true_and]
      exact and_comm
    · have hconcerns : concerns call q = false := by simp [concerns, hi]
      rw [hconcerns]
      refine iff_of_false ?_ (by simp)
      rintro ⟨hle, hbit⟩
      rw [getLsbD_of_ge _ _ (by omega)] at hbit
      cases hbit
  rw [concerned, any_eq_true]
  constructor
  case mp =>
    rintro ⟨r, hr, hle, hlt⟩
    obtain ⟨call, hcall, hr⟩ := mem_flatMap.mp hr
    obtain ⟨hconcerns, hmodified⟩ := (hword call).mp ⟨r, hr, hle, hlt⟩
    exact ⟨⟨call, hcall, hconcerns⟩, hmodified⟩
  case mpr =>
    rintro ⟨⟨call, hcall, hconcerns⟩, hmodified⟩
    obtain ⟨r, hr, hle, hlt⟩ := (hword call).mpr ⟨hconcerns, hmodified⟩
    exact ⟨r, mem_flatMap.mpr ⟨call, hcall, hr⟩, hle, hlt⟩

/-- What `ForEachModifiedRange` does to a page of its window. -/
def sweepBits (state : PageState) (clear : Bool) : PageBits → PageBits :=
  if clear then clearBits state else id

theorem sweepWord_affects (state : PageState) (clear : Bool) (hstate : state ≠ .untracked)
    (a : Words × Counts × List (Nat × Nat)) (call : Nat × BitVec 64) :
    Affects base (concerns call) (sweepBits state clear) (a.1, a.2.1)
      ((sweepWord state clear (4096 * base) a call).1,
        (sweepWord state clear (4096 * base) a call).2.1) := by
  cases clear with
  | true => exact clearCall_affects state hstate a call
  | false =>
    refine ⟨fun q => ?_, fun _ => rfl, fun _ _ => rfl⟩
    exact (ite_self _).symm

/-- `ForEachModifiedRange` reports the maximal runs of the modified pages of its window, and clears
these if it is to. -/
theorem Manages.forEachModifiedRange (h : Manages base m) (hpiece : Piece offset size)
    (state : PageState) (clear : Bool) (hstate : state ≠ .untracked) :
    Affects base (inWindow offset size) (sweepBits state clear) (m.words, counts)
        ((m.forEachModifiedRange state clear (m.cpuAddr + offset) size counts).1.words,
          (m.forEachModifiedRange state clear (m.cpuAddr + offset) size counts).2.1) ∧
      Manages base (m.forEachModifiedRange state clear (m.cpuAddr + offset) size counts).1 ∧
      ∃ runs, MaximalRuns {q | inWindow offset size q = true ∧
          modified state (pageBits m.words q) = true} runs ∧
        (m.forEachModifiedRange state clear (m.cpuAddr + offset) size counts).2.2 =
          runs.map fun run => (4096 * (base + run.1), 4096 * run.2) := by
  have hcalls := (h.window hpiece).calls_ascending
  refine ⟨?_, h.withWords _, ?_⟩
  · simp only [WordManager.forEachModifiedRange, h.offsetOf hpiece]
    rw [h.addr]
    exact (affects_foldl (fun a => (a.1, a.2.1))
      (fun a call => sweepWord_affects state clear hstate a call) hcalls
      (m.words, counts, [])).congr fun q => ((h.window hpiece).concerned_eq q).symm
  · refine ⟨Intervals.stitch (modifiedRuns state m.words (m.iterateWords offset size)), ?_, ?_⟩
    · refine (stitch_spec (modifiedRuns_ascending state m.words hcalls)).congr fun q => ?_
      rw [Set.mem_ofPred_eq, Set.mem_ofPred_eq, covered_modifiedRuns,
        (h.window hpiece).concerned_eq]
    · simp only [WordManager.forEachModifiedRange, h.offsetOf hpiece, sweep_runs _ _ _ hcalls,
        nil_append]
      refine map_congr_left fun run _ => ?_
      rw [h.addr, Prod.mk.injEq]
      simp only [bytesPerPage]
      omega

/-! ## Queries -/

/-- A word that a query finds pages in. -/
theorem getLsbD_query (state : PageState) (ws : Words) (call : Nat × BitVec 64) (b : Nat) :
    (ws state call.1 &&& queryMask ws state call.1 call.2).getLsbD b = true ↔
      b < 64 ∧ concerns call (64 * call.1 + b) = true ∧
        modified state (pageBits ws (64 * call.1 + b)) = true := by
  by_cases hb : b < 64
  · have hdiv : (64 * call.1 + b) / 64 = call.1 := by omega
    have hmod : (64 * call.1 + b) % 64 = b := by omega
    have hquery := getLsbD_queryMask state ws call.2 (64 * call.1 + b)
    rw [hdiv, hmod] at hquery
    rw [hquery]
    simp only [concerns, hdiv, hmod, hb, decide_true, Bool.true_and, Bool.and_eq_true, true_and]
    exact and_comm
  · rw [getLsbD_of_ge _ _ (Nat.le_of_not_lt hb)]
    simp [hb]

theorem Manages.isRegionModified (h : Manages base m) (hpiece : Piece offset size)
    (state : PageState) : m.isRegionModified state offset size = true ↔
      ∃ q, inWindow offset size q = true ∧ modified state (pageBits m.words q) = true := by
  simp only [WordManager.isRegionModified, any_eq_true, bne_iff_ne, ne_eq,
    ← (h.window hpiece).concerned_eq, concerned]
  constructor
  case mp =>
    rintro ⟨call, hcall, hword⟩
    have hbit := BitVec.getLsbD_true_ctz_of_ne_zero hword
    obtain ⟨-, hconcerns, hmodified⟩ := (getLsbD_query state m.words call _).mp hbit
    exact ⟨_, ⟨call, hcall, hconcerns⟩, hmodified⟩
  case mpr =>
    rintro ⟨q, ⟨call, hcall, hconcerns⟩, hmodified⟩
    refine ⟨call, hcall, ne_zero_of_getLsbD (i := q % 64) ?_⟩
    have hq : 64 * call.1 + q % 64 = q := by
      have := concerns_index hconcerns
      omega
    rw [getLsbD_query, hq]
    exact ⟨mod_lt _ (by decide), hconcerns, hmodified⟩

/-- The bytes from the first page of a set to the last. -/
def Spans (S : Set Nat) (range : Nat × Nat) : Prop :=
  ((∀ p, p ∉ S) ∧ range = (0, 0)) ∨
    ∃ first last, IsLeast S first ∧ IsGreatest S last ∧ range = (4096 * first, 4096 * (last + 1))

/-- The first page and the end that a loop over words has found in a set of pages. -/
structure Extremes (S : Set Nat) (acc : Nat × Nat) : Prop where
  empty : (∀ q, q ∉ S) → acc = (u64Max, 0)
  nonempty : ∀ q ∈ S, IsLeast S acc.1 ∧ ∃ last, IsGreatest S last ∧ acc.2 = last + 1

theorem regionCall_extremes (state : PageState) {S : Set Nat} {acc : Nat × Nat}
    (h : Extremes S acc) (call : Nat × BitVec 64) (hbefore : ∀ q ∈ S, q < 64 * call.1)
    (hbound : 64 * call.1 + 64 ≤ u64Max) :
    Extremes {q | q ∈ S ∨ concerns call q = true ∧ modified state (pageBits m.words q) = true}
      (m.regionCall state acc call) := by
  have hquery := getLsbD_query state m.words call
  have hindex : ∀ q, concerns call q = true → 64 * call.1 + q % 64 = q := by
    intro q hq
    have := concerns_index hq
    omega
  rw [WordManager.regionCall]
  split
  case isTrue hzero =>
    have hnone : ∀ q, ¬(concerns call q = true ∧ modified state (pageBits m.words q) = true) := by
      rintro q ⟨hconcerns, hmodified⟩
      have hbit := (hquery (q % 64)).mpr ⟨mod_lt _ (by decide),
        by rw [hindex q hconcerns]; exact ⟨hconcerns, hmodified⟩⟩
      rw [hzero, getLsbD_zero] at hbit
      cases hbit
    have hset : {q | q ∈ S ∨ concerns call q = true ∧
        modified state (pageBits m.words q) = true} = S := by
      ext q
      exact ⟨fun hq => hq.resolve_right (hnone q), .inl⟩
    rw [hset]
    exact h
  case isFalse hword =>
    have hfirst := (hquery _).mp (BitVec.getLsbD_true_ctz_of_ne_zero hword)
    have hlast := (hquery _).mp (BitVec.getLsbD_true_clz_of_ne_zero (by decide) hword)
    have hclz := clz_toNat_lt hword
    have hctz := ctz_toNat_lt hword
    -- the pages of the word lie between its first one and its last one
    have hbetween : ∀ q, concerns call q = true ∧ modified state (pageBits m.words q) = true →
        (m.words state call.1 &&& queryMask m.words state call.1 call.2).ctz.toNat ≤
            q % 64 ∧ q % 64 < 64 -
          (m.words state call.1 &&& queryMask m.words state call.1 call.2).clz.toNat := by
      rintro q ⟨hconcerns, hmodified⟩
      have hbit := (hquery (q % 64)).mpr ⟨mod_lt _ (by decide),
        by rw [hindex q hconcerns]; exact ⟨hconcerns, hmodified⟩⟩
      refine ⟨?_, lt_sub_clz_of_getLsbD hbit⟩
      by_contra hlt
      rw [BitVec.getLsbD_false_of_lt_ctz (Nat.lt_of_not_le hlt)] at hbit
      cases hbit
    generalize (m.words state call.1 &&&
      queryMask m.words state call.1 call.2).ctz.toNat = c at *
    generalize (m.words state call.1 &&&
      queryMask m.words state call.1 call.2).clz.toNat = d at *
    refine ⟨fun hempty => absurd (.inr hfirst.2) (hempty _), fun _ _ => ⟨?_, ?_⟩⟩
    · by_cases hS : ∃ q, q ∈ S
      · obtain ⟨q, hq⟩ := hS
        have hleast := (h.nonempty q hq).1
        have hlt := hbefore _ hleast.1
        have hmin : min acc.1 (call.1 * pagesPerWord + c) = acc.1 :=
          min_eq_left (by simp only [pagesPerWord]; omega)
        rw [hmin]
        refine ⟨.inl hleast.1, ?_⟩
        rintro p (hp | hp)
        · exact hleast.2 hp
        · have := hindex p hp.1
          omega
      · have hacc := h.empty fun q hq => hS ⟨q, hq⟩
        have hmin : min acc.1 (call.1 * pagesPerWord + c) = 64 * call.1 + c := by
          rw [hacc, mul_comm]
          exact min_eq_right (by simp only [pagesPerWord]; omega)
        rw [hmin]
        refine ⟨.inr hfirst.2, ?_⟩
        rintro p (hp | hp)
        · exact absurd ⟨p, hp⟩ hS
        · have := hindex p hp.1
          have := hbetween p hp
          omega
    · refine ⟨64 * call.1 + (64 - 1 - d), ⟨.inr hlast.2, ?_⟩, ?_⟩
      · rintro p (hp | hp)
        · have := hbefore p hp
          omega
        · have := hindex p hp.1
          have := hbetween p hp
          omega
      · simp only [pagesPerWord]
        omega

theorem Window.index_lt (h : Window m offset size) {call : Nat × BitVec 64}
    (hcall : call ∈ m.iterateWords offset size) : call.1 < 16 := by
  rw [h.iterateWords_eq] at hcall
  obtain ⟨i, hi, rfl⟩ := mem_map.mp hcall
  have hinside := h.inside
  rw [mem_range'_1] at hi
  simp only [endPage, firstPage] at hi
  dsimp only
  omega

theorem foldl_regionCall_extremes (state : PageState)
    (hcalls : calls.Pairwise fun c d => c.1 < d.1) (hbound : ∀ call ∈ calls, call.1 < 16) :
    Extremes {q | concerned calls q = true ∧ modified state (pageBits m.words q) = true}
      (calls.foldl (m.regionCall state) (u64Max, 0)) := by
  induction calls using reverseRecOn with
  | nil => exact ⟨fun _ => rfl, fun q hq => absurd hq.1 (by simp [concerned])⟩
  | append_singleton calls call ih =>
    obtain ⟨hfront, -, hbefore⟩ := pairwise_append.mp hcalls
    have hlt := hbound call (mem_append_right _ mem_cons_self)
    have hprev := ih hfront fun c hc => hbound c (mem_append_left _ hc)
    rw [foldl_append, foldl_cons, foldl_nil]
    have hnext := regionCall_extremes (m := m) state hprev call ?before
      (by simp only [u64Max]; omega)
    case before =>
      rintro q ⟨hq, -⟩
      obtain ⟨c, hc, hconcerns⟩ := any_eq_true.mp hq
      have := concerns_index hconcerns
      have := hbefore c hc call mem_cons_self
      omega
    have hset : {q | concerned (calls ++ [call]) q = true ∧
        modified state (pageBits m.words q) = true} =
          {q | q ∈ {q | concerned calls q = true ∧ modified state (pageBits m.words q) = true} ∨
            concerns call q = true ∧ modified state (pageBits m.words q) = true} := by
      ext q
      simp only [concerned, any_append, any_cons, any_nil, Bool.or_false,
        Bool.or_eq_true, Set.mem_ofPred_eq, or_and_right]
    rw [hset]
    exact hnext

/-- `ModifiedRegion` gives the bytes from the first modified page of its window to the last. -/
theorem Manages.modifiedRegion (h : Manages base m) (hpiece : Piece offset size)
    (state : PageState) : Spans {q | inWindow offset size q = true ∧
      modified state (pageBits m.words q) = true} (m.modifiedRegion state offset size) := by
  have hextremes := foldl_regionCall_extremes (m := m) state
    (h.window hpiece).calls_ascending fun call hcall => (h.window hpiece).index_lt hcall
  simp only [(h.window hpiece).concerned_eq] at hextremes
  rw [WordManager.modifiedRegion]
  generalize (m.iterateWords offset size).foldl (m.regionCall state) (u64Max, 0) = acc
    at hextremes
  by_cases hS : ∃ q, q ∈ {q | inWindow offset size q = true ∧
      modified state (pageBits m.words q) = true}
  · obtain ⟨q, hq⟩ := hS
    obtain ⟨hfirst, last, hlast, hend⟩ := hextremes.nonempty q hq
    have hle := hfirst.2 hlast.1
    rw [if_pos (by omega)]
    refine .inr ⟨acc.1, last, hfirst, hlast, ?_⟩
    rw [hend, bytesPerPage, mul_comm acc.1, mul_comm (last + 1)]
  · have hacc := hextremes.empty fun q hq => hS ⟨q, hq⟩
    rw [hacc, if_neg (by decide)]
    exact .inl ⟨fun q hq => hS ⟨q, hq⟩, rfl⟩

/-- The pages of a new manager: modified by the CPU, and not tracked. -/
def initialBits : PageBits := fun s => s = .cpu || s = .untracked

theorem manages_create (hbase : 4096 * base + 4194304 ≤ 2 ^ 64) :
    Manages base (create (4096 * base) 4194304) :=
  ⟨rfl, rfl, hbase⟩

theorem create_words (s : PageState) (i : Nat) : (create (4096 * base) 4194304).words s i =
      if initialBits s then allOnes 64 else 0#64 := by
  have hlast : (allOnes 64 <<< 0) >>> 0 = allOnes 64 := by
    rw [BitVec.shiftLeft_zero, BitVec.ushiftRight_zero]
  cases s with
  | cpu => exact (congrArg (ite _ · _) hlast).trans (ite_self _)
  | untracked => exact (congrArg (ite _ · _) hlast).trans (ite_self _)
  | gpu => rfl
  | cachedCpu => rfl
  | preflushable => rfl

theorem pageBits_create (q : Nat) :
    pageBits (create (4096 * base) 4194304).words q = initialBits := by
  have hq : q % 64 < 64 := mod_lt _ (by decide)
  funext s
  rw [pageBits, create_words]
  split
  case isTrue hs => rw [hs, BitVec.getLsbD_allOnes, decide_eq_true hq]
  case isFalse hs =>
    rw [getLsbD_zero]
    exact (Bool.eq_false_of_not_eq_true hs).symm

end Sudachi.VideoCore
