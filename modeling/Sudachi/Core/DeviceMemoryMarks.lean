import Sudachi.Core.DeviceMemoryCaching
import Sudachi.Foundations.Runs

/-!
# The pages that are marked cached

`UpdatePagesCachedCount` marks each page that changes once, with the interface that its walk has
there (`updatePagesCachedCount_spec`). The process is only looked up for pages that are not of the
process of the first page: on coming back to that process, the walk goes on with the other one.
`marksRight_iff` says for a call when this is harmless, and `along_marksRight_iff` for a run.
-/

set_option autoImplicit false

namespace Sudachi.Core.DeviceMemory

open Sudachi.Foundations Sudachi.Foundations.Runs List Function

namespace CachingWalk

open CachedUpdate

variable {P : Type} {w : CachingWalk P} {c : Bool} {v : Nat}

/-! ## The walk over the pages -/

variable {b : CpuBackings P} {u : CachedUpdate} {counts : Nat → BitVec 8} {page : Nat}

/-- The memory interface from a page on. -/
def memoryFrom (b : CpuBackings P) (firstAsid : Nat) (memory : Option P) (page : Nat) : Option P :=
  if b.vpage page ≠ 0 ∧ firstAsid ≠ b.asid page then b.registeredProcesses (b.asid page) else memory

/-- The counts after a page. -/
def countsFrom (b : CpuBackings P) (delta : Int) (counts : Nat → BitVec 8) (page : Nat) :
    Nat → BitVec 8 :=
  if b.vpage page = 0 then counts
  else update counts page (counts page + BitVec.ofInt 8 delta)

/-- A page with the interface in which the walk marks it. -/
def pageMark (b : CpuBackings P) (u : CachedUpdate) (counts : Nat → BitVec 8) (memory : Option P)
    (page : Nat) : List (MarkedPage P) :=
  if b.vpage page = 0 then []
  else (u.change counts page).toList.map fun caching => (memory, b.vpage page, caching)

/-- The pages that the walk marks, with the interfaces in which it does. -/
def walked (b : CpuBackings P) (u : CachedUpdate) (counts : Nat → BitVec 8) (firstAsid : Nat) :
    List Nat → Option P → List (MarkedPage P)
  | [], _ => []
  | page :: rest, memory =>
    pageMark b u counts (memoryFrom b firstAsid memory page) page ++
      walked b u counts firstAsid rest (memoryFrom b firstAsid memory page)

theorem vpage_lt (b : CpuBackings P) (page : Nat) : b.vpage page + 1 < 2 ^ 64 := by
  rw [CpuBackings.vpage, Nat.and_two_pow_sub_one_eq_mod, Nat.shiftRight_eq_div_pow, pageBits]
  omega

/-- The page joins the regions exactly where it changes. -/
theorem joins_iff (hdelta : u.delta = 1 ∧ counts page ≠ 255 ∨ u.delta = -1 ∧ counts page ≠ 0) :
    (decide (counts page + BitVec.ofInt 8 u.delta = 0) = true ↔ u.change counts page = some false) ∧
      (decide (counts page + BitVec.ofInt 8 u.delta = 1 ∧ 0 < u.delta) = true ↔
        u.change counts page = some true) := by
  rw [decide_eq_true_iff, decide_eq_true_iff, change]
  generalize counts page = count at hdelta ⊢
  rcases hdelta with ⟨hdelta, hcount⟩ | ⟨hdelta, hcount⟩
  · have hzero : count + BitVec.ofInt 8 1 = 0 ↔ count = 255 := by decide +revert
    have hone : count + BitVec.ofInt 8 1 = 1 ↔ count = 0 := by decide +revert
    rw [hdelta, hzero, hone]
    by_cases hnew : count = 0
    · simp [hnew]
    · simpa [hnew] using hcount
  · have hzero : count + BitVec.ofInt 8 (-1) = 0 ↔ count = 1 := by decide +revert
    rw [hdelta, hzero]
    by_cases hlast : count = 1 <;> simp [hlast]

/-- The invariant of the walk: the regions end at the last page, and the interface is there for the
pages that are going to be marked. -/
structure Ready (b : CpuBackings P) (firstAsid : Nat) (w : CachingWalk P) : Prop where
  ends : ∀ c, w.EndsAt ((w.oldVpage + 1) % 2 ^ 64) c
  memory : w.memoryDeviceInter.isSome ∨ w.memoryDeviceInter = b.registeredProcesses firstAsid

/-- One page of the walk. -/
theorem Ready.updatePage {firstAsid : Nat} (h : w.Ready b firstAsid)
    (hregistered : ∀ page, b.Backed page → (b.registeredProcesses (b.asid page)).isSome)
    (hcounts : w.counts page = counts page)
    (hdelta : b.Backed page → u.delta = 1 ∧ counts page ≠ 255 ∨ u.delta = -1 ∧ counts page ≠ 0) :
    (w.updatePage b firstAsid u.delta page).Ready b firstAsid ∧
      (w.updatePage b firstAsid u.delta page).memoryDeviceInter =
        memoryFrom b firstAsid w.memoryDeviceInter page ∧
      (w.updatePage b firstAsid u.delta page).counts = countsFrom b u.delta w.counts page ∧
      (w.updatePage b firstAsid u.delta page).allPages.Perm (w.allPages ++
        pageMark b u counts (memoryFrom b firstAsid w.memoryDeviceInter page) page) := by
  by_cases hback : b.vpage page = 0
  case pos =>
    obtain ⟨hcounts', -, hmemory, hempty⟩ := w.releasePending_fields
    rw [CachingWalk.updatePage, if_pos hback, memoryFrom, if_neg fun h => h.1 hback, pageMark,
      if_pos hback, append_nil, countsFrom, if_pos hback]
    exact ⟨⟨fun c => endsAt_of_empty (hempty c), hmemory ▸ h.memory⟩, hmemory, hcounts',
      allPages_releasePending h.ends⟩
  case neg =>
    -- the walk after a change of the process, and after a jump of the virtual page
    obtain ⟨w₁, hw₁⟩ : ∃ w₁, (if firstAsid ≠ b.asid page then
        { w.releasePending with memoryDeviceInter := b.registeredProcesses (b.asid page) } else w) =
        w₁ := ⟨_, rfl⟩
    obtain ⟨w₂, hw₂⟩ : ∃ w₂, (if b.vpage page ≠ (w₁.oldVpage + 1) % 2 ^ 64 then w₁.releasePending
        else w₁) = w₂ := ⟨_, rfl⟩
    have hresult : w.updatePage b firstAsid u.delta page =
        (({ w₂ with
            oldVpage := b.vpage page
            counts := update w₂.counts page
              (w₂.counts page + BitVec.ofInt 8 u.delta) } : CachingWalk P).advance false
          (w₂.counts page + BitVec.ofInt 8 u.delta = 0) (b.vpage page)).advance true
          (w₂.counts page + BitVec.ofInt 8 u.delta = 1 ∧ 0 < u.delta) (b.vpage page) := by
      rw [CachingWalk.updatePage, if_neg hback, hw₁]
      simp only [hw₂]
    have h₁ : (∀ c, w₁.EndsAt ((w₁.oldVpage + 1) % 2 ^ 64) c) ∧ w₁.counts = w.counts ∧
        w₁.memoryDeviceInter = memoryFrom b firstAsid w.memoryDeviceInter page ∧
        w₁.memoryDeviceInter.isSome ∧ w₁.allPages.Perm w.allPages := by
      obtain ⟨hcounts', hold, -, hempty⟩ := w.releasePending_fields
      by_cases hasid : firstAsid = b.asid page
      · rw [if_neg (not_not.mpr hasid)] at hw₁
        subst hw₁
        refine ⟨h.ends, rfl, ?_, ?_, .refl _⟩
        · rw [memoryFrom, if_neg fun h => h.2 hasid]
        · rcases h.memory with hsome | heq
          · exact hsome
          · rw [heq, hasid]
            exact hregistered page hback
      · rw [if_pos hasid] at hw₁
        subst hw₁
        refine ⟨fun c => endsAt_of_empty (hempty c), hcounts', ?_, hregistered page hback, ?_⟩
        · rw [memoryFrom, if_pos ⟨hback, hasid⟩]
        · have hsame : ∀ memory, ({ w.releasePending with memoryDeviceInter := memory } :
              CachingWalk P).allPages = w.releasePending.allPages := by
            intro memory
            have hnil : ∀ c, ({ w.releasePending with memoryDeviceInter := memory } :
                CachingWalk P).pendingPages c = [] := fun c => pendingPages_of_empty (hempty c)
            rw [allPages, allPages, hnil, hnil, pendingPages_of_empty (hempty false),
              pendingPages_of_empty (hempty true)]
          rw [hsame]
          exact allPages_releasePending h.ends
    obtain ⟨hends₁, hcounts₁, hmemory₁, hsome₁, hperm₁⟩ := h₁
    have h₂ : (∀ c, w₂.EndsAt (b.vpage page) c) ∧ w₂.counts = w₁.counts ∧
        w₂.memoryDeviceInter = w₁.memoryDeviceInter ∧ w₂.allPages.Perm w₁.allPages := by
      obtain ⟨hcounts', hold, hmemory', hempty⟩ := w₁.releasePending_fields
      by_cases hjump : b.vpage page = (w₁.oldVpage + 1) % 2 ^ 64
      · rw [if_neg (not_not.mpr hjump)] at hw₂
        subst hw₂
        exact ⟨hjump ▸ hends₁, rfl, rfl, .refl _⟩
      · rw [if_pos hjump] at hw₂
        subst hw₂
        exact ⟨fun c => endsAt_of_empty (hempty c), hcounts', hmemory',
          allPages_releasePending hends₁⟩
    obtain ⟨hends₂, hcounts₂, hmemory₂, hperm₂⟩ := h₂
    have hmemory : w₂.memoryDeviceInter = memoryFrom b firstAsid w.memoryDeviceInter page :=
      hmemory₂.trans hmemory₁
    have hsome : w₂.memoryDeviceInter.isSome := hmemory₂ ▸ hsome₁
    have hcount : w₂.counts page = counts page := by rw [hcounts₂, hcounts₁, hcounts]
    obtain ⟨hfalse, htrue⟩ := joins_iff (hdelta hback)
    rw [hresult, hcount]
    generalize hw₃ : ({ w₂ with
        oldVpage := b.vpage page
        counts := update w₂.counts page (counts page + BitVec.ofInt 8 u.delta) } :
        CachingWalk P) = w₃
    have hends₃ : ∀ c, w₃.EndsAt (b.vpage page) c := by
      subst hw₃
      exact hends₂
    have hmemory₃ : w₃.memoryDeviceInter = w₂.memoryDeviceInter := by subst hw₃; rfl
    have hold₃ : w₃.oldVpage = b.vpage page := by subst hw₃; rfl
    have hcounts₃ : w₃.counts = countsFrom b u.delta w.counts page := by
      rw [← hw₃, countsFrom, if_neg hback, hcounts, hcounts₂, hcounts₁]
    have hperm₃ : w₃.allPages = w₂.allPages := by subst hw₃; rfl
    generalize decide (counts page + BitVec.ofInt 8 u.delta = 0) = joinsFalse at hfalse ⊢
    generalize decide (counts page + BitVec.ofInt 8 u.delta = 1 ∧ 0 < u.delta) = joinsTrue
      at htrue ⊢
    obtain ⟨hcounts₄, hold₄, hmemory₄, -⟩ := w₃.advance_fields false joinsFalse (b.vpage page)
    have hends₄ : (w₃.advance false joinsFalse (b.vpage page)).EndsAt (b.vpage page) true :=
      (hends₃ true).advance_of_ne (by decide)
    have hends₄' : (w₃.advance false joinsFalse (b.vpage page)).EndsAt (b.vpage page + 1) false :=
      (hends₃ false).advance fun _ => hmemory₃ ▸ hsome
    have hperm₄ := allPages_advance joinsFalse (hends₃ false)
    generalize w₃.advance false joinsFalse (b.vpage page) = w₄
      at hcounts₄ hold₄ hmemory₄ hends₄ hends₄' hperm₄ ⊢
    obtain ⟨hcounts₅, hold₅, hmemory₅, -⟩ := w₄.advance_fields true joinsTrue (b.vpage page)
    have hends₅ : (w₄.advance true joinsTrue (b.vpage page)).EndsAt (b.vpage page + 1) false :=
      hends₄'.advance_of_ne (by decide)
    have hends₅' : (w₄.advance true joinsTrue (b.vpage page)).EndsAt (b.vpage page + 1) true :=
      hends₄.advance fun _ => hmemory₄ ▸ hmemory₃ ▸ hsome
    have hperm₅ := allPages_advance joinsTrue hends₄
    generalize w₄.advance true joinsTrue (b.vpage page) = w₅
      at hcounts₅ hold₅ hmemory₅ hends₅ hends₅' hperm₅ ⊢
    have hmemoryFinal : w₅.memoryDeviceInter = w₂.memoryDeviceInter :=
      hmemory₅.trans (hmemory₄.trans hmemory₃)
    refine ⟨⟨fun c => ?_, .inl (hmemoryFinal ▸ hsome)⟩, hmemoryFinal.trans hmemory,
      hcounts₅.trans (hcounts₄.trans hcounts₃), ?_⟩
    · rw [hold₅, hold₄, hold₃, Nat.mod_eq_of_lt (vpage_lt b page)]
      cases c with
      | false => exact hends₅
      | true => exact hends₅'
    · refine hperm₅.trans (((hperm₄.append_right _)).trans ?_)
      rw [hperm₃, append_assoc]
      refine (hperm₂.trans hperm₁).append ?_
      rw [hmemory₄, hmemory₃, hmemory, pageMark, if_neg hback]
      cases hchange : u.change counts page with
      | none =>
        rw [hchange] at hfalse htrue
        rw [if_neg (fun h => by cases hfalse.mp h), if_neg (fun h => by cases htrue.mp h)]
        exact .refl _
      | some caching =>
        rw [hchange] at hfalse htrue
        cases caching with
        | false =>
          rw [if_pos (hfalse.mpr rfl), if_neg (fun h => by cases htrue.mp h)]
          exact .refl _
        | true =>
          rw [if_neg (fun h => by cases hfalse.mp h), if_pos (htrue.mpr rfl)]
          exact .refl _

/-- The counts after some pages. -/
theorem foldl_countsFrom (b : CpuBackings P) (delta : Int) {pages : List Nat} (hnodup : pages.Nodup)
    (counts : Nat → BitVec 8) (q : Nat) : pages.foldl (countsFrom b delta) counts q =
      if q ∈ pages ∧ b.vpage q ≠ 0 then counts q + BitVec.ofInt 8 delta else counts q := by
  induction pages generalizing counts with
  | nil => simp
  | cons page rest ih =>
    rw [nodup_cons] at hnodup
    rw [foldl_cons, ih hnodup.2, countsFrom]
    by_cases hq : q = page
    · subst hq
      rw [if_neg fun h => hnodup.1 h.1]
      by_cases hback : b.vpage q = 0
      · rw [if_pos hback, if_neg fun h => h.2 hback]
      · rw [if_neg hback, update_self, if_pos ⟨mem_cons_self, hback⟩]
    · have hsame : (if b.vpage page = 0 then counts
          else update counts page (counts page + BitVec.ofInt 8 delta)) q = counts q := by
        split
        · rfl
        · exact update_of_ne hq ..
      rw [hsame]
      simp [hq]

/-- The walk over some pages marks each of them with the interface that it has there. -/
theorem Ready.walk {firstAsid : Nat} {pages : List Nat} (hnodup : pages.Nodup)
    (h : w.Ready b firstAsid)
    (hregistered : ∀ page, b.Backed page → (b.registeredProcesses (b.asid page)).isSome)
    (hcounts : ∀ page ∈ pages, w.counts page = counts page)
    (hdelta : ∀ page ∈ pages, b.Backed page →
      u.delta = 1 ∧ counts page ≠ 255 ∨ u.delta = -1 ∧ counts page ≠ 0) :
    (pages.foldl (CachingWalk.updatePage b firstAsid u.delta) w).Ready b firstAsid ∧
      (pages.foldl (CachingWalk.updatePage b firstAsid u.delta) w).counts =
        pages.foldl (countsFrom b u.delta) w.counts ∧
      (pages.foldl (CachingWalk.updatePage b firstAsid u.delta) w).allPages.Perm
        (w.allPages ++ walked b u counts firstAsid pages w.memoryDeviceInter) := by
  induction pages generalizing w with
  | nil => exact ⟨h, rfl, by rw [walked, append_nil]; exact .refl _⟩
  | cons page rest ih =>
    rw [nodup_cons] at hnodup
    obtain ⟨hnext, hmemory, hupdated, hperm⟩ := h.updatePage hregistered
      (hcounts page mem_cons_self) (hdelta page mem_cons_self)
    have hrest : ∀ q ∈ rest, (w.updatePage b firstAsid u.delta page).counts q = counts q := by
      intro q hq
      have hne : q ≠ page := fun heq => hnodup.1 (heq ▸ hq)
      rw [hupdated, countsFrom]
      split
      · exact hcounts q (mem_cons_of_mem _ hq)
      · rw [update_of_ne hne]
        exact hcounts q (mem_cons_of_mem _ hq)
    obtain ⟨hready, hafter, hperm'⟩ := ih hnodup.2 hnext hrest
      fun q hq => hdelta q (mem_cons_of_mem _ hq)
    rw [hupdated] at hafter
    rw [hmemory] at hperm'
    refine ⟨hready, hafter, hperm'.trans ((hperm.append_right _).trans ?_)⟩
    rw [append_assoc, walked]

end CachingWalk

namespace CachedUpdate

open CachingWalk

variable {P : Type} {b : CpuBackings P} {u : CachedUpdate} {counts : Nat → BitVec 8} {page : Nat}

theorem pages_nodup (u : CachedUpdate) : u.pages.Nodup := nodup_range'

theorem ready_start (b : CpuBackings P) (u : CachedUpdate) (counts : Nat → BitVec 8) :
    (u.start b counts).Ready b (b.asid u.firstPage) :=
  ⟨fun _ => endsAt_of_empty rfl, .inr rfl⟩

theorem InRange.counts_ne (h : u.InRange b counts) : ∀ page ∈ u.pages, b.Backed page →
      u.delta = 1 ∧ counts page ≠ 255 ∨ u.delta = -1 ∧ counts page ≠ 0 := by
  intro page hpage hback
  rcases h with ⟨hdelta, hcounts⟩ | ⟨hdelta, hcounts⟩
  · exact .inl ⟨hdelta, hcounts page hpage hback⟩
  · exact .inr ⟨hdelta, hcounts page hpage hback⟩

/-- The counts after a call, and the pages that it marks. -/
theorem updatePagesCachedCount_spec
    (hregistered : ∀ page, b.Backed page → (b.registeredProcesses (b.asid page)).isSome)
    (hrange : u.InRange b counts) :
    (u.updatePagesCachedCount b counts).1 = u.pages.foldl (countsFrom b u.delta) counts ∧
      ((u.updatePagesCachedCount b counts).2.flatMap Mark.pages).Perm
        (walked b u counts (b.asid u.firstPage) u.pages
          (b.registeredProcesses (b.asid u.firstPage))) := by
  obtain ⟨hready, hcounts, hperm⟩ := (ready_start b u counts).walk u.pages_nodup hregistered
    (fun _ _ => rfl) hrange.counts_ne
  have hpending : ∀ c, (u.start b counts).pendingPages c = [] := fun _ => pendingPages_of_empty rfl
  have hstart : (u.start b counts).allPages = [] := by
    rw [allPages, hpending, hpending]
    rfl
  rw [hstart, nil_append] at hperm
  generalize hw : u.pages.foldl (CachingWalk.updatePage b (b.asid u.firstPage) u.delta)
    (u.start b counts) = w at hready hcounts hperm
  have hresult : u.updatePagesCachedCount b counts =
      (w.releasePending.counts, w.releasePending.marks) := by
    rw [updatePagesCachedCount, hw]
  obtain ⟨hreleased, -, -, hempty⟩ := w.releasePending_fields
  have hmarks : w.releasePending.allPages = w.releasePending.marks.flatMap Mark.pages := by
    rw [allPages, pendingPages_of_empty (hempty false), pendingPages_of_empty (hempty true),
      append_nil, append_nil]
  rw [hresult]
  exact ⟨hreleased.trans hcounts, hmarks ▸ (allPages_releasePending hready.ends).trans hperm⟩

/-! ## The interface that serves a page -/

/-- The interface that the walk has after a number of pages. -/
def served (b : CpuBackings P) (first : Nat) : Nat → Option P
  | 0 => b.registeredProcesses (b.asid first)
  | n + 1 => memoryFrom b (b.asid first) (served b first n) (first + n)

theorem walked_range' (b : CpuBackings P) (u : CachedUpdate) (counts : Nat → BitVec 8)
    (first k n : Nat) : walked b u counts (b.asid first) (range' (first + k) n) (served b first k) =
      (range' (first + k) n).flatMap fun page =>
        pageMark b u counts (served b first (page - first + 1)) page := by
  induction n generalizing k with
  | zero => rfl
  | succ n ih =>
    have hself : first + k - first + 1 = k + 1 := by omega
    rw [range'_succ, walked, flatMap_cons, hself]
    exact congrArg _ (ih (k + 1))

/-- After a page of another process the walk has the interface of that process, and it keeps it on
the pages of the process of the first page. -/
theorem served_eq_iff (b : CpuBackings P) (first n : Nat) :
    served b first n = b.registeredProcesses (b.asid first) ↔ KeepsProcess b first (first + n) := by
  induction n with
  | zero => exact ⟨fun _ q h h' => absurd h' (Nat.not_lt.mpr h), fun _ => rfl⟩
  | succ n ih =>
    rw [served, memoryFrom]
    split
    case isTrue h =>
      refine ⟨fun heq q _ hlt _ _ hlast => ?_, fun hkeeps => ?_⟩
      · rcases lt_or_ge q (first + n) with hbefore | hafter
        · exact absurd (hlast (first + n) hbefore (by omega) h.1).symm h.2
        · have hq : q = first + n := by omega
          exact hq ▸ heq
      · exact hkeeps (first + n) (by omega) (by omega) h.1 (Ne.symm h.2)
          fun r hr hr' => absurd hr' (by omega)
    case isFalse h =>
      have hsame : b.Backed (first + n) → b.asid (first + n) = b.asid first := fun hback =>
        Classical.byContradiction fun hne => h ⟨hback, Ne.symm hne⟩
      rw [ih]
      constructor
      · intro hkeeps q hq hlt hback hasid hlast
        have hne : q ≠ first + n := fun heq => hasid (heq ▸ hsame (heq ▸ hback))
        exact hkeeps q hq (by omega) hback hasid fun r hr hr' => hlast r hr (by omega)
      · intro hkeeps q hq hlt hback hasid hlast
        refine hkeeps q hq (by omega) hback hasid fun r hr hr' hbackr => ?_
        by_cases hr : r = first + n
        · exact hr ▸ hsame (hr ▸ hbackr)
        · exact hlast r ‹_› (by omega) hbackr

/-- The page is served by the interface of its own process. -/
theorem served_eq_own_iff (b : CpuBackings P) {first : Nat} (hfirst : first ≤ page)
    (hback : b.Backed page) :
    served b first (page - first + 1) = b.registeredProcesses (b.asid page) ↔
      (b.asid page = b.asid first → KeepsProcess b first page) := by
  have hpage : first + (page - first) = page := by omega
  rw [served, memoryFrom, hpage]
  by_cases hasid : b.asid first = b.asid page
  · rw [if_neg fun h => h.2 hasid, ← hasid, served_eq_iff, hpage]
    exact ⟨fun h _ => h, fun h => h rfl⟩
  · rw [if_pos ⟨hback, hasid⟩]
    exact ⟨fun _ h => absurd h.symm hasid, fun _ => rfl⟩

/-! ## The calls that mark the right pages -/

theorem transition_eq_change
    (hdelta : u.delta = 1 ∧ counts page ≠ 255 ∨ u.delta = -1 ∧ counts page ≠ 0) :
    transition (counts page) (counts page + BitVec.ofInt 8 u.delta) = u.change counts page := by
  rw [transition, change]
  generalize counts page = count at hdelta ⊢
  rcases hdelta with ⟨hdelta, -⟩ | ⟨hdelta, -⟩ <;> rw [hdelta]
  · have hone : ∀ count : BitVec 8, count = 0 ∧ count + BitVec.ofInt 8 1 = 1 ↔ count = 0 := by
      decide
    have hzero : ∀ count : BitVec 8, ¬(count = 1 ∧ count + BitVec.ofInt 8 1 = 0) := by decide
    simp only [hone, hzero]
    simp
  · have hone : ∀ count : BitVec 8, ¬(count = 0 ∧ count + BitVec.ofInt 8 (-1) = 1) := by decide
    have hzero : ∀ count : BitVec 8, count = 1 ∧ count + BitVec.ofInt 8 (-1) = 0 ↔ count = 1 := by
      decide
    simp only [hone, hzero]
    simp

/-- The pages to be marked are those that change, each with the interface of its process. -/
theorem expected_eq
    (hregistered : ∀ page, b.Backed page → (b.registeredProcesses (b.asid page)).isSome)
    (hrange : u.InRange b counts) : u.expected b counts (u.updatePagesCachedCount b counts).1 =
      u.pages.flatMap fun page =>
        pageMark b u counts (b.registeredProcesses (b.asid page)) page := by
  rw [expected, (updatePagesCachedCount_spec hregistered hrange).1]
  refine flatMap_congr fun page hpage => ?_
  rw [pageMark]
  by_cases hback : b.vpage page = 0
  · rw [if_pos hback, if_pos hback]
  · rw [if_neg hback, if_neg hback, foldl_countsFrom b u.delta u.pages_nodup, if_pos ⟨hpage, hback⟩,
      transition_eq_change (hrange.counts_ne page hpage hback)]

/-- Lists of which no part has more of an element, but that have as many in all, have as many of it
in every part. -/
theorem countP_eq_of_flatMap_perm {α β : Type} {p : β → Bool} {f g : α → List β} {l : List α}
    (hle : ∀ a ∈ l, (f a).countP p ≤ (g a).countP p)
    (hperm : (l.flatMap f).countP p = (l.flatMap g).countP p) :
    ∀ a ∈ l, (f a).countP p = (g a).countP p := by
  induction l with
  | nil => exact fun a ha => absurd ha not_mem_nil
  | cons a l ih =>
    have hrest : (l.flatMap f).countP p ≤ (l.flatMap g).countP p := by
      rw [countP_flatMap, countP_flatMap]
      exact sum_le_sum fun x hx => hle x (mem_cons_of_mem _ hx)
    have hhead := hle a mem_cons_self
    rw [flatMap_cons, flatMap_cons, countP_append, countP_append] at hperm
    intro x hx
    rcases mem_cons.mp hx with rfl | hx
    · omega
    · exact ih (fun x hx => hle x (mem_cons_of_mem _ hx)) (by omega) x hx

theorem countP_pageMark (b : CpuBackings P) (u : CachedUpdate) (counts : Nat → BitVec 8)
    (p : MarkedPage P → Bool) (memory : Option P) (page : Nat) (hback : b.Backed page)
    {caching : Bool} (hchange : u.change counts page = some caching) :
    (pageMark b u counts memory page).countP p =
      if p (memory, b.vpage page, caching) then 1 else 0 := by
  rw [pageMark, if_neg hback, hchange]
  exact countP_singleton

/-- A call marks the right pages exactly when it does not come back to the process of the first page
with the interface of another. -/
theorem marksRight_iff
    (hregistered : ∀ page, b.Backed page → (b.registeredProcesses (b.asid page)).isSome)
    (hrange : u.InRange b counts) : u.MarksRight b counts ↔ u.StaysWithProcess b counts := by
  classical
  have hwalked := walked_range' b u counts u.firstPage 0 u.pageCount
  have hmarks := (updatePagesCachedCount_spec hregistered hrange).2
  rw [pages] at hmarks
  rw [add_zero] at hwalked
  rw [show b.registeredProcesses (b.asid u.firstPage) = served b u.firstPage 0 from rfl,
    hwalked] at hmarks
  rw [MarksRight, expected_eq hregistered hrange]
  have hfirst : ∀ page ∈ u.pages, u.firstPage ≤ page := fun page hpage =>
    (mem_range'_1.mp hpage).1
  constructor
  · intro hright page hpage hback hchange hasid
    have hperm := hmarks.symm.trans hright
    -- the pages of the interface of the first page are counted
    let p : MarkedPage P → Bool := fun e => e.1 = b.registeredProcesses (b.asid u.firstPage)
    have hle : ∀ q ∈ range' u.firstPage u.pageCount,
        (pageMark b u counts (served b u.firstPage (q - u.firstPage + 1)) q).countP p ≤
          (pageMark b u counts (b.registeredProcesses (b.asid q)) q).countP p := by
      intro q hq
      by_cases hbackq : b.vpage q = 0
      · rw [pageMark, pageMark, if_pos hbackq, if_pos hbackq]
      cases hchangeq : u.change counts q with
      | none =>
        rw [pageMark, pageMark, if_neg hbackq, if_neg hbackq, hchangeq]
        exact le_refl _
      | some caching =>
        rw [countP_pageMark b u counts p _ q hbackq hchangeq,
          countP_pageMark b u counts p _ q hbackq hchangeq]
        by_cases hasidq : b.asid q = b.asid u.firstPage
        · have hown : p (b.registeredProcesses (b.asid q), b.vpage q, caching) = true := by
            simp [p, hasidq]
          rw [if_pos hown]
          split
          · exact le_refl 1
          · exact Nat.zero_le 1
        · rw [(served_eq_own_iff b (hfirst q hq) hbackq).mpr fun h => absurd h hasidq]
    have hcount := countP_eq_of_flatMap_perm hle (hperm.countP_eq p) page hpage
    obtain ⟨caching, hcaching⟩ := Option.ne_none_iff_exists'.mp hchange
    rw [countP_pageMark b u counts p _ page hback hcaching,
      countP_pageMark b u counts p _ page hback hcaching] at hcount
    have hown : p (b.registeredProcesses (b.asid page), b.vpage page, caching) = true := by
      simp [p, hasid]
    rw [if_pos hown] at hcount
    have hserved : served b u.firstPage (page - u.firstPage + 1) =
        b.registeredProcesses (b.asid page) := by
      rw [hasid]
      by_contra hne
      rw [if_neg (by simpa [p] using hne)] at hcount
      exact absurd hcount (by decide)
    exact (served_eq_own_iff b (hfirst page hpage) hback).mp hserved hasid
  · intro hstays
    have heq : (range' u.firstPage u.pageCount).flatMap (fun page =>
        pageMark b u counts (served b u.firstPage (page - u.firstPage + 1)) page) =
        u.pages.flatMap fun page =>
          pageMark b u counts (b.registeredProcesses (b.asid page)) page := by
      refine flatMap_congr fun page hpage => ?_
      by_cases hback : b.vpage page = 0
      · rw [pageMark, pageMark, if_pos hback, if_pos hback]
      by_cases hchange : u.change counts page = none
      · rw [pageMark, pageMark, if_neg hback, if_neg hback, hchange]
        rfl
      · rw [(served_eq_own_iff b (hfirst page hpage) hback).mpr (hstays page hpage hback hchange)]
    exact heq ▸ hmarks

/-! ## Runs -/

/-- The counts after a call. -/
def step (b : CpuBackings P) (counts : Nat → BitVec 8) (u : CachedUpdate) : Nat → BitVec 8 :=
  (u.updatePagesCachedCount b counts).1

/-- In a run that keeps the counts between 0 and 255, every call marks the right pages exactly when
no call comes back to the process of its first page with the interface of another one. -/
theorem along_marksRight_iff (b : CpuBackings P)
    (hregistered : ∀ page, b.Backed page → (b.registeredProcesses (b.asid page)).isSome)
    (counts : Nat → BitVec 8) (us : List CachedUpdate)
    (hrange : Along (step b) (fun counts u => u.InRange b counts) counts us) :
    Along (step b) (fun counts u => u.MarksRight b counts) counts us ↔
      Along (step b) (fun counts u => u.StaysWithProcess b counts) counts us :=
  along_congr (fun _ _ h => marksRight_iff hregistered h) hrange

/-- Three device pages: the first one of a process, the second one of another, and the third one of
the process that is given. -/
def threePages (third : Nat) : CpuBackings Nat where
  cpuBackingAddress page :=
    if page = 1 then 1 <<< 12 else if page = 2 then 1 <<< 39 + 2 <<< 12
    else if page = 3 then third <<< 39 + 3 <<< 12 else 0
  registeredProcesses asid := some asid

/-- Caching three pages, of which the second and the third one are of the same process. -/
theorem along_marksRight_threePages :
    Along (step (threePages 1)) (fun counts u => u.MarksRight (threePages 1) counts)
      (fun _ => 0) [⟨4096, 3 * 4096, 1⟩] := by
  have hrange : Along (step (threePages 1)) (fun counts u => u.InRange (threePages 1) counts)
      (fun _ => 0) [⟨4096, 3 * 4096, 1⟩] := ⟨.inl ⟨rfl, by decide⟩, trivial⟩
  refine (along_marksRight_iff (threePages 1) (fun _ _ => rfl) _ _ hrange).mpr ⟨?_, trivial⟩
  intro page hpage _ _ hasid q hq hlt
  have hfirst : ∀ page ∈ (⟨4096, 3 * 4096, 1⟩ : CachedUpdate).pages,
      (threePages 1).asid page = (threePages 1).asid 1 → page = 1 := by decide
  have hpage : page = 1 := hfirst page hpage hasid
  have hq : 1 ≤ q := hq
  omega

/-- The third page is of the process of the first one again, and is marked in the process of the
second one. -/
theorem not_marksRight_threePages :
    ¬∀ (b : CpuBackings Nat) (counts : Nat → BitVec 8) (us : List CachedUpdate),
      (∀ page, b.Backed page → (b.registeredProcesses (b.asid page)).isSome) →
      Along (step b) (fun counts u => u.InRange b counts) counts us →
      Along (step b) (fun counts u => u.MarksRight b counts) counts us := by
  intro hall
  have hright := (hall (threePages 0) (fun _ => 0) [⟨4096, 3 * 4096, 1⟩] (fun _ _ => rfl)
    ⟨.inl ⟨rfl, by decide⟩, trivial⟩).1
  have hmem : (some 0, 3, true) ∈ ((⟨4096, 3 * 4096, 1⟩ : CachedUpdate).expected (threePages 0)
      (fun _ => 0) ((⟨4096, 3 * 4096, 1⟩ : CachedUpdate).updatePagesCachedCount (threePages 0)
        (fun _ => 0)).1) := by decide
  have hmarked := hright.mem_iff.mpr hmem
  exact absurd hmarked (by decide)

end CachedUpdate

end Sudachi.Core.DeviceMemory
