import Sudachi.Common.AddressSpaceMapping

/-!
# Runs of the flat address space map

What `MapLocked` and `UnmapLocked` make of a well-formed vector, path by path. `UnmapLocked` is wrong
in two kinds of range: when the block before the range is unmapped and mapped blocks are left to
erase, one of them stays; and when the unmapped block at the end of the range is the only one that
starts in it, an assertion fails. `UnmapSound` is exactly the rest.
-/

set_option autoImplicit false

namespace Sudachi.Common

open Sudachi.Foundations List Or Option
open Split (constant)

/-! ## Iterators -/

section Iterators

variable {Pa Extra : Type} {a b p : Block Pa Extra} {blocks l m r : List (Block Pa Extra)}
variable {virt virtEnd i : Nat}

section

variable (h : blocks = l ++ b :: r) (hi : i = l.length)
include h hi

theorem getElem?_at : blocks[i]? = some b := by
  rw [h, hi, getElem?_append_right (le_refl _), Nat.sub_self, getElem?_cons_zero]

theorem deref_at : deref blocks i = .ok b := by
  rw [deref, getElem?_at h hi]

theorem set_at : blocks.set i a = l ++ a :: r := by
  rw [h, hi, set_append_right _ _ (le_refl _), Nat.sub_self, set_cons_zero]

end

theorem insertAt_at (h : blocks = l ++ r) (hi : i = l.length) :
    insertAt blocks i m = l ++ (m ++ r) := by
  rw [insertAt, h, hi, take_left, drop_left]

theorem eraseRange_at {j : Nat} (h : blocks = l ++ (m ++ r)) (hi : i = l.length)
    (hj : j = l.length + m.length) : eraseRange blocks i j = .ok (l ++ r) := by
  rw [eraseRange, if_pos (by omega), h, hi, hj, take_left, ← append_assoc,
    ← length_append, drop_left]

theorem eraseOverwritten_at {j : Nat} (h : blocks = l ++ (m ++ r)) (hi : i = l.length)
    (hj : j = l.length + m.length) : eraseOverwritten blocks i j = .ok (l ++ r) := by
  by_cases hij : i = j
  · have hm : m = [] := length_eq_zero_iff.mp (by omega)
    rw [eraseOverwritten, if_neg (not_not.mpr hij), h, hm, nil_append]
  · rw [eraseOverwritten, if_pos hij, eraseRange_at h hi hj]

theorem walkBackToPredecessor_stop (h : deref blocks i = .ok b) (hb : b.virt < virt) :
    walkBackToPredecessor blocks virt i = .ok i := by
  cases i with
  | zero =>
    rw [walkBackToPredecessor, h]
    exact if_neg (not_le.mpr hb)
  | succ i =>
    rw [walkBackToPredecessor, h]
    exact if_neg (not_le.mpr hb)

section

variable (h : blocks = l ++ p :: (m ++ r)) (hp : p.virt < virt) (hm : ∀ c ∈ m, virt ≤ c.virt)
include h hp hm

theorem walkBackToPredecessor_at (hi : i = l.length + m.length) :
    walkBackToPredecessor blocks virt i = .ok l.length := by
  induction m using reverseRecOn generalizing r i with
  | nil => exact hi ▸ walkBackToPredecessor_stop (deref_at h rfl) hp
  | append_singleton m x ih =>
    have hx := hm x (by simp)
    have hderef : deref blocks (l.length + m.length + 1) = .ok x := by
      refine deref_at (l := l ++ p :: m) (r := r) ?_ ?_
      · rw [h]
        simp
      · simp only [length_append, length_cons]
        omega
    have hi' : i = l.length + m.length + 1 := by
      rw [hi, length_append, length_singleton]
      omega
    rw [hi', walkBackToPredecessor, hderef]
    refine (if_pos hx).trans (ih (r := x :: r) ?_ (fun c hc => hm c (by simp [hc])) rfl)
    rw [h]
    simp

theorem walkToStartSuccessor_at (hi : i = l.length + 1 + m.length) :
    walkToStartSuccessor blocks virt i = .ok (l.length + 1) := by
  induction m using reverseRecOn generalizing r i with
  | nil =>
    rw [hi, length_nil, add_zero, walkToStartSuccessor, deref_at h rfl]
    exact if_neg (not_le.mpr hp)
  | append_singleton m x ih =>
    have hx := hm x (by simp)
    have hderef : deref blocks (l.length + 1 + m.length) = .ok x := by
      refine deref_at (l := l ++ p :: m) (r := r) ?_ ?_
      · rw [h]
        simp
      · simp only [length_append, length_cons]
        omega
    have hi' : i = l.length + 1 + m.length + 1 := by
      rw [hi, length_append, length_singleton]
      omega
    rw [hi', walkToStartSuccessor, hderef]
    refine (if_pos hx).trans (ih (r := x :: r) ?_ (fun c hc => hm c (by simp [hc])) rfl)
    rw [h]
    simp

end

end Iterators

/-! ## The paths of the code -/

section Paths

variable {Pa Extra : Type} {p t : Block Pa Extra} {blocks l m r : List (Block Pa Extra)}
variable {virt virtEnd i : Nat}

theorem mapFrom_at (h : blocks = l ++ p :: (m ++ t :: r)) (hp : p.virt < virt)
    (hm : ∀ c ∈ m, virt ≤ c.virt ∧ c.virt < virtEnd) (ht : t.virt = virtEnd)
    (hi : i = l.length + 1 + m.length) (new : Block Pa Extra) :
    mapFrom blocks virt virtEnd new i = .ok (l ++ p :: new :: t :: r) := by
  have hwalk := walkToStartSuccessor_at h hp (fun c hc => (hm c hc).1) hi
  have hlength : l.length + 1 = (l ++ [p]).length := by simp
  rw [mapFrom, hwalk]
  cases m with
  | nil =>
    have hsplit : blocks = (l ++ [p]) ++ t :: r := by rw [h]; simp
    simp only [bind, Except.bind, deref_at hsplit hlength, ht, lt_irrefl, if_false, if_true]
    rw [insertAt_at hsplit hlength]
    simp [pure, Except.pure]
  | cons x m =>
    have hx := hm x mem_cons_self
    have hsplit : blocks = (l ++ [p]) ++ x :: (m ++ t :: r) := by rw [h]; simp
    have herase : eraseOverwritten blocks (l.length + 1 + 1) i = .ok ((l ++ [p, x]) ++ t :: r) :=
      eraseOverwritten_at (m := m) (by rw [h]; simp) (by simp)
        (by simp only [hi, length_append, length_cons, length_nil]; omega)
    have hset : ((l ++ [p, x]) ++ t :: r).set (l.length + 1) new = (l ++ [p]) ++ new :: t :: r :=
      set_at (b := x) (by simp) hlength
    simp only [bind, Except.bind, deref_at hsplit hlength, if_neg (not_lt.mpr (le_of_lt hx.2)),
      if_neg (ne_of_lt hx.2), herase, hset]
    simp [pure, Except.pure]

variable [DecidableEq Pa] {sp : Split Pa}

theorem eraseBlocksWithEndUnmapped_merge (h : blocks = l ++ p :: (m ++ t :: r)) (hp : p.virt < virt)
    (hm : ∀ c ∈ m, virt ≤ c.virt) (ht : virt ≤ t.virt) (hi : i = l.length + 1 + m.length)
    (hunmapped : p.Unmapped sp) (hr : ∀ c ∈ r.head?, ¬c.Unmapped sp) :
    eraseBlocksWithEndUnmapped sp blocks virt i = .ok (l ++ p :: r) := by
  have hwalk : walkBackToPredecessor blocks virt i = .ok l.length := by
    refine walkBackToPredecessor_at (m := m ++ [t]) (r := r) (by rw [h]; simp) hp ?_ ?_
    · simpa [or_imp, forall_and, ht] using hm
    · simp only [hi, length_append, length_singleton]
      omega
  have hlast : deref blocks i = .ok t :=
    deref_at (l := l ++ p :: m) (r := r) (by rw [h]; simp) (by simp [hi]; omega)
  have herase : eraseRange blocks (l.length + 1) (i + 1) = .ok (l ++ [p] ++ r) :=
    eraseRange_at (m := m ++ [t]) (by rw [h]; simp) (by simp) (by simp [hi]; omega)
  have hnext : blocks[i + 1]? = r.head? := by
    have hsplit : blocks = (l ++ p :: (m ++ [t])) ++ r := by rw [h]; simp
    have hi' : i + 1 = (l ++ p :: (m ++ [t])).length := by simp [hi]; omega
    rw [hsplit, hi', getElem?_append_right (le_refl _), Nat.sub_self, head?_eq_getElem?]
  rw [eraseBlocksWithEndUnmapped, hwalk]
  simp only [bind, Except.bind, deref_at h rfl, hlast, if_pos hunmapped, hnext]
  cases r with
  | nil => simpa using herase
  | cons c r =>
    have hc : ¬(i + 1 = l.length + 1 ∨ (p.Unmapped sp ∧ c.Unmapped sp)) := by
      rintro (heq | hboth)
      · omega
      · exact hr c rfl hboth.2
    simp only [head?_cons, if_neg hc]
    simpa using herase

theorem eraseBlocksWithEndUnmapped_reuse (h : blocks = l ++ p :: (m ++ t :: r))
    (hp : p.virt < virt) (hm : ∀ c ∈ m, virt ≤ c.virt) (ht : virt ≤ t.virt)
    (hi : i = l.length + 1 + m.length) (hmapped : ¬p.Unmapped sp) :
    eraseBlocksWithEndUnmapped sp blocks virt i =
      if m = [] then .error .contiguousUnmappedRegions
      else .ok (l ++ p :: { t with virt := virt } :: r) := by
  have hwalk : walkBackToPredecessor blocks virt i = .ok l.length := by
    refine walkBackToPredecessor_at (m := m ++ [t]) (r := r) (by rw [h]; simp) hp ?_ ?_
    · simpa [or_imp, forall_and, ht] using hm
    · simp only [hi, length_append, length_singleton]
      omega
  have hsplit : blocks = (l ++ p :: m) ++ t :: r := by rw [h]; simp
  have hi' : i = (l ++ p :: m).length := by simp [hi]; omega
  have hset : blocks.set i { t with virt := virt } = (l ++ p :: m) ++ { t with virt := virt } :: r :=
    set_at hsplit hi'
  have hat := getElem?_at hset hi'
  rw [eraseBlocksWithEndUnmapped, hwalk]
  simp only [bind, Except.bind, deref_at h rfl, deref_at hsplit hi', hmapped, if_false, hat,
    false_and, or_false]
  by_cases hnil : m = []
  · rw [if_pos (by simp [hi, hnil]), if_pos hnil]
    rfl
  · have hpos := length_pos_iff.mpr hnil
    rw [if_neg (by omega), if_neg hnil]
    have herase : eraseRange (blocks.set i { t with virt := virt }) (l.length + 1) i =
        .ok ((l ++ [p]) ++ { t with virt := virt } :: r) :=
      eraseRange_at (m := m) (by rw [hset]; simp) (by simp) (by simp [hi])
    rw [herase, append_assoc, singleton_append]

theorem unmapFrom_of_mapped [Inhabited Extra] (h : blocks = l ++ p :: (m ++ t :: r))
    (hp : p.virt < virt) (hm : ∀ c ∈ m, virt ≤ c.virt ∧ c.virt < virtEnd) (ht : t.virt = virtEnd)
    (hle : virt ≤ virtEnd) (hi : i = l.length + 1 + m.length) (hmapped : ¬p.Unmapped sp) (j : Nat) :
    ∃ extraInfo, unmapFrom sp blocks virt virtEnd j i =
      .ok (l ++ p :: ⟨virt, sp.unmappedPa, extraInfo⟩ :: t :: r) := by
  have hwalk : walkBackToPredecessor blocks virt i = .ok l.length := by
    refine walkBackToPredecessor_at (m := m ++ [t]) (r := r) (by rw [h]; simp) hp ?_ ?_
    · simp only [mem_append, mem_singleton]
      rintro c (hc | rfl)
      · exact (hm c hc).1
      · omega
    · simp only [hi, length_append, length_singleton]
      omega
  have hlength : l.length + 1 = (l ++ [p]).length := by simp
  rw [unmapFrom, hwalk]
  cases m with
  | nil =>
    have hsplit : blocks = (l ++ [p]) ++ t :: r := by rw [h]; simp
    refine ⟨default, ?_⟩
    simp only [bind, Except.bind, deref_at h rfl, deref_at hsplit hlength, ht, lt_irrefl,
      if_false, if_true, if_pos hmapped]
    rw [insertAt_at hsplit hlength]
    simp [pure, Except.pure]
  | cons x m =>
    have hx := hm x mem_cons_self
    have hsplit : blocks = (l ++ [p]) ++ x :: (m ++ t :: r) := by rw [h]; simp
    have herase : eraseOverwritten blocks (l.length + 1 + 1) i = .ok ((l ++ [p, x]) ++ t :: r) :=
      eraseOverwritten_at (m := m) (by rw [h]; simp) (by simp)
        (by simp only [hi, length_append, length_cons, length_nil]; omega)
    have hset : ((l ++ [p, x]) ++ t :: r).set (l.length + 1) ⟨virt, sp.unmappedPa, x.extraInfo⟩ =
        (l ++ [p]) ++ ⟨virt, sp.unmappedPa, x.extraInfo⟩ :: t :: r :=
      set_at (b := x) (by simp) hlength
    refine ⟨x.extraInfo, ?_⟩
    simp only [bind, Except.bind, deref_at h rfl, deref_at hsplit hlength,
      if_neg (not_lt.mpr (le_of_lt hx.2)), if_neg (ne_of_lt hx.2), if_neg hmapped, herase, hset]
    simp [pure, Except.pure]

/-- With an unmapped block before the range, the last block before the new end stays. -/
theorem unmapFrom_of_unmapped [Inhabited Extra] (h : blocks = l ++ p :: (m ++ t :: r))
    (hp : p.virt < virt) (hm : ∀ c ∈ m, virt ≤ c.virt ∧ c.virt < virtEnd) (ht : t.virt = virtEnd)
    (hle : virt ≤ virtEnd) (hi : i = l.length + 1 + m.length) (hunmapped : p.Unmapped sp) :
    unmapFrom sp blocks virt virtEnd (l.length + m.length) i =
      .ok (l ++ p :: (m.drop (m.length - 1) ++ t :: r)) := by
  have hwalk : walkBackToPredecessor blocks virt i = .ok l.length := by
    refine walkBackToPredecessor_at (m := m ++ [t]) (r := r) (by rw [h]; simp) hp ?_ ?_
    · simp only [mem_append, mem_singleton]
      rintro c (hc | rfl)
      · exact (hm c hc).1
      · omega
    · simp only [hi, length_append, length_singleton]
      omega
  have hlength : l.length + 1 = (l ++ [p]).length := by simp
  rw [unmapFrom, hwalk]
  cases m with
  | nil =>
    have hsplit : blocks = (l ++ [p]) ++ t :: r := by rw [h]; simp
    simp only [bind, Except.bind, deref_at h rfl, deref_at hsplit hlength, ht, lt_irrefl,
      if_false, if_true, hunmapped, not_true_eq_false]
    rw [h]
    rfl
  | cons x m =>
    have hx := hm x mem_cons_self
    have hsplit : blocks = (l ++ [p]) ++ x :: (m ++ t :: r) := by rw [h]; simp
    have hkeep : blocks = (l ++ [p]) ++
        ((x :: m).take m.length ++ ((x :: m).drop m.length ++ t :: r)) := by
      rw [← append_assoc ((x :: m).take m.length), take_append_drop, hsplit]
      simp
    have herase : eraseRange blocks (l.length + 1) (l.length + (x :: m).length) =
        .ok ((l ++ [p]) ++ ((x :: m).drop m.length ++ t :: r)) :=
      eraseRange_at hkeep hlength (by simp; omega)
    simp only [bind, Except.bind, deref_at h rfl, deref_at hsplit hlength,
      if_neg (not_lt.mpr (le_of_lt hx.2)), if_neg (ne_of_lt hx.2), if_pos hunmapped, herase]
    simp

end Paths

/-! ## A vector cut at the ends of a range -/

section Cut

variable {Pa Extra : Type} {p : Block Pa Extra} {blocks l B C : List (Block Pa Extra)}
variable {virt virtEnd : Nat}

/-- The last block that starts before the range, those that start in it and those after it. -/
structure Cut (blocks : List (Block Pa Extra)) (virt virtEnd : Nat) (l : List (Block Pa Extra))
    (p : Block Pa Extra) (B C : List (Block Pa Extra)) : Prop where
  eq : blocks = l ++ p :: (B ++ C)
  le : virt ≤ virtEnd
  before : ∀ c ∈ l ++ [p], c.virt < virt
  inside : ∀ c ∈ B, virt ≤ c.virt ∧ c.virt < virtEnd
  after : ∀ c ∈ C, virtEnd ≤ c.virt

theorem WellFormed.exists_cut {sp : Split Pa} (h : WellFormed sp blocks) (hvirt : 0 < virt)
    (hle : virt ≤ virtEnd) : ∃ l p B C, Cut blocks virt virtEnd l p B C := by
  have hsorted := pairwise_of_isChain h.chain
  obtain ⟨before, rest, hsplit, hbefore, hrest⟩ := Foundations.exists_cut virt hsorted
  have hright : rest.Pairwise fun a b => a.virt < b.virt := by
    rw [hsplit] at hsorted
    exact (pairwise_append.mp hsorted).2.1
  obtain ⟨B, C, hsplit', hB, hC⟩ := Foundations.exists_cut virtEnd hright
  cases before using reverseRecOn with
  | nil =>
    -- the first block starts at zero
    obtain ⟨b, hb, hzero⟩ := h.first
    rw [hsplit, nil_append] at hb
    have := hrest b (mem_of_mem_head? hb)
    omega
  | append_singleton l p =>
    refine ⟨l, p, B, C, ⟨?_, hle, hbefore, fun c hc => ⟨hrest c ?_, hB c hc⟩, hC⟩⟩
    · rw [hsplit, hsplit', append_assoc, singleton_append]
    · rw [hsplit']
      exact mem_append_left C hc

namespace Cut

theorem lt (h : Cut blocks virt virtEnd l p B C) : p.virt < virt :=
  h.before p (by simp)

theorem right (h : Cut blocks virt virtEnd l p B C) : ∀ c ∈ B ++ C, virt ≤ c.virt := by
  intro c hc
  rcases mem_append.mp hc with hc | hc
  · exact (h.inside c hc).1
  · exact le_trans h.le (h.after c hc)

theorem lowerBound_eq (h : Cut blocks virt virtEnd l p B C) :
    lowerBound blocks virtEnd = l.length + 1 + B.length := by
  have hbefore : ∀ c ∈ l ++ p :: B, c.virt < virtEnd := by
    intro c hc
    rw [append_cons, mem_append] at hc
    rcases hc with hc | hc
    · exact lt_of_lt_of_le (h.before c hc) h.le
    · exact (h.inside c hc).2
  have hsplit : blocks = (l ++ p :: B) ++ C := by rw [h.eq]; simp
  rw [lowerBound, hsplit, findIdx_cut hbefore h.after, length_append, length_cons]
  omega

theorem after_lt {sp : Split Pa} {c : Block Pa Extra} (h : Cut blocks virt virtEnd l p B (c :: C))
    (hwf : WellFormed sp blocks) (hc : c.virt ≠ virtEnd) : ∀ d ∈ c :: C, virtEnd < d.virt := by
  have hat := h.after c mem_cons_self
  have hsplit : blocks = (l ++ p :: B) ++ c :: C := by rw [h.eq]; simp
  rw [hsplit] at hwf
  have hsorted := pairwise_of_isChain hwf.right.1
  intro d hd
  rcases mem_cons.mp hd with rfl | hd
  · omega
  · have := (pairwise_cons.mp hsorted).1 d hd
    omega

end Cut

end Cut

/-! ## `MapLocked` -/

section Map

variable {Pa Extra : Type} [DecidableEq Pa] [Inhabited Extra] {sp : Split Pa}
variable {p : Block Pa Extra} {blocks l B C : List (Block Pa Extra)} {virt virtEnd : Nat}

/-- `MapLocked` after the search, with `y` the last block that starts before the end. -/
theorem mapBlocks_of_last {y : Block Pa Extra} {n : Nat}
    (hbound : lowerBound blocks virtEnd = n + 1) (hlast : deref blocks n = .ok y) (phys : Pa)
    (extraInfo : Extra) : mapBlocks sp blocks virt virtEnd phys extraInfo =
      match blocks[n + 1]? with
      | some successor =>
        if successor.virt ≠ virtEnd then
          if n ≠ 0 ∧ virt ≤ y.virt then
            mapFrom (blocks.set n (y.tail sp virtEnd)) virt virtEnd ⟨virt, phys, extraInfo⟩ n
          else .ok (insertAt blocks (n + 1) [⟨virt, phys, extraInfo⟩, y.tail sp virtEnd])
        else mapFrom blocks virt virtEnd ⟨virt, phys, extraInfo⟩ (n + 1)
      | none =>
        if n ≠ 0 ∧ virt ≤ y.virt then
          mapFrom (blocks.set n { y with virt := virtEnd }) virt virtEnd ⟨virt, phys, extraInfo⟩ n
        else .ok (insertAt blocks (n + 1)
          [⟨virt, phys, extraInfo⟩, ⟨virtEnd, sp.unmappedPa, default⟩]) := by
  rw [mapBlocks, hbound]
  simp only [Nat.add_one_ne_zero, if_false, Nat.add_sub_cancel, hlast, bind, Except.bind]
  rfl

/-- In every path the new block stands before a block that starts where the range ends. -/
theorem mapBlocks_eq (h : WellFormed sp blocks) (hcut : Cut blocks virt virtEnd l p B C)
    (phys : Pa) (extraInfo : Extra) : ∃ t rest, mapBlocks sp blocks virt virtEnd phys extraInfo =
        .ok (l ++ p :: ⟨virt, phys, extraInfo⟩ :: t :: rest) ∧
      t.virt = virtEnd ∧ Resumes sp blocks virtEnd (t :: rest) := by
  have hle := hcut.le
  have hbound := hcut.lowerBound_eq
  have hp := hcut.lt
  cases B using reverseRecOn with
  | nil =>
    have heq : blocks = l ++ p :: C := hcut.eq
    have hend : blocks = (l ++ [p]) ++ C := by rw [heq]; simp
    have hlength : l.length + 1 = (l ++ [p]).length := by simp
    have hnot : ¬(l.length ≠ 0 ∧ virt ≤ p.virt) := fun hover => absurd hp (not_lt.mpr hover.2)
    rw [mapBlocks_of_last hbound (deref_at heq rfl)]
    cases C with
    | nil =>
      have hnext : blocks[l.length + 1]? = none := by rw [heq]; simp
      refine ⟨⟨virtEnd, sp.unmappedPa, default⟩, [], ?_, rfl, ?_⟩
      · simp only [hnext, if_neg hnot, insertAt_at hend hlength]
        simp
      · rw [heq] at h ⊢
        exact resumes_singleton h (by omega) rfl rfl
    | cons c C =>
      have hnext : blocks[l.length + 1]? = some c := getElem?_at hend hlength
      by_cases hat : c.virt = virtEnd
      · refine ⟨c, C, ?_, hat, ?_⟩
        · simp only [hnext, hat, ne_eq, not_true_eq_false, if_false]
          exact mapFrom_at (m := []) heq hp (by simp) hat (by simp) _
        · rw [hend] at h ⊢
          exact resumes_of_start h hat
      · have hafter := hcut.after_lt h hat
        refine ⟨p.tail sp virtEnd, c :: C, ?_, rfl, ?_⟩
        · simp only [hnext, hat, ne_eq, not_false_eq_true, if_true, hnot, if_false,
            insertAt_at hend hlength]
          simp
        · rw [heq] at h ⊢
          exact resumes_tail h (by omega) hafter
  | append_singleton m x =>
    have hx := hcut.inside x (by simp)
    have heq : blocks = (l ++ p :: m) ++ x :: C := by rw [hcut.eq]; simp
    have hend : blocks = (l ++ p :: (m ++ [x])) ++ C := by rw [hcut.eq]; simp
    have hm : ∀ c ∈ m, virt ≤ c.virt ∧ c.virt < virtEnd := fun c hc => hcut.inside c (by simp [hc])
    have hlength : l.length + 1 + m.length = (l ++ p :: m).length := by simp; omega
    have hlength' : l.length + 1 + m.length + 1 = (l ++ p :: (m ++ [x])).length := by simp; omega
    have hover : l.length + 1 + m.length ≠ 0 ∧ virt ≤ x.virt := ⟨by omega, hx.1⟩
    have hbound' : lowerBound blocks virtEnd = l.length + 1 + m.length + 1 := by
      rw [hbound, length_append, length_singleton]
      omega
    -- the block `y` that takes the place of `x` starts where the range ends
    have hmapFrom : ∀ y : Block Pa Extra, y.virt = virtEnd →
        mapFrom (blocks.set (l.length + 1 + m.length) y) virt virtEnd ⟨virt, phys, extraInfo⟩
          (l.length + 1 + m.length) = .ok (l ++ p :: ⟨virt, phys, extraInfo⟩ :: y :: C) := by
      intro y hy
      exact mapFrom_at (m := m) (by rw [set_at heq hlength]; simp) hp hm hy rfl _
    rw [mapBlocks_of_last hbound' (deref_at heq hlength)]
    cases C with
    | nil =>
      have hnext : blocks[l.length + 1 + m.length + 1]? = none := by
        rw [hend, hlength']
        simp
      refine ⟨{ x with virt := virtEnd }, [], ?_, rfl, ?_⟩
      · simp only [hnext, if_pos hover]
        exact hmapFrom _ rfl
      · rw [heq] at h ⊢
        exact resumes_singleton h (by omega) (h.right.2 x rfl) rfl
    | cons c C =>
      have hnext : blocks[l.length + 1 + m.length + 1]? = some c := getElem?_at hend hlength'
      by_cases hat : c.virt = virtEnd
      · refine ⟨c, C, ?_, hat, ?_⟩
        · simp only [hnext, hat, ne_eq, not_true_eq_false, if_false]
          exact mapFrom_at hcut.eq hp hcut.inside hat (by simp; omega) _
        · rw [hend] at h ⊢
          exact resumes_of_start h hat
      · have hafter := hcut.after_lt h hat
        refine ⟨x.tail sp virtEnd, c :: C, ?_, rfl, ?_⟩
        · simp only [hnext, hat, ne_eq, not_false_eq_true, if_true, if_pos hover]
          exact hmapFrom _ rfl
        · rw [heq] at h ⊢
          exact resumes_tail h (by omega) hafter

end Map

/-! ## `UnmapLocked` -/

section Unmap

variable {Pa Extra : Type} [DecidableEq Pa] {sp : Split Pa}
variable {p : Block Pa Extra} {blocks l B C : List (Block Pa Extra)} {virt virtEnd : Nat}

def startsBefore (blocks : List (Block Pa Extra)) (virt : Nat) : List (Block Pa Extra) :=
  blocks.filter fun b => b.virt < virt

def startsWithin (blocks : List (Block Pa Extra)) (virt virtEnd : Nat) : List (Block Pa Extra) :=
  blocks.filter fun b => virt ≤ b.virt ∧ b.virt < virtEnd

def startsAfter (blocks : List (Block Pa Extra)) (virtEnd : Nat) : List (Block Pa Extra) :=
  blocks.filter fun b => virtEnd ≤ b.virt

/-- The ranges that `UnmapLocked` gets right. After an unmapped block: the last block that starts in
the range is unmapped, or an unmapped one starts at its end, or a single one starts in the range and
none at its end. After a mapped block: the range is not empty, a single unmapped block that starts in
it starts with it, and where none starts in it, no unmapped one starts at its end. -/
def UnmapSound (sp : Split Pa) (blocks : List (Block Pa Extra)) (virt virtEnd : Nat) : Prop :=
  let within := startsWithin blocks virt virtEnd
  let next := (startsAfter blocks virtEnd).head?
  if ∀ p ∈ (startsBefore blocks virt).getLast?, p.Unmapped sp then
    (∀ b ∈ within.getLast?, b.Unmapped sp) ∨ (∃ c ∈ next, c.virt = virtEnd ∧ c.Unmapped sp) ∨
      (within.length = 1 ∧ ∀ c ∈ next, c.virt ≠ virtEnd)
  else
    virt < virtEnd ∧ (within.length = 1 → ∀ b ∈ within, b.Unmapped sp → b.virt = virt) ∧
      (within = [] → ∀ c ∈ next, c.Unmapped sp → c.virt ≠ virtEnd)

variable {f : Nat → Option (Pa × Extra)} {r : List (Block Pa Extra)}

omit [DecidableEq Pa] in
theorem Cut.filters (h : Cut blocks virt virtEnd l p B C) :
    startsBefore blocks virt = l ++ [p] ∧ startsWithin blocks virt virtEnd = B ∧
      startsAfter blocks virtEnd = C := by
  have hle := h.le
  have hsplit : blocks = (l ++ [p]) ++ (B ++ C) := by rw [h.eq]; simp
  rw [hsplit]
  refine ⟨?_, filter_eq_middle ?_ ?_ ?_, ?_⟩
  · refine filter_eq_middle (l := []) (fun c hc => absurd hc not_mem_nil) ?_ ?_
    · exact fun c hc => decide_eq_true (h.before c hc)
    · exact fun c hc => decide_eq_false (not_lt.mpr (h.right c hc))
  · exact fun c hc => decide_eq_false fun hin => absurd (h.before c hc) (not_lt.mpr hin.1)
  · exact fun c hc => decide_eq_true (h.inside c hc)
  · exact fun c hc => decide_eq_false fun hin => absurd (h.after c hc) (not_le.mpr hin.2)
  · have hfilter : (((l ++ [p]) ++ B) ++ (C ++ [])).filter (fun b => virtEnd ≤ b.virt) = C := by
      refine filter_eq_middle ?_ ?_ fun c hc => absurd hc not_mem_nil
      · intro c hc
        refine decide_eq_false (not_le.mpr ?_)
        rcases mem_append.mp hc with hc | hc
        · exact lt_of_lt_of_le (h.before c hc) hle
        · exact (h.inside c hc).2
      · exact fun c hc => decide_eq_true (h.after c hc)
    rw [startsAfter, ← append_assoc]
    rwa [append_nil] at hfilter

theorem Cut.unmapSound_of_unmapped (h : Cut blocks virt virtEnd l p B C) (hp : p.Unmapped sp) :
    UnmapSound sp blocks virt virtEnd ↔
      (∀ b ∈ B.getLast?, b.Unmapped sp) ∨ (∃ c ∈ C.head?, c.virt = virtEnd ∧ c.Unmapped sp) ∨
        (B.length = 1 ∧ ∀ c ∈ C.head?, c.virt ≠ virtEnd) := by
  obtain ⟨hbefore, hwithin, hafter⟩ := h.filters
  have hlast : ∀ q ∈ (l ++ [p]).getLast?, q.Unmapped sp := by
    intro q hq
    rw [getLast?_concat] at hq
    exact some.inj hq ▸ hp
  rw [UnmapSound, hbefore, hwithin, hafter]
  exact iff_of_eq (if_pos hlast)

theorem Cut.unmapSound_of_mapped (h : Cut blocks virt virtEnd l p B C) (hp : ¬p.Unmapped sp) :
    UnmapSound sp blocks virt virtEnd ↔
      virt < virtEnd ∧ (B.length = 1 → ∀ b ∈ B, b.Unmapped sp → b.virt = virt) ∧
        (B = [] → ∀ c ∈ C.head?, c.Unmapped sp → c.virt ≠ virtEnd) := by
  obtain ⟨hbefore, hwithin, hafter⟩ := h.filters
  have hlast : ¬∀ q ∈ (l ++ [p]).getLast?, q.Unmapped sp := by
    intro hall
    exact hp (hall p (by rw [getLast?_concat]; rfl))
  rw [UnmapSound, hbefore, hwithin, hafter]
  exact iff_of_eq (if_neg hlast)

/-- What is asked of a vector after each operation. -/
structure Tidy (sp : Split Pa) (blocks : List (Block Pa Extra)) : Prop where
  sorted : blocks.Pairwise fun a b => a.virt < b.virt
  last : ∀ b ∈ blocks.getLast?, b.Unmapped sp
  apart : blocks.IsChain fun a b => ¬(a.Unmapped sp ∧ b.Unmapped sp)

omit [DecidableEq Pa] in
theorem WellFormed.tidy (h : WellFormed sp blocks) : Tidy sp blocks :=
  ⟨pairwise_of_isChain h.chain, h.last, h.chain.imp fun _ _ hfollows => hfollows.notBoth⟩

/-- No assertion fails, and the vector is tidy and stands for the function `f`. -/
def Delivers (sp : Split Pa) (result : Except Fault (List (Block Pa Extra)))
    (f : Nat → Option (Pa × Extra)) : Prop :=
  ∃ new, result = .ok new ∧ Tidy sp new ∧ ∀ va, mappingAt sp new va = f va

theorem not_delivers_error {e : Fault} :
    ¬Delivers sp (.error e : Except Fault (List (Block Pa Extra))) f := by
  rintro ⟨new, h, -⟩
  cases h

/-- Two neighbours that start at the same address. -/
theorem not_delivers_unsorted {a b : Block Pa Extra} (hab : b.virt ≤ a.virt) :
    ¬Delivers sp (.ok (l ++ a :: b :: r)) f := by
  rintro ⟨new, h, htidy, -⟩
  cases h
  have hpair := (pairwise_append.mp htidy.sorted).2.1
  have := (pairwise_cons.mp hpair).1 b mem_cons_self
  omega

/-- A block of the range that is left behind an unmapped one. -/
theorem not_delivers_leftover {z : Block Pa Extra} (hp : p.Unmapped sp)
    (hz : virt ≤ z.virt ∧ z.virt < virtEnd) :
    ¬Delivers sp (.ok (l ++ p :: z :: r)) (updateRange f virt virtEnd fun _ => none) := by
  rintro ⟨new, h, htidy, hmapping⟩
  cases h
  have hright := htidy.apart.right_of_append
  have hmapped : ¬z.Unmapped sp :=
    fun hz' => (isChain_cons_cons.mp hright).1 ⟨hp, hz'⟩
  have hpair := (pairwise_append.mp htidy.sorted).2.1
  have hlater : ∀ c ∈ r, z.virt < c.virt := (pairwise_cons.mp (pairwise_cons.mp hpair).2).1
  have hvalue := hmapping z.virt
  rw [append_cons, mappingAt_singleton_append (le_refl _) hlater, Block.valueAt,
    if_neg hmapped, updateRange, if_pos hz] at hvalue
  cases hvalue

theorem Block.tail_of_mapped {y : Block Pa Extra} (h : ¬y.Unmapped sp) :
    (⟨virtEnd, sp.advance y.phys (virtEnd - y.virt), y.extraInfo⟩ : Block Pa Extra) =
      y.tail sp virtEnd := by
  rw [Block.tail, Block.tailPhys, if_neg h]

variable [Inhabited Extra]

/-- `UnmapLocked` after the search, with `y` the last block that starts before the end. -/
theorem unmapBlocks_of_last {y : Block Pa Extra} {n : Nat}
    (hbound : lowerBound blocks virtEnd = n + 1) (hlast : deref blocks n = .ok y) :
    unmapBlocks sp blocks virt virtEnd =
      if y.Unmapped sp then
        if virt < y.virt then eraseBlocksWithEndUnmapped sp blocks virt n else .ok blocks
      else
        match blocks[n + 1]? with
        | none => .error .unexpectedState
        | some successor =>
          if successor.virt = virtEnd ∧ successor.Unmapped sp then
            eraseBlocksWithEndUnmapped sp blocks virt (n + 1)
          else if successor.virt ≠ virtEnd then
            if virt ≤ y.virt then
              unmapFrom sp (blocks.set n
                  ⟨virtEnd, sp.advance y.phys (virtEnd - y.virt), y.extraInfo⟩)
                virt virtEnd (n - 1) n
            else
              .ok (insertAt blocks (n + 1) [⟨virt, sp.unmappedPa, default⟩,
                ⟨virtEnd, sp.advance y.phys (virtEnd - y.virt), y.extraInfo⟩])
          else unmapFrom sp blocks virt virtEnd n (n + 1) := by
  rw [unmapBlocks, hbound]
  simp only [Nat.add_one_ne_zero, if_false, Nat.add_sub_cancel, hlast, bind, Except.bind]
  rfl

/-- `UnmapLocked` does what it is for, in the ranges that it gets right and in no others. -/
def UnmapOutcome (sp : Split Pa) (blocks : List (Block Pa Extra)) (virt virtEnd : Nat) : Prop :=
  (UnmapSound sp blocks virt virtEnd ∧
      ∃ new, unmapBlocks sp blocks virt virtEnd = .ok new ∧ WellFormed sp new ∧
        ∀ va, mappingAt sp new va =
          updateRange (mappingAt sp blocks) virt virtEnd (fun _ => none) va) ∨
    (¬UnmapSound sp blocks virt virtEnd ∧ ¬Delivers sp (unmapBlocks sp blocks virt virtEnd)
        (updateRange (mappingAt sp blocks) virt virtEnd fun _ => none))

section

variable (h : WellFormed sp blocks)
include h

/-- No block starts in the range. -/
theorem unmapOutcome_of_none (hcut : Cut blocks virt virtEnd l p [] C) :
    UnmapOutcome sp blocks virt virtEnd := by
  have hle := hcut.le
  have hp := hcut.lt
  have heq : blocks = l ++ p :: C := hcut.eq
  have hend : blocks = (l ++ [p]) ++ C := by rw [heq]; simp
  have hlength : l.length + 1 = (l ++ [p]).length := by simp
  have hwf : WellFormed sp (l ++ p :: C) := heq ▸ h
  have hright : ∀ c ∈ C, virt ≤ c.virt := hcut.right
  rw [UnmapOutcome, unmapBlocks_of_last hcut.lowerBound_eq (deref_at heq rfl)]
  by_cases hunmapped : p.Unmapped sp
  · -- the range is in an unmapped region already
    refine inl ⟨(hcut.unmapSound_of_unmapped hunmapped).mpr (inl (by simp)), blocks, ?_, h, ?_⟩
    · rw [if_pos hunmapped, if_neg (by omega)]
    · have hrest := resumes_of_unmapped hwf hunmapped (by omega) hcut.after
      have hhead : ∀ c ∈ C.head?, ¬c.Unmapped sp := fun c hc hc' =>
        ((isChain_cons.mp hwf.right.1).1 c hc).notBoth ⟨hunmapped, hc'⟩
      rw [heq]
      exact (hwf.unmap_range_merge hp hright hle hunmapped hrest hhead).2
  · have hsound := hcut.unmapSound_of_mapped hunmapped
    rw [if_neg hunmapped]
    cases C with
    | nil => exact absurd (hwf.right.2 p rfl) hunmapped
    | cons c C =>
      have hnext : blocks[l.length + 1]? = some c := getElem?_at hend hlength
      simp only [hnext]
      by_cases hreuse : c.virt = virtEnd ∧ c.Unmapped sp
      · refine inr ⟨fun hok => (hsound.mp hok).2.2 rfl c rfl hreuse.2 hreuse.1, ?_⟩
        rw [if_pos hreuse, eraseBlocksWithEndUnmapped_reuse (m := []) heq hp (by simp)
          (by omega) (by simp) hunmapped, if_pos rfl]
        exact not_delivers_error
      · rw [if_neg hreuse]
        have hresult : ∃ u t rest, (if c.virt ≠ virtEnd then
              if virt ≤ p.virt then
                unmapFrom sp (blocks.set l.length
                    ⟨virtEnd, sp.advance p.phys (virtEnd - p.virt), p.extraInfo⟩)
                  virt virtEnd (l.length - 1) l.length
              else
                .ok (insertAt blocks (l.length + 1) [⟨virt, sp.unmappedPa, default⟩,
                  ⟨virtEnd, sp.advance p.phys (virtEnd - p.virt), p.extraInfo⟩])
            else unmapFrom sp blocks virt virtEnd l.length (l.length + 1)) =
              .ok (l ++ p :: u :: t :: rest) ∧ u.Unmapped sp ∧ u.virt = virt ∧
            t.virt = virtEnd ∧ ¬t.Unmapped sp ∧ Resumes sp (l ++ p :: c :: C) virtEnd (t :: rest) := by
          by_cases hat : c.virt = virtEnd
          · obtain ⟨extraInfo, hfrom⟩ := unmapFrom_of_mapped (m := []) heq hp (by simp) hat hle
              (i := l.length + 1) (by simp) hunmapped l.length
            refine ⟨⟨virt, sp.unmappedPa, extraInfo⟩, c, C, ?_, rfl, rfl, hat,
              fun hc => hreuse ⟨hat, hc⟩, ?_⟩
            · rw [if_neg (not_not.mpr hat), hfrom]
            · rw [append_cons] at hwf ⊢
              exact resumes_of_start hwf hat
          · have hafter := hcut.after_lt h hat
            refine ⟨⟨virt, sp.unmappedPa, default⟩, p.tail sp virtEnd, c :: C, ?_, rfl, rfl, rfl,
              ?_, resumes_tail hwf (by omega) hafter⟩
            · rw [if_pos hat, if_neg (not_le.mpr hp), insertAt_at hend hlength,
                Block.tail_of_mapped hunmapped]
              simp
            · exact mt (Block.tail_unmapped_iff (hwf.advance_ne (by omega) hafter)).mp hunmapped
        obtain ⟨u, t, rest, heq', hu, hvirt, ht, htmapped, hrest⟩ := hresult
        rw [heq']
        rcases lt_or_ge virt virtEnd with hlt | hge
        · refine inl ⟨hsound.mpr ⟨hlt, by simp, ?_⟩, _, rfl, ?_⟩
          · rintro - d hd hd' hat
            exact hreuse (some.inj hd ▸ ⟨hat, hd'⟩)
          · rw [heq]
            exact hwf.unmap_range hp hright hlt hunmapped hu hvirt hrest
              fun d hd => some.inj hd ▸ htmapped
        · refine inr ⟨fun hok => absurd (hsound.mp hok).1 (not_lt.mpr hge), ?_⟩
          rw [append_cons]
          exact not_delivers_unsorted (by omega)

/-- The last block that starts in the range is unmapped. -/
theorem unmapOutcome_of_last_unmapped {m : List (Block Pa Extra)} {x : Block Pa Extra}
    (hcut : Cut blocks virt virtEnd l p (m ++ [x]) C) (hx : x.Unmapped sp) :
    UnmapOutcome sp blocks virt virtEnd := by
  have hle := hcut.le
  have hp := hcut.lt
  have hin := hcut.inside x (by simp)
  have heq : blocks = (l ++ p :: m) ++ x :: C := by rw [hcut.eq]; simp
  have heq' : blocks = l ++ p :: (m ++ x :: C) := by rw [hcut.eq]; simp
  have hwf : WellFormed sp ((l ++ p :: m) ++ x :: C) := heq ▸ h
  have hwf' : WellFormed sp (l ++ p :: (m ++ x :: C)) := heq' ▸ h
  have hlength : l.length + 1 + m.length = (l ++ p :: m).length := by simp; omega
  have hbound : lowerBound blocks virtEnd = l.length + 1 + m.length + 1 := by
    rw [hcut.lowerBound_eq, length_append, length_singleton]
    omega
  have hm : ∀ c ∈ m, virt ≤ c.virt := fun c hc => (hcut.inside c (by simp [hc])).1
  have hright : ∀ c ∈ m ++ x :: C, virt ≤ c.virt := by
    have := hcut.right
    rwa [append_assoc, singleton_append] at this
  have hhead : ∀ c ∈ C.head?, ¬c.Unmapped sp := fun c hc hc' =>
    ((isChain_cons.mp hwf.right.1).1 c hc).notBoth ⟨hx, hc'⟩
  have hrest : Resumes sp (l ++ p :: (m ++ x :: C)) virtEnd C := by
    have := resumes_of_unmapped hwf hx (by omega) hcut.after
    rwa [← heq, heq'] at this
  have hfirst : m ≠ [] → virt < x.virt := by
    intro hm'
    obtain ⟨y, hy⟩ := exists_mem_of_ne_nil m hm'
    have hsorted := (pairwise_cons.mp (pairwise_of_isChain hwf'.right.1)).2
    have := (pairwise_append.mp hsorted).2.2 y hy x mem_cons_self
    exact lt_of_le_of_lt (hm y hy) this
  rw [UnmapOutcome, unmapBlocks_of_last hbound (deref_at heq hlength), if_pos hx]
  by_cases hunmapped : p.Unmapped sp
  · have hsound := (hcut.unmapSound_of_unmapped hunmapped).mpr
      (inl fun b hb => some.inj (getLast?_concat ▸ hb) ▸ hx)
    have hlt : virt < x.virt := by
      -- two unmapped blocks are not neighbours, so that a block of the range is between them
      refine hfirst fun hnil => ?_
      subst hnil
      exact (isChain_cons_cons.mp hwf'.right.1).1.notBoth ⟨hunmapped, hx⟩
    refine inl ⟨hsound, l ++ p :: C, ?_, ?_⟩
    · rw [if_pos hlt]
      exact eraseBlocksWithEndUnmapped_merge heq' hp hm hin.1 rfl hunmapped hhead
    · rw [heq']
      exact hwf'.unmap_range_merge hp hright hle hunmapped hrest hhead
  · have hsound := hcut.unmapSound_of_mapped hunmapped
    by_cases hlt : virt < x.virt
    · rw [if_pos hlt, eraseBlocksWithEndUnmapped_reuse heq' hp hm hin.1 rfl hunmapped]
      by_cases hnil : m = []
      · rw [if_pos hnil]
        refine inr ⟨fun hok => ?_, not_delivers_error⟩
        have := (hsound.mp hok).2.1 (by simp [hnil]) x (by simp) hx
        omega
      · rw [if_neg hnil]
        refine inl ⟨hsound.mpr ⟨by omega, ?_, by simp⟩, _, rfl, ?_⟩
        · simp [hnil]
        · rw [heq']
          exact hwf'.unmap_range (u := { x with virt := virt }) hp hright (by omega) hunmapped hx rfl
            hrest hhead
    · -- the block starts with the range, and there is nothing to do
      have hnil : m = [] := by_contra fun hm' => hlt (hfirst hm')
      subst hnil
      rw [if_neg hlt]
      refine inl ⟨hsound.mpr ⟨by omega, ?_, by simp⟩, blocks, rfl, h, ?_⟩
      · rintro - b hb -
        rw [nil_append, mem_singleton] at hb
        rw [hb]
        omega
      · rw [heq']
        exact (hwf'.unmap_range hp hright (by omega) hunmapped hx (by omega) hrest hhead).2

/-- The end of `UnmapLocked`, with the blocks `M` of the range left before the block `t` at its
end: behind an unmapped block, all is well only when there are none. -/
theorem unmapFrom_outcome {M blocks' : List (Block Pa Extra)} {t : Block Pa Extra} {Q : Prop}
    (hcut : Cut blocks virt virtEnd l p B C) (hlt : virt < virtEnd)
    (heq : blocks' = l ++ p :: (M ++ t :: r)) (hM : ∀ c ∈ M, virt ≤ c.virt ∧ c.virt < virtEnd)
    (ht : t.virt = virtEnd) (hmapped : ¬t.Unmapped sp) (hrest : Resumes sp blocks virtEnd (t :: r))
    (hsound : ¬p.Unmapped sp → Q) (hsound' : p.Unmapped sp → (Q ↔ M = [])) :
    (Q ∧ ∃ new, unmapFrom sp blocks' virt virtEnd (l.length + M.length) (l.length + 1 + M.length) =
          .ok new ∧ WellFormed sp new ∧
        ∀ va, mappingAt sp new va =
          updateRange (mappingAt sp blocks) virt virtEnd (fun _ => none) va) ∨
      (¬Q ∧ ¬Delivers sp
        (unmapFrom sp blocks' virt virtEnd (l.length + M.length) (l.length + 1 + M.length))
        (updateRange (mappingAt sp blocks) virt virtEnd fun _ => none)) := by
  have hp := hcut.lt
  have hwf : WellFormed sp (l ++ p :: (B ++ C)) := hcut.eq ▸ h
  have hhead : ∀ c ∈ (t :: r).head?, ¬c.Unmapped sp := fun c hc => some.inj hc ▸ hmapped
  by_cases hunmapped : p.Unmapped sp
  · rw [unmapFrom_of_unmapped heq hp hM ht (le_of_lt hlt) rfl hunmapped]
    cases M using reverseRecOn with
    | nil =>
      refine inl ⟨(hsound' hunmapped).mpr rfl, _, rfl, ?_⟩
      rw [hcut.eq] at hrest ⊢
      exact hwf.unmap_range_merge hp hcut.right (le_of_lt hlt) hunmapped hrest hhead
    | append_singleton M z =>
      refine inr ⟨fun hq => by simpa using (hsound' hunmapped).mp hq, ?_⟩
      have hdrop : (M ++ [z]).drop ((M ++ [z]).length - 1) = [z] := by simp
      rw [hdrop]
      exact not_delivers_leftover hunmapped (hM z (by simp))
  · obtain ⟨extraInfo, hfrom⟩ := unmapFrom_of_mapped heq hp hM ht (le_of_lt hlt) rfl hunmapped
      (l.length + M.length)
    refine inl ⟨hsound hunmapped, _, hfrom, ?_⟩
    rw [hcut.eq] at hrest ⊢
    exact hwf.unmap_range (u := ⟨virt, sp.unmappedPa, extraInfo⟩) hp hcut.right hlt hunmapped rfl rfl
      hrest hhead

/-- The last block that starts in the range is mapped. -/
theorem unmapOutcome_of_last_mapped {m : List (Block Pa Extra)} {x : Block Pa Extra}
    (hcut : Cut blocks virt virtEnd l p (m ++ [x]) C) (hx : ¬x.Unmapped sp) :
    UnmapOutcome sp blocks virt virtEnd := by
  have hle := hcut.le
  have hp := hcut.lt
  have hin := hcut.inside x (by simp)
  have heq : blocks = (l ++ p :: m) ++ x :: C := by rw [hcut.eq]; simp
  have hend : blocks = (l ++ p :: (m ++ [x])) ++ C := by rw [hcut.eq]; simp
  have hwf : WellFormed sp (l ++ p :: ((m ++ [x]) ++ C)) := hcut.eq ▸ h
  have hlength : l.length + 1 + m.length = (l ++ p :: m).length := by simp; omega
  have hlength' : l.length + 1 + m.length + 1 = (l ++ p :: (m ++ [x])).length := by simp; omega
  have hbound : lowerBound blocks virtEnd = l.length + 1 + m.length + 1 := by
    rw [hcut.lowerBound_eq, length_append, length_singleton]
    omega
  have hm : ∀ c ∈ m, virt ≤ c.virt ∧ c.virt < virtEnd := fun c hc => hcut.inside c (by simp [hc])
  have hlast : (m ++ [x]).getLast? = some x := getLast?_concat
  rw [UnmapOutcome, unmapBlocks_of_last hbound (deref_at heq hlength), if_neg hx]
  cases C with
  | nil =>
    rw [heq] at h
    exact absurd (h.right.2 x rfl) hx
  | cons c C =>
    have hnext : blocks[l.length + 1 + m.length + 1]? = some c := getElem?_at hend hlength'
    have hinside : ∀ c ∈ m ++ [x], virt ≤ c.virt := fun c hc => (hcut.inside c hc).1
    have hsound : ¬p.Unmapped sp → UnmapSound sp blocks virt virtEnd := by
      intro hmapped
      refine (hcut.unmapSound_of_mapped hmapped).mpr ⟨by omega, fun hone b hb hb' => ?_, by simp⟩
      have hnil : m = [] := by
        rw [length_append, length_singleton] at hone
        exact length_eq_zero_iff.mp (by omega)
      rw [hnil, nil_append, mem_singleton] at hb
      exact absurd hb' (hb ▸ hx)
    simp only [hnext]
    by_cases hreuse : c.virt = virtEnd ∧ c.Unmapped sp
    · -- the unmapped block behind the range moves to its start, or is merged
      rw [if_pos hreuse]
      have hstart := resumes_of_start (hend ▸ h) hreuse.1
      have hrest : Resumes sp (l ++ p :: ((m ++ [x]) ++ c :: C)) virtEnd C := by
        rw [← hend, hcut.eq] at hstart
        exact hstart.tail_of_unmapped hreuse.2
      have hhead : ∀ d ∈ C.head?, ¬d.Unmapped sp := fun d hd hd' =>
        ((isChain_cons.mp hstart.chain).1 d hd).notBoth ⟨hreuse.2, hd'⟩
      by_cases hunmapped : p.Unmapped sp
      · refine inl ⟨(hcut.unmapSound_of_unmapped hunmapped).mpr
          (inr (inl ⟨c, rfl, hreuse⟩)), l ++ p :: C, ?_, ?_⟩
        · exact eraseBlocksWithEndUnmapped_merge hcut.eq hp hinside (by omega)
            (by simp; omega) hunmapped hhead
        · rw [hcut.eq]
          exact hwf.unmap_range_merge hp hcut.right hle hunmapped hrest hhead
      · refine inl ⟨hsound hunmapped, l ++ p :: { c with virt := virt } :: C, ?_, ?_⟩
        · rw [eraseBlocksWithEndUnmapped_reuse hcut.eq hp hinside (by omega) (by simp; omega)
            hunmapped, if_neg (by simp)]
        · rw [hcut.eq]
          exact hwf.unmap_range (u := { c with virt := virt }) hp hcut.right (by omega) hunmapped
            hreuse.2 rfl hrest hhead
    · rw [if_neg hreuse]
      have hlast' : ¬∀ b ∈ (m ++ [x]).getLast?, b.Unmapped sp := fun hall => hx (hall x hlast)
      have hnext' : ¬∃ d ∈ (c :: C).head?, d.virt = virtEnd ∧ d.Unmapped sp := by
        rintro ⟨d, hd, hd'⟩
        exact hreuse (some.inj hd ▸ hd')
      by_cases hat : c.virt = virtEnd
      · rw [if_neg (not_not.mpr hat)]
        have hstart := resumes_of_start (hend ▸ h) hat
        rw [← hend] at hstart
        have hsound' : p.Unmapped sp → (UnmapSound sp blocks virt virtEnd ↔ m ++ [x] = []) := by
          intro hunmapped
          rw [hcut.unmapSound_of_unmapped hunmapped]
          refine iff_of_false ?_ (by simp)
          rintro (hall | hex | ⟨-, hne⟩)
          · exact hlast' hall
          · exact hnext' hex
          · exact hne c rfl hat
        have hindex : l.length + 1 + m.length = l.length + (m ++ [x]).length := by simp; omega
        have hindex' : l.length + (m ++ [x]).length + 1 = l.length + 1 + (m ++ [x]).length := by
          omega
        rw [hindex, hindex']
        exact unmapFrom_outcome h hcut (by omega) hcut.eq hcut.inside hat
          (fun hc => hreuse ⟨hat, hc⟩) hstart hsound hsound'
      · rw [if_pos hat, if_pos hin.1, Block.tail_of_mapped hx]
        have hafter := hcut.after_lt h hat
        have htail := resumes_tail (heq ▸ h) (by omega) hafter
        rw [← heq] at htail
        have hne := (heq ▸ h : WellFormed sp ((l ++ p :: m) ++ x :: c :: C)).advance_ne
          (by omega) hafter
        have hsound' : p.Unmapped sp → (UnmapSound sp blocks virt virtEnd ↔ m = []) := by
          intro hunmapped
          rw [hcut.unmapSound_of_unmapped hunmapped]
          constructor
          · rintro (hall | hex | ⟨hone, -⟩)
            · exact absurd hall hlast'
            · exact absurd hex hnext'
            · rw [length_append, length_singleton] at hone
              exact length_eq_zero_iff.mp (by omega)
          · rintro rfl
            exact inr (inr ⟨rfl, fun d hd => some.inj hd ▸ hat⟩)
        have hset : blocks.set (l.length + 1 + m.length) (x.tail sp virtEnd) =
            l ++ p :: (m ++ x.tail sp virtEnd :: c :: C) := by
          rw [set_at heq hlength]
          simp
        have hindex : l.length + 1 + m.length - 1 = l.length + m.length := by omega
        rw [hindex]
        exact unmapFrom_outcome h hcut (by omega) hset hm rfl
          (mt (Block.tail_unmapped_iff hne).mp hx) htail hsound hsound'

theorem unmapOutcome (hvirt : 0 < virt) (hle : virt ≤ virtEnd) :
    UnmapOutcome sp blocks virt virtEnd := by
  obtain ⟨l, p, B, C, hcut⟩ := h.exists_cut hvirt hle
  cases B using reverseRecOn with
  | nil => exact unmapOutcome_of_none h hcut
  | append_singleton m x =>
    by_cases hx : x.Unmapped sp
    · exact unmapOutcome_of_last_unmapped h hcut hx
    · exact unmapOutcome_of_last_mapped h hcut hx

end

end Unmap

/-! ## Runs -/

section Runs

variable {Pa Extra : Type} [DecidableEq Pa] [Inhabited Extra]

inductive Operation (Pa Extra : Type) where
  | map (virt : Nat) (phys : Pa) (size : Nat) (extraInfo : Extra)
  | unmap (virt size : Nat)

def perform (sp : Split Pa) (m : FlatAddressSpaceMap Pa Extra) :
    Operation Pa Extra → Except Fault (FlatAddressSpaceMap Pa Extra)
  | .map virt phys size extraInfo => mapLocked sp m virt phys size extraInfo
  | .unmap virt size => unmapLocked sp m virt size

namespace Operation

/-- A range of the address space; what is mapped are physical addresses, not the one that stands for
none. -/
def InRange (sp : Split Pa) (m : FlatAddressSpaceMap Pa Extra) : Operation Pa Extra → Prop
  | .map virt phys size _ => 0 < virt ∧ virt + size ≤ m.vaLimit ∧
      ∀ n < size, sp.advance phys n ≠ sp.unmappedPa
  | .unmap virt size => 0 < virt ∧ virt + size ≤ m.vaLimit

/-- The operations that the code gets right. -/
def Sound (sp : Split Pa) (m : FlatAddressSpaceMap Pa Extra) : Operation Pa Extra → Prop
  | .map _ _ size _ => 0 < size
  | .unmap virt size => UnmapSound sp m.blocks virt (virt + size)

/-- The function that the map is to stand for after an operation. -/
def apply (sp : Split Pa) (f : Nat → Option (Pa × Extra)) :
    Operation Pa Extra → Nat → Option (Pa × Extra)
  | .map virt phys size extraInfo =>
    updateRange f virt (virt + size) fun va => some (sp.advance phys (va - virt), extraInfo)
  | .unmap virt size => updateRange f virt (virt + size) fun _ => none

/-- No assertion fails, the vector is tidy afterwards, and exactly the addresses of the range have
changed as they should. -/
def Meets (sp : Split Pa) (m : FlatAddressSpaceMap Pa Extra) (op : Operation Pa Extra) : Prop :=
  ∃ m', perform sp m op = .ok m' ∧ Tidy sp m'.blocks ∧
    ∀ va, mappingAt sp m'.blocks va = op.apply sp (mappingAt sp m.blocks) va

end Operation

/-- The states of the runs whose operations the code gets right. -/
inductive Reachable (sp : Split Pa) : FlatAddressSpaceMap Pa Extra → Prop where
  | start {m : FlatAddressSpaceMap Pa Extra} (h : m.blocks = [⟨0, sp.unmappedPa, default⟩]) :
      Reachable sp m
  | step {m m' : FlatAddressSpaceMap Pa Extra} (hreach : Reachable sp m) (op : Operation Pa Extra)
      (hrange : op.InRange sp m) (hsound : op.Sound sp m) (h : perform sp m op = .ok m') :
      Reachable sp m'

variable {sp : Split Pa} {m : FlatAddressSpaceMap Pa Extra}

omit [DecidableEq Pa] [Inhabited Extra] in
/-- Below the limit, the end of a range does not wrap around. -/
theorem virtEnd_eq {virt size : Nat} (h : virt + size ≤ m.vaLimit) :
    (virt + size) % 2 ^ m.vaBits = virt + size ∧ ¬m.vaLimit < (virt + size) % 2 ^ m.vaBits := by
  have heq := Nat.mod_eq_of_lt (lt_of_le_of_lt h m.vaLimit_lt)
  exact ⟨heq, by omega⟩

theorem mapLocked_eq {virt size : Nat} (h : virt + size ≤ m.vaLimit) (phys : Pa)
    (extraInfo : Extra) : mapLocked sp m virt phys size extraInfo =
      (mapBlocks sp m.blocks virt (virt + size) phys extraInfo).map
        fun blocks => { m with blocks := blocks } := by
  rw [mapLocked, if_neg (virtEnd_eq h).2, (virtEnd_eq h).1]
  cases mapBlocks sp m.blocks virt (virt + size) phys extraInfo <;> rfl

theorem unmapLocked_eq {virt size : Nat} (h : virt + size ≤ m.vaLimit) :
    unmapLocked sp m virt size =
      (unmapBlocks sp m.blocks virt (virt + size)).map fun blocks => { m with blocks := blocks } := by
  rw [unmapLocked, if_neg (virtEnd_eq h).2, (virtEnd_eq h).1]
  cases unmapBlocks sp m.blocks virt (virt + size) <;> rfl

/-- One operation from a well-formed vector: it ends in a well-formed one that stands for the right
function, or it is not one that the code gets right. -/
theorem perform_outcome (h : WellFormed sp m.blocks) {op : Operation Pa Extra}
    (hrange : op.InRange sp m) :
    (op.Sound sp m ∧ ∃ m', perform sp m op = .ok m' ∧ WellFormed sp m'.blocks ∧
        ∀ va, mappingAt sp m'.blocks va = op.apply sp (mappingAt sp m.blocks) va) ∨
      (¬op.Sound sp m ∧ ¬op.Meets sp m) := by
  cases op with
  | map virt phys size extraInfo =>
    obtain ⟨hvirt, hlimit, hphys⟩ := hrange
    obtain ⟨l, p, B, C, hcut⟩ := h.exists_cut hvirt (Nat.le_add_right virt size)
    obtain ⟨t, rest, hmap, ht, hrest⟩ := mapBlocks_eq h hcut phys extraInfo
    rcases Nat.eq_zero_or_pos size with hsize | hsize
    · refine inr ⟨by simp [Operation.Sound, hsize], ?_⟩
      rintro ⟨m', hperform, htidy, hmapping⟩
      rw [perform, mapLocked_eq hlimit, hmap] at hperform
      cases hperform
      rw [append_cons] at htidy
      exact not_delivers_unsorted (by simp only; omega) ⟨_, rfl, htidy, fun _ => rfl⟩
    · have hmapped : ¬(⟨virt, phys, extraInfo⟩ : Block Pa Extra).Unmapped sp := fun heq =>
        hphys 0 hsize ((sp.advance_zero phys).trans heq)
      refine inl ⟨hsize, _, (mapLocked_eq hlimit phys extraInfo).trans (by rw [hmap]; rfl), ?_⟩
      have hwf : WellFormed sp (l ++ p :: (B ++ C)) := hcut.eq ▸ h
      simp only [Operation.apply]
      rw [hcut.eq] at hrest ⊢
      exact hwf.map_range hcut.lt hcut.right (by omega) rfl
        (fun n hn => hphys n (by omega)) hmapped hrest ht
  | unmap virt size =>
    obtain ⟨hvirt, hlimit⟩ := hrange
    rcases unmapOutcome h hvirt (Nat.le_add_right virt size) with
      ⟨hsound, new, hunmap, hwf, hmapping⟩ | ⟨hsound, hnot⟩
    · refine inl ⟨hsound, { m with blocks := new }, ?_, hwf, hmapping⟩
      rw [perform, unmapLocked_eq hlimit, hunmap]
      rfl
    · refine inr ⟨hsound, ?_⟩
      rintro ⟨m', hperform, htidy, hmapping⟩
      rw [perform, unmapLocked_eq hlimit] at hperform
      cases hunmap : unmapBlocks sp m.blocks virt (virt + size) with
      | error e =>
        rw [hunmap] at hperform
        cases hperform
      | ok new =>
        rw [hunmap] at hperform
        cases hperform
        exact hnot ⟨new, hunmap, htidy, hmapping⟩

theorem Reachable.wellFormed (h : Reachable sp m) : WellFormed sp m.blocks := by
  induction h with
  | start h =>
    rw [h]
    exact ⟨⟨_, rfl, rfl⟩, isChain_singleton _, fun b hb => some.inj hb ▸ rfl⟩
  | step _ op hrange hsound h ih =>
    rcases perform_outcome ih hrange with ⟨-, m', hperform, hwf, -⟩ | ⟨hnot, -⟩
    · rw [h] at hperform
      cases hperform
      exact hwf
    · exact absurd hsound hnot

/-- In every run of operations that the code gets right, the vector is tidy, and of the operations
that may come next the code gets exactly those right that `Sound` describes. -/
theorem reachable_meets_iff (h : Reachable sp m) :
    Tidy sp m.blocks ∧ ∀ op : Operation Pa Extra, op.InRange sp m → (op.Meets sp m ↔ op.Sound sp m) := by
  refine ⟨h.wellFormed.tidy, fun op hrange => ?_⟩
  rcases perform_outcome h.wellFormed hrange with ⟨hsound, m', hperform, hwf, hmapping⟩ | hnot
  · exact iff_of_true ⟨m', hperform, hwf.tidy, hmapping⟩ hsound
  · exact iff_of_false hnot.2 hnot.1

end Runs

section FlatAllocator

/-- The address space of a `FlatAllocator<u32, 0, 32>` with given blocks. -/
def flatAllocator (blocks : List (Block Bool Unit)) : FlatAddressSpaceMap Bool Unit :=
  ⟨blocks, 2 ^ 32 - 1, 32, by decide⟩

/-- Two regions of one page each, as the allocator hands them out one after the other. -/
def twoRegions : List (Block Bool Unit) :=
  [⟨0, false, ()⟩, ⟨0x1000, true, ()⟩, ⟨0x2000, true, ()⟩, ⟨0x3000, false, ()⟩]

theorem reachable_oneRegion : Reachable (constant false)
    (flatAllocator [⟨0, false, ()⟩, ⟨0x1000, true, ()⟩, ⟨0x2000, false, ()⟩]) := by
  have hstart : Reachable (constant false) (flatAllocator [⟨0, false, ()⟩]) := .start rfl
  refine hstart.step (.map 0x1000 true 0x1000 ()) ⟨by decide, by decide, fun _ _ => ?_⟩ ?_ rfl
  · exact Bool.noConfusion
  · exact Nat.succ_pos _

theorem reachable_twoRegions : Reachable (constant false) (flatAllocator twoRegions) := by
  refine reachable_oneRegion.step (.map 0x2000 true 0x1000 ()) ⟨by decide, by decide, fun _ _ => ?_⟩
    ?_ rfl
  · exact Bool.noConfusion
  · exact Nat.succ_pos _

theorem meets_unmap_second_region :
    (Operation.unmap 0x2000 0x1000).Meets (constant false) (flatAllocator twoRegions) := by
  refine ((reachable_meets_iff reachable_twoRegions).2 (.unmap 0x2000 0x1000) ?_).mpr ?_
  · exact ⟨by decide, by decide⟩
  · unfold Operation.Sound UnmapSound
    decide

/-- `Free` of the first of two adjacent regions erases nothing; and where the end of a region is
freed together with what is unmapped behind it, the assertion on unmapped neighbours fails. -/
theorem unmap_first_region_keeps_mapping :
    Reachable (constant false) (flatAllocator twoRegions) ∧
      (Operation.unmap 0x1000 0x1000).InRange (constant false) (flatAllocator twoRegions) ∧
      perform (constant false) (flatAllocator twoRegions) (.unmap 0x1000 0x1000) =
        .ok (flatAllocator twoRegions) ∧
      mappingAt (constant false) twoRegions 0x1000 = some (true, ()) ∧
      ¬(Operation.unmap 0x1000 0x1000).Meets (constant false) (flatAllocator twoRegions) ∧
      perform (constant false)
        (flatAllocator [⟨0, false, ()⟩, ⟨0x1000, true, ()⟩, ⟨0x2000, false, ()⟩])
        (.unmap 0x1800 0x1000) = .error .contiguousUnmappedRegions := by
  have hmapping : mappingAt (constant false) twoRegions 0x1000 = some (true, ()) := by decide
  have hperform : perform (constant false) (flatAllocator twoRegions) (.unmap 0x1000 0x1000) =
      .ok (flatAllocator twoRegions) := rfl
  refine ⟨reachable_twoRegions, ⟨by decide, by decide⟩, hperform, hmapping, ?_, rfl⟩
  rintro ⟨m', hperform', -, hafter⟩
  have hsame : m' = flatAllocator twoRegions := by
    rw [hperform] at hperform'
    exact (Except.ok.inj hperform').symm
  have hnone := hafter 0x1000
  rw [hsame] at hnone
  cases hmapping.symm.trans hnone

end FlatAllocator

end Sudachi.Common
