import Sudachi.Kernel.PageTableOperate

/-!
# `KPageTableBase::IsValidPageGroup`

The comparison of a page group with the pages of a range. The code cuts the range into runs that are
contiguous in physical memory, and takes each of them off the current block of the group. A group
that was built with `AddBlock` has maximal blocks, so its blocks are these runs if it has the same
pages.
-/

set_option autoImplicit false

namespace Sudachi.Kernel

open Sudachi.Common Sudachi.Foundations List

/-- The local variables of `IsValidPageGroup`: `rest` are the blocks behind `cur_it`. -/
structure GroupCheck where
  context : TraversalContext
  curAddr : Nat
  curSize : Nat
  totSize : Nat
  curBlockAddress : Nat
  curBlockPages : Nat
  rest : List KBlockInfo

namespace GroupCheck

/-- `UpdateCurrentIterator`. -/
def updateCurrentIterator (c : GroupCheck) : Option GroupCheck :=
  if c.curBlockPages = 0 then
    match c.rest with
    | [] => none
    | b :: rest =>
      some { c with
        curBlockAddress := b.getAddress
        curBlockPages := b.getNumPages
        rest := rest }
  else some c

/-- The comparison of a run that another one follows. -/
def compareRun (isHeap : Nat → Bool) (c : GroupCheck) : Option GroupCheck :=
  let curPages := c.curSize / pageSize
  if !isHeap c.curAddr then none
  else
    c.updateCurrentIterator.bind fun c =>
      if c.curBlockAddress ≠ c.curAddr ∨ c.curBlockPages < curPages then none
      else some { c with
        curBlockAddress := c.curBlockAddress + c.curSize
        curBlockPages := c.curBlockPages - curPages }

/-- One iteration of the loop. -/
def step (isHeap : Nat → Bool) (t : PageTable) (c : GroupCheck) : Option GroupCheck :=
  let next := t.continueTraversal c.context
  if !next.valid then none
  else if next.entry.physAddr ≠ c.curAddr + c.curSize then
    (c.compareRun isHeap).map fun d =>
      { d with
        context := next.context
        curAddr := next.entry.physAddr
        curSize := next.entry.blockSize
        totSize := c.totSize + next.entry.blockSize }
  else
    some { c with
      context := next.context
      curSize := c.curSize + next.entry.blockSize
      totSize := c.totSize + next.entry.blockSize }

/-- `while (tot_size < size)`. Every iteration takes a page. -/
def loop (isHeap : Nat → Bool) (t : PageTable) (size : Nat) : Nat → GroupCheck → Option GroupCheck
  | 0, c => some c
  | fuel + 1, c =>
    if c.totSize < size then (c.step isHeap t).bind (loop isHeap t size fuel) else some c

/-- The comparison of the last run. -/
def compareLast (isHeap : Nat → Bool) (c : GroupCheck) : Bool :=
  isHeap c.curAddr &&
    match c.updateCurrentIterator with
    | none => false
    | some c => c.curBlockAddress == c.curAddr && c.curBlockPages == c.curSize / pageSize

end GroupCheck

/-- `IsValidPageGroup`. -/
def isValidPageGroup (isHeap : Nat → Bool) (t : PageTable) (pg : KPageGroup)
    (addr numPages : Nat) : Bool :=
  let size := numPages * pageSize
  match pg.blocks with
  | [] => false
  | b :: rest =>
    let first := t.beginTraversal addr
    if !first.valid then false
    else
      let curSize :=
        first.entry.blockSize - (first.entry.physAddr &&& (first.entry.blockSize - 1))
      match GroupCheck.loop isHeap t size numPages
          ⟨first.context, first.entry.physAddr, curSize, curSize, b.getAddress, b.getNumPages,
            rest⟩ with
      | none => false
      | some c =>
        GroupCheck.compareLast isHeap
          (if size < c.totSize then { c with curSize := c.curSize - (c.totSize - size) } else c)

/-! ## Groups that are built with `AddBlock` -/

namespace KPageGroup

/-- The groups that calls of `AddBlock` build out of an empty one, from aligned ranges of pages with
32-bit numbers. -/
inductive Built : KPageGroup → Prop
  | empty (manager : KBlockInfoManager) : Built ⟨[], manager⟩
  | add {g : KPageGroup} (built : Built g) {q n : Nat} (lt : q + n < 2 ^ 32) :
      Built (g.addBlock (q * pageSize) n).2

/-- No block goes on where the one in front of it ends. -/
def Separated (blocks : List KBlockInfo) : Prop :=
  blocks.IsChain fun b b' => b.pageIndex + b.numPages ≠ b'.pageIndex

theorem fits_append {blocks : List KBlockInfo} {b : KBlockInfo} :
    Fits (blocks ++ [b]) ↔ Fits blocks ∧ 0 < b.numPages ∧ b.pageIndex + b.numPages < 2 ^ 32 := by
  constructor
  · intro h
    exact ⟨fun b' hb' => h b' (mem_append_left _ hb'),
      h b (mem_append_right _ (mem_singleton_self b))⟩
  · rintro ⟨hblocks, hb⟩ b' hb'
    rcases mem_append.mp hb' with hold | hnew
    · exact hblocks b' hold
    · rw [mem_singleton.mp hnew]
      exact hb

theorem separated_append {blocks : List KBlockInfo} {b : KBlockInfo} :
    Separated (blocks ++ [b]) ↔ Separated blocks ∧
      ∀ last ∈ blocks.getLast?, last.pageIndex + last.numPages ≠ b.pageIndex := by
  rw [Separated, isChain_append]
  simp [Separated]

/-- The blocks of a group that was built with `AddBlock` are maximal. -/
theorem Built.separated {g : KPageGroup} (h : Built g) : Fits g.blocks ∧ Separated g.blocks := by
  induction h with
  | empty manager => exact ⟨fun b hb => absurd hb not_mem_nil, .nil⟩
  | @add g _ q n hlt ih =>
    obtain ⟨hfits, hsep⟩ := ih
    rcases Nat.eq_zero_or_pos n with rfl | hn
    · exact ⟨hfits, hsep⟩
    · by_cases hapart : ∀ last, g.blocks.getLast? = some last → last.pageIndex + last.numPages ≠ q
      · -- the new block stands apart from the last one
        rw [addBlock_of_apart hfits hn hapart, appendBlock]
        have hinfo : KBlockInfo.initializeInfo (q * pageSize) n = ⟨q, n⟩ := by
          rw [KBlockInfo.initializeInfo, Nat.mul_div_cancel _ pageSize_pos,
            Nat.mod_eq_of_lt (by omega), Nat.mod_eq_of_lt (by omega)]
        rw [hinfo]
        dsimp only
        split_ifs
        · exact ⟨fits_append.mpr ⟨hfits, hn, hlt⟩, separated_append.mpr ⟨hsep, hapart⟩⟩
        · exact ⟨hfits, hsep⟩
      · -- the last block becomes longer
        rw [not_forall] at hapart
        obtain ⟨last, hend⟩ := hapart
        rw [Classical.not_imp, not_not] at hend
        obtain ⟨init, hblocks⟩ := getLast?_eq_some_iff.mp hend.1
        rw [addBlock_of_joins hfits hblocks hend.2 hn hlt]
        rw [hblocks] at hfits hsep
        obtain ⟨hfitsInit, -, -⟩ := fits_append.mp hfits
        obtain ⟨hsepInit, hsepLast⟩ := separated_append.mp hsep
        have hlonger : last.pageIndex + (last.numPages + n) < 2 ^ 32 := by omega
        exact ⟨fits_append.mpr ⟨hfitsInit, Nat.add_pos_right _ hn, hlonger⟩,
          separated_append.mpr ⟨hsepInit, hsepLast⟩⟩

end KPageGroup

/-! ## The blocks against the runs -/

namespace GroupCheck

open KMemoryManager KPageGroup

variable {isHeap : Nat → Bool} {mm : KMemoryManager} {t : PageTable} {page n j k a m : Nat}
  {c d : GroupCheck}

/-- The pages of the group that have not been compared yet. The current block starts at page `a`. -/
def remaining (c : GroupCheck) (a : Nat) : List Nat :=
  range' a c.curBlockPages ++ pageList c.rest

/-- The physical pages of the range from its page `j` on. -/
def expected (t : PageTable) (page n j : Nat) : List Nat :=
  (range' j (n - j)).map (t.physPage page)

/-- The group has `m` more pages, in blocks that do not go on with each other. -/
structure Matching (c : GroupCheck) (a m : Nat) : Prop where
  address : c.curBlockAddress = a * pageSize
  fits : Fits c.rest
  separated : Separated (⟨a, c.curBlockPages⟩ :: c.rest)
  length : (c.remaining a).length = m

theorem Matching.update (h : c.Matching a m) (hm : 0 < m) :
    ∃ d b, c.updateCurrentIterator = some d ∧ d.Matching b m ∧
      d.remaining b = c.remaining a ∧ 0 < d.curBlockPages ∧ d.curAddr = c.curAddr ∧
      d.curSize = c.curSize := by
  rw [updateCurrentIterator]
  by_cases hzero : c.curBlockPages = 0
  · rw [if_pos hzero]
    have hlength := h.length
    cases hrest : c.rest with
    | nil =>
      simp only [remaining, hzero, hrest, range'_zero, pageList, flatMap_nil,
        append_nil, length_nil] at hlength
      omega
    | cons b rest =>
      have hfits := h.fits
      have hseparated := h.separated
      rw [hrest] at hfits hseparated
      have hsame : remaining { c with
          curBlockAddress := b.getAddress
          curBlockPages := b.getNumPages
          rest := rest } b.pageIndex = c.remaining a := by
        rw [remaining, remaining, hzero, hrest, range'_zero, nil_append, pageList_cons]
        rfl
      refine ⟨_, b.pageIndex, rfl, ⟨rfl, ?_, ?_, ?_⟩, hsame, (hfits b mem_cons_self).1, rfl, rfl⟩
      · exact fun b' hb' => hfits b' (mem_cons_of_mem _ hb')
      · exact (isChain_cons_cons.mp hseparated).2
      · rw [hsame, hlength]
  · rw [if_neg hzero]
    exact ⟨c, a, rfl, h, rfl, pos_of_ne_zero hzero, rfl, rfl⟩

theorem expected_split (hjk : j ≤ k) (hk : k ≤ n) :
    expected t page n j = (range' j (k - j)).map (t.physPage page) ++ expected t page n k := by
  have hsplit : n - j = k - j + (n - k) := by omega
  have hmiddle : j + 1 * (k - j) = k := by omega
  rw [expected, expected, ← map_append, hsplit, ← range'_append, hmiddle]

section

variable (hb : HeapBacked isHeap mm t page n)
  (hrun : ∀ i, j < i → i < k → t.startsRun page i = false)
include hb hrun

theorem expected_run :
    (range' j (k - j)).map (t.physPage page) = range' (t.physPage page j) (k - j) := by
  refine ext_getElem (by simp) fun i hi _ => ?_
  have hik : i < k - j := by simpa using hi
  simp only [getElem_map, getElem_range', one_mul]
  rw [hb.physPage_run hrun (Nat.le_add_right j i) (by omega), Nat.add_sub_cancel_left]

/-- A block that starts with the run and is long enough gives up the run. -/
theorem remaining_eq_iff (hjk : j ≤ k) (hk : k ≤ n) (hlong : k - j ≤ c.curBlockPages) :
    c.remaining (t.physPage page j) = expected t page n j ↔
      range' (t.physPage page j + (k - j)) (c.curBlockPages - (k - j)) ++ pageList c.rest =
        expected t page n k := by
  have hsplit : c.curBlockPages = k - j + (c.curBlockPages - (k - j)) := by omega
  rw [remaining, expected_split hjk hk, expected_run hb hrun]
  conv_lhs => rw [hsplit, ← range'_append, one_mul, append_assoc]
  exact append_cancel_left_eq _ _ _ |>.to_iff

end

/-- The first page of the current block is the first one that has not been compared. -/
theorem eq_of_remaining (hpos : 0 < c.curBlockPages) (hj : j < n)
    (heq : c.remaining a = expected t page n j) : a = t.physPage page j := by
  have hhead := congrArg (fun l => l[0]?) heq
  have hn : 0 < n - j := by omega
  simpa [remaining, expected, getElem?_append_left, hpos, hn] using hhead

/-- A block that ends inside of the run does not match: the next one does not go on with it. -/
theorem le_of_remaining (hb : HeapBacked isHeap mm t page n)
    (hrun : ∀ i, j < i → i < k → t.startsRun page i = false) (hk : k ≤ n)
    (h : c.Matching (t.physPage page j) (n - j))
    (heq : c.remaining (t.physPage page j) = expected t page n j) : k - j ≤ c.curBlockPages := by
  by_contra hshort
  rw [not_le] at hshort
  have hlength := h.length
  cases hrest : c.rest with
  | nil =>
    simp [remaining, hrest, pageList] at hlength
    omega
  | cons b rest =>
    have hpos := (h.fits b (hrest ▸ mem_cons_self)).1
    have hseparated := h.separated
    rw [hrest] at hseparated
    have hne : t.physPage page j + c.curBlockPages ≠ b.pageIndex :=
      (isChain_cons_cons.mp hseparated).1
    have hat := congrArg (fun l => l[c.curBlockPages]?) heq
    have hphys := hb.physPage_run hrun (Nat.le_add_right j c.curBlockPages) (by omega)
    have hleft : (c.remaining (t.physPage page j))[c.curBlockPages]? = some b.pageIndex := by
      rw [remaining, hrest, pageList_cons, getElem?_append_right (by simp)]
      simp [hpos]
    have hright : (expected t page n j)[c.curBlockPages]? =
        some (t.physPage page (j + c.curBlockPages)) := by
      have hin : c.curBlockPages < n - j := by omega
      simp [expected, hin]
    simp only [hleft, hright, hphys, Nat.add_sub_cancel_left, Option.some.injEq] at hat
    exact hne hat.symm

/-! ## The loop -/

/-- The variables of `MakePageGroup` at the same place of its loop, with the group that it has built
so far. -/
def cursor (c : GroupCheck) (g : KPageGroup) : GroupCursor :=
  ⟨c.context, c.curAddr, c.curSize, c.totSize, g⟩

variable {answers : Nat → Bool} {g : KPageGroup}

theorem curSize_div (h : GroupProgress t page answers j k (c.cursor g)) :
    c.curSize / pageSize = k - j := by
  have hsize : c.curSize = (k - j) * pageSize := h.curSize
  rw [hsize, Nat.mul_div_cancel _ pageSize_pos]

/-- Comparing a run keeps the answer: the pages behind it match if all pages do. -/
theorem compareRun_spec (hb : HeapBacked isHeap mm t page n)
    (h : GroupProgress t page answers j k (c.cursor g)) (hk : k ≤ n) (hm : c.Matching a (n - j)) :
    (c.compareRun isHeap = none ∧ c.remaining a ≠ expected t page n j) ∨
      ∃ d b, c.compareRun isHeap = some d ∧ d.Matching b (n - k) ∧
        (c.remaining a = expected t page n j ↔ d.remaining b = expected t page n k) := by
  have hjk := h.lt
  have haddr : c.curAddr = t.frame (page + j) := h.curAddr
  have hheap : isHeap c.curAddr = true := haddr ▸ hb.heap j (by omega)
  obtain ⟨d, b, hupdate, hmatching, hsame, hpos, haddr', hsize'⟩ := hm.update (by omega)
  rw [compareRun, hupdate, hheap, curSize_div h, ← hsame]
  simp only [Bool.not_true, Bool.false_eq_true, if_false, Option.bind_some]
  have haddress : d.curBlockAddress = d.curAddr ↔ b = t.physPage page j := by
    rw [hmatching.address, haddr', haddr, hb.frame_eq j]
    exact Nat.mul_right_cancel_iff pageSize_pos
  by_cases hfits : d.curBlockAddress = d.curAddr ∧ k - j ≤ d.curBlockPages
  · obtain ⟨hstart, hlong⟩ := hfits
    obtain rfl := haddress.mp hstart
    have hcond : ¬(d.curBlockAddress ≠ d.curAddr ∨ d.curBlockPages < k - j) := by
      rintro (hne | hshort)
      · exact hne hstart
      · omega
    rw [if_neg hcond]
    refine .inr ⟨_, t.physPage page j + (k - j), rfl, ⟨?_, hmatching.fits, ?_, ?_⟩,
      remaining_eq_iff hb h.run (le_of_lt hjk) hk hlong⟩
    · have hsize : c.curSize = (k - j) * pageSize := h.curSize
      show d.curBlockAddress + d.curSize = _
      rw [hmatching.address, hsize', hsize, add_mul]
    · -- what is left of the block ends where the block did
      have hseparated := hmatching.separated
      cases hrest : d.rest with
      | nil => exact .singleton _
      | cons b' rest =>
        rw [hrest] at hseparated
        obtain ⟨hne, htail⟩ := isChain_cons_cons.mp hseparated
        refine isChain_cons_cons.mpr ⟨?_, htail⟩
        show t.physPage page j + (k - j) + (d.curBlockPages - (k - j)) ≠ _
        have hend : t.physPage page j + (k - j) + (d.curBlockPages - (k - j)) =
            t.physPage page j + d.curBlockPages := by omega
        rw [hend]
        exact hne
    · have hlength := hmatching.length
      simp only [remaining, length_append, length_range'] at hlength ⊢
      omega
  · refine .inl ⟨if_pos ?_, fun heq => ?_⟩
    · by_contra hcond
      rw [not_or, not_not, not_lt] at hcond
      exact hfits hcond
    · have hstart := eq_of_remaining hpos (by omega) heq
      subst hstart
      exact hfits ⟨haddress.mpr rfl, le_of_remaining hb h.run hk hmatching heq⟩

theorem compareLast_iff (hb : HeapBacked isHeap mm t page n)
    (h : GroupProgress t page answers j n (c.cursor g)) (hm : c.Matching a (n - j)) :
    c.compareLast isHeap = true ↔ c.remaining a = expected t page n j := by
  have hjk := h.lt
  have haddr : c.curAddr = t.frame (page + j) := h.curAddr
  have hheap : isHeap c.curAddr = true := haddr ▸ hb.heap j hjk
  obtain ⟨d, b, hupdate, hmatching, hsame, hpos, haddr', hsize'⟩ := hm.update (by omega)
  have haddress : d.curBlockAddress = d.curAddr ↔ b = t.physPage page j := by
    rw [hmatching.address, haddr', haddr, hb.frame_eq j]
    exact Nat.mul_right_cancel_iff pageSize_pos
  have hlength := hmatching.length
  rw [compareLast, hupdate, hheap, ← hsame]
  simp only [Bool.true_and, Bool.and_eq_true, beq_iff_eq, haddress, hsize', curSize_div h]
  constructor
  · rintro ⟨rfl, hpages⟩
    rw [remaining_eq_iff hb h.run (le_of_lt hjk) (le_refl n) hpages.ge, hpages,
      Nat.sub_self, expected, Nat.sub_self]
    -- the run takes all pages that the group has left
    simp only [remaining, length_append, length_range', hpages] at hlength
    simp only [range'_zero, nil_append, map_nil]
    exact eq_nil_of_length_eq_zero (by omega)
  · intro heq
    have hstart := eq_of_remaining hpos hjk heq
    subst hstart
    have hlong := le_of_remaining hb h.run (le_refl n) hmatching heq
    simp only [remaining, length_append, length_range'] at hlength
    exact ⟨rfl, by omega⟩

theorem continueTraversal_blockSize (t : PageTable) (context : TraversalContext) :
    (t.continueTraversal context).entry.blockSize = pageSize := by
  rw [PageTable.continueTraversal]
  split_ifs
  · rfl
  · rfl

/-- The place where the current run starts is known from its size. -/
theorem start_eq {c' : GroupCursor} {i : Nat} (h : GroupProgress t page answers i (k + 1) c')
    (hj : j ≤ k) (hsize : c'.curSize = (k - j) * pageSize + pageSize) : i = j := by
  have hlt := h.lt
  rw [h.curSize, ← Nat.succ_mul] at hsize
  have hcount := Nat.eq_of_mul_eq_mul_right pageSize_pos hsize
  omega

/-- One more page of the range. -/
theorem step_spec (hb : HeapBacked isHeap mm t page n) (hid : ∀ k < n, ¬t.IdentityMapped (page + k))
    (h : GroupProgress t page (fun _ => true) j k (c.cursor g)) (hk : k < n)
    (hm : c.Matching a (n - j)) : (c.step isHeap t = none ∧ c.remaining a ≠ expected t page n j) ∨
      ∃ d i b g', c.step isHeap t = some d ∧
        GroupProgress t page (fun _ => true) i (k + 1) (d.cursor g') ∧ d.Matching b (n - i) ∧
        (c.remaining a = expected t page n j ↔ d.remaining b = expected t page n i) := by
  have hcollectable : Collectable t page n fun _ => true := ⟨hid, fun _ _ => rfl⟩
  rcases h.step hb hk with ⟨i, c', hstep, hnext⟩ | ⟨e, g', -, i, hi, hcol⟩
  · have hsize : c.curSize = (k - j) * pageSize := h.curSize
    have hentry := continueTraversal_blockSize t c.context
    replace hstep : makePageGroupStep isHeap t
        ⟨c.context, c.curAddr, c.curSize, c.totSize, g⟩ = .ok c' := hstep
    rw [makePageGroupStep] at hstep
    rw [step]
    dsimp only at hstep ⊢
    cases hvalid : (t.continueTraversal c.context).valid with
    | false =>
      rw [hvalid, if_pos (by rfl)] at hstep
      cases hstep
    | true =>
      rw [hvalid, if_neg (by decide)] at hstep
      rw [if_neg (by decide)]
      by_cases hnew : (t.continueTraversal c.context).entry.physAddr = c.curAddr + c.curSize
      · -- the page goes on with the run
        rw [if_neg (not_not.mpr hnew)] at hstep ⊢
        obtain rfl := Except.ok.inj hstep
        obtain rfl := start_eq hnext (le_of_lt h.lt) (by
          show c.curSize + _ = _
          rw [hsize, hentry])
        exact .inr ⟨_, i, a, g, rfl, hnext, ⟨hm.address, hm.fits, hm.separated, hm.length⟩, .rfl⟩
      · -- the page starts a run, and the group gives up the one in front of it
        rw [if_pos hnew] at hstep ⊢
        obtain ⟨g', -, hcursor⟩ := bind_eq_ok.mp hstep
        obtain rfl := Except.ok.inj hcursor
        obtain rfl := start_eq hnext (le_refl k) (by
          show _ = _
          rw [hentry, Nat.sub_self, zero_mul, zero_add])
        rcases compareRun_spec hb h (le_of_lt hk) hm with
          ⟨hnone, hne⟩ | ⟨d, b, hsome, hmatching, hiff⟩
        · rw [hnone]
          exact .inl ⟨rfl, hne⟩
        · rw [hsome]
          exact .inr ⟨_, i, b, g', rfl, hnext, ⟨hmatching.address, hmatching.fits,
            hmatching.separated, hmatching.length⟩, hiff⟩
  · -- with enough block infos `MakePageGroup` does not fail
    have hall := hcol.all_iff.mpr hcollectable
    omega

/-- The loop keeps the answer. -/
theorem loop_spec (hb : HeapBacked isHeap mm t page n) (hid : ∀ k < n, ¬t.IdentityMapped (page + k))
    (fuel : Nat) (h : GroupProgress t page (fun _ => true) j k (c.cursor g)) (hk : k ≤ n)
    (hfuel : n ≤ k + fuel) (hm : c.Matching a (n - j)) :
    (c.loop isHeap t (n * pageSize) fuel = none ∧ c.remaining a ≠ expected t page n j) ∨
      ∃ d i b g', c.loop isHeap t (n * pageSize) fuel = some d ∧
        GroupProgress t page (fun _ => true) i n (d.cursor g') ∧ d.Matching b (n - i) ∧
        (c.remaining a = expected t page n j ↔ d.remaining b = expected t page n i) := by
  induction fuel generalizing j k a c g with
  | zero =>
    obtain rfl : k = n := by omega
    exact .inr ⟨c, j, a, g, rfl, h, hm, .rfl⟩
  | succ fuel ih =>
    have htot : c.totSize = k * pageSize := h.tot
    rw [loop, htot]
    rcases eq_or_lt_of_le hk with rfl | hlt
    · rw [if_neg (lt_irrefl _)]
      exact .inr ⟨c, j, a, g, rfl, h, hm, .rfl⟩
    · rw [if_pos (Nat.mul_lt_mul_of_pos_right hlt pageSize_pos)]
      rcases step_spec hb hid h hlt hm with
        ⟨hnone, hne⟩ | ⟨d, i, b, g', hsome, hnext, hmatching, hiff⟩
      · rw [hnone]
        exact .inl ⟨rfl, hne⟩
      · rw [hsome, Option.bind_some, ne_eq, hiff]
        exact ih hnext hlt (by omega) hmatching

end GroupCheck

/-! ## The pages of a range -/

section MakeAndCheck

open KMemoryManager KPageGroup GroupCheck

variable {isHeap : Nat → Bool} {mm : KMemoryManager} {t : PageTable} {page n : Nat}

/-- `IsValidPageGroup` compares the pages of a group that was built with `AddBlock` with those of
the range. -/
theorem isValidPageGroup_iff (hb : HeapBacked isHeap mm t page n) (hn : 0 < n)
    (hid : ∀ k < n, ¬t.IdentityMapped (page + k)) {g : KPageGroup} (hg : Built g)
    (hpages : g.getNumPages = n) : isValidPageGroup isHeap t g (page * pageSize) n = true ↔
      pageList g.blocks = (range n).map (t.physPage page) := by
  obtain ⟨hfits, hseparated⟩ := hg.separated
  have hlength : (pageList g.blocks).length = n := by
    rw [← hpages, getNumPages, pageList, length_flatMap]
    simp only [length_range']
    rfl
  have hall : (range n).map (t.physPage page) = expected t page n 0 := by
    rw [expected, Nat.sub_zero, range_eq_range']
  cases hblocks : g.blocks with
  | nil =>
    rw [hblocks] at hlength
    have hzero : 0 = n := hlength
    omega
  | cons b rest =>
    rw [hblocks] at hfits hseparated hlength
    -- the loop starts with the first page, and the first block is the current one
    have hmatching : Matching ⟨⟨page + 1, (page + 1) * pageSize⟩, t.frame page, pageSize,
        pageSize, b.getAddress, b.getNumPages, rest⟩ b.pageIndex (n - 0) :=
      ⟨rfl, fun b' hb' => hfits b' (mem_cons_of_mem _ hb'), hseparated,
        (congrArg length (pageList_cons b rest)).symm.trans hlength⟩
    have hstart := groupProgress_start (hid 0 hn) ⟨fun _ => true⟩
    rw [isValidPageGroup, hblocks]
    simp only [hb.beginTraversal_eq hn (hid 0 hn), hb.firstSize_eq, Bool.not_true,
      Bool.false_eq_true, if_false]
    rw [hall, pageList_cons]
    rcases loop_spec hb hid n hstart hn (Nat.le_add_left n 1) hmatching with
      ⟨hnone, hne⟩ | ⟨d, i, a, g', hsome, hend, hlast, hiff⟩
    · rw [hnone]
      exact ⟨fun h => (by cases h), fun h => absurd h hne⟩
    · have htot : d.totSize = n * pageSize := hend.tot
      rw [hsome]
      simp only [htot, lt_irrefl, if_false]
      exact (compareLast_iff hb hend hlast).trans hiff.symm

/-- A page group describes a range of mapped heap pages, none of which is mapped to its own address:
`MakePageGroup` makes a group of its physical pages in their order, and `IsValidPageGroup` accepts
the groups with these pages and no others. -/
theorem pageGroups_describe (hb : HeapBacked isHeap mm t page n) (hn : 0 < n)
    (hid : ∀ k < n, ¬t.IdentityMapped (page + k)) :
    (∀ manager : KBlockInfoManager, (∀ i < t.runCount page n, manager.answers i = true) →
      ∃ g, makePageGroup isHeap t ⟨[], manager⟩ (page * pageSize) n = .ok g ∧
        pageList g.blocks = (List.range n).map (t.physPage page)) ∧
    ∀ g : KPageGroup, Built g → g.getNumPages = n →
      (isValidPageGroup isHeap t g (page * pageSize) n = true ↔
        pageList g.blocks = (List.range n).map (t.physPage page)) := by
  refine ⟨fun manager hanswers => ?_, fun g hg hpages => isValidPageGroup_iff hb hn hid hg hpages⟩
  rcases makePageGroup_cases hb hn manager with ⟨g, heq, hcol⟩ | ⟨e, g, j, -, hj, hcol⟩
  · exact ⟨g, heq, hcol.pages⟩
  · have hall := hcol.all_iff.mpr ⟨hid, hanswers⟩
    omega

/-- Two pages that are apart in physical memory, and the group of them that `AddBlock` builds. -/
theorem pageGroups_describe_apartTable :
    (∃ g, makePageGroup (fun _ => true) apartTable ⟨[], ⟨fun _ => true⟩⟩ (8 * pageSize) 2 = .ok g ∧
        pageList g.blocks = [0x80000, 0x80005]) ∧
      isValidPageGroup (fun _ => true) apartTable
        ((KPageGroup.addBlock ⟨[], ⟨fun _ => true⟩⟩ (0x80000 * pageSize) 1).2.addBlock
          (0x80005 * pageSize) 1).2 (8 * pageSize) 2 = true := by
  obtain ⟨hmake, hcheck⟩ := pageGroups_describe apartTable_heapBacked Nat.two_pos
    (by decide +kernel)
  have hpages : (List.range 2).map (apartTable.physPage 8) = [0x80000, 0x80005] := by
    decide +kernel
  rw [hpages] at hmake hcheck
  refine ⟨hmake _ fun _ _ => rfl, (hcheck _ ?_ (by decide +kernel)).mpr (by decide +kernel)⟩
  exact .add (.add (.empty _) (by decide)) (by decide)

/-- The empty group has the pages of the empty range, but the code takes an empty group for invalid.
Without a block info there is no group of a page. -/
theorem isValidPageGroup_rejects_empty :
    (Built ⟨[], ⟨fun _ => true⟩⟩ ∧ KPageGroup.getNumPages ⟨[], ⟨fun _ => true⟩⟩ = 0 ∧
        pageList [] = (List.range 0).map (apartTable.physPage 8) ∧
        isValidPageGroup (fun _ => true) apartTable ⟨[], ⟨fun _ => true⟩⟩ (8 * pageSize) 0 =
          false) ∧
      makePageGroup (fun _ => true) apartTable ⟨[], ⟨fun _ => false⟩⟩ (8 * pageSize) 1 =
        .error (.outOfResource, ⟨[], ⟨fun _ => false⟩⟩) :=
  ⟨⟨.empty _, rfl, rfl, rfl⟩, rfl⟩

end MakeAndCheck

end Sudachi.Kernel
