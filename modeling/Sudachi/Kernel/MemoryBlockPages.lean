import Sudachi.Kernel.MemoryBlockRuns

/-!
# The block tree as a function of the page

`pageAt` reads the properties of a page off the tree. An operation changes exactly the pages of its
range that it selects (`pageAt_of_run`): cuts copy the properties to both parts, and a merge only
joins blocks with the same properties. For `Update`, `UpdateIfMatch` and `UpdateAttribute` this is
the page-wise specification, under the condition that the operation has a result at all
(`pageAt_update_iff`).
-/

set_option autoImplicit false

namespace Sudachi.Kernel

open Sudachi.Foundations
open KMemoryAttribute (lockBits)

/-! ## Views -/

section View

variable {β : Type}

/-- What the view `v` shows of the block that holds the address `x`. -/
def viewAt (v : Nat → KMemoryBlock → β) (x : Nat) (l : List KMemoryBlock) : Option β :=
  (lookup KMemoryBlock.address KMemoryBlock.getEndAddress x l).map (v x)

/-- A view is page-wise on the blocks with `Q` when each part of a cut block shows what the block
showed there, and a merged block shows what its two halves showed. -/
structure PageWise (Q : KMemoryBlock → Prop) (v : Nat → KMemoryBlock → β) : Prop where
  split_fst : ∀ {b : KMemoryBlock} {cut x : Nat}, b.address < cut → cut < b.getEndAddress →
    pageSize ∣ cut - b.address → x < cut → v x (b.split cut).1 = v x b
  split_snd : ∀ {b : KMemoryBlock} {cut x : Nat}, b.address < cut → cut < b.getEndAddress →
    pageSize ∣ cut - b.address → cut ≤ x → v x (b.split cut).2 = v x b
  add_left : ∀ {a b : KMemoryBlock} {x : Nat}, Q a → Q b → a.canMergeWith b = true →
    a.getEndAddress = b.address → b.address < b.getEndAddress → x < a.getEndAddress →
    v x (a.add b) = v x a
  add_right : ∀ {a b : KMemoryBlock} {x : Nat}, Q a → Q b → a.canMergeWith b = true →
    a.getEndAddress = b.address → a.address < a.getEndAddress → b.address ≤ x →
    v x (a.add b) = v x b
  add_inv : ∀ {a b : KMemoryBlock}, Q a → Q b → a.canMergeWith b = true → Q (a.add b)

variable {v : Nat → KMemoryBlock → β} {Q : KMemoryBlock → Prop} {x : Nat}
variable {l l' : List KMemoryBlock} {s e : Nat}

theorem viewAt_cons {b : KMemoryBlock} : viewAt v x (b :: l) =
      if b.address ≤ x ∧ x < b.getEndAddress then some (v x b) else viewAt v x l := by
  rw [viewAt, lookup_cons, apply_ite (Option.map (v x))]
  rfl

theorem viewAt_append {l₁ l₂ : List KMemoryBlock} :
    viewAt v x (l₁ ++ l₂) = (viewAt v x l₁).or (viewAt v x l₂) := by
  simp only [viewAt, lookup_append, Option.map_or]

theorem viewAt_eq_some (ht : BlocksTile s e l) {b : KMemoryBlock} (hb : b ∈ l)
    (hx : b.address ≤ x ∧ x < b.getEndAddress) : viewAt v x l = some (v x b) := by
  rw [viewAt, ht.lookup_eq_some hb hx.1 hx.2]
  rfl

/-! ### Merging -/

theorem PageWise.forall_of_mergeStep (hv : PageWise Q v)
    (h : MergeStep l l') (hl : ∀ b ∈ l, Q b) : ∀ b ∈ l', Q b := by
  cases h with
  | merge pre a c post hac =>
    intro b hb
    simp only [List.mem_append, List.mem_cons] at hb
    rcases hb with hb | rfl | hb
    · exact hl b (by simp [hb])
    · exact hv.add_inv (hl a (by simp)) (hl c (by simp)) hac
    · exact hl b (by simp [hb])

theorem PageWise.viewAt_of_mergeStep (hv : PageWise Q v) (h : MergeStep l l')
    (ht : BlocksTile s e l) (hl : ∀ b ∈ l, Q b) (x : Nat) : viewAt v x l' = viewAt v x l := by
  cases h with
  | merge pre a b post hab =>
    have ha := hl a (by simp)
    have hb := hl b (by simp)
    obtain ⟨m, -, hadd, hlt, hadj, hlt', -⟩ := tiles_append.1 ht
    have hend := KMemoryBlock.add_getEndAddress hadj.symm
    rw [viewAt_append, viewAt_append, viewAt_cons, viewAt_cons, viewAt_cons, hend,
      KMemoryBlock.add_address]
    congr 1
    -- A point of the merged block lies in one of its two halves.
    by_cases hx1 : a.address ≤ x ∧ x < a.getEndAddress
    · rw [if_pos (by omega), if_pos hx1, hv.add_left ha hb hab hadj.symm (by omega) hx1.2]
    · by_cases hx2 : b.address ≤ x ∧ x < b.getEndAddress
      · rw [if_pos (by omega), if_neg hx1, if_pos hx2,
          hv.add_right ha hb hab hadj.symm (by omega) hx2.1]
      · rw [if_neg (by omega), if_neg hx1, if_neg hx2]

/-- Merging keeps the block invariant and every view. -/
theorem PageWise.of_merges (hv : PageWise Q v) (h : Merges l l') (ht : BlocksTile s e l)
    (hl : ∀ b ∈ l, Q b) : (∀ b ∈ l', Q b) ∧ ∀ x, viewAt v x l' = viewAt v x l := by
  induction h with
  | refl => exact ⟨hl, fun _ => rfl⟩
  | tail hsteps hstep ih =>
    refine ⟨hv.forall_of_mergeStep hstep ih.1, fun x => ?_⟩
    rw [hv.viewAt_of_mergeStep hstep (Merges.tiles hsteps ht) ih.1 x, ih.2 x]

/-! ### Cutting and rewriting -/

section Segment

variable {f : KMemoryBlock → KMemoryBlock} {lo hi : Nat} {b : KMemoryBlock}

theorem PageWise.viewAt_cutFront (hv : PageWise Q v) (hlo : lo < b.getEndAddress)
    (hdvd : pageSize ∣ lo - b.address) {l : List KMemoryBlock} :
    viewAt v x ((cutFront lo b).1 ++ l) =
      if b.address ≤ x ∧ x < max b.address lo then some (v x b) else viewAt v x l := by
  by_cases h : b.address < lo
  · have hend := KMemoryBlock.split_fst_getEndAddress (le_of_lt h) hdvd
    simp only [cutFront, if_pos h, List.singleton_append, viewAt_cons, hend,
      KMemoryBlock.split_fst_address]
    rw [max_eq_right (le_of_lt h)]
    by_cases hx : b.address ≤ x ∧ x < lo
    · rw [if_pos hx, if_pos hx, hv.split_fst h hlo hdvd hx.2]
    · rw [if_neg hx, if_neg hx]
  · simp only [cutFront, if_neg h, List.nil_append]
    rw [if_neg (by omega)]

theorem PageWise.cutFront_snd (hv : PageWise Q v) (hlo : lo < b.getEndAddress)
    (hdvd : pageSize ∣ lo - b.address) (hx : max b.address lo ≤ x) :
    v x (cutFront lo b).2 = v x b := by
  by_cases h : b.address < lo
  · simp only [cutFront, if_pos h]
    exact hv.split_snd h hlo hdvd (by omega)
  · simp only [cutFront, if_neg h]

/-- The rewrite acts on the view of the blocks between `lo` and `hi` by `g`. -/
def ActsOnView (v : Nat → KMemoryBlock → β) (f : KMemoryBlock → KMemoryBlock) (lo hi : Nat)
    (g : Nat → β → β) : Prop :=
  ∀ b x, lo ≤ b.address → b.getEndAddress ≤ hi → b.address ≤ x ∧ x < b.getEndAddress →
    v x (f b) = g x (v x b)

variable {g : Nat → β → β}

theorem PageWise.viewAt_cutBack (hv : PageWise Q v) (hf : KeepsExtent f)
    (hg : ActsOnView v f lo hi g) (hlo : lo ≤ b.address) (hlt : b.address < hi)
    (hdvd : pageSize ∣ hi - b.address) : viewAt v x (cutBack f hi b) =
      if b.address ≤ x ∧ x < b.getEndAddress then
        some (if x < hi then g x (v x b) else v x b)
      else none := by
  by_cases h : hi < b.getEndAddress
  · have h1 := KMemoryBlock.split_fst_getEndAddress (le_of_lt hlt) hdvd
    have h2 := KMemoryBlock.split_snd_getEndAddress (le_of_lt hlt) (le_of_lt h) hdvd
    simp only [cutBack, if_pos h, viewAt_cons, hf.getEndAddress, (hf _).1, h1, h2,
      KMemoryBlock.split_fst_address, KMemoryBlock.split_snd_address]
    by_cases hx : b.address ≤ x ∧ x < hi
    · rw [if_pos hx, if_pos (by omega), if_pos hx.2,
        hg (b.split hi).1 x hlo (by rw [h1]) (by rw [h1]; exact hx), hv.split_fst hlt h hdvd hx.2]
    · by_cases hx' : hi ≤ x ∧ x < b.getEndAddress
      · rw [if_neg hx, if_pos hx', if_pos (by omega), if_neg (by omega),
          hv.split_snd hlt h hdvd hx'.1]
      · rw [if_neg hx, if_neg hx', if_neg (by omega)]
        rfl
  · simp only [cutBack, if_neg h, viewAt_cons, hf.getEndAddress, (hf _).1]
    by_cases hx : b.address ≤ x ∧ x < b.getEndAddress
    · rw [if_pos hx, if_pos hx, if_pos (by omega), hg b x hlo (by omega) hx]
    · rw [if_neg hx, if_neg hx]
      rfl

variable {needs : KMemoryBlock → Bool} {sel : β → Bool}

/-- A segment shows the rewritten view inside the range and the old one outside. -/
theorem PageWise.viewAt_segment (hv : PageWise Q v) (hf : KeepsExtent f)
    (hg : ActsOnView v f lo hi g) (hsel : ∀ x b, needs b = sel (v x b)) (hlt : lo < hi)
    (hlo : pageSize ∣ lo) (hhi : pageSize ∣ hi) (hb : pageSize ∣ b.address) :
    viewAt v x (segment needs f lo hi b) =
      if b.address ≤ x ∧ x < b.getEndAddress then
        some (if (lo ≤ x ∧ x < hi) ∧ sel (v x b) = true then g x (v x b) else v x b)
      else none := by
  have hdvd := Nat.dvd_sub hlo hb
  by_cases h : needs b = true ∧ lo < b.getEndAddress ∧ b.address < hi
  · have hadd : (cutFront lo b).2.address = max b.address lo := cutFront_snd_address
    have hend := cutFront_snd_getEndAddress (le_of_lt h.2.1) hdvd
    have hdvd' : pageSize ∣ hi - (cutFront lo b).2.address := by
      rw [hadd]
      rcases le_total b.address lo with hle | hle
      · rw [max_eq_right hle]; exact Nat.dvd_sub hhi hlo
      · rw [max_eq_left hle]; exact Nat.dvd_sub hhi hb
    rw [segment, if_pos h, hv.viewAt_cutFront h.2.1 hdvd,
      hv.viewAt_cutBack hf hg (by omega) (by omega) hdvd', hadd, hend]
    have hneeds : sel (v x b) = true := (hsel x b).symm.trans h.1
    by_cases hx : max b.address lo ≤ x
    · rw [hv.cutFront_snd h.2.1 hdvd hx]
      simp only [hneeds, and_true]
      split_ifs <;> first | rfl | omega
    · simp only [hneeds, and_true]
      split_ifs <;> first | rfl | omega
  · rw [segment, if_neg h, viewAt_cons]
    by_cases hx : b.address ≤ x ∧ x < b.getEndAddress
    · have hskip : ¬((lo ≤ x ∧ x < hi) ∧ sel (v x b) = true) := by
        rintro ⟨hrange, hneeds⟩
        exact h ⟨(hsel x b).trans hneeds, by omega, by omega⟩
      rw [if_pos hx, if_pos hx, if_neg hskip]
    · rw [if_neg hx, if_neg hx]
      rfl

theorem PageWise.viewAt_flatMap_segment (hv : PageWise Q v) (hf : KeepsExtent f)
    (hg : ActsOnView v f lo hi g) (hsel : ∀ x b, needs b = sel (v x b)) (hlt : lo < hi)
    (hlo : pageSize ∣ lo) (hhi : pageSize ∣ hi) (x : Nat) {l : List KMemoryBlock} : ∀ {s e : Nat},
    BlocksTile s e l → (∀ b ∈ l, pageSize ∣ b.address) →
      viewAt v x (l.flatMap (segment needs f lo hi)) = (viewAt v x l).map fun w =>
        if (lo ≤ x ∧ x < hi) ∧ sel w = true then g x w else w := by
  induction l with
  | nil => intro s e _ _; rfl
  | cons b l ih =>
    intro s e ht hal
    rw [List.flatMap_cons, viewAt_append,
      hv.viewAt_segment hf hg hsel hlt hlo hhi (hal b List.mem_cons_self),
      ih ht.2.2 fun c hc => hal c (List.mem_cons_of_mem b hc), viewAt_cons]
    by_cases hx : b.address ≤ x ∧ x < b.getEndAddress
    · rw [if_pos hx, if_pos hx]; rfl
    · rw [if_neg hx, if_neg hx]; rfl

end Segment

/-- An operation rewrites the view of the selected addresses of its range and of no other. -/
theorem PageWise.viewAt_of_run (hv : PageWise Q v) {m m' : KMemoryBlockManager}
    {a : UpdateAllocator} {op : BlockOperation} {g : Nat → β → β} (sel : β → Bool)
    (hm : m.WellFormed) (hr : m.ValidRange op.address op.numPages) (hrun : op.run m = .ok (m', a))
    (hg : ActsOnView v op.rewriteBlock op.address (op.address + op.numPages * pageSize) g)
    (hsel : ∀ x b, op.selects b.properties = sel (v x b))
    (hQ : ∀ b ∈ m.segments (fun b => op.selects b.properties) op.rewriteBlock op.address
      op.numPages, Q b) : (∀ b ∈ m'.memoryBlockTree, Q b) ∧
      ∀ x, viewAt v x m'.memoryBlockTree = (viewAt v x m.memoryBlockTree).map fun w =>
        if (op.address ≤ x ∧ x < op.address + op.numPages * pageSize) ∧ sel w = true then g x w
        else w := by
  obtain ⟨-, -, -, -, hmerges, -⟩ := run_ok hm hr hrun
  have hf := op.keepsExtent_rewriteBlock
  have hpos := mul_pos (pos_of_ne_zero hr.nonempty) pageSize_pos
  have htiles := KMemoryBlockManager.segments_tile (fun b => op.selects b.properties) hm hr
    hf
  obtain ⟨hQ', hview⟩ := hv.of_merges hmerges htiles hQ
  refine ⟨hQ', fun x => (hview x).trans ?_⟩
  exact hv.viewAt_flatMap_segment hf hg hsel (by omega) hr.aligned
    (dvd_add hr.aligned (dvd_mul_left pageSize _)) x hm.tiles
    (aligned_of_tiles hm.tiles hm.startAligned)

end View

/-! ## The properties of a page -/

/-- The properties of the page with the given number. -/
def KMemoryBlockManager.pageAt (m : KMemoryBlockManager) (page : Nat) : Option PageProperties :=
  viewAt (fun _ b => b.properties) (page * pageSize) m.memoryBlockTree

theorem pageWise_properties : PageWise (fun _ => True) (fun _ b => KMemoryBlock.properties b) where
  split_fst _ _ _ _ := KMemoryBlock.split_fst_properties _ _
  split_snd _ _ _ _ := KMemoryBlock.split_snd_properties _ _
  add_left _ _ _ _ _ _ := KMemoryBlock.add_properties _ _
  add_right _ _ h _ _ _ := ((KMemoryBlock.canMergeWith_iff _ _).1 h).1
  add_inv _ _ _ := trivial

/-- What the operation makes of the properties at the address `x`. -/
def BlockOperation.atAddress (op : BlockOperation) (x : Nat) (p : PageProperties) :
    PageProperties :=
  if (op.address ≤ x ∧ x < op.address + op.numPages * pageSize) ∧ op.selects p = true then
    op.onProperties p
  else p

/-- An operation rewrites the selected pages of its range and no other page. -/
theorem pageAt_of_run {m m' : KMemoryBlockManager} {a : UpdateAllocator} {op : BlockOperation}
    (hm : m.WellFormed) (hr : m.ValidRange op.address op.numPages) (hrun : op.run m = .ok (m', a))
    (page : Nat) : m'.pageAt page = (m.pageAt page).map (op.atAddress (page * pageSize)) :=
  (pageWise_properties.viewAt_of_run op.selects hm hr hrun (g := fun _ => op.onProperties)
    (fun b _ _ _ _ => op.rewriteBlock_properties b) (fun _ _ => rfl) (fun _ _ => trivial)).2 _

/-! ## The three updates, page by page -/

/-- The page lies in the range of `numPages` pages from `address` on. -/
def InRange (address numPages page : Nat) : Prop :=
  address ≤ page * pageSize ∧ page * pageSize < address + numPages * pageSize

instance (address numPages page : Nat) : Decidable (InRange address numPages page) :=
  inferInstanceAs (Decidable (_ ∧ _))

/-- Blocks that already have the requested properties are not changed by setting them. -/
theorem PageProperties.update_of_hasProperties {p : PageProperties} {s : KMemoryState}
    {perm : KMemoryPermission} {attr : KMemoryAttribute}
    (hattr : attr &&& lockBits = KMemoryAttribute.none)
    (h : p.hasProperties s perm attr = true) : p.update s perm attr = p := by
  simp only [hasProperties, Bool.and_eq_true, beq_iff_eq] at h
  obtain ⟨⟨rfl, rfl⟩, hbits⟩ := h
  have hkey : attr ||| (p.memoryAttribute &&& lockBits) = p.memoryAttribute := by
    refine BitVec.eq_of_getLsbD_eq fun i _ => ?_
    have h1 := congrArg (fun v => v.getLsbD i) hattr
    have h2 := congrArg (fun v => v.getLsbD i) hbits
    simp only [BitVec.getLsbD_and, BitVec.getLsbD_or, KMemoryAttribute.none] at h1 h2 ⊢
    cases hL : lockBits.getLsbD i <;> simp_all
  simp only [update, hkey]

theorem and_mask_of_and_not_eq_none {mask attr : KMemoryAttribute}
    (h : attr &&& ~~~mask = KMemoryAttribute.none) : attr &&& mask = attr := by
  have hsplit : (attr &&& mask) ||| (attr &&& ~~~mask) = attr := by
    ext i
    simp [← Bool.and_or_distrib_left]
  rw [h] at hsplit
  exact BitVec.or_zero.symm.trans hsplit

theorem PageProperties.updateAttribute_of_masked {p : PageProperties} {mask attr : KMemoryAttribute}
    (h : p.memoryAttribute &&& mask = attr) : p.updateAttribute mask attr = p := by
  have hkey : (p.memoryAttribute &&& ~~~mask) ||| attr = p.memoryAttribute := by
    rw [← h]
    ext i
    simp [← Bool.and_or_distrib_left]
  simp only [updateAttribute, hkey]

/-- If an operation rewrites the selected pages to `g` and `g` keeps the pages it skips, then every
page of the range becomes `g` of what it was, exactly when the operation has a result. -/
theorem run_refines_iff (op : BlockOperation) {m : KMemoryBlockManager} (hm : m.WellFormed)
    (hr : m.ValidRange op.address op.numPages) {g : PageProperties → PageProperties}
    (hg : ∀ p, (if op.selects p = true then op.onProperties p else p) = g p) :
    (∃ m' a, op.run m = .ok (m', a) ∧ ∀ page, m'.pageAt page = (m.pageAt page).map fun p =>
      if InRange op.address op.numPages page then g p else p) ↔ op.HasBlockBefore m := by
  constructor
  · rintro ⟨m', a, hrun, -⟩
    exact (run_ok hm hr hrun).1
  · intro hb
    obtain ⟨m', a, hrun⟩ := run_ok_of_hasBlockBefore hm hr hb
    refine ⟨m', a, hrun, fun page => ?_⟩
    rw [pageAt_of_run hm hr hrun page]
    congr 1
    funext p
    by_cases hpage : InRange op.address op.numPages page
    · rw [if_pos hpage, ← hg p, BlockOperation.atAddress]
      exact if_congr (and_iff_right hpage) rfl rfl
    · rw [if_neg hpage, BlockOperation.atAddress, if_neg fun h => hpage h.1]

/-- In every reachable state, on every valid range, the three updates have a result exactly when
the range has a block in front of it, and then: `Update` gives every page of the range the state,
the permission and the attribute, which keeps its lock bits; `UpdateIfMatch` does so for the pages
that match and leaves the others of the range alone; `UpdateAttribute` replaces the masked bits.
Every page outside the range keeps its properties and lock counts. -/
theorem pageAt_update_iff {st nd : Nat} (hst : pageSize ∣ st) (hnd : pageSize ∣ nd) (hlt : st < nd)
    {m : KMemoryBlockManager} (hreach : Reachable st nd (fun _ _ => True) m)
    {address numPages : Nat} (hr : m.ValidRange address numPages) :
    (∀ state perm attr setAttr clearAttr, attr &&& lockBits = KMemoryAttribute.none →
      ((∃ m' a, m.update (.withBlocks 2) address numPages state perm attr setAttr clearAttr =
          .ok (m', a) ∧ ∀ page, m'.pageAt page = (m.pageAt page).map fun p =>
            if InRange address numPages page then
              { p with
                memoryState := state
                permission := perm
                memoryAttribute := attr ||| (p.memoryAttribute &&& lockBits) }
            else p) ↔
        (BlockOperation.update address numPages state perm attr setAttr clearAttr).HasBlockBefore
          m)) ∧
    (∀ testState testPerm testAttr state perm attr setAttr clearAttr,
      attr &&& lockBits = KMemoryAttribute.none →
      ((∃ m' a, m.updateIfMatch (.withBlocks 2) address numPages testState testPerm testAttr state
          perm attr setAttr clearAttr = .ok (m', a) ∧
          ∀ page, m'.pageAt page = (m.pageAt page).map fun p =>
            if InRange address numPages page then
              if p.hasProperties testState testPerm testAttr = true then
                { p with
                  memoryState := state
                  permission := perm
                  memoryAttribute := attr ||| (p.memoryAttribute &&& lockBits) }
              else p
            else p) ↔
        (BlockOperation.updateIfMatch address numPages testState testPerm testAttr state perm attr
          setAttr clearAttr).HasBlockBefore m)) ∧
    ∀ mask attr, attr &&& ~~~mask = KMemoryAttribute.none →
      ((∃ m' a, m.updateAttribute (.withBlocks 2) address numPages mask attr = .ok (m', a) ∧
          ∀ page, m'.pageAt page = (m.pageAt page).map fun p =>
            if InRange address numPages page then
              { p with memoryAttribute := (p.memoryAttribute &&& ~~~mask) ||| (attr &&& mask) }
            else p) ↔
        (BlockOperation.updateAttribute address numPages mask attr).HasBlockBefore m) := by
  obtain ⟨hwf, -, -⟩ := hreach.wellFormed hst hnd hlt
  refine ⟨fun state perm attr setAttr clearAttr hattr => ?_,
    fun testState testPerm testAttr state perm attr setAttr clearAttr hattr => ?_,
    fun mask attr hattr => ?_⟩
  · refine run_refines_iff (.update address numPages state perm attr setAttr clearAttr) hwf hr
      (g := fun p => p.update state perm attr) fun p => ?_
    change (if (!p.hasProperties state perm attr) = true then p.update state perm attr else p) = _
    cases hp : p.hasProperties state perm attr with
    | false => rfl
    | true => exact (PageProperties.update_of_hasProperties hattr hp).symm
  · refine run_refines_iff (.updateIfMatch address numPages testState testPerm testAttr state
      perm attr setAttr clearAttr) hwf hr (g := fun p =>
        if p.hasProperties testState testPerm testAttr = true then p.update state perm attr else p)
      fun p => ?_
    change (if (p.hasProperties testState testPerm testAttr && !p.hasProperties state perm attr) =
      true then p.update state perm attr else p) = _
    cases htest : p.hasProperties testState testPerm testAttr with
    | false => rfl
    | true =>
      cases hp : p.hasProperties state perm attr with
      | false => rfl
      | true => exact (PageProperties.update_of_hasProperties hattr hp).symm
  · rw [and_mask_of_and_not_eq_none hattr]
    refine run_refines_iff (.updateAttribute address numPages mask attr) hwf hr
      (g := fun p => p.updateAttribute mask attr) fun p => ?_
    change (if (p.memoryAttribute &&& mask != attr) = true then p.updateAttribute mask attr else p) =
      _
    by_cases hp : p.memoryAttribute &&& mask = attr
    · rw [if_neg (by simpa using hp), PageProperties.updateAttribute_of_masked hp]
    · rw [if_pos (by simpa using hp)]

/-- Mapping the first two pages of a fresh manager and no other page. -/
theorem pageAt_update_initialized :
    ∃ m' a, (KMemoryBlockManager.initializeManager 0x1000 0x8000).update (.withBlocks 2) 0x1000 2
        .normal .userReadWrite .none .normal .none = .ok (m', a) ∧
      ∀ page, m'.pageAt page =
        ((KMemoryBlockManager.initializeManager 0x1000 0x8000).pageAt page).map fun p =>
          if InRange 0x1000 2 page then
            { p with
              memoryState := .normal
              permission := .userReadWrite
              memoryAttribute := .none ||| (p.memoryAttribute &&& lockBits) }
          else p := by
  have hspec := @pageAt_update_iff 0x1000 0x8000 (by decide) (by decide) (by decide) _ .initialized
    0x1000 2 (by constructor <;> decide)
  exact (hspec.1 .normal .userReadWrite .none .normal .none (by decide)).2 (Or.inl rfl)

/-- `UpdateIfMatch` inside the first block of a fresh manager, for a state that no page has, should
leave every page alone and has no result instead. -/
theorem updateIfMatch_initialized_faults :
    Reachable 0x1000 0x8000 (fun _ _ => True) (.initializeManager 0x1000 0x8000) ∧
      (KMemoryBlockManager.initializeManager 0x1000 0x8000).ValidRange 0x2000 1 ∧
      (KMemoryBlockManager.initializeManager 0x1000 0x8000).updateIfMatch (.withBlocks 2) 0x2000 1
        .normal .userReadWrite .none .free .none .none .none .none = .error .nullIterator := by
  refine ⟨.initialized, ?_, by decide⟩
  constructor <;> decide

end Sudachi.Kernel
