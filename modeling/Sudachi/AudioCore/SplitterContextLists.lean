import Mathlib.Data.List.Perm.Subperm
import Mathlib.Data.List.Range
import Sudachi.AudioCore.SplitterContext
import Sudachi.Foundations.NextPointers
import Sudachi.Foundations.Runs

/-!
# The destination lists of the splitters

An update of a splitter takes its list of destinations apart and links the ids that the guest gives.
With ids that are in range, distinct and on no other splitter's list, the lists stay lists, each as
long as its splitter counts (`Books`), so that walking over them ends. The checks of the source let
more through: an id one past the end, any destination ids, and a splitter without destinations, of
which the count is left as it was. `lists_of_admits` is the condition on an update under which the
lists of all states of a run are sound.
-/

set_option autoImplicit false

namespace Sudachi.AudioCore

open Sudachi.Foundations.NextPointers Sudachi.Foundations.Runs List Option Function

/-! ## The pointers -/

section

variable {destinations : List SplitterDestinationData} {start : Option Nat} {l : List Nat}

theorem nextOf_of_lt {d : Nat} (hd : d < destinations.length) :
    nextOf destinations d = destinations[d].next := by
  rw [nextOf, getElem?_eq_getElem hd]
  rfl

theorem nextOf_set {d : Nat} (hd : d < destinations.length) (data : SplitterDestinationData) :
    nextOf (destinations.set d data) = Function.update (nextOf destinations) d data.next := by
  funext i
  rw [nextOf, getElem?_set]
  by_cases hi : d = i
  · subst hi
    rw [if_pos rfl, if_pos hd, update_self]
    rfl
  · rw [if_neg hi, update_of_ne (Ne.symm hi)]
    rfl

theorem nextOf_set_of_next {d : Nat} {data : SplitterDestinationData} (hd : d < destinations.length)
    (hnext : data.next = nextOf destinations d) :
    nextOf (destinations.set d data) = nextOf destinations := by
  rw [nextOf_set hd, hnext, update_eq_self]

theorem nextOf_modify (f : SplitterDestinationData → SplitterDestinationData)
    (hf : ∀ data, (f data).next = data.next) (d : Nat) :
    nextOf (destinations.modify d f) = nextOf destinations := by
  funext i
  rw [nextOf, nextOf, getElem?_modify]
  cases destinations[i]? with
  | none => rfl
  | some data =>
    show (if d = i then f data else data).next = data.next
    split
    · exact hf data
    · rfl

theorem unlink_some {d : Nat} {data : SplitterDestinationData} (hd : destinations[d]? = some data) :
    unlink destinations (some d) =
      unlink (destinations.set d { data with next := none }) data.next := by
  rw [unlink]
  split
  · rename_i hnone
    rw [hd] at hnone
    cases hnone
  · rename_i data' hdata'
    obtain rfl : data = data' := some.inj (hd.symm.trans hdata')
    split
    · rename_i hnext
      rw [hnext, unlink]
    · rename_i next hnext
      rw [hnext]

/-- Taking a list apart sets its pointers to null. -/
theorem unlink_spec (h : Threaded (nextOf destinations) start l)
    (hbounded : ∀ d ∈ l, d < destinations.length) :
    nextOf (unlink destinations start) = cleared (nextOf destinations) l ∧
      (unlink destinations start).length = destinations.length := by
  induction l generalizing destinations start with
  | nil =>
    obtain rfl : start = none := h
    rw [unlink, cleared_nil]
    exact ⟨rfl, rfl⟩
  | cons d rest ih =>
    have hnot := (nodup_cons.mp h.nodup).1
    obtain ⟨rfl, hrest⟩ := h
    have hd := hbounded d mem_cons_self
    have hdata := getElem?_eq_getElem hd
    generalize destinations[d] = data at hdata
    have hset : nextOf (destinations.set d { data with next := none }) =
        Function.update (nextOf destinations) d none := nextOf_set hd _
    have hnext : nextOf destinations d = data.next := by
      rw [nextOf, hdata]
      rfl
    rw [hnext] at hrest
    have hafter : Threaded (nextOf (destinations.set d { data with next := none })) data.next
        rest := by
      rw [hset]
      exact hrest.congr fun id hid => update_of_ne (ne_of_mem_of_not_mem hid hnot) _ _
    obtain ⟨hresult, hlength⟩ := ih hafter fun id hid => by
      rw [length_set]
      exact hbounded id (mem_cons_of_mem _ hid)
    rw [hset, ← cleared_cons] at hresult
    rw [length_set] at hlength
    rw [unlink_some hdata]
    exact ⟨hresult, hlength⟩

/-- Linking ids that are in range. -/
theorem linkFrom_spec {current : Nat} {ids : List Nat} (hcurrent : current < destinations.length)
    (hbounded : ∀ d ∈ ids, d < destinations.length) :
    ∃ destinations', linkFrom destinations current ids = some destinations' ∧
      nextOf destinations' = linked (nextOf destinations) (current :: ids) ∧
        destinations'.length = destinations.length := by
  induction ids generalizing destinations current with
  | nil => exact ⟨destinations, rfl, rfl, rfl⟩
  | cons next rest ih =>
    have hnext := hbounded next mem_cons_self
    obtain ⟨destinations', hlink, hresult, hlength⟩ :=
      @ih (destinations.set current { destinations[current] with next := some next }) next
        (by rwa [length_set]) fun d hd => by
          rw [length_set]
          exact hbounded d (mem_cons_of_mem _ hd)
    refine ⟨destinations', ?_, ?_, ?_⟩
    · rw [linkFrom, getElem?_eq_getElem hnext, getElem?_eq_getElem hcurrent]
      exact hlink
    · rw [hresult, nextOf_set hcurrent]
      rfl
    · rw [hlength, length_set]

/-- Walking over a list ends, and changes no pointer. -/
theorem updateList_spec {fuel : Nat} (h : Threaded (nextOf destinations) start l)
    (hfuel : l.length ≤ fuel) :
    ∃ destinations', updateList fuel destinations start = some destinations' ∧
      nextOf destinations' = nextOf destinations := by
  induction l generalizing destinations start fuel with
  | nil =>
    obtain rfl : start = none := h
    exact ⟨destinations, by cases fuel <;> rfl, rfl⟩
  | cons d rest ih =>
    obtain ⟨rfl, hrest⟩ := h
    have hsame : nextOf (destinations.modify d SplitterDestinationData.updateInternalState) =
        nextOf destinations := nextOf_modify _ (fun data => by
          rw [SplitterDestinationData.updateInternalState]
          dsimp only
          split <;> rfl) d
    cases fuel with
    | zero => exact absurd hfuel (by simp)
    | succ fuel =>
      rw [← hsame] at hrest
      obtain ⟨destinations', hupdate, hresult⟩ := ih hrest (Nat.le_of_succ_le_succ hfuel)
      exact ⟨destinations', hupdate, hresult.trans hsame⟩

/-- The entries of a list are what `GetData` finds. -/
theorem getData_of_threaded (h : Threaded (nextOf destinations) start l) (i : Nat) :
    getData destinations start i = l[i]? := by
  induction l generalizing start i with
  | nil =>
    obtain rfl : start = none := h
    cases i <;> rfl
  | cons d rest ih =>
    obtain ⟨rfl, hrest⟩ := h
    cases i with
    | zero => rfl
    | succ i => exact ih hrest i

end

namespace SplitterContext

/-! ## The lists of all splitters -/

/-- The lists of the splitters of a context. -/
structure Books (s : SplitterContext) (lists : Nat → List Nat) : Prop where
  infos_length : s.splitterInfos.length = s.infoCount
  destinations_length : s.splitterDestinations.length = s.destinationsCount
  label : ∀ (i : Nat) (info : SplitterInfo), s.splitterInfos[i]? = some info → info.id = i
  threaded : ∀ (i : Nat) (info : SplitterInfo), s.splitterInfos[i]? = some info →
    Threaded (nextOf s.splitterDestinations) info.destinations (lists i)
  counted : ∀ (i : Nat) (info : SplitterInfo), s.splitterInfos[i]? = some info →
    info.destinationCount = (lists i).length
  bounded : ∀ i < s.infoCount, ∀ d ∈ lists i, d < s.destinationsCount
  apart : ∀ i < s.infoCount, ∀ j < s.infoCount, i ≠ j → ∀ d ∈ lists i, d ∉ lists j
  free : ∀ d, nextOf s.splitterDestinations d ≠ none → ∃ i < s.infoCount, d ∈ lists i

/-- The ids that `RecomposeDestination` links. -/
def linkedIds (s : SplitterContext) (infoHeader : InfoParameter) (destinationIds : Nat → Nat) :
    List Nat :=
  (List.range (s.destCount infoHeader)).map destinationIds

/-- What the checks of the source leave open about a splitter in the buffer: it exists, its
destinations exist, are distinct and on no other splitter's list, and a splitter that has
destinations is given some. -/
structure Admits (s : SplitterContext) (infoHeader : InfoParameter) (destinationIds : Nat → Nat) :
    Prop where
  index : infoHeader.id < s.infoCount
  bounded : ∀ d ∈ s.linkedIds infoHeader destinationIds, d < s.destinationsCount
  distinct : (s.linkedIds infoHeader destinationIds).Nodup
  apart : ∀ other < s.infoCount, (other : Int) ≠ infoHeader.id →
    ∀ i < s.destinationCountOf other, ∀ d ∈ s.linkedIds infoHeader destinationIds,
      s.getDestinationData other i ≠ some d
  nonempty : s.linkedIds infoHeader destinationIds = [] →
    s.destinationCountOf infoHeader.id.toNat = 0

instance (s : SplitterContext) (infoHeader : InfoParameter) (destinationIds : Nat → Nat) :
    Decidable (Admits s infoHeader destinationIds) :=
  decidable_of_iff
    (infoHeader.id < s.infoCount ∧
      (∀ d ∈ s.linkedIds infoHeader destinationIds, d < s.destinationsCount) ∧
      (s.linkedIds infoHeader destinationIds).Nodup ∧
      (∀ other < s.infoCount, (other : Int) ≠ infoHeader.id →
        ∀ i < s.destinationCountOf other, ∀ d ∈ s.linkedIds infoHeader destinationIds,
          s.getDestinationData other i ≠ some d) ∧
      (s.linkedIds infoHeader destinationIds = [] → s.destinationCountOf infoHeader.id.toNat = 0))
    ⟨fun ⟨hindex, hbounded, hdistinct, hapart, hnonempty⟩ =>
        ⟨hindex, hbounded, hdistinct, hapart, hnonempty⟩,
      fun h => ⟨h.index, h.bounded, h.distinct, h.apart, h.nonempty⟩⟩

variable {s : SplitterContext} {lists : Nat → List Nat} {infoHeader : InfoParameter}
  {destinationIds : Nat → Nat}
variable {input : Input} {offset : Nat}

theorem recomposeDestination_nil {index : Nat} {info : SplitterInfo}
    (hinfo : s.splitterInfos[index]? = some info)
    (hids : s.linkedIds infoHeader destinationIds = []) :
    s.recomposeDestination index infoHeader destinationIds = some { s with
      splitterInfos := s.splitterInfos.set index { info with destinations := none }
      splitterDestinations := unlink s.splitterDestinations info.destinations } := by
  rw [linkedIds] at hids
  simp only [recomposeDestination, hinfo, bind_eq_bind, bind_some, hids]

theorem recomposeDestination_cons {index head : Nat} {ids : List Nat} {info : SplitterInfo}
    {data : SplitterDestinationData} {destinations : List SplitterDestinationData}
    (hinfo : s.splitterInfos[index]? = some info)
    (hids : s.linkedIds infoHeader destinationIds = head :: ids)
    (hhead : (unlink s.splitterDestinations info.destinations)[head]? = some data)
    (hlink : linkFrom (unlink s.splitterDestinations info.destinations) head ids =
      some destinations) : s.recomposeDestination index infoHeader destinationIds = some { s with
      splitterInfos := s.splitterInfos.set index
        { info with destinations := some head, destinationCount := s.destCount infoHeader }
      splitterDestinations := destinations } := by
  rw [linkedIds] at hids
  simp only [recomposeDestination, hinfo, bind_eq_bind, bind_some, hids, hhead, hlink]

namespace Books

section

variable (h : Books s lists)
include h

theorem exists_info {i : Nat} (hi : i < s.infoCount) : ∃ info, s.splitterInfos[i]? = some info :=
  ⟨_, getElem?_eq_getElem (h.infos_length ▸ hi)⟩

theorem lt_of_info {i : Nat} {info : SplitterInfo}
    (hinfo : s.splitterInfos[i]? = some info) : i < s.infoCount := by
  rw [← h.infos_length]
  exact (List.getElem?_eq_some_iff.mp hinfo).1

theorem not_mem_of_admits (hadmits : Admits s infoHeader destinationIds)
    {other : Nat} (hother : other < s.infoCount) (hne : (other : Int) ≠ infoHeader.id) {d : Nat}
    (hd : d ∈ s.linkedIds infoHeader destinationIds) : d ∉ lists other := by
  intro hmem
  obtain ⟨info, hinfo⟩ := h.exists_info hother
  obtain ⟨i, hi, hget⟩ := getElem_of_mem hmem
  refine hadmits.apart other hother hne i ?_ d hd ?_
  · rw [destinationCountOf, hinfo]
    show i < info.destinationCount
    rw [h.counted other info hinfo]
    exact hi
  · rw [getDestinationData, hinfo]
    show getData _ _ i = some d
    rw [getData_of_threaded (h.threaded other info hinfo), getElem?_eq_getElem hi, hget]

/-- A splitter gets a new list of its own, and no other list changes. -/
theorem replace {index : Nat} (hindex : index < s.infoCount) {l : List Nat}
    (hdistinct : l.Nodup) (hbounded : ∀ d ∈ l, d < s.destinationsCount)
    (hapart : ∀ i < s.infoCount, i ≠ index → ∀ d ∈ l, d ∉ lists i) {info : SplitterInfo}
    (hlabel : info.id = index) (hhead : info.destinations = l.head?)
    (hcount : info.destinationCount = l.length) {destinations : List SplitterDestinationData}
    (hlength : destinations.length = s.destinationsCount) (hnext : nextOf destinations =
      linked (cleared (nextOf s.splitterDestinations) (lists index)) l) : Books { s with
        splitterInfos := s.splitterInfos.set index info
        splitterDestinations := destinations } (Function.update lists index l) := by
  have hinfo {i : Nat} {other : SplitterInfo}
      (hother : (s.splitterInfos.set index info)[i]? = some other) :
      (i = index ∧ other = info) ∨ (i ≠ index ∧ s.splitterInfos[i]? = some other) := by
    rw [getElem?_set] at hother
    split at hother
    · rename_i hsame
      subst hsame
      rw [if_pos (h.infos_length ▸ hindex)] at hother
      exact .inl ⟨rfl, (some.inj hother).symm⟩
    · rename_i hne
      exact .inr ⟨Ne.symm hne, hother⟩
  have hkept {i : Nat} (hi : i < s.infoCount) (hne : i ≠ index) {d : Nat} (hd : d ∈ lists i) :
      nextOf destinations d = nextOf s.splitterDestinations d := by
    have hother : d ∉ l := fun hmem => hapart i hi hne d hmem hd
    have hold : d ∉ lists index := h.apart i hi index hindex hne d hd
    rw [hnext, linked_of_not_mem hother, cleared, if_neg hold]
  constructor
  · rw [length_set]
    exact h.infos_length
  · exact hlength
  · intro i other hother
    obtain ⟨rfl, rfl⟩ | ⟨-, hold⟩ := hinfo hother
    · exact hlabel
    · exact h.label i other hold
  · intro i other hother
    obtain ⟨rfl, rfl⟩ | ⟨hne, hold⟩ := hinfo hother
    · rw [update_self, hhead]
      show Threaded (nextOf destinations) _ _
      rw [hnext]
      refine threaded_linked hdistinct fun d hd => ?_
      by_contra hsome
      obtain ⟨hold, hleads⟩ := cleared_ne_none_iff.mp hsome
      obtain ⟨i', hi', hmem⟩ := h.free d hleads
      by_cases hsame : i' = i
      · exact hold (hsame ▸ hmem)
      · exact hapart i' hi' hsame d hd hmem
    · rw [update_of_ne hne]
      exact (h.threaded i other hold).congr fun d hd => hkept (h.lt_of_info hold) hne hd
  · intro i other hother
    obtain ⟨rfl, rfl⟩ | ⟨hne, hold⟩ := hinfo hother
    · rw [update_self, hcount]
    · rw [update_of_ne hne]
      exact h.counted i other hold
  · intro i hi d hd
    by_cases hne : i = index
    · rw [hne, update_self] at hd
      exact hbounded d hd
    · rw [update_of_ne hne] at hd
      exact h.bounded i hi d hd
  · intro i hi j hj hij d hd
    by_cases hi' : i = index
    · have hj' : j ≠ index := fun hsame => hij (hi'.trans hsame.symm)
      rw [hi', update_self] at hd
      rw [update_of_ne hj']
      exact hapart j hj hj' d hd
    · rw [update_of_ne hi'] at hd
      by_cases hj' : j = index
      · rw [hj', update_self]
        exact fun hmem => hapart i hi hi' d hmem hd
      · rw [update_of_ne hj']
        exact h.apart i hi j hj hij d hd
  · intro d hd
    by_cases hmem : d ∈ l
    · exact ⟨index, hindex, by rwa [update_self]⟩
    · have hsome : nextOf destinations d ≠ none := hd
      rw [hnext, linked_of_not_mem hmem, cleared_ne_none_iff] at hsome
      obtain ⟨i, hi, hlist⟩ := h.free d hsome.2
      have hne : i ≠ index := fun hsame => hsome.1 (hsame ▸ hlist)
      exact ⟨i, hi, by rwa [update_of_ne hne]⟩

/-- An admitted splitter gets its new list. -/
theorem recompose (hadmits : Admits s infoHeader destinationIds) {index : Nat}
    (hindex : (index : Int) = infoHeader.id) : ∃ info destinations,
      s.recomposeDestination index infoHeader destinationIds = some { s with
        splitterInfos := s.splitterInfos.set index info
        splitterDestinations := destinations } ∧
      Books { s with
          splitterInfos := s.splitterInfos.set index info
          splitterDestinations := destinations }
        (Function.update lists index (s.linkedIds infoHeader destinationIds)) := by
  have hlt : index < s.infoCount := by
    have := hadmits.index
    omega
  have hnonempty := hadmits.nonempty
  rw [← hindex, Int.toNat_natCast] at hnonempty
  have hapart : ∀ i < s.infoCount, i ≠ index → ∀ d ∈ s.linkedIds infoHeader destinationIds,
      d ∉ lists i :=
    fun i hi hne d hd => h.not_mem_of_admits hadmits hi (by omega) hd
  obtain ⟨info, hinfo⟩ := h.exists_info hlt
  obtain ⟨hunlinked, hlength⟩ := unlink_spec (h.threaded index info hinfo) fun d hd =>
    h.destinations_length ▸ h.bounded index hlt d hd
  rw [h.destinations_length] at hlength
  have hdistinct := hadmits.distinct
  have hbounded := hadmits.bounded
  cases hids : s.linkedIds infoHeader destinationIds with
  | nil =>
    refine ⟨_, _, recomposeDestination_nil hinfo hids, ?_⟩
    have hcount : info.destinationCount = 0 := by
      have hzero := hnonempty hids
      rwa [destinationCountOf, hinfo] at hzero
    have hlabel : ({ info with destinations := none } : SplitterInfo).id = index :=
      h.label index info hinfo
    rw [hids] at hdistinct hbounded hapart
    exact h.replace hlt hdistinct hbounded hapart hlabel rfl hcount hlength hunlinked
  | cons head ids =>
    rw [hids] at hdistinct hbounded hapart
    have hhead := hbounded head mem_cons_self
    obtain ⟨destinations, hlink, hlinked, hlength'⟩ := linkFrom_spec (hlength.symm ▸ hhead)
      fun d hd => hlength.symm ▸ hbounded d (mem_cons_of_mem _ hd)
    have hsize : s.destCount infoHeader = (head :: ids).length := by
      rw [← hids, linkedIds, length_map, length_range]
    rw [hunlinked] at hlinked
    rw [hlength] at hlength'
    have hfound := getElem?_eq_getElem (hlength.symm ▸ hhead)
    refine ⟨_, _, recomposeDestination_cons hinfo hids hfound hlink, ?_⟩
    have hlabel : ({ info with
        destinations := some head
        destinationCount := s.destCount infoHeader } : SplitterInfo).id = index :=
      h.label index info hinfo
    exact h.replace hlt hdistinct hbounded hapart hlabel rfl hsize hlength' hlinked

/-- Other data of the splitters may change. -/
theorem congr_info (infos : List SplitterInfo) (hlength : infos.length = s.infoCount)
    (hsame : ∀ (i : Nat) (info : SplitterInfo), infos[i]? = some info →
      ∃ old, s.splitterInfos[i]? = some old ∧ info.id = old.id ∧
        info.destinations = old.destinations ∧ info.destinationCount = old.destinationCount) :
    Books { s with splitterInfos := infos } lists := by
  refine { h with infos_length := hlength, label := ?_, threaded := ?_, counted := ?_ }
  · intro i info hinfo
    obtain ⟨old, hold, hid, -, -⟩ := hsame i info hinfo
    exact hid.trans (h.label i old hold)
  · intro i info hinfo
    obtain ⟨old, hold, -, hdestinations, -⟩ := hsame i info hinfo
    exact hdestinations ▸ h.threaded i old hold
  · intro i info hinfo
    obtain ⟨old, hold, -, -, hcount⟩ := hsame i info hinfo
    exact hcount.trans (h.counted i old hold)

/-- Other data of the destinations may change. -/
theorem congr_destinations (destinations : List SplitterDestinationData)
    (hlength : destinations.length = s.destinationsCount)
    (hsame : nextOf destinations = nextOf s.splitterDestinations) :
    Books { s with splitterDestinations := destinations } lists := by
  refine { h with destinations_length := hlength, threaded := ?_, free := ?_ }
  · show ∀ i info, _ → Threaded (nextOf destinations) _ _
    rw [hsame]
    exact h.threaded
  · show ∀ d, nextOf destinations d ≠ none → _
    rw [hsame]
    exact h.free

end

end Books

/-! ## One update -/

/-- The size of a splitter in the buffer. -/
def infoSize (infoHeader : InfoParameter) : Nat :=
  (infoParameterSize + 3 * 4 + infoHeader.destinationCount * 4) % 2 ^ 32

/-- An admitted splitter is processed, and its whole size is read. -/
theorem Books.processInfo (h : Books s lists) (hadmits : Admits s infoHeader destinationIds)
    (hid : 0 ≤ infoHeader.id) :
    ∃ s' lists', s.processInfo infoHeader destinationIds = some (s', infoSize infoHeader) ∧
      Books s' lists' ∧ s'.infoCount = s.infoCount ∧
        s'.destinationsCount = s.destinationsCount := by
  have hindex : (infoHeader.id.toNat : Int) = infoHeader.id := Int.toNat_of_nonneg hid
  have hlt : infoHeader.id.toNat < s.infoCount := by
    have := hadmits.index
    omega
  obtain ⟨info, destinations, hrecompose, hbooks⟩ := h.recompose hadmits hindex
  have hfound : (s.splitterInfos.set infoHeader.id.toNat info)[infoHeader.id.toNat]? =
      some info := by
    rw [getElem?_set_self (h.infos_length ▸ hlt)]
  have hlabel : infoHeader.id = info.id := hindex.symm.trans (hbooks.label _ info hfound).symm
  have hupdate : info.update infoHeader =
      ({ info with sampleRate := infoHeader.sampleRate, hasNewConnection := true },
        infoSize infoHeader) := by
    rw [SplitterInfo.update, if_neg (fun hne => hne hlabel)]
    rfl
  refine ⟨_, _, ?_, hbooks.congr_info ((s.splitterInfos.set infoHeader.id.toNat info).set
    infoHeader.id.toNat
      { info with sampleRate := infoHeader.sampleRate, hasNewConnection := true }) ?_ ?_, rfl, rfl⟩
  · rw [SplitterContext.processInfo]
    simp only [hrecompose, bind_eq_bind, bind_some, hfound, hupdate]
  · rw [length_set]
    exact hbooks.infos_length
  · intro i other hother
    rw [getElem?_set] at hother
    split at hother
    · rename_i hsame
      subst hsame
      rw [length_set, if_pos (h.infos_length ▸ hlt)] at hother
      obtain rfl := some.inj hother
      exact ⟨info, hfound, rfl, rfl, rfl⟩
    · exact ⟨other, hother, rfl, rfl, rfl⟩

/-- The splitters that `UpdateInfo` processes, with the offset behind them. -/
def parseInfos (input : Input) (infoCount : Nat) :
    Nat → Nat → List (InfoParameter × (Nat → Nat)) × Nat
  | 0, offset => ([], offset)
  | splitterCount + 1, offset =>
    let infoHeader := InfoParameter.read input offset
    if infoHeader.magic ≠ splitterInfoMagic then parseInfos input infoCount splitterCount offset
    else if infoHeader.id < 0 ∨ (infoCount : Int) < infoHeader.id then ([], offset)
    else
      let (headers, last) := parseInfos input infoCount splitterCount
        ((offset + infoSize infoHeader) % 2 ^ 32)
      ((infoHeader, fun i => readU32 input (offset + infoParameterSize + 4 * i)) :: headers, last)

/-- The destinations that `UpdateData` updates. -/
def parseData (input : Input) (destinationsCount : Nat) : Nat → Nat → List DestinationParameter
  | 0, _ => []
  | count + 1, offset =>
    let dataHeader := DestinationParameter.read input offset
    if dataHeader.magic ≠ splitterSendDataMagic ∨ dataHeader.id < 0 ∨
        (destinationsCount : Int) < dataHeader.id then
      parseData input destinationsCount count offset
    else dataHeader :: parseData input destinationsCount count
      ((offset + destinationParameterSize) % 2 ^ 32)

/-- The processing of one splitter, as a step of a context that may have failed. -/
def infoStep (s : Option SplitterContext) (header : InfoParameter × (Nat → Nat)) :
    Option SplitterContext :=
  s.bind fun s => (s.processInfo header.1 header.2).map Prod.fst

/-- The condition on one splitter in the buffer. -/
def AdmitsStep (s : Option SplitterContext) (header : InfoParameter × (Nat → Nat)) : Prop :=
  match s with
  | none => True
  | some context => Admits context header.1 header.2

instance (s : Option SplitterContext) (header : InfoParameter × (Nat → Nat)) :
    Decidable (AdmitsStep s header) :=
  match s with
  | none => inferInstanceAs (Decidable True)
  | some context => inferInstanceAs (Decidable (Admits context header.1 header.2))

theorem updateInfo_spec {splitterCount : Nat} (h : Books s lists)
    (hadmits : Along infoStep AdmitsStep (some s)
      (parseInfos input s.infoCount splitterCount offset).1) :
    ∃ s' lists', updateInfo input splitterCount offset s =
        some (s', (parseInfos input s.infoCount splitterCount offset).2) ∧
      Books s' lists' ∧ s'.infoCount = s.infoCount ∧
        s'.destinationsCount = s.destinationsCount := by
  induction splitterCount generalizing offset s lists with
  | zero => exact ⟨s, lists, rfl, h, rfl, rfl⟩
  | succ splitterCount ih =>
    rw [parseInfos] at hadmits ⊢
    rw [updateInfo]
    dsimp only at hadmits ⊢
    split
    · rename_i hother
      rw [if_pos hother] at hadmits
      exact ih h hadmits
    · rename_i hmagic
      rw [if_neg hmagic] at hadmits
      split
      · exact ⟨s, lists, rfl, h, rfl, rfl⟩
      · rename_i hchecked
        rw [if_neg hchecked] at hadmits
        obtain ⟨hfirst, hrest⟩ := hadmits
        have hid : 0 ≤ (InfoParameter.read input offset).id := by omega
        obtain ⟨s', lists', hprocess, hbooks, hinfos, hdestinations⟩ := h.processInfo hfirst hid
        rw [infoStep, bind_some, hprocess, ← hinfos] at hrest
        obtain ⟨s'', lists'', hupdate, hbooks', hinfos', hdestinations'⟩ := ih hbooks hrest
        refine ⟨s'', lists'', ?_, hbooks', hinfos'.trans hinfos, hdestinations'.trans hdestinations⟩
        rw [hprocess]
        simp only [bind_eq_bind, bind_some, hupdate, hinfos]

theorem updateData_spec {count : Nat} (h : Books s lists)
    (hadmits : ∀ dataHeader ∈ parseData input s.destinationsCount count offset,
      dataHeader.id < s.destinationsCount) :
    ∃ s' offset', updateData input count offset s = some (s', offset') ∧ Books s' lists := by
  induction count generalizing offset s with
  | zero => exact ⟨s, offset, rfl, h⟩
  | succ count ih =>
    rw [parseData] at hadmits
    rw [updateData]
    dsimp only at hadmits ⊢
    split
    · rename_i hother
      rw [if_pos (.inl hother)] at hadmits
      exact ih h hadmits
    · rename_i hmagic
      split
      · rename_i hother
        rw [if_pos (.inr hother)] at hadmits
        exact ih h hadmits
      · rename_i hchecked
        rw [if_neg (by rintro (hother | hother); exacts [hmagic hother, hchecked hother])]
          at hadmits
        have hid := hadmits _ mem_cons_self
        have hlt : (DestinationParameter.read input offset).id.toNat <
            s.splitterDestinations.length := by
          rw [h.destinations_length]
          omega
        have hnext (d : SplitterDestinationData) :
            (d.update (DestinationParameter.read input offset)).next = d.next := by
          rw [SplitterDestinationData.update]
          split
          · rfl
          · dsimp only
            split <;> rfl
        have hsame := nextOf_set_of_next hlt ((hnext _).trans (nextOf_of_lt hlt).symm)
        have hbooks := h.congr_destinations _ (length_set.trans h.destinations_length) hsame
        obtain ⟨s', offset', hupdate, hbooks'⟩ := ih hbooks fun dataHeader hmem =>
          hadmits dataHeader (mem_cons_of_mem _ hmem)
        refine ⟨s', offset', ?_, hbooks'⟩
        rw [getElem?_eq_getElem hlt]
        exact hupdate

/-! ## Runs of updates -/

/-- The context as the loops of `Update` find it. -/
def clearNewConnectionFlags (s : SplitterContext) : SplitterContext :=
  { s with
    splitterInfos := s.splitterInfos.map fun info => { info with hasNewConnection := false } }

/-- What the checks of the source leave open about an update. -/
def AdmitsInput (s : SplitterContext) (input : Input) : Prop :=
  let parsed := parseInfos input s.infoCount (readU32 input 4) inParameterHeaderSize
  Along infoStep AdmitsStep (some s.clearNewConnectionFlags) parsed.1 ∧
    ∀ dataHeader ∈ parseData input s.destinationsCount (readU32 input 8) parsed.2,
      dataHeader.id < s.destinationsCount

/-- An update, as a step of a context that may have failed. -/
def updateStep (s : Option SplitterContext) (input : Input) : Option SplitterContext :=
  s.bind fun s => (s.update input).map Prod.fst

/-- The condition on an update, for one that gets past the first checks. -/
def AdmitsUpdate (s : Option SplitterContext) (input : Input) : Prop :=
  ∀ context, s = some context → context.destinationsCount ≠ 0 → context.infoCount ≠ 0 →
    readU32 input 0 = splitterInParamHeaderMagic → AdmitsInput context input

instance (s : SplitterContext) (input : Input) : Decidable (AdmitsInput s input) :=
  inferInstanceAs (Decidable (_ ∧ _))

instance (s : Option SplitterContext) (input : Input) : Decidable (AdmitsUpdate s input) :=
  match s with
  | none => isTrue fun _ h => nomatch h
  | some context => decidable_of_iff
      (context.destinationsCount ≠ 0 → context.infoCount ≠ 0 →
        readU32 input 0 = splitterInParamHeaderMagic → AdmitsInput context input)
      ⟨fun h _ hcontext => Option.some.inj hcontext ▸ h, fun h => h context rfl⟩

/-- Each splitter has a list of as many destinations as it counts, without one twice, and walking
over the lists ends. -/
structure Sound (s : SplitterContext) : Prop where
  lists : ∀ info ∈ s.splitterInfos, ∃ l,
    Threaded (nextOf s.splitterDestinations) info.destinations l ∧ l.Nodup ∧
      (∀ d ∈ l, d < s.destinationsCount) ∧ l.length = info.destinationCount
  ends : ∃ fuel s', s.updateInternalState fuel = some s'

/-- No access was made outside of an array, and the lists are sound. -/
def SoundState (s : Option SplitterContext) : Prop := ∃ context, s = some context ∧ Sound context

/-- Every splitter finds as many destinations in its list as it counts. -/
def FindsCounted (s : Option SplitterContext) : Bool :=
  s.any fun context => context.splitterInfos.all fun info =>
    (List.range (info.destinationCount + 1)).all fun i =>
      (getData context.splitterDestinations info.destinations i).isSome ==
        decide (i < info.destinationCount)

theorem SoundState.findsCounted {s : Option SplitterContext} (h : SoundState s) :
    FindsCounted s = true := by
  obtain ⟨context, rfl, hsound⟩ := h
  rw [FindsCounted, any_some, List.all_eq_true]
  intro info hinfo
  obtain ⟨l, hthreaded, -, -, hlength⟩ := hsound.lists info hinfo
  rw [List.all_eq_true]
  intro i _
  rw [getData_of_threaded hthreaded, beq_iff_eq, Bool.eq_iff_iff, isSome_iff_ne_none,
    decide_eq_true_iff, ne_eq, List.getElem?_eq_none_iff, not_le, hlength]

theorem books_new (infoCount destinationsCount : Nat) (splitterBugFixed : Bool) :
    Books (new infoCount destinationsCount splitterBugFixed) fun _ => [] := by
  have hinfo {i : Nat} {info : SplitterInfo}
      (h : (new infoCount destinationsCount splitterBugFixed).splitterInfos[i]? = some info) :
      info = .new i := by
    rw [new, getElem?_map, map_eq_some_iff] at h
    obtain ⟨j, hj, rfl⟩ := h
    obtain ⟨hlt, rfl⟩ := List.getElem?_eq_some_iff.mp hj
    rw [getElem_range]
  have hnext (d : Nat) :
      nextOf (new infoCount destinationsCount splitterBugFixed).splitterDestinations d = none := by
    rw [nextOf, new, getElem?_map]
    cases (range destinationsCount)[d]? <;> rfl
  constructor
  · rw [new, length_map, length_range]
  · rw [new, length_map, length_range]
  · intro i info h
    rw [hinfo h]
    rfl
  · intro i info h
    rw [hinfo h]
    rfl
  · intro i info h
    rw [hinfo h]
    rfl
  · intro i _ d hd
    cases hd
  · intro i _ j _ _ d hd
    cases hd
  · intro d hd
    exact absurd (hnext d) hd

theorem Books.clear (h : Books s lists) : Books s.clearNewConnectionFlags lists := by
  refine h.congr_info _ ?_ ?_
  · rw [length_map]
    exact h.infos_length
  · intro i info hinfo
    rw [getElem?_map, map_eq_some_iff] at hinfo
    obtain ⟨old, hold, rfl⟩ := hinfo
    exact ⟨old, hold, rfl, rfl, rfl⟩

/-- An update past the first checks. -/
theorem update_of_checks (s : SplitterContext)
    (hcounts : ¬(s.destinationsCount = 0 ∨ s.infoCount = 0))
    (hmagic : readU32 input 0 = splitterInParamHeaderMagic) {s₁ s₂ : SplitterContext} {offset' : Nat}
    (hinfo : updateInfo input (readU32 input 4) inParameterHeaderSize s.clearNewConnectionFlags =
      some (s₁, offset))
    (hdata : updateData input (readU32 input 8) offset s₁ = some (s₂, offset')) :
    updateStep (some s) input = some s₂ := by
  rw [updateStep, bind_some, SplitterContext.update, if_neg hcounts, if_neg (not_not.mpr hmagic)]
  -- one bind at a time, since the kernel must not evaluate the offsets
  change ((updateInfo input (readU32 input 4) inParameterHeaderSize
    s.clearNewConnectionFlags).bind _).map Prod.fst = _
  rw [hinfo, bind_some]
  change ((updateData input (readU32 input 8) offset s₁).bind _).map Prod.fst = _
  rw [hdata, bind_some]
  rfl

theorem Books.update (h : Books s lists) (hadmits : AdmitsUpdate (some s) input) :
    ∃ s' lists', updateStep (some s) input = some s' ∧ Books s' lists' := by
  by_cases hcounts : s.destinationsCount = 0 ∨ s.infoCount = 0
  · refine ⟨s, lists, ?_, h⟩
    rw [updateStep, bind_some, SplitterContext.update, if_pos hcounts, map_some]
  by_cases hmagic : readU32 input 0 = splitterInParamHeaderMagic
  · obtain ⟨hdestinations, hinfos⟩ := not_or.mp hcounts
    obtain ⟨hfirst, hsecond⟩ := hadmits s rfl hdestinations hinfos hmagic
    obtain ⟨s₁, lists₁, hupdate, hbooks, hcount, hcount'⟩ := updateInfo_spec h.clear hfirst
    have hsame : s₁.destinationsCount = s.destinationsCount := hcount'
    rw [← hsame] at hsecond
    obtain ⟨s₂, offset, hupdate', hbooks'⟩ := updateData_spec hbooks hsecond
    exact ⟨s₂, lists₁, update_of_checks s hcounts hmagic hupdate hupdate', hbooks'⟩
  · refine ⟨s, lists, ?_, h⟩
    rw [updateStep, bind_some, SplitterContext.update, if_neg hcounts, if_pos hmagic, map_some]

/-- Walking over the lists of the first splitters ends. -/
theorem Books.walk (h : Books s lists) {count : Nat} (hcount : count ≤ s.infoCount) :
    ∃ destinations, (range count).foldlM (fun destinations i => do
        let info ← s.splitterInfos[i]?
        updateList s.destinationsCount destinations info.destinations) s.splitterDestinations =
          some destinations ∧
      nextOf destinations = nextOf s.splitterDestinations := by
  induction count with
  | zero => exact ⟨_, rfl, rfl⟩
  | succ count ih =>
    obtain ⟨destinations, hwalk, hsame⟩ := ih (Nat.le_of_succ_le hcount)
    obtain ⟨info, hinfo⟩ := h.exists_info hcount
    have hthreaded := h.threaded count info hinfo
    have hlength : (lists count).length ≤ s.destinationsCount := by
      have hsubset : lists count ⊆ range s.destinationsCount :=
        fun d hd => mem_range.mpr (h.bounded count hcount d hd)
      have hle := (List.Nodup.subperm hthreaded.nodup hsubset).length_le
      rwa [length_range] at hle
    rw [← hsame] at hthreaded
    obtain ⟨destinations', hupdate, hsame'⟩ := updateList_spec hthreaded hlength
    refine ⟨destinations', ?_, hsame'.trans hsame⟩
    rw [range_succ, foldlM_append, hwalk]
    simp only [bind_eq_bind, bind_some, foldlM_cons, foldlM_nil, hinfo, hupdate]
    rfl

theorem Books.sound (h : Books s lists) : Sound s := by
  constructor
  · intro info hmem
    obtain ⟨i, hi, rfl⟩ := getElem_of_mem hmem
    have hinfo := getElem?_eq_getElem hi
    have hthreaded := h.threaded i _ hinfo
    exact ⟨lists i, hthreaded, hthreaded.nodup, h.bounded i (h.lt_of_info hinfo),
      (h.counted i _ hinfo).symm⟩
  · obtain ⟨destinations, hwalk, -⟩ := h.walk (le_refl s.infoCount)
    refine ⟨s.destinationsCount, { s with splitterDestinations := destinations }, ?_⟩
    rw [updateInternalState, hwalk]
    rfl

/-- In every state of a run of admitted updates, the lists of the destinations are sound. -/
theorem lists_of_admits (infoCount destinationsCount : Nat) (splitterBugFixed : Bool)
    (inputs : List Input)
    (hadmits : Along updateStep AdmitsUpdate
      (some (new infoCount destinationsCount splitterBugFixed)) inputs) :
    Throughout updateStep SoundState (some (new infoCount destinationsCount splitterBugFixed))
      inputs := by
  refine throughout_of_along (I := fun s => ∃ context lists, s = some context ∧ Books context lists)
    ?_ ?_ ⟨_, _, rfl, books_new infoCount destinationsCount splitterBugFixed⟩ hadmits
  · rintro _ ⟨context, lists, rfl, hbooks⟩
    exact ⟨context, rfl, hbooks.sound⟩
  · rintro _ input ⟨context, lists, rfl, hbooks⟩ hinput
    obtain ⟨s', lists', hstep, hbooks'⟩ := hbooks.update hinput
    exact ⟨s', lists', hstep, hbooks'⟩

/-- A buffer with the given words from its start on. -/
def ofWords (words : List Nat) : Input :=
  fun i => UInt8.ofNat (words.getD (i / 4) 0 / 2 ^ (8 * (i % 4)))

/-- A header for the given numbers of splitters and of destinations. -/
def headerWords (infoCount destinationCount : Nat) : List Nat :=
  [splitterInParamHeaderMagic, infoCount, destinationCount, 0, 0, 0, 0, 0]

/-- A splitter with the ids of its destinations. -/
def infoWords (id : Nat) (destinationIds : List Nat) : List Nat :=
  [splitterInfoMagic, id, 48000, destinationIds.length] ++ destinationIds ++ [0, 0, 0]

/-- The data of a destination. -/
def destinationWords (id : Nat) : List Nat :=
  [splitterSendDataMagic, id] ++ replicate maxMixBuffers 0 ++ [0, 1]

theorem lists_of_admits_twoUpdates :
    Throughout updateStep SoundState (some (new 2 3 true))
      [ofWords (headerWords 2 1 ++ infoWords 0 [0, 1] ++ infoWords 1 [2] ++ destinationWords 0),
        ofWords (headerWords 1 0 ++ infoWords 0 [1, 0])] := by
  apply lists_of_admits
  decide +kernel

/-- An id one past the last splitter, data one past the last destination, a destination twice on a
list, two splitters with each other's destinations, and a splitter that gives up its destination. -/
theorem not_sound_uncheckedHeaders :
    [[ofWords (headerWords 1 0 ++ infoWords 2 [0])],
      [ofWords (headerWords 0 1 ++ destinationWords 3)],
      [ofWords (headerWords 1 0 ++ infoWords 0 [0, 0])],
      [ofWords (headerWords 2 0 ++ infoWords 0 [0, 1] ++ infoWords 1 [1, 0])],
      [ofWords (headerWords 1 0 ++ infoWords 0 [0]),
        ofWords (headerWords 1 0 ++ infoWords 0 [])]].Forall fun inputs =>
      ¬Throughout updateStep SoundState (some (new 2 3 true)) inputs := by
  refine ⟨?_, ?_, ?_, ?_, ?_⟩
  all_goals
    intro hsound
    exact absurd hsound.last.findsCounted (by decide +kernel)

end SplitterContext

end Sudachi.AudioCore
