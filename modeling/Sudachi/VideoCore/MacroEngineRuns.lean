import Mathlib.Order.Nat
import Sudachi.VideoCore.MacroEngine

/-!
# When the macro engine runs the current code

`Invariant` ties the engine to the history of its inputs: what the history does not mark as behind
is the current code of its method. Each input keeps it, an execution under the condition `Fresh`,
and from it follows that such an execution runs the current code.
-/

set_option autoImplicit false

namespace Sudachi.VideoCore.MacroEngine

open Foundations.Runs List Option Function
open Machine (initial step)
open Function (update)

/-! ## The nearest base -/

section Nearest

variable {uploads uploads' : Uploads} {method base : Nat}

/-- Whether an upload contains a method. -/
def Contains (uploads : Uploads) (base method : Nat) : Prop :=
  base ≤ method ∧ method - base < (uploads base).length

theorem nearestFrom_eq_some {bound : Nat} (hbound : bound ≤ method)
    (h : nearestFrom uploads method bound = some base) :
    base ≤ bound ∧ Contains uploads base method ∧
      ∀ b, base < b → b ≤ bound → ¬Contains uploads b method := by
  induction bound with
  | zero =>
    rw [nearestFrom] at h
    split at h
    · rename_i hlt
      injection h with h
      subst h
      exact ⟨le_rfl, ⟨hbound, by simpa using hlt⟩, by omega⟩
    · cases h
  | succ bound ih =>
    rw [nearestFrom] at h
    split at h
    · rename_i hlt
      injection h with h
      subst h
      exact ⟨le_rfl, ⟨hbound, hlt⟩, by omega⟩
    · rename_i hnot
      obtain ⟨hle, hcontains, hmax⟩ := ih (by omega) h
      refine ⟨by omega, hcontains, ?_⟩
      intro b hb hb'
      rcases Nat.lt_succ_iff_lt_or_eq.mp (Nat.lt_succ_of_le hb') with hlt | rfl
      · exact hmax b hb (by omega)
      · exact fun hc => hnot hc.2

theorem nearestFrom_eq_none {bound : Nat} (h : nearestFrom uploads method bound = none) :
    ∀ b ≤ bound, ¬Contains uploads b method := by
  induction bound with
  | zero =>
    intro b hb hc
    obtain rfl := Nat.le_zero.mp hb
    rw [nearestFrom] at h
    split at h
    · cases h
    · rename_i hnot
      exact hnot (by simpa using hc.2)
  | succ bound ih =>
    intro b hb hc
    rw [nearestFrom] at h
    split at h
    · cases h
    · rename_i hnot
      rcases Nat.lt_succ_iff_lt_or_eq.mp (Nat.lt_succ_of_le hb) with hlt | rfl
      · exact ih h b (by omega) hc
      · exact hnot hc.2

/-- The nearest base is the greatest upload that contains the method. -/
theorem nearestBase_eq_some_iff : nearestBase uploads method = some base ↔
    Contains uploads base method ∧ ∀ b, base < b → ¬Contains uploads b method := by
  constructor
  · intro h
    obtain ⟨_, hcontains, hmax⟩ := nearestFrom_eq_some le_rfl h
    exact ⟨hcontains, fun b hb hc => hmax b hb hc.1 hc⟩
  · rintro ⟨hcontains, hmax⟩
    cases hnearest : nearestBase uploads method with
    | none => exact absurd hcontains (nearestFrom_eq_none hnearest base hcontains.1)
    | some b =>
      obtain ⟨_, hb, hmaxb⟩ := nearestFrom_eq_some le_rfl hnearest
      have hle : b ≤ base := not_lt.mp fun hlt => hmax b hlt hb
      have hge : base ≤ b := not_lt.mp fun hlt => hmaxb base hlt hcontains.1 hcontains
      rw [le_antisymm hle hge]

theorem nearestBase_eq_none_iff :
    nearestBase uploads method = none ↔ ∀ b, ¬Contains uploads b method := by
  constructor
  · intro h b hc
    exact nearestFrom_eq_none h b hc.1 hc
  · intro h
    by_contra hne
    obtain ⟨base, hbase⟩ := ne_none_iff_exists'.mp hne
    exact h base (nearestBase_eq_some_iff.mp hbase).1

/-- A method with an upload of its own is its own nearest base. -/
theorem nearestBase_self (h : uploads method ≠ []) : nearestBase uploads method = some method := by
  refine nearestBase_eq_some_iff.mpr ⟨⟨le_rfl, ?_⟩, ?_⟩
  · rw [Nat.sub_self]
    exact length_pos_iff.mpr h
  · intro b hb hc
    exact absurd hc.1 (not_le.mpr hb)

theorem current_self (h : uploads method ≠ []) :
    current uploads method = some (uploads method) := by
  rw [current, nearestBase_self h, map_some, Nat.sub_self, drop_zero]

/-- A change of one upload that is neither before nor after it the nearest base of a method does
not change the method's code. -/
theorem current_congr (hsame : ∀ b ≠ base, uploads' b = uploads b)
    (h : nearestBase uploads method ≠ some base) (h' : nearestBase uploads' method ≠ some base) :
    current uploads' method = current uploads method := by
  have hcontains : ∀ b ≠ base, (Contains uploads' b method ↔ Contains uploads b method) := by
    intro b hb
    rw [Contains, Contains, hsame b hb]
  have hnearest : nearestBase uploads' method = nearestBase uploads method := by
    cases hn : nearestBase uploads method with
    | none =>
      cases hn' : nearestBase uploads' method with
      | none => rfl
      | some b =>
        have hb : b ≠ base := fun heq => h' (heq ▸ hn')
        have hc := (nearestBase_eq_some_iff.mp hn').1
        exact absurd ((hcontains b hb).mp hc) (nearestBase_eq_none_iff.mp hn b)
    | some b =>
      have hb : b ≠ base := fun heq => h (heq ▸ hn)
      obtain ⟨hc, hmax⟩ := nearestBase_eq_some_iff.mp hn
      cases hn' : nearestBase uploads' method with
      | none =>
        exact absurd ((hcontains b hb).mpr hc) (nearestBase_eq_none_iff.mp hn' b)
      | some b' =>
        have hb' : b' ≠ base := fun heq => h' (heq ▸ hn')
        obtain ⟨hc', hmax'⟩ := nearestBase_eq_some_iff.mp hn'
        have hle : b ≤ b' := not_lt.mp fun hlt => hmax' b hlt ((hcontains b hb).mpr hc)
        have hge : b' ≤ b := not_lt.mp fun hlt => hmax b' hlt ((hcontains b' hb').mp hc')
        rw [le_antisymm hle hge]
  cases hn : nearestBase uploads method with
  | none => rw [current, current, hnearest, hn, map_none, map_none]
  | some b =>
    have hb : b ≠ base := fun heq => h (heq ▸ hn)
    rw [current, current, hnearest, hn, map_some, map_some, hsame b hb]

/-- An upload that grows stays the nearest base of the methods whose nearest base it was. -/
theorem nearestBase_of_longer (hsame : ∀ b ≠ base, uploads' b = uploads b)
    (hlonger : (uploads base).length ≤ (uploads' base).length)
    (h : nearestBase uploads method = some base) : nearestBase uploads' method = some base := by
  obtain ⟨⟨hle, hlt⟩, hmax⟩ := nearestBase_eq_some_iff.mp h
  refine nearestBase_eq_some_iff.mpr ⟨⟨hle, hlt.trans_le hlonger⟩, ?_⟩
  intro b hb hc
  rw [Contains, hsame b hb.ne'] at hc
  exact hmax b hb hc

/-- The words of a method, seen from another base that has the same nearest upload. -/
theorem current_drop {code : List UInt32} (hle : base ≤ method)
    (hsame : nearestBase uploads base = nearestBase uploads method)
    (h : current uploads base = some code) :
    current uploads method = some (code.drop (method - base)) := by
  rw [current] at h ⊢
  obtain ⟨n, hn, rfl⟩ := map_eq_some_iff.mp h
  have hle' := (nearestBase_eq_some_iff.mp hn).1.1
  rw [← hsame, hn, map_some, drop_drop]
  congr 2
  omega

end Nearest

/-! ## The invariant -/

variable {backend : Backend} {getHLEProgram : List UInt32 → Bool} {k : Machine}

/-- What ties the engine to the history. -/
structure Invariant (backend : Backend) (k : Machine) : Prop where
  /-- The map holds an entry for the uploads and for the compiled methods, and no other. -/
  keys : ∀ m, (k.engine.uploadedMacroCode m).isSome ↔ k.uploads m ≠ [] ∨ k.Compiled m = true
  /-- Whatever else an entry holds, it is no shorter than what was uploaded. -/
  long : ∀ m, (k.uploads m).length ≤ (k.engine.code m).length
  /-- Only compiled methods can be behind. -/
  behind : ∀ m, k.oldProgram m = true ∨ k.oldCode m = true → k.Compiled m = true
  /-- The words in the map are the current code, where they are not behind. -/
  code : ∀ m, (k.engine.uploadedMacroCode m).isSome → k.oldCode m = false →
    current k.uploads m = some (k.engine.code m)
  /-- So are those of a compiled program. -/
  program : ∀ m info, k.engine.macroCache m = some info → k.oldProgram m = false →
    current k.uploads m = some (info.program backend (k.engine.code m))

theorem invariant_initial : Invariant backend initial where
  keys := by intro m; simp [initial, State.initial, Machine.Compiled]
  long := by intro m; simp [initial]
  behind := by intro m h; simp [initial] at h
  code := by intro m h; simp [initial, State.initial] at h
  program := by intro m info h; simp [initial, State.initial] at h

/-- Without a compiled program, an entry of the map is the method's own upload. -/
theorem Invariant.uploaded (h : Invariant backend k) {m : Nat}
    (hsome : (k.engine.uploadedMacroCode m).isSome) (hc : k.Compiled m = false) :
    k.uploads m ≠ [] := by
  rcases (h.keys m).mp hsome with hne | hc'
  · exact hne
  · rw [hc] at hc'
    cases hc'

theorem Invariant.oldCode_eq_false (h : Invariant backend k) {m : Nat}
    (hc : k.Compiled m = false) : k.oldCode m = false := by
  by_contra hne
  have hc' := h.behind m (.inr (by simpa using hne))
  rw [hc] at hc'
  cases hc'

theorem code_of_none {s : State} {m : Nat} (h : s.uploadedMacroCode m = none) : s.code m = [] := by
  rw [State.code, h, getD_none]

theorem program_of_readsMap {info : CacheInfo} {m : Nat} (h : k.engine.macroCache m = some info)
    (hreads : k.ReadsMap backend m = true) (uploaded : List UInt32) :
    info.program backend uploaded = uploaded := by
  simp only [Machine.ReadsMap, h, Bool.and_eq_true, Bool.not_eq_true', decide_eq_true_eq] at hreads
  simp [CacheInfo.program, hreads.1, hreads.2]

theorem program_new (code : List UInt32) (hle : Bool) :
    (CacheInfo.mk code hle).program backend code = code := by
  cases hle with
  | true => rfl
  | false => cases backend <;> rfl

/-! ## Uploads and clears -/

section Uploading

variable {m : Nat} {data : UInt32}
variable {c : Nat}

theorem uploads_addCode_self : (k.addCode backend m data).uploads m = k.uploads m ++ [data] :=
  update_self _ _ _

theorem uploads_addCode_of_ne (backend : Backend) (data : UInt32) (hc : c ≠ m) :
    (k.addCode backend m data).uploads c = k.uploads c :=
  update_of_ne hc _ _

theorem code_addCode_self :
    (k.addCode backend m data).engine.code m = k.engine.code m ++ [data] := by
  change (update k.engine.uploadedMacroCode m _ m).getD [] = _
  rw [update_self, getD_some]

theorem uploadedMacroCode_addCode_of_ne (hc : c ≠ m) :
    (k.addCode backend m data).engine.uploadedMacroCode c = k.engine.uploadedMacroCode c :=
  update_of_ne hc _ _

theorem code_addCode_of_ne (hc : c ≠ m) :
    (k.addCode backend m data).engine.code c = k.engine.code c := by
  rw [State.code, State.code, uploadedMacroCode_addCode_of_ne hc]

theorem nearestBase_addCode_self : nearestBase (k.addCode backend m data).uploads m = some m := by
  refine nearestBase_self ?_
  rw [uploads_addCode_self]
  simp

/-- The new word changes no code but that of the methods whose nearest base it extends. -/
theorem current_addCode (h : nearestBase (k.addCode backend m data).uploads c ≠ some m) :
    current (k.addCode backend m data).uploads c = current k.uploads c := by
  refine current_congr (fun b hb => uploads_addCode_of_ne backend data hb) ?_ h
  intro hbefore
  refine h (nearestBase_of_longer (fun b hb => uploads_addCode_of_ne backend data hb) ?_ hbefore)
  rw [uploads_addCode_self, length_append]
  omega

/-- An entry of another method is not behind after the new word only if the word is not part of
its code. -/
theorem Invariant.nearestBase_addCode (h : Invariant backend k) (data : UInt32) (hc : c ≠ m)
    (hsome : (k.engine.uploadedMacroCode c).isSome)
    (hflag : ¬(k.Compiled c = true ∧ nearestBase (k.addCode backend m data).uploads c = some m)) :
    nearestBase (k.addCode backend m data).uploads c ≠ some m := by
  intro hnearest
  have hcompiled : k.Compiled c = false := by
    by_contra hne
    exact hflag ⟨by simpa using hne, hnearest⟩
  have hown := h.uploaded hsome hcompiled
  rw [← uploads_addCode_of_ne backend data hc] at hown
  rw [nearestBase_self hown] at hnearest
  exact hc (some.inj hnearest)

theorem Invariant.addCode (h : Invariant backend k) :
    Invariant backend (k.addCode backend m data) where
  keys := by
    intro c
    by_cases hc : c = m
    · subst hc
      have hsome : (k.addCode backend c data).engine.uploadedMacroCode c =
          some (k.engine.code c ++ [data]) := update_self _ _ _
      rw [hsome, uploads_addCode_self]
      simp
    · rw [uploadedMacroCode_addCode_of_ne hc, uploads_addCode_of_ne backend data hc]
      exact h.keys c
  long := by
    intro c
    by_cases hc : c = m
    · subst hc
      rw [uploads_addCode_self, code_addCode_self, length_append, length_append]
      have := h.long c
      omega
    · rw [uploads_addCode_of_ne backend data hc, code_addCode_of_ne hc]
      exact h.long c
  behind := by
    intro c hold
    change k.Compiled c = true
    simp only [Machine.addCode, Bool.or_eq_true, Bool.and_eq_true] at hold
    rcases hold with (hold | hold) | (hold | hold)
    · exact h.behind c (.inl hold)
    · exact hold.1.1
    · exact h.behind c (.inr hold)
    · exact hold.1.1
  code := by
    intro c hsome hold
    have hflags : k.oldCode c = false ∧ ¬(k.Compiled c = true ∧
        nearestBase (k.addCode backend m data).uploads c = some m ∧
        ¬(c = m ∧ k.uploads m ≠ [])) := by
      simpa [Machine.addCode, and_assoc] using hold
    by_cases hc : c = m
    · subst hc
      rw [current_self (by rw [uploads_addCode_self]; simp), uploads_addCode_self,
        code_addCode_self]
      by_cases hown : k.uploads c = []
      · -- a first word: the entry was not compiled, so the map had none
        have hnone : k.engine.uploadedMacroCode c = none := by
          by_contra hne
          rcases (h.keys c).mp (isSome_iff_ne_none.mpr hne) with hne | hcompiled
          · exact hne hown
          · exact hflags.2 ⟨hcompiled, nearestBase_addCode_self, fun hboth => hboth.2 hown⟩
        rw [hown, code_of_none hnone]
      · have hcode := h.code c ((h.keys c).mpr (.inl hown)) hflags.1
        rw [current_self hown] at hcode
        rw [some.inj hcode]
    · rw [uploadedMacroCode_addCode_of_ne hc] at hsome
      have hnearest := h.nearestBase_addCode data hc hsome
        (fun hboth => hflags.2 ⟨hboth.1, hboth.2, fun heq => hc heq.1⟩)
      rw [current_addCode hnearest, code_addCode_of_ne hc]
      exact h.code c hsome hflags.1
  program := by
    intro c info hinfo hold
    have hcompiled : k.Compiled c = true := by
      rw [Machine.Compiled]
      exact isSome_iff_exists.mpr ⟨info, hinfo⟩
    have hflags : k.oldProgram c = false ∧ ¬(k.Compiled c = true ∧
        nearestBase (k.addCode backend m data).uploads c = some m ∧
        ¬((c = m ∧ k.uploads m ≠ []) ∧ k.ReadsMap backend c = true)) := by
      simpa [Machine.addCode, and_assoc] using hold
    have hprogram := h.program c info hinfo hflags.1
    by_cases hc : c = m
    · subst hc
      have hown : (c = c ∧ k.uploads c ≠ []) ∧ k.ReadsMap backend c = true := by
        by_contra hnot
        exact hflags.2 ⟨hcompiled, nearestBase_addCode_self, hnot⟩
      rw [current_self (by rw [uploads_addCode_self]; simp), uploads_addCode_self,
        code_addCode_self, program_of_readsMap hinfo hown.2]
      rw [current_self hown.1.2, program_of_readsMap hinfo hown.2] at hprogram
      rw [some.inj hprogram]
    · have hsome : (k.engine.uploadedMacroCode c).isSome := (h.keys c).mpr (.inr hcompiled)
      have hnearest := h.nearestBase_addCode data hc hsome
        (fun hboth => hflags.2 ⟨hboth.1, hboth.2, fun heq => hc heq.1.1⟩)
      rw [current_addCode hnearest, code_addCode_of_ne hc]
      exact hprogram

theorem uploads_clearCode_of_ne (hc : c ≠ m) : (k.clearCode m).uploads c = k.uploads c :=
  update_of_ne hc _ _

theorem uploads_clearCode_self : (k.clearCode m).uploads m = [] :=
  update_self _ _ _

theorem uploadedMacroCode_clearCode_self : (k.clearCode m).engine.uploadedMacroCode m = none :=
  update_self _ _ _

theorem uploadedMacroCode_clearCode_of_ne (hc : c ≠ m) :
    (k.clearCode m).engine.uploadedMacroCode c = k.engine.uploadedMacroCode c :=
  update_of_ne hc _ _

theorem code_clearCode_of_ne (hc : c ≠ m) : (k.clearCode m).engine.code c = k.engine.code c := by
  rw [State.code, State.code, uploadedMacroCode_clearCode_of_ne hc]

theorem macroCache_clearCode_self : (k.clearCode m).engine.macroCache m = none :=
  update_self _ _ _

theorem macroCache_clearCode_of_ne (hc : c ≠ m) :
    (k.clearCode m).engine.macroCache c = k.engine.macroCache c :=
  update_of_ne hc _ _

/-- A clear changes no code but that of the methods whose nearest base it removes. -/
theorem current_clearCode (h : nearestBase k.uploads c ≠ some m) :
    current (k.clearCode m).uploads c = current k.uploads c := by
  refine current_congr (fun b hb => uploads_clearCode_of_ne hb) h ?_
  intro hafter
  have hlt := (nearestBase_eq_some_iff.mp hafter).1.2
  rw [uploads_clearCode_self, length_nil] at hlt
  exact Nat.not_lt_zero _ hlt

theorem Invariant.nearestBase_clearCode (h : Invariant backend k) (hc : c ≠ m)
    (hsome : (k.engine.uploadedMacroCode c).isSome)
    (hflag : ¬(k.Compiled c = true ∧ nearestBase k.uploads c = some m)) :
    nearestBase k.uploads c ≠ some m := by
  intro hnearest
  have hcompiled : k.Compiled c = false := by
    by_contra hne
    exact hflag ⟨by simpa using hne, hnearest⟩
  rw [nearestBase_self (h.uploaded hsome hcompiled)] at hnearest
  exact hc (some.inj hnearest)

theorem Invariant.clearCode (h : Invariant backend k) : Invariant backend (k.clearCode m) where
  keys := by
    intro c
    by_cases hc : c = m
    · subst hc
      rw [uploadedMacroCode_clearCode_self, uploads_clearCode_self, Machine.Compiled,
        macroCache_clearCode_self]
      simp
    · rw [uploadedMacroCode_clearCode_of_ne hc, uploads_clearCode_of_ne hc, Machine.Compiled,
        macroCache_clearCode_of_ne hc]
      exact h.keys c
  long := by
    intro c
    by_cases hc : c = m
    · subst hc
      rw [uploads_clearCode_self]
      exact Nat.zero_le _
    · rw [uploads_clearCode_of_ne hc, code_clearCode_of_ne hc]
      exact h.long c
  behind := by
    intro c hold
    simp only [Machine.clearCode, Bool.and_eq_true, Bool.or_eq_true, decide_eq_true_eq] at hold
    have hc : c ≠ m := by
      rcases hold with hold | hold <;> exact hold.1
    rw [Machine.Compiled, macroCache_clearCode_of_ne hc]
    rcases hold with ⟨_, hold | hold⟩ | ⟨_, hold | hold⟩
    · exact h.behind c (.inl hold)
    · exact hold.1
    · exact h.behind c (.inr hold)
    · exact hold.1
  code := by
    intro c hsome hold
    have hc : c ≠ m := by
      intro heq
      rw [heq, uploadedMacroCode_clearCode_self] at hsome
      cases hsome
    have hflags : k.oldCode c = false ∧
        ¬(k.Compiled c = true ∧ nearestBase k.uploads c = some m) := by
      simpa [Machine.clearCode, hc] using hold
    rw [uploadedMacroCode_clearCode_of_ne hc] at hsome
    rw [current_clearCode (h.nearestBase_clearCode hc hsome hflags.2), code_clearCode_of_ne hc]
    exact h.code c hsome hflags.1
  program := by
    intro c info hinfo hold
    have hc : c ≠ m := by
      intro heq
      rw [heq, macroCache_clearCode_self] at hinfo
      cases hinfo
    rw [macroCache_clearCode_of_ne hc] at hinfo
    have hflags : k.oldProgram c = false ∧
        ¬(k.Compiled c = true ∧ nearestBase k.uploads c = some m) := by
      simpa [Machine.clearCode, hc] using hold
    have hcompiled : k.Compiled c = true := by
      rw [Machine.Compiled]
      exact isSome_iff_exists.mpr ⟨info, hinfo⟩
    have hsome : (k.engine.uploadedMacroCode c).isSome := (h.keys c).mpr (.inr hcompiled)
    rw [current_clearCode (h.nearestBase_clearCode hc hsome hflags.2), code_clearCode_of_ne hc]
    exact h.program c info hinfo hflags.1

end Uploading

/-! ## Executions -/

section Executing

variable {order : List Nat} {m : Nat}

theorem execute_compiled {info : CacheInfo} (hinfo : k.engine.macroCache m = some info) :
    k.engine.execute backend getHLEProgram order m =
      (k.engine, some (info.program backend (k.engine.code m))) := by
  simp only [State.execute, hinfo]

theorem execute_uploaded {code : List UInt32} (hinfo : k.engine.macroCache m = none)
    (hcode : k.engine.uploadedMacroCode m = some code) :
    k.engine.execute backend getHLEProgram order m =
      ({ k.engine with
          macroCache :=
            update k.engine.macroCache m (some ⟨code, getHLEProgram code⟩) },
        some code) := by
  simp only [State.execute, hinfo, hcode]

theorem execute_missing (hinfo : k.engine.macroCache m = none)
    (hcode : k.engine.uploadedMacroCode m = none) (hmid : k.engine.midMethod order m = none) :
    k.engine.execute backend getHLEProgram order m = (k.engine, none) := by
  simp only [State.execute, hinfo, hcode, hmid]

theorem execute_middle {base : Nat} (hinfo : k.engine.macroCache m = none)
    (hcode : k.engine.uploadedMacroCode m = none) (hmid : k.engine.midMethod order m = some base) :
    k.engine.execute backend getHLEProgram order m =
      ({  macroCache := update k.engine.macroCache m
            (some ⟨(k.engine.code base).drop (m - base),
              getHLEProgram ((k.engine.code base).drop (m - base))⟩)
          uploadedMacroCode := update k.engine.uploadedMacroCode m
            (some ((k.engine.code base).drop (m - base))) },
        some ((k.engine.code base).drop (m - base))) := by
  simp only [State.execute, hinfo, hcode, hmid]

theorem midMethod_eq_some {base : Nat} (h : k.engine.midMethod order m = some base) :
    base ≤ m ∧ m - base < (k.engine.code base).length := by
  simpa using find?_some h

theorem compiled_eq_false (hinfo : k.engine.macroCache m = none) : k.Compiled m = false := by
  rw [Machine.Compiled, hinfo, isSome_none]

theorem compiled_of_some {info : CacheInfo} (hinfo : k.engine.macroCache m = some info) :
    k.Compiled m = true := by
  rw [Machine.Compiled, hinfo, isSome_some]

section

variable (h : Invariant backend k)
include h

/-- The current code of a method that is entered for the first time in the middle of an upload. -/
theorem Invariant.current_middle {base : Nat}
    (hmid : k.engine.midMethod order m = some base) (hcode : k.oldCode base = false)
    (hnearest : nearestBase k.uploads base = nearestBase k.uploads m) :
    current k.uploads m = some ((k.engine.code base).drop (m - base)) := by
  obtain ⟨hle, hlt⟩ := midMethod_eq_some hmid
  have hsome : (k.engine.uploadedMacroCode base).isSome := by
    by_contra hnone
    have hempty : k.engine.code base = [] := code_of_none (by simpa using hnone)
    rw [hempty, length_nil] at hlt
    exact Nat.not_lt_zero _ hlt
  exact current_drop hle hnearest (h.code base hsome hcode)

/-- Where no entry of the map reaches to the method, no upload does. -/
theorem Invariant.current_missing
    (horder : ∀ base, base ∈ order ↔ (k.engine.uploadedMacroCode base).isSome)
    (hmid : k.engine.midMethod order m = none) : current k.uploads m = none := by
  have hnone : nearestBase k.uploads m = none := by
    refine nearestBase_eq_none_iff.mpr ?_
    rintro b ⟨hle, hlt⟩
    have hlong := h.long b
    have hkey : b ∈ order := by
      rw [horder, h.keys]
      refine .inl ?_
      intro hempty
      rw [hempty, length_nil] at hlt
      exact Nat.not_lt_zero _ hlt
    have hnot := find?_eq_none.mp hmid b hkey
    simp only [decide_eq_true_eq, not_and] at hnot
    exact hnot hle (hlt.trans_le hlong)
  rw [current, hnone, map_none]

/-- An execution under the condition runs the current code. -/
theorem Invariant.runsCurrent {i : Input} (hiter : Iterates k i)
    (hfresh : Fresh k i) : RunsCurrent backend getHLEProgram k i := by
  cases i with
  | addCode m data | clearCode m => trivial
  | execute order m =>
    rw [RunsCurrent]
    rw [Fresh] at hfresh
    cases hinfo : k.engine.macroCache m with
    | some info =>
      rw [if_pos (compiled_of_some hinfo)] at hfresh
      rw [execute_compiled hinfo]
      exact (h.program m info hinfo hfresh).symm
    | none =>
      have hcompiled := compiled_eq_false hinfo
      rw [if_neg (by simp [hcompiled])] at hfresh
      cases hcode : k.engine.uploadedMacroCode m with
      | some code =>
        have hcurrent := h.code m (by simp [hcode]) (h.oldCode_eq_false hcompiled)
        rw [execute_uploaded hinfo hcode, hcurrent, State.code, hcode, getD_some]
      | none =>
        rw [if_neg (by simp [hcode])] at hfresh
        cases hmid : k.engine.midMethod order m with
        | none =>
          rw [execute_missing hinfo hcode hmid]
          exact (h.current_missing hiter hmid).symm
        | some base =>
          obtain ⟨hold, hnearest⟩ := hfresh base hmid
          rw [execute_middle hinfo hcode hmid]
          exact (h.current_middle hmid hold hnearest).symm

/-- A method that is compiled from its current code is not behind. -/
theorem Invariant.compile {code : List UInt32} (hle : Bool)
    (hinfo : k.engine.macroCache m = none) (hcurrent : current k.uploads m = some code)
    (hlong : (k.uploads m).length ≤ code.length) : Invariant backend { k with engine :=
      {  macroCache := update k.engine.macroCache m (some ⟨code, hle⟩)
         uploadedMacroCode := update k.engine.uploadedMacroCode m (some code) } } where
  keys := by
    intro c
    by_cases hc : c = m
    · subst hc
      simp [Machine.Compiled]
    · simpa only [Machine.Compiled, update_of_ne hc] using h.keys c
  long := by
    intro c
    by_cases hc : c = m
    · subst hc
      simpa only [State.code, update_self, getD_some] using hlong
    · simpa only [State.code, update_of_ne hc] using h.long c
  behind := by
    intro c hold
    by_cases hc : c = m
    · subst hc
      simp [Machine.Compiled]
    · simpa only [Machine.Compiled, update_of_ne hc] using h.behind c hold
  code := by
    intro c hsome hold
    by_cases hc : c = m
    · subst hc
      simpa only [State.code, update_self, getD_some] using hcurrent
    · simp only [update_of_ne hc] at hsome
      simpa only [State.code, update_of_ne hc] using h.code c hsome hold
  program := by
    intro c info hinfo' hold
    by_cases hc : c = m
    · subst hc
      simp only [update_self] at hinfo'
      obtain rfl := some.inj hinfo'
      simpa only [State.code, update_self, getD_some, program_new] using hcurrent
    · simp only [update_of_ne hc] at hinfo'
      simpa only [State.code, update_of_ne hc] using h.program c info hinfo' hold

theorem Invariant.execute (hfresh : Fresh k (.execute order m)) :
    Invariant backend (k.step backend getHLEProgram (.execute order m)) := by
  rw [step]
  rw [Fresh] at hfresh
  cases hinfo : k.engine.macroCache m with
  | some info =>
    rw [execute_compiled hinfo]
    exact h
  | none =>
    have hcompiled := compiled_eq_false hinfo
    rw [if_neg (by simp [hcompiled])] at hfresh
    cases hcode : k.engine.uploadedMacroCode m with
    | some code =>
      have hcurrent := h.code m (by simp [hcode]) (h.oldCode_eq_false hcompiled)
      have hlong := h.long m
      rw [State.code, hcode, getD_some] at hcurrent hlong
      have hsame : update k.engine.uploadedMacroCode m (some code) =
          k.engine.uploadedMacroCode := by
        rw [← hcode, update_eq_self]
      have hnext := h.compile (getHLEProgram code) hinfo hcurrent hlong
      rw [hsame] at hnext
      rw [execute_uploaded hinfo hcode]
      exact hnext
    | none =>
      rw [if_neg (by simp [hcode])] at hfresh
      cases hmid : k.engine.midMethod order m with
      | none =>
        rw [execute_missing hinfo hcode hmid]
        exact h
      | some base =>
        obtain ⟨hold, hnearest⟩ := hfresh base hmid
        have hempty : k.uploads m = [] := by
          by_contra hne
          have hsome := (h.keys m).mpr (.inl hne)
          rw [hcode] at hsome
          cases hsome
        rw [execute_middle hinfo hcode hmid]
        refine h.compile _ hinfo (h.current_middle hmid hold hnearest) ?_
        rw [hempty]
        exact Nat.zero_le _

end

end Executing

theorem Invariant.step (h : Invariant backend k) {i : Input} (hfresh : Fresh k i) :
    Invariant backend (k.step backend getHLEProgram i) := by
  cases i with
  | addCode m data => exact h.addCode
  | clearCode m => exact h.clearCode
  | execute order m => exact h.execute hfresh

/-- Whatever is uploaded, cleared and executed, in any order and with either engine: if every
execution meets the condition `Fresh`, every execution runs the current code of its method. -/
theorem runsCurrent_of_fresh (backend : Backend) (getHLEProgram : List UInt32 → Bool)
    {is : List Input} (hiter : Along (step backend getHLEProgram) Iterates initial is)
    (hfresh : Along (step backend getHLEProgram) Fresh initial is) :
    Along (step backend getHLEProgram) (RunsCurrent backend getHLEProgram)
      initial is :=
  along_of_along (I := Invariant backend) (fun _ _ h hq => h.runsCurrent hq.1 hq.2)
    (fun _ _ h hq => h.step hq.2) invariant_initial (hiter.and hfresh)

/-- An upload that is executed at its start and in its middle, cleared with its entry point, and
uploaded and executed once more. -/
theorem runsCurrent_of_fresh_reupload :
    Along (step .jit fun _ => false) (RunsCurrent .jit fun _ => false) initial
      [.addCode 0 1, .addCode 0 2, .execute [0] 0, .execute [0] 1, .clearCode 1, .clearCode 0,
        .addCode 0 3, .addCode 0 4, .execute [0] 0, .execute [0] 1] := by
  refine runsCurrent_of_fresh .jit (fun _ => false) ?_ ?_
  · refine ⟨trivial, trivial, ?_, ?_, trivial, trivial, trivial, trivial, ?_, ?_, trivial⟩
    all_goals
      intro base
      by_cases hbase : base = 0
      · subst hbase
        decide
      · by_cases hentry : base = 1
        · subst hentry
          decide
        · simp [hbase, hentry, step, Machine.addCode, Machine.clearCode, State.addCode,
            State.clearCode, State.execute, State.midMethod, State.code, initial,
            State.initial, update]
  · refine ⟨trivial, trivial, ?_, ?_, trivial, trivial, trivial, trivial, ?_, ?_, trivial⟩
    · trivial
    · intro base hbase
      obtain rfl : 0 = base := Option.some.inj hbase
      decide
    · trivial
    · intro base hbase
      obtain rfl : 0 = base := Option.some.inj hbase
      decide

/-- An upload is entered in its middle, cleared and uploaded anew: the next execution of the entry
point still runs the words of the first upload, with either engine. -/
theorem not_runsCurrent : ¬∀ (backend : Backend) (getHLEProgram : List UInt32 → Bool)
    (is : List Input),
    Along (step backend getHLEProgram) Iterates initial is →
    Along (step backend getHLEProgram) (RunsCurrent backend getHLEProgram)
      initial is := by
  intro hclaim
  have hruns := hclaim .jit (fun _ => false)
    [.addCode 0 1, .addCode 0 2, .execute [0] 1, .clearCode 0, .addCode 0 3, .addCode 0 4,
      .execute [0, 1] 1] ?_
  · obtain ⟨_, _, _, _, _, _, hlast, _⟩ := hruns
    revert hlast
    rw [RunsCurrent]
    decide
  · refine ⟨trivial, trivial, ?_, trivial, trivial, trivial, ?_, trivial⟩
    all_goals
      intro base
      by_cases hbase : base = 0
      · subst hbase
        decide
      · by_cases hentry : base = 1
        · subst hentry
          decide
        · simp [hbase, hentry, step, Machine.addCode, Machine.clearCode, State.addCode,
            State.clearCode, State.execute, State.midMethod, State.code, initial,
            State.initial, update]

end Sudachi.VideoCore.MacroEngine
