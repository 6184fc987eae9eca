import Hoe.Theorems.KeyContext

/-!
# Keyboard macros end

A macro is replayed by a bottom half, and each replayed key can register another one. When no replayed key calls the macro any more,
the bottom halves run out (`macro_ends`): every step makes the keys that are left to replay fewer, since a macro that is defined anew
inside the replay is empty. A macro that calls itself never ends.
-/

namespace Hoe

namespace KeyState

variable {E : Type} (sem : KeyCommands E)

/-- The state behind so many steps of `call_bottom_halves`, unless it ends before. -/
def bottomHalfRun (st : KeyState E) : Nat → Option (KeyState E)
  | 0 => some st
  | n + 1 => (bottomHalfRun st n).bind (bottomHalfStep sem)

/-- The bottom halves run out. -/
def Empties (st : KeyState E) : Prop :=
  ∃ n st', st.bottomHalfRun sem n = some st' ∧ st'.bottomHalves = 0 ∧ st'.macroKeyIndex = none

/-- The next step replays a key that calls the macro. -/
def CallsMacro (st : KeyState E) : Prop :=
  ∃ i key, st.macroKeyIndex = some i ∧ st.macroKeys[i]? = some key ∧ KeyEffect.callMacro ∈ (st.record key).keyEffects sem key

variable {sem} {st : KeyState E}

/-! ## What the steps do to the macro -/

/-- Two states with the same macro, as far as it is defined and replayed. -/
structure SameMacro (st st' : KeyState E) : Prop where
  defining : st'.definingMacro = st.definingMacro
  keys : st'.macroKeys = st.macroKeys
  index : st'.macroKeyIndex = st.macroKeyIndex
  halves : st'.bottomHalves = st.bottomHalves

theorem SameMacro.refl (st : KeyState E) : SameMacro st st := ⟨rfl, rfl, rfl, rfl⟩

/-- An effect acts alike on states with the same macro. -/
theorem SameMacro.apply {st st' : KeyState E} (h : SameMacro st st') (e : KeyEffect E) : SameMacro (st.apply e) (st'.apply e) := by
  obtain ⟨hdef, hkeys, hindex, hhalves⟩ := h
  cases e with
  | startMacro =>
    simp only [KeyState.apply, doStartMacro, hdef]
    split_ifs <;> constructor <;> first | rfl | assumption
  | endMacro =>
    simp only [KeyState.apply, doEndMacro, hdef, hindex]
    split_ifs <;> constructor <;> first | rfl | assumption
  | callMacro =>
    simp only [KeyState.apply, doCallMacro, hdef, hkeys, hhalves]
    split_ifs <;> constructor <;> first | rfl | assumption
  | _ => exact ⟨hdef, hkeys, hindex, hhalves⟩

/-- So do all effects of a command. -/
theorem SameMacro.applyAll {st st' : KeyState E} (h : SameMacro st st') (es : List (KeyEffect E)) :
    SameMacro (st.applyAll es) (st'.applyAll es) := by
  induction es generalizing st st' with
  | nil => exact h
  | cons e es ih => exact ih (h.apply e)

/-- A key does to the macro what its effects do. -/
theorem sameMacro_processKey (sem : KeyCommands E) (st : KeyState E) (key : Nat) :
    SameMacro (st.applyAll (st.keyEffects sem key)) (st.processKey sem key) := by
  rw [processKey]
  cases haction : st.keyAction key with
  | grabbed => exact SameMacro.refl _
  | command d c =>
    have hsame : SameMacro st { st with ctx := c.applyArg } := ⟨rfl, rfl, rfl, rfl⟩
    simp only
    split_ifs with huniv hdesc
    · have : st.keyEffects sem key = [] := by
        simp only [keyEffects, haction]
        rw [if_pos (.inl huniv.1)]
      rw [this]
      exact ⟨rfl, rfl, rfl, rfl⟩
    · have : st.keyEffects sem key = [] := by
        simp only [keyEffects, haction]
        rw [if_pos (.inr hdesc)]
      rw [this]
      exact ⟨rfl, rfl, rfl, rfl⟩
    · obtain ⟨hdef, hkeys, hindex, hhalves⟩ := hsame.applyAll (st.keyEffects sem key)
      exact ⟨hdef, hkeys, hindex, hhalves⟩
  | _ =>
    have : st.keyEffects sem key = [] := by simp only [keyEffects, haction]
    rw [this]
    exact ⟨rfl, rfl, rfl, rfl⟩

/-- A macro that is being defined while bottom halves run is empty. -/
def Fresh (st : KeyState E) : Prop := st.definingMacro = true → st.macroKeys = []

/-- Each effect keeps a macro that is being defined empty. -/
theorem Fresh.apply (h : st.Fresh) (e : KeyEffect E) : (st.apply e).Fresh := by
  cases e with
  | startMacro =>
    rw [KeyState.apply, doStartMacro]
    split_ifs
    · exact fun hd => absurd hd Bool.false_ne_true
    · exact fun _ => rfl
  | endMacro =>
    rw [KeyState.apply, doEndMacro]
    split_ifs
    · exact h
    · exact fun hd => absurd hd Bool.false_ne_true
    · exact h
  | callMacro =>
    rw [KeyState.apply, doCallMacro]
    split_ifs
    · exact fun hd => absurd hd Bool.false_ne_true
    · exact h
    · exact h
  | _ => exact h

/-- So do all effects of a command. -/
theorem Fresh.applyAll (h : st.Fresh) (es : List (KeyEffect E)) : (st.applyAll es).Fresh := by
  induction es generalizing st with
  | nil => exact h
  | cons e es ih => exact ih (h.apply e)

/-- While bottom halves run, a key that is replayed is not recorded. -/
theorem Fresh.record (h : st.Fresh) (hne : st.macroKeys ≠ []) (key : Nat) : st.record key = st := by
  rw [KeyState.record, if_neg fun hd => hne (h hd)]

/-- So does a key, where there is a macro to call. -/
theorem Fresh.qeKeyProcess (h : st.Fresh) (hne : st.macroKeys ≠ []) (key : Nat) : (st.qeKeyProcess sem key).Fresh := by
  rw [KeyState.qeKeyProcess, h.record hne]
  obtain ⟨hdef, hkeys, -, -⟩ := sameMacro_processKey sem st key
  intro hd
  exact hkeys.trans (h.applyAll _ (hdef ▸ hd))

/-- What effects that do not call the macro do to it: no bottom half is added, and its keys stay unless they are dropped. -/
structure Shrinks (st st' : KeyState E) : Prop where
  keys : st'.macroKeys = st.macroKeys ∨ st'.macroKeys = []
  halves : st'.bottomHalves = st.bottomHalves

/-- An effect that calls no macro adds no replay. -/
theorem shrinks_apply (st : KeyState E) {e : KeyEffect E} (he : e ≠ .callMacro) : Shrinks st (st.apply e) := by
  cases e with
  | startMacro =>
    rw [apply, doStartMacro]
    split_ifs
    · exact ⟨.inl rfl, rfl⟩
    · exact ⟨.inr rfl, rfl⟩
  | endMacro =>
    rw [apply, doEndMacro]
    split_ifs <;> exact ⟨.inl rfl, rfl⟩
  | callMacro => exact absurd rfl he
  | _ => exact ⟨.inl rfl, rfl⟩

/-- So it is with effects none of which does. -/
theorem shrinks_applyAll (st : KeyState E) {es : List (KeyEffect E)} (hes : KeyEffect.callMacro ∉ es) :
    Shrinks st (st.applyAll es) := by
  induction es generalizing st with
  | nil => exact ⟨.inl rfl, rfl⟩
  | cons e es ih =>
    obtain ⟨hkeys, hhalves⟩ := shrinks_apply st fun heq => hes (heq ▸ List.mem_cons_self)
    obtain ⟨hkeys', hhalves'⟩ := ih (st.apply e) fun hmem => hes (List.mem_cons_of_mem _ hmem)
    refine ⟨?_, hhalves'.trans hhalves⟩
    rcases hkeys' with hkeys' | hkeys'
    · rcases hkeys with hkeys | hkeys
      · exact .inl (hkeys'.trans hkeys)
      · exact .inr (hkeys'.trans hkeys)
    · exact .inr hkeys'

/-- A replayed key, unless it calls the macro. -/
theorem shrinks_qeKeyProcess (h : st.Fresh) {key : Nat} (hne : st.macroKeys ≠ [])
    (hcall : KeyEffect.callMacro ∉ (st.record key).keyEffects sem key) : Shrinks st (st.qeKeyProcess sem key) := by
  rw [h.record hne] at hcall
  rw [qeKeyProcess, h.record hne]
  obtain ⟨hkeys, hhalves⟩ := shrinks_applyAll st hcall
  obtain ⟨-, hkeys', -, hhalves'⟩ := sameMacro_processKey sem st key
  exact ⟨hkeys' ▸ hkeys, hhalves'.trans hhalves⟩

/-! ## The measure -/

/-- The keys that are left to replay, with a step at the beginning and at the end of each replay. -/
def keysLeft (st : KeyState E) : Nat :=
  st.bottomHalves * (st.macroKeys.length + 2) + (st.macroKeyIndex.map fun i => st.macroKeys.length - i + 1).getD 0

/-- A key that is replayed is a key of the macro. -/
theorem macroKeys_ne_nil {i key : Nat} (h : st.macroKeys[i]? = some key) : st.macroKeys ≠ [] :=
  List.ne_nil_of_length_pos (Nat.zero_lt_of_lt (List.getElem?_eq_some_iff.mp h).1)

/-- The steps keep what is asked of a macro that is defined while it is replayed. -/
theorem Fresh.step (h : st.Fresh) {st' : KeyState E} (hstep : st.bottomHalfStep sem = some st') : st'.Fresh := by
  cases hindex : st.macroKeyIndex with
  | some i =>
    cases hkey : st.macroKeys[i]? with
    | some key =>
      simp only [bottomHalfStep, hindex, hkey] at hstep
      obtain rfl := Option.some.inj hstep
      exact h.qeKeyProcess (macroKeys_ne_nil hkey) key
    | none =>
      simp only [bottomHalfStep, hindex, hkey] at hstep
      obtain rfl := Option.some.inj hstep
      exact h
  | none =>
    simp only [bottomHalfStep, hindex] at hstep
    split_ifs at hstep
    obtain rfl := Option.some.inj hstep
    exact h

/-- A step that does not call the macro leaves fewer keys to replay. -/
theorem keysLeft_lt (h : st.Fresh) (hcall : ¬ st.CallsMacro sem) {st' : KeyState E} (hstep : st.bottomHalfStep sem = some st') :
    st'.keysLeft < st.keysLeft := by
  cases hindex : st.macroKeyIndex with
  | some i =>
    cases hkey : st.macroKeys[i]? with
    | some key =>
      have hlt := (List.getElem?_eq_some_iff.mp hkey).1
      obtain ⟨hkeys, hhalves⟩ := shrinks_qeKeyProcess h (macroKeys_ne_nil hkey) fun hmem => hcall ⟨i, key, hindex, hkey, hmem⟩
      simp only [bottomHalfStep, hindex, hkey] at hstep
      obtain rfl := Option.some.inj hstep
      have hlen : (st.qeKeyProcess sem key).macroKeys.length ≤ st.macroKeys.length := by
        rcases hkeys with hkeys | hkeys
        · exact hkeys ▸ le_refl _
        · exact hkeys ▸ Nat.zero_le _
      have hmul := Nat.mul_le_mul_left st.bottomHalves (Nat.add_le_add_right hlen 2)
      simp only [keysLeft, hindex, hhalves, Option.map_some, Option.getD_some]
      omega
    | none =>
      simp only [bottomHalfStep, hindex, hkey] at hstep
      obtain rfl := Option.some.inj hstep
      simp only [keysLeft, hindex, Option.map_some, Option.getD_some, Option.map_none, Option.getD_none]
      omega
  | none =>
    simp only [bottomHalfStep, hindex] at hstep
    split_ifs at hstep with hzero
    obtain rfl := Option.some.inj hstep
    obtain ⟨n, hn⟩ := Nat.exists_eq_succ_of_ne_zero hzero
    simp only [keysLeft, hindex, hn, Option.map_some, Option.getD_some, Option.map_none, Option.getD_none, Nat.succ_sub_one,
      Nat.succ_mul]
    omega

/-! ## Runs -/

/-- The bottom halves are done when none is left and no macro is replayed. -/
theorem bottomHalfStep_none_iff : st.bottomHalfStep sem = none ↔ st.bottomHalves = 0 ∧ st.macroKeyIndex = none := by
  cases hindex : st.macroKeyIndex with
  | some i => cases hkey : st.macroKeys[i]? <;> simp [bottomHalfStep, hindex, hkey]
  | none => simp [bottomHalfStep, hindex]

/-- A run of steps, in two parts. -/
theorem bottomHalfRun_add (st : KeyState E) (m n : Nat) :
    st.bottomHalfRun sem (m + n) = (st.bottomHalfRun sem m).bind fun st' => st'.bottomHalfRun sem n := by
  induction n with
  | zero => exact (Option.bind_fun_some _).symm
  | succ n ih =>
    rw [← Nat.add_assoc, bottomHalfRun, ih, Option.bind_assoc]
    rfl

/-- A run from a state that a run leads to. -/
theorem bottomHalfRun_from {m : Nat} {st' : KeyState E} (h : st.bottomHalfRun sem m = some st') (n : Nat) :
    st.bottomHalfRun sem (m + n) = st'.bottomHalfRun sem n := by
  rw [bottomHalfRun_add, h, Option.bind_some]

/-- A run that has ended was in a state without bottom halves. -/
theorem empties_of_none {n : Nat} (h : st.bottomHalfRun sem n = none) : st.Empties sem := by
  induction n with
  | zero => exact absurd h (Option.some_ne_none st)
  | succ n ih =>
    cases hrun : st.bottomHalfRun sem n with
    | none => exact ih hrun
    | some st' =>
      rw [bottomHalfRun, hrun, Option.bind_some] at h
      exact ⟨n, st', hrun, bottomHalfStep_none_iff.mp h⟩

/-- Without a call, the bottom halves run out. -/
theorem empties_of_not_calls (h : st.Fresh) (hcall : ∀ n st', st.bottomHalfRun sem n = some st' → ¬ st'.CallsMacro sem) :
    st.Empties sem := by
  induction hleft : st.keysLeft using Nat.strong_induction_on generalizing st with
  | _ left ih =>
    cases hstep : st.bottomHalfStep sem with
    | none => exact ⟨0, st, rfl, bottomHalfStep_none_iff.mp hstep⟩
    | some st' =>
      have hone : st.bottomHalfRun sem 1 = some st' := hstep
      have hrun := bottomHalfRun_from hone
      have hlt := keysLeft_lt h (hcall 0 st rfl) hstep
      obtain ⟨n, st'', hst'', hend⟩ := ih _ (hleft ▸ hlt) (h.step hstep) (fun n st'' hst'' => hcall (1 + n) st'' ((hrun n).trans hst'')) rfl
      exact ⟨1 + n, st'', (hrun n).trans hst'', hend⟩

/-- So does a run of steps. -/
theorem Fresh.run (h : st.Fresh) {n : Nat} {st' : KeyState E} (hrun : st.bottomHalfRun sem n = some st') : st'.Fresh := by
  induction n generalizing st' with
  | zero => exact Option.some.inj hrun ▸ h
  | succ n ih =>
    obtain ⟨st₁, h₁, hstep⟩ := Option.bind_eq_some_iff.mp hrun
    exact (ih h₁).step hstep

/-- The macro is not defined while it is called. -/
theorem fresh_doCallMacro (st : KeyState E) : st.doCallMacro.Fresh := by
  intro hd
  rw [doCallMacro] at hd
  split_ifs at hd with hdef
  · exact absurd hd hdef
  · exact absurd hd hdef

/-- The bottom halves that a call of the macro registers run out if and only if from some step on no replayed key calls the macro
again. -/
theorem macro_ends (st : KeyState E) :
    st.doCallMacro.Empties sem ↔
      ∃ n, ∀ m st', n ≤ m → st.doCallMacro.bottomHalfRun sem m = some st' → ¬ st'.CallsMacro sem := by
  constructor
  · rintro ⟨n, st₁, hrun, hend⟩
    refine ⟨n, ?_⟩
    intro m st' hle hst'
    obtain ⟨k, rfl⟩ := Nat.exists_eq_add_of_le hle
    rw [bottomHalfRun_from hrun] at hst'
    cases k with
    | zero =>
      obtain rfl := Option.some.inj hst'
      rintro ⟨i, -, hindex, -, -⟩
      exact Option.some_ne_none i (hindex.symm.trans hend.2)
    | succ k =>
      have hnone : st₁.bottomHalfRun sem 1 = none := bottomHalfStep_none_iff.mpr hend
      rw [Nat.add_comm, bottomHalfRun_add, hnone] at hst'
      nomatch hst'
  · rintro ⟨n, hcall⟩
    cases hrun : st.doCallMacro.bottomHalfRun sem n with
    | none => exact empties_of_none hrun
    | some st₁ =>
      obtain ⟨m, st₂, hst₂, hend⟩ := empties_of_not_calls ((fresh_doCallMacro st).run hrun) fun m st' hst' =>
        hcall (n + m) st' (Nat.le_add_right n m) ((bottomHalfRun_from hrun m).trans hst')
      exact ⟨n + m, st₂, (bottomHalfRun_from hrun m).trans hst₂, hend⟩

end KeyState

/-- The commands of macros, with their default bindings. -/
def macroCmds : List CmdDef :=
  [⟨keyCtrlX 40, keyNone, "start-kbd-macro", .startMacro, 0⟩, ⟨keyCtrlX 101, keyNone, "call-last-kbd-macro", .callMacro, 0⟩]

open KeyState in
/-- The definition of a macro is ended by calling it: the macro is C-x e. -/
theorem not_macro_ends :
    ¬ (∀ keys : List Nat, ((keyStart macroCmds).runKeys noEffects (keys.map .key)).doCallMacro.Empties noEffects) := by
  intro h
  obtain ⟨n, st', hrun, hend⟩ := h [keyCtrl 120, 40, keyCtrl 120, 101]
  obtain ⟨st, hst⟩ : ∃ st, st = ((keyStart macroCmds).runKeys noEffects
    ([keyCtrl 120, 40, keyCtrl 120, 101].map .key)).doCallMacro := ⟨_, rfl⟩
  rw [← hst] at hrun
  -- four steps lead back to where they began
  have hback : st.bottomHalfRun noEffects 4 = some st := by
    rw [hst]
    decide +kernel
  have hbusy : ∀ k < 4, ∀ st' ∈ st.bottomHalfRun noEffects k, ¬ (st'.bottomHalves = 0 ∧ st'.macroKeyIndex = none) := by
    rw [hst]
    decide +kernel
  induction n using Nat.strong_induction_on with
  | _ n ih =>
    by_cases hlt : n < 4
    · exact hbusy n hlt st' hrun hend
    · obtain ⟨k, rfl⟩ := Nat.exists_eq_add_of_le (Nat.not_lt.mp hlt)
      rw [bottomHalfRun_from hback] at hrun
      exact ih k (by omega) hrun

end Hoe
