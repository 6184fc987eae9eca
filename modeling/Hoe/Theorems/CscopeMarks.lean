import Hoe.Cscope

/-!
# The marks of cscope

A mark is pushed wherever a result is selected, and popped to come back. The array takes one mark less than the test for a full
stack lets through, and the cursor that a pop sets is the one `switch_to_buffer` saves for the buffer it leaves: what the window
shows afterwards is what was saved or is shown of the buffer it comes back to.
-/

namespace Hoe

namespace Cscope

/-! ## The stack -/

/-- The stack holds the marks, the last one first. -/
structure Holds (c : CscopeMarkStack) (l : List CscopeMark) : Prop where
  index : c.index = (l.length : Int) - 1
  le : l.length ≤ cscopeStackSize
  marks : c.stack.take l.length = l.reverse

theorem holds_init : Holds .init [] := ⟨rfl, Nat.zero_le _, rfl⟩

/-- There is room for a mark. -/
theorem Holds.push {c : CscopeMarkStack} {l : List CscopeMark} (h : Holds c l) (hroom : l.length < cscopeStackSize)
    (b : BufferPtr) (offset : Int) : ∃ c', cscopePushMark c b offset = some (c', 0) ∧ Holds c' (⟨b, offset⟩ :: l) := by
  have hindex := h.index
  have hfull : ¬(cscopeStackSize : Int) ≤ c.index := by omega
  have hin : 0 ≤ c.index + 1 ∧ c.index + 1 < (cscopeStackSize : Int) := by omega
  have hnat : (c.index + 1).toNat = l.length := by omega
  refine ⟨_, by rw [cscopePushMark, if_neg hfull]; simp only [if_pos hin]; rfl, ?_, ?_, ?_⟩
  · simp only [List.length_cons]
    omega
  · rw [List.length_cons]
    omega
  · have hlen : l.length < c.stack.length := by rw [c.length_stack]; exact hroom
    simp only [hnat, List.length_cons, List.reverse_cons]
    rw [List.take_add_one, List.take_set_of_le (Nat.le_refl _), h.marks, List.getElem?_set_self hlen]
    rfl

/-- A full stack lets one more mark through, which is written behind the array. -/
theorem Holds.push_full {c : CscopeMarkStack} {l : List CscopeMark} (h : Holds c l) (hfull : l.length = cscopeStackSize)
    (b : BufferPtr) (offset : Int) : cscopePushMark c b offset = none := by
  have hindex := h.index
  have hlt : ¬(cscopeStackSize : Int) ≤ c.index := by omega
  have hout : ¬(0 ≤ c.index + 1 ∧ c.index + 1 < (cscopeStackSize : Int)) := by omega
  rw [cscopePushMark, if_neg hlt]
  simp only [if_neg hout]

theorem Holds.pop_nil {c : CscopeMarkStack} (h : Holds c []) : cscopePopMark c = some (c, none) := by
  have hindex := h.index
  rw [List.length_nil] at hindex
  rw [cscopePopMark, if_pos (by omega)]

theorem Holds.pop_cons {c : CscopeMarkStack} {m : CscopeMark} {l : List CscopeMark} (h : Holds c (m :: l)) :
    ∃ c', cscopePopMark c = some (c', some m) ∧ Holds c' l := by
  have hindex := h.index
  have hle := h.le
  have hmarks := h.marks
  rw [List.length_cons] at hindex hle hmarks
  have hnat : c.index.toNat = l.length := by omega
  have hlen : l.length < c.stack.length := by rw [c.length_stack]; omega
  rw [List.reverse_cons, List.take_add_one] at hmarks
  obtain ⟨htake, hget⟩ := List.append_inj' hmarks (by simp [hlen])
  have hm : c.stack[c.index.toNat]? = some m := by
    rw [hnat]
    cases hc : c.stack[l.length]? with
    | none =>
      rw [hc] at hget
      cases hget
    | some x =>
      rw [hc] at hget
      rw [(List.cons.inj hget).1]
  refine ⟨{ c with index := c.index - 1 }, by rw [cscopePopMark, if_neg (by omega), hm]; rfl, ?_, by omega, htake⟩
  simp only
  omega

/-! ## Coming back -/

/-- A mode that was saved leaves the window with the cursor of the mark: text mode where that is the cursor that was saved with it, a
list where the mode that is left does not reset the cursor, and dired, which resets it, at the beginning. -/
def LeavesAt (s : State) (m : CscopeMark) (d : ModeSavedData) : Prop :=
  match d.mode with
  | .text => d.offset = m.offset
  | .list => (s.views s.os).mode = .dired → m.offset = 0
  | .dired => m.offset = 0

/-- What `switch_to_buffer` finds of the buffer of the mark leaves the window with the cursor of the mark: what another window that
shows the buffer has, the window itself when no other shows it, or what the buffer has saved. -/
def ComesBack (s : State) (m : CscopeMark) : Prop :=
  match s.otherOn s.os m.b with
  | some w => LeavesAt s m (s.views w).save
  | none =>
    if (s.views s.os).b = m.b then (s.views s.os).mode = .dired → m.offset = 0
    else
      match s.savedData m.b with
      | some d => LeavesAt s m d
      | none => m.offset = 0

/-- The window shows the mark. -/
def ShowsMark (s : State) (m : CscopeMark) : Prop := (s.views s.os).b = m.b ∧ (s.views s.os).offset = m.offset

/-- The state in which `do_cscope_pop_mark` calls `switch_to_buffer`. -/
def State.aim (s : State) (cstack : CscopeMarkStack) (m : CscopeMark) : State :=
  { s with cstack := cstack }.setView s.os { s.views s.os with offset := m.offset }

theorem otherOn_aim (s : State) (cstack : CscopeMarkStack) (m : CscopeMark) (b : BufferPtr) :
    (s.aim cstack m).otherOn s.os b = s.otherOn s.os b := by
  unfold State.otherOn
  refine List.find?_congr ?_
  intro w _
  by_cases hw : w = s.os
  · simp [hw]
  · simp [State.aim, State.setView, hw]

/-- What is restored when the window goes to the buffer of the mark. -/
def State.comesTo (s : State) (m : CscopeMark) : Option ModeSavedData :=
  match s.otherOn s.os m.b with
  | some w => some (s.views w).save
  | none => if (s.views s.os).b = m.b then some ⟨(s.views s.os).mode, m.offset⟩ else s.savedData m.b

theorem saveShown_views (s : State) (e : WindowPtr) : (s.saveShown e).views = s.views ∧ (s.saveShown e).windows = s.windows := by
  unfold State.saveShown
  split <;> exact ⟨rfl, rfl⟩

theorem restoredData_aim (s : State) (cstack : CscopeMarkStack) (m : CscopeMark) :
    ((s.aim cstack m).saveShown s.os).restoredData s.os m.b = s.comesTo m := by
  obtain ⟨hviews, hwindows⟩ := saveShown_views (s.aim cstack m) s.os
  have hother : ((s.aim cstack m).saveShown s.os).otherOn s.os m.b = s.otherOn s.os m.b := by
    rw [← otherOn_aim s cstack m, State.otherOn, State.otherOn, hviews, hwindows]
  have hos : (s.aim cstack m).views s.os = { s.views s.os with offset := m.offset } := by simp [State.aim, State.setView]
  unfold State.restoredData State.comesTo
  rw [hother]
  cases hw : s.otherOn s.os m.b with
  | some w =>
    have hne : w ≠ s.os := by
      have := List.find?_some hw
      simp only [decide_eq_true_eq] at this
      exact this.1
    simp only [hviews]
    simp [State.aim, State.setView, hne]
  | none =>
    simp only
    unfold State.saveShown
    rw [otherOn_aim, hos]
    by_cases hb : (s.views s.os).b = m.b
    · rw [if_pos hb]
      simp [hb, hw, View.save]
    · rw [if_neg hb]
      split
      · rfl
      · simp [Function.update_of_ne (Ne.symm hb), State.aim, State.setView]

/-- What `switch_to_buffer` restores behind a pop. -/
theorem showsMark_iff (s : State) (cstack : CscopeMarkStack) (m : CscopeMark) :
    ShowsMark ((s.aim cstack m).switchToBuffer s.os m.b) m ↔ ComesBack s m := by
  have hos : ((s.aim cstack m).saveShown s.os).views s.os = { s.views s.os with offset := m.offset } := by
    rw [(saveShown_views _ _).1]
    simp [State.aim, State.setView]
  have hsame : ((s.aim cstack m).switchToBuffer s.os m.b).os = s.os := by
    unfold State.switchToBuffer State.saveShown
    simp only
    split <;> rfl
  have hview : ((s.aim cstack m).switchToBuffer s.os m.b).views s.os =
      View.setMode { View.closeMode { s.views s.os with offset := m.offset } with b := m.b }
        (((s.comesTo m).map (·.mode)).getD .text) (s.comesTo m) := by
    unfold State.switchToBuffer
    simp only [restoredData_aim, hos]
    simp [State.setView]
  -- the cursor that a mode that was saved leaves
  have hleaves : ∀ d : ModeSavedData,
      ((View.setMode { View.closeMode { s.views s.os with offset := m.offset } with b := m.b } d.mode (some d)).offset = m.offset ↔
        LeavesAt s m d) := by
    intro d
    unfold LeavesAt View.setMode
    cases d.mode with
    | text => rfl
    | list => cases hmode : (s.views s.os).mode <;> simp [View.closeMode, hmode, eq_comm]
    | dired => exact eq_comm
  have hb : ∀ d, (View.setMode { View.closeMode { s.views s.os with offset := m.offset } with b := m.b }
      ((d.map (·.mode)).getD .text) d).b = m.b := by
    intro d
    unfold View.setMode
    split <;> rfl
  unfold ShowsMark ComesBack
  rw [hsame, hview, and_iff_right (hb _)]
  unfold State.comesTo
  cases hw : s.otherOn s.os m.b with
  | some w => exact hleaves _
  | none =>
    by_cases hshown : (s.views s.os).b = m.b
    · simp only [if_pos hshown]
      refine (hleaves _).trans ?_
      unfold LeavesAt
      cases (s.views s.os).mode <;> simp
    · simp only [if_neg hshown]
      cases s.savedData m.b with
      | none => exact eq_comm
      | some d => exact hleaves d

/-! ## Runs -/

/-- The marks behind an event: a push is refused when there are as many as the stack has entries, a pop takes the last one. -/
def marksAfter (s : State) (l : List CscopeMark) : Event → List CscopeMark
  | .select .. => if l.length < cscopeStackSize then ⟨(s.views s.os).b, (s.views s.os).offset⟩ :: l else l
  | .pop => l.tail
  | .other .. => l

/-- The event does with the marks what it should. -/
structure StepRight (s : State) (l : List CscopeMark) (ev : Event) (s' : State) : Prop where
  bounds : -1 ≤ s'.cstack.index ∧ s'.cstack.index < cscopeStackSize
  marks : Holds s'.cstack (marksAfter s l ev)
  refused : (∃ b edited probed line bol, ev = .select b edited probed line bol) → l.length = cscopeStackSize →
    s'.cstack = s.cstack
  popped : ev = .pop → (cscopePopMark s.cstack).map Prod.snd = some l.head?
  shown : ev = .pop → ∀ m, l.head? = some m → ShowsMark s' m

/-- Every event of the run does what it should. -/
def RunRight : State → List CscopeMark → List Event → Prop
  | _, _, [] => True
  | s, l, ev :: evs => ∃ s', s.run ev = some s' ∧ StepRight s l ev s' ∧ RunRight s' (marksAfter s l ev) evs

/-- The state in which an event happens is one in which it does what it should: a push finds room, and the mark of a pop is where
`switch_to_buffer` comes back to. -/
def Meets (s : State) (l : List CscopeMark) : Event → Prop
  | .select .. => l.length < cscopeStackSize
  | .pop => ∀ m, l.head? = some m → ComesBack s m
  | .other .. => True

/-- Every event of the run happens in such a state. -/
def AllMeet : State → List CscopeMark → List Event → Prop
  | _, _, [] => True
  | s, l, ev :: evs => Meets s l ev ∧ ∀ s', s.run ev = some s' → AllMeet s' (marksAfter s l ev) evs

theorem Holds.bounds {c : CscopeMarkStack} {l : List CscopeMark} (h : Holds c l) : -1 ≤ c.index ∧ c.index < cscopeStackSize := by
  have h1 := h.index
  have h2 := h.le
  omega

theorem doLoadAtLine_cstack (s : State) (e : WindowPtr) (b : BufferPtr) (edited : Bool) (probed : Option ModeDef)
    (line bol : Int) : (s.doLoadAtLine e b edited probed line bol).cstack = s.cstack := by
  have hswitch : ∀ (s : State) (b : BufferPtr), (s.switchToBuffer e b).cstack = s.cstack := by
    intro s b
    unfold State.switchToBuffer State.saveShown
    simp only
    split <;> rfl
  have hload : (s.doLoad1 e b edited probed).cstack = s.cstack := by
    unfold State.doLoad1
    split
    · exact hswitch s b
    · cases probed <;> exact hswitch _ b
  unfold State.doLoadAtLine
  simp only
  split <;> exact hload

/-- An event does what it should exactly in a state in which it can. -/
theorem Holds.step_iff {s : State} {l : List CscopeMark} (h : Holds s.cstack l) (ev : Event) :
    (∃ s', s.run ev = some s' ∧ StepRight s l ev s') ↔ Meets s l ev := by
  cases ev with
  | select b edited probed line bol =>
    have hle := h.le
    unfold Meets
    constructor
    · rintro ⟨s', hrun, -⟩
      by_contra hfull
      rw [State.run, h.push_full (by omega)] at hrun
      cases hrun
    · intro hroom
      obtain ⟨c', hpush, hc'⟩ := h.push hroom (s.views s.os).b (s.views s.os).offset
      have hmarks : marksAfter s l (.select b edited probed line bol) = ⟨(s.views s.os).b, (s.views s.os).offset⟩ :: l :=
        if_pos hroom
      refine ⟨_, by rw [State.run, hpush]; rfl, ?_⟩
      refine ⟨?_, ?_, fun _ hfull => absurd hfull (by omega), fun e => (by cases e), fun e => (by cases e)⟩
      · simp only [doLoadAtLine_cstack]
        exact hc'.bounds
      · rw [hmarks]
        simp only [doLoadAtLine_cstack]
        exact hc'
  | pop =>
    unfold Meets
    cases l with
    | nil =>
      have hpop := h.pop_nil
      have hstep : StepRight s [] .pop s :=
        ⟨h.bounds, h, fun ⟨_, _, _, _, _, e⟩ => (by cases e), fun _ => by rw [hpop]; rfl, fun _ m hm => (by cases hm)⟩
      refine ⟨fun _ m hm => (by cases hm), fun _ => ⟨s, ?_, hstep⟩⟩
      rw [State.run, State.doCscopePopMark, hpop]
      rfl
    | cons m l =>
      obtain ⟨c', hpop, hc'⟩ := h.pop_cons
      have hrun : s.run .pop = some ((s.aim c' m).switchToBuffer s.os m.b) := by
        rw [State.run, State.doCscopePopMark, hpop]
        rfl
      have hstack : ((s.aim c' m).switchToBuffer s.os m.b).cstack = c' := by
        unfold State.switchToBuffer State.saveShown
        simp only
        split <;> rfl
      rw [List.head?_cons]
      constructor
      · rintro ⟨s', hs', hstep⟩ x hx
        obtain rfl := Option.some.inj hx
        obtain rfl := Option.some.inj (hrun.symm.trans hs')
        exact (showsMark_iff s c' m).1 (hstep.shown rfl m rfl)
      · intro hback
        refine ⟨_, hrun, ?_, ?_, fun ⟨_, _, _, _, _, e⟩ => (by cases e), fun _ => by rw [hpop]; rfl, ?_⟩
        · rw [hstack]
          exact hc'.bounds
        · rw [hstack]
          exact hc'
        · intro _ x hx
          obtain rfl := Option.some.inj hx
          exact (showsMark_iff s c' m).2 (hback m rfl)
  | other windows views savedData os =>
    refine ⟨fun _ => trivial, fun _ => ⟨_, rfl, h.bounds, h, fun ⟨_, _, _, _, _, e⟩ => (by cases e), ?_, ?_⟩⟩
    · exact fun e => (by cases e)
    · exact fun e => (by cases e)

/-- A window on a buffer, its cursor at the offset 10. -/
def oneWindow : State :=
  { windows := [0], views := fun _ => ⟨1, .text, 10⟩, savedData := fun _ => none, os := 0, cstack := .init }

end Cscope

end Hoe
