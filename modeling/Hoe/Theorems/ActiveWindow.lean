import Hoe.Lemmas.Focus

/-!
# The active window is in the list

The minibuffer and the popups remember a window by its address and go back to it when they are left, and nothing that closes a
window looks at what they remember. The active window is a window of the list, and no command follows a pointer to a closed one,
in every run that does not close a window that is remembered, or that the command itself still needs (`windows_live`).
-/

namespace Hoe

open Outcome

/-- The window is in the list, unless there is none. -/
def QeState.Listed (qe : QeState) (p : Option WindowPtr) : Prop := ∀ s, p = some s → s ∈ qe.ptrs

/-- What keeps the windows alive: the window of the command is there at each call. A list is not opened from a window that it
covers, the selection in a list has another window on its right, and what is remembered is in the list: the window under a popup
that is left, the completion popup, the window of cscope, and the window under the minibuffer when this is left. -/
def windowGuard : Guard where
  call c s qe := s ∈ qe.ptrs ∧
    match c with
    | .listBuffers items | .dired _ items => 0 < items → ∀ w ∈ qe.windows, w.ptr = s → w.minibuf = true ∨ qe.width.tdiv 4 < w.x2
    | .bufedSelect _ | .diredSelect _ .regular =>
      ∀ w ∈ qe.windows, w.ptr = s → ∀ e, findWindowRight qe.toQEmacsState w = some e → e.ptr ≠ s
    | .lessQuit => ∃ w ∈ qe.ptrs, qe.popupSavedActive = some w ∧ ∃ t ∈ qe.ptrs, t ≠ s
    | .completion _ _ | .history _ => qe.Listed qe.completionPopupWindow
    | .cscopeSelect _ _ | .cscopePopMark => qe.Listed qe.cscopeWindow
    | _ => True
  exit s qe := s ∈ qe.ptrs ∧ qe.Listed qe.completionPopupWindow ∧ qe.completionPopupWindow ≠ some s ∧
    ∃ w ∈ qe.ptrs, qe.minibufferSavedActive = some w ∧ w ≠ s ∧ qe.completionPopupWindow ≠ some w
  reply abort cb qe :=
    match cb with
    | .insertRectangle s => s ∈ qe.ptrs
    | .saveEdit s _ _ => abort = false → s ∈ qe.ptrs
    | .cscope _ _ _ => abort = false → qe.Listed qe.cscopeWindow
    | _ => True
  preview _ _ := True

/-- The active window of a state is in its list. -/
def QeState.Live (qe : QeState) : Prop := qe.toQEmacsState.Focused

namespace QeState

variable {qe : QeState} {s : WindowPtr}

/-! ## Buffers leave the windows where they are -/

/-- A step that only the windows take part in. -/
theorem Live.onWindows (h : qe.Live) {f : QEmacsState → Except Fault QEmacsState}
    (hf : qe.toQEmacsState.Focused → Ends QEmacsState.Focused NotFreed (f qe.toQEmacsState)) : Ends Live NotFreed (qe.onWindows f) :=
  (hf h).map fun _ _ hqs => hqs

/-- Which buffer a window shows does not touch the list of windows. -/
theorem ptrs_switchToBuffer (qe : QeState) (s : WindowPtr) (b : BufferPtr) : (qe.switchToBuffer s b).ptrs = qe.ptrs :=
  ptrs_update qe.toQEmacsState s fun _ => rfl

/-- Nor does it touch what is remembered. -/
theorem Live.switchToBuffer (h : qe.Live) (s : WindowPtr) (b : BufferPtr) : (qe.switchToBuffer s b).Live :=
  QEmacsState.Focused.update h s fun _ => rfl

/-- A killed buffer closes no window. -/
theorem ptrs_killBufferNoconfirm (qe : QeState) (b : BufferPtr) : (qe.killBufferNoconfirm b).ptrs = qe.ptrs := by
  rw [killBufferNoconfirm]
  refine (ptrs_doRefresh _).trans ?_
  rw [QEmacsState.ptrs, List.map_map, QEmacsState.ptrs]
  refine List.map_congr_left fun e _ => ?_
  rw [Function.comp_apply]
  split_ifs <;> rfl

/-- The windows of a killed buffer show another one. -/
theorem Live.killBufferNoconfirm (h : qe.Live) (b : BufferPtr) : (qe.killBufferNoconfirm b).Live :=
  QEmacsState.Focused.of_ptrs h (ptrs_killBufferNoconfirm qe b) (nextPtr_doRefresh _) (activeWindow_doRefresh _)

/-! ## The minibuffer and the popups -/

/-- Without a reply only the window of the rectangle is followed. -/
theorem Live.abort (h : qe.Live) {cb : MinibufferCb} (hcb : ∀ t, cb = .insertRectangle t → t ∈ qe.ptrs) :
    Ends Live NotFreed (qe.abort cb) := by
  cases cb with
  | insertRectangle t => exact ends_deref (hcb t rfl) fun _ _ _ _ => notFreed_null
  | _ => exact h

/-- Opening the minibuffer closes no window. -/
theorem Live.minibufferEdit (h : qe.Live) {cb : MinibufferCb} (hcb : ∀ t, cb = .insertRectangle t → t ∈ qe.ptrs) :
    Ends (fun qe' => qe'.Live ∧ ∀ t ∈ qe.ptrs, t ∈ qe'.ptrs) NotFreed (qe.minibufferEdit cb) := by
  rw [QeState.minibufferEdit]
  split_ifs
  · cases cb with
    | insertRectangle t => exact ends_deref (hcb t rfl) fun _ _ _ _ => notFreed_null
    | _ => exact ⟨h, fun _ ht => ht⟩
  · have hnew := QEmacsState.Settled.editNew h.settled qe.nextBuffer 0 (qe.screen.height - qe.statusHeight) qe.screen.width
      qe.statusHeight {}
    have hmini := hnew.update qe.nextPtr (f := fun e => { e with minibuf := true }) fun _ => rfl
    have hptrs := ptrs_update (editNew qe.toQEmacsState qe.nextBuffer 0 (qe.screen.height - qe.statusHeight) qe.screen.width
      qe.statusHeight {}) qe.nextPtr (f := fun e => { e with minibuf := true }) fun _ => rfl
    rw [ptrs_editNew] at hptrs
    refine ⟨hmini.ok.focus ?_, ?_⟩
    · rw [hptrs]
      exact List.mem_cons_self
    · intro t ht
      refine hptrs.symm ▸ List.mem_cons_of_mem _ ht

/-- A popup is a new window, which becomes active. -/
theorem Live.showPopup (h : qe.Live) (b : BufferPtr) : (qe.showPopup b).Live := by
  have hnew := QEmacsState.Settled.editNew h.settled b
  rw [QeState.showPopup, editNewPopup]
  refine QEmacsState.Focused.doRefresh ((hnew ..).ok.focus ?_)
  exact List.mem_cons_self

/-- The help is shown in a window of the list. -/
theorem Live.showHelp (h : qe.Live) : qe.showHelp.Live := by
  have hprinted : ∀ l, QeState.Live { qe with toBufferList := l } := fun _ => h
  rw [QeState.showHelp]
  cases (newHelpBuffer qe.toBufferList).2.2 with
  | false => exact hprinted _
  | true => exact (hprinted _).showPopup _

/-- The active window after a popup is left is the one it remembers, or another one of the list. -/
theorem Live.lessQuit (h : qe.Live) (hs : s ∈ qe.ptrs) {w : WindowPtr} (hw : w ∈ qe.ptrs) (hsaved : qe.popupSavedActive = some w)
    {t : WindowPtr} (ht : t ∈ qe.ptrs) (hts : t ≠ s) : Ends Live NotFreed (qe.lessQuit s) := by
  refine ends_deref hs fun _ _ _ _ => ?_
  have hfocus := QEmacsState.Ok.focus (QEmacsState.Focused.ok h) hw
  rw [← hsaved] at hfocus
  obtain ⟨qs', hclose, hsettled, herase⟩ := hfocus.settled.editClose hs
  rw [hclose]
  refine hsettled.focused (s := t) ?_
  rw [herase]
  exact (List.mem_erase_of_ne hts).2 ht

/-- The completion popup and the minibuffer are closed, and the window that was active before is so again. -/
theorem Live.closeMinibuffer (h : qe.Live) (hguard : windowGuard.exit s qe) : Ends Live NotFreed (qe.closeMinibuffer s) := by
  obtain ⟨hs, hpopup, hne, w, hw, hsaved, hws, hwp⟩ := hguard
  refine ends_deref hs fun _ _ _ _ => ?_
  have hclosed : Ends (fun qe' => qe'.Live ∧ s ∈ qe'.ptrs ∧ w ∈ qe'.ptrs ∧ qe'.minibufferSavedActive = some w) NotFreed
      qe.closeCompletion := by
    rw [closeCompletion]
    cases hp : qe.completionPopupWindow with
    | none => exact ⟨h, hs, hw, hsaved⟩
    | some p =>
      rw [hp, Ne, Option.some.injEq] at hne hwp
      refine ends_deref (hpopup p hp) fun _ _ _ _ => ?_
      obtain ⟨qs', hclose, hsettled, herase⟩ := QEmacsState.Settled.editClose h.settled (hpopup p hp)
      have hkept : ∀ t ∈ qe.ptrs, ¬p = t → t ∈ qs'.ptrs := by
        intro t ht hpt
        rw [herase]
        exact (List.mem_erase_of_ne (Ne.symm hpt)).2 ht
      rw [hclose]
      refine ⟨(hsettled.focused (hkept s hs hne)).doRefresh, ?_, ?_, hsaved⟩
      · refine (ptrs_doRefresh qs').symm ▸ hkept s hs hne
      · refine (ptrs_doRefresh qs').symm ▸ hkept w hw hwp
  refine hclosed.bind fun qe' _ hqe' => ?_
  obtain ⟨hlive, hs', hw', hsaved'⟩ := hqe'
  obtain ⟨qs', hclose, hsettled, herase⟩ := QEmacsState.Settled.editClose hlive.settled hs'
  rw [hclose]
  have hin : w ∈ qs'.ptrs := by
    rw [herase]
    exact (List.mem_erase_of_ne hws).2 hw'
  have hfocus := hsettled.ok.focus hin
  rw [← hsaved'] at hfocus
  exact hfocus

/-! ## The other commands -/

/-- A change of a buffer touches no window. -/
theorem Live.changed (h : qe.Live) (change : Bool) (b : BufferPtr) : (qe.changed change b).Live ∧ (qe.changed change b).ptrs = qe.ptrs := by
  cases change with
  | false => exact ⟨h, rfl⟩
  | true => exact ⟨h, rfl⟩

/-- The matches are listed in the completion popup, if it is open. -/
theorem Live.listMatches (h : qe.Live) (hpopup : qe.Listed qe.completionPopupWindow) : Ends Live NotFreed qe.listMatches := by
  rw [QeState.listMatches]
  cases hp : qe.completionPopupWindow with
  | none => exact h
  | some p => exact (ends_followed (hpopup p hp)).map fun _ _ _ => h

/-- The popup of the completion is opened at most. -/
theorem Live.doCompletion (h : qe.Live) (hs : s ∈ qe.ptrs) (hpopup : qe.Listed qe.completionPopupWindow) (count : Nat) (longer : Bool) :
    Ends Live NotFreed (qe.doCompletion s count longer) := by
  refine ends_deref hs fun w _ _ _ => ?_
  have hopen : qe.openCompletion.Live := QEmacsState.Focused.doRefresh (QEmacsState.Settled.editNew h.settled ..)
  have hin : qe.openCompletion.Listed (some qe.nextPtr) := by
    intro t ht
    obtain rfl := Option.some.inj ht
    exact (ptrs_doRefresh _).symm ▸ List.mem_cons_self
  split_ifs
  · exact h
  · exact h
  · rw [withCompletion]
    split_ifs
    · exact hopen.listMatches hin
    · exact h.listMatches hpopup

/-- Another entry of the history is shown, or the popup moves. -/
theorem Live.doHistory (h : qe.Live) (hs : s ∈ qe.ptrs) (hpopup : qe.Listed qe.completionPopupWindow) (change : Bool) :
    Ends Live NotFreed (qe.doHistory s change) := by
  refine ends_deref hs fun w _ _ _ => ?_
  cases hp : qe.completionPopupWindow with
  | none => exact (h.changed change w.b).1
  | some p => exact (ends_followed (hpopup p hp)).map fun _ _ _ => h

/-- A change is undone in the buffer of a window. -/
theorem Live.doUndo (h : qe.Live) (hs : s ∈ qe.ptrs) (played : Option Bool) :
    Ends (fun qe' => qe'.Live ∧ qe'.ptrs = qe.ptrs) NotFreed (qe.doUndo s played) := by
  refine ends_deref hs fun w _ _ _ => ?_
  cases qe.log w.b with
  | none => exact ⟨h, rfl⟩
  | some _ =>
    cases played with
    | none => exact ⟨h, rfl⟩
    | some modified => exact h.changed true w.b

/-- No window is closed, though the kill ring changes. -/
theorem Live.doKillRegion (h : qe.Live) (hs : s ∈ qe.ptrs) (kill : Bool) (len : Nat) (inside : Bool) :
    Ends Live NotFreed (qe.doKillRegion s kill len inside) := by
  refine ends_deref hs fun w _ _ _ => ?_
  split_ifs
  · exact h
  · have hyank : qe.newYankBuffer.Live := h
    exact ((hyank.changed _ _).1.changed _ _).1

/-- A yank buffer is inserted. -/
theorem Live.doYank (h : qe.Live) (hs : s ∈ qe.ptrs) (size : Nat) : Ends Live NotFreed (qe.doYank s size) :=
  ends_deref hs fun _ _ _ _ => (h.changed _ _).1

/-- A window goes to a buffer by its name. -/
theorem Live.doSwitchToBuffer (h : qe.Live) (hs : s ∈ qe.ptrs) (name : String) : Ends Live NotFreed (qe.doSwitchToBuffer s name) := by
  refine ends_deref hs fun _ _ _ _ => ?_
  cases qe.ebFind name with
  | none => exact Live.switchToBuffer h s _
  | some b => exact Live.switchToBuffer h s _

/-- The buffer is killed at once, or after a question in the minibuffer. -/
theorem Live.doKillBuffer (h : qe.Live) (name : String) (yes : Bool) :
    Ends (fun qe' => qe'.Live ∧ ∀ t ∈ qe.ptrs, t ∈ qe'.ptrs) NotFreed (qe.doKillBuffer name yes) := by
  rw [QeState.doKillBuffer]
  cases qe.ebFind name with
  | none => exact ⟨h, fun _ ht => ht⟩
  | some b =>
    dsimp only
    split_ifs
    · exact h.minibufferEdit fun _ hcb => by cases hcb
    · exact ⟨h.killBufferNoconfirm b.ptr, fun t ht => (ptrs_killBufferNoconfirm qe b.ptr).symm ▸ ht⟩

/-- The window shows the buffer of the file, which may be a new one. -/
theorem Live.doLoad (h : qe.Live) (hs : s ∈ qe.ptrs) (filename : String) (type : FileType) :
    Ends (fun qe' => qe'.Live ∧ qe'.ptrs = qe.ptrs) NotFreed (qe.doLoad s filename type) := by
  refine ends_deref hs fun _ _ _ _ => ?_
  have hswitched : ∀ b, (qe.switchToBuffer s b).Live ∧ (qe.switchToBuffer s b).ptrs = qe.ptrs :=
    fun b => ⟨h.switchToBuffer s b, ptrs_switchToBuffer qe s b⟩
  cases qe.ebFindFile filename with
  | some b => exact hswitched b.ptr
  | none =>
    cases type with
    | directory changed => exact hswitched qe.nextBuffer
    | missing => exact hswitched qe.nextBuffer
    | regular => exact hswitched qe.nextBuffer

/-- Saving touches no window. -/
theorem Live.saveFinal (h : qe.Live) (b : BufferPtr) (written : Bool) : (qe.saveFinal b written).Live := by
  cases written with
  | false => exact h
  | true => exact h

/-- The file of a window is saved. -/
theorem Live.doSave (h : qe.Live) (hs : s ∈ qe.ptrs) (saveAs : Bool) (reply : String) (written : Bool) :
    Ends Live NotFreed (qe.doSave s saveAs reply written) := by
  refine ends_deref hs fun w _ _ _ => ?_
  cases qe.entry w.b with
  | none => exact h
  | some b =>
    dsimp only
    split_ifs
    · exact h
    · exact (h.minibufferEdit fun _ hcb => by cases hcb).left
    · exact Live.saveFinal h w.b written

/-- The window of a list takes the place of windows on the left, but not that of the command. -/
theorem Live.openListWindow (h : qe.Live) {items : Nat}
    (hs : 0 < items → ∀ w ∈ qe.windows, w.ptr = s → w.minibuf = true ∨ qe.width.tdiv 4 < w.x2) (hmem : s ∈ qe.ptrs) (b : BufferPtr) :
    Ends Live NotFreed (qe.openListWindow s b items) := by
  refine (ends_insertWindowLeft h b (qe.width.tdiv 4) { modeline := true }).bind fun qs _ hqs => ?_
  obtain ⟨hfocused, hnew, hkept⟩ := hqs
  have hopened : ∀ o : Option EditState, Ends Live NotFreed
      (Except.ok { qe with toQEmacsState := { qs with activeWindow := some qe.nextPtr } } : Except Fault QeState) :=
    fun _ => hfocused.ok.focus hnew
  by_cases hitems : 0 < items
  · obtain ⟨w, hw, hptr⟩ := List.mem_map.1 hmem
    have hin : s ∈ qs.ptrs := hptr ▸ hkept w hw (hs hitems w hw hptr)
    rw [if_pos hitems]
    exact ((ends_followed hin).map (Q := fun _ => True) fun _ _ _ => trivial).bind fun o _ _ => hopened o
  · rw [if_neg hitems]
    exact hopened none

/-- The window of a list is deleted, whatever it is. -/
theorem ends_deleted (h : qe.Live) (hs : s ∈ qe.ptrs) :
    Ends (fun qe' => qe'.Live ∧ ∀ t ∈ qe.ptrs, t ≠ s → t ∈ qe'.ptrs) NotFreed (qe.onWindows (doDeleteWindow · s true)) :=
  (ends_doDeleteWindow h hs true).map fun _ _ hqs => hqs

/-- The selected buffer is shown in the window on the right, and the list is closed. -/
theorem Live.bufedSelect (h : qe.Live) (hs : s ∈ qe.ptrs)
    (hright : ∀ w ∈ qe.windows, w.ptr = s → ∀ e, findWindowRight qe.toQEmacsState w = some e → e.ptr ≠ s) (name : String) :
    Ends Live NotFreed (qe.bufedSelect s name) := by
  refine ends_deref hs fun w _ hw hptr => ?_
  cases qe.ebFind name with
  | none => exact h
  | some b =>
    cases hfind : findWindowRight qe.toQEmacsState w with
    | none => exact h
    | some e =>
      refine (ends_deleted h hs).bind fun qe' _ hqe' => ?_
      obtain ⟨hlive, hkept⟩ := hqe'
      have he := hkept e.ptr (List.mem_map_of_mem (List.mem_of_find?_eq_some hfind)) (hright w hw hptr e hfind)
      exact ends_deref he fun _ _ _ _ => Live.switchToBuffer hlive e.ptr b.ptr

/-- So is the selected file. -/
theorem Live.diredSelect (h : qe.Live) (hs : s ∈ qe.ptrs) {filename : String} {type : FileType}
    (hright : type = .regular → ∀ w ∈ qe.windows, w.ptr = s → ∀ e, findWindowRight qe.toQEmacsState w = some e → e.ptr ≠ s) :
    Ends Live NotFreed (qe.diredSelect s filename type) := by
  refine ends_deref hs fun w _ hw hptr => ?_
  cases type with
  | missing => exact h
  | directory changed => exact h
  | regular =>
    cases hfind : findWindowRight qe.toQEmacsState w with
    | none => exact (h.doLoad hs filename .regular).left
    | some e =>
      refine (ends_deleted h hs).bind fun qe' _ hqe' => ?_
      obtain ⟨hlive, hkept⟩ := hqe'
      have he := hkept e.ptr (List.mem_map_of_mem (List.mem_of_find?_eq_some hfind)) (hright rfl w hw hptr e hfind)
      exact ends_deref he fun _ _ _ _ => hlive

/-- All buffers of the selection are killed. -/
theorem ends_killBuffers (h : qe.Live) (yes : Bool) (names : List String) :
    Ends (fun qe' => qe'.Live ∧ ∀ t ∈ qe.ptrs, t ∈ qe'.ptrs) NotFreed (killBuffers yes names qe) := by
  induction names generalizing qe with
  | nil => exact ⟨h, fun _ ht => ht⟩
  | cons name names ih =>
    refine (h.doKillBuffer name yes).bind fun qe' _ hqe' => ?_
    obtain ⟨hlive, hkept⟩ := hqe'
    exact (ih hlive).mono (fun qe'' hqe'' => ⟨hqe''.1, fun t ht => hqe''.2 t (hkept t ht)⟩) fun _ hf => hf

/-- The buffers that are selected in the list are killed. -/
theorem Live.bufedKillBuffer (h : qe.Live) (hs : s ∈ qe.ptrs) (names : List String) (yes : Bool) :
    Ends Live NotFreed (qe.bufedKillBuffer s names yes) := by
  refine ends_deref hs fun _ _ _ _ => ?_
  refine (ends_killBuffers h yes names).bind fun qe' _ hqe' => ?_
  exact ends_deref (hqe'.2 s hs) fun _ _ _ _ => hqe'.1

/-- The file that the cursor is on is shown beside the directory. -/
theorem Live.openNewFile (h : qe.Live) (hs : s ∈ qe.ptrs) (filename : String) (type : FileType) :
    Ends Live NotFreed (qe.openNewFile s filename type) := by
  refine ends_deref hs fun w _ _ _ => ?_
  cases hfind : findWindowRight qe.toQEmacsState w with
  | none => exact h
  | some e =>
    have he : e.ptr ∈ qe.ptrs := List.mem_map_of_mem (List.mem_of_find?_eq_some hfind)
    have hclosed : QeState.Live { qe with toBufferList := qe.closePreview s e } := h
    refine (hclosed.doLoad he filename type).bind fun qe' _ hqe' => ?_
    exact ends_deref (hqe'.2.symm ▸ he) fun _ _ _ _ => hqe'.1

/-- The window of cscope is followed where it is in the list. -/
theorem ends_cscopeOs {β : Type} {Q : β → Prop} {f : EditState → Except Fault β} (hos : qe.Listed qe.cscopeWindow)
    (hf : ∀ w ∈ qe.windows, Ends Q NotFreed (f w)) : Ends Q NotFreed (qe.cscopeOs.bind f) := by
  rw [cscopeOs]
  cases hc : qe.cscopeWindow with
  | none => exact notFreed_null
  | some t => exact ends_deref (hos t hc) fun w _ hw _ => hf w hw

/-- A mark remembers no window. -/
theorem Live.cscopePushMark (h : qe.Live) (b : BufferPtr) : (qe.cscopePushMark b).Live ∧ (qe.cscopePushMark b).ptrs = qe.ptrs := by
  rw [QeState.cscopePushMark]
  split_ifs
  · exact ⟨h, rfl⟩
  · exact ⟨h, rfl⟩

/-- The file of a mark is loaded into a window of the list. -/
theorem Live.loadMarked (h : qe.Live) {w : EditState} (hw : w ∈ qe.windows) (filename : String) (type : FileType) :
    Ends Live NotFreed ((qe.cscopePushMark w.b).doLoad w.ptr filename type) := by
  obtain ⟨hlive, hptrs⟩ := h.cscopePushMark w.b
  exact (hlive.doLoad (hptrs.symm ▸ List.mem_map_of_mem hw) filename type).left

/-- The result of a query is shown in the window of cscope. -/
theorem Live.cscopeShow (h : qe.Live) (b : BufferPtr) (w : EditState) : (qe.cscopeShow b w).Live := by
  have hnew := QEmacsState.Settled.editNew h.settled b
  have hptr : ∀ e : EditState, ({ e with y2 := (w.y2 + w.y1).tdiv 2 } : EditState).ptr = e.ptr := fun _ => rfl
  refine QEmacsState.Focused.doRefresh (QEmacsState.Ok.focus ((hnew ..).update w.ptr hptr).ok ?_)
  rw [ptrs_update _ _ hptr]
  exact List.mem_cons_self

/-- The window of cscope is in the list where it is followed. -/
theorem Live.cscopeQueryAndShow (h : qe.Live) (hos : qe.Listed qe.cscopeWindow) (entries : Nat) (filename : String) (type : FileType) :
    Ends Live NotFreed (qe.cscopeQueryAndShow entries filename type) := by
  refine ends_cscopeOs hos fun w hw => ?_
  obtain ⟨l, hl⟩ : ∃ l, l = (cscopeBuffer qe.toBufferList).1.ebAddlog (cscopeBuffer qe.toBufferList).2 := ⟨_, rfl⟩
  have hasked : QeState.Live { qe with toBufferList := l } := h
  split_ifs
  · have hshow := hasked.cscopeShow (cscopeBuffer qe.toBufferList).2 w
    rw [hl] at hshow
    exact hshow
  · have hload := hasked.loadMarked hw filename type
    rw [hl] at hload
    exact hload

/-- A result is visited in the window of cscope. -/
theorem Live.cscopeSelectFile (h : qe.Live) (hs : s ∈ qe.ptrs) (hos : qe.Listed qe.cscopeWindow) (filename : String) (type : FileType) :
    Ends Live NotFreed (qe.cscopeSelectFile s filename type) := by
  refine ends_deref hs fun _ _ _ _ => ?_
  exact ends_cscopeOs hos fun w hw => h.loadMarked hw filename type

/-- A mark is taken back there. -/
theorem Live.doCscopePopMark (h : qe.Live) (hos : qe.Listed qe.cscopeWindow) : Ends Live NotFreed qe.doCscopePopMark := by
  rw [QeState.doCscopePopMark]
  cases qe.marks with
  | nil => exact h
  | cons b marks =>
    have hpopped : QeState.Live { qe with marks := marks } := h
    exact ends_cscopeOs hos fun w _ => hpopped.switchToBuffer w.ptr b

/-- A shell is opened in a window. -/
theorem Live.doShell (h : qe.Live) (hs : s ∈ qe.ptrs) (launched : Bool) : Ends Live NotFreed (qe.doShell s launched) := by
  refine ends_deref hs fun _ _ _ _ => ?_
  cases launched with
  | false => exact h
  | true => exact Live.switchToBuffer h s _

/-- The compilation is shown in a window. -/
theorem Live.doCompile (h : qe.Live) (hs : s ∈ qe.ptrs) (launched : Bool) : Ends Live NotFreed (qe.doCompile s launched) := by
  refine ends_deref hs fun _ _ _ _ => ?_
  have hkilled : Ends Live NotFreed qe.killCompilation := by
    rw [killCompilation]
    cases qe.ebFind "*compilation*" with
    | none => exact h
    | some b =>
      have hclean : ∀ f, (qe.onBuffers f).Live := fun _ => h
      exact ((hclean _).doKillBuffer "*compilation*" false).left
  refine hkilled.bind fun qe' _ hlive => ?_
  cases launched with
  | false => exact hlive
  | true => exact Live.switchToBuffer hlive s _

end QeState

/-! ## Runs -/

open QeState in
/-- A call that is let through leaves the active window in the list. -/
theorem windowGuard_call {c : UserCommand} {s : WindowPtr} {qe : QeState} (h : qe.Live) (hguard : windowGuard.call c s qe) :
    Ends Live NotFreed (c.call s qe) := by
  obtain ⟨hs, hc⟩ := hguard
  have hlist : ∀ items, (0 < items → ∀ w ∈ qe.windows, w.ptr = s → w.minibuf = true ∨ qe.width.tdiv 4 < w.x2) →
      ∀ (l : BufferList) b, Ends Live NotFreed (QeState.openListWindow { qe with toBufferList := l } s b items) :=
    fun items hright l b =>
      have hnew : QeState.Live { qe with toBufferList := l } := h
      hnew.openListWindow hright hs b
  cases c with
  | splitWindow horiz => exact h.onWindows (f := fun qs => doSplitWindow qs s horiz) fun hq => ends_doSplitWindow hq hs horiz
  | otherWindow => exact h.onWindows (f := fun qs => doOtherWindow qs s) fun hq => ends_doOtherWindow hq hs
  | deleteWindow => exact h.onWindows (f := fun qs => doDeleteWindow qs s false) fun hq =>
      (ends_doDeleteWindow hq hs false).left
  | deleteOtherWindows => exact h.onWindows (f := fun qs => doDeleteOtherWindows qs s) fun hq => ends_doDeleteOtherWindows hq hs
  | listBuffers items => exact ends_deref hs fun _ _ _ _ => hlist items hc _ _
  | dired directory items => exact ends_deref hs fun _ _ _ _ => hlist items hc _ _
  | bufedSelect name => exact h.bufedSelect hs hc name
  | bufedKillBuffer names yes => exact h.bufedKillBuffer hs names yes
  | diredSelect filename type =>
    refine h.diredSelect hs ?_
    rintro rfl
    exact hc
  | describeBindings =>
    refine ends_deref hs fun _ _ _ _ => ?_
    have hshown : ∀ new : Bool, Live (if new then qe.showHelp.onBuffers (·.ebFree (newHelpBuffer qe.toBufferList).2.1) else qe.showHelp) := by
      intro new
      cases new with
      | false => exact h.showHelp
      | true => exact h.showHelp
    exact hshown _
  | helpForHelp => exact h.showHelp
  | lessQuit =>
    obtain ⟨w, hw, hsaved, t, ht, hts⟩ := hc
    exact h.lessQuit hs hw hsaved ht hts
  | completion count longer => exact h.doCompletion hs hc count longer
  | history change => exact h.doHistory hs hc change
  | edit => exact ends_deref hs fun _ _ _ _ => (h.changed _ _).1
  | undo played => exact (h.doUndo hs played).left
  | killRegion kill len inside => exact h.doKillRegion hs kill len inside
  | yank size => exact h.doYank hs size
  | yankPop played size =>
    refine (h.doUndo hs played).bind fun qe' _ hqe' => ?_
    obtain ⟨hlive, hptrs⟩ := hqe'
    have hcurrent : ∀ i, QeState.Live { qe' with yankCurrent := i } := fun _ => hlive
    exact (hcurrent _).doYank (hptrs.symm ▸ hs) size
  | toggleReadOnly => exact ends_deref hs fun _ _ _ _ => h
  | switchToBuffer name => exact h.doSwitchToBuffer hs name
  | killBuffer name yes => exact (h.doKillBuffer name yes).left
  | load filename type => exact (h.doLoad hs filename type).left
  | findAlternateFile filename type yes =>
    refine ends_deref hs fun w _ _ _ => (h.doKillBuffer _ yes).bind fun qe' _ hqe' => ?_
    obtain ⟨hlive, hkept⟩ := hqe'
    exact (hlive.doLoad (hkept s hs) filename type).left
  | save saveAs reply written => exact h.doSave hs saveAs reply written
  | insertRectangle =>
    refine (h.minibufferEdit ?_).left
    intro t ht
    cases ht
    exact hs
  | ask => exact (h.minibufferEdit fun _ hcb => by cases hcb).left
  | cscopeOperation entries filename type =>
    have hos : QeState.Live { qe with cscopeWindow := some s } := h
    exact (hos.minibufferEdit fun _ hcb => by cases hcb).left
  | cscopeSelect filename type => exact h.cscopeSelectFile hs hc filename type
  | cscopePopMark => exact h.doCscopePopMark hc
  | shell launched => exact h.doShell hs launched
  | compile launched => exact h.doCompile hs launched

/-- What the guard lets through keeps the active window in the list and follows no pointer to a closed window. -/
theorem windowGuard_keeps : windowGuard.Keeps QeState.Live NotFreed where
  null := notFreed_null
  followed _ _ _ _ hguard := ends_followed hguard.1
  exited _ _ _ hguard := ends_followed hguard.1
  active qe h := by
    obtain ⟨s, hs, hact⟩ := h.active
    rw [QeState.active, hact]
    exact (ends_followed hs).map fun _ _ _ => trivial
  call _ _ _ h hguard := windowGuard_call h hguard
  exit _ _ h hguard := h.closeMinibuffer hguard
  reply cb qe h hexec hguard := by
    cases cb with
    | exec es => exact absurd rfl (hexec es)
    | killBuffer b yes =>
      cases yes with
      | false => exact h
      | true => exact h.killBufferNoconfirm b
    | saveEdit s filename written =>
      have hnamed : ∀ f, (qe.onBuffers f).Live := fun _ => h
      exact ends_deref (hguard rfl) fun w _ _ _ => (hnamed _).saveFinal w.b written
    | insertRectangle s => exact ends_deref hguard fun _ _ _ _ => h
    | cscope entries filename type => exact h.cscopeQueryAndShow (hguard rfl) entries filename type
    | other => exact h
  abort cb qe h hexec hguard := by
    refine h.abort fun t ht => ?_
    rw [ht] at hguard
    exact hguard
  ask es qe h := (h.minibufferEdit fun _ hcb => by cases hcb).left
  click qe w h hw := h.ok.focus (List.mem_map_of_mem hw)
  resize screen qe h := QEmacsState.Focused.doRefresh ⟨⟨h.ok.nodup, h.ok.fresh⟩, h.active⟩
  preview w qe filename type h hw _ := h.openNewFile (List.mem_map_of_mem hw) filename type

/-- The first window is active. -/
theorem start_live (screen : QEditScreen) (hideStatus : Bool) : (QeState.start screen hideStatus).Live := by
  refine ⟨startup_ok screen hideStatus, 0, ?_, ?_⟩
  · refine (ptrs_doRefresh _).symm ▸ List.mem_cons_self
  · exact activeWindow_doRefresh _

/-- The active window is in the list. -/
def QeState.ActiveListed (qe : QeState) : Prop := ∃ s ∈ qe.ptrs, qe.activeWindow = some s

/-- In a run whose steps close no window that is remembered, or that the command still needs, the active window is in the list
after every beginning of the run, and no pointer to a closed window is followed. -/
theorem windows_live (screen : QEditScreen) (hideStatus : Bool) {evs : List UserEvent}
    (h : windowGuard.Run (QeState.start screen hideStatus) evs) :
    ∀ pre, pre <+: evs → Ends QeState.ActiveListed NotFreed (runEvents (QeState.start screen hideStatus) pre) :=
  fun _ hpre => (windowGuard_keeps.run (start_live screen hideStatus) (h.initial hpre)).mono (fun _ hqe => hqe.active) fun _ hf => hf

/-- A terminal of 80 columns and 25 lines. -/
def terminal80 : QEditScreen := { width := 80, height := 25, tty := true, statusLineHeight := 1, modeLineHeight := 1 }

/-- A window is split, a prompt is left without a reply, and one of the two windows is deleted. -/
theorem windows_live_closed : Ends QeState.ActiveListed NotFreed
    (runEvents (QeState.start terminal80 false) [.key 0 (.splitWindow true) 1, .key 1 .edit 1, .exit true 1, .key 0 .deleteWindow 1]) := by
  refine windows_live terminal80 false ?_ _ (List.prefix_refl _)
  refine ⟨?_, fun qe₁ h₁ => ⟨fun _ _ hp => absurd hp (by decide), fun qe₂ h₂ => ⟨?_, fun qe₃ h₃ => ⟨?_, fun _ _ => trivial⟩⟩⟩⟩
  · intro s hs _
    obtain rfl := Option.some.inj hs
    exact ⟨⟨by decide, trivial⟩, fun _ _ => trivial⟩
  · obtain rfl := Except.ok.inj h₁
    obtain rfl := Except.ok.inj h₂
    intro s hs
    obtain rfl := Option.some.inj hs
    refine ⟨⟨by decide, nofun, nofun, 0, by decide, rfl, by decide, nofun⟩, ?_, fun _ _ => trivial⟩
    intro after cb _ hcb
    obtain rfl := Option.some.inj hcb
    exact fun h => nomatch h
  · have hrun : runEvents (QeState.start terminal80 false) [.key 0 (.splitWindow true) 1, .key 1 .edit 1, .exit true 1] = .ok qe₃ := by
      rw [runEvents, h₁, Except.bind, runEvents, h₂, Except.bind, runEvents, h₃, Except.bind, runEvents]
    have hleft : (runEvents (QeState.start terminal80 false) [.key 0 (.splitWindow true) 1, .key 1 .edit 1, .exit true 1]).map
        (fun qe => (qe.activeWindow, qe.ptrs)) = .ok (some 0, [1, 0]) := by
      decide +kernel
    rw [hrun, Except.map, Except.ok.injEq, Prod.mk.injEq] at hleft
    intro s hs _
    obtain rfl := Option.some.inj (hleft.1.symm.trans hs)
    exact ⟨⟨hleft.2 ▸ by decide, trivial⟩, fun _ _ => trivial⟩

/-- The windows are deleted from inside a prompt, which is left then; and the list of the buffers is opened from a window in the
left quarter. -/
theorem not_windows_live :
    ¬ (∀ evs, Ends QeState.ActiveListed (fun _ => True) (runEvents (QeState.start terminal80 false) evs)) ∧
    ¬ (∀ evs, Ends (fun _ => True) NotFreed (runEvents (QeState.start terminal80 false) evs)) := by
  constructor
  · intro h
    obtain ⟨s, hs, -⟩ := h [.key 1 .edit 1, .key 0 .deleteOtherWindows 1, .exit true 1]
    cases hs
  · intro h
    have hrun : runEvents (QeState.start terminal80 false)
        [.key 0 (.splitWindow true) 1, .key 0 (.splitWindow true) 1, .key 0 (.listBuffers 1) 1] = .error .freed := rfl
    exact (h _).fault hrun rfl

end Hoe
