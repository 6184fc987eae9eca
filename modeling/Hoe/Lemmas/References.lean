import Hoe.Lemmas.BufferList
import Hoe.Lemmas.Focus

/-!
# The buffers that windows show

What the functions of the window list do to the buffers in the windows: a window shows the buffer it is opened on, and the others
go on showing theirs. A window that is closed shows none after.
-/

namespace Hoe

open Outcome

/-- Each window has its address, and shows a buffer that it may show. -/
structure QEmacsState.Shows (P : WindowPtr → BufferPtr → Prop) (qs : QEmacsState) : Prop where
  ok : qs.Ok
  shown : ∀ w ∈ qs.windows, P w.ptr w.b

/-- The pointers to windows are followed, wherever they lead. -/
theorem ends_deref_any {β : Type} {Q : β → Prop} {qs : QEmacsState} {s : WindowPtr} {f : EditState → Except Fault β}
    (hf : ∀ w ∈ qs.windows, w.ptr = s → Ends Q (fun _ => True) (f w)) : Ends Q (fun _ => True) ((qs.deref s).bind f) := by
  cases hw : qs.deref s with
  | error e => trivial
  | ok w =>
    obtain ⟨hmem, hptr⟩ := QEmacsState.deref_ok hw
    exact hf w hmem hptr

namespace QEmacsState.Shows

variable {P P' : WindowPtr → BufferPtr → Prop} {qs qs' : QEmacsState} {b : BufferPtr} {s : WindowPtr}

/-- What a window may show is made wider. -/
theorem mono (h : qs.Shows P) (hP : ∀ s b, P s b → P' s b) : qs.Shows P' := ⟨h.ok, fun w hw => hP w.ptr w.b (h.shown w hw)⟩

/-- Each window keeps its address, and shows a buffer after that it may show. -/
theorem of_map (h : qs.Ok) {f : EditState → EditState} (hwindows : qs'.windows = qs.windows.map f)
    (hnext : qs'.nextPtr = qs.nextPtr) (hf : ∀ w ∈ qs.windows, (f w).ptr = w.ptr ∧ P w.ptr (f w).b) : qs'.Shows P := by
  have hptrs : qs'.ptrs = qs.ptrs := by
    rw [QEmacsState.ptrs, hwindows, List.map_map]
    exact List.map_congr_left fun w hw => (hf w hw).1
  refine ⟨?_, ?_⟩
  · rw [QEmacsState.ok_iff, hptrs, hnext, ← QEmacsState.ok_iff]
    exact h
  · rw [hwindows]
    intro w hw
    obtain ⟨e, he, rfl⟩ := List.mem_map.1 hw
    rw [(hf e he).1]
    exact (hf e he).2

/-- A window is changed, but for its address and its buffer. -/
theorem update (h : qs.Shows P) (s : WindowPtr) {f : EditState → EditState} (hf : ∀ e, (f e).ptr = e.ptr ∧ (f e).b = e.b) :
    (qs.update s f).Shows P := by
  refine of_map h.ok rfl rfl ?_
  intro w hw
  split_ifs
  · rw [(hf w).1, (hf w).2]
    exact ⟨rfl, h.shown w hw⟩
  · exact ⟨rfl, h.shown w hw⟩

/-- `do_refresh` moves and resizes windows only. -/
theorem doRefresh (h : qs.Shows P) : (doRefresh qs).Shows P := by
  have hfit : ∀ q : QEmacsState, q.Shows P → (fitToScreen q).Shows P := by
    intro q hq
    rw [fitToScreen]
    split_ifs
    · refine of_map hq.ok rfl rfl fun w hw => ⟨ptr_resizeToScreen .., ?_⟩
      rw [resizeToScreen]
      split_ifs <;> exact hq.shown w hw
    · exact hq
  have hset : (setBorders qs).Shows P := ⟨⟨h.ok.nodup, h.ok.fresh⟩, h.shown⟩
  exact of_map (hfit _ hset).ok rfl rfl fun w hw => ⟨rfl, (hfit _ hset).shown w hw⟩

/-- A new window, with a buffer that it may show. -/
theorem editNew (h : qs.Shows P) (hb : P qs.nextPtr b) (x1 y1 width height : Int) (flags : WindowFlags) :
    (editNew qs b x1 y1 width height flags).Shows P := by
  obtain ⟨hnd, hlt⟩ := QEmacsState.ok_iff.1 h.ok
  refine ⟨?_, ?_⟩
  · rw [QEmacsState.ok_iff, ptrs_editNew]
    refine ⟨List.nodup_cons.2 ⟨fun hmem => lt_irrefl _ (hlt _ hmem), hnd⟩, ?_⟩
    intro t ht
    rcases List.mem_cons.1 ht with rfl | ht
    · exact Nat.lt_succ_self _
    · exact Nat.lt_succ_of_lt (hlt t ht)
  · intro w hw
    rcases List.mem_cons.1 hw with rfl | hw
    · exact hb
    · exact h.shown w hw

/-- The windows that are left when one is closed. -/
theorem editClose (hok : qs.Ok) (hP : ∀ w ∈ qs.windows, w.ptr ≠ s → P w.ptr w.b) :
    Ends (QEmacsState.Shows P) (fun _ => True) (editClose qs s) := by
  by_cases hany : ∃ w ∈ qs.windows, w.ptr = s
  · rw [editClose_of_any qs hany]
    obtain ⟨w, hw, rfl⟩ := hany
    obtain ⟨pre, post, ha⟩ := hok.at hw
    have hsub : (pre ++ post).Sublist qs.windows := by
      rw [← ha.eraseP]
      exact List.eraseP_sublist
    refine ⟨⟨?_, ?_⟩, ?_⟩
    · dsimp only
      rw [ha.eraseP]
      exact (hsub.map _).nodup hok.nodup
    · dsimp only
      rw [ha.eraseP]
      exact fun e he => hok.fresh e (hsub.subset he)
    · dsimp only
      rw [ha.eraseP]
      exact fun e he => hP e (hsub.subset he) (ha.other e he)
  · have hnone : qs.windows.any (fun e => e.ptr == s) = false := by simpa using hany
    rw [Hoe.editClose, hnone]
    trivial

/-- A window is closed. -/
theorem close (h : qs.Shows P) (s : WindowPtr) : Ends (QEmacsState.Shows P) (fun _ => True) (Hoe.editClose qs s) :=
  editClose h.ok fun w hw _ => h.shown w hw

/-- A neighbour that takes the place of a closed window keeps its own buffer. -/
theorem mergeInto_b {w e e' : EditState} (h : mergeInto w e = some e') : e'.b = e.b := by
  rw [mergeInto] at h
  split_ifs at h <;> obtain rfl := Option.some.inj h <;> rfl

/-- The window is closed, and its neighbours grow. -/
theorem doDeleteWindow (h : qs.Shows P) (s : WindowPtr) (force : Bool) :
    Ends (QEmacsState.Shows P) (fun _ => True) (doDeleteWindow qs s force) := by
  refine ends_deref_any fun w _ _ => ?_
  split_ifs
  · cases hmerge : mergeWindow qs w qs.windows with
    | none => trivial
    | some windows =>
      have hptrs := (mergeWindow_ptrs hmerge).1
      have hmerged : QEmacsState.Shows P { qs with windows := windows } := by
        refine ⟨?_, ?_⟩
        · rw [QEmacsState.ok_iff, QEmacsState.ptrs, hptrs]
          exact QEmacsState.ok_iff.1 h.ok
        · rcases mergeWindow_eq qs w qs.windows with ⟨-, hnone⟩ | ⟨pre, e, post, e', hwin, -, -, -, hinto, hsome⟩
          · rw [hnone] at hmerge
            cases hmerge
          · rw [hsome] at hmerge
            obtain rfl := Option.some.inj hmerge
            have hshown := h.shown
            rw [hwin] at hshown
            intro v hv
            rcases List.mem_append.1 hv with hv | hv
            · exact hshown v (List.mem_append_left _ hv)
            · rcases List.mem_cons.1 hv with rfl | hv
              · have hsame : P e'.ptr e'.b ↔ P e.ptr e.b := by rw [mergeInto_ptr hinto, mergeInto_b hinto]
                exact hsame.2 (hshown e (List.mem_append_right _ List.mem_cons_self))
              · exact hshown v (List.mem_append_right _ (List.mem_cons_of_mem _ hv))
      exact (hmerged.close s).map fun _ _ hqs => hqs.doRefresh
  · exact h

/-- The other half shows the same buffer. -/
theorem doSplitWindow (h : qs.Shows P) (hnew : ∀ w ∈ qs.windows, P qs.nextPtr w.b) (s : WindowPtr) (horiz : Bool) :
    Ends (QEmacsState.Shows P) (fun _ => True) (doSplitWindow qs s horiz) := by
  refine ends_deref_any fun w hw _ => ?_
  split_ifs
  · exact h
  · refine QEmacsState.Shows.doRefresh (QEmacsState.Shows.update ?_ s fun _ => ⟨rfl, rfl⟩)
    rw [splitWindow]
    split_ifs
    · exact (h.editNew (hnew w hw) ..).update w.ptr fun _ => ⟨rfl, rfl⟩
    · exact (h.editNew (hnew w hw) ..).update w.ptr fun _ => ⟨rfl, rfl⟩

/-- Another window is active. -/
theorem focus (h : qs.Shows P) (active : Option WindowPtr) : QEmacsState.Shows P { qs with activeWindow := active } :=
  ⟨⟨h.ok.nodup, h.ok.fresh⟩, h.shown⟩

/-- The next window is active. -/
theorem doOtherWindow (h : qs.Shows P) (s : WindowPtr) : Ends (QEmacsState.Shows P) (fun _ => True) (doOtherWindow qs s) :=
  ends_deref_any fun _ _ _ => h.focus _

theorem closeOthers (h : qs.Shows P) (s : WindowPtr) (es : List EditState) :
    Ends (QEmacsState.Shows P) (fun _ => True) (closeOthers s es qs) := by
  induction es generalizing qs with
  | nil => exact h
  | cons e es ih =>
    rw [Hoe.closeOthers]
    split_ifs
    · exact (h.close e.ptr).bind fun _ _ hqs => ih hqs
    · exact ih h

/-- All windows but one are closed. -/
theorem doDeleteOtherWindows (h : qs.Shows P) (s : WindowPtr) :
    Ends (QEmacsState.Shows P) (fun _ => True) (doDeleteOtherWindows qs s) :=
  ends_deref_any fun _ _ _ => (h.closeOthers s qs.windows).bind fun _ _ hqs =>
    QEmacsState.Shows.doRefresh (QEmacsState.Shows.update hqs s fun _ => ⟨rfl, rfl⟩)

theorem clearLeft (h : qs.Shows P) (width : Int) (es : List EditState) :
    Ends (QEmacsState.Shows P) (fun _ => True) (clearLeft width es qs) := by
  induction es generalizing qs with
  | nil => exact h
  | cons e es ih =>
    rw [Hoe.clearLeft]
    split_ifs
    · exact ih h
    · exact (h.close e.ptr).bind fun _ _ hqs => ih hqs
    · exact ih (h.update e.ptr fun _ => ⟨rfl, rfl⟩)
    · exact ih h

/-- A window on a buffer is put on the left. -/
theorem insertWindowLeft (h : qs.Shows P) (hb : ∀ s, P s b) (width : Int) (flags : WindowFlags) :
    Ends (QEmacsState.Shows P) (fun _ => True) (insertWindowLeft qs b width flags) :=
  (h.clearLeft width qs.windows).map fun _ _ hqs => (hqs.editNew (hb _) ..).doRefresh

end QEmacsState.Shows

/-- The first window shows the first buffer. -/
theorem startup_shows (screen : QEditScreen) (hideStatus : Bool) : (startup screen hideStatus).Shows fun _ b => b = 0 := by
  refine QEmacsState.Shows.doRefresh ⟨?_, ?_⟩
  · exact QEmacsState.ok_iff.2 (by simp [QEmacsState.ptrs, editNew])
  · intro w hw
    obtain rfl := List.mem_singleton.1 hw
    rfl

end Hoe
