import Hoe.Theorems.DeleteWindow

/-!
# The sizes of the windows

`window_resize` refuses to make a window smaller than `window_get_min_size`, a deletion gives a window more room, and
`do_split_window` has no such test, as its comment says: the half that keeps a separator, or the upper half, is without a column
or a row once the window was smaller than four.
-/

namespace Hoe

/-- A character terminal: a character has one column, and the status line and each mode line have one row. -/
def ttyScreen (width height : Int) : QEditScreen :=
  { width := width, height := height, tty := true, statusLineHeight := 1, modeLineHeight := 1 }

/-- Each window that is no popup has a column and a row for the text. -/
def QEmacsState.Usable (qs : QEmacsState) : Prop := ∀ e ∈ qs.windows, e.flags.popup = false → 1 ≤ e.width ∧ 1 ≤ e.height

instance (qs : QEmacsState) : Decidable qs.Usable := inferInstanceAs (Decidable (∀ e ∈ qs.windows, _))

/-- A split finds four columns, or four rows with the mode line. -/
def SizeCommand.SplitsWell (qs : QEmacsState) : SizeCommand → Prop
  | .layout (.split s true) => ∀ w, qs.deref s = .ok w → 4 ≤ w.x2 - w.x1
  | .layout (.split s false) => ∀ w, qs.deref s = .ok w → 4 ≤ w.y2 - w.y1
  | _ => True

/-! ## Windows with room -/

/-- What all windows of a terminal are: side by side on the screen, with a mode line. -/
structure EditState.Plain (e : EditState) : Prop where
  tile : e.isTile = true
  modeline : e.flags.modeline = true
  left : 0 ≤ e.x1
  top : 0 ≤ e.y1

/-- There is a column beside the separator, and a row over the mode line. -/
def EditState.Roomy (e : EditState) : Prop := (if e.flags.rseparator then 2 else 1) ≤ e.x2 - e.x1 ∧ 2 ≤ e.y2 - e.y1

/-- The layout is that of a terminal, and it was fitted to the screen. -/
structure QEmacsState.Fitted (qs : QEmacsState) : Prop where
  width : qs.width = qs.screen.width
  height : qs.height = qs.screen.height
  status : qs.statusHeight = qs.screen.statusLineHeight
  modeLine : qs.modeLineHeight = qs.screen.modeLineHeight
  content : qs.contentHeight = qs.screenContent
  tty : qs.screen.tty = true
  row : qs.screen.modeLineHeight = 1
  separator : qs.separatorWidth = 1
  border : qs.borderWidth = 1

/-- The windows of a terminal between two commands. -/
structure QEmacsState.OnTty (qs : QEmacsState) : Prop where
  ok : qs.Ok
  fitted : qs.Fitted
  plain : ∀ e ∈ qs.windows, e.Plain
  area : ∀ e ∈ qs.windows, computeClientArea qs e = e

theorem EditState.Plain.congr {e f : EditState} (h : e.Plain) (hr : f.rect = e.rect) (ht : f.isTile = e.isTile)
    (hf : f.flags = e.flags) : f.Plain := by
  simp only [EditState.rect, Tiling.Rect.mk.injEq] at hr
  obtain ⟨h1, h2, -, -⟩ := hr
  exact ⟨ht.trans h.tile, by rw [hf]; exact h.modeline, h1 ▸ h.left, h2 ▸ h.top⟩

theorem EditState.roomy_congr {e f : EditState} (hr : f.rect = e.rect) (hf : f.flags = e.flags) : f.Roomy ↔ e.Roomy := by
  simp only [EditState.rect, Tiling.Rect.mk.injEq] at hr
  obtain ⟨h1, h2, h3, h4⟩ := hr
  rw [Roomy, Roomy, hf, h1, h2, h3, h4]

/-- The client area of a window that has room. -/
theorem roomy_iff {qs : QEmacsState} (hf : qs.Fitted) {e : EditState} (he : e.Plain) :
    e.Roomy ↔ 1 ≤ (computeClientArea qs e).width ∧ 1 ≤ (computeClientArea qs e).height := by
  have hpop : e.flags.popup = false := by
    have := he.tile
    rw [EditState.isTile, Bool.and_eq_true, Bool.not_eq_true', Bool.not_eq_true'] at this
    exact this.2
  simp only [EditState.Roomy, computeClientArea, hpop, he.modeline, hf.separator, hf.modeLine, hf.row, if_true,
    Bool.false_eq_true, if_false]
  split_ifs <;> omega

theorem QEmacsState.OnTty.usable_iff {qs : QEmacsState} (h : qs.OnTty) : qs.Usable ↔ ∀ e ∈ qs.windows, e.Roomy := by
  refine forall₂_congr fun e he => ?_
  have htile := (h.plain e he).tile
  rw [EditState.isTile, Bool.and_eq_true, Bool.not_eq_true', Bool.not_eq_true'] at htile
  rw [roomy_iff h.fitted (h.plain e he), h.area e he]
  exact ⟨fun hu => hu htile.2, fun hu _ => hu⟩

/-- The sizes of the screen are those that the layout was made for. -/
theorem QEmacsState.Fitted.doRefresh {qs : QEmacsState} (h : qs.Fitted) :
    doRefresh qs = { qs with windows := qs.windows.map (computeClientArea qs) } := by
  have hfit : fitToScreen qs = qs := by
    rw [fitToScreen, if_neg]
    rintro (hne | hne | hne | hne | hne)
    · exact hne h.width
    · exact hne h.height
    · exact hne h.status
    · exact hne h.modeLine
    · exact hne h.content
  have hborders : setBorders qs = qs := by
    have hs : (if qs.screen.tty then 1 else 4) = qs.separatorWidth := by rw [h.tty, h.separator, if_pos rfl]
    rw [setBorders, hs, ← h.border]
  rw [Hoe.doRefresh, hborders, hfit]

theorem QEmacsState.Fitted.windows {qs : QEmacsState} (h : qs.Fitted) (ws : List EditState) (active : Option WindowPtr)
    (next : WindowPtr) : QEmacsState.Fitted { qs with windows := ws, activeWindow := active, nextPtr := next } :=
  ⟨h.width, h.height, h.status, h.modeLine, h.content, h.tty, h.row, h.separator, h.border⟩

/-- The windows after `do_refresh`: they are usable exactly when they had room before. -/
theorem QEmacsState.Fitted.onTty {qs : QEmacsState} (h : qs.Fitted) (hok : (Hoe.doRefresh qs).Ok)
    (hp : ∀ e ∈ qs.windows, e.Plain) : (Hoe.doRefresh qs).OnTty ∧ ((Hoe.doRefresh qs).Usable ↔ ∀ e ∈ qs.windows, e.Roomy) := by
  have htty : (Hoe.doRefresh qs).OnTty := by
    refine ⟨hok, ?_, ?_, ?_⟩
    · rw [h.doRefresh]
      exact h.windows _ _ _
    · rw [h.doRefresh]
      intro e he
      obtain ⟨f, hf, rfl⟩ := List.mem_map.mp he
      exact (hp f hf).congr rfl rfl rfl
    · rw [h.doRefresh]
      intro e he
      obtain ⟨f, -, rfl⟩ := List.mem_map.mp he
      rfl
  refine ⟨htty, ?_⟩
  rw [htty.usable_iff, h.doRefresh]
  constructor
  · intro hr e he
    exact (EditState.roomy_congr rfl rfl).mp (hr (computeClientArea qs e) (List.mem_map_of_mem he))
  · intro hr e he
    obtain ⟨f, hf, rfl⟩ := List.mem_map.mp he
    exact (EditState.roomy_congr rfl rfl).mpr (hr f hf)

/-! ## One command -/

/-- The halves of a window have room exactly when it measured four across the cut. -/
theorem roomy_split (qs : QEmacsState) {w : EditState} (hp : w.Plain) (hr : w.Roomy) (horiz : Bool) :
    ((splitOld w horiz).Plain ∧ (splitNew qs w horiz).Plain) ∧
      ((splitOld w horiz).Roomy ∧ (splitNew qs w horiz).Roomy ↔ 4 ≤ if horiz then w.x2 - w.x1 else w.y2 - w.y1) := by
  obtain ⟨htile, hmode, hleft, htop⟩ := hp
  have hx : w.x1 ≤ w.x2 := by
    have := hr.1
    split_ifs at this <;> omega
  have hy : w.y1 ≤ w.y2 := by
    have := hr.2
    omega
  have htile' := htile
  rw [EditState.isTile, Bool.and_eq_true, Bool.not_eq_true', Bool.not_eq_true'] at htile'
  obtain ⟨hw, hh⟩ := hr
  cases horiz with
  | true =>
    obtain ⟨hl, hr⟩ := half_between hx
    refine ⟨⟨⟨htile, hmode, hleft, htop⟩, ⟨rfl, rfl, hleft.trans hl, htop⟩⟩, ?_⟩
    simp only [EditState.Roomy, splitOld, splitNew, newWindow, computeClientArea, if_true, Bool.false_eq_true, if_false]
    rw [Int.tdiv_eq_ediv_of_nonneg (by omega)]
    omega
  | false =>
    obtain ⟨hl, hr⟩ := half_between hy
    refine ⟨⟨⟨htile, hmode, hleft, htop⟩, ⟨rfl, rfl, hleft, htop.trans hl⟩⟩, ?_⟩
    simp only [EditState.Roomy, splitOld, splitNew, newWindow, computeClientArea, Bool.false_eq_true, if_false]
    rw [Int.tdiv_eq_ediv_of_nonneg (by omega)]
    split_ifs at hw ⊢ <;> omega

theorem QEmacsState.At.mem_of_rest {qs : QEmacsState} {pre post : List EditState} {w e : EditState} (ha : qs.At pre w post)
    (he : e ∈ pre ++ post) : e ∈ qs.windows := by
  rw [ha.windows]
  rcases List.mem_append.mp he with he | he
  · exact List.mem_append_left _ he
  · exact List.mem_append_right _ (List.mem_cons_of_mem _ he)

theorem split_onTty {qs qs' : QEmacsState} (h : qs.OnTty) (hu : qs.Usable) {s : WindowPtr} {horiz : Bool}
    (hrun : doSplitWindow qs s horiz = .ok qs') :
    qs'.OnTty ∧ (qs'.Usable ↔ ∀ w, qs.deref s = .ok w → 4 ≤ if horiz then w.x2 - w.x1 else w.y2 - w.y1) := by
  obtain ⟨w, hw, -⟩ := of_bind_ok hrun
  obtain ⟨rfl, pre, post, ha⟩ := h.ok.followed hw
  have hroom := h.usable_iff.mp hu
  have hplain := h.plain w ha.mem
  have hok := doSplitWindow_ok h.ok hrun
  obtain ⟨w', hrect, htile, hflags, -, hd⟩ := doSplitWindow_spec h.ok ha (EditState.minibuf_of_isTile hplain.tile) horiz
  obtain rfl := Except.ok.inj (hd.symm.trans hrun)
  obtain ⟨⟨hold, hnew⟩, hiff⟩ := roomy_split qs hplain (hroom w ha.mem) horiz
  have htile' : w'.isTile = (splitOld w horiz).isTile := by
    rw [htile]
    cases horiz <;> rfl
  have hlist : ∀ p : EditState → Prop, (∀ e ∈ splitNew qs w horiz :: pre ++ w' :: post, p e) ↔
      (p w' ∧ p (splitNew qs w horiz)) ∧ ∀ e ∈ pre ++ post, p e := by
    intro p
    simp only [List.cons_append, List.forall_mem_cons, List.forall_mem_append]
    tauto
  have hwindows := (hlist EditState.Plain).mpr ⟨⟨hold.congr hrect htile' hflags, hnew⟩, fun e he => h.plain e (ha.mem_of_rest he)⟩
  obtain ⟨htty, huse⟩ := (h.fitted.windows _ _ _).onTty hok hwindows
  refine ⟨htty, huse.trans ((hlist EditState.Roomy).trans ?_)⟩
  rw [EditState.roomy_congr hrect hflags, hiff]
  constructor
  · rintro ⟨h4, -⟩ v hv
    rw [ha.deref] at hv
    exact Except.ok.inj hv ▸ h4
  · intro h4
    exact ⟨h4 w ha.deref, fun e he => hroom e (ha.mem_of_rest he)⟩

/-- The neighbour of a deleted window grows. -/
theorem mergeInto_roomy {s e e' : EditState} (h : mergeInto s e = some e') (hs : s.Plain ∧ s.Roomy) (he : e.Plain ∧ e.Roomy) :
    e'.Plain ∧ e'.Roomy := by
  obtain ⟨⟨ht, hm, hl, hu⟩, hw, hh⟩ := he
  have hsl := hs.1.left
  have hsu := hs.1.top
  have hsw : 1 ≤ s.x2 - s.x1 := by
    have := hs.2.1
    split_ifs at this <;> omega
  have hsh := hs.2.2
  rw [mergeInto] at h
  split_ifs at h with h1 h2 h3 h4 <;> obtain rfl := Option.some.inj h
  · exact ⟨⟨ht, hm, hl, hu⟩, show _ ≤ s.x2 - e.x1 by omega, hh⟩
  · exact ⟨⟨ht, hm, hsl, hu⟩, show _ ≤ e.x2 - s.x1 by omega, hh⟩
  · exact ⟨⟨ht, hm, hl, hu⟩, hw, show _ ≤ s.y2 - e.y1 by omega⟩
  · exact ⟨⟨ht, hm, hl, hsu⟩, hw, show _ ≤ e.y2 - s.y1 by omega⟩

theorem delete_onTty {qs qs' : QEmacsState} (h : qs.OnTty) (hu : qs.Usable) {s : WindowPtr} {force : Bool}
    (hrun : doDeleteWindow qs s force = .ok qs') : qs'.OnTty ∧ qs'.Usable := by
  obtain ⟨w, hw, -⟩ := of_bind_ok hrun
  obtain ⟨rfl, pre, post, ha⟩ := h.ok.followed hw
  have hroom := h.usable_iff.mp hu
  have hok := doDeleteWindow_ok h.ok hrun
  rcases doDeleteWindow_cases ha force with ⟨-, hd⟩ | ⟨-, -, hd⟩ | ⟨-, a, e, b, e', active, hab, -, -, hmerge, hd⟩
  · obtain rfl := Except.ok.inj (hd.symm.trans hrun)
    exact ⟨h, hu⟩
  · exact absurd (hd.symm.trans hrun) (by simp)
  · obtain rfl := Except.ok.inj (hd.symm.trans hrun)
    have hmem : ∀ f ∈ a ++ e :: b, f.Plain ∧ f.Roomy := by
      intro f hf
      rw [← hab] at hf
      exact ⟨h.plain f (ha.mem_of_rest hf), hroom f (ha.mem_of_rest hf)⟩
    obtain ⟨hp, hr⟩ := mergeInto_roomy hmerge ⟨h.plain w ha.mem, hroom w ha.mem⟩ (hmem e (by simp))
    have hall : ∀ f ∈ a ++ computeClientArea qs e' :: b, f.Plain ∧ f.Roomy := by
      intro f hf
      rcases List.mem_append.mp hf with hf | hf
      · exact hmem f (List.mem_append_left _ hf)
      · rcases List.mem_cons.mp hf with rfl | hf
        · exact ⟨hp.congr rfl rfl rfl, (EditState.roomy_congr rfl rfl).mpr hr⟩
        · exact hmem f (List.mem_append_right _ (List.mem_cons_of_mem _ hf))
    obtain ⟨htty, huse⟩ := (h.fitted.windows _ _ _).onTty hok fun f hf => (hall f hf).1
    exact ⟨htty, huse.mpr fun f hf => (hall f hf).2⟩

/-- The rows of a window that has an edge on the line that moves. -/
theorem resizeHeight_roomy {s e : EditState} {deltaY : Int} (hs : 0 ≤ s.y2 + deltaY) (he : e.Plain ∧ e.Roomy)
    (htop : e.y1 = s.y2 → 2 ≤ e.y2 - e.y1 - deltaY) (hbottom : e.y1 ≠ s.y2 → e.y2 = s.y2 → 2 ≤ e.y2 - e.y1 + deltaY) :
    (resizeHeight s deltaY e).Plain ∧ (resizeHeight s deltaY e).Roomy := by
  obtain ⟨⟨ht, hm, hl, hu⟩, hr⟩ := he
  rw [resizeHeight]
  split_ifs with h1 h2
  · have := htop h1
    exact ⟨⟨ht, hm, hl, show 0 ≤ e.y1 + _ by omega⟩, hr.1, show 2 ≤ e.y2 - (e.y1 + _) by omega⟩
  · have := hbottom h1 h2
    exact ⟨⟨ht, hm, hl, hu⟩, hr.1, show 2 ≤ e.y2 + _ - e.y1 by omega⟩
  · exact ⟨⟨ht, hm, hl, hu⟩, hr⟩

/-- The columns of a window that has an edge on the line that moves. -/
theorem resizeWidth_roomy {s e : EditState} {deltaX : Int} (hs : 0 ≤ s.x2 + deltaX) (he : e.Plain ∧ e.Roomy)
    (hleft : e.x1 = s.x2 → 2 ≤ e.x2 - e.x1 - deltaX) (hright : e.x1 ≠ s.x2 → e.x2 = s.x2 → 2 ≤ e.x2 - e.x1 + deltaX) :
    (resizeWidth s deltaX e).Plain ∧ (resizeWidth s deltaX e).Roomy := by
  obtain ⟨⟨ht, hm, hl, hu⟩, hr⟩ := he
  have hsep : (if e.flags.rseparator then (2 : Int) else 1) ≤ 2 := by split_ifs <;> decide
  rw [resizeWidth]
  split_ifs with h1 h2
  · have := hleft h1
    exact ⟨⟨ht, hm, show 0 ≤ e.x1 + _ by omega, hu⟩, hsep.trans (show 2 ≤ e.x2 - (e.x1 + _) by omega), hr.2⟩
  · have := hright h1 h2
    exact ⟨⟨ht, hm, hl, hu⟩, hsep.trans (show 2 ≤ e.x2 + _ - e.x1 by omega), hr.2⟩
  · exact ⟨⟨ht, hm, hl, hu⟩, hr⟩

theorem columns_resizeHeight (s : EditState) (deltaY : Int) (e : EditState) :
    (resizeHeight s deltaY e).x1 = e.x1 ∧ (resizeHeight s deltaY e).x2 = e.x2 := by
  rw [resizeHeight]
  split_ifs <;> exact ⟨rfl, rfl⟩

/-- What `window_resize` leaves of a window that does not become too small. -/
theorem resizeOther_roomy {qs : QEmacsState} (hf : qs.Fitted) {s e : EditState} {deltaX deltaY : Int} (hsx : 0 ≤ s.x2 + deltaX)
    (hsy : 0 ≤ s.y2 + deltaY) (he : e.Plain ∧ e.Roomy) (hsmall : tooSmall qs s deltaX deltaY e = false) :
    (resizeOther qs s deltaX deltaY e).Plain ∧ (resizeOther qs s deltaX deltaY e).Roomy := by
  have hmin : windowGetMinSize qs e = (8, 9) := by rw [windowGetMinSize, he.1.modeline, hf.modeLine, hf.row]; rfl
  rw [tooSmall, hmin, Bool.or_eq_false_iff] at hsmall
  obtain ⟨hy, hx⟩ := hsmall
  have hheight := resizeHeight_roomy hsy he
    (fun h1 => by rw [if_pos h1, decide_eq_false_iff_not] at hy; omega)
    (fun h1 h2 => by rw [if_neg h1, if_pos h2, decide_eq_false_iff_not] at hy; omega)
  obtain ⟨hx1, hx2⟩ := columns_resizeHeight s deltaY e
  have hwidth := resizeWidth_roomy hsx hheight
    (fun h1 => by rw [hx1] at h1; rw [if_pos h1, decide_eq_false_iff_not] at hx; omega)
    (fun h1 h2 => by rw [hx1] at h1; rw [hx2] at h2; rw [if_neg h1, if_pos h2, decide_eq_false_iff_not] at hx; omega)
  exact ⟨hwidth.1.congr rfl rfl rfl, (EditState.roomy_congr rfl rfl).mpr hwidth.2⟩

theorem QEmacsState.OnTty.minSize {qs : QEmacsState} (h : qs.OnTty) {e : EditState} (he : e ∈ qs.windows) :
    windowGetMinSize qs e = (8, 9) := by
  rw [windowGetMinSize, (h.plain e he).modeline, h.fitted.modeLine, h.fitted.row]
  rfl

/-- What the tests of `window_resize` let through. -/
theorem QEmacsState.OnTty.not_refused {qs : QEmacsState} (h : qs.OnTty) {w : EditState} (hw : w ∈ qs.windows)
    {targetW targetH : Int} (hr : resizeRefused qs w targetW targetH = false) :
    8 ≤ targetW ∧ 9 ≤ targetH ∧ ∀ e ∈ qs.windows, e.ptr ≠ w.ptr →
      tooSmall qs w (targetW - (w.x2 - w.x1)) (targetH - (w.y2 - w.y1)) e = false := by
  rw [resizeRefused, Bool.or_eq_false_iff, Bool.or_eq_false_iff, decide_eq_false_iff_not, h.minSize hw, not_or, not_lt,
    not_lt] at hr
  obtain ⟨⟨⟨hminw, hminh⟩, -⟩, hothers⟩ := hr
  refine ⟨hminw, hminh, ?_⟩
  intro e he hptr
  have hm := EditState.minibuf_of_isTile (h.plain e he).tile
  have hsmall := List.any_eq_false.mp hothers e he
  rw [hm, beq_false_of_ne hptr, Bool.or_false, Bool.not_false, Bool.true_and, Bool.not_eq_true] at hsmall
  exact hsmall

theorem resize_onTty {qs qs' : QEmacsState} (h : qs.OnTty) (hu : qs.Usable) {s : WindowPtr} {targetW targetH : Int}
    (hrun : windowResize qs s targetW targetH = .ok qs') : qs'.OnTty ∧ qs'.Usable := by
  obtain ⟨w, hw, hrest⟩ := of_bind_ok hrun
  obtain ⟨rfl, pre, post, ha⟩ := h.ok.followed hw
  cases hr : resizeRefused qs w targetW targetH with
  | true =>
    rw [hr, if_pos rfl] at hrest
    obtain rfl := Except.ok.inj hrest
    exact ⟨h, hu⟩
  | false =>
    rw [hr, if_neg (by decide)] at hrest
    obtain rfl := Except.ok.inj hrest
    obtain ⟨hminw, hminh, hothers⟩ := h.not_refused ha.mem hr
    have hl := (h.plain w ha.mem).left
    have ht := (h.plain w ha.mem).top
    obtain ⟨f, hf⟩ : ∃ f : EditState → EditState, f = fun e =>
      if e.ptr = w.ptr then computeClientArea qs { e with x2 := e.x1 + targetW, y2 := e.y1 + targetH }
      else if e.minibuf then e else resizeOther qs w (targetW - (w.x2 - w.x1)) (targetH - (w.y2 - w.y1)) e := ⟨_, rfl⟩
    have hall : ∀ e ∈ qs.windows, (f e).ptr = e.ptr ∧ computeClientArea qs (f e) = f e ∧ (f e).Plain ∧ (f e).Roomy := by
      intro e he
      have hp := h.plain e he
      have hm := EditState.minibuf_of_isTile hp.tile
      rw [hf]
      dsimp only
      by_cases hptr : e.ptr = w.ptr
      · rw [if_pos hptr]
        refine ⟨rfl, rfl, ⟨hp.tile, hp.modeline, hp.left, hp.top⟩, ?_, show 2 ≤ e.y1 + targetH - e.y1 by omega⟩
        show (if e.flags.rseparator then 2 else 1) ≤ e.x1 + targetW - e.x1
        split_ifs <;> omega
      · rw [if_neg hptr, hm, if_neg (by decide)]
        refine ⟨?_, rfl, resizeOther_roomy h.fitted (by omega) (by omega) ⟨hp, h.usable_iff.mp hu e he⟩ (hothers e he hptr)⟩
        rw [resizeOther, ptr_computeClientArea, resizeWidth, resizeHeight]
        split_ifs <;> rfl
    have hmap : ∀ e ∈ qs.windows.map f, computeClientArea qs e = e ∧ e.Plain ∧ e.Roomy := by
      intro e he
      obtain ⟨g, hg, rfl⟩ := List.mem_map.mp he
      exact (hall g hg).2
    have hptrs : (qs.windows.map f).map (·.ptr) = qs.windows.map (·.ptr) := by
      rw [List.map_map]
      exact List.map_congr_left fun e he => (hall e he).1
    have htty : QEmacsState.OnTty { qs with windows := qs.windows.map f } := by
      refine ⟨QEmacsState.ok_iff.mpr ?_, h.fitted.windows _ _ _, fun e he => (hmap e he).2.1, fun e he => (hmap e he).1⟩
      show ((qs.windows.map f).map (·.ptr)).Nodup ∧ ∀ s ∈ (qs.windows.map f).map (·.ptr), s < qs.nextPtr
      rw [hptrs]
      exact QEmacsState.ok_iff.mp h.ok
    subst hf
    exact ⟨htty, htty.usable_iff.mpr fun e he => (hmap e he).2.2⟩

/-- A command leaves usable windows, but for a split that does not find the room. -/
theorem SizeCommand.run_onTty {qs qs' : QEmacsState} (h : qs.OnTty) (hu : qs.Usable) {c : SizeCommand}
    (hrun : c.run qs = .ok qs') : qs'.OnTty ∧ (qs'.Usable ↔ c.SplitsWell qs) := by
  cases c with
  | resize s targetW targetH =>
    obtain ⟨htty, huse⟩ := resize_onTty h hu hrun
    exact ⟨htty, iff_of_true huse trivial⟩
  | layout c =>
    cases c with
    | split s horiz =>
      obtain ⟨htty, huse⟩ := split_onTty h hu hrun
      cases horiz <;> exact ⟨htty, huse⟩
    | other s =>
      obtain ⟨w, -, hrest⟩ := of_bind_ok hrun
      obtain rfl := Except.ok.inj hrest
      exact ⟨⟨⟨h.ok.nodup, h.ok.fresh⟩, h.fitted.windows _ _ _, h.plain, h.area⟩, iff_of_true hu trivial⟩
    | delete s force =>
      obtain ⟨htty, huse⟩ := delete_onTty h hu hrun
      exact ⟨htty, iff_of_true huse trivial⟩

/-! ## A run -/

/-- The layout of the first window on a terminal. -/
def oneWindow (width height content : Int) (hideStatus : Bool) : QEmacsState where
  screen := ttyScreen width height
  windows := [{ ptr := 0, b := 0, flags := { modeline := true }, x1 := 0, y1 := 0, x2 := width, y2 := content, width := width
                height := content - 1 }]
  activeWindow := some 0
  width := width
  height := height
  statusHeight := 1
  modeLineHeight := 1
  contentHeight := content
  separatorWidth := 1
  borderWidth := 1
  hideStatus := hideStatus
  nextPtr := 1

theorem startup_ttyScreen {width : Int} (hw : 0 ≠ width) (height : Int) (hideStatus : Bool) :
    startup (ttyScreen width height) hideStatus =
      oneWindow width height (if hideStatus then height else height - 1) hideStatus := by
  simp [startup, oneWindow, ttyScreen, doRefresh, fitToScreen, setBorders, editNew, resizeToScreen, computeClientArea,
    QEmacsState.screenContent, hw]

/-- The first window, on a screen that has a column, and two rows beside the status line. -/
theorem startup_onTty {width height : Int} (hw : 2 ≤ width) (hh : 3 ≤ height) (hideStatus : Bool) :
    (startup (ttyScreen width height) hideStatus).OnTty ∧ (startup (ttyScreen width height) hideStatus).Usable := by
  have hok := startup_ok (ttyScreen width height) hideStatus
  have hcontent : 2 ≤ if hideStatus then height else height - 1 := by split_ifs <;> omega
  rw [startup_ttyScreen (by omega)] at hok ⊢
  refine ⟨⟨hok, ⟨rfl, rfl, rfl, rfl, rfl, rfl, rfl, rfl, rfl⟩, ?_, ?_⟩, ?_⟩
  · intro e he
    obtain rfl := List.mem_singleton.mp he
    exact ⟨rfl, rfl, le_refl _, le_refl _⟩
  · intro e he
    obtain rfl := List.mem_singleton.mp he
    simp [computeClientArea, oneWindow]
  · intro e he _
    obtain rfl := List.mem_singleton.mp he
    exact ⟨show 1 ≤ width by omega, show 1 ≤ _ - (1 : Int) by omega⟩

/-- The pointer of a split that cannot be followed. -/
theorem splitsWell_of_error {qs : QEmacsState} (h : qs.OnTty) {c : SizeCommand} {f : Fault} (hrun : c.run qs = .error f) :
    c.SplitsWell qs := by
  have hsplit : ∀ s horiz w, qs.deref s = .ok w → doSplitWindow qs s horiz ≠ .error f := by
    intro s horiz w hw hd
    obtain ⟨rfl, pre, post, ha⟩ := h.ok.followed hw
    obtain ⟨w', -, -, -, -, hok⟩ := doSplitWindow_spec h.ok ha (EditState.minibuf_of_isTile (h.plain w ha.mem).tile) horiz
    rw [hok] at hd
    exact absurd hd (by simp)
  cases c with
  | resize s targetW targetH => trivial
  | layout c =>
    cases c with
    | split s horiz => cases horiz <;> exact fun w hw => absurd hrun (hsplit s _ w hw)
    | other s => trivial
    | delete s force => trivial

/-- The windows stay usable through a run exactly when each split of it finds the room. -/
theorem usable_iff_splitsWell {start : QEmacsState} (h : start.OnTty) (hu : start.Usable) (cmds : List SizeCommand) :
    (∀ done qs, done <+: cmds → runSizes start done = .ok qs → qs.Usable) ↔
      ∀ done c qs, done ++ [c] <+: cmds → runSizes start done = .ok qs → c.SplitsWell qs := by
  induction cmds generalizing start with
  | nil =>
    constructor
    · intro _ done c qs hpre
      exact absurd (List.eq_nil_of_prefix_nil hpre) (by simp)
    · intro _ done qs hpre hrun
      obtain rfl := List.eq_nil_of_prefix_nil hpre
      obtain rfl := Except.ok.inj hrun
      exact hu
  | cons c cmds ih =>
    constructor
    · intro hall done d qs hpre hrun
      cases done with
      | nil =>
        obtain rfl := Except.ok.inj hrun
        obtain ⟨rfl, -⟩ := List.cons_prefix_cons.mp hpre
        cases hd : d.run start with
        | error f => exact splitsWell_of_error h hd
        | ok q =>
          have hq : runSizes start [d] = .ok q := by rw [runSizes, hd]; rfl
          exact (SizeCommand.run_onTty h hu hd).2.mp (hall [d] q hpre hq)
      | cons c' done =>
        obtain ⟨rfl, htail⟩ := List.cons_prefix_cons.mp hpre
        obtain ⟨q, hq, hrest⟩ := of_bind_ok hrun
        have hfirst : runSizes start [c'] = .ok q := by rw [runSizes, hq]; rfl
        have huse := hall [c'] q (List.cons_prefix_cons.mpr ⟨rfl, List.nil_prefix⟩) hfirst
        refine (ih (SizeCommand.run_onTty h hu hq).1 huse).mp ?_ done d qs htail hrest
        intro done' qs' hpre' hrun'
        refine hall (c' :: done') qs' (List.cons_prefix_cons.mpr ⟨rfl, hpre'⟩) ?_
        rw [runSizes, hq]
        exact hrun'
    · intro hall done qs hpre hrun
      cases done with
      | nil =>
        obtain rfl := Except.ok.inj hrun
        exact hu
      | cons c' done =>
        obtain ⟨rfl, htail⟩ := List.cons_prefix_cons.mp hpre
        obtain ⟨q, hq, hrest⟩ := of_bind_ok hrun
        obtain ⟨htty, huse⟩ := SizeCommand.run_onTty h hu hq
        have hfirst := hall [] c' start (List.cons_prefix_cons.mpr ⟨rfl, List.nil_prefix⟩) rfl
        refine (ih htty (huse.mpr hfirst)).mpr ?_ done qs htail hrest
        intro done' d qs' hpre' hrun'
        refine hall (c' :: done') d qs' (List.cons_prefix_cons.mpr ⟨rfl, hpre'⟩) ?_
        rw [runSizes, hq]
        exact hrun'

/-- From a screen of at least two by three cells: through a sequence of splits, resizes, deletions and switches every window
keeps a column and a row for its text, exactly when each split of it was of a window four columns wide, or four rows high. -/
theorem windows_usable_iff (width height : Int) (hw : 2 ≤ width) (hh : 3 ≤ height) (hideStatus : Bool) (cmds : List SizeCommand) :
    (∀ done qs, done <+: cmds → runSizes (startup (ttyScreen width height) hideStatus) done = .ok qs → qs.Usable) ↔
      ∀ done c qs, done ++ [c] <+: cmds → runSizes (startup (ttyScreen width height) hideStatus) done = .ok qs →
        c.SplitsWell qs := by
  obtain ⟨htty, huse⟩ := startup_onTty hw hh hideStatus
  exact usable_iff_splitsWell htty huse cmds

/-- A screen of 80 by 24 has 23 rows for two windows. -/
theorem windows_usable_twoWindows :
    (∀ done qs, done <+: [SizeCommand.layout (.split 0 false)] → runSizes (startup (ttyScreen 80 24) false) done = .ok qs →
      qs.Usable) ↔
      ∀ done c qs, done ++ [c] <+: [SizeCommand.layout (.split 0 false)] →
        runSizes (startup (ttyScreen 80 24) false) done = .ok qs → c.SplitsWell qs :=
  windows_usable_iff 80 24 (by decide) (by decide) false _

/-- On a screen of 80 by 24 the fourth split of the upper window leaves it a row, which is the mode line's. -/
theorem not_windowsUsable :
    ¬ ∀ (width height : Int), 2 ≤ width → 3 ≤ height → ∀ hideStatus cmds qs,
      runSizes (startup (ttyScreen width height) hideStatus) cmds = .ok qs → qs.Usable := by
  intro h
  have hrun : ∃ qs, runSizes (startup (ttyScreen 80 24) false) (List.replicate 4 (.layout (.split 0 false))) = .ok qs ∧
      ¬ qs.Usable := ⟨_, rfl, by decide +kernel⟩
  obtain ⟨qs, hqs, hno⟩ := hrun
  exact hno (h 80 24 (by decide) (by decide) false _ qs hqs)

end Hoe
