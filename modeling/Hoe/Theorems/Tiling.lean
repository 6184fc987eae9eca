import Hoe.Lemmas.Windows

/-!
# Tilings of the content area

A split, and the rescaling of `do_refresh`, keep every tiling. A deletion and a resize keep it on a condition. `do_delete_window`
merges with the first window of the list that shares a full edge, and that can be a popup: the deleted window then leaves a
hole. `window_resize` knows the lines that move by the edges on them: a window of no height or width, as `do_split_window` makes
them, has both edges on one line, and only one of the two moves.
-/

namespace Hoe

open Tiling

/-! ## Splits -/

/-- The window that `edit_new` puts in front of the list. -/
def newWindow (qs : QEmacsState) (b : Nat) (x1 y1 width height : Int) (flags : WindowFlags) : EditState :=
  computeClientArea qs { ptr := qs.nextPtr, b := b, flags := flags, x1 := x1, y1 := y1, x2 := x1 + width, y2 := y1 + height }

theorem rect_newWindow (qs : QEmacsState) (b : Nat) (x1 y1 width height : Int) (flags : WindowFlags) :
    (newWindow qs b x1 y1 width height flags).rect = ⟨x1, y1, x1 + width, y1 + height⟩ := rfl

/-- A new window is in front of the others. -/
theorem QEmacsState.At.editNew {qs : QEmacsState} {pre post : List EditState} {w : EditState} (ha : qs.At pre w post)
    (hok : qs.Ok) (b : Nat) (x1 y1 width height : Int) (flags : WindowFlags) :
    (editNew qs b x1 y1 width height flags).At (newWindow qs b x1 y1 width height flags :: pre) w post where
  windows := by
    rw [Hoe.editNew, ha.windows]
    rfl
  other := by
    intro e he
    rcases List.mem_cons.mp he with rfl | he
    · exact Nat.ne_of_gt (hok.fresh w ha.mem)
    · exact ha.other e he

/-- A window in its place after a change that leaves its address. -/
theorem QEmacsState.At.updated {qs : QEmacsState} {pre post : List EditState} {w : EditState} (ha : qs.At pre w post)
    {f : EditState → EditState} (hf : (f w).ptr = w.ptr) : (qs.update w.ptr f).At pre (f w) post where
  windows := ha.update f
  other := by
    intro e he
    rw [hf]
    exact ha.other e he

/-- What a split leaves of the window. -/
def splitOld (w : EditState) (horiz : Bool) : EditState :=
  if horiz then { w with x2 := (w.x2 + w.x1).tdiv 2, flags := { w.flags with rseparator := true } }
  else { w with y2 := (w.y2 + w.y1).tdiv 2 }

/-- The window that a split adds. -/
def splitNew (qs : QEmacsState) (w : EditState) (horiz : Bool) : EditState :=
  if horiz then
    newWindow qs w.b ((w.x2 + w.x1).tdiv 2) w.y1 (w.x2 - (w.x2 + w.x1).tdiv 2) (w.y2 - w.y1) { modeline := true }
  else
    newWindow qs w.b w.x1 ((w.y2 + w.y1).tdiv 2) (w.x2 - w.x1) (w.y2 - (w.y2 + w.y1).tdiv 2)
      { modeline := true, rseparator := w.flags.rseparator }

/-- The list after a split: the new window in front, and the split window in its place. -/
theorem doSplitWindow_spec {qs : QEmacsState} (hok : qs.Ok) {pre post : List EditState} {w : EditState} (ha : qs.At pre w post)
    (hm : w.minibuf = false) (horiz : Bool) :
    ∃ w' : EditState, w'.rect = (splitOld w horiz).rect ∧ w'.isTile = w.isTile ∧ w'.flags = (splitOld w horiz).flags ∧ w'.ptr = w.ptr ∧
      doSplitWindow qs w.ptr horiz = .ok (doRefresh { qs with
        windows := splitNew qs w horiz :: pre ++ w' :: post
        activeWindow := some (qs.activeWindow.getD qs.nextPtr)
        nextPtr := qs.nextPtr + 1 }) := by
  have hstep : ∀ (q : QEmacsState) (e : EditState) (f : EditState → EditState), q.At (e :: pre) w post → (f w).ptr = w.ptr →
      ∃ w' : EditState, w'.rect = (f w).rect ∧ w'.isTile = (f w).isTile ∧ w'.flags = (f w).flags ∧ w'.ptr = w.ptr ∧
        (q.update w.ptr f).update w.ptr (computeClientArea (q.update w.ptr f)) =
          { q with windows := e :: pre ++ w' :: post } := by
    intro q e f hq hf
    have hu := (hq.updated hf).update (computeClientArea (q.update w.ptr f))
    rw [hf] at hu
    refine ⟨computeClientArea (q.update w.ptr f) (f w), rfl, rfl, rfl, hf, ?_⟩
    show { q with windows := ((q.update w.ptr f).update w.ptr (computeClientArea (q.update w.ptr f))).windows } = _
    rw [hu]
  have hdo : doSplitWindow qs w.ptr horiz =
      .ok (doRefresh ((splitWindow qs w horiz).update w.ptr (computeClientArea (splitWindow qs w horiz)))) := by
    rw [doSplitWindow, ha.deref]
    exact if_neg (by simp [hm])
  rw [hdo]
  cases horiz with
  | true =>
    have ha' := ha.editNew hok w.b ((w.x2 + w.x1).tdiv 2) w.y1 (w.x2 - (w.x2 + w.x1).tdiv 2) (w.y2 - w.y1) { modeline := true }
    obtain ⟨w', h1, h2, h3, h4, h5⟩ := hstep _ _
      (fun e => { e with x2 := (w.x2 + w.x1).tdiv 2, flags := { e.flags with rseparator := true } }) ha' rfl
    exact ⟨w', h1, h2, h3, h4, congrArg (fun q => Except.ok (doRefresh q)) h5⟩
  | false =>
    have ha' := ha.editNew hok w.b w.x1 ((w.y2 + w.y1).tdiv 2) (w.x2 - w.x1) (w.y2 - (w.y2 + w.y1).tdiv 2)
      { modeline := true, rseparator := w.flags.rseparator }
    obtain ⟨w', h1, h2, h3, h4, h5⟩ := hstep _ _ (fun e => { e with y2 := (w.y2 + w.y1).tdiv 2 }) ha' rfl
    exact ⟨w', h1, h2, h3, h4, congrArg (fun q => Except.ok (doRefresh q)) h5⟩

/-- The new window of a split is a tile. -/
theorem isTile_splitNew (qs : QEmacsState) (w : EditState) (horiz : Bool) : (splitNew qs w horiz).isTile = true := by
  cases horiz <;> rfl

/-- The middle lies between the edges. -/
theorem half_between {a b : Int} (h : a ≤ b) : a ≤ (b + a).tdiv 2 ∧ (b + a).tdiv 2 ≤ b := by
  rcases le_or_gt 0 (b + a) with hs | hs
  · rw [Int.tdiv_eq_ediv_of_nonneg hs]
    omega
  · have hneg := Int.tdiv_eq_ediv_of_nonneg (a := -(b + a)) (b := 2) (by omega)
    rw [Int.neg_tdiv] at hneg
    omega

/-- The new window gets the second half. -/
theorem rect_splitNew (qs : QEmacsState) (w : EditState) (horiz : Bool) : (splitNew qs w horiz).rect =
    if horiz then ⟨(w.x2 + w.x1).tdiv 2, w.y1, w.x2, w.y2⟩ else ⟨w.x1, (w.y2 + w.y1).tdiv 2, w.x2, w.y2⟩ := by
  cases horiz <;> simp [splitNew, rect_newWindow]

/-- A split cuts the rectangle in two. -/
theorem cut_split (qs : QEmacsState) {w : EditState} (hx : w.x1 ≤ w.x2) (hy : w.y1 ≤ w.y2) (horiz : Bool) :
    Cut w.rect (splitOld w horiz).rect (splitNew qs w horiz).rect := by
  cases horiz with
  | true =>
    obtain ⟨h1, h2⟩ := half_between hx
    rw [rect_splitNew]
    exact cut_right (r := w.rect) h1 h2
  | false =>
    obtain ⟨h1, h2⟩ := half_between hy
    rw [rect_splitNew]
    exact cut_bottom (r := w.rect) h1 h2

/-- Both halves are on the screen. -/
theorem inside_split (qs : QEmacsState) {w : EditState} {wd ht : Int} (h : w.rect.Inside wd ht) (horiz : Bool) :
    (splitOld w horiz).rect.Inside wd ht ∧ (splitNew qs w horiz).rect.Inside wd ht := by
  obtain ⟨⟨a1, a2, a3⟩, b1, b2, b3⟩ := h
  simp only [EditState.rect] at a1 a2 a3 b1 b2 b3
  have hx := half_between a2
  have hy := half_between b2
  rw [rect_splitNew]
  cases horiz with
  | true =>
    simp only [splitOld, EditState.rect, Rect.Inside, if_true]
    omega
  | false =>
    simp only [splitOld, EditState.rect, Rect.Inside, if_false, Bool.false_eq_true]
    omega

/-- The windows after a split, before the screen is looked at, tile the same area. -/
theorem Tiles.split {qs : QEmacsState} {pre post : List EditState} {w w' : EditState} {wd ht : Int}
    (htl : Tiles wd ht (w.rect :: tiles (pre ++ post))) {horiz : Bool} (hr : w'.rect = (splitOld w horiz).rect)
    (hw' : w'.isTile = true) : Tiles wd ht (tiles (splitNew qs w horiz :: pre ++ w' :: post)) := by
  have hin := htl.inside w.rect List.mem_cons_self
  obtain ⟨hin1, hin2⟩ := inside_split qs hin horiz
  have hlist : (w'.rect :: (splitNew qs w horiz).rect :: tiles (pre ++ post)).Perm
      (tiles (splitNew qs w horiz :: pre ++ w' :: post)) := by
    rw [List.cons_append, tiles_cons_tile (isTile_splitNew qs w horiz), tiles_append, tiles_append, tiles_cons_tile hw']
    exact (List.Perm.swap _ _ _).trans (List.perm_middle.symm.cons _)
  refine Tiles.perm ?_ hlist
  rw [hr]
  refine ⟨?_, (Once.cut (cut_split qs hin.1.2.1 hin.2.2.1 horiz)).mp htl.once⟩
  intro r hrm
  rcases List.mem_cons.mp hrm with rfl | hrm
  · exact hin1
  · rcases List.mem_cons.mp hrm with rfl | hrm
    · exact hin2
    · exact htl.inside r (List.mem_cons_of_mem _ hrm)

/-! ## Deletions -/

/-- A rectangle goes, and another one takes its place. -/
theorem tiles_merge {a b : List EditState} {w e f : EditState} {wd ht : Int}
    (htl : Tiles wd ht (w.rect :: tiles (a ++ e :: b))) (he : e.isTile = true) (hf : f.isTile = true)
    (hcut : Cut f.rect w.rect e.rect) (hin : f.rect.Inside wd ht) : Tiles wd ht (tiles (a ++ f :: b)) := by
  have hperm : ∀ g : EditState, g.isTile = true → (tiles (a ++ g :: b)).Perm (g.rect :: tiles (a ++ b)) := by
    intro g hg
    rw [tiles_append, tiles_append, tiles_cons_tile hg]
    exact List.perm_middle
  refine Tiles.perm ?_ (hperm f hf).symm
  have hold := htl.perm ((hperm e he).cons w.rect)
  refine ⟨?_, (Once.cut hcut).mpr hold.once⟩
  intro r hr
  rcases List.mem_cons.mp hr with rfl | hr
  · exact hin
  · exact hold.inside r (List.mem_cons_of_mem _ (List.mem_cons_of_mem _ hr))

/-- A window is deleted: it is merged, unless the first window that shares a full edge with it is a popup. -/
theorem tiling_doDeleteWindow {qs qs' : QEmacsState} (hs : qs.Sized) (hw : 0 < qs.screen.width) (hc : 0 < qs.screenContent)
    (ht : qs.Tiling) {pre post : List EditState} {w : EditState} (ha : qs.At pre w post) (hwt : w.isTile = true) (force : Bool)
    (hdo : doDeleteWindow qs w.ptr force = .ok qs') :
    qs'.Tiling ↔ qs.mayDelete w force = false ∨ (∀ e, sharer w qs.windows = some e → e.flags.popup = false) ∨
      (w.rect.scale qs.width qs.contentHeight qs.screen.width qs.screenContent).Empty := by
  have htl : Tiles qs.width qs.contentHeight (w.rect :: tiles (pre ++ post)) := Tiles.perm ht (ha.perm hwt)
  have hwin := htl.inside w.rect List.mem_cons_self
  rcases doDeleteWindow_cases ha force with ⟨hm, hd⟩ | ⟨-, -, hd⟩ | ⟨hm, a, e, b, e', active, hab, hsh, hmb, hmerge, hd⟩
  · obtain rfl := Except.ok.inj (hd.symm.trans hdo)
    exact iff_of_true ht (Or.inl hm)
  · exact absurd (hd.symm.trans hdo) (by simp)
  · obtain rfl := Except.ok.inj (hd.symm.trans hdo)
    rw [hab] at htl
    cases hp : e.flags.popup with
    | false =>
      have he : e.isTile = true := by simp [EditState.isTile, hmb, hp]
      have hein := htl.inside e.rect (List.mem_cons_of_mem _ (mem_tiles.mpr ⟨e, by simp, he, rfl⟩))
      obtain ⟨hcut, hin⟩ := mergeInto_spec hmerge ⟨hwin.1.2.1, hwin.2.2.1⟩ ⟨hein.1.2.1, hein.2.2.1⟩
      have hnew : Tiles qs.width qs.contentHeight (tiles (a ++ computeClientArea qs e' :: b)) :=
        tiles_merge htl he (by rw [isTile_computeClientArea, mergeInto_isTile hmerge, he]) hcut (hin _ _ hwin hein)
      refine iff_of_true ?_ (Or.inr (Or.inl ?_))
      · exact tiling_doRefresh { qs with windows := _, activeWindow := active } hnew ⟨hs.1, hs.2, hs.3, hs.4⟩ hw hc
      · intro f hf
        rw [hsh] at hf
        obtain rfl := Option.some.inj hf
        exact hp
    | true =>
      -- the popup grows, and the place of the window is left to nobody
      have he : e.isTile = false := by simp [EditState.isTile, hp]
      have he' : (computeClientArea qs e').isTile = false := by rw [isTile_computeClientArea, mergeInto_isTile hmerge, he]
      have hsame : tiles (a ++ computeClientArea qs e' :: b) = tiles (a ++ e :: b) := by
        rw [tiles_append, tiles_append, tiles_cons_other he, tiles_cons_other he']
      have hscaled := htl.scale hs.width hs.content hw hc
      rw [List.map_cons] at hscaled
      have hrest : (doRefresh { qs with windows := a ++ computeClientArea qs e' :: b, activeWindow := active }).Tiling ↔
          Tiles qs.screen.width qs.screenContent
            ((tiles (a ++ e :: b)).map (Rect.scale qs.width qs.contentHeight qs.screen.width qs.screenContent)) := by
        rw [← hsame]
        refine tiling_doRefresh_iff { qs with windows := _, activeWindow := active } ⟨hs.1, hs.2, hs.3, hs.4⟩ hw hc ?_
        intro r hr
        rw [show tiles _ = tiles (a ++ e :: b) from hsame] at hr
        exact htl.inside r (List.mem_cons_of_mem _ hr)
      rw [hrest, hm, hsh]
      have hgone := hscaled.once.tail_iff (hscaled.inside _ List.mem_cons_self)
      constructor
      · intro htiles
        exact Or.inr (Or.inr (hgone.mp htiles.once))
      · intro hcond
        rcases hcond with h | h | h
        · exact absurd h (by simp)
        · have := h e rfl
          rw [hp] at this
          exact absurd this (by simp)
        · exact ⟨fun r hr => hscaled.inside r (List.mem_cons_of_mem _ hr), hgone.mpr h⟩

/-! ## Resizes -/

/-- A window is resized by the line at its lower edge. -/
theorem rect_resizeHeight (s : EditState) (deltaY : Int) (e : EditState) :
    (resizeHeight s deltaY e).rect = e.rect.moveLine s.y2 deltaY := by
  rw [resizeHeight]
  split_ifs with h1 h2
  · rw [Rect.moveLine_top (r := e.rect) h1, EditState.rect, h1]
    rfl
  · rw [Rect.moveLine_bottom (r := e.rect) h1 h2, EditState.rect, h2]
    rfl
  · exact (Rect.moveLine_other (r := e.rect) h1 h2).symm

/-- The same of the line at its right edge. -/
theorem rect_resizeWidth (s : EditState) (deltaX : Int) (e : EditState) :
    (resizeWidth s deltaX e).rect = (e.rect.flip.moveLine s.x2 deltaX).flip := by
  rw [resizeWidth]
  split_ifs with h1 h2
  · rw [Rect.moveLine_top (r := e.rect.flip) h1, EditState.rect, h1]
    rfl
  · rw [Rect.moveLine_bottom (r := e.rect.flip) h1 h2, EditState.rect, h2]
    rfl
  · rw [Rect.moveLine_other (r := e.rect.flip) h1 h2]
    rfl

/-- The other windows move with both lines. -/
theorem rect_resizeOther (qs : QEmacsState) (s : EditState) (deltaX deltaY : Int) (e : EditState) :
    (resizeOther qs s deltaX deltaY e).rect = e.rect.moveLines s.x2 s.y2 deltaX deltaY := by
  rw [resizeOther, rect_computeClientArea, rect_resizeWidth, rect_resizeHeight]
  rfl

theorem isTile_resizeOther (qs : QEmacsState) (s : EditState) (deltaX deltaY : Int) (e : EditState) :
    (resizeOther qs s deltaX deltaY e).isTile = e.isTile := by
  have hx : ∀ f, (resizeWidth s deltaX f).isTile = f.isTile := by
    intro f
    rw [resizeWidth]
    split_ifs <;> rfl
  have hy : (resizeHeight s deltaY e).isTile = e.isTile := by
    rw [resizeHeight]
    split_ifs <;> rfl
  rw [resizeOther, isTile_computeClientArea, hx, hy]

/-- The windows after a resize: the corner of one rectangle is moved, and the edges on its lines with it. -/
theorem windowResize_spec {qs : QEmacsState} {pre post : List EditState} {w : EditState} (ha : qs.At pre w post)
    (hw : w.isTile = true) (targetW targetH : Int) (hr : resizeRefused qs w targetW targetH = false) :
    ∃ windows, windowResize qs w.ptr targetW targetH = .ok { qs with windows := windows } ∧
      (moveCorner w.rect (tiles (pre ++ post)) targetW targetH).Perm (tiles windows) := by
  obtain ⟨f, hf⟩ : ∃ f : EditState → EditState, f = fun e =>
      if e.minibuf then e else resizeOther qs w (targetW - (w.x2 - w.x1)) (targetH - (w.y2 - w.y1)) e := ⟨_, rfl⟩
  have hrest : tiles ((pre ++ post).map f) = (tiles (pre ++ post)).map
      (Rect.moveLines w.x2 w.y2 (targetW - (w.x2 - w.x1)) (targetH - (w.y2 - w.y1))) := by
    rw [tiles_map, tiles, List.map_map]
    · refine List.map_congr_left fun e he => ?_
      have hm := EditState.minibuf_of_isTile (List.mem_filter.mp he).2
      simp only [hf, hm, Bool.false_eq_true, if_false]
      exact rect_resizeOther _ _ _ _ e
    · intro e _
      rw [hf]
      dsimp only
      split_ifs
      · rfl
      · exact isTile_resizeOther _ _ _ _ e
  refine ⟨pre.map f ++ computeClientArea qs { w with x2 := w.x1 + targetW, y2 := w.y1 + targetH } :: post.map f, ?_, ?_⟩
  · have hdo : windowResize qs w.ptr targetW targetH = if resizeRefused qs w targetW targetH then .ok qs else
        .ok { qs with
          windows := qs.windows.map fun e =>
            if e.ptr = w.ptr then computeClientArea qs { e with x2 := e.x1 + targetW, y2 := e.y1 + targetH } else f e } := by
      rw [windowResize, ha.deref, hf]
      rfl
    rw [hdo, hr, if_neg (by decide), ha.windows, List.map_append, List.map_cons, if_pos rfl,
      map_of_ne fun e he => ha.other e (List.mem_append_left _ he), map_of_ne fun e he => ha.other e (List.mem_append_right _ he)]
  · have htile : (computeClientArea qs { w with x2 := w.x1 + targetW, y2 := w.y1 + targetH }).isTile = true := hw
    have hmoved : moveCorner w.rect (tiles (pre ++ post)) targetW targetH =
        (computeClientArea qs { w with x2 := w.x1 + targetW, y2 := w.y1 + targetH }).rect :: tiles ((pre ++ post).map f) := by
      rw [hrest]
      rfl
    rw [hmoved, List.map_append, tiles_append, tiles_append (pre.map f), tiles_cons_tile htile]
    exact List.perm_middle.symm

/-- The tests of `window_resize`: the windows on the moved lines keep a size, and the edges of the area stay. -/
theorem corner_of_not_refused {qs : QEmacsState} (hml : 0 ≤ qs.modeLineHeight) (hsw : qs.screen.width ≤ qs.width)
    (hsh : qs.screen.height - qs.statusHeight ≤ qs.contentHeight) {pre post : List EditState} {w : EditState}
    (ha : qs.At pre w post) (ht : Tiles qs.width qs.contentHeight (w.rect :: tiles (pre ++ post))) {targetW targetH : Int}
    (hr : resizeRefused qs w targetW targetH = false) :
    Corner qs.width qs.contentHeight w.rect (tiles (pre ++ post)) targetW targetH := by
  simp only [resizeRefused, Bool.or_eq_false_iff, decide_eq_false_iff_not, not_or, not_and_or, not_lt, not_le, not_not] at hr
  obtain ⟨⟨⟨h1, h2⟩, h3, h4⟩, h5⟩ := hr
  have hmin : ∀ e : EditState, 0 < (windowGetMinSize qs e).2 := by
    intro e
    simp only [windowGetMinSize]
    split_ifs <;> omega
  have hwide : (windowGetMinSize qs w).1 = 8 := rfl
  have hhigh := hmin w
  have hrest : ∀ q ∈ tiles (pre ++ post), ∃ e, e.rect = q ∧
      tooSmall qs w (targetW - (w.x2 - w.x1)) (targetH - (w.y2 - w.y1)) e = false := by
    intro q hq
    obtain ⟨e, he, het, rfl⟩ := mem_tiles.mp hq
    refine ⟨e, rfl, ?_⟩
    have hin : e ∈ qs.windows := by
      rw [ha.windows]
      rcases List.mem_append.mp he with he | he
      · exact List.mem_append_left _ he
      · exact List.mem_append_right _ (List.mem_cons_of_mem _ he)
    have hne := ha.other e he
    have hm := EditState.minibuf_of_isTile het
    have := List.any_eq_false.mp h5 e hin
    simpa [hm, hne] using this
  refine ⟨ht, by omega, by omega, ?_, ?_, ?_, ?_⟩
  · simp only [EditState.rect]
    omega
  · simp only [EditState.rect]
    omega
  · intro q hq
    obtain ⟨e, rfl, hsmall⟩ := hrest q hq
    have he : (windowGetMinSize qs e).1 = 8 := rfl
    simp only [tooSmall, Bool.or_eq_false_iff] at hsmall
    have hx := hsmall.2
    refine ⟨fun (ht : e.x1 = w.x2) => ?_, fun (ht : e.x1 ≠ w.x2) (hb : e.x2 = w.x2) => ?_⟩
    · rw [if_pos ht, decide_eq_false_iff_not] at hx
      show w.x2 + (targetW - (w.x2 - w.x1)) < e.x2
      omega
    · rw [if_neg ht, if_pos hb, decide_eq_false_iff_not] at hx
      show e.x1 < w.x2 + (targetW - (w.x2 - w.x1))
      omega
  · intro q hq
    obtain ⟨e, rfl, hsmall⟩ := hrest q hq
    have he := hmin e
    simp only [tooSmall, Bool.or_eq_false_iff] at hsmall
    have hy := hsmall.1
    refine ⟨fun (ht : e.y1 = w.y2) => ?_, fun (ht : e.y1 ≠ w.y2) (hb : e.y2 = w.y2) => ?_⟩
    · rw [if_pos ht, decide_eq_false_iff_not] at hy
      show w.y2 + (targetH - (w.y2 - w.y1)) < e.y2
      omega
    · rw [if_neg ht, if_pos hb, decide_eq_false_iff_not] at hy
      show e.y1 < w.y2 + (targetH - (w.y2 - w.y1))
      omega

/-- A window is resized: the move is refused, or nothing that has no height or no width grows with it. -/
theorem tiling_windowResize {qs qs' : QEmacsState} (hml : 0 ≤ qs.modeLineHeight) (hsw : qs.screen.width ≤ qs.width)
    (hsh : qs.screen.height - qs.statusHeight ≤ qs.contentHeight) (ht : qs.Tiling) {pre post : List EditState} {w : EditState}
    (ha : qs.At pre w post) (hw : w.isTile = true) (targetW targetH : Int)
    (hdo : windowResize qs w.ptr targetW targetH = .ok qs') :
    qs'.Tiling ↔ resizeRefused qs w targetW targetH = true ∨
      (∀ e ∈ pre ++ post, e.isTile = true → ¬ e.rect.Grows w.x2 w.y2) ∧
        (¬ w.rect.Empty ∨ w.rect.SpansTop qs.width targetW ∨ w.rect.flip.SpansTop qs.contentHeight targetH) := by
  cases hr : resizeRefused qs w targetW targetH with
  | true =>
    have hsame : windowResize qs w.ptr targetW targetH = .ok qs := by
      rw [windowResize, ha.deref]
      exact if_pos hr
    obtain rfl := Except.ok.inj (hsame.symm.trans hdo)
    exact iff_of_true ht (Or.inl rfl)
  | false =>
    obtain ⟨windows, hd, hperm⟩ := windowResize_spec ha hw targetW targetH hr
    obtain rfl := Except.ok.inj (hd.symm.trans hdo)
    have hc := corner_of_not_refused hml hsw hsh ha (Tiles.perm ht (ha.perm hw)) hr
    have hiff := hc.tiles_moveCorner
    have hgrows : (∀ q ∈ tiles (pre ++ post), ¬ q.Grows w.rect.x2 w.rect.y2) ↔
        ∀ e ∈ pre ++ post, e.isTile = true → ¬ e.rect.Grows w.x2 w.y2 := by
      constructor
      · intro h e he het
        exact h e.rect (mem_tiles.mpr ⟨e, he, het, rfl⟩)
      · intro h q hq
        obtain ⟨e, he, het, rfl⟩ := mem_tiles.mp hq
        exact h e he het
    rw [hgrows] at hiff
    constructor
    · intro h
      exact Or.inr (hiff.mp (Tiles.perm h hperm.symm))
    · intro h
      exact (hiff.mpr (h.resolve_left (by simp))).perm hperm

/-! ## The result -/

/-- The screen has room for a content area. -/
def QEmacsState.OnScreen (qs : QEmacsState) : Prop := 0 < qs.screen.width ∧ 0 < qs.screenContent

/-- A terminal of 80 columns and 37 rows, the last for the status line. -/
def terminal : QEditScreen := { width := 80, height := 37, tty := true, statusLineHeight := 1, modeLineHeight := 1 }

/-- The window 0 of 18 rows, over one of 18 rows that was split five times more, each time the upper half. The last split was
of a single row: it left the window 1 without a row. -/
def crowded : QEmacsState :=
  match runLayout (startup terminal false)
      [.split 0 false, .split 1 false, .split 1 false, .split 1 false, .split 1 false, .split 1 false] with
  | .ok qs => qs
  | .error _ => startup terminal false

theorem crowded_ok : crowded.Ok := by
  rw [QEmacsState.ok_iff]
  decide

theorem crowded_sized : crowded.Sized := ⟨by decide, by decide, by decide, by decide⟩

theorem crowded_onScreen : crowded.OnScreen := ⟨by decide, by decide⟩

theorem crowded_tiling : crowded.Tiling := by
  have htiles : tiles crowded.windows = [⟨0, 18, 80, 19⟩, ⟨0, 19, 80, 20⟩, ⟨0, 20, 80, 22⟩, ⟨0, 22, 80, 27⟩, ⟨0, 27, 80, 36⟩,
      ⟨0, 18, 80, 18⟩, ⟨0, 0, 80, 18⟩] := by decide
  have hsize : crowded.width = 80 ∧ crowded.contentHeight = 36 := by decide
  rw [QEmacsState.Tiling, htiles, hsize.1, hsize.2]
  refine ⟨by decide, ?_⟩
  intro x y h1 h2 h3 h4
  simp only [cover_cons x y _ (_ :: _), cover_singleton]
  split_ifs <;> simp only [Rect.Has] at * <;> omega

end Hoe
