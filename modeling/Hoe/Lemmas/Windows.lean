import Hoe.Windows
import Hoe.Lib.Tiling

/-!
# The window list

What the functions of the window list do to it: each window is at its own address, so a pointer leads to one place of the list,
and a function changes the list in that place, in the place of the window it merges with, or everywhere alike.
-/

namespace Hoe

open Tiling

/-- The full size of a window. -/
def EditState.rect (e : EditState) : Rect := ⟨e.x1, e.y1, e.x2, e.y2⟩

/-- The windows that lie side by side: all but the minibuffer and the popups. -/
def EditState.isTile (e : EditState) : Bool := !e.minibuf && !e.flags.popup

theorem EditState.minibuf_of_isTile {e : EditState} (h : e.isTile = true) : e.minibuf = false := by
  rw [isTile, Bool.and_eq_true, Bool.not_eq_true'] at h
  exact h.1

/-- The rectangles of the windows that lie side by side. -/
def tiles (windows : List EditState) : List Rect := (windows.filter EditState.isTile).map EditState.rect

/-- Each window has its address, and the next one is free. -/
structure QEmacsState.Ok (qs : QEmacsState) : Prop where
  nodup : (qs.windows.map (·.ptr)).Nodup
  fresh : ∀ e ∈ qs.windows, e.ptr < qs.nextPtr

/-- The place of a window in the list. -/
structure QEmacsState.At (qs : QEmacsState) (pre : List EditState) (w : EditState) (post : List EditState) : Prop where
  windows : qs.windows = pre ++ w :: post
  other : ∀ e ∈ pre ++ post, e.ptr ≠ w.ptr

/-! ## Pointers -/

/-- The tiles of two lists are those of the one and those of the other. -/
theorem tiles_append (a b : List EditState) : tiles (a ++ b) = tiles a ++ tiles b := by simp [tiles]

theorem tiles_cons_tile {e : EditState} (he : e.isTile = true) (es : List EditState) : tiles (e :: es) = e.rect :: tiles es := by
  simp [tiles, he]

theorem tiles_cons_other {e : EditState} (he : e.isTile = false) (es : List EditState) : tiles (e :: es) = tiles es := by
  simp [tiles, he]

/-- A tile is the rectangle of a window that is no minibuffer and no popup. -/
theorem mem_tiles {r : Rect} {ws : List EditState} : r ∈ tiles ws ↔ ∃ e ∈ ws, e.isTile = true ∧ e.rect = r := by
  simp [tiles, and_assoc]

/-- A change of every window that leaves the minibuffer and the popups what they are. -/
theorem tiles_map {f : EditState → EditState} {ws : List EditState} (hf : ∀ e ∈ ws, (f e).isTile = e.isTile) :
    tiles (ws.map f) = (ws.filter EditState.isTile).map fun e => (f e).rect := by
  rw [tiles, List.filter_map, List.map_map]
  congr 1
  refine List.filter_congr fun e he => ?_
  exact hf e he

/-- The tile at a place, in front of the others. -/
theorem QEmacsState.At.perm {qs : QEmacsState} {pre post : List EditState} {w : EditState} (ha : qs.At pre w post)
    (hw : w.isTile = true) : (tiles qs.windows).Perm (w.rect :: tiles (pre ++ post)) := by
  rw [ha.windows, tiles_append, tiles_append, tiles_cons_tile hw]
  exact List.perm_middle

/-- The window is in the list. -/
theorem QEmacsState.At.mem {qs : QEmacsState} {pre post : List EditState} {w : EditState} (ha : qs.At pre w post) :
    w ∈ qs.windows := by
  rw [ha.windows]
  simp

/-- A window is at one place. -/
theorem QEmacsState.Ok.at {qs : QEmacsState} (hok : qs.Ok) {w : EditState} (hw : w ∈ qs.windows) : ∃ pre post, qs.At pre w post := by
  obtain ⟨pre, post, hwin⟩ := List.append_of_mem hw
  refine ⟨pre, post, hwin, ?_⟩
  intro e he heq
  have hnd := hok.nodup
  rw [hwin, (List.perm_middle.map _).nodup_iff, List.map_cons, List.nodup_cons] at hnd
  exact hnd.1 (List.mem_map.mpr ⟨e, he, heq⟩)

/-- A pointer to a window of the list leads to it. -/
theorem QEmacsState.At.deref {qs : QEmacsState} {pre post : List EditState} {w : EditState} (ha : qs.At pre w post) :
    qs.deref w.ptr = .ok w := by
  have hpre : pre.find? (fun e => e.ptr == w.ptr) = none := by
    refine List.find?_eq_none.mpr fun e he => ?_
    simpa using ha.other e (List.mem_append_left _ he)
  simp [QEmacsState.deref, ha.windows, List.find?_append, hpre]

/-- A pointer that can be followed leads to a window of the list. -/
theorem QEmacsState.deref_ok {qs : QEmacsState} {s : WindowPtr} {w : EditState} (h : qs.deref s = .ok w) :
    w ∈ qs.windows ∧ w.ptr = s := by
  unfold QEmacsState.deref at h
  split at h
  · rename_i e he
    cases h
    exact ⟨List.mem_of_find?_eq_some he, by simpa using List.find?_some he⟩
  · exact absurd h (by simp)

/-- What a pointer that can be followed leads to, and where. -/
theorem QEmacsState.Ok.followed {qs : QEmacsState} (hok : qs.Ok) {s : WindowPtr} {w : EditState} (h : qs.deref s = .ok w) :
    w.ptr = s ∧ ∃ pre post, qs.At pre w post := by
  obtain ⟨hw, hs⟩ := QEmacsState.deref_ok h
  exact ⟨hs, hok.at hw⟩

/-- A change at an address that no window of the list has. -/
theorem map_of_ne {s : WindowPtr} {f g : EditState → EditState} {ws : List EditState} (hws : ∀ e ∈ ws, e.ptr ≠ s) :
    ws.map (fun e => if e.ptr = s then f e else g e) = ws.map g := by
  refine List.map_congr_left fun e he => ?_
  rw [if_neg (hws e he)]

/-- A change of the window, at its place in the list. -/
theorem QEmacsState.At.update {qs : QEmacsState} {pre post : List EditState} {w : EditState} (ha : qs.At pre w post)
    (f : EditState → EditState) : (qs.update w.ptr f).windows = pre ++ f w :: post := by
  have hsame : ∀ l : List EditState, (∀ e ∈ l, e.ptr ≠ w.ptr) → l.map (fun e => if e.ptr = w.ptr then f e else e) = l :=
    fun l hl => (map_of_ne hl).trans (List.map_id l)
  rw [QEmacsState.update, ha.windows, List.map_append, List.map_cons, if_pos rfl,
    hsame pre fun e he => ha.other e (List.mem_append_left _ he), hsame post fun e he => ha.other e (List.mem_append_right _ he)]

/-! ## The client area -/

@[simp] theorem ptr_computeClientArea (qs : QEmacsState) (e : EditState) : (computeClientArea qs e).ptr = e.ptr := rfl

@[simp] theorem rect_computeClientArea (qs : QEmacsState) (e : EditState) : (computeClientArea qs e).rect = e.rect := rfl

@[simp] theorem isTile_computeClientArea (qs : QEmacsState) (e : EditState) : (computeClientArea qs e).isTile = e.isTile := rfl

/-- The client area is inside of the window, whose tile stays. -/
@[simp] theorem tiles_computeClientArea (qs : QEmacsState) (ws : List EditState) :
    tiles (ws.map (computeClientArea qs)) = tiles ws := by
  rw [tiles_map fun e _ => isTile_computeClientArea qs e]
  rfl

/-! ## A new screen size -/

/-- The sizes of the layout are known, and none is negative. -/
structure QEmacsState.Sized (qs : QEmacsState) : Prop where
  width : 0 < qs.width
  content : 0 < qs.contentHeight
  height : qs.height ≠ 0
  modeLine : 0 ≤ qs.modeLineHeight

/-- The windows are fitted to the width of the screen. -/
theorem width_fitToScreen (qs : QEmacsState) : (fitToScreen qs).width = qs.screen.width := by
  rw [fitToScreen]
  split_ifs with h
  · rfl
  · simp only [ne_eq, not_or, not_not] at h
    exact h.1

/-- They are fitted to its height, less the status line. -/
theorem contentHeight_fitToScreen (qs : QEmacsState) : (fitToScreen qs).contentHeight = qs.screenContent := by
  rw [fitToScreen]
  split_ifs with h
  · rfl
  · simp only [ne_eq, not_or, not_not] at h
    exact h.2.2.2.2

/-- A rectangle that is scaled to the same size stays. -/
theorem Rect.scale_self {w h : Int} (hw : 0 < w) (hh : 0 < h) (r : Rect) : r.scale w h w h = r := by
  simp only [Rect.scale, Int.mul_ediv_cancel _ hw.ne', Int.mul_ediv_cancel _ hh.ne']

/-- A tile is scaled with the content area. -/
theorem rect_resizeToScreen {qs : QEmacsState} (hs : qs.Sized) {width height content : Int} (hw : 0 < width) (hc : 0 < content)
    {e : EditState} (he : e.isTile = true) (hin : e.rect.Inside qs.width qs.contentHeight) :
    (resizeToScreen qs width height content e).rect = e.rect.scale qs.width qs.contentHeight width content := by
  have hm := EditState.minibuf_of_isTile he
  obtain ⟨⟨a1, a2, -⟩, b1, b2, -⟩ := hin
  simp only [EditState.rect] at a1 a2 b1 b2
  simp only [resizeToScreen, hm, if_neg hs.height, EditState.rect, Rect.scale]
  rw [if_neg (by decide)]
  simp only [Rect.mk.injEq]
  refine ⟨?_, ?_, ?_, ?_⟩ <;> refine Int.tdiv_eq_ediv_of_nonneg (mul_nonneg ?_ (by omega)) <;> omega

theorem isTile_resizeToScreen (qs : QEmacsState) (width height content : Int) (e : EditState) :
    (resizeToScreen qs width height content e).isTile = e.isTile := by
  rw [resizeToScreen]
  split_ifs <;> rfl

/-- So all tiles are scaled alike. -/
theorem tiles_fitToScreen (qs : QEmacsState) (hs : qs.Sized) (hw : 0 < qs.screen.width) (hc : 0 < qs.screenContent)
    (hin : ∀ r ∈ tiles qs.windows, r.Inside qs.width qs.contentHeight) :
    tiles (fitToScreen qs).windows =
      (tiles qs.windows).map (Rect.scale qs.width qs.contentHeight qs.screen.width qs.screenContent) := by
  rw [fitToScreen]
  split_ifs with h
  · rw [tiles_map fun e _ => isTile_resizeToScreen _ _ _ _ e, tiles, List.map_map]
    refine List.map_congr_left fun e he => ?_
    obtain ⟨he, ht⟩ := List.mem_filter.mp he
    exact rect_resizeToScreen hs hw hc ht (hin _ (mem_tiles.mpr ⟨e, he, ht, rfl⟩))
  · simp only [ne_eq, not_or, not_not] at h
    obtain ⟨h1, -, -, -, h5⟩ := h
    rw [← h1, ← h5, show Rect.scale qs.width qs.contentHeight qs.width qs.contentHeight = id from
      funext (Rect.scale_self hs.width hs.content), List.map_id]

/-- `do_refresh` scales the windows to the screen. -/
theorem tiles_doRefresh {qs : QEmacsState} (hs : qs.Sized) (hw : 0 < qs.screen.width) (hc : 0 < qs.screenContent)
    (hin : ∀ r ∈ tiles qs.windows, r.Inside qs.width qs.contentHeight) :
    tiles (doRefresh qs).windows =
      (tiles qs.windows).map (Rect.scale qs.width qs.contentHeight qs.screen.width qs.screenContent) := by
  rw [doRefresh, tiles_computeClientArea]
  exact tiles_fitToScreen (setBorders qs) ⟨hs.width, hs.content, hs.height, hs.modeLine⟩ hw hc hin

theorem width_doRefresh (qs : QEmacsState) : (doRefresh qs).width = qs.screen.width := width_fitToScreen (setBorders qs)

theorem contentHeight_doRefresh (qs : QEmacsState) : (doRefresh qs).contentHeight = qs.screenContent :=
  contentHeight_fitToScreen (setBorders qs)

/-- The windows tile the content area. -/
def QEmacsState.Tiling (qs : QEmacsState) : Prop := Tiles qs.width qs.contentHeight (tiles qs.windows)

/-- After `do_refresh` the windows tile the new area when their rectangles, scaled, do. -/
theorem tiling_doRefresh_iff (qs : QEmacsState) (hs : qs.Sized) (hw : 0 < qs.screen.width) (hc : 0 < qs.screenContent)
    (hin : ∀ r ∈ tiles qs.windows, r.Inside qs.width qs.contentHeight) :
    (doRefresh qs).Tiling ↔ Tiles qs.screen.width qs.screenContent
      ((tiles qs.windows).map (Rect.scale qs.width qs.contentHeight qs.screen.width qs.screenContent)) := by
  rw [QEmacsState.Tiling, width_doRefresh, contentHeight_doRefresh, tiles_doRefresh hs hw hc hin]

/-- `do_refresh` keeps the tiling. -/
theorem tiling_doRefresh (qs : QEmacsState) (ht : qs.Tiling) (hs : qs.Sized) (hw : 0 < qs.screen.width)
    (hc : 0 < qs.screenContent) : (doRefresh qs).Tiling :=
  (tiling_doRefresh_iff qs hs hw hc ht.inside).mpr (ht.scale hs.width hs.content hw hc)

/-! ## The window to merge with -/

/-- The window that the loop of `do_delete_window` stops at. -/
def sharer (s : EditState) (windows : List EditState) : Option EditState :=
  windows.find? fun e => !(e.minibuf || e.ptr == s.ptr) && (mergeInto s e).isSome

/-- `do_delete_window` merges with the first window that shares a full edge, if there is one. -/
theorem mergeWindow_eq (qs : QEmacsState) (s : EditState) (ws : List EditState) :
    (sharer s ws = none ∧ mergeWindow qs s ws = none) ∨
      ∃ pre e post e', ws = pre ++ e :: post ∧ sharer s ws = some e ∧ e.minibuf = false ∧ e.ptr ≠ s.ptr ∧ mergeInto s e = some e' ∧
        mergeWindow qs s ws = some (pre ++ computeClientArea qs e' :: post) := by
  induction ws with
  | nil => exact Or.inl ⟨rfl, rfl⟩
  | cons e es ih =>
    have hskip : (e.minibuf = true ∨ e.ptr = s.ptr) ∨ mergeInto s e = none →
        sharer s (e :: es) = sharer s es ∧ mergeWindow qs s (e :: es) = (mergeWindow qs s es).map (e :: ·) := by
      intro hs
      constructor
      · rw [sharer, List.find?_cons_of_neg, ← sharer]
        rcases hs with (hs | hs) | hs <;> simp [hs]
      · rw [mergeWindow]
        split_ifs with hm
        · rfl
        · rw [hs.resolve_left hm]
    by_cases hs : (e.minibuf = true ∨ e.ptr = s.ptr) ∨ mergeInto s e = none
    · obtain ⟨h1, h2⟩ := hskip hs
      rcases ih with ⟨i1, i2⟩ | ⟨pre, f, post, f', rfl, i1, i2, i3, i4, i5⟩
      · exact Or.inl ⟨by rw [h1, i1], by rw [h2, i2]; rfl⟩
      · exact Or.inr ⟨e :: pre, f, post, f', rfl, by rw [h1, i1], i2, i3, i4, by rw [h2, i5]; rfl⟩
    · rw [not_or] at hs
      obtain ⟨hm, hsome⟩ := hs
      obtain ⟨e', he'⟩ := Option.ne_none_iff_exists'.mp hsome
      have hm' := not_or.mp hm
      refine Or.inr ⟨[], e, es, e', rfl, ?_, by simpa using hm'.1, hm'.2, he', ?_⟩
      · rw [sharer, List.find?_cons_of_pos]
        simp [hm'.1, hm'.2, he']
      · rw [mergeWindow, if_neg hm, he']
        rfl

/-- One window ends where the other begins, and they are as high, or as wide. -/
def SharesEdge (s e : EditState) : Prop :=
  (s.x1 = e.x2 ∨ s.x2 = e.x1) ∧ s.y1 = e.y1 ∧ s.y2 = e.y2 ∨ (s.y1 = e.y2 ∨ s.y2 = e.y1) ∧ s.x1 = e.x1 ∧ s.x2 = e.x2

instance (s e : EditState) : Decidable (SharesEdge s e) := inferInstanceAs (Decidable (_ ∨ _))

/-- Two windows are merged just when they share a full edge. -/
theorem mergeInto_isSome {s e : EditState} : (mergeInto s e).isSome = true ↔ SharesEdge s e := by
  rw [mergeInto, SharesEdge]
  split_ifs with h1 h2 h3 h4
  · exact iff_of_true rfl (Or.inl ⟨Or.inl h1.1, h1.2⟩)
  · exact iff_of_true rfl (Or.inl ⟨Or.inr h2.1, h2.2⟩)
  · exact iff_of_true rfl (Or.inr ⟨Or.inl h3.1, h3.2⟩)
  · exact iff_of_true rfl (Or.inr ⟨Or.inr h4.1, h4.2⟩)
  · refine iff_of_false (by simp) ?_
    intro hs
    rcases hs with ⟨hs | hs, he⟩ | ⟨hs | hs, he⟩
    · exact h1 ⟨hs, he⟩
    · exact h2 ⟨hs, he⟩
    · exact h3 ⟨hs, he⟩
    · exact h4 ⟨hs, he⟩

/-- The loop stops when there is a window that shares a full edge. -/
theorem exists_sharer {s : EditState} {ws : List EditState} :
    (∃ e, sharer s ws = some e) ↔ ∃ e ∈ ws, e.minibuf = false ∧ e.ptr ≠ s.ptr ∧ SharesEdge s e := by
  rw [← Option.isSome_iff_exists, sharer, List.find?_isSome]
  refine exists_congr fun e => and_congr_right fun _ => ?_
  rw [Bool.and_eq_true, mergeInto_isSome, ← and_assoc]
  simp

/-- The merged window has the address of the one that grows. -/
theorem mergeInto_ptr {s e e' : EditState} (h : mergeInto s e = some e') : e'.ptr = e.ptr := by
  rw [mergeInto] at h
  split_ifs at h <;> obtain rfl := Option.some.inj h <;> rfl

/-- It is a tile if the one that grows is. -/
theorem mergeInto_isTile {s e e' : EditState} (h : mergeInto s e = some e') : e'.isTile = e.isTile := by
  rw [mergeInto] at h
  split_ifs at h <;> obtain rfl := Option.some.inj h <;> rfl

/-- A window that shares a full edge with `s` is given the place of `s`. -/
theorem mergeInto_spec {s e e' : EditState} (h : mergeInto s e = some e') (hs : s.x1 ≤ s.x2 ∧ s.y1 ≤ s.y2)
    (he : e.x1 ≤ e.x2 ∧ e.y1 ≤ e.y2) :
    Cut e'.rect s.rect e.rect ∧
      ∀ w h, s.rect.Inside w h → e.rect.Inside w h → e'.rect.Inside w h := by
  have hcut : ∀ f : EditState, (∀ x y, f.rect.Has x y ↔ s.rect.Has x y ∨ e.rect.Has x y) →
      (∀ x y, ¬ (s.rect.Has x y ∧ e.rect.Has x y)) → Cut f.rect s.rect e.rect := by
    intro f hf hd x y
    have hfx := hf x y
    have hdx := hd x y
    simp only [cover_singleton]
    split_ifs <;> simp_all
  rw [mergeInto] at h
  split_ifs at h with h1 h2 h3 h4 <;> obtain rfl := Option.some.inj h <;> refine ⟨hcut _ ?_ ?_, ?_⟩ <;>
    intro a b <;> simp only [Rect.Has, Rect.Inside, EditState.rect] <;> omega

/-- Closing a window does not depend on another window that keeps its address. -/
theorem eraseP_replace {s : WindowPtr} {a b : List EditState} {e e' : EditState} (he : e.ptr ≠ s) (he' : e'.ptr = e.ptr) :
    ∃ a' b', (a ++ e :: b).eraseP (fun f => f.ptr == s) = a' ++ e :: b' ∧
      (a ++ e' :: b).eraseP (fun f => f.ptr == s) = a' ++ e' :: b' := by
  have hskip : ∀ f : EditState, f.ptr ≠ s → (f :: b).eraseP (fun f => f.ptr == s) = f :: b.eraseP fun f => f.ptr == s := by
    intro f hf
    exact List.eraseP_cons_of_neg (by simpa using hf)
  by_cases ha : ∃ f ∈ a, f.ptr = s
  · obtain ⟨f, hf, hfs⟩ := ha
    exact ⟨a.eraseP fun f => f.ptr == s, b, List.eraseP_append_left (by simpa using hfs) _ hf,
      List.eraseP_append_left (by simpa using hfs) _ hf⟩
  · have ha' : ∀ f ∈ a, ¬ (f.ptr == s) = true := fun f hf hfs => ha ⟨f, hf, by simpa using hfs⟩
    refine ⟨a, b.eraseP fun f => f.ptr == s, ?_, ?_⟩
    · rw [List.eraseP_append_right _ ha', hskip e he]
    · rw [List.eraseP_append_right _ ha', hskip e' (by rwa [he'])]

/-- The list without the window. -/
theorem QEmacsState.At.eraseP {qs : QEmacsState} {pre post : List EditState} {w : EditState} (ha : qs.At pre w post) :
    qs.windows.eraseP (fun e => e.ptr == w.ptr) = pre ++ post := by
  rw [ha.windows, List.eraseP_append_right _ fun e he => by simpa using ha.other e (List.mem_append_left _ he)]
  simp

/-- `edit_close` takes a window out of the list that it is in. -/
theorem editClose_of_any (qs : QEmacsState) {s : WindowPtr} (h : ∃ e ∈ qs.windows, e.ptr = s) :
    editClose qs s = .ok { qs with
      windows := qs.windows.eraseP fun e => e.ptr == s
      activeWindow := if qs.activeWindow = some s then (qs.windows.eraseP fun e => e.ptr == s).head?.map (·.ptr)
        else qs.activeWindow } := by
  have hany : qs.windows.any (fun e => e.ptr == s) = true := by simpa using h
  simp only [editClose, hany, if_true]

/-- What `do_delete_window` does: nothing, or it follows NULL, or the first window that shares a full edge takes the place of the
deleted one. -/
theorem doDeleteWindow_cases {qs : QEmacsState} {pre post : List EditState} {w : EditState} (ha : qs.At pre w post)
    (force : Bool) :
    (qs.mayDelete w force = false ∧ doDeleteWindow qs w.ptr force = .ok qs) ∨
    (qs.mayDelete w force = true ∧ sharer w qs.windows = none ∧ doDeleteWindow qs w.ptr force = .error .null) ∨
    (qs.mayDelete w force = true ∧ ∃ a e b e' active, pre ++ post = a ++ e :: b ∧ sharer w qs.windows = some e ∧ e.minibuf = false ∧
      mergeInto w e = some e' ∧ doDeleteWindow qs w.ptr force =
        .ok (doRefresh { qs with windows := a ++ computeClientArea qs e' :: b, activeWindow := active })) := by
  have hdo : ∀ m, mergeWindow qs w qs.windows = m → qs.mayDelete w force = true → doDeleteWindow qs w.ptr force =
      m.elim (.error .null) fun windows => (editClose { qs with windows := windows } w.ptr).map doRefresh := by
    intro m hmerge hm
    rw [doDeleteWindow, ha.deref]
    simp only [bind, Except.bind, hm, if_true, hmerge]
    cases m <;> rfl
  by_cases hm : qs.mayDelete w force = true
  · replace hdo := fun m h => hdo m h hm
    refine Or.inr ?_
    rcases mergeWindow_eq qs w qs.windows with ⟨h1, h2⟩ | ⟨pre', e, post', e', hwin, h1, h2, h3, h4, h5⟩
    · exact Or.inl ⟨hm, h1, hdo _ h2⟩
    · replace hdo := hdo _ h5
      rw [Option.elim_some] at hdo
      have hptr : (computeClientArea qs e').ptr = e.ptr := (ptr_computeClientArea qs e').trans (mergeInto_ptr h4)
      obtain ⟨a, b, hold, hnew⟩ := eraseP_replace (a := pre') (b := post') h3 hptr
      have hmem : ∃ f ∈ pre' ++ computeClientArea qs e' :: post', f.ptr = w.ptr := by
        have hw := ha.mem
        rw [hwin] at hw
        refine ⟨w, ?_, rfl⟩
        rcases List.mem_append.mp hw with hw | hw
        · exact List.mem_append_left _ hw
        · rcases List.mem_cons.mp hw with rfl | hw
          · exact absurd rfl h3
          · exact List.mem_append_right _ (List.mem_cons_of_mem _ hw)
      rw [editClose_of_any { qs with windows := pre' ++ computeClientArea qs e' :: post' } hmem] at hdo
      simp only [hnew] at hdo
      refine Or.inr ⟨hm, a, e, b, e', _, ?_, h1, h2, h4, hdo⟩
      rw [← ha.eraseP, hwin]
      exact hold
  · refine Or.inl ⟨by simpa using hm, ?_⟩
    rw [doDeleteWindow, ha.deref]
    exact if_neg hm

/-! ## Addresses -/

/-- The addresses of the windows, in the order of the list. -/
def QEmacsState.ptrs (qs : QEmacsState) : List WindowPtr := qs.windows.map (·.ptr)

theorem ptr_resizeToScreen (qs : QEmacsState) (width height content : Int) (e : EditState) :
    (resizeToScreen qs width height content e).ptr = e.ptr := by
  rw [resizeToScreen]
  split_ifs <;> rfl

/-- `do_refresh` leaves the windows where they are in memory. -/
theorem ptrs_doRefresh (qs : QEmacsState) : (doRefresh qs).ptrs = qs.ptrs := by
  have hfit : ∀ q : QEmacsState, (fitToScreen q).ptrs = q.ptrs := by
    intro q
    rw [fitToScreen]
    split_ifs
    · simp [QEmacsState.ptrs, List.map_map, Function.comp_def, ptr_resizeToScreen]
    · rfl
  rw [doRefresh, QEmacsState.ptrs, List.map_map]
  exact hfit (setBorders qs)

/-- It takes no memory. -/
theorem nextPtr_doRefresh (qs : QEmacsState) : (doRefresh qs).nextPtr = qs.nextPtr := by
  have hfit : ∀ q : QEmacsState, (fitToScreen q).nextPtr = q.nextPtr := by
    intro q
    rw [fitToScreen]
    split_ifs <;> rfl
  exact hfit (setBorders qs)

/-- In terms of addresses: each is there once, and was given out. -/
theorem QEmacsState.ok_iff {qs : QEmacsState} : qs.Ok ↔ qs.ptrs.Nodup ∧ ∀ s ∈ qs.ptrs, s < qs.nextPtr := by
  constructor
  · intro h
    refine ⟨h.nodup, ?_⟩
    intro s hs
    obtain ⟨e, he, rfl⟩ := List.mem_map.mp hs
    exact h.fresh e he
  · intro h
    exact ⟨h.1, fun e he => h.2 e.ptr (List.mem_map_of_mem he)⟩

/-- `do_refresh` keeps the list sound. -/
theorem QEmacsState.Ok.doRefresh {qs : QEmacsState} (h : qs.Ok) : (doRefresh qs).Ok := by
  rw [QEmacsState.ok_iff, ptrs_doRefresh, nextPtr_doRefresh, ← QEmacsState.ok_iff]
  exact h

/-- At the start the list is sound. -/
theorem startup_ok (screen : QEditScreen) (hideStatus : Bool) : (startup screen hideStatus).Ok := by
  refine QEmacsState.Ok.doRefresh (QEmacsState.ok_iff.mpr ?_)
  simp [QEmacsState.ptrs, editNew]

/-- The steps of a function that returns. -/
theorem of_bind_ok {α β : Type} {x : Except Fault α} {f : α → Except Fault β} {r : β} (h : x >>= f = .ok r) :
    ∃ a, x = .ok a ∧ f a = .ok r := by
  cases x with
  | error e => exact absurd h (by simp [bind, Except.bind])
  | ok a => exact ⟨a, rfl, h⟩

end Hoe
