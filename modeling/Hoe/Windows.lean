import Mathlib.Data.List.Basic

/-!
# The windows

The window list of qe.c and the functions that move, split, resize and close windows. A window is named by the address it was
allocated at, which no later window has again. A pointer to a window that is not in the list cannot be followed, nor can NULL:
both end the run with a `Fault`. Drawing the borders and invalidating the windows reads the layout alone and is left out.
-/

namespace Hoe

/-- The address of a window. -/
abbrev WindowPtr := Nat

/-- A pointer that leads nowhere: NULL, or the address of a window that was closed. -/
inductive Fault where
  | null
  | freed
deriving DecidableEq, Repr

/-- `flags`: `WF_POPUP`, `WF_MODELINE` and `WF_RSEPARATOR`. -/
structure WindowFlags where
  popup : Bool := false
  modeline : Bool := false
  rseparator : Bool := false
deriving DecidableEq, Repr

/-- The fields of `EditState` that the layout reads: its buffer, the full size with the borders, and the client area. -/
structure EditState where
  ptr : WindowPtr
  b : Nat
  minibuf : Bool := false
  flags : WindowFlags
  x1 : Int
  y1 : Int
  x2 : Int
  y2 : Int
  xleft : Int := 0
  ytop : Int := 0
  width : Int := 0
  height : Int := 0
deriving DecidableEq, Repr

/-- `QEditScreen`, with what `get_line_height` answers for the status line and for the mode lines. -/
structure QEditScreen where
  width : Int
  height : Int
  tty : Bool
  statusLineHeight : Int
  modeLineHeight : Int
deriving DecidableEq, Repr

/-- The fields of `QEmacsState` that the layout reads: `windows` is the list from `first_window` on. -/
structure QEmacsState where
  screen : QEditScreen
  windows : List EditState
  activeWindow : Option WindowPtr
  width : Int
  height : Int
  statusHeight : Int
  modeLineHeight : Int
  contentHeight : Int
  separatorWidth : Int
  borderWidth : Int
  hideStatus : Bool
  nextPtr : WindowPtr
deriving DecidableEq, Repr

namespace QEmacsState

/-- Follow a pointer to a window. -/
def deref (qs : QEmacsState) (s : WindowPtr) : Except Fault EditState :=
  match qs.windows.find? (fun e => e.ptr == s) with
  | some e => .ok e
  | none => .error .freed

/-- Change the window at an address. -/
def update (qs : QEmacsState) (s : WindowPtr) (f : EditState → EditState) : QEmacsState :=
  { qs with windows := qs.windows.map fun e => if e.ptr = s then f e else e }

end QEmacsState

/-- `compute_client_area`. -/
def computeClientArea (qs : QEmacsState) (s : EditState) : EditState :=
  let border := if s.flags.popup then qs.borderWidth else 0
  let x1 := s.x1 + border
  let y1 := s.y1 + border
  let x2 := s.x2 - border - (if s.flags.rseparator then qs.separatorWidth else 0)
  let y2 := s.y2 - (if s.flags.modeline then qs.modeLineHeight else 0) - border
  { s with xleft := x1, ytop := y1, width := x2 - x1, height := y2 - y1 }

/-- `edit_new`: the window is the one at `nextPtr`, in front of the others. -/
def editNew (qs : QEmacsState) (b : Nat) (x1 y1 width height : Int) (flags : WindowFlags) : QEmacsState :=
  let s := computeClientArea qs
    { ptr := qs.nextPtr, b := b, flags := flags, x1 := x1, y1 := y1, x2 := x1 + width, y2 := y1 + height }
  { qs with windows := s :: qs.windows, activeWindow := some (qs.activeWindow.getD qs.nextPtr), nextPtr := qs.nextPtr + 1 }

/-- `edit_close`. A window that is not in the list makes the walk run off its end. -/
def editClose (qs : QEmacsState) (s : WindowPtr) : Except Fault QEmacsState :=
  if qs.windows.any (fun e => e.ptr == s) then
    let windows := qs.windows.eraseP fun e => e.ptr == s
    .ok { qs with
      windows := windows
      activeWindow := if qs.activeWindow = some s then windows.head?.map (·.ptr) else qs.activeWindow }
  else .error .freed

/-- What `do_refresh` does to a window when the sizes changed. -/
def resizeToScreen (qs : QEmacsState) (width height contentHeight : Int) (e : EditState) : EditState :=
  if e.minibuf then { e with x1 := 0, y1 := contentHeight, x2 := width, y2 := height }
  -- needed only to init the window size for the first time
  else if qs.height = 0 then { e with x1 := 0, y1 := 0, y2 := contentHeight, x2 := width }
  else
    { e with
      x1 := (e.x1 * width).tdiv qs.width
      x2 := (e.x2 * width).tdiv qs.width
      y1 := (e.y1 * contentHeight).tdiv qs.contentHeight
      y2 := (e.y2 * contentHeight).tdiv qs.contentHeight }

/-- The height of the content on the screen. -/
def QEmacsState.screenContent (qs : QEmacsState) : Int :=
  if qs.hideStatus then qs.screen.height else qs.screen.height - qs.screen.statusLineHeight

/-- The widths of the borders, as `do_refresh` computes them. -/
def setBorders (qs : QEmacsState) : QEmacsState := { qs with separatorWidth := if qs.screen.tty then 1 else 4, borderWidth := 1 }

/-- The part of `do_refresh` that sees if a resize is necessary, and does it. -/
def fitToScreen (qs : QEmacsState) : QEmacsState :=
  if qs.width ≠ qs.screen.width ∨ qs.height ≠ qs.screen.height ∨ qs.statusHeight ≠ qs.screen.statusLineHeight ∨
      qs.modeLineHeight ≠ qs.screen.modeLineHeight ∨ qs.contentHeight ≠ qs.screenContent then
    { qs with
      windows := qs.windows.map (resizeToScreen qs qs.screen.width qs.screen.height qs.screenContent)
      width := qs.screen.width
      height := qs.screen.height
      statusHeight := qs.screen.statusLineHeight
      modeLineHeight := qs.screen.modeLineHeight
      contentHeight := qs.screenContent }
  else qs

/-- `do_refresh`. -/
def doRefresh (qs : QEmacsState) : QEmacsState :=
  let qs := fitToScreen (setBorders qs)
  { qs with windows := qs.windows.map (computeClientArea qs) }

/-- `do_other_window`. -/
def doOtherWindow (qs : QEmacsState) (s : WindowPtr) : Except Fault QEmacsState := do
  let _ ← qs.deref s
  let next := (qs.windows.dropWhile fun e => e.ptr != s).tail.head?
  return { qs with activeWindow := (next.or qs.windows.head?).map (·.ptr) }

/-- What the loop of `do_delete_window` makes of a window that shares a full edge with `s`. -/
def mergeInto (s e : EditState) : Option EditState :=
  -- left border
  if s.x1 = e.x2 ∧ s.y1 = e.y1 ∧ s.y2 = e.y2 then some { e with x2 := s.x2 }
  -- right border
  else if s.x2 = e.x1 ∧ s.y1 = e.y1 ∧ s.y2 = e.y2 then some { e with x1 := s.x1 }
  -- top border
  else if s.y1 = e.y2 ∧ s.x1 = e.x1 ∧ s.x2 = e.x2 then some { e with y2 := s.y2 }
  -- bottom border
  else if s.y2 = e.y1 ∧ s.x1 = e.x1 ∧ s.x2 = e.x2 then some { e with y1 := s.y1 }
  else none

/-- The loop of `do_delete_window` that looks for a window to merge with, and `compute_client_area` on what it found. There is no
result where the loop ends with `e` NULL: `compute_client_area` follows it. -/
def mergeWindow (qs : QEmacsState) (s : EditState) : List EditState → Option (List EditState)
  | [] => none
  | e :: es =>
    if e.minibuf ∨ e.ptr = s.ptr then (mergeWindow qs s es).map (e :: ·)
    else
      match mergeInto s e with
      | some e' => some (computeClientArea qs e' :: es)
      | none => (mergeWindow qs s es).map (e :: ·)

/-- The test of `do_delete_window`: it cannot close the minibuffer or a single window, unless forced. -/
def QEmacsState.mayDelete (qs : QEmacsState) (s : EditState) (force : Bool) : Bool :=
  (!s.minibuf && decide (1 < qs.windows.countP fun e => !e.minibuf)) || force

/-- `do_delete_window`. -/
def doDeleteWindow (qs : QEmacsState) (s : WindowPtr) (force : Bool) : Except Fault QEmacsState := do
  let w ← qs.deref s
  if qs.mayDelete w force then
    match mergeWindow qs w qs.windows with
    | some windows => (editClose { qs with windows := windows } s).map doRefresh
    | none => .error .null
  else .ok qs

/-- The two halves that `do_split_window` makes of a window. -/
def splitWindow (qs : QEmacsState) (w : EditState) (horiz : Bool) : QEmacsState :=
  if horiz then
    let x := (w.x2 + w.x1).tdiv 2
    (editNew qs w.b x w.y1 (w.x2 - x) (w.y2 - w.y1) { modeline := true }).update w.ptr fun w =>
      { w with x2 := x, flags := { w.flags with rseparator := true } }
  else
    let y := (w.y2 + w.y1).tdiv 2
    (editNew qs w.b w.x1 y (w.x2 - w.x1) (w.y2 - y) { modeline := true, rseparator := w.flags.rseparator }).update w.ptr fun w =>
      { w with y2 := y }

/-- `do_split_window`. -/
def doSplitWindow (qs : QEmacsState) (s : WindowPtr) (horiz : Bool) : Except Fault QEmacsState := do
  let w ← qs.deref s
  -- cannot split minibuf
  if w.minibuf then return qs
  else
    let qs := splitWindow qs w horiz
    return doRefresh (qs.update s (computeClientArea qs))

/-- `window_get_min_size`. -/
def windowGetMinSize (qs : QEmacsState) (s : EditState) : Int × Int :=
  (8, 8 + if s.flags.modeline then qs.modeLineHeight else 0)

/-- The tests of `window_resize` on another window: it would become too small. -/
def tooSmall (qs : QEmacsState) (s : EditState) (deltaX deltaY : Int) (e : EditState) : Bool :=
  (if e.y1 = s.y2 then decide (e.y2 - e.y1 - deltaY < (windowGetMinSize qs e).2)
    else if e.y2 = s.y2 then decide (e.y2 - e.y1 + deltaY < (windowGetMinSize qs e).2)
    else false) ||
  (if e.x1 = s.x2 then decide (e.x2 - e.x1 - deltaX < (windowGetMinSize qs e).1)
    else if e.x2 = s.x2 then decide (e.x2 - e.x1 + deltaX < (windowGetMinSize qs e).1)
    else false)

/-- `window_resize` returns at one of its tests. -/
def resizeRefused (qs : QEmacsState) (s : EditState) (targetW targetH : Int) : Bool :=
  let deltaX := targetW - (s.x2 - s.x1)
  let deltaY := targetH - (s.y2 - s.y1)
  decide (targetW < (windowGetMinSize qs s).1 ∨ targetH < (windowGetMinSize qs s).2) ||
  -- check if moving would uncover empty regions
  decide (qs.screen.width ≤ s.x2 ∧ deltaX ≠ 0 ∨ qs.screen.height - qs.statusHeight ≤ s.y2 ∧ deltaY ≠ 0) ||
  qs.windows.any fun e => !(e.minibuf || e.ptr == s.ptr) && tooSmall qs s deltaX deltaY e

/-- What `window_resize` does to the height of another window. -/
def resizeHeight (s : EditState) (deltaY : Int) (e : EditState) : EditState :=
  if e.y1 = s.y2 then { e with y1 := e.y1 + deltaY } else if e.y2 = s.y2 then { e with y2 := e.y2 + deltaY } else e

/-- What `window_resize` does to the width of another window. -/
def resizeWidth (s : EditState) (deltaX : Int) (e : EditState) : EditState :=
  if e.x1 = s.x2 then { e with x1 := e.x1 + deltaX } else if e.x2 = s.x2 then { e with x2 := e.x2 + deltaX } else e

/-- What `window_resize` does to another window. -/
def resizeOther (qs : QEmacsState) (s : EditState) (deltaX deltaY : Int) (e : EditState) : EditState :=
  computeClientArea qs (resizeWidth s deltaX (resizeHeight s deltaY e))

/-- `window_resize`. -/
def windowResize (qs : QEmacsState) (s : WindowPtr) (targetW targetH : Int) : Except Fault QEmacsState := do
  let w ← qs.deref s
  if resizeRefused qs w targetW targetH then .ok qs
  else
    .ok { qs with
      windows := qs.windows.map fun e =>
        if e.ptr = s then computeClientArea qs { e with x2 := e.x1 + targetW, y2 := e.y1 + targetH }
        else if e.minibuf then e
        else resizeOther qs w (targetW - (w.x2 - w.x1)) (targetH - (w.y2 - w.y1)) e }

/-- The first window, on the buffer `*scratch*`, laid out by `do_refresh` once the screen is known. -/
def startup (screen : QEditScreen) (hideStatus : Bool) : QEmacsState :=
  let unlaid : QEditScreen := { width := 0, height := 0, tty := false, statusLineHeight := 0, modeLineHeight := 0 }
  let qs : QEmacsState :=
    { screen := unlaid, windows := [], activeWindow := none, width := 0, height := 0, statusHeight := 0, modeLineHeight := 0
      contentHeight := 0, separatorWidth := 0, borderWidth := 0, hideStatus := hideStatus, nextPtr := 0 }
  doRefresh { editNew qs 0 0 0 0 0 { modeline := true } with screen := screen }

/-- A command that changes the layout, on the window at an address. -/
inductive LayoutCommand where
  | split (s : WindowPtr) (horiz : Bool)
  | other (s : WindowPtr)
  | delete (s : WindowPtr) (force : Bool)
deriving DecidableEq, Repr

def LayoutCommand.run (qs : QEmacsState) : LayoutCommand → Except Fault QEmacsState
  | .split s horiz => doSplitWindow qs s horiz
  | .other s => doOtherWindow qs s
  | .delete s force => doDeleteWindow qs s force

/-- A sequence of commands, from left to right. -/
def runLayout (qs : QEmacsState) : List LayoutCommand → Except Fault QEmacsState
  | [] => .ok qs
  | c :: cs => (c.run qs).bind fun qs => runLayout qs cs

/-- A command that changes the sizes of windows. -/
inductive SizeCommand where
  | layout (c : LayoutCommand)
  | resize (s : WindowPtr) (targetW targetH : Int)
deriving DecidableEq, Repr

def SizeCommand.run (qs : QEmacsState) : SizeCommand → Except Fault QEmacsState
  | .layout c => c.run qs
  | .resize s targetW targetH => windowResize qs s targetW targetH

/-- A sequence of such commands, from left to right. -/
def runSizes (qs : QEmacsState) : List SizeCommand → Except Fault QEmacsState
  | [] => .ok qs
  | c :: cs => (c.run qs).bind fun qs => runSizes qs cs

end Hoe
