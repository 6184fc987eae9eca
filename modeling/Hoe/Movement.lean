import Hoe.Redisplay

/-!
# Moving over the display

The commands of qe.c that look for a place on the display: `text_move_up_down`, `text_scroll_up_down` and `center_cursor`, with the
functions that the cells are offered to. The display is that of a `TextMode`, and again the loops take as many rounds as they are
given.
-/

namespace Hoe

/-- `MoveContext`. -/
structure MoveContext where
  yd : Int
  xd : Int
  xdmin : Nat
  offsetd : Int
deriving DecidableEq, Repr

/-- `down_cursor_func`. -/
def downCursorFunc : CursorFunc MoveContext := fun m _ c lineNum x _ _ =>
  if (lineNum : Int) = m.yd then (if (x - m.xd).natAbs < m.xdmin then { m with xdmin := (x - m.xd).natAbs, offsetd := c.offset1 } else m, false)
  else (m, decide (m.yd < lineNum))

/-- `ScrollContext`. -/
structure ScrollContext where
  yFound : Int
  offsetFound : Int
  dir : Int
  offsetc : Int
deriving DecidableEq, Repr

/-- `scroll_cursor_func`, on a display of this height. -/
def scrollCursorFunc (height : Int) : CursorFunc ScrollContext := fun m _ c _ _ y h =>
  let m' :=
    if m.dir < 0 then if 0 ≤ y ∧ y < m.yFound then { m with yFound := y, offsetFound := c.offset1 } else m
    else if y + h ≤ height ∧ m.yFound < y + h then { m with yFound := y + h, offsetFound := c.offset1 }
    else m
  if c.shows m.offsetc ∧ 0 ≤ y ∧ y + h ≤ height then ({ m' with offsetFound := m.offsetc, yFound := 0x7fffffff * m.dir }, true)
  else (m', false)

namespace TextMode

variable (t : TextMode)

/-- `get_cursor_pos`; `m` is what the stack holds before. -/
def getCursorPos (fuel : Nat) (s : ViewState) (m : CursorContext) : Option CursorContext :=
  (t.display1 cursorFunc .cursor s fuel (displayInit s, m.reset s.offset) s.offsetTop).map (·.2)

/-- A line is put in front, and `y_disp` is chosen by where the cursor was and where it is then. -/
def lineInFront (fuel : Nat) (s : ViewState) (m : CursorContext) : Option (ViewState × CursorContext) :=
  let s := { s with offsetTop := t.backwardOffset (s.offsetTop - 1), yDisp := s.yDisp + m.yc }
  (t.getCursorPos fuel s m).map fun m => ({ s with yDisp := s.yDisp - m.yc }, m)

/-- The loop of `text_move_up_down` that goes on until there is a row above that of the cursor, with whether there is one. -/
def rowAbove (fuel : Nat) : Nat → ViewState → CursorContext → Option (ViewState × CursorContext × Bool)
  | 0, _, _ => none
  | n + 1, s, m =>
    if m.linec ≤ 0 then
      if s.offsetTop ≤ 0 then some (s, m, false) else (t.lineInFront fuel s m).bind fun r => rowAbove fuel n r.1 r.2
    else some (s, m, true)

/-- `text_move_up_down`, in a text of this size. `lastX` is `up_down_last_x`, which counts if the last command was of this kind too;
it is given back with the window. -/
def textMoveUpDown (fuel : Nat) (total : Int) (again : Bool) (lastX : Int) (s : ViewState) (m : CursorContext) (dir : Int) :
    Option (ViewState × Int) :=
  let lastX := if again then lastX else -1
  (t.getCursorPos fuel s m).bind fun m =>
    match m.xc with
    | none => some (s, lastX)
    | some xc =>
      let lastX := if lastX = -1 then xc else lastX
      (if dir < 0 then t.rowAbove fuel fuel s m else some (s, m, true)).bind fun r =>
        if r.2.2 then
          let c : MoveContext := ⟨r.2.1.linec + dir, lastX, 0x7fffffff, if 0 < dir then total else 0⟩
          (t.display1 downCursorFunc .cursor r.1 fuel (displayInit r.1, c) r.1.offsetTop).map fun d =>
            ({ r.1 with offset := d.2.offsetd }, lastX)
        else some (r.1, lastX)

/-- The loop of `perform_scroll_up_down` that puts lines in front, one at least. -/
def linesInFront : Nat → ViewState → Option ViewState
  | 0, _ => none
  | fuel + 1, s =>
    let s :=
      if s.offsetTop ≤ 0 then { s with yDisp := 0 }
      else
        let offset := t.backwardOffset (s.offsetTop - 1)
        let d := t.textDisplay (fun (m : Unit) _ _ _ _ _ _ => (m, false)) s ({ displayInit s with y := 0 }, ()) offset
        { s with offsetTop := offset, yDisp := s.yDisp - d.1.y }
    if 0 < s.yDisp then linesInFront fuel s else some s

/-- `perform_scroll_up_down`. -/
def performScrollUpDown (fuel : Nat) (s : ViewState) (h : Int) : Option ViewState :=
  let dir : Int := if h < 0 then -1 else 1
  let s := { s with yDisp := s.yDisp - h }
  (if 0 < s.yDisp then t.linesInFront fuel s else some s).bind fun s =>
    let c : ScrollContext := ⟨0x7fffffff * dir, s.offset, -dir, s.offset⟩
    (t.display1 (scrollCursorFunc s.height) .cursorScreen s fuel (displayInit s, c) s.offsetTop).map fun d =>
      { s with offset := d.2.offsetFound }

/-- `text_scroll_up_down`, with the height of a line of the default style. -/
def textScrollUpDown (fuel : Nat) (lineHeight : Int) (s : ViewState) (dir : Int) : Option ViewState :=
  let h := s.height.tdiv lineHeight - 1
  t.performScrollUpDown fuel s (dir * ((if h < 1 then 1 else h) * lineHeight))

/-- `center_cursor`. -/
def centerCursor (fuel : Nat) (s : ViewState) (m : CursorContext) : Option ViewState :=
  (t.getCursorPos fuel s m).bind fun m =>
    match m.xc with
    | none => some s
    | some _ => t.performScrollUpDown fuel s (-(s.height.tdiv 2 - m.yc))

end TextMode

end Hoe
