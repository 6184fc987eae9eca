import Hoe.Chars
import Hoe.Lib.Splice
import Hoe.Lib.Vt
import Hoe.Keys

/-!
# The screen

The display driver of tty.c, and the clip rectangle of display.c.
-/

namespace Hoe

/-!
## The terminal display

The display driver of `tty.c`. What is drawn goes to an array of cells, row after row; `term_flush` compares the rows that
were drawn on with what the terminal has, and prints those that differ.
-/

open Splice

/-- A cell of the screen: `ch` has 16 bits, the colours 8. -/
structure TTYChar where
  ch : Nat
  bgcolor : Nat
  fgcolor : Nat
deriving DecidableEq, Repr

/-- The display driver's state, with the size and the clip rectangle of the screen it drives, which may end in front of it. The
cells stand row after row. -/
structure TTYState where
  width : Nat
  height : Nat
  clipX1 : Nat
  clipY1 : Nat
  clipX2 : Int
  clipY2 : Int
  oldScreen : List TTYChar
  screen : List TTYChar
  lineUpdated : List Bool
  cursorX : Nat
  cursorY : Nat
deriving DecidableEq, Repr

/-- `tty_state` before the first resize. -/
def TTYState.zero : TTYState :=
  { width := 0, height := 0, clipX1 := 0, clipY1 := 0, clipX2 := 0, clipY2 := 0, oldScreen := [], screen := [], lineUpdated := []
    cursorX := 0, cursorY := 0 }

/-! ### Colours -/

/-- `QERGB`. -/
def qergb (r g b : Nat) : Nat := 0xff <<< 24 ||| r <<< 16 ||| g <<< 8 ||| b

/-- `QECOLOR_XOR`. -/
def qecolorXor : Nat := 1

/-- `tty_colors`. -/
def ttyColors : List Nat :=
  [qergb 0x00 0x00 0x00, qergb 0xff 0x00 0x00, qergb 0x00 0xff 0x00, qergb 0xff 0xff 0x00,
    qergb 0x00 0x00 0xff, qergb 0xff 0x00 0xff, qergb 0x00 0xff 0xff, qergb 0xff 0xff 0xff]

/-- `color_dist`. -/
def colorDist (c1 c2 : Nat) : Nat :=
  let channel (shift : Nat) : Nat := (((c1 >>> shift &&& 0xff : Nat) : Int) - (c2 >>> shift &&& 0xff : Nat)).natAbs
  channel 0 + 2 * channel 8 + channel 16

/-- One round of the loop of `get_tty_color`, over the nearest colour so far with its distance. -/
def nearer (color : Nat) (best : Nat × Nat) (c : Nat × Nat) : Nat × Nat :=
  if colorDist color c.1 < best.2 then (c.2, colorDist color c.1) else best

/-- `get_tty_color`: the number of the first of the nearest colours. -/
def getTtyColor (color : Nat) : Nat := (ttyColors.zipIdx.foldl (nearer color) (0, 0x7fffffff)).1

/-! ### Drawing -/

/-- `term_glyph_width`. -/
def termGlyphWidth (ucs : Nat) : Nat :=
  if ucs < 0x900 then 1
  else if 0x1100 ≤ ucs ∧ ucs ≤ 0x115f ∨
      0x2e80 ≤ ucs ∧ ucs ≤ 0xa4cf ∧ ucs &&& (0xffffffff - 0x0011) ≠ 0x300a ∧ ucs ≠ 0x303f ∨
      0xac00 ≤ ucs ∧ ucs ≤ 0xd7a3 ∨ 0xf900 ≤ ucs ∧ ucs ≤ 0xfaff ∨ 0xfe30 ≤ ucs ∧ ucs ≤ 0xfe6f ∨
      0xff00 ≤ ucs ∧ ucs ≤ 0xff5f ∨ 0xffe0 ≤ ucs ∧ ucs ≤ 0xffe6 then 2
  else 1

/-- Change `n` cells from `ptr` on, one after the other. -/
def changeCells (f : TTYChar → TTYChar) : Nat → List TTYChar → Nat → List TTYChar
  | 0, cells, _ => cells
  | n + 1, cells, ptr => changeCells f n (cells.modify ptr f) (ptr + 1)

/-- Change the `w` cells at `ptr` in each of `h` rows, `wrap` cells apart. -/
def changeRows (f : TTYChar → TTYChar) (w wrap : Nat) : Nat → List TTYChar → Nat → List TTYChar
  | 0, cells, _ => cells
  | h + 1, cells, ptr => changeRows f w wrap h (changeCells f w cells ptr) (ptr + w + wrap)

/-- Mark the rows of a rectangle. -/
def markLines (y1 : Nat) : Nat → List Bool → List Bool
  | 0, lines => lines
  | h + 1, lines => markLines (y1 + 1) h (lines.set y1 true)

/-- What a fill does to a cell: the exclusive or turns its colours round, any other colour leaves a space on it. -/
def fillCell (color : Nat) (c : TTYChar) : TTYChar :=
  if color = qecolorXor then { c with bgcolor := c.bgcolor ^^^ 7, fgcolor := c.fgcolor ^^^ 7 }
  else { ch := 0x20, bgcolor := getTtyColor color, fgcolor := 7 }

/-- A character put on a cell: the background stays. -/
def inkCell (fgcolor ch : Nat) (c : TTYChar) : TTYChar := { c with fgcolor := fgcolor, ch := ch % 0x10000 }

namespace TTYState

/-- `tty_resize`, to a screen of the given size. -/
def ttyResize (ts : TTYState) (width height : Nat) : TTYState :=
  { ts with
    width := width, height := height
    clipX1 := 0, clipY1 := 0, clipX2 := width, clipY2 := height
    oldScreen := List.replicate (width * height) { ch := 0, bgcolor := 0, fgcolor := 0 }
    screen := List.replicate (width * height) { ch := 0x2020, bgcolor := 0x20, fgcolor := 0x20 }
    lineUpdated := List.replicate height true }

/-- `term_cursor_at`. -/
def termCursorAt (ts : TTYState) (x1 y1 : Nat) : TTYState := { ts with cursorX := x1, cursorY := y1 }

/-- `term_fill_rectangle`. -/
def termFillRectangle (ts : TTYState) (x1 y1 w h color : Nat) : TTYState :=
  { ts with
    lineUpdated := markLines y1 h ts.lineUpdated
    screen := changeRows (fillCell color) w (ts.width - w) h ts.screen (y1 * ts.width + x1) }

/-- The left clip of `term_draw_text`: leave out the characters before the clip rectangle, with spaces for what the last of them
has inside. The result has the column and the characters that are left. -/
def leftClip (ts : TTYState) (fgcolor ptr : Nat) : List Nat → Int → List TTYChar × Nat × Int × List Nat
  | [], x => (ts.screen, ptr, x, [])
  | cc :: str, x =>
    let x := x + termGlyphWidth cc
    if ts.clipX1 ≤ x then
      let n := (min x ts.clipX2 - ts.clipX1).toNat
      (changeCells (inkCell fgcolor 0x20) n ts.screen ptr, ptr + n, x, str)
    else leftClip ts fgcolor ptr str x

/-- The loop of `term_draw_text`: a character behind the clip rectangle ends it, and a wide one takes a second cell. -/
def drawChars (clipX2 : Int) (fgcolor : Nat) : List Nat → Int → Nat → List TTYChar → List TTYChar
  | [], _, _, cells => cells
  | cc :: str, x, ptr, cells =>
    let w := termGlyphWidth cc
    if clipX2 < x + w then cells
    else drawChars clipX2 fgcolor str (x + w) (ptr + 1 + (w - 1))
      (changeCells (inkCell fgcolor 0xffff) (w - 1) (cells.modify ptr (inkCell fgcolor cc)) (ptr + 1))

/-- `term_draw_text`. -/
def termDrawText (ts : TTYState) (x y : Int) (str : List Nat) (color : Nat) : TTYState :=
  if y < ts.clipY1 ∨ ts.clipY2 ≤ y ∨ ts.clipX2 ≤ x then ts else
  let fgcolor := getTtyColor color
  let row := y.toNat * ts.width
  let start :=
    if x < ts.clipX1 then ts.leftClip fgcolor (row + ts.clipX1) str x
    else (ts.screen, row + x.toNat, x, str)
  { ts with
    lineUpdated := ts.lineUpdated.set y.toNat true
    screen := drawChars ts.clipX2 fgcolor start.2.2.2 start.2.2.1 start.2.1 start.1 }

/-- A row of the screen. -/
def row (ts : TTYState) (y : Nat) : List TTYChar := slice ts.screen (y * ts.width) ts.width

/-- A row as it was when it was printed last. -/
def oldRow (ts : TTYState) (y : Nat) : List TTYChar := slice ts.oldScreen (y * ts.width) ts.width

end TTYState

/-! ### Flushing -/

/-- What is printed for a character: no escape code and no invalid one. -/
def displayed (cc : Nat) : List Byte := if cc < 32 ∨ 128 ≤ cc ∧ cc < 128 + 32 then [0x2e] else unicodeToCharset cc .latin1

/-- What `term_flush` has while it goes over the rows: the state, the colours it printed last (-1 for none), and the output. -/
structure Flushing where
  ts : TTYState
  fgcolor : Int
  bgcolor : Int
  out : List Byte

namespace Flushing

/-- One cell of a row: the colours when they change (a space shows no foreground), and the character, unless the cell is the second
one of a wide character. -/
def flushCell (s : Flushing) (c : TTYChar) : Flushing :=
  if c.ch = 0xffff then s
  else if s.fgcolor ≠ c.fgcolor ∧ c.ch ≠ 0x20 ∨ s.bgcolor ≠ c.bgcolor then
    { s with
      fgcolor := c.fgcolor, bgcolor := c.bgcolor
      out := s.out ++ Vt.colors (30 + c.fgcolor) (40 + c.bgcolor) ++ displayed c.ch }
  else { s with out := s.out ++ displayed c.ch }

/-- Take the mark off a row. -/
def unmark (s : Flushing) (y : Nat) : Flushing := { s with ts := { s.ts with lineUpdated := s.ts.lineUpdated.set y false } }

/-- Print a row, all of it. -/
def printLine (s : Flushing) (y : Nat) : Flushing :=
  (s.ts.row y).foldl flushCell { s with out := s.out ++ Vt.position (y + 1) 1 }

/-- Copy a row to what the terminal has. -/
def keepLine (s : Flushing) (y : Nat) : Flushing :=
  { s with ts := { s.ts with oldScreen := overwriteAt s.ts.oldScreen (y * s.ts.width) (s.ts.row y) } }

/-- One row: nothing is printed when the row was not drawn on, or the terminal has it already. -/
def flushLine (s : Flushing) (y : Nat) : Flushing :=
  if s.ts.lineUpdated.getD y false = false then s
  else if s.ts.row y = s.ts.oldRow y then s.unmark y
  else ((s.unmark y).printLine y).keepLine y

end Flushing

/-- `term_flush`: the state behind it and the bytes it prints. -/
def TTYState.termFlush (ts : TTYState) : TTYState × List Byte :=
  let s := (List.range ts.height).foldl Flushing.flushLine { ts := ts, fgcolor := -1, bgcolor := -1, out := [] }
  (s.ts, s.out ++ Vt.position (ts.cursorY + 1) (ts.cursorX + 1))

/-! ### A display at work -/

/-- The calls of the display driver. -/
inductive TermCall where
  | fillRectangle (x1 y1 w h color : Nat)
  | drawText (x y : Int) (str : List Nat) (color : Nat)
  | cursorAt (x1 y1 : Nat)
  | flush
deriving DecidableEq, Repr

/-- The driver and the terminal that interprets what it prints. -/
structure Display where
  ts : TTYState
  terminal : Vt.Terminal

namespace Display

/-- One call. -/
def call (d : Display) : TermCall → Display
  | .fillRectangle x1 y1 w h color => { d with ts := d.ts.termFillRectangle x1 y1 w h color }
  | .drawText x y str color => { d with ts := d.ts.termDrawText x y str color }
  | .cursorAt x1 y1 => { d with ts := d.ts.termCursorAt x1 y1 }
  | .flush => { ts := d.ts.termFlush.1, terminal := d.terminal.feed d.ts.termFlush.2 }

/-- The calls one after the other, on a terminal whose size the driver was told. -/
def run (ts : TTYState) (terminal : Vt.Terminal) (calls : List TermCall) : Display :=
  calls.foldl call { ts := ts.ttyResize terminal.width terminal.height, terminal := terminal }

end Display

/-!
## The clip rectangle

The functions of `display.c` that set the clip rectangle of the screen and draw within it, with the terminal as the display.
-/

/-- `CSSRect`. -/
structure CSSRect where
  x1 : Int
  y1 : Int
  x2 : Int
  y2 : Int
deriving DecidableEq, Repr

namespace TTYState

/-- The clip rectangle. -/
def clip (ts : TTYState) : CSSRect := ⟨ts.clipX1, ts.clipY1, ts.clipX2, ts.clipY2⟩

/-- `set_clip_rectangle`. -/
def setClipRectangle (ts : TTYState) (r : CSSRect) : TTYState :=
  { ts with
    clipX1 := (if r.x1 < 0 then 0 else r.x1).toNat
    clipY1 := (if r.y1 < 0 then 0 else r.y1).toNat
    clipX2 := if (ts.width : Int) < r.x2 then ts.width else r.x2
    clipY2 := if (ts.height : Int) < r.y2 then ts.height else r.y2 }

/-- `push_clip_rectangle`, with the old rectangle. -/
def pushClipRectangle (ts : TTYState) (r : CSSRect) : CSSRect × TTYState :=
  (ts.clip,
    { ts with
      clipX1 := (if r.x1 < ts.clipX1 then (ts.clipX1 : Int) else r.x1).toNat
      clipY1 := (if r.y1 < ts.clipY1 then (ts.clipY1 : Int) else r.y1).toNat
      clipX2 := if ts.clipX2 < r.x2 then ts.clipX2 else r.x2
      clipY2 := if ts.clipY2 < r.y2 then ts.clipY2 else r.y2 })

/-- `fill_rectangle`. -/
def fillRectangle (ts : TTYState) (x1 y1 w h : Int) (color : Nat) : TTYState :=
  let x2 := wrapInt (x1 + w)
  let y2 := wrapInt (y1 + h)
  -- quick clip rejection
  if x2 ≤ ts.clipX1 ∨ y2 ≤ ts.clipY1 ∨ ts.clipX2 ≤ x1 ∨ ts.clipY2 ≤ y1 then ts
  else
    let x2 := if ts.clipX2 < x2 then ts.clipX2 else x2
    let y2 := if ts.clipY2 < y2 then ts.clipY2 else y2
    let x1 := if x1 < ts.clipX1 then (ts.clipX1 : Int) else x1
    let y1 := if y1 < ts.clipY1 then (ts.clipY1 : Int) else y1
    -- rejection if zero size
    if x2 ≤ x1 ∨ y2 ≤ y1 then ts
    else ts.termFillRectangle x1.toNat y1.toNat (x2 - x1).toNat (y2 - y1).toNat color

end TTYState

/-- A call that changes the screen, its clip rectangle or its size. -/
inductive ScreenCall where
  | resize (width height : Nat)
  | setClip (r : CSSRect)
  | pushClip (r : CSSRect)
  | fillRectangle (x1 y1 w h : Int) (color : Nat)
  | drawText (x y : Int) (str : List Nat) (color : Nat)
deriving DecidableEq, Repr

/-- The call. -/
def ScreenCall.run (ts : TTYState) : ScreenCall → TTYState
  | .resize width height => ts.ttyResize width height
  | .setClip r => ts.setClipRectangle r
  | .pushClip r => (ts.pushClipRectangle r).2
  | .fillRectangle x1 y1 w h color => ts.fillRectangle x1 y1 w h color
  | .drawText x y str color => ts.termDrawText x y str color

/-- The calls one after the other. -/
def runScreen (ts : TTYState) (calls : List ScreenCall) : TTYState := calls.foldl ScreenCall.run ts

/-! ## The keys of the terminal

`tty_read_handler` of tty.c, which is called when a byte can be read from the terminal. A key that is not one character comes as
several bytes, and the state says how far the handler is in them.

The code of a key is taken as a number without a sign: a negative one is from `2 ^ 31` on, and neither is in the range of the special
keys.
-/

/-- `InputState`. -/
inductive InputState where
  | norm
  | esc
  | csi
  | esc2
deriving DecidableEq, Repr

/-- The fields of `TTYState` for the input. `utf8_index` is zero from the start, and nothing sets it to another value. -/
structure TTYInput where
  inputState : InputState
  inputParam : BitVec 32
  utf8State : Int
  utf8Index : Nat
  buf : Vector Byte 10
  index_zero : utf8Index = 0

/-- `tty_state`, as it is when the program begins. -/
def TTYInput.init : TTYInput where
  inputState := .norm
  inputParam := 0
  utf8State := 0
  utf8Index := 0
  buf := Vector.replicate 10 0
  index_zero := rfl

/-- `KEY_HOME`. -/
def keyHome : Nat := keyEsc1 7

/-- `KEY_END`. -/
def keyEnd : Nat := keyEsc1 8

/-- `KEY_SHIFT_TAB`. -/
def keyShiftTab : Nat := 0xe404

/-- The key of a control sequence that ends with a character. -/
def csiKey (param : BitVec 32) (ch : Nat) : Nat :=
  if ch = 0x7e then keyEsc1 param.toNat
  else if ch = 0x48 then keyHome
  else if ch = 0x46 then keyEnd
  else if ch = 0x5a then keyShiftTab
  -- the arrows with control of xterm
  else if param = 5 ∧ 0x41 ≤ ch ∧ ch ≤ 0x44 then keyEsc1 (ch + 0x20)
  else keyEsc1 ch

namespace TTYInput

variable (s : TTYInput)

/-- The states of the handler, with the key of the event that it makes, if it makes one. There is no result where `isdigit` is called
on what is not a byte. -/
def decoded (ch : Nat) : Option (TTYInput × Option Nat) :=
  match s.inputState with
  | .norm => if ch = keyEsc then some ({ s with inputState := .esc }, none) else some (s, some ch)
  | .esc =>
    if ch = 0x5b then some ({ s with inputState := .csi, inputParam := 0 }, none)
    else if ch = 0x4f then some ({ s with inputState := .esc2 }, none)
    else some ({ s with inputState := .norm }, some (keyMeta ch))
  | .csi =>
    if 0x100 ≤ ch then none
    else if isDigit ch then some ({ s with inputParam := s.inputParam * 10 + BitVec.ofNat 32 ch - 0x30 }, none)
    else some ({ s with inputState := .norm }, some (csiKey s.inputParam ch))
  | .esc2 => some ({ s with inputState := .norm }, if 0x50 ≤ ch ∧ ch ≤ 0x53 then some (keyF1 + ch - 0x50) else none)

/-- A byte is read to its place. -/
def read (b : Byte) : TTYInput :=
  { s with buf := s.buf.set s.utf8Index b (by rw [s.index_zero]; decide) }

/-- `tty_read_handler` with the charset of the screen, on a byte. -/
def ttyReadHandler (charset : Charset) (b : Byte) : Option (TTYInput × Option Nat) :=
  let s := s.read b
  match charset with
  | .utf8 =>
    if s.utf8State = 0 then s.decoded (utf8Decode s.buf.toList).1
    else some ({ s with utf8State := utf8Length (s.buf.get 0) - 1, utf8Index := 0, index_zero := rfl }, none)
  | _ => s.decoded (s.buf.get 0)

/-- The handler on one byte after the other, with the event of each. -/
def ttyRead (charset : Charset) (s : TTYInput) : List Byte → Option (TTYInput × List (Option Nat))
  | [] => some (s, [])
  | b :: bs =>
    (s.ttyReadHandler charset b).bind fun r => (ttyRead charset r.1 bs).map fun q => (q.1, r.2 :: q.2)

end TTYInput

end Hoe
