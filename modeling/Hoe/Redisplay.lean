import Mathlib.Data.List.Basic

/-!
# Redisplay

The rows that are kept of a window, and the function that lets the cursor be seen.
-/

namespace Hoe

/-!
## The redisplay of a window

What `flush_line` and `generic_text_display` do to draw the rows of a window: a row is laid out as fragments and glyphs, and is
drawn unless the line shadow holds its place and its checksum already. How the rows come about, and the calls of `cursor_func`,
are in the layout of a line. A scan line of the screen is named by the calls that drew it last. The fields `drawn` and `laid` are
read by no function: they keep the row that was last drawn under each number, and how many rows the last redisplay had.
-/

/-- `TextFragment`: eight shorts. -/
structure TextFragment where
  embeddingLevel : UInt16
  width : Int16
  ascent : Int16
  descent : Int16
  style : Int16
  lineIndex : Int16
  len : Int16
  dummy : Int16
deriving DecidableEq, Repr

/-- A short in memory, the low byte first. -/
def shortBytes (s : UInt16) : List UInt8 := [s.toUInt8, (s >>> 8).toUInt8]

/-- A glyph in memory, the low byte first. -/
def glyphBytes (c : UInt32) : List UInt8 := [c.toUInt8, (c >>> 8).toUInt8, (c >>> 16).toUInt8, (c >>> 24).toUInt8]

/-- The 16 bytes of a fragment. -/
def TextFragment.toBytes (f : TextFragment) : List UInt8 :=
  shortBytes f.embeddingLevel ++ shortBytes f.width.toUInt16 ++ shortBytes f.ascent.toUInt16 ++ shortBytes f.descent.toUInt16 ++
    shortBytes f.style.toUInt16 ++ shortBytes f.lineIndex.toUInt16 ++ shortBytes f.len.toUInt16 ++ shortBytes f.dummy.toUInt16

/-- Four bytes as `compute_crc` puts them together. -/
def crcWord (d₀ d₁ d₂ d₃ : UInt8) : UInt32 :=
  (d₀.toUInt32 <<< 24) ||| (d₁.toUInt32 <<< 16) ||| (d₂.toUInt32 <<< 8) ||| d₃.toUInt32

/-- The second loop of `compute_crc`, for the bytes that make no word. -/
def crcRest : List UInt8 → UInt32 → UInt32
  | [], sum => sum
  | d :: data, sum => crcRest data (sum + (d.toUInt32 <<< (8 * (data.length + 1)).toUInt32))

/-- `compute_crc`. -/
def computeCrc : List UInt8 → UInt32 → UInt32
  | d₀ :: d₁ :: d₂ :: d₃ :: data, sum => computeCrc data (sum + crcWord d₀ d₁ d₂ d₃)
  | data, sum => crcRest data sum

/-- `DirType`. -/
inductive DirType where
  | ltr
  | rtl
deriving DecidableEq, Repr

/-- A row as it comes to `flush_line`: the fragments, the glyphs they index, and what else it reads of `DisplayState`. -/
structure RowText where
  fragments : List TextFragment
  lineChars : List UInt32
  base : DirType
  x : Int
  xDisp : Int
  embeddingLevelMax : Nat
  last : Bool
deriving DecidableEq, Repr

/-- A row and where it is laid out: `y` and `line_num`. -/
structure DisplayRow extends RowText where
  y : Int
  lineNum : Nat
deriving DecidableEq, Repr

/-- What stays the same from one redisplay of a window to the next: its place and sizes, and what the styles stand for. -/
structure DisplayContext where
  xleft : Int
  ytop : Int
  windowWidth : Int
  width : Int
  height : Int
  eolWidth : Int
  defaultLineHeight : Int
  bgColor : Int16 → Nat
  fgColor : Int16 → Nat
  font : Int16 → Nat
  fontAscent : Nat → Int
  nonneg : 0 ≤ defaultLineHeight

/-- A call of `fill_rectangle` or of `draw_text`. -/
inductive DrawCall where
  | fillRectangle (x y w h : Int) (color : Nat)
  | drawText (font : Nat) (x y : Int) (str : List UInt32) (color : Nat)
deriving DecidableEq, Repr

/-- The fragments of one embedding level, swapped: every stretch at or above the level is turned round, and the fragment behind
it is passed over. -/
def swapLevel (level : Nat) : List TextFragment → List TextFragment
  | [] => []
  | f :: fs =>
    if level ≤ f.embeddingLevel.toNat then
      let rest := fs.dropWhile fun g => decide (level ≤ g.embeddingLevel.toNat)
      (f :: fs.takeWhile fun g => decide (level ≤ g.embeddingLevel.toNat)).reverse ++ rest.take 1 ++ swapLevel level (rest.drop 1)
    else f :: swapLevel level fs
termination_by fs => fs.length
decreasing_by
  · have := (List.dropWhile_sublist (l := fs) fun g : TextFragment => decide (level ≤ g.embeddingLevel.toNat)).length_le
    simp only [List.length_drop, List.length_cons]
    omega
  · simp

/-- All the levels, from the highest. -/
def swapLevels : Nat → List TextFragment → List TextFragment
  | 0, fs => fs
  | level + 1, fs => swapLevels level (swapLevel (level + 1) fs)

namespace RowText

/-- The fragments in the order they are drawn. -/
def visual (r : RowText) : List TextFragment := swapLevels r.embeddingLevelMax r.fragments

def baseline (r : RowText) : Int := r.fragments.foldl (fun b f => if b < f.ascent.toInt then f.ascent.toInt else b) 0

def maxDescent (r : RowText) : Int := r.fragments.foldl (fun b f => if b < f.descent.toInt then f.descent.toInt else b) 0

/-- `line_height`. -/
def lineHeight (c : DisplayContext) (r : RowText) : Int :=
  if r.fragments.isEmpty then c.defaultLineHeight else r.baseline + r.maxDescent

/-- `x_start`. -/
def xStart (c : DisplayContext) (r : RowText) : Int :=
  match r.base with
  | .rtl => c.windowWidth - r.x
  | .ltr => r.xDisp

/-- The checksum of a row: the fragments, and behind them the glyphs. -/
def crc (r : RowText) : UInt32 := computeCrc (r.lineChars.flatMap glyphBytes) (computeCrc (r.visual.flatMap TextFragment.toBytes) 0)

end RowText

/-- The backgrounds of the fragments from `x` on, and where they end. -/
def fillFragments (c : DisplayContext) (y lineHeight : Int) : List TextFragment → Int → List DrawCall × Int
  | [], x => ([], x)
  | f :: fs, x =>
    let rest := fillFragments c y lineHeight fs (x + f.width.toInt)
    (.fillRectangle x y f.width.toInt lineHeight (c.bgColor f.style) :: rest.1, rest.2)

/-- The texts of the fragments from `x` on. -/
def drawFragments (c : DisplayContext) (lineChars : List UInt32) (y : Int) : List TextFragment → Int → List DrawCall
  | [], _ => []
  | f :: fs, x =>
    .drawText (c.font f.style) x y ((lineChars.drop f.lineIndex.toInt.toNat).take f.len.toInt.toNat) (c.fgColor f.style) ::
      drawFragments c lineChars y fs (x + f.width.toInt)

/-- A mark at the end of a row that goes on in the next one. -/
def eolMark (c : DisplayContext) (x y : Int) (mark : UInt32) : DrawCall :=
  .drawText (c.font 0) x (y + c.fontAscent (c.font 0)) [mark] (c.fgColor 0)

/-- What `flush_line` draws of a row. -/
def DisplayRow.picture (c : DisplayContext) (r : DisplayRow) : List DrawCall :=
  let y := c.ytop + r.y
  let x := c.xleft + r.xStart c
  let x1 := c.xleft + c.width + c.eolWidth
  let backgrounds := fillFragments c y (r.lineHeight c) r.visual x
  -- first display background rectangles
  (if 0 < r.xStart c then [.fillRectangle c.xleft y (r.xStart c) (r.lineHeight c) (c.bgColor 0)] else []) ++
    backgrounds.1 ++
    (if backgrounds.2 < x1 then [.fillRectangle backgrounds.2 y (x1 - backgrounds.2) (r.lineHeight c) (c.bgColor 0)] else []) ++
    -- then display text
    (if 0 < r.xStart c ∧ !r.last ∧ r.base = .rtl then [eolMark c c.xleft y 47] else []) ++
    drawFragments c r.lineChars (y + r.baseline) r.visual x ++
    (if backgrounds.2 < x1 ∧ !r.last ∧ r.base = .ltr then [eolMark c (c.xleft + c.width) y 92] else [])

/-- `QELineShadow`. -/
structure QELineShadow where
  xStart : Int16
  y : Int16
  height : Int16
  crc : UInt32
deriving DecidableEq, Repr

/-- The value of a shadow that was erased with 0xff bytes. -/
def QELineShadow.erased : QELineShadow := ⟨-1, -1, -1, 0xffffffff⟩

/-- `LINE_SHADOW_INCR`. -/
def lineShadowIncr : Nat := 10

/-- The shadow of a row. -/
def DisplayRow.shadow (c : DisplayContext) (r : DisplayRow) : QELineShadow :=
  ⟨Int16.ofInt (r.xStart c), Int16.ofInt r.y, Int16.ofInt (r.lineHeight c), r.crc⟩

/-- The test of `flush_line`: no display needed. -/
def QELineShadow.matches (c : DisplayContext) (ls : QELineShadow) (r : DisplayRow) : Bool :=
  decide (ls.y.toInt = r.y ∧ ls.xStart.toInt = r.xStart c ∧ ls.height.toInt = r.lineHeight c ∧ ls.crc = r.crc)

/-- The rows one under the other: `flush_line` adds the height to `y` and one to `line_num`. -/
def layRows (c : DisplayContext) : List RowText → Int → Nat → List DisplayRow
  | [], _, _ => []
  | t :: ts, y, n => { t with y := y, lineNum := n } :: layRows c ts (y + t.lineHeight c) (n + 1)

/-- Where the rows end. -/
def rowsEnd (c : DisplayContext) : List RowText → Int → Int
  | [], y => y
  | t :: ts, y => rowsEnd c ts (y + t.lineHeight c)

/-- The line shadow of a window, and its part of the screen: for each scan line the calls that drew it last. -/
structure WindowDisplay where
  lineShadow : List QELineShadow
  canvas : Int → List DrawCall
  displayInvalid : Bool
  drawn : Nat → Option DisplayRow
  laid : Nat

namespace WindowDisplay

/-- Draw on the scan lines from `y` on. -/
def paint (d : WindowDisplay) (y h : Int) (calls : List DrawCall) : WindowDisplay :=
  { d with canvas := fun z => if y ≤ z ∧ z < y + h then calls else d.canvas z }

/-- Make room in the shadow for a row. -/
def growShadow (d : WindowDisplay) (lineNum : Nat) : WindowDisplay :=
  if d.lineShadow.length ≤ lineNum then
    { d with lineShadow := d.lineShadow ++ List.replicate lineShadowIncr .erased }
  else d

/-- `flush_line` finds the row in the shadow. -/
def skips (c : DisplayContext) (d : WindowDisplay) (r : DisplayRow) : Bool :=
  ((d.growShadow r.lineNum).lineShadow.getD r.lineNum .erased).matches c r

/-- The part of `flush_line` that draws a row. -/
def flushLine (c : DisplayContext) (d : WindowDisplay) (r : DisplayRow) : WindowDisplay :=
  if d.skips c r then d.growShadow r.lineNum
  else
    let d := d.growShadow r.lineNum
    { d.paint r.y (r.lineHeight c) (r.picture c) with
      lineShadow := d.lineShadow.set r.lineNum (r.shadow c)
      drawn := fun i => if i = r.lineNum then some r else d.drawn i }

/-- The shadow of an invalid window is dropped. -/
def clear (d : WindowDisplay) : WindowDisplay :=
  if d.displayInvalid then { d with lineShadow := [], displayInvalid := false, drawn := fun _ => none } else d

/-- The display of `generic_text_display`, from the scan line `yDisp` on. -/
def redisplay (c : DisplayContext) (d : WindowDisplay) (yDisp : Int) (rows : List RowText) : WindowDisplay :=
  let d := (layRows c rows yDisp 0).foldl (flushLine c) d.clear
  let d := { d with laid := rows.length }
  let y := rowsEnd c rows yDisp
  -- display the remaining region
  if y < c.height then
    { d.paint y (c.height - y) [.fillRectangle c.xleft (c.ytop + y) c.windowWidth (c.height - y) (c.bgColor 0)] with
      lineShadow := d.lineShadow.take rows.length ++ List.replicate (d.lineShadow.length - rows.length) .erased
      drawn := fun i => if i < rows.length then d.drawn i else none }
  else d

/-- Other parts of the editor draw over the window, and invalidate it. -/
def invalidate (d : WindowDisplay) (canvas : Int → List DrawCall) : WindowDisplay :=
  { d with canvas := canvas, displayInvalid := true }

end WindowDisplay

/-!
## Where a window begins

The part of qe.c that chooses where the text of a window begins so that the cursor is on the screen: `cursor_func`, `display1` and
`generic_text_display`. How a mode lays a line out is a parameter (`TextMode`): the rows of the line at an offset, and what
`text_display` and `text_backward_offset` return. The loops take as many rounds as they are given, and end without a result when
these are used up. What is drawn is above.
-/

/-- Offsets that a row shows at `x`, counted from where the row begins. -/
structure TextCell where
  offset1 : Int
  offset2 : Int
  x : Int
  width : Int
deriving DecidableEq, Repr

/-- A row of a line. -/
structure TextRow where
  height : Int
  cells : List TextCell
deriving DecidableEq, Repr

/-- The functions of a mode: the direction and the rows of the line at an offset, what `text_display` returns for it, and
`text_backward_offset`. -/
structure TextMode where
  base : Int → DirType
  rows : Int → List TextRow
  next : Int → Int
  backwardOffset : Int → Int

/-- `CursorContext`: `none` is `NO_CURSOR`. -/
structure CursorContext where
  offsetc : Int
  xc : Option Int
  yc : Int
  basec : DirType
  cursorWidth : Int
  cursorHeight : Int
  linec : Nat
deriving DecidableEq, Repr

/-- The cursor is looked for again. -/
def CursorContext.reset (m : CursorContext) (offset : Int) : CursorContext := { m with offsetc := offset, xc := none }

/-- The fields of `DisplayState` that go down the screen. -/
structure DisplayPos where
  y : Int
  lineNum : Nat
  eod : Bool
deriving DecidableEq, Repr

/-- The fields of `EditState` that say what a window shows; `width` and `eolWidth` are those that `display_init` computes. -/
structure ViewState where
  offset : Int
  offsetTop : Int
  yDisp : Int
  xDispLtr : Int
  xDispRtl : Int
  width : Int
  eolWidth : Int
  height : Int
  wrapTruncate : Bool
deriving DecidableEq, Repr

/-- `DisplayType`. -/
inductive DisplayType where
  | cursor
  | print
  | cursorScreen
deriving DecidableEq, Repr

namespace ViewState

/-- `x_disp` of a direction. -/
def xDisp (s : ViewState) : DirType → Int
  | .ltr => s.xDispLtr
  | .rtl => s.xDispRtl

/-- `x_disp` of a direction is changed. -/
def setXDisp (s : ViewState) (base : DirType) (x : Int) : ViewState :=
  match base with
  | .ltr => { s with xDispLtr := x }
  | .rtl => { s with xDispRtl := x }

end ViewState

/-- The cell shows the offset. -/
def TextCell.shows (c : TextCell) (offset : Int) : Bool := c.offset1 ≤ offset && offset < c.offset2

/-- `cursor_func`, with whether it finds the cursor. -/
def cursorFunc (m : CursorContext) (base : DirType) (c : TextCell) (lineNum : Nat) (x y h : Int) : CursorContext × Bool :=
  if c.shows m.offsetc then
    ({ m with xc := some x, yc := y, basec := base, cursorWidth := c.width, cursorHeight := h, linec := lineNum }, true)
  else (m, false)

/-- The display so far: where it is, and the cursor. -/
abbrev DisplayCursor := DisplayPos × CursorContext

variable {μ : Type}

/-- What `cursor_func` of a display may be: it gets the direction of the line, the cell, the number of the row, `x`, `y` and the
height, and says whether lines below are of no use. -/
abbrev CursorFunc (μ : Type) := μ → DirType → TextCell → Nat → Int → Int → Int → μ × Bool

/-- A cell is offered to `cursor_func`. -/
def offerCell (f : CursorFunc μ) (base : DirType) (xDisp h : Int) (d : DisplayPos × μ) (c : TextCell) : DisplayPos × μ :=
  let r := f d.2 base c d.1.lineNum (xDisp + c.x) d.1.y h
  ({ d.1 with eod := d.1.eod || r.2 }, r.1)

/-- A row: its cells are offered, and the display goes down by its height. -/
def flushRow (f : CursorFunc μ) (base : DirType) (xDisp : Int) (d : DisplayPos × μ) (r : TextRow) : DisplayPos × μ :=
  let d := r.cells.foldl (offerCell f base xDisp r.height) d
  ({ d.1 with y := d.1.y + r.height, lineNum := d.1.lineNum + 1 }, d.2)

/-- No more lines are needed. -/
def DisplayType.done (type : DisplayType) (s : ViewState) (d : DisplayPos) : Bool :=
  match type with
  | .cursor => d.eod
  | .print => s.height ≤ d.y
  | .cursorScreen => d.eod || s.height ≤ d.y

/-- `display_init`. -/
def displayInit (s : ViewState) : DisplayPos := { y := s.yDisp, lineNum := 0, eod := false }

namespace TextMode

variable (t : TextMode)

/-- `text_display` on the line at an offset. -/
def textDisplay (f : CursorFunc μ) (s : ViewState) (d : DisplayPos × μ) (offset : Int) : DisplayPos × μ :=
  (t.rows offset).foldl (flushRow f (t.base offset) (s.xDisp (t.base offset))) d

/-- `display1`, from an offset. -/
def display1 (f : CursorFunc μ) (type : DisplayType) (s : ViewState) : Nat → DisplayPos × μ → Int → Option (DisplayPos × μ)
  | 0, _, _ => none
  | fuel + 1, d, offset =>
    let d := t.textDisplay f s d offset
    if t.next offset < 0 then some d
    else if type.done s d.1 then some d else display1 f type s fuel d (t.next offset)

/-- The first loop of `generic_text_display`: it looks for the cursor on the screen, and moves the top down as long as the lines
above are not seen. -/
def findCursor : Nat → ViewState → DisplayCursor → Int → Option (ViewState × DisplayCursor)
  | 0, _, _, _ => none
  | fuel + 1, s, d, offset =>
    let s := if d.1.y ≤ 0 then { s with offsetTop := offset, yDisp := d.1.y } else s
    let d := t.textDisplay cursorFunc s d offset
    if t.next offset < 0 ∨ s.height ≤ d.1.y ∨ d.2.xc.isSome then some (s, d) else findCursor fuel s d (t.next offset)

/-- The second loop: lines are put in front until the screen is full. -/
def fillScreen (s : ViewState) : Nat → DisplayCursor → Int → Option (DisplayCursor × Int)
  | 0, _, _ => none
  | fuel + 1, d, offset =>
    if d.1.y < s.height ∧ 0 < offset then
      let offset := t.backwardOffset (offset - 1)
      fillScreen s fuel (t.textDisplay cursorFunc s d offset) offset
    else some (d, offset)

/-- The part of `generic_text_display` for a cursor that was not found: it is put at the bottom of the screen. -/
def cursorToBottom (fuel : Nat) (s : ViewState) (m : CursorContext) : Option (ViewState × CursorContext) :=
  let offset := t.backwardOffset s.offset
  let d := t.textDisplay cursorFunc s ({ displayInit s with y := 0 }, m) offset
  let y := if d.2.xc.isSome then d.2.yc + d.2.cursorHeight else 0
  (t.fillScreen s fuel ({ d.1 with y := y }, d.2) offset).map fun r =>
    ({ s with offsetTop := r.2, yDisp := s.height - r.1.1.y }, r.1.2)

/-- The part of `generic_text_display` for a cursor that was found: its row is moved into the screen. -/
def cursorIntoScreen (s : ViewState) (m : CursorContext) : ViewState :=
  if m.yc < 0 then { s with yDisp := s.yDisp - m.yc }
  else if s.height ≤ m.yc + m.cursorHeight then { s with yDisp := s.yDisp + (s.height - (m.yc + m.cursorHeight)) }
  else s

/-- The part of `generic_text_display` that moves the text to the side. -/
def fitColumn (s : ViewState) (m : CursorContext) : ViewState :=
  if s.wrapTruncate then
    let xc := m.xc.getD 0x7fffffff
    let x1 := xc - s.xDisp m.basec
    if 0 ≤ x1 ∧ x1 < s.width - s.eolWidth then s.setXDisp m.basec 0
    else if xc < 0 then s.setXDisp m.basec (s.xDisp m.basec - xc)
    else if s.width ≤ xc then s.setXDisp m.basec (s.xDisp m.basec + (s.width - xc - s.eolWidth))
    else s
  else { s with xDispLtr := 0, xDispRtl := 0 }

/-- `generic_text_display`, with the cursor as the last display finds it; `m` is what the stack holds before. -/
def genericTextDisplay (fuel : Nat) (s : ViewState) (m : CursorContext) : Option (ViewState × DisplayCursor) :=
  let s := if s.offset < s.offsetTop then { s with offsetTop := t.backwardOffset s.offset } else s
  let m := m.reset s.offset
  (t.findCursor fuel s (displayInit s, m) s.offsetTop).bind fun r =>
    let fitted := if r.2.2.xc.isNone then t.cursorToBottom fuel r.1 r.2.2 else some (cursorIntoScreen r.1 r.2.2, r.2.2)
    fitted.bind fun r =>
      let s := fitColumn r.1 r.2
      (t.display1 cursorFunc .print s fuel (displayInit s, r.2.reset s.offset) s.offsetTop).map fun d => (s, d)

end TextMode

end Hoe
