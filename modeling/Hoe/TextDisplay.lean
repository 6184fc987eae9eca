import Hoe.Chars
import Hoe.Layout

/-!
# The display of a line of text

`text_display` of qe.c: the characters of a line of a buffer are displayed one after the other, each with its offsets, and laid out
on rows. The bidirectional display is off, and each glyph is one column wide. The hex mode is that of a text.
-/

namespace Hoe

namespace TextDisplay

open Layout (CharCall CursorCall Setting displayBol displayChars displayEol)

/-- The fields of `EditState` that the display of a line reads, and what `g_line_num_mode` and the charset of the screen are. A
tab has a width, and the text is moved to the left only, if at all. -/
structure EditView where
  wrap : WrapType
  width : Nat
  width_pos : 1 ≤ width
  width_le : width ≤ maxScreenWidth
  xDisp : Int
  xDisp_le : xDisp ≤ 0
  tabSize : Nat
  tabSize_pos : 1 ≤ tabSize
  lineNumbers : Bool
  prompt : List Nat
  showTabs : Bool
  utf8Screen : Bool
  showSelection : Bool
  mark : Int
  offset : Int
deriving DecidableEq

/-- What `display_init` sets. The mark of an end of a line is one column wide. -/
def EditView.setting (e : EditView) : Setting where
  wrap := e.wrap
  width := e.width - 1
  eolWidth := 1
  tabWidth := e.tabSize
  tabWidth_pos := e.tabSize_pos
  xDisp := e.xDisp
  hexMode := some false
  windowHexMode := false
  hexNibble := 0
  showSelection := e.showSelection
  mark := e.mark
  offset := e.offset
  glyphWidth := fun _ => 1

/-- The display state of `display_init`, when rows with some calls are above. -/
def displayInit (lineNum : Nat) (calls : List CursorCall) : Layout.DisplayState where
  x := 0
  lineNum := lineNum
  curHexMode := false
  fragments := []
  lastWordSpace := false
  wordIndex := 0
  arrays := ⟨fun _ => 0, fun _ => (0, 0), fun _ => 0, fun _ => false⟩
  lineIndex := 0
  fragment := []
  lastSpace := false
  lastStyle := 0
  rows := []
  calls := calls

/-- The digits of a number in a base, with what pads them in front to a width. -/
def padded (pad width : Nat) (digits : List Char) : List Nat :=
  List.replicate (width - digits.length) pad ++ digits.map Char.toNat

/-- The calls of `display_printf`: the offsets are those of the first one. -/
def printfChars (offset1 offset2 : Int) : List Nat → List CharCall
  | [] => []
  | c :: cs => ⟨offset1, offset2, c, false⟩ :: cs.map fun c => ⟨-1, -1, c, false⟩

/-- The calls for what is in front of the text: the number of the line, and the prompt. -/
def bolChars (e : EditView) (lineNum : Nat) (offset : Int) : List CharCall :=
  (if e.lineNumbers then printfChars (-1) (-1) (padded space 6 (Nat.toDigits 10 (lineNum + 1)) ++ [space, space]) else []) ++
    if offset = 0 then e.prompt.map fun c => ⟨-1, -1, c, false⟩ else []

/-- The calls for a character, which may be colored. -/
def charCalls (e : EditView) (offset0 offset : Int) (c colored : Nat) : List CharCall :=
  if c < space ∧ c ≠ tab then printfChars offset0 offset [0x5e, 0x40 + c]
  -- currently, we cannot display these chars
  else if 0x10000 ≤ c then printfChars offset0 offset (0x5c :: 0x55 :: padded 0x30 8 (Nat.toDigits 16 c))
  else if 128 ≤ c ∧ c < 128 + 32 ∨ e.utf8Screen = false ∧ 256 ≤ c then
    printfChars offset0 offset (0x5c :: 0x75 :: padded 0x30 4 (Nat.toDigits 16 c))
  else if c = tab ∧ e.showTabs then printfChars offset0 offset (0x5e :: List.replicate 7 0x2d)
  else if c = space ∧ e.showTabs then printfChars offset0 offset [0x2e]
  else [⟨offset0, offset, colored, false⟩]

/-- The loop of `text_display`, `n` turns at most: the character at an index, from the offset on. -/
def displayLine (e : EditView) (r : Reader) (coloredChars : List Nat) :
    Nat → Nat → Int → Layout.DisplayState → Option (Layout.DisplayState × Int)
  | 0, _, _, _ => none
  | n + 1, charIndex, offset, s =>
    if r.total ≤ offset then (displayEol e.setting s offset (offset + 1)).map fun s => (s, -1)
    else
      let c := (r.nextc offset).1
      let next := (r.nextc offset).2
      if c = newline then (displayEol e.setting s offset next).map fun s => (s, next)
      else
        (displayChars e.setting (charCalls e offset next c (coloredChars.getD charIndex c)) s).bind
          (displayLine e r coloredChars n (charIndex + 1) next)

/-- `text_display`, with what `get_colorized_line` found. -/
def textDisplay (e : EditView) (r : Reader) (lineNum : Nat) (coloredChars : List Nat) (s : Layout.DisplayState) (offset : Int) :
    Option (Layout.DisplayState × Int) :=
  (displayChars e.setting (bolChars e lineNum offset) (displayBol e.setting s)).bind (displayLine e r coloredChars r.turns 0 offset)

end TextDisplay

end Hoe
