import Hoe.Display
import Mathlib.Data.Int.ModEq

/-!
# The layout of a line

The part of qe.c that lays out a line, with its arrays: `display_char`, `display_printhex`, `display_printf` and `display_eol`, and
what they call: the characters become word fragments, and these fill the arrays of a row, from which the rows are flushed to
`cursor_func`. The arrays are four, which `keep_line_chars` moves one by one; the widths in them, and those of the fragments, are
shorts. What is drawn is left out, with the fonts and the heights of the rows; the text goes from left to right. There is no result
where the code would read what is not there.
-/

namespace Hoe

namespace Layout

open TextDisplay (WrapType maxScreenWidth maxWordSize styleShift styleSel tab space)

/-- What a short keeps of an int. -/
def short (w : Int) : Int := w.bmod (2 ^ 16)

/-! ## The state -/

/-- What the layout reads of the window and of the screen. A tab has a width. -/
structure Setting where
  wrap : WrapType
  width : Int
  eolWidth : Int
  tabWidth : Nat
  tabWidth_pos : 1 ≤ tabWidth
  xDisp : Int
  /-- `hex_mode` of the display state: none when all characters are wanted. -/
  hexMode : Option Bool
  /-- `hex_mode` of the window. -/
  windowHexMode : Bool
  hexNibble : Nat
  showSelection : Bool
  mark : Int
  offset : Int
  glyphWidth : Nat → Nat

/-- A place of the arrays of a fragment: `fragment_chars`, `fragment_offsets` and `fragment_hex_mode`. -/
structure FragmentChar where
  ch : Nat
  offset1 : Int
  offset2 : Int
  hexMode : Bool
deriving DecidableEq, Repr

/-- The arrays of a row: `line_chars`, `line_offsets`, `line_char_widths` and `line_hex_mode`. -/
structure LineArrays where
  chars : Nat → Nat
  offsets : Nat → Int × Int
  widths : Nat → Int
  hexMode : Nat → Bool

/-- A glyph with its attributes. -/
structure Glyph where
  ch : Nat
  offset1 : Int
  offset2 : Int
  width : Int
  hexMode : Bool
deriving DecidableEq, Repr

/-- What the arrays have at an index. -/
def LineArrays.glyph (a : LineArrays) (j : Nat) : Glyph := ⟨a.chars j, (a.offsets j).1, (a.offsets j).2, a.widths j, a.hexMode j⟩

/-- A call of `cursor_func`. -/
structure CursorCall where
  offset1 : Int
  offset2 : Int
  lineNum : Nat
  x : Int
  w : Int
  hexMode : Bool
deriving DecidableEq, Repr

/-- `DisplayState`. The rows that `flush_line` was called for are kept here, and the calls of `cursor_func`. -/
structure DisplayState where
  x : Int
  lineNum : Nat
  curHexMode : Bool
  fragments : List TextDisplay.TextFragment
  lastWordSpace : Bool
  wordIndex : Nat
  arrays : LineArrays
  lineIndex : Nat
  fragment : List FragmentChar
  lastSpace : Bool
  lastStyle : Nat
  rows : List (List Glyph)
  calls : List CursorCall

/-- `display_bol`. -/
def displayBol (e : Setting) (s : DisplayState) : DisplayState :=
  { s with x := e.xDisp, fragment := [], lineIndex := 0, fragments := [], wordIndex := 0, lastWordSpace := false }

/-! ## A row -/

/-- The glyphs at some indices. -/
def LineArrays.glyphs (a : LineArrays) (i n : Nat) : List Glyph := (List.range' i n).map a.glyph

/-- The glyphs of a fragment. -/
def LineArrays.ofFragment (a : LineArrays) (f : TextDisplay.TextFragment) : List Glyph := a.glyphs f.lineIndex f.len

/-- The calls for glyphs from a column on: those in the hex mode that is wanted, between two offsets. -/
def offerGlyphs (e : Setting) (lineNum : Nat) : List Glyph → Int → List CursorCall
  | [], _ => []
  | g :: gs, x =>
    (if (e.hexMode = none ∨ e.hexMode = some g.hexMode) ∧ 0 ≤ g.offset1 ∧ 0 ≤ g.offset2 then
      [⟨g.offset1, g.offset2, lineNum, x, g.width, g.hexMode⟩] else []) ++ offerGlyphs e lineNum gs (x + g.width)

/-- The columns that glyphs take. -/
def columns (gs : List Glyph) : Int := (gs.map (·.width)).sum

/-- `flush_line`. -/
def flushLine (e : Setting) (s : DisplayState) (fragments : List TextDisplay.TextFragment) (offset1 offset2 : Int) : DisplayState :=
  let row := fragments.flatMap s.arrays.ofFragment
  { s with
    rows := s.rows ++ [row]
    calls := s.calls ++ offerGlyphs e s.lineNum row e.xDisp ++
      if 0 ≤ offset1 ∧ 0 ≤ offset2 then [⟨offset1, offset2, s.lineNum, e.xDisp + columns row, e.eolWidth, e.windowHexMode⟩] else []
    lineNum := s.lineNum + 1 }

/-- `memmove` of `n` places to the front of an array. -/
def moveToFront {α : Type} (f : Nat → α) (index n : Nat) : Nat → α := fun j => if j < n then f (j + index) else f j

/-- `keep_line_chars`. -/
def keepLineChars (s : DisplayState) (n : Nat) : DisplayState :=
  let index := s.lineIndex - n
  { s with
    arrays := { s.arrays with
      chars := moveToFront s.arrays.chars index n
      offsets := moveToFront s.arrays.offsets index n
      widths := moveToFront s.arrays.widths index n }
    lineIndex := n }

/-! ## Wrapping -/

/-- The inner loop of `WRAP_LINE`: how much of the last fragment fits into the row, and where the row ends then. At least one
glyph is put on a row. There is no result when a width in front of the fragment would be read. -/
def fitLen (widths : Nat → Int) (lineIndex : Nat) (width : Int) : Nat → Int → Option (Nat × Int)
  | 0, x => if x ≤ width then some (0, x) else none
  | len + 1, x =>
    if x ≤ width then some (len + 1, x)
    else
      let ww := widths (lineIndex + len)
      if len = 0 ∧ x - ww = 0 then some (1, x) else fitLen widths lineIndex width len (x - ww)

/-- One turn of the loop of `WRAP_LINE`: the row is flushed with the part of the last fragment that fits, and the rest of it
begins the next one. With the state is how many glyphs that keeps. -/
def flushRow (e : Setting) (s : DisplayState) : Option (DisplayState × Nat) := do
  let frag ← s.fragments.getLast?
  let fit ← fitLen s.arrays.widths frag.lineIndex e.width frag.len s.x
  let w1 := s.x - fit.2
  let row := s.fragments.dropLast ++ if fit.1 = 0 then [] else [{ frag with len := fit.1, width := short (frag.width - w1) }]
  let rest := frag.len - fit.1
  some ({ flushLine e s row (-1) (-1) with
    fragments := if 0 < rest then [{ frag with width := short w1, lineIndex := 0, len := rest }] else []
    x := if 0 < rest then w1 else 0 }, rest)

/-- The loop of `WRAP_LINE`, `n` turns at most; none when it is not done by then. -/
def wrapLine (e : Setting) : Nat → DisplayState → Option DisplayState
  | 0, s => if e.width < s.x then none else some s
  | n + 1, s => if e.width < s.x then (flushRow e s).bind fun r => wrapLine e n (keepLineChars r.1 r.2) else some s

/-- What `WRAP_WORD` flushes: the words in front of the last one, which begins the next row. With the state is how many glyphs
that keeps. -/
def flushWords (e : Setting) (s : DisplayState) : Option (DisplayState × Nat) := do
  let frag ← s.fragments[s.wordIndex]?
  let index := frag.lineIndex
  let rest := (s.fragments.drop s.wordIndex).map fun f => { f with lineIndex := f.lineIndex - index }
  some ({ flushLine e s (s.fragments.take s.wordIndex) (-1) (-1) with
    fragments := rest
    x := (rest.map (·.width)).sum }, s.lineIndex - index)

/-- What `WRAP_WORD` does. -/
def wrapWord (e : Setting) (s : DisplayState) : Option DisplayState :=
  if e.width < s.x then (flushWords e s).map fun r => { keepLineChars r.1 r.2 with wordIndex := 0 } else some s

/-- The `switch` at the end of `flush_fragment`. A row has no more turns than its last fragment has glyphs, and two more. -/
def wrapRows (e : Setting) (s : DisplayState) : Option DisplayState :=
  match e.wrap with
  | .truncate => some s
  | .line => wrapLine e (((s.fragments.getLast?).map (·.len)).getD 0 + 2) s
  | .word => wrapWord e s

/-! ## A fragment -/

/-- The word start is updated if needed. -/
def updateWord (s : DisplayState) : DisplayState :=
  if 1 ≤ s.fragments.length ∧ s.lastWordSpace ≠ s.lastSpace then
    { s with lastWordSpace := s.lastSpace, wordIndex := s.fragments.length }
  else s

/-- `unicode_to_glyphs`: the glyphs, as many as there is room for, and what is set of `char_to_glyph_pos`. -/
def unicodeToGlyphs (dstSize : Nat) (src : List Nat) : List Nat × List Nat :=
  (src.take dstSize, List.range (min src.length dstSize))

/-- An array with other values from an index on. -/
def writeAt {α : Type} (f : Nat → α) (i : Nat) (values : List α) : Nat → α :=
  fun j => if i ≤ j then (values[j - i]?).getD (f j) else f j

/-- The offsets and the hex mode of a character are stored with its glyph. We suppose that the characters are contiguous. -/
def LineArrays.merge (a : LineArrays) (j : Nat) (c : FragmentChar) : LineArrays :=
  let o := a.offsets j
  { a with
    hexMode := Function.update a.hexMode j c.hexMode
    offsets := Function.update a.offsets j
      (if o.1 = -1 ∨ c.offset1 < o.1 then c.offset1 else o.1, if o.2 = -1 ∨ o.2 < c.offset2 then c.offset2 else o.2) }

/-- The loop over the characters of the fragment, from one on. There is no result when a place of `char_to_glyph_pos` is read that was
not set. -/
def mergeChars (lineIndex : Nat) (charToGlyphPos : List Nat) : Nat → List FragmentChar → LineArrays → Option LineArrays
  | _, [], a => some a
  | i, c :: cs, a => do
    let pos ← charToGlyphPos[i]?
    mergeChars lineIndex charToGlyphPos (i + 1) cs (a.merge (lineIndex + pos) c)

/-- The widths of the glyphs. A single space is displayed for a tab. -/
def measure (e : Setting) (x : Int) (a : LineArrays) (lineIndex nbGlyphs : Nat) : LineArrays × Int :=
  if a.chars lineIndex = tab then
    let w := e.tabWidth - (x - e.xDisp).tmod e.tabWidth
    ({ a with chars := Function.update a.chars lineIndex space, widths := Function.update a.widths lineIndex (short w) }, w)
  else
    let widths := (List.range' lineIndex nbGlyphs).map fun j => short (e.glyphWidth (a.chars j))
    ({ a with widths := writeAt a.widths lineIndex widths }, widths.sum)

/-- The part of `flush_fragment` that adds the fragment to the row. -/
def addFragment (e : Setting) (s : DisplayState) : Option DisplayState := do
  let glyphs := unicodeToGlyphs (maxScreenWidth - s.lineIndex) (s.fragment.map (·.ch))
  let nbGlyphs := glyphs.1.length
  let a ← mergeChars s.lineIndex glyphs.2 0 s.fragment
    { s.arrays with
      chars := writeAt s.arrays.chars s.lineIndex glyphs.1
      offsets := writeAt s.arrays.offsets s.lineIndex (List.replicate nbGlyphs (-1, -1)) }
  let measured := measure e s.x a s.lineIndex nbGlyphs
  some { s with
    fragments := s.fragments ++ [⟨s.lineIndex, nbGlyphs, short measured.2⟩]
    arrays := measured.1
    lineIndex := s.lineIndex + nbGlyphs
    x := s.x + short measured.2 }

/-- `flush_fragment`. -/
def flushFragment (e : Setting) (s : DisplayState) : Option DisplayState :=
  if s.fragment = [] then some s
  else if maxScreenWidth ≤ s.fragments.length then some { s with fragment := [] }
  else if maxScreenWidth ≤ s.lineIndex then some { updateWord s with fragment := [] }
  else ((addFragment e (updateWord s)).bind (wrapRows e)).map fun s => { s with fragment := [] }

/-! ## A character -/

/-- The style of a character, which is another one in the selection. -/
def charStyle (e : Setting) (offset1 : Int) (ch : Nat) : Nat :=
  let style := ch / 2 ^ styleShift
  if e.showSelection ∧ (e.offset ≤ offset1 ∧ offset1 < e.mark ∨ e.mark ≤ offset1 ∧ offset1 < e.offset) then style ||| styleSel
  else style

/-- What is stored of a character. -/
def stored (s : DisplayState) (offset1 offset2 : Int) (ch : Nat) : FragmentChar :=
  -- special patch for selection in hex mode
  if offset1 = offset2 then ⟨ch % 2 ^ styleShift, -1, -1, s.curHexMode⟩ else ⟨ch % 2 ^ styleShift, offset1, offset2, s.curHexMode⟩

/-- The test of `display_char_bidir`: the current fragment is flushed before the character. -/
def breaksBefore (e : Setting) (s : DisplayState) (offset1 : Int) (ch : Nat) : Bool :=
  decide (maxWordSize ≤ s.fragment.length) || (ch % 2 ^ styleShift == tab) ||
    (decide (1 ≤ s.fragment.length) && ((ch % 2 ^ styleShift == space) != s.lastSpace || charStyle e offset1 ch != s.lastStyle))

/-- The character is stored. -/
def storeChar (e : Setting) (s : DisplayState) (offset1 offset2 : Int) (ch : Nat) : DisplayState :=
  { s with
    fragment := s.fragment ++ [stored s offset1 offset2 ch]
    lastSpace := ch % 2 ^ styleShift == space
    lastStyle := charStyle e offset1 ch }

/-- `display_char`. -/
def displayChar (e : Setting) (s : DisplayState) (offset1 offset2 : Int) (ch : Nat) : Option DisplayState :=
  (if breaksBefore e s offset1 ch then flushFragment e s else some s).bind fun s =>
    if ch % 2 ^ styleShift = tab then flushFragment e (storeChar e s offset1 offset2 ch) else some (storeChar e s offset1 offset2 ch)

/-- A call of `display_char`, and what `cur_hex_mode` is then. -/
structure CharCall where
  offset1 : Int
  offset2 : Int
  ch : Nat
  hexMode : Bool
deriving DecidableEq, Repr

/-- The state with the hex mode of the call. -/
def CharCall.at (c : CharCall) (s : DisplayState) : DisplayState := { s with curHexMode := c.hexMode }

/-- The calls one after the other. -/
def displayChars (e : Setting) : List CharCall → DisplayState → Option DisplayState
  | [], s => some s
  | c :: cs, s => (displayChar e (c.at s) c.offset1 c.offset2 c.ch).bind (displayChars e cs)

/-- The digit of a number that `display_printhex` displays at a place. -/
def hexDigit (h n i : Nat) : Nat :=
  let v := h / 2 ^ ((n - i - 1) * 4) % 16
  if 10 ≤ v then v + (0x61 - 10) else v + 0x30

/-- The loop of `display_printhex`, from a place on. -/
def printDigits (e : Setting) (offset1 offset2 : Int) (h n : Nat) : Nat → DisplayState → Option DisplayState
  | 0, s => some s
  | k + 1, s =>
    let i := n - (k + 1)
    (displayChar e s offset1 (if e.hexNibble = i then offset2 else offset1) (hexDigit h n i)).bind
      (printDigits e offset1 offset2 h n k)

/-- `display_printhex`. -/
def displayPrinthex (e : Setting) (s : DisplayState) (offset1 offset2 : Int) (h n : Nat) : Option DisplayState :=
  (printDigits e offset1 offset2 h n n { s with curHexMode := true }).map fun s => { s with curHexMode := false }

/-- The loop of `display_printf`: only the first character has offsets. -/
def printChars (e : Setting) : List Nat → DisplayState → Option DisplayState
  | [], s => some s
  | c :: cs, s => (displayChar e s (-1) (-1) c).bind (printChars e cs)

/-- `display_printf`, with the text that it makes. -/
def displayPrintf (e : Setting) (s : DisplayState) (offset1 offset2 : Int) : List Nat → Option DisplayState
  | [] => some s
  | c :: cs => (displayChar e s offset1 offset2 c).bind (printChars e cs)

/-- `display_eol`. -/
def displayEol (e : Setting) (s : DisplayState) (offset1 offset2 : Int) : Option DisplayState :=
  (flushFragment e s).map fun s => flushLine e s s.fragments offset1 offset2

/-- A call of one of the functions that display something in a line. -/
inductive DisplayCall where
  | char (offset1 offset2 : Int) (ch : Nat)
  | printhex (offset1 offset2 : Int) (h n : Nat)
  | printf (offset1 offset2 : Int) (text : List Nat)
deriving DecidableEq, Repr

/-- The call. -/
def DisplayCall.run (e : Setting) (s : DisplayState) : DisplayCall → Option DisplayState
  | .char offset1 offset2 ch => displayChar e s offset1 offset2 ch
  | .printhex offset1 offset2 h n => displayPrinthex e s offset1 offset2 h n
  | .printf offset1 offset2 text => displayPrintf e s offset1 offset2 text

/-- The calls one after the other. -/
def displayCalls (e : Setting) : List DisplayCall → DisplayState → Option DisplayState
  | [], s => some s
  | c :: cs, s => (c.run e s).bind (displayCalls e cs)

end Layout

end Hoe
