import Hoe.ModeColors
import Hoe.EditCommands

/-!
# Indentation in the C mode

`do_c_indent` of clang.c. It goes up through the lines in front of the current one, each as `get_colorized_line` gives it, and from
the end of each line to its beginning. All these calls share one array of `do_c_indent`, which is not cleared: a cell behind the
newline is what a longer line has left, or what was there at first.
-/

namespace Hoe

/-! ## The array of the caller -/

/-- A line in the array, and the newline that `get_colorized_line` puts behind it. -/
def storeLine (buf line : List Nat) : List Nat := line ++ newline :: buf.drop (line.length + 1)

/-- The loop of `get_colorized_line` as `propagate`, with the array. -/
def propagateArray (colorize : ArrayColorize) (r : Reader) (bufSize : Nat) :
    Nat → Nat → Int → Int → List Nat → (Nat → Nat) → Option (List Nat × (Nat → Nat))
  | 0, _, _, _, buf, states => some (buf, states)
  | n + 1, l, offset, state, buf, states => do
    let line := ebGetLine r (bufSize - 1) offset
    let (buf, state) ← colorize (storeLine buf line.1) line.1.length state
    propagateArray colorize r bufSize n (l + 1) line.2 state buf (Function.update states l (keptState state))

/-- `get_colorized_line` as `getColorizedLine`, with the array: the array, `len` and the states. -/
def getColorizedLineArray (s : ColorizeStates) (colorize : ArrayColorize) (t : Pages) (r : Reader) (bufSize : Nat) (buf : List Nat)
    (offset1 : Int) (lineNum : Nat) : Option (List Nat × Nat × ColorizeStates) := do
  let s := (s.dropInvalid t r.charset).makeRoom lineNum
  let (buf, s) ←
    if lineNum < s.nbValidLines then some (buf, s)
    else do
      let s := s.start
      let (buf, states) ← propagateArray colorize r bufSize (lineNum + 1 - s.nbValidLines) s.nbValidLines
        (ebGotoPos t r (s.nbValidLines - 1) 0) (s.states (s.nbValidLines - 1)) buf s.states
      some (buf, { s with states := states })
  let line := (ebGetLine r (bufSize - 1) offset1).1
  let (buf, state) ← colorize (storeLine buf line) line.length (s.states lineNum)
  some (buf, line.length,
    { s with states := Function.update s.states (lineNum + 1) (keptState state), nbValidLines := lineNum + 2 })

/-! ## The window -/

/-- A window in the C mode: what it has besides, `indent_size`, the states of the lines and the margin, which all windows share. -/
structure CWindow extends Editor where
  indentSize : Nat
  colorize : ColorizeStates
  margin : Margin

namespace CWindow

/-- The text was changed, and `colorize_callback` called. -/
def edited (w : CWindow) (ed : Editor) : CWindow :=
  { w with
    toEditor := ed
    colorize := ((ed.buffer.notes.drop w.buffer.notes.length).map (·.offset)).foldl colorizeCallback w.colorize }

/-- A call of `eb_insert`. -/
def ebInsert (w : CWindow) (offset : Int) (buf : List Byte) : Option CWindow :=
  (w.toEditor.ebInsert offset buf).map w.edited

/-- A call of `eb_delete`. -/
def ebDelete (w : CWindow) (offset size : Int) : Option CWindow := (w.toEditor.ebDelete offset size).map w.edited

/-- A call of `get_colorized_line` with the array: the window, the array and `len`. -/
def getLine (w : CWindow) (buf : List Nat) (offset : Int) (lineNum : Nat) : Option (CWindow × List Nat × Nat) :=
  (getColorizedLineArray w.colorize (cColorizeLine w.margin) w.buffer.toPages w.reader (maxBufSize - 1) buf offset lineNum).map
    fun r => ({ w with colorize := r.2.2 }, r.1, r.2.1)

end CWindow

/-! ## Columns -/

/-- `find_indent1`, from a column on. -/
def findIndent1 (tabSize : Nat) : List Nat → Nat → Nat
  | [], pos => pos
  | c :: cells, pos =>
    if charMask c = '\t'.toNat then findIndent1 tabSize cells (pos + (tabSize - pos % tabSize))
    else if charMask c = ' '.toNat then findIndent1 tabSize cells (pos + 1)
    else pos

/-- `find_pos`, over the cells in front. -/
def findPos (tabSize : Nat) (cells : List Nat) : Nat :=
  cells.foldl (fun pos c => if charMask c = '\t'.toNat then pos + (tabSize - pos % tabSize) else pos + 1) 0

/-! ## The lines above -/

/-- `MAX_STACK_SIZE`. -/
def maxStackSize : Nat := 64

/-- The variables of the loop: the indentation found, that of the last line where an instruction may begin (-1 for none), whether
the end of an instruction was found, how many brackets are open, and whether it looks for an equals sign (`INDENT_FIND_EQ`). -/
structure Indenting where
  pos : Int
  lpos : Int
  eoiFound : Bool
  stackPtr : Nat
  findEq : Bool
deriving DecidableEq

/-- The variables in front of the loop. -/
def Indenting.start : Indenting := { pos := 0, lpos := -1, eoiFound := false, stackPtr := 0, findEq := false }

/-- Where a line is left: to the line above, to `end_parse`, or out of the function. -/
inductive LineStep where
  | prevLine (i : Indenting)
  | endParse (i : Indenting)
  | return
deriving DecidableEq

/-- Where a cell is left: to the cell in front of the place `p`, or the line. -/
inductive CellStep where
  | next (p : Nat) (i : Indenting)
  | leave (step : LineStep)
deriving DecidableEq

/-- From `check_instr` on. -/
def checkInstr (indentSize p : Nat) (i : Indenting) : CellStep :=
  if 0 ≤ i.lpos then .leave (.endParse { i with pos := if i.eoiFound then i.lpos else i.lpos + indentSize })
  else .next p { i with eoiFound := true }

/-- Back to the beginning of the cells in the style of a keyword. -/
def keywordStartsAt (buf : List Nat) : Nat → Nat
  | 0 => 0
  | p + 1 => if styleOf (buf.getD p 0) = qeStyleKeyword then keywordStartsAt buf p else p + 1

/-- `sizeof(buf1)` in `do_c_indent`. -/
def keywordNameSize : Nat := 64

/-- The default case at depth zero. `c` has its style masked out here, so that the part for keywords is never reached. -/
def defaultCell (indentSize : Nat) (buf : List Nat) (pos1 p c : Nat) (i : Indenting) : CellStep :=
  if styleOf c = qeStyleKeyword then
    let start := keywordStartsAt buf p
    let word := (((buf.drop start).take (p + 1 - start)).take (keywordNameSize - 1)).map charMask
    if !i.eoiFound ∧ word ∈ [charsOf "if", charsOf "for", charsOf "while"] then
      .leave (.endParse { i with pos := (pos1 : Int) + indentSize })
    else .next start { i with lpos := pos1 }
  else .next p { i with lpos := pos1 }

/-- One turn of the loop over the cells of a line that has the indentation `pos1`: the cell at `p`. -/
def indentCell (tabSize indentSize : Nat) (buf : List Nat) (pos1 p : Nat) (i : Indenting) : CellStep :=
  let cell := buf.getD p 0
  let c := charMask cell
  if styleOf cell = qeStyleComment ∨ styleOf cell = qeStyleString ∨ styleOf cell = qeStylePreprocess then .next p i
  else if i.findEq then
    if c = '='.toNat then .leave (.endParse { i with pos := i.lpos })
    else if c = ';'.toNat then checkInstr indentSize p i
    else .next p i
  else if c = '}'.toNat then
    if maxStackSize ≤ i.stackPtr then .leave .return
    else checkInstr indentSize p { i with stackPtr := i.stackPtr + 1 }
  else if c = '{'.toNat then
    if i.stackPtr = 0 then
      if i.lpos = -1 then .leave (.endParse { i with pos := (pos1 : Int) + indentSize, eoiFound := true })
      else .next p { i with findEq := true }
    else checkInstr indentSize p { i with stackPtr := i.stackPtr - 1 }
  else if c = ')'.toNat ∨ c = ']'.toNat then
    if maxStackSize ≤ i.stackPtr then .leave .return else .next p { i with stackPtr := i.stackPtr + 1 }
  else if c = '('.toNat ∨ c = '['.toNat then
    if i.stackPtr = 0 then .leave (.endParse { i with pos := (findPos tabSize (buf.take p) : Int) + 1 })
    else .next p { i with stackPtr := i.stackPtr - 1 }
  else if c = ' '.toNat ∨ c = '\t'.toNat ∨ c = newline then .next p i
  else if c = ';'.toNat then if i.stackPtr = 0 then checkInstr indentSize p i else .next p i
  -- a label line is ignored
  else if c = ':'.toNat then .leave (.prevLine i)
  else if i.stackPtr = 0 then defaultCell indentSize buf pos1 p c i
  else .next p i

/-- The loop over the cells of a line in front of the place `p`, `n` turns at most. -/
def indentLine (tabSize indentSize : Nat) (buf : List Nat) (pos1 : Nat) : Nat → Nat → Indenting → LineStep
  | 0, _, i => .prevLine i
  | n + 1, p, i =>
    if p = 0 then .prevLine i
    else
      match indentCell tabSize indentSize buf pos1 (p - 1) i with
      | .next p i => indentLine tabSize indentSize buf pos1 n p i
      | .leave step => step

/-- The loop over the lines above, `n` turns at most, none when it is not done by then: the window, the array, and the variables
behind the loop, if the function goes on. -/
def indentLines : Nat → CWindow → List Nat → Int → Nat → Indenting → Option (CWindow × List Nat × Option Indenting)
  | 0, _, _, _, _, _ => none
  | n + 1, w, buf, offsetl, lineNum, i =>
    if offsetl = 0 then some (w, buf, some i)
    else do
      let lineNum := lineNum - 1
      let offsetl := w.reader.gotoBol (w.reader.prevc offsetl).2
      let (w, buf, len) ← w.getLine buf offsetl lineNum
      match indentLine w.tabSize w.indentSize buf (findIndent1 w.tabSize buf 0) len len i with
      | .prevLine i => indentLines n w buf offsetl lineNum i
      | .endParse i => some (w, buf, some i)
      | .return => some (w, buf, none)

/-! ## The current line -/

/-- What `end_parse` makes of the variables. -/
def Indenting.found (i : Indenting) (indentSize : Nat) : Int :=
  if i.stackPtr = 0 ∧ i.pos = 0 ∧ 0 ≤ i.lpos then if i.eoiFound then i.lpos else i.lpos + indentSize else i.pos

/-- The loop over the cells of the current line, for the special cases that depend on them. -/
def indentCurrent (indentSize : Nat) (eoiFound : Bool) : List Nat → Int → Int
  | [], pos => pos
  | c :: cells, pos =>
    if styleOf c = qeStylePreprocess then 0
    else if c = '}'.toNat ∨ c = ':'.toNat then max (pos - indentSize) 0
    else if c = '{'.toNat ∧ pos = indentSize ∧ ¬eoiFound then 0
    else indentCurrent indentSize eoiFound cells pos

/-- The tabs of `insert_spaces`, `n` turns at most; none when they are not enough. -/
def insertTabs : Nat → CWindow → Int → Int → Option (CWindow × Int × Int)
  | 0, _, _, _ => none
  | n + 1, w, offset, i =>
    if i < w.tabSize then some (w, offset, i)
    else do
      let w ← w.ebInsert offset ['\t'.toNat]
      insertTabs n w (offset + 1) (i - w.tabSize)

/-- `sizeof(buf1)` in `insert_spaces`. -/
def spacesBufSize : Nat := 64

/-- Its spaces, `n` turns at most; none when they are not enough. -/
def insertBlanks : Nat → CWindow → Int → Int → Option (CWindow × Int)
  | 0, _, _, _ => none
  | n + 1, w, offset, i =>
    if i ≤ 0 then some (w, offset)
    else do
      let size := min i.toNat spacesBufSize
      let w ← w.ebInsert offset (List.replicate size ' '.toNat)
      insertBlanks n w (offset + size) (i - size)

/-- `insert_spaces`: the window and the offset behind the spaces. -/
def CWindow.insertSpaces (w : CWindow) (offset i : Int) : Option (CWindow × Int) := do
  let (w, offset, i) ← if w.indentTabsMode then insertTabs (i.toNat + 1) w offset i else some (w, offset, i)
  insertBlanks (i.toNat + 1) w offset i

/-- The blanks from an offset on: the offset behind them. -/
def Reader.skipIndent (r : Reader) (offset : Int) : Int :=
  scan (fun o => if (r.nextc o).1 = ' '.toNat ∨ (r.nextc o).1 = '\t'.toNat then some (r.nextc o).2 else none) r.turns offset

/-- The last part of `do_c_indent`: other blanks at the beginning of the line, and the point behind them. -/
def CWindow.setIndent (w : CWindow) (offset pos : Int) : Option CWindow := do
  let size := w.reader.skipIndent offset - offset
  let w ← if 0 < size then do
      let w ← w.ebDelete offset size
      some { w with offset := max (w.offset - size) offset }
    else some w
  let (w, offset) ← w.insertSpaces offset pos
  some { w with offset := offset }

/-- `do_c_indent`; `junk` is what its array holds at first. -/
def doCIndent (w : CWindow) (junk : List Nat) : Option CWindow := do
  let lineNum := (ebGetPos w.buffer.toPages w.charset w.offset).1
  let offset := w.reader.gotoBol w.offset
  let (w, buf, found) ← indentLines w.reader.turns w junk offset lineNum .start
  match found with
  | none => some w
  | some i => do
    let (w, buf, len) ← w.getLine buf offset lineNum
    w.setIndent offset (indentCurrent w.indentSize i.eoiFound (buf.take len) (i.found w.indentSize))

end Hoe
