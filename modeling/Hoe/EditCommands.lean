import Hoe.Editor

/-!
# Editing commands

The commands of qe.c that edit text.
-/

namespace Hoe

/-!
## Commands that go from character to character

`do_changecase_word` and `do_changecase_region`, `do_read_word_at_offset` and `do_match_parenthesis`. Each has a loop of its own
over `eb_nextc` and `eb_prevc`, and its own tests for the two ends of the text.
-/

namespace Editor

/-! ### Upper and lower case -/

/-- What `eb_changecase` makes of a character: only those of 7 bits are looked at. -/
def changedCase (up : Bool) (ch : Nat) : Nat := if ch < 128 then if up then toupper ch else tolower ch else ch

/-- `eb_changecase`: the window after it, and the offset behind the character. -/
def ebChangecase (s : Editor) (offset : Int) (up : Bool) : Option (Editor × Int) :=
  let next := s.reader.nextc offset
  let buf := unicodeToCharset (changedCase up next.1) s.charset
  let len : Int := buf.length
  if len = next.2 - offset then do
    let s ← s.ebWrite offset buf
    some (s, offset + len)
  else do
    let s ← s.ebDelete offset (next.2 - offset)
    let s ← s.ebInsert offset buf
    some (s, offset + len)

/-- The loop of `do_changecase_word`, `n` turns at most; none when it is not done by then. -/
def changecaseWordLoop (up : Bool) : Nat → Editor → Option Editor
  | 0, s => if s.total ≤ s.offset ∨ ¬isword (s.reader.nextc s.offset).1 then some s else none
  | n + 1, s =>
    if s.total ≤ s.offset ∨ ¬isword (s.reader.nextc s.offset).1 then some s
    else do
      let (s, offset) ← s.ebChangecase s.offset up
      changecaseWordLoop up n { s with offset := offset }

/-- `do_changecase_word`: first forward to a word. -/
def doChangecaseWord (s : Editor) (up : Bool) : Option Editor :=
  changecaseWordLoop up s.reader.turns { s with offset := s.reader.wordRight true s.offset }

/-- The loop of `do_changecase_region`, `n` turns at most; the end it goes to moves with the point and the mark. -/
def changecaseRegionLoop (up : Bool) : Nat → Editor → Int → Option Editor
  | 0, s, offset => if max s.offset s.buffer.mark ≤ offset then some s else none
  | n + 1, s, offset =>
    if max s.offset s.buffer.mark ≤ offset then some s
    else do
      let (s, offset) ← s.ebChangecase offset up
      changecaseRegionLoop up n s offset

/-- `do_changecase_region`. -/
def doChangecaseRegion (s : Editor) (up : Bool) : Option Editor :=
  changecaseRegionLoop up s.reader.turns s (min s.offset s.buffer.mark)

/-! ### The word at the point -/

/-- `sizeof(word)` in `do_read_word_at_offset`. -/
def wordSize : Nat := 256

/-- The first loop of `do_read_word_at_offset`: back to the beginning of the word. From the beginning of the text it goes back to
where it came from. -/
def wordStart (s : Editor) : Int :=
  let o := scan (fun o => if o = 0 ∨ ¬isword (s.reader.prevc o).1 then none else some (s.reader.prevc o).2) (s.reader.turns + 1)
    s.offset
  if o = 0 then s.offset else o

/-- The second loop, `n` turns at most: the characters of the word. The point follows, and goes back to where it was (`oOffs`)
in front of another character. -/
def wordChars (oOffs : Int) : Nat → Editor → Editor × List Nat
  | 0, s => (s, [])
  | n + 1, s =>
    if s.total ≤ s.offset then (s, [])
    else if ¬isword (s.reader.nextc s.offset).1 then ({ s with offset := oOffs }, [])
    else
      let rest := wordChars oOffs n { s with offset := (s.reader.nextc s.offset).2 }
      (rest.1, (s.reader.nextc s.offset).1 :: rest.2)

/-- The array `word` after the second loop: it is zero at first, and a character is stored in one byte of it, as long as there is
room. None is behind the last byte of a full array. -/
def wordArray (word : List Nat) : List Byte :=
  (word.map (· % 256) ++ List.replicate (wordSize - word.length) 0).take wordSize

/-- `do_read_word_at_offset`: the copy ends in front of the first zero. Without one in the array `strdup` reads on behind it. -/
def doReadWordAtOffset (s : Editor) : Option (Editor × List Byte) :=
  let read := wordChars s.offset s.reader.turns { s with offset := s.wordStart }
  let word := wordArray read.2
  if 0 ∈ word then some ({ read.1 with offset := s.offset }, word.takeWhile (· ≠ 0)) else none

/-! ### Parentheses -/

/-- The parentheses that `do_match_parenthesis` knows: the other one of the pair, and whether this one opens it. -/
def otherParen (thisParen : Nat) : Option (Nat × Bool) :=
  if thisParen = 0x7b ∨ thisParen = 0x28 ∨ thisParen = 0x5b then
    some (if thisParen = 0x28 then thisParen + 1 else thisParen + 2, true)
  else if thisParen = 0x7d ∨ thisParen = 0x29 ∨ thisParen = 0x5d then
    some (if thisParen = 0x29 then thisParen - 1 else thisParen - 2, false)
  else none

/-- The loop of `do_match_parenthesis`, `n` turns at most; none when it is not done by then. What it answers is the offset it
leaves the point at. -/
def matchLoop (r : Reader) (fw : Bool) (thisParen otherParen : Nat) (initialOffset : Int) : Nat → Int → Int → Option Int
  | 0, _, _ => none
  | n + 1, nest, offset =>
    let (c, offset1) := if fw then r.nextc offset else r.prevc offset
    let nest := if c = thisParen then nest + 1 else if c = otherParen then nest - 1 else nest
    if c ≠ thisParen ∧ c = otherParen ∧ nest ≤ 0 then
      some (if nest < 0 then initialOffset else if fw then offset else offset1)
    else if offset1 ≤ 0 ∨ r.total ≤ offset1 then some initialOffset
    else matchLoop r fw thisParen otherParen initialOffset n nest offset1

/-- `do_match_parenthesis`; `junk` is what lies in `r` where nothing was read. -/
def doMatchParenthesis (s : Editor) (junk : Byte) : Option Editor :=
  let r := ((ebRead s.buffer.toPages s.offset.toNat 1).2).getD 0 junk
  match otherParen r with
  | none => some s
  | some (other, fw) => do
    let offset ← matchLoop s.reader fw r other s.offset s.reader.turns 1 (if fw then s.offset + 1 else s.offset)
    some { s with offset := offset }

end Editor

/-!
## Commands that change the text around the point

`do_delete_trailing_whitespace`, `do_transpose_char`, `do_fill_paragraph` and the two commands of rect_operations.c, as they call
the buffer layer. What they write on the status line is left out.
-/

namespace Reader

/-! ### Lines and paragraphs -/

/-- `eb_goto_bol`. -/
def gotoBol (r : Reader) (offset : Int) : Int :=
  scan (fun o => if (r.prevc o).1 = newline then none else some (r.prevc o).2) r.turns offset

/-- `eb_next_line`. -/
def nextLine (r : Reader) (offset : Int) : Int :=
  (r.nextc (scan (fun o => if (r.nextc o).1 = newline then none else some (r.nextc o).2) r.turns offset)).2

/-- `eb_is_empty_line`: only white space up to the newline. -/
def isEmptyLine (r : Reader) (offset : Int) : Bool :=
  let o := scan (fun o => if (r.nextc o).1 = newline ∨ ¬isspace (r.nextc o).1 then none else some (r.nextc o).2) r.turns offset
  (r.nextc o).1 = newline

/-- The loop of `eb_start_paragraph`, `n` turns at most. -/
def startParagraphLoop (r : Reader) : Nat → Int → Int
  | 0, offset => offset
  | n + 1, offset =>
    let offset := r.gotoBol offset
    if offset ≤ 0 then offset
    else if r.isEmptyLine offset then r.nextLine offset
    else startParagraphLoop r n (r.prevc offset).2

/-- `eb_start_paragraph`. -/
def startParagraph (r : Reader) (offset : Int) : Int := r.startParagraphLoop r.turns offset

/-- The loop of `eb_next_paragraph`, `n` turns at most. -/
def nextParagraphLoop (r : Reader) : Nat → Bool → Int → Int
  | 0, _, offset => offset
  | n + 1, textFound, offset =>
    if r.total ≤ offset then offset
    else if r.isEmptyLine offset then
      if textFound then offset else nextParagraphLoop r n textFound (r.nextLine offset)
    else nextParagraphLoop r n true (r.nextLine offset)

/-- `eb_next_paragraph`. -/
def nextParagraph (r : Reader) (offset : Int) : Int := r.nextParagraphLoop r.turns false (r.gotoBol offset)

/-- Over the characters of a kind in front of the end: the offset behind them, and how many they are. -/
def skipChars (r : Reader) (kind : Nat → Bool) (parEnd offset : Int) : Int × Nat :=
  scan (fun (o, n) => if parEnd ≤ o ∨ ¬kind (r.nextc o).1 then none else some ((r.nextc o).2, n + 1)) r.turns (offset, 0)

end Reader

namespace Editor

/-! ### A character, a word, a line, a file -/

/-- `do_delete_char`. -/
def doDeleteChar (s : Editor) : Option Editor := s.ebDelete s.offset ((s.reader.nextc s.offset).2 - s.offset)

/-- `do_delete_word`. -/
def doDeleteWord (s : Editor) (dir : Int) : Option Editor :=
  if s.buffer.readOnly then some s else
  let start := s.offset
  let s := { s with offset := s.wordTarget dir }
  if start < s.offset then s.ebDelete start (s.offset - start) else s.ebDelete s.offset (start - s.offset)

/-- `do_open_line`. -/
def doOpenLine (s : Editor) : Option Editor := if s.buffer.readOnly then some s else s.ebInsert s.offset [newline]

/-- `do_return`. -/
def doReturn (s : Editor) : Option Editor := s.doOpenLine.map fun s => { s with offset := s.offset + 1 }

/-- `do_insert_file`, of what `fopen` and `fread` give. -/
def doInsertFile (s : Editor) (file : Option (List Byte)) : Option Editor :=
  match file with
  | none => some s
  | some file =>
    if 0 ≤ s.offset ∧ s.offset ≤ s.total then some (s.changed (rawLoadBuffer1 s.buffer s.offset.toNat file)) else none

/-! ### White space at the ends of the lines -/

/-- One turn of the loop of `do_delete_trailing_whitespace`. -/
def deleteTrailing (s : Editor) (i : Nat) : Option Editor :=
  let s := (s.gotoLine i).doEol
  let spaces := s.reader.skipSpacesBack s.offset
  let s := { s with offset := spaces.1 }
  if 0 < spaces.2 then s.ebDelete s.offset spaces.2 else some s

/-- `do_delete_trailing_whitespace`: one turn for each line in front of the last one, as `eb_get_pos` counts them. -/
def doDeleteTrailingWhitespace (s : Editor) : Option Editor :=
  let tlineNum := (ebGetPos s.buffer.toPages s.charset s.total).1
  (List.range tlineNum).foldlM deleteTrailing { s with offset := 0 }

/-! ### Two characters -/

/-- `do_transpose_char`; `junk` is what lies in the array where nothing was read. -/
def doTransposeChar (s : Editor) (junk : Byte) : Option Editor :=
  let offset1 := (s.reader.prevc s.offset).2
  let ch := (ebRead s.buffer.toPages offset1.toNat 2).2
  if offset1 < s.offset then do
    let ed ← s.ebDelete offset1 (s.offset - offset1 + 1)
    let ed ← ed.ebInsert ed.offset [ch.getD 1 junk, ch.getD 0 junk]
    some { ed with offset := s.offset }
  else some s

/-! ### Paragraphs -/

/-- `PARAGRAPH_WIDTH`. -/
def paragraphWidth : Int := 76

/-- How many white spaces the second line of the paragraph begins with. -/
def indentSize (s : Editor) (parStart parEnd : Int) : Nat :=
  let offset := s.reader.nextLine parStart
  if s.reader.isEmptyLine offset then 0 else (s.reader.skipChars isspace parEnd offset).2

/-- The loop that inserts the indentation. -/
def insertSpaces (s : Editor) (offset : Int) : Nat → Option Editor
  | 0 => some s
  | n + 1 => do
    let s ← s.ebInsert offset [0x20]
    insertSpaces s offset n

/-- The variables of the loop of `do_fill_paragraph`. -/
structure Filling where
  window : Editor
  parEnd : Int
  offset : Int
  col : Int
  wordCount : Nat

/-- One turn of the loop: a chunk of spaces and the word behind it. -/
def fillChunk (indentSize : Nat) (f : Filling) : Option Filling :=
  let chunkStart := f.offset
  let spaces := f.window.reader.skipChars isspace f.parEnd chunkStart
  let wordStart := spaces.1
  let word := f.window.reader.skipChars (fun c => !isspace c) f.parEnd wordStart
  let offset := word.1
  if f.wordCount = 0 then
    -- first word: preserve spaces
    some { f with offset := offset, col := f.col + spaces.2 + word.2, wordCount := 1 }
  else if offset = f.parEnd ∨ paragraphWidth < f.col + 1 + word.2 then do
    let s ← f.window.ebWrite chunkStart [newline]
    let chunkStart := chunkStart + 1
    let indent := if offset < f.parEnd then indentSize else 0
    let s ← s.insertSpaces chunkStart indent
    let chunkStart := chunkStart + indent
    let n := wordStart + indent - chunkStart
    let s ← if 0 < n then s.ebDelete chunkStart n else some s
    let n := max n 0
    some { window := s, parEnd := f.parEnd + indent - n, offset := offset + indent - n, col := word.2 + indentSize,
           wordCount := f.wordCount + 1 }
  else do
    let s ← f.window.ebWrite chunkStart [0x20]
    let chunkStart := chunkStart + 1
    let n := wordStart - chunkStart
    let s ← if 0 < n then s.ebDelete chunkStart n else some s
    let n := max n 0
    some { window := s, parEnd := f.parEnd - n, offset := offset - n, col := f.col + 1 + word.2, wordCount := f.wordCount + 1 }

/-- The loop, `n` turns at most; none when it is not done by then. -/
def fillLoop (indentSize : Nat) : Nat → Filling → Option Filling
  | 0, f => if f.offset < f.parEnd then none else some f
  | n + 1, f => if f.offset < f.parEnd then (fillChunk indentSize f).bind (fillLoop indentSize n) else some f

/-- `do_fill_paragraph`. -/
def doFillParagraph (s : Editor) : Option Editor :=
  let parStart := s.reader.startParagraph s.offset
  let parEnd := s.reader.nextParagraph parStart
  (fillLoop (s.indentSize parStart parEnd) s.reader.turns
    { window := s, parEnd := parEnd, offset := parStart, col := 0, wordCount := 0 }).map (·.window)

/-! ### Rectangles -/

/-- The line and the column of an offset. -/
def getPos (s : Editor) (offset : Int) : Nat × Nat := ebGetPos s.buffer.toPages s.charset offset

/-- One turn of the loop of `do_kill_rect`: the line, counted from 1, the column and the signed number of characters. -/
def killRectLine (fcolNum : Nat) (killLen : Int) (s : Editor) (line : Nat) : Option Editor := do
  let s := s.gotoLine line
  let s := { s with offset := s.offset + fcolNum }
  let s ← s.ebDelete s.offset killLen
  some { s with offset := s.offset - killLen }

/-- `do_kill_rect`. -/
def doKillRect (s : Editor) : Option Editor :=
  let t := s.getPos s.offset
  let f := s.getPos s.buffer.mark
  let flineNum := f.1 + 1
  let tlineNum := t.1 + 1
  let killLen : Int := t.2 - f.2
  let nrLines := tlineNum + 1 - flineNum
  (List.range' flineNum nrLines).foldlM (killRectLine f.2 killLen) s

/-- One turn of the loop of `do_string_insert_rect`. -/
def insertRectLine (fcolNum : Nat) (reply : List Byte) (s : Editor) (line : Nat) : Option Editor := do
  let s := s.gotoLine line
  let s := { s with offset := s.offset + fcolNum }
  let s ← s.ebInsert s.offset reply
  some { s with offset := s.offset + reply.length }

/-- `do_string_insert_rect`. -/
def doStringInsertRect (s : Editor) (reply : List Byte) : Option Editor :=
  let t := s.getPos s.offset
  let f := s.getPos s.buffer.mark
  let flineNum := f.1 + 1
  let tlineNum := t.1 + 1
  let nrLines := tlineNum + 1 - flineNum
  (List.range' flineNum nrLines).foldlM (insertRectLine f.2 reply) s

end Editor

end Hoe
