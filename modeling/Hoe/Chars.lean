import Hoe.Pages

/-!
# Characters and positions

The charsets of charset.c and the two functions of buffer.c that read a character of a text, forward and backward. They read a
few bytes into an array on the stack and decode them there, so what the stack held before (`stack`) shows where the text ends in
the middle of a character. An offset is an integer, since `eb_prevc` can return a negative one. The positions are behind them.
-/

namespace Hoe

open Splice

/-- The charsets: 8859-1, 7bit and utf-8. -/
inductive Charset where
  | latin1
  | ascii
  | utf8
deriving DecidableEq, Repr

/-- `MAX_CHAR_BYTES`. -/
def maxCharBytes : Nat := 6

/-- `INVALID_CHAR`. -/
def invalidChar : Nat := 0xfffd

/-- The character that ends a line. -/
def newline : Nat := 10

/-! ## UTF-8 -/

/-- The table `utf8_length`. -/
def utf8Length (c : Nat) : Nat :=
  if c < 0xc0 then 1 else if c < 0xe0 then 2 else if c < 0xf0 then 3 else if c < 0xf8 then 4 else
  if c < 0xfc then 5 else if c < 0xfe then 6 else 1

/-- The bits of the first byte that `first_code_mask` keeps: the value is a power of two. -/
def firstCodeRange : Nat → Nat
  | 2 => 0x20
  | 3 => 0x10
  | 4 => 0x8
  | 5 => 0x4
  | 6 => 0x2
  | _ => 1

/-- The table `min_code`. -/
def minCode : Nat → Nat
  | 2 => 0x80
  | 3 => 0x800
  | 4 => 0x10000
  | 5 => 0x00200000
  | 6 => 0x04000000
  | _ => 0

/-- A byte that goes on with a character. -/
def isTail (c : Nat) : Bool := 0x80 ≤ c ∧ c < 0xc0

/-- The loop of `utf8_decode` over the `n` bytes that go on with the character: its code unless one of them does not, and how
many were taken. -/
def utf8Tail : Nat → Nat → List Byte → Option Nat × Nat
  | 0, c, _ => (some c, 0)
  | n + 1, c, p =>
    let c1 : Nat := p.headD 0
    if isTail c1 then
      let (v, taken) := utf8Tail n (c * 64 + c1 % 64) p.tail
      (v, taken + 1)
    else (none, 0)

/-- `utf8_decode`: the character and how many bytes it takes. -/
def utf8Decode (p : List Byte) : Nat × Nat :=
  let c : Nat := p.headD 0
  if c < 128 then (c, 1) else
  let l := utf8Length c
  if l = 1 then (invalidChar, 1) else
  let (v, taken) := utf8Tail (l - 1) (c % firstCodeRange l) p.tail
  match v with
  | none => (invalidChar, taken + 1)
  | some c =>
    -- refuse non canonical codes, surrogate pairs and special codes
    if c < minCode l ∨ (0xd800 ≤ c ∧ c ≤ 0xdfff) ∨ c = 0xfffe ∨ c = 0xffff then (invalidChar, taken + 1) else (c, taken + 1)

/-- `utf8_encode`. -/
def utf8Encode (c : Nat) : List Byte :=
  let low (shift : Nat) : Nat := 0x80 + c / 2 ^ shift % 64
  if c < 0x80 then [c]
  else if c < 0x800 then [0xc0 + c / 2 ^ 6, low 0]
  else if c < 0x10000 then [0xe0 + c / 2 ^ 12, low 6, low 0]
  else if c < 0x00200000 then [0xf0 + c / 2 ^ 18, low 12, low 6, low 0]
  else if c < 0x04000000 then [0xf8 + c / 2 ^ 24, low 18, low 12, low 6, low 0]
  else [0xfc + c / 2 ^ 30, low 24, low 18, low 12, low 6, low 0]

/-- The encoding functions of the charsets. -/
def Charset.encode : Charset → Nat → Option (List Byte)
  | latin1, c => if c ≤ 0xff then some [c] else none
  | ascii, c => if c ≤ 0x7f then some [c] else none
  | utf8, c => some (utf8Encode c)

/-- `unicode_to_charset`: a question mark stands for what the charset does not have. -/
def unicodeToCharset (c : Nat) (charset : Charset) : List Byte := (charset.encode c).getD [0x3f]

/-! ## Reading a character -/

/-- A text with what a command reads it by: the charset, and the stack behind the bytes that were read. -/
structure Reader where
  text : List Byte
  charset : Charset
  stack : List Byte
deriving DecidableEq, Repr

namespace Reader

/-- `total_size`. -/
def total (r : Reader) : Int := r.text.length

/-- The byte at the offset. -/
def byte (r : Reader) (offset : Int) : Nat := r.text.getD offset.toNat 0

/-- `eb_nextc`: the character at the offset and the offset behind it. -/
def nextc (r : Reader) (offset : Int) : Nat × Int :=
  if r.total ≤ offset then (newline, r.total) else
  let c := r.byte offset
  if r.charset ≠ .utf8 ∨ c < 0x80 then (c, offset + 1)
  else if 0xc0 ≤ c ∧ c < 0xfe then
    let buf := slice r.text offset.toNat maxCharBytes
    let (ch, taken) := utf8Decode (buf ++ r.stack.drop buf.length)
    (ch, offset + taken)
  else (invalidChar, offset + 1)

/-- The loop of `eb_prevc`: back to the byte that begins a character, `n` bytes at most; none when the text or the array ends
before. -/
def firstByte (text : List Byte) : Nat → Nat → Option Nat
  | 0, offset => if isTail (text.getD offset 0) then none else some offset
  | n + 1, offset =>
    if isTail (text.getD offset 0) then
      match offset with
      | 0 => none
      | offset + 1 => firstByte text n offset
    else some offset

/-- `eb_prevc`: the character in front of the offset and the offset in front of it. In its error branch it subtracts from the
wrong end of the array, so that it goes back by `MAX_CHAR_BYTES` and one more. -/
def prevc (r : Reader) (offset : Int) : Nat × Int :=
  if offset ≤ 0 then (newline, 0) else
  if r.charset = .utf8 then
    match firstByte r.text (maxCharBytes - 1) (offset.toNat - 1) with
    | some first => ((utf8Decode (slice r.text first (offset.toNat - first) ++ r.stack)).1, first)
    | none => (r.byte (offset - 1), offset - 1 - maxCharBytes)
  else (r.byte (offset - 1), offset - 1)

end Reader

/-! ## Kinds of characters -/

/-- `isword`: any character from 128 on is a part of a word. -/
def isword (c : Nat) : Bool :=
  (0x61 ≤ c ∧ c ≤ 0x7a) ∨ (0x41 ≤ c ∧ c ≤ 0x5a) ∨ (0x30 ≤ c ∧ c ≤ 0x39) ∨ c = 0x5f ∨ 128 ≤ c

/-- `isspace` of the C locale. -/
def isspace (c : Nat) : Bool := c = 0x20 ∨ (9 ≤ c ∧ c ≤ 13)

/-- `toupper` of the C locale. -/
def toupper (c : Nat) : Nat := if 0x61 ≤ c ∧ c ≤ 0x7a then c - 0x20 else c

/-- `tolower` of the C locale. -/
def tolower (c : Nat) : Nat := if 0x41 ≤ c ∧ c ≤ 0x5a then c + 0x20 else c

/-- `to_hex`: the value of a hexadecimal digit. -/
def toHex (key : Nat) : Option Nat :=
  if 0x30 ≤ key ∧ key ≤ 0x39 then some (key - 0x30)
  else if 0x61 ≤ key ∧ key ≤ 0x66 then some (key - 0x61 + 10)
  else if 0x41 ≤ key ∧ key ≤ 0x46 then some (key - 0x41 + 10)
  else none

/-! ## Moving over characters -/

/-- A loop that goes on until it stops, `n` turns at most. -/
def scan {α : Type*} (next : α → Option α) : Nat → α → α
  | 0, x => x
  | n + 1, x =>
    match next x with
    | none => x
    | some y => scan next n y

namespace Reader

/-- More turns than any loop over the text makes. -/
def turns (r : Reader) : Nat := r.text.length + 1

/-- The loop of `text_move_eol`, and the one of `do_kill_region` that looks for the end of the line. -/
def moveEol (r : Reader) (offset : Int) : Int :=
  scan (fun o => if (r.nextc o).1 = newline then none else some (r.nextc o).2) r.turns offset

/-- The loop of `word_right`. -/
def wordRight (r : Reader) (w : Bool) (offset : Int) : Int :=
  scan (fun o => if r.total ≤ o ∨ isword (r.nextc o).1 = w then none else some (r.nextc o).2) r.turns offset

/-- The loop of `word_left`. It goes on in front of the text, from where `eb_prevc` leads back to its beginning. -/
def wordLeft (r : Reader) (w : Bool) (offset : Int) : Int :=
  scan (fun o => if o = 0 ∨ isword (r.prevc o).1 = w then none else some (r.prevc o).2) (r.turns + 1) offset

/-- `text_move_word_left_right`. -/
def moveWord (r : Reader) (dir : Int) (offset : Int) : Int :=
  if 0 < dir then r.wordRight false (r.wordRight true offset) else r.wordLeft false (r.wordLeft true offset)

/-- Over `n` characters. -/
def nextcs (r : Reader) (n : Nat) (offset : Int) : Int := (fun o => (r.nextc o).2)^[n] offset

/-- The loop of `do_delete_trailing_whitespace`: back over the spaces of a line, and how many they are. -/
def skipSpacesBack (r : Reader) (offset : Int) : Int × Nat :=
  scan (fun (o, n) =>
    if ¬isspace (r.prevc o).1 ∨ (r.prevc o).1 = newline then none else some ((r.prevc o).2, n + 1)) r.turns (offset, 0)

end Reader

/-! ## Lines, columns and characters

The functions of buffer.c that turn an offset into a line and a column, or into the number of a character, and back. They walk
the page table, page by page. The counts that buffer.c keeps in a page until the page changes are counted again here.
-/

/-! ## Lines and columns -/

/-- The bytes behind the last newline. -/
def lastLine (buf : List Byte) : List Byte := buf.foldl (fun line c => if c = newline then [] else line ++ [c]) []

/-- The loop of `get_pos` that counts the characters of a line: a byte that begins a character of UTF-8 stands for as many bytes
as it says, whether they are there or not. -/
def countChars (charset : Charset) : Nat → List Byte → Nat
  | _, [] => 0
  | 0, _ => 0
  | n + 1, c :: rest =>
    countChars charset n (if charset = .utf8 ∧ 0xc0 ≤ c ∧ c < 0xfe then rest.drop (utf8Length c - 1) else rest) + 1

/-- `get_pos`: the lines and the columns of a block. -/
def getPos (charset : Charset) (buf : List Byte) : Nat × Nat :=
  let line := lastLine buf
  (buf.count newline, countChars charset line.length line)

/-- `eb_get_pos`, from a page on: the line and the column of the offset. -/
def getPosFrom (charset : Charset) : List Page → Nat → Nat → Nat → Nat × Nat
  | [], _, line, col => (line, col)
  | p :: ps, offset, line, col =>
    if offset < p.size then
      let (line1, col1) := getPos charset (p.data.take offset)
      (line + line1, if line1 = 0 then col + col1 else col1)
    else
      let (nbLines, pCol) := getPos charset p.data
      getPosFrom charset ps (offset - p.size) (line + nbLines) (if nbLines = 0 then col + pCol else pCol)

/-- `eb_get_pos`. -/
def ebGetPos (t : Pages) (charset : Charset) (offset : Int) : Nat × Nat :=
  getPosFrom charset t.pageTable offset.toNat 0 0

/-- How many bytes the first `n` lines of a block have. -/
def skipLines : Nat → List Byte → Nat
  | 0, _ => 0
  | n + 1, buf => buf.idxOf newline + 1 + skipLines n (buf.drop (buf.idxOf newline + 1))

/-- The last loop of `eb_goto_pos`: over `n` characters, as far as the line goes. -/
def gotoCol (r : Reader) : Nat → Int → Int
  | 0, offset => offset
  | n + 1, offset => if (r.nextc offset).1 = newline then offset else gotoCol r n (r.nextc offset).2

/-- `eb_goto_pos`, from a page on that begins at the offset, on the line and the column. -/
def gotoPosFrom (r : Reader) (line1 col1 : Nat) : List Page → Nat → Nat → Nat → Int
  | [], _, _, _ => r.total
  | p :: ps, offset, line, col =>
    let (nbLines, pCol) := getPos r.charset p.data
    let line2 := line + nbLines
    -- the column begins anew on a page with a newline, but the source adds it all the same
    let col2 := col + pCol
    if line1 < line2 ∨ (line2 = line1 ∧ col1 ≤ col2) then
      gotoCol r (col1 - if line < line1 then 0 else col) (offset + skipLines (line1 - line) p.data : Nat)
    else gotoPosFrom r line1 col1 ps (offset + p.size) line2 col2

/-- `eb_goto_pos`. -/
def ebGotoPos (t : Pages) (r : Reader) (line1 col1 : Nat) : Int := gotoPosFrom r line1 col1 t.pageTable 0 0 0

/-! ## Characters -/

/-- `get_chars`: how many characters a block has. -/
def getChars (charset : Charset) (buf : List Byte) : Nat :=
  if charset = .utf8 then buf.countP (fun c => !isTail c) else buf.length

/-- `goto_char`: the offset of a character of a block, `pos` characters further on. -/
def gotoChar : List Byte → Int → Nat
  | [], _ => 0
  | c :: rest, pos => if isTail c then gotoChar rest pos + 1 else if pos ≤ 0 then 0 else gotoChar rest (pos - 1) + 1

/-- `eb_goto_char` on the pages of a text in UTF-8, from a page on. -/
def gotoCharFrom : List Page → Int → Nat
  | [], _ => 0
  | p :: ps, pos =>
    if pos < getChars .utf8 p.data then gotoChar p.data pos
    else p.size + gotoCharFrom ps (pos - getChars .utf8 p.data)

/-- `eb_goto_char`. -/
def ebGotoChar (t : Pages) (charset : Charset) (pos : Int) : Int :=
  if charset = .utf8 then gotoCharFrom t.pageTable pos else min pos t.totalSize

/-- `eb_get_char_offset` on the pages of a text in UTF-8, from a page on. -/
def charOffsetFrom : List Page → Nat → Nat
  | [], _ => 0
  | p :: ps, offset =>
    if offset < p.size then getChars .utf8 (p.data.take offset)
    else getChars .utf8 p.data + charOffsetFrom ps (offset - p.size)

/-- `eb_get_char_offset`. -/
def ebGetCharOffset (t : Pages) (charset : Charset) (offset : Int) : Int :=
  if charset = .utf8 then charOffsetFrom t.pageTable offset.toNat else min offset t.totalSize

/-- `align`. -/
def align (a n : Int) : Int := a.tdiv n * n

end Hoe
