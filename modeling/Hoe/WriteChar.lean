import Hoe.Editor

/-!
# Typing

`text_write_char` with the input methods, `do_backspace` and `hex_write_char`. What is typed is in the text at once, and the keys of
an input method or the nibbles of a character are only counted beside it.
-/

namespace Hoe

/-- `compose_buf` of `EditState` has this many elements. -/
def composeSize : Nat := 20

/-- A number with another nibble, `shift` bits up. -/
def setNibble (ch shift h : Nat) : Nat := ch / 2 ^ (shift + 4) * 2 ^ (shift + 4) + h * 2 ^ shift + ch % 2 ^ shift

namespace Editor

/-- The characters under the point are replaced by others. -/
def replaceAt (s : Editor) (curLen : Int) (buf : List Byte) : Option Editor :=
  if curLen = buf.length then s.ebWrite s.offset buf
  else do
    let ed ← s.ebDelete s.offset curLen
    ed.ebInsert s.offset buf

/-- The loop of `text_write_char` that asks the input method, `n` turns at most. -/
def composeLoop : Nat → Editor → Option Editor
  | 0, _ => none
  | n + 1, s =>
    match s.inputMethod.elim .noMatch (·.inputMatch s.composeBuf) with
    -- no match: reset compose state
    | .noMatch => some { s with composeBuf := [] }
    -- more chars expected: do nothing and insert current key
    | .moreChars => some s
    -- match: delete matched chars, then insert match
    | .found key matchLen => do
      let start := s.composeStartOffset
      let len := s.reader.nextcs matchLen start - start
      let buf := unicodeToCharset key s.charset
      let ed ← s.ebDelete start len
      let ed ← ed.ebInsert start buf
      let ed := { ed with
        offset := s.offset + buf.length - len, composeBuf := s.composeBuf.drop matchLen, composeStartOffset := start + buf.length }
      if ed.composeBuf = [] then some ed else composeLoop n ed

/-- `text_write_char`. There is no result when `compose_buf` is full. -/
def textWriteChar (s : Editor) (key : Nat) : Option Editor :=
  let next := s.reader.nextc s.offset
  let buf := unicodeToCharset key s.charset
  if s.insert ∨ next.1 = newline then do
    let start := if s.composeBuf = [] then s.offset else s.composeStartOffset
    let ed ← s.ebInsert s.offset buf
    if composeSize ≤ s.composeBuf.length then none
    else
      let ed := { ed with offset := ed.offset + buf.length, composeBuf := s.composeBuf ++ [key], composeStartOffset := start }
      composeLoop ed.composeBuf.length ed
  else do
    let ed ← s.replaceAt (next.2 - s.offset) buf
    some { ed with offset := ed.offset + buf.length }

/-- `do_backspace`. -/
def doBackspace (s : Editor) : Option Editor :=
  let offset1 := (s.reader.prevc s.offset).2
  if offset1 < s.offset then do
    let ed ← s.ebDelete offset1 (s.offset - offset1)
    -- special case for composing
    some { ed with offset := offset1, composeBuf := s.composeBuf.dropLast }
  else some s

/-- The bytes of a character in hexadecimal or in unihex mode. -/
def typedBytes (s : Editor) (ch : Nat) : List Byte := if s.unihexMode then unicodeToCharset ch s.charset else [ch]

/-- How many digits a character takes. -/
def hexSize (s : Editor) : Nat := if s.unihexMode then 4 else 2

/-- What `hex_write_char` changes: the character under the point and where it ends. `junk` is what lies in the array where nothing
was read. -/
def hexRead (s : Editor) (junk : Byte) : Nat × Int :=
  if s.unihexMode then s.reader.nextc s.offset else ((ebRead s.buffer.toPages s.offset.toNat 1).2.headD junk, s.offset + 1)

/-- `hex_write_char`. -/
def hexWriteChar (s : Editor) (junk : Byte) (key : Nat) : Option Editor :=
  if !s.hexMode then s.textWriteChar key else
  let hsize := s.hexSize
  match toHex key with
  | none => some s
  | some h => do
    let shift := (hsize - s.hexNibble - 1) * 4
    let cur := s.hexRead junk
    let buf := s.typedBytes (if s.insert ∧ s.hexNibble = 0 then h * 2 ^ ((hsize - 1) * 4) else setNibble cur.1 shift h)
    let ed ← if s.insert ∧ s.hexNibble = 0 then s.ebInsert s.offset buf else s.replaceAt (cur.2 - s.offset) buf
    if s.hexNibble + 1 = hsize then
      some { ed with hexNibble := 0, offset := if ed.offset < ed.total then ed.offset + buf.length else ed.offset }
    else some { ed with hexNibble := s.hexNibble + 1 }

/-- `do_char`, which calls `write_char` of the mode. -/
def doChar (s : Editor) (junk : Byte) (key : Nat) : Option Editor :=
  if s.buffer.readOnly then some s else
  match s.mode with
  | .text => s.textWriteChar key
  | .ascii => s.textWriteChar key
  | .hex => s.hexWriteChar junk key
  | .unihex => s.hexWriteChar junk key

end Editor

end Hoe
