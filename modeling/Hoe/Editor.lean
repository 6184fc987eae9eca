import Hoe.EditBuffer
import Hoe.Chars

/-!
# A window on a buffer

What an editing command works on: the fields of `EditState` it reads, the buffer of the window and the ring of yank buffers. A
command changes a buffer through the functions of the buffer layer alone; a call outside of what that layer documents has no
result here (`none`), since it breaks the page table. A call inside moves the two offsets that the text mode registers with
`eb_offset_callback`. Reading the text moves the page cache, which no function can tell, and leaves the buffer alone here.
-/

namespace Hoe

open Splice

/-- The modes of qe.c, hex.c and unihex.c. -/
inductive Mode where
  | text
  | ascii
  | hex
  | unihex
deriving DecidableEq, Repr

/-- What an input method answers: `INPUTMETHOD_NOMATCH`, `INPUTMETHOD_MORECHARS`, or a character for the first keys. -/
inductive MatchResult where
  | noMatch
  | moreChars
  | found (key len : Nat)
deriving DecidableEq, Repr

/-- `InputMethod`: a match takes at least one key, and no more than there are. -/
structure InputMethod where
  inputMatch : List Nat → MatchResult
  len_le : ∀ keys key len, inputMatch keys = .found key len → 0 < len ∧ len ≤ keys.length

/-- A slot of the yank ring: NULL, the buffer of the window itself, or another buffer. -/
inductive YankBuffer where
  | null
  | window
  | own (b : EditBuffer)
deriving DecidableEq, Repr

/-- `NB_YANK_BUFFERS`. -/
def nbYankBuffers : Nat := 10

/-- `EditState` with its buffer and the ring of yank buffers. -/
structure Editor where
  buffer : EditBuffer
  charset : Charset
  stack : List Byte
  mode : Mode
  offset : Int
  offsetTop : Int
  insert : Bool
  hexMode : Bool
  unihexMode : Bool
  hexNibble : Nat
  dispWidth : Nat
  tabSize : Nat
  indentTabsMode : Bool
  inputMethod : Option InputMethod
  composeBuf : List Nat
  composeStartOffset : Int
  yankBuffers : List YankBuffer
  yankCurrent : Nat

namespace Editor

/-- A window that shows a buffer in text mode, as `text_mode_init` sets it up. -/
def new (b : EditBuffer) (charset : Charset) (offset : Int) : Editor :=
  { buffer := b, charset := charset, stack := [], mode := .text, offset := offset, offsetTop := 0, insert := true
    hexMode := false, unihexMode := false, hexNibble := 0, dispWidth := 16, tabSize := 8, indentTabsMode := false
    inputMethod := none, composeBuf := [], composeStartOffset := 0, yankBuffers := List.replicate nbYankBuffers .null
    yankCurrent := 0 }

/-- `total_size`. -/
def total (ed : Editor) : Int := ed.buffer.totalSize

/-- The text as `eb_nextc` and `eb_prevc` read it. -/
def reader (ed : Editor) : Reader := { text := ed.buffer.bytes, charset := ed.charset, stack := ed.stack }

/-! ## Calls of the buffer layer -/

/-- The buffer has changed, and the callbacks of the window were called. -/
def changed (ed : Editor) (b : EditBuffer) : Editor :=
  let notes := b.notes.drop ed.buffer.notes.length
  { ed with
    buffer := b, offset := notes.foldl ebOffsetCallback ed.offset, offsetTop := notes.foldl ebOffsetCallback ed.offsetTop }

/-- A call of `eb_insert`. -/
def ebInsert (ed : Editor) (offset : Int) (buf : List Byte) : Option Editor :=
  if 0 ≤ offset ∧ offset ≤ ed.total then some (ed.changed (Hoe.ebInsert ed.buffer offset.toNat buf)) else none

/-- A call of `eb_delete`, which returns at once from the end of the text on. -/
def ebDelete (ed : Editor) (offset size : Int) : Option Editor :=
  if ed.total ≤ offset then some ed
  else if 0 ≤ offset ∧ 0 ≤ size ∧ offset + size ≤ ed.total then
    some (ed.changed (Hoe.ebDelete ed.buffer offset.toNat size.toNat))
  else none

/-- A call of `eb_write`. -/
def ebWrite (ed : Editor) (offset : Int) (buf : List Byte) : Option Editor :=
  if 0 ≤ offset ∧ offset ≤ ed.total then some (ed.changed (Hoe.ebWrite ed.buffer offset.toNat buf)) else none

/-- A call of `eb_insert_buffer` with the buffer of the window as the source of another buffer. -/
def ebInsertBufferFrom (ed : Editor) (dest : EditBuffer) (destOffset srcOffset size : Int) : Option (EditBuffer × Editor) :=
  if 0 ≤ destOffset ∧ destOffset ≤ dest.totalSize ∧ 0 ≤ srcOffset ∧ 0 ≤ size ∧ srcOffset + size ≤ ed.total then
    let (dest, src) := Hoe.ebInsertBuffer dest destOffset.toNat ed.buffer.toPages srcOffset.toNat size.toNat
    some (dest, { ed with buffer := { ed.buffer with toPages := src } })
  else none

/-- A call of `eb_insert_buffer` with the buffer of the window as the destination. -/
def ebInsertBufferInto (ed : Editor) (destOffset : Int) (src : EditBuffer) (srcOffset size : Int) :
    Option (Editor × EditBuffer) :=
  if 0 ≤ destOffset ∧ destOffset ≤ ed.total ∧ 0 ≤ srcOffset ∧ 0 ≤ size ∧ srcOffset + size ≤ src.totalSize then
    let (dest, text) := Hoe.ebInsertBuffer ed.buffer destOffset.toNat src.toPages srcOffset.toNat size.toNat
    some (ed.changed dest, { src with toPages := text })
  else none

/-! ## Moves -/

/-- `do_goto_line`. -/
def gotoLine (ed : Editor) (line : Int) : Editor :=
  if line < 1 then ed else { ed with offset := ebGotoPos ed.buffer.toPages ed.reader (line - 1).toNat 0 }

/-- `hex_move_eol`. -/
def hexMoveEol (ed : Editor) : Editor :=
  let offset := align ed.offset ed.dispWidth + ed.dispWidth - 1
  { ed with offset := if ed.total ≤ offset then ed.total else offset }

/-- `unihex_move_eol`. -/
def unihexMoveEol (ed : Editor) : Editor :=
  let pos := ebGetCharOffset ed.buffer.toPages ed.charset ed.offset
  let pos := align pos ed.dispWidth + ed.dispWidth - 1
  { ed with offset := ebGotoChar ed.buffer.toPages ed.charset pos }

/-- `do_eol`: each mode has its own. -/
def doEol (ed : Editor) : Editor :=
  match ed.mode with
  | .text => { ed with offset := ed.reader.moveEol ed.offset }
  | .ascii => ed.hexMoveEol
  | .hex => ed.hexMoveEol
  | .unihex => ed.unihexMoveEol

/-- Where `move_word_left_right` goes; only the text mode has one. -/
def wordTarget (ed : Editor) (dir : Int) : Int :=
  match ed.mode with
  | .text => ed.reader.moveWord dir ed.offset
  | _ => ed.offset

end Editor

/-! ## Input methods -/

/-- `default_input`. -/
def defaultInput : InputMethod := { inputMatch := fun _ => .noMatch, len_le := by simp }

/-- The code of hexadecimal digits, none when one of them is no digit. -/
def hexCode : List Nat → Nat → Option Nat
  | [], c => some c
  | key :: keys, c =>
    match toHex key with
    | some h => hexCode keys (c * 16 + h)
    | none => none

/-- What `unicode_input` answers: an x and four hexadecimal digits are a character. -/
def unicodeMatch (keys : List Nat) : MatchResult :=
  if keys.headD 0 ≠ 0x78 then .noMatch else
  match hexCode ((keys.take 5).drop 1) 0 with
  | none => .noMatch
  | some c => if 5 ≤ keys.length then .found c 5 else .moreChars

/-- `unicode_input`. -/
def unicodeInput : InputMethod :=
  { inputMatch := unicodeMatch
    len_le := by
      intro keys key len h
      unfold unicodeMatch at h
      split at h
      · cases h
      · split at h
        · cases h
        · split at h
          · rename_i hlen
            cases h
            exact ⟨by decide, hlen⟩
          · cases h }

end Hoe
