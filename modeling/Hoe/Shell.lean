import Hoe.Characters
import Hoe.EditBuffer

/-!
# The terminal emulator of a shell buffer

The part of shell.c that a byte of a process goes through: `tty_emulate`, a state machine for a few escape sequences, which
edits the buffer at `cur_offset`. Every edit calls the callbacks on the list of the buffer, among them the one that moves
`cur_offset` and the one that mirrors the buffer in the buffer of colors.
-/

namespace Hoe

open Splice

/-! ## What listens to a buffer

The callbacks on the list of a buffer, beside the one that moves the mark: `eb_offset_callback` on the offsets of a window
(`ebOffsetCallback`) and `shell_color_callback` on the buffer of colors of a shell. A mirror is the callback the notifications
are made for: it has one cell for each byte.
-/

/-- A mirror with one cell for each byte; `cell` fills what is inserted. -/
def mirrorCallback {α : Type*} (cell : α) (mirror : List α) (n : Note) : List α :=
  match n.op with
  | .insert => insertAt mirror n.offset (List.replicate n.size cell)
  | .delete => removeAt mirror n.offset n.size
  | _ => mirror

/-! ## The colors of a shell -/

/-- The size of the array `shell_color_callback` fills with the current color. -/
def colorChunk : Nat := 32

/-- How often the loops of `shell_color_callback` run. -/
def colorChunks (size : Nat) : Nat := (size + colorChunk - 1) / colorChunk

/-- The loop of `shell_color_callback` for a write. -/
def writeColors (color : Byte) : Nat → Pages → Nat → Nat → Pages
  | 0, t, _, _ => t
  | n + 1, t, offset, size =>
    let len := min size colorChunk
    writeColors color n (writeText t offset (List.replicate len color)) (offset + len) (size - len)

/-- The loop of `shell_color_callback` for an insertion. -/
def insertColors (color : Byte) : Nat → Pages → Nat → Nat → Pages
  | 0, t, _, _ => t
  | n + 1, t, offset, size =>
    let len := min size colorChunk
    insertColors color n (ebInsertLowlevel t offset (List.replicate len color)) offset (size - len)

/-- `shell_color_callback` on the buffer of colors, which keeps no log. -/
def shellColorCallback (color : Byte) (bColor : Pages) (n : Note) : Pages :=
  match n.op with
  | .write => writeColors color (colorChunks n.size) bColor n.offset n.size
  | .insert => insertColors color (colorChunks n.size) bColor n.offset n.size
  | .delete => deleteText bColor n.offset n.size
  | .free => bColor

/-- `MAX_ESC_PARAMS`. -/
def maxEscParams : Nat := 3

/-- `TTY_YSIZE`. -/
def ttyYsize : Nat := 25

/-- The states of the emulator. -/
inductive EscState where
  | norm
  | esc
  | csi
deriving DecidableEq, Repr

/-- `TTY_GET_COLOR`, `TTY_GET_FG` and `TTY_GET_BG`. -/
def ttyGetColor (fg bg : Nat) : Nat := fg <<< 3 ||| bg

def ttyGetFg (color : Nat) : Nat := color >>> 3 &&& 7

def ttyGetBg (color : Nat) : Nat := color &&& 7

/-- A call of `eb_insert`, `eb_write` or `eb_delete`, with the total size of the buffer when it is made. -/
structure BufferCall where
  op : LogOperation
  offset : Int
  size : Int
  total : Nat
deriving DecidableEq, Repr

/-- `ShellState`, with its buffer and the offsets of the interactive windows that show it. A compilation has no colors. `sent`
is what was written to the process. The last field is history, which no function reads. -/
structure ShellState where
  color : Nat
  defColor : Nat
  curOffset : Int
  escParams : List Int
  nbEscParams : Int
  state : EscState
  b : EditBuffer
  charset : Charset
  bColor : Option Pages
  windows : List Int
  sent : List Byte
  calls : List BufferCall
deriving DecidableEq, Repr

/-- What the emulator reads without having written it: the stack, and the memory behind `esc_params`. -/
structure Leftover where
  stack : Nat → List Byte
  beyond : Int → Int

namespace ShellState

/-- `tty_init`. -/
def ttyInit (s : ShellState) : ShellState :=
  { s with state := .norm, curOffset := 0, defColor := ttyGetColor 7 0, color := ttyGetColor 7 0 }

/-! ## The buffer -/

/-- The pages after they were read. -/
def withPages (s : ShellState) (t : Pages) : ShellState := { s with b := { s.b with toPages := t } }

/-- A call that edits the buffer, and the callbacks it calls: those of the cursor, of the windows and of the colors. -/
def perform (s : ShellState) (call : BufferCall) (f : EditBuffer → EditBuffer) : ShellState :=
  let b := f s.b
  let ns := b.notes.drop s.b.notes.length
  { s with
    b := b
    curOffset := ns.foldl ebOffsetCallback s.curOffset
    bColor := s.bColor.map fun t => ns.foldl (shellColorCallback (s.color % 256)) t
    windows := s.windows.map fun offset => ns.foldl ebOffsetCallback offset
    calls := s.calls ++ [call] }

def insert (s : ShellState) (offset : Int) (buf : List Byte) : ShellState :=
  s.perform ⟨.insert, offset, buf.length, s.b.totalSize⟩ fun b => ebInsert b offset.toNat buf

def write (s : ShellState) (offset : Int) (buf : List Byte) : ShellState :=
  s.perform ⟨.write, offset, buf.length, s.b.totalSize⟩ fun b => ebWrite b offset.toNat buf

def delete (s : ShellState) (offset size : Int) : ShellState :=
  s.perform ⟨.delete, offset, size, s.b.totalSize⟩ fun b => ebDelete b offset.toNat size.toNat

/-! ## Going to a position -/

/-- The loop of `tty_gotoxy` that adds lines. -/
def addLines : Nat → ShellState → ShellState
  | 0, s => s
  | n + 1, s => addLines n (s.insert s.b.totalSize [newline])

/-- The loop of `tty_gotoxy` that inserts spaces at an offset. -/
def insertBlanks (offset : Int) : Nat → ShellState → ShellState
  | 0, s => s
  | n + 1, s => insertBlanks offset n (s.insert offset [0x20])

/-- The loop of `tty_emulate` that inserts spaces at the cursor. -/
def insertChars : Nat → ShellState → ShellState
  | 0, s => s
  | n + 1, s => insertChars n (s.insert s.curOffset [0x20])

/-- The loop of `tty_gotoxy` over `x` characters of the line, which it makes longer. -/
def gotoX (stack : Nat → List Byte) : Nat → ShellState → Int → ShellState
  | 0, s, offset => { s with curOffset := offset }
  | x + 1, s, offset =>
    let (t, c, offset1) := ebNextc s.b.toPages s.charset (stack x) offset
    let s := s.withPages t
    if c = newline then { insertBlanks offset (x + 1) s with curOffset := offset } else gotoX stack x s offset1

/-- `tty_gotoxy`. -/
def ttyGotoxy (stack : Nat → List Byte) (s : ShellState) (x y : Nat) : ShellState :=
  -- compute offset
  let (t, totalLines, _) := ebGetPosCached s.b.toPages s.charset s.b.totalSize
  let s := s.withPages t
  let lineNum := totalLines - ttyYsize + y
  -- add lines if necessary
  let s := addLines (lineNum + 1 - totalLines) s
  let (t, offset) := ebGotoPosCached s.b.toPages s.charset stack lineNum 0
  gotoX stack x (s.withPages t) offset

/-! ## Escape sequences -/

/-- `tty_csi_m`. -/
def ttyCsiM (s : ShellState) (c : Int) : ShellState :=
  if c = 0 then { s with color := s.defColor }
  else if 30 ≤ c ∧ c ≤ 37 then { s with color := ttyGetColor (c - 30).toNat (ttyGetBg s.color) }
  else if 40 ≤ c ∧ c ≤ 47 then { s with color := ttyGetColor (ttyGetFg s.color) (c - 40).toNat }
  else s

/-- The parameter with the index. The loop over the parameters may leave the array, and the counter may be negative. -/
def param (s : ShellState) (left : Leftover) (i : Int) : Int :=
  if 0 ≤ i ∧ i < maxEscParams then s.escParams.getD i.toNat 0 else left.beyond i

/-- Set the parameter with the index. What is written outside the array is lost. -/
def setParam (s : ShellState) (i p : Int) : ShellState :=
  if 0 ≤ i ∧ i < maxEscParams then { s with escParams := s.escParams.set i.toNat p } else s

/-- How many turns the loop over the parameters takes. -/
def colorTurns (s : ShellState) : Nat := if s.nbEscParams = 0 then 1 else s.nbEscParams.toNat

/-- The loop that looks for the end of the line, `n` turns at most. -/
def eolLoop (charset : Charset) (stack : Nat → List Byte) : Nat → Pages → Int → Option (Pages × Int)
  | 0, _, _ => none
  | n + 1, t, offset1 =>
    let (t, c, offset2) := ebNextc t charset (stack n) offset1
    if c = newline then some (t, offset1) else eolLoop charset stack n t offset2

/-- Delete from the cursor to the offset, up to which the pages were read. -/
def deleteTo (s : ShellState) (read : Pages × Int) : ShellState :=
  (s.withPages read.1).delete s.curOffset (read.2 - s.curOffset)

/-- What the last byte of an escape sequence does. None when a loop does not end. -/
def csi (left : Leftover) (s : ShellState) (c : Nat) : Option ShellState :=
  -- a count that is missing or negative stands for 1
  let n := if s.escParams.getD 0 0 ≤ 0 then 1 else (s.escParams.getD 0 0).toNat
  match c with
  | 0x48 => -- H: goto xy
    let y := min (wrapInt (s.escParams.getD 0 0 - 1)).toNat (ttyYsize - 1)
    let x := (wrapInt (s.escParams.getD 1 0 - 1)).toNat
    some (ttyGotoxy left.stack s x y)
  | 0x4b => -- K: clear to eol
    (eolLoop s.charset left.stack (s.b.totalSize + 1) s.b.toPages s.curOffset).map s.deleteTo
  | 0x50 => -- P: delete chars
    some (s.deleteTo (gotoColLoop s.charset left.stack n s.b.toPages s.curOffset))
  | 0x40 => some (insertChars n s) -- @: insert chars
  | 0x6d => -- m: colors
    some ((List.range s.colorTurns).foldl (fun s (i : Nat) => s.ttyCsiM (s.param left i)) s)
  | 0x6e => -- n: send a cursor position
    some (if s.escParams.getD 0 0 = 6 then { s with sent := s.sent ++ [27, 0x5b, 0x31, 0x3b, 0x31, 0x52] } else s)
  | _ => some s

/-! ## The emulator -/

/-- The loop that goes to the next line, `n` turns at most. At the end of the buffer it adds a line. -/
def nextLine (stack : Nat → List Byte) : Nat → ShellState → Int → Option ShellState
  | 0, _, _ => none
  | n + 1, s, offset =>
    if offset = s.b.totalSize then
      let s := s.insert offset [newline]
      some { s with curOffset := s.b.totalSize }
    else
      let (t, c, offset) := ebNextc s.b.toPages s.charset (stack n) offset
      let s := s.withPages t
      if c = newline then some { s with curOffset := offset } else nextLine stack n s offset

/-- The part of `tty_emulate` that writes a character over the one at the cursor. -/
def writeChar (stack : Nat → List Byte) (s : ShellState) (c : Nat) : ShellState :=
  let buf := unicodeToCharset c s.charset
  let (t, c1, offset) := ebNextc s.b.toPages s.charset (stack 0) s.curOffset
  let s := s.withPages t
  let curLen := offset - s.curOffset
  let s :=
    if c1 = newline then s.insert s.curOffset buf
    else if curLen = buf.length then s.write s.curOffset buf
    else
      let s := s.delete s.curOffset curLen
      s.insert s.curOffset buf
  { s with curOffset := s.curOffset + buf.length }

/-- `tty_emulate` outside an escape sequence. -/
def norm (left : Leftover) (s : ShellState) (c : Nat) : Option ShellState :=
  match c with
  | 8 =>
    let (t, c1, offset) := ebPrevc s.b.toPages s.charset (left.stack 0) s.curOffset
    let s := s.withPages t
    some (if c1 ≠ newline then { s with curOffset := offset } else s)
  | 10 => nextLine left.stack (s.b.totalSize + 1) s s.curOffset
  | 13 => -- move to bol
    (ebGotoBol s.b.toPages s.charset left.stack s.curOffset).map fun p => { s.withPages p.1 with curOffset := p.2 }
  | 27 => some { s with state := .esc }
  | _ => some (if 32 ≤ c ∨ c = 9 then s.writeChar left.stack c else s)

/-- `tty_update_cursor`. -/
def ttyUpdateCursor (s : ShellState) : ShellState :=
  if s.curOffset = -1 then s else { s with windows := s.windows.map fun _ => s.curOffset }

/-- The switch of `tty_emulate`. None when a loop does not end. -/
def ttySwitch (left : Leftover) (s : ShellState) (c : Nat) : Option ShellState :=
  match s.state with
  | .norm => s.norm left c
  | .esc =>
    some (if c = 0x5b then { s with escParams := List.replicate maxEscParams 0, nbEscParams := 0, state := .csi }
      else { s with state := .norm })
  | .csi =>
    if 0x30 ≤ c ∧ c ≤ 0x39 then
      some (if s.nbEscParams < maxEscParams then
        s.setParam s.nbEscParams (wrapInt (wrapInt (s.param left s.nbEscParams * 10) + c - 0x30)) else s)
    else
      let s := { s with nbEscParams := wrapInt (s.nbEscParams + 1) }
      if c = 0x3b then some s else csi left { s with state := .norm } c

/-- The indices from 0 on. -/
def firstIndices (n : Nat) : List Int := (List.range n).map ((↑) : Nat → Int)

/-- The indices at which `tty_emulate` accesses `esc_params` when it takes in a byte. -/
def escIndices (s : ShellState) (c : Nat) : List Int :=
  match s.state with
  | .norm => []
  | .esc => if c = 0x5b then firstIndices maxEscParams else []
  | .csi =>
    if 0x30 ≤ c ∧ c ≤ 0x39 then if s.nbEscParams < maxEscParams then [s.nbEscParams] else []
    else
      let s := { s with nbEscParams := wrapInt (s.nbEscParams + 1) }
      match c with
      | 0x48 => [0, 1]
      | 0x50 | 0x40 | 0x6e => [0]
      | 0x6d => firstIndices s.colorTurns
      | _ => []

/-- `tty_emulate`. -/
def ttyEmulate (left : Leftover) (s : ShellState) (c : Nat) : Option ShellState := (s.ttySwitch left c).map ttyUpdateCursor

/-- The bytes of the process, one after the other. -/
def emulate (left : Nat → Leftover) : ShellState → List Byte → Option ShellState
  | s, [] => some s
  | s, c :: cs => (s.ttyEmulate (left cs.length) c).bind fun s => emulate left s cs

/-- The indices at which `esc_params` is accessed while the bytes are taken in. -/
def allEscIndices (left : Nat → Leftover) : ShellState → List Byte → List Int
  | _, [] => []
  | s, c :: cs => s.escIndices c ++ ((s.ttyEmulate (left cs.length) c).elim [] fun s => allEscIndices left s cs)

end ShellState

end Hoe
