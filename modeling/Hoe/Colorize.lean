import Hoe.Chars

/-!
# Colorized lines

A window keeps the state of its colorize function at the beginning of each line it has come to. `colorize_callback` notes the
first offset that changed; the next call of `get_colorized_line` turns it into a line and drops the states behind it.
-/

namespace Hoe

/-- The loop of `eb_get_line`, `n` turns at most: what is stored so far, at most `bufSize` characters, and the offset. -/
def getLineLoop (r : Reader) (bufSize : Nat) : Nat → List Nat → Int → List Nat × Int
  | 0, buf, offset => (buf, offset)
  | n + 1, buf, offset =>
    if (r.nextc offset).1 = newline then (buf, (r.nextc offset).2)
    else getLineLoop r bufSize n (if buf.length < bufSize then buf ++ [(r.nextc offset).1] else buf) (r.nextc offset).2

/-- `eb_get_line`: the characters that are stored, and the offset of the next line. -/
def ebGetLine (r : Reader) (bufSize : Nat) (offset : Int) : List Nat × Int := getLineLoop r bufSize r.turns [] offset

/-- `ColorizeFunc`: the cells of the line and the state behind it, from the line and the state in front of it. -/
abbrev ColorizeFunc := List Nat → Int → List Nat × Int

/-- The fields of `EditState` that a colorizer works with. A state is kept in an unsigned char; `maxValidOffset` is none where
the source has `MAXINT`. -/
structure ColorizeStates where
  states : Nat → Nat
  nbLines : Nat
  nbValidLines : Nat
  maxValidOffset : Option Nat

/-- A state in the array: an unsigned char. -/
def keptState (state : Int) : Nat := (state % 256).toNat

/-- `COLORIZED_LINE_PREALLOC_SIZE`. -/
def colorizedLinePreallocSize : Nat := 64

/-- `COLORED_MAX_LINE_SIZE`, the size that `text_display` gives. -/
def coloredMaxLineSize : Nat := 1024

/-- `MAX_BUF_SIZE` of clang.c; `do_c_indent` gives one less. -/
def maxBufSize : Nat := 512

/-- `set_colorize_func` for a function; what the array has is whatever the memory has. -/
def setColorizeFunc (memory : Nat → Nat) : ColorizeStates :=
  { states := memory, nbLines := 0, nbValidLines := 0, maxValidOffset := none }

/-- `colorize_callback`. -/
def colorizeCallback (e : ColorizeStates) (offset : Nat) : ColorizeStates :=
  match e.maxValidOffset with
  | none => { e with maxValidOffset := some offset }
  | some o => if offset < o then { e with maxValidOffset := some offset } else e

/-- The loop of `get_colorized_line` that goes through the lines, from line `l` at the offset. -/
def propagate (colorize : ColorizeFunc) (r : Reader) (bufSize : Nat) : Nat → Nat → Int → Int → (Nat → Nat) → (Nat → Nat)
  | 0, _, _, _, states => states
  | n + 1, l, offset, state, states =>
    let line := ebGetLine r (bufSize - 1) offset
    let state := (colorize line.1 state).2
    propagate colorize r bufSize n (l + 1) line.2 state (Function.update states l (keptState state))

namespace ColorizeStates

/-- The first part of `get_colorized_line`: drop the states behind the first change. -/
def dropInvalid (s : ColorizeStates) (t : Pages) (charset : Charset) : ColorizeStates :=
  match s.maxValidOffset with
  | none => s
  | some offset =>
    let line := (ebGetPos t charset offset).1 + 1
    { s with nbValidLines := if line < s.nbValidLines then line else s.nbValidLines, maxValidOffset := none }

/-- The second part: make room for the states. -/
def makeRoom (s : ColorizeStates) (lineNum : Nat) : ColorizeStates :=
  if s.nbLines < lineNum + 2 then { s with nbLines := lineNum + 2 + colorizedLinePreallocSize } else s

/-- Where no state is kept, the first one is zero. -/
def start (s : ColorizeStates) : ColorizeStates :=
  if s.nbValidLines = 0 then { s with states := Function.update s.states 0 0, nbValidLines := 1 } else s

/-- From the last state that is kept up to the line. -/
def goOn (s : ColorizeStates) (colorize : ColorizeFunc) (t : Pages) (r : Reader) (bufSize lineNum : Nat) : ColorizeStates :=
  { s with
    states := propagate colorize r bufSize (lineNum + 1 - s.nbValidLines) s.nbValidLines
      (ebGotoPos t r (s.nbValidLines - 1) 0) (s.states (s.nbValidLines - 1)) s.states }

/-- The third part: the states up to the line. -/
def reach (s : ColorizeStates) (colorize : ColorizeFunc) (t : Pages) (r : Reader) (bufSize lineNum : Nat) : ColorizeStates :=
  if lineNum < s.nbValidLines then s else s.start.goOn colorize t r bufSize lineNum

end ColorizeStates

/-- `get_colorized_line`: the cells of the line, and the states. -/
def getColorizedLine (s : ColorizeStates) (colorize : ColorizeFunc) (t : Pages) (r : Reader) (bufSize : Nat) (offset1 : Int)
    (lineNum : Nat) : List Nat × ColorizeStates :=
  let s := ((s.dropInvalid t r.charset).makeRoom lineNum).reach colorize t r bufSize lineNum
  let cells := colorize (ebGetLine r (bufSize - 1) offset1).1 (s.states lineNum)
  (cells.1, { s with states := Function.update s.states (lineNum + 1) (keptState cells.2), nbValidLines := lineNum + 2 })

/-! ## A window that is edited and displayed -/

/-- What comes to the colorizer of a window: the buffer changes, and `colorize_callback` is called for each offset; or a caller
asks for a line with an array of some size, and finds the stack as it is. -/
inductive ColorizeEvent where
  | edit (t : Pages) (offsets : List Nat)
  | line (bufSize lineNum : Nat) (stack : List Byte)

/-- A buffer, and the states of a window on it. -/
structure Colorizer where
  buffer : Pages
  states : ColorizeStates

namespace Colorizer

/-- The text as `eb_nextc` reads it. -/
def reader (c : Colorizer) (charset : Charset) (stack : List Byte) : Reader := ⟨c.buffer.bytes, charset, stack⟩

/-- The line, asked for at its beginning. -/
def getLine (c : Colorizer) (colorize : ColorizeFunc) (charset : Charset) (bufSize lineNum : Nat) (stack : List Byte) :
    List Nat × ColorizeStates :=
  getColorizedLine c.states colorize c.buffer (c.reader charset stack) bufSize (skipLines lineNum c.buffer.bytes) lineNum

/-- One event. -/
def run (c : Colorizer) (colorize : ColorizeFunc) (charset : Charset) : ColorizeEvent → Colorizer
  | .edit t offsets => { buffer := t, states := offsets.foldl colorizeCallback c.states }
  | .line bufSize lineNum stack => { c with states := (c.getLine colorize charset bufSize lineNum stack).2 }

end Colorizer

end Hoe
