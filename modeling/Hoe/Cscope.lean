import Hoe.Commands
import Hoe.Minibuffer
import Hoe.Lib.Digits

/-!
# Cscope

The marks of cscope.c that `cscope-pop-mark` goes back to, over the windows as `switch_to_buffer` leaves them, and the entries that
the output of cscope is taken apart into. Of what a mode saves of a window, the cursor goes along.
-/

namespace Hoe

namespace Cscope

/-! ## The stack of marks -/

/-- `CscopeMark`. -/
structure CscopeMark where
  b : BufferPtr
  offset : Int
deriving DecidableEq, Repr

/-- `CscopeMarkStack`. -/
structure CscopeMarkStack where
  index : Int
  stack : List CscopeMark
  length_stack : stack.length = cscopeStackSize

/-- The stack as `cscope_init` leaves it, in zeroed memory. -/
def CscopeMarkStack.init : CscopeMarkStack := ⟨-1, List.replicate cscopeStackSize ⟨0, 0⟩, List.length_replicate⟩

/-- `cscope_push_mark`: the stack, and what is returned. There is no result where the mark is written outside of the array. -/
def cscopePushMark (c : CscopeMarkStack) (b : BufferPtr) (offset : Int) : Option (CscopeMarkStack × Int) :=
  if cscopeStackSize ≤ c.index then some (c, -1)
  else
    let index := c.index + 1
    if 0 ≤ index ∧ index < cscopeStackSize then
      some (⟨index, c.stack.set index.toNat ⟨b, offset⟩, by rw [List.length_set, c.length_stack]⟩, 0)
    else none

/-- `cscope_pop_mark`: the stack, and the mark if there is one. There is no result where the mark is read outside of the array. -/
def cscopePopMark (c : CscopeMarkStack) : Option (CscopeMarkStack × Option CscopeMark) :=
  if c.index < 0 then some (c, none)
  else c.stack[c.index.toNat]?.map fun m => ({ c with index := c.index - 1 }, some m)

/-! ## Windows -/

/-- `ModeDef`, by what a mode does to the cursor: `text_mode` with the modes whose `mode_init` calls its own, `list_mode` and
`shell_mode` with the modes made of them, and `dired_mode`. -/
inductive ModeDef where
  | text
  | list
  | dired
deriving DecidableEq, Repr

/-- `ModeSavedData`. -/
structure ModeSavedData where
  mode : ModeDef
  offset : Int
deriving DecidableEq, Repr

/-- A window: its buffer, its mode and its cursor. -/
structure View where
  b : BufferPtr
  mode : ModeDef
  offset : Int
deriving DecidableEq, Repr

/-- `generic_mode_save_data`. -/
def View.save (v : View) : ModeSavedData := ⟨v.mode, v.offset⟩

/-- `mode_close`. That of dired is `dired_free`, which resets the cursor. -/
def View.closeMode (v : View) : View :=
  match v.mode with
  | .dired => { v with offset := 0 }
  | _ => v

/-- `do_set_mode` on a window whose mode is closed: what `mode_init` does to the cursor. `text_mode_init` restores it,
`list_mode_init` and `shell_mode_init` leave it alone, and `dired_mode_init` builds the list, with a `dired_free` first. -/
def View.setMode (v : View) (m : ModeDef) (savedData : Option ModeSavedData) : View :=
  match m with
  | .text => { v with mode := m, offset := (savedData.map (·.offset)).getD 0 }
  | .list => { v with mode := m }
  | .dired => { v with mode := m, offset := 0 }

/-- The windows from `first_window` on, what the buffers have saved, `cs.os` and the marks. -/
structure State where
  windows : List WindowPtr
  views : WindowPtr → View
  savedData : BufferPtr → Option ModeSavedData
  os : WindowPtr
  cstack : CscopeMarkStack

namespace State

def setView (s : State) (e : WindowPtr) (v : View) : State := { s with views := Function.update s.views e v }

/-- Another window on the buffer, the first one. -/
def otherOn (s : State) (e : WindowPtr) (b : BufferPtr) : Option WindowPtr :=
  s.windows.find? fun w => w ≠ e ∧ (s.views w).b = b

/-- The part of `switch_to_buffer` that saves old buffer data if no other window uses the buffer. -/
def saveShown (s : State) (e : WindowPtr) : State :=
  match s.otherOn e (s.views e).b with
  | some _ => s
  | none => { s with savedData := Function.update s.savedData (s.views e).b (some (s.views e).save) }

/-- The data that `switch_to_buffer` restores, from another window or from the buffer. -/
def restoredData (s : State) (e : WindowPtr) (b : BufferPtr) : Option ModeSavedData :=
  match s.otherOn e b with
  | some w => some (s.views w).save
  | none => s.savedData b

/-- `switch_to_buffer`. -/
def switchToBuffer (s : State) (e : WindowPtr) (b : BufferPtr) : State :=
  let s := s.saveShown e
  let savedData := s.restoredData e b
  let mode := (savedData.map (·.mode)).getD .text
  s.setView e ({ (s.views e).closeMode with b := b }.setMode mode savedData)

/-- `do_load1`. A file that is edited already has a buffer; one that is not gets one, at an address where nothing is saved, and the
mode that was probed, if any. -/
def doLoad1 (s : State) (e : WindowPtr) (b : BufferPtr) (edited : Bool) (probed : Option ModeDef) : State :=
  if edited then s.switchToBuffer e b
  else
    let s := { s with savedData := Function.update s.savedData b none }.switchToBuffer e b
    let v := { s.views e with offset := 0 }
    match probed with
    | some m => s.setView e (v.closeMode.setMode m (some v.save))
    | none => s.setView e v

/-- `do_load_at_line`: `bol` is where `eb_goto_pos` finds the line. -/
def doLoadAtLine (s : State) (e : WindowPtr) (b : BufferPtr) (edited : Bool) (probed : Option ModeDef) (line bol : Int) : State :=
  let s := s.doLoad1 e b edited probed
  if line < 1 then s else s.setView e { s.views e with offset := bol }

/-- `do_cscope_pop_mark`. -/
def doCscopePopMark (s : State) : Option State :=
  (cscopePopMark s.cstack).map fun
    | (_, none) => s
    | (cstack, some csm) =>
      let s := { s with cstack := cstack }
      let s := s.setView s.os { s.views s.os with offset := csm.offset }
      s.switchToBuffer s.os csm.b

end State

/-! ## Runs -/

/-- What happens to the marks: a result is selected, in `cscope_select_file` or as the only one of `cscope_query_and_show`, a mark is
popped, or something else is done that leaves the marks alone, as moving the cursor, another operation of cscope, from another
window, or showing another buffer. -/
inductive Event where
  | select (b : BufferPtr) (edited : Bool) (probed : Option ModeDef) (line bol : Int)
  | pop
  | other (windows : List WindowPtr) (views : WindowPtr → View) (savedData : BufferPtr → Option ModeSavedData) (os : WindowPtr)

/-- The state behind an event. -/
def State.run (s : State) : Event → Option State
  | .select b edited probed line bol =>
    let w := s.views s.os
    -- a full stack is only told
    (cscopePushMark s.cstack w.b w.offset).map fun (cstack, _) =>
      { s with cstack := cstack }.doLoadAtLine s.os b edited probed line bol
  | .pop => s.doCscopePopMark
  | .other windows views savedData os => some { s with windows := windows, views := views, savedData := savedData, os := os }

/-! ## The output -/

/-- `CscopeOutput`, each array as it was filled: its strings end at the first NUL. -/
structure CscopeOutput where
  file : List Byte
  line : Int
  sym : List Byte
  context : List Byte
deriving DecidableEq, Repr

/-- `atoi`. -/
def atoi (s : List Byte) : Int :=
  let digits (s : List Byte) : Int := Digits.value 10 0 ((s.takeWhile isDigit).map (· - '0'.toNat))
  match s.dropWhile isspace with
  | c :: s => if c = '-'.toNat then -digits s else if c = '+'.toNat then digits s else digits (c :: s)
  | [] => 0

/-- The loop over a field of `cscope_parse_line`, which ends behind a blank: what an array of the size has room for, and what
follows. There is no result where the loop reads behind the text. -/
def parseField (size : Nat) (field : List Byte) : List Byte → Option (List Byte × List Byte)
  | [] => none
  | c :: line =>
    if c = ' '.toNat then some (field, line)
    else if size - 1 ≤ field.length then parseField size field line
    else parseField size (field ++ [c]) line

/-- `sizeof(out->context)`. -/
def contextSize : Nat := 1024

/-- The loop over the context. Its condition is true of every character. -/
def parseContext (context : List Byte) : List Byte → Option (List Byte)
  | [] => none
  | c :: line =>
    if c ≠ newline ∨ c ≠ 0 ∨ c ≠ 0 then
      if contextSize - 1 ≤ context.length then some (context.take (context.length - 1))
      else parseContext (context ++ [c]) line
    else some context

/-- `cscope_parse_line`, on the text from the line on. -/
def cscopeParseLine (line : List Byte) : Option CscopeOutput := do
  let (file, line) ← parseField 1024 [] line
  let (sym, line) ← parseField 256 [] line
  let (lstr, line) ← parseField 8 [] line
  let context ← parseContext [] line
  some { file := file, line := atoi lstr, sym := sym, context := context }

/-- `strtok` for a newline, from an offset on: where the token begins, the text behind which a NUL ends it, and where it goes on. -/
def strtok (output : List Byte) (offset : Nat) : Option (Nat × List Byte × Nat) :=
  let start := offset + ((output.drop offset).takeWhile (· = newline)).length
  let stop := start + ((output.drop start).takeWhile fun c => c ≠ newline ∧ c ≠ 0).length
  if output.getD start 0 = 0 then none
  else if output.getD stop 0 = newline then some (start, output.set stop 0, stop + 1)
  else some (start, output, stop)

/-- The loop of `cscope_parse_output`, `n` turns at most. There is no result where an entry is written behind the array. -/
def parseTokens (nrEntries : Nat) : Nat → List Byte → Nat → List CscopeOutput → Option (List CscopeOutput)
  | 0, _, _, _ => none
  | n + 1, output, offset, out =>
    match strtok output offset with
    | none => some out
    | some (tok, output, next) =>
      if out.length < nrEntries then
        (cscopeParseLine (output.drop tok)).bind fun e => parseTokens nrEntries n output next (out ++ [e])
      else none

/-- `cscope_parse_output`, on an output with the NUL behind it: the entries that are filled. -/
def cscopeParseOutput (output : List Byte) (nrEntries : Nat) : Option (List CscopeOutput) :=
  parseTokens nrEntries (output.length + 1) (output ++ [0]) 0 []

/-- What `cscope_query_and_show` has parsed, with as many entries as there are newlines. -/
def cscopeEntries (output : List Byte) : Option (List CscopeOutput) := cscopeParseOutput output (output.count newline)

end Cscope

end Hoe
