import Hoe.BufferList
import Hoe.Paths
import Hoe.Windows
import Hoe.Lib.Vt

/-!
# The names of the buffers

The buffers with the bytes of their names and file names, and the commands that make, name, look up and kill them. A name is looked
up as it is and kept in an array of 256 bytes. What a text holds is left out: that a text changes, whoever changes it, is a command
of its own here, since the first change makes the log, which is a buffer with a name. The buffer of the minibuffer is left out too:
it is freed before the command it asks for runs. There is no next state where a freed buffer is accessed, or where a name is written
past the end of its array.
-/

namespace Hoe

/-- The fields of `EditBuffer` that name a buffer and tell the names that it gives to others, and `b_color` of its shell. -/
structure NamedBuffer where
  ptr : BufferPtr
  name : List Byte
  filename : List Byte := []
  flags : BufferFlags
  saveLog : Bool
  modified : Bool := false
  logBuffer : Option BufferPtr := none
  bColor : Option BufferPtr := none
deriving DecidableEq, Repr

/-- The list from `first_buffer` on, and the buffer that each window shows. -/
structure BufferNames where
  buffers : List NamedBuffer
  nextBuffer : BufferPtr
  shows : WindowPtr → BufferPtr

/-- A command of a window, with what is replied to it and whether what it does outside the editor succeeds. -/
inductive NameCommand where
  | switchToBuffer (name : List Byte)
  | findFile (filename : List Byte)
  | findAlternateFile (filename : List Byte) (yes : Bool)
  | writeFile (filename : List Byte) (written : Bool)
  | shell (launched : Bool)
  | killBuffer (name : List Byte) (yes : Bool)
  | edit (b : BufferPtr)
deriving DecidableEq, Repr

/-- The name of the log of a buffer, printed to an array of 256 bytes. -/
def logName (name : List Byte) : List Byte := pstrcpy 256 (cstr "*log <" ++ name ++ cstr ">*")

namespace BufferNames

/-! ## The list -/

/-- The buffer at an address. -/
def entry (s : BufferNames) (b : BufferPtr) : Option NamedBuffer := s.buffers.find? fun c => c.ptr == b

/-- Change the buffer at an address. -/
def updateBuffer (s : BufferNames) (b : BufferPtr) (f : NamedBuffer → NamedBuffer) : BufferNames :=
  { s with buffers := s.buffers.map fun c => if c.ptr = b then f c else c }

/-- `eb_find`. -/
def ebFind (s : BufferNames) (name : List Byte) : Option NamedBuffer := s.buffers.find? fun c => c.name == name

/-- `eb_find_file`. -/
def ebFindFile (s : BufferNames) (filename : List Byte) : Option NamedBuffer := s.buffers.find? fun c => c.filename == filename

/-- `eb_new`: the buffer is the one at `nextBuffer`, in front of the others. -/
def ebNew (s : BufferNames) (name : List Byte) (flags : BufferFlags) : BufferNames :=
  { s with
    buffers := { ptr := s.nextBuffer, name := pstrcpy 256 name, flags := flags, saveLog := flags.savelog } :: s.buffers
    nextBuffer := s.nextBuffer + 1 }

/-- The last lines of `eb_free`, which take the buffer out of the list. -/
def unlink (s : BufferNames) (b : BufferPtr) : BufferNames := { s with buffers := s.buffers.eraseP fun c => c.ptr == b }

/-- A pointer of a buffer to another one, unless it is NULL, leads to a buffer. -/
def leads (s : BufferNames) : Option BufferPtr → Bool
  | some b => (s.entry b).isSome
  | none => true

/-- `log_reset`. The log is a system buffer, which keeps no log itself. -/
def logReset (s : BufferNames) (b : BufferPtr) : Option BufferNames :=
  (s.entry b).bind fun c =>
    if s.leads c.logBuffer then
      let s := c.logBuffer.elim s s.unlink
      some (s.updateBuffer b fun c => { c with logBuffer := none, modified := false })
    else none

/-- `eb_free`. -/
def ebFree (s : BufferNames) (b : BufferPtr) : Option BufferNames := (s.logReset b).map (·.unlink b)

/-- The part of `eb_addlog` that makes the log of a buffer. -/
def newLog (s : BufferNames) (c : NamedBuffer) : BufferNames :=
  (s.ebNew (logName c.name) { system := true }).updateBuffer c.ptr fun c => { c with logBuffer := some s.nextBuffer }

/-- `eb_addlog`, which every change of a text calls: it changes the colors of a shell, and the first one makes the log. -/
def ebAddlog (s : BufferNames) (b : BufferPtr) : Option BufferNames :=
  (s.entry b).bind fun c =>
    if s.leads c.bColor && (!c.saveLog || s.leads c.logBuffer) then
      let s := s.updateBuffer b fun c => { c with modified := true }
      some (if c.saveLog && c.logBuffer.isNone then s.newLog c else s)
    else none

/-! ## Naming -/

/-- The loop of `set_buffer_name`, for so many turns: it writes a number behind the name until no buffer has it. -/
def renameLoop (s : BufferNames) (base : List Byte) : Nat → Nat → List Byte → Option (List Byte)
  | 0, _, _ => none
  | fuel + 1, n, name =>
    if (s.ebFind name).isSome then renameLoop s base fuel (n + 1) (base ++ cstr "<" ++ Vt.decimal n ++ cstr ">") else some name

/-- `set_buffer_name`. There are as many turns as buffers, and one more. -/
def setBufferName (s : BufferNames) (b : BufferPtr) (name1 : List Byte) : Option BufferNames :=
  let base := pstrcpy (256 - 10) name1
  let s := s.updateBuffer b fun c => { c with name := [] }
  (s.renameLoop base (s.buffers.length + 1) 2 base).bind fun name =>
    if name.length < 256 then some (s.updateBuffer b fun c => { c with name := pstrcpy 256 name }) else none

/-- `set_filename`. -/
def setFilename (s : BufferNames) (b : BufferPtr) (filename : List Byte) : Option BufferNames :=
  (s.updateBuffer b fun c => { c with filename := pstrcpy 1024 filename }).setBufferName b (qeBasename filename)

/-! ## The commands -/

/-- `switch_to_buffer`, which saves the mode of the buffer that the window shows. -/
def switchToBuffer (s : BufferNames) (e : WindowPtr) (b : BufferPtr) : Option BufferNames :=
  (s.entry (s.shows e)).map fun _ => { s with shows := Function.update s.shows e b }

/-- `do_switch_to_buffer`. -/
def doSwitchToBuffer (s : BufferNames) (e : WindowPtr) (bufname : List Byte) : Option BufferNames :=
  match s.ebFind bufname with
  | some b => s.switchToBuffer e b.ptr
  | none => (s.ebNew bufname { savelog := true }).switchToBuffer e s.nextBuffer

/-- The buffer that `kill_buffer_noconfirm` switches to, which is made when there is none. -/
def otherBuffer (s : BufferNames) (b : BufferPtr) : BufferNames × BufferPtr :=
  match s.buffers.find? fun c => c.ptr != b && !c.flags.system with
  | some c => (s, c.ptr)
  | none => (s.ebNew (cstr "*scratch*") { savelog := true }, s.nextBuffer)

/-- `kill_buffer_noconfirm`. -/
def killBufferNoconfirm (s : BufferNames) (b : BufferPtr) : Option BufferNames :=
  let other := s.otherBuffer b
  ebFree { other.1 with shows := fun e => if s.shows e = b then other.2 else s.shows e } b

/-- `do_kill_buffer`, and what is replied when it asks. -/
def doKillBuffer (s : BufferNames) (bufname : List Byte) (yes : Bool) : Option BufferNames :=
  match s.ebFind bufname with
  | some b => if b.modified && b.filename != [] && !yes then some s else s.killBufferNoconfirm b.ptr
  | none => some s

/-- The part of `do_load1` that makes a buffer for a file and switches to it. -/
def loadNew (s : BufferNames) (e : WindowPtr) (filename : List Byte) : Option BufferNames :=
  ((s.ebNew [] { savelog := true }).setFilename s.nextBuffer filename).bind (·.switchToBuffer e s.nextBuffer)

/-- The first lines of `do_load1`: the buffer of the window is killed if `kill_buffer` is set, with what is replied when it asks. -/
def killShown (s : BufferNames) (e : WindowPtr) : Option Bool → Option BufferNames
  | some yes => (s.entry (s.shows e)).bind fun b => s.doKillBuffer b.name yes
  | none => some s

/-- `do_load1`, up to where the text is loaded. -/
def doLoad1 (cwd : List Byte) (s : BufferNames) (e : WindowPtr) (filename1 : List Byte) (killBuffer : Option Bool) :
    Option BufferNames :=
  (s.killShown e killBuffer).bind fun s =>
    let filename := canonizeAbsolutePath cwd 1024 filename1
    match s.ebFindFile filename with
    | some b => s.switchToBuffer e b.ptr
    | none => s.loadNew e filename

/-- `save_edit_cb`, and whether the file is written. -/
def saveEditCb (s : BufferNames) (e : WindowPtr) (filename : List Byte) (written : Bool) : Option BufferNames :=
  (s.entry (s.shows e)).bind fun b => (s.setFilename b.ptr filename).bind fun s => if written then s.logReset b.ptr else some s

/-- The part of `new_shell_buffer` that makes the buffers of a shell. -/
def newShell (s : BufferNames) : Option BufferNames :=
  ((s.ebNew [] { savelog := true }).setBufferName s.nextBuffer (cstr "*shell*")).map fun s' =>
    (s'.ebNew (cstr "*color*") { system := true }).updateBuffer s.nextBuffer fun c => { c with bColor := some s'.nextBuffer }

/-- `do_shell`, and whether the process is launched. -/
def doShell (s : BufferNames) (e : WindowPtr) (launched : Bool) : Option BufferNames :=
  s.newShell.bind fun s' => if launched then s'.switchToBuffer e s.nextBuffer else s'.ebFree s.nextBuffer

/-- A command of a window, where `getcwd` gives `cwd`. -/
def step (cwd : List Byte) (s : BufferNames) (e : WindowPtr) : NameCommand → Option BufferNames
  | .switchToBuffer name => s.doSwitchToBuffer e name
  | .findFile filename => doLoad1 cwd s e filename none
  | .findAlternateFile filename yes => doLoad1 cwd s e filename (some yes)
  | .writeFile filename written => s.saveEditCb e filename written
  | .shell launched => s.doShell e launched
  | .killBuffer name yes => s.doKillBuffer name yes
  | .edit b => s.ebAddlog b

/-- The commands one after another. -/
def run (cwd : List Byte) (s : BufferNames) : List (WindowPtr × NameCommand) → Option BufferNames
  | [] => some s
  | c :: cs => (s.step cwd c.1 c.2).bind fun s => run cwd s cs

/-- The first state, in which every window shows the buffer "*scratch*". -/
def start : BufferNames := ebNew ⟨[], 0, fun _ => 0⟩ (cstr "*scratch*") { savelog := true }

end BufferNames

end Hoe
