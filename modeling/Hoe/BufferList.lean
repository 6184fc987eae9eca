import Mathlib.Data.List.Basic

/-!
# The buffer list

The list of the buffers and the functions of buffer.c that put a buffer into it, take it out and name it. A buffer is named by the
address it was allocated at, which no later buffer has again. What a buffer holds is left out, and so are the entries of its log:
the log is a buffer of the list, and only its address matters. A buffer that is not in the list is changed in vain, which in the
program is an access to freed memory; the theorems are about whether there is a pointer to one.
-/

namespace Hoe

/-- The address of a buffer. -/
abbrev BufferPtr := Nat

/-- `flags`: `BF_SAVELOG`, `BF_SYSTEM`, `BF_READONLY` and `BF_PREVIEW`. -/
structure BufferFlags where
  savelog : Bool := false
  system : Bool := false
  readonly : Bool := false
  preview : Bool := false
deriving DecidableEq, Repr

/-- The fields of `EditBuffer` that decide which buffers are freed. -/
structure BufferEntry where
  ptr : BufferPtr
  name : String
  filename : String := ""
  flags : BufferFlags
  saveLog : Bool
  modified : Bool := false
  logBuffer : Option BufferPtr := none
deriving DecidableEq, Repr

/-- The list from `first_buffer` on. -/
structure BufferList where
  buffers : List BufferEntry
  nextBuffer : BufferPtr
deriving DecidableEq, Repr

namespace BufferList

/-- The buffer at an address. -/
def entry (l : BufferList) (b : BufferPtr) : Option BufferEntry := l.buffers.find? fun c => c.ptr == b

/-- Change the buffer at an address. -/
def updateBuffer (l : BufferList) (b : BufferPtr) (f : BufferEntry → BufferEntry) : BufferList :=
  { l with buffers := l.buffers.map fun c => if c.ptr = b then f c else c }

/-- `eb_find`. -/
def ebFind (l : BufferList) (name : String) : Option BufferEntry := l.buffers.find? fun c => c.name == name

/-- `eb_find_file`. -/
def ebFindFile (l : BufferList) (filename : String) : Option BufferEntry := l.buffers.find? fun c => c.filename == filename

/-- `eb_new`: the buffer is the one at `nextBuffer`, in front of the others. -/
def ebNew (l : BufferList) (name : String) (flags : BufferFlags) : BufferList :=
  { buffers := { ptr := l.nextBuffer, name := name, flags := flags, saveLog := flags.savelog } :: l.buffers
    nextBuffer := l.nextBuffer + 1 }

/-- The last lines of `eb_free`, which take the buffer out of the list. -/
def unlink (l : BufferList) (b : BufferPtr) : BufferList := { l with buffers := l.buffers.eraseP fun c => c.ptr == b }

/-- The log of a buffer. -/
def log (l : BufferList) (b : BufferPtr) : Option BufferPtr := (l.entry b).bind (·.logBuffer)

/-- `log_reset`. The log is a system buffer, which keeps no log itself. -/
def logReset (l : BufferList) (b : BufferPtr) : BufferList :=
  let l' := match l.log b with
    | some log => l.unlink log
    | none => l
  l'.updateBuffer b fun c => { c with logBuffer := none, modified := false }

/-- `eb_free`. -/
def ebFree (l : BufferList) (b : BufferPtr) : BufferList := (l.logReset b).unlink b

/-- `eb_addlog`, which every change of a text calls: the first one makes the log. -/
def ebAddlog (l : BufferList) (b : BufferPtr) : BufferList :=
  let l := l.updateBuffer b fun c => { c with modified := true }
  match l.entry b with
  | some c =>
    if c.saveLog && c.logBuffer.isNone then
      (l.ebNew ("*log <" ++ c.name ++ ">*") { system := true }).updateBuffer b fun c => { c with logBuffer := some l.nextBuffer }
    else l
  | none => l

/-- The loop of `set_buffer_name`, which adds a number to the name until no buffer has it; as many turns as there are buffers are
enough. -/
def uniqueName (l : BufferList) (name : String) : Nat → Nat → String → String
  | 0, _, name' => name'
  | fuel + 1, n, name' => if (l.ebFind name').isSome then uniqueName l name fuel (n + 1) (name ++ "<" ++ toString n ++ ">") else name'

/-- `set_buffer_name`. -/
def setBufferName (l : BufferList) (b : BufferPtr) (name : String) : BufferList :=
  let l := l.updateBuffer b fun c => { c with name := "" }
  let name := uniqueName l name (l.buffers.length + 1) 2 name
  l.updateBuffer b fun c => { c with name := name }

/-- `qe_basename`. -/
def qeBasename (filename : String) : String := ((filename.splitOn "/").getLast?).getD filename

/-- `set_filename`. -/
def setFilename (l : BufferList) (b : BufferPtr) (filename : String) : BufferList :=
  (l.updateBuffer b fun c => { c with filename := filename }).setBufferName b (qeBasename filename)

end BufferList

end Hoe
