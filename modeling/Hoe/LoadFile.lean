import Hoe.BufferNames
import Hoe.Characters
import Hoe.EditBuffer

/-!
# Loading a file

What `do_load1` does with a file before anybody edits it: a buffer is made, named and shown, the text is loaded when the window is
given a mode, and the first bytes tell the mode and the charset. Of the fields of a window that a mode saves, the offset goes along.
-/

namespace Hoe

/-! ## The charset of a text -/

/-- The inner loop of `detect_charset`, over the bytes that go on with a character: `has_utf8`, and what is left of the text. -/
def detectTail (hasUtf8 : Bool) : Nat → List Byte → Bool × List Byte
  | 0, p => (hasUtf8, p)
  | _ + 1, [] => (true, [])
  -- the break behind `no_utf8` leaves this loop alone
  | l + 1, c :: p => if isTail c then detectTail true l p else (false, p)

/-- The loop of `detect_charset`, `n` turns at most. -/
def detectLoop : Nat → Bool → List Byte → Bool
  | n + 1, hasUtf8, c :: p =>
    if isTail c ∨ 0xfe ≤ c then detectLoop n false p
    else
      let (hasUtf8, p) := detectTail hasUtf8 (utf8Length c - 1) p
      detectLoop n hasUtf8 p
  | _, hasUtf8, _ => hasUtf8

/-- `detect_charset`. -/
def detectCharset (buf : List Byte) : Charset := if detectLoop buf.length false buf then .utf8 else .latin1

/-! ## The text of a file -/

/-- Which calls of the system do what they are asked for. Nothing of no length is mapped, and nothing is mapped or allocated that is
longer than a pointer can tell apart. -/
structure SystemCalls where
  opens : Bool
  maps : Nat → Bool
  allocates : Nat → Bool
  maps_zero : maps 0 = false
  maps_lt : ∀ size, maps size = true → size < 2 ^ 63
  allocates_lt : ∀ size, allocates size = true → size < 2 ^ 63

/-- Calls that do all they can. -/
def willingCalls : SystemCalls :=
  { opens := true
    maps := fun size => decide (0 < size ∧ size < 2 ^ 63)
    allocates := fun size => decide (size < 2 ^ 63)
    maps_zero := by decide
    maps_lt := fun size h => (of_decide_eq_true h).2
    allocates_lt := fun size h => of_decide_eq_true h }

/-- An `int` as a `size_t`. -/
def sizeOfInt (n : Int) : Nat := (n % 2 ^ 64).toNat

/-- `sizeof(Page)`. -/
def sizeofPage : Nat := 32

/-- `mmap_buffer`, none on an error: the size of the file goes through an `int`. -/
def mmapFile (sys : SystemCalls) (b : EditBuffer) (ino : Nat) (file : List Byte) : Option EditBuffer :=
  let fileSize := wrapInt file.length
  let n := (wrapInt (fileSize + maxPageSize - 1)).tdiv maxPageSize
  if sys.opens && sys.maps (sizeOfInt fileSize) && sys.allocates (sizeOfInt (n * sizeofPage)) then
    some { b with
      pageTable := mapPages ino n.toNat 0 (file.take fileSize.toNat), totalSize := fileSize.toNat, nbPages := n.toNat }
  else none

/-- `raw_load_buffer` of a file of which `unread` is left to read. -/
def rawLoadFile (sys : SystemCalls) (b : EditBuffer) (ino : Nat) (file unread : List Byte) : Option EditBuffer :=
  if minMmapSize ≤ file.length then mmapFile sys b ino file else some (rawLoadBuffer1 b 0 unread)

/-! ## Modes -/

/-- `ModeProbeData`; `regular` is what a probe wants to know of the kind of file. -/
structure ModeProbeData where
  buf : List Byte
  filename : List Byte
  regular : Bool

/-- `ModeDef`: its name, and how sure its probe is of a file. -/
structure ModeDef where
  name : List Byte
  modeProbe : Option (ModeProbeData → Nat)

/-- `text_mode`, whose probe takes every file. -/
def textMode : ModeDef := { name := cstr "text", modeProbe := some fun _ => 10 }

/-- The loop of `probe_mode`. -/
def probeLoop (data : ModeProbeData) : List ModeDef → Option ModeDef → Nat → Option ModeDef
  | [], selected, _ => selected
  | m :: ms, selected, best =>
    match m.modeProbe with
    | some probe => if best < probe data then probeLoop data ms (some m) (probe data) else probeLoop data ms selected best
    | none => probeLoop data ms selected best

/-- `probe_mode`. -/
def probeMode (modes : List ModeDef) (data : ModeProbeData) : Option ModeDef := probeLoop data modes none 0

/-! ## The editor and its files -/

/-- What is at a path. -/
structure FileEntry where
  ino : Nat
  regular : Bool
  readable : Bool
  content : List Byte

/-- What does not change while files are opened: the directory, the files, and the modes, of which the text mode is one. -/
structure Surroundings where
  cwd : List Byte
  sys : SystemCalls
  files : List Byte → Option FileEntry
  modes : List ModeDef
  text_mem : textMode ∈ modes

/-- The status lines of `do_load1` and `reload_buffer`. -/
inductive LoadMessage where
  | newFile
  | couldNotOpen (filename : List Byte)
  | couldNotLoad (filename : List Byte)
  | errorWhileReloading (filename : List Byte)
deriving DecidableEq, Repr

/-- What can be seen of the calls: the status lines, and what `fopen` and `fclose` were called with. -/
inductive LoadEvent where
  | status (message : LoadMessage)
  | fopen (filename : List Byte) (f : Option Nat)
  | fclose (f : Option Nat)
deriving DecidableEq, Repr

/-- The mode and the cursor of a window. -/
structure WindowView where
  mode : Option ModeDef
  offset : Int

/-- The buffers, the windows, and what has happened so far. -/
structure LoadState where
  names : BufferNames
  texts : BufferPtr → EditBuffer
  charsets : BufferPtr → Charset
  savedData : BufferPtr → Option WindowView
  windows : List WindowPtr
  views : WindowPtr → WindowView
  nextFile : Nat
  events : List LoadEvent

namespace LoadState

variable (sur : Surroundings)

def event (s : LoadState) (e : LoadEvent) : LoadState := { s with events := s.events ++ [e] }

/-- `put_status`. -/
def putStatus (s : LoadState) (m : LoadMessage) : LoadState := s.event (.status m)

def setText (s : LoadState) (b : BufferPtr) (text : EditBuffer) : LoadState := { s with texts := Function.update s.texts b text }

def setView (s : LoadState) (e : WindowPtr) (v : WindowView) : LoadState := { s with views := Function.update s.views e v }

/-- `fopen`: the stream, or NULL. -/
def fopen (s : LoadState) (filename : List Byte) : LoadState × Option Nat :=
  let f := if (sur.files filename).any (·.readable) then some s.nextFile else none
  ({ s with nextFile := s.nextFile + 1 }.event (.fopen filename f), f)

/-- `fclose`. -/
def fclose (s : LoadState) (f : Option Nat) : LoadState := s.event (.fclose f)

/-- The part of `reload_buffer` that loads the text, from a stream of which `taken` bytes were read, and whether it does. -/
def loadText (s : LoadState) (b : BufferPtr) (filename : List Byte) (taken : Nat) : LoadState × Bool :=
  let text := s.texts b
  match sur.files filename with
  | some file =>
    match rawLoadFile sur.sys { text with saveLog := false } file.ino file.content (file.content.drop taken) with
    | some text' => (s.setText b { text' with modified := false, saveLog := text.saveLog }, true)
    | none => (s.setText b { text with modified := false }, false)
  | none => (s.setText b { text with modified := false }, false)

/-- `reload_buffer`. -/
def reloadFile (s : LoadState) (b : BufferPtr) (f1 : Option Nat) : LoadState :=
  let filename := ((s.names.entry b).map (·.filename)).getD []
  -- if no file associated, cannot do anything
  if filename = [] then s else
  match f1 with
  | none =>
    match s.fopen sur filename with
    | (s, none) => s.putStatus (.couldNotLoad filename)
    | (s, some f) =>
      let (s, loaded) := s.loadText sur b filename 0
      let s := s.fclose (some f)
      if loaded then s else s.putStatus (.couldNotLoad filename)
  | some _ =>
    let (s, loaded) := s.loadText sur b filename 1024
    if loaded then s else s.putStatus (.errorWhileReloading filename)

/-- `do_set_mode_file`: every mode works on raw data here. -/
def doSetModeFile (s : LoadState) (e : WindowPtr) (m : Option ModeDef) (savedData : Option WindowView) (f1 : Option Nat) :
    LoadState :=
  let v := s.views e
  let b := s.names.shows e
  -- save mode data if necessary, and close the mode
  let savedData := if v.mode.isSome then some (savedData.getD v) else savedData
  let s := s.setView e { v with mode := none }
  match m with
  | none => s
  | some m =>
    -- if raw data and nothing loaded, we try to load
    let s := if (s.texts b).totalSize = 0 ∧ (s.texts b).modified = false then s.reloadFile sur b f1 else s
    s.setView e { mode := some m, offset := (savedData.map (·.offset)).getD 0 }

/-- The part of `switch_to_buffer` that saves old buffer data if no other window uses the buffer. -/
def saveShown (s : LoadState) (e : WindowPtr) : LoadState :=
  if s.windows.any fun w => w ≠ e ∧ s.names.shows w = s.names.shows e then s
  else { s with savedData := Function.update s.savedData (s.names.shows e) (some (s.views e)) }

/-- The data that `switch_to_buffer` restores, from another window or from the buffer saved data. -/
def restoredData (s : LoadState) (e : WindowPtr) (b : BufferPtr) : Option WindowView :=
  match s.windows.find? fun w => w ≠ e ∧ s.names.shows w = b with
  | some w => some (s.views w)
  | none => s.savedData b

/-- `switch_to_buffer`. -/
def switchToBuffer (s : LoadState) (e : WindowPtr) (b : BufferPtr) : Option LoadState :=
  let s := (s.saveShown e).doSetModeFile sur e none none none
  (s.names.switchToBuffer e b).map fun names =>
    let s := { s with names := names }
    let savedData := s.restoredData e b
    s.doSetModeFile sur e (some ((savedData.bind (·.mode)).getD textMode)) savedData none

/-- The end of `do_load1`, from the first bytes of the file on. -/
def finishLoad (s : LoadState) (e : WindowPtr) (b : BufferPtr) (filename : List Byte) (regular : Bool) (buf : List Byte) (f : Option Nat) :
    LoadState :=
  match probeMode sur.modes ⟨buf, filename, regular⟩ with
  -- fail1
  | none => (s.fclose f).putStatus (.couldNotOpen filename)
  | some m =>
    -- autodetect buffer charset
    let s := { s with charsets := Function.update s.charsets b (detectCharset buf) }
    let s := s.doSetModeFile sur e (some m) none f
    if f.isSome then s.fclose f else s

/-- The part of `do_load1` that makes a buffer for a file and switches to it. -/
def loadNew (s : LoadState) (e : WindowPtr) (filename : List Byte) : Option LoadState :=
  let b := s.names.nextBuffer
  ((s.names.ebNew [] { savelog := true }).setFilename b filename).bind fun names =>
    let s := { s with
      names := names, texts := Function.update s.texts b (EditBuffer.new true), charsets := Function.update s.charsets b .latin1
      savedData := Function.update s.savedData b none }
    (s.switchToBuffer sur e b).map fun s => s.setView e { s.views e with offset := 0 }

/-- The part of `do_load1` that looks at the file, with the new buffer shown. -/
def examineFile (s : LoadState) (e : WindowPtr) (b : BufferPtr) (filename : List Byte) : LoadState :=
  match sur.files filename with
  | none =>
    let s := s.putStatus .newFile
    match probeMode sur.modes ⟨[], filename, true⟩ with
    | some m => s.doSetModeFile sur e (some m) none none
    | none => s
  | some file =>
    if file.regular then
      match s.fopen sur filename with
      | (s, none) => s.putStatus (.couldNotOpen filename)
      | (s, some f) => s.finishLoad sur e b filename true (file.content.take 1024) (some f)
    else s.finishLoad sur e b filename false [] none

/-- `do_load1` without `kill_buffer`. There is no result where the window shows a buffer that is no more, or where the name of the
new buffer is longer than its array. -/
def doLoad1 (s : LoadState) (e : WindowPtr) (filename1 : List Byte) : Option LoadState :=
  -- compute full name
  let filename := canonizeAbsolutePath sur.cwd 1024 filename1
  match s.names.ebFindFile filename with
  -- see if file is already edited
  | some b => s.switchToBuffer sur e b.ptr
  | none => (s.loadNew sur e filename).map fun s' => s'.examineFile sur e s.names.nextBuffer filename

end LoadState

end Hoe
