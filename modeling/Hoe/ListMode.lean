import Hoe.BufferNames
import Hoe.Editor
import Hoe.Minibuffer

/-!
# Lists

The list mode of list.c and the two lists that are made with it: the buffers, of bufed.c, and a directory, of dired.c. A list is the text
of a window, a line for each item of an array, and an item is found again by the number of its line. What a directory holds and what
`lstat`, `readlink` and `fnmatch` say is given.
-/

namespace Hoe

namespace ListMode

open Minibuffer (findFiles)

/-- `StringItem`, with the file name that dired hangs on it. -/
structure StringItem where
  str : List Byte
  selected : Bool := false
  filename : List Byte := []
deriving DecidableEq, Repr

/-! ## List mode -/

/-- `list_get_pos`. -/
def listGetPos (s : Editor) : Nat := (ebGetPos s.buffer.toPages s.charset s.offset).1

/-- `list_get_offset`. -/
def listGetOffset (s : Editor) : Int := ebGotoPos s.buffer.toPages s.reader (listGetPos s) 0

/-- `list_toggle_selection`, up to where the cursor moves down. Where no byte is read, `ch` is what was on the stack. -/
def listToggleSelection (s : Editor) (ch : Byte) : Option Editor :=
  let offset := listGetOffset s
  let ch := (ebRead s.buffer.toPages offset.toNat 1).2.headD ch
  s.ebWrite offset [if ch = ' '.toNat then '*'.toNat else ' '.toNat]

/-- What is done in a list: a selection, which moves the cursor in the end, and a move of the cursor, both to anywhere. -/
inductive ListEvent where
  | toggle (ch : Byte) (offset : Nat)
  | move (offset : Nat)
deriving DecidableEq, Repr

/-- The cursor is moved within the text. -/
def moveTo (s : Editor) (offset : Nat) : Editor := { s with offset := min (offset : Int) s.total }

/-- The window behind an event. -/
def listEvent (s : Editor) : ListEvent → Option Editor
  | .toggle ch offset => (listToggleSelection s ch).map (moveTo · offset)
  | .move offset => some (moveTo s offset)

/-- The window behind a number of events. -/
def listEvents (s : Editor) : List ListEvent → Option Editor
  | [] => some s
  | ev :: evs => (listEvent s ev).bind (listEvents · evs)

/-- `eb_printf`, of a text that its array has room for. -/
def ebPrintf (b : EditBuffer) (text : List Byte) : Option EditBuffer :=
  if text.length < 1024 then some (ebInsert b b.totalSize text) else none

/-- The loop that prints the items, with newlines between them. -/
def printItems : List (List Byte) → EditBuffer → Option EditBuffer
  | [], b => some b
  | [line], b => ebPrintf b line
  | line :: lines, b => (ebPrintf b line).bind fun b => (ebPrintf b [newline]).bind (printItems lines)

/-- The lines in place of the text. A list has no callback on its buffer, so that the cursor stays where it is. -/
def buildList (lines : List (List Byte)) (s : Editor) : Option Editor :=
  (printItems lines (ebDelete s.buffer 0 s.buffer.totalSize)).map fun b => { s with buffer := b }

/-! ## The list of the buffers -/

/-- `BufedState`, its window and the buffers. -/
structure BufedState where
  names : BufferNames
  window : WindowPtr
  s : Editor
  items : List StringItem

/-- The buffers that are in the list. -/
def listed (names : BufferNames) : List NamedBuffer := names.buffers.filter fun b => !b.flags.system

/-- `build_bufed_list`. -/
def buildBufedList (st : BufedState) : Option BufedState :=
  let items := (listed st.names).map fun b => ({ str := b.name } : StringItem)
  (buildList (items.map fun item => ' '.toNat :: item.str) st.s).map fun s => { st with s := s, items := items }

/-- `string_selection_iterate`. -/
def stringSelectionIterate {σ : Type} (cs : List StringItem) (currentIndex : Nat) (funcItem : σ → StringItem → Option σ) (s : σ) :
    Option σ :=
  let selected := cs.filter (·.selected)
  (selected.foldlM funcItem s).bind fun s =>
    if selected.length = 0 then (cs[currentIndex]?).elim (some s) (funcItem s) else some s

/-- `bufed_kill_item`. A question whether a modified buffer is to be killed is not answered yet. -/
def bufedKillItem (names : BufferNames) (item : StringItem) : Option BufferNames := names.doKillBuffer item.str false

/-- `bufed_kill_buffer`. There is no result where the buffer of the list itself is killed, which frees the items that are gone over. -/
def bufedKillBuffer (st : BufedState) : Option BufedState :=
  (stringSelectionIterate st.items (listGetPos st.s) bufedKillItem st.names).bind fun names =>
    if names.shows st.window = st.names.shows st.window then buildBufedList { st with names := names } else none

/-! ## The list of a directory -/

/-- The types of files. -/
inductive FileKind where
  | dir
  | fifo
  | sock
  | reg
  | chr
  | blk
  | lnk
deriving DecidableEq, Repr

/-- The fields of `struct stat` that are shown, and which file it is; whether `st_mode` has a bit of 0111. -/
structure Stat where
  kind : FileKind
  exec : Bool
  size : Nat
  rdev : Nat
  ino : Nat
deriving DecidableEq, Repr

/-- The files. -/
structure Files extends Minibuffer.World where
  lstat : List Byte → Option Stat
  readlink : List Byte → Option (List Byte)

/-- `DiredState` and its window. -/
structure DiredState where
  s : Editor
  items : List StringItem
  lastPos : Int
  path : List Byte

/-- The character behind the name. -/
def typeChar (st : Stat) : List Byte :=
  match st.kind with
  | .dir => cstr "/"
  | .fifo => cstr "|"
  | .sock => cstr "="
  | _ => if st.exec then cstr "*" else []

/-- A text with blanks in front of it, as `sprintf` aligns it. -/
def padLeft (width : Nat) (s : List Byte) : List Byte := List.replicate (width - s.length) ' '.toNat ++ s

/-- The size of the file or what else is told of it. -/
def fileInfo (w : Files) (filename : List Byte) (st : Stat) : List Byte :=
  let device := padLeft 4 (Vt.decimal (st.rdev / 256 % 256)) ++ padLeft 4 (Vt.decimal (st.rdev % 256))
  match st.kind with
  | .reg => padLeft 9 (Vt.decimal st.size)
  | .dir => padLeft 9 (cstr "<dir>")
  | .chr => cstr "c" ++ device
  | .blk => cstr "b" ++ device
  | .lnk => ((w.readlink filename).getD []).take 1023
  | _ => []

/-- `MAX_COL_FILE_SIZE`. -/
def maxColFileSize : Nat := 32

/-- The line of a file. -/
def diredLine (w : Files) (filename p : List Byte) (st : Stat) : List Byte :=
  let line := pstrcat 1024 (pstrcat 1024 (cstr " ") p) (typeChar st)
  let line := line ++ List.replicate (maxColFileSize - line.length) ' '.toNat
  let line := if st.kind = .lnk then pstrcat 1024 line (cstr "-> ") else line
  pstrcat 1024 line (fileInfo w filename st)

/-- The item of a file that is found, unless `lstat` fails or it is one of the redundant ones. -/
def diredItem (w : Files) (filename : List Byte) : Option StringItem :=
  let p := qeBasename filename
  (w.lstat filename).bind fun st =>
    if p = cstr "." ∨ p = cstr ".." then none else some { str := diredLine w filename p st, filename := p }

/-- Whether `dired_sort_func` is not positive. -/
def diredSortLe (item1 item2 : StringItem) : Bool :=
  if (slash ∈ item1.str) ↔ (slash ∈ item2.str) then !decide (item2.str < item1.str) else decide (slash ∈ item1.str)

/-- `build_dired_list`. There is no result where the name of a file that is found does not fit its array. -/
def buildDiredList (w : Files) (ds : DiredState) (path : List Byte) : Option DiredState :=
  let path := canonizePath 1024 path
  let files := findFiles w.toWorld path (cstr "*")
  if ∀ filename ∈ files, filename.length < 1024 then
    let items := (files.filterMap (diredItem w)).mergeSort diredSortLe
    (buildList (items.map (·.str)) { ds.s with offset := 0 }).map fun s =>
      { s := { s with buffer := { s.buffer with modified := false } }, items := items, lastPos := -1, path := path }
  else none

/-- `get_dired_filename`. -/
def getDiredFilename (ds : DiredState) (bufSize index : Nat) : List Byte :=
  match ds.items[index]? with
  | none => []
  | some item => pstrcat bufSize (pstrcat bufSize (pstrcpy bufSize ds.path) [slash]) item.filename

/-- What `dired_select` does: nothing, another directory is listed, or a file is loaded or stays where it is shown already. -/
inductive DiredAction where
  | nothing
  | list (filename : List Byte)
  | load (filename : List Byte)
deriving DecidableEq, Repr

/-- `dired_select`. -/
def diredSelect (w : Files) (ds : DiredState) : DiredAction :=
  let filename := getDiredFilename ds 1024 (listGetPos ds.s)
  match w.lstat filename with
  | some st => if st.kind = .dir then .list filename else if st.kind = .reg then .load filename else .nothing
  | none => .nothing

end ListMode

end Hoe
