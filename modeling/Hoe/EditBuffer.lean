import Hoe.Pages

/-!
# The edit buffer

`EditBuffer` with its undo log, and the five functions every change of a text goes through. Each of them calls `eb_addlog`,
which tells the callbacks on the buffer's list, sets the modified flag and records the change in the log: a second buffer,
here its page table alone, since a log buffer keeps no log of its own and nothing reads its mark or its modified flag.
-/

namespace Hoe

open Splice

/-- The operations of the log. -/
inductive LogOperation where
  | free
  | write
  | insert
  | delete
deriving DecidableEq, Repr

namespace LogOperation

/-- The value of the enumerator. -/
def code : LogOperation → Byte
  | free => 0
  | write => 1
  | insert => 2
  | delete => 3

/-- The enumerator with the value, if there is one. -/
def ofCode : Byte → Option LogOperation
  | 0 => some free
  | 1 => some write
  | 2 => some insert
  | 3 => some delete
  | _ => none

@[simp] theorem ofCode_code (op : LogOperation) : ofCode op.code = some op := by cases op <;> rfl

end LogOperation

/-! ## The log in memory -/

def sizeofInt : Nat := 4

/-- The four bytes of an `int`, least significant first. The last one carries whatever is left, so that an `int` of any size
comes back as it was; below `2 ^ 32` they are the four bytes of the machine. -/
def intBytes (n : Nat) : List Byte := [n % 256, n / 256 % 256, n / 65536 % 256, n / 16777216]

/-- The `int` in four bytes. -/
def intOfBytes (bs : List Byte) : Nat :=
  bs.getD 0 0 + 256 * bs.getD 1 0 + 65536 * bs.getD 2 0 + 16777216 * bs.getD 3 0

/-- `LogBuffer`, the header of a log entry. -/
structure LogBuffer where
  op : LogOperation
  wasModified : Bool
  offset : Nat
  size : Nat
deriving DecidableEq, Repr

namespace LogBuffer

/-- `sizeof(LogBuffer)`: two bytes, two bytes of padding and two ints. -/
def sizeof : Nat := 12

/-- The header in memory. Nothing reads the two bytes of padding. -/
def toBytes (lb : LogBuffer) : List Byte :=
  [lb.op.code, if lb.wasModified then 1 else 0, 0, 0] ++ intBytes lb.offset ++ intBytes lb.size

/-- The header read back from memory, `none` when the first byte is no operation. -/
def ofBytes (bs : List Byte) : Option LogBuffer :=
  match LogOperation.ofCode (bs.getD 0 0) with
  | some op =>
    some { op := op, wasModified := bs.getD 1 0 ≠ 0, offset := intOfBytes (slice bs 4 4), size := intOfBytes (slice bs 8 4) }
  | none => none

end LogBuffer

/-- What a callback is called with. -/
structure Note where
  op : LogOperation
  offset : Nat
  size : Nat
deriving DecidableEq, Repr

/-- `eb_offset_callback` on the offset it moves. -/
def ebOffsetCallback (offsetPtr : Int) (n : Note) : Int :=
  match n.op with
  | .insert => if offsetPtr > n.offset then offsetPtr + n.size else offsetPtr
  | .delete => if offsetPtr > n.offset then max (offsetPtr - n.size) n.offset else offsetPtr
  | _ => offsetPtr

/-- What a buffer looked like at some moment: its bytes and its modified flag. -/
structure Snapshot where
  bytes : List Byte
  modified : Bool
deriving DecidableEq, Repr

/-- `EditBuffer`. `readOnly` is the flag `BF_READONLY`. The last two fields are history, which no function reads: `notes` are
the calls made so far to each callback on the list of the buffer (the mark, whose callback `eb_new` registers, is moved in
place), `past` is what the buffer looked like each time an entry was recorded in the log. -/
structure EditBuffer extends Pages where
  mark : Int
  modified : Bool
  readOnly : Bool
  saveLog : Bool
  logBuffer : Option Pages
  logNewIndex : Nat
  logCurrent : Nat
  nbLogs : Nat
  notes : List Note
  past : List Snapshot
deriving DecidableEq, Repr

namespace EditBuffer

/-- `eb_new`: the zeroed buffer. -/
def new (saveLog : Bool) : EditBuffer :=
  { Pages.empty with
    mark := 0, modified := false, readOnly := false, saveLog := saveLog, logBuffer := none, logNewIndex := 0
    logCurrent := 0, nbLogs := 0, notes := [], past := [] }

def snapshot (b : EditBuffer) : Snapshot := ⟨b.bytes, b.modified⟩

end EditBuffer

/-- `NB_LOGS_MAX`. -/
def nbLogsMax : Nat := 50

/-! ## Changing a text that keeps no log

What `eb_delete` and `eb_write` do to the log buffer, and what is left of them once the change is recorded. -/

/-- `eb_delete` without the log. -/
def deleteText (t : Pages) (offset size : Nat) : Pages :=
  if t.totalSize ≤ offset then t else deletePages { t with totalSize := t.totalSize - size } offset size

/-- `eb_write` without the log. -/
def writeText (t : Pages) (offset : Nat) (buf : List Byte) : Pages :=
  let len := rwSize t offset buf.length
  let t := if 0 < len then writePages t offset (buf.take len) else t
  if 0 < buf.length - len then ebInsertLowlevel t (offset + len) (buf.drop len) else t

/-! ## Recording a change -/

/-- The part of `eb_addlog` that makes room: delete the least recent entry of the log. -/
def evictLog (b : EditBuffer) (log : Pages) : EditBuffer × Pages :=
  if nbLogsMax - 1 ≤ b.nbLogs then
    let (log, bs) := ebRead log 0 LogBuffer.sizeof
    let len :=
      match LogBuffer.ofBytes bs with
      | some lb => if lb.op = .insert then 0 else lb.size
      | none => intOfBytes (slice bs 8 4)
    let len := len + (LogBuffer.sizeof + sizeofInt)
    ({ b with
        logNewIndex := b.logNewIndex - len
        logCurrent := if 1 < b.logCurrent then b.logCurrent - len else b.logCurrent
        nbLogs := b.nbLogs - 1 },
      deleteText log 0 len)
  else (b, log)

/-- The part of `eb_addlog` that writes an entry at the end of the log: header, the bytes about to change, trailer. -/
def appendLog (b : EditBuffer) (log : Pages) (lb : LogBuffer) : EditBuffer × Pages :=
  -- header
  let log := writeText log b.logNewIndex lb.toBytes
  let index := b.logNewIndex + LogBuffer.sizeof
  -- data
  let (log, text, index, sizeTrailer) :=
    if lb.op = .delete ∨ lb.op = .write then
      let (log, text) := if lb.size = 0 then (log, b.toPages) else insertBufferPages log index b.toPages lb.offset lb.size
      (log, text, index + lb.size, lb.size)
    else (log, b.toPages, index, 0)
  -- trailer
  let log := writeText log index (intBytes sizeTrailer)
  ({ b with toPages := text, logNewIndex := index + sizeofInt, nbLogs := b.nbLogs + 1 }, log)

/-- The part of `eb_addlog` every buffer goes through: call each callback, set the modified flag. -/
def tellCallbacks (b : EditBuffer) (n : Note) : EditBuffer :=
  { b with notes := b.notes ++ [n], mark := ebOffsetCallback b.mark n, modified := true }

/-- `eb_addlog`. -/
def ebAddlog (b : EditBuffer) (op : LogOperation) (offset size : Nat) : EditBuffer :=
  let was := b.snapshot
  let b := tellCallbacks b ⟨op, offset, size⟩
  if !b.saveLog then b else
  let (b, log) := evictLog b (b.logBuffer.getD Pages.empty)
  let (b, log) := appendLog b log ⟨op, was.modified, offset, size⟩
  { b with logBuffer := some log, past := b.past ++ [was] }

/-! ## The functions that change a text -/

/-- `eb_insert`. We must have `offset ≤ totalSize`. -/
def ebInsert (b : EditBuffer) (offset : Nat) (buf : List Byte) : EditBuffer :=
  let b := ebAddlog b .insert offset buf.length
  { b with toPages := ebInsertLowlevel b.toPages offset buf }

/-- `eb_delete`. We must have `offset + size ≤ totalSize`. The total size is decreased before the change is recorded. -/
def ebDelete (b : EditBuffer) (offset size : Nat) : EditBuffer :=
  if b.totalSize ≤ offset then b else
  let b := { b with totalSize := b.totalSize - size }
  let b := ebAddlog b .delete offset size
  { b with toPages := deletePages b.toPages offset size }

/-- `eb_rw` when it writes: the buffer and how many bytes were written. -/
def ebRw (b : EditBuffer) (offset : Nat) (buf : List Byte) : EditBuffer × Nat :=
  let size := rwSize b.toPages offset buf.length
  if size = 0 then (b, 0) else
  let b := ebAddlog b .write offset size
  ({ b with toPages := writePages b.toPages offset (buf.take size) }, size)

/-- `eb_write`. It can be used to insert after the end of the buffer. -/
def ebWrite (b : EditBuffer) (offset : Nat) (buf : List Byte) : EditBuffer :=
  let (b, len) := ebRw b offset buf
  if 0 < buf.length - len then ebInsert b (offset + len) (buf.drop len) else b

/-- `eb_insert_buffer`, with the text of the source. The source comes back with its page cache moved. -/
def ebInsertBuffer (dest : EditBuffer) (destOffset : Nat) (src : Pages) (srcOffset size : Nat) : EditBuffer × Pages :=
  if size = 0 then (dest, src) else
  let dest := ebAddlog dest .insert destOffset size
  let (text, src) := insertBufferPages dest.toPages destOffset src srcOffset size
  ({ dest with toPages := text }, src)

/-! ## Mapped files -/

/-- The loop of `mmap_buffer`: pages that point into the mapped file and are read only. -/
def mapPages (ino : Nat) : Nat → Nat → List Byte → List Page
  | 0, _, _ => []
  | n + 1, ptr, file =>
    { newPage (file.take maxPageSize) with ref := some ⟨ino, ptr⟩, readOnly := true } ::
      mapPages ino n (ptr + maxPageSize) (file.drop maxPageSize)

/-- `mmap_buffer` of a file whose size and number of pages it computes right: `file` is what the inode holds. An empty file cannot be
mapped. -/
def mmapBuffer (b : EditBuffer) (ino : Nat) (file : List Byte) : EditBuffer :=
  if file.length = 0 then b else
  let n := pagesFor file.length
  { b with pageTable := mapPages ino n 0 file, totalSize := file.length, nbPages := n }

/-! ## Loading -/

/-- `IOBUF_SIZE`. -/
def ioBufSize : Nat := 32768

/-- `MIN_MMAP_SIZE`. -/
def minMmapSize : Nat := 1024 * 1024

/-- The loop of `raw_load_buffer1`, once for each block that is read. -/
def loadBlocks : Nat → EditBuffer → Nat → List Byte → EditBuffer
  | 0, b, _, _ => b
  | n + 1, b, offset, file =>
    let buf := file.take ioBufSize
    loadBlocks n (ebInsert b offset buf) (offset + buf.length) (file.drop ioBufSize)

/-- `raw_load_buffer1`: insert what is left of a file at the offset. -/
def rawLoadBuffer1 (b : EditBuffer) (offset : Nat) (file : List Byte) : EditBuffer :=
  loadBlocks ((file.length + ioBufSize - 1) / ioBufSize) b offset file

/-- `raw_load_buffer`: a large file is mapped. -/
def rawLoadBuffer (b : EditBuffer) (ino : Nat) (file : List Byte) : EditBuffer :=
  if minMmapSize ≤ file.length then mmapBuffer b ino file else rawLoadBuffer1 b 0 file

/-- `reload_buffer` of a file that can be read. -/
def reloadBuffer (b : EditBuffer) (ino : Nat) (file : List Byte) : EditBuffer :=
  let saved := b.saveLog
  { rawLoadBuffer { b with saveLog := false } ino file with modified := false, saveLog := saved }

/-- The part of `do_set_mode_file` that loads a file into a buffer with raw data and nothing loaded. -/
def loadIfEmpty (b : EditBuffer) (ino : Nat) (file : List Byte) : EditBuffer :=
  if b.totalSize = 0 ∧ b.modified = false then reloadBuffer b ino file else b

/-! ## Undo -/

/-- `log_reset`. -/
def logReset (b : EditBuffer) : EditBuffer :=
  match b.logBuffer with
  | some _ =>
    { b with logBuffer := none, logNewIndex := 0, logCurrent := 0, nbLogs := 0, modified := false, past := [] }
  | none => { b with modified := false }

/-- The end of `save_buffer`, when the data was saved. -/
def finishSave (b : EditBuffer) : EditBuffer := { logReset b with modified := false }

/-- What `do_undo` says: nothing without a log, one of its two status lines, or `abort` on an entry it does not know. -/
inductive UndoStatus where
  | silent
  | noInformation
  | undo
  | abort
deriving DecidableEq, Repr

/-- The part of `do_undo` that plays the log entry `lb`, whose data lies at `logIndex` in the log. Returns the new offset of
the window too. -/
def playEntry (b : EditBuffer) (lb : LogBuffer) (logIndex : Nat) : EditBuffer × Nat :=
  let log := b.logBuffer.getD Pages.empty
  match lb.op with
  | .insert => (ebDelete b lb.offset lb.size, lb.offset)
  | .delete =>
    -- the log is disabled because the log buffer would be modified before we insert it
    let saved := b.saveLog
    let b := { b with saveLog := false }
    let (b, log) := ebInsertBuffer b lb.offset log logIndex lb.size
    let b := { b with saveLog := saved, logBuffer := some log }
    (ebAddlog b .insert lb.offset lb.size, lb.offset + lb.size)
  | _ =>
    -- the log is disabled because we want to record a single write
    let saved := b.saveLog
    let b := { b with saveLog := false }
    let b := ebDelete b lb.offset lb.size
    let (b, log) := ebInsertBuffer b lb.offset log logIndex lb.size
    let b := { b with saveLog := saved, logBuffer := some log }
    (ebAddlog b .write lb.offset lb.size, lb.offset + lb.size)

/-- The part of `do_undo` that goes backward: the entry that ends in front of the index, by its trailer, and where it
begins. -/
def entryBefore (log : Pages) (logIndex : Nat) : Pages × Nat × Option LogBuffer :=
  let logIndex := logIndex - sizeofInt
  let (log, bs) := ebRead log logIndex sizeofInt
  let logIndex := logIndex - (intOfBytes bs + LogBuffer.sizeof)
  let (log, bs) := ebRead log logIndex LogBuffer.sizeof
  (log, logIndex, LogBuffer.ofBytes bs)

/-- The index in front of which the entry to undo ends. -/
def undoIndex (b : EditBuffer) : Nat := if b.logCurrent = 0 then b.logNewIndex else b.logCurrent - 1

/-- The part of `do_undo` after it has looked at the last command: find the entry and play it. The second component is the new
offset of the window, when it moves. -/
def undoStep (b : EditBuffer) (log : Pages) : EditBuffer × Option Nat × UndoStatus :=
  if undoIndex b = 0 then (b, none, .noInformation) else
  let (log, logIndex, lb) := entryBefore log (undoIndex b)
  -- `logCurrent` is 1 + index to have zero as default value
  let b := { b with logCurrent := logIndex + 1, logBuffer := some log }
  match lb with
  | none => (b, none, .abort)
  | some lb =>
    if lb.op = .free then (b, none, .abort) else
    let (b, offset) := playEntry b lb (logIndex + LogBuffer.sizeof)
    ({ b with modified := lb.wasModified }, some offset, .undo)

/-- `do_undo` forgets the chain when the last command was another one. -/
def startUndo (chained : Bool) (b : EditBuffer) : EditBuffer := if chained then b else { b with logCurrent := 0 }

/-- `do_undo`; `chained` says that the last command was `do_undo` too. -/
def doUndo (chained : Bool) (b : EditBuffer) : EditBuffer × Option Nat × UndoStatus :=
  match b.logBuffer with
  | none => (b, none, .silent)
  | some log => undoStep (startUndo chained b) log

/-- The header of the entry `do_undo` plays in this state, if it plays one. -/
def pendingEntry (chained : Bool) (b : EditBuffer) : Option LogBuffer :=
  match b.logBuffer with
  | none => none
  | some log =>
    let index := undoIndex (startUndo chained b)
    if index = 0 then none else (entryBefore log index).2.2

end Hoe
