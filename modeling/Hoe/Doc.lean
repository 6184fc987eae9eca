import Hoe.EditBuffer

/-!
# The buffer without its representation

`Doc` is what an edit buffer means: a list of bytes, a flag, and a list of log entries, oldest first, with the number of
entries that a chain of undos has still in front of it. Its operations are the splices; what they tell and what they record is
what `eb_addlog` tells and records. `Hoe.Lemmas.Refine` shows that the buffer of buffer.c is one of these, byte for byte.
-/

namespace Hoe

open Splice

/-- An entry of the log. The bytes are those the entry was recorded with; an insertion needs none. -/
inductive LogEntry where
  | write (wasModified : Bool) (offset : Nat) (data : List Byte)
  | insert (wasModified : Bool) (offset size : Nat)
  | delete (wasModified : Bool) (offset : Nat) (data : List Byte)
deriving DecidableEq, Repr

namespace LogEntry

/-- The header of the entry. -/
def header : LogEntry → LogBuffer
  | write was offset data => ⟨.write, was, offset, data.length⟩
  | insert was offset size => ⟨.insert, was, offset, size⟩
  | delete was offset data => ⟨.delete, was, offset, data.length⟩

/-- The bytes kept in the entry. -/
def data : LogEntry → List Byte
  | write _ _ data => data
  | insert _ _ _ => []
  | delete _ _ data => data

/-- The entry in the log: header, data, trailer. -/
def toBytes (e : LogEntry) : List Byte := e.header.toBytes ++ e.data ++ intBytes e.data.length

/-- The entry recorded for a change of the text. -/
def make (op : LogOperation) (was : Bool) (offset size : Nat) (text : List Byte) : LogEntry :=
  match op with
  | .write => write was offset (slice text offset size)
  | .delete => delete was offset (slice text offset size)
  | _ => insert was offset size

/-- The entry can be played on a text of the length. An insertion whose offset is not before the end of the text is played by
doing nothing. -/
def Fits (e : LogEntry) (length : Nat) : Prop :=
  match e with
  | write _ offset data => offset + data.length ≤ length
  | insert _ offset size => offset < length → offset + size ≤ length
  | delete _ offset _ => offset ≤ length

instance (e : LogEntry) (length : Nat) : Decidable (e.Fits length) := by
  cases e <;> unfold Fits <;> infer_instance

end LogEntry

/-- What an edit buffer means. `pos` is the number of entries older than the last one undone, `none` where no chain of undos
has begun. -/
structure Doc where
  text : List Byte
  modified : Bool
  readOnly : Bool
  saveLog : Bool
  hasLog : Bool
  entries : List LogEntry
  pos : Option Nat
  mark : Int
  notes : List Note
  past : List Snapshot
deriving DecidableEq, Repr

namespace Doc

def snapshot (d : Doc) : Snapshot := ⟨d.text, d.modified⟩

/-- A change is told to the callbacks. -/
def tell (d : Doc) (n : Note) : Doc :=
  { d with notes := d.notes ++ [n], mark := ebOffsetCallback d.mark n, modified := true }

/-- The log is full. -/
def Full (d : Doc) : Prop := nbLogsMax - 1 ≤ d.entries.length

instance (d : Doc) : Decidable d.Full := by unfold Full; infer_instance

/-- The oldest entry leaves a full log, and a chain of undos has one entry less in front of it. -/
def evict (d : Doc) : Doc :=
  if d.Full then { d with entries := d.entries.tail, pos := d.pos.map (· - 1) } else d

/-- An entry is recorded; `was` is what the buffer looked like. -/
def record (d : Doc) (e : LogEntry) (was : Snapshot) : Doc :=
  { d.evict with entries := d.evict.entries ++ [e], past := d.past ++ [was], hasLog := true }

/-- A change is told, and recorded when the buffer keeps a log. -/
def addlog (d : Doc) (op : LogOperation) (offset size : Nat) : Doc :=
  let told := d.tell ⟨op, offset, size⟩
  if d.saveLog then told.record (.make op d.modified offset size d.text) d.snapshot else told

def insert (d : Doc) (offset : Nat) (buf : List Byte) : Doc :=
  { d.addlog .insert offset buf.length with text := insertAt d.text offset buf }

/-- An insertion that does nothing when there is nothing to insert. -/
def insertBlock (d : Doc) (offset : Nat) (buf : List Byte) : Doc := if buf = [] then d else d.insert offset buf

/-- A removal that does nothing from the end of the text on. -/
def delete (d : Doc) (offset size : Nat) : Doc :=
  if d.text.length ≤ offset then d else
  { d.addlog .delete offset size with text := removeAt d.text offset size }

/-- The bytes are overwritten, as many as there are. -/
def overwrite (d : Doc) (offset : Nat) (buf : List Byte) : Doc :=
  if buf = [] then d else
  { d.addlog .write offset buf.length with text := overwriteAt d.text offset buf }

/-- What lies in the text is overwritten, the overhang is appended. -/
def write (d : Doc) (offset : Nat) (buf : List Byte) : Doc :=
  let len := min buf.length (d.text.length - offset)
  (d.overwrite offset (buf.take len)).insertBlock (offset + len) (buf.drop len)

/-- The log is flushed. -/
def logReset (d : Doc) : Doc :=
  if d.hasLog then { d with hasLog := false, entries := [], pos := none, modified := false, past := [] }
  else { d with modified := false }

/-- A log entry is played: the change of an insertion is a logged removal; the other two change the text without the log and
record an entry afterwards. -/
def play (d : Doc) (e : LogEntry) : Doc :=
  match e with
  | .insert _ offset size => d.delete offset size
  | .delete _ offset data =>
    let d' := { d with saveLog := false }.insertBlock offset data
    { d' with saveLog := d.saveLog }.addlog .insert offset data.length
  | .write _ offset data =>
    let d' := ({ d with saveLog := false }.delete offset data.length).insertBlock offset data
    { d' with saveLog := d.saveLog }.addlog .write offset data.length

/-- Where the window goes when the entry is played. -/
def offsetAfter : LogEntry → Nat
  | .insert _ offset _ => offset
  | .delete _ offset data => offset + data.length
  | .write _ offset data => offset + data.length

/-- A command other than an undo ends the chain of undos. -/
def start (d : Doc) (chained : Bool) : Doc := if chained then d else { d with pos := none }

/-- The number of entries an undo has in front of it. -/
def left (d : Doc) : Nat := d.pos.getD d.entries.length

/-- The entry an undo plays. -/
def next (d : Doc) : Option LogEntry :=
  match d.left with
  | 0 => none
  | p + 1 => d.entries[p]?

/-- One step back: play the newest entry that is left and put back the flag it was recorded with. -/
def undoStep (d : Doc) : Doc × Option Nat × UndoStatus :=
  match d.next with
  | none => (d, none, .noInformation)
  | some e =>
    let d := { d with pos := some (d.left - 1) }
    ({ d.play e with modified := e.header.wasModified }, some (offsetAfter e), .undo)

/-- Undo, in a chain or at the beginning of one. -/
def undo (d : Doc) (chained : Bool) : Doc × Option Nat × UndoStatus :=
  if d.hasLog then (d.start chained).undoStep else (d, none, .silent)

/-! ## What telling and recording leave alone -/

@[simp] theorem evict_text (d : Doc) : d.evict.text = d.text := by unfold evict; split <;> rfl

@[simp] theorem addlog_text (d : Doc) (op : LogOperation) (offset size : Nat) : (d.addlog op offset size).text = d.text := by
  unfold addlog
  split <;> simp [record, tell]

end Doc

end Hoe
