import Hoe.Lemmas.Saved
import Hoe.Lib.Records
import Hoe.Theorems.Notify

/-!
# The modified flag is honest, and the undo log well formed

A session with one buffer: edits, undos in chains and apart, other commands, saves and loads. Every log entry carries the flag
it was recorded with, undo puts it back after it has itself recorded an entry with another one, and saving forgets the log.
Whenever the flag is clear the text is the one last saved or loaded. The log buffer is written piece by piece, deleted from the
front when it is full and read from the back by `do_undo`: it is entries end to end, the headers and the trailers tell the same
ones, and the three indices into it stand where entries begin and end.
-/

namespace Hoe

open Splice Pattern

/-! ## The shape of the log

The log buffer is entries end to end. `eb_addlog` finds the end of the first one by its header, `do_undo` the beginning of the
last one by its trailer; a log keeps at most `nbLogsMax - 1` entries, and a chain of undos stands in front of one of them.
-/

/-! ## Reading the log from either end -/

/-- The entry with the header and the data, if the header is one of an entry. -/
def LogEntry.ofHeader (lb : LogBuffer) (data : List Byte) : Option LogEntry :=
  match lb.op with
  | .write => some (.write lb.wasModified lb.offset data)
  | .insert => some (.insert lb.wasModified lb.offset lb.size)
  | .delete => some (.delete lb.wasModified lb.offset data)
  | .free => none

/-- The entry that begins the bytes, and what follows it: its header says how long it is, as where `eb_addlog` deletes the least
recent entry. -/
def firstEntry (bs : List Byte) : Option (LogEntry × List Byte) :=
  match LogBuffer.ofBytes (slice bs 0 LogBuffer.sizeof) with
  | none => none
  | some lb =>
    let len := if lb.op = .insert then 0 else lb.size
    (LogEntry.ofHeader lb (slice bs LogBuffer.sizeof len)).map fun e => (e, bs.drop (len + (LogBuffer.sizeof + sizeofInt)))

/-- The entry that ends the bytes, and what is in front of it: its trailer says where its data begins, as where `do_undo` goes
backward. -/
def lastEntry (bs : List Byte) : Option (List Byte × LogEntry) :=
  let sizeTrailer := intOfBytes (slice bs (bs.length - sizeofInt) sizeofInt)
  let logIndex := bs.length - sizeofInt - (sizeTrailer + LogBuffer.sizeof)
  match LogBuffer.ofBytes (slice bs logIndex LogBuffer.sizeof) with
  | none => none
  | some lb =>
    (LogEntry.ofHeader lb (slice bs (logIndex + LogBuffer.sizeof) sizeTrailer)).map fun e => (bs.take logIndex, e)

/-- The entries of the log, found through the headers. -/
def entriesForward (log : List Byte) : Option (List LogEntry) := Records.forward firstEntry log.length log

/-- The entries of the log, found through the trailers. -/
def entriesBackward (log : List Byte) : Option (List LogEntry) := Records.backward lastEntry log.length log

/-- An entry is read back from its header and its data. -/
theorem LogEntry.ofHeader_header (e : LogEntry) : LogEntry.ofHeader e.header e.data = some e := by
  cases e <;> rfl

/-- An entry keeps the bytes its header tells of, an insertion none. -/
theorem LogEntry.length_data (e : LogEntry) : e.data.length = if e.header.op = .insert then 0 else e.header.size := by
  cases e <;> rfl

theorem toBytes_ne_nil (e : LogEntry) : e.toBytes ≠ [] := List.ne_nil_of_length_pos (length_toBytes_pos e)

/-- The first entry of the log is read from its front. -/
theorem firstEntry_append (e : LogEntry) (rest : List Byte) : firstEntry (e.toBytes ++ rest) = some (e, rest) := by
  have hcut : e.toBytes ++ rest = e.header.toBytes ++ (e.data ++ (intBytes e.data.length ++ rest)) := by
    simp [LogEntry.toBytes]
  have hheader : slice (e.toBytes ++ rest) 0 LogBuffer.sizeof = e.header.toBytes := by
    rw [hcut]
    exact List.take_left' (length_toBytes_header _)
  have hdata : slice (e.toBytes ++ rest) LogBuffer.sizeof e.data.length = e.data := by
    rw [hcut, ← length_toBytes_header e.header, slice_append, List.take_left]
  have hrest : (e.toBytes ++ rest).drop (e.data.length + (LogBuffer.sizeof + sizeofInt)) = rest := by
    refine List.drop_left' ?_
    rw [length_toBytes]
    omega
  unfold firstEntry
  simp only [hheader, ofBytes_toBytes, ← LogEntry.length_data, hdata, hrest, LogEntry.ofHeader_header, Option.map_some]

/-- The last one is read from its end, as `do_undo` does. -/
theorem lastEntry_append (before : List Byte) (e : LogEntry) : lastEntry (before ++ e.toBytes) = some (before, e) := by
  have hlen := length_toBytes e
  have hcut : before ++ e.toBytes = before ++ e.header.toBytes ++ e.data ++ intBytes e.data.length := by
    simp [LogEntry.toBytes]
  have htrailer : slice (before ++ e.toBytes) ((before ++ e.toBytes).length - sizeofInt) sizeofInt =
      intBytes e.data.length := by
    have hfront : (before ++ e.toBytes).length - sizeofInt = (before ++ e.header.toBytes ++ e.data).length := by
      simp only [List.length_append, length_toBytes_header, hlen]
      omega
    rw [hfront, hcut, slice, List.drop_left]
    exact List.take_of_length_le (Nat.le_of_eq (length_intBytes _))
  have hindex : (before ++ e.toBytes).length - sizeofInt - (e.data.length + LogBuffer.sizeof) = before.length := by
    rw [List.length_append, hlen]
    omega
  have hheader : slice (before ++ e.toBytes) before.length LogBuffer.sizeof = e.header.toBytes := by
    rw [hcut, List.append_assoc, List.append_assoc, slice_append]
    exact List.take_left' (length_toBytes_header _)
  have hdata : slice (before ++ e.toBytes) (before.length + LogBuffer.sizeof) e.data.length = e.data := by
    have hfront : before.length + LogBuffer.sizeof = (before ++ e.header.toBytes).length := by simp
    rw [hfront, hcut, List.append_assoc, slice_append, List.take_left]
  unfold lastEntry
  simp only [htrailer, intOfBytes_intBytes, hindex, hheader, ofBytes_toBytes, hdata, LogEntry.ofHeader_header,
    List.take_left, Option.map_some]

/-- So all entries are read back from the front. -/
theorem entriesForward_logBytes (es : List LogEntry) : entriesForward (logBytes es) = some es :=
  Records.forward_flatMap toBytes_ne_nil firstEntry_append (Records.length_le_flatMap toBytes_ne_nil es)

/-- They are read back from the end as well. -/
theorem entriesBackward_logBytes (es : List LogEntry) : entriesBackward (logBytes es) = some es :=
  Records.backward_flatMap toBytes_ne_nil lastEntry_append (Records.length_le_flatMap toBytes_ne_nil es)

/-! ## The bounds of the log -/

/-- The log has room for what it holds, and a chain of undos has played an entry the log still holds. -/
structure Doc.Bounded (d : Doc) : Prop where
  room : d.entries.length ≤ nbLogsMax - 1
  pos : ∀ p, d.pos = some p → p < d.entries.length

namespace Doc.Bounded

/-- What a change of the log leaves alone has the bounds it had. -/
theorem congr {d d' : Doc} (h : d.Bounded) (he : d'.entries = d.entries) (hp : d'.pos = d.pos) : d'.Bounded :=
  ⟨by rw [he]; exact h.room, by rw [he, hp]; exact h.pos⟩

/-- A full log makes room for one entry, and loses one that no chain stands at. -/
theorem evict {d : Doc} (h : d.Bounded) : d.evict.Bounded ∧ d.evict.entries.length < nbLogsMax - 1 := by
  have hroom := h.room
  unfold Doc.evict
  split
  · rename_i hfull
    unfold Full at hfull
    have hmax : nbLogsMax = 50 := rfl
    refine ⟨⟨?_, ?_⟩, ?_⟩
    · simp only [List.length_tail]
      omega
    · intro p hp
      simp only [Option.map_eq_some_iff] at hp
      obtain ⟨q, hq, rfl⟩ := hp
      have := h.pos q hq
      simp only [List.length_tail]
      omega
    · simp only [List.length_tail]
      omega
  · rename_i hfull
    exact ⟨h, Nat.lt_of_not_le hfull⟩

/-- One entry more, and one less where there are too many. -/
theorem addlog {d : Doc} (h : d.Bounded) (op : LogOperation) (offset size : Nat) : (d.addlog op offset size).Bounded := by
  have htold : (d.tell ⟨op, offset, size⟩).Bounded := h.congr rfl rfl
  unfold Doc.addlog
  split
  · obtain ⟨hev, hlt⟩ := htold.evict
    refine ⟨?_, ?_⟩
    · simp only [record, List.length_append, List.length_singleton]
      omega
    · intro p hp
      have := hev.pos p hp
      simp only [record, List.length_append]
      omega
  · exact htold

/-- An insertion logs one entry. -/
theorem insertBlock {d : Doc} (h : d.Bounded) (offset : Nat) (buf : List Byte) : (d.insertBlock offset buf).Bounded := by
  unfold Doc.insertBlock
  split
  · exact h
  · exact (h.addlog .insert offset buf.length).congr rfl rfl

/-- A deletion logs one entry. -/
theorem delete {d : Doc} (h : d.Bounded) (offset size : Nat) : (d.delete offset size).Bounded := by
  unfold Doc.delete
  split
  · exact h
  · exact (h.addlog .delete offset size).congr rfl rfl

/-- An edit logs as many as it needs. -/
theorem edit {d : Doc} (h : d.Bounded) {e : Edit} (he : e.InRange d.text.length) : (e.apply d).Bounded := by
  refine Edit.apply_induct (P := Doc.Bounded) ?_ ?_ ?_ h he
  · intro d offset buf h _
    exact (h.addlog .insert offset buf.length).congr rfl rfl
  · intro d offset size h _ _
    exact h.delete offset size
  · intro d offset buf h hne _
    rw [Doc.overwrite, if_neg hne]
    exact (h.addlog .write offset buf.length).congr rfl rfl

/-- Playing an entry logs the change back. -/
theorem play {d : Doc} (h : d.Bounded) (e : LogEntry) : (d.play e).Bounded := by
  have hoff : Doc.Bounded { d with saveLog := false } := h.congr rfl rfl
  cases e with
  | insert was offset size => exact h.delete offset size
  | delete was offset data =>
    have hput := hoff.insertBlock offset data
    have hon : Doc.Bounded { Doc.insertBlock { d with saveLog := false } offset data with saveLog := d.saveLog } :=
      hput.congr rfl rfl
    exact hon.addlog .insert offset data.length
  | write was offset data =>
    have hput := (hoff.delete offset data.length).insertBlock offset data
    have hon : Doc.Bounded { (Doc.delete { d with saveLog := false } offset data.length).insertBlock offset data with
        saveLog := d.saveLog } := hput.congr rfl rfl
    exact hon.addlog .write offset data.length

/-- An undo begins at an entry, or where the last one was. -/
theorem start {d : Doc} (h : d.Bounded) (chained : Bool) : (d.start chained).Bounded := by
  unfold Doc.start
  split
  · exact h
  · exact ⟨h.room, by simp⟩

/-- An undo steps in front of the entry it plays. -/
theorem undoStep {d : Doc} (h : d.Bounded) : d.undoStep.1.Bounded := by
  unfold Doc.undoStep
  cases hnext : d.next with
  | none => exact h
  | some e =>
    have hleft : d.left - 1 < d.entries.length := by
      unfold Doc.next at hnext
      split at hnext
      · cases hnext
      · rename_i p hp
        rw [hp]
        exact (List.getElem?_eq_some_iff.1 hnext).1
    have hpos : Doc.Bounded { d with pos := some (d.left - 1) } := by
      refine ⟨h.room, ?_⟩
      intro p hp
      cases hp
      exact hleft
    exact (hpos.play e).congr rfl rfl

/-- An undo keeps the bound. -/
theorem undo {d : Doc} (h : d.Bounded) (chained : Bool) : (d.undo chained).1.Bounded := by
  unfold Doc.undo
  split
  · exact (h.start chained).undoStep
  · exact h

/-- Without a log nothing is held. -/
theorem logReset {d : Doc} (h : d.Bounded) : d.logReset.Bounded := by
  unfold Doc.logReset
  split
  · exact ⟨Nat.zero_le _, by simp⟩
  · exact h.congr rfl rfl

end Doc.Bounded

/-! ## Well-formed logs -/

/-- The log of `b`, whose bytes are `log`, is the entries `es` end to end, each with a header, its data and a trailer. -/
structure LogShape (b : EditBuffer) (log : List Byte) (es : List LogEntry) : Prop where
  bytes : log = es.flatMap fun e => e.header.toBytes ++ e.data ++ intBytes e.data.length
  data : ∀ e ∈ es, e.data.length = if e.header.op = .insert then 0 else e.header.size
  nb : b.nbLogs = es.length
  room : b.nbLogs ≤ nbLogsMax - 1
  newIndex : b.logNewIndex = log.length
  current : b.logCurrent = 0 ∨ ∃ p, p < es.length ∧ b.logCurrent = (logBytes (es.take p)).length + 1
  fromHeaders : entriesForward log = some es
  fromTrailers : entriesBackward log = some es

/-- The bytes of the log, none without a log buffer. -/
def EditBuffer.logText (b : EditBuffer) : List Byte := (b.logBuffer.getD Pages.empty).bytes

/-- The bytes of the log are those of its entries. -/
theorem LogHeld.shape {b : EditBuffer} {log : Pages} {d : Doc} (h : LogHeld b log d.entries d.pos) (hd : d.Bounded) :
    LogShape b log.bytes d.entries := by
  refine ⟨h.bytes, fun e _ => e.length_data, h.nb, by rw [h.nb]; exact hd.room, by rw [h.newIndex, h.bytes], ?_, ?_, ?_⟩
  · have hcur := h.current
    cases hp : d.pos with
    | none =>
      rw [hp] at hcur
      exact Or.inl hcur
    | some p =>
      rw [hp] at hcur
      exact Or.inr ⟨p, hd.pos p hp, hcur⟩
  · rw [h.bytes, entriesForward_logBytes]
  · rw [h.bytes, entriesBackward_logBytes]

/-- What a buffer goes through. An edit, a save and a load are commands, so they end a chain of undos; the output of a process, which
is put into the buffer of a shell between two commands, does not. `reads` are the offsets and sizes that a command reads the text
with; `save_buffer` reads it block by block, as far as each write got. -/
inductive Command where
  | edit (e : Edit)
  | output (e : Edit)
  | undo
  | other (reads : List (Nat × Nat))
  | save (reads : List (Nat × Nat))
  | load (ino : Nat) (file : List Byte)
deriving DecidableEq, Repr

/-- The buffer after it was read: its page cache has moved. -/
def EditBuffer.reading (b : EditBuffer) (reads : List (Nat × Nat)) : EditBuffer :=
  { b with toPages := reads.foldl (fun t r => (ebRead t r.1 r.2).1) b.toPages }

/-- A buffer, whether the last command was `do_undo`, whether there was output since the last command, and the text of the last
successful save or load. -/
structure Session where
  buffer : EditBuffer
  lastUndo : Bool
  outputSince : Bool
  saved : List Byte
deriving DecidableEq, Repr

/-- One command, or output. A load is the one of `do_set_mode_file`: it does nothing unless the text is empty and not modified. -/
def Session.run (s : Session) : Command → Session
  | .edit e => { s with buffer := e.run s.buffer, lastUndo := false, outputSince := false }
  | .output e => { s with buffer := e.run s.buffer, outputSince := true }
  | .undo => { s with buffer := (doUndo s.lastUndo s.buffer).1, lastUndo := true, outputSince := false }
  | .other reads => { s with buffer := s.buffer.reading reads, lastUndo := false, outputSince := false }
  | .save reads => ⟨finishSave (s.buffer.reading reads), false, false, s.buffer.bytes⟩
  | .load ino file =>
    ⟨loadIfEmpty s.buffer ino file, false, false, if s.buffer.totalSize = 0 ∧ s.buffer.modified = false then file else s.saved⟩

/-- A run of commands. -/
def Session.runs (s : Session) : List Command → Session
  | [] => s
  | c :: cs => (s.run c).runs cs

/-- The change of the text is in range. -/
def Session.InRange (s : Session) : Command → Prop
  | .edit e | .output e => e.InRange s.buffer.totalSize
  | _ => True

/-- An undo does not go on with a chain that there was output in. -/
def Session.Unbroken (s : Session) (c : Command) : Prop := c = .undo → s.lastUndo = true → s.outputSince = false

/-- The entry that an undo plays is one of a text as long as this one. -/
def Session.PlaysFitting (s : Session) (c : Command) : Prop :=
  c = .undo → ∀ lb ∈ pendingEntry s.lastUndo s.buffer, lb.Fits s.buffer.totalSize

/-- Each step of the run meets a condition in the state before it. -/
def Session.Along (p : Session → Command → Prop) (s : Session) : List Command → Prop
  | [] => True
  | c :: cs => p s c ∧ (s.run c).Along p cs

/-- The invariant of a session: the log knows where the saved text is, and a chain of undos without output in it stands at the
text. -/
def Session.Inv (s : Session) : Prop :=
  ∃ d p steps, Stands s.buffer d ∧ Honest s.saved p steps d ∧ (s.lastUndo = true → s.outputSince = false → AtTop p steps d)

/-- Reading the buffer changes nothing of what it stands for. -/
theorem reading_stands {b : EditBuffer} {d : Doc} (h : Stands b d) (reads : List (Nat × Nat)) : Stands (b.reading reads) d := by
  have hread : ∀ {t : Pages}, t.Ok → (reads.foldl (fun t r => (ebRead t r.1 r.2).1) t).Ok ∧
      (reads.foldl (fun t r => (ebRead t r.1 r.2).1) t).bytes = t.bytes := by
    induction reads with
    | nil => exact fun ht => ⟨ht, rfl⟩
    | cons r rs ih =>
      intro t ht
      have hone : (ebRead t r.1 r.2).1.Ok ∧ (ebRead t r.1 r.2).1.bytes = t.bytes := by
        by_cases ho : r.1 ≤ t.totalSize
        · obtain ⟨t', e1, e2, e3, -, -⟩ := ebRead_spec ht r.2 ho
          rw [e1]
          exact ⟨e2, by rw [Pages.bytes, Pages.bytes, e3]⟩
        · have hz : rwSize t r.1 r.2 = 0 := by
            unfold rwSize
            split <;> omega
          rw [ebRead, hz]
          exact ⟨ht, rfl⟩
      obtain ⟨i1, i2⟩ := ih hone.1
      exact ⟨i1, i2.trans hone.2⟩
  obtain ⟨r1, r2⟩ := hread h.ok
  exact h.toHeld.standsText r1 (r2.trans h.text)

/-- A save that succeeds clears the log and the flag. -/
theorem finishSave_stands {b : EditBuffer} {d : Doc} (h : Stands b d) (reads : List (Nat × Nat)) :
    Stands (finishSave (b.reading reads)) { d.logReset with modified := false } := by
  have h1 := logReset_stands (reading_stands h reads)
  exact ⟨⟨h1.table, h1.text, rfl, h1.readOnly, h1.saveLog, h1.mark, h1.notes, h1.past, h1.hasLog, h1.log.ok, h1.log.bytes,
    h1.log.nb, h1.log.newIndex, h1.log.current, h1.log.le⟩, h1.total⟩

/-- A load of a file, or nothing. -/
theorem loadIfEmpty_cases {b : EditBuffer} {d : Doc} (h : Stands b d) (ino : Nat) (file : List Byte) :
    (∃ d', (b.totalSize = 0 ∧ b.modified = false) ∧ d.text = [] ∧ SameLog { d with saveLog := false } d' ∧ d'.text = file ∧
      Stands (loadIfEmpty b ino file) { d' with modified := false, saveLog := d.saveLog }) ∨
      ¬(b.totalSize = 0 ∧ b.modified = false) ∧ loadIfEmpty b ino file = b := by
  rw [loadIfEmpty]
  split
  · rename_i hempty
    have ht : d.text = [] := List.eq_nil_of_length_eq_zero (by rw [← h.total, hempty.1])
    obtain ⟨d', h1, h2, h3⟩ := reloadBuffer_stands h ht ino file
    exact Or.inl ⟨d', hempty, ht, h2, h3, h1⟩
  · rename_i hempty
    exact Or.inr ⟨hempty, rfl⟩

/-- Every command keeps the invariant. -/
theorem Session.Inv.run {s : Session} (h : s.Inv) {c : Command} (hin : s.InRange c) (hc : s.Unbroken c) : (s.run c).Inv := by
  obtain ⟨d, p, steps, hb, hh, hat⟩ := h
  have hlogged (e : Edit) (he : e.InRange s.buffer.totalSize) :
      ∃ d' p' steps', Stands (e.run s.buffer) d' ∧ Honest s.saved p' steps' d' := by
    have hed : e.InRange d.text.length := by rwa [← hb.total]
    obtain ⟨p', steps', hh'⟩ := hh.edit hed
    exact ⟨_, p', steps', Edit.run_stands hb he, hh'⟩
  cases c with
  | edit e =>
    obtain ⟨d', p', steps', hb', hh'⟩ := hlogged e hin
    exact ⟨d', p', steps', hb', hh', by simp [Session.run]⟩
  | output e =>
    obtain ⟨d', p', steps', hb', hh'⟩ := hlogged e hin
    exact ⟨d', p', steps', hb', hh', by simp [Session.run]⟩
  | undo =>
    have hstart : Honest s.saved p steps (d.start s.lastUndo) ∧ AtTop p steps (d.start s.lastUndo) := by
      unfold Doc.start
      split
      · rename_i hlast
        exact ⟨hh, hat hlast (hc rfl hlast)⟩
      · -- a chain that begins stands at the end of the trail
        refine ⟨⟨⟨hh.saveLog, hh.hasLog, hh.valid, hh.entries, by simp⟩, hh.content, hh.clean⟩, Or.inr ?_⟩
        rw [Doc.left, Option.getD_none, hh.entries, List.length_map, List.take_length]
    obtain ⟨hfit, p', steps', hh', hat'⟩ := hstart.1.undoStep hstart.2
    rw [Doc.start_text] at hfit
    obtain ⟨h1, -⟩ := doUndo_stands hb hfit
    unfold Doc.undo at h1
    by_cases hlog : d.hasLog = true
    · rw [if_pos hlog] at h1
      exact ⟨_, p', steps', h1, hh', fun _ _ => hat'⟩
    · rw [if_neg hlog] at h1
      refine ⟨d, p, steps, h1, hh, fun _ _ => Or.inr ?_⟩
      rw [hh.hasLog (by simpa using hlog), List.take_nil]
  | other reads => exact ⟨d, p, steps, reading_stands hb reads, hh, by simp [Session.run]⟩
  | save reads =>
    refine ⟨_, exact d.text, [], finishSave_stands hb reads, ?_, by simp [Session.run]⟩
    simp only [Session.run, hb.text]
    exact hh.save
  | load ino file =>
    simp only [Session.run]
    rcases loadIfEmpty_cases hb ino file with ⟨d', hempty, ht, h2, h3, h1⟩ | ⟨hempty, hsame⟩
    · obtain ⟨p', steps', hh'⟩ := hh.load (by rw [← hb.modified]; exact hempty.2) ht h2
      refine ⟨_, p', steps', h1, ?_, by simp⟩
      rw [h3] at hh'
      simpa only [h3, if_pos hempty] using hh'
    · rw [hsame, if_neg hempty]
      exact ⟨d, p, steps, hb, hh, by simp⟩

/-- The invariant holds in every run. -/
theorem Session.Inv.runs {s : Session} (h : s.Inv) {cs : List Command}
    (hcs : s.Along (fun s c => s.InRange c ∧ s.Unbroken c) cs) : (s.runs cs).Inv := by
  induction cs generalizing s with
  | nil => exact h
  | cons c cs ih => exact ih (h.run hcs.1.1 hcs.1.2) hcs.2

/-- In every run of logged edits, output, undos, other commands, saves and loads, in which no undo goes on with a chain that there was
output in, a buffer whose modified flag is clear holds the text of the last save or load. -/
theorem modified_honest {b : EditBuffer} (hb : b.WellFormed) (hs : b.saveLog = true) (hlog : b.logBuffer = none)
    {saved : List Byte} (hsaved : b.modified = false → b.bytes = saved) {cs : List Command}
    (hcs : Session.Along (fun s c => s.InRange c ∧ s.Unbroken c) ⟨b, false, false, saved⟩ cs)
    (hm : (Session.runs ⟨b, false, false, saved⟩ cs).buffer.modified = false) :
    (Session.runs ⟨b, false, false, saved⟩ cs).buffer.bytes = (Session.runs ⟨b, false, false, saved⟩ cs).saved := by
  -- a new buffer, a loaded one and one just saved have no log yet
  have hstart : Session.Inv ⟨b, false, false, saved⟩ := by
    obtain ⟨d, hd⟩ := hb
    have hnil : d.entries = [] := hd.entries_nil hlog
    have hle := hd.log.le
    refine ⟨d, exact d.text, [], hd, ⟨⟨?_, fun _ => rfl, trivial, hnil, hle⟩, matches_exact _, ?_⟩, by simp⟩
    · rw [← hd.saveLog, hs]
    · intro hm
      rw [Trail.last_nil, ← hsaved (by rw [hd.modified, hm]), hd.text]
  obtain ⟨d, p, steps, h1, h2, -⟩ := hstart.runs hcs
  have hlast := h2.clean (by rw [← h1.modified]; exact hm)
  have hc := h2.content
  rw [hlast] at hc
  rw [h1.text, hc.eq_of_exact]

/-- A file is loaded, edited and saved, edited again, there is output, and all that is undone in a chain. -/
theorem modified_honest_session :
    let s := Session.runs ⟨.new true, false, false, []⟩
      [.load 7 [1, 2, 3], .edit (.insert 1 [9]), .save [(0, 4)], .edit (.write 0 [5]), .other [(0, 2)], .output (.delete 1 2), .undo,
        .undo]
    s.buffer.modified = false ∧ s.buffer.bytes = s.saved ∧ s.saved = [1, 9, 2, 3] := by
  intro s
  have hm : s.buffer.modified = false := by decide
  refine ⟨hm, ?_, by decide⟩
  refine modified_honest ⟨_, new_stands true⟩ rfl rfl (fun _ => rfl) ?_ hm
  simp only [Session.Along, Session.InRange, Session.Unbroken, Edit.InRange]
  decide

/-- Output between two undos of a chain: the second one takes back the output where it should take back the first insertion, and says
that the text is the saved one. -/
theorem not_modified_honest :
    ¬∀ (b : EditBuffer) (saved : List Byte) (cs : List Command), b.WellFormed → b.saveLog = true → b.logBuffer = none →
      (b.modified = false → b.bytes = saved) → Session.Along (fun s c => s.InRange c) ⟨b, false, false, saved⟩ cs →
      (Session.runs ⟨b, false, false, saved⟩ cs).buffer.modified = false →
      (Session.runs ⟨b, false, false, saved⟩ cs).buffer.bytes = (Session.runs ⟨b, false, false, saved⟩ cs).saved := by
  intro h
  have hrun := h (.new true) [] [.edit (.insert 0 [1]), .edit (.insert 1 [2]), .undo, .output (.insert 0 [9]), .undo]
    ⟨_, new_stands true⟩ rfl rfl (fun _ => rfl) (by simp only [Session.Along, Session.InRange, Edit.InRange]; decide) (by decide)
  exact absurd hrun (by decide)

/-! ## The undo log -/

/-- A deletion leaves the log on or off. -/
theorem Doc.saveLog_delete (d : Doc) (offset size : Nat) : (d.delete offset size).saveLog = d.saveLog := by
  unfold Doc.delete
  split
  · rfl
  · exact Doc.addlog_saveLog d .delete offset size

/-- No edit and no undo turns the log off. -/
theorem Doc.saveLog_edit {d : Doc} {e : Edit} (h : d.saveLog = true) (he : e.InRange d.text.length) : (e.apply d).saveLog = true := by
  refine Edit.apply_induct (P := fun d => d.saveLog = true) ?_ ?_ ?_ h he
  · exact fun {d} offset buf h _ => (Doc.addlog_saveLog d .insert offset buf.length).trans h
  · exact fun {d} offset size h _ _ => (d.saveLog_delete offset size).trans h
  · intro d offset buf h hne _
    rw [Doc.overwrite, if_neg hne]
    exact (Doc.addlog_saveLog d .write offset buf.length).trans h

/-- So does an undo. -/
theorem Doc.saveLog_undo (d : Doc) (chained : Bool) : (d.undo chained).1.saveLog = d.saveLog := by
  have hplay (d : Doc) (e : LogEntry) : (d.play e).saveLog = d.saveLog := by
    cases e with
    | insert was offset size => exact d.saveLog_delete offset size
    | delete was offset data => exact Doc.addlog_saveLog _ .insert offset data.length
    | write was offset data => exact Doc.addlog_saveLog _ .write offset data.length
  have hstep (d : Doc) : d.undoStep.1.saveLog = d.saveLog := by
    unfold Doc.undoStep
    split
    · rfl
    · exact hplay _ _
  unfold Doc.undo
  split
  · rw [hstep, Doc.start]
    split <;> rfl
  · rfl

/-- The invariant of a session whose log is well formed. -/
def Session.LogInv (s : Session) : Prop := ∃ d, Stands s.buffer d ∧ d.saveLog = true ∧ d.Bounded

/-- One command keeps the log readable. -/
theorem Session.LogInv.run {s : Session} (h : s.LogInv) {c : Command} (hin : s.InRange c) (hc : s.PlaysFitting c) :
    (s.run c).LogInv := by
  obtain ⟨d, hb, hs, hd⟩ := h
  have hlogged (e : Edit) (he : e.InRange s.buffer.totalSize) : ∃ d', Stands (e.run s.buffer) d' ∧ d'.saveLog = true ∧ d'.Bounded := by
    have hed : e.InRange d.text.length := by rwa [← hb.total]
    exact ⟨_, Edit.run_stands hb he, d.saveLog_edit hs hed, hd.edit hed⟩
  cases c with
  | edit e => exact hlogged e hin
  | output e => exact hlogged e hin
  | undo =>
    refine ⟨_, (doUndo_stands hb fun e he => ?_).1, (d.saveLog_undo s.lastUndo).trans hs, hd.undo s.lastUndo⟩
    have hfit := hc rfl e.header (by rw [pendingEntry_eq hb, he]; rfl)
    rwa [hb.total, LogEntry.fits_iff] at hfit
  | other reads => exact ⟨d, reading_stands hb reads, hs, hd⟩
  | save reads =>
    refine ⟨_, finishSave_stands hb reads, ?_, hd.logReset.congr rfl rfl⟩
    unfold Doc.logReset
    split <;> exact hs
  | load ino file =>
    rcases loadIfEmpty_cases hb ino file with ⟨d', -, -, h2, -, h1⟩ | ⟨-, hsame⟩
    · exact ⟨_, h1, hs, hd.congr h2.entries h2.pos⟩
    · rw [Session.LogInv, Session.run, hsame]
      exact ⟨d, hb, hs, hd⟩

/-- So does every run of commands. -/
theorem Session.LogInv.runs {s : Session} (h : s.LogInv) {cs : List Command}
    (hcs : s.Along (fun s c => s.InRange c ∧ s.PlaysFitting c) cs) : (s.runs cs).LogInv := by
  induction cs generalizing s with
  | nil => exact h
  | cons c cs ih => exact ih (h.run hcs.1.1 hcs.1.2) hcs.2

/-- A buffer without a log buffer, whose chain of undos is forgotten, as `eb_new` and `log_reset` leave it. -/
theorem Session.logInv_start {b : EditBuffer} (hb : b.WellFormed) (hs : b.saveLog = true) (hlog : b.logBuffer = none)
    (hcur : b.logCurrent = 0) : Session.LogInv ⟨b, false, false, b.bytes⟩ := by
  obtain ⟨d, hd⟩ := hb
  have hnil : d.entries = [] := hd.entries_nil hlog
  refine ⟨d, hd, by rw [← hd.saveLog, hs], ?_, ?_⟩
  · rw [hnil]
    exact Nat.zero_le _
  · intro q hq
    have hone := hd.log.current
    rw [hq, hcur] at hone
    cases hone

/-- The oldest entry leaves a full log, and nothing else changes. -/
theorem Doc.evict_entries {b : EditBuffer} {log : Pages} {d : Doc} (h : LogHeld b log d.entries d.pos) :
    d.evict.entries = if nbLogsMax - 1 ≤ b.nbLogs then d.entries.tail else d.entries := by
  rw [h.nb, Doc.evict]
  by_cases hfull : d.Full
  · rw [if_pos hfull, if_pos (show nbLogsMax - 1 ≤ d.entries.length from hfull)]
  · rw [if_neg hfull, if_neg (show ¬nbLogsMax - 1 ≤ d.entries.length from hfull)]

/-- In every state that a run of logged edits, output and undos that play fitting entries reaches, in any order and with other
commands, saves and loads between them, the log is well formed. Making room removes exactly the first entry of a full log, and
recording a change puts one entry behind those that are left. -/
theorem log_wellFormed {b : EditBuffer} (hb : b.WellFormed) (hs : b.saveLog = true) (hlog : b.logBuffer = none)
    (hcur : b.logCurrent = 0) {cs : List Command}
    (hcs : Session.Along (fun s c => s.InRange c ∧ s.PlaysFitting c) ⟨b, false, false, b.bytes⟩ cs) :
    let b' := (Session.runs ⟨b, false, false, b.bytes⟩ cs).buffer
    let log := b'.logBuffer.getD Pages.empty
    ∃ es, LogShape b' log.bytes es ∧
      let kept := if nbLogsMax - 1 ≤ b'.nbLogs then es.tail else es
      LogShape (evictLog b' log).1 (evictLog b' log).2.bytes kept ∧
      ∀ op offset size, op = .write ∨ op = .insert ∨ op = .delete →
        (op = .write ∨ op = .delete → offset + size ≤ b'.bytes.length) →
        LogShape (ebAddlog b' op offset size) (ebAddlog b' op offset size).logText
          (kept ++ [.make op b'.modified offset size b'.bytes]) := by
  intro b' log
  obtain ⟨d, hst, hsave, hd⟩ := (Session.logInv_start hb hs hlog hcur).runs hcs
  have hheld : LogHeld b' log d.entries d.pos := hst.log
  refine ⟨d.entries, hheld.shape hd, ?_, ?_⟩
  · rw [← Doc.evict_entries hheld]
    exact (evictLog_spec hheld).1.shape hd.evict.1
  · intro op offset size hop hfit
    have htext : b'.bytes = d.text := hst.text
    have hmod : b'.modified = d.modified := hst.modified
    rw [htext] at hfit
    obtain ⟨hadd, -⟩ := ebAddlog_spec hst.toHeld op offset size hop hfit
    have hshape := hadd.log.shape (hd.addlog op offset size)
    obtain ⟨hentries, -⟩ := d.addlog_logged hsave op offset size
    have htold : LogHeld b' log (d.tell ⟨op, offset, size⟩).entries (d.tell ⟨op, offset, size⟩).pos := hheld
    rw [hentries, Doc.evict_entries htold] at hshape
    rw [htext, hmod]
    exact hshape

/-- A text is inserted, partly deleted and written over its end, and changes are undone in a chain that there is output in. -/
theorem log_wellFormed_run :
    let b := (Session.runs ⟨.new true, false, false, []⟩
      [.edit (.insert 0 [1, 2, 3]), .edit (.delete 0 2), .edit (.write 0 [7, 8]), .undo, .output (.insert 0 [9]), .undo,
        .other []]).buffer
    ∃ es, LogShape b (b.logBuffer.getD Pages.empty).bytes es := by
  intro b
  have hcs : Session.Along (fun s c => s.InRange c ∧ s.PlaysFitting c) ⟨.new true, false, false, []⟩
      [.edit (.insert 0 [1, 2, 3]), .edit (.delete 0 2), .edit (.write 0 [7, 8]), .undo, .output (.insert 0 [9]), .undo,
        .other []] := by
    simp only [Session.Along, Session.InRange, Session.PlaysFitting, Edit.InRange]
    decide
  obtain ⟨es, hes, -⟩ := log_wellFormed (b := .new true) ⟨_, new_stands true⟩ rfl rfl rfl hcs
  exact ⟨es, hes⟩

end Hoe
