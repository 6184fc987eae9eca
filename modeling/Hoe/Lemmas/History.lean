import Hoe.Lemmas.Refine

/-!
# The log as a trail

Every entry of the log was recorded in front of a change, and leads back over it. `Recorded` says so for one entry, and the
entries since some moment are the labels of a trail of snapshots (`Hoe.Lib.Trail`). A full log forgets its oldest entry, so
what it holds is the end of that trail.
-/

namespace Hoe

open Splice

/-! ## One entry -/

/-- The change the entry was recorded for, taken back. -/
def LogEntry.revert (e : LogEntry) (text : List Byte) : List Byte :=
  match e with
  | insert _ offset size => removeAt text offset size
  | delete _ offset data => insertAt text offset data
  | write _ offset data => overwriteAt text offset data

/-- The entry was recorded at the first snapshot, for a change that led to the second. -/
structure Recorded (s : Snapshot) (e : LogEntry) (t : Snapshot) : Prop where
  modified : e.header.wasModified = s.modified
  fits : e.Fits t.bytes.length
  revert : e.revert t.bytes = s.bytes

/-- The entry of an insertion takes it back. -/
theorem recorded_insert {s : Snapshot} {offset : Nat} (buf : List Byte) (ho : offset ≤ s.bytes.length) :
    Recorded s (.make .insert s.modified offset buf.length s.bytes) ⟨insertAt s.bytes offset buf, true⟩ := by
  refine ⟨rfl, ?_, removeAt_insertAt _ _ ho⟩
  intro _
  rw [length_insertAt]
  omega

/-- That of a deletion does so. -/
theorem recorded_delete {s : Snapshot} {offset size : Nat} (hs : offset + size ≤ s.bytes.length) :
    Recorded s (.make .delete s.modified offset size s.bytes) ⟨removeAt s.bytes offset size, true⟩ := by
  refine ⟨rfl, ?_, insertAt_removeAt _ hs⟩
  rw [LogEntry.make, LogEntry.Fits, length_removeAt _ hs]
  omega

/-- That of a change in place does so as well. -/
theorem recorded_write {s : Snapshot} {offset : Nat} {buf : List Byte} (hs : offset + buf.length ≤ s.bytes.length) :
    Recorded s (.make .write s.modified offset buf.length s.bytes) ⟨overwriteAt s.bytes offset buf, true⟩ := by
  refine ⟨rfl, ?_, overwriteAt_overwriteAt _ _ hs⟩
  rw [LogEntry.make, LogEntry.Fits, length_overwriteAt _ hs, length_slice _ hs]
  exact hs

/-! ## Documents -/

namespace Doc

/-- The text behind `eb_insert_buffer`. -/
theorem insertBlock_text (d : Doc) (offset : Nat) (buf : List Byte) :
    (d.insertBlock offset buf).text = insertAt d.text offset buf := by
  unfold insertBlock
  split
  · rename_i hnil
    rw [hnil]
    simp [insertAt]
  · rfl

/-- The text behind `eb_delete`. -/
theorem delete_text (d : Doc) (offset size : Nat) : (d.delete offset size).text = removeAt d.text offset size := by
  unfold delete
  split
  · rw [removeAt, List.take_of_length_le (by omega), List.drop_of_length_le (by omega), List.append_nil]
  · rfl

/-- The text behind a change in place. -/
theorem overwrite_text (d : Doc) (offset : Nat) (buf : List Byte) :
    (d.overwrite offset buf).text = overwriteAt d.text offset buf := by
  unfold overwrite
  split
  · rename_i hnil
    rw [hnil]
    simp [overwriteAt]
  · rfl

/-- The text behind `eb_write`, which goes on behind the end. -/
theorem write_text (d : Doc) {offset : Nat} (buf : List Byte) (ho : offset ≤ d.text.length) :
    (d.write offset buf).text = overwriteAt d.text offset buf := by
  simp only [write]
  rw [insertBlock_text, overwrite_text]
  exact insertAt_overwriteAt_overhang d.text buf ho rfl

/-- Playing an entry that fits takes its change back. -/
theorem play_text (d : Doc) {e : LogEntry} (hfit : e.Fits d.text.length) : (d.play e).text = e.revert d.text := by
  cases e with
  | insert was offset size => exact delete_text d offset size
  | delete was offset data =>
    simp only [play, addlog_text]
    exact insertBlock_text _ offset data
  | write was offset data =>
    simp only [play, addlog_text]
    rw [insertBlock_text, delete_text]
    exact insertAt_removeAt_eq_overwriteAt _ _ hfit

/-! ### What each function does to the log -/

/-- What `record` does to the entries: the oldest leaves a full log. -/
theorem evict_suffix (d : Doc) : d.evict.entries <:+ d.entries := by
  unfold evict
  split
  · exact List.tail_suffix d.entries
  · exact List.suffix_refl _

@[simp] theorem evict_saveLog (d : Doc) : d.evict.saveLog = d.saveLog := by unfold evict; split <;> rfl

@[simp] theorem evict_modified (d : Doc) : d.evict.modified = d.modified := by unfold evict; split <;> rfl

@[simp] theorem evict_past (d : Doc) : d.evict.past = d.past := by unfold evict; split <;> rfl

@[simp] theorem evict_notes (d : Doc) : d.evict.notes = d.notes := by unfold evict; split <;> rfl

@[simp] theorem evict_mark (d : Doc) : d.evict.mark = d.mark := by unfold evict; split <;> rfl

@[simp] theorem evict_readOnly (d : Doc) : d.evict.readOnly = d.readOnly := by unfold evict; split <;> rfl

/-- A logged change: the entry is recorded behind what the log still holds. -/
theorem addlog_logged {d : Doc} (hs : d.saveLog = true) (op : LogOperation) (offset size : Nat) :
    (d.addlog op offset size).entries =
        (d.tell ⟨op, offset, size⟩).evict.entries ++ [.make op d.modified offset size d.text] ∧
      (d.addlog op offset size).past = d.past ++ [d.snapshot] ∧ (d.addlog op offset size).hasLog = true ∧
      (d.addlog op offset size).pos = (d.tell ⟨op, offset, size⟩).evict.pos := by
  simp [addlog, hs, record, tell]

@[simp] theorem addlog_saveLog (d : Doc) (op : LogOperation) (offset size : Nat) :
    (d.addlog op offset size).saveLog = d.saveLog := by
  unfold addlog
  split <;> simp [record, tell]

@[simp] theorem addlog_modified (d : Doc) (op : LogOperation) (offset size : Nat) :
    (d.addlog op offset size).modified = true := by
  unfold addlog
  split <;> simp [record, tell]

@[simp] theorem addlog_readOnly (d : Doc) (op : LogOperation) (offset size : Nat) :
    (d.addlog op offset size).readOnly = d.readOnly := by
  unfold addlog
  split <;> simp [record, tell]

@[simp] theorem addlog_notes (d : Doc) (op : LogOperation) (offset size : Nat) :
    (d.addlog op offset size).notes = d.notes ++ [⟨op, offset, size⟩] := by
  unfold addlog
  split <;> simp [record, tell]

@[simp] theorem addlog_mark (d : Doc) (op : LogOperation) (offset size : Nat) :
    (d.addlog op offset size).mark = ebOffsetCallback d.mark ⟨op, offset, size⟩ := by
  unfold addlog
  split <;> simp [record, tell]

/-- The entries older than the position of a chain stay older than it, those of them that are not forgotten. -/
theorem evict_take_left (d : Doc) (p : Nat) (hp : d.pos = some p) (hle : p ≤ d.entries.length) :
    ∃ q, d.evict.pos = some q ∧ q ≤ d.evict.entries.length ∧ d.evict.entries.take q <:+ d.entries.take p := by
  unfold evict
  split
  · refine ⟨p - 1, by simp [hp], by rw [List.length_tail]; omega, ?_⟩
    cases hd : d.entries with
    | nil => simp
    | cons e es =>
      cases p with
      | zero => simp
      | succ p => exact ⟨[e], rfl⟩
  · exact ⟨p, hp, hle, List.suffix_refl _⟩

end Doc

/-! ## Edits -/

/-- A logged edit of one buffer. The source of an `insertBuffer` is the text of another buffer. -/
inductive Edit where
  | insert (offset : Nat) (buf : List Byte)
  | delete (offset size : Nat)
  | write (offset : Nat) (buf : List Byte)
  | insertBuffer (offset : Nat) (src : Pages) (srcOffset size : Nat)
deriving DecidableEq, Repr

namespace Edit

/-- The edit on the buffer. -/
def run (b : EditBuffer) : Edit → EditBuffer
  | insert offset buf => ebInsert b offset buf
  | delete offset size => ebDelete b offset size
  | write offset buf => ebWrite b offset buf
  | insertBuffer offset src srcOffset size => (ebInsertBuffer b offset src srcOffset size).1

/-- The edit on the document. -/
def apply (d : Doc) : Edit → Doc
  | insert offset buf => d.insert offset buf
  | delete offset size => d.delete offset size
  | write offset buf => d.write offset buf
  | insertBuffer offset src srcOffset size => d.insertBlock offset (slice src.bytes srcOffset size)

/-- The arguments of the edit are in range, for a text of the size. -/
def InRange (totalSize : Nat) : Edit → Prop
  | insert offset _ => offset ≤ totalSize
  | delete offset size => offset + size ≤ totalSize
  | write offset _ => offset ≤ totalSize
  | insertBuffer offset src srcOffset size => src.Ok ∧ offset ≤ totalSize ∧ srcOffset + size ≤ src.totalSize

/-- Every edit does to the buffer what it does to the document. -/
theorem run_stands {b : EditBuffer} {d : Doc} (h : Stands b d) {e : Edit} (he : e.InRange b.totalSize) :
    Stands (e.run b) (e.apply d) := by
  rw [h.total] at he
  cases e with
  | insert offset buf => exact ebInsert_stands h he buf
  | delete offset size => exact ebDelete_stands h offset size (fun _ => he)
  | write offset buf => exact ebWrite_stands h buf he
  | insertBuffer offset src srcOffset size => exact (ebInsertBuffer_stands h he.1 offset srcOffset size he.2.1 he.2.2).1

/-- What holds of a document and of every in-range insertion, removal and overwriting of it holds of every edit of it. -/
theorem apply_induct {P : Doc → Prop}
    (hinsert : ∀ d offset buf, P d → offset ≤ d.text.length → P (d.insert offset buf))
    (hdelete : ∀ d offset size, P d → offset < d.text.length → offset + size ≤ d.text.length → P (d.delete offset size))
    (hwrite : ∀ d offset buf, P d → buf ≠ [] → offset + buf.length ≤ d.text.length → P (d.overwrite offset buf))
    {d : Doc} (h : P d) {e : Edit} (he : e.InRange d.text.length) : P (e.apply d) := by
  have hblock (d : Doc) (offset : Nat) (buf : List Byte) (h : P d) (ho : offset ≤ d.text.length) :
      P (d.insertBlock offset buf) := by
    unfold Doc.insertBlock
    split
    · exact h
    · exact hinsert d offset buf h ho
  cases e with
  | insert offset buf => exact hinsert d offset buf h he
  | delete offset size =>
    by_cases ho : d.text.length ≤ offset
    · rwa [apply, Doc.delete, if_pos ho]
    · exact hdelete d offset size h (by omega) he
  | write offset buf =>
    have ho : offset ≤ d.text.length := he
    obtain ⟨len, hlen⟩ : ∃ len, len = min buf.length (d.text.length - offset) := ⟨_, rfl⟩
    have htk : (buf.take len).length = len := by rw [List.length_take]; omega
    have hover : P (d.overwrite offset (buf.take len)) := by
      by_cases hnil : buf.take len = []
      · rwa [Doc.overwrite, if_pos hnil]
      · exact hwrite d offset _ h hnil (by omega)
    simp only [apply, Doc.write, ← hlen]
    refine hblock _ _ _ hover ?_
    rw [Doc.overwrite_text, length_overwriteAt _ (by omega)]
    omega
  | insertBuffer offset src srcOffset size => exact hblock d offset _ h he.2.1

end Edit

/-- A run of edits. -/
def runEdits (b : EditBuffer) : List Edit → EditBuffer
  | [] => b
  | e :: es => runEdits (e.run b) es

/-- Every edit of the run is in range where it is made. -/
def AllInRange (b : EditBuffer) : List Edit → Prop
  | [] => True
  | e :: es => e.InRange b.totalSize ∧ AllInRange (e.run b) es

/-! ## The trail of a run of edits -/

/-- The log holds the end of the trail that began with the entries `old`, and the snapshots are those in front of its steps. -/
structure Tracks (old : List LogEntry) (ago : List Snapshot) (s : Snapshot) (steps : List (LogEntry × Snapshot)) (d : Doc) :
    Prop where
  saveLog : d.saveLog = true
  valid : Trail.Valid Recorded s steps
  last : Trail.last s steps = d.snapshot
  entries : d.entries <:+ old ++ steps.map Prod.fst
  past : d.past = ago ++ Trail.before s steps

/-- A recorded change takes the trail one step further. -/
theorem Tracks.step {old : List LogEntry} {ago : List Snapshot} {s : Snapshot} {steps : List (LogEntry × Snapshot)} {d : Doc}
    (h : Tracks old ago s steps d) (op : LogOperation) (offset size : Nat) {text : List Byte}
    (hr : Recorded d.snapshot (.make op d.modified offset size d.text) ⟨text, true⟩) :
    ∃ steps', Tracks old ago s steps' { d.addlog op offset size with text := text } := by
  obtain ⟨h1, h2, -, -⟩ := d.addlog_logged h.saveLog op offset size
  refine ⟨steps ++ [(.make op d.modified offset size d.text, ⟨text, true⟩)], ?_, ?_, ?_, ?_, ?_⟩
  · simp only [Doc.addlog_saveLog, h.saveLog]
  · rw [Trail.valid_snoc, h.last]
    exact ⟨h.valid, hr⟩
  · simp [Doc.snapshot]
  · simp only [h1, List.map_append, List.map_cons, List.map_nil]
    rw [← List.append_assoc]
    have hsub : (d.tell ⟨op, offset, size⟩).evict.entries <:+ old ++ steps.map Prod.fst :=
      (Doc.evict_suffix _).trans h.entries
    obtain ⟨pre, hpre⟩ := hsub
    exact ⟨pre, by rw [← List.append_assoc, hpre]⟩
  · simp only [h2, h.past, Trail.before_snoc, h.last, List.append_assoc]

/-- An edit takes the trail further, by as many steps as it records. -/
theorem Tracks.edit {old : List LogEntry} {ago : List Snapshot} {s : Snapshot} {steps : List (LogEntry × Snapshot)} {d : Doc}
    (h : Tracks old ago s steps d) {e : Edit} (he : e.InRange d.text.length) :
    ∃ steps', Tracks old ago s steps' (e.apply d) := by
  refine Edit.apply_induct (P := fun d => ∃ steps', Tracks old ago s steps' d) ?_ ?_ ?_ ⟨steps, h⟩ he
  · intro d offset buf ⟨steps, h⟩ ho
    exact h.step .insert offset buf.length (recorded_insert (s := d.snapshot) buf ho)
  · intro d offset size ⟨steps, h⟩ ho hs
    rw [Doc.delete, if_neg (by omega)]
    exact h.step .delete offset size (recorded_delete (s := d.snapshot) hs)
  · intro d offset buf ⟨steps, h⟩ hne hs
    rw [Doc.overwrite, if_neg hne]
    exact h.step .write offset buf.length (recorded_write (s := d.snapshot) hs)

/-- After a run of edits the buffer stands for a document whose log is the end of the trail of the run. -/
theorem runEdits_tracks {b : EditBuffer} {d : Doc} (hb : Stands b d) {old : List LogEntry} {ago : List Snapshot}
    {s : Snapshot} {steps : List (LogEntry × Snapshot)} (h : Tracks old ago s steps d) {es : List Edit}
    (hes : AllInRange b es) : ∃ d' steps', Stands (runEdits b es) d' ∧ Tracks old ago s steps' d' := by
  induction es generalizing b d steps with
  | nil => exact ⟨d, steps, hb, h⟩
  | cons e es ih =>
    obtain ⟨steps', h'⟩ := h.edit (show e.InRange d.text.length by rw [← hb.total]; exact hes.1)
    exact ih (Edit.run_stands hb hes.1) h' hes.2

/-! ## A chain of undos -/

/-- The entries an undo has in front of it, oldest first. -/
def Doc.older (d : Doc) : List LogEntry := d.entries.take d.left

/-- A chain of undos has come back to the first `k` steps of the trail; the entries in front of it are those of the trail that
the log still holds. -/
structure Walks (old : List LogEntry) (s : Snapshot) (steps : List (LogEntry × Snapshot)) (k : Nat) (d : Doc) : Prop where
  saveLog : d.saveLog = true
  left : d.left ≤ d.entries.length
  here : Trail.last s (steps.take k) = d.snapshot
  older : d.older <:+ old ++ (steps.take k).map Prod.fst

/-- An undo is refused when there is nothing in front of it. -/
theorem Doc.next_eq_none {d : Doc} (h : d.older = []) : d.next = none := by
  rw [next]
  cases hl : d.left with
  | zero => rfl
  | succ p =>
    rw [older, hl] at h
    simp only [List.take_eq_nil_iff, Nat.add_eq_zero_iff, Nat.one_ne_zero, and_false, false_or] at h
    simp [h]

/-- An undo plays the newest of the entries in front of it. -/
theorem Doc.next_of_older {d : Doc} (hl : d.left ≤ d.entries.length) {es : List LogEntry} {e : LogEntry}
    (h : d.older = es ++ [e]) : d.next = some e ∧ d.left = es.length + 1 := by
  have hlen : d.left = es.length + 1 := by
    have := congrArg List.length h
    rw [older, List.length_take, List.length_append, List.length_singleton] at this
    omega
  refine ⟨?_, hlen⟩
  rw [next, hlen]
  have hget : (d.entries.take d.left)[es.length]? = some e := by
    rw [← older, h]
    simp
  rw [List.getElem?_take_of_lt (by omega)] at hget
  exact hget

/-- A document with a position has `older` up to it. -/
theorem Doc.older_of_pos {d : Doc} {p : Nat} (hp : d.pos = some p) : d.left = p ∧ d.older = d.entries.take p := by
  have hl : d.left = p := by rw [left, hp, Option.getD_some]
  exact ⟨hl, by rw [older, hl]⟩

/-- A recorded change leaves the position of a chain where it is, up to the entries the log forgets. -/
theorem Doc.addlog_older {d : Doc} (hs : d.saveLog = true) {p : Nat} (hp : d.pos = some p) (hle : p ≤ d.entries.length)
    (op : LogOperation) (offset size : Nat) : (d.addlog op offset size).left ≤ (d.addlog op offset size).entries.length ∧
      (d.addlog op offset size).older <:+ d.entries.take p := by
  obtain ⟨h1, -, -, h4⟩ := d.addlog_logged hs op offset size
  obtain ⟨q, e1, e2, e3⟩ := Doc.evict_take_left (d.tell ⟨op, offset, size⟩) p hp hle
  obtain ⟨hl, ho⟩ := Doc.older_of_pos (h4.trans e1)
  rw [hl, ho, h1, List.length_append, List.take_append_of_le_length e2]
  exact ⟨by omega, e3⟩

/-- Without a log only the callbacks are called. -/
theorem Doc.addlog_quiet {d : Doc} (hs : d.saveLog = false) (op : LogOperation) (offset size : Nat) :
    d.addlog op offset size = d.tell ⟨op, offset, size⟩ := by
  simp [addlog, hs]

/-- A change made with the log off leaves the log alone. -/
structure SameLog (d d' : Doc) : Prop where
  entries : d'.entries = d.entries
  pos : d'.pos = d.pos
  hasLog : d'.hasLog = d.hasLog
  saveLog : d'.saveLog = d.saveLog
  past : d'.past = d.past

/-- The log is the same over two changes. -/
theorem SameLog.trans {d d' d'' : Doc} (h : SameLog d d') (h' : SameLog d' d'') : SameLog d d'' :=
  ⟨h'.entries.trans h.entries, h'.pos.trans h.pos, h'.hasLog.trans h.hasLog, h'.saveLog.trans h.saveLog,
    h'.past.trans h.past⟩

/-- Without a log an insertion leaves the entries alone. -/
theorem Doc.insertBlock_quiet {d : Doc} (hs : d.saveLog = false) (offset : Nat) (buf : List Byte) :
    SameLog d (d.insertBlock offset buf) := by
  unfold insertBlock
  split
  · exact ⟨rfl, rfl, rfl, rfl, rfl⟩
  · rw [insert, addlog_quiet hs]
    exact ⟨rfl, rfl, rfl, rfl, rfl⟩

/-- So does a deletion. -/
theorem Doc.delete_quiet {d : Doc} (hs : d.saveLog = false) (offset size : Nat) : SameLog d (d.delete offset size) := by
  unfold delete
  split
  · exact ⟨rfl, rfl, rfl, rfl, rfl⟩
  · rw [addlog_quiet hs]
    exact ⟨rfl, rfl, rfl, rfl, rfl⟩

/-- What an entry other than an insertion is played as: the text changes with the log off, then an entry is recorded. -/
theorem Doc.play_quiet (d : Doc) {e : LogEntry} (he : e.header.op ≠ .insert) :
    ∃ d' op, d.play e = ({ d' with saveLog := d.saveLog } : Doc).addlog op e.header.offset e.header.size ∧
      SameLog { d with saveLog := false } d' ∧ (op = .insert ∨ op = .write) := by
  cases e with
  | insert was offset size => exact absurd rfl he
  | delete was offset data =>
    exact ⟨_, .insert, rfl, insertBlock_quiet rfl offset data, Or.inl rfl⟩
  | write was offset data =>
    have h1 := delete_quiet (d := { d with saveLog := false }) rfl offset data.length
    have h2 := insertBlock_quiet h1.saveLog offset data
    exact ⟨_, .write, rfl, h1.trans h2, Or.inr rfl⟩

/-- Playing an entry leaves the position of the chain where it is, up to the entries the log forgets. -/
theorem Doc.play_older {d : Doc} (hs : d.saveLog = true) {p : Nat} (hp : d.pos = some p) (hle : p ≤ d.entries.length)
    (e : LogEntry) : (d.play e).saveLog = true ∧ (d.play e).left ≤ (d.play e).entries.length ∧
      (d.play e).older <:+ d.entries.take p := by
  by_cases he : e.header.op = .insert
  · cases e with
    | insert was offset size =>
      simp only [play, delete]
      split
      · obtain ⟨hl, ho⟩ := older_of_pos hp
        exact ⟨hs, by rw [hl]; exact hle, by rw [ho]⟩
      · exact ⟨by simp only [addlog_saveLog, hs], addlog_older hs hp hle .delete offset size⟩
    | delete was offset data => cases he
    | write was offset data => cases he
  · obtain ⟨d', op, h1, h2, -⟩ := d.play_quiet he
    have h3 := addlog_older (d := { d' with saveLog := d.saveLog }) hs (p := p) (by rw [← hp]; exact h2.pos)
      (by simp only [h2.entries]; exact hle) op e.header.offset e.header.size
    rw [h1]
    refine ⟨by rw [addlog_saveLog, hs], h3.1, ?_⟩
    have h4 : d'.entries.take p = d.entries.take p := by rw [h2.entries]
    exact h3.2.trans (by simp only [h4, List.suffix_refl])

/-- One undo of a chain takes it one step of the trail back, unless it finds nothing in front of it. -/
theorem Walks.step {old : List LogEntry} {s : Snapshot} {steps : List (LogEntry × Snapshot)} {k : Nat} {d : Doc}
    (hv : Trail.Valid Recorded s steps) (hk : k < steps.length) (h : Walks old s steps (k + 1) d) (hne : d.older ≠ []) :
    (∀ e, d.next = some e → e.Fits d.text.length) ∧ Walks old s steps k d.undoStep.1 ∧ d.undoStep.2.2 = .undo := by
  obtain ⟨x, hx⟩ : ∃ x, steps[k]? = some x := ⟨steps[k], List.getElem?_eq_getElem hk⟩
  obtain ⟨hrec, hlast⟩ := hv.step hx
  have hhere : x.2 = d.snapshot := by rw [← hlast, h.here]
  rw [hhere] at hrec
  -- the entry in front of the undo is the one of the step
  obtain ⟨es, hes⟩ : ∃ es, d.older = es ++ [x.1] ∧ es <:+ old ++ (steps.take k).map Prod.fst := by
    obtain ⟨pre, hpre⟩ := h.older
    rw [List.take_add_one, hx, Option.toList_some, List.map_append, List.map_singleton, ← List.append_assoc] at hpre
    obtain ⟨es, e, hsplit⟩ := (List.eq_nil_or_concat d.older).resolve_left hne
    rw [List.concat_eq_append] at hsplit
    rw [hsplit, ← List.append_assoc] at hpre
    obtain ⟨h1, h2⟩ := List.append_inj' hpre rfl
    obtain rfl : e = x.1 := by simpa using h2
    exact ⟨es, hsplit, pre, h1⟩
  obtain ⟨hes, hsuf⟩ := hes
  obtain ⟨hnext, hleft⟩ := Doc.next_of_older h.left hes
  have hfit : x.1.Fits d.text.length := hrec.fits
  have hle := h.left
  obtain ⟨d₁, hd₁⟩ : ∃ d₁, d₁ = { d with pos := some (d.left - 1) } := ⟨_, rfl⟩
  obtain ⟨p1, p2, p3⟩ := Doc.play_older (d := d₁) (by rw [hd₁]; exact h.saveLog) (p := d.left - 1) (by rw [hd₁])
    (by rw [hd₁]; simp only; omega) x.1
  have hstep : d.undoStep =
      ({ d₁.play x.1 with modified := x.1.header.wasModified }, some (Doc.offsetAfter x.1), .undo) := by
    rw [Doc.undoStep, hnext, hd₁]
  have htext : (d₁.play x.1).text = x.1.revert d.text := by
    rw [Doc.play_text d₁ (by rw [hd₁]; exact hfit), hd₁]
  have hback : d₁.entries.take (d.left - 1) = es := by
    have : d.entries.take d.left = es ++ [x.1] := hes
    rw [hleft] at this ⊢
    rw [hd₁, Nat.add_sub_cancel]
    have h2 := congrArg (List.take es.length) this
    rwa [List.take_take, Nat.min_eq_left (by omega), List.take_left] at h2
  rw [hstep]
  refine ⟨?_, ⟨p1, p2, ?_, ?_⟩, rfl⟩
  · intro e he
    rw [hnext] at he
    cases he
    exact hfit
  · rw [Doc.snapshot]
    simp only [htext, hrec.modified]
    exact (congrArg (Snapshot.mk · _) hrec.revert).symm
  · rw [hback] at p3
    exact p3.trans hsuf

/-- A chain of undos begins at the end of the trail. -/
theorem Tracks.walks {old : List LogEntry} {ago : List Snapshot} {s : Snapshot} {steps : List (LogEntry × Snapshot)} {d : Doc}
    (h : Tracks old ago s steps d) : Walks old s steps steps.length (d.start false) := by
  have hleft : (d.start false).left = d.entries.length := rfl
  refine ⟨h.saveLog, Nat.le_refl _, ?_, ?_⟩
  · rw [List.take_length, h.last]
    rfl
  · rw [Doc.older, hleft, List.take_length]
    change d.entries.take d.entries.length <:+ _
    rw [List.take_length]
    exact h.entries

/-- `m` undos in a row, the first of them in a chain or not; `none` when one of them has nothing to undo. -/
def undos : Nat → Bool → EditBuffer → Option EditBuffer
  | 0, _, b => some b
  | m + 1, chained, b =>
    match doUndo chained b with
    | (b, _, .undo) => undos m true b
    | _ => none

/-- An undo that undoes something is one step of the document back. -/
theorem doUndo_step {b : EditBuffer} {d : Doc} (hb : Stands b d) {chained : Bool}
    (hfit : ∀ e, (d.start chained).next = some e → e.Fits d.text.length) (hu : (doUndo chained b).2.2 = .undo) :
    Stands (doUndo chained b).1 (d.start chained).undoStep.1 ∧ (d.start chained).undoStep.2.2 = .undo := by
  obtain ⟨h1, h2⟩ := doUndo_stands hb hfit
  rw [h2] at hu
  unfold Doc.undo at h1 hu
  split at hu
  · rename_i hlog
    rw [if_pos hlog] at h1
    exact ⟨h1, hu⟩
  · cases hu

/-- `m` undos in a row, each of which undoes something, take a chain `m` steps of the trail back, as long as it stays on the
trail. A chain with nothing older than the trail cannot leave it. -/
theorem undos_walks {old : List LogEntry} {s : Snapshot} {steps : List (LogEntry × Snapshot)}
    (hv : Trail.Valid Recorded s steps) {m k : Nat} {chained : Bool} {b b' : EditBuffer} {d : Doc} (hb : Stands b d)
    (hk : k ≤ steps.length) (h : Walks old s steps k (d.start chained)) (hu : undos m chained b = some b')
    (hm : old = [] ∨ m ≤ k) :
    m ≤ k ∧ ∃ d', Stands b' d' ∧ d'.snapshot = Trail.last s (steps.take (k - m)) := by
  induction m generalizing k chained b d with
  | zero =>
    obtain rfl : b = b' := by simpa [undos] using hu
    refine ⟨Nat.zero_le _, d, hb, ?_⟩
    rw [Nat.sub_zero, h.here]
    unfold Doc.start
    split <;> rfl
  | succ m ih =>
    rw [undos] at hu
    split at hu
    · rename_i b₁ off hdo
      have hstatus : (doUndo chained b).2.2 = .undo := by rw [hdo]
      by_cases hne : (d.start chained).older = []
      · -- with nothing in front of it the undo would have been refused
        have hnone := Doc.next_eq_none hne
        obtain ⟨-, h2⟩ := doUndo_step hb (by rw [hnone]; simp) hstatus
        rw [Doc.undoStep, hnone] at h2
        cases h2
      · obtain ⟨k, rfl⟩ : ∃ j, k = j + 1 := by
          cases k with
          | succ k => exact ⟨k, rfl⟩
          | zero =>
            have hsuf := h.older
            rcases hm with rfl | hm
            · rw [List.take_zero, List.map_nil, List.append_nil, List.suffix_nil] at hsuf
              exact absurd hsuf hne
            · omega
        obtain ⟨hfit, hw, -⟩ := h.step hv (by omega) hne
        rw [Doc.start_text] at hfit
        obtain ⟨h1, -⟩ := doUndo_step hb hfit hstatus
        rw [hdo] at h1
        obtain ⟨i1, d', i2, i3⟩ := ih h1 (by omega)
          (show Walks old s steps k (Doc.start (d.start chained).undoStep.1 true) from hw) hu (hm.imp_right (by omega))
        exact ⟨by omega, d', i2, by rw [i3, Nat.add_sub_add_right]⟩
    · cases hu

end Hoe
