import Hoe.Lemmas.History

/-!
# Undoing an undo

What an undo records about itself. The log of a history of edits is a trail of changes; a chain of undos over a log records one
entry for each entry it plays, and a second chain plays those, newest first. Capacity comes in by counting: a chain that has
recorded `i` entries over a log of `n` has made it forget the oldest `n + i - 49`.
-/

namespace Hoe

open Splice

/-! ## Changes -/

/-- A change of a text that the log records with one entry. -/
inductive Change where
  | insert (offset : Nat) (buf : List Byte)
  | delete (offset size : Nat)
  | write (offset : Nat) (buf : List Byte)
deriving DecidableEq, Repr

namespace Change

/-- The text after the change. -/
def text (t : List Byte) : Change → List Byte
  | insert offset buf => insertAt t offset buf
  | delete offset size => removeAt t offset size
  | write offset buf => overwriteAt t offset buf

/-- The change made once more, an overwrite with the bytes it found the first time. -/
def redo (was now : List Byte) : Change → List Byte
  | insert offset buf => insertAt now offset buf
  | delete offset size => removeAt now offset size
  | write offset buf => overwriteAt now offset (slice was offset buf.length)

/-- The change is one of a text of the length. -/
def InRange (length : Nat) : Change → Prop
  | insert offset _ => offset ≤ length
  | delete offset size => offset < length ∧ offset + size ≤ length
  | write offset buf => buf ≠ [] ∧ offset + buf.length ≤ length

/-- The change is no insertion of nothing at the end of a text of the length. -/
def Leaves (length : Nat) : Change → Prop
  | insert offset buf => buf = [] → offset < length
  | _ => True

instance (length : Nat) (c : Change) : Decidable (c.Leaves length) := by
  cases c <;> unfold Leaves <;> infer_instance

/-- The change of the document. -/
def run (d : Doc) : Change → Doc
  | insert offset buf => d.insert offset buf
  | delete offset size => d.delete offset size
  | write offset buf => d.overwrite offset buf

/-- The entry that records the change. -/
def entry (was : Bool) (t : List Byte) : Change → LogEntry
  | insert offset buf => .make .insert was offset buf.length t
  | delete offset size => .make .delete was offset size t
  | write offset buf => .make .write was offset buf.length t

end Change

/-- The changes of an edit of a text of the size. -/
def Edit.changes (totalSize : Nat) : Edit → List Change
  | insert offset buf => [.insert offset buf]
  | delete offset size => if totalSize ≤ offset then [] else [.delete offset size]
  | write offset buf =>
    let len := min buf.length (totalSize - offset)
    (if buf.take len = [] then [] else [.write offset (buf.take len)]) ++
      (if buf.drop len = [] then [] else [.insert (offset + len) (buf.drop len)])
  | insertBuffer offset src srcOffset size =>
    if slice src.bytes srcOffset size = [] then [] else [.insert offset (slice src.bytes srcOffset size)]

/-- The changes of a run of edits. -/
def changesOf (b : EditBuffer) : List Edit → List Change
  | [] => []
  | e :: es => e.changes b.totalSize ++ changesOf (e.run b) es

/-- The text after the changes. -/
def textAfter (t : List Byte) (cs : List Change) : List Byte := cs.foldl Change.text t

/-- The text after the changes are made once more on `now`, having been made on `was` the first time. -/
def textRedone : List Byte → List Byte → List Change → List Byte
  | _, now, [] => now
  | was, now, c :: cs => textRedone (c.text was) (c.redo was now) cs

/-- No change is an insertion of nothing at the end. -/
def AllLeave : List Byte → List Change → Prop
  | _, [] => True
  | t, c :: cs => c.Leaves t.length ∧ AllLeave (c.text t) cs

instance (t : List Byte) (cs : List Change) : Decidable (AllLeave t cs) := by
  induction cs generalizing t with
  | nil => exact isTrue trivial
  | cons c cs ih =>
    have := ih (c.text t)
    exact inferInstanceAs (Decidable (_ ∧ _))

/-- Every change is one of the text in front of it. -/
def ChangesInRange : List Byte → List Change → Prop
  | _, [] => True
  | t, c :: cs => c.InRange t.length ∧ ChangesInRange (c.text t) cs

/-- A change of the document is one of its text. -/
theorem Change.run_text (d : Doc) (c : Change) : (c.run d).text = c.text d.text := by
  cases c with
  | insert offset buf => rfl
  | delete offset size => exact Doc.delete_text d offset size
  | write offset buf => exact Doc.overwrite_text d offset buf

/-- An edit is its changes, one after the other. -/
theorem Edit.apply_changes (d : Doc) (e : Edit) : e.apply d = (e.changes d.text.length).foldl Change.run d := by
  cases e with
  | insert offset buf => rfl
  | delete offset size =>
    simp only [apply, changes]
    split
    · rename_i h
      rw [Doc.delete, if_pos h, List.foldl_nil]
    · rfl
  | write offset buf =>
    simp only [apply, changes, Doc.write, Doc.insertBlock]
    split <;> split <;> simp [Doc.overwrite, Change.run, *]
  | insertBuffer offset src srcOffset size =>
    simp only [apply, changes, Doc.insertBlock]
    split <;> rfl

/-- The changes that an edit is made of are in range. -/
theorem Edit.changes_inRange {t : List Byte} {e : Edit} (he : e.InRange t.length) : ChangesInRange t (e.changes t.length) := by
  cases e with
  | insert offset buf => exact ⟨he, trivial⟩
  | delete offset size =>
    simp only [changes]
    split
    · trivial
    · exact ⟨⟨by omega, he⟩, trivial⟩
  | write offset buf =>
    have ho : offset ≤ t.length := he
    obtain ⟨len, hlen⟩ : ∃ len, len = min buf.length (t.length - offset) := ⟨_, rfl⟩
    have htk : (buf.take len).length = len := by rw [List.length_take]; omega
    have hover {t' : List Byte} (ht : t'.length = t.length) :
        ChangesInRange t' (if buf.drop len = [] then [] else [.insert (offset + len) (buf.drop len)]) := by
      split
      · trivial
      · exact ⟨show offset + len ≤ t'.length by omega, trivial⟩
    simp only [changes, ← hlen]
    split
    · exact hover rfl
    · rename_i hne
      have hs : offset + (buf.take len).length ≤ t.length := by omega
      exact ⟨⟨hne, hs⟩, hover (length_overwriteAt _ hs)⟩
  | insertBuffer offset src srcOffset size =>
    simp only [changes]
    split
    · trivial
    · exact ⟨he.2.1, trivial⟩

/-! ## The log of a history -/

/-- The entry records the change of the first text into the second. -/
structure Logged (t : List Byte) (x : LogEntry × Change) (t' : List Byte) : Prop where
  inRange : x.2.InRange t.length
  entry : ∃ was, x.1 = x.2.entry was t
  after : t' = x.2.text t

/-- The log holds the changes since the text was `t`. -/
structure Holds (t : List Byte) (steps : List ((LogEntry × Change) × List Byte)) (d : Doc) : Prop where
  saveLog : d.saveLog = true
  valid : Trail.Valid Logged t steps
  last : Trail.last t steps = d.text
  entries : d.entries = steps.map (·.1.1)

/-- What is recorded, and where. -/
theorem Doc.addlog_entries {d : Doc} (hs : d.saveLog = true) (op : LogOperation) (offset size : Nat) :
    (d.addlog op offset size).entries =
        (if d.Full then d.entries.tail else d.entries) ++ [.make op d.modified offset size d.text] ∧
      (d.addlog op offset size).pos = if d.Full then d.pos.map (· - 1) else d.pos := by
  obtain ⟨h1, -, -, h4⟩ := d.addlog_logged hs op offset size
  rw [h1, h4]
  have hiff : (d.tell ⟨op, offset, size⟩).Full ↔ d.Full := Iff.rfl
  unfold evict
  by_cases hf : d.Full
  · rw [if_pos (hiff.2 hf), if_pos hf, if_pos hf]
    exact ⟨rfl, rfl⟩
  · rw [if_neg (fun h => hf (hiff.1 h)), if_neg hf, if_neg hf]
    exact ⟨rfl, rfl⟩

/-- A change of a log that is not full. -/
theorem Holds.change {t : List Byte} {steps : List ((LogEntry × Change) × List Byte)} {d : Doc} (h : Holds t steps d)
    {c : Change} (hc : c.InRange d.text.length) (hn : steps.length < nbLogsMax - 1) :
    Holds t (steps ++ [((c.entry d.modified d.text, c), c.text d.text)]) (c.run d) := by
  have hnot : ¬d.Full := by
    rw [Doc.Full, h.entries, List.length_map]
    omega
  have hrun : (c.run d).saveLog = true ∧ (c.run d).entries = d.entries ++ [c.entry d.modified d.text] := by
    have hlog (op : LogOperation) (offset size : Nat) := Doc.addlog_entries h.saveLog op offset size
    simp only [if_neg hnot] at hlog
    cases c with
    | insert offset buf => exact ⟨(Doc.addlog_saveLog d .insert offset buf.length).trans h.saveLog, (hlog _ _ _).1⟩
    | delete offset size =>
      rw [Change.run, Doc.delete, if_neg (by have := hc.1; omega)]
      exact ⟨(Doc.addlog_saveLog d .delete offset size).trans h.saveLog, (hlog _ _ _).1⟩
    | write offset buf =>
      rw [Change.run, Doc.overwrite, if_neg hc.1]
      exact ⟨(Doc.addlog_saveLog d .write offset buf.length).trans h.saveLog, (hlog _ _ _).1⟩
  refine ⟨hrun.1, ?_, ?_, ?_⟩
  · rw [Trail.valid_snoc, h.last]
    exact ⟨h.valid, hc, ⟨d.modified, rfl⟩, rfl⟩
  · rw [Trail.last_snoc, Change.run_text]
  · rw [hrun.2, h.entries, List.map_append, List.map_singleton]

/-- Each change adds its entry to those that are held. -/
theorem Holds.changes {t : List Byte} {steps : List ((LogEntry × Change) × List Byte)} {d : Doc} (h : Holds t steps d)
    {cs : List Change} (hcs : ChangesInRange d.text cs) (hn : steps.length + cs.length ≤ nbLogsMax - 1) :
    ∃ new, Holds t (steps ++ new) (cs.foldl Change.run d) ∧ new.map (·.1.2) = cs := by
  induction cs generalizing d steps with
  | nil => exact ⟨[], by rw [List.append_nil]; exact h, rfl⟩
  | cons c cs ih =>
    rw [List.length_cons] at hn
    obtain ⟨new, h1, h2⟩ := ih (h.change hcs.1 (by omega)) (by rw [Change.run_text]; exact hcs.2)
      (by rw [List.length_append, List.length_singleton]; omega)
    rw [List.append_assoc] at h1
    exact ⟨_, h1, by rw [List.map_append, List.map_singleton, h2, List.singleton_append]⟩

/-- The log of a history that does not fill it. -/
theorem runEdits_holds {b : EditBuffer} {d : Doc} (hb : Stands b d) {t : List Byte}
    {steps : List ((LogEntry × Change) × List Byte)} (h : Holds t steps d) {es : List Edit} (hes : AllInRange b es)
    (hn : steps.length + (changesOf b es).length ≤ nbLogsMax - 1) :
    ∃ d' new, Stands (runEdits b es) d' ∧ Holds t (steps ++ new) d' ∧ new.map (·.1.2) = changesOf b es := by
  induction es generalizing b d steps with
  | nil => exact ⟨d, [], hb, by rw [List.append_nil]; exact h, rfl⟩
  | cons e es ih =>
    rw [changesOf, List.length_append] at hn
    have he : e.InRange d.text.length := by rw [← hb.total]; exact hes.1
    obtain ⟨new, h1, h2⟩ := h.changes (Edit.changes_inRange he) (by rw [← hb.total]; omega)
    rw [← Edit.apply_changes] at h1
    have hlen := congrArg List.length h2
    rw [List.length_map, ← hb.total] at hlen
    obtain ⟨d', new', i1, i2, i3⟩ := ih (Edit.run_stands hb hes.1) h1 hes.2 (by rw [List.length_append]; omega)
    rw [List.append_assoc] at i2
    refine ⟨d', _, i1, i2, ?_⟩
    rw [List.map_append, h2, i3, changesOf, hb.total]

/-! ## A chain over a log -/

/-- Playing the entry on a text of the length records an entry. -/
def LogEntry.Leaves (e : LogEntry) (length : Nat) : Prop :=
  match e with
  | insert _ offset _ => offset < length
  | _ => True

/-- Playing the first entry on the text records the second. -/
inductive Played (t : List Byte) : LogEntry → LogEntry → Prop where
  | insert (was was' : Bool) (offset size : Nat) : Played t (.insert was offset size) (.delete was' offset (slice t offset size))
  | delete (was was' : Bool) (offset : Nat) (data : List Byte) :
    Played t (.delete was offset data) (.insert was' offset data.length)
  | write (was was' : Bool) (offset : Nat) (data : List Byte) : Played t (.write was offset data) (.write was' offset data)

/-- What playing an entry does to the log. -/
theorem Doc.play_played {d : Doc} (hs : d.saveLog = true) {e : LogEntry} (hf : e.Fits d.text.length)
    (hl : e.Leaves d.text.length) :
    ∃ u, Played d.text e u ∧ (d.play e).saveLog = true ∧
      (d.play e).entries = (if d.Full then d.entries.tail else d.entries) ++ [u] ∧
      (d.play e).pos = if d.Full then d.pos.map (· - 1) else d.pos := by
  -- an entry recorded after a change with the log off
  have hquiet {d' : Doc} (hsame : SameLog { d with saveLog := false } d') (op : LogOperation) (offset size : Nat) :
      (Doc.addlog { d' with saveLog := d.saveLog } op offset size).saveLog = true ∧
        (Doc.addlog { d' with saveLog := d.saveLog } op offset size).entries =
          (if d.Full then d.entries.tail else d.entries) ++ [.make op d'.modified offset size d'.text] ∧
        (Doc.addlog { d' with saveLog := d.saveLog } op offset size).pos =
          if d.Full then d.pos.map (· - 1) else d.pos := by
    obtain ⟨h1, h2⟩ := Doc.addlog_entries (d := { d' with saveLog := d.saveLog }) hs op offset size
    have hentries : d'.entries = d.entries := hsame.entries
    have hpos : d'.pos = d.pos := hsame.pos
    have hfull : Full { d' with saveLog := d.saveLog } ↔ d.Full := by
      unfold Full
      simp only [hentries]
    refine ⟨by rw [addlog_saveLog, hs], h1.trans ?_, h2.trans (if_congr hfull (congrArg _ hpos) hpos)⟩
    rw [if_congr hfull (congrArg List.tail hentries) hentries]
  cases e with
  | insert was offset size =>
    have hlt : offset < d.text.length := hl
    obtain ⟨h1, h2⟩ := d.addlog_entries hs .delete offset size
    rw [play, delete, if_neg (by omega)]
    exact ⟨_, .insert was d.modified offset size, (addlog_saveLog d .delete offset size).trans hs, h1, h2⟩
  | delete was offset data =>
    obtain ⟨h1, h2, h3⟩ := hquiet (Doc.insertBlock_quiet (d := { d with saveLog := false }) rfl offset data)
      .insert offset data.length
    exact ⟨_, .delete was _ offset data, h1, h2, h3⟩
  | write was offset data =>
    have hfit : offset + data.length ≤ d.text.length := hf
    have h0 := Doc.delete_quiet (d := { d with saveLog := false }) rfl offset data.length
    have hsame := h0.trans (Doc.insertBlock_quiet h0.saveLog offset data)
    obtain ⟨d', hd'⟩ : ∃ d', d' = (Doc.delete { d with saveLog := false } offset data.length).insertBlock offset data :=
      ⟨_, rfl⟩
    have htext : d'.text = overwriteAt d.text offset data := by
      rw [hd', insertBlock_text, delete_text, insertAt_removeAt_eq_overwriteAt _ _ hfit]
    rw [← hd'] at hsame
    obtain ⟨h1, h2, h3⟩ := hquiet hsame .write offset data.length
    have hmake : LogEntry.make .write d'.modified offset data.length d'.text = .write d'.modified offset data := by
      rw [LogEntry.make, htext, slice_overwriteAt _ _ (by omega)]
    rw [hmake] at h2
    simp only [play, ← hd']
    exact ⟨_, .write was d'.modified offset data, h1, h2, h3⟩

/-- A chain of undos over the log `L` has recorded `us`, one entry for each that it played. -/
structure Chain (L us : List LogEntry) (d : Doc) : Prop where
  saveLog : d.saveLog = true
  entries : d.entries = L.drop (L.length + us.length - (nbLogsMax - 1)) ++ us
  left : d.left = L.length - us.length - (L.length + us.length - (nbLogsMax - 1))

/-- A chain of undos begins with nothing undone. -/
theorem Chain.start {d : Doc} (hs : d.saveLog = true) (hn : d.entries.length ≤ nbLogsMax - 1) :
    Chain d.entries [] (d.start false) := by
  have hz : d.entries.length + ([] : List LogEntry).length - (nbLogsMax - 1) = 0 := by
    rw [List.length_nil]
    omega
  refine ⟨hs, ?_, ?_⟩
  · rw [hz, List.drop_zero, List.append_nil]
    rfl
  · rw [hz]
    rfl

/-- One undo of a chain plays the newest entry it has not played, and records one. -/
theorem Chain.step {L us : List LogEntry} {d : Doc} (h : Chain L us d) (hleft : d.left ≠ 0)
    {e : LogEntry} (he : L[L.length - us.length - 1]? = some e) (hf : e.Fits d.text.length) (hl : e.Leaves d.text.length) :
    d.next = some e ∧ ∃ u, Played d.text e u ∧ Chain L (us ++ [u]) d.undoStep.1 ∧ d.undoStep.1.text = e.revert d.text := by
  have hmax : nbLogsMax = 50 := rfl
  have hl0 := h.left
  obtain ⟨v, hv⟩ : ∃ v, v = L.length + us.length - (nbLogsMax - 1) := ⟨_, rfl⟩
  rw [← hv] at hl0
  have hentries := h.entries
  rw [← hv] at hentries
  have hnext : d.next = some e := by
    obtain ⟨p, hp⟩ : ∃ p, d.left = p + 1 := ⟨d.left - 1, by omega⟩
    have hindex : v + p = L.length - us.length - 1 := by omega
    rw [Doc.next, hp]
    simp only [hentries]
    rw [List.getElem?_append_left (by rw [List.length_drop]; omega), List.getElem?_drop, hindex, he]
  refine ⟨hnext, ?_⟩
  obtain ⟨d₁, hd₁⟩ : ∃ d₁, d₁ = { d with pos := some (d.left - 1) } := ⟨_, rfl⟩
  have htext₁ : d₁.text = d.text := by rw [hd₁]
  have hentries₁ : d₁.entries = L.drop v ++ us := by rw [hd₁]; exact hentries
  obtain ⟨u, hu, p1, p2, p3⟩ := Doc.play_played (d := d₁) (by rw [hd₁]; exact h.saveLog) (by rw [htext₁]; exact hf)
    (by rw [htext₁]; exact hl)
  rw [htext₁] at hu
  have hstep : d.undoStep.1 = { d₁.play e with modified := e.header.wasModified } := by
    rw [Doc.undoStep, hnext, hd₁]
  have hlen : d₁.entries.length = L.length - v + us.length := by rw [hentries₁, List.length_append, List.length_drop]
  have hpos₁ : d₁.pos = some (d.left - 1) := by rw [hd₁]
  refine ⟨u, hu, ?_, ?_⟩
  · rw [hstep]
    obtain ⟨v', hv'⟩ : ∃ v', v' = L.length + (us ++ [u]).length - (nbLogsMax - 1) := ⟨_, rfl⟩
    have hv'' : v' = L.length + us.length + 1 - (nbLogsMax - 1) := by
      rw [hv', List.length_append, List.length_singleton, Nat.add_assoc]
    by_cases hfull : d₁.Full
    · have hf49 : nbLogsMax - 1 ≤ d₁.entries.length := hfull
      have hsucc : v' = v + 1 := by omega
      rw [if_pos hfull] at p2 p3
      refine ⟨p1, ?_, ?_⟩
      · simp only [p2, hentries₁, ← hv', hsucc]
        rw [List.tail_append_of_ne_nil (by
          intro hnil
          have := congrArg List.length hnil
          rw [List.length_drop, List.length_nil] at this
          omega), List.tail_drop, List.append_assoc]
      · rw [← hv', hsucc]
        simp only [Doc.left, p3, hpos₁, Option.map_some, Option.getD_some, List.length_append, List.length_singleton]
        rw [Doc.left] at hl0
        omega
    · have hf49 : ¬nbLogsMax - 1 ≤ d₁.entries.length := hfull
      have hsame : v' = v := by omega
      rw [if_neg hfull] at p2 p3
      refine ⟨p1, ?_, ?_⟩
      · simp only [p2, hentries₁, ← hv', hsame, List.append_assoc]
      · rw [← hv', hsame]
        simp only [Doc.left, p3, hpos₁, Option.getD_some, List.length_append, List.length_singleton]
        rw [Doc.left] at hl0
        omega
  · rw [hstep]
    simp only [Doc.play_text d₁ (e := e) (by rw [htext₁]; exact hf), htext₁]

/-! ## The first chain -/

/-- Playing the entry makes the change once more, on every text of the length. -/
def Remake (u : LogEntry) (t : List Byte) (c : Change) : Prop :=
  ∀ now : List Byte, now.length = t.length → u.revert now = c.redo t now ∧ u.Fits now.length ∧ u.Leaves now.length ∧
    (c.redo t now).length = (c.text t).length

/-- The entries, played newest first, make the changes once more. -/
inductive Remakes : List LogEntry → List Byte → List Change → Prop where
  | nil (t : List Byte) : Remakes [] t []
  | snoc {us : List LogEntry} {t : List Byte} {cs : List Change} {u : LogEntry} {c : Change} (hone : Remake u t c)
    (h : Remakes us (c.text t) cs) : Remakes (us ++ [u]) t (c :: cs)

/-- What the undo of a change records makes the change once more. -/
theorem Played.remake {t : List Byte} {c : Change} (hc : c.InRange t.length) {was : Bool} {u : LogEntry}
    (h : Played (c.text t) (c.entry was t) u) : Remake u t c := by
  intro now hnow
  cases c with
  | insert offset buf =>
    have ho : offset ≤ t.length := hc
    simp only [Change.entry, LogEntry.make, Change.text] at h
    cases h
    rw [slice_insertAt t buf ho]
    refine ⟨rfl, ?_, trivial, ?_⟩
    · change offset ≤ now.length
      omega
    · simp only [Change.redo, Change.text, length_insertAt, hnow]
  | delete offset size =>
    obtain ⟨hlt, hs⟩ : offset < t.length ∧ offset + size ≤ t.length := hc
    simp only [Change.entry, LogEntry.make, Change.text] at h
    cases h
    rw [length_slice t hs]
    refine ⟨rfl, fun _ => ?_, ?_, ?_⟩
    · omega
    · change offset < now.length
      omega
    · simp only [Change.redo, Change.text]
      rw [length_removeAt now (by omega), length_removeAt t hs, hnow]
  | write offset buf =>
    have hs : offset + buf.length ≤ t.length := hc.2
    simp only [Change.entry, LogEntry.make, Change.text] at h
    cases h
    have hsl := length_slice t hs
    refine ⟨rfl, ?_, trivial, ?_⟩
    · change offset + (slice t offset buf.length).length ≤ now.length
      omega
    · simp only [Change.redo, Change.text]
      rw [length_overwriteAt now (by omega), length_overwriteAt t hs, hnow]

/-- The entry of a change takes it back, and fits the text the change led to. -/
theorem Change.entry_revert {t : List Byte} {c : Change} (hc : c.InRange t.length) (was : Bool) :
    (c.entry was t).Fits (c.text t).length ∧ (c.entry was t).revert (c.text t) = t := by
  cases c with
  | insert offset buf => exact ⟨(recorded_insert (s := ⟨t, was⟩) buf hc).fits, (recorded_insert (s := ⟨t, was⟩) buf hc).revert⟩
  | delete offset size => exact ⟨(recorded_delete (s := ⟨t, was⟩) hc.2).fits, (recorded_delete (s := ⟨t, was⟩) hc.2).revert⟩
  | write offset buf => exact ⟨(recorded_write (s := ⟨t, was⟩) hc.2).fits, (recorded_write (s := ⟨t, was⟩) hc.2).revert⟩

/-- The undo of a change records an entry, unless nothing was inserted at the end. -/
theorem Change.entry_leaves {t : List Byte} {c : Change} (hc : c.InRange t.length) (hl : c.Leaves t.length) (was : Bool) :
    (c.entry was t).Leaves (c.text t).length := by
  cases c with
  | insert offset buf =>
    have ho : offset ≤ t.length := hc
    have hne : buf = [] → offset < t.length := hl
    change offset < (insertAt t offset buf).length
    rw [length_insertAt]
    cases buf with
    | nil =>
      have := hne rfl
      omega
    | cons x xs =>
      rw [List.length_cons]
      omega
  | delete offset size => trivial
  | write offset buf => trivial

/-- `do_undo` plays the entry in front of it. -/
theorem doUndo_plays {b : EditBuffer} {d : Doc} (hb : Stands b d) {chained : Bool} {e : LogEntry}
    (hnext : (d.start chained).next = some e) (hfit : e.Fits d.text.length) :
    ∃ b' off, doUndo chained b = (b', off, .undo) ∧ Stands b' (d.start chained).undoStep.1 := by
  have hlog : d.hasLog = true := by
    rw [hb.hasLog]
    by_contra hnone
    have hnil := hb.entries_nil (by simpa using hnone)
    have : (d.start chained).next = none := Doc.next_nil (by
      unfold Doc.start
      split
      · exact hnil
      · exact hnil)
    rw [this] at hnext
    cases hnext
  obtain ⟨h1, h2⟩ := doUndo_stands hb (show ∀ e', (d.start chained).next = some e' → e'.Fits d.text.length by
    intro e' he'
    rw [hnext] at he'
    cases he'
    exact hfit)
  rw [Doc.undo, if_pos hlog] at h1 h2
  refine ⟨(doUndo chained b).1, (doUndo chained b).2.1, ?_, h1⟩
  have hstatus : (doUndo chained b).2.2 = .undo := by
    rw [h2, Doc.undoStep, hnext]
  rw [← hstatus]

/-- Undos in a row that go back over a history: each takes one change back, and what they record makes the changes once more.
A chain that undoes `k` changes has `k ≤ 25`, since it makes a full log forget the entries in front of it. -/
theorem undos_back {t : List Byte} {steps : List ((LogEntry × Change) × List Byte)} (hv : Trail.Valid Logged t steps)
    {n : Nat} (hleave : ∀ i x, n ≤ i → steps[i]? = some x → x.1.2.Leaves (Trail.last t (steps.take i)).length)
    {m : Nat} {chained : Bool} {b b' : EditBuffer} {d : Doc} {us : List LogEntry} (hb : Stands b d)
    (hc : Chain (steps.map (·.1.1)) us (d.start chained)) (hus : us.length ≤ steps.length) (h25 : us.length ≤ 25)
    (hn : n + (us.length + m) ≤ steps.length ∨ n = 0)
    (htext : d.text = Trail.last t (steps.take (steps.length - us.length)))
    (hr : Remakes us d.text ((steps.drop (steps.length - us.length)).map (·.1.2)))
    (hu : undos m chained b = some b') :
    ∃ d' us', Stands b' d' ∧ d'.saveLog = true ∧ us'.length = us.length + m ∧ us'.length ≤ steps.length ∧ us'.length ≤ 25 ∧
      d'.entries = (steps.map (·.1.1)).drop (steps.length + us'.length - (nbLogsMax - 1)) ++ us' ∧
      d'.text = Trail.last t (steps.take (steps.length - us'.length)) ∧
      Remakes us' d'.text ((steps.drop (steps.length - us'.length)).map (·.1.2)) := by
  have hmax : nbLogsMax = 50 := rfl
  induction m generalizing chained b d us with
  | zero =>
    obtain rfl : b = b' := by simpa [undos] using hu
    have hsame : (d.start chained).entries = d.entries ∧ (d.start chained).saveLog = d.saveLog := by
      unfold Doc.start
      split <;> exact ⟨rfl, rfl⟩
    have hentries := hc.entries
    rw [List.length_map, hsame.1] at hentries
    exact ⟨d, us, hb, by rw [← hsame.2]; exact hc.saveLog, rfl, hus, h25, hentries, htext, hr⟩
  | succ m ih =>
    have hleft0 := hc.left
    rw [List.length_map] at hleft0
    rw [undos] at hu
    split at hu
    · rename_i b₁ off hdo
      have hstatus : (doUndo chained b).2.2 = .undo := by rw [hdo]
      have hne : (d.start chained).left ≠ 0 := by
        intro hz
        have hnone : (d.start chained).next = none := by rw [Doc.next, hz]
        obtain ⟨-, h2⟩ := doUndo_step hb (by rw [hnone]; simp) hstatus
        rw [Doc.undoStep, hnone] at h2
        cases h2
      obtain ⟨i, hi⟩ : ∃ i, i = steps.length - us.length - 1 := ⟨_, rfl⟩
      obtain ⟨x, hx⟩ : ∃ x, steps[i]? = some x := ⟨steps[i], List.getElem?_eq_getElem (by omega)⟩
      obtain ⟨hlog, hlast⟩ := hv.step hx
      have hsucc : steps.length - us.length = i + 1 := by omega
      rw [hsucc, hlast] at htext
      obtain ⟨was, hwas⟩ := hlog.entry
      have hafter : d.text = x.1.2.text (Trail.last t (steps.take i)) := by rw [htext, hlog.after]
      have hleaves : x.1.2.Leaves (Trail.last t (steps.take i)).length := hleave i x (by omega) hx
      obtain ⟨hfit, hrev⟩ := Change.entry_revert hlog.inRange was
      have hrec := Change.entry_leaves hlog.inRange hleaves was
      rw [← hwas, ← hafter] at hfit hrev hrec
      obtain ⟨hnext, u, hplayed, hchain, htext'⟩ := hc.step hne
        (show (steps.map (·.1.1))[(steps.map (·.1.1)).length - us.length - 1]? = some x.1.1 by
          rw [List.length_map, ← hi, List.getElem?_map, hx, Option.map_some])
        (by rw [Doc.start_text]; exact hfit) (by rw [Doc.start_text]; exact hrec)
      rw [Doc.start_text] at hplayed htext'
      rw [hrev] at htext'
      obtain ⟨b₂, off₂, hdo₂, hb₂⟩ := doUndo_plays hb hnext hfit
      rw [hdo] at hdo₂
      obtain rfl : b₁ = b₂ := congrArg Prod.fst hdo₂
      have hlen : (us ++ [u]).length = us.length + 1 := by rw [List.length_append, List.length_singleton]
      have hback : steps.length - (us ++ [u]).length = i := by omega
      rw [hafter, hwas] at hplayed
      have hdrop : steps.drop i = x :: steps.drop (steps.length - us.length) := by
        rw [hsucc, List.drop_eq_getElem_cons (show i < steps.length by omega)]
        congr 1
        rw [List.getElem?_eq_getElem (show i < steps.length by omega)] at hx
        exact Option.some.inj hx
      have hr' : Remakes (us ++ [u]) (d.start chained).undoStep.1.text
          ((steps.drop (steps.length - (us ++ [u]).length)).map (·.1.2)) := by
        rw [hback, htext', hdrop, List.map_cons]
        refine .snoc (hplayed.remake hlog.inRange) ?_
        rw [← hafter]
        exact hr
      obtain ⟨d', us', h1, h2, h3, h4⟩ := ih hb₂ hchain (by omega) (by omega) (by omega)
        (by rw [hback, htext']) hr' hu
      exact ⟨d', us', h1, h2, by omega, h4⟩
    · cases hu

/-! ## The second chain -/

/-- Undos in a row that play entries which make changes once more. -/
theorem undos_forth (old rest : List LogEntry) {us : List LogEntry} {was : List Byte} {cs : List Change}
    (hr : Remakes us was cs) {done : List LogEntry} {chained : Bool} {b : EditBuffer} {d : Doc} (hb : Stands b d)
    (hc : Chain (old ++ us ++ rest) done (d.start chained)) (hdone : done.length = rest.length)
    (hcap : us.length + rest.length ≤ 25) (hlen : d.text.length = was.length) :
    ∃ b', undos us.length chained b = some b' ∧ b'.bytes = textRedone was d.text cs := by
  have hmax : nbLogsMax = 50 := rfl
  induction hr generalizing rest done chained b d with
  | nil t => exact ⟨b, rfl, hb.text⟩
  | @snoc us t cs u c hone h ih =>
    rw [List.length_append, List.length_singleton] at hcap
    obtain ⟨hrev, hfit, hleaves, hlen'⟩ := hone d.text hlen
    have hL : (old ++ (us ++ [u]) ++ rest).length = old.length + us.length + 1 + rest.length := by
      simp only [List.length_append, List.length_singleton]
      omega
    have hleft := hc.left
    rw [hL] at hleft
    have hget : (old ++ (us ++ [u]) ++ rest)[(old ++ (us ++ [u]) ++ rest).length - done.length - 1]? = some u := by
      rw [hL, hdone]
      have hidx : old.length + us.length + 1 + rest.length - rest.length - 1 = (old ++ us).length := by
        rw [List.length_append]
        omega
      rw [hidx, ← List.append_assoc, List.append_assoc (old ++ us)]
      simp
    obtain ⟨hnext, u', -, hchain, htext⟩ := hc.step (by omega) hget (by rw [Doc.start_text]; exact hfit)
      (by rw [Doc.start_text]; exact hleaves)
    rw [Doc.start_text, hrev] at htext
    obtain ⟨b₁, off, hdo, hb₁⟩ := doUndo_plays hb hnext hfit
    have hlist : old ++ (us ++ [u]) ++ rest = old ++ us ++ (u :: rest) := by simp
    rw [hlist] at hchain
    obtain ⟨b', h1, h2⟩ := ih (u :: rest) hb₁
      (show Chain (old ++ us ++ (u :: rest)) (done ++ [u']) (Doc.start (d.start chained).undoStep.1 true) from hchain)
      (by simp [hdone]) (by rw [List.length_cons]; omega)
      (by rw [htext, hlen'])
    refine ⟨b', ?_, by rw [h2, htext]; rfl⟩
    rw [List.length_append, List.length_singleton, undos, hdo]
    exact h1

end Hoe
