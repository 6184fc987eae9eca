import Hoe.Shell
import Hoe.Lemmas.History

/-!
# Notifications that fit

A notification fits a length when it speaks of a range inside it. A listener of that length that is called with notifications
that fit, one after the other, has the length they lead to. Every operation of a document tells notifications that fit its text
and lead to the length of the new text, except an undo that plays a removal of at least one byte: it tells the insertion twice.
-/

namespace Hoe

open Splice

/-- The range of the notification lies inside the length. -/
def Note.Fits (n : Note) (length : Nat) : Prop :=
  match n.op with
  | .insert => n.offset ≤ length
  | .free => True
  | _ => n.offset + n.size ≤ length

/-- The length the notification leads to. -/
def Note.lengthAfter (n : Note) (length : Nat) : Nat :=
  match n.op with
  | .insert => length + n.size
  | .delete => length - n.size
  | _ => length

/-- Notifications that fit one after the other, from one length to another. -/
inductive Leads : Nat → List Note → Nat → Prop where
  | nil (length : Nat) : Leads length [] length
  | cons {length length' : Nat} {n : Note} {ns : List Note} (h : n.Fits length) (hs : Leads (n.lengthAfter length) ns length') :
    Leads length (n :: ns) length'

/-- Notes one after the other. -/
theorem Leads.append {a b c : Nat} {ns ms : List Note} (h : Leads a ns b) (h' : Leads b ms c) : Leads a (ns ++ ms) c := by
  induction h with
  | nil => exact h'
  | cons hn _ ih => exact .cons hn (ih h')

/-- One note, that fits the size. -/
theorem Leads.single {a b : Nat} {n : Note} (h : n.Fits a) (hb : n.lengthAfter a = b) : Leads a [n] b := by
  subst hb
  exact .cons h (.nil _)

/-! ## Listeners -/

/-- A mirror keeps one cell for each byte. -/
theorem Leads.mirror {α : Type*} (cell : α) {a b : Nat} {ns : List Note} (h : Leads a ns b) {mirror : List α}
    (hm : mirror.length = a) : (ns.foldl (mirrorCallback cell) mirror).length = b := by
  induction h generalizing mirror with
  | nil => exact hm
  | @cons length length' n ns hn _ ih =>
    refine ih ?_
    unfold mirrorCallback Note.lengthAfter
    unfold Note.Fits at hn
    cases hop : n.op <;> rw [hop] at hn <;> simp only at hn ⊢
    · exact hm
    · exact hm
    · rw [length_insertAt, List.length_replicate, hm]
    · rw [length_removeAt _ (by omega), hm]

/-- An offset inside the length stays inside it. -/
theorem Leads.offset {a b : Nat} {ns : List Note} (h : Leads a ns b) {x : Int} (hx : 0 ≤ x ∧ x ≤ a) :
    0 ≤ ns.foldl ebOffsetCallback x ∧ ns.foldl ebOffsetCallback x ≤ b := by
  induction h generalizing x with
  | nil => exact hx
  | @cons length length' n ns hn _ ih =>
    refine ih ?_
    unfold ebOffsetCallback Note.lengthAfter
    unfold Note.Fits at hn
    cases hop : n.op <;> rw [hop] at hn <;> simp only at hn ⊢
    · exact hx
    · exact hx
    · split <;> omega
    · split <;> omega

/-! ### The colors of a shell -/

/-- `eb_write` on a text without a log overwrites and appends the overhang. -/
theorem writeText_spec {t : Pages} (ht : t.Ok) {offset : Nat} (ho : offset ≤ t.totalSize) (buf : List Byte) :
    (writeText t offset buf).Ok ∧ (writeText t offset buf).bytes = overwriteAt t.bytes offset buf := by
  have hlen := ht.length_bytes
  obtain ⟨len, hl⟩ : ∃ len, len = min buf.length (t.totalSize - offset) := ⟨_, rfl⟩
  have hsz : rwSize t offset buf.length = len := by
    rw [rwSize]
    split <;> omega
  have htk : (buf.take len).length = len := by rw [List.length_take]; omega
  -- the part inside the text
  obtain ⟨t', ht', hok, hb⟩ : ∃ t', t' = (if 0 < len then writePages t offset (buf.take len) else t) ∧ t'.Ok ∧
      t'.bytes = overwriteAt t.bytes offset (buf.take len) := by
    refine ⟨_, rfl, ?_⟩
    split
    · obtain ⟨w1, w2, -⟩ := writePages_spec ht (show 0 < (buf.take len).length by omega)
        (show offset + (buf.take len).length ≤ t.totalSize by omega)
      exact ⟨w1, w2⟩
    · have hz : len = 0 := by omega
      exact ⟨ht, by simp [hz, overwriteAt]⟩
  have hlen' : t'.totalSize = t.totalSize := by
    rw [← hok.length_bytes, hb, length_overwriteAt _ (by omega), hlen]
  have hover := insertAt_overwriteAt_overhang t.bytes buf (show offset ≤ t.bytes.length by omega) (n := len) (by omega)
  simp only [writeText, hsz, ← ht']
  split
  · obtain ⟨i1, i2⟩ := ebInsertLowlevel_spec hok (show offset + len ≤ t'.totalSize by omega) (buf.drop len)
    exact ⟨i1, by rw [i2, hb, hover]⟩
  · have hnil : buf.drop len = [] := List.drop_of_length_le (by omega)
    rw [hnil] at hover
    refine ⟨hok, ?_⟩
    rw [hb, ← hover]
    simp [insertAt]

/-- `eb_delete` on a text without a log removes. -/
theorem deleteText_spec {t : Pages} (ht : t.Ok) {offset size : Nat} (hs : offset + size ≤ t.totalSize) :
    (deleteText t offset size).Ok ∧ (deleteText t offset size).bytes = removeAt t.bytes offset size := by
  have hlen := ht.length_bytes
  unfold deleteText
  split
  · refine ⟨ht, ?_⟩
    rw [removeAt, List.take_of_length_le (by omega), List.drop_of_length_le (by omega), List.append_nil]
  · obtain ⟨h1, h2, h3⟩ := deletePages_spec (t := { t with totalSize := t.totalSize - size })
      ⟨ht.pages, ht.nb, ht.cache⟩ (show offset < tableSize t.pageTable by rw [← ht.total]; omega)
      (show offset + size ≤ tableSize t.pageTable by rw [← ht.total]; exact hs)
    have hrem := length_removeAt t.bytes (show offset + size ≤ t.bytes.length by omega)
    refine ⟨⟨h1, ?_⟩, h2⟩
    rw [h3, ← h1.length_bytes, h2, ← hlen]
    exact hrem.symm

/-- One call of the loops of `shell_color_callback` takes up to `colorChunk` bytes, the others what is left. -/
theorem colorChunks_succ {size : Nat} (h : 0 < size) : colorChunks size = colorChunks (size - colorChunk) + 1 := by
  simp only [colorChunks, colorChunk]
  omega

theorem colorChunks_zero : colorChunks 0 = 0 := by decide

/-- Colors are written over others, chunk by chunk. -/
theorem writeColors_spec (color : Byte) {n : Nat} {t : Pages} (ht : t.Ok) {offset size : Nat} (hn : n = colorChunks size)
    (hs : offset + size ≤ t.totalSize) :
    (writeColors color n t offset size).Ok ∧ (writeColors color n t offset size).totalSize = t.totalSize := by
  induction n generalizing t offset size with
  | zero => exact ⟨ht, rfl⟩
  | succ n ih =>
    have hpos : 0 < size := by
      by_contra hz
      rw [Nat.eq_zero_of_not_pos hz, colorChunks_zero] at hn
      omega
    have hsucc := colorChunks_succ hpos
    obtain ⟨len, hl⟩ : ∃ len, len = min size colorChunk := ⟨_, rfl⟩
    obtain ⟨h1, h2⟩ := writeText_spec ht (show offset ≤ t.totalSize by omega) (List.replicate len color)
    have hlen : (writeText t offset (List.replicate len color)).totalSize = t.totalSize := by
      rw [← h1.length_bytes, h2, length_overwriteAt _ (by rw [List.length_replicate, ht.length_bytes]; omega), ht.length_bytes]
    have hnext : size - len = size - colorChunk := by omega
    obtain ⟨i1, i2⟩ := ih h1 (show n = colorChunks (size - len) by rw [hnext]; omega)
      (show offset + len + (size - len) ≤ (writeText t offset (List.replicate len color)).totalSize by omega)
    simp only [writeColors, ← hl]
    exact ⟨i1, by rw [i2, hlen]⟩

/-- Colors are put in, chunk by chunk. -/
theorem insertColors_spec (color : Byte) {n : Nat} {t : Pages} (ht : t.Ok) {offset size : Nat} (hn : n = colorChunks size)
    (ho : offset ≤ t.totalSize) :
    (insertColors color n t offset size).Ok ∧ (insertColors color n t offset size).totalSize = t.totalSize + size := by
  induction n generalizing t size with
  | zero =>
    have hz : size = 0 := by
      by_contra hne
      have := colorChunks_succ (Nat.pos_of_ne_zero hne)
      omega
    exact ⟨ht, by rw [hz]; rfl⟩
  | succ n ih =>
    have hpos : 0 < size := by
      by_contra hz
      rw [Nat.eq_zero_of_not_pos hz, colorChunks_zero] at hn
      omega
    have hsucc := colorChunks_succ hpos
    obtain ⟨len, hl⟩ : ∃ len, len = min size colorChunk := ⟨_, rfl⟩
    obtain ⟨h1, h2⟩ := ebInsertLowlevel_spec ht ho (List.replicate len color)
    have hlen : (ebInsertLowlevel t offset (List.replicate len color)).totalSize = t.totalSize + len := by
      rw [← h1.length_bytes, h2, length_insertAt, List.length_replicate, ht.length_bytes]
    have hnext : size - len = size - colorChunk := by omega
    obtain ⟨i1, i2⟩ := ih h1 (show n = colorChunks (size - len) by rw [hnext]; omega)
      (show offset ≤ (ebInsertLowlevel t offset (List.replicate len color)).totalSize by omega)
    simp only [insertColors, ← hl]
    exact ⟨i1, by rw [i2, hlen]; omega⟩

/-- The buffer of colors keeps one color for each byte. -/
theorem Leads.colors (color : Byte) {a b : Nat} {ns : List Note} (h : Leads a ns b) {t : Pages} (ht : t.Ok)
    (hl : t.totalSize = a) :
    (ns.foldl (shellColorCallback color) t).Ok ∧ (ns.foldl (shellColorCallback color) t).totalSize = b := by
  induction h generalizing t with
  | nil => exact ⟨ht, hl⟩
  | @cons length length' n ns hn _ ih =>
    have hstep : (shellColorCallback color t n).Ok ∧ (shellColorCallback color t n).totalSize = n.lengthAfter length := by
      unfold shellColorCallback Note.lengthAfter
      unfold Note.Fits at hn
      cases hop : n.op <;> rw [hop] at hn <;> simp only at hn ⊢
      · exact ⟨ht, hl⟩
      · rw [← hl]
        exact writeColors_spec color ht rfl (by omega)
      · rw [← hl]
        exact insertColors_spec color ht rfl (by omega)
      · obtain ⟨d1, d2⟩ := deleteText_spec ht (show n.offset + n.size ≤ t.totalSize by omega)
        refine ⟨d1, ?_⟩
        rw [← d1.length_bytes, d2, length_removeAt _ (by rw [ht.length_bytes]; omega), ht.length_bytes, hl]
    exact ih hstep.1 hstep.2

/-! ## What the operations of a document tell -/

/-- From the first document to the second, notifications were told that fit the text all along, and moved the mark. -/
def Doc.Told (d d' : Doc) : Prop :=
  ∃ ns, d'.notes = d.notes ++ ns ∧ Leads d.text.length ns d'.text.length ∧ d'.mark = ns.foldl ebOffsetCallback d.mark

theorem Doc.Told.refl (d : Doc) : d.Told d := ⟨[], by simp, .nil _, rfl⟩

/-- What was told of two changes. -/
theorem Doc.Told.trans {d d' d'' : Doc} (h : d.Told d') (h' : d'.Told d'') : d.Told d'' := by
  obtain ⟨ns, h1, h2, h3⟩ := h
  obtain ⟨ms, h4, h5, h6⟩ := h'
  exact ⟨ns ++ ms, by rw [h4, h1, List.append_assoc], h2.append h5, by rw [h6, h3, List.foldl_append]⟩

/-- One recorded change. -/
theorem Doc.told_addlog (d : Doc) (op : LogOperation) (offset size : Nat) {text : List Byte}
    (hfit : Note.Fits ⟨op, offset, size⟩ d.text.length)
    (hlen : Note.lengthAfter ⟨op, offset, size⟩ d.text.length = text.length) :
    d.Told { d.addlog op offset size with text := text } :=
  ⟨[⟨op, offset, size⟩], by simp only [addlog_notes], .single hfit hlen, by simp only [addlog_mark]; rfl⟩

/-- A change told and recorded after it was made. -/
theorem Doc.told_addlog_same (d : Doc) (op : LogOperation) (offset size : Nat)
    (hfit : Note.Fits ⟨op, offset, size⟩ d.text.length)
    (hlen : Note.lengthAfter ⟨op, offset, size⟩ d.text.length = d.text.length) : d.Told (d.addlog op offset size) :=
  ⟨[⟨op, offset, size⟩], by simp only [addlog_notes], .single hfit (by rw [addlog_text]; exact hlen),
    by simp only [addlog_mark]; rfl⟩

/-- An insertion is told as it is made. -/
theorem Doc.told_insert (d : Doc) {offset : Nat} (buf : List Byte) (ho : offset ≤ d.text.length) :
    d.Told (d.insert offset buf) :=
  d.told_addlog .insert offset buf.length ho (length_insertAt _ _ _).symm

/-- So is a deletion. -/
theorem Doc.told_delete (d : Doc) {offset size : Nat} (hs : offset < d.text.length → offset + size ≤ d.text.length) :
    d.Told (d.delete offset size) := by
  unfold delete
  split
  · exact .refl d
  · exact d.told_addlog .delete offset size (hs (by omega)) (length_removeAt _ (hs (by omega))).symm

/-- So is a change in place. -/
theorem Doc.told_overwrite (d : Doc) {offset : Nat} {buf : List Byte} (hs : offset + buf.length ≤ d.text.length) :
    d.Told (d.overwrite offset buf) := by
  unfold overwrite
  split
  · exact .refl d
  · exact d.told_addlog .write offset buf.length hs (length_overwriteAt _ hs).symm

/-- So is what `eb_insert_buffer` puts in. -/
theorem Doc.told_insertBlock (d : Doc) {offset : Nat} (buf : List Byte) (ho : offset ≤ d.text.length) :
    d.Told (d.insertBlock offset buf) := by
  unfold insertBlock
  split
  · exact .refl d
  · exact d.told_insert buf ho

/-- An edit tells every change once. -/
theorem Doc.told_edit (d : Doc) {e : Edit} (he : e.InRange d.text.length) : d.Told (e.apply d) :=
  Edit.apply_induct (P := d.Told) (fun _ _ buf h ho => h.trans (Doc.told_insert _ buf ho))
    (fun _ _ _ h _ hs => h.trans (Doc.told_delete _ (fun _ => hs)))
    (fun _ _ _ h _ hs => h.trans (Doc.told_overwrite _ hs)) (.refl d) he

/-- Playing an entry that fits tells every change once, unless the entry is a removal of at least one byte. -/
theorem Doc.told_play (d : Doc) {e : LogEntry} (hfit : e.Fits d.text.length)
    (hne : e.header.op = .delete → e.header.size = 0) : d.Told (d.play e) := by
  cases e with
  | insert was offset size => exact d.told_delete hfit
  | delete was offset data =>
    have hdata : data = [] := List.eq_nil_of_length_eq_zero (hne rfl)
    subst hdata
    have h1 : d.Told { (Doc.insertBlock { d with saveLog := false } offset []) with saveLog := d.saveLog } :=
      Doc.told_insertBlock { d with saveLog := false } [] hfit
    refine h1.trans (told_addlog_same _ .insert offset 0 ?_ rfl)
    simp only [insertBlock_text, insertAt, List.append_nil, List.take_append_drop]
    exact hfit
  | write was offset data =>
    have hf : offset + data.length ≤ d.text.length := hfit
    obtain ⟨d₁, hd₁⟩ : ∃ d₁, d₁ = Doc.delete { d with saveLog := false } offset data.length := ⟨_, rfl⟩
    obtain ⟨d₂, hd₂⟩ : ∃ d₂, d₂ = d₁.insertBlock offset data := ⟨_, rfl⟩
    have hlen₁ : d₁.text.length = d.text.length - data.length := by rw [hd₁, delete_text, length_removeAt _ hf]
    have hlen₂ : d₂.text.length = d.text.length := by rw [hd₂, insertBlock_text, length_insertAt, hlen₁]; omega
    have h1 : d.Told d₁ := by
      rw [hd₁]
      exact Doc.told_delete { d with saveLog := false } (fun _ => hf)
    have h2 : d₁.Told { d₂ with saveLog := d.saveLog } := by
      rw [hd₂]
      exact Doc.told_insertBlock d₁ data (by omega)
    have hplay : d.play (.write was offset data) =
        Doc.addlog { d₂ with saveLog := d.saveLog } .write offset data.length := by rw [hd₂, hd₁, play]
    rw [hplay]
    refine (h1.trans h2).trans (told_addlog_same _ .write offset data.length ?_ rfl)
    exact hf.trans (Nat.le_of_eq hlen₂.symm)

/-- An undo that plays nothing else tells every change once. -/
theorem Doc.told_undo (d : Doc) (chained : Bool) (h : ∀ e, (d.start chained).next = some e →
    e.Fits d.text.length ∧ (e.header.op = .delete → e.header.size = 0)) : d.Told (d.undo chained).1 := by
  have hstart : d.Told (d.start chained) := by
    unfold start
    split <;> exact .refl _
  unfold undo
  split
  · unfold undoStep
    cases hnext : (d.start chained).next with
    | none => exact hstart
    | some e =>
      obtain ⟨hfit, hne⟩ := h e hnext
      have hplay := Doc.told_play { d.start chained with pos := some ((d.start chained).left - 1) }
        (show e.Fits (d.start chained).text.length by rw [start_text]; exact hfit) hne
      exact hstart.trans hplay
  · exact .refl d

end Hoe
