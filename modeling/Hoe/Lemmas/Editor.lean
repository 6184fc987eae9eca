import Hoe.Editor
import Hoe.Lemmas.History

/-!
# What a call of the buffer layer does to a window

A call inside what the buffer layer documents changes the text by a splice, tells the callbacks once, and moves the two offsets of
the window by it. Everything else in the window stays as it was.
-/

namespace Hoe

/-- The mark may stand anywhere. -/
theorem EditBuffer.WellFormed.setMark {b : EditBuffer} (h : b.WellFormed) (o : Int) :
    ({ b with mark := o } : EditBuffer).WellFormed := by
  obtain ⟨d, hd⟩ := h
  have hlog := hd.log
  exact ⟨{ d with mark := o }, ⟨hd.table, hd.text, hd.modified, hd.readOnly, hd.saveLog, rfl, hd.notes, hd.past, hd.hasLog,
    ⟨hlog.ok, hlog.bytes, hlog.nb, hlog.newIndex, hlog.current, hlog.le⟩⟩, hd.total⟩

namespace Editor

open Splice

/-- The window after one change of its buffer: the text it leads to, and what the callbacks were told. -/
structure Edited (ed : Editor) (n : Note) (text : List Byte) (ed' : Editor) : Prop where
  wf : ed'.buffer.WellFormed
  text : ed'.buffer.bytes = text
  notes : ed'.buffer.notes = ed.buffer.notes ++ [n]
  saveLog : ed'.buffer.saveLog = ed.buffer.saveLog
  mark : ed'.buffer.mark = ebOffsetCallback ed.buffer.mark n
  rest : ed' = { ed with
    buffer := ed'.buffer, offset := ebOffsetCallback ed.offset n, offsetTop := ebOffsetCallback ed.offsetTop n }

/-- `total_size` is the length of the text. -/
theorem total_eq {ed : Editor} (h : ed.buffer.WellFormed) : ed.total = ed.buffer.bytes.length := by
  obtain ⟨d, hd⟩ := h
  rw [total, hd.total, hd.text]

variable {ed ed' : Editor} {n : Note} {text : List Byte}

theorem Edited.offset (h : Edited ed n text ed') : ed'.offset = ebOffsetCallback ed.offset n := by rw [h.rest]

theorem Edited.charset (h : Edited ed n text ed') : ed'.charset = ed.charset := by rw [h.rest]

theorem Edited.stack (h : Edited ed n text ed') : ed'.stack = ed.stack := by rw [h.rest]

theorem Edited.mode (h : Edited ed n text ed') : ed'.mode = ed.mode := by rw [h.rest]

/-- What a change of the document tells is one note, and what it leaves alone. -/
theorem edited_of_stands {b' : EditBuffer} {d d' : Doc} (hd : Stands ed.buffer d) (hd' : Stands b' d')
    (hnotes : d'.notes = d.notes ++ [n]) (hsave : d'.saveLog = d.saveLog) (hmark : d'.mark = ebOffsetCallback d.mark n) :
    Edited ed n d'.text (ed.changed b') := by
  have hdrop : b'.notes.drop ed.buffer.notes.length = [n] := by rw [hd'.notes, hnotes, ← hd.notes, List.drop_left]
  refine ⟨⟨d', hd'⟩, hd'.text, ?_, ?_, ?_, ?_⟩
  · rw [changed, hd'.notes, hnotes, hd.notes]
  · rw [changed, hd'.saveLog, hsave, hd.saveLog]
  · rw [changed, hd'.mark, hmark, hd.mark]
  · rw [changed, hdrop]
    rfl

/-- A call of `eb_insert` inserts. -/
theorem ebInsert_spec (h : ed.buffer.WellFormed) {o : Nat} (ho : o ≤ ed.buffer.bytes.length) (buf : List Byte) :
    ∃ ed', ed.ebInsert o buf = some ed' ∧ Edited ed ⟨.insert, o, buf.length⟩ (insertAt ed.buffer.bytes o buf) ed' := by
  have htotal := total_eq h
  obtain ⟨d, hd⟩ := h
  rw [hd.text] at ho ⊢
  refine ⟨_, if_pos ⟨by omega, by rw [htotal, hd.text]; omega⟩, ?_⟩
  rw [Int.toNat_natCast]
  exact edited_of_stands hd (ebInsert_stands hd ho buf) (by simp [Doc.insert]) (by simp [Doc.insert]) (by simp [Doc.insert])

/-- A call of `eb_delete` removes. -/
theorem ebDelete_spec (h : ed.buffer.WellFormed) {o w : Nat} (ho : o < ed.buffer.bytes.length)
    (hsize : o + w ≤ ed.buffer.bytes.length) :
    ∃ ed', ed.ebDelete o w = some ed' ∧ Edited ed ⟨.delete, o, w⟩ (removeAt ed.buffer.bytes o w) ed' := by
  have htotal := total_eq h
  obtain ⟨d, hd⟩ := h
  rw [hd.text] at ho hsize htotal ⊢
  have hdelete : d.delete o w = { d.addlog .delete o w with text := removeAt d.text o w } := if_neg (by omega)
  have hedited := edited_of_stands hd (ebDelete_stands hd o w fun _ => hsize) (n := ⟨.delete, o, w⟩)
    (by simp [hdelete]) (by simp [hdelete]) (by simp [hdelete])
  rw [hdelete] at hedited
  refine ⟨_, ?_, hedited⟩
  rw [ebDelete, if_neg (by omega), if_pos ⟨by omega, by omega, by omega⟩, Int.toNat_natCast, Int.toNat_natCast]

/-- A call of `eb_delete` from the end of the text on does nothing. -/
theorem ebDelete_end (h : ed.buffer.WellFormed) {o : Int} (ho : ed.buffer.bytes.length ≤ o) (size : Int) :
    ed.ebDelete o size = some ed := by
  rw [ebDelete, if_pos (by rw [total_eq h]; exact ho)]

/-- A call of `eb_write` over bytes of the text overwrites them. -/
theorem ebWrite_spec (h : ed.buffer.WellFormed) {o : Nat} {buf : List Byte} (hbuf : buf ≠ [])
    (ho : o + buf.length ≤ ed.buffer.bytes.length) :
    ∃ ed', ed.ebWrite o buf = some ed' ∧ Edited ed ⟨.write, o, buf.length⟩ (overwriteAt ed.buffer.bytes o buf) ed' := by
  have htotal := total_eq h
  obtain ⟨d, hd⟩ := h
  rw [hd.text] at ho htotal ⊢
  have hwrite : d.write o buf = { d.addlog .write o buf.length with text := overwriteAt d.text o buf } := by
    simp only [Doc.write, show min buf.length (d.text.length - o) = buf.length by omega, List.take_length, List.drop_length,
      Doc.overwrite, if_neg hbuf, Doc.insertBlock, if_true]
  have hedited := edited_of_stands hd (ebWrite_stands hd buf (show o ≤ d.text.length by omega)) (n := ⟨.write, o, buf.length⟩)
    (by simp [hwrite]) (by simp [hwrite]) (by simp [hwrite])
  rw [hwrite] at hedited
  refine ⟨_, ?_, hedited⟩
  rw [ebWrite, if_pos ⟨by omega, by omega⟩, Int.toNat_natCast]

end Editor
end Hoe
