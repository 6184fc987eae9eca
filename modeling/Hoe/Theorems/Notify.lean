import Hoe.Lemmas.Notify

/-!
# Every change is reported once

The callbacks on the list of a buffer are told of every change by `eb_addlog`, from inside the functions that change the text
and by hand in `do_undo`. Over a run in which no undo plays a removal, what they are told leads from the old length of the text
to the new one, so a mirror stays a mirror. An undo that plays a removal of at least one byte tells the insertion twice.
-/

namespace Hoe

/-- An operation on a buffer: an edit, or an undo, in a chain or not. -/
inductive Operation where
  | edit (e : Edit)
  | undo (chained : Bool)
deriving DecidableEq, Repr

/-- The entry can be played on a text of the size. -/
def LogBuffer.Fits (lb : LogBuffer) (totalSize : Nat) : Prop :=
  match lb.op with
  | .write => lb.offset + lb.size ≤ totalSize
  | .insert => lb.offset < totalSize → lb.offset + lb.size ≤ totalSize
  | .delete => lb.offset ≤ totalSize
  | .free => True

instance (lb : LogBuffer) (totalSize : Nat) : Decidable (lb.Fits totalSize) := by
  unfold LogBuffer.Fits
  split <;> infer_instance

namespace Operation

/-- The operation on the buffer. -/
def run (b : EditBuffer) : Operation → EditBuffer
  | edit e => e.run b
  | undo chained => (doUndo chained b).1

/-- An edit is in range; an undo plays an entry that fits the text, and no removal of at least one byte. -/
def ToldOnce (b : EditBuffer) : Operation → Prop
  | edit e => e.InRange b.totalSize
  | undo chained =>
    ∀ lb ∈ pendingEntry chained b, lb.Fits b.totalSize ∧ (lb.op = .delete → lb.size = 0)

end Operation

/-- A run of operations. -/
def runOperations (b : EditBuffer) : List Operation → EditBuffer
  | [] => b
  | o :: os => runOperations (o.run b) os

/-- Every operation of the run meets the condition where it is made. -/
def AllToldOnce (b : EditBuffer) : List Operation → Prop
  | [] => True
  | o :: os => o.ToldOnce b ∧ AllToldOnce (o.run b) os

/-- What the run has told the callbacks. -/
def told (b : EditBuffer) (os : List Operation) : List Note := (runOperations b os).notes.drop b.notes.length

/-- Every change of the run was reported once: a mirror and the colors of a shell have the length of the text, the mark was
moved as the notes say, and every offset that was in range is in range. -/
def ReportedOnce (b : EditBuffer) (os : List Operation) : Prop :=
  let b' := runOperations b os
  let ns := told b os
  (∀ mirror : List Unit, mirror.length = b.totalSize → (ns.foldl (mirrorCallback ()) mirror).length = b'.totalSize) ∧
    (∀ (color : Byte) (bColor : Pages), bColor.Ok → bColor.totalSize = b.totalSize →
      (ns.foldl (shellColorCallback color) bColor).totalSize = b'.totalSize) ∧
    b'.mark = ns.foldl ebOffsetCallback b.mark ∧
    ∀ x : Int, 0 ≤ x ∧ x ≤ b.totalSize → 0 ≤ ns.foldl ebOffsetCallback x ∧ ns.foldl ebOffsetCallback x ≤ b'.totalSize

theorem LogEntry.fits_iff (e : LogEntry) (n : Nat) : e.header.Fits n ↔ e.Fits n := by
  cases e <;> rfl

/-- One operation that meets the condition. -/
theorem Operation.run_told {b : EditBuffer} {d : Doc} (hb : Stands b d) {o : Operation} (ho : o.ToldOnce b) :
    ∃ d', Stands (o.run b) d' ∧ d.Told d' := by
  cases o with
  | edit e => exact ⟨_, Edit.run_stands hb ho, d.told_edit (by rw [← hb.total]; exact ho)⟩
  | undo chained =>
    have hnext (e : LogEntry) (he : (d.start chained).next = some e) :
        e.Fits d.text.length ∧ (e.header.op = .delete → e.header.size = 0) := by
      have h := ho e.header (by rw [pendingEntry_eq hb, he]; rfl)
      rw [hb.total, LogEntry.fits_iff] at h
      exact h
    exact ⟨_, (doUndo_stands hb (fun e he => (hnext e he).1)).1, d.told_undo chained hnext⟩

/-- A run whose operations all meet the condition. -/
theorem runOperations_told {b : EditBuffer} {d : Doc} (hb : Stands b d) {os : List Operation} (hos : AllToldOnce b os) :
    ∃ d', Stands (runOperations b os) d' ∧ d.Told d' := by
  induction os generalizing b d with
  | nil => exact ⟨d, hb, .refl d⟩
  | cons o os ih =>
    obtain ⟨d₁, h1, t1⟩ := Operation.run_told hb hos.1
    obtain ⟨d₂, h2, t2⟩ := ih h1 hos.2
    exact ⟨d₂, h2, t1.trans t2⟩

/-- In a run of in-range edits and of undos none of which plays a removal of at least one byte, or an entry that does not fit
the text, every change is reported once. -/
theorem reportedOnce {b : EditBuffer} (hwf : b.WellFormed) {os : List Operation} (hos : AllToldOnce b os) :
    ReportedOnce b os := by
  obtain ⟨d, hb⟩ := hwf
  obtain ⟨d', hd', ns, h1, h2, h3⟩ := runOperations_told hb hos
  have htold : told b os = ns := by rw [told, hd'.notes, h1, hb.notes, List.drop_left]
  unfold ReportedOnce
  simp only [htold, hb.total, hd'.total]
  refine ⟨fun mirror hm => h2.mirror () hm, fun color t ht hl => (h2.colors color ht hl).2, ?_, fun x hx => h2.offset hx⟩
  rw [hd'.mark, h3, hb.mark]

/-- Two inserts, a write over the end, a chain of two undos, and a third that begins a new one. -/
theorem reportedOnce_run :
    ReportedOnce (EditBuffer.new true)
      [.edit (.insert 0 [1, 2, 3]), .edit (.write 1 [7, 8]), .undo false, .undo true, .edit (.delete 0 0)] := by
  refine reportedOnce ⟨_, new_stands true⟩ ?_
  simp only [AllToldOnce, Operation.ToldOnce, Edit.InRange]
  decide

/-- Undoing a removal tells the insertion twice: the text has two bytes, its mirror four. -/
theorem not_reportedOnce_undo_delete :
    ¬ReportedOnce (EditBuffer.new true) [.edit (.insert 0 [1, 2]), .edit (.delete 0 2), .undo false] := by
  intro h
  have hm := h.1 [] rfl
  revert hm
  decide

end Hoe
