import Hoe.Lemmas.ByteLines
import Hoe.Lemmas.ChangeCase
import Hoe.ListMode

/-!
# The text of a list

A list is built as lines with newlines between them, in any window, and whatever is selected in it and wherever the cursor is moved,
the window goes on to show a well-formed buffer. The number of a line is how many newlines stand in front of it.
-/

namespace Hoe

namespace ListMode

open Lines (ended begun)
open Splice

/-! ## Building a list -/

/-- A window on a well-formed buffer. The cursor may be behind the text. -/
structure Shown (s : Editor) : Prop where
  wf : s.buffer.WellFormed
  cursor : ∃ o : Nat, s.offset = o

/-- A well-formed buffer that has this text. -/
def Printed (text : List Byte) (b : EditBuffer) : Prop := b.WellFormed ∧ b.bytes = text

variable {s s' : Editor} {b : EditBuffer} {text line : List Byte} {lines : List (List Byte)}

theorem Shown.ok (h : Shown s) : s.buffer.toPages.Ok := by
  obtain ⟨⟨d, hd⟩, -⟩ := h
  exact hd.ok

/-- `eb_printf` appends. -/
theorem ebPrintf_spec (h : Printed text b) (hline : line.length < 1024) :
    ∃ b', ebPrintf b line = some b' ∧ Printed (text ++ line) b' := by
  obtain ⟨⟨d, hd⟩, rfl⟩ := h
  have hinsert := ebInsert_stands hd (Nat.le_of_eq hd.total) line
  refine ⟨_, if_pos hline, ⟨_, hinsert⟩, ?_⟩
  rw [hinsert.text, hd.total, hd.text]
  simp [Doc.insert, insertAt]

/-- The items are printed, with newlines between them. -/
theorem printItems_spec (h : Printed text b) (hlines : ∀ line ∈ lines, line.length < 1024) :
    ∃ b', printItems lines b = some b' ∧ Printed (text ++ [newline].intercalate lines) b' := by
  induction lines generalizing b text with
  | nil => exact ⟨b, rfl, by simpa using h⟩
  | cons line lines ih =>
    obtain ⟨hline, hlines⟩ := List.forall_mem_cons.1 hlines
    obtain ⟨b₁, h₁, hprinted⟩ := ebPrintf_spec h hline
    cases lines with
    | nil => exact ⟨b₁, h₁, by simpa using hprinted⟩
    | cons line₂ lines =>
      obtain ⟨b₂, h₂, hprinted₂⟩ := ebPrintf_spec hprinted (by decide : [newline].length < 1024)
      obtain ⟨b₃, h₃, hprinted₃⟩ := ih hprinted₂ hlines
      refine ⟨b₃, ?_, ?_⟩
      · have hstep : printItems (line :: line₂ :: lines) b =
            (ebPrintf b line).bind fun b => (ebPrintf b [newline]).bind (printItems (line₂ :: lines)) := rfl
        rw [hstep, h₁, Option.bind_some, h₂, Option.bind_some, h₃]
      · simpa using hprinted₃

/-- The list is built anew. -/
theorem buildList_spec (hwf : s.buffer.WellFormed) (hlines : ∀ line ∈ lines, line.length < 1024) :
    ∃ b, buildList lines s = some { s with buffer := b } ∧ Printed ([newline].intercalate lines) b := by
  obtain ⟨d, hd⟩ := hwf
  have hdelete := ebDelete_stands hd 0 s.buffer.totalSize fun _ => by rw [hd.total, Nat.zero_add]
  have hempty : (d.delete 0 s.buffer.totalSize).text = [] := by
    rw [hd.total, Doc.delete]
    split
    · next hle => exact List.eq_nil_of_length_eq_zero (Nat.le_zero.1 hle)
    · simp [removeAt]
  obtain ⟨b, h, hprinted⟩ := printItems_spec ⟨⟨_, hdelete⟩, hdelete.text.trans hempty⟩ hlines
  exact ⟨b, by rw [buildList, h, Option.map_some], by simpa using hprinted⟩

/-! ## Selecting and moving -/

theorem moveTo_shown (hwf : s.buffer.WellFormed) (offset : Nat) : Shown (moveTo s offset) := by
  refine ⟨hwf, min offset s.buffer.bytes.length, ?_⟩
  unfold moveTo
  rw [Editor.total_eq hwf, Nat.cast_min]

/-- The number of the line of the cursor. -/
theorem listGetPos_eq (hok : s.buffer.toPages.Ok) {o : Nat} (hoffset : s.offset = o) :
    listGetPos s = (s.buffer.bytes.take o).count newline := by
  rw [listGetPos, hoffset]
  exact ebGetPos_line hok _ o

/-- The line of the cursor begins in the text. -/
theorem listGetOffset_le (h : Shown s) : ∃ o : Nat, listGetOffset s = o ∧ o ≤ s.buffer.bytes.length := by
  obtain ⟨hwf, o, hoffset⟩ := h
  obtain ⟨d, hd⟩ := hwf
  have hpos := listGetPos_eq hd.ok hoffset
  have hle : listGetPos s ≤ s.buffer.bytes.count newline := by
    rw [hpos]
    exact (List.take_sublist o _).count_le newline
  obtain ⟨a, l, b, hsplit, ha, htext⟩ := Lines.exists_line hle
  have hlines : ∀ x ∈ a, newline ∉ x := fun x hx => Lines.not_mem_of_mem_splitOn (by rw [hsplit]; exact List.mem_append_left _ hx)
  refine ⟨(ended newline a).length, ?_, ?_⟩
  · rw [listGetOffset, ebGotoPos_bol hd.ok rfl hle, htext, List.append_assoc, ← ha, skipLines_ended hlines]
  · rw [htext, List.append_assoc, List.length_append]
    exact Nat.le_add_right _ _

/-- Whatever is selected and wherever the cursor is moved, the list is shown. -/
theorem listEvents_shown (h : Shown s) (evs : List ListEvent) : ∃ s', listEvents s evs = some s' ∧ Shown s' := by
  induction evs generalizing s with
  | nil => exact ⟨s, rfl, h⟩
  | cons ev evs ih =>
    have hev : ∃ s₁, listEvent s ev = some s₁ ∧ Shown s₁ := by
      cases ev with
      | toggle ch offset =>
        obtain ⟨o, ho, hle⟩ := listGetOffset_le h
        have hwrite : ∃ s₁, listToggleSelection s ch = some s₁ ∧ s₁.buffer.WellFormed := by
          have htotal : 0 ≤ (o : Int) ∧ (o : Int) ≤ s.total := by
            rw [Editor.total_eq h.wf]
            exact ⟨Int.natCast_nonneg _, Int.ofNat_le.2 hle⟩
          obtain ⟨buf, hbuf⟩ : ∃ buf, listToggleSelection s ch = s.ebWrite (listGetOffset s) buf := ⟨_, rfl⟩
          have hsome : (s.ebWrite o buf).isSome := by
            rw [Editor.ebWrite, if_pos htotal]
            rfl
          obtain ⟨s₁, h₁⟩ := Option.isSome_iff_exists.1 hsome
          exact ⟨s₁, by rw [hbuf, ho, h₁], (Editor.ebWrite_text h.wf hle h₁).1⟩
        obtain ⟨s₁, h₁, hwf⟩ := hwrite
        exact ⟨_, by rw [listEvent, h₁]; rfl, moveTo_shown hwf offset⟩
      | move offset => exact ⟨_, rfl, moveTo_shown h.wf offset⟩
    obtain ⟨s₁, h₁, hshown⟩ := hev
    obtain ⟨s', h', hshown'⟩ := ih hshown
    exact ⟨s', by rw [listEvents, h₁, Option.bind_some, h'], hshown'⟩

end ListMode

end Hoe
