import Hoe.EditCommands
import Hoe.Lemmas.ByteLines

/-!
# Helpers for the rectangle commands: lines by number, and where bytes come from

A rectangle is given by lines and columns of the text before the command, so what the command does is told by the offsets of that
text: `trace` says of each byte of the new text which byte of the old one it is, or that it is a new one.
-/

namespace Hoe

open Splice Lines

/-! ## Lines by number -/

/-- Where a line begins, counted from 0. -/
def lineStart (text : List Byte) (k : Nat) : Nat := skipLines k text

/-- How long a line is, without its newline. -/
def lineLength (text : List Byte) (k : Nat) : Nat := ((text.splitOn newline).getD k []).length

/-- The line and the column of an offset. -/
def posOf (text : List Byte) (o : Nat) : Nat × Nat := ((text.take o).count newline, (lastLine (text.take o)).length)

/-- A line of the text, with the lines in front of it and behind it. -/
structure LineAt (text : List Byte) (k : Nat) (a : List (List Byte)) (m : List Byte) (b : List (List Byte)) : Prop where
  text_eq : text = ended newline a ++ m ++ begun newline b
  number : a.length = k
  front : ∀ l ∈ a, newline ∉ l
  line : newline ∉ m
  back : ∀ l ∈ b, newline ∉ l
  start : lineStart text k = (ended newline a).length
  length : lineLength text k = m.length

/-- A text has a line for each newline, and one more. -/
theorem exists_lineAt {text : List Byte} {k : Nat} (hk : k ≤ text.count newline) : ∃ a m b, LineAt text k a m b := by
  obtain ⟨a, m, b, hsplit, hlen, htext⟩ := Lines.exists_line hk
  have hlines : ∀ l ∈ a ++ m :: b, newline ∉ l := by
    intro l hl
    rw [← hsplit] at hl
    exact not_mem_of_mem_splitOn hl
  obtain ⟨ha, hmb⟩ := List.forall_mem_append.mp hlines
  obtain ⟨hm, hb⟩ := List.forall_mem_cons.mp hmb
  refine ⟨a, m, b, htext, hlen, ha, hm, hb, ?_, ?_⟩
  · rw [lineStart, ← hlen]
    conv_lhs => rw [htext, List.append_assoc]
    exact skipLines_ended ha _
  · rw [lineLength, hsplit, ← hlen]
    simp [List.getD_eq_getElem?_getD]

variable {text : List Byte} {k k' o : Nat}

/-- The lines behind it are those of the newlines behind it. -/
theorem LineAt.count {a b : List (List Byte)} {m : List Byte} (h : LineAt text k a m b) :
    text.count newline = k + b.length := by
  rw [h.text_eq, List.count_append, List.count_append, count_ended h.front, List.count_eq_zero.mpr h.line, count_begun h.back,
    h.number]
  rfl

/-- The last line goes to the end of the text. -/
theorem line_last (hk : k = text.count newline) : lineStart text k + lineLength text k = text.length := by
  obtain ⟨a, m, b, h⟩ := exists_lineAt (Nat.le_of_eq hk)
  have hb : b = [] := List.eq_nil_of_length_eq_zero (by have := h.count; omega)
  have hlen := congrArg List.length h.text_eq
  rw [hb, begun_nil, List.append_nil, List.length_append] at hlen
  rw [h.start, h.length, hlen]

/-- Any other line ends in front of a newline, behind which the next one begins. -/
theorem line_next (hk : k < text.count newline) : lineStart text (k + 1) = lineStart text k + lineLength text k + 1 ∧
    text.getD (lineStart text k + lineLength text k) 0 = newline ∧
    lineStart text k + lineLength text k < text.length := by
  obtain ⟨a, m, b, h⟩ := exists_lineAt (Nat.le_of_lt hk)
  obtain ⟨l, b, rfl⟩ : ∃ l b', b = l :: b' := by
    cases b with
    | nil => exact absurd h.count (by simp; omega)
    | cons l b => exact ⟨l, b, rfl⟩
  have hcut : text = ended newline (a ++ [m]) ++ (l ++ begun newline b) := by
    rw [h.text_eq]
    simp
  have hstart : lineStart text (k + 1) = (ended newline (a ++ [m])).length := by
    have hlines : ∀ l ∈ a ++ [m], newline ∉ l :=
      List.forall_mem_append.mpr ⟨h.front, fun l hl => (List.mem_singleton.mp hl) ▸ h.line⟩
    have hnumber : k + 1 = (a ++ [m]).length := by rw [List.length_append, h.number]; rfl
    rw [lineStart, hnumber]
    conv_lhs => rw [hcut]
    exact skipLines_ended hlines _
  have hlen := congrArg List.length h.text_eq
  simp only [List.length_append, begun_cons, List.length_cons] at hlen
  rw [hstart, h.start, h.length]
  refine ⟨?_, ?_, by omega⟩
  · simp
    omega
  · rw [h.text_eq, ← List.length_append]
    simp [List.getD_eq_getElem?_getD]

/-- A line ends in front of the later ones. -/
theorem lineStart_lt (text : List Byte) (hk : k < k') (hk' : k' ≤ text.count newline) :
    lineStart text k + lineLength text k < lineStart text k' := by
  induction k' with
  | zero => exact absurd hk (Nat.not_lt_zero k)
  | succ n ih =>
    obtain ⟨hnext, -, -⟩ := line_next (show n < text.count newline by omega)
    rcases Nat.lt_or_eq_of_le (Nat.lt_succ_iff.mp hk) with hlt | rfl
    · have := ih hlt (by omega)
      omega
    · omega

/-- A line ends in the text. -/
theorem line_le (text : List Byte) (hk : k ≤ text.count newline) : lineStart text k + lineLength text k ≤ text.length := by
  rcases Nat.lt_or_eq_of_le hk with hlt | heq
  · exact Nat.le_of_lt (line_next hlt).2.2
  · exact Nat.le_of_eq (line_last heq)

/-- An offset is as far behind the beginning of its line as its column says, and within the line. -/
theorem posOf_spec (ho : o ≤ text.length) : (posOf text o).1 ≤ text.count newline ∧
    lineStart text (posOf text o).1 + (posOf text o).2 = o ∧ (posOf text o).2 ≤ lineLength text (posOf text o).1 := by
  have hle : (posOf text o).1 ≤ text.count newline := (List.take_sublist o text).count_le newline
  have hstart : lineStart text (posOf text o).1 + (posOf text o).2 = o := by
    rw [lineStart, posOf, ← bolOf_eq_skipLines text ho]
    exact bolOf_eq text ho
  refine ⟨hle, hstart, ?_⟩
  by_contra hgt
  rcases Nat.lt_or_eq_of_le hle with hlt | heq
  · -- a newline in front of the offset would end the line
    obtain ⟨hnext, -, -⟩ := line_next hlt
    obtain ⟨a, m, b, h⟩ := exists_lineAt (Nat.succ_le_of_lt hlt)
    have hfront : (text.take o).count newline = (posOf text o).1 := rfl
    have hlong : (ended newline a).length ≤ o := by
      rw [← h.start, hnext]
      omega
    have hsub : (ended newline a).Sublist (text.take o) := by
      have hpre : ended newline a <+: text.take o := by
        rw [List.prefix_take_iff]
        exact ⟨⟨m ++ begun newline b, by rw [← List.append_assoc, ← h.text_eq]⟩, hlong⟩
      exact hpre.sublist
    have hcount := hsub.count_le newline
    rw [count_ended h.front, h.number, hfront] at hcount
    omega
  · have hlast := line_last heq
    omega

/-- The beginning of a line is in column 0. -/
theorem posOf_lineStart (hk : k ≤ text.count newline) : posOf text (lineStart text k) = (k, 0) := by
  obtain ⟨a, m, b, h⟩ := exists_lineAt hk
  have htake : text.take (lineStart text k) = ended newline a := by
    rw [h.start]
    conv_lhs => rw [h.text_eq, List.append_assoc]
    exact List.take_left
  rw [posOf, htake, count_ended h.front, h.number]
  rcases ended_eq newline a with hnil | ⟨c, hc⟩
  · rw [hnil]
    rfl
  · rw [hc, lastLine_snoc, if_pos rfl]
    rfl

/-- Lines begin where there is nothing in front of them. -/
theorem lineStart_of_posOf (ho : o ≤ text.length) (h : posOf text o = (k, 0)) : lineStart text k = o := by
  have hspec := (posOf_spec ho).2.1
  rwa [h] at hspec

/-- An insertion at the beginning of a line or behind it leaves this beginning. -/
theorem lineStart_insertAt_behind (hk : k ≤ text.count newline) {p : Nat} (hle : lineStart text k ≤ p) (hp : p ≤ text.length)
    (xs : List Byte) : lineStart (insertAt text p xs) k = lineStart text k := by
  have htake : (insertAt text p xs).take (lineStart text k) = text.take (lineStart text k) := by
    rw [insertAt, List.append_assoc, List.take_append_of_le_length (by rw [List.length_take_of_le hp]; exact hle),
      List.take_take, Nat.min_eq_left hle]
  refine lineStart_of_posOf (by rw [length_insertAt]; omega) ?_
  rw [posOf, htake]
  exact posOf_lineStart hk

/-- An insertion of bytes without a newline in front of it moves it. -/
theorem lineStart_insertAt_front (hk : k ≤ text.count newline) {p : Nat} (hlt : p < lineStart text k) {xs : List Byte}
    (hxs : newline ∉ xs) : lineStart (insertAt text p xs) k = lineStart text k + xs.length := by
  obtain ⟨hcount, hcol⟩ := Prod.ext_iff.mp (posOf_lineStart hk)
  have hle : lineStart text k ≤ text.length := Nat.le_trans (Nat.le_add_right _ _) (line_le _ hk)
  obtain ⟨l, hl⟩ : ∃ l, l = text.take (lineStart text k) := ⟨_, rfl⟩
  have hlen : l.length = lineStart text k := by rw [hl, List.length_take_of_le hle]
  have hinsert : insertAt text p xs = insertAt l p xs ++ text.drop (lineStart text k) := by
    rw [← insertAt_append_right _ _ _ (by omega), hl, List.take_append_drop]
  have htake : (insertAt text p xs).take (lineStart text k + xs.length) = insertAt l p xs := by
    rw [hinsert, ← hlen, ← length_insertAt l p xs, List.take_left]
  simp only [posOf, ← hl] at hcount hcol
  -- what is in front of the line ends with its newline
  have hmem : newline ∈ l.drop p := by
    by_contra hnot
    have hlast := lastLine_append (l.take p) (l.drop p)
    rw [List.take_append_drop, if_neg hnot, List.eq_nil_of_length_eq_zero hcol] at hlast
    have hnil : l.drop p = [] := (List.append_eq_nil_iff.mp hlast.symm).2
    have := List.drop_eq_nil_iff.mp hnil
    omega
  have hlast : lastLine (insertAt l p xs) = lastLine l := by
    rw [insertAt, lastLine_append, if_pos hmem]
    conv_rhs => rw [← List.take_append_drop p l, lastLine_append, if_pos hmem]
  refine lineStart_of_posOf (by rw [length_insertAt]; omega) ?_
  rw [posOf, htake, hlast, hcol, insertAt, List.count_append, List.count_append, List.count_eq_zero.mpr hxs, Nat.add_zero,
    ← List.count_append, List.take_append_drop, hcount]

/-- `eb_get_pos` finds the line and the column. -/
theorem Editor.getPos_spec {s : Editor} (hwf : s.buffer.WellFormed) (hu : s.charset ≠ .utf8) (o : Nat) :
    s.getPos o = posOf s.buffer.bytes o := by
  obtain ⟨d, hd⟩ := hwf
  exact ebGetPos_bytes hd.ok hu o

/-- `do_goto_line` goes to the beginning of a line. -/
theorem Editor.gotoLine_start {s : Editor} (hwf : s.buffer.WellFormed) (hk : k ≤ s.buffer.bytes.count newline) :
    s.gotoLine (k + 1 : Nat) = { s with offset := lineStart s.buffer.bytes k } := by
  obtain ⟨a, m, b, h⟩ := exists_lineAt hk
  rw [← h.number, gotoLine_line hwf h.front (h.text_eq.trans (List.append_assoc _ _ _)), h.number, h.start]

/-! ## Where the bytes come from -/

/-- What a change of the text makes of its trace. -/
def Note.trace (l : List (Option Nat)) (n : Note) : List (Option Nat) :=
  match n.op with
  | .insert => insertAt l n.offset (List.replicate n.size none)
  | .delete => removeAt l n.offset n.size
  | _ => l

namespace Editor

/-- For each byte of the text after some changes, the offset it had before them, none when it is new. -/
def trace (s s' : Editor) : List (Option Nat) :=
  (s'.buffer.notes.drop s.buffer.notes.length).foldl Note.trace ((List.range s.buffer.bytes.length).map some)

variable {s s₁ s₂ : Editor} {n : Note}

/-- Where nothing was reported, each byte is where it was. -/
theorem trace_self (h : s₁.buffer.notes = s.buffer.notes) : trace s s₁ = (List.range s.buffer.bytes.length).map some := by
  rw [trace, h, List.drop_length]
  rfl

/-- A report moves the bytes once more. -/
theorem trace_note (hle : s.buffer.notes.length ≤ s₁.buffer.notes.length) (h : s₂.buffer.notes = s₁.buffer.notes ++ [n]) :
    trace s s₂ = n.trace (trace s s₁) := by
  rw [trace, h, List.drop_append_of_le_length hle, List.foldl_append]
  rfl

/-- A window with a mark on a text. -/
def rectWindow (text : List Byte) (mark point : Nat) : Editor :=
  Editor.new { Hoe.ebInsert (EditBuffer.new true) 0 text with mark := mark } .latin1 point

theorem rectWindow_wf (text : List Byte) (mark point : Nat) : (rectWindow text mark point).buffer.WellFormed :=
  EditBuffer.WellFormed.setMark ⟨_, ebInsert_stands (new_stands true) (Nat.zero_le _) text⟩ mark

end Editor

end Hoe
