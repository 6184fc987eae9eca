import Hoe.EditCommands
import Hoe.Lemmas.ByteLines

/-!
# Trailing white space

`do_delete_trailing_whitespace` makes one turn for each newline of the text. The first two turns are about the first line, since
`do_goto_line` counts from 1 and leaves the point alone for 0; so the last line is never reached, nor is the one in front of it,
unless it is the first.
-/

namespace Hoe

open Splice Lines

/-- A line without the blanks at its end. -/
def trimmed (l : List Byte) : List Byte := l.rdropWhile isBlank

theorem newline_notMem_trimmed {l : List Byte} (h : newline ∉ l) : newline ∉ trimmed l :=
  fun hmem => h ((List.rdropWhile_prefix isBlank l).mem hmem)

namespace Editor

variable {s : Editor} {a b : List (List Byte)} {l : List Byte}

/-- The window after some turns: a text in a charset of single bytes, shown in text mode. -/
structure Trimming (s : Editor) (ls : List (List Byte)) : Prop where
  wf : s.buffer.WellFormed
  mode : s.mode = .text
  bytes : s.charset ≠ .utf8
  lines : ∀ l ∈ ls, newline ∉ l
  text : s.buffer.bytes = [newline].intercalate ls

/-- A turn takes the blanks of one line away, at the beginning of which the point is after `do_goto_line`. -/
theorem Trimming.turn (h : Trimming s (a ++ l :: b)) {i : Nat}
    (hgoto : s.gotoLine i = { s with offset := (ended newline a).length }) :
    ∃ s', s.deleteTrailing i = some s' ∧ Trimming s' (a ++ trimmed l :: b) := by
  obtain ⟨ha, hlb⟩ := List.forall_mem_append.mp h.lines
  obtain ⟨hl, hb⟩ := List.forall_mem_cons.mp hlb
  have htext : s.buffer.bytes = ended newline a ++ l ++ begun newline b := h.text.trans (intercalate_cut newline a l b)
  have hlines : ∀ m ∈ a ++ trimmed l :: b, newline ∉ m :=
    List.forall_mem_append.mpr ⟨ha, List.forall_mem_cons.mpr ⟨newline_notMem_trimmed hl, hb⟩⟩
  obtain ⟨w, hw⟩ : ∃ w, l = trimmed l ++ w := ⟨_, (List.rdropWhile_append_rtakeWhile (p := isBlank)).symm⟩
  -- the end of the line, and back over the blanks
  obtain ⟨ed₀, hed₀⟩ : ∃ ed₀ : Editor, ed₀ = { s with offset := (ended newline a ++ l).length } := ⟨_, rfl⟩
  have heol : (s.gotoLine i).doEol = ed₀ := by
    rw [hgoto, doEol_text, hed₀]
    · exact congrArg (fun o => { s with offset := o })
        (Reader.moveEol_line (r := s.reader) h.bytes htext hl (begun_eq newline b))
    · exact h.mode
  have hback : ed₀.reader.skipSpacesBack ed₀.offset =
      (((ended newline a ++ trimmed l).length : Int), l.length - (trimmed l).length) := by
    rw [hed₀]
    exact Reader.skipSpacesBack_line h.bytes htext (ended_eq newline a)
  obtain ⟨ed, hed⟩ : ∃ ed : Editor, ed = { ed₀ with offset := (ended newline a ++ trimmed l).length } := ⟨_, rfl⟩
  have hturn : s.deleteTrailing i =
      if 0 < l.length - (trimmed l).length then
        ed.ebDelete ((ended newline a ++ trimmed l).length : Nat) (l.length - (trimmed l).length : Nat)
      else some ed := by
    simp only [deleteTrailing, heol, hback, ← hed]
  rw [hed₀] at hed
  have hlength : l.length = (trimmed l).length + w.length := by rw [← List.length_append, ← hw]
  rw [hturn, hlength, Nat.add_sub_cancel_left]
  by_cases hpos : 0 < w.length
  · rw [if_pos hpos]
    have hbytes : ed.buffer.bytes = ended newline a ++ trimmed l ++ (w ++ begun newline b) := by
      rw [hed]
      refine htext.trans ?_
      conv_lhs => rw [hw]
      simp only [List.append_assoc]
    have hwf : ed.buffer.WellFormed := by
      rw [hed]
      exact h.wf
    obtain ⟨s', hs', hedited⟩ := ebDelete_spec hwf (o := (ended newline a ++ trimmed l).length) (w := w.length)
      (by rw [hbytes]; simp; omega) (by rw [hbytes]; simp; omega)
    refine ⟨s', hs', hedited.wf, ?_, ?_, hlines, ?_⟩
    · rw [hedited.mode, hed]
      exact h.mode
    · rw [hedited.charset, hed]
      exact h.bytes
    · rw [hedited.text, hbytes, removeAt_append, List.drop_left, intercalate_cut]
  · rw [if_neg hpos]
    have hnil : w = [] := List.eq_nil_of_length_eq_zero (by omega)
    have hsame : trimmed l = l := by
      rw [hnil, List.append_nil] at hw
      exact hw.symm
    rw [hsame] at hlines ⊢
    exact ⟨ed, rfl, by rw [hed]; exact h.wf, by rw [hed]; exact h.mode, by rw [hed]; exact h.bytes, hlines,
      by rw [hed]; exact h.text⟩

/-- A list with its first elements changed. -/
def mapFirst (k : Nat) (ls : List (List Byte)) : List (List Byte) := (ls.take k).map trimmed ++ ls.drop k

theorem length_mapFirst (k : Nat) (ls : List (List Byte)) : (mapFirst k ls).length = ls.length := by
  rw [mapFirst, List.length_append, List.length_map, ← List.length_append, List.take_append_drop]

theorem getElem?_mapFirst (k : Nat) (ls : List (List Byte)) (j : Nat) :
    (mapFirst k ls)[j]? = if j < k then (ls[j]?).map trimmed else ls[j]? := by
  rw [mapFirst, List.getElem?_append, List.length_map, List.length_take]
  split
  · rw [if_pos (by omega), List.getElem?_map, List.getElem?_take_of_lt (by omega)]
  · split
    · rw [List.getElem?_eq_none (by rw [List.length_drop]; omega), List.getElem?_eq_none (by omega), Option.map_none]
    · rw [List.getElem?_drop]
      by_cases hk : k ≤ ls.length
      · rw [Nat.min_eq_left hk, Nat.add_sub_cancel' (by omega)]
      · rw [List.getElem?_eq_none (by omega), List.getElem?_eq_none (by omega)]

/-- One of the first elements again, or the one behind them, is changed. -/
theorem set_mapFirst {k k' j : Nat} {ls : List (List Byte)} {x : List Byte} (hget : (mapFirst k ls)[j]? = some x)
    (h : (j < k ∧ k' = k) ∨ (j = k ∧ k' = k + 1)) : (mapFirst k ls).set j (trimmed x) = mapFirst k' ls := by
  obtain ⟨hlt, -⟩ := List.getElem?_eq_some_iff.mp hget
  rw [length_mapFirst] at hlt
  refine List.ext_getElem? fun i => ?_
  rw [List.getElem?_set, length_mapFirst, getElem?_mapFirst]
  rw [getElem?_mapFirst] at hget
  by_cases hij : j = i
  · subst hij
    have hline : ls[j]? = some ls[j] := List.getElem?_eq_getElem hlt
    rw [hline] at hget
    rw [if_pos rfl, if_pos hlt, getElem?_mapFirst, hline]
    rcases h with ⟨hjk, rfl⟩ | ⟨rfl, rfl⟩
    · -- trimmed already
      rw [if_pos hjk, Option.map_some] at hget
      rw [if_pos hjk, ← Option.some.inj hget]
      exact congrArg some (List.rdropWhile_idempotent isBlank ls[j])
    · rw [if_neg (Nat.lt_irrefl j)] at hget
      rw [if_pos (Nat.lt_succ_self j), ← Option.some.inj hget]
      rfl
  · rw [if_neg hij, getElem?_mapFirst]
    rcases h with ⟨-, rfl⟩ | ⟨rfl, rfl⟩
    · rfl
    · by_cases hik : i < j
      · rw [if_pos hik, if_pos (Nat.lt_succ_of_lt hik)]
      · rw [if_neg hik, if_neg (by omega)]

/-- How many lines from the first one on are without trailing blanks after so many turns. -/
def trimmedLines (turns : Nat) : Nat := if turns = 0 then 0 else max 1 (turns - 1)

/-- After so many turns the first lines are trimmed, and the others are as they were. -/
theorem Trimming.turns {ls : List (List Byte)} (h : Trimming s ls) (hoffset : s.offset = 0) {n : Nat} (hn : n < ls.length) :
    ∃ s', (List.range n).foldlM deleteTrailing s = some s' ∧
      Trimming s' (mapFirst (trimmedLines n) ls) ∧ (n = 0 → s' = s) := by
  induction n with
  | zero =>
    refine ⟨s, rfl, ?_, fun _ => rfl⟩
    simpa [trimmedLines, mapFirst] using h
  | succ n ih =>
    obtain ⟨s₁, hrun, h₁, hstart⟩ := ih (by omega)
    rw [List.range_succ, List.foldlM_append, hrun]
    obtain ⟨k, hk⟩ : ∃ k, k = trimmedLines n := ⟨_, rfl⟩
    rw [← hk] at h₁
    -- the line of this turn
    obtain ⟨j, hj, hlt⟩ : ∃ j, j = n - 1 ∧ j < ls.length := ⟨_, rfl, by omega⟩
    have hcases : (j < k ∧ trimmedLines (n + 1) = k) ∨ (j = k ∧ trimmedLines (n + 1) = k + 1) := by
      unfold trimmedLines at hk ⊢
      split at hk <;> split <;> omega
    obtain ⟨ms, hms⟩ : ∃ ms, ms = mapFirst k ls := ⟨_, rfl⟩
    have hlen : ms.length = ls.length := by rw [hms, length_mapFirst]
    obtain ⟨x, hget⟩ : ∃ x, ms[j]? = some x := ⟨_, List.getElem?_eq_getElem (by omega)⟩
    have hcut : ms = ms.take j ++ x :: ms.drop (j + 1) := by
      rw [← (List.getElem?_eq_some_iff.mp hget).2, ← List.drop_eq_getElem_cons (by omega), List.take_append_drop]
    rw [← hms, hcut] at h₁
    have hgoto : s₁.gotoLine n = { s₁ with offset := (ended newline (ms.take j)).length } := by
      have htake : (ms.take j).length = j := List.length_take_of_le (by omega)
      cases n with
      | zero =>
        rw [hstart rfl]
        have hzero : (ended newline (ms.take j)).length = 0 := by rw [hj]; rfl
        rw [hzero, gotoLine, if_pos (by omega), Nat.cast_zero, ← hoffset]
      | succ m =>
        obtain ⟨ha, -⟩ := List.forall_mem_append.mp h₁.lines
        have htext := h₁.text
        rw [intercalate_cut, List.append_assoc] at htext
        have hgo := gotoLine_line h₁.wf ha htext
        rw [htake, hj] at hgo
        rw [hj]
        exact hgo
    obtain ⟨s', hturn, h'⟩ := h₁.turn hgoto
    refine ⟨s', ?_, ?_, fun h0 => absurd h0 (Nat.succ_ne_zero n)⟩
    · rw [Option.bind_eq_bind, Option.bind_some, List.foldlM_cons, hturn]
      rfl
    · have hset : ms.take j ++ trimmed x :: ms.drop (j + 1) = ms.set j (trimmed x) := by
        rw [List.set_eq_take_append_cons_drop, if_pos (by omega)]
      rw [hms] at hget
      rw [hset, hms, set_mapFirst hget hcases] at h'
      exact h'

/-- The trailing blanks of all lines are gone, and nothing else is. -/
def TrailingDeleted (s : Editor) : Prop :=
  ∃ s', s.doDeleteTrailingWhitespace = some s' ∧
    s'.buffer.bytes = [newline].intercalate ((s.buffer.bytes.splitOn newline).map trimmed)

theorem mapFirst_eq_map_iff {k : Nat} {ls : List (List Byte)} :
    mapFirst k ls = ls.map trimmed ↔ ∀ l ∈ ls.drop k, trimmed l = l := by
  have hmap : ls.map trimmed = (ls.take k).map trimmed ++ (ls.drop k).map trimmed := by
    rw [← List.map_append, List.take_append_drop]
  rw [mapFirst, hmap, List.append_cancel_left_eq]
  constructor
  · intro h l hl
    have hid : (ls.drop k).map trimmed = (ls.drop k).map id := by rw [← h, List.map_id]
    exact List.map_inj_left.mp hid l hl
  · intro h
    exact ((List.map_congr_left h).trans (List.map_id _)).symm

/-- The blanks of every line are gone exactly when the lines that no turn is about have none: with one newline in the text the
last line, with more of them the last two, without one the only line. -/
theorem trailing_deleted_iff {s : Editor} (hwf : s.buffer.WellFormed) (hmode : s.mode = .text) (hu : s.charset ≠ .utf8) :
    TrailingDeleted s ↔
      ∀ l ∈ (s.buffer.bytes.splitOn newline).drop (trimmedLines (s.buffer.bytes.count newline)), trimmed l = l := by
  obtain ⟨ls, hls⟩ : ∃ ls, ls = s.buffer.bytes.splitOn newline := ⟨_, rfl⟩
  have hne : ls ≠ [] := by rw [hls]; exact List.splitOn_ne_nil newline _
  have hlines : ∀ l ∈ ls, newline ∉ l := by
    intro l hl
    rw [hls] at hl
    exact not_mem_of_mem_splitOn hl
  have hlength : ls.length = s.buffer.bytes.count newline + 1 := by rw [hls, length_splitOn]
  have hstart : Trimming { s with offset := 0 } ls := ⟨hwf, hmode, hu, hlines, by rw [hls, List.intercalate_splitOn]⟩
  obtain ⟨s', hrun, h', -⟩ := hstart.turns rfl (n := s.buffer.bytes.count newline) (by omega)
  have hcount : (ebGetPos s.buffer.toPages s.charset s.total).1 = s.buffer.bytes.count newline := by
    have htotal := total_eq hwf
    obtain ⟨d, hd⟩ := hwf
    rw [htotal, ebGetPos_bytes hd.ok hu]
    exact congrArg (List.count newline) (List.take_length (l := s.buffer.toPages.bytes))
  have hcommand : s.doDeleteTrailingWhitespace = some s' := by rw [doDeleteTrailingWhitespace, hcount]; exact hrun
  rw [← hls, ← mapFirst_eq_map_iff, TrailingDeleted, ← hls]
  constructor
  · rintro ⟨s'', hs'', htext⟩
    obtain rfl : s' = s'' := Option.some.inj (hcommand.symm.trans hs'')
    rw [h'.text] at htext
    have hsplit := congrArg (List.splitOn newline) htext
    rwa [List.splitOn_intercalate newline h'.lines, List.splitOn_intercalate newline] at hsplit
    · intro l hl
      obtain ⟨m, hm, rfl⟩ := List.mem_map.mp hl
      exact newline_notMem_trimmed (hlines m hm)
    · simpa using hne
    · intro hnil
      have hlen := length_mapFirst (trimmedLines (s.buffer.bytes.count newline)) ls
      rw [hnil, List.length_nil] at hlen
      omega
  · intro hall
    exact ⟨s', hcommand, by rw [h'.text, hall]⟩

/-- A window on a text. -/
def blankWindow (text : List Byte) : Editor := Editor.new (Hoe.ebInsert (EditBuffer.new true) 0 text) .latin1 0

theorem blankWindow_wf (text : List Byte) : (blankWindow text).buffer.WellFormed :=
  ⟨_, ebInsert_stands (new_stands true) (Nat.zero_le _) text⟩

/-- The blank at the end of the first line is gone. -/
theorem trailing_deleted_first : TrailingDeleted (blankWindow [0x61, 0x20, newline, 0x62, newline]) :=
  (trailing_deleted_iff (blankWindow_wf _) rfl (by decide)).mpr (by decide)

/-- That at the end of a text without a newline is not. -/
theorem not_trailing_deleted : ¬∀ s : Editor, s.buffer.WellFormed → s.mode = .text → s.charset ≠ .utf8 → TrailingDeleted s := by
  intro h
  obtain ⟨s', hs', htext⟩ := h (blankWindow [0x61, 0x20]) (blankWindow_wf _) rfl (by decide)
  have hcommand : (blankWindow [0x61, 0x20]).doDeleteTrailingWhitespace = some { blankWindow [0x61, 0x20] with offset := 0 } := rfl
  obtain rfl := Option.some.inj (hcommand.symm.trans hs')
  revert htext
  decide

end Editor

end Hoe
