import Hoe.Lemmas.CIndent
import Hoe.Lemmas.ChangeCase

/-!
# Columns written and measured

`insert_spaces` writes an indentation, `find_indent1` measures it. The blanks of the one are those that the other counts, and it
stops at what is behind them, unless that is a character which the 20 bits of a cell cut down to a blank.
-/

namespace Hoe

open Splice

namespace Reader

variable {r r' : Reader}

/-- `eb_nextc` looks at nothing in front of the offset. -/
theorem nextc_drop (hc : r'.charset = r.charset) (hs : r'.stack = r.stack) {o o' : Nat}
    (h : r'.text.drop o' = r.text.drop o) : (r'.nextc o').1 = (r.nextc o).1 := by
  have hlen := congrArg List.length h
  rw [List.length_drop, List.length_drop] at hlen
  by_cases ho : o < r.text.length
  · have hbyte : r'.byte o' = r.byte o := by
      have hhead := congrArg (·.getD 0 0) h
      simpa [byte, List.getD_eq_getElem?_getD] using hhead
    have hslice : slice r'.text o' maxCharBytes = slice r.text o maxCharBytes := by rw [slice, slice, h]
    have hin : ¬r.total ≤ (o : Int) := by rw [total]; omega
    have hin' : ¬r'.total ≤ (o' : Int) := by rw [total]; omega
    unfold nextc
    simp only [if_neg hin, if_neg hin', hbyte, hc, hs, Int.toNat_natCast, hslice]
    split_ifs <;> rfl
  · rw [nextc_end r (by rw [total]; omega), nextc_end r' (by rw [total]; omega)]

/-- The blanks of a line are read one by one. -/
theorem lineFrom_blanks {blanks back : List Byte} (hb : ∀ c ∈ blanks, isSpaceOrTab c = true) {n o : Nat}
    (hn : blanks.length ≤ n) (h : r.text.drop o = blanks ++ back) :
    r.lineFrom n o = blanks ++ r.lineFrom (n - blanks.length) ((o + blanks.length : Nat) : Int) := by
  induction blanks generalizing n o with
  | nil => rfl
  | cons c blanks ih =>
    obtain ⟨n, rfl⟩ : ∃ k, n = k + 1 := ⟨n - 1, by rw [List.length_cons] at hn; omega⟩
    obtain ⟨ho, hget⟩ := lt_of_drop_cons (x := blanks ++ back) h
    have hblank := hb c List.mem_cons_self
    have hlow : c < 0x80 ∧ c ≠ newline := by
      rcases of_decide_eq_true hblank with rfl | rfl <;> decide
    have hnext := Editor.nextc_low ho (by rw [hget]; exact hlow.1)
    rw [hget] at hnext
    have hrest : r.text.drop (o + 1) = blanks ++ back := by rw [← List.drop_drop, h]; rfl
    rw [lineFrom, hnext, if_neg hlow.2, ih (fun x hx => hb x (List.mem_cons_of_mem _ hx)) (by simpa using hn) hrest,
      List.length_cons, List.cons_append, Nat.add_sub_add_right, Nat.add_right_comm, Nat.add_assoc]

/-- A line begins with the character at its offset, if it has one. -/
theorem head?_lineFrom (n : Nat) (o : Int) : ∀ c ∈ (r.lineFrom n o).head?, c = (r.nextc o).1 := by
  cases n with
  | zero => simp [lineFrom]
  | succ n =>
    rw [lineFrom]
    split_ifs
    · simp
    · simp

end Reader

/-- `insert_spaces` at the beginning of a line, in front of a character that is no blank in a cell, puts blanks there and moves the
offset behind them, to the text that followed; `find_indent1` of the line is then the column that was asked for, whatever the
array holds behind the newline. -/
theorem findIndent1_insertSpaces {w : CWindow} (hwf : w.buffer.WellFormed) (htab : 2 ≤ w.tabSize) {l : Nat}
    (hl : l ≤ w.buffer.bytes.count newline)
    (hnext : charMask (w.reader.nextc (skipLines l w.buffer.bytes : Nat)).1 ≠ ' '.toNat ∧
      charMask (w.reader.nextc (skipLines l w.buffer.bytes : Nat)).1 ≠ '\t'.toNat) {i : Int} (hi : 0 ≤ i) :
    ∃ w' : CWindow, ∃ blanks : List Byte, (∀ c ∈ blanks, c = ' '.toNat ∨ c = '\t'.toNat) ∧
      w.insertSpaces (skipLines l w.buffer.bytes : Nat) i =
        some (w', ((skipLines l w.buffer.bytes + blanks.length : Nat) : Int)) ∧
      w'.buffer.bytes = w.buffer.bytes.take (skipLines l w.buffer.bytes) ++ blanks ++
        w.buffer.bytes.drop (skipLines l w.buffer.bytes) ∧
      ∀ rest, (findIndent1 w.tabSize (w'.line l ++ newline :: rest) 0 : Int) = i := by
  have hcount : (w.buffer.bytes.take (skipLines l w.buffer.bytes)).count newline = l :=
    congrArg Prod.fst (posOf_lineStart hl)
  have hfront : (w.buffer.bytes.take (skipLines l w.buffer.bytes)).length = skipLines l w.buffer.bytes :=
    List.length_take_of_le ((Nat.le_add_right _ _).trans (line_le w.buffer.bytes hl))
  obtain ⟨o, ho⟩ : ∃ o, o = skipLines l w.buffer.bytes := ⟨_, rfl⟩
  obtain ⟨blanks, hblanks⟩ : ∃ blanks, blanks = CWindow.indentBlanks w.tabSize w.indentTabsMode i := ⟨_, rfl⟩
  have hblank : ∀ c ∈ blanks, isSpaceOrTab c = true := by
    rw [hblanks]
    exact CWindow.indentBlanks_blank _ _ i
  rw [← ho] at hnext hcount hfront ⊢
  obtain ⟨w', hrun, hleads⟩ := (CWindow.keptByInserts_stack w.stack).insertSpaces ⟨hwf, rfl⟩ (by omega)
    (List.take_append_drop o w.buffer.bytes).symm i
  rw [← hblanks, List.length_append, hfront] at hrun
  obtain ⟨⟨-, hstack⟩, htext, halike⟩ := hleads
  rw [← hblanks] at htext
  refine ⟨w', blanks, ?_, hrun, htext, ?_⟩
  · exact fun c hc => of_decide_eq_true (hblank c hc)
  · intro rest
    -- the line begins where it began, with the blanks
    have hline : skipLines l w'.buffer.bytes = o := by
      have h := skipLines_append hcount.ge (w.buffer.bytes.drop o)
      rw [List.take_append_drop] at h
      rw [htext, List.append_assoc, skipLines_append hcount.ge, ← h, ho]
    have hdrop : w'.reader.text.drop o = blanks ++ w.buffer.bytes.drop o := by
      have h : w'.reader.text = w'.buffer.bytes := rfl
      rw [h, htext, List.append_assoc, List.drop_left' hfront]
    have hturns : blanks.length ≤ w'.reader.turns := by
      have h := congrArg List.length hdrop
      rw [List.length_drop, List.length_append] at h
      rw [Reader.turns]
      omega
    have hcells : w'.line l = blanks ++ w'.reader.lineFrom (w'.reader.turns - blanks.length)
        ((o + blanks.length : Nat) : Int) := by
      have h : w'.line l = w'.reader.lineFrom w'.reader.turns (skipLines l w'.buffer.bytes : Nat) := rfl
      rw [h, hline, Reader.lineFrom_blanks hblank hturns hdrop]
    have hchar : (w'.reader.nextc ((o + blanks.length : Nat) : Int)).1 = (w.reader.nextc (o : Nat)).1 := by
      refine Reader.nextc_drop halike.charset hstack ?_
      rw [← List.drop_drop, hdrop, List.drop_left]
      rfl
    rw [findIndent1_newline _ _ (charMask_of_lt (by decide)), hcells, hblanks, findIndent1_indentBlanks, Int.toNat_of_nonneg hi]
    intro c hc
    rw [← hblanks] at hc
    rw [Reader.head?_lineFrom _ _ c hc, hchar]
    exact hnext

/-- A window with tabs, and 21 columns in front of the second line of its text. -/
theorem findIndent1_insertSpaces_tabs :
    let w : CWindow := { cWindow (charsOf "a\nb") 2 ⟨false, 80, by decide⟩ with indentTabsMode := true }
    ∃ w' : CWindow, w.insertSpaces 2 21 = some (w', 9) ∧ (findIndent1 8 (w'.line 1 ++ newline :: []) 0 : Int) = 21 := by
  intro w
  have hbytes : w.buffer.bytes = charsOf "a\nb" := cWindow_bytes (charsOf "a\nb") 2 ⟨false, 80, by decide⟩
  have hwf : w.buffer.WellFormed := ⟨_, ebInsert_stands (new_stands true) (Nat.zero_le _) (charsOf "a\nb")⟩
  have hskip : skipLines 1 w.buffer.bytes = 2 := by rw [hbytes]; decide
  obtain ⟨w', blanks, -, hrun, -, hfind⟩ := findIndent1_insertSpaces (w := w) (l := 1) (i := 21) hwf (by decide)
    (by rw [hbytes]; decide) (by rw [hskip]; decide +kernel) (by decide)
  rw [hskip] at hrun
  have hrun : w.insertSpaces 2 21 = some (w', ((2 + blanks.length : Nat) : Int)) := hrun
  have hoffset : (w.insertSpaces 2 21).map Prod.snd = some 9 := by decide +kernel
  refine ⟨w', ?_, hfind []⟩
  rw [hrun] at hoffset ⊢
  exact congrArg (fun o => some (w', o)) (Option.some.inj hoffset)

/-- A text whose first character is U+100020: not a blank, but its 20 bits in a cell are those of a space. -/
theorem not_findIndent1_insertSpaces :
    ¬∀ (w : CWindow) (l : Nat) (i : Int), w.buffer.WellFormed → 2 ≤ w.tabSize → l ≤ w.buffer.bytes.count newline →
      (w.reader.nextc (skipLines l w.buffer.bytes : Nat)).1 ≠ ' '.toNat →
      (w.reader.nextc (skipLines l w.buffer.bytes : Nat)).1 ≠ '\t'.toNat → 0 ≤ i →
      ∀ w' o', w.insertSpaces (skipLines l w.buffer.bytes : Nat) i = some (w', o') →
        (findIndent1 w.tabSize (w'.line l ++ [newline]) 0 : Int) = i := by
  intro h
  obtain ⟨w, hw⟩ : ∃ w : CWindow,
      w = { cWindow [0xf4, 0x80, 0x80, 0xa0] 0 ⟨false, 80, by decide⟩ with charset := .utf8 } := ⟨_, rfl⟩
  have hwf : w.buffer.WellFormed := by
    rw [hw]
    exact ⟨_, ebInsert_stands (new_stands true) (Nat.zero_le _) _⟩
  have hrun : w.insertSpaces (skipLines 0 w.buffer.bytes : Nat) 0 = some (w, 0) := by
    rw [hw]
    rfl
  have hone := h w 0 0 hwf (by rw [hw]; decide) (Nat.zero_le _) (by rw [hw]; decide +kernel) (by rw [hw]; decide +kernel)
    (le_refl 0) w 0 hrun
  have hval : findIndent1 w.tabSize (w.line 0 ++ [newline]) 0 = 1 := by
    rw [hw]
    decide +kernel
  rw [hval] at hone
  cases hone

end Hoe
