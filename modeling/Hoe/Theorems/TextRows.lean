import Hoe.Lemmas.Colorize
import Hoe.Theorems.Bol
import Hoe.Theorems.EveryOffset
import Hoe.Theorems.Movement

/-!
# The rows of the text mode

`text_display` shows a line on the rows that its characters have, wherever on the screen that is (`textDisplay_rows`). With
`text_backward_offset`, which finds the line of an offset, it lays out any text in a narrow window that wraps its lines
(`textMode_lays`).
-/

namespace Hoe

namespace TextDisplay

open Layout (CharCall CursorCall Setting Glyph Row AllWords columns place showLine showLine_rows showLine_calls offerGlyphs offerRows rows)

/-! ## The cells of a line -/

/-- The call for a cell of a row. -/
def callAt (n : Nat) (c : TextCell) : CursorCall := ⟨c.offset1, c.offset2, n, c.x, c.width, false⟩

/-- The calls for rows that are numbered from `n` on. -/
def numbered : Nat → List (List TextCell) → List CursorCall
  | _, [] => []
  | n, row :: rows => row.map (callAt n) ++ numbered (n + 1) rows

/-- Rows behind others have the numbers behind theirs. -/
theorem numbered_append (n : Nat) (a b : List (List TextCell)) : numbered n (a ++ b) = numbered n a ++ numbered (n + a.length) b := by
  induction a generalizing n with
  | nil => rfl
  | cons row a ih => rw [List.cons_append, numbered, numbered, ih, List.append_assoc, List.length_cons, Nat.add_right_comm, Nat.add_assoc]

/-- The cell of a place. -/
def cellAt (offset1 offset2 x width : Int) : List TextCell := if 0 ≤ offset1 ∧ 0 ≤ offset2 then [⟨offset1, offset2, x, width⟩] else []

/-- The cells of glyphs from a column on. -/
def glyphCells : List Glyph → Int → List TextCell
  | [], _ => []
  | g :: gs, x => cellAt g.offset1 g.offset2 x g.width ++ glyphCells gs (x + g.width)

/-- The cells of rows, of which the last one has the mark of the end behind it. -/
def rowsCells (e : Setting) (offset1 offset2 : Int) : List (List Glyph) → List (List TextCell)
  | [] => []
  | [row] => [glyphCells row e.xDisp ++ cellAt offset1 offset2 (e.xDisp + columns row) e.eolWidth]
  | row :: rows => glyphCells row e.xDisp :: rowsCells e offset1 offset2 rows

/-- The cells of a line of characters: those of its rows. -/
def cellsOfLine (e : Setting) (cs : List CharCall) (offset1 offset2 : Int) : List (List TextCell) := rowsCells e offset1 offset2 (rows e cs)

/-- The last row ends with the mark at the end of the line. -/
theorem rowsCells_concat (e : Setting) (offset1 offset2 : Int) (rows : List (List Glyph)) (last : List Glyph) :
    rowsCells e offset1 offset2 (rows ++ [last]) = rows.map (fun row => glyphCells row e.xDisp) ++
      [glyphCells last e.xDisp ++ cellAt offset1 offset2 (e.xDisp + columns last) e.eolWidth] := by
  induction rows with
  | nil => rfl
  | cons row rows ih =>
    rw [List.map_cons, List.cons_append, List.cons_append, ← ih]
    cases rows <;> rfl

/-- The cells of a row are the glyphs that are offered. -/
theorem offerGlyphs_cells {e : Setting} (hmode : e.hexMode = some false) {gs : List Glyph} (hgs : ∀ g ∈ gs, g.hexMode = false)
    (n : Nat) (x : Int) : offerGlyphs e n gs x = (glyphCells gs x).map (callAt n) := by
  induction gs generalizing x with
  | nil => rfl
  | cons g gs ih =>
    have hg := hgs g List.mem_cons_self
    have hshown : e.hexMode = some g.hexMode := by rw [hmode, hg]
    rw [offerGlyphs, glyphCells, List.map_append, ih fun g' hg' => hgs g' (List.mem_cons_of_mem g hg')]
    refine congrArg (· ++ _) ?_
    rw [cellAt]
    by_cases hplace : 0 ≤ g.offset1 ∧ 0 ≤ g.offset2
    · rw [if_pos ⟨Or.inr hshown, hplace⟩, if_pos hplace, hg]
      rfl
    · rw [if_neg fun h => hplace h.2, if_neg hplace]
      rfl

/-- So it is with all rows of a line. -/
theorem offerRows_cells {e : Setting} (hmode : e.hexMode = some false) {rows : List (List Glyph)}
    (hgs : ∀ g ∈ rows.flatten, g.hexMode = false) (n : Nat) :
    offerRows e n rows = numbered n (rows.map fun row => glyphCells row e.xDisp) := by
  induction rows generalizing n with
  | nil => rfl
  | cons row rows ih =>
    rw [List.flatten_cons] at hgs
    rw [offerRows, List.map_cons, numbered, ih fun g hg => hgs g (List.mem_append_right _ hg),
      offerGlyphs_cells hmode fun g hg => hgs g (List.mem_append_left _ hg)]

/-- A line of text that fits is shown on its rows, and `cursor_func` is called for their cells. -/
theorem showLine_cells {e : Setting} (he : e.Narrow) (hmode : e.hexMode = some false) (hwindow : e.windowHexMode = false)
    {cs : List CharCall} (hcs : ∀ c ∈ cs, c.hexMode = false) (hall : AllWords e (Row.Fits e) cs) (s : Layout.DisplayState)
    (offset1 offset2 : Int) :
    ∃ t, showLine e cs s offset1 offset2 = some t ∧ t.rows = s.rows ++ rows e cs ∧ t.lineNum = s.lineNum + (rows e cs).length ∧
      t.calls = s.calls ++ numbered s.lineNum (cellsOfLine e cs offset1 offset2) := by
  obtain ⟨t, ht, hshown, -⟩ := showLine_rows he hcs hall s offset1 offset2
  obtain ⟨new, last, hrows, hline, hcalls⟩ := showLine_calls ht
  have hsame := List.append_cancel_left (hshown.symm.trans hrows)
  have htext := Layout.rows_hexMode e hcs
  rw [hsame, List.flatten_append, List.flatten_singleton] at htext
  refine ⟨t, ht, hshown, ?_, ?_⟩
  · rw [hline, hsame, List.length_append]
    rfl
  · rw [hcalls, cellsOfLine, hsame, rowsCells_concat, numbered_append, numbered, numbered, List.append_nil, List.length_map,
      List.map_append, ← offerRows_cells hmode fun g hg => htext g (List.mem_append_left _ hg),
      ← offerGlyphs_cells hmode fun g hg => htext g (List.mem_append_right _ hg), Layout.offerRows_append, offerRows, offerRows,
      List.append_nil, cellAt, hwindow, List.append_assoc, List.append_assoc]
    refine congrArg (s.calls ++ ·) (congrArg _ (congrArg _ ?_))
    split_ifs <;> rfl

/-- The arrays take what fits. -/
theorem fits_of_takes {e : EditView} {cs : List CharCall} (h : AllWords e.setting Takes cs) : AllWords e.setting (Row.Fits e.setting) cs :=
  ((Layout.tests_fits e.setting Layout.stays_bare).line_iff Layout.showsWidth_bare (narrow_setting e) cs (displayInit 0 [])).1
    fun f hf => (((tests_takes e).line_iff Layout.showsWidth_bare (narrow_setting e) cs (displayInit 0 [])).2 h f hf).1

/-- `text_display` shows a line that fits on the rows that its characters have, whatever is on the screen above. -/
theorem textDisplay_cells (e : EditView) (r : Reader) (lineNum : Nat) (coloredChars : List Nat) (offset : Nat)
    (hall : AllWords e.setting (Row.Fits e.setting) (allChars e r lineNum coloredChars offset)) (s : Layout.DisplayState) :
    ∃ t, textDisplay e r lineNum coloredChars s offset = some (t, (lineEnd r r.turns offset).2.2) ∧
      t.rows = s.rows ++ rows e.setting (allChars e r lineNum coloredChars offset) ∧
      t.lineNum = s.lineNum + (rows e.setting (allChars e r lineNum coloredChars offset)).length ∧
      t.calls = s.calls ++ numbered s.lineNum (cellsOfLine e.setting (allChars e r lineNum coloredChars offset)
        (lineEnd r r.turns offset).1 (lineEnd r r.turns offset).2.1) := by
  obtain ⟨t', ht', hrows, hline, hcalls⟩ := showLine_cells (narrow_setting e) rfl rfl (hexMode_allChars e r lineNum coloredChars offset)
    hall s (lineEnd r r.turns offset).1 (lineEnd r r.turns offset).2.1
  have hshow := textDisplay_showLine e r lineNum coloredChars s offset
  rw [ht', Option.map_some] at hshow
  obtain ⟨p, hp, heq⟩ := Option.map_eq_some_iff.1 hshow
  have hnext : p.2 = (lineEnd r r.turns offset).2.2 := congrArg Prod.snd heq
  have hsame : p.1.asText = t'.asText := congrArg Prod.fst heq
  refine ⟨p.1, hp.trans (congrArg some (Prod.ext rfl hnext)), ?_, ?_, ?_⟩
  · exact (congrArg Layout.DisplayState.rows hsame).trans hrows
  · exact (congrArg Layout.DisplayState.lineNum hsame).trans hline
  · exact (congrArg Layout.DisplayState.calls hsame).trans hcalls

end TextDisplay

/-! ## The text mode -/

/-- A text in a window: its pages with their charset and what is on the stack, what `get_colorized_line` finds at an offset, and how
high the rows of a line are. -/
structure TextWindow where
  view : TextDisplay.EditView
  pages : Pages
  ok : pages.Ok
  charset : Charset
  stack : List Byte
  colored : Int → List Nat
  height : Int → Nat → Int
  height_pos : ∀ o n, 0 < height o n

namespace TextWindow

open TextDisplay

open Layout (CursorCall AllWords Row place)

variable (w : TextWindow)

/-- The text as the window reads it. -/
def reader : Reader := ⟨w.pages.bytes, w.charset, w.stack⟩

/-- `text_backward_offset`. -/
def textBackwardOffset (offset : Int) : Int := ebGotoPos w.pages w.reader (ebGetPos w.pages w.charset offset).1 0

/-- `text_display`, with the line number that `eb_get_pos` finds. -/
def textDisplay (s : Layout.DisplayState) (offset : Int) : Option (Layout.DisplayState × Int) :=
  TextDisplay.textDisplay w.view w.reader (ebGetPos w.pages w.charset offset).1 (w.colored offset) s offset

/-- The cells of a row. -/
def rowCells (calls : List CursorCall) (n : Nat) : List TextCell :=
  (calls.filter (·.lineNum = n)).map fun c => ⟨c.offset1, c.offset2, c.x, c.w⟩

/-- What the text mode shows of a line is what `text_display` shows of it at the top of the screen. -/
def textMode : TextMode where
  base _ := .ltr
  rows o := (w.textDisplay (TextDisplay.displayInit 0 []) o).elim [] fun d =>
    (List.range d.1.lineNum).map fun n => ⟨w.height o n, rowCells d.1.calls n⟩
  next o := (w.textDisplay (TextDisplay.displayInit 0 []) o).elim (-1) (·.2)
  backwardOffset := w.textBackwardOffset

variable {w}

/-- The cells with a number are those of the row that has it. -/
theorem rowCells_map (row : List TextCell) (k n : Nat) : rowCells (row.map (callAt k)) n = if k = n then row else [] := by
  split <;> rename_i h <;> simp [rowCells, List.filter_map, Function.comp_def, callAt, h]

/-- The same of rows that are numbered on. -/
theorem rowCells_numbered (rows : List (List TextCell)) (k n : Nat) :
    rowCells (numbered k rows) n = if k ≤ n then rows.getD (n - k) [] else [] := by
  induction rows generalizing k with
  | nil => simp [numbered, rowCells]
  | cons row rows ih =>
    have hsplit : rowCells (numbered k (row :: rows)) n = rowCells (row.map (callAt k)) n ++ rowCells (numbered (k + 1) rows) n := by
      simp [numbered, rowCells]
    rw [hsplit, rowCells_map, ih]
    rcases Nat.lt_trichotomy k n with hlt | rfl | hgt
    · have hsub : n - k = n - (k + 1) + 1 := by omega
      rw [if_neg hlt.ne, if_pos (show k + 1 ≤ n from hlt), if_pos hlt.le, hsub, List.nil_append, List.getD_cons_succ]
    · simp
    · rw [if_neg hgt.ne', if_neg (by omega), if_neg (by omega), List.nil_append]

/-! ## Where lines begin and end -/

/-- `text_backward_offset` goes to the beginning of the line. -/
theorem textBackwardOffset_eq {o : Nat} (ho : o ≤ w.pages.bytes.length) : w.textBackwardOffset o = bolOf w.pages.bytes o := by
  have hcount : (w.pages.bytes.take o).count newline ≤ w.pages.bytes.count newline := (List.take_sublist o _).count_le newline
  rw [textBackwardOffset, ebGetPos_line w.ok, ebGotoPos_bol w.ok rfl hcount, bolOf_eq_skipLines _ ho]

/-- Where there is no newline, the line goes on. -/
theorem bolOf_same {text : List Byte} {o c : Nat} (hle : o ≤ c) (h : ∀ i, o ≤ i → i < c → text.getD i 0 ≠ newline) :
    bolOf text c = bolOf text o := by
  induction c with
  | zero => rw [Nat.le_zero.1 hle]
  | succ c ih =>
    rcases Nat.eq_or_lt_of_le hle with rfl | hlt
    · rfl
    · rw [bolOf, if_neg (h c (Nat.le_of_lt_succ hlt) (Nat.lt_succ_self c))]
      exact ih (Nat.le_of_lt_succ hlt) fun i hi hic => h i hi (Nat.lt_succ_of_lt hic)

/-- A line begins behind a newline. -/
theorem lt_bolOf {text : List Byte} {x c : Nat} (hx : text.getD x 0 = newline) (h : x < c) : x < bolOf text c := by
  by_contra hle
  exact (bolOf_spec text).2.1 x (not_lt.1 hle) h hx

/-- There it stays. -/
theorem bolOf_bolOf (text : List Byte) (c : Nat) : bolOf text (bolOf text c) = bolOf text c :=
  (bolOf_same (bolOf_spec text).1 (bolOf_spec text).2.1).symm

/-- The line ends in front of the next newline, or with the text or a character that is cut off there. -/
theorem exists_lineEnd {n o : Nat} (hn : Enough w.reader n o) :
    ∃ x : Nat, o ≤ x ∧ (∀ i, o ≤ i → i < x → w.pages.bytes.getD i 0 ≠ newline) ∧
      (w.pages.bytes.length ≤ x ∧ lineEnd w.reader n o = ((x : Int), (x : Int) + 1, -1) ∨
        x < w.pages.bytes.length ∧ w.pages.bytes.getD x 0 = newline ∧ lineEnd w.reader n o = ((x : Int), (x : Int) + 1, (x : Int) + 1)) := by
  induction n generalizing o with
  | zero => exact absurd hn.pos (Nat.lt_irrefl 0)
  | succ n ih =>
    rw [lineEnd]
    by_cases hend : w.reader.total ≤ o
    · exact ⟨o, Nat.le_refl o, fun i hi hio => absurd hio (Nat.not_lt.2 hi), .inl ⟨Int.ofNat_le.1 hend, if_pos hend⟩⟩
    · have hlt : o < w.reader.text.length := Nat.lt_of_not_le fun hle => hend (Int.ofNat_le.2 hle)
      have hiff : (w.reader.nextc o).1 = newline ↔ w.pages.bytes.getD o 0 = newline := by
        rw [Reader.nextc_newline hlt]
        exact (getD_of_lt _ hlt).symm ▸ Iff.rfl
      rw [if_neg hend]
      by_cases hline : (w.reader.nextc o).1 = newline
      · have hbyte : w.reader.text[o] = newline := (Reader.nextc_newline hlt).1 hline
        rw [if_pos hline, Reader.nextc_at_newline hlt hbyte]
        exact ⟨o, Nat.le_refl o, fun i hi hio => absurd hio (Nat.not_lt.2 hi), .inr ⟨hlt, hiff.1 hline, rfl⟩⟩
      · obtain ⟨o', hnext, hfwd, hstop⟩ := Reader.nextc_le hlt
        have hn' := hn.next hend
        rw [hnext] at hn' ⊢
        obtain ⟨x, hle, hnone, hcases⟩ := ih hn'
        refine ⟨x, by omega, fun i hi hix hnl => ?_, by rwa [if_neg hline]⟩
        rcases Nat.eq_or_lt_of_le hi with rfl | hoi
        · exact hline (hiff.2 hnl)
        · rcases Nat.lt_or_ge i w.pages.bytes.length with hin | hout
          · exact hnone i (hstop i hoi hin hnl) hix hnl
          · rw [List.getD_eq_default _ _ hout] at hnl
            cases hnl

/-- The next line begins behind the offset. -/
theorem lt_lineEnd {r : Reader} {n : Nat} {o : Int} (hn : Enough r n o) : o < (lineEnd r n o).2.1 := by
  induction n generalizing o with
  | zero => exact absurd hn.pos (Nat.lt_irrefl 0)
  | succ n ih =>
    rw [lineEnd]
    split_ifs with hend hline
    · exact Int.lt_succ o
    · exact lt_nextc r (not_le.1 hend)
    · exact (lt_nextc r (not_le.1 hend)).trans (ih (hn.next hend))

/-- How many of these places show an offset. -/
def countAt (c : Int) (ps : List (Int × Int)) : Nat := (ps.filter fun p => decide (p.1 ≤ c) && decide (c < p.2)).length

theorem countAt_cons (c : Int) (p : Int × Int) (ps : List (Int × Int)) :
    countAt c (p :: ps) = (if p.1 ≤ c ∧ c < p.2 then 1 else 0) + countAt c ps := by
  by_cases h : p.1 ≤ c ∧ c < p.2
  · simp [countAt, h, Nat.add_comm]
  · have hfalse : (decide (p.1 ≤ c) && decide (c < p.2)) = false := by simpa using h
    simp [countAt, h, hfalse]

/-- From an offset on, the line has each offset once, up to its end. -/
theorem countAt_lineOffsets {r : Reader} {n : Nat} {o : Int} (hn : Enough r n o) (c : Int) :
    countAt c (lineOffsets r n o) = if o ≤ c ∧ c < (lineEnd r n o).2.1 then 1 else 0 := by
  induction n generalizing o with
  | zero => exact absurd hn.pos (Nat.lt_irrefl 0)
  | succ n ih =>
    have hnil : countAt c [] = 0 := rfl
    rw [lineOffsets, lineEnd]
    by_cases hend : r.total ≤ o
    · rw [if_pos hend, if_pos hend, countAt_cons, hnil, Nat.add_zero]
    · have hnext := lt_nextc r (not_le.1 hend)
      rw [if_neg hend, if_neg hend, countAt_cons]
      by_cases hline : (r.nextc o).1 = newline
      · rw [if_pos hline, if_pos hline, hnil, Nat.add_zero]
      · have hlt := lt_lineEnd (hn.next hend)
        rw [if_neg hline, if_neg hline, ih (hn.next hend)]
        split_ifs <;> omega

/-! ## A line in the window -/

/-- The offsets of the cells of rows. -/
def rowPlaces (rows : List (List TextCell)) : List (Int × Int) := rows.flatten.map fun c => (c.offset1, c.offset2)

/-- The numbers of the rows do not matter for the offsets. -/
theorem places_numbered (n : Nat) (rows : List (List TextCell)) : places (numbered n rows) = rowPlaces rows := by
  induction rows generalizing n with
  | nil => rfl
  | cons row rows ih =>
    rw [numbered, places, List.map_append, rowPlaces, List.flatten_cons, List.map_append, List.map_map]
    exact congrArg (_ ++ ·) (ih (n + 1))

/-- The characters that `text_display` gives the layout for the line at an offset. -/
def lineChars (w : TextWindow) (o : Nat) : List Layout.CharCall :=
  allChars w.view w.reader (ebGetPos w.pages w.charset o).1 (w.colored o) o

/-- The cells of their rows. -/
def lineRows (w : TextWindow) (o : Nat) : List (List TextCell) :=
  cellsOfLine w.view.setting (w.lineChars o) (lineEnd w.reader w.reader.turns o).1 (lineEnd w.reader w.reader.turns o).2.1

/-- A line has as many rows as its layout. -/
theorem length_cellsOfLine (e : Layout.Setting) (cs : List Layout.CharCall) (offset1 offset2 : Int) :
    (cellsOfLine e cs offset1 offset2).length = (Layout.rows e cs).length := by
  rw [cellsOfLine, Layout.rows, rowsCells_concat, List.length_append, List.length_append, List.length_map]
  rfl

/-- Wherever the line is displayed, it has these rows. -/
theorem textDisplay_lineRows (hw : w.view.Narrow) (o : Nat) (s : Layout.DisplayState) :
    ∃ t, w.textDisplay s o = some (t, (lineEnd w.reader w.reader.turns o).2.2) ∧ t.lineNum = s.lineNum + (w.lineRows o).length ∧
      t.calls = s.calls ++ numbered s.lineNum (w.lineRows o) := by
  obtain ⟨t, ht, -, hline, hcalls⟩ := textDisplay_cells w.view w.reader (ebGetPos w.pages w.charset o).1 (w.colored o) o
    (fits_of_takes (takes_of_narrow hw _)) s
  exact ⟨t, ht, by rw [lineRows, length_cellsOfLine, lineChars, hline], hcalls⟩

/-- They show its offsets. -/
theorem rowPlaces_lineRows (hw : w.view.Narrow) (o : Nat) : rowPlaces (w.lineRows o) = lineOffsets w.reader w.reader.turns o := by
  obtain ⟨t, ht, -, hcalls⟩ := textDisplay_lineRows hw o (TextDisplay.displayInit 0 [])
  obtain ⟨t', next, ht', hoffers⟩ := offersEach_of_narrow hw w.reader (ebGetPos w.pages w.charset o).1 (w.colored o)
    (TextDisplay.displayInit 0 []) o
  obtain ⟨rfl, -⟩ := Prod.mk.inj (Option.some.inj (ht.symm.trans ht'))
  rw [hcalls] at hoffers
  exact (places_numbered 0 (w.lineRows o)).symm.trans hoffers

/-- The mode has the rows of the line. -/
theorem textMode_line (hw : w.view.Narrow) (o : Nat) :
    w.textMode.next o = (lineEnd w.reader w.reader.turns o).2.2 ∧ (w.textMode.rows o).map (·.cells) = w.lineRows o ∧
      ∀ r ∈ w.textMode.rows o, 0 < r.height := by
  obtain ⟨t, ht, hline, hcalls⟩ := textDisplay_lineRows hw o (TextDisplay.displayInit 0 [])
  have hline : t.lineNum = 0 + (w.lineRows o).length := hline
  have hcalls : t.calls = [] ++ numbered 0 (w.lineRows o) := hcalls
  rw [Nat.zero_add] at hline
  rw [List.nil_append] at hcalls
  have hrows : w.textMode.rows o = (List.range (w.lineRows o).length).map fun n => ⟨w.height o n, (w.lineRows o).getD n []⟩ := by
    simp only [TextWindow.textMode, ht, Option.elim_some, hline, hcalls, rowCells_numbered, Nat.zero_le, if_true, Nat.sub_zero]
  refine ⟨?_, ?_, ?_⟩
  · simp only [TextWindow.textMode, ht, Option.elim_some]
  · rw [hrows, List.map_map]
    refine List.ext_getElem (by simp) fun n hn hn' => ?_
    simp [List.getD_eq_getElem?_getD, List.getElem?_eq_getElem hn']
  · rw [hrows]
    simp [w.height_pos]

/-- Each offset of a line is offered once in it, and no other is. -/
theorem offers_textMode (hw : w.view.Narrow) (o : Nat) (c : Int) :
    offers (w.textMode.rows o) c = if (o : Int) ≤ c ∧ c < (lineEnd w.reader w.reader.turns o).2.1 then 1 else 0 := by
  rw [← countAt_lineOffsets (enough_turns w.reader o) c, ← rowPlaces_lineRows hw o, rowPlaces, ← (textMode_line hw o).2.1, countAt,
    List.filter_map, List.length_map, offers, List.flatMap_def]
  rfl

/-- A newline and a byte that goes on with no character, in a window of 80 columns. -/
def strayWindow : TextWindow where
  view := { truncating with wrap := .line }
  pages := strayBuffer.toPages
  ok := strayBuffer_ok
  charset := .utf8
  stack := []
  colored _ := []
  height _ _ := 1
  height_pos _ _ := Int.one_pos

theorem strayWindow_narrow : strayWindow.view.Narrow := ⟨rfl, rfl, by decide, by decide⟩

/-- `text_display` shows a line the same way wherever on the screen it is: the rows are those that its characters have, and
`cursor_func` is called for the cells of these, row by row and in their order. The rows of the text mode have these cells. -/
theorem textDisplay_rows (hw : w.view.Narrow) (o : Nat) (s : Layout.DisplayState) :
    ∃ t, w.textDisplay s o = some (t, w.textMode.next o) ∧
      t.rows = s.rows ++ Layout.rows w.view.setting (w.lineChars o) ∧ t.lineNum = s.lineNum + (w.textMode.rows o).length ∧
      t.calls = s.calls ++ numbered s.lineNum (w.lineRows o) ∧ (w.textMode.rows o).map (·.cells) = w.lineRows o := by
  obtain ⟨t, ht, hrows, hline, hcalls⟩ := textDisplay_cells w.view w.reader (ebGetPos w.pages w.charset o).1 (w.colored o) o
    (fits_of_takes (takes_of_narrow hw _)) s
  obtain ⟨hnext, hcells, -⟩ := textMode_line hw o
  have hlength : (w.textMode.rows o).length = (Layout.rows w.view.setting (w.lineChars o)).length := by
    rw [← List.length_map (f := (·.cells)), hcells, lineRows, length_cellsOfLine]
  exact ⟨t, by rw [hnext]; exact ht, hrows, by rw [hlength]; exact hline, hcalls, hcells⟩

/-- A text that begins with a stray byte. -/
theorem textDisplay_rows_stray :
    ∃ t, strayWindow.textDisplay (TextDisplay.displayInit 5 []) 0 = some (t, strayWindow.textMode.next 0) ∧
      t.rows = [] ++ Layout.rows strayWindow.view.setting (strayWindow.lineChars 0) ∧
      t.lineNum = 5 + (strayWindow.textMode.rows 0).length ∧ t.calls = [] ++ numbered 5 (strayWindow.lineRows 0) ∧
      (strayWindow.textMode.rows 0).map (·.cells) = strayWindow.lineRows 0 :=
  textDisplay_rows strayWindow_narrow 0 (TextDisplay.displayInit 5 [])

/-- The text mode lays out any text, of whatever bytes, when the window wraps its lines. -/
theorem textMode_lays (hw : w.view.Narrow) : w.textMode.Lays w.pages.totalSize := by
  have hlen := w.ok.length_bytes
  have hback : ∀ c : Nat, (c : Int) ≤ w.pages.totalSize → w.textMode.backwardOffset c = bolOf w.pages.bytes c := by
    intro c hc
    exact textBackwardOffset_eq (by omega)
  have hends : ∀ o : Nat, ∃ x : Nat, o ≤ x ∧ (∀ i, o ≤ i → i < x → w.pages.bytes.getD i 0 ≠ newline) ∧
      (w.pages.bytes.length ≤ x ∧ lineEnd w.reader w.reader.turns o = ((x : Int), (x : Int) + 1, -1) ∨
        x < w.pages.bytes.length ∧ w.pages.bytes.getD x 0 = newline ∧
          lineEnd w.reader w.reader.turns o = ((x : Int), (x : Int) + 1, (x : Int) + 1)) :=
    fun o => exists_lineEnd (enough_turns w.reader o)
  refine ⟨?_, ?_, ?_, ?_⟩
  · intro o h0 hle
    obtain ⟨o, rfl⟩ := Int.eq_ofNat_of_zero_le h0
    have hbol := (bolOf_spec w.pages.bytes (o := o)).1
    rw [hback o hle, hback (bolOf w.pages.bytes o) (by omega), bolOf_bolOf]
    omega
  · intro o h0 hle hline
    obtain ⟨o, rfl⟩ := Int.eq_ofNat_of_zero_le h0
    obtain ⟨x, hox, hnone, hcases⟩ := hends o
    rw [hback o hle] at hline
    have hmine : ∀ c : Int, o ≤ c → c ≤ x → c ≤ w.pages.totalSize → w.textMode.backwardOffset c = o := by
      intro c hoc hcx hc
      obtain ⟨c, rfl⟩ := Int.eq_ofNat_of_zero_le (h0.trans hoc)
      rw [hback c hc, bolOf_same (by omega) fun i hi hic => hnone i hi (by omega), hline]
    rcases hcases with ⟨hlast, hend⟩ | ⟨hx, hnl, hend⟩
    · have hnext : w.textMode.next o = -1 := by rw [(textMode_line hw o).1, hend]
      exact .inl ⟨by omega, fun c hoc hc => hmine c hoc (by omega) hc⟩
    · have hnext : w.textMode.next o = (x : Int) + 1 := by rw [(textMode_line hw o).1, hend]
      rw [hnext]
      refine .inr ⟨by omega, by omega, ?_, fun c hoc hcx => hmine c hoc (by omega) (by omega), fun c hxc hc => ?_⟩
      · rw [show (x : Int) + 1 = ((x + 1 : Nat) : Int) from rfl, hback (x + 1) (by omega), bolOf, if_pos hnl]
      · obtain ⟨c, rfl⟩ := Int.eq_ofNat_of_zero_le (show 0 ≤ c by omega)
        have hlt := lt_bolOf (c := c) hnl (by omega)
        rw [hback c hc]
        omega
  · intro o h0 hle hline
    obtain ⟨o, rfl⟩ := Int.eq_ofNat_of_zero_le h0
    refine ⟨fun hnil => ?_, (textMode_line hw o).2.2⟩
    have hone := offers_textMode hw o o
    rw [hnil, if_pos ⟨le_refl _, lt_lineEnd (enough_turns w.reader o)⟩] at hone
    cases hone
  · intro o c h0 hle hline hc0 hc
    obtain ⟨o, rfl⟩ := Int.eq_ofNat_of_zero_le h0
    obtain ⟨c, rfl⟩ := Int.eq_ofNat_of_zero_le hc0
    obtain ⟨x, hox, hnone, hcases⟩ := hends o
    have hend : (lineEnd w.reader w.reader.turns o).2.1 = x + 1 := by
      rcases hcases with ⟨-, hend⟩ | ⟨-, -, hend⟩ <;> rw [hend]
    rw [hback o hle] at hline
    rw [offers_textMode hw, hend, hback c hc]
    refine if_congr (Iff.intro ?_ fun hbol => ?_) rfl rfl
    · rintro ⟨hoc, hcx⟩
      rw [bolOf_same (show o ≤ c by omega) fun i hi hic => hnone i hi (by omega), hline]
    · have hle := (bolOf_spec w.pages.bytes (o := c)).1
      refine ⟨by omega, ?_⟩
      by_contra hlt
      rcases hcases with ⟨hlast, -⟩ | ⟨-, hnl, -⟩
      · omega
      · have := lt_bolOf (c := c) hnl (by omega)
        omega

/-- The same text is laid out. -/
theorem textMode_lays_stray : strayWindow.textMode.Lays strayWindow.pages.totalSize := textMode_lays strayWindow_narrow

end TextWindow

end Hoe
