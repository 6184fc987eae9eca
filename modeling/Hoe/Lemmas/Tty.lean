import Hoe.Tty

/-!
# Helpers for `Theorems/Terminal.lean`: cells, rows and what is printed

A rectangle of the screen is reached cell by cell (`getElem?_changeRows`), a text changes cells of its row only (`Reworked`), and
what `term_flush` prints for a row writes that row on the terminal (`flushCells_spec`).
-/

namespace Hoe

open Splice

/-! ## Colours -/

/-- The terminal has eight colors. -/
theorem getTtyColor_lt (color : Nat) : getTtyColor color < 8 := by
  have hfold : ∀ (cs : List (Nat × Nat)), (∀ c ∈ cs, c.2 < 8) → ∀ best : Nat × Nat, best.1 < 8 →
      (cs.foldl (nearer color) best).1 < 8 := by
    intro cs
    induction cs with
    | nil => exact fun _ best hbest => hbest
    | cons c cs ih =>
      intro hcs best hbest
      refine ih (fun d hd => hcs d (List.mem_cons_of_mem _ hd)) _ ?_
      rw [nearer]
      split_ifs
      · exact hcs c List.mem_cons_self
      · exact hbest
  exact hfold _ (by decide) _ (by decide)

/-! ## Cells -/

/-- A cell that shows: a character from 32 to 255 and two colours of the terminal. -/
structure TTYChar.Printable (c : TTYChar) : Prop where
  visible : 0x20 ≤ c.ch
  latin : c.ch ≤ 0xff
  bg : c.bgcolor < 8
  fg : c.fgcolor < 8

/-- A glyph of latin1 on a cell can be shown. -/
theorem printable_inkCell {c : TTYChar} (h : c.Printable) {fg ch : Nat} (hfg : fg < 8) (hch : 0x20 ≤ ch ∧ ch ≤ 0xff) :
    (inkCell fg ch c).Printable := by
  have hmod : ch % 0x10000 = ch := Nat.mod_eq_of_lt (by omega)
  refine ⟨?_, ?_, h.bg, hfg⟩
  · rw [inkCell, hmod]
    exact hch.1
  · rw [inkCell, hmod]
    exact hch.2

theorem xor_seven_lt {a : Nat} (h : a < 8) : a ^^^ 7 < 8 := by
  have hpow : a < 2 ^ 3 := h
  exact Nat.xor_lt_two_pow hpow (by decide)

/-- So can a cell that is filled. -/
theorem printable_fillCell {color : Nat} {c : TTYChar} (h : color ≠ qecolorXor ∨ c.Printable) : (fillCell color c).Printable := by
  rw [fillCell]
  split_ifs with hxor
  · rcases h with h | h
    · exact absurd hxor h
    · exact ⟨h.visible, h.latin, xor_seven_lt h.bg, xor_seven_lt h.fg⟩
  · have hbg := getTtyColor_lt color
    generalize getTtyColor color = bg at hbg
    refine ⟨?_, ?_, hbg, ?_⟩ <;> simp

theorem length_changeCells (f : TTYChar → TTYChar) (n : Nat) (cells : List TTYChar) (ptr : Nat) :
    (changeCells f n cells ptr).length = cells.length := by
  induction n generalizing cells ptr with
  | zero => rfl
  | succ n ih => rw [changeCells, ih, List.length_modify]

/-- Just the cells of the part are changed. -/
theorem getElem?_changeCells (f : TTYChar → TTYChar) (n : Nat) (cells : List TTYChar) (ptr i : Nat) :
    (changeCells f n cells ptr)[i]? = if ptr ≤ i ∧ i < ptr + n then cells[i]?.map f else cells[i]? := by
  induction n generalizing cells ptr with
  | zero => rw [changeCells, if_neg (by omega)]
  | succ n ih =>
    rw [changeCells, ih, List.getElem?_modify]
    by_cases hi : ptr = i
    · simp only [if_pos hi]
      rw [if_neg (by omega), if_pos (by omega)]
      rfl
    · simp only [if_neg hi, Option.map_eq_map, Option.map_id']
      by_cases hin : ptr ≤ i ∧ i < ptr + (n + 1)
      · rw [if_pos (by omega), if_pos hin]
      · rw [if_neg (by omega), if_neg hin]

theorem length_changeRows (f : TTYChar → TTYChar) (w wrap h : Nat) (cells : List TTYChar) (ptr : Nat) :
    (changeRows f w wrap h cells ptr).length = cells.length := by
  induction h generalizing cells ptr with
  | zero => rfl
  | succ h ih => rw [changeRows, ih, length_changeCells]

/-- Where a cell of the screen lies among `w` cells of a row. -/
theorem cell_mem_iff {width x x1 w y y1 : Nat} (hx : x < width) (hw : x1 + w ≤ width) :
    (y1 * width + x1 ≤ y * width + x ∧ y * width + x < y1 * width + x1 + w) ↔ y = y1 ∧ x1 ≤ x ∧ x < x1 + w := by
  rcases lt_trichotomy y y1 with h | h | h
  · have := Nat.mul_le_mul_right width (Nat.succ_le_of_lt h)
    rw [Nat.succ_mul] at this
    omega
  · subst h
    omega
  · have := Nat.mul_le_mul_right width (Nat.succ_le_of_lt h)
    rw [Nat.succ_mul] at this
    omega

/-- A cell of another row. -/
theorem other_row {width x y y1 : Nat} (hx : x < width) (h : y ≠ y1) :
    y * width + x < y1 * width ∨ y1 * width + width ≤ y * width + x := by
  have hcell := (cell_mem_iff hx (Nat.zero_add width).le).not.2 fun hin => h hin.1
  rw [Nat.add_zero] at hcell
  omega

/-- A rectangle on the screen, cell by cell. -/
theorem getElem?_changeRows (f : TTYChar → TTYChar) {width x1 w : Nat} (hw : x1 + w ≤ width) (h : Nat) (cells : List TTYChar)
    (y1 : Nat) {x : Nat} (hx : x < width) (y : Nat) :
    (changeRows f w (width - w) h cells (y1 * width + x1))[y * width + x]? =
      if (y1 ≤ y ∧ y < y1 + h) ∧ x1 ≤ x ∧ x < x1 + w then cells[y * width + x]?.map f else cells[y * width + x]? := by
  induction h generalizing cells y1 with
  | zero => rw [changeRows, if_neg (by omega)]
  | succ h ih =>
    have hnext : y1 * width + x1 + w + (width - w) = (y1 + 1) * width + x1 := by
      rw [Nat.succ_mul]
      omega
    rw [changeRows, hnext, ih, getElem?_changeCells]
    simp only [cell_mem_iff hx hw]
    by_cases hcol : x1 ≤ x ∧ x < x1 + w
    · by_cases hy : y = y1
      · rw [if_neg (by omega), if_pos ⟨hy, hcol⟩, if_pos (by omega)]
      · have hfirst : ¬ (y = y1 ∧ x1 ≤ x ∧ x < x1 + w) := fun hin => hy hin.1
        rw [if_neg hfirst]
        by_cases hrow : y1 + 1 ≤ y ∧ y < y1 + 1 + h
        · rw [if_pos ⟨hrow, hcol⟩, if_pos (by omega)]
        · rw [if_neg (by omega), if_neg (by omega)]
    · rw [if_neg (by omega), if_neg (by omega), if_neg (by omega)]

theorem length_markLines (y1 h : Nat) (lines : List Bool) : (markLines y1 h lines).length = lines.length := by
  induction h generalizing y1 lines with
  | zero => rfl
  | succ h ih => rw [markLines, ih, List.length_set]

/-- Setting a mark leaves the others. -/
theorem getD_set_of_ne {lines : List Bool} {k y : Nat} (b : Bool) (h : y ≠ k) :
    (lines.set k b).getD y false = lines.getD y false := by
  rw [List.getD_eq_getElem?_getD, List.getD_eq_getElem?_getD, List.getElem?_set_ne (Ne.symm h)]

theorem getD_set_self {lines : List Bool} {k : Nat} (b : Bool) (h : k < lines.length) : (lines.set k b).getD k false = b := by
  rw [List.getD_eq_getElem?_getD, List.getElem?_set_self h, Option.getD_some]

/-- The rows of a rectangle are marked, and the others keep their marks. -/
theorem getD_markLines (y1 h : Nat) {lines : List Bool} {y : Nat} (hy : y < lines.length) :
    (markLines y1 h lines).getD y false = (decide (y1 ≤ y ∧ y < y1 + h) || lines.getD y false) := by
  induction h generalizing y1 lines with
  | zero =>
    have hno : ¬ (y1 ≤ y ∧ y < y1 + 0) := by omega
    rw [markLines, decide_eq_false hno, Bool.false_or]
  | succ h ih =>
    rw [markLines, ih (y1 + 1) (by rw [List.length_set]; exact hy)]
    by_cases hfirst : y = y1
    · subst hfirst
      rw [getD_set_self true hy, Bool.or_true, decide_eq_true (by omega), Bool.true_or]
    · rw [getD_set_of_ne true hfirst]
      congr 2
      apply propext
      omega

/-! ## Texts -/

/-- There is a cell at the index, and it shows. -/
def PrintableAt (cells : List TTYChar) (i : Nat) : Prop := ∃ c, cells[i]? = some c ∧ c.Printable

/-- Cells between `lo` and `hi` were worked over, and none that shows was spoilt. -/
structure Reworked (lo hi : Nat) (cells cells' : List TTYChar) : Prop where
  length : cells'.length = cells.length
  outside : ∀ i, i < lo ∨ hi ≤ i → cells'[i]? = cells[i]?
  printable : ∀ i, PrintableAt cells i → PrintableAt cells' i

theorem Reworked.refl (lo hi : Nat) (cells : List TTYChar) : Reworked lo hi cells cells :=
  ⟨rfl, fun _ _ => rfl, fun _ h => h⟩

/-- Cells that are reworked twice. -/
theorem Reworked.trans {lo hi : Nat} {a b c : List TTYChar} (h₁ : Reworked lo hi a b) (h₂ : Reworked lo hi b c) :
    Reworked lo hi a c := by
  refine ⟨h₂.length.trans h₁.length, ?_, ?_⟩
  · intro i hi
    rw [h₂.outside i hi, h₁.outside i hi]
  · intro i hc
    exact h₂.printable i (h₁.printable i hc)

/-- One cell is changed. -/
theorem reworked_modify {lo hi ptr : Nat} (hlo : lo ≤ ptr) (hhi : ptr < hi) {f : TTYChar → TTYChar}
    (hf : ∀ c : TTYChar, c.Printable → (f c).Printable) (cells : List TTYChar) : Reworked lo hi cells (cells.modify ptr f) := by
  refine ⟨List.length_modify _ _ _, ?_, ?_⟩
  · intro i hi
    have hne : ptr ≠ i := by omega
    rw [List.getElem?_modify]
    simp [hne]
  · intro i hi
    obtain ⟨c, hc, hprintable⟩ := hi
    refine ⟨if ptr = i then f c else c, ?_, ?_⟩
    · rw [List.getElem?_modify, hc]
      rfl
    · split_ifs
      · exact hf c hprintable
      · exact hprintable

/-- The glyphs of latin1 take a column each. -/
theorem termGlyphWidth_eq_one {ucs : Nat} (h : ucs ≤ 0xff) : termGlyphWidth ucs = 1 := by
  rw [termGlyphWidth, if_pos (by omega)]

/-- The characters of a text that the terminal can show. -/
def Latin (str : List Nat) : Prop := ∀ c ∈ str, 0x20 ≤ c ∧ c ≤ 0xff

namespace TTYState

/-- A text is drawn in its row and in front of the right edge of the clip rectangle. -/
theorem reworked_drawChars {clipX2 : Int} {fg row : Nat} (hfg : fg < 8) {str : List Nat} (hstr : Latin str) (x : Nat)
    (cells : List TTYChar) : Reworked row (row + clipX2.toNat) cells (drawChars clipX2 fg str x (row + x) cells) := by
  induction str generalizing x cells with
  | nil => exact Reworked.refl _ _ _
  | cons cc str ih =>
    have hcc := hstr cc List.mem_cons_self
    rw [drawChars, termGlyphWidth_eq_one hcc.2]
    split_ifs with hclip
    · exact Reworked.refl _ _ _
    · have hput : Reworked row (row + clipX2.toNat) cells (cells.modify (row + x) (inkCell fg cc)) :=
        reworked_modify (by omega) (by omega) (fun _ h => printable_inkCell h hfg hcc) cells
      exact hput.trans (ih (fun d hd => hstr d (List.mem_cons_of_mem _ hd)) (x + 1) _)

/-- With characters of one cell, the left clip only leaves out characters. -/
theorem leftClip_spec (ts : TTYState) (fg ptr : Nat) {str : List Nat} (hstr : Latin str) {x : Int} (hx : x < ts.clipX1) :
    (ts.leftClip fg ptr str x).1 = ts.screen ∧ (ts.leftClip fg ptr str x).2.1 = ptr ∧
      Latin (ts.leftClip fg ptr str x).2.2.2 ∧
      ((ts.leftClip fg ptr str x).2.2.2 = [] ∨ (ts.leftClip fg ptr str x).2.2.1 = ts.clipX1) := by
  induction str generalizing x with
  | nil => exact ⟨rfl, rfl, hstr, Or.inl rfl⟩
  | cons cc str ih =>
    have htail : Latin str := fun d hd => hstr d (List.mem_cons_of_mem _ hd)
    rw [TTYState.leftClip, termGlyphWidth_eq_one (hstr cc List.mem_cons_self).2]
    dsimp only
    split_ifs with hclip
    · have hn : (min (x + ((1 : Nat) : Int)) ts.clipX2 - ts.clipX1).toNat = 0 := by omega
      rw [hn]
      refine ⟨rfl, rfl, htail, Or.inr ?_⟩
      dsimp only
      omega
    · exact ih htail (by omega)

/-- A text changes cells of its row only, and leaves what shows showing. -/
theorem reworked_termDrawText (ts : TTYState) (x y : Int) {str : List Nat} (hstr : Latin str) (color : Nat) :
    Reworked (y.toNat * ts.width) (y.toNat * ts.width + ts.clipX2.toNat) ts.screen (ts.termDrawText x y str color).screen := by
  have hfg := getTtyColor_lt color
  rw [termDrawText]
  split_ifs with hout hclip
  · exact Reworked.refl _ _ _
  · obtain ⟨hcells, hptr, hrest, hx⟩ := ts.leftClip_spec (getTtyColor color) (y.toNat * ts.width + ts.clipX1) hstr hclip
    dsimp only
    rw [hcells, hptr]
    rcases hx with hx | hx
    · rw [hx]
      exact Reworked.refl _ _ _
    · rw [hx]
      exact reworked_drawChars hfg hrest ts.clipX1 _
  · dsimp only
    obtain ⟨n, rfl⟩ := Int.eq_ofNat_of_zero_le (by omega : 0 ≤ x)
    exact reworked_drawChars hfg hstr n _

end TTYState

/-! ## What is printed -/

/-- What the terminal shows for a character of the screen: a dot for the codes from 128 to 159. -/
def shownAs (ch : Nat) : Nat := if 128 ≤ ch ∧ ch < 160 then 0x2e else ch

/-- The terminal's cell shows the cell of the screen; the foreground of a space cannot be seen. -/
structure CellShows (cell : Vt.Cell) (c : TTYChar) : Prop where
  ch : cell.ch = shownAs c.ch
  bg : cell.bg = c.bgcolor
  fg : c.ch ≠ 0x20 → cell.fg = c.fgcolor

/-- What is displayed of a cell is one byte. -/
theorem displayed_eq {c : TTYChar} (h : c.Printable) : displayed c.ch = [shownAs c.ch] := by
  have hlow := h.visible
  have hhigh := h.latin
  rw [displayed, shownAs]
  by_cases hdot : 128 ≤ c.ch ∧ c.ch < 160
  · rw [if_pos (Or.inr hdot), if_pos hdot]
  · rw [if_neg (by omega), if_neg hdot, unicodeToCharset, Charset.encode, if_pos hhigh]
    rfl

/-- That byte is no control character. -/
theorem le_shownAs {c : TTYChar} (h : c.Printable) : 32 ≤ shownAs c.ch := by
  rw [shownAs]
  split_ifs
  · decide
  · exact h.visible

namespace Flushing

/-- The colours `term_flush` printed last are the terminal's. -/
def Known (s : Flushing) (t : Vt.Terminal) : Prop := s.bgcolor = -1 ∨ s.fgcolor = t.fg ∧ s.bgcolor = t.bg

/-- A cell of a row is written at the cursor, and shows. -/
theorem flushCell_spec {t₀ t : Vt.Terminal} {s : Flushing} (ht : t₀.feed s.out = t) (hground : t.mode = .ground)
    (hcol : t.col < t.width) (hknown : s.Known t) {c : TTYChar} (hc : c.Printable) :
    ∃ t', t₀.feed (s.flushCell c).out = t' ∧ t.Wrote t' 1 ∧ (s.flushCell c).Known t' ∧ (s.flushCell c).ts = s.ts ∧
      CellShows (t'.cells t.row t.col) c := by
  have hlatin := hc.latin
  have hbg := hc.bg
  have hfg := hc.fg
  rw [flushCell, if_neg (by omega)]
  split_ifs with hattr
  · -- the attributes are printed, and then the character
    obtain ⟨t₁, ht₁⟩ : ∃ t₁ : Vt.Terminal, t₁ = { t with fg := c.fgcolor, bg := c.bgcolor } := ⟨_, rfl⟩
    have hcolors : t.feed (Vt.colors (30 + c.fgcolor) (40 + c.bgcolor)) = t₁ := by
      rw [ht₁]
      exact Vt.Terminal.feed_colors hground (by omega) (by omega)
    have hground₁ : t₁.mode = .ground := by rw [ht₁, ← hground]
    have hwrote : t.Wrote t₁ 0 := by
      rw [ht₁]
      exact ⟨hground, rfl, rfl, rfl, rfl, fun _ _ _ => rfl⟩
    refine ⟨t₁.put (shownAs c.ch), ?_, ?_, Or.inr ?_, rfl, ?_⟩
    · dsimp only
      rw [Vt.Terminal.feed_append, Vt.Terminal.feed_append, ht, hcolors, displayed_eq hc]
      refine Vt.Terminal.feed_printable hground₁ ?_ (le_shownAs hc)
      rw [hwrote.col, hwrote.width]
      exact hcol
    · rw [← Nat.zero_add 1]
      exact hwrote.trans (Vt.Terminal.wrote_put hground₁ _)
    · rw [ht₁]
      exact ⟨rfl, rfl⟩
    · rw [← hwrote.row, show t.col = t₁.col from hwrote.col.symm, Vt.Terminal.put_cell, ht₁]
      exact ⟨rfl, rfl, fun _ => rfl⟩
  · -- the terminal has the colours already, but for the foreground of a space
    push Not at hattr
    rcases hknown with hnone | ⟨hfg', hbg'⟩
    · omega
    · refine ⟨t.put (shownAs c.ch), ?_, Vt.Terminal.wrote_put hground _, Or.inr ⟨hfg', hbg'⟩, rfl, ?_⟩
      · dsimp only
        rw [Vt.Terminal.feed_append, ht, displayed_eq hc]
        exact Vt.Terminal.feed_printable hground hcol (le_shownAs hc)
      · rw [Vt.Terminal.put_cell]
        refine ⟨rfl, ?_, ?_⟩
        · dsimp only
          omega
        · intro hspace
          dsimp only
          by_contra hne
          exact hspace (hattr.1 (by omega))

/-- A row is written cell by cell. -/
theorem flushCells_spec {t₀ t : Vt.Terminal} {s : Flushing} (ht : t₀.feed s.out = t) (hground : t.mode = .ground)
    (hknown : s.Known t) {row : List TTYChar} (hcol : t.col + row.length ≤ t.width) (hrow : ∀ c ∈ row, c.Printable) :
    ∃ t', t₀.feed (row.foldl flushCell s).out = t' ∧ t.Wrote t' row.length ∧ (row.foldl flushCell s).Known t' ∧
      (row.foldl flushCell s).ts = s.ts ∧ ∀ i c, row[i]? = some c → CellShows (t'.cells t.row (t.col + i)) c := by
  induction row generalizing s t with
  | nil => exact ⟨t, ht, Vt.Terminal.Wrote.refl hground, hknown, rfl, by simp⟩
  | cons c row ih =>
    rw [List.length_cons] at hcol
    obtain ⟨t₁, ht₁, hwrote₁, hknown₁, hts₁, hshows₁⟩ :=
      flushCell_spec ht hground (by omega) hknown (hrow c List.mem_cons_self)
    have hcol₁ := hwrote₁.col
    have hwidth₁ := hwrote₁.width
    obtain ⟨t₂, ht₂, hwrote₂, hknown₂, hts₂, hshows₂⟩ :=
      ih ht₁ hwrote₁.ground hknown₁ (by omega) fun d hd => hrow d (List.mem_cons_of_mem _ hd)
    refine ⟨t₂, ht₂, ?_, hknown₂, hts₂.trans hts₁, ?_⟩
    · rw [List.length_cons, Nat.add_comm]
      exact hwrote₁.trans hwrote₂
    · intro i d hd
      cases i with
      | zero =>
        rw [List.getElem?_cons_zero, Option.some_inj] at hd
        rw [← hd, Nat.add_zero, hwrote₂.same _ _ (by omega)]
        exact hshows₁
      | succ i =>
        rw [List.getElem?_cons_succ] at hd
        have hshows := hshows₂ i d hd
        rw [hwrote₁.row, hcol₁] at hshows
        rw [← Nat.add_assoc, Nat.add_right_comm]
        exact hshows

end Flushing

end Hoe
