import Hoe.Movement
import Hoe.Theorems.CursorOnScreen
import Mathlib.Data.List.MinMax

/-!
# Moving over the rows of the text

Where a window begins does not matter for where a command goes: up and down are those of the rows of the whole text
(`textMoveUpDown_spec`).
-/

namespace Hoe

variable {μ : Type} {f : CursorFunc μ} {s : ViewState}

/-- A row, and the direction of its line. -/
abbrev ScreenRow := DirType × TextRow

/-- A row is displayed. -/
def showRow (f : CursorFunc μ) (s : ViewState) (d : DisplayPos × μ) (r : ScreenRow) : DisplayPos × μ :=
  flushRow f r.1 (s.xDisp r.1) d r.2

/-- The height of rows of several lines. -/
def screenHeight (R : List ScreenRow) : Int := (R.map (·.2.height)).sum

theorem screenHeight_append (R R' : List ScreenRow) : screenHeight (R ++ R') = screenHeight R + screenHeight R' := by
  simp [screenHeight]

/-! ## Rows -/

/-- The cells do not move the display. -/
theorem offersTo_pos (base : DirType) (xDisp h : Int) (cells : List TextCell) (d : DisplayPos × μ) :
    (cells.foldl (offerCell f base xDisp h) d).1.y = d.1.y ∧ (cells.foldl (offerCell f base xDisp h) d).1.lineNum = d.1.lineNum := by
  induction cells generalizing d with
  | nil => exact ⟨rfl, rfl⟩
  | cons c cells ih => exact ih (offerCell f base xDisp h d c)

/-- Cells that the function has no use for. -/
theorem offersTo_same {base : DirType} {xDisp h : Int} {cells : List TextCell} {d : DisplayPos × μ}
    (hsame : ∀ c ∈ cells, (f d.2 base c d.1.lineNum (xDisp + c.x) d.1.y h).1 = d.2) :
    (cells.foldl (offerCell f base xDisp h) d).2 = d.2 := by
  induction cells generalizing d with
  | nil => rfl
  | cons c cells ih =>
    obtain ⟨hc, hcells⟩ := List.forall_mem_cons.1 hsame
    have hone : (offerCell f base xDisp h d c).2 = d.2 := hc
    exact (ih (d := offerCell f base xDisp h d c) (by rw [hone]; exact hcells)).trans hone

/-- Cells that the function has no use for, and after which more lines are needed. -/
theorem offersTo_idle {base : DirType} {xDisp h : Int} {cells : List TextCell} {d : DisplayPos × μ}
    (hidle : ∀ c ∈ cells, f d.2 base c d.1.lineNum (xDisp + c.x) d.1.y h = (d.2, false)) :
    cells.foldl (offerCell f base xDisp h) d = d := by
  induction cells with
  | nil => rfl
  | cons c cells ih =>
    obtain ⟨hc, hcells⟩ := List.forall_mem_cons.1 hidle
    have hone : offerCell f base xDisp h d c = d := by rw [offerCell, hc, Bool.or_false]
    rw [List.foldl_cons, hone]
    exact ih hcells

/-- A row moves the display down by its height, and by one line. -/
theorem showRow_pos (d : DisplayPos × μ) (r : ScreenRow) :
    (showRow f s d r).1.y = d.1.y + r.2.height ∧ (showRow f s d r).1.lineNum = d.1.lineNum + 1 := by
  obtain ⟨hy, hline⟩ := offersTo_pos (f := f) r.1 (s.xDisp r.1) r.2.height r.2.cells d
  simp only [showRow, flushRow, hy, hline, and_self]

/-- So do all rows. -/
theorem showRows_pos (R : List ScreenRow) (d : DisplayPos × μ) :
    (R.foldl (showRow f s) d).1.y = d.1.y + screenHeight R ∧ (R.foldl (showRow f s) d).1.lineNum = d.1.lineNum + R.length := by
  induction R generalizing d with
  | nil => simp [screenHeight]
  | cons r R ih =>
    obtain ⟨hy, hline⟩ := showRow_pos (f := f) (s := s) d r
    obtain ⟨hy', hline'⟩ := ih (showRow f s d r)
    constructor
    · rw [List.foldl_cons, hy', hy, screenHeight, screenHeight, List.map_cons, List.sum_cons, Int.add_assoc]
    · rw [List.foldl_cons, hline', hline, List.length_cons]
      omega

/-- Rows that the function has no use for. -/
theorem showRows_same {R : List ScreenRow} {d : DisplayPos × μ}
    (hsame : ∀ i r, R[i]? = some r → ∀ c ∈ r.2.cells, ∀ y, (f d.2 r.1 c (d.1.lineNum + i) (s.xDisp r.1 + c.x) y r.2.height).1 = d.2) :
    (R.foldl (showRow f s) d).2 = d.2 := by
  induction R generalizing d with
  | nil => rfl
  | cons r R ih =>
    have hone : (showRow f s d r).2 = d.2 := offersTo_same fun c hc => hsame 0 r rfl c hc d.1.y
    have hline := (showRow_pos (f := f) (s := s) d r).2
    refine (ih (d := showRow f s d r) fun i r' hr' c hc y => ?_).trans hone
    rw [hone, hline, Nat.add_assoc, Nat.add_comm 1 i]
    exact hsame (i + 1) r' hr' c hc y

/-- Rows that the function has no use for, and after which more lines are needed. -/
theorem showRows_idle {R : List ScreenRow} {d : DisplayPos × μ}
    (hidle : ∀ i r, R[i]? = some r → ∀ c ∈ r.2.cells, ∀ y,
      f d.2 r.1 c (d.1.lineNum + i) (s.xDisp r.1 + c.x) y r.2.height = (d.2, false)) :
    (R.foldl (showRow f s) d).1.eod = d.1.eod := by
  induction R generalizing d with
  | nil => rfl
  | cons r R ih =>
    have hone : (showRow f s d r).2 = d.2 ∧ (showRow f s d r).1.eod = d.1.eod := by
      rw [showRow, flushRow, offersTo_idle fun c hc => hidle 0 r rfl c hc d.1.y]
      exact ⟨rfl, rfl⟩
    have hline := (showRow_pos (f := f) (s := s) d r).2
    refine (ih (d := showRow f s d r) fun i r' hr' c hc y => ?_).trans hone.2
    rw [hone.1, hline, Nat.add_assoc, Nat.add_comm 1 i]
    exact hidle (i + 1) r' hr' c hc y

namespace TextMode

variable {t : TextMode} {total : Int}

/-! ## The rows of the text -/

/-- The rows of the line at an offset. -/
def lineRows (t : TextMode) (o : Int) : List ScreenRow := (t.rows o).map (t.base o, ·)

/-- The rows of the lines from an offset on, so many lines at most. -/
def rowsFrom (t : TextMode) : Nat → Int → List ScreenRow
  | 0, _ => []
  | fuel + 1, o => t.lineRows o ++ if t.next o < 0 then [] else rowsFrom t fuel (t.next o)

/-- All rows of a text of this size. -/
def allRows (t : TextMode) (total : Int) : List ScreenRow := t.rowsFrom (total.toNat + 1) 0

/-- A line is shown row by row. -/
theorem textDisplay_eq (s : ViewState) (d : DisplayPos × μ) (o : Int) :
    t.textDisplay f s d o = (t.lineRows o).foldl (showRow f s) d := by
  rw [textDisplay, lineRows, List.foldl_map]
  rfl

/-- Behind a line the text ends, or there is another one. -/
theorem Lays.next_cases (h : t.Lays total) {o : Int} (ho : t.IsLine total o) :
    t.next o < 0 ∨ ¬t.next o < 0 ∧ o < t.next o ∧ t.IsLine total (t.next o) := by
  have hpos := ho.nonneg
  rcases h.next o ho.nonneg ho.le ho.line with ⟨hneg, -⟩ | ⟨hlt, -⟩
  · exact .inl hneg
  · exact .inr ⟨by omega, hlt, h.isLine_next ho hlt⟩

/-- With enough rounds their number does not matter. -/
theorem rowsFrom_fuel (h : t.Lays total) {fuel : Nat} (fuel' : Nat) {o : Int} (ho : t.IsLine total o) (hfuel : (total - o).toNat < fuel)
    (hfuel' : (total - o).toNat < fuel') : t.rowsFrom fuel o = t.rowsFrom fuel' o := by
  induction fuel generalizing fuel' o with
  | zero => omega
  | succ fuel ih =>
    obtain ⟨fuel', rfl⟩ := Nat.exists_eq_succ_of_ne_zero (Nat.ne_of_gt (Nat.zero_lt_of_lt hfuel'))
    simp only [rowsFrom]
    rcases h.next_cases ho with hneg | ⟨hnn, hlt, hline⟩
    · rw [if_pos hneg, if_pos hneg]
    · have := hline.le
      rw [if_neg hnn, if_neg hnn, ih fuel' hline (by omega) (by omega)]

/-- A display shows the rows from its first line on, up to the end of a line after which no more lines are needed. -/
theorem display1_rows (h : t.Lays total) (type : DisplayType) {fuel : Nat} {o : Int} (ho : t.IsLine total o)
    (hfuel : (total - o).toNat < fuel) (d : DisplayPos × μ) :
    ∃ R R', t.rowsFrom fuel o = R ++ R' ∧ t.display1 f type s fuel d o = some (R.foldl (showRow f s) d) ∧
      (R' ≠ [] → type.done s (R.foldl (showRow f s) d).1 = true) := by
  induction fuel generalizing o d with
  | zero => omega
  | succ fuel ih =>
    simp only [display1, rowsFrom, textDisplay_eq]
    rcases h.next_cases ho with hneg | ⟨hnn, hlt, hline⟩
    · rw [if_pos hneg, if_pos hneg]
      exact ⟨t.lineRows o, [], by simp, rfl, fun hne => absurd rfl hne⟩
    · rw [if_neg hnn, if_neg hnn]
      split
      case isTrue hdone =>
        exact ⟨t.lineRows o, _, rfl, rfl, fun _ => hdone⟩
      case isFalse =>
        have := hline.le
        obtain ⟨R, R', hrows, hrun, hend⟩ := ih (o := t.next o) hline (by omega) ((t.lineRows o).foldl (showRow f s) d)
        refine ⟨t.lineRows o ++ R, R', ?_, ?_, ?_⟩
        · rw [hrows, List.append_assoc]
        · rw [hrun, List.foldl_append]
        · rwa [List.foldl_append]

end TextMode

/-! ## The cell of an offset -/

/-- How many cells show an offset. -/
def shown (R : List ScreenRow) (c : Int) : Nat := ((R.flatMap (·.2.cells)).filter (·.shows c)).length

/-- No cell shows the offset. -/
def Hidden (R : List ScreenRow) (c : Int) : Prop := ∀ r ∈ R, ∀ cell ∈ r.2.cells, cell.shows c = false

/-- One cell shows the offset, in the row of this number. -/
structure RowPlace (R : List ScreenRow) (c : Int) (g : Nat) (r : ScreenRow) (cell : TextCell) : Prop where
  rows : ∃ P Q, R = P ++ r :: Q ∧ P.length = g ∧ Hidden P c ∧ Hidden Q c
  cells : ∃ cs cs', r.2.cells = cs ++ cell :: cs' ∧ ∀ c' ∈ cs ++ cs', c'.shows c = false
  shows : cell.shows c = true

theorem shown_append (R R' : List ScreenRow) (c : Int) : shown (R ++ R') c = shown R c + shown R' c := by
  simp [shown]

/-- What is not offered is hidden. -/
theorem hidden_of_shown {R : List ScreenRow} {c : Int} (h : shown R c = 0) : Hidden R c := by
  intro r hr cell hcell
  have hnil := List.filter_eq_nil_iff.1 (List.eq_nil_of_length_eq_zero h) cell (List.mem_flatMap.2 ⟨r, hr, hcell⟩)
  exact Bool.eq_false_iff.2 hnil

/-- What is offered once has its place. -/
theorem exists_place_of_shown {R : List ScreenRow} {c : Int} (h : shown R c = 1) : ∃ g r cell, RowPlace R c g r cell := by
  induction R with
  | nil => simp [shown] at h
  | cons r R ih =>
    have hsplit : shown (r :: R) c = (r.2.cells.filter (·.shows c)).length + shown R c := by simp [shown]
    by_cases hr : (r.2.cells.filter (·.shows c)).length = 0
    · obtain ⟨g, r', cell, ⟨P, Q, rfl, hg, hP, hQ⟩, hcells, hshows⟩ := ih (by omega)
      refine ⟨g + 1, r', cell, ⟨r :: P, Q, rfl, by simp [hg], ?_, hQ⟩, hcells, hshows⟩
      exact List.forall_mem_cons.2 ⟨hidden_of_filter hr, hP⟩
    · obtain ⟨cell, hcell⟩ := List.length_eq_one_iff.1 (show (r.2.cells.filter (·.shows c)).length = 1 by omega)
      obtain ⟨cs, cs', hcs, hbefore, hshows, hbehind⟩ := List.filter_eq_cons_iff.1 hcell
      refine ⟨0, r, cell, ⟨[], R, rfl, rfl, by simp [Hidden], hidden_of_shown (by omega)⟩, ⟨cs, cs', hcs, ?_⟩, hshows⟩
      intro c' hc'
      rcases List.mem_append.1 hc' with hmem | hmem
      · exact Bool.eq_false_iff.2 (hbefore c' hmem)
      · exact Bool.eq_false_iff.2 (List.filter_eq_nil_iff.1 hbehind c' hmem)

namespace RowPlace

variable {R A : List ScreenRow} {c : Int} {g : Nat} {r : ScreenRow} {cell : TextCell}

theorem getElem? (h : RowPlace R c g r cell) : R[g]? = some r := by
  obtain ⟨⟨P, Q, rfl, rfl, -⟩, -⟩ := h
  simp

theorem mem (h : RowPlace R c g r cell) : cell ∈ r.2.cells := by
  obtain ⟨cs, cs', hcs, -⟩ := h.cells
  simp [hcs]

/-- No other cell shows the offset. -/
theorem eq_of_shows (h : RowPlace R c g r cell) {g' : Nat} {r' : ScreenRow} {cell' : TextCell} (hr : R[g']? = some r')
    (hcell : cell' ∈ r'.2.cells) (hshows : cell'.shows c = true) : g' = g ∧ r' = r ∧ cell' = cell := by
  obtain ⟨⟨P, Q, rfl, rfl, hP, hQ⟩, ⟨cs, cs', hcs, hothers⟩, -⟩ := h
  have hno : ∀ {S : List ScreenRow}, Hidden S c → r' ∈ S → False := by
    intro S hS hmem
    have hfalse := hS r' hmem cell' hcell
    rw [hshows] at hfalse
    cases hfalse
  rcases Nat.lt_trichotomy g' P.length with hlt | rfl | hgt
  · rw [List.getElem?_append_left hlt] at hr
    exact (hno hP (List.mem_of_getElem? hr)).elim
  · obtain rfl : r = r' := by simpa using hr
    refine ⟨rfl, rfl, ?_⟩
    by_contra hne
    have hmem : cell' ∈ cs ++ cs' := by simpa [hcs, hne] using hcell
    have hfalse := hothers cell' hmem
    rw [hshows] at hfalse
    cases hfalse
  · obtain ⟨n, rfl⟩ := Nat.exists_eq_add_of_lt hgt
    rw [List.getElem?_append_right (by omega), show P.length + n + 1 - P.length = n + 1 by omega, List.getElem?_cons_succ] at hr
    exact (hno hQ (List.mem_of_getElem? hr)).elim

/-- The place in the rows with others in front. -/
theorem front (h : RowPlace R c g r cell) (hA : Hidden A c) : RowPlace (A ++ R) c (A.length + g) r cell := by
  obtain ⟨⟨P, Q, rfl, rfl, hP, hQ⟩, hcells, hshows⟩ := h
  refine ⟨⟨A ++ P, Q, by simp, by simp, ?_, hQ⟩, hcells, hshows⟩
  intro r' hr'
  rcases List.mem_append.1 hr' with hmem | hmem
  · exact hA r' hmem
  · exact hP r' hmem

end RowPlace

/-- `cursor_func` looks only at the cell that shows the cursor. -/
theorem cursorFunc_hidden {m : CursorContext} {cell : TextCell} (h : cell.shows m.offsetc = false) (base : DirType) (n : Nat)
    (x y height : Int) : cursorFunc m base cell n x y height = (m, false) := by simp [cursorFunc, h]

/-- Rows where the cursor is hidden are passed. -/
theorem hidden_same {R : List ScreenRow} {d : DisplayPos × CursorContext} (h : Hidden R d.2.offsetc) :
    (R.foldl (showRow cursorFunc s) d).2 = d.2 := by
  refine showRows_same fun i r hr cell hcell y => ?_
  rw [cursorFunc_hidden (h r (List.mem_of_getElem? hr) cell hcell)]

/-- The display goes on behind them. -/
theorem hidden_open {R : List ScreenRow} {d : DisplayPos × CursorContext} (h : Hidden R d.2.offsetc) :
    (R.foldl (showRow cursorFunc s) d).1.eod = d.1.eod :=
  showRows_idle fun _ r hr cell hcell _ => cursorFunc_hidden (h r (List.mem_of_getElem? hr) cell hcell) _ _ _ _ _

/-- The display finds the cursor in its cell. -/
theorem RowPlace.found {R : List ScreenRow} {c : Int} {g : Nat} {r : ScreenRow} {cell : TextCell} (h : RowPlace R c g r cell)
    {d : DisplayPos × CursorContext} (hd : d.2.offsetc = c) :
    (R.foldl (showRow cursorFunc s) d).2.xc = some (s.xDisp r.1 + cell.x) ∧
      (R.foldl (showRow cursorFunc s) d).2.yc = d.1.y + screenHeight (R.take g) ∧
        (R.foldl (showRow cursorFunc s) d).2.linec = d.1.lineNum + g := by
  obtain ⟨⟨P, Q, rfl, rfl, hP, hQ⟩, ⟨cs, cs', hcs, hothers⟩, hshows⟩ := h
  subst hd
  obtain ⟨hy, hline⟩ := showRows_pos (f := cursorFunc) (s := s) P d
  have hm := hidden_same (s := s) hP
  rw [List.foldl_append, List.foldl_cons, List.take_left]
  obtain ⟨d₁, hd₁⟩ : ∃ d₁, d₁ = P.foldl (showRow cursorFunc s) d := ⟨_, rfl⟩
  rw [← hd₁] at hy hline hm ⊢
  have hrow : (showRow cursorFunc s d₁ r).2 = (cursorFunc d.2 r.1 cell d₁.1.lineNum (s.xDisp r.1 + cell.x) d₁.1.y r.2.height).1 := by
    obtain ⟨hy', hline'⟩ := offersTo_pos (f := cursorFunc) r.1 (s.xDisp r.1) r.2.height cs d₁
    have hbefore : (cs.foldl (offerCell cursorFunc r.1 (s.xDisp r.1) r.2.height) d₁).2 = d₁.2 := by
      refine offersTo_same fun c' hc' => ?_
      rw [cursorFunc_hidden (by rw [hm]; exact hothers c' (List.mem_append_left cs' hc'))]
    rw [showRow, flushRow, hcs, List.foldl_append, List.foldl_cons]
    simp only
    rw [offersTo_same]
    · rw [offerCell, hbefore, hline', hy', hm]
    · intro c' hc'
      rw [cursorFunc_hidden]
      rw [offerCell, hbefore, hm, cursorFunc]
      split <;> exact hothers c' (List.mem_append_right cs hc')
  have hoff : (showRow cursorFunc s d₁ r).2.offsetc = d.2.offsetc := by
    rw [hrow, cursorFunc]
    split <;> rfl
  rw [hidden_same (by rw [hoff]; exact hQ), hrow, cursorFunc, if_pos hshows]
  exact ⟨rfl, hy, hline⟩

namespace TextMode

variable {t : TextMode} {total : Int}

/-- From a line on, an offset is shown once if it is not before the line. -/
theorem shown_rowsFrom (h : t.Lays total) {c : Int} (h0 : 0 ≤ c) (hc : c ≤ total) {fuel : Nat} {o : Int} (ho : t.IsLine total o)
    (hfuel : (total - o).toNat < fuel) : shown (t.rowsFrom fuel o) c = if o ≤ c then 1 else 0 := by
  induction fuel generalizing o with
  | zero => omega
  | succ fuel ih =>
    have hmine : shown (t.lineRows o) c = if t.backwardOffset c = o then 1 else 0 := by
      rw [← h.once o c ho.nonneg ho.le ho.line h0 hc]
      simp [shown, offers, lineRows, List.flatMap_map]
    have hline := h.line c h0 hc
    rw [rowsFrom, shown_append, hmine]
    rcases h.next o ho.nonneg ho.le ho.line with ⟨hneg, hlast⟩ | ⟨hlt, hle, hnext, hown, hothers⟩
    · rw [if_pos hneg]
      by_cases hoc : o ≤ c
      · simp [hlast c hoc hc, hoc, shown]
      · have hne : t.backwardOffset c ≠ o := by omega
        simp [hne, hoc, shown]
    · have hpos := ho.nonneg
      rw [if_neg (show ¬t.next o < 0 by omega), ih (h.isLine_next ho hlt) (by omega)]
      by_cases hoc : o ≤ c
      · by_cases hcn : c < t.next o
        · have hnot : ¬t.next o ≤ c := by omega
          simp [hown c hoc hcn, hoc, hnot]
        · have hcn' : t.next o ≤ c := by omega
          have hge := hothers c hcn' hc
          have hne : t.backwardOffset c ≠ o := by omega
          simp [hne, hoc, hcn']
      · have hne : t.backwardOffset c ≠ o := by omega
        have hnot : ¬t.next o ≤ c := by omega
        simp [hne, hoc, hnot]

/-- The rows of the text are those above a line and those from it on. -/
theorem exists_above (h : t.Lays total) (htotal : 0 ≤ total) {o : Int} (ho : t.IsLine total o) :
    ∃ A, t.allRows total = A ++ t.rowsFrom (total.toNat + 1) o := by
  induction hn : o.toNat using Nat.strong_induction_on generalizing o with
  | _ n ih =>
    rcases Int.lt_or_eq_of_le ho.nonneg with hpos | rfl
    · obtain ⟨hp, hlt, hnext⟩ := h.prev ho hpos
      have hp0 := hp.nonneg
      obtain ⟨A, hA⟩ := ih _ (by omega) hp rfl
      refine ⟨A ++ t.lineRows (t.backwardOffset (o - 1)), ?_⟩
      have hle := ho.le
      rw [hA, rowsFrom, hnext, if_neg (by omega), List.append_assoc, rowsFrom_fuel h (total.toNat + 1) ho (by omega) (by omega)]
    · exact ⟨[], rfl⟩

/-- `get_cursor_pos` finds the cursor where the rows have it. -/
theorem getCursorPos_spec (h : t.Lays total) {fuel : Nat} (ho : t.IsLine total s.offsetTop) (hfuel : (total - s.offsetTop).toNat < fuel)
    {g : Nat} {r : ScreenRow} {cell : TextCell} (hplace : RowPlace (t.rowsFrom fuel s.offsetTop) s.offset g r cell) (m : CursorContext) :
    ∃ m', t.getCursorPos fuel s m = some m' ∧ m'.xc = some (s.xDisp r.1 + cell.x) ∧
      m'.yc = s.yDisp + screenHeight ((t.rowsFrom fuel s.offsetTop).take g) ∧ m'.linec = g := by
  obtain ⟨R, R', hrows, hrun, hend⟩ :=
    display1_rows (f := cursorFunc) (s := s) h .cursor ho hfuel (displayInit s, m.reset s.offset)
  obtain ⟨⟨P, Q, hsplit, hg, hP, hQ⟩, hcells, hshows⟩ := hplace
  -- the display does not end before the row of the cursor
  obtain ⟨Q', rfl, hQ'⟩ : ∃ Q', R = P ++ r :: Q' ∧ Q = Q' ++ R' := by
    have hnot : ∀ {S}, P = R ++ S → R' ≠ [] → False := by
      rintro S rfl hne
      have hclosed := hend hne
      have hopen := hidden_open (s := s) (d := (displayInit s, m.reset s.offset)) fun r hr => hP r (List.mem_append_left S hr)
      rw [DisplayType.done, hopen] at hclosed
      cases hclosed
    rcases List.append_eq_append_iff.1 (hrows.symm.trans hsplit) with ⟨S, hS, hR'⟩ | ⟨S, hS, hR'⟩
    · exact (hnot hS (by simp [hR'])).elim
    · cases S with
      | nil =>
        rw [List.nil_append] at hR'
        exact (hnot (S := []) (by simpa using hS.symm) (by simp [← hR'])).elim
      | cons r' S =>
        obtain ⟨rfl, rfl⟩ := List.cons.inj hR'
        exact ⟨S, hS, rfl⟩
  have hfound := RowPlace.found (s := s) (c := s.offset) (d := (displayInit s, m.reset s.offset))
    ⟨⟨P, Q', rfl, hg, hP, fun r hr => hQ r (hQ' ▸ List.mem_append_left R' hr)⟩, hcells, hshows⟩ rfl
  refine ⟨_, by rw [getCursorPos, hrun]; rfl, hfound.1, ?_, ?_⟩
  · rw [hfound.2.1, hsplit, ← hg, List.take_left, List.take_left]
    rfl
  · simpa [displayInit] using hfound.2.2

end TextMode

/-! ## The closest cell -/

/-- How far a cell is from a column. -/
def distance (s : ViewState) (xd : Int) (base : DirType) (c : TextCell) : Nat := (s.xDisp base + c.x - xd).natAbs

/-- The offset of the cell of a row that is closest to a column, the first one of these. -/
def closest (s : ViewState) (xd : Int) (r : ScreenRow) : Option Int := (r.2.cells.argmin (distance s xd r.1)).map (·.offset1)

/-- Every cell is at a distance that `xdmin` begins above. -/
def Near (R : List ScreenRow) (s : ViewState) (xd : Int) : Prop := ∀ r ∈ R, ∀ c ∈ r.2.cells, distance s xd r.1 c < 0x7fffffff

/-- What `down_cursor_func` makes of a row on its line. -/
theorem offersTo_down (base : DirType) {h : Int} (cells : List TextCell) {d : DisplayPos × MoveContext}
    (hline : (d.1.lineNum : Int) = d.2.yd) :
    (cells.foldl (offerCell downCursorFunc base (s.xDisp base) h) d).2 =
      match cells.argmin (distance s d.2.xd base) with
      | none => d.2
      | some c => if distance s d.2.xd base c < d.2.xdmin then
          { d.2 with xdmin := distance s d.2.xd base c, offsetd := c.offset1 } else d.2 := by
  induction cells using List.reverseRecOn with
  | nil => rfl
  | append_singleton cells c ih =>
    have hpos := (offersTo_pos (f := downCursorFunc) base (s.xDisp base) h cells d).2
    rw [List.foldl_append, List.foldl_cons, List.foldl_nil, List.argmin_concat]
    simp only [offerCell, downCursorFunc]
    rw [ih, hpos]
    cases cells.argmin (distance s d.2.xd base) with
    | none =>
      simp only [hline, if_true, distance]
      rfl
    | some a =>
      by_cases ha : distance s d.2.xd base a < d.2.xdmin
      · by_cases hca : distance s d.2.xd base c < distance s d.2.xd base a
        · have hc : distance s d.2.xd base c < d.2.xdmin := hca.trans ha
          simp only [ha, hca, hc, hline, if_true]
          exact if_pos hca
        · simp only [ha, hca, hline, if_true, if_false]
          exact if_neg hca
      · by_cases hca : distance s d.2.xd base c < distance s d.2.xd base a
        · simp only [ha, hca, hline, if_true, if_false]
          rfl
        · have hc : ¬distance s d.2.xd base c < d.2.xdmin := by omega
          simp only [ha, hca, hline, if_true, if_false]
          exact if_neg hc

/-- Rows that are not those looked for. -/
theorem showRows_down_same {R : List ScreenRow} {d : DisplayPos × MoveContext}
    (hne : ∀ i < R.length, ((d.1.lineNum + i : Nat) : Int) ≠ d.2.yd) : (R.foldl (showRow downCursorFunc s) d).2 = d.2 := by
  refine showRows_same fun i r hr c _ y => ?_
  rw [downCursorFunc, if_neg (hne i (List.getElem?_eq_some_iff.1 hr).1)]

namespace TextMode

variable {t : TextMode} {total : Int}

/-- The display finds the closest cell of the row that is looked for. -/
theorem display1_down (h : t.Lays total) {fuel : Nat} (ho : t.IsLine total s.offsetTop) (hfuel : (total - s.offsetTop).toNat < fuel)
    (n : Nat) (xd offsetd : Int) (hnear : Near (t.rowsFrom fuel s.offsetTop) s xd) :
    ∃ d, t.display1 downCursorFunc .cursor s fuel (displayInit s, ⟨n, xd, 0x7fffffff, offsetd⟩) s.offsetTop = some d ∧
      d.2.offsetd = ((t.rowsFrom fuel s.offsetTop)[n]?.bind (closest s xd)).getD offsetd := by
  obtain ⟨R, R', hrows, hrun, hend⟩ :=
    display1_rows (f := downCursorFunc) (s := s) h .cursor ho hfuel (displayInit s, ⟨n, xd, 0x7fffffff, offsetd⟩)
  refine ⟨_, hrun, ?_⟩
  rw [hrows] at hnear ⊢
  by_cases hn : n < R.length
  · obtain ⟨P, r, Q, rfl, rfl⟩ : ∃ P r Q, R = P ++ r :: Q ∧ P.length = n :=
      ⟨R.take n, R[n], R.drop (n + 1), by simp, by simpa using hn.le⟩
    have hget : (P ++ r :: Q ++ R')[P.length]? = some r := by simp
    rw [hget, Option.bind_some, List.foldl_append, List.foldl_cons]
    obtain ⟨hy, hline⟩ := showRows_pos (f := downCursorFunc) (s := s) P (displayInit s, ⟨P.length, xd, 0x7fffffff, offsetd⟩)
    have hP := showRows_down_same (s := s) (R := P) (d := (displayInit s, ⟨P.length, xd, 0x7fffffff, offsetd⟩)) fun i hi => by
      simp only [displayInit]
      omega
    obtain ⟨d, hd⟩ : ∃ d, d = P.foldl (showRow downCursorFunc s) (displayInit s, ⟨P.length, xd, 0x7fffffff, offsetd⟩) := ⟨_, rfl⟩
    rw [← hd] at hline hP ⊢
    have hat : (d.1.lineNum : Int) = d.2.yd := by
      rw [hline, hP]
      simp [displayInit]
    have hrow : (showRow downCursorFunc s d r).2 = _ := offersTo_down (s := s) r.1 (h := r.2.height) r.2.cells hat
    have hbehind : (Q.foldl (showRow downCursorFunc s) (showRow downCursorFunc s d r)).2 = (showRow downCursorFunc s d r).2 := by
      refine showRows_down_same fun i _ => ?_
      have hyd : (showRow downCursorFunc s d r).2.yd = d.2.yd := by
        rw [hrow]
        split
        · rfl
        · split <;> rfl
      rw [hyd, (showRow_pos d r).2, ← hat]
      omega
    rw [hbehind, hrow, closest, hP]
    have hmem : r ∈ P ++ r :: Q ++ R' := by simp
    cases hmin : r.2.cells.argmin (distance s xd r.1) with
    | none => rfl
    | some c =>
      have hlt := hnear r hmem c (List.argmin_mem hmin)
      simp only [if_pos hlt]
      rfl
  · have hsame := showRows_down_same (s := s) (R := R) (d := (displayInit s, ⟨n, xd, 0x7fffffff, offsetd⟩)) fun i hi => by
      simp only [displayInit]
      omega
    have hopen : (R.foldl (showRow downCursorFunc s) (displayInit s, ⟨n, xd, 0x7fffffff, offsetd⟩)).1.eod = false := by
      refine showRows_idle fun i r hr c _ y => ?_
      have hi := (List.getElem?_eq_some_iff.1 hr).1
      have hne : ((0 + i : Nat) : Int) ≠ n := by omega
      have hnlt : ¬(n : Int) < ((0 + i : Nat) : Int) := by omega
      simp only [downCursorFunc, displayInit, if_neg hne, hnlt, decide_false]
    have hnil : R' = [] := by
      by_contra hne
      have hclosed := hend hne
      rw [DisplayType.done, hopen] at hclosed
      cases hclosed
    have hnone : (R ++ R')[n]? = none := by simpa [hnil] using hn
    rw [hsame, hnone]
    rfl

/-! ## Up and down -/

/-- The first line begins with the text. -/
theorem isLine_zero (h : t.Lays total) (htotal : 0 ≤ total) : t.IsLine total 0 := by
  obtain ⟨hnonneg, hle, -⟩ := h.line 0 (Int.le_refl 0) htotal
  exact ⟨Int.le_refl 0, htotal, Int.le_antisymm hle hnonneg⟩

/-- The offset has its place in the rows from a line on, if it is not before the line, and in all rows. -/
theorem exists_places (h : t.Lays total) {fuel : Nat} {o c : Int} (ho : t.IsLine total o) (hfuel : total.toNat < fuel) (hoc : o ≤ c)
    (hc : c ≤ total) : ∃ A g r cell, t.allRows total = A ++ t.rowsFrom fuel o ∧ Hidden A c ∧ RowPlace (t.rowsFrom fuel o) c g r cell := by
  have hpos := ho.nonneg
  have htotal := hpos.trans ho.le
  obtain ⟨A, hA⟩ := exists_above h htotal ho
  rw [rowsFrom_fuel h fuel ho (show (total - o).toNat < total.toNat + 1 by omega) (show (total - o).toNat < fuel by omega)] at hA
  have hbelow := shown_rowsFrom h (hpos.trans hoc) hc ho (show (total - o).toNat < fuel by omega)
  have hall := shown_rowsFrom h (hpos.trans hoc) hc (isLine_zero h htotal) (show (total - 0).toNat < total.toNat + 1 by omega)
  rw [if_pos hoc] at hbelow
  rw [if_pos (hpos.trans hoc), ← allRows, hA, shown_append, hbelow] at hall
  obtain ⟨g, r, cell, hplace⟩ := exists_place_of_shown hbelow
  exact ⟨A, g, r, cell, hA, hidden_of_shown (by omega), hplace⟩

/-- No cell is so far out that `xdmin` does not begin above its distance. -/
def Narrow (R : List ScreenRow) (s : ViewState) : Prop := ∀ r ∈ R, ∀ c ∈ r.2.cells, (s.xDisp r.1 + c.x).natAbs < 0x3fffffff

/-- The column that is looked for: the remembered one, or that of the cursor. -/
def column (s : ViewState) (again : Bool) (lastX : Int) (r : ScreenRow) (cell : TextCell) : Int :=
  if (if again then lastX else -1) = -1 then s.xDisp r.1 + cell.x else if again then lastX else -1

theorem Narrow.column_le {R : List ScreenRow} (h : Narrow R s) (again : Bool) {lastX : Int} (hlast : lastX.natAbs ≤ 0x3fffffff)
    {r : ScreenRow} {cell : TextCell} (hr : r ∈ R) (hcell : cell ∈ r.2.cells) : (column s again lastX r cell).natAbs ≤ 0x3fffffff := by
  have := h r hr cell hcell
  unfold column
  split
  · omega
  · split <;> omega

theorem Narrow.near {R R' : List ScreenRow} (h : Narrow R s) {again : Bool} {lastX : Int} (hlast : lastX.natAbs ≤ 0x3fffffff)
    {r : ScreenRow} {cell : TextCell} (hr : r ∈ R) (hcell : cell ∈ r.2.cells) (hsub : R' ⊆ R) :
    Near R' s (column s again lastX r cell) := by
  intro r' hr' c hc
  have hx := h r' (hsub hr') c hc
  have hcol := h.column_le again hlast hr hcell
  unfold distance
  omega

/-- A line is put in front, and the cursor is in its row again. -/
theorem lineInFront_spec (h : t.Lays total) {fuel : Nat} (ho : t.IsLine total s.offsetTop) (hfuel : total.toNat < fuel)
    (hpos : 0 < s.offsetTop) (hc : s.offsetTop ≤ s.offset) (hle : s.offset ≤ total) {g : Nat} {r : ScreenRow} {cell : TextCell}
    (hplace : RowPlace (t.rowsFrom fuel s.offsetTop) s.offset g r cell) (m : CursorContext) :
    ∃ s' m' A, t.lineInFront fuel s m = some (s', m') ∧ A ≠ [] ∧
      t.rowsFrom fuel s'.offsetTop = A ++ t.rowsFrom fuel s.offsetTop ∧ Hidden A s.offset ∧ t.IsLine total s'.offsetTop ∧
        s'.offsetTop < s.offsetTop ∧ m'.linec = A.length + g ∧ s'.offset = s.offset ∧ s'.xDispLtr = s.xDispLtr ∧ s'.xDispRtl = s.xDispRtl := by
  obtain ⟨hp, hlt, hnext⟩ := h.prev ho hpos
  have hp0 := hp.nonneg
  have hle' := ho.le
  obtain ⟨fuel, rfl⟩ := Nat.exists_eq_succ_of_ne_zero (Nat.ne_of_gt (Nat.zero_lt_of_lt hfuel))
  have hrows : t.rowsFrom (fuel + 1) (t.backwardOffset (s.offsetTop - 1)) =
      t.lineRows (t.backwardOffset (s.offsetTop - 1)) ++ t.rowsFrom (fuel + 1) s.offsetTop := by
    rw [rowsFrom, hnext, if_neg (by omega), rowsFrom_fuel h (fuel + 1) ho (by omega) (by omega)]
  have hbound : (total - t.backwardOffset (s.offsetTop - 1)).toNat < fuel + 1 := by omega
  have hhidden : Hidden (t.lineRows (t.backwardOffset (s.offsetTop - 1))) s.offset := by
    have hall := shown_rowsFrom h (hp0.trans (hlt.le.trans hc)) hle hp hbound
    have hbelow := shown_rowsFrom h (hp0.trans (hlt.le.trans hc)) hle ho (show (total - s.offsetTop).toNat < fuel + 1 by omega)
    rw [if_pos (hlt.le.trans hc), hrows, shown_append, hbelow, if_pos hc] at hall
    exact hidden_of_shown (by omega)
  have hplace' := hplace.front hhidden
  rw [← hrows] at hplace'
  obtain ⟨m', hm', -, -, hline⟩ := getCursorPos_spec
    (s := { s with offsetTop := t.backwardOffset (s.offsetTop - 1), yDisp := s.yDisp + m.yc }) h hp hbound hplace' m
  refine ⟨{ s with offsetTop := t.backwardOffset (s.offsetTop - 1), yDisp := s.yDisp + m.yc - m'.yc }, m', _, ?_, ?_, hrows, hhidden,
    hp, hlt, hline, rfl, rfl, rfl⟩
  · rw [lineInFront]
    simp only [hm', Option.map_some]
  · simpa [lineRows] using (h.rows _ hp.nonneg hp.le hp.line).1

/-- The loop puts one line in front at most, since this has a row. -/
theorem rowAbove_spec (h : t.Lays total) {fuel : Nat} (ho : t.IsLine total s.offsetTop) (hfuel : total.toNat < fuel)
    (hc : s.offsetTop ≤ s.offset) (hle : s.offset ≤ total) {A : List ScreenRow} (hA : t.allRows total = A ++ t.rowsFrom fuel s.offsetTop)
    {g : Nat} {r : ScreenRow} {cell : TextCell} (hplace : RowPlace (t.rowsFrom fuel s.offsetTop) s.offset g r cell) {m : CursorContext}
    (hm : m.linec = g) :
    ∃ s' m' B, t.rowAbove fuel fuel s m = some (s', m', decide (0 < A.length + g)) ∧
      t.allRows total = B ++ t.rowsFrom fuel s'.offsetTop ∧ A.length + g = B.length + m'.linec ∧
        (0 < A.length + g → 0 < m'.linec) ∧ t.IsLine total s'.offsetTop ∧ s'.offset = s.offset ∧ ∀ base, s'.xDisp base = s.xDisp base := by
  have hpos := ho.nonneg
  have hle' := ho.le
  obtain ⟨fuel, rfl⟩ := Nat.exists_eq_succ_of_ne_zero (Nat.ne_of_gt (Nat.zero_lt_of_lt hfuel))
  rcases Nat.eq_zero_or_pos g with rfl | hg
  · by_cases htop : s.offsetTop ≤ 0
    · have hnil : A = [] := by
        have hzero : s.offsetTop = 0 := by omega
        rw [hzero, rowsFrom_fuel h (total.toNat + 1) (isLine_zero h (hpos.trans hle')) (by omega) (by omega), ← allRows] at hA
        simpa using hA
      subst hnil
      exact ⟨s, m, [], by simp [rowAbove, hm, htop], hA, by simp [hm], by simp, ho, rfl, fun _ => rfl⟩
    · obtain ⟨fuel, rfl⟩ := Nat.exists_eq_succ_of_ne_zero (show fuel ≠ 0 by omega)
      obtain ⟨s', m', A', hrun, hne, hrows, hhidden, ho', hlt, hline, hoff, hltr, hrtl⟩ :=
        lineInFront_spec h ho hfuel (not_le.1 htop) hc hle hplace m
      obtain ⟨B, hB⟩ := exists_above h (hpos.trans hle') ho'
      have hpos' := ho'.nonneg
      rw [rowsFrom_fuel h (fuel + 1 + 1) ho' (by omega) (by omega)] at hB
      have hAB : A = B ++ A' := by
        rw [hrows, hA, ← List.append_assoc] at hB
        exact List.append_cancel_right hB
      have hlen : 0 < A'.length := List.length_pos_of_ne_nil hne
      refine ⟨s', m', B, ?_, hB, by simp [hAB, hline], fun _ => by omega, ho', hoff, fun base => ?_⟩
      · have hposA : 0 < A.length + 0 := by simp [hAB]; omega
        have hnot : ¬m'.linec ≤ 0 := by omega
        rw [rowAbove, if_pos (by omega), if_neg htop, hrun, Option.bind_some, rowAbove, if_neg hnot, decide_eq_true hposA]
      · cases base <;> simp [ViewState.xDisp, hltr, hrtl]
  · refine ⟨s, m, A, ?_, hA, by rw [hm], fun _ => hm ▸ hg, ho, rfl, fun _ => rfl⟩
    rw [rowAbove, if_neg (by omega), decide_eq_true (by omega)]

/-- The window begins at a line at or before the cursor, which is in this cell of this row of the text. -/
structure InRow (t : TextMode) (total : Int) (s : ViewState) (g : Nat) (r : ScreenRow) (cell : TextCell) : Prop where
  line : t.IsLine total s.offsetTop
  top : s.offsetTop ≤ s.offset
  le : s.offset ≤ total
  place : RowPlace (t.allRows total) s.offset g r cell

/-- What else becomes of the window: a row of the text is not above it. -/
structure Moved (t : TextMode) (total : Int) (fuel : Nat) (s s' : ViewState) (g : Nat) : Prop where
  line : t.IsLine total s'.offsetTop
  xDisp : ∀ base, s'.xDisp base = s.xDisp base
  above : ∃ B, t.allRows total = B ++ t.rowsFrom fuel s'.offsetTop ∧ B.length ≤ g

section

variable (h : t.Lays total) {fuel : Nat} (hfuel : total.toNat < fuel) {g : Nat} {r : ScreenRow} {cell : TextCell}
  (hin : InRow t total s g r cell) (hnarrow : Narrow (t.allRows total) s) (again : Bool) {lastX : Int}
  (hlast : lastX.natAbs ≤ 0x3fffffff) (m : CursorContext)

include h hfuel hin hnarrow hlast

/-- The cell closest to the column in the row below, wherever the window begins, or the end of the text. -/
theorem exists_down : ∃ s', t.textMoveUpDown fuel total again lastX s m 1 = some (s', column s again lastX r cell) ∧
    Moved t total fuel s s' (g + 1) ∧
      s'.offset = ((t.allRows total)[g + 1]?.bind (closest s (column s again lastX r cell))).getD total := by
  obtain ⟨ho, hc, hle, hall⟩ := hin
  obtain ⟨A, g', r', cell', hA, hhidden, hplace⟩ := exists_places h ho hfuel hc hle
  obtain ⟨rfl, rfl, rfl⟩ := (hA ▸ hall).eq_of_shows (hplace.front hhidden).getElem? hplace.mem hplace.shows
  have hpos := ho.nonneg
  obtain ⟨m', hm', hxc, -, hline⟩ := getCursorPos_spec h ho (show (total - s.offsetTop).toNat < fuel by omega) hplace m
  have hnear : Near (t.rowsFrom fuel s.offsetTop) s (column s again lastX r' cell') :=
    hnarrow.near hlast (List.mem_of_getElem? hall.getElem?) hall.mem (hA ▸ List.subset_append_right A _)
  obtain ⟨d, hd, hoff⟩ := display1_down h ho (show (total - s.offsetTop).toNat < fuel by omega) (g' + 1)
    (column s again lastX r' cell') total hnear
  refine ⟨{ s with offset := d.2.offsetd }, ?_, ⟨ho, fun _ => rfl, A, hA, by omega⟩, ?_⟩
  · simp only [textMoveUpDown, hm', Option.bind_some, hxc, hline, Int.reduceLT, if_false, if_true]
    rw [show ((g' : Int) + 1) = ((g' + 1 : Nat) : Int) by omega]
    simp only [column] at hd ⊢
    rw [hd]
    rfl
  · rw [hA, List.getElem?_append_right (by omega), show A.length + g' + 1 - A.length = g' + 1 by omega]
    exact hoff

/-- The cell closest to the column in the row above. -/
theorem exists_up : ∃ s', t.textMoveUpDown fuel total again lastX s m (-1) = some (s', column s again lastX r cell) ∧
    Moved t total fuel s s' (g - 1) ∧
      s'.offset = if g = 0 then s.offset else ((t.allRows total)[g - 1]?.bind (closest s (column s again lastX r cell))).getD 0 := by
  obtain ⟨ho, hc, hle, hall⟩ := hin
  obtain ⟨A, g', r', cell', hA, hhidden, hplace⟩ := exists_places h ho hfuel hc hle
  obtain ⟨rfl, rfl, rfl⟩ := (hA ▸ hall).eq_of_shows (hplace.front hhidden).getElem? hplace.mem hplace.shows
  have hpos := ho.nonneg
  obtain ⟨m', hm', hxc, -, hline⟩ := getCursorPos_spec h ho (show (total - s.offsetTop).toNat < fuel by omega) hplace m
  obtain ⟨s₁, m₁, B, hloop, hB, hcount, hsome, ho₁, hoff₁, hdisp⟩ := rowAbove_spec h ho hfuel hc hle hA hplace hline
  simp only [textMoveUpDown, hm', Option.bind_some, hxc, Int.reduceNeg, Int.reduceLT, if_true, hloop]
  by_cases hzero : A.length + g' = 0
  · refine ⟨s₁, ?_, ⟨ho₁, hdisp, B, hB, by omega⟩, ?_⟩
    · simp [hzero, column]
    · rw [if_pos hzero, hoff₁]
  · have hlinec := hsome (Nat.pos_of_ne_zero hzero)
    have hpos₁ := ho₁.nonneg
    have hdistance : ∀ xd base, distance s₁ xd base = distance s xd base := by
      intro xd base
      funext c'
      rw [distance, distance, hdisp]
    have hnear : Near (t.rowsFrom fuel s₁.offsetTop) s₁ (column s again lastX r' cell') := by
      intro r'' hr'' c' hc'
      rw [hdistance]
      exact hnarrow.near hlast (List.mem_of_getElem? hall.getElem?) hall.mem (hB ▸ List.subset_append_right B _) r'' hr'' c' hc'
    obtain ⟨d, hd, hoff⟩ := display1_down h ho₁ (show (total - s₁.offsetTop).toNat < fuel by omega) (m₁.linec - 1)
      (column s again lastX r' cell') 0 hnear
    have hclosest : closest s₁ = closest s := by
      funext xd r''
      rw [closest, closest, hdistance]
    have hyd : (m₁.linec : Int) + -1 = ((m₁.linec - 1 : Nat) : Int) := by omega
    refine ⟨{ s₁ with offset := d.2.offsetd }, ?_, ⟨ho₁, hdisp, B, hB, by omega⟩, ?_⟩
    · simp only [Nat.pos_of_ne_zero hzero, decide_true, if_true, hyd, Int.reduceNeg, if_false]
      simp only [column] at hd ⊢
      rw [hd]
      rfl
    · rw [if_neg hzero, hB, List.getElem?_append_right (by omega), show A.length + g' - 1 - B.length = m₁.linec - 1 by omega,
        ← hclosest]
      exact hoff

end

/-- A row of the text below the one of the cursor or above it is found wherever the window begins. -/
theorem textMoveUpDown_spec (h : t.Lays total) {fuel : Nat} (ho : t.IsLine total s.offsetTop) (hfuel : total.toNat < fuel)
    (hc : s.offsetTop ≤ s.offset) (hle : s.offset ≤ total) (hnarrow : Narrow (t.allRows total) s) (again : Bool) {lastX : Int}
    (hlast : lastX.natAbs ≤ 0x3fffffff) (m : CursorContext) :
    ∃ g r cell xd, RowPlace (t.allRows total) s.offset g r cell ∧ xd = column s again lastX r cell ∧
      (∃ s', t.textMoveUpDown fuel total again lastX s m 1 = some (s', xd) ∧
        s'.offset = ((t.allRows total)[g + 1]?.bind (closest s xd)).getD total) ∧
      ∃ s', t.textMoveUpDown fuel total again lastX s m (-1) = some (s', xd) ∧
        s'.offset = if g = 0 then s.offset else ((t.allRows total)[g - 1]?.bind (closest s xd)).getD 0 := by
  obtain ⟨A, g, r, cell, hA, hhidden, hplace⟩ := exists_places h ho hfuel hc hle
  have hin : InRow t total s (A.length + g) r cell := ⟨ho, hc, hle, hA ▸ hplace.front hhidden⟩
  obtain ⟨s₁, hs₁, -, hoff₁⟩ := exists_down h hfuel hin hnarrow again hlast m
  obtain ⟨s₂, hs₂, -, hoff₂⟩ := exists_up h hfuel hin hnarrow again hlast m
  exact ⟨A.length + g, r, cell, _, hin.place, rfl, ⟨s₁, hs₁, hoff₁⟩, s₂, hs₂, hoff₂⟩

/-- The cursor is behind the letter: down goes to the end of the text, and up stays. -/
theorem textMoveUpDown_letter : ∃ g r cell xd, RowPlace (oneLetter.allRows 2) 1 g r cell ∧
    xd = column ⟨1, 0, 0, 0, 0, 10, 1, 1, false⟩ false 0 r cell ∧
      (∃ s', oneLetter.textMoveUpDown 3 2 false 0 ⟨1, 0, 0, 0, 0, 10, 1, 1, false⟩ ⟨0, none, 0, .ltr, 0, 0, 0⟩ 1 = some (s', xd) ∧
        s'.offset = ((oneLetter.allRows 2)[g + 1]?.bind (closest ⟨1, 0, 0, 0, 0, 10, 1, 1, false⟩ xd)).getD 2) ∧
      ∃ s', oneLetter.textMoveUpDown 3 2 false 0 ⟨1, 0, 0, 0, 0, 10, 1, 1, false⟩ ⟨0, none, 0, .ltr, 0, 0, 0⟩ (-1) = some (s', xd) ∧
        s'.offset = if g = 0 then 1 else
          ((oneLetter.allRows 2)[g - 1]?.bind (closest ⟨1, 0, 0, 0, 0, 10, 1, 1, false⟩ xd)).getD 0 :=
  textMoveUpDown_spec (s := ⟨1, 0, 0, 0, 0, 10, 1, 1, false⟩) oneLetter_lays ⟨by decide, by decide, by decide⟩ (by decide) (by decide)
    (by decide) (by unfold Narrow; decide) false (by decide) _

end TextMode

end Hoe
