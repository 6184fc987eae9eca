import Hoe.Theorems.Movement

/-!
# Scrolling

The window moves over the rows of the whole text: `perform_scroll_up_down` moves it by just as much as it is asked to, but not above
the text, and the cursor with it if it would be out of the window. So do the pages of `text_scroll_up_down`
(`textScrollUpDown_spec`, `pages_back`), and `center_cursor` puts the row of the cursor at half the height (`centerCursor_spec`).
-/

namespace Hoe

variable {s : ViewState}

namespace TextMode

variable {t : TextMode} {total : Int}

/-- The height of what is above a line. -/
def heightAbove (t : TextMode) (total o : Int) : Int := screenHeight (t.allRows total) - screenHeight (t.rowsFrom (total.toNat + 1) o)

/-- How far below the top of the text the window begins. -/
def windowTop (t : TextMode) (total : Int) (s : ViewState) : Int := t.heightAbove total s.offsetTop - s.yDisp

/-- Where a row of the text is in the window. -/
def rowTop (t : TextMode) (total : Int) (s : ViewState) (g : Nat) : Int := screenHeight ((t.allRows total).take g) - t.windowTop total s

theorem rows_pos (h : t.Lays total) {fuel : Nat} {o : Int} (ho : t.IsLine total o) : ∀ r ∈ t.rowsFrom fuel o, 0 < r.2.height := by
  induction fuel generalizing o with
  | zero => simp [rowsFrom]
  | succ fuel ih =>
    intro r hr
    rw [rowsFrom] at hr
    rcases List.mem_append.1 hr with hmem | hmem
    · obtain ⟨r', hr', rfl⟩ := List.mem_map.1 hmem
      exact (h.rows o ho.nonneg ho.le ho.line).2 r' hr'
    · rcases h.next_cases ho with hneg | ⟨hnn, -, hline⟩
      · simp [hneg] at hmem
      · rw [if_neg hnn] at hmem
        exact ih hline r hmem

theorem screenHeight_nonneg {R : List ScreenRow} (h : ∀ r ∈ R, 0 < r.2.height) : 0 ≤ screenHeight R := by
  refine List.sum_nonneg fun x hx => ?_
  obtain ⟨r, hr, rfl⟩ := List.mem_map.1 hx
  exact (h r hr).le

/-- A row ends where the rows behind it begin, or above. -/
theorem screenHeight_take {R : List ScreenRow} (h : ∀ r ∈ R, 0 < r.2.height) {g g' : Nat} {r : ScreenRow} (hr : R[g]? = some r)
    (hlt : g < g') : screenHeight (R.take g) + r.2.height ≤ screenHeight (R.take g') := by
  obtain ⟨n, rfl⟩ := Nat.exists_eq_add_of_lt hlt
  have hget : (R.drop g).take (n + 1) = r :: (R.drop (g + 1)).take n := by
    rw [List.drop_eq_getElem_cons (List.getElem?_eq_some_iff.1 hr).1, (List.getElem?_eq_some_iff.1 hr).2, List.take_succ_cons]
  rw [Nat.add_assoc, List.take_add, screenHeight_append, hget]
  have hrest : 0 ≤ screenHeight ((R.drop (g + 1)).take n) :=
    screenHeight_nonneg fun r' hr' => h r' (List.mem_of_mem_drop (List.mem_of_mem_take hr'))
  simp only [screenHeight, List.map_cons, List.sum_cons] at hrest ⊢
  omega

/-- What is above a line, as rows. -/
theorem heightAbove_eq {A : List ScreenRow} {o : Int} (hA : t.allRows total = A ++ t.rowsFrom (total.toNat + 1) o) :
    t.heightAbove total o = screenHeight A := by
  rw [heightAbove, hA, screenHeight_append]
  omega

theorem allRows_pos (h : t.Lays total) (htotal : 0 ≤ total) : ∀ r ∈ t.allRows total, 0 < r.2.height :=
  rows_pos h (isLine_zero h htotal)

theorem heightAbove_nonneg (h : t.Lays total) {o : Int} (ho : t.IsLine total o) : 0 ≤ t.heightAbove total o := by
  have htotal := ho.nonneg.trans ho.le
  obtain ⟨A, hA⟩ := exists_above h htotal ho
  rw [heightAbove_eq hA]
  exact screenHeight_nonneg fun r hr => allRows_pos h htotal r (hA ▸ List.mem_append_left _ hr)

/-- The line before a line is higher up by its height. -/
theorem heightAbove_prev (h : t.Lays total) {o : Int} (ho : t.IsLine total o) (hpos : 0 < o) :
    t.heightAbove total (t.backwardOffset (o - 1)) = t.heightAbove total o - screenHeight (t.lineRows (t.backwardOffset (o - 1))) := by
  obtain ⟨hp, hlt, hnext⟩ := h.prev ho hpos
  have hle := ho.le
  have hp0 := hp.nonneg
  rw [heightAbove, heightAbove, rowsFrom, hnext, if_neg (by omega), screenHeight_append,
    rowsFrom_fuel h (total.toNat + 1) ho (by omega) (by omega)]
  omega

/-! ## The window -/

/-- The loop puts lines in front without moving the window over the text, until it begins in a line or at the top of the text. -/
theorem linesInFront_spec (h : t.Lays total) {fuel : Nat} (ho : t.IsLine total s.offsetTop) (hfuel : s.offsetTop.toNat < fuel)
    (hy : 0 < s.yDisp) :
    ∃ top y, t.linesInFront fuel s = some { s with offsetTop := top, yDisp := y } ∧ t.IsLine total top ∧ y ≤ 0 ∧
      t.heightAbove total top - y = max 0 (t.windowTop total s) := by
  induction fuel generalizing s with
  | zero => omega
  | succ fuel ih =>
    have hpos := ho.nonneg
    rw [linesInFront]
    by_cases htop : s.offsetTop ≤ 0
    · have hzero : s.offsetTop = 0 := by omega
      have habove : t.heightAbove total s.offsetTop = 0 := by
        rw [hzero, heightAbove, allRows, sub_self]
      refine ⟨s.offsetTop, 0, by simp [htop], ho, Int.le_refl 0, ?_⟩
      rw [windowTop, habove]
      omega
    · obtain ⟨hp, hlt, -⟩ := h.prev ho (not_le.1 htop)
      have hp0 := hp.nonneg
      have hstep := heightAbove_prev h ho (not_le.1 htop)
      obtain ⟨s₁, hs₁⟩ : ∃ s₁ : ViewState, s₁ = { s with
          offsetTop := t.backwardOffset (s.offsetTop - 1)
          yDisp := s.yDisp - screenHeight (t.lineRows (t.backwardOffset (s.offsetTop - 1))) } := ⟨_, rfl⟩
      have hdisplay : ∀ f : CursorFunc Unit, (t.textDisplay f s ({ displayInit s with y := 0 }, ()) (t.backwardOffset (s.offsetTop - 1))).1.y =
          screenHeight (t.lineRows (t.backwardOffset (s.offsetTop - 1))) := by
        intro f
        rw [textDisplay_eq, (showRows_pos _ _).1]
        exact Int.zero_add _
      simp only [if_neg htop, hdisplay, ← hs₁]
      have hsame : t.windowTop total s₁ = t.windowTop total s := by
        rw [windowTop, windowTop, hs₁, hstep]
        simp only
        omega
      split
      case isTrue hmore =>
        obtain ⟨top, y, hrun, hrest⟩ := ih (s := s₁) (by rw [hs₁]; exact hp) (by rw [hs₁]; simp only; omega) hmore
        refine ⟨top, y, ?_, hsame ▸ hrest⟩
        rw [hrun, hs₁]
      case isFalse hdone =>
        refine ⟨s₁.offsetTop, s₁.yDisp, by rw [hs₁], by rw [hs₁]; exact hp, not_lt.1 hdone, ?_⟩
        have hnonneg := heightAbove_nonneg h hp
        have habove : t.heightAbove total s₁.offsetTop = t.heightAbove total (t.backwardOffset (s.offsetTop - 1)) := by rw [hs₁]
        rw [← hsame, windowTop, habove]
        omega

end TextMode

/-! ## The cursor -/

/-- A cell, and where its row is on the screen. -/
structure PlacedCell where
  y : Int
  h : Int
  cell : TextCell

/-- The cells of rows, the first row at `y`. -/
def placedCells : Int → List ScreenRow → List PlacedCell
  | _, [] => []
  | y, r :: R => r.2.cells.map (⟨y, r.2.height, ·⟩) ++ placedCells (y + r.2.height) R

/-- A row that is wholly on a screen of this height. -/
def Inside (height y h : Int) : Prop := 0 ≤ y ∧ y + h ≤ height

instance (height y h : Int) : Decidable (Inside height y h) := inferInstanceAs (Decidable (_ ∧ _))

namespace PlacedCell

/-- The test of `scroll_cursor_func` for the direction. -/
def Usable (height dir : Int) (p : PlacedCell) : Prop := if dir < 0 then 0 ≤ p.y else p.y + p.h ≤ height

instance (height dir : Int) (p : PlacedCell) : Decidable (p.Usable height dir) :=
  inferInstanceAs (Decidable (if dir < 0 then 0 ≤ p.y else p.y + p.h ≤ height))

/-- What `scroll_cursor_func` wants to be large. -/
def rank (dir : Int) (p : PlacedCell) : Int := if dir < 0 then -p.y else p.y + p.h

end PlacedCell

theorem mem_placedCells {y : Int} {R : List ScreenRow} {p : PlacedCell} :
    p ∈ placedCells y R ↔ ∃ g r, R[g]? = some r ∧ p.cell ∈ r.2.cells ∧ p.y = y + screenHeight (R.take g) ∧ p.h = r.2.height := by
  induction R generalizing y with
  | nil => simp [placedCells]
  | cons r R ih =>
    rw [placedCells, List.mem_append, ih]
    constructor
    · rintro (hmem | ⟨g, r', hr', hcell, hy, hh⟩)
      · obtain ⟨c, hc, rfl⟩ := List.mem_map.1 hmem
        exact ⟨0, r, rfl, hc, by simp [screenHeight], rfl⟩
      · refine ⟨g + 1, r', hr', hcell, ?_, hh⟩
        rw [hy, List.take_succ_cons, screenHeight, screenHeight, List.map_cons, List.sum_cons, Int.add_assoc]
    · rintro ⟨g, r', hr', hcell, hy, hh⟩
      cases g with
      | zero =>
        obtain rfl : r = r' := by simpa using hr'
        refine .inl (List.mem_map.2 ⟨p.cell, hcell, ?_⟩)
        have hy' : p.y = y := by simpa [screenHeight] using hy
        rw [← hy', ← hh]
      | succ g =>
        refine .inr ⟨g, r', by simpa using hr', hcell, ?_, hh⟩
        rw [hy, List.take_succ_cons, screenHeight, screenHeight, List.map_cons, List.sum_cons, Int.add_assoc]

/-- A cell is looked at, with whether no more lines are needed. -/
def look (height : Int) (d : ScrollContext × Bool) (p : PlacedCell) : ScrollContext × Bool :=
  let r := scrollCursorFunc height d.1 .ltr p.cell 0 0 p.y p.h
  (r.1, d.2 || r.2)

theorem showRow_look (height : Int) (d : DisplayPos × ScrollContext) (r : ScreenRow) :
    ((showRow (scrollCursorFunc height) s d r).2, (showRow (scrollCursorFunc height) s d r).1.eod) =
      (r.2.cells.map (⟨d.1.y, r.2.height, ·⟩)).foldl (look height) (d.2, d.1.eod) := by
  rw [showRow, flushRow]
  simp only
  generalize r.2.cells = cells
  induction cells generalizing d with
  | nil => rfl
  | cons c cells ih => exact ih (offerCell (scrollCursorFunc height) r.1 (s.xDisp r.1) r.2.height d c)

theorem showRows_look (height : Int) (R : List ScreenRow) (d : DisplayPos × ScrollContext) :
    ((R.foldl (showRow (scrollCursorFunc height) s) d).2, (R.foldl (showRow (scrollCursorFunc height) s) d).1.eod) =
      (placedCells d.1.y R).foldl (look height) (d.2, d.1.eod) := by
  induction R generalizing d with
  | nil => rfl
  | cons r R ih =>
    rw [placedCells, List.foldl_append, ← showRow_look, List.foldl_cons, ih, (showRow_pos d r).1]

/-- What becomes of the cursor when a cell is looked at. -/
theorem look_eq {height : Int} {d : ScrollContext × Bool} (hdir : d.1.dir = 1 ∨ d.1.dir = -1) (p : PlacedCell) :
    look height d p =
      if p.cell.shows d.1.offsetc = true ∧ Inside height p.y p.h then
        ({ d.1 with offsetFound := d.1.offsetc, yFound := 0x7fffffff * d.1.dir }, true)
      else if p.Usable height d.1.dir ∧ d.1.yFound * d.1.dir < p.rank d.1.dir then
        ({ d.1 with yFound := p.rank d.1.dir * d.1.dir, offsetFound := p.cell.offset1 }, d.2)
      else d := by
  obtain ⟨⟨yFound, offsetFound, dir, offsetc⟩, eod⟩ := d
  rcases hdir with rfl | rfl
  · simp only [look, scrollCursorFunc, Inside, PlacedCell.Usable, PlacedCell.rank, Int.reduceLT, if_false, mul_one]
    by_cases hseen : p.cell.shows offsetc = true ∧ 0 ≤ p.y ∧ p.y + p.h ≤ height
    · simp only [hseen, and_self, if_true]
      split <;> simp
    · simp only [if_neg hseen, Bool.or_false]
      split <;> rfl
  · have hlt : yFound * -1 < -p.y ↔ p.y < yFound := by omega
    simp only [look, scrollCursorFunc, Inside, PlacedCell.Usable, PlacedCell.rank, Int.reduceNeg, Int.reduceLT, if_true, hlt]
    by_cases hseen : p.cell.shows offsetc = true ∧ 0 ≤ p.y ∧ p.y + p.h ≤ height
    · simp only [hseen, and_self, if_true]
      split <;> simp
    · simp only [if_neg hseen, Bool.or_false]
      split <;> simp

/-- The search begins. -/
def ScrollContext.fresh (dir c : Int) : ScrollContext := ⟨-0x7fffffff * dir, c, dir, c⟩

/-- The cursor was seen on the screen, and stays where it is. -/
structure Seen (height dir c : Int) (L : List PlacedCell) (d : ScrollContext × Bool) : Prop where
  toward : d.1.dir = dir
  cursor : d.1.offsetc = c
  found : d.1.offsetFound = c
  best : d.1.yFound * dir = 0x7fffffff
  inside : ∃ p ∈ L, Inside height p.y p.h ∧ p.cell.shows c = true

/-- The cursor was not seen on the screen, and no cell that was is better than the one that was found. -/
structure Unseen (height dir c : Int) (L : List PlacedCell) (d : ScrollContext × Bool) : Prop where
  toward : d.1.dir = dir
  cursor : d.1.offsetc = c
  more : d.2 = false
  outside : ∀ p ∈ L, Inside height p.y p.h → p.cell.shows c = false
  best : ∀ p ∈ L, p.Usable height dir → p.rank dir ≤ d.1.yFound * dir
  found : d.1.yFound * dir = -0x7fffffff ∨
    ∃ p ∈ L, p.Usable height dir ∧ p.rank dir = d.1.yFound * dir ∧ d.1.offsetFound = p.cell.offset1

section

variable {height dir c : Int} {L : List PlacedCell} {d : ScrollContext × Bool} (hdir : dir = 1 ∨ dir = -1) (hheight : height ≤ 0x7fffffff)

include hdir

/-- A cell in the window may take the place of the cursor, but no cell is better than the cursor itself. -/
theorem rank_le (hheight : height ≤ 0x7fffffff) {p : PlacedCell} (hp : p.Usable height dir) : p.rank dir ≤ 0x7fffffff := by
  rcases hdir with rfl | rfl <;> simp [PlacedCell.Usable, PlacedCell.rank] at hp ⊢ <;> omega

theorem Seen.look (hheight : height ≤ 0x7fffffff) (h : Seen height dir c L d) (p : PlacedCell) :
    Seen height dir c (L ++ [p]) (look height d p) := by
  obtain ⟨rfl, hcursor, hfound, hbest, q, hq, hinside⟩ := h
  have hmem : q ∈ L ++ [p] := List.mem_append_left _ hq
  rw [look_eq hdir]
  split
  · refine ⟨rfl, hcursor, hcursor, ?_, q, hmem, hinside⟩
    rcases hdir with hone | hone <;> simp [hone]
  · have hnot : ¬(p.Usable height d.1.dir ∧ d.1.yFound * d.1.dir < p.rank d.1.dir) := by
      rintro ⟨husable, hlt⟩
      have hle := rank_le hdir hheight husable
      omega
    rw [if_neg hnot]
    exact ⟨rfl, hcursor, hfound, hbest, q, hmem, hinside⟩

theorem Unseen.look (h : Unseen height dir c L d) (p : PlacedCell) :
    Seen height dir c (L ++ [p]) (look height d p) ∨ Unseen height dir c (L ++ [p]) (look height d p) := by
  obtain ⟨rfl, rfl, hmore, houtside, hbest, hfound⟩ := h
  have hmem : p ∈ L ++ [p] := by simp
  have hone : d.1.dir * d.1.dir = 1 := by rcases hdir with hone | hone <;> simp [hone]
  rw [look_eq hdir]
  split
  case isTrue hseen => exact .inl ⟨rfl, rfl, rfl, by rw [Int.mul_assoc, hone]; rfl, p, hmem, hseen.2, hseen.1⟩
  case isFalse hseen =>
    have houtside' : ∀ q ∈ L ++ [p], Inside height q.y q.h → q.cell.shows d.1.offsetc = false := by
      intro q hq hinside
      rcases List.mem_append.1 hq with hold | hnew
      · exact houtside q hold hinside
      · obtain rfl := List.mem_singleton.1 hnew
        exact Bool.eq_false_iff.2 fun hshows => hseen ⟨hshows, hinside⟩
    refine .inr ?_
    split
    case isTrue htake =>
      have hscore : p.rank d.1.dir * d.1.dir * d.1.dir = p.rank d.1.dir := by rw [Int.mul_assoc, hone, Int.mul_one]
      refine ⟨rfl, rfl, hmore, houtside', ?_, .inr ⟨p, hmem, htake.1, hscore.symm, rfl⟩⟩
      intro q hq husable
      simp only [hscore]
      rcases List.mem_append.1 hq with hold | hnew
      · exact (hbest q hold husable).trans htake.2.le
      · rw [List.mem_singleton.1 hnew]
    case isFalse htake =>
      refine ⟨rfl, rfl, hmore, houtside', ?_, ?_⟩
      · intro q hq husable
        rcases List.mem_append.1 hq with hold | hnew
        · exact hbest q hold husable
        · obtain rfl := List.mem_singleton.1 hnew
          exact not_lt.1 fun hlt => htake ⟨husable, hlt⟩
      · rcases hfound with hnone | ⟨q, hq, hrest⟩
        · exact .inl hnone
        · exact .inr ⟨q, List.mem_append_left _ hq, hrest⟩

/-- The search of `scroll_cursor_func` over any cells. -/
theorem looks_spec (hheight : height ≤ 0x7fffffff) (L : List PlacedCell) (c : Int) :
    Seen height dir c L (L.foldl (Hoe.look height) (.fresh dir c, false)) ∨
      Unseen height dir c L (L.foldl (Hoe.look height) (.fresh dir c, false)) := by
  induction L using List.reverseRecOn with
  | nil =>
    refine .inr ⟨rfl, rfl, rfl, by simp, by simp, .inl ?_⟩
    rcases hdir with rfl | rfl <;> rfl
  | append_singleton L p ih =>
    rw [List.foldl_append, List.foldl_cons, List.foldl_nil]
    rcases ih with hseen | hunseen
    · exact .inl (hseen.look hdir hheight p)
    · exact hunseen.look hdir p

end

namespace TextMode

variable {t : TextMode} {total : Int}

/-- A row of the text that is wholly in the window. -/
def InWindow (t : TextMode) (total : Int) (s : ViewState) (g : Nat) (r : ScreenRow) : Prop :=
  (t.allRows total)[g]? = some r ∧ Inside s.height (t.rowTop total s g) r.2.height

theorem rowTop_lt (h : t.Lays total) (htotal : 0 ≤ total) {g g' : Nat} {r : ScreenRow} (hr : (t.allRows total)[g]? = some r)
    (hlt : g < g') : t.rowTop total s g + r.2.height ≤ t.rowTop total s g' := by
  have htake := screenHeight_take (allRows_pos h htotal) hr hlt
  unfold rowTop
  omega

section

variable {A R R' : List ScreenRow} (hA : t.allRows total = A ++ (R ++ R')) (hR : t.heightAbove total s.offsetTop = screenHeight A)

include hA hR

/-- Where the rows of the display are. -/
theorem rowTop_add (g : Nat) (hg : g ≤ R.length) : t.rowTop total s (A.length + g) = s.yDisp + screenHeight (R.take g) := by
  rw [rowTop, windowTop, hA, hR, List.take_append, List.take_of_length_le (by omega), Nat.add_sub_cancel_left,
    List.take_append_of_le_length hg, screenHeight_append]
  omega

theorem of_mem_placedCells {p : PlacedCell} (hp : p ∈ placedCells s.yDisp R) :
    ∃ g r, (t.allRows total)[g]? = some r ∧ p.cell ∈ r.2.cells ∧ p.y = t.rowTop total s g ∧ p.h = r.2.height := by
  obtain ⟨g, r, hr, hcell, hy, hh⟩ := mem_placedCells.1 hp
  have hg := (List.getElem?_eq_some_iff.1 hr).1
  refine ⟨A.length + g, r, ?_, hcell, ?_, hh⟩
  · rw [hA, List.getElem?_append_right (by omega), Nat.add_sub_cancel_left, List.getElem?_append_left hg, hr]
  · rw [rowTop_add hA hR g hg.le, hy]

/-- A row in the window is displayed, when the display ends below the window or with the last row. -/
theorem mem_placedCells_of_inWindow (h : t.Lays total) (htotal : 0 ≤ total) (hy : s.yDisp ≤ 0)
    (hend : R' ≠ [] → s.height ≤ s.yDisp + screenHeight R) {g : Nat} {r : ScreenRow} (hw : t.InWindow total s g r) {c : TextCell}
    (hc : c ∈ r.2.cells) : ⟨t.rowTop total s g, r.2.height, c⟩ ∈ placedCells s.yDisp R := by
  obtain ⟨hr, htop, hbottom⟩ := hw
  have hpos := allRows_pos h htotal r (List.mem_of_getElem? hr)
  have hfirst := rowTop_add hA hR 0 (Nat.zero_le _)
  have hlast := rowTop_add hA hR R.length (Nat.le_refl _)
  rw [List.take_length] at hlast
  have hnil : screenHeight (R.take 0) = 0 := rfl
  rw [Nat.add_zero] at hfirst
  have hbelow : A.length ≤ g := by
    by_contra hlt
    have := rowTop_lt (s := s) h htotal hr (not_le.1 hlt)
    omega
  obtain ⟨i, rfl⟩ := Nat.exists_eq_add_of_le hbelow
  rw [hA, List.getElem?_append_right hbelow, Nat.add_sub_cancel_left] at hr
  by_cases hi : i < R.length
  · rw [List.getElem?_append_left hi] at hr
    exact mem_placedCells.2 ⟨i, r, hr, hc, rowTop_add hA hR i hi.le, rfl⟩
  · have hne : R' ≠ [] := by
      rintro rfl
      rw [List.append_nil, List.getElem?_eq_none (not_lt.1 hi)] at hr
      cases hr
    have hfull := hend hne
    rcases Nat.eq_or_lt_of_le (not_lt.1 hi) with heq | hlt
    · rw [← heq] at hbottom htop
      omega
    · obtain ⟨r', hr'⟩ : ∃ r', (t.allRows total)[A.length + R.length]? = some r' := by
        obtain ⟨r', R'', rfl⟩ := List.exists_cons_of_ne_nil hne
        exact ⟨r', by simp [hA]⟩
      have := rowTop_lt (s := s) h htotal hr' (show A.length + R.length < A.length + i by omega)
      have := allRows_pos h htotal r' (List.mem_of_getElem? hr')
      omega

end

/-- The display of `perform_scroll_up_down` finds the cursor if it is in the window, and else a cell that is. -/
theorem scroll_found (h : t.Lays total) {fuel : Nat} (ho : t.IsLine total s.offsetTop) (hfuel : total.toNat < fuel) (hy : s.yDisp ≤ 0)
    (hheight : s.height ≤ 0x7fffffff) {dir : Int} (hdir : dir = 1 ∨ dir = -1) :
    ∃ d, t.display1 (scrollCursorFunc s.height) .cursorScreen s fuel
        (displayInit s, .fresh dir s.offset) s.offsetTop = some d ∧
      (∀ g r c, t.InWindow total s g r → c ∈ r.2.cells → c.shows s.offset = true → d.2.offsetFound = s.offset) ∧
        ∀ g r, t.InWindow total s g r → r.2.cells ≠ [] → ∃ g' r', t.InWindow total s g' r' ∧
          ∃ c ∈ r'.2.cells, c.shows d.2.offsetFound = true ∨ d.2.offsetFound = c.offset1 := by
  have hpos := ho.nonneg
  have hle := ho.le
  have htotal := hpos.trans hle
  obtain ⟨A, hA⟩ := exists_above h htotal ho
  have habove := heightAbove_eq hA
  rw [rowsFrom_fuel h fuel ho (by omega) (by omega)] at hA
  obtain ⟨R, R', hrows, hrun, hend⟩ := display1_rows (f := scrollCursorFunc s.height) (s := s) h .cursorScreen ho
    (show (total - s.offsetTop).toNat < fuel by omega) (displayInit s, .fresh dir s.offset)
  rw [hrows] at hA
  refine ⟨_, hrun, ?_⟩
  obtain ⟨d, hd⟩ : ∃ d, d = R.foldl (showRow (scrollCursorFunc s.height) s) (displayInit s, .fresh dir s.offset) :=
    ⟨_, rfl⟩
  have hlook : (placedCells s.yDisp R).foldl (look s.height) (.fresh dir s.offset, false) = (d.2, d.1.eod) := by
    rw [hd]
    exact (showRows_look s.height R (displayInit s, .fresh dir s.offset)).symm
  have hyEnd := (showRows_pos (f := scrollCursorFunc s.height) (s := s) R
    (displayInit s, .fresh dir s.offset)).1
  rw [← hd] at hyEnd hend ⊢
  have hspec := looks_spec hdir hheight (placedCells s.yDisp R) s.offset
  rw [hlook] at hspec
  rcases hspec with hseen | hunseen
  · have hfound : d.2.offsetFound = s.offset := hseen.found
    refine ⟨fun _ _ _ _ _ _ => hfound, fun _ _ _ _ => ?_⟩
    obtain ⟨p, hp, hinside, hshows⟩ := hseen.inside
    obtain ⟨g, r, hr, hcell, hptop, hph⟩ := of_mem_placedCells hA habove hp
    rw [hptop, hph] at hinside
    exact ⟨g, r, ⟨hr, hinside⟩, p.cell, hcell, .inl (by rw [hfound, hshows])⟩
  · have hopen : d.1.eod = false := hunseen.more
    have hend' : R' ≠ [] → s.height ≤ s.yDisp + screenHeight R := by
      intro hne
      have hdone := hend hne
      simpa [DisplayType.done, hopen, hyEnd, displayInit] using hdone
    constructor
    · intro g r c hw hc hshows
      have hout := hunseen.outside _ (mem_placedCells_of_inWindow hA habove h htotal hy hend' hw hc) hw.2
      rw [hshows] at hout
      cases hout
    · intro g r hw hne
      obtain ⟨c, hc⟩ := List.exists_mem_of_ne_nil _ hne
      have hmem := mem_placedCells_of_inWindow hA habove h htotal hy hend' hw hc
      obtain ⟨hr, htop, hbottom⟩ := hw
      have hrpos := allRows_pos h htotal r (List.mem_of_getElem? hr)
      have husable : PlacedCell.Usable s.height dir ⟨t.rowTop total s g, r.2.height, c⟩ := by
        rcases hdir with rfl | rfl
        · exact hbottom
        · exact htop
      have hbest := hunseen.best _ hmem husable
      have hlow : -0x7fffffff < PlacedCell.rank dir ⟨t.rowTop total s g, r.2.height, c⟩ := by
        rcases hdir with rfl | rfl <;> simp [PlacedCell.rank] <;> omega
      rcases hunseen.found with hnone | ⟨q, hq, hqusable, hrank, hfound⟩
      · omega
      · obtain ⟨g', r', hr', hcell, hqtop, hqh⟩ := of_mem_placedCells hA habove hq
        rw [← hrank] at hbest
        refine ⟨g', r', ⟨hr', ?_⟩, q.cell, hcell, .inr hfound⟩
        rw [← hqtop, ← hqh]
        rcases Nat.lt_trichotomy g g' with hlt | rfl | hlt
        · have hafter := rowTop_lt (s := s) h htotal hr hlt
          rcases hdir with rfl | rfl
          · exact ⟨by omega, hqusable⟩
          · simp [PlacedCell.rank] at hbest
            omega
        · obtain rfl : r = r' := Option.some.inj (hr.symm.trans hr')
          rw [hqtop, hqh]
          exact ⟨htop, hbottom⟩
        · have hafter := rowTop_lt (s := s) h htotal hr' hlt
          rcases hdir with rfl | rfl
          · simp [PlacedCell.rank] at hbest
            omega
          · refine ⟨hqusable, ?_⟩
            omega

/-! ## The commands -/

/-- The window was moved over the text by so much, and the cursor with it if it would be out of the window. -/
structure Scrolled (t : TextMode) (total : Int) (s : ViewState) (n : Int) (s' : ViewState) : Prop where
  frame : s' = { s with offset := s'.offset, offsetTop := s'.offsetTop, yDisp := s'.yDisp }
  line : t.IsLine total s'.offsetTop
  yDisp : s'.yDisp ≤ 0
  top : t.windowTop total s' = max 0 (t.windowTop total s + n)
  cursor : ∀ g r c, t.InWindow total s' g r → c ∈ r.2.cells → c.shows s.offset = true → s'.offset = s.offset
  inside : ∀ g r, t.InWindow total s' g r → r.2.cells ≠ [] → ∃ g' r', t.InWindow total s' g' r' ∧
    ∃ c ∈ r'.2.cells, c.shows s'.offset = true ∨ s'.offset = c.offset1

theorem exists_scrolled (h : t.Lays total) {fuel : Nat} (ho : t.IsLine total s.offsetTop) (hfuel : total.toNat < fuel)
    (hheight : s.height ≤ 0x7fffffff) (n : Int) : ∃ s', t.performScrollUpDown fuel s n = some s' ∧ Scrolled t total s n s' := by
  have hpos := ho.nonneg
  have hle := ho.le
  -- where the window begins
  obtain ⟨top, y, hloop, hline, hy, htop⟩ : ∃ top y,
      (if 0 < s.yDisp - n then t.linesInFront fuel { s with yDisp := s.yDisp - n } else some { s with yDisp := s.yDisp - n }) =
        some { s with offsetTop := top, yDisp := y } ∧ t.IsLine total top ∧ y ≤ 0 ∧
          t.heightAbove total top - y = max 0 (t.windowTop total s + n) := by
    have hmoved : t.windowTop total { s with yDisp := s.yDisp - n } = t.windowTop total s + n := by
      simp only [windowTop]
      omega
    split
    case isTrue hout =>
      rw [← hmoved]
      exact linesInFront_spec (s := { s with yDisp := s.yDisp - n }) h ho (by simp only; omega) hout
    case isFalse hin =>
      refine ⟨s.offsetTop, s.yDisp - n, rfl, ho, not_lt.1 hin, ?_⟩
      have hnonneg := heightAbove_nonneg h ho
      rw [← hmoved, windowTop]
      simp only
      omega
  have hdir : -(if n < 0 then (-1 : Int) else 1) = 1 ∨ -(if n < 0 then (-1 : Int) else 1) = -1 := by
    split
    · exact .inl rfl
    · exact .inr rfl
  obtain ⟨d, hd, hcursor, hinside⟩ := scroll_found (s := { s with offsetTop := top, yDisp := y }) h hline hfuel hy hheight hdir
  refine ⟨{ s with offset := d.2.offsetFound, offsetTop := top, yDisp := y }, ?_, rfl, hline, hy, htop, hcursor, hinside⟩
  simp only [performScrollUpDown, hloop, Option.bind_some]
  rw [ScrollContext.fresh, neg_mul_neg] at hd
  rw [hd]
  rfl

/-- The row of the cursor comes to half the height of the window, or to where it is in the text if it is above that. -/
theorem centerCursor_spec (h : t.Lays total) {fuel : Nat} (ho : t.IsLine total s.offsetTop) (hfuel : total.toNat < fuel)
    (hheight : s.height ≤ 0x7fffffff) (hc : s.offsetTop ≤ s.offset) (hle : s.offset ≤ total) (m : CursorContext) :
    ∃ s' g r cell, t.centerCursor fuel s m = some s' ∧ RowPlace (t.allRows total) s.offset g r cell ∧
      t.rowTop total s' g = min (screenHeight ((t.allRows total).take g)) (s.height.tdiv 2) ∧
        (Inside s.height (t.rowTop total s' g) r.2.height → s'.offset = s.offset) := by
  have hpos := ho.nonneg
  have hle' := ho.le
  obtain ⟨A, g, r, cell, hA, hhidden, hplace⟩ := exists_places h ho hfuel hc hle
  obtain ⟨m', hm', hxc, hyc, -⟩ := getCursorPos_spec h ho (show (total - s.offsetTop).toNat < fuel by omega) hplace m
  obtain ⟨s', hs', hscrolled⟩ := exists_scrolled h ho hfuel hheight (-(s.height.tdiv 2 - m'.yc))
  have hall := hplace.front hhidden
  rw [← hA] at hall
  have hcell : cell ∈ r.2.cells := by
    obtain ⟨cs, cs', hcs, -⟩ := hall.cells
    simp [hcs]
  have hrow : m'.yc = t.rowTop total s (A.length + g) := by
    have habove : t.heightAbove total s.offsetTop = screenHeight A := by
      rw [rowsFrom_fuel h (total.toNat + 1) ho (by omega) (by omega)] at hA
      exact heightAbove_eq hA
    have hg := (List.getElem?_eq_some_iff.1 hplace.getElem?).1
    have hrows : t.allRows total = A ++ (t.rowsFrom fuel s.offsetTop ++ []) := by simpa using hA
    rw [hyc, rowTop_add hrows habove g hg.le]
  refine ⟨s', A.length + g, r, cell, ?_, hall, ?_, ?_⟩
  · simp only [centerCursor, hm', Option.bind_some, hxc]
    exact hs'
  · rw [rowTop, hscrolled.top, hrow, rowTop]
    omega
  · intro hinside
    have hsame : s'.height = s.height := by rw [hscrolled.frame]
    exact hscrolled.cursor _ r cell ⟨hall.getElem?, hsame.symm ▸ hinside⟩ hcell hall.shows

/-- The second row of two in a window of four rows stays the second. -/
theorem centerCursor_second : ∃ s' g r cell,
    oneLetter.centerCursor 3 ⟨2, 2, 0, 0, 0, 10, 1, 4, false⟩ ⟨0, none, 0, .ltr, 0, 0, 0⟩ = some s' ∧ RowPlace (oneLetter.allRows 2) 2 g r cell ∧
      oneLetter.rowTop 2 s' g = min (screenHeight ((oneLetter.allRows 2).take g)) 2 ∧
        (Inside 4 (oneLetter.rowTop 2 s' g) r.2.height → s'.offset = 2) :=
  centerCursor_spec (s := ⟨2, 2, 0, 0, 0, 10, 1, 4, false⟩) oneLetter_lays ⟨by decide, by decide, by decide⟩ (by decide) (by decide)
    (by decide) (by decide) _

/-- Any number of scrolls: only the top of the text keeps the window from going where it is asked to. -/
theorem scrolls_spec (h : t.Lays total) {fuel : Nat} (ho : t.IsLine total s.offsetTop) (hfuel : total.toNat < fuel)
    (hheight : s.height ≤ 0x7fffffff) (ns : List Int) :
    ∃ s', ns.foldlM (t.performScrollUpDown fuel) s = some s' ∧ t.IsLine total s'.offsetTop ∧ s'.height = s.height ∧
      t.windowTop total s' = ns.foldl (fun w n => max 0 (w + n)) (t.windowTop total s) := by
  induction ns generalizing s with
  | nil => exact ⟨s, rfl, ho, rfl, rfl⟩
  | cons n ns ih =>
    obtain ⟨s₁, hs₁, hscrolled⟩ := exists_scrolled h ho hfuel hheight n
    have hsame : s₁.height = s.height := by rw [hscrolled.frame]
    obtain ⟨s', hs', hline, hheight', htop⟩ := ih hscrolled.line (hsame.symm ▸ hheight)
    refine ⟨s', ?_, hline, hheight'.trans hsame, ?_⟩
    · rw [List.foldlM_cons, hs₁]
      exact hs'
    · rw [htop, hscrolled.top, List.foldl_cons]

/-- The amount of `text_scroll_up_down`: a line less than the window has, but one at least. -/
def page (height lineHeight : Int) : Int :=
  (if height.tdiv lineHeight - 1 < 1 then 1 else height.tdiv lineHeight - 1) * lineHeight

theorem page_nonneg (height : Int) {lineHeight : Int} (h : 0 < lineHeight) : 0 ≤ page height lineHeight := by
  refine Int.mul_nonneg ?_ h.le
  split <;> omega

/-- The pages of a window are all of the same amount. -/
theorem textScrolls_eq (h : t.Lays total) {fuel : Nat} (ho : t.IsLine total s.offsetTop) (hfuel : total.toNat < fuel)
    (hheight : s.height ≤ 0x7fffffff) (lineHeight : Int) (ds : List Int) :
    ds.foldlM (t.textScrollUpDown fuel lineHeight) s =
      (ds.map (· * page s.height lineHeight)).foldlM (t.performScrollUpDown fuel) s := by
  induction ds generalizing s with
  | nil => rfl
  | cons d ds ih =>
    obtain ⟨s₁, hs₁, hscrolled⟩ := exists_scrolled h ho hfuel hheight (d * page s.height lineHeight)
    have hone : t.textScrollUpDown fuel lineHeight s d = some s₁ := hs₁
    have hsame : s₁.height = s.height := by rw [hscrolled.frame]
    rw [List.map_cons, List.foldlM_cons, List.foldlM_cons, hone, hs₁, ← hsame]
    exact ih hscrolled.line (hsame.symm ▸ hheight)

theorem foldl_down {w p : Int} (hw : 0 ≤ w) (hp : 0 ≤ p) (k : Nat) :
    (List.replicate k p).foldl (fun w n => max 0 (w + n)) w = w + k * p := by
  induction k generalizing w with
  | zero => simp
  | succ k ih =>
    have hmax : max 0 (w + p) = w + p := by omega
    rw [List.replicate_succ, List.foldl_cons, hmax, ih (by omega), Nat.cast_succ, Int.add_mul]
    omega

theorem foldl_up {w p : Int} (hw : 0 ≤ w) (hp : 0 ≤ p) (k : Nat) :
    (List.replicate k (-p)).foldl (fun w n => max 0 (w + n)) (w + k * p) = w := by
  induction k with
  | zero => simp
  | succ k ih =>
    have hnonneg : 0 ≤ k * p := Int.mul_nonneg (Int.natCast_nonneg k) hp
    have hmax : max 0 (w + (k + 1 : Nat) * p + -p) = w + k * p := by
      rw [Nat.cast_succ, Int.add_mul]
      omega
    rw [List.replicate_succ, List.foldl_cons, hmax, ih]

end TextMode

end Hoe
