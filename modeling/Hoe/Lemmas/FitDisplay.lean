import Hoe.Redisplay
import Mathlib.Tactic.SplitIfs
import Mathlib.Tactic.Ring
import Mathlib.Algebra.Order.BigOperators.Group.List

/-!
# Laying lines out

What `text_display` does to the place of the display and to the cursor, for a line that does not show the cursor and for the one
that does, and the distance between two lines (`Down`).
-/

namespace Hoe

/-- How often the rows offer an offset to `cursor_func` so that it is found. -/
def offers (rows : List TextRow) (offset : Int) : Nat := ((rows.flatMap (·.cells)).filter (·.shows offset)).length

/-- The height of rows. -/
def rowsHeight (rows : List TextRow) : Int := (rows.map (·.height)).sum

/-! ## Cells -/

theorem offerCell_y (base : DirType) (xDisp h : Int) (d : DisplayCursor) (c : TextCell) :
    (offerCell cursorFunc base xDisp h d c).1.y = d.1.y ∧ (offerCell cursorFunc base xDisp h d c).2.offsetc = d.2.offsetc := by
  rw [offerCell, cursorFunc]
  split_ifs <;> exact ⟨rfl, rfl⟩

theorem offerCells_y (base : DirType) (xDisp h : Int) (cells : List TextCell) (d : DisplayCursor) :
    (cells.foldl (offerCell cursorFunc base xDisp h) d).1.y = d.1.y ∧
      (cells.foldl (offerCell cursorFunc base xDisp h) d).2.offsetc = d.2.offsetc := by
  induction cells generalizing d with
  | nil => exact ⟨rfl, rfl⟩
  | cons c cells ih =>
    obtain ⟨hy, hoff⟩ := offerCell_y base xDisp h d c
    obtain ⟨hy', hoff'⟩ := ih (offerCell cursorFunc base xDisp h d c)
    exact ⟨hy'.trans hy, hoff'.trans hoff⟩

/-- Cells that do not show the cursor leave it alone. -/
theorem offerCells_hidden {base : DirType} {xDisp h : Int} {cells : List TextCell} {d : DisplayCursor}
    (hidden : ∀ c ∈ cells, c.shows d.2.offsetc = false) : (cells.foldl (offerCell cursorFunc base xDisp h) d).2 = d.2 := by
  induction cells generalizing d with
  | nil => rfl
  | cons c cells ih =>
    obtain ⟨hc, hcells⟩ := List.forall_mem_cons.mp hidden
    have hone : (offerCell cursorFunc base xDisp h d c).2 = d.2 := by
      rw [offerCell, cursorFunc, if_neg (Bool.eq_false_iff.mp hc)]
    exact (ih (hone ▸ hcells)).trans hone

/-- The cursor was found in a row that begins at `y` and has the height. -/
structure Found (m : CursorContext) (y h : Int) : Prop where
  xc : m.xc.isSome = true
  yc : m.yc = y
  height : m.cursorHeight = h

theorem Found.offerCells {base : DirType} {xDisp h : Int} (cells : List TextCell) {d : DisplayCursor} (hfound : Found d.2 d.1.y h) :
    Found (cells.foldl (offerCell cursorFunc base xDisp h) d).2 d.1.y h := by
  induction cells generalizing d with
  | nil => exact hfound
  | cons c cells ih =>
    have hy := (offerCell_y base xDisp h d c).1
    refine hy ▸ ih (hy.symm ▸ ?_)
    rw [offerCell, cursorFunc]
    split_ifs
    · exact ⟨rfl, rfl, rfl⟩
    · exact hfound

/-- One of the cells shows the cursor. -/
theorem offerCells_found {base : DirType} {xDisp h : Int} {cells : List TextCell} {d : DisplayCursor} {c : TextCell} (hc : c ∈ cells)
    (hshows : c.shows d.2.offsetc = true) : Found (cells.foldl (offerCell cursorFunc base xDisp h) d).2 d.1.y h := by
  induction cells generalizing d with
  | nil => nomatch hc
  | cons c' cells ih =>
    obtain ⟨hy, hoff⟩ := offerCell_y base xDisp h d c'
    rcases List.mem_cons.mp hc with rfl | hc
    · have hone : Found (offerCell cursorFunc base xDisp h d c).2 d.1.y h := by
        rw [offerCell, cursorFunc, if_pos hshows]
        exact ⟨rfl, rfl, rfl⟩
      exact hy ▸ Found.offerCells cells (hy.symm ▸ hone)
    · exact hy ▸ ih hc (hoff.symm ▸ hshows)

/-! ## Rows -/

theorem offers_cons (r : TextRow) (rows : List TextRow) (offset : Int) :
    offers (r :: rows) offset = (r.cells.filter (·.shows offset)).length + offers rows offset := by
  rw [offers, List.flatMap_cons, List.filter_append, List.length_append, ← offers]

theorem hidden_of_filter {cells : List TextCell} {offset : Int} (h : (cells.filter (·.shows offset)).length = 0) :
    ∀ c ∈ cells, c.shows offset = false := by
  intro c hc
  have hnil := List.filter_eq_nil_iff.mp (List.eq_nil_of_length_eq_zero h) c hc
  exact Bool.eq_false_iff.mpr hnil

/-- Rows that do not show the cursor. -/
theorem flushRows_hidden (base : DirType) (xDisp : Int) {rows : List TextRow} {d : DisplayCursor} (h : offers rows d.2.offsetc = 0) :
    (rows.foldl (flushRow cursorFunc base xDisp) d).1.y = d.1.y + rowsHeight rows ∧ (rows.foldl (flushRow cursorFunc base xDisp) d).2 = d.2 := by
  induction rows generalizing d with
  | nil => exact ⟨(Int.add_zero _).symm, rfl⟩
  | cons r rows ih =>
    rw [offers_cons] at h
    have hone : (flushRow cursorFunc base xDisp d r).2 = d.2 := offerCells_hidden (hidden_of_filter (by omega))
    have hy : (flushRow cursorFunc base xDisp d r).1.y = d.1.y + r.height := by
      rw [flushRow, (offerCells_y base xDisp r.height r.cells d).1]
    obtain ⟨hy', hm'⟩ := ih (d := flushRow cursorFunc base xDisp d r) (by rw [hone]; omega)
    refine ⟨?_, hm'.trans hone⟩
    rw [List.foldl_cons, hy', hy, rowsHeight, rowsHeight, List.map_cons, List.sum_cons, Int.add_assoc]

theorem rowsHeight_nonneg {rows : List TextRow} (h : ∀ r ∈ rows, 0 < r.height) : 0 ≤ rowsHeight rows := by
  refine List.sum_nonneg ?_
  intro x hx
  obtain ⟨r, hr, rfl⟩ := List.mem_map.mp hx
  exact (h r hr).le

/-- The row of the cursor: where it begins in the line, and how high it is. -/
structure CursorRow (rows : List TextRow) (offset k h : Int) : Prop where
  nonneg : 0 ≤ k
  inside : k + h ≤ rowsHeight rows
  row : ∃ r ∈ rows, r.height = h ∧ ∃ c ∈ r.cells, c.shows offset = true
  found : ∀ base xDisp d, d.2.offsetc = offset → Found (rows.foldl (flushRow cursorFunc base xDisp) d).2 (d.1.y + k) h ∧
    (rows.foldl (flushRow cursorFunc base xDisp) d).1.y = d.1.y + rowsHeight rows ∧
      (rows.foldl (flushRow cursorFunc base xDisp) d).2.offsetc = offset

/-- Rows that show the cursor once have a row for it, wherever they are laid out. -/
theorem exists_cursorRow {rows : List TextRow} {offset : Int} (hpos : ∀ r ∈ rows, 0 < r.height) (h : offers rows offset = 1) :
    ∃ k height, CursorRow rows offset k height := by
  induction rows with
  | nil => nomatch h
  | cons r rows ih =>
    obtain ⟨hr, hrows⟩ := List.forall_mem_cons.mp hpos
    have hsum : rowsHeight (r :: rows) = r.height + rowsHeight rows := by
      rw [rowsHeight, List.map_cons, List.sum_cons, ← rowsHeight]
    have hnonneg := rowsHeight_nonneg hrows
    have hflush : ∀ base xDisp (d : DisplayCursor), (flushRow cursorFunc base xDisp d r).1.y = d.1.y + r.height ∧
        (flushRow cursorFunc base xDisp d r).2.offsetc = d.2.offsetc := by
      intro base xDisp d
      obtain ⟨hy, hoff⟩ := offerCells_y base xDisp r.height r.cells d
      rw [flushRow]
      exact ⟨by rw [hy], hoff⟩
    rw [offers_cons] at h
    rcases Nat.eq_zero_or_pos (r.cells.filter (·.shows offset)).length with hzero | hsome
    · obtain ⟨k, height, hk, hin, ⟨r', hr', hrow⟩, hfound⟩ := ih hrows (by omega)
      refine ⟨r.height + k, height, by omega, by omega, ⟨r', List.mem_cons_of_mem _ hr', hrow⟩, ?_⟩
      intro base xDisp d hd
      obtain ⟨hy, hoff⟩ := hflush base xDisp d
      obtain ⟨hf, hy', hoff'⟩ := hfound base xDisp (flushRow cursorFunc base xDisp d r) (hoff.trans hd)
      rw [List.foldl_cons, hsum, ← Int.add_assoc, ← Int.add_assoc]
      rw [hy] at hf hy'
      exact ⟨hf, hy', hoff'⟩
    · obtain ⟨c, hc⟩ := List.exists_mem_of_length_pos hsome
      obtain ⟨hmem, hshows⟩ := List.mem_filter.mp hc
      refine ⟨0, r.height, le_refl 0, by omega, ⟨r, List.mem_cons_self, rfl, c, hmem, hshows⟩, ?_⟩
      intro base xDisp d hd
      obtain ⟨hy, hoff⟩ := hflush base xDisp d
      have hf : Found (flushRow cursorFunc base xDisp d r).2 d.1.y r.height := offerCells_found hmem (hd.symm ▸ hshows)
      have hrest : offers rows (flushRow cursorFunc base xDisp d r).2.offsetc = 0 := by
        rw [hoff, hd]
        omega
      obtain ⟨hy', hm'⟩ := flushRows_hidden base xDisp hrest
      rw [List.foldl_cons, hsum, ← Int.add_assoc, hm', hy', hy, Int.add_zero]
      exact ⟨hf, rfl, hoff.trans hd⟩

end Hoe
