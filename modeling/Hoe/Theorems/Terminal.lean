import Hoe.Lemmas.Tty

/-!
# The terminal shows the screen

`Kept` holds between any two calls: a row that is not marked is the row `term_flush` printed last, and what it printed last is on
the terminal. A flush then prints the marked rows that differ, and every row of the terminal shows the row of the screen.
-/

namespace Hoe

open Splice

/-- A row of the terminal shows the cells. -/
def RowShown (t : Vt.Terminal) (y : Nat) (row : List TTYChar) : Prop := ∀ x c, row[x]? = some c → CellShows (t.cells y x) c

namespace TTYState

/-- The arrays have the size of the screen, and all of it is drawn on. -/
structure Sized (ts : TTYState) : Prop where
  old : ts.oldScreen.length = ts.width * ts.height
  screen : ts.screen.length = ts.width * ts.height
  lines : ts.lineUpdated.length = ts.height
  clipX : ts.clipX2 = ts.width
  clipY : ts.clipY2 = ts.height

theorem Sized.row_le {ts : TTYState} (h : ts.Sized) {y : Nat} (hy : y < ts.height) :
    y * ts.width + ts.width ≤ ts.screen.length := by
  rw [h.screen, ← Nat.succ_mul, Nat.mul_comm]
  exact Nat.mul_le_mul_left _ hy

theorem Sized.length_row {ts : TTYState} (h : ts.Sized) {y : Nat} (hy : y < ts.height) : (ts.row y).length = ts.width :=
  length_slice _ (h.row_le hy)

/-- Every cell of the screen shows. -/
def AllPrintable (ts : TTYState) : Prop := ∀ y < ts.height, ∀ x < ts.width, PrintableAt ts.screen (y * ts.width + x)

theorem AllPrintable.printable_row {ts : TTYState} (h : ts.AllPrintable) {y : Nat} (hy : y < ts.height) : ∀ c ∈ ts.row y, c.Printable := by
  intro c hc
  obtain ⟨x, hx⟩ := List.mem_iff_getElem?.1 hc
  rw [row, getElem?_slice] at hx
  split_ifs at hx with hlt
  obtain ⟨d, hd, hprintable⟩ := h y hy x hlt
  rw [hx, Option.some_inj] at hd
  rw [hd]
  exact hprintable

/-- A cell that was never printed. -/
def unprinted : TTYChar := { ch := 0, bgcolor := 0, fgcolor := 0 }

theorem not_printable_unprinted : ¬ unprinted.Printable := fun h => absurd h.visible (by decide)

end TTYState

/-! ## Between calls -/

/-- What the last flush printed is on the terminal, where there was a flush since the resize, and the rows that are not marked are
still as they were. -/
structure Display.Kept (d : Display) : Prop where
  sized : d.ts.Sized
  width : d.ts.width = d.terminal.width
  height : d.ts.height = d.terminal.height
  ground : d.terminal.mode = .ground
  same : ∀ y < d.ts.height, d.ts.lineUpdated.getD y false = false → d.ts.row y = d.ts.oldRow y
  shown : ∀ y < d.ts.height, RowShown d.terminal y (d.ts.oldRow y) ∨
    d.ts.lineUpdated.getD y false = true ∧ d.ts.oldRow y = List.replicate d.ts.width TTYState.unprinted

namespace Flushing

/-- After `k` rows of a flush: these rows are on the terminal, the others are as they were. -/
structure Done (d : Display) (k : Nat) (s : Flushing) (t : Vt.Terminal) : Prop where
  fed : d.terminal.feed s.out = t
  ground : t.mode = .ground
  width : t.width = d.terminal.width
  height : t.height = d.terminal.height
  known : s.Known t
  ts : ∃ lines old, s.ts = { d.ts with lineUpdated := lines, oldScreen := old }
  sized : s.ts.Sized
  before : ∀ y < k, s.ts.lineUpdated.getD y false = false ∧ s.ts.oldRow y = d.ts.row y ∧ RowShown t y (d.ts.row y)
  behind : ∀ y, k ≤ y → y < d.ts.height → s.ts.lineUpdated.getD y false = d.ts.lineUpdated.getD y false ∧
    s.ts.oldRow y = d.ts.oldRow y ∧ ∀ x, t.cells y x = d.terminal.cells y x

/-- A row is done when its mark is gone, its old cells are its cells, the terminal shows them, and the other rows are as before. -/
theorem Done.next {d : Display} {k : Nat} {s s' : Flushing} {t t' : Vt.Terminal} (h : Done d k s t)
    (hfed : d.terminal.feed s'.out = t') (hground : t'.mode = .ground) (hwidth : t'.width = t.width) (hheight : t'.height = t.height)
    (hknown : s'.Known t') {lines : List Bool} {old : List TTYChar}
    (hts : s'.ts = { s.ts with lineUpdated := lines, oldScreen := old }) (hlines : lines.length = s.ts.lineUpdated.length)
    (hold : old.length = s.ts.oldScreen.length) (hflag : lines.getD k false = false) (hrow : s'.ts.oldRow k = d.ts.row k)
    (hshown : RowShown t' k (d.ts.row k))
    (hsame : ∀ y ≠ k, lines.getD y false = s.ts.lineUpdated.getD y false ∧ s'.ts.oldRow y = s.ts.oldRow y ∧
      ∀ x, t'.cells y x = t.cells y x) : Done d (k + 1) s' t' where
  fed := hfed
  ground := hground
  width := hwidth.trans h.width
  height := hheight.trans h.height
  known := hknown
  ts := by
    obtain ⟨lines₀, old₀, hts₀⟩ := h.ts
    exact ⟨lines, old, by rw [hts, hts₀]⟩
  sized := by
    obtain ⟨h₁, h₂, h₃, h₄, h₅⟩ := h.sized
    rw [hts]
    exact ⟨hold.trans h₁, h₂, hlines.trans h₃, h₄, h₅⟩
  before := by
    intro y hy
    rcases Nat.lt_succ_iff_lt_or_eq.1 hy with hlt | rfl
    · obtain ⟨h₁, h₂, h₃⟩ := h.before y hlt
      obtain ⟨g₁, g₂, g₃⟩ := hsame y (Nat.ne_of_lt hlt)
      refine ⟨?_, g₂.trans h₂, ?_⟩
      · rw [hts]
        exact g₁.trans h₁
      · intro x c hx
        rw [g₃]
        exact h₃ x c hx
    · refine ⟨?_, hrow, hshown⟩
      rw [hts]
      exact hflag
  behind := by
    intro y hk hy
    obtain ⟨h₁, h₂, h₃⟩ := h.behind y (by omega) hy
    obtain ⟨g₁, g₂, g₃⟩ := hsame y (by omega)
    refine ⟨?_, g₂.trans h₂, fun x => (g₃ x).trans (h₃ x)⟩
    rw [hts]
    exact g₁.trans h₁

/-- One row of a flush. -/
theorem Done.flushLine {d : Display} (hkept : d.Kept) (hprintable : d.ts.AllPrintable) {k : Nat} {s : Flushing} {t : Vt.Terminal}
    (h : Done d k s t) (hk : k < d.ts.height) : ∃ t', Done d (k + 1) (s.flushLine k) t' := by
  obtain ⟨hflag, hold, hcells⟩ := h.behind k le_rfl hk
  obtain ⟨lines, old, hts⟩ := h.ts
  have hsrow : s.ts.row k = d.ts.row k := by rw [hts]; rfl
  have hk' : k < s.ts.height := by
    rw [hts]
    exact hk
  have hlines : k < s.ts.lineUpdated.length := by
    rw [h.sized.lines]
    exact hk'
  have hunchanged : ∀ y, RowShown d.terminal y (d.ts.oldRow y) → (∀ x, t.cells y x = d.terminal.cells y x) →
      RowShown t y (d.ts.oldRow y) := by
    intro y hy hsame x c hx
    rw [hsame]
    exact hy x c hx
  rw [Flushing.flushLine]
  split_ifs with hclear heq
  · -- the row is not marked
    have hdrow := hkept.same k hk (hflag ▸ hclear)
    refine ⟨t, h.next h.fed h.ground rfl rfl h.known rfl rfl rfl hclear (hold.trans hdrow.symm) ?_ fun y _ => ⟨rfl, rfl, fun _ => rfl⟩⟩
    rw [hdrow]
    rcases hkept.shown k hk with hshown | ⟨hmarked, _⟩
    · exact hunchanged k hshown hcells
    · rw [← hflag, hclear] at hmarked
      nomatch hmarked
  · -- the row is marked, and as it was
    have hdrow : d.ts.row k = d.ts.oldRow k := hsrow ▸ heq.trans hold
    refine ⟨t, h.next h.fed h.ground rfl rfl h.known rfl List.length_set rfl (getD_set_self false hlines)
      (hold.trans hdrow.symm) ?_ fun y hy => ⟨getD_set_of_ne false hy, rfl, fun _ => rfl⟩⟩
    rcases hkept.shown k hk with hshown | ⟨_, hnever⟩
    · rw [hdrow]
      exact hunchanged k hshown hcells
    · -- a row that was never printed has cells that do not show
      intro x c hx
      have hmem := List.mem_of_getElem? hx
      have hc := hprintable.printable_row hk c hmem
      rw [hdrow, hnever] at hmem
      rw [(List.mem_replicate.1 hmem).2] at hc
      exact absurd hc TTYState.not_printable_unprinted
  · -- the row is printed
    obtain ⟨s₁, hs₁⟩ : ∃ s₁ : Flushing, s₁ = { s.unmark k with out := s.out ++ Vt.position (k + 1) 1 } := ⟨_, rfl⟩
    obtain ⟨t₁, ht₁⟩ : ∃ t₁ : Vt.Terminal, t₁ = { t with row := k, col := 0 } := ⟨_, rfl⟩
    have hheight : k ≤ t.height - 1 := by
      rw [h.height, ← hkept.height]
      omega
    have hfed₁ : d.terminal.feed s₁.out = t₁ := by
      rw [hs₁]
      dsimp only
      rw [Vt.Terminal.feed_append, h.fed, Vt.Terminal.feed_position h.ground, ht₁, Nat.add_sub_cancel, Nat.sub_self,
        Nat.min_eq_left hheight, Nat.zero_min]
    have hground₁ : t₁.mode = .ground := by rw [ht₁, ← h.ground]
    have hlen : (s.ts.row k).length = t.width := by
      rw [hsrow, hkept.sized.length_row hk, h.width, hkept.width]
    have hcol : t₁.col + (s.ts.row k).length ≤ t₁.width := by
      rw [ht₁, hlen, Nat.zero_add]
    have hknown₁ : s₁.Known t₁ := by
      rw [hs₁, ht₁]
      exact h.known
    have hcells₁ : ∀ c ∈ s.ts.row k, c.Printable := by
      rw [hsrow]
      exact hprintable.printable_row hk
    obtain ⟨t₂, ht₂, hwrote, hknown₂, hts₂, hshows⟩ := flushCells_spec hfed₁ hground₁ hknown₁ hcol hcells₁
    have hprint : (s.unmark k).printLine k = (s.ts.row k).foldl flushCell s₁ := by rw [hs₁]; rfl
    rw [← hprint] at ht₂ hknown₂ hts₂
    generalize (s.unmark k).printLine k = s₂ at ht₂ hknown₂ hts₂ ⊢
    have hts' : (s₂.keepLine k).ts = { s.ts with
        lineUpdated := s.ts.lineUpdated.set k false
        oldScreen := overwriteAt s.ts.oldScreen (k * s.ts.width) (s.ts.row k) } := by
      rw [keepLine, hts₂, hs₁]
      rfl
    have hrange : k * s.ts.width + (s.ts.row k).length ≤ s.ts.oldScreen.length := by
      rw [h.sized.length_row hk', h.sized.old, ← h.sized.screen]
      exact h.sized.row_le hk'
    refine ⟨t₂, h.next ht₂ hwrote.ground ?_ ?_ hknown₂ hts' List.length_set (length_overwriteAt _ hrange) (getD_set_self false hlines)
      ?_ ?_ ?_⟩
    · rw [hwrote.width, ht₁]
    · rw [hwrote.height, ht₁]
    · have hoff : k * s.ts.width ≤ s.ts.oldScreen.length := by omega
      have hslice := slice_overwriteAt s.ts.oldScreen (s.ts.row k) hoff
      rw [h.sized.length_row hk'] at hslice
      rw [hts', ← hsrow]
      exact hslice
    · rw [← hsrow]
      intro x c hx
      have hcell := hshows x c hx
      rw [ht₁] at hcell
      dsimp only at hcell
      rwa [Nat.zero_add] at hcell
    · intro y hy
      refine ⟨getD_set_of_ne false hy, ?_, ?_⟩
      · rw [hts']
        refine slice_congr fun i hi => getElem?_overwriteAt _ _ (by omega) ?_
        rw [h.sized.length_row hk']
        exact other_row hi hy
      · intro x
        rw [hwrote.same y x (Or.inl (by rw [ht₁]; exact hy)), ht₁]

/-- The rows from the first on. -/
theorem done_foldl {d : Display} (hkept : d.Kept) (hprintable : d.ts.AllPrintable) {k : Nat} (hk : k ≤ d.ts.height) :
    ∃ t, Done d k ((List.range k).foldl flushLine { ts := d.ts, fgcolor := -1, bgcolor := -1, out := [] }) t := by
  induction k with
  | zero =>
    refine ⟨d.terminal, rfl, hkept.ground, rfl, rfl, Or.inl rfl, ⟨d.ts.lineUpdated, d.ts.oldScreen, rfl⟩, hkept.sized, ?_, ?_⟩
    · intro y hy
      exact absurd hy (Nat.not_lt_zero y)
    · intro y _ _
      exact ⟨rfl, rfl, fun _ => rfl⟩
  | succ k ih =>
    obtain ⟨t, ht⟩ := ih (by omega)
    rw [List.range_succ, List.foldl_append]
    exact ht.flushLine hkept hprintable hk

end Flushing

namespace Display

/-- Every row of the terminal shows the row of the screen. -/
def AllShown (d : Display) : Prop := ∀ y < d.ts.height, RowShown d.terminal y (d.ts.row y)

/-- A flush brings the screen to the terminal, and leaves the screen as it is. -/
theorem Kept.flush {d : Display} (hkept : d.Kept) (hprintable : d.ts.AllPrintable) :
    (d.call .flush).Kept ∧ (d.call .flush).AllShown ∧
      ∃ lines old, (d.call .flush).ts = { d.ts with lineUpdated := lines, oldScreen := old } := by
  obtain ⟨t, h⟩ := Flushing.done_foldl hkept hprintable le_rfl
  obtain ⟨s, hs⟩ : ∃ s, s = (List.range d.ts.height).foldl Flushing.flushLine { ts := d.ts, fgcolor := -1, bgcolor := -1, out := [] } :=
    ⟨_, rfl⟩
  rw [← hs] at h
  obtain ⟨lines, old, hts⟩ := h.ts
  have hflush : d.ts.termFlush = (s.ts, s.out ++ Vt.position (d.ts.cursorY + 1) (d.ts.cursorX + 1)) := by rw [hs]; rfl
  obtain ⟨t', ht'⟩ : ∃ t', t' = t.feed (Vt.position (d.ts.cursorY + 1) (d.ts.cursorX + 1)) := ⟨_, rfl⟩
  have hcall : d.call .flush = { ts := s.ts, terminal := t' } := by
    rw [call, hflush]
    dsimp only
    rw [Vt.Terminal.feed_append, h.fed, ht']
  rw [Vt.Terminal.feed_position h.ground] at ht'
  have hrow : ∀ y, s.ts.row y = d.ts.row y := by
    intro y
    rw [hts]
    rfl
  have hheight : s.ts.height = d.ts.height := by rw [hts]
  have hshown : ∀ y < s.ts.height, RowShown t' y (s.ts.row y) := by
    intro y hy
    rw [hrow, ht']
    exact (h.before y (hheight ▸ hy)).2.2
  rw [hcall]
  refine ⟨⟨h.sized, ?_, ?_, ?_, ?_, ?_⟩, hshown, lines, old, hts⟩
  · rw [hts, ht', hkept.width, ← h.width]
  · rw [hts, ht', hkept.height, ← h.height]
  · rw [ht', ← h.ground]
  · intro y hy _
    exact (hrow y).trans (h.before y (hheight ▸ hy)).2.1.symm
  · intro y hy
    have hy' := hshown y hy
    rw [hrow, ← (h.before y (hheight ▸ hy)).2.1] at hy'
    exact Or.inl hy'

/-- Drawing keeps `Kept` when it marks the rows it changes. -/
theorem Kept.drawn {d : Display} (hkept : d.Kept) {screen : List TTYChar} {lines : List Bool}
    (hscreen : screen.length = d.ts.screen.length) (hlines : lines.length = d.ts.lineUpdated.length)
    (hmarks : ∀ y < d.ts.height, d.ts.lineUpdated.getD y false = true → lines.getD y false = true)
    (hsame : ∀ y < d.ts.height, lines.getD y false = false →
      slice screen (y * d.ts.width) d.ts.width = slice d.ts.screen (y * d.ts.width) d.ts.width) :
    ({ d with ts := { d.ts with screen := screen, lineUpdated := lines } } : Display).Kept := by
  obtain ⟨h₁, h₂, h₃, h₄, h₅⟩ := hkept.sized
  refine ⟨⟨h₁, hscreen.trans h₂, hlines.trans h₃, h₄, h₅⟩, hkept.width, hkept.height, hkept.ground, ?_, ?_⟩
  · intro y hy hclear
    refine (hsame y hy hclear).trans (hkept.same y hy ?_)
    by_contra hmarked
    rw [hmarks y hy (Bool.eq_true_of_not_eq_false hmarked)] at hclear
    nomatch hclear
  · intro y hy
    rcases hkept.shown y hy with hshown | ⟨hmarked, hnever⟩
    · exact Or.inl hshown
    · exact Or.inr ⟨hmarks y hy hmarked, hnever⟩

theorem Kept.fillRectangle {d : Display} (hkept : d.Kept) {x1 y1 w h color : Nat} (hw : x1 + w ≤ d.ts.width) :
    (d.call (.fillRectangle x1 y1 w h color)).Kept := by
  have hlen : ∀ y < d.ts.height, y < d.ts.lineUpdated.length := by
    intro y hy
    rw [hkept.sized.lines]
    exact hy
  refine hkept.drawn (length_changeRows _ _ _ _ _ _) (length_markLines _ _ _) ?_ ?_
  · intro y hy hmarked
    rw [getD_markLines _ _ (hlen y hy), hmarked, Bool.or_true]
  · intro y hy hclear
    rw [getD_markLines _ _ (hlen y hy), Bool.or_eq_false_iff, decide_eq_false_iff_not] at hclear
    refine slice_congr fun x hx => ?_
    rw [getElem?_changeRows _ hw _ _ _ hx, if_neg fun hin => hclear.1 hin.1]

/-- A text is rejected, or it marks a row of the screen and changes no other. -/
theorem termDrawText_cases (ts : TTYState) (x y : Int) (str : List Nat) (color : Nat) :
    ts.termDrawText x y str color = ts ∨ (y.toNat : Int) < ts.clipY2 ∧
      ts.termDrawText x y str color = { ts with
        screen := (ts.termDrawText x y str color).screen, lineUpdated := ts.lineUpdated.set y.toNat true } := by
  rw [TTYState.termDrawText]
  split_ifs with hout
  · exact Or.inl rfl
  · exact Or.inr ⟨by omega, rfl⟩
  · exact Or.inr ⟨by omega, rfl⟩

theorem size_drawText (d : Display) (x y : Int) (str : List Nat) (color : Nat) :
    (d.call (.drawText x y str color)).ts.width = d.ts.width ∧ (d.call (.drawText x y str color)).ts.height = d.ts.height := by
  rcases termDrawText_cases d.ts x y str color with heq | ⟨_, heq⟩
  · rw [call, heq]
    exact ⟨rfl, rfl⟩
  · rw [call, heq]
    exact ⟨rfl, rfl⟩

theorem Kept.drawText {d : Display} (hkept : d.Kept) (x y : Int) {str : List Nat} (hstr : Latin str) (color : Nat) :
    (d.call (.drawText x y str color)).Kept := by
  have hreworked := d.ts.reworked_termDrawText x y hstr color
  rw [hkept.sized.clipX, Int.toNat_natCast] at hreworked
  rcases termDrawText_cases d.ts x y str color with heq | ⟨hy, heq⟩
  · rw [call, heq]
    exact hkept
  · rw [call, heq]
    rw [hkept.sized.clipY, Int.ofNat_lt, ← hkept.sized.lines] at hy
    refine hkept.drawn hreworked.length List.length_set ?_ ?_
    · intro z hz hmarked
      by_cases hzy : z = y.toNat
      · rw [hzy, getD_set_self true hy]
      · rw [getD_set_of_ne true hzy, hmarked]
    · intro z hz hclear
      have hzy : z ≠ y.toNat := by
        intro hzy
        rw [hzy, getD_set_self true hy] at hclear
        nomatch hclear
      exact slice_congr fun i hi => hreworked.outside _ (other_row hi hzy)

/-- The first state after a resize. -/
theorem kept_start (ts : TTYState) {terminal : Vt.Terminal} (hground : terminal.mode = .ground) :
    (run ts terminal []).Kept := by
  have hlines : ∀ y < terminal.height, (List.replicate terminal.height true).getD y false = true := by
    intro y hy
    rw [List.getD_eq_getElem?_getD, List.getElem?_replicate_of_lt hy, Option.getD_some]
  refine ⟨⟨List.length_replicate, List.length_replicate, List.length_replicate, rfl, rfl⟩, rfl, rfl, hground, ?_, ?_⟩
  · intro y hy hclear
    have hmarked : (run ts terminal []).ts.lineUpdated.getD y false = true := hlines y hy
    rw [hmarked] at hclear
    nomatch hclear
  · intro y hy
    have hrange : y * terminal.width + terminal.width ≤ terminal.width * terminal.height := by
      rw [← Nat.succ_mul, Nat.mul_comm]
      exact Nat.mul_le_mul_left _ hy
    have hrow : slice (List.replicate (terminal.width * terminal.height) TTYState.unprinted) (y * terminal.width) terminal.width =
        List.replicate terminal.width TTYState.unprinted := by
      rw [slice, List.drop_replicate, List.take_replicate, Nat.min_eq_left (by omega)]
    exact Or.inr ⟨hlines y hy, hrow⟩

end Display

/-! ## A run of calls -/

/-- A call within the screen: a rectangle lies on it, a text has characters from 32 to 255 (the driver clips it). -/
def TermCall.Within (width height : Nat) : TermCall → Prop
  | fillRectangle x1 y1 w h _ => x1 + w ≤ width ∧ y1 + h ≤ height
  | drawText _ _ str _ => Latin str
  | cursorAt _ _ => True
  | flush => True

/-- The call fills the cell with a colour. -/
def TermCall.Covers (x y : Nat) : TermCall → Prop
  | fillRectangle x1 y1 w h color => color ≠ qecolorXor ∧ (y1 ≤ y ∧ y < y1 + h) ∧ x1 ≤ x ∧ x < x1 + w
  | _ => False

/-- Every cell of the screen has been filled before the first flush. -/
def FilledFirst (width height : Nat) (calls : List TermCall) : Prop :=
  ∀ pre post, calls = pre ++ .flush :: post → ∀ y < height, ∀ x < width, ∃ call ∈ pre, call.Covers x y

namespace Display

/-- What holds after the calls: `Kept`, and the cells that were filled show. -/
structure Sound (terminal : Vt.Terminal) (calls : List TermCall) (d : Display) : Prop where
  kept : d.Kept
  width : d.ts.width = terminal.width
  height : d.ts.height = terminal.height
  filled : ∀ y < terminal.height, ∀ x < terminal.width, (∃ call ∈ calls, call.Covers x y) →
    PrintableAt d.ts.screen (y * terminal.width + x)

theorem Sound.allPrintable {terminal : Vt.Terminal} {calls : List TermCall} {d : Display} (h : d.Sound terminal calls)
    (hfilled : ∀ y < terminal.height, ∀ x < terminal.width, ∃ call ∈ calls, call.Covers x y) : d.ts.AllPrintable := by
  intro y hy x hx
  rw [h.width] at hx ⊢
  rw [h.height] at hy
  exact h.filled y hy x hx (hfilled y hy x hx)

/-- A cell that shows goes on showing, and a cell that a call fills shows. -/
theorem Sound.printable_fillRectangle {terminal : Vt.Terminal} {calls : List TermCall} {d : Display} (h : d.Sound terminal calls)
    {x1 y1 w k color : Nat} (hw : x1 + w ≤ terminal.width) {y : Nat} (hy : y < terminal.height) {x : Nat} (hx : x < terminal.width)
    (hc : PrintableAt d.ts.screen (y * terminal.width + x) ∨ (TermCall.fillRectangle x1 y1 w k color).Covers x y) :
    PrintableAt (d.call (.fillRectangle x1 y1 w k color)).ts.screen (y * terminal.width + x) := by
  have hcell := getElem?_changeRows (fillCell color) hw k d.ts.screen y1 hx y
  have hwidth := h.width
  obtain ⟨c, hget⟩ : ∃ c, d.ts.screen[y * terminal.width + x]? = some c := by
    have hrange := h.kept.sized.row_le (y := y) (by rw [h.height]; exact hy)
    rw [hwidth] at hrange
    exact ⟨_, List.getElem?_eq_getElem (by omega)⟩
  have hcolor : (y1 ≤ y ∧ y < y1 + k) ∧ x1 ≤ x ∧ x < x1 + w → color ≠ qecolorXor ∨ c.Printable := by
    intro _
    rcases hc with ⟨c', hc', hprintable⟩ | hcovers
    · rw [hget, Option.some_inj] at hc'
      rw [hc']
      exact Or.inr hprintable
    · exact Or.inl hcovers.1
  rw [hget, Option.map_some] at hcell
  rw [Display.call, TTYState.termFillRectangle, PrintableAt, hwidth]
  dsimp only
  rw [hcell]
  split_ifs with hin
  · exact ⟨_, rfl, printable_fillCell (hcolor hin)⟩
  · rcases hc with ⟨c', hc', hprintable⟩ | hcovers
    · rw [hget] at hc'
      exact ⟨c', hc', hprintable⟩
    · exact absurd hcovers.2 hin

/-- One call; a flush needs a screen that shows. -/
theorem Sound.call {terminal : Vt.Terminal} {calls : List TermCall} {d : Display} (h : d.Sound terminal calls) {call : TermCall}
    (hwithin : call.Within terminal.width terminal.height) (hflush : call = .flush → d.ts.AllPrintable) :
    (d.call call).Sound terminal (calls ++ [call]) := by
  have hmem : ∀ x y, (∃ c ∈ calls ++ [call], c.Covers x y) → (∃ c ∈ calls, c.Covers x y) ∨ call.Covers x y := by
    rintro x y ⟨c, hc, hcovers⟩
    rcases List.mem_append.1 hc with hc | hc
    · exact Or.inl ⟨c, hc, hcovers⟩
    · rw [List.mem_singleton] at hc
      rw [← hc]
      exact Or.inr hcovers
  cases call with
  | fillRectangle x1 y1 w k color =>
    refine ⟨h.kept.fillRectangle (by rw [h.width]; exact hwithin.1), h.width, h.height, ?_⟩
    intro y hy x hx hcovers
    exact h.printable_fillRectangle hwithin.1 hy hx ((hmem x y hcovers).imp_left (h.filled y hy x hx))
  | drawText x1 y1 str color =>
    obtain ⟨hwidth, hheight⟩ := size_drawText d x1 y1 str color
    refine ⟨h.kept.drawText x1 y1 hwithin color, hwidth.trans h.width, hheight.trans h.height, ?_⟩
    intro y hy x hx hcovers
    rcases hmem x y hcovers with hbefore | hnow
    · exact (d.ts.reworked_termDrawText x1 y1 hwithin color).printable _ (h.filled y hy x hx hbefore)
    · exact hnow.elim
  | cursorAt x1 y1 =>
    obtain ⟨h₁, h₂, h₃, h₄, h₅⟩ := h.kept.sized
    have hkept : (d.call (.cursorAt x1 y1)).Kept :=
      ⟨⟨h₁, h₂, h₃, h₄, h₅⟩, h.kept.width, h.kept.height, h.kept.ground, h.kept.same, h.kept.shown⟩
    refine ⟨hkept, h.width, h.height, ?_⟩
    intro y hy x hx hcovers
    rcases hmem x y hcovers with hbefore | hnow
    · exact h.filled y hy x hx hbefore
    · exact hnow.elim
  | flush =>
    obtain ⟨hkept, _, lines, old, hts⟩ := h.kept.flush (hflush rfl)
    refine ⟨hkept, ?_, ?_, ?_⟩
    · rw [hts]
      exact h.width
    · rw [hts]
      exact h.height
    · intro y hy x hx hcovers
      rw [hts]
      rcases hmem x y hcovers with hbefore | hnow
      · exact h.filled y hy x hx hbefore
      · exact hnow.elim

/-- Any calls within the screen, in which the first flush comes after the screen has been filled. -/
theorem sound_run (ts : TTYState) {terminal : Vt.Terminal} (hground : terminal.mode = .ground) (calls : List TermCall)
    (hwithin : ∀ call ∈ calls, call.Within terminal.width terminal.height)
    (hfilled : FilledFirst terminal.width terminal.height calls) : (run ts terminal calls).Sound terminal calls := by
  induction calls using List.reverseRecOn with
  | nil => exact ⟨kept_start ts hground, rfl, rfl, fun y _ x _ hcovers => by simp at hcovers⟩
  | append_singleton calls call ih =>
    have hsound := ih (fun c hc => hwithin c (List.mem_append_left _ hc)) fun pre post hsplit =>
      hfilled pre (post ++ [call]) (by rw [hsplit, List.append_assoc, List.cons_append])
    rw [run, List.foldl_append]
    refine hsound.call (hwithin call (List.mem_append_right _ (List.mem_singleton_self call))) fun hcall => ?_
    subst hcall
    exact hsound.allPrintable (hfilled calls [] rfl)

end Display

/-- After every flush the terminal shows the screen: in every cell the character (a dot for the codes from 128 to 159), its
background and, unless it is a space, its foreground. -/
theorem terminal_shows (ts : TTYState) {terminal : Vt.Terminal} (hground : terminal.mode = .ground) (calls : List TermCall)
    (hwithin : ∀ call ∈ calls, call.Within terminal.width terminal.height)
    (hfilled : FilledFirst terminal.width terminal.height (calls ++ [.flush])) :
    ∀ y < terminal.height, ∀ x < terminal.width, ∃ c,
      (Display.run ts terminal (calls ++ [.flush])).ts.screen[y * terminal.width + x]? = some c ∧
        CellShows ((Display.run ts terminal (calls ++ [.flush])).terminal.cells y x) c := by
  intro y hy x hx
  have hbefore : FilledFirst terminal.width terminal.height calls := by
    intro pre post hsplit
    exact hfilled pre (post ++ [.flush]) (by rw [hsplit, List.append_assoc, List.cons_append])
  have hsound := Display.sound_run ts hground calls hwithin hbefore
  obtain ⟨_, hshown, lines, old, hts⟩ := hsound.kept.flush (hsound.allPrintable (hfilled calls [] rfl))
  have hrun : Display.run ts terminal (calls ++ [.flush]) = (Display.run ts terminal calls).call .flush := by
    rw [Display.run, List.foldl_append]
    rfl
  obtain ⟨c, hc, _⟩ := hsound.allPrintable (hfilled calls [] rfl) y (by rw [hsound.height]; exact hy) x (by rw [hsound.width]; exact hx)
  rw [hsound.width] at hc
  rw [hrun]
  refine ⟨c, by rw [hts]; exact hc, ?_⟩
  refine hshown y (by rw [hts, hsound.height]; exact hy) x c ?_
  rw [TTYState.row, getElem?_slice, hts, hsound.width, if_pos hx]
  exact hc

/-- A text on a filled screen of two cells: the second cell. -/
theorem terminal_shows_text : ∃ c,
    (Display.run .zero (.blank 2 1)
      [.fillRectangle 0 0 2 1 0xff000000, .drawText 0 0 [0x48, 0xe9] 0xffffffff, .flush]).ts.screen[0 * 2 + 1]? = some c ∧
      CellShows ((Display.run .zero (.blank 2 1)
        [.fillRectangle 0 0 2 1 0xff000000, .drawText 0 0 [0x48, 0xe9] 0xffffffff, .flush]).terminal.cells 0 1) c := by
  have hground : (Vt.Terminal.blank 2 1).mode = .ground := rfl
  refine terminal_shows .zero hground [.fillRectangle 0 0 2 1 0xff000000, .drawText 0 0 [0x48, 0xe9] 0xffffffff] ?_ ?_ 0 (by decide) 1
    (by decide)
  · simp [TermCall.Within, Latin, Vt.Terminal.blank]
  · intro pre post hsplit y hy x hx
    cases pre with
    | nil => simp at hsplit
    | cons call pre =>
      rw [List.cons_append, List.cons_append] at hsplit
      obtain ⟨rfl, -⟩ := List.cons.inj hsplit
      exact ⟨_, List.mem_cons_self, by decide, ⟨Nat.zero_le y, by rwa [Nat.zero_add]⟩, Nat.zero_le x, by rwa [Nat.zero_add]⟩

end Hoe
