import Hoe.Tty
import Hoe.Lemmas.Tty

/-!
# Clipping

The clip rectangle lies on the screen whatever was set. What is drawn stays within it: a rectangle changes just the cells that it
shares with it, as long as its right and lower edges are an `int`, and a text changes cells of its own row only. The cells are told
by their places, so that those behind the screen count too.
-/

namespace Hoe

/-- The rectangle has the cell. -/
def CSSRect.Has (r : CSSRect) (x y : Nat) : Prop := (r.x1 ≤ x ∧ x < r.x2) ∧ r.y1 ≤ y ∧ y < r.y2

instance (r : CSSRect) (x y : Nat) : Decidable (r.Has x y) := inferInstanceAs (Decidable (_ ∧ _))

/-- A rectangle by its left upper corner and its size. -/
def CSSRect.sized (x1 y1 w h : Int) : CSSRect := ⟨x1, y1, x1 + w, y1 + h⟩

/-- The rectangle with its right and lower edges as the `int`s that come of them. -/
def CSSRect.wrapped (r : CSSRect) : CSSRect := ⟨r.x1, r.y1, wrapInt r.x2, wrapInt r.y2⟩

namespace TTYState

/-- The clip rectangle lies on the screen, for which there are arrays. -/
structure ClipInside (ts : TTYState) : Prop where
  x2 : ts.clipX2 ≤ ts.width
  y2 : ts.clipY2 ≤ ts.height
  screen : ts.screen.length = ts.width * ts.height
  lines : ts.lineUpdated.length = ts.height

/-- The place of a cell on the screen, or behind it. -/
def place (ts : TTYState) (x y : Nat) : Option TTYChar := ts.screen[y * ts.width + x]?

/-! ## Rectangles -/

theorem clip_low (a b : Int) : (if a < b then b else a) = max a b := by
  split_ifs <;> omega

theorem clip_high (a b : Int) : (if b < a then b else a) = min a b := by
  split_ifs <;> omega

/-- Either there is no cell in both rectangles and nothing is drawn, or they share the rectangle that is drawn. -/
theorem fillRectangle_cases (ts : TTYState) (x1 y1 w h : Int) (color : Nat) :
    ts.fillRectangle x1 y1 w h color = ts ∧ (∀ x y, ¬((CSSRect.sized x1 y1 w h).wrapped.Has x y ∧ ts.clip.Has x y)) ∨
      ∃ a b c d : Nat, ts.fillRectangle x1 y1 w h color = ts.termFillRectangle a b c d color ∧ 0 < c ∧ (a + c : Int) ≤ ts.clipX2 ∧
        ∀ x y : Nat, (CSSRect.sized x1 y1 w h).wrapped.Has x y ∧ ts.clip.Has x y ↔ (b ≤ y ∧ y < b + d) ∧ a ≤ x ∧ x < a + c := by
  rw [fillRectangle]
  dsimp only
  rw [clip_low, clip_low, clip_high, clip_high]
  simp only [CSSRect.Has, CSSRect.wrapped, CSSRect.sized, clip]
  by_cases hout : wrapInt (x1 + w) ≤ ts.clipX1 ∨ wrapInt (y1 + h) ≤ ts.clipY1 ∨ ts.clipX2 ≤ x1 ∨ ts.clipY2 ≤ y1
  · rw [if_pos hout]
    exact Or.inl ⟨rfl, fun x y hin => by omega⟩
  rw [if_neg hout]
  by_cases hzero : min (wrapInt (x1 + w)) ts.clipX2 ≤ max x1 ts.clipX1 ∨ min (wrapInt (y1 + h)) ts.clipY2 ≤ max y1 ts.clipY1
  · rw [if_pos hzero]
    exact Or.inl ⟨rfl, fun x y hin => by omega⟩
  · rw [if_neg hzero]
    exact Or.inr ⟨_, _, _, _, rfl, by omega, by omega, fun x y => by omega⟩

/-- The rectangle that the `int`s give changes the cells that it shares with the clip rectangle, and no others. -/
theorem place_fillRectangle (ts : TTYState) (hclip : ts.clipX2 ≤ ts.width) (x1 y1 w h : Int) (color : Nat) {x : Nat}
    (hx : x < ts.width) (y : Nat) :
    (ts.fillRectangle x1 y1 w h color).place x y =
      if (CSSRect.sized x1 y1 w h).wrapped.Has x y ∧ ts.clip.Has x y then (ts.place x y).map (fillCell color)
      else ts.place x y := by
  rcases ts.fillRectangle_cases x1 y1 w h color with ⟨heq, hnone⟩ | ⟨a, b, c, d, heq, -, hac, hshared⟩
  · rw [heq, if_neg (hnone x y)]
  · rw [heq]
    simp only [hshared]
    exact getElem?_changeRows (fillCell color) (by omega) d ts.screen b hx y

/-- The rows of these cells are marked, and no others. -/
theorem lineUpdated_fillRectangle (ts : TTYState) (x1 y1 w h : Int) (color : Nat) {y : Nat} (hy : y < ts.lineUpdated.length) :
    (ts.fillRectangle x1 y1 w h color).lineUpdated.getD y false = true ↔
      (∃ x, (CSSRect.sized x1 y1 w h).wrapped.Has x y ∧ ts.clip.Has x y) ∨ ts.lineUpdated.getD y false = true := by
  rcases ts.fillRectangle_cases x1 y1 w h color with ⟨heq, hnone⟩ | ⟨a, b, c, d, heq, hc, -, hshared⟩
  · rw [heq]
    exact ⟨Or.inr, fun h => h.resolve_left fun ⟨x, hx⟩ => hnone x y hx⟩
  · have hrows : (∃ x, (CSSRect.sized x1 y1 w h).wrapped.Has x y ∧ ts.clip.Has x y) ↔ b ≤ y ∧ y < b + d := by
      simp only [hshared]
      exact ⟨fun ⟨x, hrow, _⟩ => hrow, fun hrow => ⟨a, hrow, Nat.le_refl a, Nat.lt_add_of_pos_right hc⟩⟩
    rw [heq, hrows]
    have hmarks := getD_markLines b d hy
    rw [termFillRectangle, hmarks, Bool.or_eq_true, decide_eq_true_iff]

theorem length_fillRectangle (ts : TTYState) (x1 y1 w h : Int) (color : Nat) :
    (ts.fillRectangle x1 y1 w h color).screen.length = ts.screen.length ∧
      (ts.fillRectangle x1 y1 w h color).lineUpdated.length = ts.lineUpdated.length := by
  rcases ts.fillRectangle_cases x1 y1 w h color with ⟨heq, -⟩ | ⟨a, b, c, d, heq, -⟩
  · rw [heq]
    exact ⟨rfl, rfl⟩
  · rw [heq]
    exact ⟨length_changeRows _ _ _ _ _ _, length_markLines _ _ _⟩

/-! ## Texts -/

/-- The loop changes cells between the column it begins at and the end of the clip rectangle. -/
theorem getElem?_drawChars {clipX2 : Int} (fg : Nat) (str : List Nat) {x : Int} {k ptr : Nat}
    (hptr : clipX2 < x ∨ (ptr : Int) = k + x) (cells : List TTYChar) {i : Nat} (hi : i < ptr ∨ (k : Int) + clipX2 ≤ i) :
    (drawChars clipX2 fg str x ptr cells)[i]? = cells[i]? := by
  induction str generalizing x ptr cells with
  | nil => rfl
  | cons cc str ih =>
    rw [drawChars]
    obtain ⟨w, hw⟩ : ∃ w, w = termGlyphWidth cc := ⟨_, rfl⟩
    have hpos : 1 ≤ w := by
      rw [hw, termGlyphWidth]
      split_ifs <;> decide
    rw [← hw]
    split_ifs with hclip
    · rfl
    · have hat := hptr.resolve_left (by omega)
      rw [ih (Or.inr (by omega)) _ (by omega), getElem?_changeCells, if_neg (by omega), List.getElem?_modify]
      by_cases hi' : ptr = i
      · omega
      · simp [hi']

/-- The left clip changes cells of the clip rectangle, and leads to the column it has come to. -/
theorem leftClip_inside (ts : TTYState) (fg : Nat) (str : List Nat) {x : Int} {k : Nat} :
    let r := ts.leftClip fg (k + ts.clipX1) str x
    (∀ i : Nat, i < k + ts.clipX1 ∨ (k : Int) + ts.clipX2 ≤ i → r.1[i]? = ts.screen[i]?) ∧ k + ts.clipX1 ≤ r.2.1 ∧
      (r.2.2.2 = [] ∨ ts.clipX2 < r.2.2.1 ∨ (r.2.1 : Int) = k + r.2.2.1) := by
  induction str generalizing x with
  | nil => exact ⟨fun i _ => rfl, Nat.le_refl _, Or.inl rfl⟩
  | cons cc str ih =>
    rw [leftClip]
    dsimp only
    split_ifs with hclip
    · refine ⟨fun i hi => ?_, Nat.le_add_right _ _, ?_⟩
      · rw [getElem?_changeCells, if_neg (by omega)]
      · refine Or.inr ?_
        dsimp only
        omega
    · exact ih

/-- A text changes cells of the clip rectangle in its k only. -/
theorem place_termDrawText (ts : TTYState) (hclip : ts.clipX2 ≤ ts.width) (x y : Int) (str : List Nat) (color : Nat) {x' : Nat}
    (hx : x' < ts.width) {y' : Nat} (hout : ¬((y' : Int) = y ∧ ts.clip.Has x' y')) :
    (ts.termDrawText x y str color).place x' y' = ts.place x' y' := by
  simp only [CSSRect.Has, clip] at hout
  rw [termDrawText]
  by_cases hskip : y < ts.clipY1 ∨ ts.clipY2 ≤ y ∨ ts.clipX2 ≤ x
  · rw [if_pos hskip]
  rw [if_neg hskip]
  obtain ⟨y, rfl⟩ := Int.eq_ofNat_of_zero_le (show 0 ≤ y by omega)
  rw [Int.toNat_natCast]
  have hplace : y' * ts.width + x' < y * ts.width + ts.clipX1 ∨ ((y * ts.width : Nat) : Int) + ts.clipX2 ≤ (y' * ts.width + x' : Nat) := by
    by_cases hy : y' = y
    · subst hy
      omega
    · have hother := other_row hx hy
      omega
  dsimp only [place]
  split_ifs with hleft
  · obtain ⟨hcells, hle, hstart⟩ := ts.leftClip_inside (getTtyColor color) str (x := x) (k := y * ts.width)
    rw [← hcells _ hplace]
    rcases hstart with hnil | hstart
    · rw [hnil]
      rfl
    · exact getElem?_drawChars _ _ hstart _ (by omega)
  · dsimp only
    exact getElem?_drawChars _ _ (k := y * ts.width) (Or.inr (by omega)) _ (by omega)

/-! ## Calls -/

/-- The number of cells of the screen stays. -/
theorem length_termDrawText (ts : TTYState) (x y : Int) (str : List Nat) (color : Nat) :
    (ts.termDrawText x y str color).screen.length = ts.screen.length ∧
      (ts.termDrawText x y str color).lineUpdated.length = ts.lineUpdated.length := by
  have hdraw (clipX2 : Int) (fg : Nat) (str : List Nat) (x : Int) (ptr : Nat) (cells : List TTYChar) :
      (drawChars clipX2 fg str x ptr cells).length = cells.length := by
    induction str generalizing x ptr cells with
    | nil => rfl
    | cons cc str ih =>
      rw [drawChars]
      split_ifs
      · rfl
      · rw [ih, length_changeCells, List.length_modify]
  have hleft (fg ptr : Nat) (str : List Nat) (x : Int) : (ts.leftClip fg ptr str x).1.length = ts.screen.length := by
    induction str generalizing x with
    | nil => rfl
    | cons cc str ih =>
      rw [leftClip]
      split_ifs
      · exact length_changeCells _ _ _ _
      · exact ih _
  rw [termDrawText]
  split_ifs
  · exact ⟨rfl, rfl⟩
  · exact ⟨(hdraw _ _ _ _ _ _).trans (hleft _ _ _ _), List.length_set⟩
  · exact ⟨hdraw _ _ _ _ _ _, List.length_set⟩

theorem clipInside_ttyResize (ts : TTYState) (width height : Nat) : (ts.ttyResize width height).ClipInside :=
  ⟨Int.le_refl _, Int.le_refl _, List.length_replicate, List.length_replicate⟩

theorem termDrawText_frame (ts : TTYState) (x y : Int) (str : List Nat) (color : Nat) :
    ts.termDrawText x y str color = { ts with
      screen := (ts.termDrawText x y str color).screen, lineUpdated := (ts.termDrawText x y str color).lineUpdated } := by
  rw [termDrawText]
  split_ifs <;> rfl

theorem fillRectangle_frame (ts : TTYState) (x1 y1 w h : Int) (color : Nat) :
    ts.fillRectangle x1 y1 w h color = { ts with
      screen := (ts.fillRectangle x1 y1 w h color).screen, lineUpdated := (ts.fillRectangle x1 y1 w h color).lineUpdated } := by
  rcases ts.fillRectangle_cases x1 y1 w h color with ⟨heq, -⟩ | ⟨a, b, c, d, heq, -⟩
  · rw [heq]
  · rw [heq]
    rfl

/-- The clip rectangle stays on the screen. -/
theorem ClipInside.run {ts : TTYState} (h : ts.ClipInside) (c : ScreenCall) : (c.run ts).ClipInside := by
  cases c with
  | resize width height => exact clipInside_ttyResize ts width height
  | setClip r =>
    refine ⟨?_, ?_, h.screen, h.lines⟩
    · rw [ScreenCall.run, setClipRectangle]
      dsimp only
      rw [clip_high]
      exact min_le_right _ _
    · rw [ScreenCall.run, setClipRectangle]
      dsimp only
      rw [clip_high]
      exact min_le_right _ _
  | pushClip r =>
    refine ⟨?_, ?_, h.screen, h.lines⟩
    · rw [ScreenCall.run, pushClipRectangle]
      dsimp only
      rw [clip_high]
      exact (min_le_right _ _).trans h.x2
    · rw [ScreenCall.run, pushClipRectangle]
      dsimp only
      rw [clip_high]
      exact (min_le_right _ _).trans h.y2
  | fillRectangle x1 y1 w k color =>
    obtain ⟨hscreen, hlines⟩ := ts.length_fillRectangle x1 y1 w k color
    have hframe := ts.fillRectangle_frame x1 y1 w k color
    refine ⟨?_, ?_, ?_, ?_⟩
    all_goals rw [ScreenCall.run, hframe]
    · exact h.x2
    · exact h.y2
    · exact hscreen.trans h.screen
    · exact hlines.trans h.lines
  | drawText x y str color =>
    obtain ⟨hscreen, hlines⟩ := ts.length_termDrawText x y str color
    have hframe := ts.termDrawText_frame x y str color
    refine ⟨?_, ?_, ?_, ?_⟩
    all_goals rw [ScreenCall.run, hframe]
    · exact h.x2
    · exact h.y2
    · exact hscreen.trans h.screen
    · exact hlines.trans h.lines

theorem ClipInside.runScreen {ts : TTYState} (h : ts.ClipInside) (calls : List ScreenCall) : (runScreen ts calls).ClipInside := by
  induction calls generalizing ts with
  | nil => exact h
  | cons c calls ih => exact ih (h.run c)

/-- The cells of the clip rectangle have their places in the arrays. -/
theorem ClipInside.has {ts : TTYState} (h : ts.ClipInside) {x y : Nat} (hin : ts.clip.Has x y) :
    x < ts.width ∧ y < ts.height ∧ y * ts.width + x < ts.screen.length := by
  simp only [CSSRect.Has, clip] at hin
  have hx := h.x2
  have hy := h.y2
  have hrow := Nat.mul_le_mul_right ts.width (show y + 1 ≤ ts.height by omega)
  rw [Nat.succ_mul, Nat.mul_comm ts.height] at hrow
  rw [h.screen]
  exact ⟨by omega, by omega, by omega⟩

/-- The state with other contents of its arrays, with memory behind them. -/
def holding (ts : TTYState) (cells : List TTYChar) (lines : List Bool) : TTYState := { ts with screen := cells, lineUpdated := lines }

/-- Whatever is on the screen, the rectangle changes the cells that it shares with the clip rectangle, which the exclusive or turns
round and any other colour blanks, no other cell, and marks just their rows. -/
structure Fills (ts : TTYState) (x1 y1 w h : Int) (color : Nat) : Prop where
  shared : ∀ cells lines, ∀ x y : Nat, (CSSRect.sized x1 y1 w h).Has x y ∧ ts.clip.Has x y →
    ∀ c, (ts.holding cells lines).place x y = some c →
      ((ts.holding cells lines).fillRectangle x1 y1 w h color).place x y =
        some (if color = qecolorXor then ⟨c.ch, c.bgcolor ^^^ 7, c.fgcolor ^^^ 7⟩ else ⟨0x20, getTtyColor color, 7⟩)
  others : ∀ cells lines, ∀ x y : Nat, x < ts.width → ¬((CSSRect.sized x1 y1 w h).Has x y ∧ ts.clip.Has x y) →
    ((ts.holding cells lines).fillRectangle x1 y1 w h color).place x y = (ts.holding cells lines).place x y
  rows : ∀ cells lines y, y < lines.length →
    (((ts.holding cells lines).fillRectangle x1 y1 w h color).lineUpdated.getD y false = true ↔
      (∃ x, (CSSRect.sized x1 y1 w h).Has x y ∧ ts.clip.Has x y) ∨ lines.getD y false = true)

/-- Drawing is clipped: what is in the clip rectangle is in the arrays, the rectangle fills what it shares with it, and a text changes
cells of the clip rectangle in its row only. -/
structure Clips (ts : TTYState) (x1 y1 w h : Int) (color : Nat) : Prop where
  inside : ∀ x y, ts.clip.Has x y → x < ts.width ∧ y < ts.height ∧ y * ts.width + x < ts.screen.length
  fills : ts.Fills x1 y1 w h color
  text : ∀ cells lines x y str color, ∀ x' y' : Nat, x' < ts.width → ¬((y' : Int) = y ∧ ts.clip.Has x' y') →
    ((ts.holding cells lines).termDrawText x y str color).place x' y' = (ts.holding cells lines).place x' y'

/-- The `int`s that the right and the lower edge come to leave the rectangle its cells of the clip rectangle, and give it no other. -/
def EdgesKept (ts : TTYState) (x1 y1 w h : Int) : Prop :=
  ∀ x y, ts.clip.Has x y → ((CSSRect.sized x1 y1 w h).Has x y ↔ (CSSRect.sized x1 y1 w h).wrapped.Has x y)

/-- A letter on black is changed by any colour. -/
theorem fillCell_letter (color : Nat) : fillCell color ⟨0x41, 0, 0⟩ ≠ ⟨0x41, 0, 0⟩ := by
  rw [fillCell]
  split_ifs <;> simp

theorem fillCell_eq (color : Nat) (c : TTYChar) :
    fillCell color c = if color = qecolorXor then ⟨c.ch, c.bgcolor ^^^ 7, c.fgcolor ^^^ 7⟩ else ⟨0x20, getTtyColor color, 7⟩ := rfl

theorem EdgesKept.fills {ts : TTYState} {x1 y1 w h : Int} (hedges : ts.EdgesKept x1 y1 w h) (hclip : ts.clipX2 ≤ ts.width)
    (color : Nat) : ts.Fills x1 y1 w h color := by
  have hsame : ∀ x y, (CSSRect.sized x1 y1 w h).Has x y ∧ ts.clip.Has x y ↔
      (CSSRect.sized x1 y1 w h).wrapped.Has x y ∧ ts.clip.Has x y := fun x y => and_congr_left (hedges x y)
  refine ⟨fun cells lines x y hin c hc => ?_, fun cells lines x y hx hout => ?_, fun cells lines y hy => ?_⟩
  · have hx : x < ts.width := by
      have hlt : (x : Int) < ts.clipX2 := hin.2.1.2
      omega
    rw [(ts.holding cells lines).place_fillRectangle hclip x1 y1 w h color hx y]
    exact (if_pos ((hsame x y).1 hin)).trans (by rw [hc, Option.map_some, fillCell_eq])
  · rw [(ts.holding cells lines).place_fillRectangle hclip x1 y1 w h color hx y]
    exact if_neg fun hin => hout ((hsame x y).2 hin)
  · rw [lineUpdated_fillRectangle (ts.holding cells lines) x1 y1 w h color hy]
    exact or_congr_left (exists_congr fun x => (hsame x y).symm)

/-- A cell of the clip rectangle that the edges take or give shows on a screen of letters. -/
theorem Fills.edgesKept {ts : TTYState} {x1 y1 w h : Int} {color : Nat} (hfills : ts.Fills x1 y1 w h color)
    (hclip : ts.clipX2 ≤ ts.width) : ts.EdgesKept x1 y1 w h := by
  intro x y hin
  obtain ⟨cells, hcells⟩ : ∃ cells, cells = List.replicate (y * ts.width + x + 1) (⟨0x41, 0, 0⟩ : TTYChar) := ⟨_, rfl⟩
  have hx : x < ts.width := by
    have hlt : (x : Int) < ts.clipX2 := hin.1.2
    omega
  have hletter : (ts.holding cells []).place x y = some ⟨0x41, 0, 0⟩ := by
    rw [place, holding, hcells]
    exact List.getElem?_replicate_of_lt (Nat.lt_succ_self _)
  have hplace := place_fillRectangle (ts.holding cells []) hclip x1 y1 w h color hx y
  have hwrapped : (CSSRect.sized x1 y1 w h).wrapped.Has x y ↔
      ((ts.holding cells []).fillRectangle x1 y1 w h color).place x y ≠ some ⟨0x41, 0, 0⟩ := by
    rw [hplace, hletter]
    split_ifs with hboth
    · exact iff_of_true hboth.1 fun e => fillCell_letter color (Option.some.inj e)
    · exact iff_of_false (fun hhas => hboth ⟨hhas, hin⟩) fun hne => hne rfl
  rw [hwrapped]
  by_cases hhas : (CSSRect.sized x1 y1 w h).Has x y
  · refine iff_of_true hhas ?_
    rw [hfills.shared cells [] x y ⟨hhas, hin⟩ _ hletter, ← fillCell_eq]
    exact fun e => fillCell_letter color (Option.some.inj e)
  · refine iff_of_false hhas fun hne => hne ?_
    rw [hfills.others cells [] x y hx fun hboth => hhas hboth.1, hletter]

end TTYState

/-- Drawing is clipped after any calls that set the clip rectangle, the size of the screen or what is on it, just where the edges of
the rectangle are kept. -/
theorem runScreen_clips_iff (ts : TTYState) (width height : Nat) (calls : List ScreenCall) (x1 y1 w h : Int) (color : Nat) :
    (runScreen (ts.ttyResize width height) calls).Clips x1 y1 w h color ↔
      (runScreen (ts.ttyResize width height) calls).EdgesKept x1 y1 w h := by
  have hinside := (TTYState.clipInside_ttyResize ts width height).runScreen calls
  obtain ⟨s, hs⟩ : ∃ s, s = runScreen (ts.ttyResize width height) calls := ⟨_, rfl⟩
  rw [← hs] at hinside ⊢
  refine ⟨fun hclips => hclips.fills.edgesKept hinside.x2, fun hedges => ?_⟩
  exact ⟨fun x y => hinside.has, hedges.fills hinside.x2 color, fun cells lines x y str color x' y' hx hout =>
    (s.holding cells lines).place_termDrawText hinside.x2 x y str color hx hout⟩

/-- The right edge of a rectangle at the fifth column comes to a negative `int`, and nothing is filled. -/
theorem not_runScreen_clips : ¬∀ (ts : TTYState) (width height : Nat) (calls : List ScreenCall) (x1 y1 w h : Int) (color : Nat),
    (runScreen (ts.ttyResize width height) calls).Clips x1 y1 w h color := by
  intro hall
  have hedges := (hall .zero 10 5 [] 5 0 2147483647 1 0).fills.edgesKept (by decide) 5 0 (by decide)
  revert hedges
  decide

end Hoe
