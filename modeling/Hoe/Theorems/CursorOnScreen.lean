import Hoe.Lemmas.FitDisplay
import Mathlib.Tactic.IntervalCases

/-!
# The cursor is on the screen

However a mode lays its lines out, `generic_text_display` ends with a place where the window begins from which the cursor is shown
(`cursor_on_screen`). The three loops keep one relation between the line that is displayed and the line of the cursor: how far the
one is above the other (`Down`).
-/

namespace Hoe

namespace TextMode

/-- The mode lays out a text of this size: every line in rows, and `text_display` and `text_backward_offset` agree on where the lines
begin. A line shows each of its offsets once, and no other one. -/
structure Lays (t : TextMode) (total : Int) : Prop where
  line : ∀ o, 0 ≤ o → o ≤ total → 0 ≤ t.backwardOffset o ∧ t.backwardOffset o ≤ o ∧ t.backwardOffset (t.backwardOffset o) = t.backwardOffset o
  next : ∀ o, 0 ≤ o → o ≤ total → t.backwardOffset o = o →
    (t.next o < 0 ∧ ∀ c, o ≤ c → c ≤ total → t.backwardOffset c = o) ∨
      (o < t.next o ∧ t.next o ≤ total ∧ t.backwardOffset (t.next o) = t.next o ∧ (∀ c, o ≤ c → c < t.next o → t.backwardOffset c = o) ∧
        ∀ c, t.next o ≤ c → c ≤ total → t.next o ≤ t.backwardOffset c)
  rows : ∀ o, 0 ≤ o → o ≤ total → t.backwardOffset o = o → t.rows o ≠ [] ∧ ∀ r ∈ t.rows o, 0 < r.height
  once : ∀ o c, 0 ≤ o → o ≤ total → t.backwardOffset o = o → 0 ≤ c → c ≤ total →
    offers (t.rows o) c = if t.backwardOffset c = o then 1 else 0

/-- The height of the line at an offset. -/
def lineHeight (t : TextMode) (o : Int) : Int := rowsHeight (t.rows o)

/-- The line at the first offset is above the line at the second one, by the height of the lines between them. -/
inductive Down (t : TextMode) : Int → Int → Int → Prop
  | here (o : Int) : Down t o o 0
  | line {o c n : Int} : o < t.next o → Down t (t.next o) c n → Down t o c (t.lineHeight o + n)

variable {t : TextMode} {total : Int}

theorem Down.le {o c n : Int} (h : Down t o c n) : o ≤ c := by
  induction h with
  | here o => exact le_refl o
  | line hlt _ ih => exact (lt_of_lt_of_le hlt ih).le

theorem Down.trans {a o c n m : Int} (h : Down t a o n) (h' : Down t o c m) : Down t a c (n + m) := by
  induction h with
  | here o => rwa [Int.zero_add]
  | line hlt _ ih => exact Int.add_assoc .. ▸ .line hlt (ih h')

/-- The distance is determined by the two lines. -/
theorem Down.unique {a c n m : Int} (h : Down t a c n) (h' : Down t a c m) : n = m := by
  induction h generalizing m with
  | here o =>
    cases h' with
    | here => rfl
    | line hlt h' => exact absurd h'.le (not_le.mpr hlt)
  | line hlt h ih =>
    cases h' with
    | here => exact absurd h.le (not_le.mpr hlt)
    | line _ h' => rw [ih h']

/-- A line that begins somewhere in the text. -/
structure IsLine (t : TextMode) (total o : Int) : Prop where
  nonneg : 0 ≤ o
  le : o ≤ total
  line : t.backwardOffset o = o

namespace Lays

theorem isLine (h : t.Lays total) {c : Int} (h0 : 0 ≤ c) (hc : c ≤ total) : t.IsLine total (t.backwardOffset c) := by
  obtain ⟨hnonneg, hle, hline⟩ := h.line c h0 hc
  exact ⟨hnonneg, hle.trans hc, hline⟩

/-- A line above the one of the cursor has a next line, which is not below it. -/
theorem next_of_ne (h : t.Lays total) {o c : Int} (ho : t.IsLine total o) (hoc : o ≤ c) (hc : c ≤ total) (hne : o ≠ t.backwardOffset c) :
    o < t.next o ∧ t.IsLine total (t.next o) ∧ t.next o ≤ t.backwardOffset c ∧ t.next o ≤ c := by
  rcases h.next o ho.nonneg ho.le ho.line with ⟨-, hlast⟩ | ⟨hlt, hle, hline, hmine, hother⟩
  · exact absurd (hlast c hoc hc).symm hne
  · have hnc : t.next o ≤ c := by
      by_contra hlt'
      exact hne (hmine c hoc (not_le.mp hlt')).symm
    exact ⟨hlt, ⟨ho.nonneg.trans hlt.le, hle, hline⟩, hother c hnc hc, hnc⟩

/-- The line before a line. -/
theorem prev (h : t.Lays total) {o : Int} (ho : t.IsLine total o) (hpos : 0 < o) :
    t.IsLine total (t.backwardOffset (o - 1)) ∧ t.backwardOffset (o - 1) < o ∧ t.next (t.backwardOffset (o - 1)) = o := by
  have hle := ho.le
  have hp := h.isLine (c := o - 1) (by omega) (by omega)
  have hlt : t.backwardOffset (o - 1) ≤ o - 1 := (h.line (o - 1) (by omega) (by omega)).2.1
  refine ⟨hp, by omega, ?_⟩
  have hne : t.backwardOffset (o - 1) ≠ t.backwardOffset o := by
    rw [ho.line]
    omega
  obtain ⟨hnlt, hnline, hnle, -⟩ := h.next_of_ne hp (by omega) hle hne
  rw [ho.line] at hnle
  by_contra hne'
  rcases h.next _ hp.nonneg hp.le hp.line with ⟨hneg, -⟩ | ⟨-, -, -, -, hother⟩
  · have := hnline.nonneg
    omega
  · have := hother (o - 1) (by omega) (by omega)
    omega

theorem lineHeight_pos (h : t.Lays total) {o : Int} (ho : t.IsLine total o) : 0 ≤ t.lineHeight o :=
  rowsHeight_nonneg (h.rows o ho.nonneg ho.le ho.line).2

/-- The line of the cursor is below every line that begins at or before the cursor. -/
theorem down (h : t.Lays total) {c : Int} (hc : c ≤ total) {o : Int} (ho : t.IsLine total o) (hoc : o ≤ c) :
    ∃ n, Down t o (t.backwardOffset c) n := by
  induction hd : (c - o).toNat using Nat.strong_induction_on generalizing o with
  | _ d ih =>
    by_cases heq : o = t.backwardOffset c
    · exact ⟨0, heq ▸ .here o⟩
    · obtain ⟨hlt, hline, -, hnc⟩ := h.next_of_ne ho hoc hc heq
      obtain ⟨n, hn⟩ := ih _ (by omega) hline hnc rfl
      exact ⟨_, .line hlt hn⟩

theorem isLine_next (h : t.Lays total) {o : Int} (ho : t.IsLine total o) (hlt : o < t.next o) : t.IsLine total (t.next o) := by
  rcases h.next o ho.nonneg ho.le ho.line with ⟨hneg, -⟩ | ⟨-, hle, hline, -, -⟩
  · have := ho.nonneg
    omega
  · exact ⟨ho.nonneg.trans hlt.le, hle, hline⟩

theorem down_nonneg (h : t.Lays total) {o c n : Int} (ho : t.IsLine total o) (hd : Down t o c n) : 0 ≤ n := by
  induction hd with
  | here o => exact le_refl 0
  | line hlt _ ih =>
    have hpos := h.lineHeight_pos ho
    have hrest := ih (h.isLine_next ho hlt)
    omega

/-- A line at or before an offset is not below the line of the offset. -/
theorem le_line (h : t.Lays total) {o c : Int} (ho : t.IsLine total o) (hoc : o ≤ c) (hc : c ≤ total) : o ≤ t.backwardOffset c := by
  obtain ⟨n, hn⟩ := h.down hc ho hoc
  exact hn.le

end Lays

/-! ## One line -/

section

variable (h : t.Lays total) {s : ViewState} {d : DisplayCursor} {c : Int} (hc0 : 0 ≤ c) (hc : c ≤ total)

include h hc0 hc

/-- A line that does not show the cursor. -/
theorem textDisplay_hidden {o : Int} (ho : t.IsLine total o) (hne : o ≠ t.backwardOffset c) (hd : d.2.offsetc = c) :
    (t.textDisplay cursorFunc s d o).1.y = d.1.y + t.lineHeight o ∧ (t.textDisplay cursorFunc s d o).2 = d.2 := by
  refine flushRows_hidden _ _ ?_
  rw [hd, h.once o c ho.nonneg ho.le ho.line hc0 hc, if_neg hne.symm]

/-- The line of the cursor has a row for it. -/
theorem exists_row : ∃ k height, CursorRow (t.rows (t.backwardOffset c)) c k height := by
  have hline := h.isLine hc0 hc
  refine exists_cursorRow (h.rows _ hline.nonneg hline.le hline.line).2 ?_
  rw [h.once _ c hline.nonneg hline.le hline.line hc0 hc, if_pos rfl]

end

/-- What the loops need: a mode that lays out the text, and an offset of it with its row. -/
structure Displayed (t : TextMode) (total c k height : Int) : Prop where
  lays : t.Lays total
  nonneg : 0 ≤ c
  le : c ≤ total
  row : CursorRow (t.rows (t.backwardOffset c)) c k height
  pos : 0 < height

namespace Displayed

variable {c k height : Int} (h : t.Displayed total c k height)

include h

theorem isLine : t.IsLine total (t.backwardOffset c) := h.lays.isLine h.nonneg h.le

theorem line_le : t.backwardOffset c ≤ c := (h.lays.line c h.nonneg h.le).2.1

/-- The line of the cursor, wherever it is displayed. -/
theorem textDisplay_row (s : ViewState) {d : DisplayCursor} (hd : d.2.offsetc = c) :
    Found (t.textDisplay cursorFunc s d (t.backwardOffset c)).2 (d.1.y + k) height ∧
      (t.textDisplay cursorFunc s d (t.backwardOffset c)).1.y = d.1.y + t.lineHeight (t.backwardOffset c) ∧
      (t.textDisplay cursorFunc s d (t.backwardOffset c)).2.offsetc = c :=
  h.row.found _ _ d hd

/-! ## The first loop -/

/-- Where the window begins, as seen from the line that is displayed next: above it, by as much as the display went down. -/
structure Top (t : TextMode) (total : Int) (s : ViewState) (y o n : Int) : Prop where
  line : t.IsLine total s.offsetTop
  down : Down t s.offsetTop o n
  y : y = s.yDisp + n
  le : s.yDisp ≤ 0

/-- The first loop ends. The window begins at or above the line of the cursor, and the cursor was found below there; or there are
enough lines above the cursor to fill the screen. -/
theorem findCursor_spec {fuel : Nat} {s : ViewState} {d : DisplayCursor} {o m : Int} (hfuel : (c - o).toNat < fuel)
    (ho : t.IsLine total o) (hoc : o ≤ c) (hd : d.2.offsetc = c) (hx : d.2.xc = none) (htop : Top t total s d.1.y o m) :
    ∃ top y d', t.findCursor fuel s d o = some ({ s with offsetTop := top, yDisp := y }, d') ∧ t.IsLine total top ∧ top ≤ c ∧ y ≤ 0 ∧
      d'.2.offsetc = c ∧ ∃ n, Down t top (t.backwardOffset c) n ∧
        ((Found d'.2 (y + n + k) height ∧ (y + n ≤ 0 → n = 0)) ∨ (d'.2.xc = none ∧ s.height ≤ n)) := by
  induction fuel generalizing s d o m with
  | zero => omega
  | succ fuel ih =>
    -- the top moves down to this line unless something of the lines above is seen
    obtain ⟨top, y, n, hif, hline, hdown, hy, hle, hzero⟩ : ∃ top y n,
        (if d.1.y ≤ 0 then { s with offsetTop := o, yDisp := d.1.y } else s) = { s with offsetTop := top, yDisp := y } ∧
          t.IsLine total top ∧ Down t top o n ∧ d.1.y = y + n ∧ y ≤ 0 ∧ (y + n ≤ 0 → n = 0) := by
      by_cases hneg : d.1.y ≤ 0
      · exact ⟨o, d.1.y, 0, if_pos hneg, ho, .here o, (Int.add_zero _).symm, hneg, fun _ => rfl⟩
      · refine ⟨s.offsetTop, s.yDisp, m, if_neg hneg, htop.line, htop.down, htop.y, htop.le, ?_⟩
        intro hle
        exact absurd (htop.y ▸ hle) hneg
    have htc : top ≤ c := hdown.le.trans hoc
    rw [findCursor, hif]
    obtain ⟨s₁, hs₁⟩ : ∃ s₁, s₁ = ({ s with offsetTop := top, yDisp := y } : ViewState) := ⟨_, rfl⟩
    have hheight : s₁.height = s.height := by rw [hs₁]
    rw [← hs₁]
    by_cases heq : o = t.backwardOffset c
    · subst heq
      obtain ⟨hfound, -, hoff⟩ := h.textDisplay_row s₁ hd
      rw [if_pos (.inr (.inr hfound.xc))]
      exact ⟨top, y, _, by rw [hs₁], hline, htc, hle, hoff, n, hdown, .inl ⟨hy ▸ hfound, hzero⟩⟩
    · obtain ⟨hlt, hnext, hnle, hnc⟩ := h.lays.next_of_ne ho hoc h.le heq
      obtain ⟨hy', hm'⟩ := textDisplay_hidden h.lays h.nonneg h.le (s := s₁) ho heq hd
      have hsnoc : Down t top (t.next o) (n + t.lineHeight o) := hdown.trans (Int.add_zero (t.lineHeight o) ▸ .line hlt (.here _))
      have hnonneg := hnext.nonneg
      by_cases hfull : s₁.height ≤ (t.textDisplay cursorFunc s₁ d o).1.y
      · rw [if_pos (.inr (.inl hfull))]
        obtain ⟨m', hm⟩ := h.lays.down h.le hnext hnc
        have hpos := h.lays.down_nonneg hnext hm
        refine ⟨top, y, t.textDisplay cursorFunc s₁ d o, by rw [hs₁], hline, htc, hle, by rw [hm', hd], _, hsnoc.trans hm,
          .inr ⟨by rw [hm', hx], ?_⟩⟩
        omega
      · have hxc : (t.textDisplay cursorFunc s₁ d o).2.xc = none := by rw [hm', hx]
        rw [if_neg]
        · obtain ⟨top', y', d', hrun, hrest⟩ := ih (s := s₁) (d := t.textDisplay cursorFunc s₁ d o) (o := t.next o) (m := n + t.lineHeight o)
            (by omega) hnext hnc (by rw [hm', hd]) hxc ⟨by rw [hs₁]; exact hline, by rw [hs₁]; exact hsnoc, by
              rw [hy', hs₁]
              simp only
              omega, by rw [hs₁]; exact hle⟩
          refine ⟨top', y', d', ?_, by rw [hheight] at hrest; exact hrest⟩
          rw [hrun, hs₁]
        · rintro (hneg | hfull' | hsome)
          · omega
          · exact hfull hfull'
          · rw [hxc] at hsome
            exact Bool.false_ne_true hsome

/-! ## The second loop -/

/-- Lines are put in front until the screen is full, which it is at the first line of the text at the latest. -/
theorem fillScreen_spec {fuel : Nat} {s : ViewState} {d : DisplayCursor} {a o n total' : Int} (hfuel : o.toNat < fuel)
    (ha : t.IsLine total a) (hdown : Down t a (t.backwardOffset c) total') (hfull : s.height ≤ total') (ho : t.IsLine total o) (hao : a ≤ o)
    (hd : d.2.offsetc = c) (hon : Down t o (t.backwardOffset c) n) (hy : d.1.y = k + height + n) :
    ∃ d' o', t.fillScreen s fuel d o = some (d', o') ∧ t.IsLine total o' ∧ o' ≤ c ∧ s.height ≤ d'.1.y ∧ d'.2 = d.2 ∧
      ∃ n', Down t o' (t.backwardOffset c) n' ∧ d'.1.y = k + height + n' := by
  have hk := h.row.nonneg
  have hpos := h.pos
  induction fuel generalizing d o n with
  | zero => omega
  | succ fuel ih =>
    rw [fillScreen]
    by_cases hmore : d.1.y < s.height ∧ 0 < o
    · rw [if_pos hmore]
      simp only
      have hne : a ≠ o := by
        rintro rfl
        have := hdown.unique hon
        omega
      obtain ⟨hp, hlt, hnext⟩ := h.lays.prev ho hmore.2
      have hap := h.lays.le_line ha (show a ≤ o - 1 by omega) (by have := ho.le; omega)
      have hpn : Down t (t.backwardOffset (o - 1)) (t.backwardOffset c) (t.lineHeight (t.backwardOffset (o - 1)) + n) :=
        .line (hnext.symm ▸ hlt) (hnext.symm ▸ hon)
      have hpne : t.backwardOffset (o - 1) ≠ t.backwardOffset c := by
        have := hon.le
        omega
      obtain ⟨hy', hm'⟩ := textDisplay_hidden h.lays h.nonneg h.le (s := s) hp hpne hd
      obtain ⟨d', o', hrun, hline, hle, hfull', hd', hrest⟩ := ih (d := t.textDisplay cursorFunc s d (t.backwardOffset (o - 1))) (by
        have := hp.nonneg
        omega) hp hap (by rw [hm', hd]) hpn (by rw [hy']; omega)
      exact ⟨d', o', hrun, hline, hle, hfull', hd'.trans hm', hrest⟩
    · rw [if_neg hmore]
      refine ⟨d, o, rfl, ho, hon.le.trans h.line_le, ?_, rfl, n, hon, hy⟩
      by_contra hlt
      have h0 : o = 0 := by
        have := ho.nonneg
        by_contra hne
        exact hmore ⟨not_le.mp hlt, by omega⟩
      have ha0 : a = o := by
        have := ha.nonneg
        omega
      have := (ha0 ▸ hdown).unique hon
      omega

/-! ## The last display -/

/-- Below the line of the cursor, the cursor stays where it was found. -/
theorem display1_below {fuel : Nat} {s : ViewState} {d : DisplayCursor} {o y : Int} (hfuel : (total - o).toNat < fuel)
    (ho : t.IsLine total o) (hlt : t.backwardOffset c < o) (hd : d.2.offsetc = c) (hfound : Found d.2 y height) :
    ∃ d', t.display1 cursorFunc .print s fuel d o = some d' ∧ Found d'.2 y height := by
  induction fuel generalizing d o with
  | zero => omega
  | succ fuel ih =>
    obtain ⟨-, hm'⟩ := textDisplay_hidden h.lays h.nonneg h.le (s := s) ho (ne_of_gt hlt) hd
    have hfound' : Found (t.textDisplay cursorFunc s d o).2 y height := hm'.symm ▸ hfound
    rw [display1]
    split_ifs with hneg hfull
    · exact ⟨_, rfl, hfound'⟩
    · exact ⟨_, rfl, hfound'⟩
    · rcases h.lays.next o ho.nonneg ho.le ho.line with ⟨hend, -⟩ | ⟨hon, hle, hline, -, -⟩
      · exact absurd hend hneg
      · exact ih (by omega) ⟨ho.nonneg.trans hon.le, hle, hline⟩ (hlt.trans hon) (by rw [hm', hd]) hfound'

/-- A display that begins above the cursor, by so much that the row of the cursor is on the screen, finds it. -/
theorem display1_spec {fuel : Nat} {s : ViewState} {d : DisplayCursor} {o n : Int} (hfuel : (total - o).toNat < fuel)
    (ho : t.IsLine total o) (hoc : o ≤ c) (hdown : Down t o (t.backwardOffset c) n) (hd : d.2.offsetc = c)
    (hfit : d.1.y + n + k + height ≤ s.height) :
    ∃ d', t.display1 cursorFunc .print s fuel d o = some d' ∧ Found d'.2 (d.1.y + n + k) height := by
  have hk := h.row.nonneg
  have hpos := h.pos
  induction fuel generalizing d o n with
  | zero => omega
  | succ fuel ih =>
    rw [display1]
    by_cases heq : o = t.backwardOffset c
    · subst heq
      obtain rfl := hdown.unique (.here _)
      obtain ⟨hfound, -, hoff⟩ := h.textDisplay_row s hd
      rw [Int.add_zero]
      split_ifs with hneg hfull
      · exact ⟨_, rfl, hfound⟩
      · exact ⟨_, rfl, hfound⟩
      · rcases h.lays.next _ ho.nonneg ho.le ho.line with ⟨hend, -⟩ | ⟨hon, hle, hline, -, -⟩
        · exact absurd hend hneg
        · exact h.display1_below (by omega) ⟨ho.nonneg.trans hon.le, hle, hline⟩ hon hoff hfound
    · obtain ⟨hlt, hnext, hnle, hnc⟩ := h.lays.next_of_ne ho hoc h.le heq
      obtain ⟨hy', hm'⟩ := textDisplay_hidden h.lays h.nonneg h.le (s := s) ho heq hd
      cases hdown with
      | here => exact absurd rfl heq
      | @line _ _ n' _ hrest =>
        have hpos' := h.lays.down_nonneg hnext hrest
        have hnonneg := hnext.nonneg
        have hsum : (t.textDisplay cursorFunc s d o).1.y + n' = d.1.y + (t.lineHeight o + n') := by
          rw [hy']
          omega
        rw [if_neg (by omega), if_neg (by simp only [DisplayType.done, decide_eq_true_eq]; omega)]
        rw [← hsum]
        exact ih (by have := hnext.le; omega) hnext hnc hrest (by rw [hm', hd]) (by omega)

end Displayed

/-! ## The whole function -/

theorem fitColumn_view (s : ViewState) (m : CursorContext) :
    (fitColumn s m).offset = s.offset ∧ (fitColumn s m).offsetTop = s.offsetTop ∧ (fitColumn s m).yDisp = s.yDisp ∧
      (fitColumn s m).height = s.height := by
  have hset : ∀ base x, (s.setXDisp base x).offset = s.offset ∧ (s.setXDisp base x).offsetTop = s.offsetTop ∧
      (s.setXDisp base x).yDisp = s.yDisp ∧ (s.setXDisp base x).height = s.height := by
    intro base x
    cases base <;> exact ⟨rfl, rfl, rfl, rfl⟩
  rw [fitColumn]
  simp only
  split_ifs
  · exact hset _ _
  · exact hset _ _
  · exact hset _ _
  · exact ⟨rfl, rfl, rfl, rfl⟩
  · exact ⟨rfl, rfl, rfl, rfl⟩

/-- A place for the top from which the cursor is on the screen. -/
structure Fits (t : TextMode) (total : Int) (s : ViewState) (k height n : Int) : Prop where
  line : t.IsLine total s.offsetTop
  le : s.offsetTop ≤ s.offset
  down : Down t s.offsetTop (t.backwardOffset s.offset) n
  yDisp : s.yDisp ≤ 0
  above : 0 ≤ s.yDisp + n + k
  below : s.yDisp + n + k + height ≤ s.height

namespace Displayed

variable {s : ViewState} {k height : Int} (h : t.Displayed total s.offset k height) (hfit : height ≤ s.height)

include h hfit

/-- A cursor that was found below the top is moved into the screen. -/
theorem fits_intoScreen {m : CursorContext} {n : Int} (hline : t.IsLine total s.offsetTop) (hle : s.offsetTop ≤ s.offset)
    (hdown : Down t s.offsetTop (t.backwardOffset s.offset) n) (hy : s.yDisp ≤ 0) (hfound : Found m (s.yDisp + n + k) height)
    (hzero : s.yDisp + n ≤ 0 → n = 0) : Fits t total (cursorIntoScreen s m) k height n := by
  have hk := h.row.nonneg
  rw [cursorIntoScreen, hfound.yc, hfound.height]
  split_ifs with hneg hlow
  · have hn := hzero (by omega)
    exact ⟨hline, hle, hdown, by simp only; omega, by simp only; omega, by simp only; omega⟩
  · exact ⟨hline, hle, hdown, by simp only; omega, by simp only; omega, by simp only; omega⟩
  · exact ⟨hline, hle, hdown, hy, by omega, by omega⟩

/-- A cursor that was not found is put at the bottom of the screen. -/
theorem fits_toBottom {fuel : Nat} {m : CursorContext} {n : Int} (hfuel : s.offset.toNat < fuel) (hline : t.IsLine total s.offsetTop)
    (hle : s.offsetTop ≤ s.offset) (hdown : Down t s.offsetTop (t.backwardOffset s.offset) n) (hfull : s.height ≤ n)
    (hm : m.offsetc = s.offset) :
    ∃ s' m' n', t.cursorToBottom fuel s m = some (s', m') ∧ Fits t total s' k height n' ∧ s'.offset = s.offset ∧ s'.height = s.height := by
  have hk := h.row.nonneg
  obtain ⟨d, hd⟩ : ∃ d, d = t.textDisplay cursorFunc s ({ displayInit s with y := 0 }, m) (t.backwardOffset s.offset) := ⟨_, rfl⟩
  obtain ⟨hfound, -, hoff⟩ := h.textDisplay_row s (d := ({ displayInit s with y := 0 }, m)) hm
  rw [← hd] at hfound hoff
  obtain ⟨hxc, hyc, hheight⟩ := hfound
  have hyc : d.2.yc = 0 + k := hyc
  have hcursor := h.isLine
  have hfuel' : (t.backwardOffset s.offset).toNat < fuel := by
    have := h.line_le
    omega
  obtain ⟨d', o', hrun, hline', hle', hfull', hd', n', hdown', hy'⟩ := h.fillScreen_spec (s := s)
    (d := ({ d.1 with y := d.2.yc + d.2.cursorHeight }, d.2)) (o := t.backwardOffset s.offset) (n := 0) (a := s.offsetTop)
    hfuel' hline hdown hfull hcursor (h.lays.le_line hline hle h.le) hoff (.here _) (by
      simp only [hyc, hheight]
      omega)
  refine ⟨{ s with offsetTop := o', yDisp := s.height - d'.1.y }, d'.2, n', ?_, ⟨hline', hle', hdown', ?_, ?_, ?_⟩, rfl, rfl⟩
  · rw [cursorToBottom]
    simp only
    rw [← hd, if_pos hxc, hrun, Option.map_some]
  all_goals
    simp only
    omega

omit hfit in
/-- From a place that fits, the last display finds the cursor on the screen. -/
theorem lastDisplay {fuel : Nat} {m : CursorContext} {n : Int} (hfuel : total.toNat < fuel) (hs : Fits t total s k height n) :
    ∃ d, t.display1 cursorFunc .print s fuel (displayInit s, m.reset s.offset) s.offsetTop = some d ∧ Found d.2 (s.yDisp + n + k) height := by
  have hnonneg := hs.line.nonneg
  exact h.display1_spec (d := (displayInit s, m.reset s.offset)) (by omega) hs.line hs.le hs.down rfl hs.below

end Displayed

/-- However the lines are laid out, `generic_text_display` ends, the window begins at or above the cursor and not below the top of the
screen, and the last display finds the cursor inside the screen. -/
theorem cursor_on_screen (t : TextMode) {total : Int} (h : t.Lays total) {s : ViewState} (m : CursorContext) (hc0 : 0 ≤ s.offset)
    (hc : s.offset ≤ total) (htop : t.IsLine total s.offsetTop) (hy : s.yDisp ≤ 0)
    (hrow : ∀ r ∈ t.rows (t.backwardOffset s.offset), (∃ c ∈ r.cells, c.shows s.offset = true) → r.height ≤ s.height) :
    ∃ s' d, t.genericTextDisplay (total.toNat + 1) s m = some (s', d) ∧ s'.yDisp ≤ 0 ∧ s'.offsetTop ≤ s.offset ∧
      d.2.xc.isSome = true ∧ 0 ≤ d.2.yc ∧ d.2.yc + d.2.cursorHeight ≤ s.height := by
  obtain ⟨k, height, hcur⟩ := exists_row h hc0 hc
  obtain ⟨r, hr, hheight, hshows⟩ := hcur.row
  have hline := h.isLine hc0 hc
  have hdisp : t.Displayed total s.offset k height :=
    ⟨h, hc0, hc, hcur, hheight ▸ (h.rows _ hline.nonneg hline.le hline.line).2 r hr⟩
  have hfit : height ≤ s.height := hheight ▸ hrow r hr hshows
  -- the window begins at or above the cursor
  obtain ⟨s₀, hs₀⟩ : ∃ s₀, s₀ = if s.offset < s.offsetTop then { s with offsetTop := t.backwardOffset s.offset } else s := ⟨_, rfl⟩
  have hview : s₀.offset = s.offset ∧ s₀.height = s.height ∧ s₀.yDisp = s.yDisp ∧ t.IsLine total s₀.offsetTop ∧
      s₀.offsetTop ≤ s.offset := by
    rw [hs₀]
    split_ifs with hlt
    · exact ⟨rfl, rfl, rfl, hline, (h.line _ hc0 hc).2.1⟩
    · exact ⟨rfl, rfl, rfl, htop, not_lt.mp hlt⟩
  obtain ⟨hoffset, hheight₀, hy₀, htop₀, hle₀⟩ := hview
  have hnonneg := htop₀.nonneg
  have hfuel : (s.offset - s₀.offsetTop).toNat < total.toNat + 1 := by omega
  obtain ⟨top, y, d₁, hfind, hline₁, hle₁, hy₁, hoff₁, n, hdown, hcases⟩ := hdisp.findCursor_spec hfuel (s := s₀)
    (d := (displayInit s₀, m.reset s₀.offset)) htop₀ hle₀ hoffset rfl ⟨htop₀, .here _, (Int.add_zero _).symm, hy₀ ▸ hy⟩
  obtain ⟨s₁, hs₁⟩ : ∃ s₁, s₁ = ({ s₀ with offsetTop := top, yDisp := y } : ViewState) := ⟨_, rfl⟩
  have hoffset₁ : s₁.offset = s.offset := by rw [hs₁, ← hoffset]
  have hheight₁ : s₁.height = s.height := by rw [hs₁, ← hheight₀]
  rw [← hs₁] at hfind
  have hdisp₁ : t.Displayed total s₁.offset k height := hoffset₁.symm ▸ hdisp
  -- both ways lead to a place that fits
  obtain ⟨s₂, m₂, n₂, hfitted, hs₂, hoffset₂, hheight₂⟩ : ∃ s₂ m₂ n₂,
      (if d₁.2.xc.isNone then t.cursorToBottom (total.toNat + 1) s₁ d₁.2 else some (cursorIntoScreen s₁ d₁.2, d₁.2)) = some (s₂, m₂) ∧
        Fits t total s₂ k height n₂ ∧ s₂.offset = s.offset ∧ s₂.height = s.height := by
    have hline : t.IsLine total s₁.offsetTop := by rw [hs₁]; exact hline₁
    have hle : s₁.offsetTop ≤ s₁.offset := by rw [hoffset₁, hs₁]; exact hle₁
    have hdown₁ : Down t s₁.offsetTop (t.backwardOffset s₁.offset) n := by rw [hoffset₁, hs₁]; exact hdown
    rcases hcases with ⟨hfound, hzero⟩ | ⟨hnone, hfull⟩
    · have hsome : ¬ d₁.2.xc.isNone = true := by
        rw [Option.isNone_iff_eq_none]
        exact Option.isSome_iff_ne_none.mp hfound.xc
      rw [if_neg hsome]
      refine ⟨_, _, n, rfl, hdisp₁.fits_intoScreen (hheight₁.symm ▸ hfit) hline hle hdown₁ ?_ ?_ ?_, ?_, ?_⟩
      · rw [hs₁]
        exact hy₁
      · rw [hs₁]
        exact hfound
      · rw [hs₁]
        exact hzero
      · rw [cursorIntoScreen]
        split_ifs <;> exact hoffset₁
      · rw [cursorIntoScreen]
        split_ifs <;> exact hheight₁
    · rw [if_pos (Option.isNone_iff_eq_none.mpr hnone)]
      have hfuel₁ : s₁.offset.toNat < total.toNat + 1 := by omega
      obtain ⟨s₂, m₂, n₂, hrun, hfits, hoffset₂, hheight₂⟩ := hdisp₁.fits_toBottom (hheight₁.symm ▸ hfit) hfuel₁ hline hle hdown₁
        (by rw [hheight₁, ← hheight₀]; exact hfull) (hoff₁.trans hoffset₁.symm)
      exact ⟨s₂, m₂, n₂, hrun, hfits, hoffset₂.trans hoffset₁, hheight₂.trans hheight₁⟩
  obtain ⟨hoffset₃, htop₃, hy₃, hheight₃⟩ := fitColumn_view s₂ m₂
  have hs₃ : Fits t total (fitColumn s₂ m₂) k height n₂ := by
    obtain ⟨h1, h2, h3, h4, h5, h6⟩ := hs₂
    exact ⟨by rw [htop₃]; exact h1, by rw [htop₃, hoffset₃]; exact h2, by rw [htop₃, hoffset₃]; exact h3, by rw [hy₃]; exact h4,
      by rw [hy₃]; exact h5, by rw [hy₃, hheight₃]; exact h6⟩
  have hdisp₃ : t.Displayed total (fitColumn s₂ m₂).offset k height := by
    rw [hoffset₃, hoffset₂]
    exact hdisp
  obtain ⟨d₃, hlast, hfound₃⟩ := hdisp₃.lastDisplay (m := m₂) (Nat.lt_succ_self total.toNat) hs₃
  refine ⟨fitColumn s₂ m₂, d₃, ?_, hs₃.yDisp, ?_, hfound₃.xc, ?_, ?_⟩
  · rw [genericTextDisplay, ← hs₀]
    simp only
    rw [hfind, Option.bind_some]
    simp only
    rw [hfitted, Option.bind_some]
    simp only
    rw [hlast, Option.map_some]
  · rw [← hoffset₂, ← hoffset₃]
    exact hs₃.le
  · rw [hfound₃.yc]
    exact hs₃.above
  · rw [hfound₃.yc, hfound₃.height, ← hheight₂, ← hheight₃]
    exact hs₃.below

end TextMode

/-- The text "a" with a newline behind it, in rows of one line. -/
def oneLetter : TextMode where
  base _ := .ltr
  rows o := if o < 2 then [⟨1, [⟨0, 1, 0, 1⟩, ⟨1, 2, 1, 1⟩]⟩] else [⟨1, [⟨2, 3, 0, 1⟩]⟩]
  next o := if o < 2 then 2 else -1
  backwardOffset o := if o < 2 then 0 else 2

theorem oneLetter_lays : oneLetter.Lays 2 where
  line o h0 h2 := by interval_cases o <;> decide
  next o h0 h2 hline := by
    interval_cases o
    · refine .inr ⟨by decide, by decide, by decide, ?_, ?_⟩
      · intro c _ hc
        exact if_pos hc
      · intro c hc _
        have hline : oneLetter.backwardOffset c = 2 := if_neg (not_lt.mpr hc)
        exact hline.symm.le
    · exact absurd hline (by decide)
    · refine .inl ⟨by decide, ?_⟩
      intro c hc _
      exact if_neg (not_lt.mpr hc)
  rows o h0 h2 hline := by interval_cases o <;> decide
  once o c h0 h2 hline hc0 hc2 := by interval_cases o <;> interval_cases c <;> revert hline <;> decide

/-- A window of one row that shows the first line, with the cursor at the end of the text. -/
theorem cursor_on_screen_end : ∃ s' d, oneLetter.genericTextDisplay 3 ⟨2, 0, 0, 0, 0, 10, 1, 1, false⟩ ⟨0, none, 0, .ltr, 0, 0, 0⟩ =
    some (s', d) ∧ s'.yDisp ≤ 0 ∧ s'.offsetTop ≤ 2 ∧ d.2.xc.isSome = true ∧ 0 ≤ d.2.yc ∧ d.2.yc + d.2.cursorHeight ≤ 1 :=
  TextMode.cursor_on_screen oneLetter oneLetter_lays (s := ⟨2, 0, 0, 0, 0, 10, 1, 1, false⟩) _ (by decide) (by decide)
    ⟨by decide, by decide, by decide⟩ (by decide) (by decide)

end Hoe
