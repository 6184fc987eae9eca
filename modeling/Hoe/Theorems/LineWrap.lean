import Hoe.Lemmas.LayoutLine

/-!
# The wrapping of lines

In the mode `WRAP_LINE` a fragment that does not fit is split, as often as it takes, and its rest begins the next row. When the
window has room for a glyph at least every turn puts one on the row, so that the loop ends; the rows are as wide as the window at
most, or of one glyph that is wider.
-/

namespace Hoe

namespace Layout

open TextDisplay (WrapType maxScreenWidth maxWordSize tab space)

/-- A fragment of a word, as the characters are gathered: a tab is alone in it. -/
structure WordFragment where
  chars : List FragmentChar
  ne_nil : chars ≠ []
  length_le : chars.length ≤ maxWordSize
  tabAlone : TabAlone chars
  space : Bool
  style : Nat

/-- The glyphs of the fragment take no more than fits a short. -/
def WordFragment.Light (e : Setting) (f : WordFragment) : Prop :=
  (∀ c ∈ f.chars, c.ch ≠ tab) → (f.chars.map fun c => e.glyphWidth c.ch).sum ≤ 32767

instance (e : Setting) (f : WordFragment) : Decidable (f.Light e) := inferInstanceAs (Decidable (_ → _))

/-- The fragment has been gathered. -/
def WordFragment.gather (f : WordFragment) (s : DisplayState) : DisplayState :=
  { s with fragment := f.chars, lastSpace := f.space, lastStyle := f.style }

/-- The fragments are flushed one after the other. -/
def flushAll (e : Setting) : List WordFragment → DisplayState → Option DisplayState
  | [], s => some s
  | f :: fs, s => (flushFragment e (f.gather s)).bind (flushAll e fs)

/-- A line of fragments, from `display_bol` to `display_eol`. -/
def layoutLine (e : Setting) (fs : List WordFragment) (s : DisplayState) (offset1 offset2 : Int) : Option DisplayState :=
  (flushAll e fs (displayBol e s)).bind fun t => displayEol e t offset1 offset2

/-- A row has a glyph, and is no wider than the window unless that is the only one. -/
def GoodRow (e : Setting) (row : List Glyph) : Prop := row ≠ [] ∧ (columns row ≤ e.width ∨ row.length = 1)

/-- The rows that were flushed meanwhile are good. -/
def GoodRows (e : Setting) (s t : DisplayState) : Prop := ∃ new, t.rows = s.rows ++ new ∧ ∀ row ∈ new, GoodRow e row

theorem GoodRows.of_eq {e : Setting} {s t : DisplayState} (h : t.rows = s.rows) : GoodRows e s t :=
  ⟨[], h.trans (List.append_nil _).symm, fun _ hrow => absurd hrow List.not_mem_nil⟩

theorem GoodRows.trans {e : Setting} {s t u : DisplayState} (h : GoodRows e s t) (h' : GoodRows e t u) : GoodRows e s u := by
  obtain ⟨new, hrows, hgood⟩ := h
  obtain ⟨new', hrows', hgood'⟩ := h'
  refine ⟨new ++ new', by rw [hrows', hrows, List.append_assoc], fun row hrow => ?_⟩
  exact (List.mem_append.1 hrow).elim (hgood row) (hgood' row)

/-! ## A row -/

/-- The glyphs that are pending take a column at least, and the fragments are not empty. -/
structure Wide (s : DisplayState) : Prop where
  tiled : Tiled 0 s.fragments s.lineIndex
  x : s.x = columns s.pending
  widths : ∀ g ∈ s.pending, 1 ≤ g.width
  long : ∀ f ∈ s.fragments, 1 ≤ f.len

/-- What is in front of the last fragment fits into the window. -/
def FrontFits (e : Setting) (s : DisplayState) : Prop :=
  ∀ frag, s.fragments.getLast? = some frag → columns (s.arrays.glyphs 0 frag.lineIndex) ≤ e.width

/-- The glyphs in front of some index are pending. -/
theorem Wide.front {s : DisplayState} (h : Wide s) {i : Nat} (hi : i ≤ s.lineIndex) : ∀ g ∈ s.arrays.glyphs 0 i, 1 ≤ g.width := by
  intro g hg
  refine h.widths g ?_
  rw [DisplayState.pending, ← Nat.add_sub_of_le hi, LineArrays.glyphs_add]
  exact List.mem_append_left _ hg

/-- A turn of the loop flushes a good row. -/
theorem Wide.flushRow {e : Setting} {s : DisplayState} (h : Wide s) (hwidth : 0 ≤ e.width) (hfront : FrontFits e s)
    (hlong : e.width < s.x) : ∃ k, flushRow e s = some k ∧ GoodRow e (s.arrays.glyphs 0 (s.lineIndex - k.2)) := by
  cases hlast : s.fragments.getLast? with
  | none =>
    have htiled := h.tiled
    rw [List.getLast?_eq_none_iff.1 hlast] at htiled
    refine absurd hlong (not_lt.2 ?_)
    rw [h.x, DisplayState.pending, ← show 0 = s.lineIndex from htiled]
    exact hwidth
  | some frag =>
    obtain ⟨-, hend⟩ := last_fragment h.tiled hlast
    have hlen := h.long frag (List.mem_of_getLast? hlast)
    have hx : s.x = columns (s.arrays.glyphs 0 frag.lineIndex) + columns (s.arrays.glyphs frag.lineIndex frag.len) := by
      rw [h.x, DisplayState.pending, ← hend, LineArrays.glyphs_add, columns_append, Nat.zero_add]
    obtain ⟨fit, hfit, hends, htaken⟩ := fitLen_some s.arrays frag.lineIndex (hfront frag hlast) hx
    obtain ⟨hle, hcolumns⟩ := fitLen_spec s.arrays frag.lineIndex e.width hfit
    obtain ⟨k, hk, hrest⟩ := flushRow_some e hlast hfit
    have hindex : s.lineIndex - k.2 = frag.lineIndex + fit.1 := by omega
    have hempty : frag.lineIndex ≠ 0 → columns (s.arrays.glyphs 0 frag.lineIndex) ≠ 0 := by
      intro hne hzero
      have hfew := length_le_columns (h.front (i := frag.lineIndex) (by omega))
      rw [LineArrays.length_glyphs] at hfew
      omega
    refine ⟨k, hk, ?_, ?_⟩
    · rw [hindex, ← List.length_pos_iff, LineArrays.length_glyphs]
      by_cases hzero : frag.lineIndex = 0
      · have hpos := htaken (by rw [hzero]; rfl) hlen
        omega
      · omega
    · rw [hindex, LineArrays.length_glyphs]
      refine hends.imp (fun hfits => ?_) fun hone => ?_
      · have hsplit := LineArrays.glyphs_add s.arrays frag.lineIndex fit.1 (frag.len - fit.1)
        rw [Nat.add_sub_of_le hle] at hsplit
        rw [hsplit, columns_append] at hx
        rw [LineArrays.glyphs_add, columns_append, Nat.zero_add]
        omega
      · have hstart : frag.lineIndex = 0 := by
          by_contra hne
          exact hempty hne hone.2
        omega

/-- The rest of the row is as it was. -/
theorem Wide.of_flushRow {e : Setting} {s : DisplayState} (h : Wide s) {k : DisplayState × Nat}
    (hk : Layout.flushRow e s = some k) :
    Wide (keepLineChars k.1 k.2) := by
  have hflushed := flushRow_spec e h.tiled hk
  have halone := Alone.of_flushRow h.tiled hk
  refine ⟨hflushed.tiled, halone.x, fun g hg => ?_, ?_⟩
  · obtain ⟨j, hj, rfl⟩ := List.mem_map.1 hg
    have hlt : j < k.2 := (List.mem_range'_1.1 hj).2.trans_le (Nat.zero_add _).le
    have hle := hflushed.le
    rw [keepLineChars_glyph k.1 hlt, hflushed.arrays, hflushed.lineIndex]
    exact h.widths (s.arrays.glyph (s.lineIndex - k.2 + j))
      (List.mem_map.2 ⟨_, List.mem_range'_1.2 ⟨Nat.zero_le _, by omega⟩, rfl⟩)
  · rw [Layout.flushRow] at hk
    obtain ⟨frag, -, hk⟩ := Option.bind_eq_some_iff.1 hk
    obtain ⟨fit, -, hk⟩ := Option.bind_eq_some_iff.1 hk
    rw [← Option.some.inj hk]
    intro f hf
    dsimp only [keepLineChars] at hf
    split_ifs at hf with hrest
    · rw [List.mem_singleton.1 hf]
      exact hrest
    · exact absurd hf List.not_mem_nil

theorem frontFits_of_alone {e : Setting} {s : DisplayState} (h : Alone s) (hwidth : 0 ≤ e.width) : FrontFits e s := by
  intro frag hlast
  obtain ⟨hfront, -⟩ := last_fragment h.tiled hlast
  have hnone : s.fragments.dropLast = [] := by
    have hone := h.fragments
    rw [← List.length_eq_zero_iff, List.length_dropLast]
    omega
  rw [hnone] at hfront
  rw [← show 0 = frag.lineIndex from hfront]
  exact hwidth

/-- The loop flushes good rows. -/
theorem Wide.wrapLine {e : Setting} {n : Nat} {s t : DisplayState} (h : Wide s) (hwidth : 0 ≤ e.width) (hfront : FrontFits e s)
    (ht : wrapLine e n s = some t) : GoodRows e s t ∧ Wide t := by
  induction n generalizing s with
  | zero =>
    rw [Layout.wrapLine] at ht
    split_ifs at ht
    rw [← Option.some.inj ht]
    exact ⟨GoodRows.of_eq rfl, h⟩
  | succ n ih =>
    rw [Layout.wrapLine] at ht
    split_ifs at ht with hlong
    · obtain ⟨k, hk, ht⟩ := Option.bind_eq_some_iff.1 ht
      obtain ⟨k', hk', hrow⟩ := h.flushRow hwidth hfront hlong
      obtain rfl := Option.some.inj (hk.symm.trans hk')
      have hflushed := flushRow_spec e h.tiled hk
      obtain ⟨hrows, hwide⟩ := ih (h.of_flushRow hk) (frontFits_of_alone (Alone.of_flushRow h.tiled hk) hwidth) ht
      have hfirst : GoodRows e s (keepLineChars k.1 k.2) := ⟨[_], hflushed.rows, fun row hmem => List.mem_singleton.1 hmem ▸ hrow⟩
      exact ⟨hfirst.trans hrows, hwide⟩
    · rw [← Option.some.inj ht]
      exact ⟨GoodRows.of_eq rfl, h⟩

/-! ## A line -/

/-- The setting of the mode, with glyphs of a column at least and tabs that fit a short, in a window that the arrays have room for. -/
structure LineMode (e : Setting) : Prop where
  wrap : e.wrap = .line
  width_nonneg : 0 ≤ e.width
  width_le : e.width ≤ maxScreenWidth - maxWordSize
  xDisp : e.xDisp = 0
  glyphWidth : ∀ c, 1 ≤ e.glyphWidth c
  tabWidth : e.tabWidth ≤ 32767

/-- Between two fragments the row fits into the window. -/
structure RowFits (e : Setting) (s : DisplayState) : Prop where
  ok : s.Ok e
  wide : Wide s
  fits : s.x ≤ e.width

theorem LineMode.displayBol {e : Setting} (h : LineMode e) (s : DisplayState) : RowFits e (displayBol e s) := by
  refine ⟨(between_displayBol e s).toOk, ⟨rfl, h.xDisp, ?_, ?_⟩, h.xDisp.trans_le h.width_nonneg⟩
  · exact fun _ hg => absurd hg List.not_mem_nil
  · exact fun _ hf => absurd hf List.not_mem_nil

theorem WordFragment.gather_ok (f : WordFragment) {e : Setting} {s : DisplayState} (h : s.Ok e) : (f.gather s).Ok e :=
  ⟨h.tiled, h.word, h.lineIndex, h.long, h.fits, f.length_le, f.tabAlone⟩

/-- The glyphs of a fragment are as wide as they should be, which is a column at least. -/
theorem LineMode.made {e : Setting} (h : LineMode e) {f : WordFragment} (hf : f.Light e) {s : DisplayState} (hs : RowFits e s) :
    (f.gather s).Measures e ∧ ∀ g ∈ (f.gather s).made e, 1 ≤ g.width := by
  by_cases htab : ∃ c ∈ f.chars, c.ch = tab
  · refine ⟨measures_of_tab htab f.tabAlone, fun g hg => ?_⟩
    obtain ⟨c, hc⟩ := List.length_eq_one_iff.1 (f.tabAlone htab)
    obtain ⟨d, hd, hch⟩ := htab
    rw [hc] at hd
    have hmade : (f.gather s).made e = [c.glyph e s.x] := by
      rw [DisplayState.made, WordFragment.gather, hc]
      rfl
    rw [hmade] at hg
    rw [List.mem_singleton.1 hg, FragmentChar.glyph_of_tab e s.x (List.mem_singleton.1 hd ▸ hch)]
    have hx : 0 ≤ s.x - e.xDisp := by
      rw [h.xDisp, Int.sub_zero, hs.wide.x]
      exact columns_nonneg fun g hg => Int.le_trans (by decide) (hs.wide.widths g hg)
    have hlow := tabColumns_pos e s.x
    have hmod : 0 ≤ (s.x - e.xDisp).tmod e.tabWidth := Int.tmod_nonneg _ hx
    have hhigh := h.tabWidth
    have hcolumns : tabColumns e s.x = e.tabWidth - (s.x - e.xDisp).tmod e.tabWidth := rfl
    exact hlow.trans_eq (short_eq (by omega) (by omega)).symm
  · obtain ⟨hmade, hm⟩ := measures_of_sum (s := f.gather s) (fun c hc hch => htab ⟨c, hc, hch⟩) (hf fun c hc hch => htab ⟨c, hc, hch⟩)
    refine ⟨hm, fun g hg => ?_⟩
    rw [hmade] at hg
    obtain ⟨c, -, rfl⟩ := List.mem_map.1 hg
    exact Int.ofNat_le.2 (h.glyphWidth c.ch)

/-- The arrays have room for a fragment after a row that fits. -/
theorem RowFits.room {e : Setting} {s : DisplayState} (h : RowFits e s) (hmode : LineMode e) :
    ¬s.Full ∧ s.lineIndex + maxWordSize ≤ maxScreenWidth := by
  have hcolumns := length_le_columns h.wide.widths
  rw [← h.wide.x, DisplayState.pending, LineArrays.length_glyphs] at hcolumns
  have hwidth := hmode.width_le
  have hfits := h.fits
  have hcount := h.ok.tiled.length_le h.wide.long
  have hsizes : maxScreenWidth = 256 ∧ maxWordSize = 128 := ⟨rfl, rfl⟩
  refine ⟨fun hfull => ?_, by omega⟩
  rcases hfull with hfull | hfull <;> omega

/-- The row with the fragment after it: only the fragment may be too much. -/
theorem RowFits.added {e : Setting} {s a : DisplayState} (h : RowFits e s) (hm : s.Measures e) (hmade : ∀ g ∈ s.made e, 1 ≤ g.width)
    (hne : s.fragment ≠ []) (ha : Added e s a) : Wide a ∧ FrontFits e a := by
  have hpending := ha.pending
  constructor
  · refine ⟨ha.tiled h.wide.tiled, ?_, fun g hg => ?_, fun f hf => ?_⟩
    · rw [hpending, columns_append, ha.x, hm.short, h.wide.x]
    · rw [hpending] at hg
      exact (List.mem_append.1 hg).elim (h.wide.widths g) (hmade g)
    · rw [ha.fragments] at hf
      rcases List.mem_append.1 hf with hf | hf
      · exact h.wide.long f hf
      · rw [List.mem_singleton.1 hf]
        exact List.length_pos_iff.2 hne
  · intro frag hlast
    rw [ha.fragments, List.getLast?_append] at hlast
    rw [← Option.some.inj hlast]
    have hfront : a.arrays.glyphs 0 s.lineIndex = s.pending := LineArrays.glyphs_congr fun j hj => ha.outside _ (Or.inl (by omega))
    have hfits := h.fits
    rw [h.wide.x, ← hfront] at hfits
    exact hfits

/-- The fragment is flushed, and leaves good rows. -/
theorem RowFits.flush {e : Setting} {s : DisplayState} (h : RowFits e s) (hmode : LineMode e) {f : WordFragment} (hf : f.Light e) :
    ∃ t, flushFragment e (f.gather s) = some t ∧ RowFits e t ∧ GoodRows e s t ∧ t.fragment = [] ∧
      t.glyphs.map Glyph.shown = s.glyphs.map Glyph.shown ++ f.chars.map FragmentChar.shown := by
  obtain ⟨hfull, hindex⟩ := h.room hmode
  have hok := f.gather_ok h.ok
  obtain ⟨hm, hwide⟩ := hmode.made hf h
  have hroom : (f.gather s).lineIndex + (f.gather s).fragment.length ≤ maxScreenWidth :=
    (Nat.add_le_add_left f.length_le s.lineIndex).trans hindex
  have hfits : FlushFits e (f.gather s) := Or.inr (Or.inr ⟨hroom, fun _ => Or.inr ⟨hmode.width_nonneg, h.fits⟩⟩)
  obtain ⟨t, ht⟩ := Option.isSome_iff_exists.1 ((flushFragment_isSome_iff hok hm).2 hfits)
  have hlaid := flushFragment_spec hok (fun k _ => stays_shown k) ht
  have hshown : ((f.gather s).added e).map Glyph.shown = f.chars.map FragmentChar.shown := by
    have hfull' : ¬(f.gather s).Full := hfull
    rw [DisplayState.added, if_neg hfull']
    exact made_shown e (f.gather s)
  obtain ⟨a, -, hadded, hflush⟩ := flushFragment_added hok f.ne_nil hfull hroom
  obtain ⟨w, hw, hwt⟩ := Option.map_eq_some_iff.1 (hflush.symm.trans ht)
  have hfields := updateWord_same (f.gather s)
  have hmade := made_updateWord e (f.gather s)
  obtain ⟨u, hu⟩ : ∃ u, u = updateWord (f.gather s) := ⟨_, rfl⟩
  rw [← hu] at hadded hfields hmade
  have hready : RowFits e u := by
    rw [hu]
    refine ⟨hok.updateWord, ?_, ?_⟩
    · rw [← hu, hfields]
      exact ⟨h.wide.tiled, h.wide.x, h.wide.widths, h.wide.long⟩
    · rw [← hu, hfields]
      exact h.fits
  obtain ⟨hwide, hfront⟩ := hready.added ⟨by rw [hmade]; exact hm.short, by rw [hmade]; exact hm.even⟩ (by rw [hmade]; exact hwide)
    (by rw [hfields]; exact f.ne_nil) hadded
  have hends := (wrapRows_spec e (p := Glyph.shown) hwide.tiled (fun k _ => stays_shown k) hw).2.1 hmode.wrap
  rw [wrapRows, hmode.wrap] at hw
  obtain ⟨hrows, hwide'⟩ := hwide.wrapLine hmode.width_nonneg hfront hw
  have hstart : GoodRows e s a := by
    obtain ⟨arrays, hothers⟩ := hadded.others
    exact GoodRows.of_eq (by rw [hothers, hfields]; rfl)
  refine ⟨t, ht, ⟨hlaid.ok, ?_, ?_⟩, ?_, hlaid.fragment, ?_⟩
  · exact hwt ▸ ⟨hwide'.tiled, hwide'.x, hwide'.widths, hwide'.long⟩
  · exact hwt ▸ hends
  · exact (hstart.trans hrows).trans (GoodRows.of_eq (hwt ▸ rfl))
  · rw [hlaid.glyphs, hshown]
    rfl

theorem RowFits.flushAll {e : Setting} (hmode : LineMode e) {fs : List WordFragment} (hfs : ∀ f ∈ fs, f.Light e) {s : DisplayState}
    (h : RowFits e s) (hnone : s.fragment = []) : ∃ t, flushAll e fs s = some t ∧ RowFits e t ∧ GoodRows e s t ∧ t.fragment = [] ∧
      t.glyphs.map Glyph.shown = s.glyphs.map Glyph.shown ++ (fs.flatMap (·.chars)).map FragmentChar.shown := by
  induction fs generalizing s with
  | nil => exact ⟨s, rfl, h, GoodRows.of_eq rfl, hnone, (List.append_nil _).symm⟩
  | cons f fs ih =>
    obtain ⟨t, ht, hfits, hrows, hempty, hglyphs⟩ := h.flush hmode (hfs f List.mem_cons_self)
    obtain ⟨u, hu, hfits', hrows', hempty', hglyphs'⟩ := ih (fun g hg => hfs g (List.mem_cons_of_mem f hg)) hfits hempty
    refine ⟨u, by rw [Layout.flushAll, ht]; exact hu, hfits', hrows.trans hrows', hempty', ?_⟩
    rw [hglyphs', hglyphs, List.flatMap_cons, List.map_append, List.append_assoc]

/-- Letters, from an offset on. -/
def letters (offset n : Nat) (hpos : 1 ≤ n) (hle : n ≤ maxWordSize) : WordFragment where
  chars := (List.range n).map fun i : Nat => ⟨0x61, offset + i, offset + i + 1, false⟩
  ne_nil := fun hnil => by
    rw [List.map_eq_nil_iff, List.range_eq_nil] at hnil
    omega
  length_le := by rwa [List.length_map, List.length_range]
  tabAlone := by
    rintro ⟨c, hc, htab⟩
    obtain ⟨i, -, rfl⟩ := List.mem_map.1 hc
    exact absurd htab (show ¬0x61 = tab by decide)
  space := false
  style := 0

/-- A window with tabs of 40000 columns. -/
def wideTabs : Setting := { plainWindow .line 79 with tabWidth := 40000, tabWidth_pos := by decide }

/-- A tab and 256 letters. -/
def tabAndLetters : List WordFragment :=
  [{ chars := [⟨tab, 0, 1, false⟩], ne_nil := by decide, length_le := by decide, tabAlone := fun _ => rfl, space := false, style := 0 },
    letters 1 127 (by decide) (by decide), letters 128 128 (by decide) (by decide), letters 256 1 (by decide) (by decide)]

end Layout

end Hoe
