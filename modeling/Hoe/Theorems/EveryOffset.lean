import Hoe.Lemmas.Characters
import Hoe.Lemmas.Rows
import Hoe.TextDisplay

/-!
# Every offset of a line is offered

The cursor is where `cursor_func` is offered its offset. A call of `text_display` offers the offsets of a line one after the
other, each once, exactly where no word meets a row that has no room for it and loses an offset there (`offersEach_iff`). In a
narrow window that wraps its lines there is always room (`offersEach_of_narrow`).
-/

namespace Hoe

namespace Layout

/-- Where the cursor can be: between two offsets. -/
def place (offset1 offset2 : Int) : List (Int × Int) := if 0 ≤ offset1 ∧ 0 ≤ offset2 then [(offset1, offset2)] else []

/-- The place of a character that is stored. -/
def FragmentChar.place (c : FragmentChar) : List (Int × Int) := Layout.place c.offset1 c.offset2

/-- The place of a glyph. -/
def Glyph.place (g : Glyph) : List (Int × Int) := Layout.place g.offset1 g.offset2

end Layout

namespace TextDisplay

open Layout (CharCall CursorCall Setting FragmentChar Glyph Row Word AllWords Break columns place displayBol displayChars displayEol
  flushes showLine showLine_rows showLine_calls offerGlyphs offerRows)

/-! ## Reading a line -/

/-- `eb_nextc` goes forward. -/
theorem lt_nextc (r : Reader) {offset : Int} (h : offset < r.total) : offset < (r.nextc offset).2 := by
  rw [r.nextc_code h]
  cases r.charset.code (r.byte offset) with
  | some ch => exact Int.lt_succ offset
  | none => exact Int.lt_add_of_pos_right offset (Int.natCast_pos.2 (utf8Decode_taken_pos _))

/-- The offsets of the characters of a line from an offset on, and behind them the newline or the end of the text. -/
def lineOffsets (r : Reader) : Nat → Int → List (Int × Int)
  | 0, _ => []
  | n + 1, offset =>
    if r.total ≤ offset then [(offset, offset + 1)]
    else (offset, (r.nextc offset).2) :: if (r.nextc offset).1 = newline then [] else lineOffsets r n (r.nextc offset).2

/-- The calls for the text of a line. -/
def lineChars (e : EditView) (r : Reader) (coloredChars : List Nat) : Nat → Nat → Int → List CharCall
  | 0, _, _ => []
  | n + 1, charIndex, offset =>
    if r.total ≤ offset ∨ (r.nextc offset).1 = newline then []
    else charCalls e offset (r.nextc offset).2 (r.nextc offset).1 (coloredChars.getD charIndex (r.nextc offset).1) ++
      lineChars e r coloredChars n (charIndex + 1) (r.nextc offset).2

/-- The offset where a line ends, the one behind it, and what `text_display` returns. -/
def lineEnd (r : Reader) : Nat → Int → Int × Int × Int
  | 0, offset => (offset, offset + 1, -1)
  | n + 1, offset =>
    if r.total ≤ offset then (offset, offset + 1, -1)
    else if (r.nextc offset).1 = newline then (offset, (r.nextc offset).2, (r.nextc offset).2)
    else lineEnd r n (r.nextc offset).2

/-! ## The places of a line -/

/-- The places of what is stored of characters. -/
def storedPlaces (cs : List CharCall) : List (Int × Int) := cs.flatMap fun c => c.stored.place

/-- The places that `cursor_func` was called for. -/
def places (calls : List CursorCall) : List (Int × Int) := calls.map fun c => (c.offset1, c.offset2)

theorem storedPlaces_append (a b : List CharCall) : storedPlaces (a ++ b) = storedPlaces a ++ storedPlaces b := List.flatMap_append

theorem place_pair {offset1 offset2 : Int} (h1 : 0 ≤ offset1) (h : offset1 < offset2) :
    place offset1 offset2 = [(offset1, offset2)] := if_pos ⟨h1, h1.trans h.le⟩

/-- Nothing is behind the first character of `display_printf`. -/
theorem storedPlaces_hidden (cs : List Nat) : storedPlaces (cs.map fun c => ⟨-1, -1, c, false⟩) = [] := by
  induction cs with
  | nil => rfl
  | cons c cs ih => exact ih

theorem storedPlaces_cons {offset1 offset2 : Int} (h1 : 0 ≤ offset1) (h : offset1 < offset2) (c : Nat) (cs : List CharCall) :
    storedPlaces (⟨offset1, offset2, c, false⟩ :: cs) = (offset1, offset2) :: storedPlaces cs := by
  have hstored : (⟨offset1, offset2, c, false⟩ : CharCall).stored = ⟨c % 2 ^ styleShift, offset1, offset2, false⟩ := if_neg h.ne
  rw [storedPlaces, List.flatMap_cons, hstored, FragmentChar.place, place_pair h1 h]
  rfl

theorem storedPlaces_printfChars {offset1 offset2 : Int} (h1 : 0 ≤ offset1) (h : offset1 < offset2) (c : Nat) (cs : List Nat) :
    storedPlaces (printfChars offset1 offset2 (c :: cs)) = [(offset1, offset2)] := by
  rw [printfChars, storedPlaces_cons h1 h, storedPlaces_hidden]

/-- A character has one place, however many glyphs it has. -/
theorem storedPlaces_charCalls (e : EditView) {offset1 offset2 : Int} (h1 : 0 ≤ offset1) (h : offset1 < offset2)
    (c colored : Nat) :
    storedPlaces (charCalls e offset1 offset2 c colored) = [(offset1, offset2)] := by
  rw [charCalls]
  split_ifs
  · exact storedPlaces_printfChars h1 h _ _
  · exact storedPlaces_printfChars h1 h _ _
  · exact storedPlaces_printfChars h1 h _ _
  · exact storedPlaces_printfChars h1 h _ _
  · exact storedPlaces_printfChars h1 h _ _
  · exact storedPlaces_cons h1 h _ _

/-- What stands in front of the text has no place. -/
theorem storedPlaces_bolChars (e : EditView) (lineNum : Nat) (offset : Int) : storedPlaces (bolChars e lineNum offset) = [] := by
  have hprintf : ∀ cs, storedPlaces (printfChars (-1) (-1) cs) = [] := by
    intro cs
    cases cs with
    | nil => rfl
    | cons c cs => exact storedPlaces_hidden (c :: cs)
  rw [bolChars, storedPlaces_append]
  refine List.append_eq_nil_iff.2 ⟨?_, ?_⟩
  · split_ifs
    · exact hprintf _
    · rfl
  · split_ifs
    · exact storedPlaces_hidden _
    · rfl

/-- The turns are enough for a line from an offset on. -/
structure Enough (r : Reader) (n : Nat) (offset : Int) : Prop where
  pos : 0 < n
  turns : r.total < offset + n

theorem Enough.next {r : Reader} {n : Nat} {offset : Int} (h : Enough r (n + 1) offset) (hend : ¬ r.total ≤ offset) :
    Enough r n (r.nextc offset).2 := by
  have hturns := h.turns
  have hnext := lt_nextc r (not_le.1 hend)
  exact ⟨by omega, by omega⟩

theorem enough_turns (r : Reader) (offset : Nat) : Enough r r.turns offset := by
  have htotal : r.total = r.text.length := rfl
  have hturns : r.turns = r.text.length + 1 := rfl
  exact ⟨by omega, by omega⟩

/-- The calls of a line have its places, but for the last one. -/
theorem storedPlaces_lineChars (e : EditView) (r : Reader) (coloredChars : List Nat) {n : Nat} (charIndex : Nat) {offset : Int}
    (ho : 0 ≤ offset) (hn : Enough r n offset) :
    storedPlaces (lineChars e r coloredChars n charIndex offset) ++ place (lineEnd r n offset).1 (lineEnd r n offset).2.1 =
      lineOffsets r n offset := by
  induction n generalizing charIndex offset with
  | zero => exact absurd hn.pos (Nat.lt_irrefl 0)
  | succ n ih =>
    rw [lineChars, lineEnd, lineOffsets]
    by_cases hend : r.total ≤ offset
    · rw [if_pos (Or.inl hend), if_pos hend, if_pos hend]
      exact place_pair ho (Int.lt_succ offset)
    · have hnext := lt_nextc r (not_le.1 hend)
      by_cases hline : (r.nextc offset).1 = newline
      · rw [if_pos (Or.inr hline), if_neg hend, if_pos hline, if_neg hend, if_pos hline]
        exact place_pair ho hnext
      · rw [if_neg (not_or.2 ⟨hend, hline⟩), if_neg hend, if_neg hline, if_neg hend, if_neg hline, storedPlaces_append,
          storedPlaces_charCalls e ho hnext, List.append_assoc, ih (charIndex + 1) (ho.trans hnext.le) (hn.next hend)]
        rfl

/-- The calls of a line are those of a text. -/
theorem hexMode_charCalls (e : EditView) (offset1 offset2 : Int) (c colored : Nat) :
    ∀ d ∈ charCalls e offset1 offset2 c colored, d.hexMode = false := by
  have hprintf (cs : List Nat) : ∀ d ∈ printfChars offset1 offset2 cs, d.hexMode = false := by
    cases cs with
    | nil => exact fun d hd => absurd hd List.not_mem_nil
    | cons c cs =>
      intro d hd
      rcases List.mem_cons.1 hd with rfl | hd
      · rfl
      · obtain ⟨c, -, rfl⟩ := List.mem_map.1 hd
        rfl
  rw [charCalls]
  split_ifs
  · exact hprintf _
  · exact hprintf _
  · exact hprintf _
  · exact hprintf _
  · exact hprintf _
  · exact fun d hd => List.mem_singleton.1 hd ▸ rfl

theorem hexMode_lineChars (e : EditView) (r : Reader) (coloredChars : List Nat) (n charIndex : Nat) (offset : Int) :
    ∀ d ∈ lineChars e r coloredChars n charIndex offset, d.hexMode = false := by
  induction n generalizing charIndex offset with
  | zero => exact fun d hd => absurd hd List.not_mem_nil
  | succ n ih =>
    rw [lineChars]
    split_ifs
    · exact fun d hd => absurd hd List.not_mem_nil
    · exact fun d hd => (List.mem_append.1 hd).elim (hexMode_charCalls e _ _ _ _ d) (ih _ _ d)

theorem hexMode_bolChars (e : EditView) (lineNum : Nat) (offset : Int) : ∀ d ∈ bolChars e lineNum offset, d.hexMode = false := by
  have hprintf (cs : List Nat) : ∀ d ∈ printfChars (-1) (-1) cs, d.hexMode = false := by
    cases cs with
    | nil => exact fun d hd => absurd hd List.not_mem_nil
    | cons c cs =>
      intro d hd
      rcases List.mem_cons.1 hd with rfl | hd
      · rfl
      · obtain ⟨c, -, rfl⟩ := List.mem_map.1 hd
        rfl
  rw [bolChars]
  intro d hd
  rcases List.mem_append.1 hd with hd | hd
  · split_ifs at hd
    · exact hprintf _ d hd
    · cases hd
  · split_ifs at hd
    · obtain ⟨c, -, rfl⟩ := List.mem_map.1 hd
      rfl
    · cases hd

/-- All calls of `display_char` that `text_display` makes. -/
def allChars (e : EditView) (r : Reader) (lineNum : Nat) (coloredChars : List Nat) (offset : Nat) : List CharCall :=
  bolChars e lineNum offset ++ lineChars e r coloredChars r.turns 0 offset

theorem hexMode_allChars (e : EditView) (r : Reader) (lineNum : Nat) (coloredChars : List Nat) (offset : Nat) :
    ∀ d ∈ allChars e r lineNum coloredChars offset, d.hexMode = false := fun d hd =>
  (List.mem_append.1 hd).elim (hexMode_bolChars e _ _ d) (hexMode_lineChars e r _ _ _ _ d)

/-! ## The calls of a line -/

/-- The loop displays the characters of the line, and its end. -/
theorem displayLine_eq (e : EditView) (r : Reader) (coloredChars : List Nat) {n : Nat} (charIndex : Nat) {offset : Int}
    (hn : Enough r n offset) (s : Layout.DisplayState) :
    displayLine e r coloredChars n charIndex offset s =
      (displayChars e.setting (lineChars e r coloredChars n charIndex offset) s).bind fun s =>
        (displayEol e.setting s (lineEnd r n offset).1 (lineEnd r n offset).2.1).map fun s => (s, (lineEnd r n offset).2.2) := by
  induction n generalizing charIndex offset s with
  | zero => exact absurd hn.pos (Nat.lt_irrefl 0)
  | succ n ih =>
    rw [displayLine, lineChars, lineEnd]
    by_cases hend : r.total ≤ offset
    · rw [if_pos hend, if_pos (Or.inl hend), if_pos hend]
      rfl
    · by_cases hline : (r.nextc offset).1 = newline
      · rw [if_neg hend, if_pos hline, if_pos (Or.inr hline), if_neg hend, if_pos hline]
        rfl
      · rw [if_neg hend, if_neg hline, if_neg (not_or.2 ⟨hend, hline⟩), if_neg hend, if_neg hline, Layout.displayChars_append,
          Option.bind_assoc]
        exact congrArg _ (funext fun s => ih (charIndex + 1) (hn.next hend) s)

theorem textDisplay_eq (e : EditView) (r : Reader) (lineNum : Nat) (coloredChars : List Nat) (s : Layout.DisplayState) (offset : Nat) :
    textDisplay e r lineNum coloredChars s offset =
      ((displayChars e.setting (allChars e r lineNum coloredChars offset) (displayBol e.setting s)).bind fun s =>
        displayEol e.setting s (lineEnd r r.turns offset).1 (lineEnd r r.turns offset).2.1).map fun s =>
          (s, (lineEnd r r.turns offset).2.2) := by
  rw [textDisplay, allChars, Layout.displayChars_append]
  cases displayChars e.setting (bolChars e lineNum offset) (displayBol e.setting s) with
  | none => rfl
  | some t => exact (displayLine_eq e r coloredChars 0 (enough_turns r offset) t).trans Option.map_bind.symm

/-- The characters of a text are displayed in its mode. -/
theorem showLine_text {e : Setting} {cs : List CharCall} (hcs : ∀ c ∈ cs, c.hexMode = false) (s : Layout.DisplayState)
    (offset1 offset2 : Int) :
    ((displayChars e cs (displayBol e s)).bind fun u => displayEol e u offset1 offset2).map Layout.DisplayState.asText =
      (showLine e cs s offset1 offset2).map Layout.DisplayState.asText := by
  cases cs with
  | nil =>
    have hnone (u : Layout.DisplayState) (hu : u.fragment = []) :
        displayEol e u offset1 offset2 = some (Layout.flushLine e u u.fragments offset1 offset2) := by
      rw [displayEol, Layout.flushFragment, if_pos hu]
      rfl
    rw [showLine, displayChars, Option.bind_some, Option.map_some, Option.bind_some, hnone _ rfl, hnone _ rfl]
    rfl
  | cons c cs =>
    rw [showLine]
    cases hu : displayChars e (c :: cs) (displayBol e s) with
    | none => rfl
    | some u =>
      have hmode := Layout.curHexMode_displayChars hcs (s := (displayBol e s).asText) (Layout.between_displayBol e s).asText rfl hu
      rw [Option.map_some, Option.bind_some, Option.bind_some, Layout.DisplayState.asText_eq hmode]

/-- `text_display` shows the line of its characters. -/
theorem textDisplay_showLine (e : EditView) (r : Reader) (lineNum : Nat) (coloredChars : List Nat) (s : Layout.DisplayState)
    (offset : Nat) :
    (textDisplay e r lineNum coloredChars s offset).map (fun p => (p.1.asText, p.2)) =
      (showLine e.setting (allChars e r lineNum coloredChars offset) s (lineEnd r r.turns offset).1
        (lineEnd r r.turns offset).2.1).map fun t => (t.asText, (lineEnd r r.turns offset).2.2) := by
  have hline := showLine_text (e := e.setting) (hexMode_allChars e r lineNum coloredChars offset) s (lineEnd r r.turns offset).1
    (lineEnd r r.turns offset).2.1
  have hpair := congrArg (Option.map fun t => (t, (lineEnd r r.turns offset).2.2)) hline
  rw [Option.map_map, Option.map_map] at hpair
  rw [textDisplay_eq, Option.map_map]
  exact hpair

/-! ## What a line offers -/

/-- The glyphs of a text are offered where they have places. -/
theorem places_offerGlyphs {e : Setting} (hmode : e.hexMode = some false) {gs : List Glyph} (hgs : ∀ g ∈ gs, g.hexMode = false)
    (n : Nat) (x : Int) : places (offerGlyphs e n gs x) = gs.flatMap (·.place) := by
  induction gs generalizing x with
  | nil => rfl
  | cons g gs ih =>
    have hg : e.hexMode = some g.hexMode := by rw [hmode, hgs g List.mem_cons_self]
    rw [offerGlyphs, places, List.map_append, List.flatMap_cons]
    refine congrArg₂ (· ++ ·) ?_ (ih (fun g' hg' => hgs g' (List.mem_cons_of_mem g hg')) (x + g.width))
    rw [Glyph.place, place]
    by_cases hplace : 0 ≤ g.offset1 ∧ 0 ≤ g.offset2
    · rw [if_pos ⟨Or.inr hg, hplace⟩, if_pos hplace]
      rfl
    · rw [if_neg fun h => hplace h.2, if_neg hplace]
      rfl

theorem places_offerRows {e : Setting} (hmode : e.hexMode = some false) {rows : List (List Glyph)}
    (hgs : ∀ g ∈ rows.flatten, g.hexMode = false) (n : Nat) : places (offerRows e n rows) = rows.flatten.flatMap (·.place) := by
  induction rows generalizing n with
  | nil => rfl
  | cons row rows ih =>
    rw [List.flatten_cons] at hgs
    rw [offerRows, places, List.map_append, List.flatten_cons, List.flatMap_append]
    exact congrArg₂ (· ++ ·) (places_offerGlyphs hmode (fun g hg => hgs g (List.mem_append_left _ hg)) n e.xDisp)
      (ih (fun g hg => hgs g (List.mem_append_right _ hg)) (n + 1))

/-- The places of a fragment, unless it is dropped. -/
def flushedPlaces (f : Layout.DisplayState) : List (Int × Int) := if f.Full then [] else f.fragment.flatMap FragmentChar.place

theorem places_added (e : Setting) (f : Layout.DisplayState) : (f.added e).flatMap Glyph.place = flushedPlaces f := by
  rw [Layout.DisplayState.added, flushedPlaces]
  split_ifs
  · rfl
  · rw [Layout.DisplayState.made, List.flatMap_map]
    refine congrArg f.fragment.flatMap (funext fun c => ?_)
    rw [FragmentChar.glyph]
    split_ifs <;> rfl

/-- A line of text that fits is offered as its fragments are. -/
theorem showLine_places {e : Setting} (he : e.Narrow) (hmode : e.hexMode = some false) {cs : List CharCall}
    (hcs : ∀ c ∈ cs, c.hexMode = false) (hall : AllWords e (Row.Fits e) cs) (s : Layout.DisplayState) (offset1 offset2 : Int) :
    ∃ t, showLine e cs s offset1 offset2 = some t ∧
      places t.calls = places s.calls ++ (flushes e cs (displayBol e s)).flatMap flushedPlaces ++ place offset1 offset2 := by
  obtain ⟨t, ht, hshown, hstays⟩ := showLine_rows he hcs hall s offset1 offset2
  obtain ⟨new, last, hrows, -, hcalls⟩ := showLine_calls ht
  obtain ⟨u, v, hu, hv, hend⟩ := Layout.showLine_eq_some.1 ht
  obtain ⟨hok, hglyphs⟩ := Layout.showLine_glyphs hstays hu hv
  rw [List.map_id, List.map_id, List.map_id, Layout.DisplayState.glyphs] at hglyphs
  have hnew : (new ++ [last]).flatten = (flushes e cs (displayBol e s)).flatMap (·.added e) := by
    have hflat := congrArg List.flatten hrows
    rw [← hend, Layout.flushLine_rows hok, List.flatten_append, List.flatten_append, List.flatten_singleton, hglyphs] at hflat
    exact (List.append_cancel_left hflat).symm
  have htext : ∀ g ∈ (new ++ [last]).flatten, g.hexMode = false := by
    rw [← List.append_cancel_left (hshown.symm.trans hrows)]
    exact Layout.rows_hexMode e hcs
  refine ⟨t, ht, ?_⟩
  rw [hcalls, places, List.map_append, List.map_append]
  refine congrArg₂ (· ++ ·) (congrArg (places s.calls ++ ·) ?_) ?_
  · refine (places_offerRows hmode htext s.lineNum).trans ?_
    rw [hnew, List.flatMap_assoc]
    exact congrArg (fun g => (flushes e cs (displayBol e s)).flatMap g) (funext fun f => places_added e f)
  · rw [place]
    split_ifs <;> rfl

/-! ## The result -/

/-- A call of `text_display` offers the offsets of the line in their order, each once. -/
def OffersEach (e : EditView) (r : Reader) (lineNum : Nat) (coloredChars : List Nat) (s : Layout.DisplayState) (offset : Nat) : Prop :=
  ∃ t next, textDisplay e r lineNum coloredChars s offset = some (t, next) ∧
    places t.calls = places s.calls ++ lineOffsets r r.turns offset

/-- The arrays have room for a word, or it has no place that could be lost. -/
def Takes (r : Row) (w : Word) : Prop :=
  if r.Full then w.chars.flatMap FragmentChar.place = [] else r.glyphs.length + w.chars.length ≤ maxScreenWidth

instance (r : Row) (w : Word) : Decidable (Takes r w) :=
  inferInstanceAs (Decidable (if r.Full then w.chars.flatMap FragmentChar.place = [] else _))

/-- The same of the fragment that is flushed. -/
def Loses (f : Layout.DisplayState) : Prop := f.Full ∧ f.fragment.flatMap FragmentChar.place ≠ []

theorem narrow_setting (e : EditView) : e.setting.Narrow := fun _ => show maxWordSize * 1 ≤ 32767 by decide

/-- In a window there is room for a column at least, so that only the arrays are what may be too small. -/
theorem tests_takes (e : EditView) :
    Layout.Tests Glyph.bare e.setting (fun f => Layout.FlushFits e.setting f ∧ ¬Loses f) Takes := by
  have hwidth : e.setting.xDisp ≤ e.setting.width ∧ 0 ≤ e.setting.width := by
    have hpos := e.width_pos
    have hx := e.xDisp_le
    exact ⟨show e.xDisp ≤ (e.width : Int) - 1 by omega, show 0 ≤ (e.width : Int) - 1 by omega⟩
  refine ⟨fun f hf => ⟨Or.inl hf, fun hloses => hloses.2 (by rw [hf]; rfl)⟩, fun f r hf hr hne => ?_, fun _ _ hf => hf.1,
    fun _ _ k _ => Layout.stays_bare k⟩
  have hroom : f.lineIndex + f.fragment.length = r.glyphs.length + f.current.chars.length := by
    rw [hr.length]
    rfl
  rw [Layout.FlushFits, or_iff_right hne, Loses, Takes, hr.full_iff hf, hroom]
  by_cases hfull : r.Full
  · rw [if_pos hfull, and_iff_right (Or.inl hfull), not_and, not_not, forall_prop_of_true hfull]
    rfl
  · rw [if_neg hfull, or_iff_right hfull, and_iff_left fun h => hfull h.1]
    exact and_iff_left fun hw => Or.inr ⟨hwidth.2, hf.fits hw hwidth.1⟩

/-- Where nothing is lost of the places, no fragment that has one is dropped. -/
theorem not_loses_iff (fs : List Layout.DisplayState) :
    fs.flatMap flushedPlaces = (fs.flatMap (·.fragment)).flatMap FragmentChar.place ↔ ∀ f ∈ fs, ¬Loses f := by
  have hkept (f : Layout.DisplayState) : ¬Loses f ↔ flushedPlaces f = f.fragment.flatMap FragmentChar.place := by
    rw [Loses, not_and, not_not, flushedPlaces]
    split_ifs with hfull
    · exact ⟨fun h => (h hfull).symm, fun h _ => h.symm⟩
    · exact iff_of_true (fun h => absurd h hfull) rfl
  have hle (f : Layout.DisplayState) : (flushedPlaces f).length ≤ (f.fragment.flatMap FragmentChar.place).length := by
    rw [flushedPlaces]
    split_ifs
    · exact Nat.zero_le _
    · exact Nat.le_refl _
  have hless (fs : List Layout.DisplayState) :
      (fs.flatMap flushedPlaces).length ≤ ((fs.flatMap (·.fragment)).flatMap FragmentChar.place).length := by
    induction fs with
    | nil => exact Nat.le_refl 0
    | cons f fs ih =>
      rw [List.flatMap_cons, List.flatMap_cons, List.flatMap_append, List.length_append, List.length_append]
      exact Nat.add_le_add (hle f) ih
  induction fs with
  | nil => exact iff_of_true rfl fun f hf => absurd hf List.not_mem_nil
  | cons f fs ih =>
    rw [List.flatMap_cons, List.flatMap_cons, List.flatMap_append, List.forall_mem_cons, hkept]
    constructor
    · intro h
      have hlength := congrArg List.length h
      rw [List.length_append, List.length_append] at hlength
      have hf := hle f
      have hfs := hless fs
      exact (List.append_inj h (by omega)).imp_right ih.1
    · rintro ⟨hf, hfs⟩
      rw [hf, ih.2 hfs]

/-- What the call offers of a line whose fragments fit. -/
theorem showLine_offers (e : EditView) {cs : List CharCall} (hcs : ∀ c ∈ cs, c.hexMode = false) (s : Layout.DisplayState)
    (offset1 offset2 : Int) (hfits : ∀ f ∈ flushes e.setting cs (displayBol e.setting s), Layout.FlushFits e.setting f) :
    ∃ t, showLine e.setting cs s offset1 offset2 = some t ∧
      (places t.calls = places s.calls ++ (storedPlaces cs ++ place offset1 offset2) ↔
        ∀ f ∈ flushes e.setting cs (displayBol e.setting s), ¬Loses f) := by
  have hwords := ((Layout.tests_fits e.setting Layout.stays_bare).line_iff Layout.showsWidth_bare (narrow_setting e) cs s).1 hfits
  obtain ⟨t, ht, hcalls⟩ := showLine_places (narrow_setting e) rfl hcs hwords s offset1 offset2
  have hfragments := Layout.fragments_of_flushes (narrow_setting e) fun f hf => hfits f (List.mem_append_left _ hf)
  refine ⟨t, ht, ?_⟩
  rw [hcalls, ← not_loses_iff, hfragments, List.append_assoc, storedPlaces, List.flatMap_map]
  exact ⟨fun h => List.append_cancel_right (List.append_cancel_left h), fun h => by rw [h]⟩

/-- The places of the calls, and of the end of the line, are its offsets. -/
theorem storedPlaces_allChars (e : EditView) (r : Reader) (lineNum : Nat) (coloredChars : List Nat) (offset : Nat) :
    storedPlaces (allChars e r lineNum coloredChars offset) ++ place (lineEnd r r.turns offset).1 (lineEnd r r.turns offset).2.1 =
      lineOffsets r r.turns offset := by
  rw [allChars, storedPlaces_append, storedPlaces_bolChars, List.nil_append,
    storedPlaces_lineChars e r coloredChars 0 (Int.natCast_nonneg offset) (enough_turns r offset)]

theorem OffersEach.takes {e : EditView} {r : Reader} {lineNum : Nat} {coloredChars : List Nat} {s : Layout.DisplayState}
    {offset : Nat} (h : OffersEach e r lineNum coloredChars s offset) :
    AllWords e.setting Takes (allChars e r lineNum coloredChars offset) := by
  obtain ⟨t, next, ht, hcalls⟩ := h
  have hshow := textDisplay_showLine e r lineNum coloredChars s offset
  rw [ht, Option.map_some] at hshow
  obtain ⟨t', ht', heq⟩ := Option.map_eq_some_iff.1 hshow.symm
  have hfits := Layout.showLine_fits (narrow_setting e) ht'
  obtain ⟨t'', ht'', hiff⟩ := showLine_offers e (hexMode_allChars e r lineNum coloredChars offset) s _ _ hfits
  obtain rfl := Option.some.inj (ht'.symm.trans ht'')
  have hsame : t'.calls = t.calls := congrArg (fun p => p.1.calls) heq
  rw [storedPlaces_allChars, hsame] at hiff
  exact ((tests_takes e).line_iff Layout.showsWidth_bare (narrow_setting e) _ s).1 fun f hf => ⟨hfits f hf, hiff.1 hcalls f hf⟩

theorem offersEach_of_takes {e : EditView} {r : Reader} {lineNum : Nat} {coloredChars : List Nat} {offset : Nat}
    (h : AllWords e.setting Takes (allChars e r lineNum coloredChars offset)) (s : Layout.DisplayState) :
    OffersEach e r lineNum coloredChars s offset := by
  have hflushes := ((tests_takes e).line_iff Layout.showsWidth_bare (narrow_setting e) _ s).2 h
  obtain ⟨t', ht', hiff⟩ := showLine_offers e (hexMode_allChars e r lineNum coloredChars offset) s (lineEnd r r.turns offset).1
    (lineEnd r r.turns offset).2.1 fun f hf => (hflushes f hf).1
  have hshow := textDisplay_showLine e r lineNum coloredChars s offset
  rw [ht', Option.map_some] at hshow
  obtain ⟨p, hp, heq⟩ := Option.map_eq_some_iff.1 hshow
  have hsame : p.1.calls = t'.calls := congrArg (fun p => p.1.calls) heq
  rw [storedPlaces_allChars, ← hsame] at hiff
  exact ⟨p.1, p.2, hp, hiff.2 fun f hf => (hflushes f hf).2⟩

/-- Each offset of the line is offered once, in order, exactly where the arrays take each word of it. -/
theorem offersEach_iff (e : EditView) (r : Reader) (lineNum : Nat) (coloredChars : List Nat) (s : Layout.DisplayState) (offset : Nat) :
    OffersEach e r lineNum coloredChars s offset ↔ AllWords e.setting Takes (allChars e r lineNum coloredChars offset) :=
  ⟨OffersEach.takes, fun h => offersEach_of_takes h s⟩

/-! ## The cursor is found -/

/-- They leave no gap up to the end of the line. -/
theorem lineOffsets_covers (r : Reader) {n : Nat} {offset : Int} (hn : Enough r n offset) {o : Int} (ho : offset ≤ o)
    (hend : o < (lineEnd r n offset).2.1) : ∃ p ∈ lineOffsets r n offset, p.1 ≤ o ∧ o < p.2 := by
  induction n generalizing offset with
  | zero => exact absurd hn.pos (Nat.lt_irrefl 0)
  | succ n ih =>
    rw [lineEnd] at hend
    rw [lineOffsets]
    split_ifs at hend ⊢ with htotal hline
    · exact ⟨_, List.mem_singleton_self _, ho, hend⟩
    · exact ⟨_, List.mem_singleton_self _, ho, hend⟩
    · by_cases hnext : o < (r.nextc offset).2
      · exact ⟨_, List.mem_cons_self, ho, hnext⟩
      · obtain ⟨p, hp, hcovers⟩ := ih (hn.next htotal) (not_lt.1 hnext) hend
        exact ⟨p, List.mem_cons_of_mem _ hp, hcovers⟩

/-- The cursor is found wherever it is on the line. -/
theorem OffersEach.found {e : EditView} {r : Reader} {lineNum : Nat} {coloredChars : List Nat} {s : Layout.DisplayState} {offset : Nat}
    (h : OffersEach e r lineNum coloredChars s offset) {o : Int} (ho : offset ≤ o) (hend : o < (lineEnd r r.turns offset).2.1) :
    ∃ t next, textDisplay e r lineNum coloredChars s offset = some (t, next) ∧ ∃ c ∈ t.calls, c.offset1 ≤ o ∧ o < c.offset2 := by
  obtain ⟨t, next, ht, hcalls⟩ := h
  obtain ⟨p, hp, hcovers⟩ := lineOffsets_covers r (enough_turns r offset) ho hend
  have hoffered : p ∈ places t.calls := hcalls ▸ List.mem_append_right _ hp
  obtain ⟨c, hc, rfl⟩ := List.mem_map.1 hoffered
  exact ⟨t, next, ht, c, hc, hcovers⟩

/-! ## Narrow windows -/

/-- The glyphs that wait fit into the window, and take a column at least. -/
structure Inside (e : Setting) (r : Row) : Prop where
  column : r.x = columns r.glyphs
  widths : ∀ g ∈ r.glyphs, 1 ≤ g.width
  fits : r.x ≤ e.width

/-- Once the breaks of `WRAP_LINE` are made, what is left fits into the window. -/
theorem lineBreaks_last {width : Int} (hwidth : 0 ≤ width) {n : Nat} (front gs : List Glyph) {x : Int} (hx : x ≤ width)
    (hn : gs.length + (if x = 0 then 0 else 1) ≤ n) :
    (Layout.lineBreaks width n front x gs).getLast?.elim (x + columns gs ≤ width) fun b => columns b.rest ≤ width := by
  induction n generalizing front x gs with
  | zero =>
    rw [List.length_eq_zero_iff.1 (show gs.length = 0 by omega)]
    exact (Int.add_zero x).trans_le hx
  | succ n ih =>
    rcases le_or_gt (x + columns gs) width with hfits | hlong
    · rw [Layout.lineBreaks_fits (n + 1) front hfits]
      exact hfits
    · have hne : gs ≠ [] := by
        rintro rfl
        exact absurd hlong (not_lt.2 ((Int.add_zero x).trans_le hx))
      have htaken := Layout.taken_le width x hne
      have hpos := List.length_pos_iff.2 hne
      have hnext := ih [] (gs.drop (Layout.taken width x gs)) hwidth (by
        rw [if_pos rfl, List.length_drop]
        by_cases hzero : x = 0
        · rw [if_pos hzero] at hn
          have htook : 1 ≤ Layout.taken width x gs := by
            rw [Layout.taken]
            split_ifs with hnone
            · exact Nat.le_refl 1
            · exact Nat.pos_of_ne_zero fun h0 => hnone ⟨h0, hzero⟩
          omega
        · rw [if_neg hzero] at hn
          omega)
      rw [Layout.lineBreaks_succ width n front hlong]
      cases hbreaks : (Layout.lineBreaks width n [] 0 (gs.drop (Layout.taken width x gs))).getLast? with
      | none =>
        rw [hbreaks, Option.elim_none, Int.zero_add] at hnext
        rw [List.getLast?_eq_none_iff.1 hbreaks, List.getLast?_singleton, Option.elim_some, Layout.rest_eq front gs htaken]
        exact hnext
      | some b =>
        rw [hbreaks, Option.elim_some] at hnext
        rw [List.getLast?_cons, hbreaks]
        exact hnext

/-- The window wraps its lines, is not moved to the side, and a row is no longer than a fragment can be. A tab fits a short. -/
structure EditView.Narrow (e : EditView) : Prop where
  wrap : e.wrap = .line
  xDisp : e.xDisp = 0
  width : e.width ≤ maxWordSize + 1
  tabSize : e.tabSize ≤ 32767

theorem EditView.Narrow.glyphs {e : EditView} (he : e.Narrow) {x : Int} (hx : 0 ≤ x) (w : Word) :
    ∀ g ∈ w.glyphs e.setting x, 1 ≤ g.width := by
  intro g hg
  obtain ⟨c, -, rfl⟩ := List.mem_map.1 hg
  by_cases htab : c.ch = tab
  · have hlow := Layout.tabColumns_pos e.setting x
    have hmod : 0 ≤ (x - e.setting.xDisp).tmod e.setting.tabWidth :=
      Int.tmod_nonneg _ (by rw [show e.setting.xDisp = 0 from he.xDisp, Int.sub_zero]; exact hx)
    have hhigh : e.setting.tabWidth ≤ 32767 := he.tabSize
    have hcolumns : Layout.tabColumns e.setting x = e.setting.tabWidth - (x - e.setting.xDisp).tmod e.setting.tabWidth := rfl
    rw [FragmentChar.glyph_of_tab e.setting x htab]
    exact hlow.trans_eq (Layout.short_eq (by omega) (by omega)).symm
  · rw [FragmentChar.glyph_of_ne e.setting x htab]
    have hone : Layout.short (e.setting.glyphWidth c.ch) = 1 := Layout.short_eq (w := 1) (by decide) (by decide)
    dsimp only
    rw [hone]

theorem EditView.Narrow.inside {e : EditView} (he : e.Narrow) {r : Row} (hr : Inside e.setting r) {w : Word}
    (hw : w.chars.length ≤ maxWordSize) : Takes r w ∧ Inside e.setting (r.add e.setting w) := by
  have hwidth : e.setting.width = (e.width : Int) - 1 := rfl
  have hpos := e.width_pos
  have hnarrow := he.width
  have hcount := Layout.length_le_columns hr.widths
  have hfits := hr.fits
  rw [← hr.column] at hcount
  have hx : 0 ≤ r.x := by omega
  have hsizes : maxScreenWidth = 256 ∧ maxWordSize = 128 := ⟨rfl, rfl⟩
  have hfull : ¬r.Full := by
    rw [Row.Full]
    omega
  have hall : ∀ g ∈ r.glyphs ++ w.glyphs e.setting r.x, 1 ≤ g.width := fun g hg =>
    (List.mem_append.1 hg).elim (hr.widths g) (he.glyphs hx w g)
  refine ⟨by rw [Takes, if_neg hfull]; omega, ?_⟩
  have hlast := lineBreaks_last (show 0 ≤ e.setting.width by omega) (n := (w.glyphs e.setting r.x).length + 1)
    r.glyphs (w.glyphs e.setting r.x) hr.fits (by split_ifs <;> omega)
  have hbreaks : r.breaks e.setting w =
      Layout.lineBreaks e.setting.width ((w.glyphs e.setting r.x).length + 1) r.glyphs r.x (w.glyphs e.setting r.x) := by
    rw [Row.breaks, show e.setting.wrap = .line from he.wrap]
  have hglyphs := r.glyphs_add e.setting w
  rw [← hbreaks] at hlast
  rw [Row.add, if_neg hfull] at hglyphs ⊢
  cases hbreak : (r.breaks e.setting w).getLast? with
  | none =>
    rw [hbreak, Option.elim_none] at hlast
    rw [hbreak] at hglyphs
    exact ⟨by rw [hr.column, Layout.columns_append], fun g hg => hall g (hglyphs g hg), hlast⟩
  | some b =>
    rw [hbreak, Option.elim_some] at hlast
    rw [hbreak] at hglyphs
    exact ⟨rfl, fun g hg => hall g (hglyphs g hg), hlast⟩

/-- A window that wraps its lines, that is not moved to the side, and where a row is no longer than a fragment can be, offers each
offset of each line. -/
theorem takes_of_narrow {e : EditView} (he : e.Narrow) (cs : List CharCall) : AllWords e.setting Takes cs := by
  have hstep (ws : List Word) {r : Row} (hr : Inside e.setting r) (hws : ∀ w ∈ ws, w.chars.length ≤ maxWordSize) :
      r.All e.setting Takes ws := by
    induction ws generalizing r with
    | nil => trivial
    | cons w ws ih =>
      obtain ⟨htakes, hinside⟩ := he.inside hr (hws w List.mem_cons_self)
      exact ⟨htakes, ih hinside fun w' hw' => hws w' (List.mem_cons_of_mem w hw')⟩
  refine hstep _ ⟨he.xDisp, fun g hg => absurd hg List.not_mem_nil, ?_⟩ (Layout.wordsFrom_length e.setting cs (Nat.zero_le _))
  have hpos := e.width_pos
  exact show e.xDisp ≤ (e.width : Int) - 1 by rw [he.xDisp]; omega

theorem offersEach_of_narrow {e : EditView} (he : e.Narrow) (r : Reader) (lineNum : Nat) (coloredChars : List Nat)
    (s : Layout.DisplayState) (offset : Nat) : OffersEach e r lineNum coloredChars s offset :=
  offersEach_of_takes (takes_of_narrow he _) s

/-- A window of 80 columns that truncates its lines. -/
def truncating : EditView where
  wrap := .truncate
  width := 80
  width_pos := by decide
  width_le := by decide
  xDisp := 0
  xDisp_le := by decide
  tabSize := 8
  tabSize_pos := by decide
  lineNumbers := false
  prompt := []
  showTabs := false
  utf8Screen := true
  showSelection := false
  mark := 0
  offset := 0

/-- A line of 257 letters. -/
def longLine : Reader := ⟨List.replicate 257 97, .utf8, []⟩

/-- The last letter does not get into the arrays, which are full. -/
theorem not_offersEach : ¬ ∀ (e : EditView) (r : Reader) (lineNum : Nat) (coloredChars : List Nat)
    (s : Layout.DisplayState) (offset : Nat), OffersEach e r lineNum coloredChars s offset := by
  intro h
  have hlost : ¬AllWords truncating.setting Takes (allChars truncating longLine 0 [] 0) := by decide +kernel
  exact mt OffersEach.takes hlost (h truncating longLine 0 [] (displayInit 0 []) 0)

end TextDisplay

end Hoe
