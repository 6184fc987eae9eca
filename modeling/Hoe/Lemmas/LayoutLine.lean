import Hoe.Lemmas.Layout

/-!
# The layout of the characters of a line

What holds wherever a line calls `flush_fragment`, and what the glyphs of the line are at any moment: those that its fragments made,
one fragment after the other.
-/

namespace Hoe

namespace Layout

open TextDisplay (WrapType maxScreenWidth maxWordSize styleShift styleSel tab space)

/-! ## Characters -/

/-- The states in which a call of `display_char` calls `flush_fragment`. -/
def charFlushes (e : Setting) (s : DisplayState) (c : CharCall) : List DisplayState :=
  (if breaksBefore e s c.offset1 c.ch then [s] else []) ++
    if c.ch % 2 ^ styleShift = tab then
      ((if breaksBefore e s c.offset1 c.ch then flushFragment e s else some s).map fun s =>
        storeChar e s c.offset1 c.offset2 c.ch).toList
    else []

/-- The states in which characters call `flush_fragment`. -/
def charsFlushes (e : Setting) : List CharCall → DisplayState → List DisplayState
  | [], _ => []
  | c :: cs, s =>
    charFlushes e (c.at s) c ++ (displayChar e (c.at s) c.offset1 c.offset2 c.ch).elim [] (charsFlushes e cs)

/-- The state where text is displayed. -/
def DisplayState.asText (s : DisplayState) : DisplayState := { s with curHexMode := false }

/-- The states in which a line calls `flush_fragment`: in its characters, and at last in `display_eol`. -/
def flushes (e : Setting) (cs : List CharCall) (s : DisplayState) : List DisplayState :=
  charsFlushes e cs s ++ ((displayChars e cs s).map DisplayState.asText).toList

/-- Between two characters there is no tab in the fragment. -/
structure DisplayState.Between (e : Setting) (s : DisplayState) : Prop extends s.Ok e where
  plain : ∀ c ∈ s.fragment, c.ch ≠ tab

/-- The hex mode of a call changes nothing in the arrays. -/
theorem DisplayState.Between.at {e : Setting} {s : DisplayState} (h : s.Between e) (c : CharCall) : (c.at s).Between e :=
  ⟨⟨h.tiled, h.word, h.lineIndex, h.long, h.fits, h.fragment, h.tabAlone⟩, h.plain⟩

theorem DisplayState.Between.asText {e : Setting} {s : DisplayState} (h : s.Between e) : s.asText.Between e :=
  h.at ⟨0, 0, 0, false⟩

/-- A line begins between two calls. -/
theorem between_displayBol (e : Setting) (s : DisplayState) : (displayBol e s).Between e :=
  ⟨⟨rfl, fun _ => Nat.le_refl 0, Nat.zero_le _, fun _ hf => absurd hf List.not_mem_nil, fun _ hx => hx, Nat.zero_le _,
    fun ⟨_, hc, _⟩ => absurd hc List.not_mem_nil⟩, fun _ hc => absurd hc List.not_mem_nil⟩

theorem stored_ch (s : DisplayState) (offset1 offset2 : Int) (ch : Nat) : (stored s offset1 offset2 ch).ch = ch % 2 ^ styleShift := by
  rw [stored]
  split_ifs <;> rfl

/-- The fragment is flushed where it would not take the character. -/
theorem DisplayState.Between.broken {e : Setting} {s t : DisplayState} (h : s.Between e) {c : CharCall}
    (ht : (if breaksBefore e s c.offset1 c.ch then flushFragment e s else some s) = some t) :
    t.Between e ∧ t.fragment.length < maxWordSize ∧ (c.ch % 2 ^ styleShift = tab → t.fragment = []) := by
  split_ifs at ht with hbreak
  · obtain ⟨hok, hempty, -⟩ := flushFragment_bare h.toOk ht
    refine ⟨⟨hok, ?_⟩, ?_, fun _ => hempty⟩
    · rw [hempty]
      exact fun _ hc => absurd hc List.not_mem_nil
    · rw [hempty]
      exact Nat.succ_pos _
  · rw [← Option.some.inj ht]
    rw [breaksBefore, Bool.or_eq_true, Bool.or_eq_true, not_or, not_or, decide_eq_true_iff, not_le, beq_iff_eq] at hbreak
    exact ⟨h, hbreak.1.1, fun htab => absurd htab hbreak.1.2⟩

/-- The character is stored in a fragment that takes it. -/
theorem DisplayState.Between.storeChar {e : Setting} {s : DisplayState} (h : s.Between e) {c : CharCall}
    (hlength : s.fragment.length < maxWordSize) (htab : c.ch % 2 ^ styleShift = tab → s.fragment = []) :
    (storeChar e s c.offset1 c.offset2 c.ch).Ok e := by
  refine ⟨h.tiled, h.word, h.lineIndex, h.long, h.fits, ?_, ?_⟩
  · exact (List.length_append ..).le.trans hlength
  · rintro ⟨d, hd, hdtab⟩
    rcases List.mem_append.1 hd with hd | hd
    · exact absurd hdtab (h.plain d hd)
    · rw [List.mem_singleton.1 hd, stored_ch] at hdtab
      rw [Layout.storeChar, htab hdtab]
      rfl

/-- Behind a call the state is again between two calls. -/
theorem DisplayState.Between.displayChar {e : Setting} {s t : DisplayState} (h : s.Between e) {c : CharCall}
    (ht : displayChar e s c.offset1 c.offset2 c.ch = some t) : t.Between e := by
  rw [Layout.displayChar] at ht
  obtain ⟨u, hu, ht⟩ := Option.bind_eq_some_iff.1 ht
  obtain ⟨hbetween, hlength, htab⟩ := h.broken hu
  have hok := hbetween.storeChar hlength htab
  split_ifs at ht with hch
  · obtain ⟨hok, hempty, -⟩ := flushFragment_bare hok ht
    refine ⟨hok, ?_⟩
    rw [hempty]
    exact fun _ hc => absurd hc List.not_mem_nil
  · rw [← Option.some.inj ht]
    refine ⟨hok, fun d hd => ?_⟩
    rcases List.mem_append.1 hd with hd | hd
    · exact hbetween.plain d hd
    · rw [List.mem_singleton.1 hd, stored_ch]
      exact hch

/-- Each flush in a call begins in a sound state. -/
theorem DisplayState.Between.charFlushes {e : Setting} {s : DisplayState} (h : s.Between e) (c : CharCall) :
    ∀ f ∈ charFlushes e s c, f.Ok e := by
  intro f hf
  rcases List.mem_append.1 hf with hf | hf
  · split_ifs at hf
    · exact List.mem_singleton.1 hf ▸ h.toOk
    · exact absurd hf List.not_mem_nil
  · by_cases htab : c.ch % 2 ^ styleShift = tab
    · rw [if_pos htab] at hf
      obtain ⟨u, hu, rfl⟩ := Option.map_eq_some_iff.1 (Option.mem_toList.1 hf)
      obtain ⟨hbetween, hlength, hempty⟩ := h.broken hu
      exact hbetween.storeChar hlength hempty
    · rw [if_neg htab] at hf
      exact absurd hf List.not_mem_nil

/-- The same behind any number of calls. -/
theorem DisplayState.Between.displayChars {e : Setting} (cs : List CharCall) {s t : DisplayState} (h : s.Between e)
    (ht : displayChars e cs s = some t) : t.Between e := by
  induction cs generalizing s with
  | nil => exact Option.some.inj ht ▸ h
  | cons c cs ih =>
    obtain ⟨u, hu, ht⟩ := Option.bind_eq_some_iff.1 ht
    exact ih ((h.at c).displayChar hu) ht

/-- Wherever `flush_fragment` is called, the fragments fill the arrays from the front. -/
theorem DisplayState.Between.charsFlushes {e : Setting} (cs : List CharCall) {s : DisplayState} (h : s.Between e) :
    ∀ f ∈ charsFlushes e cs s, f.Ok e := by
  induction cs generalizing s with
  | nil => exact fun f hf => absurd hf List.not_mem_nil
  | cons c cs ih =>
    intro f hf
    rcases List.mem_append.1 hf with hf | hf
    · exact (h.at c).charFlushes c f hf
    · cases ht : Layout.displayChar e (c.at s) c.offset1 c.offset2 c.ch with
      | none =>
        rw [ht] at hf
        exact absurd hf List.not_mem_nil
      | some t =>
        rw [ht] at hf
        exact ih ((h.at c).displayChar ht) f hf

/-- All flushes of a line begin in a sound state. -/
theorem DisplayState.Between.flushes {e : Setting} (cs : List CharCall) {s : DisplayState} (h : s.Between e) :
    ∀ f ∈ flushes e cs s, f.Ok e := by
  intro f hf
  rcases List.mem_append.1 hf with hf | hf
  · exact h.charsFlushes cs f hf
  · obtain ⟨t, ht, rfl⟩ := Option.map_eq_some_iff.1 (Option.mem_toList.1 hf)
    exact (h.displayChars cs ht).asText.toOk

/-! ## What is offered -/

/-- What `cursor_func` is called with for a glyph, in the hex mode that is wanted, between two offsets. -/
def offer (e : Setting) (g : Glyph) : List (Int × Int × Bool) :=
  if (e.hexMode = none ∨ e.hexMode = some g.hexMode) ∧ 0 ≤ g.offset1 ∧ 0 ≤ g.offset2 then [(g.offset1, g.offset2, g.hexMode)] else []

/-- What `cursor_func` was called with. -/
def offered (calls : List CursorCall) : List (Int × Int × Bool) := calls.map fun c => (c.offset1, c.offset2, c.hexMode)

/-- The glyphs are offered one by one. -/
theorem offered_offerGlyphs (e : Setting) (lineNum : Nat) (gs : List Glyph) (x : Int) :
    offered (offerGlyphs e lineNum gs x) = gs.flatMap (offer e) := by
  induction gs generalizing x with
  | nil => rfl
  | cons g gs ih =>
    rw [offerGlyphs, offered, List.map_append, List.flatMap_cons]
    refine congrArg₂ (· ++ ·) ?_ (ih (x + g.width))
    rw [offer]
    split_ifs <;> rfl

/-- The calls for rows that are numbered from `n` on. -/
def offerRows (e : Setting) : Nat → List (List Glyph) → List CursorCall
  | _, [] => []
  | n, row :: rows => offerGlyphs e n row e.xDisp ++ offerRows e (n + 1) rows

/-- Rows behind others are offered on the lines behind theirs. -/
theorem offerRows_append (e : Setting) (n : Nat) (a b : List (List Glyph)) :
    offerRows e n (a ++ b) = offerRows e n a ++ offerRows e (n + a.length) b := by
  induction a generalizing n with
  | nil => rfl
  | cons row a ih => rw [List.cons_append, offerRows, offerRows, ih, List.append_assoc, List.length_cons, Nat.add_right_comm, Nat.add_assoc]

/-- The glyphs of the rows are offered in their order. -/
theorem offered_offerRows (e : Setting) (n : Nat) (rows : List (List Glyph)) :
    offered (offerRows e n rows) = rows.flatten.flatMap (offer e) := by
  induction rows generalizing n with
  | nil => rfl
  | cons row rows ih =>
    rw [offerRows, offered, List.map_append, List.flatten_cons, List.flatMap_append]
    exact congrArg₂ (· ++ ·) (offered_offerGlyphs e n row e.xDisp) (ih (n + 1))

/-- The glyphs of the rows that were flushed meanwhile were offered. -/
def Offers (e : Setting) (s t : DisplayState) : Prop :=
  ∃ new, t.rows = s.rows ++ new ∧ t.calls = s.calls ++ offerRows e s.lineNum new ∧ t.lineNum = s.lineNum + new.length

/-- Where no row is flushed, none is offered. -/
theorem Offers.of_eq {e : Setting} {s t : DisplayState} (hrows : t.rows = s.rows) (hcalls : t.calls = s.calls)
    (hline : t.lineNum = s.lineNum) : Offers e s t :=
  ⟨[], hrows.trans (List.append_nil _).symm, hcalls.trans (List.append_nil _).symm, hline⟩

/-- The rows of two parts of a line. -/
theorem Offers.trans {e : Setting} {s t u : DisplayState} (h : Offers e s t) (h' : Offers e t u) : Offers e s u := by
  obtain ⟨new, hrows, hcalls, hline⟩ := h
  obtain ⟨new', hrows', hcalls', hline'⟩ := h'
  refine ⟨new ++ new', ?_, ?_, ?_⟩
  · rw [hrows', hrows, List.append_assoc]
  · rw [hcalls', hcalls, hline, offerRows_append, List.append_assoc]
  · rw [hline', hline, List.length_append, Nat.add_assoc]

/-- A row is flushed. -/
theorem Offers.flushLine (e : Setting) (s : DisplayState) (fragments : List TextDisplay.TextFragment) :
    Offers e s (flushLine e s fragments (-1) (-1)) := by
  have hnone : ¬((0 : Int) ≤ -1 ∧ (0 : Int) ≤ -1) := by decide
  refine ⟨[_], rfl, ?_, rfl⟩
  rw [Layout.flushLine]
  dsimp only
  rw [if_neg hnone, List.append_nil, offerRows, offerRows, List.append_nil]

/-- A row of `WRAP_LINE` is offered as it is flushed. -/
theorem Offers.flushRow {e : Setting} {s : DisplayState} {k : DisplayState × Nat} (hk : flushRow e s = some k) : Offers e s k.1 := by
  rw [Layout.flushRow] at hk
  obtain ⟨frag, -, hk⟩ := Option.bind_eq_some_iff.1 hk
  obtain ⟨fit, -, hk⟩ := Option.bind_eq_some_iff.1 hk
  rw [← Option.some.inj hk]
  exact (Offers.flushLine e s _).trans (Offers.of_eq rfl rfl rfl)

/-- So is a row of `WRAP_WORD`. -/
theorem Offers.flushWords {e : Setting} {s : DisplayState} {k : DisplayState × Nat} (hk : flushWords e s = some k) :
    Offers e s k.1 := by
  rw [Layout.flushWords] at hk
  obtain ⟨frag, -, hk⟩ := Option.bind_eq_some_iff.1 hk
  rw [← Option.some.inj hk]
  exact (Offers.flushLine e s _).trans (Offers.of_eq rfl rfl rfl)

/-- So are all rows of the loop. -/
theorem Offers.wrapLine {e : Setting} {n : Nat} {s t : DisplayState} (ht : wrapLine e n s = some t) : Offers e s t := by
  induction n generalizing s with
  | zero =>
    rw [Layout.wrapLine] at ht
    split_ifs at ht
    rw [← Option.some.inj ht]
    exact Offers.of_eq rfl rfl rfl
  | succ n ih =>
    rw [Layout.wrapLine] at ht
    split_ifs at ht
    · obtain ⟨k, hk, ht⟩ := Option.bind_eq_some_iff.1 ht
      have hkept : Offers e k.1 (keepLineChars k.1 k.2) := Offers.of_eq rfl rfl rfl
      exact ((Offers.flushRow hk).trans hkept).trans (ih ht)
    · rw [← Option.some.inj ht]
      exact Offers.of_eq rfl rfl rfl

theorem Offers.wrapRows {e : Setting} {s t : DisplayState} (ht : wrapRows e s = some t) : Offers e s t := by
  rw [Layout.wrapRows] at ht
  cases hw : e.wrap with
  | truncate =>
    rw [hw] at ht
    rw [← Option.some.inj ht]
    exact Offers.of_eq rfl rfl rfl
  | line =>
    rw [hw] at ht
    exact Offers.wrapLine ht
  | word =>
    rw [hw] at ht
    dsimp only at ht
    rw [wrapWord] at ht
    split_ifs at ht
    · obtain ⟨k, hk, ht⟩ := Option.map_eq_some_iff.1 ht
      rw [← ht]
      exact (Offers.flushWords hk).trans (Offers.of_eq rfl rfl rfl)
    · rw [← Option.some.inj ht]
      exact Offers.of_eq rfl rfl rfl

/-- A fragment flushes some rows, or none. -/
theorem Offers.flushFragment {e : Setting} {s t : DisplayState} (ht : flushFragment e s = some t) : Offers e s t := by
  rw [Layout.flushFragment] at ht
  have hword : Offers e s (updateWord s) := by
    rw [updateWord_same]
    exact Offers.of_eq rfl rfl rfl
  split_ifs at ht
  · rw [← Option.some.inj ht]
    exact Offers.of_eq rfl rfl rfl
  · rw [← Option.some.inj ht]
    exact Offers.of_eq rfl rfl rfl
  · rw [← Option.some.inj ht]
    exact hword.trans (Offers.of_eq rfl rfl rfl)
  · obtain ⟨u, hu, rfl⟩ := Option.map_eq_some_iff.1 ht
    obtain ⟨a, ha, hu⟩ := Option.bind_eq_some_iff.1 hu
    have hadded : Offers e (updateWord s) a := by
      rw [addFragment] at ha
      obtain ⟨arrays, -, ha⟩ := Option.bind_eq_some_iff.1 ha
      rw [← Option.some.inj ha]
      exact Offers.of_eq rfl rfl rfl
    exact ((hword.trans hadded).trans (Offers.wrapRows hu)).trans (Offers.of_eq rfl rfl rfl)

/-- So does a call of `display_char`. -/
theorem Offers.displayChar {e : Setting} {s t : DisplayState} {offset1 offset2 : Int} {ch : Nat}
    (ht : displayChar e s offset1 offset2 ch = some t) : Offers e s t := by
  rw [Layout.displayChar] at ht
  obtain ⟨u, hu, ht⟩ := Option.bind_eq_some_iff.1 ht
  have hbroken : Offers e s u := by
    split_ifs at hu
    · exact Offers.flushFragment hu
    · rw [← Option.some.inj hu]
      exact Offers.of_eq rfl rfl rfl
  have hstored : Offers e u (storeChar e u offset1 offset2 ch) := Offers.of_eq rfl rfl rfl
  split_ifs at ht
  · exact (hbroken.trans hstored).trans (Offers.flushFragment ht)
  · rw [← Option.some.inj ht]
    exact hbroken.trans hstored

/-- So do any number of calls. -/
theorem Offers.displayChars {e : Setting} (cs : List CharCall) {s t : DisplayState} (ht : displayChars e cs s = some t) :
    Offers e s t := by
  induction cs generalizing s with
  | nil => exact Option.some.inj ht ▸ Offers.of_eq rfl rfl rfl
  | cons c cs ih =>
    obtain ⟨u, hu, ht⟩ := Option.bind_eq_some_iff.1 ht
    have hat : Offers e s (c.at s) := Offers.of_eq rfl rfl rfl
    exact (hat.trans (Offers.displayChar hu)).trans (ih ht)

/-! ## The glyphs of a line -/

/-- The calls of two parts of a line, one after the other. -/
theorem displayChars_append (e : Setting) (cs ds : List CharCall) (s : DisplayState) :
    displayChars e (cs ++ ds) s = (displayChars e cs s).bind (displayChars e ds) := by
  induction cs generalizing s with
  | nil => rfl
  | cons c cs ih =>
    rw [List.cons_append, displayChars, displayChars, Option.bind_assoc]
    exact congrArg _ (funext fun t => ih t)

/-- Their flushes are those of the one and those of the other. -/
theorem charsFlushes_append (e : Setting) (cs ds : List CharCall) (s : DisplayState) :
    charsFlushes e (cs ++ ds) s = charsFlushes e cs s ++ (displayChars e cs s).elim [] (charsFlushes e ds) := by
  induction cs generalizing s with
  | nil => rfl
  | cons c cs ih =>
    rw [List.cons_append, charsFlushes, charsFlushes, displayChars, List.append_assoc]
    refine congrArg _ ?_
    cases displayChar e (c.at s) c.offset1 c.offset2 c.ch with
    | none => rfl
    | some t => exact ih t

/-- A character whose flushes fit is displayed. -/
theorem DisplayState.Between.displayChar_isSome {e : Setting} (he : e.Narrow) {s : DisplayState} (h : s.Between e) {c : CharCall}
    (hfits : ∀ f ∈ Layout.charFlushes e s c, FlushFits e f) : ∃ t, Layout.displayChar e s c.offset1 c.offset2 c.ch = some t := by
  have hbroken : ∃ u, (if breaksBefore e s c.offset1 c.ch then flushFragment e s else some s) = some u := by
    split_ifs with hbreak
    · refine Option.isSome_iff_exists.1 ((flushFragment_isSome_iff h.toOk (h.toOk.measures he)).2 (hfits s (List.mem_append_left _ ?_)))
      rw [if_pos hbreak]
      exact List.mem_singleton_self s
    · exact ⟨s, rfl⟩
  obtain ⟨u, hu⟩ := hbroken
  rw [Layout.displayChar, hu, Option.bind_some]
  by_cases htab : c.ch % 2 ^ styleShift = tab
  · rw [if_pos htab]
    obtain ⟨hbetween, hlength, hempty⟩ := h.broken hu
    refine Option.isSome_iff_exists.1 ((flushFragment_isSome_iff (hbetween.storeChar hlength hempty)
      ((hbetween.storeChar hlength hempty).measures he)).2 (hfits _ (List.mem_append_right _ ?_)))
    rw [if_pos htab, hu]
    exact List.mem_singleton_self _
  · rw [if_neg htab]
    exact ⟨_, rfl⟩

/-- Where each flush fits, the calls have a result. -/
theorem DisplayState.Between.displayChars_isSome {e : Setting} (he : e.Narrow) (cs : List CharCall) {s : DisplayState} (h : s.Between e)
    (hfits : ∀ f ∈ Layout.charsFlushes e cs s, FlushFits e f) : ∃ t, Layout.displayChars e cs s = some t := by
  induction cs generalizing s with
  | nil => exact ⟨s, rfl⟩
  | cons c cs ih =>
    obtain ⟨u, hu⟩ := (h.at c).displayChar_isSome he fun f hf => hfits f (List.mem_append_left _ hf)
    obtain ⟨t, ht⟩ := ih ((h.at c).displayChar hu) fun f hf => hfits f (List.mem_append_right _ (by rw [hu]; exact hf))
    exact ⟨t, by rw [Layout.displayChars, hu]; exact ht⟩

/-- What a character adds to the glyphs, and to what was stored. -/
theorem DisplayState.Between.displayChar_spec {α : Type} {p : Glyph → α} {e : Setting} {s t : DisplayState} (h : s.Between e)
    {c : CharCall} (hstays : ∀ f ∈ Layout.charFlushes e s c, ∀ k ∈ keeps e f, Stays p k)
    (ht : Layout.displayChar e s c.offset1 c.offset2 c.ch = some t) :
    t.glyphs.map p = s.glyphs.map p ++ ((Layout.charFlushes e s c).flatMap (·.added e)).map p ∧
      (Layout.charFlushes e s c).flatMap (·.fragment) ++ t.fragment =
        s.fragment ++ [Layout.stored s c.offset1 c.offset2 c.ch] ∧
      t.curHexMode = s.curHexMode := by
  rw [Layout.charFlushes] at hstays ⊢
  rw [Layout.displayChar] at ht
  obtain ⟨u, hu, ht⟩ := Option.bind_eq_some_iff.1 ht
  obtain ⟨hbetween, hlength, hempty⟩ := h.broken hu
  have hok := hbetween.storeChar hlength hempty
  rw [hu] at hstays ⊢
  obtain ⟨first, hfirst⟩ : ∃ first, first = if breaksBefore e s c.offset1 c.ch then [s] else [] := ⟨_, rfl⟩
  have hfront : u.glyphs.map p = s.glyphs.map p ++ (first.flatMap (·.added e)).map p ∧
      first.flatMap (·.fragment) ++ u.fragment = s.fragment ∧ u.curHexMode = s.curHexMode := by
    by_cases hbreak : breaksBefore e s c.offset1 c.ch
    · rw [if_pos hbreak] at hu hfirst
      obtain ⟨-, hnone, hglyphs, hmode⟩ := flushFragment_spec h.toOk (fun k hk =>
        hstays s (List.mem_append_left _ (by rw [if_pos hbreak]; exact List.mem_singleton_self s)) k hk) hu
      rw [hfirst, List.flatMap_singleton, List.flatMap_singleton, hnone, List.append_nil]
      exact ⟨hglyphs, rfl, hmode⟩
    · rw [if_neg hbreak] at hu hfirst
      rw [hfirst, ← Option.some.inj hu]
      exact ⟨(List.append_nil _).symm, rfl, rfl⟩
  rw [← hfirst] at hstays ⊢
  obtain ⟨hglyphs, hfragment, hmode⟩ := hfront
  have hstored : Layout.stored u c.offset1 c.offset2 c.ch = Layout.stored s c.offset1 c.offset2 c.ch := by
    rw [Layout.stored, Layout.stored, hmode]
  by_cases htab : c.ch % 2 ^ styleShift = tab
  · rw [if_pos htab] at ht hstays ⊢
    obtain ⟨-, hnone, hglyphs', hmode'⟩ := flushFragment_spec hok (fun k hk =>
      hstays _ (List.mem_append_right _ (List.mem_singleton_self _)) k hk) ht
    refine ⟨?_, ?_, hmode'.trans hmode⟩
    · rw [hglyphs', List.flatMap_append, List.map_append, ← List.append_assoc, ← hglyphs]
      exact congrArg _ (congrArg (List.map p) (List.append_nil _).symm)
    · rw [hnone, List.append_nil, List.flatMap_append, ← hfragment, List.append_assoc]
      exact congrArg _ ((List.append_nil _).trans (congrArg (fun d => u.fragment ++ [d]) hstored))
  · rw [if_neg htab] at ht ⊢
    rw [List.append_nil, ← Option.some.inj ht]
    refine ⟨hglyphs, ?_, hmode⟩
    rw [← hfragment, List.append_assoc]
    exact congrArg _ (congrArg (fun d => u.fragment ++ [d]) hstored)

/-- The glyphs of a line are those that its fragments made, and the fragments are the characters one after the other. -/
theorem DisplayState.Between.displayChars_spec {α : Type} {p : Glyph → α} {e : Setting} (cs : List CharCall)
    {s t : DisplayState} (h : s.Between e) (hstays : ∀ f ∈ Layout.charsFlushes e cs s, ∀ k ∈ keeps e f, Stays p k)
    (ht : Layout.displayChars e cs s = some t) :
    t.glyphs.map p = s.glyphs.map p ++ ((Layout.charsFlushes e cs s).flatMap (·.added e)).map p ∧
      (Layout.charsFlushes e cs s).flatMap (·.fragment) ++ t.fragment = s.fragment ++ cs.map CharCall.stored := by
  induction cs generalizing s with
  | nil =>
    rw [← Option.some.inj ht]
    exact ⟨(List.append_nil _).symm, (List.append_nil _).symm⟩
  | cons c cs ih =>
    obtain ⟨u, hu, ht⟩ := Option.bind_eq_some_iff.1 ht
    have hmem : ∀ f ∈ Layout.charsFlushes e cs u, f ∈ Layout.charsFlushes e (c :: cs) s := fun f hf =>
      List.mem_append_right _ (by rw [hu]; exact hf)
    obtain ⟨hglyphs, hfragment, -⟩ := (h.at c).displayChar_spec (fun f hf => hstays f (List.mem_append_left _ hf)) hu
    obtain ⟨hglyphs', hfragment'⟩ := ih ((h.at c).displayChar hu) (fun f hf => hstays f (hmem f hf)) ht
    rw [Layout.charsFlushes, hu, Option.elim_some, List.flatMap_append, List.flatMap_append, List.map_append]
    constructor
    · rw [hglyphs', hglyphs, List.append_assoc]
      rfl
    · rw [List.append_assoc, hfragment', ← List.append_assoc, hfragment, List.append_assoc]
      rfl

/-! ## Calls -/

/-- The characters that a call displays. -/
def DisplayCall.chars (e : Setting) : DisplayCall → List CharCall
  | .char offset1 offset2 ch => [⟨offset1, offset2, ch, false⟩]
  | .printhex offset1 offset2 h n =>
    (List.range n).map fun i => ⟨offset1, if e.hexNibble = i then offset2 else offset1, hexDigit h n i, true⟩
  | .printf _ _ [] => []
  | .printf offset1 offset2 (c :: cs) => ⟨offset1, offset2, c, false⟩ :: cs.map fun c => ⟨-1, -1, c, false⟩

theorem CharCall.at_eq {c : CharCall} {s : DisplayState} (h : s.curHexMode = c.hexMode) : c.at s = s := by
  rw [CharCall.at, ← h]

theorem DisplayState.asText_eq {s : DisplayState} (h : s.curHexMode = false) : s.asText = s := by
  rw [DisplayState.asText, ← h]

/-- No call of `display_char` changes the hex mode. -/
theorem DisplayState.Between.curHexMode {e : Setting} {s t : DisplayState} (h : s.Between e) {c : CharCall}
    (ht : Layout.displayChar e s c.offset1 c.offset2 c.ch = some t) : t.curHexMode = s.curHexMode :=
  (h.displayChar_spec (p := Glyph.bare) (fun _ _ k _ => stays_bare k) ht).2.2

/-- The digits are characters in the hex mode. -/
theorem printDigits_eq {e : Setting} (offset1 offset2 : Int) (h n : Nat) {k : Nat} (hk : k ≤ n) {s : DisplayState}
    (hs : s.Between e) (hmode : s.curHexMode = true) :
    printDigits e offset1 offset2 h n k s =
      displayChars e ((List.range' (n - k) k).map fun i =>
        ⟨offset1, if e.hexNibble = i then offset2 else offset1, hexDigit h n i, true⟩) s := by
  induction k generalizing s with
  | zero => rfl
  | succ k ih =>
    rw [List.range'_succ, List.map_cons, printDigits, displayChars, CharCall.at_eq hmode]
    refine Option.bind_congr fun t ht => ?_
    have hnext := ih (Nat.le_of_succ_le hk) (hs.displayChar (c := ⟨_, _, _, true⟩) ht)
      ((hs.curHexMode (c := ⟨_, _, _, true⟩) ht).trans hmode)
    rw [show n - k = n - (k + 1) + 1 by omega] at hnext
    exact hnext

/-- The loop of `display_printf` is made of calls of `display_char`. -/
theorem printChars_eq {e : Setting} (cs : List Nat) {s : DisplayState} (hs : s.Between e) (hmode : s.curHexMode = false) :
    printChars e cs s = displayChars e (cs.map fun c => ⟨-1, -1, c, false⟩) s := by
  induction cs generalizing s with
  | nil => rfl
  | cons c cs ih =>
    rw [List.map_cons, printChars, displayChars, CharCall.at_eq hmode]
    refine Option.bind_congr fun t ht => ?_
    exact ih (hs.displayChar (c := ⟨_, _, _, false⟩) ht) ((hs.curHexMode (c := ⟨_, _, _, false⟩) ht).trans hmode)

/-- Characters that leave the mode they begin with. -/
theorem curHexMode_displayChars {e : Setting} {b : Bool} {cs : List CharCall} (hcs : ∀ c ∈ cs, c.hexMode = b) {s t : DisplayState}
    (hs : s.Between e) (hmode : s.curHexMode = b) (ht : displayChars e cs s = some t) : t.curHexMode = b := by
  induction cs generalizing s with
  | nil => exact Option.some.inj ht ▸ hmode
  | cons c cs ih =>
    obtain ⟨u, hu, ht⟩ := Option.bind_eq_some_iff.1 ht
    have hat := (hs.at c).curHexMode hu
    exact ih (fun d hd => hcs d (List.mem_cons_of_mem c hd)) ((hs.at c).displayChar hu)
      (hat.trans (hcs c List.mem_cons_self)) ht

/-- The first character sets the mode that it is displayed in. -/
theorem displayChars_asText (e : Setting) (cs : List CharCall) (s : DisplayState) :
    (displayChars e cs s.asText).map DisplayState.asText = (displayChars e cs s).map DisplayState.asText := by
  cases cs <;> rfl

/-- A call is the characters that it displays. -/
theorem DisplayCall.run_eq {e : Setting} (c : DisplayCall) {s : DisplayState} (hs : s.Between e) (hmode : s.curHexMode = false) :
    c.run e s = (displayChars e (c.chars e) s).map DisplayState.asText := by
  have htext {cs : List CharCall} (hcs : ∀ d ∈ cs, d.hexMode = false) :
      (displayChars e cs s).map DisplayState.asText = displayChars e cs s := by
    cases ht : displayChars e cs s with
    | none => rfl
    | some t => exact congrArg some (DisplayState.asText_eq (curHexMode_displayChars hcs hs hmode ht))
  cases c with
  | char offset1 offset2 ch =>
    rw [DisplayCall.chars, htext (fun d hd => List.mem_singleton.1 hd ▸ rfl), displayChars, CharCall.at_eq hmode, DisplayCall.run]
    cases displayChar e s offset1 offset2 ch <;> rfl
  | printhex offset1 offset2 h n =>
    have hdigits := printDigits_eq offset1 offset2 h n (Nat.le_refl n) (s := { s with curHexMode := true })
      (hs.at ⟨0, 0, 0, true⟩) rfl
    rw [Nat.sub_self, ← List.range_eq_range'] at hdigits
    rw [DisplayCall.run, displayPrinthex, hdigits]
    exact ((displayChars_asText e _ _).symm.trans (displayChars_asText e _ s))
  | printf offset1 offset2 text =>
    cases text with
    | nil => exact congrArg some (DisplayState.asText_eq hmode).symm
    | cons c cs =>
      rw [DisplayCall.chars, htext, displayChars, CharCall.at_eq hmode, DisplayCall.run, displayPrintf]
      · refine Option.bind_congr fun t ht => ?_
        exact printChars_eq cs (hs.displayChar (c := ⟨_, _, _, false⟩) ht) ((hs.curHexMode (c := ⟨_, _, _, false⟩) ht).trans hmode)
      · intro d hd
        rcases List.mem_cons.1 hd with rfl | hd
        · rfl
        · obtain ⟨c, -, rfl⟩ := List.mem_map.1 hd
          rfl

/-- So are the calls of a line. -/
theorem displayCalls_eq {e : Setting} (calls : List DisplayCall) {s : DisplayState} (hs : s.Between e)
    (hmode : s.curHexMode = false) :
    displayCalls e calls s = (displayChars e (calls.flatMap (·.chars e)) s).map DisplayState.asText := by
  induction calls generalizing s with
  | nil => exact congrArg some (DisplayState.asText_eq hmode).symm
  | cons c calls ih =>
    rw [List.flatMap_cons, displayCalls, displayChars_append, DisplayCall.run_eq c hs hmode]
    cases ht : displayChars e (c.chars e) s with
    | none => rfl
    | some t =>
      refine (ih (hs.displayChars _ ht).asText rfl).trans ?_
      exact displayChars_asText e _ t

/-- What is displayed of a glyph, and where it stands in the text. -/
def Glyph.shown (g : Glyph) : Nat × Int × Int := (g.ch, g.offset1, g.offset2)

/-- The same of a character: a space is displayed for a tab. -/
def FragmentChar.shown (c : FragmentChar) : Nat × Int × Int := (if c.ch = tab then space else c.ch, c.offset1, c.offset2)

/-- The glyphs that are made of a fragment show its characters. -/
theorem made_shown (e : Setting) (s : DisplayState) : (s.made e).map Glyph.shown = s.fragment.map FragmentChar.shown := by
  rw [DisplayState.made, List.map_map]
  refine List.map_congr_left fun c _ => ?_
  rw [Function.comp_apply, FragmentChar.glyph, FragmentChar.shown]
  split_ifs <;> rfl

/-- What the glyphs show is kept, whatever becomes of their hex modes. -/
theorem stays_shown (k : DisplayState × Nat) : Stays Glyph.shown k := by
  intro j hj
  rw [keepLineChars_glyph k.1 hj]
  rfl

/-- The fragments of a line are its characters one after the other. -/
theorem fragments_of_flushes {e : Setting} (he : e.Narrow) {cs : List CharCall} {s : DisplayState}
    (h : ∀ f ∈ charsFlushes e cs (displayBol e s), FlushFits e f) :
    (flushes e cs (displayBol e s)).flatMap (·.fragment) = cs.map CharCall.stored := by
  have hbetween := between_displayBol e s
  obtain ⟨t, ht⟩ := hbetween.displayChars_isSome he cs h
  obtain ⟨-, hfragments⟩ := hbetween.displayChars_spec (p := Glyph.bare) cs (fun _ _ k _ => stays_bare k) ht
  rw [flushes, ht, List.flatMap_append]
  exact (congrArg _ (List.flatMap_singleton _ _)).trans hfragments

/-- A character that is displayed has flushed what it had to. -/
theorem charFlushes_isSome {e : Setting} {s t : DisplayState} {c : CharCall} (ht : displayChar e s c.offset1 c.offset2 c.ch = some t) :
    ∀ f ∈ charFlushes e s c, (flushFragment e f).isSome := by
  rw [displayChar] at ht
  obtain ⟨u, hu, ht⟩ := Option.bind_eq_some_iff.1 ht
  rw [charFlushes, hu]
  intro f hf
  rcases List.mem_append.1 hf with hf | hf
  · by_cases hbreak : breaksBefore e s c.offset1 c.ch
    · rw [if_pos hbreak] at hu hf
      rw [List.mem_singleton.1 hf, hu]
      rfl
    · rw [if_neg hbreak] at hf
      exact absurd hf List.not_mem_nil
  · by_cases htab : c.ch % 2 ^ styleShift = tab
    · rw [if_pos htab] at ht hf
      rw [List.mem_singleton.1 hf, ht]
      rfl
    · rw [if_neg htab] at hf
      exact absurd hf List.not_mem_nil

/-- Where the calls have a result, so has each flush. -/
theorem charsFlushes_isSome {e : Setting} {cs : List CharCall} {s t : DisplayState} (ht : displayChars e cs s = some t) :
    ∀ f ∈ charsFlushes e cs s, (flushFragment e f).isSome := by
  induction cs generalizing s with
  | nil => exact fun f hf => absurd hf List.not_mem_nil
  | cons c cs ih =>
    obtain ⟨u, hu, ht⟩ := Option.bind_eq_some_iff.1 ht
    intro f hf
    rw [charsFlushes, hu] at hf
    exact (List.mem_append.1 hf).elim (charFlushes_isSome hu f) (ih ht f)

/-! ## Whole lines -/

/-- A line of characters, from `display_bol` to `display_eol`. -/
def showLine (e : Setting) (cs : List CharCall) (s : DisplayState) (offset1 offset2 : Int) : Option DisplayState :=
  ((displayChars e cs (displayBol e s)).map DisplayState.asText).bind fun t => displayEol e t offset1 offset2

/-- The last row of a line is what is pending. -/
theorem flushLine_rows {e : Setting} {s : DisplayState} (h : s.Ok e) (offset1 offset2 : Int) :
    (flushLine e s s.fragments offset1 offset2).rows = s.rows ++ [s.pending] :=
  congrArg (fun row => s.rows ++ [row]) (row_eq s.arrays h.tiled)

/-- A line is made of its calls, of the last flush and of the row that is left. -/
theorem showLine_eq_some {e : Setting} {cs : List CharCall} {s t : DisplayState} {offset1 offset2 : Int} :
    showLine e cs s offset1 offset2 = some t ↔ ∃ u v, displayChars e cs (displayBol e s) = some u ∧
      flushFragment e u.asText = some v ∧ flushLine e v v.fragments offset1 offset2 = t := by
  rw [showLine]
  cases displayChars e cs (displayBol e s) with
  | none =>
    refine iff_of_false nofun ?_
    rintro ⟨u, v, hu, -⟩
    cases hu
  | some u =>
    rw [Option.map_some, Option.bind_some, displayEol, Option.map_eq_some_iff]
    constructor
    · rintro ⟨v, hv, ht⟩
      exact ⟨u, v, rfl, hv, ht⟩
    · rintro ⟨u', v, hu, hv, ht⟩
      cases hu
      exact ⟨v, hv, ht⟩

/-- In a line that is displayed all fragments fit where they are flushed. -/
theorem showLine_fits {e : Setting} (he : e.Narrow) {cs : List CharCall} {s t : DisplayState} {offset1 offset2 : Int}
    (ht : showLine e cs s offset1 offset2 = some t) : ∀ f ∈ flushes e cs (displayBol e s), FlushFits e f := by
  intro f hf
  have hok := (between_displayBol e s).flushes cs f hf
  refine (flushFragment_isSome_iff hok (hok.measures he)).1 ?_
  obtain ⟨u, v, hu, hv, -⟩ := showLine_eq_some.1 ht
  rw [flushes, hu] at hf
  rcases List.mem_append.1 hf with hf | hf
  · exact charsFlushes_isSome hu f hf
  · rw [List.mem_singleton.1 hf, hv]
    rfl

/-- The glyphs of a line, in what stays of them, are those that its fragments added. -/
theorem showLine_glyphs {α : Type} {p : Glyph → α} {e : Setting} {cs : List CharCall} {s u v : DisplayState}
    (hstays : ∀ f ∈ flushes e cs (displayBol e s), ∀ k ∈ keeps e f, Stays p k)
    (hu : displayChars e cs (displayBol e s) = some u) (hv : flushFragment e u.asText = some v) :
    v.Ok e ∧ v.glyphs.map p =
      s.rows.flatten.map p ++ ((flushes e cs (displayBol e s)).flatMap (·.added e)).map p := by
  have hbetween := between_displayBol e s
  have hlast : u.asText ∈ flushes e cs (displayBol e s) :=
    List.mem_append_right _ (by rw [hu]; exact List.mem_singleton_self _)
  obtain ⟨hglyphs, -⟩ := hbetween.displayChars_spec cs (fun f hf => hstays f (List.mem_append_left _ hf)) hu
  have hlaid := flushFragment_spec (hbetween.displayChars cs hu).asText.toOk (hstays _ hlast) hv
  have hstart : (displayBol e s).glyphs = s.rows.flatten := List.append_nil _
  have hglyphs' : u.asText.glyphs.map p = u.glyphs.map p := rfl
  refine ⟨hlaid.ok, ?_⟩
  rw [hlaid.glyphs, hglyphs', hglyphs, hstart, flushes, hu, List.flatMap_append, List.map_append, List.append_assoc]
  exact congrArg _ (congrArg _ (congrArg (List.map p) (List.flatMap_singleton _ _).symm))

/-- What a line calls `cursor_func` for: the rows that it flushes, and the mark of its end. -/
theorem showLine_calls {e : Setting} {cs : List CharCall} {s t : DisplayState} {offset1 offset2 : Int}
    (ht : showLine e cs s offset1 offset2 = some t) :
    ∃ new last, t.rows = s.rows ++ (new ++ [last]) ∧ t.lineNum = s.lineNum + (new.length + 1) ∧
      t.calls = s.calls ++ offerRows e s.lineNum (new ++ [last]) ++
        if 0 ≤ offset1 ∧ 0 ≤ offset2 then
          [⟨offset1, offset2, s.lineNum + new.length, e.xDisp + columns last, e.eolWidth, e.windowHexMode⟩]
        else [] := by
  obtain ⟨u, v, hu, hv, rfl⟩ := showLine_eq_some.1 ht
  have hat : Offers e u u.asText := Offers.of_eq rfl rfl rfl
  obtain ⟨new, hrows, hcalls, hline⟩ := ((Offers.displayChars cs hu).trans hat).trans (Offers.flushFragment hv)
  have hrows : v.rows = s.rows ++ new := hrows
  have hcalls : v.calls = s.calls ++ offerRows e s.lineNum new := hcalls
  have hline : v.lineNum = s.lineNum + new.length := hline
  refine ⟨new, v.fragments.flatMap v.arrays.ofFragment, ?_, ?_, ?_⟩
  · rw [flushLine, hrows, List.append_assoc]
  · rw [flushLine, hline, Nat.add_assoc]
  · rw [flushLine, offerRows_append, offerRows, offerRows, List.append_nil, hcalls, hline]
    simp only [List.append_assoc]

/-! ## A plain window -/

/-- A window of a terminal, where each glyph takes a column. -/
def plainWindow (wrap : WrapType) (width : Int) : Setting where
  wrap := wrap
  width := width
  eolWidth := 1
  tabWidth := 8
  tabWidth_pos := Nat.succ_pos 7
  xDisp := 0
  hexMode := none
  windowHexMode := false
  hexNibble := 0
  showSelection := false
  mark := 0
  offset := 0
  glyphWidth := fun _ => 1

theorem narrow_plainWindow (wrap : WrapType) (width : Int) : (plainWindow wrap width).Narrow :=
  fun _ => show maxWordSize * 1 ≤ 32767 by decide

/-- Nothing is displayed yet. -/
def blankState : DisplayState where
  x := 0
  lineNum := 0
  curHexMode := false
  fragments := []
  lastWordSpace := false
  wordIndex := 0
  arrays := ⟨fun _ => 0, fun _ => (0, 0), fun _ => 0, fun _ => false⟩
  lineIndex := 0
  fragment := []
  lastSpace := false
  lastStyle := 0
  rows := []
  calls := []

/-- The calls for a text. -/
def textCalls (offset : Nat) : List Nat → List CharCall
  | [] => []
  | c :: cs => ⟨offset, offset + 1, c, false⟩ :: textCalls (offset + 1) cs

end Layout

end Hoe
