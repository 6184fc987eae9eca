import Hoe.Lemmas.Rows

/-!
# The glyphs of a line

Where the glyphs of a line are kept, and what becomes of their attributes.
-/

namespace Hoe

/-!
## The buffer of the glyphs

`unicode_to_glyphs` makes no more glyphs than there is room for, but the loop after it goes over all characters of the fragment.
Where the fragment does not fit it reads places of `char_to_glyph_pos` that were not set. The loop of `WRAP_LINE` ends well
unless the window has room for no column, or the row is too wide before anything is on it.
-/

namespace Layout

open TextDisplay (WrapType maxScreenWidth maxWordSize styleShift tab)

/-- The glyphs that `unicode_to_glyphs` makes of the current fragment, and what it sets of `char_to_glyph_pos`. -/
def DisplayState.toGlyphs (s : DisplayState) : List Nat × List Nat :=
  unicodeToGlyphs (maxScreenWidth - s.lineIndex) (s.fragment.map (·.ch))

/-- A call of `flush_fragment` goes to places of the arrays only that are there, and reads what was set. -/
structure AccessesInside (e : Setting) (s : DisplayState) : Prop where
  flushes : (flushFragment e s).isSome
  room : s.toGlyphs.1.length ≤ maxScreenWidth - s.lineIndex
  set : ¬s.Full → ∀ i < s.fragment.length, ∃ pos, s.toGlyphs.2[i]? = some pos ∧ pos < s.toGlyphs.1.length
  outside : ∀ t, s.fragment ≠ [] → ¬s.Full → addFragment e (updateWord s) = some t →
    ∀ j, j < s.lineIndex ∨ s.lineIndex + s.toGlyphs.1.length ≤ j → t.arrays.glyph j = s.arrays.glyph j
  before : s.lineIndex ≤ maxScreenWidth ∧ s.fragments.length ≤ maxScreenWidth
  after : ∀ t, flushFragment e s = some t → t.lineIndex ≤ maxScreenWidth ∧ t.fragments.length ≤ maxScreenWidth

theorem accessesInside_iff {e : Setting} (he : e.Narrow) {s : DisplayState} (hs : s.Ok e) : AccessesInside e s ↔ FlushFits e s := by
  have hlength : s.toGlyphs.1.length = min (maxScreenWidth - s.lineIndex) s.fragment.length := by
    rw [DisplayState.toGlyphs, unicodeToGlyphs, List.length_take, List.length_map]
  have hset : s.toGlyphs.2 = List.range (min s.fragment.length (maxScreenWidth - s.lineIndex)) := by
    rw [DisplayState.toGlyphs, unicodeToGlyphs, List.length_map]
  constructor
  · exact fun h => (flushFragment_isSome_iff hs (hs.measures he)).1 h.flushes
  · intro h
    have hroom : s.fragment ≠ [] → ¬s.Full → s.lineIndex + s.fragment.length ≤ maxScreenWidth := fun hne hfull =>
      ((h.resolve_left hne).resolve_left hfull).1
    refine ⟨(flushFragment_isSome_iff hs (hs.measures he)).2 h, hlength.le.trans (Nat.min_le_left _ _), fun hfull i hi => ?_,
      fun t hne hfull ht j hj => ?_, ⟨hs.lineIndex, hs.fragments.trans hs.lineIndex⟩, fun t ht => ?_⟩
    · have hfits := hroom (List.ne_nil_of_length_pos (Nat.zero_lt_of_lt hi)) hfull
      exact ⟨i, hset ▸ List.getElem?_range (by omega), by omega⟩
    · have hfits := hroom hne hfull
      have hfields := updateWord_same s
      have hfragment : (updateWord s).fragment = s.fragment := by rw [hfields]
      have hlineIndex : (updateWord s).lineIndex = s.lineIndex := by rw [hfields]
      have harrays : (updateWord s).arrays = s.arrays := by rw [hfields]
      obtain ⟨t', ht', hadded⟩ := addFragment_spec e (s := updateWord s) (hfragment ▸ hne) hs.updateWord.tabAlone
        (by rw [hlineIndex, hfragment]; exact hfits)
      obtain rfl := Option.some.inj (ht.symm.trans ht')
      rw [← harrays]
      exact hadded.outside j (by rw [hlineIndex, hfragment]; omega)
    · have hok := (flushFragment_bare hs ht).ok
      exact ⟨hok.lineIndex, hok.fragments.trans hok.lineIndex⟩

/-- In a line all accesses are inside just when each of its words fits where it is added. -/
theorem line_accessesInside_iff {e : Setting} (he : e.Narrow) (cs : List CharCall) (s : DisplayState) :
    (∀ f ∈ flushes e cs (displayBol e s), AccessesInside e f) ↔ AllWords e (Row.Fits e) cs := by
  rw [← (tests_fits e stays_bare).line_iff showsWidth_bare he cs s]
  exact forall₂_congr fun f hf => accessesInside_iff he ((between_displayBol e s).flushes cs f hf)

/-- Three words, which are wrapped on three rows. -/
theorem line_accessesInside_short :
    AllWords (plainWindow .line 3) (Row.Fits (plainWindow .line 3)) (textCalls 0 [0x61, 0x62, 0x20, 0x63, 0x64, 0x20, 0x65]) ∧
      ∀ f ∈ flushes (plainWindow .line 3) (textCalls 0 [0x61, 0x62, 0x20, 0x63, 0x64, 0x20, 0x65])
        (displayBol (plainWindow .line 3) blankState), AccessesInside (plainWindow .line 3) f := by
  have hwords : AllWords (plainWindow .line 3) (Row.Fits (plainWindow .line 3)) (textCalls 0 [0x61, 0x62, 0x20, 0x63, 0x64, 0x20, 0x65]) := by
    decide +kernel
  exact ⟨hwords, (line_accessesInside_iff (narrow_plainWindow .line 3) _ blankState).2 hwords⟩

/-! ### A line of three words -/

/-- Three words of 100 letters. -/
def threeWords : List CharCall :=
  textCalls 0 (List.replicate 100 0x61 ++ 0x20 :: (List.replicate 100 0x61 ++ 0x20 :: List.replicate 100 0x61))

theorem not_accessesInside :
    ¬∀ f ∈ flushes (plainWindow .truncate 79) threeWords (displayBol (plainWindow .truncate 79) blankState),
      AccessesInside (plainWindow .truncate 79) f := by
  intro h
  have hfits : ∀ f ∈ flushes (plainWindow .truncate 79) threeWords (displayBol (plainWindow .truncate 79) blankState),
      FlushFits (plainWindow .truncate 79) f := fun f hf =>
    (accessesInside_iff (narrow_plainWindow .truncate 79)
      ((between_displayBol (plainWindow .truncate 79) blankState).flushes threeWords f hf)).1 (h f hf)
  revert hfits
  decide +kernel

end Layout

/-!
## The attributes of the glyphs

`keep_line_chars` moves the characters, the offsets and the widths of the glyphs that go on to the next row, but not their hex
modes. A line shows its glyphs as they were made when each of them moves to a place that has its hex mode already.
-/

namespace Layout

open TextDisplay (maxScreenWidth)

/-- The glyphs that calls have made since the beginning of the line. -/
def lineGlyphs (e : Setting) (calls : List DisplayCall) (s : DisplayState) : List Glyph :=
  (charsFlushes e (calls.flatMap (·.chars e)) (displayBol e s)).flatMap (·.added e)

/-- All glyphs that a line makes. -/
def wholeGlyphs (e : Setting) (calls : List DisplayCall) (s : DisplayState) : List Glyph :=
  (flushes e (calls.flatMap (·.chars e)) (displayBol e s)).flatMap (·.added e)

/-- After the calls each glyph of the line is as it was made, on a row or pending. -/
def AttributesStay (e : Setting) (calls : List DisplayCall) (s : DisplayState) : Prop :=
  ∃ t, displayCalls e calls (displayBol e s) = some t ∧ t.glyphs = s.rows.flatten ++ lineGlyphs e calls s

/-- The rows of the line have the glyphs as they were made, and so they are offered to `cursor_func`. -/
def AttributesShown (e : Setting) (calls : List DisplayCall) (s : DisplayState) (offset1 offset2 : Int) : Prop :=
  ∃ t new, (displayCalls e calls (displayBol e s)).bind (fun u => displayEol e u offset1 offset2) = some t ∧
    t.rows = s.rows ++ new ∧ new.flatten = wholeGlyphs e calls s ∧
    offered t.calls = offered s.calls ++ (wholeGlyphs e calls s).flatMap (offer e) ++
      if 0 ≤ offset1 ∧ 0 ≤ offset2 then [(offset1, offset2, e.windowHexMode)] else []

/-- At every moment of a call of `flush_fragment` the glyphs of the line are as they were made: whenever some of them were moved to the
front, and in the end. -/
def GlyphsStay (e : Setting) (s : DisplayState) : Prop :=
  (∀ k ∈ keeps e s, (keepLineChars k.1 k.2).glyphs = s.glyphs ++ s.added e) ∧
    ∃ t, flushFragment e s = some t ∧ t.glyphs = s.glyphs ++ s.added e

theorem Flushed.glyphs_iff {s : DisplayState} {k : DisplayState × Nat} (h : Flushed s k) :
    (keepLineChars k.1 k.2).glyphs = s.glyphs ↔ Stays id k := by
  constructor
  · intro hsame
    have hsplit := LineArrays.glyphs_add s.arrays 0 (s.lineIndex - k.2) k.2
    rw [Nat.sub_add_cancel h.le, Nat.zero_add] at hsplit
    have hrows : (keepLineChars k.1 k.2).rows = k.1.rows := rfl
    have hpending : (keepLineChars k.1 k.2).pending = (keepLineChars k.1 k.2).arrays.glyphs 0 k.2 := rfl
    rw [DisplayState.glyphs, DisplayState.glyphs, hrows, hpending, h.rows, DisplayState.pending, hsplit, List.flatten_append,
      List.flatten_singleton, List.append_assoc] at hsame
    have hkept := List.append_cancel_left (List.append_cancel_left hsame)
    intro j hj
    have hat := congrArg (·[j]?) hkept
    simp only [LineArrays.glyphs, List.getElem?_map, List.getElem?_range', hj, Nat.one_mul, Nat.zero_add] at hat
    rw [h.arrays, h.lineIndex]
    exact Option.some.inj hat
  · intro hstays
    have hsame := h.glyphs hstays
    rwa [List.map_id, List.map_id] at hsame

/-- Nothing is lost in the loop of `WRAP_LINE` as long as all hex modes stay. -/
theorem wrapLineKeeps_glyphs (e : Setting) {n : Nat} {s : DisplayState} (h : Tiled 0 s.fragments s.lineIndex) :
    (∀ k ∈ wrapLineKeeps e n s, (keepLineChars k.1 k.2).glyphs = s.glyphs) ↔ ∀ k ∈ wrapLineKeeps e n s, Stays id k := by
  induction n generalizing s with
  | zero => exact iff_of_true (fun k hk => absurd hk List.not_mem_nil) fun k hk => absurd hk List.not_mem_nil
  | succ n ih =>
    rw [wrapLineKeeps]
    split_ifs
    · cases hk : flushRow e s with
      | none => exact iff_of_true (fun k hk => absurd hk List.not_mem_nil) fun k hk => absurd hk List.not_mem_nil
      | some k =>
        have hflushed := flushRow_spec e h hk
        rw [List.forall_mem_cons, List.forall_mem_cons, hflushed.glyphs_iff]
        refine and_congr_right fun hstays => ?_
        rw [← hflushed.glyphs_iff.2 hstays]
        exact ih hflushed.tiled
    · exact iff_of_true (fun k hk => absurd hk List.not_mem_nil) fun k hk => absurd hk List.not_mem_nil

theorem wrapRowsKeeps_glyphs (e : Setting) {s : DisplayState} (h : Tiled 0 s.fragments s.lineIndex) :
    (∀ k ∈ wrapRowsKeeps e s, (keepLineChars k.1 k.2).glyphs = s.glyphs) ↔ ∀ k ∈ wrapRowsKeeps e s, Stays id k := by
  rw [wrapRowsKeeps]
  cases e.wrap with
  | truncate => exact iff_of_true (fun k hk => absurd hk List.not_mem_nil) fun k hk => absurd hk List.not_mem_nil
  | line => exact wrapLineKeeps_glyphs e h
  | word =>
    refine forall₂_congr fun k hk => ?_
    rw [wrapWordKeeps] at hk
    split_ifs at hk
    · exact (flushWords_spec e h (Option.mem_toList.1 hk)).glyphs_iff
    · exact absurd hk List.not_mem_nil

/-- The glyphs are as they were made at every moment just when the fragment fits and all hex modes stay. -/
theorem glyphsStay_iff {e : Setting} (he : e.Narrow) {s : DisplayState} (hs : s.Ok e) :
    GlyphsStay e s ↔ FlushFits e s ∧ ∀ k ∈ keeps e s, Stays id k := by
  have hkeeps (hfits : FlushFits e s) :
      (∀ k ∈ keeps e s, (keepLineChars k.1 k.2).glyphs = s.glyphs ++ s.added e) ↔ ∀ k ∈ keeps e s, Stays id k := by
    by_cases hnone : s.fragment = [] ∨ s.Full
    · rw [keeps, if_pos (show s.fragment = [] ∨ maxScreenWidth ≤ s.fragments.length ∨ maxScreenWidth ≤ s.lineIndex from hnone)]
      exact iff_of_true (fun k hk => absurd hk List.not_mem_nil) fun k hk => absurd hk List.not_mem_nil
    · obtain ⟨hne, hfull⟩ := not_or.1 hnone
      obtain ⟨a, v, hadded, hsame, -⟩ := flushed_added hs (hs.measures he) hne hfull hfits
      have hglyphs : a.glyphs = s.glyphs ++ s.added e := by
        rw [hadded.glyphs, made_updateWord, DisplayState.added, if_neg hfull, updateWord_same]
        rfl
      rw [hsame, ← hglyphs]
      exact wrapRowsKeeps_glyphs e (hadded.tiled hs.updateWord.tiled)
  constructor
  · rintro ⟨hstays, t, ht, -⟩
    have hfits := (flushFragment_isSome_iff hs (hs.measures he)).1 (ht ▸ rfl)
    exact ⟨hfits, (hkeeps hfits).1 hstays⟩
  · rintro ⟨hfits, hstays⟩
    obtain ⟨t, ht⟩ := Option.isSome_iff_exists.1 ((flushFragment_isSome_iff hs (hs.measures he)).2 hfits)
    have hglyphs := (flushFragment_spec hs hstays ht).glyphs
    rw [List.map_id, List.map_id, List.map_id] at hglyphs
    exact ⟨(hkeeps hfits).2 hstays, t, ht, hglyphs⟩

/-- Some of the calls flush what all of them flush first. -/
theorem mem_charsFlushes_take {e : Setting} {calls : List DisplayCall} {s : DisplayState} (m : Nat) {f : DisplayState}
    (hf : f ∈ charsFlushes e ((calls.take m).flatMap (·.chars e)) s) : f ∈ charsFlushes e (calls.flatMap (·.chars e)) s := by
  rw [← List.take_append_drop m calls, List.flatMap_append, charsFlushes_append]
  exact List.mem_append_left _ hf

theorem attributesStay_of_flushes {e : Setting} (he : e.Narrow) {calls : List DisplayCall} {s : DisplayState}
    (hmode : s.curHexMode = false)
    (h : ∀ f ∈ charsFlushes e (calls.flatMap (·.chars e)) (displayBol e s), FlushFits e f ∧ ∀ k ∈ keeps e f, Stays id k) :
    AttributesStay e calls s := by
  have hbetween := between_displayBol e s
  obtain ⟨t, ht⟩ := hbetween.displayChars_isSome he _ fun f hf => (h f hf).1
  obtain ⟨hglyphs, -⟩ := hbetween.displayChars_spec (p := id) _ (fun f hf => (h f hf).2) ht
  rw [List.map_id, List.map_id, List.map_id] at hglyphs
  refine ⟨t.asText, ?_, ?_⟩
  · rw [displayCalls_eq calls hbetween hmode, ht]
    rfl
  · exact hglyphs.trans (congrArg (· ++ _) (List.append_nil _))

theorem attributesShown_of_flushes {e : Setting} (he : e.Narrow) {calls : List DisplayCall} {s : DisplayState}
    (hmode : s.curHexMode = false)
    (h : ∀ f ∈ flushes e (calls.flatMap (·.chars e)) (displayBol e s), FlushFits e f ∧ ∀ k ∈ keeps e f, Stays id k)
    (offset1 offset2 : Int) :
    AttributesShown e calls s offset1 offset2 := by
  have hbetween := between_displayBol e s
  obtain ⟨cs, hcs⟩ : ∃ cs, cs = calls.flatMap (·.chars e) := ⟨_, rfl⟩
  have hcalls := displayCalls_eq calls hbetween hmode
  rw [AttributesShown, wholeGlyphs]
  rw [← hcs] at h hcalls ⊢
  obtain ⟨t, ht⟩ := hbetween.displayChars_isSome he cs fun f hf => (h f (List.mem_append_left _ hf)).1
  have hfits := (h t.asText (List.mem_append_right _ (by rw [ht]; exact List.mem_singleton_self _))).1
  have hlast := (hbetween.displayChars cs ht).asText.toOk
  obtain ⟨u, hu⟩ := Option.isSome_iff_exists.1 ((flushFragment_isSome_iff hlast (hlast.measures he)).2 hfits)
  obtain ⟨hok, hwhole⟩ := showLine_glyphs (fun f hf => (h f hf).2) ht hu
  rw [List.map_id, List.map_id, List.map_id] at hwhole
  have hrow : u.fragments.flatMap u.arrays.ofFragment = u.pending := row_eq u.arrays hok.tiled
  rw [ht] at hcalls
  have hat : Offers e t t.asText := Offers.of_eq rfl rfl rfl
  obtain ⟨new, hrows, hcalls', -⟩ := ((Offers.displayChars cs ht).trans hat).trans (Offers.flushFragment hu)
  have hrows : u.rows = s.rows ++ new := hrows
  have hcalls' : u.calls = s.calls ++ offerRows e s.lineNum new := hcalls'
  have hoffered : offered u.calls = offered s.calls ++ new.flatten.flatMap (offer e) := by
    rw [hcalls', ← offered_offerRows e s.lineNum new, offered, List.map_append]
    rfl
  have hall : (new ++ [u.pending]).flatten = (flushes e cs (displayBol e s)).flatMap (·.added e) := by
    rw [DisplayState.glyphs, hrows, List.flatten_append, List.append_assoc] at hwhole
    rw [List.flatten_append, List.flatten_singleton]
    exact List.append_cancel_left hwhole
  refine ⟨flushLine e u u.fragments offset1 offset2, new ++ [u.pending], ?_, ?_, hall, ?_⟩
  · rw [hcalls, Option.map_some, Option.bind_some, displayEol, hu]
    rfl
  · rw [flushLine, hrow, hrows, List.append_assoc]
  · rw [← hall, flushLine, hrow, List.flatten_append, List.flatten_singleton, List.flatMap_append, ← List.append_assoc, ← hoffered,
      ← offered_offerGlyphs e u.lineNum u.pending e.xDisp, offered, List.map_append, List.map_append]
    refine congrArg₂ (· ++ ·) rfl ?_
    split_ifs <;> rfl

/-- The glyphs keep their attributes at every moment, after any number of calls, and in the end on the rows and where they are offered,
just when each word of the line fits where it is added, and leaves the glyphs their hex modes where the row is broken for it. -/
theorem attributes_stay_iff {e : Setting} (he : e.Narrow) {s : DisplayState} (hmode : s.curHexMode = false) (calls : List DisplayCall)
    (offset1 offset2 : Int) :
    ((∀ f ∈ flushes e (calls.flatMap (·.chars e)) (displayBol e s), GlyphsStay e f) ∧
      (∀ m, AttributesStay e (calls.take m) s) ∧ AttributesShown e calls s offset1 offset2 ∧
      (flushes e (calls.flatMap (·.chars e)) (displayBol e s)).flatMap (·.fragment) =
        (calls.flatMap (·.chars e)).map CharCall.stored) ↔
      AllWords e (fun r w => r.Fits e w ∧ r.KeepsModes e w) (calls.flatMap (·.chars e)) := by
  rw [← (tests_modes he).line_iff showsWidth_id he _ s]
  have hstay : ∀ f ∈ flushes e (calls.flatMap (·.chars e)) (displayBol e s),
      GlyphsStay e f ↔ FlushFits e f ∧ ∀ k ∈ keeps e f, Stays id k := fun f hf =>
    glyphsStay_iff he ((between_displayBol e s).flushes _ f hf)
  constructor
  · exact fun h f hf => (hstay f hf).1 (h.1 f hf)
  · intro h
    have hchars : ∀ f ∈ charsFlushes e (calls.flatMap (·.chars e)) (displayBol e s),
        FlushFits e f ∧ ∀ k ∈ keeps e f, Stays id k := fun f hf => h f (List.mem_append_left _ hf)
    exact ⟨fun f hf => (hstay f hf).2 (h f hf),
      fun m => attributesStay_of_flushes he hmode fun f hf => hchars f (mem_charsFlushes_take m hf),
      attributesShown_of_flushes he hmode h offset1 offset2, fragments_of_flushes he fun f hf => (hchars f hf).1⟩

/-! ### A line of a letter and of digits -/

/-- Six digits. -/
def digitCalls : List DisplayCall := [.printhex 0 1 0x4142 4, .printhex 1 2 0x43 2]

/-- A letter, four digits and a space. -/
def mixedCalls : List DisplayCall := [.char 0 1 0x61, .printhex 1 2 0x4142 4, .char 2 3 0x20]

/-- With digits only each glyph has the hex mode of the others. -/
theorem attributes_stay_digits :
    (∀ f ∈ flushes (plainWindow .line 3) (digitCalls.flatMap (·.chars (plainWindow .line 3)))
        (displayBol (plainWindow .line 3) blankState), GlyphsStay (plainWindow .line 3) f) ∧
      (∀ m, AttributesStay (plainWindow .line 3) (digitCalls.take m) blankState) ∧
      AttributesShown (plainWindow .line 3) digitCalls blankState 2 3 ∧
      (flushes (plainWindow .line 3) (digitCalls.flatMap (·.chars (plainWindow .line 3)))
        (displayBol (plainWindow .line 3) blankState)).flatMap (·.fragment) =
        (digitCalls.flatMap (·.chars (plainWindow .line 3))).map CharCall.stored :=
  (attributes_stay_iff (narrow_plainWindow .line 3) rfl digitCalls 2 3).2 (by decide +kernel)

/-- The row takes three of the glyphs, and the digit that becomes the first one of the next row has the hex mode of the letter
then. -/
theorem not_attributesStay : ¬AttributesStay (plainWindow .line 3) mixedCalls blankState := by
  rintro ⟨t, ht, hglyphs⟩
  have hsame : (displayCalls (plainWindow .line 3) mixedCalls (displayBol (plainWindow .line 3) blankState)).map
      DisplayState.glyphs = some (lineGlyphs (plainWindow .line 3) mixedCalls blankState) := by
    rw [ht]
    exact congrArg some hglyphs
  revert hsame
  decide +kernel

end Layout

end Hoe
