import Hoe.Rows
import Mathlib.Algebra.BigOperators.Ring.Finset
import Mathlib.Algebra.Order.BigOperators.Group.List
import Mathlib.Algebra.Order.Group.Int
import Mathlib.Algebra.Order.Group.Nat

/-!
# The layout of a line

What the arrays of a row hold, as lists of glyphs: a fragment adds its glyphs to those that are pending, and each row that is flushed
takes some from the front. What is kept of a glyph when the others are moved to the front depends on what is looked at: all but
the hex mode moves with it.
-/

namespace Hoe

namespace Layout

open TextDisplay (WrapType maxScreenWidth maxWordSize styleShift styleSel tab space)

/-- The glyphs that are in the arrays and on no row yet. -/
def DisplayState.pending (s : DisplayState) : List Glyph := s.arrays.glyphs 0 s.lineIndex

/-- The glyphs of the line so far: those on the rows, and the pending ones. -/
def DisplayState.glyphs (s : DisplayState) : List Glyph := s.rows.flatten ++ s.pending

/-- The glyphs of the current fragment. -/
def DisplayState.made (e : Setting) (s : DisplayState) : List Glyph := s.fragment.map (·.glyph e s.x)

/-- A glyph without its hex mode. -/
def Glyph.bare (g : Glyph) : Glyph := { g with hexMode := false }

/-- A tab is alone in its fragment. -/
def TabAlone (cs : List FragmentChar) : Prop := (∃ c ∈ cs, c.ch = tab) → cs.length = 1

/-- The fragments lie side by side in the arrays between two indices. -/
def Tiled : Nat → List TextDisplay.TextFragment → Nat → Prop
  | i, [], n => i = n
  | i, f :: fs, n => f.lineIndex = i ∧ Tiled (i + f.len) fs n

/-! ## Shorts -/

@[simp] theorem short_short (w : Int) : short (short w) = short w := Int.bmod_bmod

/-- What is in the range of a short is kept. -/
theorem short_eq {w : Int} (hlow : -32768 ≤ w) (hhigh : w ≤ 32767) : short w = w := by
  exact Int.bmod_eq_of_le hlow (Int.lt_add_one_iff.2 hhigh)

/-! ## Fragments side by side -/

theorem Tiled.le {i n : Nat} {fs : List TextDisplay.TextFragment} (h : Tiled i fs n) : i ≤ n := by
  induction fs generalizing i with
  | nil => exact Nat.le_of_eq h
  | cons f fs ih => exact Nat.le_trans (Nat.le_add_right i f.len) (ih h.2)

theorem tiled_append {i n : Nat} {a b : List TextDisplay.TextFragment} :
    Tiled i (a ++ b) n ↔ ∃ m, Tiled i a m ∧ Tiled m b n := by
  induction a generalizing i with
  | nil =>
    constructor
    · exact fun h => ⟨i, rfl, h⟩
    · rintro ⟨m, hm, h⟩
      exact hm ▸ h
  | cons f a ih =>
    constructor
    · rintro ⟨hf, h⟩
      obtain ⟨m, ha, hb⟩ := ih.1 h
      exact ⟨m, ⟨hf, ha⟩, hb⟩
    · rintro ⟨m, ⟨hf, ha⟩, hb⟩
      exact ⟨hf, ih.2 ⟨m, ha, hb⟩⟩

/-- The fragments are moved to the front by the same amount. -/
theorem Tiled.shift {i n k : Nat} {fs : List TextDisplay.TextFragment} (h : Tiled i fs n) (hk : k ≤ i) :
    Tiled (i - k) (fs.map fun f => { f with lineIndex := f.lineIndex - k }) (n - k) := by
  induction fs generalizing i with
  | nil => exact congrArg (· - k) h
  | cons f fs ih =>
    refine ⟨congrArg (· - k) h.1, ?_⟩
    have hrest := ih h.2 (Nat.le_trans hk (Nat.le_add_right i f.len))
    rw [Nat.sub_add_comm hk] at hrest
    exact hrest

/-- Fragments of one glyph at least. -/
theorem Tiled.length_le {i n : Nat} {fs : List TextDisplay.TextFragment} (h : Tiled i fs n) (hlong : ∀ f ∈ fs, 1 ≤ f.len) :
    i + fs.length ≤ n := by
  induction fs generalizing i with
  | nil => exact Nat.le_of_eq h
  | cons f fs ih =>
    have hf := hlong f List.mem_cons_self
    have hrest := ih h.2 fun g hg => hlong g (List.mem_cons_of_mem _ hg)
    rw [List.length_cons]
    omega

/-! ## Arrays -/

theorem LineArrays.length_glyphs (a : LineArrays) (i n : Nat) : (a.glyphs i n).length = n := by
  rw [LineArrays.glyphs, List.length_map, List.length_range']

theorem LineArrays.glyphs_add (a : LineArrays) (i m n : Nat) : a.glyphs i (m + n) = a.glyphs i m ++ a.glyphs (i + m) n := by
  rw [LineArrays.glyphs, ← List.range'_append_1, List.map_append]
  rfl

/-- Two arrays with the same at some places, of which one may begin further on. -/
theorem LineArrays.map_glyphs_congr {α : Type} {p : Glyph → α} {a b : LineArrays} {i k n : Nat}
    (h : ∀ j < n, p (a.glyph (i + j)) = p (b.glyph (k + j))) : (a.glyphs i n).map p = (b.glyphs k n).map p := by
  induction n generalizing i k with
  | zero => rfl
  | succ n ih =>
    rw [LineArrays.glyphs, LineArrays.glyphs, List.range'_succ, List.range'_succ, List.map_cons, List.map_cons, List.map_cons,
      List.map_cons]
    have hrest := ih (i := i + 1) (k := k + 1) fun j hj => by
      rw [Nat.add_assoc, Nat.add_assoc, Nat.add_comm 1 j]
      exact h (j + 1) (Nat.succ_lt_succ hj)
    exact congrArg₂ List.cons (h 0 (Nat.succ_pos n)) hrest

theorem LineArrays.glyphs_congr {a b : LineArrays} {i k n : Nat} (h : ∀ j < n, a.glyph (i + j) = b.glyph (k + j)) :
    a.glyphs i n = b.glyphs k n := by
  have hsame := LineArrays.map_glyphs_congr (p := id) h
  rwa [List.map_id, List.map_id] at hsame

/-- A row of fragments side by side. -/
theorem row_eq (a : LineArrays) {i n : Nat} {fs : List TextDisplay.TextFragment} (h : Tiled i fs n) :
    fs.flatMap a.ofFragment = a.glyphs i (n - i) := by
  induction fs generalizing i with
  | nil =>
    rw [← show i = n from h, Nat.sub_self]
    rfl
  | cons f fs ih =>
    obtain ⟨hf, hrest⟩ := h
    have hle := hrest.le
    rw [List.flatMap_cons, ih hrest, LineArrays.ofFragment, hf, ← LineArrays.glyphs_add]
    exact congrArg _ (by omega)

theorem writeAt_of_lt {α : Type} (f : Nat → α) (values : List α) {i j : Nat} (h : j < i) : writeAt f i values j = f j :=
  if_neg (Nat.not_le.2 h)

theorem writeAt_of_le {α : Type} (f : Nat → α) (values : List α) {i j : Nat} (h : i + values.length ≤ j) :
    writeAt f i values j = f j := by
  rw [writeAt, if_pos (Nat.le_of_add_right_le h), List.getElem?_eq_none (by omega)]
  rfl

theorem writeAt_add {α : Type} (f : Nat → α) (i : Nat) (values : List α) {k : Nat} (h : k < values.length) :
    writeAt f i values (i + k) = values[k] := by
  rw [writeAt, if_pos (Nat.le_add_right i k), Nat.add_sub_cancel_left, List.getElem?_eq_getElem h]
  rfl

/-! ## A fragment -/

theorem LineArrays.merge_of_ne (a : LineArrays) {i j : Nat} (c : FragmentChar) (h : i ≠ j) :
    (a.merge j c).offsets i = a.offsets i ∧ (a.merge j c).hexMode i = a.hexMode i :=
  ⟨Function.update_of_ne h _ _, Function.update_of_ne h _ _⟩

theorem LineArrays.merge_fresh (a : LineArrays) {j : Nat} (c : FragmentChar) (h : a.offsets j = (-1, -1)) :
    (a.merge j c).offsets j = (c.offset1, c.offset2) ∧ (a.merge j c).hexMode j = c.hexMode := by
  constructor
  · rw [LineArrays.merge]
    dsimp only
    rw [Function.update_self, h, if_pos (Or.inl rfl), if_pos (Or.inl rfl)]
  · exact Function.update_self _ _ _

/-- The loop stores what the characters have where their glyphs are, and nothing elsewhere. -/
structure Merged (lineIndex i : Nat) (cs : List FragmentChar) (a b : LineArrays) : Prop where
  chars : b.chars = a.chars
  widths : b.widths = a.widths
  outside : ∀ j, j < lineIndex + i ∨ lineIndex + i + cs.length ≤ j → b.offsets j = a.offsets j ∧ b.hexMode j = a.hexMode j
  inside : ∀ k (hk : k < cs.length),
    b.offsets (lineIndex + i + k) = (cs[k].offset1, cs[k].offset2) ∧ b.hexMode (lineIndex + i + k) = cs[k].hexMode

theorem mergeChars_spec (lineIndex : Nat) {m i : Nat} {cs : List FragmentChar} {a : LineArrays} (hm : i + cs.length ≤ m)
    (ha : ∀ j, lineIndex + i ≤ j → j < lineIndex + i + cs.length → a.offsets j = (-1, -1)) :
    ∃ b, mergeChars lineIndex (List.range m) i cs a = some b ∧ Merged lineIndex i cs a b := by
  induction cs generalizing i a with
  | nil => exact ⟨a, rfl, rfl, rfl, fun _ _ => ⟨rfl, rfl⟩, fun k hk => absurd hk (Nat.not_lt_zero k)⟩
  | cons c cs ih =>
    rw [List.length_cons] at hm ha
    have hset : (List.range m)[i]? = some i := List.getElem?_range (by omega)
    have hnext := LineArrays.merge_fresh a c (ha (lineIndex + i) (Nat.le_refl _) (by omega))
    obtain ⟨b, hb, hmerged⟩ := ih (i := i + 1) (a := a.merge (lineIndex + i) c) (by omega) (by
      intro j hlow hhigh
      rw [(LineArrays.merge_of_ne a c (by omega)).1]
      exact ha j (by omega) (by omega))
    refine ⟨b, ?_, hmerged.chars, hmerged.widths, fun j hj => ?_, fun k hk => ?_⟩
    · rw [mergeChars, hset]
      exact hb
    · rw [List.length_cons] at hj
      have hkept := hmerged.outside j (by omega)
      have hother := LineArrays.merge_of_ne a (i := j) (j := lineIndex + i) c (by omega)
      exact ⟨hkept.1.trans hother.1, hkept.2.trans hother.2⟩
    · cases k with
      | zero =>
        have hkept := hmerged.outside (lineIndex + i) (Or.inl (by omega))
        exact ⟨hkept.1.trans hnext.1, hkept.2.trans hnext.2⟩
      | succ k =>
        have hinside := hmerged.inside k (Nat.lt_of_succ_lt_succ hk)
        rw [show lineIndex + (i + 1) + k = lineIndex + i + (k + 1) by omega] at hinside
        exact hinside

/-- Where not all characters have a glyph, a place is read that was not set. -/
theorem mergeChars_none (lineIndex : Nat) {m i : Nat} {cs : List FragmentChar} {a : LineArrays} (hi : i ≤ m)
    (hm : m < i + cs.length) : mergeChars lineIndex (List.range m) i cs a = none := by
  induction cs generalizing i a with
  | nil => exact absurd hm (Nat.not_lt.2 hi)
  | cons c cs ih =>
    rw [List.length_cons] at hm
    rw [mergeChars]
    rcases Nat.lt_or_eq_of_le hi with hlt | heq
    · rw [List.getElem?_range hlt]
      exact ih hlt (by omega)
    · rw [List.getElem?_eq_none (Nat.le_of_eq (List.length_range.trans heq.symm))]
      rfl

theorem FragmentChar.glyph_of_tab (e : Setting) (x : Int) {c : FragmentChar} (h : c.ch = tab) :
    c.glyph e x = ⟨space, c.offset1, c.offset2, short (tabColumns e x), c.hexMode⟩ := if_pos h

theorem FragmentChar.glyph_of_ne (e : Setting) (x : Int) {c : FragmentChar} (h : c.ch ≠ tab) :
    c.glyph e x = ⟨c.ch, c.offset1, c.offset2, short (e.glyphWidth c.ch), c.hexMode⟩ := if_neg h

theorem DisplayState.length_made (e : Setting) (s : DisplayState) : (s.made e).length = s.fragment.length := List.length_map _

/-- The fragment is added after what is pending. -/
structure Added (e : Setting) (s t : DisplayState) : Prop where
  fragments : t.fragments = s.fragments ++ [⟨s.lineIndex, s.fragment.length, short (columns (s.made e))⟩]
  x : t.x = s.x + short (columns (s.made e))
  lineIndex : t.lineIndex = s.lineIndex + s.fragment.length
  outside : ∀ j, j < s.lineIndex ∨ s.lineIndex + s.fragment.length ≤ j → t.arrays.glyph j = s.arrays.glyph j
  inside : t.arrays.glyphs s.lineIndex s.fragment.length = s.made e
  others : ∃ a, t = { s with arrays := a, fragments := t.fragments, x := t.x, lineIndex := t.lineIndex }

/-- The widths are set where the glyphs are, and a tab becomes a space. -/
theorem measure_spec (e : Setting) (x : Int) {a : LineArrays} {i : Nat} {cs : List FragmentChar} (hne : cs ≠ [])
    (htab : TabAlone cs) (hchars : ∀ k (hk : k < cs.length), a.chars (i + k) = cs[k].ch)
    (hstored : ∀ k (hk : k < cs.length),
      a.offsets (i + k) = (cs[k].offset1, cs[k].offset2) ∧ a.hexMode (i + k) = cs[k].hexMode) :
    (measure e x a i cs.length).1.glyphs i cs.length = cs.map (·.glyph e x) ∧
      short (measure e x a i cs.length).2 = short (columns (cs.map (·.glyph e x))) ∧
      ∀ j, j < i ∨ i + cs.length ≤ j → (measure e x a i cs.length).1.glyph j = a.glyph j := by
  obtain ⟨c, rest, rfl⟩ := List.exists_cons_of_ne_nil hne
  have hfirst : a.chars i = c.ch := hchars 0 (Nat.succ_pos _)
  rw [measure, hfirst]
  by_cases hc : c.ch = tab
  · have hone : rest = [] := List.length_eq_zero_iff.1 (Nat.succ.inj (htab ⟨c, List.mem_cons_self, hc⟩))
    subst hone
    have hglyph := FragmentChar.glyph_of_tab e x hc
    obtain ⟨hoffsets, hhex⟩ := hstored 0 (Nat.succ_pos _)
    rw [if_pos hc]
    refine ⟨?_, ?_, fun j hj => ?_⟩
    · rw [List.map_singleton, hglyph]
      refine congrArg (fun g => [g]) ?_
      rw [LineArrays.glyph]
      dsimp only
      rw [Function.update_self, Function.update_self, show a.offsets i = _ from hoffsets, show a.hexMode i = _ from hhex]
      rfl
    · rw [List.map_singleton, hglyph, columns, List.map_singleton, List.sum_singleton, short_short]
      rfl
    · have hji : j ≠ i := by
        rintro rfl
        exact hj.elim (Nat.lt_irrefl j) fun h => Nat.not_succ_le_self j h
      rw [LineArrays.glyph, LineArrays.glyph]
      dsimp only
      rw [Function.update_of_ne hji, Function.update_of_ne hji]
  · rw [if_neg hc]
    obtain ⟨cs, hcs⟩ : ∃ cs, cs = c :: rest := ⟨_, rfl⟩
    rw [← hcs] at htab hchars hstored ⊢
    have hplain : ∀ d ∈ cs, d.ch ≠ tab := by
      intro d hd hdtab
      have hlen := htab ⟨d, hd, hdtab⟩
      rw [hcs, List.length_cons] at hlen
      rw [hcs, List.length_eq_zero_iff.1 (Nat.succ.inj hlen)] at hd
      exact hc (List.mem_singleton.1 hd ▸ hdtab)
    obtain ⟨widths, hwidths⟩ : ∃ widths, widths = (List.range' i cs.length).map fun j => short (e.glyphWidth (a.chars j)) := ⟨_, rfl⟩
    have hlength : widths.length = cs.length := by
      rw [hwidths, List.length_map, List.length_range']
    have hat : ∀ k (hk : k < cs.length) (hw : k < widths.length), widths[k] = short (e.glyphWidth cs[k].ch) := by
      intro k hk hw
      simp only [hwidths, List.getElem_map, List.getElem_range', Nat.one_mul]
      rw [hchars k hk]
    rw [← hwidths]
    refine ⟨?_, ?_, fun j hj => ?_⟩
    · refine List.ext_getElem ?_ fun k hk hk' => ?_
      · rw [LineArrays.length_glyphs, List.length_map]
      · rw [LineArrays.length_glyphs] at hk
        have hglyph := FragmentChar.glyph_of_ne e x (hplain cs[k] (List.getElem_mem hk))
        simp only [LineArrays.glyphs, List.getElem_map, List.getElem_range', Nat.one_mul, LineArrays.glyph]
        rw [hglyph, hchars k hk, (hstored k hk).1, (hstored k hk).2, writeAt_add _ _ _ (hlength.symm ▸ hk), hat k hk _]
    · refine congrArg (fun ws => short (List.sum ws)) (List.ext_getElem ?_ fun k hk hk' => ?_)
      · rw [hlength, List.length_map, List.length_map]
      · rw [hlength] at hk
        rw [hat k hk _, List.getElem_map, List.getElem_map, FragmentChar.glyph_of_ne e x (hplain cs[k] (List.getElem_mem hk))]
    · rw [LineArrays.glyph, LineArrays.glyph]
      dsimp only
      rcases hj with hj | hj
      · rw [writeAt_of_lt _ _ hj]
      · rw [writeAt_of_le _ _ (hlength.symm ▸ hj)]

/-- Where there is room for the fragment, its glyphs are added to the row. -/
theorem addFragment_spec (e : Setting) {s : DisplayState} (hne : s.fragment ≠ []) (htab : TabAlone s.fragment)
    (hroom : s.lineIndex + s.fragment.length ≤ maxScreenWidth) : ∃ t, addFragment e s = some t ∧ Added e s t := by
  have hall : (s.fragment.map (·.ch)).take (maxScreenWidth - s.lineIndex) = s.fragment.map (·.ch) :=
    List.take_of_length_le (by rw [List.length_map]; omega)
  have hmin : min (s.fragment.map (·.ch)).length (maxScreenWidth - s.lineIndex) = s.fragment.length := by
    rw [List.length_map]
    omega
  have hlen : (s.fragment.map (·.ch)).length = s.fragment.length := List.length_map _
  rw [addFragment, unicodeToGlyphs, hall, hmin, hlen]
  dsimp only
  obtain ⟨fresh, hfresh⟩ : ∃ fresh : LineArrays, fresh = { s.arrays with
      chars := writeAt s.arrays.chars s.lineIndex (s.fragment.map (·.ch))
      offsets := writeAt s.arrays.offsets s.lineIndex (List.replicate s.fragment.length (-1, -1)) } := ⟨_, rfl⟩
  rw [← hfresh]
  have hunset : ∀ j, s.lineIndex + 0 ≤ j → j < s.lineIndex + 0 + s.fragment.length → fresh.offsets j = (-1, -1) := by
    intro j hlow hhigh
    obtain ⟨k, rfl⟩ := Nat.exists_eq_add_of_le hlow
    rw [Nat.add_zero] at hhigh ⊢
    rw [hfresh]
    dsimp only
    rw [writeAt_add _ _ _ (by rw [List.length_replicate]; omega), List.getElem_replicate]
  obtain ⟨a, ha, hmerged⟩ := mergeChars_spec s.lineIndex (m := s.fragment.length) (i := 0) (a := fresh)
    (Nat.zero_add _).le hunset
  rw [ha]
  obtain ⟨hglyphs, hwidth, houtside⟩ := measure_spec e s.x (a := a) (i := s.lineIndex) hne htab
    (fun k hk => by
      rw [hmerged.chars, hfresh]
      dsimp only
      rw [writeAt_add _ _ _ (hlen.symm ▸ hk), List.getElem_map])
    fun k hk => hmerged.inside k hk
  refine ⟨_, rfl, ?_, ?_, rfl, fun j hj => (houtside j hj).trans ?_, hglyphs, _, rfl⟩
  · exact congrArg (fun w => s.fragments ++ [(⟨s.lineIndex, s.fragment.length, w⟩ : TextDisplay.TextFragment)]) hwidth
  · exact congrArg (s.x + ·) hwidth
  · obtain ⟨hoffsets, hhex⟩ := hmerged.outside j hj
    rw [LineArrays.glyph, LineArrays.glyph, hoffsets, hhex, hmerged.chars, hmerged.widths, hfresh]
    dsimp only
    rcases hj with hj | hj
    · rw [writeAt_of_lt _ _ hj, writeAt_of_lt _ _ hj]
    · rw [writeAt_of_le _ _ (hlen.symm ▸ hj), writeAt_of_le _ _ (by rw [List.length_replicate]; exact hj)]

/-- Where there is too little room, a place is read that was not set. -/
theorem addFragment_none (e : Setting) {s : DisplayState} (hsome : s.lineIndex ≤ maxScreenWidth)
    (hroom : maxScreenWidth < s.lineIndex + s.fragment.length) : addFragment e s = none := by
  have hmin : min (s.fragment.map (·.ch)).length (maxScreenWidth - s.lineIndex) = maxScreenWidth - s.lineIndex := by
    rw [List.length_map]
    omega
  rw [addFragment, unicodeToGlyphs, hmin]
  dsimp only
  rw [mergeChars_none s.lineIndex (Nat.zero_le _) (by omega)]
  rfl

/-! ## Wrapping -/

/-- What is looked at of the glyphs that are kept is still there after `keep_line_chars`. -/
def Stays {α : Type} (p : Glyph → α) (k : DisplayState × Nat) : Prop :=
  ∀ j < k.2, p ((keepLineChars k.1 k.2).arrays.glyph j) = p (k.1.arrays.glyph (k.1.lineIndex - k.2 + j))

/-- The calls of `keep_line_chars` that the loop of `WRAP_LINE` makes. -/
def wrapLineKeeps (e : Setting) : Nat → DisplayState → List (DisplayState × Nat)
  | 0, _ => []
  | n + 1, s =>
    if e.width < s.x then
      match flushRow e s with
      | none => []
      | some r => r :: wrapLineKeeps e n (keepLineChars r.1 r.2)
    else []

/-- The call that `WRAP_WORD` makes. -/
def wrapWordKeeps (e : Setting) (s : DisplayState) : List (DisplayState × Nat) :=
  if e.width < s.x then (flushWords e s).toList else []

/-- The calls that the `switch` makes. -/
def wrapRowsKeeps (e : Setting) (s : DisplayState) : List (DisplayState × Nat) :=
  match e.wrap with
  | .truncate => []
  | .line => wrapLineKeeps e (((s.fragments.getLast?).map (·.len)).getD 0 + 2) s
  | .word => wrapWordKeeps e s

/-- The calls that `flush_fragment` makes. -/
def keeps (e : Setting) (s : DisplayState) : List (DisplayState × Nat) :=
  if s.fragment = [] ∨ maxScreenWidth ≤ s.fragments.length ∨ maxScreenWidth ≤ s.lineIndex then []
  else (addFragment e (updateWord s)).elim [] (wrapRowsKeeps e)

theorem keepLineChars_glyph (s : DisplayState) {n j : Nat} (hj : j < n) :
    (keepLineChars s n).arrays.glyph j = { s.arrays.glyph (s.lineIndex - n + j) with hexMode := s.arrays.hexMode j } := by
  rw [LineArrays.glyph, LineArrays.glyph, keepLineChars, Nat.add_comm]
  dsimp only
  rw [moveToFront, moveToFront, moveToFront, if_pos hj, if_pos hj, if_pos hj]

/-- The characters, the offsets and the widths are moved. -/
theorem stays_bare (k : DisplayState × Nat) : Stays Glyph.bare k := by
  intro j hj
  rw [keepLineChars_glyph k.1 hj]
  rfl

/-- The hex modes are not, so that they have to be the same already. -/
theorem stays_id_iff (k : DisplayState × Nat) :
    Stays id k ↔ ∀ j < k.2, k.1.arrays.hexMode j = k.1.arrays.hexMode (k.1.lineIndex - k.2 + j) := by
  refine forall₂_congr fun j hj => ?_
  rw [keepLineChars_glyph k.1 hj]
  constructor
  · exact fun h => congrArg Glyph.hexMode h
  · intro h
    rw [h]
    rfl

/-- A row is flushed from the front, and the fragments that remain are those of the glyphs that are kept. -/
structure Flushed (s : DisplayState) (k : DisplayState × Nat) : Prop where
  le : k.2 ≤ s.lineIndex
  rows : k.1.rows = s.rows ++ [s.arrays.glyphs 0 (s.lineIndex - k.2)]
  arrays : k.1.arrays = s.arrays
  lineIndex : k.1.lineIndex = s.lineIndex
  tiled : Tiled 0 k.1.fragments k.2
  long : (∀ f ∈ s.fragments, 1 ≤ f.len) → ∀ f ∈ k.1.fragments, 1 ≤ f.len
  others : k.1 = { s with
    rows := k.1.rows, calls := k.1.calls, lineNum := k.1.lineNum, fragments := k.1.fragments, x := k.1.x }

/-- No glyph is lost when the others are moved to the front. -/
theorem Flushed.glyphs {α : Type} {p : Glyph → α} {s : DisplayState} {k : DisplayState × Nat} (h : Flushed s k)
    (hstays : Stays p k) : (keepLineChars k.1 k.2).glyphs.map p = s.glyphs.map p := by
  have hsplit := LineArrays.glyphs_add s.arrays 0 (s.lineIndex - k.2) k.2
  rw [Nat.sub_add_cancel h.le] at hsplit
  have hkept : ((keepLineChars k.1 k.2).arrays.glyphs 0 k.2).map p =
      (s.arrays.glyphs (0 + (s.lineIndex - k.2)) k.2).map p := by
    refine LineArrays.map_glyphs_congr fun j hj => ?_
    have hj' := hstays j hj
    rw [h.arrays, h.lineIndex] at hj'
    rw [Nat.zero_add, Nat.zero_add]
    exact hj'
  have hrows : (keepLineChars k.1 k.2).rows = k.1.rows := rfl
  have hpending : (keepLineChars k.1 k.2).pending = (keepLineChars k.1 k.2).arrays.glyphs 0 k.2 := rfl
  rw [DisplayState.glyphs, DisplayState.glyphs, hrows, hpending, h.rows, List.map_append, hkept, DisplayState.pending, hsplit,
    ← List.map_append, List.flatten_append, List.flatten_singleton, List.append_assoc]

/-- What the inner loop leaves in the row, and where the row ends with it. -/
theorem fitLen_spec (a : LineArrays) (i : Nat) (width : Int) {len : Nat} {x : Int} {fit : Nat × Int}
    (h : fitLen a.widths i width len x = some fit) :
    fit.1 ≤ len ∧ fit.2 = x - columns (a.glyphs (i + fit.1) (len - fit.1)) := by
  induction len generalizing x with
  | zero =>
    rw [fitLen] at h
    split_ifs at h with hx
    rw [← Option.some.inj h]
    exact ⟨Nat.le_refl 0, (Int.sub_zero x).symm⟩
  | succ len ih =>
    have hnone : x = x - columns (a.glyphs (i + (len + 1)) (len + 1 - (len + 1))) := by
      rw [Nat.sub_self]
      exact (Int.sub_zero x).symm
    rw [fitLen] at h
    dsimp only at h
    split_ifs at h with hx hone
    · rw [← Option.some.inj h]
      exact ⟨Nat.le_refl _, hnone⟩
    · rw [← Option.some.inj h]
      refine ⟨Nat.succ_le_succ (Nat.zero_le len), ?_⟩
      rw [hone.1] at hnone ⊢
      exact hnone
    · obtain ⟨hle, hcolumns⟩ := ih h
      refine ⟨Nat.le_succ_of_le hle, ?_⟩
      have hsplit := LineArrays.glyphs_add a (i + fit.1) (len - fit.1) 1
      rw [show len - fit.1 + 1 = len + 1 - fit.1 by omega, show i + fit.1 + (len - fit.1) = i + len by omega] at hsplit
      have hlast : columns (a.glyphs (i + len) 1) = a.widths (i + len) := Int.add_zero _
      rw [hsplit, columns, List.map_append, List.sum_append, hcolumns]
      rw [columns] at hlast
      rw [hlast, columns]
      omega

/-- The last fragment is where the row ends. -/
theorem last_fragment {s : DisplayState} (h : Tiled 0 s.fragments s.lineIndex) {frag : TextDisplay.TextFragment}
    (hfrag : s.fragments.getLast? = some frag) :
    Tiled 0 s.fragments.dropLast frag.lineIndex ∧ frag.lineIndex + frag.len = s.lineIndex := by
  rw [← List.dropLast_append_getLast? frag hfrag] at h
  obtain ⟨m, hfront, hm, hend⟩ := tiled_append.1 h
  exact ⟨hm ▸ hfront, hm ▸ hend⟩

theorem flushRow_spec (e : Setting) {s : DisplayState} (h : Tiled 0 s.fragments s.lineIndex) {k : DisplayState × Nat}
    (hk : flushRow e s = some k) : Flushed s k := by
  rw [flushRow] at hk
  obtain ⟨frag, hfrag, hk⟩ := Option.bind_eq_some_iff.1 hk
  obtain ⟨fit, hfit, hk⟩ := Option.bind_eq_some_iff.1 hk
  obtain ⟨hle, -⟩ := fitLen_spec s.arrays frag.lineIndex e.width hfit
  obtain ⟨hfront, hend⟩ := last_fragment h hfrag
  have hrow : Tiled 0 (s.fragments.dropLast ++ if fit.1 = 0 then [] else
      [{ frag with len := fit.1, width := short (frag.width - (s.x - fit.2)) }]) (s.lineIndex - (frag.len - fit.1)) := by
    refine tiled_append.2 ⟨frag.lineIndex, hfront, ?_⟩
    split_ifs with hzero
    · exact show frag.lineIndex = s.lineIndex - (frag.len - fit.1) by omega
    · exact ⟨rfl, show frag.lineIndex + fit.1 = s.lineIndex - (frag.len - fit.1) by omega⟩
  rw [← Option.some.inj hk]
  refine ⟨show frag.len - fit.1 ≤ s.lineIndex by omega, ?_, rfl, rfl, ?_, ?_, rfl⟩
  · exact congrArg (fun row => s.rows ++ [row]) (row_eq s.arrays hrow)
  · dsimp only
    split_ifs with hrest
    · exact ⟨rfl, Nat.zero_add _⟩
    · exact (Nat.eq_zero_of_not_pos hrest).symm
  · intro _ f hf
    dsimp only at hf
    split_ifs at hf with hrest
    · rw [List.mem_singleton.1 hf]
      exact hrest
    · cases hf

theorem flushWords_spec (e : Setting) {s : DisplayState} (h : Tiled 0 s.fragments s.lineIndex) {k : DisplayState × Nat}
    (hk : flushWords e s = some k) : Flushed s k := by
  rw [flushWords] at hk
  obtain ⟨frag, hfrag, hk⟩ := Option.bind_eq_some_iff.1 hk
  rw [← List.take_append_drop s.wordIndex s.fragments] at h
  obtain ⟨m, hfront, hback⟩ := tiled_append.1 h
  obtain ⟨hlt, hget⟩ := List.getElem?_eq_some_iff.1 hfrag
  have hm : frag.lineIndex = m := by
    rw [List.drop_eq_getElem_cons hlt, hget] at hback
    exact hback.1
  have hle := hback.le
  rw [← Option.some.inj hk]
  refine ⟨Nat.sub_le _ _, ?_, rfl, rfl, ?_, ?_, rfl⟩
  · have hrow := row_eq s.arrays hfront
    refine congrArg (fun row => s.rows ++ [row]) (hrow.trans (congrArg (s.arrays.glyphs 0) ?_))
    rw [hm]
    omega
  · have hrest := hback.shift (Nat.le_refl m)
    rw [Nat.sub_self] at hrest
    rw [hm]
    exact hrest
  · intro hlong f hf
    obtain ⟨g, hg, rfl⟩ := List.mem_map.1 hf
    exact hlong g (List.mem_of_mem_drop hg)

/-- What the wrapping of a row leaves: the glyphs are the same, on the rows or pending. -/
structure Wrapped {α : Type} (p : Glyph → α) (s t : DisplayState) : Prop where
  tiled : Tiled 0 t.fragments t.lineIndex
  glyphs : t.glyphs.map p = s.glyphs.map p
  lineIndex : t.lineIndex ≤ s.lineIndex
  long : (∀ f ∈ s.fragments, 1 ≤ f.len) → ∀ f ∈ t.fragments, 1 ≤ f.len
  others : t = { s with
    rows := t.rows, calls := t.calls, lineNum := t.lineNum, fragments := t.fragments, x := t.x, arrays := t.arrays
    lineIndex := t.lineIndex, wordIndex := t.wordIndex }

theorem wrapLine_spec {α : Type} {p : Glyph → α} (e : Setting) {n : Nat} {s t : DisplayState}
    (h : Tiled 0 s.fragments s.lineIndex) (hstays : ∀ k ∈ wrapLineKeeps e n s, Stays p k) (ht : wrapLine e n s = some t) :
    Wrapped p s t ∧ t.x ≤ e.width ∧ t.wordIndex = s.wordIndex := by
  induction n generalizing s with
  | zero =>
    rw [wrapLine] at ht
    split_ifs at ht with hx
    rw [← Option.some.inj ht]
    exact ⟨⟨h, rfl, Nat.le_refl _, id, rfl⟩, not_lt.1 hx, rfl⟩
  | succ n ih =>
    rw [wrapLine] at ht
    rw [wrapLineKeeps] at hstays
    split_ifs at ht hstays with hx
    · obtain ⟨k, hk, ht⟩ := Option.bind_eq_some_iff.1 ht
      rw [hk] at hstays
      have hflushed := flushRow_spec e h hk
      obtain ⟨hwrapped, hfits, hword⟩ := ih hflushed.tiled (fun k' hk' => hstays k' (List.mem_cons_of_mem k hk')) ht
      refine ⟨⟨hwrapped.tiled, ?_, hwrapped.lineIndex.trans hflushed.le, hwrapped.long ∘ hflushed.long, ?_⟩, hfits,
        hword.trans ?_⟩
      · exact hwrapped.glyphs.trans (hflushed.glyphs (hstays k List.mem_cons_self))
      · rw [hwrapped.others, keepLineChars, hflushed.others]
      · rw [keepLineChars, hflushed.others]
    · rw [← Option.some.inj ht]
      exact ⟨⟨h, rfl, Nat.le_refl _, id, rfl⟩, not_lt.1 hx, rfl⟩

theorem wrapWord_spec {α : Type} {p : Glyph → α} (e : Setting) {s t : DisplayState}
    (h : Tiled 0 s.fragments s.lineIndex) (hstays : ∀ k ∈ wrapWordKeeps e s, Stays p k) (ht : wrapWord e s = some t) :
    Wrapped p s t ∧ (t.wordIndex = 0 ∨ t = s) := by
  rw [wrapWord] at ht
  rw [wrapWordKeeps] at hstays
  split_ifs at ht hstays with hx
  · obtain ⟨k, hk, ht⟩ := Option.map_eq_some_iff.1 ht
    rw [hk] at hstays
    have hflushed := flushWords_spec e h hk
    rw [← ht]
    refine ⟨⟨hflushed.tiled, hflushed.glyphs (hstays k List.mem_cons_self), hflushed.le, hflushed.long, ?_⟩, Or.inl rfl⟩
    dsimp only [keepLineChars]
    rw [hflushed.others]
  · rw [← Option.some.inj ht]
    exact ⟨⟨h, rfl, Nat.le_refl _, id, rfl⟩, Or.inr rfl⟩

/-! ## The end of the loop -/

theorem columns_append (a b : List Glyph) : columns (a ++ b) = columns a + columns b := by
  rw [columns, List.map_append, List.sum_append]
  rfl

theorem columns_nonneg {gs : List Glyph} (h : ∀ g ∈ gs, 0 ≤ g.width) : 0 ≤ columns gs := by
  induction gs with
  | nil => exact Int.le_refl 0
  | cons g gs ih =>
    rw [columns, List.map_cons, List.sum_cons]
    exact Int.add_nonneg (h g List.mem_cons_self) (ih fun g' hg' => h g' (List.mem_cons_of_mem g hg'))

/-- Glyphs of a column at least are no more than the columns that they take. -/
theorem length_le_columns {gs : List Glyph} (h : ∀ g ∈ gs, 1 ≤ g.width) : (gs.length : Int) ≤ columns gs := by
  induction gs with
  | nil => exact Int.le_refl 0
  | cons g gs ih =>
    have hrest := ih fun g' hg' => h g' (List.mem_cons_of_mem g hg')
    have hg := h g List.mem_cons_self
    have hcolumns : columns (g :: gs) = g.width + columns gs := rfl
    rw [hcolumns, List.length_cons]
    omega

theorem columns_last (a : LineArrays) (i n : Nat) : columns (a.glyphs i (n + 1)) = columns (a.glyphs i n) + a.widths (i + n) := by
  rw [LineArrays.glyphs_add, columns_append]
  exact congrArg (columns (a.glyphs i n) + ·) (Int.add_zero _)

/-- What is in front of the last fragment is not wider than the window: then some of the fragment fits, or nothing of it, but
when nothing is in front of it at least one glyph is taken. -/
theorem fitLen_some (a : LineArrays) (i : Nat) {width x : Int} {len : Nat} {front : Int} (hfront : front ≤ width)
    (hx : x = front + columns (a.glyphs i len)) :
    ∃ fit, fitLen a.widths i width len x = some fit ∧ (fit.2 ≤ width ∨ fit.1 = 1 ∧ front = 0) ∧
      (front = 0 → 1 ≤ len → 1 ≤ fit.1) := by
  induction len generalizing x with
  | zero =>
    have hx0 : x ≤ width := by
      rw [hx]
      exact (Int.add_zero front).symm ▸ hfront
    exact ⟨(0, x), if_pos hx0, Or.inl hx0, fun _ h => h⟩
  | succ len ih =>
    rw [columns_last, ← Int.add_assoc] at hx
    have hprev : x - a.widths (i + len) = front + columns (a.glyphs i len) := by omega
    rw [fitLen]
    dsimp only
    split_ifs with hfits hone
    · exact ⟨_, rfl, Or.inl hfits, fun _ _ => Nat.succ_le_succ (Nat.zero_le len)⟩
    · have hempty : columns (a.glyphs i 0) = 0 := rfl
      rw [hone.1, hempty] at hprev
      exact ⟨_, rfl, Or.inr ⟨rfl, by rw [hone.1] at hone; omega⟩, fun _ _ => Nat.le_refl 1⟩
    · obtain ⟨fit, hfit, hends, hpos⟩ := ih hprev
      refine ⟨fit, hfit, hends, fun hzero _ => hpos hzero (Nat.pos_of_ne_zero fun hlen => hone ⟨hlen, ?_⟩)⟩
      rw [hprev, hzero, hlen]
      rfl

/-- Glyphs of which none takes less than no column, or one alone. -/
def Even (gs : List Glyph) : Prop := gs.length = 1 ∨ ∀ g ∈ gs, 0 ≤ g.width

/-- What is in front of the last fragment is wider: a width in front of it would be read. -/
theorem fitLen_none (a : LineArrays) (i : Nat) {width x : Int} {len : Nat} {front : Int} (hfront : width < front)
    (hzero : front ≠ 0) (heven : Even (a.glyphs i len)) (hlong : width < x) (hx : x = front + columns (a.glyphs i len)) :
    fitLen a.widths i width len x = none := by
  have hempty : columns (a.glyphs i 0) = 0 := rfl
  rcases heven with hone | hwidths
  · rw [LineArrays.length_glyphs] at hone
    rw [hone, columns_last] at hx
    rw [hone, fitLen, if_neg (not_le.2 hlong)]
    dsimp only
    rw [if_neg (by omega)]
    exact if_neg (by omega)
  induction len generalizing x with
  | zero => exact if_neg (not_le.2 hlong)
  | succ len ih =>
    rw [LineArrays.glyphs_add] at hwidths
    have hwidths' : ∀ g ∈ a.glyphs i len, 0 ≤ g.width := fun g hg => hwidths g (List.mem_append_left _ hg)
    have hnonneg := columns_nonneg hwidths'
    rw [columns_last, ← Int.add_assoc] at hx
    rw [fitLen, if_neg (not_le.2 hlong)]
    dsimp only
    rw [if_neg]
    · exact ih (by omega) (by omega) hwidths'
    · rintro ⟨rfl, hone⟩
      omega

/-- The row fits then, or is of one glyph of the fragment. -/
theorem fitLen_ends (widths : Nat → Int) (i : Nat) (width : Int) {len : Nat} {x : Int} {fit : Nat × Int}
    (h : fitLen widths i width len x = some fit) : fit.2 ≤ width ∨ fit.1 = 1 := by
  induction len generalizing x with
  | zero =>
    rw [fitLen] at h
    split_ifs at h with hx
    exact Or.inl (Option.some.inj h ▸ hx)
  | succ len ih =>
    rw [fitLen] at h
    dsimp only at h
    split_ifs at h with hx
    · exact Or.inl (Option.some.inj h ▸ hx)
    · exact Or.inr (Option.some.inj h ▸ rfl)
    · exact ih h

theorem flushRow_some (e : Setting) {s : DisplayState} {frag : TextDisplay.TextFragment} (hfrag : s.fragments.getLast? = some frag)
    {fit : Nat × Int} (hfit : fitLen s.arrays.widths frag.lineIndex e.width frag.len s.x = some fit) :
    ∃ k, flushRow e s = some k ∧ k.2 = frag.len - fit.1 := by
  rw [flushRow, hfrag]
  dsimp only [Option.bind_eq_bind, Option.bind_some]
  rw [hfit]
  exact ⟨_, rfl, rfl⟩

theorem flushRow_none (e : Setting) {s : DisplayState} {frag : TextDisplay.TextFragment} (hfrag : s.fragments.getLast? = some frag)
    (hfit : fitLen s.arrays.widths frag.lineIndex e.width frag.len s.x = none) : flushRow e s = none := by
  rw [flushRow, hfrag]
  dsimp only [Option.bind_eq_bind, Option.bind_some]
  rw [hfit]
  rfl

/-- The rest of the last fragment is where the row ends after a turn, and the fragment is the only one then. -/
theorem flushRow_rest (e : Setting) {s : DisplayState} (h : Tiled 0 s.fragments s.lineIndex) {k : DisplayState × Nat}
    (hk : flushRow e s = some k) :
    k.1.x = columns (s.arrays.glyphs (s.lineIndex - k.2) k.2) ∧ k.1.fragments.length ≤ 1 := by
  rw [flushRow] at hk
  obtain ⟨frag, hfrag, hk⟩ := Option.bind_eq_some_iff.1 hk
  obtain ⟨fit, hfit, hk⟩ := Option.bind_eq_some_iff.1 hk
  obtain ⟨hle, hcolumns⟩ := fitLen_spec s.arrays frag.lineIndex e.width hfit
  obtain ⟨-, hend⟩ := last_fragment h hfrag
  have hstart : frag.lineIndex + fit.1 = s.lineIndex - (frag.len - fit.1) := by omega
  rw [hstart] at hcolumns
  rw [← Option.some.inj hk]
  constructor
  · dsimp only
    split_ifs with hrest
    · omega
    · rw [Nat.eq_zero_of_not_pos hrest]
      rfl
  · dsimp only
    split_ifs
    · exact Nat.le_refl 1
    · exact Nat.zero_le 1

/-- The widths are moved with the glyphs. -/
theorem columns_kept (s : DisplayState) (n : Nat) :
    columns (keepLineChars s n).pending = columns (s.arrays.glyphs (s.lineIndex - n) n) := by
  have hsame : ((keepLineChars s n).arrays.glyphs 0 n).map Glyph.width = (s.arrays.glyphs (s.lineIndex - n) n).map Glyph.width :=
    LineArrays.map_glyphs_congr fun j hj => by
      rw [Nat.zero_add, keepLineChars_glyph s hj]
  exact congrArg List.sum hsame

/-- A row with one fragment. -/
structure Alone (s : DisplayState) : Prop where
  tiled : Tiled 0 s.fragments s.lineIndex
  fragments : s.fragments.length ≤ 1
  x : s.x = columns s.pending

theorem Alone.of_flushRow {e : Setting} {s : DisplayState} (h : Tiled 0 s.fragments s.lineIndex) {k : DisplayState × Nat}
    (hk : flushRow e s = some k) : Alone (keepLineChars k.1 k.2) := by
  have hflushed := flushRow_spec e h hk
  obtain ⟨hx, hone⟩ := flushRow_rest e h hk
  refine ⟨hflushed.tiled, hone, ?_⟩
  rw [columns_kept, hflushed.arrays, hflushed.lineIndex]
  exact hx

/-- The fragment has all glyphs of the row. -/
theorem Alone.last {s : DisplayState} (h : Alone s) {frag : TextDisplay.TextFragment} (hfrag : s.fragments.getLast? = some frag) :
    frag.lineIndex = 0 ∧ frag.len = s.lineIndex := by
  obtain ⟨hfront, hend⟩ := last_fragment h.tiled hfrag
  rw [List.length_eq_zero_iff.1 (show s.fragments.dropLast.length = 0 by rw [List.length_dropLast]; have := h.fragments; omega)]
    at hfront
  have hstart : frag.lineIndex = 0 := hfront.symm
  exact ⟨hstart, by omega⟩

/-- A turn for such a row, in a window that has room for none or more columns: something is taken from it. -/
theorem Alone.flushRow {e : Setting} {s : DisplayState} (h : Alone s) (hwidth : 0 ≤ e.width) (hlong : e.width < s.x) :
    ∃ k, flushRow e s = some k ∧ k.2 < s.lineIndex := by
  have htiled := h.tiled
  cases hfrag : s.fragments.getLast? with
  | none =>
    rw [List.getLast?_eq_none_iff.1 hfrag] at htiled
    refine absurd hlong (not_lt.2 ?_)
    rw [h.x, DisplayState.pending, ← show 0 = s.lineIndex from htiled]
    exact hwidth
  | some frag =>
    obtain ⟨hstart, hlen⟩ := h.last hfrag
    have hx : s.x = 0 + columns (s.arrays.glyphs frag.lineIndex frag.len) := by
      rw [Int.zero_add, h.x, DisplayState.pending, hstart, hlen]
    have hpos : 1 ≤ frag.len := by
      refine Nat.pos_of_ne_zero fun hzero => ?_
      rw [hx, hzero] at hlong
      exact absurd hwidth (not_le.2 hlong)
    obtain ⟨fit, hfit, -, htaken⟩ := fitLen_some s.arrays frag.lineIndex hwidth hx
    have htaken := htaken rfl hpos
    obtain ⟨k, hk, hrest⟩ := flushRow_some e hfrag hfit
    exact ⟨k, hk, by omega⟩

theorem Alone.wrapLine {e : Setting} {n : Nat} {s : DisplayState} (h : Alone s) (hwidth : 0 ≤ e.width) (hn : s.lineIndex ≤ n) :
    (wrapLine e n s).isSome := by
  induction n generalizing s with
  | zero =>
    rw [Layout.wrapLine, if_neg]
    · rfl
    · rw [h.x, DisplayState.pending, Nat.eq_zero_of_le_zero hn]
      exact not_lt.2 hwidth
  | succ n ih =>
    rw [Layout.wrapLine]
    split_ifs with hlong
    · obtain ⟨k, hk, hless⟩ := h.flushRow hwidth hlong
      rw [hk]
      exact ih (Alone.of_flushRow h.tiled hk) (Nat.le_of_lt_succ (hless.trans_le hn))
    · rfl

/-- What a turn keeps of the last fragment takes no less than no column, and so does what is kept of that. -/
theorem flushRow_even {e : Setting} {s : DisplayState} (h : Tiled 0 s.fragments s.lineIndex) {k : DisplayState × Nat}
    (hk : flushRow e s = some k) (hlong : e.width < s.x)
    (heven : ∀ frag, s.fragments.getLast? = some frag → Even (s.arrays.ofFragment frag)) :
    0 ≤ k.1.x ∧ Even (s.arrays.glyphs (s.lineIndex - k.2) k.2) := by
  obtain ⟨hx, -⟩ := flushRow_rest e h hk
  rw [flushRow] at hk
  obtain ⟨frag, hfrag, hk⟩ := Option.bind_eq_some_iff.1 hk
  obtain ⟨fit, hfit, hk⟩ := Option.bind_eq_some_iff.1 hk
  obtain ⟨hle, hcolumns⟩ := fitLen_spec s.arrays frag.lineIndex e.width hfit
  obtain ⟨-, hend⟩ := last_fragment h hfrag
  have hrest : k.2 = frag.len - fit.1 := congrArg Prod.snd (Option.some.inj hk).symm
  have hstart : s.lineIndex - k.2 = frag.lineIndex + fit.1 := by omega
  rw [hstart] at hx ⊢
  rw [hx]
  rw [hrest] at *
  rcases heven frag hfrag with hone | hwidths
  · rw [LineArrays.ofFragment, LineArrays.length_glyphs] at hone
    rcases Nat.eq_zero_or_pos fit.1 with hzero | hpos
    · have hfits := (fitLen_ends s.arrays.widths frag.lineIndex e.width hfit).resolve_right (by omega)
      exact ⟨by omega, Or.inl (by rw [LineArrays.length_glyphs]; omega)⟩
    · rw [show frag.len - fit.1 = 0 by omega]
      exact ⟨Int.le_refl 0, Or.inr fun g hg => absurd hg List.not_mem_nil⟩
  · have hsplit := LineArrays.glyphs_add s.arrays frag.lineIndex fit.1 (frag.len - fit.1)
    rw [Nat.add_sub_of_le hle] at hsplit
    rw [LineArrays.ofFragment, hsplit] at hwidths
    have hkept := fun g hg => hwidths g (List.mem_append_right _ hg)
    exact ⟨columns_nonneg hkept, Or.inr hkept⟩

/-- Glyphs are as wide after they were moved. -/
theorem even_kept (s : DisplayState) {n : Nat} (h : Even (s.arrays.glyphs (s.lineIndex - n) n)) :
    Even ((keepLineChars s n).arrays.glyphs 0 n) := by
  have hsame : ((keepLineChars s n).arrays.glyphs 0 n).map Glyph.width = (s.arrays.glyphs (s.lineIndex - n) n).map Glyph.width :=
    LineArrays.map_glyphs_congr fun j hj => by rw [Nat.zero_add, keepLineChars_glyph s hj]
  rcases h with hone | hwidths
  · exact Or.inl (by rwa [LineArrays.length_glyphs] at hone ⊢)
  · refine Or.inr fun g hg => ?_
    have hmem := List.mem_map_of_mem (f := Glyph.width) hg
    rw [hsame] at hmem
    obtain ⟨g', hg', hwidth⟩ := List.mem_map.1 hmem
    exact hwidth ▸ hwidths g' hg'

/-- In a window that has room for no column the loop does not end well. -/
theorem wrapLine_negative {e : Setting} {n : Nat} {s : DisplayState} (h : Tiled 0 s.fragments s.lineIndex)
    (heven : ∀ frag, s.fragments.getLast? = some frag → Even (s.arrays.ofFragment frag)) (hwidth : e.width < 0)
    (hlong : e.width < s.x) : wrapLine e n s = none := by
  induction n generalizing s with
  | zero => exact if_pos hlong
  | succ n ih =>
    rw [wrapLine, if_pos hlong]
    cases hk : flushRow e s with
    | none => rfl
    | some k =>
      have hflushed := flushRow_spec e h hk
      obtain ⟨hx, hrest⟩ := flushRow_even h hk hlong heven
      rw [← hflushed.arrays, ← hflushed.lineIndex] at hrest
      refine ih hflushed.tiled (fun frag hfrag => ?_) (hwidth.trans_le hx)
      obtain ⟨hstart, hlen⟩ := (Alone.of_flushRow h hk).last hfrag
      rw [LineArrays.ofFragment, hstart, hlen]
      exact even_kept k.1 hrest

/-! ## The flush of a fragment -/

/-- The row takes no more glyphs, or no more fragments. -/
def DisplayState.Full (s : DisplayState) : Prop := maxScreenWidth ≤ s.fragments.length ∨ maxScreenWidth ≤ s.lineIndex

instance (s : DisplayState) : Decidable s.Full := inferInstanceAs (Decidable (_ ∨ _))

/-- The glyphs that the flush of the current fragment adds to the line. -/
def DisplayState.added (e : Setting) (s : DisplayState) : List Glyph := if s.Full then [] else s.made e

/-- The fragments fill the arrays from the front, within their size, and the current word begins at one of them. A row that is wrapped
is no wider than the window. -/
structure DisplayState.Ok (e : Setting) (s : DisplayState) : Prop where
  tiled : Tiled 0 s.fragments s.lineIndex
  word : e.wrap = .word → s.wordIndex ≤ s.fragments.length
  lineIndex : s.lineIndex ≤ maxScreenWidth
  long : ∀ f ∈ s.fragments, 1 ≤ f.len
  fits : e.wrap = .line → e.xDisp ≤ e.width → s.x ≤ e.width
  fragment : s.fragment.length ≤ maxWordSize
  tabAlone : TabAlone s.fragment

/-- There are no more fragments than glyphs. -/
theorem DisplayState.Ok.fragments {e : Setting} {s : DisplayState} (h : s.Ok e) : s.fragments.length ≤ s.lineIndex :=
  (Nat.zero_add _).symm.trans_le (h.tiled.length_le h.long)

/-- What the fragment takes fits the short that it is kept in. -/
structure DisplayState.Measures (e : Setting) (s : DisplayState) : Prop where
  short : short (columns (s.made e)) = columns (s.made e)
  even : Even (s.made e)

/-- No glyph of the fonts is so wide that a fragment of such glyphs does not fit a short. -/
def Setting.Narrow (e : Setting) : Prop := ∀ c, maxWordSize * e.glyphWidth c ≤ 32767

/-- There is room for the glyphs of the fragment, and in a window that wraps lines the loop ends. -/
def FlushFits (e : Setting) (s : DisplayState) : Prop :=
  s.fragment = [] ∨ s.Full ∨
    s.lineIndex + s.fragment.length ≤ maxScreenWidth ∧
      (e.wrap = .line → s.x + columns (s.made e) ≤ e.width ∨ 0 ≤ e.width ∧ s.x ≤ e.width)

instance (e : Setting) (s : DisplayState) : Decidable (FlushFits e s) := inferInstanceAs (Decidable (_ ∨ _ ∨ _ ∧ (_ → _ ∨ _ ∧ _)))

theorem updateWord_same (s : DisplayState) :
    updateWord s = { s with lastWordSpace := (updateWord s).lastWordSpace, wordIndex := (updateWord s).wordIndex } := by
  rw [updateWord]
  split_ifs <;> rfl

theorem wordIndex_updateWord {s : DisplayState} (h : s.wordIndex ≤ s.fragments.length) :
    (updateWord s).wordIndex ≤ s.fragments.length := by
  rw [updateWord]
  split_ifs
  · exact Nat.le_refl _
  · exact h

theorem tabColumns_pos (e : Setting) (x : Int) : 1 ≤ tabColumns e x := by
  have hpos := e.tabWidth_pos
  have hlt := Int.tmod_lt_of_pos (x - e.xDisp) (show (0 : Int) < e.tabWidth by omega)
  rw [tabColumns]
  omega

/-- Characters that are no tabs and are not too wide in all. -/
theorem measures_of_sum {e : Setting} {s : DisplayState} (hplain : ∀ c ∈ s.fragment, c.ch ≠ tab)
    (hsum : (s.fragment.map fun c => e.glyphWidth c.ch).sum ≤ 32767) :
    s.made e = s.fragment.map (fun c => ⟨c.ch, c.offset1, c.offset2, e.glyphWidth c.ch, c.hexMode⟩) ∧ s.Measures e := by
  have hwidth : ∀ c ∈ s.fragment, e.glyphWidth c.ch ≤ 32767 := fun c hc =>
    (List.single_le_sum (fun _ _ => Nat.zero_le _) _ (List.mem_map_of_mem (f := fun c : FragmentChar => e.glyphWidth c.ch) hc)).trans hsum
  have hmade : s.made e = s.fragment.map (fun c => ⟨c.ch, c.offset1, c.offset2, e.glyphWidth c.ch, c.hexMode⟩) := by
    refine List.map_congr_left fun c hc => ?_
    rw [FragmentChar.glyph_of_ne e s.x (hplain c hc), short_eq (by omega) (Int.ofNat_le.2 (hwidth c hc))]
  have hcolumns : columns (s.made e) = ((s.fragment.map fun c => e.glyphWidth c.ch).sum : Nat) := by
    rw [hmade, columns, List.map_map, Nat.cast_list_sum, List.map_map]
    rfl
  refine ⟨hmade, ?_, Or.inr fun g hg => ?_⟩
  · rw [hcolumns, short_eq (by omega) (Int.ofNat_le.2 hsum)]
  · rw [hmade] at hg
    obtain ⟨c, -, rfl⟩ := List.mem_map.1 hg
    exact Int.natCast_nonneg _

/-- A tab is alone, and its width is what a short keeps of it. -/
theorem measures_of_tab {e : Setting} {s : DisplayState} (htab : ∃ c ∈ s.fragment, c.ch = tab) (halone : TabAlone s.fragment) :
    s.Measures e := by
  obtain ⟨c, hc⟩ := List.length_eq_one_iff.1 (halone htab)
  have hch : c.ch = tab := by
    obtain ⟨d, hd, hch⟩ := htab
    rw [hc] at hd
    exact List.mem_singleton.1 hd ▸ hch
  have hmade : s.made e = [⟨space, c.offset1, c.offset2, short (tabColumns e s.x), c.hexMode⟩] := by
    rw [DisplayState.made, hc, List.map_singleton, FragmentChar.glyph_of_tab e s.x hch]
  refine ⟨?_, Or.inl (by rw [hmade]; rfl)⟩
  rw [hmade, columns, List.map_singleton, List.sum_singleton, short_short]

/-- With fonts that are not too wide, all fragments measure. -/
theorem DisplayState.Ok.measures {e : Setting} (he : e.Narrow) {s : DisplayState} (hs : s.Ok e) : s.Measures e := by
  by_cases htab : ∃ c ∈ s.fragment, c.ch = tab
  · exact measures_of_tab htab hs.tabAlone
  · refine (measures_of_sum (fun c hc hch => htab ⟨c, hc, hch⟩) ?_).2
    have hbound : ∀ w ∈ s.fragment.map fun c => e.glyphWidth c.ch, w ≤ 255 := by
      intro w hw
      obtain ⟨c, -, rfl⟩ := List.mem_map.1 hw
      have hc := he c.ch
      rw [show maxWordSize = 128 from rfl] at hc
      omega
    have hsum := List.sum_le_card_nsmul _ 255 hbound
    have hlength := hs.fragment
    have hsize : maxWordSize = 128 := rfl
    rw [List.length_map, Nat.nsmul_eq_mul] at hsum
    omega

theorem Added.pending {e : Setting} {s t : DisplayState} (h : Added e s t) : t.pending = s.pending ++ s.made e := by
  rw [DisplayState.pending, h.lineIndex, LineArrays.glyphs_add, Nat.zero_add, h.inside]
  refine congrArg (· ++ s.made e) (LineArrays.glyphs_congr fun j hj => ?_)
  exact h.outside _ (Or.inl (by omega))

theorem Added.glyphs {e : Setting} {s t : DisplayState} (h : Added e s t) : t.glyphs = s.glyphs ++ s.made e := by
  obtain ⟨a, ha⟩ := h.others
  rw [DisplayState.glyphs, DisplayState.glyphs, h.pending, ← List.append_assoc]
  rw [ha]

theorem Added.tiled {e : Setting} {s t : DisplayState} (h : Added e s t) (hs : Tiled 0 s.fragments s.lineIndex) :
    Tiled 0 t.fragments t.lineIndex := by
  rw [h.fragments, h.lineIndex]
  exact tiled_append.2 ⟨s.lineIndex, hs, rfl, rfl⟩

theorem wrapRows_spec {α : Type} {p : Glyph → α} (e : Setting) {s t : DisplayState}
    (h : Tiled 0 s.fragments s.lineIndex) (hstays : ∀ k ∈ wrapRowsKeeps e s, Stays p k) (ht : wrapRows e s = some t) :
    Wrapped p s t ∧ (e.wrap = .line → t.x ≤ e.width) ∧ (t.wordIndex = 0 ∨ t.wordIndex = s.wordIndex ∧ t.fragments = s.fragments ∨
      e.wrap = .line) := by
  rw [wrapRows] at ht
  rw [wrapRowsKeeps] at hstays
  cases hw : e.wrap with
  | truncate =>
    rw [hw] at ht
    rw [← Option.some.inj ht]
    exact ⟨⟨h, rfl, Nat.le_refl _, id, rfl⟩, fun hline => (nomatch hline), Or.inr (Or.inl ⟨rfl, rfl⟩)⟩
  | line =>
    rw [hw] at ht hstays
    obtain ⟨hwrapped, hfits, -⟩ := wrapLine_spec e h hstays ht
    exact ⟨hwrapped, fun _ => hfits, Or.inr (Or.inr rfl)⟩
  | word =>
    rw [hw] at ht hstays
    obtain ⟨hwrapped, hword⟩ := wrapWord_spec e h hstays ht
    refine ⟨hwrapped, fun hline => (nomatch hline), hword.imp_right fun hsame => Or.inl ?_⟩
    rw [hsame]
    exact ⟨rfl, rfl⟩

/-- The `switch` ends well where the fragment is on the row, or where the window is not too narrow for what was there before. -/
theorem wrapRows_isSome {e : Setting} {s t : DisplayState} (hs : s.Ok e) (hm : s.Measures e) (h : Added e s t)
    (hfits : e.wrap = .line → s.x + columns (s.made e) ≤ e.width ∨ 0 ≤ e.width ∧ s.x ≤ e.width) : (wrapRows e t).isSome := by
  obtain ⟨a, ha⟩ := h.others
  have hlast : t.fragments.getLast? = some ⟨s.lineIndex, s.fragment.length, short (columns (s.made e))⟩ := by
    rw [h.fragments, List.getLast?_append]
    rfl
  rw [wrapRows]
  cases hw : e.wrap with
  | truncate => rfl
  | line =>
    rw [hlast]
    dsimp only [Option.map_some, Option.getD_some]
    rw [wrapLine]
    split_ifs with hlong
    · have htx : t.x = s.x + columns (s.made e) := by rw [h.x, hm.short]
      obtain ⟨hwidth, hx⟩ := (hfits hw).resolve_left (by rw [← htx]; exact not_le.2 hlong)
      obtain ⟨fit, hfit, -⟩ := fitLen_some t.arrays s.lineIndex hx (h.inside ▸ htx)
      obtain ⟨k, hk, hrest⟩ := flushRow_some e hlast hfit
      rw [hk]
      refine (Alone.of_flushRow (h.tiled hs.tiled) hk).wrapLine hwidth (Nat.le_succ_of_le ?_)
      exact hrest.le.trans (Nat.sub_le _ _)
    · rfl
  | word =>
    dsimp only
    rw [wrapWord]
    split_ifs
    · have hword : t.wordIndex < t.fragments.length := by
        rw [h.fragments, List.length_append, ha]
        exact Nat.lt_succ_of_le (hs.word hw)
      rw [flushWords, List.getElem?_eq_getElem hword]
      rfl
    · rfl

theorem wrapRows_none {e : Setting} {s t : DisplayState} (hs : s.Ok e) (hm : s.Measures e) (h : Added e s t) (hw : e.wrap = .line)
    (hlong : e.width < s.x + columns (s.made e)) (hx : 0 ≤ e.width → e.width < s.x) : wrapRows e t = none := by
  have hlast : t.fragments.getLast? = some ⟨s.lineIndex, s.fragment.length, short (columns (s.made e))⟩ := by
    rw [h.fragments, List.getLast?_append]
    rfl
  have htx : t.x = s.x + columns (s.made e) := by rw [h.x, hm.short]
  have heven : Even (t.arrays.glyphs s.lineIndex s.fragment.length) := h.inside ▸ hm.even
  rw [← htx] at hlong
  rw [wrapRows, hw]
  dsimp only
  rcases lt_or_ge e.width 0 with hwidth | hwidth
  · refine wrapLine_negative (h.tiled hs.tiled) (fun frag hfrag => ?_) hwidth hlong
    rw [← Option.some.inj (hlast.symm.trans hfrag)]
    exact heven
  · have hfront := hx hwidth
    have hfit := fitLen_none t.arrays s.lineIndex hfront (by omega) heven hlong (h.inside ▸ htx)
    rw [wrapLine, if_pos hlong, flushRow_none e hlast hfit]
    rfl

theorem DisplayState.Ok.updateWord {e : Setting} {s : DisplayState} (h : s.Ok e) : (updateWord s).Ok e := by
  rw [updateWord_same]
  exact ⟨h.tiled, fun hw => wordIndex_updateWord (h.word hw), h.lineIndex, h.long, h.fits, h.fragment, h.tabAlone⟩

theorem made_updateWord (e : Setting) (s : DisplayState) : (updateWord s).made e = s.made e := by
  rw [updateWord_same]
  rfl

/-- Where the fragment does not fit its arrays there is no result. -/
theorem flushFragment_none {e : Setting} {s : DisplayState} (hs : s.Ok e) (hne : s.fragment ≠ []) (hfull : ¬s.Full)
    (hroom : maxScreenWidth < s.lineIndex + s.fragment.length) : flushFragment e s = none := by
  have hfields := updateWord_same s
  have hle := hs.updateWord.lineIndex
  obtain ⟨u, hu⟩ : ∃ u, u = Layout.updateWord s := ⟨_, rfl⟩
  rw [flushFragment, if_neg hne, if_neg fun h => hfull (Or.inl h), if_neg fun h => hfull (Or.inr h)]
  rw [← hu] at hfields hle ⊢
  have hsame : u.lineIndex + u.fragment.length = s.lineIndex + s.fragment.length := by rw [hfields]
  rw [addFragment_none e hle (hsame ▸ hroom)]
  rfl

/-- A row that is full takes nothing of the fragment. -/
theorem flushFragment_full (e : Setting) {s : DisplayState} (hne : s.fragment ≠ []) (hfull : s.Full) :
    flushFragment e s = some { s with fragment := [] } ∨ flushFragment e s = some { updateWord s with fragment := [] } := by
  rw [flushFragment, if_neg hne]
  split_ifs with hfragments hindex
  · exact Or.inl rfl
  · exact Or.inr rfl
  · exact absurd hfull (not_or.2 ⟨hfragments, hindex⟩)

/-- Where the fragment fits, its glyphs are added to the row and the row is wrapped. -/
theorem flushFragment_added {e : Setting} {s : DisplayState} (hs : s.Ok e) (hne : s.fragment ≠ []) (hfull : ¬s.Full)
    (hroom : s.lineIndex + s.fragment.length ≤ maxScreenWidth) :
    ∃ a, addFragment e (updateWord s) = some a ∧ Added e (updateWord s) a ∧
      flushFragment e s = (wrapRows e a).map fun t => { t with fragment := [] } := by
  have hfields := updateWord_same s
  have htab := hs.updateWord.tabAlone
  obtain ⟨u, hu⟩ : ∃ u, u = Layout.updateWord s := ⟨_, rfl⟩
  rw [flushFragment, if_neg hne, if_neg fun h => hfull (Or.inl h), if_neg fun h => hfull (Or.inr h)]
  rw [← hu] at hfields htab ⊢
  obtain ⟨a, ha, hadded⟩ := addFragment_spec e (s := u) (by rw [hfields]; exact hne) htab (by rw [hfields]; exact hroom)
  exact ⟨a, ha, hadded, by rw [ha, Option.bind_some]⟩

/-- A fragment is flushed well just where it fits. -/
theorem flushFragment_isSome_iff {e : Setting} {s : DisplayState} (hs : s.Ok e) (hm : s.Measures e) :
    (flushFragment e s).isSome ↔ FlushFits e s := by
  by_cases hempty : s.fragment = []
  · rw [flushFragment, if_pos hempty]
    exact iff_of_true rfl (Or.inl hempty)
  by_cases hfull : s.Full
  · refine iff_of_true ?_ (Or.inr (Or.inl hfull))
    rcases flushFragment_full e hempty hfull with h | h <;> exact h ▸ rfl
  rw [FlushFits, or_iff_right hempty, or_iff_right hfull]
  rcases Nat.lt_or_ge maxScreenWidth (s.lineIndex + s.fragment.length) with hroom | hroom
  · rw [flushFragment_none hs hempty hfull hroom]
    exact iff_of_false Bool.false_ne_true fun h => absurd h.1 (Nat.not_le.2 hroom)
  · obtain ⟨a, -, hadded, hflush⟩ := flushFragment_added hs hempty hfull hroom
    have hok := hs.updateWord
    have hmade := made_updateWord e s
    have hx : (Layout.updateWord s).x = s.x := by rw [updateWord_same]
    have hm' : (Layout.updateWord s).Measures e := ⟨by rw [hmade]; exact hm.short, by rw [hmade]; exact hm.even⟩
    rw [hflush, Option.isSome_map, and_iff_right hroom, ← hmade, ← hx]
    constructor
    · intro hsome hw
      by_contra hlong
      rw [not_or, not_and, not_le, not_le] at hlong
      rw [wrapRows_none hok hm' hadded hw hlong.1 hlong.2] at hsome
      cases hsome
    · exact wrapRows_isSome hok hm' hadded

/-- What the flush of a fragment leaves. -/
structure LaidOut {α : Type} (p : Glyph → α) (e : Setting) (s t : DisplayState) : Prop where
  ok : t.Ok e
  fragment : t.fragment = []
  glyphs : t.glyphs.map p = s.glyphs.map p ++ (s.added e).map p
  curHexMode : t.curHexMode = s.curHexMode

/-- What the rows are once the fragment was added and the row wrapped. -/
theorem wrapRows_laidOut {α : Type} {p : Glyph → α} {e : Setting} {u a v : DisplayState} (hok : u.Ok e)
    (hne : u.fragment ≠ []) (hfull : ¬u.Full) (hadded : Added e u a) (hstays : ∀ k ∈ wrapRowsKeeps e a, Stays p k) (hv : wrapRows e a = some v)
    (hroom : u.lineIndex + u.fragment.length ≤ maxScreenWidth) : LaidOut p e u { v with fragment := [] } := by
  have htiled := hadded.tiled hok.tiled
  obtain ⟨hwrapped, hline, hword⟩ := wrapRows_spec e htiled hstays hv
  obtain ⟨hbare, -, -⟩ := wrapRows_spec e (p := Glyph.bare) htiled (fun k _ => stays_bare k) hv
  have hlength : a.fragments.length = u.fragments.length + 1 := by
    rw [hadded.fragments, List.length_append]
    rfl
  have hindex := hwrapped.lineIndex
  have hindex' := hadded.lineIndex
  obtain ⟨arrays, hothers⟩ := hadded.others
  have hstart : a.wordIndex = u.wordIndex := by rw [hothers]
  refine ⟨⟨hwrapped.tiled, fun hw => ?_, ?_, hwrapped.long fun f hf => ?_, fun hw _ => hline hw, Nat.zero_le _,
    fun ⟨_, hc, _⟩ => absurd hc List.not_mem_nil⟩, rfl, ?_, ?_⟩
  · rcases hword with hzero | ⟨hsame, hall⟩ | hline
    · exact show v.wordIndex ≤ v.fragments.length by rw [hzero]; exact Nat.zero_le _
    · have hle := hok.word hw
      exact show v.wordIndex ≤ v.fragments.length by rw [hsame, hall]; omega
    · rw [hw] at hline
      cases hline
  · exact show v.lineIndex ≤ maxScreenWidth by omega
  · rw [hadded.fragments] at hf
    rcases List.mem_append.1 hf with hf | hf
    · exact hok.long f hf
    · rw [List.mem_singleton.1 hf]
      exact List.length_pos_iff.2 hne
  · exact hwrapped.glyphs.trans (by rw [hadded.glyphs, List.map_append, DisplayState.added, if_neg hfull])
  · rw [hwrapped.others, hothers]

theorem flushFragment_spec {α : Type} {p : Glyph → α} {e : Setting} {s t : DisplayState} (hs : s.Ok e)
    (hstays : ∀ k ∈ keeps e s, Stays p k) (ht : flushFragment e s = some t) : LaidOut p e s t := by
  have hempty : TabAlone [] := fun ⟨_, hc, _⟩ => absurd hc List.not_mem_nil
  by_cases hnone : s.fragment = []
  · have hadded : s.added e = [] := by rw [DisplayState.added, DisplayState.made, hnone, List.map_nil, ite_self]
    rw [flushFragment, if_pos hnone] at ht
    rw [← Option.some.inj ht]
    exact ⟨hs, hnone, by rw [hadded, List.map_nil, List.append_nil], rfl⟩
  have hfields := updateWord_same s
  have hok := hs.updateWord
  have hmade := made_updateWord e s
  by_cases hfull : s.Full
  · have hadded : s.added e = [] := if_pos hfull
    rcases flushFragment_full e hnone hfull with h | h
    · rw [← Option.some.inj (h.symm.trans ht)]
      refine ⟨⟨hs.tiled, hs.word, hs.lineIndex, hs.long, hs.fits, Nat.zero_le _, hempty⟩, rfl, ?_, rfl⟩
      rw [hadded, List.map_nil, List.append_nil]
      rfl
    · rw [← Option.some.inj (h.symm.trans ht)]
      refine ⟨⟨hok.tiled, hok.word, hok.lineIndex, hok.long, hok.fits, Nat.zero_le _, hempty⟩, rfl, ?_, ?_⟩
      · rw [hadded, List.map_nil, List.append_nil, hfields]
        rfl
      · rw [hfields]
  rcases Nat.lt_or_ge maxScreenWidth (s.lineIndex + s.fragment.length) with hroom | hroom
  · rw [flushFragment_none hs hnone hfull hroom] at ht
    cases ht
  · obtain ⟨a, ha, hadded, hflush⟩ := flushFragment_added hs hnone hfull hroom
    obtain ⟨v, hv, rfl⟩ := Option.map_eq_some_iff.1 (hflush.symm.trans ht)
    have htaken : ¬(s.fragment = [] ∨ maxScreenWidth ≤ s.fragments.length ∨ maxScreenWidth ≤ s.lineIndex) :=
      not_or.2 ⟨hnone, hfull⟩
    have hkeeps : keeps e s = wrapRowsKeeps e a := by
      rw [keeps, if_neg htaken, ha]
      rfl
    rw [hkeeps] at hstays
    obtain ⟨u, hu⟩ : ∃ u, u = Layout.updateWord s := ⟨_, rfl⟩
    rw [← hu] at hfields hok hmade hadded
    have hfull' : ¬u.Full := by rwa [hfields]
    have hlaid := wrapRows_laidOut hok (by rwa [hfields]) hfull' hadded hstays hv (by rwa [hfields])
    have hglyphs : u.glyphs = s.glyphs := by
      rw [hfields]
      rfl
    have hsame : u.added e = s.added e := by rw [DisplayState.added, DisplayState.added, if_neg hfull, if_neg hfull', hmade]
    exact ⟨hlaid.ok, hlaid.fragment, by rw [hlaid.glyphs, hglyphs, hsame], hlaid.curHexMode.trans (by rw [hfields])⟩

theorem flushFragment_bare {e : Setting} {s t : DisplayState} (hs : s.Ok e) (ht : flushFragment e s = some t) :
    LaidOut Glyph.bare e s t :=
  flushFragment_spec hs (fun k _ => stays_bare k) ht

end Layout

end Hoe
