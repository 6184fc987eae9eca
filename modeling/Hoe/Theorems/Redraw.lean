import Hoe.Redisplay
import Mathlib.Algebra.BigOperators.Group.List.Basic
import Mathlib.Data.List.GetD
import Mathlib.Data.UInt

/-!
# Skipped redraws

`flush_line` takes a row for drawn when the line shadow holds its place, start and height and the sum of its words. Rows that
differ can have one sum, since the order of the words does not count; the mark of a row that goes on in the next one is not
in the sum; and an entry of the shadow stays when a redisplay has fewer rows and still fills the window. A row of one redisplay
is skipped rightly on a condition on it and on the row that was last drawn under its number.
-/

namespace Hoe

open WindowDisplay

/-! ## The line shadow

The checksum of a row is the sum of its words modulo 2^32. An entry of the line shadow is either erased, and then no row is found
in it, or the one of the row that was last drawn under its number.
-/

/-! ## The checksum -/

/-- The words of a memory area. -/
def crcWords : List UInt8 → List UInt32
  | d₀ :: d₁ :: d₂ :: d₃ :: data => crcWord d₀ d₁ d₂ d₃ :: crcWords data
  | _ => []

/-- `compute_crc` adds the words up. -/
theorem computeCrc_eq (data : List UInt8) (sum : UInt32) (h : data.length % 4 = 0) :
    computeCrc data sum = sum + (crcWords data).sum := by
  fun_induction computeCrc data sum with
  | case1 d₀ d₁ d₂ d₃ data sum ih =>
    have hd : data.length % 4 = 0 := by
      simp only [List.length_cons] at h
      omega
    rw [ih hd, crcWords, List.sum_cons, UInt32.add_assoc]
  | case2 data sum hshort =>
    have hnil : data = [] := by
      rcases data with _ | ⟨a, _ | ⟨b, _ | ⟨c, _ | ⟨d, rest⟩⟩⟩⟩
      · rfl
      · simp at h
      · simp at h
      · simp at h
      · exact absurd rfl (hshort a b c d rest)
    rw [hnil]
    simp [crcRest, crcWords]

/-- The words of a row: those of the fragments as they are drawn, and those of the glyphs that are laid out so far. -/
def RowText.words (r : RowText) : List Nat :=
  (crcWords (r.visual.flatMap TextFragment.toBytes) ++ crcWords (r.lineChars.flatMap glyphBytes)).map UInt32.toNat

/-- A sum of words wraps around. -/
theorem toNat_sum (ws : List UInt32) : ws.sum.toNat = (ws.map UInt32.toNat).sum % 2 ^ 32 := by
  induction ws with
  | nil => rfl
  | cons w ws ih => rw [List.sum_cons, UInt32.toNat_add, ih, List.map_cons, List.sum_cons, Nat.add_mod_mod]

@[simp] theorem length_glyphBytes (c : UInt32) : (glyphBytes c).length = 4 := rfl

@[simp] theorem length_toBytes_fragment (f : TextFragment) : f.toBytes.length = 16 := rfl

/-- The checksum is their sum, cut to 32 bits. -/
theorem RowText.crc_eq (r : RowText) : r.crc.toNat = r.words.sum % 2 ^ 32 := by
  have hglyphs : (r.lineChars.flatMap glyphBytes).length % 4 = 0 := by simp [List.length_flatMap]
  have hfragments : (r.visual.flatMap TextFragment.toBytes).length % 4 = 0 := by
    simp only [List.length_flatMap, length_toBytes_fragment, List.map_const', List.sum_replicate_nat]
    omega
  rw [RowText.crc, computeCrc_eq _ _ hglyphs, computeCrc_eq _ _ hfragments, UInt32.zero_add, ← List.sum_append, toNat_sum,
    RowText.words]

/-! ## The entries of the shadow -/

/-- The row has the place, the start and the height that the other one has as shorts. -/
def DisplayRow.SamePlace (c : DisplayContext) (q r : DisplayRow) : Prop :=
  (Int16.ofInt q.y).toInt = r.y ∧ (Int16.ofInt (q.xStart c)).toInt = r.xStart c ∧
    (Int16.ofInt (q.lineHeight c)).toInt = r.lineHeight c

/-- The words of the two rows have one sum modulo 2^32. -/
def RowText.SameSum (q r : RowText) : Prop := q.words.sum ≡ r.words.sum [MOD 2 ^ 32]

/-- A row is found in the shadow when it is at the same place and has the same sum. -/
theorem shadow_matches {c : DisplayContext} {q r : DisplayRow} :
    (q.shadow c).matches c r = true ↔ q.SamePlace c r ∧ q.SameSum r.toRowText := by
  have hsum : q.crc = r.crc ↔ q.SameSum r.toRowText := by
    rw [← UInt32.toNat_inj, RowText.crc_eq, RowText.crc_eq]
    rfl
  rw [QELineShadow.matches, decide_eq_true_eq, DisplayRow.shadow, DisplayRow.SamePlace, hsum, and_assoc, and_assoc]

/-- The fragments of a row in the order they are drawn, each with its glyphs. -/
def RowText.text (r : RowText) : List (TextFragment × List UInt32) :=
  r.visual.map fun f => (f, (r.lineChars.drop f.lineIndex.toInt.toNat).take f.len.toInt.toNat)

/-- Two different rows at one place, with one sum: the second one is taken for the first one. -/
def DisplayRow.Collides (c : DisplayContext) (q r : DisplayRow) : Prop :=
  q.text ≠ r.text ∧ q.SamePlace c r ∧ q.SameSum r.toRowText

theorem le_foldl_max (g : TextFragment → Int) (fs : List TextFragment) (b : Int) :
    b ≤ fs.foldl (fun b f => if b < g f then g f else b) b := by
  induction fs generalizing b with
  | nil => exact le_rfl
  | cons f fs ih =>
    rw [List.foldl_cons]
    refine le_trans ?_ (ih _)
    split_ifs with hlt
    · exact hlt.le
    · exact le_rfl

/-- No row has a negative height. -/
theorem RowText.lineHeight_nonneg (c : DisplayContext) (r : RowText) : 0 ≤ r.lineHeight c := by
  rw [RowText.lineHeight]
  split_ifs
  · exact c.nonneg
  · exact add_nonneg (le_foldl_max (fun f => f.ascent.toInt) r.fragments 0) (le_foldl_max (fun f => f.descent.toInt) r.fragments 0)

/-- No row is found in an erased entry: its height is negative. -/
theorem erased_matches (c : DisplayContext) (r : DisplayRow) : QELineShadow.erased.matches c r = false := by
  rw [QELineShadow.matches, decide_eq_false_iff_not]
  rintro ⟨-, -, hh, -⟩
  have hpos := r.lineHeight_nonneg c
  rw [← hh] at hpos
  exact absurd hpos (by decide)

namespace WindowDisplay

/-- Each entry is erased or the one of the row that was last drawn under its number. -/
def Kept (c : DisplayContext) (d : WindowDisplay) : Prop :=
  ∀ i, d.lineShadow.getD i .erased = ((d.drawn i).map fun q => q.shadow c).getD .erased

/-- A shadow that grows keeps its rows, and the new ones are erased. -/
theorem lineShadow_growShadow (d : WindowDisplay) (n i : Nat) :
    (d.growShadow n).lineShadow.getD i .erased = d.lineShadow.getD i .erased := by
  rw [growShadow]
  split_ifs
  · dsimp only
    rcases lt_or_ge i d.lineShadow.length with h | h
    · rw [List.getD_append _ _ _ _ h]
    · rw [List.getD_append_right _ _ _ _ h, List.getD_eq_default _ _ h]
      rcases lt_or_ge (i - d.lineShadow.length) lineShadowIncr with h' | h'
      · rw [List.getD_replicate _ h']
      · exact List.getD_eq_default _ _ (by simpa using h')
  · rfl

/-- It has room for the row. -/
theorem lt_length_growShadow {d : WindowDisplay} {n : Nat} (h : n ≤ d.lineShadow.length) : n < (d.growShadow n).lineShadow.length := by
  rw [growShadow]
  split_ifs with hn
  · simp only [List.length_append, List.length_replicate, lineShadowIncr]
    omega
  · omega

@[simp] theorem canvas_growShadow (d : WindowDisplay) (n : Nat) : (d.growShadow n).canvas = d.canvas := by
  rw [growShadow]
  split_ifs <;> rfl

@[simp] theorem drawn_growShadow (d : WindowDisplay) (n : Nat) : (d.growShadow n).drawn = d.drawn := by
  rw [growShadow]
  split_ifs <;> rfl

/-- The longer shadow holds the same rows. -/
theorem Kept.growShadow {c : DisplayContext} {d : WindowDisplay} (h : d.Kept c) (n : Nat) : (d.growShadow n).Kept c := by
  intro i
  rw [lineShadow_growShadow, drawn_growShadow]
  exact h i

/-- A row is found in the shadow when it has the entry of the row that was last drawn under its number. -/
theorem Kept.skips_iff {c : DisplayContext} {d : WindowDisplay} (h : d.Kept c) (r : DisplayRow) :
    d.skips c r = true ↔ ∃ q, d.drawn r.lineNum = some q ∧ q.SamePlace c r ∧ q.SameSum r.toRowText := by
  rw [skips, lineShadow_growShadow, h r.lineNum]
  cases hq : d.drawn r.lineNum with
  | none => simp [erased_matches]
  | some q => simp [shadow_matches]

/-- `flush_line` on a row: the row is found, or drawn. -/
theorem flushLine_cases {c : DisplayContext} {d : WindowDisplay} (r : DisplayRow) :
    (d.skips c r = true ∧ d.flushLine c r = d.growShadow r.lineNum) ∨
      (d.skips c r = false ∧ (d.flushLine c r).lineShadow = (d.growShadow r.lineNum).lineShadow.set r.lineNum (r.shadow c) ∧
        (d.flushLine c r).canvas = (fun z => if r.y ≤ z ∧ z < r.y + r.lineHeight c then r.picture c else d.canvas z) ∧
        (d.flushLine c r).drawn = fun i => if i = r.lineNum then some r else d.drawn i) := by
  rw [flushLine]
  cases hs : d.skips c r with
  | true => exact Or.inl ⟨rfl, rfl⟩
  | false => exact Or.inr ⟨rfl, rfl, by simp [paint], by simp⟩

/-- The shadow holds what was drawn last behind one more row. -/
theorem Kept.flushLine {c : DisplayContext} {d : WindowDisplay} (h : d.Kept c) {r : DisplayRow}
    (hn : r.lineNum ≤ d.lineShadow.length) :
    (d.flushLine c r).Kept c ∧ r.lineNum + 1 ≤ (d.flushLine c r).lineShadow.length := by
  have hlt := lt_length_growShadow hn
  rcases flushLine_cases (c := c) (d := d) r with ⟨-, he⟩ | ⟨-, hl, -, hd⟩
  · rw [he]
    exact ⟨h.growShadow _, hlt⟩
  · constructor
    · intro i
      rw [hl, hd]
      by_cases hi : i = r.lineNum
      · subst hi
        simp [List.getD_eq_getElem?_getD, hlt]
      · simp only [if_neg hi]
        rw [List.getD_eq_getElem?_getD, List.getElem?_set_ne (Ne.symm hi), ← List.getD_eq_getElem?_getD]
        rw [h.growShadow r.lineNum i, drawn_growShadow]
    · rw [hl, List.length_set]
      exact hlt

/-! ## The rows of one redisplay -/

/-- What was last drawn under the numbers of the rows is still on the screen, where it has the entry of a row that is laid out
now, and it is that row. -/
def Shows (c : DisplayContext) (d : WindowDisplay) (rs : List DisplayRow) : Prop :=
  ∀ r ∈ rs, ∀ q, d.drawn r.lineNum = some q → q.SamePlace c r → q.SameSum r.toRowText →
    (∀ z, 0 ≤ z → z < c.height → r.y ≤ z → z < r.y + r.lineHeight c → d.canvas z = r.picture c) ∧
      q.y = r.y ∧ q.lineHeight c = r.lineHeight c ∧ q.picture c = r.picture c

/-- The rows lie between the first one and the last one, and so do their numbers. -/
theorem mem_layRows {c : DisplayContext} {ts : List RowText} {y : Int} {n : Nat} {r : DisplayRow} (hr : r ∈ layRows c ts y n) :
    y ≤ r.y ∧ r.y + r.lineHeight c ≤ rowsEnd c ts y ∧ n ≤ r.lineNum ∧ r.lineNum < n + ts.length := by
  induction ts generalizing y n with
  | nil => cases hr
  | cons t ts ih =>
    have hend : ∀ us y, y ≤ rowsEnd c us y := by
      intro us
      induction us with
      | nil => exact fun y => le_rfl
      | cons u us ihu =>
        intro y
        have := u.lineHeight_nonneg c
        have := ihu (y + u.lineHeight c)
        rw [rowsEnd]
        omega
    rw [rowsEnd, List.length_cons]
    have hpos := t.lineHeight_nonneg c
    rcases List.mem_cons.mp hr with rfl | hr
    · have := hend ts (y + t.lineHeight c)
      refine ⟨le_rfl, this, le_rfl, ?_⟩
      show n < _
      omega
    · have := ih hr
      omega

/-- A scan line between the first row and the end of the rows is in one of them. -/
theorem exists_row {c : DisplayContext} {ts : List RowText} {y z : Int} (n : Nat) (h1 : y ≤ z) (h2 : z < rowsEnd c ts y) :
    ∃ r ∈ layRows c ts y n, r.y ≤ z ∧ z < r.y + r.lineHeight c := by
  induction ts generalizing y n with
  | nil =>
    rw [rowsEnd] at h2
    omega
  | cons t ts ih =>
    rw [rowsEnd] at h2
    rcases lt_or_ge z (y + t.lineHeight c) with hz | hz
    · exact ⟨_, List.mem_cons_self, h1, hz⟩
    · obtain ⟨r, hr, h3⟩ := ih (n + 1) hz h2
      exact ⟨r, List.mem_cons_of_mem _ hr, h3⟩

/-- The rows, one after the other: each is on the screen in the end, and the scan lines outside stay. -/
theorem displayRows_spec {c : DisplayContext} {ts : List RowText} {y : Int} {n : Nat} {d : WindowDisplay} (hk : d.Kept c)
    (hn : n ≤ d.lineShadow.length) (hs : d.Shows c (layRows c ts y n)) :
    ∃ d', d' = (layRows c ts y n).foldl (flushLine c) d ∧ d'.Kept c ∧ n + ts.length ≤ d'.lineShadow.length ∧
      (∀ z, z < y ∨ rowsEnd c ts y ≤ z → d'.canvas z = d.canvas z) ∧
      (∀ i, i < n ∨ n + ts.length ≤ i → d'.drawn i = d.drawn i) ∧
      ∀ r ∈ layRows c ts y n,
        (∀ z, 0 ≤ z → z < c.height → r.y ≤ z → z < r.y + r.lineHeight c → d'.canvas z = r.picture c) ∧
        ∃ q, d'.drawn r.lineNum = some q ∧ q.y = r.y ∧ q.lineHeight c = r.lineHeight c ∧ q.picture c = r.picture c := by
  induction ts generalizing y n d with
  | nil => exact ⟨d, rfl, hk, hn, fun _ _ => rfl, fun _ _ => rfl, fun r hr => absurd hr (by simp [layRows])⟩
  | cons t ts ih =>
    obtain ⟨r, hr⟩ : ∃ r : DisplayRow, r = { t with y := y, lineNum := n } := ⟨_, rfl⟩
    have hry : r.y = y := by rw [hr]
    have hrn : r.lineNum = n := by rw [hr]
    have hrh : r.lineHeight c = t.lineHeight c := by rw [hr]
    have hpos := t.lineHeight_nonneg c
    have hrows : layRows c (t :: ts) y n = r :: layRows c ts (y + t.lineHeight c) (n + 1) := by rw [layRows, hr]
    rw [hrows] at hs ⊢
    have hrest : ∀ q ∈ layRows c ts (y + t.lineHeight c) (n + 1), q.y ≥ y + t.lineHeight c ∧ q.lineNum ≠ n := by
      intro q hq
      have := mem_layRows hq
      omega
    -- the first row is on the screen after `flush_line`, and the rest of the screen and of the rows is as it was
    obtain ⟨d₁, hd₁⟩ : ∃ d₁, d₁ = d.flushLine c r := ⟨_, rfl⟩
    obtain ⟨hk₁, hn₁⟩ := hk.flushLine (r := r) (by rw [hrn]; exact hn)
    rw [← hd₁, hrn] at hn₁
    rw [← hd₁] at hk₁
    have hfirst : (∀ z, z < y ∨ y + t.lineHeight c ≤ z → d₁.canvas z = d.canvas z) ∧ (∀ i, i ≠ n → d₁.drawn i = d.drawn i) ∧
        (∀ z, 0 ≤ z → z < c.height → y ≤ z → z < y + t.lineHeight c → d₁.canvas z = r.picture c) ∧
        ∃ q, d₁.drawn n = some q ∧ q.y = r.y ∧ q.lineHeight c = r.lineHeight c ∧ q.picture c = r.picture c := by
      rcases flushLine_cases (c := c) (d := d) r with ⟨hskip, he⟩ | ⟨-, -, hc, hdr⟩
      · obtain ⟨q, hq, hplace, hsum⟩ := (hk.skips_iff r).mp hskip
        obtain ⟨hcanvas, hq1, hq2, hq3⟩ := hs r List.mem_cons_self q hq hplace hsum
        rw [hd₁, he, canvas_growShadow, drawn_growShadow]
        rw [hry, hrh] at hcanvas
        rw [hrn] at hq
        exact ⟨fun _ _ => rfl, fun _ _ => rfl, hcanvas, q, hq, hq1, hq2, hq3⟩
      · rw [hd₁, hc, hdr, hry, hrh, hrn]
        refine ⟨?_, ?_, ?_, r, by simp, hry, hrh, rfl⟩
        · intro z hz
          dsimp only
          rw [if_neg (by omega)]
        · intro i hi
          dsimp only
          rw [if_neg hi]
        · intro z _ _ h1 h2
          dsimp only
          rw [if_pos ⟨h1, h2⟩]
    obtain ⟨hout, hdrawn, hin, hlast⟩ := hfirst
    have hs₁ : d₁.Shows c (layRows c ts (y + t.lineHeight c) (n + 1)) := by
      intro q hq p hp hplace hsum
      have hqr := hrest q hq
      rw [hdrawn _ hqr.2] at hp
      obtain ⟨hcanvas, hp'⟩ := hs q (List.mem_cons_of_mem _ hq) p hp hplace hsum
      refine ⟨?_, hp'⟩
      intro z h1 h2 h3 h4
      rw [hout z (by omega)]
      exact hcanvas z h1 h2 h3 h4
    obtain ⟨d', hd', hk', hn', hout', hdrawn', hin'⟩ := ih hk₁ hn₁ hs₁
    have hmem : r ∈ layRows c (t :: ts) y n := by
      rw [hrows]
      exact List.mem_cons_self
    have hend := (mem_layRows hmem).2.1
    rw [hry, hrh] at hend
    rw [rowsEnd] at hend ⊢
    rw [List.length_cons]
    refine ⟨d', by rw [hd', hd₁, List.foldl_cons], hk', by omega, ?_, ?_, ?_⟩
    · intro z hz
      rw [hout' z (by omega), hout z (by omega)]
    · intro i hi
      rw [hdrawn' i (by omega), hdrawn i (by omega)]
    · intro q hq
      rcases List.mem_cons.mp hq with rfl | hq
      · rw [hrn]
        refine ⟨?_, ?_⟩
        · intro z h1 h2 h3 h4
          rw [hry] at h3 h4
          rw [hrh] at h4
          rw [hout' z (Or.inl h4)]
          exact hin z h1 h2 h3 h4
        · rw [hdrawn' n (Or.inl (by omega))]
          exact hlast
      · exact hin' q hq

end WindowDisplay

/-- What happens to the display of a window. -/
inductive DisplayEvent where
  | redisplay (yDisp : Int) (rows : List RowText)
  | invalidate (canvas : Int → List DrawCall)

/-- The display behind an event. -/
def DisplayEvent.run (c : DisplayContext) (d : WindowDisplay) : DisplayEvent → WindowDisplay
  | .redisplay yDisp rows => d.redisplay c yDisp rows
  | .invalidate canvas => d.invalidate canvas

/-- A sequence of events, from left to right. -/
def runDisplay (c : DisplayContext) (d : WindowDisplay) (events : List DisplayEvent) : WindowDisplay :=
  events.foldl (DisplayEvent.run c) d

/-- A new window: no line shadow yet. -/
def newDisplay (canvas : Int → List DrawCall) : WindowDisplay :=
  { lineShadow := [], canvas := canvas, displayInvalid := false, drawn := fun _ => none, laid := 0 }

/-- The rows of the last redisplay are on the screen. -/
def Current (c : DisplayContext) (d : WindowDisplay) : Prop :=
  d.displayInvalid = false → ∀ i q, i < d.laid → d.drawn i = some q →
    ∀ z, 0 ≤ z → z < c.height → q.y ≤ z → z < q.y + q.lineHeight c → d.canvas z = q.picture c

/-- The same fragments and glyphs at the same place, and the same mark at the end. -/
structure SameRow (c : DisplayContext) (q r : DisplayRow) : Prop where
  text : q.text = r.text
  y : q.y = r.y
  xStart : q.xStart c = r.xStart c
  lineHeight : q.lineHeight c = r.lineHeight c
  base : q.base = r.base
  last : q.last = r.last

/-- Reordering a level of directions loses no fragment. -/
theorem swapLevel_perm (level : Nat) (fs : List TextFragment) : (swapLevel level fs).Perm fs := by
  fun_induction swapLevel level fs with
  | case1 => exact .nil
  | case2 f fs _ rest ih =>
    have hrest : (rest.take 1 ++ swapLevel level (rest.drop 1)).Perm rest := by
      have h := ih.append_left (rest.take 1)
      rwa [List.take_append_drop] at h
    have hall := (List.reverse_perm (f :: fs.takeWhile fun g => decide (level ≤ g.embeddingLevel.toNat))).append hrest
    rw [List.cons_append, List.takeWhile_append_dropWhile] at hall
    rwa [List.append_assoc]
  | case3 f fs _ ih => exact ih.cons f

theorem swapLevels_perm (level : Nat) (fs : List TextFragment) : (swapLevels level fs).Perm fs := by
  induction level generalizing fs with
  | zero => exact .refl fs
  | succ level ih => exact (ih _).trans (swapLevel_perm _ fs)

/-- The order of the fragments does not matter for the baseline. -/
theorem RowText.baseline_visual (r : RowText) :
    r.baseline = r.visual.foldl (fun b f => if b < f.ascent.toInt then f.ascent.toInt else b) 0 := by
  refine ((swapLevels_perm _ _).foldl_eq' (fun f _ g _ b => ?_) 0).symm
  split_ifs <;> omega

/-- What is drawn depends on the glyphs of the fragments only. -/
theorem drawFragments_congr (c : DisplayContext) {chars chars' : List UInt32} (y : Int) {fs : List TextFragment}
    (h : ∀ f ∈ fs, (chars.drop f.lineIndex.toInt.toNat).take f.len.toInt.toNat =
      (chars'.drop f.lineIndex.toInt.toNat).take f.len.toInt.toNat) (x : Int) :
    drawFragments c chars y fs x = drawFragments c chars' y fs x := by
  induction fs generalizing x with
  | nil => rfl
  | cons f fs ih =>
    rw [drawFragments, drawFragments, h f List.mem_cons_self, ih fun g hg => h g (List.mem_cons_of_mem f hg)]

/-- It has the same picture. -/
theorem SameRow.picture {c : DisplayContext} {q r : DisplayRow} (h : SameRow c q r) : q.picture c = r.picture c := by
  have hvisual : q.visual = r.visual := by
    have hfst := congrArg (List.map Prod.fst) h.text
    simpa [RowText.text, Function.comp_def] using hfst
  have hglyphs := h.text
  rw [RowText.text, RowText.text, hvisual, List.map_inj_left] at hglyphs
  have hbaseline : q.baseline = r.baseline := by rw [q.baseline_visual, r.baseline_visual, hvisual]
  have hdraw := fun y => drawFragments_congr c y (fun f hf => congrArg Prod.snd (hglyphs f hf))
  simp only [DisplayRow.picture, h.y, h.xStart, h.lineHeight, h.base, h.last, hvisual, hbaseline, hdraw]

/-- Of the rows of a redisplay, each one with the place and the sum of the row last drawn under its number is that row, and was laid
out in the redisplay before. -/
def Faithful (c : DisplayContext) (d : WindowDisplay) (yDisp : Int) (rows : List RowText) : Prop :=
  ∀ r ∈ layRows c rows yDisp 0, ∀ q, d.clear.drawn r.lineNum = some q → q.SamePlace c r → q.SameSum r.toRowText →
    r.lineNum < d.laid ∧ SameRow c q r

/-- Every redisplay of the run is faithful. -/
def AllFaithful (c : DisplayContext) (d : WindowDisplay) : List DisplayEvent → Prop
  | [] => True
  | .redisplay yDisp rows :: events => Faithful c d yDisp rows ∧ AllFaithful c (d.redisplay c yDisp rows) events
  | .invalidate canvas :: events => AllFaithful c (d.invalidate canvas) events

namespace WindowDisplay

theorem Kept.clear {c : DisplayContext} {d : WindowDisplay} (h : d.Kept c) : d.clear.Kept c := by
  rw [WindowDisplay.clear]
  split_ifs
  · exact fun i => rfl
  · exact h

/-- So it does behind all rows of a window. -/
theorem Kept.folded {c : DisplayContext} {d : WindowDisplay} (hk : d.Kept c) (rows : List RowText) (y : Int) {n : Nat}
    (hn : n ≤ d.lineShadow.length) :
    ((layRows c rows y n).foldl (WindowDisplay.flushLine c) d).Kept c ∧
      n + rows.length ≤ ((layRows c rows y n).foldl (WindowDisplay.flushLine c) d).lineShadow.length := by
  induction rows generalizing y n d with
  | nil => exact ⟨hk, hn⟩
  | cons t ts ih =>
    obtain ⟨hk₁, hn₁⟩ := hk.flushLine (r := { t with y := y, lineNum := n }) hn
    rw [layRows, List.foldl_cons, List.length_cons, show n + (ts.length + 1) = n + 1 + ts.length by omega]
    exact ih hk₁ _ hn₁

/-- So it does behind a redisplay. -/
theorem Kept.redisplay {c : DisplayContext} {d : WindowDisplay} (hk : d.Kept c) (yDisp : Int) (rows : List RowText) :
    (d.redisplay c yDisp rows).Kept c := by
  obtain ⟨hk', hn'⟩ := hk.clear.folded rows yDisp (Nat.zero_le _)
  rw [Nat.zero_add] at hn'
  rw [WindowDisplay.redisplay]
  dsimp only
  split_ifs
  · intro i
    dsimp only [paint]
    split_ifs with hi
    · rw [List.getD_append _ _ _ _ (by rw [List.length_take]; omega), List.getD_eq_getElem?_getD, List.getElem?_take_of_lt hi,
        ← List.getD_eq_getElem?_getD]
      exact hk' i
    · rw [List.getD_append_right _ _ _ _ (by rw [List.length_take]; omega), Option.map_none, Option.getD_none]
      rw [List.getD_eq_getElem?_getD, List.getElem?_replicate]
      split_ifs <;> rfl
  · exact hk'

/-- What a redisplay leaves, in terms of the rows it drew. -/
theorem redisplay_fields (c : DisplayContext) (d : WindowDisplay) (yDisp : Int) (rows : List RowText) :
    (∀ z, (d.redisplay c yDisp rows).canvas z =
      if rowsEnd c rows yDisp ≤ z ∧ z < c.height then
        [.fillRectangle c.xleft (c.ytop + rowsEnd c rows yDisp) c.windowWidth (c.height - rowsEnd c rows yDisp) (c.bgColor 0)]
      else ((layRows c rows yDisp 0).foldl (WindowDisplay.flushLine c) d.clear).canvas z) ∧
    (∀ i, i < rows.length → (d.redisplay c yDisp rows).drawn i =
      ((layRows c rows yDisp 0).foldl (WindowDisplay.flushLine c) d.clear).drawn i) ∧
    (d.redisplay c yDisp rows).laid = rows.length := by
  rw [WindowDisplay.redisplay]
  dsimp only
  split_ifs with hend
  · refine ⟨?_, fun i hi => if_pos hi, rfl⟩
    intro z
    dsimp only [paint]
    have hiff : rowsEnd c rows yDisp ≤ z ∧ z < rowsEnd c rows yDisp + (c.height - rowsEnd c rows yDisp) ↔
        rowsEnd c rows yDisp ≤ z ∧ z < c.height := by omega
    simp only [hiff]
  · refine ⟨?_, fun _ _ => rfl, rfl⟩
    intro z
    rw [if_neg (by omega)]

/-- Each number has its row. -/
theorem exists_numbered (c : DisplayContext) (ts : List RowText) (y : Int) (n : Nat) {i : Nat} (h : i < ts.length) :
    ∃ r ∈ layRows c ts y n, r.lineNum = n + i := by
  induction ts generalizing y n i with
  | nil => cases h
  | cons t ts ih =>
    cases i with
    | zero => exact ⟨_, List.mem_cons_self, rfl⟩
    | succ i =>
      obtain ⟨r, hr, hri⟩ := ih (y + t.lineHeight c) (n + 1) (Nat.lt_of_succ_lt_succ h)
      exact ⟨r, List.mem_cons_of_mem _ hr, by omega⟩

/-- After a faithful redisplay its rows are on the screen, and below them the background. -/
theorem redisplay_spec {c : DisplayContext} {d : WindowDisplay} (hk : d.Kept c) (hcur : Current c d) {yDisp : Int}
    {rows : List RowText} (hf : Faithful c d yDisp rows) :
    Current c (d.redisplay c yDisp rows) ∧
      (∀ r ∈ layRows c rows yDisp 0, ∀ z, 0 ≤ z → z < c.height → r.y ≤ z → z < r.y + r.lineHeight c →
        (d.redisplay c yDisp rows).canvas z = r.picture c) ∧
      ∀ z, rowsEnd c rows yDisp ≤ z → z < c.height → (d.redisplay c yDisp rows).canvas z =
        [.fillRectangle c.xleft (c.ytop + rowsEnd c rows yDisp) c.windowWidth (c.height - rowsEnd c rows yDisp) (c.bgColor 0)] := by
  have hshows : d.clear.Shows c (layRows c rows yDisp 0) := by
    intro r hr q hq hplace hsum
    obtain ⟨hlaid, hrow⟩ := hf r hr q hq hplace hsum
    have h1 := hrow.y
    have h2 := hrow.lineHeight
    have h3 := hrow.picture
    refine ⟨?_, h1, h2, h3⟩
    intro z z1 z2 z3 z4
    cases hinv : d.displayInvalid with
    | true =>
      rw [WindowDisplay.clear, hinv, if_pos rfl] at hq
      exact absurd hq (by simp)
    | false =>
      have hd : d.clear = d := by rw [WindowDisplay.clear, hinv, if_neg (by simp)]
      rw [hd] at hq ⊢
      rw [← h3]
      exact hcur hinv r.lineNum q hlaid hq z z1 z2 (by omega) (by omega)
  obtain ⟨d', hd', -, -, -, -, hrows⟩ := displayRows_spec hk.clear (Nat.zero_le _) hshows
  obtain ⟨hcanvas, hdrawn, hlaid⟩ := redisplay_fields c d yDisp rows
  rw [← hd'] at hcanvas hdrawn
  have hpart : ∀ r ∈ layRows c rows yDisp 0, ∀ z, 0 ≤ z → z < c.height → r.y ≤ z → z < r.y + r.lineHeight c →
      (d.redisplay c yDisp rows).canvas z = r.picture c := by
    intro r hr z z1 z2 z3 z4
    have := mem_layRows hr
    rw [hcanvas z, if_neg (by omega)]
    exact (hrows r hr).1 z z1 z2 z3 z4
  refine ⟨?_, hpart, ?_⟩
  · intro _ i q hi hq z z1 z2 z3 z4
    rw [hlaid] at hi
    obtain ⟨r, hr, hri⟩ := exists_numbered c rows yDisp 0 hi
    rw [Nat.zero_add] at hri
    obtain ⟨-, p, hp, h1, h2, h3⟩ := hrows r hr
    rw [hdrawn i hi, ← hri, hp] at hq
    obtain rfl := Option.some.inj hq
    rw [h3]
    exact hpart r hr z z1 z2 (by omega) (by omega)
  · intro z h1 h2
    rw [hcanvas z, if_pos ⟨h1, h2⟩]

end WindowDisplay

/-! ## A run -/

/-- When the shadow is invalid the next redisplay draws everything. -/
theorem Current.invalidate (c : DisplayContext) (d : WindowDisplay) (canvas : Int → List DrawCall) :
    Current c (d.invalidate canvas) := by
  intro h
  exact absurd h (by simp [WindowDisplay.invalidate])

/-- So it does in every run. -/
theorem runDisplay_kept {c : DisplayContext} {d : WindowDisplay} (hk : d.Kept c) (events : List DisplayEvent) :
    (runDisplay c d events).Kept c := by
  induction events generalizing d with
  | nil => exact hk
  | cons e events ih =>
    cases e with
    | redisplay yDisp rows => exact ih (hk.redisplay yDisp rows)
    | invalidate canvas => exact ih hk

/-- A run that is faithful so far is current. -/
theorem runDisplay_current {c : DisplayContext} {d : WindowDisplay} (hk : d.Kept c) (hcur : Current c d)
    {events : List DisplayEvent} (hf : AllFaithful c d events) : Current c (runDisplay c d events) := by
  induction events generalizing d with
  | nil => exact hcur
  | cons e events ih =>
    cases e with
    | redisplay yDisp rows => exact ih (hk.redisplay yDisp rows) (redisplay_spec hk hcur hf.1).1 hf.2
    | invalidate canvas => exact ih hk (Current.invalidate c d canvas) hf

/-- Two redisplays of the same rows that both are faithful leave the same screen, from the first row on. -/
theorem canvas_redisplay {c : DisplayContext} {d : WindowDisplay} (d' : WindowDisplay) {yDisp : Int} {rows : List RowText} (hk : d.Kept c)
    (hcur : Current c d) (hf : Faithful c d yDisp rows) (hk' : d'.Kept c) (hcur' : Current c d') (hf' : Faithful c d' yDisp rows)
    {z : Int} (h1 : 0 ≤ z) (h2 : z < c.height) (h3 : yDisp ≤ z) :
    (d.redisplay c yDisp rows).canvas z = (d'.redisplay c yDisp rows).canvas z := by
  obtain ⟨-, hrows, hrest⟩ := redisplay_spec hk hcur hf
  obtain ⟨-, hrows', hrest'⟩ := redisplay_spec hk' hcur' hf'
  rcases lt_or_ge z (rowsEnd c rows yDisp) with hz | hz
  · obtain ⟨r, hr, h4, h5⟩ := exists_row 0 h3 hz
    rw [hrows r hr z h1 h2 h4 h5, hrows' r hr z h1 h2 h4 h5]
  · rw [hrest z hz h2, hrest' z hz h2]

/-- The run in front of the last redisplay, and this one. -/
theorem AllFaithful.last {c : DisplayContext} {d : WindowDisplay} {events : List DisplayEvent} {yDisp : Int} {rows : List RowText}
    (h : AllFaithful c d (events ++ [.redisplay yDisp rows])) :
    AllFaithful c d events ∧ Faithful c (runDisplay c d events) yDisp rows := by
  induction events generalizing d with
  | nil => exact ⟨trivial, h.1⟩
  | cons e events ih =>
    cases e with
    | redisplay y ts =>
      obtain ⟨h1, h2⟩ := ih h.2
      exact ⟨⟨h.1, h1⟩, h2⟩
    | invalidate canvas => exact ih h

/-- In every state that redisplays of a window reach, in the middle of a redisplay too: a row that is skipped has the fragments
and the glyphs last drawn under its number exactly when it does not collide with the row last drawn there. And in every run whose
redisplays are all faithful, each of them leaves the screen that a full redraw leaves. -/
theorem skipped_redraw (c : DisplayContext) (canvas : Int → List DrawCall) (events : List DisplayEvent) (yDisp : Int) :
    (∀ pre t, ∀ d, d = (layRows c pre yDisp 0).foldl (WindowDisplay.flushLine c)
        (runDisplay c (newDisplay canvas) events).clear → ∀ r : DisplayRow, r = ⟨t, rowsEnd c pre yDisp, pre.length⟩ →
      ((d.skips c r = true → ∃ q, d.drawn r.lineNum = some q ∧ q.text = r.text) ↔
        ∀ q, d.drawn r.lineNum = some q → ¬q.Collides c r)) ∧
    ∀ rows, AllFaithful c (newDisplay canvas) (events ++ [.redisplay yDisp rows]) → ∀ z, 0 ≤ z → z < c.height → yDisp ≤ z →
      (runDisplay c (newDisplay canvas) (events ++ [.redisplay yDisp rows])).canvas z =
        ({ runDisplay c (newDisplay canvas) events with displayInvalid := true }.redisplay c yDisp rows).canvas z := by
  have hnew : (newDisplay canvas).Kept c := fun i => rfl
  have hkept := runDisplay_kept hnew events
  constructor
  · intro pre t d hd r _
    have hk : d.Kept c := by
      rw [hd]
      exact (hkept.clear.folded _ _ (Nat.zero_le _)).1
    rw [hk.skips_iff r]
    constructor
    · rintro h q hq ⟨hne, hentry⟩
      obtain ⟨p, hp, hsame⟩ := h ⟨q, hq, hentry⟩
      rw [hq] at hp
      obtain rfl := Option.some.inj hp
      exact hne hsame
    · rintro h ⟨q, hq, hentry⟩
      exact ⟨q, hq, not_not.1 fun hne => h q hq ⟨hne, hentry⟩⟩
  · intro rows hf z h1 h2 h3
    obtain ⟨hbefore, hlast⟩ := hf.last
    have hcur : Current c (newDisplay canvas) := fun _ i q hi _ => absurd hi (Nat.not_lt_zero i)
    have hrun : runDisplay c (newDisplay canvas) (events ++ [.redisplay yDisp rows]) =
        (runDisplay c (newDisplay canvas) events).redisplay c yDisp rows := by
      rw [runDisplay, List.foldl_append]
      rfl
    rw [hrun]
    refine canvas_redisplay { runDisplay c (newDisplay canvas) events with displayInvalid := true } hkept
      (runDisplay_current hnew hcur hbefore) hlast hkept ?_ ?_ h1 h2 h3
    · intro h
      exact absurd h (by simp)
    · intro r _ q hq
      rw [WindowDisplay.clear, if_pos rfl] at hq
      exact absurd hq (by simp)

/-! ## A row that is not redrawn -/

/-- A terminal window of 80 columns. -/
def plainContext : DisplayContext where
  xleft := 0
  ytop := 0
  windowWidth := 80
  width := 79
  height := 23
  eolWidth := 1
  defaultLineHeight := 1
  bgColor := fun _ => 0
  fgColor := fun _ => 7
  font := fun _ => 0
  fontAscent := fun _ => 0
  nonneg := by decide

/-- A row with one fragment of two glyphs. -/
def twoGlyphs (a b : UInt32) : RowText :=
  { fragments := [⟨0, 2, 0, 1, 0, 0, 2, 0⟩], lineChars := [a, b], base := .ltr, x := 2, xDisp := 0, embeddingLevelMax := 0
    last := true }

/-- `ab` is edited to `ba`: the row is taken for drawn. -/
theorem not_skipped_redraw :
    ¬ ∀ (c : DisplayContext) (canvas : Int → List DrawCall) (t t' : RowText) (d : WindowDisplay) (r : DisplayRow),
      d = runDisplay c (newDisplay canvas) [.redisplay 0 [t]] → r = ⟨t', 0, 0⟩ → d.skips c r = true →
        ∃ q, d.drawn r.lineNum = some q ∧ q.text = r.text := by
  intro h
  obtain ⟨q, hq, htext⟩ := h plainContext (fun _ => []) (twoGlyphs 97 98) (twoGlyphs 98 97) _ _ rfl rfl (by decide +kernel)
  have hdrawn : (runDisplay plainContext (newDisplay fun _ => []) [.redisplay 0 [twoGlyphs 97 98]]).drawn 0 =
      some ⟨twoGlyphs 97 98, 0, 0⟩ := by decide +kernel
  rw [hdrawn] at hq
  obtain rfl := Option.some.inj hq
  exact absurd htext (by decide)

end Hoe
