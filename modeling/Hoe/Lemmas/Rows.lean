import Hoe.Lemmas.LayoutLine

/-!
# The rows that a line is laid out on

`flush_fragment` does with the arrays what `Row.add` does with the glyphs that wait: as long as all fragments fit, the glyphs that
are pending are those that wait, and the rows that were flushed are those that were broken off. What is compared of the glyphs is
a parameter, since `keep_line_chars` does not move all of it.
-/

namespace Hoe

namespace Layout

open TextDisplay (WrapType maxScreenWidth maxWordSize styleShift tab space)

/-- The current fragment. -/
def DisplayState.current (s : DisplayState) : Word := ⟨s.fragment, s.lastSpace, s.lastStyle⟩

/-- Where the current word begins in the arrays. -/
def DisplayState.wordAt (s : DisplayState) : Nat := ((s.fragments[s.wordIndex]?).map (·.lineIndex)).getD s.lineIndex

variable {α : Type} {p : Glyph → α}

/-- Glyphs that look alike are as wide as each other. -/
def ShowsWidth (p : Glyph → α) : Prop := ∀ g g', p g = p g' → g.width = g'.width

theorem showsWidth_bare : ShowsWidth Glyph.bare := fun g g' h => (congrArg Glyph.width h : g.bare.width = g'.bare.width)

theorem showsWidth_id : ShowsWidth (id : Glyph → Glyph) := fun _ _ h => congrArg Glyph.width h

theorem ShowsWidth.columns (hp : ShowsWidth p) {gs hs : List Glyph} (h : gs.map p = hs.map p) : columns gs = columns hs := by
  induction gs generalizing hs with
  | nil => rw [List.map_eq_nil_iff.1 h.symm]
  | cons g gs ih =>
    cases hs with
    | nil => cases h
    | cons g' hs =>
      rw [List.map_cons, List.map_cons, List.cons.injEq] at h
      have hrest : Layout.columns gs = Layout.columns hs := ih h.2
      have hg : g.width = g'.width := hp g g' h.1
      rw [Layout.columns, Layout.columns, List.map_cons, List.map_cons, List.sum_cons, List.sum_cons, hg]
      exact congrArg (g'.width + ·) hrest

/-! ## What fits of a word -/

/-- The inner loop of `WRAP_LINE` finds what fits. -/
theorem fitLen_fst (a : LineArrays) (i : Nat) (gs : List Glyph) {width x : Int} {len : Nat}
    (hgs : ∀ k ≤ len, columns (a.glyphs i k) = columns (gs.take k)) {fit : Nat × Int}
    (h : fitLen a.widths i width len (x + columns (gs.take len)) = some fit) :
    fit.1 = if len = 0 then 0 else
      if Nat.findGreatest (fun k => x + columns (gs.take k) ≤ width) len = 0 ∧ x = 0 then 1
      else Nat.findGreatest (fun k => x + columns (gs.take k) ≤ width) len := by
  induction len with
  | zero =>
    rw [fitLen] at h
    split_ifs at h
    exact (Option.some.inj h) ▸ rfl
  | succ len ih =>
    have hlast := columns_last a i len
    rw [hgs (len + 1) (Nat.le_refl _), hgs len (Nat.le_succ len)] at hlast
    have hprev : x + columns (gs.take (len + 1)) - a.widths (i + len) = x + columns (gs.take len) := by omega
    rw [fitLen] at h
    dsimp only at h
    rw [hprev] at h
    rw [if_neg (Nat.succ_ne_zero len), Nat.findGreatest_succ]
    split_ifs at h with hfits hone
    · rw [if_pos hfits, if_neg (fun hzero => Nat.succ_ne_zero len hzero.1)]
      exact (Option.some.inj h) ▸ rfl
    · obtain ⟨rfl, hx⟩ := hone
      have hx : x = 0 := (Int.add_zero x).symm.trans hx
      rw [if_neg hfits, Nat.findGreatest_zero, if_pos ⟨rfl, hx⟩]
      exact (Option.some.inj h) ▸ rfl
    · rw [if_neg hfits, ih (fun k hk => hgs k (Nat.le_succ_of_le hk)) h]
      by_cases hlen : len = 0
      · rw [hlen, if_pos rfl, Nat.findGreatest_zero, if_neg fun hzero => hone ⟨hlen, ?_⟩]
        rw [hlen, hzero.2]
        rfl
      · rw [if_neg hlen]

/-- How many glyphs a break takes of the word. -/
def taken (width x : Int) (gs : List Glyph) : Nat := if fitting width x gs = 0 ∧ x = 0 then 1 else fitting width x gs

theorem fitting_le (width x : Int) (gs : List Glyph) : fitting width x gs ≤ gs.length := Nat.findGreatest_le gs.length

theorem lineBreaks_succ (width : Int) (n : Nat) (front : List Glyph) {x : Int} {gs : List Glyph} (h : width < x + columns gs) :
    lineBreaks width (n + 1) front x gs =
      ⟨front ++ gs, gs.length - taken width x gs⟩ :: lineBreaks width n [] 0 (gs.drop (taken width x gs)) :=
  if_neg (not_le.2 h)

/-- Where the word fits, no row is broken off. -/
theorem lineBreaks_fits {width : Int} (n : Nat) (front : List Glyph) {x : Int} {gs : List Glyph} (h : x + columns gs ≤ width) :
    lineBreaks width n front x gs = [] := by
  cases n with
  | zero => rfl
  | succ n => exact if_pos h

/-! ## Breaks -/

theorem taken_le (width x : Int) {gs : List Glyph} (h : gs ≠ []) : taken width x gs ≤ gs.length := by
  rw [taken]
  split_ifs
  · exact List.length_pos_iff.2 h
  · exact fitting_le width x gs

/-- What the wrapping of a row leaves: the glyphs that the last break keeps, or all where there is none, and the rows. -/
structure Broken (p : Glyph → α) (s t : DisplayState) (bs : List Break) : Prop where
  pending : t.pending.map p = (bs.getLast?.elim s.pending (·.rest)).map p
  x : t.x = bs.getLast?.elim s.x (columns ·.rest)
  rows : ∃ new, t.rows = s.rows ++ new ∧ new.map (List.map p) = bs.map fun b => b.row.map p

/-- What a break of the word keeps. -/
theorem rest_eq (front gs : List Glyph) {n : Nat} (h : n ≤ gs.length) : (Break.mk (front ++ gs) (gs.length - n)).rest = gs.drop n := by
  rw [Break.rest]
  dsimp only
  rw [List.length_append, show front.length + gs.length - (gs.length - n) = front.length + n by omega, List.drop_length_add_append]

/-- Nothing is broken off. -/
theorem Broken.refl (p : Glyph → α) (s : DisplayState) : Broken p s s [] := ⟨rfl, rfl, [], (List.append_nil _).symm, rfl⟩

/-- The glyphs at the end of what waits, which a break keeps. -/
theorem waiting_rest {s : DisplayState} {k : DisplayState × Nat} {b : Break} (h : Flushed s k)
    (hwaiting : s.pending.map p = b.waiting.map p) (hkept : k.2 = b.kept) :
    b.waiting.length = s.lineIndex ∧ (s.arrays.glyphs (s.lineIndex - k.2) k.2).map p = b.rest.map p := by
  have hlength : b.waiting.length = s.lineIndex := by
    rw [← List.length_map (f := p), ← hwaiting, List.length_map, DisplayState.pending, LineArrays.length_glyphs]
  refine ⟨hlength, ?_⟩
  have hsplit := LineArrays.glyphs_add s.arrays 0 (s.lineIndex - k.2) k.2
  rw [Nat.sub_add_cancel h.le, Nat.zero_add] at hsplit
  rw [Break.rest, List.map_drop, ← hwaiting, hlength, ← hkept, ← List.map_drop, DisplayState.pending, hsplit,
    List.drop_left' (LineArrays.length_glyphs _ _ _)]

/-- They are pending after it. -/
theorem kept_rest {s : DisplayState} {k : DisplayState × Nat} {b : Break} (h : Flushed s k) (hstays : Stays p k)
    (hwaiting : s.pending.map p = b.waiting.map p) (hkept : k.2 = b.kept) :
    (keepLineChars k.1 k.2).pending.map p = b.rest.map p := by
  rw [← (waiting_rest h hwaiting hkept).2]
  refine LineArrays.map_glyphs_congr fun j hj => ?_
  rw [Nat.zero_add, hstays j hj, h.arrays, h.lineIndex]

/-- A break, and others after it. -/
theorem Broken.cons {s t : DisplayState} {k : DisplayState × Nat} {b : Break} {bs : List Break} (h : Flushed s k)
    (hstays : Stays p k) (hp : ShowsWidth p) (hwaiting : s.pending.map p = b.waiting.map p) (hkept : k.2 = b.kept)
    (hx : k.1.x = columns (s.arrays.glyphs (s.lineIndex - k.2) k.2)) (ht : Broken p (keepLineChars k.1 k.2) t bs) :
    Broken p s t (b :: bs) := by
  obtain ⟨hlength, hkeeps⟩ := waiting_rest h hwaiting hkept
  have hrest := kept_rest h hstays hwaiting hkept
  have hrow : (s.arrays.glyphs 0 (s.lineIndex - k.2)).map p = b.row.map p := by
    rw [Break.row, List.map_take, ← hwaiting, hlength, ← hkept, ← List.map_take]
    have hsplit := LineArrays.glyphs_add s.arrays 0 (s.lineIndex - k.2) k.2
    rw [Nat.sub_add_cancel h.le] at hsplit
    rw [DisplayState.pending, hsplit, List.take_left' (LineArrays.length_glyphs _ _ _)]
  obtain ⟨new, hrows, hnew⟩ := ht.rows
  have hrows : t.rows = k.1.rows ++ new := hrows
  refine ⟨?_, ?_, s.arrays.glyphs 0 (s.lineIndex - k.2) :: new, ?_, ?_⟩
  · rw [ht.pending]
    cases bs using List.reverseRecOn with
    | nil => exact hrest
    | append_singleton bs b' => rw [← List.cons_append, List.getLast?_concat, List.getLast?_concat]; rfl
  · rw [ht.x]
    cases bs using List.reverseRecOn with
    | nil => exact hx.trans (hp.columns hkeeps)
    | append_singleton bs b' => rw [← List.cons_append, List.getLast?_concat, List.getLast?_concat]; rfl
  · rw [hrows, h.rows, List.append_assoc]
    rfl
  · rw [List.map_cons, List.map_cons, hrow, hnew]

/-- A row that may have to be wrapped: what is in front of its last fragment, where that begins, its glyphs, and how many breaks there
may be. -/
structure Wraps (p : Glyph → α) (e : Setting) (s : DisplayState) (front : List Glyph) (x : Int) (gs : List Glyph) (m : Nat) : Prop where
  tiled : Tiled 0 s.fragments s.lineIndex
  last : ∀ frag, s.fragments.getLast? = some frag → frag.lineIndex = front.length
  pending : s.pending.map p = (front ++ gs).map p
  column : s.x = x + columns gs
  fits : e.width < s.x → 0 ≤ e.width ∧ x ≤ e.width
  turns : gs.length + (if x = 0 then 0 else 1) ≤ m

/-- A turn takes of the last fragment what fits. -/
theorem Wraps.taken (hp : ShowsWidth p) {e : Setting} {s : DisplayState} {front gs : List Glyph} {x : Int} {m : Nat}
    (h : Wraps p e s front x gs m) (hlong : e.width < s.x) {k : DisplayState × Nat} (hk : flushRow e s = some k) :
    gs ≠ [] ∧ k.2 = gs.length - taken e.width x gs := by
  rw [flushRow] at hk
  obtain ⟨frag, hfrag, hk⟩ := Option.bind_eq_some_iff.1 hk
  obtain ⟨fit, hfit, hk⟩ := Option.bind_eq_some_iff.1 hk
  have hkept : k.2 = frag.len - fit.1 := congrArg Prod.snd (Option.some.inj hk).symm
  obtain ⟨-, hend⟩ := last_fragment h.tiled hfrag
  have hstart := h.last frag hfrag
  have hpending := h.pending
  have hlength : s.lineIndex = front.length + gs.length := by
    rw [← List.length_append, ← List.length_map (f := p), ← hpending, List.length_map, DisplayState.pending,
      LineArrays.length_glyphs]
  have hlen : frag.len = gs.length := by omega
  have hword : (s.arrays.glyphs frag.lineIndex frag.len).map p = gs.map p := by
    have hsplit := LineArrays.glyphs_add s.arrays 0 frag.lineIndex frag.len
    rw [hend, Nat.zero_add] at hsplit
    rw [DisplayState.pending, hsplit, List.map_append, List.map_append] at hpending
    exact (List.append_inj hpending (by rw [List.length_map, List.length_map, LineArrays.length_glyphs, hstart])).2
  have htake : ∀ k ≤ frag.len, columns (s.arrays.glyphs frag.lineIndex k) = columns (gs.take k) := by
    intro k hk
    refine hp.columns ?_
    rw [List.map_take, ← hword, ← List.map_take]
    have hsplit := LineArrays.glyphs_add s.arrays frag.lineIndex k (frag.len - k)
    rw [Nat.add_sub_of_le hk] at hsplit
    rw [hsplit, List.take_left' (LineArrays.length_glyphs _ _ _)]
  have hne : gs ≠ [] := by
    rintro rfl
    exact absurd (h.column.trans (Int.add_zero x) ▸ hlong) (not_lt.2 (h.fits hlong).2)
  rw [h.column, ← List.take_length (l := gs), ← hlen] at hfit
  have hfit := fitLen_fst s.arrays frag.lineIndex gs htake hfit
  rw [if_neg (by rw [hlen]; exact (List.length_pos_iff.2 hne).ne'), hlen] at hfit
  exact ⟨hne, by rw [hkept, hlen, show fit.1 = Layout.taken e.width x gs from hfit]⟩

/-- The row after a turn, with a break less to come. -/
theorem Wraps.next (hp : ShowsWidth p) {e : Setting} {s : DisplayState} {front gs : List Glyph} {x : Int} {m : Nat}
    (h : Wraps p e s front x gs m) (hlong : e.width < s.x) {k : DisplayState × Nat} (hk : flushRow e s = some k)
    (hstays : Stays p k) :
    ∃ m', m = m' + 1 ∧ Wraps p e (keepLineChars k.1 k.2) [] 0 (gs.drop (Layout.taken e.width x gs)) m' := by
  obtain ⟨hne, hkept⟩ := h.taken hp hlong hk
  have htaken := taken_le e.width x hne
  have hpos := List.length_pos_iff.2 hne
  have hturns := h.turns
  have halone := Alone.of_flushRow h.tiled hk
  have hflushed := flushRow_spec e h.tiled hk
  have hnext := kept_rest (b := ⟨front ++ gs, gs.length - Layout.taken e.width x gs⟩) hflushed hstays h.pending hkept
  rw [rest_eq front gs htaken] at hnext
  have hwidth := (h.fits hlong).1
  obtain ⟨m', rfl⟩ := Nat.exists_eq_add_of_le' (show 1 ≤ m by omega)
  refine ⟨m', rfl, hflushed.tiled, fun frag hfrag => (halone.last hfrag).1, hnext, ?_, fun _ => ⟨hwidth, hwidth⟩, ?_⟩
  · rw [halone.x, Int.zero_add, hp.columns hnext]
  · rw [if_pos rfl, List.length_drop]
    by_cases hzero : x = 0
    · rw [if_pos hzero] at hturns
      have htook : 1 ≤ Layout.taken e.width x gs := by
        rw [Layout.taken]
        split_ifs with hnone
        · exact Nat.le_refl 1
        · exact Nat.pos_of_ne_zero fun h0 => hnone ⟨h0, hzero⟩
      omega
    · rw [if_neg hzero] at hturns
      omega

/-- The loop of `WRAP_LINE` makes the breaks of the line. -/
theorem Wraps.wrapLine (hp : ShowsWidth p) {e : Setting} {n m : Nat} {s t : DisplayState} {front gs : List Glyph} {x : Int}
    (h : Wraps p e s front x gs m) (hstays : ∀ k ∈ wrapLineKeeps e n s, Stays p k) (ht : wrapLine e n s = some t) :
    Broken p s t (lineBreaks e.width m front x gs) := by
  induction n generalizing s front gs x m with
  | zero =>
    rw [Layout.wrapLine] at ht
    split_ifs at ht with hlong
    rw [← Option.some.inj ht, lineBreaks_fits m front (h.column ▸ not_lt.1 hlong)]
    exact Broken.refl p s
  | succ n ih =>
    rw [Layout.wrapLine] at ht
    rw [wrapLineKeeps] at hstays
    split_ifs at ht hstays with hlong
    · obtain ⟨k, hk, ht⟩ := Option.bind_eq_some_iff.1 ht
      rw [hk] at hstays
      have hfirst := hstays k List.mem_cons_self
      obtain ⟨m', rfl, hnext⟩ := h.next hp hlong hk hfirst
      rw [lineBreaks_succ e.width m' front (h.column ▸ hlong)]
      refine Broken.cons (flushRow_spec e h.tiled hk) hfirst hp h.pending (h.taken hp hlong hk).2 (flushRow_rest e h.tiled hk).1 ?_
      exact ih hnext (fun k' hk' => hstays k' (List.mem_cons_of_mem k hk')) ht
    · rw [← Option.some.inj ht, lineBreaks_fits m front (h.column ▸ not_lt.1 hlong)]
      exact Broken.refl p s

/-! ## Words -/

/-- Each fragment has the width of its glyphs. -/
def DisplayState.Weighed (s : DisplayState) : Prop := ∀ f ∈ s.fragments, f.width = columns (s.arrays.ofFragment f)

/-- The widths of fragments side by side. -/
theorem sum_widths {a : LineArrays} {i n : Nat} {fs : List TextDisplay.TextFragment} (h : Tiled i fs n)
    (hw : ∀ f ∈ fs, f.width = columns (a.ofFragment f)) : (fs.map (·.width)).sum = columns (a.glyphs i (n - i)) := by
  rw [← row_eq a h]
  clear h
  induction fs with
  | nil => rfl
  | cons f fs ih =>
    rw [List.map_cons, List.sum_cons, List.flatMap_cons, columns_append, hw f List.mem_cons_self,
      ih fun g hg => hw g (List.mem_cons_of_mem f hg)]

/-- A fragment that is in the arrays, between two indices. -/
theorem tiled_mem {i n : Nat} {fs : List TextDisplay.TextFragment} (h : Tiled i fs n) {f : TextDisplay.TextFragment} (hf : f ∈ fs) :
    i ≤ f.lineIndex ∧ f.lineIndex + f.len ≤ n := by
  obtain ⟨pre, post, rfl⟩ := List.append_of_mem hf
  obtain ⟨m, hpre, hm, hpost⟩ := tiled_append.1 h
  exact ⟨hm ▸ hpre.le, hm ▸ hpost.le⟩

/-- The fragments from one of them on begin where it begins, or behind. -/
theorem tiled_drop {i n : Nat} {fs : List TextDisplay.TextFragment} {frag : TextDisplay.TextFragment}
    (htiled : Tiled 0 fs n) (hfrag : fs[i]? = some frag) : Tiled frag.lineIndex (fs.drop i) n := by
  rw [← List.take_append_drop i fs] at htiled
  obtain ⟨m, -, hdrop⟩ := tiled_append.1 htiled
  obtain ⟨hlt, hget⟩ := List.getElem?_eq_some_iff.1 hfrag
  have hm := hdrop
  rw [List.drop_eq_getElem_cons hlt, hget] at hm
  exact hm.1 ▸ hdrop

/-- The glyphs that a flush keeps are moved to the front of the arrays. -/
theorem Flushed.kept {a : DisplayState} {k : DisplayState × Nat} (h : Flushed a k) {i n : Nat} (hin : i + n ≤ k.2) :
    ((keepLineChars k.1 k.2).arrays.glyphs i n).map Glyph.bare = (a.arrays.glyphs (a.lineIndex - k.2 + i) n).map Glyph.bare := by
  refine LineArrays.map_glyphs_congr fun j hj => ?_
  rw [keepLineChars_glyph k.1 (show i + j < k.2 by omega), h.arrays, h.lineIndex, Nat.add_assoc]
  rfl

/-- `WRAP_WORD` breaks the row in front of the current word. -/
theorem wrapWord_broken (hp : ShowsWidth p) {e : Setting} {s t : DisplayState} {gs : List Glyph}
    (htiled : Tiled 0 s.fragments s.lineIndex) (hweighed : s.Weighed) {frag : TextDisplay.TextFragment}
    (hfrag : s.fragments[s.wordIndex]? = some frag) (hpending : s.pending.map p = gs.map p)
    (hstays : ∀ k ∈ wrapWordKeeps e s, Stays p k) (ht : wrapWord e s = some t) :
    Broken p s t (if e.width < s.x then [⟨gs, gs.length - frag.lineIndex⟩] else []) ∧ t.Weighed ∧
      t.wordAt = if e.width < s.x then 0 else frag.lineIndex := by
  rw [wrapWord] at ht
  rw [wrapWordKeeps] at hstays
  split_ifs at ht hstays ⊢ with hlong
  · obtain ⟨k, hk, rfl⟩ := Option.map_eq_some_iff.1 ht
    rw [hk] at hstays
    have hflushed := flushWords_spec e htiled hk
    have hback := tiled_drop htiled hfrag
    have hlength : gs.length = s.lineIndex := by
      rw [← List.length_map (f := p), ← hpending, List.length_map, DisplayState.pending, LineArrays.length_glyphs]
    rw [flushWords, hfrag] at hk
    have hk := Option.some.inj hk
    have hkept : k.2 = s.lineIndex - frag.lineIndex := (congrArg Prod.snd hk).symm
    have hfragments : k.1.fragments = (s.fragments.drop s.wordIndex).map fun f => { f with lineIndex := f.lineIndex - frag.lineIndex } :=
      (congrArg (fun k => k.1.fragments) hk).symm
    have hstart : s.lineIndex - k.2 = frag.lineIndex := by
      have hle := hback.le
      omega
    have hx : k.1.x = columns (s.arrays.glyphs (s.lineIndex - k.2) k.2) := by
      rw [hstart, hkept, ← sum_widths hback fun f hf => hweighed f (List.mem_of_mem_drop hf), ← hk]
      dsimp only
      rw [List.map_map]
      rfl
    refine ⟨?_, fun f hf => ?_, ?_⟩
    · refine Broken.cons (b := ⟨gs, gs.length - frag.lineIndex⟩) hflushed (hstays k List.mem_cons_self) hp hpending (by rw [hkept, hlength]) hx ?_
      exact ⟨rfl, rfl, [], (List.append_nil _).symm, rfl⟩
    · have hf : f ∈ k.1.fragments := hf
      have hin := (tiled_mem hflushed.tiled hf).2
      rw [hfragments] at hf
      obtain ⟨g, hg, rfl⟩ := List.mem_map.1 hf
      have hlow := (tiled_mem hback hg).1
      have hsame := showsWidth_bare.columns (hflushed.kept hin)
      rw [hstart, Nat.add_sub_of_le hlow] at hsame
      exact (hweighed g (List.mem_of_mem_drop hg)).trans hsame.symm
    · obtain ⟨hlt, hget⟩ := List.getElem?_eq_some_iff.1 hfrag
      have hfirst : k.1.fragments[0]? = some { frag with lineIndex := frag.lineIndex - frag.lineIndex } := by
        rw [hfragments, List.drop_eq_getElem_cons hlt, hget]
        rfl
      have hwordAt : DisplayState.wordAt { keepLineChars k.1 k.2 with wordIndex := 0 } =
          ((k.1.fragments[0]?).map (·.lineIndex)).getD k.2 := rfl
      rw [hwordAt, hfirst]
      exact Nat.sub_self _
  · rw [← Option.some.inj ht, DisplayState.wordAt, hfrag]
    exact ⟨Broken.refl p s, hweighed, rfl⟩

/-! ## The flush of a fragment -/

/-- The arrays have what waits for a row, and where the row is broken at a word, the current word begins at the same glyph. -/
structure Holds (p : Glyph → α) (e : Setting) (s : DisplayState) (r : Row) : Prop where
  glyphs : s.pending.map p = r.glyphs.map p
  x : s.x = r.x
  word : e.wrap = .word → ¬s.Full → s.wordAt = r.word ∧ s.lastWordSpace = r.blank ∧ s.Weighed

theorem Holds.length {e : Setting} {s : DisplayState} {r : Row} (h : Holds p e s r) : r.glyphs.length = s.lineIndex := by
  rw [← List.length_map (f := p), ← h.glyphs, List.length_map, DisplayState.pending, LineArrays.length_glyphs]

/-- The arrays are full when as many glyphs wait. -/
theorem Holds.full_iff {e : Setting} {s : DisplayState} {r : Row} (h : Holds p e s r) (hs : s.Ok e) : s.Full ↔ r.Full := by
  have hfew := hs.fragments
  rw [DisplayState.Full, Row.Full, h.length]
  exact ⟨fun hfull => hfull.elim (fun hfull => hfull.trans hfew) id, Or.inr⟩

theorem Holds.made {e : Setting} {s : DisplayState} {r : Row} (h : Holds p e s r) : s.made e = s.current.glyphs e r.x := by
  rw [← h.x]
  rfl

/-- The word start is updated where another word begins. -/
theorem Holds.updateWord {e : Setting} {s : DisplayState} {r : Row} (h : Holds p e s r) (hs : s.Ok e) (hw : e.wrap = .word)
    (hfull : ¬s.Full) :
    (updateWord s).wordAt = (r.begin s.current).word ∧ (updateWord s).lastWordSpace = (r.begin s.current).blank := by
  obtain ⟨hword, hblank, -⟩ := h.word hw hfull
  have hany : 1 ≤ s.fragments.length ↔ r.glyphs ≠ [] := by
    rw [← List.length_pos_iff, h.length]
    refine ⟨fun hpos => Nat.le_trans hpos hs.fragments, fun hpos => Nat.pos_of_ne_zero fun hzero => ?_⟩
    have htiled := hs.tiled
    rw [List.length_eq_zero_iff.1 hzero] at htiled
    exact absurd hpos (Nat.not_lt.2 (Nat.le_of_eq htiled.symm))
  have hsame : (1 ≤ s.fragments.length ∧ s.lastWordSpace ≠ s.lastSpace) ↔ (r.glyphs ≠ [] ∧ r.blank ≠ s.current.blank) := by
    rw [hany, hblank]
    rfl
  rw [Layout.updateWord, Row.begin]
  by_cases hbegin : 1 ≤ s.fragments.length ∧ s.lastWordSpace ≠ s.lastSpace
  · rw [if_pos hbegin, if_pos (hsame.1 hbegin), DisplayState.wordAt, List.getElem?_eq_none (Nat.le_refl _)]
    exact ⟨h.length.symm, rfl⟩
  · rw [if_neg hbegin, if_neg fun hbegin' => hbegin (hsame.2 hbegin')]
    exact ⟨hword, hblank⟩

/-- The current word begins with one of the fragments, or with the one that is added. -/
theorem Added.wordAt {e : Setting} {s a : DisplayState} (ha : Added e s a) (hs : s.wordIndex ≤ s.fragments.length) :
    ∃ frag, a.fragments[a.wordIndex]? = some frag ∧ frag.lineIndex = s.wordAt := by
  obtain ⟨arrays, hothers⟩ := ha.others
  have hindex : a.wordIndex = s.wordIndex := by rw [hothers]
  rw [DisplayState.wordAt, hindex, ha.fragments]
  rcases Nat.lt_or_eq_of_le hs with hlt | heq
  · refine ⟨s.fragments[s.wordIndex], ?_, ?_⟩
    · rw [List.getElem?_append_left hlt, List.getElem?_eq_getElem hlt]
    · rw [List.getElem?_eq_getElem hlt]
      rfl
  · refine ⟨_, (List.getElem?_append_right heq.ge).trans (by rw [heq, Nat.sub_self]; rfl), ?_⟩
    rw [List.getElem?_eq_none heq.ge]
    rfl

theorem Added.weighed {e : Setting} {s a : DisplayState} (ha : Added e s a) (hm : s.Measures e)
    (htiled : Tiled 0 s.fragments s.lineIndex) (h : s.Weighed) : a.Weighed := by
  intro f hf
  rw [ha.fragments] at hf
  rcases List.mem_append.1 hf with hf | hf
  · have hend := (tiled_mem htiled hf).2
    rw [h f hf]
    exact congrArg columns (LineArrays.glyphs_congr fun j hj => (ha.outside _ (Or.inl (by omega))).symm)
  · rw [List.mem_singleton.1 hf]
    exact hm.short.trans (congrArg columns ha.inside.symm)

/-- The fragment is behind what waits. -/
theorem Holds.added {e : Setting} {s a : DisplayState} {r : Row} (h : Holds p e s r) (hm : s.Measures e)
    (ha : Added e (Layout.updateWord s) a) :
    a.pending.map p = (r.glyphs ++ s.current.glyphs e r.x).map p ∧ a.x = r.x + columns (s.current.glyphs e r.x) := by
  constructor
  · rw [ha.pending, made_updateWord, h.made, List.map_append, List.map_append, ← h.glyphs, updateWord_same]
    rfl
  · rw [ha.x, made_updateWord, hm.short, h.made, updateWord_same, ← h.x]

/-- So it may have to be wrapped. -/
theorem Holds.wraps {e : Setting} {s a : DisplayState} {r : Row} (h : Holds p e s r) (hs : s.Ok e) (hm : s.Measures e)
    (ha : Added e (Layout.updateWord s) a) (hfits : e.width < a.x → 0 ≤ e.width ∧ r.x ≤ e.width) :
    Wraps p e a r.glyphs r.x (s.current.glyphs e r.x) ((s.current.glyphs e r.x).length + 1) := by
  obtain ⟨hpending, hx⟩ := h.added hm ha
  refine ⟨ha.tiled hs.updateWord.tiled, fun frag hfrag => ?_, hpending, hx, hfits, ?_⟩
  · rw [ha.fragments, List.getLast?_append] at hfrag
    rw [← Option.some.inj hfrag, h.length]
    exact show (Layout.updateWord s).lineIndex = s.lineIndex by rw [updateWord_same]
  · split_ifs <;> omega

/-- Where the fragment is added, the row is broken as it should be. -/
theorem Holds.wrapRows (hp : ShowsWidth p) {e : Setting} {s a t : DisplayState} {r : Row} (h : Holds p e s r) (hs : s.Ok e)
    (hm : s.Measures e) (hfull : ¬s.Full) (ha : Added e (Layout.updateWord s) a)
    (hfits : e.wrap = .line → e.width < a.x → 0 ≤ e.width ∧ r.x ≤ e.width)
    (hstays : ∀ k ∈ wrapRowsKeeps e a, Stays p k) (ht : wrapRows e a = some t) :
    Broken p a t (r.breaks e s.current) ∧
      (e.wrap = .word → t.Weighed ∧ t.wordAt = if (r.breaks e s.current) = [] then (r.begin s.current).word else 0) := by
  obtain ⟨hpending, hx⟩ := h.added hm ha
  rw [Layout.wrapRows] at ht
  rw [wrapRowsKeeps] at hstays
  rw [Row.breaks]
  cases hw : e.wrap with
  | truncate =>
    rw [hw] at ht
    rw [← Option.some.inj ht]
    exact ⟨Broken.refl p a, fun hword => absurd hword (by decide)⟩
  | line =>
    rw [hw] at ht hstays
    exact ⟨(h.wraps hs hm ha (hfits hw)).wrapLine hp hstays ht, fun hword => absurd hword (by decide)⟩
  | word =>
    rw [hw] at ht hstays
    obtain ⟨frag, hfrag, hstart⟩ := ha.wordAt (hs.updateWord.word hw)
    have hbegin := (h.updateWord hs hw hfull).1
    rw [← hstart] at hbegin
    have hm' : (Layout.updateWord s).Measures e :=
      ⟨by rw [made_updateWord]; exact hm.short, by rw [made_updateWord]; exact hm.even⟩
    have hweighed : (Layout.updateWord s).Weighed := by
      rw [updateWord_same]
      exact (h.word hw hfull).2.2
    obtain ⟨hbroken, hweighed', hwordAt⟩ :=
      wrapWord_broken hp (ha.tiled hs.updateWord.tiled) (ha.weighed hm' hs.updateWord.tiled hweighed) hfrag hpending hstays ht
    rw [hx, List.length_append, hbegin] at hbroken
    rw [hx, hbegin] at hwordAt
    refine ⟨hbroken, fun _ => ⟨hweighed', ?_⟩⟩
    rw [hwordAt]
    by_cases hlong : e.width < r.x + columns (s.current.glyphs e r.x)
    · rw [if_pos hlong, if_pos hlong, if_neg (List.cons_ne_nil _ _)]
    · rw [if_neg hlong, if_neg hlong, if_pos rfl]

/-- A fragment that is flushed well, and is not dropped, is added, and the row is wrapped. -/
theorem flushed_added {e : Setting} {s : DisplayState} (hs : s.Ok e) (hm : s.Measures e) (hne : s.fragment ≠ []) (hfull : ¬s.Full)
    (hfits : FlushFits e s) :
    ∃ a v, Added e (Layout.updateWord s) a ∧ keeps e s = wrapRowsKeeps e a ∧ Layout.wrapRows e a = some v ∧
      flushFragment e s = some { v with fragment := [] } ∧ (e.wrap = .line → e.width < a.x → 0 ≤ e.width ∧ s.x ≤ e.width) := by
  obtain ⟨hroom, hline⟩ := (hfits.resolve_left hne).resolve_left hfull
  obtain ⟨a, ha, hadded, hflush⟩ := flushFragment_added hs hne hfull hroom
  obtain ⟨t, ht⟩ := Option.isSome_iff_exists.1 ((flushFragment_isSome_iff hs hm).2 hfits)
  obtain ⟨v, hv, rfl⟩ := Option.map_eq_some_iff.1 (hflush.symm.trans ht)
  have htaken : ¬(s.fragment = [] ∨ maxScreenWidth ≤ s.fragments.length ∨ maxScreenWidth ≤ s.lineIndex) :=
    not_or.2 ⟨hne, hfull⟩
  refine ⟨a, v, hadded, ?_, hv, ht, fun hw hlong => (hline hw).resolve_left (not_le.2 ?_)⟩
  · rw [keeps, if_neg htaken, ha]
    rfl
  · rwa [hadded.x, made_updateWord, hm.short, updateWord_same] at hlong

/-- A fragment is flushed as its word is added. -/
theorem Holds.flush (hp : ShowsWidth p) {e : Setting} {s t : DisplayState} {r : Row} (h : Holds p e s r) (hs : s.Ok e)
    (hm : s.Measures e) (hne : s.fragment ≠ []) (hstays : ∀ k ∈ keeps e s, Stays p k) (ht : flushFragment e s = some t) :
    Holds p e t (r.add e s.current) ∧ ∃ new, t.rows = s.rows ++ new ∧
      new.map (List.map p) = (if r.Full then [] else r.breaks e s.current).map fun b => b.row.map p := by
  by_cases hfull : s.Full
  · have hfull' := (h.full_iff hs).1 hfull
    rw [Row.add, if_pos hfull', if_pos hfull']
    rcases flushFragment_full e hne hfull with hflush | hflush
    · rw [← Option.some.inj (hflush.symm.trans ht)]
      exact ⟨⟨h.glyphs, h.x, fun _ hroom => absurd hfull hroom⟩, [], (List.append_nil _).symm, rfl⟩
    · rw [← Option.some.inj (hflush.symm.trans ht), updateWord_same]
      exact ⟨⟨h.glyphs, h.x, fun _ hroom => absurd hfull hroom⟩, [], (List.append_nil _).symm, rfl⟩
  obtain ⟨a, v, hadded, hkeeps, hv, hflush, hline⟩ := flushed_added hs hm hne hfull ((flushFragment_isSome_iff hs hm).1 (ht ▸ rfl))
  obtain rfl := Option.some.inj (hflush.symm.trans ht)
  rw [hkeeps] at hstays
  rw [h.x] at hline
  obtain ⟨hbroken, hword⟩ := h.wrapRows hp hs hm hfull hadded hline hstays hv
  obtain ⟨hpending, hx⟩ := h.added hm hadded
  have hfields := updateWord_same s
  obtain ⟨arrays, hothers⟩ := hadded.others
  have hrows : a.rows = s.rows := by rw [hothers, hfields]
  have hspace : v.lastWordSpace = (Layout.updateWord s).lastWordSpace := by
    have hwrapped := (wrapRows_spec e (p := Glyph.bare) (hadded.tiled hs.updateWord.tiled) (fun k _ => stays_bare k) hv).1
    rw [hwrapped.others, hothers]
  obtain ⟨new, hnew, hsame⟩ := hbroken.rows
  have hroom' : ¬r.Full := fun hfull' => hfull ((h.full_iff hs).2 hfull')
  rw [Row.add, if_neg hroom', if_neg hroom']
  refine ⟨?_, new, hnew.trans (congrArg (· ++ new) hrows), hsame⟩
  have hbegin := fun hw => h.updateWord hs hw hfull
  cases hlast : (r.breaks e s.current).getLast? with
  | none =>
    have hnil := List.getLast?_eq_none_iff.1 hlast
    refine ⟨?_, ?_, fun hw _ => ⟨?_, hspace.trans (hbegin hw).2, (hword hw).1⟩⟩
    · exact (hbroken.pending.trans (by rw [hlast]; rfl)).trans hpending
    · exact (hbroken.x.trans (by rw [hlast]; rfl)).trans hx
    · exact (hword hw).2.trans (if_pos hnil)
  | some b =>
    have hcons : r.breaks e s.current ≠ [] := fun hnil => by
      rw [hnil] at hlast
      cases hlast
    refine ⟨?_, ?_, fun hw _ => ⟨?_, hspace.trans (hbegin hw).2, (hword hw).1⟩⟩
    · exact hbroken.pending.trans (by rw [hlast]; rfl)
    · exact hbroken.x.trans (by rw [hlast]; rfl)
    · exact (hword hw).2.trans (if_neg hcons)

/-! ## The characters of a line -/

theorem Row.after_append (e : Setting) (r : Row) (a b : List Word) : r.after e (a ++ b) = (r.after e a).after e b := List.foldl_append

theorem Row.shed_append (e : Setting) (r : Row) (a b : List Word) : r.shed e (a ++ b) = r.shed e a ++ (r.after e a).shed e b := by
  induction a generalizing r with
  | nil => rfl
  | cons w a ih => rw [List.cons_append, Row.shed, Row.shed, ih, List.append_assoc]; rfl

theorem Row.all_append (e : Setting) (Q : Row → Word → Prop) (r : Row) (a b : List Word) :
    r.All e Q (a ++ b) ↔ r.All e Q a ∧ (r.after e a).All e Q b := by
  induction a generalizing r with
  | nil => exact (and_iff_right trivial).symm
  | cons w a ih => rw [List.cons_append, Row.All, Row.All, ih, and_assoc]; rfl

theorem all_and (e : Setting) (Q Q' : Row → Word → Prop) (r : Row) (ws : List Word) :
    r.All e (fun r w => Q r w ∧ Q' r w) ws ↔ r.All e Q ws ∧ r.All e Q' ws := by
  induction ws generalizing r with
  | nil => exact (and_iff_left trivial).symm
  | cons w ws ih => rw [Row.All, Row.All, Row.All, ih, and_and_and_comm]

/-- What is asked of the state where a fragment is flushed is what is asked where its word is added. -/
structure Tests (p : Glyph → α) (e : Setting) (P : DisplayState → Prop) (Q : Row → Word → Prop) : Prop where
  empty : ∀ f, f.fragment = [] → P f
  word : ∀ f r, f.Ok e → Holds p e f r → f.fragment ≠ [] → (P f ↔ Q r f.current)
  fits : ∀ f, f.Ok e → P f → FlushFits e f
  stays : ∀ f, P f → ∀ k ∈ keeps e f, Stays p k

/-- The rows that were flushed meanwhile are those that were broken off. -/
def Sheds (p : Glyph → α) (s t : DisplayState) (rows : List (List Glyph)) : Prop :=
  ∃ new, t.rows = s.rows ++ new ∧ new.map (List.map p) = rows.map (List.map p)

theorem Sheds.trans {s t u : DisplayState} {a b : List (List Glyph)} (h : Sheds p s t a) (h' : Sheds p t u b) : Sheds p s u (a ++ b) := by
  obtain ⟨new, hrows, hsame⟩ := h
  obtain ⟨new', hrows', hsame'⟩ := h'
  exact ⟨new ++ new', by rw [hrows', hrows, List.append_assoc], by rw [List.map_append, List.map_append, hsame, hsame']⟩

theorem Sheds.of_eq {s t : DisplayState} (h : t.rows = s.rows) : Sheds p s t [] := ⟨[], h.trans (List.append_nil _).symm, rfl⟩

/-- The current fragment is that of a word. -/
structure Spells (s : DisplayState) (w : Word) : Prop where
  chars : s.fragment = w.chars
  current : w.chars ≠ [] → s.current = w

theorem Tests.flush {P : DisplayState → Prop} {Q : Row → Word → Prop} {e : Setting} (h : Tests p e P Q) (hp : ShowsWidth p)
    (he : e.Narrow) {s : DisplayState} {r : Row} {w : Word} (hs : s.Ok e) (hr : Holds p e s r) (hw : Spells s w) :
    (P s ↔ r.All e Q w.toList) ∧ (P s → ∃ t, flushFragment e s = some t ∧ Holds p e t (r.after e w.toList) ∧
      Sheds p s t (r.shed e w.toList)) := by
  rw [Word.toList]
  by_cases hnone : w.chars = []
  · have hfragment := hw.chars.trans hnone
    rw [if_pos hnone]
    exact ⟨iff_of_true (h.empty s hfragment) trivial, fun _ => ⟨s, if_pos hfragment, hr, Sheds.of_eq rfl⟩⟩
  · have hne : s.fragment ≠ [] := fun hempty => hnone (hw.chars.symm.trans hempty)
    rw [if_neg hnone, ← hw.current hnone]
    refine ⟨(h.word s r hs hr hne).trans (and_iff_left trivial).symm, fun hP => ?_⟩
    obtain ⟨t, ht⟩ := Option.isSome_iff_exists.1 ((flushFragment_isSome_iff hs (hs.measures he)).2 (h.fits s hs hP))
    obtain ⟨hholds, new, hnew, hsame⟩ := hr.flush hp hs (hs.measures he) hne (h.stays s hP) ht
    refine ⟨t, ht, hholds, new, hnew, hsame.trans ?_⟩
    rw [Row.shed, Row.shed, List.append_nil]
    split_ifs
    · rfl
    · rw [List.map_map]
      rfl

theorem Holds.at {e : Setting} {s : DisplayState} {r : Row} (h : Holds p e s r) (c : CharCall) : Holds p e (c.at s) r :=
  ⟨h.glyphs, h.x, h.word⟩

theorem Holds.storeChar {e : Setting} {s : DisplayState} {r : Row} (h : Holds p e s r) (c : CharCall) :
    Holds p e (storeChar e s c.offset1 c.offset2 c.ch) r := ⟨h.glyphs, h.x, h.word⟩

theorem CharCall.stored_ch (c : CharCall) : c.stored.ch = c.ch % 2 ^ styleShift := by
  rw [CharCall.stored]
  split_ifs <;> rfl

/-- The character goes on with the word just where the fragment is not flushed before it. -/
theorem Spells.takes {e : Setting} {s : DisplayState} {w : Word} (h : Spells s w) (c : CharCall) :
    breaksBefore e s c.offset1 c.ch = !w.takes e c := by
  rw [breaksBefore, Word.takes, c.stored_ch, h.chars]
  by_cases hnone : w.chars = []
  · simp [hnone, bne, maxWordSize]
  · have hcurrent := h.current hnone
    have hblank : s.lastSpace = w.blank := congrArg Word.blank hcurrent
    have hstyle : s.lastStyle = w.style := congrArg Word.style hcurrent
    have hlong : 1 ≤ w.chars.length := List.length_pos_iff.2 hnone
    rw [hblank, hstyle, decide_eq_true hlong, Bool.true_and, List.isEmpty_eq_false_iff.2 hnone, Bool.false_or, Bool.not_and,
      Bool.not_and, Bool.not_and, ← decide_not]
    simp only [not_lt, bne, Bool.not_not]

/-- A character is stored in the fragment of a word. -/
theorem Spells.storeChar {e : Setting} {s : DisplayState} {w : Word} (h : Spells s w) {c : CharCall} (hmode : s.curHexMode = c.hexMode) :
    Spells (storeChar e s c.offset1 c.offset2 c.ch) (w.push e c) := by
  have hstored : stored s c.offset1 c.offset2 c.ch = c.stored := by rw [stored, CharCall.stored, hmode]
  have hchars : s.fragment ++ [stored s c.offset1 c.offset2 c.ch] = w.chars ++ [c.stored] := by rw [h.chars, hstored]
  refine ⟨hchars, fun _ => ?_⟩
  rw [Word.push, c.stored_ch, ← hchars]
  rfl

/-- A fragment that is flushed is that of no word. -/
theorem spells_none {s : DisplayState} (h : s.fragment = []) : Spells s Word.none := ⟨h, fun hne => absurd rfl hne⟩

/-- Between two characters: what waits for a row, and the word that goes on. -/
structure Follows (p : Glyph → α) (e : Setting) (s : DisplayState) (r : Row) (w : Word) : Prop where
  between : s.Between e
  holds : Holds p e s r
  spells : Spells s w

theorem Follows.at {e : Setting} {s : DisplayState} {r : Row} {w : Word} (h : Follows p e s r w) (c : CharCall) :
    Follows p e (c.at s) r w :=
  ⟨h.between.at c, h.holds.at c, h.spells.chars, h.spells.current⟩

/-- A character that goes on with its word is stored. -/
theorem Follows.store {e : Setting} {s : DisplayState} {r : Row} {w : Word} (h : Follows p e s r w) {c : CharCall}
    (hmode : s.curHexMode = c.hexMode) (htakes : w.takes e c = true) :
    charFlushes e s c = [] ∧ displayChar e s c.offset1 c.offset2 c.ch = some (storeChar e s c.offset1 c.offset2 c.ch) ∧
      Follows p e (storeChar e s c.offset1 c.offset2 c.ch) r (w.push e c) := by
  have hbreak : breaksBefore e s c.offset1 c.ch = false := by rw [h.spells.takes, htakes, Bool.not_true]
  have hplain : c.ch % 2 ^ styleShift ≠ tab := by
    rw [Word.takes, Bool.and_eq_true, Bool.and_eq_true, bne_iff_ne, c.stored_ch] at htakes
    exact htakes.1.2
  have hchar : displayChar e s c.offset1 c.offset2 c.ch = some (Layout.storeChar e s c.offset1 c.offset2 c.ch) := by
    rw [displayChar, hbreak, if_neg Bool.false_ne_true, Option.bind_some, if_neg hplain]
  refine ⟨?_, hchar, h.between.displayChar hchar, h.holds.storeChar c, h.spells.storeChar hmode⟩
  rw [charFlushes, hbreak, if_neg Bool.false_ne_true, if_neg hplain, List.append_nil]

/-- The character as the first one of a word. -/
theorem Tests.store {P : DisplayState → Prop} {Q : Row → Word → Prop} {e : Setting} (h : Tests p e P Q) (hp : ShowsWidth p)
    (he : e.Narrow) {s t : DisplayState} {r : Row} {w : Word} (hs : Follows p e s r w) {c : CharCall} (hmode : s.curHexMode = c.hexMode)
    (hP : P s) (ht : flushFragment e s = some t) :
    Holds p e (storeChar e t c.offset1 c.offset2 c.ch) (r.after e w.toList) ∧
      Spells (storeChar e t c.offset1 c.offset2 c.ch) (Word.push e .none c) ∧
      Sheds p s (storeChar e t c.offset1 c.offset2 c.ch) (r.shed e w.toList) := by
  obtain ⟨t', ht', hholds, hsheds⟩ := (h.flush hp he hs.between.toOk hs.holds hs.spells).2 hP
  obtain rfl := Option.some.inj (ht.symm.trans ht')
  have hlaid := flushFragment_bare hs.between.toOk ht
  refine ⟨hholds.storeChar c, (spells_none hlaid.fragment).storeChar (hlaid.curHexMode.trans hmode), ?_⟩
  rw [← List.append_nil (r.shed e w.toList)]
  exact hsheds.trans (Sheds.of_eq rfl)

theorem Tests.char {P : DisplayState → Prop} {Q : Row → Word → Prop} {e : Setting} (h : Tests p e P Q) (hp : ShowsWidth p)
    (he : e.Narrow) {s : DisplayState} {r : Row} {w : Word} (hs : Follows p e s r w) {c : CharCall} (hmode : s.curHexMode = c.hexMode) :
    ((∀ f ∈ charFlushes e s c, P f) ↔ r.All e Q (w.step e c).1) ∧
      ((∀ f ∈ charFlushes e s c, P f) → ∃ t, displayChar e s c.offset1 c.offset2 c.ch = some t ∧
        Follows p e t (r.after e (w.step e c).1) (w.step e c).2 ∧ Sheds p s t (r.shed e (w.step e c).1)) := by
  rw [Word.step]
  by_cases htakes : w.takes e c = true
  · obtain ⟨hnone, hchar, hnext⟩ := hs.store hmode htakes
    rw [if_pos htakes, hnone]
    exact ⟨iff_of_true (fun f hf => absurd hf List.not_mem_nil) trivial, fun _ => ⟨_, hchar, hnext, Sheds.of_eq rfl⟩⟩
  have hbreak : breaksBefore e s c.offset1 c.ch = true := by rw [hs.spells.takes, Bool.eq_false_iff.2 htakes, Bool.not_false]
  obtain ⟨hiff, hgo⟩ := h.flush hp he hs.between.toOk hs.holds hs.spells
  have hchar : displayChar e s c.offset1 c.offset2 c.ch = (flushFragment e s).bind fun t =>
      if c.ch % 2 ^ styleShift = tab then flushFragment e (Layout.storeChar e t c.offset1 c.offset2 c.ch)
      else some (Layout.storeChar e t c.offset1 c.offset2 c.ch) := by
    rw [Layout.displayChar, hbreak, if_pos rfl]
  have hmem : s ∈ charFlushes e s c := by
    rw [charFlushes, hbreak, if_pos rfl]
    exact List.mem_append_left _ (List.mem_singleton_self s)
  rw [if_neg htakes, c.stored_ch]
  by_cases htab : c.ch % 2 ^ styleShift = tab
  · rw [if_pos htab]
    dsimp only
    rw [Row.all_append, Row.after_append, Row.shed_append]
    by_cases hP : P s
    · obtain ⟨t, ht, -⟩ := hgo hP
      obtain ⟨hholds, hspells, hsheds⟩ := h.store hp he hs hmode hP ht
      obtain ⟨hbetween, hlength, hempty⟩ := hs.between.broken (c := c) (by rw [if_pos hbreak]; exact ht)
      have hok := hbetween.storeChar hlength hempty
      obtain ⟨hiff', hgo'⟩ := h.flush hp he hok hholds hspells
      have hword : (Word.push e .none c).toList = [Word.push e .none c] := if_neg (List.cons_ne_nil _ _)
      have hflushes : charFlushes e s c = [s, Layout.storeChar e t c.offset1 c.offset2 c.ch] := by
        rw [charFlushes, hbreak, if_pos rfl, if_pos htab, if_pos rfl, ht]
        rfl
      rw [hword] at hiff' hgo'
      rw [hflushes, List.forall_mem_cons, List.forall_mem_singleton, hiff', ← hiff]
      refine ⟨Iff.rfl, fun hall => ?_⟩
      obtain ⟨v, hv, hholds', hsheds'⟩ := hgo' (hiff'.2 hall.2)
      have hv' : displayChar e s c.offset1 c.offset2 c.ch = some v := by rw [hchar, ht, Option.bind_some, if_pos htab, hv]
      exact ⟨v, hv', ⟨hs.between.displayChar hv', hholds', spells_none (flushFragment_bare hok hv).fragment⟩, hsheds.trans hsheds'⟩
    · refine ⟨iff_of_false (fun hall => hP (hall s hmem)) fun hall => hP (hiff.2 hall.1), fun hall => absurd (hall s hmem) hP⟩
  · have hflushes : charFlushes e s c = [s] := by
      rw [charFlushes, hbreak, if_pos rfl, if_neg htab, List.append_nil]
    rw [if_neg htab, hflushes, List.forall_mem_singleton]
    refine ⟨hiff, fun hP => ?_⟩
    obtain ⟨t, ht, -⟩ := hgo hP
    obtain ⟨hholds, hspells, hsheds⟩ := h.store hp he hs hmode hP ht
    have hv : displayChar e s c.offset1 c.offset2 c.ch = some (Layout.storeChar e t c.offset1 c.offset2 c.ch) := by
      rw [hchar, ht, Option.bind_some, if_neg htab]
    exact ⟨_, hv, ⟨hs.between.displayChar hv, hholds, hspells⟩, hsheds⟩

/-- A line is flushed as its words are added. -/
theorem Tests.chars {P : DisplayState → Prop} {Q : Row → Word → Prop} {e : Setting} (h : Tests p e P Q) (hp : ShowsWidth p)
    (he : e.Narrow) (cs : List CharCall) {s : DisplayState} {r : Row} {w : Word} (hs : Follows p e s r w) :
    ((∀ f ∈ flushes e cs s, P f) ↔ r.All e Q (wordsFrom e w cs)) ∧
      ((∀ f ∈ flushes e cs s, P f) → ∃ u v, displayChars e cs s = some u ∧ flushFragment e u.asText = some v ∧
        Holds p e v (r.after e (wordsFrom e w cs)) ∧ Sheds p s v (r.shed e (wordsFrom e w cs))) := by
  induction cs generalizing s r w with
  | nil =>
    have htext : Follows p e s.asText r w := hs.at ⟨0, 0, 0, false⟩
    obtain ⟨hiff, hgo⟩ := h.flush hp he htext.between.toOk htext.holds htext.spells
    have hflushes : flushes e [] s = [s.asText] := rfl
    rw [hflushes, List.forall_mem_singleton]
    refine ⟨hiff, fun hP => ?_⟩
    obtain ⟨v, hv, hholds, new, hsheds⟩ := hgo hP
    exact ⟨s, v, rfl, hv, hholds, new, hsheds⟩
  | cons c cs ih =>
    obtain ⟨hiff, hgo⟩ := h.char hp he (hs.at c) (c := c) rfl
    have hflushes : flushes e (c :: cs) s = charFlushes e (c.at s) c ++
        (Layout.displayChar e (c.at s) c.offset1 c.offset2 c.ch).elim [] (flushes e cs) := by
      rw [flushes, charsFlushes, Layout.displayChars, List.append_assoc]
      cases Layout.displayChar e (c.at s) c.offset1 c.offset2 c.ch <;> rfl
    rw [hflushes, List.forall_mem_append, hiff, wordsFrom, Row.all_append, Row.after_append, Row.shed_append]
    by_cases hall : r.All e Q (w.step e c).1
    · obtain ⟨t, ht, hnext, hsheds⟩ := hgo (hiff.2 hall)
      obtain ⟨hiff', hgo'⟩ := ih hnext
      rw [ht, Option.elim_some, hiff']
      refine ⟨Iff.rfl, fun hboth => ?_⟩
      obtain ⟨u, v, hu, hv, hholds, hsheds'⟩ := hgo' (hiff'.2 hboth.2)
      refine ⟨u, v, ?_, hv, hholds, ?_⟩
      · rw [Layout.displayChars, ht]
        exact hu
      · obtain ⟨new, hnew⟩ := hsheds
        exact (show Sheds p s t _ from ⟨new, hnew⟩).trans hsheds'
    · exact ⟨iff_of_false (fun h => hall h.1) fun h => hall h.1, fun h => absurd h.1 hall⟩

/-- At the beginning of a line nothing waits. -/
theorem follows_displayBol (p : Glyph → α) (e : Setting) (s : DisplayState) : Follows p e (displayBol e s) (Row.start e) Word.none :=
  ⟨between_displayBol e s, ⟨rfl, rfl, fun _ _ => ⟨rfl, rfl, fun _ hf => absurd hf List.not_mem_nil⟩⟩, spells_none rfl⟩

/-- All fragments of a line meet a test just when all of its words do. -/
theorem Tests.line_iff {P : DisplayState → Prop} {Q : Row → Word → Prop} {e : Setting} (h : Tests p e P Q) (hp : ShowsWidth p)
    (he : e.Narrow) (cs : List CharCall) (s : DisplayState) : (∀ f ∈ flushes e cs (displayBol e s), P f) ↔ AllWords e Q cs :=
  (h.chars hp he cs (follows_displayBol p e s)).1

/-- Where they do, the line is laid out on its rows. -/
theorem Tests.line_rows {P : DisplayState → Prop} {Q : Row → Word → Prop} {e : Setting} (h : Tests p e P Q) (hp : ShowsWidth p)
    (he : e.Narrow) {cs : List CharCall} (hall : AllWords e Q cs) (s : DisplayState) (offset1 offset2 : Int) :
    ∃ t, showLine e cs s offset1 offset2 = some t ∧ Sheds p s t (rows e cs) := by
  obtain ⟨hiff, hgo⟩ := h.chars hp he cs (follows_displayBol p e s)
  obtain ⟨u, v, hu, hv, hholds, hsheds⟩ := hgo (hiff.2 hall)
  have hok := (flushFragment_bare ((between_displayBol e s).displayChars cs hu).asText.toOk hv).ok
  refine ⟨_, showLine_eq_some.2 ⟨u, v, hu, hv, rfl⟩, ?_⟩
  have hstart : Sheds p s (displayBol e s) [] := Sheds.of_eq rfl
  refine (hstart.trans hsheds).trans ⟨[v.pending], flushLine_rows hok offset1 offset2, ?_⟩
  rw [List.map_singleton, List.map_singleton, hholds.glyphs]
  rfl

/-! ## What fits -/

/-- A fragment fits where it is flushed just when its word fits where it is added. -/
theorem Holds.fits {e : Setting} {s : DisplayState} {r : Row} (h : Holds p e s r) (hs : s.Ok e) (hne : s.fragment ≠ []) :
    FlushFits e s ↔ r.Fits e s.current := by
  rw [FlushFits, or_iff_right hne, Row.Fits, h.full_iff hs, h.made, h.x, h.length]
  rfl

theorem tests_fits (e : Setting) (hstays : ∀ k, Stays p k) : Tests p e (FlushFits e) (Row.Fits e) :=
  ⟨fun _ hf => Or.inl hf, fun _ _ hf hr hne => hr.fits hf hne, fun _ _ hf => hf, fun _ _ k _ => hstays k⟩

/-! ## Hex modes -/

/-- A call of `keep_line_chars` leaves each glyph its hex mode just when the break does. -/
theorem stays_id_break {s : DisplayState} {k : DisplayState × Nat} {b : Break} (h : Flushed s k) (hwaiting : s.pending = b.waiting)
    (hkept : k.2 = b.kept) : Stays id k ↔ b.SameModes := by
  have hrest := (waiting_rest (p := id) h (by rw [hwaiting]) hkept).2
  rw [List.map_id, List.map_id] at hrest
  have htake : b.waiting.take b.kept = s.arrays.glyphs 0 k.2 := by
    have hsplit := LineArrays.glyphs_add s.arrays 0 k.2 (s.lineIndex - k.2)
    rw [Nat.add_sub_of_le h.le] at hsplit
    rw [← hwaiting, DisplayState.pending, hsplit, ← hkept, List.take_left' (LineArrays.length_glyphs _ _ _)]
  rw [stays_id_iff, Break.SameModes, ← hrest, htake, h.arrays, h.lineIndex]
  constructor
  · exact fun hsame => LineArrays.map_glyphs_congr fun j hj => by
      rw [Nat.zero_add]
      exact (hsame j hj).symm
  · intro hsame j hj
    have hat := congrArg (·[j]?) hsame
    simp only [LineArrays.glyphs, List.map_map, List.getElem?_map, List.getElem?_range', hj, Nat.one_mul, Nat.zero_add] at hat
    exact (Option.some.inj hat).symm

/-- So does the loop of `WRAP_LINE`. -/
theorem Wraps.modes {e : Setting} {n m : Nat} {s t : DisplayState} {front gs : List Glyph} {x : Int}
    (h : Wraps id e s front x gs m) (ht : Layout.wrapLine e n s = some t) :
    (∀ k ∈ wrapLineKeeps e n s, Stays id k) ↔ ∀ b ∈ lineBreaks e.width m front x gs, b.SameModes := by
  induction n generalizing s front gs x m with
  | zero =>
    rw [Layout.wrapLine] at ht
    split_ifs at ht with hlong
    rw [lineBreaks_fits m front (h.column ▸ not_lt.1 hlong)]
    exact iff_of_true (fun k hk => absurd hk List.not_mem_nil) fun b hb => absurd hb List.not_mem_nil
  | succ n ih =>
    rw [Layout.wrapLine] at ht
    rw [wrapLineKeeps]
    split_ifs at ht ⊢ with hlong
    · obtain ⟨k, hk, ht⟩ := Option.bind_eq_some_iff.1 ht
      rw [hk]
      have hpending := h.pending
      rw [List.map_id, List.map_id] at hpending
      have hfirst := stays_id_break (b := ⟨front ++ gs, gs.length - Layout.taken e.width x gs⟩) (flushRow_spec e h.tiled hk) hpending
        (h.taken showsWidth_id hlong hk).2
      have hturns := h.turns
      have hpos := List.length_pos_iff.2 (h.taken showsWidth_id hlong hk).1
      obtain ⟨m', rfl⟩ := Nat.exists_eq_add_of_le' (show 1 ≤ m by omega)
      rw [lineBreaks_succ e.width m' front (h.column ▸ hlong), List.forall_mem_cons, List.forall_mem_cons, ← hfirst]
      refine and_congr_right fun hstays => ?_
      obtain ⟨m'', hm, hnext⟩ := h.next showsWidth_id hlong hk hstays
      obtain rfl := Nat.succ.inj hm
      exact ih hnext ht
    · rw [lineBreaks_fits m front (h.column ▸ not_lt.1 hlong)]
      exact iff_of_true (fun k hk => absurd hk List.not_mem_nil) fun b hb => absurd hb List.not_mem_nil

/-- The flush of a fragment leaves the glyphs their hex modes just when its word does. -/
theorem Holds.modes {e : Setting} {s : DisplayState} {r : Row} (h : Holds id e s r) (hs : s.Ok e) (hm : s.Measures e)
    (hne : s.fragment ≠ []) (hfits : FlushFits e s) : (∀ k ∈ keeps e s, Stays id k) ↔ r.KeepsModes e s.current := by
  rw [Row.KeepsModes, ← h.full_iff hs]
  by_cases hfull : s.Full
  · rw [keeps, if_pos (show s.fragment = [] ∨ maxScreenWidth ≤ s.fragments.length ∨ maxScreenWidth ≤ s.lineIndex from Or.inr hfull)]
    exact iff_of_true (fun k hk => absurd hk List.not_mem_nil) (Or.inl hfull)
  obtain ⟨a, v, hadded, hkeeps, hv, -, hline⟩ := flushed_added hs hm hne hfull hfits
  obtain ⟨hpending, hx⟩ := h.added hm hadded
  rw [List.map_id, List.map_id] at hpending
  rw [or_iff_right hfull, hkeeps, Row.breaks, wrapRowsKeeps]
  rw [Layout.wrapRows] at hv
  rw [h.x] at hline
  cases hw : e.wrap with
  | truncate => exact iff_of_true (fun k hk => absurd hk List.not_mem_nil) fun b hb => absurd hb List.not_mem_nil
  | line =>
    rw [hw] at hv
    exact (h.wraps hs hm hadded (hline hw)).modes hv
  | word =>
    obtain ⟨frag, hfrag, hstart⟩ := hadded.wordAt (hs.updateWord.word hw)
    rw [(h.updateWord hs hw hfull).1] at hstart
    have htiled := hadded.tiled hs.updateWord.tiled
    dsimp only
    rw [wrapWordKeeps, ← hx]
    split_ifs with hlong
    · have hk : ∃ k, flushWords e a = some k ∧ k.2 = a.lineIndex - frag.lineIndex := by
        rw [flushWords, hfrag]
        exact ⟨_, rfl, rfl⟩
      obtain ⟨k, hk, hkept⟩ := hk
      have hlength : a.lineIndex = r.glyphs.length + (s.current.glyphs e r.x).length := by
        rw [← List.length_append, ← hpending, DisplayState.pending, LineArrays.length_glyphs]
      rw [hk, Option.toList_some, List.forall_mem_singleton, List.forall_mem_singleton]
      exact stays_id_break (flushWords_spec e htiled hk) hpending (by rw [hkept, hlength, hstart])
    · exact iff_of_true (fun k hk => absurd hk List.not_mem_nil) fun b hb => absurd hb List.not_mem_nil

/-- A fragment fits and leaves the glyphs their hex modes just when its word does. -/
theorem tests_modes {e : Setting} (he : e.Narrow) :
    Tests id e (fun s => FlushFits e s ∧ ∀ k ∈ keeps e s, Stays id k) fun r w => r.Fits e w ∧ r.KeepsModes e w := by
  refine ⟨fun f hf => ⟨Or.inl hf, fun k hk => ?_⟩, fun f r hf hr hne => ?_, fun _ _ hf => hf.1, fun _ hf => hf.2⟩
  · rw [keeps, if_pos (Or.inl hf)] at hk
    exact absurd hk List.not_mem_nil
  · rw [← hr.fits hf hne]
    exact and_congr_right fun h => hr.modes hf (hf.measures he) hne h

/-! ## Lines of one mode -/

/-- Glyphs of one mode are all alike. -/
theorem Break.sameModes {b : Break} {mode : Bool} (h : ∀ g ∈ b.waiting, g.hexMode = mode) : b.SameModes := by
  have hsame {gs : List Glyph} (hgs : ∀ g ∈ gs, g ∈ b.waiting) : gs.map (·.hexMode) = List.replicate gs.length mode := by
    rw [List.eq_replicate_iff, List.length_map]
    refine ⟨rfl, fun m hm => ?_⟩
    obtain ⟨g, hg, rfl⟩ := List.mem_map.1 hm
    exact h g (hgs g hg)
  rw [Break.SameModes, Break.rest, hsame fun g => List.mem_of_mem_drop, hsame fun g => List.mem_of_mem_take, List.length_drop,
    List.length_take]
  exact congrArg (List.replicate · mode) (by omega)

/-- What waits at a break was there already. -/
theorem lineBreaks_waiting (width : Int) (n : Nat) (front : List Glyph) (x : Int) (gs : List Glyph) :
    ∀ b ∈ lineBreaks width n front x gs, ∀ g ∈ b.waiting, g ∈ front ++ gs := by
  induction n generalizing front x gs with
  | zero => exact fun b hb => absurd hb List.not_mem_nil
  | succ n ih =>
    rcases le_or_gt (x + columns gs) width with hfits | hlong
    · rw [lineBreaks_fits (n + 1) front hfits]
      exact fun b hb => absurd hb List.not_mem_nil
    · rw [lineBreaks_succ width n front hlong]
      intro b hb g hg
      rcases List.mem_cons.1 hb with rfl | hb
      · exact hg
      · exact List.mem_append_right _ (List.mem_of_mem_drop (ih _ _ _ b hb g hg))

theorem Row.waiting_breaks (e : Setting) (r : Row) (w : Word) : ∀ b ∈ r.breaks e w, ∀ g ∈ b.waiting, g ∈ r.glyphs ++ w.glyphs e r.x := by
  rw [Row.breaks]
  cases e.wrap with
  | truncate => exact fun b hb => absurd hb List.not_mem_nil
  | line => exact lineBreaks_waiting _ _ _ _ _
  | word =>
    dsimp only
    split_ifs
    · exact fun b hb g hg => by rwa [List.mem_singleton.1 hb] at hg
    · exact fun b hb => absurd hb List.not_mem_nil

/-- Nothing waits but what was there, and the glyphs of the word. -/
theorem Row.glyphs_add (e : Setting) (r : Row) (w : Word) : ∀ g ∈ (r.add e w).glyphs, g ∈ r.glyphs ++ w.glyphs e r.x := by
  rw [Row.add]
  split_ifs
  · exact fun g hg => List.mem_append_left _ hg
  · cases hlast : (r.breaks e w).getLast? with
    | none => exact fun g hg => hg
    | some b => exact fun g hg => r.waiting_breaks e w b (List.mem_of_getLast? hlast) g (List.mem_of_mem_drop hg)

theorem FragmentChar.hexMode_glyph (e : Setting) (x : Int) (c : FragmentChar) : (c.glyph e x).hexMode = c.hexMode := by
  rw [FragmentChar.glyph]
  split_ifs <;> rfl

/-- What waits with a word of the mode. -/
theorem Row.hexMode_append (e : Setting) {mode : Bool} {r : Row} {w : Word} (hr : ∀ g ∈ r.glyphs, g.hexMode = mode)
    (hw : ∀ c ∈ w.chars, c.hexMode = mode) : ∀ g ∈ r.glyphs ++ w.glyphs e r.x, g.hexMode = mode := by
  intro g hg
  rcases List.mem_append.1 hg with hg | hg
  · exact hr g hg
  · obtain ⟨c, hc, rfl⟩ := List.mem_map.1 hg
    rw [FragmentChar.hexMode_glyph]
    exact hw c hc

theorem Row.all_keepsModes (e : Setting) {mode : Bool} {r : Row} {ws : List Word} (hr : ∀ g ∈ r.glyphs, g.hexMode = mode)
    (hws : ∀ w ∈ ws, ∀ c ∈ w.chars, c.hexMode = mode) : r.All e (Row.KeepsModes e) ws := by
  induction ws generalizing r with
  | nil => trivial
  | cons w ws ih =>
    have hall := Row.hexMode_append e hr (hws w List.mem_cons_self)
    exact ⟨Or.inr fun b hb => Break.sameModes fun g hg => hall g (r.waiting_breaks e w b hb g hg),
      ih (fun g hg => hall g (r.glyphs_add e w g hg)) fun w' hw' => hws w' (List.mem_cons_of_mem w hw')⟩

/-- So are the glyphs on the rows. -/
theorem Row.hexMode_rows (e : Setting) {mode : Bool} {r : Row} {ws : List Word} (hr : ∀ g ∈ r.glyphs, g.hexMode = mode)
    (hws : ∀ w ∈ ws, ∀ c ∈ w.chars, c.hexMode = mode) :
    ∀ g ∈ (r.shed e ws).flatten ++ (r.after e ws).glyphs, g.hexMode = mode := by
  induction ws generalizing r with
  | nil => exact hr
  | cons w ws ih =>
    have hall := Row.hexMode_append e hr (hws w List.mem_cons_self)
    have hrest := ih (fun g hg => hall g (r.glyphs_add e w g hg)) fun w' hw' => hws w' (List.mem_cons_of_mem w hw')
    rw [Row.shed, List.flatten_append, List.append_assoc]
    intro g hg
    rcases List.mem_append.1 hg with hg | hg
    · split_ifs at hg
      · cases hg
      · obtain ⟨row, hrow, hg⟩ := List.mem_flatten.1 hg
        obtain ⟨b, hb, rfl⟩ := List.mem_map.1 hrow
        exact hall g (r.waiting_breaks e w b hb g (List.mem_of_mem_take hg))
    · exact hrest g hg

theorem CharCall.stored_hexMode (c : CharCall) : c.stored.hexMode = c.hexMode := by
  rw [CharCall.stored]
  split_ifs <;> rfl

/-- The characters of the words are those of the line. -/
theorem wordsFrom_chars (e : Setting) (w : Word) (cs : List CharCall) :
    (wordsFrom e w cs).flatMap (·.chars) = w.chars ++ cs.map CharCall.stored := by
  have htoList (w : Word) : w.toList.flatMap (·.chars) = w.chars := by
    rw [Word.toList]
    split_ifs with hnone
    · exact hnone.symm
    · exact List.flatMap_singleton _ _
  induction cs generalizing w with
  | nil => exact (htoList w).trans (List.append_nil _).symm
  | cons c cs ih =>
    rw [wordsFrom, List.flatMap_append, ih, List.map_cons, Word.step]
    split_ifs
    · rw [Word.push, List.append_assoc]
      rfl
    · rw [List.flatMap_append, htoList, List.append_assoc]
      rfl
    · rw [htoList, Word.push]
      rfl

/-- No word is longer than a fragment can be. -/
theorem wordsFrom_length (e : Setting) {w : Word} (cs : List CharCall) (hw : w.chars.length ≤ maxWordSize) :
    ∀ w' ∈ wordsFrom e w cs, w'.chars.length ≤ maxWordSize := by
  have htoList {w : Word} (hw : w.chars.length ≤ maxWordSize) : ∀ w' ∈ w.toList, w'.chars.length ≤ maxWordSize := by
    rw [Word.toList]
    split_ifs
    · exact fun w' hw' => absurd hw' List.not_mem_nil
    · exact fun w' hw' => List.mem_singleton.1 hw' ▸ hw
  have hone (c : CharCall) : (Word.push e .none c).chars.length ≤ maxWordSize := Nat.succ_le_succ (Nat.zero_le _)
  induction cs generalizing w with
  | nil => exact htoList hw
  | cons c cs ih =>
    intro w' hw'
    rw [wordsFrom, Word.step] at hw'
    rcases List.mem_append.1 hw' with hw' | hw' <;> split_ifs at hw' with htakes htab
    · cases hw'
    · rcases List.mem_append.1 hw' with hw' | hw'
      · exact htoList hw w' hw'
      · exact List.mem_singleton.1 hw' ▸ hone c
    · exact htoList hw w' hw'
    · refine ih ?_ w' hw'
      rw [Word.takes, Bool.and_eq_true, Bool.and_eq_true, decide_eq_true_iff] at htakes
      rw [Word.push, List.length_append]
      exact htakes.1.1
    · exact ih (Nat.zero_le _) w' hw'
    · exact ih (hone c) w' hw'

/-- In a line of one mode all words are of it. -/
theorem words_hexMode (e : Setting) {mode : Bool} {cs : List CharCall} (hcs : ∀ c ∈ cs, c.hexMode = mode) :
    ∀ w ∈ words e cs, ∀ c ∈ w.chars, c.hexMode = mode := by
  intro w hw d hd
  have hmem : d ∈ (words e cs).flatMap (·.chars) := List.mem_flatMap.2 ⟨w, hw, hd⟩
  rw [words, wordsFrom_chars] at hmem
  obtain ⟨c, hc, rfl⟩ := List.mem_map.1 hmem
  rw [c.stored_hexMode]
  exact hcs c hc

/-- So each glyph keeps it. -/
theorem allWords_keepsModes (e : Setting) {mode : Bool} {cs : List CharCall} (hcs : ∀ c ∈ cs, c.hexMode = mode) :
    AllWords e (Row.KeepsModes e) cs :=
  Row.all_keepsModes e (fun _ hg => absurd hg List.not_mem_nil) (words_hexMode e hcs)

theorem rows_hexMode (e : Setting) {mode : Bool} {cs : List CharCall} (hcs : ∀ c ∈ cs, c.hexMode = mode) :
    ∀ g ∈ (rows e cs).flatten, g.hexMode = mode := by
  rw [rows, List.flatten_append, List.flatten_singleton]
  exact Row.hexMode_rows e (fun _ hg => absurd hg List.not_mem_nil) (words_hexMode e hcs)

/-- A line of one mode that fits shows its rows, whatever is above. -/
theorem showLine_rows {e : Setting} (he : e.Narrow) {mode : Bool} {cs : List CharCall} (hcs : ∀ c ∈ cs, c.hexMode = mode)
    (hall : AllWords e (Row.Fits e) cs) (s : DisplayState) (offset1 offset2 : Int) :
    ∃ t, showLine e cs s offset1 offset2 = some t ∧ t.rows = s.rows ++ rows e cs ∧
      ∀ f ∈ flushes e cs (displayBol e s), ∀ k ∈ keeps e f, Stays id k := by
  have hboth : AllWords e (fun r w => r.Fits e w ∧ r.KeepsModes e w) cs :=
    (all_and e (Row.Fits e) (Row.KeepsModes e) (Row.start e) (words e cs)).2 ⟨hall, allWords_keepsModes e hcs⟩
  obtain ⟨t, ht, new, hrows, hsame⟩ := (tests_modes he).line_rows showsWidth_id he hboth s offset1 offset2
  refine ⟨t, ht, ?_, fun f hf => (((tests_modes he).line_iff showsWidth_id he cs s).2 hboth f hf).2⟩
  rw [hrows]
  refine congrArg (s.rows ++ ·) ?_
  have hid : List.map (id : Glyph → Glyph) = id := funext fun gs => List.map_id gs
  rwa [hid, List.map_id, List.map_id] at hsame

end Layout

end Hoe
