import Hoe.Lemmas.CIndent

/-!
# The margin and the indentation

`c_colorize_line` colours what is behind the margin anew, and `do_c_indent` reads the styles: there it takes a comment, a string or a
directive for the program, and in the current line a bracket for none. The states of the lines do not depend on the margin.
-/

namespace Hoe

open TextDisplay (styleShift)

/-! ## Cells behind the margin -/

/-- The margin is highlighted at the column. -/
def Margin.Covers (m : Margin) (p : Nat) : Prop := m.highlight = true ∧ m.size ≤ p

instance (m : Margin) (p : Nat) : Decidable (m.Covers p) := by
  unfold Margin.Covers
  infer_instance

/-- The margin is highlighted up to the end of the line. -/
theorem Margin.Covers.mono {m : Margin} {p q : Nat} (h : m.Covers p) (hle : p ≤ q) : m.Covers q := ⟨h.1, h.2.trans hle⟩

/-- What the cell at a column becomes. -/
def Margin.cell (m : Margin) (p c : Nat) : Nat := if m.Covers p then colored qeStyleMarginHighlight (charMask c) else c

/-- A span up to the end of the line, cell by cell. -/
theorem spanned_getElem? (f : Nat → Nat) (cells : List Nat) (start : Nat) (h : start ≤ cells.length) (p : Nat) :
    (spanned f cells start (cells.length - start))[p]? = cells[p]?.map fun c => if start ≤ p then f c else c := by
  have hall : spanned f cells start (cells.length - start) = cells.take start ++ (cells.drop start).map f := by
    have htake : (cells.drop start).take (cells.length - start) = cells.drop start :=
      List.take_of_length_le (by rw [List.length_drop])
    rw [spanned, Nat.add_sub_cancel' h, List.drop_length, List.append_nil, htake]
  have hlen : (cells.take start).length = start := by rw [List.length_take, Nat.min_eq_left h]
  rw [hall]
  by_cases hp : start ≤ p
  · rw [List.getElem?_append_right (by rwa [hlen]), hlen, List.getElem?_map, List.getElem?_drop, Nat.add_sub_cancel' hp]
    simp only [if_pos hp]
  · rw [List.getElem?_append_left (by rw [hlen]; omega), List.getElem?_take_of_lt (by omega)]
    simp only [if_neg hp, Option.map_id_fun', id_eq]

/-- The cells of a line that was recoloured. -/
theorem Margin.recolor_getElem? (m : Margin) (cells : List Nat) (p : Nat) : (m.recolor cells)[p]? = cells[p]?.map (m.cell p) := by
  rw [recolor]
  split_ifs with h
  · have hlen := spanned_length charMask cells m.size (cells.length - m.size)
    have hset := spanned_getElem? (colored qeStyleMarginHighlight) (spanned charMask cells m.size (cells.length - m.size))
      m.size (by rw [hlen]; exact h.2.le) p
    rw [hlen] at hset
    rw [hset, spanned_getElem? charMask cells m.size h.2.le p, Option.map_map]
    refine congrArg (Option.map · _) (funext fun c => ?_)
    rw [Function.comp_apply, cell]
    by_cases hp : m.size ≤ p
    · rw [if_pos hp, if_pos hp, if_pos (show m.Covers p from ⟨h.1, hp⟩)]
    · rw [if_neg hp, if_neg hp, if_neg (show ¬m.Covers p from fun hc => hp hc.2)]
  · cases hc : cells[p]? with
    | none => rfl
    | some c =>
      have hp : p < cells.length := (List.getElem?_eq_some_iff.1 hc).1
      rw [Option.map_some, cell, if_neg fun hcovers => h ⟨hcovers.1, Nat.lt_of_le_of_lt hcovers.2 hp⟩]

/-! ## The same edit -/

/-- The settings highlight the same of so many columns. -/
def Margin.Same (m m' : Margin) (n : Nat) : Prop := ∀ p < n, (m.Covers p ↔ m'.Covers p)

/-- Lines that are no longer are highlighted alike. -/
theorem Margin.Same.highlightMargin {n : Nat} (h : m.Same m' n) {len : Nat} (hlen : len ≤ n) (buf : List Nat) :
    highlightMargin m buf len = highlightMargin m' buf len := by
  have hback : ∀ {m m' : Margin}, m.Same m' n → m.highlight ∧ m.size < len → (m'.highlight ∧ m'.size < len) ∧ m'.size ≤ m.size := by
    intro m m' h hm
    have hcovers : m'.Covers m.size := (h m.size (hm.2.trans_le hlen)).1 ⟨hm.1, le_rfl⟩
    exact ⟨⟨hcovers.1, hcovers.2.trans_lt hm.2⟩, hcovers.2⟩
  have h' : m'.Same m n := fun p hp => (h p hp).symm
  rw [Hoe.highlightMargin, Hoe.highlightMargin]
  by_cases hm : m.highlight ∧ m.size < len
  · obtain ⟨hm', hle⟩ := hback h hm
    rw [if_pos hm, if_pos hm', le_antisymm (hback h' hm').2 hle]
  · rw [if_neg hm, if_neg fun hm' => hm (hback h' hm').1]

theorem Margin.Same.cColorizeLine {n : Nat} (h : m.Same m' n) {len : Nat} (hlen : len ≤ n) (buf : List Nat) (state : Int) :
    cColorizeLine m buf len state = cColorizeLine m' buf len state := by
  simp only [Hoe.cColorizeLine, h.highlightMargin hlen]

/-- No more of a line is read than there is room for. -/
theorem ebGetLine_length_le (r : Reader) (bufSize : Nat) (offset : Int) : (ebGetLine r bufSize offset).1.length ≤ bufSize := by
  rw [ebGetLine, Reader.getLineLoop_chars r bufSize r.turns [] (Nat.zero_le _) offset]
  exact List.length_take_le ..

section

variable {f g : ArrayColorize} {r : Reader} {bufSize n : Nat} (hlines : ∀ offset, (ebGetLine r (bufSize - 1) offset).1.length ≤ n)
  (hsame : ∀ buf len state, len ≤ n → f buf len state = g buf len state)

include hlines hsame

/-- The lines above are coloured alike. -/
theorem propagateArray_congr (k l : Nat) (offset state : Int) (buf : List Nat) (states : Nat → Nat) :
    propagateArray f r bufSize k l offset state buf states = propagateArray g r bufSize k l offset state buf states := by
  induction k generalizing l offset state buf states with
  | zero => rfl
  | succ k ih => simp only [propagateArray, hsame _ _ _ (hlines _), ih]

/-- Colorize functions that agree on the lines that are read give the same lines and states. -/
theorem getColorizedLineArray_congr (s : ColorizeStates) (t : Pages) (buf : List Nat) (offset : Int) (lineNum : Nat) :
    getColorizedLineArray s f t r bufSize buf offset lineNum = getColorizedLineArray s g t r bufSize buf offset lineNum := by
  simp only [getColorizedLineArray, propagateArray_congr hlines hsame, hsame _ _ _ (hlines _)]

end

namespace CWindow

variable {w : CWindow}

/-- No line has more characters than so many where it is read. -/
def LinesWithin (w : CWindow) (n : Nat) : Prop := ∀ offset, (ebGetLine w.reader (maxBufSize - 1 - 1) offset).1.length ≤ n

/-- The window with another setting of the margin. -/
def withMargin (w : CWindow) (m : Margin) : CWindow := { w with margin := m }

/-- With the two settings of the margin `do_c_indent` performs the same edit: the windows differ in nothing else behind it. -/
def SameEdit (w : CWindow) (junk : List Nat) (m m' : Margin) : Prop :=
  (doCIndent (w.withMargin m) junk).map (·.withMargin m') = doCIndent (w.withMargin m') junk

/-- An edit does not look at the margin. -/
theorem ebInsert_withMargin (w : CWindow) (m : Margin) (offset : Int) (buf : List Byte) :
    (w.withMargin m).ebInsert offset buf = (w.ebInsert offset buf).map (·.withMargin m) := by
  rw [ebInsert, ebInsert, Option.map_map]
  rfl

theorem ebDelete_withMargin (w : CWindow) (m : Margin) (offset size : Int) :
    (w.withMargin m).ebDelete offset size = (w.ebDelete offset size).map (·.withMargin m) := by
  rw [ebDelete, ebDelete, Option.map_map]
  rfl

theorem insertTabs_withMargin (n : Nat) (w : CWindow) (m : Margin) (offset i : Int) :
    insertTabs n (w.withMargin m) offset i = (insertTabs n w offset i).map fun r => (r.1.withMargin m, r.2) := by
  induction n generalizing w offset i with
  | zero => rfl
  | succ n ih =>
    have htab : (w.withMargin m).tabSize = w.tabSize := rfl
    rw [insertTabs, insertTabs, htab, ebInsert_withMargin]
    split_ifs
    · rfl
    · cases w.ebInsert offset ['\t'.toNat] with
      | none => rfl
      | some w => exact ih w _ _

theorem insertBlanks_withMargin (n : Nat) (w : CWindow) (m : Margin) (offset i : Int) :
    insertBlanks n (w.withMargin m) offset i = (insertBlanks n w offset i).map fun r => (r.1.withMargin m, r.2) := by
  induction n generalizing w offset i with
  | zero => rfl
  | succ n ih =>
    rw [insertBlanks, insertBlanks]
    dsimp only
    rw [ebInsert_withMargin]
    split_ifs
    · rfl
    · cases w.ebInsert offset (List.replicate (min i.toNat spacesBufSize) ' '.toNat) with
      | none => rfl
      | some w => exact ih w _ _

theorem insertSpaces_withMargin (w : CWindow) (m : Margin) (offset i : Int) :
    (w.withMargin m).insertSpaces offset i = (w.insertSpaces offset i).map fun r => (r.1.withMargin m, r.2) := by
  have htabs : (w.withMargin m).indentTabsMode = w.indentTabsMode := rfl
  rw [insertSpaces, insertSpaces, htabs, insertTabs_withMargin]
  split_ifs
  · cases insertTabs (i.toNat + 1) w offset i with
    | none => rfl
    | some r => exact insertBlanks_withMargin _ r.1 m _ _
  · exact insertBlanks_withMargin _ w m _ _

/-- Nor does the last part of `do_c_indent`. -/
theorem setIndent_withMargin (w : CWindow) (m : Margin) (offset pos : Int) :
    (w.withMargin m).setIndent offset pos = (w.setIndent offset pos).map (·.withMargin m) := by
  have hspaces : ∀ w : CWindow, ((w.withMargin m).insertSpaces offset pos >>= fun r => some { r.1 with offset := r.2 }) =
      (w.insertSpaces offset pos >>= fun r => some { r.1 with offset := r.2 }).map (·.withMargin m) := by
    intro w
    rw [insertSpaces_withMargin]
    cases w.insertSpaces offset pos <;> rfl
  have hreader : (w.withMargin m).reader = w.reader := rfl
  rw [setIndent, setIndent, hreader, ebDelete_withMargin]
  dsimp only
  split_ifs
  · cases w.ebDelete offset (w.reader.skipIndent offset - offset) with
    | none => rfl
    | some v => exact hspaces { v with offset := max (v.offset - (w.reader.skipIndent offset - offset)) offset }
  · exact hspaces w

/-- A line is read alike, and the windows differ in the setting only. -/
theorem getLine_withMargin {n : Nat} (h : m.Same m' n) {w : CWindow} (hlines : w.LinesWithin n) (buf : List Nat) (offset : Int)
    (lineNum : Nat) :
    ∃ r : Option (List Nat × Nat × ColorizeStates), ∀ m₀, m₀ = m ∨ m₀ = m' →
      (w.withMargin m₀).getLine buf offset lineNum = r.map fun r => (({ w with colorize := r.2.2 } : CWindow).withMargin m₀, r.1, r.2.1) := by
  refine ⟨getColorizedLineArray w.colorize (Hoe.cColorizeLine m) w.buffer.toPages w.reader (maxBufSize - 1) buf offset lineNum, ?_⟩
  rintro m₀ (rfl | rfl)
  · rfl
  · have hread : ∀ offset, (ebGetLine w.reader (maxBufSize - 1 - 1) offset).1.length ≤ n := hlines
    exact congrArg (Option.map _) (getColorizedLineArray_congr hread
      (fun buf len state hlen => (h.cColorizeLine hlen buf state).symm) w.colorize w.buffer.toPages buf offset lineNum)

theorem indentLines_withMargin {n : Nat} (h : m.Same m' n) (k : Nat) {w : CWindow} (hlines : w.LinesWithin n) (buf : List Nat)
    (offsetl : Int) (lineNum : Nat) (i : Indenting) :
    ∃ r : Option (CWindow × List Nat × Option Indenting), (∀ x ∈ r, x.1.LinesWithin n) ∧ ∀ m₀, m₀ = m ∨ m₀ = m' →
      indentLines k (w.withMargin m₀) buf offsetl lineNum i = r.map fun r => (r.1.withMargin m₀, r.2) := by
  induction k generalizing w buf offsetl lineNum i with
  | zero => exact ⟨none, fun x hx => absurd hx (Option.not_mem_none x), fun _ _ => rfl⟩
  | succ k ih =>
    by_cases h0 : offsetl = 0
    · refine ⟨some (w, buf, some i), fun x hx => Option.some.inj hx ▸ hlines, fun m₀ _ => ?_⟩
      rw [indentLines, if_pos h0]
      rfl
    · obtain ⟨r, hr⟩ := getLine_withMargin h hlines buf (w.reader.gotoBol (w.reader.prevc offsetl).2) (lineNum - 1)
      have hsame : ∀ c m₀, (({ w with colorize := c } : CWindow).withMargin m₀).tabSize = w.tabSize ∧
        (({ w with colorize := c } : CWindow).withMargin m₀).indentSize = w.indentSize := fun _ _ => ⟨rfl, rfl⟩
      have hreader : ∀ m₀, (w.withMargin m₀).reader = w.reader := fun _ => rfl
      cases r with
      | none =>
        refine ⟨none, fun x hx => absurd hx (Option.not_mem_none x), fun m₀ hm₀ => ?_⟩
        simp only [indentLines, if_neg h0, hreader, hr m₀ hm₀, Option.map_none, Option.bind_eq_bind, Option.bind_none]
      | some r =>
        cases hstep : indentLine w.tabSize w.indentSize r.1 (findIndent1 w.tabSize r.1 0) r.2.1 r.2.1 i with
        | prevLine i' =>
          obtain ⟨r', hlines', hr'⟩ := ih (w := { w with colorize := r.2.2 }) hlines r.1
            (w.reader.gotoBol (w.reader.prevc offsetl).2) (lineNum - 1) i'
          refine ⟨r', hlines', fun m₀ hm₀ => ?_⟩
          simp only [indentLines, if_neg h0, hreader, hr m₀ hm₀, Option.map_some, Option.bind_eq_bind, Option.bind_some, hsame, hstep]
          exact hr' m₀ hm₀
        | endParse i' =>
          refine ⟨some ({ w with colorize := r.2.2 }, r.1, some i'), fun x hx => Option.some.inj hx ▸ hlines, fun m₀ hm₀ => ?_⟩
          simp only [indentLines, if_neg h0, hreader, hr m₀ hm₀, Option.map_some, Option.bind_eq_bind, Option.bind_some, hsame, hstep]
        | «return» =>
          refine ⟨some ({ w with colorize := r.2.2 }, r.1, none), fun x hx => Option.some.inj hx ▸ hlines, fun m₀ hm₀ => ?_⟩
          simp only [indentLines, if_neg h0, hreader, hr m₀ hm₀, Option.map_some, Option.bind_eq_bind, Option.bind_some, hsame, hstep]

/-- What `do_c_indent` leaves is the same for both settings. -/
theorem doCIndent_withMargin {n : Nat} (h : m.Same m' n) {w : CWindow} (hlines : w.LinesWithin n) (junk : List Nat) :
    ∃ r : Option CWindow, ∀ m₀, m₀ = m ∨ m₀ = m' → doCIndent (w.withMargin m₀) junk = r.map (·.withMargin m₀) := by
  have hsame : ∀ (w : CWindow) m₀, (w.withMargin m₀).reader = w.reader ∧ (w.withMargin m₀).buffer = w.buffer ∧
    (w.withMargin m₀).charset = w.charset ∧ (w.withMargin m₀).offset = w.offset ∧
    (w.withMargin m₀).indentSize = w.indentSize := fun _ _ => ⟨rfl, rfl, rfl, rfl, rfl⟩
  obtain ⟨r, hlines', hr⟩ := indentLines_withMargin h w.reader.turns hlines junk (w.reader.gotoBol w.offset)
    (ebGetPos w.buffer.toPages w.charset w.offset).1 .start
  rcases r with _ | ⟨w₁, buf, _ | i⟩
  · refine ⟨none, fun m₀ hm₀ => ?_⟩
    simp only [doCIndent, hsame, hr m₀ hm₀, Option.map_none, Option.bind_eq_bind, Option.bind_none]
  · refine ⟨some w₁, fun m₀ hm₀ => ?_⟩
    simp only [doCIndent, hsame, hr m₀ hm₀, Option.map_some, Option.bind_eq_bind, Option.bind_some]
  · obtain ⟨line, hline⟩ := getLine_withMargin h (hlines' _ rfl) buf (w.reader.gotoBol w.offset) (ebGetPos w.buffer.toPages w.charset w.offset).1
    refine ⟨line.bind fun l => ({ w₁ with colorize := l.2.2 } : CWindow).setIndent (w.reader.gotoBol w.offset)
      (indentCurrent w₁.indentSize i.eoiFound (l.1.take l.2.1) (i.found w₁.indentSize)), fun m₀ hm₀ => ?_⟩
    simp only [doCIndent, hsame, hr m₀ hm₀, Option.map_some, Option.bind_eq_bind, Option.bind_some, hline m₀ hm₀]
    cases line with
    | none => rfl
    | some l => exact setIndent_withMargin _ m₀ _ _

/-- Settings that highlight the same columns of the lines give the same edit. -/
theorem sameEdit_of_same {n : Nat} (h : m.Same m' n) {w : CWindow} (hlines : w.LinesWithin n) (junk : List Nat) : w.SameEdit junk m m' := by
  obtain ⟨r, hr⟩ := doCIndent_withMargin h hlines junk
  rw [SameEdit, hr m (Or.inl rfl), hr m' (Or.inr rfl), Option.map_map]
  rfl

end CWindow

/-! ## Lines that are not coloured -/

/-- A character with which nothing begins. -/
def Uncolored (c : Nat) : Prop :=
  c ≠ newline ∧ c ≠ '/'.toNat ∧ c ≠ '#'.toNat ∧ c ≠ '\''.toNat ∧ c ≠ '"'.toNat ∧ c ≠ '='.toNat ∧ keywordStart c = false

instance (c : Nat) : Decidable (Uncolored c) := inferInstanceAs (Decidable (_ ∧ _))

/-- A character that begins nothing is passed. -/
theorem cRound_uncolored (len : Nat) (before : List Nat) {c : Nat} (hc : Uncolored c) (cells : List Nat) (state : Int) (typeDecl : Bool) :
    cRound len (before ++ c :: cells) before.length state typeDecl = some (plainRound state typeDecl) := by
  obtain ⟨h1, h2, h3, h4, h5, h6, h7⟩ := hc
  simp only [cRound, List.drop_left, if_neg h1, if_neg h2, if_neg h3, if_neg h4, if_neg h5, if_neg h6, h7, Bool.false_eq_true, if_false]

/-- The newline ends the line. -/
theorem cRound_newline (len : Nat) (before cells : List Nat) (state : Int) (typeDecl : Bool) :
    cRound len (before ++ newline :: cells) before.length state typeDecl = some (endRound state typeDecl) := by
  simp only [cRound, List.drop_left, if_true]

/-- The loop goes over them to the end of the line. -/
theorem colorLoop_uncolored (len : Nat) (before : List Nat) {todo : List Nat} (hline : ∀ c ∈ todo, Uncolored c) (rest : List Nat) {n : Nat}
    (hn : todo.length ≤ n) (state : Int) (typeDecl : Bool) :
    ∃ r, cRound len (before ++ (todo ++ newline :: rest)) before.length state typeDecl = some r ∧
      colorLoop (cRound len) n (before ++ (todo ++ newline :: rest)) before.length r = some (before ++ (todo ++ newline :: rest), state) := by
  induction todo generalizing before n with
  | nil =>
    refine ⟨endRound state typeDecl, cRound_newline len before rest state typeDecl, ?_⟩
    cases n <;> rfl
  | cons c todo ih =>
    obtain ⟨n, rfl⟩ := Nat.exists_eq_add_of_le' (Nat.one_le_of_lt hn)
    obtain ⟨hc, htodo⟩ := List.forall_mem_cons.1 hline
    obtain ⟨r, hr, hloop⟩ := ih (before ++ [c]) htodo (Nat.le_of_succ_le_succ hn)
    rw [List.append_assoc, List.singleton_append, List.length_append, List.length_singleton] at hr hloop
    refine ⟨plainRound state typeDecl, cRound_uncolored len before hc _ state typeDecl, ?_⟩
    rw [colorLoop, List.cons_append]
    have hnext : cRound len (before ++ c :: (todo ++ newline :: rest)) (before.length + (plainRound state typeDecl).passed)
        (plainRound state typeDecl).state (plainRound state typeDecl).typeDecl = some r := hr
    have hcolors : setColors before.length (before ++ c :: (todo ++ newline :: rest)) (plainRound state typeDecl).spans =
        some (before ++ c :: (todo ++ newline :: rest)) := rfl
    rw [hcolors, Option.bind_eq_bind, Option.bind_some, hnext]
    exact hloop

/-- Only the margin colours such a line. -/
theorem cColorizeLine_uncolored (m : Margin) {line : List Nat} (hline : ∀ c ∈ line, Uncolored c) (rest : List Nat) :
    Hoe.cColorizeLine m (line ++ newline :: rest) line.length 0 = some (m.recolor line ++ newline :: rest, 0) := by
  obtain ⟨r, hr, hloop⟩ := colorLoop_uncolored line.length [] hline rest (n := (line ++ newline :: rest).length)
    (by rw [List.length_append]; exact Nat.le_add_right _ _) 0 false
  have hentry : cEntry (line ++ newline :: rest) line.length 0 = some r := hr
  have hloop : colorLoop (cRound line.length) (line ++ newline :: rest).length (line ++ newline :: rest) 0 r =
    some (line ++ newline :: rest, 0) := hloop
  rw [Hoe.cColorizeLine, hentry, Option.bind_eq_bind, Option.bind_some, hloop, Option.bind_eq_bind, Option.bind_some]
  dsimp only
  rw [highlightMargin_recolor]
  rfl

/-! ## A bracket behind the margin -/

/-- The style of a cell that was coloured. -/
theorem styleOf_colored (style : Nat) {c : Nat} (h : c < 2 ^ styleShift) : styleOf (colored style c) = style := by
  rw [styleOf, colored, Nat.or_comm, ← Nat.shiftLeft_add_eq_or_of_lt h, Nat.shiftLeft_eq, Nat.mul_comm,
    Nat.mul_add_div (Nat.two_pow_pos _), Nat.div_eq_of_lt h, Nat.add_zero]

/-- The cell corrects nothing. -/
def Idle (c : Nat) : Prop := styleOf c ≠ qeStylePreprocess ∧ c ≠ '}'.toNat ∧ c ≠ ':'.toNat ∧ c ≠ '{'.toNat

/-- Cells that decide nothing are passed over. -/
theorem indentCurrent_idle (indentSize : Nat) (eoiFound : Bool) {front : List Nat} (h : ∀ c ∈ front, Idle c) (cells : List Nat) (pos : Int) :
    indentCurrent indentSize eoiFound (front ++ cells) pos = indentCurrent indentSize eoiFound cells pos := by
  induction front with
  | nil => rfl
  | cons c front ih =>
    obtain ⟨⟨hstyle, hclose, hcolon, hopen⟩, hfront⟩ := List.forall_mem_cons.1 h
    rw [List.cons_append, indentCurrent, if_neg hstyle, if_neg (not_or.2 ⟨hclose, hcolon⟩), if_neg fun h => hopen h.1, ih hfront]

/-- A cell behind the margin decides nothing. -/
theorem idle_covered {m : Margin} {p : Nat} (h : m.Covers p) (c : Nat) : Idle (m.cell p c) := by
  have hstyle : styleOf (m.cell p c) = qeStyleMarginHighlight := by
    rw [Margin.cell, if_pos h]
    exact styleOf_colored _ (Nat.mod_lt _ (Nat.two_pow_pos _))
  have hne : ∀ d, styleOf d ≠ qeStyleMarginHighlight → m.cell p c ≠ d := by
    rintro d hd rfl
    exact hd hstyle
  refine ⟨?_, hne _ (by decide), hne _ (by decide), hne _ (by decide)⟩
  rw [hstyle]
  decide

/-- A brace at a column. -/
def braceLine (a : Nat) : List Byte := List.replicate a '+'.toNat ++ ['}'.toNat]

theorem uncolored_braceLine {a : Nat} : ∀ c ∈ braceLine a, Uncolored c := by
  intro c hc
  rcases List.mem_append.1 hc with hc | hc
  · rw [List.eq_of_mem_replicate hc]
    decide
  · rw [List.mem_singleton.1 hc]
    decide

/-- The brace takes the indentation away, unless it is behind the margin. -/
theorem indentCurrent_braceLine (a : Nat) (m : Margin) :
    indentCurrent 4 true (m.recolor (braceLine a)) 4 = if m.Covers a then 4 else 0 := by
  obtain ⟨front, hfront⟩ : ∃ front, front = (List.replicate a '+'.toNat).mapIdx m.cell := ⟨_, rfl⟩
  have hcells : m.recolor (braceLine a) = front ++ [m.cell a '}'.toNat] := by
    have hall : m.recolor (braceLine a) = (braceLine a).mapIdx m.cell := by
      refine List.ext_getElem? fun p => ?_
      rw [m.recolor_getElem?, List.getElem?_mapIdx]
    rw [hall, braceLine, List.mapIdx_append, hfront]
    simp
  have hidle : ∀ c ∈ front, Idle c := by
    intro c hc
    rw [hfront] at hc
    obtain ⟨p, hp, rfl⟩ := List.mem_mapIdx.1 hc
    by_cases hm : m.Covers p
    · exact idle_covered hm _
    · rw [Margin.cell, if_neg hm, List.getElem_replicate]
      exact ⟨by decide, by decide, by decide, by decide⟩
  rw [hcells, indentCurrent_idle 4 true hidle]
  split_ifs with hm
  · rw [← List.append_nil [_], indentCurrent_idle 4 true (by simpa using idle_covered hm _)]
    rfl
  · rw [Margin.cell, if_neg hm]
    rfl

/-- An empty line, a line that opens a block, and one with a brace at a column. -/
def braceText (a : Nat) : List Byte := newline :: '{'.toNat :: newline :: braceLine a

namespace CWindow

variable {m m' : Margin} {a : Nat}

/-- The window on it, the point at the third line. -/
def braceWindow (a : Nat) (m : Margin) : CWindow := cWindow (braceText a) 3 m

theorem braceWindow_bytes (a : Nat) (m : Margin) : (braceWindow a m).buffer.bytes = braceText a := cWindow_bytes _ _ _

/-- What is read from an offset on is the rest of the line. -/
theorem braceWindow_read (a : Nat) (m : Margin) (o : Nat) : (ebGetLine (braceWindow a m).reader (maxBufSize - 1 - 1) o).1 =
    (((braceText a).drop o).takeWhile (· != newline)).take (maxBufSize - 1 - 1) := by
  have hchars := Reader.getLineLoop_chars (braceWindow a m).reader (maxBufSize - 1 - 1) (braceWindow a m).reader.turns [] (Nat.zero_le _) o
  rw [List.nil_append, Reader.lineFrom_bytes (fun h => by cases h) (by rw [Reader.turns]; omega)] at hchars
  rw [← braceWindow_bytes a m]
  exact hchars

/-- The first three lines of the text. -/
theorem braceWindow_line (a : Nat) (m : Margin) :
    (ebGetLine (braceWindow a m).reader (maxBufSize - 1 - 1) 0).1 = [] ∧
      (ebGetLine (braceWindow a m).reader (maxBufSize - 1 - 1) 1).1 = ['{'.toNat] ∧
      (ebGetLine (braceWindow a m).reader (maxBufSize - 1 - 1) 3).1 = (braceLine a).take (maxBufSize - 1 - 1) := by
  have hbrace : (braceLine a).takeWhile (· != newline) = braceLine a :=
    List.takeWhile_eq_self_iff.2 fun c hc => bne_iff_ne.2 (uncolored_braceLine c hc).1
  have h0 := braceWindow_read a m 0
  have h1 := braceWindow_read a m 1
  have h3 := braceWindow_read a m 3
  rw [← hbrace]
  exact ⟨h0, h1, h3⟩

/-- No line of it is longer than the one with the brace. In front of the text the newline at its beginning is read. -/
theorem braceWindow_within (a : Nat) (m : Margin) : (braceWindow a m).LinesWithin (a + 1) := by
  intro o
  rcases lt_or_ge o 0 with hneg | hpos
  · have hnewline : ((braceWindow a m).reader.nextc o).1 = newline := by
      rw [Reader.nextc, Reader.byte, Int.toNat_of_nonpos hneg.le]
      have htext : (braceWindow a m).reader.text = braceText a := braceWindow_bytes a m
      have hu : (braceWindow a m).reader.charset ≠ .utf8 := fun h => by cases h
      rw [htext, if_pos (Or.inl hu)]
      split_ifs <;> rfl
    rw [ebGetLine, Reader.turns, getLineLoop, if_pos hnewline]
    exact Nat.zero_le _
  · obtain ⟨o, rfl⟩ := Int.eq_ofNat_of_zero_le hpos
    rw [braceWindow_read]
    refine (List.length_take_le' _ _).trans ?_
    rcases o with _ | _ | _ | o
    · exact Nat.zero_le _
    · exact Nat.succ_le_succ (Nat.zero_le _)
    · exact Nat.zero_le _
    · refine (List.takeWhile_prefix _).length_le.trans ?_
      rw [braceText, List.drop_succ_cons, List.drop_succ_cons, List.drop_succ_cons, List.length_drop, braceLine, List.length_append,
        List.length_replicate]
      exact Nat.sub_le _ _

/-- The states behind the first two lines. -/
def braceStates : ColorizeStates where
  states := Function.update (Function.update (Function.update (fun _ => 0) 0 0) 1 0) 2 0
  nbLines := 3 + colorizedLinePreallocSize
  nbValidLines := 3
  maxValidOffset := none

/-- The second line, when it is read first, and the third one are coloured in the state 0, as the first one is empty. -/
theorem getLine_first (w : CWindow) (hnew : w.colorize = setColorizeFunc fun _ => 0) {line cells rest buf : List Nat} {o : Int}
    (hempty : (ebGetLine w.reader (maxBufSize - 1 - 1) (ebGotoPos w.buffer.toPages w.reader 0 0)).1 = [])
    (hline : (ebGetLine w.reader (maxBufSize - 1 - 1) o).1 = line)
    (hcells : Hoe.cColorizeLine w.margin (storeLine (newline :: buf.drop 1) line) line.length 0 = some (cells ++ newline :: rest, 0)) :
    w.getLine buf o 1 = some ({ w with colorize := braceStates }, cells ++ newline :: rest, line.length) := by
  have hfirst := cColorizeLine_uncolored w.margin (show ∀ c ∈ ([] : List Nat), Uncolored c from fun _ h => by cases h) (buf.drop 1)
  have hprop : propagateArray (Hoe.cColorizeLine w.margin) w.reader (maxBufSize - 1) 1 1 (ebGotoPos w.buffer.toPages w.reader 0 0) 0 buf
      (Function.update (fun _ => 0) 0 0) = some (newline :: buf.drop 1, Function.update (Function.update (fun _ => 0) 0 0) 1 0) := by
    have hlast : w.margin.recolor [] = [] := if_neg fun h => Nat.not_lt_zero _ h.2
    rw [propagateArray]
    dsimp only
    rw [hempty]
    rw [hlast] at hfirst
    exact congrArg (fun x => x.bind fun x => propagateArray (Hoe.cColorizeLine w.margin) w.reader (maxBufSize - 1) 0 2
      (ebGetLine w.reader (maxBufSize - 1 - 1) (ebGotoPos w.buffer.toPages w.reader 0 0)).2 x.2 x.1
      (Function.update (Function.update (fun _ => 0) 0 0) 1 (keptState x.2))) hfirst
  have hroom : ((setColorizeFunc fun _ => 0).dropInvalid w.buffer.toPages w.reader.charset).makeRoom 1 =
    { braceStates with states := fun _ => 0, nbValidLines := 0 } := rfl
  have hstart : ColorizeStates.start { braceStates with states := fun _ => 0, nbValidLines := 0 } =
    { braceStates with states := Function.update (fun _ => 0) 0 0, nbValidLines := 1 } := rfl
  have hget : getColorizedLineArray (setColorizeFunc fun _ => 0) (Hoe.cColorizeLine w.margin) w.buffer.toPages w.reader (maxBufSize - 1)
      buf o 1 = some (cells ++ newline :: rest, line.length, braceStates) := by
    rw [getColorizedLineArray, hroom, hstart]
    dsimp only
    rw [if_neg (Nat.not_lt_zero 1)]
    rw [show 1 + 1 - 1 = 1 from rfl, show ((1 - 1 : Nat)) = 0 from rfl]
    rw [Function.update_self, Nat.cast_zero, hprop]
    simp only [Option.bind_eq_bind, Option.bind_some]
    rw [Function.update_self, Nat.cast_zero, hline, hcells]
    rfl
  rw [getLine, hnew, hget]
  rfl

/-- The third line, when the second one was read. -/
theorem getLine_second (w : CWindow) {line cells rest buf : List Nat} {o : Int}
    (hline : (ebGetLine w.reader (maxBufSize - 1 - 1) o).1 = line)
    (hcells : Hoe.cColorizeLine w.margin (storeLine buf line) line.length 0 = some (cells ++ newline :: rest, 0)) :
    ∃ c, ({ w with colorize := braceStates } : CWindow).getLine buf o 2 =
      some ({ w with colorize := c }, cells ++ newline :: rest, line.length) := by
  have hget : getColorizedLineArray braceStates (Hoe.cColorizeLine w.margin) w.buffer.toPages w.reader (maxBufSize - 1) buf o 2 =
      (Hoe.cColorizeLine w.margin (storeLine buf (ebGetLine w.reader (maxBufSize - 1 - 1) o).1)
        (ebGetLine w.reader (maxBufSize - 1 - 1) o).1.length 0).bind fun x =>
          some (x.1, (ebGetLine w.reader (maxBufSize - 1 - 1) o).1.length,
            { braceStates with states := Function.update braceStates.states 3 (keptState x.2), nbValidLines := 4 }) := rfl
  rw [hline, hcells] at hget
  exact ⟨_, congrArg (Option.map _) hget⟩

theorem braceWindow_wellFormed (a : Nat) (m : Margin) : (braceWindow a m).buffer.WellFormed :=
  ⟨_, ebInsert_stands (new_stands true) (Nat.zero_le _) _⟩

/-- What is read of the second line. -/
theorem braceWindow_first (a : Nat) (m : Margin) (junk : List Nat) :
    (braceWindow a m).getLine junk 1 1 =
      some ({ braceWindow a m with colorize := braceStates }, '{'.toNat :: newline :: (junk.drop 1).drop 1, 1) := by
  have hnone : ¬(m.highlight ∧ m.size < ['{'.toNat].length) := fun h => absurd m.size_pos (Nat.not_lt.2 (Nat.le_of_lt_succ h.2))
  have hcells := cColorizeLine_uncolored m (show ∀ c ∈ ['{'.toNat], Uncolored c by decide) ((junk.drop 1).drop 1)
  rw [Margin.recolor, if_neg hnone] at hcells
  obtain ⟨d, hd⟩ := braceWindow_wellFormed a m
  have hbegin : ebGotoPos (braceWindow a m).buffer.toPages (braceWindow a m).reader 0 0 = 0 :=
    ebGotoPos_bol hd.ok rfl (Nat.zero_le _)
  exact getLine_first (braceWindow a m) rfl (by rw [hbegin]; exact (braceWindow_line a m).1) (braceWindow_line a m).2.1 hcells

/-- What is read of the third one. -/
theorem braceWindow_second (ha : a < maxBufSize - 1 - 1) (m : Margin) (buf : List Nat) :
    ∃ c rest, ({ braceWindow a m with colorize := braceStates } : CWindow).getLine buf 3 2 =
      some ({ braceWindow a m with colorize := c }, m.recolor (braceLine a) ++ newline :: rest, (braceLine a).length) := by
  have hlen : (braceLine a).take (maxBufSize - 1 - 1) = braceLine a := by
    refine List.take_of_length_le ?_
    rw [braceLine, List.length_append, List.length_replicate]
    exact ha
  obtain ⟨c, hget⟩ := getLine_second (braceWindow a m) ((braceWindow_line a m).2.2.trans hlen)
    (cColorizeLine_uncolored m uncolored_braceLine (buf.drop ((braceLine a).length + 1)))
  exact ⟨c, _, hget⟩

/-- A brace that is open asks for the indentation of a block. -/
theorem indentLine_open (rest : List Nat) :
    indentLine 8 4 ('{'.toNat :: newline :: rest) (findIndent1 8 ('{'.toNat :: newline :: rest) 0) 1 1 .start =
      .endParse ⟨4, -1, true, 0, false⟩ := by
  have hfind : findIndent1 8 ('{'.toNat :: newline :: rest) 0 = 0 := findIndent1_stop 8 (by simp; decide) 0
  have hbuf : ('{'.toNat :: newline :: rest).getD (1 - 1) 0 = '{'.toNat := rfl
  have hchar : charMask '{'.toNat = '{'.toNat := charMask_of_lt (by decide)
  rw [hfind, indentLine, if_neg (by decide), indentCell, hbuf, hchar, if_neg (by decide)]
  rfl

/-- The line above asks for the indentation of a block. -/
theorem braceWindow_lines (a : Nat) (m : Margin) (junk : List Nat) :
    indentLines (braceWindow a m).reader.turns (braceWindow a m) junk 3 2 .start =
      some ({ braceWindow a m with colorize := braceStates }, '{'.toNat :: newline :: (junk.drop 1).drop 1,
        some ⟨4, -1, true, 0, false⟩) := by
  have hprev : (braceWindow a m).reader.gotoBol ((braceWindow a m).reader.prevc 3).2 = 1 := by
    have htext : (braceWindow a m).reader.text = braceText a := braceWindow_bytes a m
    have hback := Reader.prevLine_bytes (r := (braceWindow a m).reader) (fun h => by cases h)
      (show 1 < (braceWindow a m).reader.text.count newline by rw [htext]; simp [braceText])
    rw [htext] at hback
    exact hback
  have hscan := indentLine_open ((junk.drop 1).drop 1)
  have htab : (braceWindow a m).tabSize = 8 ∧ (braceWindow a m).indentSize = 4 := ⟨rfl, rfl⟩
  rw [Reader.turns, indentLines, if_neg (by decide)]
  dsimp only
  rw [hprev, braceWindow_first]
  simp only [Option.bind_eq_bind, Option.bind_some, htab, hscan]

/-- Blanks are put in front of a line that begins with none. -/
theorem setIndent_front {w : CWindow} (hwf : w.buffer.WellFormed) (hu : w.charset ≠ .utf8) (htab : 0 < w.tabSize) {front back : List Byte}
    {c : Byte} (htext : w.buffer.bytes = front ++ c :: back) (hc : c ≠ ' '.toNat ∧ c ≠ '\t'.toNat) (pos : Int) :
    (w.setIndent front.length pos).map (·.buffer.bytes) =
      some (front ++ indentBlanks w.tabSize w.indentTabsMode pos ++ c :: back) := by
  have hnext : (w.reader.nextc front.length).1 = c := by
    have hlt : front.length < w.reader.text.length := by
      rw [show w.reader.text = front ++ c :: back from htext]
      simp
    rw [Reader.nextc_byte hu hlt, show w.reader.text = front ++ c :: back from htext]
    simp
  have hskip : w.reader.skipIndent front.length = front.length := by
    refine scan_stop ?_ _
    rw [hnext, if_neg (not_or.2 hc)]
  obtain ⟨w', hrun, hleads⟩ := (keptByInserts_stack w.stack).insertSpaces ⟨hwf, rfl⟩ htab htext pos
  rw [setIndent, hskip, Int.sub_self]
  dsimp only
  rw [if_neg (lt_irrefl 0), Option.bind_eq_bind, Option.bind_some, hrun, Option.bind_eq_bind, Option.bind_some]
  exact congrArg some hleads.text

/-- The text behind `do_c_indent`: the line gets the indentation of the block just when the brace is behind the margin. -/
theorem braceWindow_doCIndent (ha : a < maxBufSize - 1 - 1) (hpos : 0 < a) (m : Margin) (junk : List Nat) :
    (doCIndent (braceWindow a m) junk).map (·.buffer.bytes) =
      some ([newline, '{'.toNat, newline] ++ indentBlanks 8 false (if m.Covers a then 4 else 0) ++ braceLine a) := by
  have hwf := braceWindow_wellFormed a m
  have htext : (braceWindow a m).reader.text = braceText a := braceWindow_bytes a m
  have hu : (braceWindow a m).reader.charset ≠ .utf8 := fun h => by cases h
  have hline : (ebGetPos (braceWindow a m).buffer.toPages (braceWindow a m).charset (braceWindow a m).offset).1 = 2 := by
    obtain ⟨d, hd⟩ := hwf
    have hcount := ebGetPos_line hd.ok (braceWindow a m).charset 3
    rw [show (braceWindow a m).buffer.toPages.bytes = braceText a from braceWindow_bytes a m] at hcount
    exact hcount
  have hbol : (braceWindow a m).reader.gotoBol (braceWindow a m).offset = 3 := by
    have hback := Reader.gotoBol_bytes hu (show 3 ≤ (braceWindow a m).reader.text.length by rw [htext]; simp [braceText])
    rw [htext] at hback
    exact hback
  obtain ⟨c, rest, hget⟩ := braceWindow_second ha m ('{'.toNat :: newline :: (junk.drop 1).drop 1)
  have hfound : Indenting.found ⟨4, -1, true, 0, false⟩ 4 = 4 := rfl
  have hindent : (braceWindow a m).indentSize = 4 := rfl
  obtain ⟨a, rfl⟩ : ∃ k, a = k + 1 := ⟨a - 1, by omega⟩
  have hbytes : ({ braceWindow (a + 1) m with colorize := c } : CWindow).buffer.bytes =
    [newline, '{'.toNat, newline] ++ '+'.toNat :: braceLine a := braceWindow_bytes (a + 1) m
  have hset := setIndent_front (w := { braceWindow (a + 1) m with colorize := c }) hwf hu (Nat.zero_lt_succ 7) hbytes (by decide)
    (if m.Covers (a + 1) then 4 else 0)
  rw [doCIndent, hline, hbol, braceWindow_lines, Option.bind_eq_bind, Option.bind_some]
  dsimp only
  rw [hget, Option.bind_eq_bind, Option.bind_some]
  dsimp only
  rw [hindent, hfound, ← m.recolor_length, List.take_left, indentCurrent_braceLine]
  exact hset

/-- The line is indented with the one setting, and not with the other. -/
theorem braceWindow_not_sameEdit (hpos : 0 < a) (ha : a < maxBufSize - 1 - 1) (hm : m.Covers a) (hm' : ¬m'.Covers a) {m₀ : Margin}
    (junk : List Nat) :
    (doCIndent ((braceWindow a m₀).withMargin m) junk).map (·.buffer.bytes) ≠
      (doCIndent ((braceWindow a m₀).withMargin m') junk).map (·.buffer.bytes) := by
  have hsame : ∀ m, (braceWindow a m₀).withMargin m = braceWindow a m := fun _ => rfl
  rw [hsame, hsame, braceWindow_doCIndent ha hpos, braceWindow_doCIndent ha hpos, if_pos hm, if_neg hm']
  intro h
  have hblanks := List.append_cancel_left (List.append_cancel_right (Option.some.inj h))
  exact absurd hblanks (by decide)

/-! ## All buffers -/

/-- The same edit leaves the same text. -/
theorem SameEdit.bytes {w : CWindow} {junk : List Nat} (h : w.SameEdit junk m m') :
    (doCIndent (w.withMargin m) junk).map (·.buffer.bytes) = (doCIndent (w.withMargin m') junk).map (·.buffer.bytes) := by
  rw [← h, Option.map_map]
  rfl

end CWindow

end Hoe
