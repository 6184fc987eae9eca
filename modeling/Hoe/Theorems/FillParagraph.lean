import Hoe.Lemmas.AsciiText

/-!
# Filling a paragraph

`do_fill_paragraph` writes a newline in front of the last chunk of the paragraph whatever the column is, and does not indent
there: right for the white space behind the last word, wrong for a last word at the very end of the text. And it counts the
white space in front of the first word as columns, newlines among it.
-/

namespace Hoe

open Splice Words

/-! ## The filled paragraph -/

/-- How far the last line goes. -/
def column (out : List Byte) : Nat := (lastLine out).length

/-- One word more: on the line while it fits in, else on a new line. -/
def addWord (indent : Nat) (out w : List Byte) : List Byte :=
  out ++ (if Editor.paragraphWidth < column out + 1 + w.length then newline :: List.replicate indent 0x20 else [0x20]) ++ w

/-- The first word with the white space in front of it. -/
def opening (para : List Byte) : List Byte := para.takeWhile isspace ++ (words isspace para).headD []

/-- The paragraph with its words filled in line by line behind the first, and one newline for the white space behind the last. -/
def filled (indent : Nat) (para : List Byte) : List Byte :=
  if words isspace para = [] then para
  else (words isspace para).tail.foldl (addWord indent) (opening para) ++ if endsInGap isspace para then [newline] else []

namespace Editor

/-- `par_start`. -/
def parStart (s : Editor) : Nat := (s.reader.startParagraph s.offset).toNat

/-- `par_end`. -/
def parEnd (s : Editor) : Nat := (s.reader.nextParagraph s.parStart).toNat

/-- The paragraph around the point. -/
def paragraph (s : Editor) : List Byte := slice s.buffer.bytes s.parStart (s.parEnd - s.parStart)

/-- `indent_size`. -/
def parIndent (s : Editor) : Nat := s.indentSize s.parStart s.parEnd

end Editor

/-- The paragraph around the point is filled, and nothing else has changed. -/
def FillsParagraph (s : Editor) : Prop :=
  ∃ s', s.doFillParagraph = some s' ∧ s'.buffer.bytes =
    s.buffer.bytes.take s.parStart ++ filled s.parIndent s.paragraph ++ s.buffer.bytes.drop (max s.parStart s.parEnd)

/-! ## Column by column -/

variable {indent c col δ k : Nat} {w out : List Byte} {ws : List (List Byte)} {trail : Bool}

/-- The column behind one word more. -/
def nextColumn (indent c : Nat) (w : List Byte) : Nat :=
  if Editor.paragraphWidth < c + 1 + w.length then indent + w.length else c + 1 + w.length

/-- The words behind a column. -/
def wrapped (indent : Nat) : Nat → List (List Byte) → List Byte
  | _, [] => []
  | c, w :: ws =>
    (if Editor.paragraphWidth < c + 1 + w.length then newline :: List.replicate indent 0x20 else [0x20]) ++ w ++
      wrapped indent (nextColumn indent c w) ws

/-- What the loop makes of the words behind its column: in front of what is last it always writes a newline. -/
def broken (indent : Nat) (trail : Bool) : Nat → List (List Byte) → List Byte
  | _, [] => if trail then [newline] else []
  | col, w :: ws =>
    if ws = [] ∧ trail = false then newline :: w
    else (if Editor.paragraphWidth < col + 1 + w.length then newline :: List.replicate indent 0x20 else [0x20]) ++ w ++
      broken indent trail (nextColumn indent col w) ws

/-- What the command makes of a paragraph. -/
def refilled (indent : Nat) (para : List Byte) : List Byte :=
  if words isspace para = [] then para
  else opening para ++ broken indent (endsInGap isspace para) (opening para).length (words isspace para).tail

theorem isspace_newline : isspace newline = true := rfl

theorem newline_notMem_of_word (hw : ∀ c ∈ w, isspace c = false) : newline ∉ w := by
  intro hmem
  have := hw newline hmem
  rw [isspace_newline] at this
  cases this

theorem column_addWord (hw : newline ∉ w) : column (addWord indent out w) = nextColumn indent (column out) w := by
  have hspaces : newline ∉ List.replicate indent 0x20 := fun hmem => by
    have := List.eq_of_mem_replicate hmem
    cases this
  rw [column, addWord, nextColumn, List.append_assoc, lastLine_append]
  split
  · have hcut : newline :: List.replicate indent 0x20 ++ w = [newline] ++ (List.replicate indent 0x20 ++ w) := by simp
    have hno : newline ∉ List.replicate indent 0x20 ++ w := by
      rw [List.mem_append]
      exact not_or.mpr ⟨hspaces, hw⟩
    rw [if_pos (by simp), hcut, lastLine_append, if_neg hno]
    simp [lastLine]
  · have hno : newline ∉ [0x20] ++ w := by
      rw [List.mem_append]
      exact not_or.mpr ⟨by decide, hw⟩
    rw [if_neg hno]
    simp [column]
    omega

/-- Filling word by word from the column reached. -/
theorem foldl_addWord (hws : ∀ w ∈ ws, newline ∉ w) (out : List Byte) :
    ws.foldl (addWord indent) out = out ++ wrapped indent (column out) ws ∧
      column (ws.foldl (addWord indent) out) = ws.foldl (nextColumn indent) (column out) := by
  induction ws generalizing out with
  | nil => exact ⟨(List.append_nil out).symm, rfl⟩
  | cons w ws ih =>
    obtain ⟨hw, hws⟩ := List.forall_mem_cons.mp hws
    have hrest := ih hws (addWord indent out w)
    rw [column_addWord hw] at hrest
    obtain ⟨htext, hcol⟩ := hrest
    refine ⟨?_, hcol⟩
    rw [List.foldl_cons, htext, wrapped, addWord]
    simp only [List.append_assoc]

/-- The words are the same. -/
theorem words_filled (indent : Nat) (para : List Byte) : words isspace (filled indent para) = words isspace para := by
  have hadd {ws : List (List Byte)} (hws : ∀ w ∈ ws, w ≠ [] ∧ ∀ c ∈ w, isspace c = false) (out : List Byte) :
      words isspace (ws.foldl (addWord indent) out) = words isspace out ++ ws := by
    induction ws generalizing out with
    | nil => exact (List.append_nil _).symm
    | cons w ws ih =>
      obtain ⟨⟨hne, hw⟩, hws⟩ := List.forall_mem_cons.mp hws
      have hspaces : ∀ c ∈ List.replicate indent 0x20, isspace c = true := by
        intro c hc
        rw [List.eq_of_mem_replicate hc]
        rfl
      have hone : words isspace (addWord indent out w) = words isspace out ++ [w] := by
        rw [addWord]
        split
        · have hcut : out ++ newline :: List.replicate indent 0x20 ++ w = out ++ newline :: (List.replicate indent 0x20 ++ w) := by
            simp
          rw [hcut, words_append_cons isspace_newline, words_gap_append hspaces, words_word hne hw]
        · have hcut : out ++ [0x20] ++ w = out ++ 0x20 :: w := by simp
          rw [hcut, words_append_cons rfl, words_word hne hw]
      rw [List.foldl_cons, ih hws, hone]
      simp
  rw [filled]
  split
  · rfl
  · rename_i hsome
    obtain ⟨w, ws, hws⟩ := List.exists_cons_of_ne_nil hsome
    have hmem : ∀ w' ∈ w :: ws, w' ≠ [] ∧ ∀ c ∈ w', isspace c = false := fun w' hw' => mem_words (hws ▸ hw')
    obtain ⟨⟨hne, hw⟩, hrest⟩ := List.forall_mem_cons.mp hmem
    have hopening : words isspace (opening para) = [w] := by
      rw [opening, hws, words_gap_append fun c hc => List.mem_takeWhile_imp hc]
      exact words_word hne hw
    have hfill := hadd hrest (opening para)
    rw [hopening, List.singleton_append] at hfill
    rw [hws, List.tail_cons]
    split
    · rw [words_append_cons isspace_newline, words_nil, List.append_nil, hfill]
    · rw [List.append_nil, hfill]

/-- How much further the column is behind some of the words, as long as they are on one line. -/
def reach (ws : List (List Byte)) (k : Nat) : Nat := ((ws.take k).map fun w => w.length + 1).sum

theorem reach_cons (w : List Byte) (ws : List (List Byte)) (k : Nat) : reach (w :: ws) (k + 1) = w.length + 1 + reach ws k := by
  rw [reach, List.take_succ_cons, List.map_cons, List.sum_cons, reach]

theorem reach_one (w : List Byte) (ws : List (List Byte)) : reach (w :: ws) 1 = w.length + 1 := by
  rw [reach_cons]
  rfl

/-- In front of a word with others or a gap behind it, what the next step does is told by the columns behind it. -/
theorem last_step (hlast : ¬(ws = [] ∧ trail = false)) :
    (trail = true ∨ w :: ws = [] ∨ (indent = 0 ∧
      Editor.paragraphWidth < (w :: ws).dropLast.foldl (nextColumn indent) c + 1 + ((w :: ws).getLastD []).length)) ↔
    (trail = true ∨ ws = [] ∨ (indent = 0 ∧
      Editor.paragraphWidth < ws.dropLast.foldl (nextColumn indent) (nextColumn indent c w) + 1 + (ws.getLastD []).length)) := by
  cases ws with
  | nil =>
    have htrail : trail = true := by simpa using hlast
    simp [htrail]
  | cons w' ws =>
    have hdrop : (w :: w' :: ws).dropLast = w :: (w' :: ws).dropLast := rfl
    have hlast : (w :: w' :: ws).getLastD [] = (w' :: ws).getLastD [] := by simp [List.getLastD]
    rw [hdrop, hlast, List.foldl_cons]
    simp

/-- A last word with nothing behind it is always put on a new line. -/
theorem broken_last_iff : broken indent false (c + δ) [w] = wrapped indent c [w] ++ (if false then [newline] else []) ↔
    (∀ k, 1 ≤ k → k ≤ [w].length → c + reach [w] k ≤ Editor.paragraphWidth → c + δ + reach [w] k ≤ Editor.paragraphWidth) ∧
    (false = true ∨ [w] = [] ∨
      (indent = 0 ∧ Editor.paragraphWidth < [w].dropLast.foldl (nextColumn indent) c + 1 + ([w].getLastD []).length)) := by
  rw [broken, if_pos ⟨rfl, rfl⟩, wrapped, wrapped]
  by_cases hbreak : Editor.paragraphWidth < c + 1 + w.length
  · rw [if_pos hbreak]
    constructor
    · intro heq
      have hindent : indent = 0 := by
        have hlen := congrArg List.length heq
        simp at hlen
        omega
      refine ⟨fun k hpos hle hfits => ?_, Or.inr (Or.inr ⟨hindent, hbreak⟩)⟩
      obtain rfl : k = 1 := by
        simp at hle
        omega
      rw [reach_one] at hfits ⊢
      omega
    · rintro ⟨-, h | h | ⟨rfl, -⟩⟩
      · cases h
      · cases h
      · simp
  · rw [if_neg hbreak]
    refine iff_of_false (by simp [newline]) ?_
    rintro ⟨-, h | h | ⟨-, h⟩⟩
    · cases h
    · cases h
    · exact hbreak h

/-- Counting `δ` columns too many on the first line, the loop does as it should exactly when no word fits in on this line that
would not with so many more, and a last word at the end is one that begins a new line without indentation. -/
theorem broken_eq_iff : broken indent trail (c + δ) ws = wrapped indent c ws ++ (if trail then [newline] else []) ↔
    (∀ k, 1 ≤ k → k ≤ ws.length → c + reach ws k ≤ Editor.paragraphWidth → c + δ + reach ws k ≤ Editor.paragraphWidth) ∧
    (trail = true ∨ ws = [] ∨
      (indent = 0 ∧ Editor.paragraphWidth < ws.dropLast.foldl (nextColumn indent) c + 1 + (ws.getLastD []).length)) := by
  induction ws generalizing c δ with
  | nil =>
    refine iff_of_true rfl ⟨fun k hpos hle => ?_, Or.inr (Or.inl rfl)⟩
    exact absurd hpos (Nat.not_lt.mpr hle)
  | cons w ws ih =>
    by_cases hlast : ws = [] ∧ trail = false
    · obtain ⟨rfl, rfl⟩ := hlast
      exact broken_last_iff
    · rw [broken, if_neg hlast, wrapped, last_step hlast]
      by_cases hbreak : Editor.paragraphWidth < c + 1 + w.length
      · -- both begin a new line
        have hbreak' : Editor.paragraphWidth < (c + δ : Nat) + 1 + w.length := by omega
        have hcol : nextColumn indent (c + δ) w = indent + w.length + 0 := if_pos hbreak'
        have hcol' : nextColumn indent c w = indent + w.length := if_pos hbreak
        rw [if_pos hbreak, if_pos hbreak', hcol, hcol', List.append_assoc _ (wrapped _ _ _), List.append_cancel_left_eq, ih]
        refine and_congr_left fun _ => iff_of_true (fun k _ _ h => by rwa [Nat.cast_zero, add_zero]) fun k hpos _ h => ?_
        obtain ⟨k, rfl⟩ := Nat.exists_eq_add_of_le' hpos
        rw [reach_cons] at h
        omega
      · by_cases hbreak' : Editor.paragraphWidth < (c + δ : Nat) + 1 + w.length
        · -- the loop begins a new line too early
          rw [if_neg hbreak, if_pos hbreak']
          refine iff_of_false (by simp [newline]) ?_
          rintro ⟨h, -⟩
          have := h 1 Nat.one_pos (by simp) (by rw [reach_one]; omega)
          rw [reach_one] at this
          omega
        · have hcol : nextColumn indent (c + δ) w = c + 1 + w.length + δ := by
            rw [nextColumn, if_neg hbreak']
            omega
          have hcol' : nextColumn indent c w = c + 1 + w.length := if_neg hbreak
          rw [if_neg hbreak, if_neg hbreak', hcol, hcol', List.append_assoc _ (wrapped _ _ _), List.append_cancel_left_eq, ih]
          refine and_congr_left fun _ => ?_
          constructor
          · intro h k hpos hle hfits
            obtain ⟨k, rfl⟩ := Nat.exists_eq_add_of_le' hpos
            rw [reach_cons] at hfits ⊢
            rcases Nat.eq_zero_or_pos k with rfl | hk
            · have hzero : reach ws 0 = 0 := rfl
              omega
            · have := h k hk (by simpa using hle) (by omega)
              omega
          · intro h k hpos hle hfits
            have := h (k + 1) (Nat.succ_pos k) (by simpa using hle) (by rw [reach_cons]; omega)
            rw [reach_cons] at this
            omega

/-! ## One chunk -/

namespace Editor

variable {s : Editor} {front g rest back : List Byte}

/-- The loop that inserts the indentation. -/
theorem insertSpaces_spec (hwf : s.buffer.WellFormed) (htext : s.buffer.bytes = front ++ rest) (n : Nat) :
    ∃ s', s.insertSpaces (front.length : Nat) n = some s' ∧ s'.buffer.WellFormed ∧ s'.charset = s.charset ∧
      s'.buffer.bytes = front ++ List.replicate n 0x20 ++ rest := by
  induction n generalizing s rest with
  | zero => exact ⟨s, rfl, hwf, rfl, by rw [htext]; simp⟩
  | succ n ih =>
    obtain ⟨s₁, hinsert, hedited⟩ := ebInsert_spec hwf (o := front.length) (by rw [htext]; simp) [0x20]
    rw [htext, insertAt_append, List.append_assoc] at hedited
    obtain ⟨s', hrun, hwf', hcharset, htext'⟩ := ih hedited.wf hedited.text
    refine ⟨s', ?_, hwf', hcharset.trans hedited.charset, ?_⟩
    · rw [insertSpaces, hinsert]
      exact hrun
    · rw [htext', List.replicate_succ']
      simp

/-- What is written in place of a gap: a byte and some spaces. -/
theorem respace_spec (hwf : s.buffer.WellFormed) (hg : g ≠ []) (htext : s.buffer.bytes = front ++ g ++ rest) (c : Byte) (n : Nat)
    {m : Int} (hm : m = ((front ++ g).length : Int) + n - ((front.length : Nat) + 1 + n)) :
    ∃ s₁ s₂ s', s.ebWrite (front.length : Nat) [c] = some s₁ ∧ s₁.insertSpaces ((front.length : Nat) + 1) n = some s₂ ∧
      (if 0 < m then s₂.ebDelete ((front.length : Nat) + 1 + n) m else some s₂) = some s' ∧ s'.buffer.WellFormed ∧
      s'.charset = s.charset ∧ s'.buffer.bytes = front ++ c :: List.replicate n 0x20 ++ rest := by
  obtain ⟨c', g', rfl⟩ := List.exists_cons_of_ne_nil hg
  obtain ⟨s₁, hwrite, hedited⟩ := ebWrite_spec hwf (o := front.length) (List.cons_ne_nil c []) (by rw [htext]; simp)
  have htext₁ : s₁.buffer.bytes = (front ++ [c]) ++ (g' ++ rest) := by
    rw [hedited.text, htext, List.append_assoc, overwriteAt_append]
    simp
  obtain ⟨s₂, hspaces, hwf₂, hcharset₂, htext₂⟩ := insertSpaces_spec hedited.wf htext₁ n
  have hlen : (((front ++ [c]).length : Nat) : Int) = (front.length : Nat) + 1 := by simp
  rw [hlen] at hspaces
  have hcount : m = (g'.length : Nat) := by
    rw [hm]
    simp
  have hwant : front ++ c :: List.replicate n 0x20 ++ rest = front ++ [c] ++ List.replicate n 0x20 ++ rest := by simp
  rw [hcount, hwant]
  refine ⟨s₁, s₂, ?_⟩
  by_cases hpos : 0 < g'.length
  · rw [if_pos (Int.natCast_pos.mpr hpos)]
    have hoffset : ((front.length : Nat) : Int) + 1 + n = ((front ++ [c] ++ List.replicate n 0x20).length : Nat) := by
      simp
      omega
    rw [← List.append_assoc] at htext₂
    obtain ⟨s₃, hdelete, hedited₃⟩ := ebDelete_spec hwf₂ (o := (front ++ [c] ++ List.replicate n 0x20).length) (w := g'.length)
      (by rw [htext₂]; simp; omega) (by rw [htext₂]; simp; omega)
    rw [hoffset]
    refine ⟨s₃, hwrite, hspaces, hdelete, hedited₃.wf, ?_, ?_⟩
    · exact hedited₃.charset.trans (hcharset₂.trans hedited.charset)
    · rw [hedited₃.text, htext₂, List.append_assoc, removeAt_append, List.drop_left]
  · rw [if_neg (by omega)]
    have hnil : g' = [] := List.eq_nil_of_length_eq_zero (by omega)
    refine ⟨s₂, hwrite, hspaces, rfl, hwf₂, hcharset₂.trans hedited.charset, ?_⟩
    rw [htext₂, hnil, List.nil_append]

/-- The variables of the loop: what is done, what is left of the paragraph, and what is behind it. -/
structure Filling.At (f : Filling) (front rest back : List Byte) : Prop where
  wf : f.window.buffer.WellFormed
  text : f.window.buffer.bytes = front ++ rest ++ back
  ascii : ∀ c ∈ front ++ rest ++ back, c < 0x80
  offset : f.offset = (front.length : Nat)
  parEnd : f.parEnd = ((front ++ rest).length : Nat)

variable {f : Filling} {w rest' : List Byte}

/-- The two loops over a chunk. -/
theorem Filling.At.skip (h : f.At front rest back) (hchunk : Chunk isspace rest g w rest') :
    f.window.reader.skipChars isspace f.parEnd f.offset = (((front ++ g).length : Int), g.length) ∧
      f.window.reader.skipChars (fun c => !isspace c) f.parEnd ((front ++ g).length : Nat) =
        (((front ++ g ++ w).length : Int), w.length) := by
  have hascii : f.window.reader.Ascii := by
    intro c hc
    exact h.ascii c (h.text ▸ hc)
  have hreader : f.window.reader.text = front ++ rest ++ back := h.text
  constructor
  · rw [h.offset, h.parEnd, hascii.skipChars isspace hreader, hchunk.takeWhile_gap]
  · have hcut : front ++ rest = front ++ g ++ (w ++ rest') := by
      rw [hchunk.eq]
      simp
    rw [hcut] at hreader
    rw [h.parEnd, hcut, hascii.skipChars _ hreader, hchunk.takeWhile_word]

/-- The first chunk stays as it is. -/
theorem fillChunk_first (h : f.At front rest back) (hchunk : Chunk isspace rest g w rest') (hfirst : f.wordCount = 0)
    (indent : Nat) : ∃ f', fillChunk indent f = some f' ∧ f'.At (front ++ g ++ w) rest' back ∧ f'.wordCount = 1 ∧
      f'.col = f.col + g.length + w.length := by
  obtain ⟨hspaces, hword⟩ := h.skip hchunk
  have hcut : front ++ rest = front ++ g ++ w ++ rest' := by
    rw [hchunk.eq]
    simp
  have hturn : fillChunk indent f = some { f with
      offset := ((front ++ g ++ w).length : Nat), col := f.col + g.length + w.length, wordCount := 1 } := by
    simp only [fillChunk, hspaces, hword, hfirst, if_true]
  refine ⟨_, hturn, ⟨h.wf, h.text.trans (by rw [hcut]), ?_, rfl, h.parEnd.trans (by rw [hcut])⟩, rfl, rfl⟩
  rw [← hcut]
  exact h.ascii

theorem Filling.At.cut (h : f.At front rest back) (hchunk : Chunk isspace rest g w rest') :
    f.window.buffer.bytes = front ++ g ++ (w ++ rest' ++ back) ∧ f.parEnd = ((front ++ g ++ w).length : Int) + rest'.length := by
  have hcut : front ++ rest = front ++ g ++ w ++ rest' := by
    rw [hchunk.eq]
    simp
  constructor
  · rw [h.text, hcut]
    simp
  · rw [h.parEnd, hcut, List.length_append, Nat.cast_add]

/-- Behind the last chunk the paragraph ends. -/
theorem Filling.At.end_iff (h : f.At front rest back) (hchunk : Chunk isspace rest g w rest') :
    (((front ++ g ++ w).length : Int) = f.parEnd ↔ rest' = []) ∧ (((front ++ g ++ w).length : Int) < f.parEnd ↔ rest' ≠ []) := by
  obtain ⟨-, hend⟩ := h.cut hchunk
  have hzero := List.length_eq_zero_iff (l := rest')
  rw [hend, ne_eq, ← hzero]
  omega

/-- The loop goes on behind what is written in place of a gap. -/
theorem Filling.At.respaced (h : f.At front rest back) (hchunk : Chunk isspace rest g w rest') {f' : Filling} {l : List Byte}
    (hl : ∀ c ∈ l, c < 0x80) (hwf : f'.window.buffer.WellFormed)
    (htext : f'.window.buffer.bytes = front ++ l ++ (w ++ rest' ++ back))
    (hoffset : f'.offset = ((front ++ g ++ w).length : Int) + l.length - g.length)
    (hend : f'.parEnd = f.parEnd + l.length - g.length) : f'.At (front ++ l ++ w) rest' back := by
  obtain ⟨-, hparEnd⟩ := h.cut hchunk
  refine ⟨hwf, htext.trans (by simp), ?_, ?_, ?_⟩
  · have hall := h.ascii
    rw [hchunk.eq] at hall
    intro c hc
    simp only [List.mem_append] at hall hc
    rcases hc with (((hc | hc) | hc) | hc) | hc
    · exact hall c (by simp [hc])
    · exact hl c hc
    · exact hall c (by simp [hc])
    · exact hall c (by simp [hc])
    · exact hall c (by simp [hc])
  · rw [hoffset]
    simp
    omega
  · rw [hend, hparEnd]
    simp
    omega

/-- A chunk that does not fit in, and one at the end of the paragraph, is a newline, the indentation and the word. -/
theorem fillChunk_break (h : f.At front rest back) (hchunk : Chunk isspace rest g w rest') (hg : g ≠ []) (hnext : f.wordCount ≠ 0)
    (hline : rest' = [] ∨ paragraphWidth < f.col + 1 + w.length) (indent : Nat) :
    ∃ f', fillChunk indent f = some f' ∧ f'.wordCount ≠ 0 ∧ f'.col = (indent + w.length : Nat) ∧
      f'.At (front ++ newline :: List.replicate (if rest' = [] then 0 else indent) 0x20 ++ w) rest' back := by
  obtain ⟨hspaces, hword⟩ := h.skip hchunk
  obtain ⟨htext, -⟩ := h.cut hchunk
  obtain ⟨hend, hlt⟩ := h.end_iff hchunk
  have hpos := List.length_pos_iff.mpr hg
  obtain ⟨n, hn⟩ : ∃ n, n = if rest' = [] then 0 else indent := ⟨_, rfl⟩
  obtain ⟨m, hm⟩ : ∃ m, m = ((front ++ g).length : Int) + n - ((front.length : Nat) + 1 + n) := ⟨_, rfl⟩
  obtain ⟨s₁, s₂, s', hwrite, hindent, hdelete, hwf, -, hbytes⟩ := respace_spec h.wf hg htext newline n hm
  have hcond : ((front ++ g ++ w).length : Int) = f.parEnd ∨ paragraphWidth < f.col + 1 + w.length := by rwa [hend]
  have hsize : (if ((front ++ g ++ w).length : Int) < f.parEnd then indent else 0) = n := by
    rw [hn]
    by_cases hrest : rest' = []
    · rw [if_neg (by rw [hlt]; exact not_not.mpr hrest), if_pos hrest]
    · rw [if_pos (hlt.mpr hrest), if_neg hrest]
  have hmax : max m 0 = (g.length : Int) - 1 := by
    rw [hm, List.length_append]
    omega
  have hturn : fillChunk indent f = some
      { window := s', parEnd := f.parEnd + n - max m 0, offset := ((front ++ g ++ w).length : Int) + n - max m 0,
        col := w.length + indent, wordCount := f.wordCount + 1 } := by
    rw [h.offset] at hspaces
    by_cases hsome : 0 < m
    · rw [if_pos hsome] at hdelete
      simp only [fillChunk, h.offset, hspaces, hword, if_neg hnext, if_pos hcond, hsize, hwrite, hindent, ← hm, if_pos hsome,
        hdelete, Option.bind_eq_bind, Option.bind_some]
    · rw [if_neg hsome, Option.some.injEq] at hdelete
      simp only [fillChunk, h.offset, hspaces, hword, if_neg hnext, if_pos hcond, hsize, hwrite, hindent, ← hm, if_neg hsome,
        hdelete, Option.bind_eq_bind, Option.bind_some]
  have hascii : ∀ c ∈ newline :: List.replicate n 0x20, c < 0x80 := by
    intro c hc
    rcases List.mem_cons.mp hc with rfl | hc
    · decide
    · rw [List.eq_of_mem_replicate hc]
      decide
  have hlen : (newline :: List.replicate n (0x20 : Byte)).length = n + 1 := by simp
  have hcol : (w.length : Int) + indent = (indent + w.length : Nat) := by omega
  have hoffset : ((front ++ g ++ w).length : Int) + n - max m 0 =
      (front ++ g ++ w).length + (newline :: List.replicate n (0x20 : Byte)).length - g.length := by
    rw [hmax, hlen]
    omega
  have hparEnd : f.parEnd + n - max m 0 = f.parEnd + (newline :: List.replicate n (0x20 : Byte)).length - g.length := by
    rw [hmax, hlen]
    omega
  rw [← hn]
  exact ⟨_, hturn, Nat.succ_ne_zero _, hcol, h.respaced hchunk hascii hwf hbytes hoffset hparEnd⟩

/-- Any other chunk behind the first is a space and the word. -/
theorem fillChunk_fits (h : f.At front rest back) (hchunk : Chunk isspace rest g w rest') (hg : g ≠ []) (hnext : f.wordCount ≠ 0)
    (hline : ¬(rest' = [] ∨ paragraphWidth < f.col + 1 + w.length)) (indent : Nat) :
    ∃ f', fillChunk indent f = some f' ∧ f'.wordCount ≠ 0 ∧ f'.col = f.col + 1 + w.length ∧
      f'.At (front ++ [0x20] ++ w) rest' back := by
  obtain ⟨hspaces, hword⟩ := h.skip hchunk
  obtain ⟨htext, -⟩ := h.cut hchunk
  obtain ⟨hend, -⟩ := h.end_iff hchunk
  have hpos := List.length_pos_iff.mpr hg
  obtain ⟨m, hm⟩ : ∃ m, m = ((front ++ g).length : Int) - ((front.length : Nat) + 1) := ⟨_, rfl⟩
  obtain ⟨s₁, s₂, s', hwrite, hindent, hdelete, hwf, -, hbytes⟩ := respace_spec h.wf hg htext 0x20 0 (m := m)
    (by rw [hm, Nat.cast_zero, add_zero, add_zero])
  obtain rfl := Option.some.inj hindent
  rw [Nat.cast_zero, add_zero] at hdelete
  have hcond : ¬(((front ++ g ++ w).length : Int) = f.parEnd ∨ paragraphWidth < f.col + 1 + w.length) := by rwa [hend]
  have hmax : max m 0 = (g.length : Int) - 1 := by
    rw [hm, List.length_append]
    omega
  have hturn : fillChunk indent f = some
      { window := s', parEnd := f.parEnd - max m 0, offset := ((front ++ g ++ w).length : Int) - max m 0,
        col := f.col + 1 + w.length, wordCount := f.wordCount + 1 } := by
    rw [h.offset] at hspaces
    by_cases hsome : 0 < m
    · rw [if_pos hsome] at hdelete
      simp only [fillChunk, h.offset, hspaces, hword, if_neg hnext, if_neg hcond, hwrite, ← hm, if_pos hsome, hdelete,
        Option.bind_eq_bind, Option.bind_some]
    · rw [if_neg hsome, Option.some.injEq] at hdelete
      simp only [fillChunk, h.offset, hspaces, hword, if_neg hnext, if_neg hcond, hwrite, ← hm, if_neg hsome, hdelete,
        Option.bind_eq_bind, Option.bind_some]
  have hlen : ([0x20] : List Byte).length = 1 := rfl
  have hoffset : ((front ++ g ++ w).length : Int) - max m 0 = (front ++ g ++ w).length + ([0x20] : List Byte).length - g.length := by
    rw [hmax, hlen]
    omega
  have hparEnd : f.parEnd - max m 0 = f.parEnd + ([0x20] : List Byte).length - g.length := by
    rw [hmax, hlen]
    omega
  exact ⟨_, hturn, Nat.succ_ne_zero _, rfl, h.respaced hchunk (by decide) hwf hbytes hoffset hparEnd⟩

/-! ## The loop -/

/-- At the end of the paragraph the loop stops. -/
theorem fillLoop_stop (h : f.At front [] back) (indent n : Nat) : fillLoop indent n f = some f := by
  have hstop : ¬f.offset < f.parEnd := by
    rw [h.offset, h.parEnd, List.append_nil]
    exact lt_irrefl _
  cases n with
  | zero => exact if_neg hstop
  | succ n => exact if_neg hstop

theorem fillLoop_turn (h : f.At front rest back) (hne : rest ≠ []) (indent n : Nat) :
    fillLoop indent (n + 1) f = (fillChunk indent f).bind (fillLoop indent n) := by
  have hlt : f.offset < f.parEnd := by
    have := List.length_pos_iff.mpr hne
    rw [h.offset, h.parEnd, List.length_append]
    omega
  exact if_pos hlt

/-- What the loop makes of the rest of a paragraph behind its first word. -/
theorem fillLoop_spec (h : f.At front rest back) (hrest : ∀ c ∈ rest.head?, isspace c = true) (hnext : f.wordCount ≠ 0)
    {col : Nat} (hcol : f.col = col) (indent : Nat) {n : Nat} (hn : rest.length ≤ n) :
    ∃ f', fillLoop indent n f = some f' ∧
      f'.window.buffer.bytes = front ++ broken indent (endsInGap isspace rest) col (words isspace rest) ++ back := by
  induction n generalizing f front rest col with
  | zero =>
    obtain rfl : rest = [] := List.eq_nil_of_length_eq_zero (by omega)
    refine ⟨f, fillLoop_stop h indent 0, ?_⟩
    rw [h.text, words_nil]
    rfl
  | succ n ih =>
    by_cases hne : rest = []
    · subst hne
      refine ⟨f, fillLoop_stop h indent (n + 1), ?_⟩
      rw [h.text, words_nil]
      rfl
    obtain ⟨g, w, rest', hchunk⟩ := exists_chunk isspace rest
    have hg : g ≠ [] := by
      obtain ⟨c, r, rfl⟩ := List.exists_cons_of_ne_nil hne
      rw [← hchunk.takeWhile_gap, List.takeWhile_cons_of_pos (hrest c rfl)]
      exact List.cons_ne_nil _ _
    have hshorter : rest'.length ≤ n := by
      have hlen := congrArg List.length hchunk.eq
      have := List.length_pos_iff.mpr hg
      rw [List.length_append, List.length_append] at hlen
      omega
    rw [fillLoop_turn h hne, hchunk.words_eq, hchunk.endsInGap_eq]
    by_cases hlast : rest' = []
    · -- the last chunk: a word, or the white space at the end
      obtain ⟨f₁, hturn, -, -, hat⟩ := fillChunk_break h hchunk hg hnext (Or.inl hlast) indent
      rw [if_pos hlast, List.replicate_zero, hlast] at hat
      refine ⟨f₁, by rw [hturn, Option.bind_some, fillLoop_stop hat], ?_⟩
      rw [hat.text, if_pos hlast]
      by_cases hw : w = []
      · rw [if_pos hw, hw]
        simp [broken, hg]
      · rw [if_neg hw, hlast, words_nil]
        simp [broken, hw]
    · have hw : w ≠ [] := fun hw => hlast (hchunk.last hw)
      have hmore : ¬(words isspace rest' = [] ∧ endsInGap isspace rest' = false) := mt hchunk.rest_eq_nil_iff.mpr hlast
      rw [if_neg hw, if_neg hlast, broken, if_neg hmore, nextColumn]
      by_cases hbreak : paragraphWidth < col + 1 + w.length
      · obtain ⟨f₁, hturn, hnext₁, hcol₁, hat⟩ := fillChunk_break h hchunk hg hnext (Or.inr (hcol ▸ hbreak)) indent
        rw [if_neg hlast] at hat
        obtain ⟨f', hrun, htext⟩ := ih hat hchunk.behind hnext₁ hcol₁ hshorter
        refine ⟨f', by rw [hturn, Option.bind_some, hrun], ?_⟩
        rw [htext, if_pos hbreak, if_pos hbreak]
        simp
      · obtain ⟨f₁, hturn, hnext₁, hcol₁, hat⟩ :=
          fillChunk_fits h hchunk hg hnext (not_or.mpr ⟨hlast, hcol ▸ hbreak⟩) indent
        have hcol' : f₁.col = (col + 1 + w.length : Nat) := by
          rw [hcol₁, hcol]
          omega
        obtain ⟨f', hrun, htext⟩ := ih hat hchunk.behind hnext₁ hcol' hshorter
        refine ⟨f', by rw [hturn, Option.bind_some, hrun], ?_⟩
        rw [htext, if_neg hbreak, if_neg hbreak]
        simp

/-- The whole loop. -/
theorem fillLoop_first (h : f.At front rest back) (hfirst : f.wordCount = 0) (hcol : f.col = 0) (indent : Nat) {n : Nat}
    (hn : rest.length ≤ n) :
    ∃ f', fillLoop indent n f = some f' ∧ f'.window.buffer.bytes = front ++ refilled indent rest ++ back := by
  by_cases hne : rest = []
  · subst hne
    refine ⟨f, fillLoop_stop h indent n, ?_⟩
    rw [h.text, refilled, if_pos words_nil]
  obtain ⟨g, w, rest', hchunk⟩ := exists_chunk isspace rest
  obtain ⟨n, rfl⟩ := Nat.exists_eq_add_of_le' (Nat.le_trans (List.length_pos_iff.mpr hne) hn)
  obtain ⟨f₁, hturn, hat, hnext, hcol₁⟩ := fillChunk_first h hchunk hfirst indent
  rw [fillLoop_turn h hne, hturn, Option.bind_some, refilled, opening, hchunk.words_eq, hchunk.endsInGap_eq,
    hchunk.takeWhile_gap]
  by_cases hw : w = []
  · -- white space alone
    obtain rfl := hchunk.last hw
    refine ⟨f₁, fillLoop_stop hat indent n, ?_⟩
    rw [hat.text, if_pos hw, if_pos rfl, hchunk.eq]
    simp
  · have hshorter : rest'.length ≤ n := by
      have hlen := congrArg List.length hchunk.eq
      have := List.length_pos_iff.mpr hw
      rw [List.length_append, List.length_append] at hlen
      omega
    have hcol' : f₁.col = (g.length + w.length : Nat) := by
      rw [hcol₁, hcol]
      omega
    obtain ⟨f', hrun, htext⟩ := fillLoop_spec hat hchunk.behind (by omega) hcol' indent hshorter
    have hends : (if rest' = [] then decide (w = []) && !g.isEmpty else endsInGap isspace rest') = endsInGap isspace rest' := by
      split
      · rename_i hrest
        rw [hrest]
        simp [hw, endsInGap]
      · rfl
    refine ⟨f', hrun, ?_⟩
    rw [htext, if_neg hw, if_neg (List.cons_ne_nil _ _), hends]
    simp

/-! ## The command -/

/-- The paragraph lies in the text. -/
theorem parStart_eq (hascii : ∀ c ∈ s.buffer.bytes, c < 0x80) (hoffset : s.reader.Within s.offset) :
    s.reader.startParagraph s.offset = s.parStart ∧ s.reader.nextParagraph s.parStart = s.parEnd ∧
      s.parStart ≤ s.buffer.bytes.length ∧ s.parEnd ≤ s.buffer.bytes.length := by
  have hreader : s.reader.Ascii := hascii
  have hbounds := hreader.startParagraph_within hoffset
  have hstart : s.reader.startParagraph s.offset = s.parStart := (Int.toNat_of_nonneg hbounds.1).symm
  rw [hstart] at hbounds
  have hbounds' := hreader.nextParagraph_within hbounds
  have hend : s.reader.nextParagraph s.parStart = s.parEnd := (Int.toNat_of_nonneg hbounds'.1).symm
  rw [hend] at hbounds'
  exact ⟨hstart, hend, Int.ofNat_le.mp hbounds.2, Int.ofNat_le.mp hbounds'.2⟩

/-- The command writes what its loop makes of the paragraph. -/
theorem doFillParagraph_spec (hwf : s.buffer.WellFormed) (hascii : ∀ c ∈ s.buffer.bytes, c < 0x80)
    (hoffset : s.reader.Within s.offset) : ∃ s', s.doFillParagraph = some s' ∧ s'.buffer.bytes =
      s.buffer.bytes.take s.parStart ++ refilled s.parIndent s.paragraph ++ s.buffer.bytes.drop (max s.parStart s.parEnd) := by
  obtain ⟨hstart, hend, hstart_le, hend_le⟩ := parStart_eq hascii hoffset
  have htext : s.buffer.bytes =
      s.buffer.bytes.take s.parStart ++ s.paragraph ++ s.buffer.bytes.drop (max s.parStart s.parEnd) := by
    have hmax : max s.parStart s.parEnd = s.parStart + (s.parEnd - s.parStart) := by omega
    rw [paragraph, hmax]
    exact (take_slice_drop _ _ _).symm
  obtain ⟨f, hf⟩ : ∃ f : Filling, f = { window := s, parEnd := s.parEnd, offset := s.parStart, col := 0, wordCount := 0 } :=
    ⟨_, rfl⟩
  have hcommand : s.doFillParagraph = (fillLoop s.parIndent s.reader.turns f).map (·.window) := by
    rw [doFillParagraph, hstart, hend, hf, parIndent]
  have hrun : ∃ f', fillLoop s.parIndent s.reader.turns f = some f' ∧ f'.window.buffer.bytes =
      s.buffer.bytes.take s.parStart ++ refilled s.parIndent s.paragraph ++ s.buffer.bytes.drop (max s.parStart s.parEnd) := by
    rcases Nat.lt_or_ge s.parEnd s.parStart with hlt | hle
    · have hnil : s.paragraph = [] := by
        rw [paragraph, Nat.sub_eq_zero_of_le (Nat.le_of_lt hlt)]
        exact List.take_zero
      have hstop : ¬f.offset < f.parEnd := by
        rw [hf]
        exact Int.not_lt.mpr (Int.ofNat_le.mpr (Nat.le_of_lt hlt))
      have hsame : refilled s.parIndent s.paragraph = s.paragraph := by
        rw [hnil, refilled, if_pos words_nil]
      refine ⟨f, if_neg hstop, ?_⟩
      rw [hsame, ← htext, hf]
    · have hlen : (s.buffer.bytes.take s.parStart ++ s.paragraph).length = s.parEnd := by
        rw [List.length_append, List.length_take_of_le hstart_le, paragraph, length_slice _ (by omega)]
        omega
      have hat : f.At (s.buffer.bytes.take s.parStart) s.paragraph (s.buffer.bytes.drop (max s.parStart s.parEnd)) := by
        refine ⟨by rw [hf]; exact hwf, by rw [hf]; exact htext, by rw [← htext]; exact hascii, ?_, ?_⟩
        · rw [hf, List.length_take_of_le hstart_le]
        · rw [hf, hlen]
      have hturns : s.paragraph.length ≤ s.reader.turns := by
        have hle : s.paragraph.length ≤ s.buffer.bytes.length := by
          have := congrArg List.length htext
          rw [List.length_append, List.length_append] at this
          omega
        exact Nat.le_succ_of_le hle
      exact fillLoop_first hat (by rw [hf]) (by rw [hf]) _ hturns
  obtain ⟨f', hloop, hbytes⟩ := hrun
  refine ⟨f'.window, ?_, hbytes⟩
  rw [hcommand, hloop]
  rfl

end Editor

/-- What the command makes of a paragraph is the filled paragraph exactly when the first line breaks where it should, and so does
a last word at the end. -/
theorem refilled_eq_filled_iff {para : List Byte} : refilled indent para = filled indent para ↔
    (∀ k, 1 ≤ k → k ≤ (words isspace para).tail.length →
      column (opening para) + reach (words isspace para).tail k ≤ Editor.paragraphWidth →
        (opening para).length + reach (words isspace para).tail k ≤ Editor.paragraphWidth) ∧
    (endsInGap isspace para = true ∨ (words isspace para).tail = [] ∨ (indent = 0 ∧ Editor.paragraphWidth <
      column ((words isspace para).tail.dropLast.foldl (addWord indent) (opening para)) + 1 +
        ((words isspace para).tail.getLastD []).length)) := by
  obtain ⟨ws, hws⟩ : ∃ ws, ws = (words isspace para).tail := ⟨_, rfl⟩
  have hmem : ∀ w ∈ ws, newline ∉ w := by
    intro w hw
    rw [hws] at hw
    exact newline_notMem_of_word (mem_words (List.mem_of_mem_tail hw)).2
  obtain ⟨δ, hδ⟩ : ∃ δ, (opening para).length = column (opening para) + δ := by
    obtain ⟨-, a, ha, -⟩ := exists_lastLine (opening para)
    have hlen := congrArg List.length ha
    rw [List.length_append] at hlen
    exact ⟨a.length, by rw [column]; omega⟩
  have hdrop : ∀ w ∈ ws.dropLast, newline ∉ w := fun w hw => hmem w (List.mem_of_mem_dropLast hw)
  rw [← hws, (foldl_addWord hdrop _).2, hδ, Nat.cast_add, ← broken_eq_iff, refilled, filled, ← hws, hδ, (foldl_addWord hmem _).1]
  by_cases hnone : words isspace para = []
  · have hends : ws = [] := by rw [hws, hnone]; rfl
    rw [if_pos hnone, if_pos hnone, hends]
    exact iff_of_true rfl rfl
  · rw [if_neg hnone, if_neg hnone, List.append_assoc, List.append_cancel_left_eq]

namespace Editor

variable {s : Editor}

/-- The paragraph is filled exactly when on its first line no word fits in that would not with the newlines in front of the first
word counted as columns, and there is white space behind the last word, or no other word, or the last word begins a new line
without indentation. -/
theorem fillsParagraph_iff (hwf : s.buffer.WellFormed) (hascii : ∀ c ∈ s.buffer.bytes, c < 0x80) (hpos : 0 ≤ s.offset)
    (hle : s.offset ≤ s.total) : FillsParagraph s ↔
    (∀ k, 1 ≤ k → k ≤ (words isspace s.paragraph).tail.length →
      column (opening s.paragraph) + reach (words isspace s.paragraph).tail k ≤ paragraphWidth →
        (opening s.paragraph).length + reach (words isspace s.paragraph).tail k ≤ paragraphWidth) ∧
    (endsInGap isspace s.paragraph = true ∨ (words isspace s.paragraph).tail = [] ∨ (s.parIndent = 0 ∧ paragraphWidth <
      column ((words isspace s.paragraph).tail.dropLast.foldl (addWord s.parIndent) (opening s.paragraph)) + 1 +
        ((words isspace s.paragraph).tail.getLastD []).length)) := by
  have hoffset : s.reader.Within s.offset := ⟨hpos, by rw [Reader.total]; exact (total_eq hwf) ▸ hle⟩
  obtain ⟨s', hrun, hbytes⟩ := doFillParagraph_spec hwf hascii hoffset
  rw [← refilled_eq_filled_iff]
  constructor
  · rintro ⟨s'', hs'', hfilled⟩
    obtain rfl := Option.some.inj (hrun.symm.trans hs'')
    rw [hbytes] at hfilled
    exact List.append_cancel_left (List.append_cancel_right hfilled)
  · intro hsame
    exact ⟨s', hrun, by rw [hbytes, hsame]⟩

/-- A window on a text. -/
def paragraphWindow (text : List Byte) : Editor := Editor.new (Hoe.ebInsert (EditBuffer.new true) 0 text) .latin1 0

theorem paragraphWindow_wf (text : List Byte) : (paragraphWindow text).buffer.WellFormed :=
  ⟨_, ebInsert_stands (new_stands true) (Nat.zero_le _) text⟩

/-- Two words on two lines become one line. -/
theorem fillsParagraph_two : FillsParagraph (paragraphWindow [0x61, newline, 0x62, newline]) :=
  (fillsParagraph_iff (paragraphWindow_wf _) (by decide) (by decide) (by decide)).mpr (by decide)

/-- Two words on one line become two lines when there is no newline behind them. -/
theorem not_fillsParagraph : ¬∀ s : Editor, s.buffer.WellFormed → (∀ c ∈ s.buffer.bytes, c < 0x80) → 0 ≤ s.offset →
    s.offset ≤ s.total → FillsParagraph s := by
  intro h
  obtain ⟨s', hs', hbytes⟩ := h (paragraphWindow [0x61, 0x20, 0x62]) (paragraphWindow_wf _) (by decide) (by decide) (by decide)
  have hresult : (paragraphWindow [0x61, 0x20, 0x62]).doFillParagraph.map (fun s => s.buffer.bytes) =
      some [0x61, newline, 0x62] := by decide
  rw [hs', Option.map_some, Option.some.injEq, hbytes] at hresult
  revert hresult
  decide

end Editor

end Hoe
