import Hoe.Lemmas.Rectangles
import Hoe.Theorems.Shell

/-!
# Addressing the cursor

`tty_gotoxy` adds the lines that are missing, and where the line is short the blanks. It goes through the line until its end and
inserts the blanks there, but it leaves the cursor in front of them.
-/

namespace Hoe

open Splice Lines

/-! ## Newlines at the end of a text -/

theorem begun_empty (n : Nat) : begun newline (List.replicate n []) = List.replicate n newline := by
  induction n with
  | zero => rfl
  | succ n ih => rw [List.replicate_succ, begun_cons, ih, List.replicate_succ, List.cons_append, List.nil_append]

/-- Newlines at the end are empty lines. -/
theorem splitOn_append_newlines (text : List Byte) (n : Nat) :
    (text ++ List.replicate n newline).splitOn newline = text.splitOn newline ++ List.replicate n [] := by
  obtain ⟨a, m, b, hsplit, -, htext⟩ := Lines.exists_line (Nat.le_refl (text.count newline))
  have hlines : ∀ l ∈ text.splitOn newline ++ List.replicate n [], newline ∉ l := by
    refine List.forall_mem_append.mpr ⟨fun l hl => not_mem_of_mem_splitOn hl, fun l hl => ?_⟩
    rw [List.eq_of_mem_replicate hl]
    exact List.not_mem_nil
  have hcut : text ++ List.replicate n newline = [newline].intercalate (text.splitOn newline ++ List.replicate n []) := by
    rw [hsplit, List.append_assoc, List.cons_append, intercalate_cut, htext, ← begun_empty]
    simp [begun]
  rw [hcut, List.splitOn_intercalate newline hlines (by simp [List.splitOn_ne_nil])]

/-- Newlines at the end leave every line as long as it was; a line that was missing is empty. -/
theorem lineLength_append_newlines (text : List Byte) (n k : Nat) :
    lineLength (text ++ List.replicate n newline) k = lineLength text k := by
  rw [lineLength, lineLength, splitOn_append_newlines]
  simp only [List.getD_eq_getElem?_getD]
  rcases Nat.lt_or_ge k (text.splitOn newline).length with hlt | hge
  · rw [List.getElem?_append_left hlt]
  · rw [List.getElem?_append_right hge, List.getElem?_eq_none hge, List.getElem?_replicate]
    split_ifs <;> rfl

/-- Where a column of a line is. -/
theorem posOf_column {text : List Byte} {k j : Nat} (hk : k ≤ text.count newline) (hj : j ≤ lineLength text k) :
    posOf text (lineStart text k + j) = (k, j) := by
  obtain ⟨a, m, b, h⟩ := exists_lineAt hk
  rw [h.length] at hj
  have htake : text.take (lineStart text k + j) = text.take (lineStart text k) ++ m.take j := by
    rw [h.start]
    conv_lhs => rw [h.text_eq]
    conv_rhs => rw [h.text_eq]
    rw [List.append_assoc, List.take_length_add_append, List.take_left, List.take_append_of_le_length hj]
  have hno : newline ∉ m.take j := fun hmem => h.line (List.mem_of_mem_take hmem)
  obtain ⟨hcount, hcol⟩ := Prod.ext_iff.mp (posOf_lineStart hk)
  simp only [posOf] at hcount hcol
  rw [posOf, htake, List.count_append, hcount, List.count_eq_zero.mpr hno, lastLine_append, if_neg hno, List.length_append, hcol,
    List.length_take_of_le hj, Nat.zero_add, Nat.add_zero]

/-- What is put in behind an offset does not move it. -/
theorem posOf_insertAt {text xs : List Byte} {e o : Nat} (he : e ≤ text.length) (ho : o ≤ e) :
    posOf (insertAt text e xs) o = posOf text o := by
  have htake : (insertAt text e xs).take o = text.take o := by
    rw [insertAt, List.append_assoc, List.take_append_of_le_length (by rw [List.length_take_of_le he]; exact ho), List.take_take,
      Nat.min_eq_left ho]
  rw [posOf, posOf, htake]

namespace ShellState

/-! ## The parts of `tty_gotoxy` -/

variable {s : ShellState}

theorem Safe.bytes_insert (h : s.Safe) {o : Nat} (ho : o ≤ s.b.totalSize) (buf : List Byte) :
    (s.insert o buf).b.bytes = insertAt s.b.bytes o buf := by
  obtain ⟨d, hd⟩ := h.wf
  have hst := ebInsert_stands hd (show o ≤ d.text.length by rw [← hd.total]; exact ho) buf
  rw [hd.text]
  exact hst.text

/-- The text with newlines at the end. -/
theorem Safe.bytes_addLines (h : s.Safe) (n : Nat) : (s.addLines n).b.bytes = s.b.bytes ++ List.replicate n newline := by
  induction n generalizing s with
  | zero => exact (List.append_nil _).symm
  | succ n ih =>
    have hend : (s.insert s.b.totalSize [newline]).b.bytes = s.b.bytes ++ [newline] := by
      rw [h.bytes_insert (Nat.le_refl _), h.total, insertAt, List.take_length, List.drop_length, List.append_nil]
    rw [ShellState.addLines, ih (h.insert (Nat.le_refl _) [newline]).1, hend, List.append_assoc, List.singleton_append,
      List.replicate_succ]

/-- The text with blanks in a line. -/
theorem Safe.bytes_insertBlanks (h : s.Safe) {front back : List Byte} (hs : s.b.bytes = front ++ back) (n : Nat) :
    (ShellState.insertBlanks front.length n s).b.bytes = front ++ List.replicate n 0x20 ++ back := by
  induction n generalizing s back with
  | zero => rw [ShellState.insertBlanks, hs, List.replicate_zero, List.append_nil]
  | succ n ih =>
    have ho : front.length ≤ s.b.totalSize := by
      rw [h.total, hs, List.length_append]
      exact Nat.le_add_right _ _
    have hone : (s.insert front.length [0x20]).b.bytes = front ++ 0x20 :: back := by
      rw [h.bytes_insert ho, hs, insertAt_append, List.append_assoc, List.singleton_append]
    rw [ShellState.insertBlanks, ih (h.insert ho [0x20]).1 hone, List.replicate_succ']
    simp

/-- In a charset of single bytes `eb_nextc` reads the byte at the offset. -/
theorem Safe.nextc (h : s.Safe) (stack : List Byte) {front back : List Byte} {c : Byte} (hs : s.b.bytes = front ++ c :: back) :
    ∃ t, ebNextc s.b.toPages s.charset stack front.length = (t, c, ((front ++ [c]).length : Int)) ∧ t.Reads s.b.bytes := by
  have hlt : front.length < s.b.bytes.length := by
    rw [hs, List.length_append, List.length_cons]
    omega
  obtain ⟨e1, e2, e3⟩ := ebNextc_eq h.reads.ok (r := ⟨s.b.bytes, s.charset, stack⟩) rfl (Int.natCast_nonneg front.length)
  have hread := Reader.nextc_byte (r := ⟨s.b.bytes, s.charset, stack⟩) h.single hlt
  have hget : s.b.bytes.getD front.length 0 = c := by rw [hs]; simp
  simp only at e1 e2 e3 hread
  refine ⟨_, Prod.ext rfl (e1.trans ?_), h.reads.same e2 e3⟩
  rw [hread, hget, List.length_append]
  rfl

/-- The walk over a line: it goes `x` characters far, or to the end of the line, and makes the line longer there. -/
theorem Safe.gotoX_spec (h : s.Safe) (stack : Nat → List Byte) {front line back : List Byte} (hline : newline ∉ line)
    (hs : s.b.bytes = front ++ line ++ newline :: back) (x : Nat) :
    (ShellState.gotoX stack x s front.length).b.bytes =
        front ++ line ++ List.replicate (x - line.length) 0x20 ++ newline :: back ∧
      (ShellState.gotoX stack x s front.length).curOffset = ((front.length + min x line.length : Nat) : Int) := by
  induction x generalizing s front line with
  | zero =>
    rw [ShellState.gotoX, Nat.zero_sub, Nat.zero_min, List.replicate_zero, List.append_nil]
    exact ⟨hs, rfl⟩
  | succ x ih =>
    cases line with
    | nil =>
      rw [List.append_nil] at hs
      obtain ⟨t, hread, ht⟩ := h.nextc (stack x) hs
      rw [ShellState.gotoX, hread]
      dsimp only
      rw [if_pos rfl]
      refine ⟨?_, rfl⟩
      have hblanks := (h.withPages ht).bytes_insertBlanks (ht.bytes.trans hs) (x + 1)
      rw [List.append_nil]
      exact hblanks
    | cons c line =>
      have hc : newline ≠ c := List.ne_of_not_mem_cons hline
      have hline' := List.not_mem_of_not_mem_cons hline
      have hnext : s.b.bytes = front ++ [c] ++ line ++ newline :: back := by
        rw [hs]
        simp
      rw [List.append_assoc, List.cons_append] at hs
      obtain ⟨t, hread, ht⟩ := h.nextc (stack x) hs
      rw [ShellState.gotoX, hread]
      dsimp only
      rw [if_neg hc.symm]
      obtain ⟨i1, i2⟩ := ih (h.withPages ht) hline' (ht.bytes.trans hnext)
      refine ⟨i1.trans (by simp), i2.trans ?_⟩
      rw [List.length_append, List.length_cons, List.length_cons, List.length_nil]
      omega

/-- The beginning of a line that is there. -/
theorem Safe.gotoPos (h : s.Safe) (stack : Nat → List Byte) {line : Nat} (hline : line ≤ s.b.bytes.count newline)
    (hne : s.b.bytes ≠ []) : ∃ t,
      ebGotoPosCached s.b.toPages s.charset stack line 0 = (t, ((lineStart s.b.bytes line : Nat) : Int)) ∧ t.Reads s.b.bytes := by
  obtain ⟨t, o, e1, e2, -⟩ := h.reads.gotoPos s.charset stack line
  refine ⟨t, ?_, e2⟩
  rw [e1]
  have hbytes : s.b.bytes = tableBytes s.b.pageTable := s.b.toPages.bytes_eq
  have hle : line ≤ 0 + (tableBytes s.b.pageTable).count newline := by
    rw [Nat.zero_add, ← hbytes]
    exact hline
  rcases gotoPosLoop_line s.charset h.reads.ok.pages h.lines line 0 0 0 (Nat.zero_le _) hle with ⟨hnil, -⟩ | hfound
  · rw [hnil] at hbytes
    exact absurd hbytes hne
  · have ho := congrArg Prod.snd e1
    simp only [ebGotoPosCached, hfound, gotoColLoop, Nat.zero_add, Nat.sub_zero] at ho
    rw [lineStart, hbytes, ← ho]

/-- What `tty_gotoxy` does: it adds newlines until the line is there, goes `x` characters into it or to its end, and fills it with
blanks behind that. -/
theorem Safe.ttyGotoxy_spec (h : s.Safe) (stack : Nat → List Byte) (x y : Nat) :
    let n := s.b.bytes.count newline
    let line := n - ttyYsize + y
    let text := s.b.bytes ++ List.replicate (line + 1 - n) newline
    (s.ttyGotoxy stack x y).b.bytes = insertAt text (lineStart text line + lineLength text line)
        (List.replicate (x - lineLength text line) 0x20) ∧
      (s.ttyGotoxy stack x y).curOffset = ((lineStart text line + min x (lineLength text line) : Nat) : Int) ∧
      line < text.count newline := by
  obtain ⟨n, hn⟩ : ∃ n, n = s.b.bytes.count newline := ⟨_, rfl⟩
  obtain ⟨line, hline⟩ : ∃ line, line = n - ttyYsize + y := ⟨_, rfl⟩
  obtain ⟨text, htext⟩ : ∃ text, text = s.b.bytes ++ List.replicate (line + 1 - n) newline := ⟨_, rfl⟩
  dsimp only
  rw [← hn, ← hline, ← htext]
  have hcount : line < text.count newline := by
    rw [htext, List.count_append, ← hn, List.count_replicate_self]
    omega
  -- the lines of the buffer
  have hpos : (ebGetPosCached s.b.toPages s.charset s.b.totalSize).2.1 = n := by
    rw [show (ebGetPosCached s.b.toPages s.charset s.b.totalSize).2.1 = _ from getPosLoop_line h.reads.ok.pages h.lines _ 0 0,
      Nat.zero_add, ← s.b.toPages.bytes_eq, h.total, List.take_length, hn]
  have hreads := h.reads.getPos s.charset s.b.totalSize
  -- the lines that are added
  obtain ⟨s₁, hs₁⟩ : ∃ s₁, s₁ = (s.withPages (ebGetPosCached s.b.toPages s.charset s.b.totalSize).1).addLines (line + 1 - n) :=
    ⟨_, rfl⟩
  have hsafe : s₁.Safe := hs₁ ▸ (h.withPages hreads).addLines _
  have hbytes : s₁.b.bytes = text := by
    rw [hs₁, (h.withPages hreads).bytes_addLines, htext]
    exact congrArg (· ++ _) hreads.bytes
  rw [← hbytes] at hcount ⊢
  -- the line itself
  have hne : s₁.b.bytes ≠ [] := fun hnil => by simp [hnil] at hcount
  obtain ⟨t, hgoto, ht⟩ := hsafe.gotoPos stack (Nat.le_of_lt hcount) hne
  have hdo : s.ttyGotoxy stack x y = ShellState.gotoX stack x (s₁.withPages t) (lineStart s₁.b.bytes line : Nat) := by
    rw [ttyGotoxy]
    dsimp only
    rw [hpos, ← hline, ← hs₁, hgoto]
  obtain ⟨a, m, b, hat⟩ := exists_lineAt (Nat.le_of_lt hcount)
  obtain ⟨l, b, rfl⟩ : ∃ l b', b = l :: b' := by
    cases b with
    | nil => exact absurd hat.count (by simp; omega)
    | cons l b => exact ⟨l, b, rfl⟩
  have hcut : s₁.b.bytes = ended newline a ++ m ++ newline :: (l ++ begun newline b) := hat.text_eq
  obtain ⟨g1, g2⟩ := (hsafe.withPages ht).gotoX_spec stack hat.line (ht.bytes.trans hcut) x
  rw [hdo, hat.start, hat.length, g1, g2]
  refine ⟨?_, rfl, hcount⟩
  rw [← List.length_append, hcut, insertAt_append]

/-! ## The result -/

/-- The cursor is at the column of the line on the screen, and only newlines at the end of the text and blanks at the end of that
line were added. -/
def Addressed (s s' : ShellState) (x y : Nat) : Prop :=
  ∃ lines blanks o : Nat,
    let line := s.b.bytes.count newline - ttyYsize + y
    let text := s.b.bytes ++ List.replicate lines newline
    s'.b.bytes = insertAt text (lineStart text line + lineLength text line) (List.replicate blanks 0x20) ∧
      s'.curOffset = o ∧ o ≤ s'.b.bytes.length ∧ posOf s'.b.bytes o = (line, x)

/-- `tty_gotoxy` goes to the position exactly when the line has as many characters as the column says. -/
theorem addressed_iff {s : ShellState} (h : s.Safe) (stack : Nat → List Byte) (x y : Nat) :
    Addressed s (s.ttyGotoxy stack x y) x y ↔ x ≤ lineLength s.b.bytes (s.b.bytes.count newline - ttyYsize + y) := by
  obtain ⟨hbytes, hcursor, hcount⟩ := h.ttyGotoxy_spec stack x y
  obtain ⟨line, hline⟩ : ∃ line, line = s.b.bytes.count newline - ttyYsize + y := ⟨_, rfl⟩
  obtain ⟨n, hn⟩ : ∃ n, n = line + 1 - s.b.bytes.count newline := ⟨_, rfl⟩
  rw [← hline, ← hn, lineLength_append_newlines] at hbytes hcursor
  rw [← hline, ← hn] at hcount
  rw [Addressed, ← hline]
  have hend := line_le _ (Nat.le_of_lt hcount)
  rw [lineLength_append_newlines] at hend
  have hpos : posOf (s.ttyGotoxy stack x y).b.bytes (lineStart (s.b.bytes ++ List.replicate n newline) line +
      min x (lineLength s.b.bytes line)) = (line, min x (lineLength s.b.bytes line)) := by
    rw [hbytes, posOf_insertAt hend (by omega)]
    exact posOf_column (Nat.le_of_lt hcount) (by rw [lineLength_append_newlines]; exact Nat.min_le_right _ _)
  constructor
  · rintro ⟨lines, blanks, o, -, ho, -, hat⟩
    rw [hcursor] at ho
    rw [← Int.ofNat.inj ho, hpos] at hat
    have := congrArg Prod.snd hat
    dsimp only at this
    omega
  · intro hx
    refine ⟨n, x - lineLength s.b.bytes line, _, ?_, hcursor, ?_, ?_⟩
    · rw [lineLength_append_newlines]
      exact hbytes
    · rw [hbytes, length_insertAt]
      omega
    · rw [hpos, Nat.min_eq_left hx]

/-- A shell that was just opened, column 0 and line 9. -/
theorem addressed_newShell :
    Addressed newShell.ttyInit (newShell.ttyInit.ttyGotoxy (fun _ => []) 0 9) 0 9 ↔
      0 ≤ lineLength newShell.ttyInit.b.bytes (newShell.ttyInit.b.bytes.count newline - ttyYsize + 9) :=
  addressed_iff newShell_fresh.safe (fun _ => []) 0 9

/-- In an empty buffer three blanks are inserted, and the cursor stays in front of them. -/
theorem not_addressed :
    ¬ ∀ s : ShellState, s.Safe → ∀ stack x y, y < ttyYsize → Addressed s (s.ttyGotoxy stack x y) x y := by
  intro h
  obtain ⟨lines, blanks, o, -, ho, -, hat⟩ := h newShell.ttyInit newShell_fresh.safe (fun _ => []) 3 0 (by decide)
  have hstay : (newShell.ttyInit.ttyGotoxy (fun _ => []) 3 0).curOffset = 0 := by decide +kernel
  rw [hstay] at ho
  obtain rfl : o = 0 := (Int.natCast_eq_zero.mp ho.symm)
  exact absurd (congrArg Prod.snd hat) (by simp [posOf])

end ShellState

end Hoe
