import Hoe.CIndent
import Hoe.Lemmas.Cells
import Hoe.Lemmas.Rectangles
import Hoe.Theorems.Colorize

/-!
# Helpers for the theorems about `do_c_indent`

How the indentation of a line is measured and where lines begin, and what `insert_spaces` does to the text.
-/

namespace Hoe

open Splice

/-- A line of the text. -/
def CWindow.line (w : CWindow) (l : Nat) : List Nat := w.reader.line l

/-! ## Columns -/

/-- The indentation is that of the line alone: the newline behind it stops. -/
theorem findIndent1_newline (tabSize : Nat) (cells : List Nat) {nl : Nat} (hnl : charMask nl = newline) (rest : List Nat) (pos : Nat) :
    findIndent1 tabSize (cells ++ nl :: rest) pos = findIndent1 tabSize cells pos := by
  induction cells generalizing pos with
  | nil => rw [List.nil_append, findIndent1, findIndent1, hnl, if_neg (by decide), if_neg (by decide)]
  | cons c cells ih =>
    rw [List.cons_append, findIndent1, findIndent1]
    split_ifs
    · exact ih _
    · exact ih _
    · rfl

/-- The cells in front of which the indentation ends: none, or first one that is no blank. -/
theorem findIndent1_stop (tabSize : Nat) {cells : List Nat}
    (h : ∀ c ∈ cells.head?, charMask c ≠ ' '.toNat ∧ charMask c ≠ '\t'.toNat) (pos : Nat) :
    findIndent1 tabSize cells pos = pos := by
  cases cells with
  | nil => rfl
  | cons c cells =>
    obtain ⟨hspace, htab⟩ := h c rfl
    rw [findIndent1, if_neg htab, if_neg hspace]

theorem findIndent1_replicate_space (tabSize n : Nat) (cells : List Nat) (pos : Nat) :
    findIndent1 tabSize (List.replicate n ' '.toNat ++ cells) pos = findIndent1 tabSize cells (pos + n) := by
  induction n generalizing pos with
  | zero => rfl
  | succ n ih =>
    have hspace : charMask ' '.toNat = ' '.toNat := charMask_of_lt (by decide)
    rw [List.replicate_succ, List.cons_append, findIndent1, hspace, if_neg (by decide), if_pos rfl, ih, Nat.add_right_comm,
      Nat.add_assoc]

/-- From a column where a tab begins, every tab is a whole one. -/
theorem findIndent1_replicate_tab (tabSize n : Nat) (cells : List Nat) (k : Nat) :
    findIndent1 tabSize (List.replicate n '\t'.toNat ++ cells) (tabSize * k) =
      findIndent1 tabSize cells (tabSize * (k + n)) := by
  induction n generalizing k with
  | zero => rfl
  | succ n ih =>
    have htab : charMask '\t'.toNat = '\t'.toNat := charMask_of_lt (by decide)
    have hnext : tabSize * k + (tabSize - tabSize * k % tabSize) = tabSize * (k + 1) := by
      rw [Nat.mul_mod_right, Nat.sub_zero, Nat.mul_succ]
    rw [List.replicate_succ, List.cons_append, findIndent1, htab, if_pos rfl, hnext, ih, Nat.add_right_comm, Nat.add_assoc]

/-! ## The lines above -/

/-- The beginning of the line of an offset. -/
theorem Reader.gotoBol_bytes {r : Reader} (hu : r.charset ≠ .utf8) {o : Nat} (ho : o ≤ r.text.length) :
    r.gotoBol o = (bolOf r.text o : Nat) := by
  have hturns : o < r.turns := Nat.lt_succ_of_le ho
  rw [gotoBol]
  revert hturns
  generalize r.turns = n
  intro hturns
  induction o generalizing n with
  | zero =>
    have hprev : r.prevc (0 : Nat) = (newline, 0) := if_pos le_rfl
    refine scan_stop ?_ n
    exact if_pos (congrArg Prod.fst hprev)
  | succ o ih =>
    obtain ⟨n, rfl⟩ := Nat.exists_eq_add_of_le' (Nat.one_le_of_lt hturns)
    have hprev : r.prevc (o + 1 : Nat) = (r.text.getD o 0, ((o + 1 : Nat) : Int) - 1) := prevc_byte hu (Nat.succ_pos o)
    by_cases hc : r.text.getD o 0 = newline
    · rw [bolOf, if_pos hc]
      refine scan_stop ?_ (n + 1)
      rw [hprev, if_pos hc]
    · rw [bolOf, if_neg hc, ← ih (by omega) n (by omega)]
      refine scan_go ?_ n
      rw [hprev, if_neg hc]
      simp

/-- From the beginning of a line to that of the line above. -/
theorem Reader.prevLine_bytes {r : Reader} (hu : r.charset ≠ .utf8) {l : Nat} (hl : l < r.text.count newline) :
    r.gotoBol (r.prevc (skipLines (l + 1) r.text : Nat)).2 = (skipLines l r.text : Nat) := by
  obtain ⟨hnext, hnl, hlt⟩ := line_next hl
  obtain ⟨o, ho⟩ : ∃ o, o = lineStart r.text l + lineLength r.text l := ⟨_, rfl⟩
  rw [← ho] at hnext hnl hlt
  have hstart : skipLines (l + 1) r.text = o + 1 := hnext
  have hprev := prevc_byte hu (Nat.succ_pos o)
  have hback : (r.prevc (skipLines (l + 1) r.text : Nat)).2 = (o : Int) := by
    rw [hstart, hprev]
    simp
  have hcount : (r.text.take o).count newline = l := by
    have hpos : (r.text.take (o + 1)).count newline = l + 1 := by
      rw [← hstart]
      exact congrArg Prod.fst (posOf_lineStart (Nat.succ_le_of_lt hl))
    rw [List.take_succ_eq_append_getElem hlt, List.count_append, ← getD_of_lt _ hlt, hnl, List.count_singleton_self] at hpos
    omega
  rw [hback, gotoBol_bytes hu hlt.le, bolOf_eq_skipLines _ hlt.le, hcount]

/-! ## Changes of the text -/

namespace CWindow

/-- What a change leaves of a window. -/
structure Alike (w w' : CWindow) : Prop where
  charset : w'.charset = w.charset
  tabSize : w'.tabSize = w.tabSize
  indentTabsMode : w'.indentTabsMode = w.indentTabsMode
  indentSize : w'.indentSize = w.indentSize
  margin : w'.margin = w.margin

theorem Alike.refl (w : CWindow) : w.Alike w := ⟨rfl, rfl, rfl, rfl, rfl⟩

theorem Alike.trans {w w' w'' : CWindow} (h : w.Alike w') (h' : w'.Alike w'') : w.Alike w'' :=
  ⟨h'.charset.trans h.charset, h'.tabSize.trans h.tabSize, h'.indentTabsMode.trans h.indentTabsMode,
    h'.indentSize.trans h.indentSize, h'.margin.trans h.margin⟩

variable {w : CWindow}

/-- A window that an insertion leads to from another: it has the text, and the property that insertions keep. -/
structure Leads (P : CWindow → Prop) (w : CWindow) (text : List Byte) (w' : CWindow) : Prop where
  holds : P w'
  text : w'.buffer.bytes = text
  alike : w.Alike w'

theorem Leads.trans {P : CWindow → Prop} {w' w'' : CWindow} {text text' : List Byte} (h : w.Leads P text w')
    (h' : w'.Leads P text' w'') : w.Leads P text' w'' := ⟨h'.holds, h'.text, h.alike.trans h'.alike⟩

/-- Every insertion of bytes between two parts of the text keeps the property. -/
def KeptByInserts (P : CWindow → Prop) : Prop :=
  ∀ (w : CWindow) (front back buf : List Byte), P w → w.buffer.bytes = front ++ back → (∀ c ∈ buf, c < 256) →
    ∃ w', w.ebInsert front.length buf = some w' ∧ w.Leads P (front ++ buf ++ back) w'

/-- A call of `eb_insert` keeps a buffer well formed, and leaves the stack alone. -/
theorem keptByInserts_stack (stack : List Byte) :
    KeptByInserts fun w => w.buffer.WellFormed ∧ w.stack = stack := by
  intro w front back buf hw htext _
  have hlen : front.length ≤ w.buffer.bytes.length := by
    rw [htext, List.length_append]
    exact Nat.le_add_right _ _
  obtain ⟨ed, hrun, hed⟩ := @Editor.ebInsert_spec w.toEditor hw.1 front.length hlen buf
  have hstack : ed.stack = w.stack := by rw [hed.rest]
  have hcharset : ed.charset = w.charset := by rw [hed.rest]
  have htab : ed.tabSize = w.tabSize := by rw [hed.rest]
  have hmode : ed.indentTabsMode = w.indentTabsMode := by rw [hed.rest]
  refine ⟨w.edited ed, congrArg (Option.map w.edited) hrun, ⟨hed.wf, hstack.trans hw.2⟩, ?_, hcharset, htab, hmode, rfl, rfl⟩
  have hbytes : (w.edited ed).buffer.bytes = insertAt w.buffer.bytes front.length buf := hed.text
  rw [hbytes, htext, insertAt_append]

/-- The tabs of `insert_spaces`, and what is left to insert. -/
theorem KeptByInserts.insertTabs {P : CWindow → Prop} (hP : KeptByInserts P) {n : Nat} {w : CWindow} (hw : P w)
    (htab : 0 < w.tabSize) {front back : List Byte} (htext : w.buffer.bytes = front ++ back) {i : Int} (hn : i.toNat < n) :
    ∃ w', ∃ i' : Int, insertTabs n w front.length i =
        some (w', ((front ++ List.replicate (i.toNat / w.tabSize) '\t'.toNat).length : Int), i') ∧
      i'.toNat = i.toNat % w.tabSize ∧
      w.Leads P (front ++ List.replicate (i.toNat / w.tabSize) '\t'.toNat ++ back) w' := by
  induction n generalizing w front i with
  | zero => exact absurd hn (Nat.not_lt_zero _)
  | succ n ih =>
    by_cases hi : i < w.tabSize
    · have hlt : i.toNat < w.tabSize := by omega
      refine ⟨w, i, ?_, (Nat.mod_eq_of_lt hlt).symm, ?_⟩
      · rw [Hoe.insertTabs, if_pos hi, Nat.div_eq_of_lt hlt, List.replicate_zero, List.append_nil]
      · rw [Nat.div_eq_of_lt hlt, List.replicate_zero, List.append_nil]
        exact ⟨hw, htext, Alike.refl w⟩
    · have hge : w.tabSize ≤ i.toNat := by omega
      have hsub : (i - w.tabSize).toNat = i.toNat - w.tabSize := by omega
      obtain ⟨w₁, hrun, hleads⟩ := hP w front back ['\t'.toNat] hw htext (by decide)
      have htab₁ := hleads.alike.tabSize
      obtain ⟨w₂, i₂, hrun₂, hi₂, hleads₂⟩ := ih hleads.holds (by rw [htab₁]; exact htab) hleads.text
        (show (i - w.tabSize).toNat < n by omega)
      have hdiv : i.toNat / w.tabSize = (i.toNat - w.tabSize) / w.tabSize + 1 := Nat.div_eq_sub_div htab hge
      have hoffset : ((front ++ ['\t'.toNat]).length : Int) = (front.length : Int) + 1 := by simp
      rw [htab₁, hsub] at hi₂ hrun₂ hleads₂
      rw [hoffset] at hrun₂
      refine ⟨w₂, i₂, ?_, ?_, ?_⟩
      · rw [Hoe.insertTabs, if_neg hi, hrun, Option.bind_eq_bind, Option.bind_some, htab₁, hrun₂, hdiv, List.replicate_succ]
        simp
      · rw [hi₂, ← Nat.mod_eq_sub_mod hge]
      · have h := hleads.trans hleads₂
        rwa [List.append_assoc front, List.singleton_append, ← List.replicate_succ, ← hdiv] at h

/-- Its spaces. -/
theorem KeptByInserts.insertBlanks {P : CWindow → Prop} (hP : KeptByInserts P) {n : Nat} {w : CWindow} (hw : P w)
    {front back : List Byte} (htext : w.buffer.bytes = front ++ back) {i : Int} (hn : i.toNat < n) :
    ∃ w', insertBlanks n w front.length i = some (w', ((front ++ List.replicate i.toNat ' '.toNat).length : Int)) ∧
      w.Leads P (front ++ List.replicate i.toNat ' '.toNat ++ back) w' := by
  induction n generalizing w front i with
  | zero => exact absurd hn (Nat.not_lt_zero _)
  | succ n ih =>
    by_cases hi : i ≤ 0
    · have hzero : i.toNat = 0 := by omega
      refine ⟨w, ?_, ?_⟩
      · rw [Hoe.insertBlanks, if_pos hi, hzero, List.replicate_zero, List.append_nil]
      · rw [hzero, List.replicate_zero, List.append_nil]
        exact ⟨hw, htext, Alike.refl w⟩
    · obtain ⟨size, hsize⟩ : ∃ size, size = min i.toNat spacesBufSize := ⟨_, rfl⟩
      have hpos : 0 < size ∧ size ≤ i.toNat := by
        rw [hsize, spacesBufSize]
        omega
      have hsub : (i - size).toNat = i.toNat - size := by omega
      obtain ⟨w₁, hrun, hleads⟩ := hP w front back (List.replicate size ' '.toNat) hw htext (by
        intro c hc
        rw [List.eq_of_mem_replicate hc]
        decide)
      obtain ⟨w₂, hrun₂, hleads₂⟩ := ih hleads.holds hleads.text (show (i - size).toNat < n by omega)
      have hoffset : ((front ++ List.replicate size ' '.toNat).length : Int) = (front.length : Int) + size := by simp
      have hall : front ++ List.replicate size ' '.toNat ++ List.replicate (i.toNat - size) ' '.toNat =
          front ++ List.replicate i.toNat ' '.toNat := by
        rw [List.append_assoc, ← List.replicate_add, Nat.add_sub_cancel' hpos.2]
      rw [hsub, hall] at hrun₂ hleads₂
      rw [hoffset] at hrun₂
      refine ⟨w₂, ?_, hleads.trans hleads₂⟩
      rw [Hoe.insertBlanks, if_neg hi]
      dsimp only
      rw [← hsize, hrun, Option.bind_eq_bind, Option.bind_some, hrun₂]

/-- What `insert_spaces` inserts. -/
def indentBlanks (tabSize : Nat) (tabs : Bool) (pos : Int) : List Byte :=
  if tabs then List.replicate (pos.toNat / tabSize) '\t'.toNat ++ List.replicate (pos.toNat % tabSize) ' '.toNat
  else List.replicate pos.toNat ' '.toNat

theorem indentBlanks_blank (tabSize : Nat) (tabs : Bool) (pos : Int) : ∀ c ∈ indentBlanks tabSize tabs pos, isSpaceOrTab c = true := by
  have hspace : ∀ k, ∀ c ∈ List.replicate k ' '.toNat, isSpaceOrTab c = true := by
    intro k c hc
    rw [List.eq_of_mem_replicate hc]
    decide
  intro c hc
  rw [indentBlanks] at hc
  split_ifs at hc
  · rcases List.mem_append.1 hc with hc | hc
    · rw [List.eq_of_mem_replicate hc]
      decide
    · exact hspace _ c hc
  · exact hspace _ c hc

/-- `insert_spaces` puts the blanks behind the offset, which it moves behind them. -/
theorem KeptByInserts.insertSpaces {P : CWindow → Prop} (hP : KeptByInserts P) (hw : P w) (htab : 0 < w.tabSize)
    {front back : List Byte} (htext : w.buffer.bytes = front ++ back) (pos : Int) :
    ∃ w', w.insertSpaces front.length pos =
        some (w', ((front ++ indentBlanks w.tabSize w.indentTabsMode pos).length : Int)) ∧
      w.Leads P (front ++ indentBlanks w.tabSize w.indentTabsMode pos ++ back) w' := by
  rw [CWindow.insertSpaces, indentBlanks]
  by_cases hmode : w.indentTabsMode = true
  · obtain ⟨w₁, i, hrun, hi, hleads⟩ := hP.insertTabs hw htab htext (Nat.lt_succ_self pos.toNat)
    obtain ⟨w₂, hrun₂, hleads₂⟩ := hP.insertBlanks hleads.holds hleads.text (Nat.lt_succ_self i.toNat)
    rw [hi] at hrun₂ hleads₂
    refine ⟨w₂, ?_, ?_⟩
    · rw [if_pos hmode, if_pos hmode, hrun, Option.bind_eq_bind, Option.bind_some]
      dsimp only
      rw [hi, hrun₂, List.append_assoc]
    · rw [if_pos hmode, ← List.append_assoc]
      exact hleads.trans hleads₂
  · obtain ⟨w₂, hrun₂, hleads₂⟩ := hP.insertBlanks hw htext (Nat.lt_succ_self pos.toNat)
    refine ⟨w₂, ?_, ?_⟩
    · rw [if_neg hmode, if_neg hmode, Option.bind_eq_bind, Option.bind_some]
      exact hrun₂
    · rw [if_neg hmode]
      exact hleads₂

end CWindow

/-- The blanks of `insert_spaces` reach the column they were asked for, in front of anything but a blank. -/
theorem findIndent1_indentBlanks {tabSize : Nat} (tabs : Bool) (pos : Int) {cells : List Nat}
    (h : ∀ c ∈ cells.head?, charMask c ≠ ' '.toNat ∧ charMask c ≠ '\t'.toNat) :
    findIndent1 tabSize (CWindow.indentBlanks tabSize tabs pos ++ cells) 0 = pos.toNat := by
  rw [CWindow.indentBlanks]
  split_ifs
  · have hzero := findIndent1_replicate_tab tabSize (pos.toNat / tabSize)
      (List.replicate (pos.toNat % tabSize) ' '.toNat ++ cells) 0
    rw [Nat.mul_zero, Nat.zero_add] at hzero
    rw [List.append_assoc, hzero, findIndent1_replicate_space, findIndent1_stop tabSize h, Nat.div_add_mod]
  · rw [findIndent1_replicate_space, findIndent1_stop tabSize h, Nat.zero_add]

/-! ## A window that was just opened -/

/-- A window in the C mode on a text. -/
def cWindow (text : List Byte) (offset : Int) (margin : Margin) : CWindow :=
  { Editor.new (ebInsert (EditBuffer.new true) 0 text) .latin1 offset with
    indentSize := 4
    colorize := setColorizeFunc fun _ => 0
    margin := margin }

theorem cWindow_bytes (text : List Byte) (offset : Int) (margin : Margin) :
    (cWindow text offset margin).buffer.bytes = text := by
  have hstands := ebInsert_stands (new_stands true) (Nat.zero_le _) text
  have htext : (cWindow text offset margin).buffer.bytes = insertAt [] 0 text := hstands.text
  rw [htext, insertAt, List.take_nil, List.drop_nil, List.nil_append, List.append_nil]

end Hoe
