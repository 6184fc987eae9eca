import Hoe.Shell
import Hoe.Lemmas.CountsKept
import Hoe.Lemmas.Notify
import Hoe.Theorems.Bol

/-!
# What the emulator keeps

Every edit the emulator makes is in range, and the callbacks of an edit in range keep the cursor in the buffer and the buffer of
colors as long as the buffer. What the emulator reads keeps the text. So each of its loops only has to end at an offset in the
buffer.
-/

namespace Hoe

open Splice

/-! ## Counting the lines keeps the text -/

/-- Counting changes no byte of a page. -/
theorem countPos_sameBytes (charset : Charset) (p : Page) : p.SameBytes (countPos charset p) := by
  unfold countPos
  split
  · exact .refl p
  · exact ⟨rfl, rfl, rfl, rfl⟩

/-- The loop of `eb_get_pos` does no more to the pages than to count. -/
theorem sameBytes_getPosLoop (charset : Charset) (ps : List Page) (offset line col : Nat) :
    List.Forall₂ Page.SameBytes ps (getPosLoop charset ps offset line col).1 := by
  induction ps generalizing offset line col with
  | nil => exact .nil
  | cons p ps ih =>
    rw [getPosLoop]
    split
    · exact List.forall₂_same.mpr fun q _ => .refl q
    · exact .cons (countPos_sameBytes charset p) (ih _ _ _)

/-- The loop of `eb_goto_pos` does no more to them either. -/
theorem sameBytes_gotoPosLoop (charset : Charset) (line1 col1 : Nat) (ps : List Page) (offset line col : Nat) :
    List.Forall₂ Page.SameBytes ps (gotoPosLoop charset line1 col1 ps offset line col).1 := by
  induction ps generalizing offset line col with
  | nil => exact .nil
  | cons p ps ih =>
    rw [gotoPosLoop]
    simp only
    split
    · exact .cons (countPos_sameBytes charset p) (List.forall₂_same.mpr fun q _ => .refl q)
    · exact .cons (countPos_sameBytes charset p) (ih _ _ _)

/-- The lines of a block end in the block. -/
theorem skipLines_le {n : Nat} {a : List Nat} (h : n ≤ a.count newline) : skipLines n a ≤ a.length := by
  induction a generalizing n with
  | nil =>
    rw [List.count_nil] at h
    rw [Nat.le_zero.mp h]
    exact Nat.le_refl 0
  | cons c a ih =>
    cases n with
    | zero => exact Nat.zero_le _
    | succ n =>
      rw [skipLines_cons, List.length_cons]
      by_cases hc : c = newline
      · rw [hc, List.count_cons_self] at h
        have := ih (Nat.le_of_succ_le_succ h)
        rw [if_pos hc]
        omega
      · rw [List.count_cons_of_ne hc] at h
        have := ih h
        rw [if_neg hc]
        omega

/-- For column 0 the loop of `eb_goto_pos` over the pages ends in the text. -/
theorem gotoPosLoop_le (charset : Charset) {ps : List Page} (hok : ∀ p ∈ ps, p.Ok)
    (h : ∀ p ∈ ps, p.validPos = true → p.nbLines = p.data.count newline) (line1 offset line col : Nat) (hle : line ≤ line1) :
    ∀ found, (gotoPosLoop charset line1 0 ps offset line col).2 = some found →
      found.1 ≤ offset + (tableBytes ps).length ∧ found.2 = 0 := by
  induction ps generalizing offset line col with
  | nil => exact fun found hnone => nomatch hnone
  | cons p ps ih =>
    intro found hfound
    obtain ⟨hp, hps⟩ := List.forall_mem_cons.mp hok
    obtain ⟨hc, hcs⟩ := List.forall_mem_cons.mp h
    obtain ⟨c1, c2, c3⟩ := countPos_line charset hc
    rw [gotoPosLoop] at hfound
    simp only [c1, c2, c3, Nat.zero_le, and_true, Nat.zero_sub] at hfound
    rw [tableBytes_cons, List.length_append]
    by_cases hstop : line1 ≤ line + p.data.count newline
    · rw [if_pos (by omega)] at hfound
      obtain rfl := Option.some.inj hfound
      have hskip := skipLines_le (show line1 - line ≤ p.data.count newline by omega)
      exact ⟨by omega, rfl⟩
    · rw [if_neg (by omega)] at hfound
      obtain ⟨i1, i2⟩ := ih hps hcs (offset + p.size) (line + p.data.count newline) (col + (countPos charset p).col)
        (by omega) found hfound
      have := hp.data
      exact ⟨by omega, i2⟩

/-- Pages that hold the text and tell the truth about its lines. -/
structure Pages.Reads (t : Pages) (text : List Byte) : Prop where
  ok : t.Ok
  bytes : t.bytes = text
  lines : t.LinesCounted

/-- The size of the pages is the length of the text that they read. -/
theorem Pages.Reads.total {t : Pages} {text : List Byte} (h : t.Reads text) : t.totalSize = text.length := by
  rw [← h.ok.length_bytes, h.bytes]

/-- Reading moves the cache alone. -/
theorem Pages.Reads.same {t t' : Pages} {text : List Byte} (h : t.Reads text) (ht' : t'.Ok) (hs : t.Same t') : t'.Reads text := by
  refine ⟨ht', hs.bytes.trans h.bytes, fun p hp => h.lines p ?_⟩
  rwa [← hs.table]

/-- With counts made, the pages read the same text. -/
theorem Pages.Reads.getPos {t : Pages} {text : List Byte} (h : t.Reads text) (charset : Charset) (offset : Nat) :
    (ebGetPosCached t charset offset).1.Reads text := by
  obtain ⟨h1, h2⟩ := sameBytes_pages h.ok (sameBytes_getPosLoop charset t.pageTable offset 0 0)
  exact ⟨h1, h2.trans h.bytes, (countedFrom_getPosLoop charset _ offset 0 0).lines h.lines⟩

/-! ## Reading in a charset of single bytes -/

section Single

variable {t : Pages} {text : List Byte} {charset : Charset} {o : Nat}

/-- `eb_nextc` goes forward by a byte, if there is one. At the end it reads a newline. -/
theorem Pages.Reads.nextc (h : t.Reads text) (hu : charset ≠ .utf8) (stack : List Byte) (ho : o ≤ text.length) :
    ∃ t' c o', ebNextc t charset stack o = (t', c, ((o' : Nat) : Int)) ∧ t'.Reads text ∧ o' ≤ text.length ∧
      (o < text.length → o' = o + 1) ∧ (o = text.length → c = newline) := by
  obtain ⟨e1, e2, e3⟩ := ebNextc_eq h.ok (r := ⟨text, charset, stack⟩) h.bytes.symm (Int.natCast_nonneg o)
  simp only at e1 e2 e3
  rcases Nat.lt_or_eq_of_le ho with hlt | rfl
  · have hread : Reader.nextc ⟨text, charset, stack⟩ o = (text.getD o 0, ((o + 1 : Nat) : Int)) := by
      rw [Reader.nextc_byte (r := ⟨text, charset, stack⟩) hu hlt, Nat.cast_add, Nat.cast_one]
    exact ⟨_, _, o + 1, Prod.ext rfl (e1.trans hread), h.same e2 e3, hlt, fun _ => rfl, fun heq => absurd heq (Nat.ne_of_lt hlt)⟩
  · have hread : Reader.nextc ⟨text, charset, stack⟩ text.length = (newline, (text.length : Int)) :=
      Reader.nextc_end (r := ⟨text, charset, stack⟩) (Int.le_refl _)
    exact ⟨_, _, text.length, Prod.ext rfl (e1.trans hread), h.same e2 e3, Nat.le_refl _,
      fun hlt => absurd hlt (Nat.lt_irrefl _), fun _ => rfl⟩

/-- `eb_prevc` goes back by a byte, if there is one. At the beginning it reads a newline. -/
theorem Pages.Reads.prevc (h : t.Reads text) (hu : charset ≠ .utf8) (stack : List Byte) (ho : o ≤ text.length) :
    ∃ t' c, ebPrevc t charset stack o = (t', c, ((o - 1 : Nat) : Int)) ∧ t'.Reads text ∧ (o = 0 → c = newline) := by
  have hle : (o : Int) ≤ t.totalSize := by
    rw [h.total]
    exact Int.ofNat_le.mpr ho
  obtain ⟨e1, e2, e3⟩ := ebPrevc_eq h.ok (r := ⟨text, charset, stack⟩) h.bytes.symm hle
  simp only at e1 e2 e3
  rcases Nat.eq_zero_or_pos o with rfl | hpos
  · have hread : Reader.prevc ⟨text, charset, stack⟩ (0 : Nat) = (newline, ((0 - 1 : Nat) : Int)) := if_pos (Int.le_refl 0)
    exact ⟨_, _, Prod.ext rfl (e1.trans hread), h.same e2 e3, fun _ => rfl⟩
  · obtain ⟨c, hread⟩ : ∃ c, Reader.prevc ⟨text, charset, stack⟩ o = (c, ((o - 1 : Nat) : Int)) := by
      refine ⟨Reader.byte ⟨text, charset, stack⟩ ((o : Int) - 1), ?_⟩
      rw [Reader.prevc, if_neg (by omega), if_neg hu, Nat.cast_sub hpos, Nat.cast_one]
    exact ⟨_, _, Prod.ext rfl (e1.trans hread), h.same e2 e3, fun hz => absurd hz (Nat.pos_iff_ne_zero.mp hpos)⟩

/-- The loop of `eb_goto_bol` ends in front of where it starts. -/
theorem Pages.Reads.gotoBol (h : t.Reads text) (hu : charset ≠ .utf8) (stack : Nat → List Byte) {n : Nat} (ho : o ≤ text.length)
    (hn : o < n) : ∃ t' o', gotoBolLoop charset stack n t o = some (t', ((o' : Nat) : Int)) ∧ t'.Reads text ∧ o' ≤ text.length := by
  induction n generalizing t o with
  | zero => omega
  | succ n ih =>
    obtain ⟨t', c, e1, e2, e3⟩ := h.prevc hu (stack n) ho
    rw [gotoBolLoop, e1]
    by_cases hc : c = newline
    · exact ⟨t', o, if_pos hc, e2, ho⟩
    · have hpos : o ≠ 0 := fun hz => hc (e3 hz)
      simp only [if_neg hc]
      exact ih e2 (by omega) (by omega)

/-- The loop that looks for the end of the line goes forward. -/
theorem Pages.Reads.eol (h : t.Reads text) (hu : charset ≠ .utf8) (stack : Nat → List Byte) {n : Nat} (ho : o ≤ text.length)
    (hn : text.length - o < n) : ∃ t' o', ShellState.eolLoop charset stack n t o = some (t', ((o' : Nat) : Int)) ∧
      t'.Reads text ∧ o ≤ o' ∧ o' ≤ text.length := by
  induction n generalizing t o with
  | zero => omega
  | succ n ih =>
    obtain ⟨t', c, o', e1, e2, e3, e4, e5⟩ := h.nextc hu (stack n) ho
    rw [ShellState.eolLoop, e1]
    by_cases hc : c = newline
    · exact ⟨t', o, if_pos hc, e2, Nat.le_refl o, ho⟩
    · have hlt : o < text.length := lt_of_le_of_ne ho fun heq => hc (e5 heq)
      obtain rfl := e4 hlt
      obtain ⟨t'', o'', i1, i2, i3, i4⟩ := ih e2 e3 (by omega)
      exact ⟨t'', o'', (if_neg hc).trans i1, i2, by omega, i4⟩

/-- The loop over a number of characters goes forward. -/
theorem Pages.Reads.gotoCol (h : t.Reads text) (hu : charset ≠ .utf8) (stack : Nat → List Byte) {n : Nat} (ho : o ≤ text.length) :
    ∃ t' o', gotoColLoop charset stack n t o = (t', ((o' : Nat) : Int)) ∧ t'.Reads text ∧ o ≤ o' ∧ o' ≤ text.length := by
  induction n generalizing t o with
  | zero => exact ⟨t, o, rfl, h, Nat.le_refl o, ho⟩
  | succ n ih =>
    obtain ⟨t', c, o', e1, e2, e3, e4, e5⟩ := h.nextc hu (stack n) ho
    rw [gotoColLoop, e1]
    by_cases hc : c = newline
    · exact ⟨t', o, if_pos hc, e2, Nat.le_refl o, ho⟩
    · have hlt : o < text.length := lt_of_le_of_ne ho fun heq => hc (e5 heq)
      obtain rfl := e4 hlt
      obtain ⟨t'', o'', i1, i2, i3, i4⟩ := ih e2 e3
      exact ⟨t'', o'', (if_neg hc).trans i1, i2, by omega, i4⟩

/-- `eb_goto_pos` at column 0 ends in the text, for any line. -/
theorem Pages.Reads.gotoPos (h : t.Reads text) (charset : Charset) (stack : Nat → List Byte) (line : Nat) :
    ∃ t' o', ebGotoPosCached t charset stack line 0 = (t', ((o' : Nat) : Int)) ∧ t'.Reads text ∧ o' ≤ text.length := by
  obtain ⟨h1, h2⟩ := sameBytes_pages h.ok (sameBytes_gotoPosLoop charset line 0 t.pageTable 0 0 0)
  have hreads : Pages.Reads { t with pageTable := (gotoPosLoop charset line 0 t.pageTable 0 0 0).1 } text :=
    ⟨h1, h2.trans h.bytes, (countedFrom_gotoPosLoop charset line 0 t.pageTable 0 0 0).lines h.lines⟩
  have hfound := gotoPosLoop_le charset h.ok.pages h.lines line 0 0 0 (Nat.zero_le _)
  rw [← Pages.bytes_eq, h.bytes] at hfound
  cases hloop : (gotoPosLoop charset line 0 t.pageTable 0 0 0).2 with
  | none =>
    refine ⟨_, text.length, ?_, hreads, Nat.le_refl _⟩
    simp only [ebGotoPosCached, hloop, h.total]
  | some found =>
    obtain ⟨f1, f2⟩ := hfound found hloop
    refine ⟨_, found.1, ?_, hreads, by omega⟩
    simp only [ebGotoPosCached, hloop, f2, gotoColLoop]

end Single

/-- A charset of single bytes writes a byte for any character. -/
theorem unicodeToCharset_byte (c : Nat) {charset : Charset} (hu : charset ≠ .utf8) : ∃ x, unicodeToCharset c charset = [x] := by
  cases charset with
  | utf8 => exact absurd rfl hu
  | latin1 | ascii =>
    rw [unicodeToCharset, Charset.encode]
    split
    · exact ⟨c, rfl⟩
    · exact ⟨0x3f, rfl⟩

/-! ## The invariant -/

/-- The call stays inside the buffer. -/
def BufferCall.InRange (call : BufferCall) : Prop :=
  0 ≤ call.offset ∧ 0 ≤ call.size ∧
    match call.op with
    | .insert => call.offset ≤ call.total
    | _ => call.offset + call.size ≤ call.total

namespace ShellState

/-- A buffer in a charset of single bytes, with the cursor in it, a color for each byte, and no call out of range so far. -/
structure Safe (s : ShellState) : Prop where
  wf : s.b.WellFormed
  lines : s.b.toPages.LinesCounted
  single : s.charset ≠ .utf8
  cursor : 0 ≤ s.curOffset ∧ s.curOffset ≤ s.b.totalSize
  colors : ∀ t, s.bColor = some t → t.Ok ∧ t.totalSize = s.b.totalSize
  calls : ∀ call ∈ s.calls, call.InRange

variable {s : ShellState}

/-- The buffer of a shell reads its text. -/
theorem Safe.reads (h : s.Safe) : s.b.toPages.Reads s.b.bytes := by
  obtain ⟨d, hd⟩ := h.wf
  exact ⟨hd.ok, rfl, h.lines⟩

theorem Safe.total (h : s.Safe) : s.b.totalSize = s.b.bytes.length := h.reads.total

/-- The cursor is an offset in the text. -/
theorem Safe.offset (h : s.Safe) : ∃ o : Nat, s.curOffset = o ∧ o ≤ s.b.totalSize :=
  ⟨s.curOffset.toNat, (Int.toNat_of_nonneg h.cursor.1).symm, Int.toNat_le.mpr h.cursor.2⟩

/-- The cursor may be anywhere in the text. -/
theorem Safe.withCursor (h : s.Safe) {o : Nat} (ho : o ≤ s.b.totalSize) : Safe { s with curOffset := o } :=
  ⟨h.wf, h.lines, h.single, ⟨Int.natCast_nonneg o, Int.ofNat_le.mpr ho⟩, h.colors, h.calls⟩

/-- Reading keeps the invariant. -/
theorem Safe.withPages (h : s.Safe) {t : Pages} (ht : t.Reads s.b.bytes) : (s.withPages t).Safe := by
  obtain ⟨d, hd⟩ := h.wf
  have htotal : t.totalSize = s.b.totalSize := ht.total.trans h.total.symm
  refine ⟨⟨d, hd.toHeld.standsText ht.ok (ht.bytes.trans hd.text)⟩, ht.lines, h.single, ?_, fun t' hc => ?_, h.calls⟩
  · exact ⟨h.cursor.1, h.cursor.2.trans (Int.ofNat_le.mpr (Nat.le_of_eq htotal.symm))⟩
  · obtain ⟨c1, c2⟩ := h.colors t' hc
    exact ⟨c1, c2.trans htotal.symm⟩

/-- An edit in range keeps the invariant. -/
theorem Safe.perform (h : s.Safe) {call : BufferCall} {f : EditBuffer → EditBuffer} {e : Edit} (hf : f s.b = e.run s.b)
    (he : e.InRange s.b.totalSize) (hcall : call.InRange) : (s.perform call f).Safe := by
  obtain ⟨d, hd⟩ := h.wf
  have hst := Edit.run_stands hd he
  obtain ⟨ns, n1, n2, -⟩ := d.told_edit (e := e) (by rw [← hd.total]; exact he)
  have hns : (f s.b).notes.drop s.b.notes.length = ns := by rw [hf, hst.notes, n1, hd.notes, List.drop_left]
  rw [← hd.total, ← hst.total, ← hf] at n2
  refine ⟨⟨e.apply d, ?_⟩, ?_, h.single, ?_, fun t ht => ?_, fun c hc => ?_⟩
  · rw [← hf] at hst
    exact hst
  · have hl := (derived_edit s.b e).lines h.lines
    rw [← hf] at hl
    exact hl
  · have hc := n2.offset h.cursor
    rw [← hns] at hc
    exact hc
  · obtain ⟨t₀, ht₀, rfl⟩ := Option.map_eq_some_iff.mp ht
    obtain ⟨c1, c2⟩ := h.colors t₀ ht₀
    have hc := n2.colors (s.color % 256) c1 c2
    rw [← hns] at hc
    exact hc
  · rcases List.mem_append.mp hc with hc | hc
    · exact h.calls c hc
    · rwa [List.mem_singleton.mp hc]

/-! ## One edit -/

/-- An insertion: where the cursor goes, and how long the buffer gets. -/
theorem Safe.insert (h : s.Safe) {o : Nat} (ho : o ≤ s.b.totalSize) (buf : List Byte) :
    (s.insert o buf).Safe ∧ (s.insert o buf).b.totalSize = s.b.totalSize + buf.length ∧
      (s.insert o buf).curOffset = ebOffsetCallback s.curOffset ⟨.insert, o, buf.length⟩ := by
  obtain ⟨d, hd⟩ := h.wf
  have hst := ebInsert_stands hd (show o ≤ d.text.length by rw [← hd.total]; exact ho) buf
  have hnotes : (ebInsert s.b o buf).notes = s.b.notes ++ [⟨.insert, o, buf.length⟩] := by
    rw [hst.notes, hd.notes, Doc.insert]
    exact Doc.addlog_notes d .insert o buf.length
  refine ⟨h.perform (e := .insert o buf) rfl ho ⟨Int.natCast_nonneg o, Int.natCast_nonneg _, Int.ofNat_le.mpr ho⟩, ?_, ?_⟩
  · have htotal := hst.total
    rw [Doc.insert, length_insertAt, ← hd.total] at htotal
    exact htotal
  · change ((ebInsert s.b o buf).notes.drop s.b.notes.length).foldl ebOffsetCallback s.curOffset = _
    rw [hnotes, List.drop_left]
    rfl

/-- A write inside the buffer moves nothing. -/
theorem Safe.write (h : s.Safe) {o : Nat} {buf : List Byte} (hne : buf ≠ []) (ho : o + buf.length ≤ s.b.totalSize) :
    (s.write o buf).Safe ∧ (s.write o buf).b.totalSize = s.b.totalSize ∧ (s.write o buf).curOffset = s.curOffset := by
  obtain ⟨d, hd⟩ := h.wf
  have hfit : o + buf.length ≤ d.text.length := by rw [← hd.total]; exact ho
  have hst := ebWrite_stands hd buf (show o ≤ d.text.length by omega)
  have hover : d.write o buf = { d.addlog .write o buf.length with text := overwriteAt d.text o buf } := by
    have hlen : min buf.length (d.text.length - o) = buf.length := by omega
    simp only [Doc.write, hlen, List.take_length, List.drop_length, Doc.insertBlock, if_true, Doc.overwrite, if_neg hne]
  have hnotes : (ebWrite s.b o buf).notes = s.b.notes ++ [⟨.write, o, buf.length⟩] := by
    rw [hst.notes, hd.notes, hover]
    exact Doc.addlog_notes d .write o buf.length
  have hcall : BufferCall.InRange ⟨.write, o, buf.length, s.b.totalSize⟩ := by
    refine ⟨Int.natCast_nonneg o, Int.natCast_nonneg _, ?_⟩
    simp only
    omega
  refine ⟨h.perform (e := .write o buf) rfl (show o ≤ s.b.totalSize by omega) hcall, ?_, ?_⟩
  · have htotal := hst.total
    rw [hover, length_overwriteAt _ hfit, ← hd.total] at htotal
    exact htotal
  · change ((ebWrite s.b o buf).notes.drop s.b.notes.length).foldl ebOffsetCallback s.curOffset = _
    rw [hnotes, List.drop_left]
    rfl

/-- A removal inside the buffer. -/
theorem Safe.delete (h : s.Safe) {o o' : Nat} (hle : o ≤ o') (ho : o' ≤ s.b.totalSize) : (s.delete o ((o' : Int) - o)).Safe := by
  have hsize : ((o' : Int) - o).toNat = o' - o := by omega
  refine h.perform (e := .delete o (o' - o)) (by rw [hsize]; rfl) (show o + (o' - o) ≤ s.b.totalSize by omega) ⟨?_, ?_, ?_⟩
  · exact Int.natCast_nonneg o
  · simp only
    omega
  · simp only
    omega

/-! ## The loops -/

/-- Newlines are put behind the last line. -/
theorem Safe.addLines (h : s.Safe) (n : Nat) : (s.addLines n).Safe := by
  induction n generalizing s with
  | zero => exact h
  | succ n ih => exact ih (h.insert (Nat.le_refl _) [newline]).1

/-- Blanks are put where the line is too short. -/
theorem Safe.insertBlanks (h : s.Safe) {o : Nat} (ho : o ≤ s.b.totalSize) (n : Nat) :
    (ShellState.insertBlanks o n s).Safe ∧ o ≤ (ShellState.insertBlanks o n s).b.totalSize := by
  induction n generalizing s with
  | zero => exact ⟨h, ho⟩
  | succ n ih =>
    obtain ⟨i1, i2, -⟩ := h.insert ho [0x20]
    exact ih i1 (by rw [i2]; omega)

/-- Blanks are put in for the characters that are inserted. -/
theorem Safe.insertChars (h : s.Safe) (n : Nat) : (s.insertChars n).Safe := by
  induction n generalizing s with
  | zero => exact h
  | succ n ih =>
    obtain ⟨o, ho, hle⟩ := h.offset
    rw [ShellState.insertChars, ho]
    exact ih (h.insert hle [0x20]).1

/-- The cursor goes along a line, which is made longer if need be. -/
theorem Safe.gotoX (h : s.Safe) (stack : Nat → List Byte) {o : Nat} (ho : o ≤ s.b.totalSize) (x : Nat) :
    (ShellState.gotoX stack x s o).Safe := by
  induction x generalizing s o with
  | zero => exact h.withCursor ho
  | succ x ih =>
    obtain ⟨t, c, o', e1, e2, e3, -⟩ := h.reads.nextc h.single (stack x) (show o ≤ s.b.bytes.length by rw [← h.total]; exact ho)
    have hread := h.withPages e2
    have htotal : (s.withPages t).b.totalSize = s.b.totalSize := e2.total.trans h.total.symm
    rw [ShellState.gotoX, e1]
    simp only
    by_cases hc : c = newline
    · rw [if_pos hc]
      obtain ⟨b1, b2⟩ := hread.insertBlanks (o := o) (by rw [htotal]; exact ho) (x + 1)
      exact b1.withCursor b2
    · rw [if_neg hc]
      exact ih hread (by rw [htotal, h.total]; exact e3)

/-- The cursor goes to a line and a column of the screen. -/
theorem Safe.gotoxy (h : s.Safe) (stack : Nat → List Byte) (x y : Nat) : (s.ttyGotoxy stack x y).Safe := by
  have hpos := h.withPages (h.reads.getPos s.charset s.b.totalSize)
  rw [ttyGotoxy]
  simp only
  obtain ⟨n, hn⟩ : ∃ n, n = (ebGetPosCached s.b.toPages s.charset s.b.totalSize).2.1 - ttyYsize + y + 1 -
      (ebGetPosCached s.b.toPages s.charset s.b.totalSize).2.1 := ⟨_, rfl⟩
  obtain ⟨line, hline⟩ : ∃ line, line = (ebGetPosCached s.b.toPages s.charset s.b.totalSize).2.1 - ttyYsize + y := ⟨_, rfl⟩
  rw [← hn, ← hline]
  obtain ⟨s', hs'⟩ : ∃ s', s' = ShellState.addLines n (s.withPages (ebGetPosCached s.b.toPages s.charset s.b.totalSize).1) := ⟨_, rfl⟩
  have hlines : s'.Safe := by
    rw [hs']
    exact hpos.addLines n
  rw [← hs']
  obtain ⟨t, o, e1, e2, e3⟩ := hlines.reads.gotoPos s'.charset stack line
  rw [e1]
  exact (hlines.withPages e2).gotoX stack (show o ≤ (s'.withPages t).b.totalSize from e2.total ▸ e3) x

/-- The loop finds the next line, or the end of the text. -/
theorem Safe.nextLine (h : s.Safe) (stack : Nat → List Byte) {n o : Nat} (ho : o ≤ s.b.totalSize) (hn : s.b.totalSize - o < n) :
    ∃ s', ShellState.nextLine stack n s o = some s' ∧ s'.Safe := by
  induction n generalizing s o with
  | zero => omega
  | succ n ih =>
    rw [ShellState.nextLine]
    by_cases hend : (o : Int) = s.b.totalSize
    · rw [if_pos hend]
      exact ⟨_, rfl, (h.insert ho [newline]).1.withCursor (Nat.le_refl _)⟩
    · rw [if_neg hend]
      have hlt : o < s.b.bytes.length := by
        rw [← h.total]
        omega
      obtain ⟨t, c, o', e1, e2, e3, e4, -⟩ := h.reads.nextc h.single (stack n) (Nat.le_of_lt hlt)
      have hread := h.withPages e2
      have htotal : (s.withPages t).b.totalSize = s.b.totalSize := e2.total.trans h.total.symm
      have ho' : o' ≤ (s.withPages t).b.totalSize := by
        rw [htotal, h.total]
        exact e3
      rw [e1]
      simp only
      by_cases hc : c = newline
      · exact ⟨_, if_pos hc, hread.withCursor ho'⟩
      · rw [if_neg hc]
        have := e4 hlt
        exact ih hread ho' (by rw [htotal]; omega)

/-! ## The parts of the emulator -/

/-- A character is written over another one, or in front of the newline. -/
theorem Safe.writeChar (h : s.Safe) (stack : Nat → List Byte) (c : Nat) : (s.writeChar stack c).Safe := by
  obtain ⟨o, ho, hle⟩ := h.offset
  obtain ⟨t, c1, o', e1, e2, -, e4, e5⟩ :=
    h.reads.nextc h.single (stack 0) (show o ≤ s.b.bytes.length by rw [← h.total]; exact hle)
  obtain ⟨x, hx⟩ := unicodeToCharset_byte c h.single
  have hread := h.withPages e2
  have htotal : (s.withPages t).b.totalSize = s.b.totalSize := e2.total.trans h.total.symm
  have hcur : (s.withPages t).curOffset = o := ho
  rw [ShellState.writeChar, ho, e1, hx]
  simp only [hcur]
  by_cases hc : c1 = newline
  · -- insert
    simp only [if_pos hc]
    obtain ⟨i1, i2, i3⟩ := hread.insert (show o ≤ (s.withPages t).b.totalSize by rw [htotal]; exact hle) [x]
    rw [hcur, ebOffsetCallback, if_neg (Int.lt_irrefl _)] at i3
    rw [i3]
    exact i1.withCursor (o := o + 1) (by rw [i2, htotal, List.length_singleton]; omega)
  · -- overwrite: a character of the charset is a byte
    have hlt : o < s.b.bytes.length := by
      rw [← h.total]
      exact lt_of_le_of_ne hle fun heq => hc (e5 (heq.trans h.total))
    obtain rfl := e4 hlt
    rw [← h.total] at hlt
    have hone : (((o + 1 : Nat) : Int) - o) = (([x] : List Byte).length : Int) := by
      rw [List.length_singleton]
      omega
    simp only [if_neg hc, if_pos hone]
    obtain ⟨w1, w2, w3⟩ := hread.write (List.cons_ne_nil x [])
      (show o + ([x] : List Byte).length ≤ (s.withPages t).b.totalSize by rw [htotal, List.length_singleton]; omega)
    rw [w3, hcur]
    exact w1.withCursor (o := o + 1) (by rw [w2, htotal]; omega)

/-- A change of the color leaves the text alone. -/
theorem Safe.ttyCsiM (h : s.Safe) (c : Int) : (s.ttyCsiM c).Safe := by
  unfold ShellState.ttyCsiM
  split_ifs <;> exact ⟨h.wf, h.lines, h.single, h.cursor, h.colors, h.calls⟩

theorem Safe.setParam (h : s.Safe) (i p : Int) : (s.setParam i p).Safe := by
  unfold ShellState.setParam
  split_ifs
  · exact ⟨h.wf, h.lines, h.single, h.cursor, h.colors, h.calls⟩
  · exact h

theorem Safe.colors_fold (h : s.Safe) (left : Leftover) (is : List Nat) :
    (is.foldl (fun s i => s.ttyCsiM (s.param left i)) s).Safe := by
  induction is generalizing s with
  | nil => exact h
  | cons i is ih => exact ih (h.ttyCsiM _)

/-- Delete from the cursor to an offset behind it. -/
theorem Safe.deleteTo (h : s.Safe) {t : Pages} (ht : t.Reads s.b.bytes) {o o' : Nat} (ho : s.curOffset = o) (hle : o ≤ o')
    (hlen : o' ≤ s.b.bytes.length) : (s.deleteTo (t, (o' : Int))).Safe := by
  rw [ShellState.deleteTo, ho]
  exact (h.withPages ht).delete hle (show o' ≤ (s.withPages t).b.totalSize from ht.total ▸ hlen)

/-- The end of a control sequence. -/
theorem Safe.csi (h : s.Safe) (left : Leftover) (c : Nat) : ∃ s', ShellState.csi left s c = some s' ∧ s'.Safe := by
  obtain ⟨o, ho, hle⟩ := h.offset
  have hlen : o ≤ s.b.bytes.length := by
    rw [← h.total]
    exact hle
  unfold ShellState.csi
  generalize (if s.escParams.getD 0 0 ≤ 0 then 1 else (s.escParams.getD 0 0).toNat) = n
  simp only
  split
  · exact ⟨_, rfl, h.gotoxy left.stack _ _⟩
  · obtain ⟨t, o', e1, e2, e3, e4⟩ := h.reads.eol h.single left.stack hlen (n := s.b.totalSize + 1) (by rw [h.total]; omega)
    rw [ho, e1]
    exact ⟨_, rfl, h.deleteTo e2 ho e3 e4⟩
  · rw [ho]
    obtain ⟨t, o', e1, e2, e3, e4⟩ := h.reads.gotoCol h.single left.stack hlen
    rw [e1]
    exact ⟨_, rfl, h.deleteTo e2 ho e3 e4⟩
  · exact ⟨_, rfl, h.insertChars _⟩
  · exact ⟨_, rfl, h.colors_fold left _⟩
  · refine ⟨_, rfl, ?_⟩
    split_ifs
    · exact ⟨h.wf, h.lines, h.single, h.cursor, h.colors, h.calls⟩
    · exact h
  · exact ⟨_, rfl, h⟩

/-- A character outside of any sequence. -/
theorem Safe.norm (h : s.Safe) (left : Leftover) (c : Nat) : ∃ s', s.norm left c = some s' ∧ s'.Safe := by
  obtain ⟨o, ho, hle⟩ := h.offset
  have hlen : o ≤ s.b.bytes.length := by
    rw [← h.total]
    exact hle
  unfold ShellState.norm
  split
  · obtain ⟨t, c1, e1, e2, -⟩ := h.reads.prevc h.single (left.stack 0) hlen
    have hread := h.withPages e2
    rw [ho, e1]
    refine ⟨_, rfl, ?_⟩
    split_ifs
    · exact hread.withCursor (show o - 1 ≤ (s.withPages t).b.totalSize from e2.total ▸ (Nat.sub_le o 1).trans hlen)
    · exact hread
  · rw [ho]
    exact h.nextLine left.stack hle (by omega)
  · obtain ⟨t, o', e1, e2, e3⟩ := h.reads.gotoBol h.single left.stack hlen (n := s.b.totalSize + 2) (by rw [h.total]; omega)
    rw [ebGotoBol, ho, e1]
    exact ⟨_, rfl, (h.withPages e2).withCursor (show o' ≤ (s.withPages t).b.totalSize from e2.total ▸ e3)⟩
  · exact ⟨_, rfl, h.wf, h.lines, h.single, h.cursor, h.colors, h.calls⟩
  · refine ⟨_, rfl, ?_⟩
    split_ifs
    · exact h.writeChar left.stack c
    · exact h

/-! ## How long the buffer gets -/

/-- The buffer is longer by so many bytes at most, and was not longer when a call was made. -/
structure Grows (n : Nat) (s s' : ShellState) : Prop where
  total : s'.b.totalSize ≤ s.b.totalSize + n
  calls : ∀ call ∈ s'.calls, call ∈ s.calls ∨ call.total ≤ s.b.totalSize + n

theorem Grows.refl (s : ShellState) : Grows 0 s s := ⟨Nat.le_refl _, fun _ => Or.inl⟩

/-- What one change adds comes on top of what another does. -/
theorem Grows.trans {m n : Nat} {s' s'' : ShellState} (h : Grows m s s') (h' : Grows n s' s'') : Grows (m + n) s s'' := by
  have ht := h.total
  have ht' := h'.total
  refine ⟨by omega, fun call hc => ?_⟩
  rcases h'.calls call hc with hc | hle
  · exact (h.calls call hc).imp_right fun hle => by omega
  · exact Or.inr (by omega)

/-- A bound may be larger. -/
theorem Grows.mono {m n : Nat} {s' : ShellState} (h : Grows m s s') (hle : m ≤ n) : Grows n s s' :=
  ⟨by have := h.total; omega, fun call hc => (h.calls call hc).imp_right fun hle' => by omega⟩

/-- The buffer and the calls are the same but for what was read. -/
theorem Grows.of_eq {s' : ShellState} (hb : s'.b.totalSize = s.b.totalSize) (hc : s'.calls = s.calls) : Grows 0 s s' :=
  ⟨Nat.le_of_eq hb, fun _ hmem => Or.inl (hc ▸ hmem)⟩

theorem Grows.withCursor {n : Nat} {s' : ShellState} (h : Grows n s s') (o : Int) : Grows n s { s' with curOffset := o } :=
  ⟨h.total, h.calls⟩

/-- A call of the buffer layer that makes the buffer longer by so many bytes at most. -/
theorem grows_perform {n : Nat} {call : BufferCall} {f : EditBuffer → EditBuffer} (hcall : call.total = s.b.totalSize)
    (hf : (f s.b).totalSize ≤ s.b.totalSize + n) : Grows n s (s.perform call f) := by
  refine ⟨hf, fun c hc => ?_⟩
  rcases List.mem_append.mp hc with hc | hc
  · exact Or.inl hc
  · rw [List.mem_singleton.mp hc, hcall]
    exact Or.inr (Nat.le_add_right _ _)

/-- An insertion adds what is inserted. -/
theorem Safe.grows_insert (h : s.Safe) {o : Nat} (ho : o ≤ s.b.totalSize) (buf : List Byte) :
    Grows buf.length s (s.insert o buf) := grows_perform rfl (Nat.le_of_eq (h.insert ho buf).2.1)

/-- A deletion adds nothing. -/
theorem Safe.grows_delete (h : s.Safe) {o o' : Nat} (hle : o ≤ o') (ho : o' ≤ s.b.totalSize) :
    Grows 0 s (s.delete o ((o' : Int) - o)) := by
  obtain ⟨d, hd⟩ := h.wf
  have hsize : ((o' : Int) - o).toNat = o' - o := by omega
  have hst := Edit.run_stands (e := .delete o (o' - o)) hd (show o + (o' - o) ≤ s.b.totalSize by omega)
  refine grows_perform rfl ?_
  rw [hsize]
  refine (Nat.le_of_eq hst.total).trans ?_
  rw [hd.total] at ho ⊢
  rw [Edit.apply, Doc.delete]
  split_ifs
  · exact Nat.le_refl _
  · rw [length_removeAt _ (by omega)]
    exact Nat.sub_le _ _

/-- One for each line that is put behind the last one. -/
theorem Safe.grows_addLines (h : s.Safe) (n : Nat) : Grows n s (s.addLines n) := by
  induction n generalizing s with
  | zero => exact .refl s
  | succ n ih =>
    have hone := h.grows_insert (Nat.le_refl _) [newline]
    exact (hone.trans (ih (h.insert (Nat.le_refl _) [newline]).1)).mono (Nat.le_of_eq (Nat.add_comm 1 n))

/-- One for each blank. -/
theorem Safe.grows_insertBlanks (h : s.Safe) {o : Nat} (ho : o ≤ s.b.totalSize) (n : Nat) :
    Grows n s (ShellState.insertBlanks o n s) := by
  induction n generalizing s with
  | zero => exact .refl s
  | succ n ih =>
    obtain ⟨i1, i2, -⟩ := h.insert ho [0x20]
    exact ((h.grows_insert ho [0x20]).trans (ih i1 (by rw [i2]; omega))).mono (Nat.le_of_eq (Nat.add_comm 1 n))

/-- Blanks are put in front of nothing, so that the cursor stays. -/
theorem Safe.insertChars_spec (h : s.Safe) (n : Nat) : Grows n s (s.insertChars n) ∧
    (s.insertChars n).b.totalSize = s.b.totalSize + n ∧ (s.insertChars n).curOffset = s.curOffset := by
  induction n generalizing s with
  | zero => exact ⟨.refl s, rfl, rfl⟩
  | succ n ih =>
    obtain ⟨o, ho, hle⟩ := h.offset
    obtain ⟨i1, i2, i3⟩ := h.insert hle [0x20]
    rw [ho, ebOffsetCallback, if_neg (Int.lt_irrefl _)] at i3
    obtain ⟨hgrows, htotal, hcursor⟩ := ih i1
    rw [ShellState.insertChars, ho]
    refine ⟨((h.grows_insert hle [0x20]).trans hgrows).mono (Nat.le_of_eq (Nat.add_comm 1 n)), ?_, hcursor.trans i3⟩
    rw [htotal, i2, List.length_singleton]
    omega

/-- A move along a line adds no more than the column. -/
theorem Safe.grows_gotoX (h : s.Safe) (stack : Nat → List Byte) {o : Nat} (ho : o ≤ s.b.totalSize) (x : Nat) :
    Grows x s (ShellState.gotoX stack x s o) := by
  induction x generalizing s o with
  | zero => exact (Grows.refl s).withCursor o
  | succ x ih =>
    obtain ⟨t, c, o', e1, e2, e3, -⟩ := h.reads.nextc h.single (stack x) (show o ≤ s.b.bytes.length by rw [← h.total]; exact ho)
    have hread := h.withPages e2
    have htotal : (s.withPages t).b.totalSize = s.b.totalSize := e2.total.trans h.total.symm
    have hsame : Grows 0 s (s.withPages t) := .of_eq htotal rfl
    rw [ShellState.gotoX, e1]
    simp only
    split_ifs
    · have hblanks := hread.grows_insertBlanks (o := o) (by rw [htotal]; exact ho) (x + 1)
      exact ((hsame.trans hblanks).withCursor o).mono (by omega)
    · exact (hsame.trans (ih hread (by rw [htotal, h.total]; exact e3))).mono (by omega)

/-- A move to a place of the screen adds no more than the lines of it and the column. -/
theorem Safe.grows_gotoxy (h : s.Safe) (stack : Nat → List Byte) (x : Nat) {y : Nat} (hy : y < ttyYsize) :
    Grows (ttyYsize + x) s (s.ttyGotoxy stack x y) := by
  have hreads := h.reads.getPos s.charset s.b.totalSize
  have hpos := h.withPages hreads
  have hsame : Grows 0 s (s.withPages (ebGetPosCached s.b.toPages s.charset s.b.totalSize).1) :=
    .of_eq (hreads.total.trans h.total.symm) rfl
  rw [ttyGotoxy]
  simp only
  obtain ⟨total, htotal⟩ : ∃ total, total = (ebGetPosCached s.b.toPages s.charset s.b.totalSize).2.1 := ⟨_, rfl⟩
  rw [← htotal]
  have hlines := hpos.grows_addLines (total - ttyYsize + y + 1 - total)
  obtain ⟨s', hs'⟩ : ∃ s', s' = ShellState.addLines (total - ttyYsize + y + 1 - total)
      (s.withPages (ebGetPosCached s.b.toPages s.charset s.b.totalSize).1) := ⟨_, rfl⟩
  have hsafe : s'.Safe := by
    rw [hs']
    exact hpos.addLines _
  rw [← hs'] at hlines ⊢
  obtain ⟨t, o, e1, e2, e3⟩ := hsafe.reads.gotoPos s'.charset stack (total - ttyYsize + y)
  rw [e1]
  have hgoto := (hsafe.withPages e2).grows_gotoX stack (show o ≤ (s'.withPages t).b.totalSize from e2.total ▸ e3) x
  have hread : Grows 0 s' (s'.withPages t) := .of_eq (e2.total.trans hsafe.total.symm) rfl
  exact ((hsame.trans hlines).trans (hread.trans hgoto)).mono (by omega)

/-- The next line may have to be made. -/
theorem Safe.grows_nextLine (h : s.Safe) (stack : Nat → List Byte) {n o : Nat} (ho : o ≤ s.b.totalSize) {s' : ShellState}
    (hs' : ShellState.nextLine stack n s o = some s') : Grows 1 s s' := by
  induction n generalizing s o with
  | zero => nomatch hs'
  | succ n ih =>
    rw [ShellState.nextLine] at hs'
    split_ifs at hs' with hend
    · obtain rfl := Option.some.inj hs'
      exact (h.grows_insert ho [newline]).withCursor _
    · have hlen : o ≤ s.b.bytes.length := by
        rw [← h.total]
        exact ho
      obtain ⟨t, c, o', e1, e2, e3, -⟩ := h.reads.nextc h.single (stack n) hlen
      have htotal : (s.withPages t).b.totalSize = s.b.totalSize := e2.total.trans h.total.symm
      have hsame : Grows 0 s (s.withPages t) := .of_eq htotal rfl
      rw [e1] at hs'
      simp only at hs'
      split_ifs at hs'
      · obtain rfl := Option.some.inj hs'
        exact (hsame.withCursor _).mono (Nat.zero_le 1)
      · exact (hsame.trans (ih (h.withPages e2) (by rw [htotal, h.total]; exact e3) hs')).mono (by omega)

/-- A character adds one. -/
theorem Safe.grows_writeChar (h : s.Safe) (stack : Nat → List Byte) (c : Nat) : Grows 1 s (s.writeChar stack c) := by
  obtain ⟨o, ho, hle⟩ := h.offset
  obtain ⟨t, c1, o', e1, e2, -, e4, e5⟩ :=
    h.reads.nextc h.single (stack 0) (show o ≤ s.b.bytes.length by rw [← h.total]; exact hle)
  obtain ⟨x, hx⟩ := unicodeToCharset_byte c h.single
  have hread := h.withPages e2
  have htotal : (s.withPages t).b.totalSize = s.b.totalSize := e2.total.trans h.total.symm
  have hcur : (s.withPages t).curOffset = o := ho
  have hsame : Grows 0 s (s.withPages t) := .of_eq htotal rfl
  rw [ShellState.writeChar, ho, e1, hx]
  simp only [hcur]
  by_cases hc : c1 = newline
  · simp only [if_pos hc]
    exact (hsame.trans (hread.grows_insert (by rw [htotal]; exact hle) [x])).withCursor _
  · have hlt : o < s.b.bytes.length := by
      rw [← h.total]
      exact lt_of_le_of_ne hle fun heq => hc (e5 (heq.trans h.total))
    obtain rfl := e4 hlt
    rw [← h.total] at hlt
    have hone : (((o + 1 : Nat) : Int) - o) = (([x] : List Byte).length : Int) := by
      rw [List.length_singleton]
      omega
    simp only [if_neg hc, if_pos hone]
    obtain ⟨-, w2, -⟩ := hread.write (List.cons_ne_nil x [])
      (show o + ([x] : List Byte).length ≤ (s.withPages t).b.totalSize by rw [htotal, List.length_singleton]; omega)
    have hwrite : Grows 0 (s.withPages t) ((s.withPages t).write o [x]) := grows_perform rfl (Nat.le_of_eq w2)
    exact ((hsame.trans hwrite).withCursor _).mono (Nat.zero_le 1)

theorem Safe.grows_deleteTo (h : s.Safe) {t : Pages} (ht : t.Reads s.b.bytes) {o o' : Nat} (ho : s.curOffset = o) (hle : o ≤ o')
    (hlen : o' ≤ s.b.bytes.length) : Grows 0 s (s.deleteTo (t, (o' : Int))) := by
  rw [ShellState.deleteTo, ho]
  have hsame : Grows 0 s (s.withPages t) := .of_eq (ht.total.trans h.total.symm) rfl
  exact hsame.trans ((h.withPages ht).grows_delete hle (show o' ≤ (s.withPages t).b.totalSize from ht.total ▸ hlen))

theorem grows_ttyCsiM (s : ShellState) (c : Int) : Grows 0 s (s.ttyCsiM c) := by
  unfold ShellState.ttyCsiM
  split_ifs <;> exact ⟨Nat.le_refl _, fun _ => Or.inl⟩

theorem grows_colors (left : Leftover) (is : List Nat) (s : ShellState) :
    Grows 0 s (is.foldl (fun s (i : Nat) => s.ttyCsiM (s.param left i)) s) := by
  induction is generalizing s with
  | nil => exact .refl s
  | cons i is ih => exact (grows_ttyCsiM s _).trans (ih _)

/-- How many characters `ESC [ n @` inserts. -/
def insertCount (s : ShellState) : Nat := if s.escParams.getD 0 0 ≤ 0 then 1 else (s.escParams.getD 0 0).toNat

/-- How many bytes the last byte of an escape sequence adds at most: the lines and the blanks of `tty_gotoxy`, and the blanks of
`ESC [ n @`. -/
def csiGrowth (s : ShellState) (c : Nat) : Nat :=
  match c with
  | 0x48 => ttyYsize + (wrapInt (s.escParams.getD 1 0 - 1)).toNat
  | 0x40 => s.insertCount
  | _ => 0

/-- What the end of a control sequence adds. -/
theorem Safe.grows_csi (h : s.Safe) (left : Leftover) (c : Nat) {s' : ShellState} (hs' : ShellState.csi left s c = some s') :
    Grows (s.csiGrowth c) s s' := by
  obtain ⟨o, ho, hle⟩ := h.offset
  have hlen : o ≤ s.b.bytes.length := by
    rw [← h.total]
    exact hle
  unfold ShellState.csi at hs'
  simp only [← insertCount.eq_1 s] at hs'
  unfold csiGrowth
  split at hs'
  · obtain rfl := Option.some.inj hs'
    exact h.grows_gotoxy left.stack _ (by rw [ttyYsize]; omega)
  · obtain ⟨t, o', e1, e2, e3, e4⟩ := h.reads.eol h.single left.stack hlen (n := s.b.totalSize + 1) (by rw [h.total]; omega)
    rw [ho, e1] at hs'
    obtain rfl := Option.some.inj hs'
    exact h.grows_deleteTo e2 ho e3 e4
  · rw [ho] at hs'
    obtain ⟨t, o', e1, e2, e3, e4⟩ := h.reads.gotoCol h.single left.stack (n := s.insertCount) hlen
    rw [e1] at hs'
    obtain rfl := Option.some.inj hs'
    exact h.grows_deleteTo e2 ho e3 e4
  · obtain rfl := Option.some.inj hs'
    exact (h.insertChars_spec _).1
  · obtain rfl := Option.some.inj hs'
    exact grows_colors left _ s
  · obtain rfl := Option.some.inj hs'
    split_ifs
    · exact ⟨Nat.le_refl _, fun _ => Or.inl⟩
    · exact .refl s
  · obtain rfl := Option.some.inj hs'
    exact (Grows.refl s).mono (Nat.zero_le _)

theorem Safe.grows_norm (h : s.Safe) (left : Leftover) (c : Nat) {s' : ShellState} (hs' : s.norm left c = some s') :
    Grows 1 s s' := by
  obtain ⟨o, ho, hle⟩ := h.offset
  have hlen : o ≤ s.b.bytes.length := by
    rw [← h.total]
    exact hle
  have hread {t : Pages} (ht : t.Reads s.b.bytes) : Grows 1 s (s.withPages t) := by
    have hsame : Grows 0 s (s.withPages t) := .of_eq (ht.total.trans h.total.symm) rfl
    exact hsame.mono (Nat.zero_le 1)
  unfold ShellState.norm at hs'
  split at hs'
  · obtain ⟨t, c1, e1, e2, -⟩ := h.reads.prevc h.single (left.stack 0) hlen
    rw [ho, e1] at hs'
    obtain rfl := Option.some.inj hs'
    split_ifs
    · exact (hread e2).withCursor _
    · exact hread e2
  · rw [ho] at hs'
    exact h.grows_nextLine left.stack hle hs'
  · obtain ⟨t, o', e1, e2, e3⟩ := h.reads.gotoBol h.single left.stack hlen (n := s.b.totalSize + 2) (by rw [h.total]; omega)
    rw [ebGotoBol, ho, e1] at hs'
    obtain rfl := Option.some.inj hs'
    exact (hread e2).withCursor _
  · obtain rfl := Option.some.inj hs'
    exact ⟨Nat.le_succ _, fun _ => Or.inl⟩
  · obtain rfl := Option.some.inj hs'
    split_ifs
    · exact h.grows_writeChar left.stack c
    · exact (Grows.refl s).mono (Nat.zero_le 1)

end ShellState

end Hoe
