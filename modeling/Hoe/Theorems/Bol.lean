import Hoe.Lemmas.Bol
import Hoe.Theorems.Counts

/-!
# The beginning of a line, found in four ways

`eb_next_line`, and `eb_goto_pos` at column 0 of the line that `eb_get_pos` says, find the beginnings of lines for any bytes:
they look for newlines, and no character swallows one. `eb_goto_bol` reads characters backward. It finds the beginning of the
line exactly when the number of bytes there that go on with no character is a multiple of seven.
-/

namespace Hoe

open Splice

/-- The lines of the pages that are flagged as counted are up to date. They do not depend on the charset. -/
def Pages.LinesCounted (t : Pages) : Prop := ∀ p ∈ t.pageTable, p.validPos = true → p.nbLines = p.data.count newline

/-- For the offset all functions find the same beginning of the line, and the same next line. -/
def LinesAgree (t : Pages) (charset : Charset) (o : Nat) : Prop :=
  (∀ junk, (ebGotoBol t charset junk o).map Prod.snd = some (bolOf t.bytes o : Int)) ∧
    (∀ junk, (ebGotoPosCached t charset junk (ebGetPosCached t charset o).2.1 0).2 = bolOf t.bytes o) ∧
    ∀ junk, (ebNextLine t charset junk o).map Prod.snd = some (nextBolOf t.bytes o : Int)

/-! ## Backward -/

/-- The line begins behind the last newline, or with the text. -/
theorem bolOf_spec (text : List Byte) {o : Nat} :
    bolOf text o ≤ o ∧ (∀ i, bolOf text o ≤ i → i < o → text.getD i 0 ≠ newline) ∧
      (bolOf text o = 0 ∨ 0 < bolOf text o ∧ text.getD (bolOf text o - 1) 0 = newline) := by
  induction o with
  | zero => exact ⟨Nat.le_refl 0, fun i _ hi => by omega, Or.inl rfl⟩
  | succ o ih =>
    obtain ⟨h1, h2, h3⟩ := ih
    rw [bolOf]
    by_cases hc : text.getD o 0 = newline
    · rw [if_pos hc]
      exact ⟨Nat.le_refl _, fun i hi hi' => by omega, Or.inr ⟨Nat.succ_pos o, hc⟩⟩
    · rw [if_neg hc]
      refine ⟨by omega, fun i hi hi' => ?_, h3⟩
      by_cases hio : i = o
      · rwa [hio]
      · exact h2 i hi (by omega)

/-- The run ends in front of the first byte that is no tail. -/
theorem tailRun_spec (p : List Nat) : (∀ i < tailRun p, isTail (p.getD i 0) = true) ∧
    (tailRun p < p.length → isTail (p.getD (tailRun p) 0) = false) := by
  induction p with
  | nil => simp
  | cons c p ih =>
    obtain ⟨h1, h2⟩ := ih
    rw [tailRun_cons]
    by_cases hc : isTail c = true
    · rw [if_pos hc]
      refine ⟨fun i hi => ?_, fun h => h2 (by simpa using h)⟩
      cases i with
      | zero => exact hc
      | succ i => exact h1 i (by omega)
    · rw [if_neg hc]
      exact ⟨fun i hi => by omega, fun _ => by simpa using hc⟩

theorem getD_slice (text : List Byte) {b n i : Nat} (hi : i < n) : (slice text b n).getD i 0 = text.getD (b + i) 0 := by
  rw [slice, List.getD_eq_getElem?_getD, List.getElem?_take_of_lt hi, List.getElem?_drop, ← List.getD_eq_getElem?_getD]

/-- How many bytes at the beginning of the line, in front of the offset, go on with no character. -/
def strayBytes (text : List Byte) (o : Nat) : Nat := tailRun (slice text (bolOf text o) (o - bolOf text o))

/-- The stray bytes are the tails that the line begins with. -/
theorem strayBytes_spec (text : List Byte) {o : Nat} (ho : o ≤ text.length) :
    bolOf text o + strayBytes text o ≤ o ∧
      (∀ i, bolOf text o ≤ i → i < bolOf text o + strayBytes text o → isTail (text.getD i 0) = true) ∧
      (bolOf text o + strayBytes text o < o → isTail (text.getD (bolOf text o + strayBytes text o) 0) = false) := by
  obtain ⟨hb, -, -⟩ := bolOf_spec text (o := o)
  have hlen : (slice text (bolOf text o) (o - bolOf text o)).length = o - bolOf text o := length_slice _ (by omega)
  obtain ⟨h1, h2⟩ := tailRun_spec (slice text (bolOf text o) (o - bolOf text o))
  have hle := tailRun_le (slice text (bolOf text o) (o - bolOf text o))
  unfold strayBytes
  refine ⟨by omega, fun i hi hi' => ?_, fun hlt => ?_⟩
  · have := h1 (i - bolOf text o) (by omega)
    rwa [getD_slice _ (by omega), show bolOf text o + (i - bolOf text o) = i by omega] at this
  · have := h2 (by omega)
    rwa [getD_slice _ (by omega)] at this

/-- With fewer than seven stray bytes at the beginning of the line the loop stops there only when there is none. -/
theorem exists_backTo_stray {text : List Byte} {b m : Nat} (hm : m < 7) (hlen : b + m ≤ text.length)
    (hb : b = 0 ∨ 0 < b ∧ text.getD (b - 1) 0 = newline) (ht : ∀ i, b ≤ i → i < b + m → isTail (text.getD i 0) = true) :
    ∃ v : Int, BackTo .utf8 text ((b + m : Nat) : Int) v ∧ (v = b ↔ m = 0) := by
  rcases hb with rfl | ⟨hpos, hnl⟩
  · rcases Nat.eq_zero_or_pos m with rfl | hm'
    · exact ⟨0, .start (by omega), by simp⟩
    · refine ⟨(m : Int) - 7, ?_, by omega⟩
      rw [Nat.zero_add]
      refine .step_none rfl hm' (firstByte_tails 0 (fun i _ h => ht i (Nat.zero_le i) (by omega)) (Or.inl rfl)) ?_
      exact .start (by omega)
  · by_cases h5 : m ≤ 5
    · have hfirst : Reader.firstByte text (maxCharBytes - 1) (b + m - 1) = some (b - 1) :=
        Reader.firstByte_eq (by omega) (by unfold maxCharBytes; omega) (by rw [hnl]; rfl)
          fun i h1 h2 => ht i (by omega) (by omega)
      exact ⟨((b + m : Nat) : Int), .stop_first rfl (by omega) hlen hfirst hnl, by omega⟩
    · obtain ⟨v, hv, hback⟩ := exists_backTo .utf8 text (o := b - 1) (by omega)
      refine ⟨v, .step_none rfl (by omega) (firstByte_tails b (fun i h1 h2 => ht i h1 (by omega)) (Or.inr ?_)) ?_,
        by omega⟩
      · unfold maxCharBytes
        omega
      · rwa [show ((b + m : Nat) : Int) - 7 = ((b - 1 : Nat) : Int) by omega]

/-- Where the loop of `eb_goto_bol` leads. -/
theorem exists_backTo_bol (charset : Charset) (text : List Byte) {o : Nat} (ho : o ≤ text.length) :
    ∃ v, BackTo charset text o v ∧ (v = (bolOf text o : Int) ↔ (charset = .utf8 → strayBytes text o % 7 = 0)) := by
  obtain ⟨h1, h2, h3⟩ := bolOf_spec text (o := o)
  obtain ⟨s1, s2, s3⟩ := strayBytes_spec text ho
  by_cases hu : charset = .utf8
  · obtain ⟨v, hv, hiff⟩ := exists_backTo_stray (Nat.mod_lt (strayBytes text o) (by decide))
      (show bolOf text o + strayBytes text o % 7 ≤ text.length by omega) h3
      (fun i hi hi' => s2 i hi (by omega))
    have hsevens := BackTo.sevens rfl (strayBytes text o / 7) (fun i hi hi' => s2 i hi (by omega)) hv
    rw [show bolOf text o + strayBytes text o % 7 + 7 * (strayBytes text o / 7) = bolOf text o + strayBytes text o by omega]
      at hsevens
    subst hu
    refine ⟨v, ?_, by simpa using hiff⟩
    rcases Nat.eq_or_lt_of_le s1 with heq | hlt
    · rwa [heq] at hsevens
    · refine .descend ho s1 ?_ (fun i hi hi' => h2 i (by omega) hi') hsevens
      rw [Charset.lead_utf8, s3 hlt]
      rfl
  · refine ⟨bolOf text o, ?_, by simp [hu]⟩
    refine .descend ho h1 (by simp [Charset.lead, hu]) h2 ?_
    rcases h3 with hzero | ⟨hpos, hn⟩
    · exact .start (by omega)
    · exact .stop_byte hu hpos hn

/-! ## Forward -/

theorem countPos_line (charset : Charset) {p : Page} (h : p.validPos = true → p.nbLines = p.data.count newline) :
    (countPos charset p).nbLines = p.data.count newline ∧ (countPos charset p).size = p.size ∧
      (countPos charset p).data = p.data := by
  unfold countPos
  by_cases hv : p.validPos = true
  · rw [if_pos hv]
    exact ⟨h hv, rfl, rfl⟩
  · rw [if_neg hv]
    exact ⟨rfl, rfl, rfl⟩

theorem getPosLoop_line {charset : Charset} {ps : List Page} (hok : ∀ p ∈ ps, p.Ok)
    (h : ∀ p ∈ ps, p.validPos = true → p.nbLines = p.data.count newline) (offset line col : Nat) :
    (getPosLoop charset ps offset line col).2.1 = line + ((tableBytes ps).take offset).count newline := by
  induction ps generalizing offset line col with
  | nil => simp [getPosLoop]
  | cons p ps ih =>
    obtain ⟨hp, hps⟩ := List.forall_mem_cons.mp hok
    obtain ⟨hc, hcs⟩ := List.forall_mem_cons.mp h
    obtain ⟨c1, c2, -⟩ := countPos_line charset hc
    rw [getPosLoop, tableBytes_cons]
    by_cases ho : offset < p.size
    · rw [if_pos ho, List.take_append_of_le_length (by rw [hp.data]; omega)]
      rfl
    · rw [if_neg ho, List.take_append, hp.data, List.take_of_length_le (by rw [hp.data]; omega), List.count_append]
      simp only [c2]
      rw [ih hps hcs, c1, Nat.add_assoc]

/-- For column 0 the loop of `eb_goto_pos` over the pages ends at the beginning of the line. -/
theorem gotoPosLoop_line (charset : Charset) {ps : List Page} (hok : ∀ p ∈ ps, p.Ok)
    (h : ∀ p ∈ ps, p.validPos = true → p.nbLines = p.data.count newline) (line1 offset line col : Nat)
    (hle : line ≤ line1) (hline : line1 ≤ line + (tableBytes ps).count newline) :
    (ps = [] ∧ (gotoPosLoop charset line1 0 ps offset line col).2 = none) ∨
      (gotoPosLoop charset line1 0 ps offset line col).2 = some (offset + skipLines (line1 - line) (tableBytes ps), 0) := by
  induction ps generalizing offset line col with
  | nil => exact Or.inl ⟨rfl, rfl⟩
  | cons p ps ih =>
    obtain ⟨hp, hps⟩ := List.forall_mem_cons.mp hok
    obtain ⟨hc, hcs⟩ := List.forall_mem_cons.mp h
    obtain ⟨c1, c2, c3⟩ := countPos_line charset hc
    rw [tableBytes_cons, List.count_append] at hline
    rw [gotoPosLoop, tableBytes_cons]
    simp only [c1, c2, c3, Nat.zero_le, and_true, Nat.zero_sub]
    refine Or.inr ?_
    by_cases hstop : line1 ≤ line + p.data.count newline
    · rw [if_pos (by omega), skipLines_append (by omega)]
    · rw [if_neg (by omega)]
      obtain ⟨m, hm⟩ : ∃ m, line1 - (line + p.data.count newline) = m + 1 := ⟨line1 - (line + p.data.count newline) - 1, by omega⟩
      have hskip := skipLines_add p.data (tableBytes ps) m
      rw [hp.data, ← hm, show p.data.count newline + (line1 - (line + p.data.count newline)) = line1 - line by omega] at hskip
      rcases ih hps hcs (offset + p.size) (line + p.data.count newline) (col + (countPos charset p).col)
        (by omega) (by omega) with ⟨rfl, -⟩ | hfound
      · rw [tableBytes_nil, List.count_nil] at hline
        omega
      · rw [hfound, hskip, Nat.add_assoc]

/-- `eb_goto_pos` at column 0 of the line that `eb_get_pos` says. -/
theorem ebGotoPos_line {t : Pages} (ht : t.Ok) (hc : t.LinesCounted) (charset : Charset) (junk : Nat → List Byte) {o : Nat}
    (ho : o ≤ t.totalSize) :
    (ebGotoPosCached t charset junk (ebGetPosCached t charset o).2.1 0).2 = (bolOf t.bytes o : Int) := by
  have hlen := ht.length_bytes
  have hline : (ebGetPosCached t charset o).2.1 = (t.bytes.take o).count newline := by
    rw [show (ebGetPosCached t charset o).2.1 = _ from getPosLoop_line ht.pages hc o 0 0, Nat.zero_add, t.bytes_eq]
  have hle : (t.bytes.take o).count newline ≤ t.bytes.count newline := (List.take_sublist o t.bytes).count_le newline
  rw [hline, ebGotoPosCached]
  rcases gotoPosLoop_line charset ht.pages hc ((t.bytes.take o).count newline) 0 0 0
    (Nat.zero_le _) (by rw [Nat.zero_add]; exact hle) with ⟨hnil, hnone⟩ | hfound
  · have hzero : t.totalSize = 0 := by rw [ht.total, hnil]; rfl
    obtain rfl : o = 0 := by omega
    simp only [hnone, hzero, bolOf]
  · simp only [hfound, gotoColLoop, Nat.zero_add, Nat.sub_zero]
    rw [bolOf_eq_skipLines t.bytes (by omega), t.bytes_eq]

/-! ## Counted lines are never stale -/

/-- What the functions that keep counts make of a page. -/
def CountedFrom (charset : Charset) (ps qs : List Page) : Prop :=
  ∀ q ∈ qs, ∃ p ∈ ps, q = p ∨ q = countPos charset p ∨ q = countChar .utf8 p

theorem CountedFrom.refl (charset : Charset) (ps : List Page) : CountedFrom charset ps ps := fun q hq => ⟨q, hq, Or.inl rfl⟩

theorem CountedFrom.cons {charset : Charset} {p q : Page} {ps qs : List Page}
    (hq : q = p ∨ q = countPos charset p ∨ q = countChar .utf8 p) (h : CountedFrom charset ps qs) :
    CountedFrom charset (p :: ps) (q :: qs) := by
  intro r hr
  rcases List.mem_cons.mp hr with rfl | hr
  · exact ⟨p, List.mem_cons_self, hq⟩
  · obtain ⟨p', hp', h'⟩ := h r hr
    exact ⟨p', List.mem_cons_of_mem p hp', h'⟩

theorem CountedFrom.lines {charset : Charset} {ps qs : List Page} (h : CountedFrom charset ps qs)
    (hp : ∀ p ∈ ps, p.validPos = true → p.nbLines = p.data.count newline) :
    ∀ q ∈ qs, q.validPos = true → q.nbLines = q.data.count newline := by
  intro q hq hv
  obtain ⟨p, hmem, rfl | rfl | rfl⟩ := h q hq
  · exact hp q hmem hv
  · obtain ⟨c1, -, c3⟩ := countPos_line charset (hp p hmem)
    rw [c1, c3]
  · unfold countChar at hv ⊢
    split
    · rw [if_pos ‹_›] at hv
      exact hp p hmem hv
    · rw [if_neg ‹_›] at hv
      exact hp p hmem hv

theorem countedFrom_getPosLoop (charset : Charset) (ps : List Page) (offset line col : Nat) :
    CountedFrom charset ps (getPosLoop charset ps offset line col).1 := by
  induction ps generalizing offset line col with
  | nil => exact .refl charset []
  | cons p ps ih =>
    rw [getPosLoop]
    split
    · exact .refl charset _
    · exact .cons (Or.inr (Or.inl rfl)) (ih _ _ _)

theorem countedFrom_gotoPosLoop (charset : Charset) (line1 col1 : Nat) (ps : List Page) (offset line col : Nat) :
    CountedFrom charset ps (gotoPosLoop charset line1 col1 ps offset line col).1 := by
  induction ps generalizing offset line col with
  | nil => exact .refl charset []
  | cons p ps ih =>
    rw [gotoPosLoop]
    simp only
    split
    · exact .cons (Or.inr (Or.inl rfl)) (.refl charset ps)
    · exact .cons (Or.inr (Or.inl rfl)) (ih _ _ _)

theorem countedFrom_gotoCharLoop (charset : Charset) (ps : List Page) (pos : Int) :
    CountedFrom charset ps (gotoCharLoop ps pos).1 := by
  induction ps generalizing pos with
  | nil => exact .refl charset []
  | cons p ps ih =>
    rw [gotoCharLoop]
    simp only
    split
    · exact .cons (Or.inr (Or.inr rfl)) (.refl charset ps)
    · exact .cons (Or.inr (Or.inr rfl)) (ih _)

theorem countedFrom_charOffsetLoop (charset : Charset) (ps : List Page) (offset : Nat) :
    CountedFrom charset ps (charOffsetLoop ps offset).1 := by
  induction ps generalizing offset with
  | nil => exact .refl charset []
  | cons p ps ih =>
    rw [charOffsetLoop]
    split
    · exact .refl charset _
    · exact .cons (Or.inr (Or.inr rfl)) (ih _)

theorem Derived.lines {ps qs : List Page} (h : Derived ps qs)
    (hp : ∀ p ∈ ps, p.validPos = true → p.nbLines = p.data.count newline) :
    ∀ q ∈ qs, q.validPos = true → q.nbLines = q.data.count newline := by
  intro q hq hv
  rcases h q hq with hq | ⟨h1, -⟩
  · exact hp q hq hv
  · rw [h1] at hv
    cases hv

/-- One access keeps the lines counted, a change of the charset too. -/
theorem lines_run {s : TextBuffer} (h : s.buffer.toPages.LinesCounted) (a : Access) :
    (s.run a).buffer.toPages.LinesCounted := by
  cases a with
  | edit e => exact (derived_edit s.buffer e).lines h
  | load ino file => exact (derived_reloadBuffer s.buffer ino file).lines h
  | setCharset charset => exact h
  | getPos offset => exact (countedFrom_getPosLoop s.charset _ offset 0 0).lines h
  | gotoPos junk line col =>
    have hloop := (countedFrom_gotoPosLoop s.charset line col s.buffer.pageTable 0 0 0).lines h
    intro p hp
    refine hloop p ?_
    simp only [TextBuffer.run, TextBuffer.withPages, ebGotoPosCached] at hp
    split at hp
    · exact hp
    · rwa [gotoColLoop_table] at hp
  | gotoChar pos =>
    have hloop := (countedFrom_gotoCharLoop s.charset s.buffer.pageTable pos).lines h
    intro p hp
    simp only [TextBuffer.run, TextBuffer.withPages, ebGotoCharCached] at hp
    split at hp
    · exact hloop p hp
    · exact h p hp
  | getCharOffset offset =>
    have hloop := (countedFrom_charOffsetLoop s.charset s.buffer.pageTable offset).lines h
    intro p hp
    simp only [TextBuffer.run, TextBuffer.withPages, ebGetCharOffsetCached] at hp
    split at hp
    · exact hloop p hp
    · exact h p hp

/-- In every state that a run reaches, the flagged lines are up to date. -/
theorem lines_never_stale {s : TextBuffer} (h : s.buffer.toPages.LinesCounted) (as : List Access) :
    (s.runs as).buffer.toPages.LinesCounted := by
  induction as generalizing s with
  | nil => exact h
  | cons a as ih => exact ih (lines_run h a)

/-! ## All four -/

/-- The functions agree for an offset exactly when, in UTF-8, the number of bytes at the beginning of the line, in front of the
offset, that go on with no character is a multiple of seven. -/
theorem linesAgree_iff {t : Pages} (ht : t.Ok) (hc : t.LinesCounted) (charset : Charset) {o : Nat} (ho : o ≤ t.totalSize) :
    LinesAgree t charset o ↔ (charset = .utf8 → strayBytes t.bytes o % 7 = 0) := by
  have hlen := ht.length_bytes
  obtain ⟨v, hback, hiff⟩ := exists_backTo_bol charset t.bytes (o := o) (by omega)
  have hbol (junk : Nat → List Byte) : (ebGotoBol t charset junk o).map Prod.snd = some v := by
    obtain ⟨t', ht'⟩ := hback.loop junk ht rfl (n := t.totalSize + 2) (by omega) (by omega)
    rw [ebGotoBol, ht']
    rfl
  have hnext (junk : Nat → List Byte) : (ebNextLine t charset junk o).map Prod.snd = some (nextBolOf t.bytes o : Int) := by
    obtain ⟨t', ht'⟩ := nextLineLoop_spec charset junk ht (o := o) (n := t.totalSize + 2) (by omega)
    rw [ebNextLine, ht']
    rfl
  rw [← hiff]
  constructor
  · rintro ⟨h1, -, -⟩
    have := h1 fun _ => []
    rw [hbol] at this
    exact Option.some.inj this
  · rintro rfl
    exact ⟨hbol, fun junk => ebGotoPos_line ht hc charset junk ho, hnext⟩

/-- A newline, and a byte behind it that goes on with no character. -/
def strayBuffer : EditBuffer := ebInsert (EditBuffer.new false) 0 [newline, 0x80]

theorem strayBuffer_ok : strayBuffer.toPages.Ok := (ebInsert_stands (new_stands false) (Nat.zero_le _) _).ok

theorem strayBuffer_lines : strayBuffer.toPages.LinesCounted := by
  have hflags : ∀ p ∈ strayBuffer.pageTable, p.validPos = false := by decide
  intro p hp hv
  rw [hflags p hp] at hv
  cases hv

/-- The lines are counted before the charset changes, and are not counted anew for it. -/
theorem lines_never_stale_stray :
    ((⟨strayBuffer, .utf8⟩ : TextBuffer).runs [.getPos 2, .setCharset .latin1, .edit (.insert 0 [newline])]).buffer.toPages.LinesCounted :=
  lines_never_stale (s := ⟨strayBuffer, .utf8⟩) strayBuffer_lines _

/-- In front of the stray byte all functions agree. -/
theorem linesAgree_stray : LinesAgree strayBuffer.toPages .utf8 1 :=
  (linesAgree_iff strayBuffer_ok strayBuffer_lines .utf8 (by decide)).mpr (by decide)

/-- Behind it `eb_goto_bol` stays where it is, while the line begins in front of it. -/
theorem not_linesAgree_behind : ¬∀ t : Pages, t.Ok → t.LinesCounted → ∀ charset, ∀ o ≤ t.totalSize, LinesAgree t charset o := by
  intro h
  have hbol := (h _ strayBuffer_ok strayBuffer_lines .utf8 2 (by decide)).1 fun _ => []
  revert hbol
  decide

end Hoe
