import Hoe.Colorize
import Hoe.Lemmas.Bol

/-!
# Helpers for `Theorems/Colorize.lean`: lines

`eb_get_pos` and `eb_goto_pos` know where the lines begin, `eb_get_line` reads a line and stops in front of the next, and what it
reads of a line that a newline ends depends on nothing but the bytes of the line (`line_prefix`).
-/

namespace Hoe

/-! ## Where the lines begin -/

theorem getPosFrom_line (charset : Charset) {ps : List Page} (hok : ∀ p ∈ ps, p.Ok) (offset line col : Nat) :
    (getPosFrom charset ps offset line col).1 = line + ((tableBytes ps).take offset).count newline := by
  induction ps generalizing offset line col with
  | nil => simp [getPosFrom]
  | cons p ps ih =>
    obtain ⟨hp, hps⟩ := List.forall_mem_cons.1 hok
    have hlen : p.data.length = p.size := hp.data
    rw [getPosFrom, tableBytes_cons, List.take_append, List.count_append]
    dsimp only
    by_cases hin : offset < p.size
    · rw [if_pos hin, Nat.sub_eq_zero_of_le (by omega), List.take_zero, List.count_nil, Nat.add_zero]
      rfl
    · have hall : p.data.take offset = p.data := List.take_of_length_le (by omega)
      rw [if_neg hin, ih hps, hall, hlen, getPos, Nat.add_assoc]

/-- `eb_get_pos` counts the newlines in front of the offset. -/
theorem ebGetPos_line {t : Pages} (ht : t.Ok) (charset : Charset) (offset : Nat) :
    (ebGetPos t charset offset).1 = (t.bytes.take offset).count newline := by
  rw [ebGetPos, Int.toNat_natCast, getPosFrom_line charset ht.pages, Nat.zero_add]
  rfl

/-- `eb_goto_pos` for the beginning of a line, from a page on in front of which the line does not begin. -/
theorem gotoPosFrom_bol (r : Reader) {ps : List Page} (hok : ∀ p ∈ ps, p.Ok) {n line : Nat} (offset col : Nat) (hline : line ≤ n)
    (hn : n ≤ line + (tableBytes ps).count newline) (hps : ps = [] → offset = r.text.length) :
    gotoPosFrom r n 0 ps offset line col = (offset + skipLines (n - line) (tableBytes ps) : Nat) := by
  induction ps generalizing offset line col with
  | nil =>
    have hzero : n - line = 0 := by
      rw [tableBytes_nil, List.count_nil] at hn
      omega
    rw [gotoPosFrom, hzero, skipLines, Nat.add_zero, hps rfl]
    rfl
  | cons p ps ih =>
    obtain ⟨hp, hok'⟩ := List.forall_mem_cons.1 hok
    have hlines : (getPos r.charset p.data).1 = p.data.count newline := rfl
    rw [tableBytes_cons] at hn ⊢
    rw [List.count_append] at hn
    rw [gotoPosFrom]
    dsimp only
    rw [hlines]
    by_cases hstop : n ≤ line + p.data.count newline
    · rw [if_pos (by omega), skipLines_append (by omega), Nat.zero_sub, gotoCol]
    · obtain ⟨k, hk⟩ : ∃ k, n - line = p.data.count newline + (k + 1) := ⟨n - line - p.data.count newline - 1, by omega⟩
      have hnext : n - (line + p.data.count newline) = k + 1 := by omega
      rw [if_neg (by omega), hk, skipLines_add, ih hok' _ _ (by omega) (by omega), hnext, ← Nat.add_assoc]
      · rw [← hp.data, Nat.add_assoc]
      · intro hnil
        rw [hnil, tableBytes_nil, List.count_nil] at hn
        omega

/-- `eb_goto_pos` finds the beginning of a line. -/
theorem ebGotoPos_bol {t : Pages} (ht : t.Ok) {r : Reader} (hr : r.text = t.bytes) {n : Nat} (hn : n ≤ t.bytes.count newline) :
    ebGotoPos t r n 0 = (skipLines n t.bytes : Nat) := by
  have hbytes : tableBytes t.pageTable = t.bytes := rfl
  rw [ebGotoPos, gotoPosFrom_bol r ht.pages 0 0 (Nat.zero_le n) (by rw [hbytes, Nat.zero_add]; exact hn), hbytes, Nat.sub_zero,
    Nat.zero_add]
  intro hnil
  rw [hr, ← hbytes, hnil]
  rfl

/-! ## Reading a line -/

/-- Behind the first line the lines begin as they do in the rest alone. -/
theorem skipLines_line {line : List Byte} (hline : newline ∉ line) (rest : List Byte) (n : Nat) :
    skipLines (n + 1) (line ++ newline :: rest) = line.length + 1 + skipLines n rest := by
  have hidx : (line ++ newline :: rest).idxOf newline = line.length := by
    rw [List.idxOf_append_of_notMem hline, List.idxOf_cons_self, Nat.add_zero]
  have hdrop : (line ++ newline :: rest).drop (line.length + 1) = rest := by
    rw [List.drop_append, List.drop_eq_nil_of_le (Nat.le_succ _), Nat.add_sub_cancel_left]
    rfl
  rw [skipLines, hidx, hdrop]

/-- A line that a newline ends, and what follows it: the next line begins behind the newline. -/
theorem exists_whole_line {text : List Byte} {n : Nat} (hn : n < text.count newline) :
    ∃ line rest, text.drop (skipLines n text) = line ++ newline :: rest ∧ newline ∉ line ∧
      skipLines (n + 1) text = skipLines n text + (line.length + 1) := by
  have hmem : newline ∈ text := List.count_pos_iff.1 (by omega)
  obtain ⟨first, rest, rfl, hfirst⟩ := List.eq_append_cons_of_mem hmem
  induction n generalizing first rest with
  | zero => exact ⟨first, rest, rfl, hfirst, by rw [skipLines_line hfirst]; simp [skipLines]⟩
  | succ n ih =>
    have hrest : n < rest.count newline := by
      rw [List.count_append, List.count_eq_zero_of_not_mem hfirst, List.count_cons_self] at hn
      omega
    obtain ⟨first', rest', rfl, hfirst'⟩ := List.eq_append_cons_of_mem (List.count_pos_iff.1 (by omega : 0 < rest.count newline))
    obtain ⟨line, rest'', h1, h2, h3⟩ := ih first' rest' hfirst' hrest (by simp)
    refine ⟨line, rest'', ?_, h2, ?_⟩
    · rw [skipLines_line hfirst, ← List.drop_drop, List.drop_append, List.drop_eq_nil_of_le (Nat.le_succ _), Nat.add_sub_cancel_left]
      exact h1
    · rw [skipLines_line hfirst, h3, skipLines_line hfirst]
      omega

namespace Reader

/-- The characters from the offset to the end of the line, `n` at most. -/
def lineFrom (r : Reader) : Nat → Int → List Nat
  | 0, _ => []
  | n + 1, offset => if (r.nextc offset).1 = newline then [] else (r.nextc offset).1 :: lineFrom r n (r.nextc offset).2

/-- The characters of a line. -/
def line (r : Reader) (n : Nat) : List Nat := r.lineFrom r.turns (skipLines n r.text)

/-- `eb_get_line` stores the characters of the line as far as there is room. -/
theorem getLineLoop_chars (r : Reader) (bufSize n : Nat) (buf : List Nat) (hbuf : buf.length ≤ bufSize) (offset : Int) :
    (getLineLoop r bufSize n buf offset).1 = (buf ++ r.lineFrom n offset).take bufSize := by
  induction n generalizing buf offset with
  | zero => rw [getLineLoop, lineFrom, List.append_nil, List.take_of_length_le hbuf]
  | succ n ih =>
    rw [getLineLoop, lineFrom]
    split_ifs with hend hroom
    · rw [List.append_nil, List.take_of_length_le hbuf]
    · rw [ih _ (by rw [List.length_append, List.length_singleton]; exact hroom), List.append_assoc, List.singleton_append]
    · have hfull : buf.length = bufSize := by omega
      rw [ih _ hbuf, ← hfull, List.take_left, List.take_left]

theorem lt_of_drop_cons {text : List Byte} {o : Nat} {d : Byte} {x : List Byte} (h : text.drop o = d :: x) :
    ∃ ho : o < text.length, text[o] = d := by
  have ho : o < text.length := by
    by_contra hge
    rw [List.drop_eq_nil_of_le (by omega)] at h
    nomatch h
  rw [List.drop_eq_getElem_cons ho] at h
  exact ⟨ho, (List.cons.inj h).1⟩

/-- Inside of a line that a newline ends, `eb_nextc` reads a character of the line, whatever is behind the newline. -/
theorem nextc_in_line (charset : Charset) {d : Byte} {p : List Byte} (hd : d ≠ newline) :
    ∃ c k : Nat, c ≠ newline ∧ 0 < k ∧ k ≤ p.length + 1 ∧ ∀ (r : Reader) (o : Nat) (x : List Byte), r.charset = charset →
      r.text.drop o = d :: (p ++ newline :: x) → r.nextc o = (c, ((o + k : Nat) : Int)) := by
  by_cases hu : charset = .utf8
  · obtain ⟨q, hq⟩ : ∃ q, q = p ++ [newline] := ⟨_, rfl⟩
    have htaken := utf8Decode_taken (d :: q)
    have hrun : tailRun q ≤ p.length := by
      rw [hq]
      exact tailRun_append_le p (by decide) []
    rw [List.headD_cons, List.tail_cons] at htaken
    refine ⟨(utf8Decode (d :: q)).1, (utf8Decode (d :: q)).2, ?_, utf8Decode_taken_pos _, by omega, ?_⟩
    · intro hnewline
      exact hd ((utf8Decode_newline d q).1 hnewline)
    · intro r o x hr h
      rw [hu] at hr
      have hwhole : ¬ CutOff .utf8 r.text o := by
        rintro ⟨_, _, _, htails⟩
        have hnewline : newline ∈ r.text.drop (o + 1) := by
          rw [← List.drop_drop, h]
          simp
        exact absurd (htails newline hnewline) (by decide)
      have hsplit : d :: (p ++ newline :: x) = d :: (q ++ x) := by rw [hq, List.append_assoc, List.singleton_append]
      have hbreak : ∃ c ∈ q, isTail c = false := ⟨newline, by rw [hq]; simp, by decide⟩
      rw [nextc_whole hr (lt_of_drop_cons h).1 hwhole, h, hsplit, utf8Decode_append d x (Or.inr hbreak), Nat.cast_add]
  · refine ⟨d, 1, hd, Nat.one_pos, by omega, ?_⟩
    intro r o x hr h
    obtain ⟨ho, hget⟩ := lt_of_drop_cons h
    rw [nextc_byte (hr ▸ hu) ho, List.getD_eq_getElem _ _ ho, hget]
    rfl

/-- A line that a newline ends is read to its end, and what is read depends on nothing but its bytes. -/
theorem exists_chars (charset : Charset) {a : List Byte} (ha : newline ∉ a) :
    ∃ chars, ∀ (r : Reader) (o : Nat) (x : List Byte), r.charset = charset → r.text.drop o = a ++ newline :: x →
      ∀ n, a.length < n → r.lineFrom n o = chars ∧
        ∀ bufSize buf, (getLineLoop r bufSize n buf o).2 = ((o + (a.length + 1) : Nat) : Int) := by
  obtain ⟨m, hm⟩ : ∃ m, a.length ≤ m := ⟨_, le_rfl⟩
  induction m generalizing a with
  | zero =>
    obtain rfl := List.length_eq_zero_iff.1 (Nat.le_zero.1 hm)
    refine ⟨[], ?_⟩
    intro r o x _ h n hn
    obtain ⟨n, rfl⟩ : ∃ k, n = k + 1 := ⟨n - 1, by rw [List.length_nil] at hn; omega⟩
    obtain ⟨ho, hget⟩ := lt_of_drop_cons h
    have hnewline := (nextc_newline ho).2 hget
    refine ⟨by rw [lineFrom, if_pos hnewline], ?_⟩
    intro bufSize buf
    rw [getLineLoop, if_pos hnewline, nextc_at_newline ho hget]
    rfl
  | succ m ih =>
    cases a with
    | nil => exact ih ha (Nat.zero_le m)
    | cons d p =>
      rw [List.mem_cons, not_or] at ha
      obtain ⟨c, k, hc, hpos, hle, hread⟩ := nextc_in_line charset (p := p) (Ne.symm ha.1)
      have hrest : newline ∉ (d :: p).drop k := fun hmem => by
        rcases List.mem_cons.1 (List.mem_of_mem_drop hmem) with hd | hp
        · exact ha.1 hd
        · exact ha.2 hp
      have hlen : ((d :: p).drop k).length = p.length + 1 - k := by rw [List.length_drop, List.length_cons]
      rw [List.length_cons] at hm
      obtain ⟨chars, hchars⟩ := ih hrest (by omega)
      refine ⟨c :: chars, ?_⟩
      intro r o x hr h n hn
      obtain ⟨n, rfl⟩ : ∃ k, n = k + 1 := ⟨n - 1, by omega⟩
      rw [List.length_cons] at hn
      have hnext := hread r o x hr h
      have hdrop : r.text.drop (o + k) = (d :: p).drop k ++ newline :: x := by
        rw [← List.drop_drop, h, List.drop_append_of_le_length (by rw [List.length_cons]; exact hle)]
      obtain ⟨h1, h2⟩ := hchars r (o + k) x hr hdrop n (by omega)
      refine ⟨?_, ?_⟩
      · rw [lineFrom, hnext, if_neg hc, h1]
      · intro bufSize buf
        rw [getLineLoop, hnext, if_neg hc, h2, hlen, List.length_cons]
        congr 1
        omega

/-- The line is within the turns that the loops have. -/
theorem lt_turns {r : Reader} {o : Nat} {a x : List Byte} (h : r.text.drop o = a ++ newline :: x) : a.length < r.turns := by
  have hlen := congrArg List.length h
  rw [List.length_drop, List.length_append, List.length_cons] at hlen
  rw [turns]
  omega

/-- `eb_get_line` stores the line, as far as there is room. -/
theorem ebGetLine_chars (r : Reader) (bufSize n : Nat) : (ebGetLine r bufSize (skipLines n r.text : Nat)).1 = (r.line n).take bufSize := by
  rw [ebGetLine, getLineLoop_chars _ _ _ _ (Nat.zero_le _), List.nil_append]
  rfl

/-- `eb_get_line` ends at the beginning of the next line. -/
theorem ebGetLine_next {r : Reader} {n : Nat} (hn : n < r.text.count newline) (bufSize : Nat) :
    (ebGetLine r bufSize (skipLines n r.text : Nat)).2 = (skipLines (n + 1) r.text : Nat) := by
  obtain ⟨line, rest, hdrop, hline, hnext⟩ := exists_whole_line hn
  obtain ⟨chars, hchars⟩ := exists_chars r.charset hline
  rw [ebGetLine, (hchars r _ rest rfl hdrop _ (lt_turns hdrop)).2, hnext]

/-- A line that a newline ends is the same in every text that begins alike. -/
theorem line_prefix {charset : Charset} {text more : List Byte} {n : Nat} (hn : n < text.count newline) (stack stack' : List Byte) :
    (Reader.mk (text ++ more) charset stack).line n = (Reader.mk text charset stack').line n := by
  obtain ⟨line, rest, hdrop, hline, hnext⟩ := exists_whole_line hn
  obtain ⟨chars, hchars⟩ := exists_chars charset hline
  have hle : skipLines n text ≤ text.length := by
    by_contra hgt
    rw [List.drop_eq_nil_of_le (by omega)] at hdrop
    cases line <;> nomatch hdrop
  have hdrop' : (text ++ more).drop (skipLines n text) = line ++ newline :: (rest ++ more) := by
    rw [List.drop_append_of_le_length hle, hdrop, List.append_assoc, List.cons_append]
  have hturns : line.length < (Reader.mk (text ++ more) charset stack).turns := lt_turns hdrop'
  have hturns' : line.length < (Reader.mk text charset stack').turns := lt_turns hdrop
  rw [Reader.line, Reader.line]
  dsimp only
  rw [skipLines_append hn.le, (hchars ⟨text ++ more, charset, stack⟩ _ _ rfl hdrop' _ hturns).1,
    (hchars ⟨text, charset, stack'⟩ _ _ rfl hdrop _ hturns').1]

/-- In a charset of single bytes the characters of a line are its bytes. -/
theorem lineFrom_bytes {r : Reader} (hu : r.charset ≠ .utf8) {n o : Nat} (hn : r.text.length < o + n) :
    r.lineFrom n o = (r.text.drop o).takeWhile (· != newline) := by
  induction n generalizing o with
  | zero =>
    rw [lineFrom, List.drop_eq_nil_of_le (by omega)]
    rfl
  | succ n ih =>
    rw [lineFrom]
    by_cases ho : o < r.text.length
    · rw [nextc_byte hu ho, List.getD_eq_getElem _ _ ho, List.drop_eq_getElem_cons ho]
      by_cases hnewline : r.text[o] = newline
      · rw [if_pos hnewline, hnewline]
        rfl
      · have hne : (r.text[o] != newline) = true := bne_iff_ne.2 hnewline
        rw [if_neg hnewline, List.takeWhile_cons, if_pos hne, ← ih (by omega)]
        rfl
    · have hend : (r.nextc o).1 = newline := by
        rw [nextc, if_pos (by rw [total]; omega)]
      rw [if_pos hend, List.drop_eq_nil_of_le (by omega)]
      rfl

theorem line_bytes {r : Reader} (hu : r.charset ≠ .utf8) (n : Nat) :
    r.line n = (r.text.drop (skipLines n r.text)).takeWhile (· != newline) :=
  lineFrom_bytes hu (by rw [turns]; omega)

end Reader

end Hoe
