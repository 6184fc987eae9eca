import Hoe.Lemmas.Lines
import Hoe.Lemmas.Refine

/-!
# Columns and characters

The columns of a line and the indices of the characters of a text.
-/

namespace Hoe

/-!
## The line and the column of an offset

`eb_get_pos` adds up the lines and columns of the pages in front of the offset. The line is right. A page that begins in the
middle of a character counts each byte that goes on with it as a character, so the column is right exactly when no page does so
between the beginning of the line and the offset.
-/

open Framing

/-- `n` calls of `eb_nextc` lead from the beginning of the line to the offset, and fewer do not. -/
def StepsFromBol (t : Pages) (charset : Charset) (o n : Nat) : Prop :=
  ∀ junk, (nextcWalk t charset junk (bolOf t.bytes o) n).2 = o ∧
    ∀ i < n, (nextcWalk t charset junk (bolOf t.bytes o) i).2 < o

/-- A page that begins in front of the offset, with no newline between, begins in the middle of a character. -/
def SplitsChar (charset : Charset) (ps : List Page) (o : Nat) : Prop :=
  ∃ pre p post, ps = pre ++ p :: post ∧ tableSize pre < o ∧ newline ∉ (tableBytes (p :: post)).take (o - tableSize pre) ∧
    charset.lead (p.data.headD 0) = false

/-- At a boundary the number of calls is the number of characters that begin on the line in front of it. -/
theorem stepsFromBol_iff {t : Pages} (ht : t.Ok) {charset : Charset} {o : Nat} (hb : Boundary charset t.bytes o) (n : Nat) :
    StepsFromBol t charset o n ↔ n = (lastLine (t.bytes.take o)).countP charset.lead := by
  have hlen := ht.length_bytes
  obtain ⟨front, back, htext, hfront, hw, hw'⟩ := hb.whole
  have htake : t.bytes.take o = front := by rw [htext, ← hfront, List.take_left]
  obtain ⟨a, ha, halen, -, hline⟩ := whole_line (hw.append hw')
  have hcut : t.bytes = a ++ (lastLine front ++ back) := by rw [htext, ← List.append_assoc, ← ha]
  have hbol : bolOf t.bytes o = a.length := by
    rw [bolOf_eq_skipLines t.bytes hb.1, halen, htake, ← htext]
  have hno : ∀ o, ¬CutOff charset t.bytes o := not_cutOff_of_whole (by rw [htext]; exact hw.append hw')
  obtain ⟨s1, s2⟩ := Reader.nextcs_whole (r := ⟨t.bytes, charset, []⟩) hcut (hline.of_right hw')
  rw [← ha, hfront] at s1 s2
  have hwalk (junk : Nat → List Byte) (m : Nat) :
      (nextcWalk t charset junk (bolOf t.bytes o) m).2 = Reader.nextcs ⟨t.bytes, charset, []⟩ m a.length := by
    rw [hbol]
    exact (nextcWalk_eq ht (r := ⟨t.bytes, charset, []⟩) rfl hno junk (by rw [← hlen, hcut]; simp) m).1
  simp only [StepsFromBol, hwalk, htake]
  constructor
  · intro h
    obtain ⟨h1, h2⟩ := h fun _ => []
    rcases Nat.lt_trichotomy n ((lastLine front).countP charset.lead) with hlt | heq | hgt
    · have := s2 n hlt
      omega
    · exact heq
    · have := h2 _ hgt
      rw [s1] at this
      exact absurd this (lt_irrefl _)
  · rintro rfl
    exact fun _ => ⟨s1, s2⟩

/-! ### The columns of the pages -/

/-- A character is split at the end of the first page or later. -/
theorem splitsChar_cons (charset : Charset) (p : Page) (ps : List Page) (o : Nat) :
    SplitsChar charset (p :: ps) o ↔
      (0 < o ∧ newline ∉ (tableBytes (p :: ps)).take o ∧ charset.lead (p.data.headD 0) = false) ∨
        SplitsChar charset ps (o - p.size) := by
  constructor
  · rintro ⟨pre, q, post, hps, hlt, hn, hl⟩
    cases pre with
    | nil =>
      obtain ⟨rfl, rfl⟩ := List.cons.inj hps
      exact Or.inl ⟨hlt, hn, hl⟩
    | cons p' pre =>
      obtain ⟨rfl, rfl⟩ := List.cons.inj hps
      rw [tableSize_cons] at hlt hn
      refine Or.inr ⟨pre, q, post, rfl, by omega, ?_, hl⟩
      rwa [Nat.sub_sub]
  · rintro (⟨h1, h2, h3⟩ | ⟨pre, q, post, rfl, hlt, hn, hl⟩)
    · exact ⟨[], p, ps, rfl, h1, h2, h3⟩
    · refine ⟨p :: pre, q, post, rfl, by rw [tableSize_cons]; omega, ?_, hl⟩
      rwa [tableSize_cons, ← Nat.sub_sub]

theorem splitsChar_nil (charset : Charset) (o : Nat) : ¬SplitsChar charset [] o := by
  rintro ⟨pre, q, post, hps, -⟩
  simp at hps

instance decidableSplitsChar (charset : Charset) : ∀ ps o, Decidable (SplitsChar charset ps o)
  | [], o => isFalse (splitsChar_nil charset o)
  | p :: ps, o =>
    have := decidableSplitsChar charset ps (o - p.size)
    decidable_of_iff _ (splitsChar_cons charset p ps o).symm

/-- The line of `eb_get_pos` is right; the column is too high by some amount, which is zero when no page splits a character on
the line. -/
theorem getPosFrom_piece {charset : Charset} {ps : List Page} (hok : ∀ p ∈ ps, p.Ok) {k offset : Nat}
    (h : Piece charset.lead charset.width k (tableBytes ps)) (ho : offset ≤ tableSize ps) (line col : Nat) :
    ∃ extra, (extra = 0 ↔ ¬SplitsChar charset ps offset) ∧
      getPosFrom charset ps offset line col = (line + ((tableBytes ps).take offset).count newline,
        (if newline ∈ (tableBytes ps).take offset then (lastLine ((tableBytes ps).take offset)).countP charset.lead
          else col + ((tableBytes ps).take offset).countP charset.lead) + extra) := by
  induction ps generalizing k offset line col with
  | nil =>
    exact ⟨0, iff_of_true rfl (splitsChar_nil charset offset), by simp [getPosFrom]⟩
  | cons p ps ih =>
    obtain ⟨hp, hps⟩ := List.forall_mem_cons.mp hok
    have hlead := lead_head_iff hp h
    have hpos := hp.pos
    rw [splitsChar_cons, hlead, getPosFrom]
    rw [tableBytes_cons] at h ⊢
    obtain ⟨h1, h2⟩ := (piece_append k _ _).mp h
    by_cases hin : offset < p.size
    · have htake : (p.data ++ tableBytes ps).take offset = p.data.take offset :=
        List.take_append_of_le_length (by rw [hp.data]; omega)
      have hpiece : Piece charset.lead charset.width k (p.data.take offset) := by
        rw [← List.take_append_drop offset p.data] at h1
        exact ((piece_append k _ _).mp h1).1
      have hlen : (p.data.take offset).length = offset := by
        rw [List.length_take, hp.data]
        omega
      rw [if_pos hin, htake, getPos_piece hpiece, show offset - p.size = 0 by omega]
      have hnone : ¬SplitsChar charset ps 0 := by
        rintro ⟨pre, q, post, -, hlt, -⟩
        omega
      by_cases hn : newline ∈ p.data.take offset
      · refine ⟨0, by simp [hn, hnone], ?_⟩
        have hcount := List.count_pos_iff.mpr hn
        simp only [if_pos hn]
        rw [if_neg (by omega), Nat.add_zero]
      · have hcount := List.count_eq_zero.mpr hn
        refine ⟨min k offset, ?_, ?_⟩
        · simp only [hn, hnone, not_false_eq_true, true_and, or_false]
          omega
        · simp only [if_neg hn, hcount, hlen, if_pos]
          rw [Nat.add_comm (min k offset), Nat.add_assoc]
    · have htake : (p.data ++ tableBytes ps).take offset = p.data ++ (tableBytes ps).take (offset - p.size) := by
        rw [List.take_append, hp.data, List.take_of_length_le (by rw [hp.data]; omega)]
      rw [tableSize_cons] at ho
      obtain ⟨extra, i1, i2⟩ := ih hps h2 (show offset - p.size ≤ tableSize ps by omega) (line + (getPos charset p.data).1)
        (if (getPos charset p.data).1 = 0 then col + (getPos charset p.data).2 else (getPos charset p.data).2)
      rw [if_neg hin, htake]
      simp only at i2 ⊢
      rw [i2, getPos_piece h1]
      by_cases hn' : newline ∈ (tableBytes ps).take (offset - p.size)
      · refine ⟨extra, by simp [hn', i1], ?_⟩
        simp only [List.mem_append, hn', or_true, if_true, lastLine_append, List.count_append]
        rw [Nat.add_assoc]
      · have hmem : newline ∈ p.data ++ (tableBytes ps).take (offset - p.size) ↔ newline ∈ p.data := by simp [hn']
        simp only [List.count_append, List.count_eq_zero.mpr hn', Nat.add_zero, hmem, lastLine_append, if_neg hn',
          List.countP_append]
        by_cases hn : newline ∈ p.data
        · have hcount := List.count_pos_iff.mpr hn
          refine ⟨extra, by simp [hn, i1], ?_⟩
          simp only [if_pos hn, if_neg (Nat.pos_iff_ne_zero.mp hcount)]
        · have hcount := List.count_eq_zero.mpr hn
          refine ⟨min k p.data.length + extra, ?_, ?_⟩
          · have hmin : min k p.size = 0 ↔ k = 0 := by omega
            rw [Nat.add_eq_zero_iff, i1, hp.data, hmin]
            simp [hn, show 0 < offset by omega]
          · simp only [if_neg hn, hcount, if_true]
            rw [Prod.mk.injEq]
            exact ⟨rfl, by omega⟩

/-- What `eb_get_pos` returns on a text of whole characters. -/
theorem ebGetPosCached_eq {t : Pages} (ht : t.Ok) {charset : Charset} (hc : t.Counted charset)
    (hw : Whole charset.lead charset.width t.bytes) {o : Nat} (ho : o ≤ t.totalSize) :
    ∃ extra, (extra = 0 ↔ ¬SplitsChar charset t.pageTable o) ∧ (ebGetPosCached t charset o).2 =
      ((t.bytes.take o).count newline, (lastLine (t.bytes.take o)).countP charset.lead + extra) := by
  have htotal := ht.total
  obtain ⟨extra, h1, h2⟩ := getPosFrom_piece ht.pages hw.1 (show o ≤ tableSize t.pageTable by omega) 0 0
  refine ⟨extra, h1, ?_⟩
  rw [show (ebGetPosCached t charset o).2 = getPosFrom charset t.pageTable o 0 0 from (getPosLoop_spec hc o 0 0).1, h2,
    ← t.bytes_eq]
  by_cases hn : newline ∈ t.bytes.take o
  · simp [hn]
  · simp [hn, lastLine_of_not_mem hn]

/-- On a text of whole characters, with its counts up to date, the line and the column of a boundary are those that plain
scanning finds, exactly when no page on the line in front of the offset begins in the middle of a character. -/
theorem ebGetPos_scans_iff {t : Pages} (ht : t.Ok) {charset : Charset} (hc : t.Counted charset) {o : Nat}
    (hb : Boundary charset t.bytes o) :
    ((ebGetPosCached t charset o).2.1 = (t.bytes.take o).count newline ∧
        StepsFromBol t charset o (ebGetPosCached t charset o).2.2) ↔
      ¬SplitsChar charset t.pageTable o := by
  obtain ⟨front, back, htext, -, hw, hw'⟩ := hb.whole
  obtain ⟨extra, h1, h2⟩ := ebGetPosCached_eq ht hc (by rw [htext]; exact hw.append hw') (ht.length_bytes ▸ hb.1)
  rw [stepsFromBol_iff ht hb, h2, ← h1]
  simp

/-- An e with an acute accent, a newline and an A, after a page was inserted in the middle of the accented e and deleted: the
pages are one byte and three. -/
def splitBuffer : EditBuffer :=
  let b := ebInsert (EditBuffer.new false) 0 [0xc3, 0xa9, newline, 0x41]
  ebDelete (ebInsertBuffer b 1 (ebInsert (EditBuffer.new false) 0 [0x62]).toPages 0 1).1 1 1

theorem splitBuffer_ok : splitBuffer.toPages.Ok := by
  have h := ebInsert_stands (new_stands false) (Nat.zero_le _) [0xc3, 0xa9, newline, 0x41]
  have hsrc := ebInsert_stands (new_stands false) (Nat.zero_le _) [0x62]
  exact (ebDelete_stands (ebInsertBuffer_stands h hsrc.ok 1 0 1 (by decide) (by decide)).1 1 1 (by decide)).ok

theorem splitBuffer_boundary : Boundary .utf8 splitBuffer.bytes 2 ∧ Boundary .utf8 splitBuffer.bytes 4 :=
  ⟨⟨by decide, fun _ => ⟨[0xe9], [newline, 0x41], by decide, by decide, by decide⟩⟩,
    ⟨by decide, fun _ => ⟨[0xe9, newline, 0x41], [], by decide, by decide, by decide⟩⟩⟩

theorem splitBuffer_counted : splitBuffer.toPages.Counted .utf8 := by
  have hflags : ∀ p ∈ splitBuffer.pageTable, p.validPos = false ∧ p.validChar = false := by decide
  intro p hp
  obtain ⟨h1, h2⟩ := hflags p hp
  exact ⟨fun h => absurd h (by simp [h1]), fun h => absurd h (by simp [h2])⟩

/-- Behind the newline the split character does not matter. -/
theorem ebGetPos_scans_newline : (ebGetPosCached splitBuffer.toPages .utf8 4).2.1 = (splitBuffer.bytes.take 4).count newline ∧
    StepsFromBol splitBuffer.toPages .utf8 4 (ebGetPosCached splitBuffer.toPages .utf8 4).2.2 :=
  (ebGetPos_scans_iff splitBuffer_ok splitBuffer_counted splitBuffer_boundary.2).mpr (by decide)

/-- Behind the split character the column is two, but `eb_nextc` is called once. -/
theorem not_ebGetPos_scans : ¬∀ t : Pages, t.Ok → ∀ charset, t.Counted charset → ∀ o, Boundary charset t.bytes o →
    (ebGetPosCached t charset o).2.1 = (t.bytes.take o).count newline ∧
      StepsFromBol t charset o (ebGetPosCached t charset o).2.2 := by
  intro h
  obtain ⟨-, h2⟩ := h _ splitBuffer_ok _ splitBuffer_counted _ splitBuffer_boundary.1
  exact absurd ((h2 fun _ => []).2 1 (by decide)) (by decide)

/-!
## Characters by number

In UTF-8 the characters of a text are numbered by the bytes that begin one, whether the text is well formed or not.
`eb_goto_char` finds the offset of a number and `eb_get_char_offset` the number of an offset, over any pages whose counts are up to
date.
-/

open Splice Framing

/-- The offsets of the bytes that begin a character, in increasing order. -/
def charOffsets (text : List Byte) : List Nat := text.findIdxs fun c => !isTail c

/-! ### Texts -/

/-- The characters of two texts. -/
theorem charOffsets_append (a b : List Byte) : charOffsets (a ++ b) = charOffsets a ++ (charOffsets b).map (· + a.length) := by
  unfold charOffsets
  rw [List.findIdxs_append, Nat.zero_add, List.findIdxs_start (s := a.length)]

/-- There are as many offsets as characters are counted. -/
theorem length_charOffsets (text : List Byte) : (charOffsets text).length = getChars .utf8 text := by
  rw [charOffsets, List.length_findIdxs]
  rfl

/-- Each character is in the text. -/
theorem charOffsets_lt {text : List Byte} : ∀ o ∈ charOffsets text, o < text.length := by
  intro o ho
  simpa using List.lt_add_of_mem_findIdxs o ho

/-- The number of an offset. -/
theorem getChars_take (text : List Byte) {o : Nat} (ho : o ≤ text.length) :
    getChars .utf8 (text.take o) = (charOffsets text).countP (· < o) := by
  have hlen : (text.take o).length = o := List.length_take_of_le ho
  have hbelow : (charOffsets (text.take o)).countP (· < o) = (charOffsets (text.take o)).length := by
    rw [List.countP_eq_length]
    intro i hi
    have := charOffsets_lt i hi
    simp only [decide_eq_true_eq]
    omega
  have habove : ((charOffsets (text.drop o)).map (· + o)).countP (· < o) = 0 := by
    rw [List.countP_eq_zero]
    intro i hi
    obtain ⟨j, -, rfl⟩ := List.mem_map.mp hi
    simp
  have hsplit := charOffsets_append (text.take o) (text.drop o)
  rw [List.take_append_drop, hlen] at hsplit
  rw [hsplit, List.countP_append, hbelow, habove, Nat.add_zero, length_charOffsets]

/-- The offset of a number, or the end. -/
theorem gotoChar_eq (text : List Byte) (k : Nat) : gotoChar text k = (charOffsets text).getD k text.length := by
  induction text generalizing k with
  | nil => simp [gotoChar, charOffsets]
  | cons c text ih =>
    have hcons : charOffsets (c :: text) = (if isTail c then [] else [0]) ++ (charOffsets text).map (· + 1) := by
      rw [← List.singleton_append, charOffsets_append]
      cases hc : isTail c <;> simp [charOffsets, hc]
    have hnext (n : Nat) : ((charOffsets text).map (· + 1)).getD n (text.length + 1) = gotoChar text n + 1 := by
      rw [ih]
      exact List.getD_map ..
    rw [gotoChar, hcons, List.length_cons]
    cases hc : isTail c with
    | true =>
      simp only [if_true, List.nil_append]
      exact (hnext k).symm
    | false =>
      cases k with
      | zero => simp
      | succ k =>
        have hpos : ¬((k + 1 : Nat) : Int) ≤ 0 := by omega
        simp only [Bool.false_eq_true, if_false, if_neg hpos, List.singleton_append, List.getD_cons_succ]
        rw [hnext, Nat.cast_succ, Int.add_sub_cancel]

/-! ### Pages -/

/-- `eb_goto_char` finds the offset of the character, or the end. -/
theorem gotoCharFrom_eq {ps : List Page} (h : ∀ p ∈ ps, p.Ok) (k : Nat) :
    gotoCharFrom ps k = (charOffsets (tableBytes ps)).getD k (tableSize ps) := by
  induction ps generalizing k with
  | nil => simp [gotoCharFrom, charOffsets]
  | cons p ps ih =>
    obtain ⟨hp, hps⟩ := List.forall_mem_cons.mp h
    have hlen : (charOffsets p.data).length = getChars .utf8 p.data := length_charOffsets p.data
    rw [gotoCharFrom, tableBytes_cons, tableSize_cons, charOffsets_append]
    by_cases hk : k < getChars .utf8 p.data
    · have hin : k < (charOffsets p.data).length := hlen ▸ hk
      rw [if_pos (by exact_mod_cast hk), gotoChar_eq, List.getD_append _ _ _ _ hin, List.getD_eq_getElem _ _ hin,
        List.getD_eq_getElem _ _ hin]
    · have hrest : (k : Int) - getChars .utf8 p.data = ((k - getChars .utf8 p.data : Nat) : Int) := by omega
      have hshift : ((charOffsets (tableBytes ps)).map (· + p.data.length)).getD (k - getChars .utf8 p.data)
          (tableSize ps + p.data.length) = (charOffsets (tableBytes ps)).getD (k - getChars .utf8 p.data) (tableSize ps) + p.data.length :=
        List.getD_map ..
      rw [if_neg (by exact_mod_cast hk), hrest, ih hps, List.getD_append_right _ _ _ _ (by omega), hlen, Nat.add_comm p.size (tableSize ps),
        ← hp.data, hshift, Nat.add_comm]

/-- `eb_get_char_offset` counts the characters in front. -/
theorem charOffsetFrom_eq {ps : List Page} (h : ∀ p ∈ ps, p.Ok) (o : Nat) :
    charOffsetFrom ps o = getChars .utf8 ((tableBytes ps).take o) := by
  induction ps generalizing o with
  | nil => simp [charOffsetFrom, getChars]
  | cons p ps ih =>
    obtain ⟨hp, hps⟩ := List.forall_mem_cons.mp h
    rw [charOffsetFrom, tableBytes_cons]
    by_cases ho : o < p.size
    · rw [if_pos ho, List.take_append_of_le_length (by rw [hp.data]; omega)]
    · have hall : p.data.take o = p.data := List.take_of_length_le (by rw [hp.data]; omega)
      rw [if_neg ho, ih hps, List.take_append, hall, hp.data]
      simp only [getChars, if_true, List.countP_append]

/-- `eb_goto_char`: the offset of the number, or the end. -/
theorem ebGotoCharCached_eq {t : Pages} (ht : t.Ok) (hc : t.Counted .utf8) (k : Nat) :
    (ebGotoCharCached t .utf8 k).2 = (charOffsets t.bytes).getD k t.totalSize := by
  rw [ebGotoCharCached, if_pos rfl]
  simp only [(gotoCharLoop_spec hc k).1, gotoCharFrom_eq ht.pages, t.bytes_eq, ht.total]

/-- `eb_get_char_offset`: how many characters begin in front of the offset. -/
theorem ebGetCharOffsetCached_eq {t : Pages} (ht : t.Ok) (hc : t.Counted .utf8) {o : Nat} (ho : o ≤ t.totalSize) :
    (ebGetCharOffsetCached t .utf8 o).2 = (charOffsets t.bytes).countP (· < o) := by
  rw [ebGetCharOffsetCached, if_pos rfl]
  simp only [(charOffsetLoop_spec hc o).1, charOffsetFrom_eq ht.pages, ← t.bytes_eq]
  rw [getChars_take _ (by rw [ht.length_bytes]; exact ho)]

/-- Going to a number and back. -/
theorem countP_charOffsets_getD (text : List Byte) {k : Nat} (hk : k ≤ (charOffsets text).length) :
    (charOffsets text).countP (· < (charOffsets text).getD k text.length) = k := by
  rcases Nat.lt_or_eq_of_le hk with hlt | rfl
  · obtain ⟨o, ho⟩ : ∃ o, o = (charOffsets text)[k] := ⟨_, rfl⟩
    have hcut : charOffsets text = (charOffsets text).take k ++ o :: (charOffsets text).drop (k + 1) := by
      rw [ho, ← List.drop_eq_getElem_cons hlt, List.take_append_drop]
    have hsorted : (charOffsets text).Pairwise (· < ·) := List.pairwise_findIdxs
    rw [hcut, List.pairwise_append, List.pairwise_cons] at hsorted
    obtain ⟨-, ⟨habove, -⟩, hbelow⟩ := hsorted
    have hfront : ((charOffsets text).take k).countP (· < o) = k := by
      rw [List.countP_eq_length.mpr, List.length_take_of_le hk]
      intro i hi
      simpa using hbelow i hi o List.mem_cons_self
    have hback : (o :: (charOffsets text).drop (k + 1)).countP (· < o) = 0 := by
      rw [List.countP_eq_zero]
      intro i hi
      rcases List.mem_cons.mp hi with rfl | hi
      · simp
      · have := habove i hi
        simp only [decide_eq_true_eq]
        omega
    rw [List.getD_eq_getElem _ _ hlt, ← ho, hcut, List.countP_append, hfront, hback, Nat.add_zero]
  · rw [List.getD_eq_default _ _ (Nat.le_refl _), List.countP_eq_length]
    intro i hi
    simpa using charOffsets_lt i hi

/-- On whole characters, the offset of a number is as many calls of `eb_nextc` away. -/
theorem getD_charOffsets_nextcs {r : Reader} (hu : r.charset = .utf8) (hw : WellEncoded .utf8 r.text) {k : Nat}
    (hk : k ≤ (charOffsets r.text).length) : ((charOffsets r.text).getD k r.text.length : Int) = r.nextcs k 0 := by
  have hcount (l : List Byte) : (charOffsets l).length = l.countP Charset.utf8.lead := by
    rw [length_charOffsets, getChars, if_pos rfl]
    exact List.countP_congr fun c _ => by rw [Charset.lead_utf8]
  rw [hcount] at hk
  obtain ⟨a, b, htext, ha, hb, hak⟩ := hw.whole.cut_count hk
  have hsteps := (Reader.nextcs_whole (show r.text = [] ++ (a ++ b) from htext) (by rw [hu]; exact ha)).1
  rw [hu, hak] at hsteps
  have hget : (charOffsets r.text).getD k r.text.length = a.length := by
    rw [htext, charOffsets_append, List.getD_append_right _ _ _ _ (by rw [hcount, hak]), hcount, hak, Nat.sub_self]
    cases b with
    | nil => simp [charOffsets]
    | cons c b =>
      have hc : isTail c = false := by simpa [Charset.lead_utf8] using hb.1.1
      simp [charOffsets, hc]
  rw [hget]
  exact hsteps.symm

/-- Under UTF-8, on any text, well formed or not, cut into pages in any way: `eb_goto_char` finds the offset of a number,
`eb_get_char_offset` counts the offsets below, one takes the other back, and on whole characters the offset is as many calls of
`eb_nextc` away. -/
theorem char_index {t : Pages} (ht : t.Ok) (hc : t.Counted .utf8) :
    (∀ k, (h : k < (charOffsets t.bytes).length) → (ebGotoCharCached t .utf8 k).2 = (charOffsets t.bytes)[k]) ∧
      (∀ k, (charOffsets t.bytes).length ≤ k → (ebGotoCharCached t .utf8 k).2 = t.totalSize) ∧
      (∀ o, o ≤ t.totalSize → (ebGetCharOffsetCached t .utf8 o).2 = (charOffsets t.bytes).countP (· < o)) ∧
      (∀ k, k ≤ (charOffsets t.bytes).length → ∀ t' offset, ebGotoCharCached t .utf8 k = (t', offset) →
        (ebGetCharOffsetCached t' .utf8 offset.toNat).2 = k) ∧
      (WellEncoded .utf8 t.bytes → ∀ k, k ≤ (charOffsets t.bytes).length → ∀ junk,
        (ebGotoCharCached t .utf8 k).2 = (nextcWalk t .utf8 junk 0 k).2) := by
  have hlen := ht.length_bytes
  refine ⟨?_, ?_, fun o ho => ebGetCharOffsetCached_eq ht hc ho, ?_, ?_⟩
  · intro k hk
    rw [ebGotoCharCached_eq ht hc, List.getD_eq_getElem _ _ hk]
  · intro k hk
    rw [ebGotoCharCached_eq ht hc, List.getD_eq_default _ _ hk]
  · intro k hk t' offset h
    have hrec := (gotoCharLoop_spec hc k).2
    obtain ⟨hok, hbytes⟩ := hrec.pages ht
    have hgo := ebGotoCharCached_eq ht hc k
    rw [h] at hgo
    have ht' : t' = { t with pageTable := (gotoCharLoop t.pageTable k).1 } := by
      rw [ebGotoCharCached, if_pos rfl] at h
      exact (Prod.mk.inj h).1.symm
    rw [← ht'] at hok hbytes
    have hc' : t'.Counted .utf8 := by
      rw [ht']
      exact hrec.2
    obtain ⟨o, ho⟩ : ∃ o, o = (charOffsets t.bytes).getD k t.totalSize := ⟨_, rfl⟩
    have htotal : t'.totalSize = t.totalSize := by rw [ht']
    have hle : o ≤ t'.totalSize := by
      rw [htotal, ho, ← hlen]
      rcases Nat.lt_or_ge k (charOffsets t.bytes).length with hlt | hge
      · rw [List.getD_eq_getElem _ _ hlt]
        exact Nat.le_of_lt (charOffsets_lt _ (List.getElem_mem hlt))
      · rw [List.getD_eq_default _ _ hge]
    rw [← ho] at hgo
    simp only at hgo
    rw [hgo, Int.toNat_natCast, ebGetCharOffsetCached_eq hok hc' hle, hbytes, ho, ← hlen, countP_charOffsets_getD _ hk]
  · intro hw k hk junk
    obtain ⟨r, hr⟩ : ∃ r : Reader, r = ⟨t.bytes, .utf8, []⟩ := ⟨_, rfl⟩
    have hu : r.charset = .utf8 := by rw [hr]
    have htext : r.text = t.bytes := by rw [hr]
    have hno : ∀ o, ¬CutOff r.charset r.text o := by
      rw [hu, htext]
      exact not_cutOff_of_whole hw.whole
    have hwalk := (nextcWalk_eq ht htext hno junk (Nat.zero_le _) k).1
    rw [hu, Nat.cast_zero] at hwalk
    rw [← htext] at hw hk
    have hsteps := getD_charOffsets_nextcs hu hw hk
    rw [htext, hlen] at hsteps
    rw [ebGotoCharCached_eq ht hc, hsteps]
    exact hwalk.symm

/-- The newline behind an accented e that two pages share has the number one and the offset two. -/
theorem char_index_split : (ebGotoCharCached splitBuffer.toPages .utf8 1).2 = (charOffsets splitBuffer.bytes)[1] ∧
    (ebGotoCharCached splitBuffer.toPages .utf8 1).2 = (nextcWalk splitBuffer.toPages .utf8 (fun _ => []) 0 1).2 := by
  obtain ⟨h1, -, -, -, h5⟩ := char_index splitBuffer_ok splitBuffer_counted
  exact ⟨h1 1 (by decide), h5 (fun _ => ⟨[0xe9, newline, 0x41], by decide, by decide⟩) 1 (by decide) _⟩

end Hoe
