import Hoe.Lib.Framing
import Hoe.Lemmas.CountsKept
import Hoe.Lemmas.Reading

/-!
# Lines of characters

A text of whole characters is a stream of frames, a page a piece of one. `eb_nextc` goes over a frame, and stops at a newline
wherever it stands; `get_pos` counts the frames that begin in a piece, and the bytes that go on with a character begun before.
-/

namespace Hoe

open Splice Framing

/-- The byte begins a character. -/
def Charset.lead (charset : Charset) (c : Nat) : Bool := !(charset = .utf8 && isTail c)

/-- How many bytes the character has that the byte begins. -/
def Charset.width (charset : Charset) (c : Nat) : Nat := if charset = .utf8 then utf8Length c else 1

/-- In UTF-8 the bytes that lead are those that are no tails. -/
theorem Charset.lead_utf8 (c : Nat) : Charset.utf8.lead c = !isTail c := by simp [Charset.lead]

theorem Charset.lead_eq_false {charset : Charset} {c : Nat} : charset.lead c = false ↔ charset = .utf8 ∧ isTail c = true := by
  simp [Charset.lead]

/-- A newline is a character in each charset. -/
theorem Charset.lead_newline (charset : Charset) : charset.lead newline = true := by
  cases charset <;> decide

theorem Charset.width_newline (charset : Charset) : charset.width newline = 1 := by
  cases charset <;> decide

/-- A tail byte alone is taken for one byte. -/
theorem Charset.width_of_tail {charset : Charset} {c : Nat} (h : charset.lead c = false) : charset.width c = 1 := by
  obtain ⟨hu, ht⟩ := lead_eq_false.mp h
  rw [width, if_pos hu, utf8Length_tail ht]

/-- In the charsets other than UTF-8 every text is whole characters. -/
theorem whole_bytes {charset : Charset} (hu : charset ≠ .utf8) (l : List Nat) : Whole charset.lead charset.width l := by
  induction l with
  | nil => exact .nil
  | cons c l ih =>
    refine Whole.cons (q := []) ?_ ?_ (by simp) ih
    · simp [Charset.lead, hu]
    · simp [Charset.width, hu]

/-- Accepted characters are encoded as whole ones. -/
theorem whole_encoded {cs : List Nat} (h : ∀ c ∈ cs, Accepted c) :
    Whole Charset.utf8.lead Charset.utf8.width (cs.flatMap utf8Encode) := by
  induction cs with
  | nil => exact .nil
  | cons c cs ih =>
    obtain ⟨hc, hcs⟩ := List.forall_mem_cons.mp h
    obtain ⟨a, q, hq, hlen, ha, ht, -⟩ := utf8Encode_cons hc
    rw [List.flatMap_cons, hq]
    refine Whole.cons ?_ ?_ (fun x hx => ?_) (ih hcs)
    · rw [Charset.lead_utf8, ha]
      rfl
    · rw [Charset.width, if_pos rfl, hlen, Nat.add_sub_cancel]
    · rw [Charset.lead_utf8, ht x hx]
      rfl

/-- So a well encoded text consists of whole characters. -/
theorem WellEncoded.whole {charset : Charset} {text : List Byte} (h : WellEncoded charset text) :
    Whole charset.lead charset.width text := by
  by_cases hu : charset = .utf8
  · obtain ⟨cs, hcs, htext⟩ := h hu
    rw [hu, htext]
    exact whole_encoded hcs
  · exact whole_bytes hu text

/-- At a boundary the text is cut into whole characters. -/
theorem Boundary.whole {charset : Charset} {text : List Byte} {o : Nat} (h : Boundary charset text o) :
    ∃ front back, text = front ++ back ∧ front.length = o ∧ Whole charset.lead charset.width front ∧
      Whole charset.lead charset.width back := by
  obtain ⟨ho, hw⟩ := h
  by_cases hu : charset = .utf8
  · obtain ⟨front, back, hacc, htext, hfront⟩ := hw hu
    subst hu
    refine ⟨front.flatMap utf8Encode, back.flatMap utf8Encode, ?_, hfront.symm, ?_, ?_⟩
    · rw [htext, List.flatMap_append]
    · exact whole_encoded fun c hc => hacc c (List.mem_append_left _ hc)
    · exact whole_encoded fun c hc => hacc c (List.mem_append_right _ hc)
  · exact ⟨text.take o, text.drop o, (List.take_append_drop o text).symm, by rw [List.length_take]; omega,
      whole_bytes hu _, whole_bytes hu _⟩

/-! ## The last line -/

/-- The last line behind another byte. -/
theorem lastLine_snoc (l : List Byte) (c : Nat) : lastLine (l ++ [c]) = if c = newline then [] else lastLine l ++ [c] := by
  simp [lastLine, List.foldl_append]

@[simp] theorem lastLine_nil : lastLine [] = [] := rfl

/-- The last line of two texts. -/
theorem lastLine_append (a b : List Byte) : lastLine (a ++ b) = if newline ∈ b then lastLine b else lastLine a ++ b := by
  induction b using List.reverseRecOn with
  | nil => simp
  | append_singleton b c ih =>
    rw [← List.append_assoc, lastLine_snoc, lastLine_snoc, ih]
    by_cases hc : c = newline
    · simp [hc]
    · simp only [if_neg hc, List.mem_append, List.mem_singleton, Ne.symm hc, or_false]
      split <;> simp

theorem lastLine_of_not_mem {l : List Byte} (h : newline ∉ l) : lastLine l = l := by
  have := lastLine_append [] l
  rwa [if_neg h, lastLine_nil] at this

/-- The last line has no newline, and in front of it stands a newline or nothing. -/
theorem exists_lastLine (l : List Byte) : newline ∉ lastLine l ∧
    ∃ a, l = a ++ lastLine l ∧ ((a = [] ∧ newline ∉ l) ∨ ∃ a', a = a' ++ [newline]) := by
  induction l using List.reverseRecOn with
  | nil => exact ⟨by simp, [], rfl, Or.inl ⟨rfl, by simp⟩⟩
  | append_singleton l c ih =>
    obtain ⟨h1, a, h2, h3⟩ := ih
    rw [lastLine_snoc]
    by_cases hc : c = newline
    · rw [if_pos hc, hc]
      exact ⟨by simp, l ++ [newline], by simp, Or.inr ⟨l, rfl⟩⟩
    · rw [if_neg hc]
      refine ⟨by simp [h1, Ne.symm hc], a, by rw [← List.append_assoc, ← h2], h3.imp (fun h => ⟨h.1, ?_⟩) id⟩
      simp [h.2, Ne.symm hc]

/-- The last line of a piece with a newline is a piece in front of which nothing is owed. -/
theorem piece_lastLine {charset : Charset} {k : Nat} {l : List Byte} (h : Piece charset.lead charset.width k l)
    (hn : newline ∈ l) : Piece charset.lead charset.width 0 (lastLine l) := by
  obtain ⟨-, a, ha, ⟨-, hno⟩ | ⟨a', ha'⟩⟩ := exists_lastLine l
  · exact absurd hn hno
  · rw [ha, ha', List.append_assoc, piece_append] at h
    obtain ⟨-, h2⟩ := h
    rw [List.singleton_append] at h2
    rw [h2.owed_eq_zero charset.lead_newline] at h2
    have := h2.2
    rwa [charset.width_newline] at this

/-! ## The beginnings of lines -/

/-- Lines are skipped byte by byte. -/
theorem skipLines_cons (n c : Nat) (l : List Nat) :
    skipLines (n + 1) (c :: l) = 1 + if c = newline then skipLines n l else skipLines (n + 1) l := by
  by_cases hc : c = newline
  · rw [if_pos hc, skipLines, hc, List.idxOf_cons_self, Nat.zero_add, List.drop_succ_cons, List.drop_zero]
  · rw [if_neg hc, skipLines, skipLines, List.idxOf_cons_ne _ hc, List.drop_succ_cons]
    omega

/-- Lines that the first text has are skipped in it. -/
theorem skipLines_append {n : Nat} {a : List Nat} (h : n ≤ a.count newline) (b : List Nat) :
    skipLines n (a ++ b) = skipLines n a := by
  induction a generalizing n with
  | nil =>
    rw [List.count_nil] at h
    rw [Nat.le_zero.mp h]
    rfl
  | cons c a ih =>
    cases n with
    | zero => rfl
    | succ n =>
      rw [List.cons_append, skipLines_cons, skipLines_cons]
      by_cases hc : c = newline
      · rw [hc, List.count_cons_self] at h
        rw [if_pos hc, if_pos hc, ih (by omega)]
      · rw [List.count_cons_of_ne hc] at h
        rw [if_neg hc, if_neg hc, ih h]

/-- A line that begins behind a block begins as far behind it as in the rest alone. -/
theorem skipLines_add (a b : List Nat) (n : Nat) :
    skipLines (a.count newline + (n + 1)) (a ++ b) = a.length + skipLines (n + 1) b := by
  induction a with
  | nil => simp
  | cons c a ih =>
    rw [List.cons_append, List.length_cons, ← Nat.add_assoc, skipLines_cons]
    by_cases hc : c = newline
    · rw [if_pos hc, hc, List.count_cons_self, Nat.add_right_comm, Nat.add_assoc _ n 1, ih]
      omega
    · rw [if_neg hc, List.count_cons_of_ne hc, Nat.add_assoc _ n 1, ih]
      omega

/-- Behind all its newlines a block has its last line. -/
theorem skipLines_count (a : List Nat) : skipLines (a.count newline) a + (lastLine a).length = a.length := by
  induction a with
  | nil => rfl
  | cons c a ih =>
    rw [show c :: a = [c] ++ a from rfl, lastLine_append, List.singleton_append, List.length_cons]
    by_cases hn : newline ∈ a
    · have hpos := List.count_pos_iff.mpr hn
      obtain ⟨m, hm⟩ : ∃ m, a.count newline = m + 1 := ⟨a.count newline - 1, by omega⟩
      rw [if_pos hn]
      by_cases hc : c = newline
      · rw [hc, List.count_cons_self, skipLines_cons, if_pos rfl]
        omega
      · rw [List.count_cons_of_ne hc, hm, skipLines_cons, if_neg hc, ← hm]
        omega
    · have hzero := List.count_eq_zero.mpr hn
      rw [if_neg hn]
      by_cases hc : c = newline
      · rw [hc, List.count_cons_self, hzero, skipLines_cons, if_pos rfl]
        simp [skipLines, lastLine]
        omega
      · rw [List.count_cons_of_ne hc, hzero]
        simp [skipLines, lastLine, hc]

/-- One past the last newline in front of the offset, or 0. -/
def bolOf (text : List Byte) : Nat → Nat
  | 0 => 0
  | o + 1 => if text.getD o 0 = newline then o + 1 else bolOf text o

/-- The line begins as far back as it is long so far. -/
theorem bolOf_eq (text : List Byte) {o : Nat} (ho : o ≤ text.length) :
    bolOf text o + (lastLine (text.take o)).length = o := by
  induction o with
  | zero => simp [bolOf]
  | succ o ih =>
    have := ih (by omega)
    rw [bolOf, List.take_succ_eq_append_getElem ho, lastLine_snoc, getD_of_lt _ ho]
    by_cases hc : text[o] = newline
    · rw [if_pos hc, if_pos hc]
      rfl
    · rw [if_neg hc, if_neg hc, List.length_append, List.length_singleton]
      omega

/-- It begins behind as many newlines as there are in front of the offset. -/
theorem bolOf_eq_skipLines (text : List Byte) {o : Nat} (ho : o ≤ text.length) :
    bolOf text o = skipLines ((text.take o).count newline) text := by
  have h1 := bolOf_eq text ho
  have h2 := skipLines_count (text.take o)
  have h3 := skipLines_append (Nat.le_refl ((text.take o).count newline)) (text.drop o)
  rw [List.take_append_drop] at h3
  rw [List.length_take] at h2
  omega

/-- A cut text of whole characters, cut again where the line of the cut begins. -/
theorem whole_line {charset : Charset} {front back : List Byte} (h : Whole charset.lead charset.width (front ++ back)) :
    ∃ a, front = a ++ lastLine front ∧ a.length = skipLines (front.count newline) (front ++ back) ∧
      Whole charset.lead charset.width a ∧ Whole charset.lead charset.width (lastLine front ++ back) := by
  obtain ⟨-, a, ha, hstart⟩ := exists_lastLine front
  have hskip := skipLines_count front
  have hlen := congrArg List.length ha
  rw [List.length_append] at hlen
  refine ⟨a, ha, by rw [skipLines_append (Nat.le_refl _)]; omega, ?_⟩
  rw [ha, List.append_assoc] at h
  rcases hstart with ⟨rfl, -⟩ | ⟨a', rfl⟩
  · exact ⟨.nil, h⟩
  · rw [List.append_assoc, List.singleton_append] at h
    obtain ⟨h1, h2⟩ := h.cut charset.lead_newline
    obtain ⟨q, rest, hrest, hl, hq, -, hw⟩ := h2.uncons
    rw [charset.width_newline] at hq
    rw [List.eq_nil_of_length_eq_zero hq, List.nil_append] at hrest
    rw [hrest]
    exact ⟨h1.append (Whole.cons (q := []) hl (by rw [charset.width_newline]; rfl) (by simp) .nil), hw⟩

/-! ## Counting -/

/-- The characters are counted one by one, each with its width. -/
theorem countChars_cons (charset : Charset) (n : Nat) (c : Nat) (rest : List Nat) :
    countChars charset (n + 1) (c :: rest) = countChars charset n (rest.drop (charset.width c - 1)) + 1 := by
  rw [countChars, Charset.width]
  by_cases hu : charset = .utf8
  · by_cases hl : 0xc0 ≤ c ∧ c < 0xfe
    · rw [if_pos ⟨hu, hl⟩, if_pos hu]
    · rw [if_neg (fun h => hl h.2), if_pos hu, utf8Length_one.mpr (by omega), Nat.sub_self, List.drop_zero]
  · rw [if_neg (fun h => hu h.1), if_neg hu, Nat.sub_self, List.drop_zero]

/-- In a piece each character that begins there counts, and each byte that goes on with the one begun before. -/
theorem countChars_piece {charset : Charset} {k n : Nat} {l : List Nat} (h : Piece charset.lead charset.width k l)
    (hn : l.length ≤ n) : countChars charset n l = min k l.length + l.countP charset.lead := by
  induction n generalizing k l with
  | zero =>
    rw [List.eq_nil_of_length_eq_zero (by omega : l.length = 0)]
    simp [countChars]
  | succ n ih =>
    cases l with
    | nil => simp [countChars]
    | cons c rest =>
      rw [List.length_cons] at hn
      cases k with
      | zero =>
        obtain ⟨hc, hr⟩ := h
        have hlen := List.length_drop (i := charset.width c - 1) (l := rest)
        rw [countChars_cons, ih hr.drop (by omega), hr.countP_drop, List.countP_cons_of_pos hc]
        omega
      | succ k =>
        obtain ⟨hc, hr⟩ := h
        rw [countChars_cons, Charset.width_of_tail hc, Nat.sub_self, List.drop_zero, ih hr (by omega),
          List.countP_cons_of_neg (by simp [hc]), List.length_cons]
        omega

/-- The line and column that `charset_get_pos` counts in a piece of a text. -/
theorem getPos_piece {charset : Charset} {k : Nat} {l : List Byte} (h : Piece charset.lead charset.width k l) :
    getPos charset l = (l.count newline, if newline ∈ l then (lastLine l).countP charset.lead
      else min k l.length + l.countP charset.lead) := by
  rw [getPos]
  by_cases hn : newline ∈ l
  · simp only [if_pos hn, countChars_piece (piece_lastLine h hn) (Nat.le_refl _), Nat.zero_min, Nat.zero_add]
  · simp only [if_neg hn, lastLine_of_not_mem hn, countChars_piece h (Nat.le_refl _)]

/-- A page that begins with nothing owed begins with a character. -/
theorem lead_head_iff {charset : Charset} {k : Nat} {p : Page} (hp : p.Ok) {rest : List Byte}
    (h : Piece charset.lead charset.width k (p.data ++ rest)) : charset.lead (p.data.headD 0) = false ↔ k ≠ 0 := by
  obtain ⟨c, d, hd⟩ : ∃ c d, p.data = c :: d :=
    List.exists_cons_of_ne_nil fun h0 => by
      have h1 := hp.data
      have h2 := hp.pos
      rw [h0, List.length_nil] at h1
      omega
  rw [hd] at h ⊢
  rw [List.headD_cons, ← not_iff_not, Bool.not_eq_false, not_not]
  exact h.lead_head

/-! ## Reading -/

theorem minCode_ge {a : Nat} (h : utf8Length a ≠ 1) : 0x80 ≤ minCode (utf8Length a) := by
  have hle := utf8Length_le a
  have hpos := utf8Length_pos a
  unfold maxCharBytes at hle
  interval_cases utf8Length a <;> simp_all [minCode]

/-- The character that `utf8_decode` finds is a newline when the first byte is. -/
theorem utf8Decode_newline (a : Nat) (q : List Nat) : (utf8Decode (a :: q)).1 = newline ↔ a = newline := by
  by_cases ha : a < 128
  · rw [utf8Decode_ascii (by exact ha)]
    rfl
  · have hne : a ≠ newline := by
      rintro rfl
      exact ha (by decide)
    refine iff_of_false (fun h => ?_) hne
    by_cases hs : Spells a q
    · rw [utf8Decode_spelled (by omega) hs] at h
      obtain ⟨h1, -, h3⟩ := hs
      refine h3 (Or.inl ?_)
      have hmin := minCode_ge h1
      rw [h, newline]
      omega
    · rw [utf8Decode_invalid (by omega) hs] at h
      cases h

namespace Reader

variable {r : Reader} {o : Nat}

/-- What `eb_nextc` reads: a byte, and five more of the text or of the stack. -/
theorem window_cons (ho : o < r.text.length) :
    ∃ q, r.window o = r.text[o] :: q ∧ q = slice r.text (o + 1) 5 ++ r.stack.drop (slice r.text o maxCharBytes).length := by
  refine ⟨_, ?_, rfl⟩
  rw [window, show maxCharBytes = 5 + 1 from rfl, slice_head _ ho, List.cons_append]

/-- `eb_nextc` returns a newline where one stands, and at the end of the text. -/
theorem nextc_newline (ho : o < r.text.length) : (r.nextc o).1 = newline ↔ r.text[o] = newline := by
  by_cases hu : r.charset = .utf8
  · obtain ⟨q, hw, -⟩ := window_cons ho
    rw [nextc_utf8 hu ho, hw]
    exact utf8Decode_newline _ _
  · rw [nextc_byte hu ho, getD_of_lt _ ho]

variable {front back q : List Byte} {c : Nat}

theorem getD_front (ht : r.text = front ++ c :: back) : r.text.getD front.length 0 = c := by
  rw [ht, List.getD_append_right _ _ _ _ (Nat.le_refl _), Nat.sub_self]
  rfl

theorem length_front (ht : r.text = front ++ c :: back) : front.length < r.text.length := by
  rw [ht, List.length_append, List.length_cons]
  omega

/-- `eb_nextc` goes over a character that is all there, whatever follows. -/
theorem nextc_frame (ht : r.text = front ++ c :: (q ++ back)) (hq : q.length = r.charset.width c - 1)
    (hqt : ∀ x ∈ q, r.charset.lead x = false) : (r.nextc front.length).2 = ((front ++ c :: q).length : Int) := by
  have hlt := length_front ht
  have hlen : (front ++ c :: q).length = front.length + (q.length + 1) := by simp
  rw [hlen]
  by_cases hu : r.charset = .utf8
  · rw [hu] at hq hqt
    rw [Charset.width, if_pos rfl] at hq
    have hpos := utf8Length_pos c
    have htails : ∀ x ∈ q, isTail x = true := fun x hx => (Charset.lead_eq_false.mp (hqt x hx)).2
    have hwhole : ¬CutOff .utf8 r.text front.length := by
      rintro ⟨-, -, hcut, -⟩
      rw [getD_front ht, ht, List.length_append, List.length_cons, List.length_append] at hcut
      omega
    rw [nextc_whole hu hlt hwhole, ht, List.drop_left, utf8Decode_taken, List.headD_cons, List.tail_cons, tailRun_append htails]
    simp only
    omega
  · rw [Charset.width, if_neg hu, Nat.sub_self] at hq
    rw [nextc_byte hu hlt, hq]
    push_cast
    omega

/-- One character, and the rest of them. -/
theorem nextcs_succ (n : Nat) (offset : Int) : r.nextcs (n + 1) offset = r.nextcs n (r.nextc offset).2 :=
  Function.iterate_succ_apply _ n offset

variable {mid : List Byte}

/-- As many calls of `eb_nextc` as characters begin in a part of the text lead over it, and no fewer do. -/
theorem nextcs_whole (ht : r.text = front ++ (mid ++ back)) (hm : Whole r.charset.lead r.charset.width mid) :
    r.nextcs (mid.countP r.charset.lead) front.length = ((front ++ mid).length : Int) ∧
      ∀ i < mid.countP r.charset.lead, r.nextcs i front.length < ((front ++ mid).length : Int) := by
  refine Whole.induct (P := fun mid => ∀ front, r.text = front ++ (mid ++ back) →
    r.nextcs (mid.countP r.charset.lead) (front : List Byte).length = ((front ++ mid).length : Int) ∧
      ∀ i < mid.countP r.charset.lead, r.nextcs i front.length < ((front ++ mid).length : Int)) ?_ ?_ hm front ht
  · intro front _
    exact ⟨by simp [nextcs], by simp⟩
  · intro c q rest hc hq hqt hr ih front ht
    have hassoc : front ++ (c :: q ++ rest) = front ++ c :: q ++ rest := by simp
    have hnext := nextc_frame (show r.text = front ++ c :: (q ++ (rest ++ back)) by rw [ht]; simp) hq hqt
    obtain ⟨i1, i2⟩ := ih (front ++ c :: q) (by rw [ht]; simp)
    rw [countP_frame hc hqt, hassoc]
    refine ⟨by rw [nextcs_succ, hnext, i1], fun i hi => ?_⟩
    cases i with
    | zero =>
      simp only [nextcs, Function.iterate_zero, id_eq, List.length_append, List.length_cons]
      omega
    | succ i =>
      rw [nextcs_succ, hnext]
      exact i2 i (by omega)

/-- `eb_goto_pos` stops at a newline. -/
theorem gotoCol_newline (ht : r.text = front ++ newline :: back) (n : Nat) : gotoCol r n front.length = front.length := by
  cases n with
  | zero => rfl
  | succ n =>
    have hlt := length_front ht
    rw [gotoCol, if_pos]
    rw [nextc_newline hlt, ← getD_of_lt _ hlt, getD_front ht]

/-- It stops at the end of the text. -/
theorem gotoCol_end (n : Nat) {offset : Int} (h : r.total ≤ offset) : gotoCol r n offset = offset := by
  cases n with
  | zero => rfl
  | succ n => rw [gotoCol, if_pos (by rw [nextc_end _ h])]

/-- A byte that is no newline is gone over with the character it begins. -/
theorem gotoCol_frame (ht : r.text = front ++ c :: (q ++ back)) (hq : q.length = r.charset.width c - 1)
    (hqt : ∀ x ∈ q, r.charset.lead x = false) (hc : c ≠ newline) (n : Nat) :
    gotoCol r (n + 1) front.length = gotoCol r n ((front ++ c :: q).length : Int) := by
  have hlt := length_front ht
  rw [gotoCol, if_neg, nextc_frame ht hq hqt]
  rwa [nextc_newline hlt, ← getD_of_lt _ hlt, getD_front ht]

/-- The last loop of `eb_goto_pos` over the characters of a part of the line. -/
theorem gotoCol_whole (ht : r.text = front ++ (mid ++ back)) (hm : Whole r.charset.lead r.charset.width mid)
    (hn : newline ∉ mid) (n : Nat) :
    gotoCol r (mid.countP r.charset.lead + n) front.length = gotoCol r n ((front ++ mid).length : Int) := by
  refine Whole.induct (P := fun mid => newline ∉ mid → ∀ front, r.text = front ++ (mid ++ back) →
    gotoCol r (mid.countP r.charset.lead + n) (front : List Byte).length = gotoCol r n ((front ++ mid).length : Int))
    ?_ ?_ hm hn front ht
  · intro _ front _
    simp
  · intro c q rest hc hq hqt hr ih hn front ht
    have hassoc : front ++ (c :: q ++ rest) = front ++ c :: q ++ rest := by simp
    simp only [List.cons_append, List.mem_cons, List.mem_append, not_or] at hn
    rw [countP_frame hc hqt, Nat.add_right_comm,
      gotoCol_frame (show r.text = front ++ c :: (q ++ (rest ++ back)) by rw [ht]; simp) hq hqt (Ne.symm hn.1),
      ih hn.2.2 _ (by rw [ht]; simp), hassoc]

/-- Over bytes that go on with a character it goes one by one. -/
theorem gotoCol_tails (ht : r.text = front ++ (mid ++ back)) (hm : ∀ x ∈ mid, r.charset.lead x = false) (n : Nat) :
    gotoCol r (mid.length + n) front.length = gotoCol r n ((front ++ mid).length : Int) := by
  induction mid generalizing front with
  | nil => simp
  | cons c mid ih =>
    obtain ⟨hc, hm⟩ := List.forall_mem_cons.mp hm
    have hne : c ≠ newline := by
      rintro rfl
      rw [Charset.lead_newline] at hc
      cases hc
    have hq : ([] : List Byte).length = r.charset.width c - 1 := by rw [Charset.width_of_tail hc]; rfl
    rw [List.length_cons, Nat.add_right_comm, gotoCol_frame (show r.text = front ++ c :: ([] ++ (mid ++ back)) by rw [ht]; simp) hq (by simp) hne,
      ih (by rw [ht]; simp) hm]
    simp

end Reader

/-- How many characters begin in front of the next newline. -/
def lineLeft (charset : Charset) (text : List Byte) : Nat := (text.takeWhile (· != newline)).countP charset.lead

/-- What is left of a line, in front of the next part of it. -/
theorem lineLeft_append {charset : Charset} {a : List Byte} (h : newline ∉ a) (b : List Byte) :
    lineLeft charset (a ++ b) = a.countP charset.lead + lineLeft charset b := by
  rw [lineLeft, lineLeft, List.takeWhile_append_of_pos, List.countP_append]
  intro c hc
  rw [bne_iff_ne]
  rintro rfl
  exact h hc

/-- A text goes on with the rest of its line, and behind it ends or has a newline. -/
theorem exists_line (text : List Byte) : ∃ line rest, text = line ++ rest ∧ newline ∉ line ∧
    text.takeWhile (· != newline) = line ∧ (rest = [] ∨ ∃ rest', rest = newline :: rest') := by
  refine ⟨text.takeWhile (· != newline), text.dropWhile (· != newline), List.takeWhile_append_dropWhile.symm, ?_, rfl, ?_⟩
  · intro h
    simpa using List.mem_takeWhile_imp h
  · cases hd : text.dropWhile (· != newline) with
    | nil => exact Or.inl rfl
    | cons c rest =>
      have hc := List.head_dropWhile_not (· != newline) (by rw [hd]; simp : text.dropWhile (· != newline) ≠ [])
      simp only [hd, List.head_cons, bne_eq_false_iff_eq] at hc
      exact Or.inr ⟨rest, by rw [hc]⟩

/-- From a boundary the last loop of `eb_goto_pos` goes over `n` characters, or those that the line has left. -/
theorem Reader.gotoCol_line {r : Reader} {front back : List Byte} (ht : r.text = front ++ back)
    (hb : Whole r.charset.lead r.charset.width back) (n : Nat) :
    ∃ mid rest, back = mid ++ rest ∧ Whole r.charset.lead r.charset.width mid ∧ Whole r.charset.lead r.charset.width rest ∧
      mid.countP r.charset.lead = min n (lineLeft r.charset back) ∧
      gotoCol r n front.length = ((front ++ mid).length : Int) := by
  obtain ⟨line, rest, rfl, hline, htake, hrest⟩ := exists_line back
  have hcut : Whole r.charset.lead r.charset.width line ∧ Whole r.charset.lead r.charset.width rest := by
    rcases hrest with rfl | ⟨rest', rfl⟩
    · exact ⟨by simpa using hb, .nil⟩
    · exact hb.cut r.charset.lead_newline
  obtain ⟨hl, hr⟩ := hcut
  rw [lineLeft, htake]
  by_cases hn : n ≤ line.countP r.charset.lead
  · obtain ⟨mid, line', rfl, hm, hl', hcount⟩ := hl.cut_count hn
    refine ⟨mid, line' ++ rest, by rw [List.append_assoc], hm, hl'.append hr, by omega, ?_⟩
    have := gotoCol_whole (show r.text = front ++ (mid ++ (line' ++ rest)) by rw [ht, List.append_assoc]) hm (fun h => hline (by simp [h])) 0
    rwa [Nat.add_zero, hcount] at this
  · obtain ⟨m, rfl⟩ : ∃ m, n = line.countP r.charset.lead + m := ⟨n - line.countP r.charset.lead, by omega⟩
    refine ⟨line, rest, rfl, hl, hr, by omega, ?_⟩
    rw [gotoCol_whole ht hl hline]
    rcases hrest with rfl | ⟨rest', rfl⟩
    · exact gotoCol_end _ (by simp [total, ht])
    · exact gotoCol_newline (show r.text = front ++ line ++ newline :: rest' by rw [ht, List.append_assoc]) m

/-- The same offset, by calls of `eb_nextc`. -/
theorem Reader.gotoCol_eq_nextcs {r : Reader} {front back : List Byte} (ht : r.text = front ++ back)
    (hb : Whole r.charset.lead r.charset.width back) (n : Nat) :
    gotoCol r n front.length = r.nextcs (min n (lineLeft r.charset back)) front.length := by
  obtain ⟨mid, rest, rfl, hm, -, hcount, hgoto⟩ := gotoCol_line ht hb n
  rw [hgoto, ← hcount, (nextcs_whole ht hm).1]

/-! ## On pages -/

/-- A text of whole characters ends in the middle of none. -/
theorem not_cutOff_of_whole {charset : Charset} {text : List Byte} (h : Whole charset.lead charset.width text) (o : Nat) :
    ¬CutOff charset text o := by
  rintro ⟨hu, ho, hcut, -⟩
  subst hu
  obtain ⟨c, hc⟩ : ∃ c : Nat, c = text[o] := ⟨_, rfl⟩
  rw [getD_of_lt _ ho, ← hc] at hcut
  by_cases hl : Charset.utf8.lead c = true
  · rw [← List.take_append_drop o text, List.drop_eq_getElem_cons ho, ← hc] at h
    obtain ⟨q, rest, hq, -, hw, -, -⟩ := (h.cut hl).2.uncons
    have hlen := congrArg List.length hq
    rw [Charset.width, if_pos rfl] at hw
    rw [List.length_drop, List.length_append] at hlen
    omega
  · have hwidth := Charset.width_of_tail (by simpa using hl : Charset.utf8.lead c = false)
    rw [Charset.width, if_pos rfl] at hwidth
    omega

/-- `eb_nextc` on pages, where the text ends in the middle of no character: it is that of a reader with any stack. -/
theorem ebNextc_known {t : Pages} (ht : t.Ok) {r : Reader} (hr : r.text = t.bytes)
    (hc : ∀ o, ¬CutOff r.charset r.text o) (junk : List Byte) (o : Nat) :
    (ebNextc t r.charset junk o).2 = r.nextc o ∧ (ebNextc t r.charset junk o).1.Ok ∧
      t.Same (ebNextc t r.charset junk o).1 ∧ ∃ o' : Nat, (r.nextc o).2 = o' ∧ o' ≤ t.totalSize := by
  have hlen := ht.length_bytes
  rw [← hr] at hlen
  obtain ⟨e1, e2, e3⟩ := ebNextc_eq ht (r := { r with stack := junk }) hr (Int.natCast_nonneg o)
  rcases Nat.lt_or_ge o t.totalSize with hlt | hge
  · obtain ⟨n, -, hle, hnext, hall⟩ := Reader.nextc_known (by rw [hlen]; exact hlt) (hc o)
    exact ⟨e1.trans (hall junk), e2, e3, o + n, hnext, by omega⟩
  · have hle : r.total ≤ o := by rw [Reader.total, hlen]; exact_mod_cast hge
    have hend : r.nextc o = (newline, r.total) := r.nextc_end hle
    have hend' : Reader.nextc { r with stack := junk } o = (newline, r.total) := Reader.nextc_end _ hle
    exact ⟨e1.trans (hend'.trans hend.symm), e2, e3, r.text.length, by rw [hend]; rfl, by omega⟩

/-- The walk over pages goes where that over the text goes, where no character is cut off. -/
theorem nextcWalk_eq {t : Pages} (ht : t.Ok) {r : Reader} (hr : r.text = t.bytes) (hc : ∀ o, ¬CutOff r.charset r.text o)
    (junk : Nat → List Byte) {start : Nat} (hs : start ≤ t.totalSize) (n : Nat) :
    (nextcWalk t r.charset junk start n).2 = r.nextcs n start ∧ (nextcWalk t r.charset junk start n).1.Ok ∧
      t.Same (nextcWalk t r.charset junk start n).1 ∧ ∃ o : Nat, r.nextcs n start = o ∧ o ≤ t.totalSize := by
  induction n with
  | zero => exact ⟨rfl, ht, .refl t, start, rfl, hs⟩
  | succ n ih =>
    obtain ⟨h1, h2, h3, o, h4, h5⟩ := ih
    rw [nextcWalk, Reader.nextcs, Function.iterate_succ_apply']
    unfold Reader.nextcs at h1 h4
    rw [h4] at h1 ⊢
    generalize nextcWalk t r.charset junk start n = w at h1 h2 h3 ⊢
    obtain ⟨t₁, o₁⟩ := w
    simp only at h1 h2 h3 ⊢
    subst h1
    obtain ⟨e1, e2, e3, e4⟩ := ebNextc_known h2 (hr.trans h3.bytes.symm) hc (junk n) o
    rw [h3.total] at e4
    exact ⟨congrArg Prod.snd e1, e2, h3.trans e3, e4⟩

/-- The same of the loop of `eb_goto_pos`. -/
theorem gotoColLoop_eq {t : Pages} (ht : t.Ok) {r : Reader} (hr : r.text = t.bytes) (hc : ∀ o, ¬CutOff r.charset r.text o)
    (junk : Nat → List Byte) (n o : Nat) :
    (gotoColLoop r.charset junk n t o).2 = gotoCol r n o := by
  induction n generalizing t o with
  | zero => rfl
  | succ n ih =>
    obtain ⟨e1, e2, e3, o', h1, -⟩ := ebNextc_known ht hr hc (junk n) o
    rw [gotoColLoop, gotoCol]
    generalize ebNextc t r.charset (junk n) o = w at e1 e2 e3 ⊢
    obtain ⟨t₁, c, o₁⟩ := w
    simp only at e1 e2 e3 ⊢
    rw [← e1]
    rw [← e1] at h1
    simp only at h1 ⊢
    subst h1
    split
    · rfl
    · exact ih e2 (hr.trans e3.bytes.symm) o'

end Hoe
