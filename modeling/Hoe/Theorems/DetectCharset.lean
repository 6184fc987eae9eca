import Hoe.LoadFile
import Hoe.Lemmas.Utf8

/-!
# The charset that is detected

A text falls into pieces: bytes of 7 bits, characters, of which the last one may be cut off, and what is neither. `detect_charset`
forgets at each piece above 7 bits what it has said before, so that the last of them decides.
-/

namespace Hoe

/-- Bytes of 7 bits and characters of more bytes, the last of which may be cut off. -/
inductive Sequences : List Byte → Prop where
  | nil : Sequences []
  | ascii {c : Nat} {p : List Byte} : c < 0x80 → Sequences p → Sequences (c :: p)
  | multi {c : Nat} {q p : List Byte} : 0xc0 ≤ c → c < 0xfe → q.length = utf8Length c - 1 → (∀ x ∈ q, isTail x = true) →
      Sequences p → Sequences (c :: q ++ p)
  | cut {c : Nat} {q : List Byte} : 0xc0 ≤ c → c < 0xfe → q.length < utf8Length c - 1 → (∀ x ∈ q, isTail x = true) →
      Sequences (c :: q)

/-- How many bytes belong to a piece behind its first one: those that go on with the character, and the one that does not. -/
def pieceTail (c : Nat) (p : List Byte) : Nat := if utf8Length c - 1 ≤ tailRun p then utf8Length c - 1 else tailRun p + 1

/-- The pieces of a text. -/
def pieces : List Byte → List (List Byte)
  | [] => []
  | c :: p => (c :: p.take (pieceTail c p)) :: pieces (p.drop (pieceTail c p))
termination_by buf => buf.length
decreasing_by
  rw [List.length_drop, List.length_cons]
  omega

/-- A piece above 7 bits. -/
def HighPiece (p : List Byte) : Prop := 0x80 ≤ p.headD 0

/-- A piece that is a character of more bytes, or the beginning of one. -/
def GoodPiece (p : List Byte) : Prop := 0xc0 ≤ p.headD 0 ∧ p.headD 0 < 0xfe ∧ ∀ x ∈ p.tail, isTail x = true

instance (p : List Byte) : Decidable (HighPiece p) := by unfold HighPiece; infer_instance

instance (p : List Byte) : Decidable (GoodPiece p) := by unfold GoodPiece; infer_instance

/-! ## The scan goes from piece to piece -/

variable {buf p : List Byte} {c : Nat} {has : Bool}

/-- What is passed behind a first byte are tails, and the byte that ends them too early. -/
theorem detectTail_eq (has : Bool) (l : Nat) (p : List Byte) :
    detectTail has l p = (if l = 0 then has else (p.take (if l ≤ tailRun p then l else tailRun p + 1)).all isTail,
      p.drop (if l ≤ tailRun p then l else tailRun p + 1)) := by
  induction l generalizing has p with
  | zero => simp [detectTail]
  | succ l ih =>
    cases p with
    | nil => simp [detectTail]
    | cons c p =>
      rw [detectTail, tailRun_cons]
      by_cases hc : isTail c = true
      · simp only [hc, if_true, Nat.add_le_add_iff_right, Nat.succ_ne_zero, if_false]
        rw [ih]
        by_cases hl : l ≤ tailRun p
        · simp only [if_pos hl, List.take_succ_cons, List.all_cons, hc, Bool.true_and, List.drop_succ_cons]
          by_cases hzero : l = 0
          · simp [hzero]
          · simp [hzero]
        · have hzero : l ≠ 0 := by omega
          simp [if_neg hl, hc, hzero]
      · simp [hc]

/-- What the scan says behind a piece. -/
def verdict (has : Bool) (p : List Byte) : Bool := if HighPiece p then decide (GoodPiece p) else has

/-- The loop goes on piece by piece. -/
theorem detectLoop_step (n : Nat) (has : Bool) (c : Nat) (p : List Byte) :
    detectLoop (n + 1) has (c :: p) = detectLoop n (verdict has (c :: p.take (pieceTail c p))) (p.drop (pieceTail c p)) := by
  rw [detectLoop]
  have hsingle (h : utf8Length c = 1) : pieceTail c p = 0 := by simp [pieceTail, h]
  by_cases hbad : isTail c = true ∨ 0xfe ≤ c
  · have hlen : utf8Length c = 1 := by
      rcases hbad with hc | hc
      · exact utf8Length_tail hc
      · exact utf8Length_one.mpr (Or.inr hc)
    have hhigh : 0x80 ≤ c ∧ ¬(0xc0 ≤ c ∧ c < 0xfe) := by
      rcases hbad with hc | hc
      · have htail := isTail_iff.mp hc
        omega
      · omega
    have hverdict : verdict has [c] = false := by
      rw [verdict, if_pos (show HighPiece [c] from hhigh.1)]
      exact decide_eq_false fun hgood => hhigh.2 ⟨hgood.1, hgood.2.1⟩
    rw [if_pos hbad, hsingle hlen, List.take_zero, List.drop_zero, hverdict]
  · rw [if_neg hbad, detectTail_eq]
    simp only
    rw [← pieceTail]
    congr 1
    unfold verdict
    by_cases hlow : c < 0x80
    · rw [if_pos (by have := utf8Length_one.mpr (Or.inl (show c < 0xc0 by omega)); omega), if_neg (by simp [HighPiece, hlow])]
    · have hlead : 0xc0 ≤ c ∧ c < 0xfe := by
        have htail : ¬isTail c = true := fun h => hbad (Or.inl h)
        rw [isTail_iff] at htail
        omega
      have hone : utf8Length c - 1 ≠ 0 := by
        have hlen : utf8Length c ≠ 1 := fun h => by
          have := utf8Length_one.mp h
          omega
        have hpos := utf8Length_pos c
        omega
      rw [if_neg hone, if_pos (show HighPiece (c :: p.take (pieceTail c p)) from Nat.le_of_not_lt hlow), Bool.eq_iff_iff,
        List.all_eq_true, decide_eq_true_iff]
      exact ⟨fun h => ⟨hlead.1, hlead.2, h⟩, fun h => h.2.2⟩

/-- The scan is a fold over the pieces. -/
theorem detectLoop_eq {n : Nat} (hn : buf.length ≤ n) : detectLoop n has buf = (pieces buf).foldl verdict has := by
  induction n generalizing buf has with
  | zero =>
    obtain rfl : buf = [] := List.length_eq_zero_iff.mp (Nat.le_zero.mp hn)
    simp [detectLoop, pieces]
  | succ n ih =>
    cases buf with
    | nil => simp [detectLoop, pieces]
    | cons c p =>
      rw [detectLoop_step, pieces, List.foldl_cons]
      refine ih ?_
      rw [List.length_drop]
      rw [List.length_cons] at hn
      omega

/-- The last piece above 7 bits. -/
def lastHigh (buf : List Byte) : Option (List Byte) := ((pieces buf).filter fun p => decide (HighPiece p)).getLast?

/-- The last piece with a high byte decides. -/
theorem foldl_verdict (ps : List (List Byte)) (has : Bool) :
    ps.foldl verdict has = ((ps.filter fun p => decide (HighPiece p)).getLast?).elim has fun p => decide (GoodPiece p) := by
  induction ps using List.reverseRecOn with
  | nil => rfl
  | append_singleton ps p ih =>
    rw [List.foldl_append, List.foldl_cons, List.foldl_nil, ih, List.filter_append]
    by_cases hp : HighPiece p
    · simp [verdict, hp]
    · simp [verdict, hp]

/-- The last piece above 7 bits decides. -/
theorem detectCharset_iff : detectCharset buf = .utf8 ↔ ∃ p, lastHigh buf = some p ∧ GoodPiece p := by
  unfold detectCharset
  rw [detectLoop_eq (Nat.le_refl _), foldl_verdict, ← lastHigh]
  cases lastHigh buf with
  | none => simp
  | some p => simp

/-! ## What the pieces say of the text -/

/-- A text as the detection should accept it has no piece that is neither. -/
theorem sequences_iff : Sequences buf ↔ ∀ p ∈ pieces buf, HighPiece p → GoodPiece p := by
  constructor
  · intro h
    induction h with
    | nil => simp [pieces]
    | @ascii c p hc _ ih =>
      have hlen : utf8Length c = 1 := utf8Length_one.mpr (Or.inl (by omega))
      have htail : pieceTail c p = 0 := by simp [pieceTail, hlen]
      rw [pieces, htail, List.take_zero, List.drop_zero]
      refine List.forall_mem_cons.mpr ⟨fun hhigh => absurd hhigh ?_, ih⟩
      simp [HighPiece, hc]
    | @multi c q p h1 h2 hq ht _ ih =>
      have htail : pieceTail c (q ++ p) = q.length := by
        rw [pieceTail, tailRun_append ht, if_pos (by omega), hq]
      rw [List.cons_append, pieces, htail, List.take_left, List.drop_left]
      exact List.forall_mem_cons.mpr ⟨fun _ => ⟨h1, h2, ht⟩, ih⟩
    | @cut c q h1 h2 hq ht =>
      have hrun : tailRun q = q.length := by
        have hrun := tailRun_append ht []
        rwa [List.append_nil, tailRun_nil, Nat.add_zero] at hrun
      have htail : pieceTail c q = q.length + 1 := by
        rw [pieceTail, hrun, if_neg (by omega)]
      rw [pieces, htail, List.take_of_length_le (Nat.le_succ _), List.drop_of_length_le (Nat.le_succ _)]
      refine List.forall_mem_cons.mpr ⟨fun _ => ⟨h1, h2, ht⟩, ?_⟩
      simp [pieces]
  · intro h
    induction buf using pieces.induct with
    | case1 => exact .nil
    | case2 c p ih =>
      rw [pieces] at h
      obtain ⟨hpiece, hrest⟩ := List.forall_mem_cons.mp h
      have hp := ih hrest
      by_cases hlow : c < 0x80
      · have hlt : c < 0xc0 := hlow.trans (by decide)
        have hlen : utf8Length c = 1 := utf8Length_one.mpr (Or.inl hlt)
        have htail : pieceTail c p = 0 := by simp [pieceTail, hlen]
        rw [htail, List.drop_zero] at hp
        exact .ascii hlow hp
      · obtain ⟨h1, h2, ht⟩ := hpiece (Nat.le_of_not_lt hlow)
        rw [List.headD_cons] at h1 h2
        rw [List.tail_cons] at ht
        by_cases hall : utf8Length c - 1 ≤ tailRun p
        · have hle := tailRun_le p
          have htail : pieceTail c p = utf8Length c - 1 := if_pos hall
          rw [htail] at ht hp
          have hseq := Sequences.multi h1 h2 (List.length_take_of_le (hall.trans hle)) ht hp
          rwa [List.cons_append, List.take_append_drop] at hseq
        · have htail : pieceTail c p = tailRun p + 1 := if_neg hall
          rw [htail] at ht
          have hend : p.length ≤ tailRun p := by
            by_contra hlt
            have hrun := tailRun_append ht (p.drop (tailRun p + 1))
            rw [List.take_append_drop, List.length_take] at hrun
            omega
          rw [List.take_of_length_le (by omega)] at ht
          have hle := tailRun_le p
          exact .cut h1 h2 (by omega) ht

/-- There are bytes above 7 bits where there are pieces above 7 bits. -/
theorem exists_high_iff : (∃ b ∈ buf, 0x80 ≤ b) ↔ ∃ p ∈ pieces buf, HighPiece p := by
  induction buf using pieces.induct with
  | case1 => simp [pieces]
  | case2 c p ih =>
    rw [pieces, List.exists_mem_cons_iff, List.exists_mem_cons_iff, ← ih]
    by_cases hhigh : 0x80 ≤ c
    · exact iff_of_true (Or.inl hhigh) (Or.inl hhigh)
    · have hlen : utf8Length c = 1 := utf8Length_one.mpr (Or.inl ((Nat.lt_of_not_le hhigh).trans (by decide)))
      have htail : pieceTail c p = 0 := by simp [pieceTail, hlen]
      rw [htail, List.drop_zero]
      exact or_congr_left (iff_of_false hhigh hhigh)

/-- There is one when any piece has a high byte. -/
theorem lastHigh_isSome : (∃ p, lastHigh buf = some p) ↔ ∃ p ∈ pieces buf, HighPiece p := by
  rw [← Option.isSome_iff_exists, lastHigh, List.getLast?_isSome, ne_eq, List.filter_eq_nil_iff]
  simp

/-- It is one of the pieces. -/
theorem mem_of_lastHigh (h : lastHigh buf = some p) : p ∈ pieces buf ∧ HighPiece p := by
  have hmem := List.mem_of_getLast? h
  simpa [List.mem_filter] using hmem

/-! ## The verdict -/

/-- UTF-8 is detected in a text with bytes above 7 bits that is made of characters, and in no other. -/
def DetectsRight (buf : List Byte) : Prop :=
  ((∃ b ∈ buf, 0x80 ≤ b) ∧ Sequences buf → detectCharset buf = .utf8) ∧
    (¬((∃ b ∈ buf, 0x80 ≤ b) ∧ Sequences buf) → detectCharset buf = .latin1)

/-- The charset is latin1 when it is not UTF-8. -/
theorem detectCharset_latin1 : detectCharset buf = .latin1 ↔ detectCharset buf ≠ .utf8 := by
  unfold detectCharset
  split <;> simp

/-- The detection is right where the text is made of characters, or where its last piece above 7 bits is none. -/
theorem detectsRight_iff (buf : List Byte) :
    DetectsRight buf ↔ Sequences buf ∨ ∃ p, lastHigh buf = some p ∧ ¬GoodPiece p := by
  constructor
  · rintro ⟨-, hno⟩
    by_cases hseq : Sequences buf
    · exact Or.inl hseq
    · right
      have hdetect : ¬∃ p, lastHigh buf = some p ∧ GoodPiece p := by
        rw [← detectCharset_iff]
        exact detectCharset_latin1.mp (hno fun h => hseq h.2)
      have hbad : ∃ p ∈ pieces buf, HighPiece p := by
        rw [sequences_iff] at hseq
        push Not at hseq
        obtain ⟨p, hp, hhigh, -⟩ := hseq
        exact ⟨p, hp, hhigh⟩
      obtain ⟨p, hp⟩ := lastHigh_isSome.mpr hbad
      exact ⟨p, hp, fun hgood => hdetect ⟨p, hp, hgood⟩⟩
  · rintro (hseq | ⟨p, hp, hbad⟩)
    · refine ⟨fun ⟨hhigh, _⟩ => ?_, fun hno => ?_⟩
      · obtain ⟨p, hp⟩ := lastHigh_isSome.mpr (exists_high_iff.mp hhigh)
        obtain ⟨hmem, hhigh⟩ := mem_of_lastHigh hp
        exact detectCharset_iff.mpr ⟨p, hp, sequences_iff.mp hseq p hmem hhigh⟩
      · refine detectCharset_latin1.mpr fun hdetect => hno ⟨?_, hseq⟩
        obtain ⟨p, hp, -⟩ := detectCharset_iff.mp hdetect
        exact exists_high_iff.mpr (lastHigh_isSome.mp ⟨p, hp⟩)
    · have hlatin : detectCharset buf = .latin1 := by
        refine detectCharset_latin1.mpr fun hdetect => ?_
        obtain ⟨p', hp', hgood⟩ := detectCharset_iff.mp hdetect
        rw [hp, Option.some.injEq] at hp'
        exact hbad (hp' ▸ hgood)
      refine ⟨fun ⟨_, hseq⟩ => ?_, fun _ => hlatin⟩
      obtain ⟨hmem, hhigh⟩ := mem_of_lastHigh hp
      exact absurd (sequences_iff.mp hseq p hmem hhigh) hbad

/-- A byte that no character has is forgotten over the character behind it. -/
theorem not_detectsRight : ¬∀ buf : List Byte, DetectsRight buf := by
  intro h
  have hutf8 : detectCharset [0xff, 0xc3, 0xa9] = .utf8 := by decide
  have hseq : ¬Sequences [0xff, 0xc3, 0xa9] := by
    rw [sequences_iff]
    intro hgood
    have hpieces : pieces [0xff, 0xc3, 0xa9] = [[0xff], [0xc3, 0xa9]] := by simp [pieces, pieceTail, utf8Length, tailRun, isTail]
    rw [hpieces] at hgood
    exact absurd (hgood [0xff] (by decide) (by decide)) (by decide)
  have hlatin := (h [0xff, 0xc3, 0xa9]).2 fun hboth => hseq hboth.2
  rw [hutf8] at hlatin
  cases hlatin

end Hoe
