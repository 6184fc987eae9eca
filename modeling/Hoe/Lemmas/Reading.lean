import Hoe.Lemmas.Characters

/-!
# What a reader reads

Forward, `eb_nextc` decodes the text from the offset on, and what lies on the stack plays no part, unless the text ends in the
middle of the character. Backward, `eb_prevc` decodes from the last byte that begins a character, when that byte is one of the
last six.
-/

namespace Hoe

open Splice Digits

/-! ## What decoding looks at -/

/-- Tail bytes alone are one run. -/
theorem tailRun_eq_length {p : List Nat} (h : ∀ c ∈ p, isTail c = true) : tailRun p = p.length := by
  have := tailRun_append h []
  rwa [List.append_nil, tailRun_nil, Nat.add_zero] at this

/-- A byte that does not go on with a character ends the run. -/
theorem tailRun_append_of_mem {p : List Nat} (h : ∃ c ∈ p, isTail c = false) (q : List Nat) :
    tailRun (p ++ q) = tailRun p ∧ tailRun p < p.length := by
  induction p with
  | nil => simp at h
  | cons d p ih =>
    rw [List.cons_append, tailRun_cons, tailRun_cons, List.length_cons]
    by_cases hd : isTail d = true
    · obtain ⟨c, hc, hct⟩ := h
      rcases List.mem_cons.mp hc with rfl | hc
      · rw [hd] at hct
        cases hct
      · obtain ⟨h1, h2⟩ := ih ⟨c, hc, hct⟩
        rw [if_pos hd, if_pos hd, h1]
        omega
    · rw [if_neg hd, if_neg hd]
      omega

/-- The run is as long as there are tail bytes. -/
theorem le_tailRun {n : Nat} {p : List Nat} (hn : n ≤ p.length) (h : ∀ i < n, isTail (p.getD i 0) = true) :
    n ≤ tailRun p := by
  induction n generalizing p with
  | zero => omega
  | succ n ih =>
    cases p with
    | nil => simp at hn
    | cons d p =>
      have hd : isTail d = true := h 0 (by omega)
      rw [tailRun_cons, if_pos hd]
      have := ih (by simpa using hn) (fun i hi => h (i + 1) (by omega))
      omega

/-- `utf8_decode` looks at no byte behind those that the first byte announces, nor behind one that does not go on. -/
theorem utf8Decode_append (a : Nat) {q : List Nat} (r : List Nat)
    (h : utf8Length a ≤ q.length + 1 ∨ ∃ c ∈ q, isTail c = false) : utf8Decode (a :: (q ++ r)) = utf8Decode (a :: q) := by
  have hrun : (utf8Length a - 1 ≤ tailRun (q ++ r) ↔ utf8Length a - 1 ≤ tailRun q) ∧
      min (utf8Length a) (1 + tailRun (q ++ r)) = min (utf8Length a) (1 + tailRun q) := by
    by_cases hbreak : ∃ c ∈ q, isTail c = false
    · rw [(tailRun_append_of_mem hbreak r).1]
      exact ⟨Iff.rfl, rfl⟩
    · have hall : ∀ c ∈ q, isTail c = true := fun c hc => by
        by_contra hct
        exact hbreak ⟨c, hc, by simpa using hct⟩
      have hlen : utf8Length a ≤ q.length + 1 := h.resolve_right hbreak
      rw [tailRun_append hall, tailRun_eq_length hall]
      omega
  have hspelled (hn : utf8Length a - 1 ≤ tailRun q) : spelled a (q ++ r) = spelled a q := by
    have := tailRun_le q
    rw [spelled, spelled, List.take_append_of_le_length (by omega)]
  have hspells : Spells a (q ++ r) ↔ Spells a q := by
    unfold Spells
    rw [hrun.1]
    constructor
    · rintro ⟨h1, h2, h3⟩
      exact ⟨h1, h2, by rwa [hspelled h2] at h3⟩
    · rintro ⟨h1, h2, h3⟩
      exact ⟨h1, h2, by rwa [hspelled h2]⟩
  refine Prod.ext ?_ ?_
  · by_cases ha : a < 128
    · rw [utf8Decode_ascii (p := a :: (q ++ r)) ha, utf8Decode_ascii (p := a :: q) ha]
      rfl
    · by_cases hs : Spells a q
      · rw [utf8Decode_spelled (by omega) (hspells.mpr hs), utf8Decode_spelled (by omega) hs, hspelled hs.2.1]
      · rw [utf8Decode_invalid (by omega) (fun h' => hs (hspells.mp h')), utf8Decode_invalid (by omega) hs]
  · rw [utf8Decode_taken, utf8Decode_taken]
    exact hrun.2

/-- Decoding takes no more bytes than it was given. -/
theorem utf8Decode_taken_le {p : List Nat} (hp : p ≠ []) : (utf8Decode p).2 ≤ p.length := by
  obtain ⟨a, q, rfl⟩ := List.exists_cons_of_ne_nil hp
  have h := utf8Decode_taken (a :: q)
  have hq := tailRun_le q
  rw [List.tail_cons] at h
  rw [List.length_cons]
  omega

/-- A byte that says no other follows is decoded alone. -/
theorem utf8Decode_alone {a : Nat} (h : utf8Length a = 1) (q : List Nat) :
    utf8Decode (a :: q) = (if a < 128 then a else invalidChar, 1) := by
  rw [utf8Decode_cons, if_pos h]
  split <;> rfl

/-! ## Forward -/

/-- The text ends in the middle of the character at the offset. -/
def CutOff (charset : Charset) (text : List Byte) (o : Nat) : Prop :=
  charset = .utf8 ∧ o < text.length ∧ text.length < o + utf8Length (text.getD o 0) ∧
    ∀ c ∈ text.drop (o + 1), isTail c = true

instance (charset : Charset) (text : List Byte) (o : Nat) : Decidable (CutOff charset text o) := by
  unfold CutOff
  infer_instance

namespace Reader

variable {r : Reader} {o : Nat}

/-- What `eb_nextc` decodes: up to six bytes of the text, and behind its end what the array held before. -/
def window (r : Reader) (o : Nat) : List Byte :=
  slice r.text o maxCharBytes ++ r.stack.drop (slice r.text o maxCharBytes).length

/-- In a charset of one byte each, `eb_nextc` reads the byte. -/
theorem nextc_byte (hu : r.charset ≠ .utf8) (ho : o < r.text.length) : r.nextc o = (r.text.getD o 0, (o : Int) + 1) := by
  rw [nextc_code _ (show (o : Int) < r.total by rw [total]; omega), Charset.code, if_pos (Or.inl hu), byte, Int.toNat_natCast]

/-- In UTF-8 it decodes what it has read. -/
theorem nextc_utf8 (hu : r.charset = .utf8) (ho : o < r.text.length) :
    r.nextc o = ((utf8Decode (r.window o)).1, o + ((utf8Decode (r.window o)).2 : Int)) := by
  obtain ⟨a, ha⟩ : ∃ a : Nat, a = r.text[o] := ⟨_, rfl⟩
  have hw : r.window o = a :: (slice r.text (o + 1) 5 ++ r.stack.drop (slice r.text o maxCharBytes).length) := by
    rw [window, show maxCharBytes = 5 + 1 from rfl, slice_head _ ho, List.cons_append, ha]
  rw [nextc_code _ (show (o : Int) < r.total by rw [total]; omega), Charset.code, byte, Int.toNat_natCast, getD_of_lt _ ho, ← ha]
  by_cases hc : a < 0x80
  · have hl : utf8Length a = 1 := utf8Length_one.mpr (Or.inl (by omega))
    rw [if_pos (Or.inr hc), hw, utf8Decode_alone hl, if_pos hc]
    rfl
  · rw [if_neg (by rintro (h | h); exacts [h hu, hc h])]
    by_cases hl : 0xc0 ≤ a ∧ a < 0xfe
    · rw [if_pos hl]
      rfl
    · have h1 : utf8Length a = 1 := utf8Length_one.mpr (by omega)
      rw [if_neg hl, hw, utf8Decode_alone h1, if_neg hc]
      rfl

/-- The character at an offset is what `utf8_decode` finds there, whatever lies on the stack. -/
theorem nextc_whole (hu : r.charset = .utf8) (ho : o < r.text.length) (hc : ¬CutOff .utf8 r.text o) :
    r.nextc o = ((utf8Decode (r.text.drop o)).1, o + ((utf8Decode (r.text.drop o)).2 : Int)) := by
  have hdec : utf8Decode (r.window o) = utf8Decode (r.text.drop o) := by
    have hl := utf8Length_le r.text[o]
    have hsplit : r.text.drop (o + 1) = slice r.text (o + 1) 5 ++ r.text.drop (o + 1 + 5) := by
      rw [slice, show r.text.drop (o + 1 + 5) = (r.text.drop (o + 1)).drop 5 by rw [List.drop_drop], List.take_append_drop]
    have hfit : utf8Length r.text[o] ≤ (slice r.text (o + 1) 5).length + 1 ∨ ∃ c ∈ slice r.text (o + 1) 5, isTail c = false := by
      by_cases hlong : o + 1 + 5 ≤ r.text.length
      · rw [length_slice _ hlong]
        exact Or.inl hl
      · have hall : slice r.text (o + 1) 5 = r.text.drop (o + 1) :=
          List.take_of_length_le (by rw [List.length_drop]; omega)
        rw [hall, List.length_drop]
        by_contra hno
        simp only [not_or, not_le, not_exists, not_and] at hno
        refine hc ⟨rfl, ho, by rw [getD_of_lt _ ho]; omega, fun c hc' => ?_⟩
        simpa using hno.2 c hc'
    rw [window, show maxCharBytes = 5 + 1 from rfl, slice_head _ ho, List.cons_append, utf8Decode_append _ _ hfit,
      List.drop_eq_getElem_cons ho, hsplit, utf8Decode_append _ _ hfit]
  rw [nextc_utf8 hu ho, hdec]

/-- Behind a character that the end of the text cuts off, `eb_nextc` goes on with whatever goes on with it on the stack. -/
theorem nextc_cutOff (hc : CutOff r.charset r.text o) (hs : ∀ i < maxCharBytes, isTail (r.stack.getD i 0) = true) :
    (r.nextc o).2 = o + (utf8Length (r.text.getD o 0) : Int) := by
  obtain ⟨hu, ho, hcut, htails⟩ := hc
  rw [getD_of_lt _ ho] at hcut ⊢
  have hl := utf8Length_le r.text[o]
  have hshort : slice r.text o maxCharBytes = r.text.drop o := List.take_of_length_le (by rw [List.length_drop]; omega)
  have hw : r.window o = r.text[o] :: (r.text.drop (o + 1) ++ r.stack.drop (r.text.drop o).length) := by
    rw [window, hshort, List.drop_eq_getElem_cons ho, List.cons_append]
  have hlong : maxCharBytes ≤ r.stack.length := by
    by_contra hlt
    have := hs (maxCharBytes - 1) (by decide)
    rw [List.getD_eq_default _ _ (by omega)] at this
    cases this
  have htail := le_tailRun (n := maxCharBytes - (r.text.drop o).length) (p := r.stack.drop (r.text.drop o).length)
    (by rw [List.length_drop (l := r.stack)]; omega) (fun i hi => by
      rw [List.getD_eq_getElem?_getD, List.getElem?_drop, ← List.getD_eq_getElem?_getD]
      exact hs _ (by omega))
  rw [nextc_utf8 hu ho, utf8Decode_taken, hw, List.tail_cons, List.headD_cons, tailRun_append htails]
  simp only [List.length_drop] at htail ⊢
  omega

/-- Where the text does not end in the middle of the character, the character and the next offset are known. -/
theorem nextc_known (ho : o < r.text.length) (hc : ¬CutOff r.charset r.text o) :
    ∃ n : Nat, 0 < n ∧ o + n ≤ r.text.length ∧ (r.nextc o).2 = ((o + n : Nat) : Int) ∧
      ∀ stack, { r with stack := stack }.nextc o = r.nextc o := by
  by_cases hu : r.charset = .utf8
  · have hne : r.text.drop o ≠ [] := by simpa using ho
    have hle := utf8Decode_taken_le hne
    rw [List.length_drop] at hle
    rw [hu] at hc
    refine ⟨(utf8Decode (r.text.drop o)).2, utf8Decode_taken_pos _, by omega, ?_, fun stack => ?_⟩
    · rw [nextc_whole hu ho hc, Nat.cast_add]
    · rw [nextc_whole hu ho hc, nextc_whole (r := { r with stack := stack }) hu ho hc]
  · refine ⟨1, by decide, ho, ?_, fun stack => ?_⟩
    · rw [nextc_byte hu ho]
      rfl
    · rw [nextc_byte hu ho, nextc_byte (r := { r with stack := stack }) hu ho]

end Reader

/-- `n` calls of `eb_nextc` from an offset on, each at the offset the last one returned; `junk` is what the array holds before
each of them. -/
def nextcWalk (t : Pages) (charset : Charset) (junk : Nat → List Byte) (start : Int) : Nat → Pages × Int
  | 0 => (t, start)
  | n + 1 =>
    let (t, offset) := nextcWalk t charset junk start n
    let (t, _, offset) := ebNextc t charset (junk n) offset
    (t, offset)

/-! ## Backward -/

namespace Reader

variable {r : Reader} {o : Nat}

/-- The first byte of a character is the last one in front that is no tail. -/
theorem firstByte_some {text : List Byte} {n offset first : Nat} (h : firstByte text n offset = some first) :
    first ≤ offset ∧ offset ≤ first + n ∧ isTail (text.getD first 0) = false ∧
      ∀ i, first < i → i ≤ offset → isTail (text.getD i 0) = true := by
  induction n generalizing offset with
  | zero =>
    rw [firstByte] at h
    split at h
    · cases h
    · rename_i ht
      cases h
      exact ⟨Nat.le_refl _, by omega, by simpa using ht, fun i h1 h2 => by omega⟩
  | succ n ih =>
    rw [firstByte.eq_def] at h
    simp only at h
    split at h
    · rename_i ht
      cases offset with
      | zero => cases h
      | succ o =>
        obtain ⟨h1, h2, h3, h4⟩ := ih h
        refine ⟨by omega, by omega, h3, fun i hi hi' => ?_⟩
        by_cases hio : i = o + 1
        · rw [hio]
          exact ht
        · exact h4 i hi (by omega)
    · rename_i ht
      cases h
      exact ⟨Nat.le_refl _, by omega, by simpa using ht, fun i h1 h2 => by omega⟩

/-- Where there is none, all bytes that were looked at are tails. -/
theorem firstByte_none {text : List Byte} {n offset : Nat} (h : firstByte text n offset = none) :
    ∀ i, i ≤ offset → offset ≤ i + n → isTail (text.getD i 0) = true := by
  induction n generalizing offset with
  | zero =>
    rw [firstByte] at h
    split at h
    · rename_i ht
      intro i h1 h2
      rwa [show i = offset by omega]
    · cases h
  | succ n ih =>
    rw [firstByte.eq_def] at h
    simp only at h
    split at h
    · rename_i ht
      intro i h1 h2
      by_cases hio : i = offset
      · rwa [hio]
      · cases offset with
        | zero => omega
        | succ o => exact ih h i (by omega) (by omega)
    · cases h

/-- The byte that begins the character, when one of the last `n + 1` bytes begins one. -/
theorem firstByte_eq {text : List Byte} {n offset first : Nat} (h1 : first ≤ offset) (h2 : offset ≤ first + n)
    (h3 : isTail (text.getD first 0) = false) (h4 : ∀ i, first < i → i ≤ offset → isTail (text.getD i 0) = true) :
    firstByte text n offset = some first := by
  cases hf : firstByte text n offset with
  | none =>
    have := firstByte_none hf first h1 h2
    rw [h3] at this
    cases this
  | some f =>
    obtain ⟨f1, f2, f3, f4⟩ := firstByte_some hf
    rcases Nat.lt_trichotomy f first with hlt | rfl | hlt
    · have := f4 first hlt h1
      rw [h3] at this
      cases this
    · rfl
    · have := h4 f hlt f1
      rw [f3] at this
      cases this

/-- In a charset of one byte each, `eb_prevc` reads the byte in front. -/
theorem prevc_byte (hu : r.charset ≠ .utf8) (ho : 0 < o) : r.prevc o = (r.text.getD (o - 1) 0, (o : Int) - 1) := by
  rw [prevc, if_neg (by omega), if_neg hu, byte, show ((o : Int) - 1).toNat = o - 1 by omega]

/-- In UTF-8 it decodes from the first byte on. -/
theorem prevc_some (hu : r.charset = .utf8) (ho : 0 < o) {first : Nat}
    (hf : firstByte r.text (maxCharBytes - 1) (o - 1) = some first) :
    r.prevc o = ((utf8Decode (slice r.text first (o - first) ++ r.stack)).1, (first : Int)) := by
  rw [prevc, if_neg (by omega), if_pos hu, Int.toNat_natCast, hf]

/-- Where there is no first byte, it goes back by seven. -/
theorem prevc_none (hu : r.charset = .utf8) (ho : 0 < o) (hf : firstByte r.text (maxCharBytes - 1) (o - 1) = none) :
    r.prevc o = (r.text.getD (o - 1) 0, (o : Int) - 1 - maxCharBytes) := by
  rw [prevc, if_neg (by omega), if_pos hu, Int.toNat_natCast, hf, byte, show ((o : Int) - 1).toNat = o - 1 by omega]

end Reader

/-! ## Texts made of characters

A text in UTF-8 is well formed when it is the encodings of accepted codes end to end; in the other charsets every text is. A
boundary lies between two of the characters. At a boundary `eb_nextc` reads the character behind it and `eb_prevc` the one in
front of it.
-/

/-- The text consists of whole characters of the charset. -/
def WellEncoded (charset : Charset) (text : List Byte) : Prop :=
  charset = .utf8 → ∃ cs : List Nat, (∀ c ∈ cs, Accepted c) ∧ text = cs.flatMap utf8Encode

/-- The text consists of whole characters of the charset, and the offset lies between two of them, or at an end. -/
def Boundary (charset : Charset) (text : List Byte) (o : Nat) : Prop :=
  o ≤ text.length ∧ (charset = .utf8 → ∃ front back : List Nat, (∀ c ∈ front ++ back, Accepted c) ∧
    text = (front ++ back).flatMap utf8Encode ∧ o = (front.flatMap utf8Encode).length)

/-- An encoding is a byte that says how many follow, and as many bytes that go on. -/
theorem utf8Encode_frame {c : Nat} (h : c < 0x80000000) :
    ∃ a q, utf8Encode c = a :: q ∧ utf8Length a = q.length + 1 ∧ isTail a = false ∧ (∀ x ∈ q, isTail x = true) ∧
      (a = newline → c = newline) := by
  by_cases hc : c < 0x80
  · refine ⟨c, [], utf8Encode_ascii hc, utf8Length_one.mpr (Or.inl (by omega)), ?_, by simp, id⟩
    by_contra ht
    have := isTail_iff.mp (by simpa using ht : isTail c = true)
    omega
  · obtain ⟨hlen, -, h128, h1, -⟩ := utf8Width_spec (by omega) h
    have hpos := utf8Width_pos c
    refine ⟨_, _, utf8Encode_eq (by omega), ?_, ?_, fun x => isTail_of_mem_digits, ?_⟩
    · rw [hlen, List.length_map, Digits.length_digits]
      omega
    · by_contra ht
      rw [utf8Length_tail (by simpa using ht)] at hlen
      exact h1 hlen.symm
    · intro hnl
      rw [hnl] at h128
      exact absurd h128 (by decide)

/-- An encoded character is a first byte and tails. -/
theorem utf8Encode_cons {c : Nat} (h : Accepted c) :
    ∃ a q, utf8Encode c = a :: q ∧ utf8Length a = q.length + 1 ∧ isTail a = false ∧ (∀ x ∈ q, isTail x = true) ∧
      (a = newline → c = newline) := utf8Encode_frame h.1

namespace Reader

variable {r : Reader} {front back : List Byte} {c : Nat}

/-- `eb_nextc` reads the character at the offset. -/
theorem nextc_encoded (hu : r.charset = .utf8) (ht : r.text = front ++ utf8Encode c ++ back) (hc : Accepted c) :
    r.nextc front.length = (c, ((front.length + (utf8Encode c).length : Nat) : Int)) := by
  obtain ⟨a, q, hq, hlen, -, -, -⟩ := utf8Encode_cons hc
  have hdrop : r.text.drop front.length = utf8Encode c ++ back := by
    rw [ht, List.append_assoc, List.drop_left]
  have hl : r.text.length = front.length + (q.length + 1) + back.length := by
    rw [ht, List.length_append, List.length_append, hq, List.length_cons]
  have ho : front.length < r.text.length := by omega
  have hhead : r.text.getD front.length 0 = a := by
    rw [ht, hq, List.append_assoc, List.getD_append_right _ _ _ _ (Nat.le_refl _), Nat.sub_self]
    rfl
  have hwhole : ¬CutOff .utf8 r.text front.length := by
    rintro ⟨-, -, hcut, -⟩
    rw [hhead, hlen] at hcut
    omega
  rw [nextc_whole hu ho hwhole, hdrop, utf8Decode_encode hc, Nat.cast_add]

/-- `eb_prevc` reads the character in front of the offset. -/
theorem prevc_encoded (hu : r.charset = .utf8) (ht : r.text = front ++ utf8Encode c ++ back) (hc : Accepted c) :
    r.prevc ((front.length + (utf8Encode c).length : Nat) : Int) = (c, (front.length : Int)) := by
  obtain ⟨a, q, hq, hlen, ha, hqt, -⟩ := utf8Encode_cons hc
  have hmax := utf8Length_le a
  have hget (i : Nat) (hi : i < q.length + 1) : r.text.getD (front.length + i) 0 = (a :: q).getD i 0 := by
    rw [ht, hq, List.append_assoc, List.getD_append_right _ _ _ _ (by omega), Nat.add_sub_cancel_left,
      List.getD_append _ _ _ _ (by simpa using hi)]
  have hfirst : firstByte r.text (maxCharBytes - 1) (front.length + (utf8Encode c).length - 1) = some front.length := by
    rw [hq, List.length_cons]
    refine firstByte_eq (by omega) (by omega) ?_ (fun i h1 h2 => ?_)
    · have := hget 0 (by omega)
      rw [Nat.add_zero] at this
      rw [this]
      exact ha
    · obtain ⟨j, rfl⟩ : ∃ j, i = front.length + (j + 1) := ⟨i - front.length - 1, by omega⟩
      have hj : j < q.length := by omega
      rw [hget (j + 1) (by omega), List.getD_cons_succ, getD_of_lt _ hj]
      exact hqt _ (List.getElem_mem hj)
  have hslice : slice r.text front.length (utf8Encode c).length = utf8Encode c := by
    rw [ht, List.append_assoc, slice_append, List.take_left]
  have hpos : 0 < front.length + (utf8Encode c).length := by rw [hq, List.length_cons]; omega
  rw [prevc_some hu hpos hfirst, Nat.add_sub_cancel_left, hslice, utf8Decode_encode hc]

end Reader

end Hoe
