import Hoe.Lemmas.Reading

/-!
# Texts spelled out

Between two characters a text is the spelling of some characters and of those behind them: a byte each, or their encodings in
UTF-8. From there `eb_nextc` goes to the other side of the next character, and `eb_prevc` to the other side of the last one.
-/

namespace Hoe

/-- The bytes of a character. -/
def charSpelling (charset : Charset) (c : Nat) : List Byte := if charset = .utf8 then utf8Encode c else [c]

/-- The bytes of some characters. -/
def spelling (charset : Charset) (cs : List Nat) : List Byte := cs.flatMap (charSpelling charset)

variable {charset : Charset} {cs ds : List Nat} {c : Nat}

@[simp] theorem spelling_nil : spelling charset [] = [] := rfl

/-- A text is spelled part by part. -/
theorem spelling_append : spelling charset (cs ++ ds) = spelling charset cs ++ spelling charset ds := List.flatMap_append

theorem spelling_singleton : spelling charset [c] = charSpelling charset c := List.flatMap_singleton ..

theorem spelling_cons : spelling charset (c :: cs) = charSpelling charset c ++ spelling charset cs := List.flatMap_cons

/-- Where each byte is a character, the characters are the bytes. -/
theorem spelling_bytes (hu : charset ≠ .utf8) (cs : List Nat) : spelling charset cs = cs := by
  induction cs with
  | nil => rfl
  | cons c cs ih =>
    rw [spelling_cons, ih, charSpelling, if_neg hu]
    rfl

/-- No character is spelled by nothing. -/
theorem length_charSpelling_pos (hc : charset = .utf8 → Accepted c) : 0 < (charSpelling charset c).length := by
  rw [charSpelling]
  split
  · rename_i hu
    obtain ⟨a, q, hq, -⟩ := utf8Encode_cons (hc hu)
    rw [hq]
    exact Nat.succ_pos _
  · exact Nat.one_pos

/-- A character of 7 bits is a byte. -/
theorem charSpelling_ascii (charset : Charset) {c : Nat} (hc : c < 0x80) : charSpelling charset c = [c] := by
  rw [charSpelling, utf8Encode_ascii hc, ite_self]

/-- Characters of 7 bits are spelled by themselves. -/
theorem spelling_ascii (charset : Charset) (hcs : ∀ c ∈ cs, c < 0x80) : spelling charset cs = cs := by
  induction cs with
  | nil => rfl
  | cons c cs ih =>
    rw [spelling_cons, charSpelling_ascii charset (hcs c List.mem_cons_self), ih fun d hd => hcs d (List.mem_cons_of_mem c hd)]
    rfl

/-- The text is the characters in front of a place and those behind it. -/
structure Spelled (r : Reader) (front back : List Nat) : Prop where
  known : r.charset = .utf8 → ∀ c ∈ front ++ back, Accepted c
  text : r.text = spelling r.charset front ++ spelling r.charset back

/-- How many bytes the characters take. -/
def spelledLen (charset : Charset) (cs : List Nat) : Nat := (spelling charset cs).length

theorem spelledLen_append : spelledLen charset (cs ++ ds) = spelledLen charset cs + spelledLen charset ds := by
  rw [spelledLen, spelling_append, List.length_append, spelledLen, spelledLen]

variable {r : Reader} {front back : List Nat}

/-- Every boundary is such a place. -/
theorem Boundary.spelled {o : Nat} (h : Boundary r.charset r.text o) : ∃ front back, Spelled r front back ∧ o = spelledLen r.charset front := by
  by_cases hu : r.charset = .utf8
  · obtain ⟨front, back, hacc, htext, ho⟩ := h.2 hu
    have hspelling (cs : List Nat) : spelling r.charset cs = cs.flatMap utf8Encode := by
      rw [spelling, hu]
      rfl
    refine ⟨front, back, ⟨fun _ => hacc, ?_⟩, ?_⟩
    · rw [hspelling, hspelling, htext, List.flatMap_append]
    · rw [spelledLen, hspelling, ho]
  · refine ⟨r.text.take o, r.text.drop o, ⟨fun h => absurd h hu, ?_⟩, ?_⟩
    · rw [spelling_bytes hu, spelling_bytes hu, List.take_append_drop]
    · rw [spelledLen, spelling_bytes hu, List.length_take_of_le h.1]

namespace Spelled

/-- The whole text is spelled by all characters. -/
theorem total (h : Spelled r front back) : r.total = (spelledLen r.charset (front ++ back) : Nat) := by
  rw [Reader.total, h.text, spelledLen, spelling_append]

/-- One character further. -/
theorem shift (h : Spelled r front (c :: back)) : Spelled r (front ++ [c]) back := by
  refine ⟨fun hu => ?_, ?_⟩
  · rw [List.append_assoc]
    exact h.known hu
  · rw [h.text, spelling_append, spelling_singleton, spelling_cons, List.append_assoc]

/-- Another place of the same text. -/
theorem split (h : Spelled r front back) {front' back' : List Nat} (heq : front ++ back = front' ++ back') : Spelled r front' back' := by
  refine ⟨heq ▸ h.known, ?_⟩
  rw [h.text, ← spelling_append, heq, spelling_append]

/-- Each character of the text can be spelled. -/
theorem accepted (h : Spelled r front back) (hc : c ∈ front ++ back) : r.charset = .utf8 → Accepted c := fun hu => h.known hu c hc

/-- A place further on is a later offset. -/
theorem spelledLen_lt (h : Spelled r front (c :: back)) : spelledLen r.charset front < spelledLen r.charset (front ++ [c]) := by
  have hpos := length_charSpelling_pos (h.accepted (c := c) (by simp))
  rw [spelledLen_append]
  rw [← spelling_singleton] at hpos
  exact Nat.lt_add_of_pos_right hpos

/-- A character is a byte at least. -/
theorem length_le (h : Spelled r front back) : (front ++ back).length ≤ r.text.length := by
  have hknown : ∀ c ∈ front ++ back, r.charset = .utf8 → Accepted c := fun c hc hu => h.known hu c hc
  rw [h.text, ← spelling_append]
  generalize front ++ back = cs at hknown
  induction cs with
  | nil => exact Nat.le_refl 0
  | cons c cs ih =>
    have hpos := length_charSpelling_pos (hknown c List.mem_cons_self)
    have htail := ih fun d hd => hknown d (List.mem_cons_of_mem c hd)
    rw [spelling_cons, List.length_append, List.length_cons]
    omega

/-- The text ends behind the last character. -/
theorem atEnd_iff (h : Spelled r front back) : r.total ≤ (spelledLen r.charset front : Nat) ↔ back = [] := by
  cases back with
  | nil => simp [h.total]
  | cons c back =>
    have hlt := h.spelledLen_lt
    have hbehind : spelledLen r.charset (front ++ c :: back) = spelledLen r.charset (front ++ [c]) + spelledLen r.charset back := by
      rw [← spelledLen_append, List.append_assoc]
      rfl
    rw [h.total, hbehind, Nat.cast_le]
    simp only [reduceCtorEq, iff_false]
    omega

/-- It begins in front of the first one. -/
theorem atStart_iff (h : Spelled r front back) : ((spelledLen r.charset front : Nat) : Int) ≤ 0 ↔ front = [] := by
  cases front with
  | nil => simp [spelledLen]
  | cons c front =>
    have hwhole : Spelled r [] (c :: (front ++ back)) := h.split rfl
    have hlt := hwhole.spelledLen_lt
    have hbehind : spelledLen r.charset (c :: front) = spelledLen r.charset ([] ++ [c]) + spelledLen r.charset front := by
      rw [← spelledLen_append]
      rfl
    rw [hbehind]
    simp only [reduceCtorEq, iff_false]
    omega

/-- `eb_nextc` reads the next character. -/
theorem nextc (h : Spelled r front (c :: back)) :
    r.nextc (spelledLen r.charset front : Nat) = (c, ((spelledLen r.charset (front ++ [c]) : Nat) : Int)) := by
  have htext := h.text
  rw [spelling_cons, ← List.append_assoc] at htext
  rw [spelledLen_append, spelledLen, spelledLen, spelling_singleton]
  by_cases hu : r.charset = .utf8
  · have hspell : charSpelling r.charset c = utf8Encode c := if_pos hu
    rw [hspell] at htext ⊢
    exact Reader.nextc_encoded hu htext (h.known hu c (by simp))
  · have hspell : charSpelling r.charset c = [c] := if_neg hu
    rw [hspell] at htext ⊢
    have hget : r.text.getD (spelling r.charset front).length 0 = c := by
      rw [htext]
      simp
    rw [Reader.nextc_byte hu (by rw [htext]; simp), ← hget]
    rfl

/-- Behind the last character `eb_nextc` stays. -/
theorem nextc_end (h : Spelled r front []) : r.nextc (spelledLen r.charset front : Nat) = (newline, r.total) := by
  refine Reader.nextc_end r ?_
  rw [h.total, List.append_nil]

/-- `eb_prevc` reads the last character. -/
theorem prevc (h : Spelled r (front ++ [c]) back) :
    r.prevc (spelledLen r.charset (front ++ [c]) : Nat) = (c, ((spelledLen r.charset front : Nat) : Int)) := by
  have htext := h.text
  have hpos := length_charSpelling_pos (h.accepted (c := c) (by simp))
  rw [spelling_append, spelling_singleton] at htext
  rw [spelledLen_append, spelledLen, spelledLen, spelling_singleton]
  by_cases hu : r.charset = .utf8
  · have hspell : charSpelling r.charset c = utf8Encode c := if_pos hu
    rw [hspell] at htext ⊢
    exact Reader.prevc_encoded hu htext (h.known hu c (by simp))
  · have hspell : charSpelling r.charset c = [c] := if_neg hu
    rw [hspell] at htext ⊢
    have hget : r.text.getD (spelling r.charset front).length 0 = c := by
      rw [htext]
      simp
    rw [Reader.prevc_byte hu (by simp), List.length_singleton, Nat.add_sub_cancel, hget]
    simp

/-- In front of the first character `eb_prevc` stays. -/
theorem prevc_start (r : Reader) : r.prevc 0 = (newline, 0) := if_pos (Int.le_refl 0)

/-- At an offset there is one way only to charSpelling out the text. -/
theorem back_unique {front' back' : List Nat} (h : Spelled r front back) (h' : Spelled r front' back')
    (heq : spelledLen r.charset front = spelledLen r.charset front') : back = back' := by
  induction back generalizing front front' back' with
  | nil =>
    have hend := h.atEnd_iff.mpr rfl
    rw [heq] at hend
    exact (h'.atEnd_iff.mp hend).symm
  | cons c back ih =>
    cases back' with
    | nil =>
      have hend := h'.atEnd_iff.mpr rfl
      rw [← heq] at hend
      exact absurd (h.atEnd_iff.mp hend) (List.cons_ne_nil _ _)
    | cons d back' =>
      have hread := h.nextc
      rw [heq, h'.nextc, Prod.mk.injEq] at hread
      obtain ⟨rfl, hnext⟩ := hread
      rw [ih h.shift h'.shift (by omega)]

/-- An offset is in front of one character only. -/
theorem unique {front' back' : List Nat} (h : Spelled r front back) (h' : Spelled r front' back')
    (heq : spelledLen r.charset front = spelledLen r.charset front') : front = front' ∧ back = back' := by
  obtain rfl := h.back_unique h' heq
  have hread : Spelled r [] (front ++ back) := h.split rfl
  have hread' : Spelled r [] (front' ++ back) := h'.split rfl
  have hwhole := hread.back_unique hread' rfl
  exact ⟨List.append_cancel_right hwhole, rfl⟩

end Spelled

end Hoe
