import Hoe.Keys
import Hoe.Lemmas.Utf8

/-!
# Words of keys

What `keytostr` prints for a key holds no blank, so `strtokey` reads as many words as there are keys. What it makes of a word
depends on the word alone when a blank follows, since the names of the keys are compared with all that is left.
-/

namespace Hoe

/-- The keys that `keytostr` does not print in UTF-8. -/
def specialKeys : List Nat :=
  List.range 32 ++ keyNames.map (·.1) ++ (List.range 96).map (keyMeta 32 + ·) ++ (List.range 12).map (keyF1 + ·)

/-- The keys that are read back wherever they stand: a letter with Control or with Meta, except for the two that have names, and a
character that has no name. -/
def readAnywhere (key : Nat) : Bool := (isLower (key + 96) && key != keyCtrl 105 && key != keyRet) ||
  (keyMeta 97 ≤ key && key ≤ keyMeta 122) || !specialKeys.contains key

/-- The keys that are read back at the end: those with a name without Control, and Meta with backspace. -/
def readLast (key : Nat) : Bool :=
  readAnywhere key || key == keyMeta keyBackspace || keyNames.any fun n => n.1 == key && n.2.take 2 != cstr "C-"

/-- A byte of a word. -/
def WordByte (c : Byte) : Prop := 32 < c

instance (c : Byte) : Decidable (WordByte c) := inferInstanceAs (Decidable (32 < c))

/-! ## Names -/

/-- The other keys are characters. -/
theorem of_not_special {key : Nat} (h : key ∉ specialKeys) :
    32 < key ∧ key ≠ keyBackspace ∧ keytostr key = utf8Encode key := by
  rw [specialKeys, List.mem_append, List.mem_append, List.mem_append, not_or, not_or, not_or] at h
  obtain ⟨⟨⟨hctrl, hname⟩, hmeta⟩, hf⟩ := h
  have hnone : keyNames.find? (·.1 == key) = none := by
    rw [List.find?_eq_none]
    intro n hn hkey
    exact hname (List.mem_map.mpr ⟨n, hn, of_decide_eq_true hkey⟩)
  have hle : 32 ≤ key := by
    rw [List.mem_range] at hctrl
    omega
  have h32 : key ≠ 32 := fun hk => hname (hk ▸ by decide)
  have h127 : key ≠ keyBackspace := fun hk => hname (hk ▸ by decide)
  refine ⟨by omega, h127, ?_⟩
  have hm : ¬(keyMeta 32 ≤ key ∧ key ≤ keyMeta 127) := by
    rintro ⟨h1, h2⟩
    refine hmeta (List.mem_map.mpr ⟨key - keyMeta 32, List.mem_range.mpr ?_, Nat.add_sub_cancel' h1⟩)
    have : keyMeta 127 = keyMeta 32 + 95 := by decide
    omega
  have hfn : ¬(keyF1 ≤ key ∧ key ≤ keyF12) := by
    rintro ⟨h1, h2⟩
    refine hf (List.mem_map.mpr ⟨key - keyF1, List.mem_range.mpr ?_, Nat.add_sub_cancel' h1⟩)
    have : keyF12 = keyF1 + 11 := by decide
    omega
  rw [keytostr, keytostrBody, hnone]
  simp only
  rw [if_neg hm, if_neg (by omega), if_neg hfn]

/-- The first byte of a character of more than one byte. -/
theorem utf8Encode_lead {key : Nat} (h : 128 ≤ key) (hkey : Accepted key) :
    ∃ a q, utf8Encode key = a :: q ∧ 128 ≤ a ∧ ∀ c ∈ q, isTail c = true :=
  ⟨_, _, utf8Encode_eq h, (utf8Width_spec h hkey.1).2.2.1, fun _ hc => isTail_of_mem_digits hc⟩

theorem utf8Encode_ne_nil (key : Nat) : utf8Encode key ≠ [] := by
  unfold utf8Encode
  simp only
  split_ifs <;> exact List.cons_ne_nil _ _

/-! ## Reading one word -/

/-- What follows a word: nothing, or a blank. -/
def WordEnd (t : List Byte) : Prop := t = [] ∨ ∃ r, t = 32 :: r

/-- The names of the keys hold no blank. -/
theorem keyNames_words : ∀ n ∈ keyNames, 32 ∉ n.2 ∧ 2 ≤ n.2.length ∧ ∀ c ∈ n.2, c < 128 := by decide

/-- A word that is read by its first byte when another word follows it: an `f` with a digit behind it is not. -/
def PlainStart (w : List Byte) : Prop := w ≠ [] ∧ w.headD 0 < 128 ∧ ¬(w.headD 0 = 102 ∧ isDigit (w.getD 1 0) = true)

instance (w : List Byte) : Decidable (PlainStart w) := by unfold PlainStart; infer_instance

/-- A word that another one follows is no name. -/
theorem strtokey1_blank {w : List Byte} (r : List Byte) (h : PlainStart w) : strtokey1 (w ++ 32 :: r) = w.headD 0 := by
  obtain ⟨hw, hascii, hf⟩ := h
  obtain ⟨a, w, rfl⟩ := List.exists_cons_of_ne_nil hw
  have hnone : keyNames.find? (·.2 == (a :: w) ++ 32 :: r) = none := by
    rw [List.find?_eq_none]
    intro n hn heq
    refine (keyNames_words n hn).1 ?_
    rw [eq_of_beq heq]
    exact List.mem_append_right _ List.mem_cons_self
  rw [strtokey1, hnone]
  simp only
  rw [if_neg, utf8Decode_ascii]
  · rfl
  · exact hascii
  · rintro ⟨ha, hd⟩
    cases w with
    | nil => exact absurd hd Bool.false_ne_true
    | cons b w => exact hf ⟨ha, hd⟩

/-- A word that another one follows, as `strtokey` reads it. -/
def firstKey (w : List Byte) : Nat :=
  let letter := (w.drop 2).headD 0
  if w.take 2 = cstr "C-" then (if isLower letter then keyCtrl letter else letter)
  else if w.take 2 = cstr "M-" then (if isLower letter ∨ letter = keyBackspace then keyMeta letter else letter)
  else w.headD 0

/-- A word that `firstKey` reads. -/
def Plain (w : List Byte) : Prop :=
  PlainStart w ∧ (w.take 2 = cstr "C-" ∨ w.take 2 = cstr "M-" → PlainStart (w.drop 2))

instance (w : List Byte) : Decidable (Plain w) := by unfold Plain; infer_instance

theorem take_two_blank {w : List Byte} (r : List Byte) {a b : Byte} (hb : b ≠ 32) (hw : w ≠ []) :
    (w ++ 32 :: r).take 2 = [a, b] ↔ w.take 2 = [a, b] := by
  match w, hw with
  | [c], _ =>
    refine iff_of_false ?_ ?_
    · intro h
      exact hb (List.cons.inj (List.cons.inj h).2).1.symm
    · intro h
      exact List.cons_ne_nil _ _ (List.cons.inj h).2.symm
  | c :: d :: w, _ => exact Iff.rfl

theorem keyOf_blank {w : List Byte} (r : List Byte) (hplain : Plain w) : keyOf (w ++ 32 :: r) = firstKey w := by
  obtain ⟨hstart, hmod⟩ := hplain
  -- behind a modifier, the rest of the word is read the same way
  have hrest : w.take 2 = cstr "C-" ∨ w.take 2 = cstr "M-" → strtokey1 ((w ++ 32 :: r).drop 2) = (w.drop 2).headD 0 := by
    intro h
    have hlen : 2 ≤ w.length := by
      by_contra hlt
      exact (hmod h).1 (List.drop_eq_nil_of_le (by omega))
    rw [List.drop_append_of_le_length hlen, strtokey1_blank r (hmod h)]
  have hc : (w ++ 32 :: r).take 2 = cstr "C-" ↔ w.take 2 = cstr "C-" := take_two_blank r (by decide) hstart.1
  have hm : (w ++ 32 :: r).take 2 = cstr "M-" ↔ w.take 2 = cstr "M-" := take_two_blank r (by decide) hstart.1
  rw [keyOf, firstKey]
  by_cases h1 : w.take 2 = cstr "C-"
  · rw [if_pos (hc.mpr h1), if_pos h1, hrest (.inl h1)]
  · rw [if_neg (mt hc.mp h1), if_neg h1]
    by_cases h2 : w.take 2 = cstr "M-"
    · rw [if_pos (hm.mpr h2), if_pos h2, hrest (.inr h2)]
    · rw [if_neg (mt hm.mp h2), if_neg h2, strtokey1_blank r hstart]

/-! ## The key of a word -/

/-- A modifier and one character. -/
def LetterWord (w : List Byte) : Prop :=
  w.length = 3 ∧ (w.take 2 = cstr "C-" ∨ w.take 2 = cstr "M-") ∧ w.getD 2 0 < 128

instance (w : List Byte) : Decidable (LetterWord w) := by unfold LetterWord; infer_instance

theorem LetterWord.cut {w : List Byte} (h : LetterWord w) : ∃ c < 128, w = cstr "C-" ++ [c] ∨ w = cstr "M-" ++ [c] := by
  obtain ⟨hlen, hmod, hc⟩ := h
  obtain ⟨a, b, c, rfl⟩ := List.length_eq_three.1 hlen
  exact ⟨c, hc, hmod.imp (congrArg (· ++ [c])) (congrArg (· ++ [c]))⟩

/-- No name of a key is a single character. -/
theorem strtokey1_char {c : Nat} (hc : c < 128) : strtokey1 [c] = c := by
  have hnone : keyNames.find? (·.2 == [c]) = none := by
    rw [List.find?_eq_none]
    intro n hn heq
    have hlen := (keyNames_words n hn).2.1
    rw [eq_of_beq heq, List.length_singleton] at hlen
    omega
  rw [strtokey1, hnone]
  simp only
  rw [if_neg (fun h => Bool.false_ne_true h.2), utf8Decode_ascii]
  · rfl
  · exact hc

theorem LetterWord.plain {w : List Byte} (h : LetterWord w) : Plain w := by
  obtain ⟨c, hc, rfl | rfl⟩ := h.cut <;> simp [Plain, PlainStart, cstr, isDigit, hc]

theorem LetterWord.keyOf_eq {w : List Byte} (h : LetterWord w) : keyOf w = firstKey w := by
  obtain ⟨c, hc, rfl | rfl⟩ := h.cut
  · have hdrop : (cstr "C-" ++ [c]).drop 2 = [c] := rfl
    have htake : (cstr "C-" ++ [c]).take 2 = cstr "C-" := rfl
    rw [keyOf, firstKey, if_pos htake, if_pos htake, hdrop, strtokey1_char hc]
    rfl
  · have hdrop : (cstr "M-" ++ [c]).drop 2 = [c] := rfl
    have hne : (cstr "M-" ++ [c]).take 2 ≠ cstr "C-" := by simp [cstr]
    have htake : (cstr "M-" ++ [c]).take 2 = cstr "M-" := rfl
    rw [keyOf, firstKey, if_neg hne, if_neg hne, if_pos htake, if_pos htake, hdrop, strtokey1_char hc]
    rfl

/-- What is left of such a word when it is cut off is read as a letter, or as nothing. -/
theorem LetterWord.keyOf_take {w : List Byte} (h : LetterWord w) {n : Nat} (hn : 0 < n) (hlen : n < w.length) :
    keyOf (w.take n) = 67 ∧ n = 1 ∨ keyOf (w.take n) = 77 ∧ n = 1 ∨ keyOf (w.take n) = 0 ∧ n = 2 := by
  have hn : n = 1 ∨ n = 2 := by
    have := h.1
    omega
  obtain ⟨c, -, rfl | rfl⟩ := h.cut <;> rcases hn with rfl | rfl
  · exact .inl ⟨show keyOf [67] = 67 by decide, rfl⟩
  · exact .inr (.inr ⟨show keyOf [67, 45] = 0 by decide, rfl⟩)
  · exact .inr (.inl ⟨show keyOf [77] = 77 by decide, rfl⟩)
  · exact .inr (.inr ⟨show keyOf [77, 45] = 0 by decide, rfl⟩)

/-- What `readAnywhere` says of a key that is not a character. -/
def readLetter (key : Nat) : Bool :=
  (isLower (key + 96) && key != keyCtrl 105 && key != keyRet) || (keyMeta 97 ≤ key && key ≤ keyMeta 122)

/-- What `readLast` says of it. -/
def readName (key : Nat) : Bool :=
  readLetter key || key == keyMeta keyBackspace || keyNames.any fun n => n.1 == key && n.2.take 2 != cstr "C-"

/-- What is evaluated of the word of such a key. The parser is only run on a word that is not a modifier with a character. -/
def WordOf (key : Nat) (w : List Byte) : Prop :=
  (∀ c ∈ w, WordByte c ∧ c < 128) ∧ w.length ≤ 11 ∧ (firstKey w = key ↔ readLetter key = true) ∧
    (LetterWord w ∧ (firstKey w = key ↔ readName key = true) ∧ 67 ≠ key ∧ 77 ≠ key ∨
      Plain w ∧ (keyOf w = key ↔ readName key = true) ∧ ∀ n < w.length, 0 < n → (keyOf (w.take n) = key ↔ key = 0 ∧ n = 2))

instance (key : Nat) (w : List Byte) : Decidable (WordOf key w) := by unfold WordOf; infer_instance

/-- A name of the table, a letter with a modifier, or a function key. -/
theorem special_words : ∀ key ∈ specialKeys, WordOf key (keytostr key) := by decide +kernel

theorem special_plain {key : Nat} (h : key ∈ specialKeys) : Plain (keytostr key) := by
  obtain ⟨-, -, -, ⟨hletter, -⟩ | ⟨hplain, -⟩⟩ := special_words key h
  · exact hletter.plain
  · exact hplain

theorem readAnywhere_special {key : Nat} (h : key ∈ specialKeys) : readAnywhere key = readLetter key := by
  rw [readAnywhere, List.contains_iff_mem.2 h]
  exact Bool.or_false _

theorem readLast_special {key : Nat} (h : key ∈ specialKeys) : readLast key = readName key := by
  rw [readLast, readAnywhere_special h, readName]

theorem keytostr_special {key : Nat} (h : key ∈ specialKeys) :
    keytostr key ≠ [] ∧ (∀ c ∈ keytostr key, WordByte c ∧ c < 128) ∧ (keytostr key).length ≤ 11 := by
  obtain ⟨hbytes, hlen, -⟩ := special_words key h
  exact ⟨(special_plain h).1.1, hbytes, hlen⟩

/-- No name is empty or holds a blank. -/
theorem keytostr_word {key : Nat} (hkey : Accepted key) : keytostr key ≠ [] ∧ ∀ c ∈ keytostr key, WordByte c := by
  by_cases h : key ∈ specialKeys
  · exact ⟨(keytostr_special h).1, fun c hc => ((keytostr_special h).2.1 c hc).1⟩
  · obtain ⟨hlt, -, heq⟩ := of_not_special h
    rw [heq]
    refine ⟨utf8Encode_ne_nil key, ?_⟩
    intro c hc
    by_cases hsmall : key < 128
    · rw [utf8Encode_ascii hsmall, List.mem_singleton] at hc
      exact hc ▸ hlt
    · obtain ⟨a, q, heq, ha, hq⟩ := utf8Encode_lead (by omega) hkey
      rw [heq] at hc
      rcases List.mem_cons.mp hc with rfl | hc
      · exact lt_of_lt_of_le (by decide) ha
      · exact lt_of_lt_of_le (by decide) (isTail_iff.mp (hq c hc)).1

/-- The names of the keys that are not characters, when another word follows. -/
theorem special_blank : ∀ key ∈ specialKeys, Plain (keytostr key) ∧ (firstKey (keytostr key) = key ↔ readAnywhere key = true) := by
  intro key h
  obtain ⟨-, -, hfirst, -⟩ := special_words key h
  exact ⟨special_plain h, by rw [readAnywhere_special h, hfirst]⟩

/-- The names of the keys that are not characters, at the end. -/
theorem special_last : ∀ key ∈ specialKeys, keyOf (keytostr key) = key ↔ readLast key = true := by
  intro key h
  obtain ⟨-, -, -, ⟨hletter, hlast, -⟩ | ⟨-, hlast, -⟩⟩ := special_words key h
  · rw [hletter.keyOf_eq, readLast_special h, hlast]
  · rw [readLast_special h, hlast]

/-- The names of the keys that are not characters, cut off. -/
theorem special_cut : ∀ key ∈ specialKeys, ∀ n < (keytostr key).length, 0 < n →
    (keyOf ((keytostr key).take n) = key ↔ key = 0 ∧ n = 2) := by
  intro key h n hlen hn
  obtain ⟨-, -, -, ⟨hletter, -, hC, hM⟩ | ⟨-, -, hcut⟩⟩ := special_words key h
  · rcases hletter.keyOf_take hn hlen with ⟨heq, rfl⟩ | ⟨heq, rfl⟩ | ⟨heq, rfl⟩
    · simp [heq, hC]
    · simp [heq, hM]
    · simp [heq, eq_comm]
  · exact hcut n hlen hn

/-- A word that begins with a byte of a longer character is read as UTF-8. -/
theorem keyOf_lead {a : Nat} (ha : 128 ≤ a) (p : List Nat) : keyOf (a :: p) = (utf8Decode (a :: p)).1 := by
  have hmod : ∀ (b : Nat) (q : List Nat), b < 128 → (a :: p).take 2 ≠ b :: q := by
    intro b q hb heq
    have : a = b := (List.cons.inj heq).1
    omega
  have hnone : keyNames.find? (·.2 == a :: p) = none := by
    rw [List.find?_eq_none]
    intro n hn heq
    have hascii := (keyNames_words n hn).2.2
    rw [eq_of_beq heq] at hascii
    exact Nat.not_lt.mpr ha (hascii a List.mem_cons_self)
  have hf : ¬((a :: p).headD 0 = 102 ∧ isDigit ((a :: p).getD 1 0) = true) := by
    rintro ⟨hf, -⟩
    have : a = 102 := hf
    omega
  have hctrl : (a :: p).take 2 ≠ cstr "C-" := hmod 67 [45] (by decide)
  have hmeta : (a :: p).take 2 ≠ cstr "M-" := hmod 77 [45] (by decide)
  rw [keyOf, if_neg hctrl, if_neg hmeta, strtokey1, hnone]
  simp only
  rw [if_neg hf]

/-- A single ASCII character is a word that every function of the parser reads by its first byte. -/
theorem plain_ascii : ∀ a < 128, 32 < a → Plain [a] ∧ firstKey [a] = a ∧ keyOf [a] = a := by
  intro a ha _
  refine ⟨?_, ?_, ?_⟩
  · simp [Plain, PlainStart, cstr, isDigit, ha]
  · simp [firstKey, cstr]
  · simp [keyOf, cstr, strtokey1_char ha]

/-- A character is read back, whatever follows it. -/
theorem keyOf_char {key : Nat} (hkey : Accepted key) (h : key ∉ specialKeys) {t : List Byte} (ht : WordEnd t) :
    keyOf (utf8Encode key ++ t) = key := by
  by_cases hsmall : key < 128
  · obtain ⟨hplain, hfirst, hlast⟩ := plain_ascii key hsmall (of_not_special h).1
    rw [utf8Encode_ascii hsmall]
    rcases ht with rfl | ⟨r, rfl⟩
    · exact hlast
    · exact (keyOf_blank r hplain).trans hfirst
  · obtain ⟨a, q, hq, ha, -⟩ := utf8Encode_lead (by omega) hkey
    have hdec := utf8Decode_encode hkey t
    rw [hq] at hdec ⊢
    exact (keyOf_lead ha _).trans (congrArg Prod.fst hdec)

/-- A part of a character is read as the character that stands for what is invalid. -/
theorem keyOf_char_cut {key : Nat} (hkey : Accepted key) {n : Nat} (hn : 0 < n) (hlen : n < (utf8Encode key).length) :
    keyOf ((utf8Encode key).take n) = key ↔ key = invalidChar := by
  have h128 : 128 ≤ key := by
    by_contra hlt
    rw [utf8Encode_ascii (by omega), List.length_singleton] at hlen
    omega
  obtain ⟨a, q, hq, ha, -⟩ := utf8Encode_lead h128 hkey
  have htake : (utf8Encode key).take n = a :: q.take (n - 1) := by
    rw [hq, List.take_cons hn]
  rw [htake, keyOf_lead ha]
  have hinvalid : (utf8Decode (a :: q.take (n - 1))).1 = key → key = invalidChar := by
    intro hk
    by_contra hne
    obtain ⟨hvalid, -⟩ := utf8Decode_valid (List.cons_ne_nil a (q.take (n - 1))) (hk ▸ hne)
    rw [hk, ← htake] at hvalid
    have hle := List.length_take_le' (utf8Decode ((utf8Encode key).take n)).2 ((utf8Encode key).take n)
    rw [hvalid, List.length_take] at hle
    omega
  refine ⟨hinvalid, ?_⟩
  rintro rfl
  obtain ⟨rfl, rfl⟩ := List.cons.inj (hq.symm.trans (rfl : utf8Encode invalidChar = [0xef, 0xbf, 0xbd]))
  have hlt : n < 3 := hlen
  interval_cases n <;> decide

end Hoe
