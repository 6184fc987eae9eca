import Hoe.Lemmas.Keys

/-!
# Key names, printed and read back

What `keys_to_str` prints for a sequence of keys is read back by the loop of `do_global_set_key` when the names are short enough
for the buffer and every key is one that `strtokey` knows where it stands (`Readable`). The functions keys, most keys with a
modifier, and every name that another key follows, are lost.
-/

namespace Hoe

/-- The sequences that are read back from a buffer with room for so many bytes. A key that the end of the buffer cuts off is read
back only if it is the last one and what is left of it spells it by chance: "C-" for "C-space", and a part of the character that
stands for what is invalid. -/
def Readable : Nat → List Nat → Prop
  | _, [] => True
  | room, [key] =>
    ((keytostr key).length ≤ room ∧ readLast key = true) ∨ (room = 2 ∧ key = 0) ∨ ((room = 1 ∨ room = 2) ∧ key = invalidChar)
  | room, key :: key₂ :: keys =>
    (keytostr key).length < room ∧ readAnywhere key = true ∧ Readable (room - (keytostr key).length - 1) (key₂ :: keys)

/-- `Readable` can be computed. -/
instance decidableReadable : ∀ room keys, Decidable (Readable room keys)
  | _, [] => inferInstanceAs (Decidable True)
  | _, [_] => inferInstanceAs (Decidable (_ ∨ _ ∨ _))
  | room, key :: key₂ :: keys =>
    have := decidableReadable (room - (keytostr key).length - 1) (key₂ :: keys)
    inferInstanceAs (Decidable (_ ∧ _ ∧ _))

/-- The names of the keys, with blanks between them. -/
def keyText (keys : List Nat) : List Byte := [32].intercalate (keys.map keytostr)

/-! ## Printing -/

/-- Appending to a text that is cut gives the cut text. -/
theorem pstrcat_take (bufSize : Nat) (t s : List Byte) : pstrcat bufSize (t.take (bufSize - 1)) s = (t ++ s).take (bufSize - 1) := by
  rw [pstrcat, List.length_take, List.take_append]
  split_ifs with h
  · congr 2
    omega
  · have : bufSize - 1 - t.length = 0 := by omega
    rw [this, List.take_zero, List.append_nil]

/-- So it is with the names of the keys. -/
theorem addKeys_take (bufSize : Nat) (t : List Byte) (keys : List Nat) :
    addKeys bufSize (t.take (bufSize - 1)) keys = (t ++ (keys.map fun key => 32 :: keytostr key).flatten).take (bufSize - 1) := by
  induction keys generalizing t with
  | nil => rw [addKeys, List.map_nil, List.flatten_nil, List.append_nil]
  | cons key keys ih =>
    rw [addKeys, pstrcat_take, pstrcat_take, ih, List.map_cons, List.flatten_cons, List.append_assoc, List.append_assoc]
    rfl

/-- The first key has no blank in front. -/
theorem keyText_cons (key : Nat) (keys : List Nat) :
    keyText (key :: keys) = keytostr key ++ (keys.map fun key => 32 :: keytostr key).flatten := by
  induction keys generalizing key with
  | nil => simp [keyText]
  | cons key₂ keys ih =>
    have := ih key₂
    rw [List.map_cons, List.flatten_cons, List.cons_append, ← this]
    simp [keyText, List.intercalate]

/-- `keys_to_str` prints the names with blanks between them, as far as there is room. -/
theorem keysToStr_eq (bufSize : Nat) (keys : List Nat) : keysToStr bufSize keys = (keyText keys).take (bufSize - 1) := by
  cases keys with
  | nil => exact List.take_nil.symm
  | cons key keys =>
    rw [keysToStr, keyText_cons, ← addKeys_take]
    congr 1
    have := pstrcat_take bufSize [] (keytostr key)
    rwa [List.take_nil, List.nil_append] at this

/-! ## Reading -/

/-- A word begins with no blank. -/
theorem skipSpaces_word {w : List Byte} (hw : w ≠ []) (h : ∀ c ∈ w, WordByte c) (t : List Byte) : skipSpaces (w ++ t) = w ++ t := by
  obtain ⟨a, w, rfl⟩ := List.exists_cons_of_ne_nil hw
  rw [skipSpaces, List.cons_append, List.dropWhile_cons_of_neg]
  have ha : 32 < a := h a List.mem_cons_self
  simp only [cssIsSpace, Bool.or_eq_true, beq_iff_eq]
  rintro (((h' | h') | h') | h') <;> exact absurd (h' ▸ ha) (by decide)

/-- Behind a word is what ends it. -/
theorem dropWhile_word {w : List Byte} (h : ∀ c ∈ w, WordByte c) {t : List Byte} (ht : WordEnd t) :
    (w ++ t).dropWhile (· != 32) = t := by
  induction w with
  | nil =>
    rcases ht with rfl | ⟨r, rfl⟩
    · rfl
    · rfl
  | cons a w ih =>
    have ha : 32 < a := h a List.mem_cons_self
    rw [List.cons_append, List.dropWhile_cons_of_pos]
    · exact ih fun c hc => h c (List.mem_cons_of_mem _ hc)
    · exact bne_iff_ne.mpr fun h' => absurd (h' ▸ ha) (by decide)

/-- A word is read, and then what is behind it. -/
theorem parseKeys_word {w : List Byte} (hw : w ≠ []) (h : ∀ c ∈ w, WordByte c) {t : List Byte} (ht : WordEnd t) (n : Nat) :
    parseKeys (n + 1) (w ++ t) = keyOf (w ++ t) :: parseKeys n t := by
  have hne : w ++ t ≠ [] := fun h' => hw (List.append_eq_nil_iff.mp h').1
  rw [parseKeys, skipSpaces_word hw h]
  simp only
  rw [if_neg hne, strtokey, dropWhile_word h ht]

theorem parseKeys_nil (n : Nat) : parseKeys n [] = [] := by
  cases n <;> rfl

/-- Blanks in front of a key are skipped. -/
theorem parseKeys_blank (n : Nat) (r : List Byte) : parseKeys n (32 :: r) = parseKeys n r := by
  cases n <;> rfl

/-! ## One key -/

/-- A key that another one follows. -/
theorem keyOf_keytostr_blank {key : Nat} (hkey : Accepted key) (r : List Byte) :
    keyOf (keytostr key ++ 32 :: r) = key ↔ readAnywhere key = true := by
  by_cases h : key ∈ specialKeys
  · obtain ⟨hplain, hread⟩ := special_blank key h
    rw [keyOf_blank r hplain, hread]
  · have hread : readAnywhere key = true := by
      rw [readAnywhere, List.contains_eq_mem, decide_eq_false h]
      exact Bool.or_true _
    rw [(of_not_special h).2.2, keyOf_char hkey h (.inr ⟨r, rfl⟩), hread]
    exact iff_of_true rfl rfl

/-- The last key. -/
theorem keyOf_keytostr {key : Nat} (hkey : Accepted key) : keyOf (keytostr key) = key ↔ readLast key = true := by
  by_cases h : key ∈ specialKeys
  · exact special_last key h
  · have hread : readLast key = true := by
      rw [readLast, readAnywhere, List.contains_eq_mem, decide_eq_false h, Bool.not_false, Bool.or_true, Bool.true_or, Bool.true_or]
    have := keyOf_char hkey h (.inl rfl)
    rw [List.append_nil] at this
    rw [(of_not_special h).2.2, this, hread]
    exact iff_of_true rfl rfl

/-- The last key, cut off. -/
theorem keyOf_keytostr_cut {key : Nat} (hkey : Accepted key) {n : Nat} (hn : 0 < n) (hlen : n < (keytostr key).length) :
    keyOf ((keytostr key).take n) = key ↔ (n = 2 ∧ key = 0) ∨ ((n = 1 ∨ n = 2) ∧ key = invalidChar) := by
  by_cases h : key ∈ specialKeys
  · have hvalid : key ≠ invalidChar := fun hk => absurd h (hk ▸ by decide)
    rw [special_cut key h n hlen hn]
    tauto
  · have h0 : key ≠ 0 := fun hk => h (hk ▸ by decide)
    rw [(of_not_special h).2.2] at hlen ⊢
    rw [keyOf_char_cut hkey hn hlen]
    constructor
    · rintro rfl
      have : n < 3 := hlen
      exact .inr ⟨by omega, rfl⟩
    · rintro (⟨-, hk⟩ | ⟨-, hk⟩)
      · exact absurd hk h0
      · exact hk

/-! ## A sequence -/

/-- The last key is read back from as much of it as there is room for. -/
theorem parseKeys_last {key : Nat} (hkey : Accepted key) (n room : Nat) :
    parseKeys (n + 1) ((keytostr key).take room) = [key] ↔ Readable room [key] := by
  obtain ⟨hne, hword⟩ := keytostr_word hkey
  have hlen := List.length_pos_of_ne_nil hne
  cases room with
  | zero =>
    refine iff_of_false ?_ ?_
    · rw [List.take_zero, parseKeys_nil]
      exact (List.cons_ne_nil key []).symm
    · rintro (⟨h, -⟩ | ⟨h, -⟩ | ⟨h, -⟩) <;> omega
  | succ room =>
    have hcut : (keytostr key).take (room + 1) ≠ [] := by
      rw [Ne, List.take_eq_nil_iff]
      exact fun h => h.elim (Nat.succ_ne_zero room) hne
    have hread := parseKeys_word hcut (fun c hc => hword c (List.mem_of_mem_take hc)) (.inl rfl) n
    rw [List.append_nil, parseKeys_nil] at hread
    rw [hread, List.cons.injEq, eq_self_iff_true, and_true, Readable]
    rcases Nat.lt_or_ge (room + 1) (keytostr key).length with hlt | hge
    · rw [keyOf_keytostr_cut hkey (Nat.succ_pos room) hlt]
      exact ⟨.inr, fun h => h.resolve_left fun h => absurd h.1 (by omega)⟩
    · rw [List.take_of_length_le hge, keyOf_keytostr hkey]
      refine ⟨fun h => .inl ⟨hge, h⟩, ?_⟩
      rintro (⟨-, h⟩ | ⟨hroom, rfl⟩ | ⟨-, rfl⟩)
      · exact h
      · exact absurd hge (by rw [hroom]; decide)
      · decide

/-- The keys are read back from as much of their text as there is room for. -/
theorem parseKeys_keyText {keys : List Nat} (hkeys : ∀ key ∈ keys, Accepted key) {n : Nat} (hn : keys.length ≤ n) (room : Nat) :
    parseKeys n ((keyText keys).take room) = keys ↔ Readable room keys := by
  induction keys generalizing n room with
  | nil =>
    refine iff_of_true ?_ trivial
    rw [show keyText [] = [] from rfl, List.take_nil, parseKeys_nil]
  | cons key keys ih =>
    obtain ⟨hkey, hkeys⟩ := List.forall_mem_cons.mp hkeys
    obtain ⟨hne, hword⟩ := keytostr_word hkey
    obtain ⟨n, rfl⟩ := Nat.exists_eq_add_of_lt (Nat.lt_of_lt_of_le (Nat.succ_pos _) hn)
    rw [Nat.zero_add] at hn ⊢
    cases keys with
    | nil =>
      rw [keyText_cons, List.map_nil, List.flatten_nil, List.append_nil]
      exact parseKeys_last hkey n room
    | cons key₂ keys =>
      have htext : keyText (key :: key₂ :: keys) = keytostr key ++ 32 :: keyText (key₂ :: keys) := by
        rw [keyText_cons, keyText_cons, List.map_cons, List.flatten_cons, List.cons_append]
      rw [htext, Readable, List.take_append]
      rcases Nat.lt_or_ge (keytostr key).length room with hlt | hge
      · -- the blank behind the name is there
        obtain ⟨m, hm⟩ := Nat.exists_eq_add_of_lt hlt
        have hroom : room - (keytostr key).length = m + 1 := by omega
        rw [List.take_of_length_le hlt.le, hroom, List.take_succ_cons, parseKeys_word hne hword (.inr ⟨_, rfl⟩), parseKeys_blank,
          List.cons.injEq, keyOf_keytostr_blank hkey, ih hkeys (Nat.le_of_succ_le_succ hn), Nat.add_sub_cancel]
        exact ⟨fun h => ⟨hlt, h⟩, fun h => h.2⟩
      · -- there is one word at most, and two keys
        refine iff_of_false ?_ fun h => absurd h.1 (Nat.not_lt.mpr hge)
        rw [Nat.sub_eq_zero_of_le hge, List.take_zero, List.append_nil]
        intro h
        by_cases hcut : (keytostr key).take room = []
        · rw [hcut, parseKeys_nil] at h
          exact List.cons_ne_nil _ _ h.symm
        · have hread := parseKeys_word hcut (fun c hc => hword c (List.mem_of_mem_take hc)) (.inl rfl) n
          rw [List.append_nil, parseKeys_nil] at hread
          rw [hread] at h
          exact List.cons_ne_nil _ _ (List.cons.inj h).2.symm

/-- A sequence of keys that the editor can receive is read back from the text that `keys_to_str` prints to a buffer if and only if
it is `Readable` with the room of the buffer. -/
theorem keys_read_back {keys : List Nat} (hkeys : ∀ key ∈ keys, Accepted key) (hlen : keys.length ≤ maxKeys) (bufSize : Nat) :
    parseKeys maxKeys (keysToStr bufSize keys) = keys ↔ Readable (bufSize - 1) keys := by
  rw [keysToStr_eq]
  exact parseKeys_keyText hkeys hlen _

/-- "C-x f" and "C-x left". -/
theorem keys_read_back_named :
    parseKeys maxKeys (keysToStr 128 [keyCtrl 120, 102]) = [keyCtrl 120, 102] ∧
      parseKeys maxKeys (keysToStr 128 [keyCtrl 120, keyEsc1 68]) = [keyCtrl 120, keyEsc1 68] :=
  ⟨(keys_read_back (by decide) (by decide) 128).mpr (by decide +kernel),
    (keys_read_back (by decide) (by decide) 128).mpr (by decide +kernel)⟩

/-- "RET C-x" is read as the letter R and C-x, "F1" as the letter F, and "M-A" as the letter A. -/
theorem not_keys_read_back :
    ¬ (∀ keys, (∀ key ∈ keys, Accepted key) → 1 ≤ keys.length → keys.length ≤ maxKeys →
      parseKeys maxKeys (keysToStr 128 keys) = keys) ∧
    parseKeys maxKeys (keysToStr 128 [keyRet, keyCtrl 120]) = [82, keyCtrl 120] ∧
      parseKeys maxKeys (keysToStr 128 [keyF1]) = [70] ∧ parseKeys maxKeys (keysToStr 128 [keyMeta 65]) = [65] := by
  refine ⟨fun h => ?_, by decide +kernel⟩
  have := h [keyRet, keyCtrl 120] (by decide) (by decide) (by decide)
  revert this
  decide +kernel

end Hoe
