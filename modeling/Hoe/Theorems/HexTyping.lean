import Hoe.Lemmas.WriteChar

/-!
# Typing in hexadecimal

The first digit inserts a character that has zeros for the other digits, and each further digit replaces it by the one with that
digit. What stands there in between is a character that the charset has, so that `eb_nextc` reads it back whole.
-/

namespace Hoe

open Splice Digits

/-- The number with zeros for its last hexadecimal digits. -/
def upperDigits (c k : Nat) : Nat := c / 16 ^ k * 16 ^ k

theorem upperDigits_zero (c : Nat) : upperDigits c 0 = c := by simp [upperDigits]

theorem upperDigits_le (c k : Nat) : upperDigits c k ≤ c := Nat.div_mul_le_self _ _

/-- The next digit takes the place of a zero. -/
theorem setNibble_upperDigits (c k : Nat) : setNibble (upperDigits c (k + 1)) (k * 4) (c / 16 ^ k % 16) = upperDigits c k := by
  have hshift : 2 ^ (k * 4 + 4) = 16 ^ (k + 1) := by
    rw [show k * 4 + 4 = 4 * (k + 1) by ring, pow_mul]
    norm_num
  have hlow : 2 ^ (k * 4) = 16 ^ k := by
    rw [mul_comm, pow_mul]
    norm_num
  have hsucc : 16 ^ (k + 1) = 16 * 16 ^ k := pow_succ' 16 k
  have hdiv : c / 16 ^ (k + 1) = c / 16 ^ k / 16 := by rw [pow_succ, Nat.div_div_eq_div_mul]
  have hsplit := Nat.div_add_mod (c / 16 ^ k) 16
  have hmod : upperDigits c (k + 1) % 16 ^ k = 0 := by
    rw [upperDigits, hsucc, ← mul_assoc]
    exact Nat.mul_mod_left _ _
  have hupper : upperDigits c (k + 1) / 16 ^ (k + 1) = c / 16 ^ (k + 1) := Nat.mul_div_cancel _ (by positivity)
  rw [setNibble, hshift, hlow, hmod, hupper, Nat.add_zero, hdiv, hsucc, ← mul_assoc, ← Nat.add_mul, mul_comm (_ / 16) 16, hsplit]
  rfl

/-- The first of the digits. -/
theorem upperDigits_first {c k : Nat} (hc : c < 16 ^ (k + 1)) : c / 16 ^ k % 16 * 2 ^ (k * 4) = upperDigits c k := by
  have hlow : 2 ^ (k * 4) = 16 ^ k := by
    rw [mul_comm, pow_mul]
    norm_num
  have hlt : c / 16 ^ k < 16 := by
    rw [Nat.div_lt_iff_lt_mul (by positivity), ← pow_succ']
    exact hc
  rw [hlow, Nat.mod_eq_of_lt hlt, upperDigits]

namespace Editor

variable {s s' : Editor} {front back : List Byte} {c h : Nat} {key k : Nat} (junk : Byte)

/-- What can be typed in hexadecimal: a byte, or in unihex mode a character of the charset that has four digits. -/
def HexTypable (s : Editor) (c : Nat) : Prop := c < 16 ^ s.hexSize ∧ (s.unihexMode = true → Known s.charset c)

/-- The keys of a character one after the other. -/
def typeHex (s : Editor) (junk : Byte) (keys : List Nat) : Option Editor := keys.foldlM (fun s key => s.hexWriteChar junk key) s

/-- A character stays one when zeros take the place of its last digits. -/
theorem HexTypable.upperDigits (hc : s.HexTypable c) (hk : k < s.hexSize) : s.HexTypable (upperDigits c k) := by
  refine ⟨(upperDigits_le c k).trans_lt hc.1, fun hu => ?_⟩
  have hknown := hc.2 hu
  have hle := upperDigits_le c k
  have hsize : s.hexSize = 4 := if_pos hu
  rw [hsize] at hk
  have hc := hc.1
  rw [hsize] at hc
  cases hcs : s.charset with
  | latin1 =>
    rw [hcs] at hknown
    exact hle.trans_lt hknown
  | ascii =>
    rw [hcs] at hknown
    exact hle.trans_lt hknown
  | utf8 =>
    rw [hcs] at hknown
    obtain ⟨-, hsur, hfffe, hffff⟩ : Accepted c := hknown
    have hacc : Accepted (Hoe.upperDigits c k) := by
      unfold Accepted Hoe.upperDigits
      interval_cases k <;> simp only [Nat.reducePow] at hc ⊢ <;> omega
    exact hacc

theorem typedBytes_ne_nil (hc : s.HexTypable c) : s.typedBytes c ≠ [] := by
  unfold typedBytes
  split
  · rename_i hu
    rw [unicodeToCharset_known (hc.2 hu)]
    exact List.ne_nil_of_length_pos (length_charSpelling_pos (hc.2 hu).accepted)
  · exact List.cons_ne_nil _ _

/-- The character under the point is read back. -/
theorem hexRead_typed (hwf : s.buffer.WellFormed) (hc : s.HexTypable c) (htext : s.buffer.bytes = front ++ s.typedBytes c ++ back)
    (ho : s.offset = front.length) : s.hexRead junk = (c, ((front.length + (s.typedBytes c).length : Nat) : Int)) := by
  unfold hexRead
  split
  · rename_i hu
    have hspell : s.typedBytes c = charSpelling s.charset c := (if_pos hu).trans (unicodeToCharset_known (hc.2 hu))
    rw [hspell] at htext ⊢
    rw [ho]
    exact nextc_charSpelling (r := s.reader) (hc.2 hu) htext
  · rename_i hu
    have hspell : s.typedBytes c = [c] := if_neg hu
    rw [hspell] at htext ⊢
    obtain ⟨d, hd⟩ := hwf
    rw [List.append_assoc] at htext
    obtain ⟨t, hread, -, -⟩ := ebRead_middle hd.ok htext rfl rfl
    rw [ho, Int.toNat_natCast]
    rw [List.length_singleton] at hread ⊢
    rw [hread]
    rfl

/-- The window after some digits of a character, with `k` of them still to come. -/
def HalfTyped (s : Editor) (front back : List Byte) (c k : Nat) (s' : Editor) : Prop :=
  Rewritten { s with hexNibble := s.hexSize - k } front.length (front ++ s.typedBytes (Hoe.upperDigits c k) ++ back) s'

/-- The first digit inserts. -/
theorem hexWriteChar_first (hwf : s.buffer.WellFormed) (htext : s.buffer.bytes = front ++ back) (ho : s.offset = front.length)
    (hins : s.insert = true) (hmode : s.hexMode = true) (hnibble : s.hexNibble = 0) (hc : s.HexTypable c)
    (hk : s.hexSize = k + 2) (hkey : toHex key = some (c / 16 ^ (k + 1) % 16)) :
    ∃ s', s.hexWriteChar junk key = some s' ∧ HalfTyped s front back c (k + 1) s' := by
  have hch : c / 16 ^ (k + 1) % 16 * 2 ^ ((k + 1) * 4) = Hoe.upperDigits c (k + 1) := by
    refine upperDigits_first ?_
    have hlt := hc.1
    rwa [hk] at hlt
  obtain ⟨ed, hed, hrew⟩ := insert_rewritten hwf htext (s.typedBytes (Hoe.upperDigits c (k + 1)))
  have hstay : ebOffsetCallback s.offset ⟨.insert, front.length, (s.typedBytes (Hoe.upperDigits c (k + 1))).length⟩ = front.length := by
    rw [ho]
    exact if_neg (lt_irrefl _)
  rw [hstay] at hrew
  refine ⟨{ ed with hexNibble := 1 }, ?_, hrew.wf, hrew.text, ?_⟩
  · unfold hexWriteChar
    simp [hmode, hkey, hins, hnibble, hk, hch, ho, hed]
  · obtain ⟨top, hrest⟩ := hrew.rest
    refine ⟨top, ?_⟩
    have hone : s.hexSize - (k + 1) = 1 := by omega
    rw [hrest, hone]

/-- Each further digit takes the place of a zero. -/
theorem hexWriteChar_patch (hs : HalfTyped s front back c (k + 1) s') (hmode : s.hexMode = true) (hc : s.HexTypable c)
    (hk : k + 1 < s.hexSize) (hkey : toHex key = some (c / 16 ^ k % 16)) :
    ∃ ed, Rewritten s' front.length (front ++ s.typedBytes (Hoe.upperDigits c k) ++ back) ed ∧
      s'.hexWriteChar junk key = some (if k = 0 then { ed with hexNibble := 0, offset := front.length + (s.typedBytes c).length }
        else { ed with hexNibble := s.hexSize - k }) := by
  obtain ⟨top, hrest⟩ := hs.rest
  have hsize : s'.hexSize = s.hexSize := by rw [hrest]; rfl
  have hbytes : s'.typedBytes = s.typedBytes := by rw [hrest]; rfl
  have hnibble : s'.hexNibble = s.hexSize - (k + 1) := by rw [hrest]
  have hupper := hc.upperDigits hk
  have hupper' := hc.upperDigits (k := k) (by omega)
  have htypable : s'.HexTypable (Hoe.upperDigits c (k + 1)) := by
    rw [hrest]
    exact hupper
  have hread := hexRead_typed junk hs.wf htypable (by rw [hbytes]; exact hs.text) hs.offset
  rw [hbytes] at hread
  obtain ⟨ed, hed, hrew⟩ := replaceAt_rewritten hs.wf (typedBytes_ne_nil hupper) (typedBytes_ne_nil hupper') hs.text hs.offset
  refine ⟨ed, hrew, ?_⟩
  have hshift : s.hexSize - (s.hexSize - (k + 1)) - 1 = k := by omega
  have hlater : ¬(s.hexSize - (k + 1) = 0) := by omega
  have hnext : s.hexSize - (k + 1) + 1 = s.hexSize - k := by omega
  have hdone : s.hexSize - k = s.hexSize ↔ k = 0 := by omega
  have hmode' : s'.hexMode = true := by rw [hrest]; exact hmode
  have hinside : (front.length : Int) < ed.total := by
    have hpos := List.length_pos_iff.mpr (typedBytes_ne_nil hupper')
    rw [total_eq hrew.wf, hrew.text]
    simp only [List.length_append]
    omega
  unfold hexWriteChar
  simp only [hmode', hkey, hread, hnibble, hsize, hbytes, hshift, hlater, setNibble_upperDigits, hs.offset]
  simp only [hnext, hdone, hrew.offset, Bool.not_true, and_false, if_false, Bool.false_eq_true, Nat.cast_add, add_sub_cancel_left,
    hed, Option.bind_eq_bind, Option.bind_some, if_pos hinside]
  rcases Nat.eq_zero_or_pos k with rfl | hpos
  · simp [upperDigits_zero]
  · simp [hpos.ne']

/-- The digits that are still to come. -/
theorem typeHex_rest (hmode : s.hexMode = true) (hc : s.HexTypable c) {keys : List Nat} (hk : keys.length < s.hexSize)
    (hkeys : keys.map toHex = (digits 16 keys.length c).map some) (hpos : keys ≠ []) (hs : HalfTyped s front back c keys.length s') :
    ∃ s'', s'.typeHex junk keys = some s'' ∧
      Rewritten { s with hexNibble := 0 } (front.length + (s.typedBytes c).length) (front ++ s.typedBytes c ++ back) s'' := by
  induction keys generalizing s' with
  | nil => exact absurd rfl hpos
  | cons key keys ih =>
    rw [List.length_cons, digits, List.map_cons, List.map_cons, List.cons.injEq] at hkeys
    obtain ⟨ed, hrew, hrun⟩ := hexWriteChar_patch junk hs hmode hc hk hkeys.1
    have hed := hs.trans hrew
    cases keys with
    | nil =>
      rw [List.length_nil, upperDigits_zero] at hed
      refine ⟨{ ed with hexNibble := 0, offset := front.length + (s.typedBytes c).length }, ?_, ?_⟩
      · rw [typeHex, List.foldlM_cons, hrun]
        rfl
      · exact (hed.setHexNibble 0).setOffset _
    | cons key' keys =>
      have hmore : (key' :: keys).length ≠ 0 := Nat.succ_ne_zero _
      rw [if_neg hmore] at hrun
      obtain ⟨s'', hrun', hrew'⟩ := ih (by simp only [List.length_cons] at hk ⊢; omega) hkeys.2 (List.cons_ne_nil _ _) (hed.setHexNibble _)
      refine ⟨s'', ?_, hrew'⟩
      rw [typeHex, List.foldlM_cons, hrun]
      exact hrun'

/-- The digits of a character insert it at the point. -/
theorem typeHex_inserts (hwf : s.buffer.WellFormed) {o : Nat} (ho : Boundary s.charset s.buffer.bytes o) (hoff : s.offset = o)
    (hins : s.insert = true) (hmode : s.hexMode = true) (hnibble : s.hexNibble = 0) (hc : s.HexTypable c) {keys : List Nat}
    (hkeys : keys.map toHex = (digits 16 s.hexSize c).map some) :
    ∃ s', s.typeHex junk keys = some s' ∧ s'.buffer.bytes = insertAt s.buffer.bytes o (s.typedBytes c) ∧ s'.hexNibble = 0 ∧
      s'.offset = o + (s.typedBytes c).length ∧ s'.buffer.WellFormed := by
  obtain ⟨k, hk⟩ : ∃ k, s.hexSize = k + 2 := by
    unfold hexSize
    split
    · exact ⟨2, rfl⟩
    · exact ⟨0, rfl⟩
  have hlen : keys.length = k + 2 := by
    have hlen := congrArg List.length hkeys
    simpa [hk] using hlen
  cases keys with
  | nil => cases hlen
  | cons key keys =>
    have hrest : keys.length = k + 1 := by simpa using hlen
    rw [hk, digits, List.map_cons, List.map_cons, List.cons.injEq] at hkeys
    have hfront : (s.buffer.bytes.take o).length = o := List.length_take_of_le ho.1
    obtain ⟨s₁, hs₁, hhalf⟩ := hexWriteChar_first junk hwf (List.take_append_drop o s.buffer.bytes).symm
      (by rw [hoff, hfront]) hins hmode hnibble hc hk hkeys.1
    rw [← hrest] at hhalf
    obtain ⟨s', hs', hrew⟩ := typeHex_rest junk hmode hc (by omega) (by rw [hrest]; exact hkeys.2)
      (List.ne_nil_of_length_pos (by omega)) hhalf
    refine ⟨s', ?_, hrew.text, ?_, ?_, hrew.wf⟩
    · rw [typeHex, List.foldlM_cons, hs₁]
      exact hs'
    · obtain ⟨top, hs''⟩ := hrew.rest
      rw [hs'']
    · rw [hrew.offset, hfront]

/-- A window in unihex mode that types into UTF-8. -/
def unihexWindow (text : List Byte) (o : Nat) : Editor :=
  { Editor.new (Hoe.ebInsert (EditBuffer.new true) 0 text) .utf8 o with mode := .unihex, hexMode := true, unihexMode := true }

/-- A character of three bytes between two letters, its digits in small letters and in capitals. -/
theorem typeHex_inserts_euro :
    ∃ s', (unihexWindow [0x61, 0x62] 1).typeHex 0 [0x32, 0x30, 0x61, 0x43] = some s' ∧
      s'.buffer.bytes = insertAt [0x61, 0x62] 1 ((unihexWindow [0x61, 0x62] 1).typedBytes 0x20ac) ∧ s'.hexNibble = 0 ∧
      s'.offset = (1 : Nat) + ((unihexWindow [0x61, 0x62] 1).typedBytes 0x20ac).length ∧ s'.buffer.WellFormed :=
  typeHex_inserts 0 (s := unihexWindow [0x61, 0x62] 1) (o := 1) (c := 0x20ac)
    ⟨_, ebInsert_stands (new_stands true) (Nat.zero_le _) _⟩
    ⟨by decide, fun _ => ⟨[0x61], [0x62], by decide, by decide, by decide⟩⟩ rfl rfl rfl rfl
    ⟨by decide, fun _ => (by decide : Accepted 0x20ac)⟩ (by decide)

end Editor

end Hoe
