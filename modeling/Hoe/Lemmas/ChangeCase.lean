import Hoe.EditCommands
import Hoe.Lemmas.Editor
import Hoe.Lemmas.History
import Hoe.Lemmas.Spelled

/-!
# Changing the case of a character

`eb_changecase` puts the bytes of one character, in the other case, in the place of those that `eb_nextc` has read. Where the
bytes spell a character that the charset has, at most a letter of 7 bits is another one afterwards. Everywhere else other bytes
stand in the text, and since the loops only go on behind them, they stay.
-/

namespace Hoe

open Splice

/-- The characters that a charset has. -/
def Known : Charset → Nat → Prop
  | .latin1, c => c < 0x100
  | .ascii, c => c < 0x80
  | .utf8, c => Accepted c

/-- The bytes spell characters that the charset has. -/
def WellSpelled (charset : Charset) (l : List Byte) : Prop := ∃ cs, (∀ c ∈ cs, Known charset c) ∧ l = spelling charset cs

variable {charset : Charset} {c : Nat} {up : Bool}

/-! ## The bytes of a character -/

theorem Known.accepted (h : Known charset c) (hu : charset = .utf8) : Accepted c := by
  subst hu
  exact h

theorem known_ascii (charset : Charset) (hc : c < 0x80) : Known charset c := by
  cases charset
  · exact Nat.lt_trans hc (by decide)
  · exact hc
  · exact ⟨by omega, by omega, by omega, by omega⟩

/-- No byte of a character that is not of 7 bits is. -/
theorem charSpelling_high (h : Known charset c) (hc : 0x80 ≤ c) : ∀ b ∈ charSpelling charset c, 0x80 ≤ b := by
  intro b hb
  rw [charSpelling] at hb
  by_cases hu : charset = .utf8
  · rw [if_pos hu, utf8Encode_eq hc] at hb
    rcases List.mem_cons.mp hb with rfl | htail
    · exact (utf8Width_spec hc (h.accepted hu).1).2.2.1
    · exact (isTail_iff.mp (isTail_of_mem_digits htail)).1
  · rw [if_neg hu] at hb
    exact List.mem_singleton.mp hb ▸ hc

namespace Editor

theorem changedCase_high (hc : 0x80 ≤ c) : changedCase up c = c := if_neg (Nat.not_lt.mpr hc)

theorem changedCase_low (hc : c < 0x80) : changedCase up c < 0x80 := by
  rw [changedCase, if_pos hc]
  unfold toupper tolower
  split_ifs <;> omega

theorem map_changedCase_high {l : List Byte} (hl : ∀ b ∈ l, 0x80 ≤ b) : l.map (changedCase up) = l :=
  (List.map_congr_left fun b hb => changedCase_high (hl b hb)).trans l.map_id

/-- `eb_changecase` encodes what it has decoded, in the other case. -/
theorem recoded (h : Known charset c) :
    unicodeToCharset (changedCase up c) charset = (charSpelling charset c).map (changedCase up) := by
  rcases Nat.lt_or_ge c 0x80 with hlow | hhigh
  · have hlow' : changedCase up c < 0x80 := changedCase_low hlow
    rw [charSpelling_ascii _ hlow, List.map_singleton]
    cases charset
    · exact congrArg (Option.getD · _) (if_pos (by omega))
    · exact congrArg (Option.getD · _) (if_pos (by omega))
    · exact utf8Encode_ascii hlow'
  · rw [changedCase_high hhigh, map_changedCase_high (charSpelling_high h hhigh)]
    cases charset
    · exact congrArg (Option.getD · _) (if_pos (Nat.le_of_lt_succ h))
    · exact congrArg (Option.getD · _) (if_pos (Nat.le_of_lt_succ h))
    · rfl

/-! ## One step -/

variable {s s₁ : Editor} {o : Nat} {o₁ : Int} {front back : List Byte}

/-- Where a character stands, `eb_nextc` reads it. -/
theorem nextc_charSpelling {r : Reader} (hc : Known r.charset c) (htext : r.text = front ++ charSpelling r.charset c ++ back) :
    r.nextc (front.length : Nat) = (c, ((front.length + (charSpelling r.charset c).length : Nat) : Int)) := by
  by_cases hu : r.charset = .utf8
  · rw [charSpelling, if_pos hu] at htext ⊢
    exact Reader.nextc_encoded hu htext (hc.accepted hu)
  · rw [charSpelling, if_neg hu] at htext ⊢
    have hlt : front.length < r.text.length := by simp [htext]
    rw [Reader.nextc_byte hu hlt, htext]
    simp

/-- A byte of 7 bits is a character in each of the charsets. -/
theorem nextc_low {r : Reader} (ho : o < r.text.length) (hlow : r.text[o] < 0x80) :
    r.nextc o = (r.text[o], ((o + 1 : Nat) : Int)) := by
  have htext : r.text = r.text.take o ++ charSpelling r.charset r.text[o] ++ r.text.drop (o + 1) := by
    rw [charSpelling_ascii _ hlow, List.take_append_getElem ho, List.take_append_drop]
  have hread := nextc_charSpelling (known_ascii r.charset hlow) htext
  rwa [charSpelling_ascii _ hlow, List.length_take_of_le ho.le] at hread

/-- On a character that the charset has, `eb_changecase` writes as many bytes as there were, and nothing moves. -/
theorem ebChangecase_known (hwf : s.buffer.WellFormed) (hc : Known s.charset c)
    (htext : s.buffer.bytes = front ++ charSpelling s.charset c ++ back) :
    ∃ s₁, s.ebChangecase front.length up = some (s₁, ((front.length + (charSpelling s.charset c).length : Nat) : Int)) ∧
      s₁.buffer.WellFormed ∧ s₁.buffer.bytes = front ++ (charSpelling s.charset c).map (changedCase up) ++ back ∧
      s₁.charset = s.charset ∧ s₁.offset = s.offset ∧ s₁.buffer.mark = s.buffer.mark := by
  have hnext := nextc_charSpelling (r := s.reader) hc htext
  have hlen : ((charSpelling s.charset c).map (changedCase up)).length = (charSpelling s.charset c).length := List.length_map ..
  have hpos := length_charSpelling_pos hc.accepted
  obtain ⟨s₁, hwrite, hedited⟩ := @ebWrite_spec s hwf front.length ((charSpelling s.charset c).map (changedCase up))
    (List.ne_nil_of_length_pos (by omega)) (by rw [htext]; simp)
  refine ⟨s₁, ?_, hedited.wf, ?_, hedited.charset, hedited.offset, hedited.mark⟩
  · have hread : s.reader.nextc (front.length : Nat) = (c, ((front.length + (charSpelling s.charset c).length : Nat) : Int)) := hnext
    rw [ebChangecase, hread]
    simp only [recoded hc, hlen]
    rw [if_pos (by omega), hwrite]
    exact congrArg (fun x : Int => some (s₁, x)) (Nat.cast_add ..).symm
  · rw [hedited.text, htext, List.append_assoc, overwriteAt_append, hlen, List.drop_left]

/-- A call of `eb_write` at an offset of the text, also beyond its end. -/
theorem ebWrite_text (hwf : s.buffer.WellFormed) (ho : o ≤ s.buffer.bytes.length) {buf : List Byte}
    (hrun : s.ebWrite o buf = some s₁) :
    s₁.buffer.WellFormed ∧ s₁.buffer.bytes = overwriteAt s.buffer.bytes o buf := by
  obtain ⟨d, hd⟩ := hwf
  rw [hd.text] at ho ⊢
  rw [ebWrite] at hrun
  split_ifs at hrun
  obtain rfl := Option.some.inj hrun
  have hwrite := ebWrite_stands hd buf ho
  exact ⟨⟨_, hwrite⟩, hwrite.text.trans (d.write_text buf ho)⟩

/-- Whatever `eb_changecase` has read, its bytes stand in front of the offset it goes on at. -/
theorem ebChangecase_prefix (hwf : s.buffer.WellFormed) (ho : o ≤ s.buffer.bytes.length)
    (hrun : s.ebChangecase o up = some (s₁, o₁)) :
    s₁.buffer.WellFormed ∧ ∃ o₁' : Nat, o₁ = o₁' ∧ o₁' ≤ s₁.buffer.bytes.length ∧ s₁.buffer.bytes.take o₁' =
      s.buffer.bytes.take o ++ unicodeToCharset (changedCase up (s.reader.nextc o).1) s.charset := by
  have htake : (s.buffer.bytes.take o).length = o := List.length_take_of_le ho
  have hleads {s' : Editor} {buf rest : List Byte} (htext : s'.buffer.bytes = s.buffer.bytes.take o ++ buf ++ rest) :
      o + buf.length ≤ s'.buffer.bytes.length ∧ s'.buffer.bytes.take (o + buf.length) = s.buffer.bytes.take o ++ buf := by
    have hlen : (s.buffer.bytes.take o ++ buf).length = o + buf.length := by rw [List.length_append, htake]
    rw [htext, ← hlen]
    exact ⟨(List.prefix_append _ rest).length_le, List.take_left⟩
  unfold ebChangecase at hrun
  simp only at hrun
  generalize unicodeToCharset (changedCase up (s.reader.nextc o).1) s.charset = buf at hrun ⊢
  split_ifs at hrun with hlen
  · obtain ⟨s₂, hwrite, hrun⟩ := Option.bind_eq_some_iff.mp hrun
    obtain ⟨rfl, rfl⟩ := Prod.mk.inj (Option.some.inj hrun)
    obtain ⟨hwf₂, htext⟩ := ebWrite_text hwf ho hwrite
    exact ⟨hwf₂, o + buf.length, rfl, hleads htext⟩
  · obtain ⟨s₂, hdelete, hrun⟩ := Option.bind_eq_some_iff.mp hrun
    obtain ⟨s₃, hinsert, hrun⟩ := Option.bind_eq_some_iff.mp hrun
    obtain ⟨rfl, rfl⟩ := Prod.mk.inj (Option.some.inj hrun)
    -- what the removal leaves in front of the offset
    have hfront : s₂.buffer.WellFormed ∧ o ≤ s₂.buffer.bytes.length ∧ s₂.buffer.bytes.take o = s.buffer.bytes.take o := by
      have htotal := total_eq hwf
      by_cases hend : s.buffer.bytes.length ≤ o
      · rw [ebDelete_end hwf (by omega)] at hdelete
        obtain rfl := Option.some.inj hdelete
        exact ⟨hwf, ho, rfl⟩
      · obtain ⟨w, hw⟩ : ∃ w : Nat, (s.reader.nextc o).2 - o = w ∧ o + w ≤ s.buffer.bytes.length := by
          rw [ebDelete] at hdelete
          split_ifs at hdelete with h1 h2
          · omega
          · exact ⟨((s.reader.nextc o).2 - o).toNat, by omega, by omega⟩
        obtain ⟨s', hs', hedited⟩ := ebDelete_spec hwf (Nat.lt_of_not_le hend) hw.2
        rw [hw.1, hs'] at hdelete
        obtain rfl := Option.some.inj hdelete
        rw [hedited.text, removeAt]
        refine ⟨hedited.wf, by rw [List.length_append, htake]; omega, ?_⟩
        rw [List.take_append_of_le_length (by omega), List.take_of_length_le (by omega)]
    obtain ⟨hwf₂, ho₂, hkept⟩ := hfront
    obtain ⟨s', hs', hedited⟩ := ebInsert_spec hwf₂ ho₂ buf
    obtain rfl := Option.some.inj (hs'.symm.trans hinsert)
    refine ⟨hedited.wf, o + buf.length, rfl, @hleads _ _ (s₂.buffer.bytes.drop o) ?_⟩
    rw [hedited.text, insertAt, hkept]

/-- A text that is the one from an offset on, but for the case of letters of 7 bits. -/
def LaterCase (up : Bool) (o : Nat) (text text' : List Byte) : Prop :=
  text'.length = text.length ∧ ∀ i, o ≤ i → text'[i]? = text[i]? ∨ text'[i]? = (text[i]?).map (changedCase up)

/-- In UTF-8 every character that `eb_nextc` finds has an encoding, and only single bytes are characters of 7 bits. -/
theorem nextc_accepted {r : Reader} (hu : r.charset = .utf8) (ho : o < r.text.length) (hhigh : 0x80 ≤ r.text[o]) :
    Accepted (r.nextc o).1 ∧ 0x80 ≤ (r.nextc o).1 := by
  have hhead : (r.window o).headD 0 = r.text[o] := by
    rw [Reader.window, show maxCharBytes = 5 + 1 from rfl, slice_head _ ho]
    rfl
  rw [Reader.nextc_utf8 hu ho]
  by_cases hv : (utf8Decode (r.window o)).1 = invalidChar
  · rw [hv]
    decide
  · have hne : r.window o ≠ [] := by
      intro hnil
      rw [hnil] at hhead
      rw [← hhead] at hhigh
      cases hhigh
    obtain ⟨htake, haccepted⟩ := utf8Decode_valid hne hv
    refine ⟨haccepted, Nat.le_of_not_lt fun hlow => ?_⟩
    rw [utf8Encode_ascii hlow] at htake
    obtain ⟨a, w, hw⟩ := List.exists_cons_of_ne_nil hne
    obtain ⟨n, hn⟩ : ∃ n, (utf8Decode (r.window o)).2 = n + 1 := ⟨_, (Nat.succ_pred_eq_of_pos (utf8Decode_taken_pos _)).symm⟩
    rw [hw] at hhead
    rw [hn] at htake
    have hsame : (r.window o).take (n + 1) = a :: w.take n := by rw [hw, List.take_succ_cons]
    have := (List.cons.inj (hsame.symm.trans htake)).1
    rw [← hhead, List.headD_cons, this] at hhigh
    exact absurd hhigh (Nat.not_le.mpr hlow)

/-- Bytes of a character that is not of 7 bits are in the text when they are in one that is the same but for the case. -/
theorem charSpelling_prefix {text final l : List Byte} (hfinal : LaterCase up o text final) (hl : ∀ b ∈ l, 0x80 ≤ b)
    (hleads : l <+: final.drop o) : l <+: text.drop o := by
  rw [List.prefix_iff_getElem?] at hleads ⊢
  intro i hi
  have hlast := hleads i hi
  rw [List.getElem?_drop] at hlast ⊢
  have hhigh := hl _ (List.getElem_mem hi)
  rcases hfinal.2 (o + i) (Nat.le_add_right ..) with hsame | hcase
  · rw [← hsame, hlast]
  · rw [hlast] at hcase
    obtain ⟨x, hx, hxl⟩ := Option.map_eq_some_iff.mp hcase.symm
    rw [hx]
    rcases Nat.lt_or_ge x 0x80 with hlow | hge
    · have hlow' : changedCase up x < 0x80 := changedCase_low hlow
      rw [hxl] at hlow'
      exact absurd hhigh (Nat.not_le.mpr hlow')
    · rw [← hxl, changedCase_high hge]

/-- If what `eb_changecase` leaves is to be the text but for the case of letters, it has read a character that the charset has. -/
theorem known_of_laterCase (hbytes : ∀ c ∈ s.buffer.bytes, c < 0x100) (ho : o < s.buffer.bytes.length)
    {final : List Byte} (hfinal : LaterCase up o s.buffer.bytes final)
    (hleads : s.buffer.bytes.take o ++ unicodeToCharset (changedCase up (s.reader.nextc o).1) s.charset <+: final) :
    ∃ c front back, Known s.charset c ∧ s.buffer.bytes = front ++ charSpelling s.charset c ++ back ∧ front.length = o := by
  have hsplit : s.buffer.bytes = s.buffer.bytes.take o ++ [s.buffer.bytes[o]] ++ s.buffer.bytes.drop (o + 1) := by
    rw [List.take_append_getElem ho, List.take_append_drop]
  have hlen : (s.buffer.bytes.take o).length = o := List.length_take_of_le ho.le
  have hdrop : unicodeToCharset (changedCase up (s.reader.nextc o).1) s.charset <+: final.drop o := by
    obtain ⟨rest, rfl⟩ := hleads
    rw [List.append_assoc, List.drop_left' hlen]
    exact List.prefix_append ..
  have hone (hknown : Known s.charset s.buffer.bytes[o]) (hspell : charSpelling s.charset s.buffer.bytes[o] = [s.buffer.bytes[o]]) :
      ∃ c front back, Known s.charset c ∧ s.buffer.bytes = front ++ charSpelling s.charset c ++ back ∧ front.length = o :=
    ⟨s.buffer.bytes[o], s.buffer.bytes.take o, s.buffer.bytes.drop (o + 1), hknown, by rw [hspell]; exact hsplit, hlen⟩
  rcases Nat.lt_or_ge s.buffer.bytes[o] 0x80 with hlow | hhigh
  · exact hone (known_ascii _ hlow) (charSpelling_ascii _ hlow)
  by_cases hu : s.charset = .utf8
  · -- what has been decoded has an encoding, all of whose bytes are in the text
    obtain ⟨haccepted, hge⟩ := nextc_accepted (r := s.reader) hu ho hhigh
    have hknown : Known s.charset (s.reader.nextc o).1 := by
      rw [hu]
      exact haccepted
    have hall : ∀ b ∈ charSpelling s.charset (s.reader.nextc o).1, 0x80 ≤ b := charSpelling_high hknown hge
    rw [recoded hknown, map_changedCase_high hall] at hdrop
    obtain ⟨back, hback⟩ := charSpelling_prefix hfinal hall hdrop
    refine ⟨_, s.buffer.bytes.take o, back, hknown, ?_, hlen⟩
    rw [List.append_assoc, hback, List.take_append_drop]
  · by_cases hlatin : s.charset = .latin1
    · refine hone ?_ (if_neg hu)
      rw [hlatin]
      exact hbytes _ (List.getElem_mem ho)
    · -- the question mark in the place of the byte is in the text
      have hascii : s.charset = .ascii := by
        cases hcharset : s.charset with
        | latin1 => exact absurd hcharset hlatin
        | ascii => rfl
        | utf8 => exact absurd hcharset hu
      have hread : (s.reader.nextc o).1 = s.buffer.bytes[o] := by
        rw [Reader.nextc_byte hu ho]
        exact getD_of_lt _ ho
      have hmark : unicodeToCharset (changedCase up (s.reader.nextc o).1) s.charset = [0x3f] := by
        rw [hread, changedCase_high hhigh, hascii]
        exact congrArg (Option.getD · _) (if_neg (Nat.not_le.mpr hhigh))
      have hlast := List.prefix_iff_getElem?.mp hdrop 0 (by rw [hmark]; exact Nat.one_pos)
      simp only [hmark, List.getElem_cons_zero, List.getElem?_drop, Nat.add_zero] at hlast
      have hbyte : s.buffer.bytes[o]? = some s.buffer.bytes[o] := List.getElem?_eq_getElem ho
      rcases hfinal.2 o (Nat.le_refl o) with hsame | hcase
      · rw [hlast, hbyte, Option.some.injEq] at hsame
        rw [← hsame] at hhigh
        exact absurd hhigh (by decide)
      · rw [hlast, hbyte, Option.map_some, changedCase_high hhigh, Option.some.injEq] at hcase
        rw [← hcase] at hhigh
        exact absurd hhigh (by decide)

end Editor

end Hoe
