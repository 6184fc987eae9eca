import Hoe.EditCommands
import Hoe.Lemmas.Editor
import Hoe.Lemmas.Reading

/-!
# Transposing two characters

`do_transpose_char` reads two bytes from the character in front of the point on and puts them back in the other order. It removes
that character and one byte more. This exchanges two characters of one byte each; of longer ones it makes other bytes, and at the
end of the text it removes a byte that is not there.
-/

namespace Hoe

open Splice

/-- The bytes of one character of the charset. -/
def IsCharacter (charset : Charset) (x : List Byte) : Prop :=
  (charset = .utf8 ∧ ∃ c, Accepted c ∧ x = utf8Encode c) ∨ (charset ≠ .utf8 ∧ x.length = 1)

/-- A character is a byte of its own, or a byte and others that go on. -/
theorem IsCharacter.cons {charset : Charset} {x : List Byte} (h : IsCharacter charset x) :
    ∃ (a : Nat) (q : List Nat), x = a :: q ∧ (∀ t ∈ q, charset = .utf8 ∧ 0x80 ≤ t) ∧ (q = [] ↔ charset ≠ .utf8 ∨ a < 0x80) := by
  rcases h with ⟨hu, c, hc, rfl⟩ | ⟨hu, hlen⟩
  · by_cases hascii : c < 0x80
    · exact ⟨c, [], utf8Encode_ascii hascii, by simp, iff_of_true rfl (Or.inr hascii)⟩
    · obtain ⟨a, q, hq, hlength, -, htail, -⟩ := utf8Encode_cons hc
      obtain ⟨hwidth, -, h128, h1, -⟩ := utf8Width_spec (by omega) hc.1
      rw [utf8Encode_eq (by omega)] at hq
      obtain ⟨rfl, -⟩ := List.cons.inj hq
      rw [utf8Encode_eq (by omega)]
      refine ⟨_, q, hq, fun t ht => ⟨hu, (isTail_iff.mp (htail t ht)).1⟩, iff_of_false ?_ ?_⟩
      · rintro rfl
        rw [hwidth] at hlength
        exact h1 hlength
      · rintro (hne | hlt)
        · exact hne hu
        · omega
  · obtain ⟨a, rfl⟩ := List.length_eq_one_iff.mp hlen
    exact ⟨a, [], rfl, by simp, iff_of_true rfl (Or.inl hu)⟩

variable {s : Editor} {p : Nat} {junk : Byte}

/-- The character in front of the point. -/
theorem exists_character_before (hb : Boundary s.charset s.buffer.bytes p) (hpos : 0 < p) :
    ∃ front x rest, IsCharacter s.charset x ∧ s.buffer.bytes = front ++ x ++ rest ∧ front.length + x.length = p ∧
      (s.reader.prevc p).2 = (front.length : Nat) := by
  by_cases hu : s.charset = .utf8
  · obtain ⟨-, henc⟩ := hb
    obtain ⟨fs, bs, hacc, htext, hp⟩ := henc hu
    have hne : fs ≠ [] := by
      rintro rfl
      rw [List.flatMap_nil, List.length_nil] at hp
      omega
    obtain ⟨fs, c, rfl⟩ : ∃ gs c, fs = gs ++ [c] := ⟨_, _, (List.dropLast_append_getLast hne).symm⟩
    have hc : Accepted c := hacc c (by simp)
    have hcut : s.buffer.bytes = fs.flatMap utf8Encode ++ utf8Encode c ++ bs.flatMap utf8Encode := by
      rw [htext]
      simp
    have hlen : (fs.flatMap utf8Encode).length + (utf8Encode c).length = p := by
      rw [hp]
      simp
    refine ⟨_, _, _, Or.inl ⟨hu, c, hc, rfl⟩, hcut, hlen, ?_⟩
    rw [← hlen, Reader.prevc_encoded hu hcut hc]
  · have hle := hb.1
    have hlt : p - 1 < s.buffer.bytes.length := by omega
    refine ⟨s.buffer.bytes.take (p - 1), [s.buffer.bytes[p - 1]], s.buffer.bytes.drop (p - 1 + 1), Or.inr ⟨hu, rfl⟩, ?_, ?_, ?_⟩
    · rw [List.append_assoc, List.singleton_append, ← List.drop_eq_getElem_cons hlt, List.take_append_drop]
    · rw [List.length_take_of_le (by omega), List.length_singleton]
      omega
    · rw [Reader.prevc_byte hu hpos, List.length_take_of_le (by omega)]
      omega

/-- The character behind the point. -/
theorem exists_character_behind (hb : Boundary s.charset s.buffer.bytes p) (hlt : p < s.buffer.bytes.length) :
    ∃ y back, IsCharacter s.charset y ∧ s.buffer.bytes.drop p = y ++ back := by
  by_cases hu : s.charset = .utf8
  · obtain ⟨-, henc⟩ := hb
    obtain ⟨fs, bs, hacc, htext, hp⟩ := henc hu
    rw [List.flatMap_append] at htext
    have hdrop : s.buffer.bytes.drop p = bs.flatMap utf8Encode := by rw [htext, hp, List.drop_left]
    cases bs with
    | nil =>
      rw [htext, List.length_append, ← hp] at hlt
      simp at hlt
    | cons c bs =>
      refine ⟨utf8Encode c, bs.flatMap utf8Encode, Or.inl ⟨hu, c, hacc c (by simp), rfl⟩, ?_⟩
      rw [hdrop, List.flatMap_cons]
  · exact ⟨[s.buffer.bytes[p]], s.buffer.bytes.drop (p + 1), Or.inr ⟨hu, rfl⟩, List.drop_eq_getElem_cons hlt⟩

/-- The two characters at the point have changed places, or nothing has changed where there are not two. The point stays. -/
def Transposes (s : Editor) (p : Nat) (junk : Byte) : Prop :=
  ∃ s', s.doTransposeChar junk = some s' ∧ s'.offset = p ∧
    if 0 < p ∧ p < s.buffer.bytes.length then
      ∃ front x y back, IsCharacter s.charset x ∧ IsCharacter s.charset y ∧ s.buffer.bytes = front ++ x ++ y ++ back ∧
        front.length + x.length = p ∧ s'.buffer.bytes = front ++ y ++ x ++ back
    else s'.buffer.bytes = s.buffer.bytes

/-- What the command does behind a character, in front of a byte. -/
theorem doTransposeChar_spec (junk : Byte) (hwf : s.buffer.WellFormed) (hp : s.offset = p) {front rest : List Byte} {a b : Byte}
    {q : List Byte} (htext : s.buffer.bytes = front ++ (a :: q) ++ b :: rest) (hlen : front.length + (a :: q).length = p)
    (hprev : (s.reader.prevc p).2 = (front.length : Nat)) :
    ∃ s', s.doTransposeChar junk = some s' ∧ s'.offset = p ∧ s'.buffer.bytes = front ++ [(q ++ [b]).headD 0, a] ++ rest := by
  obtain ⟨d, hd⟩ := hwf
  have hbytes : s.buffer.bytes.length = p + (rest.length + 1) := by rw [htext, List.length_append, List.length_append, hlen]; rfl
  have hslice : slice s.buffer.bytes front.length 2 = [a, (q ++ [b]).headD 0] := by
    rw [htext, List.append_assoc, slice_append]
    cases q <;> rfl
  have htotal : front.length ≤ s.buffer.totalSize := by
    rw [hd.total, ← hd.text, hbytes]
    omega
  obtain ⟨t, hread, -⟩ := ebRead_spec hd.ok 2 htotal
  have hslice' : slice s.buffer.toPages.bytes front.length 2 = [a, (q ++ [b]).headD 0] := hslice
  rw [hslice'] at hread
  obtain ⟨s₁, hdelete, hedited⟩ := Editor.ebDelete_spec ⟨d, hd⟩ (o := front.length) (w := (a :: q).length + 1)
    (by rw [hbytes]; omega) (by rw [hbytes]; omega)
  have hremoved : removeAt s.buffer.bytes front.length ((a :: q).length + 1) = front ++ rest := by
    rw [htext, List.append_assoc, removeAt_append]
    have hdrop : (a :: q ++ b :: rest).drop ((a :: q).length + 1) = rest := by
      rw [List.drop_append, List.drop_eq_nil_of_le (Nat.le_succ _), Nat.add_sub_cancel_left]
      rfl
    rw [hdrop]
  rw [hremoved] at hedited
  have hoffset : s₁.offset = (front.length : Nat) := by
    have hgt : (p : Int) > front.length := by
      rw [← hlen]
      simp
    rw [hedited.offset, hp]
    refine (if_pos hgt).trans ?_
    rw [← hlen]
    push_cast
    omega
  obtain ⟨s₂, hinsert, hinserted⟩ := Editor.ebInsert_spec hedited.wf (o := front.length) (by rw [hedited.text]; simp)
    [(q ++ [b]).headD 0, a]
  refine ⟨{ s₂ with offset := (p : Int) }, ?_, rfl, ?_⟩
  · have hsize : (p : Int) - (front.length : Nat) + 1 = ((a :: q).length + 1 : Nat) := by
      rw [← hlen]
      push_cast
      omega
    have hlt : ((front.length : Nat) : Int) < (p : Nat) := by
      rw [← hlen]
      simp
    rw [Editor.doTransposeChar]
    simp only [hp, hprev, Int.toNat_natCast, hread, if_pos hlt, hsize, hdelete, Option.bind_eq_bind, Option.bind_some, hoffset]
    simp only [List.getD_cons_succ, List.getD_cons_zero, hinsert, Option.bind_some]
  · rw [hinserted.text, hedited.text, insertAt_append]

/-- The character in front of the point ends with a byte below 128 when it has no other. -/
theorem character_single_iff {charset : Charset} {x : List Byte} (front rest : List Byte) (hx : IsCharacter charset x) :
    x.length = 1 ↔ charset ≠ .utf8 ∨ (front ++ x ++ rest).getD (front.length + x.length - 1) 0 < 0x80 := by
  obtain ⟨a, q, rfl, htail, hq⟩ := hx.cons
  rcases List.eq_nil_or_concat q with rfl | ⟨q, t, rfl⟩
  · have hget : (front ++ [a] ++ rest).getD (front.length + [a].length - 1) 0 = a := by simp
    rw [hget]
    exact iff_of_true rfl (hq.mp rfl)
  · obtain ⟨hu, ht⟩ := htail t (by simp)
    have hget : (front ++ a :: (q ++ [t]) ++ rest).getD (front.length + (a :: (q ++ [t])).length - 1) 0 = t := by
      simp [List.getD_eq_getElem?_getD]
    rw [List.concat_eq_append, hget]
    refine iff_of_false (by simp) ?_
    rintro (hne | hlt)
    · exact hne hu
    · exact absurd hlt (Nat.not_lt.mpr ht)

/-- The character behind the point begins with a byte below 128 when it has no other. -/
theorem character_single_iff' {charset : Charset} {y : List Byte} (front back : List Byte) (hy : IsCharacter charset y) :
    y.length = 1 ↔ charset ≠ .utf8 ∨ (front ++ (y ++ back)).getD front.length 0 < 0x80 := by
  obtain ⟨b, r, rfl, -, hr⟩ := hy.cons
  have hget : (front ++ (b :: r ++ back)).getD front.length 0 = b := by simp
  rw [hget, ← hr, List.length_cons]
  constructor
  · intro hlen
    exact List.eq_nil_of_length_eq_zero (by omega)
  · rintro rfl
    rfl

/-- Where a character ends at the point, its length is told by the byte in front of the point. -/
theorem before_single_iff {f x z : List Byte} (hx : IsCharacter s.charset x) (htext : s.buffer.bytes = f ++ x ++ z)
    (hp : f.length + x.length = p) : x.length = 1 ↔ s.charset ≠ .utf8 ∨ s.buffer.bytes.getD (p - 1) 0 < 0x80 := by
  rw [character_single_iff f z hx, ← htext, hp]

/-- Where a character begins at the point, its length is told by the byte behind the point. -/
theorem behind_single_iff {f y z : List Byte} (hy : IsCharacter s.charset y) (htext : s.buffer.bytes = f ++ (y ++ z))
    (hp : f.length = p) : y.length = 1 ↔ s.charset ≠ .utf8 ∨ s.buffer.bytes.getD p 0 < 0x80 := by
  rw [character_single_iff' f z hy, ← htext, hp]

/-- At the beginning of the text nothing happens. -/
theorem transposes_start (hp : s.offset = (0 : Nat)) (junk : Byte) : Transposes s 0 junk := by
  have hnot : ¬(s.reader.prevc s.offset).2 < s.offset := by
    rw [hp]
    exact Int.lt_irrefl 0
  refine ⟨s, if_neg hnot, hp, ?_⟩
  rw [if_neg (fun h => Nat.lt_irrefl 0 h.1)]

/-- At the end of the text one byte too many is removed. -/
theorem doTransposeChar_end (hwf : s.buffer.WellFormed) (hp : s.offset = p) (hend : p = s.buffer.bytes.length) {o : Nat} (ho : o < p)
    (hprev : (s.reader.prevc p).2 = o) (junk : Byte) : s.doTransposeChar junk = none := by
  have htotal := Editor.total_eq hwf
  have hlt : (o : Int) < (p : Nat) := by omega
  have hdelete : s.ebDelete o ((p : Int) - o + 1) = none := by
    rw [Editor.ebDelete, if_neg (by omega), if_neg (by omega)]
  simp only [Editor.doTransposeChar, hp, hprev, if_pos hlt, hdelete, Option.bind_eq_bind, Option.bind_none]

/-- Between two characters the command exchanges them exactly when each is one byte. -/
theorem transposes_between_iff (hwf : s.buffer.WellFormed) (hp : s.offset = p) (hpos : 0 < p) (hlt : p < s.buffer.bytes.length)
    {front x y back : List Byte} (hx : IsCharacter s.charset x) (hy : IsCharacter s.charset y)
    (htext : s.buffer.bytes = front ++ x ++ (y ++ back)) (hlen : front.length + x.length = p)
    (hprev : (s.reader.prevc p).2 = (front.length : Nat)) (junk : Byte) :
    Transposes s p junk ↔ x.length = 1 ∧ y.length = 1 := by
  obtain ⟨a, q, rfl, -, hq⟩ := hx.cons
  obtain ⟨b, r, rfl, -, -⟩ := hy.cons
  have hcut : s.buffer.bytes = front ++ (a :: q) ++ b :: (r ++ back) := htext
  obtain ⟨s', hs', hoffset, hbytes⟩ := doTransposeChar_spec junk hwf hp hcut hlen hprev
  rw [Transposes, hs']
  constructor
  · rintro ⟨s'', hs'', -, hswap⟩
    obtain rfl : s' = s'' := Option.some.inj hs''
    rw [if_pos ⟨hpos, hlt⟩] at hswap
    obtain ⟨f, x, y, z, hx', hy', htext', hlen', hbytes'⟩ := hswap
    rw [hbytes] at hbytes'
    have hsum := congrArg List.length (htext.symm.trans htext')
    have hsum' := congrArg List.length hbytes'
    simp only [List.length_append, List.length_cons, List.length_nil] at hsum hsum' hlen hlen'
    have hnil : q = [] := List.eq_nil_of_length_eq_zero (by omega)
    have hascii := hq.mp hnil
    subst hnil
    have hsingle : [a].length = 1 := rfl
    refine ⟨hsingle, ?_⟩
    by_contra hmany
    -- a longer character behind the point begins with two bytes that stay together
    have hy1 := mt (behind_single_iff hy' (by rw [htext', List.append_assoc _ y]) (by rw [List.length_append, hlen'])).mp
      (mt (behind_single_iff hy htext (by rw [List.length_append]; exact hlen)).mpr hmany)
    obtain ⟨c, t, rfl, htail, -⟩ := hy'.cons
    cases t with
    | nil => exact hy1 rfl
    | cons t ts =>
      obtain ⟨hu, ht⟩ := htail t List.mem_cons_self
      have hx1 := (before_single_iff hx' (by rw [htext', List.append_assoc _ _ z]) hlen').mpr
        ((before_single_iff hx htext hlen).mp hsingle)
      have hf : front.length = f.length := by
        rw [List.length_nil] at hlen
        omega
      rw [List.append_assoc, List.append_assoc _ _ x, List.append_assoc _ _ z] at hbytes'
      have htail' := (List.append_inj hbytes' hf).2
      have hta : a = t := (List.cons.inj (List.cons.inj htail').2).1
      rcases hascii with hne | hlt'
      · exact hne hu
      · omega
  · rintro ⟨hq, hr⟩
    obtain rfl : q = [] := List.eq_nil_of_length_eq_zero (by rw [List.length_cons] at hq; omega)
    obtain rfl : r = [] := List.eq_nil_of_length_eq_zero (by rw [List.length_cons] at hr; omega)
    refine ⟨s', rfl, hoffset, ?_⟩
    rw [if_pos ⟨hpos, hlt⟩]
    refine ⟨front, [a], [b], back, hx, hy, ?_, hlen, ?_⟩
    · rw [htext]
      simp
    · rw [hbytes]
      simp

/-- Two characters change places, and nothing changes where there are not two, exactly when there is none in front of the point,
or there are two and each is one byte long. -/
theorem transposes_iff (hwf : s.buffer.WellFormed) (hp : s.offset = p) (hb : Boundary s.charset s.buffer.bytes p) (junk : Byte) :
    Transposes s p junk ↔ p = 0 ∨ (p < s.buffer.bytes.length ∧
      (s.charset ≠ .utf8 ∨ (s.buffer.bytes.getD (p - 1) 0 < 0x80 ∧ s.buffer.bytes.getD p 0 < 0x80))) := by
  rcases Nat.eq_zero_or_pos p with rfl | hpos
  · exact iff_of_true (transposes_start hp junk) (Or.inl rfl)
  obtain ⟨front, x, rest, hx, htext, hlen, hprev⟩ := exists_character_before hb hpos
  rcases Nat.lt_or_eq_of_le hb.1 with hlt | hend
  · obtain ⟨y, back, hy, hdrop⟩ := exists_character_behind hb hlt
    have hrest : rest = y ++ back := by
      rw [← hdrop, htext, ← hlen, ← List.length_append, List.drop_left]
    rw [hrest] at htext
    have hbehind := behind_single_iff hy htext (by rw [List.length_append, hlen])
    rw [transposes_between_iff hwf hp hpos hlt hx hy htext hlen hprev, or_iff_right (Nat.ne_of_gt hpos), and_iff_right hlt,
      or_and_left, before_single_iff hx htext hlen, hbehind]
  · have hfront : front.length < p := by
      obtain ⟨a, q, rfl, -⟩ := hx.cons
      rw [← hlen]
      simp
    have hnone := doTransposeChar_end hwf hp hend hfront hprev junk
    refine iff_of_false ?_ ?_
    · rintro ⟨s', hs', -⟩
      rw [hnone] at hs'
      cases hs'
    · rintro (rfl | ⟨hlt, -⟩)
      · exact Nat.lt_irrefl 0 hpos
      · exact Nat.ne_of_lt hlt hend

/-- A window on a text in UTF-8. -/
def acuteWindow (text : List Byte) (p : Nat) : Editor := Editor.new (Hoe.ebInsert (EditBuffer.new true) 0 text) .utf8 p

theorem acuteWindow_wf (text : List Byte) (p : Nat) : (acuteWindow text p).buffer.WellFormed :=
  ⟨_, ebInsert_stands (new_stands true) (Nat.zero_le _) text⟩

/-- Two letters in front of another character change places. -/
theorem transposes_letters : Transposes (acuteWindow [0x61, 0x62, 0xc3, 0xa9] 1) 1 0 :=
  (transposes_iff (acuteWindow_wf _ 1) rfl
    ⟨by decide, fun _ => ⟨[0x61], [0x62, 0xe9], by decide, by decide, by decide⟩⟩ 0).mpr (by decide)

/-- Of a character of two bytes in front of a letter only two bytes of three are left. -/
theorem not_transposes : ¬∀ (s : Editor) (p : Nat) (junk : Byte), s.buffer.WellFormed → s.offset = p →
    Boundary s.charset s.buffer.bytes p → Transposes s p junk := by
  intro h
  obtain ⟨s', hs', -, hswap⟩ := h (acuteWindow [0xc3, 0xa9, 0x61] 2) 2 0 (acuteWindow_wf _ 2) rfl
    ⟨by decide, fun _ => ⟨[0xe9], [0x61], by decide, by decide, by decide⟩⟩
  rw [if_pos (by decide)] at hswap
  obtain ⟨front, x, y, back, -, -, htext, -, hbytes⟩ := hswap
  have hresult : ((acuteWindow [0xc3, 0xa9, 0x61] 2).doTransposeChar 0).map (fun s => s.buffer.bytes.length) = some 2 := by decide
  rw [hs', Option.map_some, Option.some.injEq, hbytes] at hresult
  have hlength : (acuteWindow [0xc3, 0xa9, 0x61] 2).buffer.bytes.length = 3 := by decide
  rw [htext] at hlength
  simp only [List.length_append] at hlength hresult
  omega

end Hoe
