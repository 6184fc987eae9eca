import Hoe.Lemmas.ChangeCase
import Hoe.Theorems.WordAtPoint

/-!
# Changing the case of a region or a word

`do_changecase_region` and `do_changecase_word` change the case of letters and nothing else exactly where the bytes they go over
spell characters of the charset: always in 8859-1, bytes of 7 bits in 7bit, and well formed sequences in UTF-8, of which the last
one may go on behind the region. Elsewhere other bytes take the place of those that spell no character.
-/

namespace Hoe

open Splice

namespace Editor

variable {s s' : Editor} {up : Bool} {a b m o : Nat} {text text₁ text₂ final : List Byte}

/-! ## The other case -/

/-- A text that is another one but for the case of letters in a range. -/
def CaseOnly (up : Bool) (a b : Nat) (text text' : List Byte) : Prop :=
  text'.length = text.length ∧
    ∀ i : Nat, text'[i]? = text[i]? ∨ (a ≤ i ∧ i < b ∧ text'[i]? = (text[i]?).map (changedCase up))

theorem CaseOnly.refl (up : Bool) (a b : Nat) (text : List Byte) : CaseOnly up a b text text := ⟨rfl, fun _ => Or.inl rfl⟩

theorem CaseOnly.trans (h : CaseOnly up o (o + 1) text text₁) (h' : CaseOnly up m b text₁ text₂) (hom : o < m) (hob : o < b) :
    CaseOnly up o b text text₂ := by
  refine ⟨h'.1.trans h.1, fun i => ?_⟩
  rcases h'.2 i with hsame | ⟨hlow, hhigh, hcase⟩
  · rw [hsame]
    rcases h.2 i with hsame | ⟨hlow, hhigh, hcase⟩
    · exact Or.inl hsame
    · exact Or.inr ⟨hlow, by omega, hcase⟩
  · rcases h.2 i with hsame | ⟨-, hi, -⟩
    · rw [hcase, hsame]
      exact Or.inr ⟨by omega, hhigh, rfl⟩
    · omega

theorem CaseOnly.later (h : CaseOnly up a b text final) : LaterCase up o text final := by
  refine ⟨h.1, fun i _ => ?_⟩
  rcases h.2 i with hsame | ⟨-, -, hcase⟩
  · exact Or.inl hsame
  · exact Or.inr hcase

variable {charset : Charset} {c : Nat} {front back : List Byte}

theorem getElem?_behind {l l' : List Byte} (hlen : l'.length = l.length) {i : Nat}
    (hi : (front ++ l).length ≤ i) : (front ++ l' ++ back)[i]? = (front ++ l ++ back)[i]? := by
  rw [List.getElem?_append_right hi, List.getElem?_append_right (by rw [List.length_append] at hi ⊢; omega), List.length_append,
    List.length_append, hlen]

/-- A text stays one of bytes. -/
theorem changedCase_byte {l : List Byte} (hl : ∀ c ∈ l, c < 0x100) : ∀ c ∈ l.map (changedCase up), c < 0x100 := by
  intro c hc
  obtain ⟨b, hb, rfl⟩ := List.mem_map.mp hc
  rcases Nat.lt_or_ge b 0x80 with hlow | hhigh
  · exact Nat.lt_trans (changedCase_low hlow) (by decide)
  · rw [changedCase_high hhigh]
    exact hl b hb

/-- Behind a character the rest of the text is the same. -/
theorem LaterCase.behind (h : LaterCase up front.length text final) (hbytes : ∀ c ∈ text, c < 0x100)
    (htext : text = front ++ charSpelling charset c ++ back) (htext₁ : text₁ = front ++ (charSpelling charset c).map (changedCase up) ++ back) :
    LaterCase up (front.length + (charSpelling charset c).length) text₁ final ∧ text₁.length = text.length ∧ ∀ c ∈ text₁, c < 0x100 := by
  have hlen : text₁.length = text.length := by simp [htext, htext₁]
  refine ⟨⟨h.1.trans hlen.symm, fun i hi => ?_⟩, hlen, fun c hc => ?_⟩
  · have hsame : text₁[i]? = text[i]? := by
      rw [htext, htext₁]
      exact getElem?_behind (List.length_map _) (by rw [List.length_append]; exact hi)
    rw [hsame]
    exact h.2 i (Nat.le_trans (Nat.le_add_right ..) hi)
  · subst htext htext₁
    simp only [List.mem_append] at hbytes hc
    rcases hc with (hc | hc) | hc
    · exact hbytes c (Or.inl (Or.inl hc))
    · exact changedCase_byte (fun d hd => hbytes d (Or.inl (Or.inr hd))) c hc
    · exact hbytes c (Or.inr hc)

/-- On a character that the charset has, one letter may change. -/
theorem caseOnly_charSpelling (h : Known charset c) (front back : List Byte) :
    CaseOnly up front.length (front.length + 1) (front ++ charSpelling charset c ++ back)
      (front ++ (charSpelling charset c).map (changedCase up) ++ back) := by
  rcases Nat.lt_or_ge c 0x80 with hlow | hhigh
  · rw [charSpelling_ascii _ hlow, List.map_singleton]
    refine ⟨by simp, fun i => ?_⟩
    rw [List.append_assoc, List.append_assoc]
    rcases Nat.lt_or_ge i front.length with hlt | hge
    · rw [List.getElem?_append_left hlt, List.getElem?_append_left hlt]
      exact Or.inl rfl
    · rw [List.getElem?_append_right hge, List.getElem?_append_right hge]
      rcases Nat.eq_or_lt_of_le hge with rfl | hlt
      · exact Or.inr ⟨Nat.le_refl _, Nat.lt_succ_self _, by simp⟩
      · obtain ⟨j, hj⟩ : ∃ j, i - front.length = j + 1 := ⟨i - front.length - 1, by omega⟩
        rw [hj]
        exact Or.inl rfl
  · rw [map_changedCase_high (charSpelling_high h hhigh)]
    exact CaseOnly.refl ..

/-! ## A region -/

/-- The bytes in front of the place the loop has come to stay. -/
theorem changecaseRegionLoop_prefix (hwf : s.buffer.WellFormed) (ho : o ≤ s.buffer.bytes.length) {n : Nat}
    (hrun : changecaseRegionLoop up n s o = some s') : s.buffer.bytes.take o <+: s'.buffer.bytes := by
  induction n generalizing s o with
  | zero =>
    rw [changecaseRegionLoop] at hrun
    split_ifs at hrun
    exact Option.some.inj hrun ▸ List.take_prefix ..
  | succ n ih =>
    rw [changecaseRegionLoop] at hrun
    split_ifs at hrun
    · exact Option.some.inj hrun ▸ List.take_prefix ..
    · obtain ⟨⟨s₁, o₁⟩, hstep, hrun⟩ := Option.bind_eq_some_iff.mp hrun
      obtain ⟨hwf₁, o₁, rfl, ho₁, htake⟩ := ebChangecase_prefix hwf ho hstep
      have hrest := ih hwf₁ ho₁ hrun
      rw [htake] at hrest
      exact (List.prefix_append ..).trans hrest

/-- When nothing but the case of letters has changed, the loop has gone over characters that the charset has. -/
theorem wellSpelled_of_region (hwf : s.buffer.WellFormed) (hbytes : ∀ c ∈ s.buffer.bytes, c < 0x100)
    (hend : max s.offset s.buffer.mark = (b : Nat)) (hb : b ≤ s.buffer.bytes.length) (ho : o ≤ s.buffer.bytes.length) {n : Nat}
    (hrun : changecaseRegionLoop up n s o = some s') (hcase : LaterCase up o s.buffer.bytes s'.buffer.bytes) :
    ∃ l, l <+: s.buffer.bytes.drop o ∧ b - o ≤ l.length ∧ WellSpelled s.charset l := by
  induction n generalizing s o with
  | zero =>
    rw [changecaseRegionLoop] at hrun
    split_ifs at hrun with hstop
    exact ⟨[], List.nil_prefix, by rw [hend] at hstop; simp; omega, [], by simp, rfl⟩
  | succ n ih =>
    rw [changecaseRegionLoop] at hrun
    split_ifs at hrun with hstop
    · exact ⟨[], List.nil_prefix, by rw [hend] at hstop; simp; omega, [], by simp, rfl⟩
    · rw [hend] at hstop
      have hlt : o < s.buffer.bytes.length := by omega
      obtain ⟨⟨s₁, o₁⟩, hstep, hrun⟩ := Option.bind_eq_some_iff.mp hrun
      obtain ⟨hwf₁, o₁', rfl, ho₁, htake⟩ := ebChangecase_prefix hwf ho hstep
      have hprefix := changecaseRegionLoop_prefix hwf₁ ho₁ hrun
      rw [htake] at hprefix
      obtain ⟨c, front, back, hc, htext, rfl⟩ := known_of_laterCase hbytes hlt hcase hprefix
      obtain ⟨s₂, hknown, -, htext₁, hcharset, hoffset, hmark⟩ := @ebChangecase_known c up s front _ hwf hc htext
      obtain ⟨rfl, hnext⟩ := Prod.mk.inj (Option.some.inj (hstep.symm.trans hknown))
      obtain rfl : o₁' = front.length + (charSpelling s.charset c).length := by omega
      obtain ⟨hlater, hlength, hbytes₁⟩ := hcase.behind hbytes htext htext₁
      obtain ⟨l, ⟨rest, hl⟩, hlen, cs, hcs, hspelling⟩ := ih hwf₁ hbytes₁ (by rw [hoffset, hmark, hend]) (by omega) ho₁ hrun hlater
      have hback : s₁.buffer.bytes.drop (front.length + (charSpelling s.charset c).length) = back := by
        rw [htext₁]
        exact List.drop_left' (by simp)
      have hdrop : s.buffer.bytes.drop front.length = charSpelling s.charset c ++ back := by
        rw [htext, List.append_assoc, List.drop_left]
      rw [hback] at hl
      rw [hcharset] at hcs hspelling
      refine ⟨charSpelling s.charset c ++ l, ⟨rest, ?_⟩, by rw [List.length_append]; omega, c :: cs, ?_, ?_⟩
      · rw [hdrop, ← hl, List.append_assoc]
      · exact List.forall_mem_cons.mpr ⟨hc, hcs⟩
      · rw [hspelling, spelling_cons]

/-- The loop changes the case of characters that the charset has. -/
theorem changecaseRegionLoop_known {cs : List Nat} (hwf : s.buffer.WellFormed) (hcs : ∀ c ∈ cs, Known s.charset c)
    (htext : s.buffer.bytes = front ++ spelling s.charset cs ++ back) (hend : max s.offset s.buffer.mark = (b : Nat))
    (hb : b ≤ front.length + (spelling s.charset cs).length) {n : Nat} (hn : b ≤ front.length + n) :
    ∃ s', changecaseRegionLoop up n s front.length = some s' ∧ CaseOnly up front.length b s.buffer.bytes s'.buffer.bytes := by
  induction cs generalizing s front n with
  | nil =>
    have hstop : max s.offset s.buffer.mark ≤ (front.length : Nat) := by
      rw [hend, Nat.cast_le]
      exact hb
    refine ⟨s, ?_, CaseOnly.refl ..⟩
    cases n <;> exact if_pos hstop
  | cons c cs ih =>
    by_cases hstop : max s.offset s.buffer.mark ≤ (front.length : Nat)
    · refine ⟨s, ?_, CaseOnly.refl ..⟩
      cases n <;> exact if_pos hstop
    · obtain ⟨n, rfl⟩ : ∃ k, n = k + 1 := ⟨n - 1, by omega⟩
      have hc := hcs c List.mem_cons_self
      have hpos := length_charSpelling_pos hc.accepted
      rw [spelling_cons, ← List.append_assoc, List.append_assoc (_ ++ _)] at htext
      obtain ⟨s₁, hstep, hwf₁, htext₁, hcharset, hoffset, hmark⟩ := @ebChangecase_known c up s front _ hwf hc htext
      have hlen : (front ++ (charSpelling s.charset c).map (changedCase up)).length = front.length + (charSpelling s.charset c).length := by simp
      rw [spelling_cons, List.length_append] at hb
      have hwhole : s₁.buffer.bytes = front ++ (charSpelling s.charset c).map (changedCase up) ++ spelling s₁.charset cs ++ back := by
        rw [htext₁, hcharset, ← List.append_assoc (_ ++ _)]
      have hrest := @ih s₁ _ hwf₁ (by rw [hcharset]; exact fun d hd => hcs d (List.mem_cons_of_mem c hd)) hwhole
        (by rw [hoffset, hmark, hend]) (by rw [hlen, hcharset]; omega) n (by rw [hlen]; omega)
      rw [hlen] at hrest
      obtain ⟨s', hrun, hcase⟩ := hrest
      refine ⟨s', ?_, ?_⟩
      · rw [changecaseRegionLoop, if_neg hstop, hstep]
        exact hrun
      · have hone : CaseOnly up front.length (front.length + 1) s.buffer.bytes s₁.buffer.bytes := by
          rw [htext, htext₁]
          exact caseOnly_charSpelling hc ..
        exact hone.trans hcase (by omega) (by omega)

/-- The region in the other case, and nothing else. -/
def ChangesRegion (s : Editor) (up : Bool) (a b : Nat) : Prop :=
  ∃ s', s.doChangecaseRegion up = some s' ∧ CaseOnly up a b s.buffer.bytes s'.buffer.bytes

/-- `do_changecase_region` changes nothing but the case of letters exactly where the bytes from its beginning on spell characters
of the charset, at least as far as its end. -/
theorem changesRegion_iff (hwf : s.buffer.WellFormed) (hbytes : ∀ c ∈ s.buffer.bytes, c < 0x100)
    (ha : min s.offset s.buffer.mark = (a : Nat)) (hend : max s.offset s.buffer.mark = (b : Nat)) (hb : b ≤ s.buffer.bytes.length) :
    ChangesRegion s up a b ↔ ∃ l, l <+: s.buffer.bytes.drop a ∧ b - a ≤ l.length ∧ WellSpelled s.charset l := by
  have hle : a ≤ b := by omega
  constructor
  · rintro ⟨s', hrun, hcase⟩
    rw [doChangecaseRegion, ha] at hrun
    exact wellSpelled_of_region hwf hbytes hend hb (hle.trans hb) hrun hcase.later
  · rintro ⟨l, ⟨back, hl⟩, hlen, cs, hcs, rfl⟩
    have hfront : (s.buffer.bytes.take a).length = a := List.length_take_of_le (hle.trans hb)
    have htext : s.buffer.bytes = s.buffer.bytes.take a ++ spelling s.charset cs ++ back := by
      rw [List.append_assoc, hl, List.take_append_drop]
    have hrun := @changecaseRegionLoop_known s up b _ back cs hwf hcs htext hend (by rw [hfront]; omega) s.reader.turns
      (by rw [hfront]; show b ≤ a + (s.buffer.bytes.length + 1); omega)
    rw [hfront] at hrun
    rw [ChangesRegion, doChangecaseRegion, ha]
    exact hrun

/-! ## A word -/

/-- Whether a character belongs to a word shows in its first byte. -/
theorem isword_nextc {r : Reader} (ho : o < r.text.length) : isword (r.nextc o).1 = isword r.text[o] := by
  by_cases hu : r.charset = .utf8
  · rcases Nat.lt_or_ge r.text[o] 0x80 with hlow | hhigh
    · rw [nextc_low ho hlow]
    · have hge := (nextc_accepted hu ho hhigh).2
      simp [isword, hge, hhigh]
  · rw [Reader.nextc_byte hu ho, getD_of_lt _ ho]

/-- Where the first word behind an offset begins. -/
def wordBehind (text : List Byte) (o : Nat) : Nat := o + ((text.drop o).takeWhile fun c => !isword c).length

theorem isword_low {c : Nat} (h : isword c = false) : c < 0x80 := by
  by_contra hhigh
  rw [isword] at h
  simp [Nat.le_of_not_lt hhigh] at h

/-- `word_right` goes there. -/
theorem wordRight_eq {r : Reader} (ho : o ≤ r.text.length) : r.wordRight true o = (wordBehind r.text o : Nat) := by
  have hloop (n : Nat) (hn : r.text.length ≤ o + n) :
      scan (fun o => if r.total ≤ o ∨ isword (r.nextc o).1 = true then none else some (r.nextc o).2) n (o : Int) =
        (wordBehind r.text o : Nat) := by
    have htotal : r.total = (r.text.length : Nat) := rfl
    induction n generalizing o with
    | zero =>
      obtain rfl : o = r.text.length := by omega
      rw [wordBehind, List.drop_length]
      rfl
    | succ n ih =>
      rcases Nat.lt_or_eq_of_le ho with hlt | rfl
      · rw [wordBehind, List.drop_eq_getElem_cons hlt, List.takeWhile_cons]
        by_cases hw : isword r.text[o] = true
        · have hstay : (if r.total ≤ (o : Int) ∨ isword (r.nextc o).1 = true then none else some (r.nextc o).2) = none :=
            if_pos (Or.inr (by rw [isword_nextc hlt, hw]))
          rw [scan_stop hstay, hw]
          rfl
        · have hread := nextc_low hlt (isword_low (Bool.eq_false_of_not_eq_true hw))
          have hgo : (if r.total ≤ (o : Int) ∨ isword (r.nextc o).1 = true then none else some (r.nextc o).2) =
              some ((o + 1 : Nat) : Int) := by
            rw [if_neg (by rw [isword_nextc hlt, htotal]; simp [hw, hlt]), hread]
          rw [scan_go hgo, ih hlt (by omega), wordBehind]
          simp [hw]
          omega
      · have hstay : (if r.total ≤ ((r.text.length : Nat) : Int) ∨ isword (r.nextc (r.text.length : Nat)).1 = true then none
            else some (r.nextc (r.text.length : Nat)).2) = none := if_pos (Or.inl (Int.le_refl _))
        rw [wordBehind, List.drop_length, scan_stop hstay]
        rfl
  exact hloop _ (by rw [Reader.turns]; omega)

/-- The bytes in front of the place the loop has come to stay. -/
theorem changecaseWordLoop_prefix (hwf : s.buffer.WellFormed) (hp : s.offset = (o : Nat)) (ho : o ≤ s.buffer.bytes.length) {n : Nat}
    (hrun : changecaseWordLoop up n s = some s') : s.buffer.bytes.take o <+: s'.buffer.bytes := by
  induction n generalizing s o with
  | zero =>
    rw [changecaseWordLoop] at hrun
    split_ifs at hrun
    exact Option.some.inj hrun ▸ List.take_prefix ..
  | succ n ih =>
    rw [changecaseWordLoop] at hrun
    split_ifs at hrun
    · exact Option.some.inj hrun ▸ List.take_prefix ..
    · obtain ⟨⟨s₁, o₁⟩, hstep, hrun⟩ := Option.bind_eq_some_iff.mp hrun
      rw [hp] at hstep
      obtain ⟨hwf₁, o₁, rfl, ho₁, htake⟩ := ebChangecase_prefix hwf ho hstep
      have hrest := ih (s := { s₁ with offset := (o₁ : Int) }) hwf₁ rfl ho₁ hrun
      change s₁.buffer.bytes.take o₁ <+: s'.buffer.bytes at hrest
      rw [htake] at hrest
      exact (List.prefix_append ..).trans hrest

/-- The bytes of a character of a word. -/
theorem isword_charSpelling (h : Known charset c) (hw : isword c = true) : ∀ b ∈ charSpelling charset c, isword b = true := by
  rcases Nat.lt_or_ge c 0x80 with hlow | hhigh
  · rw [charSpelling_ascii _ hlow]
    simpa using hw
  · intro b hb
    have := charSpelling_high h hhigh b hb
    simp [isword, this]

/-- When nothing but the case of letters has changed, the loop has gone over characters that the charset has. -/
theorem wellSpelled_of_word (hwf : s.buffer.WellFormed) (hbytes : ∀ c ∈ s.buffer.bytes, c < 0x100) (hp : s.offset = (o : Nat))
    (ho : o ≤ s.buffer.bytes.length) {n : Nat} (hrun : changecaseWordLoop up n s = some s')
    (hcase : LaterCase up o s.buffer.bytes s'.buffer.bytes) : WellSpelled s.charset ((s.buffer.bytes.drop o).takeWhile isword) := by
  -- where the loop stops there is no word
  have hstop {s : Editor} {o : Nat} (hwf : s.buffer.WellFormed) (hp : s.offset = (o : Nat))
      (hend : s.total ≤ s.offset ∨ ¬isword (s.reader.nextc s.offset).1) :
      WellSpelled s.charset ((s.buffer.bytes.drop o).takeWhile isword) := by
    have hnil : (s.buffer.bytes.drop o).takeWhile isword = [] := by
      rw [hp, total_eq hwf, Nat.cast_le] at hend
      by_cases hlt : o < s.buffer.bytes.length
      · rcases hend with hge | hw
        · exact absurd hlt (Nat.not_lt.mpr hge)
        · rw [isword_nextc (r := s.reader) hlt] at hw
          rw [List.drop_eq_getElem_cons hlt, List.takeWhile_cons]
          exact if_neg hw
      · rw [List.drop_eq_nil_of_le (Nat.le_of_not_lt hlt)]
        rfl
    rw [hnil]
    exact ⟨[], by simp, rfl⟩
  induction n generalizing s o with
  | zero =>
    rw [changecaseWordLoop] at hrun
    split_ifs at hrun with hend
    exact hstop hwf hp hend
  | succ n ih =>
    rw [changecaseWordLoop] at hrun
    split_ifs at hrun with hend
    · exact hstop hwf hp hend
    · rw [hp, total_eq hwf, Nat.cast_le, not_or, Nat.not_le, not_not] at hend
      obtain ⟨hlt, hword⟩ := hend
      obtain ⟨⟨s₁, o₁⟩, hstep, hrun⟩ := Option.bind_eq_some_iff.mp hrun
      rw [hp] at hstep
      obtain ⟨hwf₁, o₁', rfl, ho₁, htake⟩ := ebChangecase_prefix hwf ho hstep
      have hprefix := changecaseWordLoop_prefix (s := { s₁ with offset := (o₁' : Int) }) hwf₁ rfl ho₁ hrun
      change s₁.buffer.bytes.take o₁' <+: s'.buffer.bytes at hprefix
      rw [htake] at hprefix
      obtain ⟨c, front, back, hc, htext, rfl⟩ := known_of_laterCase hbytes hlt hcase hprefix
      obtain ⟨s₂, hknown, -, htext₁, hcharset, -⟩ := @ebChangecase_known c up s front _ hwf hc htext
      obtain ⟨rfl, hnext⟩ := Prod.mk.inj (Option.some.inj (hstep.symm.trans hknown))
      obtain rfl : o₁' = front.length + (charSpelling s.charset c).length := by omega
      obtain ⟨hlater, -, hbytes₁⟩ := hcase.behind hbytes htext htext₁
      obtain ⟨cs, hcs, hspelling⟩ := ih (s := { s₁ with offset := ((front.length + (charSpelling s.charset c).length : Nat) : Int) })
        hwf₁ hbytes₁ rfl ho₁ hrun hlater
      have hback : s₁.buffer.bytes.drop (front.length + (charSpelling s.charset c).length) = back := by
        rw [htext₁]
        exact List.drop_left' (by simp)
      change ∀ c ∈ cs, Known s₁.charset c at hcs
      change (s₁.buffer.bytes.drop _).takeWhile isword = spelling s₁.charset cs at hspelling
      rw [hback, hcharset] at hspelling
      rw [hcharset] at hcs
      have hw : isword c = true := by
        have hread := nextc_charSpelling (r := s.reader) hc htext
        rwa [hread] at hword
      refine ⟨c :: cs, List.forall_mem_cons.mpr ⟨hc, hcs⟩, ?_⟩
      rw [htext, List.append_assoc, List.drop_left, List.takeWhile_append_of_pos (isword_charSpelling hc hw), hspelling, spelling_cons]

/-- The loop changes the case of characters that the charset has. -/
theorem changecaseWordLoop_known {cs : List Nat} (hwf : s.buffer.WellFormed) (hcs : ∀ c ∈ cs, Known s.charset c)
    (htext : s.buffer.bytes = front ++ spelling s.charset cs ++ back) (hp : s.offset = (front.length : Nat))
    (hword : ∀ b ∈ spelling s.charset cs, isword b = true) (hback : back.takeWhile isword = []) {n : Nat}
    (hn : (spelling s.charset cs).length ≤ n) :
    ∃ s', changecaseWordLoop up n s = some s' ∧
      CaseOnly up front.length (front.length + (spelling s.charset cs).length) s.buffer.bytes s'.buffer.bytes := by
  have htotal := total_eq hwf
  induction cs generalizing s front n with
  | nil =>
    have hstop : s.total ≤ s.offset ∨ ¬isword (s.reader.nextc s.offset).1 = true := by
      rw [htotal, hp, htext, spelling_nil, List.append_nil]
      cases back with
      | nil => exact Or.inl (by simp)
      | cons b back =>
        have hlt : front.length < s.buffer.bytes.length := by simp [htext]
        have hget : s.buffer.bytes[front.length] = b := by simp [htext]
        rw [isword_nextc (r := s.reader) hlt]
        refine Or.inr fun hw => ?_
        change isword s.buffer.bytes[front.length] = true at hw
        rw [hget] at hw
        rw [List.takeWhile_cons, if_pos hw] at hback
        cases hback
    refine ⟨s, ?_, CaseOnly.refl ..⟩
    cases n <;> exact if_pos hstop
  | cons c cs ih =>
    have hc := hcs c List.mem_cons_self
    have hpos := length_charSpelling_pos hc.accepted
    rw [spelling_cons, List.length_append] at hn
    rw [spelling_cons] at hword
    obtain ⟨n, rfl⟩ : ∃ k, n = k + 1 := ⟨n - 1, by omega⟩
    rw [spelling_cons, ← List.append_assoc, List.append_assoc (_ ++ _)] at htext
    have hlt : front.length < s.buffer.bytes.length := by
      simp only [htext, List.length_append]
      omega
    have hgo : ¬(s.total ≤ s.offset ∨ ¬isword (s.reader.nextc s.offset).1 = true) := by
      have hget : s.buffer.bytes[front.length] ∈ charSpelling s.charset c := by
        simp only [htext, List.append_assoc, List.getElem_append_right (Nat.le_refl _), Nat.sub_self]
        rw [List.getElem_append_left hpos]
        exact List.getElem_mem hpos
      rw [htotal, hp, not_or, not_not, isword_nextc (r := s.reader) hlt]
      exact ⟨by omega, hword _ (List.mem_append_left _ hget)⟩
    obtain ⟨s₁, hstep, hwf₁, htext₁, hcharset, -⟩ := @ebChangecase_known c up s front _ hwf hc htext
    have hlen : (front ++ (charSpelling s.charset c).map (changedCase up)).length = front.length + (charSpelling s.charset c).length := by simp
    have hwhole : s₁.buffer.bytes = front ++ (charSpelling s.charset c).map (changedCase up) ++ spelling s₁.charset cs ++ back := by
      rw [htext₁, hcharset, ← List.append_assoc (_ ++ _)]
    have hrest := @ih { s₁ with offset := ((front.length + (charSpelling s.charset c).length : Nat) : Int) } _ hwf₁
      (by show ∀ d ∈ cs, Known s₁.charset d; rw [hcharset]; exact fun d hd => hcs d (List.mem_cons_of_mem c hd)) hwhole
      (by rw [hlen]) (by show ∀ b ∈ spelling s₁.charset cs, _; rw [hcharset]; exact fun b hb => hword b (List.mem_append_right _ hb))
      n (by show (spelling s₁.charset cs).length ≤ n; rw [hcharset]; omega) (total_eq hwf₁)
    obtain ⟨s', hrun, hcase⟩ := hrest
    change CaseOnly up _ (_ + (spelling s₁.charset cs).length) s₁.buffer.bytes _ at hcase
    rw [hlen, hcharset] at hcase
    refine ⟨s', ?_, ?_⟩
    · rw [changecaseWordLoop, if_neg hgo, hp, hstep]
      exact hrun
    · have hone : CaseOnly up front.length (front.length + 1) s.buffer.bytes s₁.buffer.bytes := by
        rw [htext, htext₁]
        exact caseOnly_charSpelling hc ..
      rw [spelling_cons, List.length_append, ← Nat.add_assoc]
      exact hone.trans hcase (by omega) (by omega)

theorem takeWhile_behind (p : Byte → Bool) (l : List Byte) : (l.dropWhile p).takeWhile p = [] := by
  induction l with
  | nil => rfl
  | cons c l ih =>
    rw [List.dropWhile_cons]
    split
    · exact ih
    · rename_i hc
      rw [List.takeWhile_cons, if_neg hc]

/-- The first word behind the point in the other case, and nothing else. -/
def ChangesWord (s : Editor) (up : Bool) (a : Nat) : Prop :=
  ∃ s', s.doChangecaseWord up = some s' ∧
    CaseOnly up a (a + ((s.buffer.bytes.drop a).takeWhile isword).length) s.buffer.bytes s'.buffer.bytes

/-- `do_changecase_word` changes nothing but the case of letters exactly where the bytes of the word spell characters of the
charset. -/
theorem changesWord_iff (hwf : s.buffer.WellFormed) (hbytes : ∀ c ∈ s.buffer.bytes, c < 0x100) (hp : s.offset = (o : Nat))
    (ho : o ≤ s.buffer.bytes.length) :
    ChangesWord s up (wordBehind s.buffer.bytes o) ↔
      WellSpelled s.charset ((s.buffer.bytes.drop (wordBehind s.buffer.bytes o)).takeWhile isword) := by
  have hstart : s.reader.wordRight true s.offset = (wordBehind s.buffer.bytes o : Nat) := by
    rw [hp]
    exact wordRight_eq (r := s.reader) ho
  have hle : wordBehind s.buffer.bytes o ≤ s.buffer.bytes.length := by
    have hshort : ((s.buffer.bytes.drop o).takeWhile fun c => !isword c).length ≤ (s.buffer.bytes.drop o).length :=
      (List.takeWhile_sublist _).length_le
    rw [List.length_drop] at hshort
    rw [wordBehind]
    omega
  generalize wordBehind s.buffer.bytes o = a at hstart hle ⊢
  rw [ChangesWord, doChangecaseWord, hstart]
  constructor
  · rintro ⟨s', hrun, hcase⟩
    exact wellSpelled_of_word (s := { s with offset := (a : Int) }) hwf hbytes rfl hle hrun hcase.later
  · rintro ⟨cs, hcs, hspelling⟩
    have hfront : (s.buffer.bytes.take a).length = a := List.length_take_of_le hle
    have hword : ∀ b ∈ spelling s.charset cs, isword b = true := by
      rw [← hspelling]
      exact fun b hb => List.mem_takeWhile_imp hb
    have htext : s.buffer.bytes = s.buffer.bytes.take a ++ spelling s.charset cs ++ (s.buffer.bytes.drop a).dropWhile isword := by
      rw [List.append_assoc, ← hspelling, List.takeWhile_append_dropWhile, List.take_append_drop]
    have hshort : (spelling s.charset cs).length ≤ s.reader.turns := by
      have hle' : ((s.buffer.bytes.drop a).takeWhile isword).length ≤ (s.buffer.bytes.drop a).length :=
        (List.takeWhile_sublist _).length_le
      rw [hspelling, List.length_drop] at hle'
      show _ ≤ s.buffer.bytes.length + 1
      omega
    have hrun := @changecaseWordLoop_known { s with offset := (a : Int) } up _ _ cs hwf hcs htext (by rw [hfront]) hword
      (takeWhile_behind ..) _ hshort
    rw [hfront] at hrun
    rw [hspelling]
    exact hrun

/-! ## Both commands -/

end Editor

end Hoe
