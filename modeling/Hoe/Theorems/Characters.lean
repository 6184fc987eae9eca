import Hoe.Lemmas.Reading
import Hoe.Lemmas.Refine

/-!
# Characters, forward and backward

What `eb_nextc` and `eb_prevc` do in any text, and that they are inverse in one made of whole characters.
-/

namespace Hoe

/-!
## Forward over characters

`eb_nextc` reads into an array that it does not clear, and decodes the array without looking at how much of it was read. What it
returns depends on the text alone, and the next offset lies in the text, unless the text ends in the middle of the character.
-/

open Splice

/-- At the offset `eb_nextc` returns one character and one offset, whatever the array held before, and it goes forward without
leaving the text. -/
def NextcSafe (t : Pages) (charset : Charset) (o : Nat) : Prop :=
  ∃ ch next, (∀ stack, (ebNextc t charset stack o).2 = (ch, next)) ∧ (o : Int) < next ∧ next ≤ t.totalSize

/-- The calls stay inside the text until one returns the end of it. -/
def WalkReachesEnd (t : Pages) (charset : Charset) : Prop :=
  ∀ junk, ∃ n, (nextcWalk t charset junk 0 n).2 = t.totalSize ∧ ∀ i < n, (nextcWalk t charset junk 0 i).2 < t.totalSize

/-- Where `eb_nextc` reads its own bytes only, no character is cut off. -/
theorem NextcSafe.not_cutOff {t : Pages} (ht : t.Ok) {charset : Charset} {o : Nat} (h : NextcSafe t charset o) :
    ¬CutOff charset t.bytes o := by
  intro hc
  obtain ⟨ch, next, hsame, -, hle⟩ := h
  have hs := hsame (List.replicate maxCharBytes 0x80)
  have htail : ∀ i < maxCharBytes, isTail ((List.replicate maxCharBytes 0x80).getD i 0) = true := by decide
  have hnext := Reader.nextc_cutOff (r := ⟨t.bytes, charset, List.replicate maxCharBytes 0x80⟩) hc htail
  rw [(ebNextc_eq ht (r := ⟨t.bytes, charset, List.replicate maxCharBytes 0x80⟩) rfl (Int.natCast_nonneg o)).1] at hs
  rw [hs] at hnext
  obtain ⟨-, -, hcut, -⟩ := hc
  have hlen := ht.length_bytes
  simp only at hnext
  omega

/-- Where none is, it reads no others. -/
theorem nextcSafe_of_not_cutOff {t : Pages} (ht : t.Ok) {charset : Charset} {o : Nat} (ho : o < t.totalSize)
    (hc : ¬CutOff charset t.bytes o) : NextcSafe t charset o := by
  have hlen := ht.length_bytes
  obtain ⟨n, hn, hle, hnext, hall⟩ := Reader.nextc_known (r := ⟨t.bytes, charset, []⟩) (by rw [← hlen] at ho; exact ho) hc
  refine ⟨(Reader.nextc ⟨t.bytes, charset, []⟩ o).1, ((o + n : Nat) : Int), fun stack => ?_, by omega, ?_⟩
  · rw [(ebNextc_eq ht (r := ⟨t.bytes, charset, stack⟩) rfl (Int.natCast_nonneg o)).1, ← hnext]
    exact hall stack
  · rw [hlen] at hle
    omega

/-- A walk over whole characters: the pages keep the text, and every call goes forward or stands at the end. -/
theorem nextcWalk_spec {t : Pages} (ht : t.Ok) {charset : Charset} (hc : ∀ o < t.totalSize, ¬CutOff charset t.bytes o)
    (junk : Nat → List Byte) (n : Nat) :
    (nextcWalk t charset junk 0 n).1.Ok ∧ t.Same (nextcWalk t charset junk 0 n).1 ∧
      ∃ o : Nat, (nextcWalk t charset junk 0 n).2 = o ∧ o ≤ t.totalSize ∧ (o < t.totalSize → n ≤ o) := by
  induction n with
  | zero => exact ⟨ht, .refl t, 0, rfl, Nat.zero_le _, fun _ => Nat.le_refl 0⟩
  | succ n ih =>
    obtain ⟨h1, h2, o, h3, h4, h5⟩ := ih
    have hlen := ht.length_bytes
    rw [nextcWalk]
    generalize nextcWalk t charset junk 0 n = w at h1 h2 h3 ⊢
    obtain ⟨t₁, o₁⟩ := w
    simp only at h1 h2 h3 ⊢
    subst h3
    obtain ⟨e1, e2, e3⟩ := ebNextc_eq h1 (r := ⟨t.bytes, charset, junk n⟩) h2.bytes.symm (Int.natCast_nonneg o)
    refine ⟨e2, h2.trans e3, ?_⟩
    have hstep := congrArg Prod.snd e1
    by_cases hend : o < t.totalSize
    · obtain ⟨k, hk, hle, hnext, -⟩ :=
        Reader.nextc_known (r := ⟨t.bytes, charset, junk n⟩) (by rw [← hlen] at hend; exact hend) (hc o hend)
      have hno := h5 hend
      rw [hlen] at hle
      exact ⟨o + k, hstep.trans hnext, hle, fun _ => by omega⟩
    · refine ⟨t.totalSize, hstep.trans ?_, Nat.le_refl _, fun h => absurd h (Nat.lt_irrefl _)⟩
      rw [Reader.nextc_end _ (by rw [Reader.total, hlen]; omega), Reader.total, hlen]

/-- A walk over such a text comes to its end. -/
theorem walkReachesEnd {t : Pages} (ht : t.Ok) {charset : Charset} (hc : ∀ o < t.totalSize, ¬CutOff charset t.bytes o) :
    WalkReachesEnd t charset := by
  intro junk
  have hreach : ∃ n, (nextcWalk t charset junk 0 n).2 = t.totalSize := by
    obtain ⟨-, -, o, h1, h2, h3⟩ := nextcWalk_spec ht hc junk t.totalSize
    refine ⟨t.totalSize, ?_⟩
    rw [h1]
    omega
  classical
  refine ⟨Nat.find hreach, Nat.find_spec hreach, fun i hi => ?_⟩
  obtain ⟨-, -, o, h1, h2, -⟩ := nextcWalk_spec ht hc junk i
  have hne := Nat.find_min hreach hi
  rw [h1] at hne ⊢
  omega

/-- `eb_nextc` at an offset is safe exactly where the text does not end in the middle of the character; the whole text is walked
safely, and a walk from its beginning reaches exactly its end, exactly when it ends in the middle of none. -/
theorem nextcSafe_iff {t : Pages} (ht : t.Ok) (charset : Charset) :
    (∀ o < t.totalSize, NextcSafe t charset o ↔ ¬CutOff charset t.bytes o) ∧
      ((∀ o < t.totalSize, NextcSafe t charset o) ∧ WalkReachesEnd t charset ↔
        ∀ o < t.totalSize, ¬CutOff charset t.bytes o) := by
  have hiff (o : Nat) (ho : o < t.totalSize) : NextcSafe t charset o ↔ ¬CutOff charset t.bytes o :=
    ⟨fun h => h.not_cutOff ht, nextcSafe_of_not_cutOff ht ho⟩
  refine ⟨hiff, fun h o ho => (hiff o ho).mp (h.1 o ho), fun h => ⟨fun o ho => (hiff o ho).mpr (h o ho), ?_⟩⟩
  exact walkReachesEnd ht h

/-- An e with an acute accent, and the first byte of another one. -/
def acutePages : Pages := (ebInsert (EditBuffer.new false) 0 [0xc3, 0xa9, 0xc3]).toPages

theorem acutePages_ok : acutePages.Ok := (ebInsert_stands (new_stands false) (Nat.zero_le _) _).ok

/-- The first character is read safely. -/
theorem nextcSafe_acute : acutePages.Ok ∧ NextcSafe acutePages .utf8 0 :=
  ⟨acutePages_ok, ((nextcSafe_iff acutePages_ok .utf8).1 0 (by decide)).mpr (by decide)⟩

/-- At the last byte `eb_nextc` goes behind the end of the text when the array held a byte that goes on with a character. -/
theorem not_nextcSafe_truncated : ¬∀ t : Pages, t.Ok → ∀ charset, ∀ o < t.totalSize, NextcSafe t charset o := by
  intro h
  obtain ⟨ch, next, hsame, -, hle⟩ := h acutePages acutePages_ok .utf8 2 (by decide)
  have hnext : ((ebNextc acutePages .utf8 [0, 0xa9] 2).2.2 : Int) = 4 := by decide
  have hsame' : (ebNextc acutePages .utf8 [0, 0xa9] 2).2 = (ch, next) := hsame _
  rw [hsame'] at hnext
  have htotal : acutePages.totalSize = 3 := by decide
  simp only at hnext
  omega

/-!
## Forward and backward are inverse

On a text made of whole characters `eb_prevc` takes back what `eb_nextc` did, and the other way round, across any pages.
-/

open Splice

/-- At a boundary in front of the end, `eb_prevc` at the next offset returns the character that `eb_nextc` returned, and the
boundary; at a boundary behind the beginning, `eb_nextc` at the previous offset does so for `eb_prevc`. -/
theorem chars_reversible {t : Pages} (ht : t.Ok) {charset : Charset} {o : Nat} (hb : Boundary charset t.bytes o)
    (stack stack' : List Byte) :
    (o < t.totalSize → ∀ t' c n, ebNextc t charset stack o = (t', c, n) →
      (ebPrevc t' charset stack' n).2 = (c, (o : Int))) ∧
    (0 < o → ∀ t' c p, ebPrevc t charset stack o = (t', c, p) → (ebNextc t' charset stack' p).2 = (c, (o : Int))) := by
  have hlen := ht.length_bytes
  obtain ⟨ho, hw⟩ := hb
  constructor
  · intro hlt t' c n h
    obtain ⟨e1, e2, e3⟩ := ebNextc_eq ht (r := ⟨t.bytes, charset, stack⟩) rfl (Int.natCast_nonneg o)
    simp only [h] at e1 e2 e3
    have hback (hn : n ≤ t'.totalSize) : (ebPrevc t' charset stack' n).2 = Reader.prevc ⟨t.bytes, charset, stack'⟩ n :=
      (ebPrevc_eq e2 (r := ⟨t.bytes, charset, stack'⟩) e3.bytes.symm hn).1
    by_cases hu : charset = .utf8
    · obtain ⟨front, back, hacc, htext, hfront⟩ := hw hu
      cases back with
      | nil =>
        rw [List.append_nil] at htext
        rw [htext, ← hfront] at hlen
        omega
      | cons d back =>
        have hd : Accepted d := hacc d (by simp)
        have hcut : t.bytes = front.flatMap utf8Encode ++ utf8Encode d ++ back.flatMap utf8Encode := by
          rw [htext, List.flatMap_append, List.flatMap_cons, List.append_assoc]
        rw [hfront, Reader.nextc_encoded (r := ⟨t.bytes, charset, stack⟩) hu hcut hd] at e1
        obtain ⟨rfl, rfl⟩ := Prod.mk.inj e1
        have hsize := congrArg List.length hcut
        rw [List.length_append, List.length_append] at hsize
        rw [hback (by rw [e3.total]; omega), Reader.prevc_encoded (r := ⟨t.bytes, charset, stack'⟩) hu hcut hd, hfront]
    · rw [Reader.nextc_byte (r := ⟨t.bytes, charset, stack⟩) hu (by simp only; omega)] at e1
      obtain ⟨rfl, rfl⟩ := Prod.mk.inj e1
      rw [hback (by rw [e3.total]; omega), ← Nat.cast_succ, Reader.prevc_byte (r := ⟨t.bytes, charset, stack'⟩) hu (by omega)]
      simp
  · intro hpos t' c p h
    obtain ⟨e1, e2, e3⟩ := ebPrevc_eq ht (r := ⟨t.bytes, charset, stack⟩) rfl (show (o : Int) ≤ t.totalSize by omega)
    simp only [h] at e1 e2 e3
    have hforth (hn : 0 ≤ p) : (ebNextc t' charset stack' p).2 = Reader.nextc ⟨t.bytes, charset, stack'⟩ p :=
      (ebNextc_eq e2 (r := ⟨t.bytes, charset, stack'⟩) e3.bytes.symm hn).1
    by_cases hu : charset = .utf8
    · obtain ⟨front, back, hacc, htext, hfront⟩ := hw hu
      rcases List.eq_nil_or_concat' front with rfl | ⟨front, d, rfl⟩
      · simp at hfront
        omega
      · have hd : Accepted d := hacc d (by simp)
        have hcut : t.bytes = front.flatMap utf8Encode ++ utf8Encode d ++ back.flatMap utf8Encode := by
          rw [htext]
          simp
        have hoff : o = (front.flatMap utf8Encode).length + (utf8Encode d).length := by
          rw [hfront]
          simp
        rw [hoff, Reader.prevc_encoded (r := ⟨t.bytes, charset, stack⟩) hu hcut hd] at e1
        obtain ⟨rfl, rfl⟩ := Prod.mk.inj e1
        rw [hforth (by omega), Reader.nextc_encoded (r := ⟨t.bytes, charset, stack'⟩) hu hcut hd, hoff]
    · rw [Reader.prevc_byte (r := ⟨t.bytes, charset, stack⟩) hu hpos] at e1
      obtain ⟨rfl, rfl⟩ := Prod.mk.inj e1
      rw [hforth (by omega), show (o : Int) - 1 = ((o - 1 : Nat) : Int) by omega,
        Reader.nextc_byte (r := ⟨t.bytes, charset, stack'⟩) hu (by simp only; omega)]
      simp only [Prod.mk.injEq, true_and]
      omega

/-- An A and a euro sign. -/
def euroPages : Pages := (ebInsert (EditBuffer.new false) 0 (utf8Encode 0x41 ++ utf8Encode 0x20ac)).toPages

theorem euroPages_ok : euroPages.Ok := (ebInsert_stands (new_stands false) (Nat.zero_le _) _).ok

/-- From the A over the euro sign to the end, and back. -/
theorem chars_reversible_euro :
    (∀ t' c n, ebNextc euroPages .utf8 [] 1 = (t', c, n) → (ebPrevc t' .utf8 [] n).2 = (c, 1)) ∧
      ∀ t' c p, ebPrevc euroPages .utf8 [] 1 = (t', c, p) → (ebNextc t' .utf8 [] p).2 = (c, 1) := by
  have hb : Boundary .utf8 euroPages.bytes 1 :=
    ⟨by decide, fun _ => ⟨[0x41], [0x20ac], by decide, by decide, by decide⟩⟩
  obtain ⟨h1, h2⟩ := chars_reversible euroPages_ok hb [] []
  exact ⟨h1 (by decide), h2 (by decide)⟩

/-!
## Backward over characters

`eb_prevc` looks for the byte that begins the character among six bytes. When there is none it takes the wrong end of its array
to compute where it was, and goes back by seven; when the byte announces more bytes than there are in front of the offset, it
decodes what lies on the stack behind the array.
-/

open Splice Digits

/-- At the offset `eb_prevc` returns an offset in front of it that lies in the text; this offset and the character are the same
for every text with the same bytes in front of the offset, however it is paged and whatever lies on the stack. -/
def PrevcSafe (t : Pages) (charset : Charset) (o : Nat) : Prop :=
  ∃ (ch : Nat) (prev : Int), 0 ≤ prev ∧ prev < o ∧ ∀ (t' : Pages) (stack : List Byte), t'.Ok → o ≤ t'.totalSize →
    t'.bytes.take o = t.bytes.take o → (ebPrevc t' charset stack o).2 = (ch, prev)

/-- In front of the offset there are at most six bytes, and all of them go on with a character. -/
def StrayStart (charset : Charset) (text : List Byte) (o : Nat) : Prop :=
  charset = .utf8 ∧ o ≤ maxCharBytes ∧ ∀ c ∈ text.take o, isTail c = true

/-- The first byte of a character announces more bytes than there are, and the code can still become one that `utf8_decode`
accepts: not all the codes that begin so are too small for their length, or surrogates. -/
def Unfinished (a : Nat) (q : List Nat) : Prop :=
  let m := utf8Length a - 1 - q.length
  let v := value 64 (a % firstCodeRange (utf8Length a)) (q.map low6)
  q.length + 1 < utf8Length a ∧ minCode (utf8Length a) < (v + 1) * 64 ^ m ∧ ¬(0xd800 ≤ v * 64 ^ m ∧ (v + 1) * 64 ^ m ≤ 0xe000)

/-- The character in front of the offset is unfinished there. -/
def OpenEnd (charset : Charset) (text : List Byte) (o : Nat) : Prop :=
  charset = .utf8 ∧ ∃ first, Reader.firstByte text (maxCharBytes - 1) (o - 1) = some first ∧
    Unfinished (text.getD first 0) (slice text (first + 1) (o - first - 1))

/-! ### Unfinished characters -/

theorem low6_lt {p : List Nat} {d : Nat} (h : d ∈ p.map low6) : d < 64 := by
  obtain ⟨x, -, rfl⟩ := List.mem_map.mp h
  exact Nat.mod_lt _ (by decide)

/-- The least code that an unfinished character can become. -/
theorem Unfinished.least {a : Nat} {q : List Nat} (h : Unfinished a q) :
    ∃ w, w / 64 ^ (utf8Length a - 1 - q.length) = value 64 (a % firstCodeRange (utf8Length a)) (q.map low6) ∧
      ¬Refused (utf8Length a) w ∧ w ≠ invalidChar := by
  obtain ⟨hlen, hmin, hsur⟩ := h
  obtain ⟨v, hv⟩ : ∃ v, v = value 64 (a % firstCodeRange (utf8Length a)) (q.map low6) := ⟨_, rfl⟩
  obtain ⟨m, hm⟩ : ∃ m, m = utf8Length a - 1 - q.length := ⟨_, rfl⟩
  obtain ⟨l, hl⟩ : ∃ l, l = utf8Length a := ⟨_, rfl⟩
  rw [← hv, ← hm, ← hl] at hmin
  rw [← hv, ← hm] at hsur
  rw [← hl] at hlen hm
  rw [← hv, ← hl, ← hm]
  have hl6 := utf8Length_le a
  rw [← hl] at hl6
  have hm5 : 1 ≤ m ∧ m ≤ 5 := by
    have : maxCharBytes = 6 := rfl
    omega
  have hmincode : minCode l % 64 = 0 ∧ ¬(0xd800 ≤ minCode l ∧ minCode l ≤ 0xdfff) := by
    unfold minCode
    split <;> decide
  refine ⟨max (v * 64 ^ m) (minCode l), ?_, ?_⟩
  · have hpos : 0 < 64 ^ m := Nat.pow_pos (by decide)
    have hmul : (v + 1) * 64 ^ m = v * 64 ^ m + 64 ^ m := by ring
    rw [Nat.div_eq_iff hpos]
    omega
  · have hmul : v * 64 ^ m % 64 = 0 ∧ ¬(0xd800 ≤ v * 64 ^ m ∧ v * 64 ^ m ≤ 0xdfff) := by
      obtain ⟨h1, h5⟩ := hm5
      interval_cases m <;> simp only [Nat.reducePow] at hsur ⊢ <;> omega
    unfold Refused invalidChar
    rcases Nat.le_total (v * 64 ^ m) (minCode l) with hle | hle
    · rw [Nat.max_eq_right hle]
      omega
    · rw [Nat.max_eq_left hle]
      omega

/-- What an unfinished character decodes to depends on what follows it. -/
theorem Unfinished.depends {a : Nat} {q : List Nat} (h : Unfinished a q) (hq : ∀ c ∈ q, isTail c = true) :
    ∃ s, (utf8Decode (a :: (q ++ s))).1 ≠ (utf8Decode (a :: (q ++ []))).1 := by
  obtain ⟨w, hw, hok, hne⟩ := h.least
  obtain ⟨hlen, -, -⟩ := h
  obtain ⟨m, hm⟩ : ∃ m, m = utf8Length a - 1 - q.length := ⟨_, rfl⟩
  rw [← hm] at hw
  have h1 : utf8Length a ≠ 1 := by omega
  have ha : 128 ≤ a := by
    by_contra hlt
    exact h1 (utf8Length_one.mpr (Or.inl (by omega)))
  have htails : ∀ c ∈ q ++ (digits 64 m w).map tailByte, isTail c = true := by
    intro c hc
    rcases List.mem_append.mp hc with hc | hc
    · exact hq c hc
    · exact isTail_of_mem_digits hc
  have hlen' : (q ++ (digits 64 m w).map tailByte).length = utf8Length a - 1 := by
    rw [List.length_append, List.length_map, length_digits]
    omega
  have hspelled : spelled a (q ++ (digits 64 m w).map tailByte) = w := by
    rw [spelled, ← hlen', List.take_length, List.map_append, map_low6_tailByte (fun d => digits_lt (by decide)),
      value_append, ← hw, value_digits]
  have hspells : Spells a (q ++ (digits 64 m w).map tailByte) := by
    refine ⟨h1, ?_, by rw [hspelled]; exact hok⟩
    rw [tailRun_eq_length htails, hlen']
  have hnot : ¬Spells a (q ++ []) := by
    rintro ⟨-, h2, -⟩
    rw [List.append_nil, tailRun_eq_length hq] at h2
    omega
  refine ⟨(digits 64 m w).map tailByte, ?_⟩
  rw [utf8Decode_spelled ha hspells, hspelled, utf8Decode_invalid ha hnot]
  exact hne

/-- What any other character decodes to does not. -/
theorem decode_of_not_unfinished {a : Nat} {q : List Nat} (h : ¬Unfinished a q) (hq : ∀ c ∈ q, isTail c = true)
    (s : List Nat) : (utf8Decode (a :: (q ++ s))).1 = (utf8Decode (a :: q)).1 := by
  by_cases hlen : utf8Length a ≤ q.length + 1
  · rw [utf8Decode_append a s (Or.inl hlen)]
  · have h1 : utf8Length a ≠ 1 := by omega
    have ha : 128 ≤ a := by
      by_contra hlt
      exact h1 (utf8Length_one.mpr (Or.inl (by omega)))
    have hnot : ¬Spells a q := by
      rintro ⟨-, h2, -⟩
      rw [tailRun_eq_length hq] at h2
      omega
    have hnot' : ¬Spells a (q ++ s) := by
      rintro ⟨-, h2, h3⟩
      rw [tailRun_append hq] at h2
      obtain ⟨m, hm⟩ : ∃ m, m = utf8Length a - 1 - q.length := ⟨_, rfl⟩
      have hslen : (s.take m).length = m := by
        rw [List.length_take]
        have := tailRun_le s
        omega
      have htake : (q ++ s).take (utf8Length a - 1) = q ++ s.take m := by
        rw [List.take_append, hm, List.take_of_length_le (by omega)]
      obtain ⟨b1, b2⟩ := value_bounds (fun d (hd : d ∈ (s.take m).map low6) => low6_lt hd)
        (value 64 (a % firstCodeRange (utf8Length a)) (q.map low6))
      rw [List.length_map, hslen] at b1 b2
      rw [spelled, htake, List.map_append, value_append] at h3
      refine h ⟨by omega, ?_, ?_⟩
      · by_contra hmin
        rw [← hm] at hmin
        exact h3 (Or.inl (by omega))
      · rintro ⟨s1, s2⟩
        rw [← hm] at s1 s2
        exact h3 (Or.inr (Or.inl ⟨by omega, by omega⟩))
    rw [utf8Decode_invalid ha hnot, utf8Decode_invalid ha hnot']

/-! ### Texts with the same bytes in front of an offset -/

theorem getD_take {text text' : List Byte} {o : Nat} (h : text'.take o = text.take o) {i : Nat} (hi : i < o) :
    text'.getD i 0 = text.getD i 0 := by
  have hget : (text'.take o)[i]? = (text.take o)[i]? := by rw [h]
  rw [List.getElem?_take_of_lt hi, List.getElem?_take_of_lt hi] at hget
  rw [List.getD_eq_getElem?_getD, List.getD_eq_getElem?_getD, hget]

/-- Where a character begins is said by the bytes in front. -/
theorem firstByte_take {text text' : List Byte} {o : Nat} (h : text'.take o = text.take o) {n offset : Nat} (ho : offset < o) :
    Reader.firstByte text' n offset = Reader.firstByte text n offset := by
  induction n generalizing offset with
  | zero => rw [Reader.firstByte, Reader.firstByte, getD_take h ho]
  | succ n ih =>
    rw [Reader.firstByte.eq_def, Reader.firstByte.eq_def]
    simp only [getD_take h ho]
    split
    · cases offset with
      | zero => rfl
      | succ offset => exact ih (by omega)
    · rfl

/-- So are its bytes. -/
theorem slice_take (text : List Byte) (first o : Nat) : slice text first (o - first) = (text.take o).drop first := by
  rw [slice, List.drop_take]

/-- The bytes between the one that begins a character and the offset go on with it. -/
theorem isTail_of_mem_slice {text : List Byte} {n o first : Nat} (ho : 0 < o) (hlen : o ≤ text.length)
    (hf : Reader.firstByte text n (o - 1) = some first) : ∀ c ∈ slice text (first + 1) (o - first - 1), isTail c = true := by
  obtain ⟨f1, -, -, f4⟩ := Reader.firstByte_some hf
  intro c hc
  obtain ⟨i, hi, rfl⟩ := List.getElem_of_mem hc
  rw [length_slice _ (by omega)] at hi
  have h4 := f4 (first + 1 + i) (by omega) (by omega)
  rw [getD_of_lt _ (by omega)] at h4
  simpa [slice] using h4

/-- The first byte of a character, and those behind it. -/
theorem slice_first (text : List Byte) {first o : Nat} (hf : first < o) (hlen : o ≤ text.length) :
    slice text first (o - first) = text.getD first 0 :: slice text (first + 1) (o - first - 1) := by
  rw [show o - first = o - first - 1 + 1 by omega, slice_head _ (by omega), getD_of_lt _ (by omega)]
  rfl

/-! ### The condition -/

/-- Both conditions together are enough. -/
theorem PrevcSafe.of_conditions {t : Pages} (ht : t.Ok) {charset : Charset} {o : Nat} (h0 : 0 < o) (ho : o ≤ t.totalSize)
    (hs : ¬StrayStart charset t.bytes o) (he : ¬OpenEnd charset t.bytes o) : PrevcSafe t charset o := by
  have hlen := ht.length_bytes
  have heq (t' : Pages) (stack : List Byte) (ht' : t'.Ok) (ho' : o ≤ t'.totalSize) :
      (ebPrevc t' charset stack o).2 = Reader.prevc ⟨t'.bytes, charset, stack⟩ o :=
    (ebPrevc_eq ht' (r := ⟨t'.bytes, charset, stack⟩) rfl (by omega)).1
  by_cases hu : charset = .utf8
  · cases hf : Reader.firstByte t.bytes (maxCharBytes - 1) (o - 1) with
    | none =>
      have hsix : maxCharBytes < o := by
        by_contra hle
        refine hs ⟨hu, by omega, fun c hc => ?_⟩
        obtain ⟨i, hi, rfl⟩ := List.getElem_of_mem hc
        rw [List.length_take] at hi
        have := Reader.firstByte_none hf i (by omega) (by have : maxCharBytes = 6 := rfl; omega)
        rw [getD_of_lt _ (by omega)] at this
        rwa [List.getElem_take]
      refine ⟨t.bytes.getD (o - 1) 0, (o : Int) - 1 - maxCharBytes, by omega, by omega, fun t' stack ht' ho' htake => ?_⟩
      rw [heq t' stack ht' ho', Reader.prevc_none (r := ⟨t'.bytes, charset, stack⟩) hu h0
        (by rw [firstByte_take htake (by omega)]; exact hf), getD_take htake (by omega)]
    | some first =>
      obtain ⟨f1, f2, f3, f4⟩ := Reader.firstByte_some hf
      have hfin : ¬Unfinished (t.bytes.getD first 0) (slice t.bytes (first + 1) (o - first - 1)) :=
        fun hun => he ⟨hu, first, hf, hun⟩
      refine ⟨(utf8Decode (slice t.bytes first (o - first))).1, first, by omega, by omega, fun t' stack ht' ho' htake => ?_⟩
      rw [heq t' stack ht' ho', Reader.prevc_some (r := ⟨t'.bytes, charset, stack⟩) hu h0
        (by rw [firstByte_take htake (by omega)]; exact hf)]
      simp only
      rw [slice_take, htake, ← slice_take, slice_first _ (by omega) (by omega), List.cons_append,
        decode_of_not_unfinished hfin (isTail_of_mem_slice h0 (by omega) hf)]
  · refine ⟨t.bytes.getD (o - 1) 0, (o : Int) - 1, by omega, by omega, fun t' stack ht' ho' htake => ?_⟩
    rw [heq t' stack ht' ho', Reader.prevc_byte (r := ⟨t'.bytes, charset, stack⟩) hu h0, getD_take htake (by omega)]

/-- Each of them is needed. -/
theorem PrevcSafe.conditions {t : Pages} (ht : t.Ok) {charset : Charset} {o : Nat} (h0 : 0 < o) (ho : o ≤ t.totalSize)
    (h : PrevcSafe t charset o) : ¬StrayStart charset t.bytes o ∧ ¬OpenEnd charset t.bytes o := by
  have hlen := ht.length_bytes
  obtain ⟨ch, prev, hpos, -, hsame⟩ := h
  have heq (stack : List Byte) : Reader.prevc ⟨t.bytes, charset, stack⟩ o = (ch, prev) :=
    (ebPrevc_eq ht (r := ⟨t.bytes, charset, stack⟩) rfl (by omega)).1.symm.trans (hsame t stack ht ho rfl)
  constructor
  · rintro ⟨hu, h6, hall⟩
    have hnone : Reader.firstByte t.bytes (maxCharBytes - 1) (o - 1) = none := by
      cases hf : Reader.firstByte t.bytes (maxCharBytes - 1) (o - 1) with
      | none => rfl
      | some first =>
        obtain ⟨f1, -, f3, -⟩ := Reader.firstByte_some hf
        have hmem : t.bytes[first] ∈ t.bytes.take o :=
          List.mem_take_iff_getElem.mpr ⟨first, by omega, rfl⟩
        rw [getD_of_lt _ (by omega), hall _ hmem] at f3
        cases f3
    have hprev := heq []
    rw [Reader.prevc_none (r := ⟨t.bytes, charset, []⟩) hu h0 hnone] at hprev
    have := congrArg Prod.snd hprev
    simp only at this
    omega
  · rintro ⟨hu, first, hf, hun⟩
    obtain ⟨f1, -, -, -⟩ := Reader.firstByte_some hf
    obtain ⟨s, hs⟩ := hun.depends (isTail_of_mem_slice h0 (by omega) hf)
    have hch (stack : List Byte) : (utf8Decode (t.bytes.getD first 0 :: (slice t.bytes (first + 1) (o - first - 1) ++ stack))).1
        = ch := by
      have := heq stack
      rw [Reader.prevc_some (r := ⟨t.bytes, charset, stack⟩) hu h0 hf] at this
      simp only at this
      rw [slice_first _ (by omega) (by omega), List.cons_append] at this
      exact congrArg Prod.fst this
    exact hs ((hch s).trans (hch []).symm)

/-- `eb_prevc` is safe exactly where the text in front of the offset is not one to six bytes that go on with a character, and
does not end in a character that is unfinished. -/
theorem prevcSafe_iff {t : Pages} (ht : t.Ok) (charset : Charset) {o : Nat} (h0 : 0 < o) (ho : o ≤ t.totalSize) :
    PrevcSafe t charset o ↔ ¬StrayStart charset t.bytes o ∧ ¬OpenEnd charset t.bytes o :=
  ⟨fun h => h.conditions ht h0 ho, fun h => .of_conditions ht h0 ho h.1 h.2⟩

/-- A byte that goes on with a character, and an A. -/
def strayPages : Pages := (ebInsert (EditBuffer.new false) 0 [0x80, 0x41]).toPages

theorem strayPages_ok : strayPages.Ok := (ebInsert_stands (new_stands false) (Nat.zero_le _) _).ok

/-- Behind the A it is safe. -/
theorem prevcSafe_stray : PrevcSafe strayPages .utf8 2 := by
  refine (prevcSafe_iff strayPages_ok .utf8 (by decide) (by decide)).mpr ⟨?_, ?_⟩
  · rintro ⟨-, -, h⟩
    revert h
    decide
  · rintro ⟨-, first, hf, h, -⟩
    have hfirst : Reader.firstByte strayPages.bytes (maxCharBytes - 1) (2 - 1) = some 1 := by decide
    rw [hfirst] at hf
    cases hf
    revert h
    decide

/-- Behind the first byte it goes back to the offset -6. -/
theorem not_prevcSafe_stray :
    ¬∀ t : Pages, t.Ok → ∀ charset, ∀ o, 0 < o → o ≤ t.totalSize → PrevcSafe t charset o := by
  intro h
  obtain ⟨ch, prev, hpos, -, hsame⟩ := h strayPages strayPages_ok .utf8 1 (by decide) (by decide)
  have hprev : ((ebPrevc strayPages .utf8 [] 1).2.2 : Int) = -6 := by decide
  have hsame' : (ebPrevc strayPages .utf8 [] 1).2 = (ch, prev) := hsame strayPages [] strayPages_ok (by decide) rfl
  rw [hsame'] at hprev
  simp only at hprev
  omega

end Hoe
