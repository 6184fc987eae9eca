import Hoe.Chars
import Hoe.Lib.Digits

/-!
# UTF-8 as digits

A character of more than one byte is a byte that says how many go on with it, and their values, which are digits to base 64.
`utf8_decode` takes as many of the bytes that go on as there are, and no more than the first byte says, whatever value they
have. `utf8_encode` writes the digits.
-/

namespace Hoe

open Digits

/-! ## Decoding -/

/-- How many of the first bytes go on with a character. -/
def tailRun (p : List Nat) : Nat := (p.takeWhile isTail).length

@[simp] theorem tailRun_nil : tailRun [] = 0 := rfl

/-- The run of tail bytes goes on as long as each is one. -/
theorem tailRun_cons (c : Nat) (p : List Nat) : tailRun (c :: p) = if isTail c then tailRun p + 1 else 0 := by
  unfold tailRun
  rw [List.takeWhile_cons]
  split <;> rfl

theorem tailRun_le (p : List Nat) : tailRun p ≤ p.length := (List.takeWhile_prefix isTail).length_le

/-- The run goes on behind tail bytes. -/
theorem tailRun_append {p : List Nat} (h : ∀ c ∈ p, isTail c = true) (q : List Nat) :
    tailRun (p ++ q) = p.length + tailRun q := by
  induction p with
  | nil => simp
  | cons c p ih =>
    obtain ⟨hc, hp⟩ := List.forall_mem_cons.mp h
    rw [List.cons_append, tailRun_cons, if_pos hc, ih hp, List.length_cons]
    omega

/-- The bytes that go on end at a byte that does not. -/
theorem tailRun_append_le (p : List Nat) {c : Nat} (hc : isTail c = false) (q : List Nat) :
    tailRun (p ++ c :: q) ≤ p.length := by
  induction p with
  | nil => rw [List.nil_append, tailRun_cons, hc]; rfl
  | cons d p ih =>
    rw [List.cons_append, tailRun_cons, List.length_cons]
    split <;> omega

/-- As many bytes as the run has go on with a character. -/
theorem isTail_of_mem_take {p : List Nat} {n c : Nat} (hn : n ≤ tailRun p) (hc : c ∈ p.take n) : isTail c = true := by
  induction p generalizing n with
  | nil => simp at hc
  | cons d p ih =>
    cases n with
    | zero => cases hc
    | succ n =>
      rw [tailRun_cons] at hn
      by_cases hd : isTail d = true
      · rw [if_pos hd] at hn
        rcases List.mem_cons.mp hc with rfl | hc
        · exact hd
        · exact ih (by omega) hc
      · rw [if_neg hd] at hn
        omega

/-- The tail bytes are those from 0x80 to 0xbf. -/
theorem isTail_iff {c : Nat} : isTail c = true ↔ 0x80 ≤ c ∧ c < 0xc0 := by simp [isTail]

/-- The value of a byte that goes on with a character. -/
def low6 (c : Nat) : Nat := c % 64

/-- A tail byte adds six bits to the code; another byte ends it. -/
theorem utf8Tail_cons (n c : Nat) (d : Nat) (p : List Nat) :
    utf8Tail (n + 1) c (d :: p) =
      if isTail d = true then ((utf8Tail n (c * 64 + d % 64) p).1, (utf8Tail n (c * 64 + d % 64) p).2 + 1) else (none, 0) :=
  rfl

/-- The loop of `utf8_decode` takes `n` bytes if there are as many that go on, and stops at the first that does not. -/
theorem utf8Tail_eq (n c : Nat) (p : List Nat) :
    utf8Tail n c p = if n ≤ tailRun p then (some (value 64 c ((p.take n).map low6)), n) else (none, tailRun p) := by
  induction n generalizing c p with
  | zero => simp [utf8Tail, value]
  | succ n ih =>
    cases p with
    | nil => simp [utf8Tail, isTail]
    | cons d p =>
      rw [tailRun_cons, utf8Tail_cons]
      by_cases hd : isTail d = true
      · rw [if_pos hd, if_pos hd, ih]
        by_cases hn : n ≤ tailRun p
        · rw [if_pos hn, if_pos (by omega), List.take_succ_cons, List.map_cons, value]
          rfl
        · rw [if_neg hn, if_neg (by omega)]
      · rw [if_neg hd, if_neg hd, if_neg (by omega)]

theorem utf8Length_pos (c : Nat) : 0 < utf8Length c := by
  unfold utf8Length
  split_ifs <;> decide

/-- No character is longer than the array of `eb_nextc`. -/
theorem utf8Length_le (c : Nat) : utf8Length c ≤ maxCharBytes := by
  unfold utf8Length
  split_ifs <;> decide

/-- A byte that begins no longer character stands alone. -/
theorem utf8Length_one {c : Nat} : utf8Length c = 1 ↔ c < 0xc0 ∨ 0xfe ≤ c := by
  unfold utf8Length
  split_ifs <;> omega

theorem utf8Length_tail {c : Nat} (h : isTail c = true) : utf8Length c = 1 :=
  utf8Length_one.mpr (Or.inl (isTail_iff.mp h).2)

/-- How many bytes `utf8_decode` takes. -/
theorem utf8Decode_taken (p : List Nat) : (utf8Decode p).2 = min (utf8Length (p.headD 0)) (1 + tailRun p.tail) := by
  have hpos := utf8Length_pos (p.headD 0)
  unfold utf8Decode
  simp only
  by_cases h : p.headD 0 < 128
  · have hl := utf8Length_one.mpr (Or.inl (by omega : p.headD 0 < 0xc0))
    rw [if_pos h, hl]
    omega
  · rw [if_neg h]
    by_cases h1 : utf8Length (p.headD 0) = 1
    · rw [if_pos h1, h1]
      omega
    · rw [if_neg h1, utf8Tail_eq]
      by_cases hn : utf8Length (p.headD 0) - 1 ≤ tailRun p.tail
      · rw [if_pos hn]
        simp only
        split <;> simp only <;> omega
      · rw [if_neg hn]
        simp only
        omega

/-- Decoding takes a byte at least. -/
theorem utf8Decode_taken_pos (p : List Nat) : 0 < (utf8Decode p).2 := by
  rw [utf8Decode_taken]
  have := utf8Length_pos (p.headD 0)
  omega

/-- A code that `utf8_decode` refuses where `l` bytes spell it: one that fewer bytes spell, a surrogate, or a special code. -/
def Refused (l c : Nat) : Prop := c < minCode l ∨ (0xd800 ≤ c ∧ c ≤ 0xdfff) ∨ c = 0xfffe ∨ c = 0xffff

instance (l c : Nat) : Decidable (Refused l c) := by unfold Refused; infer_instance

/-- The code that a first byte and the bytes that go on spell. -/
def spelled (c : Nat) (p : List Nat) : Nat :=
  value 64 (c % firstCodeRange (utf8Length c)) ((p.take (utf8Length c - 1)).map low6)

/-- A byte of 7 bits is its own character. -/
theorem utf8Decode_ascii {p : List Nat} (h : p.headD 0 < 128) : utf8Decode p = (p.headD 0, 1) := by
  unfold utf8Decode
  simp only
  rw [if_pos h]

/-- A first byte and the bytes behind it spell a code of more than one byte that `utf8_decode` accepts. -/
def Spells (a : Nat) (q : List Nat) : Prop :=
  utf8Length a ≠ 1 ∧ utf8Length a - 1 ≤ tailRun q ∧ ¬Refused (utf8Length a) (spelled a q)

/-- Decoding, by the first byte. -/
theorem utf8Decode_cons (a : Nat) (q : List Nat) :
    utf8Decode (a :: q) =
      if a < 128 then (a, 1) else if utf8Length a = 1 then (invalidChar, 1) else
      let r := utf8Tail (utf8Length a - 1) (a % firstCodeRange (utf8Length a)) q
      match r.1 with
      | none => (invalidChar, r.2 + 1)
      | some c => if Refused (utf8Length a) c then (invalidChar, r.2 + 1) else (c, r.2 + 1) :=
  rfl

/-- Bytes that spell a character are decoded to it. -/
theorem utf8Decode_spelled {a : Nat} {q : List Nat} (ha : 128 ≤ a) (h : Spells a q) :
    (utf8Decode (a :: q)).1 = spelled a q := by
  obtain ⟨h1, hn, hr⟩ := h
  rw [utf8Decode_cons, if_neg (by omega), if_neg h1, utf8Tail_eq, if_pos hn]
  exact congrArg Prod.fst (if_neg hr)

/-- Bytes that spell none are decoded to `INVALID_CHAR`. -/
theorem utf8Decode_invalid {a : Nat} {q : List Nat} (ha : 128 ≤ a) (h : ¬Spells a q) :
    (utf8Decode (a :: q)).1 = invalidChar := by
  rw [utf8Decode_cons, if_neg (by omega)]
  by_cases h1 : utf8Length a = 1
  · rw [if_pos h1]
  · rw [if_neg h1, utf8Tail_eq]
    by_cases hn : utf8Length a - 1 ≤ tailRun q
    · have hr : Refused (utf8Length a) (spelled a q) := by
        by_contra hr
        exact h ⟨h1, hn, hr⟩
      rw [if_pos hn]
      exact congrArg Prod.fst (if_pos hr)
    · rw [if_neg hn]

/-! ## Encoding -/

/-- How many bytes `utf8_encode` writes. -/
def utf8Width (c : Nat) : Nat :=
  if c < 0x80 then 1 else if c < 0x800 then 2 else if c < 0x10000 then 3 else if c < 0x00200000 then 4 else
  if c < 0x04000000 then 5 else 6

/-- The first byte of a character of `l` bytes, without the bits of its code. -/
def leadByte : Nat → Nat
  | 2 => 0xc0
  | 3 => 0xe0
  | 4 => 0xf0
  | 5 => 0xf8
  | 6 => 0xfc
  | _ => 0

/-- The byte that goes on with a character and has the value. -/
def tailByte (d : Nat) : Nat := 0x80 + d

@[simp] theorem isTail_tailByte {d : Nat} (h : d < 64) : isTail (tailByte d) = true :=
  isTail_iff.mpr (by unfold tailByte; omega)

theorem low6_tailByte {d : Nat} (h : d < 64) : low6 (tailByte d) = d := by
  unfold low6 tailByte
  omega

/-- A tail byte has nothing but its six bits. -/
theorem tailByte_low6 {c : Nat} (h : isTail c = true) : tailByte (low6 c) = c := by
  have := isTail_iff.mp h
  unfold low6 tailByte
  omega

/-- A character of 7 bits is one byte. -/
theorem utf8Encode_ascii {c : Nat} (h : c < 0x80) : utf8Encode c = [c] := by
  unfold utf8Encode
  simp only
  rw [if_pos h]

/-- A character of more than one byte: the first byte, and the digits of the code to base 64. -/
theorem utf8Encode_eq {c : Nat} (h : 0x80 ≤ c) :
    utf8Encode c =
      (leadByte (utf8Width c) + c / 64 ^ (utf8Width c - 1)) :: (digits 64 (utf8Width c - 1) c).map tailByte := by
  unfold utf8Encode utf8Width
  simp only
  split_ifs <;> first | omega | simp [leadByte, digits, tailByte]

theorem utf8Width_pos (c : Nat) : 0 < utf8Width c := by
  unfold utf8Width
  split_ifs <;> decide

/-- The codes that `utf8_decode` accepts. -/
def Accepted (c : Nat) : Prop := c < 0x80000000 ∧ ¬(0xd800 ≤ c ∧ c ≤ 0xdfff) ∧ c ≠ 0xfffe ∧ c ≠ 0xffff

instance (c : Nat) : Decidable (Accepted c) := by unfold Accepted; infer_instance

/-- The code of `l` bytes: the range of the codes, and of what the first byte adds. -/
theorem utf8Width_spec {c : Nat} (h : 0x80 ≤ c) (hc : c < 0x80000000) :
    utf8Length (leadByte (utf8Width c) + c / 64 ^ (utf8Width c - 1)) = utf8Width c ∧
      (leadByte (utf8Width c) + c / 64 ^ (utf8Width c - 1)) % firstCodeRange (utf8Width c) =
        c / 64 ^ (utf8Width c - 1) ∧
      128 ≤ leadByte (utf8Width c) + c / 64 ^ (utf8Width c - 1) ∧ utf8Width c ≠ 1 ∧ minCode (utf8Width c) ≤ c := by
  unfold utf8Width
  split_ifs
  · omega
  all_goals
    simp only [leadByte, firstCodeRange, minCode, Nat.reduceSub, Nat.reducePow, utf8Length]
    refine ⟨?_, ?_, ?_, by decide, by omega⟩
    · split_ifs <;> omega
    · omega
    · omega

/-- Where the code comes from: the first byte says the width of the code, if the code is none that fewer bytes spell. -/
theorem utf8Width_of_lead {a c : Nat} (hl : utf8Length a ≠ 1) (ha : c / 64 ^ (utf8Length a - 1) = a % firstCodeRange (utf8Length a))
    (hmin : minCode (utf8Length a) ≤ c) :
    utf8Width c = utf8Length a ∧ leadByte (utf8Length a) + c / 64 ^ (utf8Length a - 1) = a ∧ c < 0x80000000 ∧ 0x80 ≤ c := by
  revert hl ha hmin
  unfold utf8Length
  split_ifs
  all_goals
    intro hl ha hmin
    simp only [firstCodeRange, minCode, Nat.reduceSub, Nat.reducePow, leadByte] at ha hmin ⊢
  · omega
  all_goals
    first
      | omega
      | (refine ⟨?_, by omega, by omega, by omega⟩
         unfold utf8Width
         split_ifs <;> omega)

/-! ## Back and forth -/

/-- The bytes behind the first one are tail bytes. -/
theorem isTail_of_mem_digits {n c x : Nat} (h : x ∈ (digits 64 n c).map tailByte) : isTail x = true := by
  obtain ⟨d, hd, rfl⟩ := List.mem_map.mp h
  exact isTail_tailByte (digits_lt (by decide) hd)

/-- Their bits are the digits they were made of. -/
theorem map_low6_tailByte {ds : List Nat} (h : ∀ d ∈ ds, d < 64) : (ds.map tailByte).map low6 = ds := by
  rw [List.map_map]
  exact (List.map_congr_left (fun d hd => low6_tailByte (h d hd))).trans (List.map_id _)

/-- What was encoded is decoded, whatever follows. -/
theorem utf8Decode_encode {c : Nat} (h : Accepted c) (t : List Nat) :
    utf8Decode (utf8Encode c ++ t) = (c, (utf8Encode c).length) := by
  by_cases hc : c < 0x80
  · rw [utf8Encode_ascii hc]
    exact utf8Decode_ascii hc
  · obtain ⟨hlen, hlead, h128, h1, hmin⟩ := utf8Width_spec (by omega) h.1
    have hpos := utf8Width_pos c
    obtain ⟨w, hw⟩ : ∃ w, w = utf8Width c := ⟨_, rfl⟩
    obtain ⟨a, ha⟩ : ∃ a, a = leadByte w + c / 64 ^ (w - 1) := ⟨_, rfl⟩
    obtain ⟨q, hq⟩ : ∃ q, q = (digits 64 (w - 1) c).map tailByte := ⟨_, rfl⟩
    have hqlen : q.length = w - 1 := by rw [hq, List.length_map, length_digits]
    have hrun : tailRun (q ++ t) = w - 1 + tailRun t := by
      rw [tailRun_append (fun x hx => isTail_of_mem_digits (hq ▸ hx)), hqlen]
    have henc : utf8Encode c = a :: q := by rw [utf8Encode_eq (by omega), ← hw, ← ha, ← hq]
    rw [← hw] at hlen hlead h128 h1 hmin hpos
    rw [← ha] at hlen hlead h128
    have hspell : spelled a (q ++ t) = c := by
      rw [spelled, hlen, hlead, List.take_left' hqlen, hq, map_low6_tailByte (fun d => digits_lt (by decide)), value_digits]
    have hfine : Spells a (q ++ t) := by
      refine ⟨by rw [hlen]; exact h1, by rw [hlen, hrun]; omega, ?_⟩
      rw [hspell, hlen]
      obtain ⟨-, h2, h3, h4⟩ := h
      rintro (h' | h' | h' | h') <;> omega
    have htaken := utf8Decode_taken (a :: (q ++ t))
    simp only [List.headD_cons, List.tail_cons] at htaken
    rw [hlen, hrun] at htaken
    rw [henc, List.cons_append]
    refine Prod.ext ((utf8Decode_spelled h128 hfine).trans hspell) ?_
    rw [htaken, List.length_cons, hqlen]
    omega

/-- What decodes to a character is its encoding, and the code is accepted. -/
theorem utf8Decode_valid {p : List Nat} (hp : p ≠ []) (hv : (utf8Decode p).1 ≠ invalidChar) :
    p.take (utf8Decode p).2 = utf8Encode (utf8Decode p).1 ∧ Accepted (utf8Decode p).1 := by
  obtain ⟨a, q, rfl⟩ := List.exists_cons_of_ne_nil hp
  by_cases ha : a < 128
  · rw [utf8Decode_ascii (p := a :: q) ha]
    simp only [List.headD_cons]
    refine ⟨by rw [utf8Encode_ascii ha]; rfl, ?_⟩
    unfold Accepted
    omega
  · have hsp : Spells a q := by
      by_contra hsp
      exact hv (utf8Decode_invalid (by omega) hsp)
    have hcode := utf8Decode_spelled (by omega) hsp
    have htaken := utf8Decode_taken (a :: q)
    simp only [List.headD_cons, List.tail_cons] at htaken
    obtain ⟨hl1, hrun, hok⟩ := hsp
    obtain ⟨v, hvdef⟩ : ∃ v, v = spelled a q := ⟨_, rfl⟩
    obtain ⟨l, hl⟩ : ∃ l, l = utf8Length a := ⟨_, rfl⟩
    rw [← hvdef] at hcode hok
    rw [← hl] at htaken hl1 hrun hok
    have hpos : 0 < l := by rw [hl]; exact utf8Length_pos a
    have hlen : (q.take (l - 1)).length = l - 1 := by
      rw [List.length_take]
      have := tailRun_le q
      omega
    have hds : ∀ d ∈ (q.take (l - 1)).map low6, d < 64 := by
      intro d hd
      obtain ⟨x, -, rfl⟩ := List.mem_map.mp hd
      exact Nat.mod_lt _ (by decide)
    have hmaplen : ((q.take (l - 1)).map low6).length = l - 1 := by rw [List.length_map, hlen]
    have hspell : v = value 64 (a % firstCodeRange l) ((q.take (l - 1)).map low6) := by rw [hvdef, spelled, ← hl]
    have hdiv : v / 64 ^ (l - 1) = a % firstCodeRange l := by
      have := value_div hds (a % firstCodeRange l)
      rwa [hmaplen, ← hspell] at this
    have hdig : digits 64 (l - 1) v = (q.take (l - 1)).map low6 := by
      have := digits_value hds (a % firstCodeRange l)
      rwa [hmaplen, ← hspell] at this
    have hmin : minCode l ≤ v := by
      by_contra hlt
      exact hok (Or.inl (by omega))
    obtain ⟨hw, hlead, hmax, h80⟩ := utf8Width_of_lead (a := a) (c := v) (by rw [← hl]; exact hl1) (by rw [← hl]; exact hdiv)
      (by rw [← hl]; exact hmin)
    rw [← hl] at hw hlead
    have htail : ((q.take (l - 1)).map low6).map tailByte = q.take (l - 1) := by
      rw [List.map_map]
      exact (List.map_congr_left (fun x hx => tailByte_low6 (isTail_of_mem_take hrun hx))).trans (List.map_id _)
    have hsz : (utf8Decode (a :: q)).2 = l - 1 + 1 := by rw [htaken]; omega
    rw [hsz, hcode, List.take_succ_cons, utf8Encode_eq h80, hw, hlead, hdig, htail]
    refine ⟨rfl, hmax, ?_, ?_, ?_⟩
    · exact fun hs => hok (Or.inr (Or.inl hs))
    · exact fun hs => hok (Or.inr (Or.inr (Or.inl hs)))
    · exact fun hs => hok (Or.inr (Or.inr (Or.inr hs)))

end Hoe
