import Hoe.Characters
import Hoe.Lemmas.ChangeCase
import Hoe.Lemmas.Utf8
import Hoe.Convert
import Hoe.Lemmas.Reading
import Hoe.Lemmas.History

/-!
# Charsets

The codec of UTF-8, the room that its characters take, and the conversion of a buffer.
-/

namespace Hoe

open Splice

/-! ## Converting character by character

A text that encodes characters which both charsets have becomes the text that encodes the same characters in the other one:
`eb_nextc` reads back what `unicode_to_charset` wrote, whatever the pages and the stack.
-/

/-! ## Texts that encode characters -/

/-- The charset has the character, and reads it back. -/
def Charset.Has : Charset → Nat → Prop
  | .latin1, c => c ≤ 0xff
  | .ascii, c => c ≤ 0x7f
  | .utf8, c => Accepted c

/-- The characters one after the other. -/
def Charset.encodeAll (charset : Charset) (cs : List Nat) : List Byte := cs.flatMap fun c => unicodeToCharset c charset

theorem Charset.encodeAll_cons (charset : Charset) (c : Nat) (cs : List Nat) :
    charset.encodeAll (c :: cs) = unicodeToCharset c charset ++ charset.encodeAll cs := rfl

theorem Charset.encodeAll_snoc (charset : Charset) (cs : List Nat) (c : Nat) :
    charset.encodeAll (cs ++ [c]) = charset.encodeAll cs ++ unicodeToCharset c charset := by
  rw [encodeAll, List.flatMap_append, List.flatMap_singleton]
  rfl

theorem Charset.encodeAll_utf8 (cs : List Nat) : Charset.encodeAll .utf8 cs = cs.flatMap utf8Encode := rfl

theorem accepted_of_le {c : Nat} (h : c ≤ 0xff) : Accepted c := by
  refine ⟨?_, ?_, ?_, ?_⟩ <;> omega

/-- A charset of single bytes writes the character. -/
theorem unicodeToCharset_single {charset : Charset} (hu : charset ≠ .utf8) {c : Nat} (h : charset.Has c) :
    unicodeToCharset c charset = [c] := by
  cases charset with
  | latin1 => exact congrArg (Option.getD · [0x3f]) (if_pos h)
  | ascii => exact congrArg (Option.getD · [0x3f]) (if_pos h)
  | utf8 => exact absurd rfl hu

/-- In 8859-1 the characters are the bytes. -/
theorem Charset.encodeAll_latin1 {cs : List Nat} (h : ∀ c ∈ cs, c ≤ 0xff) : Charset.encodeAll .latin1 cs = cs := by
  induction cs with
  | nil => rfl
  | cons c cs ih =>
    rw [encodeAll_cons, unicodeToCharset_single (by decide) (show Charset.Has .latin1 c from h c List.mem_cons_self),
      ih (fun x hx => h x (List.mem_cons_of_mem c hx))]
    rfl

/-- `unicode_to_charset` writes at least a byte. -/
theorem unicodeToCharset_pos {charset : Charset} {c : Nat} (h : charset.Has c) : 0 < (unicodeToCharset c charset).length := by
  by_cases hu : charset = .utf8
  · rw [hu] at h ⊢
    obtain ⟨a, q, hq, -⟩ := utf8Encode_cons h
    rw [show unicodeToCharset c .utf8 = utf8Encode c from rfl, hq, List.length_cons]
    exact Nat.succ_pos _
  · rw [unicodeToCharset_single hu h]
    exact Nat.one_pos

/-- A byte of a charset of single bytes is its character. -/
theorem nextc_single {r : Reader} (hu : r.charset ≠ .utf8) {front back : List Byte} {c : Nat} (ht : r.text = front ++ [c] ++ back) :
    r.nextc front.length = (c, ((front.length + 1 : Nat) : Int)) := by
  have ho : front.length < r.text.length := by
    rw [ht, List.length_append, List.length_append, List.length_singleton]
    omega
  have hget : r.text.getD front.length 0 = c := by
    rw [ht, List.append_assoc, List.getD_append_right _ _ _ _ (Nat.le_refl _), Nat.sub_self]
    rfl
  rw [Reader.nextc_byte hu ho, hget, Nat.cast_add, Nat.cast_one]

/-- `eb_nextc` reads back what `unicode_to_charset` wrote. -/
theorem nextc_unicodeToCharset {r : Reader} {front back : List Byte} {c : Nat} (hc : r.charset.Has c)
    (ht : r.text = front ++ unicodeToCharset c r.charset ++ back) :
    r.nextc front.length = (c, ((front.length + (unicodeToCharset c r.charset).length : Nat) : Int)) := by
  by_cases hu : r.charset = .utf8
  · rw [hu] at hc ht ⊢
    exact Reader.nextc_encoded hu ht hc
  · rw [unicodeToCharset_single hu hc] at ht ⊢
    exact nextc_single hu ht

/-! ## Walking over the characters -/

/-- A character of the text, read from its pages. -/
theorem ebNextc_encoded {t : Pages} (ht : t.Ok) {charset : Charset} {front back : List Nat} {c : Nat} (hc : charset.Has c)
    (hb : t.bytes = charset.encodeAll (front ++ c :: back)) (stack : List Byte) :
    ∃ t', ebNextc t charset stack (charset.encodeAll front).length = (t', c, ((charset.encodeAll (front ++ [c])).length : Int)) ∧
      t'.Ok ∧ t'.bytes = t.bytes ∧ t'.totalSize = t.totalSize := by
  obtain ⟨e1, e2, e3⟩ := ebNextc_eq ht (r := ⟨t.bytes, charset, stack⟩) rfl (Int.natCast_nonneg (charset.encodeAll front).length)
  have hsplit : t.bytes = charset.encodeAll front ++ unicodeToCharset c charset ++ charset.encodeAll back := by
    rw [hb, Charset.encodeAll, List.flatMap_append, List.flatMap_cons, List.append_assoc]
    rfl
  have hread := nextc_unicodeToCharset (r := ⟨t.bytes, charset, stack⟩) hc hsplit
  refine ⟨(ebNextc t charset stack (charset.encodeAll front).length).1, Prod.ext rfl ?_, e2, e3.bytes, e3.total⟩
  rw [e1, hread, Charset.encodeAll_snoc, List.length_append]

/-- The end of the text, seen from behind the characters `front`. -/
theorem end_iff {t : Pages} (ht : t.Ok) {charset : Charset} {front back : List Nat} (hback : ∀ c ∈ back, charset.Has c)
    (hb : t.bytes = charset.encodeAll (front ++ back)) :
    (t.totalSize : Int) ≤ ((charset.encodeAll front).length : Int) ↔ back = [] := by
  have hlen := ht.length_bytes
  rw [hb, Charset.encodeAll, List.flatMap_append, List.length_append] at hlen
  change (charset.encodeAll front).length + (charset.encodeAll back).length = t.totalSize at hlen
  cases back with
  | nil =>
    rw [show charset.encodeAll [] = [] from rfl, List.length_nil] at hlen
    simp only [iff_true]
    omega
  | cons c back =>
    have hpos := unicodeToCharset_pos (hback c List.mem_cons_self)
    rw [Charset.encodeAll_cons, List.length_append] at hlen
    simp only [List.cons_ne_nil, iff_false]
    omega

/-- `eb_nextc` reads the characters that the text encodes. -/
theorem readChars_encoded {charset : Charset} (junk : Nat → List Byte) {n : Nat} {t : Pages} (ht : t.Ok) {front back : List Nat}
    (hback : ∀ c ∈ back, charset.Has c) (hb : t.bytes = charset.encodeAll (front ++ back)) (hn : back.length < n) :
    readChars charset junk n t (charset.encodeAll front).length = some back := by
  induction n generalizing t front back with
  | zero => omega
  | succ n ih =>
    have hend := end_iff ht hback hb
    cases back with
    | nil => rw [readChars, if_pos (hend.mpr rfl)]
    | cons c back =>
      obtain ⟨t', e1, e2, e3, -⟩ := ebNextc_encoded ht (hback c List.mem_cons_self) hb (junk n)
      rw [readChars, if_neg (fun h => List.cons_ne_nil c back (hend.mp h)), e1]
      simp only
      have hb' : t'.bytes = charset.encodeAll (front ++ [c] ++ back) := by rw [e3, hb, List.append_assoc, List.singleton_append]
      rw [ih e2 (fun x hx => hback x (List.mem_cons_of_mem c hx)) hb' (Nat.lt_of_succ_lt_succ hn)]
      rfl

/-- The loop appends to `b1` what encodes the characters in the other charset, and keeps the text it reads. -/
theorem convertLoop_encoded {charset dest : Charset} (junk : Nat → List Byte) {n : Nat} {t : Pages} (ht : t.Ok)
    {front back : List Nat} (hback : ∀ c ∈ back, charset.Has c) (hb : t.bytes = charset.encodeAll (front ++ back))
    {b1 : EditBuffer} {d : Doc} (h1 : Stands b1 d) (hn : back.length < n) :
    ∃ t' b1' d', convertLoop charset dest junk n t (charset.encodeAll front).length b1 = some (t', b1') ∧ t'.Ok ∧
      t'.bytes = t.bytes ∧ t'.totalSize = t.totalSize ∧ Stands b1' d' ∧ d'.text = d.text ++ dest.encodeAll back := by
  induction n generalizing t front back b1 d with
  | zero => omega
  | succ n ih =>
    have hend := end_iff ht hback hb
    cases back with
    | nil =>
      refine ⟨t, b1, d, by rw [convertLoop, if_pos (hend.mpr rfl)], ht, rfl, rfl, h1, ?_⟩
      rw [show dest.encodeAll [] = [] from rfl, List.append_nil]
    | cons c back =>
      obtain ⟨t', e1, e2, e3, e4⟩ := ebNextc_encoded ht (hback c List.mem_cons_self) hb (junk n)
      have hend' : overwriteAt d.text d.text.length (unicodeToCharset c dest) = d.text ++ unicodeToCharset c dest := by
        have happ := overwriteAt_append d.text [] (unicodeToCharset c dest)
        rwa [List.append_nil, List.drop_nil, List.append_nil] at happ
      have hle : b1.totalSize ≤ d.text.length := Nat.le_of_eq h1.total
      have hwrite := ebWrite_stands h1 (unicodeToCharset c dest) hle
      have hb' : t'.bytes = charset.encodeAll (front ++ [c] ++ back) := by rw [e3, hb, List.append_assoc, List.singleton_append]
      obtain ⟨t'', b1', d', f1, f2, f3, f4, f5, f6⟩ := ih e2 (fun x hx => hback x (List.mem_cons_of_mem c hx)) hb' hwrite
        (Nat.lt_of_succ_lt_succ hn)
      refine ⟨t'', b1', d', ?_, f2, f3.trans e3, f4.trans e4, f5, ?_⟩
      · rw [convertLoop, if_neg (fun h => List.cons_ne_nil c back (hend.mp h)), e1]
        exact f1
      · rw [f6, h1.total, Doc.write_text d _ (Nat.le_refl _), hend', Charset.encodeAll_cons, List.append_assoc]

/-! ## The whole buffer -/

/-- The buffer is well formed and encodes the characters in its charset. -/
structure CodedBuffer.Encodes (s : CodedBuffer) (cs : List Nat) : Prop where
  wf : s.b.WellFormed
  bytes : s.b.bytes = s.charset.encodeAll cs

/-- There are at most as many characters as bytes. -/
theorem Charset.length_le_encodeAll {charset : Charset} {cs : List Nat} (h : ∀ c ∈ cs, charset.Has c) :
    cs.length ≤ (charset.encodeAll cs).length := by
  induction cs with
  | nil => exact Nat.le_refl 0
  | cons c cs ih =>
    have hpos := unicodeToCharset_pos (h c List.mem_cons_self)
    have hrest := ih (fun x hx => h x (List.mem_cons_of_mem c hx))
    rw [encodeAll_cons, List.length_append, List.length_cons]
    omega

/-- There are turns enough to read every character. -/
theorem CodedBuffer.Encodes.turns {s : CodedBuffer} {cs : List Nat} (h : s.Encodes cs) (hcs : ∀ c ∈ cs, s.charset.Has c) :
    cs.length < s.b.totalSize + 1 := by
  obtain ⟨d, hd⟩ := h.wf
  have hle := Charset.length_le_encodeAll hcs
  rw [← h.bytes, hd.ok.length_bytes] at hle
  exact Nat.lt_succ_of_le hle

/-- `eb_nextc` decodes the characters that the buffer encodes. -/
theorem CodedBuffer.Encodes.characters {s : CodedBuffer} {cs : List Nat} (h : s.Encodes cs) (hcs : ∀ c ∈ cs, s.charset.Has c)
    (junk : Nat → List Byte) : s.characters junk = some cs := by
  obtain ⟨d, hd⟩ := h.wf
  have hb : s.b.bytes = s.charset.encodeAll ([] ++ cs) := h.bytes
  exact readChars_encoded junk hd.ok hcs hb (h.turns hcs)

/-- A conversion to a charset that has the characters keeps them. -/
theorem CodedBuffer.Encodes.convert {s : CodedBuffer} {cs : List Nat} (h : s.Encodes cs) (hcs : ∀ c ∈ cs, s.charset.Has c)
    {str : List Byte} {dest : Charset} (hstr : findCharset str = some dest) (junk : Nat → List Byte) :
    ∃ s', doConvertBufferFileCodingSystem junk s str = some s' ∧ s'.charset = dest ∧ s'.Encodes cs := by
  obtain ⟨d, hd⟩ := h.wf
  obtain ⟨t', b1', d1, e1, e2, e3, e4, e5, e6⟩ := @convertLoop_encoded s.charset dest junk _ _ hd.ok [] cs hcs h.bytes _ _
    (new_stands false) (h.turns hcs)
  have hread : Stands { s.b with toPages := t' } d :=
    hd.toHeld.standsText e2 (e3.trans hd.text)
  have htotal : t'.totalSize = d.text.length := e4.trans hd.total
  have hdel := ebDelete_stands hread 0 t'.totalSize (fun _ => by rw [htotal, Nat.zero_add])
  have hempty : (d.delete 0 t'.totalSize).text = [] := by
    rw [Doc.delete_text, htotal, removeAt, List.take_zero, Nat.zero_add, List.drop_length, List.append_nil]
  have hins := (ebInsertBuffer_stands hdel e5.ok 0 0 b1'.totalSize (Nat.zero_le _) (by rw [Nat.zero_add])).1
  have hall : slice b1'.bytes 0 b1'.totalSize = dest.encodeAll cs := by
    rw [e5.text, e5.total, slice, List.drop_zero, List.take_length, e6]
    rfl
  refine ⟨⟨_, dest⟩, ?_, rfl, ⟨_, hins⟩, ?_⟩
  · rw [doConvertBufferFileCodingSystem, hstr]
    simp only
    rw [show (0 : Int) = ((s.charset.encodeAll []).length : Int) from rfl, e1]
    rfl
  · rw [hins.text, Doc.insertBlock_text, hempty, hall]
    exact List.append_nil _

/-!
## The codec of UTF-8

`utf8_decode` takes back what `utf8_encode` wrote, whatever follows it, and accepts nothing else.
-/

/-- Every code up to 0x7fffffff but a surrogate, 0xfffe and 0xffff is encoded and decoded back. Bytes with a byte behind them
that does not go on with a character lose at least one byte and none behind them, and they decode to a character only when what
they lose is its encoding. The lengths and the masks are those in the tables that `charset_init` builds. -/
theorem utf8_codec :
    (∀ c, Accepted c → ∀ t, utf8Decode (utf8Encode c ++ t) = (c, (utf8Encode c).length)) ∧
      (∀ p, p ≠ [] → ∀ d, isTail d = false → ∀ t v n, utf8Decode (p ++ d :: t) = (v, n) →
        0 < n ∧ n ≤ p.length ∧ (v ≠ invalidChar → p.take n = utf8Encode v ∧ Accepted v)) ∧
      (∀ c < 256, charsetInit.utf8Length.getD c 0 = utf8Length c) ∧
      ∀ l < 7, 2 ≤ l → firstCodeMask.getD l 0 + 1 = firstCodeRange l := by
  refine ⟨fun c hc t => utf8Decode_encode hc t, ?_, charsetInit_utf8Length⟩
  intro p hp d hd t v n h
  obtain ⟨a, q, rfl⟩ := List.exists_cons_of_ne_nil hp
  obtain ⟨rfl, rfl⟩ := Prod.mk.inj h
  have htaken := utf8Decode_taken (a :: q ++ d :: t)
  have hrun := tailRun_append_le q hd t
  rw [List.cons_append, List.tail_cons] at htaken
  have hle : (utf8Decode (a :: q ++ d :: t)).2 ≤ (a :: q).length := by
    rw [List.cons_append, htaken, List.length_cons]
    omega
  refine ⟨utf8Decode_taken_pos _, hle, fun hv => ?_⟩
  have hvalid := utf8Decode_valid (by simp) hv
  rwa [List.take_append_of_le_length hle] at hvalid

/-- The euro sign, an overlong form of the newline, and a character that another one cuts off. -/
example : utf8Decode [0xe2, 0x82, 0xac, 0x41] = (0x20ac, 3) ∧ utf8Decode [0xc0, 0x8a, 0x41] = (invalidChar, 2) ∧
    utf8Decode [0xe2, 0x82, 0x41] = (invalidChar, 2) := by decide

/-!
## Room for an encoded character

The callers of `unicode_to_charset` give it an array of `MAX_CHAR_BYTES`, and it stores a NUL behind the bytes of the character. The
longest characters of UTF-8, which `eb_nextc` reads, have as many bytes as the array.
-/

/-- What `unicode_to_charset` stores in the array of its caller. -/
def storedBytes (c : Nat) (charset : Charset) : List Byte := unicodeToCharset c charset ++ [0]

/-- The array has room for the character that `eb_nextc` reads, as it is and in the other case. -/
def EncodingFits (t : Pages) (source : Charset) (stack : List Byte) (offset : Int) (target : Charset) : Prop :=
  (storedBytes (ebNextc t source stack offset).2.1 target).length ≤ maxCharBytes ∧
    ∀ up, (storedBytes (Editor.changedCase up (ebNextc t source stack offset).2.1) target).length ≤ maxCharBytes

theorem length_utf8Encode_le {c : Nat} : (utf8Encode c).length ≤ 5 ↔ c < 0x04000000 := by
  unfold utf8Encode
  simp only
  split_ifs <;> simp only [List.length_cons, List.length_nil] <;> omega

/-- In the other charsets a character is a byte, or a question mark. -/
theorem unicodeToCharset_one_byte {charset : Charset} (hu : charset ≠ .utf8) (c : Nat) : (unicodeToCharset c charset).length = 1 := by
  have hbyte (p : Prop) [Decidable p] : ((if p then some [c] else none).getD [0x3f]).length = 1 := by split <;> rfl
  cases charset with
  | latin1 => exact hbyte _
  | ascii => exact hbyte _
  | utf8 => exact absurd rfl hu

theorem storedBytes_fits {c : Nat} {charset : Charset} :
    (storedBytes c charset).length ≤ maxCharBytes ↔ charset ≠ .utf8 ∨ c < 0x04000000 := by
  have hlen : (storedBytes c charset).length ≤ maxCharBytes ↔ (unicodeToCharset c charset).length ≤ 5 := by
    rw [storedBytes, List.length_append, List.length_singleton]
    exact Nat.succ_le_succ_iff
  rw [hlen]
  by_cases hu : charset = .utf8
  · have hencode : unicodeToCharset c charset = utf8Encode c := by rw [hu]; rfl
    rw [hencode, length_utf8Encode_le]
    simp [hu]
  · rw [unicodeToCharset_one_byte hu]
    exact iff_of_true (by decide) (Or.inl hu)

/-- The other case of a character is no longer. -/
theorem changedCase_lt {c n : Nat} (hn : 0x80 ≤ n) (up : Bool) : Editor.changedCase up c < n ↔ c < n := by
  by_cases hc : c < 0x80
  · exact iff_of_true ((Editor.changedCase_low hc).trans_le hn) (hc.trans_le hn)
  · rw [Editor.changedCase_high (Nat.le_of_not_lt hc)]

/-- The array has room exactly for the characters of up to five bytes in UTF-8, and for all of them in another charset. -/
theorem encodingFits_iff (t : Pages) (source : Charset) (stack : List Byte) (offset : Int) (target : Charset) :
    EncodingFits t source stack offset target ↔ target ≠ .utf8 ∨ (ebNextc t source stack offset).2.1 < 0x04000000 := by
  unfold EncodingFits
  simp only [storedBytes_fits, changedCase_lt (show 0x80 ≤ 0x04000000 by decide)]
  simp

/-- The first character of six bytes is stored with a seventh. -/
theorem not_encodingFits : ¬∀ (b : EditBuffer) (source : Charset) (stack : List Byte) (offset : Int) (target : Charset),
    b.WellFormed → EncodingFits b.toPages source stack offset target := by
  intro h
  have hfits := h (ebInsert (EditBuffer.new true) 0 [0xfc, 0x84, 0x80, 0x80, 0x80, 0x80]) .utf8 [] 0 .utf8
    ⟨_, ebInsert_stands (new_stands true) (Nat.zero_le _) _⟩
  exact absurd hfits.1 (by decide)

/-!
## Converting a charset loses nothing

A conversion there and back restores the bytes: of any text in 8859-1 by way of UTF-8, and of a text in UTF-8 by way of 8859-1
when it has no character above 0xff.
-/

/-- The buffer is converted to a charset and back: its bytes and its charset are restored, and in between it decodes to the same
characters. `junk` is what lies on the stack. -/
def CodedBuffer.LossFree (s : CodedBuffer) (there back : List Byte) : Prop :=
  ∀ junk junk', ∃ s₁ s₂, doConvertBufferFileCodingSystem junk s there = some s₁ ∧
    doConvertBufferFileCodingSystem junk' s₁ back = some s₂ ∧ s₂.b.bytes = s.b.bytes ∧ s₂.charset = s.charset ∧
      ∃ cs, ∀ junk, s.characters junk = some cs ∧ s₁.characters junk = some cs

theorem CodedBuffer.Encodes.lossFree {s : CodedBuffer} {cs : List Nat} (h : s.Encodes cs) (hcs : ∀ c ∈ cs, s.charset.Has c)
    {there back : List Byte} {dest : Charset} (hthere : findCharset there = some dest) (hdest : ∀ c ∈ cs, dest.Has c)
    (hback : findCharset back = some s.charset) : s.LossFree there back := by
  intro junk junk'
  obtain ⟨s₁, e1, e2, e3⟩ := h.convert hcs hthere junk
  have hcs₁ : ∀ c ∈ cs, s₁.charset.Has c := by
    rw [e2]
    exact hdest
  obtain ⟨s₂, f1, f2, f3⟩ := e3.convert hcs₁ hback junk'
  refine ⟨s₁, s₂, e1, f1, ?_, f2, cs, fun junk => ⟨h.characters hcs junk, e3.characters hcs₁ junk⟩⟩
  rw [f3.bytes, f2, h.bytes]

/-- Any text in 8859-1 survives a conversion to UTF-8 and back, and a text in UTF-8 whose characters are at most 0xff one to
8859-1 and back, and in between the buffer decodes to the same characters. -/
theorem convert_loss_free {s : CodedBuffer} (hwf : s.b.WellFormed) {utf8 latin1 : List Byte}
    (hutf8 : findCharset utf8 = some .utf8) (hlatin1 : findCharset latin1 = some .latin1) :
    (s.charset = .latin1 → (∀ c ∈ s.b.bytes, c < 256) → s.LossFree utf8 latin1) ∧
      (s.charset = .utf8 → ∀ cs : List Nat, (∀ c ∈ cs, c ≤ 0xff) → s.b.bytes = cs.flatMap utf8Encode →
        s.LossFree latin1 utf8) := by
  constructor
  · intro hc hbytes
    have hle : ∀ c ∈ s.b.bytes, c ≤ 0xff := fun c h => Nat.le_of_lt_succ (hbytes c h)
    have henc : s.Encodes s.b.bytes := ⟨hwf, by rw [hc, Charset.encodeAll_latin1 hle]⟩
    refine henc.lossFree ?_ hutf8 (fun c h => accepted_of_le (hle c h)) (by rw [hc, hlatin1])
    rw [hc]
    exact hle
  · intro hc cs hle hbytes
    have henc : s.Encodes cs := ⟨hwf, by rw [hc, hbytes, Charset.encodeAll_utf8]⟩
    refine henc.lossFree ?_ hlatin1 hle (by rw [hc, hutf8])
    rw [hc]
    exact fun c h => accepted_of_le (hle c h)

/-- A buffer with the text "é" in 8859-1 and one with it in UTF-8. -/
def acuteLatin1 : CodedBuffer := ⟨ebInsert (EditBuffer.new true) 0 [0xe9], .latin1⟩

def acuteUtf8 : CodedBuffer := ⟨ebInsert (EditBuffer.new true) 0 [0xc3, 0xa9], .utf8⟩

theorem convert_loss_free_acute : acuteLatin1.LossFree (cstr "utf-8") (cstr "latin1") ∧
    acuteUtf8.LossFree (cstr "8859-1") (cstr "UTF8") := by
  have h1 : acuteLatin1.b.WellFormed := ⟨_, ebInsert_stands (new_stands true) (Nat.zero_le _) _⟩
  have h2 : acuteUtf8.b.WellFormed := ⟨_, ebInsert_stands (new_stands true) (Nat.zero_le _) _⟩
  exact ⟨(convert_loss_free h1 (by decide) (by decide)).1 rfl (by decide),
    (convert_loss_free h2 (by decide) (by decide)).2 rfl [0xe9] (by decide) (by decide)⟩

end Hoe
