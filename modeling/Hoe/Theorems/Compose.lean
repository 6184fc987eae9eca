import Hoe.Lemmas.WriteChar
import Hoe.Lemmas.Lines

/-!
# Composing a character

What is pending for the input method stands in the text in front of the point: an x and at most three hexadecimal digits. The fourth
digit takes all of them out of the text again, any other key ends the composition and leaves them there, and a backspace takes the
last one from the text and from the count alike.
-/

namespace Hoe

open Splice Framing Digits

/-! ## Characters whatever they stand for -/

/-- A text of bytes of 7 bits is as many characters. -/
theorem whole_ascii (charset : Charset) {l : List Nat} (hl : ∀ c ∈ l, c < 0x80) :
    Whole charset.lead charset.width l ∧ l.countP charset.lead = l.length := by
  have hlead (c : Nat) (hc : c < 0x80) : charset.lead c = true ∧ charset.width c = 1 := by
    refine ⟨?_, ?_⟩
    · have htail : isTail c = false := by simp [isTail, hc]
      simp [Charset.lead, htail]
    · unfold Charset.width
      split
      · exact utf8Length_one.mpr (Or.inl (by omega))
      · rfl
  refine ⟨?_, List.countP_eq_length.mpr fun c hc => (hlead c (hl c hc)).1⟩
  induction l with
  | nil => exact .nil
  | cons c l ih =>
    obtain ⟨h1, h2⟩ := hlead c (hl c List.mem_cons_self)
    refine Whole.cons (q := []) h1 ?_ (by simp) (ih fun d hd => hl d (List.mem_cons_of_mem c hd))
    rw [h2]
    rfl

/-- What `unicode_to_charset` writes is one character, or a question mark. -/
theorem whole_unicodeToCharset (charset : Charset) {key : Nat} (hkey : key < 0x80000000) :
    Whole charset.lead charset.width (unicodeToCharset key charset) := by
  by_cases hu : charset = .utf8
  · obtain ⟨a, q, hq, hlen, ha, ht, -⟩ := utf8Encode_frame hkey
    have hbytes : unicodeToCharset key charset = a :: q := by
      rw [hu]
      exact hq
    rw [hbytes, ← List.append_nil (a :: q), hu]
    refine Whole.cons ?_ ?_ (fun x hx => ?_) .nil
    · rw [Charset.lead_utf8, ha]
      rfl
    · rw [Charset.width, if_pos rfl, hlen, Nat.add_sub_cancel]
    · rw [Charset.lead_utf8, ht x hx]
      rfl
  · exact whole_bytes hu _

theorem unicodeToCharset_ascii (charset : Charset) {key : Nat} (hkey : key < 0x80) : unicodeToCharset key charset = [key] :=
  (unicodeToCharset_known (known_ascii charset hkey)).trans (charSpelling_ascii charset hkey)

/-- `eb_prevc` goes back over a character that is all there, whatever it stands for. -/
theorem Reader.prevc_frame {r : Reader} {front back q : List Byte} {c : Nat} (ht : r.text = front ++ c :: q ++ back)
    (hc : r.charset.lead c = true) (hq : q.length = r.charset.width c - 1) (hqt : ∀ x ∈ q, r.charset.lead x = false) :
    (r.prevc ((front ++ c :: q).length : Nat)).2 = front.length := by
  have hlen : (front ++ c :: q).length = front.length + q.length + 1 := by
    rw [List.length_append, List.length_cons]
    rfl
  have hpos : 0 < (front ++ c :: q).length := by omega
  by_cases hu : r.charset = .utf8
  · rw [hu] at hc hq hqt
    rw [Charset.width, if_pos rfl] at hq
    have hmax := utf8Length_le c
    have hget (i : Nat) : r.text.getD (front.length + i) 0 = (c :: q ++ back).getD i 0 := by
      rw [ht, List.append_assoc, List.getD_append_right _ _ _ _ (by omega), Nat.add_sub_cancel_left]
    have hfirst : firstByte r.text (maxCharBytes - 1) ((front ++ c :: q).length - 1) = some front.length := by
      refine firstByte_eq (by omega) ?_ ?_ (fun i h1 h2 => ?_)
      · unfold maxCharBytes at hmax ⊢
        omega
      · have hhead := hget 0
        rw [Nat.add_zero] at hhead
        rw [hhead]
        simpa [Charset.lead_utf8] using hc
      · obtain ⟨j, rfl⟩ : ∃ j, i = front.length + (j + 1) := ⟨i - front.length - 1, by omega⟩
        have hj : j < q.length := by omega
        rw [hget, List.cons_append, List.getD_cons_succ, List.getD_append _ _ _ _ hj, getD_of_lt _ hj]
        exact (Charset.lead_eq_false.mp (hqt _ (List.getElem_mem hj))).2
    rw [prevc_some hu hpos hfirst]
  · rw [Charset.width, if_neg hu, Nat.sub_self] at hq
    rw [prevc_byte hu hpos, hlen, hq]
    simp

/-! ## What the input method says -/

/-- The keys for which `unicode_input` expects more. -/
def Pending (keys : List Nat) : Prop := ∃ ds, keys = 0x78 :: ds ∧ ds.length ≤ 3 ∧ ∀ d ∈ ds, (toHex d).isSome

theorem toHex_ascii {d : Nat} (hd : (toHex d).isSome) : d < 0x80 := by
  unfold toHex at hd
  split at hd
  · omega
  · split at hd
    · omega
    · split at hd
      · omega
      · cases hd

theorem Pending.ascii {keys : List Nat} (h : Pending keys) : ∀ c ∈ keys, c < 0x80 := by
  obtain ⟨ds, rfl, -, hds⟩ := h
  refine List.forall_mem_cons.mpr ⟨by decide, fun d hd => toHex_ascii (hds d hd)⟩

theorem Pending.length_le {keys : List Nat} (h : Pending keys) : keys.length ≤ 4 := by
  obtain ⟨ds, rfl, hlen, -⟩ := h
  exact Nat.succ_le_succ hlen

/-- One key less is pending as long as the x is. -/
theorem Pending.dropLast {keys : List Nat} (h : Pending keys) (hne : keys.dropLast ≠ []) : Pending keys.dropLast := by
  obtain ⟨ds, rfl, hlen, hds⟩ := h
  cases ds with
  | nil => exact absurd rfl hne
  | cons d ds =>
    refine ⟨(d :: ds).dropLast, List.dropLast_cons_of_ne_nil (List.cons_ne_nil _ _), ?_, fun x hx => hds x (List.dropLast_subset _ hx)⟩
    rw [List.length_dropLast]
    omega

/-- There is a code where all the keys are digits. -/
theorem hexCode_isSome (keys : List Nat) (c : Nat) : (hexCode keys c).isSome ↔ ∀ d ∈ keys, (toHex d).isSome := by
  induction keys generalizing c with
  | nil => simp [hexCode]
  | cons key keys ih =>
    rw [hexCode, List.forall_mem_cons]
    cases toHex key with
    | none => simp
    | some h => simp [ih]

/-- The code is the number of the digits. -/
theorem hexCode_value {keys hs : List Nat} (h : keys.map toHex = hs.map some) (c : Nat) : hexCode keys c = some (value 16 c hs) := by
  induction keys generalizing hs c with
  | nil =>
    obtain rfl : hs = [] := by simpa using h.symm
    rfl
  | cons key keys ih =>
    cases hs with
    | nil => cases h
    | cons d hs =>
      rw [List.map_cons, List.map_cons, List.cons.injEq] at h
      rw [hexCode, h.1, value]
      exact ih h.2 _

theorem toHex_lt {d h : Nat} (hd : toHex d = some h) : h < 16 := by
  unfold toHex at hd
  split at hd
  · cases hd
    omega
  · split at hd
    · cases hd
      omega
    · split at hd
      · cases hd
        omega
      · cases hd

theorem hexCode_lt {keys : List Nat} {c v : Nat} (h : hexCode keys c = some v) : v < (c + 1) * 16 ^ keys.length := by
  induction keys generalizing c with
  | nil =>
    cases h
    simp
  | cons key keys ih =>
    rw [hexCode] at h
    cases hd : toHex key with
    | none =>
      rw [hd] at h
      cases h
    | some d =>
      rw [hd] at h
      have hlt := toHex_lt hd
      calc v < (c * 16 + d + 1) * 16 ^ keys.length := ih h
        _ ≤ ((c + 1) * 16) * 16 ^ keys.length := Nat.mul_le_mul_right _ (by omega)
        _ = (c + 1) * 16 ^ (keys.length + 1) := by rw [pow_succ']; ring

/-- Behind an x at most four keys are looked at. -/
theorem unicodeMatch_none {ds : List Nat} (hlen : ds.length ≤ 4) (h : hexCode ds 0 = none) : unicodeMatch (0x78 :: ds) = .noMatch := by
  unfold unicodeMatch
  rw [if_neg (by simp), List.take_succ_cons, List.drop_one, List.tail_cons, List.take_of_length_le hlen, h]

theorem unicodeMatch_some {ds : List Nat} (hlen : ds.length ≤ 4) {c : Nat} (h : hexCode ds 0 = some c) :
    unicodeMatch (0x78 :: ds) = if ds.length = 4 then .found c 5 else .moreChars := by
  unfold unicodeMatch
  rw [if_neg (by simp), List.take_succ_cons, List.drop_one, List.tail_cons, List.take_of_length_le hlen, h]
  have hiff : 5 ≤ (0x78 :: ds).length ↔ ds.length = 4 := by
    rw [List.length_cons]
    omega
  simp only [hiff]

/-- One more key ends the composition, goes on with it or completes a character. -/
theorem unicodeMatch_snoc {keys : List Nat} (h : keys = [] ∨ Pending keys) (key : Nat) :
    unicodeMatch (keys ++ [key]) = .noMatch ∨ (unicodeMatch (keys ++ [key]) = .moreChars ∧ Pending (keys ++ [key])) ∨
      ∃ c < 0x10000, unicodeMatch (keys ++ [key]) = .found c 5 ∧ (keys ++ [key]).length = 5 ∧ ∀ d ∈ keys ++ [key], d < 0x80 := by
  rcases h with rfl | ⟨ds, rfl, hlen, hds⟩
  · rw [List.nil_append]
    by_cases hx : key = 0x78
    · subst hx
      exact Or.inr (Or.inl ⟨rfl, [], rfl, Nat.zero_le 3, by simp⟩)
    · exact Or.inl (if_pos hx)
  · rw [List.cons_append]
    have hlen' : (ds ++ [key]).length = ds.length + 1 := List.length_append
    cases hc : hexCode (ds ++ [key]) 0 with
    | none => exact Or.inl (unicodeMatch_none (by omega) hc)
    | some c =>
      have hdigits := (hexCode_isSome (ds ++ [key]) 0).mp (by rw [hc]; rfl)
      have hmatch := unicodeMatch_some (by omega) hc
      right
      by_cases hfour : ds.length = 3
      · right
        rw [if_pos (by omega)] at hmatch
        have hlt := hexCode_lt hc
        rw [hlen', hfour] at hlt
        refine ⟨c, by omega, hmatch, by rw [List.length_cons, hlen', hfour], ?_⟩
        exact List.forall_mem_cons.mpr ⟨by decide, fun d hd => toHex_ascii (hdigits d hd)⟩
      · left
        rw [if_neg (by omega)] at hmatch
        exact ⟨hmatch, ds ++ [key], rfl, by omega, hdigits⟩

namespace Editor

/-! ## What a key does -/

variable {s s' : Editor} {front back : List Byte} {key : Nat}

/-- The input methods are the two of input.c, and what is pending stands in the text between two parts of it, with the point
behind. -/
structure Composes (s : Editor) (front back : List Byte) : Prop where
  wf : s.buffer.WellFormed
  insert : s.insert = true
  method : s.inputMethod = some defaultInput ∨ s.inputMethod = some unicodeInput
  text : s.buffer.bytes = front ++ s.composeBuf ++ back
  whole : Whole s.charset.lead s.charset.width front
  offset : s.offset = (front.length + s.composeBuf.length : Nat)
  pending : s.composeBuf ≠ [] → s.composeStartOffset = front.length ∧ Pending s.composeBuf

/-- The key is in the text, and among the pending keys, when the input method is asked. -/
theorem textWriteChar_inserts (h : Composes s front back) (key : Nat) :
    ∃ ed, s.textWriteChar key = composeLoop (s.composeBuf.length + 1) ed ∧
      Rewritten { s with composeBuf := s.composeBuf ++ [key], composeStartOffset := front.length }
        (front.length + s.composeBuf.length + (unicodeToCharset key s.charset).length)
        (front ++ s.composeBuf ++ unicodeToCharset key s.charset ++ back) ed := by
  have hlen : (front ++ s.composeBuf).length = front.length + s.composeBuf.length := List.length_append
  obtain ⟨ed, hed, hrew⟩ := insert_rewritten h.wf h.text (unicodeToCharset key s.charset)
  have hoffset : s.offset = (front ++ s.composeBuf).length := by rw [h.offset, hlen]
  rw [← hoffset] at hed
  have hstart : (if s.composeBuf = [] then s.offset else s.composeStartOffset) = front.length := by
    split
    · rename_i hnil
      rw [h.offset, hnil]
      rfl
    · rename_i hne
      exact (h.pending hne).1
  have hroom : ¬composeSize ≤ s.composeBuf.length := by
    by_cases hnil : s.composeBuf = []
    · rw [hnil]
      decide
    · have hle := (h.pending hnil).2.length_le
      unfold composeSize
      omega
  have hstay : ed.offset = front.length + s.composeBuf.length := by
    rw [hrew.offset, hoffset, hlen]
    exact (if_neg (lt_irrefl _)).trans (Nat.cast_add ..)
  refine ⟨{ ed with
    offset := ed.offset + (unicodeToCharset key s.charset).length, composeBuf := s.composeBuf ++ [key]
    composeStartOffset := front.length }, ?_, hrew.wf, hrew.text, ?_⟩
  · unfold textWriteChar
    rw [if_pos (Or.inl h.insert), hed]
    simp only [Option.bind_eq_bind, Option.bind_some, if_neg hroom, hstart, List.length_append, List.length_singleton]
  · obtain ⟨top, hrest⟩ := hrew.rest
    refine ⟨top, ?_⟩
    rw [hstay, hrest]

/-- What the input method of the window answers. -/
def matchOf (s : Editor) (keys : List Nat) : MatchResult := s.inputMethod.elim .noMatch (·.inputMatch keys)

theorem composeLoop_noMatch (h : s.matchOf s.composeBuf = .noMatch) (n : Nat) : composeLoop (n + 1) s = some { s with composeBuf := [] } := by
  unfold matchOf at h
  rw [composeLoop, h]

theorem composeLoop_moreChars (h : s.matchOf s.composeBuf = .moreChars) (n : Nat) : composeLoop (n + 1) s = some s := by
  unfold matchOf at h
  rw [composeLoop, h]

/-- All the pending keys are a character, which takes their place in the text. -/
theorem composeLoop_found {c : Nat} (hwf : s.buffer.WellFormed) (htext : s.buffer.bytes = front ++ s.composeBuf ++ back)
    (hstart : s.composeStartOffset = front.length) (hoffset : s.offset = (front.length + s.composeBuf.length : Nat))
    (hascii : ∀ d ∈ s.composeBuf, d < 0x80) (hne : s.composeBuf ≠ []) (h : s.matchOf s.composeBuf = .found c s.composeBuf.length) (n : Nat) :
    ∃ s', composeLoop (n + 1) s = some s' ∧
      Rewritten { s with composeBuf := [], composeStartOffset := front.length + (unicodeToCharset c s.charset).length }
        (front.length + (unicodeToCharset c s.charset).length) (front ++ unicodeToCharset c s.charset ++ back) s' := by
  unfold matchOf at h
  have hskip : s.reader.nextcs s.composeBuf.length front.length = ((front ++ s.composeBuf).length : Int) := by
    obtain ⟨hwhole, hcount⟩ := whole_ascii s.charset hascii
    have hcut : s.reader.text = front ++ (s.composeBuf ++ back) := by
      rw [← List.append_assoc]
      exact htext
    have hnext := (Reader.nextcs_whole hcut hwhole).1
    have hcount' : s.composeBuf.countP s.reader.charset.lead = s.composeBuf.length := hcount
    rwa [hcount'] at hnext
  have hlen : s.reader.nextcs s.composeBuf.length s.composeStartOffset - s.composeStartOffset = s.composeBuf.length := by
    rw [hstart, hskip, List.length_append]
    omega
  obtain ⟨ed, hed, hdel⟩ := delete_rewritten hwf hne htext
  obtain ⟨ed', hed', hins⟩ := insert_rewritten hdel.wf hdel.text (unicodeToCharset c s.charset)
  have hrew := hdel.trans hins
  refine ⟨{ ed' with
    offset := s.offset + (unicodeToCharset c s.charset).length - s.composeBuf.length, composeBuf := []
    composeStartOffset := s.composeStartOffset + (unicodeToCharset c s.charset).length }, ?_, hrew.wf, hrew.text, ?_⟩
  · rw [composeLoop, h]
    simp only [hlen]
    rw [hstart, hed]
    simp [hed']
  · obtain ⟨top, hrest⟩ := hrew.rest
    refine ⟨top, ?_⟩
    rw [hoffset, hstart, hrest]
    have hend : ((front.length + s.composeBuf.length : Nat) : Int) + (unicodeToCharset c s.charset).length - s.composeBuf.length =
        front.length + (unicodeToCharset c s.charset).length := by
      push_cast
      ring
    rw [hend]

/-- What a call leaves as it was. -/
structure SameWindow (s s' : Editor) : Prop where
  charset : s'.charset = s.charset
  method : s'.inputMethod = s.inputMethod

theorem SameWindow.trans {s'' : Editor} (h : SameWindow s s') (h' : SameWindow s' s'') : SameWindow s s'' :=
  ⟨h'.charset.trans h.charset, h'.method.trans h.method⟩

/-- The window after a call in which other keys are pending. -/
theorem Composes.rewritten (h : Composes s front back) {front' back' : List Byte} {keys : List Nat} {start o : Int}
    (hrew : Rewritten { s with composeBuf := keys, composeStartOffset := start } o (front' ++ keys ++ back') s')
    (ho : o = (front'.length + keys.length : Nat)) (hwhole : Whole s.charset.lead s.charset.width front')
    (hpending : keys ≠ [] → start = front'.length ∧ Pending keys) :
    Composes s' front' back' ∧ s'.composeBuf = keys ∧ SameWindow s s' := by
  obtain ⟨hwf, htext, top, hrest⟩ := hrew
  have hkeys : s'.composeBuf = keys := by rw [hrest]
  have hcharset : s'.charset = s.charset := by rw [hrest]
  have hmethod : s'.inputMethod = s.inputMethod := by rw [hrest]
  refine ⟨⟨hwf, by rw [hrest]; exact h.insert, by rw [hmethod]; exact h.method, by rw [hkeys]; exact htext,
    by rw [hcharset]; exact hwhole, by rw [hrest, ho], ?_⟩, hkeys, hcharset, hmethod⟩
  rw [hrest]
  exact hpending

/-- Behind an answer that more keys are expected, one more of them is pending. -/
theorem textWriteChar_moreChars (h : Composes s front back) (hm : s.matchOf (s.composeBuf ++ [key]) = .moreChars)
    (hp : Pending (s.composeBuf ++ [key])) :
    ∃ s', s.textWriteChar key = some s' ∧ Composes s' front back ∧ s'.composeBuf = s.composeBuf ++ [key] ∧ SameWindow s s' := by
  obtain ⟨ed, hrun, hrew⟩ := textWriteChar_inserts h key
  obtain ⟨top, hrest⟩ := hrew.rest
  have hkey : key < 0x80 := hp.ascii key (by simp)
  rw [unicodeToCharset_ascii s.charset hkey, List.append_assoc front] at hrew
  refine ⟨ed, hrun.trans (composeLoop_moreChars ?_ _), h.rewritten hrew ?_ h.whole fun _ => ⟨rfl, hp⟩⟩
  · rw [hrest]
    exact hm
  · simp only [List.length_append, List.length_singleton]
    push_cast
    ring

/-- Behind an answer that the keys are no character, nothing is pending. -/
theorem textWriteChar_noMatch (h : Composes s front back) (hm : s.matchOf (s.composeBuf ++ [key]) = .noMatch) (hkey : key < 0x80000000) :
    ∃ s', s.textWriteChar key = some s' ∧ Composes s' (front ++ s.composeBuf ++ unicodeToCharset key s.charset) back ∧
      s'.composeBuf = [] ∧ SameWindow s s' := by
  obtain ⟨ed, hrun, hrew⟩ := textWriteChar_inserts h key
  obtain ⟨top, hrest⟩ := hrew.rest
  have hwhole : Whole s.charset.lead s.charset.width s.composeBuf := by
    by_cases hnil : s.composeBuf = []
    · rw [hnil]
      exact .nil
    · exact (whole_ascii s.charset (h.pending hnil).2.ascii).1
  have hcleared : Rewritten { s with composeBuf := [], composeStartOffset := front.length }
      (front.length + s.composeBuf.length + (unicodeToCharset key s.charset).length)
      (front ++ s.composeBuf ++ unicodeToCharset key s.charset ++ [] ++ back) { ed with composeBuf := [] } := by
    refine ⟨hrew.wf, by rw [List.append_nil]; exact hrew.text, top, ?_⟩
    rw [hrest]
  refine ⟨_, hrun.trans (composeLoop_noMatch ?_ _),
    h.rewritten hcleared ?_ ((h.whole.append hwhole).append (whole_unicodeToCharset s.charset hkey)) fun hne => absurd rfl hne⟩
  · rw [hrest]
    exact hm
  · simp only [List.length_append, List.length_nil]
    push_cast
    ring

/-- Behind an answer that the keys are a character, it stands in their place. -/
theorem textWriteChar_found (h : Composes s front back) {c : Nat} (hm : s.matchOf (s.composeBuf ++ [key]) = .found c 5)
    (hlen : (s.composeBuf ++ [key]).length = 5) (hascii : ∀ d ∈ s.composeBuf ++ [key], d < 0x80) (hc : c < 0x10000) :
    ∃ s', s.textWriteChar key = some s' ∧ Composes s' (front ++ unicodeToCharset c s.charset) back ∧ s'.composeBuf = [] ∧
      SameWindow s s' := by
  obtain ⟨ed, hrun, hrew⟩ := textWriteChar_inserts h key
  obtain ⟨top, hrest⟩ := hrew.rest
  have hkeys : ed.composeBuf = s.composeBuf ++ [key] := by rw [hrest]
  have hcharset : ed.charset = s.charset := by rw [hrest]
  rw [unicodeToCharset_ascii s.charset (hascii key (by simp)), List.append_assoc front] at hrew
  obtain ⟨s', hs', hrew'⟩ := composeLoop_found (c := c) (n := s.composeBuf.length) hrew.wf (by rw [hkeys]; exact hrew.text)
    (by rw [hrest])
    (by rw [hrew.offset, hkeys, List.length_append, List.length_singleton]; push_cast; ring)
    (by rw [hkeys]; exact hascii) (by rw [hkeys]; simp) (by rw [hkeys, hlen, hrest]; exact hm)
  rw [hcharset] at hrew'
  have hfinal : Rewritten { s with composeBuf := [], composeStartOffset := front.length + (unicodeToCharset c s.charset).length }
      (front.length + (unicodeToCharset c s.charset).length) (front ++ unicodeToCharset c s.charset ++ [] ++ back) s' := by
    obtain ⟨top', hrest'⟩ := hrew'.rest
    refine ⟨hrew'.wf, by rw [List.append_nil]; exact hrew'.text, top', ?_⟩
    rw [hrest', hrest]
  refine ⟨s', hrun.trans hs', h.rewritten hfinal ?_ (h.whole.append (whole_unicodeToCharset s.charset (by omega)))
    fun hne => absurd rfl hne⟩
  rw [List.length_append]
  push_cast
  rfl

/-- A key of an `int` keeps the composition in step with the text. -/
theorem textWriteChar_composes (h : Composes s front back) (hkey : key < 0x80000000) :
    ∃ s', s.textWriteChar key = some s' ∧ (∃ front', Composes s' front' back) ∧ SameWindow s s' := by
  have hpending : s.composeBuf = [] ∨ Pending s.composeBuf := by
    by_cases hnil : s.composeBuf = []
    · exact Or.inl hnil
    · exact Or.inr (h.pending hnil).2
  rcases h.method with hm | hm
  · have hanswer : s.matchOf (s.composeBuf ++ [key]) = .noMatch := by
      unfold matchOf
      rw [hm]
      rfl
    obtain ⟨s', hrun, hs', -, hsame⟩ := textWriteChar_noMatch h hanswer hkey
    exact ⟨s', hrun, ⟨_, hs'⟩, hsame⟩
  · have hanswer : s.matchOf (s.composeBuf ++ [key]) = unicodeMatch (s.composeBuf ++ [key]) := by
      unfold matchOf
      rw [hm]
      rfl
    rcases unicodeMatch_snoc hpending key with hno | ⟨hmore, hp⟩ | ⟨c, hc, hfound, hlen, hascii⟩
    · obtain ⟨s', hrun, hs', -, hsame⟩ := textWriteChar_noMatch h (hanswer.trans hno) hkey
      exact ⟨s', hrun, ⟨_, hs'⟩, hsame⟩
    · obtain ⟨s', hrun, hs', -, hsame⟩ := textWriteChar_moreChars h (hanswer.trans hmore) hp
      exact ⟨s', hrun, ⟨_, hs'⟩, hsame⟩
    · obtain ⟨s', hrun, hs', -, hsame⟩ := textWriteChar_found h (hanswer.trans hfound) hlen hascii hc
      exact ⟨s', hrun, ⟨_, hs'⟩, hsame⟩

/-- `do_backspace` with the character in front of the point known. -/
theorem doBackspace_frame (h : Composes s front back) {a q : List Byte} {c : Nat} (htext : front ++ s.composeBuf = a ++ c :: q)
    (hc : s.charset.lead c = true) (hq : q.length = s.charset.width c - 1) (hqt : ∀ x ∈ q, s.charset.lead x = false) :
    ∃ s', s.doBackspace = some s' ∧
      Rewritten { s with composeBuf := s.composeBuf.dropLast, composeStartOffset := s.composeStartOffset } a.length (a ++ back) s' := by
  have hbytes : s.buffer.bytes = a ++ c :: q ++ back := by rw [h.text, htext]
  have hoffset : s.offset = ((a ++ c :: q).length : Nat) := by rw [h.offset, ← htext, List.length_append]
  have hprev : (s.reader.prevc s.offset).2 = a.length := by
    rw [hoffset]
    exact Reader.prevc_frame (r := s.reader) hbytes hc hq hqt
  have hlt : (a.length : Int) < s.offset := by
    rw [hoffset, List.length_append, List.length_cons]
    omega
  have hsize : s.offset - a.length = ((c :: q).length : Nat) := by
    rw [hoffset, List.length_append]
    omega
  obtain ⟨ed, hed, hrew⟩ := delete_rewritten h.wf (List.cons_ne_nil c q) hbytes
  obtain ⟨top, hrest⟩ := hrew.rest
  have hcompose : ed.composeBuf = s.composeBuf := by rw [hrest]
  refine ⟨{ ed with offset := a.length, composeBuf := s.composeBuf.dropLast }, ?_, hrew.wf, hrew.text, top, ?_⟩
  · unfold doBackspace
    simp only [hprev, if_pos hlt, hsize, hed, Option.bind_eq_bind, Option.bind_some]
  · rw [hrest]

/-- A backspace takes the last pending key out of the text, and a character when there is none. -/
theorem doBackspace_composes (h : Composes s front back) :
    ∃ s', s.doBackspace = some s' ∧ (∃ front', Composes s' front' back ∧ (s.composeBuf ≠ [] → front' = front)) ∧
      s'.composeBuf = s.composeBuf.dropLast ∧ SameWindow s s' := by
  by_cases hnil : s.composeBuf = []
  · by_cases hfront : front = []
    · have hzero : s.offset = 0 := by
        rw [h.offset, hfront, hnil]
        rfl
      refine ⟨s, ?_, ⟨front, h, fun _ => rfl⟩, by rw [hnil, List.dropLast_nil], rfl, rfl⟩
      unfold doBackspace
      rw [hzero, Spelled.prevc_start]
      rfl
    · obtain ⟨a, c, q, rfl, ha, hc, hq, hqt⟩ := h.whole.exists_last hfront
      obtain ⟨s', hrun, hrew⟩ := doBackspace_frame h (by rw [hnil, List.append_nil]) hc hq hqt
      rw [hnil, List.dropLast_nil, ← List.append_nil a] at hrew
      obtain ⟨h1, h2, h3⟩ := h.rewritten hrew (by simp) ha fun hne => absurd rfl hne
      exact ⟨s', hrun, ⟨a, h1, fun hne => absurd hnil hne⟩, by rw [hnil]; exact h2, h3⟩
  · obtain ⟨hstart, hp⟩ := h.pending hnil
    have hlast := List.dropLast_append_getLast hnil
    have hascii : ∀ d ∈ s.composeBuf, d < 0x80 := hp.ascii
    obtain ⟨hwhole, -⟩ := whole_ascii s.charset (l := [s.composeBuf.getLast hnil])
      (by simpa using hascii _ (List.getLast_mem hnil))
    obtain ⟨q, rest, hq, hc, hwidth, -, -⟩ := hwhole.uncons
    obtain ⟨rfl, rfl⟩ : q = [] ∧ rest = [] := by simpa using hq.symm
    obtain ⟨s', hrun, hrew⟩ := doBackspace_frame (a := front ++ s.composeBuf.dropLast) (q := []) h
      (by rw [List.append_assoc, hlast]) hc hwidth (by simp)
    obtain ⟨h1, h2, h3⟩ := h.rewritten hrew (by simp) h.whole fun hne => ⟨hstart, hp.dropLast hne⟩
    exact ⟨s', hrun, ⟨front, h1, fun _ => rfl⟩, h2, h3⟩

/-! ## Runs -/

/-- A key that is typed, or a backspace. -/
inductive Typing where
  | key (k : Nat)
  | backspace
deriving DecidableEq, Repr

/-- What it does to the window. -/
def typed (s : Editor) : Typing → Option Editor
  | .key k => s.textWriteChar k
  | .backspace => s.doBackspace

/-- One after the other. -/
def typeAll (s : Editor) (ts : List Typing) : Option Editor := ts.foldlM typed s

/-- The pending keys are the text between the place where they begin and the point, and there is room for one more. -/
def Composed (s : Editor) : Prop :=
  s.composeBuf.length < composeSize ∧ (s.composeBuf ≠ [] → ∃ start : Nat, s.composeStartOffset = start ∧
    s.offset = (start + (spelling s.charset s.composeBuf).length : Nat) ∧
    slice s.buffer.bytes start (spelling s.charset s.composeBuf).length = spelling s.charset s.composeBuf)

theorem Composes.composed (h : Composes s front back) : Composed s := by
  by_cases hnil : s.composeBuf = []
  · refine ⟨?_, fun hne => absurd hnil hne⟩
    rw [hnil]
    decide
  · obtain ⟨hstart, hp⟩ := h.pending hnil
    have hspell : spelling s.charset s.composeBuf = s.composeBuf := spelling_ascii s.charset hp.ascii
    have hle := hp.length_le
    refine ⟨?_, fun _ => ⟨front.length, hstart, ?_, ?_⟩⟩
    · unfold composeSize
      omega
    · rw [hspell]
      exact h.offset
    · rw [hspell, h.text, List.append_assoc, slice_append, List.take_left]

/-- Whatever is typed, the composition stays in step with the text. -/
theorem typeAll_composes (h : Composes s front back) {ts : List Typing} (hts : ∀ k, Typing.key k ∈ ts → k < 0x80000000) :
    ∃ s', s.typeAll ts = some s' ∧ ∃ front', Composes s' front' back := by
  induction ts generalizing s front with
  | nil => exact ⟨s, rfl, front, h⟩
  | cons t ts ih =>
    have hstep : ∃ s₁, s.typed t = some s₁ ∧ ∃ front₁, Composes s₁ front₁ back := by
      cases t with
      | key k =>
        obtain ⟨s₁, hrun, h₁, -⟩ := textWriteChar_composes h (hts k List.mem_cons_self)
        exact ⟨s₁, hrun, h₁⟩
      | backspace =>
        obtain ⟨s₁, hrun, ⟨front₁, h₁, -⟩, -⟩ := doBackspace_composes h
        exact ⟨s₁, hrun, front₁, h₁⟩
    obtain ⟨s₁, hrun, front₁, h₁⟩ := hstep
    obtain ⟨s', hrun', h'⟩ := ih h₁ fun k hk => hts k (List.mem_cons_of_mem t hk)
    refine ⟨s', ?_, h'⟩
    rw [typeAll, List.foldlM_cons, hrun]
    exact hrun'

/-- The digits that are left of what is typed, never more than three: a backspace takes back the last of them. -/
inductive LeavesDigits : List Typing → List Nat → Prop where
  | nil : LeavesDigits [] []
  | digit {ts : List Typing} {ds : List Nat} {k : Nat} :
      LeavesDigits ts ds → ds.length < 3 → (toHex k).isSome → LeavesDigits (ts ++ [.key k]) (ds ++ [k])
  | erase {ts : List Typing} {ds : List Nat} {d : Nat} : LeavesDigits ts (ds ++ [d]) → LeavesDigits (ts ++ [.backspace]) ds

theorem LeavesDigits.digits {ts : List Typing} {ds : List Nat} (h : LeavesDigits ts ds) : ds.length ≤ 3 ∧ ∀ d ∈ ds, (toHex d).isSome := by
  induction h with
  | nil => simp
  | digit _ hlen hk ih =>
    refine ⟨by rw [List.length_append, List.length_singleton]; omega, fun d hd => ?_⟩
    rcases List.mem_append.mp hd with hd | hd
    · exact ih.2 d hd
    · rwa [List.mem_singleton.mp hd]
  | erase _ ih =>
    refine ⟨by have hlen := ih.1; rw [List.length_append] at hlen; omega, fun d hd => ih.2 d (List.mem_append_left _ hd)⟩

theorem typeAll_append (s : Editor) (ts us : List Typing) : s.typeAll (ts ++ us) = (s.typeAll ts).bind (·.typeAll us) :=
  List.foldlM_append ..

theorem typeAll_snoc {ts : List Typing} (h : s.typeAll ts = some s') (t : Typing) : s.typeAll (ts ++ [t]) = s'.typed t := by
  rw [typeAll_append, h, Option.bind_some, typeAll, List.foldlM_cons]
  exact bind_pure _

theorem matchOf_unicode (hm : s.inputMethod = some unicodeInput) (keys : List Nat) : s.matchOf keys = unicodeMatch keys := by
  unfold matchOf
  rw [hm]
  rfl

/-- The digits that are left are pending behind the x. -/
theorem LeavesDigits.run {ts : List Typing} {ds : List Nat} (hts : LeavesDigits ts ds) (h : Composes s front back)
    (hx : s.composeBuf = [0x78]) (hm : s.inputMethod = some unicodeInput) :
    ∃ s', s.typeAll ts = some s' ∧ Composes s' front back ∧ s'.composeBuf = 0x78 :: ds ∧ SameWindow s s' := by
  induction hts with
  | nil => exact ⟨s, rfl, h, hx, rfl, rfl⟩
  | @digit ts ds k hds hlen hk ih =>
    obtain ⟨s₁, hrun, h₁, hbuf, hsame⟩ := ih
    have hleft := (LeavesDigits.digit hds hlen hk).digits
    have hp : Pending (s₁.composeBuf ++ [k]) := ⟨ds ++ [k], by rw [hbuf]; rfl, hleft⟩
    have hanswer : s₁.matchOf (s₁.composeBuf ++ [k]) = .moreChars := by
      obtain ⟨c, hc⟩ := Option.isSome_iff_exists.mp ((hexCode_isSome (ds ++ [k]) 0).mpr hleft.2)
      rw [matchOf_unicode (hsame.method.trans hm), hbuf, List.cons_append, unicodeMatch_some (by omega) hc, if_neg (by omega)]
    obtain ⟨s', hrun', h', hbuf', hsame'⟩ := textWriteChar_moreChars h₁ hanswer hp
    exact ⟨s', (typeAll_snoc hrun _).trans hrun', h', by rw [hbuf', hbuf]; rfl, hsame.trans hsame'⟩
  | @erase ts ds d _ ih =>
    obtain ⟨s₁, hrun, h₁, hbuf, hsame⟩ := ih
    have hne : s₁.composeBuf ≠ [] := by
      rw [hbuf]
      exact List.cons_ne_nil _ _
    obtain ⟨s', hrun', ⟨front', h', hfront⟩, hbuf', hsame'⟩ := doBackspace_composes h₁
    rw [hfront hne] at h'
    refine ⟨s', (typeAll_snoc hrun _).trans hrun', h', ?_, hsame.trans hsame'⟩
    rw [hbuf', hbuf, ← List.cons_append, List.dropLast_concat]

/-- An x and four digits are replaced by the character that they designate. -/
theorem typeAll_designated (h : Composes s front back) (hempty : s.composeBuf = []) (hm : s.inputMethod = some unicodeInput)
    {ts : List Typing} {ds : List Nat} (hts : LeavesDigits ts ds) {k c : Nat} (hkeys : (ds ++ [k]).map toHex = (digits 16 4 c).map some)
    (hc : c < 0x10000) :
    ∃ s', s.typeAll (.key 0x78 :: ts ++ [.key k]) = some s' ∧ Composes s' (front ++ unicodeToCharset c s.charset) back ∧
      s'.composeBuf = [] := by
  have hx : s.matchOf (s.composeBuf ++ [0x78]) = .moreChars := by
    rw [matchOf_unicode hm, hempty]
    rfl
  obtain ⟨s₁, hrun₁, h₁, hbuf₁, hsame₁⟩ := textWriteChar_moreChars h hx ⟨[], by rw [hempty]; rfl, Nat.zero_le 3, by simp⟩
  rw [hempty, List.nil_append] at hbuf₁
  obtain ⟨s₂, hrun₂, h₂, hbuf₂, hsame₂⟩ := hts.run h₁ hbuf₁ (hsame₁.method.trans hm)
  have hsame := hsame₁.trans hsame₂
  have hlen : (ds ++ [k]).length = 4 := by
    have hlen := congrArg List.length hkeys
    rwa [List.length_map, List.length_map, length_digits] at hlen
  have hcode : hexCode (ds ++ [k]) 0 = some c := by
    have hvalue := value_digits (b := 16) 4 c
    rw [Nat.div_eq_of_lt (by omega)] at hvalue
    rw [hexCode_value hkeys, hvalue]
  have hfound : s₂.matchOf (s₂.composeBuf ++ [k]) = .found c 5 := by
    rw [matchOf_unicode (hsame.method.trans hm), hbuf₂, List.cons_append, unicodeMatch_some (by omega) hcode, if_pos hlen]
  have hdigits := (hexCode_isSome (ds ++ [k]) 0).mp (by rw [hcode]; rfl)
  obtain ⟨s', hrun', h', hbuf', -⟩ := textWriteChar_found h₂ hfound (by rw [hbuf₂, List.cons_append, List.length_cons, hlen])
    (by rw [hbuf₂, List.cons_append]; exact List.forall_mem_cons.mpr ⟨by decide, fun d hd => toHex_ascii (hdigits d hd)⟩) hc
  rw [hsame.charset] at h'
  refine ⟨s', ?_, h', hbuf'⟩
  have hrun : s.typeAll (.key 0x78 :: ts) = some s₂ := by
    rw [typeAll, List.foldlM_cons]
    exact (congrArg (Option.bind · _) hrun₁).trans hrun₂
  exact (typeAll_snoc hrun _).trans hrun'

/-- A window that composes in 8859-1. -/
def latinWindow (text : List Byte) (o : Nat) : Editor :=
  { Editor.new (Hoe.ebInsert (EditBuffer.new true) 0 text) .latin1 o with inputMethod := some unicodeInput }

theorem latinWindow_wf (text : List Byte) (o : Nat) : (latinWindow text o).buffer.WellFormed :=
  ⟨_, ebInsert_stands (new_stands true) (Nat.zero_le _) text⟩

end Editor

end Hoe
