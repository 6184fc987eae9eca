import Hoe.Tty
import Hoe.Lib.Digits
import Mathlib.Data.List.Basic

/-!
# The control sequences of the terminal

A control sequence is `ESC [`, parameters and a byte that ends it. The parameters are numbers with semicolons between them, but the
handler takes any byte that is not a digit for the end. A sequence therefore gives one special key when its parameters are one number
and, where the number goes into the key, when the key is still in the range of the special ones.

`decoded_digit` and `decoded_last` say what a byte does inside a sequence, and `ttyRead_sequence` is the run over a whole one.
-/

namespace Hoe

theorem isDigit_iff {c : Nat} : isDigit c = true ↔ 48 ≤ c ∧ c ≤ 57 := by
  simp only [isDigit, Bool.and_eq_true, decide_eq_true_eq]

/-- The number that goes into a key with `KEY_ESC1`, and the key is in the range of the special keys. -/
theorem keySpecial_keyEsc1 (n : Nat) : keySpecial (keyEsc1 n) = true ↔ n < 2 ^ 16 ∧ n / 2 ^ 12 % 2 = 0 := by
  have hle : 0xe100 ≤ keyEsc1 n := Nat.right_le_or
  -- the twelve low bits do not matter
  have hhigh : keyEsc1 n / 2 ^ 12 = n / 2 ^ 12 ||| 14 := Nat.or_div_two_pow
  have hspecial : keySpecial (keyEsc1 n) = true ↔ keyEsc1 n / 2 ^ 12 = 14 := by
    simp only [keySpecial, Bool.or_eq_true, Bool.and_eq_true, decide_eq_true_eq]
    omega
  have hsmall : ∀ q < 16, (q ||| 14 = 14 ↔ q % 2 = 0) := by decide
  rw [hspecial, hhigh]
  rcases Nat.lt_or_ge (n / 2 ^ 12) 16 with hq | hq
  · rw [hsmall _ hq]
    omega
  · have hor : n / 2 ^ 12 ≤ n / 2 ^ 12 ||| 14 := Nat.left_le_or
    omega

/-- The key of a sequence is special whatever its number is, where the number does not go into the key. -/
theorem keySpecial_csiKey {ch : Nat} (h : 0x40 ≤ ch ∧ ch ≤ 0x7e) (param : BitVec 32) :
    keySpecial (csiKey param ch) = true ↔ (ch = 0x7e → param.toNat < 2 ^ 16 ∧ param.toNat / 2 ^ 12 % 2 = 0) := by
  unfold csiKey
  split_ifs with htilde hhome hend htab harrow
  · rw [keySpecial_keyEsc1]
    simp [htilde]
  · simp only [htilde, false_imp_iff, iff_true]
    decide
  · simp only [htilde, false_imp_iff, iff_true]
    decide
  · simp only [htilde, false_imp_iff, iff_true]
    decide
  · simp only [htilde, false_imp_iff, iff_true, keySpecial_keyEsc1]
    omega
  · simp only [htilde, false_imp_iff, iff_true, keySpecial_keyEsc1]
    omega

namespace TTYInput

variable {s : TTYInput} {ds params : List Byte} {b final c : Nat}

/-! ## One byte -/

@[simp] theorem read_inputState (s : TTYInput) (b : Byte) : (s.read b).inputState = s.inputState := rfl

@[simp] theorem read_inputParam (s : TTYInput) (b : Byte) : (s.read b).inputParam = s.inputParam := rfl

/-- The byte is read to the place that the handler looks at. -/
theorem ttyReadHandler_latin1 (s : TTYInput) (b : Byte) : s.ttyReadHandler .latin1 b = (s.read b).decoded b := by
  have hbuf : (s.read b).buf.get 0 = b := by
    obtain ⟨inputState, inputParam, utf8State, utf8Index, buf, rfl⟩ := s
    exact Vector.getElem_set_self _
  unfold ttyReadHandler
  exact congrArg (s.read b).decoded hbuf

/-- A digit goes on with the number. -/
theorem decoded_digit (hs : s.inputState = .csi) (hb : isDigit b = true) (hc : s.inputParam = BitVec.ofNat 32 c) :
    s.decoded b = some ({ s with inputParam := BitVec.ofNat 32 (c * 10 + (b - 48)) }, none) := by
  have hrange := isDigit_iff.mp hb
  have hsum : BitVec.ofNat 32 c * 10 + BitVec.ofNat 32 b - 0x30 = BitVec.ofNat 32 (c * 10 + (b - 48)) := by
    have hten : (10 : BitVec 32).toNat = 10 := rfl
    have hzero : (0x30 : BitVec 32).toNat = 48 := rfl
    apply BitVec.eq_of_toNat_eq
    simp only [BitVec.toNat_sub, BitVec.toNat_add, BitVec.toNat_mul, BitVec.toNat_ofNat, hten, hzero]
    omega
  have hbyte : ¬0x100 ≤ b := by omega
  simp only [decoded, hs, hb, hbyte, hc, hsum, if_true, if_false]

/-- Any other byte ends the sequence. -/
theorem decoded_last (hs : s.inputState = .csi) (hb : isDigit b = false) (hlt : b < 0x100) :
    s.decoded b = some ({ s with inputState := .norm }, some (csiKey s.inputParam b)) := by
  have hbyte : ¬0x100 ≤ b := by omega
  simp only [decoded, hs, hb, hbyte, if_false, Bool.false_eq_true]

/-! ## Runs -/

/-- A run over bytes and then over others. -/
theorem ttyRead_append (charset : Charset) (s : TTYInput) (as bs : List Byte) :
    s.ttyRead charset (as ++ bs) =
      (s.ttyRead charset as).bind fun r => (r.1.ttyRead charset bs).map fun q => (q.1, r.2 ++ q.2) := by
  induction as generalizing s with
  | nil => simp [ttyRead]
  | cons a as ih =>
    rw [List.cons_append, ttyRead, ttyRead]
    cases s.ttyReadHandler charset a with
    | none => rfl
    | some r =>
      simp only [Option.bind_some, ih r.1]
      cases r.1.ttyRead charset as with
      | none => rfl
      | some q => simp [Option.map_map, Function.comp_def]

/-- The digits of a number make no event. -/
theorem ttyRead_digits (hs : s.inputState = .csi) (hc : s.inputParam = BitVec.ofNat 32 c) (hds : ∀ d ∈ ds, isDigit d = true) :
    ∃ s', s.ttyRead .latin1 ds = some (s', List.replicate ds.length none) ∧ s'.inputState = .csi ∧
      s'.inputParam = BitVec.ofNat 32 (Digits.value 10 c (ds.map (· - 48))) := by
  induction ds generalizing s c with
  | nil => exact ⟨s, rfl, hs, hc⟩
  | cons d ds ih =>
    obtain ⟨hd, hds⟩ := List.forall_mem_cons.mp hds
    have hstep := decoded_digit (s := s.read d) hs hd hc
    obtain ⟨s', hrun, hs', hparam⟩ := ih (s := { s.read d with inputParam := BitVec.ofNat 32 (c * 10 + (d - 48)) }) hs rfl hds
    refine ⟨s', ?_, hs', hparam⟩
    rw [ttyRead, ttyReadHandler_latin1, hstep, Option.bind_some, hrun]
    rfl

/-- The number of a sequence. -/
def sequenceParam (ds : List Byte) : Nat := Digits.value 10 0 (ds.map (· - 48))

/-- A sequence with one number makes one event, at its end. -/
theorem ttyRead_sequence (hs : s.inputState = .norm) (hds : ∀ d ∈ ds, isDigit d = true) (hb : isDigit b = false) (hlt : b < 0x100) :
    ∃ s', s.ttyRead .latin1 (keyEsc :: 0x5b :: (ds ++ [b])) =
      some (s', List.replicate (ds.length + 2) none ++ [some (csiKey (BitVec.ofNat 32 (sequenceParam ds)) b)]) ∧
      s'.inputState = .norm := by
  let start : TTYInput := { ({ s.read keyEsc with inputState := .esc } : TTYInput).read 0x5b with inputState := .csi, inputParam := 0 }
  have hstart : s.ttyRead .latin1 [keyEsc, 0x5b] = some (start, [none, none]) := by
    simp [ttyRead, ttyReadHandler_latin1, decoded, hs, start]
  obtain ⟨s', hrun, hs', hparam⟩ := ttyRead_digits (s := start) (c := 0) rfl rfl hds
  have hlast : s'.ttyRead .latin1 [b] = some ({ s'.read b with inputState := .norm }, [some (csiKey s'.inputParam b)]) := by
    simp [ttyRead, ttyReadHandler_latin1, decoded_last (s := s'.read b) hs' hb hlt]
  refine ⟨{ s'.read b with inputState := .norm }, ?_, rfl⟩
  have hsplit : keyEsc :: 0x5b :: (ds ++ [b]) = [keyEsc, 0x5b] ++ (ds ++ [b]) := rfl
  have hevents : List.replicate (ds.length + 2) (none : Option Nat) = [none, none] ++ List.replicate ds.length none := rfl
  rw [hsplit, ttyRead_append, hstart, Option.bind_some, ttyRead_append, hrun, Option.bind_some, hlast, hparam, hevents]
  rfl

/-- One event is made of the bytes, at the last of them. Its key is special, and the state is `IS_NORM` again. -/
def OneSpecialKey (s : TTYInput) (bytes : List Byte) : Prop :=
  ∃ s' key, s.ttyRead .latin1 bytes = some (s', List.replicate (bytes.length - 1) none ++ [some key]) ∧
    keySpecial key = true ∧ s'.inputState = .norm

/-- A sequence with one number has the event it should. -/
theorem oneSpecialKey_number (hs : s.inputState = .norm) (hds : ∀ d ∈ ds, isDigit d = true) (hb : isDigit b = false) (hlt : b < 0x100) :
    s.OneSpecialKey (keyEsc :: 0x5b :: (ds ++ [b])) ↔ keySpecial (csiKey (BitVec.ofNat 32 (sequenceParam ds)) b) = true := by
  obtain ⟨s', hrun, hs'⟩ := ttyRead_sequence hs hds hb hlt
  have hlen : (keyEsc :: 0x5b :: (ds ++ [b])).length - 1 = ds.length + 2 := by simp
  unfold OneSpecialKey
  rw [hrun, hlen]
  constructor
  · rintro ⟨t, key, h, hkey, -⟩
    simp only [Option.some.injEq, Prod.mk.injEq, List.append_cancel_left_eq, List.cons.injEq, and_true] at h
    rwa [h.2]
  · intro hkey
    exact ⟨s', _, rfl, hkey, hs'⟩

/-- A byte that is no digit ends the sequence where it stands, and there is an event too early. -/
theorem not_oneSpecialKey_early (hs : s.inputState = .norm) (hds : ∀ d ∈ ds, isDigit d = true) (hb : isDigit b = false)
    (hlt : b < 0x100) (rest : List Byte) (hrest : rest ≠ []) :
    ¬s.OneSpecialKey (keyEsc :: 0x5b :: (ds ++ b :: rest)) := by
  rintro ⟨t, key, h, -, -⟩
  obtain ⟨s', hrun, -⟩ := ttyRead_sequence hs hds hb hlt
  have hsplit : keyEsc :: 0x5b :: (ds ++ b :: rest) = keyEsc :: 0x5b :: (ds ++ [b]) ++ rest := by simp
  rw [hsplit, ttyRead_append, hrun, Option.bind_some] at h
  obtain ⟨q, -, hq⟩ := Option.map_eq_some_iff.mp h
  have hevents := (Prod.mk.inj hq).2
  -- the entry of the byte, which is not the last one
  have hpos : 0 < rest.length := List.length_pos_iff.mpr hrest
  have hleft : (List.replicate (ds.length + 2) none ++ [some (csiKey (BitVec.ofNat 32 (sequenceParam ds)) b)] ++ q.2)[ds.length + 2]? =
      some (some (csiKey (BitVec.ofNat 32 (sequenceParam ds)) b)) := by simp
  have hmiddle : ds.length + 2 < (keyEsc :: 0x5b :: (ds ++ [b]) ++ rest).length - 1 := by
    simp only [List.cons_append, List.append_assoc, List.length_cons, List.length_append, List.nil_append]
    omega
  rw [hevents, List.getElem?_append_left (by rwa [List.length_replicate]), List.getElem?_replicate, if_pos hmiddle] at hleft
  cases hleft

/-- A control sequence is decoded to one special key if and only if its parameters are one number at most and, where `~` ends it and
the number goes into the key, the 32 bits of the number are below `2 ^ 16` and bit 12 of them is not set. -/
theorem oneSpecialKey_iff (hs : s.inputState = .norm) (hparams : ∀ c ∈ params, isDigit c = true ∨ c = 0x3b)
    (hfinal : 0x40 ≤ final ∧ final ≤ 0x7e) :
    s.OneSpecialKey (keyEsc :: 0x5b :: (params ++ [final])) ↔
      0x3b ∉ params ∧
        (final = 0x7e → sequenceParam params % 2 ^ 32 < 2 ^ 16 ∧ sequenceParam params % 2 ^ 32 / 2 ^ 12 % 2 = 0) := by
  by_cases hsemi : 0x3b ∈ params
  · obtain ⟨ds, rest, rfl, hfirst⟩ := List.eq_append_cons_of_mem hsemi
    have hds : ∀ d ∈ ds, isDigit d = true := by
      intro d hd
      rcases hparams d (List.mem_append_left _ hd) with h | rfl
      · exact h
      · exact absurd hd hfirst
    have hearly := not_oneSpecialKey_early hs hds (b := 0x3b) (by decide) (by decide) (rest ++ [final]) (by simp)
    rw [List.append_assoc, List.cons_append]
    exact iff_of_false hearly fun h => h.1 hsemi
  · have hds : ∀ d ∈ params, isDigit d = true := by
      intro d hd
      rcases hparams d hd with h | rfl
      · exact h
      · exact absurd hd hsemi
    have hb : isDigit final = false := by
      rw [Bool.eq_false_iff, ne_eq, isDigit_iff]
      omega
    rw [oneSpecialKey_number hs hds hb (by omega), keySpecial_csiKey hfinal, BitVec.toNat_ofNat]
    simp [hsemi]

/-- The key that deletes. -/
theorem oneSpecialKey_delete : TTYInput.init.OneSpecialKey [keyEsc, 0x5b, 0x33, 0x7e] := by
  have hparams : ∀ c ∈ [0x33], isDigit c = true ∨ c = 0x3b := by decide
  exact (oneSpecialKey_iff rfl hparams (by decide)).mpr ⟨by decide, fun _ => by decide⟩

/-- The right arrow with control, as xterm sends it, is three keys, and the last two are characters. -/
theorem not_oneSpecialKey : ¬TTYInput.init.OneSpecialKey [keyEsc, 0x5b, 0x31, 0x3b, 0x35, 0x43] := by
  rintro ⟨s', key, h, -, -⟩
  have hrun : (TTYInput.init.ttyRead .latin1 [keyEsc, 0x5b, 0x31, 0x3b, 0x35, 0x43]).map (·.2) =
      some [none, none, none, some 0xe13b, some 0x35, some 0x43] := by decide +kernel
  rw [h] at hrun
  cases hrun

end TTYInput

end Hoe
