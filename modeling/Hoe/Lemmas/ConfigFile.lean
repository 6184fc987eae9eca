import Hoe.ConfigFile

/-!
# Reading configuration lines

The scanners of a configuration line are local. What each one finds is what the shape of a line says, and one that reads past the end
of a line, which is a zero, has met the backslash in front of it.
-/

namespace Hoe

open Prompts Scanner

namespace ConfigFile

/-! ## Locality -/

/-- Each of the parsers looks only at what it takes and at the byte behind that, also the one that skips blanks. -/
theorem local_skipSpaces : Local .past skipSpaces :=
  (local_spanWhile _).bind fun _ => local_pure _

/-- A word is read up to one of the bytes that stop it. -/
theorem local_getStr (bufSize : Nat) (stop : List Byte) : Local .past (getStr bufSize stop) :=
  (local_spanWhile _).bind fun _ => local_pure _

theorem local_strtolBase : Local .past strtolBase :=
  (local_peekAt 0).bind fun _ => .ite (fun _ => local_pure _) fun _ =>
    (local_peekAt 1).bind fun _ => .ite (fun _ => local_pure _) fun _ =>
      (local_peekAt 2).bind fun _ => .ite (fun _ => (local_advance 2).bind fun _ => local_pure _) fun _ => local_pure _

theorem local_strtolSign : Local .past strtolSign :=
  (local_peekAt 0).bind fun _ => .ite (fun _ => (local_advance 1).bind fun _ => local_pure _) fun _ =>
    .ite (fun _ => (local_advance 1).bind fun _ => local_pure _) fun _ => local_pure _

theorem local_strtolNumber : Local .past strtolNumber :=
  (local_spanWhile _).bind fun _ => local_strtolSign.bind fun _ => local_strtolBase.bind fun _ =>
    (local_spanWhile _).bind fun _ => local_pure _

/-- A number, with its sign and its base. -/
theorem local_strtol : Local .past strtol := local_strtolNumber.attempt.bind fun _ => local_pure _

/-- A string ends at a quote or at the end of the line. -/
theorem getString_stop {c : Byte} (hc : c = 0x22 ∨ c = 0) (p : List Byte) : getString (c :: p) = .ok ([], c :: p) := by
  cases p <;> simp only [getString, if_pos hc]

/-- A backslash stands for the character that it makes of the next byte. -/
theorem getString_escape (c : Byte) (p : List Byte) :
    getString (0x5c :: c :: p) = (getString p).map fun r => (unescape c :: r.1, r.2) := by
  simp [getString]

/-- Any other byte stands for itself. -/
theorem getString_char {c : Byte} (hstop : ¬ (c = 0x22 ∨ c = 0)) (hbackslash : c ≠ 0x5c) (p : List Byte) :
    getString (c :: p) = (getString p).map fun r => (c :: r.1, r.2) := by
  cases p <;> simp only [getString, if_neg hstop, if_neg hbackslash]

theorem local_getString : Local .past getString := by
  intro m rest h
  fun_induction getString m with
  | case1 => exact absurd rfl h
  | case2 c p hc =>
    rw [List.cons_append, getString_stop hc]
    rfl
  | case3 => exact absurd rfl h
  | case4 c p _ ih =>
    have hp : getString p ≠ .error .past := by
      intro hp
      rw [hp] at h
      exact h rfl
    rw [List.cons_append, List.cons_append, getString_escape, ih hp]
    cases getString p <;> rfl
  | case5 c p hc hb ih =>
    have hp : getString p ≠ .error .past := by
      intro hp
      rw [hp] at h
      exact h rfl
    rw [List.cons_append, getString_char hc hb, ih hp]
    cases getString p <;> rfl

theorem local_separator (first : Bool) : Local .past (separator first) :=
  local_skipSpaces.bind fun _ => .ite (fun _ => local_pure _) fun _ => (local_expect _ _).bind fun _ => local_skipSpaces

/-- An argument is a number or a string. -/
theorem local_parseLineArg (type : Byte) : Local .past (parseLineArg type) :=
  .ite (fun _ => local_strtol.bind fun _ => local_pure _) fun _ =>
    (local_expect _ _).bind fun _ => local_getString.bind fun _ => (local_skipIf _).bind fun _ => local_pure _

/-- The arguments of a call, with the parentheses and the commas. -/
theorem local_parseLineArgs (d : ConfigCmd) (first : Bool) (types : List Byte) : Local .past (parseLineArgs d first types) := by
  induction types generalizing first with
  | nil => exact local_skipSpaces.bind fun _ => (local_expect _ _).bind fun _ => local_pure _
  | cons type types ih =>
    unfold parseLineArgs
    cases pseudoArg d type with
    | some arg => exact (ih first).bind fun _ => local_pure _
    | none => exact (local_separator first).bind fun _ => (local_parseLineArg type).bind fun _ => (ih false).bind fun _ => local_pure _

/-- A call of a command. -/
theorem local_parseCall (s : WindowPtr) (d : ConfigCmd) : Local .past (parseCall s d) := by
  refine local_skipSpaces.bind fun _ => (local_expect _ _).bind fun _ => ?_
  cases argTypes (maxCmdArgs - 1) d.ptype with
  | none => exact local_throw _
  | some types => exact (local_skipIf _).bind fun _ => (local_parseLineArgs d true types).bind fun _ => local_pure _

theorem local_isBlank : Local .past isBlank :=
  (local_peekAt 0).bind fun _ => .ite (fun _ => local_pure _) fun _ =>
    .ite (fun _ => (local_peekAt 1).bind fun _ => local_pure _) fun _ => local_pure _

/-- A whole line. -/
theorem local_parseLine (cmds : List ConfigCmd) (s : WindowPtr) : Local .past (parseLine cmds s) := by
  refine local_skipSpaces.bind fun _ => local_isBlank.bind fun _ => .ite (fun _ => local_throw _) fun _ =>
    (local_getStr _ _).bind fun cmd => ?_
  unfold callNamed
  cases qeFindCmd cmds (hyphened cmd) with
  | none => exact local_throw _
  | some d => exact local_parseCall s d

/-! ## Spaces -/

variable {m m' rest : List Byte}

/-- The blanks are skipped just up to the first byte that is none. -/
theorem skipSpaces_eq_ok {u : Unit} :
    skipSpaces m = .ok (u, m') ↔ ∃ sp, m = sp ++ m' ∧ Spaces sp ∧ ∃ c cells, m' = c :: cells ∧ cssIsSpace c = false := by
  unfold skipSpaces
  rw [bind_eq_ok]
  constructor
  · rintro ⟨sp, m'', hspan, h⟩
    cases h
    exact ⟨sp, spanWhile_eq_ok.1 hspan⟩
  · rintro ⟨sp, hsp⟩
    exact ⟨sp, m', spanWhile_eq_ok.2 hsp, rfl⟩

/-- Spaces in front of what is scanned make no difference. -/
theorem skipSpaces_append {sp : List Byte} (h : Spaces sp) (m : List Byte) : skipSpaces (sp ++ m) = skipSpaces m :=
  spanWhile_bind_append h _ m

theorem skipSpaces_cons {c : Byte} (hc : cssIsSpace c = false) (m : List Byte) : skipSpaces (c :: m) = .ok ((), c :: m) :=
  skipSpaces_eq_ok.2 ⟨[], rfl, by simp [Spaces], c, m, rfl, hc⟩

theorem spares_skipSpaces {z : Byte} (hz : cssIsSpace z = false) : Spares z skipSpaces := (spares_spanWhile hz).bind fun _ => spares_pure _

/-- In front of the zero, something is left behind the spaces. -/
theorem skipSpaces_zero (l : List Byte) : ∃ sp l', l = sp ++ l' ∧ Spaces sp ∧ skipSpaces (l ++ [0]) = .ok ((), l' ++ [0]) := by
  obtain ⟨u, m', hskip, hm'⟩ := @spares_skipSpaces 0 rfl (l ++ [0]) (by simp)
  obtain ⟨sp, hm, hsp, -⟩ := skipSpaces_eq_ok.1 hskip
  obtain ⟨l', rfl, hl⟩ := append_sentinel hm (List.ne_nil_of_mem hm')
  exact ⟨sp, l', hl, hsp, hskip⟩

/-! ## Integers -/

/-- A sign is taken away, if there is one. -/
theorem strtolSign_cons (c : Byte) (p : List Byte) :
    strtolSign (c :: p) = .ok (if c = 0x2d then (-1, p) else if c = 0x2b then (1, p) else (1, c :: p)) := by
  unfold strtolSign current
  rw [bind_of_ok (peekAt_eq_ok.2 ⟨rfl, rfl⟩)]
  split_ifs <;> rfl

/-- A number that does not begin with a zero is decimal. -/
theorem strtolBase_decimal {c : Byte} (hc : c ≠ 0x30) (p : List Byte) : strtolBase (c :: p) = .ok (10, c :: p) := by
  unfold strtolBase current
  rw [bind_of_ok (peekAt_eq_ok.2 ⟨rfl, rfl⟩), if_pos hc]
  rfl

/-- A zero makes it octal, and stays. -/
theorem strtolBase_zero {x : Byte} (hx : x ≠ 0x78 ∧ x ≠ 0x58) (p : List Byte) :
    strtolBase (0x30 :: x :: p) = .ok (8, 0x30 :: x :: p) := by
  unfold strtolBase current
  rw [bind_of_ok (peekAt_eq_ok.2 ⟨rfl, rfl⟩), if_neg (not_not.2 rfl), bind_of_ok (peekAt_eq_ok.2 ⟨rfl, rfl⟩), if_pos hx]
  rfl

/-- A zero and an x make it hexadecimal where a digit follows. -/
theorem strtolBase_x {x : Byte} (hx : x = 0x78 ∨ x = 0x58) (d : Byte) (p : List Byte) :
    strtolBase (0x30 :: x :: d :: p) = .ok (if isDigitOf 16 d then (16, d :: p) else (8, 0x30 :: x :: d :: p)) := by
  have hx' : ¬ (x ≠ 0x78 ∧ x ≠ 0x58) := fun h => hx.elim h.1 h.2
  unfold strtolBase current
  rw [bind_of_ok (peekAt_eq_ok.2 ⟨rfl, rfl⟩), if_neg (not_not.2 rfl), bind_of_ok (peekAt_eq_ok.2 ⟨rfl, rfl⟩), if_neg hx',
    bind_of_ok (peekAt_eq_ok.2 ⟨rfl, rfl⟩)]
  split_ifs <;> rfl

theorem spares_strtolSign : Spares 0 strtolSign := by
  intro m hm
  cases m with
  | nil => nomatch hm
  | cons c p =>
    rw [strtolSign_cons]
    have hp : c ≠ 0 → 0 ∈ p := fun hc => (List.mem_cons.1 hm).resolve_left fun h => hc h.symm
    split_ifs with hminus hplus
    · exact ⟨-1, p, rfl, hp (hminus ▸ by decide)⟩
    · exact ⟨1, p, rfl, hp (hplus ▸ by decide)⟩
    · exact ⟨1, c :: p, rfl, hm⟩

/-- The base of a number that a zero stands behind, and what says that it is hexadecimal. -/
theorem strtolBase_of_mem (hm : 0 ∈ m) : ∃ base m', strtolBase m = .ok (base, m') ∧ 0 ∈ m' ∧
    (base = 10 ∧ m' = m ∧ m.head? ≠ some 0x30 ∨ base = 8 ∧ m' = m ∧ m.head? = some 0x30 ∨
      base = 16 ∧ ∃ x, (x = 0x78 ∨ x = 0x58) ∧ m = 0x30 :: x :: m') := by
  cases m with
  | nil => nomatch hm
  | cons c p =>
    by_cases hc : c = 0x30
    · subst hc
      have hp : 0 ∈ p := (List.mem_cons.1 hm).resolve_left (by decide)
      cases p with
      | nil => nomatch hp
      | cons x p =>
        by_cases hx : x = 0x78 ∨ x = 0x58
        · have hp : 0 ∈ p := (List.mem_cons.1 hp).resolve_left fun h => by rcases hx with rfl | rfl <;> nomatch h
          cases p with
          | nil => nomatch hp
          | cons d p =>
            rw [strtolBase_x hx]
            split_ifs
            · exact ⟨16, d :: p, rfl, hp, .inr (.inr ⟨rfl, x, hx, rfl⟩)⟩
            · exact ⟨8, _, rfl, hm, .inr (.inl ⟨rfl, rfl, rfl⟩)⟩
        · exact ⟨8, _, strtolBase_zero (not_or.1 hx) p, hm, .inr (.inl ⟨rfl, rfl, rfl⟩)⟩
    · exact ⟨10, _, strtolBase_decimal hc p, hm, .inl ⟨rfl, rfl, fun h => hc (Option.some.inj h)⟩⟩

/-- Digits of a base that was found are a number. -/
theorem numeral_of_base {base : Nat} {m₂ m₃ m₄ s : List Byte} (hne : s ≠ []) (hm₃ : m₃ = s ++ m₄) (hdigits : ∀ d ∈ s, isDigitOf base d = true)
    (hcase : base = 10 ∧ m₃ = m₂ ∧ m₂.head? ≠ some 0x30 ∨ base = 8 ∧ m₃ = m₂ ∧ m₂.head? = some 0x30 ∨
      base = 16 ∧ ∃ x, (x = 0x78 ∨ x = 0x58) ∧ m₂ = 0x30 :: x :: m₃) :
    ∃ t, m₂ = t ++ m₄ ∧ Numeral t (numberOf base s) := by
  subst hm₃
  have hhead : (s ++ m₄).head? = s.head? := List.head?_append_of_ne_nil s hne
  rcases hcase with ⟨rfl, rfl, h⟩ | ⟨rfl, rfl, h⟩ | ⟨rfl, x, hx, rfl⟩
  · exact ⟨s, rfl, .decimal hne (hhead ▸ h) hdigits⟩
  · exact ⟨s, rfl, .octal (hhead ▸ h) hdigits⟩
  · exact ⟨0x30 :: x :: s, rfl, .hexadecimal hx hne hdigits⟩

/-- A number that a zero stands behind. -/
theorem strtolNumber_of_mem (hm : 0 ∈ m) : ∃ n m', strtolNumber m = .ok (n, m') ∧ 0 ∈ m' ∧
    ∀ v, n = some v → ∃ blank s k, m = blank ++ s ++ m' ∧ (∀ c ∈ blank, isspace c = true) ∧ Integer s k ∧ v = clampLong k := by
  obtain ⟨blank, m₁, hblank, hm₁⟩ : ∃ blank m₁, spanWhile LineError.past isspace m = .ok (blank, m₁) ∧ 0 ∈ m₁ := spares_spanWhile rfl m hm
  obtain ⟨hm_eq, hspace, -⟩ := spanWhile_eq_ok.1 hblank
  obtain ⟨sign, m₂, hsign, hm₂⟩ := spares_strtolSign m₁ hm₁
  obtain ⟨base, m₃, hbase, hm₃, hcase⟩ := strtolBase_of_mem hm₂
  obtain ⟨s, m₄, hdigits, hm₄⟩ : ∃ s m₄, spanWhile LineError.past (isDigitOf base) m₃ = .ok (s, m₄) ∧ 0 ∈ m₄ := spares_spanWhile rfl m₃ hm₃
  obtain ⟨hm₃_eq, hdigit, -⟩ := spanWhile_eq_ok.1 hdigits
  refine ⟨if s = [] then none else some (clampLong (sign * numberOf base s)), m₄, ?_, hm₄, ?_⟩
  · unfold strtolNumber
    rw [bind_of_ok hblank, bind_of_ok hsign, bind_of_ok hbase, bind_of_ok hdigits]
    rfl
  · intro v hv
    split_ifs at hv with hnil
    obtain rfl := Option.some.inj hv
    obtain ⟨t, hm₂_eq, hnum⟩ := numeral_of_base hnil hm₃_eq hdigit hcase
    cases m₁ with
    | nil => nomatch hm₁
    | cons c p =>
      rw [strtolSign_cons] at hsign
      split_ifs at hsign with hminus hplus <;> obtain ⟨rfl, rfl⟩ := Prod.mk.inj (Except.ok.inj hsign)
      · refine ⟨blank, c :: t, -(numberOf base s), ?_, hspace, hminus ▸ .minus hnum, by rw [neg_one_mul]⟩
        rw [hm_eq, hm₂_eq, List.append_assoc, List.cons_append]
      · refine ⟨blank, c :: t, numberOf base s, ?_, hspace, hplus ▸ .plus hnum, by rw [one_mul]⟩
        rw [hm_eq, hm₂_eq, List.append_assoc, List.cons_append]
      · refine ⟨blank, t, numberOf base s, ?_, hspace, .unsigned hnum, by rw [one_mul]⟩
        rw [hm_eq, hm₂_eq, List.append_assoc]

/-- What stands behind an argument. -/
def Ends (m : List Byte) : Prop := ∃ sp c p, m = sp ++ c :: p ∧ Spaces sp ∧ (c = 0x2c ∨ c = 0x29)

/-- What ends an argument is a blank, a comma or a parenthesis. -/
theorem Ends.head (h : Ends m) : ∃ c p, m = c :: p ∧ (cssIsSpace c = true ∨ c = 0x2c ∨ c = 0x29) := by
  obtain ⟨sp, c, p, rfl, hsp, hc⟩ := h
  cases sp with
  | nil => exact ⟨c, p, rfl, .inr hc⟩
  | cons d sp => exact ⟨d, sp ++ c :: p, rfl, .inl (hsp d (by simp))⟩

theorem toHex_end {c : Byte} (h : cssIsSpace c = true ∨ c = 0x2c ∨ c = 0x29) : toHex c = none := by
  unfold cssIsSpace at h
  unfold toHex
  grind

/-- The digits of a number, up to its end. -/
theorem spanWhile_digits {base : Nat} {s : List Byte} (hdigits : ∀ d ∈ s, isDigitOf base d = true) (hend : Ends m) :
    spanWhile LineError.past (isDigitOf base) (s ++ m) = .ok (s, m) := by
  obtain ⟨c, p, rfl, hc⟩ := hend.head
  refine spanWhile_eq_ok.2 ⟨rfl, hdigits, c, p, rfl, ?_⟩
  rw [isDigitOf, toHex_end hc]
  rfl

/-- A digit is nothing else that `strtol` looks for. -/
theorem isDigitOf_bound {c : Byte} {base : Nat} (h : isDigitOf base c = true) :
    isspace c = false ∧ c ≠ 0x2d ∧ c ≠ 0x2b ∧ c ≠ 0 ∧ c ≠ 0x78 ∧ c ≠ 0x58 := by
  unfold isDigitOf toHex at h
  unfold isspace
  grind

/-- The digits of a number, and its base. -/
theorem strtolBase_numeral {t : List Byte} {n : Nat} (h : Numeral t n) (hend : Ends m) :
    ∃ base m' s, strtolBase (t ++ m) = .ok (base, m') ∧ spanWhile LineError.past (isDigitOf base) m' = .ok (s, m) ∧ s ≠ [] ∧
      numberOf base s = n := by
  cases h with
  | decimal hne hhead hdigits =>
    cases t with
    | nil => exact absurd rfl hne
    | cons c p =>
      have hc : c ≠ 0x30 := fun hc => hhead (congrArg some hc)
      exact ⟨10, _, _, strtolBase_decimal hc _, spanWhile_digits hdigits hend, hne, rfl⟩
  | octal hhead hdigits =>
    cases t with
    | nil => nomatch hhead
    | cons c p =>
      obtain rfl := Option.some.inj hhead
      have hbase : strtolBase (0x30 :: p ++ m) = .ok (8, 0x30 :: p ++ m) := by
        cases p with
        | nil =>
          obtain ⟨c, p, rfl, hc⟩ := hend.head
          refine strtolBase_zero ?_ p
          constructor <;> (rintro rfl; revert hc; decide)
        | cons x p =>
          obtain ⟨-, -, -, -, hx⟩ := isDigitOf_bound (hdigits x (by simp))
          exact strtolBase_zero hx _
      exact ⟨8, _, _, hbase, spanWhile_digits hdigits hend, by simp, rfl⟩
  | hexadecimal hx hne hdigits =>
    rename_i x s
    cases s with
    | nil => exact absurd rfl hne
    | cons d s =>
      refine ⟨16, d :: s ++ m, d :: s, ?_, spanWhile_digits hdigits hend, hne, rfl⟩
      have hd := hdigits d (by simp)
      rw [List.cons_append, List.cons_append, List.cons_append, strtolBase_x hx, if_pos hd]

/-- The first digit of a number. -/
theorem numeral_head {t : List Byte} {n : Nat} (h : Numeral t n) : ∃ c p base, t = c :: p ∧ isDigitOf base c = true := by
  cases h with
  | decimal hne hhead hdigits =>
    cases t with
    | nil => exact absurd rfl hne
    | cons c p => exact ⟨c, p, 10, rfl, hdigits c (by simp)⟩
  | octal hhead hdigits =>
    cases t with
    | nil => nomatch hhead
    | cons c p => exact ⟨c, p, 8, rfl, hdigits c (by simp)⟩
  | hexadecimal hx hne hdigits => exact ⟨0x30, _, 8, rfl, rfl⟩

/-- The first character of an integer. -/
theorem integer_head {s : List Byte} {k : Int} (h : Integer s k) :
    ∃ c p, s = c :: p ∧ (c = 0x2b ∨ c = 0x2d ∨ ∃ base, isDigitOf base c = true) := by
  cases h with
  | unsigned h =>
    obtain ⟨c, p, base, rfl, hc⟩ := numeral_head h
    exact ⟨c, p, rfl, .inr (.inr ⟨base, hc⟩)⟩
  | plus h => exact ⟨_, _, rfl, .inl rfl⟩
  | minus h => exact ⟨_, _, rfl, .inr (.inl rfl)⟩

/-- White space in front of a number makes no difference. -/
theorem strtolNumber_append {blank : List Byte} (h : ∀ c ∈ blank, isspace c = true) (m : List Byte) :
    strtolNumber (blank ++ m) = strtolNumber m := spanWhile_bind_append h _ m

/-- A number that a sign was taken from. -/
theorem strtolNumber_sign {c : Byte} {p : List Byte} (hc : isspace c = false) {sign : Int} {t : List Byte} {n : Nat}
    (hsign : strtolSign (c :: p) = .ok (sign, t ++ m)) (h : Numeral t n) (hend : Ends m) :
    strtolNumber (c :: p) = .ok (some (clampLong (sign * n)), m) := by
  obtain ⟨base, m', s, hbase, hdigits, hne, rfl⟩ := strtolBase_numeral h hend
  unfold strtolNumber
  rw [bind_of_ok (spanWhile_eq_ok.2 ⟨(List.nil_append (c :: p)).symm, by simp, c, p, rfl, hc⟩), bind_of_ok hsign, bind_of_ok hbase,
    bind_of_ok hdigits, if_neg hne]
  rfl

/-- A number in front of its end. -/
theorem strtolNumber_integer {s : List Byte} {k : Int} (h : Integer s k) (hend : Ends m) :
    strtolNumber (s ++ m) = .ok (some (clampLong k), m) := by
  cases h with
  | unsigned h =>
    obtain ⟨c, p, base, rfl, hc⟩ := numeral_head h
    obtain ⟨hspace, hminus, hplus, -⟩ := isDigitOf_bound hc
    have hsign : strtolSign (c :: (p ++ m)) = .ok (1, c :: p ++ m) := by
      rw [strtolSign_cons, if_neg hminus, if_neg hplus]
      rfl
    rw [List.cons_append, strtolNumber_sign hspace hsign h hend, one_mul]
  | @plus t n h =>
    have hsign := strtolSign_cons 0x2b (t ++ m)
    rw [List.cons_append, strtolNumber_sign rfl hsign h hend, one_mul]
  | @minus t n h =>
    have hsign := strtolSign_cons 0x2d (t ++ m)
    rw [List.cons_append, strtolNumber_sign rfl hsign h hend, neg_one_mul]

/-- `strtol` on a number. -/
theorem strtol_number {k : Int} (h : strtolNumber m = .ok (some k, m')) : strtol m = .ok (k, m') := by
  unfold strtol
  rw [bind_of_ok (by rw [attempt, h])]
  rfl

/-- `strtol` where there is no number. -/
theorem strtol_missing {c : Byte} (hc : c = 0x2c ∨ c = 0x29) (p : List Byte) : strtol (c :: p) = .ok (0, c :: p) := by
  have hspace : spanWhile LineError.past isspace (c :: p) = .ok ([], c :: p) := by
    refine spanWhile_eq_ok.2 ⟨rfl, by simp, c, p, rfl, ?_⟩
    rcases hc with rfl | rfl <;> rfl
  have hsign : strtolSign (c :: p) = .ok (1, c :: p) := by
    rw [strtolSign_cons]
    rcases hc with rfl | rfl <;> rfl
  have hbase : strtolBase (c :: p) = .ok (10, c :: p) := by
    refine strtolBase_decimal ?_ p
    rcases hc with rfl | rfl <;> decide
  have hdigits : spanWhile LineError.past (isDigitOf 10) (c :: p) = .ok ([], c :: p) := by
    have hnone : ∀ d ∈ ([] : List Byte), isDigitOf 10 d = true := by simp
    exact spanWhile_digits hnone ⟨[], c, p, rfl, by simp [Spaces], hc⟩
  have hnumber : strtolNumber (c :: p) = .ok (none, c :: p) := by
    unfold strtolNumber
    rw [bind_of_ok hspace, bind_of_ok hsign, bind_of_ok hbase, bind_of_ok hdigits, if_pos rfl]
    rfl
  unfold strtol
  rw [bind_of_ok (by rw [attempt, hnumber])]
  rfl

/-- `strtol` in front of the zero. -/
theorem strtol_zero (l : List Byte) : ∃ s k l', l = s ++ l' ∧ strtol (l ++ [0]) = .ok (clampLong k, l' ++ [0]) ∧
    Argument true 0x69 s (.int (some k)) := by
  obtain ⟨n, m', hnumber, hm', hspell⟩ := strtolNumber_of_mem (m := l ++ [0]) (by simp)
  cases n with
  | none =>
    refine ⟨[], 0, l, rfl, ?_, .missing rfl⟩
    unfold strtol
    rw [bind_of_ok (by rw [attempt, hnumber])]
    rfl
  | some v =>
    obtain ⟨blank, s, k, hm, hblank, hk, rfl⟩ := hspell v rfl
    obtain ⟨l', rfl, hl⟩ := append_sentinel hm (List.ne_nil_of_mem hm')
    refine ⟨blank ++ s, k, l', hl, ?_, .int hblank hk⟩
    unfold strtol
    rw [bind_of_ok (by rw [attempt, hnumber])]
    rfl

/-! ## Strings -/

/-- A string, up to the quotation mark behind it or up to a backslash at the end. -/
theorem getString_append {s str : List Byte} (h : Quoted s str) (hzero : 0 ∉ s) (m : List Byte) :
    getString (s ++ m) = (getString m).map fun r => (str ++ r.1, r.2) := by
  induction h with
  | nil =>
    rw [List.nil_append]
    cases getString m <;> rfl
  | char hquote hbackslash hs ih =>
    obtain ⟨hc, hzero⟩ := not_or.1 (fun h => hzero (List.mem_cons.2 h))
    rw [List.cons_append, getString_char (not_or.2 ⟨hquote, fun h => hc h.symm⟩) hbackslash, ih hzero]
    cases getString m <;> rfl
  | escape hs ih =>
    have hzero : 0 ∉ _ := fun h => hzero (List.mem_cons_of_mem _ (List.mem_cons_of_mem _ h))
    rw [List.cons_append, List.cons_append, getString_escape, ih hzero]
    cases getString m <;> rfl

/-- What the loop over a string comes to in front of the zero: only a backslash leads past the end. -/
def StringEnd (l : List Byte) : Prop :=
  (∃ s str, l = s ++ [0x5c] ∧ Quoted s str ∧ getString (l ++ [0]) = .error .past) ∨
    ∃ s str l', l = s ++ l' ∧ Quoted s str ∧ getString (l ++ [0]) = .ok (str, l' ++ [0]) ∧ (l' = [] ∨ l'.head? = some 0x22)

/-- Two quoted texts one after the other. -/
theorem Quoted.append {s s' str str' : List Byte} (h : Quoted s str) (h' : Quoted s' str') : Quoted (s ++ s') (str ++ str') := by
  induction h with
  | nil => exact h'
  | char hquote hbackslash _ ih => exact .char hquote hbackslash ih
  | escape _ ih => exact .escape ih

/-- What stands in front makes no difference. -/
theorem StringEnd.append {l s str : List Byte} (hs : Quoted s str) (hzero : 0 ∉ s) (h : StringEnd l) : StringEnd (s ++ l) := by
  have hget := getString_append hs hzero (l ++ [0])
  rw [← List.append_assoc] at hget
  rcases h with ⟨s', str', rfl, hs', hpast⟩ | ⟨s', str', l', rfl, hs', hok, hl'⟩
  · refine .inl ⟨s ++ s', str ++ str', (List.append_assoc _ _ _).symm, hs.append hs', ?_⟩
    rw [hget, hpast]
    rfl
  · refine .inr ⟨s ++ s', str ++ str', l', (List.append_assoc _ _ _).symm, hs.append hs', ?_, hl'⟩
    rw [hget, hok]
    rfl

theorem stringEnd_nil : StringEnd [] := .inr ⟨[], [], [], rfl, .nil, rfl, .inl rfl⟩

theorem stringEnd_quote (l : List Byte) : StringEnd (0x22 :: l) :=
  .inr ⟨[], [], 0x22 :: l, rfl, .nil, getString_stop (.inl rfl) _, .inr rfl⟩

theorem stringEnd {l : List Byte} (hzero : 0 ∉ l) : StringEnd l := by
  induction l using List.twoStepInduction with
  | nil => exact stringEnd_nil
  | singleton c =>
    by_cases hquote : c = 0x22
    · exact hquote ▸ stringEnd_quote []
    by_cases hbackslash : c = 0x5c
    · exact hbackslash ▸ .inl ⟨[], [], rfl, .nil, rfl⟩
    exact stringEnd_nil.append (.char hquote hbackslash .nil) hzero
  | cons_cons c e l ih ih' =>
    by_cases hquote : c = 0x22
    · exact hquote ▸ stringEnd_quote (e :: l)
    by_cases hbackslash : c = 0x5c
    · have hl : StringEnd l := ih fun h => hzero (List.mem_cons_of_mem _ (List.mem_cons_of_mem _ h))
      have hpair : 0 ∉ [0x5c, e] := fun h => hzero (by simp_all)
      exact hbackslash ▸ hl.append (.escape .nil) hpair
    have hl : StringEnd (e :: l) := ih' e fun h => hzero (List.mem_cons_of_mem _ h)
    have hc : 0 ∉ [c] := fun h => hzero (by simp_all)
    exact hl.append (.char hquote hbackslash .nil) hc

/-! ## Arguments -/

/-- What is passed for an argument: an integer is brought into a `long` and then into an `int`, and a string into its array. -/
def passed : CmdArg → CmdArg
  | .int (some n) => .int (some (wrapInt (clampLong n)))
  | .string (some str) => .string (some ((str.take 1023).takeWhile (· != 0)))
  | arg => arg

/-- An argument that is not in the file is passed as it is. -/
theorem passed_pseudoArg {d : ConfigCmd} {type : Byte} {arg : CmdArg} (h : pseudoArg d type = some arg) : passed arg = arg := by
  unfold pseudoArg at h
  split_ifs at h <;> cases h <;> rfl

/-- The letters of the types of arguments. -/
theorem mem_argTypes {n : Nat} {ptype types : List Byte} (h : argTypes n ptype = some types) : ∀ type ∈ types, type ∈ cstr "visS" := by
  induction n generalizing ptype types with
  | zero =>
    cases ptype with
    | nil =>
      cases h
      simp
    | cons c r => nomatch h
  | succ n ih =>
    cases ptype with
    | nil =>
      cases h
      simp
    | cons c r =>
      obtain ⟨parsed, hparsed, htypes⟩ := Option.bind_eq_some_iff.1 h
      obtain ⟨types, hrest, rfl⟩ := Option.map_eq_some_iff.1 htypes
      refine List.forall_mem_cons.2 ⟨?_, ih hrest⟩
      unfold parseArg at hparsed
      simp only at hparsed
      split_ifs at hparsed with hmem
      cases hparsed
      exact hmem

/-- What stands in front of an argument is passed, with the spaces of the argument. -/
theorem separator_append {first : Bool} {sep : List Byte} (h : Separator first sep) (m : List Byte) :
    separator first (sep ++ m) = skipSpaces m := by
  cases h with
  | first h =>
    unfold separator
    simp only [if_true, bind_pure_unit, skipSpaces_append h]
  | @next sp sp' h h' =>
    have hskip : skipSpaces (sp ++ 0x2c :: sp' ++ m) = .ok ((), 0x2c :: (sp' ++ m)) := by
      rw [List.append_assoc, skipSpaces_append h, List.cons_append, skipSpaces_cons rfl]
    have hcomma : expect LineError.past (.expected 0x2c) 0x2c (0x2c :: (sp' ++ m)) = .ok ((), sp' ++ m) := expect_eq_ok.2 rfl
    unfold separator
    rw [bind_of_ok hskip, if_neg Bool.false_ne_true, bind_of_ok hcomma, skipSpaces_append h']

/-- In front of the zero. -/
theorem separator_zero (first : Bool) (l : List Byte) :
    (∃ c, separator first (l ++ [0]) = .error (.expected c)) ∨
      ∃ sep l', l = sep ++ l' ∧ Separator first sep ∧ separator first (l ++ [0]) = .ok ((), l' ++ [0]) := by
  obtain ⟨sp, l₁, rfl, hsp, hskip⟩ := skipSpaces_zero l
  unfold separator
  rw [bind_of_ok hskip]
  cases first with
  | true => exact .inr ⟨sp, l₁, rfl, .first hsp, rfl⟩
  | false =>
    rw [if_neg Bool.false_ne_true]
    cases l₁ with
    | nil => exact .inl ⟨0x2c, bind_eq_error.2 (.inl rfl)⟩
    | cons c l₂ =>
      by_cases hc : c = 0x2c
      · subst hc
        obtain ⟨sp', l', rfl, hsp', hskip'⟩ := skipSpaces_zero l₂
        have hcomma : expect LineError.past (.expected 0x2c) 0x2c (0x2c :: (sp' ++ l') ++ [0]) = .ok ((), sp' ++ l' ++ [0]) := expect_eq_ok.2 rfl
        refine .inr ⟨sp ++ 0x2c :: sp', l', by simp, .next hsp hsp', ?_⟩
        rw [bind_of_ok hcomma, hskip']
      · refine .inl ⟨0x2c, bind_eq_error.2 (.inl ?_)⟩
        rw [List.cons_append, expect, if_neg hc]

/-! ## One argument -/

theorem parseLineArg_int : parseLineArg 0x69 = strtol >>= fun n => pure (.int (some (wrapInt n))) := rfl

theorem parseLineArg_string : parseLineArg 0x73 =
    expect .past .stringExpected 0x22 >>= fun _ => getString >>= fun str => skipIf .past 0x22 >>= fun _ =>
      pure (.string (some ((str.take 1023).takeWhile (· != 0)))) := rfl

theorem isspace_of_cssIsSpace {c : Byte} (h : cssIsSpace c = true) : isspace c = true := by
  unfold cssIsSpace at h
  unfold isspace
  grind

/-- An integer is found from behind the spaces in front of it on. -/
theorem strtol_integer {blank s : List Byte} {k : Int} (hblank : ∀ c ∈ blank, isspace c = true) (h : Integer s k) (hend : Ends m) :
    ∃ m₁, skipSpaces (blank ++ s ++ m) = .ok ((), m₁) ∧ strtol m₁ = .ok (clampLong k, m) := by
  have hnumber := strtolNumber_integer h hend
  rw [← strtolNumber_append hblank, ← List.append_assoc] at hnumber
  obtain ⟨c, p, rfl, hc⟩ := integer_head h
  have hspace : isspace c = false := by
    rcases hc with rfl | rfl | ⟨base, hc⟩
    · rfl
    · rfl
    · exact (isDigitOf_bound hc).1
  have hcss : cssIsSpace c = false := by
    by_contra hne
    rw [isspace_of_cssIsSpace (Bool.not_eq_false _ ▸ hne)] at hspace
    nomatch hspace
  obtain ⟨u, m₁, hskip, -⟩ := spares_skipSpaces hcss (blank ++ c :: p ++ m) (by simp)
  obtain ⟨sp, hm, hsp, -⟩ := skipSpaces_eq_ok.1 hskip
  rw [hm, strtolNumber_append fun d hd => isspace_of_cssIsSpace (hsp d hd)] at hnumber
  exact ⟨m₁, hskip, strtol_number hnumber⟩

/-- An argument of the line: it is passed from behind the spaces in front of it on, and where it is missing, the spaces behind it are
in front of it. -/
theorem parseLineArg_argument {loose : Bool} {type : Byte} {s : List Byte} {arg : CmdArg} (h : Argument loose type s arg) (hzero : 0 ∉ s)
    (hend : Ends m) :
    ∃ m₁ sp m₂, skipSpaces (s ++ m) = .ok ((), m₁) ∧ parseLineArg type m₁ = .ok (passed arg, m₂) ∧ m = sp ++ m₂ ∧ Spaces sp := by
  have hnil : Spaces [] := by simp [Spaces]
  cases h with
  | int hblank h =>
    obtain ⟨m₁, hskip, hnumber⟩ := strtol_integer hblank h hend
    refine ⟨m₁, [], m, hskip, ?_, rfl, hnil⟩
    rw [parseLineArg_int, bind_of_ok hnumber]
    rfl
  | missing =>
    obtain ⟨sp, c, p, rfl, hsp, hc⟩ := hend
    have hcss : cssIsSpace c = false := by rcases hc with rfl | rfl <;> rfl
    refine ⟨c :: p, sp, c :: p, ?_, ?_, rfl, hsp⟩
    · rw [List.nil_append, skipSpaces_append hsp, skipSpaces_cons hcss]
    · rw [parseLineArg_int, bind_of_ok (strtol_missing hc p)]
      rfl
  | @string q str h =>
    have hq : 0 ∉ q := fun hmem => hzero (by simp [hmem])
    have hget : getString (q ++ 0x22 :: m) = .ok (str, 0x22 :: m) := by
      rw [getString_append h hq, getString_stop (.inl rfl)]
      simp [Except.map]
    refine ⟨0x22 :: (q ++ 0x22 :: m), [], m, ?_, ?_, rfl, hnil⟩
    · rw [List.append_assoc, List.cons_append]
      exact skipSpaces_cons rfl _
    · have hquote : expect LineError.past .stringExpected 0x22 (0x22 :: (q ++ 0x22 :: m)) = .ok ((), q ++ 0x22 :: m) := expect_eq_ok.2 rfl
      have hclose : skipIf LineError.past 0x22 (0x22 :: m) = .ok ((), m) := rfl
      rw [parseLineArg_string, bind_of_ok hquote, bind_of_ok hget, bind_of_ok hclose]
      rfl

/-- What an argument comes to in front of the zero: an error, a string that is cut off, a string that is not ended, or an argument. -/
inductive ArgEnd (type : Byte) (l : List Byte) : Prop where
  | error (e : LineError) (he : e ≠ .past) (h : parseLineArg type (l ++ [0]) = .error e)
  | cut (s str : List Byte) (htype : type = 0x73) (hl : l = 0x22 :: s ++ [0x5c]) (hs : Quoted s str)
    (h : parseLineArg type (l ++ [0]) = .error .past)
  | unended (arg : CmdArg) (h : parseLineArg type (l ++ [0]) = .ok (arg, [0]))
  | found (s l' : List Byte) (arg : CmdArg) (hl : l = s ++ l') (harg : Argument true type s arg)
    (h : parseLineArg type (l ++ [0]) = .ok (passed arg, l' ++ [0]))

theorem argEnd_string {l : List Byte} (hzero : 0 ∉ l) : ArgEnd 0x73 (0x22 :: l) := by
  have hquote : expect LineError.past .stringExpected 0x22 (0x22 :: l ++ [0]) = .ok ((), l ++ [0]) := expect_eq_ok.2 rfl
  rcases stringEnd hzero with ⟨s, str, rfl, hs, hpast⟩ | ⟨s, str, l', rfl, hs, hok, hl'⟩
  · refine .cut s str rfl rfl hs ?_
    rw [parseLineArg_string, bind_of_ok hquote]
    exact bind_eq_error.2 (.inl hpast)
  · rcases hl' with rfl | hhead
    · refine .unended (.string (some ((str.take 1023).takeWhile (· != 0)))) ?_
      have hclose : skipIf LineError.past 0x22 ([] ++ [0]) = .ok ((), [0]) := rfl
      rw [parseLineArg_string, bind_of_ok hquote, bind_of_ok hok, bind_of_ok hclose]
      rfl
    · cases l' with
      | nil => nomatch hhead
      | cons c l' =>
        obtain rfl := Option.some.inj hhead
        have hclose : skipIf LineError.past 0x22 (0x22 :: l' ++ [0]) = .ok ((), l' ++ [0]) := rfl
        refine .found (0x22 :: s ++ [0x22]) l' (.string (some str)) (by simp) (.string hs) ?_
        rw [parseLineArg_string, bind_of_ok hquote, bind_of_ok hok, bind_of_ok hclose]
        rfl

/-- An argument of a line without a zero ends in it. -/
theorem argEnd {type : Byte} (htype : type = 0x69 ∨ type = 0x73) {l : List Byte} (hzero : 0 ∉ l) : ArgEnd type l := by
  rcases htype with rfl | rfl
  · obtain ⟨s, k, l', hl, hnumber, harg⟩ := strtol_zero l
    refine .found s l' _ hl harg ?_
    rw [parseLineArg_int, bind_of_ok hnumber]
    rfl
  · cases l with
    | nil => exact .error .stringExpected nofun rfl
    | cons c l =>
      by_cases hc : c = 0x22
      · subst hc
        exact argEnd_string fun h => hzero (List.mem_cons_of_mem _ h)
      · refine .error .stringExpected nofun ?_
        rw [parseLineArg_string]
        refine bind_eq_error.2 (.inl ?_)
        rw [List.cons_append, expect, if_neg hc]

/-! ## All arguments -/

/-- Behind the last argument there is a parenthesis. -/
theorem parseLineArgs_nil (d : ConfigCmd) (first : Bool) :
    parseLineArgs d first [] = skipSpaces >>= fun _ => expect .past (.expected 0x29) 0x29 >>= fun _ => pure [] := rfl

/-- An argument that is not in the file takes no text. -/
theorem parseLineArgs_pseudo {d : ConfigCmd} {type : Byte} {arg : CmdArg} (h : pseudoArg d type = some arg) (first : Bool) (types : List Byte) :
    parseLineArgs d first (type :: types) = parseLineArgs d first types >>= fun args => pure (arg :: args) := by
  rw [parseLineArgs, h]

/-- The others have a comma or the first parenthesis in front. -/
theorem parseLineArgs_real {d : ConfigCmd} {type : Byte} (h : pseudoArg d type = none) (first : Bool) (types : List Byte) :
    parseLineArgs d first (type :: types) =
      separator first >>= fun _ => parseLineArg type >>= fun arg => parseLineArgs d false types >>= fun args => pure (arg :: args) := by
  rw [parseLineArgs, h]

/-- A type that is read from the line. -/
theorem real_type {d : ConfigCmd} {type : Byte} (h : pseudoArg d type = none) (hmem : type ∈ cstr "visS") : type = 0x69 ∨ type = 0x73 := by
  have hletters : type = 0x76 ∨ type = 0x69 ∨ type = 0x73 ∨ type = 0x53 := by simpa [cstr] using hmem
  rcases hletters with rfl | rfl | rfl | rfl
  · nomatch h
  · exact .inl rfl
  · exact .inr rfl
  · nomatch h

/-- Spaces in front of the arguments make no difference. -/
theorem parseLineArgs_spaces {d : ConfigCmd} {first : Bool} {types sp : List Byte} (h : Spaces sp) (m : List Byte) :
    parseLineArgs d first types (sp ++ m) = parseLineArgs d first types m := by
  have hskip : ∀ {β : Type} (f : Scanner Byte LineError β), (skipSpaces >>= fun _ => f) (sp ++ m) = (skipSpaces >>= fun _ => f) m := by
    intro β f
    change Except.bind (skipSpaces (sp ++ m)) _ = Except.bind (skipSpaces m) _
    rw [skipSpaces_append h]
  induction types with
  | nil => exact hskip _
  | cons type types ih =>
    cases harg : pseudoArg d type with
    | some arg =>
      rw [parseLineArgs_pseudo harg]
      change Except.bind (parseLineArgs d first types (sp ++ m)) _ = Except.bind (parseLineArgs d first types m) _
      rw [ih]
    | none =>
      rw [parseLineArgs_real harg, separator, bind_assoc]
      exact hskip _

/-- Behind an argument stands the next one, or the parenthesis. -/
theorem Arguments.ends {loose : Bool} {d : ConfigCmd} {first : Bool} {types text : List Byte} {args : List CmdArg}
    (h : Arguments loose d first types text args) (hfirst : first = false) (rest : List Byte) : Ends (text ++ rest) := by
  induction h with
  | close h => exact ⟨_, 0x29, rest, List.append_assoc _ _ _, h, .inr rfl⟩
  | pseudo _ _ ih => exact ih hfirst
  | arg _ hsep _ _ _ =>
    cases hsep with
    | first => nomatch hfirst
    | @next sp sp' h _ => exact ⟨sp, 0x2c, _, by simp only [List.append_assoc, List.cons_append]; rfl, h, .inl rfl⟩

/-- The arguments of a line are found. -/
theorem parseLineArgs_arguments {loose : Bool} {d : ConfigCmd} {first : Bool} {types text : List Byte} {args : List CmdArg}
    (h : Arguments loose d first types text args) (hzero : 0 ∉ text) (rest : List Byte) :
    parseLineArgs d first types (text ++ rest) = .ok (args.map passed, rest) := by
  induction h with
  | @close _ sp h =>
    have hclose : expect LineError.past (.expected 0x29) 0x29 (0x29 :: rest) = .ok ((), rest) := expect_eq_ok.2 rfl
    have hskip : skipSpaces (sp ++ [0x29] ++ rest) = .ok ((), 0x29 :: rest) := by
      rw [List.append_assoc, skipSpaces_append h]
      exact skipSpaces_cons rfl _
    rw [parseLineArgs_nil, bind_of_ok hskip, bind_of_ok hclose]
    rfl
  | pseudo harg _ ih =>
    rw [parseLineArgs_pseudo harg, bind_of_ok (ih hzero), List.map_cons, passed_pseudoArg harg]
    rfl
  | @arg first' type types sep s text arg args hreal hsep harg hargs ih =>
    have hs : 0 ∉ s := fun h => hzero (by simp [h])
    have htext : 0 ∉ text := fun h => hzero (by simp [h])
    obtain ⟨m₁, sp, m₂, hskip, harg', hm, hsp⟩ := parseLineArg_argument harg hs (hargs.ends rfl rest)
    have hsep' : separator first' (sep ++ s ++ text ++ rest) = .ok ((), m₁) := by
      rw [List.append_assoc, List.append_assoc, separator_append hsep, hskip]
    have hargs' := ih htext
    rw [hm, parseLineArgs_spaces hsp] at hargs'
    rw [parseLineArgs_real hreal, bind_of_ok hsep', bind_of_ok harg', bind_of_ok hargs']
    rfl

/-- At the end of the line no argument follows, and no parenthesis. -/
theorem parseLineArgs_end (d : ConfigCmd) (types : List Byte) : ∃ c, parseLineArgs d false types [0] = .error (.expected c) := by
  induction types with
  | nil => exact ⟨0x29, rfl⟩
  | cons type types ih =>
    cases harg : pseudoArg d type with
    | some arg =>
      obtain ⟨c, hc⟩ := ih
      refine ⟨c, ?_⟩
      rw [parseLineArgs_pseudo harg]
      exact bind_eq_error.2 (.inl hc)
    | none =>
      refine ⟨0x2c, ?_⟩
      rw [parseLineArgs_real harg]
      exact bind_eq_error.2 (.inl rfl)

/-- What the arguments come to in front of the zero: an error, a string that is cut off, or all of them and the parenthesis. -/
inductive ArgsEnd (d : ConfigCmd) (first : Bool) (types l : List Byte) : Prop where
  | error (e : LineError) (he : e ≠ .past) (h : parseLineArgs d first types (l ++ [0]) = .error e)
  | cut (hl : CutArguments d first types l) (h : parseLineArgs d first types (l ++ [0]) = .error .past)
  | found (text l' : List Byte) (args : List CmdArg) (hl : l = text ++ l') (hargs : Arguments true d first types text args)
    (h : parseLineArgs d first types (l ++ [0]) = .ok (args.map passed, l' ++ [0]))

theorem argsEnd_nil (d : ConfigCmd) (first : Bool) (l : List Byte) : ArgsEnd d first [] l := by
  obtain ⟨sp, l₁, rfl, hsp, hskip⟩ := skipSpaces_zero l
  have herror : l₁.head? ≠ some 0x29 → ArgsEnd d first [] (sp ++ l₁) := by
    intro hhead
    refine .error (.expected 0x29) (by simp) ?_
    rw [parseLineArgs_nil, bind_of_ok hskip]
    refine bind_eq_error.2 (.inl ?_)
    cases l₁ with
    | nil => rfl
    | cons c l₁ =>
      have hc : c ≠ 0x29 := fun h => hhead (congrArg some h)
      rw [List.cons_append, expect, if_neg hc]
  cases l₁ with
  | nil => exact herror (by simp)
  | cons c l' =>
    by_cases hc : c = 0x29
    · subst hc
      have hclose : expect LineError.past (.expected 0x29) 0x29 (0x29 :: l' ++ [0]) = .ok ((), l' ++ [0]) := expect_eq_ok.2 rfl
      refine .found (sp ++ [0x29]) l' [] (by simp) (.close hsp) ?_
      rw [parseLineArgs_nil, bind_of_ok hskip, bind_of_ok hclose]
      rfl
    · exact herror fun h => hc (Option.some.inj h)

/-- The arguments of a line without a zero end in it. -/
theorem argsEnd {d : ConfigCmd} {first : Bool} {types l : List Byte} (htypes : ∀ type ∈ types, type ∈ cstr "visS") (hzero : 0 ∉ l) :
    ArgsEnd d first types l := by
  induction types generalizing first l with
  | nil => exact argsEnd_nil d first l
  | cons type types ih =>
    obtain ⟨htype, htypes⟩ := List.forall_mem_cons.1 htypes
    cases harg : pseudoArg d type with
    | some arg =>
      rcases ih htypes hzero with ⟨e, he, h⟩ | ⟨hl, h⟩ | ⟨text, l', args, rfl, hargs, h⟩
      · refine .error e he ?_
        rw [parseLineArgs_pseudo harg]
        exact bind_eq_error.2 (.inl h)
      · refine .cut (.pseudo harg hl) ?_
        rw [parseLineArgs_pseudo harg]
        exact bind_eq_error.2 (.inl h)
      · refine .found text l' (arg :: args) rfl (.pseudo harg hargs) ?_
        rw [parseLineArgs_pseudo harg, bind_of_ok h, List.map_cons, passed_pseudoArg harg]
        rfl
    | none =>
      rcases separator_zero first l with ⟨c, hsep⟩ | ⟨sep, l₁, rfl, hsep, hrun⟩
      · refine .error (.expected c) nofun ?_
        rw [parseLineArgs_real harg]
        exact bind_eq_error.2 (.inl hsep)
      have hl₁ : 0 ∉ l₁ := fun h => hzero (List.mem_append_right _ h)
      have hstep : parseLineArgs d first (type :: types) (sep ++ l₁ ++ [0]) =
          (parseLineArg type >>= fun arg => parseLineArgs d false types >>= fun args => pure (arg :: args)) (l₁ ++ [0]) := by
        rw [parseLineArgs_real harg, bind_of_ok hrun]
      rcases argEnd (real_type harg htype) hl₁ with ⟨e, he, h⟩ | ⟨s, str, rfl, rfl, hs, h⟩ | ⟨arg, h⟩ | ⟨s, l₂, arg, rfl, hs, h⟩
      · exact .error e he (hstep.trans (bind_eq_error.2 (.inl h)))
      · refine .cut ?_ (hstep.trans (bind_eq_error.2 (.inl h)))
        rw [← List.append_assoc]
        exact .here hsep hs
      · obtain ⟨c, hend⟩ := parseLineArgs_end d types
        refine .error (.expected c) nofun (hstep.trans ?_)
        rw [bind_of_ok h]
        exact bind_eq_error.2 (.inl hend)
      · have hl₂ : 0 ∉ l₂ := fun h => hl₁ (List.mem_append_right _ h)
        rw [bind_of_ok h] at hstep
        rcases ih htypes hl₂ with ⟨e, he, h⟩ | ⟨hcut, h⟩ | ⟨text, l', args, rfl, hargs, h⟩
        · exact .error e he (hstep.trans (bind_eq_error.2 (.inl h)))
        · refine .cut ?_ (hstep.trans (bind_eq_error.2 (.inl h)))
          rw [← List.append_assoc]
          exact .arg harg hsep hs hcut
        · rw [bind_of_ok h] at hstep
          exact .found (sep ++ s ++ text) l' (arg :: args) (by simp) (.arg harg hsep hs hargs) hstep

/-- What is cut short behind an argument ends that. -/
theorem CutArguments.ends {d : ConfigCmd} {first : Bool} {types text : List Byte} (h : CutArguments d first types text)
    (hfirst : first = false) (rest : List Byte) : Ends (text ++ rest) := by
  have hcomma : ∀ {first : Bool} {sep : List Byte}, Separator first sep → first = false → ∀ m, Ends (sep ++ m) := by
    intro first sep hsep hfirst m
    cases hsep with
    | first => nomatch hfirst
    | @next sp sp' h _ => exact ⟨sp, 0x2c, sp' ++ m, by simp, h, .inl rfl⟩
  induction h with
  | here hsep _ =>
    rw [List.append_assoc, List.append_assoc]
    exact hcomma hsep hfirst _
  | pseudo _ _ ih => exact ih hfirst
  | arg _ hsep _ _ _ =>
    rw [List.append_assoc, List.append_assoc]
    exact hcomma hsep hfirst _

/-- Arguments that are cut off lead past the end. -/
theorem parseLineArgs_cut {d : ConfigCmd} {first : Bool} {types l : List Byte} (h : CutArguments d first types l) (hzero : 0 ∉ l) :
    parseLineArgs d first types (l ++ [0]) = .error .past := by
  induction h with
  | @here first types sep s str hsep hs =>
    have hq : 0 ∉ s := fun hmem => hzero (by simp [hmem])
    have hsep' : separator first (sep ++ 0x22 :: s ++ [0x5c] ++ [0]) = .ok ((), 0x22 :: (s ++ [0x5c, 0])) := by
      rw [List.append_assoc, List.append_assoc, separator_append hsep]
      exact skipSpaces_cons rfl _
    have hquote : expect LineError.past .stringExpected 0x22 (0x22 :: (s ++ [0x5c, 0])) = .ok ((), s ++ [0x5c, 0]) := expect_eq_ok.2 rfl
    have hget : getString (s ++ [0x5c, 0]) = .error .past := by
      rw [getString_append hs hq]
      rfl
    have harg : parseLineArg 0x73 (0x22 :: (s ++ [0x5c, 0])) = .error .past := by
      rw [parseLineArg_string, bind_of_ok hquote]
      exact bind_eq_error.2 (.inl hget)
    rw [parseLineArgs_real rfl, bind_of_ok hsep']
    exact bind_eq_error.2 (.inl harg)
  | pseudo harg _ ih =>
    rw [parseLineArgs_pseudo harg]
    exact bind_eq_error.2 (.inl (ih hzero))
  | @arg first type types sep s text arg hreal hsep harg hargs ih =>
    have hs : 0 ∉ s := fun h => hzero (by simp [h])
    have htext : 0 ∉ text := fun h => hzero (by simp [h])
    obtain ⟨m₁, sp, m₂, hskip, harg', hm, hsp⟩ := parseLineArg_argument harg hs (hargs.ends rfl [0])
    have hsep' : separator first (sep ++ s ++ text ++ [0]) = .ok ((), m₁) := by
      rw [List.append_assoc, List.append_assoc, separator_append hsep, hskip]
    have hargs' := ih htext
    rw [hm, parseLineArgs_spaces hsp] at hargs'
    rw [parseLineArgs_real hreal, bind_of_ok hsep', bind_of_ok harg']
    exact bind_eq_error.2 (.inl hargs')

end ConfigFile

end Hoe
