import Hoe.Cscope
import Hoe.Lemmas.Minibuffer
import Hoe.Lib.Lines
import Hoe.Lib.Words

/-!
# The output of cscope

The loop over the context never ends at the end of its line: it copies 1023 bytes and looks at one more, so a parse stays within the
text only where so many bytes are left of it. The loops over the fields look for a blank beyond the end of the line, and a last line
without a newline has no entry.
-/

namespace Hoe

namespace Cscope

open Digits (decimal)
open Lines (ended begun)
open Minibuffer (cString cString_eq_self)

/-! ## A line -/

/-- The loop over a field finds the blank behind it. -/
theorem parseField_append {size : Nat} {a : List Byte} (ha : ' '.toNat ∉ a) (field rest : List Byte)
    (hfield : field.length ≤ size - 1) :
    parseField size field (a ++ ' '.toNat :: rest) = some ((field ++ a).take (size - 1), rest) := by
  induction a generalizing field with
  | nil => rw [List.nil_append, parseField, if_pos rfl, List.append_nil, List.take_of_length_le hfield]
  | cons c a ih =>
    rw [List.mem_cons, not_or] at ha
    rw [List.cons_append, parseField, if_neg (Ne.symm ha.1)]
    split
    · rename_i hfull
      have hlen : field.length = size - 1 := by omega
      rw [ih ha.2 field hfield, ← hlen, List.take_left, List.take_left]
    · rw [ih ha.2 _ (by rw [List.length_append, List.length_singleton]; omega), List.append_assoc, List.singleton_append]

/-- Without a blank it reads behind the text. -/
theorem parseField_none {size : Nat} {s : List Byte} (hs : ' '.toNat ∉ s) (field : List Byte) : parseField size field s = none := by
  induction s generalizing field with
  | nil => rfl
  | cons c s ih =>
    rw [List.mem_cons, not_or] at hs
    rw [parseField, if_neg (Ne.symm hs.1)]
    split
    · exact ih hs.2 field
    · exact ih hs.2 _

theorem parseField_eq_some {size : Nat} {s : List Byte} {r : List Byte × List Byte} :
    parseField size [] s = some r ↔ ∃ a, ' '.toNat ∉ a ∧ s = a ++ ' '.toNat :: r.2 ∧ r.1 = a.take (size - 1) := by
  constructor
  · intro h
    by_cases hs : ' '.toNat ∈ s
    · obtain ⟨a, rest, rfl, ha⟩ := List.eq_append_cons_of_mem hs
      rw [parseField_append ha [] rest (Nat.zero_le _)] at h
      obtain rfl := Option.some.inj h
      exact ⟨a, ha, rfl, rfl⟩
    · rw [parseField_none hs] at h
      cases h
  · rintro ⟨a, ha, rfl, hr⟩
    rw [parseField_append ha [] r.2 (Nat.zero_le _), List.nil_append, ← hr]

/-- The loop over the context copies as many bytes as there is room for, and looks at the one behind them. -/
theorem parseContext_eq (context s : List Byte) (hc : context.length ≤ contextSize - 1) :
    parseContext context s =
      if contextSize ≤ context.length + s.length then some ((context ++ s).take (contextSize - 2)) else none := by
  have hsize : contextSize = 1024 := rfl
  induction s generalizing context with
  | nil =>
    rw [parseContext, if_neg]
    rw [List.length_nil]
    omega
  | cons c s ih =>
    have htrue : c ≠ newline ∨ c ≠ 0 ∨ c ≠ 0 := by
      by_cases h0 : c = 0
      · left
        rw [h0]
        decide
      · exact Or.inr (Or.inl h0)
    rw [parseContext, if_pos htrue]
    split
    · rename_i hfull
      have hlen : context.length = contextSize - 1 := by omega
      rw [if_pos (by rw [List.length_cons]; omega), List.take_append_of_le_length (by omega), hlen]
      rfl
    · rw [ih _ (by rw [List.length_append, List.length_singleton]; omega), List.append_assoc, List.singleton_append,
        List.length_append, List.length_singleton, List.length_cons]
      simp only [Nat.add_assoc, Nat.add_comm 1]

/-- Three fields that blanks end are found, where at least 1024 bytes follow them. -/
theorem cscopeParseLine_fields {file scope number : List Byte} (hfile : ' '.toNat ∉ file) (hscope : ' '.toNat ∉ scope)
    (hnumber : ' '.toNat ∉ number) (rest : List Byte) :
    cscopeParseLine (file ++ ' '.toNat :: (scope ++ ' '.toNat :: (number ++ ' '.toNat :: rest))) =
      if contextSize ≤ rest.length then some ⟨file.take 1023, atoi (number.take 7), scope.take 255, rest.take 1022⟩ else none := by
  have hcontext : parseContext [] rest = if contextSize ≤ rest.length then some (rest.take 1022) else none := by
    rw [parseContext_eq [] rest (Nat.zero_le _), List.length_nil, Nat.zero_add]
    rfl
  unfold cscopeParseLine
  simp only [Option.bind_eq_bind, parseField_append hfile [] _ (Nat.zero_le _), parseField_append hscope [] _ (Nat.zero_le _),
    parseField_append hnumber [] _ (Nat.zero_le _), Option.bind_some, hcontext, List.nil_append]
  split
  · rfl
  · rfl

/-- What `cscope_parse_line` finds: three fields that blanks end, and at least 1024 bytes behind them. -/
theorem cscopeParseLine_eq_some {s : List Byte} {e : CscopeOutput} :
    cscopeParseLine s = some e ↔ ∃ file scope number rest, ' '.toNat ∉ file ∧ ' '.toNat ∉ scope ∧ ' '.toNat ∉ number ∧
      s = file ++ ' '.toNat :: (scope ++ ' '.toNat :: (number ++ ' '.toNat :: rest)) ∧ contextSize ≤ rest.length ∧
      e = ⟨file.take 1023, atoi (number.take 7), scope.take 255, rest.take 1022⟩ := by
  constructor
  · intro h
    have hparts := h
    unfold cscopeParseLine at hparts
    simp only [Option.bind_eq_bind, Option.bind_eq_some_iff, parseField_eq_some, Prod.exists] at hparts
    obtain ⟨_, _, ⟨file, hfile, rfl, -⟩, _, _, ⟨scope, hscope, rfl, -⟩, _, rest, ⟨number, hnumber, rfl, -⟩, -⟩ := hparts
    rw [cscopeParseLine_fields hfile hscope hnumber] at h
    split at h
    · rename_i hlen
      exact ⟨file, scope, number, rest, hfile, hscope, hnumber, rfl, hlen, (Option.some.inj h).symm⟩
    · cases h
  · rintro ⟨file, scope, number, rest, hfile, hscope, hnumber, rfl, hlen, rfl⟩
    rw [cscopeParseLine_fields hfile hscope hnumber, if_pos hlen]

/-! ## Room behind the fields -/

/-- A list with so many blanks begins with a field that the first of them ends. -/
theorem exists_field {s : List Byte} {n : Nat} (h : n + 1 ≤ s.count ' '.toNat) :
    ∃ a rest, ' '.toNat ∉ a ∧ s = a ++ ' '.toNat :: rest ∧ n ≤ rest.count ' '.toNat := by
  obtain ⟨a, rest, rfl, ha⟩ := List.eq_append_cons_of_mem (List.count_pos_iff.1 (by omega : 0 < s.count ' '.toNat))
  rw [List.count_append, List.count_eq_zero_of_not_mem ha, List.count_cons_self] at h
  exact ⟨a, rest, ha, rfl, by omega⟩

/-- There are three fields and 1024 bytes behind them exactly where three blanks have so many bytes behind them. -/
theorem room_iff (s : List Byte) :
    (∃ file scope number rest, ' '.toNat ∉ file ∧ ' '.toNat ∉ scope ∧ ' '.toNat ∉ number ∧
      s = file ++ ' '.toNat :: (scope ++ ' '.toNat :: (number ++ ' '.toNat :: rest)) ∧ contextSize ≤ rest.length) ↔
      3 ≤ (s.take (s.length - contextSize)).count ' '.toNat := by
  constructor
  · rintro ⟨file, scope, number, rest, -, -, -, rfl, hlen⟩
    obtain ⟨front, hfront⟩ : ∃ front, front = file ++ ' '.toNat :: (scope ++ ' '.toNat :: (number ++ [' '.toNat])) := ⟨_, rfl⟩
    have hs : file ++ ' '.toNat :: (scope ++ ' '.toNat :: (number ++ ' '.toNat :: rest)) = front ++ rest := by
      rw [hfront]
      simp
    have hcount : 3 ≤ front.count ' '.toNat := by
      rw [hfront]
      simp only [List.count_append, List.count_cons_self, List.count_nil]
      omega
    have hpre : front <+: (front ++ rest).take ((front ++ rest).length - contextSize) := by
      rw [List.length_append, List.take_append, List.take_of_length_le (by omega)]
      exact List.prefix_append _ _
    rw [hs]
    exact hcount.trans (hpre.sublist.count_le _)
  · intro h
    have hpos : contextSize < s.length := by
      by_contra hle
      rw [Nat.sub_eq_zero_of_le (by omega), List.take_zero, List.count_nil] at h
      omega
    have hs := List.take_append_drop (s.length - contextSize) s
    have hdrop : (s.drop (s.length - contextSize)).length = contextSize := by
      rw [List.length_drop]
      omega
    obtain ⟨file, r, hfile, h1, hr⟩ := exists_field h
    obtain ⟨scope, r', hscope, rfl, hr'⟩ := exists_field hr
    obtain ⟨number, r'', hnumber, rfl, -⟩ := exists_field hr'
    refine ⟨file, scope, number, r'' ++ s.drop (s.length - contextSize), hfile, hscope, hnumber, ?_, ?_⟩
    · conv_lhs => rw [← hs, h1]
      simp
    · rw [List.length_append]
      omega

/-- From the line on, three blanks have so many bytes of the text behind them that the parse of the line stays within the text and
the NUL that ends it. -/
def Roomy (text : List Byte) : Prop := 3 ≤ (text.take (text.length - (contextSize - 1))).count ' '.toNat

instance (text : List Byte) : Decidable (Roomy text) := by unfold Roomy; infer_instance

/-- The text that `cscope_parse_line` gets: a NUL ends the line, and another one the text. -/
def cutText (l : List Byte) (ls : List (List Byte)) : List Byte := l ++ (begun newline ls).set 0 0 ++ [0]

theorem length_cutText (l : List Byte) (ls : List (List Byte)) : (cutText l ls).length = (l ++ begun newline ls).length + 1 := by
  simp [cutText, Nat.add_assoc]

/-- The NUL behind the line is no more of a blank than the newline was. -/
theorem count_take_cutText (l : List Byte) (ls : List (List Byte)) {k : Nat} (hk : k ≤ (l ++ begun newline ls).length) :
    ((cutText l ls).take k).count ' '.toNat = ((l ++ begun newline ls).take k).count ' '.toNat := by
  have hone : ((begun newline ls).set 0 0).take (k - l.length) = ((begun newline ls).take (k - l.length)).set 0 0 := by
    rw [List.take_set]
  have hset : (((begun newline ls).take (k - l.length)).set 0 0).count ' '.toNat =
      ((begun newline ls).take (k - l.length)).count ' '.toNat := by
    obtain h | ⟨c, h⟩ := Lines.begun_eq newline ls
    · rw [h, List.take_nil, List.set_nil]
    · rw [h]
      cases k - l.length with
      | zero => rfl
      | succ n =>
        rw [List.take_succ_cons, List.set_cons_zero, List.count_cons_of_ne (by decide), List.count_cons_of_ne (by decide)]
  have hcut : (cutText l ls).take k = (l ++ (begun newline ls).set 0 0).take k := by
    rw [cutText, List.take_append_of_le_length]
    simpa using hk
  rw [hcut, List.take_append, List.take_append, List.count_append, List.count_append, hone, hset]

theorem roomy_iff (l : List Byte) (ls : List (List Byte)) :
    Roomy (l ++ begun newline ls) ↔ (cscopeParseLine (cutText l ls)).isSome := by
  have hsize : contextSize = 1024 := rfl
  have hk : (cutText l ls).length - contextSize = (l ++ begun newline ls).length - (contextSize - 1) := by
    rw [length_cutText]
    omega
  have hroom := room_iff (cutText l ls)
  rw [hk, count_take_cutText l ls (Nat.sub_le _ _)] at hroom
  rw [Roomy, ← hroom, Option.isSome_iff_exists]
  constructor
  · rintro ⟨file, scope, number, rest, h⟩
    exact ⟨_, cscopeParseLine_eq_some.2 ⟨file, scope, number, rest, h.1, h.2.1, h.2.2.1, h.2.2.2.1, h.2.2.2.2, rfl⟩⟩
  · rintro ⟨e, he⟩
    obtain ⟨file, scope, number, rest, h1, h2, h3, h4, h5, -⟩ := cscopeParseLine_eq_some.1 he
    exact ⟨file, scope, number, rest, h1, h2, h3, h4, h5⟩

/-! ## The loop over the lines -/

/-- The lines that are not blank. -/
def tokens (ls : List (List Byte)) : List (List Byte) := ls.filter (· ≠ [])

/-- What the loop does, line by line. -/
def parseLines : List (List Byte) → Option (List CscopeOutput)
  | [] => some []
  | l :: ls =>
    if l = [] then parseLines ls
    else (cscopeParseLine (cutText l ls)).bind fun e => (parseLines ls).map (e :: ·)

variable {done l : List Byte} {ls : List (List Byte)}

/-- `strtok` at a line that is not blank: the newline behind it becomes a NUL. -/
theorem strtok_line (hl : l ≠ []) (hnl : newline ∉ l) (h0 : (0 : Byte) ∉ l) :
    strtok (done ++ (l ++ begun newline ls ++ [0])) done.length =
      some (done.length, done ++ cutText l ls, done.length + l.length + if ls = [] then 0 else 1) := by
  obtain ⟨c, l', rfl⟩ := List.exists_cons_of_ne_nil hl
  have hc : c ≠ newline ∧ c ≠ 0 :=
    ⟨fun e => hnl (by rw [e]; exact List.mem_cons_self), fun e => h0 (by rw [e]; exact List.mem_cons_self)⟩
  have hin : ∀ d ∈ c :: l', decide (d ≠ newline ∧ d ≠ 0) = true := by
    intro d hd
    exact decide_eq_true ⟨fun e => hnl (e ▸ hd), fun e => h0 (e ▸ hd)⟩
  have hstart : (c :: l' ++ begun newline ls ++ [0]).takeWhile (· = newline) = [] :=
    List.takeWhile_cons_of_neg (by simpa using hc.1)
  have hfirst : (done ++ (c :: l' ++ begun newline ls ++ [0])).getD done.length 0 = c := by simp
  unfold strtok
  simp only [List.drop_left, hstart, List.length_nil, Nat.add_zero, hfirst, if_neg hc.2]
  cases ls with
  | nil =>
    have hstop : (c :: l' ++ begun newline [] ++ [0]).takeWhile (fun d => decide (d ≠ newline ∧ d ≠ 0)) = c :: l' := by
      rw [Lines.begun_nil, List.append_nil]
      exact Words.takeWhile_append_of_head hin (by simp)
    have hlast : (done ++ (c :: l' ++ begun newline [] ++ [0])).getD (done.length + (c :: l').length) 0 ≠ newline := by
      simp [newline]
    rw [hstop, if_neg hlast, if_pos rfl, Nat.add_zero]
    rfl
  | cons l₂ ls =>
    have hstop : (c :: l' ++ begun newline (l₂ :: ls) ++ [0]).takeWhile (fun d => decide (d ≠ newline ∧ d ≠ 0)) = c :: l' := by
      rw [Lines.begun_cons, List.append_assoc]
      exact Words.takeWhile_append_of_head hin (by simp)
    have hnext : (done ++ (c :: l' ++ begun newline (l₂ :: ls) ++ [0])).getD (done.length + (c :: l').length) 0 = newline := by
      simp
    rw [hstop, if_pos hnext, if_neg (List.cons_ne_nil _ _)]
    have hset : (done ++ (c :: l' ++ begun newline (l₂ :: ls) ++ [0])).set (done.length + (c :: l').length) 0 =
        done ++ cutText (c :: l') (l₂ :: ls) := by
      rw [cutText, Lines.begun_cons, List.append_assoc, List.set_append_right _ _ (Nat.le_add_right _ _), Nat.add_sub_cancel_left,
        List.set_append_right _ _ (Nat.le_refl _), Nat.sub_self]
      simp
    rw [hset]

/-- A blank line is passed over. -/
theorem strtok_blank (l' : List Byte) : strtok (done ++ ([] ++ begun newline (l' :: ls) ++ [0])) done.length =
    strtok (done ++ [newline] ++ (l' ++ begun newline ls ++ [0])) (done ++ [newline]).length := by
  have htext : done ++ ([] ++ begun newline (l' :: ls) ++ [0]) = done ++ [newline] ++ (l' ++ begun newline ls ++ [0]) := by
    simp
  have hstart : done.length +
      (((done ++ [newline] ++ (l' ++ begun newline ls ++ [0])).drop done.length).takeWhile (· = newline)).length =
      (done ++ [newline]).length +
        (((done ++ [newline] ++ (l' ++ begun newline ls ++ [0])).drop (done ++ [newline]).length).takeWhile (· = newline)).length := by
    rw [List.drop_left, List.append_assoc done, List.drop_left, List.singleton_append, List.takeWhile_cons_of_pos (by simp),
      List.length_cons, List.length_append, List.length_singleton]
    omega
  rw [htext]
  unfold strtok
  simp only [hstart]

theorem strtok_end : strtok (done ++ [0]) done.length = none := by
  have hend : ([0] : List Byte).takeWhile (· = newline) = [] := by decide
  have hzero : (done ++ [(0 : Byte)]).getD done.length 0 = 0 := by simp
  unfold strtok
  simp only [List.drop_left, hend, List.length_nil, Nat.add_zero, hzero, if_true]

variable {nrEntries n : Nat} {out : List CscopeOutput}

theorem parseTokens_end (hn : 0 < n) : parseTokens nrEntries n (done ++ [0]) done.length out = some out := by
  obtain ⟨n, rfl⟩ := Nat.exists_eq_succ_of_ne_zero hn.ne'
  rw [parseTokens, strtok_end]

/-- A turn of the loop at a line that is not blank. -/
theorem parseTokens_line (hl : l ≠ []) (hnl : newline ∉ l) (h0 : (0 : Byte) ∉ l) :
    parseTokens nrEntries (n + 1) (done ++ (l ++ begun newline ls ++ [0])) done.length out =
      if out.length < nrEntries then
        (cscopeParseLine (cutText l ls)).bind fun e =>
          parseTokens nrEntries n (done ++ cutText l ls) (done.length + l.length + if ls = [] then 0 else 1) (out ++ [e])
      else none := by
  rw [parseTokens, strtok_line hl hnl h0]
  simp only [List.drop_left]

/-- What the loop gives from the entries that are found, and the ones that are filled before. -/
def filled (nrEntries : Nat) (out : List CscopeOutput) (es : Option (List CscopeOutput)) : Option (List CscopeOutput) :=
  es.bind fun es => if es = [] ∨ out.length + es.length ≤ nrEntries then some (out ++ es) else none

/-- An entry is filled where there is one left for it, and then the others are. -/
theorem filled_cons {entry : Option CscopeOutput} {es : Option (List CscopeOutput)} :
    (if out.length < nrEntries then entry.bind fun e => filled nrEntries (out ++ [e]) es else none) =
      filled nrEntries out (entry.bind fun e => es.map (e :: ·)) := by
  cases entry with
  | none => exact ite_self none
  | some e =>
    cases es with
    | none => exact ite_self none
    | some es =>
      simp only [filled, Option.bind_some, Option.map_some, List.cons_ne_nil, false_or, List.length_append,
        List.length_cons, List.append_assoc, List.singleton_append]
      by_cases hout : out.length < nrEntries
      · rw [if_pos hout]
        cases es with
        | nil => rw [if_pos (Or.inl rfl), if_pos (by simpa using hout)]
        | cons e₂ es =>
          simp only [List.cons_ne_nil, false_or, List.length_nil, Nat.zero_add, Nat.add_assoc, Nat.add_comm 1]
      · rw [if_neg hout, if_neg (by omega)]

/-- The loop goes over the lines. -/
theorem parseTokens_lines (hn : (tokens (l :: ls)).length < n) (hls : ∀ x ∈ l :: ls, newline ∉ x ∧ (0 : Byte) ∉ x) :
    parseTokens nrEntries n (done ++ (l ++ begun newline ls ++ [0])) done.length out = filled nrEntries out (parseLines (l :: ls)) := by
  induction ls generalizing done l n out with
  | nil =>
    obtain ⟨hnl, h0⟩ := hls l List.mem_cons_self
    by_cases hl : l = []
    · rw [hl, Lines.begun_nil, List.nil_append, List.nil_append, parseTokens_end (Nat.zero_lt_of_lt hn)]
      simp [parseLines, filled]
    · obtain ⟨n, rfl⟩ := Nat.exists_eq_succ_of_ne_zero (Nat.zero_lt_of_lt hn).ne'
      rw [tokens, List.filter_cons_of_pos (by simpa using hl)] at hn
      rw [parseTokens_line hl hnl h0, parseLines, if_neg hl, ← filled_cons]
      have hend : ∀ e, parseTokens nrEntries n (done ++ cutText l [])
          (done.length + l.length + if ([] : List (List Byte)) = [] then 0 else 1) (out ++ [e]) =
          filled nrEntries (out ++ [e]) (parseLines []) := by
        intro e
        have htext : done ++ cutText l [] = (done ++ l) ++ [0] := by simp [cutText]
        rw [htext, if_pos rfl, Nat.add_zero, ← List.length_append, parseTokens_end]
        · simp [parseLines, filled]
        · simpa using Nat.zero_lt_of_lt (Nat.lt_of_succ_lt_succ hn)
      rw [funext hend]
  | cons l₂ ls ih =>
    obtain ⟨hnl, h0⟩ := hls l List.mem_cons_self
    have hls' : ∀ x ∈ l₂ :: ls, newline ∉ x ∧ (0 : Byte) ∉ x := fun x hx => hls x (List.mem_cons_of_mem _ hx)
    obtain ⟨n, rfl⟩ := Nat.exists_eq_succ_of_ne_zero (Nat.zero_lt_of_lt hn).ne'
    by_cases hl : l = []
    · subst hl
      have hblank : parseTokens nrEntries (n + 1) (done ++ ([] ++ begun newline (l₂ :: ls) ++ [0])) done.length out =
          parseTokens nrEntries (n + 1) (done ++ [newline] ++ (l₂ ++ begun newline ls ++ [0])) (done ++ [newline]).length out := by
        rw [parseTokens, parseTokens, strtok_blank]
      rw [hblank, ih hn hls']
      rfl
    · rw [tokens, List.filter_cons_of_pos (by simpa using hl)] at hn
      rw [parseTokens_line hl hnl h0, parseLines, if_neg hl, ← filled_cons]
      have hnext : ∀ e, parseTokens nrEntries n (done ++ cutText l (l₂ :: ls))
          (done.length + l.length + if l₂ :: ls = [] then 0 else 1) (out ++ [e]) =
          filled nrEntries (out ++ [e]) (parseLines (l₂ :: ls)) := by
        intro e
        have htext : done ++ cutText l (l₂ :: ls) = (done ++ l ++ [0]) ++ (l₂ ++ begun newline ls ++ [0]) := by simp [cutText]
        have hlen : done.length + l.length + 1 = (done ++ l ++ [0]).length := by
          rw [List.length_append, List.length_append, List.length_singleton]
        rw [htext, if_neg (List.cons_ne_nil _ _), hlen, ih (Nat.lt_of_succ_lt_succ hn) hls']
      rw [funext hnext]

/-- The lines are parsed where each that is not blank is, and there are as many entries. -/
theorem parseLines_isSome {ls : List (List Byte)} :
    (parseLines ls).isSome ↔ ∀ a l b, ls = a ++ l :: b → l ≠ [] → (cscopeParseLine (cutText l b)).isSome := by
  induction ls with
  | nil => simp [parseLines]
  | cons l ls ih =>
    have hcut : (∀ a x b, l :: ls = a ++ x :: b → x ≠ [] → (cscopeParseLine (cutText x b)).isSome) ↔
        (l ≠ [] → (cscopeParseLine (cutText l ls)).isSome) ∧
          ∀ a x b, ls = a ++ x :: b → x ≠ [] → (cscopeParseLine (cutText x b)).isSome := by
      constructor
      · intro h
        exact ⟨h [] l ls rfl, fun a x b hls => h (l :: a) x b (by rw [hls, List.cons_append])⟩
      · rintro ⟨hl, h⟩ a x b hls
        cases a with
        | nil =>
          obtain ⟨rfl, rfl⟩ := List.cons.inj hls
          exact hl
        | cons y a => exact h a x b (List.cons.inj hls).2
    rw [hcut, ← ih, parseLines]
    by_cases hl : l = []
    · simp [hl]
    · rw [if_neg hl]
      cases cscopeParseLine (cutText l ls) with
      | none => simp [hl]
      | some e => simp

/-- Each entry is what `cscope_parse_line` finds in its line. -/
theorem parseLines_entries {ls : List (List Byte)} {es : List CscopeOutput} (h : parseLines ls = some es) :
    List.Forall₂ (fun e l => ∃ b, cscopeParseLine (cutText l b) = some e) es (tokens ls) := by
  induction ls generalizing es with
  | nil =>
    obtain rfl := Option.some.inj h
    exact List.Forall₂.nil
  | cons l ls ih =>
    rw [parseLines] at h
    split at h
    · rename_i hl
      rw [tokens, List.filter_cons_of_neg (by simpa using hl)]
      exact ih h
    · rename_i hl
      obtain ⟨e, he, h⟩ := Option.bind_eq_some_iff.1 h
      obtain ⟨es', hes', rfl⟩ := Option.map_eq_some_iff.1 h
      rw [tokens, List.filter_cons_of_pos (by simpa using hl)]
      exact List.Forall₂.cons ⟨ls, he⟩ (ih hes')

/-! ## The entries -/

/-- A line `file scope number context`. -/
structure Fields (l file scope number context : List Byte) : Prop where
  line : l = file ++ ' '.toNat :: (scope ++ ' '.toNat :: (number ++ ' '.toNat :: context))
  file : ' '.toNat ∉ file
  scope : ' '.toNat ∉ scope
  number : number ≠ [] ∧ ∀ c ∈ number, isDigit c

/-- The entry has the fields of the line, each cut to the size of its array. -/
def EntryRight (e : CscopeOutput) (l : List Byte) : Prop :=
  ∀ file scope number context, Fields l file scope number context →
    cString e.file = file.take 1023 ∧ cString e.sym = scope.take 255 ∧ e.line = decimal (number.take 7) ∧
      cString e.context = context.take (contextSize - 1)

/-- The parse stays within the text and the array, it ends, and the entries have the fields of their lines. -/
def EntriesRight (text : List Byte) : Prop :=
  ∃ out, cscopeEntries text = some out ∧ List.Forall₂ EntryRight out (tokens (text.splitOn newline))

/-- `atoi` of digits. -/
theorem atoi_digits {s : List Byte} (hs : s ≠ []) (hdigit : ∀ c ∈ s, isDigit c) : atoi s = decimal s := by
  obtain ⟨c, s, rfl⟩ := List.exists_cons_of_ne_nil hs
  have hc : 48 ≤ c ∧ c ≤ 57 := by simpa [isDigit] using hdigit c List.mem_cons_self
  have hspace : isspace c = false := by
    simp only [isspace, decide_eq_false_iff_not]
    rintro (h | ⟨-, h⟩)
    · rw [h] at hc
      exact absurd hc.1 (by decide)
    · exact absurd (hc.1.trans h) (by decide)
  have hminus : c ≠ '-'.toNat := fun e => absurd (e ▸ hc.1) (by decide)
  have hplus : c ≠ '+'.toNat := fun e => absurd (e ▸ hc.1) (by decide)
  have hall : (c :: s).takeWhile isDigit = c :: s := List.takeWhile_eq_self_iff.2 hdigit
  unfold atoi
  simp only [List.dropWhile_cons, hspace, Bool.false_eq_true, if_false, if_neg hminus, if_neg hplus, hall]
  rfl

/-- What stands behind a line begins with a NUL. -/
theorem cutText_eq (l : List Byte) (b : List (List Byte)) : ∃ rest, cutText l b = l ++ 0 :: rest := by
  obtain h | ⟨c, h⟩ := Lines.begun_eq newline b
  · exact ⟨[], by rw [cutText, h, List.set_nil, List.append_nil]⟩
  · exact ⟨c ++ [0], by rw [cutText, h, List.set_cons_zero, List.append_assoc, List.cons_append]⟩

theorem cString_append_zero {s : List Byte} (hs : (0 : Byte) ∉ s) (rest : List Byte) (n : Nat) :
    cString ((s ++ 0 :: rest).take n) = s.take n := by
  induction s generalizing n with
  | nil =>
    cases n with
    | zero => rfl
    | succ n => simp [cString]
  | cons c s ih =>
    rw [List.mem_cons, not_or] at hs
    cases n with
    | zero => rfl
    | succ n =>
      have ih := ih hs.2 n
      unfold cString at ih ⊢
      rw [List.cons_append, List.take_succ_cons, List.take_succ_cons, List.takeWhile_cons_of_pos, ih]
      simpa using Ne.symm hs.1

/-- An entry is right where the context of its line has room in what the loop keeps of it. -/
theorem entryRight_iff {e : CscopeOutput} {l : List Byte} {b : List (List Byte)} (h0 : (0 : Byte) ∉ l)
    (he : cscopeParseLine (cutText l b) = some e) :
    EntryRight e l ↔ ∀ file scope number context, Fields l file scope number context → context.length ≤ contextSize - 2 := by
  have hright : ∀ file scope number context, Fields l file scope number context →
      cString e.file = file.take 1023 ∧ cString e.sym = scope.take 255 ∧ e.line = decimal (number.take 7) ∧
        cString e.context = context.take (contextSize - 2) := by
    intro file scope number context h
    obtain ⟨rest, hrest⟩ := cutText_eq l b
    have hnumber : ' '.toNat ∉ number := fun hmem => absurd (h.number.2 _ hmem) (by decide)
    have hzero : ∀ s, s <:+: l → (0 : Byte) ∉ s := fun s hs hmem => h0 (hs.subset hmem)
    have htext : cutText l b = file ++ ' '.toNat :: (scope ++ ' '.toNat :: (number ++ ' '.toNat :: (context ++ 0 :: rest))) := by
      rw [hrest, h.line]
      simp
    rw [htext, cscopeParseLine_fields h.file h.scope hnumber] at he
    split at he
    · obtain rfl := Option.some.inj he
      refine ⟨?_, ?_, ?_, ?_⟩
      · exact cString_eq_self fun hmem => hzero file ⟨[], _, by rw [h.line]; rfl⟩ (List.mem_of_mem_take hmem)
      · exact cString_eq_self fun hmem => hzero scope ⟨file ++ [' '.toNat], ' '.toNat :: (number ++ ' '.toNat :: context),
          by rw [h.line]; simp⟩ (List.mem_of_mem_take hmem)
      · refine atoi_digits ?_ fun c hc => h.number.2 c (List.mem_of_mem_take hc)
        intro htake
        exact h.number.1 (by simpa using htake)
      · exact cString_append_zero (hzero context ⟨file ++ ' '.toNat :: (scope ++ ' '.toNat :: (number ++ [' '.toNat])), [],
          by rw [h.line]; simp⟩) rest _
    · cases he
  constructor
  · intro h file scope number context hl
    have hcontext := (hright file scope number context hl).2.2.2
    rw [(h file scope number context hl).2.2.2] at hcontext
    have hlen := congrArg List.length hcontext
    rw [List.length_take, List.length_take] at hlen
    have hsize : contextSize = 1024 := rfl
    omega
  · intro h file scope number context hl
    obtain ⟨hfile, hsym, hline, hcontext⟩ := hright file scope number context hl
    have hlen := h file scope number context hl
    refine ⟨hfile, hsym, hline, ?_⟩
    rw [hcontext, List.take_of_length_le hlen, List.take_of_length_le]
    exact hlen.trans (by decide)

theorem length_tokens_le (l : List Byte) (ls : List (List Byte)) : (tokens (l :: ls)).length ≤ (l ++ begun newline ls).length := by
  induction ls generalizing l with
  | nil =>
    cases l with
    | nil => exact Nat.zero_le _
    | cons c l => simp [tokens]
  | cons l₂ ls ih =>
    have ih := ih l₂
    rw [Lines.begun_cons]
    cases l with
    | nil =>
      have htokens : tokens ([] :: l₂ :: ls) = tokens (l₂ :: ls) := rfl
      rw [htokens]
      simp only [List.length_append, List.length_cons] at ih ⊢
      omega
    | cons c l =>
      have htokens : tokens ((c :: l) :: l₂ :: ls) = (c :: l) :: tokens (l₂ :: ls) := rfl
      rw [htokens]
      simp only [List.length_append, List.length_cons] at ih ⊢
      omega

/-- The output is parsed as its lines are. -/
theorem cscopeEntries_eq {text : List Byte} (h0 : (0 : Byte) ∉ text) :
    cscopeEntries text = filled (text.count newline) [] (parseLines (text.splitOn newline)) := by
  obtain ⟨l, ls, hls⟩ := List.exists_cons_of_ne_nil (List.splitOn_ne_nil newline text)
  have htext : text = l ++ begun newline ls := by
    have h := Lines.intercalate_cut newline [] l ls
    rw [List.nil_append, ← hls, List.intercalate_splitOn] at h
    exact h
  have hmem : ∀ x ∈ l :: ls, newline ∉ x ∧ (0 : Byte) ∉ x := by
    intro x hx
    rw [← hls] at hx
    refine ⟨Lines.not_mem_of_mem_splitOn hx, fun hzero => h0 (Lines.subset_of_mem_splitOn hx hzero)⟩
  have hlen : (tokens (l :: ls)).length < text.length + 1 := by
    rw [htext]
    exact Nat.lt_succ_of_le (length_tokens_le l ls)
  have h : parseTokens (text.count newline) (text.length + 1) ([] ++ (l ++ begun newline ls ++ [0])) ([] : List Byte).length [] =
      filled (text.count newline) [] (parseLines (l :: ls)) := parseTokens_lines hlen hmem
  rw [List.nil_append, ← htext] at h
  rw [hls]
  exact h

theorem mem_tokens {l : List Byte} {ls : List (List Byte)} : l ∈ tokens ls ↔ l ∈ ls ∧ l ≠ [] := by
  rw [tokens, List.mem_filter, decide_eq_true_iff]

theorem filled_nil_eq_some {nrEntries : Nat} {es : Option (List CscopeOutput)} {out : List CscopeOutput} :
    filled nrEntries [] es = some out ↔ es = some out ∧ out.length ≤ nrEntries := by
  cases es with
  | none => simp [filled]
  | some es =>
    have hempty : (es = [] ∨ es.length ≤ nrEntries) ↔ es.length ≤ nrEntries := by
      refine ⟨fun h => ?_, Or.inr⟩
      rcases h with rfl | h
      · exact Nat.zero_le _
      · exact h
    simp only [filled, Option.bind_some, List.length_nil, Nat.zero_add, List.nil_append, hempty, Option.some_inj]
    split
    · rename_i h
      rw [Option.some_inj]
      exact ⟨fun heq => ⟨heq, heq ▸ h⟩, And.left⟩
    · rename_i h
      refine ⟨fun hnone => (by cases hnone), ?_⟩
      rintro ⟨rfl, hle⟩
      exact absurd hle h

/-- The entries are right exactly where no more lines than newlines have something in them, three blanks behind the beginning of each
such line have 1023 bytes of the text behind them, and no context is longer than 1022 bytes. -/
theorem entriesRight_iff {text : List Byte} (h0 : (0 : Byte) ∉ text) :
    EntriesRight text ↔ (tokens (text.splitOn newline)).length ≤ text.count newline ∧
      (∀ a l b, text.splitOn newline = a ++ l :: b → l ≠ [] → Roomy (l ++ begun newline b)) ∧
      ∀ l ∈ text.splitOn newline, ∀ file scope number context, Fields l file scope number context →
        context.length ≤ contextSize - 2 := by
  have hzero : ∀ l ∈ text.splitOn newline, (0 : Byte) ∉ l := fun l hl hmem => h0 (Lines.subset_of_mem_splitOn hl hmem)
  have hright : ∀ e l, l ∈ tokens (text.splitOn newline) → (∃ b, cscopeParseLine (cutText l b) = some e) →
      (EntryRight e l ↔ ∀ file scope number context, Fields l file scope number context → context.length ≤ contextSize - 2) := by
    rintro e l hl ⟨b, he⟩
    exact entryRight_iff (hzero l (mem_tokens.1 hl).1) he
  simp only [roomy_iff, ← parseLines_isSome]
  rw [EntriesRight, cscopeEntries_eq h0]
  constructor
  · rintro ⟨out, hout, hentries⟩
    obtain ⟨hes, hle⟩ := filled_nil_eq_some.1 hout
    have hparsed := parseLines_entries hes
    refine ⟨hparsed.length_eq ▸ hle, by rw [hes]; rfl, ?_⟩
    intro l hl file scope number context h
    have hne : l ≠ [] := by
      rw [h.line]
      exact List.append_ne_nil_of_right_ne_nil _ (List.cons_ne_nil _ _)
    have hmem := mem_tokens.2 ⟨hl, hne⟩
    obtain ⟨i, hi, hget⟩ := List.getElem_of_mem hmem
    have hi' : i < out.length := by rwa [hparsed.length_eq]
    have h1 := (List.forall₂_iff_get.1 hparsed).2 i hi' hi
    have h2 := (List.forall₂_iff_get.1 hentries).2 i hi' hi
    simp only [List.get_eq_getElem, hget] at h1 h2
    exact (hright _ l hmem h1).1 h2 file scope number context h
  · rintro ⟨hle, hsome, hcontext⟩
    obtain ⟨es, hes⟩ := Option.isSome_iff_exists.1 hsome
    have hparsed := parseLines_entries hes
    refine ⟨es, filled_nil_eq_some.2 ⟨hes, hparsed.length_eq ▸ hle⟩, ?_⟩
    refine List.forall₂_iff_get.2 ⟨hparsed.length_eq, ?_⟩
    intro i hi hi'
    have hmem := List.getElem_mem hi'
    exact (hright _ _ hmem ((List.forall₂_iff_get.1 hparsed).2 i hi hi')).2 (hcontext _ (mem_tokens.1 hmem).1)

/-- A result, and so many blank lines that its context ends within the text. -/
theorem entriesRight_result : EntriesRight (cstr "f s 1 x" ++ List.replicate 1023 newline) := by
  have hlines : (cstr "f s 1 x" ++ List.replicate 1023 newline).splitOn newline = cstr "f s 1 x" :: List.replicate 1023 [] := by
    decide +kernel
  refine (entriesRight_iff (by decide +kernel)).2 ⟨by decide +kernel, ?_, ?_⟩
  · rw [hlines]
    intro a l b h hl
    cases a with
    | nil =>
      obtain ⟨rfl, rfl⟩ := List.cons.inj h
      decide +kernel
    | cons x a =>
      have hmem : l ∈ List.replicate 1023 [] := by simp [(List.cons.inj h).2]
      exact absurd (List.eq_of_mem_replicate hmem) hl
  · rw [hlines]
    intro l hl file scope number context h
    have hlen : l.length ≤ 7 := by
      rcases List.mem_cons.1 hl with rfl | hl
      · exact (by decide)
      · rw [List.eq_of_mem_replicate hl]
        exact Nat.zero_le _
    rw [h.line] at hlen
    simp only [List.length_append, List.length_cons] at hlen
    exact Nat.le_trans (by omega) (by decide : 7 ≤ contextSize - 2)

/-- A last line without a newline has no entry. -/
theorem not_entriesRight : ¬∀ text : List Byte, 0 ∉ text → EntriesRight text := by
  intro h
  obtain ⟨out, hout, -⟩ := h (cstr "f s 1 x") (by decide)
  have hnone : cscopeEntries (cstr "f s 1 x") = none := by decide +kernel
  rw [hnone] at hout
  cases hout

end Cscope

end Hoe
