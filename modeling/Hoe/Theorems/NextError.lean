import Hoe.CompileError
import Hoe.Lemmas.Minibuffer
import Hoe.Pages
import Hoe.Lib.Digits
import Hoe.Lib.Lines
import Hoe.Lib.Words

/-!
# Going over the errors

`next-error` goes over the lines of the compilation buffer that have the form of an error, in their order. A name is compared as the
array holds it, so two long names with the same beginning are one.
-/

namespace Hoe

namespace CompileError

open Digits (decimal)
open Lines (ended begun)
open Minibuffer (cString)
open Words (takeWhile_append_of_head dropWhile_append_of_head)

/-! ## The lines of errors -/

/-- A line of an error, by the offset where it begins. -/
structure ErrorLine where
  offset : Nat
  name : List Byte
  number : Nat
deriving DecidableEq, Repr

/-- A character of a file name. -/
def isNameChar (c : Byte) : Bool := c ≠ ':'.toNat ∧ c ≠ ' '.toNat ∧ c ≠ '\t'.toNat

/-- The name of `name:...`, and what is behind the colon. -/
def nameOf (l : List Byte) : Option (List Byte × List Byte) :=
  if (l.dropWhile isNameChar).head? = some ':'.toNat then some (l.takeWhile isNameChar, (l.dropWhile isNameChar).tail) else none

/-- The number of `digits: ...`. -/
def lineNumberOf (s : List Byte) : Option Nat :=
  if (s.dropWhile isDigit).head? = some ':'.toNat then some (decimal (s.takeWhile isDigit)) else none

/-- The name and the number of a line `name:digits: ...`. -/
def errorOf (l : List Byte) : Option (List Byte × Nat) :=
  (nameOf l).bind fun (name, s) => ((lineNumberOf s).filter (1 ≤ ·)).map (name, ·)

theorem nameOf_eq_some {l name s : List Byte} :
    nameOf l = some (name, s) ↔ l = name ++ ':'.toNat :: s ∧ ∀ c ∈ name, isNameChar c := by
  have hcolon : ∀ c ∈ (':'.toNat :: s).head?, isNameChar c = false := by simp [isNameChar]
  constructor
  · intro h
    rw [nameOf] at h
    split at h
    · rename_i hhead
      obtain ⟨rest, hrest⟩ := List.head?_eq_some_iff.1 hhead
      obtain ⟨rfl, rfl⟩ := Prod.mk.inj (Option.some.inj h)
      exact ⟨by rw [hrest, List.tail_cons, ← hrest, List.takeWhile_append_dropWhile], fun _ => List.mem_takeWhile_imp⟩
    · cases h
  · rintro ⟨rfl, hname⟩
    rw [nameOf, dropWhile_append_of_head hname hcolon, takeWhile_append_of_head hname hcolon, List.head?_cons, if_pos rfl, List.tail_cons]

theorem nameOf_cons {c : Byte} (hc : isNameChar c) (l : List Byte) :
    nameOf (c :: l) = (nameOf l).map fun found => (c :: found.1, found.2) := by
  rw [nameOf, nameOf, List.dropWhile_cons_of_pos hc, List.takeWhile_cons_of_pos hc]
  split
  · rfl
  · rfl

/-- The errors on a line that begins at the offset: one or none. -/
def errorsAt (offset : Nat) (l : List Byte) : List ErrorLine := (errorOf l).toList.map fun e => ⟨offset, e.1, e.2⟩

/-- The errors of lines of which the first begins at the offset. -/
def errorsFrom : Nat → List (List Byte) → List ErrorLine
  | _, [] => []
  | offset, l :: ls => errorsAt offset l ++ errorsFrom (offset + l.length + 1) ls

/-- The errors of a text. -/
def errorLines (text : List Byte) : List ErrorLine := errorsFrom 0 (text.splitOn newline)

/-- Those of which each has another name or another number than the one before it, where a name counts as `f` of it. -/
def visited (f : List Byte → List Byte) : Option (List Byte × Nat) → List ErrorLine → List ErrorLine
  | _, [] => []
  | last, e :: es => if last = some (f e.name, e.number) then visited f last es else e :: visited f (some (f e.name, e.number)) es

/-- A name as the array holds it. -/
def cutName (name : List Byte) : List Byte := cString (name.take (filenameSize - 1))

/-- What going to an error is. -/
def ErrorLine.goto (e : ErrorLine) : Outcome := .goto ⟨e.offset, cutName e.name, e.number⟩

/-- The calls go to one error after the other, and then there are no more. -/
def Visits (f : List Byte → List Byte) (text : List Byte) (outcomes : List Outcome) : Prop :=
  outcomes = ((visited f none (errorLines text)).map ErrorLine.goto ++
    List.replicate outcomes.length (Outcome.putStatus "No more errors")).take outcomes.length

instance (f : List Byte → List Byte) (text : List Byte) (outcomes : List Outcome) : Decidable (Visits f text outcomes) := by
  unfold Visits
  infer_instance

/-! ## Reading a line -/

variable {r : Reader} {done l : List Byte} {ls : List (List Byte)}

theorem nextc_cons (h8 : r.charset ≠ .utf8) {c : Byte} {rest : List Byte} (ht : r.text = done ++ c :: rest) :
    r.nextc done.length = (c, (((done ++ [c]).length : Nat) : Int)) := by
  have hlt : ¬r.total ≤ done.length := by
    rw [Reader.total, ht, List.length_append, List.length_cons]
    omega
  have hbyte : r.byte done.length = c := by
    rw [Reader.byte, ht, Int.toNat_natCast]
    simp
  rw [Reader.nextc, if_neg hlt]
  simp only [hbyte]
  rw [if_pos (Or.inl h8), List.length_append, List.length_singleton]
  rfl

/-- Behind a line there is a newline, or the end of the text that reads as one. -/
theorem nextc_begun (h8 : r.charset ≠ .utf8) (ht : r.text = done ++ begun newline ls) :
    r.nextc done.length = (newline, ((done.length + if ls = [] then 0 else 1 : Nat) : Int)) := by
  cases ls with
  | nil =>
    rw [Lines.begun_nil, List.append_nil] at ht
    rw [Reader.nextc, Reader.total, ht, if_pos (le_refl _), if_pos rfl, Nat.add_zero]
  | cons l₂ ls =>
    rw [Lines.begun_cons, List.cons_append] at ht
    rw [nextc_cons h8 ht, List.length_append, List.length_singleton, if_neg (List.cons_ne_nil _ _)]

theorem skipLine_eq (h8 : r.charset ≠ .utf8) (hl : newline ∉ l) (ht : r.text = done ++ l ++ begun newline ls) {n : Nat}
    (hn : l.length < n) : skipLine r n done.length = some (((done ++ l).length + if ls = [] then 0 else 1 : Nat) : Int) := by
  induction l generalizing done n with
  | nil =>
    obtain ⟨n, rfl⟩ := Nat.exists_eq_succ_of_ne_zero (Nat.zero_lt_of_lt hn).ne'
    rw [List.append_nil] at ht
    rw [skipLine, nextc_begun h8 ht, if_pos rfl, List.append_nil]
  | cons c l ih =>
    obtain ⟨n, rfl⟩ := Nat.exists_eq_succ_of_ne_zero (Nat.zero_lt_of_lt hn).ne'
    rw [List.mem_cons, not_or] at hl
    have ht' : r.text = done ++ [c] ++ l ++ begun newline ls := by simpa using ht
    rw [List.append_assoc, List.cons_append] at ht
    rw [skipLine, nextc_cons h8 ht, if_neg (Ne.symm hl.1), ih hl.2 ht' (Nat.lt_of_succ_lt_succ hn), List.append_assoc,
      List.singleton_append]

/-- The loop over the file name ends at the first character that is none of one. -/
theorem extractFilename_eq (h8 : r.charset ≠ .utf8) (hbytes : ∀ c ∈ r.text, c < 256) (hl : newline ∉ l)
    (ht : r.text = done ++ l ++ begun newline ls) {n : Nat} (hn : l.length < n) (q : List Byte) (hq : q.length ≤ filenameSize - 1) :
    extractFilename r n q done.length = some ((nameOf l).map fun found =>
      ((q ++ found.1).take (filenameSize - 1), (((done ++ found.1).length + 1 : Nat) : Int))) := by
  induction l generalizing done n q with
  | nil =>
    obtain ⟨n, rfl⟩ := Nat.exists_eq_succ_of_ne_zero (Nat.zero_lt_of_lt hn).ne'
    rw [List.append_nil] at ht
    rw [extractFilename, nextc_begun h8 ht]
    rfl
  | cons c l ih =>
    obtain ⟨n, rfl⟩ := Nat.exists_eq_succ_of_ne_zero (Nat.zero_lt_of_lt hn).ne'
    rw [List.mem_cons, not_or] at hl
    have ht' : r.text = done ++ [c] ++ l ++ begun newline ls := by simpa using ht
    rw [List.append_assoc, List.cons_append] at ht
    have hbyte : c % 256 = c := Nat.mod_eq_of_lt (hbytes c (by rw [ht]; simp))
    rw [extractFilename, nextc_cons h8 ht]
    by_cases hname : isNameChar c
    · have hc : c ≠ ':'.toNat ∧ c ≠ ' '.toNat ∧ c ≠ '\t'.toNat := of_decide_eq_true hname
      have hblank : ¬(c = newline ∨ c = '\t'.toNat ∨ c = ' '.toNat) := by
        rintro (h | h | h)
        · exact hl.1 h.symm
        · exact hc.2.2 h
        · exact hc.2.1 h
      have hq' : (if q.length < filenameSize - 1 then q ++ [c % 256] else q).length ≤ filenameSize - 1 := by
        split
        · rw [List.length_append, List.length_singleton]
          omega
        · exact hq
      have htake : ∀ s, ((if q.length < filenameSize - 1 then q ++ [c % 256] else q) ++ s).take (filenameSize - 1) =
          (q ++ c :: s).take (filenameSize - 1) := by
        intro s
        split
        · rw [hbyte, List.append_assoc, List.singleton_append]
        · have hfull : q.length = filenameSize - 1 := by omega
          rw [← hfull, List.take_left, List.take_left]
      simp only [if_neg hblank, if_neg hc.1]
      rw [ih hl.2 ht' (Nat.lt_of_succ_lt_succ hn) _ hq', nameOf_cons hname, Option.map_map]
      simp only [Function.comp_def, htake, List.append_assoc, List.singleton_append]
    · by_cases hcolon : c = ':'.toNat
      · have hblank : ¬(c = newline ∨ c = '\t'.toNat ∨ c = ' '.toNat) := by
          rw [hcolon]
          decide
        have hnil : nameOf (c :: l) = some ([], l) := nameOf_eq_some.2 ⟨by rw [hcolon]; rfl, by simp⟩
        simp only [if_neg hblank, if_pos hcolon, hnil, Option.map_some, List.append_nil, List.take_of_length_le hq,
          List.length_append, List.length_singleton, List.length_nil]
      · have hblank : c = newline ∨ c = '\t'.toNat ∨ c = ' '.toNat := by
          by_contra h
          rw [not_or, not_or] at h
          exact hname (decide_eq_true ⟨hcolon, h.2.2, h.2.1⟩)
        have hnone : nameOf (c :: l) = none := by
          rw [nameOf, List.dropWhile_cons_of_neg hname, List.head?_cons, if_neg (by simpa using hcolon)]
        simp only [if_pos hblank, hnone, Option.map_none]

/-- The loop over the line number adds up digits. -/
theorem extractLineNum_eq (h8 : r.charset ≠ .utf8) (hl : newline ∉ l) (ht : r.text = done ++ l ++ begun newline ls) {n : Nat}
    (hn : l.length < n) (m : Nat) :
    extractLineNum r n (wrapInt m) done.length = some (if (l.dropWhile isDigit).head? = some ':'.toNat then
      some (wrapInt (Digits.value 10 m ((l.takeWhile isDigit).map (· - '0'.toNat)))) else none) := by
  induction l generalizing done n m with
  | nil =>
    obtain ⟨n, rfl⟩ := Nat.exists_eq_succ_of_ne_zero (Nat.zero_lt_of_lt hn).ne'
    rw [List.append_nil] at ht
    rw [extractLineNum, nextc_begun h8 ht]
    rfl
  | cons c l ih =>
    obtain ⟨n, rfl⟩ := Nat.exists_eq_succ_of_ne_zero (Nat.zero_lt_of_lt hn).ne'
    rw [List.mem_cons, not_or] at hl
    have ht' : r.text = done ++ [c] ++ l ++ begun newline ls := by simpa using ht
    rw [List.append_assoc, List.cons_append] at ht
    rw [extractLineNum, nextc_cons h8 ht]
    by_cases hdigit : isDigit c
    · have hc : 48 ≤ c ∧ c ≤ 57 := by simpa [isDigit] using hdigit
      have hcolon : c ≠ ':'.toNat := by
        intro h
        rw [h] at hc
        exact absurd hc.2 (by decide)
      have hstep : wrapInt (wrapInt m * 10 + c - '0'.toNat) = wrapInt ((m * 10 + (c - '0'.toNat) : Nat) : Int) := by
        have hsub : ((c - '0'.toNat : Nat) : Int) = (c : Int) - '0'.toNat := Nat.cast_sub hc.1
        rw [Nat.cast_add, Nat.cast_mul, Nat.cast_ofNat, hsub, ← wrapInt_add (m * 10), ← wrapInt_mul, wrapInt_add, ← add_sub_assoc]
      simp only [if_neg hcolon, if_pos hdigit, hstep]
      rw [ih hl.2 ht' (Nat.lt_of_succ_lt_succ hn), List.dropWhile_cons_of_pos hdigit, List.takeWhile_cons_of_pos hdigit, List.map_cons,
        Digits.value]
    · rw [List.dropWhile_cons_of_neg hdigit, List.takeWhile_cons_of_neg hdigit, List.head?_cons, List.map_nil, Digits.value]
      by_cases hcolon : c = ':'.toNat
      · simp only [hcolon, if_true]
      · simp only [if_neg hcolon, if_neg hdigit, Option.some_inj]

/-! ## A line -/

/-- The error that was gone to last, if any, as the state has it. -/
def ErrorState.Last (st : ErrorState) : Option (List Byte × Nat) → Prop
  | none => st.lastLineNum = -1
  | some (name, number) => st.lastLineNum = number ∧ cString st.lastFilename = name

/-- What is found at the line of an error. -/
def ErrorLine.found (e : ErrorLine) : FoundError := ⟨e.offset, cutName e.name, e.number⟩

variable {st : ErrorState} {last : Option (List Byte × Nat)}

theorem ErrorState.Last.differs_iff (h : st.Last last) {name : List Byte} {number : Nat} :
    ((number : Int) ≠ st.lastLineNum ∨ name ≠ cString st.lastFilename) ↔ last ≠ some (name, number) := by
  cases last with
  | none =>
    have h : st.lastLineNum = -1 := h
    refine iff_of_true (Or.inl ?_) (by simp)
    omega
  | some e =>
    obtain ⟨hnumber, hname⟩ := h
    rw [hnumber, hname, ne_eq, ne_eq, ne_eq, Option.some_inj, Prod.ext_iff, Nat.cast_inj]
    constructor
    · rintro (h | h) ⟨rfl, rfl⟩
      · exact h rfl
      · exact h rfl
    · intro hne
      by_cases hn : number = e.2
      · exact Or.inr fun hname => hne ⟨hname.symm, hn.symm⟩
      · exact Or.inl hn

/-- A line that the number of an error fits an `int` on. -/
def FitsInt (l : List Byte) : Prop := ∀ e, errorOf l = some e → e.2 < 2 ^ 31

theorem cString_cString (s : List Byte) : cString (cString s) = cString s := Minibuffer.cString_eq_self (Minibuffer.zero_not_mem_cString s)

theorem extractLineNum_zero (h8 : r.charset ≠ .utf8) (hl : newline ∉ l) (ht : r.text = done ++ l ++ begun newline ls) {n : Nat}
    (hn : l.length < n) : extractLineNum r n 0 done.length = some ((lineNumberOf l).map fun number : Nat => wrapInt number) := by
  have h := extractLineNum_eq h8 hl ht hn 0
  rw [Nat.cast_zero, show wrapInt 0 = 0 by rfl] at h
  rw [h, lineNumberOf]
  split
  · rfl
  · rfl

/-- A line is an error where it has the form of one and another name or number than the last. -/
theorem findError_eq (h8 : r.charset ≠ .utf8) (hbytes : ∀ c ∈ r.text, c < 256) (hl : newline ∉ l) (hfit : FitsInt l)
    (ht : r.text = done ++ l ++ begun newline ls) (hlast : st.Last last) :
    findError r st done.length = some ((visited cutName last (errorsAt done.length l)).head?.map ErrorLine.found) := by
  have hlen : l.length < r.turns := by
    rw [Reader.turns, ht, List.length_append, List.length_append]
    omega
  rw [findError, extractFilename_eq h8 hbytes hl ht hlen [] (Nat.zero_le _), Option.bind_some]
  cases hname : nameOf l with
  | none =>
    have hnone : errorOf l = none := by rw [errorOf, hname, Option.bind_none]
    rw [errorsAt, hnone]
    rfl
  | some found =>
    obtain ⟨name, s⟩ := found
    obtain ⟨hline, -⟩ := nameOf_eq_some.1 hname
    have ht' : r.text = (done ++ name ++ [':'.toNat]) ++ s ++ begun newline ls := by
      rw [ht, hline]
      simp
    have hs : newline ∉ s := fun hmem => hl (by rw [hline]; simp [hmem])
    have hlen' : s.length < r.turns := by
      rw [hline, List.length_append, List.length_cons] at hlen
      omega
    have hoffset : (((done ++ name).length + 1 : Nat) : Int) = (((done ++ name ++ [':'.toNat]).length : Nat) : Int) := by
      rw [@List.length_append _ (done ++ name), List.length_singleton]
    simp only [Option.map_some, List.nil_append, hoffset]
    rw [extractLineNum_zero h8 hs ht' hlen', Option.bind_some]
    cases hnumber : lineNumberOf s with
    | none =>
      have hnone : errorOf l = none := by simp [errorOf, hname, hnumber]
      rw [errorsAt, hnone]
      rfl
    | some number =>
      by_cases hpos : 1 ≤ number
      · have hsome : errorOf l = some (name, number) := by
          simp only [errorOf, hname, Option.bind_some, hnumber, Option.filter_some, decide_eq_true hpos, if_true, Option.map_some]
        have hwrap : wrapInt number = number := wrapInt_of_lt (by omega) (by exact_mod_cast hfit _ hsome)
        have hdiffers : ((number : Int) ≠ st.lastLineNum ∨ cutName name ≠ cString st.lastFilename) ↔ last ≠ some (cutName name, number) :=
          hlast.differs_iff
        have hcut : cString (name.take (filenameSize - 1)) = cutName name := rfl
        have hone : 1 ≤ (number : Int) := by exact_mod_cast hpos
        simp only [Option.map_some, hwrap, hcut, hdiffers, hone, true_and, errorsAt, hsome, Option.toList_some, List.map_cons,
          List.map_nil, visited]
        by_cases hsame : last = some (cutName name, number)
        · rw [if_neg (not_not_intro hsame), if_pos hsame]
          rfl
        · rw [if_pos hsame, if_neg hsame]
          rfl
      · have hzero : number = 0 := by omega
        have hnone : errorOf l = none := by
          simp only [errorOf, hname, Option.bind_some, hnumber, Option.filter_some, decide_eq_false hpos, Bool.false_eq_true, if_false,
            Option.map_none]
        rw [errorsAt, hnone, hzero]
        rfl

/-! ## The loop over the lines -/

/-- The errors in front of the others are gone to first. -/
theorem visited_errorsAt (f : List Byte → List Byte) (last : Option (List Byte × Nat)) (offset : Nat) (l : List Byte) (es : List ErrorLine) :
    (visited f last (errorsAt offset l) = [] ∧ visited f last (errorsAt offset l ++ es) = visited f last es) ∨
      ∃ e : ErrorLine, e.offset = offset ∧ visited f last (errorsAt offset l) = [e] ∧
        visited f last (errorsAt offset l ++ es) = e :: visited f (some (f e.name, e.number)) es := by
  unfold errorsAt
  cases errorOf l with
  | none => exact Or.inl ⟨rfl, rfl⟩
  | some found =>
    simp only [Option.toList_some, List.map_cons, List.map_nil, visited, List.cons_append, List.nil_append]
    by_cases h : last = some (f found.1, found.2)
    · rw [if_pos h, if_pos h]
      exact Or.inl ⟨rfl, rfl⟩
    · rw [if_neg h, if_neg h]
      exact Or.inr ⟨_, rfl, rfl, rfl⟩

/-- The text from an error on: where its line stands, and the errors that are gone to behind it. -/
structure Ahead (r : Reader) (e : ErrorLine) (es : List ErrorLine) (done l : List Byte) (ls : List (List Byte)) : Prop where
  text : r.text = done ++ l ++ begun newline ls
  lines : ∀ x ∈ l :: ls, newline ∉ x ∧ FitsInt x
  offset : done.length = e.offset
  rest : visited cutName (some (cutName e.name, e.number)) (errorsFrom ((done ++ l).length + 1) ls) = es

/-- A search finds the first of the errors, from where the others follow. -/
def Finds (r : Reader) (search : Option (Option FoundError)) (es : List ErrorLine) : Prop :=
  search = some (es.head?.map ErrorLine.found) ∧ ∀ e es', es = e :: es' → ∃ done l ls, Ahead r e es' done l ls

/-- A line is looked at, and then the search goes on. -/
theorem finds_line (h8 : r.charset ≠ .utf8) (hbytes : ∀ c ∈ r.text, c < 256) (hlines : ∀ x ∈ l :: ls, newline ∉ x ∧ FitsInt x)
    (ht : r.text = done ++ l ++ begun newline ls) (hlast : st.Last last) {search : Option (Option FoundError)}
    (hsearch : Finds r search (visited cutName last (errorsFrom ((done ++ l).length + 1) ls))) :
    Finds r ((findError r st done.length).bind fun found => found.elim search fun e => some (some e))
      (visited cutName last (errorsFrom done.length (l :: ls))) := by
  obtain ⟨hl, hfit⟩ := hlines l List.mem_cons_self
  rw [findError_eq h8 hbytes hl hfit ht hlast, Option.bind_some, errorsFrom, ← List.length_append]
  obtain ⟨hnone, hes⟩ | ⟨e, hoffset, hsome, hes⟩ := visited_errorsAt cutName last done.length l (errorsFrom ((done ++ l).length + 1) ls)
  · rw [hnone, hes]
    exact hsearch
  · rw [hsome, hes]
    refine ⟨rfl, ?_⟩
    intro e' es' h
    obtain ⟨rfl, rfl⟩ := List.cons.inj h
    exact ⟨done, l, ls, ht, hlines, hoffset.symm, rfl⟩

theorem errorLoop_end {n : Nat} (ht : r.text = done) : errorLoop r st 1 (n + 1) done.length = some none := by
  have hend : otherLine r 1 done.length = some none := by
    rw [otherLine, if_pos one_pos, Reader.total, ht, if_pos (le_refl _)]
  rw [errorLoop, hend]
  rfl

theorem errorLoop_line (h8 : r.charset ≠ .utf8) (hl : newline ∉ l) (ht : r.text = done ++ l ++ begun newline ls)
    (hne : l ++ begun newline ls ≠ []) (n : Nat) :
    errorLoop r st 1 (n + 1) done.length = (findError r st ((done ++ l).length + if ls = [] then 0 else 1 : Nat)).bind fun found =>
      found.elim (errorLoop r st 1 n ((done ++ l).length + if ls = [] then 0 else 1 : Nat)) fun e => some (some e) := by
  have hlen : l.length < r.turns := by
    rw [Reader.turns, ht, List.length_append, List.length_append]
    omega
  have htotal : ¬r.total ≤ done.length := by
    have hpos := List.length_pos_of_ne_nil hne
    rw [Reader.total, ht, List.append_assoc, List.length_append]
    omega
  have hother : otherLine r 1 done.length = some (some (((done ++ l).length + if ls = [] then 0 else 1 : Nat) : Int)) := by
    rw [otherLine, if_pos one_pos, if_neg htotal, skipLine_eq h8 hl ht hlen]
    rfl
  rw [errorLoop, hother, Option.bind_some]

/-- From a line on, the loop finds the first error behind it. -/
theorem errorLoop_finds (h8 : r.charset ≠ .utf8) (hbytes : ∀ c ∈ r.text, c < 256) (hlines : ∀ x ∈ l :: ls, newline ∉ x ∧ FitsInt x)
    (ht : r.text = done ++ l ++ begun newline ls) (hlast : st.Last last) {n : Nat} (hn : ls.length + 2 ≤ n) :
    Finds r (errorLoop r st 1 n done.length) (visited cutName last (errorsFrom ((done ++ l).length + 1) ls)) := by
  induction ls generalizing done l n with
  | nil =>
    obtain ⟨n, rfl⟩ : ∃ m, n = m + 2 := Nat.exists_eq_add_of_le' hn
    have hnil : Finds r (some none) (visited cutName last []) := ⟨rfl, fun e es h => (by cases h)⟩
    rw [Lines.begun_nil, List.append_nil] at ht
    by_cases hempty : l = []
    · rw [hempty, List.append_nil] at ht
      rw [errorLoop_end ht]
      exact hnil
    · have hend : Finds r (errorLoop r st 1 (n + 1) (done ++ l).length) (visited cutName last []) := by
        rw [errorLoop_end ht]
        exact hnil
      have hblank : ∀ x ∈ [([] : List Byte)], newline ∉ x ∧ FitsInt x := by
        intro x hx
        rw [List.mem_singleton.1 hx]
        exact ⟨List.not_mem_nil, fun e he => (by cases he)⟩
      have ht' : r.text = done ++ l ++ [] ++ begun newline [] := by rw [ht, Lines.begun_nil, List.append_nil, List.append_nil]
      have h := finds_line h8 hbytes hblank ht' hlast hend
      rw [errorLoop_line h8 (hlines l List.mem_cons_self).1 (by rw [ht, Lines.begun_nil, List.append_nil]) (by simpa using hempty), if_pos rfl,
        Nat.add_zero]
      exact h
  | cons l₂ ls ih =>
    obtain ⟨n, rfl⟩ : ∃ m, n = m + 1 := Nat.exists_eq_add_of_le' (Nat.le_of_add_left_le hn)
    have hlines' : ∀ x ∈ l₂ :: ls, newline ∉ x ∧ FitsInt x := fun x hx => hlines x (List.mem_cons_of_mem _ hx)
    have ht' : r.text = done ++ l ++ [newline] ++ l₂ ++ begun newline ls := by
      rw [ht]
      simp
    have hlen : (done ++ l ++ [newline]).length = (done ++ l).length + 1 := by rw [List.length_append, List.length_singleton]
    have hrest := ih hlines' ht' (Nat.le_of_succ_le_succ (by simpa using hn))
    have h := finds_line h8 hbytes hlines' ht' hlast hrest
    rw [hlen] at h
    rw [errorLoop_line h8 (hlines l List.mem_cons_self).1 ht (by simp), if_neg (List.cons_ne_nil _ _)]
    exact h

/-! ## Successive calls -/

/-- The state between calls, with the errors that are still to come. -/
inductive Position (r : Reader) (st : ErrorState) (es : List ErrorLine) : Prop where
  | fresh (offset : st.errorOffset = -1) (last : st.lastLineNum = -1) (rest : visited cutName none (errorLines r.text) = es)
  | behind {e : ErrorLine} {done l : List Byte} {ls : List (List Byte)} (offset : st.errorOffset = e.offset)
      (last : st.Last (some (cutName e.name, e.number))) (rest : Ahead r e es done l ls)

theorem length_le_begun (ls : List (List Byte)) : ls.length ≤ (begun newline ls).length := by
  induction ls with
  | nil => exact Nat.le_refl _
  | cons l ls ih =>
    rw [Lines.begun_cons, List.length_append, List.length_cons, List.length_cons]
    omega

/-- Text whose bytes are characters and whose errors have numbers that fit an `int`. -/
structure Readable (r : Reader) : Prop where
  charset : r.charset ≠ .utf8
  bytes : ∀ c ∈ r.text, c < 256
  numbers : ∀ l ∈ r.text.splitOn newline, FitsInt l

theorem searchError_finds (h : Readable r) {es : List ErrorLine} (hpos : Position r st es) : Finds r (searchError r st 1) es := by
  cases hpos with
  | fresh hoffset hlast hrest =>
    obtain ⟨l, ls, hls⟩ := List.exists_cons_of_ne_nil (List.splitOn_ne_nil newline r.text)
    have ht : r.text = [] ++ l ++ begun newline ls := by
      have hcut := Lines.intercalate_cut newline [] l ls
      rw [List.nil_append, ← hls, List.intercalate_splitOn] at hcut
      exact hcut
    have hlines : ∀ x ∈ l :: ls, newline ∉ x ∧ FitsInt x := by
      intro x hx
      rw [← hls] at hx
      exact ⟨Lines.not_mem_of_mem_splitOn hx, h.numbers x hx⟩
    have hn : ls.length + 2 ≤ r.turns + 1 := by
      have hle := length_le_begun ls
      rw [Reader.turns, ht, List.length_append]
      omega
    have hlast : st.Last none := hlast
    have hfirst := finds_line h.charset h.bytes hlines ht hlast (errorLoop_finds h.charset h.bytes hlines ht hlast hn)
    rw [errorLines, hls] at hrest
    rw [searchError, hoffset, if_pos (by decide), ← hrest]
    exact hfirst
  | @behind e done l ls hoffset hlast hrest =>
    have hn : ls.length + 2 ≤ r.turns + 1 := by
      have hle := length_le_begun ls
      rw [Reader.turns, hrest.text, List.length_append]
      omega
    have hloop := errorLoop_finds h.charset h.bytes hrest.lines hrest.text hlast hn
    rw [hrest.rest, hrest.offset, ← hoffset] at hloop
    rw [searchError, if_neg (by rw [hoffset]; omega)]
    exact hloop

/-- A call goes to the first of the errors that are still to come, or tells that there are none. -/
theorem doCompileError_position (h : Readable r) {es : List ErrorLine} (hpos : Position r st es) (b : BufferPtr)
    (shell : Option (BufferPtr × Reader)) (windows : List (BufferPtr × Int)) :
    ∃ st' windows', doCompileError (some (b, r)) shell st windows 1 =
        some (st', windows', (es.map ErrorLine.goto).headD (.putStatus "No more errors")) ∧ Position r st' es.tail := by
  obtain ⟨hfound, hrest⟩ := searchError_finds h hpos
  cases es with
  | nil =>
    refine ⟨st, windows, ?_, hpos⟩
    unfold doCompileError
    simp only [Option.some_or, hfound]
    rfl
  | cons e es =>
    obtain ⟨done, l, ls, hahead⟩ := hrest e es rfl
    refine ⟨⟨e.offset, e.number, cutName e.name⟩, windows.map fun p => (p.1, if p.1 = b then (e.offset : Int) else p.2),
      ?_, .behind rfl ⟨rfl, cString_cString _⟩ hahead⟩
    unfold doCompileError
    simp only [Option.some_or, hfound]
    rfl

/-- So the calls go to one after the other. -/
theorem nextErrors_position (h : Readable r) {es : List ErrorLine} (hpos : Position r st es) (b : BufferPtr)
    (shell : Option (BufferPtr × Reader)) (calls : List (List (BufferPtr × Int))) :
    nextErrors (some (b, r)) shell st calls = some ((es.map ErrorLine.goto ++
      List.replicate calls.length (Outcome.putStatus "No more errors")).take calls.length) := by
  induction calls generalizing st es with
  | nil => rfl
  | cons windows calls ih =>
    obtain ⟨st', windows', hcall, hpos'⟩ := doCompileError_position h hpos b shell windows
    rw [nextErrors, hcall, Option.bind_some]
    dsimp only
    rw [ih hpos', Option.map_some, List.length_cons]
    cases es with
    | nil => rw [List.tail_nil, List.map_nil, List.nil_append, List.nil_append, List.replicate_succ, List.take_succ_cons]; rfl
    | cons e es =>
      have htake : (es.map ErrorLine.goto ++ List.replicate (calls.length + 1) (Outcome.putStatus "No more errors")).take calls.length =
          (es.map ErrorLine.goto ++ List.replicate calls.length (Outcome.putStatus "No more errors")).take calls.length := by
        rw [List.replicate_succ', ← List.append_assoc, List.take_append_of_le_length]
        rw [List.length_append, List.length_replicate]
        exact Nat.le_add_left _ _
      rw [List.map_cons, List.cons_append, List.take_succ_cons, htake]
      rfl

/-- Calls of `next-error` behind a fresh compilation go to the errors in their order, each unless it has the name, as the array holds
it, and the number of the one before it; then there are no more errors. -/
theorem nextErrors_visits (h : Readable r) (b : BufferPtr) (shell : Option (BufferPtr × Reader)) (st : ErrorState)
    (calls : List (List (BufferPtr × Int))) :
    ∃ outcomes, nextErrors (some (b, r)) shell st.doCompile calls = some outcomes ∧ outcomes.length = calls.length ∧
      Visits cutName r.text outcomes := by
  have hlen : (((visited cutName none (errorLines r.text)).map ErrorLine.goto ++
      List.replicate calls.length (Outcome.putStatus "No more errors")).take calls.length).length = calls.length := by
    rw [List.length_take, List.length_append, List.length_replicate]
    exact Nat.min_eq_left (Nat.le_add_left _ _)
  refine ⟨_, nextErrors_position h (.fresh rfl rfl rfl) b shell calls, hlen, ?_⟩
  rw [Visits, hlen]

/-- Two errors, and then no more. -/
theorem nextErrors_visits_two : ∃ outcomes, nextErrors (some (0, ⟨cstr "make\na.c:1: x\na.c:1:\nb.c:2:", .latin1, []⟩)) none
    (⟨7, 1, cstr "a.c"⟩ : ErrorState).doCompile [[], [], []] = some outcomes ∧ outcomes.length = 3 ∧
      Visits cutName (cstr "make\na.c:1: x\na.c:1:\nb.c:2:") outcomes := by
  refine nextErrors_visits (r := ⟨cstr "make\na.c:1: x\na.c:1:\nb.c:2:", .latin1, []⟩) ⟨by decide, by decide, ?_⟩ 0 none _ [[], [], []]
  have hnumbers : ∀ l ∈ (cstr "make\na.c:1: x\na.c:1:\nb.c:2:").splitOn newline, ∀ e ∈ errorOf l, e.2 < 2 ^ 31 := by decide +kernel
  exact hnumbers

/-- A name ends at a NUL, so the second of these errors is passed over. -/
theorem not_visits : ¬∀ (r : Reader), Readable r → ∀ (calls : List (List (BufferPtr × Int))) (outcomes : List Outcome),
    nextErrors (some (0, r)) none ⟨-1, -1, []⟩ calls = some outcomes → Visits id r.text outcomes := by
  intro h
  have hnumbers : ∀ l ∈ (cstr "a\x00b:1:\na\x00c:1:\n").splitOn newline, ∀ e ∈ errorOf l, e.2 < 2 ^ 31 := by decide +kernel
  have hrun : ((nextErrors (some (0, ⟨cstr "a\x00b:1:\na\x00c:1:\n", .latin1, []⟩)) none ⟨-1, -1, []⟩ [[], []]).map fun outcomes =>
      decide (Visits id (cstr "a\x00b:1:\na\x00c:1:\n") outcomes)) = some false := by decide +kernel
  obtain ⟨outcomes, hout, hnot⟩ := Option.map_eq_some_iff.1 hrun
  exact of_decide_eq_false hnot (h ⟨cstr "a\x00b:1:\na\x00c:1:\n", .latin1, []⟩ ⟨by decide, by decide, hnumbers⟩ [[], []] outcomes hout)

end CompileError

end Hoe
