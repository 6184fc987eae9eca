import Hoe.EditCommands
import Hoe.Lemmas.ByteLines
import Hoe.Lib.Words

/-!
# Texts in ASCII

In a text of bytes below 128 each character is a byte, whatever the charset. The moves between paragraphs stay in the text, and
the loops of `do_fill_paragraph` over a gap and over a word go as far as they are long.
-/

namespace Hoe

open Splice Words

/-- What holds along the way of a loop holds where it stops. -/
theorem scan_induction {α : Type*} {next : α → Option α} {p : α → Prop} (hstep : ∀ x y, p x → next x = some y → p y) {x : α}
    (hx : p x) (n : Nat) : p (scan next n x) := by
  induction n generalizing x with
  | zero => exact hx
  | succ n ih =>
    rw [scan]
    split
    · exact hx
    · rename_i y hy
      exact ih (hstep x y hx hy)

namespace Reader

/-- All bytes are below 128. -/
def Ascii (r : Reader) : Prop := ∀ c ∈ r.text, c < 0x80

/-- The offset lies in the text, or at its end. -/
def Within (r : Reader) (o : Int) : Prop := 0 ≤ o ∧ o ≤ r.total

variable {r : Reader}

theorem Ascii.byte_lt (h : r.Ascii) (o : Nat) : r.text.getD o 0 < 0x80 := by
  rcases Nat.lt_or_ge o r.text.length with hlt | hge
  · rw [getD_of_lt _ hlt]
    exact h _ (List.getElem_mem hlt)
  · rw [List.getD_eq_default _ _ hge]
    decide

/-- In a text of 7 bits every byte is a character. -/
theorem Ascii.nextc (h : r.Ascii) {o : Nat} (ho : o < r.text.length) : r.nextc o = (r.text.getD o 0, (o : Int) + 1) := by
  have hlt : ¬r.total ≤ o := by
    rw [total]
    omega
  have hbyte : r.byte o < 0x80 := h.byte_lt o
  rw [Reader.nextc, if_neg hlt]
  exact if_pos (Or.inr hbyte)

/-- The next character ends in the text. -/
theorem Ascii.nextc_within (h : r.Ascii) {o : Int} (ho : r.Within o) : r.Within (r.nextc o).2 := by
  obtain ⟨n, rfl⟩ := Int.eq_ofNat_of_zero_le ho.1
  have htotal : r.total = (r.text.length : Nat) := rfl
  rcases Nat.lt_or_ge n r.text.length with hlt | hge
  · rw [h.nextc hlt]
    constructor
    · exact Int.le_add_one ho.1
    · show (n : Int) + 1 ≤ r.total
      omega
  · rw [nextc_end r (by omega)]
    exact ⟨by omega, Int.le_refl _⟩

theorem Ascii.prevc_within (h : r.Ascii) {o : Int} (ho : r.Within o) : r.Within (r.prevc o).2 := by
  rcases Int.le_iff_lt_or_eq.mp ho.1 with hpos | rfl
  · obtain ⟨n, rfl⟩ := Int.eq_ofNat_of_zero_le ho.1
    have hback : (r.prevc n).2 = (n : Int) - 1 := by
      rw [prevc, if_neg (by omega)]
      by_cases hu : r.charset = .utf8
      · have htail : ¬isTail (r.text.getD (n - 1) 0) = true := fun htail =>
          absurd (h.byte_lt (n - 1)) (Nat.not_lt.mpr (isTail_iff.mp htail).1)
        have hfirst : firstByte r.text (maxCharBytes - 1) ((n : Int).toNat - 1) = some (n - 1) := if_neg htail
        rw [if_pos hu, hfirst]
        show ((n - 1 : Nat) : Int) = n - 1
        omega
      · rw [if_neg hu]
    rw [hback]
    exact ⟨by omega, by have := ho.2; omega⟩
  · exact ⟨Int.le_refl _, ho.2⟩

/-! ## Lines and paragraphs -/

/-- A line of the text begins in the text. -/
theorem Ascii.gotoBol_within (h : r.Ascii) {o : Int} (ho : r.Within o) : r.Within (r.gotoBol o) := by
  refine scan_induction (fun x y hx hy => ?_) ho r.turns
  split at hy
  · cases hy
  · obtain rfl := Option.some.inj hy
    exact h.prevc_within hx

theorem Ascii.nextLine_within (h : r.Ascii) {o : Int} (ho : r.Within o) : r.Within (r.nextLine o) := by
  refine h.nextc_within (scan_induction (fun x y hx hy => ?_) ho r.turns)
  split at hy
  · cases hy
  · obtain rfl := Option.some.inj hy
    exact h.nextc_within hx

/-- So does a paragraph, which is where `do_fill_paragraph` begins. -/
theorem Ascii.startParagraph_within (h : r.Ascii) {o : Int} (ho : r.Within o) : r.Within (r.startParagraph o) := by
  rw [startParagraph]
  generalize r.turns = n
  induction n generalizing o with
  | zero => exact ho
  | succ n ih =>
    have hbol := h.gotoBol_within ho
    rw [startParagraphLoop]
    split
    · exact hbol
    · split
      · exact h.nextLine_within hbol
      · exact ih (h.prevc_within hbol)

/-- Where the paragraph ends and `do_fill_paragraph` stops. -/
theorem Ascii.nextParagraph_within (h : r.Ascii) {o : Int} (ho : r.Within o) : r.Within (r.nextParagraph o) := by
  have hbol := h.gotoBol_within ho
  rw [nextParagraph]
  generalize r.turns = n, r.gotoBol o = o', false = textFound at hbol ⊢
  induction n generalizing o' textFound with
  | zero => exact hbol
  | succ n ih =>
    rw [nextParagraphLoop]
    have hnext := h.nextLine_within hbol
    split
    · exact hbol
    · split
      · split
        · exact hbol
        · exact ih _ _ hnext
      · exact ih _ _ hnext

/-! ## Gaps and words -/

/-- Over characters of a kind, as far as they go. -/
theorem Ascii.skipChars (h : r.Ascii) (kind : Nat → Bool) {front l back : List Byte} (htext : r.text = front ++ l ++ back) :
    r.skipChars kind ((front ++ l).length : Nat) (front.length : Nat) =
      (((front ++ l.takeWhile kind).length : Int), (l.takeWhile kind).length) := by
  suffices hs : ∀ (n k : Nat) (front l : List Byte), r.text = front ++ l ++ back → l.length < n →
      scan (fun x : Int × Nat => if ((front ++ l).length : Int) ≤ x.1 ∨ ¬kind (r.nextc x.1).1 then none
        else some ((r.nextc x.1).2, x.2 + 1)) n ((front.length : Int), k) =
      (((front ++ l.takeWhile kind).length : Int), k + (l.takeWhile kind).length) by
    have hturns : l.length < r.turns := by
      rw [turns, htext, List.length_append, List.length_append]
      omega
    exact (hs r.turns 0 front l htext hturns).trans (by rw [Nat.zero_add])
  intro n k front l htext hn
  induction l generalizing n k front with
  | nil =>
    rw [scan_stop]
    · simp
    · exact if_pos (Or.inl (by simp))
  | cons c l ih =>
    obtain ⟨n, rfl⟩ := Nat.exists_eq_add_of_le' (show 1 ≤ n by omega)
    have hnext : r.nextc front.length = (c, (front.length : Int) + 1) := by
      rw [h.nextc (by rw [htext]; simp), htext]
      simp
    have hin : ¬((front ++ c :: l).length : Int) ≤ front.length := by simp
    by_cases hc : kind c = true
    · have hgo : (if ((front ++ c :: l).length : Int) ≤ front.length ∨ ¬kind (r.nextc front.length).1 = true then none
          else some ((r.nextc front.length).2, k + 1)) = some (((front ++ [c]).length : Int), k + 1) := by
        rw [hnext, if_neg (not_or.mpr ⟨hin, not_not.mpr hc⟩)]
        simp
      have hrec := ih n (k + 1) (front ++ [c]) (by rw [htext]; simp) (by rw [List.length_cons] at hn; omega)
      have hassoc : front ++ [c] ++ l = front ++ c :: l := by simp
      rw [hassoc] at hrec
      rw [scan_go hgo, hrec, List.takeWhile_cons_of_pos hc]
      refine Prod.ext (by simp) ?_
      rw [List.length_cons]
      omega
    · have hstop : (if ((front ++ c :: l).length : Int) ≤ front.length ∨ ¬kind (r.nextc front.length).1 = true then none
          else some ((r.nextc front.length).2, k + 1)) = none := by
        rw [hnext]
        exact if_pos (Or.inr hc)
      rw [scan_stop hstop, List.takeWhile_cons_of_neg hc]
      simp

end Reader

end Hoe
