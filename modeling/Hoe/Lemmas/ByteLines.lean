import Hoe.Lib.Lines
import Hoe.Lemmas.Colorize
import Hoe.Lemmas.Editor

/-!
# Lines of single bytes

Where a character is a byte, the moves of the text mode lead to the ends of the lines: `do_goto_line` to the beginning of a line,
`do_eol` to its end, and the way back over the blanks to the end of what is left without them. `eb_get_pos` counts the bytes.
-/

namespace Hoe

open Splice Lines

/-! ## Lines and columns -/

/-- Where each byte is a character, there are as many of them. -/
theorem countChars_single {charset : Charset} (hu : charset ≠ .utf8) (buf : List Byte) :
    countChars charset buf.length buf = buf.length := by
  induction buf with
  | nil => rfl
  | cons c buf ih => rw [List.length_cons, countChars, if_neg fun h => hu h.1, ih]

/-- The line and the column are then those of the bytes. -/
theorem getPos_bytes {charset : Charset} (hu : charset ≠ .utf8) (buf : List Byte) :
    getPos charset buf = (buf.count newline, (lastLine buf).length) := by
  rw [getPos, countChars_single hu]

/-- The column of an offset is its distance from the beginning of the line. -/
theorem getPosFrom_col {charset : Charset} (hu : charset ≠ .utf8) {ps : List Page} (hok : ∀ p ∈ ps, p.Ok) (offset line : Nat)
    (front : List Byte) :
    (getPosFrom charset ps offset line (lastLine front).length).2 = (lastLine (front ++ (tableBytes ps).take offset)).length := by
  induction ps generalizing offset line front with
  | nil => simp [getPosFrom]
  | cons p ps ih =>
    obtain ⟨hp, hps⟩ := List.forall_mem_cons.mp hok
    have hlen : p.data.length = p.size := hp.data
    have hcol (buf : List Byte) : (if buf.count newline = 0 then (lastLine front).length + (lastLine buf).length
        else (lastLine buf).length) = (lastLine (front ++ buf)).length := by
      rw [lastLine_append]
      by_cases hmem : newline ∈ buf
      · rw [if_neg (Nat.ne_of_gt (List.count_pos_iff.mpr hmem)), if_pos hmem]
      · rw [if_pos (List.count_eq_zero.mpr hmem), if_neg hmem, lastLine_of_not_mem hmem, List.length_append]
    rw [getPosFrom, tableBytes_cons, List.take_append, getPos_bytes hu, getPos_bytes hu]
    dsimp only
    by_cases hin : offset < p.size
    · rw [if_pos hin, Nat.sub_eq_zero_of_le (by omega), List.take_zero, List.append_nil]
      exact hcol _
    · have hall : p.data.take offset = p.data := List.take_of_length_le (by omega)
      rw [if_neg hin, hcol, ih hps, hall, hlen, List.append_assoc]

/-- `eb_get_pos` finds the line and the column. -/
theorem ebGetPos_bytes {t : Pages} (ht : t.Ok) {charset : Charset} (hu : charset ≠ .utf8) (offset : Nat) :
    ebGetPos t charset offset = ((t.bytes.take offset).count newline, (lastLine (t.bytes.take offset)).length) := by
  refine Prod.ext (ebGetPos_line ht charset offset) ?_
  rw [ebGetPos, Int.toNat_natCast]
  exact getPosFrom_col hu ht.pages offset 0 []

/-! ## Beginnings of lines -/

/-- Whole lines are skipped. -/
theorem skipLines_ended {a : List (List Byte)} (ha : ∀ l ∈ a, newline ∉ l) (rest : List Byte) :
    skipLines a.length (ended newline a ++ rest) = (ended newline a).length := by
  induction a with
  | nil => rfl
  | cons l a ih =>
    obtain ⟨hl, ha⟩ := List.forall_mem_cons.mp ha
    have hcut : ended newline (l :: a) ++ rest = l ++ newline :: (ended newline a ++ rest) := by simp
    rw [List.length_cons, hcut, skipLines_line hl, ih ha]
    simp
    omega

namespace Editor

variable {s : Editor} {a b : List (List Byte)} {l : List Byte}

/-- `do_goto_line` goes to the beginning of a line. -/
theorem gotoLine_line (hwf : s.buffer.WellFormed) (ha : ∀ l ∈ a, newline ∉ l) {rest : List Byte}
    (htext : s.buffer.bytes = ended newline a ++ rest) :
    s.gotoLine (a.length + 1 : Nat) = { s with offset := (ended newline a).length } := by
  obtain ⟨d, hd⟩ := hwf
  have hcount : a.length ≤ s.buffer.bytes.count newline := by
    rw [htext, List.count_append, count_ended ha]
    exact Nat.le_add_right _ _
  have hline : ((a.length + 1 : Nat) - 1 : Int).toNat = a.length := by omega
  rw [gotoLine, if_neg (by omega), hline, ebGotoPos_bol hd.ok rfl hcount, htext, skipLines_ended ha]

theorem doEol_text (h : s.mode = .text) : s.doEol = { s with offset := s.reader.moveEol s.offset } := by rw [doEol, h]

end Editor

/-! ## Ends of lines -/

/-- The scan ends where there is no next place. -/
theorem scan_stop {α : Type*} {next : α → Option α} {x : α} (h : next x = none) (n : Nat) : scan next n x = x := by
  cases n with
  | zero => rfl
  | succ n => rw [scan, h]

/-- It goes on where there is one. -/
theorem scan_go {α : Type*} {next : α → Option α} {x y : α} (h : next x = some y) (n : Nat) :
    scan next (n + 1) x = scan next n y := by
  rw [scan, h]

namespace Reader

variable {r : Reader} {front l back : List Byte}

/-- The end of the line, from any place of it. -/
theorem moveEol_line (hu : r.charset ≠ .utf8) (htext : r.text = front ++ l ++ back) (hl : newline ∉ l)
    (hback : back = [] ∨ ∃ c, back = newline :: c) : r.moveEol front.length = (front ++ l).length := by
  obtain ⟨n, hn, hturns⟩ : ∃ n, l.length < n ∧ n = r.turns := by
    refine ⟨r.turns, ?_, rfl⟩
    rw [turns, htext]
    simp
    omega
  rw [moveEol, ← hturns]
  clear hturns
  induction l generalizing front n with
  | nil =>
    have hstop : (r.nextc front.length).1 = newline := by
      rw [List.append_nil] at htext
      rcases hback with rfl | ⟨c, rfl⟩
      · rw [nextc_end r (by rw [total, htext]; simp)]
      · rw [nextc_byte hu (by rw [htext]; simp), htext]
        simp
    rw [List.append_nil]
    refine scan_stop ?_ n
    exact if_pos hstop
  | cons c l ih =>
    obtain ⟨n, rfl⟩ := Nat.exists_eq_add_of_le' (show 1 ≤ n by omega)
    obtain ⟨hc, hl⟩ := not_or.mp (fun h => hl (List.mem_cons.mpr h))
    have hnext : r.nextc front.length = (c, (front.length : Int) + 1) := by
      rw [nextc_byte hu (by rw [htext]; simp), htext]
      simp
    have hih := ih (show r.text = front ++ [c] ++ l ++ back by rw [htext]; simp) hl n (by rw [List.length_cons] at hn; omega)
    have hgo : (if (r.nextc front.length).1 = newline then none else some (r.nextc front.length).2) =
        some ((front ++ [c]).length : Int) := by
      rw [hnext, if_neg (Ne.symm hc)]
      simp
    rw [scan_go hgo, hih]
    simp

end Reader

/-- A blank: a white space other than a newline. -/
def isBlank (c : Byte) : Bool := isspace c && c != newline

/-- Back over the blanks at the end of the line. -/
theorem Reader.skipSpacesBack_line {r : Reader} {front l back : List Byte} (hu : r.charset ≠ .utf8)
    (htext : r.text = front ++ l ++ back) (hfront : front = [] ∨ ∃ c, front = c ++ [newline]) :
    r.skipSpacesBack (front ++ l).length =
      (((front ++ l.rdropWhile isBlank).length : Int), l.length - (l.rdropWhile isBlank).length) := by
  -- the number of blanks that were counted before
  suffices h : ∀ n k : Nat, l.length < n → scan (fun x : Int × Nat =>
      if ¬isspace (r.prevc x.1).1 ∨ (r.prevc x.1).1 = newline then none else some ((r.prevc x.1).2, x.2 + 1)) n
        (((front ++ l).length : Int), k) =
      (((front ++ l.rdropWhile isBlank).length : Int), k + (l.length - (l.rdropWhile isBlank).length)) by
    have hturns : l.length < r.turns := by
      rw [turns, htext]
      simp
      omega
    exact (h r.turns 0 hturns).trans (by rw [Nat.zero_add])
  induction l using List.reverseRecOn generalizing back with
  | nil =>
    intro n k _
    have hstop : (r.prevc front.length).1 = newline := by
      rcases hfront with rfl | ⟨c, rfl⟩
      · rfl
      · rw [prevc_byte hu (by simp), htext]
        simp
    rw [List.append_nil]
    rw [scan_stop]
    · simp
    · exact if_pos (Or.inr hstop)
  | append_singleton l c ih =>
    intro n k hn
    obtain ⟨n, rfl⟩ := Nat.exists_eq_add_of_le' (show 1 ≤ n by omega)
    have hprev : r.prevc ((front ++ (l ++ [c])).length : Int) = (c, ((front ++ l).length : Int)) := by
      rw [prevc_byte hu (by simp), htext]
      simp [List.getD_eq_getElem?_getD]
      omega
    rw [List.rdropWhile_concat]
    by_cases hc : isBlank c = true
    · have hblank : ¬(¬isspace c = true ∨ c = newline) := by
        simpa [isBlank] using hc
      have hgo : (if ¬isspace (r.prevc ((front ++ (l ++ [c])).length : Int)).1 = true ∨
          (r.prevc ((front ++ (l ++ [c])).length : Int)).1 = newline then none
            else some ((r.prevc ((front ++ (l ++ [c])).length : Int)).2, k + 1)) = some (((front ++ l).length : Int), k + 1) := by
        rw [hprev, if_neg hblank]
      rw [scan_go hgo, if_pos hc, ih (show r.text = front ++ l ++ ([c] ++ back) by rw [htext]; simp) n (k + 1) (by simp at hn; omega)]
      have hle := (List.rdropWhile_prefix isBlank l).length_le
      have hlen : (l ++ [c]).length = l.length + 1 := List.length_append
      exact Prod.ext rfl (by simp only [hlen]; omega)
    · have hblank : ¬isspace c = true ∨ c = newline := by
        by_contra hcon
        exact hc (by simpa [isBlank] using hcon)
      have hstop : (if ¬isspace (r.prevc ((front ++ (l ++ [c])).length : Int)).1 = true ∨
          (r.prevc ((front ++ (l ++ [c])).length : Int)).1 = newline then none
            else some ((r.prevc ((front ++ (l ++ [c])).length : Int)).2, k + 1)) = none := by
        rw [hprev, if_pos hblank]
      rw [scan_stop hstop, if_neg hc, Nat.sub_self, Nat.add_zero]

end Hoe
