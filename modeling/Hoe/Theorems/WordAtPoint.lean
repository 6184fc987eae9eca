import Mathlib.Data.List.DropRight
import Hoe.EditCommands
import Hoe.Lemmas.AsciiText
import Hoe.Lemmas.Editor
import Hoe.Lemmas.Spelled
import Hoe.Theorems.Transpose

/-!
# The word at the point

In ASCII `do_read_word_at_offset` reads the run of word characters around the point, if that run is shorter than the array and does
not begin with the text. In front of a word at the beginning of the text the first loop gives up and begins where the point is,
and a run that fills the array is left without an end.
-/

namespace Hoe

/-- The longest run of word characters that contains or touches an offset. -/
def wordAround (text : List Byte) (o : Nat) : List Byte :=
  (text.take o).rtakeWhile isword ++ (text.drop o).takeWhile isword

namespace Editor

/-- Away from the end of the text both readers go by one byte. -/
theorem nextc_ascii {r : Reader} (h : r.Ascii) {o : Nat} (ho : o < r.text.length) : r.nextc o = (r.text[o], ((o + 1 : Nat) : Int)) := by
  rw [h.nextc ho, getD_of_lt _ ho]
  rfl

theorem prevc_ascii {r : Reader} (h : r.Ascii) {o : Nat} (ho : o < r.text.length) : r.prevc ((o + 1 : Nat) : Int) = (r.text[o], (o : Int)) := by
  have htake : r.text.take (o + 1) = r.text.take o ++ [r.text[o]] := (List.take_append_getElem ho).symm
  have hlow (k : Nat) : ∀ c ∈ r.text.take k, c < 0x80 := fun c hc => h c (List.mem_of_mem_take hc)
  have hspelled : Spelled r (r.text.take o ++ [r.text[o]]) (r.text.drop (o + 1)) := by
    refine ⟨fun _ c hc => ?_, ?_⟩
    · rw [← htake, List.take_append_drop] at hc
      have hlow : c < 0x80 := h c hc
      exact ⟨by omega, by omega, by omega, by omega⟩
    · rw [← htake, spelling_ascii _ (hlow _), spelling_ascii _ fun c hc => h c (List.mem_of_mem_drop hc), List.take_append_drop]
  have hlen (k : Nat) (hk : k ≤ r.text.length) : spelledLen r.charset (r.text.take k) = k := by
    rw [spelledLen, spelling_ascii _ (hlow k), List.length_take_of_le hk]
  have hread := hspelled.prevc
  rwa [← htake, hlen _ ho, hlen _ ho.le] at hread

variable {s : Editor} {o : Nat}

/-- The first loop goes back over the word characters in front of the point. -/
theorem scan_wordStart {r : Reader} (h : r.Ascii) (ho : o ≤ r.text.length) {n : Nat} (hn : o ≤ n) :
    scan (fun o => if o = 0 ∨ ¬isword (r.prevc o).1 then none else some (r.prevc o).2) n (o : Int) =
      ((o - ((r.text.take o).rtakeWhile isword).length : Nat) : Int) := by
  induction o generalizing n with
  | zero => exact scan_stop (by simp) n
  | succ o ih =>
    obtain ⟨n, rfl⟩ : ∃ m, n = m + 1 := ⟨n - 1, by omega⟩
    have hread := prevc_ascii h ho
    rw [← List.take_append_getElem ho, List.rtakeWhile_concat]
    by_cases hw : isword r.text[o] = true
    · have hback : (if ((o + 1 : Nat) : Int) = 0 ∨ ¬isword (r.prevc ((o + 1 : Nat) : Int)).1 then none
          else some (r.prevc ((o + 1 : Nat) : Int)).2) = some (o : Int) := by
        rw [hread]
        exact if_neg (by simp [hw]; omega)
      rw [scan_go hback, ih (Nat.le_of_succ_le ho) (Nat.le_of_succ_le_succ hn), if_pos hw, List.length_append,
        List.length_singleton, Nat.succ_sub_succ]
    · have hstay : (if ((o + 1 : Nat) : Int) = 0 ∨ ¬isword (r.prevc ((o + 1 : Nat) : Int)).1 then none
          else some (r.prevc ((o + 1 : Nat) : Int)).2) = none := by
        rw [hread]
        exact if_pos (by simp [hw])
      rw [scan_stop hstay, if_neg hw]
      rfl

theorem length_rtakeWhile_eq (p : Byte → Bool) (l : List Byte) : (l.rtakeWhile p).length = l.length ↔ ∀ c ∈ l, p c = true := by
  rw [← List.rtakeWhile_eq_self_iff]
  exact ⟨fun hlen => (List.rtakeWhile_suffix p l).eq_of_length hlen, congrArg List.length⟩

theorem wordStart_eq (h : s.reader.Ascii) (ho : s.offset = o) (hle : o ≤ s.buffer.bytes.length) :
    s.wordStart = if ∀ c ∈ s.buffer.bytes.take o, isword c = true then (o : Int)
      else ((o - ((s.buffer.bytes.take o).rtakeWhile isword).length : Nat) : Int) := by
  have hturns : o ≤ s.reader.turns + 1 := by
    show o ≤ s.buffer.bytes.length + 1 + 1
    omega
  have hloop := scan_wordStart (r := s.reader) h hle hturns
  have hlen := (List.rtakeWhile_suffix isword (s.buffer.bytes.take o)).length_le
  have htake : (s.buffer.bytes.take o).length = o := List.length_take_of_le hle
  have hall := length_rtakeWhile_eq isword (s.buffer.bytes.take o)
  rw [htake] at hlen hall
  have hstart : s.wordStart = if ((o - ((s.buffer.bytes.take o).rtakeWhile isword).length : Nat) : Int) = 0 then (o : Int)
      else ((o - ((s.buffer.bytes.take o).rtakeWhile isword).length : Nat) : Int) := by
    rw [wordStart, ho, hloop]
    rfl
  rw [hstart]
  exact if_congr (by rw [← hall]; omega) rfl rfl

/-- The second loop reads the word characters behind the point, and nothing but the point has moved. -/
theorem wordChars_eq (hwf : s.buffer.WellFormed) (h : s.reader.Ascii) (ho : s.offset = o) (hle : o ≤ s.buffer.bytes.length)
    (oOffs : Int) {n : Nat} (hn : s.buffer.bytes.length - o < n) :
    (wordChars oOffs n s).2 = (s.buffer.bytes.drop o).takeWhile isword ∧
      ∀ p : Int, { (wordChars oOffs n s).1 with offset := p } = { s with offset := p } := by
  induction n generalizing s o with
  | zero => omega
  | succ n ih =>
    have htotal := total_eq hwf
    rw [wordChars]
    rcases Nat.lt_or_eq_of_le hle with hlt | rfl
    · have hread : s.reader.nextc s.offset = (s.buffer.bytes[o], ((o + 1 : Nat) : Int)) := by
        rw [ho]
        exact nextc_ascii h hlt
      rw [if_neg (by omega), hread, List.drop_eq_getElem_cons hlt, List.takeWhile_cons]
      by_cases hw : isword s.buffer.bytes[o] = true
      · obtain ⟨hchars, hframe⟩ := ih (s := { s with offset := ((o + 1 : Nat) : Int) }) hwf h rfl hlt
          (by show s.buffer.bytes.length - (o + 1) < n; omega)
        rw [if_neg (by simp [hw]), if_pos hw]
        exact ⟨congrArg (s.buffer.bytes[o] :: ·) hchars, hframe⟩
      · rw [if_pos (by simp [hw]), if_neg hw]
        exact ⟨rfl, fun p => rfl⟩
    · rw [if_pos (by omega), List.drop_length]
      exact ⟨rfl, fun p => rfl⟩

/-- A word shorter than the array is copied whole, and no other has an end. -/
theorem wordArray_spec {word : List Nat} (hword : ∀ c ∈ word, 0 < c ∧ c < 0x80) :
    (0 ∈ wordArray word ↔ word.length < wordSize) ∧ (word.length < wordSize → (wordArray word).takeWhile (· ≠ 0) = word) := by
  have hbytes : word.map (· % 256) = word := by
    refine (List.map_congr_left fun c hc => ?_).trans word.map_id
    have := hword c hc
    exact Nat.mod_eq_of_lt (by omega)
  have hzero : 0 ∉ word := fun hmem => Nat.lt_irrefl 0 (hword 0 hmem).1
  rw [wordArray, hbytes]
  rcases Nat.lt_or_ge word.length wordSize with hlt | hge
  · obtain ⟨n, hn⟩ : ∃ n, wordSize - word.length = n + 1 := ⟨wordSize - word.length - 1, by omega⟩
    rw [List.take_of_length_le (by simp; omega), hn, List.replicate_succ]
    refine ⟨iff_of_true (by simp) hlt, fun _ => ?_⟩
    rw [List.takeWhile_append_of_pos fun c hc => by simpa using Nat.ne_of_gt (hword c hc).1]
    simp
  · rw [Nat.sub_eq_zero_of_le hge, List.replicate_zero, List.append_nil]
    exact ⟨iff_of_false (fun hmem => hzero (List.mem_of_mem_take hmem)) (Nat.not_lt.mpr hge), fun hlt => absurd hlt (Nat.not_lt.mpr hge)⟩

/-- What the command copies: the run that begins where the first loop has left the point. -/
theorem doReadWordAtOffset_spec (hwf : s.buffer.WellFormed) (h : s.reader.Ascii) {start : Nat} (hstart : s.wordStart = start)
    (hle : start ≤ s.buffer.bytes.length) :
    s.doReadWordAtOffset = if ((s.buffer.bytes.drop start).takeWhile isword).length < wordSize then
      some (s, (s.buffer.bytes.drop start).takeWhile isword) else none := by
  have hturns : s.buffer.bytes.length - start < s.reader.turns := by
    show s.buffer.bytes.length - start < s.buffer.bytes.length + 1
    omega
  obtain ⟨hchars, hframe⟩ := wordChars_eq (s := { s with offset := s.wordStart }) hwf h hstart hle s.offset hturns
  have hword : ∀ c ∈ (s.buffer.bytes.drop start).takeWhile isword, 0 < c ∧ c < 0x80 := fun c hc => by
    refine ⟨Nat.pos_of_ne_zero fun hzero => ?_, h c (List.mem_of_mem_drop ((List.takeWhile_sublist isword).mem hc))⟩
    have := List.mem_takeWhile_imp hc
    rw [hzero] at this
    cases this
  obtain ⟨hend, hcopy⟩ := wordArray_spec hword
  rw [doReadWordAtOffset, hchars, hframe]
  split_ifs with hmem hlt hlt
  · rw [hcopy hlt]
  · exact absurd (hend.mp hmem) hlt
  · exact absurd (hend.mpr hlt) hmem
  · rfl

/-- From the beginning of the run around the point on. -/
theorem takeWhile_around {text : List Byte} (hle : o ≤ text.length) :
    (text.drop (o - ((text.take o).rtakeWhile isword).length)).takeWhile isword = wordAround text o := by
  obtain ⟨front, hfront⟩ := List.rtakeWhile_suffix isword (text.take o)
  have hlen := congrArg List.length hfront
  rw [List.length_append, List.length_take_of_le hle] at hlen
  have htext : text = front ++ ((text.take o).rtakeWhile isword ++ text.drop o) := by
    rw [← List.append_assoc, hfront, List.take_append_drop]
  have hdrop : text.drop front.length = (text.take o).rtakeWhile isword ++ text.drop o := by
    conv_lhs => rw [htext]
    exact List.drop_left
  rw [show o - ((text.take o).rtakeWhile isword).length = front.length by omega, hdrop,
    List.takeWhile_append_of_pos fun c hc => List.mem_rtakeWhile_imp hc]
  rfl

/-- The command leaves the window alone and copies a word: the run around the point, if that is shorter than the array. -/
def ReadsWord (s : Editor) (o : Nat) : Prop :=
  ∃ word, s.doReadWordAtOffset = some (s, word) ∧
    ((wordAround s.buffer.bytes o).length < wordSize → word = wordAround s.buffer.bytes o)

/-- The command reads the word of an ASCII text exactly when the run around the point is shorter than the array and does not
begin with the text in front of the point; a run that does is of no account if it is too long, as long as its rest is not. -/
theorem readsWord_iff (hwf : s.buffer.WellFormed) (h : s.reader.Ascii) (ho : s.offset = o) (hle : o ≤ s.buffer.bytes.length) :
    ReadsWord s o ↔
      if 0 < o ∧ ∀ c ∈ s.buffer.bytes.take o, isword c = true then
        wordSize ≤ (wordAround s.buffer.bytes o).length ∧ ((s.buffer.bytes.drop o).takeWhile isword).length < wordSize
      else (wordAround s.buffer.bytes o).length < wordSize := by
  have hread {word : List Byte} (hrun : s.doReadWordAtOffset = if word.length < wordSize then some (s, word) else none) :
      ReadsWord s o ↔ word.length < wordSize ∧
        ((wordAround s.buffer.bytes o).length < wordSize → word = wordAround s.buffer.bytes o) := by
    rw [ReadsWord, hrun]
    constructor
    · rintro ⟨word', hsome, hword⟩
      split_ifs at hsome with hlt
      cases hsome
      exact ⟨hlt, hword⟩
    · rintro ⟨hlt, hword⟩
      exact ⟨word, if_pos hlt, hword⟩
  have hstart := wordStart_eq h ho hle
  by_cases hall : ∀ c ∈ s.buffer.bytes.take o, isword c = true
  · rw [if_pos hall] at hstart
    rw [hread (doReadWordAtOffset_spec hwf h hstart hle)]
    have hlength : (wordAround s.buffer.bytes o).length = o + ((s.buffer.bytes.drop o).takeWhile isword).length := by
      rw [wordAround, List.rtakeWhile_eq_self_iff.mpr hall, List.length_append, List.length_take_of_le hle]
    rcases Nat.eq_zero_or_pos o with rfl | hpos
    · rw [if_neg fun hboth => Nat.lt_irrefl 0 hboth.1, hlength, Nat.zero_add]
      exact and_iff_left fun _ => rfl
    · rw [if_pos ⟨hpos, hall⟩, and_comm]
      refine and_congr_left fun hlt => ⟨fun hword => Nat.le_of_not_lt fun hshort => ?_, fun hlong hshort => ?_⟩
      · have := congrArg List.length (hword hshort)
        omega
      · exact absurd hlong (Nat.not_le.mpr hshort)
  · rw [if_neg hall] at hstart
    rw [if_neg fun hboth => hall hboth.2, hread (doReadWordAtOffset_spec hwf h hstart (Nat.le_trans (Nat.sub_le _ _) hle)),
      takeWhile_around hle]
    exact and_iff_left fun _ => rfl

/-- In front of a word that is not the first one. -/
theorem readsWord_second : ReadsWord (acuteWindow [0x61, 0x20, 0x62, 0x63] 3) 3 :=
  (readsWord_iff (acuteWindow_wf _ 3) (by unfold Reader.Ascii; decide) rfl (by decide)).mpr (by decide)

/-- Inside of the first word the command reads the rest of it only. -/
theorem not_readsWord : ¬∀ (s : Editor) (o : Nat), s.buffer.WellFormed → s.reader.Ascii → s.offset = o →
    o ≤ s.buffer.bytes.length → ReadsWord s o := by
  intro h
  have hread := h (acuteWindow [0x61, 0x62] 1) 1 (acuteWindow_wf _ 1) (by unfold Reader.Ascii; decide) rfl (by decide)
  obtain ⟨word, hsome, hword⟩ := hread
  obtain rfl := hword (by decide)
  have hrun : ((acuteWindow [0x61, 0x62] 1).doReadWordAtOffset).map Prod.snd = some [0x62] := by decide
  rw [hsome, Option.map_some, Option.some.injEq] at hrun
  exact absurd hrun (by decide)

end Editor

end Hoe
