import Hoe.Lemmas.Rectangles

/-!
# Killing a rectangle

`do_kill_rect` takes the column of the point minus that of the mark for the number of characters and adds the column of the mark to
the beginning of each line from the line of the mark to that of the point. So it kills the rectangle when the mark is its upper left
corner and each of its lines goes as far as its right side, or when there is nothing between the columns; otherwise it does
nothing, fails, or kills newlines and characters of other lines.
-/

namespace Hoe

open Splice Lines

/-- The offset lies in the columns from `c` on in front of `c'`, on a line from `lo` to `hi` that has it. -/
def inRect (text : List Byte) (lo hi c c' i : Nat) : Bool :=
  (List.range' lo (hi + 1 - lo)).any fun k =>
    lineStart text k + c ≤ i && i < lineStart text k + min c' (lineLength text k)

/-- The offsets outside of the rectangle with the two corners. -/
def outside (text : List Byte) (f t : Nat × Nat) : List Nat :=
  (List.range text.length).filter fun i => !inRect text (min f.1 t.1) (max f.1 t.1) (min f.2 t.2) (max f.2 t.2) i

/-- What is left is what lies outside of the rectangle between mark and point. -/
def KillsRect (s : Editor) (point mark : Nat) : Prop :=
  ∃ s', s.doKillRect = some s' ∧
    Editor.trace s s' = (outside s.buffer.bytes (posOf s.buffer.bytes mark) (posOf s.buffer.bytes point)).map some ∧
    s'.buffer.bytes =
      (outside s.buffer.bytes (posOf s.buffer.bytes mark) (posOf s.buffer.bytes point)).map (s.buffer.bytes.getD · 0)

/-! ## What is left after some turns -/

/-- The bytes at some offsets are a part of the text. -/
theorem map_getD_range (text : List Byte) {o n : Nat} (h : o + n ≤ text.length) :
    (List.range' o n).map (text.getD · 0) = slice text o n := by
  refine List.ext_getElem (by rw [List.length_map, List.length_range', length_slice text h]) fun i h1 h2 => ?_
  rw [List.length_map, List.length_range'] at h1
  have hlt : o + i < text.length := by omega
  simp [slice, List.getD_eq_getElem?_getD, List.getElem?_eq_getElem hlt]

namespace Editor

variable {s s₁ s₂ : Editor} {front : List Nat} {b : Nat}

/-- What is left: some of the offsets in front of `b`, and all from there on. -/
structure Left (s s₁ : Editor) (front : List Nat) (b : Nat) : Prop where
  wf : s₁.buffer.WellFormed
  charset : s₁.charset = s.charset
  notes : s.buffer.notes.length ≤ s₁.buffer.notes.length
  trace : trace s s₁ = (front ++ List.range' b (s.buffer.bytes.length - b)).map some
  text : s₁.buffer.bytes = (front ++ List.range' b (s.buffer.bytes.length - b)).map (s.buffer.bytes.getD · 0)

/-- At first all bytes are left. -/
theorem left_self (hwf : s.buffer.WellFormed) : Left s s [] 0 := by
  refine ⟨hwf, rfl, Nat.le_refl _, ?_, ?_⟩
  · rw [trace_self rfl, List.nil_append, Nat.sub_zero, List.range_eq_range']
  · rw [List.nil_append, Nat.sub_zero, map_getD_range _ (Nat.le_of_eq (Nat.zero_add _)), slice, List.drop_zero, List.take_length]

/-- What is left of some offsets when a part is taken out. -/
theorem removeAt_range (front : List Nat) {b p w n : Nat} (hb : b ≤ p) (hp : p + w ≤ n) :
    removeAt (front ++ List.range' b (n - b)) (front.length + (p - b)) w =
      front ++ List.range' b (p - b) ++ List.range' (p + w) (n - (p + w)) := by
  have hcut : List.range' b (n - b) = List.range' b (p - b) ++ List.range' p (n - p) := by
    rw [show n - b = (p - b) + (n - p) by omega, ← List.range'_append_1, show b + (p - b) = p by omega]
  have hlen : front.length + (p - b) = (front ++ List.range' b (p - b)).length := by simp
  rw [hcut, ← List.append_assoc, hlen, removeAt_append, List.drop_range']
  simp only [Nat.mul_one]
  rw [show n - p - w = n - (p + w) by omega]

/-- A cut inside of what is left untouched. -/
theorem Left.cut (h : Left s s₁ front b) {p w : Nat} (hb : b ≤ p) (hw : 0 < w) (hp : p + w ≤ s.buffer.bytes.length) :
    ∃ s₂, s₁.ebDelete (front.length + (p - b) : Nat) w = some s₂ ∧ Left s s₂ (front ++ List.range' b (p - b)) (p + w) := by
  have hlen : s₁.buffer.bytes.length = front.length + (s.buffer.bytes.length - b) := by rw [h.text]; simp
  obtain ⟨s₂, hs₂, hedited⟩ := ebDelete_spec h.wf (o := front.length + (p - b)) (w := w) (by rw [hlen]; omega)
    (by rw [hlen]; omega)
  refine ⟨s₂, hs₂, hedited.wf, hedited.charset.trans h.charset, ?_, ?_, ?_⟩
  · rw [hedited.notes, List.length_append]
    exact Nat.le_add_right_of_le h.notes
  · rw [trace_note h.notes hedited.notes, h.trace]
    have hmap : Note.trace ((front ++ List.range' b (s.buffer.bytes.length - b)).map some)
        ⟨.delete, front.length + (p - b), w⟩ =
          (removeAt (front ++ List.range' b (s.buffer.bytes.length - b)) (front.length + (p - b)) w).map some := by
      simp [Note.trace, removeAt, List.map_take, List.map_drop]
    rw [hmap, removeAt_range front hb hp]
  · rw [hedited.text, h.text, ← removeAt_range front hb hp]
    simp [removeAt, List.map_take, List.map_drop]

/-- Moving the point leaves all bytes. -/
theorem Left.move (h : Left s s₁ front b) (o : Int) : Left s { s₁ with offset := o } front b :=
  ⟨h.wf, h.charset, h.notes, h.trace, h.text⟩

/-- The lines in front of the line `k` are as many as before, and it begins in what is left untouched. -/
structure Reaches (text : List Byte) (front : List Nat) (b k : Nat) : Prop where
  le : b ≤ lineStart text k
  lines : ∃ a : List (List Byte), (∀ l ∈ a, newline ∉ l) ∧ a.length = k ∧
    ended newline a = (front ++ List.range' b (lineStart text k - b)).map (text.getD · 0)

variable {k c c' : Nat}

/-- One turn cuts from the beginning of its line on, whatever is there. -/
theorem Left.turn (h : Left s s₁ front b) (hreach : Reaches s.buffer.bytes front b k) (hk : k ≤ s.buffer.bytes.count newline)
    (hc : c < c') (hp : lineStart s.buffer.bytes k + c' ≤ s.buffer.bytes.length) :
    ∃ s₂, s₁.killRectLine c ((c' : Int) - c) (k + 1) = some s₂ ∧
      Left s s₂ (front ++ List.range' b (lineStart s.buffer.bytes k + c - b)) (lineStart s.buffer.bytes k + c') := by
  obtain ⟨hle, a, ha, hnumber, hended⟩ := hreach
  have hstart := line_le _ hk
  have htext : s₁.buffer.bytes = ended newline a ++ s.buffer.bytes.drop (lineStart s.buffer.bytes k) := by
    have hcut : List.range' b (s.buffer.bytes.length - b) = List.range' b (lineStart s.buffer.bytes k - b) ++
        List.range' (lineStart s.buffer.bytes k) (s.buffer.bytes.length - lineStart s.buffer.bytes k) := by
      rw [show s.buffer.bytes.length - b = (lineStart s.buffer.bytes k - b) +
          (s.buffer.bytes.length - lineStart s.buffer.bytes k) by omega, ← List.range'_append_1,
        show b + (lineStart s.buffer.bytes k - b) = lineStart s.buffer.bytes k by omega]
    rw [h.text, hcut, ← List.append_assoc, List.map_append, ← hended, map_getD_range _ (by omega), slice,
      List.take_of_length_le (by rw [List.length_drop])]
  have hgoto := gotoLine_line h.wf ha htext
  have hlen : (ended newline a).length = front.length + (lineStart s.buffer.bytes k - b) := by rw [hended]; simp
  obtain ⟨s₂, hcut, hleft⟩ := (h.move ((ended newline a).length + c : Int)).cut (p := lineStart s.buffer.bytes k + c)
    (w := c' - c) (by omega) (by omega) (by omega)
  have hoffset : ((ended newline a).length + c : Int) =
      (front.length + (lineStart s.buffer.bytes k + c - b) : Nat) := by
    rw [hlen]
    omega
  have hw : (c' : Int) - c = (c' - c : Nat) := by omega
  have hend : lineStart s.buffer.bytes k + c + (c' - c) = lineStart s.buffer.bytes k + c' := by omega
  rw [hnumber] at hgoto
  rw [hend] at hleft
  refine ⟨_, ?_, hleft.move (s₂.offset - ((c' : Int) - c))⟩
  rw [hoffset] at hcut
  simp only [killRectLine, hgoto, hw, hoffset, hcut, Option.bind_eq_bind, Option.bind_some]

/-- The first line is reached without a deletion. -/
theorem reaches_first {text : List Byte} (hk : k ≤ text.count newline) : Reaches text [] 0 k := by
  obtain ⟨a, m, b, h⟩ := exists_lineAt hk
  refine ⟨Nat.zero_le _, a, h.front, h.number, ?_⟩
  have hcut : slice text 0 (ended newline a).length = ended newline a := by
    rw [slice, List.drop_zero]
    conv_lhs => rw [h.text_eq, List.append_assoc]
    exact List.take_left
  have hle : 0 + (ended newline a).length ≤ text.length := by
    have := line_le _ hk
    rw [h.start] at this
    omega
  rw [List.nil_append, Nat.sub_zero, h.start, map_getD_range text hle]
  exact hcut.symm

/-- Behind a cut inside of a line the next line begins where it did. -/
theorem Reaches.next {text : List Byte} (h : Reaches text front b k) (hk : k < text.count newline) (hc : c ≤ c')
    (hlong : c' ≤ lineLength text k) :
    Reaches text (front ++ List.range' b (lineStart text k + c - b)) (lineStart text k + c') (k + 1) := by
  obtain ⟨hle, a, ha, hnumber, hended⟩ := h
  obtain ⟨a₀, m, b₀, hline⟩ := exists_lineAt (Nat.le_of_lt hk)
  obtain ⟨hnext, hnewline, hlt⟩ := line_next hk
  refine ⟨by omega, a ++ [m.take c ++ m.drop c'], ?_, ?_, ?_⟩
  · refine List.forall_mem_append.mpr ⟨ha, fun l hl => ?_⟩
    rw [List.mem_singleton.mp hl]
    intro hmem
    rcases List.mem_append.mp hmem with hmem | hmem
    · exact hline.line (List.mem_of_mem_take hmem)
    · exact hline.line (List.mem_of_mem_drop hmem)
  · rw [List.length_append, hnumber]
    rfl
  · have hm : slice text (lineStart text k) (lineLength text k) = m := by
      rw [hline.start, hline.length]
      conv_lhs => rw [hline.text_eq, List.append_assoc]
      rw [slice_append, List.take_left]
    have hfront : List.range' b (lineStart text k + c - b) =
        List.range' b (lineStart text k - b) ++ List.range' (lineStart text k) c := by
      rw [show lineStart text k + c - b = (lineStart text k - b) + c by omega, ← List.range'_append_1,
        show b + (lineStart text k - b) = lineStart text k by omega]
    have htake : (List.range' (lineStart text k) c).map (text.getD · 0) = m.take c := by
      rw [map_getD_range text (by omega), ← hm]
      simp only [slice]
      rw [List.take_take, Nat.min_eq_left (by omega)]
    have hdrop : (List.range' (lineStart text k + c') (lineStart text (k + 1) - (lineStart text k + c'))).map (text.getD · 0) =
        m.drop c' ++ [newline] := by
      have hsucc : lineStart text (k + 1) - (lineStart text k + c') = (lineLength text k - c') + 1 := by omega
      have hsplit : lineStart text k + c' + (lineLength text k - c') = lineStart text k + lineLength text k := by omega
      rw [hsucc, ← List.range'_append_1, List.map_append, hsplit, map_getD_range text (by omega), ← hm]
      simp only [slice]
      rw [List.drop_take, List.drop_drop, List.range'_one, List.map_singleton, hnewline]
    rw [hfront, ended_append, hended, List.append_assoc front, List.append_assoc (List.range' b _), List.map_append, List.map_append,
      List.map_append, List.map_append, htake, hdrop]
    simp

end Editor

/-! ## What is outside of the rectangle -/

variable {text : List Byte} {lo hi c c' i k : Nat}

/-- A byte is in the rectangle when it is between the columns of a line. -/
theorem inRect_iff : inRect text lo hi c c' i = true ↔
    ∃ k, lo ≤ k ∧ k ≤ hi ∧ lineStart text k + c ≤ i ∧ i < lineStart text k + min c' (lineLength text k) := by
  rw [inRect, List.any_eq_true]
  constructor
  · rintro ⟨k, hk, h⟩
    rw [List.mem_range'_1] at hk
    rw [Bool.and_eq_true, decide_eq_true_eq, decide_eq_true_eq] at h
    exact ⟨k, hk.1, by omega, h.1, h.2⟩
  · rintro ⟨k, hlo, hhi, h1, h2⟩
    refine ⟨k, List.mem_range'_1.mpr ⟨hlo, by omega⟩, ?_⟩
    rw [Bool.and_eq_true, decide_eq_true_eq, decide_eq_true_eq]
    exact ⟨h1, h2⟩

/-- In front of the columns of a line, behind those of the lines before, nothing is in the rectangle. -/
theorem inRect_between {b : Nat} (hhi : hi ≤ text.count newline)
    (hdone : ∀ k', lo ≤ k' → k' < k → lineStart text k' + min c' (lineLength text k') ≤ b) (hb : b ≤ i)
    (hi' : k ≤ hi → i < lineStart text k + c) : inRect text lo hi c c' i = false := by
  rw [Bool.eq_false_iff]
  intro h
  obtain ⟨k', hlo, hle, h1, h2⟩ := inRect_iff.mp h
  rcases Nat.lt_trichotomy k' k with hlt | rfl | hgt
  · have := hdone k' hlo hlt
    omega
  · have := hi' hle
    omega
  · have hlt := lineStart_lt text hgt (by omega)
    have := hi' (by omega)
    omega

/-- Where no offset is kept, none is left. -/
theorem filter_inside {p : Nat → Bool} {o n : Nat} (h : ∀ i, o ≤ i → i < o + n → p i = false) :
    (List.range' o n).filter p = [] := by
  rw [List.filter_eq_nil_iff]
  intro i hi
  rw [List.mem_range'_1] at hi
  rw [h i hi.1 hi.2]
  exact Bool.false_ne_true

/-- Where all are, all are left. -/
theorem filter_outside {p : Nat → Bool} {o n : Nat} (h : ∀ i, o ≤ i → i < o + n → p i = true) :
    (List.range' o n).filter p = List.range' o n := by
  rw [List.filter_eq_self]
  intro i hi
  rw [List.mem_range'_1] at hi
  exact h i hi.1 hi.2

namespace Editor

variable {s s₁ : Editor} {b j : Nat}

/-- After the turns for `j` lines, each of which goes as far as the right side: what is left in front of `b` is outside of the
rectangle, and the columns of these lines are in front of `b`. -/
structure KilledTo (s s₁ : Editor) (lo hi c c' j b : Nat) : Prop where
  left : Left s s₁ ((List.range b).filter fun i => !inRect s.buffer.bytes lo hi c c' i) b
  within : b ≤ s.buffer.bytes.length
  done : ∀ k, lo ≤ k → k < lo + j → lineStart s.buffer.bytes k + min c' (lineLength s.buffer.bytes k) ≤ b
  reaches : lo + j ≤ s.buffer.bytes.count newline →
    Reaches s.buffer.bytes ((List.range b).filter fun i => !inRect s.buffer.bytes lo hi c c' i) b (lo + j)

/-- Nothing was killed at first. -/
theorem killedTo_start (hwf : s.buffer.WellFormed) (lo hi c c' : Nat) : KilledTo s s lo hi c c' 0 0 :=
  ⟨left_self hwf, Nat.zero_le _, fun _ hlo hlt => absurd hlt (Nat.not_lt.mpr hlo), fun hk => reaches_first hk⟩

/-- What is left after one more turn is outside of the rectangle. -/
theorem KilledTo.filter (h : KilledTo s s₁ lo hi c c' j b) (hj : lo + j ≤ hi) (hhi : hi ≤ s.buffer.bytes.count newline)
    (hc : c < c') (hlong : c' ≤ lineLength s.buffer.bytes (lo + j)) :
    ((List.range (lineStart s.buffer.bytes (lo + j) + c')).filter fun i => !inRect s.buffer.bytes lo hi c c' i) =
      ((List.range b).filter fun i => !inRect s.buffer.bytes lo hi c c' i) ++
        List.range' b (lineStart s.buffer.bytes (lo + j) + c - b) := by
  obtain ⟨hle, -⟩ := h.reaches (Nat.le_trans hj hhi)
  obtain ⟨text, htext⟩ : ∃ text, text = s.buffer.bytes := ⟨_, rfl⟩
  rw [← htext] at hle hlong hhi ⊢
  have hdone := h.done
  rw [← htext] at hdone
  have hcut : List.range (lineStart text (lo + j) + c') =
      List.range b ++ List.range' b (lineStart text (lo + j) + c - b) ++ List.range' (lineStart text (lo + j) + c) (c' - c) := by
    rw [List.range_eq_range', List.range_eq_range', List.append_assoc,
      show lineStart text (lo + j) + c' = b + ((lineStart text (lo + j) + c - b) + (c' - c)) by omega, ← List.range'_append_1,
      Nat.zero_add, ← List.range'_append_1, show b + (lineStart text (lo + j) + c - b) = lineStart text (lo + j) + c by omega]
  have hbetween : ((List.range' b (lineStart text (lo + j) + c - b)).filter fun i => !inRect text lo hi c c' i) =
      List.range' b (lineStart text (lo + j) + c - b) := by
    refine filter_outside fun i h1 h2 => ?_
    rw [inRect_between hhi (k := lo + j) hdone h1 fun _ => by omega]
    rfl
  have hinside : ((List.range' (lineStart text (lo + j) + c) (c' - c)).filter fun i => !inRect text lo hi c c' i) = [] := by
    refine filter_inside fun i h1 h2 => ?_
    rw [inRect_iff.mpr ⟨lo + j, by omega, hj, h1, by omega⟩]
    rfl
  rw [hcut, List.filter_append, List.filter_append, hbetween, hinside, List.append_nil]

/-- One more turn, about a line that goes as far as the right side. -/
theorem KilledTo.turn (h : KilledTo s s₁ lo hi c c' j b) (hj : lo + j ≤ hi) (hhi : hi ≤ s.buffer.bytes.count newline)
    (hc : c < c') (hlong : c' ≤ lineLength s.buffer.bytes (lo + j)) :
    ∃ s₂, s₁.killRectLine c ((c' : Int) - c) (lo + j + 1) = some s₂ ∧
      KilledTo s s₂ lo hi c c' (j + 1) (lineStart s.buffer.bytes (lo + j) + c') := by
  have hk : lo + j ≤ s.buffer.bytes.count newline := Nat.le_trans hj hhi
  have hreach := h.reaches hk
  have hend := line_le _ hk
  obtain ⟨s₂, hs₂, hleft⟩ := h.left.turn hreach hk hc (by omega)
  refine ⟨s₂, hs₂, ?_, by omega, ?_, ?_⟩
  · rw [h.filter hj hhi hc hlong]
    exact hleft
  · intro k hlo hlt
    have hcases : k < lo + j ∨ k = lo + j := by omega
    rcases hcases with hbefore | rfl
    · have := lineStart_lt _ hbefore hk
      omega
    · omega
  · intro hnext
    rw [h.filter hj hhi hc hlong]
    exact hreach.next hnext (Nat.le_of_lt hc) hlong

/-- The turns for the first lines, when all of them go as far as the right side. -/
theorem killedTo_run (lo : Nat) (hwf : s.buffer.WellFormed) (hhi : hi ≤ s.buffer.bytes.count newline) (hc : c < c') (hj : lo + j ≤ hi + 1)
    (hlong : ∀ k, lo ≤ k → k < lo + j → c' ≤ lineLength s.buffer.bytes k) :
    ∃ s₁ b, (List.range' (lo + 1) j).foldlM (killRectLine c ((c' : Int) - c)) s = some s₁ ∧ KilledTo s s₁ lo hi c c' j b := by
  induction j with
  | zero => exact ⟨s, 0, rfl, killedTo_start hwf lo hi c c'⟩
  | succ j ih =>
    obtain ⟨s₁, b, hrun, hkilled⟩ := ih (by omega) fun k hlo hlt => hlong k hlo (by omega)
    obtain ⟨s₂, hturn, hkilled₂⟩ := hkilled.turn (by omega) hhi hc (hlong (lo + j) (by omega) (by omega))
    refine ⟨s₂, _, ?_, hkilled₂⟩
    rw [List.range'_1_concat, List.foldlM_append, hrun, Option.bind_eq_bind, Option.bind_some,
      show lo + 1 + j = lo + j + 1 by omega, List.foldlM_cons, hturn]
    rfl

/-- With all the lines done, what is left is what is outside of the rectangle. -/
theorem KilledTo.outside (h : KilledTo s s₁ lo hi c c' j b) (hj : lo + j = hi + 1) (hhi : hi ≤ s.buffer.bytes.count newline) :
    ((List.range b).filter fun i => !inRect s.buffer.bytes lo hi c c' i) ++ List.range' b (s.buffer.bytes.length - b) =
      (List.range s.buffer.bytes.length).filter fun i => !inRect s.buffer.bytes lo hi c c' i := by
  have hwithin := h.within
  have hrest : ((List.range' b (s.buffer.bytes.length - b)).filter fun i => !inRect s.buffer.bytes lo hi c c' i) =
      List.range' b (s.buffer.bytes.length - b) := by
    refine filter_outside fun i h1 _ => ?_
    rw [inRect_between hhi h.done h1 fun hle => by omega]
    rfl
  have hcut : List.range s.buffer.bytes.length = List.range b ++ List.range' b (s.buffer.bytes.length - b) := by
    rw [List.range_eq_range', List.range_eq_range',
      show s.buffer.bytes.length = b + (s.buffer.bytes.length - b) by omega, ← List.range'_append_1, Nat.zero_add,
      Nat.add_sub_cancel_left]
  rw [hcut, List.filter_append, hrest]

/-! ## What is gone stays away -/

/-- A call of `eb_delete` that returns removes some bytes, or does nothing. -/
theorem ebDelete_cases (hwf : s₁.buffer.WellFormed) {o w : Int} (h : s₁.ebDelete o w = some s₂) :
    s₂ = s₁ ∨ ∃ o' w' : Nat, Edited s₁ ⟨.delete, o', w'⟩ (removeAt s₁.buffer.bytes o' w') s₂ := by
  have htotal := total_eq hwf
  by_cases hend : s₁.total ≤ o
  · rw [ebDelete, if_pos hend] at h
    exact Or.inl (Option.some.inj h).symm
  · by_cases hrange : 0 ≤ o ∧ 0 ≤ w ∧ o + w ≤ s₁.total
    · obtain ⟨o', rfl⟩ := Int.eq_ofNat_of_zero_le hrange.1
      obtain ⟨w', rfl⟩ := Int.eq_ofNat_of_zero_le hrange.2.1
      obtain ⟨s₃, hs₃, hedited⟩ := ebDelete_spec hwf (o := o') (w := w') (by omega) (by omega)
      obtain rfl : s₃ = s₂ := Option.some.inj (hs₃.symm.trans h)
      exact Or.inr ⟨o', w', hedited⟩
    · rw [ebDelete, if_neg hend, if_neg hrange] at h
      cases h

theorem removeAt_sublist {α : Type*} (l : List α) (o w : Nat) : (removeAt l o w).Sublist l := by
  conv_rhs => rw [← List.take_append_drop o l]
  refine (List.Sublist.refl _).append ?_
  rw [← List.drop_drop]
  exact List.drop_sublist _ _

/-- A window some time after the beginning of the command: what was told is at least as much, and what is left at most so much. -/
structure Fewer (s s₁ s₂ : Editor) : Prop where
  wf : s₂.buffer.WellFormed
  notes : s.buffer.notes.length ≤ s₂.buffer.notes.length
  trace : (trace s s₂).Sublist (trace s s₁)

/-- Moving the point takes nothing away. -/
theorem Fewer.move (h : Fewer s s₁ s₂) {s₃ : Editor} (hbuffer : s₃.buffer = s₂.buffer) : Fewer s s₁ s₃ := by
  refine ⟨hbuffer ▸ h.wf, hbuffer ▸ h.notes, ?_⟩
  rw [Editor.trace, hbuffer]
  exact h.trace

/-- A deletion takes some bytes away. -/
theorem Fewer.cut (h : Fewer s s₁ s₂) {s₃ : Editor} {o w : Nat} {text : List Byte} (hedited : Edited s₂ ⟨.delete, o, w⟩ text s₃) :
    Fewer s s₁ s₃ := by
  refine ⟨hedited.wf, ?_, ?_⟩
  · rw [hedited.notes, List.length_append]
    exact Nat.le_add_right_of_le h.notes
  · rw [trace_note h.notes hedited.notes]
    exact (removeAt_sublist _ o w).trans h.trace

/-- A turn takes bytes away, or none, or fails. -/
theorem Fewer.turn (h : Fewer s s₁ s₂) {s₃ : Editor} {w : Int} {line : Nat} (hturn : s₂.killRectLine c w line = some s₃) :
    Fewer s s₁ s₃ := by
  have hgoto : (s₂.gotoLine line).buffer = s₂.buffer := by
    rw [gotoLine]
    split <;> rfl
  rw [killRectLine, Option.bind_eq_bind, Option.bind_eq_some_iff] at hturn
  obtain ⟨s₄, hdelete, hs₃⟩ := hturn
  have hbuffer : s₃.buffer = s₄.buffer := by rw [← Option.some.inj hs₃]
  refine Fewer.move ?_ hbuffer
  rcases ebDelete_cases (by rw [hgoto]; exact h.wf) hdelete with rfl | ⟨o, w', hedited⟩
  · exact h.move hgoto
  · have hmoved : Fewer s s₁ { s₂.gotoLine line with offset := (s₂.gotoLine line).offset + c } := h.move hgoto
    exact hmoved.cut hedited

/-- So do all turns of the loop. -/
theorem Fewer.run (h : Fewer s s₁ s₂) {s₃ : Editor} {w : Int} {ls : List Nat}
    (hrun : ls.foldlM (killRectLine c w) s₂ = some s₃) : Fewer s s₁ s₃ := by
  induction ls generalizing s₂ with
  | nil =>
    obtain rfl := Option.some.inj hrun
    exact h
  | cons line ls ih =>
    rw [List.foldlM_cons, Option.bind_eq_bind, Option.bind_eq_some_iff] at hrun
    obtain ⟨s₄, hturn, hrun⟩ := hrun
    exact ih (h.turn hturn) hrun

/-! ## Nothing between the columns -/

/-- Where all bytes are left, the text is the same. -/
theorem Left.text_all (h : Left s s₁ [] 0) : s₁.buffer.bytes = s.buffer.bytes := by
  rw [h.text, List.nil_append, Nat.sub_zero, map_getD_range _ (Nat.le_of_eq (Nat.zero_add _)), slice, List.drop_zero,
    List.take_length]

/-- A turn that is to take nothing takes nothing. -/
theorem Left.nothing (h : Left s s₁ [] 0) (hk : k ≤ s.buffer.bytes.count newline) (c : Nat) :
    ∃ s₂, s₁.killRectLine c 0 (k + 1) = some s₂ ∧ Left s s₂ [] 0 := by
  have htext := h.text_all
  rw [← htext] at hk
  have hgoto := gotoLine_start h.wf hk
  obtain ⟨o, ho⟩ : ∃ o : Nat, (lineStart s₁.buffer.bytes k : Int) + c = o := ⟨lineStart s₁.buffer.bytes k + c, rfl⟩
  obtain ⟨s₂, hs₂⟩ : ∃ s₂, s₂ = { s₁ with offset := (o : Int) } := ⟨_, rfl⟩
  have hmoved : Left s s₂ [] 0 := hs₂ ▸ h.move o
  have hturn : s₁.killRectLine c 0 (k + 1) = (s₂.ebDelete o 0).bind fun s₃ => some { s₃ with offset := s₃.offset - 0 } := by
    rw [killRectLine]
    simp only [hgoto, hs₂, ho, Option.bind_eq_bind]
  rw [hturn]
  rcases Nat.lt_or_ge o s₂.buffer.bytes.length with hlt | hge
  · obtain ⟨s₃, hs₃, hedited⟩ := ebDelete_spec hmoved.wf (w := 0) hlt (by omega)
    rw [Nat.cast_zero] at hs₃
    rw [hs₃]
    refine ⟨_, rfl, Left.move ⟨hedited.wf, hedited.charset.trans hmoved.charset, ?_, ?_, ?_⟩ _⟩
    · rw [hedited.notes, List.length_append]
      exact Nat.le_add_right_of_le hmoved.notes
    · rw [trace_note hmoved.notes hedited.notes, ← hmoved.trace]
      simp [Note.trace, removeAt]
    · rw [hedited.text, ← hmoved.text]
      simp [removeAt]
  · rw [ebDelete_end hmoved.wf (Int.ofNat_le.mpr hge)]
    exact ⟨_, rfl, hmoved.move _⟩

/-- A rectangle without columns takes nothing. -/
theorem Left.nothing_run (h : Left s s₁ [] 0) (c : Nat) (ls : List Nat)
    (hls : ∀ line ∈ ls, 1 ≤ line ∧ line ≤ s.buffer.bytes.count newline + 1) :
    ∃ s₂, ls.foldlM (killRectLine c 0) s₁ = some s₂ ∧ Left s s₂ [] 0 := by
  induction ls generalizing s₁ with
  | nil => exact ⟨s₁, rfl, h⟩
  | cons line ls ih =>
    obtain ⟨⟨hpos, hle⟩, hrest⟩ := List.forall_mem_cons.mp hls
    obtain ⟨k, rfl⟩ := Nat.exists_eq_add_of_le' hpos
    obtain ⟨s₂, hturn, h₂⟩ := h.nothing (Nat.le_of_add_le_add_right hle) c
    obtain ⟨s₃, hrun, h₃⟩ := ih h₂ hrest
    refine ⟨s₃, ?_, h₃⟩
    rw [List.foldlM_cons, hturn]
    exact hrun

end Editor

/-! ## The command -/

/-- Between equal columns there is nothing. -/
theorem outside_eq_range {f t : Nat × Nat} (hc : f.2 = t.2) : outside text f t = List.range text.length := by
  rw [outside, List.filter_eq_self]
  intro i _
  rw [Bool.not_eq_true', Bool.eq_false_iff]
  intro h
  obtain ⟨k, -, -, h1, h2⟩ := inRect_iff.mp h
  omega

/-- Between different columns there is a character of one of the two lines. -/
theorem exists_notMem_outside {f t : Nat × Nat} (hc : f.2 ≠ t.2) (hf : f.1 ≤ text.count newline) (ht : t.1 ≤ text.count newline)
    (hflen : f.2 ≤ lineLength text f.1) (htlen : t.2 ≤ lineLength text t.1) :
    ∃ i, i < text.length ∧ i ∉ outside text f t := by
  obtain ⟨k, hk, hlo, hhi, hlong⟩ : ∃ k, k ≤ text.count newline ∧ min f.1 t.1 ≤ k ∧ k ≤ max f.1 t.1 ∧
      max f.2 t.2 ≤ lineLength text k := by
    rcases Nat.lt_or_gt_of_ne hc with hlt | hgt
    · exact ⟨t.1, ht, by omega, by omega, by omega⟩
    · exact ⟨f.1, hf, by omega, by omega, by omega⟩
  have hend := line_le _ hk
  refine ⟨lineStart text k + min f.2 t.2, by omega, ?_⟩
  intro hmem
  have hin := (List.mem_filter.mp hmem).2
  rw [Bool.not_eq_true', Bool.eq_false_iff] at hin
  exact hin (inRect_iff.mpr ⟨k, hlo, hhi, Nat.le_refl _, by omega⟩)

/-- The first of the lines that is too short. -/
theorem exists_first_short {lo hi c : Nat} (h : ¬∀ k, lo ≤ k → k ≤ hi → c ≤ lineLength text k) :
    ∃ j, lo + j ≤ hi ∧ lineLength text (lo + j) < c ∧ ∀ k, lo ≤ k → k < lo + j → c ≤ lineLength text k := by
  have hex : ∃ j, lo + j ≤ hi ∧ lineLength text (lo + j) < c := by
    by_contra hnot
    refine h fun k hlo hhi => Nat.le_of_not_lt fun hlt => hnot ⟨k - lo, by omega, ?_⟩
    rwa [Nat.add_sub_cancel' hlo]
  obtain ⟨hj, hlt⟩ := Nat.find_spec hex
  refine ⟨Nat.find hex, hj, hlt, fun k hlo hk => ?_⟩
  have hmin := Nat.find_min hex (m := k - lo) (by omega)
  rw [Nat.add_sub_cancel' hlo] at hmin
  omega

/-- On a line that is too short, what lies behind the line and the column of the mark is outside of the rectangle. -/
theorem mem_outside_of_short {f t : Nat × Nat} {k : Nat} (hk : k < t.1) (hcount : t.1 ≤ text.count newline) (hlines : f.1 ≤ t.1)
    (hc : f.2 < t.2) (htlen : t.2 ≤ lineLength text t.1) (hshort : lineLength text k < t.2) :
    lineStart text k + max f.2 (lineLength text k) ∈ outside text f t := by
  have hend : lineStart text k + t.2 ≤ text.length := by
    have := lineStart_lt _ hk hcount
    have := line_le _ hcount
    omega
  refine List.mem_filter.mpr ⟨List.mem_range.mpr (by omega), ?_⟩
  rw [Bool.not_eq_true', Bool.eq_false_iff]
  intro hin
  obtain ⟨k', -, hhi, h1, h2⟩ := inRect_iff.mp hin
  rcases Nat.lt_trichotomy k' k with hbefore | rfl | hafter
  · have := lineStart_lt text hbefore (by omega)
    omega
  · omega
  · have := lineStart_lt text hafter (by omega)
    omega

namespace Editor

variable {s : Editor} {point mark : Nat}

/-- The loop of `do_kill_rect`, in lines and columns of the text. -/
theorem doKillRect_eq (hwf : s.buffer.WellFormed) (hu : s.charset ≠ .utf8) (hp : s.offset = point) (hm : s.buffer.mark = mark)
    {t f : Nat × Nat} (ht : t = posOf s.buffer.bytes point) (hf : f = posOf s.buffer.bytes mark) :
    s.doKillRect = (List.range' (f.1 + 1) (t.1 + 1 - f.1)).foldlM (killRectLine f.2 ((t.2 : Int) - f.2)) s := by
  have hsub : t.1 + 1 + 1 - (f.1 + 1) = t.1 + 1 - f.1 := by omega
  rw [doKillRect, hp, hm, getPos_spec hwf hu, getPos_spec hwf hu, ← ht, ← hf, hsub]

/-- When the trace has not what it had, not all that is outside of the rectangle is there. -/
theorem mem_trace_of_killsRect {i : Nat} (h : KillsRect s point mark) {s' : Editor} (hs' : s.doKillRect = some s')
    (hi : i ∈ outside s.buffer.bytes (posOf s.buffer.bytes mark) (posOf s.buffer.bytes point)) : some i ∈ trace s s' := by
  obtain ⟨s'', hs'', htrace, -⟩ := h
  obtain rfl : s' = s'' := Option.some.inj (hs'.symm.trans hs'')
  rw [htrace]
  exact List.mem_map_of_mem hi

/-- The rectangle is killed when it lies between the mark and the point and its lines go as far as its right side. -/
theorem killsRect_of_long (hwf : s.buffer.WellFormed) (hu : s.charset ≠ .utf8) (hp : s.offset = point) (hm : s.buffer.mark = mark)
    {t f : Nat × Nat} (ht : t = posOf s.buffer.bytes point) (hf : f = posOf s.buffer.bytes mark)
    (hlines : f.1 ≤ t.1) (hcount : t.1 ≤ s.buffer.bytes.count newline) (hc : f.2 < t.2)
    (hlong : ∀ k, f.1 ≤ k → k ≤ t.1 → t.2 ≤ lineLength s.buffer.bytes k) : KillsRect s point mark := by
  obtain ⟨s', b, hrun, hkilled⟩ := killedTo_run f.1 hwf hcount hc (j := t.1 + 1 - f.1) (by omega)
    fun k hlo hlt => hlong k hlo (by omega)
  have hall := hkilled.outside (by omega) hcount
  have houtside : outside s.buffer.bytes f t =
      (List.range s.buffer.bytes.length).filter fun i => !inRect s.buffer.bytes f.1 t.1 f.2 t.2 i := by
    rw [outside, Nat.min_eq_left hlines, Nat.max_eq_right hlines, Nat.min_eq_left (Nat.le_of_lt hc),
      Nat.max_eq_right (Nat.le_of_lt hc)]
  rw [← houtside] at hall
  refine ⟨s', (doKillRect_eq hwf hu hp hm ht hf).trans hrun, ?_, ?_⟩
  · rw [hkilled.left.trace, hall, ht, hf]
  · rw [hkilled.left.text, hall, ht, hf]

/-- It is not when a line is too short: the newline of that line goes with it, or something of a line further on. -/
theorem not_killsRect_of_short (hwf : s.buffer.WellFormed) (hu : s.charset ≠ .utf8) (hp : s.offset = point)
    (hm : s.buffer.mark = mark) {t f : Nat × Nat} (ht : t = posOf s.buffer.bytes point) (hf : f = posOf s.buffer.bytes mark)
    (hlines : f.1 ≤ t.1) (hcount : t.1 ≤ s.buffer.bytes.count newline) (htlen : t.2 ≤ lineLength s.buffer.bytes t.1)
    (hc : f.2 < t.2) (hshort : ¬∀ k, f.1 ≤ k → k ≤ t.1 → t.2 ≤ lineLength s.buffer.bytes k) : ¬KillsRect s point mark := by
  obtain ⟨j, hj, hlt, hfirst⟩ := exists_first_short hshort
  obtain ⟨s₁, b, hrun, hkilled⟩ := killedTo_run f.1 hwf hcount hc (j := j) (by omega) hfirst
  have hlast : f.1 + j < t.1 := by
    refine Nat.lt_of_le_of_ne hj fun heq => ?_
    rw [heq] at hlt
    exact Nat.not_lt.mpr htlen hlt
  have hk : f.1 + j ≤ s.buffer.bytes.count newline := by omega
  have hreach := hkilled.reaches hk
  have hbehind : lineStart s.buffer.bytes (f.1 + j) + t.2 ≤ s.buffer.bytes.length := by
    have := lineStart_lt _ hlast hcount
    have := line_le _ hcount
    omega
  obtain ⟨s₂, hturn, hleft⟩ := hkilled.left.turn hreach hk hc hbehind
  -- what this turn takes away
  obtain ⟨p, hp'⟩ : ∃ p, p = lineStart s.buffer.bytes (f.1 + j) + max f.2 (lineLength s.buffer.bytes (f.1 + j)) := ⟨_, rfl⟩
  have houtside : p ∈ outside s.buffer.bytes f t := hp' ▸ mem_outside_of_short hlast hcount hlines hc htlen hlt
  have hgone : some p ∉ trace s s₂ := by
    rw [hleft.trace]
    intro hmem
    obtain ⟨i, hi, hip⟩ := List.mem_map.mp hmem
    obtain rfl := Option.some.inj hip
    have hle := hreach.le
    rcases List.mem_append.mp hi with hi | hi
    · rcases List.mem_append.mp hi with hi | hi
      · have := List.mem_range.mp (List.mem_filter.mp hi).1
        omega
      · have := List.mem_range'_1.mp hi
        omega
    · have := List.mem_range'_1.mp hi
      omega
  intro h
  obtain ⟨s', hs', -⟩ := id h
  have hcut : List.range' (f.1 + 1) (t.1 + 1 - f.1) =
      List.range' (f.1 + 1) j ++ (f.1 + j + 1) :: List.range' (f.1 + j + 2) (t.1 - (f.1 + j)) := by
    rw [show t.1 + 1 - f.1 = j + (1 + (t.1 - (f.1 + j))) by omega, ← List.range'_append_1, Nat.add_comm 1, List.range'_succ,
      show f.1 + 1 + j = f.1 + j + 1 by omega]
  have hcommand := doKillRect_eq hwf hu hp hm ht hf
  rw [hs', hcut, List.foldlM_append, hrun, Option.bind_eq_bind, Option.bind_some, List.foldlM_cons, hturn] at hcommand
  have hfewer : Fewer s s₂ s' := Fewer.run ⟨hleft.wf, hleft.notes, List.Sublist.refl _⟩ hcommand.symm
  refine hgone (hfewer.trace.mem (mem_trace_of_killsRect h hs' ?_))
  rw [← ht, ← hf]
  exact houtside

/-- It is not when the command does nothing, or takes a negative number of characters. -/
theorem not_killsRect_of_not_lt (hwf : s.buffer.WellFormed) (hu : s.charset ≠ .utf8) (hp : s.offset = point)
    (hm : s.buffer.mark = mark) {t f : Nat × Nat} (ht : t = posOf s.buffer.bytes point) (hf : f = posOf s.buffer.bytes mark)
    (hfcount : f.1 ≤ s.buffer.bytes.count newline) (htcount : t.1 ≤ s.buffer.bytes.count newline)
    (hflen : f.2 ≤ lineLength s.buffer.bytes f.1) (htlen : t.2 ≤ lineLength s.buffer.bytes t.1) (hne : f.2 ≠ t.2)
    (hmark : lineStart s.buffer.bytes f.1 + f.2 = mark)
    (hbad : ¬(f.1 ≤ t.1 ∧ f.2 < t.2)) : ¬KillsRect s point mark := by
  rintro ⟨s', hs', htrace, -⟩
  obtain ⟨i, hi, hout⟩ := exists_notMem_outside hne hfcount htcount hflen htlen
  -- nothing is taken away
  suffices hsame : trace s s' = (List.range s.buffer.bytes.length).map some by
    rw [hsame, ← ht, ← hf] at htrace
    have hmem : some i ∈ (outside s.buffer.bytes f t).map some := by
      rw [← htrace]
      exact List.mem_map_of_mem (List.mem_range.mpr hi)
    obtain ⟨i', hi', heq⟩ := List.mem_map.mp hmem
    exact hout (Option.some.inj heq ▸ hi')
  rw [doKillRect_eq hwf hu hp hm ht hf] at hs'
  rcases Nat.lt_or_ge t.1 f.1 with hlines | hlines
  · -- no lines
    rw [Nat.sub_eq_zero_of_le (Nat.succ_le_of_lt hlines)] at hs'
    obtain rfl := Option.some.inj hs'
    exact trace_self rfl
  · have hc : (t.2 : Int) - f.2 < 0 := by omega
    have hturns : t.1 + 1 - f.1 = (t.1 - f.1) + 1 := by omega
    rw [hturns, List.range'_succ, List.foldlM_cons, Option.bind_eq_bind, Option.bind_eq_some_iff] at hs'
    obtain ⟨s₁, hturn, hrest⟩ := hs'
    have hoffset : (lineStart s.buffer.bytes f.1 : Int) + f.2 = (mark : Nat) := by omega
    have htotal := total_eq hwf
    rw [killRectLine] at hturn
    simp only [gotoLine_start hwf hfcount, hoffset] at hturn
    obtain ⟨s₂, hs₂⟩ : ∃ s₂, s₂ = { s with offset := (mark : Int) } := ⟨_, rfl⟩
    have htotal₂ : s₂.total = s.total := by rw [hs₂]; rfl
    rw [← hs₂, ebDelete] at hturn
    by_cases hend : s₂.total ≤ mark
    · -- the mark is at the end of the text, on the only line of the rectangle
      rw [if_pos hend] at hturn
      have hlast : t.1 = f.1 := by
        rcases Nat.lt_or_eq_of_le hfcount with hlt | heq
        · have := (line_next hlt).2.2
          omega
        · omega
      rw [hlast, Nat.sub_self] at hrest
      obtain rfl := Option.some.inj hrest
      obtain rfl := Option.some.inj hturn
      refine trace_self ?_
      rw [hs₂]
    · rw [if_neg hend, if_neg (by omega)] at hturn
      cases hturn

end Editor

end Hoe
