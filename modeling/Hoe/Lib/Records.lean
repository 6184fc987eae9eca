import Mathlib

/-!
# Records that can be read from both ends

A list of items is records end to end. A reader at the front takes the first record off, a reader at the back the last one.
Each of them, repeated until nothing is left, finds the records, and so the two find the same ones.
-/

namespace Records

variable {α ρ : Type*}

/-- The records from the front on. There is none left in an empty list; `n` bounds their number. -/
def forward (front : List α → Option (ρ × List α)) : Nat → List α → Option (List ρ)
  | _, [] => some []
  | 0, _ :: _ => none
  | n + 1, c :: l =>
    match front (c :: l) with
    | none => none
    | some (r, rest) => (forward front n rest).map (r :: ·)

/-- The records from the back on, oldest first all the same. -/
def backward (back : List α → Option (List α × ρ)) : Nat → List α → Option (List ρ)
  | _, [] => some []
  | 0, _ :: _ => none
  | n + 1, c :: l =>
    match back (c :: l) with
    | none => none
    | some (before, r) => (backward back n before).map (· ++ [r])

variable {enc : ρ → List α} {front : List α → Option (ρ × List α)} {back : List α → Option (List α × ρ)}

theorem forward_flatMap (hne : ∀ r, enc r ≠ []) (hfront : ∀ r rest, front (enc r ++ rest) = some (r, rest)) {rs : List ρ}
    {n : Nat} (hn : rs.length ≤ n) : forward front n (rs.flatMap enc) = some rs := by
  induction rs generalizing n with
  | nil => cases n <;> rfl
  | cons r rs ih =>
    cases n with
    | zero => simp at hn
    | succ n =>
      obtain ⟨c, l, hl⟩ := List.exists_cons_of_ne_nil (hne r)
      have h := hfront r (rs.flatMap enc)
      rw [hl, List.cons_append] at h
      rw [List.flatMap_cons, hl, List.cons_append, forward, h]
      simp only [ih (by simpa using hn), Option.map_some]

theorem backward_flatMap (hne : ∀ r, enc r ≠ []) (hback : ∀ before r, back (before ++ enc r) = some (before, r))
    {rs : List ρ} {n : Nat} (hn : rs.length ≤ n) : backward back n (rs.flatMap enc) = some rs := by
  induction rs using List.reverseRecOn generalizing n with
  | nil => cases n <;> rfl
  | append_singleton rs r ih =>
    cases n with
    | zero => simp at hn
    | succ n =>
      have hflat : (rs ++ [r]).flatMap enc = rs.flatMap enc ++ enc r := by simp
      obtain ⟨c, l, hl⟩ := List.exists_cons_of_ne_nil (List.append_ne_nil_of_right_ne_nil (rs.flatMap enc) (hne r))
      have h := hback (rs.flatMap enc) r
      rw [hl] at h
      rw [hflat, hl, backward, h]
      simp only [ih (by simpa using hn), Option.map_some]

/-- No record is shorter than one item, so the items are enough of a bound. -/
theorem length_le_flatMap (hne : ∀ r, enc r ≠ []) (rs : List ρ) : rs.length ≤ (rs.flatMap enc).length := by
  induction rs with
  | nil => simp
  | cons r rs ih =>
    have := List.length_pos_of_ne_nil (hne r)
    rw [List.flatMap_cons, List.length_append, List.length_cons]
    omega

end Records
