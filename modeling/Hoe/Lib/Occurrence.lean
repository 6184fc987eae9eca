import Mathlib

/-!
# The leftmost occurrences of a list in another

Going from left to right, and on behind each occurrence, the occurrences of `p` cut a list into the gaps between them. The list is
`p` put between the gaps; with other lists in the places of `p` it is what a replacement makes of it.
-/

namespace Occurrence

variable {α : Type*} {p l : List α}

/-- `gs` are the gaps of the list: what lies in front of the first occurrence, between one and the next, behind the last one. -/
inductive Leftmost (p : List α) : List α → List (List α) → Prop where
  | last {l : List α} (h : ∀ i, ¬p <+: l.drop i) : Leftmost p l [l]
  | gap {a l : List α} {gs : List (List α)} (h : ∀ i < a.length, ¬p <+: (a ++ p ++ l).drop i) (hl : Leftmost p l gs) :
    Leftmost p (a ++ p ++ l) (a :: gs)

/-- Every list has gaps. -/
theorem exists_leftmost (hp : p ≠ []) (l : List α) : ∃ gs, Leftmost p l gs := by
  classical
  induction hn : l.length using Nat.strong_induction_on generalizing l with
  | _ n ih =>
    by_cases hex : ∃ i, p <+: l.drop i
    · obtain ⟨i, hi, hfirst⟩ : ∃ i, p <+: l.drop i ∧ ∀ j < i, ¬p <+: l.drop j :=
        ⟨Nat.find hex, Nat.find_spec hex, fun j hj => Nat.find_min hex hj⟩
      obtain ⟨rest, hrest⟩ := hi
      have hpos := List.length_pos_iff.mpr hp
      have hlen := congrArg List.length hrest
      rw [List.length_append, List.length_drop] at hlen
      have hl : l = l.take i ++ p ++ rest := by rw [List.append_assoc, hrest, List.take_append_drop]
      obtain ⟨gs, hgs⟩ := ih rest.length (by omega) rest rfl
      have hgap : Leftmost p (l.take i ++ p ++ rest) (l.take i :: gs) := by
        refine .gap (fun j hj => ?_) hgs
        rw [← hl]
        rw [List.length_take] at hj
        exact hfirst j (by omega)
      rw [← hl] at hgap
      exact ⟨_, hgap⟩
    · exact ⟨[l], .last fun i hi => hex ⟨i, hi⟩⟩

theorem Leftmost.ne_nil {gs : List (List α)} (h : Leftmost p l gs) : gs ≠ [] := by
  cases h with
  | last => exact List.cons_ne_nil _ _
  | gap => exact List.cons_ne_nil _ _

/-- The list is the pattern put between its gaps. -/
theorem Leftmost.intercalate {gs : List (List α)} (h : Leftmost p l gs) : p.intercalate gs = l := by
  induction h with
  | last => exact List.intercalate_singleton
  | gap _ hl ih => rw [List.intercalate_cons_of_ne_nil hl.ne_nil, ih]

theorem prefix_drop_gap {a : List α} : p <+: (a ++ p ++ l).drop a.length := by
  rw [List.append_assoc, List.drop_left]
  exact List.prefix_append _ _

/-- It has no others. -/
theorem Leftmost.unique {gs gs' : List (List α)} (h : Leftmost p l gs) (h' : Leftmost p l gs') : gs = gs' := by
  induction h generalizing gs' with
  | last hnone =>
    cases h' with
    | last => rfl
    | gap _ _ => exact absurd prefix_drop_gap (hnone _)
  | @gap a l gs hfirst _ ih =>
    generalize hb : a ++ p ++ l = b at h'
    cases h' with
    | last hnone => exact absurd (hb ▸ prefix_drop_gap) (hnone a.length)
    | @gap a' l' gs' hfirst' hl' =>
      have hlen : a.length = a'.length := by
        rcases Nat.lt_trichotomy a.length a'.length with hlt | heq | hlt
        · exact absurd (hb ▸ prefix_drop_gap) (hfirst' _ hlt)
        · exact heq
        · exact absurd (hb ▸ prefix_drop_gap) (hfirst _ hlt)
      rw [List.append_assoc, List.append_assoc] at hb
      obtain ⟨rfl, hrest⟩ := List.append_inj hb hlen
      rw [List.append_cancel_left hrest] at ih
      rw [ih hl']

end Occurrence
