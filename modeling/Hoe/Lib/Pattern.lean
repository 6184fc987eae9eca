import Hoe.Lib.Splice

/-!
# Lists known in part

A pattern says of some cells of a list what they hold and leaves the others open. Patterns are spliced like lists, and a list
that matches a pattern matches it still after both are spliced in the same way.
-/

namespace Pattern

open Splice

variable {α : Type*}

/-- The list has the length of the pattern and agrees with it where the pattern says something. -/
def Matches (p : List (Option α)) (l : List α) : Prop := List.Forall₂ (fun o x => ∀ y ∈ o, y = x) p l

/-- The pattern of one list. -/
def exact (l : List α) : List (Option α) := l.map some

/-- The pattern that leaves `n` cells open. -/
def holes (n : Nat) : List (Option α) := List.replicate n none

@[simp] theorem length_exact (l : List α) : (exact l).length = l.length := List.length_map _

/-- A pattern matches lists of its length only. -/
theorem Matches.length_eq {p : List (Option α)} {l : List α} (h : Matches p l) : p.length = l.length :=
  List.Forall₂.length_eq h

/-- A list matches its own pattern. -/
theorem matches_exact (l : List α) : Matches (exact l) l := by
  induction l with
  | nil => exact .nil
  | cons x l ih => exact .cons (by simp) ih

/-- A pattern of holes matches every list of its length. -/
theorem matches_holes (l : List α) : Matches (holes l.length) l := by
  induction l with
  | nil => exact .nil
  | cons x l ih => exact .cons (by simp) ih

/-- The pattern of one list is matched by it alone. -/
theorem Matches.eq_of_exact {l l' : List α} (h : Matches (exact l) l') : l = l' := by
  induction l generalizing l' with
  | nil => cases h; rfl
  | cons x l ih =>
    cases h with
    | cons hx hl => rw [hx x rfl, ih hl]

/-! ## Splices -/

/-- The edits of lists act on patterns alike, beginning with appending. -/
theorem Matches.append {p q : List (Option α)} {l m : List α} (h : Matches p l) (h' : Matches q m) :
    Matches (p ++ q) (l ++ m) := List.rel_append h h'

theorem Matches.take {p : List (Option α)} {l : List α} (h : Matches p l) (n : Nat) : Matches (p.take n) (l.take n) :=
  List.forall₂_take n h

theorem Matches.drop {p : List (Option α)} {l : List α} (h : Matches p l) (n : Nat) : Matches (p.drop n) (l.drop n) :=
  List.forall₂_drop n h

/-- A part of a pattern matches that part of the list. -/
theorem Matches.slice {p : List (Option α)} {l : List α} (h : Matches p l) (off n : Nat) :
    Matches (slice p off n) (slice l off n) := (h.drop off).take n

theorem Matches.removeAt {p : List (Option α)} {l : List α} (h : Matches p l) (off n : Nat) :
    Matches (removeAt p off n) (removeAt l off n) := (h.take off).append (h.drop (off + n))

/-- What is put into a pattern matches what is put into the list. -/
theorem Matches.insertAt {p q : List (Option α)} {l m : List α} (h : Matches p l) (off : Nat) (h' : Matches q m) :
    Matches (insertAt p off q) (insertAt l off m) := ((h.take off).append h').append (h.drop off)

/-- So it is with what is written over. -/
theorem Matches.overwriteAt {p q : List (Option α)} {l m : List α} (h : Matches p l) (off : Nat) (h' : Matches q m) :
    Matches (overwriteAt p off q) (overwriteAt l off m) := by
  unfold Splice.overwriteAt
  rw [h'.length_eq]
  exact ((h.take off).append h').append (h.drop _)

end Pattern
