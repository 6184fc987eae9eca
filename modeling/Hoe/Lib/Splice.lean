import Mathlib

/-!
# Splices of lists

The four operations a text supports, on lists over any type: read a slice, insert a block, remove a block, overwrite a
block in place. Each has its length, its form on a list already cut at the offset, and the operation that takes it back.
-/

namespace Splice

variable {α : Type*}

/-- The `n` elements from offset `off` on (fewer when the list ends before). -/
def slice (l : List α) (off n : Nat) : List α := (l.drop off).take n

/-- Put `xs` in front of the element at offset `off`. -/
def insertAt (l : List α) (off : Nat) (xs : List α) : List α := l.take off ++ xs ++ l.drop off

/-- Take out the `n` elements from offset `off` on. -/
def removeAt (l : List α) (off n : Nat) : List α := l.take off ++ l.drop (off + n)

/-- Replace the elements from offset `off` on by `xs`, as many as `xs` has. -/
def overwriteAt (l : List α) (off : Nat) (xs : List α) : List α := l.take off ++ xs ++ l.drop (off + xs.length)

/-! ## Lengths -/

theorem length_slice (l : List α) {off n : Nat} (h : off + n ≤ l.length) : (slice l off n).length = n := by
  simp only [slice, List.length_take, List.length_drop]
  omega

@[simp] theorem length_insertAt (l : List α) (off : Nat) (xs : List α) :
    (insertAt l off xs).length = l.length + xs.length := by
  simp only [insertAt, List.length_append, List.length_take, List.length_drop]
  omega

/-- Taking a part out makes the list shorter by it. -/
theorem length_removeAt (l : List α) {off n : Nat} (h : off + n ≤ l.length) :
    (removeAt l off n).length = l.length - n := by
  simp only [removeAt, List.length_append, List.length_take, List.length_drop]
  omega

/-- Writing over a part changes no length. -/
theorem length_overwriteAt (l : List α) {off : Nat} {xs : List α} (h : off + xs.length ≤ l.length) :
    (overwriteAt l off xs).length = l.length := by
  simp only [overwriteAt, List.length_append, List.length_take, List.length_drop]
  omega

/-! ## On a list already cut at the offset -/

/-- Behind the first list is the second one. -/
theorem slice_append (a b : List α) (n : Nat) : slice (a ++ b) a.length n = b.take n := by
  simp [slice]

/-- Between two lists another one is put in. -/
theorem insertAt_append (a b xs : List α) : insertAt (a ++ b) a.length xs = a ++ xs ++ b := by
  simp [insertAt]

/-- Behind the first list some of the second one is taken out. -/
theorem removeAt_append (a b : List α) (n : Nat) : removeAt (a ++ b) a.length n = a ++ b.drop n := by
  simp [removeAt, List.drop_append]

/-- Behind the first list the second one is written over. -/
theorem overwriteAt_append (a b xs : List α) :
    overwriteAt (a ++ b) a.length xs = a ++ xs ++ b.drop xs.length := by
  simp [overwriteAt, List.drop_append]

/-- A list is what lies before an offset, the slice there, and the rest. -/
theorem take_slice_drop (l : List α) (off n : Nat) : l.take off ++ slice l off n ++ l.drop (off + n) = l := by
  rw [slice, List.append_assoc, ← List.drop_drop, List.take_append_drop, List.take_append_drop]

/-- What follows a beginning of the list is a part of it. -/
theorem eq_slice_of_take_append {l xs : List α} {off : Nat} (h : l.take off ++ xs <+: l) : xs = slice l off xs.length := by
  obtain ⟨rest, hrest⟩ := h
  rw [List.append_assoc] at hrest
  have hdrop : xs ++ rest = l.drop off := List.append_cancel_left (hrest.trans (List.take_append_drop off l).symm)
  rw [slice, ← hdrop, List.take_left]

/-- Every list with a block in range is a prefix, the block and a suffix, cut at the offset. -/
theorem exists_cut (l : List α) {off n : Nat} (h : off + n ≤ l.length) :
    ∃ a x b, l = a ++ x ++ b ∧ a.length = off ∧ x.length = n :=
  ⟨l.take off, slice l off n, l.drop (off + n), (take_slice_drop l off n).symm,
    by rw [List.length_take]; omega, length_slice l h⟩

/-! ## Taking an operation back -/

/-- Removing the block just inserted gives the list back. -/
theorem removeAt_insertAt (l xs : List α) {off : Nat} (h : off ≤ l.length) :
    removeAt (insertAt l off xs) off xs.length = l := by
  have ho : (l.take off).length = off := by rw [List.length_take]; omega
  calc removeAt (insertAt l off xs) off xs.length
      = removeAt (l.take off ++ (xs ++ l.drop off)) (l.take off).length xs.length := by
        rw [insertAt, List.append_assoc, ho]
    _ = l := by rw [removeAt_append, List.drop_left, List.take_append_drop]

/-- Inserting the block just removed gives the list back. -/
theorem insertAt_removeAt (l : List α) {off n : Nat} (h : off + n ≤ l.length) :
    insertAt (removeAt l off n) off (slice l off n) = l := by
  obtain ⟨a, x, b, rfl, rfl, rfl⟩ := exists_cut l h
  rw [List.append_assoc, slice_append, removeAt_append, insertAt_append]
  simp

/-- Writing the overwritten block back gives the list back. -/
theorem overwriteAt_overwriteAt (l xs : List α) {off : Nat} (h : off + xs.length ≤ l.length) :
    overwriteAt (overwriteAt l off xs) off (slice l off xs.length) = l := by
  obtain ⟨a, x, b, rfl, rfl, hx⟩ := exists_cut l h
  rw [List.append_assoc, slice_append, overwriteAt_append, List.append_assoc, overwriteAt_append]
  simp [← hx]

/-- The block just written is what a read there returns. -/
theorem slice_overwriteAt (l xs : List α) {off : Nat} (h : off ≤ l.length) :
    slice (overwriteAt l off xs) off xs.length = xs := by
  have ho : (l.take off).length = off := by rw [List.length_take]; omega
  calc slice (overwriteAt l off xs) off xs.length
      = slice (l.take off ++ (xs ++ l.drop (off + xs.length))) (l.take off).length xs.length := by
        rw [overwriteAt, List.append_assoc, ho]
    _ = xs := by rw [slice_append, List.take_left]

/-- The block just inserted is what a read there returns. -/
theorem slice_insertAt (l xs : List α) {off : Nat} (h : off ≤ l.length) :
    slice (insertAt l off xs) off xs.length = xs := by
  have ho : (l.take off).length = off := by rw [List.length_take]; omega
  calc slice (insertAt l off xs) off xs.length
      = slice (l.take off ++ (xs ++ l.drop off)) (l.take off).length xs.length := by
        rw [insertAt, List.append_assoc, ho]
    _ = xs := by rw [slice_append, List.take_left]

/-- Removing a block and inserting another of the same length there overwrites it. -/
theorem insertAt_removeAt_eq_overwriteAt (l xs : List α) {off : Nat} (h : off + xs.length ≤ l.length) :
    insertAt (removeAt l off xs.length) off xs = overwriteAt l off xs := by
  obtain ⟨a, x, b, rfl, rfl, hx⟩ := exists_cut l h
  rw [List.append_assoc, removeAt_append, insertAt_append, overwriteAt_append]

/-- Inserting a block and another behind it inserts the two. -/
theorem insertAt_insertAt (l xs ys : List α) {off : Nat} (h : off ≤ l.length) :
    insertAt (insertAt l off xs) (off + xs.length) ys = insertAt l off (xs ++ ys) := by
  have ho : (l.take off).length = off := by rw [List.length_take]; omega
  calc insertAt (insertAt l off xs) (off + xs.length) ys
      = insertAt (l.take off ++ xs ++ l.drop off) (l.take off ++ xs).length ys := by
        rw [List.length_append, ho, ← insertAt]
    _ = insertAt l off (xs ++ ys) := by rw [insertAt_append, insertAt, List.append_assoc (l.take off)]

/-- An overwriting that goes over the end of the list is one inside it and an insertion of the overhang. -/
theorem insertAt_overwriteAt_overhang (l xs : List α) {off n : Nat} (ho : off ≤ l.length)
    (hn : n = min xs.length (l.length - off)) :
    insertAt (overwriteAt l off (xs.take n)) (off + n) (xs.drop n) = overwriteAt l off xs := by
  have htk : (xs.take n).length = n := by rw [List.length_take]; omega
  by_cases hall : xs.length ≤ l.length - off
  · obtain rfl : n = xs.length := by omega
    rw [List.take_length, List.drop_length]
    simp [insertAt]
  · have hot : (l.take off).length = off := by rw [List.length_take]; omega
    have hpre : overwriteAt l off (xs.take n) = l.take off ++ xs.take n := by
      rw [overwriteAt, htk, List.drop_of_length_le (by omega), List.append_nil]
    have hsz : off + n = (l.take off ++ xs.take n).length := by rw [List.length_append, hot, htk]
    rw [hpre, hsz, insertAt, List.take_length, List.drop_length, List.append_nil, List.append_assoc, List.take_append_drop,
      overwriteAt, List.drop_of_length_le (by omega), List.append_nil]

/-- A block as long as the list takes its place. -/
theorem overwriteAt_whole {l xs : List α} (h : xs.length = l.length) : overwriteAt l 0 xs = xs := by
  simp [overwriteAt, h]

/-! ## Element by element -/

theorem map_slice {β : Type*} (f : α → β) (l : List α) (off n : Nat) : (slice l off n).map f = slice (l.map f) off n := by
  simp [slice]

theorem map_overwriteAt {β : Type*} (f : α → β) (l : List α) (off : Nat) (xs : List α) :
    (overwriteAt l off xs).map f = overwriteAt (l.map f) off (xs.map f) := by
  simp [overwriteAt]

/-! ## Texts that go on -/

/-- What is appended to the list is not touched by what is done in front. -/
theorem insertAt_append_right (l m xs : List α) {off : Nat} (h : off ≤ l.length) :
    insertAt (l ++ m) off xs = insertAt l off xs ++ m := by
  rw [insertAt, insertAt, List.take_append_of_le_length h, List.drop_append_of_le_length h, List.append_assoc _ _ m]

theorem removeAt_append_right (l m : List α) {off n : Nat} (h : off + n ≤ l.length) :
    removeAt (l ++ m) off n = removeAt l off n ++ m := by
  rw [removeAt, removeAt, List.take_append_of_le_length (by omega), List.drop_append_of_le_length h, List.append_assoc]

theorem overwriteAt_append_right (l m xs : List α) {off : Nat} (h : off + xs.length ≤ l.length) :
    overwriteAt (l ++ m) off xs = overwriteAt l off xs ++ m := by
  rw [overwriteAt, overwriteAt, List.take_append_of_le_length (by omega), List.drop_append_of_le_length h,
    List.append_assoc _ _ m]

theorem slice_append_right (l m : List α) {off n : Nat} (h : off + n ≤ l.length) : slice (l ++ m) off n = slice l off n := by
  rw [slice, slice, List.drop_append_of_le_length (by omega), List.take_append_of_le_length (by rw [List.length_drop]; omega)]

/-! ## Element by element -/

/-- The elements of a part. -/
theorem getElem?_slice (l : List α) (off n i : Nat) : (slice l off n)[i]? = if i < n then l[off + i]? else none := by
  rw [slice, List.getElem?_take, List.getElem?_drop]

/-- Lists that have the same elements in a range have the same slice there. -/
theorem slice_congr {l m : List α} {off n : Nat} (h : ∀ i < n, l[off + i]? = m[off + i]?) : slice l off n = slice m off n := by
  refine List.ext_getElem? fun i => ?_
  rw [getElem?_slice, getElem?_slice]
  split_ifs with hi
  · exact h i hi
  · rfl

/-- Overwriting leaves the elements outside of its range. -/
theorem getElem?_overwriteAt (l xs : List α) {off : Nat} (h : off ≤ l.length) {i : Nat} (hi : i < off ∨ off + xs.length ≤ i) :
    (overwriteAt l off xs)[i]? = l[i]? := by
  have hlen : (l.take off).length = off := List.length_take_of_le h
  rcases hi with hi | hi
  · rw [overwriteAt, List.append_assoc, List.getElem?_append_left (by omega), List.getElem?_take_of_lt hi]
  · rw [overwriteAt, List.getElem?_append_right (by rw [List.length_append]; omega), List.getElem?_drop, List.length_append, hlen,
      Nat.add_sub_cancel' hi]

end Splice
