import Hoe.Lib.Splice

/-!
# A block inserted at several places

The places are offsets of the list before any of the insertions, in order. Inserted from the last place on to the first one no
offset moves; inserted from the first one on, each block moves the places behind it by its length.
-/

namespace Splice

variable {α : Type*} {l xs ys : List α} {o o' i j : Nat} {os : List Nat}

/-- An insertion moves what is behind it. -/
theorem getElem?_insertAt (l xs : List α) (ho : o ≤ l.length) (j : Nat) :
    (insertAt l o xs)[j]? = if j < o then l[j]? else if j < o + xs.length then xs[j - o]? else l[j - xs.length]? := by
  have hlen : (l.take o).length = o := List.length_take_of_le ho
  rw [insertAt, List.append_assoc]
  split
  · rename_i h
    rw [List.getElem?_append_left (by omega), List.getElem?_take_of_lt h]
  · rw [List.getElem?_append_right (by omega), hlen]
    split
    · rw [List.getElem?_append_left (by omega)]
    · rw [List.getElem?_append_right (by omega), List.getElem?_drop]
      congr 1
      omega

/-- In front of the place nothing moves. -/
theorem getElem?_insertAt_front (l xs : List α) (ho : o ≤ l.length) (hj : j < o) : (insertAt l o xs)[j]? = l[j]? := by
  rw [getElem?_insertAt l xs ho, if_pos hj]

/-- Behind it everything moves by what was put in. -/
theorem getElem?_insertAt_behind (l xs : List α) (ho : o ≤ l.length) (hj : o ≤ j) :
    (insertAt l o xs)[j + xs.length]? = l[j]? := by
  rw [getElem?_insertAt l xs ho, if_neg (by omega), if_neg (by omega), Nat.add_sub_cancel]

theorem insertAt_empty (l : List α) (o : Nat) : insertAt l o [] = l := by
  rw [insertAt, List.append_nil, List.take_append_drop]

/-- Two insertions in either order. -/
theorem insertAt_comm (h : o ≤ o') (ho : o' ≤ l.length) :
    insertAt (insertAt l o xs) (o' + xs.length) ys = insertAt (insertAt l o' ys) o xs := by
  obtain ⟨a, m, b, rfl, rfl, hm⟩ := exists_cut l (show o + (o' - o) ≤ l.length by omega)
  have ho' : o' = (a ++ m).length := by
    rw [List.length_append]
    omega
  have hlen : (a ++ m).length + xs.length = (a ++ xs ++ m).length := by
    simp only [List.length_append]
    omega
  have hfirst : insertAt (a ++ m ++ b) a.length xs = a ++ xs ++ m ++ b := by
    rw [List.append_assoc, insertAt_append]
    simp
  rw [ho', hlen, hfirst, insertAt_append, insertAt_append]
  have hassoc : a ++ m ++ ys ++ b = a ++ (m ++ ys ++ b) := by simp
  rw [hassoc, insertAt_append]
  simp

/-- A block in front of each of the elements at the offsets. -/
def insertEach (os : List Nat) (xs l : List α) : List α := os.foldr (fun o l => insertAt l o xs) l

@[simp] theorem insertEach_nil (xs l : List α) : insertEach [] xs l = l := rfl

@[simp] theorem insertEach_cons (o : Nat) (os : List Nat) (xs l : List α) :
    insertEach (o :: os) xs l = insertAt (insertEach os xs l) o xs := rfl

/-- The list is longer by what is put in at each place. -/
theorem length_insertEach (os : List Nat) (xs l : List α) : (insertEach os xs l).length = l.length + os.length * xs.length := by
  induction os with
  | nil => simp
  | cons o os ih =>
    rw [insertEach_cons, length_insertAt, ih, List.length_cons, Nat.succ_mul, Nat.add_assoc]

theorem insertEach_empty (os : List Nat) (l : List α) : insertEach os [] l = l := by
  induction os with
  | nil => rfl
  | cons o os ih =>
    rw [insertEach_cons, ih, insertAt_empty]

/-- An element is there as often as before, and as often as it was put in. -/
theorem count_insertAt [BEq α] (a : α) (l xs : List α) (o : Nat) : (insertAt l o xs).count a = l.count a + xs.count a := by
  have hl : (l.take o).count a + (l.drop o).count a = l.count a := by rw [← List.count_append, List.take_append_drop]
  rw [insertAt, List.count_append, List.count_append]
  omega

/-- The same of all places. -/
theorem count_insertEach [BEq α] (a : α) (os : List Nat) (xs l : List α) :
    (insertEach os xs l).count a = l.count a + os.length * xs.count a := by
  induction os with
  | nil => simp
  | cons o os ih =>
    rw [insertEach_cons, count_insertAt, ih, List.length_cons, Nat.succ_mul, Nat.add_assoc]

/-- The block at the last place inserted behind the others. -/
theorem insertAt_insertEach (xs : List α) (h : ∀ o' ∈ os, o' ≤ o) (ho : o ≤ l.length) :
    insertAt (insertEach os xs l) (o + os.length * xs.length) xs = insertEach (os ++ [o]) xs l := by
  induction os with
  | nil => simp
  | cons o' os ih =>
    obtain ⟨ho', hos⟩ := List.forall_mem_cons.mp h
    have hlen := length_insertEach os xs l
    rw [List.cons_append, insertEach_cons, insertEach_cons, List.length_cons, Nat.succ_mul, ← Nat.add_assoc,
      insertAt_comm (by omega) (by omega), ih hos]

/-- What is in front of an offset behind all the places. -/
theorem take_insertEach (xs : List α) (h : ∀ o' ∈ os, o' ≤ o) (ho : o ≤ l.length) :
    (insertEach os xs l).take (o + os.length * xs.length) = insertEach os xs (l.take o) := by
  induction os with
  | nil => simp
  | cons o' os ih =>
    obtain ⟨ho', hos⟩ := List.forall_mem_cons.mp h
    have hlen := length_insertEach os xs l
    rw [insertEach_cons, insertEach_cons, ← ih hos, List.length_cons, Nat.succ_mul, ← Nat.add_assoc]
    conv_lhs => rw [← List.take_append_drop (o + os.length * xs.length) (insertEach os xs l)]
    have htake : ((insertEach os xs l).take (o + os.length * xs.length)).length = o + os.length * xs.length :=
      List.length_take_of_le (by omega)
    rw [insertAt_append_right _ _ _ (by omega), List.take_append_of_le_length (by rw [length_insertAt]; omega),
      List.take_of_length_le (by rw [length_insertAt]; omega)]

/-- An element behind all the places is moved by all the blocks. -/
theorem getElem?_insertEach (xs : List α) (h : ∀ o ∈ os, o ≤ i) (hi : i < l.length) :
    (insertEach os xs l)[i + os.length * xs.length]? = l[i]? := by
  induction os with
  | nil => simp
  | cons o os ih =>
    obtain ⟨ho, hos⟩ := List.forall_mem_cons.mp h
    have hlen := length_insertEach os xs l
    rw [insertEach_cons, List.length_cons, Nat.succ_mul, ← Nat.add_assoc, getElem?_insertAt_behind _ _ (by omega) (by omega),
      ih hos]

/-- Where an element of the list is after the insertions. -/
theorem eq_of_getElem?_insertEach {a : α} (hos : os.Pairwise (· ≤ ·)) (hle : ∀ o ∈ os, o ≤ l.length) (hxs : a ∉ xs)
    (hl : ∀ i', l[i']? = some a → i' = i) (hj : (insertEach os xs l)[j]? = some a) :
    j = i + xs.length * os.countP (· ≤ i) := by
  induction os generalizing j with
  | nil => simpa using hl j hj
  | cons o os ih =>
    obtain ⟨hfirst, hrest⟩ := List.pairwise_cons.mp hos
    obtain ⟨ho, hle⟩ := List.forall_mem_cons.mp hle
    rw [insertEach_cons, getElem?_insertAt _ _ (by rw [length_insertEach]; omega)] at hj
    have hnone : i < o → os.countP (· ≤ i) = 0 := fun hlt => List.countP_eq_zero.mpr fun o' ho' => by
      have := hfirst o' ho'
      simp
      omega
    split at hj
    · rename_i hlt
      have hj' := ih hrest hle hj
      have hio : i < o := Nat.lt_of_le_of_lt (Nat.le.intro hj'.symm) hlt
      rw [hnone hio, Nat.mul_zero, Nat.add_zero] at hj'
      rw [List.countP_cons_of_neg (by simpa using hio), hnone hio, hj', Nat.mul_zero, Nat.add_zero]
    · rename_i hge
      split at hj
      · exact absurd (List.mem_of_getElem? hj) hxs
      · rename_i hbehind
        have hj' := ih hrest hle hj
        have hio : o ≤ i := by
          by_contra hlt
          rw [hnone (by omega), Nat.mul_zero, Nat.add_zero] at hj'
          omega
        rw [List.countP_cons_of_pos (by simpa using hio), Nat.mul_succ, ← Nat.add_assoc, ← hj']
        omega

end Splice
