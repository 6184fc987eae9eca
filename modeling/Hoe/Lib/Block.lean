import Hoe.Lib.Splice

/-!
# Blocks of allocated memory

`realloc`, `memcpy` and `memmove` on a block seen as the list of its cells, and the two idioms programs build from them:
open a gap in a block and fill it, close a gap and shrink the block. A cell `realloc` adds holds an indeterminate value;
it is a parameter here, so a result that does not mention it does not depend on it.
-/

namespace Block

open Splice

variable {α : Type*}

/-- The block resized to `n` cells: cut, or grown by cells that hold `junk`. -/
def realloc (junk : α) (d : List α) (n : Nat) : List α := d.take n ++ List.replicate (n - d.length) junk

/-- The cells `src` stored at index `dst` of the block. -/
def memcpy (d : List α) (dst : Nat) (src : List α) : List α := overwriteAt d dst src

/-- `n` cells of the block moved from index `src` to index `dst`; the two ranges may overlap. -/
def memmove (d : List α) (dst src n : Nat) : List α := overwriteAt d dst (slice d src n)

@[simp] theorem length_realloc (junk : α) (d : List α) (n : Nat) : (realloc junk d n).length = n := by
  simp only [realloc, List.length_append, List.length_take, List.length_replicate]
  omega

/-- Copying into a block changes no length. -/
theorem length_memcpy {d : List α} (dst : Nat) (src : List α) (h : dst + src.length ≤ d.length) : (memcpy d dst src).length = d.length :=
  length_overwriteAt d h

/-- Nor does moving in it. -/
theorem length_memmove (d : List α) (dst src n : Nat) (hsrc : src + n ≤ d.length) (hdst : dst + n ≤ d.length) :
    (memmove d dst src n).length = d.length :=
  length_overwriteAt d (by rwa [length_slice d hsrc])

/-- Shrinking keeps the first cells. -/
theorem realloc_of_le (junk : α) {d : List α} {n : Nat} (h : n ≤ d.length) : realloc junk d n = d.take n := by
  simp [realloc, Nat.sub_eq_zero_of_le h]

/-- Growing appends. -/
theorem realloc_of_ge (junk : α) {d : List α} {n : Nat} (h : d.length ≤ n) :
    realloc junk d n = d ++ List.replicate (n - d.length) junk := by
  rw [realloc, List.take_of_length_le h]

/-! ## What cells hold -/

/-- A block that is made longer has nothing new but junk. -/
theorem mem_realloc {junk x : α} {d : List α} {n : Nat} (h : x ∈ realloc junk d n) : x ∈ d ∨ x = junk := by
  rcases List.mem_append.mp h with h | h
  · exact Or.inl (List.mem_of_mem_take h)
  · exact Or.inr (List.eq_of_mem_replicate h)

/-- What a block has behind a copy is its own or was copied. -/
theorem mem_memcpy {x : α} {d src : List α} {dst : Nat} (h : x ∈ memcpy d dst src) : x ∈ d ∨ x ∈ src := by
  rcases List.mem_append.mp h with h | h
  · rcases List.mem_append.mp h with h | h
    · exact Or.inl (List.mem_of_mem_take h)
    · exact Or.inr h
  · exact Or.inl (List.mem_of_mem_drop h)

/-- Moving adds nothing. -/
theorem mem_memmove {x : α} {d : List α} {dst src n : Nat} (h : x ∈ memmove d dst src n) : x ∈ d := by
  rcases mem_memcpy (show x ∈ memcpy d dst (slice d src n) from h) with h | h
  · exact h
  · exact List.mem_of_mem_drop (List.mem_of_mem_take h)

/-! ## Cell by cell -/

/-- The functions on blocks act alike on what the elements stand for. -/
theorem map_realloc {β : Type*} (f : α → β) (junk : α) (d : List α) (n : Nat) :
    (realloc junk d n).map f = realloc (f junk) (d.map f) n := by
  simp [realloc]

theorem map_memcpy {β : Type*} (f : α → β) (d : List α) (dst : Nat) (src : List α) :
    (memcpy d dst src).map f = memcpy (d.map f) dst (src.map f) :=
  map_overwriteAt f d dst src

theorem map_memmove {β : Type*} (f : α → β) (d : List α) (dst src n : Nat) :
    (memmove d dst src n).map f = memmove (d.map f) dst src n := by
  rw [memmove, map_overwriteAt, map_slice, memmove]

/-! ## Idioms -/

/-- Open a gap and fill it: grow the block to `m` cells, move the cells from `off` on up by the length of `xs`, store
`xs` in the gap. What was moved past the end of the block is lost. -/
theorem fill_gap (junk : α) (d xs : List α) (off m : Nat) (ho : off ≤ d.length) (hd : d.length ≤ m)
    (hx : off + xs.length ≤ m) (hm : m ≤ d.length + xs.length) :
    memcpy (memmove (realloc junk d m) (off + xs.length) off (m - (off + xs.length))) off xs =
      (insertAt d off xs).take m := by
  obtain ⟨a, b, rfl, rfl⟩ : ∃ a b, d = a ++ b ∧ a.length = off :=
    ⟨d.take off, d.drop off, (List.take_append_drop off d).symm, by rw [List.length_take]; omega⟩
  simp only [List.length_append] at hd hm ho
  obtain ⟨r, hr⟩ : ∃ r, r = List.replicate (m - (a ++ b).length) junk := ⟨_, rfl⟩
  have hrl : r.length = m - (a.length + b.length) := by rw [hr]; simp
  obtain ⟨k, hk⟩ : ∃ k, k = m - (a.length + xs.length) := ⟨_, rfl⟩
  have hkb : k ≤ b.length := by omega
  -- the cells moved are the first `k` of `b`
  have hmove : slice (a ++ b ++ r) a.length k = b.take k := by
    rw [List.append_assoc, slice_append, List.take_append_of_le_length hkb]
  have hbk : (b.take k).length = k := by rw [List.length_take]; omega
  rw [realloc_of_ge junk (by simp only [List.length_append]; omega), ← hr, memmove, ← hk, hmove]
  -- they land after the gap, and nothing of the grown block lies beyond them
  have hland : overwriteAt (a ++ b ++ r) (a.length + xs.length) (b.take k) =
      a ++ ((b ++ r).take xs.length ++ b.take k) := by
    rw [overwriteAt, hbk, List.drop_of_length_le (by simp only [List.length_append]; omega), List.append_nil,
      List.append_assoc, List.take_length_add_append, List.append_assoc]
  rw [hland, memcpy, overwriteAt_append, insertAt_append]
  have hgap : ((b ++ r).take xs.length).length = xs.length := by
    simp only [List.length_take, List.length_append]; omega
  have hdrop : ((b ++ r).take xs.length ++ b.take k).drop xs.length = b.take k := by
    rw [List.drop_append, hgap, Nat.sub_self, List.drop_zero, List.drop_of_length_le (by omega), List.nil_append]
  have hmk : m = (a ++ xs).length + k := by simp only [List.length_append]; omega
  rw [hdrop, hmk, List.take_length_add_append]

/-- A gap opened in full loses nothing: it is an insertion. -/
theorem fill_gap_full (junk : α) (d xs : List α) (off : Nat) (ho : off ≤ d.length) :
    memcpy (memmove (realloc junk d (d.length + xs.length)) (off + xs.length) off (d.length - off)) off xs =
      insertAt d off xs := by
  have h := fill_gap junk d xs off (d.length + xs.length) ho (by omega) (by omega) (Nat.le_refl _)
  rwa [show d.length + xs.length - (off + xs.length) = d.length - off by omega,
    List.take_of_length_le (by rw [length_insertAt])] at h

/-- Close a gap: move the cells after the gap down and shrink the block. It is a removal. -/
theorem close_gap (junk : α) (d : List α) (off n : Nat) (h : off + n ≤ d.length) :
    realloc junk (memmove d off (off + n) (d.length - (off + n))) (d.length - n) = removeAt d off n := by
  obtain ⟨a, x, b, rfl, rfl, rfl⟩ := exists_cut d h
  have hb : slice (a ++ x ++ b) (a.length + x.length) ((a ++ x ++ b).length - (a.length + x.length)) = b := by
    rw [← List.length_append, slice_append, List.take_of_length_le (by simp only [List.length_append]; omega)]
  rw [memmove, hb, List.append_assoc, overwriteAt_append, removeAt_append, List.drop_left]
  have hlen : (a ++ (x ++ b)).length - x.length = (a ++ b).length := by simp only [List.length_append]; omega
  rw [hlen, realloc_of_le junk (by simp only [List.length_append, List.length_drop]; omega), List.take_left]

end Block
