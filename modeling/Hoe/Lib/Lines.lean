import Mathlib.Data.List.Basic
import Mathlib.Data.List.Induction

/-!
# Lines between separators

A list cut at each place of a separator is a number of lines, one more than there are separators. `ended` are lines with the
separator behind each, `begun` with the separator in front of each, so that a list is the lines in front of one, the line itself,
and the lines behind it.
-/

namespace Lines

variable {α : Type*} {nl : α} {a b : List (List α)} {l : List α}

/-- Each line and a separator behind it. -/
def ended (nl : α) (ls : List (List α)) : List α := ls.flatMap (· ++ [nl])

/-- A separator and a line behind it, for each line. -/
def begun (nl : α) (ls : List (List α)) : List α := ls.flatMap (nl :: ·)

@[simp] theorem ended_nil : ended nl [] = [] := rfl

@[simp] theorem ended_cons : ended nl (l :: a) = l ++ [nl] ++ ended nl a := rfl

@[simp] theorem ended_append : ended nl (a ++ b) = ended nl a ++ ended nl b := List.flatMap_append

@[simp] theorem begun_nil : begun nl [] = [] := rfl

@[simp] theorem begun_cons : begun nl (l :: b) = nl :: l ++ begun nl b := rfl

/-- A text seen from one of its lines. -/
theorem intercalate_cut (nl : α) (a : List (List α)) (l : List α) (b : List (List α)) :
    [nl].intercalate (a ++ l :: b) = ended nl a ++ l ++ begun nl b := by
  induction a generalizing l b with
  | nil =>
    rw [List.nil_append, ended_nil, List.nil_append]
    induction b generalizing l with
    | nil => rw [List.intercalate_singleton, begun_nil, List.append_nil]
    | cons l' b ih =>
      rw [List.intercalate_cons_cons, ih]
      simp
  | cons l' a ih =>
    have hne : a ++ l :: b ≠ [] := by simp
    rw [List.cons_append, List.intercalate_cons_of_ne_nil hne, ih]
    simp

/-- An ended text is empty or ends with a separator. -/
theorem ended_eq (nl : α) (a : List (List α)) : ended nl a = [] ∨ ∃ c, ended nl a = c ++ [nl] := by
  induction a using List.reverseRecOn with
  | nil => exact Or.inl rfl
  | append_singleton a l _ => exact Or.inr ⟨ended nl a ++ l, by simp⟩

/-- What begins with line ends begins with one. -/
theorem begun_eq (nl : α) (b : List (List α)) : begun nl b = [] ∨ ∃ c, begun nl b = nl :: c := by
  cases b with
  | nil => exact Or.inl rfl
  | cons l b => exact Or.inr ⟨_, begun_cons⟩

/-! ## Separators in it -/

variable [DecidableEq α]

/-- Each line has its end. -/
theorem count_ended (h : ∀ l ∈ a, nl ∉ l) : (ended nl a).count nl = a.length := by
  induction a with
  | nil => rfl
  | cons l a ih =>
    obtain ⟨hl, ha⟩ := List.forall_mem_cons.mp h
    rw [ended_cons, List.count_append, List.count_append, List.count_eq_zero.mpr hl, ih ha, List.length_cons]
    simp [Nat.add_comm]

/-- Each line has its beginning. -/
theorem count_begun (h : ∀ l ∈ b, nl ∉ l) : (begun nl b).count nl = b.length := by
  induction b with
  | nil => rfl
  | cons l b ih =>
    obtain ⟨hl, hb⟩ := List.forall_mem_cons.mp h
    rw [begun_cons, List.count_append, ih hb, List.count_cons_self, List.count_eq_zero.mpr hl, List.length_cons]
    omega

/-- A line has no separator in it. -/
theorem not_mem_of_mem_splitOn {text : List α} (h : l ∈ text.splitOn nl) : nl ∉ l := by
  induction text generalizing l with
  | nil =>
    rw [List.splitOn_nil, List.mem_singleton] at h
    rw [h]
    exact List.not_mem_nil
  | cons c text ih =>
    rw [List.splitOn_cons_eq_if_modifyHead] at h
    split at h
    · rcases List.mem_cons.mp h with rfl | h
      · exact List.not_mem_nil
      · exact ih h
    · rename_i hc
      obtain ⟨l', ls, hls⟩ := List.exists_cons_of_ne_nil (List.splitOn_ne_nil nl text)
      rw [hls, List.modifyHead_cons] at h
      rcases List.mem_cons.mp h with rfl | h
      · intro hmem
        rcases List.mem_cons.mp hmem with rfl | hmem
        · exact hc (beq_self_eq_true _)
        · exact ih (hls ▸ List.mem_cons_self) hmem
      · exact ih (hls ▸ List.mem_cons_of_mem _ h)

/-- A line has nothing that the text has not. -/
theorem subset_of_mem_splitOn {text : List α} (h : l ∈ text.splitOn nl) : l ⊆ text := by
  obtain ⟨a, b, hab⟩ := List.append_of_mem h
  have htext := intercalate_cut nl a l b
  rw [← hab, List.intercalate_splitOn] at htext
  intro c hc
  rw [htext]
  exact List.mem_append_left _ (List.mem_append_right _ hc)

/-- Without separators there is one line. -/
theorem splitOn_of_not_mem {text : List α} (h : nl ∉ text) : text.splitOn nl = [text] := by
  refine List.splitOnP_eq_singleton fun x hx => ?_
  rw [beq_eq_false_iff_ne]
  intro e
  rw [e] at hx
  exact h hx

/-- There is a line for each line end, and one more. -/
theorem length_splitOn (nl : α) (text : List α) : (text.splitOn nl).length = text.count nl + 1 := by
  obtain ⟨l, ls, hls⟩ := List.exists_cons_of_ne_nil (List.splitOn_ne_nil nl text)
  have hlines : ∀ l ∈ text.splitOn nl, nl ∉ l := fun l hl => not_mem_of_mem_splitOn hl
  have htext := intercalate_cut nl [] l ls
  rw [List.nil_append, ← hls, List.intercalate_splitOn] at htext
  rw [hls] at hlines ⊢
  obtain ⟨hl, hls'⟩ := List.forall_mem_cons.mp hlines
  rw [htext, ended_nil, List.nil_append, List.count_append, List.count_eq_zero.mpr hl, count_begun hls', List.length_cons,
    Nat.zero_add]

/-- A line of a text, with what is in front of it and behind it. -/
theorem exists_line {text : List α} {k : Nat} (hk : k ≤ text.count nl) :
    ∃ a l b, text.splitOn nl = a ++ l :: b ∧ a.length = k ∧ text = ended nl a ++ l ++ begun nl b := by
  have hlt : k < (text.splitOn nl).length := by
    rw [length_splitOn]
    omega
  refine ⟨(text.splitOn nl).take k, (text.splitOn nl)[k], (text.splitOn nl).drop (k + 1), ?_,
    List.length_take_of_le (Nat.le_of_lt hlt), ?_⟩
  · rw [← List.drop_eq_getElem_cons hlt, List.take_append_drop]
  · rw [← intercalate_cut, ← List.drop_eq_getElem_cons hlt, List.take_append_drop, List.intercalate_splitOn]

end Lines
