import Mathlib.Data.List.Basic
import Mathlib.Data.List.TakeWhile

/-!
# Words between gaps

A list is seen as words with gaps between them: a word is a maximal run of elements that are in no gap. `Chunk` cuts off the gap
at the front and the word behind it, so that a list can be gone through chunk by chunk.
-/

namespace Words

variable {α : Type*} {gap : α → Bool} {l g w rest : List α}

/-- The words of a list, in order. -/
def words (gap : α → Bool) (l : List α) : List (List α) := (l.splitOnP gap).filter fun w => !w.isEmpty

/-- Whether there is a gap behind the last word. -/
def endsInGap (gap : α → Bool) (l : List α) : Bool := l.getLast?.any gap

@[simp] theorem words_nil : words gap [] = [] := by simp [words]

/-- At a gap the words end. -/
theorem words_append_cons {c : α} (hc : gap c = true) (x y : List α) : words gap (x ++ c :: y) = words gap x ++ words gap y := by
  rw [words, List.splitOnP_append_cons x y hc, List.filter_append]
  rfl

/-- A gap at the front belongs to no word. -/
theorem words_gap_append (hg : ∀ c ∈ g, gap c = true) : words gap (g ++ l) = words gap l := by
  induction g with
  | nil => rfl
  | cons c g ih =>
    obtain ⟨hc, hg⟩ := List.forall_mem_cons.mp hg
    have hcut := words_append_cons hc [] (g ++ l)
    rw [List.nil_append, words_nil, List.nil_append] at hcut
    rw [List.cons_append, hcut, ih hg]

/-- Without a gap there is one word. -/
theorem words_word (hne : w ≠ []) (hw : ∀ c ∈ w, gap c = false) : words gap w = [w] := by
  rw [words, List.splitOnP_eq_singleton hw, List.filter_singleton]
  cases w with
  | nil => exact absurd rfl hne
  | cons c w => rfl

/-- A word at the front, up to the gap behind it. -/
theorem words_word_append (hne : w ≠ []) (hw : ∀ c ∈ w, gap c = false) (hrest : ∀ c ∈ rest.head?, gap c = true) :
    words gap (w ++ rest) = w :: words gap rest := by
  cases rest with
  | nil => rw [List.append_nil, words_word hne hw, words_nil]
  | cons c rest =>
    have hc : gap c = true := hrest c rfl
    have hcut := words_append_cons hc [] rest
    rw [List.nil_append, words_nil, List.nil_append] at hcut
    rw [words_append_cons hc, words_word hne hw, hcut, List.singleton_append]

/-- A word is not empty, and nothing of it is in a gap. -/
theorem mem_words (h : w ∈ words gap l) : w ≠ [] ∧ ∀ c ∈ w, gap c = false := by
  obtain ⟨hmem, hne⟩ := List.mem_filter.mp h
  refine ⟨by simpa using hne, ?_⟩
  clear hne h
  induction l generalizing w with
  | nil =>
    rw [List.splitOnP_nil, List.mem_singleton] at hmem
    simp [hmem]
  | cons c l ih =>
    rw [List.splitOnP_cons_eq_if_modifyHead] at hmem
    split at hmem
    · rcases List.mem_cons.mp hmem with rfl | hmem
      · simp
      · exact ih hmem
    · rename_i hc
      obtain ⟨x, xs, hx⟩ := List.exists_cons_of_ne_nil (List.splitOnP_ne_nil gap l)
      rw [hx, List.modifyHead_cons] at hmem
      rcases List.mem_cons.mp hmem with rfl | hmem
      · intro c' hc'
        rcases List.mem_cons.mp hc' with rfl | hc'
        · exact Bool.eq_false_iff.mpr hc
        · exact ih (hx ▸ List.mem_cons_self) c' hc'
      · exact ih (hx ▸ List.mem_cons_of_mem x hmem)

/-! ## Chunk by chunk -/

/-- A list cut behind its first word: the gap in front of the word, the word, which is missing only at the end of the list, and the
rest, which begins with a gap. -/
structure Chunk (gap : α → Bool) (l g w rest : List α) : Prop where
  eq : l = g ++ w ++ rest
  gap_front : ∀ c ∈ g, gap c = true
  word : ∀ c ∈ w, gap c = false
  behind : ∀ c ∈ rest.head?, gap c = true
  last : w = [] → rest = []

theorem head?_dropWhile_not (p : α → Bool) (l : List α) : ∀ c ∈ (l.dropWhile p).head?, p c = false := by
  intro c hc
  have := List.head?_dropWhile_not p l
  rw [Option.mem_def.mp hc] at this
  simpa using this

/-- A list begins with some gaps and a word. -/
theorem exists_chunk (gap : α → Bool) (l : List α) : ∃ g w rest, Chunk gap l g w rest := by
  obtain ⟨y, hy⟩ : ∃ y, y = l.dropWhile gap := ⟨_, rfl⟩
  refine ⟨l.takeWhile gap, y.takeWhile (!gap ·), y.dropWhile (!gap ·), ?_, ?_, ?_, ?_, ?_⟩
  · rw [List.append_assoc, List.takeWhile_append_dropWhile, hy, List.takeWhile_append_dropWhile]
  · intro c hc
    exact List.mem_takeWhile_imp hc
  · intro c hc
    simpa using List.mem_takeWhile_imp hc
  · intro c hc
    simpa using head?_dropWhile_not (!gap ·) y c hc
  · intro hnil
    cases hy' : y with
    | nil => rfl
    | cons c y' =>
      have hc : gap c = false := head?_dropWhile_not gap l c (by rw [← hy, hy']; rfl)
      rw [hy', List.takeWhile_cons_of_pos (by simp [hc])] at hnil
      cases hnil

theorem takeWhile_append_of_head {p : α → Bool} (hg : ∀ c ∈ g, p c = true) (hl : ∀ c ∈ l.head?, p c = false) :
    (g ++ l).takeWhile p = g := by
  rw [List.takeWhile_append_of_pos hg]
  cases l with
  | nil => rw [List.takeWhile_nil, List.append_nil]
  | cons c l =>
    have hc : p c = false := hl c rfl
    rw [List.takeWhile_cons_of_neg (by simp [hc]), List.append_nil]

theorem dropWhile_append_of_head {p : α → Bool} (hg : ∀ c ∈ g, p c = true) (hl : ∀ c ∈ l.head?, p c = false) :
    (g ++ l).dropWhile p = l := by
  rw [List.dropWhile_append_of_pos hg]
  cases l with
  | nil => rw [List.dropWhile_nil]
  | cons c l =>
    have hc : p c = false := hl c rfl
    rw [List.dropWhile_cons_of_neg (by simp [hc])]

namespace Chunk

/-- The gap in front is all of it. -/
theorem takeWhile_gap (h : Chunk gap l g w rest) : l.takeWhile gap = g := by
  rw [h.eq, List.append_assoc]
  refine takeWhile_append_of_head h.gap_front fun c hc => ?_
  cases w with
  | nil =>
    rw [h.last rfl] at hc
    cases hc
  | cons c' w =>
    obtain rfl : c' = c := Option.some.inj hc
    exact h.word c' List.mem_cons_self

/-- So is the word. -/
theorem takeWhile_word (h : Chunk gap l g w rest) : (w ++ rest).takeWhile (!gap ·) = w :=
  takeWhile_append_of_head (fun c hc => by simpa using h.word c hc) fun c hc => by simpa using h.behind c hc

/-- The words are the first one, if there is one, and those behind it. -/
theorem words_eq (h : Chunk gap l g w rest) : words gap l = if w = [] then [] else w :: words gap rest := by
  rw [h.eq, List.append_assoc, words_gap_append h.gap_front]
  split
  · rename_i hw
    rw [hw, h.last hw]
    exact words_nil
  · rename_i hw
    exact words_word_append hw h.word h.behind

/-- Behind the last word there is a gap exactly when there is one behind the chunk, or there is no word. -/
theorem endsInGap_eq (h : Chunk gap l g w rest) :
    endsInGap gap l = if rest = [] then (decide (w = []) && !g.isEmpty) else endsInGap gap rest := by
  rw [h.eq, endsInGap]
  split
  · rename_i hrest
    rw [hrest, List.append_nil]
    rcases List.eq_nil_or_concat w with rfl | ⟨w', c, rfl⟩
    · rcases List.eq_nil_or_concat g with rfl | ⟨g', c, rfl⟩
      · rfl
      · have hc := h.gap_front c (by simp)
        simp [hc]
    · have hc := h.word c (by simp)
      simp [hc]
  · rename_i hrest
    rw [List.getLast?_append_of_ne_nil _ hrest, endsInGap]

/-- There is nothing behind a word exactly when it is the last and no gap is behind it. -/
theorem rest_eq_nil_iff (h : Chunk gap l g w rest) : rest = [] ↔ words gap rest = [] ∧ endsInGap gap rest = false := by
  constructor
  · rintro rfl
    exact ⟨words_nil, rfl⟩
  · rintro ⟨hwords, hends⟩
    by_contra hne
    obtain ⟨g', w', rest', h'⟩ := exists_chunk gap rest
    rw [h'.words_eq] at hwords
    by_cases hw : w' = []
    · obtain ⟨c, r, hr⟩ := List.exists_cons_of_ne_nil hne
      have hrest' := h'.last hw
      have hg : g' ≠ [] := by
        rintro rfl
        exact hne (by rw [h'.eq, hw, hrest']; rfl)
      rw [h'.endsInGap_eq, if_pos hrest', hw] at hends
      simp [hg] at hends
    · rw [if_neg hw] at hwords
      cases hwords

end Chunk
end Words
