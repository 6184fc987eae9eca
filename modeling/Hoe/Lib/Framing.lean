import Mathlib

/-!
# Frames

A stream is frames end to end: an item that begins a frame says how many items the frame has, and no other item of the frame
begins one. A piece of a stream may begin and end in the middle of a frame.
-/

namespace Framing

variable {α : Type*} (lead : α → Bool) (width : α → Nat)

/-- A piece of a stream, in front of which a frame has begun that owes `k` items still. -/
def Piece : Nat → List α → Prop
  | _, [] => True
  | 0, c :: rest => lead c = true ∧ Piece (width c - 1) rest
  | k + 1, c :: rest => lead c = false ∧ Piece k rest

/-- How many items the last frame owes at the end of the piece. -/
def owed : Nat → List α → Nat
  | k, [] => k
  | 0, c :: rest => owed (width c - 1) rest
  | k + 1, _ :: rest => owed k rest

/-- The list is whole frames. -/
def Whole (l : List α) : Prop := Piece lead width 0 l ∧ owed width 0 l = 0

variable {lead width}

/-! ## Pieces -/

/-- What is owed behind two parts. -/
theorem owed_append (k : Nat) (a b : List α) : owed width k (a ++ b) = owed width (owed width k a) b := by
  induction a generalizing k with
  | nil => simp [owed]
  | cons c a ih => cases k <;> exact ih _

/-- A piece of two parts is a piece of each. -/
theorem piece_append (k : Nat) (a b : List α) :
    Piece lead width k (a ++ b) ↔ Piece lead width k a ∧ Piece lead width (owed width k a) b := by
  induction a generalizing k with
  | nil => simp [Piece, owed]
  | cons c a ih =>
    cases k with
    | zero => simp only [List.cons_append, Piece, owed, ih, and_assoc]
    | succ k => simp only [List.cons_append, Piece, owed, ih, and_assoc]

/-- In front of an item that begins a frame nothing is owed. -/
theorem Piece.owed_eq_zero {k : Nat} {c : α} {l : List α} (h : Piece lead width k (c :: l)) (hc : lead c = true) : k = 0 := by
  cases k with
  | zero => rfl
  | succ k =>
    rw [h.1] at hc
    cases hc

/-- A frame begins where nothing is owed. -/
theorem Piece.lead_head {k : Nat} {c : α} {l : List α} (h : Piece lead width k (c :: l)) : lead c = true ↔ k = 0 := by
  constructor
  · exact h.owed_eq_zero
  · rintro rfl
    exact h.1

/-- The items that are owed come first. -/
theorem Piece.take {k : Nat} {l : List α} (h : Piece lead width k l) : ∀ c ∈ l.take k, lead c = false := by
  induction l generalizing k with
  | nil => simp
  | cons d l ih =>
    cases k with
    | zero => simp
    | succ k =>
      rw [List.take_succ_cons, List.forall_mem_cons]
      exact ⟨h.1, ih h.2⟩

/-- Behind what is owed a piece begins with a frame. -/
theorem Piece.drop {k : Nat} {l : List α} (h : Piece lead width k l) : Piece lead width 0 (l.drop k) := by
  induction l generalizing k with
  | nil => simp [Piece]
  | cons d l ih =>
    cases k with
    | zero => exact h
    | succ k => exact ih h.2

/-- None of the items that are owed is counted. -/
theorem Piece.countP_drop {k : Nat} {l : List α} (h : Piece lead width k l) : (l.drop k).countP lead = l.countP lead := by
  have hzero : (l.take k).countP lead = 0 := by
    rw [List.countP_eq_zero]
    intro c hc
    simp [h.take c hc]
  have := congrArg (List.countP lead) (List.take_append_drop k l)
  rwa [List.countP_append, hzero, Nat.zero_add] at this

theorem owed_of_le {k : Nat} {l : List α} (h : l.length ≤ k) : owed width k l = k - l.length := by
  induction l generalizing k with
  | nil => simp [owed]
  | cons c l ih =>
    obtain ⟨k, rfl⟩ : ∃ j, k = j + 1 := ⟨k - 1, by rw [List.length_cons] at h; omega⟩
    rw [List.length_cons] at h
    rw [owed, ih (by omega), List.length_cons]
    omega

/-! ## Whole frames -/

theorem Whole.nil : Whole lead width ([] : List α) := ⟨trivial, rfl⟩

/-- Whole frames behind whole frames. -/
theorem Whole.append {a b : List α} (ha : Whole lead width a) (hb : Whole lead width b) : Whole lead width (a ++ b) :=
  ⟨(piece_append 0 a b).mpr ⟨ha.1, by rw [ha.2]; exact hb.1⟩, by rw [owed_append, ha.2]; exact hb.2⟩

/-- Behind whole frames the rest is whole. -/
theorem Whole.right {a b : List α} (h : Whole lead width (a ++ b)) (ha : owed width 0 a = 0) : Whole lead width b := by
  have h1 := ((piece_append 0 a b).mp h.1).2
  have h2 := h.2
  rw [owed_append] at h2
  rw [ha] at h1 h2
  exact ⟨h1, h2⟩

/-- In front of them as well. -/
theorem Whole.left {a b : List α} (h : Whole lead width (a ++ b)) (ha : owed width 0 a = 0) : Whole lead width a :=
  ⟨((piece_append 0 a b).mp h.1).1, ha⟩

/-- Whole frames can be cut in front of an item that begins one. -/
theorem Whole.cut {a b : List α} {c : α} (h : Whole lead width (a ++ c :: b)) (hc : lead c = true) :
    Whole lead width a ∧ Whole lead width (c :: b) := by
  have ha : owed width 0 a = 0 := ((piece_append 0 a (c :: b)).mp h.1).2.owed_eq_zero hc
  exact ⟨h.left ha, h.right ha⟩

/-- One frame in front of others. -/
theorem Whole.cons {c : α} {q rest : List α} (hc : lead c = true) (hq : q.length = width c - 1) (ht : ∀ x ∈ q, lead x = false)
    (hr : Whole lead width rest) : Whole lead width (c :: q ++ rest) := by
  have hpiece : ∀ p : List α, (∀ x ∈ p, lead x = false) → Piece lead width p.length p := by
    intro p
    induction p with
    | nil => exact fun _ => trivial
    | cons d p ih => exact fun h => ⟨h d (by simp), ih fun x hx => h x (by simp [hx])⟩
  refine Whole.append ⟨⟨hc, ?_⟩, ?_⟩ hr
  · rw [← hq]
    exact hpiece q ht
  · rw [owed, ← hq, owed_of_le (Nat.le_refl _), Nat.sub_self]

/-- What is left of a frame that a cut goes through, and the whole frames behind it. -/
theorem Whole.cut_owed {a b : List α} (h : Whole lead width (a ++ b)) :
    ∃ q rest, b = q ++ rest ∧ q.length = owed width 0 a ∧ (∀ c ∈ q, lead c = false) ∧ Whole lead width rest := by
  obtain ⟨hp, ho⟩ := h
  rw [owed_append] at ho
  have hb := ((piece_append 0 a b).mp hp).2
  have hlen : owed width 0 a ≤ b.length := by
    by_contra hlt
    rw [owed_of_le (by omega)] at ho
    omega
  have hmid : owed width (owed width 0 a) (b.take (owed width 0 a)) = 0 := by
    rw [owed_of_le (by rw [List.length_take]; omega), List.length_take]
    omega
  refine ⟨b.take (owed width 0 a), b.drop (owed width 0 a), (List.take_append_drop _ b).symm, ?_, hb.take, hb.drop, ?_⟩
  · rw [List.length_take]
    omega
  · rwa [← List.take_append_drop (owed width 0 a) b, owed_append, hmid] at ho

/-- The first frame, and whole frames behind it. -/
theorem Whole.uncons {c : α} {l : List α} (h : Whole lead width (c :: l)) :
    ∃ q rest, l = q ++ rest ∧ lead c = true ∧ q.length = width c - 1 ∧ (∀ x ∈ q, lead x = false) ∧ Whole lead width rest := by
  obtain ⟨q, rest, h1, h2, h3, h4⟩ := Whole.cut_owed (a := [c]) (b := l) h
  exact ⟨q, rest, h1, h.1.1, h2, h3, h4⟩

/-- Induction on the frames. -/
theorem Whole.induct {P : List α → Prop} (nil : P [])
    (frame : ∀ c q rest, lead c = true → q.length = width c - 1 → (∀ x ∈ q, lead x = false) → Whole lead width rest →
      P rest → P (c :: q ++ rest)) {l : List α} (h : Whole lead width l) : P l := by
  induction hn : l.length using Nat.strong_induction_on generalizing l with
  | _ n ih =>
    cases l with
    | nil => exact nil
    | cons c l =>
      obtain ⟨q, rest, rfl, hc, hq, ht, hr⟩ := h.uncons
      subst hn
      exact frame c q rest hc hq ht hr (ih _ (by simp) hr rfl)

/-- A frame has one leading element. -/
theorem countP_frame {c : α} {q : List α} (hc : lead c = true) (ht : ∀ x ∈ q, lead x = false) (rest : List α) :
    (c :: q ++ rest).countP lead = rest.countP lead + 1 := by
  have hq : q.countP lead = 0 := List.countP_eq_zero.mpr fun x hx => by simp [ht x hx]
  rw [List.cons_append, List.countP_cons_of_pos hc, List.countP_append, hq, Nat.zero_add]

/-- Whole frames can be cut behind any number of them. -/
theorem Whole.cut_count {l : List α} (h : Whole lead width l) {n : Nat} (hn : n ≤ l.countP lead) :
    ∃ a b, l = a ++ b ∧ Whole lead width a ∧ Whole lead width b ∧ a.countP lead = n := by
  refine Whole.induct (P := fun l => ∀ n ≤ l.countP lead,
    ∃ a b, l = a ++ b ∧ Whole lead width a ∧ Whole lead width b ∧ a.countP lead = n) ?_ ?_ h n hn
  · intro n hn
    exact ⟨[], [], rfl, .nil, .nil, (Nat.le_zero.mp hn).symm⟩
  · intro c q rest hc hq ht hr ih n hn
    cases n with
    | zero => exact ⟨[], _, rfl, .nil, .cons hc hq ht hr, rfl⟩
    | succ n =>
      rw [countP_frame hc ht] at hn
      obtain ⟨a, b, rfl, ha, hb, hcount⟩ := ih n (by omega)
      refine ⟨c :: q ++ a, b, by rw [List.append_assoc], .cons hc hq ht ha, hb, ?_⟩
      rw [countP_frame hc ht, hcount]

/-- Whole frames that begin nothing are none. -/
theorem Whole.eq_nil {l : List α} (h : Whole lead width l) (h0 : l.countP lead = 0) : l = [] := by
  cases l with
  | nil => rfl
  | cons c l =>
    rw [List.countP_cons_of_pos h.1.1] at h0
    omega

/-- In front of whole frames at the end there are whole frames. -/
theorem Whole.of_right {a b : List α} (h : Whole lead width (a ++ b)) (hb : Whole lead width b) : Whole lead width a := by
  cases b with
  | nil => rwa [List.append_nil] at h
  | cons c b => exact (h.cut hb.1.1).1

/-- Whole frames end with a frame. -/
theorem Whole.exists_last {l : List α} (h : Whole lead width l) (hl : l ≠ []) :
    ∃ a c q, l = a ++ c :: q ∧ Whole lead width a ∧ lead c = true ∧ q.length = width c - 1 ∧ ∀ x ∈ q, lead x = false := by
  refine Whole.induct (P := fun l => l ≠ [] →
    ∃ a c q, l = a ++ c :: q ∧ Whole lead width a ∧ lead c = true ∧ q.length = width c - 1 ∧ ∀ x ∈ q, lead x = false) ?_ ?_ h hl
  · exact fun hnil => absurd rfl hnil
  · intro c q rest hc hq ht hr ih _
    by_cases hrest : rest = []
    · exact ⟨[], c, q, by rw [hrest, List.append_nil, List.nil_append], .nil, hc, hq, ht⟩
    · obtain ⟨a, d, p, rfl, ha, hd, hp, htp⟩ := ih hrest
      exact ⟨c :: q ++ a, d, p, (List.append_assoc ..).symm, .cons hc hq ht ha, hd, hp, htp⟩

/-- Of two cuts between frames, the one behind more frames is farther. -/
theorem Whole.length_eq_iff {a b a' b' : List α} (h : a ++ b = a' ++ b') (ha : Whole lead width a) (ha' : Whole lead width a') :
    a.length = a'.length ↔ a.countP lead = a'.countP lead := by
  constructor
  · intro hlen
    rw [(List.append_inj h hlen).1]
  · intro hcount
    rcases List.append_eq_append_iff.mp h with ⟨d, rfl, -⟩ | ⟨d, rfl, -⟩
    · rw [List.countP_append] at hcount
      rw [(ha'.right ha.2).eq_nil (by omega), List.append_nil]
    · rw [List.countP_append] at hcount
      rw [(ha.right ha'.2).eq_nil (by omega), List.append_nil]

end Framing
