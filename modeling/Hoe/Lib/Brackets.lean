import Mathlib.Data.List.Infix

/-!
# Brackets of one kind

A list in which one element opens and another one closes. A bracket is closed where as many have closed as have opened behind it;
everything in between is balanced. Read from the other end with the two elements exchanged, what is balanced stays balanced, so
that the closing bracket leads back to the opening one.
-/

namespace Brackets

variable {α : Type*} [DecidableEq α] {a b c : α} {l mid p : List α} {n i : Nat}

/-- As many `b` as `a`, and in no prefix more `b` than `a`. -/
def Balanced (a b : α) (l : List α) : Prop := l.count b = l.count a ∧ ∀ p, p <+: l → p.count b ≤ p.count a

/-- Read from behind, the two brackets change their parts. -/
theorem Balanced.reverse (h : Balanced a b l) : Balanced b a l.reverse := by
  obtain ⟨htotal, hprefix⟩ := h
  refine ⟨by rw [List.count_reverse, List.count_reverse, htotal], fun p hp => ?_⟩
  obtain ⟨q, hq⟩ := hp
  have hcut : l = q.reverse ++ p.reverse := by rw [← List.reverse_append, hq, List.reverse_reverse]
  have hle := hprefix q.reverse ⟨p.reverse, hcut.symm⟩
  rw [hcut, List.count_append, List.count_append] at htotal
  simp only [List.count_reverse] at htotal hle
  omega

theorem balanced_reverse : Balanced a b l.reverse ↔ Balanced b a l :=
  ⟨fun h => l.reverse_reverse ▸ h.reverse, Balanced.reverse⟩

/-- Behind the elements the last of `n` open brackets is closed, and not before. -/
def Closes (a b : α) (n : Nat) (mid : List α) : Prop :=
  mid.count b + 1 = mid.count a + n ∧ ∀ p, p <+: mid → p.count b < p.count a + n

/-- One open bracket is closed just behind a balanced text. -/
theorem closes_one : Closes a b 1 mid ↔ Balanced a b mid := by
  constructor
  · rintro ⟨htotal, hprefix⟩
    exact ⟨by omega, fun p hp => by have := hprefix p hp; omega⟩
  · rintro ⟨htotal, hprefix⟩
    exact ⟨by omega, fun p hp => by have := hprefix p hp; omega⟩

/-- With nothing in between just one bracket is open. -/
theorem closes_nil (hn : 1 ≤ n) : Closes a b n [] ↔ n = 1 := by
  constructor
  · rintro ⟨htotal, -⟩
    simp at htotal
    omega
  · rintro rfl
    exact closes_one.mpr ⟨rfl, fun p hp => by rw [List.prefix_nil.mp hp]; exact Nat.le_refl _⟩

omit [DecidableEq α] in
/-- The beginnings of a list with another element in front. -/
theorem forall_prefix_cons {P : List α → Prop} : (∀ p, p <+: c :: mid → P p) ↔ P [] ∧ ∀ p, p <+: mid → P (c :: p) := by
  constructor
  · intro h
    exact ⟨h [] List.nil_prefix, fun p hp => h _ (List.cons_prefix_cons.mpr ⟨rfl, hp⟩)⟩
  · rintro ⟨hnil, hcons⟩ p hp
    rcases List.prefix_cons_iff.mp hp with rfl | ⟨q, rfl, hq⟩
    · exact hnil
    · exact hcons q hq

/-- An open bracket adds one to be closed. -/
theorem closes_open (hab : a ≠ b) (hn : 1 ≤ n) : Closes a b n (a :: mid) ↔ Closes a b (n + 1) mid := by
  have hcount (p : List α) : (a :: p).count a = p.count a + 1 ∧ (a :: p).count b = p.count b :=
    ⟨List.count_cons_self, List.count_cons_of_ne hab⟩
  have hpos : 0 < 0 + n := by omega
  simp only [Closes, forall_prefix_cons, hcount, List.count_nil, hpos, true_and]
  refine and_congr (by omega) (forall₂_congr fun p _ => by omega)

/-- A closing one takes one away. -/
theorem closes_close (hab : a ≠ b) (hn : 1 ≤ n) : Closes a b (n + 1) (b :: mid) ↔ Closes a b n mid := by
  have hcount (p : List α) : (b :: p).count a = p.count a ∧ (b :: p).count b = p.count b + 1 :=
    ⟨List.count_cons_of_ne hab.symm, List.count_cons_self⟩
  have hpos : 0 < 0 + (n + 1) := by omega
  simp only [Closes, forall_prefix_cons, hcount, List.count_nil, hpos, true_and]
  refine and_congr (by omega) (forall₂_congr fun p _ => by omega)

/-- Anything else changes nothing. -/
theorem closes_other (ha : c ≠ a) (hb : c ≠ b) (hn : 1 ≤ n) : Closes a b n (c :: mid) ↔ Closes a b n mid := by
  have hcount (p : List α) : (c :: p).count a = p.count a ∧ (c :: p).count b = p.count b :=
    ⟨List.count_cons_of_ne ha, List.count_cons_of_ne hb⟩
  have hpos : 0 < 0 + n := by omega
  simp only [Closes, forall_prefix_cons, hcount, List.count_nil, hpos, true_and]

/-- The last bracket is closed by the first one that closes it, not by a later one. -/
theorem not_closes_close (hab : a ≠ b) (mid : List α) : ¬Closes a b 1 (b :: mid) := by
  intro h
  have hone := h.2 [b] (List.cons_prefix_cons.mpr ⟨rfl, List.nil_prefix⟩)
  rw [List.count_cons_self, List.count_cons_of_ne hab.symm] at hone
  simp at hone

/-- Where the last of `n` open brackets is closed. -/
def closing (a b : α) : Nat → List α → Option Nat
  | _, [] => none
  | n, c :: l =>
    if c = a then (closing a b (n + 1) l).map (· + 1)
    else if c = b then if n ≤ 1 then some 0 else (closing a b (n - 1) l).map (· + 1)
    else (closing a b n l).map (· + 1)

/-- What the function finds is the place of the bracket that closes. -/
theorem closing_iff (hab : a ≠ b) (hn : 1 ≤ n) :
    closing a b n l = some i ↔ ∃ mid rest, l = mid ++ b :: rest ∧ mid.length = i ∧ Closes a b n mid := by
  induction l generalizing n i with
  | nil => simp [closing]
  | cons c l ih =>
    -- what is closed behind the first element
    have hcons {k : Nat} (hk : 1 ≤ k) (hc : c ≠ b ∨ 2 ≤ n) (hmid : ∀ mid, Closes a b n (c :: mid) ↔ Closes a b k mid) :
        (closing a b k l).map (· + 1) = some i ↔
          ∃ mid rest, c :: l = mid ++ b :: rest ∧ mid.length = i ∧ Closes a b n mid := by
      rw [Option.map_eq_some_iff]
      constructor
      · rintro ⟨j, hj, rfl⟩
        obtain ⟨mid, rest, rfl, rfl, hcloses⟩ := (ih hk).mp hj
        exact ⟨c :: mid, rest, rfl, rfl, (hmid mid).mpr hcloses⟩
      · rintro ⟨mid, rest, hl, rfl, hcloses⟩
        cases mid with
        | nil =>
          obtain ⟨rfl, -⟩ := List.cons.inj hl
          have := (closes_nil hn).mp hcloses
          rcases hc with hc | hc
          · exact absurd rfl hc
          · omega
        | cons d mid =>
          obtain ⟨rfl, rfl⟩ := List.cons.inj hl
          exact ⟨mid.length, (ih hk).mpr ⟨mid, rest, rfl, rfl, (hmid mid).mp hcloses⟩, rfl⟩
    rw [closing]
    split_ifs with ha hb h1
    · subst ha
      exact hcons (Nat.le_succ_of_le hn) (Or.inl hab) fun mid => closes_open hab hn
    · subst hb
      obtain rfl : n = 1 := by omega
      constructor
      · intro hi
        obtain rfl := Option.some.inj hi
        exact ⟨[], l, rfl, rfl, (closes_nil hn).mpr rfl⟩
      · rintro ⟨mid, rest, hl, rfl, hcloses⟩
        cases mid with
        | nil => rfl
        | cons d mid =>
          obtain ⟨rfl, -⟩ := List.cons.inj hl
          exact absurd hcloses (not_closes_close hab mid)
    · subst hb
      obtain ⟨n, rfl⟩ := Nat.exists_eq_add_of_le' hn
      exact hcons (by omega) (Or.inr (by omega)) fun mid => closes_close hab (by omega)
    · exact hcons hn (Or.inl hb) fun mid => closes_other ha hb hn

/-- Where a bracket is closed. -/
theorem closing_one_iff (hab : a ≠ b) :
    closing a b 1 l = some i ↔ ∃ mid rest, l = mid ++ b :: rest ∧ mid.length = i ∧ Balanced a b mid := by
  rw [closing_iff hab (Nat.le_refl 1)]
  simp only [closes_one]

end Brackets
