import Mathlib.Data.List.Basic
import Mathlib.Data.List.Infix

/-!
# Common prefixes

What lists begin with in common, and the longest list that they begin with. Lists that have the same elements up to a place, and
differ there or end, have just these elements in common.
-/

namespace CommonPrefix

variable {α : Type*} {p q l : List α} {ls : List (List α)} {a b n : Nat}

/-- All the lists begin with one. -/
def Begin (p : List α) (ls : List (List α)) : Prop := ∀ l ∈ ls, p <+: l

/-- The longest list that all of them begin with. -/
structure Longest (p : List α) (ls : List (List α)) : Prop where
  begin : Begin p ls
  longest : ∀ q, Begin q ls → q <+: p

/-- The lists have the same elements at the places from one up to another. -/
def Agree (ls : List (List α)) (a b : Nat) : Prop := ∀ i, a ≤ i → i < b → ∃ c, ∀ l ∈ ls, l[i]? = some c

theorem Longest.unique (hp : Longest p ls) (hq : Longest q ls) : p = q :=
  (hq.longest p hp.begin).eq_of_length_le (hp.longest q hq.begin).length_le

theorem Agree.mono (h : Agree ls a n) (hb : b ≤ n) : Agree ls a b := fun i hai hib => h i hai (Nat.lt_of_lt_of_le hib hb)

theorem agree_self (ls : List (List α)) (a : Nat) : Agree ls a a := fun _ hai hia => absurd hai (Nat.not_le.2 hia)

theorem Agree.trans (h : Agree ls a b) (h' : Agree ls b n) : Agree ls a n := by
  intro i hai hin
  rcases Nat.lt_or_ge i b with hib | hbi
  · exact h i hai hib
  · exact h' i hbi hin

/-- One place more. -/
theorem Agree.snoc (h : Agree ls a n) (hn : ∃ c, ∀ l ∈ ls, l[n]? = some c) : Agree ls a (n + 1) := by
  intro i hai hin
  rcases Nat.lt_or_ge i n with hlt | hge
  · exact h i hai hlt
  · obtain rfl : i = n := Nat.le_antisymm (Nat.le_of_lt_succ hin) hge
    exact hn

/-- The lists reach behind the places where they agree. -/
theorem Agree.length_le (h : Agree ls a n) (han : a < n) (hl : l ∈ ls) : n ≤ l.length := by
  obtain ⟨c, hc⟩ := h (n - 1) (Nat.le_sub_one_of_lt han) (by omega)
  have := (List.getElem?_eq_some_iff.1 (hc l hl)).1
  omega

/-- A list that all of them begin with is one that they agree on. -/
theorem Begin.agree (h : Begin p ls) : Agree ls 0 p.length := by
  intro i _ hi
  refine ⟨p[i], fun l hl => ?_⟩
  obtain ⟨t, rfl⟩ := h l hl
  rw [List.getElem?_append_left hi, List.getElem?_eq_getElem hi]

/-- The elements that they agree on are a list that all of them begin with. -/
theorem Agree.begin (h : Agree ls 0 n) (hl : l ∈ ls) : Begin (l.take n) ls := by
  intro l' hl'
  refine List.prefix_iff_eq_take.2 (List.ext_getElem? fun i => ?_)
  rw [List.getElem?_take, List.getElem?_take, List.length_take]
  by_cases hi : i < n
  · obtain ⟨c, hc⟩ := h i (Nat.zero_le i) hi
    have hil := (List.getElem?_eq_some_iff.1 (hc l hl)).1
    rw [if_pos hi, if_pos (by omega), hc l hl, hc l' hl']
  · rw [if_neg hi, if_neg (by omega)]

/-- Where they do not agree any more, nothing longer is in common. -/
theorem Agree.longest (h : Agree ls 0 n) (hl : l ∈ ls) (hstop : ¬ ∃ c, ∀ l ∈ ls, l[n]? = some c) : Longest (l.take n) ls := by
  refine ⟨h.begin hl, fun q hq => ?_⟩
  have hlen : q.length ≤ n := by
    by_contra hlt
    exact hstop (hq.agree n (Nat.zero_le n) (by omega))
  exact List.prefix_take_iff.2 ⟨hq l hl, hlen⟩

end CommonPrefix
