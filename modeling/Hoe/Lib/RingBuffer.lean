import Mathlib.Tactic.Common
import Mathlib.Data.List.Basic

/-!
# A ring of slots

A ring has `n` slots, one of them the current one. A push goes one slot on and puts its value there; going back goes the other way
round and leaves the slots alone. `Holds` says what the slots hold after a number of pushes into a ring without values: the slots
behind the newest one, in order, hold the values from the newest one on, and the slots that no push has reached hold none.
-/

namespace RingBuffer

variable {α β : Type*}

/-- One slot on. -/
def next (n i : Nat) : Nat := if i + 1 = n then 0 else i + 1

/-- One slot back. -/
def prev (n i : Nat) : Nat := if i = 0 then n - 1 else i - 1

/-- The slot that lies `j` slots behind the slot `i`, for `j ≤ n`. -/
def back (n i j : Nat) : Nat := if j ≤ i then i - j else i + n - j

variable {n i j k : Nat}

theorem next_lt (hi : i < n) : next n i < n := by
  simp only [next]
  split <;> omega

theorem back_lt (hi : i < n) (hj : j < n) : back n i j < n := by
  unfold back
  split <;> omega

@[simp] theorem back_zero (n i : Nat) : back n i 0 = i := by simp [back]

/-- The slot that lies furthest behind is the next one. -/
theorem back_last (hi : i < n) : back n i (n - 1) = next n i := by
  unfold back next
  split <;> split <;> omega

/-- Behind the next slot lies the slot, and so on. -/
theorem back_next (hj : j + 1 < n) : back n (next n i) (j + 1) = back n i j := by
  unfold back next
  split <;> split <;> split <;> omega

theorem back_inj (hj : j < n) (hk : k < n) (h : back n i j = back n i k) : j = k := by
  unfold back at h
  split at h <;> split at h <;> omega

/-- One slot back, again and again, goes round. -/
theorem prev_back (hi : i < n) (j : Nat) : prev n (back n i (j % n)) = back n i ((j + 1) % n) := by
  have hlt : j % n < n := Nat.mod_lt j (by omega)
  unfold prev back
  by_cases h : j % n + 1 = n
  · rw [← Nat.mod_add_mod, h, Nat.mod_self, if_pos (Nat.zero_le i)]
    split <;> split <;> omega
  · rw [← Nat.mod_add_mod, Nat.mod_eq_of_lt (a := j % n + 1) (by omega)]
    split <;> split <;> split <;> omega

/-- The slot `i` is the last one that a push has reached, and `xs` are the values pushed, newest first. -/
structure Holds (R : α → Option β → Prop) (n : Nat) (slots : List α) (i : Nat) (xs : List β) : Prop where
  length : slots.length = n
  lt : i < n
  slot : ∀ j < n, ∃ a, slots[back n i j]? = some a ∧ R a xs[j]?

variable {R : α → Option β → Prop} {slots : List α} {xs : List β} {a : α} {x : β}

/-- A ring without values. -/
theorem Holds.empty (ha : R a none) (hi : i < n) : Holds R n (List.replicate n a) i [] := by
  refine ⟨List.length_replicate, hi, fun j hj => ⟨a, ?_, by simpa using ha⟩⟩
  rw [List.getElem?_replicate, if_pos (back_lt hi hj)]

/-- A push. -/
theorem Holds.push (h : Holds R n slots i xs) (ha : R a (some x)) :
    Holds R n (slots.set (next n i) a) (next n i) (x :: xs) := by
  have hnext := next_lt h.lt
  refine ⟨by rw [List.length_set, h.length], hnext, ?_⟩
  intro j hj
  cases j with
  | zero =>
    refine ⟨a, ?_, ha⟩
    rw [back_zero, List.getElem?_set_self (by rw [h.length]; exact hnext)]
  | succ j =>
    obtain ⟨b, hb, hR⟩ := h.slot j (by omega)
    have hne : next n i ≠ back n i j := by
      intro heq
      rw [← back_next hj] at heq
      have := back_inj (by omega) hj ((back_zero n (next n i)).trans heq)
      omega
    refine ⟨b, ?_, hR⟩
    rw [back_next hj, List.getElem?_set_ne hne, hb]

/-- A slot is replaced by one with the same value. -/
theorem Holds.replace (h : Holds R n slots i xs) (hj : j < n) (ha : R a xs[j]?) :
    Holds R n (slots.set (back n i j) a) i xs := by
  refine ⟨by rw [List.length_set, h.length], h.lt, ?_⟩
  intro k hk
  by_cases hjk : j = k
  · subst hjk
    exact ⟨a, List.getElem?_set_self (by rw [h.length]; exact back_lt h.lt hj), ha⟩
  · obtain ⟨b, hb, hR⟩ := h.slot k hk
    exact ⟨b, by rw [List.getElem?_set_ne fun heq => hjk (back_inj hj hk heq), hb], hR⟩

end RingBuffer
