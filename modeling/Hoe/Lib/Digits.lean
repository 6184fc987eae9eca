import Mathlib.Algebra.Order.Group.Nat
import Mathlib.Tactic.Ring

/-!
# Digits of a fixed width

The `n` digits of a number in a base, most significant first, and the number that digits behind a number stand for. The two are
inverse to each other.
-/

namespace Digits

variable {b : Nat}

/-- The `n` lowest digits of a number, most significant first. -/
def digits (b : Nat) : Nat → Nat → List Nat
  | 0, _ => []
  | n + 1, c => c / b ^ n % b :: digits b n c

/-- The number that begins with `c` and goes on with the digits. -/
def value (b : Nat) : Nat → List Nat → Nat
  | c, [] => c
  | c, d :: ds => value b (c * b + d) ds

/-- The number that decimal digits stand for, which are given as characters. -/
def decimal (s : List Nat) : Nat := value 10 0 (s.map (· - '0'.toNat))

@[simp] theorem length_digits (n c : Nat) : (digits b n c).length = n := by
  induction n with
  | zero => rfl
  | succ n ih => rw [digits, List.length_cons, ih]

theorem digits_lt (hb : 0 < b) {n c d : Nat} (h : d ∈ digits b n c) : d < b := by
  induction n with
  | zero => cases h
  | succ n ih =>
    rcases List.mem_cons.mp h with rfl | h
    · exact Nat.mod_lt _ hb
    · exact ih h

theorem value_append (c : Nat) (ds es : List Nat) : value b c (ds ++ es) = value b (value b c ds) es := by
  induction ds generalizing c with
  | nil => rfl
  | cons d ds ih => rw [List.cons_append, value, value, ih]

/-- A number comes back from what is in front of its digits and the digits. -/
theorem value_digits (n c : Nat) : value b (c / b ^ n) (digits b n c) = c := by
  induction n with
  | zero => simp [digits, value]
  | succ n ih =>
    have hc : c / b ^ (n + 1) * b + c / b ^ n % b = c / b ^ n := by
      rw [Nat.pow_succ, ← Nat.div_div_eq_div_mul]
      exact Nat.div_add_mod' _ _
    rw [digits, value, hc, ih]

/-- What the digits stand for begins with the number they stand behind. -/
theorem value_div {ds : List Nat} (h : ∀ d ∈ ds, d < b) (c : Nat) : value b c ds / b ^ ds.length = c := by
  induction ds generalizing c with
  | nil => simp [value]
  | cons d ds ih =>
    obtain ⟨hd, hds⟩ := List.forall_mem_cons.mp h
    have hpos : 0 < b := by omega
    rw [value, List.length_cons, Nat.pow_succ, ← Nat.div_div_eq_div_mul, ih hds, Nat.mul_comm c b,
      Nat.mul_add_div hpos, Nat.div_eq_of_lt hd, Nat.add_zero]

/-- Digits come back from the number they stand for. -/
theorem digits_value {ds : List Nat} (h : ∀ d ∈ ds, d < b) (c : Nat) : digits b ds.length (value b c ds) = ds := by
  induction ds generalizing c with
  | nil => rfl
  | cons d ds ih =>
    obtain ⟨hd, hds⟩ := List.forall_mem_cons.mp h
    rw [List.length_cons, digits, value, ih hds, value_div hds, Nat.mul_comm c b, Nat.mul_add_mod, Nat.mod_eq_of_lt hd]

/-- The numbers that begin with `c`. -/
theorem value_bounds {ds : List Nat} (h : ∀ d ∈ ds, d < b) (c : Nat) :
    c * b ^ ds.length ≤ value b c ds ∧ value b c ds < (c + 1) * b ^ ds.length := by
  induction ds generalizing c with
  | nil => simp [value]
  | cons d ds ih =>
    obtain ⟨hd, hds⟩ := List.forall_mem_cons.mp h
    obtain ⟨h1, h2⟩ := ih hds (c * b + d)
    rw [value, List.length_cons, Nat.pow_succ]
    constructor
    · calc c * (b ^ ds.length * b) = (c * b) * b ^ ds.length := by ring
        _ ≤ (c * b + d) * b ^ ds.length := Nat.mul_le_mul_right _ (by omega)
        _ ≤ value b (c * b + d) ds := h1
    · calc value b (c * b + d) ds < (c * b + d + 1) * b ^ ds.length := h2
        _ ≤ ((c + 1) * b) * b ^ ds.length := Nat.mul_le_mul_right _ (by rw [Nat.add_mul]; omega)
        _ = (c + 1) * (b ^ ds.length * b) := by ring

end Digits
