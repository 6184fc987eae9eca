import Mathlib.Logic.Basic

/-!
# Outcomes

What holds of the result of a computation that may fail, and of its fault. A rule for each way to put computations together: the
first one may end in any way that the second one goes on from. The same for two computations that end alike.
-/

namespace Outcome

variable {ε α β : Type*} {P P' : α → Prop} {Q : β → Prop} {F F' : ε → Prop}

/-- A result has the one property, a fault has the other. -/
def Ends (P : α → Prop) (F : ε → Prop) : Except ε α → Prop
  | .ok a => P a
  | .error e => F e

/-- Weaker properties of the same end. -/
theorem Ends.mono {x : Except ε α} (h : Ends P F x) (hP : ∀ a, P a → P' a) (hF : ∀ e, F e → F' e) : Ends P' F' x := by
  cases x with
  | ok a => exact hP a h
  | error e => exact hF e h

/-- Less is said of the result. -/
theorem Ends.left {x : Except ε α} (h : Ends (fun a => P a ∧ P' a) F x) : Ends P F x := h.mono (fun _ hPP' => hPP'.1) fun _ hF => hF

/-- The result of the first computation is known where the second one begins. -/
theorem Ends.bind {x : Except ε α} {f : α → Except ε β} (h : Ends P F x) (hf : ∀ a, x = .ok a → P a → Ends Q F (f a)) :
    Ends Q F (x.bind f) := by
  cases x with
  | ok a => exact hf a rfl h
  | error e => exact h

/-- What is made of the value. -/
theorem Ends.map {x : Except ε α} {f : α → β} (h : Ends P F x) (hf : ∀ a, x = .ok a → P a → Q (f a)) : Ends Q F (x.map f) := by
  cases x with
  | ok a => exact hf a rfl h
  | error e => exact h

/-- The faults that a function can end with. -/
theorem Ends.fault {x : Except ε α} (h : Ends P F x) {e : ε} (hx : x = .error e) : F e := by
  rw [hx] at h
  exact h

/-- Nothing is said of the result. -/
theorem Ends.of_fault {x : Except ε α} (h : ∀ e, x = .error e → F e) : Ends (fun _ => True) F x := by
  cases x with
  | ok a => trivial
  | error e => exact h e rfl

/-! ## Two computations -/

/-- Both have results, which are related, or both have the same fault. -/
def Agree {α' : Type*} (R : α → α' → Prop) : Except ε α → Except ε α' → Prop
  | .ok a, .ok a' => R a a'
  | .error e, .error e' => e = e'
  | _, _ => False

section

variable {α' β' : Type*} {R : α → α' → Prop} {S : β → β' → Prop} {x : Except ε α} {x' : Except ε α'}

/-- Functions that agree, one behind the other. -/
theorem Agree.bind {f : α → Except ε β} {f' : α' → Except ε β'} (h : Agree R x x') (hf : ∀ a a', R a a' → Agree S (f a) (f' a')) :
    Agree S (x.bind f) (x'.bind f') := by
  cases x <;> cases x'
  · exact h
  · exact h.elim
  · exact h.elim
  · exact hf _ _ h

/-- What holds of the one computation holds of the other one, up to the relation. -/
theorem Agree.ends {P' : α' → Prop} (h : Agree R x x') (hP : Ends P' F x') : Ends (fun a => ∃ a', R a a' ∧ P' a') F x := by
  cases x <;> cases x'
  · exact h ▸ hP
  · exact h.elim
  · exact h.elim
  · exact ⟨_, h, hP⟩

end

end Outcome
