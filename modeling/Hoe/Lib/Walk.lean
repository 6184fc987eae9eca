import Mathlib.Data.List.Basic

/-!
# Walks in a tree

A node of a tree is the list of the names from the root to it. A walk is a list of steps, each up to the parent or down to a child;
up from the root leads nowhere.
-/

namespace Walk

variable {α : Type*}

/-- A step of a walk. -/
inductive Step (α : Type*) where
  | up
  | down (name : α)
deriving DecidableEq, Repr

/-- Where a step leads from a node. -/
def step (xs : List α) : Step α → List α
  | .up => xs.dropLast
  | .down name => xs ++ [name]

/-- Where a walk leads from a node. -/
def resolve (xs : List α) (ss : List (Step α)) : List α := ss.foldl step xs

theorem resolve_append (xs : List α) (ss ss' : List (Step α)) : resolve xs (ss ++ ss') = resolve (resolve xs ss) ss' :=
  List.foldl_append

theorem resolve_downs (xs names : List α) : resolve xs (names.map Step.down) = xs ++ names := by
  induction names generalizing xs with
  | nil => exact (List.append_nil xs).symm
  | cons name names ih =>
    have e : resolve xs ((name :: names).map Step.down) = resolve (xs ++ [name]) (names.map Step.down) := rfl
    rw [e, ih, List.append_assoc, List.singleton_append]

/-- A walk that is shorter than the way to the root stays below the first child on it. -/
theorem head?_resolve {xs : List α} {ss : List (Step α)} (h : ss.length < xs.length) : (resolve xs ss).head? = xs.head? := by
  induction ss generalizing xs with
  | nil => rfl
  | cons s ss ih =>
    rw [List.length_cons] at h
    have hstep : ss.length < (step xs s).length ∧ (step xs s).head? = xs.head? := by
      obtain _ | ⟨x, xs⟩ := xs
      · nomatch h
      · rw [List.length_cons] at h
        cases s with
        | down name =>
          have e : step (x :: xs) (.down name) = x :: (xs ++ [name]) := rfl
          rw [e, List.length_cons, List.length_append]
          exact ⟨by omega, rfl⟩
        | up =>
          -- one name is left, at least
          obtain _ | ⟨y, xs⟩ := xs
          · rw [List.length_nil] at h
            omega
          · have e : step (x :: y :: xs) .up = x :: (y :: xs).dropLast := rfl
            rw [e, List.length_cons, List.length_dropLast]
            exact ⟨by rw [List.length_cons] at h ⊢; omega, rfl⟩
    exact (ih hstep.1).trans hstep.2

/-- The names of a walk are those it begins with and those of its steps. -/
theorem mem_resolve {xs : List α} {ss : List (Step α)} {a : α} (h : a ∈ resolve xs ss) : a ∈ xs ∨ Step.down a ∈ ss := by
  induction ss generalizing xs with
  | nil => exact .inl h
  | cons s ss ih =>
    have hih : a ∈ step xs s ∨ Step.down a ∈ ss := ih h
    rcases hih with h | h
    · cases s with
      | up => exact .inl (List.dropLast_subset _ h)
      | down name =>
        rcases List.mem_append.1 h with h | h
        · exact .inl h
        · rw [List.mem_singleton.1 h]
          exact .inr List.mem_cons_self
    · exact .inr (List.mem_cons_of_mem _ h)

end Walk
