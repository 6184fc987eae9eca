import Hoe.Lib.Splice

/-!
# Trails of labelled steps

A trail is a first state and the steps taken from it, each with its label and the state it leads to. The oldest step comes
first, so a trail that forgets its oldest step is again a trail, from the second state on; the newest step is at the end, where
a trail grows and where it is walked back.
-/

namespace Trail

variable {σ ε : Type*}

/-- The state a trail leads to. -/
def last : σ → List (ε × σ) → σ
  | s, [] => s
  | _, (_, t) :: rest => last t rest

/-- The states in front of the steps. -/
def before : σ → List (ε × σ) → List σ
  | _, [] => []
  | s, (_, t) :: rest => s :: before t rest

/-- Every step of the trail is one the relation allows. -/
def Valid (R : σ → ε → σ → Prop) : σ → List (ε × σ) → Prop
  | _, [] => True
  | s, (e, t) :: rest => R s e t ∧ Valid R t rest

@[simp] theorem last_nil (s : σ) : last s ([] : List (ε × σ)) = s := rfl

@[simp] theorem last_cons (s : σ) (x : ε × σ) (rest : List (ε × σ)) : last s (x :: rest) = last x.2 rest := rfl

@[simp] theorem last_snoc (s : σ) (l : List (ε × σ)) (x : ε × σ) : last s (l ++ [x]) = x.2 := by
  induction l generalizing s with
  | nil => rfl
  | cons y l ih => exact ih y.2

@[simp] theorem before_nil (s : σ) : before s ([] : List (ε × σ)) = [] := rfl

@[simp] theorem length_before (s : σ) (l : List (ε × σ)) : (before s l).length = l.length := by
  induction l generalizing s with
  | nil => rfl
  | cons y l ih => simp [before, ih]

@[simp] theorem before_snoc (s : σ) (l : List (ε × σ)) (x : ε × σ) : before s (l ++ [x]) = before s l ++ [last s l] := by
  induction l generalizing s with
  | nil => rfl
  | cons y l ih => simp [before, ih]

variable {R : σ → ε → σ → Prop}

@[simp] theorem valid_nil (s : σ) : Valid R s ([] : List (ε × σ)) := trivial

/-- The first step is one, and the rest goes on from where it leads. -/
theorem valid_cons (s : σ) (x : ε × σ) (rest : List (ε × σ)) :
    Valid R s (x :: rest) ↔ R s x.1 x.2 ∧ Valid R x.2 rest := Iff.rfl

/-- The newest step of a trail starts where the steps before it lead. -/
theorem valid_snoc (s : σ) (l : List (ε × σ)) (x : ε × σ) :
    Valid R s (l ++ [x]) ↔ Valid R s l ∧ R (last s l) x.1 x.2 := by
  induction l generalizing s with
  | nil => simp [Valid]
  | cons y l ih =>
    rw [List.cons_append, valid_cons, ih, valid_cons, last_cons, and_assoc]

/-- The first steps of a trail are a trail. -/
theorem Valid.take {s : σ} {l : List (ε × σ)} (h : Valid R s l) (k : Nat) : Valid R s (l.take k) := by
  induction l generalizing s k with
  | nil => simp
  | cons y l ih =>
    cases k with
    | zero => trivial
    | succ k => exact ⟨h.1, ih h.2 k⟩

/-- The step after the first `k` starts where they lead. -/
theorem Valid.step {s : σ} {l : List (ε × σ)} (h : Valid R s l) {k : Nat} {x : ε × σ} (hx : l[k]? = some x) :
    R (last s (l.take k)) x.1 x.2 ∧ last s (l.take (k + 1)) = x.2 := by
  have htake : l.take (k + 1) = l.take k ++ [x] := by
    rw [List.take_add_one, hx]
    rfl
  have hv := h.take (k + 1)
  rw [htake, valid_snoc] at hv
  exact ⟨hv.2, by rw [htake, last_snoc]⟩

/-- A map of the states that respects the relation takes trails to trails. -/
theorem Valid.map {τ : Type*} {Q : τ → ε → τ → Prop} {f : σ → τ} (hf : ∀ s e t, R s e t → Q (f s) e (f t)) {s : σ}
    {l : List (ε × σ)} (h : Valid R s l) : Valid Q (f s) (l.map fun x => (x.1, f x.2)) := by
  induction l generalizing s with
  | nil => trivial
  | cons y l ih => exact ⟨hf _ _ _ h.1, ih h.2⟩

/-- The last state of a trail under a map. -/
theorem last_map {τ : Type*} (f : σ → τ) (s : σ) (l : List (ε × σ)) :
    last (f s) (l.map fun x => (x.1, f x.2)) = f (last s l) := by
  induction l generalizing s with
  | nil => rfl
  | cons y l ih => exact ih y.2

/-- The state in front of a step. -/
theorem getElem?_before {s : σ} {l : List (ε × σ)} {k : Nat} (hk : k < l.length) :
    (before s l)[k]? = some (last s (l.take k)) := by
  induction l generalizing s k with
  | nil => simp at hk
  | cons y l ih =>
    cases k with
    | zero => rfl
    | succ k =>
      rw [List.take_succ_cons, last_cons, ← ih (by simpa using hk)]
      rfl

end Trail
