import Mathlib.Data.List.Basic

/-!
# Scanners

A scanner goes through the cells from a place on and says what it finds and where it stands then, or fails; `past` is the error of a
cell that is not there. A local scanner that does not read past its cells does not depend on the cells behind them, and locality is
kept by everything that scanners are put together with.
-/

/-- A scanner of cells. -/
abbrev Scanner (α ε : Type) := StateT (List α) (Except ε)

namespace Scanner

variable {α ε β γ : Type} (past : ε)

/-- The cell that is so many cells further. -/
def peekAt (n : Nat) : Scanner α ε α := fun m =>
  match m[n]? with
  | some c => .ok (c, m)
  | none => .error past

/-- So many cells further. -/
def advance (n : Nat) : Scanner α ε Unit := fun m => if n ≤ m.length then .ok ((), m.drop n) else .error past

/-- Behind a cell that has to be `c`. -/
def expect [DecidableEq α] (other : ε) (c : α) : Scanner α ε Unit := fun m =>
  match m with
  | [] => .error past
  | d :: cells => if d = c then .ok ((), cells) else .error other

/-- Behind a cell if it is `c`. -/
def skipIf [DecidableEq α] (c : α) : Scanner α ε Unit := fun m =>
  match m with
  | [] => .error past
  | d :: cells => .ok ((), if d = c then cells else d :: cells)

/-- The cells in front of the first one that `more` is false for. -/
def spanWhile (more : α → Bool) : Scanner α ε (List α)
  | [] => .error past
  | c :: cells => if more c then (spanWhile more cells).map fun r => (c :: r.1, r.2) else .ok ([], c :: cells)

/-- Back to where it began, when nothing is found. -/
def attempt (f : Scanner α ε (Option β)) : Scanner α ε (Option β) := fun m =>
  match f m with
  | .ok (none, _) => .ok (none, m)
  | r => r

/-! ## What a scanner that is put together comes to -/

variable {past} {f : Scanner α ε β} {g : β → Scanner α ε γ} {m : List α}

/-- Two scanners in a row succeed when both do. -/
theorem bind_eq_ok {r : γ × List α} : (f >>= g) m = .ok r ↔ ∃ b m', f m = .ok (b, m') ∧ g b m' = .ok r := by
  change Except.bind (f m) _ = _ ↔ _
  cases f m with
  | error e => simp [Except.bind]
  | ok p => exact ⟨fun h => ⟨p.1, p.2, rfl, h⟩, fun ⟨b, m', hp, h⟩ => by cases hp; exact h⟩

/-- They fail when one of them does. -/
theorem bind_eq_error {e : ε} : (f >>= g) m = .error e ↔ f m = .error e ∨ ∃ b m', f m = .ok (b, m') ∧ g b m' = .error e := by
  change Except.bind (f m) _ = _ ↔ _
  cases f m with
  | error e' => simp [Except.bind]
  | ok p =>
    constructor
    · exact fun h => .inr ⟨p.1, p.2, rfl, h⟩
    · rintro (h | ⟨b, m', hp, h⟩)
      · nomatch h
      · cases hp
        exact h

theorem bind_of_ok {b : β} {m' : List α} (h : f m = .ok (b, m')) : (f >>= g) m = g b m' := by
  change Except.bind (f m) _ = _
  rw [h]
  rfl

/-! ## What the scanners find -/

/-- Looking ahead takes nothing. -/
theorem peekAt_eq_ok {n : Nat} {c : α} {m' : List α} : peekAt past n m = .ok (c, m') ↔ m[n]? = some c ∧ m' = m := by
  unfold peekAt
  cases m[n]? <;> simp [eq_comm]

theorem peekAt_eq_error {n : Nat} {e : ε} : peekAt past n m = .error e ↔ m[n]? = none ∧ e = past := by
  unfold peekAt
  cases m[n]? <;> simp [eq_comm]

section

variable [DecidableEq α] {other : ε} {c : α}

/-- The element that is expected is taken. -/
theorem expect_eq_ok {r : Unit × List α} : expect past other c m = .ok r ↔ m = c :: r.2 := by
  unfold expect
  cases m with
  | nil => simp
  | cons d cells =>
    dsimp only
    split_ifs with h
    · rw [h, Except.ok.injEq, List.cons.injEq]
      exact ⟨fun hr => ⟨rfl, congrArg Prod.snd hr⟩, fun hr => Prod.ext rfl hr.2⟩
    · simp [h]

end

/-- What belongs to the span is taken with it. -/
theorem spanWhile_append {more : α → Bool} {s : List α} (hs : ∀ d ∈ s, more d = true) (m : List α) :
    spanWhile past more (s ++ m) = (spanWhile past more m).map fun r => (s ++ r.1, r.2) := by
  induction s with
  | nil =>
    rw [List.nil_append]
    cases spanWhile past more m <;> rfl
  | cons c s ih =>
    obtain ⟨hc, hs⟩ := List.forall_mem_cons.1 hs
    rw [List.cons_append, spanWhile, if_pos hc, ih hs]
    cases spanWhile past more m <;> rfl

/-- A scanner that does not look at what was passed. -/
theorem spanWhile_bind_append {more : α → Bool} {s : List α} (hs : ∀ d ∈ s, more d = true) (f : Scanner α ε β) (m : List α) :
    (spanWhile past more >>= fun _ => f) (s ++ m) = (spanWhile past more >>= fun _ => f) m := by
  change Except.bind (spanWhile past more (s ++ m)) _ = Except.bind (spanWhile past more m) _
  rw [spanWhile_append hs]
  cases spanWhile past more m <;> rfl

/-- The span is all that belongs to it, up to an element that does not. -/
theorem spanWhile_eq_ok {more : α → Bool} {s m' : List α} :
    spanWhile past more m = .ok (s, m') ↔ m = s ++ m' ∧ (∀ d ∈ s, more d = true) ∧ ∃ c cells, m' = c :: cells ∧ more c = false := by
  induction m generalizing s with
  | nil =>
    simp only [spanWhile, reduceCtorEq, false_iff]
    rintro ⟨hm, -, c, cells, rfl, -⟩
    simp at hm
  | cons c cells ih =>
    unfold spanWhile
    split_ifs with hc
    · constructor
      · intro h
        cases hspan : spanWhile past more cells with
        | error e => simp [hspan, Except.map] at h
        | ok r =>
          simp only [hspan, Except.map, Except.ok.injEq, Prod.mk.injEq] at h
          obtain ⟨rfl, rfl⟩ := h
          obtain ⟨hcells, hmore, hstop⟩ := ih.1 hspan
          exact ⟨congrArg (c :: ·) hcells, List.forall_mem_cons.2 ⟨hc, hmore⟩, hstop⟩
      · rintro ⟨hm, hmore, hstop⟩
        cases s with
        | nil =>
          obtain ⟨d, cells', rfl, hd⟩ := hstop
          cases hm
          rw [hc] at hd
          nomatch hd
        | cons d s =>
          cases hm
          rw [ih.2 ⟨rfl, (List.forall_mem_cons.1 hmore).2, hstop⟩]
          rfl
    · constructor
      · intro h
        cases h
        exact ⟨rfl, by simp, c, cells, rfl, Bool.not_eq_true _ ▸ hc⟩
      · rintro ⟨hm, hmore, -⟩
        cases s with
        | nil =>
          rw [hm]
          rfl
        | cons d s =>
          cases hm
          exact absurd ((List.forall_mem_cons.1 hmore).1) hc

/-- It fails where nothing ends it. -/
theorem spanWhile_eq_error {more : α → Bool} {e : ε} : spanWhile past more m = .error e ↔ (∀ d ∈ m, more d = true) ∧ e = past := by
  induction m with
  | nil => exact ⟨fun h => ⟨by simp, (Except.error.inj h).symm⟩, fun h => congrArg Except.error h.2.symm⟩
  | cons c cells ih =>
    unfold spanWhile
    split_ifs with hc
    · rw [List.forall_mem_cons, and_iff_right hc, ← ih]
      cases spanWhile past more cells <;> simp [Except.map]
    · simp [hc]

/-! ## Sentinels -/

/-- A scanner that does not fail in front of a sentinel, and stays in front of it. -/
def Spares (z : α) (f : Scanner α ε β) : Prop := ∀ m, z ∈ m → ∃ b m', f m = .ok (b, m') ∧ z ∈ m'

variable {z : α}

theorem spares_pure (b : β) : Spares z (pure b : Scanner α ε β) := fun m hm => ⟨b, m, rfl, hm⟩

/-- A scanner in a row of two spares the element if both do. -/
theorem Spares.bind (hf : Spares z f) (hg : ∀ b, Spares z (g b)) : Spares z (f >>= g) := by
  intro m hm
  obtain ⟨b, m', hfm, hm'⟩ := hf m hm
  obtain ⟨b', m'', hgm, hm''⟩ := hg b m' hm'
  exact ⟨b', m'', (bind_of_ok hfm).trans hgm, hm''⟩

/-- A span spares an element that does not belong to it. -/
theorem spares_spanWhile {more : α → Bool} (hz : more z = false) : Spares z (spanWhile past more) := by
  intro m hm
  cases hspan : spanWhile past more m with
  | error e =>
    rw [(spanWhile_eq_error.1 hspan).1 z hm] at hz
    nomatch hz
  | ok r =>
    obtain ⟨hr, hmore, -⟩ := spanWhile_eq_ok.1 hspan
    refine ⟨r.1, r.2, rfl, ?_⟩
    rw [hr, List.mem_append] at hm
    refine hm.resolve_left fun h => ?_
    rw [hmore z h] at hz
    nomatch hz

/-- What is left in front of a sentinel at the end, when something is left. -/
theorem append_sentinel {l text : List α} (h : l ++ [z] = text ++ m) (hm : m ≠ []) : ∃ l', m = l' ++ [z] ∧ l = text ++ l' := by
  rcases List.append_eq_append_iff.1 h with ⟨l', rfl, hz⟩ | ⟨l', rfl, hm'⟩
  · cases l' with
    | nil => exact ⟨[], by simpa using hz.symm, by simp⟩
    | cons c l' =>
      obtain ⟨-, hl'⟩ := List.append_eq_nil_iff.1 (List.cons.inj hz).2.symm
      exact absurd hl' hm
  · exact ⟨l', hm', rfl⟩

/-! ## Locality -/

/-- A scanner that does not read past its cells comes to the same with more cells behind them. -/
def Local (past : ε) (f : Scanner α ε β) : Prop :=
  ∀ m rest, f m ≠ .error past → f (m ++ rest) = (f m).map fun r => (r.1, r.2 ++ rest)

theorem local_pure (b : β) : Local past (pure b : Scanner α ε β) := fun _ _ _ => rfl

theorem local_throw (e : ε) : Local past (throw e : Scanner α ε β) := fun _ _ _ => rfl

/-- Two scanners in a row look no further than each of them. -/
theorem Local.bind (hf : Local past f) (hg : ∀ b, Local past (g b)) : Local past (f >>= g) := by
  intro m rest h
  cases hfm : f m with
  | error e =>
    have hpast : e ≠ past := by
      rintro rfl
      exact h (bind_eq_error.2 (.inl hfm))
    have hmore := hf m rest (by simp [hfm, hpast])
    rw [hfm] at hmore
    rw [bind_eq_error.2 (.inl hfm), bind_eq_error.2 (.inl hmore)]
    rfl
  | ok r =>
    have hmore := hf m rest (by simp [hfm])
    rw [hfm] at hmore
    rw [bind_of_ok hfm] at h ⊢
    rw [bind_of_ok hmore]
    exact hg r.1 r.2 rest h

/-- So does a choice of two. -/
theorem Local.ite {c : Prop} [Decidable c] {f' : Scanner α ε β} (hf : c → Local past f) (hf' : ¬ c → Local past f') :
    Local past (if c then f else f') := by
  split_ifs with h
  · exact hf h
  · exact hf' h

/-- Looking ahead is looking no further than there. -/
theorem local_peekAt (n : Nat) : Local past (peekAt past n : Scanner α ε α) := by
  intro m rest h
  cases hn : m[n]? with
  | none => exact absurd (peekAt_eq_error.2 ⟨hn, rfl⟩) h
  | some c =>
    have hlt := (List.getElem?_eq_some_iff.1 hn).1
    have hmore : (m ++ rest)[n]? = some c := (List.getElem?_append_left hlt).trans hn
    rw [peekAt_eq_ok.2 ⟨hn, rfl⟩, peekAt_eq_ok.2 ⟨hmore, rfl⟩]
    rfl

theorem local_advance (n : Nat) : Local past (advance past n : Scanner α ε Unit) := by
  intro m rest h
  unfold advance at h ⊢
  by_cases hn : n ≤ m.length
  · have hmore : n ≤ (m ++ rest).length := by
      rw [List.length_append]
      omega
    rw [if_pos hn, if_pos hmore, List.drop_append_of_le_length hn]
    rfl
  · rw [if_neg hn] at h
    exact absurd rfl h

theorem local_expect [DecidableEq α] (other : ε) (c : α) : Local past (expect past other c : Scanner α ε Unit) := by
  intro m rest h
  cases m with
  | nil => exact absurd rfl h
  | cons d cells =>
    simp only [expect, List.cons_append]
    split_ifs <;> rfl

theorem local_skipIf [DecidableEq α] (c : α) : Local past (skipIf past c : Scanner α ε Unit) := by
  intro m rest h
  cases m with
  | nil => exact absurd rfl h
  | cons d cells =>
    simp only [skipIf, List.cons_append]
    split_ifs <;> rfl

/-- A span ends where an element is seen that does not belong to it. -/
theorem local_spanWhile (more : α → Bool) : Local past (spanWhile past more) := by
  intro m rest h
  cases hspan : spanWhile past more m with
  | error e =>
    rw [(spanWhile_eq_error.1 hspan).2] at hspan
    exact absurd hspan h
  | ok r =>
    obtain ⟨hm, hmore, c, cells, hr, hc⟩ := spanWhile_eq_ok.1 hspan
    refine spanWhile_eq_ok.2 ⟨?_, hmore, c, cells ++ rest, ?_, hc⟩
    · rw [hm, List.append_assoc]
    · rw [hr, List.cons_append]

/-- To try a scanner is to look no further. -/
theorem Local.attempt {f : Scanner α ε (Option β)} (hf : Local past f) : Local past (attempt f) := by
  intro m rest h
  cases hfm : f m with
  | error e =>
    have hpast : e ≠ past := by
      rintro rfl
      exact h (by simp [Scanner.attempt, hfm])
    have hmore := hf m rest (by simp [hfm, hpast])
    simp [Scanner.attempt, hfm, hmore, Except.map]
  | ok r =>
    have hmore := hf m rest (by simp [hfm])
    obtain ⟨_ | b, m'⟩ := r <;> simp [Scanner.attempt, hfm, hmore, Except.map]

/-- What a local scanner finds does not depend on the cells behind those that it needs. -/
theorem Local.found (hf : Local past f) (h : f m ≠ .error past) (rest : List α) :
    (f (m ++ rest)).map Prod.fst = (f m).map Prod.fst := by
  rw [hf m rest h]
  cases f m <;> rfl

end Scanner
