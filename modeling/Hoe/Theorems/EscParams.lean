import Hoe.Pages
import Hoe.Theorems.Shell

/-!
# The parameters of an escape sequence

`tty_emulate` counts the parameters of a sequence beyond the three it has room for. What stores a parameter looks at the counter
first, and the loop over colors does not: it reads as many parameters as the sequence has. The counter is an `int`, and after
2^31 separators it is negative.
-/

namespace Hoe

/-- Where the bytes stand: between sequences, behind an escape, or in a sequence behind a number of separators. -/
inductive EscPhase where
  | norm
  | esc
  | csi (separators : Nat)
deriving DecidableEq, Repr

namespace EscPhase

/-- A byte further. -/
def next : EscPhase → Byte → EscPhase
  | norm, c => if c = 27 then esc else norm
  | esc, c => if c = 0x5b then csi 0 else norm
  | csi n, c => if 0x30 ≤ c ∧ c ≤ 0x39 then csi n else if c = 0x3b then csi (n + 1) else norm

/-- The counter is not negative where a digit is stored, and at most three where the loop over colors reads. -/
def Fits : EscPhase → Byte → Prop
  | csi n, c =>
    (0x30 ≤ c ∧ c ≤ 0x39 → n % 2 ^ 32 < 2 ^ 31) ∧ (c = 0x6d → (n + 1) % 2 ^ 32 ≤ maxEscParams ∨ 2 ^ 31 ≤ (n + 1) % 2 ^ 32)
  | _, _ => True

end EscPhase

/-- Each byte finds a counter that fits. -/
def SequencesFit (p : EscPhase) (bytes : List Byte) : Prop :=
  ∀ pre c, pre ++ [c] <+: bytes → (pre.foldl EscPhase.next p).Fits c

theorem sequencesFit_nil (p : EscPhase) : SequencesFit p [] := by
  intro pre c hpre
  exact absurd (List.eq_nil_of_prefix_nil hpre) (by simp)

/-- Byte by byte, from one phase to the next. -/
theorem sequencesFit_cons {p : EscPhase} {c : Byte} {cs : List Byte} :
    SequencesFit p (c :: cs) ↔ p.Fits c ∧ SequencesFit (p.next c) cs := by
  constructor
  · intro h
    refine ⟨h [] c (List.cons_prefix_cons.mpr ⟨rfl, List.nil_prefix⟩), ?_⟩
    intro pre d hpre
    exact h (c :: pre) d (List.cons_prefix_cons.mpr ⟨rfl, hpre⟩)
  · rintro ⟨hfirst, hrest⟩ pre d hpre
    cases pre with
    | nil =>
      obtain ⟨rfl, -⟩ := List.cons_prefix_cons.mp hpre
      exact hfirst
    | cons c' pre =>
      obtain ⟨rfl, htail⟩ := List.cons_prefix_cons.mp hpre
      exact hrest pre d htail

namespace ShellState

/-! ## Where the emulator stands -/

/-- The emulator stands where the bytes do. -/
def Follows (s : ShellState) : EscPhase → Prop
  | .norm => s.state = .norm
  | .esc => s.state = .esc
  | .csi n => s.state = .csi ∧ s.nbEscParams = wrapInt n

/-- Only the parser changes its state: no change of the text does so. -/
theorem state_addLines (n : Nat) (s : ShellState) : (addLines n s).state = s.state := by
  induction n generalizing s with
  | zero => rfl
  | succ n ih => exact ih _

theorem state_insertBlanks (offset : Int) (n : Nat) (s : ShellState) : (insertBlanks offset n s).state = s.state := by
  induction n generalizing s with
  | zero => rfl
  | succ n ih => exact ih _

theorem state_insertChars (n : Nat) (s : ShellState) : (insertChars n s).state = s.state := by
  induction n generalizing s with
  | zero => rfl
  | succ n ih => exact ih _

theorem state_gotoX (stack : Nat → List Byte) (x : Nat) (s : ShellState) (offset : Int) :
    (gotoX stack x s offset).state = s.state := by
  induction x generalizing s offset with
  | zero => rfl
  | succ x ih =>
    rw [gotoX]
    dsimp only
    split_ifs
    · exact state_insertBlanks offset (x + 1) _
    · exact ih _ _

/-- Nor does a move of the cursor. -/
theorem state_ttyGotoxy (stack : Nat → List Byte) (s : ShellState) (x y : Nat) : (s.ttyGotoxy stack x y).state = s.state := by
  rw [ttyGotoxy]
  dsimp only
  rw [state_gotoX]
  exact state_addLines _ _

theorem state_colors (left : Leftover) (is : List Nat) (s : ShellState) :
    (is.foldl (fun s (i : Nat) => s.ttyCsiM (s.param left i)) s).state = s.state := by
  induction is generalizing s with
  | nil => rfl
  | cons i is ih =>
    rw [List.foldl_cons, ih, ttyCsiM]
    split_ifs <;> rfl

/-- Nor does a character that is written. -/
theorem state_writeChar (stack : Nat → List Byte) (s : ShellState) (c : Nat) : (s.writeChar stack c).state = s.state := by
  rw [writeChar]
  dsimp only
  split_ifs <;> rfl

theorem state_nextLine (stack : Nat → List Byte) {n : Nat} {s s' : ShellState} {offset : Int}
    (h : nextLine stack n s offset = some s') : s'.state = s.state := by
  induction n generalizing s offset with
  | zero => exact absurd h (by simp [nextLine])
  | succ n ih =>
    rw [nextLine] at h
    dsimp only at h
    split_ifs at h with hend hc
    · obtain rfl := Option.some.inj h
      rfl
    · obtain rfl := Option.some.inj h
      rfl
    · have hrest := ih h
      exact hrest

/-- The last byte of a sequence leaves the state. -/
theorem state_csi {left : Leftover} {s s' : ShellState} {c : Nat} (h : csi left s c = some s') : s'.state = s.state := by
  unfold csi at h
  dsimp only at h
  split at h
  · obtain rfl := Option.some.inj h
    exact state_ttyGotoxy _ _ _ _
  · obtain ⟨read, -, rfl⟩ := Option.map_eq_some_iff.mp h
    rfl
  · obtain rfl := Option.some.inj h
    rfl
  · obtain rfl := Option.some.inj h
    exact state_insertChars _ _
  · obtain rfl := Option.some.inj h
    exact state_colors left _ s
  · obtain rfl := Option.some.inj h
    split_ifs <;> rfl
  · obtain rfl := Option.some.inj h
    rfl

/-- Between sequences only an escape changes the state. -/
theorem state_norm {left : Leftover} {s s' : ShellState} {c : Nat} (hs : s.state = .norm) (h : s.norm left c = some s') :
    s'.state = if c = 27 then .esc else .norm := by
  unfold norm at h
  split at h
  · generalize ebPrevc s.b.toPages s.charset (left.stack 0) s.curOffset = r at h
    obtain rfl := Option.some.inj h
    show _ = EscState.norm
    split_ifs <;> exact hs
  · exact (state_nextLine left.stack h).trans hs
  · obtain ⟨p, -, rfl⟩ := Option.map_eq_some_iff.mp h
    exact hs
  · obtain rfl := Option.some.inj h
    rfl
  · rename_i h27
    obtain rfl := Option.some.inj h
    rw [if_neg h27]
    split_ifs
    · exact (state_writeChar _ _ _).trans hs
    · exact hs

/-- The turns of the loop over the colors, as the counter wraps around. -/
theorem colorTurns_le (n : Nat) :
    (if wrapInt n = 0 then 1 else (wrapInt n).toNat) ≤ maxEscParams ↔ n % 2 ^ 32 ≤ maxEscParams ∨ 2 ^ 31 ≤ n % 2 ^ 32 := by
  have hmax : maxEscParams = 3 := rfl
  rw [wrapInt, hmax]
  split_ifs <;> constructor <;> omega

/-- The counter goes on from where it wrapped around. -/
theorem wrapInt_succ (n : Nat) : wrapInt (wrapInt n + 1) = wrapInt ((n + 1 : Nat) : Int) := by
  rw [wrapInt_add, Nat.cast_succ]

/-- A byte further, the emulator stands where the bytes do. -/
theorem Follows.next {left : Leftover} {s s' : ShellState} {p : EscPhase} (h : s.Follows p) {c : Byte}
    (hstep : s.ttyEmulate left c = some s') : s'.Follows (p.next c) := by
  obtain ⟨t, ht, rfl⟩ := Option.map_eq_some_iff.mp hstep
  have hcursor : ∀ q, t.Follows q → t.ttyUpdateCursor.Follows q := by
    intro q hq
    rw [ttyUpdateCursor]
    split_ifs
    · exact hq
    · cases q <;> exact hq
  refine hcursor _ ?_
  cases p with
  | norm =>
    rw [ttySwitch, show s.state = .norm from h] at ht
    have hstate := state_norm h ht
    rw [EscPhase.next]
    split_ifs with h27
    · exact hstate.trans (if_pos h27)
    · exact hstate.trans (if_neg h27)
  | esc =>
    rw [ttySwitch, show s.state = .esc from h] at ht
    obtain rfl := Option.some.inj ht
    rw [EscPhase.next]
    split_ifs
    · exact ⟨rfl, rfl⟩
    · rfl
  | csi n =>
    obtain ⟨hs, hn⟩ := h
    rw [ttySwitch, hs] at ht
    dsimp only at ht
    rw [EscPhase.next]
    split_ifs at ht ⊢ with hdigit hless hsep
    · obtain rfl := Option.some.inj ht
      rw [setParam]
      split_ifs <;> exact ⟨hs, hn⟩
    · obtain rfl := Option.some.inj ht
      exact ⟨hs, hn⟩
    · obtain rfl := Option.some.inj ht
      exact ⟨rfl, (congrArg (fun k => wrapInt (k + 1)) hn).trans (wrapInt_succ n)⟩
    · exact state_csi ht

/-- The indices from 0 on lie in the array as long as there are no more of them than elements. -/
theorem firstIndices_inside {n : Nat} : (∀ i ∈ firstIndices n, 0 ≤ i ∧ i < maxEscParams) ↔ n ≤ maxEscParams := by
  simp only [firstIndices, List.mem_map, List.mem_range, forall_exists_index, and_imp, forall_apply_eq_imp_iff₂]
  constructor
  · intro hall
    by_contra hlt
    have hlast := (hall maxEscParams (Nat.not_le.mp hlt)).2
    exact absurd hlast (Int.lt_irrefl _)
  · intro hle i hi
    exact ⟨Int.natCast_nonneg i, Int.ofNat_lt.mpr (Nat.lt_of_lt_of_le hi hle)⟩

/-- A byte accesses the parameters at indices of the array exactly when it finds a counter that fits. -/
theorem Follows.inside_iff {s : ShellState} {p : EscPhase} (h : s.Follows p) (c : Byte) :
    (∀ i ∈ s.escIndices c, 0 ≤ i ∧ i < maxEscParams) ↔ p.Fits c := by
  cases p with
  | norm =>
    rw [escIndices, show s.state = .norm from h]
    exact iff_of_true (by simp) trivial
  | esc =>
    rw [escIndices, show s.state = .esc from h]
    refine iff_of_true ?_ trivial
    dsimp only
    split_ifs
    · exact firstIndices_inside.mpr (Nat.le_refl _)
    · simp
  | csi n =>
    obtain ⟨hs, hn⟩ := h
    have hm : 0x30 ≤ c ∧ c ≤ 0x39 → c ≠ 0x6d := by
      rintro hdigit rfl
      exact absurd hdigit.2 (by decide)
    rw [escIndices, hs, EscPhase.Fits]
    dsimp only
    split_ifs with hdigit hless
    · -- a digit is stored
      rw [List.forall_mem_singleton, hn, wrapInt_nonneg_iff]
      refine ⟨fun h => ⟨fun _ => h.1, fun hc => absurd hc (hm hdigit)⟩, fun h => ⟨h.1 hdigit, hn ▸ hless⟩⟩
    · -- a digit is passed over
      refine iff_of_true (by simp) ⟨fun _ => (wrapInt_nonneg_iff n).mp ?_, fun hc => absurd hc (hm hdigit)⟩
      rw [hn, not_lt] at hless
      exact (Int.natCast_nonneg _).trans hless
    · -- the last byte, or a separator
      have hno : (0x30 ≤ c ∧ c ≤ 0x39 → n % 2 ^ 32 < 2 ^ 31) := fun h => absurd h hdigit
      split
      · exact iff_of_true (by decide) ⟨hno, fun h => absurd h (by decide)⟩
      · exact iff_of_true (by decide) ⟨hno, fun h => absurd h (by decide)⟩
      · exact iff_of_true (by decide) ⟨hno, fun h => absurd h (by decide)⟩
      · exact iff_of_true (by decide) ⟨hno, fun h => absurd h (by decide)⟩
      · have hcount : wrapInt (s.nbEscParams + 1) = wrapInt ((n + 1 : Nat) : Int) := by
          rw [hn]
          exact wrapInt_succ n
        rw [firstIndices_inside, colorTurns, hcount, colorTurns_le]
        exact ⟨fun h => ⟨hno, fun _ => h⟩, fun h => h.2 rfl⟩
      · rename_i h6d
        exact iff_of_true (by simp) ⟨hno, fun h => absurd h h6d⟩

/-! ## All bytes -/

/-- Where each byte finds a counter that fits, no access leaves the array. -/
theorem inside_of_fit {left : Nat → Leftover} {s : ShellState} {p : EscPhase} (h : s.Follows p) {bytes : List Byte}
    (hfit : SequencesFit p bytes) : ∀ i ∈ allEscIndices left s bytes, 0 ≤ i ∧ i < maxEscParams := by
  induction bytes generalizing s p with
  | nil => exact fun i hi => absurd hi (by simp [allEscIndices])
  | cons c cs ih =>
    obtain ⟨hfirst, hrest⟩ := sequencesFit_cons.mp hfit
    rw [allEscIndices, List.forall_mem_append]
    refine ⟨(h.inside_iff c).mpr hfirst, ?_⟩
    cases hstep : s.ttyEmulate (left cs.length) c with
    | none => simp
    | some s' => exact ih (h.next hstep) hrest

/-- In a buffer that every loop ends in, an access of each byte is among the accesses. -/
theorem fit_of_inside {left : Nat → Leftover} {s : ShellState} {p : EscPhase} (hsafe : s.Safe) (h : s.Follows p)
    {bytes : List Byte} (hin : ∀ i ∈ allEscIndices left s bytes, 0 ≤ i ∧ i < maxEscParams) : SequencesFit p bytes := by
  induction bytes generalizing s p with
  | nil => exact sequencesFit_nil p
  | cons c cs ih =>
    obtain ⟨s', hstep, hsafe'⟩ := hsafe.ttyEmulate (left cs.length) c
    rw [allEscIndices, hstep, List.forall_mem_append] at hin
    exact sequencesFit_cons.mpr ⟨(h.inside_iff c).mp hin.1, ih hsafe' (h.next hstep) hin.2⟩

/-- From `tty_init` on, in any buffer, the accesses to the parameters stay in the array when no sequence of colors has more than
three parameters, and no digit follows 2^31 separators. In a buffer whose charset has single bytes they stay there only then. -/
theorem escParams_inside (s : ShellState) (left : Nat → Leftover) (bytes : List Byte) :
    (SequencesFit .norm bytes → ∀ i ∈ allEscIndices left s.ttyInit bytes, 0 ≤ i ∧ i < maxEscParams) ∧
      (s.Fresh → ((∀ i ∈ allEscIndices left s.ttyInit bytes, 0 ≤ i ∧ i < maxEscParams) ↔ SequencesFit .norm bytes)) := by
  have hstart : s.ttyInit.Follows .norm := rfl
  exact ⟨inside_of_fit hstart, fun h => ⟨fit_of_inside h.safe hstart, inside_of_fit hstart⟩⟩

/-- A shell that was just opened, on some output. -/
theorem escParams_inside_newShell :
    (∀ i ∈ allEscIndices (fun _ => ⟨fun _ => [], fun _ => 0⟩) newShell.ttyInit someOutput, 0 ≤ i ∧ i < maxEscParams) ↔
      SequencesFit .norm someOutput :=
  (escParams_inside newShell (fun _ => ⟨fun _ => [], fun _ => 0⟩) someOutput).2 newShell_fresh

/-- A sequence with four parameters sets colors from the memory behind the three. -/
theorem not_escParamsInside :
    ¬ ∀ s : ShellState, s.Fresh → ∀ left bytes, ∀ i ∈ allEscIndices left s.ttyInit bytes, 0 ≤ i ∧ i < maxEscParams := by
  intro h
  have hread : allEscIndices (fun _ => ⟨fun _ => [], fun _ => 0⟩) newShell.ttyInit ([27] ++ cstr "[0;1;31;40m") =
      [0, 1, 2, 0, 1, 2, 2, 0, 1, 2, 3] := by decide +kernel
  have hin := h newShell newShell_fresh _ _ 3 (hread ▸ (by decide : (3 : Int) ∈ [0, 1, 2, 0, 1, 2, 2, 0, 1, 2, 3]))
  exact absurd hin.2 (by decide)

end ShellState

end Hoe
