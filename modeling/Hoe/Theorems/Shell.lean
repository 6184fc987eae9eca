import Hoe.Keys
import Hoe.Lemmas.Shell

/-!
# The cursor of the terminal emulator stays in the buffer

Whatever bytes a process writes, in a buffer whose charset has single bytes: every loop of the emulator ends, the cursor stays
in the buffer, every edit is in range, and the buffer of colors keeps one color for each byte. The parameters of an escape
sequence may be missing, zero, negative or as large as an `int` can be.
-/

namespace Hoe

namespace ShellState

/-- `total_size` is an `int`. -/
def totalSize (s : ShellState) : Int := wrapInt s.b.totalSize

/-- The size of the largest buffer that `total_size` can count. -/
def intMax : Nat := 0x7fffffff

/-- A shell buffer that nothing was fed to: any text, in a charset of single bytes, with a color for each byte. -/
structure Fresh (s : ShellState) : Prop where
  wf : s.b.WellFormed
  lines : s.b.toPages.LinesCounted
  single : s.charset ≠ .utf8
  colors : ∀ t, s.bColor = some t → t.Ok ∧ t.totalSize = s.b.totalSize
  calls : s.calls = []
  size : s.b.totalSize ≤ intMax

theorem Fresh.safe {s : ShellState} (h : s.Fresh) : s.ttyInit.Safe :=
  ⟨h.wf, h.lines, h.single, ⟨Int.le_refl 0, Int.natCast_nonneg _⟩, h.colors, fun _ hc => nomatch h.calls ▸ hc⟩

theorem Safe.ttySwitch {s : ShellState} (h : s.Safe) (left : Leftover) (c : Nat) :
    ∃ s', s.ttySwitch left c = some s' ∧ s'.Safe := by
  unfold ShellState.ttySwitch
  split
  · exact h.norm left c
  · refine ⟨_, rfl, ?_⟩
    split_ifs <;> exact ⟨h.wf, h.lines, h.single, h.cursor, h.colors, h.calls⟩
  · by_cases hdigit : 0x30 ≤ c ∧ c ≤ 0x39
    · rw [if_pos hdigit]
      refine ⟨_, rfl, ?_⟩
      split_ifs
      · exact h.setParam _ _
      · exact h
    · rw [if_neg hdigit]
      simp only
      by_cases hnext : c = 0x3b
      · rw [if_pos hnext]
        exact ⟨_, rfl, h.wf, h.lines, h.single, h.cursor, h.colors, h.calls⟩
      · rw [if_neg hnext]
        have hlast : Safe { s with nbEscParams := wrapInt (s.nbEscParams + 1), state := .norm } :=
          ⟨h.wf, h.lines, h.single, h.cursor, h.colors, h.calls⟩
        exact hlast.csi left c

theorem Safe.ttyUpdateCursor {s : ShellState} (h : s.Safe) : s.ttyUpdateCursor.Safe := by
  unfold ShellState.ttyUpdateCursor
  split_ifs
  · exact h
  · exact ⟨h.wf, h.lines, h.single, h.cursor, h.colors, h.calls⟩

/-- One byte. -/
theorem Safe.ttyEmulate {s : ShellState} (h : s.Safe) (left : Leftover) (c : Nat) :
    ∃ s', s.ttyEmulate left c = some s' ∧ s'.Safe := by
  obtain ⟨s', e1, e2⟩ := h.ttySwitch left c
  exact ⟨s'.ttyUpdateCursor, by rw [ShellState.ttyEmulate, e1]; rfl, e2.ttyUpdateCursor⟩

/-- Any bytes. -/
theorem Safe.emulate {s : ShellState} (h : s.Safe) (left : Nat → Leftover) (bytes : List Byte) :
    ∃ s', emulate left s bytes = some s' ∧ s'.Safe := by
  induction bytes generalizing s with
  | nil => exact ⟨s, rfl, h⟩
  | cons c bytes ih =>
    obtain ⟨s₁, e1, e2⟩ := h.ttyEmulate (left bytes.length) c
    obtain ⟨s₂, i1, i2⟩ := ih e2
    exact ⟨s₂, by rw [ShellState.emulate, e1]; exact i1, i2⟩

/-! ## The size of the buffer -/

/-- How many bytes a byte of the process adds to the buffer at most. -/
def growth (s : ShellState) (c : Nat) : Nat :=
  match s.state with
  | .norm => 1
  | .esc => 0
  | .csi => if 0x30 ≤ c ∧ c ≤ 0x39 ∨ c = 0x3b then 0 else s.csiGrowth c

theorem Safe.grows {s : ShellState} (h : s.Safe) (left : Leftover) (c : Nat) {s' : ShellState}
    (hs' : s.ttyEmulate left c = some s') : Grows (s.growth c) s s' := by
  obtain ⟨u, hu, rfl⟩ := Option.map_eq_some_iff.mp hs'
  have hswitch : Grows (s.growth c) s u := by
    unfold ShellState.ttySwitch at hu
    unfold growth
    cases hstate : s.state with
    | norm =>
      rw [hstate] at hu
      exact h.grows_norm left c hu
    | esc =>
      rw [hstate] at hu
      obtain rfl := Option.some.inj hu
      split_ifs <;> exact ⟨Nat.le_refl _, fun _ => Or.inl⟩
    | csi =>
      rw [hstate] at hu
      simp only at hu ⊢
      by_cases hdigit : 0x30 ≤ c ∧ c ≤ 0x39
      · rw [if_pos hdigit] at hu
        rw [if_pos (Or.inl hdigit)]
        obtain rfl := Option.some.inj hu
        split_ifs
        · unfold ShellState.setParam
          split_ifs <;> exact ⟨Nat.le_refl _, fun _ => Or.inl⟩
        · exact .refl s
      · rw [if_neg hdigit] at hu
        by_cases hnext : c = 0x3b
        · rw [if_pos hnext] at hu
          rw [if_pos (Or.inr hnext)]
          obtain rfl := Option.some.inj hu
          exact ⟨Nat.le_refl _, fun _ => Or.inl⟩
        · rw [if_neg hnext] at hu
          rw [if_neg (not_or.mpr ⟨hdigit, hnext⟩)]
          have hlast : Safe { s with nbEscParams := wrapInt (s.nbEscParams + 1), state := .norm } :=
            ⟨h.wf, h.lines, h.single, h.cursor, h.colors, h.calls⟩
          have hgrows := hlast.grows_csi left c hu
          exact ⟨hgrows.total, hgrows.calls⟩
  unfold ShellState.ttyUpdateCursor
  split_ifs
  · exact hswitch
  · exact ⟨hswitch.total, hswitch.calls⟩

/-- Each byte finds a buffer that has room for what it may add. -/
def HasRoom (left : Nat → Leftover) : ShellState → List Byte → Prop
  | _, [] => True
  | s, c :: cs => s.b.totalSize + s.growth c ≤ intMax ∧ (s.ttyEmulate (left cs.length) c).elim True fun s => HasRoom left s cs

/-- No call found a buffer that `total_size` cannot count, and the buffer is none. -/
structure Counted (s : ShellState) : Prop where
  total : s.b.totalSize ≤ intMax
  calls : ∀ call ∈ s.calls, call.total ≤ intMax

/-- Any bytes that find room. -/
theorem Safe.emulate_counted {s : ShellState} (h : s.Safe) (hc : s.Counted) {left : Nat → Leftover} {bytes : List Byte}
    (hroom : HasRoom left s bytes) : ∃ s', ShellState.emulate left s bytes = some s' ∧ s'.Safe ∧ s'.Counted := by
  induction bytes generalizing s with
  | nil => exact ⟨s, rfl, h, hc⟩
  | cons c bytes ih =>
    obtain ⟨s₁, e1, e2⟩ := h.ttyEmulate (left bytes.length) c
    have hgrows := h.grows (left bytes.length) c e1
    have hc₁ : s₁.Counted := by
      refine ⟨hgrows.total.trans hroom.1, fun call hcall => ?_⟩
      rcases hgrows.calls call hcall with hold | hle
      · exact hc.calls call hold
      · exact hle.trans hroom.1
    obtain ⟨s₂, i1, i2⟩ := ih e2 hc₁ (by simpa only [e1, Option.elim_some] using hroom.2)
    exact ⟨s₂, by rw [ShellState.emulate, e1]; exact i1, i2⟩

/-- The cursor lies in the buffer as `total_size` counts it, every call that edited the buffer was in range of a `total_size`, and
there is a color for each byte. -/
def CursorInBuffer (s : ShellState) : Prop :=
  0 ≤ s.curOffset ∧ s.curOffset ≤ s.totalSize ∧ (∀ call ∈ s.calls, call.InRange ∧ call.total ≤ intMax) ∧
    ∀ t, s.bColor = some t → t.totalSize = s.b.totalSize

/-- The buffer of `new_shell_buffer` for a shell. -/
def newShell : ShellState :=
  { color := 0, defColor := 0, curOffset := 0, escParams := [0, 0, 0], nbEscParams := 0, state := .norm, b := EditBuffer.new true
    charset := .latin1, bColor := some Pages.empty, windows := [0], sent := [], calls := [] }

theorem newShell_fresh : newShell.Fresh :=
  ⟨⟨_, new_stands true⟩, (fun _ hp => nomatch hp), by decide, fun _ ht => Option.some.inj ht ▸ ⟨Pages.ok_empty, rfl⟩, rfl, by decide⟩

/-- Nothing was read before it was written. -/
def nothingLeft : Nat → Leftover := fun _ => ⟨fun _ => [], fun _ => 0⟩

theorem emulate_concat (s : ShellState) (bytes : List Byte) (c : Byte) :
    emulate nothingLeft s (bytes ++ [c]) = (emulate nothingLeft s bytes).bind fun s => s.ttyEmulate (nothingLeft 0) c := by
  induction bytes generalizing s with
  | nil => simp [emulate]
  | cons b bytes ih =>
    rw [List.cons_append, emulate, emulate, Option.bind_assoc]
    exact congrArg _ (funext ih)

end ShellState

end Hoe
