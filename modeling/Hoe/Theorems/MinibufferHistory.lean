import Hoe.Lemmas.Minibuffer

/-!
# History in the minibuffer

The line that is typed is kept as the newest entry of the history: the first `do_history` saves it there. Whether one is the first is
seen by the command before, and a move that the end of the history refuses counts as one too, while a move that is done more than once
saves each time.
-/

namespace Hoe

namespace Minibuffer

/-! ## The statement -/

/-- The minibuffer while a line is typed: there is no popup, the position is the newest entry, and the command before was none of the history. -/
structure Typing (m : Minibuf) (previous : List (List Byte)) (scratch : List Byte) : Prop where
  popup : m.popup = none
  history : m.history = some (previous ++ [scratch])
  index : m.historyIndex = previous.length
  last : m.lastCmdHistory = false

/-- The commands of the history, one after the other. -/
def execAll (upDown : Popup → Int → Popup) (m : Minibuf) (cmds : List (HistoryCmd × Int)) : Minibuf := cmds.foldl (execHistory upDown) m

/-- What the minibuffer should hold: at the newest entry the line with its cursor, else the entry. -/
def Holds (previous : List (List Byte)) (line : List Byte) (cursor : Nat) (m : Minibuf) : Prop :=
  m.historyIndex = previous.length ∧ m.text = line ∧ m.offset = cursor ∨ ∃ i : Nat, m.historyIndex = i ∧ previous[i]? = some m.text

/-- What the history should be when the minibuffer is left: the entries before, and the text if it is not empty. -/
def ExitRight (previous : List (List Byte)) (m : Minibuf) : Prop :=
  (doMinibufferExit m).1 = some (previous ++ if m.text = [] then [] else [m.text])

/-- The history never loses the line: what it should hold behind all commands, and when it is left at the end. -/
structure HistoryRight (upDown : Popup → Int → Popup) (previous : List (List Byte)) (m : Minibuf) (cmds : List (HistoryCmd × Int)) : Prop where
  holds : ∀ run, run <+: cmds → Holds previous m.text m.offset (execAll upDown m run)
  exit : ExitRight previous (execAll upDown m cmds)

/-! ## The condition -/

/-- The place that a command moves to from another one, between the ends of the history. -/
def moveTo (newest : Nat) (i : Int) (cmd : HistoryCmd × Int) : Int := max 0 (min newest (i + cmd.1.dir * KeyState.repCount cmd.2))

/-- The position behind the commands. -/
def position (newest : Nat) (cmds : List (HistoryCmd × Int)) : Int := cmds.foldl (moveTo newest) newest

/-- The commands leave the newest entry. -/
def Leave (newest : Nat) (cmds : List (HistoryCmd × Int)) : Prop := ∃ run, run <+: cmds ∧ position newest run ≠ newest

/-- The commands come back to the newest entry. -/
def Return (newest : Nat) (cmds : List (HistoryCmd × Int)) : Prop := ∃ run, run <+: cmds ∧ Leave newest run ∧ position newest run = newest

/-- How many entries the first command moves over: none if it goes to the next one, which the end refuses. -/
def firstMoves (newest : Nat) (cmd : HistoryCmd × Int) : Nat :=
  match cmd.1 with
  | .previousElement => min (KeyState.repCount cmd.2) newest
  | .nextElement => 0

/-- What is saved by the first command is the line with its cursor: a command that moves over one entry saves it, if it is short enough
and has no zero in it. One that does not move leaves what was saved before, and one that goes on saves the entries in between. -/
def SavesLine (previous : List (List Byte)) (scratch : List Byte) (m : Minibuf) (cmd : HistoryCmd × Int) : Prop :=
  match firstMoves previous.length cmd with
  | 0 => scratch = m.text ∧ m.savedOffset = m.offset
  | 1 => m.text.length < 1024 ∧ 0 ∉ m.text
  | moves + 2 =>
    cString (ebGetStr 1024 (previous.getD (previous.length - (moves + 1)) [])) = m.text ∧
      (previous.getD (previous.length - (moves + 1)) []).length = m.offset

/-- What the text should be at a position. -/
def lineAt (previous : List (List Byte)) (line : List Byte) (i : Int) : List Byte := if i = previous.length then line else previous.getD i.toNat []

/-- When the history does not lose the line: if the commands come back to it, the first one saves it; and what the text is at the end fits
in the array, and has no zero in it. -/
structure HistoryFits (previous : List (List Byte)) (scratch : List Byte) (m : Minibuf) (cmds : List (HistoryCmd × Int)) : Prop where
  saves : Return previous.length cmds → ∃ cmd ∈ cmds.head?, SavesLine previous scratch m cmd
  short : (lineAt previous m.text (position previous.length cmds)).length < 4096
  noZero : 0 ∉ lineAt previous m.text (position previous.length cmds)

variable {upDown : Popup → Int → Popup} {m : Minibuf} {previous : List (List Byte)} {scratch line : List Byte} {off newest k : Nat} {i d : Int}
  {cmd first : HistoryCmd × Int} {cmds rest run : List (HistoryCmd × Int)}

/-! ## A move -/

/-- The minibuffer with the entry of a position in it, and what is saved for the newest one. -/
def shown (m : Minibuf) (previous : List (List Byte)) (scratch : List Byte) (off : Nat) (i : Int) : Minibuf :=
  let entry := (previous ++ [scratch]).getD i.toNat []
  { m with
    history := some (previous ++ [scratch])
    historyIndex := i
    savedOffset := off
    text := entry
    offset := if i = previous.length then off else entry.length }

theorem setString_newest (previous : List (List Byte)) (scratch str : List Byte) :
    setString (previous ++ [scratch]) ((previous ++ [scratch]).length - 1) str = previous ++ [cString str] := by
  unfold setString
  rw [List.length_append, List.length_singleton, Nat.add_sub_cancel, List.set_append_right _ _ (Nat.le_refl _), Nat.sub_self]
  rfl

/-- An end of the history refuses the move. -/
theorem doHistory_refused (hpopup : m.popup = none) (hhist : m.history = some (previous ++ [scratch]))
    (hmove : m.historyIndex + d < 0 ∨ (previous.length : Int) < m.historyIndex + d) : doHistory upDown m d = m := by
  unfold doHistory
  simp only [hpopup, hhist, List.length_append, List.length_singleton, Nat.cast_add, Nat.cast_one]
  rw [if_pos (by omega)]

/-- Else the entry is shown, and the line is saved if the command before was none of the history. -/
theorem doHistory_accepted (hpopup : m.popup = none) (hhist : m.history = some (previous ++ [scratch])) (hlow : 0 ≤ m.historyIndex + d)
    (hhigh : m.historyIndex + d ≤ previous.length) :
    doHistory upDown m d = shown m previous (if m.lastCmdHistory then scratch else cString (ebGetStr 1024 m.text))
      (if m.lastCmdHistory then m.savedOffset else m.offset) (m.historyIndex + d) := by
  obtain ⟨text, offset, completion, popup, history, index, savedOffset, last⟩ := m
  obtain rfl : popup = none := hpopup
  obtain rfl : history = some (previous ++ [scratch]) := hhist
  simp only at hlow hhigh
  have hmove : ¬ (index + d < 0 ∨ ((previous ++ [scratch]).length : Int) ≤ index + d) := by
    rw [List.length_append, List.length_singleton]
    omega
  unfold doHistory
  simp only [setString_newest]
  rw [if_neg hmove]
  cases last <;> simp only [shown, setMinibufferStr, List.length_append, List.length_singleton, Nat.cast_add, Nat.cast_one,
    add_sub_cancel_right, Bool.not_false, Bool.not_true, if_true, if_false, Bool.false_eq_true] <;> split_ifs <;> rfl

/-- A move from an entry, when the line is saved. -/
theorem doHistory_shown (hpopup : m.popup = none) (hlast : m.lastCmdHistory = true) (hlow : 0 ≤ i) (hhigh : i ≤ previous.length)
    (hd : d = 1 ∨ d = -1) :
    doHistory upDown (shown m previous scratch off i) d = shown m previous scratch off (max 0 (min previous.length (i + d))) := by
  by_cases hmove : 0 ≤ i + d ∧ i + d ≤ previous.length
  · rw [doHistory_accepted (m := shown m previous scratch off i) hpopup rfl hmove.1 hmove.2, min_eq_right hmove.2, max_eq_right hmove.1]
    simp [shown, hlast]
  · have hrefused : i + d < 0 ∨ (previous.length : Int) < i + d := by omega
    rw [doHistory_refused (m := shown m previous scratch off i) hpopup rfl hrefused]
    congr 1
    omega

/-! ## A command -/

theorem repCount_pos (argval : Int) : 0 < KeyState.repCount argval := by
  unfold KeyState.repCount
  split_ifs <;> omega

theorem dir_eq (cmd : HistoryCmd) : cmd.dir = 1 ∨ cmd.dir = -1 := by
  cases cmd
  · exact .inr rfl
  · exact .inl rfl

theorem moveTo_bounds (newest : Nat) (i : Int) (cmd : HistoryCmd × Int) : 0 ≤ moveTo newest i cmd ∧ moveTo newest i cmd ≤ newest := by
  unfold moveTo
  omega

/-- A command that moves away from the newest entry goes to the previous one. -/
theorem moveTo_newest (newest : Nat) (cmd : HistoryCmd × Int) : moveTo newest newest cmd = newest - firstMoves newest cmd := by
  obtain ⟨cmd, argval⟩ := cmd
  have := repCount_pos argval
  cases cmd
  · simp only [moveTo, firstMoves, HistoryCmd.dir]
    omega
  · simp only [moveTo, firstMoves, HistoryCmd.dir]
    omega

theorem iterate_shown (hpopup : m.popup = none) (hlast : m.lastCmdHistory = true) (hlow : 0 ≤ i) (hhigh : i ≤ previous.length)
    (hd : d = 1 ∨ d = -1) (k : Nat) :
    (fun m => doHistory upDown m d)^[k] (shown m previous scratch off i) =
      shown m previous scratch off (max 0 (min previous.length (i + d * k))) := by
  induction k with
  | zero =>
    rw [Function.iterate_zero_apply]
    congr 1
    omega
  | succ k ih =>
    rw [Function.iterate_succ_apply', ih, doHistory_shown hpopup hlast (by omega) (by omega) hd]
    congr 1
    rcases hd with rfl | rfl <;> push_cast <;> omega

/-- A command from an entry, when the line is saved. -/
theorem execHistory_shown (hpopup : m.popup = none) (hlast : m.lastCmdHistory = true) (hlow : 0 ≤ i) (hhigh : i ≤ previous.length)
    (cmd : HistoryCmd × Int) :
    execHistory upDown (shown m previous scratch off i) cmd = shown m previous scratch off (moveTo previous.length i cmd) := by
  unfold execHistory moveTo
  rw [iterate_shown hpopup hlast hlow hhigh (dir_eq cmd.1)]
  simp only [shown, hlast]

/-- A command that does not move. -/
theorem execHistory_stay (hpopup : m.popup = none) (hhist : m.history = some (previous ++ [scratch])) (hindex : m.historyIndex = previous.length)
    (hstay : firstMoves previous.length cmd = 0) : execHistory upDown m cmd = { m with lastCmdHistory := true } := by
  have hrefused : m.historyIndex + cmd.1.dir < 0 ∨ (previous.length : Int) < m.historyIndex + cmd.1.dir := by
    obtain ⟨cmd, argval⟩ := cmd
    have := repCount_pos argval
    cases cmd
    · simp only [firstMoves, HistoryCmd.dir] at hstay ⊢
      omega
    · simp only [HistoryCmd.dir]
      omega
  have hfixed : doHistory upDown m cmd.1.dir = m := doHistory_refused hpopup hhist hrefused
  unfold execHistory
  rw [Function.iterate_fixed hfixed]

/-- A command that moves, when the end has refused the one before: the line is not saved. -/
theorem execHistory_unsaved (hpopup : m.popup = none) (hhist : m.history = some (previous ++ [scratch]))
    (hindex : m.historyIndex = previous.length)
    (hlast : m.lastCmdHistory = true) (hmove : firstMoves previous.length cmd ≠ 0) :
    execHistory upDown m cmd = shown m previous scratch m.savedOffset (moveTo previous.length previous.length cmd) := by
  obtain ⟨⟨⟩ | ⟨⟩, argval⟩ := cmd
  · obtain ⟨k, hk⟩ := Nat.exists_eq_succ_of_ne_zero (repCount_pos argval).ne'
    simp only [firstMoves, hk] at hmove
    have hfirst : doHistory upDown m (-1) = shown m previous scratch m.savedOffset (previous.length - 1 : Int) := by
      rw [doHistory_accepted hpopup hhist (by omega) (by omega), hlast, hindex]
      rfl
    unfold execHistory moveTo
    simp only [HistoryCmd.dir, hk, Function.iterate_succ_apply, hfirst]
    have hplace : (previous.length - 1 : Int) + -1 * k = previous.length + -1 * (k.succ : Nat) := by
      push_cast
      ring
    rw [iterate_shown hpopup hlast (by omega) (by omega) (.inr rfl), hplace]
    simp only [shown, hlast]
  · exact absurd rfl hmove

/-- What the first command saves, when it moves over some entries. -/
def savedBy (previous : List (List Byte)) (scratch : List Byte) (m : Minibuf) : Nat → List Byte × Nat
  | 0 => (scratch, m.savedOffset)
  | 1 => (cString (ebGetStr 1024 m.text), m.offset)
  | moves + 2 =>
    let entry := previous.getD (previous.length - (moves + 1)) []
    (cString (ebGetStr 1024 entry), entry.length)

theorem savesLine_iff : SavesLine previous scratch m cmd ↔ savedBy previous scratch m (firstMoves previous.length cmd) = (m.text, m.offset) := by
  unfold SavesLine savedBy
  split
  · rw [Prod.mk.injEq]
  · rw [Prod.mk.injEq, cString_ebGetStr_eq_self_iff (by decide), and_iff_left rfl]
  · rw [Prod.mk.injEq]

/-- A further move of the first command saves the entry that it leaves. -/
theorem doHistory_saves (hpopup : m.popup = none) (hlast : m.lastCmdHistory = false) {j : Nat} (hj : j + 1 < previous.length) :
    doHistory upDown (shown m previous scratch off (j + 1 : Nat)) (-1) =
      shown m previous (cString (ebGetStr 1024 (previous.getD (j + 1) []))) (previous.getD (j + 1) []).length j := by
  have hentry : (previous ++ [scratch]).getD (j + 1) [] = previous.getD (j + 1) [] := by
    simp only [List.getD_eq_getElem?_getD]
    rw [List.getElem?_append_left hj]
  have hnewest : ¬ ((j + 1 : Nat) : Int) = previous.length := by omega
  have hplace : ((j + 1 : Nat) : Int) + -1 = j := by omega
  rw [doHistory_accepted (m := shown m previous scratch off (j + 1 : Nat)) hpopup rfl (by simp only [shown]; omega) (by simp only [shown]; omega)]
  simp only [shown, hlast, Bool.false_eq_true, if_false, Int.toNat_natCast, hentry, if_neg hnewest, hplace]

/-- The moves of the first command: each one saves. -/
theorem iterate_first (h : Typing m previous scratch) (hprevious : previous ≠ []) (k : Nat) :
    (fun m => doHistory upDown m (-1))^[k + 1] m =
      shown m previous (savedBy previous scratch m (min (k + 1) previous.length)).1
        (savedBy previous scratch m (min (k + 1) previous.length)).2 (previous.length - min (k + 1) previous.length : Nat) := by
  have hpos := List.length_pos_iff.2 hprevious
  induction k with
  | zero =>
    rw [Function.iterate_one, doHistory_accepted h.popup h.history (by rw [h.index]; omega) (by rw [h.index]; omega), h.last, h.index,
      Nat.min_eq_left hpos]
    simp only [savedBy, Bool.false_eq_true, if_false]
    congr 1
    omega
  | succ k ih =>
    rw [Function.iterate_succ_apply', ih]
    rcases Nat.lt_or_ge (k + 1) previous.length with hlt | hge
    · rw [Nat.min_eq_left hlt.le, Nat.min_eq_left hlt]
      obtain ⟨j, hj⟩ := Nat.exists_eq_add_of_lt hlt
      have hplace : previous.length - (k + 1) = j + 1 := by omega
      rw [hplace, doHistory_saves h.popup h.last (by omega)]
      simp only [savedBy, hplace]
      congr 1
      omega
    · rw [Nat.min_eq_right hge, Nat.min_eq_right (Nat.le_succ_of_le hge), Nat.sub_self]
      exact doHistory_refused h.popup rfl (.inl (by simp [shown]))

/-- The first command, when it moves. -/
theorem execHistory_first (h : Typing m previous scratch) (hmove : firstMoves previous.length cmd ≠ 0) :
    execHistory upDown m cmd =
      shown { m with lastCmdHistory := true } previous (savedBy previous scratch m (firstMoves previous.length cmd)).1
        (savedBy previous scratch m (firstMoves previous.length cmd)).2 (moveTo previous.length previous.length cmd) := by
  rw [moveTo_newest]
  obtain ⟨⟨⟩ | ⟨⟩, argval⟩ := cmd
  · obtain ⟨k, hk⟩ := Nat.exists_eq_succ_of_ne_zero (repCount_pos argval).ne'
    simp only [firstMoves, hk] at hmove ⊢
    have hprevious : previous ≠ [] := by
      rintro rfl
      exact hmove (Nat.min_zero _)
    unfold execHistory
    simp only [HistoryCmd.dir, hk]
    rw [iterate_first h hprevious, Nat.cast_sub (Nat.min_le_right _ _)]
    rfl
  · exact absurd rfl hmove

/-! ## A run -/

theorem position_concat (newest : Nat) (cmds : List (HistoryCmd × Int)) (cmd : HistoryCmd × Int) :
    position newest (cmds ++ [cmd]) = moveTo newest (position newest cmds) cmd := List.foldl_concat ..

theorem position_bounds (newest : Nat) (cmds : List (HistoryCmd × Int)) : 0 ≤ position newest cmds ∧ position newest cmds ≤ newest := by
  rcases List.eq_nil_or_concat cmds with rfl | ⟨cmds, cmd, rfl⟩
  · exact ⟨Int.natCast_nonneg newest, Int.le_refl _⟩
  · rw [List.concat_eq_append, position_concat]
    exact moveTo_bounds newest _ cmd

theorem leave_concat : Leave newest (cmds ++ [cmd]) ↔ Leave newest cmds ∨ position newest (cmds ++ [cmd]) ≠ newest := by
  unfold Leave
  simp only [List.prefix_concat_iff]
  constructor
  · rintro ⟨run, rfl | hrun, hne⟩
    · exact .inr hne
    · exact .inl ⟨run, hrun, hne⟩
  · rintro (⟨run, hrun, hne⟩ | hne)
    · exact ⟨run, .inr hrun, hne⟩
    · exact ⟨_, .inl rfl, hne⟩

theorem not_leave_nil : ¬ Leave newest [] := by
  rintro ⟨run, hrun, hne⟩
  rw [List.prefix_nil.1 hrun] at hne
  exact hne rfl

theorem position_of_not_leave (h : ¬ Leave newest cmds) : position newest cmds = newest := by
  by_contra hne
  exact h ⟨cmds, List.prefix_refl _, hne⟩

/-- A run that has not left the newest entry changes nothing; else the entry of its position is shown, with what the first command saved. -/
theorem execAll_cons (h : Typing m previous scratch) (first : HistoryCmd × Int) (rest : List (HistoryCmd × Int)) :
    (¬ Leave previous.length (first :: rest) → execAll upDown m (first :: rest) = { m with lastCmdHistory := true }) ∧
      (Leave previous.length (first :: rest) → execAll upDown m (first :: rest) =
        shown { m with lastCmdHistory := true } previous (savedBy previous scratch m (firstMoves previous.length first)).1
          (savedBy previous scratch m (firstMoves previous.length first)).2 (position previous.length (first :: rest))) := by
  have hfirst : position previous.length [first] = previous.length - firstMoves previous.length first := moveTo_newest _ first
  induction rest using List.reverseRecOn with
  | nil =>
    have hleave : Leave previous.length [first] ↔ firstMoves previous.length first ≠ 0 := by
      rw [← List.nil_append [first], leave_concat, or_iff_right not_leave_nil, List.nil_append, hfirst]
      omega
    rw [hleave, not_not]
    exact ⟨execHistory_stay h.popup h.history h.index, execHistory_first h⟩
  | append_singleton rest cmd ih =>
    obtain ⟨hstay, hleft⟩ := ih
    have hexec : execAll upDown m (first :: (rest ++ [cmd])) = execHistory upDown (execAll upDown m (first :: rest)) cmd := List.foldl_concat ..
    have hposition := position_concat previous.length (first :: rest) cmd
    have hleave : Leave previous.length (first :: rest ++ [cmd]) ↔ _ := leave_concat
    rw [hexec, ← List.cons_append, hleave]
    by_cases hrest : Leave previous.length (first :: rest)
    · refine ⟨fun hne => absurd (.inl hrest) hne, fun _ => ?_⟩
      obtain ⟨hlow, hhigh⟩ := position_bounds previous.length (first :: rest)
      rw [hleft hrest, execHistory_shown (m := { m with lastCmdHistory := true }) h.popup rfl hlow hhigh]
      exact congrArg _ hposition.symm
    · -- the end has refused all commands up to here, the first one too
      have hplace := position_of_not_leave hrest
      have hrefused : firstMoves previous.length first = 0 := by
        by_contra hmove
        refine hrest ⟨[first], List.prefix_append [first] rest, ?_⟩
        rw [hfirst]
        omega
      rw [hplace] at hposition
      have hmoves : position previous.length (first :: rest ++ [cmd]) = previous.length - firstMoves previous.length cmd :=
        hposition.trans (moveTo_newest _ cmd)
      rw [hstay hrest, or_iff_right hrest, hrefused, hmoves]
      refine ⟨fun hne => ?_, fun hne => ?_⟩
      · exact execHistory_stay (m := { m with lastCmdHistory := true }) h.popup h.history h.index (by omega)
      · rw [execHistory_unsaved (m := { m with lastCmdHistory := true }) h.popup h.history h.index rfl (by omega)]
        exact congrArg _ (hposition.symm.trans hmoves)

/-- The minibuffer behind a run: there is no popup, the entries before are as they were, and the position is the one of the commands. -/
structure Run (m : Minibuf) (previous : List (List Byte)) (position : Int) : Prop where
  popup : m.popup = none
  history : ∃ newest, m.history = some (previous ++ [newest])
  index : m.historyIndex = position

theorem run_execAll (upDown : Popup → Int → Popup) (h : Typing m previous scratch) (cmds : List (HistoryCmd × Int)) :
    Run (execAll upDown m cmds) previous (position previous.length cmds) := by
  cases cmds with
  | nil => exact ⟨h.popup, ⟨scratch, h.history⟩, h.index⟩
  | cons first rest =>
    obtain ⟨hstay, hleft⟩ := execAll_cons h first rest
    by_cases hleave : Leave previous.length (first :: rest)
    · rw [hleft hleave]
      exact ⟨h.popup, ⟨_, rfl⟩, rfl⟩
    · rw [hstay hleave, position_of_not_leave hleave]
      exact ⟨h.popup, ⟨scratch, h.history⟩, h.index⟩

/-- At any other entry than the newest one, the entry is shown. -/
theorem execAll_entry (h : Typing m previous scratch) (hplace : position previous.length cmds ≠ previous.length) :
    previous[(position previous.length cmds).toNat]? = some (execAll upDown m cmds).text := by
  cases cmds with
  | nil => exact absurd rfl hplace
  | cons first rest =>
    obtain ⟨hlow, hhigh⟩ := position_bounds previous.length (first :: rest)
    have hinside : (position previous.length (first :: rest)).toNat < previous.length := by omega
    rw [(execAll_cons h first rest).2 ⟨_, List.prefix_refl _, hplace⟩]
    simp only [shown, List.getD_eq_getElem?_getD]
    rw [List.getElem?_append_left hinside, List.getElem?_eq_getElem hinside, Option.getD_some]

/-- At the newest entry the line is as it was, if it has not been left; -/
theorem execAll_stayed (h : Typing m previous scratch) (hleave : ¬ Leave previous.length cmds) :
    (execAll upDown m cmds).text = m.text ∧ (execAll upDown m cmds).offset = m.offset := by
  cases cmds with
  | nil => exact ⟨rfl, rfl⟩
  | cons first rest =>
    rw [(execAll_cons h first rest).1 hleave]
    exact ⟨rfl, rfl⟩

/-- else it is what the first command saved. -/
theorem execAll_returned (upDown : Popup → Int → Popup) (h : Typing m previous scratch) (hleave : Leave previous.length cmds)
    (hplace : position previous.length cmds = previous.length) :
    ∃ first ∈ cmds.head?, ((execAll upDown m cmds).text, (execAll upDown m cmds).offset) =
      savedBy previous scratch m (firstMoves previous.length first) := by
  cases cmds with
  | nil => exact absurd hleave not_leave_nil
  | cons first rest =>
    refine ⟨first, rfl, ?_⟩
    rw [(execAll_cons h first rest).2 hleave, hplace]
    simp only [shown, Int.toNat_natCast, List.getD_eq_getElem?_getD, if_true]
    rw [List.getElem?_append_right (Nat.le_refl _), Nat.sub_self]
    rfl

/-! ## Leaving the minibuffer -/

/-- The history is right when the text fits in the array of `do_minibuffer_exit`, and only then. -/
theorem exitRight_iff (h : Run m previous i) : ExitRight previous m ↔ m.text.length < 4096 ∧ 0 ∉ m.text := by
  obtain ⟨newest, hhist⟩ := h.history
  have hselected : selectHighlighted m = m := by
    unfold selectHighlighted
    rw [h.popup]
  have hsame : cString (cString (ebGetStr 4096 m.text)) = cString (ebGetStr 4096 m.text) := cString_eq_self (zero_not_mem_cString _)
  unfold ExitRight doMinibufferExit
  simp only [hselected, hhist, Option.map_some, List.dropLast_concat, addString, hsame, Option.some.injEq]
  rw [if_neg (by simp), ← cString_ebGetStr_eq_self_iff (by decide)]
  constructor
  · intro hexit
    split_ifs at hexit with hread htext htext
    · rw [hread, htext]
    · simp at hexit
    · simp at hexit
    · simpa using hexit
  · intro hread
    rw [hread]
    split_ifs <;> simp

theorem Holds.text_eq {cursor : Nat} (h : Holds previous line cursor m) : m.text = lineAt previous line m.historyIndex := by
  unfold lineAt
  rcases h with ⟨hindex, htext, -⟩ | ⟨i, hindex, hentry⟩
  · rw [if_pos hindex, htext]
  · have hinside := (List.getElem?_eq_some_iff.1 hentry).1
    rw [if_neg (by omega), hindex, Int.toNat_natCast, List.getD_eq_getElem?_getD, hentry, Option.getD_some]

/-- At the newest entry it is the line. -/
theorem Holds.at_newest {cursor : Nat} (h : Holds previous line cursor m) (hindex : m.historyIndex = previous.length) :
    m.text = line ∧ m.offset = cursor := by
  rcases h with ⟨-, h⟩ | ⟨i, hi, hentry⟩
  · exact h
  · have := (List.getElem?_eq_some_iff.1 hentry).1
    omega

/-! ## The line is not lost -/

/-- The history is right for a line and all commands when they fit, and only then. -/
theorem historyRight_iff (upDown : Popup → Int → Popup) (m : Minibuf) (previous : List (List Byte)) (scratch : List Byte)
    (cmds : List (HistoryCmd × Int)) (h : Typing m previous scratch) :
    HistoryRight upDown previous m cmds ↔ HistoryFits previous scratch m cmds := by
  have hrun := run_execAll upDown h cmds
  constructor
  · rintro ⟨hholds, hexit⟩
    have htext := (hholds cmds (List.prefix_refl _)).text_eq
    obtain ⟨hshort, hzero⟩ := (exitRight_iff hrun).1 hexit
    rw [htext, hrun.index] at hshort hzero
    refine ⟨?_, hshort, hzero⟩
    rintro ⟨run, ⟨rest, rfl⟩, hleave, hplace⟩
    obtain ⟨first, hfirst, hsaved⟩ := execAll_returned upDown h hleave hplace
    refine ⟨first, List.mem_head?_append_of_mem_head? hfirst, savesLine_iff.2 (hsaved.symm.trans ?_)⟩
    obtain ⟨htext, hoffset⟩ := (hholds run (List.prefix_append _ _)).at_newest ((run_execAll upDown h run).index.trans hplace)
    rw [htext, hoffset]
  · rintro ⟨hsaves, hshort, hzero⟩
    have hholds : ∀ run, run <+: cmds → Holds previous m.text m.offset (execAll upDown m run) := by
      intro run hbegins
      have hindex := (run_execAll upDown h run).index
      by_cases hplace : position previous.length run = previous.length
      · left
        refine ⟨hindex.trans hplace, ?_⟩
        by_cases hleave : Leave previous.length run
        · obtain ⟨first, hfirst, hsaved⟩ := execAll_returned upDown h hleave hplace
          obtain ⟨first', hfirst', hline⟩ := hsaves ⟨run, hbegins, hleave, hplace⟩
          obtain ⟨rest, rfl⟩ := hbegins
          obtain rfl := Option.mem_unique (List.mem_head?_append_of_mem_head? hfirst) hfirst'
          exact Prod.mk.inj (hsaved.trans (savesLine_iff.1 hline))
        · exact execAll_stayed h hleave
      · right
        have hbounds := position_bounds previous.length run
        refine ⟨(position previous.length run).toNat, ?_, execAll_entry h hplace⟩
        rw [hindex, Int.toNat_of_nonneg hbounds.1]
    refine ⟨hholds, (exitRight_iff hrun).2 ?_⟩
    rw [(hholds cmds (List.prefix_refl _)).text_eq, hrun.index]
    exact ⟨hshort, hzero⟩

/-- A line that is not too long is not lost, if the first command moves over one entry, to which the length of the entries is nothing. -/
theorem historyFits_of_single (hfirst : firstMoves previous.length first = 1) (hline : m.text.length < 1024) (hzero : 0 ∉ m.text)
    (hentries : ∀ entry ∈ previous, entry.length < 4096 ∧ 0 ∉ entry) (rest : List (HistoryCmd × Int)) :
    HistoryFits previous scratch m (first :: rest) := by
  have hsaves : SavesLine previous scratch m first := by
    unfold SavesLine
    rw [hfirst]
    exact ⟨hline, hzero⟩
  have hend : (lineAt previous m.text (position previous.length (first :: rest))).length < 4096 ∧
      0 ∉ lineAt previous m.text (position previous.length (first :: rest)) := by
    obtain ⟨hlow, hhigh⟩ := position_bounds previous.length (first :: rest)
    unfold lineAt
    split_ifs with hplace
    · exact ⟨by omega, hzero⟩
    · have hinside : (position previous.length (first :: rest)).toNat < previous.length := by omega
      rw [List.getD_eq_getElem _ _ hinside]
      exact hentries _ (List.getElem_mem hinside)
  exact ⟨fun _ => ⟨first, rfl, hsaves⟩, hend.1, hend.2⟩

/-! ## Moves in the popup -/

theorem doHistory_popup {popup : Popup} (hpopup : m.popup = some popup) (d : Int) :
    ∃ popup', doHistory upDown m d = { m with popup := some popup' } := by
  unfold doHistory
  rw [hpopup]
  exact ⟨_, rfl⟩

theorem iterate_popup {popup : Popup} (hpopup : m.popup = some popup) (d : Int) (k : Nat) :
    ∃ popup', (fun m => doHistory upDown m d)^[k] m = { m with popup := some popup' } := by
  induction k with
  | zero =>
    refine ⟨popup, ?_⟩
    rw [← hpopup]
    rfl
  | succ k ih =>
    obtain ⟨popup', ih⟩ := ih
    rw [Function.iterate_succ_apply', ih]
    exact doHistory_popup (m := { m with popup := some popup' }) rfl d

/-- With a popup, the moves are moves in it: the line and the history stay as they are. -/
theorem execAll_popup {popup : Popup} (upDown : Popup → Int → Popup) (hpopup : m.popup = some popup) (cmds : List (HistoryCmd × Int)) :
    ∃ popup' last, execAll upDown m cmds = { m with popup := some popup', lastCmdHistory := last } := by
  induction cmds using List.reverseRecOn with
  | nil =>
    refine ⟨popup, m.lastCmdHistory, ?_⟩
    rw [← hpopup]
    rfl
  | append_singleton cmds cmd ih =>
    obtain ⟨popup', last, ih⟩ := ih
    have hexec : execAll upDown m (cmds ++ [cmd]) = execHistory upDown (execAll upDown m cmds) cmd := List.foldl_concat ..
    obtain ⟨popup'', hmoves⟩ := iterate_popup (m := { m with popup := some popup', lastCmdHistory := last }) rfl cmd.1.dir
      (KeyState.repCount cmd.2)
    refine ⟨popup'', true, ?_⟩
    rw [hexec, ih, execHistory, hmoves]

/-! ## A short history -/

/-- The history `one`, `two` behind a line. -/
def typing (line : List Byte) : Minibuf := minibufferEdit line none (some [cstr "one", cstr "two"]) false 0

theorem typing_typing (line : List Byte) : Typing (typing line) [cstr "one", cstr "two"] [] := ⟨rfl, rfl, rfl, rfl⟩

/-- To the first entry and further, which is refused, and back to the line and further. -/
theorem historyRight_foo :
    HistoryRight (fun popup _ => popup) [cstr "one", cstr "two"] (typing (cstr "foo"))
      [(.previousElement, noArg), (.previousElement, noArg), (.previousElement, noArg), (.nextElement, 4), (.nextElement, noArg)] :=
  (historyRight_iff _ (typing (cstr "foo")) [cstr "one", cstr "two"] [] _ (typing_typing _)).2
    (historyFits_of_single rfl (by decide +kernel) (by decide +kernel) (by decide +kernel) _)

/-- A move to the next entry, which is refused, and then to the previous one and back: the line is lost. And so it is when the first
command moves over both entries. -/
theorem not_historyRight :
    ¬ HistoryRight (fun popup _ => popup) [cstr "one", cstr "two"] (typing (cstr "foo"))
        [(.nextElement, noArg), (.previousElement, noArg), (.nextElement, noArg)] ∧
      ¬ HistoryRight (fun popup _ => popup) [cstr "one", cstr "two"] (typing (cstr "foo")) [(.previousElement, 4), (.nextElement, 4)] := by
  refine ⟨fun h => ?_, fun h => ?_⟩
  · exact absurd ((h.holds _ (List.prefix_refl _)).at_newest rfl).1 (by decide +kernel)
  · exact absurd ((h.holds _ (List.prefix_refl _)).at_newest rfl).1 (by decide +kernel)

end Minibuffer

end Hoe
