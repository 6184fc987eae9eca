import Hoe.Convert
import Hoe.Lemmas.CIndent
import Hoe.Lemmas.Saved
import Hoe.Search
import Hoe.WriteChar
import Hoe.YankRing

/-!
# Read-only buffers

The buffer layer does not look at the flag `BF_READONLY` of a buffer. So a buffer that is read only is safe from those commands
alone that look at it themselves.
-/

namespace Hoe

/-- The editing commands. -/
inductive EditCommand where
  | selfInsert (key : Nat)
  | newline
  | openLine
  | deleteChar
  | backwardDeleteChar
  | deleteWord (dir : Int)
  | killRegion (kill : Nat)
  | yank
  | yankPop
  | transposeChar
  | undo
  | fillParagraph
  | changecaseWord (up : Bool)
  | changecaseRegion (up : Bool)
  | queryReplace (searchStr replaceStr : List Byte) (keys : List Nat)
  | insertFile (file : Option (List Byte))
  | deleteTrailingWhitespace
  | convertCodingSystem (charsetStr : List Byte)
  | killRect
  | stringInsertRect (reply : List Byte)
  | cIndent
deriving DecidableEq, Repr

/-- What a command works on: the window, whether the last command was `do_undo`, and what lies in the memory of its variables. -/
structure CommandState where
  window : CWindow
  lastUndo : Bool
  junkByte : Byte
  junkBytes : Nat → List Byte
  junkCells : List Nat

/-- The window of a dialogue. -/
def QueryReplace.window : QueryReplace → Editor
  | asking is => is.s
  | ended s _ => s

namespace EditCommand

/-- The window behind a command. -/
def exec (st : CommandState) : EditCommand → Option Editor
  | selfInsert key => st.window.doChar st.junkByte key
  | newline => st.window.doReturn
  | openLine => st.window.doOpenLine
  | deleteChar => st.window.doDeleteChar
  | backwardDeleteChar => st.window.doBackspace
  | deleteWord dir => st.window.doDeleteWord dir
  | killRegion kill => st.window.doKillRegion kill
  | yank => st.window.doYank
  | yankPop => st.window.doYankPop st.lastUndo
  | transposeChar => st.window.doTransposeChar st.junkByte
  | undo => st.window.doUndo st.lastUndo
  | fillParagraph => st.window.doFillParagraph
  | changecaseWord up => st.window.doChangecaseWord up
  | changecaseRegion up => st.window.doChangecaseRegion up
  | queryReplace searchStr replaceStr keys =>
    (queryReplaceKeys (st.window.total.toNat + 1) st.window.toEditor searchStr replaceStr keys).map (·.window)
  | insertFile file => st.window.doInsertFile file
  | deleteTrailingWhitespace => st.window.doDeleteTrailingWhitespace
  | convertCodingSystem charsetStr =>
    (doConvertBufferFileCodingSystem st.junkBytes ⟨st.window.buffer, st.window.charset⟩ charsetStr).map fun c =>
      { st.window.changed c.b with charset := c.charset }
  | killRect => st.window.doKillRect
  | stringInsertRect reply => st.window.doStringInsertRect reply
  | cIndent => (doCIndent st.window st.junkCells).map (·.toEditor)

/-- The command looks at the flag, or its arguments say that there is nothing to do. -/
def LooksOrIdles : EditCommand → Prop
  | selfInsert _ | newline | openLine | deleteWord _ | killRegion _ | yank | queryReplace _ _ _ => True
  | insertFile file => file.getD [] = []
  | convertCodingSystem charsetStr => findCharset charsetStr = none
  | stringInsertRect reply => reply = []
  | _ => False

/-- The command changes no text that is read only. -/
def KeepsReadOnly (cmd : EditCommand) : Prop :=
  ∀ st : CommandState, st.window.buffer.WellFormed → 0 ≤ st.window.offset ∧ st.window.offset ≤ st.window.total →
    0 ≤ st.window.buffer.mark ∧ st.window.buffer.mark ≤ st.window.total → st.window.buffer.readOnly = true →
    ∀ s', cmd.exec st = some s' → s'.buffer.bytes = st.window.buffer.bytes

/-- A window on a buffer that is read only. -/
def readOnlyState (b : EditBuffer) (charset : Charset) (offset mark : Nat) : CommandState :=
  { window := { cWindow [] offset ⟨false, 80, by decide⟩ with
      charset := charset, buffer := { b with readOnly := true, mark := mark } }
    lastUndo := false, junkByte := 0, junkBytes := fun _ => [], junkCells := List.replicate 512 0 }

/-- A buffer in which a text was typed. -/
def typedBuffer (text : List Byte) : EditBuffer := ebInsert (EditBuffer.new true) 0 text

/-! ## Commands that look at the flag -/

/-- A dialogue that is over stays over. -/
theorem foldlM_key_ended (n : Nat) (s : Editor) (nbReps : Nat) (keys : List Nat) :
    keys.foldlM (QueryReplace.key n) (.ended s nbReps) = some (.ended s nbReps) := by
  induction keys with
  | nil => rfl
  | cons key keys ih =>
    rw [List.foldlM_cons]
    exact ih

theorem ebInsert_nil {s s' : Editor} {offset : Int} (hwf : s.buffer.WellFormed) (h : s.ebInsert offset [] = some s') :
    s'.buffer.WellFormed ∧ s'.buffer.bytes = s.buffer.bytes := by
  by_cases hoffset : 0 ≤ offset ∧ offset ≤ s.total
  · obtain ⟨o, rfl⟩ := Int.eq_ofNat_of_zero_le hoffset.1
    have ho : o ≤ s.buffer.bytes.length := by
      have hle := hoffset.2
      rw [Editor.total_eq hwf] at hle
      exact Int.ofNat_le.1 hle
    obtain ⟨ed, hed, hedited⟩ := Editor.ebInsert_spec hwf ho []
    obtain rfl := Option.some.inj (hed.symm.trans h)
    refine ⟨hedited.wf, ?_⟩
    rw [hedited.text, Splice.insertAt, List.append_nil, List.take_append_drop]
  · rw [Editor.ebInsert, if_neg hoffset] at h
    cases h

/-- Nothing is inserted on any line. -/
theorem insertRectLines_nil {s s' : Editor} {fcolNum : Nat} {lines : List Nat} (hwf : s.buffer.WellFormed)
    (h : lines.foldlM (Editor.insertRectLine fcolNum []) s = some s') : s'.buffer.bytes = s.buffer.bytes := by
  induction lines generalizing s with
  | nil => rw [Option.some.inj h]
  | cons line lines ih =>
    rw [List.foldlM_cons] at h
    obtain ⟨s₁, h₁, h⟩ := Option.bind_eq_some_iff.1 h
    obtain ⟨ed, hed, hs₁⟩ := Option.bind_eq_some_iff.1 h₁
    obtain rfl := Option.some.inj hs₁
    have hline : (s.gotoLine line).buffer = s.buffer := by
      unfold Editor.gotoLine
      split <;> rfl
    obtain ⟨hwf₁, hbytes⟩ := ebInsert_nil (by rw [hline]; exact hwf) hed
    rw [ih (by exact hwf₁) h, hbytes, hline]

theorem keepsReadOnly_of_looks {cmd : EditCommand} (h : cmd.LooksOrIdles) : cmd.KeepsReadOnly := by
  intro st hwf hoffset _ hro s' hs'
  cases cmd with
  | selfInsert key | openLine | deleteWord dir | killRegion kill | yank =>
    simp only [exec, Editor.doChar, Editor.doOpenLine, Editor.doDeleteWord, Editor.doKillRegion, Editor.doYank, hro, if_true,
      Option.some.injEq] at hs'
    rw [← hs']
  | newline =>
    simp only [exec, Editor.doReturn, Editor.doOpenLine, hro, if_true, Option.map_some, Option.some.injEq] at hs'
    rw [← hs']
  | queryReplace searchStr replaceStr keys =>
    simp only [exec, queryReplaceKeys, doQueryReplace, hro, if_true, Option.bind_some, foldlM_key_ended, Option.map_some,
      Option.some.injEq] at hs'
    rw [← hs']
    rfl
  | insertFile file =>
    cases file with
    | none => rw [Option.some.inj hs']
    | some file =>
      obtain rfl : file = [] := h
      simp only [exec, Editor.doInsertFile, if_pos hoffset, Option.some.injEq] at hs'
      rw [← hs']
      rfl
  | convertCodingSystem charsetStr =>
    have hnone : findCharset charsetStr = none := h
    simp only [exec, doConvertBufferFileCodingSystem, hnone, Option.map_some, Option.some.injEq] at hs'
    rw [← hs']
    rfl
  | stringInsertRect reply =>
    obtain rfl : reply = [] := h
    exact insertRectLines_nil hwf hs'
  | _ => cases h

/-! ## The other commands -/

/-- The flag has nothing to do with the pages and the log. -/
theorem wellFormed_setReadOnly {b : EditBuffer} (h : b.WellFormed) : ({ b with readOnly := true } : EditBuffer).WellFormed := by
  obtain ⟨d, hd⟩ := h
  have hlog := hd.log
  exact ⟨{ d with readOnly := true }, ⟨hd.table, hd.text, hd.modified, rfl, hd.saveLog, hd.mark, hd.notes, hd.past, hd.hasLog,
    ⟨hlog.ok, hlog.bytes, hlog.nb, hlog.newIndex, hlog.current, hlog.le⟩⟩, hd.total⟩

variable {cmd : EditCommand} {b : EditBuffer} {charset : Charset} {offset mark : Nat}

/-- The hypotheses hold of such a window. -/
theorem KeepsReadOnly.bytes_eq (h : cmd.KeepsReadOnly) (hb : b.WellFormed) (ho : offset ≤ b.bytes.length)
    (hm : mark ≤ b.bytes.length) {s' : Editor} (hs' : cmd.exec (readOnlyState b charset offset mark) = some s') :
    s'.buffer.bytes = b.bytes := by
  have hwf : (readOnlyState b charset offset mark).window.buffer.WellFormed := (wellFormed_setReadOnly hb).setMark _
  have htotal : (readOnlyState b charset offset mark).window.total = b.bytes.length := Editor.total_eq hwf
  refine h _ hwf ⟨Int.natCast_nonneg _, ?_⟩ ⟨Int.natCast_nonneg _, ?_⟩ rfl s' hs'
  · rw [htotal]
    exact Int.ofNat_le.2 ho
  · rw [htotal]
    exact Int.ofNat_le.2 hm

theorem typedBuffer_spec (text : List Byte) : (typedBuffer text).WellFormed ∧ (typedBuffer text).bytes = text := by
  have hstands := ebInsert_stands (new_stands true) (Nat.zero_le _) text
  refine ⟨⟨_, hstands⟩, ?_⟩
  have htext : (typedBuffer text).bytes = Splice.insertAt [] 0 text := hstands.text
  rw [htext]
  simp [Splice.insertAt]

/-- One text that is changed refutes it. -/
theorem not_keepsReadOnly_of_exec (text text' : List Byte) (charset : Charset) (offset mark : Nat)
    (h : (offset ≤ text.length ∧ mark ≤ text.length ∧ text' ≠ text) ∧
      (cmd.exec (readOnlyState (typedBuffer text) charset offset mark)).map (·.buffer.bytes) = some text') :
    ¬cmd.KeepsReadOnly := by
  obtain ⟨⟨ho, hm, hne⟩, hexec⟩ := h
  intro h
  obtain ⟨hwf, hbytes⟩ := typedBuffer_spec text
  obtain ⟨s', hs', htext⟩ := Option.map_eq_some_iff.1 hexec
  have hkept := h.bytes_eq hwf (by rw [hbytes]; exact ho) (by rw [hbytes]; exact hm) hs'
  exact hne (htext.symm.trans (hkept.trans hbytes))

theorem not_keepsReadOnly_insertFile {file : List Byte} (hne : file ≠ []) : ¬(insertFile (some file)).KeepsReadOnly := by
  intro h
  obtain ⟨s, hs⟩ : ∃ s, s = (readOnlyState (EditBuffer.new false) .latin1 0 0).window := ⟨_, rfl⟩
  have hwf : s.buffer.WellFormed := hs ▸ (wellFormed_setReadOnly ⟨_, new_stands false⟩).setMark _
  have hrange : 0 ≤ s.offset ∧ s.offset ≤ s.total := by
    rw [hs]
    decide
  have hexec : (insertFile (some file)).exec (readOnlyState (EditBuffer.new false) .latin1 0 0) =
      some (s.changed (rawLoadBuffer1 s.buffer s.offset.toNat file)) := by
    rw [exec, ← hs, Editor.doInsertFile, if_pos hrange]
  have hkept := h.bytes_eq ⟨_, new_stands false⟩ (Nat.zero_le _) (Nat.zero_le _) hexec
  obtain ⟨d, hd⟩ := hwf
  obtain ⟨d', hd', -, htext⟩ := loadBlocks_stands hd (hd.saveLog.symm.trans (by rw [hs]; rfl)) (Nat.zero_le _) file rfl
  have hempty : s.buffer.bytes = [] := by
    rw [hs]
    rfl
  have hzero : s.offset.toNat = 0 := by
    rw [hs]
    rfl
  have hloaded : (s.changed (rawLoadBuffer1 s.buffer s.offset.toNat file)).buffer.bytes = file := by
    rw [hzero]
    refine hd'.text.trans ?_
    rw [htext, ← hd.text, hempty]
    simp [Splice.insertAt]
  exact hne (hloaded.symm.trans hkept)

theorem not_keepsReadOnly_convert {charsetStr : List Byte} (h : findCharset charsetStr = some charset) :
    ¬(convertCodingSystem charsetStr).KeepsReadOnly := by
  cases charset with
  | latin1 =>
    refine not_keepsReadOnly_of_exec [0xc3, 0xa9] [0xe9] .utf8 0 0 ⟨by decide, ?_⟩
    simp only [exec, doConvertBufferFileCodingSystem, h]
    decide
  | utf8 =>
    refine not_keepsReadOnly_of_exec [0xe9] [0xc3, 0xa9] .latin1 0 0 ⟨by decide, ?_⟩
    simp only [exec, doConvertBufferFileCodingSystem, h]
    decide
  | ascii =>
    refine not_keepsReadOnly_of_exec [0xe9] [0x3f] .latin1 0 0 ⟨by decide, ?_⟩
    simp only [exec, doConvertBufferFileCodingSystem, h]
    decide

theorem not_keepsReadOnly_stringInsertRect {reply : List Byte} (hne : reply ≠ []) : ¬(stringInsertRect reply).KeepsReadOnly := by
  intro h
  obtain ⟨s, hs⟩ : ∃ s, s = (readOnlyState (EditBuffer.new true) .latin1 0 0).window.toEditor := ⟨_, rfl⟩
  have hwf : s.buffer.WellFormed := hs ▸ (wellFormed_setReadOnly ⟨_, new_stands true⟩).setMark _
  have hempty : s.buffer.bytes = [] := by
    rw [hs]
    rfl
  have hpos : s.getPos s.offset = (0, 0) ∧ s.getPos s.buffer.mark = (0, 0) := by
    rw [hs]
    decide
  have hline : s.gotoLine (1 : Nat) = s := by
    have hstart : ebGotoPos s.buffer.toPages s.reader 0 0 = s.offset := by
      rw [hs]
      decide
    exact congrArg (fun o => ({ s with offset := o } : Editor)) hstart
  have hzero : s.offset + (0 : Nat) = (0 : Nat) := by
    rw [hs]
    rfl
  have hsame : { s with offset := s.offset + (0 : Nat) } = s := by
    rw [hs]
    rfl
  obtain ⟨ed, hed, hedited⟩ := Editor.ebInsert_spec hwf (Nat.zero_le _) reply
  have hinsert : Editor.insertRectLine 0 reply s 1 = some { ed with offset := ed.offset + reply.length } := by
    unfold Editor.insertRectLine
    dsimp only
    rw [hline, hsame, hzero, hed]
    rfl
  have hexec : (stringInsertRect reply).exec (readOnlyState (EditBuffer.new true) .latin1 0 0) =
      some { ed with offset := ed.offset + reply.length } := by
    rw [exec, ← hs, Editor.doStringInsertRect, hpos.1, hpos.2]
    dsimp only
    rw [List.range'_one, List.foldlM_cons, hinsert]
    rfl
  have hkept := h.bytes_eq ⟨_, new_stands true⟩ (Nat.zero_le _) (Nat.zero_le _) hexec
  have hnew : (EditBuffer.new true).bytes = [] := rfl
  dsimp only at hkept
  rw [hedited.text, hempty, hnew] at hkept
  simp [Splice.insertAt, hne] at hkept

theorem looks_of_keepsReadOnly (h : cmd.KeepsReadOnly) : cmd.LooksOrIdles := by
  by_contra hnot
  revert h
  cases cmd with
  | selfInsert | newline | openLine | deleteWord | killRegion | yank | queryReplace => exact absurd trivial hnot
  | deleteChar =>
    exact not_keepsReadOnly_of_exec (cstr "ab") (cstr "b") .latin1 0 0 (by decide)
  | backwardDeleteChar =>
    exact not_keepsReadOnly_of_exec (cstr "ab") (cstr "b") .latin1 1 0 (by decide)
  | transposeChar =>
    exact not_keepsReadOnly_of_exec (cstr "ab") (cstr "ba") .latin1 1 0 (by decide)
  | yankPop | undo =>
    exact not_keepsReadOnly_of_exec (cstr "ab") [] .latin1 1 0 (by decide)
  | fillParagraph =>
    exact not_keepsReadOnly_of_exec (cstr "a b") (cstr "a\nb") .latin1 0 0 (by decide)
  | changecaseWord up =>
    cases up with
    | true =>
      exact not_keepsReadOnly_of_exec (cstr "aA") (cstr "AA") .latin1 0 0 (by decide)
    | false =>
      exact not_keepsReadOnly_of_exec (cstr "aA") (cstr "aa") .latin1 0 0 (by decide)
  | changecaseRegion up =>
    cases up with
    | true =>
      exact not_keepsReadOnly_of_exec (cstr "aA") (cstr "AA") .latin1 0 2 (by decide)
    | false =>
      exact not_keepsReadOnly_of_exec (cstr "aA") (cstr "aa") .latin1 0 2 (by decide)
  | insertFile file =>
    cases file with
    | none => exact absurd rfl hnot
    | some file => exact not_keepsReadOnly_insertFile hnot
  | deleteTrailingWhitespace =>
    exact not_keepsReadOnly_of_exec (cstr " \n") (cstr "\n") .latin1 0 0 (by decide)
  | convertCodingSystem charsetStr =>
    obtain ⟨charset, hcharset⟩ := Option.ne_none_iff_exists'.1 hnot
    exact not_keepsReadOnly_convert hcharset
  | killRect =>
    exact not_keepsReadOnly_of_exec (cstr "ab") (cstr "b") .latin1 1 0 (by decide)
  | stringInsertRect reply => exact not_keepsReadOnly_stringInsertRect hnot
  | cIndent =>
    exact not_keepsReadOnly_of_exec (cstr " ;") (cstr ";") .latin1 1 0 (by decide +kernel)

/-- Just the commands that look at the flag change no text that is read only, and of the others those that have nothing to do. -/
theorem keepsReadOnly_iff (cmd : EditCommand) : cmd.KeepsReadOnly ↔ cmd.LooksOrIdles :=
  ⟨looks_of_keepsReadOnly, keepsReadOnly_of_looks⟩

/-- A character of a text that is read only is deleted. -/
theorem not_keepsReadOnly : ¬∀ cmd : EditCommand, cmd.KeepsReadOnly := by
  intro h
  exact not_keepsReadOnly_of_exec (cstr "ab") (cstr "b") .latin1 0 0 (by decide +kernel) (h deleteChar)

end EditCommand

end Hoe
