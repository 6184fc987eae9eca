import Hoe.LoadFile

/-!
# A file that cannot be opened

When a regular file cannot be opened, its buffer is in the list already and shown, so that the message comes with another state of
the editor. Since the text mode takes every file, this is the only way to the message.
-/

namespace Hoe
namespace LoadState

variable {sur : Surroundings} {s s' s'' : LoadState} {e : WindowPtr} {b : BufferPtr} {filename : List Byte} {f : Option Nat}

/-! ## What is said on the way -/

/-- More happens, but no message that a file could not be opened. -/
def Quiet (s s' : LoadState) : Prop :=
  ∃ evs, s'.events = s.events ++ evs ∧ ∀ filename, LoadEvent.status (.couldNotOpen filename) ∉ evs

theorem Quiet.refl (s : LoadState) : Quiet s s := ⟨[], (List.append_nil _).symm, by simp⟩

theorem Quiet.of_events (h : s'.events = s.events) : Quiet s s' := ⟨[], by rw [h, List.append_nil], by simp⟩

/-- Steps that report nothing, one after the other. -/
theorem Quiet.trans (h : Quiet s s') (h' : Quiet s' s'') : Quiet s s'' := by
  obtain ⟨evs, he, hno⟩ := h
  obtain ⟨evs', he', hno'⟩ := h'
  refine ⟨evs ++ evs', by rw [he', he, List.append_assoc], fun filename hmem => ?_⟩
  rcases List.mem_append.mp hmem with hmem | hmem
  · exact hno filename hmem
  · exact hno' filename hmem

/-- Any other event is no report of a failure. -/
theorem quiet_event {ev : LoadEvent} (h : ∀ filename, LoadEvent.status (.couldNotOpen filename) ≠ ev) (s : LoadState) :
    Quiet s (s.event ev) :=
  ⟨[ev], rfl, fun filename hmem => h filename (List.mem_singleton.mp hmem)⟩

theorem quiet_fopen (sur : Surroundings) (s : LoadState) (filename : List Byte) : Quiet s (s.fopen sur filename).1 :=
  ⟨_, rfl, by simp⟩

theorem quiet_fclose (s : LoadState) (f : Option Nat) : Quiet s (s.fclose f) := quiet_event (by simp) s

/-- To load the text is to report nothing of the kind. -/
theorem quiet_loadText (sur : Surroundings) (s : LoadState) (b : BufferPtr) (filename : List Byte) (taken : Nat) :
    Quiet s (s.loadText sur b filename taken).1 := by
  unfold loadText
  simp only
  split
  · split <;> exact .of_events rfl
  · exact .of_events rfl

theorem quiet_reloadFile (s : LoadState) (b : BufferPtr) (f1 : Option Nat) : Quiet s (s.reloadFile sur b f1) := by
  unfold reloadFile
  simp only
  split
  · exact .refl s
  · generalize ((s.names.entry b).map (·.filename)).getD [] = filename
    cases f1 with
    | none =>
      have hopen := quiet_fopen sur s filename
      simp only
      split
      · rename_i s₁ heq
        rw [heq] at hopen
        exact hopen.trans (quiet_event (by simp) s₁)
      · rename_i s₁ f heq
        rw [heq] at hopen
        have hload := quiet_loadText sur s₁ b filename 0
        have hclose := hload.trans (quiet_fclose _ (some f))
        split
        · exact hopen.trans hclose
        · exact (hopen.trans hclose).trans (quiet_event (by simp) _)
    | some f =>
      have hload := quiet_loadText sur s b filename 1024
      simp only
      split
      · exact hload
      · exact hload.trans (quiet_event (by simp) _)

/-- Nor does it happen where a mode is set. -/
theorem quiet_doSetModeFile (sur : Surroundings) (s : LoadState) (e : WindowPtr) (m : Option ModeDef) (v : Option WindowView) (f1 : Option Nat) :
    Quiet s (s.doSetModeFile sur e m v f1) := by
  unfold doSetModeFile
  simp only
  cases m with
  | none => exact .of_events rfl
  | some m =>
    simp only
    split
    · exact Quiet.trans (.of_events rfl : Quiet s (s.setView e _)) ((quiet_reloadFile _ _ _).trans (.of_events rfl))
    · exact .of_events rfl

/-- Nor where the window goes to another buffer. -/
theorem quiet_switchToBuffer (h : s.switchToBuffer sur e b = some s') : Quiet s s' := by
  unfold switchToBuffer at h
  simp only [Option.map_eq_some_iff] at h
  obtain ⟨names, -, rfl⟩ := h
  have hsave : Quiet s (s.saveShown e) := by
    unfold saveShown
    split
    · exact .refl s
    · exact .of_events rfl
  have hclosed := hsave.trans (quiet_doSetModeFile sur _ e none none none)
  have hnamed : Quiet s { (s.saveShown e).doSetModeFile sur e none none none with names := names } := hclosed.trans (.of_events rfl)
  exact hnamed.trans (quiet_doSetModeFile sur _ _ _ _ _)

/-! ## What the names become -/

/-- The buffers and their names stay when a file is read again. -/
theorem reloadFile_names (sur : Surroundings) (s : LoadState) (b : BufferPtr) (f1 : Option Nat) : (s.reloadFile sur b f1).names = s.names := by
  have hload (s : LoadState) (filename : List Byte) (taken : Nat) : (s.loadText sur b filename taken).1.names = s.names := by
    unfold loadText
    simp only
    split
    · split <;> rfl
    · rfl
  unfold reloadFile
  simp only
  split
  · rfl
  · generalize ((s.names.entry b).map (·.filename)).getD [] = filename
    cases f1 with
    | none =>
      simp only
      split
      · rename_i s₁ heq
        exact (congrArg (fun p => p.1.names) heq).symm
      · rename_i s₁ f heq
        have hnames : ((s₁.loadText sur b filename 0).1.fclose (some f)).names = s.names :=
          (hload s₁ filename 0).trans (congrArg (fun p => p.1.names) heq).symm
        split
        · exact hnames
        · exact hnames
    | some f =>
      simp only
      split
      · exact hload s filename 1024
      · exact hload s filename 1024

/-- They stay when a mode is set. -/
theorem doSetModeFile_names (s : LoadState) (e : WindowPtr) (m : Option ModeDef) (v : Option WindowView) (f1 : Option Nat) :
    (s.doSetModeFile sur e m v f1).names = s.names := by
  unfold doSetModeFile
  simp only
  cases m with
  | none => rfl
  | some m =>
    simp only
    split
    · exact reloadFile_names sur (s.setView e _) _ f1
    · rfl

/-- The list of buffers stays when a window goes to another one. -/
theorem switchToBuffer_buffers (h : s.switchToBuffer sur e b = some s') : s'.names.buffers = s.names.buffers := by
  unfold switchToBuffer at h
  simp only [Option.map_eq_some_iff] at h
  obtain ⟨names, hnames, rfl⟩ := h
  rw [doSetModeFile_names]
  rw [doSetModeFile_names] at hnames
  unfold BufferNames.switchToBuffer at hnames
  obtain ⟨_, -, rfl⟩ := Option.map_eq_some_iff.mp hnames
  unfold saveShown
  split <;> rfl

/-- No buffer comes or goes with a file name. -/
theorem setFilename_length {names names' : BufferNames} (h : names.setFilename b filename = some names') :
    names'.buffers.length = names.buffers.length := by
  unfold BufferNames.setFilename BufferNames.setBufferName at h
  simp only [Option.bind_eq_some_iff] at h
  obtain ⟨name, -, h⟩ := h
  split at h
  · obtain rfl := Option.some.inj h
    simp [BufferNames.updateBuffer]
  · cases h

/-! ## Every file has a mode -/

/-- Once a mode is selected, one is selected in the end. -/
theorem probeLoop_isSome_of (data : ModeProbeData) (ms : List ModeDef) {selected : Option ModeDef} (h : selected.isSome) (best : Nat) :
    (probeLoop data ms selected best).isSome := by
  induction ms generalizing selected best with
  | nil => exact h
  | cons m ms ih =>
    rw [probeLoop]
    split
    · split
      · exact ih rfl _
      · exact ih h _
    · exact ih h _

/-- The text mode takes what nobody else takes. -/
theorem probeLoop_isSome (data : ModeProbeData) {ms : List ModeDef} (hms : textMode ∈ ms) (selected : Option ModeDef) {best : Nat}
    (hbest : best < 10) : (probeLoop data ms selected best).isSome := by
  induction ms generalizing selected best with
  | nil => cases hms
  | cons m ms ih =>
    rw [probeLoop]
    rcases List.mem_cons.mp hms with rfl | hms
    · simp only [textMode, if_pos hbest]
      exact probeLoop_isSome_of data ms rfl _
    · split
      · split
        · exact probeLoop_isSome_of data ms rfl _
        · exact ih hms _ hbest
      · exact ih hms _ hbest

/-- So a mode is always found. -/
theorem probeMode_isSome (sur : Surroundings) (data : ModeProbeData) : (probeMode sur.modes data).isSome :=
  probeLoop_isSome data sur.text_mem none (by decide)

/-- The rest of the load reports nothing of the kind. -/
theorem quiet_finishLoad (s : LoadState) (e : WindowPtr) (b : BufferPtr) (filename : List Byte) (regular : Bool) (buf : List Byte)
    (f : Option Nat) : Quiet s (s.finishLoad sur e b filename regular buf f) := by
  obtain ⟨m, hm⟩ := Option.isSome_iff_exists.mp (probeMode_isSome sur ⟨buf, filename, regular⟩)
  unfold finishLoad
  rw [hm]
  simp only
  have hset := quiet_doSetModeFile sur { s with charsets := Function.update s.charsets b (detectCharset buf) } e (some m) none f
  split
  · exact (Quiet.trans (.of_events rfl) hset).trans (quiet_fclose _ f)
  · exact Quiet.trans (.of_events rfl) hset

/-! ## The failure -/

/-- The call ends with the message. -/
def EndsWithFailure (s s' : LoadState) : Prop :=
  ∃ evs filename, s'.events = s.events ++ (evs ++ [.status (.couldNotOpen filename)])

/-- Quiet steps end with no report of a failure. -/
theorem Quiet.not_failure (h : Quiet s s') : ¬EndsWithFailure s s' := by
  rintro ⟨evs, filename, he⟩
  obtain ⟨evs', he', hno⟩ := h
  rw [he', List.append_cancel_left_eq] at he
  exact hno filename (by rw [he]; simp)

/-- Every stream that is closed was opened before. -/
def ClosesOpened (evs : List LoadEvent) : Prop :=
  ∀ before after f, evs = before ++ LoadEvent.fclose f :: after → ∃ p filename, f = some p ∧ LoadEvent.fopen filename f ∈ before

/-- A call that ends with the message leaves the buffers and the window as they were, closes only what it has opened, and the next
call for the same name tries to read the file again. -/
def CleanFailure (sur : Surroundings) (s s' : LoadState) (e : WindowPtr) (filename1 : List Byte) : Prop :=
  EndsWithFailure s s' →
    s'.names.buffers = s.names.buffers ∧ s'.names.shows e = s.names.shows e ∧ s'.views e = s.views e ∧
      (∀ evs, s'.events = s.events ++ evs → ClosesOpened evs) ∧
      ∀ s'', s'.doLoad1 sur e filename1 = some s'' →
        ∃ evs f, s''.events = s'.events ++ evs ∧ LoadEvent.fopen (canonizeAbsolutePath sur.cwd 1024 filename1) f ∈ evs

/-- The name is the one of a buffer, or of no file, or of one that can be opened if it is a regular file. -/
def Opens (sur : Surroundings) (s : LoadState) (filename1 : List Byte) : Prop :=
  (s.names.ebFindFile (canonizeAbsolutePath sur.cwd 1024 filename1)).isSome ∨
    ∀ file, sur.files (canonizeAbsolutePath sur.cwd 1024 filename1) = some file → file.regular = true → file.readable = true

variable {filename1 : List Byte}

/-- A file that is not visited gets one buffer more. -/
theorem loadNew_spec (h : s.loadNew sur e filename = some s') :
    Quiet s s' ∧ s'.names.buffers.length = s.names.buffers.length + 1 := by
  unfold loadNew at h
  simp only [Option.bind_eq_some_iff, Option.map_eq_some_iff] at h
  obtain ⟨names, hnames, s₁, hswitch, rfl⟩ := h
  obtain ⟨evs, he, hno⟩ := quiet_switchToBuffer hswitch
  refine ⟨⟨evs, he, hno⟩, ?_⟩
  have hbuffers : s₁.names.buffers = names.buffers := switchToBuffer_buffers hswitch
  rw [setView, hbuffers, setFilename_length hnames]
  rfl

/-- A regular file that can be read is examined without a report. -/
theorem examineFile_quiet (h : ∀ file, sur.files filename = some file → file.regular = true → file.readable = true) :
    Quiet s (s.examineFile sur e b filename) := by
  unfold examineFile
  cases hfile : sur.files filename with
  | none =>
    have hnew : Quiet s (s.putStatus .newFile) := quiet_event (by simp) s
    simp only
    split
    · exact hnew.trans (quiet_doSetModeFile sur _ _ _ _ _)
    · exact hnew
  | some file =>
    simp only
    split
    · rename_i hregular
      have hopen := quiet_fopen sur s filename
      have hsome : (s.fopen sur filename).2 = some s.nextFile := by
        unfold fopen
        simp [hfile, h file hfile hregular]
      split
      · rename_i s₁ heq
        rw [heq] at hsome
        cases hsome
      · rename_i s₁ f heq
        rw [heq] at hopen
        exact hopen.trans (quiet_finishLoad _ _ _ _ _ _ _)
    · exact quiet_finishLoad _ _ _ _ _ _ _

/-- A regular file that cannot be opened ends the call, and nothing that was done is taken back. -/
theorem examineFile_fails {file : FileEntry} (hfile : sur.files filename = some file) (hregular : file.regular = true)
    (hread : ¬file.readable = true) :
    (s.examineFile sur e b filename).names = s.names ∧
      (s.examineFile sur e b filename).events = s.events ++ [.fopen filename none, .status (.couldNotOpen filename)] := by
  have hopen : s.fopen sur filename = ({ s with nextFile := s.nextFile + 1 }.event (.fopen filename none), none) := by
    unfold fopen
    simp [hfile, hread]
  unfold examineFile
  simp only [hfile, hregular, if_true, hopen]
  refine ⟨rfl, ?_⟩
  rw [putStatus, event, event, List.append_assoc]
  rfl

/-- A call that goes through is quiet. -/
theorem doLoad1_quiet (hrun : s.doLoad1 sur e filename1 = some s') (h : Opens sur s filename1) : Quiet s s' := by
  unfold doLoad1 at hrun
  unfold Opens at h
  generalize canonizeAbsolutePath sur.cwd 1024 filename1 = filename at hrun h
  simp only at hrun
  split at hrun
  · exact quiet_switchToBuffer hrun
  · rename_i hnone
    have hfiles : ∀ file, sur.files filename = some file → file.regular = true → file.readable = true := by
      rcases h with h | h
      · rw [hnone] at h
        cases h
      · exact h
    obtain ⟨s₁, hnew, rfl⟩ := Option.map_eq_some_iff.mp hrun
    exact (loadNew_spec hnew).1.trans (examineFile_quiet hfiles)

/-- A call that does not go through ends with the message, and with one buffer more. -/
theorem doLoad1_fails (hrun : s.doLoad1 sur e filename1 = some s') (h : ¬Opens sur s filename1) :
    EndsWithFailure s s' ∧ s'.names.buffers.length = s.names.buffers.length + 1 := by
  unfold doLoad1 at hrun
  unfold Opens at h
  generalize canonizeAbsolutePath sur.cwd 1024 filename1 = filename at hrun h
  push Not at h
  obtain ⟨hedited, file, hfile, hregular, hread⟩ := h
  have hnone : s.names.ebFindFile filename = none := by simpa using hedited
  simp only [hnone] at hrun
  obtain ⟨s₁, hnew, rfl⟩ := Option.map_eq_some_iff.mp hrun
  obtain ⟨⟨evs, he, -⟩, hlen⟩ := loadNew_spec hnew
  obtain ⟨hnames, hevents⟩ := examineFile_fails (s := s₁) (e := e) (b := s.names.nextBuffer) hfile hregular hread
  refine ⟨⟨evs ++ [.fopen filename none], filename, ?_⟩, by rw [hnames, hlen]⟩
  rw [hevents, he]
  simp

/-- A failed open is clean exactly where there is none. -/
theorem cleanFailure_iff (hrun : s.doLoad1 sur e filename1 = some s') : CleanFailure sur s s' e filename1 ↔ Opens sur s filename1 := by
  constructor
  · intro hclean
    by_contra hfails
    obtain ⟨hend, hlen⟩ := doLoad1_fails hrun hfails
    rw [(hclean hend).1] at hlen
    omega
  · intro hopens hend
    exact absurd hend (doLoad1_quiet hrun hopens).not_failure

/-! ## A file without permission -/

/-- There is a regular file at every path, and none can be opened. -/
def deniedFiles : Surroundings :=
  { cwd := cstr "/"
    sys := { opens := false, maps := fun _ => false, allocates := fun _ => false, maps_zero := rfl, maps_lt := by simp, allocates_lt := by simp }
    files := fun _ => some { ino := 1, regular := true, readable := false, content := [] }
    modes := [textMode]
    text_mem := List.mem_singleton.mpr rfl }

/-- One window, which shows the first buffer. -/
def startState : LoadState :=
  { names := BufferNames.start, texts := fun _ => EditBuffer.new true, charsets := fun _ => .latin1, savedData := fun _ => none
    windows := [0], views := fun _ => ⟨some textMode, 0⟩, nextFile := 0, events := [] }

/-- The start state fails to open a file that may not be read. -/
theorem startState_fails :
    (startState.doLoad1 deniedFiles 0 (cstr "/x")).map (fun s => (s.events, s.names.buffers.length)) =
      some ([.fopen (cstr "/x") none, .status (.couldNotLoad (cstr "/x")), .fopen (cstr "/x") none,
        .status (.couldNotOpen (cstr "/x"))], 2) := by
  decide

/-- What happens then is a clean failure just when the file opens. -/
theorem cleanFailure_start : ∃ s', startState.doLoad1 deniedFiles 0 (cstr "/x") = some s' ∧
    (CleanFailure deniedFiles startState s' 0 (cstr "/x") ↔ Opens deniedFiles startState (cstr "/x")) := by
  obtain ⟨s', hrun, -⟩ := Option.map_eq_some_iff.mp startState_fails
  exact ⟨s', hrun, cleanFailure_iff hrun⟩

/-- The new buffer is in the list when the call ends with the message. -/
theorem not_cleanFailure : ¬∀ (sur : Surroundings) (s s' : LoadState) (e : WindowPtr) (filename1 : List Byte),
    s.doLoad1 sur e filename1 = some s' → CleanFailure sur s s' e filename1 := by
  intro h
  obtain ⟨s', hrun, hresult⟩ := Option.map_eq_some_iff.mp startState_fails
  rw [Prod.mk.injEq] at hresult
  obtain ⟨hevents, hlen⟩ := hresult
  have hend : EndsWithFailure startState s' :=
    ⟨[.fopen (cstr "/x") none, .status (.couldNotLoad (cstr "/x")), .fopen (cstr "/x") none], cstr "/x", hevents⟩
  have hsame := (h _ _ _ _ _ hrun hend).1
  rw [hsame] at hlen
  exact absurd hlen (by decide)

end LoadState

end Hoe
