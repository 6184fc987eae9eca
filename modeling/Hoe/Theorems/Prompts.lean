import Hoe.Prompts

/-!
# Aborting a prompt

A prompt is aborted when the minibuffer is left without a reply, and when there is one already. The callbacks of most commands change
nothing then. Two do not look whether there is a reply at first: one takes the length of it, and one has made room for it in the
setting that it is about.
-/

namespace Hoe

namespace Prompts

namespace State

/-- What the prompt must leave as it was: the buffers with their texts, marks, file names and charsets, the windows, the search, the
state of cscope and the backup directory. -/
structure Unchanged (s s' : State) : Prop where
  buffers : s'.buffers = s.buffers
  windows : s'.windows = s.windows
  search : s'.lastSearchString = s.lastSearchString
  cscope : s'.cs = s.cs
  backupDir : s'.gBackupDir = s.gBackupDir

theorem Unchanged.refl (s : State) : s.Unchanged s := ⟨rfl, rfl, rfl, rfl, rfl⟩

theorem Unchanged.trans {s s' s'' : State} (h : s.Unchanged s') (h' : s'.Unchanged s'') : s.Unchanged s'' :=
  ⟨h'.buffers.trans h.buffers, h'.windows.trans h.windows, h'.search.trans h.search, h'.cscope.trans h.cscope,
    h'.backupDir.trans h.backupDir⟩

end State

variable (libc : Option (List Byte)) (replied : State → Callback → List Byte → Except Fault State)

/-- The prompt that is asked for is aborted: refused when there is a minibuffer, and else left without a reply, whatever was typed
in the minibuffer in between. -/
def Aborted (world : World) (s : State) (r : Request) (result : Except Fault State) : Prop :=
  (s.minibuffer.isSome ∧ result = s.minibufferEdit libc replied world r) ∨
    (s.minibuffer = none ∧ ∃ s₁ s₂, s.minibufferEdit libc replied world r = .ok s₁ ∧ s₁.Unchanged s₂ ∧
      s₂.minibuffer.map (·.cb) = s₁.minibuffer.map (·.cb) ∧ result = s₂.doMinibufferExit libc replied world true)

/-- However the prompt of a command is aborted, no NULL pointer is followed, and all is as it was before the prompt. -/
def AbortChangesNothing (c : Command) (s : State) : Prop :=
  ∀ world world' s₁ r, c.asks world s = some (s₁, r) → ∀ result, Aborted libc replied world' s₁ r result →
    ∃ s₂, result = .ok s₂ ∧ s₁.Unchanged s₂

/-- The callback looks whether there is a reply before it does anything, or needs the C library to print something for NULL. -/
def Callback.Looks : Callback → Prop
  | .doStringInsertRect _ | .doQuerySymbolDirectory _ => False
  | .setBackupDirCb _ => libc.isSome
  | _ => True

theorem callback_unchanged {cb : Callback} (h : cb.Looks libc) (world : World) (s : State) :
    ∃ s', s.callback libc replied world cb none = .ok s' ∧ s.Unchanged s' := by
  cases cb with
  | setBackupDirCb e =>
    obtain ⟨text, rfl⟩ := Option.isSome_iff_exists.1 h
    exact ⟨_, rfl, ⟨rfl, rfl, rfl, rfl, rfl⟩⟩
  | doStringInsertRect e => exact absurd h id
  | doQuerySymbolDirectory e => exact absurd h id
  | _ => exact ⟨s, rfl, .refl s⟩

/-- The minibuffer is opened with the callback that was asked for. -/
theorem minibufferEdit_ok {world : World} {s s' : State} {r : Request} (hnone : s.minibuffer = none)
    (h : s.minibufferEdit libc replied world r = .ok s') : s.Unchanged s' ∧ s'.minibuffer.map (·.cb) = some r.cb := by
  rw [State.minibufferEdit, hnone] at h
  rw [← Except.ok.inj h]
  unfold State.changeHistory
  split <;> exact ⟨⟨rfl, rfl, rfl, rfl, rfl⟩, rfl⟩

/-- The minibuffer is left without a reply: its callback is called. -/
theorem doMinibufferExit_abort (world : World) {s : State} {cb : Callback} (h : s.minibuffer.map (·.cb) = some cb) :
    ∃ s', s.Unchanged s' ∧ s.doMinibufferExit libc replied world true = s'.callback libc replied world cb none := by
  obtain ⟨m, hm, rfl⟩ := Option.map_eq_some_iff.1 h
  rw [State.doMinibufferExit, hm]
  refine ⟨_, ?_, rfl⟩
  unfold State.changeHistory
  split <;> exact ⟨rfl, rfl, rfl, rfl, rfl⟩

/-- An aborted prompt ends with its callback, and nothing is changed before. -/
theorem aborted_callback {world : World} {s : State} {r : Request} {result : Except Fault State}
    (h : Aborted libc replied world s r result) : ∃ s', s.Unchanged s' ∧ result = s'.callback libc replied world r.cb none := by
  rcases h with ⟨hsome, rfl⟩ | ⟨hnone, s₁, s₂, h₁, h₂, hcb, rfl⟩
  · obtain ⟨m, hm⟩ := Option.isSome_iff_exists.1 hsome
    refine ⟨s.putStatus (cstr "Already editing in minibuffer"), ⟨rfl, rfl, rfl, rfl, rfl⟩, ?_⟩
    rw [State.minibufferEdit, hm]
  · obtain ⟨hs₁, hcb₁⟩ := minibufferEdit_ok libc replied hnone h₁
    obtain ⟨s', hs', hend⟩ := doMinibufferExit_abort libc replied world (hcb.trans hcb₁)
    exact ⟨s', (hs₁.trans h₂).trans hs', hend⟩

/-- A callback that does not look changes something, or fails, in every state. -/
theorem not_unchanged_of_not_looks {cb : Callback} (h : ¬cb.Looks libc) (s : State) :
    ∃ world : World, ∀ s₁, s.Unchanged s₁ → ∀ s', s₁.callback libc replied world cb none = .ok s' → ¬s.Unchanged s' := by
  cases cb with
  | setBackupDirCb e =>
    obtain rfl := Option.not_isSome_iff_eq_none.1 h
    exact ⟨⟨[], none, [], none⟩, fun _ _ _ hs => nomatch hs⟩
  | doStringInsertRect e => exact ⟨⟨[], none, [], none⟩, fun _ _ _ hs => nomatch hs⟩
  | doQuerySymbolDirectory e =>
    -- the memory holds another string than the setting
    refine ⟨⟨[], none, [], some (0x61 :: s.cs.symdir.getD [])⟩, fun s₁ _ s' hs hu => ?_⟩
    have hcs := congrArg CscopeState.symdir hu.cscope
    rw [← Except.ok.inj hs] at hcs
    have hlen := congrArg (fun d => (d.getD []).length) hcs
    simp at hlen
  | _ => exact absurd trivial h

/-- Whether a command asks with a callback that looks. -/
def Command.Looks : Command → Prop
  | .queryStringInsertRect _ | .doCscopeSetSymbolDirectory _ => False
  | .doSetBackupDir _ => libc.isSome
  | _ => True

theorem parseArgs_cb {world : World} {s s₁ : State} {fuel : Nat} {es : ExecCmdState} {r : Request}
    (h : s.parseArgs world fuel es = some (s₁, r)) : ∃ es', r.cb = .argEditCb es' := by
  induction fuel generalizing es with
  | zero => nomatch h
  | succ fuel ih =>
    obtain ⟨parsed, -, h⟩ := Option.bind_eq_some_iff.1 h
    split at h
    · nomatch h
    · dsimp only at h
      split at h
      · obtain ⟨b, -, h⟩ := Option.map_eq_some_iff.1 h
        rw [← (Prod.mk.inj h).2]
        exact ⟨_, rfl⟩
      · exact ih h

/-- The callback of what a command asks for looks whenever the command does. -/
theorem asks_looks {c : Command} {world : World} {s s₁ : State} {r : Request} (h : c.asks world s = some (s₁, r)) :
    r.cb.Looks libc ↔ c.Looks libc := by
  cases c with
  | parseArgs es =>
    obtain ⟨es', hcb⟩ := parseArgs_cb h
    rw [hcb]
    exact Iff.rfl
  | doSetBackupDir e =>
    rw [← (Prod.mk.inj (Option.some.inj h)).2]
    exact Iff.rfl
  | doKillBuffer bufname =>
    obtain ⟨b, -, h⟩ := Option.bind_eq_some_iff.1 h
    split at h
    · rw [← (Prod.mk.inj (Option.some.inj h)).2]
      exact Iff.rfl
    · nomatch h
  | doSave e saveAs =>
    obtain ⟨b, -, h⟩ := Option.bind_eq_some_iff.1 h
    split at h
    · nomatch h
    · split at h
      · rw [← (Prod.mk.inj (Option.some.inj h)).2]
        exact Iff.rfl
      · nomatch h
  | quitExamineBuffers state modified i =>
    unfold Command.asks State.askQuit at h
    dsimp only at h
    split at h
    · rw [← (Prod.mk.inj (Option.some.inj h)).2]
      exact Iff.rfl
    · nomatch h
  | doCscopeOperation e op =>
    obtain ⟨symdir, -, h⟩ := Option.bind_eq_some_iff.1 h
    obtain ⟨text, -, h⟩ := Option.map_eq_some_iff.1 h
    rw [← (Prod.mk.inj h).2]
    exact Iff.rfl
  | doCscopeSetSymbolDirectory e =>
    rw [← (Prod.mk.inj (Option.some.inj h)).2]
    exact Iff.rfl
  | queryStringInsertRect e =>
    rw [← (Prod.mk.inj (Option.some.inj h)).2]
    exact Iff.rfl

/-- A command whose callback does not look asks in every state, without a change before it asks. -/
theorem asks_of_not_looks {c : Command} (h : ¬c.Looks libc) (world : World) (s : State) : ∃ r, c.asks world s = some (s, r) := by
  cases c with
  | doSetBackupDir e => exact ⟨_, rfl⟩
  | doCscopeSetSymbolDirectory e => exact ⟨_, rfl⟩
  | queryStringInsertRect e => exact ⟨_, rfl⟩
  | _ => exact absurd trivial h

/-- Every prompt can be aborted. -/
theorem exists_aborted (world : World) (s : State) (r : Request) : ∃ result, Aborted libc replied world s r result := by
  by_cases h : s.minibuffer.isSome
  · exact ⟨_, .inl ⟨h, rfl⟩⟩
  · have hnone := Option.not_isSome_iff_eq_none.1 h
    obtain ⟨s₁, h₁⟩ : ∃ s₁, s.minibufferEdit libc replied world r = .ok s₁ := by
      rw [State.minibufferEdit, hnone]
      exact ⟨_, rfl⟩
    exact ⟨_, .inr ⟨hnone, s₁, s₁, h₁, .refl s₁, rfl, rfl⟩⟩

/-- Aborting the prompt of a command changes nothing, in any state, exactly for the commands whose callback looks whether there is a
reply before it does anything. -/
theorem abort_changes_nothing_iff (c : Command) (s : State) : AbortChangesNothing libc replied c s ↔ c.Looks libc := by
  constructor
  · intro h
    by_contra hlooks
    obtain ⟨r, hr⟩ := asks_of_not_looks libc hlooks ⟨[], none, [], none⟩ s
    have hcb := fun hl => hlooks ((asks_looks libc hr).1 hl)
    obtain ⟨world, hworld⟩ := not_unchanged_of_not_looks libc replied hcb s
    obtain ⟨result, hresult⟩ := exists_aborted libc replied world s r
    obtain ⟨s₂, rfl, hu⟩ := h _ world s r hr result hresult
    obtain ⟨s', hs', hend⟩ := aborted_callback libc replied hresult
    exact hworld s' hs' s₂ hend.symm hu
  · intro hlooks world world' s₁ r hr result hresult
    obtain ⟨s', hs', rfl⟩ := aborted_callback libc replied hresult
    obtain ⟨s₂, h₂, hu⟩ := callback_unchanged libc replied ((asks_looks libc hr).2 hlooks) world' s'
    exact ⟨s₂, h₂, hs'.trans hu⟩

/-- A state with one window on one buffer. -/
def oneWindow : State where
  buffers :=
    [{ buffer := .new true, system := false, filename := [], bufferSave := none, ptr := 0, name := cstr "*scratch*", charset := .latin1 }]
  windows := [⟨0, 0⟩]
  activeWindow := some 0
  minibuffer := none
  histories := []
  lastSearchString := []
  cs := ⟨none, 0, none, none, none⟩
  gBackupDir := []
  status := []

/-- In a state with one window, the prompt of string-insert-rectangle is aborted: the length of the reply is taken, which is NULL. -/
theorem not_abort_changes_nothing : ¬∀ (libc : Option (List Byte)) (replied : State → Callback → List Byte → Except Fault State),
    libc.isSome → ∀ c s, AbortChangesNothing libc replied c s := by
  intro h
  have habort := h (some (cstr "(null)")) (fun s _ _ => .ok s) rfl (.queryStringInsertRect 0) oneWindow ⟨[], none, [], none⟩
    ⟨[], none, [], none⟩ oneWindow _ rfl (.error .null)
  obtain ⟨s₂, h₂, -⟩ := habort (.inr ⟨rfl, _, _, rfl, .refl _, rfl, rfl⟩)
  nomatch h₂

end Prompts

end Hoe
