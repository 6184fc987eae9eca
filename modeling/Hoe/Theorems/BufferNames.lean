import Hoe.Lemmas.BufferNames

/-!
# Names identify buffers

A buffer that is not a system buffer is found under its name, in every state that the commands lead to, as long as no command switches
to a name that is cut off and no system buffer is made under the name of another buffer. The loop that makes a name unique always
ends.
-/

namespace Hoe

namespace BufferNames

/-- The buffers but the system buffers have different names and are found under them, and a buffer can be renamed. -/
structure Identifies (s : BufferNames) : Prop where
  distinct : ((s.buffers.filter fun b => !b.flags.system).map (·.name)).Nodup
  found : ∀ b ∈ s.buffers, b.flags.system = false → s.ebFind b.name = some b
  renames : ∀ (b : BufferPtr) (name : List Byte), ∃ turns,
    ((s.updateBuffer b fun c => { c with name := [] }).renameLoop (pstrcpy (256 - 10) name) turns 2 (pstrcpy (256 - 10) name)).isSome

/-- Switching to the name again leads to the same buffer. -/
def SwitchesBack (s : BufferNames) (name : List Byte) : Prop := ∀ (e e' : WindowPtr) (s₁ s₂ : BufferNames),
  s.doSwitchToBuffer e name = some s₁ → s₁.doSwitchToBuffer e' name = some s₂ → s₂.shows e' = s₁.shows e

instance (s : BufferNames) (name : List Byte) : Decidable (s.Free name) := by
  unfold Free
  infer_instance

/-- The name that a command switches to is not cut off, and the colors of a shell and the log of a text have a name of their own. -/
def Guard (s : BufferNames) : NameCommand → Prop
  | .switchToBuffer name => name.length ≤ 255
  | .shell _ => s.Free (cstr "*color*")
  | .edit b => ∀ c ∈ s.entry b, c.saveLog = true → c.logBuffer = none → s.Free (logName c.name)
  | _ => True

instance (s : BufferNames) : DecidablePred s.Guard
  | .switchToBuffer _ => inferInstanceAs (Decidable (_ ≤ _))
  | .shell _ => inferInstanceAs (Decidable (s.Free _))
  | .edit b => inferInstanceAs (Decidable (∀ c ∈ s.entry b, c.saveLog = true → c.logBuffer = none → s.Free (logName c.name)))
  | .findFile _ => .isTrue trivial
  | .findAlternateFile _ _ => .isTrue trivial
  | .writeFile _ _ => .isTrue trivial
  | .killBuffer _ _ => .isTrue trivial

/-- Every command of a run meets the condition in the state where it is given. -/
def Guarded (cwd : List Byte) (s : BufferNames) : List (WindowPtr × NameCommand) → Prop
  | [] => True
  | c :: cs => s.Guard c.2 ∧ ∀ s' ∈ s.step cwd c.1 c.2, Guarded cwd s' cs

instance decidableGuarded (cwd : List Byte) : ∀ (cs : List (WindowPtr × NameCommand)) (s : BufferNames), Decidable (Guarded cwd s cs)
  | [], _ => .isTrue trivial
  | _ :: cs, _ =>
    have := decidableGuarded cwd cs
    inferInstanceAs (Decidable (_ ∧ _))

/-- A command that meets its condition keeps the names different. -/
theorem NamesBut.step {cwd : List Byte} {s s' : BufferNames} (h : s.NamesBut none) {e : WindowPtr} {c : NameCommand} (hg : s.Guard c)
    (hs : s.step cwd e c = some s') : s'.NamesBut none := by
  cases c with
  | switchToBuffer name => exact h.doSwitchToBuffer hg hs
  | findFile filename => exact h.doLoad1 hs
  | findAlternateFile filename yes => exact h.doLoad1 hs
  | writeFile filename written => exact h.saveEditCb hs
  | shell launched => exact h.doShell hg hs
  | killBuffer name yes => exact h.doKillBuffer hs
  | edit b => exact h.ebAddlog hg hs

/-- So does a run of such commands. -/
theorem NamesBut.run {cwd : List Byte} {cs : List (WindowPtr × NameCommand)} {s s' : BufferNames} (h : s.NamesBut none)
    (hg : s.Guarded cwd cs) (hr : s.run cwd cs = some s') : s'.NamesBut none := by
  induction cs generalizing s with
  | nil =>
    rw [← Option.some.inj hr]
    exact h
  | cons c cs ih =>
    obtain ⟨s₁, h₁, hr⟩ := Option.bind_eq_some_iff.1 hr
    exact ih (h.step hg.1 h₁) (hg.2 s₁ h₁) hr

theorem namesBut_start : start.NamesBut none :=
  ⟨List.pairwise_singleton _ _, by decide, List.pairwise_singleton _ _⟩

/-- The invariant says that the buffers are found under their names. -/
theorem NamesBut.identifies {s : BufferNames} (h : s.NamesBut none) : s.Identifies := by
  have hnames : s.buffers.Pairwise fun c d => d.flags.system = false → c.name ≠ d.name :=
    h.names.imp fun hcd => hcd (Option.some_ne_none _) (Option.some_ne_none _)
  refine ⟨?_, ?_, ?_⟩
  · refine List.pairwise_map.2 ?_
    refine (hnames.sublist List.filter_sublist).imp_of_mem fun _ hd hcd => hcd ?_
    simpa using (List.mem_filter.1 hd).2
  · intro b hb hsys
    obtain ⟨l, r, hl⟩ := List.append_of_mem hb
    refine List.find?_eq_some_iff_append.2 ⟨beq_self_eq_true _, l, r, hl, fun c hc => ?_⟩
    rw [hl] at hnames
    have := (List.pairwise_append.1 hnames).2.2 c hc b List.mem_cons_self hsys
    simpa using this
  · exact fun b name => ⟨_, renameLoop_ends _ _⟩

/-- A name that is not cut off leads to the same buffer again: the one found first, or the one made then. -/
theorem switchesBack {s : BufferNames} {name : List Byte} (hlen : name.length ≤ 255) : s.SwitchesBack name := by
  intro e e' s₁ s₂ h₁ h₂
  have hcut : pstrcpy 256 name = name := List.take_of_length_le hlen
  have hagain : ∃ b, s₁.ebFind name = some b ∧ s₁.shows e = b.ptr := by
    unfold doSwitchToBuffer at h₁
    split at h₁
    next b hb =>
      obtain ⟨_, _, rfl⟩ := Option.map_eq_some_iff.1 h₁
      exact ⟨b, hb, Function.update_self _ _ _⟩
    next =>
      obtain ⟨_, _, rfl⟩ := Option.map_eq_some_iff.1 h₁
      refine ⟨_, List.find?_cons_of_pos ?_, Function.update_self _ _ _⟩
      simp [hcut]
  obtain ⟨b, hfind, hshows⟩ := hagain
  unfold doSwitchToBuffer at h₂
  rw [hfind] at h₂
  obtain ⟨_, _, rfl⟩ := Option.map_eq_some_iff.1 h₂
  rw [hshows]
  exact Function.update_self _ _ _

/-- In every state that guarded commands lead to, names identify buffers, and switching to a name that is not cut off leads to the
same buffer each time. -/
theorem names_identify {cwd : List Byte} {cs : List (WindowPtr × NameCommand)} {s : BufferNames} (hg : start.Guarded cwd cs)
    (hr : start.run cwd cs = some s) :
    s.Identifies ∧ ∀ name, s.Guard (.switchToBuffer name) → s.SwitchesBack name :=
  ⟨(namesBut_start.run hg hr).identifies, fun _ hname => switchesBack hname⟩

/-- A file whose name is taken, a shell, a file written under the name of the shell, and two buffers killed. -/
def someCommands : List (WindowPtr × NameCommand) :=
  [(0, .switchToBuffer (cstr "a")), (1, .findFile (cstr "/x/a")), (0, .edit 1), (0, .shell true), (1, .writeFile (cstr "*shell*") true),
    (0, .killBuffer (cstr "a") true), (0, .killBuffer (cstr "*shell*<2>") true)]

/-- A run that makes, renames and kills buffers. -/
theorem names_identify_someCommands : ∃ s, start.run (cstr "/") someCommands = some s ∧ s.Identifies ∧ s.SwitchesBack (cstr "a") := by
  have h : (start.run (cstr "/") someCommands).isSome := by decide +kernel
  obtain ⟨s, hs⟩ := Option.isSome_iff_exists.1 h
  obtain ⟨hi, hback⟩ := @names_identify (cstr "/") someCommands s (by decide +kernel) hs
  exact ⟨s, hs, hi, hback _ (Nat.le_of_ble_eq_true rfl)⟩

/-- A name with one character more than there is room for. -/
def longName : List Byte := List.replicate 256 0x61

/-- At the start already, switching twice to a name that is cut off leads to two buffers, of one name. -/
theorem not_names_identify : ¬∀ (cwd : List Byte) (cs : List (WindowPtr × NameCommand)) (s : BufferNames),
    start.run cwd cs = some s → s.Identifies ∧ ∀ name, s.SwitchesBack name := by
  intro h
  have hback := (h [] [] start rfl).2 longName 0 0
  have h₁ : (start.doSwitchToBuffer 0 longName).map (fun s => s.shows 0) = some 1 := by decide +kernel
  have h₂ : ((start.doSwitchToBuffer 0 longName).bind (·.doSwitchToBuffer 0 longName)).map (fun s => s.shows 0) = some 2 := by
    decide +kernel
  obtain ⟨s₁, e₁, h₁⟩ := Option.map_eq_some_iff.1 h₁
  rw [e₁] at h₂
  obtain ⟨s₂, e₂, h₂⟩ := Option.map_eq_some_iff.1 h₂
  have := hback s₁ s₂ e₁ e₂
  rw [h₁, h₂] at this
  nomatch this

end BufferNames

end Hoe
