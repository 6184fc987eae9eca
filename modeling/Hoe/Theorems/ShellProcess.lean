import Hoe.ShellProcess
import Hoe.Theorems.MainLoop

/-!
# Shells in any interleaving

Keys, output and the ends of processes may come in any order, and a process may get the number of an earlier one, whose callback is
still registered. No callback uses a `ShellState` that was freed. The handler of a descriptor is `NULL` when its turn comes only if
a key of the same round ended a shell that had output.
-/

namespace Hoe

namespace MainLoop

open Outcome

namespace Kernel

variable {k : Kernel} {a : Agenda Callback} {w : World} {n : Nat} {s : ShellProcess}

/-- The shell runs: its process is a child, and both callbacks are found. -/
structure Running (a : Agenda Callback) (w : World) (n : Nat) (s : ShellProcess) : Prop where
  child : s.pid ∈ w.children
  pidCb : a.pids.find? (fun p => p.1 == s.pid) = some (s.pid, .shellPidCb n)
  pty : ∃ fd : Nat, s.ptyFd = fd ∧ fd ≠ 0 ∧ fd ∈ w.ptys ∧ a.handlers .read fd = some (.shellReadCb n)

/-- What holds of the loop and of the shells between any two callbacks. -/
structure Holds (a : Agenda Callback) (w : World) : Prop where
  write : ∀ fd, a.handlers .write fd = none
  read : ∀ fd cb, a.handlers .read fd = some cb →
    (fd = 0 ∧ cb = .ttyReadHandler) ∨ ∃ n s, cb = .shellReadCb n ∧ w.shell n = some s ∧ s.ptyFd = fd
  queue : ∀ cb ∈ a.queue, cb = .doCallMacroBh
  shell : ∀ n s, w.shell n = some s → s = ⟨-1, -1⟩ ∨ Running a w n s
  child : ∀ pid ∈ w.children, 0 ≤ pid ∧ ∃ n s, w.shell n = some s ∧ s.pid = pid
  nodup : w.children.Nodup

/-! ## Shells -/

theorem shell_set_self {o : Option ShellProcess} (h : w.shell n = some s) : (w.shells.set n o)[n]?.join = o := by
  have hlt : n < w.shells.length := by
    by_contra hlt
    rw [World.shell, List.getElem?_eq_none (Nat.le_of_not_lt hlt)] at h
    cases h
  simp [List.getElem?_set_self hlt]

theorem shell_set_ne {o : Option ShellProcess} {m : Nat} (hne : m ≠ n) : (w.shells.set n o)[m]?.join = w.shell m := by
  rw [World.shell, List.getElem?_set_ne hne.symm]

/-- The last shell is new. -/
theorem shell_append {shells : List (Option ShellProcess)} {m : Nat} {s' : ShellProcess} :
    (shells ++ [some s])[m]?.join = some s' ↔ (m = shells.length ∧ s' = s) ∨ shells[m]?.join = some s' := by
  rcases Nat.lt_trichotomy m shells.length with hlt | rfl | hgt
  · rw [List.getElem?_append_left hlt]
    constructor
    · exact .inr
    · rintro (⟨rfl, -⟩ | h)
      · exact absurd hlt (Nat.lt_irrefl _)
      · exact h
  · simp [eq_comm]
  · have hlen : (shells ++ [some s]).length ≤ m := by simpa [Nat.succ_le_iff] using hgt
    rw [List.getElem?_eq_none hlen, List.getElem?_eq_none (Nat.le_of_lt hgt)]
    simp [Nat.ne_of_gt hgt]

/-- An entry of another process is found as before. -/
theorem find?_eraseP_of_ne {pids : List (Int × Callback)} {pid pid' : Int} (hne : pid' ≠ pid) :
    (pids.eraseP fun p => p.1 == pid).find? (fun p => p.1 == pid') = pids.find? fun p => p.1 == pid' := by
  induction pids with
  | nil => rfl
  | cons p pids ih =>
    by_cases hp : p.1 = pid
    · have hp' : ¬p.1 = pid' := fun heq => hne (heq.symm.trans hp)
      rw [List.eraseP_cons_of_pos (by simpa using hp), List.find?_cons_of_neg (by simpa using hp')]
    · rw [List.eraseP_cons_of_neg (by simpa using hp), List.find?_cons, List.find?_cons, ih]

namespace Holds

/-- A process belongs to one shell, and so does a terminal. -/
theorem running_unique (h : Holds a w) {m : Nat} {s' : ShellProcess} (hn : Running a w n s) (hm : w.shell m = some s')
    (heq : s'.pid = s.pid ∨ s'.ptyFd = s.ptyFd) : m = n := by
  obtain ⟨fd, hfd, -, -, hread⟩ := hn.pty
  have hpos := (h.child _ hn.child).1
  rcases h.shell m s' hm with rfl | hm
  · rcases heq with heq | heq
    · rw [← heq] at hpos
      exact absurd hpos (by simp)
    · rw [hfd] at heq
      exact absurd heq (by simp)
  · rcases heq with heq | heq
    · have hcb := hm.pidCb
      rw [heq, hn.pidCb] at hcb
      simpa using hcb.symm
    · obtain ⟨fd', hfd', -, -, hread'⟩ := hm.pty
      obtain rfl : fd' = fd := by
        rw [hfd, hfd'] at heq
        exact Int.ofNat.inj heq
      rw [hread] at hread'
      simpa using hread'.symm

theorem running (h : Holds a w) (hs : w.shell n = some s) (hpid : s.pid ≠ -1) : Running a w n s := by
  rcases h.shell n s hs with rfl | hrun
  · exact absurd rfl hpid
  · exact hrun

/-- The loop may have more in it that does not concern the shells. -/
theorem congr (h : Holds a w) {a' : Agenda Callback} {w' : World} (hhandlers : a'.handlers = a.handlers) (hpids : a'.pids = a.pids)
    (hqueue : ∀ cb ∈ a'.queue, cb = .doCallMacroBh) (hshells : w'.shells = w.shells) (hchildren : w'.children = w.children)
    (hptys : w'.ptys = w.ptys) : Holds a' w' := by
  have hshell : ∀ n, w'.shell n = w.shell n := fun n => by rw [World.shell, World.shell, hshells]
  refine ⟨hhandlers ▸ h.write, ?_, hqueue, ?_, ?_, hchildren ▸ h.nodup⟩
  · simpa only [hhandlers, hshell] using h.read
  · intro n s hs
    refine (h.shell n s (hshell n ▸ hs)).imp_right fun hrun => ⟨hchildren ▸ hrun.child, hpids ▸ hrun.pidCb, ?_⟩
    simpa only [hhandlers, hptys] using hrun.pty
  · simpa only [hchildren, hshell] using h.child

/-- A shell that has ended is freed. -/
theorem forget (h : Holds a w) (hs : w.shell n = some ⟨-1, -1⟩) : Holds a { w with shells := w.shells.set n none } := by
  have hother : ∀ {m s}, w.shell m = some s → s ≠ ⟨-1, -1⟩ → (w.shells.set n none)[m]?.join = some s := by
    intro m s hm hne
    have hmn : m ≠ n := by
      rintro rfl
      rw [hs] at hm
      exact hne (Option.some.inj hm).symm
    rw [shell_set_ne hmn, hm]
  refine ⟨h.write, ?_, h.queue, ?_, ?_, h.nodup⟩
  · intro fd cb hcb
    refine (h.read fd cb hcb).imp_right ?_
    rintro ⟨m, s, rfl, hm, hfd⟩
    refine ⟨m, s, rfl, hother hm ?_, hfd⟩
    rintro rfl
    simp at hfd
  · intro m s hm
    have hmn : m ≠ n := by
      rintro rfl
      have hnone := shell_set_self (o := none) hs
      simp only [World.shell] at hm
      rw [hnone] at hm
      cases hm
    exact (h.shell m s (by rwa [World.shell, shell_set_ne hmn] at hm)).imp_right fun hrun => ⟨hrun.child, hrun.pidCb, hrun.pty⟩
  · intro pid hpid
    obtain ⟨hpos, m, s, hm, rfl⟩ := h.child pid hpid
    refine ⟨hpos, m, s, hother hm ?_, rfl⟩
    rintro rfl
    simp at hpos

/-- A shell that runs goes out, with its process and its handler; what others have stays. -/
theorem drop (h : Holds a w) (hs : w.shell n = some s) (hrun : Running a w n s) {fd : Nat} (hfd : s.ptyFd = fd)
    {o : Option ShellProcess} (ho : ∀ s, o = some s → s = ⟨-1, -1⟩) {a' : Agenda Callback} {w' : World}
    (hhandlers : a'.handlers = Function.update a.handlers .read (Function.update (a.handlers .read) fd none))
    (hpids : ∀ pid, pid ≠ s.pid → a'.pids.find? (fun p => p.1 == pid) = a.pids.find? fun p => p.1 == pid)
    (hqueue : a'.queue = a.queue) (hshells : w'.shells = w.shells.set n o) (hchildren : w'.children = w.children.erase s.pid)
    (hptys : ∀ fd' ∈ w.ptys, fd' ≠ fd → fd' ∈ w'.ptys) : Holds a' w' := by
  have hself : w'.shell n = o := by
    rw [World.shell, hshells]
    exact shell_set_self hs
  have hother : ∀ {m}, m ≠ n → w'.shell m = w.shell m := fun hne => by
    rw [World.shell, hshells]
    exact shell_set_ne hne
  refine ⟨fun fd' => ?_, ?_, hqueue ▸ h.queue, ?_, ?_, hchildren ▸ h.nodup.erase s.pid⟩
  · rw [hhandlers]
    simpa using h.write fd'
  · intro fd' cb hcb
    simp only [hhandlers, Function.update_self] at hcb
    by_cases hne : fd' = fd
    · simp [hne] at hcb
    · rw [Function.update_of_ne hne] at hcb
      refine (h.read fd' cb hcb).imp_right ?_
      rintro ⟨m, s', rfl, hm, hfd'⟩
      refine ⟨m, s', rfl, ?_, hfd'⟩
      rw [hother, hm]
      rintro rfl
      rw [hs] at hm
      obtain rfl := Option.some.inj hm
      exact hne (Int.ofNat.inj (hfd'.symm.trans hfd))
  · intro m s' hm
    by_cases hmn : m = n
    · subst hmn
      exact .inl (ho s' (hself.symm.trans hm))
    · rw [hother hmn] at hm
      refine (h.shell m s' hm).imp_right fun hrun' => ?_
      have hpid : s'.pid ≠ s.pid := fun heq => hmn (h.running_unique hrun hm (.inl heq))
      obtain ⟨fd', hfd', hpos, hopen, hread⟩ := hrun'.pty
      have hne : fd' ≠ fd := by
        rintro rfl
        exact hmn (h.running_unique hrun hm (.inr (hfd'.trans hfd.symm)))
      refine ⟨?_, (hpids _ hpid).trans hrun'.pidCb, fd', hfd', hpos, hptys fd' hopen hne, ?_⟩
      · rw [hchildren]
        exact (List.mem_erase_of_ne hpid).2 hrun'.child
      · rw [hhandlers]
        simpa [hne] using hread
  · intro pid hpid
    rw [hchildren] at hpid
    have hne : pid ≠ s.pid := (h.nodup.mem_erase_iff.1 hpid).1
    obtain ⟨hpos, m, s', hm, rfl⟩ := h.child pid (List.mem_of_mem_erase hpid)
    refine ⟨hpos, m, s', ?_, rfl⟩
    rw [hother, hm]
    rintro rfl
    rw [hs] at hm
    exact hne (congrArg ShellProcess.pid (Option.some.inj hm)).symm

/-- A new shell. -/
theorem add (h : Holds a w) {pid fd : Nat} (hpid : (pid : Int) ∉ w.children) (hfd : fd ∉ w.ptys) (hfd0 : fd ≠ 0)
    {a' : Agenda Callback} {w' : World}
    (hhandlers : a'.handlers =
      Function.update a.handlers .read (Function.update (a.handlers .read) fd (some (.shellReadCb w.shells.length))))
    (hpids : a'.pids = (↑pid, .shellPidCb w.shells.length) :: a.pids) (hqueue : a'.queue = a.queue)
    (hshells : w'.shells = w.shells ++ [some ⟨pid, fd⟩]) (hchildren : w'.children = ↑pid :: w.children)
    (hptys : w'.ptys = fd :: w.ptys) : Holds a' w' := by
  have hshell : ∀ {m s'}, w'.shell m = some s' ↔ (m = w.shells.length ∧ s' = ⟨pid, fd⟩) ∨ w.shell m = some s' := by
    intro m s'
    rw [World.shell, hshells]
    exact shell_append
  refine ⟨fun fd' => ?_, ?_, hqueue ▸ h.queue, ?_, ?_, hchildren ▸ List.nodup_cons.2 ⟨hpid, h.nodup⟩⟩
  · rw [hhandlers]
    simpa using h.write fd'
  · intro fd' cb hcb
    simp only [hhandlers, Function.update_self] at hcb
    by_cases hne : fd' = fd
    · subst hne
      rw [Function.update_self] at hcb
      exact .inr ⟨w.shells.length, ⟨pid, fd'⟩, (Option.some.inj hcb).symm, hshell.2 (.inl ⟨rfl, rfl⟩), rfl⟩
    · rw [Function.update_of_ne hne] at hcb
      exact (h.read fd' cb hcb).imp_right fun ⟨m, s', hcb, hm, hfd'⟩ => ⟨m, s', hcb, hshell.2 (.inr hm), hfd'⟩
  · intro m s' hm
    rcases hshell.1 hm with ⟨rfl, rfl⟩ | hm
    · refine .inr ⟨?_, ?_, fd, rfl, hfd0, ?_, ?_⟩
      · simp [hchildren]
      · simp [hpids]
      · simp [hptys]
      · simp [hhandlers]
    · refine (h.shell m s' hm).imp_right fun hrun => ?_
      obtain ⟨fd', hfd', hpos, hopen, hread⟩ := hrun.pty
      have hne : fd' ≠ fd := fun heq => hfd (heq ▸ hopen)
      have hpid' : ¬(pid : Int) = s'.pid := fun heq => hpid (heq ▸ hrun.child)
      refine ⟨?_, ?_, fd', hfd', hpos, ?_, ?_⟩
      · rw [hchildren]
        exact List.mem_cons_of_mem _ hrun.child
      · rw [hpids, List.find?_cons_of_neg (by simpa using hpid')]
        exact hrun.pidCb
      · rw [hptys]
        exact List.mem_cons_of_mem _ hopen
      · rw [hhandlers]
        simpa [hne] using hread
  · intro pid' hpid'
    rw [hchildren] at hpid'
    rcases List.mem_cons.1 hpid' with rfl | hmem
    · exact ⟨Int.natCast_nonneg pid, _, _, hshell.2 (.inl ⟨rfl, rfl⟩), rfl⟩
    · obtain ⟨hpos, m, s', hm, heq⟩ := h.child pid' hmem
      exact ⟨hpos, m, s', hshell.2 (.inr hm), heq⟩

end Holds

/-! ## Turns -/

/-- The descriptors that are ready have handlers, and those of shells are known to have output. -/
structure Calm (ready : Way → Nat → Bool) (a : Agenda Callback) (w : World) : Prop where
  handler : ∀ way fd, ready way fd = true → a.handlers way fd ≠ none
  output : ∀ fd, ready .read fd = true → w.output fd = true

/-- The commands end no shell whose terminal is ready. -/
def Spares (ready : Way → Nat → Bool) (w : World) (cmds : List UserCommand) : Prop :=
  ∀ n s, .killBuffer n ∈ cmds → w.shell n = some s → ∀ fd : Nat, s.ptyFd = fd → ready .read fd = false

/-- The system is out of processes or terminals, or there are too many of these for `url_handlers`. -/
def Exhausted (f : LoopFault) : Prop := f = .outside ∨ f = .unset

theorem setHandler_cases (way : Way) (fd : Nat) (cb : Option Callback) :
    a.setHandler way fd cb = .error .outside ∨ ∃ fdmax, a.setHandler way fd cb = .ok { a with
      handlers := Function.update a.handlers way (Function.update (a.handlers way) fd cb)
      fdmax := fdmax } := by
  rw [Agenda.setHandler]
  split
  · exact .inr ⟨_, rfl⟩
  · exact .inl rfl

/-- What a command keeps: the shells are in order, and the descriptors that are ready still have handlers when no shell is ended that
has output. -/
def Kept (a : Agenda Callback) (w : World) (p : Agenda Callback × World) : Prop :=
  Holds p.1 p.2 ∧ ∀ ready cmds cmd, Calm ready a w → Spares ready w (cmd :: cmds) → Calm ready p.1 p.2 ∧ Spares ready p.2 cmds

theorem Spares.tail {ready : Way → Nat → Bool} {cmd : UserCommand} {cmds : List UserCommand} (h : Spares ready w (cmd :: cmds)) :
    Spares ready w cmds := fun n s hmem => h n s (List.mem_cons_of_mem cmd hmem)

/-- A new shell has a terminal that is not ready. -/
theorem newShellBuffer_ends (k : Kernel) (h : Holds a w) : Ends (Kept a w) Exhausted (a.perform (k.newShellBuffer w)) := by
  rw [newShellBuffer]
  cases hrun : k.runProcess w with
  | none => exact .inr rfl
  | some r =>
    obtain ⟨pid, fd⟩ := r
    obtain ⟨hpid, hfd, hfd0⟩ := k.runProcess_new w pid fd hrun
    simp only [Agenda.perform, Agenda.askAll, Agenda.ask, Except.bind]
    rcases setHandler_cases (a := a) .read fd (some (.shellReadCb w.shells.length)) with herr | ⟨fdmax, hok⟩
    · rw [herr]
      exact .inl rfl
    · rw [hok]
      refine ⟨h.add hpid hfd hfd0 rfl rfl rfl rfl rfl rfl, fun ready cmds cmd hcalm hspares => ⟨⟨?_, hcalm.output⟩, ?_⟩⟩
      · intro way fd' hready
        have hwas := hcalm.handler way fd' hready
        by_cases hway : way = .read
        · subst hway
          by_cases hne : fd' = fd
          · simp [hne]
          · simpa [hne] using hwas
        · simpa [hway] using hwas
      · intro m s' hmem hm fd' hfd'
        rcases shell_append.1 hm with ⟨-, rfl⟩ | hm
        · obtain rfl : fd = fd' := Int.ofNat.inj hfd'
          by_contra hready
          obtain ⟨cb, hcb⟩ := Option.ne_none_iff_exists'.1 (hcalm.handler .read fd (Bool.eq_true_of_not_eq_false hready))
          rcases h.read fd cb hcb with ⟨rfl, -⟩ | ⟨m', s, -, hm', hfds⟩
          · exact hfd0 rfl
          · rcases h.shell m' s hm' with rfl | hrun'
            · simp at hfds
            · obtain ⟨fd', hfd', -, hopen, -⟩ := hrun'.pty
              obtain rfl : fd = fd' := Int.ofNat.inj (hfds.symm.trans hfd')
              exact hfd hopen
        · exact hspares.tail m s' hmem hm fd' hfd'

/-- A shell that ends takes its handler along. -/
theorem shellClose_ends (h : Holds a w) (n : Nat) :
    Ends (fun p => Holds p.1 p.2 ∧ ∀ ready cmds, Calm ready a w → Spares ready w (.killBuffer n :: cmds) →
      Calm ready p.1 p.2 ∧ Spares ready p.2 cmds) Exhausted (a.perform (w.shellClose n)) := by
  rw [World.shellClose]
  cases hs : w.shell n with
  | none => exact ⟨h, fun ready cmds hcalm hspares => ⟨hcalm, hspares.tail⟩⟩
  | some s =>
    -- the shells that are left were there before
    have hfewer : ∀ {ready cmds w'}, w'.shells = w.shells.set n none → Spares ready w (.killBuffer n :: cmds) →
        Spares ready w' cmds := by
      intro ready cmds w' hshells hspares m s' hmem hm
      rw [World.shell, hshells] at hm
      have hmn : m ≠ n := by
        rintro rfl
        rw [shell_set_self hs] at hm
        cases hm
      rw [shell_set_ne hmn] at hm
      exact hspares.tail m s' hmem hm
    rcases h.shell n s hs with rfl | hrun
    · exact ⟨h.forget hs, fun ready cmds hcalm hspares => ⟨⟨hcalm.handler, hcalm.output⟩, hfewer rfl hspares⟩⟩
    · obtain ⟨fd, hfd, hfd0, hopen, hread⟩ := hrun.pty
      have hpid : s.pid ≠ -1 := fun heq => absurd (h.child _ hrun.child).1 (by simp [heq])
      have hpos : 0 ≤ s.ptyFd := hfd ▸ Int.natCast_nonneg fd
      have hnat : s.ptyFd.toNat = fd := by simp [hfd]
      simp only [hrun.child, not_true_eq_false, and_false, if_false, hpos, if_true, hpid, hnat, ne_eq, not_false_eq_true, Agenda.perform,
        Agenda.askAll, Agenda.ask, Except.bind]
      rcases setHandler_cases (a := a) .read fd none with herr | ⟨fdmax, hok⟩
      · rw [herr]
        exact .inl rfl
      · rw [hok]
        refine ⟨h.drop hs hrun hfd (o := none) (by simp) rfl (fun _ _ => rfl) rfl rfl rfl fun _ hopen _ => hopen,
          fun ready cmds hcalm hspares => ⟨⟨?_, hcalm.output⟩, hfewer rfl hspares⟩⟩
        intro way fd' hready
        have hwas := hcalm.handler way fd' hready
        by_cases hway : way = .read
        · subst hway
          by_cases hne : fd' = fd
          · subst hne
            have hnot := hspares n s List.mem_cons_self hs fd' hfd
            rw [hready] at hnot
            cases hnot
          · simpa [hne] using hwas
        · simpa [hway] using hwas

theorem command_ends (k : Kernel) (h : Holds a w) (cmd : UserCommand) :
    Ends (fun p => Holds p.1 p.2 ∧ ∀ ready cmds, Calm ready a w → Spares ready w (cmd :: cmds) →
      Calm ready p.1 p.2 ∧ Spares ready p.2 cmds) Exhausted (a.perform (k.command w cmd)) := by
  cases cmd with
  | newShellBuffer =>
    exact (newShellBuffer_ends k h).mono (fun p hp => ⟨hp.1, fun ready cmds => hp.2 ready cmds .newShellBuffer⟩) fun _ hf => hf
  | killBuffer n => exact shellClose_ends h n
  | callMacro =>
    refine ⟨h.congr rfl rfl ?_ rfl rfl rfl, fun ready cmds hcalm hspares => ⟨⟨hcalm.handler, hcalm.output⟩, hspares.tail⟩⟩
    intro cb hcb
    rcases List.mem_cons.1 hcb with rfl | hmem
    · rfl
    · exact h.queue cb hmem
  | exit =>
    exact ⟨h.congr rfl rfl h.queue rfl rfl rfl, fun ready cmds hcalm hspares => ⟨⟨hcalm.handler, hcalm.output⟩, hspares.tail⟩⟩

theorem askAll_append (a : Agenda Callback) (cs cs' : List (LoopCall Callback)) :
    a.askAll (cs ++ cs') = (a.askAll cs).bind fun a => a.askAll cs' := by
  induction cs generalizing a with
  | nil => rfl
  | cons c cs ih =>
    rw [List.cons_append, Agenda.askAll, Agenda.askAll]
    cases a.ask c with
    | error e => rfl
    | ok a' => exact ih a'

theorem perform_andThen (a : Agenda Callback) (t : Turn Callback World) (f : World → Turn Callback World) :
    a.perform (t.andThen f) = (a.perform t).bind fun p => p.1.perform (f p.2) := by
  obtain ⟨cs, _ | w⟩ := t
  · simp only [Turn.andThen, Agenda.perform]
    cases a.askAll cs <;> rfl
  · simp only [Turn.andThen, Agenda.perform, askAll_append]
    cases a.askAll cs <;> rfl

/-- The commands of a turn keep what each of them keeps. -/
theorem runCommands_ends (k : Kernel) (h : Holds a w) (cmds : List UserCommand) :
    Ends (fun p => Holds p.1 p.2 ∧ ∀ ready, Calm ready a w → Spares ready w cmds → Calm ready p.1 p.2) Exhausted
      (a.perform (k.runCommands w cmds)) := by
  induction cmds generalizing a w with
  | nil => exact ⟨h, fun ready hcalm _ => hcalm⟩
  | cons cmd cmds ih =>
    rw [runCommands, perform_andThen]
    have htick : Holds a w.tick := h.congr rfl rfl h.queue rfl rfl rfl
    refine (command_ends k htick cmd).bind fun p _ hp => (ih hp.1).mono (fun p' hp' => ⟨hp'.1, fun ready hcalm hspares => ?_⟩) ?_
    · obtain ⟨hcalm', hspares'⟩ := hp.2 ready cmds ⟨hcalm.handler, hcalm.output⟩ hspares
      exact hp'.2 ready hcalm' hspares'
    · exact fun _ hf => hf

/-! ## Runs -/

/-- No key ends a shell that has output in this round. -/
def Careful (k : Kernel) : Prop :=
  ∀ w n s, .killBuffer n ∈ k.commands w → w.shell n = some s → ∀ fd : Nat, s.ptyFd = fd → w.output fd = false

/-- What holds between two callbacks: the shells are in order, and where the keys are careful, every descriptor that is ready has a
handler. -/
def Between (k : Kernel) (ready : Way → Nat → Bool) (s : Agenda Callback × World) : Prop :=
  Holds s.1 s.2 ∧ (k.Careful → Calm ready s.1 s.2)

/-- How the loop may end too early. -/
def Early (k : Kernel) (f : LoopFault) : Prop := Exhausted f ∨ f = .cut ∨ f = .null ∧ ¬k.Careful

variable {ready : Way → Nat → Bool}

theorem calm_waiting (a : Agenda Callback) (w : World) : Calm (fun _ _ => false) a w := ⟨by simp, by simp⟩

theorem Between.tick (h : k.Between ready (a, w)) : k.Between ready (a, w.tick) :=
  ⟨h.1.congr rfl rfl h.1.queue rfl rfl rfl, fun hk => ⟨(h.2 hk).handler, (h.2 hk).output⟩⟩

/-- The keys that are read, or those of the macro. -/
theorem Between.commands (h : k.Between ready (a, w)) :
    Ends (k.Between ready) k.Early (a.perform (k.runCommands w (k.commands w))) := by
  refine (runCommands_ends k h.1 (k.commands w)).mono (fun p hp => ⟨hp.1, fun hk => hp.2 ready (h.2 hk) ?_⟩) fun _ hf => .inl hf
  intro n s hmem hs fd hfd
  by_contra hready
  have hout := (h.2 hk).output fd (Bool.eq_true_of_not_eq_false hready)
  rw [hk w n s hmem hs fd hfd] at hout
  cases hout

/-- The process of a shell has ended. -/
theorem shellPidCb_ends (h : Holds a w) (hs : w.shell n = some s) (hrun : Running a w n s) (w' : World)
    (hshells : w'.shells = w.shells) (hchildren : w'.children = w.children.erase s.pid) (hptys : w'.ptys = w.ptys) :
    Ends (fun p => Holds p.1 p.2) Exhausted (a.perform (w'.shellPidCb n)) := by
  obtain ⟨fd, hfd, hfd0, hopen, hread⟩ := hrun.pty
  have hs' : w'.shell n = some s := by rw [World.shell, hshells, ← World.shell, hs]
  have hpos : 0 ≤ s.ptyFd := hfd ▸ Int.natCast_nonneg fd
  have hnat : s.ptyFd.toNat = fd := by simp [hfd]
  simp only [World.shellPidCb, hs', hpos, if_true, hnat, Agenda.perform, Agenda.askAll, Agenda.ask, Except.bind]
  rcases setHandler_cases (a := { a with pids := a.pids.eraseP fun p => p.1 == s.pid }) .read fd none with herr | ⟨fdmax, hok⟩
  · rw [herr]
    exact .inl rfl
  · rw [hok]
    refine h.drop hs hrun hfd (o := some ⟨-1, -1⟩) (fun s' hs' => (Option.some.inj hs').symm) rfl
      (fun pid hne => find?_eraseP_of_ne hne) rfl (by rw [hshells]) hchildren fun fd' hopen' hne => ?_
    rw [hptys]
    exact (List.mem_erase_of_ne hne).2 hopen'

/-- Each callback finds the shells in order and leaves them so. -/
theorem client_sound (k : Kernel) : k.client.Sound k.Between k.Early := by
  refine ⟨.inr (.inl rfl), ?_, ?_, ?_, ?_, ?_, ?_⟩
  · intro a w h
    refine ⟨h.1.congr rfl rfl h.1.queue rfl rfl rfl, fun _ => ⟨?_, fun fd hready => hready⟩⟩
    intro way fd hready hnone
    have hfds : (a.handlers way fd).isSome = true := (Bool.and_eq_true_iff.1 hready).1
    rw [show a.handlers way fd = none from hnone] at hfds
    cases hfds
  · intro ready s h
    exact ⟨h.1, fun _ => calm_waiting s.1 s.2⟩
  · intro ready way i s h hready
    refine ⟨fun hnone => .inr (.inr ⟨rfl, fun hk => (h.2 hk).handler way i hready hnone⟩), fun cb hcb => ?_⟩
    cases way with
    | write =>
      rw [h.1.write i] at hcb
      cases hcb
    | read =>
      rcases h.1.read i cb hcb with ⟨-, rfl⟩ | ⟨n, sh, rfl, hsh, -⟩
      · exact h.tick.commands
      · have hturn : k.body (.shellReadCb n) s.2.tick = ⟨[], .ok s.2.tick⟩ := by
          simp only [body, show s.2.tick.shell n = some sh from hsh]
        change Ends _ _ (s.1.perform (k.body (.shellReadCb n) s.2.tick))
        rw [hturn]
        exact h.tick
  · intro ready a w q cb h hq
    obtain rfl := h.1.queue cb (by simp [hq])
    have hq' : k.Between ready ({ a with queue := q, trace := a.trace ++ [.called .doCallMacroBh] }, w) :=
      ⟨h.1.congr rfl rfl (fun cb hcb => h.1.queue cb (by simp [hq, hcb])) rfl rfl rfl,
        fun hk => ⟨(h.2 hk).handler, (h.2 hk).output⟩⟩
    exact hq'.tick.commands
  · intro a w w' h hwait
    simp only [client] at hwait
    split at hwait <;> cases hwait
    exact h.tick
  · intro a w w' pid status h _ hwait
    simp only [client] at hwait
    split at hwait <;> cases hwait
    rename_i hwait
    obtain ⟨hpos, n, s, hs, rfl⟩ := h.1.child pid (k.waitpid_child w pid status hwait)
    have hrun : Running a w n s := h.1.running hs fun heq => absurd hpos (by simp [heq])
    refine ⟨fun hnone => ?_, fun p hp => ?_⟩
    · rw [hrun.pidCb] at hnone
      cases hnone
    · obtain rfl : (s.pid, Callback.shellPidCb n) = p := Option.some.inj (hrun.pidCb.symm.trans hp)
      exact (shellPidCb_ends h.1 hs hrun ({ w.tick with children := w.children.erase s.pid } : World).tick rfl rfl rfl).mono
        (fun p' hp' => ⟨hp', fun _ => calm_waiting p'.1 p'.2⟩) fun _ hf => .inl hf

/-- `qe_init` registers the keyboard, and runs what the configuration asks for. -/
theorem qeInit_ends (k : Kernel) :
    Ends (k.Between fun _ _ => false) k.Early (k.client.serve .qeInit 0 (Agenda.start, World.start)) := by
  change Ends _ _ (Agenda.start.perform (Turn.andThen _ _))
  rw [perform_andThen]
  refine Between.commands ⟨⟨fun _ => rfl, ?_, ?_, ?_, ?_, List.nodup_nil⟩, fun _ => calm_waiting _ _⟩
  · intro fd cb hcb
    by_cases hfd : fd = 0
    · subst hfd
      exact .inl ⟨rfl, (Option.some.inj hcb).symm⟩
    · simp [Agenda.start, hfd] at hcb
  · intro cb hcb
    cases hcb
  · intro n s hs
    simp [World.shell, World.tick, World.start] at hs
  · intro pid hpid
    cases hpid

/-- Whatever is typed, and in whatever order there is output and processes end, the callback of a shell finds its `ShellState`, and a
process that is waited for is one of the program. -/
theorem shells_inOrder (k : Kernel) (fuel n : Nat) :
    Ends (fun s => ∃ a, s.1.Shows [] a ∧ Holds a s.2) (fun f => f = .null ∨ f = .outside ∨ f = .unset ∨ f = .cut)
      (k.client.urlMainLoop fuel n .qeInit World.start) := by
  refine (k.client_sound.urlMainLoop fuel n .qeInit World.start k.qeInit_ends).mono ?_ ?_
  · rintro s ⟨a, hshows, h, -⟩
    exact ⟨a, hshows, h⟩
  · rintro f ((rfl | rfl) | rfl | ⟨rfl, -⟩) <;> simp

/-- No handler is `NULL` when its turn comes, as long as no key ends a shell that has output in the round of the key. -/
theorem shells_spared (k : Kernel) (hk : k.Careful) (fuel n : Nat) :
    Ends (fun _ => True) (· ≠ .null) (k.client.urlMainLoop fuel n .qeInit World.start) := by
  refine (k.client_sound.urlMainLoop fuel n .qeInit World.start k.qeInit_ends).mono (fun _ _ => trivial) ?_
  rintro f ((rfl | rfl) | rfl | ⟨-, hnot⟩)
  · simp
  · simp
  · simp
  · exact absurd hk hnot

/-- A system with one process, which does not end by itself, and one terminal. A key is always there, and output of the process in the
first round only. -/
def single (commands : World → List UserCommand) : Kernel where
  commands := commands
  select := fun _ w _ fd => fd == 0 || decide (w.clock ≤ 2)
  runProcess := fun w => if w.children = [] ∧ w.ptys = [] then some (7, 3) else none
  waitpid := fun _ => none
  runProcess_new := by
    intro w pid fd h
    split at h
    case isTrue hnil =>
      obtain ⟨rfl, rfl⟩ : 7 = pid ∧ 3 = fd := by simpa using h
      simp [hnil]
    case isFalse => cases h
  waitpid_child := by
    intro w pid status h
    cases h

/-- A shell is started, and ended by the first key that comes without output of it. -/
def patient (w : World) : List UserCommand :=
  if w.clock = 1 then [.newShellBuffer]
  else if (w.shell 0).any fun s => w.output s.ptyFd.toNat then []
  else [.killBuffer 0, .exit]

theorem shells_spared_patient :
    Ends (fun _ => True) (· ≠ .null) ((single patient).client.urlMainLoop 9 9 .qeInit World.start) ∧
      ((single patient).client.urlMainLoop 9 9 .qeInit World.start).map (fun s => (s.1.exitRequest, s.2.shells)) = .ok (true, [none]) := by
  refine ⟨shells_spared (single patient) ?_ 9 9, rfl⟩
  intro w n s hmem hs fd hfd
  simp only [single, patient] at hmem
  split at hmem
  · simp at hmem
  · split at hmem
    · simp at hmem
    case isFalse hnot =>
      obtain rfl : n = 0 := by simpa using hmem
      simpa [hs, hfd] using hnot

-- a shell is ended by a key while it has output
example : ((single fun w => if w.clock = 1 then [.newShellBuffer] else [.killBuffer 0]).client.urlMainLoop 9 9 .qeInit World.start) =
    .error .null := rfl

end Kernel

end MainLoop

end Hoe
