import Hoe.MainLoop

/-!
# Shells in the main loop

The callbacks of shell.c and tty.c, with what they ask of the main loop. What the user types is a parameter (`Kernel`), and so are the
answers of the system: which descriptors are ready, the number of a new process and of its terminal, and which process has ended. What
the callbacks do to buffers and windows is not here.
-/

namespace Hoe

namespace MainLoop

/-- `ShellState`: the process and the descriptor of its terminal, both -1 when it has ended. -/
structure ShellProcess where
  pid : Int
  ptyFd : Int
deriving DecidableEq, Repr

/-- What a key asks: `new_shell_buffer`, the end of the buffer of a shell, `do_call_macro` and `url_exit`. -/
inductive UserCommand where
  | newShellBuffer
  | killBuffer (n : Nat)
  | callMacro
  | exit
deriving DecidableEq, Repr

/-- The callbacks: `qe_init`, `tty_read_handler`, `do_call_macro_bh`, and those of a shell. -/
inductive Callback where
  | qeInit
  | ttyReadHandler
  | doCallMacroBh
  | shellReadCb (n : Nat)
  | shellPidCb (n : Nat)
deriving DecidableEq, Repr

/-- The shells, where one that was freed has no `ShellState` any more, with the processes that are not waited for, the terminals that
are open, and those that have output in this round. The clock tells one turn from another. -/
structure World where
  clock : Nat
  shells : List (Option ShellProcess)
  children : List Int
  ptys : List Nat
  output : Nat → Bool

/-- The keys and the answers of the system: a new process has the number of no other one, its terminal is none that is open, and only
processes of the program are waited for. -/
structure Kernel where
  commands : World → List UserCommand
  select : (Way → Nat → Bool) → World → Way → Nat → Bool
  runProcess : World → Option (Nat × Nat)
  waitpid : World → Option (Int × Int)
  runProcess_new : ∀ w pid fd, runProcess w = some (pid, fd) → (pid : Int) ∉ w.children ∧ fd ∉ w.ptys ∧ fd ≠ 0
  waitpid_child : ∀ w pid status, waitpid w = some (pid, status) → pid ∈ w.children

namespace World

/-- Nothing has happened. -/
def start : World where
  clock := 0
  shells := []
  children := []
  ptys := []
  output := fun _ => false

/-- The `ShellState` of a shell. -/
def shell (w : World) (n : Nat) : Option ShellProcess := w.shells[n]?.join

/-- The next turn. -/
def tick (w : World) : World := { w with clock := w.clock + 1 }

/-- `shell_close`. The terminal is not closed. -/
def shellClose (w : World) (n : Nat) : Turn Callback World :=
  match w.shell n with
  | none => ⟨[], .ok w⟩
  | some s =>
    if s.pid ≠ -1 ∧ s.pid ∉ w.children then ⟨[], .error .hung⟩
    else
      ⟨if 0 ≤ s.ptyFd then [.setReadHandler s.ptyFd.toNat none] else [],
        .ok { w with shells := w.shells.set n none, children := if s.pid ≠ -1 then w.children.erase s.pid else w.children }⟩

/-- `shell_pid_cb`. -/
def shellPidCb (w : World) (n : Nat) : Turn Callback World :=
  match w.shell n with
  | none => ⟨[], .error .freed⟩
  | some s =>
    ⟨.setPidHandler s.pid none :: if 0 ≤ s.ptyFd then [.setReadHandler s.ptyFd.toNat none] else [],
      .ok { w with
        shells := w.shells.set n (some ⟨-1, -1⟩)
        ptys := if 0 ≤ s.ptyFd then w.ptys.erase s.ptyFd.toNat else w.ptys }⟩

end World

namespace Kernel

variable (k : Kernel)

/-- `new_shell_buffer`. Where there is no process, the buffer is freed again, and `shell_close` reads the descriptor that was not
stored. -/
def newShellBuffer (w : World) : Turn Callback World :=
  match k.runProcess w with
  | none => ⟨[], .error .unset⟩
  | some (pid, fd) =>
    ⟨[.setReadHandler fd (some (.shellReadCb w.shells.length)), .setPidHandler pid (some (.shellPidCb w.shells.length))],
      .ok { w with shells := w.shells ++ [some ⟨pid, fd⟩], children := pid :: w.children, ptys := fd :: w.ptys }⟩

/-- A command of the user. -/
def command (w : World) : UserCommand → Turn Callback World
  | .newShellBuffer => k.newShellBuffer w
  | .killBuffer n => w.shellClose n
  | .callMacro => ⟨[.registerBottomHalf .doCallMacroBh], .ok w⟩
  | .exit => ⟨[.urlExit], .ok w⟩

/-- The commands of a turn. -/
def runCommands (w : World) : List UserCommand → Turn Callback World
  | [] => ⟨[], .ok w⟩
  | cmd :: cmds => (k.command w.tick cmd).andThen fun w => runCommands w cmds

/-- What a callback does. -/
def body (cb : Callback) (w : World) : Turn Callback World :=
  match cb with
  | .qeInit => Turn.andThen ⟨[.setReadHandler 0 (some .ttyReadHandler)], .ok w⟩ fun w => k.runCommands w (k.commands w)
  | .ttyReadHandler => k.runCommands w (k.commands w)
  | .doCallMacroBh => k.runCommands w (k.commands w)
  | .shellReadCb n =>
    match w.shell n with
    | none => ⟨[], .error .freed⟩
    | some _ => ⟨[], .ok w⟩
  | .shellPidCb n => w.shellPidCb n

/-- The program around the main loop. -/
def client : Client Callback World where
  body := fun cb _ w => k.body cb w.tick
  select := fun fds w =>
    (k.select fds w, { w.tick with output := fun fd => fds .read fd && k.select fds w .read fd })
  waitpid := fun w =>
    match k.waitpid w with
    | none => (none, w.tick)
    | some (pid, status) => (some (pid, status), { w.tick with children := w.children.erase pid })

end Kernel

end MainLoop

end Hoe
