import Hoe.KeyProcess
import Hoe.Paths

/-!
# The minibuffer

Completion and history in the minibuffer of qe.c. A candidate is a string in memory of its own: what is read of it has to be one of its
bytes or the zero behind them, else the result is none. What the completion functions do to arrays that are too short is not a part of
it.
-/

namespace Hoe

namespace Minibuffer

/-- A string constant of C ends at its first zero. -/
def cString (s : List Byte) : List Byte := s.takeWhile (· != 0)

/-- `eb_get_str`, into an array of a size. -/
def ebGetStr (bufSize : Nat) (text : List Byte) : List Byte := text.take (bufSize - 1)

/-- `add_string`. -/
def addString (cs : List (List Byte)) (str : List Byte) : List (List Byte) := cs ++ [cString str]

/-- `set_string`. -/
def setString (cs : List (List Byte)) (index : Nat) (str : List Byte) : List (List Byte) := cs.set index (cString str)

/-! ## Completion functions -/

/-- What the completion functions look at: the names of the commands, the buffers and the charsets, the directories, and what `stat` and
`fnmatch` say. A buffer has its name, and whether it is of the system. -/
structure World where
  commands : List (List Byte)
  buffers : List (List Byte × Bool)
  charsets : List (List Byte)
  readdir : List Byte → Option (List (List Byte))
  isDir : List Byte → Bool
  fnmatch : List Byte → List Byte → Bool

/-- The names that begin with the input: `strncmp` compares as many bytes as that has. -/
def namesWith (input : List Byte) (names : List (List Byte)) : List (List Byte) :=
  (names.filter (input.isPrefixOf ·)).foldl addString []

/-- `command_completion`. -/
def commandCompletion (w : World) (input : List Byte) : List (List Byte) := namesWith input w.commands

/-- `buffer_completion`. -/
def bufferCompletion (w : World) (input : List Byte) : List (List Byte) :=
  namesWith input ((w.buffers.filter fun b => !b.2).map (·.1))

/-- `charset_completion`. -/
def charsetCompletion (w : World) (input : List Byte) : List (List Byte) := namesWith input w.charsets

/-- The directories of a path, which colons separate. -/
def pathDirs (path : List Byte) : List (List Byte) :=
  let dirs := path.splitOn colon
  if dirs.getLast? = some [] then dirs.dropLast else dirs

/-- The files that `find_file_next` finds. -/
def findFiles (w : World) (path pattern : List Byte) : List (List Byte) :=
  (pathDirs path).flatMap fun dir => (((w.readdir dir).getD []).filter (w.fnmatch pattern)).map fun name => dir ++ slash :: name

/-- How much of the input is the path. -/
def inputPathLen (input : List Byte) : Nat := ((strrchr input slash).map (· + 1)).getD 0

/-- `file_completion`. -/
def fileCompletion (w : World) (input : List Byte) : List (List Byte) :=
  let n := inputPathLen input
  let path := if n = 0 then cstr "." else input.take n
  (findFiles w path ((input.drop n ++ cstr "*").take 1023)).foldl (fun cs filename =>
    let file := input.take n ++ qeBasename filename
    addString cs (if w.isDir file then file ++ [slash] else file)) []

/-- The completion functions. -/
inductive Completion where
  | command
  | buffer
  | charset
  | file
deriving DecidableEq, Repr

/-- The candidates of a completion function for an input. -/
def Completion.candidates (w : World) : Completion → List Byte → List (List Byte)
  | .command => commandCompletion w
  | .buffer => bufferCompletion w
  | .charset => charsetCompletion w
  | .file => fileCompletion w

/-! ## The state -/

/-- The popup with candidates: its lines, the line that the cursor is on, and whether that is highlighted. -/
structure Popup where
  lines : List (List Byte)
  selected : List Byte
  forceHighlight : Bool
deriving DecidableEq, Repr

/-- The window of the minibuffer, with its text, and the variables that belong to it; whether the command before was `do_history`. -/
structure Minibuf where
  text : List Byte
  offset : Nat
  completion : Option Completion
  popup : Option Popup
  history : Option (List (List Byte))
  historyIndex : Int
  savedOffset : Nat
  lastCmdHistory : Bool
deriving DecidableEq, Repr

/-! ## Completing -/

/-- A byte of a string, or the zero behind it; none behind that. -/
def charAt (s : List Byte) (n : Nat) : Option Byte := (s ++ [0])[n]?

/-- The loop over the other candidates, which compares their bytes at a position with that of the first one. -/
def allHave (c : Byte) (n : Nat) : List (List Byte) → Option Bool
  | [] => some true
  | o :: outputs => (charAt o n).bind fun d => if d ≠ c then some false else allHave c n outputs

/-- The loop that makes the match longer, from a length on; a turn for each byte of the first candidate is enough. -/
def matchLoop (first : List Byte) (others : List (List Byte)) : Nat → Nat → Option Nat
  | 0, n => some n
  | turns + 1, n =>
    (charAt first n).bind fun c =>
      if c = 0 then some n
      else (allHave c n others).bind fun all => if all then matchLoop first others turns (n + 1) else some n

/-- The length that the candidates have in common, when they have the input in common. -/
def matchLen (first : List Byte) (others : List (List Byte)) (len : Nat) : Option Nat := matchLoop first others (first.length + 1) len

/-- The lines of the popup, in the order of `strcmp`. -/
def popupLines (outputs : List (List Byte)) : List (List Byte) :=
  (outputs.mergeSort fun a b => !decide (b < a)).map fun o => (0x20 :: o).take 1023

/-- `do_completion`. -/
def doCompletion (w : World) (m : Minibuf) : Option Minibuf :=
  match m.completion with
  | none => some m
  | some completion =>
    let input := ebGetStr 1024 m.text
    let outputs := completion.candidates w (cString input)
    match outputs with
    | [] => some m
    | first :: others =>
      (matchLen first others input.length).map fun n =>
        if input.length < n then { m with text := first.take n ++ m.text.drop n, offset := n }
        else if 1 < outputs.length ∨ m.popup.isSome then
          { m with popup := some ⟨popupLines outputs, (popupLines outputs).headD [], false⟩ }
        else m

/-! ## History -/

/-- `set_minibuffer_str`. -/
def setMinibufferStr (m : Minibuf) (str : List Byte) : Minibuf := { m with text := str, offset := str.length }

/-- `do_history`; `upDown` is what `do_up_down` does to the popup. -/
def doHistory (upDown : Popup → Int → Popup) (m : Minibuf) (dir : Int) : Minibuf :=
  match m.popup with
  | some popup => { m with popup := some (upDown { popup with forceHighlight := true } dir) }
  | none =>
    match m.history with
    | none => m
    | some hist =>
      let index := m.historyIndex + dir
      if index < 0 ∨ (hist.length : Int) ≤ index then m
      else
        let saves := !m.lastCmdHistory
        let hist := if saves then setString hist (hist.length - 1) (ebGetStr 1024 m.text) else hist
        let m := { m with history := some hist, savedOffset := if saves then m.offset else m.savedOffset, historyIndex := index }
        let m := setMinibufferStr m (hist.getD index.toNat [])
        if index = (hist.length : Int) - 1 then { m with offset := m.savedOffset } else m

/-- The commands of the history: `previous-history-element` and `next-history-element`. -/
inductive HistoryCmd where
  | previousElement
  | nextElement
deriving DecidableEq, Repr

/-- The argument of `do_history` in the table of the minibuffer. -/
def HistoryCmd.dir : HistoryCmd → Int
  | .previousElement => -1
  | .nextElement => 1

/-- A command of the history with its argument, which says how often it runs. The command before the next one is then `do_history`, and
not sooner. -/
def execHistory (upDown : Popup → Int → Popup) (m : Minibuf) (cmd : HistoryCmd × Int) : Minibuf :=
  { (fun m => doHistory upDown m cmd.1.dir)^[KeyState.repCount cmd.2] m with lastCmdHistory := true }

/-- What the text of the minibuffer is when it is left: the line of the popup if it is highlighted. -/
def selectHighlighted (m : Minibuf) : Minibuf :=
  match m.popup with
  | some popup => if popup.forceHighlight && popup.selected != [] then setMinibufferStr m (popup.selected.take 1023 |>.drop 1) else m
  | none => m

/-- `do_minibuffer_exit`, up to the callback: the history, and the reply. -/
def doMinibufferExit (m : Minibuf) : Option (List (List Byte)) × List Byte :=
  let m := selectHighlighted m
  let buf := cString (ebGetStr 4096 m.text)
  (m.history.map fun hist => if hist = [] then hist else if buf = [] then hist.dropLast else addString hist.dropLast buf, buf)

/-- `minibuffer_edit`, where no minibuffer is there. -/
def minibufferEdit (input : List Byte) (completion : Option Completion) (hist : Option (List (List Byte))) (lastCmdHistory : Bool)
    (historyIndex : Int) :
    Minibuf where
  text := input
  offset := input.length
  completion := completion
  popup := none
  history := hist.map (addString · [])
  historyIndex := (hist.map fun hist => (hist.length : Int)).getD historyIndex
  savedOffset := 0
  lastCmdHistory := lastCmdHistory

end Minibuffer

end Hoe
