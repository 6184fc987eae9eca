import Hoe.BufferList
import Hoe.Convert
import Hoe.Paths
import Hoe.Quit
import Hoe.Windows

/-!
# Prompts

The minibuffer of qe.c, the commands that ask for input through it, and what they do when there is none. A command is modelled up to
where it asks, and its callback up to where it has a reply: what is done with a reply is an argument here. So is what a command finds
outside the editor. `asks` gives none where a command does not ask.
-/

namespace Hoe

namespace Prompts

/-- A buffer of the list, with what identifies it and the charset of its text. -/
structure PromptBuffer extends ListedBuffer where
  ptr : BufferPtr
  name : List Byte
  charset : Charset

/-- A window, and the buffer that it shows. -/
structure PromptWindow where
  ptr : WindowPtr
  b : BufferPtr
deriving DecidableEq, Repr

/-- `CscopeState`, without what a list of results adds to it. -/
structure CscopeState where
  os : Option WindowPtr
  op : Nat
  sym : Option (List Byte)
  symdir : Option (List Byte)
  out : Option (List Byte)
deriving DecidableEq, Repr

/-- What a command has of `CmdDef`: the string behind its name, its value, and whether it is `do_switch_to_buffer`. -/
structure CmdDef where
  ptype : List Byte
  val : Int
  switches : Bool
deriving DecidableEq, Repr

/-- An argument of a command, and its type. None is `NO_ARG`, and NULL for a string. -/
inductive CmdArg where
  | window (s : WindowPtr)
  | int (val : Option Int)
  | intval (val : Int)
  | string (str : Option (List Byte))
  | stringval (val : Int)
deriving DecidableEq, Repr

/-- `ExecCmdState`. None is `NO_ARG`. -/
structure ExecCmdState where
  s : WindowPtr
  d : CmdDef
  argval : Option Int
  ptype : List Byte
  args : List CmdArg
  defaultInput : List Byte
deriving DecidableEq, Repr

/-- The callbacks of `minibuffer_edit`, with their opaque. -/
inductive Callback where
  | argEditCb (es : ExecCmdState)
  | setBackupDirCb (s : WindowPtr)
  | killBufferConfirmCb (b : BufferPtr)
  | saveEditCb (s : WindowPtr)
  | quitConfirmCb
  | cscopeQuerySymbol (s : WindowPtr)
  | doQuerySymbolDirectory (s : WindowPtr)
  | doStringInsertRect (s : WindowPtr)
deriving DecidableEq, Repr

/-- The arguments of `minibuffer_edit`: the history and the completion are named. -/
structure Request where
  input : Option (List Byte)
  prompt : List Byte
  hist : List Byte
  completion : List Byte
  cb : Callback
deriving DecidableEq, Repr

/-- The minibuffer: its text, and the file that is highlighted in the popup of the completion, if there is one. -/
structure Minibuffer where
  cb : Callback
  text : List Byte
  prompt : List Byte
  hist : List Byte
  completion : List Byte
  highlighted : Option (List Byte)
  savedActive : Option WindowPtr
deriving DecidableEq, Repr

/-- The state of the editor. The active window is none while it is that of the minibuffer. -/
structure State where
  buffers : List PromptBuffer
  windows : List PromptWindow
  activeWindow : Option WindowPtr
  minibuffer : Option Minibuffer
  histories : List (List Byte × List (List Byte))
  lastSearchString : List Nat
  cs : CscopeState
  gBackupDir : List Byte
  status : List Byte

/-- What comes from outside: the working directory, the directory of the symbol file above it, the word under the cursor, and what lies
in the memory that `malloc` gives, if it gives any. -/
structure World where
  cwd : List Byte
  symbolDir : Option (List Byte)
  word : List Byte
  memory : Option (List Byte)
deriving DecidableEq, Repr

/-- `MAX_CMD_ARGS`. -/
def maxCmdArgs : Nat := 5

namespace State

/-- The buffer that a window shows. -/
def shown (s : State) (e : WindowPtr) : Option PromptBuffer :=
  (s.windows.find? fun w => w.ptr == e).bind fun w => s.buffers.find? fun b => b.ptr == w.b

/-- `put_status`. -/
def putStatus (s : State) (status : List Byte) : State := { s with status := status }

/-- `get_history`: the list of the name is made when it is not there. -/
def getHistory (s : State) (name : List Byte) : State :=
  if name = [] ∨ (s.histories.any fun h => h.1 == name) then s
  else { s with histories := (pstrcpy 32 name, []) :: s.histories }

/-- A change of the history of a name, if it has one. -/
def changeHistory (s : State) (name : List Byte) (f : List (List Byte) → List (List Byte)) : State :=
  if name = [] then s else { s with histories := s.histories.map fun h => if h.1 == name then (h.1, f h.2) else h }

/-! ## The minibuffer -/

/-- A callback, with a reply or without one. `libc` is what the C library prints for a string that is NULL, if it prints anything;
`replied` is what the callback does from where it has a reply. -/
def callback (libc : Option (List Byte)) (replied : State → Callback → List Byte → Except Fault State) (world : World) (s : State)
    (cb : Callback) (reply : Option (List Byte)) : Except Fault State :=
  match cb with
  | .argEditCb _ | .killBufferConfirmCb _ | .saveEditCb _ | .quitConfirmCb | .cscopeQuerySymbol _ =>
    match reply with
    | none => .ok s
    | some reply => replied s cb reply
  | .setBackupDirCb _ =>
    match reply with
    | none =>
      match libc with
      | some text => .ok (s.putStatus (cstr "Backup directory is now set to \"" ++ text ++ cstr "\""))
      | none => .error .null
    | some reply => replied s cb reply
  | .doQuerySymbolDirectory _ =>
    let s := { s with cs := { s.cs with symdir := world.memory } }
    match world.memory with
    | none => .ok (s.putStatus (cstr "No memory!"))
    | some _ =>
      match reply with
      | none => .ok s
      | some reply => replied s cb reply
  -- the length of the reply is taken first
  | .doStringInsertRect _ =>
    match reply with
    | none => .error .null
    | some reply => replied s cb reply

/-- `minibuffer_edit`. -/
def minibufferEdit (libc : Option (List Byte)) (replied : State → Callback → List Byte → Except Fault State) (world : World)
    (s : State) (r : Request) : Except Fault State :=
  match s.minibuffer with
  | some _ => callback libc replied world (s.putStatus (cstr "Already editing in minibuffer")) r.cb none
  | none =>
    let m : Minibuffer :=
      { cb := r.cb, text := r.input.getD [], prompt := r.prompt, hist := r.hist, completion := r.completion, highlighted := none
        savedActive := s.activeWindow }
    .ok ({ s with minibuffer := some m, activeWindow := none }.changeHistory r.hist (· ++ [[]]))

/-- `do_minibuffer_exit`. The first 4095 characters of the text are read. -/
def doMinibufferExit (libc : Option (List Byte)) (replied : State → Callback → List Byte → Except Fault State) (world : World)
    (s : State) (abort : Bool) : Except Fault State :=
  match s.minibuffer with
  | none => .ok s
  | some m =>
    let text := (m.highlighted.getD m.text).take 4095
    let s := s.changeHistory m.hist fun items => if items = [] then items else items.dropLast ++ if text = [] then [] else [text]
    let s := { s with minibuffer := none, activeWindow := m.savedActive, status := [] }
    callback libc replied world s m.cb (if abort then none else some text)

end State

/-! ## The arguments of a command -/

/-- `get_param`: the parameter between the two separators, cut off to its array, and what is behind it. -/
def getParam (p : List Byte) (paramSize : Nat) (osep sep : Byte) : List Byte × List Byte :=
  if p.head? = some osep then
    (pstrcpy paramSize ((p.drop 1).takeWhile (· != sep)), ((p.drop 1).dropWhile (· != sep)).drop 1)
  else ([], p)

/-- What `parse_arg` finds: the letter of the type, the prompt, the completion and the history. -/
structure ArgSpec where
  type : Byte
  prompt : List Byte
  completion : List Byte
  history : List Byte
deriving DecidableEq, Repr

/-- `parse_arg`, with what is left of the string. None when there is no argument, or none of a type that there is. -/
def parseArg : List Byte → Option (ArgSpec × List Byte)
  | [] => none
  | type :: p =>
    let prompt := getParam p 256 0x7b 0x7d
    let completion := getParam prompt.2 64 0x5b 0x5d
    let history := getParam completion.2 32 0x7c 0x7c
    if type ∈ cstr "visS" then some (⟨type, prompt.1, completion.1, history.1⟩, history.2) else none

/-- An argument of a type, and whether there is none: then the command asks. -/
def takeArg (es : ExecCmdState) (type : Byte) : CmdArg × Option Int × Bool :=
  if type = 0x76 then (.intval es.d.val, es.argval, false)
  else if type = 0x53 then (.stringval es.d.val, es.argval, false)
  else if type = 0x69 then (.int es.argval, none, es.argval.isNone)
  else (.string none, es.argval, true)

/-- `pathname`. -/
def pathname (bufSize : Nat) (filename : List Byte) : List Byte :=
  match strrchr filename slash with
  | some p => filename.take (min (p + 1) (bufSize - 1))
  | none => pstrcpy bufSize filename

/-- `get_default_path`. -/
def getDefaultPath (cwd : List Byte) (b : PromptBuffer) (bufSize : Nat) : List Byte :=
  pathname bufSize (if b.system || b.name.head? == some 0x2a then canonizeAbsolutePath cwd 1024 (cstr "a") else b.filename)

namespace State

/-- `predict_switch_to_buffer`: the first buffer that no window shows. -/
def predictSwitchToBuffer (s : State) (b : PromptBuffer) : PromptBuffer :=
  (s.buffers.find? fun c => !c.system && s.windows.all fun w => w.b != c.ptr).getD b

/-- The part of `parse_args` that asks for an argument. -/
def askArg (world : World) (s : State) (es : ExecCmdState) (spec : ArgSpec) : Option (State × Request) :=
  (s.shown es.s).map fun b =>
    let defInput := if spec.completion = cstr "file" then getDefaultPath world.cwd b 1024 else []
    let defaultInput :=
      if spec.completion = cstr "buffer" then pstrcpy 512 (if es.d.switches then s.predictSwitchToBuffer b else b).name else []
    let prompt :=
      if defaultInput = [] then spec.prompt
      else pstrcat 256 (pstrcat 256 (pstrcat 256 spec.prompt (cstr "(default ")) defaultInput) (cstr ") ")
    (s.getHistory spec.history,
      { input := some defInput, prompt := prompt, hist := spec.history, completion := spec.completion
        cb := .argEditCb { es with defaultInput := defaultInput } })

/-- `parse_args`: every turn takes a character at least of the string. None when all the arguments are there, or when they cannot be
parsed. -/
def parseArgs (world : World) (s : State) : Nat → ExecCmdState → Option (State × Request)
  | 0, _ => none
  | fuel + 1, es =>
    (parseArg es.ptype).bind fun parsed =>
      if maxCmdArgs ≤ es.args.length then none
      else
        let arg := takeArg es parsed.1.type
        let es := { es with ptype := parsed.2, args := es.args ++ [arg.1], argval := arg.2.1 }
        if arg.2.2 && parsed.1.prompt != [] then askArg world s es parsed.1 else parseArgs world s fuel es

end State

/-! ## The commands that ask -/

/-- A command, up to where it asks: `parse_args` of any state of `exec_command`, and `quit_examine_buffers` from a buffer on. -/
inductive Command where
  | parseArgs (es : ExecCmdState)
  | doSetBackupDir (e : WindowPtr)
  | doKillBuffer (bufname : List Byte)
  | doSave (e : WindowPtr) (saveAs : Bool)
  | quitExamineBuffers (state : QuitMode) (modified : Bool) (i : Nat)
  | doCscopeOperation (e : WindowPtr) (op : Fin 10)
  | doCscopeSetSymbolDirectory (e : WindowPtr)
  | queryStringInsertRect (e : WindowPtr)
deriving DecidableEq, Repr

/-- What `exec_command` begins with. -/
def execCommand (s : WindowPtr) (d : CmdDef) (argval : Option Int) : ExecCmdState :=
  { s := s, d := d, argval := argval, ptype := d.ptype, args := [.window s], defaultInput := [] }

/-- What `do_cscope_operation` asks for; two operations are not supported. -/
def cscopePrompt : Fin 10 → Option (List Byte)
  | 0 => some (cstr "Find symbol ")
  | 1 => some (cstr "Find global definition ")
  | 2 => some (cstr "Find functions called by this function ")
  | 3 => some (cstr "Find functions calling this function ")
  | 4 => some (cstr "Find text string ")
  | 5 => none
  | 6 => none
  | 7 => some (cstr "Find file ")
  | 8 => some (cstr "Find #including file ")
  | 9 => some (cstr "Find assignments to symbol ")

namespace State

/-- `do_kill_buffer`. -/
def askKillBuffer (s : State) (bufname : List Byte) : Option (State × Request) :=
  (s.buffers.find? fun b => b.name == bufname).bind fun b =>
    if b.buffer.modified && b.filename != [] then
      some (s,
        { input := none, prompt := pstrcpy 1024 (cstr "Buffer " ++ bufname ++ cstr " modified; kill anyway? (yes or no) "), hist := []
          completion := [], cb := .killBufferConfirmCb b.ptr })
    else none

/-- `do_save`. -/
def askSave (world : World) (s : State) (e : WindowPtr) (saveAs : Bool) : Option (State × Request) :=
  (s.shown e).bind fun b =>
    if !saveAs && !b.buffer.modified then none
    else if saveAs || b.filename == [] then
      some (s.getHistory (cstr "file"),
        { input := some (getDefaultPath world.cwd b 1024), prompt := cstr "Write file: ", hist := cstr "file", completion := cstr "file"
          cb := .saveEditCb e })
    else none

/-- `quit_examine_buffers`, from the buffer at an index on: it may save buffers before it asks. -/
def askQuit (s : State) (state : QuitMode) (modified : Bool) (i : Nat) : Option (State × Request) :=
  let bs := s.buffers.map (·.toListedBuffer)
  match Hoe.quitExamineBuffers state modified (bs.take i) (bs.drop i) with
  | .confirming bs =>
    some ({ s with buffers := s.buffers.zipWith (fun b l => { b with toListedBuffer := l }) bs },
      { input := none, prompt := cstr "Modified buffers exist; exit anyway? (yes or no) ", hist := [], completion := []
        cb := .quitConfirmCb })
  | _ => none

/-- `do_cscope_operation`, which looks for the symbol file, if there is none, and for a symbol to suggest. -/
def askCscopeOperation (world : World) (s : State) (e : WindowPtr) (op : Fin 10) : Option (State × Request) :=
  (s.cs.symdir.or world.symbolDir).bind fun symdir =>
    let sym := if world.word = [] then none else some world.word
    let suggestion := (sym.map fun sym => pstrcpy 256 (cstr "[default " ++ sym ++ cstr "]")).getD []
    let s := { s with cs := { os := some e, op := op.val, sym := sym, symdir := some symdir, out := none } }
    let s := s.putStatus (cstr "Symbol file at: " ++ symdir)
    (cscopePrompt op).map fun text =>
      (s, { input := none, prompt := pstrcpy 512 (text ++ suggestion ++ cstr ": "), hist := [], completion := []
            cb := .cscopeQuerySymbol e })

end State

/-- What a command asks for, and the state in which it asks. -/
def Command.asks (world : World) (s : State) : Command → Option (State × Request)
  | .parseArgs es => s.parseArgs world (es.ptype.length + 1) es
  | .doSetBackupDir e =>
    some (s, { input := none, prompt := cstr "Backup Directory:", hist := [], completion := cstr "file", cb := .setBackupDirCb e })
  | .doKillBuffer bufname => s.askKillBuffer bufname
  | .doSave e saveAs => s.askSave world e saveAs
  | .quitExamineBuffers state modified i => s.askQuit state modified i
  | .doCscopeOperation e op => s.askCscopeOperation world e op
  | .doCscopeSetSymbolDirectory e =>
    some (s, { input := some world.cwd, prompt := cstr "Symbol File Directory: ", hist := [], completion := cstr "file"
               cb := .doQuerySymbolDirectory e })
  | .queryStringInsertRect e =>
    some (s, { input := none, prompt := cstr "Insert String: ", hist := [], completion := [], cb := .doStringInsertRect e })

end Prompts

end Hoe
