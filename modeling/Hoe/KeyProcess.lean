import Hoe.Keys

/-!
# Processing keys

The bindings of keys, `qe_key_process` with its key context, and the keyboard macros, which a bottom half replays. What the
commands and the callbacks that grab keys do is a parameter: each says, from the state it is called in, what it does to the part
of the state that is here (`KeyEffect`), and `rest` is everything else.
-/

namespace Hoe

/-- The functions of commands that the processing of keys depends on. -/
inductive CmdFunc where
  | universalArgument
  | describeKeyBriefly
  | startMacro
  | endMacro
  | callMacro
  | other (func : Nat)
deriving DecidableEq, Repr

/-- `CmdDef`. -/
structure CmdDef where
  key : Nat
  altKey : Nat
  name : String
  func : CmdFunc
  val : Nat
deriving DecidableEq, Repr

/-- `KeyDef`; a binding that is not of a mode is active in all of them. -/
structure KeyDef where
  keys : List Nat
  cmd : CmdDef
  mode : Option String
deriving DecidableEq, Repr

/-- `NO_ARG`, an `int` as any other. -/
def noArg : Int := 2 ^ 31 - 1

/-- `QEKeyContext`: the array of the keys is as long as `nb_keys` says. -/
structure QEKeyContext where
  argval : Int
  noargval : Int
  sign : Int
  isUniversalArg : Bool
  isEscape : Bool
  describeKey : Bool
  grabbed : Bool
  keys : List Nat
  buf : List Byte
deriving DecidableEq, Repr

/-- The key context, the bindings, the macro and the bottom halves that replay it; `minibuf` and `mode` are those of the active
window, and the index of the macro is `none` for -1. -/
structure KeyState (E : Type) where
  ctx : QEKeyContext
  firstCmd : List CmdDef
  firstKey : List KeyDef
  minibuf : Bool
  mode : String
  definingMacro : Bool
  macroKeys : List Nat
  macroKeyIndex : Option Nat
  bottomHalves : Nat
  rest : E
deriving DecidableEq, Repr

/-- What a command or a callback does to the state. -/
inductive KeyEffect (E : Type) where
  | startMacro
  | endMacro
  | callMacro
  | describeKey
  | grabKeys
  | ungrabKeys
  | globalSetKey (keystr : List Byte) (cmdName : String)
  | registerBinding (keys : List Nat) (d : CmdDef) (m : Option String)
  | registerCmdTable (cmds : List CmdDef) (mode : Option String)
  | window (minibuf : Bool) (mode : String)
  | other (rest : E)
deriving DecidableEq, Repr

/-! ## Bindings -/

/-- `KEY_NONE`. -/
def keyNone : Nat := 0xffff

/-- `KEY_CTRLX`. -/
def keyCtrlX (c : Nat) : Nat := c ||| 0xe200

/-- `KEY_CTRLXRET`. -/
def keyCtrlXRet (c : Nat) : Nat := c ||| 0xe300

/-- `KEY_CTRLH`. -/
def keyCtrlH (c : Nat) : Nat := c ||| 0xe500

/-- `qe_find_cmd`. -/
def qeFindCmd (firstCmd : List CmdDef) (cmdName : String) : Option CmdDef := firstCmd.find? (·.name == cmdName)

/-- `qe_register_binding1`. -/
def qeRegisterBinding1 (firstKey : List KeyDef) (keys : List Nat) (d : CmdDef) (m : Option String) : List KeyDef :=
  match m with
  | none => firstKey ++ [⟨keys, d, none⟩]
  | some m => ⟨keys, d, some m⟩ :: firstKey

/-- The keys of a compressed mapping. -/
def realKeys (key : Nat) : List Nat :=
  if keyCtrlX 0 ≤ key ∧ key ≤ keyCtrlX 0xff then [keyCtrl 120, key &&& 0xff]
  else if keyCtrlXRet 0 ≤ key ∧ key ≤ keyCtrlXRet 0xff then [keyCtrl 120, keyRet, key &&& 0xff]
  else if keyCtrlH 0 ≤ key ∧ key ≤ keyCtrlH 0xff then [keyCtrl 104, key &&& 0xff]
  else [key]

/-- `qe_register_binding2`. -/
def qeRegisterBinding2 (firstKey : List KeyDef) (key : Nat) (d : CmdDef) (m : Option String) : List KeyDef :=
  qeRegisterBinding1 firstKey (realKeys key) d m

/-- The loop of `qe_register_cmd_table` over the commands. -/
def qeRegisterCmdTable (m : Option String) : List CmdDef → List KeyDef → List KeyDef
  | [], firstKey => firstKey
  | d :: cmds, firstKey =>
    let firstKey := if d.key ≠ keyNone then qeRegisterBinding2 firstKey d.key d m else firstKey
    qeRegisterCmdTable m cmds (if d.altKey ≠ keyNone then qeRegisterBinding2 firstKey d.altKey d m else firstKey)

/-- `do_global_set_key`. -/
def doGlobalSetKey (firstCmd : List CmdDef) (firstKey : List KeyDef) (keystr : List Byte) (cmdName : String) : List KeyDef :=
  match qeFindCmd firstCmd cmdName with
  | some d => qeRegisterBinding1 firstKey (parseKeys maxKeys keystr) d none
  | none => firstKey

/-- A binding is active in a mode. -/
def KeyDef.active (kd : KeyDef) (mode : String) : Bool := kd.mode == none || kd.mode == some mode

/-- The binding that `qe_key_process` finds for the keys typed so far: the first one that begins with them. -/
def findKey (firstKey : List KeyDef) (mode : String) (keys : List Nat) : Option KeyDef :=
  firstKey.find? fun kd => keys.isPrefixOf kd.keys && kd.active mode

/-- The binding of the keys that are not special. -/
def findDefault (firstKey : List KeyDef) (mode : String) : Option KeyDef :=
  firstKey.find? fun kd => kd.keys == [keyDefault] && kd.active mode

/-! ## The key context -/

namespace QEKeyContext

/-- `qe_key_init`. -/
def init (c : QEKeyContext) : QEKeyContext :=
  { c with isUniversalArg := false, isEscape := false, noargval := 1, argval := noArg, sign := 1, keys := [], buf := [] }

/-- The key is put behind the keys typed so far; behind an escape it becomes one with Meta, in the place of the escape. -/
def push (c : QEKeyContext) (key : Nat) : QEKeyContext :=
  let keys := c.keys ++ [key]
  if key = keyEsc then { c with keys := keys, isEscape := true }
  else if c.isEscape then
    { c with keys := if 2 ≤ keys.length then c.keys.dropLast ++ [keyMeta key] else keys, isEscape := false }
  else { c with keys := keys }

/-- The numeric argument of a command. -/
def applyArg (c : QEKeyContext) : QEKeyContext :=
  if c.isUniversalArg then { c with argval := if c.argval = noArg then c.noargval else wrapInt (c.argval * c.sign) } else c

/-- `universal-argument`. -/
def universal (c : QEKeyContext) : QEKeyContext := { c with isUniversalArg := true, noargval := wrapInt (c.noargval * 4), keys := [] }

/-- A digit or a sign of the numeric argument. -/
def argKey (c : QEKeyContext) (key : Nat) : Option QEKeyContext :=
  if !c.isUniversalArg then none
  else if 48 ≤ key ∧ key ≤ 57 then
    let argval := if c.argval = noArg then 0 else c.argval
    some { c with argval := wrapInt (wrapInt (argval * 10) + (key - 48 : Nat)), keys := [] }
  else if key = 45 then some { c with sign := -c.sign, keys := [] }
  else none

/-- The key is shown behind the ones before it. -/
def echo (c : QEKeyContext) (key : Nat) : QEKeyContext :=
  { c with buf := (if c.buf = [] then [] else c.buf.dropLast ++ cstr " ") ++ keytostr key ++ cstr "-" }

end QEKeyContext

/-! ## Macros and effects -/

namespace KeyState

variable {E : Type}

/-- `macro_add_key`: the keys of a macro have 16 bits. -/
def macroAddKey (st : KeyState E) (key : Nat) : KeyState E := { st with macroKeys := st.macroKeys ++ [key % 65536] }

/-- `do_start_macro`. -/
def doStartMacro (st : KeyState E) : KeyState E :=
  if st.definingMacro then { st with definingMacro := false } else { st with definingMacro := true, macroKeys := [] }

/-- `do_end_macro`. -/
def doEndMacro (st : KeyState E) : KeyState E :=
  if st.macroKeyIndex.isSome then st else if st.definingMacro then { st with definingMacro := false } else st

/-- `do_call_macro`. -/
def doCallMacro (st : KeyState E) : KeyState E :=
  if st.definingMacro then { st with definingMacro := false }
  else if 0 < st.macroKeys.length then { st with bottomHalves := st.bottomHalves + 1 } else st

/-- An effect. -/
def apply (st : KeyState E) : KeyEffect E → KeyState E
  | .startMacro => st.doStartMacro
  | .endMacro => st.doEndMacro
  | .callMacro => st.doCallMacro
  | .describeKey => { st with ctx := { st.ctx with describeKey := true } }
  | .grabKeys => { st with ctx := { st.ctx with grabbed := true } }
  | .ungrabKeys => { st with ctx := { st.ctx with grabbed := false } }
  | .globalSetKey keystr cmdName => { st with firstKey := doGlobalSetKey st.firstCmd st.firstKey keystr cmdName }
  | .registerBinding keys d m => { st with firstKey := qeRegisterBinding1 st.firstKey keys d m }
  | .registerCmdTable cmds m => { st with firstCmd := st.firstCmd ++ cmds, firstKey := qeRegisterCmdTable m cmds st.firstKey }
  | .window minibuf mode => { st with minibuf := minibuf, mode := mode }
  | .other rest => { st with rest := rest }

/-- Effects, from left to right. -/
def applyAll (st : KeyState E) (effects : List (KeyEffect E)) : KeyState E := effects.foldl apply st

end KeyState

/-- What the commands and the callbacks do. -/
structure KeyCommands (E : Type) where
  call : CmdDef → Int → KeyState E → List (KeyEffect E)
  grabKeyCb : Nat → KeyState E → List (KeyEffect E)

/-! ## One key -/

/-- What `qe_key_process` does with a key: it goes to the callback, there are too many keys, none is bound, more keys are needed,
or a command is found. -/
inductive KeyAction where
  | grabbed
  | full
  | unknown (c : QEKeyContext)
  | pending (c : QEKeyContext)
  | command (d : CmdDef) (c : QEKeyContext)
deriving DecidableEq, Repr

/-- The key context that an action goes on with. -/
def KeyAction.ctx : KeyAction → Option QEKeyContext
  | .grabbed | .full => none
  | .unknown c | .pending c | .command _ c => some c

namespace KeyState

variable {E : Type}

/-- The part of `qe_key_process` for keys that nothing is bound to. -/
def unboundAction (st : KeyState E) (c : QEKeyContext) (key : Nat) : KeyAction :=
  if c.keys.length = 1 ∧ keySpecial key = false then
    match c.argKey key, findDefault st.firstKey st.mode with
    | some c, _ => .pending c
    | none, some kd => .command { kd.cmd with val := key } c
    | none, none => .unknown c
  else .unknown c

/-- What `qe_key_process` does with a key. -/
def keyAction (st : KeyState E) (key : Nat) : KeyAction :=
  if st.ctx.grabbed then .grabbed
  else if maxKeys ≤ st.ctx.keys.length then .full
  else
    let c := st.ctx.push key
    if key = keyEsc then .pending c
    else match findKey st.firstKey st.mode c.keys with
      | none => st.unboundAction c key
      | some kd => if c.keys.length = kd.keys.length then .command kd.cmd c else .pending c

/-- The end of `qe_key_process`: the key is shown unless the window is the minibuffer. -/
def showKey (st : KeyState E) (c : QEKeyContext) (key : Nat) : KeyState E :=
  { st with ctx := if st.minibuf then c else c.echo key }

/-- How often a command is executed. -/
def repCount (argval : Int) : Nat := if argval ≠ noArg ∧ 1 < argval then argval.toNat else 1

/-- `exec_command`. -/
def execCommand (sem : KeyCommands E) (st : KeyState E) (d : CmdDef) (argval : Int) : List (KeyEffect E) :=
  match d.func with
  | .universalArgument => []
  | .describeKeyBriefly => List.replicate (repCount argval) .describeKey
  | .startMacro => List.replicate (repCount argval) .startMacro
  | .endMacro => List.replicate (repCount argval) .endMacro
  | .callMacro => List.replicate (repCount argval) .callMacro
  | .other _ => sem.call d argval st

/-- The effects of the command or of the callback that the key leads to. -/
def keyEffects (sem : KeyCommands E) (st : KeyState E) (key : Nat) : List (KeyEffect E) :=
  match st.keyAction key with
  | .grabbed => sem.grabKeyCb key st
  | .command d c =>
    if d.func = .universalArgument ∨ c.describeKey then []
    else execCommand sem { st with ctx := c.applyArg } d c.applyArg.argval
  | _ => []

/-- `qe_key_process` behind the recording of the macro. -/
def processKey (sem : KeyCommands E) (st : KeyState E) (key : Nat) : KeyState E :=
  match st.keyAction key with
  | .grabbed => st.applyAll (st.keyEffects sem key)
  | .full => { st with ctx := { st.ctx.init with describeKey := false } }
  | .unknown c => st.showKey { c.init with describeKey := false } key
  | .pending c => st.showKey c key
  | .command d c =>
    if d.func = .universalArgument ∧ c.describeKey = false then st.showKey c.universal key
    else if c.describeKey then { st with ctx := { c.init with describeKey := false } }
    else
      let st := { st with ctx := c.applyArg }.applyAll (st.keyEffects sem key)
      { st with ctx := st.ctx.init }

/-- The recording of the macro. -/
def record (st : KeyState E) (key : Nat) : KeyState E := if st.definingMacro then st.macroAddKey key else st

/-- `qe_key_process`. -/
def qeKeyProcess (sem : KeyCommands E) (st : KeyState E) (key : Nat) : KeyState E := (st.record key).processKey sem key

/-! ## Replaying a macro -/

/-- One step of `call_bottom_halves`, in `do_call_macro_bh` for each key: `none` when there is no bottom half left. -/
def bottomHalfStep (sem : KeyCommands E) (st : KeyState E) : Option (KeyState E) :=
  match st.macroKeyIndex with
  | some i =>
    match st.macroKeys[i]? with
    | some key => some { st.qeKeyProcess sem key with macroKeyIndex := some (i + 1) }
    | none => some { st with macroKeyIndex := none }
  | none => if st.bottomHalves = 0 then none else some { st with bottomHalves := st.bottomHalves - 1, macroKeyIndex := some 0 }

end KeyState

/-- A key, or what another event does. -/
inductive KeyInput (E : Type) where
  | key (key : Nat)
  | event (effects : List (KeyEffect E))
deriving DecidableEq, Repr

namespace KeyState

variable {E : Type}

/-- A key is processed, or another event. -/
def input (sem : KeyCommands E) (st : KeyState E) : KeyInput E → KeyState E
  | .key key => st.qeKeyProcess sem key
  | .event effects => st.applyAll effects

/-- Keys and other events, from left to right. -/
def runKeys (sem : KeyCommands E) (st : KeyState E) (ins : List (KeyInput E)) : KeyState E := ins.foldl (input sem) st

end KeyState

end Hoe
