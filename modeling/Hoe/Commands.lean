import Hoe.Editor
import Hoe.Windows
import Hoe.BufferList

/-!
# The commands

The commands that open and close windows, make and free buffers, and leave a pointer to one behind, over the windows and the
buffers of `qe_state` and the static variables of qe.c and cscope.c. What a command finds in a text, in a file or in a reply is an
argument of it here. A run ends with a `Fault` where a pointer to a window leads nowhere.
-/

namespace Hoe

/-- What `stat` says of a file. The list of a directory is written to the buffer: `changed` says whether anything is deleted or
printed. -/
inductive FileType where
  | missing
  | regular
  | directory (changed : Bool)
deriving DecidableEq, Repr

/-- A command, with what it finds and what is replied to it. -/
inductive UserCommand where
  | splitWindow (horiz : Bool)
  | otherWindow
  | deleteWindow
  | deleteOtherWindows
  | listBuffers (items : Nat)
  | dired (directory : String) (items : Nat)
  | bufedSelect (name : String)
  | bufedKillBuffer (names : List String) (yes : Bool)
  | diredSelect (filename : String) (type : FileType)
  | describeBindings
  | helpForHelp
  | lessQuit
  | completion (count : Nat) (longer : Bool)
  | history (change : Bool)
  | edit
  | undo (played : Option Bool)
  | killRegion (kill : Bool) (len : Nat) (inside : Bool)
  | yank (size : Nat)
  | yankPop (played : Option Bool) (size : Nat)
  | toggleReadOnly
  | switchToBuffer (name : String)
  | killBuffer (name : String) (yes : Bool)
  | load (filename : String) (type : FileType)
  | findAlternateFile (filename : String) (type : FileType) (yes : Bool)
  | save (saveAs : Bool) (reply : String) (written : Bool)
  | insertRectangle
  | ask
  | cscopeOperation (entries : Nat) (filename : String) (type : FileType)
  | cscopeSelect (filename : String) (type : FileType)
  | cscopePopMark
  | shell (launched : Bool)
  | compile (launched : Bool)
deriving DecidableEq, Repr

/-- `ExecCmdState`: the window, how many arguments are still to be asked for, and how often the command is called. -/
structure ExecCmdState where
  s : WindowPtr
  prompts : Nat
  command : UserCommand
  rep : Nat
deriving DecidableEq, Repr

/-- `minibuffer_cb` with its opaque, and what it does once there is a reply. -/
inductive MinibufferCb where
  | exec (es : ExecCmdState)
  | killBuffer (b : BufferPtr) (yes : Bool)
  | saveEdit (s : WindowPtr) (filename : String) (written : Bool)
  | insertRectangle (s : WindowPtr)
  | cscope (entries : Nat) (filename : String) (type : FileType)
  | other
deriving DecidableEq, Repr

/-- The windows, the buffers and the pointers to them: the kill ring, the static variables of qe.c, and `cs` of cscope.c. -/
structure QeState extends QEmacsState, BufferList where
  yankBuffers : List (Option BufferPtr)
  yankCurrent : Nat
  minibufferCb : Option MinibufferCb
  minibufferSavedActive : Option WindowPtr
  completionPopupWindow : Option WindowPtr
  popupSavedActive : Option WindowPtr
  cscopeWindow : Option WindowPtr
  marks : List BufferPtr
deriving DecidableEq, Repr

/-- `CSCOPE_STACK_SZ`. -/
def cscopeStackSize : Nat := 1024

/-! ## Windows -/

/-- The loop of `insert_window_left`: it closes the windows that the new one covers and moves those it overlaps. -/
def clearLeft (width : Int) : List EditState → QEmacsState → Except Fault QEmacsState
  | [], qs => .ok qs
  | e :: es, qs =>
    if e.minibuf then clearLeft width es qs
    else if e.x2 ≤ width then (editClose qs e.ptr).bind (clearLeft width es)
    else if e.x1 < width then clearLeft width es (qs.update e.ptr fun e => { e with x1 := width })
    else clearLeft width es qs

/-- `insert_window_left`: the new window is the one at `nextPtr`. -/
def insertWindowLeft (qs : QEmacsState) (b : BufferPtr) (width : Int) (flags : WindowFlags) : Except Fault QEmacsState :=
  (clearLeft width qs.windows qs).map fun qs =>
    doRefresh (editNew qs b 0 0 width (qs.height - qs.statusHeight) { flags with rseparator := true })

/-- `find_window_right`. -/
def findWindowRight (qs : QEmacsState) (s : EditState) : Option EditState :=
  qs.windows.find? fun e => !e.minibuf && e.x1 == s.x2

/-- The loop of `do_delete_other_windows`. -/
def closeOthers (s : WindowPtr) : List EditState → QEmacsState → Except Fault QEmacsState
  | [], qs => .ok qs
  | e :: es, qs =>
    if !e.minibuf && e.ptr != s then (editClose qs e.ptr).bind (closeOthers s es) else closeOthers s es qs

/-- `do_delete_other_windows`. -/
def doDeleteOtherWindows (qs : QEmacsState) (s : WindowPtr) : Except Fault QEmacsState := do
  let _ ← qs.deref s
  let qs ← closeOthers s qs.windows qs
  return doRefresh (qs.update s fun e =>
    computeClientArea qs
      { e with y1 := 0, x1 := 0, x2 := qs.width, y2 := qs.height - qs.statusHeight, flags := { e.flags with rseparator := false } })

/-- The new window of `isNewpopup` and of `do_completion`, in the middle of the screen. -/
def editNewPopup (qs : QEmacsState) (b : BufferPtr) (w h : Int) : QEmacsState :=
  editNew qs b ((qs.screen.width - w).tdiv 2) ((qs.screen.height - qs.statusHeight - h).tdiv 2) w h { popup := true }

/-! ## Buffers and windows -/

namespace QeState

/-- A step on the windows. -/
def onWindows (qe : QeState) (f : QEmacsState → Except Fault QEmacsState) : Except Fault QeState :=
  (f qe.toQEmacsState).map fun qs => { qe with toQEmacsState := qs }

/-- A step on the buffers. -/
def onBuffers (qe : QeState) (f : BufferList → BufferList) : QeState := { qe with toBufferList := f qe.toBufferList }

/-- The text of a buffer is changed, where it is. -/
def changed (qe : QeState) (change : Bool) (b : BufferPtr) : QeState := if change then qe.onBuffers (·.ebAddlog b) else qe

/-- `switch_to_buffer`. -/
def switchToBuffer (qe : QeState) (s : WindowPtr) (b : BufferPtr) : QeState :=
  { qe with toQEmacsState := qe.toQEmacsState.update s fun e => { e with b := b } }

/-- What a callback does that is told that there is no reply. `do_string_insert_rect` takes the length of it all the same. -/
def abort (qe : QeState) : MinibufferCb → Except Fault QeState
  | .insertRectangle s => (qe.deref s).bind fun _ => .error .null
  | _ => .ok qe

/-- `minibuffer_edit`. -/
def minibufferEdit (qe : QeState) (cb : MinibufferCb) : Except Fault QeState :=
  if qe.minibufferCb.isSome then qe.abort cb else
  let qs := editNew qe.toQEmacsState qe.nextBuffer 0 (qe.screen.height - qe.statusHeight) qe.screen.width qe.statusHeight {}
  let qs := qs.update qe.nextPtr fun e => { e with minibuf := true }
  .ok { qe with
    toQEmacsState := { qs with activeWindow := some qe.nextPtr }
    toBufferList := qe.toBufferList.ebNew "*minibuf*" { system := true }
    minibufferCb := some cb
    minibufferSavedActive := qs.activeWindow
    completionPopupWindow := none }

/-- `isNewpopup`. -/
def showPopup (qe : QeState) (b : BufferPtr) : QeState :=
  let qs := editNewPopup qe.toQEmacsState b ((qe.screen.width * 4).tdiv 5) (((qe.screen.height - qe.statusHeight) * 3).tdiv 4)
  { qe with
    toQEmacsState := doRefresh { qs with activeWindow := some qe.nextPtr }
    popupSavedActive := qs.activeWindow }

/-- `do_less_quit`. -/
def lessQuit (qe : QeState) (s : WindowPtr) : Except Fault QeState := do
  let w ← qe.deref s
  let qs ← editClose { qe.toQEmacsState with activeWindow := qe.popupSavedActive } s
  return { qe with toQEmacsState := qs, toBufferList := qe.toBufferList.ebFree w.b }

/-! ### Help -/

/-- `new_help_buffer`: the buffer, and whether it is new. -/
def newHelpBuffer (l : BufferList) : BufferList × BufferPtr × Bool :=
  match l.ebFind "*Help*" with
  | some b => (l, b.ptr, false)
  | none => (l.ebNew "*Help*" { system := true }, l.nextBuffer, true)

/-- The text is printed to the buffer, which is read only then. -/
def printHelp (l : BufferList) (b : BufferPtr) : BufferList :=
  (l.ebAddlog b).updateBuffer b fun c => { c with flags := { c.flags with readonly := true } }

/-- What `do_describe_bindings` and `do_help_for_help` begin with: a new help buffer is shown in a popup. -/
def showHelp (qe : QeState) : QeState :=
  let help := newHelpBuffer qe.toBufferList
  let qe := { qe with toBufferList := printHelp help.1 help.2.1 }
  if help.2.2 then qe.showPopup help.2.1 else qe

/-- `do_describe_bindings`, which frees the new buffer. -/
def doDescribeBindings (qe : QeState) (s : WindowPtr) : Except Fault QeState := do
  let _ ← qe.deref s
  let help := newHelpBuffer qe.toBufferList
  return if help.2.2 then qe.showHelp.onBuffers (·.ebFree help.2.1) else qe.showHelp

/-! ### Completion -/

/-- The part of `do_completion` that opens the popup. -/
def openCompletion (qe : QeState) : QeState :=
  let qs := editNewPopup qe.toQEmacsState qe.nextBuffer ((qe.screen.width * 3).tdiv 4)
    (((qe.screen.height - qe.statusHeight) * 3).tdiv 4)
  { qe with
    toQEmacsState := doRefresh qs
    toBufferList := qe.toBufferList.ebNew "*completion*" { system := true, readonly := true }
    completionPopupWindow := some qe.nextPtr }

/-- Where there is more than one match, the popup is opened unless it is there. -/
def withCompletion (qe : QeState) (count : Nat) : QeState :=
  if 1 < count ∧ qe.completionPopupWindow = none then qe.openCompletion else qe

/-- The list of the matches is written to the popup. -/
def listMatches (qe : QeState) : Except Fault QeState :=
  match qe.completionPopupWindow with
  | some p => (qe.deref p).map fun e => qe.changed true e.b
  | none => .ok qe

/-- `do_completion`, with the number of matches and whether they have more in common than was typed. -/
def doCompletion (qe : QeState) (s : WindowPtr) (count : Nat) (longer : Bool) : Except Fault QeState := do
  let w ← qe.deref s
  if count = 0 then return qe
  else if longer then return qe.changed true w.b
  else (qe.withCompletion count).listMatches

/-- `do_history`: it moves in the completion popup when there is one, as `minibuf_complete_scroll_up_down` does. -/
def doHistory (qe : QeState) (s : WindowPtr) (change : Bool) : Except Fault QeState := do
  let w ← qe.deref s
  match qe.completionPopupWindow with
  | some p => (qe.deref p).map fun _ => qe
  | none => return qe.changed change w.b

/-! ### Editing -/

/-- `BF_READONLY` of a buffer. -/
def isReadOnly (qe : QeState) (b : BufferPtr) : Bool := ((qe.entry b).map (·.flags.readonly)).getD false

/-- A command that changes the text of its window, `do_char` for one. -/
def doEdit (qe : QeState) (s : WindowPtr) : Except Fault QeState := do
  let w ← qe.deref s
  return qe.changed (!qe.isReadOnly w.b) w.b

/-- An entry of the log is played: it says whether the buffer was modified. -/
def play (qe : QeState) (b : BufferPtr) (modified : Bool) : QeState :=
  (qe.changed true b).onBuffers (·.updateBuffer b fun c => { c with modified := modified })

/-- `do_undo`, with the entry that is played. -/
def doUndo (qe : QeState) (s : WindowPtr) (played : Option Bool) : Except Fault QeState := do
  let w ← qe.deref s
  return match qe.log w.b, played with
    | some _, some modified => qe.play w.b modified
    | _, _ => qe

/-- The index of the next yank buffer. -/
def nextYank (qe : QeState) : Nat := if qe.yankCurrent + 1 = nbYankBuffers then 0 else qe.yankCurrent + 1

/-- The yank buffer at an index. -/
def yankBuffer (qe : QeState) (i : Nat) : Option BufferPtr := (qe.yankBuffers[i]?).join

/-- `new_yank_buffer`: the buffer is the one at `nextBuffer`. -/
def newYankBuffer (qe : QeState) : QeState :=
  let l := match qe.yankBuffer qe.nextYank with
    | some b => qe.toBufferList.ebFree b
    | none => qe.toBufferList
  { qe with
    toBufferList := l.ebNew "*yank*" { system := true }
    yankBuffers := qe.yankBuffers.set qe.nextYank (some qe.nextBuffer)
    yankCurrent := qe.nextYank }

/-- `do_kill_region`: `inside` says whether the region begins before the end of the text. -/
def doKillRegion (qe : QeState) (s : WindowPtr) (kill : Bool) (len : Nat) (inside : Bool) : Except Fault QeState := do
  let w ← qe.deref s
  if qe.isReadOnly w.b then return qe
  else return (qe.newYankBuffer.changed (decide (0 < len)) qe.nextBuffer).changed (kill && inside) w.b

/-- `do_yank`, with the size of the yank buffer. -/
def doYank (qe : QeState) (s : WindowPtr) (size : Nat) : Except Fault QeState := do
  let w ← qe.deref s
  return qe.changed (!qe.isReadOnly w.b && (qe.yankBuffer qe.yankCurrent).isSome && decide (0 < size)) w.b

/-- `do_yank_pop`. -/
def doYankPop (qe : QeState) (s : WindowPtr) (played : Option Bool) (size : Nat) : Except Fault QeState := do
  let qe ← qe.doUndo s played
  doYank { qe with yankCurrent := if qe.yankCurrent = 0 then nbYankBuffers - 1 else qe.yankCurrent - 1 } s size

/-- `do_toggle_read_only`. -/
def doToggleReadOnly (qe : QeState) (s : WindowPtr) : Except Fault QeState := do
  let w ← qe.deref s
  return qe.onBuffers (·.updateBuffer w.b fun c => { c with flags := { c.flags with readonly := !c.flags.readonly } })

/-! ### Switching and killing -/

/-- `do_switch_to_buffer`. -/
def doSwitchToBuffer (qe : QeState) (s : WindowPtr) (name : String) : Except Fault QeState := do
  let _ ← qe.deref s
  return match qe.ebFind name with
    | some b => qe.switchToBuffer s b.ptr
    | none => (qe.onBuffers (·.ebNew name { savelog := true })).switchToBuffer s qe.nextBuffer

/-- The buffer that `kill_buffer_noconfirm` switches to, which is made when there is none. -/
def otherBuffer (l : BufferList) (b : BufferPtr) : BufferList × BufferPtr :=
  match l.buffers.find? fun c => c.ptr != b && !c.flags.system with
  | some c => (l, c.ptr)
  | none => (l.ebNew "*scratch*" { savelog := true }, l.nextBuffer)

/-- `kill_buffer_noconfirm`. -/
def killBufferNoconfirm (qe : QeState) (b : BufferPtr) : QeState :=
  let other := otherBuffer qe.toBufferList b
  let windows := qe.windows.map fun e => if e.b = b then { e with b := other.2 } else e
  { qe with toQEmacsState := doRefresh { qe.toQEmacsState with windows := windows }, toBufferList := other.1.ebFree b }

/-- `do_kill_buffer`, and whether it is confirmed. -/
def doKillBuffer (qe : QeState) (name : String) (yes : Bool) : Except Fault QeState :=
  match qe.ebFind name with
  | none => .ok qe
  | some b => if b.modified && b.filename != "" then qe.minibufferEdit (.killBuffer b.ptr yes) else .ok (qe.killBufferNoconfirm b.ptr)

/-! ### Files -/

/-- The part of `build_dired_list` that writes the list to the buffer. -/
def buildDiredList (l : BufferList) (b : BufferPtr) (changed : Bool) : BufferList :=
  (if changed then l.ebAddlog b else l).updateBuffer b fun c => { c with modified := false }

/-- The part of `do_load1` that makes a buffer for a file and switches to it. -/
def loadNew (qe : QeState) (s : WindowPtr) (filename : String) (type : FileType) : QeState :=
  let b := qe.nextBuffer
  let qe := (qe.onBuffers fun l => (l.ebNew "" { savelog := true }).setFilename b filename).switchToBuffer s b
  match type with
  | .directory changed => qe.onBuffers (buildDiredList · b changed)
  | _ => qe

/-- `do_load`. -/
def doLoad (qe : QeState) (s : WindowPtr) (filename : String) (type : FileType) : Except Fault QeState := do
  let _ ← qe.deref s
  return match qe.ebFindFile filename with
    | some b => qe.switchToBuffer s b.ptr
    | none => qe.loadNew s filename type

/-- `do_find_alternate_file`. -/
def doFindAlternateFile (qe : QeState) (s : WindowPtr) (filename : String) (type : FileType) (yes : Bool) : Except Fault QeState := do
  let w ← qe.deref s
  let qe ← qe.doKillBuffer (((qe.entry w.b).map (·.name)).getD "") yes
  qe.doLoad s filename type

/-- `save_final`, and whether the file is written. -/
def saveFinal (qe : QeState) (b : BufferPtr) (written : Bool) : QeState := if written then qe.onBuffers (·.logReset b) else qe

/-- `do_save`, with the name that is replied. -/
def doSave (qe : QeState) (s : WindowPtr) (saveAs : Bool) (reply : String) (written : Bool) : Except Fault QeState := do
  let w ← qe.deref s
  match qe.entry w.b with
  | none => return qe
  | some b =>
    if !saveAs && !b.modified then return qe
    else if saveAs || b.filename == "" then qe.minibufferEdit (.saveEdit s reply written)
    else return qe.saveFinal w.b written

/-! ### Lists on the left -/

/-- The last part of `do_list_buffers` and of `do_dired`, on a new buffer: the window, and the line of the buffer of `s`. -/
def openListWindow (qe : QeState) (s : WindowPtr) (b : BufferPtr) (items : Nat) : Except Fault QeState := do
  let qs ← insertWindowLeft qe.toQEmacsState b (qe.width.tdiv 4) { modeline := true }
  -- each line is compared with the name of the buffer of `s`
  let _ ← if 0 < items then (qs.deref s).map some else .ok none
  return { qe with toQEmacsState := { qs with activeWindow := some qe.nextPtr } }

/-- `do_list_buffers`. -/
def doListBuffers (qe : QeState) (s : WindowPtr) (items : Nat) : Except Fault QeState := do
  let _ ← qe.deref s
  let b := qe.nextBuffer
  let l := qe.toBufferList.ebNew "*bufed*" { readonly := true, system := true }
  openListWindow { qe with toBufferList := if 0 < items then l.ebAddlog b else l } s b items

/-- `do_dired`, on the directory of the file of `s`. -/
def doDired (qe : QeState) (s : WindowPtr) (directory : String) (items : Nat) : Except Fault QeState := do
  let _ ← qe.deref s
  let b := qe.nextBuffer
  let l := (qe.toBufferList.ebNew "*dired*" { readonly := true, system := true }).setFilename b directory
  openListWindow { qe with toBufferList := buildDiredList l b (decide (0 < items)) } s b items

/-- `bufed_select`. -/
def bufedSelect (qe : QeState) (s : WindowPtr) (name : String) : Except Fault QeState := do
  let w ← qe.deref s
  match qe.ebFind name, findWindowRight qe.toQEmacsState w with
  | some b, some e => do
    let qe ← qe.onWindows (doDeleteWindow · s true)
    let _ ← qe.deref e.ptr
    return qe.switchToBuffer e.ptr b.ptr
  | _, _ => return qe

/-- `dired_select`. -/
def diredSelect (qe : QeState) (s : WindowPtr) (filename : String) (type : FileType) : Except Fault QeState := do
  let w ← qe.deref s
  match type with
  | .missing => return qe
  | .directory changed => return qe.onBuffers (buildDiredList · w.b changed)
  | .regular =>
    match findWindowRight qe.toQEmacsState w with
    | some e => do
      let qe ← qe.onWindows (doDeleteWindow · s true)
      let e ← qe.deref e.ptr
      return qe.onBuffers (·.updateBuffer e.b fun c => { c with flags := { c.flags with preview := false } })
    | none => qe.doLoad s filename type

/-- The loop of `bufed_kill_buffer` over the names. -/
def killBuffers (yes : Bool) : List String → QeState → Except Fault QeState
  | [], qe => .ok qe
  | name :: names, qe => (qe.doKillBuffer name yes).bind (killBuffers yes names)

/-- `bufed_kill_buffer`. -/
def bufedKillBuffer (qe : QeState) (s : WindowPtr) (names : List String) (yes : Bool) : Except Fault QeState := do
  let _ ← qe.deref s
  let qe ← killBuffers yes names qe
  let w ← qe.deref s
  return qe.onBuffers (·.ebAddlog w.b)

/-- A preview buffer is freed unless another window than `s` and `e` shows it: the first part of `open_new_file`. -/
def closePreview (qe : QeState) (s : WindowPtr) (e : EditState) : BufferList :=
  match qe.entry e.b with
  | some b =>
    if b.flags.preview && !b.modified && !qe.windows.any (fun e1 => e1.ptr != s && e1.ptr != e.ptr && e1.b == e.b) then
      qe.toBufferList.ebFree e.b
    else qe.toBufferList
  | none => qe.toBufferList

/-- `open_new_file`, which the display of a directory calls. -/
def openNewFile (qe : QeState) (s : WindowPtr) (filename : String) (type : FileType) : Except Fault QeState := do
  let w ← qe.deref s
  match findWindowRight qe.toQEmacsState w with
  | none => return qe
  | some e => do
    let qe ← doLoad { qe with toBufferList := qe.closePreview s e } e.ptr filename type
    let e ← qe.deref e.ptr
    return qe.onBuffers (·.updateBuffer e.b fun c => { c with flags := { c.flags with preview := true } })

/-! ### Cscope -/

/-- `cs.os`. -/
def cscopeOs (qe : QeState) : Except Fault EditState :=
  match qe.cscopeWindow with
  | some s => qe.deref s
  | none => .error .null

/-- `cscope_push_mark`. The index of an empty stack is -1. -/
def cscopePushMark (qe : QeState) (b : BufferPtr) : QeState :=
  if qe.marks.length ≤ cscopeStackSize then { qe with marks := b :: qe.marks } else qe

/-- The buffer of the answers, and its address. -/
def cscopeBuffer (l : BufferList) : BufferList × BufferPtr :=
  match l.ebFind "*cscope*" with
  | some b => (l, b.ptr)
  | none => (l.ebNew "*cscope*" { readonly := true, system := true }, l.nextBuffer)

/-- The part of `cscope_query_and_show` that splits the window. -/
def cscopeShow (qe : QeState) (b : BufferPtr) (w : EditState) : QeState :=
  let y := (w.y2 + w.y1).tdiv 2
  let qs := (editNew qe.toQEmacsState b w.x1 y (w.x2 - w.x1) (w.y2 - y) { modeline := true, rseparator := w.flags.rseparator }).update
    w.ptr fun w => { w with y2 := y }
  { qe with toQEmacsState := doRefresh { qs with activeWindow := some qe.nextPtr } }

/-- `cscope_query_and_show` on `cs.os`, with the number of the entries, and the file of the first one. -/
def cscopeQueryAndShow (qe : QeState) (entries : Nat) (filename : String) (type : FileType) : Except Fault QeState := do
  let answers := cscopeBuffer qe.toBufferList
  let w ← qe.cscopeOs
  let qe := { qe with toBufferList := answers.1.ebAddlog answers.2 }
  if 1 < entries then return qe.cscopeShow answers.2 w
  else (qe.cscopePushMark w.b).doLoad w.ptr filename type

/-- `cscope_select_file`. -/
def cscopeSelectFile (qe : QeState) (s : WindowPtr) (filename : String) (type : FileType) : Except Fault QeState := do
  let _ ← qe.deref s
  let w ← qe.cscopeOs
  (qe.cscopePushMark w.b).doLoad w.ptr filename type

/-- `do_cscope_pop_mark`. -/
def doCscopePopMark (qe : QeState) : Except Fault QeState :=
  match qe.marks with
  | [] => .ok qe
  | b :: marks => do
    let w ← qe.cscopeOs
    return { qe with marks := marks }.switchToBuffer w.ptr b

/-! ### Shells -/

/-- `new_shell_buffer`: the buffer is the one at `nextBuffer`. -/
def newShellBuffer (l : BufferList) (name : String) (isShell launched : Bool) : BufferList :=
  let b := l.nextBuffer
  let l := (l.ebNew "" { savelog := true }).setBufferName b name
  let l := if isShell then l.ebNew "*color*" { system := true } else l
  if launched then l else l.ebFree b

/-- `do_shell`. -/
def doShell (qe : QeState) (s : WindowPtr) (launched : Bool) : Except Fault QeState := do
  let _ ← qe.deref s
  let b := qe.nextBuffer
  let qe := qe.onBuffers (newShellBuffer · "*shell*" true launched)
  return if launched then qe.switchToBuffer s b else qe

/-- The part of `do_compile` that kills the buffer of the last compilation. -/
def killCompilation (qe : QeState) : Except Fault QeState :=
  match qe.ebFind "*compilation*" with
  | some b => (qe.onBuffers (·.updateBuffer b.ptr fun c => { c with modified := false })).doKillBuffer "*compilation*" false
  | none => .ok qe

/-- `do_compile`. -/
def doCompile (qe : QeState) (s : WindowPtr) (launched : Bool) : Except Fault QeState := do
  let _ ← qe.deref s
  let qe ← qe.killCompilation
  let b := qe.nextBuffer
  let qe := qe.onBuffers (newShellBuffer · "*compilation*" false launched)
  return if launched then qe.switchToBuffer s b else qe

end QeState

/-! ## Calls -/

/-- The function of a command is called on a window. -/
def UserCommand.call (c : UserCommand) (s : WindowPtr) (qe : QeState) : Except Fault QeState :=
  match c with
  | .splitWindow horiz => qe.onWindows (doSplitWindow · s horiz)
  | .otherWindow => qe.onWindows (doOtherWindow · s)
  | .deleteWindow => qe.onWindows (doDeleteWindow · s false)
  | .deleteOtherWindows => qe.onWindows (doDeleteOtherWindows · s)
  | .listBuffers items => qe.doListBuffers s items
  | .dired directory items => qe.doDired s directory items
  | .bufedSelect name => qe.bufedSelect s name
  | .bufedKillBuffer names yes => qe.bufedKillBuffer s names yes
  | .diredSelect filename type => qe.diredSelect s filename type
  | .describeBindings => qe.doDescribeBindings s
  | .helpForHelp => .ok qe.showHelp
  | .lessQuit => qe.lessQuit s
  | .completion count longer => qe.doCompletion s count longer
  | .history change => qe.doHistory s change
  | .edit => qe.doEdit s
  | .undo played => qe.doUndo s played
  | .killRegion kill len inside => qe.doKillRegion s kill len inside
  | .yank size => qe.doYank s size
  | .yankPop played size => qe.doYankPop s played size
  | .toggleReadOnly => qe.doToggleReadOnly s
  | .switchToBuffer name => qe.doSwitchToBuffer s name
  | .killBuffer name yes => qe.doKillBuffer name yes
  | .load filename type => qe.doLoad s filename type
  | .findAlternateFile filename type yes => qe.doFindAlternateFile s filename type yes
  | .save saveAs reply written => qe.doSave s saveAs reply written
  | .insertRectangle => qe.minibufferEdit (.insertRectangle s)
  | .ask => qe.minibufferEdit .other
  | .cscopeOperation entries filename type => { qe with cscopeWindow := some s }.minibufferEdit (.cscope entries filename type)
  | .cscopeSelect filename type => qe.cscopeSelectFile s filename type
  | .cscopePopMark => qe.doCscopePopMark
  | .shell launched => qe.doShell s launched
  | .compile launched => qe.doCompile s launched

namespace QeState

/-- The loop at the end of `parse_args`, which resets the fields of the window before each call. -/
def callTimes (f : QeState → Except Fault QeState) (s : WindowPtr) : Nat → QeState → Except Fault QeState
  | 0, qe => .ok qe
  | n + 1, qe => do
    let _ ← qe.deref s
    let qe ← f qe
    callTimes f s n qe

/-- `parse_args`. -/
def parseArgs (qe : QeState) (es : ExecCmdState) : Except Fault QeState :=
  if es.prompts = 0 then callTimes (es.command.call es.s) es.s (max es.rep 1) qe
  else qe.minibufferEdit (.exec { es with prompts := es.prompts - 1 })

/-- What a callback does with the reply. -/
def reply (qe : QeState) : MinibufferCb → Except Fault QeState
  | .exec es => qe.parseArgs es
  | .killBuffer b yes => .ok (if yes then qe.killBufferNoconfirm b else qe)
  | .saveEdit s filename written => do
    let w ← qe.deref s
    return (qe.onBuffers (·.setFilename w.b filename)).saveFinal w.b written
  | .insertRectangle s => do
    let w ← qe.deref s
    return qe.onBuffers (·.ebAddlog w.b)
  | .cscope entries filename type => qe.cscopeQueryAndShow entries filename type
  | .other => .ok qe

/-- The part of `do_minibuffer_exit` that closes the completion popup. -/
def closeCompletion (qe : QeState) : Except Fault QeState :=
  match qe.completionPopupWindow with
  | some p => do
    let w ← qe.deref p
    let qs ← editClose qe.toQEmacsState p
    return { qe with toQEmacsState := doRefresh qs, toBufferList := qe.toBufferList.ebFree w.b }
  | none => .ok qe

/-- `do_minibuffer_exit`, up to where it calls the callback. -/
def closeMinibuffer (qe : QeState) (s : WindowPtr) : Except Fault QeState := do
  let w ← qe.deref s
  let qe ← qe.closeCompletion
  let qs ← editClose qe.toQEmacsState s
  return { qe with
    toQEmacsState := { qs with activeWindow := qe.minibufferSavedActive }
    toBufferList := qe.toBufferList.ebFree w.b
    minibufferCb := none }

/-- `do_minibuffer_exit`. -/
def doMinibufferExit (s : WindowPtr) (abort : Bool) (qe : QeState) : Except Fault QeState := do
  let after ← qe.closeMinibuffer s
  match qe.minibufferCb with
  | some cb => if abort then after.abort cb else after.reply cb
  | none => .error .null

/-- `active_window`, which `qe_key_process` follows. -/
def active (qe : QeState) : Except Fault WindowPtr :=
  match qe.activeWindow with
  | some s => (qe.deref s).map fun _ => s
  | none => .error .null

end QeState

/-- What the user does, a click on the window at a place of the list for one, and the display of the directory in a window. -/
inductive UserEvent where
  | key (prompts : Nat) (command : UserCommand) (rep : Nat)
  | exit (abort : Bool) (rep : Nat)
  | click (i : Nat)
  | resize (screen : QEditScreen)
  | preview (i : Nat) (filename : String) (type : FileType)
deriving DecidableEq, Repr

/-- `qe_key_process` where a command is found, `text_mouse_goto`, `do_refresh` and `dired_display`. -/
def UserEvent.run (qe : QeState) : UserEvent → Except Fault QeState
  | .key prompts command rep => do
    let s ← qe.active
    qe.parseArgs ⟨s, prompts, command, rep⟩
  | .exit abort rep => do
    let s ← qe.active
    QeState.callTimes (QeState.doMinibufferExit s abort) s (max rep 1) qe
  | .click i => .ok (match qe.windows[i]? with
    | some w => if w.flags.popup then qe else { qe with activeWindow := some w.ptr }
    | none => qe)
  | .resize screen => .ok { qe with toQEmacsState := doRefresh { qe.toQEmacsState with screen := screen } }
  | .preview i filename type =>
    match qe.windows[i]? with
    | some w => qe.openNewFile w.ptr filename type
    | none => .ok qe

/-- A sequence of events, from left to right. -/
def runEvents (qe : QeState) : List UserEvent → Except Fault QeState
  | [] => .ok qe
  | ev :: evs => (ev.run qe).bind (runEvents · evs)

/-- The editor as it starts, on the buffer `*scratch*`. -/
def QeState.start (screen : QEditScreen) (hideStatus : Bool) : QeState :=
  { toQEmacsState := startup screen hideStatus
    toBufferList := BufferList.ebNew ⟨[], 0⟩ "*scratch*" { savelog := true }
    yankBuffers := List.replicate nbYankBuffers none
    yankCurrent := 0
    minibufferCb := none
    minibufferSavedActive := none
    completionPopupWindow := none
    popupSavedActive := none
    cscopeWindow := none
    marks := [] }

end Hoe
