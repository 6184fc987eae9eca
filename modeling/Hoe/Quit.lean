import Hoe.EditBuffer
import Hoe.Keys

/-!
# Quitting

The dialogue of qe.c that `do_quit` starts: it goes over the list of buffers, asks for each one that would be lost whether to
save it, and exits, after a last question when the user left one unsaved. The dialogue waits between keys, so it is a state
machine. Of `save_buffer` it has what happens to the buffer; what happens to the files is in `Hoe.Save`.
-/

namespace Hoe

/-- A buffer of the list, with what the dialogue looks at. `bufferSave` is what `buffer_save` of its data type will return, none
when the data type has no such function. -/
structure ListedBuffer where
  buffer : EditBuffer
  system : Bool
  filename : List Byte
  bufferSave : Option Int

namespace ListedBuffer

/-- The dialogue asks about the buffer. -/
def asks (b : ListedBuffer) : Bool := !b.system && !b.filename.isEmpty && b.buffer.modified

/-- `save_buffer`: the buffer, and what is returned. -/
def save (b : ListedBuffer) : ListedBuffer × Int :=
  match b.bufferSave with
  | none => (b, -1)
  | some ret => if ret < 0 then (b, ret) else ({ b with buffer := finishSave b.buffer }, 0)

end ListedBuffer

/-- `QS_ASK`, `QS_NOSAVE` and `QS_SAVE`. -/
inductive QuitMode where
  | ask
  | nosave
  | save
deriving DecidableEq, Repr

/-- A `QuitState` that waits for a key: the question is about `b`, between the buffers `passed` and the buffers `next`. -/
structure QuitState where
  state : QuitMode
  modified : Bool
  passed : List ListedBuffer
  b : ListedBuffer
  next : List ListedBuffer

/-- Where the dialogue is: it waits for a key, it has asked whether to exit anyway, it has called `url_exit` (after that question
or not), or it has ended without. -/
inductive Quit where
  | waiting (qs : QuitState)
  | confirming (bs : List ListedBuffer)
  | exited (confirmed : Bool) (bs : List ListedBuffer)
  | ended (bs : List ListedBuffer)

/-- `quit_examine_buffers`, behind the buffers `passed`. -/
def quitExamineBuffers (state : QuitMode) (modified : Bool) (passed : List ListedBuffer) : List ListedBuffer → Quit
  | [] => if modified then .confirming passed else .exited false passed
  | b :: next =>
    if b.asks then
      match state with
      | .ask => .waiting { state := state, modified := modified, passed := passed, b := b, next := next }
      | .nosave => quitExamineBuffers state true (passed ++ [b]) next
      | .save => quitExamineBuffers state modified (passed ++ [b.save.1]) next
    else quitExamineBuffers state modified (passed ++ [b]) next

/-- `KEY_DELETE`. -/
def keyDelete : Nat := 0xe103

/-- `KEY_CTRL('g')`. -/
def keyCtrlG : Nat := 7

/-- `quit_key`. What `save_buffer` returns is not looked at. -/
def quitKey (qs : QuitState) (ch : Nat) : Quit :=
  if ch = 'y'.toNat ∨ ch = ' '.toNat then
    quitExamineBuffers qs.state qs.modified (qs.passed ++ [qs.b.save.1]) qs.next
  else if ch = 'n'.toNat ∨ ch = keyDelete then
    quitExamineBuffers qs.state true (qs.passed ++ [qs.b]) qs.next
  else if ch = 'q'.toNat ∨ ch = keyRet then
    quitExamineBuffers .nosave true (qs.passed ++ [qs.b]) qs.next
  else if ch = '!'.toNat then
    quitExamineBuffers .save qs.modified (qs.passed ++ [qs.b.save.1]) qs.next
  else if ch = '.'.toNat then
    quitExamineBuffers .nosave qs.modified (qs.passed ++ [qs.b.save.1]) qs.next
  else if ch = keyCtrlG then .ended (qs.passed ++ qs.b :: qs.next)
  else .waiting qs

/-- `quit_confirm_cb`: the reply is none when the question was left. -/
def quitConfirmCb (bs : List ListedBuffer) (reply : Option (List Byte)) : Quit :=
  match reply with
  | none => .ended bs
  | some reply => if reply.headD 0 = 'y'.toNat ∨ reply.headD 0 = 'Y'.toNat then .exited true bs else .ended bs

/-- What comes from the user: a key, or a reply to the last question. -/
inductive QuitInput where
  | key (ch : Nat)
  | reply (reply : Option (List Byte))
deriving DecidableEq, Repr

namespace Quit

/-- One input. A key is for the dialogue while it waits for one, a reply while it has asked. -/
def step : Quit → QuitInput → Quit
  | waiting qs, .key ch => quitKey qs ch
  | confirming bs, .reply reply => quitConfirmCb bs reply
  | q, _ => q

/-- A run of the dialogue. -/
def steps (q : Quit) : List QuitInput → Quit
  | [] => q
  | i :: is => (q.step i).steps is

end Quit

/-- `do_quit`. -/
def doQuit (bs : List ListedBuffer) : Quit := quitExamineBuffers .ask false [] bs

end Hoe
