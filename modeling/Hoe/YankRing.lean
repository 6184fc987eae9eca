import Hoe.Editor

/-!
# Killing and yanking

The ring of yank buffers, `do_kill_region`, `do_yank` and `do_yank_pop` on the buffers themselves. Each kill goes to a new buffer
one slot further on, each yank-pop goes one slot back. The kills before a yank may come from any windows: the ring is what they
share.
-/

namespace Hoe

/-- The fields of `QEmacsState` that every window shares: `yank_buffers` and `yank_current`. -/
structure YankRing where
  yankBuffers : List YankBuffer
  yankCurrent : Nat
deriving DecidableEq, Repr

/-- The ring at the start. -/
def YankRing.empty : YankRing := { yankBuffers := List.replicate nbYankBuffers .null, yankCurrent := 0 }

namespace Editor

/-- The ring as the window sees it. -/
def yankRing (ed : Editor) : YankRing := { yankBuffers := ed.yankBuffers, yankCurrent := ed.yankCurrent }

/-- The window when the ring is another one. -/
def withYankRing (ed : Editor) (ring : YankRing) : Editor :=
  { ed with yankBuffers := ring.yankBuffers, yankCurrent := ring.yankCurrent }

/-- The buffer in the current slot has changed. -/
def setYankBuffer (ed : Editor) (b : EditBuffer) : Editor :=
  { ed with yankBuffers := ed.yankBuffers.set ed.yankCurrent (.own b) }

/-- `new_yank_buffer`. The buffer that was in the slot is freed; that of the window is still needed. -/
def newYankBuffer (ed : Editor) : Option Editor :=
  let current := if ed.yankCurrent + 1 = nbYankBuffers then 0 else ed.yankCurrent + 1
  if ed.yankBuffers.getD current .null = .window then none
  else some ({ ed with yankCurrent := current }.setYankBuffer (EditBuffer.new false))

/-- The two ends of what `do_kill_region` works on, in order: from the point to the end of the line, or over it when the point is
there (`kill` = 2), or to the mark. -/
def killedRegion (ed : Editor) (kill : Nat) : Int × Int :=
  let p2 := ed.offset
  let p1 :=
    if kill = 2 then if (ed.reader.nextc p2).1 = newline then (ed.reader.nextc p2).2 else ed.reader.moveEol p2
    else ed.buffer.mark
  if p2 < p1 then (p2, p1) else (p1, p2)

/-- `do_kill_region`: a copy (0), a kill (1), or a kill of the line (2). -/
def doKillRegion (ed : Editor) (kill : Nat) : Option Editor :=
  if ed.buffer.readOnly then some ed else do
    let p1 := (ed.killedRegion kill).1
    let len := (ed.killedRegion kill).2 - p1
    let ed ← ed.newYankBuffer
    let (b, ed) ← ed.ebInsertBufferFrom (EditBuffer.new false) 0 p1 len
    let ed := ed.setYankBuffer b
    if kill = 0 then some ed else do
      let ed ← ed.ebDelete p1 len
      some { ed with offset := p1 }

/-- `do_yank`. A buffer cannot be inserted into itself. -/
def doYank (ed : Editor) : Option Editor :=
  if ed.buffer.readOnly then some ed else
  match ed.yankBuffers.getD ed.yankCurrent .null with
  | .null => some ed
  | .window => if 0 < ed.total then none else some ed
  | .own b =>
    let size := b.totalSize
    if 0 < size then do
      let (ed, b) ← ed.ebInsertBufferInto ed.offset b 0 size
      let ed := ed.setYankBuffer b
      some { ed with offset := ed.offset + size }
    else some ed

/-- `do_undo` in the window; `chained` says that the last command was `do_undo` too. -/
def doUndo (ed : Editor) (chained : Bool) : Option Editor :=
  let undone := Hoe.doUndo chained ed.buffer
  if undone.2.2 = .abort then none else
  let ed := ed.changed undone.1
  some { ed with offset := (undone.2.1.map Int.ofNat).getD ed.offset }

/-- `do_yank_pop`. -/
def doYankPop (ed : Editor) (chained : Bool) : Option Editor := do
  let ed ← ed.doUndo chained
  let ed := { ed with yankCurrent := if ed.yankCurrent = 0 then nbYankBuffers - 1 else ed.yankCurrent - 1 }
  ed.doYank

/-- One yank and a number of yank-pops right behind it. The last command is never `do_undo` then. -/
def yankPops : Nat → Editor → Option Editor
  | 0, ed => ed.doYank
  | n + 1, ed => do
    let ed ← yankPops n ed
    ed.doYankPop false

end Editor

/-- A kill or a copy: the window it happens in, with its buffer, its mark and its point, and the argument of the command. -/
structure Kill where
  window : Editor
  kill : Nat

namespace Kill

/-- What is killed. -/
def text (k : Kill) : List Byte :=
  let r := k.window.killedRegion k.kill
  Splice.slice k.window.buffer.bytes r.1.toNat (r.2 - r.1).toNat

/-- The kill in a session that has the ring. -/
def run (k : Kill) (ring : YankRing) : Option YankRing := ((k.window.withYankRing ring).doKillRegion k.kill).map (·.yankRing)

end Kill

/-- The ring after a sequence of kills. -/
def killAll (ring : YankRing) (kills : List Kill) : Option YankRing := kills.foldlM (fun ring k => k.run ring) ring

end Hoe
