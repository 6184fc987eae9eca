import Hoe.Theorems.Isolation
import Hoe.YankRing

/-!
# Killing and yanking in memory

`do_kill_region` and `do_yank` once more, on the buffers by number: the slots of the ring hold numbers of buffers, a killed text
shares the pages of its source that are read only, and a buffer that is used again is freed first. The window and the mark of its
buffer are moved by the callbacks, as on the layer above.
-/

namespace Hoe.InMemory

open Memory

/-- `eb_free`: the pages of the text and those of the log. Nothing is left at the address. -/
def ebFree (b : EditBuffer) : Mem Byte EditBuffer := do
  let b ← ebDelete { b with saveLog := false } 0 b.totalSize
  let _ ← deleteText (b.logBuffer.getD Pages.empty) 0 (b.logBuffer.getD Pages.empty).totalSize
  return EditBuffer.new false

/-- `yank_buffers` and `yank_current`: a slot is NULL or holds a buffer. -/
structure Ring where
  slots : List (Option Nat)
  current : Nat
  length_slots : slots.length = nbYankBuffers
  current_lt : current < nbYankBuffers

namespace Ring

/-- The slot that the next kill goes to. -/
def next (r : Ring) : Nat := if r.current + 1 = nbYankBuffers then 0 else r.current + 1

theorem next_lt (r : Ring) : r.next < nbYankBuffers := by
  have hlt := r.current_lt
  unfold next
  split <;> omega

/-- The slot of the next kill is the current one, and holds the buffer. -/
def push (r : Ring) (b : Nat) : Ring :=
  { slots := r.slots.set r.next (some b), current := r.next
    length_slots := by rw [List.length_set, r.length_slots], current_lt := r.next_lt }

/-- What the current slot holds. -/
def top (r : Ring) : Option Nat := r.slots.getD r.current none

@[simp] theorem top_push (r : Ring) (b : Nat) : (r.push b).top = some b := by
  have hlt : r.next < r.slots.length := by
    rw [r.length_slots]
    exact r.next_lt
  show (r.slots.set r.next (some b)).getD r.next none = some b
  rw [List.getD_eq_getElem?_getD, List.getElem?_set_self hlt]
  rfl

end Ring

/-- A window with the mark of its buffer, and what all windows share: the buffers and the ring. -/
structure Session where
  world : World
  ring : Ring
  buffer : Nat
  charset : Charset
  stack : List Byte
  readOnly : Bool
  mark : Int
  offset : Int

namespace Session

def reader (s : Session) : Reader := { text := s.world.text s.buffer, charset := s.charset, stack := s.stack }

/-- `total_size`. -/
def total (s : Session) : Int := (s.world.buffers s.buffer).totalSize

/-- A call of the buffer layer. One that its caller must not make is a fault. -/
def call (s : Session) (c : Call) : Except Memory.Fault Session :=
  if c.Allowed s.world then do
    let w ← c.run s.world
    return { s with world := w }
  else throw .wild

/-- The callbacks of the buffer of the window. -/
def notified (s : Session) (n : Note) : Session :=
  { s with mark := ebOffsetCallback s.mark n, offset := ebOffsetCallback s.offset n }

/-- A call of `eb_insert_buffer` with the buffer of the window as the source. -/
def ebInsertBufferFrom (s : Session) (dest : Nat) (srcOffset size : Int) : Except Memory.Fault Session :=
  if 0 ≤ srcOffset ∧ 0 ≤ size then s.call (.insertBuffer dest 0 s.buffer srcOffset.toNat size.toNat) else throw .wild

/-- A call of `eb_insert_buffer` with the buffer of the window as the destination, which is told of it. -/
def ebInsertBufferInto (s : Session) (destOffset : Int) (src size : Nat) : Except Memory.Fault Session :=
  if 0 ≤ destOffset then do
    let s ← s.call (.insertBuffer s.buffer destOffset.toNat src 0 size)
    return s.notified ⟨.insert, destOffset.toNat, size⟩
  else throw .wild

/-- A call of `eb_delete` in the buffer of the window. From the end of the text on it returns at once. -/
def ebDelete (s : Session) (offset size : Int) : Except Memory.Fault Session :=
  if s.total ≤ offset then pure s
  else if 0 ≤ offset ∧ 0 ≤ size then do
    let s ← s.call (.delete s.buffer offset.toNat size.toNat)
    return s.notified ⟨.delete, offset.toNat, size.toNat⟩
  else throw .wild

/-- What the slot of the next kill holds so far. -/
def reused (s : Session) : Option Nat := s.ring.slots.getD s.ring.next none

/-- `new_yank_buffer`, where `eb_new` answers the address. The buffer that was in the slot is freed; that of the window is still
needed. -/
def newYankBuffer (s : Session) (address : Nat) : Except Memory.Fault Session :=
  if s.reused = some s.buffer then throw .wild
  else do
    let w ← (match s.reused with
      | some b => Call.edit s.world b ebFree
      | none => pure s.world)
    let w := { w with buffers := Function.update w.buffers address (EditBuffer.new false) }
    return { s with world := w, ring := s.ring.push address }

/-- The two ends of what `do_kill_region` works on, in order. -/
def killedRegion (s : Session) (kill : Nat) : Int × Int :=
  let p2 := s.offset
  let p1 :=
    if kill = 2 then if (s.reader.nextc p2).1 = newline then (s.reader.nextc p2).2 else s.reader.moveEol p2
    else s.mark
  if p2 < p1 then (p2, p1) else (p1, p2)

/-- `do_kill_region`: a copy (0), a kill (1), or a kill of the line (2). -/
def doKillRegion (s : Session) (kill address : Nat) : Except Memory.Fault Session :=
  if s.readOnly then pure s
  else do
    let p1 := (s.killedRegion kill).1
    let len := (s.killedRegion kill).2 - p1
    let s ← s.newYankBuffer address
    let s ← s.ebInsertBufferFrom address p1 len
    if kill = 0 then pure s
    else do
      let s ← s.ebDelete p1 len
      return { s with offset := p1 }

/-- `do_yank`. -/
def doYank (s : Session) : Except Memory.Fault Session :=
  if s.readOnly then pure s
  else match s.ring.top with
    | none => pure s
    | some b =>
      let size := (s.world.buffers b).totalSize
      if 0 < size then do
        let s ← s.ebInsertBufferInto s.offset b size
        return { s with offset := s.offset + size }
      else pure s

end Session

/-- The calls, one after the other. -/
def runAll (w : World) : List Call → Except Memory.Fault World
  | [] => pure w
  | c :: cs => do
    let w ← c.run w
    runAll w cs

end Hoe.InMemory
