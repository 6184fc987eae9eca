import Hoe.Lib.Links
import Hoe.Lib.Outcome

/-!
# The main loop

unix.c, over the lists of cutils.h: the bottom halves, the handlers of descriptors and of processes, and `url_block`, which calls
them. What the callbacks do is a parameter (`Client`), with the answers of `select` and `waitpid`. An entry of a list is a block of
its own: a pointer to one that was freed stops the program. The program adds no timer, so that `check_timers` calls nothing; it is
left out. The loops take as many rounds as they are given, and are cut off when these are used up.
-/

namespace Hoe

open Links

namespace MainLoop

variable {κ σ : Type} [DecidableEq κ]

/-- What stops the loop: a block that was freed, a handler that is `NULL`, a descriptor without a place in `url_handlers`, a value
that nothing was stored in, and a process that never ends.
-/
inductive LoopFault where
  | freed
  | null
  | outside
  | unset
  | hung
  | cut
deriving DecidableEq, Repr

/-- The heads of the two lists, and the entries of both. -/
inductive Node where
  | bottomHalves
  | pidHandlers
  | entry (n : Nat)
deriving DecidableEq, Repr

/-- `BottomHalfEntry` and `PidHandler`. A callback stands for the function and its `opaque`. -/
inductive Entry (κ : Type) where
  | bottomHalf (cb : κ)
  | pidHandler (pid : Int) (cb : κ)
deriving DecidableEq, Repr

/-- Descriptors are read or written. -/
inductive Way where
  | read
  | write
deriving DecidableEq, Repr

/-- What becomes of a bottom half. -/
inductive LoopEvent (κ : Type) where
  | registered (cb : κ)
  | unregistered (cb : κ)
  | called (cb : κ)
deriving DecidableEq, Repr

/-- The static variables of unix.c: the lists with their entries, `url_handlers`, and the sets of descriptors that `select` is
given. `trace` is what became of the bottom halves so far. -/
structure Loop (κ : Type) where
  links : Store Node
  entries : List (Option (Entry κ))
  handlers : Way → Nat → Option κ
  fds : Way → Nat → Bool
  fdmax : Int
  exitRequest : Bool
  trace : List (LoopEvent κ)

/-- The size of `url_handlers`. -/
def maxHandlers : Nat := 256

/-- What `LIST_HEAD` and `url_block_reset` set up. -/
def Loop.start : Loop κ where
  links := ⟨id, id⟩
  entries := []
  handlers := fun _ _ => none
  fds := fun _ _ => false
  fdmax := -1
  exitRequest := false
  trace := []

namespace Loop

/-! ## Lists -/

/-- The entry at an address. -/
def entry (l : Loop κ) : Node → Except LoopFault (Entry κ)
  | .entry n => match l.entries[n]?.join with
    | some e => .ok e
    | none => .error .freed
  | _ => .error .freed

/-- There is something at an address. -/
def alive (l : Loop κ) : Node → Bool
  | .entry n => l.entries[n]?.join.isSome
  | _ => true

/-- `elem->next`. -/
def next (l : Loop κ) (elem : Node) : Except LoopFault Node :=
  if l.alive elem then .ok (l.links.next elem) else .error .freed

/-- `list_add`. -/
def listAdd (l : Loop κ) (elem head : Node) : Except LoopFault (Loop κ) :=
  if l.alive elem ∧ l.alive (l.links.next head) then
    .ok { l with links := l.links.insert elem head (l.links.next head) }
  else .error .freed

/-- `list_del`. -/
def listDel (l : Loop κ) (elem : Node) : Except LoopFault (Loop κ) :=
  if l.alive elem ∧ l.alive (l.links.prev elem) ∧ l.alive (l.links.next elem) then
    .ok { l with links := l.links.remove (l.links.prev elem) (l.links.next elem) }
  else .error .freed

/-- `malloc`, with what is stored in the entry then. -/
def malloc (l : Loop κ) (e : Entry κ) : Loop κ × Node := ({ l with entries := l.entries ++ [some e] }, .entry l.entries.length)

/-- `free`. -/
def free (l : Loop κ) : Node → Except LoopFault (Loop κ)
  | .entry n => if l.alive (.entry n) then .ok { l with entries := l.entries.set n none } else .error .freed
  | _ => .error .freed

/-- One more event. -/
def tell (l : Loop κ) (ev : LoopEvent κ) : Loop κ := { l with trace := l.trace ++ [ev] }

/-! ## Registering -/

/-- What `set_read_handler` and `set_write_handler` have in common. -/
def setHandler (way : Way) (l : Loop κ) (fd : Nat) (cb : Option κ) : Except LoopFault (Loop κ) :=
  if fd < maxHandlers then
    .ok { l with
      handlers := Function.update l.handlers way (Function.update (l.handlers way) fd cb)
      fds := Function.update l.fds way (Function.update (l.fds way) fd cb.isSome)
      fdmax := if cb.isSome ∧ l.fdmax ≤ fd then fd else l.fdmax }
  else .error .outside

/-- `set_read_handler`. -/
def setReadHandler (l : Loop κ) (fd : Nat) (cb : Option κ) : Except LoopFault (Loop κ) := l.setHandler .read fd cb

/-- `set_write_handler`. -/
def setWriteHandler (l : Loop κ) (fd : Nat) (cb : Option κ) : Except LoopFault (Loop κ) := l.setHandler .write fd cb

/-- The loop of `set_pid_handler` without a callback, from an entry on. -/
def deletePid (pid : Int) : Nat → Node → Loop κ → Except LoopFault (Loop κ)
  | 0, _, _ => .error .cut
  | fuel + 1, p, l =>
    if p = .pidHandlers then .ok l
    else
      (l.entry p).bind fun e =>
        match e with
        | .pidHandler q _ => if q = pid then (l.listDel p).bind fun l => l.free p else (l.next p).bind fun p => deletePid pid fuel p l
        | .bottomHalf _ => .error .freed

/-- `set_pid_handler`. -/
def setPidHandler (l : Loop κ) (pid : Int) : Option κ → Except LoopFault (Loop κ)
  | none => deletePid pid (l.entries.length + 1) (l.links.next .pidHandlers) l
  | some cb => (l.malloc (.pidHandler pid cb)).1.listAdd (l.malloc (.pidHandler pid cb)).2 .pidHandlers

/-- `register_bottom_half`. -/
def registerBottomHalf (l : Loop κ) (cb : κ) : Except LoopFault (Loop κ) :=
  ((l.malloc (.bottomHalf cb)).1.listAdd (l.malloc (.bottomHalf cb)).2 .bottomHalves).map (·.tell (.registered cb))

/-- The loop of `unregister_bottom_half`, with the entry behind the one that is looked at. -/
def unregisterLoop (cb : κ) : Nat → Node → Node → Loop κ → Except LoopFault (Loop κ)
  | 0, _, _, _ => .error .cut
  | fuel + 1, bh, bh1, l =>
    if bh = .bottomHalves then .ok l
    else
      (l.entry bh).bind fun e =>
        (if e = .bottomHalf cb then (l.listDel bh).bind fun l => l.free bh else .ok l).bind fun l =>
          (l.next bh1).bind fun bh2 => unregisterLoop cb fuel bh1 bh2 l

/-- `unregister_bottom_half`. -/
def unregisterBottomHalf (l : Loop κ) (cb : κ) : Except LoopFault (Loop κ) :=
  ((l.next (l.links.next .bottomHalves)).bind fun bh1 =>
    unregisterLoop cb (l.entries.length + 1) (l.links.next .bottomHalves) bh1 l).map (·.tell (.unregistered cb))

/-- `url_exit`. -/
def urlExit (l : Loop κ) : Loop κ := { l with exitRequest := true }

end Loop

/-! ## Callbacks -/

/-- What a callback asks of the loop. -/
inductive LoopCall (κ : Type) where
  | setReadHandler (fd : Nat) (cb : Option κ)
  | setWriteHandler (fd : Nat) (cb : Option κ)
  | setPidHandler (pid : Int) (cb : Option κ)
  | registerBottomHalf (cb : κ)
  | unregisterBottomHalf (cb : κ)
  | urlExit
deriving DecidableEq, Repr

/-- The call is made. -/
def LoopCall.run (l : Loop κ) : LoopCall κ → Except LoopFault (Loop κ)
  | .setReadHandler fd cb => l.setReadHandler fd cb
  | .setWriteHandler fd cb => l.setWriteHandler fd cb
  | .setPidHandler pid cb => l.setPidHandler pid cb
  | .registerBottomHalf cb => l.registerBottomHalf cb
  | .unregisterBottomHalf cb => l.unregisterBottomHalf cb
  | .urlExit => .ok l.urlExit

/-- The calls are made one after the other. -/
def runCalls (l : Loop κ) : List (LoopCall κ) → Except LoopFault (Loop κ)
  | [] => .ok l
  | c :: cs => (c.run l).bind fun l => runCalls l cs

/-- What a callback does: what it asks of the loop, and the state of the program then, unless it is stopped. -/
structure Turn (κ σ : Type) where
  calls : List (LoopCall κ)
  result : Except LoopFault σ

/-- One after the other. -/
def Turn.andThen (t : Turn κ σ) (f : σ → Turn κ σ) : Turn κ σ :=
  match t.result with
  | .error e => ⟨t.calls, .error e⟩
  | .ok w => ⟨t.calls ++ (f w).calls, (f w).result⟩

/-- The program around the loop: what a callback does, with the status of the process that ended, and what `select` and `waitpid`
answer. -/
structure Client (κ σ : Type) where
  body : κ → Int → σ → Turn κ σ
  select : (Way → Nat → Bool) → σ → (Way → Nat → Bool) × σ
  waitpid : σ → Option (Int × Int) × σ

namespace Client

variable (c : Client κ σ)

/-- A callback is called. -/
def call (cb : κ) (status : Int) (s : Loop κ × σ) : Except LoopFault (Loop κ × σ) :=
  (runCalls s.1 (c.body cb status s.2).calls).bind fun l => (c.body cb status s.2).result.map fun w => (l, w)

/-- `call_bottom_halves`. -/
def callBottomHalves : Nat → Loop κ × σ → Except LoopFault (Loop κ × σ)
  | 0, _ => .error .cut
  | fuel + 1, s =>
    if s.1.links.next .bottomHalves = .bottomHalves then .ok s
    else
      let bh := s.1.links.prev .bottomHalves
      (s.1.listDel bh).bind fun l =>
        (l.entry bh).bind fun e =>
          match e with
          | .pidHandler _ _ => .error .freed
          | .bottomHalf cb =>
            (c.call cb 0 (l.tell (.called cb), s.2)).bind fun s => (s.1.free bh).bind fun l => callBottomHalves fuel (l, s.2)

/-! ## One round -/

/-- The handler of a descriptor that is ready is called. -/
def callHandler (fuel : Nat) (ready : Way → Nat → Bool) (way : Way) (i : Nat) (s : Loop κ × σ) : Except LoopFault (Loop κ × σ) :=
  if ready way i then
    match s.1.handlers way i with
    | none => .error .null
    | some cb => (c.call cb 0 s).bind (c.callBottomHalves fuel)
  else .ok s

/-- The loop of `url_block` over the descriptors, `n` of them at most. -/
def handlerLoop (fuel : Nat) (ready : Way → Nat → Bool) : Nat → Nat → Loop κ × σ → Except LoopFault (Loop κ × σ)
  | 0, _, s => .ok s
  | n + 1, i, s =>
    if (i : Int) ≤ s.1.fdmax then
      (c.callHandler fuel ready .read i s).bind fun s =>
        (c.callHandler fuel ready .write i s).bind fun s => handlerLoop fuel ready n (i + 1) s
    else .ok s

/-- The loop over the handlers of processes, for one that ended. -/
def pidLoop (fuel : Nat) (pid status : Int) : Nat → Node → Node → Loop κ × σ → Except LoopFault (Loop κ × σ)
  | 0, _, _, _ => .error .cut
  | n + 1, ph, ph1, s =>
    if ph = .pidHandlers then .ok s
    else
      (s.1.entry ph).bind fun e =>
        match e with
        | .bottomHalf _ => .error .freed
        | .pidHandler p cb =>
          if p = pid then (c.call cb status s).bind (c.callBottomHalves fuel)
          else (s.1.next ph1).bind fun ph2 => pidLoop fuel pid status n ph1 ph2 s

/-- The loop of `url_block` over the processes that ended. -/
def waitLoop (fuel : Nat) : Nat → Loop κ × σ → Except LoopFault (Loop κ × σ)
  | 0, _ => .error .cut
  | n + 1, s =>
    if s.1.links.next .pidHandlers = .pidHandlers then .ok s
    else
      match c.waitpid s.2 with
      | (none, w) => .ok (s.1, w)
      | (some (pid, status), w) =>
        (s.1.next (s.1.links.next .pidHandlers)).bind fun ph1 =>
          (c.pidLoop fuel pid status (s.1.entries.length + 1) (s.1.links.next .pidHandlers) ph1 (s.1, w)).bind (waitLoop fuel n)

/-- `url_block`. -/
def urlBlock (fuel : Nat) (s : Loop κ × σ) : Except LoopFault (Loop κ × σ) :=
  let answer := c.select s.1.fds s.2
  let ready := fun way fd => s.1.fds way fd && answer.1 way fd
  (c.handlerLoop fuel ready maxHandlers 0 (s.1, answer.2)).bind (c.waitLoop fuel fuel)

/-- The loop of `url_main_loop`, `n` rounds at most. -/
def rounds (fuel : Nat) : Nat → Loop κ × σ → Except LoopFault (Loop κ × σ)
  | 0, s => .ok s
  | n + 1, s => if s.1.exitRequest then .ok s else (c.urlBlock fuel s).bind (rounds fuel n)

/-- `url_main_loop`. -/
def urlMainLoop (fuel n : Nat) (init : κ) (w : σ) : Except LoopFault (Loop κ × σ) :=
  (c.call init 0 (Loop.start, w)).bind (c.rounds fuel n)

end Client

end MainLoop

end Hoe
