import Hoe.BufferList
import Hoe.Chars
import Hoe.Keys
import Hoe.Minibuffer

/-!
# The errors of a compilation

`do_compile_error` of shell.c, which goes to the next or the previous line of the compilation buffer that names a file and a line. Each
loop makes so many turns at most; there is no result where they do not suffice.
-/

namespace Hoe

namespace CompileError

open Minibuffer (cString)

/-- `error_offset`, `last_line_num` and `last_filename`. -/
structure ErrorState where
  errorOffset : Int
  lastLineNum : Int
  lastFilename : List Byte
deriving DecidableEq, Repr

/-- What `do_compile` does to them: the file name stays. -/
def ErrorState.doCompile (st : ErrorState) : ErrorState := { st with errorOffset := -1, lastLineNum := -1 }

/-- `sizeof(filename)`. -/
def filenameSize : Nat := 1024

/-- The line of an error, as an offset into the buffer, and what it says. -/
structure FoundError where
  offset : Int
  filename : List Byte
  lineNum : Int
deriving DecidableEq, Repr

/-- What the command comes to: a message, or a file that is loaded and a line of it that is gone to. -/
inductive Outcome where
  | putStatus (msg : String)
  | goto (error : FoundError)
deriving DecidableEq, Repr

section Loops

variable (r : Reader)

/-- The loop that goes on behind the end of the line. -/
def skipLine : Nat → Int → Option Int
  | 0, _ => none
  | n + 1, offset => if (r.nextc offset).1 = newline then some (r.nextc offset).2 else skipLine n (r.nextc offset).2

/-- The loop that goes back to the beginning of the line. -/
def lineStart : Nat → Int → Option Int
  | 0, _ => none
  | n + 1, offset => if (r.prevc offset).1 = newline then some offset else lineStart n (r.prevc offset).2

/-- The loop that extracts the file name, up to a colon: what the array has room for, and where it ends. -/
def extractFilename : Nat → List Byte → Int → Option (Option (List Byte × Int))
  | 0, _, _ => none
  | n + 1, q, offset =>
    let (c, offset) := r.nextc offset
    if c = newline ∨ c = '\t'.toNat ∨ c = ' '.toNat then some none
    else if c = ':'.toNat then some (some (q, offset))
    else extractFilename n (if q.length < filenameSize - 1 then q ++ [c % 256] else q) offset

/-- The loop that extracts the line number, up to a colon. -/
def extractLineNum : Nat → Int → Int → Option (Option Int)
  | 0, _, _ => none
  | n + 1, lineNum, offset =>
    let (c, offset) := r.nextc offset
    if c = ':'.toNat then some (some lineNum)
    else if isDigit c then extractLineNum n (wrapInt (lineNum * 10 + c - '0'.toNat)) offset
    else some none

/-- What stands behind the label `find_error`: the error of the line, unless the line before had the same. -/
def findError (st : ErrorState) (foundOffset : Int) : Option (Option FoundError) :=
  (extractFilename r r.turns [] foundOffset).bind fun
    | none => some none
    | some (filename, offset) => (extractLineNum r r.turns 0 offset).bind fun
      | none => some none
      | some lineNum =>
        if 1 ≤ lineNum ∧ (lineNum ≠ st.lastLineNum ∨ cString filename ≠ cString st.lastFilename) then
          some (some ⟨foundOffset, cString filename, lineNum⟩)
        else some none

/-- The line that the loop goes on with, if there is one. -/
def otherLine (dir : Int) (offset : Int) : Option (Option Int) :=
  if 0 < dir then if r.total ≤ offset then some none else (skipLine r r.turns offset).map some
  else if offset ≤ 0 then some none else (lineStart r r.turns (r.prevc offset).2).map some

/-- The loop over the lines. -/
def errorLoop (st : ErrorState) (dir : Int) : Nat → Int → Option (Option FoundError)
  | 0, _ => none
  | n + 1, offset => (otherLine r dir offset).bind fun
    | none => some none
    | some offset => (findError r st offset).bind fun found => found.elim (errorLoop st dir n offset) fun e => some (some e)

/-- The error that is gone to, if there is one. -/
def searchError (st : ErrorState) (dir : Int) : Option (Option FoundError) :=
  if st.errorOffset < 0 then
    (findError r st 0).bind fun found => found.elim (errorLoop r st dir (r.turns + 1) 0) fun e => some (some e)
  else errorLoop r st dir (r.turns + 1) st.errorOffset

end Loops

/-- `do_compile_error`, on the buffers `*compilation*` and `*shell*`, if there are any, and the buffer and the cursor of each window. -/
def doCompileError (compilation shell : Option (BufferPtr × Reader)) (st : ErrorState) (windows : List (BufferPtr × Int)) (dir : Int) :
    Option (ErrorState × List (BufferPtr × Int) × Outcome) :=
  match compilation.or shell with
  | none => some (st, windows, .putStatus "No compilation buffer")
  | some (b, r) => (searchError r st dir).map fun
    | none => (st, windows, .putStatus (if 0 < dir then "No more errors" else "No previous error"))
    | some e =>
      let windows := windows.map fun (b', offset) => (b', if b' = b then e.offset else offset)
      ({ errorOffset := e.offset, lastLineNum := e.lineNum, lastFilename := e.filename }, windows, .goto e)

/-- A number of calls of `next-error`, each with the windows as they are then, and what they come to. -/
def nextErrors (compilation shell : Option (BufferPtr × Reader)) (st : ErrorState) : List (List (BufferPtr × Int)) → Option (List Outcome)
  | [] => some []
  | windows :: calls => (doCompileError compilation shell st windows 1).bind fun (st, _, outcome) =>
    (nextErrors compilation shell st calls).map (outcome :: ·)

end CompileError

end Hoe
