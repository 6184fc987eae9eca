import Hoe.Keys
import Hoe.Lib.Walk

/-!
# File names

The functions of util.c that make a file name canonical and absolute, on strings without a NUL, and what a name means: the path of
names from the root that it spells. The buffers have the sizes that the program gives them, and what does not fit is cut off.
-/

namespace Hoe

def slash : Byte := 0x2f

def dot : Byte := 0x2e

def colon : Byte := 0x3a

/-! ## Strings -/

/-- `pstrcpy`. -/
def pstrcpy (bufSize : Nat) (str : List Byte) : List Byte := str.take (bufSize - 1)

/-- `strchr`, as an index. -/
def strchr (s : List Byte) (c : Byte) : Option Nat := s.idxOf? c

/-- `strrchr`, as an index. -/
def strrchr (s : List Byte) (c : Byte) : Option Nat := (s.reverse.idxOf? c).map fun i => s.length - 1 - i

/-- `qe_basename`. -/
def qeBasename (filename : List Byte) : List Byte :=
  match strrchr filename slash with
  | some p => filename.drop (p + 1)
  | none => filename

/-! ## The canonical name -/

/-- The end of the loop of `canonize_path1`, at the label `copy`. -/
def copyFile (bufSize : Nat) (absPath : Bool) (buf file : List Byte) : List Byte :=
  pstrcat bufSize (if buf != [] || absPath then pstrcat bufSize buf [slash] else buf) file

/-- A turn of the loop of `canonize_path1`, which has room for 1023 characters of the file. -/
def addFile (bufSize : Nat) (absPath : Bool) (buf file : List Byte) : List Byte :=
  let file := file.take 1023
  if file == [] || file == [dot] then buf
  else if file == [dot, dot] then
    if buf == [] then
      if absPath then buf else copyFile bufSize absPath buf file
    else
      match strrchr buf slash with
      | none => copyFile bufSize absPath buf file
      -- if already going up, cannot do more
      | some q1 => if buf.drop (q1 + 1) == [dot, dot] then copyFile bufSize absPath buf file else buf.take q1
  else copyFile bufSize absPath buf file

/-- `canonize_path1`. -/
def canonizePath1 (bufSize : Nat) (path : List Byte) : List Byte :=
  let absPath := path.head? == some slash
  let buf := (path.splitOn slash).foldl (addFile bufSize absPath) []
  if buf == [] then pstrcat bufSize buf (if absPath then [slash] else [dot]) else buf

/-- `canonize_path`. A colon behind one character is that of a drive, and any other one that of a URL. -/
def canonizePath (bufSize : Nat) (path : List Byte) : List Byte :=
  match strchr path colon with
  | some p =>
    -- the two characters that are copied are the colon and the one behind it, which ends the name if it is the NUL
    if p = 1 then (path.drop p).take 2 ++ (if path.length = 2 then [] else canonizePath1 (bufSize - 2) (path.drop p))
    else pstrcpy bufSize path
  | none => canonizePath1 bufSize path

/-- `is_abs_path`. -/
def isAbsPath (path : List Byte) : Bool :=
  match strchr path colon with
  | some p => (path.drop (p + 1)).head? == some slash
  | none => path.head? == some slash

/-- `canonize_absolute_path`, where `getcwd` gives `cwd`. -/
def canonizeAbsolutePath (cwd : List Byte) (bufSize : Nat) (path1 : List Byte) : List Byte :=
  canonizePath bufSize
    (if isAbsPath path1 then pstrcpy 1024 path1 else pstrcat 1024 (pstrcat 1024 (pstrcpy 1024 cwd) [slash]) path1)

/-! ## What a name spells -/

/-- What a component of a path does: nothing, a step up, or a step down. -/
def stepOf (file : List Byte) : Option (Walk.Step (List Byte)) :=
  if file = [] ∨ file = [dot] then none else if file = [dot, dot] then some .up else some (.down file)

/-- The walk that the components of a path make. -/
def stepsOf (path : List Byte) : List (Walk.Step (List Byte)) := (path.splitOn slash).filterMap stepOf

/-- The names from the root that are left of an absolute path. -/
def pathOf (path : List Byte) : List (List Byte) := Walk.resolve [] (stepsOf path)

/-- An absolute path that has these names. -/
def SpellsPath (path : List Byte) (names : List (List Byte)) : Prop := path.head? = some slash ∧ pathOf path = names

/-- A slash before each name. -/
def slashed (names : List (List Byte)) : List Byte := names.flatMap (slash :: ·)

/-- The shortest spelling of the names. -/
def spell (names : List (List Byte)) : List Byte := if names = [] then [slash] else slashed names

end Hoe
