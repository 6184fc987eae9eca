import Hoe.Lib.Digits
import Hoe.Lib.Scanner
import Hoe.Prompts

/-!
# Configuration files

`parse_config_file` of qe.c: each line is read into an array, where it ends with a zero, and scanned there; behind the zero is what
was in the array before. A line comes to one call of a command, or to an error. What the commands do is not a part of it.
-/

namespace Hoe

open Prompts Scanner

namespace ConfigFile

/-- The name of a command can be read from a line: it fits the array `cmd`, it has no parenthesis and no zero, and it does not begin
with a space or like a comment. -/
structure ProperName (name : List Byte) : Prop where
  length : name.length < 127
  paren : 0x28 ∉ name
  zero : 0 ∉ name
  head : ∀ c ∈ name.head?, cssIsSpace c = false ∧ c ≠ 0x23
  slashes : name.take 2 ≠ cstr "//"

instance (name : List Byte) : Decidable (ProperName name) :=
  decidable_of_iff (name.length < 127 ∧ 0x28 ∉ name ∧ 0 ∉ name ∧ (∀ c ∈ name.head?, cssIsSpace c = false ∧ c ≠ 0x23) ∧ name.take 2 ≠ cstr "//")
    ⟨fun ⟨h₁, h₂, h₃, h₄, h₅⟩ => ⟨h₁, h₂, h₃, h₄, h₅⟩, fun ⟨h₁, h₂, h₃, h₄, h₅⟩ => ⟨h₁, h₂, h₃, h₄, h₅⟩⟩

/-- A command with its name. -/
structure ConfigCmd extends Prompts.CmdDef where
  name : List Byte
  proper : ProperName name
deriving DecidableEq

/-- Why a line is left: a byte is read that is not in the array; nothing stands on the line; or it is an error, for which `fprintf`
prints what was expected. -/
inductive LineError where
  | past
  | blank
  | unknownCommand
  | badlyDefined
  | expected (c : Byte)
  | stringExpected
deriving DecidableEq, Repr

/-- `*p`. -/
def current : Scanner Byte LineError Byte := peekAt .past 0

/-- `skip_spaces`. -/
def skipSpaces : Scanner Byte LineError Unit := do
  let _ ← spanWhile .past cssIsSpace
  return ()

/-- `get_str`. -/
def getStr (bufSize : Nat) (stop : List Byte) : Scanner Byte LineError (List Byte) := do
  let s ← spanWhile .past fun c => c != 0 && !stop.contains c
  return s.take (bufSize - 1)

/-! ## Integers -/

/-- A digit of a number in a base. -/
def isDigitOf (base : Nat) (c : Byte) : Bool := (toHex c).any (· < base)

/-- The number that digits in a base stand for. -/
def numberOf (base : Nat) (s : List Byte) : Nat := Digits.value base 0 (s.map fun d => (toHex d).getD 0)

/-- A `long` that a number is brought into. -/
def clampLong (n : Int) : Int := max (-2 ^ 63) (min n (2 ^ 63 - 1))

/-- The base of a number, behind what says that it is hexadecimal. -/
def strtolBase : Scanner Byte LineError Nat := do
  let c ← current
  if c ≠ 0x30 then return 10 else
    let x ← peekAt .past 1
    if x ≠ 0x78 ∧ x ≠ 0x58 then return 8 else
      let d ← peekAt .past 2
      if isDigitOf 16 d then
        let _ ← advance .past 2
        return 16
      else return 8

/-- The sign of a number. -/
def strtolSign : Scanner Byte LineError Int := do
  let c ← current
  if c = 0x2d then
    let _ ← advance .past 1
    return -1
  else if c = 0x2b then
    let _ ← advance .past 1
    return 1
  else return 1

/-- The number that `strtol` finds, if there is one. -/
def strtolNumber : Scanner Byte LineError (Option Int) := do
  let _ ← spanWhile .past isspace
  let sign ← strtolSign
  let base ← strtolBase
  let s ← spanWhile .past (isDigitOf base)
  return if s = [] then none else some (clampLong (sign * numberOf base s))

/-- `strtol` in the base that the number itself says: where there is no number it is 0, and nothing is passed. -/
def strtol : Scanner Byte LineError Int := do
  let n ← attempt strtolNumber
  return n.getD 0

/-! ## Strings -/

/-- What stands for a byte behind a backslash. -/
def unescape (c : Byte) : Byte := if c = 0x6e then 10 else if c = 0x72 then 13 else c

/-- The loop over a string, up to a quotation mark or a zero. -/
def getString : Scanner Byte LineError (List Byte)
  | [] => .error .past
  | c :: p =>
    if c = 0x22 ∨ c = 0 then .ok ([], c :: p)
    else if c = 0x5c then
      match p with
      | [] => .error .past
      | c :: p => (getString p).map fun r => (unescape c :: r.1, r.2)
    else (getString p).map fun r => (c :: r.1, r.2)

/-! ## The arguments -/

/-- The types of the arguments, for so many of them at most; none when the command is badly defined. -/
def argTypes : Nat → List Byte → Option (List Byte)
  | _, [] => some []
  | 0, _ :: _ => none
  | n + 1, r => (parseArg r).bind fun parsed => (argTypes n parsed.2).map (parsed.1.type :: ·)

/-- An argument that is not on the line. -/
def pseudoArg (d : ConfigCmd) (type : Byte) : Option CmdArg :=
  if type = 0x76 then some (.intval d.val) else if type = 0x53 then some (.stringval d.val) else none

/-- The spaces in front of an argument, with the comma between them unless it is the first one. -/
def separator (first : Bool) : Scanner Byte LineError Unit := do
  let _ ← skipSpaces
  if first then return () else
    let _ ← expect .past (.expected 0x2c) 0x2c
    skipSpaces

/-- An argument on the line: the functions take an integer as an `int`. -/
def parseLineArg (type : Byte) : Scanner Byte LineError CmdArg :=
  if type = 0x69 then do
    let n ← strtol
    return .int (some (wrapInt n))
  else do
    let _ ← expect .past .stringExpected 0x22
    let str ← getString
    let _ ← skipIf .past 0x22
    return .string (some ((str.take 1023).takeWhile (· != 0)))

/-- The loop over the arguments, and the parenthesis behind them. -/
def parseLineArgs (d : ConfigCmd) : Bool → List Byte → Scanner Byte LineError (List CmdArg)
  | _, [] => do
    let _ ← skipSpaces
    let _ ← expect .past (.expected 0x29) 0x29
    return []
  | first, type :: types =>
    match pseudoArg d type with
    | some arg => do
      let args ← parseLineArgs d first types
      return arg :: args
    | none => do
      let _ ← separator first
      let arg ← parseLineArg type
      let args ← parseLineArgs d false types
      return arg :: args

/-! ## Lines -/

/-- The name that a line spells, with a hyphen for each underscore. -/
def hyphened (name : List Byte) : List Byte := name.map fun c => if c = 0x5f then 0x2d else c

/-- `qe_find_cmd`. -/
def qeFindCmd (cmds : List ConfigCmd) (name : List Byte) : Option ConfigCmd := cmds.find? fun d => d.name == name

/-- What follows the name of a command on a line: the call. -/
def parseCall (s : WindowPtr) (d : ConfigCmd) : Scanner Byte LineError (ConfigCmd × List CmdArg) := do
  let _ ← skipSpaces
  let _ ← expect .past (.expected 0x28) 0x28
  match argTypes (maxCmdArgs - 1) d.ptype with
  | none => throw .badlyDefined
  | some types =>
    let _ ← skipIf .past 0x28
    let args ← parseLineArgs d true types
    return (d, .window s :: args)

/-- There is nothing on the line, or a comment. -/
def isBlank : Scanner Byte LineError Bool := do
  let c ← current
  if c = 0 ∨ c = 0x23 then return true
  else if c = 0x2f then
    let c ← peekAt .past 1
    return c == 0x2f
  else return false

/-- The call of the command that a line names. -/
def callNamed (cmds : List ConfigCmd) (s : WindowPtr) (cmd : List Byte) : Scanner Byte LineError (ConfigCmd × List CmdArg) :=
  match qeFindCmd cmds (hyphened cmd) with
  | none => throw .unknownCommand
  | some d => parseCall s d

/-- The body of the loop of `parse_config_file`: the call that a line comes to. -/
def parseLine (cmds : List ConfigCmd) (s : WindowPtr) : Scanner Byte LineError (ConfigCmd × List CmdArg) := do
  let _ ← skipSpaces
  let blank ← isBlank
  if blank then throw .blank else
    let cmd ← getStr 128 (cstr "(")
    callNamed cmds s cmd

/-- The call that a line in the array comes to. -/
def lineCall (cmds : List ConfigCmd) (s : WindowPtr) (line : List Byte) : Except LineError (ConfigCmd × List CmdArg) :=
  (parseLine cmds s line).map Prod.fst

/-! ## Files -/

/-- What the calls of `fgets` with an array of a size find in a file, behind what the current one has read. -/
def fgetsLines (size : Nat) : List Byte → List Byte → List (List Byte)
  | read, [] => if read = [] then [] else [read]
  | read, c :: file =>
    let line := read ++ [c]
    if c = 10 ∨ size ≤ line.length + 1 then line :: fgetsLines size [] file else fgetsLines size line file

/-- The calls of the lines, one behind the other in one array. -/
def callsOf (cmds : List ConfigCmd) (s : WindowPtr) : List Byte → List (List Byte) → List (Except LineError (ConfigCmd × List CmdArg))
  | _, [] => []
  | array, line :: lines =>
    let array := line ++ 0 :: array.drop (line.length + 1)
    lineCall cmds s array :: callsOf cmds s array lines

/-- `parse_config_file`, with the array as it was before. -/
def parseConfigFile (cmds : List ConfigCmd) (s : WindowPtr) (array file : List Byte) : List (Except LineError (ConfigCmd × List CmdArg)) :=
  callsOf cmds s array (fgetsLines 1024 [] file)

end ConfigFile

/-! ## The shape of a configuration line

What a line of a configuration file has to look like: the name of a command, with an underscore for any hyphen or a hyphen for any
underscore, and in parentheses the arguments that it takes. A loose line may leave integers out and open the parenthesis twice, and a
line that is cut off ends in a backslash inside of a string.
-/

namespace ConfigFile

/-- Spaces between what stands on a line. -/
def Spaces (sp : List Byte) : Prop := ∀ c ∈ sp, cssIsSpace c = true

/-- The digits of a number as C writes it: decimal, octal or hexadecimal. -/
inductive Numeral : List Byte → Nat → Prop where
  | decimal {s : List Byte} (hne : s ≠ []) (hhead : s.head? ≠ some 0x30) (hdigits : ∀ d ∈ s, isDigitOf 10 d = true) :
    Numeral s (numberOf 10 s)
  | octal {s : List Byte} (hhead : s.head? = some 0x30) (hdigits : ∀ d ∈ s, isDigitOf 8 d = true) : Numeral s (numberOf 8 s)
  | hexadecimal {x : Byte} {s : List Byte} (hx : x = 0x78 ∨ x = 0x58) (hne : s ≠ []) (hdigits : ∀ d ∈ s, isDigitOf 16 d = true) :
    Numeral (0x30 :: x :: s) (numberOf 16 s)

/-- An integer, which may have a sign. -/
inductive Integer : List Byte → Int → Prop where
  | unsigned {s : List Byte} {n : Nat} (h : Numeral s n) : Integer s n
  | plus {s : List Byte} {n : Nat} (h : Numeral s n) : Integer (0x2b :: s) n
  | minus {s : List Byte} {n : Nat} (h : Numeral s n) : Integer (0x2d :: s) (-n)

/-- What stands between quotation marks, and the string. -/
inductive Quoted : List Byte → List Byte → Prop where
  | nil : Quoted [] []
  | char {c : Byte} {s str : List Byte} (hquote : c ≠ 0x22) (hbackslash : c ≠ 0x5c) (h : Quoted s str) : Quoted (c :: s) (c :: str)
  | escape {c : Byte} {s str : List Byte} (h : Quoted s str) : Quoted (0x5c :: c :: s) (unescape c :: str)

/-- What stands in front of an argument. -/
inductive Separator : Bool → List Byte → Prop where
  | first {sp : List Byte} (h : Spaces sp) : Separator true sp
  | next {sp sp' : List Byte} (h : Spaces sp) (h' : Spaces sp') : Separator false (sp ++ 0x2c :: sp')

/-- An argument of a type. -/
inductive Argument (loose : Bool) : Byte → List Byte → CmdArg → Prop where
  | int {blank s : List Byte} {n : Int} (hblank : ∀ c ∈ blank, isspace c = true) (h : Integer s n) :
    Argument loose 0x69 (blank ++ s) (.int (some n))
  | missing (h : loose = true) : Argument loose 0x69 [] (.int (some 0))
  | string {s str : List Byte} (h : Quoted s str) : Argument loose 0x73 (0x22 :: s ++ [0x22]) (.string (some str))

/-- Arguments, and the parenthesis behind them. -/
inductive Arguments (loose : Bool) (d : ConfigCmd) : Bool → List Byte → List Byte → List CmdArg → Prop where
  | close {first : Bool} {sp : List Byte} (h : Spaces sp) : Arguments loose d first [] (sp ++ [0x29]) []
  | pseudo {first : Bool} {type : Byte} {types text : List Byte} {arg : CmdArg} {args : List CmdArg} (harg : pseudoArg d type = some arg)
    (h : Arguments loose d first types text args) : Arguments loose d first (type :: types) text (arg :: args)
  | arg {first : Bool} {type : Byte} {types sep s text : List Byte} {arg : CmdArg} {args : List CmdArg} (hreal : pseudoArg d type = none)
    (hsep : Separator first sep) (harg : Argument loose type s arg) (h : Arguments loose d false types text args) :
    Arguments loose d first (type :: types) (sep ++ s ++ text) (arg :: args)

/-- Arguments that are cut off by a backslash inside of a string. -/
inductive CutArguments (d : ConfigCmd) : Bool → List Byte → List Byte → Prop where
  | here {first : Bool} {types sep s str : List Byte} (hsep : Separator first sep) (h : Quoted s str) :
    CutArguments d first (0x73 :: types) (sep ++ 0x22 :: s ++ [0x5c])
  | pseudo {first : Bool} {type : Byte} {types text : List Byte} {arg : CmdArg} (harg : pseudoArg d type = some arg)
    (h : CutArguments d first types text) : CutArguments d first (type :: types) text
  | arg {first : Bool} {type : Byte} {types sep s text : List Byte} {arg : CmdArg} (hreal : pseudoArg d type = none)
    (hsep : Separator first sep) (harg : Argument true type s arg) (h : CutArguments d false types text) :
    CutArguments d first (type :: types) (sep ++ s ++ text)

/-- A line, from its name on: what stands behind the parenthesis, or the two of a loose line. -/
inductive Opened (loose : Bool) : List Byte → List Byte → Prop where
  | once (text : List Byte) : Opened loose (0x28 :: text) text
  | twice (h : loose = true) (text : List Byte) : Opened loose (0x28 :: 0x28 :: text) text

/-- A line that calls a command by a name. -/
structure Calls (loose : Bool) (d : ConfigCmd) (name line : List Byte) (args : List CmdArg) : Prop where
  call : ∃ sp opened types text rest, line = sp ++ name ++ opened ∧ Spaces sp ∧ argTypes (maxCmdArgs - 1) d.ptype = some types ∧
    Opened loose opened (text ++ rest) ∧ Arguments loose d true types text args

/-- A line that is cut off inside of a call of a command by a name. -/
structure CutCall (d : ConfigCmd) (name line : List Byte) : Prop where
  call : ∃ sp opened types text, line = sp ++ name ++ opened ∧ Spaces sp ∧ argTypes (maxCmdArgs - 1) d.ptype = some types ∧
    Opened true opened text ∧ CutArguments d true types text

/-- The command that a name stands for: its own name may have underscores, too. -/
def commandNamed (cmds : List ConfigCmd) (name : List Byte) : Option ConfigCmd :=
  cmds.find? fun d => hyphened d.name == hyphened name

/-- A line has the shape of a call of a command that is known. -/
def Shaped (cmds : List ConfigCmd) (line : List Byte) (d : ConfigCmd) (args : List CmdArg) : Prop :=
  ∃ name, commandNamed cmds name = some d ∧ Calls false d name line args

/-- A line has the loose shape, for the command that `qe_find_cmd` finds. -/
def LooselyShaped (cmds : List ConfigCmd) (line : List Byte) : Prop :=
  ∃ name d args, qeFindCmd cmds (hyphened name) = some d ∧ Calls true d name line args

/-- A line is cut off inside of a call of the command that `qe_find_cmd` finds. -/
def CutOff (cmds : List ConfigCmd) (line : List Byte) : Prop :=
  ∃ name d, qeFindCmd cmds (hyphened name) = some d ∧ CutCall d name line

end ConfigFile

end Hoe
