import Hoe.Colorize
import Hoe.Display
import Hoe.Lib.Sentinel

/-!
# Cells

A cell of a colorized line is a character and a style in the bits above it. A colorize function gets the array of its caller,
with the line in the first `len` cells and a newline behind them, and the state in front of the line.
-/

namespace Hoe

open TextDisplay (styleShift)

/-- A cell of its character, `c & CHAR_MASK`. -/
def charMask (c : Nat) : Nat := c % 2 ^ styleShift

/-- The style of a cell, `c >> STYLE_SHIFT`. -/
def styleOf (c : Nat) : Nat := c / 2 ^ styleShift

/-! The styles of qestyles.h that a colorize function gives. -/

def qeStyleMarginHighlight : Nat := 5

def qeStyleComment : Nat := 8

def qeStylePreprocess : Nat := 9

def qeStyleString : Nat := 10

def qeStyleKeyword : Nat := 11

def qeStyleFunction : Nat := 12

def qeStyleVariable : Nat := 13

def qeStyleType : Nat := 14

def qeStylePatchHunk : Nat := 17

def qeStylePatchIndex : Nat := 18

def qeStylePatchFileMeta : Nat := 19

def qeStylePatchAddition : Nat := 20

def qeStylePatchDeletion : Nat := 21

/-- A loop over the `len` cells from `start` on; none when one of them is not in the array. -/
def changeSpan (f : Nat → Nat) (buf : List Nat) (start len : Nat) : Option (List Nat) :=
  if len = 0 ∨ start + len ≤ buf.length then
    some (buf.take start ++ ((buf.drop start).take len).map f ++ buf.drop (start + len))
  else none

/-- A cell with a style added to the one it has. -/
def colored (style c : Nat) : Nat := c ||| style <<< styleShift

/-- `set_color(buf + start, len, style)`. -/
def setColor (buf : List Nat) (start len style : Nat) : Option (List Nat) := changeSpan (colored style) buf start len

/-- `clear_color(buf + start, len)`. -/
def clearColor (buf : List Nat) (start len : Nat) : Option (List Nat) := changeSpan charMask buf start len

/-- A colorize function as it is called: the array, `len` and the state; the array and the state after it. It is none when a cell
is read or written that is not in the array. -/
abbrev ArrayColorize := List Nat → Nat → Int → Option (List Nat × Int)

/-- `g_highlight_over_margin` and `g_margin_size`, which is above zero: the command that sets it sees to that. -/
structure Margin where
  highlight : Bool
  size : Nat
  size_pos : 0 < size
deriving DecidableEq

/-- The end of `c_colorize_line` and of `py_colorize_line`: the line behind the margin is coloured anew. -/
def highlightMargin (m : Margin) (buf : List Nat) (len : Nat) : Option (List Nat) :=
  if m.highlight ∧ m.size < len then do
    let buf ← clearColor buf m.size (len - m.size)
    setColor buf m.size (len - m.size) qeStyleMarginHighlight
  else some buf

/-- `set_color` on cells behind the place where a turn begins. -/
structure Span where
  start : Nat
  len : Nat
  style : Nat
deriving DecidableEq

/-- What one turn of the loop of a colorize function does: the calls of `set_color`, how far `p` goes, the variables `state` and
`type_decl`, and whether it goes to `the_end`. -/
structure Round where
  spans : List Span
  passed : Nat
  state : Int
  typeDecl : Bool
  ends : Bool
deriving DecidableEq

/-- The calls of `set_color`, one after the other, for a turn that begins at `start`. -/
def setColors (start : Nat) (buf : List Nat) (spans : List Span) : Option (List Nat) :=
  spans.foldlM (fun buf s => setColor buf (start + s.start) s.len s.style) buf

/-- A loop that has come to the place `p`, with what its turn does there; none when it is not done after `n` more turns. -/
def colorLoop (round : List Nat → Nat → Int → Bool → Option Round) : Nat → List Nat → Nat → Round → Option (List Nat × Int)
  | 0, buf, p, r => do
    let buf ← setColors p buf r.spans
    if r.ends then some (buf, r.state) else none
  | n + 1, buf, p, r => do
    let buf ← setColors p buf r.spans
    if r.ends then some (buf, r.state)
    else do
      let next ← round buf (p + r.passed) r.state r.typeDecl
      colorLoop round n buf (p + r.passed) next

/-- The cells of a text. -/
def charsOf (s : String) : List Nat := s.toList.map Char.toNat

/-! ## Words -/

/-- A letter or an underscore. -/
def keywordStart (c : Nat) : Bool :=
  ('a'.toNat ≤ c ∧ c ≤ 'z'.toNat) ∨ ('A'.toNat ≤ c ∧ c ≤ 'Z'.toNat) ∨ c = '_'.toNat

/-- Or a digit. -/
def keywordChar (c : Nat) : Bool := keywordStart c ∨ ('0'.toNat ≤ c ∧ c ≤ '9'.toNat)

/-- `sizeof(kbuf) - 2`. -/
def keywordBufSize : Nat := 30

/-- `get_c_keyword` and `get_py_keyword` where a word begins: what is stored of it, and how long it is. -/
def getKeyword (cells : List Nat) : Option (List Nat × Nat) := do
  let n ← Sentinel.scanWhile keywordChar cells
  some ((cells.take n).take (keywordBufSize - 1), n)

/-- `strstr(keywords, kbuf)`, with the word between bars. -/
def inTable (table : String) (word : List Nat) : Bool :=
  decide (charsOf "|" ++ word ++ charsOf "|" <:+: charsOf table)

/-- The blanks that are skipped behind a word. -/
def isSpaceOrTab (c : Nat) : Bool := c = ' '.toNat ∨ c = '\t'.toNat

/-- A word: `declares` says that a word in neither of the tables begins a declaration, `first` that it is the first of the line. -/
def wordRound (keywords types : String) (declares first : Bool) (cells : List Nat) (state : Int) (typeDecl : Bool) :
    Option Round := do
  let (word, n) ← getKeyword cells
  if inTable keywords word then some ⟨[⟨0, n, qeStyleKeyword⟩], n, state, typeDecl, false⟩
  else if inTable types word then do
    let blanks ← Sentinel.scanWhile isSpaceOrTab (cells.drop n)
    -- in front of a closing parenthesis it is a cast
    let cast ← Sentinel.looksAt (charsOf ")") (cells.drop (n + blanks))
    some ⟨[⟨0, n, qeStyleType⟩], n + blanks, state, typeDecl || !cast, false⟩
  else if typeDecl || declares then do
    let blanks ← Sentinel.scanWhile isSpaceOrTab (cells.drop n)
    let call ← Sentinel.looksAt (charsOf "(") (cells.drop (n + blanks))
    let style := if call then qeStyleFunction else if first then qeStyleType else qeStyleVariable
    some ⟨[⟨0, n, style⟩], n + blanks, state, true, false⟩
  else some ⟨[], n, state, typeDecl, false⟩

/-! ## Strings and comments -/

/-- `C_STRING` and `PY_STRING`. -/
def stateString : Int := 2

/-- `C_STRING_Q` and `PY_STRING_Q`. -/
def stateStringQ : Int := 3

/-- The loop of `parse_string`: how far it goes, and whether the string ends. -/
def stringLoop (quote : Nat) : List Nat → Option (Nat × Bool)
  | [] => none
  | c :: cells =>
    if c = newline then some (0, false)
    else if c = '\\'.toNat then
      match cells with
      | [] => none
      | d :: cells =>
        if d = newline then some (1, false)
        else (stringLoop quote cells).map fun r => (r.1 + 2, r.2)
    else if c = quote then some (1, true)
    else (stringLoop quote cells).map fun r => (r.1 + 1, r.2)

/-- From `parse_string` on, `k` cells behind `p_start`. -/
def parseString (k : Nat) (cells : List Nat) (state : Int) (typeDecl : Bool) : Option Round := do
  let (n, ended) ← stringLoop (if state = stateStringQ then '\''.toNat else '"'.toNat) cells
  some ⟨[⟨0, k + n, qeStyleString⟩], k + n, if ended then 0 else state, typeDecl, false⟩

/-- A loop up to two characters that stand together, or to the end of the line: how far it goes, and whether they are there. -/
def pairLoop (a b : Nat) : List Nat → Option (Nat × Bool)
  | [] => none
  | c :: cells =>
    if c = newline then some (0, false)
    else do
      let ended ← if c = a then Sentinel.looksAt [b] cells else some false
      if ended then some (2, true) else (pairLoop a b cells).map fun r => (r.1 + 1, r.2)

/-- A line comment, `k` cells behind `p_start`. -/
def lineComment (k : Nat) (cells : List Nat) (state : Int) (typeDecl : Bool) : Option Round := do
  let n ← Sentinel.scanWhile (· ≠ newline) cells
  some ⟨[⟨0, k + n, qeStyleComment⟩], k + n, state, typeDecl, false⟩

/-- A character that nothing begins with. -/
def plainRound (state : Int) (typeDecl : Bool) : Round := ⟨[], 1, state, typeDecl, false⟩

/-- The newline behind the line: `goto the_end`. -/
def endRound (state : Int) (typeDecl : Bool) : Round := ⟨[], 0, state, typeDecl, true⟩

end Hoe
