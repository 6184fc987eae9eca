import Mathlib.Data.Int.Basic

/-!
# The display

The sizes of the arrays that a row of the screen is laid out in, and what a row is laid out as.
-/

namespace Hoe

namespace TextDisplay

/-- `MAX_SCREEN_WIDTH`, the size of the arrays of a row. -/
def maxScreenWidth : Nat := 256

/-- `MAX_WORD_SIZE`, the size of the arrays of a fragment. -/
def maxWordSize : Nat := 128

/-- `STYLE_SHIFT`: the bits of the style are above those of the character. -/
def styleShift : Nat := 20

/-- `QE_STYLE_SEL`. -/
def styleSel : Nat := 0x400

def tab : Nat := 9

def space : Nat := 32

/-- `WrapType`. -/
inductive WrapType where
  | truncate
  | line
  | word
deriving DecidableEq, Repr

/-- `TextFragment`: where it begins in the arrays of the row, how long it is, and how wide, which is a short. -/
structure TextFragment where
  lineIndex : Nat
  len : Nat
  width : Int
deriving DecidableEq, Repr

end TextDisplay

end Hoe
