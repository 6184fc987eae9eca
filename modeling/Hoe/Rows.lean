import Hoe.Layout
import Mathlib.Data.Nat.Find

/-!
# The rows of a line

What the rows of a line should be: lists of glyphs, which are found from the characters of the line and the setting alone. The
characters come in words, each of which is added to the glyphs that wait for a row; where that is too wide, rows are broken off
as the mode says. None of the functions that lay out a line is used here.
-/

namespace Hoe

namespace Layout

open TextDisplay (WrapType maxScreenWidth maxWordSize styleShift tab space)

/-! ## Words -/

/-- What is stored of a character. -/
def CharCall.stored (c : CharCall) : FragmentChar :=
  if c.offset1 = c.offset2 then ⟨c.ch % 2 ^ styleShift, -1, -1, c.hexMode⟩
  else ⟨c.ch % 2 ^ styleShift, c.offset1, c.offset2, c.hexMode⟩

/-- Characters of one style, all of them blanks or none of them. -/
structure Word where
  chars : List FragmentChar
  blank : Bool
  style : Nat
deriving DecidableEq, Repr

/-- The word with a character more. -/
def Word.push (e : Setting) (w : Word) (c : CharCall) : Word :=
  ⟨w.chars ++ [c.stored], c.stored.ch == space, charStyle e c.offset1 c.ch⟩

/-- A word without a character. -/
def Word.none : Word := ⟨[], false, 0⟩

/-- The character goes on with the word. A tab does not, and a word has no more characters than a fragment can have. -/
def Word.takes (e : Setting) (w : Word) (c : CharCall) : Bool :=
  decide (w.chars.length < maxWordSize) && c.stored.ch != tab &&
    (w.chars.isEmpty || ((c.stored.ch == space) == w.blank && charStyle e c.offset1 c.ch == w.style))

/-- The word, unless it has no character. -/
def Word.toList (w : Word) : List Word := if w.chars = [] then [] else [w]

/-- The words that end with a character, and the one that goes on behind it. -/
def Word.step (e : Setting) (w : Word) (c : CharCall) : List Word × Word :=
  if w.takes e c then ([], w.push e c)
  else if c.stored.ch = tab then (w.toList ++ [Word.push e .none c], .none)
  else (w.toList, Word.push e .none c)

/-- The words of the characters that go on after some of a word. -/
def wordsFrom (e : Setting) : Word → List CharCall → List Word
  | w, [] => w.toList
  | w, c :: cs => (w.step e c).1 ++ wordsFrom e (w.step e c).2 cs

/-- The words of a line. -/
def words (e : Setting) (cs : List CharCall) : List Word := wordsFrom e .none cs

/-! ## Glyphs -/

/-- The width of a tab where it stands. -/
def tabColumns (e : Setting) (x : Int) : Int := e.tabWidth - (x - e.xDisp).tmod e.tabWidth

/-- The glyph of a character. -/
def FragmentChar.glyph (e : Setting) (x : Int) (c : FragmentChar) : Glyph :=
  if c.ch = tab then ⟨space, c.offset1, c.offset2, short (tabColumns e x), c.hexMode⟩
  else ⟨c.ch, c.offset1, c.offset2, short (e.glyphWidth c.ch), c.hexMode⟩

/-- The glyphs of a word that begins at a column. -/
def Word.glyphs (e : Setting) (x : Int) (w : Word) : List Glyph := w.chars.map (·.glyph e x)

/-! ## Rows -/

/-- The glyphs that wait for a row, the column behind them, how many of them are in front of the current word, and whether that is
taken for blanks. -/
structure Row where
  glyphs : List Glyph
  x : Int
  word : Nat
  blank : Bool
deriving DecidableEq, Repr

/-- At the beginning of a line no glyph waits. -/
def Row.start (e : Setting) : Row := ⟨[], e.xDisp, 0, false⟩

/-- Blanks behind a word begin another one, and so does a word behind blanks. -/
def Row.begin (r : Row) (w : Word) : Row :=
  if r.glyphs ≠ [] ∧ r.blank ≠ w.blank then { r with word := r.glyphs.length, blank := w.blank } else r

/-- The arrays have room for no glyph more. -/
def Row.Full (r : Row) : Prop := maxScreenWidth ≤ r.glyphs.length

instance (r : Row) : Decidable r.Full := inferInstanceAs (Decidable (_ ≤ _))

/-- A row is broken off the glyphs that wait, of which some are kept for the next one. -/
structure Break where
  waiting : List Glyph
  kept : Nat
deriving DecidableEq, Repr

/-- The row. -/
def Break.row (b : Break) : List Glyph := b.waiting.take (b.waiting.length - b.kept)

/-- The glyphs that are kept. -/
def Break.rest (b : Break) : List Glyph := b.waiting.drop (b.waiting.length - b.kept)

/-- How many of the glyphs of a word fit on the row that ends at a column. -/
def fitting (width x : Int) (gs : List Glyph) : Nat := Nat.findGreatest (fun k => x + columns (gs.take k) ≤ width) gs.length

/-- The breaks of `WRAP_LINE`, `n` at most: the row takes what fits of the last word, or one glyph of it when it has no column yet. -/
def lineBreaks (width : Int) : Nat → List Glyph → Int → List Glyph → List Break
  | 0, _, _, _ => []
  | n + 1, front, x, gs =>
    if x + columns gs ≤ width then []
    else
      let k := if fitting width x gs = 0 ∧ x = 0 then 1 else fitting width x gs
      ⟨front ++ gs, gs.length - k⟩ :: lineBreaks width n [] 0 (gs.drop k)

/-- The breaks where a word is added, in a row that is not full. `WRAP_WORD` keeps the current word. -/
def Row.breaks (e : Setting) (r : Row) (w : Word) : List Break :=
  let gs := w.glyphs e r.x
  match e.wrap with
  | .truncate => []
  | .line => lineBreaks e.width (gs.length + 1) r.glyphs r.x gs
  | .word => if e.width < r.x + columns gs then [⟨r.glyphs ++ gs, r.glyphs.length + gs.length - (r.begin w).word⟩] else []

/-- What waits once the word is added. A full row takes nothing of it. -/
def Row.add (e : Setting) (r : Row) (w : Word) : Row :=
  if r.Full then r
  else
    match (r.breaks e w).getLast? with
    | none => { r.begin w with glyphs := r.glyphs ++ w.glyphs e r.x, x := r.x + columns (w.glyphs e r.x) }
    | some b => { r.begin w with glyphs := b.rest, x := columns b.rest, word := 0 }

/-- What waits once words are added. -/
def Row.after (e : Setting) (r : Row) (ws : List Word) : Row := ws.foldl (Row.add e) r

/-- The rows that are broken off meanwhile. -/
def Row.shed (e : Setting) : Row → List Word → List (List Glyph)
  | _, [] => []
  | r, w :: ws => (if r.Full then [] else (r.breaks e w).map (·.row)) ++ (r.add e w).shed e ws

/-- The rows of a line. -/
def rows (e : Setting) (cs : List CharCall) : List (List Glyph) :=
  (Row.start e).shed e (words e cs) ++ [((Row.start e).after e (words e cs)).glyphs]

/-- Wherever a word is added, it and what waits there meet the condition. -/
def Row.All (e : Setting) (Q : Row → Word → Prop) : Row → List Word → Prop
  | _, [] => True
  | r, w :: ws => Q r w ∧ (r.add e w).All e Q ws

/-- All words of a line meet the condition where they are added. -/
def AllWords (e : Setting) (Q : Row → Word → Prop) (cs : List CharCall) : Prop := (Row.start e).All e Q (words e cs)

instance Row.decidableAll (e : Setting) (Q : Row → Word → Prop) [∀ r w, Decidable (Q r w)] : ∀ r ws, Decidable (Row.All e Q r ws)
  | _, [] => isTrue trivial
  | r, w :: ws =>
    have := decidableAll e Q (r.add e w) ws
    inferInstanceAs (Decidable (_ ∧ _))

instance (e : Setting) (Q : Row → Word → Prop) [∀ r w, Decidable (Q r w)] (cs : List CharCall) : Decidable (AllWords e Q cs) :=
  Row.decidableAll e Q _ _

/-- The word is added where the arrays have room for it, or to a full row. When the line is wrapped, the word fits on the row, or
the row does without it and the window has room for a column at least. -/
def Row.Fits (e : Setting) (r : Row) (w : Word) : Prop :=
  r.Full ∨ r.glyphs.length + w.chars.length ≤ maxScreenWidth ∧
    (e.wrap = .line → r.x + columns (w.glyphs e r.x) ≤ e.width ∨ 0 ≤ e.width ∧ r.x ≤ e.width)

instance (e : Setting) (r : Row) (w : Word) : Decidable (r.Fits e w) := inferInstanceAs (Decidable (_ ∨ _ ∧ (_ → _ ∨ _ ∧ _)))

/-- The glyphs that are kept have the hex modes of as many at the front, which `keep_line_chars` leaves there. -/
def Break.SameModes (b : Break) : Prop := b.rest.map (·.hexMode) = (b.waiting.take b.kept).map (·.hexMode)

instance (b : Break) : Decidable b.SameModes := inferInstanceAs (Decidable (_ = _))

/-- So it is wherever the row is broken for the word. -/
def Row.KeepsModes (e : Setting) (r : Row) (w : Word) : Prop := r.Full ∨ ∀ b ∈ r.breaks e w, b.SameModes

instance (e : Setting) (r : Row) (w : Word) : Decidable (r.KeepsModes e w) := inferInstanceAs (Decidable (_ ∨ ∀ b ∈ r.breaks e w, b.SameModes))

end Layout

end Hoe
