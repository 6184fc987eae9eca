import Mathlib

/-!
# A character-cell terminal

A grid of cells, a cursor and the current colours, fed with bytes: a printable byte takes one cell and the cursor moves on,
`ESC [ row ; column H` moves the cursor, and `ESC [ … m` sets colours. Behind the last column the cursor waits, and the next
character goes to the next row; on the last row the screen does not scroll.
-/

namespace Vt

/-- What a cell shows. -/
structure Cell where
  ch : Nat
  bg : Nat
  fg : Nat
deriving DecidableEq, Repr

/-- Where the terminal stands in the bytes: between sequences, behind an `ESC`, or in the parameters of a sequence. -/
inductive Mode where
  | ground
  | escape
  | params (done : List Nat) (current : Nat)
deriving DecidableEq, Repr

/-- A terminal. The column may be `width`: the last character was put in the last column. -/
structure Terminal where
  width : Nat
  height : Nat
  cells : Nat → Nat → Cell
  row : Nat
  col : Nat
  bg : Nat
  fg : Nat
  mode : Mode

/-- The colour number that stands for the terminal's own colour. -/
def defaultColor : Nat := 9

namespace Terminal

/-- A terminal with an empty screen. -/
def blank (width height : Nat) : Terminal :=
  { width := width, height := height, cells := fun _ _ => ⟨32, defaultColor, defaultColor⟩, row := 0, col := 0
    bg := defaultColor, fg := defaultColor, mode := .ground }

/-- One parameter of `ESC [ … m`. -/
def sgr (t : Terminal) (p : Nat) : Terminal :=
  if p = 0 then { t with fg := defaultColor, bg := defaultColor }
  else if 30 ≤ p ∧ p < 40 then { t with fg := p - 30 }
  else if 40 ≤ p ∧ p < 50 then { t with bg := p - 40 }
  else t

/-- Move the cursor; rows and columns count from 1, and 0 or nothing is 1. -/
def moveTo (t : Terminal) (ps : List Nat) : Terminal :=
  { t with row := min (ps.getD 0 0 - 1) (t.height - 1), col := min (ps.getD 1 0 - 1) (t.width - 1) }

/-- Go to the next row when the row is full, but not beyond the last. -/
def wrap (t : Terminal) : Terminal :=
  if t.width ≤ t.col then { t with row := min (t.row + 1) (t.height - 1), col := 0 } else t

/-- Put a character in the cell at the cursor. -/
def put (t : Terminal) (ch : Nat) : Terminal :=
  { t with
    cells := fun r c => if r = t.row ∧ c = t.col then { ch := ch, bg := t.bg, fg := t.fg } else t.cells r c
    col := t.col + 1 }

/-- Take one byte in. -/
def step (t : Terminal) (b : Nat) : Terminal :=
  match t.mode with
  | .ground =>
    if b = 27 then { t with mode := .escape }
    else if b < 32 then t
    else t.wrap.put b
  | .escape => if b = 91 then { t with mode := .params [] 0 } else { t with mode := .ground }
  | .params done current =>
    if 48 ≤ b ∧ b < 58 then { t with mode := .params done (10 * current + (b - 48)) }
    else if b = 59 then { t with mode := .params (done ++ [current]) 0 }
    else if b = 72 then { (t.moveTo (done ++ [current])) with mode := .ground }
    else if b = 109 then { ((done ++ [current]).foldl sgr t) with mode := .ground }
    else { t with mode := .ground }

/-- Take bytes in. -/
def feed (t : Terminal) (bs : List Nat) : Terminal := bs.foldl step t

end Terminal

/-- A number in decimal. -/
def decimal (n : Nat) : List Nat := if n = 0 then [48] else (Nat.digits 10 n).reverse.map (48 + ·)

/-- `ESC [ row ; column H`. -/
def position (row column : Nat) : List Nat := [27, 91] ++ decimal row ++ [59] ++ decimal column ++ [72]

/-- `ESC [ ; fg ; bg m`: back to the terminal's own colours, then two new ones. -/
def colors (fg bg : Nat) : List Nat := [27, 91, 59] ++ decimal fg ++ [59] ++ decimal bg ++ [109]

namespace Terminal

variable {t : Terminal}

@[simp] theorem feed_nil (t : Terminal) : t.feed [] = t := rfl

theorem feed_cons (t : Terminal) (b : Nat) (bs : List Nat) : t.feed (b :: bs) = (t.step b).feed bs := rfl

theorem feed_append (t : Terminal) (as bs : List Nat) : t.feed (as ++ bs) = (t.feed as).feed bs := List.foldl_append

/-! ## Numbers -/

/-- Digits go to the parameter that is being read. -/
theorem feed_digits {done : List Nat} (ds : List Nat) (hds : ∀ d ∈ ds, d < 10) :
    ({ t with mode := .params done 0 }).feed (ds.reverse.map (48 + ·)) = { t with mode := .params done (Nat.ofDigits 10 ds) } := by
  induction ds with
  | nil => rfl
  | cons d ds ih =>
    have hd := hds d List.mem_cons_self
    rw [List.reverse_cons, List.map_append, feed_append, ih fun e he => hds e (List.mem_cons_of_mem _ he), List.map_singleton,
      feed_cons, feed_nil, step]
    dsimp only
    rw [if_pos (by omega), Nat.ofDigits_cons, Nat.add_sub_cancel_left, Nat.add_comm]

theorem feed_decimal (t : Terminal) (done : List Nat) (n : Nat) :
    ({ t with mode := .params done 0 }).feed (decimal n) = { t with mode := .params done n } := by
  rw [decimal]
  split_ifs with h
  · subst h
    rfl
  · rw [feed_digits _ fun d hd => Nat.digits_lt_base (by decide) hd, Nat.ofDigits_digits]

/-! ## Sequences -/

/-- A separator closes the parameter that is being read. -/
theorem feed_separator (t : Terminal) (done : List Nat) (n : Nat) :
    ({ t with mode := .params done n }).feed [59] = { t with mode := .params (done ++ [n]) 0 } := rfl

/-- `position` moves the cursor and changes nothing else. -/
theorem feed_position (h : t.mode = .ground) (row column : Nat) :
    t.feed (position row column) =
      { t with row := min (row - 1) (t.height - 1), col := min (column - 1) (t.width - 1) } := by
  have hopen : t.feed [27, 91] = { t with mode := .params [] 0 } := by
    simp only [feed_cons, feed_nil, step, h]
    rfl
  rw [position, feed_append, feed_append, feed_append, feed_append, hopen, feed_decimal, feed_separator, feed_decimal]
  simp [feed_cons, step, moveTo, h]

theorem sgr_zero (t : Terminal) : t.sgr 0 = { t with fg := defaultColor, bg := defaultColor } := rfl

theorem sgr_foreground (t : Terminal) {c : Nat} (hc : c < 10) : t.sgr (30 + c) = { t with fg := c } := by
  rw [sgr, if_neg (by omega), if_pos (by omega), Nat.add_sub_cancel_left]

theorem sgr_background (t : Terminal) {c : Nat} (hc : c < 10) : t.sgr (40 + c) = { t with bg := c } := by
  rw [sgr, if_neg (by omega), if_neg (by omega), if_pos (by omega), Nat.add_sub_cancel_left]

/-- `colors` sets both colours and changes nothing else. -/
theorem feed_colors (h : t.mode = .ground) {fg bg : Nat} (hfg : fg < 10) (hbg : bg < 10) :
    t.feed (colors (30 + fg) (40 + bg)) = { t with fg := fg, bg := bg } := by
  have hopen : t.feed [27, 91, 59] = { t with mode := .params [0] 0 } := by
    simp only [feed_cons, feed_nil, step, h]
    rfl
  rw [colors, feed_append, feed_append, feed_append, feed_append, hopen, feed_decimal, feed_separator, feed_decimal]
  simp [feed_cons, step, sgr_zero, sgr_foreground _ hfg, sgr_background _ hbg, h]

/-- A printable byte takes the cell at the cursor. -/
theorem feed_printable (h : t.mode = .ground) (hcol : t.col < t.width) {b : Nat} (hb : 32 ≤ b) : t.feed [b] = t.put b := by
  rw [feed_cons, feed_nil, step, h]
  dsimp only
  rw [if_neg (by omega), if_neg (by omega), wrap, if_neg (by omega)]

/-! ## Writing in a row -/

/-- From `t` to `t'`, `n` cells of the cursor's row were written, and nothing else of the screen. -/
structure Wrote (t t' : Terminal) (n : Nat) : Prop where
  ground : t'.mode = .ground
  width : t'.width = t.width
  height : t'.height = t.height
  row : t'.row = t.row
  col : t'.col = t.col + n
  same : ∀ r c, r ≠ t.row ∨ c < t.col ∨ t.col + n ≤ c → t'.cells r c = t.cells r c

theorem Wrote.refl (h : t.mode = .ground) : t.Wrote t 0 := ⟨h, rfl, rfl, rfl, rfl, fun _ _ _ => rfl⟩

theorem Wrote.trans {t₁ t₂ : Terminal} {m n : Nat} (h₁ : t.Wrote t₁ m) (h₂ : t₁.Wrote t₂ n) : t.Wrote t₂ (m + n) := by
  refine ⟨h₂.ground, h₂.width.trans h₁.width, h₂.height.trans h₁.height, h₂.row.trans h₁.row, ?_, ?_⟩
  · rw [h₂.col, h₁.col, Nat.add_assoc]
  · intro r c hout
    have hrow := h₁.row
    have hcol := h₁.col
    rw [h₂.same r c (by omega), h₁.same r c (by omega)]

theorem wrote_put (h : t.mode = .ground) (ch : Nat) : t.Wrote (t.put ch) 1 := by
  refine ⟨h, rfl, rfl, rfl, rfl, ?_⟩
  intro r c hout
  rw [put]
  dsimp only
  rw [if_neg (by omega)]

@[simp] theorem put_cell (t : Terminal) (ch : Nat) : (t.put ch).cells t.row t.col = { ch := ch, bg := t.bg, fg := t.fg } := by
  rw [put]
  dsimp only
  rw [if_pos ⟨rfl, rfl⟩]

end Terminal

end Vt
