import Hoe.Chars

/-!
# The tables of the charsets, and characters across pages

What `charset_init` of charset.c builds, and the functions of buffer.c that read a character with it.
-/

namespace Hoe

/-!
## The tables of the charsets

What `charset_init` builds: the lengths that the first bytes of UTF-8 say, and for each charset the table that gives a byte its
character, or says that the character is more than one byte.
-/

/-- `ESCAPE_CHAR`: the byte begins a character of more than one byte. -/
def escapeChar : Nat := 0xffff

/-- `first_code_mask`. -/
def firstCodeMask : List Nat := [0, 0, 0x1f, 0xf, 0x7, 0x3, 0x1]

/-- Store values in `n` cells of a table, from a cell on; `value` is the one of a cell. -/
def fillTable (value : Nat → Nat) : Nat → Nat → List Nat → List Nat
  | _, 0, table => table
  | i, n + 1, table => fillTable value (i + 1) n (table.set i (value i))

/-- The loop of `charset_init` over the lengths `ls`, from a cell on. -/
def fillLengths : List Nat → Nat → List Nat → List Nat
  | [], _, table => table
  | l :: ls, i, table =>
    let n := firstCodeMask.getD l 0 + 1
    fillLengths ls (i + n) (fillTable (fun _ => l) i n table)

/-- `table_idem`, `table_utf8` and `utf8_length`. -/
structure CharsetTables where
  tableIdem : List Nat
  tableUtf8 : List Nat
  utf8Length : List Nat
deriving DecidableEq, Repr

/-- `charset_init`. -/
def charsetInit : CharsetTables :=
  let zeroed := List.replicate 256 0
  { utf8Length := fillLengths [2, 3, 4, 5, 6] 0xc0 (List.replicate 256 1)
    tableIdem := fillTable id 0 256 zeroed
    tableUtf8 :=
      fillTable (fun _ => escapeChar) 0xc0 (0xfe - 0xc0)
        (fillTable id 0 0x80 (fillTable (fun _ => invalidChar) 0 256 zeroed)) }

@[simp] theorem length_fillTable (value : Nat → Nat) (i n : Nat) (table : List Nat) :
    (fillTable value i n table).length = table.length := by
  induction n generalizing i table with
  | zero => rfl
  | succ n ih => simp [fillTable, ih]

/-- The cells that are filled have their values, and the other ones keep theirs. -/
theorem getD_fillTable {value : Nat → Nat} {i n : Nat} {table : List Nat} (h : i + n ≤ table.length) (k : Nat) :
    (fillTable value i n table).getD k 0 = if i ≤ k ∧ k < i + n then value k else table.getD k 0 := by
  induction n generalizing i table with
  | zero =>
    rw [if_neg (by omega)]
    rfl
  | succ n ih =>
    rw [fillTable, ih (by simp; omega)]
    by_cases hk : k = i
    · subst hk
      simp [List.getD_eq_getElem?_getD, List.getElem?_set_self (show k < table.length by omega)]
    · simp only [List.getD_eq_getElem?_getD, List.getElem?_set_ne (Ne.symm hk)]
      congr 1
      simp only [eq_iff_iff]
      omega

theorem getD_replicate {n k a : Nat} (h : k < n) : (List.replicate n a).getD k 0 = a := by
  simp [List.getD_eq_getElem?_getD, h]

/-- The lengths in the table, and the masks of the first bytes, are those that decoding works with. -/
theorem charsetInit_utf8Length :
    (∀ c < 256, charsetInit.utf8Length.getD c 0 = utf8Length c) ∧
      ∀ l < 7, 2 ≤ l → firstCodeMask.getD l 0 + 1 = firstCodeRange l := by
  refine ⟨?_, by decide⟩
  intro c hc
  have hfill : charsetInit.utf8Length = fillTable (fun _ => 6) 0xfc 2 (fillTable (fun _ => 5) 0xf8 4
      (fillTable (fun _ => 4) 0xf0 8 (fillTable (fun _ => 3) 0xe0 16 (fillTable (fun _ => 2) 0xc0 32 (List.replicate 256 1))))) := rfl
  rw [hfill]
  rw [getD_fillTable (by simp [-List.reduceReplicate]), getD_fillTable (by simp [-List.reduceReplicate]),
    getD_fillTable (by simp [-List.reduceReplicate]), getD_fillTable (by simp [-List.reduceReplicate]),
    getD_fillTable (by simp [-List.reduceReplicate]), getD_replicate hc, utf8Length]
  split_ifs <;> omega

/-- What the table of the charset says of a byte: its character, none for `ESCAPE_CHAR`. -/
def Charset.code (charset : Charset) (c : Nat) : Option Nat :=
  if charset ≠ .utf8 ∨ c < 0x80 then some c else if 0xc0 ≤ c ∧ c < 0xfe then none else some invalidChar

/-!
## Characters across pages

`eb_nextc` and `eb_prevc` as buffer.c has them: byte by byte through `eb_read`, which moves the page cache, into an array on the
stack. `Hoe.Lemmas.Characters` shows that they read the text as `Reader` does, so that the loops over characters can be written
over a `Reader`.
-/

/-- `eb_nextc`; `stack` is what the array on the stack held before. -/
def ebNextc (t : Pages) (charset : Charset) (stack : List Byte) (offset : Int) : Pages × Nat × Int :=
  if t.totalSize ≤ offset then (t, newline, t.totalSize) else
  let (t, buf) := ebRead t offset.toNat 1
  match charset.code (buf.headD 0) with
  | some ch => (t, ch, offset + 1)
  | none =>
    let (t, rest) := ebRead t (offset.toNat + 1) (maxCharBytes - 1)
    let buf := buf ++ rest
    let (ch, taken) := utf8Decode (buf ++ stack.drop buf.length)
    (t, ch, offset + taken)

/-- The loop of `eb_prevc`: `q` is what was read so far, from the offset on. It stops where the text or the array ends. -/
def prevcLoop : Nat → Pages → Nat → List Byte → Pages × Option (Nat × List Byte)
  | n, t, offset, q =>
    if isTail (q.headD 0) then
      match n, offset with
      | 0, _ => (t, none)
      | _, 0 => (t, none)
      | n + 1, offset + 1 =>
        let (t, buf) := ebRead t offset 1
        prevcLoop n t offset (buf ++ q)
    else (t, some (offset, q))

/-- `eb_prevc`; `stack` is what lies on the stack behind the array. -/
def ebPrevc (t : Pages) (charset : Charset) (stack : List Byte) (offset : Int) : Pages × Nat × Int :=
  if offset ≤ 0 then (t, newline, 0) else
  let offset := offset - 1
  let (t, q) := ebRead t offset.toNat 1
  if charset = .utf8 then
    match prevcLoop (maxCharBytes - 1) t offset.toNat q with
    | (t, some (first, q)) => (t, (utf8Decode (q ++ stack)).1, first)
    | (t, none) => (t, q.headD 0, offset - maxCharBytes)
  else (t, q.headD 0, offset)

/-! ## The counts kept in a page

A page keeps how many lines it has, how many columns follow the last newline in it, and how many characters it has, each with a
flag that says the count is up to date. The functions of buffer.c that turn offsets into lines, columns and characters fill the
counts in as they come to a page; `update_page` clears the flags. `ebGetPos` and the like have every count made anew.
-/

/-- Count the lines and columns of the page, unless they are up to date. -/
def countPos (charset : Charset) (p : Page) : Page :=
  if p.validPos then p else
  { p with validPos := true, nbLines := (getPos charset p.data).1, col := (getPos charset p.data).2 }

/-- Count the characters of the page, unless they are up to date. -/
def countChar (charset : Charset) (p : Page) : Page :=
  if p.validChar then p else { p with validChar := true, nbChars := getChars charset p.data }

/-! ## Lines and columns -/

/-- The loop of `eb_get_pos` from a page on: the pages, and the line and the column of the offset. -/
def getPosLoop (charset : Charset) : List Page → Nat → Nat → Nat → List Page × Nat × Nat
  | [], _, line, col => ([], line, col)
  | p :: ps, offset, line, col =>
    if offset < p.size then
      let (line1, col1) := getPos charset (p.data.take offset)
      (p :: ps, line + line1, (if line1 = 0 then col else 0) + col1)
    else
      let p := countPos charset p
      let (ps, pos) := getPosLoop charset ps (offset - p.size) (line + p.nbLines) ((if p.nbLines = 0 then col else 0) + p.col)
      (p :: ps, pos)

/-- `eb_get_pos`. -/
def ebGetPosCached (t : Pages) (charset : Charset) (offset : Nat) : Pages × Nat × Nat :=
  let (ps, pos) := getPosLoop charset t.pageTable offset 0 0
  ({ t with pageTable := ps }, pos)

/-- The loop of `eb_goto_pos` over the pages, from one on that begins at the offset, on the line and the column: the pages, and
from where to go how many characters further on. -/
def gotoPosLoop (charset : Charset) (line1 col1 : Nat) : List Page → Nat → Nat → Nat → List Page × Option (Nat × Nat)
  | [], _, _, _ => ([], none)
  | p :: ps, offset, line, col =>
    let p := countPos charset p
    let line2 := line + p.nbLines
    -- the source sets `col2` to zero for a page with a newline, and then assigns it again
    let col2 := col + p.col
    if line1 < line2 ∨ (line2 = line1 ∧ col1 ≤ col2) then
      (p :: ps, some (offset + skipLines (line1 - line) p.data, col1 - if line < line1 then 0 else col))
    else
      let (ps, found) := gotoPosLoop charset line1 col1 ps (offset + p.size) line2 col2
      (p :: ps, found)

/-- The last loop of `eb_goto_pos`: over `n` characters, as far as the line goes. `junk` is what the array of `eb_nextc` holds
before each call. -/
def gotoColLoop (charset : Charset) (junk : Nat → List Byte) : Nat → Pages → Int → Pages × Int
  | 0, t, offset => (t, offset)
  | n + 1, t, offset =>
    let (t, c, offset1) := ebNextc t charset (junk n) offset
    if c = newline then (t, offset) else gotoColLoop charset junk n t offset1

/-- `eb_goto_pos`. -/
def ebGotoPosCached (t : Pages) (charset : Charset) (junk : Nat → List Byte) (line1 col1 : Nat) : Pages × Int :=
  let (ps, found) := gotoPosLoop charset line1 col1 t.pageTable 0 0 0
  let t := { t with pageTable := ps }
  match found with
  | none => (t, t.totalSize)
  | some (offset, n) => gotoColLoop charset junk n t offset

/-! ## Characters -/

/-- The loop of `eb_goto_char` on a text in UTF-8, from a page on. -/
def gotoCharLoop : List Page → Int → List Page × Nat
  | [], _ => ([], 0)
  | p :: ps, pos =>
    let p := countChar .utf8 p
    if pos < p.nbChars then (p :: ps, gotoChar p.data pos)
    else
      let (ps, offset) := gotoCharLoop ps (pos - p.nbChars)
      (p :: ps, p.size + offset)

/-- `eb_goto_char`. -/
def ebGotoCharCached (t : Pages) (charset : Charset) (pos : Int) : Pages × Int :=
  if charset = .utf8 then
    let (ps, offset) := gotoCharLoop t.pageTable pos
    ({ t with pageTable := ps }, offset)
  else (t, min pos t.totalSize)

/-- The loop of `eb_get_char_offset` on a text in UTF-8, from a page on. -/
def charOffsetLoop : List Page → Nat → List Page × Nat
  | [], _ => ([], 0)
  | p :: ps, offset =>
    if offset < p.size then (p :: ps, getChars .utf8 (p.data.take offset))
    else
      let p := countChar .utf8 p
      let (ps, pos) := charOffsetLoop ps (offset - p.size)
      (p :: ps, p.nbChars + pos)

/-- `eb_get_char_offset`. -/
def ebGetCharOffsetCached (t : Pages) (charset : Charset) (offset : Nat) : Pages × Int :=
  if charset = .utf8 then
    let (ps, pos) := charOffsetLoop t.pageTable offset
    ({ t with pageTable := ps }, pos)
  else (t, min offset t.totalSize)

/-! ## The beginning and the end of a line -/

/-- The loop of `eb_goto_bol`, `n` turns at most; none when it has not stopped by then. -/
def gotoBolLoop (charset : Charset) (junk : Nat → List Byte) : Nat → Pages → Int → Option (Pages × Int)
  | 0, _, _ => none
  | n + 1, t, offset =>
    let (t, c, offset1) := ebPrevc t charset (junk n) offset
    if c = newline then some (t, offset) else gotoBolLoop charset junk n t offset1

/-- `eb_goto_bol`. -/
def ebGotoBol (t : Pages) (charset : Charset) (junk : Nat → List Byte) (offset : Int) : Option (Pages × Int) :=
  gotoBolLoop charset junk (t.totalSize + 2) t offset

/-- The loop of `eb_next_line`, `n` turns at most; none when it has not stopped by then. -/
def nextLineLoop (charset : Charset) (junk : Nat → List Byte) : Nat → Pages → Int → Option (Pages × Int)
  | 0, _, _ => none
  | n + 1, t, offset =>
    let (t, c, offset) := ebNextc t charset (junk n) offset
    if c = newline then some (t, offset) else nextLineLoop charset junk n t offset

/-- `eb_next_line`. -/
def ebNextLine (t : Pages) (charset : Charset) (junk : Nat → List Byte) (offset : Int) : Option (Pages × Int) :=
  nextLineLoop charset junk (t.totalSize + 2) t offset

end Hoe
