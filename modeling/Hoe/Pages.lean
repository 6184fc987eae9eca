import Hoe.Lib.Block
import Mathlib.Data.Int.ModEq

/-!
# The page table of a buffer

The part of `EditBuffer` that holds the text, and the functions of buffer.c that work on it alone: find a page, read and
write across pages, insert, delete, insert pages of another buffer. An `int` is a natural number or an integer here, without
a bound unless `wrapInt` keeps it; a pointer into the page table is an index; a page's `data` is the list of the bytes it points at.
-/

namespace Hoe

open Splice Block

/-- A byte. The values an unsigned char takes are those below 256; the buffer layer moves bytes without looking at them. -/
abbrev Byte := Nat

/-- The value of an `int` after an operation that leaves its range. -/
def wrapInt (n : Int) : Int := (n + 2 ^ 31) % 2 ^ 32 - 2 ^ 31

def maxPageSize : Nat := 4096

theorem maxPageSize_pos : 0 < maxPageSize := by decide

/-- Where the bytes of a page lie in a mapped file: the inode and the offset in it. -/
structure FileRef where
  ino : Nat
  off : Nat
deriving DecidableEq, Repr

/-- A page. `ref` is set when `data` points into a mapped file and not at memory of its own. The flag for colors is cleared
with the other two and never read, so it has no field. -/
structure Page where
  size : Nat
  data : List Byte
  ref : Option FileRef
  readOnly : Bool
  validPos : Bool
  validChar : Bool
  nbLines : Nat
  col : Nat
  nbChars : Nat
deriving DecidableEq, Repr

/-- A page just allocated for the bytes `buf`: no flag set, so the three counts are not looked at. -/
def newPage (buf : List Byte) : Page :=
  { size := buf.length, data := buf, ref := none, readOnly := false, validPos := false, validChar := false
    nbLines := 0, col := 0, nbChars := 0 }

/-- What the model finds in a slot of the page table that holds no page. -/
def Page.null : Page := newPage []

/-- The text of a buffer: the page table, the sizes kept beside it, and the page cache (`curPage` is an index, `none` for
NULL). -/
structure Pages where
  pageTable : List Page
  nbPages : Nat
  totalSize : Nat
  curPage : Option Nat
  curOffset : Nat
deriving DecidableEq, Repr

namespace Pages

/-- The text of a buffer that `eb_new` has just zeroed. -/
def empty : Pages := { pageTable := [], nbPages := 0, totalSize := 0, curPage := none, curOffset := 0 }

def page (t : Pages) (i : Nat) : Page := t.pageTable.getD i Page.null

def setPage (t : Pages) (i : Nat) (p : Page) : Pages := { t with pageTable := t.pageTable.set i p }

/-- The bytes of the text: the pages end to end. -/
def bytes (t : Pages) : List Byte := t.pageTable.flatMap (·.data)

end Pages

/-! ## Finding a page -/

/-- The loop of `find_page`: the index of the page that holds the offset, counted from here, and the offset in it. -/
def seekPage : List Page → Nat → Nat × Nat
  | [], offset => (0, offset)
  | p :: ps, offset =>
    if p.size ≤ offset then
      let (i, off) := seekPage ps (offset - p.size)
      (i + 1, off)
    else (0, offset)

/-- `find_page` without the help of the cache: search the table and set the cache. -/
def searchPage (t : Pages) (offset : Nat) : Pages × Nat × Nat :=
  let (i, off) := seekPage t.pageTable offset
  ({ t with curPage := some i, curOffset := offset - off }, i, off)

/-- `find_page`: the page that holds the offset and the offset in it, through the cache when it covers the offset. -/
def findPage (t : Pages) (offset : Nat) : Pages × Nat × Nat :=
  match t.curPage with
  | some i =>
    if t.curOffset ≤ offset ∧ offset < t.curOffset + (t.page i).size then (t, i, offset - t.curOffset)
    else searchPage t offset
  | none => searchPage t offset

/-- `update_page`: prepare a page to be written. A page that is read only is copied. -/
def updatePage (p : Page) : Page :=
  { p with ref := if p.readOnly then none else p.ref, readOnly := false, validPos := false, validChar := false }

/-! ## Reading and writing -/

/-- The loop of `eb_rw` when it reads: `size` bytes from `offset` in the first page on. -/
def rwRead : List Page → Nat → Nat → List Byte
  | [], _, _ => []
  | p :: ps, offset, size =>
    if size = 0 then [] else
    let len := min (p.size - offset) size
    slice p.data offset len ++ (if p.size ≤ offset + len then rwRead ps 0 (size - len) else [])

/-- The loop of `eb_rw` when it writes. -/
def rwWrite : List Page → Nat → List Byte → List Page
  | [], _, _ => []
  | p :: ps, offset, buf =>
    if buf.length = 0 then p :: ps else
    let len := min (p.size - offset) buf.length
    { updatePage p with data := memcpy p.data offset (buf.take len) } ::
      (if p.size ≤ offset + len then rwWrite ps 0 (buf.drop len) else ps)

/-- How many of `size` bytes from `offset` on lie in the text: the first lines of `eb_rw`. -/
def rwSize (t : Pages) (offset size : Nat) : Nat := if t.totalSize < offset + size then t.totalSize - offset else size

/-- `eb_read`. -/
def ebRead (t : Pages) (offset size : Nat) : Pages × List Byte :=
  let size := rwSize t offset size
  if size = 0 then (t, []) else
  let (t, i, off) := findPage t offset
  (t, rwRead (t.pageTable.drop i) off size)

/-- The writing part of `eb_rw`, for bytes that all lie in the text. -/
def writePages (t : Pages) (offset : Nat) (buf : List Byte) : Pages :=
  let (t, i, off) := findPage t offset
  { t with pageTable := t.pageTable.take i ++ rwWrite (t.pageTable.drop i) off buf }

/-! ## Inserting -/

/-- The loop of `eb_insert1` that fills the pages it adds; it runs once for each of them. -/
def fillPages : Nat → List Byte → List Page
  | 0, _ => []
  | n + 1, buf => newPage (buf.take maxPageSize) :: fillPages n (buf.drop maxPageSize)

/-- How many pages `size` bytes fill. -/
def pagesFor (size : Nat) : Nat := (size + maxPageSize - 1) / maxPageSize

/-- The first half of `eb_insert1`: put the last bytes of `buf` at the beginning of the page at `pageIndex`, as many as it
has room for, and return the bytes that are left. -/
def prependPage (t : Pages) (pageIndex : Nat) (buf : List Byte) : Pages × List Byte :=
  if pageIndex < t.nbPages then
    let p := t.page pageIndex
    let len := min (maxPageSize - p.size) buf.length
    if 0 < len then
      let data := realloc 0 p.data (p.size + len)
      let data := memmove data len 0 p.size
      let data := memcpy data 0 (buf.drop (buf.length - len))
      (t.setPage pageIndex { updatePage p with size := p.size + len, data := data }, buf.take (buf.length - len))
    else (t, buf)
  else (t, buf)

/-- Open a gap of `ps.length` slots at `pageIndex` in the page table and store `ps` there. -/
def insertPages (t : Pages) (pageIndex : Nat) (ps : List Page) : Pages :=
  let nbPages := t.nbPages + ps.length
  let table := realloc Page.null t.pageTable nbPages
  let table := memmove table (pageIndex + ps.length) pageIndex (nbPages - ps.length - pageIndex)
  { t with nbPages := nbPages, pageTable := memcpy table pageIndex ps }

/-- `eb_insert1`: insertion of `buf` at the beginning of the page at `pageIndex`. -/
def ebInsert1 (t : Pages) (pageIndex : Nat) (buf : List Byte) : Pages :=
  let (t, buf) := prependPage t pageIndex buf
  -- now add new pages if necessary
  let n := pagesFor buf.length
  if 0 < n then insertPages t pageIndex (fillPages n buf) else t

/-- The part of `eb_insert_lowlevel` for the page that holds the byte before `offset`: push the tail that does not fit into
the next page, open a gap at `offset` in the page and fill it. Returns the bytes that are left for the next pages. -/
def insertInPage (t : Pages) (pageIndex offset : Nat) (buf : List Byte) : Pages × List Byte :=
  let p := t.page pageIndex
  -- what we can insert in the current page
  let len := min (maxPageSize - offset) buf.length
  -- number of bytes to put in next pages
  let lenOut := p.size + len - maxPageSize
  let t := if 0 < lenOut then ebInsert1 t (pageIndex + 1) (slice p.data (p.size - lenOut) lenOut) else t
  let t :=
    if 0 < len then
      let p := t.page pageIndex
      let size := p.size + (len - lenOut)
      let data := realloc 0 p.data size
      let data := memmove data (offset + len) offset (size - (offset + len))
      let data := memcpy data offset (buf.take len)
      t.setPage pageIndex { updatePage p with size := size, data := data }
    else t
  (t, buf.drop len)

/-- `eb_insert_lowlevel`. We must have `offset ≤ totalSize`. -/
def ebInsertLowlevel (t : Pages) (offset : Nat) (buf : List Byte) : Pages :=
  let t := { t with totalSize := t.totalSize + buf.length }
  let (t, buf, pageIndex) :=
    if 0 < offset then
      let (t, pageIndex, off) := findPage t (offset - 1)
      let (t, buf) := insertInPage t pageIndex (off + 1) buf
      (t, buf, pageIndex + 1)
    else (t, buf, 0)
  -- insert the remaining data in the next pages
  let t := if 0 < buf.length then ebInsert1 t pageIndex buf else t
  -- the page cache is no longer valid
  { t with curPage := none }

/-! ## Inserting pages of another buffer -/

/-- The part of `eb_insert_buffer` that cuts the page at `offset` if needed: the index in front of which pages go. -/
def cutPage (t : Pages) (offset : Nat) : Pages × Nat :=
  if offset < t.totalSize then
    let (t, i, off) := findPage t offset
    if 0 < off then
      let q := t.page i
      let t := ebInsert1 t (i + 1) (slice q.data off (q.size - off))
      -- must reload q because the page table may have been realloced
      let q := t.page i
      (t.setPage i { updatePage q with data := realloc 0 q.data off, size := off }, i + 1)
    else (t, i)
  else (t, t.nbPages)

/-- The number of complete pages among the next `size` bytes, and the bytes left after them. -/
def completePages : List Page → Nat → Nat × Nat
  | [], size => (0, size)
  | p :: ps, size =>
    if 0 < size ∧ p.size ≤ size then
      let (n, left) := completePages ps (size - p.size)
      (n + 1, left)
    else (0, size)

/-- What `eb_insert_buffer` makes of a complete page of the source: the reference is copied when the page is read only, the
bytes otherwise. -/
def copyPage (p : Page) : Page :=
  if p.readOnly then { newPage p.data with size := p.size, ref := p.ref, readOnly := true } else newPage p.data

/-- The part of `eb_insert_buffer` that starts at a page of the source, `rest` being the pages from there on: cut the page at
`destOffset` if needed, copy the complete pages, insert the remaining bytes. -/
def insertRest (dest : Pages) (destOffset : Nat) (rest : List Page) (size : Nat) : Pages :=
  let (dest, pageIndex) := cutPage dest destOffset
  let dest := { dest with totalSize := dest.totalSize + size }
  let (n, left) := completePages rest size
  let (dest, pageIndex) :=
    if 0 < n then (insertPages dest pageIndex ((rest.take n).map copyPage), pageIndex + n) else (dest, pageIndex)
  -- insert the remaining bytes
  let dest := if 0 < left then ebInsert1 dest pageIndex ((rest.getD n Page.null).data.take left) else dest
  -- the page cache is no longer valid
  { dest with curPage := none }

/-- `eb_insert_buffer` after the log entry is made: insert `size` bytes of `src` from `srcOffset` into `dest` at
`destOffset`. The source changes too, in its page cache. -/
def insertBufferPages (dest : Pages) (destOffset : Nat) (src : Pages) (srcOffset size : Nat) : Pages × Pages :=
  let (src, i, off) := findPage src srcOffset
  -- insert the data from the first page if it is not completely selected
  let (dest, destOffset, size, i) :=
    if 0 < off then
      let p := src.page i
      let len := min (p.size - off) size
      (ebInsertLowlevel dest destOffset (slice p.data off len), destOffset + len, size - len, i + 1)
    else (dest, destOffset, size, i)
  if size = 0 then (dest, src) else (insertRest dest destOffset (src.pageTable.drop i) size, src)

/-! ## Deleting -/

/-- What the loop of `eb_delete` leaves behind: the page table (emptied pages still in it), the first page to delete and
how many. -/
structure Deletion where
  table : List Page
  start : Option Nat
  n : Nat

/-- The loop of `eb_delete` from page `i` of the table on. A page that goes entirely is counted, one that loses a part is
closed over the gap; after a partial page either the next page follows or nothing is left to delete. -/
def deleteLoop : List Page → Nat → Nat → Nat → Option Nat → Nat → Deletion
  | [], _, _, _, start, n => ⟨[], start, n⟩
  | p :: ps, i, offset, size, start, n =>
    if size = 0 then ⟨p :: ps, start, n⟩ else
    let len := min (p.size - offset) size
    if len = p.size then
      let d := deleteLoop ps (i + 1) 0 (size - len) (start.or (some i)) (n + 1)
      { d with table := p :: d.table }
    else
      let data := memmove p.data offset (offset + len) (p.size - offset - len)
      let p := { updatePage p with size := p.size - len, data := realloc 0 data (p.size - len) }
      if p.size ≤ offset + len then
        let d := deleteLoop ps (i + 1) 0 (size - len) start n
        { d with table := p :: d.table }
      else ⟨p :: ps, start, n⟩

/-- `eb_delete` after the log entry is made. -/
def deletePages (t : Pages) (offset size : Nat) : Pages :=
  let (t, i, off) := findPage t offset
  let d := deleteLoop (t.pageTable.drop i) i off size none 0
  let t := { t with pageTable := t.pageTable.take i ++ d.table }
  let t :=
    -- now delete the requested pages
    if 0 < d.n then
      let start := d.start.getD 0
      let nbPages := t.nbPages - d.n
      let table := memmove t.pageTable start (start + d.n) (nbPages - start)
      { t with nbPages := nbPages, pageTable := realloc Page.null table nbPages }
    else t
  -- the page cache is no longer valid
  { t with curPage := none }

/-! ## Machine integers

What `wrapInt` keeps: a number that fits, and every sum and product up to a multiple of 2^32.
-/

/-- An `int` can hold the number. -/
def InInt (n : Int) : Prop := -2 ^ 31 ≤ n ∧ n < 2 ^ 31

instance (n : Int) : Decidable (InInt n) := inferInstanceAs (Decidable (_ ∧ _))

theorem wrapInt_of_lt {n : Int} (h0 : -2 ^ 31 ≤ n) (h : n < 2 ^ 31) : wrapInt n = n := by
  unfold wrapInt
  omega

theorem wrapInt_bounds (n : Int) : -2 ^ 31 ≤ wrapInt n ∧ wrapInt n < 2 ^ 31 := by
  unfold wrapInt
  omega

theorem wrapInt_modEq (n : Int) : wrapInt n ≡ n [ZMOD 2 ^ 32] := by
  unfold wrapInt Int.ModEq
  omega

theorem wrapInt_congr {m n : Int} (h : m ≡ n [ZMOD 2 ^ 32]) : wrapInt m = wrapInt n := by
  unfold wrapInt
  rw [h.add_right (2 ^ 31)]

theorem wrapInt_add (m n : Int) : wrapInt (wrapInt m + n) = wrapInt (m + n) :=
  wrapInt_congr ((wrapInt_modEq m).add_right n)

theorem wrapInt_mul (m n : Int) : wrapInt (wrapInt m * n) = wrapInt (m * n) :=
  wrapInt_congr ((wrapInt_modEq m).mul_right n)

theorem wrapInt_nonneg_iff (n : Nat) : 0 ≤ wrapInt n ↔ n % 2 ^ 32 < 2 ^ 31 := by
  unfold wrapInt
  constructor <;> omega

/-- An even number stays even. -/
theorem wrapInt_even {n : Int} (h : n % 2 = 0) : wrapInt n % 2 = 0 := by
  unfold wrapInt
  omega

end Hoe
