import Hoe.EditBuffer
import Hoe.Lib.Memory

/-!
# The buffer layer in memory

The functions of buffer.c once more, with the data of a page where the source has it: in a block of the heap, or in a mapped file.
A page that is read only points at bytes that other pages point at too. `Hoe.Pages` and `Hoe.EditBuffer` say what a change makes of
the bytes; here is which block is copied, written, resized and freed on the way.

The allocation in `update_page` is the one whose answer the source looks at, and it may be refused. Where it does not look, a
refusal ends the program at the next access, so these allocations succeed. The page table itself belongs to one buffer and is a
list as before.
-/

namespace Hoe.InMemory

open Memory

/-- A page. -/
structure Page where
  size : Nat
  data : Ptr
  readOnly : Bool
  validPos : Bool
  validChar : Bool
  nbLines : Nat
  col : Nat
  nbChars : Nat
deriving DecidableEq, Repr

/-- A page with no flag set. -/
def newPage (size : Nat) (data : Ptr) : Page :=
  { size := size, data := data, readOnly := false, validPos := false, validChar := false, nbLines := 0, col := 0, nbChars := 0 }

/-- A slot of the page table that holds no page. -/
def Page.null : Page := newPage 0 ⟨0, 0⟩

/-- The text of a buffer. -/
structure Pages where
  pageTable : List Page
  nbPages : Nat
  totalSize : Nat
  curPage : Option Nat
  curOffset : Nat
deriving DecidableEq, Repr

namespace Pages

def empty : Pages := { pageTable := [], nbPages := 0, totalSize := 0, curPage := none, curOffset := 0 }

/-- The page at the index, which must be in the table. -/
def page (t : Pages) (i : Nat) : Mem Byte Page :=
  match t.pageTable[i]? with
  | some p => pure p
  | none => throw .wild

def setPage (t : Pages) (i : Nat) (p : Page) : Pages := { t with pageTable := t.pageTable.set i p }

end Pages

/-! ## Finding a page -/

/-- The loop of `find_page`. -/
def seekPage : List Page → Nat → Nat × Nat
  | [], offset => (0, offset)
  | p :: ps, offset =>
    if p.size ≤ offset then
      let (i, off) := seekPage ps (offset - p.size)
      (i + 1, off)
    else (0, offset)

/-- `find_page` without the help of the cache. -/
def searchPage (t : Pages) (offset : Nat) : Pages × Nat × Nat :=
  let (i, off) := seekPage t.pageTable offset
  ({ t with curPage := some i, curOffset := offset - off }, i, off)

/-- `find_page`. -/
def findPage (t : Pages) (offset : Nat) : Pages × Nat × Nat :=
  match t.curPage with
  | some i =>
    if t.curOffset ≤ offset ∧ offset < t.curOffset + (t.pageTable.getD i Page.null).size then (t, i, offset - t.curOffset)
    else searchPage t offset
  | none => searchPage t offset

/-- `update_page`. Where there is no memory for the copy the page stays as it is, and read only. -/
def updatePage (p : Page) : Mem Byte Page := do
  if p.readOnly then
    let buf ← tryMalloc 0 p.size
    match buf with
    | none => return p
    | some buf =>
      let xs ← load p.data p.size
      store buf xs
      return { p with data := buf, readOnly := false, validPos := false, validChar := false }
  else
    return { p with validPos := false, validChar := false }

/-! ## Reading and writing -/

/-- The loop of `eb_rw` when it reads. -/
def rwRead : List Page → Nat → Nat → Mem Byte (List Byte)
  | [], _, size => if size = 0 then pure [] else throw .wild
  | p :: ps, offset, size => do
    if size = 0 then return []
    let len := min (p.size - offset) size
    let xs ← load (p.data.add offset) len
    let ys ← (if p.size ≤ offset + len then rwRead ps 0 (size - len) else pure [])
    return xs ++ ys

/-- The loop of `eb_rw` when it writes. -/
def rwWrite : List Page → Nat → List Byte → Mem Byte (List Page)
  | [], _, buf => if buf.length = 0 then pure [] else throw .wild
  | p :: ps, offset, buf => do
    if buf.length = 0 then return p :: ps
    let len := min (p.size - offset) buf.length
    let p ← updatePage p
    store (p.data.add offset) (buf.take len)
    let ps ← (if p.size ≤ offset + len then rwWrite ps 0 (buf.drop len) else pure ps)
    return p :: ps

/-- How many of `size` bytes from `offset` on lie in the text. -/
def rwSize (t : Pages) (offset size : Nat) : Nat := if t.totalSize < offset + size then t.totalSize - offset else size

/-- `eb_read`. -/
def ebRead (t : Pages) (offset size : Nat) : Mem Byte (Pages × List Byte) := do
  let size := rwSize t offset size
  if size = 0 then return (t, [])
  let (t, i, off) := findPage t offset
  let bs ← rwRead (t.pageTable.drop i) off size
  return (t, bs)

/-- The writing part of `eb_rw`. -/
def writePages (t : Pages) (offset : Nat) (buf : List Byte) : Mem Byte Pages := do
  let (t, i, off) := findPage t offset
  let ps ← rwWrite (t.pageTable.drop i) off buf
  return { t with pageTable := t.pageTable.take i ++ ps }

/-! ## Inserting -/

/-- The bytes to insert: an array of the caller, or the data of a page. -/
inductive Source where
  | array (bs : List Byte)
  | data (p : Ptr)
deriving DecidableEq, Repr

namespace Source

/-- The bytes behind the first `n`. -/
def drop : Source → Nat → Source
  | array bs, n => array (bs.drop n)
  | data p, n => data (p.add n)

/-- The first `n` bytes. -/
def load : Source → Nat → Mem Byte (List Byte)
  | array bs, n => if n ≤ bs.length then pure (bs.take n) else throw .wild
  | data p, n => Memory.load p n

end Source

/-- The loop of `eb_insert1` that fills the pages it adds. -/
def fillPages : Nat → Source → Nat → Mem Byte (List Page)
  | 0, _, _ => pure []
  | n + 1, buf, size => do
    let len := min size maxPageSize
    let data ← malloc 0 len
    let xs ← buf.load len
    store data xs
    let ps ← fillPages n (buf.drop len) (size - len)
    return newPage len data :: ps

/-- Grow a page to `size` bytes, open a gap of `len` bytes at `offset` and fill it from `buf`: what `eb_insert1` and
`eb_insert_lowlevel` do to a page with room. -/
def openGap (p : Page) (size offset : Nat) (buf : Source) (len : Nat) : Mem Byte Page := do
  let p ← updatePage p
  let data ← realloc 0 p.data size
  memmove (data.add (offset + len)) (data.add offset) (size - (offset + len))
  let xs ← buf.load len
  store (data.add offset) xs
  return { p with size := size, data := data }

/-- The first half of `eb_insert1`. Returns how many bytes are left. -/
def prependPage (t : Pages) (pageIndex : Nat) (buf : Source) (size : Nat) : Mem Byte (Pages × Nat) := do
  if pageIndex < t.nbPages then
    let p ← t.page pageIndex
    let len := min (maxPageSize - p.size) size
    if 0 < len then
      let p ← openGap p (p.size + len) 0 (buf.drop (size - len)) len
      return (t.setPage pageIndex p, size - len)
    else return (t, size)
  else return (t, size)

/-- Open a gap in the page table and store pages there. -/
def insertPages (t : Pages) (pageIndex : Nat) (ps : List Page) : Pages :=
  let nbPages := t.nbPages + ps.length
  let table := Block.realloc Page.null t.pageTable nbPages
  let table := Block.memmove table (pageIndex + ps.length) pageIndex (nbPages - ps.length - pageIndex)
  { t with nbPages := nbPages, pageTable := Block.memcpy table pageIndex ps }

/-- `eb_insert1`. -/
def ebInsert1 (t : Pages) (pageIndex : Nat) (buf : Source) (size : Nat) : Mem Byte Pages := do
  let (t, size) ← prependPage t pageIndex buf size
  -- now add new pages if necessary
  let n := pagesFor size
  if 0 < n then
    let ps ← fillPages n buf size
    return insertPages t pageIndex ps
  else return t

/-- The part of `eb_insert_lowlevel` for the page that holds the byte before `offset`. Returns how many bytes it has inserted. -/
def insertInPage (t : Pages) (pageIndex offset : Nat) (buf : Source) (size : Nat) : Mem Byte (Pages × Nat) := do
  let p ← t.page pageIndex
  -- what we can insert in the current page
  let len := min (maxPageSize - offset) size
  -- number of bytes to put in next pages
  let lenOut := p.size + len - maxPageSize
  let t ← (if 0 < lenOut then ebInsert1 t (pageIndex + 1) (.data (p.data.add (p.size - lenOut))) lenOut else pure t)
  if 0 < len then
    let p ← t.page pageIndex
    let p ← openGap p (p.size + (len - lenOut)) offset buf len
    return (t.setPage pageIndex p, len)
  else return (t, len)

/-- `eb_insert_lowlevel`. -/
def ebInsertLowlevel (t : Pages) (offset : Nat) (buf : Source) (size : Nat) : Mem Byte Pages := do
  let t := { t with totalSize := t.totalSize + size }
  let (t, len, pageIndex) ←
    (if 0 < offset then do
      let (t, pageIndex, off) := findPage t (offset - 1)
      let (t, len) ← insertInPage t pageIndex (off + 1) buf size
      pure (t, len, pageIndex + 1)
    else pure (t, 0, 0))
  -- insert the remaining data in the next pages
  let t ← (if 0 < size - len then ebInsert1 t pageIndex (buf.drop len) (size - len) else pure t)
  -- the page cache is no longer valid
  return { t with curPage := none }

/-! ## Inserting pages of another buffer -/

/-- The part of `eb_insert_buffer` that cuts the page at `offset` if needed. -/
def cutPage (t : Pages) (offset : Nat) : Mem Byte (Pages × Nat) := do
  if offset < t.totalSize then
    let (t, i, off) := findPage t offset
    if 0 < off then
      let q ← t.page i
      let t ← ebInsert1 t (i + 1) (.data (q.data.add off)) (q.size - off)
      -- must reload q because the page table may have been realloced
      let q ← t.page i
      let q ← updatePage q
      let data ← realloc 0 q.data off
      return (t.setPage i { q with data := data, size := off }, i + 1)
    else return (t, i)
  else return (t, t.nbPages)

/-- The number of complete pages among the next `size` bytes, and the bytes left after them. -/
def completePages : List Page → Nat → Nat × Nat
  | [], size => (0, size)
  | p :: ps, size =>
    if 0 < size ∧ p.size ≤ size then
      let (n, left) := completePages ps (size - p.size)
      (n + 1, left)
    else (0, size)

/-- What `eb_insert_buffer` makes of a complete page of the source. -/
def copyPage (p : Page) : Mem Byte Page := do
  if p.readOnly then
    -- simply copy the reference
    return { newPage p.size p.data with readOnly := true }
  else
    -- allocate a new page
    let data ← malloc 0 p.size
    let xs ← load p.data p.size
    store data xs
    return newPage p.size data

/-- The loop of `eb_insert_buffer` over the complete pages. -/
def copyPages : List Page → Mem Byte (List Page)
  | [] => pure []
  | p :: ps => do
    let q ← copyPage p
    let qs ← copyPages ps
    return q :: qs

/-- The part of `eb_insert_buffer` that starts at a page of the source, `rest` being the pages from there on. -/
def insertRest (dest : Pages) (destOffset : Nat) (rest : List Page) (size : Nat) : Mem Byte Pages := do
  let (dest, pageIndex) ← cutPage dest destOffset
  let dest := { dest with totalSize := dest.totalSize + size }
  let (n, left) := completePages rest size
  let (dest, pageIndex) ←
    (if 0 < n then do
      let ps ← copyPages (rest.take n)
      pure (insertPages dest pageIndex ps, pageIndex + n)
    else pure (dest, pageIndex))
  -- insert the remaining bytes
  let dest ←
    (if 0 < left then
      match rest[n]? with
      | some p => ebInsert1 dest pageIndex (.data p.data) left
      | none => throw .wild
    else pure dest)
  -- the page cache is no longer valid
  return { dest with curPage := none }

/-- `eb_insert_buffer` after the log entry is made. -/
def insertBufferPages (dest : Pages) (destOffset : Nat) (src : Pages) (srcOffset size : Nat) : Mem Byte (Pages × Pages) := do
  let (src, i, off) := findPage src srcOffset
  -- insert the data from the first page if it is not completely selected
  let (dest, len, i) ←
    (if 0 < off then do
      let p ← src.page i
      let len := min (p.size - off) size
      let dest ← ebInsertLowlevel dest destOffset (.data (p.data.add off)) len
      pure (dest, len, i + 1)
    else pure (dest, 0, i))
  if size - len = 0 then return (dest, src)
  let dest ← insertRest dest (destOffset + len) (src.pageTable.drop i) (size - len)
  return (dest, src)

/-! ## Deleting -/

/-- What the loop of `eb_delete` leaves behind. The pages to delete are still in the table, their data is freed. -/
structure Deletion where
  table : List Page
  start : Option Nat
  n : Nat

/-- Free the data of a page that goes. We cannot free if read only. -/
def freePage (p : Page) : Mem Byte Unit := if p.readOnly then pure () else free p.data

/-- Close the gap of `len` bytes at `offset` in a page: what `eb_delete` does to a page that loses a part. -/
def closeGap (p : Page) (offset len : Nat) : Mem Byte Page := do
  let p ← updatePage p
  memmove (p.data.add offset) (p.data.add (offset + len)) (p.size - offset - len)
  let data ← realloc 0 p.data (p.size - len)
  return { p with size := p.size - len, data := data }

/-- The loop of `eb_delete` from page `i` of the table on. -/
def deleteLoop : List Page → Nat → Nat → Nat → Option Nat → Nat → Mem Byte Deletion
  | [], _, _, size, start, n => if size = 0 then pure ⟨[], start, n⟩ else throw .wild
  | p :: ps, i, offset, size, start, n => do
    if size = 0 then return ⟨p :: ps, start, n⟩
    let len := min (p.size - offset) size
    if len = p.size then
      freePage p
      let d ← deleteLoop ps (i + 1) 0 (size - len) (start.or (some i)) (n + 1)
      return { d with table := p :: d.table }
    else
      let p ← closeGap p offset len
      if p.size ≤ offset + len then
        let d ← deleteLoop ps (i + 1) 0 (size - len) start n
        return { d with table := p :: d.table }
      else return ⟨p :: ps, start, n⟩

/-- `eb_delete` after the log entry is made. -/
def deletePages (t : Pages) (offset size : Nat) : Mem Byte Pages := do
  let (t, i, off) := findPage t offset
  let d ← deleteLoop (t.pageTable.drop i) i off size none 0
  let t := { t with pageTable := t.pageTable.take i ++ d.table }
  let t :=
    -- now delete the requested pages
    if 0 < d.n then
      let start := d.start.getD 0
      let nbPages := t.nbPages - d.n
      let table := Block.memmove t.pageTable start (start + d.n) (nbPages - start)
      { t with nbPages := nbPages, pageTable := Block.realloc Page.null table nbPages }
    else t
  -- the page cache is no longer valid
  return { t with curPage := none }

/-! ## The buffer and its log -/

/-- `EditBuffer`, with the fields these functions use. -/
structure EditBuffer extends Pages where
  modified : Bool
  saveLog : Bool
  logBuffer : Option Pages
  logNewIndex : Nat
  logCurrent : Nat
  nbLogs : Nat
deriving DecidableEq, Repr

/-- `eb_new`. -/
def EditBuffer.new (saveLog : Bool) : EditBuffer :=
  { Pages.empty with modified := false, saveLog := saveLog, logBuffer := none, logNewIndex := 0, logCurrent := 0, nbLogs := 0 }

/-- `eb_delete` without the log. -/
def deleteText (t : Pages) (offset size : Nat) : Mem Byte Pages :=
  if t.totalSize ≤ offset then pure t else deletePages { t with totalSize := t.totalSize - size } offset size

/-- `eb_write` without the log. -/
def writeText (t : Pages) (offset : Nat) (buf : List Byte) : Mem Byte Pages := do
  let len := rwSize t offset buf.length
  let t ← (if 0 < len then writePages t offset (buf.take len) else pure t)
  if 0 < buf.length - len then ebInsertLowlevel t (offset + len) (.array (buf.drop len)) (buf.length - len) else return t

/-- The part of `eb_addlog` that makes room. -/
def evictLog (b : EditBuffer) (log : Pages) : Mem Byte (EditBuffer × Pages) := do
  if nbLogsMax - 1 ≤ b.nbLogs then
    let (log, bs) ← ebRead log 0 LogBuffer.sizeof
    let len :=
      match LogBuffer.ofBytes bs with
      | some lb => if lb.op = .insert then 0 else lb.size
      | none => intOfBytes (Splice.slice bs 8 4)
    let len := len + (LogBuffer.sizeof + sizeofInt)
    let log ← deleteText log 0 len
    return ({ b with
      logNewIndex := b.logNewIndex - len
      logCurrent := if 1 < b.logCurrent then b.logCurrent - len else b.logCurrent
      nbLogs := b.nbLogs - 1 }, log)
  else return (b, log)

/-- The part of `eb_addlog` that writes an entry at the end of the log. -/
def appendLog (b : EditBuffer) (log : Pages) (lb : LogBuffer) : Mem Byte (EditBuffer × Pages) := do
  -- header
  let log ← writeText log b.logNewIndex lb.toBytes
  let index := b.logNewIndex + LogBuffer.sizeof
  -- data
  let (log, text, index, sizeTrailer) ←
    (if lb.op = .delete ∨ lb.op = .write then do
      let (log, text) ← (if lb.size = 0 then pure (log, b.toPages) else insertBufferPages log index b.toPages lb.offset lb.size)
      pure (log, text, index + lb.size, lb.size)
    else pure (log, b.toPages, index, 0))
  -- trailer
  let log ← writeText log index (intBytes sizeTrailer)
  return ({ b with toPages := text, logNewIndex := index + sizeofInt, nbLogs := b.nbLogs + 1 }, log)

/-- `eb_addlog`, without the callbacks: they look at no page. -/
def ebAddlog (b : EditBuffer) (op : LogOperation) (offset size : Nat) : Mem Byte EditBuffer := do
  let wasModified := b.modified
  let b := { b with modified := true }
  if !b.saveLog then return b
  let (b, log) ← evictLog b (b.logBuffer.getD Pages.empty)
  let (b, log) ← appendLog b log ⟨op, wasModified, offset, size⟩
  return { b with logBuffer := some log }

/-! ## The functions that change a text -/

/-- `eb_insert`. -/
def ebInsert (b : EditBuffer) (offset : Nat) (buf : List Byte) : Mem Byte EditBuffer := do
  let b ← ebAddlog b .insert offset buf.length
  let t ← ebInsertLowlevel b.toPages offset (.array buf) buf.length
  return { b with toPages := t }

/-- `eb_delete`. -/
def ebDelete (b : EditBuffer) (offset size : Nat) : Mem Byte EditBuffer := do
  if b.totalSize ≤ offset then return b
  let b := { b with totalSize := b.totalSize - size }
  let b ← ebAddlog b .delete offset size
  let t ← deletePages b.toPages offset size
  return { b with toPages := t }

/-- `eb_rw` when it writes. -/
def ebRw (b : EditBuffer) (offset : Nat) (buf : List Byte) : Mem Byte (EditBuffer × Nat) := do
  let size := rwSize b.toPages offset buf.length
  if size = 0 then return (b, 0)
  let b ← ebAddlog b .write offset size
  let t ← writePages b.toPages offset (buf.take size)
  return ({ b with toPages := t }, size)

/-- `eb_write`. -/
def ebWrite (b : EditBuffer) (offset : Nat) (buf : List Byte) : Mem Byte EditBuffer := do
  let (b, len) ← ebRw b offset buf
  if 0 < buf.length - len then ebInsert b (offset + len) (buf.drop len) else return b

/-- `eb_insert_buffer`, with the text of the source. -/
def ebInsertBuffer (dest : EditBuffer) (destOffset : Nat) (src : Pages) (srcOffset size : Nat) :
    Mem Byte (EditBuffer × Pages) := do
  if size = 0 then return (dest, src)
  let dest ← ebAddlog dest .insert destOffset size
  let (text, src) ← insertBufferPages dest.toPages destOffset src srcOffset size
  return ({ dest with toPages := text }, src)

/-! ## Mapped files -/

/-- The loop of `mmap_buffer`, with `size` bytes to go. -/
def mapPages : Nat → Ptr → Nat → List Page
  | 0, _, _ => []
  | n + 1, ptr, size =>
    { newPage (min size maxPageSize) ptr with readOnly := true } :: mapPages n (ptr.add maxPageSize) (size - maxPageSize)

/-- `mmap_buffer`. -/
def mmapBuffer (b : EditBuffer) (ino : Nat) (file : List Byte) : Mem Byte EditBuffer := do
  if file.length = 0 then return b
  let ptr ← mmap ino file
  let n := pagesFor file.length
  return { b with pageTable := mapPages n ptr file.length, totalSize := file.length, nbPages := n }

end Hoe.InMemory
