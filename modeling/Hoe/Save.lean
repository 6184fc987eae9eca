import Hoe.EditBuffer

/-!
# Saving a buffer

`save_buffer` and `raw_save_buffer` over the files they touch: the file of the buffer, the backup in the backup directory, and
the inodes behind them. `rename`, `open` and every `write` may fail, and a write may take less than it is given. A page of a
mapped file shows what its inode holds at the moment it is read, and reading it behind the end of the file kills the process.
The mode bits, which `save_buffer` reads and sets, are left out; every buffer has the raw data type, the only one there is.
-/

namespace Hoe

open Splice

/-- The names `save_buffer` uses and the inodes behind them; `next` is the number the next new file gets. -/
structure Files where
  target : Option Nat
  backup : Option Nat
  data : Nat → List Byte
  next : Nat
  target_lt : ∀ ino ∈ target, ino < next

namespace Files

/-- What a name of the file holds, `none` when there is no such file. -/
def content (files : Files) (name : Option Nat) : Option (List Byte) := name.map files.data

/-- `rename` of the file to the backup; `renamed` says whether the system is able to. Two names of one inode are left alone. -/
def rename (files : Files) (renamed : Bool) : Files :=
  if renamed ∧ files.target ≠ none ∧ files.backup ≠ files.target then
    { files with target := none, backup := files.target, target_lt := by simp }
  else files

/-- `open` of the file with O_WRONLY, O_CREAT and O_TRUNC, when it succeeds: the inode it writes to. -/
def openTruncate (files : Files) : Files × Nat :=
  match files.target with
  | some ino => ({ files with data := Function.update files.data ino [] }, ino)
  | none =>
    ({ files with
        target := some files.next, data := Function.update files.data files.next [], next := files.next + 1
        target_lt := by simp },
      files.next)

/-- `write` at the end of what was written. -/
def write (files : Files) (ino : Nat) (buf : List Byte) : Files :=
  { files with data := Function.update files.data ino (files.data ino ++ buf) }

theorem openTruncate_some {files : Files} {ino : Nat} (h : files.target = some ino) :
    ∃ f, files.openTruncate = (f, ino) ∧ f.target = some ino ∧ f.backup = files.backup ∧
      f.data = Function.update files.data ino [] := by
  unfold openTruncate
  split
  · rename_i i hi
    obtain rfl : i = ino := Option.some.inj (hi.symm.trans h)
    exact ⟨_, rfl, h, rfl, rfl⟩
  · rename_i hnone
    rw [h] at hnone
    cases hnone

theorem openTruncate_none {files : Files} (h : files.target = none) :
    ∃ f, files.openTruncate = (f, files.next) ∧ f.target = some files.next ∧ f.backup = files.backup ∧
      f.data = Function.update files.data files.next [] := by
  unfold openTruncate
  split
  · rename_i i hi
    rw [h] at hi
    cases hi
  · exact ⟨_, rfl, rfl, rfl, rfl⟩

@[simp] theorem write_self (files : Files) (ino : Nat) (buf : List Byte) :
    (files.write ino buf).data ino = files.data ino ++ buf := Function.update_self ..

theorem write_of_ne (files : Files) {ino i : Nat} (h : i ≠ ino) (buf : List Byte) :
    (files.write ino buf).data i = files.data i := Function.update_of_ne h ..

end Files

/-- What a `write` does: it fails, or takes so many bytes of those it is given, at most all of them. -/
inductive WriteResult where
  | failed
  | accepted (n : Nat)
deriving DecidableEq, Repr

/-! ## Mapped pages -/

/-- The bytes a mapping shows: what the file holds, and zeros behind its end. -/
def mappedBytes (file : List Byte) (off size : Nat) : List Byte := (List.range size).map fun i => file.getD (off + i) 0

/-- A page as it is read now. -/
def showPage (data : Nat → List Byte) (p : Page) : Page :=
  match p.ref with
  | some r => { p with data := mappedBytes (data r.ino) r.off p.size }
  | none => p

/-- The pages of a text as they are read now. -/
def showPages (data : Nat → List Byte) (t : Pages) : Pages := { t with pageTable := t.pageTable.map (showPage data) }

/-- Where the bytes of a page lie in mapped files. -/
def Page.places (p : Page) : List (Option FileRef) :=
  (List.range p.size).map fun i => p.ref.map fun r => ⟨r.ino, r.off + i⟩

/-- Where the bytes of a text lie in mapped files. -/
def Pages.places (t : Pages) : List (Option FileRef) := t.pageTable.flatMap (·.places)

/-- The size of a page of memory: a mapping can be read up to the end of the last page that has a byte of the file. -/
def memoryPage : Nat := 4096

/-- Reading the byte at the place kills the process. -/
def FileRef.Faults (data : Nat → List Byte) (r : FileRef) : Prop :=
  (((data r.ino).length + memoryPage - 1) / memoryPage) * memoryPage ≤ r.off

instance (data : Nat → List Byte) (r : FileRef) : Decidable (r.Faults data) := by unfold FileRef.Faults; infer_instance

/-- Reading the bytes kills the process. -/
def Pages.Faults (data : Nat → List Byte) (t : Pages) (offset size : Nat) : Prop :=
  ∃ r, some r ∈ slice t.places offset size ∧ r.Faults data

instance (data : Nat → List Byte) (t : Pages) (offset size : Nat) : Decidable (t.Faults data offset size) :=
  decidable_of_iff (∃ o ∈ slice t.places offset size, ∃ r ∈ o, FileRef.Faults data r) (by
    unfold Pages.Faults
    constructor
    · rintro ⟨o, ho, r, hr, hf⟩
      rw [Option.mem_def] at hr
      exact ⟨r, hr ▸ ho, hf⟩
    · rintro ⟨r, hr, hf⟩
      exact ⟨some r, hr, r, rfl, hf⟩)

/-! ## Saving -/

/-- The loop of `raw_save_buffer`, `size` bytes before the end: `none` when the process is killed, or when the writes it is given
do not bring it to an end. -/
def saveBlocks (ino : Nat) : List WriteResult → Files → Pages → Nat → Option (Files × Pages × Int)
  | [], files, t, size => if size = 0 then some (files, t, 0) else none
  | w :: ws, files, t, size =>
    if size = 0 then some (files, t, 0) else
    let len := min size ioBufSize
    let offset := t.totalSize - size
    if t.Faults files.data offset len then none else
    let (t, buf) := ebRead (showPages files.data t) offset len
    match w with
    | .failed => some (files, t, -1)
    | .accepted n =>
      let n := min n len
      saveBlocks ino ws (files.write ino (buf.take n)) t (size - n)

/-- `raw_save_buffer`. -/
def rawSaveBuffer (files : Files) (t : Pages) (opened : Bool) (writes : List WriteResult) : Option (Files × Pages × Int) :=
  if opened then
    let (files, ino) := files.openTruncate
    saveBlocks ino writes files t t.totalSize
  else some (files, t, -1)

/-- `save_buffer`: the files, the buffer and what is returned. -/
def saveBuffer (files : Files) (b : EditBuffer) (renamed opened : Bool) (writes : List WriteResult) :
    Option (Files × EditBuffer × Int) :=
  match rawSaveBuffer (files.rename renamed) b.toPages opened writes with
  | none => none
  | some (files, t, ret) =>
    let b := { b with toPages := t }
    if ret < 0 then some (files, b, ret) else some (files, finishSave b, 0)

/-! ## Loading again -/

/-- The loop of `raw_load_buffer1` with short reads: each `fread` returns so many bytes, at most a block and what is left of the
file; `none` when the reads do not bring it to an end. -/
def loadReads : List Nat → EditBuffer → Nat → List Byte → Option EditBuffer
  | [], b, _, file => if file = [] then some b else none
  | n :: ns, b, offset, file =>
    if file = [] then some b else
    let buf := file.take (min n ioBufSize)
    loadReads ns (ebInsert b offset buf) (offset + buf.length) (file.drop buf.length)

end Hoe
