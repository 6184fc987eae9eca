import Hoe.Doc
import Hoe.Lib.Trail
import Hoe.Lemmas.Pages

/-!
# The buffer refines its meaning

`Held b d` says that the edit buffer `b` stands for the document `d`: the pages hold the text, the log buffer holds the image
of the entries, and the three indices into it stand on boundaries of entries. `eb_addlog` and the functions above it keep this,
and do to the document what the operation of the same name does.
-/

namespace Hoe

open Splice

/-! ## The image of the log -/

/-- The log buffer's bytes. -/
def logBytes (es : List LogEntry) : List Byte := es.flatMap (·.toBytes)

@[simp] theorem logBytes_nil : logBytes [] = [] := rfl

@[simp] theorem logBytes_cons (e : LogEntry) (es : List LogEntry) : logBytes (e :: es) = e.toBytes ++ logBytes es := rfl

@[simp] theorem logBytes_append (es fs : List LogEntry) : logBytes (es ++ fs) = logBytes es ++ logBytes fs := by
  simp [logBytes]

@[simp] theorem length_intBytes (n : Nat) : (intBytes n).length = sizeofInt := rfl

@[simp] theorem length_toBytes_header (lb : LogBuffer) : lb.toBytes.length = LogBuffer.sizeof := rfl

/-- An `int` comes back from its bytes. -/
theorem intOfBytes_intBytes (n : Nat) : intOfBytes (intBytes n) = n := by
  simp only [intOfBytes, intBytes, List.getD_cons_zero, List.getD_cons_succ]
  omega

/-- A header comes back from its bytes. -/
theorem ofBytes_toBytes (lb : LogBuffer) : LogBuffer.ofBytes lb.toBytes = some lb := by
  have ho : slice lb.toBytes 4 4 = intBytes lb.offset := by simp [slice, LogBuffer.toBytes, intBytes]
  have hs : slice lb.toBytes 8 4 = intBytes lb.size := by simp [slice, LogBuffer.toBytes, intBytes]
  have hop : lb.toBytes.getD 0 0 = lb.op.code := rfl
  have hwas : lb.toBytes.getD 1 0 = if lb.wasModified then 1 else 0 := rfl
  rw [LogBuffer.ofBytes, hop, LogOperation.ofCode_code, ho, hs, hwas]
  simp only [intOfBytes_intBytes]
  cases lb with
  | mk op was offset size => cases was <;> rfl

/-- The bytes of an entry: its header, the data and the size behind them. -/
theorem length_toBytes (e : LogEntry) :
    e.toBytes.length = LogBuffer.sizeof + e.data.length + sizeofInt := by
  simp [LogEntry.toBytes, Nat.add_assoc]

theorem length_toBytes_pos (e : LogEntry) : 0 < e.toBytes.length := by
  rw [length_toBytes]
  simp only [sizeofInt]
  omega

/-- The size of an entry, as `eb_addlog` computes it from the header when it evicts the entry. -/
theorem length_toBytes_eq (e : LogEntry) :
    (if e.header.op = .insert then 0 else e.header.size) + (LogBuffer.sizeof + sizeofInt) = e.toBytes.length := by
  rw [length_toBytes]
  cases e <;> simp only [LogEntry.header, LogEntry.data, if_true, reduceCtorEq, if_false, List.length_nil] <;> omega

theorem header_op_ne_free (e : LogEntry) : e.header.op ≠ .free := by
  cases e <;> simp [LogEntry.header]

/-! ## The relation -/

/-- The log buffer holds the entries, and the indices into it stand where the document says. -/
structure LogHeld (b : EditBuffer) (log : Pages) (entries : List LogEntry) (pos : Option Nat) : Prop where
  ok : log.Ok
  bytes : log.bytes = logBytes entries
  nb : b.nbLogs = entries.length
  newIndex : b.logNewIndex = (logBytes entries).length
  current : b.logCurrent = match pos with
    | none => 0
    | some p => (logBytes (entries.take p)).length + 1
  le : ∀ p, pos = some p → p ≤ entries.length

/-- The buffer stands for the document, whatever its total size says. -/
structure Held (b : EditBuffer) (d : Doc) : Prop where
  table : b.toPages.TableOk
  text : b.bytes = d.text
  modified : b.modified = d.modified
  readOnly : b.readOnly = d.readOnly
  saveLog : b.saveLog = d.saveLog
  mark : b.mark = d.mark
  notes : b.notes = d.notes
  past : b.past = d.past
  hasLog : d.hasLog = b.logBuffer.isSome
  log : LogHeld b (b.logBuffer.getD Pages.empty) d.entries d.pos

/-- The buffer stands for the document. -/
structure Stands (b : EditBuffer) (d : Doc) : Prop extends Held b d where
  total : b.totalSize = d.text.length

/-- A buffer as the buffer layer leaves it: its pages and its log are well formed. -/
def EditBuffer.WellFormed (b : EditBuffer) : Prop := ∃ d, Stands b d

/-- The pages have the size of the text. -/
theorem Held.tableSize {b : EditBuffer} {d : Doc} (h : Held b d) : tableSize b.pageTable = d.text.length := by
  rw [← h.text, ← h.table.length_bytes]

theorem Stands.ok {b : EditBuffer} {d : Doc} (h : Stands b d) : b.toPages.Ok :=
  ⟨h.table, by rw [h.total, h.tableSize]⟩

/-- What is seen of the buffer is what is seen of the document. -/
theorem Held.snapshot {b : EditBuffer} {d : Doc} (h : Held b d) : b.snapshot = d.snapshot := by
  rw [EditBuffer.snapshot, Doc.snapshot, h.text, h.modified]

/-! ## Texts without a log -/

/-- `eb_write` at the end of a text appends. -/
theorem writeText_end {t : Pages} (ht : t.Ok) (bs : List Byte) (hbs : 0 < bs.length) {i : Nat} (hi : i = t.bytes.length) :
    (writeText t i bs).Ok ∧ (writeText t i bs).bytes = t.bytes ++ bs := by
  have hlen := ht.length_bytes
  have hz : rwSize t i bs.length = 0 := by
    rw [rwSize, if_pos (by omega)]
    omega
  have hw : writeText t i bs = ebInsertLowlevel t i bs := by
    simp only [writeText, hz, Nat.lt_irrefl, if_false, Nat.sub_zero, Nat.add_zero, List.drop_zero, if_pos hbs]
  obtain ⟨h1, h2⟩ := ebInsertLowlevel_spec ht (show i ≤ t.totalSize by omega) bs
  rw [hw, h2]
  exact ⟨h1, by rw [hi, insertAt, List.take_length, List.drop_length, List.append_nil]⟩

/-- `eb_delete` from the beginning of a text on. -/
theorem deleteText_prefix {t : Pages} (ht : t.Ok) {xs ys : List Byte} (hb : t.bytes = xs ++ ys) (hx : 0 < xs.length) :
    (deleteText t 0 xs.length).Ok ∧ (deleteText t 0 xs.length).bytes = ys := by
  have hlen := ht.length_bytes
  have hsz : xs.length + ys.length = t.totalSize := by rw [← hlen, hb, List.length_append]
  obtain ⟨t', ht'⟩ : ∃ t' : Pages, t' = { t with totalSize := t.totalSize - xs.length } := ⟨_, rfl⟩
  have htab : t'.TableOk := by rw [ht']; exact ⟨ht.pages, ht.nb, ht.cache⟩
  have hts : tableSize t'.pageTable = t.totalSize := by rw [ht']; exact ht.total.symm
  obtain ⟨h1, h2, h3⟩ := deletePages_spec htab (show 0 < tableSize t'.pageTable by omega)
    (show 0 + xs.length ≤ tableSize t'.pageTable by omega)
  have hb' : removeAt t'.bytes 0 xs.length = ys := by
    have hbb : t'.bytes = xs ++ ys := by rw [ht']; exact hb
    rw [hbb]
    simp [removeAt]
  have hd : deleteText t 0 xs.length = deletePages t' 0 xs.length := by
    rw [deleteText, if_neg (by omega), ht']
  rw [hd]
  refine ⟨⟨h1, ?_⟩, by rw [h2, hb']⟩
  rw [h3, ← h1.length_bytes, h2, hb', ht']
  simp only
  omega

/-- Reading the whole of an entry's header, or its trailer, from the middle of the log. -/
theorem ebRead_middle {t : Pages} (ht : t.Ok) {xs ys zs : List Byte} (hb : t.bytes = xs ++ (ys ++ zs)) {i n : Nat}
    (hi : i = xs.length) (hn : n = ys.length) :
    ∃ t' : Pages, ebRead t i n = (t', ys) ∧ t'.Ok ∧ t'.bytes = t.bytes := by
  have hlen := ht.length_bytes
  have hle : i ≤ t.totalSize := by rw [← hlen, hb, List.length_append, hi]; omega
  obtain ⟨t', h1, h2, h3, -, -⟩ := ebRead_spec ht n hle
  refine ⟨t', ?_, h2, by rw [Pages.bytes_eq, h3, ← Pages.bytes_eq]⟩
  rw [h1, hb, hi, slice_append, hn, List.take_left]

/-! ## Recording -/

/-- The oldest entry leaves a full log. -/
theorem evictLog_spec {b : EditBuffer} {log : Pages} {d : Doc} (h : LogHeld b log d.entries d.pos) :
    LogHeld (evictLog b log).1 (evictLog b log).2 d.evict.entries d.evict.pos ∧
      ∃ i c n, (evictLog b log).1 = { b with logNewIndex := i, logCurrent := c, nbLogs := n } := by
  have hnb := h.nb
  unfold evictLog Doc.evict
  by_cases hfull : d.Full
  · have hge : nbLogsMax - 1 ≤ b.nbLogs := by rw [hnb]; exact hfull
    rw [if_pos hge, if_pos hfull]
    obtain ⟨e, es, hes⟩ : ∃ e es, d.entries = e :: es := by
      cases hd : d.entries with
      | nil =>
        rw [Doc.Full, hd, nbLogsMax] at hfull
        simp at hfull
      | cons e es => exact ⟨e, es, rfl⟩
    have hbytes : log.bytes = [] ++ (e.header.toBytes ++ (e.data ++ intBytes e.data.length ++ logBytes es)) := by
      rw [h.bytes, hes, logBytes_cons, LogEntry.toBytes]
      simp only [List.append_assoc, List.nil_append]
    obtain ⟨log', hrd, hok', hb'⟩ := ebRead_middle h.ok hbytes (i := 0) (n := LogBuffer.sizeof) rfl rfl
    obtain ⟨hd1, hd2⟩ := deleteText_prefix hok'
      (show log'.bytes = e.toBytes ++ logBytes es by rw [hb', h.bytes, hes, logBytes_cons]) (length_toBytes_pos e)
    have hpos := length_toBytes_pos e
    have hnew := h.newIndex
    have hcur := h.current
    simp only [hrd, ofBytes_toBytes, length_toBytes_eq]
    refine ⟨⟨hd1, by rw [hd2, hes, List.tail_cons], by rw [hnb, hes]; simp, ?_, ?_, ?_⟩, _, _, _, rfl⟩
    · rw [hnew, hes, logBytes_cons, List.length_append, List.tail_cons]
      simp
    · cases hp : d.pos with
      | none =>
        rw [hp] at hcur
        simp [hcur]
      | some p =>
        rw [hp] at hcur
        simp only [Option.map_some, hes, List.tail_cons] at hcur ⊢
        cases p with
        | zero => simp [hcur]
        | succ p =>
          rw [List.take_succ_cons, logBytes_cons, List.length_append] at hcur
          rw [if_pos (by omega), Nat.add_sub_cancel]
          omega
    · intro p hp
      simp only [Option.map_eq_some_iff] at hp
      obtain ⟨q, hq, rfl⟩ := hp
      have := h.le q hq
      rw [List.length_tail]
      omega
  · have hlt : ¬nbLogsMax - 1 ≤ b.nbLogs := by rw [hnb]; exact hfull
    rw [if_neg hlt, if_neg hfull]
    exact ⟨h, _, _, _, rfl⟩

/-- An entry is written at the end of the log. The text gives the bytes and keeps them. -/
theorem appendLog_spec {b : EditBuffer} {log : Pages} {entries : List LogEntry} {pos : Option Nat}
    (h : LogHeld b log entries pos) (ht : b.toPages.TableOk) {op : LogOperation} (was : Bool) (offset size : Nat)
    (hop : op = .write ∨ op = .insert ∨ op = .delete)
    (hfit : op = .write ∨ op = .delete → offset + size ≤ tableSize b.pageTable) :
    LogHeld (appendLog b log ⟨op, was, offset, size⟩).1 (appendLog b log ⟨op, was, offset, size⟩).2
        (entries ++ [LogEntry.make op was offset size b.bytes]) pos ∧
      ∃ text i n, (appendLog b log ⟨op, was, offset, size⟩).1 =
          { b with toPages := text, logNewIndex := i, nbLogs := n } ∧
        text.TableOk ∧ text.pageTable = b.pageTable ∧ text.totalSize = b.totalSize := by
  obtain ⟨e, he⟩ : ∃ e, e = LogEntry.make op was offset size b.bytes := ⟨_, rfl⟩
  have hsl : op = .write ∨ op = .delete → (slice b.bytes offset size).length = size := by
    intro ho
    exact length_slice _ (by rw [ht.length_bytes]; exact hfit ho)
  have hheader : e.header = ⟨op, was, offset, size⟩ := by
    rcases hop with rfl | rfl | rfl
    · simp [he, LogEntry.make, LogEntry.header, hsl]
    · simp [he, LogEntry.make, LogEntry.header]
    · simp [he, LogEntry.make, LogEntry.header, hsl]
  -- header
  obtain ⟨w1, w2⟩ := writeText_end h.ok (LogBuffer.toBytes ⟨op, was, offset, size⟩) (i := b.logNewIndex)
    (by rw [length_toBytes_header]; decide) (by rw [h.newIndex, h.bytes])
  obtain ⟨log₁, hlog₁⟩ : ∃ l, l = writeText log b.logNewIndex (LogBuffer.toBytes ⟨op, was, offset, size⟩) := ⟨_, rfl⟩
  rw [← hlog₁] at w1 w2
  have hlen₁ : b.logNewIndex + LogBuffer.sizeof = log₁.bytes.length := by
    rw [w2, List.length_append, length_toBytes_header, h.newIndex, h.bytes]
  -- data
  obtain ⟨log₂, text, hdata, o1, o2, t1, t2, t3⟩ : ∃ log₂ text,
      (if op = .delete ∨ op = .write then
        ((if size = 0 then (log₁, b.toPages)
            else insertBufferPages log₁ (b.logNewIndex + LogBuffer.sizeof) b.toPages offset size).1,
          (if size = 0 then (log₁, b.toPages)
            else insertBufferPages log₁ (b.logNewIndex + LogBuffer.sizeof) b.toPages offset size).2,
          b.logNewIndex + LogBuffer.sizeof + size, size)
        else (log₁, b.toPages, b.logNewIndex + LogBuffer.sizeof, 0)) =
        (log₂, text, b.logNewIndex + LogBuffer.sizeof + e.data.length, e.data.length) ∧
      log₂.Ok ∧ log₂.bytes = log₁.bytes ++ e.data ∧
      text.TableOk ∧ text.pageTable = b.pageTable ∧ text.totalSize = b.totalSize := by
    split
    · rename_i ho
      have hdat : e.data = slice b.bytes offset size := by
        rcases ho with rfl | rfl <;> simp [he, LogEntry.make, LogEntry.data]
      have hdl : e.data.length = size := by rw [hdat, hsl (Or.comm.1 ho)]
      by_cases hz : size = 0
      · have hnil : e.data = [] := List.eq_nil_of_length_eq_zero (by omega)
        rw [if_pos hz, hdl]
        exact ⟨log₁, b.toPages, rfl, w1, by rw [hnil, List.append_nil], ht, rfl, rfl⟩
      · obtain ⟨i1, i2, i3, i4, i5⟩ := insertBufferPages_spec w1 ht
          (show b.logNewIndex + LogBuffer.sizeof ≤ log₁.totalSize by rw [hlen₁, w1.length_bytes]) (by omega)
          (hfit (Or.comm.1 ho))
        rw [if_neg hz, hdl]
        refine ⟨_, _, rfl, i1, ?_, i3, i4, i5⟩
        rw [i2, hlen₁, insertAt, List.take_length, List.drop_length, List.append_nil, hdat]
    · rename_i ho
      have hnil : e.data = [] := by
        rcases hop with rfl | rfl | rfl
        · exact absurd (Or.inr rfl) ho
        · rw [he]
          rfl
        · exact absurd (Or.inl rfl) ho
      rw [hnil]
      exact ⟨log₁, b.toPages, rfl, w1, by rw [List.append_nil], ht, rfl, rfl⟩
  -- trailer
  obtain ⟨v1, v2⟩ := writeText_end o1 (intBytes e.data.length)
    (i := b.logNewIndex + LogBuffer.sizeof + e.data.length) (by rw [length_intBytes]; decide)
    (by rw [o2, List.length_append, hlen₁])
  have hres : appendLog b log ⟨op, was, offset, size⟩ =
      ({ b with
          toPages := text, logNewIndex := b.logNewIndex + LogBuffer.sizeof + e.data.length + sizeofInt
          nbLogs := b.nbLogs + 1 },
        writeText log₂ (b.logNewIndex + LogBuffer.sizeof + e.data.length) (intBytes e.data.length)) := by
    simp only [appendLog, ← hlog₁]
    rw [hdata]
  have hbytes : e.toBytes = LogBuffer.toBytes ⟨op, was, offset, size⟩ ++ e.data ++ intBytes e.data.length := by
    rw [LogEntry.toBytes, hheader]
  rw [hres, ← he]
  refine ⟨⟨v1, ?_, ?_, ?_, ?_, ?_⟩, text, _, _, rfl, t1, t2, t3⟩
  · rw [v2, o2, w2, h.bytes, logBytes_append, logBytes_cons, logBytes_nil, List.append_nil, hbytes]
    simp only [List.append_assoc]
  · simp only [h.nb, List.length_append, List.length_singleton]
  · simp only [logBytes_append, logBytes_cons, logBytes_nil, List.append_nil, List.length_append, length_toBytes,
      h.newIndex]
    omega
  · have hcur := h.current
    cases pos with
    | none => exact hcur
    | some p =>
      simp only at hcur ⊢
      rw [hcur, List.take_append_of_le_length (h.le p rfl)]
  · intro p hp
    have := h.le p hp
    rw [List.length_append]
    omega

/-- A change that is told only. -/
theorem tellCallbacks_spec {b : EditBuffer} {d : Doc} (h : Held b d) (n : Note) : Held (tellCallbacks b n) (d.tell n) :=
  ⟨h.table, h.text, rfl, h.readOnly, h.saveLog, by rw [tellCallbacks, h.mark]; rfl, by rw [tellCallbacks, h.notes]; rfl,
    h.past, h.hasLog, ⟨h.log.ok, h.log.bytes, h.log.nb, h.log.newIndex, h.log.current, h.log.le⟩⟩

/-- `eb_addlog` tells and records. The text stays as it is, so the change that follows finds it as it was. -/
theorem ebAddlog_spec {b : EditBuffer} {d : Doc} (h : Held b d) (op : LogOperation) (offset size : Nat)
    (hop : op = .write ∨ op = .insert ∨ op = .delete)
    (hfit : op = .write ∨ op = .delete → offset + size ≤ d.text.length) :
    Held (ebAddlog b op offset size) (d.addlog op offset size) ∧ (ebAddlog b op offset size).totalSize = b.totalSize := by
  have htold := tellCallbacks_spec h ⟨op, offset, size⟩
  have hsave : (tellCallbacks b ⟨op, offset, size⟩).saveLog = d.saveLog := h.saveLog
  by_cases hs : d.saveLog = true
  · -- make room, then write the entry
    have hdoc : d.addlog op offset size =
        (d.tell ⟨op, offset, size⟩).record (.make op d.modified offset size d.text) d.snapshot := by
      simp only [Doc.addlog, if_pos hs]
    obtain ⟨b₁, hb₁⟩ : ∃ b₁, b₁ = tellCallbacks b ⟨op, offset, size⟩ := ⟨_, rfl⟩
    obtain ⟨d₁, hd₁⟩ : ∃ d₁, d₁ = d.tell ⟨op, offset, size⟩ := ⟨_, rfl⟩
    have htext : d₁.text = d.text := by rw [hd₁]; rfl
    have htot : b₁.totalSize = b.totalSize := by rw [hb₁]; rfl
    rw [hdoc, ← hd₁]
    rw [← hb₁] at htold hsave
    rw [← hd₁] at htold
    obtain ⟨b₂, log, hev⟩ : ∃ b₂ log, evictLog b₁ (b₁.logBuffer.getD Pages.empty) = (b₂, log) := ⟨_, _, rfl⟩
    obtain ⟨e1, i, c, n, e2⟩ := evictLog_spec htold.log
    rw [hev] at e1 e2
    simp only at e1 e2
    have htab : b₂.toPages.TableOk := by rw [e2]; exact htold.table
    have hbytes : b₂.bytes = d.text := by rw [e2, ← htext]; exact htold.text
    obtain ⟨b₃, log', happ⟩ : ∃ b₃ log', appendLog b₂ log ⟨op, d.modified, offset, size⟩ = (b₃, log') := ⟨_, _, rfl⟩
    obtain ⟨a1, text, i', n', a2, a3, a4, a5⟩ := appendLog_spec e1 htab d.modified offset size hop
      (by rw [← htab.length_bytes, hbytes]; exact hfit)
    rw [happ, hbytes] at a1
    rw [happ] at a2
    simp only at a1 a2
    have hres : ebAddlog b op offset size = { b₃ with logBuffer := some log', past := b₃.past ++ [d.snapshot] } := by
      simp only [ebAddlog, ← hb₁, hsave, hs, h.snapshot, hev]
      rw [show d.snapshot.modified = d.modified from rfl, happ]
      rfl
    have hevict : ∀ d : Doc, d.evict = { d with entries := d.evict.entries, pos := d.evict.pos } := by
      intro d
      unfold Doc.evict
      split <;> rfl
    have hb₃ : b₃ = { b₁ with toPages := text, logNewIndex := i', nbLogs := n', logCurrent := c } := by rw [a2, e2]
    have htable : text.pageTable = b₁.pageTable := by rw [a4, e2]
    rw [hres]
    refine ⟨⟨?_, ?_, ?_, ?_, ?_, ?_, ?_, ?_, rfl, a1.ok, a1.bytes, a1.nb, a1.newIndex, a1.current, a1.le⟩, ?_⟩
    · rw [hb₃]; exact a3
    · rw [hb₃, Doc.record, hevict d₁]
      exact (congrArg tableBytes htable).trans htold.text
    · rw [hb₃, Doc.record, hevict d₁]; exact htold.modified
    · rw [hb₃, Doc.record, hevict d₁]; exact htold.readOnly
    · rw [hb₃, Doc.record, hevict d₁]; exact htold.saveLog
    · rw [hb₃, Doc.record, hevict d₁]; exact htold.mark
    · rw [hb₃, Doc.record, hevict d₁]; exact htold.notes
    · rw [hb₃, Doc.record, ← htold.past]
    · rw [hb₃, ← htot]
      exact a5.trans (by rw [e2])
  · have hsf : d.saveLog = false := by simpa using hs
    have hres : ebAddlog b op offset size = tellCallbacks b ⟨op, offset, size⟩ := by
      simp only [ebAddlog, hsave, hsf]
      rfl
    have hdoc : d.addlog op offset size = d.tell ⟨op, offset, size⟩ := by
      simp only [Doc.addlog, hsf]
      rfl
    rw [hres, hdoc]
    exact ⟨htold, rfl⟩

/-! ## The functions that change a text -/

/-- A change of the text after it was recorded. -/
theorem Held.withText {b : EditBuffer} {d : Doc} (h : Held b d) {t : Pages} (ht : t.TableOk) {text : List Byte}
    (hb : t.bytes = text) : Held { b with toPages := t } { d with text := text } :=
  ⟨ht, hb, h.modified, h.readOnly, h.saveLog, h.mark, h.notes, h.past, h.hasLog, h.log.ok, h.log.bytes, h.log.nb,
    h.log.newIndex, h.log.current, h.log.le⟩

/-- The same, with a total size that fits. -/
theorem Held.standsText {b : EditBuffer} {d : Doc} (h : Held b d) {t : Pages} (ht : t.Ok) {text : List Byte}
    (hb : t.bytes = text) : Stands { b with toPages := t } { d with text := text } :=
  ⟨h.withText ht.toTableOk hb, by rw [← ht.length_bytes, hb]⟩

/-- `eb_addlog` in front of a change that leaves the total size to the change. -/
theorem ebAddlog_stands {b : EditBuffer} {d : Doc} (h : Stands b d) (op : LogOperation) (offset size : Nat)
    (hop : op = .write ∨ op = .insert ∨ op = .delete)
    (hfit : op = .write ∨ op = .delete → offset + size ≤ d.text.length) :
    Stands (ebAddlog b op offset size) (d.addlog op offset size) := by
  obtain ⟨h1, h2⟩ := ebAddlog_spec h.toHeld op offset size hop hfit
  exact ⟨h1, by rw [h2, h.total, Doc.addlog_text]⟩

/-- `eb_insert` inserts. -/
theorem ebInsert_stands {b : EditBuffer} {d : Doc} (h : Stands b d) {offset : Nat} (ho : offset ≤ d.text.length)
    (buf : List Byte) : Stands (ebInsert b offset buf) (d.insert offset buf) := by
  have h1 := ebAddlog_stands h .insert offset buf.length (by simp) (by simp)
  obtain ⟨i1, i2⟩ := ebInsertLowlevel_spec h1.ok
    (show offset ≤ (ebAddlog b .insert offset buf.length).totalSize by rw [h1.total, Doc.addlog_text]; exact ho) buf
  exact h1.toHeld.standsText i1 (by rw [i2, h1.text, Doc.addlog_text])

/-- `eb_delete` removes. -/
theorem ebDelete_stands {b : EditBuffer} {d : Doc} (h : Stands b d) (offset size : Nat)
    (hs : offset < d.text.length → offset + size ≤ d.text.length) :
    Stands (ebDelete b offset size) (d.delete offset size) := by
  unfold ebDelete Doc.delete
  by_cases ho : d.text.length ≤ offset
  · rw [if_pos (by rw [h.total]; exact ho), if_pos ho]
    exact h
  · have hfit := hs (by omega)
    rw [if_neg (by rw [h.total]; exact ho), if_neg ho]
    have hdec : Held { b with totalSize := b.totalSize - size } d :=
      ⟨⟨h.table.pages, h.table.nb, h.table.cache⟩, h.text, h.modified, h.readOnly, h.saveLog, h.mark, h.notes, h.past,
        h.hasLog, h.log.ok, h.log.bytes, h.log.nb, h.log.newIndex, h.log.current, h.log.le⟩
    obtain ⟨h1, h2⟩ := ebAddlog_spec hdec .delete offset size (by simp) (fun _ => hfit)
    have hts := h1.tableSize
    rw [Doc.addlog_text] at hts
    obtain ⟨d1, d2, d3⟩ := deletePages_spec h1.table (lt_of_lt_of_eq (Nat.lt_of_not_le ho) hts.symm) (le_of_le_of_eq hfit hts.symm)
    have hb : (deletePages (ebAddlog { b with totalSize := b.totalSize - size } .delete offset size).toPages offset
        size).bytes = removeAt d.text offset size := by
      rw [d2, h1.text, Doc.addlog_text]
    refine ⟨h1.withText d1 hb, ?_⟩
    simp only
    rw [d3, h2, length_removeAt _ hfit, ← h.total]

/-- `eb_insert_buffer` inserts the slice of the source, whose text it does not change. -/
theorem ebInsertBuffer_stands {b : EditBuffer} {d : Doc} (h : Stands b d) {src : Pages} (hsrc : src.Ok)
    (destOffset srcOffset size : Nat) (ho : destOffset ≤ d.text.length) (hs : srcOffset + size ≤ src.totalSize) :
    Stands (ebInsertBuffer b destOffset src srcOffset size).1 (d.insertBlock destOffset (slice src.bytes srcOffset size)) ∧
      (ebInsertBuffer b destOffset src srcOffset size).2.Ok ∧
      (ebInsertBuffer b destOffset src srcOffset size).2.bytes = src.bytes := by
  have hlen : (slice src.bytes srcOffset size).length = size := length_slice _ (by rw [hsrc.length_bytes]; exact hs)
  unfold ebInsertBuffer Doc.insertBlock
  by_cases hz : size = 0
  · have hnil : slice src.bytes srcOffset size = [] := List.eq_nil_of_length_eq_zero (by omega)
    rw [if_pos hz, if_pos hnil]
    exact ⟨h, hsrc, rfl⟩
  · have hne : ¬slice src.bytes srcOffset size = [] := by
      intro hnil
      rw [hnil] at hlen
      exact hz hlen.symm
    rw [if_neg hz, if_neg hne]
    have h1 := ebAddlog_stands h .insert destOffset size (by simp) (by simp)
    obtain ⟨i1, i2, i3, i4, i5⟩ := insertBufferPages_spec h1.ok hsrc.toTableOk
      (show destOffset ≤ (ebAddlog b .insert destOffset size).totalSize by rw [h1.total, Doc.addlog_text]; exact ho)
      (by omega) (show srcOffset + size ≤ tableSize src.pageTable by rw [← hsrc.total]; exact hs)
    refine ⟨?_, ⟨i3, by rw [i5, i4, hsrc.total]⟩, by rw [Pages.bytes_eq, i4, ← Pages.bytes_eq]⟩
    have hins : d.insert destOffset (slice src.bytes srcOffset size) =
        { d.addlog .insert destOffset size with text := insertAt d.text destOffset (slice src.bytes srcOffset size) } := by
      rw [Doc.insert, hlen]
    rw [hins]
    exact h1.toHeld.standsText i1 (by rw [i2, h1.text, Doc.addlog_text])

/-- The writing `eb_rw` overwrites what lies in the text. -/
theorem ebRw_stands {b : EditBuffer} {d : Doc} (h : Stands b d) {offset : Nat} (buf : List Byte)
    (ho : offset ≤ d.text.length) :
    Stands (ebRw b offset buf).1 (d.overwrite offset (buf.take (min buf.length (d.text.length - offset)))) ∧
      (ebRw b offset buf).2 = min buf.length (d.text.length - offset) := by
  have hsz : rwSize b.toPages offset buf.length = min buf.length (d.text.length - offset) := by
    rw [rwSize, h.total]
    split <;> omega
  obtain ⟨len, hlen⟩ : ∃ len, len = min buf.length (d.text.length - offset) := ⟨_, rfl⟩
  have htk : (buf.take len).length = len := by rw [List.length_take]; omega
  unfold ebRw Doc.overwrite
  rw [hsz, ← hlen]
  by_cases hz : len = 0
  · simp only [hz, if_true, List.take_zero]
    exact ⟨h, trivial⟩
  · have hne : ¬buf.take len = [] := by
      intro hnil
      rw [hnil] at htk
      exact hz htk.symm
    simp only [if_neg hz, if_neg hne, htk, and_true]
    have h1 := ebAddlog_stands h .write offset len (by simp) (fun _ => by omega)
    obtain ⟨w1, w2, -⟩ := writePages_spec h1.ok (show 0 < (buf.take len).length by omega)
      (show offset + (buf.take len).length ≤ (ebAddlog b .write offset len).totalSize by
        rw [h1.total, Doc.addlog_text]; omega)
    exact h1.toHeld.standsText w1 (by rw [w2, h1.text, Doc.addlog_text])

/-- `eb_write` overwrites and appends the overhang. -/
theorem ebWrite_stands {b : EditBuffer} {d : Doc} (h : Stands b d) {offset : Nat} (buf : List Byte)
    (ho : offset ≤ d.text.length) : Stands (ebWrite b offset buf) (d.write offset buf) := by
  obtain ⟨h1, h2⟩ := ebRw_stands h buf ho
  obtain ⟨len, hlen⟩ : ∃ len, len = min buf.length (d.text.length - offset) := ⟨_, rfl⟩
  rw [← hlen] at h1 h2
  have htk : (buf.take len).length = len := by rw [List.length_take]; omega
  have hdl : (buf.drop len).length = buf.length - len := by rw [List.length_drop]
  have hsize : (d.overwrite offset (buf.take len)).text.length = d.text.length := by
    unfold Doc.overwrite
    split
    · rfl
    · exact length_overwriteAt _ (by omega)
  simp only [ebWrite, Doc.write, ← hlen, h2]
  unfold Doc.insertBlock
  by_cases hz : 0 < buf.length - len
  · have hne : ¬buf.drop len = [] := by
      intro hnil
      rw [hnil] at hdl
      simp at hdl
      omega
    rw [if_pos hz, if_neg hne]
    exact ebInsert_stands h1 (by rw [hsize]; omega) _
  · have hnil : buf.drop len = [] := List.eq_nil_of_length_eq_zero (by omega)
    rw [if_neg hz, if_pos hnil]
    exact h1

/-- `log_reset` flushes the log. -/
theorem logReset_stands {b : EditBuffer} {d : Doc} (h : Stands b d) : Stands (logReset b) d.logReset := by
  unfold logReset Doc.logReset
  rw [h.hasLog]
  cases hb : b.logBuffer with
  | none =>
    have hlog := h.log
    rw [hb] at hlog
    exact ⟨⟨h.table, h.text, rfl, h.readOnly, h.saveLog, h.mark, h.notes, h.past, rfl, hlog.ok,
      hlog.bytes, hlog.nb, hlog.newIndex, hlog.current, hlog.le⟩, h.total⟩
  | some log =>
    exact ⟨⟨h.table, h.text, rfl, h.readOnly, h.saveLog, h.mark, h.notes, rfl, rfl, Pages.ok_empty, rfl, rfl, rfl, rfl,
      by simp⟩, h.total⟩

/-! ## New and mapped buffers -/

/-- The document a new buffer stands for. -/
def Doc.new (saveLog : Bool) : Doc :=
  { text := [], modified := false, readOnly := false, saveLog := saveLog, hasLog := false, entries := [], pos := none
    mark := 0, notes := [], past := [] }

/-- A new buffer stands for an empty document. -/
theorem new_stands (saveLog : Bool) : Stands (EditBuffer.new saveLog) (Doc.new saveLog) :=
  ⟨⟨Pages.ok_empty.toTableOk, rfl, rfl, rfl, rfl, rfl, rfl, rfl, rfl, Pages.ok_empty, rfl, rfl, rfl, rfl, by simp [Doc.new]⟩,
    rfl⟩

/-- The pages of a mapped file are well formed and hold the file. -/
theorem mapPages_spec (ino : Nat) {n : Nat} (ptr : Nat) (file : List Byte) (h : n = pagesFor file.length) :
    (∀ p ∈ mapPages ino n ptr file, p.Ok) ∧ tableBytes (mapPages ino n ptr file) = file ∧
      (mapPages ino n ptr file).length = n := by
  induction n generalizing ptr file with
  | zero =>
    have hb : file = [] := by
      by_contra hne
      have := pagesFor_succ (List.length_pos_of_ne_nil hne)
      omega
    simp [hb, mapPages]
  | succ n ih =>
    have hpos : 0 < file.length := by
      by_contra hz
      rw [Nat.eq_zero_of_not_pos hz, pagesFor_zero] at h
      omega
    obtain ⟨i1, i2, i3⟩ := ih (ptr + maxPageSize) (file.drop maxPageSize) (by
      rw [List.length_drop]
      have := pagesFor_succ hpos
      omega)
    refine ⟨?_, ?_, by simp [mapPages, i3]⟩
    · intro p hp
      rcases List.mem_cons.1 hp with rfl | hp
      · have hm := maxPageSize_pos
        exact ⟨by simp only [newPage, List.length_take]; omega, by simp only [newPage, List.length_take]; omega, rfl⟩
      · exact i1 p hp
    · rw [mapPages, tableBytes_cons, i2]
      exact List.take_append_drop maxPageSize file

/-- `mmap_buffer` gives a buffer without pages the text of the file. -/
theorem mmapBuffer_stands {b : EditBuffer} {d : Doc} (h : Stands b d) (hb : d.text = []) (hcur : b.curPage = none)
    (ino : Nat) (file : List Byte) : Stands (mmapBuffer b ino file) { d with text := file } := by
  unfold mmapBuffer
  by_cases hz : file.length = 0
  · obtain rfl := List.eq_nil_of_length_eq_zero hz
    rw [if_pos hz, ← hb]
    exact h
  · obtain ⟨m1, m2, m3⟩ := mapPages_spec ino 0 file rfl
    rw [if_neg hz]
    refine h.toHeld.standsText (t := { b.toPages with
      pageTable := mapPages ino (pagesFor file.length) 0 file, totalSize := file.length, nbPages := pagesFor file.length })
      ⟨⟨m1, m3.symm, ?_⟩, ?_⟩ m2
    · intro i hi
      rw [hcur] at hi
      cases hi
    · rw [← length_tableBytes m1, m2]

/-! ## Undo -/

/-- Switching the log off or on. -/
theorem Stands.withSaveLog {b : EditBuffer} {d : Doc} (h : Stands b d) (on : Bool) :
    Stands { b with saveLog := on } { d with saveLog := on } :=
  ⟨⟨h.table, h.text, h.modified, h.readOnly, rfl, h.mark, h.notes, h.past, h.hasLog, h.log.ok, h.log.bytes, h.log.nb,
    h.log.newIndex, h.log.current, h.log.le⟩, h.total⟩

/-- Reading the log moves the page cache of the log buffer. -/
theorem Stands.withLog {b : EditBuffer} {d : Doc} (h : Stands b d) {log log' : Pages} (hlog : b.logBuffer = some log)
    (hok : log'.Ok) (hb : log'.bytes = log.bytes) : Stands { b with logBuffer := some log' } d := by
  have h1 := h.log
  rw [hlog, Option.getD_some] at h1
  exact ⟨⟨h.table, h.text, h.modified, h.readOnly, h.saveLog, h.mark, h.notes, h.past, by rw [h.hasLog, hlog]; rfl, hok,
    by rw [Option.getD_some, hb, h1.bytes], h1.nb, h1.newIndex, h1.current, h1.le⟩, h.total⟩

/-- Without a log only the callbacks are called. -/
theorem ebAddlog_quiet {b : EditBuffer} (hs : b.saveLog = false) (op : LogOperation) (offset size : Nat) :
    ebAddlog b op offset size = tellCallbacks b ⟨op, offset, size⟩ := by
  simp [ebAddlog, tellCallbacks, hs]

/-- A buffer whose log is switched off keeps its log buffer when a block is removed, and stays switched off. -/
theorem ebDelete_quiet {b : EditBuffer} (hs : b.saveLog = false) (offset size : Nat) :
    (ebDelete b offset size).logBuffer = b.logBuffer ∧ (ebDelete b offset size).saveLog = false := by
  unfold ebDelete
  split
  · exact ⟨rfl, hs⟩
  · simp only [ebAddlog_quiet (b := { b with totalSize := b.totalSize - size }) hs]
    exact ⟨rfl, hs⟩

/-- The same for a block inserted. -/
theorem ebInsertBuffer_quiet {b : EditBuffer} (hs : b.saveLog = false) (destOffset : Nat) (src : Pages)
    (srcOffset size : Nat) : (ebInsertBuffer b destOffset src srcOffset size).1.logBuffer = b.logBuffer := by
  unfold ebInsertBuffer
  split
  · rfl
  · simp only [ebAddlog_quiet hs]
    rfl

/-- Playing an entry whose data lies in the log at the index. -/
theorem playEntry_stands {b : EditBuffer} {d : Doc} (h : Stands b d) {log : Pages} (hlog : b.logBuffer = some log)
    {e : LogEntry} (hfit : e.Fits d.text.length) {xs ys : List Byte} (hb : log.bytes = xs ++ e.data ++ ys) {i : Nat}
    (hi : i = xs.length) :
    Stands (playEntry b e.header i).1 (d.play e) ∧ (playEntry b e.header i).2 = Doc.offsetAfter e := by
  have hlogok : log.Ok := by
    have := h.log.ok
    rwa [hlog, Option.getD_some] at this
  have hget : b.logBuffer.getD Pages.empty = log := by rw [hlog, Option.getD_some]
  have hsl : slice log.bytes i e.data.length = e.data := by
    rw [hb, hi, List.append_assoc, slice_append, List.take_left]
  have hin : i + e.data.length ≤ log.totalSize := by
    rw [← hlogok.length_bytes, hb, hi]
    simp only [List.length_append]
    omega
  -- the block put back into a text whose log is off, and the log on again
  have hblock {b' : EditBuffer} {d' : Doc} (h' : Stands b' d') (hlog' : b'.logBuffer = some log)
      (hoff : b'.saveLog = false) (offset : Nat) (ho : offset ≤ d'.text.length) (on : Bool) :
      Stands { (ebInsertBuffer b' offset log i e.data.length).1 with
          saveLog := on, logBuffer := some (ebInsertBuffer b' offset log i e.data.length).2 }
        { d'.insertBlock offset e.data with saveLog := on } := by
    obtain ⟨i1, i2, i3⟩ := ebInsertBuffer_stands h' hlogok offset i e.data.length ho hin
    rw [hsl] at i1
    exact (i1.withLog (by rw [ebInsertBuffer_quiet hoff, hlog']) i2 i3).withSaveLog on
  cases e with
  | insert was offset size => exact ⟨ebDelete_stands h offset size hfit, rfl⟩
  | delete was offset data =>
    have h1 := hblock (h.withSaveLog false) hlog rfl offset hfit b.saveLog
    rw [h.saveLog] at h1
    refine ⟨?_, rfl⟩
    simp only [playEntry, LogEntry.header, Doc.play, hget, h.saveLog]
    exact ebAddlog_stands h1 .insert offset data.length (by simp) (by simp)
  | write was offset data =>
    have hf : offset + data.length ≤ d.text.length := hfit
    have h0 := ebDelete_stands (h.withSaveLog false) offset data.length (fun _ => hf)
    obtain ⟨q1, q2⟩ := ebDelete_quiet (b := { b with saveLog := false }) rfl offset data.length
    have hlen : (Doc.delete { d with saveLog := false } offset data.length).text.length = d.text.length - data.length := by
      unfold Doc.delete
      split
      · simp only at *
        omega
      · exact length_removeAt _ hf
    have h1 := hblock h0 (q1.trans hlog) q2 offset (by rw [hlen]; omega) b.saveLog
    rw [h.saveLog] at h1
    refine ⟨?_, rfl⟩
    simp only [playEntry, LogEntry.header, Doc.play, hget, h.saveLog]
    refine ebAddlog_stands h1 .write offset data.length (by simp) (fun _ => ?_)
    -- the text has its length back
    unfold Doc.insertBlock
    split
    · rename_i hnil
      have hz : data.length = 0 := congrArg List.length hnil
      simp only [hlen]
      omega
    · rw [Doc.insert]
      simp only [length_insertAt, hlen, LogEntry.data]
      omega

/-- `do_undo` finds the entry in front of it by its trailer: it is the newest that is left. -/
theorem entryBefore_spec {b : EditBuffer} {d : Doc} (h : Stands b d) {log : Pages} (hlog : b.logBuffer = some log) :
    match d.next with
    | none => undoIndex b = 0
    | some e =>
      undoIndex b ≠ 0 ∧ ∃ log' xs ys, entryBefore log (undoIndex b) = (log', xs.length, some e.header) ∧
        log'.Ok ∧ log'.bytes = log.bytes ∧ log.bytes = xs ++ e.header.toBytes ++ e.data ++ ys ∧
        xs = logBytes (d.entries.take (d.left - 1)) ∧ d.left ≤ d.entries.length := by
  have hheld := h.log
  rw [hlog, Option.getD_some] at hheld
  have hle : d.left ≤ d.entries.length := by
    rw [Doc.left]
    cases hp : d.pos with
    | none => exact Nat.le_refl _
    | some p => exact hheld.le p hp
  -- the index in front of which the entry to play ends
  have hindex : undoIndex b = (logBytes (d.entries.take d.left)).length := by
    have hcur := hheld.current
    rw [Doc.left, undoIndex]
    cases hp : d.pos with
    | none =>
      rw [hp] at hcur
      rw [if_pos hcur, hheld.newIndex, Option.getD_none, List.take_length]
    | some p =>
      rw [hp] at hcur
      simp only at hcur
      rw [if_neg (by omega), hcur, Nat.add_sub_cancel, Option.getD_some]
  rw [hindex]
  cases hp : d.left with
  | zero =>
    have hnone : d.next = none := by rw [Doc.next, hp]
    rw [hnone]
    rfl
  | succ p =>
    obtain ⟨e, he⟩ : ∃ e, d.entries[p]? = some e := ⟨d.entries[p], List.getElem?_eq_getElem (by omega)⟩
    have hsome : d.next = some e := by rw [Doc.next, hp]; exact he
    have htake : d.entries.take (p + 1) = d.entries.take p ++ [e] := by
      rw [List.take_add_one, he]
      rfl
    have hcut : log.bytes = logBytes (d.entries.take p) ++ (e.toBytes ++ logBytes (d.entries.drop (p + 1))) := by
      have hl : d.entries = d.entries.take p ++ [e] ++ d.entries.drop (p + 1) := by
        rw [← htake, List.take_append_drop]
      rw [hheld.bytes]
      conv_lhs => rw [hl]
      simp
    have hlen : (logBytes (d.entries.take (p + 1))).length = (logBytes (d.entries.take p)).length + e.toBytes.length := by
      rw [htake]
      simp
    have helen := length_toBytes e
    -- the trailer, then the header
    obtain ⟨log₁, r1, r2, r3⟩ := ebRead_middle hheld.ok
      (show log.bytes = logBytes (d.entries.take p) ++ e.header.toBytes ++ e.data ++
          (intBytes e.data.length ++ logBytes (d.entries.drop (p + 1))) by
        rw [hcut, LogEntry.toBytes]; simp only [List.append_assoc])
      (i := (logBytes (d.entries.take (p + 1))).length - sizeofInt) (n := sizeofInt)
      (by simp only [List.length_append, length_toBytes_header]; omega) rfl
    obtain ⟨log₂, s1, s2, s3⟩ := ebRead_middle r2
      (show log₁.bytes = logBytes (d.entries.take p) ++ (e.header.toBytes ++
          (e.data ++ intBytes e.data.length ++ logBytes (d.entries.drop (p + 1)))) by
        rw [r3, hcut, LogEntry.toBytes]; simp only [List.append_assoc])
      (i := (logBytes (d.entries.take p)).length) (n := LogBuffer.sizeof) rfl rfl
    have hback : (logBytes (d.entries.take (p + 1))).length - sizeofInt - (e.data.length + LogBuffer.sizeof) =
        (logBytes (d.entries.take p)).length := by omega
    have hne : (logBytes (d.entries.take (p + 1))).length ≠ 0 := by
      have := length_toBytes_pos e
      omega
    simp only [hsome, Nat.add_sub_cancel]
    refine ⟨hne, log₂, logBytes (d.entries.take p), intBytes e.data.length ++ logBytes (d.entries.drop (p + 1)), ?_, s2,
      s3.trans r3, ?_, rfl, by omega⟩
    · simp only [entryBefore, r1, intOfBytes_intBytes, hback, s1, ofBytes_toBytes]
    · rw [hcut, LogEntry.toBytes]
      simp only [List.append_assoc]

/-- `do_undo` plays the newest entry that is left. -/
theorem undoStep_stands {b : EditBuffer} {d : Doc} (h : Stands b d) {log : Pages} (hlog : b.logBuffer = some log)
    (hfit : ∀ e, d.next = some e → e.Fits d.text.length) :
    Stands (undoStep b log).1 d.undoStep.1 ∧ (undoStep b log).2 = d.undoStep.2 := by
  have hfind := entryBefore_spec h hlog
  unfold undoStep Doc.undoStep
  cases hnext : d.next with
  | none =>
    rw [hnext] at hfind
    rw [if_pos hfind]
    exact ⟨h, rfl⟩
  | some e =>
    rw [hnext] at hfind
    obtain ⟨hne, log', xs, ys, hentry, hok, hsame, hcut, hxs, hle⟩ := hfind
    have hlp : d.left - 1 ≤ d.entries.length := by omega
    -- the buffer that plays the entry
    have hmoved : Stands { b with logCurrent := xs.length + 1, logBuffer := some log' } { d with pos := some (d.left - 1) } := by
      have hl := (h.withLog hlog hok hsame).log
      exact ⟨⟨h.table, h.text, h.modified, h.readOnly, h.saveLog, h.mark, h.notes, h.past,
        by rw [h.hasLog, hlog]; rfl, hl.ok, hl.bytes, hl.nb, hl.newIndex, by rw [hxs],
        by intro q hq; cases hq; exact hlp⟩, h.total⟩
    obtain ⟨p1, p2⟩ := playEntry_stands hmoved (show some log' = some log' from rfl) (hfit e hnext)
      (show log'.bytes = (xs ++ e.header.toBytes) ++ e.data ++ ys by rw [hsame, hcut]) (i := xs.length + LogBuffer.sizeof)
      (by simp)
    simp only [if_neg hne, hentry, if_neg (header_op_ne_free e), p2, and_true]
    exact ⟨⟨p1.table, p1.text, rfl, p1.readOnly, p1.saveLog, p1.mark, p1.notes, p1.past, p1.hasLog, p1.log.ok,
      p1.log.bytes, p1.log.nb, p1.log.newIndex, p1.log.current, p1.log.le⟩, p1.total⟩

/-- Forgetting the chain. -/
theorem startUndo_stands {b : EditBuffer} {d : Doc} (h : Stands b d) (chained : Bool) :
    Stands (startUndo chained b) (d.start chained) := by
  cases chained with
  | true => exact h
  | false =>
    exact ⟨⟨h.table, h.text, h.modified, h.readOnly, h.saveLog, h.mark, h.notes, h.past, h.hasLog, h.log.ok,
      h.log.bytes, h.log.nb, h.log.newIndex, rfl, by intro p hp; cases hp⟩, h.total⟩

@[simp] theorem startUndo_logBuffer (chained : Bool) (b : EditBuffer) : (startUndo chained b).logBuffer = b.logBuffer := by
  unfold startUndo
  split <;> rfl

@[simp] theorem Doc.start_text (d : Doc) (chained : Bool) : (d.start chained).text = d.text := by
  unfold start
  split <;> rfl

/-- `do_undo` undoes, in a chain or at the beginning of one. -/
theorem doUndo_stands {b : EditBuffer} {d : Doc} (h : Stands b d) {chained : Bool}
    (hfit : ∀ e, (d.start chained).next = some e → e.Fits d.text.length) :
    Stands (doUndo chained b).1 (d.undo chained).1 ∧ (doUndo chained b).2 = (d.undo chained).2 := by
  have hlogged := h.hasLog
  unfold doUndo Doc.undo
  cases hlog : b.logBuffer with
  | none =>
    rw [hlog] at hlogged
    simp only [hlogged, Option.isSome_none, Bool.false_eq_true, if_false, and_true]
    exact h
  | some log =>
    rw [hlog] at hlogged
    simp only [hlogged, Option.isSome_some, if_true]
    exact undoStep_stands (startUndo_stands h chained) (by rw [startUndo_logBuffer, hlog]) (by simpa using hfit)

/-- Without a log buffer there are no entries. -/
theorem Held.entries_nil {b : EditBuffer} {d : Doc} (h : Held b d) (hlog : b.logBuffer = none) : d.entries = [] := by
  have hb := h.log.bytes
  rw [hlog, Option.getD_none] at hb
  cases hes : d.entries with
  | nil => rfl
  | cons e es =>
    have hlen := congrArg List.length hb
    have hpos := length_toBytes_pos e
    rw [hes, logBytes_cons, List.length_append] at hlen
    have hz : Pages.empty.bytes.length = 0 := rfl
    omega

/-- Without an entry there is nothing to undo. -/
theorem Doc.next_nil {d : Doc} (h : d.entries = []) : d.next = none := by
  rw [next]
  split
  · rfl
  · simp [h]

/-- The entry `do_undo` plays is the one the document has. -/
theorem pendingEntry_eq {b : EditBuffer} {d : Doc} (h : Stands b d) (chained : Bool) :
    pendingEntry chained b = (d.start chained).next.map (·.header) := by
  cases hlog : b.logBuffer with
  | none =>
    have hnil : (d.start chained).entries = [] := by
      rw [← h.entries_nil hlog]
      unfold Doc.start
      split <;> rfl
    simp only [pendingEntry, hlog, Doc.next_nil hnil, Option.map_none]
  | some log =>
  have hfind := entryBefore_spec (startUndo_stands h chained) (by rw [startUndo_logBuffer, hlog])
  simp only [pendingEntry, hlog]
  cases hnext : (d.start chained).next with
  | none =>
    rw [hnext] at hfind
    rw [if_pos hfind]
    rfl
  | some e =>
    rw [hnext] at hfind
    obtain ⟨hne, log', xs, ys, hentry, -⟩ := hfind
    rw [if_neg hne, hentry]
    rfl

end Hoe
