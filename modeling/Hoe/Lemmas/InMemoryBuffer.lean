import Hoe.Lemmas.InMemoryBlocks
import Hoe.Lemmas.Refine

/-!
# The functions that change a text, in memory

The log is a second page table of the buffer, so what a function edits are the pages of the buffer: those of its text and those of its
log. `Shows` says which buffer of `Hoe.EditBuffer` a buffer in memory stands for. Where no allocation is refused, each function
returns, edits the pages of its buffer and no others, and shows what `Hoe.EditBuffer` has for it.
-/

namespace Hoe.InMemory

open Memory Splice

variable {h : Heap Byte}

/-! ## Texts without a log -/

theorem deleteText_spec {t : Pages} (ht : Table h t.pageTable) (hok : (t.view h).Ok) (hw : h.Willing) (offset size : Nat)
    (hs : offset < t.totalSize → offset + size ≤ t.totalSize) :
    Returns (deleteText t offset size) h fun t' h' =>
      Edit t.pageTable t'.pageTable h h' ∧ t'.view h' = Hoe.deleteText (t.view h) offset size := by
  have htotal : t.totalSize = tableSize (t.view h).pageTable := hok.total
  have hview : (t.view h).totalSize = t.totalSize := rfl
  unfold deleteText Hoe.deleteText
  rw [hview]
  by_cases hin : t.totalSize ≤ offset
  · rw [if_pos hin, if_pos hin]
    exact Returns.pure ⟨Edit.refl ht, rfl⟩
  · rw [if_neg hin, if_neg hin]
    have hfit := hs (by omega)
    obtain ⟨t', ht'⟩ : ∃ t' : Pages, t' = { t with totalSize := t.totalSize - size } := ⟨_, rfl⟩
    have hview' : t'.view h = { t.view h with totalSize := t.totalSize - size } := by
      rw [ht']
      rfl
    have hok' : (t'.view h).TableOk := by
      rw [hview']
      exact ⟨hok.pages, hok.nb, hok.cache⟩
    have hsame : t'.pageTable = t.pageTable := by rw [ht']
    have hsum : tableSize (t'.view h).pageTable = t.totalSize := by rw [hview', htotal]
    rw [← ht', ← hview', ← hsame]
    exact deletePages_spec (by rwa [hsame]) hok' hw (by omega) (by omega)

theorem writeText_spec {t : Pages} (ht : Table h t.pageTable) (hok : (t.view h).Ok) (hw : h.Willing) (offset : Nat)
    (buf : List Byte) (ho : offset ≤ t.totalSize) :
    Returns (writeText t offset buf) h fun t' h' =>
      Edit t.pageTable t'.pageTable h h' ∧ t'.view h' = Hoe.writeText (t.view h) offset buf := by
  have hview : Hoe.rwSize (t.view h) offset buf.length = rwSize t offset buf.length := rfl
  obtain ⟨len, hlen⟩ : ∃ len, len = rwSize t offset buf.length := ⟨_, rfl⟩
  have hle : len ≤ buf.length ∧ offset + len ≤ t.totalSize := by
    rw [hlen, rwSize]
    split <;> omega
  have htake : (buf.take len).length = len := by rw [List.length_take]; omega
  unfold writeText Hoe.writeText
  rw [hview]
  simp only [← hlen]
  have hfirst : Returns (if 0 < len then writePages t offset (buf.take len) else pure t) h fun t₁ h₁ =>
      Edit t.pageTable t₁.pageTable h h₁ ∧ (t₁.view h₁).Ok ∧ t₁.totalSize = t.totalSize ∧
        t₁.view h₁ = if 0 < len then Hoe.writePages (t.view h) offset (buf.take len) else t.view h := by
    by_cases hpos : 0 < len
    · rw [if_pos hpos, if_pos hpos]
      refine (writePages_spec ht hok hw offset (by omega) (by omega)).mono ?_
      rintro t₁ h₁ ⟨he, hval⟩
      obtain ⟨hok₁, -, htot⟩ := Hoe.writePages_spec hok (show 0 < (buf.take len).length by omega)
        (show offset + (buf.take len).length ≤ t.totalSize by omega)
      rw [← hval] at hok₁ htot
      exact ⟨he, hok₁, htot, hval⟩
    · rw [if_neg hpos, if_neg hpos]
      exact Returns.pure ⟨Edit.refl ht, hok, rfl, rfl⟩
  refine hfirst.bind ?_
  rintro t₁ h₁ ⟨he, hok₁, htot, hval⟩
  rw [← hval]
  by_cases hleft : 0 < buf.length - len
  · rw [if_pos hleft, if_pos hleft, ← List.length_drop]
    have hsum : t₁.totalSize = tableSize (t₁.view h₁).pageTable := hok₁.total
    have hbuf : (Source.array (buf.drop len)).Holds h₁ (buf.drop len) := List.prefix_refl _
    refine (ebInsertLowlevel_spec he.table hok₁.toTableOk (he.frame.willing hw) (offset + len) (by omega) hbuf trivial).mono ?_
    rintro t₂ h₂ ⟨he₂, hval₂⟩
    exact ⟨he.trans he₂, hval₂⟩
  · rw [if_neg hleft, if_neg hleft]
    exact Returns.pure ⟨he, rfl⟩

/-! ## Buffers -/

/-- The pages of a buffer: those of its text and those of its log. -/
def EditBuffer.pages (b : EditBuffer) : List Page := b.pageTable ++ (b.logBuffer.getD Pages.empty).pageTable

/-- The fields beside the pages agree. -/
structure EditBuffer.Agrees (b : EditBuffer) (B : Hoe.EditBuffer) : Prop where
  modified : b.modified = B.modified
  saveLog : b.saveLog = B.saveLog
  newIndex : b.logNewIndex = B.logNewIndex
  current : b.logCurrent = B.logCurrent
  nb : b.nbLogs = B.nbLogs

/-- The buffer stands for the buffer of the layer above. -/
structure EditBuffer.Shows (h : Heap Byte) (b : EditBuffer) (B : Hoe.EditBuffer) : Prop extends b.Agrees B where
  text : b.toPages.view h = B.toPages
  log : b.logBuffer.map (·.view h) = B.logBuffer

theorem EditBuffer.Shows.getD_log {b : EditBuffer} {B : Hoe.EditBuffer} (hb : b.Shows h B) :
    B.logBuffer.getD Hoe.Pages.empty = (b.logBuffer.getD Pages.empty).view h := by
  rw [← hb.log]
  cases b.logBuffer <;> rfl

/-! ## The log -/

/-- The oldest entry leaves a full log. -/
theorem evictLog_spec {b : EditBuffer} {B : Hoe.EditBuffer} (hb : b.Agrees B) {log : Pages} (ht : Table h log.pageTable)
    {entries : List LogEntry} {pos : Option Nat} (hlog : LogHeld B (log.view h) entries pos) (hw : h.Willing) :
    Returns (evictLog b log) h fun r h' =>
      Edit log.pageTable r.2.pageTable h h' ∧ r.1.Agrees (Hoe.evictLog B (log.view h)).1 ∧ r.1.toPages = b.toPages ∧
        r.2.view h' = (Hoe.evictLog B (log.view h)).2 := by
  unfold evictLog
  rw [hb.nb]
  by_cases hfull : nbLogsMax - 1 ≤ B.nbLogs
  · rw [if_pos hfull]
    obtain ⟨e, es, rfl⟩ : ∃ e es, entries = e :: es := by
      cases hd : entries with
      | nil =>
        rw [hlog.nb, hd] at hfull
        exact absurd hfull (by decide)
      | cons e es => exact ⟨e, es, rfl⟩
    have hbytes : (log.view h).bytes = [] ++ (e.header.toBytes ++ (e.data ++ intBytes e.data.length ++ logBytes es)) := by
      rw [hlog.bytes, logBytes_cons, LogEntry.toBytes]
      simp only [List.append_assoc, List.nil_append]
    obtain ⟨LOG', hrd, hok', hb'⟩ := ebRead_middle hlog.ok hbytes (i := 0) (n := LogBuffer.sizeof) rfl rfl
    refine (ebRead_spec ht.placed hlog.ok LogBuffer.sizeof (Nat.zero_le _)).bind ?_
    rintro ⟨log', bs⟩ h₁ ⟨hsame, hval, hh⟩
    obtain rfl : h = h₁ := hh.symm
    simp only at hsame hval ⊢
    obtain ⟨hlog', rfl⟩ := Prod.mk.inj (hrd.symm.trans hval)
    have hfit : e.toBytes.length ≤ log'.totalSize := by
      have htot : (log'.view h).totalSize = log'.totalSize := rfl
      rw [← htot, ← hlog', ← hok'.length_bytes, hb', hlog.bytes, logBytes_cons, List.length_append]
      exact Nat.le_add_right _ _
    simp only [ofBytes_toBytes, length_toBytes_eq]
    refine (deleteText_spec (by rwa [hsame]) (by rwa [← hlog']) hw 0 e.toBytes.length (by omega)).bind ?_
    rintro log₂ h₂ ⟨he, hval₂⟩
    refine Returns.pure ⟨by rwa [hsame] at he, ?_⟩
    simp only [Hoe.evictLog, if_pos hfull, hval, ofBytes_toBytes, length_toBytes_eq]
    exact ⟨⟨hb.modified, hb.saveLog, by simp [hb.newIndex], by simp [hb.current], by simp⟩, trivial, hval₂⟩
  · rw [if_neg hfull]
    refine Returns.pure ⟨Edit.refl ht, ?_⟩
    simp only [Hoe.evictLog, if_neg hfull]
    exact ⟨hb, trivial, trivial⟩

/-- An entry is written at the end of the log. -/
theorem appendLog_spec {b : EditBuffer} {B : Hoe.EditBuffer} (hb : b.Agrees B) (htext : b.toPages.view h = B.toPages)
    (hT : B.toPages.TableOk) {log : Pages} (ht : Table h (b.pageTable ++ log.pageTable)) {entries : List LogEntry}
    {pos : Option Nat} (hlog : LogHeld B (log.view h) entries pos) (hw : h.Willing) (lb : LogBuffer)
    (hfit : lb.op = .delete ∨ lb.op = .write → lb.offset + lb.size ≤ tableSize B.pageTable) :
    Returns (appendLog b log lb) h fun r h' =>
      Edit log.pageTable r.2.pageTable h h' ∧ r.1.pageTable = b.pageTable ∧
        r.1.Agrees (Hoe.appendLog B (log.view h) lb).1 ∧ r.1.toPages.view h' = (Hoe.appendLog B (log.view h) lb).1.toPages ∧
        r.2.view h' = (Hoe.appendLog B (log.view h) lb).2 := by
  have hend : b.logNewIndex = (log.view h).bytes.length := by rw [hb.newIndex, hlog.newIndex, hlog.bytes]
  have htot : (log.view h).bytes.length = log.totalSize := hlog.ok.length_bytes
  unfold appendLog
  -- header
  refine (writeText_spec ht.right hlog.ok hw b.logNewIndex lb.toBytes (by omega)).bind ?_
  rintro log₁ h₁ ⟨he₁, hval₁⟩
  obtain ⟨hok₁, hbytes₁⟩ := writeText_end hlog.ok lb.toBytes (by rw [length_toBytes_header]; decide) hend
  rw [← hval₁] at hok₁ hbytes₁
  have hend₁ : b.logNewIndex + LogBuffer.sizeof = log₁.totalSize := by
    have htot₁ : (log₁.view h₁).bytes.length = log₁.totalSize := hok₁.length_bytes
    rw [← htot₁, hbytes₁, List.length_append, length_toBytes_header, hend]
  obtain ⟨htext₁, -⟩ := ht.left.kept he₁.frame ht.disjoint
  have hkept₁ : b.toPages.view h₁ = B.toPages := by rw [← htext, Table.view_kept ht.left he₁.frame ht.disjoint]
  have hdis₁ : List.Disjoint (owned b.pageTable) (owned log₁.pageTable) := he₁.frame.disjoint ht.left.live ht.disjoint
  simp only
  -- data
  obtain ⟨copy, hcopy⟩ : ∃ copy : Hoe.Pages × Hoe.Pages, copy = if lb.size = 0 then (log₁.view h₁, B.toPages)
      else Hoe.insertBufferPages (log₁.view h₁) (B.logNewIndex + LogBuffer.sizeof) B.toPages lb.offset lb.size := ⟨_, rfl⟩
  obtain ⟨data, hdatadef⟩ : ∃ data : Hoe.Pages × Hoe.Pages × Nat × Nat, data = if lb.op = .delete ∨ lb.op = .write then
        (copy.1, copy.2, B.logNewIndex + LogBuffer.sizeof + lb.size, lb.size)
      else (log₁.view h₁, B.toPages, B.logNewIndex + LogBuffer.sizeof, 0) := ⟨_, rfl⟩
  have hdata : Returns (if lb.op = .delete ∨ lb.op = .write then do
        let r ← (if lb.size = 0 then pure (log₁, b.toPages)
          else insertBufferPages log₁ (b.logNewIndex + LogBuffer.sizeof) b.toPages lb.offset lb.size)
        pure (r.1, r.2, b.logNewIndex + LogBuffer.sizeof + lb.size, lb.size)
      else pure (log₁, b.toPages, b.logNewIndex + LogBuffer.sizeof, 0)) h₁ fun r h₂ =>
      Edit log₁.pageTable r.1.pageTable h₁ h₂ ∧ r.2.1.pageTable = b.pageTable ∧ (r.1.view h₂).Ok ∧ r.2.2.1 = r.1.totalSize ∧
        data = (r.1.view h₂, r.2.1.view h₂, r.2.2.1, r.2.2.2) := by
    rw [hdatadef]
    rw [← hb.newIndex]
    by_cases hop : lb.op = .delete ∨ lb.op = .write
    · rw [if_pos hop, if_pos hop]
      by_cases hz : lb.size = 0
      · rw [if_pos hz] at hcopy
        simp only [if_pos hz, pure_bind]
        exact Returns.pure ⟨Edit.refl he₁.table, rfl, hok₁, by rw [← hend₁, hz, Nat.add_zero], by rw [hkept₁, hcopy]⟩
      · rw [if_neg hz, ← hb.newIndex] at hcopy
        simp only [if_neg hz]
        have hfit' : lb.offset + lb.size ≤ tableSize (b.toPages.view h₁).pageTable := by
          rw [hkept₁]
          exact hfit hop
        refine (insertBufferPages_spec he₁.table hok₁ (he₁.frame.willing hw) htext₁.placed (by rwa [hkept₁]) hdis₁
          (b.logNewIndex + LogBuffer.sizeof) lb.offset lb.size (by omega) (by omega) hfit').bind ?_
        rintro ⟨log₂, text⟩ h₂ ⟨he₂, hsame, hval₂⟩
        obtain ⟨hok₂, hbytes₂, -⟩ := Hoe.insertBufferPages_spec hok₁ hT
          (show b.logNewIndex + LogBuffer.sizeof ≤ (log₁.view h₁).totalSize from Nat.le_of_eq hend₁)
          (Nat.pos_of_ne_zero hz) (hfit hop)
        rw [hkept₁] at hval₂
        rw [hval₂] at hok₂ hbytes₂
        simp only at hsame hok₂ hbytes₂ ⊢
        refine Returns.pure ⟨he₂, hsame, hok₂, ?_, by rw [hcopy, hval₂]⟩
        have htot₂ : (log₂.view h₂).bytes.length = log₂.totalSize := hok₂.length_bytes
        have htot₁ : (log₁.view h₁).bytes.length = log₁.totalSize := hok₁.length_bytes
        have hdat : (slice B.toPages.bytes lb.offset lb.size).length = lb.size :=
          length_slice _ (by rw [hT.length_bytes]; exact hfit hop)
        rw [← htot₂, hbytes₂, length_insertAt, hdat, htot₁, hend₁]
    · rw [if_neg hop, if_neg hop]
      exact Returns.pure ⟨Edit.refl he₁.table, rfl, hok₁, hend₁, by rw [hkept₁]⟩
  refine hdata.bind ?_
  rintro ⟨log₂, text, index, sizeTrailer⟩ h₂ ⟨he₂, hsame, hok₂, hend₂, hval₂⟩
  simp only at he₂ hsame hok₂ hend₂ hval₂ ⊢
  -- trailer
  refine (writeText_spec he₂.table hok₂ (he₂.frame.willing (he₁.frame.willing hw)) index (intBytes sizeTrailer)
    (by omega)).bind ?_
  rintro log₃ h₃ ⟨he₃, hval₃⟩
  have htab₂ : Table h₂ text.pageTable := by
    rw [hsame]
    exact (htext₁.kept he₂.frame hdis₁).1
  have hdis₂ : List.Disjoint (owned text.pageTable) (owned log₂.pageTable) := by
    rw [hsame]
    exact he₂.frame.disjoint htext₁.live hdis₁
  have hkept₃ : text.view h₃ = text.view h₂ := Table.view_kept htab₂ he₃.frame hdis₂
  refine Returns.pure ⟨(he₁.trans he₂).trans he₃, hsame, ?_⟩
  have hparts : Hoe.appendLog B (log.view h) lb =
      ({ B with toPages := data.2.1, logNewIndex := data.2.2.1 + sizeofInt, nbLogs := B.nbLogs + 1 },
        Hoe.writeText data.1 data.2.2.1 (intBytes data.2.2.2)) := by
    rw [hdatadef, hcopy, hval₁, hb.newIndex]
    rfl
  rw [hparts, hval₂, hval₃]
  exact ⟨⟨hb.modified, hb.saveLog, rfl, hb.current, by rw [hb.nb]⟩, hkept₃, rfl⟩

/-- `eb_addlog`: the pages of the text stay, and without a log nothing happens to the heap. -/
theorem ebAddlog_spec {b : EditBuffer} {B : Hoe.EditBuffer} (hb : b.Shows h B) (ht : Table h b.pages) {d : Doc} (hB : Held B d)
    (hw : h.Willing) (op : LogOperation) (offset size : Nat)
    (hfit : op = .delete ∨ op = .write → offset + size ≤ tableSize B.pageTable) :
    Returns (ebAddlog b op offset size) h fun b' h' =>
      Edit b.pages b'.pages h h' ∧ b'.pageTable = b.pageTable ∧ b'.Shows h' (Hoe.ebAddlog B op offset size) ∧
        (b.saveLog = false → h' = h ∧ b'.logBuffer = b.logBuffer) := by
  obtain ⟨B₁, hB₁⟩ : ∃ B₁, B₁ = tellCallbacks B ⟨op, offset, size⟩ := ⟨_, rfl⟩
  obtain ⟨b₁, hb₁⟩ : ∃ b₁ : EditBuffer, b₁ = { b with modified := true } := ⟨_, rfl⟩
  have hsave : B₁.saveLog = b₁.saveLog := by rw [hB₁, hb₁]; exact hb.saveLog.symm
  have hshows₁ : b₁.Shows h B₁ := by
    rw [hB₁, hb₁]
    exact ⟨⟨rfl, hb.saveLog, hb.newIndex, hb.current, hb.nb⟩, hb.text, hb.log⟩
  have hsaveB : B₁.saveLog = b.saveLog := by rw [hsave, hb₁]
  by_cases hs : b.saveLog = true
  · have hheld := tellCallbacks_spec hB ⟨op, offset, size⟩
    rw [← hB₁] at hheld
    have hlog := hheld.log
    obtain ⟨log, hlogdef⟩ : ∃ log, log = b.logBuffer.getD Pages.empty := ⟨_, rfl⟩
    have htab : Table h (b.pageTable ++ log.pageTable) := by
      rw [hlogdef]
      exact ht
    have hlogB : B₁.logBuffer.getD Hoe.Pages.empty = log.view h := by
      rw [hshows₁.getD_log, hlogdef, hb₁]
    rw [hlogB] at hlog
    obtain ⟨B₂, LOG₂, hev⟩ : ∃ B₂ LOG₂, Hoe.evictLog B₁ (log.view h) = (B₂, LOG₂) := ⟨_, _, rfl⟩
    obtain ⟨hlog₂, i, c, n, hB₂⟩ := Hoe.evictLog_spec hlog
    rw [hev] at hlog₂ hB₂
    simp only at hlog₂ hB₂
    have hB₂pages : B₂.toPages = B.toPages := by rw [hB₂, hB₁]; rfl
    have hvals : Hoe.ebAddlog B op offset size =
        { (Hoe.appendLog B₂ LOG₂ ⟨op, b.modified, offset, size⟩).1 with
          logBuffer := some (Hoe.appendLog B₂ LOG₂ ⟨op, b.modified, offset, size⟩).2
          past := (Hoe.appendLog B₂ LOG₂ ⟨op, b.modified, offset, size⟩).1.past ++ [B.snapshot] } := by
      simp only [Hoe.ebAddlog, ← hB₁, hsaveB, hs, hlogB, hev, hb.modified, Hoe.EditBuffer.snapshot]
      rfl
    have hprog : ebAddlog b op offset size = (do
        let r₂ ← evictLog b₁ log
        let r₃ ← appendLog r₂.1 r₂.2 ⟨op, b.modified, offset, size⟩
        return { r₃.1 with logBuffer := some r₃.2 }) := by
      rw [hb₁, hlogdef]
      simp only [ebAddlog, hs]
      rfl
    rw [hprog, hvals]
    refine (evictLog_spec hshows₁.toAgrees htab.right hlog hw).bind ?_
    rintro ⟨b₂, log₂⟩ h₂ ⟨he₂, hagree₂, hsame₂, hview₂⟩
    rw [hev] at hagree₂ hview₂
    simp only at he₂ hagree₂ hsame₂ hview₂ ⊢
    have hpages₂ : b₂.toPages = b.toPages := by rw [hsame₂, hb₁]
    have htext₂ : b₂.toPages.view h₂ = B₂.toPages := by
      rw [hpages₂, Table.view_kept htab.left he₂.frame htab.disjoint, hb.text, hB₂pages]
    rw [← hview₂] at hlog₂ ⊢
    have htab₂ : Table h₂ (b₂.pageTable ++ log₂.pageTable) := by
      rw [hpages₂]
      exact (he₂.cut_right htab).table
    refine (appendLog_spec hagree₂ htext₂ (by rw [hB₂pages]; exact hB.table) htab₂ hlog₂ (he₂.frame.willing hw)
      ⟨op, b.modified, offset, size⟩ (by rw [hB₂pages]; exact hfit)).bind ?_
    rintro ⟨b₃, log₃⟩ h₃ ⟨he₃, hsame₃, hagree₃, htext₃, hview₃⟩
    simp only at he₃ hsame₃ hagree₃ htext₃ hview₃ ⊢
    have htable₃ : b₃.pageTable = b.pageTable := by rw [hsame₃, hpages₂]
    refine Returns.pure ⟨?_, htable₃, ⟨⟨hagree₃.modified, hagree₃.saveLog, hagree₃.newIndex, hagree₃.current, hagree₃.nb⟩,
      htext₃, by rw [Option.map_some, hview₃]⟩, fun hf => absurd hf (by simp [hs])⟩
    have hedit := (he₂.trans he₃).cut_right htab
    rw [hlogdef] at hedit
    simpa [EditBuffer.pages, htable₃] using hedit
  · have hsf : b.saveLog = false := by simpa using hs
    have hvals : Hoe.ebAddlog B op offset size = B₁ := by
      simp only [Hoe.ebAddlog, ← hB₁, hsaveB, hsf]
      rfl
    have hprog : ebAddlog b op offset size = pure b₁ := by
      rw [hb₁]
      simp only [ebAddlog, hsf]
      rfl
    rw [hprog, hvals]
    refine Returns.pure ⟨?_, by rw [hb₁], hshows₁, fun _ => ⟨rfl, by rw [hb₁]⟩⟩
    rw [hb₁]
    exact Edit.refl ht

/-! ## The functions that change a text -/

/-- The text of the buffer changes. -/
theorem EditBuffer.Shows.withText {h' : Heap Byte} {b : EditBuffer} {B : Hoe.EditBuffer} (hb : b.Shows h B) (ht : Table h b.pages)
    {t : Pages} (he : Edit b.pageTable t.pageTable h h') {T : Hoe.Pages} (hT : t.view h' = T) :
    Edit b.pages { b with toPages := t }.pages h h' ∧ { b with toPages := t }.Shows h' { B with toPages := T } := by
  refine ⟨he.cut_left ht, ⟨hb.modified, hb.saveLog, hb.newIndex, hb.current, hb.nb⟩, hT, ?_⟩
  rw [← hb.log]
  have hlog := (he.cut_view (a := []) ht).2
  cases hl : b.logBuffer with
  | none => rfl
  | some log =>
    simp only [hl, Option.getD_some] at hlog
    simp only [Option.map_some, Pages.view, hlog]

theorem EditBuffer.Shows.total {b : EditBuffer} {B : Hoe.EditBuffer} (hb : b.Shows h B) : b.totalSize = B.totalSize := by
  rw [← hb.text]
  rfl

theorem EditBuffer.Shows.table {b : EditBuffer} {B : Hoe.EditBuffer} (hb : b.Shows h B) :
    (b.toPages.view h).pageTable = B.pageTable := by
  rw [hb.text]

theorem ebInsert_spec {b : EditBuffer} {B : Hoe.EditBuffer} (hb : b.Shows h B) (ht : Table h b.pages) {d : Doc} (hB : Stands B d)
    (hw : h.Willing) {offset : Nat} (ho : offset ≤ b.totalSize) (buf : List Byte) :
    Returns (ebInsert b offset buf) h fun b' h' => Edit b.pages b'.pages h h' ∧ b'.Shows h' (Hoe.ebInsert B offset buf) := by
  have hle : offset ≤ d.text.length := by rw [← hB.total, ← hb.total]; exact ho
  unfold ebInsert
  refine (ebAddlog_spec hb ht hB.toHeld hw .insert offset buf.length (by simp)).bind ?_
  rintro b₁ h₁ ⟨he₁, -, hb₁, -⟩
  have hB₁ := ebAddlog_stands hB .insert offset buf.length (by simp) (by simp)
  have hok₁ := hB₁.ok
  rw [← hb₁.text] at hok₁
  have hsum : b₁.totalSize = tableSize (b₁.toPages.view h₁).pageTable := hok₁.total
  have hle₁ : offset ≤ b₁.totalSize := by rw [hb₁.total, hB₁.total, Doc.addlog_text]; exact hle
  have hbuf : (Source.array buf).Holds h₁ buf := List.prefix_refl _
  refine (ebInsertLowlevel_spec (Table.left he₁.table) hok₁.toTableOk (he₁.frame.willing hw) offset (by omega) hbuf trivial).bind ?_
  rintro t h₂ ⟨he₂, hval⟩
  rw [hb₁.text] at hval
  obtain ⟨hedit, hshows⟩ := hb₁.withText he₁.table he₂ hval
  exact Returns.pure ⟨he₁.trans hedit, hshows⟩

theorem ebDelete_spec {b : EditBuffer} {B : Hoe.EditBuffer} (hb : b.Shows h B) (ht : Table h b.pages) {d : Doc} (hB : Stands B d)
    (hw : h.Willing) {offset size : Nat} (hs : offset < b.totalSize → offset + size ≤ b.totalSize) :
    Returns (ebDelete b offset size) h fun b' h' => Edit b.pages b'.pages h h' ∧ b'.Shows h' (Hoe.ebDelete B offset size) := by
  have htot : b.totalSize = d.text.length := hb.total.trans hB.total
  unfold ebDelete Hoe.ebDelete
  rw [← hb.total]
  by_cases hin : b.totalSize ≤ offset
  · rw [if_pos hin, if_pos hin]
    exact Returns.pure ⟨Edit.refl ht, hb⟩
  · rw [if_neg hin, if_neg hin]
    have hfit := hs (by omega)
    obtain ⟨b₀, hb₀⟩ : ∃ b₀ : EditBuffer, b₀ = { b with totalSize := b.totalSize - size } := ⟨_, rfl⟩
    obtain ⟨B₀, hB₀⟩ : ∃ B₀ : Hoe.EditBuffer, B₀ = { B with totalSize := b.totalSize - size } := ⟨_, rfl⟩
    have hheld : Held B₀ d := by
      rw [hB₀]
      exact ⟨⟨hB.table.pages, hB.table.nb, hB.table.cache⟩, hB.text, hB.modified, hB.readOnly, hB.saveLog, hB.mark, hB.notes,
        hB.past, hB.hasLog, hB.log.ok, hB.log.bytes, hB.log.nb, hB.log.newIndex, hB.log.current, hB.log.le⟩
    have hshows : b₀.Shows h B₀ := by
      rw [hb₀, hB₀]
      refine ⟨⟨hb.modified, hb.saveLog, hb.newIndex, hb.current, hb.nb⟩, ?_, hb.log⟩
      rw [← hb.text]
      rfl
    have hpages : b₀.pages = b.pages := by rw [hb₀]; rfl
    rw [← hB₀]
    simp only [← hb₀]
    rw [← hpages] at ht ⊢
    refine (ebAddlog_spec hshows ht hheld hw .delete offset size (fun _ => by rw [hheld.tableSize]; omega)).bind ?_
    rintro b₁ h₁ ⟨he₁, -, hb₁, -⟩
    obtain ⟨hheld₁, -⟩ := Hoe.ebAddlog_spec hheld .delete offset size (by simp) (fun _ => by omega)
    have hsum := hheld₁.tableSize
    have hok₁ := hheld₁.table
    rw [← hb₁.text] at hok₁
    rw [Doc.addlog_text, ← hb₁.table] at hsum
    refine (deletePages_spec (Table.left he₁.table) hok₁ (he₁.frame.willing hw) (by omega) (by omega)).bind ?_
    rintro t h₂ ⟨he₂, hval⟩
    rw [hb₁.text] at hval
    obtain ⟨hedit, hshows₂⟩ := hb₁.withText he₁.table he₂ hval
    exact Returns.pure ⟨he₁.trans hedit, hshows₂⟩

/-- The writing `eb_rw`. -/
theorem ebRw_spec {b : EditBuffer} {B : Hoe.EditBuffer} (hb : b.Shows h B) (ht : Table h b.pages) {d : Doc} (hB : Stands B d)
    (hw : h.Willing) {offset : Nat} (ho : offset ≤ b.totalSize) (buf : List Byte) :
    Returns (ebRw b offset buf) h fun r h' =>
      Edit b.pages r.1.pages h h' ∧ r.1.Shows h' (Hoe.ebRw B offset buf).1 ∧ r.2 = (Hoe.ebRw B offset buf).2 := by
  have htot : b.totalSize = d.text.length := hb.total.trans hB.total
  obtain ⟨size, hsize⟩ : ∃ size, size = rwSize b.toPages offset buf.length := ⟨_, rfl⟩
  have hsizeB : size = Hoe.rwSize B.toPages offset buf.length := by rw [hsize, ← hb.text]; rfl
  have hle : size ≤ buf.length ∧ offset + size ≤ b.totalSize := by
    rw [hsize, rwSize]
    split <;> omega
  unfold ebRw Hoe.ebRw
  simp only [← hsize, ← hsizeB]
  by_cases hz : size = 0
  · simp only [if_pos hz]
    exact Returns.pure ⟨Edit.refl ht, hb, rfl⟩
  · simp only [if_neg hz]
    have hfit : offset + size ≤ d.text.length := by omega
    refine (ebAddlog_spec hb ht hB.toHeld hw .write offset size (fun _ => by rw [hB.toHeld.tableSize]; exact hfit)).bind ?_
    rintro b₁ h₁ ⟨he₁, -, hb₁, -⟩
    have hB₁ := ebAddlog_stands hB .write offset size (by simp) (fun _ => hfit)
    have hok₁ := hB₁.ok
    rw [← hb₁.text] at hok₁
    have htot₁ : b₁.totalSize = d.text.length := by rw [hb₁.total, hB₁.total, Doc.addlog_text]
    have htake : (buf.take size).length = size := by rw [List.length_take]; omega
    refine (writePages_spec (Table.left he₁.table) hok₁ (he₁.frame.willing hw) offset (show 0 < (buf.take size).length by omega)
      (by omega)).bind ?_
    rintro t h₂ ⟨he₂, hval⟩
    rw [hb₁.text] at hval
    obtain ⟨hedit, hshows⟩ := hb₁.withText he₁.table he₂ hval
    exact Returns.pure ⟨he₁.trans hedit, hshows, rfl⟩

theorem ebWrite_spec {b : EditBuffer} {B : Hoe.EditBuffer} (hb : b.Shows h B) (ht : Table h b.pages) {d : Doc} (hB : Stands B d)
    (hw : h.Willing) {offset : Nat} (ho : offset ≤ b.totalSize) (buf : List Byte) :
    Returns (ebWrite b offset buf) h fun b' h' => Edit b.pages b'.pages h h' ∧ b'.Shows h' (Hoe.ebWrite B offset buf) := by
  have htot : b.totalSize = d.text.length := hb.total.trans hB.total
  obtain ⟨hB₁, hlen⟩ := ebRw_stands hB buf (show offset ≤ d.text.length by omega)
  unfold ebWrite Hoe.ebWrite
  refine (ebRw_spec hb ht hB hw ho buf).bind ?_
  rintro ⟨b₁, len⟩ h₁ ⟨he₁, hb₁, hlen₁⟩
  simp only at he₁ hb₁ hlen₁ ⊢
  rw [← hlen₁] at hlen ⊢
  by_cases hleft : 0 < buf.length - len
  · rw [if_pos hleft, if_pos hleft]
    have hfit : offset + len ≤ b₁.totalSize := by
      rw [hb₁.total, hB₁.total]
      unfold Doc.overwrite
      split
      · omega
      · rw [length_overwriteAt _ (by rw [List.length_take]; omega)]
        omega
    refine (ebInsert_spec hb₁ he₁.table hB₁ (he₁.frame.willing hw) hfit (buf.drop len)).mono ?_
    rintro b₂ h₂ ⟨he₂, hb₂⟩
    exact ⟨he₁.trans he₂, hb₂⟩
  · rw [if_neg hleft, if_neg hleft]
    exact Returns.pure ⟨he₁, hb₁⟩

/-- `eb_insert_buffer`, from pages that the destination does not own. They may be its own log when it records nothing. -/
theorem ebInsertBuffer_spec {b : EditBuffer} {B : Hoe.EditBuffer} (hb : b.Shows h B) (ht : Table h b.pages) {d : Doc}
    (hB : Stands B d) (hw : h.Willing) {src : Pages} (hsrc : Table h src.pageTable) (hsok : (src.view h).Ok)
    (hdis : List.Disjoint (owned src.pageTable) (owned b.pageTable))
    (hlog : b.saveLog = true → List.Disjoint (owned src.pageTable) (owned b.pages)) {destOffset srcOffset size : Nat}
    (ho : destOffset ≤ b.totalSize) (hs : srcOffset + size ≤ src.totalSize) :
    Returns (ebInsertBuffer b destOffset src srcOffset size) h fun r h' =>
      Edit b.pages r.1.pages h h' ∧ r.2.pageTable = src.pageTable ∧
        r.1.Shows h' (Hoe.ebInsertBuffer B destOffset (src.view h) srcOffset size).1 ∧
        r.2.view h' = (Hoe.ebInsertBuffer B destOffset (src.view h) srcOffset size).2 ∧
        (b.saveLog = false → r.1.logBuffer = b.logBuffer) := by
  have htot : b.totalSize = d.text.length := hb.total.trans hB.total
  unfold ebInsertBuffer Hoe.ebInsertBuffer
  by_cases hz : size = 0
  · rw [if_pos hz, if_pos hz]
    exact Returns.pure ⟨Edit.refl ht, rfl, hb, rfl, fun _ => rfl⟩
  · rw [if_neg hz, if_neg hz]
    refine (ebAddlog_spec hb ht hB.toHeld hw .insert destOffset size (by simp)).bind ?_
    rintro b₁ h₁ ⟨he₁, hsame₁, hb₁, hquiet⟩
    have hB₁ := ebAddlog_stands hB .insert destOffset size (by simp) (by simp)
    have hok₁ := hB₁.ok
    rw [← hb₁.text] at hok₁
    have hsrc₁ : Table h₁ src.pageTable ∧ src.view h₁ = src.view h := by
      cases hsave : b.saveLog with
      | true => exact ⟨(hsrc.kept he₁.frame (hlog hsave)).1, Table.view_kept hsrc he₁.frame (hlog hsave)⟩
      | false =>
        rw [(hquiet hsave).1]
        exact ⟨hsrc, rfl⟩
    have hsum : src.totalSize = tableSize (src.view h₁).pageTable := by
      rw [hsrc₁.2]
      exact hsok.total
    refine (insertBufferPages_spec (Table.left he₁.table) hok₁ (he₁.frame.willing hw) hsrc₁.1.placed
      (by rw [hsrc₁.2]; exact hsok.toTableOk) (by rwa [hsame₁]) destOffset srcOffset size
      (by rw [hb₁.total, hB₁.total, Doc.addlog_text]; omega) (by omega) (by omega)).bind ?_
    rintro ⟨t, src'⟩ h₂ ⟨he₂, hsame₂, hval⟩
    simp only at he₂ hsame₂ hval ⊢
    rw [hb₁.text, hsrc₁.2] at hval
    obtain ⟨hedit, hshows⟩ := hb₁.withText he₁.table he₂ rfl
    refine Returns.pure ⟨he₁.trans hedit, hsame₂, ?_, by rw [hval], fun hsave => (hquiet hsave).2⟩
    rw [hval]
    exact hshows

/-! ## Mapped files -/

/-- The pages of a mapped file show the file, and own nothing. -/
theorem mapPages_placed {k ino : Nat} {cells : List Byte} (hc : h.chunk k = some ⟨cells, some ino⟩) {n : Nat} (ptr : Nat)
    {size : Nat} (hn : n = pagesFor size) (hsize : size = cells.length - ptr) :
    (∀ p ∈ mapPages n ⟨k, ptr⟩ size, p.Placed h) ∧ owned (mapPages n ⟨k, ptr⟩ size) = [] ∧
      (mapPages n ⟨k, ptr⟩ size).map (·.view h) = Hoe.mapPages ino n ptr (cells.drop ptr) := by
  induction n generalizing ptr size with
  | zero => exact ⟨by simp [mapPages], rfl, rfl⟩
  | succ n ih =>
    have hpos : 0 < size := by
      by_contra hz
      rw [Nat.eq_zero_of_not_pos hz, pagesFor_zero] at hn
      omega
    have hpages := pagesFor_succ hpos
    obtain ⟨hplaced, hown, hview⟩ := ih (ptr + maxPageSize) (show n = pagesFor (size - maxPageSize) by omega) (by omega)
    obtain ⟨p, hp⟩ : ∃ p, p = { newPage (min size maxPageSize) ⟨k, ptr⟩ with readOnly := true } := ⟨_, rfl⟩
    have hmap : mapPages (n + 1) ⟨k, ptr⟩ size = p :: mapPages n ⟨k, ptr + maxPageSize⟩ (size - maxPageSize) := by
      rw [hp]
      rfl
    have hfirst : p.Placed h := by
      rw [hp]
      refine ⟨fun _ => ⟨_, hc, by simp, ?_⟩, fun hro => by cases hro⟩
      simp only [newPage]
      omega
    rw [hmap]
    refine ⟨?_, by rw [owned_cons, hown, hp]; rfl, ?_⟩
    · intro q hq
      rcases List.mem_cons.mp hq with rfl | hq
      · exact hfirst
      · exact hplaced q hq
    · rw [List.map_cons, hview, Hoe.mapPages, List.drop_drop, hp]
      have hdata : slice cells ptr (min size maxPageSize) = (cells.drop ptr).take maxPageSize := by
        rw [slice, hsize, ← List.length_drop, Nat.min_comm, ← List.take_eq_take_min]
      simp only [Page.view, newPage, hc, Option.elim_some, hdata, Hoe.newPage]
      simp [hsize, Nat.min_comm]

/-- `mmap_buffer` of a buffer without pages. -/
theorem mmapBuffer_spec {b : EditBuffer} {B : Hoe.EditBuffer} (hb : b.Shows h B) (ht : Table h b.pages) (hnone : b.pageTable = [])
    (ino : Nat) (file : List Byte) :
    Returns (mmapBuffer b ino file) h fun b' h' => Edit b.pages b'.pages h h' ∧ b'.Shows h' (Hoe.mmapBuffer B ino file) := by
  unfold mmapBuffer Hoe.mmapBuffer
  by_cases hz : file.length = 0
  · simp only [if_pos hz]
    exact Returns.pure ⟨Edit.refl ht, hb⟩
  · simp only [if_neg hz]
    refine (mmap_rule ino file h).bind ?_
    rintro _ h' ⟨k, rfl, hc, hf⟩
    obtain ⟨hplaced, hown, hview⟩ := mapPages_placed hc 0 (Eq.refl (pagesFor file.length)) rfl
    have hedit : Edit b.pageTable (mapPages (pagesFor file.length) ⟨k, 0⟩ file.length) h h' := by
      refine ⟨?_, hplaced, by rw [hown]; exact List.nodup_nil⟩
      rw [hnone, hown]
      exact hf
    obtain ⟨he, hshows⟩ := hb.withText ht hedit (t := { b.toPages with
      pageTable := mapPages (pagesFor file.length) ⟨k, 0⟩ file.length, totalSize := file.length
      nbPages := pagesFor file.length }) rfl
    refine Returns.pure ⟨he, ?_⟩
    rw [Pages.view, hview, List.drop_zero] at hshows
    rw [← hb.text]
    exact hshows

end Hoe.InMemory
