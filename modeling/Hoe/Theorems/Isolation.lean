import Hoe.Lemmas.History
import Hoe.Lemmas.InMemoryBuffer

/-!
# Buffers that share pages stay apart

Any number of buffers on one heap. Their read only pages point into mapped files, many of them at the same bytes; the other pages
own their blocks. A call on one buffer that is allowed returns, and leaves the text and the log of every other buffer and the bytes
under every read only page as they are, in any sequence of calls, where no copy is refused its memory.

Where it is refused, `update_page` says nothing, and its caller writes to the mapped file.
-/

namespace Hoe.InMemory

open Memory Splice

/-! ## Calls -/

/-- The heap, and the buffers on it by number. -/
structure World where
  heap : Heap Byte
  buffers : Nat → EditBuffer

namespace World

variable (w : World) (i : Nat)

/-- The text of the buffer. -/
def text : List Byte := ((w.buffers i).toPages.view w.heap).bytes

/-- The log of the buffer. -/
def log : Pages := (w.buffers i).logBuffer.getD Pages.empty

/-- The bytes of the log. -/
def logText : List Byte := ((w.log i).view w.heap).bytes

/-- No buffer has a page yet. -/
def new (answers : List Bool) (saveLog : Bool) : World := ⟨⟨[], answers⟩, fun _ => EditBuffer.new saveLog⟩

end World

/-- A call of the buffer layer. The log of a buffer is a buffer too, and may be what is inserted. -/
inductive Call where
  | map (b ino : Nat) (file : List Byte)
  | insert (b offset : Nat) (buf : List Byte)
  | delete (b offset size : Nat)
  | write (b offset : Nat) (buf : List Byte)
  | insertBuffer (dest destOffset src srcOffset size : Nat)
  | insertLog (dest destOffset src srcOffset size : Nat)
deriving DecidableEq, Repr

namespace Call

/-- The buffer that the call changes. -/
def dest : Call → Nat
  | map b _ _ => b
  | insert b _ _ => b
  | delete b _ _ => b
  | write b _ _ => b
  | insertBuffer dest _ _ _ _ => dest
  | insertLog dest _ _ _ _ => dest

/-- One buffer is changed by the program. -/
def edit (w : World) (b : Nat) (f : EditBuffer → Mem Byte EditBuffer) : Except Fault World := do
  let (e, heap) ← f (w.buffers b) w.heap
  return ⟨heap, Function.update w.buffers b e⟩

/-- The call. It returns, or a fault stops it. -/
def run (w : World) : Call → Except Fault World
  | map b ino file => edit w b fun e => mmapBuffer e ino file
  | insert b offset buf => edit w b fun e => ebInsert e offset buf
  | delete b offset size => edit w b fun e => ebDelete e offset size
  | write b offset buf => edit w b fun e => ebWrite e offset buf
  | insertBuffer dest destOffset src srcOffset size => do
    let ((d, t), heap) ← ebInsertBuffer (w.buffers dest) destOffset (w.buffers src).toPages srcOffset size w.heap
    let buffers := Function.update w.buffers dest d
    return ⟨heap, Function.update buffers src { buffers src with toPages := t }⟩
  | insertLog dest destOffset src srcOffset size => do
    let ((d, t), heap) ← ebInsertBuffer (w.buffers dest) destOffset (w.log src) srcOffset size w.heap
    let buffers := Function.update w.buffers dest d
    return ⟨heap, Function.update buffers src { buffers src with logBuffer := (buffers src).logBuffer.map fun _ => t }⟩

/-- What a caller promises. A file is mapped into a buffer without pages. The source of an insertion is not its destination, and
the log of the destination only where it records nothing. -/
def Allowed (w : World) : Call → Prop
  | map b _ _ => (w.buffers b).pageTable = [] ∧ (w.buffers b).curPage = none
  | insert b offset _ => offset ≤ (w.buffers b).totalSize
  | delete b offset size => offset < (w.buffers b).totalSize → offset + size ≤ (w.buffers b).totalSize
  | write b offset _ => offset ≤ (w.buffers b).totalSize
  | insertBuffer dest destOffset src srcOffset size =>
    dest ≠ src ∧ destOffset ≤ (w.buffers dest).totalSize ∧ srcOffset + size ≤ (w.buffers src).totalSize
  | insertLog dest destOffset src srcOffset size =>
    (dest = src → (w.buffers dest).saveLog = false) ∧ destOffset ≤ (w.buffers dest).totalSize ∧
      srcOffset + size ≤ (w.log src).totalSize

instance (w : World) (c : Call) : Decidable (c.Allowed w) := by
  cases c <;> unfold Allowed <;> infer_instance

end Call

/-- Every call of the sequence is allowed where it is made. -/
def AllAllowed (w : World) : List Call → Prop
  | [] => True
  | c :: cs =>
    c.Allowed w ∧
      match c.run w with
      | .ok w' => AllAllowed w' cs
      | .error _ => True

/-- Evaluates the condition. -/
def decideAllAllowed : (cs : List Call) → (w : World) → Decidable (AllAllowed w cs)
  | [], _ => isTrue trivial
  | c :: cs, w =>
    have : Decidable (match c.run w with | .ok w' => AllAllowed w' cs | .error _ => True) :=
      match c.run w with
      | .ok w' => decideAllAllowed cs w'
      | .error _ => isTrue trivial
    inferInstanceAs (Decidable (c.Allowed w ∧ _))

instance (w : World) (cs : List Call) : Decidable (AllAllowed w cs) := decideAllAllowed cs w

/-- A call on buffer `A` left everything else alone: what the other buffers hold, and the bytes that are mapped, among them those
under every read only page. -/
structure LeavesAlone (A : Nat) (w w' : World) : Prop where
  texts : ∀ i, i ≠ A → w'.text i = w.text i
  logs : ∀ i, i ≠ A → w'.logText i = w.logText i
  mapped : ∀ k c, w.heap.chunk k = some c → c.file ≠ none → w'.heap.chunk k = some c
  readOnly : ∀ i, ∀ p ∈ (w.buffers i).pages, p.readOnly = true → w'.heap.chunk p.data.block = w.heap.chunk p.data.block

/-- Every call of the sequence returns, which it does not when it changes a mapped block, resizes it or frees it, and leaves
everything else alone. -/
def Isolated (w : World) : List Call → Prop
  | [] => True
  | c :: cs =>
    match c.run w with
    | .ok w' => LeavesAlone c.dest w w' ∧ Isolated w' cs
    | .error _ => False

/-! ## One call -/

/-- The invariant: each buffer is well formed, and owns blocks that no other owns. -/
structure World.Ok (w : World) : Prop where
  table : ∀ i, Table w.heap (w.buffers i).pages
  apart : ∀ i j, i ≠ j → List.Disjoint (owned (w.buffers i).pages) (owned (w.buffers j).pages)
  shows : ∀ i, ∃ B d, (w.buffers i).Shows w.heap B ∧ Stands B d

theorem World.ok_new (answers : List Bool) (saveLog : Bool) : (World.new answers saveLog).Ok := by
  refine ⟨fun i => Table.nil _, ?_, ?_⟩
  · intro i j _ k hk
    cases hk
  · intro i
    exact ⟨_, _, ⟨⟨rfl, rfl, rfl, rfl, rfl⟩, rfl, rfl⟩, new_stands saveLog⟩

namespace World.Ok

variable {w : World}

/-- The pages of the text. -/
theorem text (hw : w.Ok) (i : Nat) : Table w.heap (w.buffers i).pageTable := Table.left (hw.table i)

/-- The pages of the log. -/
theorem log (hw : w.Ok) (i : Nat) : Table w.heap (w.log i).pageTable := Table.right (hw.table i)

/-- The log of a buffer shares no block with a text, and none with the log of another buffer. -/
theorem log_apart (hw : w.Ok) (i j : Nat) :
    List.Disjoint (owned (w.log i).pageTable) (owned (w.buffers j).pageTable) ∧
      (i ≠ j → List.Disjoint (owned (w.log i).pageTable) (owned (w.buffers j).pages)) := by
  have hother : i ≠ j → List.Disjoint (owned (w.log i).pageTable) (owned (w.buffers j).pages) := by
    intro hij
    have hdis := hw.apart i j hij
    rw [EditBuffer.pages, owned_append, List.disjoint_append_left] at hdis
    exact hdis.2
  refine ⟨?_, hother⟩
  by_cases hij : i = j
  · rw [hij]
    exact (Table.disjoint (hw.table j)).symm
  · have hdis := hother hij
    rw [EditBuffer.pages, owned_append, List.disjoint_append_right] at hdis
    exact hdis.1

/-- A buffer whose pages are not edited. -/
theorem kept (hw : w.Ok) {A : Nat} {ps : List Page} {h : Heap Byte} (he : Edit (w.buffers A).pages ps w.heap h) {i : Nat}
    (hi : i ≠ A) :
    Table h (w.buffers i).pages ∧ (w.buffers i).toPages.view h = (w.buffers i).toPages.view w.heap ∧
      (w.log i).view h = (w.log i).view w.heap := by
  have hdis := hw.apart i A hi
  have hsplit := hdis
  rw [EditBuffer.pages, owned_append, List.disjoint_append_left] at hsplit
  exact ⟨((hw.table i).kept he.frame hdis).1, Table.view_kept (hw.text i) he.frame hsplit.1,
    Table.view_kept (hw.log i) he.frame hsplit.2⟩

/-- An edit of the pages of one buffer keeps the invariant. -/
theorem edit (hw : w.Ok) {A : Nat} {e : EditBuffer} {h : Heap Byte} (he : Edit (w.buffers A).pages e.pages w.heap h)
    {B : Hoe.EditBuffer} {d : Doc} (hs : e.Shows h B) (hB : Stands B d) : World.Ok ⟨h, Function.update w.buffers A e⟩ := by
  have happart : ∀ i, i ≠ A → List.Disjoint (owned (w.buffers i).pages) (owned e.pages) := by
    intro i hi
    exact he.frame.disjoint (hw.table i).live (hw.apart i A hi)
  refine ⟨?_, ?_, ?_⟩
  · intro i
    by_cases hi : i = A
    · simp only [hi, Function.update_self]
      exact he.table
    · simp only [Function.update_of_ne hi]
      exact (hw.kept he hi).1
  · intro i j hij
    by_cases hi : i = A
    · have hj : j ≠ A := by
        rw [← hi]
        exact Ne.symm hij
      simp only [hi, Function.update_self, Function.update_of_ne hj]
      exact (happart j hj).symm
    · by_cases hj : j = A
      · simp only [hj, Function.update_self, Function.update_of_ne hi]
        exact happart i hi
      · simp only [Function.update_of_ne hi, Function.update_of_ne hj]
        exact hw.apart i j hij
  · intro i
    by_cases hi : i = A
    · simp only [hi, Function.update_self]
      exact ⟨B, d, hs, hB⟩
    · simp only [Function.update_of_ne hi]
      obtain ⟨B', d', hs', hB'⟩ := hw.shows i
      obtain ⟨-, htext, hlog⟩ := hw.kept he hi
      refine ⟨B', d', ⟨hs'.toAgrees, htext.trans hs'.text, ?_⟩, hB'⟩
      rw [← hs'.log]
      cases hl : (w.buffers i).logBuffer with
      | none => rfl
      | some log =>
        simp only [World.log, hl, Option.getD_some] at hlog
        simp only [Option.map_some, hlog]

/-- It leaves everything else alone. -/
theorem edit_alone (hw : w.Ok) {A : Nat} {e : EditBuffer} {h : Heap Byte} (he : Edit (w.buffers A).pages e.pages w.heap h) :
    LeavesAlone A w ⟨h, Function.update w.buffers A e⟩ := by
  refine ⟨?_, ?_, he.frame.mapped, ?_⟩
  · intro i hi
    simp only [World.text, Function.update_of_ne hi, (hw.kept he hi).2.1]
  · intro i hi
    have hlog := (hw.kept he hi).2.2
    simp only [World.log] at hlog
    simp only [World.logText, World.log, Function.update_of_ne hi, hlog]
  · intro i p hp hro
    obtain ⟨c, hc, hfile, -⟩ := ((hw.table i).placed p hp).shared hro
    exact (he.frame.mapped _ c hc hfile).trans hc.symm

/-- A buffer that differs in its page caches only. -/
theorem recache (hw : w.Ok) {s : Nat} {e : EditBuffer} (htext : e.pageTable = (w.buffers s).pageTable)
    (hlog : (e.logBuffer.getD Pages.empty).pageTable = (w.log s).pageTable) {B : Hoe.EditBuffer} {d : Doc}
    (hB : Stands B d) (hs : e.Shows w.heap B) :
    let w' : World := ⟨w.heap, Function.update w.buffers s e⟩
    w'.Ok ∧ ∀ i, w'.text i = w.text i ∧ w'.logText i = w.logText i := by
  have hpages : e.pages = (w.buffers s).pages := by
    rw [EditBuffer.pages, htext, hlog]
    rfl
  have he : Edit (w.buffers s).pages e.pages w.heap w.heap := by
    rw [hpages]
    exact Edit.refl (hw.table s)
  refine ⟨hw.edit he hs hB, ?_⟩
  intro i
  by_cases hi : i = s
  · rw [hi]
    constructor
    · simp only [World.text, Function.update_self, Hoe.Pages.bytes, Pages.view, htext]
    · simp only [World.logText, World.log, Function.update_self, Hoe.Pages.bytes, Pages.view, hlog]
  · simp only [World.text, World.logText, World.log, Function.update_of_ne hi, and_self]

/-- The page cache of a text. -/
theorem recacheText (hw : w.Ok) {s : Nat} {t : Pages} (hsame : t.pageTable = (w.buffers s).pageTable) (hok : (t.view w.heap).Ok) :
    let w' : World := ⟨w.heap, Function.update w.buffers s { w.buffers s with toPages := t }⟩
    w'.Ok ∧ ∀ i, w'.text i = w.text i ∧ w'.logText i = w.logText i := by
  obtain ⟨B, d, hs, hB⟩ := hw.shows s
  have hbytes : (t.view w.heap).bytes = d.text := by
    rw [← hB.text, ← hs.text]
    simp only [Hoe.Pages.bytes, Pages.view, hsame]
  exact hw.recache hsame rfl (hB.toHeld.standsText hok hbytes)
    ⟨⟨hs.modified, hs.saveLog, hs.newIndex, hs.current, hs.nb⟩, rfl, hs.log⟩

/-- The page cache of a log. -/
theorem recacheLog (hw : w.Ok) {s : Nat} {t : Pages} (hsame : t.pageTable = (w.log s).pageTable) (hok : (t.view w.heap).Ok) :
    let w' : World :=
      ⟨w.heap, Function.update w.buffers s { w.buffers s with logBuffer := (w.buffers s).logBuffer.map fun _ => t }⟩
    w'.Ok ∧ ∀ i, w'.text i = w.text i ∧ w'.logText i = w.logText i := by
  obtain ⟨B, d, hs, hB⟩ := hw.shows s
  cases hl : (w.buffers s).logBuffer with
  | none =>
    refine hw.recache rfl ?_ hB ⟨⟨hs.modified, hs.saveLog, hs.newIndex, hs.current, hs.nb⟩, hs.text, ?_⟩
    · rw [World.log, hl]
      rfl
    · rw [← hs.log, hl]
      rfl
  | some log =>
    rw [World.log, hl, Option.getD_some] at hsame
    have hlogB : B.logBuffer = some (log.view w.heap) := by
      rw [← hs.log, hl]
      rfl
    have hbytes : (t.view w.heap).bytes = (log.view w.heap).bytes := by
      simp only [Hoe.Pages.bytes, Pages.view, hsame]
    refine hw.recache rfl ?_ (hB.withLog hlogB hok hbytes)
      ⟨⟨hs.modified, hs.saveLog, hs.newIndex, hs.current, hs.nb⟩, hs.text, rfl⟩
    rw [World.log, hl]
    exact hsame

end World.Ok

/-- Page caches hold no text. -/
theorem LeavesAlone.recache {A : Nat} {w w₁ w₂ : World} (h : LeavesAlone A w w₁) (hheap : w₂.heap = w₁.heap)
    (hsame : ∀ i, w₂.text i = w₁.text i ∧ w₂.logText i = w₁.logText i) : LeavesAlone A w w₂ := by
  refine ⟨fun i hi => (hsame i).1.trans (h.texts i hi), fun i hi => (hsame i).2.trans (h.logs i hi), ?_, ?_⟩
  · rw [hheap]
    exact h.mapped
  · rw [hheap]
    exact h.readOnly

/-- What a program on one buffer returns becomes the buffer. -/
theorem Call.edit_spec {w : World} (hw : w.Ok) (hgrant : w.heap.Willing) {A : Nat} {f : EditBuffer → Mem Byte EditBuffer}
    {B : Hoe.EditBuffer} {d : Doc} (hB : Stands B d)
    (hf : Returns (f (w.buffers A)) w.heap fun e h => Edit (w.buffers A).pages e.pages w.heap h ∧ e.Shows h B) :
    ∃ w', Call.edit w A f = .ok w' ∧ w'.Ok ∧ w'.heap.Willing ∧ LeavesAlone A w w' := by
  obtain ⟨e, h, hrun, he, hs⟩ := hf
  refine ⟨⟨h, Function.update w.buffers A e⟩, ?_, hw.edit he hs hB, he.frame.willing hgrant, hw.edit_alone he⟩
  simp only [Call.edit, hrun]
  rfl

/-- What `eb_insert_buffer` returns for the destination becomes the destination. -/
theorem World.Ok.insertBuffer {w : World} (hw : w.Ok) (hgrant : w.heap.Willing) {A : Nat} {src : Pages}
    (hsrc : Table w.heap src.pageTable) (hok : (src.view w.heap).Ok)
    (hdis : List.Disjoint (owned src.pageTable) (owned (w.buffers A).pageTable))
    (hlog : (w.buffers A).saveLog = true → List.Disjoint (owned src.pageTable) (owned (w.buffers A).pages))
    {destOffset srcOffset size : Nat} (ho : destOffset ≤ (w.buffers A).totalSize) (hs : srcOffset + size ≤ src.totalSize) :
    ∃ e t h, ebInsertBuffer (w.buffers A) destOffset src srcOffset size w.heap = .ok ((e, t), h) ∧
      World.Ok ⟨h, Function.update w.buffers A e⟩ ∧ h.Willing ∧ LeavesAlone A w ⟨h, Function.update w.buffers A e⟩ ∧
      t.pageTable = src.pageTable ∧ (t.view h).Ok ∧ ((w.buffers A).saveLog = false → e.logBuffer = (w.buffers A).logBuffer) ∧
      (e.toPages.view h).bytes = insertAt (w.text A) destOffset (slice (src.view w.heap).bytes srcOffset size) := by
  obtain ⟨B, d, hshows, hB⟩ := hw.shows A
  obtain ⟨⟨e, t⟩, h, hrun, he, hsame, hshows', hview, hquiet⟩ :=
    ebInsertBuffer_spec hshows (hw.table A) hB hgrant hsrc hok hdis hlog ho hs
  have ho' : destOffset ≤ d.text.length := by rw [← hB.total, ← hshows.total]; exact ho
  obtain ⟨hstands, hok', -⟩ := ebInsertBuffer_stands hB hok destOffset srcOffset size ho' hs
  simp only at he hsame hshows' hview hquiet
  rw [← hview] at hok'
  refine ⟨e, t, h, hrun, hw.edit he hshows' hstands, he.frame.willing hgrant, hw.edit_alone he, hsame, hok', hquiet, ?_⟩
  have htext : w.text A = d.text := by
    rw [World.text, hshows.text]
    exact hB.text
  rw [hshows'.text, htext, ← Doc.insertBlock_text]
  exact hstands.text

/-- `eb_insert_buffer` on two texts. -/
theorem Call.run_insertBuffer {w : World} (hw : w.Ok) (hgrant : w.heap.Willing) {dest destOffset src srcOffset size : Nat}
    (hc : (Call.insertBuffer dest destOffset src srcOffset size).Allowed w) :
    ∃ w', (Call.insertBuffer dest destOffset src srcOffset size).run w = .ok w' ∧ w'.Ok ∧ w'.heap.Willing ∧
      LeavesAlone dest w w' ∧ w'.text dest = insertAt (w.text dest) destOffset (slice (w.text src) srcOffset size) := by
  obtain ⟨hne, hdest, hsrc⟩ := hc
  have hdis := hw.apart src dest (Ne.symm hne)
  rw [EditBuffer.pages, owned_append, List.disjoint_append_left] at hdis
  have hdisText := hdis.1
  rw [EditBuffer.pages, owned_append, List.disjoint_append_right] at hdisText
  obtain ⟨S, ds, hS, hstands⟩ := hw.shows src
  have hok : ((w.buffers src).toPages.view w.heap).Ok := by
    rw [hS.text]
    exact hstands.ok
  obtain ⟨e, t, h, hrun, hw₁, hgrant₁, halone, hsame, hok', -, htext⟩ :=
    hw.insertBuffer hgrant (hw.text src) hok hdisText.1 (fun _ => hdis.1) hdest hsrc
  have hsame₁ : t.pageTable = (Function.update w.buffers dest e src).pageTable := by
    rw [Function.update_of_ne (Ne.symm hne), hsame]
  obtain ⟨hw₂, hcache⟩ := hw₁.recacheText hsame₁ hok'
  refine ⟨_, ?_, hw₂, hgrant₁, halone.recache rfl hcache, (hcache dest).1.trans ?_⟩
  · simp only [Call.run, hrun]
    rfl
  · refine Eq.trans ?_ htext
    simp only [World.text, Function.update_self]

/-- One call: it returns, keeps the invariant and leaves everything else alone. -/
theorem Call.run_isolated {w : World} (hw : w.Ok) (hgrant : w.heap.Willing) {c : Call} (hc : c.Allowed w) :
    ∃ w', c.run w = .ok w' ∧ w'.Ok ∧ w'.heap.Willing ∧ LeavesAlone c.dest w w' := by
  cases c with
  | map b ino file =>
    dsimp only [Call.run, Call.dest]
    obtain ⟨hnone, hcur⟩ := hc
    obtain ⟨B, d, hs, hB⟩ := hw.shows b
    have hBcur : B.curPage = none := by rw [← hcur, ← hs.text]; rfl
    have htext : d.text = [] := by
      rw [← hB.text, ← hs.text, Pages.view, hnone]
      rfl
    refine Call.edit_spec hw hgrant (mmapBuffer_stands hB htext hBcur ino file) ?_
    exact mmapBuffer_spec hs (hw.table b) hnone ino file
  | insert b offset buf =>
    dsimp only [Call.run, Call.dest]
    obtain ⟨B, d, hs, hB⟩ := hw.shows b
    have ho : offset ≤ d.text.length := by rw [← hB.total, ← hs.total]; exact hc
    refine Call.edit_spec hw hgrant (ebInsert_stands hB ho buf) ?_
    exact ebInsert_spec hs (hw.table b) hB hgrant hc buf
  | delete b offset size =>
    dsimp only [Call.run, Call.dest]
    obtain ⟨B, d, hs, hB⟩ := hw.shows b
    have ho : offset < d.text.length → offset + size ≤ d.text.length := by rw [← hB.total, ← hs.total]; exact hc
    refine Call.edit_spec hw hgrant (ebDelete_stands hB offset size ho) ?_
    exact ebDelete_spec hs (hw.table b) hB hgrant hc
  | write b offset buf =>
    dsimp only [Call.run, Call.dest]
    obtain ⟨B, d, hs, hB⟩ := hw.shows b
    have ho : offset ≤ d.text.length := by rw [← hB.total, ← hs.total]; exact hc
    refine Call.edit_spec hw hgrant (ebWrite_stands hB buf ho) ?_
    exact ebWrite_spec hs (hw.table b) hB hgrant hc buf
  | insertBuffer dest destOffset src srcOffset size =>
    obtain ⟨w', hrun, hw', hgrant', halone, -⟩ := Call.run_insertBuffer hw hgrant hc
    exact ⟨w', hrun, hw', hgrant', halone⟩
  | insertLog dest destOffset src srcOffset size =>
    obtain ⟨hown, hdest, hsrc⟩ := hc
    have hdis := hw.log_apart src dest
    obtain ⟨S, ds, hS, hstands⟩ := hw.shows src
    have hok : ((w.log src).view w.heap).Ok := by
      rw [World.log, ← hS.getD_log]
      exact hstands.log.ok
    have hne : (w.buffers dest).saveLog = true → src ≠ dest := by
      intro hsave hi
      rw [hown hi.symm] at hsave
      cases hsave
    obtain ⟨e, t, h, hrun, hw₁, hgrant₁, halone, hsame, hok', hquiet, -⟩ :=
      hw.insertBuffer hgrant (hw.log src) hok hdis.1 (fun hsave => hdis.2 (hne hsave)) hdest hsrc
    have hsame₁ : t.pageTable = ((Function.update w.buffers dest e src).logBuffer.getD Pages.empty).pageTable := by
      by_cases hi : src = dest
      · rw [hi, Function.update_self, hquiet (hown hi.symm), hsame, hi]
        rfl
      · rw [Function.update_of_ne hi, hsame]
        rfl
    obtain ⟨hw₂, hcache⟩ := hw₁.recacheLog hsame₁ hok'
    refine ⟨_, ?_, hw₂, hgrant₁, halone.recache rfl hcache⟩
    simp only [Call.run, hrun]
    rfl

/-- In a sequence of calls in which no copy is refused its memory, the buffers stay apart. -/
theorem sharing_isolated {w : World} (hw : w.Ok) (hgrant : w.heap.Willing) {cs : List Call} (hcs : AllAllowed w cs) :
    Isolated w cs := by
  induction cs generalizing w with
  | nil => trivial
  | cons c cs ih =>
    obtain ⟨hc, hrest⟩ := hcs
    obtain ⟨w', hrun, hw', hgrant', halone⟩ := Call.run_isolated hw hgrant hc
    simp only [hrun] at hrest
    simp only [Isolated, hrun]
    exact ⟨halone, ih hw' hgrant' hrest⟩

/-- A file is mapped into one buffer and copied into another, so that both point at it; then both are changed. -/
theorem sharing_isolated_mapped :
    Isolated (World.new [true, true, true] true)
      [.map 0 7 [1, 2, 3], .insertBuffer 1 0 0 0 3, .write 0 1 [9], .delete 1 0 2] :=
  sharing_isolated (World.ok_new _ _) (by unfold Heap.Willing; decide) (by decide +kernel)

/-- The copy of a mapped page is refused its memory, and `eb_write` writes to the mapped file. -/
theorem not_isolated_refused : ¬∀ (w : World) (cs : List Call), w.Ok → AllAllowed w cs → Isolated w cs := by
  intro hall
  obtain ⟨-, hwrite⟩ :=
    hall (World.new [false] false) [.map 0 7 [1, 2, 3], .write 0 1 [9]] (World.ok_new _ _) (by decide +kernel)
  exact hwrite

end Hoe.InMemory
