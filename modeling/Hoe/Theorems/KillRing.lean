import Hoe.YankRing
import Hoe.Lemmas.Editor
import Hoe.Lib.RingBuffer

/-!
# The kill ring

Kills go one slot on, yank-pops one slot back, and a yank-pop takes away what was yanked before by undoing the last change. This
cycles through the kills exactly when no empty slot comes up on the way: `do_yank` has nothing to insert there, and the next
undo brings the text of the kill before it back.
-/

namespace Hoe

open Splice RingBuffer Editor

/-! ## What a kill and a yank do to the ring

The ring as the kills have left it, and the window that yanks from it: `Turned` says how far a window has gone back in the ring,
`AtPoint` what its buffer means and where its point is.
-/

/-- What a slot of the ring holds: nothing, or a buffer with the text of a kill. -/
def YankBuffer.Keeps : YankBuffer → Option (List Byte) → Prop
  | .null, none => True
  | .own b, some text => b.WellFormed ∧ b.bytes = text
  | _, _ => False

/-- The ring after kills of the texts, newest first. -/
def YankRing.Killed (ring : YankRing) (texts : List (List Byte)) : Prop :=
  RingBuffer.Holds YankBuffer.Keeps nbYankBuffers ring.yankBuffers ring.yankCurrent texts

theorem YankRing.killed_empty : YankRing.empty.Killed [] := RingBuffer.Holds.empty trivial (by decide)

/-- A buffer whose pages were read. -/
theorem Stands.reread {b : EditBuffer} {d : Doc} (h : Stands b d) {t : Pages} (ht : t.Ok) (hb : t.bytes = b.bytes) :
    Stands { b with toPages := t } d :=
  h.toHeld.standsText ht (hb.trans h.text)

/-! ## Kills -/

/-- A kill that a writable buffer allows: its region is not empty. -/
structure Kill.Ready (k : Kill) : Prop where
  wf : k.window.buffer.WellFormed
  writable : k.window.buffer.readOnly = false
  nonneg : 0 ≤ (k.window.killedRegion k.kill).1
  lt : (k.window.killedRegion k.kill).1 < (k.window.killedRegion k.kill).2
  le : (k.window.killedRegion k.kill).2 ≤ k.window.total

namespace Kill

variable {k : Kill} {ring : YankRing} {texts : List (List Byte)}

theorem Ready.text_ne_nil (h : k.Ready) : k.text ≠ [] := by
  have htotal := Editor.total_eq h.wf
  have hlt := h.lt
  have hle := h.le
  have hnonneg := h.nonneg
  intro hnil
  have hlen := congrArg List.length hnil
  rw [text, length_slice _ (by omega), List.length_nil] at hlen
  omega

end Kill

namespace Editor

variable {ed : Editor} {texts : List (List Byte)}

/-- The slot of a new yank buffer is not that of the window, and what goes into it is the newest text. -/
theorem newYankBuffer_spec (hr : ed.yankRing.Killed texts) : ∃ ed', ed.newYankBuffer = some ed' ∧ ed'.buffer = ed.buffer ∧
    ∀ b : EditBuffer, b.WellFormed → (ed'.setYankBuffer b).yankRing.Killed (b.bytes :: texts) := by
  obtain ⟨a, ha, hkeeps⟩ := hr.slot (nbYankBuffers - 1) (by decide)
  rw [back_last hr.lt] at ha
  have hne : ed.yankBuffers.getD (next nbYankBuffers ed.yankCurrent) .null ≠ .window := by
    intro hwindow
    have hget : ed.yankBuffers.getD (next nbYankBuffers ed.yankCurrent) .null = a :=
      (List.getD_eq_getElem?_getD ..).trans (congrArg (·.getD .null) ha)
    rw [hget] at hwindow
    rw [hwindow] at hkeeps
    exact hkeeps
  refine ⟨_, if_neg hne, rfl, fun b hb => ?_⟩
  have hring : ((({ ed with yankCurrent := next nbYankBuffers ed.yankCurrent } : Editor).setYankBuffer
      (EditBuffer.new false)).setYankBuffer b).yankRing =
        ⟨ed.yankBuffers.set (next nbYankBuffers ed.yankCurrent) (.own b), next nbYankBuffers ed.yankCurrent⟩ := by
    simp [yankRing, setYankBuffer]
  exact hring ▸ hr.push ⟨hb, rfl⟩

/-- A part of the text goes into a new buffer, and the text stays as it is. -/
theorem ebInsertBufferFrom_spec (h : ed.buffer.WellFormed) {o n : Nat} (hle : o + n ≤ ed.buffer.bytes.length) :
    ∃ r, ed.ebInsertBufferFrom (EditBuffer.new false) 0 o n = some r ∧ r.1.WellFormed ∧
      r.1.bytes = slice ed.buffer.bytes o n ∧ r.2.buffer.WellFormed ∧ r.2.buffer.bytes = ed.buffer.bytes ∧
      r.2.yankBuffers = ed.yankBuffers ∧ r.2.yankCurrent = ed.yankCurrent := by
  have htotal := total_eq h
  obtain ⟨d, hd⟩ := h
  obtain ⟨hinserted, hok, hsame⟩ := ebInsertBuffer_stands (new_stands false) hd.ok 0 o n (Nat.zero_le _)
    (by rw [hd.total, ← hd.text]; exact hle)
  have hin : (0 : Int) ≤ 0 ∧ (0 : Int) ≤ (EditBuffer.new false).totalSize ∧ (0 : Int) ≤ o ∧ (0 : Int) ≤ n ∧
      (o : Int) + n ≤ ed.total := by
    refine ⟨Int.le_refl 0, Int.natCast_nonneg _, Int.natCast_nonneg _, Int.natCast_nonneg _, ?_⟩
    omega
  have hbytes := hinserted.text
  rw [Doc.insertBlock_text, insertAt, Doc.new, List.take_nil, List.drop_nil, List.nil_append, List.append_nil] at hbytes
  exact ⟨_, if_pos hin, ⟨_, hinserted⟩, hbytes, ⟨d, hd.reread hok hsame⟩, hsame, rfl, rfl⟩

end Editor

/-- A kill goes into the ring. -/
theorem Kill.Ready.run {k : Kill} (h : k.Ready) {ring : YankRing} {texts : List (List Byte)} (hr : ring.Killed texts) :
    ∃ ring', k.run ring = some ring' ∧ ring'.Killed (k.text :: texts) := by
  have htotal := Editor.total_eq h.wf
  have hlt := h.lt
  have hle := h.le
  obtain ⟨o, ho⟩ := Int.eq_ofNat_of_zero_le h.nonneg
  obtain ⟨n, hn⟩ := Int.eq_ofNat_of_zero_le (show 0 ≤ (k.window.killedRegion k.kill).2 - (k.window.killedRegion k.kill).1 by omega)
  have hfit : o + n ≤ k.window.buffer.bytes.length := by omega
  have htext : k.text = slice k.window.buffer.bytes o n := by
    rw [text, hn, ho]
    rfl
  -- the new buffer, then the copy
  have hr₀ : (k.window.withYankRing ring).yankRing.Killed texts := hr
  obtain ⟨ed₁, hnew, hbuffer, hkilled⟩ := Editor.newYankBuffer_spec hr₀
  have hbuffer₁ : ed₁.buffer = k.window.buffer := hbuffer
  obtain ⟨r, hcopy, hwf, hbytes, hwf₂, hbytes₂, hbuffers, hcurrent⟩ :=
    Editor.ebInsertBufferFrom_spec (show ed₁.buffer.WellFormed from hbuffer₁ ▸ h.wf) (o := o) (n := n)
      (by rw [hbuffer₁]; exact hfit)
  have hring : (r.2.setYankBuffer r.1).yankRing.Killed (k.text :: texts) := by
    have hset : (r.2.setYankBuffer r.1).yankRing = (ed₁.setYankBuffer r.1).yankRing := by
      simp only [Editor.yankRing, Editor.setYankBuffer, hbuffers, hcurrent]
    rw [hset, htext, ← hbuffer₁, ← hbytes]
    exact hkilled r.1 hwf
  have hrun : (k.window.withYankRing ring).doKillRegion k.kill = if k.kill = 0 then some (r.2.setYankBuffer r.1) else
      ((r.2.setYankBuffer r.1).ebDelete o n).bind fun ed => some { ed with offset := (o : Int) } := by
    have hwritable : (k.window.withYankRing ring).buffer.readOnly = false := h.writable
    have h₁ : ((k.window.withYankRing ring).killedRegion k.kill).1 = (o : Int) := ho
    have hlen : ((k.window.withYankRing ring).killedRegion k.kill).2 - (o : Int) = (n : Int) := by
      rw [← h₁]
      exact hn
    simp only [Editor.doKillRegion, hwritable, Bool.false_eq_true, if_false, h₁, hlen, hnew, hcopy, Option.bind_eq_bind,
      Option.bind_some]
  rw [Kill.run, hrun]
  by_cases hkill : k.kill = 0
  · rw [if_pos hkill]
    exact ⟨_, rfl, hring⟩
  · rw [if_neg hkill]
    have hlength : (r.2.setYankBuffer r.1).buffer.bytes.length = k.window.buffer.bytes.length := by
      rw [← hbuffer₁, ← hbytes₂]
      rfl
    obtain ⟨ed, hed, hedited⟩ := Editor.ebDelete_spec (show (r.2.setYankBuffer r.1).buffer.WellFormed from hwf₂) (o := o) (w := n)
      (by rw [hlength]; omega) (by rw [hlength]; exact hfit)
    have hsame : ({ ed with offset := (o : Int) } : Editor).yankRing = (r.2.setYankBuffer r.1).yankRing := by
      rw [hedited.rest]
      rfl
    rw [hed, Option.bind_some, Option.map_some, hsame]
    exact ⟨_, rfl, hring⟩

/-- After a sequence of kills the ring has the newest of them. -/
theorem killAll_spec {kills : List Kill} (hk : ∀ k ∈ kills, k.Ready) {ring : YankRing} {texts : List (List Byte)}
    (hr : ring.Killed texts) :
    ∃ ring', killAll ring kills = some ring' ∧ ring'.Killed ((kills.map Kill.text).reverse ++ texts) := by
  induction kills generalizing ring texts with
  | nil => exact ⟨ring, rfl, hr⟩
  | cons k kills ih =>
    obtain ⟨hready, hk⟩ := List.forall_mem_cons.mp hk
    obtain ⟨ring₁, hrun, hr₁⟩ := hready.run hr
    obtain ⟨ring', hall, hr'⟩ := ih hk hr₁
    refine ⟨ring', ?_, ?_⟩
    · rw [killAll, List.foldlM_cons, hrun]
      exact hall
    · rw [List.map_cons, List.reverse_cons, List.append_assoc]
      exact hr'

/-! ## Yanks -/

namespace Editor

/-- The buffer of the window stands for the document, and the point is at the offset. -/
structure AtPoint (ed : Editor) (d : Doc) (o : Nat) : Prop where
  stands : Stands ed.buffer d
  writable : d.readOnly = false
  offset : ed.offset = o
  le : o ≤ d.text.length

/-- The window has gone back in the ring, once for each of `n` yank-pops. -/
structure Turned (ed : Editor) (top : Nat) (texts : List (List Byte)) (n : Nat) : Prop where
  holds : RingBuffer.Holds YankBuffer.Keeps nbYankBuffers ed.yankBuffers top texts
  current : ed.yankCurrent = back nbYankBuffers top (n % nbYankBuffers)

/-- The text in the slot that the window has gone back to, if there is one. -/
def yanked (texts : List (List Byte)) (n : Nat) : List Byte := texts.getD (n % nbYankBuffers) []

variable {d : Doc} {o top n : Nat}

/-- The whole of another buffer goes into the text. -/
theorem ebInsertBufferInto_spec (hd : Stands ed.buffer d) (ho : o ≤ d.text.length) {b : EditBuffer} (hb : b.WellFormed)
    (hne : b.bytes ≠ []) :
    ∃ r, ed.ebInsertBufferInto o b 0 b.totalSize = some r ∧ Stands r.1.buffer (d.insert o b.bytes) ∧
      Edited ed ⟨.insert, o, b.bytes.length⟩ (insertAt d.text o b.bytes) r.1 ∧ r.2.WellFormed ∧ r.2.bytes = b.bytes := by
  obtain ⟨e, he⟩ := hb
  have hsize : b.totalSize = b.bytes.length := by rw [he.total, he.text]
  obtain ⟨hinserted, hok, hsame⟩ := ebInsertBuffer_stands hd he.ok o 0 b.totalSize ho (Nat.le_of_eq (Nat.zero_add _))
  have hslice : slice b.toPages.bytes 0 b.totalSize = b.bytes := by rw [slice, List.drop_zero, hsize, List.take_length]
  have hdoc : d.insertBlock o b.bytes = d.insert o b.bytes := if_neg hne
  rw [hslice, hdoc] at hinserted
  have hin : (0 : Int) ≤ o ∧ (o : Int) ≤ ed.total ∧ (0 : Int) ≤ 0 ∧ (0 : Int) ≤ b.totalSize ∧
      (0 : Int) + b.totalSize ≤ b.totalSize := by
    rw [total, hd.total]
    omega
  exact ⟨_, if_pos hin, hinserted, edited_of_stands hd hinserted (by simp [Doc.insert]) (by simp [Doc.insert])
    (by simp [Doc.insert]), ⟨e, he.reread hok hsame⟩, hsame⟩

/-- A yank inserts what is in the slot and goes behind it. -/
theorem doYank_spec (h : AtPoint ed d o) (ht : Turned ed top texts n) : ∃ ed', ed.doYank = some ed' ∧
    AtPoint ed' (d.insertBlock o (yanked texts n)) (o + (yanked texts n).length) ∧ Turned ed' top texts n := by
  have hlt : n % nbYankBuffers < nbYankBuffers := Nat.mod_lt n (by decide)
  obtain ⟨a, ha, hkeeps⟩ := ht.holds.slot _ hlt
  have hget : ed.yankBuffers.getD ed.yankCurrent .null = a := by
    rw [ht.current, List.getD_eq_getElem?_getD, ha, Option.getD_some]
  have hwritable : ed.buffer.readOnly = false := h.stands.readOnly.trans h.writable
  have hyanked : yanked texts n = texts[n % nbYankBuffers]?.getD [] := List.getD_eq_getElem?_getD ..
  rw [hyanked]
  rw [doYank, hwritable, hget]
  cases a with
  | null =>
    cases htext : texts[n % nbYankBuffers]? with
    | none => exact ⟨ed, rfl, h, ht⟩
    | some text =>
      rw [htext] at hkeeps
      exact hkeeps.elim
  | window =>
    cases htext : texts[n % nbYankBuffers]? <;> exact hkeeps.elim
  | own b =>
    cases htext : texts[n % nbYankBuffers]? with
    | none =>
      rw [htext] at hkeeps
      exact hkeeps.elim
    | some text =>
      rw [htext] at hkeeps
      obtain ⟨⟨d', hd'⟩, rfl⟩ := hkeeps
      have hsize : b.totalSize = b.bytes.length := by rw [hd'.total, hd'.text]
      rw [Option.getD_some]
      by_cases hz : b.bytes = []
      · have hz' : ¬0 < b.totalSize := by rw [hsize, hz]; exact Nat.lt_irrefl 0
        simp only [Bool.false_eq_true, if_false, if_neg hz']
        refine ⟨ed, rfl, ?_, ht⟩
        rw [hz]
        exact h
      · have hz' : 0 < b.totalSize := by rw [hsize]; exact List.length_pos_iff.mpr hz
        have hdoc : d.insertBlock o b.bytes = d.insert o b.bytes := if_neg hz
        obtain ⟨r, hr, hstands, hedited, hwf, hbytes⟩ := ebInsertBufferInto_spec h.stands h.le ⟨d', hd'⟩ hz
        have hoffset : r.1.offset = o := by
          rw [hedited.offset, h.offset]
          exact if_neg (lt_irrefl (o : Int))
        have hcurrent : r.1.yankCurrent = back nbYankBuffers top (n % nbYankBuffers) := by
          rw [hedited.rest]
          exact ht.current
        simp only [Bool.false_eq_true, if_false, if_pos hz', h.offset, hr, Option.bind_eq_bind, Option.bind_some]
        rw [hdoc]
        refine ⟨_, rfl, ⟨hstands, ?_, ?_, ?_⟩, ?_, hcurrent⟩
        · simpa [Doc.insert] using h.writable
        · simp only [setYankBuffer, hoffset, hsize, Nat.cast_add]
        · have hle := h.le
          simp only [Doc.insert, length_insertAt]
          omega
        · have hkept : r.1.yankBuffers = ed.yankBuffers := by rw [hedited.rest]
          simp only [setYankBuffer, hkept, hcurrent]
          refine ht.holds.replace hlt ?_
          rw [htext]
          exact ⟨hwf, hbytes⟩

/-- Undoing what was inserted last. -/
theorem doUndo_insert {p : Nat} {text : List Byte} (h : AtPoint ed (d.insert o text) p) (hs : d.saveLog = true)
    (ho : o ≤ d.text.length) (hne : text ≠ []) :
    ∃ ed' d', ed.doUndo false = some ed' ∧ AtPoint ed' d' o ∧ d'.text = d.text ∧ d'.saveLog = true ∧
      ed'.yankBuffers = ed.yankBuffers ∧ ed'.yankCurrent = ed.yankCurrent := by
  have hpos := List.length_pos_iff.mpr hne
  obtain ⟨hentries, -, hhas, -⟩ := Doc.addlog_logged hs .insert o text.length
  have hnext : ((d.insert o text).start false).next = some (.insert d.modified o text.length) := by
    have hlast : (d.insert o text).entries = (d.tell ⟨.insert, o, text.length⟩).evict.entries ++
        [.insert d.modified o text.length] := hentries
    simp [Doc.next, Doc.left, Doc.start, hlast]
  have hlen : ((d.insert o text).start false).text.length = d.text.length + text.length := by
    rw [Doc.start_text, Doc.insert, length_insertAt]
  have hfit : ∀ e, ((d.insert o text).start false).next = some e → e.Fits (d.insert o text).text.length := by
    intro e he
    rw [hnext] at he
    obtain rfl := Option.some.inj he
    intro _
    rw [← Doc.start_text (d.insert o text) false]
    omega
  obtain ⟨hstands, hanswer⟩ := doUndo_stands h.stands hfit
  -- the document that is left when the insertion is played
  obtain ⟨e, he⟩ : ∃ e, e = { (d.insert o text).start false with pos := some (((d.insert o text).start false).left - 1) } :=
    ⟨_, rfl⟩
  have hetext : e.text = insertAt d.text o text := by rw [he]; exact Doc.start_text (d.insert o text) false
  have hundo : (d.insert o text).undo false = ({ e.delete o text.length with modified := d.modified }, some o, .undo) := by
    have hhas' : (d.insert o text).hasLog = true := hhas
    rw [Doc.undo, if_pos hhas', Doc.undoStep, hnext, ← he]
    rfl
  have hdelete : e.delete o text.length =
      { e.addlog .delete o text.length with text := removeAt (insertAt d.text o text) o text.length } := by
    have hin : ¬e.text.length ≤ o := by
      rw [hetext, length_insertAt]
      omega
    rw [Doc.delete, if_neg hin, hetext]
  rw [hundo] at hstands hanswer
  have hundone : ed.doUndo false =
      some { ed.changed (Hoe.doUndo false ed.buffer).1 with offset := (o : Int) } := by
    simp only [doUndo, hanswer]
    rfl
  have htext : (e.delete o text.length).text = d.text := by
    rw [hdelete]
    exact removeAt_insertAt d.text text ho
  refine ⟨_, _, hundone, ⟨hstands, ?_, rfl, ?_⟩, htext, ?_, rfl, rfl⟩
  · have hwritable : e.readOnly = false := by rw [he]; exact h.writable
    simp [hdelete, hwritable]
  · exact le_of_le_of_eq ho (congrArg List.length htext).symm
  · have hsave : e.saveLog = true := by rw [he]; exact (Doc.addlog_saveLog d .insert o text.length).trans hs
    simp [hdelete, hsave]

/-- Undoing in a buffer that keeps no log. -/
theorem doUndo_quiet {ed : Editor} (hlog : ed.buffer.logBuffer = none) : ed.doUndo false = some ed := by
  have hundone : Hoe.doUndo false ed.buffer = (ed.buffer, none, .silent) := by rw [Hoe.doUndo, hlog]
  have hchanged : ed.changed ed.buffer = ed := by simp [changed]
  rw [Editor.doUndo, hundone, hchanged]
  rfl

/-! ## Yank-pops -/

theorem AtPoint.turn (h : AtPoint ed d o) (i : Nat) : AtPoint { ed with yankCurrent := i } d o :=
  ⟨h.stands, h.writable, h.offset, h.le⟩

/-- One slot back. -/
theorem Turned.back (ht : Turned ed top texts n) : Turned
    { ed with yankCurrent := if ed.yankCurrent = 0 then nbYankBuffers - 1 else ed.yankCurrent - 1 } top texts (n + 1) :=
  ⟨ht.holds, (congrArg (prev nbYankBuffers) ht.current).trans (prev_back ht.holds.lt n)⟩

/-- Where the text of the slot was yanked, a yank-pop takes it away and yanks the next one. -/
theorem doYankPop_logged (h : AtPoint ed (d.insertBlock o (yanked texts n)) (o + (yanked texts n).length))
    (hs : d.saveLog = true) (ho : o ≤ d.text.length) (hne : yanked texts n ≠ []) (ht : Turned ed top texts n) :
    ∃ (ed' : Editor) (d' : Doc), ed.doYankPop false = some ed' ∧ d'.text = d.text ∧ d'.saveLog = true ∧
      AtPoint ed' (d'.insertBlock o (yanked texts (n + 1))) (o + (yanked texts (n + 1)).length) ∧
      Turned ed' top texts (n + 1) := by
  have hdoc : d.insertBlock o (yanked texts n) = d.insert o (yanked texts n) := if_neg hne
  rw [hdoc] at h
  obtain ⟨ed₁, d₁, hundo, hat, htext, hsave, hbuffers, hcurrent⟩ := doUndo_insert h hs ho hne
  have ht₁ : Turned ed₁ top texts n := ⟨hbuffers ▸ ht.holds, hcurrent.trans ht.current⟩
  obtain ⟨ed', hyank, hat', ht'⟩ := doYank_spec (hat.turn _) ht₁.back
  refine ⟨ed', d₁, ?_, htext, hsave, hat', ht'⟩
  rw [doYankPop, hundo]
  exact hyank

/-- Where nothing is logged, a yank-pop yanks the next one behind what is there. -/
theorem doYankPop_quiet (h : AtPoint ed d o) (hlog : d.hasLog = false) (ht : Turned ed top texts n) :
    ∃ ed', ed.doYankPop false = some ed' ∧
      AtPoint ed' (d.insertBlock o (yanked texts (n + 1))) (o + (yanked texts (n + 1)).length) ∧
      Turned ed' top texts (n + 1) := by
  have hnone : ed.buffer.logBuffer = none := by
    have hhas := h.stands.hasLog
    rw [hlog] at hhas
    exact Option.not_isSome_iff_eq_none.mp (by rw [← hhas]; exact Bool.false_ne_true)
  obtain ⟨ed', hyank, hat', ht'⟩ := doYank_spec (h.turn _) ht.back
  refine ⟨ed', ?_, hat', ht'⟩
  rw [doYankPop, doUndo_quiet hnone]
  exact hyank

/-- A yank and `n` yank-pops in a buffer that keeps a log leave the text of the slot alone, as long as no slot on the way was
without a text. -/
theorem yankPops_logged (h : AtPoint ed d o) (hs : d.saveLog = true) (ht : Turned ed top texts 0)
    (hne : ∀ m < n, yanked texts m ≠ []) :
    ∃ (ed' : Editor) (d' : Doc), ed.yankPops n = some ed' ∧ d'.text = d.text ∧ d'.saveLog = true ∧
      AtPoint ed' (d'.insertBlock o (yanked texts n)) (o + (yanked texts n).length) ∧ Turned ed' top texts n := by
  induction n with
  | zero =>
    obtain ⟨ed', hyank, hat, ht'⟩ := doYank_spec h ht
    exact ⟨ed', d, hyank, rfl, hs, hat, ht'⟩
  | succ n ih =>
    obtain ⟨ed₁, d₁, hrun, htext, hsave, hat, ht₁⟩ := ih fun m hm => hne m (Nat.lt_succ_of_lt hm)
    obtain ⟨ed', d', hpop, htext', hsave', hat', ht'⟩ :=
      doYankPop_logged hat hsave (by rw [htext]; exact h.le) (hne n (Nat.lt_succ_self n)) ht₁
    refine ⟨ed', d', ?_, htext'.trans htext, hsave', hat', ht'⟩
    rw [yankPops, hrun]
    exact hpop

/-- The texts that a yank and `n` yank-pops come by, one after the other. -/
def allYanked (texts : List (List Byte)) : Nat → List Byte
  | 0 => yanked texts 0
  | n + 1 => allYanked texts n ++ yanked texts (n + 1)

/-- In a buffer that keeps no log they add up. -/
theorem yankPops_quiet (h : AtPoint ed d o) (hs : d.saveLog = false) (hlog : d.hasLog = false) (ht : Turned ed top texts 0) :
    ∃ (ed' : Editor) (d' : Doc), ed.yankPops n = some ed' ∧ d'.text = insertAt d.text o (allYanked texts n) ∧ d'.saveLog = false ∧
      d'.hasLog = false ∧ AtPoint ed' d' (o + (allYanked texts n).length) ∧ Turned ed' top texts n := by
  induction n with
  | zero =>
    obtain ⟨ed', hyank, hat, ht'⟩ := doYank_spec h ht
    have hsame := Doc.insertBlock_quiet hs o (yanked texts 0)
    exact ⟨ed', _, hyank, Doc.insertBlock_text d o (yanked texts 0), hsame.saveLog.trans hs, hsame.hasLog.trans hlog, hat, ht'⟩
  | succ n ih =>
    obtain ⟨ed₁, d₁, hrun, htext, hsave, hhas, hat, ht₁⟩ := ih
    obtain ⟨ed', hpop, hat', ht'⟩ := doYankPop_quiet hat hhas ht₁
    have hsame := Doc.insertBlock_quiet hsave (o + (allYanked texts n).length) (yanked texts (n + 1))
    refine ⟨ed', _, ?_, ?_, hsame.saveLog.trans hsave, hsame.hasLog.trans hhas, ?_, ht'⟩
    · rw [yankPops, hrun]
      exact hpop
    · rw [Doc.insertBlock_text, htext, insertAt_insertAt d.text _ _ h.le]
      rfl
    · rw [allYanked, List.length_append, ← Nat.add_assoc]
      exact hat'

end Editor

/-- The text of a kill, counted from 1. -/
def killed (kills : List Kill) (i : Nat) : List Byte := (kills.map Kill.text).getD (i - 1) []

/-- After a yank and up to `j` yank-pops the buffer is what it was before, with the text of the kill whose turn it is at the
point, and the point behind it. -/
def CyclesTo (ed : Editor) (kills : List Kill) (j : Nat) : Prop :=
  ∀ i ≤ j, ∃ ed', ed.yankPops i = some ed' ∧
    ed'.buffer.bytes = insertAt ed.buffer.bytes ed.offset.toNat
      (killed kills (kills.length - i % min kills.length nbYankBuffers)) ∧
    ed'.offset = ed.offset + (killed kills (kills.length - i % min kills.length nbYankBuffers)).length

/-! ## Counting from the last kill -/

variable {kills : List Kill}

theorem killed_back {m : Nat} (hm : m < kills.length) :
    killed kills (kills.length - m) = (kills.map Kill.text).reverse.getD m [] := by
  rw [killed, List.getD_eq_getElem?_getD, List.getD_eq_getElem?_getD, List.getElem?_reverse (by simpa using hm), List.length_map]
  exact congrArg (fun i => (kills.map Kill.text)[i]?.getD []) (by omega)

theorem killed_ne_nil (hk : ∀ k ∈ kills, k.Ready) {i : Nat} (hi : 0 < i) (hle : i ≤ kills.length) : killed kills i ≠ [] := by
  have hlt : i - 1 < kills.length := by omega
  rw [killed, List.getD_eq_getElem?_getD, List.getElem?_map, List.getElem?_eq_getElem hlt]
  exact (hk _ (List.getElem_mem hlt)).text_ne_nil

/-- The slots that kills have reached hold their texts. -/
theorem yanked_eq_killed {n : Nat} (hn : n % nbYankBuffers < kills.length) :
    yanked (kills.map Kill.text).reverse n = killed kills (kills.length - n % nbYankBuffers) := (killed_back hn).symm

theorem yanked_eq_nil {n : Nat} (hn : kills.length ≤ n % nbYankBuffers) : yanked (kills.map Kill.text).reverse n = [] := by
  rw [yanked, List.getD_eq_getElem?_getD, List.getElem?_eq_none (by simpa using hn)]
  rfl

theorem yanked_ne_nil (hk : ∀ k ∈ kills, k.Ready) {n : Nat} (hn : n % nbYankBuffers < kills.length) :
    yanked (kills.map Kill.text).reverse n ≠ [] := by
  rw [yanked_eq_killed hn]
  exact killed_ne_nil hk (by omega) (Nat.sub_le _ _)

theorem insertAt_right_inj {l xs ys : List Byte} {o : Nat} (h : insertAt l o xs = insertAt l o ys) : xs = ys := by
  rw [insertAt, insertAt, List.append_assoc, List.append_assoc] at h
  exact List.append_cancel_right (List.append_cancel_left h)

/-! ## Buffers with a log and without one -/

variable {ed : Editor} {d : Doc} {o top j : Nat}

/-- Where a log is kept, yank-pops cycle as long as there is a kill for each slot they come by. -/
theorem cycles_logged_iff (hne : kills ≠ []) (hk : ∀ k ∈ kills, k.Ready) (h : AtPoint ed d o) (hs : d.saveLog = true)
    (ht : Turned ed top (kills.map Kill.text).reverse 0) :
    CyclesTo ed kills j ↔ j < kills.length ∨ nbYankBuffers ≤ kills.length := by
  have hpos := List.length_pos_iff.mpr hne
  have hlt (n : Nat) : n % nbYankBuffers < nbYankBuffers := Nat.mod_lt n (by decide)
  have hoffset : ed.offset.toNat = o := by rw [h.offset, Int.toNat_natCast]
  constructor
  · intro hcycles
    by_contra hcon
    rw [not_or, not_lt, not_le] at hcon
    obtain ⟨hj, hten⟩ := hcon
    -- the slot that `kills.length` yank-pops lead to is empty
    have hfirst : ∀ m < kills.length, yanked (kills.map Kill.text).reverse m ≠ [] := by
      intro m hm
      exact yanked_ne_nil hk (by rw [Nat.mod_eq_of_lt (by omega)]; exact hm)
    obtain ⟨ed', d', hrun, htext, -, hat, -⟩ := yankPops_logged h hs ht hfirst
    obtain ⟨ed'', hrun', hbytes, -⟩ := hcycles kills.length hj
    obtain rfl : ed' = ed'' := Option.some.inj (hrun.symm.trans hrun')
    rw [hat.stands.text, Doc.insertBlock_text, htext, h.stands.text, hoffset] at hbytes
    have hsame := insertAt_right_inj hbytes
    rw [yanked_eq_nil (by rw [Nat.mod_eq_of_lt hten]), Nat.min_eq_left (by omega), Nat.mod_self] at hsame
    exact killed_ne_nil hk hpos (Nat.le_refl _) hsame.symm
  · intro hall i hi
    have hreach : ∀ m ≤ i, m % nbYankBuffers < kills.length := by
      intro m hm
      rcases hall with hj | hten
      · exact Nat.lt_of_le_of_lt (Nat.mod_le m nbYankBuffers) (by omega)
      · exact Nat.lt_of_lt_of_le (hlt m) hten
    obtain ⟨ed', d', hrun, htext, -, hat, -⟩ :=
      yankPops_logged h hs ht fun m hm => yanked_ne_nil hk (hreach m (Nat.le_of_lt hm))
    have hturn : i % min kills.length nbYankBuffers = i % nbYankBuffers := by
      rcases hall with hj | hten
      · by_cases hten : nbYankBuffers ≤ kills.length
        · rw [Nat.min_eq_right hten]
        · rw [Nat.min_eq_left (by omega), Nat.mod_eq_of_lt (by omega), Nat.mod_eq_of_lt (by omega)]
      · rw [Nat.min_eq_right hten]
    rw [hturn, ← yanked_eq_killed (hreach i (Nat.le_refl i))]
    refine ⟨ed', hrun, ?_, ?_⟩
    · rw [hat.stands.text, Doc.insertBlock_text, htext, h.stands.text, hoffset]
    · rw [hat.offset, h.offset, Nat.cast_add]

/-- With one kill, nothing more is yanked until the ring has gone round. -/
theorem allYanked_one {n : Nat} (hone : kills.length = 1) (hn : n < nbYankBuffers) :
    allYanked (kills.map Kill.text).reverse n = killed kills 1 := by
  induction n with
  | zero =>
    rw [allYanked, yanked_eq_killed (by rw [hone]; decide), hone]
    rfl
  | succ n ih =>
    rw [allYanked, ih (by omega), yanked_eq_nil (by rw [hone, Nat.mod_eq_of_lt hn]; exact Nat.le_add_left 1 n), List.append_nil]

/-- Where no log is kept, nothing is taken away: the first yank-pop that yanks anything spoils the text. -/
theorem cycles_quiet_iff (hne : kills ≠ []) (hk : ∀ k ∈ kills, k.Ready) (h : AtPoint ed d o) (hs : d.saveLog = false)
    (hlog : d.hasLog = false) (ht : Turned ed top (kills.map Kill.text).reverse 0) :
    CyclesTo ed kills j ↔ j = 0 ∨ (kills.length = 1 ∧ j < nbYankBuffers) := by
  have hpos := List.length_pos_iff.mpr hne
  have hoffset : ed.offset.toNat = o := by rw [h.offset, Int.toNat_natCast]
  -- the text tells what was yanked
  have htold {i : Nat} (hi : i ≤ j) (hcycles : CyclesTo ed kills j) : allYanked (kills.map Kill.text).reverse i =
      killed kills (kills.length - i % min kills.length nbYankBuffers) := by
    obtain ⟨ed', d', hrun, htext, -, -, hat, -⟩ := yankPops_quiet (n := i) h hs hlog ht
    obtain ⟨ed'', hrun', hbytes, -⟩ := hcycles i hi
    obtain rfl : ed' = ed'' := Option.some.inj (hrun.symm.trans hrun')
    rw [hat.stands.text, htext, h.stands.text, hoffset] at hbytes
    exact insertAt_right_inj hbytes
  constructor
  · intro hcycles
    by_contra hcon
    obtain ⟨hj, hcon⟩ := not_or.mp hcon
    by_cases hone : kills.length = 1
    · -- the ring has gone round to the only kill
      have hten : nbYankBuffers ≤ j := Nat.le_of_not_lt fun hlt => hcon ⟨hone, hlt⟩
      have hsame := htold hten hcycles
      have hlast : allYanked (kills.map Kill.text).reverse nbYankBuffers = killed kills 1 ++ killed kills 1 := by
        have hnine := allYanked_one (n := 9) hone (by decide)
        have hlt : nbYankBuffers % nbYankBuffers < kills.length := by
          rw [hone]
          decide
        have hround := yanked_eq_killed hlt
        rw [hone] at hround
        rw [show nbYankBuffers = 9 + 1 from rfl, allYanked, hnine]
        exact congrArg (killed kills 1 ++ ·) hround
      rw [hlast, hone] at hsame
      have hlen := congrArg List.length hsame
      rw [List.length_append] at hlen
      have hlong := List.length_pos_iff.mpr (killed_ne_nil hk (i := 1) (by decide) (by omega))
      simp only [Nat.min_eq_left (show 1 ≤ nbYankBuffers by decide), Nat.mod_one, Nat.sub_zero] at hlen
      omega
    · have hsame := htold (i := 1) (by omega) hcycles
      have hmod : 1 % min kills.length nbYankBuffers = 1 :=
        Nat.mod_eq_of_lt (lt_min (by omega) (by decide))
      rw [hmod, allYanked, allYanked, yanked_eq_killed (n := 1) (show 1 < kills.length by omega)] at hsame
      have hlen := congrArg List.length hsame
      have hmod' : 1 % nbYankBuffers = 1 := rfl
      rw [List.length_append, hmod'] at hlen
      have hlong := List.length_pos_iff.mpr (yanked_ne_nil hk (n := 0) hpos)
      omega
  · intro hcond i hi
    have hcount : i = 0 ∨ (kills.length = 1 ∧ i < nbYankBuffers) := by omega
    have hall : allYanked (kills.map Kill.text).reverse i =
        killed kills (kills.length - i % min kills.length nbYankBuffers) := by
      rcases hcount with rfl | ⟨hone, hlt⟩
      · rw [allYanked, yanked_eq_killed hpos, Nat.zero_mod, Nat.zero_mod]
      · rw [allYanked_one hone hlt, hone, Nat.min_eq_left (by decide), Nat.mod_one]
    obtain ⟨ed', d', hrun, htext, -, -, hat, -⟩ := yankPops_quiet (n := i) h hs hlog ht
    rw [← hall]
    refine ⟨ed', hrun, ?_, ?_⟩
    · rw [hat.stands.text, htext, h.stands.text, hoffset]
    · rw [hat.offset, h.offset, Nat.cast_add]

/-! ## The kill ring -/

/-- A yank and yank-pops behind kills cycle through them exactly when no slot without a kill comes up. A buffer without a log
only keeps up until a second text is yanked. -/
theorem kill_ring_cycles_iff (hne : kills ≠ []) (hk : ∀ k ∈ kills, k.Ready) (hwf : ed.buffer.WellFormed)
    (hw : ed.buffer.readOnly = false) (hpos : 0 ≤ ed.offset) (hle : ed.offset ≤ ed.total)
    (hlog : ed.buffer.saveLog = false → ed.buffer.logBuffer = none) :
    ∃ ring, killAll .empty kills = some ring ∧ ∀ j, CyclesTo (ed.withYankRing ring) kills j ↔
      if ed.buffer.saveLog then j < kills.length ∨ nbYankBuffers ≤ kills.length
      else j = 0 ∨ (kills.length = 1 ∧ j < nbYankBuffers) := by
  obtain ⟨ring, hall, hring⟩ := killAll_spec hk YankRing.killed_empty
  rw [List.append_nil] at hring
  refine ⟨ring, hall, fun j => ?_⟩
  have htotal := total_eq hwf
  obtain ⟨d, hd⟩ := hwf
  obtain ⟨o, ho⟩ := Int.eq_ofNat_of_zero_le hpos
  have hat : AtPoint (ed.withYankRing ring) d o :=
    ⟨hd, hd.readOnly.symm.trans hw, ho, by rw [← hd.text]; omega⟩
  have hturned : Turned (ed.withYankRing ring) ring.yankCurrent (kills.map Kill.text).reverse 0 :=
    ⟨hring, (back_zero nbYankBuffers ring.yankCurrent).symm⟩
  cases hsave : ed.buffer.saveLog with
  | true => exact cycles_logged_iff hne hk hat (hd.saveLog.symm.trans hsave) hturned
  | false =>
    have hhas : d.hasLog = false := by rw [hd.hasLog, hlog hsave]; rfl
    exact cycles_quiet_iff hne hk hat (hd.saveLog.symm.trans hsave) hhas hturned

/-! ## Two kills -/

/-- A buffer with the text `abc` and the mark at its beginning. -/
def killedBuffer : EditBuffer := { Hoe.ebInsert (EditBuffer.new true) 0 [0x61, 0x62, 0x63] with mark := 0 }

theorem killedBuffer_wf : killedBuffer.WellFormed :=
  EditBuffer.WellFormed.setMark ⟨_, ebInsert_stands (new_stands true) (Nat.zero_le _) [0x61, 0x62, 0x63]⟩ 0

/-- A kill of what is in front of the point. -/
def killTo (o : Nat) : Kill := { window := Editor.new killedBuffer .latin1 o, kill := 1 }

theorem killTo_ready {o : Nat} (hpos : 0 < o) (hle : o ≤ 3) : (killTo o).Ready := by
  have hregion : (killTo o).window.killedRegion (killTo o).kill = (0, (o : Int)) := by
    have hge : ¬(o : Int) < 0 := by omega
    exact if_neg (t := ((o : Int), (0 : Int))) hge
  have hsize : killedBuffer.totalSize = 3 := by decide
  have htotal : (killTo o).window.total = 3 := congrArg Int.ofNat hsize
  refine ⟨killedBuffer_wf, rfl, ?_, ?_, ?_⟩
  · rw [hregion]
  · rw [hregion]
    exact Int.natCast_pos.mpr hpos
  · rw [hregion, htotal]
    exact Int.ofNat_le.mpr hle

/-- A yank and a yank-pop behind two kills. -/
theorem kill_ring_cycles_two : ∃ ring, killAll .empty [killTo 1, killTo 2] = some ring ∧
    CyclesTo ((Editor.new killedBuffer .latin1 1).withYankRing ring) [killTo 1, killTo 2] 1 := by
  have hready : ∀ k ∈ [killTo 1, killTo 2], k.Ready := by
    intro k hk
    rcases List.mem_pair.mp hk with rfl | rfl
    · exact killTo_ready (by decide) (by decide)
    · exact killTo_ready (by decide) (by decide)
  have hwf : (Editor.new killedBuffer .latin1 1).buffer.WellFormed := killedBuffer_wf
  obtain ⟨ring, hall, hiff⟩ := kill_ring_cycles_iff (by decide) hready hwf rfl (by decide) (by decide) (by decide)
  exact ⟨ring, hall, (hiff 1).mpr (by decide)⟩

/-- Behind one kill the first yank-pop leaves nothing of it. -/
theorem not_kill_ring_cycles : ¬∀ (kills : List Kill) (ed : Editor), kills ≠ [] → (∀ k ∈ kills, k.Ready) →
    ed.buffer.WellFormed → ed.buffer.readOnly = false → 0 ≤ ed.offset → ed.offset ≤ ed.total →
      ∃ ring, killAll .empty kills = some ring ∧ ∀ j, CyclesTo (ed.withYankRing ring) kills j := by
  intro h
  have hready : ∀ k ∈ [killTo 1], k.Ready := by
    intro k hk
    rw [List.mem_singleton.mp hk]
    exact killTo_ready (by decide) (by decide)
  obtain ⟨ring, hall, hcycles⟩ := h [killTo 1] (Editor.new killedBuffer .latin1 1) (by decide) hready killedBuffer_wf rfl
    (by decide) (by decide)
  obtain ⟨ring', hall', hring⟩ := killAll_spec hready YankRing.killed_empty
  obtain rfl : ring' = ring := Option.some.inj (hall'.symm.trans hall)
  obtain ⟨d, hd⟩ := killedBuffer_wf
  have hlength : killedBuffer.bytes.length = 3 := by decide
  have hat : AtPoint ((Editor.new killedBuffer .latin1 1).withYankRing ring') d 1 :=
    ⟨hd, hd.readOnly.symm, rfl, by rw [← hd.text, hlength]; decide⟩
  have hcon := (cycles_logged_iff (by decide) hready hat hd.saveLog.symm
    ⟨hring, (back_zero nbYankBuffers ring'.yankCurrent).symm⟩).mp (hcycles 1)
  exact absurd hcon (by decide)

end Hoe
