import Hoe.Lib.Pattern
import Hoe.Lemmas.History

/-!
# What the log knows of the saved text

An entry that was recorded with the modified flag clear promises that the text in front of it is the saved one. The promise has
to survive an undo that records what it put back in place of what it took away, so the log is a trail of patterns
(`Hoe.Lib.Pattern`) and not of texts: a pattern leaves open the bytes that a chain of undos may find changed, and is the saved
text itself wherever an entry promises it.
-/

namespace Hoe

open Splice Pattern

/-- A pattern of a text. -/
abbrev TextPattern := List (Option Byte)

/-- The entry leads from the second pattern back to the first. One recorded with the flag clear starts from the saved text. -/
inductive Link (saved : List Byte) : TextPattern → LogEntry → TextPattern → Prop where
  | insert (p : TextPattern) (was : Bool) (offset size : Nat) (block : TextPattern) (hb : block.length = size)
      (ho : offset ≤ p.length) (hw : was = false → p = exact saved) :
    Link saved p (.insert was offset size) (insertAt p offset block)
  | delete (p : TextPattern) (was : Bool) (offset : Nat) (data : List Byte) (hs : offset + data.length ≤ p.length)
      (hd : Matches (slice p offset data.length) data) (hw : was = false → p = exact saved) :
    Link saved p (.delete was offset data) (removeAt p offset data.length)
  | write (p : TextPattern) (was : Bool) (offset : Nat) (data : List Byte) (block : TextPattern)
      (hs : offset + data.length ≤ p.length) (hd : Matches (slice p offset data.length) data) (hb : Matches block data)
      (hw : was = false → p = exact saved) :
    Link saved p (.write was offset data) (overwriteAt p offset block)

theorem Link.clean {saved : List Byte} {p q : TextPattern} {e : LogEntry} (h : Link saved p e q)
    (hw : e.header.wasModified = false) : p = exact saved := by
  cases h with
  | insert _ _ _ _ _ _ h => exact h hw
  | delete _ _ _ _ _ h => exact h hw
  | write _ _ _ _ _ _ _ h => exact h hw

/-- The entry fits a text that matches the pattern it leads back from. -/
theorem Link.fits {saved : List Byte} {p q : TextPattern} {e : LogEntry} (h : Link saved p e q) {text : List Byte}
    (hm : Matches q text) : e.Fits text.length := by
  have hlen := hm.length_eq
  cases h with
  | insert was offset size block hb ho hw =>
    intro _
    rw [length_insertAt] at hlen
    omega
  | delete was offset data hs hd hw =>
    rw [length_removeAt _ hs] at hlen
    change offset ≤ text.length
    omega
  | write was offset data block hs hd hb hw =>
    rw [length_overwriteAt _ (by rw [hb.length_eq]; exact hs)] at hlen
    change offset + data.length ≤ text.length
    omega

/-- Taking the change back leads to a text that matches the first pattern. -/
theorem Link.revert {saved : List Byte} {p q : TextPattern} {e : LogEntry} (h : Link saved p e q) {text : List Byte}
    (hm : Matches q text) : Matches p (e.revert text) := by
  cases h with
  | insert was offset size block hb ho hw =>
    have h := hm.removeAt offset size
    rwa [← hb, removeAt_insertAt p block ho, hb] at h
  | delete was offset data hs hd hw =>
    have h := hm.insertAt offset hd
    rwa [insertAt_removeAt p hs] at h
  | write was offset data block hs hd hb hw =>
    have h := hm.overwriteAt offset hd
    rwa [← hb.length_eq, overwriteAt_overwriteAt p block (by rw [hb.length_eq]; exact hs)] at h

/-! ## The trail -/

/-- The log is a trail of patterns. -/
structure Knows (saved : List Byte) (s : TextPattern) (steps : List (LogEntry × TextPattern)) (d : Doc) : Prop where
  saveLog : d.saveLog = true
  hasLog : d.hasLog = false → steps = []
  valid : Trail.Valid (Link saved) s steps
  entries : d.entries = steps.map Prod.fst
  le : ∀ p, d.pos = some p → p ≤ d.entries.length

/-- The trail leads to the text, and to the saved text when the flag is clear. -/
structure Honest (saved : List Byte) (s : TextPattern) (steps : List (LogEntry × TextPattern)) (d : Doc) : Prop
    extends Knows saved s steps d where
  content : Matches (Trail.last s steps) d.text
  clean : d.modified = false → Trail.last s steps = exact saved

/-- A chain of undos stands where the trail has the pattern of the text, or has nothing in front of it. -/
def AtTop (s : TextPattern) (steps : List (LogEntry × TextPattern)) (d : Doc) : Prop :=
  d.left = 0 ∨ Trail.last s (steps.take d.left) = Trail.last s steps

/-- A recorded change takes the trail to the next pattern; a chain keeps the pattern where it stands. -/
theorem Knows.step {saved : List Byte} {s : TextPattern} {steps : List (LogEntry × TextPattern)} {d : Doc}
    (h : Knows saved s steps d) (op : LogOperation) (offset size : Nat) {q : TextPattern}
    (hl : Link saved (Trail.last s steps) (.make op d.modified offset size d.text) q) (text : List Byte) :
    ∃ s' steps', Knows saved s' steps' { d.addlog op offset size with text := text } ∧ Trail.last s' steps' = q ∧
      ∀ p, d.pos = some p → ∃ p', (d.addlog op offset size).pos = some p' ∧
        (p' = 0 ∨ Trail.last s' (steps'.take p') = Trail.last s (steps.take p)) := by
  obtain ⟨h1, -, h3, h4⟩ := d.addlog_logged h.saveLog op offset size
  obtain ⟨e, he⟩ : ∃ e, e = LogEntry.make op d.modified offset size d.text := ⟨_, rfl⟩
  rw [← he] at hl h1
  have hentries : (d.tell ⟨op, offset, size⟩).entries = steps.map Prod.fst := h.entries
  have hpos : (d.tell ⟨op, offset, size⟩).pos = d.pos := rfl
  unfold Doc.evict at h1 h4
  split at h1
  · -- the oldest step is forgotten
    rename_i hfull
    rw [if_pos hfull] at h4
    obtain ⟨x, rest, rfl⟩ : ∃ x rest, steps = x :: rest := by
      cases steps with
      | nil =>
        rw [Doc.Full, hentries, nbLogsMax] at hfull
        simp at hfull
      | cons x rest => exact ⟨x, rest, rfl⟩
    simp only [hentries, List.map_cons, List.tail_cons] at h1
    refine ⟨x.2, rest ++ [(e, q)], ⟨by simp only [Doc.addlog_saveLog, h.saveLog], ?_, ?_, ?_, ?_⟩, by rw [Trail.last_snoc], ?_⟩
    · intro hf
      rw [h3] at hf
      cases hf
    · rw [Trail.valid_snoc]
      exact ⟨h.valid.2, hl⟩
    · simp only [h1, List.map_append, List.map_cons, List.map_nil]
    · intro p hp
      simp only [h4, hpos, Option.map_eq_some_iff] at hp
      obtain ⟨p, hp, rfl⟩ := hp
      have := h.le p hp
      rw [h.entries, List.length_map, List.length_cons] at this
      simp only [h1, List.length_append, List.length_map, List.length_singleton]
      omega
    · intro p hp
      have hle := h.le p hp
      rw [h.entries, List.length_map, List.length_cons] at hle
      refine ⟨p - 1, by rw [h4, hpos, hp]; rfl, ?_⟩
      cases p with
      | zero => exact Or.inl rfl
      | succ p =>
        right
        rw [Nat.add_sub_cancel, List.take_append_of_le_length (by omega), List.take_succ_cons, Trail.last_cons]
  · rename_i hfull
    rw [if_neg hfull] at h4
    rw [hentries] at h1
    refine ⟨s, steps ++ [(e, q)], ⟨by simp only [Doc.addlog_saveLog, h.saveLog], ?_, ?_, ?_, ?_⟩, by rw [Trail.last_snoc], ?_⟩
    · intro hf
      rw [h3] at hf
      cases hf
    · rw [Trail.valid_snoc]
      exact ⟨h.valid, hl⟩
    · simp only [h1, List.map_append, List.map_cons, List.map_nil]
    · intro p hp
      simp only [h4, hpos] at hp
      have := h.le p hp
      rw [h.entries, List.length_map] at this
      simp only [h1, List.length_append, List.length_map, List.length_singleton]
      omega
    · intro p hp
      have hle := h.le p hp
      rw [h.entries, List.length_map] at hle
      exact ⟨p, by rw [h4, hpos, hp], Or.inr (by rw [List.take_append_of_le_length hle])⟩

/-- A logged change of a text. -/
theorem Honest.step {saved : List Byte} {s : TextPattern} {steps : List (LogEntry × TextPattern)} {d : Doc}
    (h : Honest saved s steps d) (op : LogOperation) (offset size : Nat) {q : TextPattern} {text : List Byte}
    (hl : Link saved (Trail.last s steps) (.make op d.modified offset size d.text) q) (hm : Matches q text) :
    ∃ s' steps', Honest saved s' steps' { d.addlog op offset size with text := text } := by
  obtain ⟨s', steps', h1, h2, -⟩ := h.toKnows.step op offset size hl text
  exact ⟨s', steps', ⟨h1, by rw [h2]; exact hm, by simp⟩⟩

/-- An edit keeps the flag honest. -/
theorem Honest.edit {saved : List Byte} {s : TextPattern} {steps : List (LogEntry × TextPattern)} {d : Doc}
    (h : Honest saved s steps d) {e : Edit} (he : e.InRange d.text.length) :
    ∃ s' steps', Honest saved s' steps' (e.apply d) := by
  refine Edit.apply_induct (P := fun d => ∃ s steps, Honest saved s steps d) ?_ ?_ ?_ ⟨s, steps, h⟩ he
  · intro d offset buf ⟨s, steps, h⟩ ho
    have hlen := h.content.length_eq
    exact h.step .insert offset buf.length
      (.insert _ d.modified offset buf.length (exact buf) (length_exact buf) (by omega) h.clean)
      (h.content.insertAt offset (matches_exact buf))
  · intro d offset size ⟨s, steps, h⟩ ho hs
    have hlen := h.content.length_eq
    have hsl : (slice d.text offset size).length = size := length_slice _ hs
    rw [Doc.delete, if_neg (by omega)]
    refine h.step .delete offset size (q := removeAt (Trail.last s steps) offset size) ?_ (h.content.removeAt offset size)
    have hlink := Link.delete (Trail.last s steps) d.modified offset (slice d.text offset size) (by omega)
      (by rw [hsl]; exact h.content.slice offset size) h.clean
    rwa [hsl] at hlink
  · intro d offset buf ⟨s, steps, h⟩ hne hs
    have hlen := h.content.length_eq
    have hsl : (slice d.text offset buf.length).length = buf.length := length_slice _ hs
    rw [Doc.overwrite, if_neg hne]
    refine h.step .write offset buf.length (q := overwriteAt (Trail.last s steps) offset (holes buf.length)) ?_
      (h.content.overwriteAt offset (matches_holes buf))
    have hholes := matches_holes (slice d.text offset buf.length)
    rw [hsl] at hholes
    exact Link.write (Trail.last s steps) d.modified offset (slice d.text offset buf.length) (holes buf.length) (by omega)
      (by rw [hsl]; exact h.content.slice offset buf.length) hholes h.clean

/-! ## Undo -/

theorem Doc.insertBlock_clean {d : Doc} {offset : Nat} {buf : List Byte} (h : (d.insertBlock offset buf).modified = false) :
    d.modified = false := by
  unfold insertBlock at h
  split at h
  · exact h
  · simp [insert] at h

theorem Doc.delete_clean {d : Doc} {offset size : Nat} (h : (d.delete offset size).modified = false) :
    d.modified = false := by
  unfold delete at h
  split at h
  · exact h
  · simp at h

theorem Doc.withText_eq {d : Doc} {text : List Byte} (h : d.text = text) : { d with text := text } = d := by
  subst h
  rfl

/-- What is known of a trail that leads to the pattern `q` of the text, when the text has been changed with the log off, and an
entry that leads from `r` back to `q` is recorded. -/
theorem Knows.playQuiet {saved : List Byte} {s : TextPattern} {steps : List (LogEntry × TextPattern)} {d d' : Doc} {p : Nat}
    (h : Knows saved s steps d) (hpos : d.pos = some p) (hsame : SameLog { d with saveLog := false } d')
    (op : LogOperation) (offset size : Nat)
    (hl : Link saved (Trail.last s steps) (.make op d'.modified offset size d'.text) (Trail.last s (steps.take p))) :
    ∃ s' steps', Knows saved s' steps' (Doc.addlog { d' with saveLog := d.saveLog } op offset size) ∧
      Trail.last s' steps' = Trail.last s (steps.take p) ∧
      AtTop s' steps' (Doc.addlog { d' with saveLog := d.saveLog } op offset size) := by
  have hk : Knows saved s steps { d' with saveLog := d.saveLog } :=
    ⟨h.saveLog, fun hf => h.hasLog (by rw [← hf]; exact hsame.hasLog.symm), h.valid, hsame.entries.trans h.entries,
      fun q hq => by rw [show d'.entries = d.entries from hsame.entries]; exact h.le q (hsame.pos ▸ hq)⟩
  obtain ⟨s', steps', h1, h2, h3⟩ := hk.step op offset size hl d'.text
  obtain ⟨p', hp', hat⟩ := h3 p (hsame.pos.trans hpos)
  obtain ⟨D, hD⟩ : ∃ D, D = Doc.addlog { d' with saveLog := d.saveLog } op offset size := ⟨_, rfl⟩
  rw [← hD] at h1 hp' ⊢
  have htext : D.text = d'.text := by rw [hD, Doc.addlog_text]
  rw [Doc.withText_eq htext] at h1
  refine ⟨s', steps', h1, h2, ?_⟩
  rw [AtTop, (Doc.older_of_pos hp').1, h2]
  exact hat

/-- Playing the entry in front of a chain that stands at the pattern of the text: the text goes back to the pattern before, and
so does the trail. -/
theorem Honest.play {saved : List Byte} {s : TextPattern} {steps : List (LogEntry × TextPattern)} {d : Doc}
    (h : Honest saved s steps d) {p : Nat} {x : LogEntry × TextPattern} (hx : steps[p]? = some x) (hpos : d.pos = some p)
    (htop : x.2 = Trail.last s steps) :
    ∃ s' steps', Knows saved s' steps' (d.play x.1) ∧ Trail.last s' steps' = Trail.last s (steps.take p) ∧
      AtTop s' steps' (d.play x.1) := by
  obtain ⟨hlink, -⟩ := h.valid.step hx
  have hfit : x.1.Fits d.text.length := hlink.fits (by rw [htop]; exact h.content)
  rw [htop] at hlink
  have hcontent := h.content
  have hclean := h.clean
  obtain ⟨t, ht⟩ : ∃ t, t = Trail.last s steps := ⟨_, rfl⟩
  obtain ⟨q, hq⟩ : ∃ q, q = Trail.last s (steps.take p) := ⟨_, rfl⟩
  rw [← ht, ← hq] at hlink
  rw [← ht] at hcontent hclean
  have htlen := hcontent.length_eq
  obtain ⟨e, he⟩ : ∃ e, e = x.1 := ⟨_, rfl⟩
  rw [← he] at hlink hfit ⊢
  rw [← hq]
  cases hlink with
  | insert was offset size block hb ho hw =>
    simp only [Doc.play, Doc.delete]
    split
    · -- an insertion of nothing at the end: the undo does nothing
      rename_i hend
      rw [← htlen, length_insertAt] at hend
      have hnil : block = [] := List.eq_nil_of_length_eq_zero (by omega)
      have hsame : insertAt q offset block = q := by
        rw [hnil]
        simp [insertAt]
      refine ⟨s, steps, h.toKnows, by rw [← ht, hsame], ?_⟩
      rw [AtTop, (Doc.older_of_pos hpos).1, ← hq, ← ht, hsame]
      exact Or.inr rfl
    · rename_i hlt
      have hs : offset + size ≤ d.text.length := hfit (by omega)
      have hsl : (slice d.text offset size).length = size := length_slice _ hs
      have hback : removeAt (insertAt q offset block) offset size = q := by rw [← hb, removeAt_insertAt q block ho]
      have hl : Link saved (insertAt q offset block) (.make .delete d.modified offset size d.text) q := by
        have hd : Link saved _ _ _ := Link.delete (insertAt q offset block) d.modified offset (slice d.text offset size)
          (by rw [hsl, htlen]; exact hs) (by rw [hsl]; exact hcontent.slice offset size) hclean
        rw [hsl, hback] at hd
        exact hd
      rw [ht] at hl
      obtain ⟨s', steps', h1, h2, h3⟩ := h.toKnows.step .delete offset size hl (removeAt d.text offset size)
      obtain ⟨p', hp', hat⟩ := h3 p hpos
      refine ⟨s', steps', h1, h2, ?_⟩
      rw [← hq] at hat
      have hl' : (d.addlog .delete offset size).left = p' := (Doc.older_of_pos hp').1
      change (d.addlog .delete offset size).left = 0 ∨ Trail.last s' (steps'.take (d.addlog .delete offset size).left) = _
      rw [hl', h2]
      exact hat
  | delete was offset data hs hd hw =>
    obtain ⟨d', hd'⟩ : ∃ d', d' = Doc.insertBlock { d with saveLog := false } offset data := ⟨_, rfl⟩
    have hsame : SameLog { d with saveLog := false } d' := by
      rw [hd']
      exact Doc.insertBlock_quiet rfl offset data
    have hwas (hf : d'.modified = false) : d.modified = false := by
      rw [hd'] at hf
      exact Doc.insertBlock_clean (d := { d with saveLog := false }) hf
    have hl : Link saved (removeAt q offset data.length) (.make .insert d'.modified offset data.length d'.text) q := by
      have hi : Link saved _ _ _ := Link.insert (removeAt q offset data.length) d'.modified offset data.length
        (slice q offset data.length) (length_slice _ hs) (by rw [length_removeAt _ hs]; omega)
        (fun hf => hclean (hwas hf))
      rwa [insertAt_removeAt q hs] at hi
    rw [ht, hq] at hl
    obtain ⟨s', steps', h1, h2, h3⟩ := h.toKnows.playQuiet hpos hsame .insert offset data.length hl
    rw [hd'] at h1 h3
    exact ⟨s', steps', h1, by rw [h2, hq], h3⟩
  | write was offset data block hs hd hb hw =>
    have hbl := hb.length_eq
    have hf : offset + data.length ≤ d.text.length := hfit
    obtain ⟨d', hd'⟩ : ∃ d', d' = (Doc.delete { d with saveLog := false } offset data.length).insertBlock offset data :=
      ⟨_, rfl⟩
    have h0 := Doc.delete_quiet (d := { d with saveLog := false }) rfl offset data.length
    have hsame : SameLog { d with saveLog := false } d' := by
      rw [hd']
      exact h0.trans (Doc.insertBlock_quiet h0.saveLog offset data)
    have hwas (hf : d'.modified = false) : d.modified = false := by
      rw [hd'] at hf
      exact Doc.delete_clean (d := { d with saveLog := false }) (Doc.insertBlock_clean hf)
    have htext : d'.text = overwriteAt d.text offset data := by
      rw [hd', Doc.insertBlock_text, Doc.delete_text, insertAt_removeAt_eq_overwriteAt _ _ hf]
    have hread : slice d'.text offset data.length = data := by rw [htext, slice_overwriteAt _ _ (by omega)]
    have hl : Link saved (overwriteAt q offset block) (.make .write d'.modified offset data.length d'.text) q := by
      have hwr : Link saved _ _ _ := Link.write (overwriteAt q offset block) d'.modified offset data
        (slice q offset data.length) (by rw [htlen]; exact hf)
        (by rw [← hbl, slice_overwriteAt _ _ (by omega)]; exact hb) hd
        (fun hf => hclean (hwas hf))
      rw [← hbl, overwriteAt_overwriteAt q block (by rw [hbl]; exact hs)] at hwr
      rw [LogEntry.make, hread]
      exact hwr
    rw [ht, hq] at hl
    obtain ⟨s', steps', h1, h2, h3⟩ := h.toKnows.playQuiet hpos hsame .write offset data.length hl
    rw [hd'] at h1 h3
    exact ⟨s', steps', h1, by rw [h2, hq], h3⟩

/-- Undo keeps the flag honest, and the chain at the pattern of the text. -/
theorem Honest.undoStep {saved : List Byte} {s : TextPattern} {steps : List (LogEntry × TextPattern)} {d : Doc}
    (h : Honest saved s steps d) (hat : AtTop s steps d) :
    (∀ e, d.next = some e → e.Fits d.text.length) ∧
      ∃ s' steps', Honest saved s' steps' d.undoStep.1 ∧ AtTop s' steps' d.undoStep.1 := by
  have hle : d.left ≤ steps.length := by
    rw [Doc.left]
    cases hp : d.pos with
    | none => rw [Option.getD_none, h.entries, List.length_map]
    | some p =>
      have := h.le p hp
      rwa [h.entries, List.length_map] at this
  unfold Doc.undoStep
  cases hnext : d.next with
  | none => exact ⟨by simp, s, steps, h, hat⟩
  | some e =>
    obtain ⟨p, hp⟩ : ∃ p, d.left = p + 1 := by
      cases hl : d.left with
      | zero => rw [Doc.next, hl] at hnext; cases hnext
      | succ p => exact ⟨p, rfl⟩
    obtain ⟨x, hx⟩ : ∃ x, steps[p]? = some x := ⟨steps[p], List.getElem?_eq_getElem (by omega)⟩
    have hex : e = x.1 := by
      rw [Doc.next, hp] at hnext
      simp only [h.entries, List.getElem?_map, hx, Option.map_some, Option.some.injEq] at hnext
      exact hnext.symm
    subst hex
    obtain ⟨hlink, hlast⟩ := h.valid.step hx
    have htop : x.2 = Trail.last s steps := by
      rcases hat with h0 | htop
      · omega
      · rw [← hlast, ← hp, htop]
    have hfit : x.1.Fits d.text.length := hlink.fits (by rw [htop]; exact h.content)
    obtain ⟨d₁, hd₁⟩ : ∃ d₁, d₁ = { d with pos := some (d.left - 1) } := ⟨_, rfl⟩
    have h₁ : Honest saved s steps d₁ := by
      rw [hd₁]
      refine ⟨⟨h.saveLog, h.hasLog, h.valid, h.entries, ?_⟩, h.content, h.clean⟩
      intro q hq
      cases hq
      rw [h.entries, List.length_map]
      omega
    obtain ⟨s', steps', k1, k2, k3⟩ := h₁.play hx (by rw [hd₁, hp]; rfl) htop
    have htext : (d₁.play x.1).text = x.1.revert d.text := by
      rw [Doc.play_text d₁ (by rw [hd₁]; exact hfit), hd₁]
    refine ⟨?_, s', steps', ⟨⟨?_, ?_, ?_, ?_, ?_⟩, ?_, ?_⟩, ?_⟩
    · intro e he
      cases he
      exact hfit
    · rw [← hd₁]; exact k1.saveLog
    · rw [← hd₁]; exact k1.hasLog
    · exact k1.valid
    · rw [← hd₁]; exact k1.entries
    · rw [← hd₁]; exact k1.le
    · simp only [← hd₁, htext, k2]
      exact hlink.revert (by rw [htop]; exact h.content)
    · intro hw
      rw [k2]
      exact hlink.clean hw
    · rw [← hd₁]; exact k3

/-! ## Saving and loading -/

theorem Honest.save {saved : List Byte} {s : TextPattern} {steps : List (LogEntry × TextPattern)} {d : Doc}
    (h : Honest saved s steps d) : Honest d.text (exact d.text) [] { d.logReset with modified := false } := by
  unfold Doc.logReset
  split
  · exact ⟨⟨h.saveLog, fun _ => rfl, trivial, rfl, by simp⟩, matches_exact _, fun _ => rfl⟩
  · rename_i hf
    have hnil : d.entries = [] := by rw [h.entries, h.hasLog (by simpa using hf), List.map_nil]
    exact ⟨⟨h.saveLog, fun _ => rfl, trivial, hnil, h.le⟩, matches_exact _, fun _ => rfl⟩

/-- A text that goes on behind the end of the pattern. -/
theorem Link.append {p q : TextPattern} {e : LogEntry} (h : Link [] p e q) (file : List Byte) :
    Link file (p ++ exact file) e (q ++ exact file) := by
  have hnil (hp : p = exact []) : p ++ exact file = exact file := by rw [hp]; rfl
  cases h with
  | insert was offset size block hb ho hw =>
    rw [← insertAt_append_right p (exact file) block ho]
    exact .insert _ was offset size block hb (by rw [List.length_append]; omega) (fun hf => hnil (hw hf))
  | delete was offset data hs hd hw =>
    rw [← removeAt_append_right p (exact file) hs]
    exact .delete _ was offset data (by rw [List.length_append]; omega) (by rwa [slice_append_right p _ hs])
      (fun hf => hnil (hw hf))
  | write was offset data block hs hd hb hw =>
    rw [← overwriteAt_append_right p (exact file) block (by rw [hb.length_eq]; exact hs)]
    exact .write _ was offset data block (by rw [List.length_append]; omega) (by rwa [slice_append_right p _ hs]) hb
      (fun hf => hnil (hw hf))

/-- Loading a file into an empty text that is not modified, with the log off: the saved text was empty too, and every text the
log leads back to goes on with the file. -/
theorem Honest.load {saved : List Byte} {s : TextPattern} {steps : List (LogEntry × TextPattern)} {d d' : Doc}
    (h : Honest saved s steps d) (hm : d.modified = false) (ht : d.text = [])
    (hsame : SameLog { d with saveLog := false } d') :
    ∃ s' steps', Honest d'.text s' steps' { d' with modified := false, saveLog := d.saveLog } := by
  have hlast := h.clean hm
  have hsaved : saved = [] := by
    have hc := h.content
    rw [hlast, ht] at hc
    exact hc.eq_of_exact
  subst hsaved
  have hend : Trail.last s steps ++ exact d'.text = exact d'.text := by rw [hlast]; rfl
  refine ⟨s ++ exact d'.text, steps.map fun x => (x.1, x.2 ++ exact d'.text), ⟨⟨h.saveLog, ?_, ?_, ?_, ?_⟩, ?_, ?_⟩⟩
  · intro hf
    rw [h.hasLog (hsame.hasLog.symm.trans hf), List.map_nil]
  · exact h.valid.map fun _ _ _ hl => hl.append d'.text
  · rw [List.map_map]
    exact hsame.entries.trans h.entries
  · intro p hp
    rw [show d'.entries = d.entries from hsame.entries]
    exact h.le p (hsame.pos ▸ hp)
  · rw [Trail.last_map (· ++ exact d'.text), hend]
    exact matches_exact _
  · intro _
    rw [Trail.last_map (· ++ exact d'.text), hend]

/-- `raw_load_buffer1` with the log off. -/
theorem loadBlocks_stands {n : Nat} {b : EditBuffer} {d : Doc} (h : Stands b d) (hs : d.saveLog = false) {offset : Nat}
    (ho : offset ≤ d.text.length) (file : List Byte) (hn : n = (file.length + ioBufSize - 1) / ioBufSize) :
    ∃ d', Stands (loadBlocks n b offset file) d' ∧ SameLog d d' ∧ d'.text = insertAt d.text offset file := by
  induction n generalizing b d offset file with
  | zero =>
    have hnil : file = [] := by
      refine List.eq_nil_of_length_eq_zero ?_
      simp only [ioBufSize] at hn
      omega
    exact ⟨d, h, ⟨rfl, rfl, rfl, rfl, rfl⟩, by rw [hnil]; simp [insertAt]⟩
  | succ n ih =>
    have hstep := ebInsert_stands h ho (file.take ioBufSize)
    have hsame : SameLog d (d.insert offset (file.take ioBufSize)) := by
      rw [Doc.insert, Doc.addlog_quiet hs]
      exact ⟨rfl, rfl, rfl, rfl, rfl⟩
    have htext : (d.insert offset (file.take ioBufSize)).text = insertAt d.text offset (file.take ioBufSize) := rfl
    obtain ⟨d', i1, i2, i3⟩ := ih hstep (hsame.saveLog.trans hs)
      (show offset + (file.take ioBufSize).length ≤ (d.insert offset (file.take ioBufSize)).text.length by
        rw [htext, length_insertAt]
        omega)
      (file.drop ioBufSize) (show n = ((file.drop ioBufSize).length + ioBufSize - 1) / ioBufSize by
        rw [List.length_drop]
        simp only [ioBufSize] at hn ⊢
        omega)
    refine ⟨d', i1, hsame.trans i2, ?_⟩
    rw [i3, htext, insertAt_insertAt _ _ _ ho, List.take_append_drop]

/-- An empty text has no page to remember. -/
theorem Stands.curPage_eq_none {b : EditBuffer} {d : Doc} (h : Stands b d) (ht : d.text = []) : b.curPage = none := by
  cases hc : b.curPage with
  | none => rfl
  | some i =>
    have hnil : b.pageTable = [] := by
      cases hp : b.pageTable with
      | nil => rfl
      | cons p ps =>
        have hpos := (h.table.pages p (by rw [hp]; exact List.mem_cons_self)).pos
        have hsz := h.tableSize
        rw [hp, ht, tableSize_cons, List.length_nil] at hsz
        omega
    have hi := (h.table.cache i hc).1
    rw [hnil] at hi
    cases hi

/-- `reload_buffer` of an empty text: the buffer holds the file, its log is as it was. -/
theorem reloadBuffer_stands {b : EditBuffer} {d : Doc} (h : Stands b d) (ht : d.text = []) (ino : Nat) (file : List Byte) :
    ∃ d', Stands (reloadBuffer b ino file) { d' with modified := false, saveLog := d.saveLog } ∧
      SameLog { d with saveLog := false } d' ∧ d'.text = file := by
  have h0 := h.withSaveLog false
  have hload : ∃ d', Stands (rawLoadBuffer { b with saveLog := false } ino file) d' ∧
      SameLog { d with saveLog := false } d' ∧ d'.text = file := by
    unfold rawLoadBuffer
    split
    · have hcur := h.curPage_eq_none ht
      exact ⟨_, mmapBuffer_stands h0 ht hcur ino file, ⟨rfl, rfl, rfl, rfl, rfl⟩, rfl⟩
    · obtain ⟨d', i1, i2, i3⟩ := loadBlocks_stands h0 rfl (Nat.zero_le _) file rfl
      refine ⟨d', i1, i2, i3.trans ?_⟩
      simp [insertAt, ht]
  obtain ⟨d', i1, i2, i3⟩ := hload
  refine ⟨d', ?_, i2, i3⟩
  have h1 := i1.withSaveLog b.saveLog
  rw [h.saveLog] at h1
  unfold reloadBuffer
  simp only [h.saveLog]
  exact ⟨⟨h1.table, h1.text, rfl, h1.readOnly, rfl, h1.mark, h1.notes, h1.past, h1.hasLog, h1.log.ok, h1.log.bytes,
    h1.log.nb, h1.log.newIndex, h1.log.current, h1.log.le⟩, h1.total⟩

end Hoe
