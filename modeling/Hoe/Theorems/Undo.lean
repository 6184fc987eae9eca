import Hoe.Lemmas.History
import Hoe.Lemmas.Redo

/-!
# Undo and redo

A chain of undos goes back over the log, and a second one makes the changes once more.
-/

namespace Hoe

/-!
## Undo restores

A chain of undos goes back over the log entry by entry: after `m` of them the buffer looks as it did when the `m`-th newest entry
was recorded, also when the log is full and every undo makes it forget its oldest entry.
-/

/-- A document is at the beginning of the trail of what will be recorded from now on. -/
theorem Tracks.start {d : Doc} (hs : d.saveLog = true) : Tracks d.entries d.past d.snapshot [] d :=
  ⟨hs, trivial, rfl, by simp, by simp⟩

/-- After a run of logged edits and `m` undos in a row, none of them refused, the buffer is back to what it was just before the
`m`-th newest log entry was recorded. The entry is one of the run: the log was empty before it, or the run has recorded `m`
entries. -/
theorem undos_restore {b : EditBuffer} (hb : b.WellFormed) (hs : b.saveLog = true) {es : List Edit} (hes : AllInRange b es)
    {m : Nat} (hm : 0 < m) {b' : EditBuffer} (hu : undos m false (runEdits b es) = some b')
    (hlog : b.nbLogs = 0 ∨ m ≤ (runEdits b es).past.length - b.past.length) :
    (runEdits b es).past.reverse[m - 1]? = some b'.snapshot := by
  obtain ⟨d, hd⟩ := hb
  obtain ⟨d', steps, hd', ht⟩ := runEdits_tracks hd (Tracks.start (by rw [← hd.saveLog]; exact hs)) hes
  have hpast : (runEdits b es).past = d.past ++ Trail.before d.snapshot steps := by rw [hd'.past, ht.past]
  have hold : d.entries = [] ∨ m ≤ steps.length := by
    rcases hlog with h0 | hle
    · exact Or.inl (List.eq_nil_of_length_eq_zero (by rw [← hd.log.nb, h0]))
    · rw [hpast, hd.past, List.length_append, Trail.length_before] at hle
      exact Or.inr (by omega)
  obtain ⟨hle, d₁, hd₁, hsnap⟩ := undos_walks ht.valid hd' (Nat.le_refl _) ht.walks hu hold
  have hlen : (runEdits b es).past.length = d.past.length + steps.length := by
    rw [hpast, List.length_append, Trail.length_before]
  have hindex : (runEdits b es).past.length - 1 - (m - 1) = d.past.length + (steps.length - m) := by omega
  rw [List.getElem?_reverse (by omega), hindex, hpast, List.getElem?_append_right (by omega), Nat.add_sub_cancel_left,
    Trail.getElem?_before (by omega), ← hsnap, hd₁.snapshot]

/-- Five changes of an empty buffer, one of them a write over its end that records two entries, and four undos. -/
theorem undos_restore_four :
    let b := EditBuffer.new true
    let es : List Edit := [.insert 0 [1, 2, 3], .write 2 [7, 8], .delete 0 2, .insert 1 [9]]
    ∃ b', undos 4 false (runEdits b es) = some b' ∧ (runEdits b es).past.reverse[3]? = some b'.snapshot ∧
      b'.bytes = [1, 2, 3] := by
  intro b es
  obtain ⟨b', hb'⟩ : ∃ b', undos 4 false (runEdits b es) = some b' := Option.isSome_iff_exists.1 (by decide)
  have hes : AllInRange b es := by
    simp only [b, es, AllInRange, Edit.InRange]
    decide
  have h := undos_restore ⟨_, new_stands true⟩ rfl hes (by decide) hb' (Or.inl rfl)
  refine ⟨b', hb', h, ?_⟩
  have hval : (runEdits b es).past.reverse[3]? = some ⟨[1, 2, 3], true⟩ := by decide
  rw [hval] at h
  exact (congrArg Snapshot.bytes (Option.some.inj h)).symm

/-!
## Undo can be undone

`k` undos, another command, and `k` undos again. The second chain makes the changes once more that the first took back, each of
them exactly but an overwrite: its undo records the bytes it has put back and not those it has replaced, so the second chain puts
in what was there before.
-/

/-- The newest `k` changes of a history. -/
def lastChanges (b : EditBuffer) (es : List Edit) (k : Nat) : List Change :=
  (changesOf b es).drop ((changesOf b es).length - k)

/-- The text in front of the newest `k` changes of a history. -/
def textBefore (b : EditBuffer) (es : List Edit) (k : Nat) : List Byte :=
  textAfter b.bytes ((changesOf b es).take ((changesOf b es).length - k))

/-- The changes lead to the same text when every overwrite puts in the bytes it finds: of each byte that is left at the end, the
newest overwrite put in the byte that was there already. -/
def OverwritesKeep (t : List Byte) (cs : List Change) : Prop := textRedone t t cs = textAfter t cs

instance (t : List Byte) (cs : List Change) : Decidable (OverwritesKeep t cs) := by
  unfold OverwritesKeep
  infer_instance

/-- The first steps of the trail of a history lead to the text after the first changes. -/
theorem last_logged {t : List Byte} {steps : List ((LogEntry × Change) × List Byte)} (hv : Trail.Valid Logged t steps) :
    Trail.last t steps = textAfter t (steps.map (·.1.2)) := by
  induction steps generalizing t with
  | nil => rfl
  | cons x steps ih =>
    have hafter : x.2 = x.1.2.text t := hv.1.after
    rw [Trail.last_cons, ih hv.2, List.map_cons, hafter]
    rfl

theorem AllLeave.get {t : List Byte} {cs : List Change} (h : AllLeave t cs) {i : Nat} {c : Change} (hc : cs[i]? = some c) :
    c.Leaves (textAfter t (cs.take i)).length := by
  induction cs generalizing t i with
  | nil => simp at hc
  | cons a cs ih =>
    cases i with
    | zero =>
      obtain rfl : a = c := by simpa using hc
      exact h.1
    | succ i => exact ih h.2 (by simpa using hc)

theorem textAfter_append (t : List Byte) (cs cs' : List Change) :
    textAfter t (cs ++ cs') = textAfter (textAfter t cs) cs' := List.foldl_append

/-- `k` undos of a history of logged edits that does not fill the log, then another command, then `k` undos: they are all
accepted, and the text is the one before the first of them if and only if no byte of it was changed by the newest overwrite of
it among the changes taken back. Nothing was inserted nowhere: the undo of an insertion of nothing at the end of the text records
nothing. -/
theorem redo_restores_iff {b : EditBuffer} (hb : b.WellFormed) (hs : b.saveLog = true) (h0 : b.nbLogs = 0) {es : List Edit}
    (hes : AllInRange b es) (hfill : (changesOf b es).length < nbLogsMax) {k : Nat} {b₁ : EditBuffer}
    (hu : undos k false (runEdits b es) = some b₁) (hleave : AllLeave (textBefore b es k) (lastChanges b es k)) :
    ∃ b₂, undos k false b₁ = some b₂ ∧
      (b₂.bytes = (runEdits b es).bytes ↔ OverwritesKeep (textBefore b es k) (lastChanges b es k)) := by
  have hmax : nbLogsMax = 50 := rfl
  obtain ⟨d, hd⟩ := hb
  have hnil : d.entries = [] := List.eq_nil_of_length_eq_zero (by rw [← hd.log.nb, h0])
  have hstart : Holds d.text [] d := ⟨by rw [← hd.saveLog, hs], trivial, rfl, hnil⟩
  obtain ⟨d', steps, hd', hh, hcs⟩ := runEdits_holds hd hstart hes (by rw [List.length_nil]; omega)
  rw [List.nil_append] at hh
  have hlen : (changesOf b es).length = steps.length := by rw [← hcs, List.length_map]
  -- what the history looked like in front of a change
  have hfront (i : Nat) : Trail.last d.text (steps.take i) = textAfter d.text ((changesOf b es).take i) := by
    rw [last_logged (hh.valid.take i), ← hcs, List.map_take]
  obtain ⟨n, hn⟩ : ∃ n, n = steps.length - k := ⟨_, rfl⟩
  unfold textBefore lastChanges at *
  rw [hlen, ← hn, hd.text] at hleave ⊢
  have hentries : d'.entries = steps.map (·.1.1) := hh.entries
  have hchain := Chain.start hh.saveLog (by rw [hentries, List.length_map]; omega)
  rw [hentries] at hchain
  have hleave' (i : Nat) (x : (LogEntry × Change) × List Byte) (hi : n ≤ i) (hx : steps[i]? = some x) :
      x.1.2.Leaves (Trail.last d.text (steps.take i)).length := by
    have hc : ((changesOf b es).drop n)[i - n]? = some x.1.2 := by
      rw [List.getElem?_drop, Nat.add_sub_of_le hi, ← hcs, List.getElem?_map, hx, Option.map_some]
    have hl := hleave.get hc
    rwa [← textAfter_append, ← List.take_add, Nat.add_sub_of_le hi, ← hfront] at hl
  obtain ⟨d₁, us, u1, u2, u3, u4, u5, u6, u7, u8⟩ := undos_back hh.valid hleave' hd' hchain (Nat.zero_le _) (Nat.zero_le _)
    (by rw [List.length_nil]; omega) (by rw [List.length_nil, Nat.sub_zero, List.take_length, hh.last])
    (by rw [List.length_nil, Nat.sub_zero, List.drop_length]; exact .nil _) hu
  rw [List.length_nil, Nat.zero_add] at u3
  rw [show steps.length - us.length = n by omega] at u7 u8
  rw [List.map_drop, hcs, u7, hfront] at u8
  have hchain₁ := Chain.start u2 (by rw [u6, List.length_append, List.length_drop, List.length_map]; omega)
  rw [u6] at hchain₁
  obtain ⟨b₂, h1, h2⟩ := undos_forth ((steps.map (·.1.1)).drop (steps.length + us.length - (nbLogsMax - 1))) [] u8
    u1 (by rw [List.append_nil]; exact hchain₁) rfl (by rw [List.length_nil]; omega) (by rw [u7, hfront])
  rw [u3] at h1
  refine ⟨b₂, h1, ?_⟩
  rw [h2, hd'.text, ← hh.last, last_logged hh.valid, hcs, u7, hfront, OverwritesKeep, ← textAfter_append,
    List.take_append_drop]

/-- An insertion and a removal undone and undone again. -/
theorem redo_restores_two :
    let b := runEdits (EditBuffer.new true) [.insert 0 [1, 2, 3], .write 0 [4], .delete 0 2]
    ∃ b₁ b₂, undos 2 false b = some b₁ ∧ undos 2 false b₁ = some b₂ ∧ b₂.bytes = b.bytes := by
  intro b
  obtain ⟨b₁, hb₁⟩ : ∃ b₁, undos 2 false b = some b₁ := Option.isSome_iff_exists.1 (by decide)
  have hes : AllInRange (EditBuffer.new true) [.insert 0 [1, 2, 3], .write 0 [4], .delete 0 2] := by
    simp only [AllInRange, Edit.InRange]
    decide
  obtain ⟨b₂, h1, h2⟩ := redo_restores_iff ⟨_, new_stands true⟩ rfl rfl hes (by decide) hb₁ (by decide)
  exact ⟨b₁, b₂, hb₁, h1, h2.2 (by decide)⟩

/-- An overwrite undone and undone again: the byte it put in does not come back. -/
theorem not_redo_restores_overwrite :
    let b := runEdits (EditBuffer.new true) [.insert 0 [1, 2], .write 0 [3]]
    ¬∃ b₁ b₂, undos 1 false b = some b₁ ∧ undos 1 false b₁ = some b₂ ∧ b₂.bytes = b.bytes := by
  rintro b ⟨b₁, b₂, h1, h2, h3⟩
  have hval : (undos 1 false b).bind (undos 1 false) = some b₂ := by rw [h1, Option.bind_some, h2]
  have hbytes : ((undos 1 false b).bind (undos 1 false)).map (·.bytes) = some [1, 2] := by decide
  rw [hval, Option.map_some, h3] at hbytes
  revert hbytes
  decide

end Hoe
