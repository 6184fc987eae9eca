import Hoe.Lemmas.Save
import Hoe.Lemmas.Refine

/-!
# When a save loses nothing

`save_buffer` moves the old file away and writes a new one, but it does not look at whether the move was made: when it was not,
the old file is truncated, and a write that fails leaves neither the old content nor the new.
-/

namespace Hoe

open Splice

/-- After a save the file holds the bytes, or there was no file before, or what it held is there under one of the two names. -/
def Kept (before after : Files) (held : List Byte) : Prop :=
  after.content after.target = some held ∨ before.target = none ∨
    after.content after.target = before.content before.target ∨ after.content after.backup = before.content before.target

/-- With these outcomes of `rename` and `open`, whatever the writes do, and whatever file of its own the backup was before: when
`save_buffer` returns nothing is lost, and zero means that the file holds the bytes of the buffer. -/
def SaveSafe (files : Files) (b : EditBuffer) (renamed opened : Bool) : Prop :=
  ∀ backup, (backup = files.target ↔ files.backup = files.target) → ∀ writes files' b' ret,
    saveBuffer { files with backup := backup } b renamed opened writes = some (files', b', ret) →
      Kept files files' b.bytes ∧ (ret = 0 → files'.content files'.target = some b.bytes)

/-- There is no old file, or it cannot be opened, or it was moved away; or a save in place does no harm: there is nothing to
write, or nothing to lose and at most one byte to write, or the process is killed when it reads the first block, because a page
of it is mapped from the file that was truncated. -/
def SaveKeeps (files : Files) (b : EditBuffer) (renamed opened : Bool) : Prop :=
  files.target = none ∨ opened = false ∨ (renamed = true ∧ files.backup ≠ files.target) ∨ b.totalSize = 0 ∨
    (files.content files.target = some [] ∧ b.totalSize ≤ 1) ∨
    ∃ r, some r ∈ b.places.take ioBufSize ∧ some r.ino = files.target

/-- `save_buffer` returns when `raw_save_buffer` does. -/
theorem saveBuffer_eq {files files' : Files} {b b' : EditBuffer} {renamed opened : Bool} {writes : List WriteResult} {ret : Int}
    (h : saveBuffer files b renamed opened writes = some (files', b', ret)) :
    ∃ t r, rawSaveBuffer (files.rename renamed) b.toPages opened writes = some (files', t, r) ∧
      (r < 0 ∧ ret = r ∨ ¬r < 0 ∧ ret = 0) := by
  unfold saveBuffer at h
  split at h
  · cases h
  · rename_i files₁ t r hraw
    simp only at h
    split at h
    · rename_i hneg
      obtain ⟨rfl, -, rfl⟩ : files₁ = files' ∧ _ = b' ∧ r = ret := by simpa using h
      exact ⟨t, r, hraw, Or.inl ⟨hneg, rfl⟩⟩
    · rename_i hneg
      obtain ⟨rfl, -, rfl⟩ : files₁ = files' ∧ _ = b' ∧ 0 = ret := by simpa using h
      exact ⟨t, r, hraw, Or.inr ⟨hneg, rfl⟩⟩

theorem Files.rename_moved {files : Files} (h : files.backup ≠ files.target) (ht : files.target ≠ none) :
    files.rename true = { files with target := none, backup := files.target, target_lt := by simp } := by
  rw [rename, if_pos ⟨rfl, ht, h⟩]

theorem Files.rename_same {files : Files} {renamed : Bool} (h : ¬(renamed = true ∧ files.backup ≠ files.target)) :
    files.rename renamed = files := by
  rw [rename, if_neg (fun hc => h ⟨hc.1, hc.2.2⟩)]

/-- The file is written under a new inode: there was none, or it was moved away. -/
theorem saveBlocks_new {files files₁ files' : Files} {t t' : Pages} {writes : List WriteResult} {ret : Int}
    (hshow : Shows files t) (ht : t.Ok) (htarget : files₁.target = none) (hdata : files₁.data = files.data)
    (hnext : files₁.next = files.next) (h : rawSaveBuffer files₁ t true writes = some (files', t', ret)) :
    files'.backup = files₁.backup ∧ (∀ i ≠ files.next, files'.data i = files.data i) ∧
      (ret = 0 ∧ files'.content files'.target = some t.bytes ∨ ret = -1) := by
  have hav : Avoids t.pageTable files.next := fun p hp r hr => Nat.ne_of_lt (hshow p hp r hr).1
  rw [← hnext] at hav ⊢
  obtain ⟨f, o1, o2, o3, o4⟩ := Files.openTruncate_none htarget
  simp only [rawSaveBuffer, o1, if_true] at h
  obtain ⟨r1, r2, r3, -, r5⟩ := saveBlocks_spec hshow ht hav (by
    intro i hi
    rw [o4, Function.update_of_ne hi, hdata]) (Nat.le_refl _) (by rw [o4]; simp) h
  refine ⟨r2.trans o3, r3, r5.imp_left fun ⟨h0, hb⟩ => ⟨h0, ?_⟩⟩
  rw [r1, o2, Files.content, Option.map_some, hb]

/-- A save in place that does no harm. -/
theorem saveBlocks_inPlace {files before files' : Files} {t t' : Pages} {ino : Nat} {writes : List WriteResult} {ret : Int}
    (hshow : Shows files t) (ht : t.Ok) (htarget : before.target = some ino) (hdata : before.data = files.data)
    (hkeeps : t.totalSize = 0 ∨ (files.data ino = [] ∧ t.totalSize ≤ 1) ∨
      ∃ r, some r ∈ t.places.take ioBufSize ∧ r.ino = ino)
    (h : rawSaveBuffer before t true writes = some (files', t', ret)) :
    (files'.content files'.target = some t.bytes ∨ files'.content files'.target = some (files.data ino)) ∧
      (ret = 0 ∧ files'.content files'.target = some t.bytes ∨ ret = -1) := by
  have hlen := ht.length_bytes
  obtain ⟨f, o1, o2, -, o4⟩ := Files.openTruncate_some htarget
  simp only [rawSaveBuffer, o1, if_true] at h
  rcases hkeeps with hz | ⟨hold, h1⟩ | ⟨r, hr, hri⟩
  · -- nothing is written
    have hnil : t.bytes = [] := List.eq_nil_of_length_eq_zero (by omega)
    obtain ⟨rfl, rfl, rfl⟩ : f = files' ∧ t = t' ∧ 0 = ret := by
      cases writes <;> simpa [saveBlocks, hz] using h
    have hc : f.content f.target = some t.bytes := by
      rw [o2, Files.content, Option.map_some, o4, Function.update_self, hnil]
    exact ⟨Or.inl hc, Or.inl ⟨rfl, hc⟩⟩
  · -- an empty file has no mapped pages
    have hav : Avoids t.pageTable ino := avoids_of_places ht (by
      intro r hr hi
      have := (hshow.inside ht hr).2
      rw [hi, hold] at this
      cases this)
    obtain ⟨r1, -, -, ⟨j, hj⟩, r5⟩ := saveBlocks_spec hshow ht hav (by
      intro i hi
      rw [o4, Function.update_of_ne hi, hdata]) (Nat.le_refl _) (by rw [o4]; simp) h
    have hcontent : files'.content files'.target = some (files'.data ino) := by
      rw [r1, o2, Files.content, Option.map_some]
    rw [hcontent, hold]
    refine ⟨?_, r5.imp_left fun h => ⟨h.1, by rw [h.2]⟩⟩
    cases j with
    | zero => exact Or.inr (by rw [hj, List.take_zero])
    | succ j => exact Or.inl (by rw [hj, List.take_of_length_le (by omega)])
  · -- the first block cannot be read
    exfalso
    have hplaces : t.places.length = t.totalSize := by rw [Pages.places, length_places, ht.total]
    have hpos : t.totalSize ≠ 0 := by
      intro hz
      rw [hz] at hplaces
      rw [List.eq_nil_of_length_eq_zero hplaces] at hr
      simp at hr
    have hfaults : t.Faults f.data (t.totalSize - t.totalSize) (min t.totalSize ioBufSize) := by
      refine ⟨r, ?_, ?_⟩
      · rw [Nat.sub_self, slice, List.drop_zero, ← hplaces, Nat.min_comm, ← List.take_take, List.take_length]
        exact hr
      · rw [FileRef.Faults, hri, o4, Function.update_self]
        exact Nat.zero_le _
    cases writes with
    | nil =>
      rw [saveBlocks, if_neg hpos] at h
      cases h
    | cons w ws =>
      rw [saveBlocks, if_neg hpos] at h
      simp only [if_pos hfaults] at h
      cases h

/-- The condition is enough. -/
theorem SaveKeeps.safe {files : Files} {b : EditBuffer} {renamed opened : Bool} (hb : b.toPages.Ok)
    (hshow : Shows files b.toPages) (h : SaveKeeps files b renamed opened) : SaveSafe files b renamed opened := by
  intro backup hbackup writes files' b' ret hsave
  obtain ⟨before, hbefore⟩ : ∃ before, before = { files with backup := backup } := ⟨_, rfl⟩
  have htarget : before.target = files.target := by rw [hbefore]
  have hdata : before.data = files.data := by rw [hbefore]
  have hnext : before.next = files.next := by rw [hbefore]
  have hlink : before.backup ≠ before.target ↔ files.backup ≠ files.target := by
    rw [hbefore]
    exact not_congr hbackup
  rw [← hbefore] at hsave
  obtain ⟨t, r, hraw, hret⟩ := saveBuffer_eq hsave
  by_cases hmoved : renamed = true ∧ before.backup ≠ before.target ∧ before.target ≠ none
  · -- the old file is under the name of the backup now
    obtain ⟨rfl, hne, hsome⟩ := hmoved
    obtain ⟨ino, hino⟩ := Option.ne_none_iff_exists'.1 hsome
    rw [Files.rename_moved hne hsome] at hraw
    obtain ⟨moved, hm⟩ : ∃ moved : Files, moved = { before with target := none, backup := before.target, target_lt := by simp } :=
      ⟨_, rfl⟩
    rw [← hm] at hraw
    have hbackup' : moved.backup = some ino := by rw [hm, hino]
    have hold : ino ≠ files.next := by
      rw [← hnext]
      exact Nat.ne_of_lt (before.target_lt ino hino)
    rw [htarget] at hino
    cases opened with
    | false =>
      obtain ⟨rfl, -, rfl⟩ : moved = files' ∧ b.toPages = t ∧ -1 = r := by simpa [rawSaveBuffer] using hraw
      refine ⟨Or.inr (Or.inr (Or.inr ?_)), by omega⟩
      rw [hbackup', hino, Files.content, Files.content, hm, hdata]
    | true =>
      obtain ⟨k1, k2, k3⟩ := saveBlocks_new hshow hb (by rw [hm]) (by rw [hm, hdata]) (by rw [hm, hnext]) hraw
      refine ⟨Or.inr (Or.inr (Or.inr ?_)), ?_⟩
      · rw [k1, hbackup', hino, Files.content, Files.content, Option.map_some, Option.map_some, k2 ino hold]
      · intro h0
        rcases k3 with ⟨-, hc⟩ | hneg
        · exact hc
        · omega
  · have hsame : before.rename renamed = before := by
      rw [Files.rename, if_neg (fun hc => hmoved ⟨hc.1, hc.2.2, hc.2.1⟩)]
    rw [hsame] at hraw
    cases opened with
    | false =>
      obtain ⟨rfl, -, rfl⟩ : before = files' ∧ b.toPages = t ∧ -1 = r := by simpa [rawSaveBuffer] using hraw
      refine ⟨Or.inr (Or.inr (Or.inl ?_)), by omega⟩
      rw [htarget, Files.content, Files.content, hdata]
    | true =>
      cases hino : before.target with
      | none =>
        refine ⟨Or.inr (Or.inl (by rw [← htarget, hino])), fun h0 => ?_⟩
        rcases (saveBlocks_new hshow hb hino hdata hnext hraw).2.2 with ⟨-, hc⟩ | hneg
        · exact hc
        · omega
      | some ino =>
        -- the file is written in place
        rw [hino] at hmoved hlink
        rw [hino] at htarget
        obtain ⟨k1, k2⟩ := saveBlocks_inPlace hshow hb hino hdata (by
          rcases h with h | h | h | h | h | ⟨r, hr, hri⟩
          · rw [← htarget] at h
            cases h
          · cases h
          · exact absurd ⟨h.1, hlink.2 h.2, by simp⟩ hmoved
          · exact Or.inl h
          · rw [← htarget, Files.content, Option.map_some, Option.some.injEq] at h
            exact Or.inr (Or.inl h)
          · rw [← htarget, Option.some.injEq] at hri
            exact Or.inr (Or.inr ⟨r, hr, hri⟩)) hraw
        refine ⟨?_, ?_⟩
        · rcases k1 with hc | hc
          · exact Or.inl hc
          · exact Or.inr (Or.inr (Or.inl (by rw [hc, ← htarget, Files.content, Option.map_some])))
        · intro h0
          rcases k2 with ⟨-, hc⟩ | hneg
          · exact hc
          · omega

/-- The condition is needed: where it does not hold, the first write can fail, or the second one after a byte. -/
theorem SaveSafe.keeps {files : Files} {b : EditBuffer} {renamed opened : Bool} (hb : b.toPages.Ok)
    (hshow : Shows files b.toPages) (h : SaveSafe files b renamed opened) : SaveKeeps files b renamed opened := by
  by_contra hnot
  simp only [SaveKeeps, not_or, not_exists, not_and] at hnot
  obtain ⟨hsome, hopen, hplace, hpos, hold, hfirst⟩ := hnot
  obtain ⟨ino, hino⟩ := Option.ne_none_iff_exists'.1 hsome
  have hopened : opened = true := by simpa using hopen
  subst hopened
  have hlen := hb.length_bytes
  -- a backup of its own would be some other file, say none
  obtain ⟨backup, hbackup, hlink⟩ : ∃ backup, (backup = files.target ↔ files.backup = files.target) ∧
      (backup = some ino ∨ backup = none) := by
    by_cases hl : files.backup = files.target
    · exact ⟨files.backup, Iff.rfl, Or.inl (hl.trans hino)⟩
    · refine ⟨none, ?_, Or.inr rfl⟩
      rw [hino] at hl ⊢
      exact ⟨fun h => (by cases h), fun h => absurd h hl⟩
  obtain ⟨before, hbefore⟩ : ∃ before, before = { files with backup := backup } := ⟨_, rfl⟩
  have hsame : before.rename renamed = before := Files.rename_same (by
    rintro ⟨hr, hne⟩
    have hnb : files.backup ≠ files.target := by
      rw [hbefore] at hne
      exact fun hc => hne (hbackup.2 hc)
    exact hplace hr hnb)
  obtain ⟨f, o1, o2, o3, o4⟩ := Files.openTruncate_some (show before.target = some ino by rw [hbefore, ← hino])
  have hdata : ∀ i ≠ ino, f.data i = files.data i := by
    intro i hi
    rw [o4, Function.update_of_ne hi, hbefore]
  have hself : f.data ino = [] := by rw [o4, Function.update_self]
  -- a save that fails must have left the text or the old content
  have hfails {ws : List WriteResult} {f' : Files} {t' : Pages}
      (hs : saveBlocks ino ws f b.toPages b.totalSize = some (f', t', -1)) (ht : f'.target = some ino) (hbk : f'.backup = backup) :
      f'.data ino = b.bytes ∨ f'.data ino = files.data ino := by
    have hsave : saveBuffer before b renamed true ws = some (f', { b with toPages := t' }, -1) := by
      simp only [saveBuffer, hsame, rawSaveBuffer, if_true, o1, hs]
      rw [if_pos (by decide)]
    rw [hbefore] at hsave
    rcases (h backup hbackup ws _ _ _ hsave).1 with hc | hc | hc | hc
    · rw [ht, Files.content, Option.map_some, Option.some.injEq] at hc
      exact Or.inl hc
    · exact absurd hc hsome
    · rw [ht, hino, Files.content, Files.content, Option.map_some, Option.map_some, Option.some.injEq] at hc
      exact Or.inr hc
    · rw [hbk, hino, Files.content, Files.content] at hc
      rcases hlink with hl | hl
      · rw [hl, Option.map_some, Option.map_some, Option.some.injEq] at hc
        exact Or.inr hc
      · rw [hl, Option.map_none, Option.map_some] at hc
        cases hc
  by_cases hnil : files.data ino = []
  · -- the old file was empty: one byte is written, then nothing more
    have htwo : 1 < b.totalSize := by
      by_contra hle
      exact hold (by rw [hino, Files.content, Option.map_some, hnil]) (by omega)
    have hav : Avoids b.pageTable ino := avoids_of_places hb (by
      intro r hr hi
      have := (hshow.inside hb hr).2
      rw [hi, hnil] at this
      cases this)
    have hone : min 1 (min b.totalSize ioBufSize) = 1 := by
      simp only [ioBufSize]
      omega
    obtain ⟨u1, u2⟩ := hshow.undisturbed hb hav hdata
    obtain ⟨t₁, a1, a2, a3, a4⟩ := saveBlocks_cons hb hpos (Nat.le_refl _) rfl u1 u2 ino (.accepted 1) [.failed]
    simp only [hone] at a4
    obtain ⟨f₁, hf₁⟩ : ∃ f₁, f₁ = f.write ino (slice b.bytes (b.totalSize - b.totalSize) 1) := ⟨_, rfl⟩
    rw [← hf₁] at a4
    have hshow₁ : Shows files t₁ := by
      unfold Shows
      rw [a2]
      exact hshow
    obtain ⟨v1, v2⟩ := hshow₁.undisturbed a1 (by rw [a2]; exact hav) (show ∀ i ≠ ino, f₁.data i = files.data i by
      intro i hi
      rw [hf₁, Files.write_of_ne _ hi, hdata i hi])
    obtain ⟨t₂, -, -, -, c4⟩ := saveBlocks_cons a1 (show b.totalSize - 1 ≠ 0 by omega) (by rw [a3]; omega) rfl v1 v2 ino .failed []
    have hx : (f₁.data ino).length = 1 := by
      rw [hf₁, Files.write_self, hself, List.nil_append, Nat.sub_self]
      exact length_slice _ (by omega)
    rcases hfails (a4.trans c4) (by rw [hf₁]; exact o2) (by rw [hf₁]; exact o3.trans (by rw [hbefore])) with hc | hc
    · rw [hc] at hx
      omega
    · rw [hc, hnil] at hx
      cases hx
  · -- the first write fails
    have hread : ¬b.toPages.Faults f.data (b.totalSize - b.totalSize) (min b.totalSize ioBufSize) := by
      rintro ⟨r, hr, hf⟩
      rw [Nat.sub_self, slice, List.drop_zero, Nat.min_comm, ← List.take_take] at hr
      have hr' : some r ∈ b.places.take ioBufSize := by
        rw [List.take_take] at hr
        exact List.take_subset_take_left _ (Nat.min_le_left _ _) hr
      have hri : r.ino ≠ ino := by
        intro hi
        exact hfirst r hr' (by rw [hino, hi])
      refine not_faults ?_ hf
      rw [hdata _ hri]
      exact (hshow.inside hb (List.take_subset _ _ hr')).2
    have hs : saveBlocks ino [.failed] f b.toPages b.totalSize =
        some (f, (ebRead (showPages f.data b.toPages) (b.totalSize - b.totalSize) (min b.totalSize ioBufSize)).1, -1) := by
      rw [saveBlocks, if_neg hpos]
      simp only [if_neg hread]
    rcases hfails hs o2 (o3.trans (by rw [hbefore])) with hc | hc
    · rw [hself] at hc
      rw [← hc] at hlen
      exact hpos hlen.symm
    · exact hnil (hc.symm.trans hself)

/-- A save loses nothing, and does not return zero for less than the whole text, whatever its writes do, if and only if the old
file was moved away, or there was none, or it could not be opened, or a save in place does no harm. -/
theorem save_safe_iff {files : Files} {b : EditBuffer} (hb : b.WellFormed) (hshow : Shows files b.toPages)
    (renamed opened : Bool) : SaveSafe files b renamed opened ↔ SaveKeeps files b renamed opened := by
  obtain ⟨d, hd⟩ := hb
  exact ⟨fun h => h.keeps hd.ok hshow, fun h => h.safe hd.ok hshow⟩

/-- A mapped file that is saved while it is moved to the backup. -/
theorem save_safe_mapped :
    SaveSafe ⟨some 3, none, fun _ => [5, 6], 4, by decide⟩ (mmapBuffer (EditBuffer.new true) 3 [5, 6]) true true := by
  refine (save_safe_iff ⟨_, mmapBuffer_stands (new_stands true) rfl rfl 3 [5, 6]⟩ ?_ true true).2
    (Or.inr (Or.inr (Or.inl ⟨rfl, by decide⟩)))
  unfold Shows
  decide

/-- The old file cannot be moved and the first write fails: the old content is lost. -/
theorem not_save_safe_in_place :
    ¬SaveSafe ⟨some 3, none, fun _ => [5, 6], 4, by decide⟩ (ebInsert (EditBuffer.new true) 0 [7]) false true := by
  intro h
  have hkept := (h none Iff.rfl [.failed] _ _ _ rfl).1
  revert hkept
  unfold Kept
  decide

end Hoe
