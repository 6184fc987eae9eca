import Hoe.Lemmas.LoadFile
import Hoe.Lemmas.Saved

/-!
# The sizes of a file that is loaded

A file is read in blocks or mapped page by page, and its size goes through an `int`. Where it is one, the buffer has the size of the
file and pages of one byte at least; where the `int` is not positive, nothing is mapped.
-/

namespace Hoe

open Splice

variable {sys : SystemCalls} {b b' : EditBuffer} {ino : Nat} {file : List Byte}

/-- What the buffer of a loaded file should be: the sizes are those of the file, and each is positive and an `int`; an empty file has
no page. -/
structure Loaded (file : List Byte) (b : EditBuffer) : Prop where
  total : b.totalSize = file.length
  pages : tableSize b.pageTable = file.length
  nb : b.nbPages = b.pageTable.length
  nb_lt : b.nbPages < 2 ^ 31
  nb_pos : 0 < b.nbPages ↔ file ≠ []
  sizes : ∀ p ∈ b.pageTable, 0 < p.size ∧ p.size < 2 ^ 31

/-- A table has a byte for each page at least. -/
theorem length_le_tableSize {ps : List Page} (h : ∀ p ∈ ps, p.Ok) : ps.length ≤ tableSize ps := by
  induction ps with
  | nil => exact Nat.le_refl 0
  | cons p ps ih =>
    have hpos := (h p List.mem_cons_self).pos
    have htail := ih fun q hq => h q (List.mem_cons_of_mem p hq)
    rw [List.length_cons, tableSize_cons]
    omega

/-- A well formed buffer that holds the file, whose size is an `int`. -/
theorem loaded_of_ok (hok : b.toPages.Ok) (htext : b.bytes = file) (hlen : file.length < 2 ^ 31) : Loaded file b := by
  have hbytes : file.length = b.totalSize := by rw [← htext, hok.length_bytes]
  have hle := length_le_tableSize hok.pages
  have htotal := hok.total
  refine ⟨hbytes.symm, by rw [← htotal, hbytes], hok.nb, by have hnb := hok.nb; omega, ?_, fun p hp => ?_⟩
  · rw [hok.nb, List.length_pos_iff, not_iff_not]
    constructor
    · intro hnil
      rw [hnil] at htotal
      exact List.length_eq_zero_iff.mp (hbytes.trans htotal)
    · intro hnil
      rw [hnil] at hbytes
      exact List.length_eq_zero_iff.mp (Nat.le_zero.mp (hle.trans (by rw [← htotal, ← hbytes]; exact Nat.le_refl 0)))
  · have hmax := (hok.pages p hp).le
    refine ⟨(hok.pages p hp).pos, lt_of_le_of_lt hmax ?_⟩
    decide

/-- Whatever size a file has, but for those from 2 GiB on that are positive as an `int`: it is not loaded, or the buffer has its
sizes. -/
theorem rawLoadFile_loaded (hwf : b.WellFormed) (hempty : b.bytes = []) (hlog : b.saveLog = false)
    (hsize : file.length < 2 ^ 31 ∨ wrapInt file.length ≤ 0) (hload : rawLoadFile sys b ino file file = some b') : Loaded file b' := by
  obtain ⟨d, hd⟩ := hwf
  have htext : d.text = [] := hd.text.symm.trans hempty
  unfold rawLoadFile at hload
  split at hload
  · have hlen : file.length < 2 ^ 31 := by
      rcases hsize with hlen | hneg
      · exact hlen
      · exact absurd (mmapFile_pos hload) (Int.not_lt.mpr hneg)
    have hloaded := mmapBuffer_stands hd htext (hd.curPage_eq_none htext) ino file
    rw [← mmapFile_eq hlen hload] at hloaded
    exact loaded_of_ok hloaded.ok hloaded.text hlen
  · rename_i hsmall
    rw [← Option.some.inj hload]
    obtain ⟨d', hd', -, htext'⟩ := loadBlocks_stands hd (hd.saveLog.symm.trans hlog) (Nat.zero_le _) file rfl
    refine loaded_of_ok hd'.ok ?_ ?_
    · rw [rawLoadBuffer1, hd'.text, htext', htext]
      simp [insertAt]
    · unfold minMmapSize at hsmall
      omega

theorem new_empty : (EditBuffer.new false).WellFormed ∧ (EditBuffer.new false).bytes = [] ∧ (EditBuffer.new false).saveLog = false :=
  ⟨⟨_, new_stands false⟩, rfl, rfl⟩

/-- The smallest file that is mapped. -/
theorem rawLoadFile_loaded_mapped :
    Loaded (List.replicate minMmapSize 0x61) (mmapBuffer (EditBuffer.new false) 0 (List.replicate minMmapSize 0x61)) := by
  have hlen : (List.replicate minMmapSize (0x61 : Byte)).length = minMmapSize := List.length_replicate
  have hsizes : minMmapSize = 1048576 ∧ maxPageSize = 4096 := by decide
  refine @rawLoadFile_loaded willingCalls _ _ 0 _ new_empty.1 new_empty.2.1 new_empty.2.2 (Or.inl (by omega)) ?_
  rw [rawLoadFile, if_pos (Nat.le_of_eq hlen.symm), mmapFile_willing _ _ (by omega) (by omega)]

/-- An empty file has no page. -/
theorem not_pages_pos : ¬∀ (sys : SystemCalls) (b b' : EditBuffer) (ino : Nat) (file : List Byte), b.WellFormed → b.bytes = [] →
    b.saveLog = false → rawLoadFile sys b ino file file = some b' →
    b'.totalSize = file.length ∧ tableSize b'.pageTable = file.length ∧ 0 < b'.nbPages ∧ b'.nbPages < 2 ^ 31 ∧
      ∀ p ∈ b'.pageTable, 0 < p.size ∧ p.size < 2 ^ 31 := by
  intro h
  have hpos := h willingCalls (EditBuffer.new false) (EditBuffer.new false) 0 [] new_empty.1 new_empty.2.1 new_empty.2.2 rfl
  exact absurd hpos.2.2.1 (by decide)

end Hoe
