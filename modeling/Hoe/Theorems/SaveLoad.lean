import Hoe.Lemmas.LoadFile
import Hoe.Lemmas.Save
import Hoe.Lemmas.Saved

/-!
# Saving and loading again

`raw_save_buffer` opens the file with O_TRUNC and then reads the buffer block by block. A page that is mapped from the same inode
shows what has been written by then: the save goes through, and the file loads back as the text, exactly when every such byte is
written to its own place before it is read (`save_load_iff`). Whether the file is read in or mapped makes no difference, but for the
last sizes below 2 GiB, for which `mmap_buffer` cannot count the pages.
-/

namespace Hoe

open Splice

/-- Every read of the one text gives what it gives of the other. -/
def ReadsSame (t u : Pages) : Prop := ∀ offset size, (ebRead t offset size).2 = (ebRead u offset size).2

/-- A new buffer behind `mmap_buffer`, where the calls of the system do all they can. -/
def mappedBuffer (saveLog : Bool) (ino : Nat) (file : List Byte) : EditBuffer :=
  (mmapFile willingCalls (EditBuffer.new saveLog) ino file).getD (EditBuffer.new saveLog)

/-- The file holds the bytes of the text, and a new buffer that loads it reads the same: through `raw_load_buffer1`, however short
its reads are, and through `mmap_buffer`, whose pages can all be read. -/
def LoadsAs (files : Files) (t : Pages) : Prop :=
  ∃ ino, files.target = some ino ∧ files.data ino = t.bytes ∧ ∀ saveLog,
    (∀ reads : List Nat, (∀ n ∈ reads, 0 < n) → (files.data ino).length ≤ reads.length →
      ∃ b, loadReads reads (EditBuffer.new saveLog) 0 (files.data ino) = some b ∧ ReadsSame b.toPages t) ∧
    ReadsSame (showPages files.data (mappedBuffer saveLog ino (files.data ino)).toPages) t ∧
    ∀ offset size, ¬(mappedBuffer saveLog ino (files.data ino)).toPages.Faults files.data offset size

/-- Whatever positive numbers of bytes the writes take, `raw_save_buffer` returns zero and the file loads as the text. -/
def SaveLoads (files : Files) (t : Pages) : Prop :=
  ∀ writes : List Nat, (∀ n ∈ writes, 0 < n) → t.totalSize ≤ writes.length →
    ∃ files' t', rawSaveBuffer files t true (writes.map .accepted) = some (files', t', 0) ∧ LoadsAs files' t

/-- A block that may be read when `s` bytes have been written has no byte mapped from the inode that cannot be read by then, or is
not what has been written there. -/
def MappedSafe (t : Pages) (ino : Nat) : Prop :=
  ∀ (j : Nat) (r : FileRef), t.places[j]? = some (some r) → r.ino = ino → ∀ s ≤ j, j < s + ioBufSize →
    r.off < ((s + memoryPage - 1) / memoryPage) * memoryPage ∧ (t.bytes.take s).getD r.off 0 = t.bytes.getD j 0

/-- The rounding up of the size to pages is an `int`. -/
def PagesCounted (t : Pages) : Prop := t.totalSize + maxPageSize ≤ 2 ^ 31

/-! ## Loading -/

theorem ebRead_bytes {t : Pages} (ht : t.Ok) (offset size : Nat) : (ebRead t offset size).2 = slice t.bytes offset size := by
  by_cases ho : offset ≤ t.totalSize
  · obtain ⟨t', h, -⟩ := ebRead_spec ht size ho
    rw [h]
  · have hnone : rwSize t offset size = 0 := by
      rw [rwSize, if_pos (by omega)]
      omega
    have hend : t.bytes.drop offset = [] := List.drop_of_length_le (by rw [ht.length_bytes]; omega)
    rw [slice, hend, List.take_nil, ebRead]
    simp only [hnone, if_true]

theorem readsSame {t u : Pages} (ht : t.Ok) (hu : u.Ok) (h : t.bytes = u.bytes) : ReadsSame t u := by
  intro offset size
  rw [ebRead_bytes ht, ebRead_bytes hu, h]

/-- `raw_load_buffer1` with short reads appends the file. -/
theorem loadReads_stands {reads : List Nat} {b : EditBuffer} {d : Doc} (h : Stands b d) (file : List Byte)
    (hpos : ∀ n ∈ reads, 0 < n) (hlen : file.length ≤ reads.length) :
    ∃ b' d', loadReads reads b d.text.length file = some b' ∧ Stands b' d' ∧ d'.text = d.text ++ file := by
  induction reads generalizing b d file with
  | nil =>
    have hnil : file = [] := List.eq_nil_of_length_eq_zero (Nat.le_zero.1 hlen)
    exact ⟨b, d, by rw [loadReads, if_pos hnil], h, by rw [hnil, List.append_nil]⟩
  | cons n reads ih =>
    by_cases hnil : file = []
    · exact ⟨b, d, by rw [loadReads, if_pos hnil], h, by rw [hnil, List.append_nil]⟩
    obtain ⟨buf, hbuf⟩ : ∃ buf, buf = file.take (min n ioBufSize) := ⟨_, rfl⟩
    have hn := hpos n List.mem_cons_self
    have hfile := List.length_pos_of_ne_nil hnil
    have hread : 0 < buf.length := by
      rw [hbuf, List.length_take, ioBufSize]
      omega
    have htext : (d.insert d.text.length buf).text = d.text ++ buf := by
      rw [Doc.insert]
      dsimp only
      rw [insertAt, List.take_length, List.drop_length, List.append_nil]
    have hrest : buf ++ file.drop buf.length = file := by
      rw [hbuf]
      exact List.prefix_iff_eq_append.1 (List.take_prefix _ _)
    obtain ⟨b', d', i1, i2, i3⟩ := ih (ebInsert_stands h (Nat.le_refl _) buf) (file.drop buf.length)
      (fun m hm => hpos m (List.mem_cons_of_mem _ hm)) (by
        rw [List.length_drop]
        rw [List.length_cons] at hlen
        omega)
    refine ⟨b', d', ?_, i2, ?_⟩
    · rw [loadReads, if_neg hnil, ← i1, htext, List.length_append, hbuf]
    · rw [i3, htext, List.append_assoc, hrest]

/-- Every page of a mapped file shows the file. -/
theorem mapPages_shows (ino : Nat) (file : List Byte) {n : Nat} (ptr : Nat) (hn : n = pagesFor (file.drop ptr).length) :
    ∀ p ∈ mapPages ino n ptr (file.drop ptr), ∀ r ∈ p.ref, r.ino = ino ∧ slice file r.off p.size = p.data := by
  induction n generalizing ptr with
  | zero =>
    intro p hp
    cases hp
  | succ n ih =>
    have hpos : 0 < (file.drop ptr).length := by
      by_contra hz
      rw [Nat.eq_zero_of_not_pos hz, pagesFor_zero] at hn
      omega
    have hdrop : (file.drop ptr).drop maxPageSize = file.drop (ptr + maxPageSize) := by rw [List.drop_drop]
    intro p hp r hr
    rw [mapPages] at hp
    rcases List.mem_cons.1 hp with rfl | hp
    · obtain rfl : ⟨ino, ptr⟩ = r := Option.some.inj hr
      refine ⟨rfl, ?_⟩
      dsimp only [newPage]
      rw [slice, List.length_take, ← List.take_take, List.take_length]
    · rw [hdrop] at hp
      refine ih (ptr + maxPageSize) ?_ p hp r hr
      rw [← hdrop, List.length_drop]
      have := pagesFor_succ hpos
      omega

/-- The first byte of a mapped file lies at its beginning. -/
theorem mmapBuffer_places (b : EditBuffer) (ino : Nat) {file : List Byte} (hfile : 0 < file.length) :
    (mmapBuffer b ino file).toPages.places[0]? = some (some ⟨ino, 0⟩) := by
  rw [mmapBuffer, if_neg (Nat.ne_of_gt hfile)]
  dsimp only [Pages.places]
  rw [pagesFor_succ hfile, mapPages, List.flatMap_cons, Page.places]
  have hsize : min maxPageSize file.length = min maxPageSize file.length - 1 + 1 := by
    have := maxPageSize_pos
    omega
  dsimp only [newPage]
  rw [List.length_take, hsize, List.range_succ_eq_map]
  rfl

/-- A mapped file reads as the file. -/
theorem mmap_shows {files : Files} {ino : Nat} (hino : ino < files.next) (saveLog : Bool) :
    Shows files (mmapBuffer (EditBuffer.new saveLog) ino (files.data ino)).toPages := by
  rw [mmapBuffer]
  by_cases hz : (files.data ino).length = 0
  · rw [if_pos hz]
    intro p hp
    cases hp
  · rw [if_neg hz]
    intro p hp r hr
    obtain ⟨h1, h2⟩ := mapPages_shows ino (files.data ino) 0 rfl p hp r hr
    rw [h1]
    exact ⟨hino, h2⟩

/-- A file that holds the bytes of the text loads as it. -/
theorem loadsAs {files : Files} {t : Pages} (ht : t.Ok) (hsize : PagesCounted t) {ino : Nat} (htarget : files.target = some ino)
    (hdata : files.data ino = t.bytes) : LoadsAs files t := by
  have hino : ino < files.next := files.target_lt ino htarget
  have hlen : (files.data ino).length + maxPageSize ≤ 2 ^ 31 := by
    rw [hdata, ht.length_bytes]
    exact hsize
  refine ⟨ino, htarget, hdata, fun saveLog => ⟨?_, ?_⟩⟩
  · intro reads hpos hlen
    obtain ⟨b, d, h1, h2, h3⟩ := loadReads_stands (new_stands saveLog) (files.data ino) hpos hlen
    refine ⟨b, h1, readsSame h2.ok ht ?_⟩
    rw [h2.text, h3, hdata]
    rfl
  · rw [mappedBuffer, mmapFile_getD _ _ hlen]
    have hstands := mmapBuffer_stands (new_stands saveLog) rfl rfl ino (files.data ino)
    have hshow := mmap_shows hino saveLog
    have hav : Avoids (mmapBuffer (EditBuffer.new saveLog) ino (files.data ino)).pageTable files.next := by
      intro p hp r hr
      exact Nat.ne_of_lt (hshow p hp r hr).1
    have hsame : ∀ i ≠ files.next, files.data i = files.data i := fun _ _ => rfl
    obtain ⟨h1, h2⟩ := hshow.undisturbed hstands.ok hav hsame
    refine ⟨?_, h2⟩
    rw [h1]
    refine readsSame hstands.ok ht ?_
    rw [hstands.text, hdata]

/-! ## Saving -/

theorem Shows.shown {files : Files} {t : Pages} (h : Shows files t) (ht : t.Ok) : t.shown files.data = t.bytes := by
  have hav : Avoids t.pageTable files.next := by
    intro p hp r hr
    exact Nat.ne_of_lt (h p hp r hr).1
  rw [Pages.shown, (h.undisturbed ht hav fun _ _ => rfl).1]

/-- A byte of a text that lies in a file. -/
theorem shown_getElem? (data : Nat → List Byte) {t : Pages} (ht : t.Ok) {j : Nat} {place : Option FileRef}
    (hplace : t.places[j]? = some place) : (t.shown data)[j]? = some (shownByte data place (t.bytes.getD j 0)) := by
  have hlen : t.places.length = t.totalSize := by rw [Pages.places, length_places, ht.total]
  have hj : j < t.bytes.length := by
    rw [ht.length_bytes, ← hlen]
    exact (List.getElem?_eq_some_iff.1 hplace).1
  rw [shown_eq data ht, List.getElem?_zipWith, hplace, List.getElem?_eq_getElem hj, List.getD_eq_getElem _ _ hj]

theorem exists_place {t : Pages} (ht : t.Ok) {j : Nat} (hj : j < t.totalSize) : ∃ place, t.places[j]? = some place := by
  have hlen : j < t.places.length := by
    rw [Pages.places, length_places, ← ht.total]
    exact hj
  exact ⟨_, List.getElem?_eq_getElem hlen⟩

theorem faults_iff {t : Pages} {data : Nat → List Byte} {offset size : Nat} :
    t.Faults data offset size ↔ ∃ j r, offset ≤ j ∧ j < offset + size ∧ t.places[j]? = some (some r) ∧ r.Faults data := by
  constructor
  · rintro ⟨r, hr, hf⟩
    obtain ⟨i, hi⟩ := List.mem_iff_getElem?.1 hr
    rw [getElem?_slice] at hi
    by_cases hlt : i < size
    · rw [if_pos hlt] at hi
      exact ⟨offset + i, r, Nat.le_add_right _ _, by omega, hi, hf⟩
    · rw [if_neg hlt] at hi
      cases hi
  · rintro ⟨j, r, h1, h2, h3, hf⟩
    refine ⟨r, List.mem_iff_getElem?.2 ⟨j - offset, ?_⟩, hf⟩
    rw [getElem?_slice, if_pos (by omega), Nat.add_sub_cancel' h1, h3]

/-- With `s` bytes written, the next block can be read, and shows the text. -/
theorem MappedSafe.block {files : Files} {t : Pages} {ino : Nat} (h : MappedSafe t ino) (ht : t.Ok) (hshow : Shows files t)
    {data : Nat → List Byte} (hsame : ∀ i ≠ ino, data i = files.data i) {s : Nat} (hs : s ≤ t.totalSize)
    (hdata : data ino = t.bytes.take s) :
    ¬t.Faults data s (min (t.totalSize - s) ioBufSize) ∧ ∀ n ≤ ioBufSize, slice (t.shown data) s n = slice t.bytes s n := by
  have hwritten : (data ino).length = s := by rw [hdata, List.length_take, ht.length_bytes, Nat.min_eq_left hs]
  constructor
  · intro hfaults
    obtain ⟨j, r, h1, h2, hplace, hf⟩ := faults_iff.1 hfaults
    by_cases hr : r.ino = ino
    · have hoff := (h j r hplace hr s h1 (by omega)).1
      rw [FileRef.Faults, hr, hwritten] at hf
      omega
    · refine not_faults ?_ hf
      rw [hsame _ hr]
      exact (hshow.inside ht (List.mem_iff_getElem?.2 ⟨j, hplace⟩)).2
  · intro n hn
    refine slice_congr fun i hi => ?_
    by_cases hj : s + i < t.totalSize
    · obtain ⟨place, hplace⟩ := exists_place ht hj
      have hbyte : t.bytes[s + i]? = some (t.bytes.getD (s + i) 0) := by
        have hlt : s + i < t.bytes.length := by rw [ht.length_bytes]; exact hj
        rw [List.getD_eq_getElem _ _ hlt, List.getElem?_eq_getElem hlt]
      have hheld := shown_getElem? files.data ht hplace
      rw [hshow.shown ht, hbyte] at hheld
      rw [shown_getElem? data ht hplace, hbyte]
      rcases place with _ | r
      · rfl
      · by_cases hr : r.ino = ino
        · rw [shownByte, hr, hdata, (h _ r hplace hr s (Nat.le_add_right _ _) (by omega)).2]
        · rw [hheld, shownByte, shownByte, hsame _ hr]
    · have hlen := length_shown data ht
      rw [List.getElem?_eq_none (by omega), List.getElem?_eq_none (by rw [ht.length_bytes]; omega)]

/-- The loop writes the text when every block it reads shows the text. -/
theorem MappedSafe.saveBlocks {files₀ : Files} {t₀ : Pages} {ino : Nat} (h : MappedSafe t₀ ino) (ht₀ : t₀.Ok)
    (hshow : Shows files₀ t₀) {writes : List Nat} (hpos : ∀ n ∈ writes, 0 < n) {files : Files} {t : Pages} {size : Nat}
    (halike : Alike t₀ t) (hsame : ∀ i ≠ ino, files.data i = files₀.data i) (hsize : size ≤ t₀.totalSize)
    (hlen : size ≤ writes.length) (hdata : files.data ino = t₀.bytes.take (t₀.totalSize - size)) :
    ∃ files' t', Hoe.saveBlocks ino (writes.map .accepted) files t size = some (files', t', 0) ∧
      files'.target = files.target ∧ files'.data ino = t₀.bytes := by
  have hbytes := ht₀.length_bytes
  have hdone : size = 0 → files.data ino = t₀.bytes := by
    intro hz
    rw [hdata, hz, Nat.sub_zero, List.take_of_length_le (Nat.le_of_eq hbytes)]
  induction writes generalizing files t size with
  | nil =>
    have hz : size = 0 := Nat.le_zero.1 hlen
    exact ⟨files, t, by rw [List.map_nil, Hoe.saveBlocks, if_pos hz], rfl, hdone hz⟩
  | cons n writes ih =>
    by_cases hz : size = 0
    · exact ⟨files, t, by rw [List.map_cons, Hoe.saveBlocks, if_pos hz], rfl, hdone hz⟩
    obtain ⟨hread, hblock⟩ := h.block ht₀ hshow hsame (Nat.sub_le _ size) hdata
    have hleft : t₀.totalSize - (t₀.totalSize - size) = size := by omega
    rw [hleft] at hread
    rcases saveBlocks_turn halike.ok hz ino n (writes.map .accepted) with ⟨hf, -⟩ | ⟨-, t', ht', heq⟩
    · rw [halike.faults, halike.total] at hf
      exact absurd hf hread
    obtain ⟨k, hk⟩ : ∃ k, k = min n (min size ioBufSize) := ⟨_, rfl⟩
    have hn := hpos n List.mem_cons_self
    have hio : 0 < ioBufSize := by decide
    rw [← hk, halike.shown, halike.total, hblock k (by omega)] at heq
    rw [List.length_cons] at hlen
    obtain ⟨next, hnext⟩ : ∃ next, next = files.write ino (slice t₀.bytes (t₀.totalSize - size) k) := ⟨_, rfl⟩
    have hsame' : ∀ i ≠ ino, next.data i = files₀.data i := by
      intro i hi
      rw [hnext, Files.write_of_ne _ hi, hsame i hi]
    have hdata' : next.data ino = t₀.bytes.take (t₀.totalSize - (size - k)) := by
      rw [hnext, Files.write_self, hdata, slice, ← List.take_add]
      congr 1
      omega
    obtain ⟨files', t'', i1, i2, i3⟩ := ih (fun m hm => hpos m (List.mem_cons_of_mem _ hm)) (halike.trans ht') hsame' (by omega)
      (by omega) hdata' (fun hz' => by rw [hdata', hz', Nat.sub_zero, List.take_of_length_le (Nat.le_of_eq hbytes)])
    refine ⟨files', t'', by rw [List.map_cons, heq, ← hnext, i1], i2.trans ?_, i3⟩
    rw [hnext]
    rfl

/-- What is opened: nothing else changes. -/
theorem openTruncate_spec (files : Files) : files.openTruncate.1.target = some files.openTruncate.2 ∧
    files.openTruncate.1.data = Function.update files.data files.openTruncate.2 [] := by
  cases h : files.target with
  | none =>
    obtain ⟨f, h1, h2, -, h4⟩ := Files.openTruncate_none h
    rw [h1]
    exact ⟨h2, h4⟩
  | some ino =>
    obtain ⟨f, h1, h2, -, h4⟩ := Files.openTruncate_some h
    rw [h1]
    exact ⟨h2, h4⟩

theorem rawSaveBuffer_opened (files : Files) (t : Pages) (writes : List WriteResult) : rawSaveBuffer files t true writes =
    saveBlocks files.openTruncate.2 writes files.openTruncate.1 t t.totalSize := rfl

theorem MappedSafe.saves {files : Files} {t : Pages} (h : MappedSafe t files.openTruncate.2) (ht : t.Ok) (hshow : Shows files t)
    (hsize : PagesCounted t) : SaveLoads files t := by
  obtain ⟨o1, o2⟩ := openTruncate_spec files
  have hsame : ∀ i ≠ files.openTruncate.2, files.openTruncate.1.data i = files.data i := by
    intro i hi
    rw [o2, Function.update_of_ne hi]
  have hnil : files.openTruncate.1.data files.openTruncate.2 = t.bytes.take (t.totalSize - t.totalSize) := by
    rw [o2, Function.update_self, Nat.sub_self, List.take_zero]
  intro writes hpos hlen
  obtain ⟨files', t', h1, h2, h3⟩ := h.saveBlocks ht hshow hpos (Alike.refl ht) hsame (Nat.le_refl _) hlen hnil
  exact ⟨files', t', by rw [rawSaveBuffer_opened, h1], loadsAs ht hsize (h2.trans o1) h3⟩

/-! ## A save that goes wrong -/

/-- What has been written stays. -/
theorem saveBlocks_prefix {ino : Nat} {writes : List Nat} {files files' : Files} {t t' : Pages} (ht : t.Ok) {size : Nat}
    {ret : Int} (h : saveBlocks ino (writes.map .accepted) files t size = some (files', t', ret)) : files.data ino <+: files'.data ino := by
  induction writes generalizing files t size with
  | nil =>
    rw [List.map_nil, saveBlocks] at h
    by_cases hz : size = 0
    · rw [if_pos hz] at h
      obtain ⟨rfl, -, -⟩ : files = files' ∧ t = t' ∧ 0 = ret := by simpa using h
      exact List.prefix_refl _
    · rw [if_neg hz] at h
      cases h
  | cons n writes ih =>
    by_cases hz : size = 0
    · rw [List.map_cons, saveBlocks, if_pos hz] at h
      obtain ⟨rfl, -, -⟩ : files = files' ∧ t = t' ∧ 0 = ret := by simpa using h
      exact List.prefix_refl _
    rw [List.map_cons] at h
    rcases saveBlocks_turn ht hz ino n (writes.map .accepted) with ⟨-, hf⟩ | ⟨-, t₁, ht₁, heq⟩
    · rw [hf] at h
      cases h
    · rw [heq] at h
      have hrest := ih ht₁.ok h
      rw [Files.write_self] at hrest
      exact (List.prefix_append _ _).trans hrest

theorem saveBlocks_target {ino : Nat} {writes : List WriteResult} {files files' : Files} {t t' : Pages} {size : Nat} {ret : Int}
    (h : saveBlocks ino writes files t size = some (files', t', ret)) : files'.target = files.target := by
  induction writes generalizing files t size with
  | nil =>
    rw [saveBlocks] at h
    by_cases hz : size = 0
    · rw [if_pos hz] at h
      obtain ⟨rfl, -, -⟩ : files = files' ∧ t = t' ∧ 0 = ret := by simpa using h
      rfl
    · rw [if_neg hz] at h
      cases h
  | cons w ws ih =>
    rw [saveBlocks] at h
    by_cases hz : size = 0
    · rw [if_pos hz] at h
      obtain ⟨rfl, -, -⟩ : files = files' ∧ t = t' ∧ 0 = ret := by simpa using h
      rfl
    rw [if_neg hz] at h
    dsimp only at h
    split at h
    · cases h
    cases w with
    | failed =>
      obtain ⟨rfl, -, -⟩ : files = files' ∧ _ = t' ∧ -1 = ret := by simpa using h
      rfl
    | accepted n =>
      have hrest := ih h
      rwa [Files.write] at hrest

/-- Writes of one byte at a time bring the loop to every place of the text. -/
theorem saveBlocks_ones {ino k : Nat} {ws : List WriteResult} {files files' : Files} {t t' : Pages} (ht : t.Ok) {size : Nat}
    {ret : Int} (hk : k ≤ size) (hsize : size ≤ t.totalSize)
    (h : saveBlocks ino (List.replicate k (.accepted 1) ++ ws) files t size = some (files', t', ret)) :
    ∃ files₁ t₁, Alike t t₁ ∧ saveBlocks ino ws files₁ t₁ (size - k) = some (files', t', ret) ∧
      (files₁.data ino).length = (files.data ino).length + k := by
  induction k generalizing files t size with
  | zero => exact ⟨files, t, Alike.refl ht, h, rfl⟩
  | succ k ih =>
    rw [List.replicate_succ, List.cons_append] at h
    have hz : size ≠ 0 := by omega
    have hone : min 1 (min size ioBufSize) = 1 := by
      rw [ioBufSize]
      omega
    rcases saveBlocks_turn ht hz ino 1 (List.replicate k (.accepted 1) ++ ws) with ⟨-, hf⟩ | ⟨-, t₁, ht₁, heq⟩
    · rw [hf] at h
      cases h
    · rw [heq, hone] at h
      obtain ⟨files₂, t₂, i1, i2, i3⟩ := ih ht₁.ok (by omega) (by rw [ht₁.total]; omega) h
      refine ⟨files₂, t₂, ht₁.trans i1, ?_, ?_⟩
      · rw [← i2, Nat.sub_sub, Nat.add_comm 1 k]
      · have hblock : (slice (t.shown files.data) (t.totalSize - size) 1).length = 1 :=
          length_slice _ (by rw [length_shown _ ht]; omega)
        rw [i3, Files.write_self, List.length_append, hblock]
        omega

/-- A byte that is mapped from the file and not safe is read at a bad moment by some save. -/
theorem SaveLoads.mapped {files : Files} {t : Pages} (ht : t.Ok) (h : SaveLoads files t) : MappedSafe t files.openTruncate.2 := by
  obtain ⟨o1, o2⟩ := openTruncate_spec files
  intro j r hplace hr s hs hj
  have hlen : t.places.length = t.totalSize := by rw [Pages.places, length_places, ht.total]
  have hjt : j < t.totalSize := hlen ▸ (List.getElem?_eq_some_iff.1 hplace).1
  obtain ⟨rest, hrest⟩ : ∃ rest, rest = List.replicate t.totalSize ioBufSize := ⟨_, rfl⟩
  have hpos : ∀ n ∈ List.replicate s 1 ++ rest, 0 < n := by
    intro n hn
    rw [List.mem_append, hrest] at hn
    rcases hn with hn | hn
    · rw [List.eq_of_mem_replicate hn]
      decide
    · rw [List.eq_of_mem_replicate hn]
      decide
  have hmany : t.totalSize ≤ (List.replicate s 1 ++ rest).length := by
    rw [List.length_append, hrest, List.length_replicate, List.length_replicate]
    exact Nat.le_add_left _ _
  obtain ⟨files', t', hsave, ino, htarget, hdata, -⟩ := h _ hpos hmany
  rw [rawSaveBuffer_opened, List.map_append, List.map_replicate] at hsave
  have hino : ino = files.openTruncate.2 := by
    have hkept := saveBlocks_target hsave
    rw [htarget, o1] at hkept
    exact Option.some.inj hkept
  -- after `s` bytes the block with the byte is read
  obtain ⟨files₁, t₁, h₁, hsave₁, hwritten⟩ := saveBlocks_ones ht (by omega) (Nat.le_refl _) hsave
  rw [o2, Function.update_self, List.length_nil, Nat.zero_add] at hwritten
  have hbegun : files₁.data files.openTruncate.2 = t.bytes.take s := by
    have hprefix := saveBlocks_prefix h₁.ok hsave₁
    rw [← hino, hdata, hino] at hprefix
    rw [List.prefix_iff_eq_take.1 hprefix, hwritten]
  obtain ⟨rest', hrest'⟩ : ∃ rest', rest = ioBufSize :: rest' := by
    refine ⟨List.replicate (t.totalSize - 1) ioBufSize, ?_⟩
    rw [hrest, ← List.replicate_succ]
    congr 1
    omega
  rw [hrest', List.map_cons] at hsave₁
  have hs₁ : t₁.totalSize - (t.totalSize - s) = s := by
    rw [h₁.total]
    omega
  have hleft : t.totalSize - s ≠ 0 := by omega
  rcases saveBlocks_turn h₁.ok hleft files.openTruncate.2 ioBufSize (rest'.map .accepted) with ⟨-, hf⟩ | ⟨hread, t₂, h₂, heq⟩
  · rw [hf] at hsave₁
    cases hsave₁
  rw [h₁.faults, hs₁] at hread
  rw [heq, hs₁, h₁.shown] at hsave₁
  constructor
  · by_contra hoff
    refine hread (faults_iff.2 ⟨j, r, hs, by omega, hplace, ?_⟩)
    rw [FileRef.Faults, hr, hwritten]
    omega
  · have hprefix := saveBlocks_prefix h₂.ok hsave₁
    obtain ⟨n, hn⟩ : ∃ n, n = min ioBufSize (min (t.totalSize - s) ioBufSize) := ⟨_, rfl⟩
    have hlength : (slice (t.shown files₁.data) s n).length = n := length_slice _ (by rw [length_shown _ ht]; omega)
    have hblock : slice (t.shown files₁.data) s n = slice t.bytes s n := by
      rw [Files.write_self, hbegun, ← hn, ← hino, hdata] at hprefix
      rw [eq_slice_of_take_append hprefix, hlength]
    have hbyte : (slice (t.shown files₁.data) s n)[j - s]? = (slice t.bytes s n)[j - s]? := by rw [hblock]
    rw [getElem?_slice, getElem?_slice, if_pos (by omega), if_pos (by omega), Nat.add_sub_cancel' hs,
      shown_getElem? files₁.data ht hplace, shownByte, hr, hbegun] at hbyte
    have htext : t.bytes.getD j 0 = (t.bytes[j]?).getD 0 := List.getD_eq_getElem?_getD
    rw [htext, ← hbyte, Option.getD_some]

/-- A text that is mapped again is none whose pages cannot be counted: those are not mapped, and the buffer stays empty. -/
theorem SaveLoads.counted {files : Files} {t : Pages} (ht : t.Ok) (hsize : t.totalSize < 2 ^ 31) (h : SaveLoads files t) :
    PagesCounted t := by
  have hmax : maxPageSize = 4096 := rfl
  by_contra hlarge
  rw [PagesCounted, hmax] at hlarge
  obtain ⟨files', -, -, ino, -, hdata, hloads⟩ := h (List.replicate t.totalSize 1)
    (fun n hn => by rw [List.eq_of_mem_replicate hn]; decide) (Nat.le_of_eq List.length_replicate.symm)
  have hlen : (files'.data ino).length = t.totalSize := by rw [hdata, ht.length_bytes]
  obtain ⟨-, hsame, -⟩ := hloads true
  rw [mappedBuffer, mmapFile_none _ _ _ (by omega) (by omega)] at hsame
  have hempty : slice t.bytes 0 1 = [] := by
    rw [← ebRead_bytes ht, ← hsame 0 1]
    rfl
  have hlength : (slice t.bytes 0 1).length = 1 := length_slice _ (by rw [ht.length_bytes]; omega)
  rw [hempty] at hlength
  cases hlength

/-- A save whose writes all take something writes the text, and the file loads back as the text either way, if and only if no block
has a byte mapped from the file that is opened that is read too early, or shows something else by then, and the pages of the file can
be counted. -/
theorem save_load_iff {files : Files} {t : Pages} (ht : t.Ok) (hshow : Shows files t) (hsize : t.totalSize < 2 ^ 31) :
    SaveLoads files t ↔ MappedSafe t files.openTruncate.2 ∧ PagesCounted t :=
  ⟨fun h => ⟨h.mapped ht, h.counted ht hsize⟩, fun h => h.1.saves ht hshow h.2⟩

/-- A file that is mapped, saved to another one. -/
theorem save_load_other :
    SaveLoads ⟨some 3, none, fun _ => [5, 6], 4, by decide⟩ (mmapBuffer (EditBuffer.new true) 2 [5, 6]).toPages := by
  refine (save_load_iff (mmapBuffer_stands (new_stands true) rfl rfl 2 [5, 6]).ok ?_ (by decide)).2 ⟨?_, by unfold PagesCounted; decide⟩
  · unfold Shows
    decide
  · intro j r hplace hr
    have hmem := List.mem_iff_getElem?.2 ⟨j, hplace⟩
    have hall : ∀ o ∈ (mmapBuffer (EditBuffer.new true) 2 [5, 6]).toPages.places, ∀ r ∈ o, r.ino = 2 := by decide
    have htwo := hall _ hmem r rfl
    rw [hr] at htwo
    cases htwo

/-- A file that is large enough to be mapped, saved in place. -/
theorem not_save_load_in_place :
    ¬SaveLoads ⟨some 3, none, fun _ => List.replicate minMmapSize 0x61, 4, by decide⟩
      (rawLoadBuffer (EditBuffer.new true) 3 (List.replicate minMmapSize 0x61)).toPages := by
  intro h
  obtain ⟨file, hfile⟩ : ∃ file, file = List.replicate minMmapSize (0x61 : Byte) := ⟨_, rfl⟩
  have hlarge : minMmapSize ≤ file.length := by rw [hfile, List.length_replicate]
  rw [← hfile, rawLoadBuffer, if_pos hlarge] at h
  have hpos : 0 < file.length := Nat.lt_of_lt_of_le (by decide) hlarge
  have hmapped := h.mapped (mmapBuffer_stands (new_stands true) rfl rfl 3 file).ok
  have hfirst := (hmapped 0 ⟨3, 0⟩ (mmapBuffer_places _ 3 hpos) rfl 0 (Nat.le_refl _) (by decide)).1
  exact absurd hfirst (by decide)

end Hoe
