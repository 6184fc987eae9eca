import Hoe.Lemmas.Pages
import Hoe.Lemmas.Refine
import Hoe.Save

/-!
# Saving

What is written to a file, and what is shown of it.
-/

namespace Hoe

/-!
## Reading a text while it is saved

The mapped pages of a buffer show their files when the save begins. As long as no page is mapped from the inode that is written,
every block is read as it was held before, so what has been written is the beginning of the text at every moment.
-/

open Splice

/-- The mapped pages of a text lie in the files, which hold what the pages say. -/
def Shows (files : Files) (t : Pages) : Prop :=
  ∀ p ∈ t.pageTable, ∀ r ∈ p.ref, r.ino < files.next ∧ slice (files.data r.ino) r.off p.size = p.data

/-- No byte of the pages is read from the inode. -/
def Avoids (ps : List Page) (ino : Nat) : Prop := ∀ p ∈ ps, ∀ r ∈ p.ref, r.ino ≠ ino

/-- A place of a page is one of the part of the file that is mapped there. -/
theorem mem_places {p : Page} {r : FileRef} (h : some r ∈ p.places) :
    ∃ q ∈ p.ref, r.ino = q.ino ∧ q.off ≤ r.off ∧ r.off < q.off + p.size := by
  unfold Page.places at h
  obtain ⟨i, hi, hr⟩ := List.mem_map.1 h
  obtain ⟨q, hq, rfl⟩ := Option.map_eq_some_iff.1 hr
  have := List.mem_range.1 hi
  exact ⟨q, hq, rfl, by simp only; omega, by simp only; omega⟩

/-- A place for each byte of the table. -/
theorem length_places {ps : List Page} : (ps.flatMap (·.places)).length = tableSize ps := by
  induction ps with
  | nil => rfl
  | cons p ps ih => rw [List.flatMap_cons, List.length_append, ih, tableSize_cons, Page.places, List.length_map, List.length_range]

/-- The bytes of a mapped page lie inside its file. -/
theorem Shows.inside {files : Files} {t : Pages} (h : Shows files t) (ht : t.Ok) {r : FileRef} (hr : some r ∈ t.places) :
    r.ino < files.next ∧ r.off < (files.data r.ino).length := by
  obtain ⟨p, hp, hr⟩ := List.mem_flatMap.1 hr
  obtain ⟨q, hq, h1, h2, h3⟩ := mem_places hr
  obtain ⟨hlt, hshow⟩ := h p hp q hq
  have hlen := congrArg List.length hshow
  have hpos := (ht.pages p hp).pos
  rw [(ht.pages p hp).data, slice, List.length_take, List.length_drop] at hlen
  rw [h1]
  omega

/-- A page mapped from the inode has a byte there. -/
theorem avoids_of_places {t : Pages} (ht : t.Ok) {ino : Nat} (h : ∀ r, some r ∈ t.places → r.ino ≠ ino) :
    Avoids t.pageTable ino := by
  intro p hp r hr
  have hpos := (ht.pages p hp).pos
  rw [Option.mem_def] at hr
  refine h ⟨r.ino, r.off + 0⟩ (List.mem_flatMap.2 ⟨p, hp, List.mem_map.2 ⟨0, List.mem_range.2 hpos, ?_⟩⟩)
  rw [hr, Option.map_some]

/-- What is inside the file can be read. -/
theorem not_faults {data : Nat → List Byte} {r : FileRef} (h : r.off < (data r.ino).length) : ¬r.Faults data := by
  unfold FileRef.Faults memoryPage
  omega

/-- A part that the file has is mapped as it is. -/
theorem mappedBytes_eq {file : List Byte} {off size : Nat} (h : (slice file off size).length = size) :
    mappedBytes file off size = slice file off size := by
  refine List.ext_getElem (by rw [mappedBytes, List.length_map, List.length_range, h]) ?_
  intro i h1 h2
  rw [h] at h2
  simp only [slice, List.length_take, List.length_drop] at h
  simp only [mappedBytes, slice, List.getElem_map, List.getElem_range, List.getElem_take, List.getElem_drop]
  rw [List.getD_eq_getElem _ _ (by omega)]

/-- Whatever is written to an inode the pages avoid, they show what they did, and can be read. -/
theorem Shows.undisturbed {files : Files} {t : Pages} (h : Shows files t) (ht : t.Ok) {ino : Nat}
    (hav : Avoids t.pageTable ino) {data : Nat → List Byte} (hdata : ∀ i ≠ ino, data i = files.data i) :
    showPages data t = t ∧ ∀ offset size, ¬t.Faults data offset size := by
  constructor
  · have hmap : t.pageTable.map (showPage data) = t.pageTable := by
      refine (List.map_congr_left fun p hp => ?_).trans (List.map_id _)
      unfold showPage
      cases hr : p.ref with
      | none => rfl
      | some r =>
        have hshow := (h p hp r hr).2
        simp only
        rw [hdata _ (hav p hp r hr), mappedBytes_eq (by rw [hshow, (ht.pages p hp).data]), hshow, ← hr]
        rfl
    rw [showPages, hmap]
  · rintro offset size ⟨r, hr, hf⟩
    have hmem : some r ∈ t.places := List.drop_subset _ _ (List.take_subset _ _ hr)
    obtain ⟨p, hp, hr'⟩ := List.mem_flatMap.1 hmem
    obtain ⟨q, hq, h1, -, -⟩ := mem_places hr'
    refine not_faults ?_ hf
    rw [h1, hdata _ (hav p hp q hq), ← h1]
    exact (h.inside ht hmem).2

/-- One turn of the loop, when the pages avoid the inode that is written. -/
theorem saveBlocks_cons {files : Files} {t : Pages} (ht : t.Ok) {data : Nat → List Byte} {size : Nat} (h0 : size ≠ 0)
    (hsize : size ≤ t.totalSize) (hdata : files.data = data) (hshow : showPages data t = t)
    (hfault : ∀ offset size, ¬t.Faults data offset size) (ino : Nat) (w : WriteResult) (ws : List WriteResult) :
    ∃ t', t'.Ok ∧ t'.pageTable = t.pageTable ∧ t'.totalSize = t.totalSize ∧
      saveBlocks ino (w :: ws) files t size =
        match w with
        | .failed => some (files, t', -1)
        | .accepted n =>
          saveBlocks ino ws (files.write ino (slice t.bytes (t.totalSize - size) (min n (min size ioBufSize)))) t'
            (size - min n (min size ioBufSize)) := by
  obtain ⟨t', e1, e2, e3, -, e5⟩ := ebRead_spec ht (min size ioBufSize) (show t.totalSize - size ≤ t.totalSize by omega)
  refine ⟨t', e2, e3, e5, ?_⟩
  rw [saveBlocks, if_neg h0]
  simp only [hdata, hshow, e1]
  rw [if_neg (hfault _ _)]
  cases w with
  | failed => rfl
  | accepted n =>
    simp only [slice, List.take_take]
    rw [Nat.min_eq_left (Nat.min_le_right n _)]

/-- What a save that returns has done, when the pages avoid the inode that is written: the beginning of the text was written to
it, all of it when zero is returned, and nothing else was touched. -/
theorem saveBlocks_spec {ino : Nat} {writes : List WriteResult} {files₀ files files' : Files} {t t' : Pages} {size : Nat}
    {ret : Int} (hshow : Shows files₀ t) (ht : t.Ok) (hav : Avoids t.pageTable ino)
    (hsame : ∀ i ≠ ino, files.data i = files₀.data i) (hsize : size ≤ t.totalSize)
    (hdata : files.data ino = t.bytes.take (t.totalSize - size))
    (h : saveBlocks ino writes files t size = some (files', t', ret)) :
    files'.target = files.target ∧ files'.backup = files.backup ∧ (∀ i ≠ ino, files'.data i = files₀.data i) ∧
      (∃ j, files'.data ino = t.bytes.take j) ∧ (ret = 0 ∧ files'.data ino = t.bytes ∨ ret = -1) := by
  have hlen := ht.length_bytes
  induction writes generalizing files t size with
  | nil =>
    rw [saveBlocks] at h
    split at h
    · rename_i hz
      obtain ⟨rfl, rfl, rfl⟩ : files = files' ∧ t = t' ∧ 0 = ret := by simpa using h
      rw [hz, Nat.sub_zero, List.take_of_length_le (by omega)] at hdata
      exact ⟨rfl, rfl, hsame, ⟨t.totalSize, by rw [hdata, List.take_of_length_le (by omega)]⟩, Or.inl ⟨rfl, hdata⟩⟩
    · cases h
  | cons w ws ih =>
    by_cases hz : size = 0
    · rw [saveBlocks, if_pos hz] at h
      obtain ⟨rfl, rfl, rfl⟩ : files = files' ∧ t = t' ∧ 0 = ret := by simpa using h
      rw [hz, Nat.sub_zero, List.take_of_length_le (by omega)] at hdata
      exact ⟨rfl, rfl, hsame, ⟨t.totalSize, by rw [hdata, List.take_of_length_le (by omega)]⟩, Or.inl ⟨rfl, hdata⟩⟩
    · obtain ⟨u1, u2⟩ := hshow.undisturbed ht hav hsame
      obtain ⟨t₁, h1, h2, h3, h4⟩ := saveBlocks_cons ht hz hsize rfl u1 u2 ino w ws
      rw [h4] at h
      cases w with
      | failed =>
        simp only at h
        obtain ⟨rfl, rfl, rfl⟩ : files = files' ∧ t₁ = t' ∧ -1 = ret := by simpa using h
        exact ⟨rfl, rfl, hsame, ⟨_, hdata⟩, Or.inr rfl⟩
      | accepted n =>
        obtain ⟨n', hn'⟩ : ∃ n', n' = min n (min size ioBufSize) := ⟨_, rfl⟩
        simp only [← hn'] at h
        have hbytes : t₁.bytes = t.bytes := by rw [Pages.bytes, Pages.bytes, h2]
        have hshow₁ : Shows files₀ t₁ := by
          unfold Shows
          rw [h2]
          exact hshow
        obtain ⟨r1, r2, r3, r4, r5⟩ := ih hshow₁ h1 (by rw [h2]; exact hav)
          (by
            intro i hi
            rw [Files.write_of_ne _ hi, hsame i hi])
          (by rw [h3]; omega)
          (by
            rw [Files.write_self, hdata, slice, ← List.take_add, h3, hbytes]
            congr 1
            omega)
          h h1.length_bytes
        rw [hbytes] at r4 r5
        exact ⟨r1, r2, r3, r4, r5⟩

/-!
## Helpers for `Theorems/SaveLoad.lean`: what a mapped text shows

A mapped text shows, byte by byte, what its files hold at the moment (`shown_eq`). A turn of the loop of `raw_save_buffer` reads a
block of what is shown then, and leaves a text that shows the same (`saveBlocks_turn`).
-/

open Splice

/-- What a byte of a text is read as: the byte of the file where it is mapped. -/
def shownByte (data : Nat → List Byte) (place : Option FileRef) (held : Byte) : Byte :=
  match place with
  | some r => (data r.ino).getD r.off 0
  | none => held

/-- A place for each byte of a page. -/
theorem length_page_places (p : Page) : p.places.length = p.size := by rw [Page.places, List.length_map, List.length_range]

@[simp] theorem showPage_size (data : Nat → List Byte) (p : Page) : (showPage data p).size = p.size := by
  rw [showPage]
  split <;> rfl

@[simp] theorem showPage_ref (data : Nat → List Byte) (p : Page) : (showPage data p).ref = p.ref := by
  rw [showPage]
  split <;> rfl

/-- A page shows as many bytes as it has. -/
theorem length_showPage (data : Nat → List Byte) {p : Page} (hp : p.Ok) : (showPage data p).data.length = p.size := by
  rw [showPage]
  split
  · rw [mappedBytes, List.length_map, List.length_range]
  · exact hp.data

/-- Only what the files hold last is shown. -/
theorem showPage_showPage (data data' : Nat → List Byte) (p : Page) : showPage data' (showPage data p) = showPage data' p := by
  cases hr : p.ref with
  | none => rw [showPage.eq_def data p, hr]
  | some r =>
    rw [showPage.eq_def data' (showPage data p), showPage_ref, showPage.eq_def data' p, hr]
    dsimp only
    rw [showPage_size, showPage.eq_def data p, hr]

/-- Byte for byte, a page shows what it holds or what the file has there now. -/
theorem showPage_eq (data : Nat → List Byte) {p : Page} (hp : p.Ok) :
    (showPage data p).data = List.zipWith (shownByte data) p.places p.data := by
  have hlen := hp.data
  refine List.ext_getElem? fun i => ?_
  by_cases hi : i < p.size
  · have hget : p.data[i]? = some p.data[i] := List.getElem?_eq_getElem (by omega)
    rw [List.getElem?_zipWith, Page.places, List.getElem?_map, List.getElem?_range hi, hget, showPage]
    cases hr : p.ref with
    | none => exact hget
    | some r =>
      dsimp only
      rw [mappedBytes, List.getElem?_map, List.getElem?_range hi]
      rfl
  · have hplaces : p.places.length = p.size := length_page_places p
    have hright : (List.zipWith (shownByte data) p.places p.data)[i]? = none :=
      List.getElem?_eq_none (by rw [List.length_zipWith, hplaces]; omega)
    rw [hright, List.getElem?_eq_none (by rw [length_showPage data hp]; omega)]

/-- A mapped text as it is read now. -/
def Pages.shown (data : Nat → List Byte) (t : Pages) : List Byte := (showPages data t).bytes

/-- The same of all pages. -/
theorem shown_eq (data : Nat → List Byte) {t : Pages} (ht : t.Ok) :
    t.shown data = List.zipWith (shownByte data) t.places t.bytes := by
  have htable : ∀ ps : List Page, (∀ p ∈ ps, p.Ok) → (ps.map (showPage data)).flatMap (·.data) =
      List.zipWith (shownByte data) (ps.flatMap (·.places)) (ps.flatMap (·.data)) := by
    intro ps hps
    induction ps with
    | nil => rfl
    | cons p ps ih =>
      obtain ⟨hp, hps⟩ := List.forall_mem_cons.1 hps
      have hlen : p.places.length = p.data.length := by rw [length_page_places, hp.data]
      rw [List.map_cons, List.flatMap_cons, List.flatMap_cons, List.flatMap_cons, List.zipWith_append hlen, showPage_eq data hp, ih hps]
  exact htable _ ht.pages

theorem length_shown (data : Nat → List Byte) {t : Pages} (ht : t.Ok) : (t.shown data).length = t.totalSize := by
  have hplaces : t.places.length = t.totalSize := by rw [Pages.places, length_places, ht.total]
  rw [shown_eq data ht, List.length_zipWith, hplaces, ht.length_bytes, Nat.min_self]

/-- The pages stay sound, whatever the files hold. -/
theorem showPages_ok (data : Nat → List Byte) {t : Pages} (ht : t.Ok) : (showPages data t).Ok := by
  have hsizes : ∀ ps : List Page, tableSize (ps.map (showPage data)) = tableSize ps := by
    intro ps
    rw [tableSize, tableSize, List.map_map]
    congr 1
    exact List.map_congr_left fun p _ => showPage_size data p
  refine ⟨⟨?_, ?_, ?_⟩, ?_⟩
  · intro q hq
    obtain ⟨p, hp, rfl⟩ := List.mem_map.1 hq
    obtain ⟨h1, h2, h3⟩ := ht.pages p hp
    refine ⟨?_, ?_, ?_⟩
    · rw [showPage_size]
      exact h1
    · rw [showPage_size]
      exact h2
    · rw [showPage_size]
      exact length_showPage data ⟨h1, h2, h3⟩
  · rw [showPages, List.length_map]
    exact ht.nb
  · intro i hi
    obtain ⟨h1, h2⟩ := ht.cache i hi
    rw [showPages, List.length_map, ← List.map_take, hsizes]
    exact ⟨h1, h2⟩
  · rw [showPages, hsizes]
    exact ht.total

/-! ### A text that shows the same -/

/-- Two texts of the same pages, as far as what they show goes. -/
structure Alike (t t' : Pages) : Prop where
  ok : t'.Ok
  total : t'.totalSize = t.totalSize
  places : t'.places = t.places
  shown : ∀ data, t'.shown data = t.shown data

theorem Alike.refl {t : Pages} (ht : t.Ok) : Alike t t := ⟨ht, rfl, rfl, fun _ => rfl⟩

/-- Being alike goes on over changes. -/
theorem Alike.trans {t t' t'' : Pages} (h : Alike t t') (h' : Alike t' t'') : Alike t t'' :=
  ⟨h'.ok, h'.total.trans h.total, h'.places.trans h.places, fun data => (h'.shown data).trans (h.shown data)⟩

/-- A part faults in the one just when it does in the other. -/
theorem Alike.faults {t t' : Pages} (h : Alike t t') (data : Nat → List Byte) (offset size : Nat) :
    t'.Faults data offset size ↔ t.Faults data offset size := by
  rw [Pages.Faults, Pages.Faults, h.places]

/-- Pages that were read, and not changed, show what they showed. -/
theorem alike_showPages {t t' : Pages} (data : Nat → List Byte) (ht' : t'.Ok) (htable : t'.pageTable = (showPages data t).pageTable)
    (htotal : t'.totalSize = t.totalSize) : Alike t t' := by
  have hplaces : ∀ p : Page, (showPage data p).places = p.places := by
    intro p
    rw [Page.places, Page.places, showPage_size, showPage_ref]
  refine ⟨ht', htotal, ?_, ?_⟩
  · rw [Pages.places, Pages.places, htable, showPages, List.flatMap_map]
    exact List.flatMap_congr fun p _ => hplaces p
  · intro data'
    rw [Pages.shown, Pages.shown, Pages.bytes, Pages.bytes, showPages, showPages, htable, showPages]
    dsimp only
    rw [List.map_map]
    congr 1
    exact List.map_congr_left fun p _ => showPage_showPage data data' p

/-- One turn of the loop of `raw_save_buffer` with a write that takes something. -/
theorem saveBlocks_turn {t : Pages} (ht : t.Ok) {files : Files} {size : Nat} (h0 : size ≠ 0) (ino n : Nat)
    (ws : List WriteResult) :
    (t.Faults files.data (t.totalSize - size) (min size ioBufSize) ∧ saveBlocks ino (.accepted n :: ws) files t size = none) ∨
      ¬t.Faults files.data (t.totalSize - size) (min size ioBufSize) ∧ ∃ t', Alike t t' ∧
        saveBlocks ino (.accepted n :: ws) files t size =
          saveBlocks ino ws (files.write ino (slice (t.shown files.data) (t.totalSize - size) (min n (min size ioBufSize)))) t'
            (size - min n (min size ioBufSize)) := by
  by_cases hfault : t.Faults files.data (t.totalSize - size) (min size ioBufSize)
  · refine Or.inl ⟨hfault, ?_⟩
    rw [saveBlocks, if_neg h0]
    dsimp only
    rw [if_pos hfault]
  · obtain ⟨t', e1, e2, e3, _, e5⟩ := ebRead_spec (showPages_ok files.data ht) (min size ioBufSize)
      (show t.totalSize - size ≤ t.totalSize from Nat.sub_le _ _)
    refine Or.inr ⟨hfault, t', alike_showPages files.data e2 e3 e5, ?_⟩
    rw [saveBlocks, if_neg h0]
    dsimp only
    rw [if_neg hfault, e1]
    dsimp only
    rw [slice, List.take_take, Nat.min_eq_left (Nat.min_le_right n _)]
    rfl

end Hoe
