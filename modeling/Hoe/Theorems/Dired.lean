import Hoe.Lemmas.ListMode
import Hoe.Lemmas.Minibuffer
import Mathlib.Data.List.Forall2

/-!
# Opening what a directory list shows

The list of a directory is read through a search path and written as a text, and an item is found again by the number of its line.
So a colon in the name of the directory and a newline in a name or in the target of a link lead to other files than the lines show.
The directory is read under its canonical name, which is another directory's where a `..` follows a link.
-/

namespace Hoe

namespace ListMode

open Lines (ended begun)
open Minibuffer (findFiles pathDirs qeBasename_append)

/-! ## What is to be shown -/

/-- The entries of a directory but the redundant ones. -/
def entries (w : Files) (path : List Byte) : List (List Byte) :=
  ((w.readdir path).getD []).filter fun e => e ≠ cstr "." ∧ e ≠ cstr ".."

/-- The item of an entry of a directory, where `lstat` has something to say about it. -/
def entryItem (w : Files) (path e : List Byte) : Option StringItem :=
  (w.lstat (path ++ slash :: e)).map fun st => { str := diredLine w (path ++ slash :: e) e st, filename := e }

/-- The lines of a text. An empty one has none. -/
def textLines (text : List Byte) : List (List Byte) := if text = [] then [] else text.splitOn newline

/-- The file that is selected with the cursor at an offset. -/
def selectedFile (ds : DiredState) (offset : Nat) : List Byte :=
  getDiredFilename ds 1024 (listGetPos { ds.s with offset := (offset : Int) })

/-- The names are those of one file. -/
def SameFile (w : Files) (filename filename' : List Byte) : Prop :=
  ∃ st ∈ w.lstat filename, ∃ st' ∈ w.lstat filename', st.ino = st'.ino

instance (w : Files) (filename filename' : List Byte) : Decidable (SameFile w filename filename') :=
  inferInstanceAs (Decidable (∃ st ∈ w.lstat filename, ∃ st' ∈ w.lstat filename', st.ino = st'.ino))

/-- Each entry of the directory has a line, and wherever the cursor is on it, the entry is selected, by its name behind that of the
directory that is listed. -/
def DiredRight (w : Files) (path : List Byte) (ds : DiredState) : Prop :=
  ∃ es, es.Perm (entries w path) ∧
    List.Forall₂ (fun line e => ∃ item, entryItem w path e = some item ∧ item.str = line) (textLines ds.s.buffer.bytes) es ∧
    ∀ o ≤ ds.s.buffer.bytes.length, ∀ e, es[(ds.s.buffer.bytes.take o).count newline]? = some e →
      selectedFile ds o = ds.path ++ slash :: e ∧ SameFile w (selectedFile ds o) (path ++ slash :: e)

/-- The items of the entries of a directory. -/
def entryItems (w : Files) (path : List Byte) : List StringItem := (entries w path).filterMap (entryItem w path)

/-- The target of a link, as far as the line has room for it. -/
def shownTarget (w : Files) (filename p : List Byte) (st : Stat) : List Byte :=
  ((w.readlink filename).getD []).take (1020 - max maxColFileSize (1 + p.length + (typeChar st).length))

/-- The name of each entry is that of the same file behind the canonical name of the directory, the directories between the colons of
that have together the same entries, with the same lines, and no newline is in a name or in what is shown of the target of a link. -/
def ShowsEntries (w : Files) (path : List Byte) : Prop :=
  (∀ e ∈ entries w path, SameFile w (canonizePath 1024 path ++ slash :: e) (path ++ slash :: e)) ∧
    ((pathDirs (canonizePath 1024 path)).flatMap (entryItems w)).Perm (entryItems w path) ∧ (∀ e ∈ entries w path, newline ∉ e) ∧
    ∀ e ∈ entries w path, ∀ st ∈ w.lstat (path ++ slash :: e), st.kind = .lnk → newline ∉ shownTarget w (path ++ slash :: e) e st

instance (w : Files) (path : List Byte) : Decidable (ShowsEntries w path) := by
  unfold ShowsEntries
  infer_instance

/-- The names of the files that are found fit their arrays, also with the directory in front. -/
def NamesFit (w : Files) (path : List Byte) : Prop :=
  ∀ f ∈ findFiles w.toWorld path (cstr "*"), f.length < 1024 ∧ (path ++ slash :: qeBasename f).length < 1024

variable {w : Files} {ds : DiredState} {path : List Byte}

/-! ## Items and lines -/

/-- A line has something in it, and fits its array. -/
theorem diredLine_spec (w : Files) (filename p : List Byte) (st : Stat) :
    diredLine w filename p st ≠ [] ∧ (diredLine w filename p st).length < 1024 := by
  have hcat : ∀ line s, line ≠ [] ∧ line.length < 1024 → pstrcat 1024 line s ≠ [] ∧ (pstrcat 1024 line s).length < 1024 := by
    intro line s h
    refine ⟨?_, length_pstrcat_lt h.2 s⟩
    rw [pstrcat, if_pos h.2]
    exact List.append_ne_nil_of_left_ne_nil h.1 _
  have hpad : ∀ line : List Byte, line ≠ [] ∧ line.length < 1024 →
      line ++ List.replicate (maxColFileSize - line.length) ' '.toNat ≠ [] ∧
        (line ++ List.replicate (maxColFileSize - line.length) ' '.toNat).length < 1024 := by
    intro line h
    refine ⟨List.append_ne_nil_of_left_ne_nil h.1 _, ?_⟩
    rw [List.length_append, List.length_replicate, maxColFileSize]
    omega
  have hname := hpad _ (hcat _ (typeChar st) (hcat (cstr " ") p (by decide)))
  unfold diredLine
  dsimp only
  split
  · exact hcat _ _ (hcat _ _ hname)
  · exact hcat _ _ hname

theorem newline_not_mem_decimal (n : Nat) : newline ∉ Vt.decimal n := by
  intro h
  unfold Vt.decimal at h
  split at h
  · revert h
    decide
  · obtain ⟨d, -, hd⟩ := List.mem_map.1 h
    simp only [newline] at hd
    omega

theorem newline_mem_padLeft (width : Nat) (s : List Byte) : newline ∈ padLeft width s ↔ newline ∈ s := by
  rw [padLeft, List.mem_append, or_iff_right]
  intro h
  exact absurd (List.eq_of_mem_replicate h) (by decide)

theorem typeChar_spec (st : Stat) : newline ∉ typeChar st ∧ (typeChar st).length ≤ 1 := by
  unfold typeChar
  split
  any_goals decide
  split <;> decide

/-- A newline is only in what is told of a link. -/
theorem newline_mem_fileInfo {filename : List Byte} {st : Stat} (h : newline ∈ fileInfo w filename st) : st.kind = .lnk := by
  have hdevice : ∀ letter, newline ∉ letter →
      newline ∉ letter ++ (padLeft 4 (Vt.decimal (st.rdev / 256 % 256)) ++ padLeft 4 (Vt.decimal (st.rdev % 256))) := by
    intro letter hletter hmem
    rw [List.mem_append, List.mem_append, newline_mem_padLeft, newline_mem_padLeft] at hmem
    rcases hmem with hmem | hmem | hmem
    · exact hletter hmem
    · exact newline_not_mem_decimal _ hmem
    · exact newline_not_mem_decimal _ hmem
  unfold fileInfo at h
  cases hkind : st.kind <;> rw [hkind] at h <;> dsimp only at h
  case reg => exact absurd ((newline_mem_padLeft 9 _).1 h) (newline_not_mem_decimal _)
  case dir => exact absurd ((newline_mem_padLeft 9 _).1 h) (by decide)
  case chr => exact absurd h (hdevice _ (by decide))
  case blk => exact absurd h (hdevice _ (by decide))
  case fifo => cases h
  case sock => cases h

/-- There is a newline in a line where there is one in the name or in what is shown of the target of a link. -/
theorem newline_mem_diredLine {filename p : List Byte} (hp : p.length < 1023) (st : Stat) :
    newline ∈ diredLine w filename p st ↔ newline ∈ p ∨ st.kind = .lnk ∧ newline ∈ shownTarget w filename p st := by
  have hmem : ∀ {line s : List Byte}, line.length < 1024 →
      (newline ∈ pstrcat 1024 line s ↔ newline ∈ line ∨ newline ∈ s.take (1023 - line.length)) := by
    intro line s h
    rw [pstrcat, if_pos h, List.mem_append, Nat.sub_right_comm]
  obtain ⟨htype, htypeLen⟩ := typeChar_spec st
  have hblank : (cstr " ").length = 1 := rfl
  have hname : pstrcat 1024 (cstr " ") p = cstr " " ++ p := pstrcat_fits (by omega)
  have hnameLen : (cstr " " ++ p).length = 1 + p.length := by rw [List.length_append, hblank]
  -- the name with the character behind it, and blanks
  obtain ⟨line, hline, hlineMem, hlineLen⟩ : ∃ line, line = pstrcat 1024 (cstr " " ++ p) (typeChar st) ∧
      (newline ∈ line ↔ newline ∈ p) ∧ line.length = min (1 + p.length + (typeChar st).length) 1023 := by
    refine ⟨_, rfl, ?_, ?_⟩
    · rw [hmem (by omega), or_iff_left fun h => htype (List.mem_of_mem_take h), List.mem_append, or_iff_right (by decide)]
    · rw [length_pstrcat (by omega), hnameLen]
  obtain ⟨padded, hpadded, hpaddedMem, hpaddedLen⟩ : ∃ padded,
      padded = line ++ List.replicate (maxColFileSize - line.length) ' '.toNat ∧ (newline ∈ padded ↔ newline ∈ p) ∧
        padded.length = max maxColFileSize line.length := by
    refine ⟨_, rfl, ?_, ?_⟩
    · rw [List.mem_append, hlineMem, or_iff_left]
      intro h
      exact absurd (List.eq_of_mem_replicate h) (by decide)
    · rw [List.length_append, List.length_replicate]
      omega
  have hcol : maxColFileSize = 32 := rfl
  have hfits : padded.length < 1024 := by omega
  unfold diredLine
  dsimp only
  rw [hname, ← hline, ← hpadded]
  split
  · next hkind =>
    rw [hmem (length_pstrcat_lt hfits _), hmem hfits, length_pstrcat hfits, hpaddedMem, and_iff_right hkind]
    have harrow : newline ∉ (cstr "-> ").take (1023 - padded.length) := by
      intro h
      exact absurd (List.mem_of_mem_take h) (by decide)
    have hinfo : fileInfo w filename st = ((w.readlink filename).getD []).take 1023 := by rw [fileInfo, hkind]
    have harrowLen : (cstr "-> ").length = 3 := rfl
    have hroom : min (1023 - min (padded.length + 3) 1023) 1023 =
        1020 - max maxColFileSize (1 + p.length + (typeChar st).length) := by omega
    rw [or_iff_left harrow, hinfo, List.take_take, harrowLen, hroom]
    rfl
  · next hkind =>
    rw [hmem hfits, hpaddedMem, or_iff_left, or_iff_left]
    · rintro ⟨h, -⟩
      exact hkind h
    · intro h
      exact hkind (newline_mem_fileInfo (List.mem_of_mem_take h))

/-! ## The items -/

/-- The items of the files that are found. -/
def foundItems (w : Files) (path : List Byte) : List StringItem := (findFiles w.toWorld path (cstr "*")).filterMap (diredItem w)

/-- A file is found for each entry of each directory of the path. -/
theorem foundItems_eq (hmatch : ∀ name, w.fnmatch (cstr "*") name = true)
    (hnames : ∀ dir names, w.readdir dir = some names → ∀ name ∈ names, slash ∉ name) (path : List Byte) :
    foundItems w path = (pathDirs path).flatMap (entryItems w) := by
  rw [foundItems, findFiles, List.filterMap_flatMap]
  refine List.flatMap_congr fun dir _ => ?_
  rw [List.filter_eq_self.2 fun name _ => hmatch name, List.filterMap_map, entryItems, entries, List.filterMap_filter]
  refine List.filterMap_congr fun name hname => ?_
  have hslash : slash ∉ name := by
    cases hdir : w.readdir dir with
    | none =>
      rw [hdir] at hname
      cases hname
    | some names =>
      rw [hdir] at hname
      exact hnames dir names hdir name hname
  rw [Function.comp_apply, diredItem, qeBasename_append hslash, entryItem]
  cases w.lstat (dir ++ slash :: name) with
  | none => simp
  | some st =>
    rw [Option.bind_some, Option.map_some]
    simp only [decide_eq_true_iff, ne_eq, ← not_or, ite_not]

/-- What the item of an entry holds. -/
theorem entryItem_spec {e : List Byte} {item : StringItem} (h : entryItem w path e = some item) :
    item.filename = e ∧ item.selected = false := by
  obtain ⟨st, -, rfl⟩ := Option.map_eq_some_iff.1 h
  exact ⟨rfl, rfl⟩

/-- The entries are back in the items. -/
theorem map_filename_filterMap {es : List (List Byte)} (h : ∀ e ∈ es, (w.lstat (path ++ slash :: e)).isSome) :
    (es.filterMap (entryItem w path)).map (·.filename) = es := by
  induction es with
  | nil => rfl
  | cons e es ih =>
    obtain ⟨he, hes⟩ := List.forall_mem_cons.1 h
    obtain ⟨st, hst⟩ := Option.isSome_iff_exists.1 he
    have hitem : entryItem w path e = some { str := diredLine w (path ++ slash :: e) e st, filename := e } := by
      rw [entryItem, hst, Option.map_some]
    rw [List.filterMap_cons_some hitem, List.map_cons, ih hes]

/-- The items are those of the entries where they are so one by one. -/
theorem filterMap_entryItem {items : List StringItem} {es : List (List Byte)}
    (h : List.Forall₂ (fun item e => entryItem w path e = some item) items es) : es.filterMap (entryItem w path) = items := by
  induction h with
  | nil => rfl
  | cons hitem _ ih => rw [List.filterMap_cons_some hitem, ih]

/-- What the item of a file that is found holds. -/
theorem foundItem_spec (hfit : NamesFit w path) {item : StringItem} (h : item ∈ foundItems w path) :
    item.selected = false ∧ item.str ≠ [] ∧ item.str.length < 1024 ∧ (path ++ slash :: item.filename).length < 1024 := by
  obtain ⟨f, hf, hitem⟩ := List.mem_filterMap.1 h
  obtain ⟨st, -, hitem⟩ := Option.bind_eq_some_iff.1 hitem
  split at hitem
  · cases hitem
  · obtain rfl := Option.some.inj hitem
    obtain ⟨hne, hlen⟩ := diredLine_spec w f (qeBasename f) st
    exact ⟨rfl, hne, hlen, (hfit f hf).2⟩

theorem SameFile.isSome {filename filename' : List Byte} (h : SameFile w filename filename') : (w.lstat filename').isSome := by
  obtain ⟨-, -, st', hst', -⟩ := h
  exact Option.isSome_of_mem hst'

/-- The condition, in terms of the items: those of the files that are found are those of the entries, and none has two lines. -/
theorem showsEntries_iff (hfit : NamesFit w (canonizePath 1024 path)) (hmatch : ∀ name, w.fnmatch (cstr "*") name = true)
    (hnames : ∀ dir names, w.readdir dir = some names → ∀ name ∈ names, slash ∉ name) :
    ShowsEntries w path ↔ (∀ e ∈ entries w path, SameFile w (canonizePath 1024 path ++ slash :: e) (path ++ slash :: e)) ∧
      (foundItems w (canonizePath 1024 path)).Perm (entryItems w path) ∧
        ∀ item ∈ foundItems w (canonizePath 1024 path), newline ∉ item.str := by
  unfold ShowsEntries
  rw [foundItems_eq hmatch hnames]
  refine and_congr_right fun hsame => and_congr_right fun hperm => ?_
  rw [← foundItems_eq hmatch hnames] at hperm ⊢
  have hline : ∀ e ∈ entries w path, ∀ st, w.lstat (path ++ slash :: e) = some st →
      (newline ∈ diredLine w (path ++ slash :: e) e st ↔
          newline ∈ e ∨ st.kind = .lnk ∧ newline ∈ shownTarget w (path ++ slash :: e) e st) ∧
        { str := diredLine w (path ++ slash :: e) e st, filename := e } ∈ foundItems w (canonizePath 1024 path) := by
    intro e he st hst
    have hitem : { str := diredLine w (path ++ slash :: e) e st, filename := e } ∈ foundItems w (canonizePath 1024 path) := by
      refine hperm.mem_iff.2 (List.mem_filterMap.2 ⟨e, he, ?_⟩)
      rw [entryItem, hst, Option.map_some]
    have hlen := (foundItem_spec hfit hitem).2.2.2
    rw [List.length_append, List.length_cons] at hlen
    exact ⟨newline_mem_diredLine (by dsimp only at hlen; omega) st, hitem⟩
  constructor
  · rintro ⟨hname, htarget⟩ item hitem
    obtain ⟨e, he, hitem⟩ := List.mem_filterMap.1 (hperm.mem_iff.1 hitem)
    obtain ⟨st, hst, rfl⟩ := Option.map_eq_some_iff.1 hitem
    rw [(hline e he st hst).1, not_or, not_and]
    exact ⟨hname e he, htarget e he st hst⟩
  · intro hno
    have hlines : ∀ e ∈ entries w path, ∀ st, w.lstat (path ++ slash :: e) = some st →
        newline ∉ e ∧ (st.kind = .lnk → newline ∉ shownTarget w (path ++ slash :: e) e st) := by
      intro e he st hst
      obtain ⟨hiff, hitem⟩ := hline e he st hst
      have hnot := hno _ hitem
      rwa [hiff, not_or, not_and] at hnot
    refine ⟨?_, fun e he st hst => (hlines e he st hst).2⟩
    intro e he
    obtain ⟨st, hst⟩ := Option.isSome_iff_exists.1 (hsame e he).isSome
    exact (hlines e he st hst).1

/-! ## The lines -/

/-- The newlines of lines with newlines between them. -/
theorem count_intercalate {lines : List (List Byte)} (hne : lines ≠ []) :
    ([newline].intercalate lines).count newline + 1 = lines.length + (lines.map (List.count newline)).sum := by
  induction lines with
  | nil => exact absurd rfl hne
  | cons line lines ih =>
    cases lines with
    | nil => simp [Nat.add_comm]
    | cons line₂ lines =>
      have ih := ih (List.cons_ne_nil _ _)
      rw [List.intercalate_cons_cons, List.count_append, List.count_append, List.count_cons_self, List.count_nil, List.length_cons,
        List.map_cons, List.sum_cons]
      omega

/-- Somewhere the cursor is on the line. -/
theorem exists_offset {text : List Byte} {i : Nat} (hi : i ≤ text.count newline) :
    ∃ o ≤ text.length, (text.take o).count newline = i := by
  obtain ⟨a, l, b, hsplit, ha, htext⟩ := Lines.exists_line hi
  have hlines : ∀ x ∈ a, newline ∉ x := fun x hx => Lines.not_mem_of_mem_splitOn (by rw [hsplit]; exact List.mem_append_left _ hx)
  refine ⟨(ended newline a).length, ?_, ?_⟩
  · rw [htext, List.append_assoc, List.length_append]
    exact Nat.le_add_right _ _
  · rw [htext, List.append_assoc, List.take_left, Lines.count_ended hlines, ha]

/-- The list as it is built. -/
structure Built (w : Files) (ds : DiredState) : Prop where
  fits : NamesFit w ds.path
  ok : ds.s.buffer.toPages.Ok
  text : ds.s.buffer.bytes = [newline].intercalate (ds.items.map (·.str))
  items : ds.items.Perm (foundItems w ds.path)

/-- The cursor selects by the number of its line. -/
theorem Built.selectedFile_eq (h : Built w ds) (o : Nat) :
    selectedFile ds o = getDiredFilename ds 1024 ((ds.s.buffer.bytes.take o).count newline) := by
  have hpos := @listGetPos_eq { ds.s with offset := (o : Int) } h.ok o rfl
  rw [selectedFile, hpos]

/-- The name of the file of an item. -/
theorem Built.getDiredFilename_eq (h : Built w ds) {i : Nat} {item : StringItem} (hi : ds.items[i]? = some item) :
    getDiredFilename ds 1024 i = ds.path ++ slash :: item.filename := by
  obtain ⟨-, -, -, hlen⟩ := foundItem_spec h.fits (h.items.mem_iff.1 (List.mem_of_getElem? hi))
  rw [List.length_append, List.length_cons] at hlen
  have hslash : pstrcat 1024 (pstrcpy 1024 ds.path) [slash] = ds.path ++ [slash] := by
    rw [pstrcpy_fits (by omega), pstrcat_fits (by rw [List.length_singleton]; omega)]
  have hfile : pstrcat 1024 (ds.path ++ [slash]) item.filename = ds.path ++ [slash] ++ item.filename := by
    refine pstrcat_fits ?_
    rw [List.length_append, List.length_singleton]
    omega
  unfold getDiredFilename
  rw [hi]
  dsimp only
  rw [hslash, hfile, List.append_assoc, List.singleton_append]

theorem Built.text_eq_nil (h : Built w ds) : ds.s.buffer.bytes = [] ↔ ds.items = [] := by
  constructor
  · intro htext
    cases hitems : ds.items with
    | nil => rfl
    | cons item items =>
      have hcut := Lines.intercalate_cut newline [] item.str (items.map (·.str))
      rw [List.nil_append, ← List.map_cons, ← hitems, ← h.text, htext] at hcut
      have hmem : item ∈ foundItems w ds.path := h.items.mem_iff.1 (by rw [hitems]; exact List.mem_cons_self)
      obtain ⟨-, hne, -⟩ := foundItem_spec h.fits hmem
      simp [hne] at hcut
  · intro hitems
    rw [h.text, hitems]
    rfl

/-- Without newlines in them the items are the lines. -/
theorem Built.textLines_eq (h : Built w ds) (hno : ∀ item ∈ ds.items, newline ∉ item.str) :
    textLines ds.s.buffer.bytes = ds.items.map (·.str) := by
  unfold textLines
  split
  · next htext => rw [h.text_eq_nil.1 htext, List.map_nil]
  · next htext =>
    rw [h.text]
    refine List.splitOn_intercalate newline ?_ ?_
    · simpa using hno
    · rw [Ne, List.map_eq_nil_iff, ← h.text_eq_nil]
      exact htext

/-- There are as many lines as items, and one more for each newline in an item. -/
theorem Built.length_textLines (h : Built w ds) :
    (textLines ds.s.buffer.bytes).length = ds.items.length + (ds.items.map fun item => item.str.count newline).sum := by
  unfold textLines
  split
  · next htext =>
    rw [h.text_eq_nil.1 htext]
    rfl
  · next htext =>
    have hne : ds.items.map (·.str) ≠ [] := by
      rw [Ne, List.map_eq_nil_iff, ← h.text_eq_nil]
      exact htext
    rw [Lines.length_splitOn, h.text, count_intercalate hne, List.length_map, List.map_map]
    rfl

/-- Where the files that are found are the entries, the entries are selected in the order of the items. -/
theorem Built.diredRight (h : Built w ds)
    (hsame : ∀ e ∈ entries w path, SameFile w (ds.path ++ slash :: e) (path ++ slash :: e))
    (hperm : (foundItems w ds.path).Perm (entryItems w path)) (hno : ∀ item ∈ foundItems w ds.path, newline ∉ item.str) :
    DiredRight w path ds := by
  have hitems : ds.items.Perm (entryItems w path) := h.items.trans hperm
  have hentries : (ds.items.map (·.filename)).Perm (entries w path) := by
    have hmap := hitems.map (·.filename)
    rwa [entryItems, map_filename_filterMap fun e he => (hsame e he).isSome] at hmap
  refine ⟨ds.items.map (·.filename), hentries, ?_, ?_⟩
  · rw [h.textLines_eq fun item hitem => hno item (h.items.mem_iff.1 hitem)]
    rw [List.forall₂_map_left_iff, List.forall₂_map_right_iff, List.forall₂_same]
    intro item hitem
    obtain ⟨e, -, he⟩ := List.mem_filterMap.1 (hitems.mem_iff.1 hitem)
    have hname := (entryItem_spec he).1
    exact ⟨item, by rw [hname, he], rfl⟩
  · intro o _ e he
    have hmem := hentries.mem_iff.1 (List.mem_of_getElem? he)
    rw [List.getElem?_map] at he
    obtain ⟨item, hitem, rfl⟩ := Option.map_eq_some_iff.1 he
    rw [h.selectedFile_eq, h.getDiredFilename_eq hitem]
    exact ⟨rfl, hsame _ hmem⟩

/-- With an entry selected on each line there is an item for each entry, and no item has a second line. -/
theorem Built.no_newline (h : Built w ds) {es : List (List Byte)} (hlen : (textLines ds.s.buffer.bytes).length = es.length)
    (hselect : ∀ o ≤ ds.s.buffer.bytes.length, ∀ e, es[(ds.s.buffer.bytes.take o).count newline]? = some e →
      selectedFile ds o = ds.path ++ slash :: e) :
    es.length = ds.items.length ∧ ∀ item ∈ ds.items, newline ∉ item.str := by
  have hle : es.length ≤ ds.items.length := by
    by_contra hlt
    have hne : ds.s.buffer.bytes ≠ [] := by
      intro htext
      rw [textLines, if_pos htext, List.length_nil] at hlen
      omega
    have hcount : ds.items.length ≤ ds.s.buffer.bytes.count newline := by
      rw [textLines, if_neg hne, Lines.length_splitOn] at hlen
      omega
    obtain ⟨o, ho, hline⟩ := exists_offset hcount
    have hget := List.getElem?_eq_getElem (not_le.1 hlt)
    have hfile := hselect o ho _ (by rw [hline, hget])
    rw [h.selectedFile_eq, hline, getDiredFilename, List.getElem?_eq_none (Nat.le_refl _)] at hfile
    simp at hfile
  have hsum := h.length_textLines
  have hzero : (ds.items.map fun item => item.str.count newline).sum = 0 := by omega
  refine ⟨by omega, ?_⟩
  intro item hitem
  exact List.count_eq_zero.1 (List.sum_eq_zero_iff.1 hzero _ (List.mem_map_of_mem hitem))

/-- Where each entry is selected on its line, the files that are found are the entries. -/
theorem Built.found_of_diredRight (h : Built w ds) (hright : DiredRight w path ds) :
    (∀ e ∈ entries w path, SameFile w (ds.path ++ slash :: e) (path ++ slash :: e)) ∧
      (foundItems w ds.path).Perm (entryItems w path) ∧ ∀ item ∈ foundItems w ds.path, newline ∉ item.str := by
  obtain ⟨es, hes, hlines, hselect⟩ := hright
  obtain ⟨hlen, hno⟩ := h.no_newline hlines.length_eq fun o ho e he => (hselect o ho e he).1
  have htext := h.textLines_eq hno
  rw [htext, List.forall₂_map_left_iff] at hlines
  -- the cursor on a line
  have hcursor : ∀ i (hi : i < es.length), ∃ o, (ds.s.buffer.bytes.take o).count newline = i ∧
      selectedFile ds o = ds.path ++ slash :: es.get ⟨i, hi⟩ ∧ SameFile w (selectedFile ds o) (path ++ slash :: es.get ⟨i, hi⟩) := by
    intro i hi
    have hcount : i ≤ ds.s.buffer.bytes.count newline := by
      have hne : ds.s.buffer.bytes ≠ [] := by
        rw [Ne, h.text_eq_nil]
        exact List.ne_nil_of_length_pos (by omega)
      have hsplit := congrArg List.length htext
      rw [textLines, if_neg hne, Lines.length_splitOn, List.length_map] at hsplit
      omega
    obtain ⟨o, ho, hline⟩ := exists_offset hcount
    exact ⟨o, hline, hselect o ho (es.get ⟨i, hi⟩) (by rw [hline, List.getElem?_eq_getElem hi]; rfl)⟩
  have hitems : List.Forall₂ (fun item e => entryItem w path e = some item) ds.items es := by
    refine List.forall₂_of_length_eq_of_get hlen.symm fun i h₁ h₂ => ?_
    obtain ⟨item, hitem, hstr⟩ := hlines.get h₁ h₂
    obtain ⟨o, hline, hfile, -⟩ := hcursor i h₂
    have hi : ds.items[i]? = some (ds.items.get ⟨i, h₁⟩) := List.getElem?_eq_getElem h₁
    rw [h.selectedFile_eq, hline, h.getDiredFilename_eq hi] at hfile
    have hname : (ds.items.get ⟨i, h₁⟩).filename = es.get ⟨i, h₂⟩ := List.tail_eq_of_cons_eq (List.append_cancel_left hfile)
    obtain ⟨hitemName, hitemSelected⟩ := entryItem_spec hitem
    obtain ⟨hselected, -⟩ := foundItem_spec h.fits (h.items.mem_iff.1 (List.get_mem ds.items ⟨i, h₁⟩))
    have heq : item = ds.items.get ⟨i, h₁⟩ := by
      cases hx : ds.items.get ⟨i, h₁⟩ with
      | mk str selected filename =>
        rw [hx] at hname hselected hstr
        cases item
        simp_all
    rw [hitem, heq]
  refine ⟨?_, ?_, fun item hitem => hno item (h.items.mem_iff.2 hitem)⟩
  · intro e he
    obtain ⟨i, hi, rfl⟩ := List.mem_iff_getElem.1 (hes.mem_iff.2 he)
    obtain ⟨o, -, hfile, hsame⟩ := hcursor i hi
    rwa [hfile] at hsame
  · have hperm := hes.filterMap (entryItem w path)
    rw [filterMap_entryItem hitems] at hperm
    exact h.items.symm.trans hperm

/-- The list of a directory is built, under the canonical name of that. -/
theorem buildDiredList_spec (hwf : ds.s.buffer.WellFormed) (hfit : NamesFit w (canonizePath 1024 path)) :
    ∃ ds', buildDiredList w ds path = some ds' ∧ ds'.path = canonizePath 1024 path ∧ Built w ds' := by
  have hitems : ((foundItems w (canonizePath 1024 path)).mergeSort diredSortLe).Perm (foundItems w (canonizePath 1024 path)) :=
    List.mergeSort_perm _ _
  have hlines : ∀ line ∈ ((foundItems w (canonizePath 1024 path)).mergeSort diredSortLe).map (·.str), line.length < 1024 := by
    intro line hline
    obtain ⟨item, hitem, rfl⟩ := List.mem_map.1 hline
    exact (foundItem_spec hfit (hitems.mem_iff.1 hitem)).2.2.1
  obtain ⟨b, hbuild, hok, htext⟩ := buildList_spec (s := { ds.s with offset := 0 }) hwf hlines
  obtain ⟨ds', hds'⟩ : ∃ ds' : DiredState, ds' =
      { s := { ds.s with offset := 0, buffer := { b with modified := false } }
        items := (foundItems w (canonizePath 1024 path)).mergeSort diredSortLe, lastPos := -1
        path := canonizePath 1024 path } := ⟨_, rfl⟩
  refine ⟨ds', ?_, by rw [hds'], ?_⟩
  · have hfound : ∀ filename ∈ findFiles w.toWorld (canonizePath 1024 path) (cstr "*"), filename.length < 1024 :=
      fun f hf => (hfit f hf).1
    unfold buildDiredList
    dsimp only
    rw [if_pos hfound, hds']
    exact congrArg (Option.map _) hbuild
  · subst hds'
    obtain ⟨d, hd⟩ := hok
    exact ⟨hfit, hd.ok, htext, hitems⟩

/-- Where what is shown is selected, `dired_select` goes into the directory or loads the file of the line of the cursor. -/
theorem DiredRight.select (h : DiredRight w path ds) :
    ∃ es : List (List Byte), es.Perm (entries w path) ∧
      ∀ o ≤ ds.s.buffer.bytes.length, ∀ e, es[(ds.s.buffer.bytes.take o).count newline]? = some e → ∀ st,
      w.lstat (ds.path ++ slash :: e) = some st → diredSelect w { ds with s := { ds.s with offset := (o : Int) } } =
        if st.kind = .dir then .list (ds.path ++ slash :: e)
        else if st.kind = .reg then .load (ds.path ++ slash :: e) else .nothing := by
  obtain ⟨es, hes, -, hselect⟩ := h
  refine ⟨es, hes, ?_⟩
  intro o ho e he st hst
  have hfile := (hselect o ho e he).1
  unfold selectedFile at hfile
  unfold diredSelect
  dsimp only [getDiredFilename] at hfile ⊢
  rw [hfile, hst]

/-- What a list shows is what is selected in it just where the condition holds for the directory. -/
theorem diredRight_iff (hwf : ds.s.buffer.WellFormed) (hfit : NamesFit w (canonizePath 1024 path))
    (hmatch : ∀ name, w.fnmatch (cstr "*") name = true)
    (hnames : ∀ dir names, w.readdir dir = some names → ∀ name ∈ names, slash ∉ name) :
    ∃ ds', buildDiredList w ds path = some ds' ∧ ds'.path = canonizePath 1024 path ∧
      (DiredRight w path ds' ↔ ShowsEntries w path) := by
  obtain ⟨ds', hbuild, hpath, hbuilt⟩ := buildDiredList_spec hwf hfit
  refine ⟨ds', hbuild, hpath, ?_⟩
  rw [showsEntries_iff hfit hmatch hnames, ← hpath]
  constructor
  · exact hbuilt.found_of_diredRight
  · rintro ⟨hsame, hperm, hno⟩
    exact hbuilt.diredRight hsame hperm hno

/-- A directory with a directory, a file and a link to that, and one with a file whose name has two lines. -/
def twoDirectories : Files :=
  { commands := [], buffers := [], charsets := [], isDir := fun p => p == cstr "/d/c", fnmatch := fun _ _ => true
    readdir := fun p =>
      if p = cstr "/d" then some [cstr ".", cstr "..", cstr "b", cstr "a", cstr "c"]
      else if p = cstr "/n" then some [cstr "a\nb"] else none
    lstat := fun p =>
      if p = cstr "/d/c" then some ⟨.dir, true, 0, 0, 3⟩ else if p = cstr "/d/b" then some ⟨.lnk, true, 0, 0, 4⟩
      else if p = cstr "/d/a" ∨ p = cstr "/n/a\nb" then some ⟨.reg, false, 7, 0, 5⟩ else none
    readlink := fun p => if p = cstr "/d/b" then some (cstr "a") else none }

/-- A window in which no directory is listed yet. -/
def emptyList : DiredState := { s := Editor.new (EditBuffer.new false) .latin1 0, items := [], lastPos := -1, path := [] }

theorem slash_not_mem_names : ∀ dir names, twoDirectories.readdir dir = some names → ∀ name ∈ names, slash ∉ name := by
  intro dir names h
  dsimp only [twoDirectories] at h
  split at h
  · obtain rfl := Option.some.inj h
    decide
  · split at h
    · obtain rfl := Option.some.inj h
      decide
    · cases h

/-- Each line is selected as it is shown. -/
theorem diredRight_iff_links :
    ∃ ds', buildDiredList twoDirectories emptyList (cstr "/d") = some ds' ∧ DiredRight twoDirectories (cstr "/d") ds' := by
  have hwf : emptyList.s.buffer.WellFormed := ⟨_, new_stands false⟩
  have hfit : NamesFit twoDirectories (canonizePath 1024 (cstr "/d")) := by
    unfold NamesFit
    decide +kernel
  obtain ⟨ds', hbuild, -, hright⟩ := diredRight_iff hwf hfit (fun _ => rfl) slash_not_mem_names
  exact ⟨ds', hbuild, hright.2 (by decide +kernel)⟩

/-- A file whose name has a newline in it has two lines, and the second one selects nothing. -/
theorem not_diredRight : ¬∀ (w : Files) (ds ds' : DiredState) (path : List Byte), ds.s.buffer.WellFormed →
    NamesFit w (canonizePath 1024 path) → (∀ name, w.fnmatch (cstr "*") name = true) →
    (∀ dir names, w.readdir dir = some names → ∀ name ∈ names, slash ∉ name) → buildDiredList w ds path = some ds' →
    DiredRight w path ds' := by
  intro h
  have hwf : emptyList.s.buffer.WellFormed := ⟨_, new_stands false⟩
  have hfit : NamesFit twoDirectories (canonizePath 1024 (cstr "/n")) := by
    unfold NamesFit
    decide +kernel
  obtain ⟨ds', hbuild, hpath, hbuilt⟩ := buildDiredList_spec hwf hfit
  obtain ⟨-, -, hno⟩ := hbuilt.found_of_diredRight (h _ _ _ _ hwf hfit (fun _ => rfl) slash_not_mem_names hbuild)
  rw [hpath] at hno
  revert hno
  decide +kernel

end ListMode

end Hoe
