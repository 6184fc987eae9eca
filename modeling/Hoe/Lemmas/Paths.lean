import Hoe.Paths
import Hoe.Lib.Lines

/-!
# Canonical file names

A path is taken apart into files. `canonize_path1` keeps, in its buffer, what the files read so far spell: the names from the root of
an absolute path, or the place from a first file that a relative path leads to. Nothing is cut off as long as the path fits.
-/

namespace Hoe

open Walk (Step)

/-! ## Strings -/

/-- `strchr` finds a byte just when it is there. -/
theorem strchr_eq_none {s : List Byte} {c : Byte} : strchr s c = none ↔ c ∉ s := List.idxOf?_eq_none_iff

/-- A string in front of a character that it does not contain ends where the character is found. -/
theorem strchr_append {s : List Byte} {c : Byte} (hs : c ∉ s) (t : List Byte) : strchr (s ++ c :: t) c = some s.length := by
  induction s with
  | nil => simp [strchr, List.idxOf?_cons]
  | cons a s ih =>
    rw [List.mem_cons, not_or] at hs
    have ih := ih hs.2
    rw [strchr] at ih
    simp [strchr, List.idxOf?_cons, ih, Ne.symm hs.1]

theorem strrchr_eq_none {s : List Byte} {c : Byte} (hs : c ∉ s) : strrchr s c = none := by
  have h : s.reverse.idxOf? c = none := List.idxOf?_eq_none_iff.2 (by simpa using hs)
  rw [strrchr, h]
  rfl

/-- The last place of a byte, in front of what has none. -/
theorem strrchr_append {t : List Byte} {c : Byte} (ht : c ∉ t) (s : List Byte) : strrchr (s ++ c :: t) c = some s.length := by
  have hr : (s ++ c :: t).reverse = t.reverse ++ c :: s.reverse := by simp
  have h := strchr_append (by simpa using ht : c ∉ t.reverse) s.reverse
  rw [strchr] at h
  rw [strrchr, hr, h, List.length_reverse, List.length_append, List.length_cons, Option.map_some]
  congr 1
  omega

/-- What fits in the array is copied as it is. -/
theorem pstrcpy_fits {bufSize : Nat} {s : List Byte} (h : s.length < bufSize) : pstrcpy bufSize s = s :=
  List.take_of_length_le (by omega)

/-- What fits behind the text of the array is appended as it is. -/
theorem pstrcat_fits {bufSize : Nat} {buf s : List Byte} (h : buf.length + s.length < bufSize) : pstrcat bufSize buf s = buf ++ s := by
  rw [pstrcat, if_pos (by omega), List.take_of_length_le (by omega)]

/-- What does not fit is cut. -/
theorem length_pstrcat {bufSize : Nat} {buf : List Byte} (h : buf.length < bufSize) (s : List Byte) :
    (pstrcat bufSize buf s).length = min (buf.length + s.length) (bufSize - 1) := by
  rw [pstrcat, if_pos h, List.length_append, List.length_take]
  omega

theorem length_pstrcat_lt {bufSize : Nat} {buf : List Byte} (h : buf.length < bufSize) (s : List Byte) :
    (pstrcat bufSize buf s).length < bufSize := by
  rw [length_pstrcat h]
  omega

/-! ## Files -/

/-- The parts of a path between the slashes, of two paths with a slash between them. -/
theorem splitOn_slash_append (s t : List Byte) : (s ++ slash :: t).splitOn slash = s.splitOn slash ++ t.splitOn slash :=
  List.splitOnP_append_cons s t (beq_self_eq_true slash)

theorem splitOn_slash_cons (s : List Byte) : (slash :: s).splitOn slash = [] :: s.splitOn slash := splitOn_slash_append [] s

theorem splitOn_eq_self {s : List Byte} (hs : slash ∉ s) : s.splitOn slash = [s] := Lines.splitOn_of_not_mem hs

theorem splitOn_cons_ne {c : Byte} (hc : c ≠ slash) (s : List Byte) :
    (c :: s).splitOn slash = (s.splitOn slash).modifyHead (List.cons c) := by
  have hc : (c == slash) = false := beq_eq_false_iff_ne.2 hc
  have := List.splitOnP_cons_eq_if_modifyHead (p := (· == slash)) c s
  rwa [hc] at this

/-- A list of files has the first file and the others. -/
theorem exists_splitOn (s : List Byte) : ∃ file files, s.splitOn slash = file :: files :=
  List.exists_cons_of_ne_nil (List.splitOnP_ne_nil _ s)

/-- No part has a slash, and its bytes are those of the path. -/
theorem mem_splitOn {s file : List Byte} (h : file ∈ s.splitOn slash) : slash ∉ file ∧ ∀ c ∈ file, c ∈ s :=
  ⟨Lines.not_mem_of_mem_splitOn h, fun _ hc => Lines.subset_of_mem_splitOn h hc⟩

/-- The room that files take, each with a slash. -/
def room (files : List (List Byte)) : Nat := (files.map fun file => file.length + 1).sum

/-- Written with a slash each, the parts take a byte more than the path. -/
theorem room_splitOn (s : List Byte) : room (s.splitOn slash) = s.length + 1 := by
  induction s with
  | nil => rfl
  | cons c s ih =>
    by_cases hc : c = slash
    · rw [hc, splitOn_slash_cons, room, List.map_cons, List.sum_cons]
      rw [room] at ih
      rw [ih, List.length_nil, List.length_cons]
      omega
    · obtain ⟨f, fs, hfs⟩ := exists_splitOn s
      rw [hfs, room, List.map_cons, List.sum_cons] at ih
      rw [splitOn_cons_ne hc, hfs, List.modifyHead_cons, room, List.map_cons, List.sum_cons, List.length_cons, List.length_cons]
      omega

theorem length_le_room (files : List (List Byte)) : files.length ≤ room files := by
  induction files with
  | nil => exact Nat.le_refl _
  | cons file files ih =>
    rw [room, List.map_cons, List.sum_cons, List.length_cons]
    rw [room] at ih
    omega

/-- A path makes no more steps than it has characters, and one more. -/
theorem length_stepsOf_le (path : List Byte) : (stepsOf path).length ≤ path.length + 1 := by
  rw [← room_splitOn]
  exact (List.length_filterMap_le _ _).trans (length_le_room _)

/-- The steps of two paths with a slash between them are made one after the other. -/
theorem stepsOf_slash_append (s t : List Byte) : stepsOf (s ++ slash :: t) = stepsOf s ++ stepsOf t := by
  rw [stepsOf, splitOn_slash_append, List.filterMap_append]
  rfl

/-! ## Names -/

/-- A name of a path. -/
structure IsName (file : List Byte) : Prop where
  step : stepOf file = some (.down file)
  slash : slash ∉ file

/-- A step down goes to the part itself. -/
theorem stepOf_down {file name : List Byte} (h : stepOf file = some (.down name)) : name = file := by
  unfold stepOf at h
  split at h
  · nomatch h
  · split at h
    · nomatch h
    · exact (Step.down.inj (Option.some.inj h)).symm

theorem stepOf_dots : stepOf [dot, dot] = some .up := by decide

/-- Only two dots are a step up. -/
theorem stepOf_up {file : List Byte} (h : stepOf file = some .up) : file = [dot, dot] := by
  unfold stepOf at h
  split at h
  · nomatch h
  · split at h
    · assumption
    · nomatch Option.some.inj h

theorem IsName.ne_dots {file : List Byte} (h : IsName file) : file ≠ [dot, dot] := by
  rintro rfl
  nomatch Option.some.inj (h.step.symm.trans stepOf_dots)

/-- A file that a path goes down to is a name. -/
theorem isName_of_mem_stepsOf {path name : List Byte} (h : Step.down name ∈ stepsOf path) : IsName name ∧ ∀ c ∈ name, c ∈ path := by
  obtain ⟨file, hmem, hstep⟩ := List.mem_filterMap.1 h
  have hs := mem_splitOn hmem
  rw [← stepOf_down hstep] at hs hstep
  exact ⟨⟨hstep, hs.1⟩, hs.2⟩

/-- What a path leads through are names, made of bytes of the path. -/
theorem isName_of_mem_pathOf {path name : List Byte} (h : name ∈ pathOf path) : IsName name ∧ ∀ c ∈ name, c ∈ path := by
  rcases Walk.mem_resolve h with h | h
  · nomatch h
  · exact isName_of_mem_stepsOf h

/-- Names are steps down, one each. -/
theorem filterMap_stepOf_names {names : List (List Byte)} (h : ∀ name ∈ names, IsName name) :
    names.filterMap stepOf = names.map Step.down := by
  induction names with
  | nil => rfl
  | cons name names ih =>
    rw [List.filterMap_cons_some (h name List.mem_cons_self).step, ih fun n hn => h n (List.mem_cons_of_mem _ hn)]
    rfl

theorem slashed_concat (names : List (List Byte)) (name : List Byte) : slashed (names ++ [name]) = slashed names ++ slash :: name := by
  simp [slashed]

/-- Files behind a file that has no slash are taken apart again. -/
theorem splitOn_append_slashed {file : List Byte} (hfile : slash ∉ file) {names : List (List Byte)} (h : ∀ name ∈ names, slash ∉ name) :
    (file ++ slashed names).splitOn slash = file :: names := by
  induction names generalizing file with
  | nil => simpa [slashed] using splitOn_eq_self hfile
  | cons name names ih =>
    have e : slashed (name :: names) = slash :: (name ++ slashed names) := rfl
    rw [e, splitOn_slash_append, splitOn_eq_self hfile, ih (h name List.mem_cons_self) fun n hn => h n (List.mem_cons_of_mem _ hn)]
    rfl

/-- The shortest spelling of names spells them. -/
theorem spellsPath_spell {names : List (List Byte)} (h : ∀ name ∈ names, IsName name) : SpellsPath (spell names) names := by
  obtain _ | ⟨name, names⟩ := names
  · exact ⟨rfl, rfl⟩
  · refine ⟨rfl, ?_⟩
    have hs := splitOn_append_slashed (List.not_mem_nil (a := slash)) fun n hn => (h n hn).slash
    rw [List.nil_append] at hs
    have hsteps : stepsOf (slashed (name :: names)) = (name :: names).map Step.down := by
      rw [stepsOf, hs, List.filterMap_cons_none (by rfl), filterMap_stepOf_names h]
    have e : spell (name :: names) = slashed (name :: names) := if_neg (List.cons_ne_nil _ _)
    rw [pathOf, e, hsteps, Walk.resolve_downs]
    rfl

/-- A path without a colon stays one when it is spelled anew. -/
theorem colon_not_mem_spell {path : List Byte} (h : colon ∉ path) : colon ∉ spell (pathOf path) := by
  unfold spell
  split
  · decide
  · intro hc
    obtain ⟨name, hn, hc⟩ := List.mem_flatMap.1 hc
    rcases List.mem_cons.1 hc with hc | hc
    · nomatch hc
    · exact h ((isName_of_mem_pathOf hn).2 _ hc)

/-! ## The loop -/

/-- A name that fits is put behind a slash. -/
theorem copyFile_eq {bufSize : Nat} {absPath : Bool} {buf file : List Byte} (h : buf ≠ [] ∨ absPath = true)
    (hfit : buf.length + (file.length + 1) < bufSize) : copyFile bufSize absPath buf file = buf ++ slash :: file := by
  have hc : (buf != [] || absPath) = true := by simpa using h
  have hs : pstrcat bufSize buf [slash] = buf ++ [slash] := pstrcat_fits (by rw [List.length_singleton]; omega)
  rw [copyFile, if_pos hc, hs, pstrcat_fits (by rw [List.length_append, List.length_singleton]; omega), List.append_assoc]
  rfl

/-- An empty part and a single dot add nothing. -/
theorem addFile_none {bufSize : Nat} {absPath : Bool} {buf file : List Byte} (hlen : file.length ≤ 1023) (h : stepOf file = none) :
    addFile bufSize absPath buf file = buf := by
  have hf : file = [] ∨ file = [dot] := by
    by_contra hf
    rw [stepOf, if_neg hf] at h
    split at h <;> nomatch h
  rw [addFile, List.take_of_length_le hlen]
  rcases hf with rfl | rfl <;> rfl

/-- A name is added by `copyFile`. -/
theorem addFile_down {bufSize : Nat} {absPath : Bool} {buf file : List Byte} (hlen : file.length ≤ 1023)
    (h : stepOf file = some (.down file)) : addFile bufSize absPath buf file = copyFile bufSize absPath buf file := by
  have hf : ¬(file = [] ∨ file = [dot]) := by
    intro hf
    rw [stepOf, if_pos hf] at h
    nomatch h
  have hd : file ≠ [dot, dot] := by
    rintro rfl
    nomatch Option.some.inj (h.symm.trans stepOf_dots)
  rw [addFile, List.take_of_length_le hlen]
  simp [not_or.1 hf, hd]

/-- Up from a file behind a slash, which is cut off unless it goes up itself. -/
theorem addFile_up (bufSize : Nat) (absPath : Bool) (buf : List Byte) {file : List Byte} (hs : slash ∉ file) :
    addFile bufSize absPath (buf ++ slash :: file) [dot, dot] =
      if file = [dot, dot] then copyFile bufSize absPath (buf ++ slash :: file) [dot, dot] else buf := by
  have hne : buf ++ slash :: file ≠ [] := by simp
  have hd : (buf ++ slash :: file).drop (buf.length + 1) = file := by simp
  rw [addFile]
  simp only [strrchr_append hs buf, hd, List.take_left]
  by_cases hf : file = [dot, dot]
  · simp [hf, dot]
  · have hf' : (file == [dot, dot]) = false := beq_eq_false_iff_ne.2 hf
    simp only [hf', if_neg hf]
    simp [hne, dot]

/-- Up from a first file without a slash. -/
theorem addFile_up_first (bufSize : Nat) (absPath : Bool) {buf : List Byte} (hne : buf ≠ []) (hs : slash ∉ buf) :
    addFile bufSize absPath buf [dot, dot] = copyFile bufSize absPath buf [dot, dot] := by
  rw [addFile]
  simp only [strrchr_eq_none hs]
  simp [hne, dot]

/-- The loop of `canonize_path1` takes a buffer that stands for some state to one that stands for the next, for as long as what it
stands for fits: it is enough to say so of one turn. -/
theorem foldl_addFile {σ : Type} (repr : σ → List Byte) (I : σ → Prop) (next : σ → Step (List Byte) → σ) {bufSize : Nat}
    {absPath : Bool}
    (hturn : ∀ x file, I x → slash ∉ file → file.length ≤ 1023 → ∀ s, stepOf file = some s →
      (repr (next x s)).length < bufSize → addFile bufSize absPath (repr x) file = repr (next x s) ∧ I (next x s))
    {files : List (List Byte)} (hfiles : ∀ file ∈ files, slash ∉ file ∧ file.length ≤ 1023) {x : σ} (hx : I x)
    (hfit : ∀ done, done <+: files → (repr ((done.filterMap stepOf).foldl next x)).length < bufSize) :
    files.foldl (addFile bufSize absPath) (repr x) = repr ((files.filterMap stepOf).foldl next x) ∧
      I ((files.filterMap stepOf).foldl next x) := by
  induction files generalizing x with
  | nil => exact ⟨rfl, hx⟩
  | cons file files ih =>
    obtain ⟨hslash, hlen⟩ := hfiles file List.mem_cons_self
    have hrest : ∀ f ∈ files, slash ∉ f ∧ f.length ≤ 1023 := fun f hf => hfiles f (List.mem_cons_of_mem _ hf)
    cases hs : stepOf file with
    | none =>
      rw [List.foldl_cons, addFile_none hlen hs, List.filterMap_cons_none hs]
      refine ih hrest hx ?_
      intro done hdone
      have h := hfit (file :: done) (List.cons_prefix_cons.2 ⟨rfl, hdone⟩)
      rwa [List.filterMap_cons_none hs] at h
    | some s =>
      have hafter : ∀ done, done <+: files → (repr ((done.filterMap stepOf).foldl next (next x s))).length < bufSize := by
        intro done hdone
        have h := hfit (file :: done) (List.cons_prefix_cons.2 ⟨rfl, hdone⟩)
        rwa [List.filterMap_cons_some hs, List.foldl_cons] at h
      obtain ⟨h1, h2⟩ := hturn x file hx hslash hlen s hs (hafter [] List.nil_prefix)
      rw [List.foldl_cons, h1, List.filterMap_cons_some hs, List.foldl_cons]
      exact ih hrest h2 hafter

/-- What fits with room for all files fits after every file, where no turn adds more than a slash and its file. -/
theorem fits_of_room {σ : Type} (repr : σ → List Byte) (next : σ → Step (List Byte) → σ)
    (hgrow : ∀ x file s, stepOf file = some s → (repr (next x s)).length ≤ (repr x).length + (file.length + 1))
    {bufSize : Nat} {files : List (List Byte)} {x : σ} (hfit : (repr x).length + room files < bufSize)
    {done : List (List Byte)} (hdone : done <+: files) : (repr ((done.filterMap stepOf).foldl next x)).length < bufSize := by
  have hle : ∀ (done : List (List Byte)) (x : σ),
      (repr ((done.filterMap stepOf).foldl next x)).length ≤ (repr x).length + room done := by
    intro done
    induction done with
    | nil => intro x; exact Nat.le_refl _
    | cons file done ih =>
      intro x
      rw [room, List.map_cons, List.sum_cons, ← room]
      cases hs : stepOf file with
      | none =>
        have := ih x
        rw [List.filterMap_cons_none hs]
        omega
      | some s =>
        have h1 := ih (next x s)
        have h2 := hgrow x file s hs
        rw [List.filterMap_cons_some hs, List.foldl_cons]
        omega
  obtain ⟨rest, rfl⟩ := hdone
  have hsum : room (done ++ rest) = room done + room rest := by simp [room]
  have := hle done x
  omega

/-- Every file of a path that has room is short. -/
theorem length_le_of_mem_room {files : List (List Byte)} {file : List Byte} (h : file ∈ files) : file.length + 1 ≤ room files :=
  List.le_sum_of_mem (List.mem_map_of_mem h)

/-! ## Absolute paths -/

/-- A turn of the loop on an absolute path: the buffer holds the names from the root. -/
theorem addFile_slashed {bufSize : Nat} {names : List (List Byte)} {file : List Byte} (hn : ∀ name ∈ names, IsName name)
    (hslash : slash ∉ file) (hlen : file.length ≤ 1023) {s : Step (List Byte)} (hs : stepOf file = some s)
    (hfit : (slashed (Walk.step names s)).length < bufSize) :
    addFile bufSize true (slashed names) file = slashed (Walk.step names s) ∧ ∀ name ∈ Walk.step names s, IsName name := by
  cases s with
  | down name =>
    obtain rfl := stepOf_down hs
    have e : slashed (Walk.step names (.down name)) = slashed names ++ slash :: name := slashed_concat names name
    rw [e, List.length_append, List.length_cons] at hfit
    refine ⟨?_, fun n hmem => ?_⟩
    · rw [addFile_down hlen hs, copyFile_eq (.inr rfl) hfit, e]
    · rcases List.mem_append.1 hmem with h | h
      · exact hn n h
      · rw [List.mem_singleton.1 h]
        exact ⟨hs, hslash⟩
  | up =>
    obtain rfl := stepOf_up hs
    obtain rfl | ⟨init, last, rfl⟩ := List.eq_nil_or_concat' names
    · exact ⟨rfl, hn⟩
    · have hl : IsName last := hn last (by simp)
      have e : Walk.step (init ++ [last]) .up = init := List.dropLast_concat
      rw [e, slashed_concat]
      refine ⟨?_, fun n hmem => hn n (List.mem_append_left _ hmem)⟩
      rw [addFile_up _ _ _ hl.slash, if_neg hl.ne_dots]

/-- A step makes the path longer by its part and a slash at most. -/
theorem length_slashed_step_le (names : List (List Byte)) {file : List Byte} {s : Step (List Byte)} (hs : stepOf file = some s) :
    (slashed (Walk.step names s)).length ≤ (slashed names).length + (file.length + 1) := by
  cases s with
  | down name =>
    obtain rfl := stepOf_down hs
    have e : slashed (Walk.step names (.down name)) = slashed names ++ slash :: name := slashed_concat names name
    rw [e, List.length_append, List.length_cons]
  | up =>
    obtain rfl | ⟨init, last, rfl⟩ := List.eq_nil_or_concat' names
    · exact Nat.le_add_right _ _
    · have e : Walk.step (init ++ [last]) .up = init := List.dropLast_concat
      rw [e, slashed_concat, List.length_append]
      omega

theorem slashed_eq_nil {names : List (List Byte)} : slashed names = [] ↔ names = [] := by
  cases names <;> simp [slashed]

/-- An absolute path whose files fit, and whose names fit after every file, becomes the shortest spelling of its names. -/
theorem canonizePath1_spell {bufSize : Nat} (hsize : 1 < bufSize) {path : List Byte} (habs : path.head? = some slash)
    (hfiles : ∀ file ∈ path.splitOn slash, file.length ≤ 1023)
    (hfit : ∀ done, done <+: path.splitOn slash → (slashed (Walk.resolve [] (done.filterMap stepOf))).length < bufSize) :
    canonizePath1 bufSize path = spell (pathOf path) := by
  have hloop : (path.splitOn slash).foldl (addFile bufSize true) (slashed []) = slashed (pathOf path) :=
    (foldl_addFile slashed (fun names => ∀ name ∈ names, IsName name) Walk.step
      (fun names file hn hslash hlen s hs hlt => addFile_slashed hn hslash hlen hs hlt)
      (fun file hf => ⟨(mem_splitOn hf).1, hfiles file hf⟩) (by simp) hfit).1
  have hstart : (path.splitOn slash).foldl (addFile bufSize true) [] = slashed (pathOf path) := hloop
  unfold canonizePath1 spell
  simp only [habs, beq_self_eq_true, hstart, if_true]
  by_cases h : pathOf path = []
  · have h1 : (slashed (pathOf path) == []) = true := beq_iff_eq.2 (slashed_eq_nil.2 h)
    rw [if_pos h1, if_pos h, slashed_eq_nil.2 h, pstrcat_fits]
    · rfl
    · simpa using hsize
  · have h1 : ¬(slashed (pathOf path) == []) = true := fun e => h (slashed_eq_nil.1 (beq_iff_eq.1 e))
    rw [if_neg h1, if_neg h]

/-- An absolute path that fits becomes the shortest spelling of its names. -/
theorem canonizePath1_absolute {bufSize : Nat} (hsize : bufSize ≤ 1024) {path : List Byte} (habs : path.head? = some slash)
    (hfit : path.length < bufSize) : canonizePath1 bufSize path = spell (pathOf path) := by
  obtain ⟨path, rfl⟩ : ∃ rest, path = slash :: rest := by
    cases path with
    | nil => nomatch habs
    | cons c rest => exact ⟨rest, by rw [Option.some.inj habs]⟩
  rw [List.length_cons] at hfit
  have hroom := room_splitOn path
  refine canonizePath1_spell (by omega) rfl ?_ ?_
  · intro file hf
    rw [splitOn_slash_cons] at hf
    rcases List.mem_cons.1 hf with rfl | hf
    · exact Nat.zero_le _
    · have := length_le_of_mem_room hf
      omega
  · intro done hdone
    rw [splitOn_slash_cons] at hdone
    cases done with
    | nil => exact Nat.lt_of_le_of_lt (Nat.zero_le _) hfit
    | cons file done =>
      obtain ⟨rfl, hrest⟩ := List.cons_prefix_cons.1 hdone
      rw [List.filterMap_cons_none (by rfl)]
      exact fits_of_room slashed Walk.step (fun names file s hs => length_slashed_step_le names hs)
        (by rw [room_splitOn]; simpa [slashed] using hfit) hrest

/-! ## Lengths -/

/-- The array is not overrun, whatever the length of the part. -/
theorem length_copyFile_lt {bufSize : Nat} {buf : List Byte} (h : buf.length < bufSize) (absPath : Bool) (file : List Byte) :
    (copyFile bufSize absPath buf file).length < bufSize := by
  unfold copyFile
  split
  · exact length_pstrcat_lt (length_pstrcat_lt h _) _
  · exact length_pstrcat_lt h _

theorem length_addFile_lt {bufSize : Nat} {buf : List Byte} (h : buf.length < bufSize) (absPath : Bool) (file : List Byte) :
    (addFile bufSize absPath buf file).length < bufSize := by
  unfold addFile
  simp only
  split_ifs
  · exact h
  · exact h
  · exact length_copyFile_lt h _ _
  · split
    · exact length_copyFile_lt h _ _
    · split_ifs
      · exact length_copyFile_lt h _ _
      · exact (List.length_take_le' _ _).trans_lt h
  · exact length_copyFile_lt h _ _

/-- It is not overrun by the whole loop either. -/
theorem length_canonizePath1_lt {bufSize : Nat} (h : 0 < bufSize) (path : List Byte) :
    (canonizePath1 bufSize path).length < bufSize := by
  have hloop : ∀ (absPath : Bool) (files : List (List Byte)) (buf : List Byte), buf.length < bufSize →
      (files.foldl (addFile bufSize absPath) buf).length < bufSize := by
    intro absPath files
    induction files with
    | nil => exact fun buf hb => hb
    | cons file files ih => exact fun buf hb => ih _ (length_addFile_lt hb _ _)
  unfold canonizePath1
  simp only
  split
  · exact length_pstrcat_lt (hloop _ _ [] h) _
  · exact hloop _ _ [] h

theorem length_canonizePath_lt (path : List Byte) : (canonizePath 1024 path).length < 1024 := by
  unfold canonizePath
  split
  · split_ifs
    · rw [List.append_nil]
      exact (List.length_take_le 2 _).trans_lt (by decide)
    · rw [List.length_append]
      exact Nat.add_lt_add_of_le_of_lt (List.length_take_le 2 _) (length_canonizePath1_lt (by decide : 0 < 1024 - 2) _)
    · rw [pstrcpy, List.length_take]
      omega
  · exact length_canonizePath1_lt (by decide) _

/-- A canonical name fits in the array of a file name. -/
theorem length_canonizeAbsolutePath_lt (cwd path : List Byte) : (canonizeAbsolutePath cwd 1024 path).length < 1024 :=
  length_canonizePath_lt _

end Hoe
