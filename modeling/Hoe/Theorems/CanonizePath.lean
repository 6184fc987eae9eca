import Hoe.Lemmas.Paths

/-!
# Canonical paths

`canonize_path1` writes the files of a path one by one. An absolute path becomes its lexical normal form. A relative one keeps a
first name that it goes up from again, since the loop looks for a slash to cut at, so it is not in normal form, but leads from
every directory to where it led before.
-/

namespace Hoe

open Walk (Step)

/-- What a step does to the files of the output: up takes the last one away, but a relative output keeps its first file, and goes
up behind one that goes up. -/
def outputStep (absPath : Bool) (files : List (List Byte)) (s : Step (List Byte)) : List (List Byte) :=
  if absPath then Walk.step files s else
  match s with
  | .down name => files ++ [name]
  | .up => if files.length ≤ 1 ∨ files.getLast? = some [dot, dot] then files ++ [[dot, dot]] else files.dropLast

/-- The text of the output: a slash between the files, and one in front of them in an absolute path. -/
def outputText (absPath : Bool) (files : List (List Byte)) : List Byte :=
  if absPath then slashed files else (slashed files).tail

/-- The output behind some files of the input, when nothing is cut off. -/
def outputOf (absPath : Bool) (files : List (List Byte)) : List Byte :=
  outputText absPath ((files.filterMap stepOf).foldl (outputStep absPath) [])

/-- Every file of the path fits in the buffer of a file, and the output in its buffer behind each of them. -/
structure FitsBuffers (bufSize : Nat) (path : List Byte) : Prop where
  size : 1 < bufSize
  files : ∀ file ∈ path.splitOn slash, file.length ≤ 1023
  output : ∀ done, done <+: path.splitOn slash → (outputOf (path.head? == some slash) done).length < bufSize

/-- A turn adds no more than a slash and its file. -/
theorem length_slashed_outputStep_le (absPath : Bool) (files : List (List Byte)) {file : List Byte} {s : Step (List Byte)}
    (hs : stepOf file = some s) :
    (slashed (outputStep absPath files s)).length ≤ (slashed files).length + (file.length + 1) := by
  have hadd : (slashed (files ++ [file])).length = (slashed files).length + (file.length + 1) := by
    rw [slashed_concat, List.length_append, List.length_cons]
  unfold outputStep
  split
  · exact length_slashed_step_le files hs
  · cases s with
    | down name =>
      obtain rfl := stepOf_down hs
      exact Nat.le_of_eq hadd
    | up =>
      obtain rfl := stepOf_up hs
      simp only
      split
      · exact Nat.le_of_eq hadd
      · obtain rfl | ⟨init, last, rfl⟩ := List.eq_nil_or_concat' files
        · exact Nat.le_add_right _ _
        · rw [List.dropLast_concat, slashed_concat, List.length_append]
          omega

/-- A path that is shorter than a buffer of no more than 1024 characters, as every path of the program is, fits. -/
theorem fitsBuffers_of_length {bufSize : Nat} (hone : 1 < bufSize) (hsize : bufSize ≤ 1024) {path : List Byte}
    (hlen : path.length < bufSize) : FitsBuffers bufSize path := by
  have hroom := room_splitOn path
  have hslashed (absPath : Bool) {rest done : List (List Byte)} {n : Nat} (hn : room rest < n) (hdone : done <+: rest) :
      (slashed ((done.filterMap stepOf).foldl (outputStep absPath) [])).length < n :=
    fits_of_room slashed (outputStep absPath) (fun files file s hs => length_slashed_outputStep_le absPath files hs)
      (by simpa [slashed] using hn) hdone
  refine ⟨hone, ?_, ?_⟩
  · intro file hf
    have := length_le_of_mem_room hf
    omega
  · intro done hdone
    unfold outputOf outputText
    split
    · -- the slash that an absolute path begins with is the one in front of the first file
      rename_i habs
      obtain ⟨rest, rfl⟩ : ∃ rest, path = slash :: rest := by
        cases path with
        | nil => simp at habs
        | cons c rest => exact ⟨rest, by rw [Option.some.inj (beq_iff_eq.1 habs)]⟩
      rw [splitOn_slash_cons] at hdone
      rw [List.length_cons] at hlen
      cases done with
      | nil => exact Nat.lt_of_le_of_lt (Nat.zero_le _) hlen
      | cons file done =>
        obtain ⟨rfl, hrest⟩ := List.cons_prefix_cons.1 hdone
        rw [List.filterMap_cons_none (by rfl)]
        exact hslashed _ (by rw [room_splitOn]; exact hlen) hrest
    · have := hslashed (path.head? == some slash) (Nat.lt_succ_self (room (path.splitOn slash))) hdone
      rw [List.length_tail]
      omega

/-! ## Relative paths -/

/-- A file of a relative output. -/
def IsFile (file : List Byte) : Prop := IsName file ∨ file = [dot, dot]

theorem IsFile.slash {file : List Byte} (h : IsFile file) : slash ∉ file := by
  rcases h with h | rfl
  · exact h.slash
  · decide

theorem IsFile.ne_nil {file : List Byte} (h : IsFile file) : file ≠ [] := by
  rintro rfl
  rcases h with h | h
  · nomatch h.step
  · nomatch h

theorem outputText_concat {files : List (List Byte)} (h : files ≠ []) (file : List Byte) :
    outputText false (files ++ [file]) = outputText false files ++ slash :: file := by
  have hne : slashed files ≠ [] := fun e => h (slashed_eq_nil.1 e)
  simp only [outputText, Bool.false_eq_true, if_false, slashed_concat, List.tail_append_of_ne_nil hne]

theorem outputText_eq_nil {files : List (List Byte)} (hf : ∀ file ∈ files, IsFile file) :
    outputText false files = [] ↔ files = [] := by
  cases files with
  | nil => simp [outputText, slashed]
  | cons file files =>
    have hne := (hf file List.mem_cons_self).ne_nil
    simp [outputText, slashed, hne]

/-- A file put behind the others. -/
theorem copyFile_outputText {bufSize : Nat} {files : List (List Byte)} (hf : ∀ file ∈ files, IsFile file) {file : List Byte}
    (hfit : (outputText false (files ++ [file])).length < bufSize) :
    copyFile bufSize false (outputText false files) file = outputText false (files ++ [file]) := by
  by_cases h : files = []
  · subst h
    have hone : outputText false ([] ++ [file]) = file := by simp [outputText, slashed]
    rw [hone] at hfit ⊢
    exact pstrcat_fits (by simpa [outputText, slashed] using hfit)
  · rw [outputText_concat h] at hfit ⊢
    refine copyFile_eq (.inl fun e => h ((outputText_eq_nil hf).1 e)) ?_
    simpa using hfit

theorem isFile_outputStep {files : List (List Byte)} {file : List Byte} (hf : ∀ f ∈ files, IsFile f) (hslash : slash ∉ file)
    {s : Step (List Byte)} (hs : stepOf file = some s) : ∀ f ∈ outputStep false files s, IsFile f := by
  have hadd (h : IsFile file) : ∀ f ∈ files ++ [file], IsFile f := by
    intro f hmem
    rcases List.mem_append.1 hmem with hmem | hmem
    · exact hf f hmem
    · rw [List.mem_singleton.1 hmem]
      exact h
  cases s with
  | down name =>
    obtain rfl := stepOf_down hs
    exact hadd (.inl ⟨hs, hslash⟩)
  | up =>
    obtain rfl := stepOf_up hs
    unfold outputStep
    simp only [Bool.false_eq_true, if_false]
    split
    · exact hadd (.inr rfl)
    · exact fun f hmem => hf f (List.dropLast_subset _ hmem)

/-- A turn of the loop on a relative path: the buffer holds the files of the output. -/
theorem addFile_outputText {bufSize : Nat} {files : List (List Byte)} {file : List Byte} (hf : ∀ f ∈ files, IsFile f)
    (hlen : file.length ≤ 1023) {s : Step (List Byte)} (hs : stepOf file = some s)
    (hfit : (outputText false (outputStep false files s)).length < bufSize) :
    addFile bufSize false (outputText false files) file = outputText false (outputStep false files s) := by
  cases s with
  | down name =>
    obtain rfl := stepOf_down hs
    have e : outputStep false files (.down name) = files ++ [name] := rfl
    rw [e] at hfit ⊢
    rw [addFile_down hlen hs, copyFile_outputText hf hfit]
  | up =>
    obtain rfl := stepOf_up hs
    obtain rfl | ⟨init, last, rfl⟩ := List.eq_nil_or_concat' files
    · have e : outputStep false [] .up = [] ++ [[dot, dot]] := rfl
      rw [e] at hfit ⊢
      rw [← copyFile_outputText hf hfit]
      rfl
    · have hlast : IsFile last := hf last (by simp)
      by_cases hinit : init = []
      · -- a first file has no slash to cut at
        subst hinit
        have e : outputStep false ([] ++ [last]) .up = [] ++ [last] ++ [[dot, dot]] := rfl
        have hone : outputText false ([] ++ [last]) = last := by simp [outputText, slashed]
        rw [e] at hfit ⊢
        rw [← copyFile_outputText hf hfit, hone]
        exact addFile_up_first _ _ hlast.ne_nil hlast.slash
      · have e : outputStep false (init ++ [last]) .up =
            if last = [dot, dot] then init ++ [last] ++ [[dot, dot]] else init := by
          simp [outputStep, hinit]
        rw [e] at hfit ⊢
        by_cases hdots : last = [dot, dot]
        · rw [if_pos hdots] at hfit ⊢
          rw [← copyFile_outputText hf hfit, outputText_concat hinit, addFile_up _ _ _ hlast.slash, if_pos hdots]
        · rw [if_neg hdots, outputText_concat hinit, addFile_up _ _ _ hlast.slash, if_neg hdots]

/-- The steps of the files of the output lead where the steps of the input led. -/
theorem resolve_outputStep {files : List (List Byte)} (hf : ∀ f ∈ files, IsFile f) {file : List Byte} {s : Step (List Byte)}
    (hs : stepOf file = some s) (xs : List (List Byte)) :
    Walk.resolve xs ((outputStep false files s).filterMap stepOf) = Walk.step (Walk.resolve xs (files.filterMap stepOf)) s := by
  have hadd : Walk.resolve xs ((files ++ [file]).filterMap stepOf) =
      Walk.step (Walk.resolve xs (files.filterMap stepOf)) s := by
    rw [List.filterMap_append, Walk.resolve_append, List.filterMap_cons_some hs]
    rfl
  cases s with
  | down name =>
    obtain rfl := stepOf_down hs
    exact hadd
  | up =>
    obtain rfl := stepOf_up hs
    unfold outputStep
    simp only [Bool.false_eq_true, if_false]
    split
    · exact hadd
    · -- the last file is a name, and up from it is where the others lead
      rename_i hcut
      obtain rfl | ⟨init, last, rfl⟩ := List.eq_nil_or_concat' files
      · exact absurd (.inl (Nat.zero_le _)) hcut
      · have hname : IsName last := by
          rcases hf last (by simp) with h | h
          · exact h
          · exact absurd (.inr (by simp [h])) hcut
        rw [List.dropLast_concat, List.filterMap_append, Walk.resolve_append, List.filterMap_cons_some hname.step]
        simp [Walk.resolve, Walk.step]

/-- Where the files of the output lead, behind all files of the input. -/
theorem resolve_outputs {rest : List (List Byte)} (hrest : ∀ file ∈ rest, slash ∉ file) {files : List (List Byte)}
    (hf : ∀ f ∈ files, IsFile f) (xs : List (List Byte)) :
    Walk.resolve xs (((rest.filterMap stepOf).foldl (outputStep false) files).filterMap stepOf) =
      Walk.resolve (Walk.resolve xs (files.filterMap stepOf)) (rest.filterMap stepOf) := by
  induction rest generalizing files with
  | nil => rfl
  | cons file rest ih =>
    have hlater : ∀ f ∈ rest, slash ∉ f := fun f h => hrest f (List.mem_cons_of_mem _ h)
    cases hs : stepOf file with
    | none =>
      rw [List.filterMap_cons_none hs]
      exact ih hlater hf
    | some s =>
      rw [List.filterMap_cons_some hs, List.foldl_cons,
        ih hlater (isFile_outputStep hf (hrest file List.mem_cons_self) hs), resolve_outputStep hf hs]
      rfl

/-- The files of a relative output are found again in its text. -/
theorem splitOn_outputText {files : List (List Byte)} (hne : files ≠ []) (hf : ∀ f ∈ files, IsFile f) :
    (outputText false files).splitOn slash = files := by
  cases files with
  | nil => exact absurd rfl hne
  | cons file files =>
    have e : outputText false (file :: files) = file ++ slashed files := rfl
    rw [e, splitOn_append_slashed (hf file List.mem_cons_self).slash fun f h => (hf f (List.mem_cons_of_mem _ h)).slash]

/-- A relative output does not begin with a slash. -/
theorem head?_outputText {files : List (List Byte)} (hf : ∀ f ∈ files, IsFile f) :
    (outputText false files).head? ≠ some slash := by
  cases files with
  | nil => simp [outputText, slashed]
  | cons file files =>
    have hfile := hf file List.mem_cons_self
    obtain ⟨c, name, rfl⟩ := List.exists_cons_of_ne_nil hfile.ne_nil
    intro e
    have hc : c = slash := Option.some.inj e
    exact hfile.slash (by simp [hc])

/-- A relative path becomes a relative path that leads where it led. -/
theorem canonizePath1_relative {bufSize : Nat} {path : List Byte} (h : FitsBuffers bufSize path)
    (hrel : path.head? ≠ some slash) :
    canonizePath1 bufSize path ≠ [] ∧ (canonizePath1 bufSize path).head? ≠ some slash ∧
      ∀ directory, Walk.resolve directory (stepsOf (canonizePath1 bufSize path)) = Walk.resolve directory (stepsOf path) := by
  have hfalse : (path.head? == some slash) = false := beq_eq_false_iff_ne.2 hrel
  have hslash : ∀ file ∈ path.splitOn slash, slash ∉ file := fun file hf => (mem_splitOn hf).1
  have hout := h.output
  rw [hfalse] at hout
  have hnone : ∀ f ∈ ([] : List (List Byte)), IsFile f := by simp
  obtain ⟨files, hfiles⟩ : ∃ files, files = (stepsOf path).foldl (outputStep false) [] := ⟨_, rfl⟩
  obtain ⟨hloop, hf⟩ := foldl_addFile (outputText false) (fun files => ∀ f ∈ files, IsFile f) (outputStep false)
    (fun files file hf hslash hlen s hs hlt => ⟨addFile_outputText hf hlen hs hlt, isFile_outputStep hf hslash hs⟩)
    (fun file hfile => ⟨hslash file hfile, h.files file hfile⟩) hnone hout
  have hmean := resolve_outputs hslash hnone
  rw [show (path.splitOn slash).filterMap stepOf = stepsOf path from rfl, ← hfiles] at hloop hf hmean
  have hstart : (path.splitOn slash).foldl (addFile bufSize false) [] = outputText false files := hloop
  unfold canonizePath1
  simp only [hfalse, hstart, Bool.false_eq_true, if_false]
  by_cases hnil : files = []
  · -- nothing is left of the path: it is the directory itself
    have hone : pstrcat bufSize [] [dot] = [dot] := pstrcat_fits (by simpa using h.size)
    have htext : outputText false files = [] := (outputText_eq_nil hf).2 hnil
    rw [htext, if_pos (beq_self_eq_true _), hone]
    refine ⟨by simp, by decide, ?_⟩
    intro directory
    have hd := hmean directory
    rw [hnil] at hd
    exact hd
  · have hne : outputText false files ≠ [] := fun e => hnil ((outputText_eq_nil hf).1 e)
    rw [if_neg (by simpa using hne)]
    refine ⟨hne, head?_outputText hf, ?_⟩
    intro directory
    rw [stepsOf, splitOn_outputText hnil hf]
    exact hmean directory

/-! ## Absolute paths -/

/-- The files of a spelling are those of the names, and empty ones. -/
theorem mem_splitOn_spell {names : List (List Byte)} (hn : ∀ name ∈ names, IsName name) {file : List Byte}
    (h : file ∈ (spell names).splitOn slash) : file = [] ∨ file ∈ names := by
  cases names with
  | nil =>
    have e : (spell []).splitOn slash = [[], []] := by decide
    rw [e] at h
    simpa using h
  | cons name names =>
    have hs := splitOn_append_slashed (List.not_mem_nil (a := slash)) fun n hmem => (hn n hmem).slash
    rw [List.nil_append] at hs
    have e : spell (name :: names) = slashed (name :: names) := if_neg (List.cons_ne_nil _ _)
    rw [e, hs] at h
    exact List.mem_cons.1 h

theorem stepsOf_spell {names : List (List Byte)} (hn : ∀ name ∈ names, IsName name) :
    stepsOf (spell names) = names.map Step.down := by
  cases names with
  | nil => decide
  | cons name names =>
    have hs := splitOn_append_slashed (List.not_mem_nil (a := slash)) fun n hmem => (hn n hmem).slash
    rw [List.nil_append] at hs
    have e : spell (name :: names) = slashed (name :: names) := if_neg (List.cons_ne_nil _ _)
    rw [e, stepsOf, hs, List.filterMap_cons_none (by rfl), filterMap_stepOf_names hn]

/-- A spelling that fits stays as it is: behind every file the output is no longer than the whole of it. -/
theorem canonizePath1_idem {bufSize : Nat} (hsize : 1 < bufSize) {names : List (List Byte)} (hn : ∀ name ∈ names, IsName name)
    (hlen : ∀ name ∈ names, name.length ≤ 1023) (hfit : (slashed names).length < bufSize) :
    canonizePath1 bufSize (spell names) = spell names := by
  obtain ⟨habs, hnames⟩ := spellsPath_spell hn
  conv_rhs => rw [← hnames]
  refine canonizePath1_spell hsize habs ?_ ?_
  · intro file hf
    rcases mem_splitOn_spell hn hf with rfl | hf
    · exact Nat.zero_le _
    · exact hlen file hf
  · intro done hdone
    have hpre : done.filterMap stepOf <+: names.map Step.down := by
      rw [← stepsOf_spell hn]
      exact hdone.filterMap stepOf
    obtain ⟨k, hk⟩ : ∃ k, done.filterMap stepOf = (names.take k).map Step.down :=
      ⟨_, by rw [List.map_take]; exact List.prefix_iff_eq_take.1 hpre⟩
    rw [hk, Walk.resolve_downs, List.nil_append]
    have hcut : slashed names = slashed (names.take k) ++ slashed (names.drop k) := by
      rw [slashed, slashed, slashed, ← List.flatMap_append, List.take_append_drop]
    rw [hcut, List.length_append] at hfit
    omega

/-- The names of a path are files of it. -/
theorem mem_splitOn_of_mem_pathOf {path name : List Byte} (h : name ∈ pathOf path) : name ∈ path.splitOn slash := by
  rcases Walk.mem_resolve h with h | h
  · nomatch h
  · obtain ⟨file, hmem, hstep⟩ := List.mem_filterMap.1 h
    rwa [stepOf_down hstep]

theorem IsName.ne_nil {file : List Byte} (h : IsName file) : file ≠ [] := by
  rintro rfl
  nomatch h.step

theorem IsName.ne_dot {file : List Byte} (h : IsName file) : file ≠ [dot] := by
  rintro rfl
  nomatch h.step

/-- An absolute path becomes its lexical normal form, and stays as it is from then on. A relative path becomes a relative path
that is not empty and leads from every directory to where the path led, each `..` taking back the name before it. -/
theorem canonizePath1_meaning {bufSize : Nat} {path : List Byte} (h : FitsBuffers bufSize path) :
    (path.head? = some slash →
      canonizePath1 bufSize path = spell (pathOf path) ∧
      (∀ name ∈ pathOf path, name ≠ [] ∧ name ≠ [dot] ∧ name ≠ [dot, dot] ∧ slash ∉ name) ∧
      canonizePath1 bufSize (canonizePath1 bufSize path) = canonizePath1 bufSize path) ∧
    (path.head? ≠ some slash →
      canonizePath1 bufSize path ≠ [] ∧ (canonizePath1 bufSize path).head? ≠ some slash ∧
      ∀ directory, Walk.resolve directory (stepsOf (canonizePath1 bufSize path)) =
        Walk.resolve directory (stepsOf path)) := by
  refine ⟨?_, canonizePath1_relative h⟩
  intro habs
  have hout := h.output
  rw [habs, beq_self_eq_true] at hout
  have hn : ∀ name ∈ pathOf path, IsName name := fun name hmem => (isName_of_mem_pathOf hmem).1
  have hspell := canonizePath1_spell h.size habs h.files hout
  refine ⟨hspell, ?_, ?_⟩
  · intro name hmem
    exact ⟨(hn name hmem).ne_nil, (hn name hmem).ne_dot, (hn name hmem).ne_dots, (hn name hmem).slash⟩
  · rw [hspell]
    exact canonizePath1_idem h.size hn (fun name hmem => h.files name (mem_splitOn_of_mem_pathOf hmem))
      (hout _ (List.prefix_refl _))

/-- The paths `/a/./..//b` and `a/../b/..`, of which the second stays `a/..`. -/
theorem canonizePath1_meaning_two :
    let path := [slash, 0x61, slash, dot, slash, dot, dot, slash, slash, 0x62]
    let path' := [0x61, slash, dot, dot, slash, 0x62, slash, dot, dot]
    canonizePath1 1024 path = [slash, 0x62] ∧ canonizePath1 1024 path' = [0x61, slash, dot, dot] ∧
      ∀ directory, Walk.resolve directory (stepsOf (canonizePath1 1024 path')) = directory := by
  intro path path'
  have hfits : FitsBuffers 1024 path := fitsBuffers_of_length (by decide) (by decide) (by decide)
  have hfits' : FitsBuffers 1024 path' := fitsBuffers_of_length (by decide) (by decide) (by decide)
  refine ⟨((canonizePath1_meaning hfits).1 rfl).1.trans (by decide), by decide, ?_⟩
  intro directory
  have hsteps : stepsOf path' = [.down [0x61], .up, .down [0x62], .up] := by decide
  have hmean := ((canonizePath1_meaning hfits').2 (by decide)).2.2 directory
  rw [hmean, hsteps]
  simp [Walk.resolve, Walk.step]

/-- A path whose files fit, and whose normal form fits: its name of 1022 characters fills the output, so the file behind it is
cut off, and `..` takes the name away. -/
theorem canonizePath1_cut :
    ¬∀ (bufSize : Nat) (path : List Byte), path.head? = some slash → (∀ file ∈ path.splitOn slash, file.length ≤ 1023) →
      (spell (pathOf path)).length < bufSize → canonizePath1 bufSize path = spell (pathOf path) := by
  intro h
  have hcut := h 1024 (slash :: List.replicate 1022 0x61 ++ [slash, 0x62, slash, dot, dot]) rfl (by decide +kernel)
    (by decide +kernel)
  revert hcut
  decide +kernel

end Hoe
