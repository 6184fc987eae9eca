import Hoe.Lemmas.Paths
import Hoe.Minibuffer

/-!
# The minibuffer: strings and candidates
-/

namespace Hoe

namespace Minibuffer

variable {s t input : List Byte} {names : List (List Byte)}

/-! ## Strings -/

theorem zero_not_mem_cString (s : List Byte) : 0 ∉ cString s := fun h => by simpa using List.mem_takeWhile_imp h

/-- A text without a zero is the C string in it. -/
theorem cString_eq_self (hs : 0 ∉ s) : cString s = s := by
  refine List.takeWhile_eq_self_iff.2 fun b hb => ?_
  simp only [bne_iff_ne, ne_eq]
  rintro rfl
  exact hs hb

/-- A C string ends in front of the first zero. -/
theorem cString_begins (s : List Byte) : cString s <+: s := List.takeWhile_prefix _

/-- What a string begins with, if there is no zero in it, the string constant begins with. -/
theorem begins_cString (ht : 0 ∉ t) (h : t <+: s) : t <+: cString s := by
  obtain ⟨u, rfl⟩ := h
  unfold cString
  rw [List.takeWhile_append_of_pos]
  · exact List.prefix_append _ _
  · intro b hb
    simp only [bne_iff_ne, ne_eq]
    rintro rfl
    exact ht hb

theorem ebGetStr_length_le (bufSize : Nat) (s : List Byte) : (ebGetStr bufSize s).length ≤ s.length := by
  unfold ebGetStr
  exact List.length_take_le' _ _

/-- A text that fits is read whole. -/
theorem ebGetStr_eq_self {bufSize : Nat} (h : s.length < bufSize) : ebGetStr bufSize s = s := List.take_of_length_le (Nat.le_sub_one_of_lt h)

/-- What is read into an array is the whole string, if it fits and has no zero in it. -/
theorem cString_ebGetStr_eq_self_iff {bufSize : Nat} (hsize : 0 < bufSize) : cString (ebGetStr bufSize s) = s ↔ s.length < bufSize ∧ 0 ∉ s := by
  constructor
  · intro h
    have hle := (cString_begins (ebGetStr bufSize s)).length_le
    rw [h] at hle
    refine ⟨?_, h ▸ zero_not_mem_cString _⟩
    have := hle.trans (List.length_take_le _ _)
    omega
  · rintro ⟨hlen, hzero⟩
    rw [ebGetStr_eq_self hlen, cString_eq_self hzero]

/-! ## Candidates -/

/-- The strings that are added one by one, each up to its first zero. -/
theorem foldl_addString {α : Type*} (f : α → List Byte) (l : List α) (cs : List (List Byte)) :
    l.foldl (fun cs x => addString cs (f x)) cs = cs ++ l.map (cString ∘ f) := by
  induction l generalizing cs with
  | nil => simp
  | cons x l ih =>
    rw [List.foldl_cons, ih, addString, List.append_assoc]
    rfl

/-- The candidates are the names that go on with the input. -/
theorem mem_namesWith : t ∈ namesWith input names ↔ ∃ name ∈ names, input <+: name ∧ cString name = t := by
  unfold namesWith
  rw [foldl_addString (fun name => name), List.nil_append, List.mem_map]
  simp [and_assoc]

/-- The names go on where the input ends. -/
theorem prefix_of_mem_namesWith (hinput : 0 ∉ input) (h : t ∈ namesWith input names) : input <+: t := by
  obtain ⟨name, -, hname, rfl⟩ := mem_namesWith.1 h
  exact begins_cString hinput hname

/-- A candidate for a file: the path that was typed, and the name that `readdir` gave and the pattern fits; and a slash, for a directory. -/
theorem mem_fileCompletion {w : World} (h : t ∈ fileCompletion w input) :
    ∃ filename ∈ findFiles w (if inputPathLen input = 0 then cstr "." else input.take (inputPathLen input))
        ((input.drop (inputPathLen input) ++ cstr "*").take 1023),
      ∃ tail, t = cString (input.take (inputPathLen input) ++ qeBasename filename ++ tail) := by
  unfold fileCompletion at h
  simp only [foldl_addString (fun filename => if w.isDir (input.take (inputPathLen input) ++ qeBasename filename) then _ else _),
    List.nil_append, List.mem_map] at h
  obtain ⟨filename, hfilename, rfl⟩ := h
  refine ⟨filename, hfilename, if w.isDir (input.take (inputPathLen input) ++ qeBasename filename) then [slash] else [], ?_⟩
  simp only [Function.comp]
  split_ifs <;> simp

/-- What `find_file_next` gives is a name of a directory of the path that matches the pattern. -/
theorem mem_findFiles {w : World} {path pattern filename : List Byte} (h : filename ∈ findFiles w path pattern) :
    ∃ dir names name, w.readdir dir = some names ∧ name ∈ names ∧ w.fnmatch pattern name = true ∧ filename = dir ++ slash :: name := by
  unfold findFiles at h
  simp only [List.mem_flatMap, List.mem_map, List.mem_filter] at h
  obtain ⟨dir, -, name, ⟨hname, hmatch⟩, rfl⟩ := h
  cases hnames : w.readdir dir with
  | none => simp [hnames] at hname
  | some names => exact ⟨dir, names, name, hnames, by simpa [hnames] using hname, hmatch, rfl⟩

/-- The name behind the last slash. -/
theorem qeBasename_append {name : List Byte} (hname : slash ∉ name) (dir : List Byte) : qeBasename (dir ++ slash :: name) = name := by
  unfold qeBasename
  rw [strrchr_append hname]
  simp

/-- No candidate has a zero in it. -/
theorem zero_not_mem_candidates {w : World} (c : Completion) (h : t ∈ c.candidates w input) : 0 ∉ t := by
  cases c with
  | command | buffer | charset =>
    obtain ⟨name, -, -, rfl⟩ := mem_namesWith.1 h
    exact zero_not_mem_cString name
  | file =>
    obtain ⟨filename, -, tail, rfl⟩ := mem_fileCompletion h
    exact zero_not_mem_cString _

end Minibuffer

end Hoe
