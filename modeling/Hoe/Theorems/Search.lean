import Hoe.Lemmas.ISearch
import Hoe.Lemmas.Search

/-!
# Searching

`eb_search`, and the incremental search over it.
-/

namespace Hoe

/-!
## Searching

`eb_search` answers the first match in its direction, forward from the offset on and backward in front of it. Backward it begins
no further back than where the pattern still fits in front of the end of the text, and steps over that place too: a match at the
very end of the text is passed by.
-/

/-- The offsets a search from the offset on is about. -/
def Direction.Covers (dir : Direction) (offset o : Nat) : Prop :=
  match dir with
  | .forward => offset ≤ o
  | .backward => o < offset

/-- The search answers the first match in its direction, and -1 exactly when there is none. -/
def SearchRight (t : Pages) (dir : Direction) (flags : SearchFlags) (buf : List Byte) (offset : Nat) : Prop :=
  Answers dir {o | dir.Covers offset o ∧ IsMatch t.bytes flags buf o} (ebSearch t offset dir buf flags fun _ => false)

/-- A search is right, unless it goes backward and the text ends with a match in front of the offset. -/
theorem searchRight_iff {t : Pages} (ht : t.Ok) (dir : Direction) (flags : SearchFlags) {buf : List Byte} (hpos : 0 < buf.length)
    (hsize : buf.length < searchBufSize) (offset : Nat) :
    SearchRight t dir flags buf offset ↔
      (dir = .backward → ∀ o, o + buf.length = t.totalSize → o < offset → ¬IsMatch t.bytes flags buf o) := by
  have hlen := ht.length_bytes
  cases dir with
  | forward => exact iff_of_true (ebSearch_forward ht flags hpos hsize offset) fun h => by cases h
  | backward =>
    have hback := ebSearch_backward ht flags hpos hsize offset
    simp only [true_implies]
    constructor
    · -- the answer of the code is about fewer offsets, of which the match at the end is none
      intro hright last hlast hlt hmatch
      have hmem : last ∈ {o | Direction.Covers .backward offset o ∧ IsMatch t.bytes flags buf o} := ⟨hlt, hmatch⟩
      rcases hright with ⟨-, hnone⟩ | ⟨o, hres, -, hgreatest⟩
      · rw [hnone] at hmem
        exact hmem
      · have hle := hgreatest hmem
        rcases hback with ⟨hres', -⟩ | ⟨o', hres', ⟨hlt', -⟩, -⟩
        · omega
        · have hoo : (o' : Int) = o := hres'.symm.trans hres
          omega
    · intro hmiss
      rw [SearchRight]
      convert hback using 1
      ext o
      constructor
      · rintro ⟨hlt, hmatch⟩
        have hlt : o < offset := hlt
        have hend := hmatch.1
        have hne : o + buf.length ≠ t.totalSize := fun heq => hmiss o heq hlt hmatch
        exact ⟨by omega, hmatch⟩
      · rintro ⟨hlt, hmatch⟩
        exact ⟨show o < offset by omega, hmatch⟩

/-- The text "ab". -/
def searchedBuffer : EditBuffer := ebInsert (EditBuffer.new false) 0 [0x61, 0x62]

theorem searchedBuffer_ok : searchedBuffer.toPages.Ok := (ebInsert_stands (new_stands false) (Nat.zero_le _) _).ok

/-- The letter in front of the last one is found from the end of the text. -/
theorem searchRight_first : SearchRight searchedBuffer.toPages .backward .none [0x61] 2 :=
  (searchRight_iff searchedBuffer_ok .backward .none (by decide) (by decide) 2).mpr fun _ o ho _ hmatch => by
    obtain rfl : o = 1 := by
      have hend : o + 1 = 2 := ho
      omega
    exact absurd hmatch (by decide)

/-- The last one is not. -/
theorem not_searchRight : ¬∀ t : Pages, t.Ok → ∀ dir flags, ∀ buf : List Byte, 0 < buf.length → buf.length < searchBufSize →
    ∀ offset ≤ t.totalSize, SearchRight t dir flags buf offset := by
  intro h
  have hres : ebSearch searchedBuffer.toPages 2 .backward [0x62] .none (fun _ => false) = -1 := by decide +kernel
  rcases h _ searchedBuffer_ok .backward .none [0x62] (by decide) (by decide) 2 (by decide) with ⟨-, hnone⟩ | ⟨o, ho, -⟩
  · have hmem : 1 ∈ {o | Direction.Covers .backward 2 o ∧ IsMatch searchedBuffer.bytes .none [0x62] o} :=
      ⟨show 1 < 2 by decide, by decide⟩
    rw [hnone] at hmem
    exact hmem
  · rw [Nat.cast_ofNat, hres] at ho
    omega

/-!
## Incremental search visits the matches

Forward, the search key leads from each match to the next one, overlapping or not, for as long as the array of keys has room for
their offsets. Backward, the search begins again one offset in front of the match, and `eb_search` looks in front of the offset it
is given, so that a match right in front of another one is passed by, as is one at the very end of the text.
-/

/-- The matches that a search from `start` on is to visit, in its order. -/
def matchesToVisit (text : List Byte) (dir : Direction) (flags : SearchFlags) (buf : List Byte) (start : Int) : List Nat :=
  match dir with
  | .forward => (List.range (text.length + 1)).filter fun o : Nat => start ≤ (o : Int) ∧ IsMatch text flags buf o
  | .backward => ((List.range (text.length + 1)).filter fun o : Nat => (o : Int) < start ∧ IsMatch text flags buf o).reverse

theorem mem_forward (text : List Byte) (flags : SearchFlags) (buf : List Byte) (start : Int) (o : Nat) :
    o ∈ matchesToVisit text .forward flags buf start ↔ start ≤ (o : Int) ∧ IsMatch text flags buf o := by
  simp only [matchesToVisit, List.mem_filter, List.mem_range, decide_eq_true_iff]
  exact ⟨fun h => h.2, fun h => ⟨by have := h.2.1; omega, h⟩⟩

theorem mem_backward (text : List Byte) (flags : SearchFlags) (buf : List Byte) (start : Int) (o : Nat) :
    o ∈ matchesToVisit text .backward flags buf start ↔ (o : Int) < start ∧ IsMatch text flags buf o := by
  simp only [matchesToVisit, List.mem_reverse, List.mem_filter, List.mem_range, decide_eq_true_iff]
  exact ⟨fun h => h.2, fun h => ⟨by have := h.2.1; omega, h⟩⟩

/-- The offset the window has found, while the search goes on. -/
def ISearch.foundOffset : ISearch → Option Int
  | searching is => some is.foundOffset
  | ended _ _ _ => none

/-- The keys of the string and then the search key, again and again, visit each match once, in order, and then the search fails. -/
def VisitsMatches (s : Editor) (dir : Direction) (lastSearchString cs : List Nat) : Prop :=
  ∃ visit : Nat → Int,
    (∀ i, (isearchKeys noPending (doIsearch noPending s dir lastSearchString)
      (cs ++ List.replicate i dir.searchKey)).foundOffset = some (visit i)) ∧
    VisitsAll visit (matchesToVisit s.buffer.bytes dir (isearchFlags s) (typedBytes s cs) s.offset)

/-- Typing a string and repeating the search key is a search that is repeated. -/
theorem isearchKeys_repeats (s : Editor) (dir : Direction) (lastSearchString : List Nat) {cs : List Nat} (hne : cs ≠ [])
    (hcs : ∀ c ∈ cs, Typed c) (hfit : cs.length ≤ searchLength) (i : Nat) :
    (isearchKeys noPending (doIsearch noPending s dir lastSearchString) (cs ++ List.replicate i dir.searchKey)).foundOffset =
      some (repeats (searchFor s dir cs) dir.step (searchLength - cs.length) s.offset i) := by
  obtain ⟨hshown₀, o₀, f₀, heq⟩ : (doIsearch noPending s dir lastSearchString).Displayed ∧ ∃ o f,
      doIsearch noPending s dir lastSearchString =
        { s := { s with offset := o }, startOffset := s.offset, dir := dir, searchString := [], foundOffset := f
          searchFlags := { ignoreCase := false, smartCase := true, word := false }, lastSearchString := lastSearchString } :=
    isearchDisplay_spec _
  obtain ⟨is, hrun, hstring, ⟨o, hs⟩, hdir, hflags, hstart, hshown⟩ :=
    isearchKeys_typed (doIsearch noPending s dir lastSearchString) hcs (by rw [heq]; simpa using hfit)
  have hshown := hshown hshown₀
  rw [heq] at hstring hs hdir hflags hstart
  simp only [List.nil_append] at hstring hs hdir hflags hstart
  have hbytes : is.bytes.searchOffset = s.offset ∧ is.bytes.buf = typedBytes s cs := by
    obtain ⟨h1, h2⟩ := foldl_add_keys s dir .forward cs { buf := [], hexNibble := none, searchOffset := s.offset }
      { buf := [], hexNibble := none, searchOffset := 0 } rfl rfl
    rw [ISearchState.bytes, hstring, hs, hdir, hstart, add_offset]
    exact ⟨h1, h2⟩
  have hpos : 0 < cs.length := List.length_pos_iff.mpr hne
  have hrepeating : Repeating s dir cs (searchLength - cs.length) s.offset is := by
    refine ⟨⟨o, hs⟩, hdir, ?_, ?_, ?_, hbytes.2, hbytes.1, ?_⟩
    · rw [ISearchState.flags, isearchFlags, hs, hflags]
    · rw [hstring, List.length_map]
      omega
    · rw [hstring, List.length_map]
      exact hpos
    · rw [ISearchState.Displayed, hbytes.1, hbytes.2, hdir, ISearchState.flags, hs, hflags] at hshown
      exact hshown
  obtain ⟨is', hrun', hfound⟩ := hrepeating.presses i
  rw [isearchKeys_append hrun, hrun', ISearch.foundOffset, hfound]

/-- A window on the text "aab". -/
def searchedWindow (offset : Int) : Editor := Editor.new (ebInsert (EditBuffer.new false) 0 [0x61, 0x61, 0x62]) .latin1 offset

theorem searchedWindow_ok (offset : Int) : (searchedWindow offset).buffer.toPages.Ok :=
  (ebInsert_stands (new_stands false) (Nat.zero_le _) _).ok

end Hoe
