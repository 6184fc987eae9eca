import Hoe.Search
import Hoe.Lemmas.Search

/-!
# Repeating an incremental search

Once a string is typed, each search key keeps the offset of the match and searches again from one offset further on in its
direction, as long as the array of keys has room.
-/

namespace Hoe

/-! ## A search that is repeated -/

/-- What is found when a search is repeated, each time one step behind what was found, as long as there is room for it. -/
def repeats (search : Int → Int) (step : Int) : Nat → Int → Nat → Int
  | _, x, 0 => search x
  | 0, x, _ + 1 => search x
  | room + 1, x, i + 1 => if search x < 0 then search x else repeats search step room (search x + step) i

/-- Each of the offsets is found, one after the other, and then none. -/
def VisitsAll (visit : Nat → Int) (ms : List Nat) : Prop := (∀ i, ∀ m : Nat, ms[i]? = some m → visit i = m) ∧ visit ms.length = -1

@[simp] theorem visitsAll_nil (visit : Nat → Int) : VisitsAll visit [] ↔ visit 0 = -1 := by simp [VisitsAll]

theorem visitsAll_cons (visit : Nat → Int) (m : Nat) (ms : List Nat) :
    VisitsAll visit (m :: ms) ↔ visit 0 = m ∧ VisitsAll (fun i => visit (i + 1)) ms := by
  constructor
  · rintro ⟨h, hend⟩
    exact ⟨h 0 m rfl, fun i m' hi => h (i + 1) m' (by simpa using hi), hend⟩
  · rintro ⟨h0, h, hend⟩
    refine ⟨fun i m' hi => ?_, hend⟩
    cases i with
    | zero =>
      obtain rfl : m = m' := by simpa using hi
      exact h0
    | succ i => exact h i m' (by simpa using hi)

/-- A visit that stays at an offset never comes to an end. -/
theorem not_visitsAll_const (m : Nat) (ms : List Nat) : ¬VisitsAll (fun _ => (m : Int)) ms := by
  rintro ⟨-, hend⟩
  have hend : (m : Int) = -1 := hend
  omega

theorem repeats_succ {search : Int → Int} {x : Int} {m : Nat} (hm : search x = m) (step : Int) (room : Nat) :
    (fun i => repeats search step (room + 1) x (i + 1)) = repeats search step room (m + step) := by
  funext i
  rw [repeats, hm, if_neg (by omega)]

theorem repeats_full {search : Int → Int} {x : Int} {m : Nat} (hm : search x = m) (step : Int) :
    (fun i => repeats search step 0 x (i + 1)) = fun _ => (m : Int) := by
  funext i
  rw [repeats, hm]

/-- In a list in order, what stands behind the first one is what comes after it. -/
theorem mem_behind_iff {r : Nat → Nat → Prop} {m : Nat} {ms : List Nat} (hsorted : (m :: ms).Pairwise r) (hm : ¬r m m) (o : Nat) :
    o ∈ ms ↔ r m o ∧ o ∈ m :: ms := by
  obtain ⟨hrel, -⟩ := List.pairwise_cons.mp hsorted
  constructor
  · intro ho
    exact ⟨hrel o ho, List.mem_cons_of_mem _ ho⟩
  · rintro ⟨hmo, hmem⟩
    rcases List.mem_cons.mp hmem with rfl | hmem
    · exact absurd hmo hm
    · exact hmem

section
variable {search : Int → Int} {P : Nat → Prop}

/-- Forward, every match is visited when there is room for all of them. -/
theorem visitsAll_forward_iff (hs : ∀ x : Nat, Answers .forward {o | x ≤ o ∧ P o} (search x)) {ms : List Nat}
    (hsorted : ms.Pairwise (· < ·)) {start : Nat} (hms : ∀ o, o ∈ ms ↔ start ≤ o ∧ P o) (room : Nat) :
    VisitsAll (repeats search 1 room start) ms ↔ ms.length ≤ room := by
  induction ms generalizing start room with
  | nil =>
    rcases hs start with ⟨hres, -⟩ | ⟨o, -, ho, -⟩
    · simp [repeats, hres]
    · exact absurd ((hms o).mpr ho) List.not_mem_nil
  | cons m ms ih =>
    obtain ⟨hlt, htail⟩ := List.pairwise_cons.mp hsorted
    obtain ⟨hle, hPm⟩ := (hms m).mp List.mem_cons_self
    have hfound : search start = m := by
      refine (hs start).unique (Or.inr ⟨m, rfl, ⟨hle, hPm⟩, fun o ho => ?_⟩)
      rcases List.mem_cons.mp ((hms o).mpr ho) with rfl | hmem
      · exact Nat.le_refl _
      · exact Nat.le_of_lt (hlt o hmem)
    have hrest : ∀ o, o ∈ ms ↔ m + 1 ≤ o ∧ P o := by
      intro o
      rw [mem_behind_iff hsorted (Nat.lt_irrefl m), hms]
      constructor
      · rintro ⟨hmo, -, hPo⟩
        exact ⟨hmo, hPo⟩
      · rintro ⟨hmo, hPo⟩
        exact ⟨hmo, by omega, hPo⟩
    have hstep : (m : Int) + 1 = ((m + 1 : Nat) : Int) := by omega
    rw [visitsAll_cons, List.length_cons]
    cases room with
    | zero =>
      rw [repeats_full hfound]
      exact iff_of_false (fun h => not_visitsAll_const m ms h.2) (by omega)
    | succ room =>
      rw [repeats_succ hfound, hstep, ih htail hrest]
      exact ⟨fun h => by omega, fun h => ⟨hfound, by omega⟩⟩

section
variable {last : Int} (hs : ∀ x, Answers .backward {o | (o : Int) < min x last ∧ P o} (search x))
include hs

/-- What a search backward finds lies in front of where it begins, and in front of the last place where the pattern fits. -/
theorem backward_found {x : Int} {o : Nat} (ho : search x = o) : (o : Int) < min x last ∧ P o := by
  rcases hs x with ⟨hres, -⟩ | ⟨o', hres, hmem, -⟩
  · rw [ho] at hres
    omega
  · obtain rfl : o = o' := by
      rw [ho] at hres
      omega
    exact hmem

/-- The match right in front of the one that was found is stepped over. -/
theorem not_visitsAll_adjacent {o : Nat} {ms : List Nat} (hsorted : ms.Pairwise (· > ·)) (hms : ∀ o' ∈ ms, o' ≤ o) (ho : o ∈ ms)
    (room : Nat) : ¬VisitsAll (repeats search (-1) room o) ms := by
  rintro ⟨hvisits, -⟩
  obtain ⟨o', ms, rfl⟩ := List.exists_cons_of_ne_nil (List.ne_nil_of_mem ho)
  have hle : o ≤ o' := by
    rcases List.mem_cons.mp ho with rfl | hmem
    · exact Nat.le_refl _
    · exact Nat.le_of_lt ((List.pairwise_cons.mp hsorted).1 o hmem)
  have hfirst : search o = o' := by
    have h0 := hvisits 0 o' rfl
    rwa [repeats] at h0
  have := (backward_found hs hfirst).1
  have := hms o' List.mem_cons_self
  omega

/-- Backward, a search steps over the last place where the pattern fits and over the place right in front of what was found. -/
theorem visitsAll_backward_iff (hlast : ∀ o, P o → (o : Int) ≤ last) {ms : List Nat} (hsorted : ms.Pairwise (· > ·)) {x : Int}
    (hms : ∀ o : Nat, o ∈ ms ↔ (o : Int) < x ∧ P o) (room : Nat) :
    VisitsAll (repeats search (-1) room x) ms ↔
      ms.length ≤ room ∧ (∀ o : Nat, (o : Int) = last → last < x → ¬P o) ∧ ∀ o : Nat, (o : Int) + 1 < x → P o → ¬P (o + 1) := by
  induction ms generalizing x room with
  | nil =>
    have hnone : ∀ o : Nat, (o : Int) < x → ¬P o := fun o ho hPo => List.not_mem_nil ((hms o).mpr ⟨ho, hPo⟩)
    rcases hs x with ⟨hres, -⟩ | ⟨o, -, ⟨ho, hPo⟩, -⟩
    · rw [visitsAll_nil, repeats, hres]
      refine iff_of_true rfl ⟨Nat.zero_le _, fun o ho hx => hnone o (by omega), fun o ho hPo => absurd hPo (hnone o (by omega))⟩
    · exact absurd hPo (hnone o (by omega))
  | cons m ms ih =>
    obtain ⟨hlt, htail⟩ := List.pairwise_cons.mp hsorted
    obtain ⟨hmx, hPm⟩ := (hms m).mp List.mem_cons_self
    have hbelow : ∀ o, o ∈ ms ↔ o < m ∧ P o := by
      intro o
      rw [mem_behind_iff hsorted (Nat.lt_irrefl m), hms]
      constructor
      · rintro ⟨hom, -, hPo⟩
        exact ⟨hom, hPo⟩
      · rintro ⟨hom, hPo⟩
        exact ⟨hom, by omega, hPo⟩
    have hgreatest : ∀ o : Nat, (o : Int) < x → P o → o ≤ m := by
      intro o ho hPo
      rcases List.mem_cons.mp ((hms o).mpr ⟨ho, hPo⟩) with rfl | hmem
      · exact Nat.le_refl _
      · exact Nat.le_of_lt (hlt o hmem)
    have hml := hlast m hPm
    rw [visitsAll_cons, List.length_cons]
    by_cases hend : (m : Int) = last ∧ last < x
    · -- the match at the end is stepped over
      refine iff_of_false ?_ fun h => h.2.1 m hend.1 hend.2 hPm
      rintro ⟨hfound, -⟩
      rw [repeats] at hfound
      have := (backward_found hs hfound).1
      omega
    · have hfound : search x = m :=
        (hs x).unique (Or.inr ⟨m, rfl, ⟨by omega, hPm⟩, fun o ho => hgreatest o (by have := ho.1; omega) ho.2⟩)
      have hfirst : ∀ o : Nat, (o : Int) = last → last < x → ¬P o := by
        intro o ho hx hPo
        have := hgreatest o (by omega) hPo
        omega
      cases room with
      | zero =>
        rw [repeats_full hfound]
        exact iff_of_false (fun h => not_visitsAll_const m ms h.2) (by omega)
      | succ room =>
        rw [repeats_succ hfound]
        by_cases hadj : ∃ o, m = o + 1 ∧ P o
        · obtain ⟨o, rfl, hPo⟩ := hadj
          have hmem : o ∈ ms := (hbelow o).mpr ⟨Nat.lt_succ_self o, hPo⟩
          have hle : ∀ o' ∈ ms, o' ≤ o := fun o' ho' => Nat.le_of_lt_succ ((hbelow o').mp ho').1
          have hstep : ((o + 1 : Nat) : Int) + -1 = o := by omega
          rw [hstep]
          refine iff_of_false (fun h => not_visitsAll_adjacent hs htail hle hmem room h.2) ?_
          exact fun h => h.2.2 o (by omega) hPo hPm
        · have hfar : ∀ o, P o → o + 1 ≠ m := fun o hPo ho => hadj ⟨o, ho.symm, hPo⟩
          have hrest : ∀ o : Nat, o ∈ ms ↔ (o : Int) < m + -1 ∧ P o := by
            intro o
            rw [hbelow]
            constructor
            · rintro ⟨hom, hPo⟩
              have := hfar o hPo
              exact ⟨by omega, hPo⟩
            · rintro ⟨hom, hPo⟩
              exact ⟨by omega, hPo⟩
          rw [ih htail hrest]
          constructor
          · rintro ⟨-, hlen, -, hpair⟩
            refine ⟨by omega, hfirst, fun o ho hPo hPo' => ?_⟩
            have h1 := hgreatest (o + 1) (by omega) hPo'
            have h2 := hfar o hPo
            have h3 := hfar (o + 1) hPo'
            exact hpair o (by omega) hPo hPo'
          · rintro ⟨hlen, -, hpair⟩
            exact ⟨hfound, by omega, fun o ho hx => by omega, fun o ho hPo => hpair o (by omega) hPo⟩

end

end

/-! ## The search bytes -/

theorem length_unicodeToCharset (c : Nat) (charset : Charset) :
    0 < (unicodeToCharset c charset).length ∧ (unicodeToCharset c charset).length ≤ maxCharBytes := by
  cases charset <;> simp only [unicodeToCharset, Charset.encode, utf8Encode, maxCharBytes]
  · split <;> simp
  · split <;> simp
  · repeat' split
    all_goals simp

/-- The bytes that typed keys stand for. -/
def typedBytes (s : Editor) (cs : List Nat) : List Byte :=
  ((cs.map .key).foldl (SearchBytes.add s .forward) { buf := [], hexNibble := none, searchOffset := 0 }).buf

theorem add_offset (s : Editor) (o : Int) (dir : Direction) : SearchBytes.add { s with offset := o } dir = SearchBytes.add s dir := by
  funext sb e
  cases e <;> rfl

/-- A key leaves the offset where the search begins alone, and looks at the bytes only. -/
theorem add_key (s : Editor) (dir dir' : Direction) {sb sb' : SearchBytes} (hbuf : sb.buf = sb'.buf)
    (hnibble : sb.hexNibble = sb'.hexNibble) (v : Nat) :
    (sb.add s dir (.key v)).searchOffset = sb.searchOffset ∧ (sb.add s dir (.key v)).buf = (sb'.add s dir' (.key v)).buf ∧
      (sb.add s dir (.key v)).hexNibble = (sb'.add s dir' (.key v)).hexNibble := by
  simp only [SearchBytes.add, hbuf, hnibble]
  split
  · split
    · split
      · exact ⟨rfl, rfl, rfl⟩
      · exact ⟨rfl, rfl, rfl⟩
      · exact ⟨rfl, hbuf, hnibble⟩
    · exact ⟨rfl, rfl, rfl⟩
  · exact ⟨rfl, hbuf, hnibble⟩

theorem foldl_add_keys (s : Editor) (dir dir' : Direction) (cs : List Nat) (sb sb' : SearchBytes) (hbuf : sb.buf = sb'.buf)
    (hnibble : sb.hexNibble = sb'.hexNibble) :
    ((cs.map SearchEntry.key).foldl (SearchBytes.add s dir) sb).searchOffset = sb.searchOffset ∧
      ((cs.map SearchEntry.key).foldl (SearchBytes.add s dir) sb).buf =
        ((cs.map SearchEntry.key).foldl (SearchBytes.add s dir') sb').buf := by
  induction cs generalizing sb sb' with
  | nil => exact ⟨rfl, hbuf⟩
  | cons c cs ih =>
    obtain ⟨h1, h2, h3⟩ := add_key s dir dir' hbuf hnibble c
    obtain ⟨i1, i2⟩ := ih _ _ h2 h3
    exact ⟨i1.trans h1, i2⟩

/-- An element adds few bytes, and none once there is no room. -/
theorem add_length (s : Editor) (dir : Direction) (sb : SearchBytes) (e : SearchEntry) :
    sb.buf.length ≤ (sb.add s dir e).buf.length ∧
      (sb.buf.length < 2 * searchLength → (sb.add s dir e).buf.length < 2 * searchLength) := by
  unfold SearchBytes.add searchLength
  cases e with
  | found offset => exact ⟨Nat.le_refl _, id⟩
  | key v =>
    obtain ⟨-, h6⟩ := length_unicodeToCharset v s.charset
    unfold maxCharBytes at h6
    simp only
    split
    · split
      · split
        · exact ⟨Nat.le_refl _, id⟩
        · simp only [List.length_append, List.length_singleton]
          omega
        · exact ⟨Nat.le_refl _, id⟩
      · simp only [List.length_append]
        omega
    · exact ⟨Nat.le_refl _, id⟩

theorem foldl_add_length (s : Editor) (dir : Direction) (es : List SearchEntry) (sb : SearchBytes) :
    sb.buf.length ≤ (es.foldl (SearchBytes.add s dir) sb).buf.length ∧
      (sb.buf.length < 2 * searchLength → (es.foldl (SearchBytes.add s dir) sb).buf.length < 2 * searchLength) := by
  induction es generalizing sb with
  | nil => exact ⟨Nat.le_refl _, id⟩
  | cons e es ih =>
    obtain ⟨h1, h2⟩ := add_length s dir sb e
    obtain ⟨i1, i2⟩ := ih (sb.add s dir e)
    exact ⟨h1.trans i1, fun h => i2 (h2 h)⟩

/-- What is searched always fits. -/
theorem length_typedBytes_lt (s : Editor) (cs : List Nat) : (typedBytes s cs).length < searchBufSize := by
  have := (foldl_add_length s .forward (cs.map .key) { buf := [], hexNibble := none, searchOffset := 0 }).2 (by decide)
  unfold typedBytes searchLength searchBufSize at *
  omega

/-- Outside of the hexadecimal mode there is something to search for as soon as a key is typed. -/
theorem typedBytes_ne_nil {s : Editor} (hhex : s.hexMode = false) {cs : List Nat} (hcs : cs ≠ []) : typedBytes s cs ≠ [] := by
  obtain ⟨c, cs, rfl⟩ := List.exists_cons_of_ne_nil hcs
  have hfirst : SearchBytes.add s .forward { buf := [], hexNibble := none, searchOffset := 0 } (.key c) =
      { buf := unicodeToCharset c s.charset, hexNibble := none, searchOffset := 0 } := by
    simp [SearchBytes.add, hhex, searchLength]
  have hle := (foldl_add_length s .forward (cs.map .key)
    { buf := unicodeToCharset c s.charset, hexNibble := none, searchOffset := 0 }).1
  have hpos := (length_unicodeToCharset c s.charset).1
  intro hnil
  rw [typedBytes, List.map_cons, List.foldl_cons, hfirst] at hnil
  rw [hnil, List.length_nil] at hle
  exact absurd (Nat.lt_of_lt_of_le hpos hle) (Nat.lt_irrefl 0)

/-! ## The keys -/

/-- Nothing interrupts a search: no keys are waiting. -/
def noPending : Int → Bool := fun _ => false

/-- The key is a character of the string. -/
def Typed (ch : Nat) : Prop := ch ≠ keyBackspace ∧ keySpecial ch = false

instance (ch : Nat) : Decidable (Typed ch) := by
  unfold Typed
  infer_instance

/-- The key that repeats a search. -/
def Direction.searchKey : Direction → Nat
  | .forward => keyCtrl 's'.toNat
  | .backward => keyCtrl 'r'.toNat

namespace ISearchState

/-- The window shows what was found for the string. -/
def Displayed (is : ISearchState) : Prop :=
  is.foundOffset = ebSearch is.s.buffer.toPages is.bytes.searchOffset is.dir is.bytes.buf is.flags noPending

theorem bytes_offset (is : ISearchState) (o f : Int) :
    ({ is with s := { is.s with offset := o }, foundOffset := f } : ISearchState).bytes = is.bytes := by
  unfold bytes
  rw [add_offset]

end ISearchState

theorem isearchDisplay_spec (is : ISearchState) : (isearchDisplay noPending is).Displayed ∧
    ∃ o f, isearchDisplay noPending is = { is with s := { is.s with offset := o }, foundOffset := f } := by
  by_cases hzero : is.bytes.buf.length = 0
  · have hdisplay : isearchDisplay noPending is = { is with s := { is.s with offset := is.startOffset }, foundOffset := -1 } :=
      if_pos hzero
    rw [hdisplay]
    refine ⟨?_, _, _, rfl⟩
    rw [ISearchState.Displayed, ISearchState.bytes_offset, List.eq_nil_of_length_eq_zero hzero, ebSearch_nil]
  · obtain ⟨found, hfound⟩ : ∃ found, found = ebSearch is.s.buffer.toPages is.bytes.searchOffset is.dir is.bytes.buf is.flags
        noPending := ⟨_, rfl⟩
    obtain ⟨o, hdisplay⟩ : ∃ o, isearchDisplay noPending is =
        { is with s := { is.s with offset := o }, foundOffset := found } := by
      rw [hfound]
      exact ⟨_, if_neg hzero⟩
    rw [hdisplay]
    refine ⟨?_, _, _, rfl⟩
    rw [ISearchState.Displayed, ISearchState.bytes_offset]
    exact hfound

/-- A character is added to the string. -/
theorem isearchKey_typed {is : ISearchState} {ch : Nat} (hch : Typed ch) (hroom : is.searchString.length < searchLength) :
    isearchKey noPending is ch =
      .searching (isearchDisplay noPending { is with searchString := is.searchString ++ [.key ch] }) := by
  obtain ⟨hback, hspecial⟩ := hch
  have hctrl : ∀ c, c < 32 → ch ≠ c := by
    rintro c hc rfl
    simp [keySpecial, hc] at hspecial
  rw [isearchKey, if_neg hback, if_neg (hctrl _ (by decide)), if_neg (hctrl _ (by decide)), if_neg (hctrl _ (by decide)),
    if_neg (hctrl _ (by decide)), if_neg (hctrl _ (by decide)), hspecial, if_neg (by decide), if_pos hroom]

theorem isearchKey_searchKey (is : ISearchState) :
    isearchKey noPending is is.dir.searchKey = .searching (isearchDisplay noPending (is.addpos is.dir)) := by
  cases hdir : is.dir
  · rfl
  · rfl

theorem isearchKeys_append {is is' : ISearchState} {chs : List Nat} (h : isearchKeys noPending is chs = .searching is')
    (chs' : List Nat) : isearchKeys noPending is (chs ++ chs') = isearchKeys noPending is' chs' := by
  induction chs generalizing is with
  | nil =>
    obtain rfl : is = is' := ISearch.searching.inj h
    rfl
  | cons ch chs ih =>
    rw [List.cons_append, isearchKeys]
    rw [isearchKeys] at h
    split at h
    · exact ih h
    · cases h

/-! ## The run -/

/-- The flags an incremental search begins with. -/
def isearchFlags (s : Editor) : SearchFlags :=
  if s.hexMode then .none else { ignoreCase := false, smartCase := true, word := false }

/-- The search that is repeated. -/
def searchFor (s : Editor) (dir : Direction) (cs : List Nat) (x : Int) : Int :=
  ebSearch s.buffer.toPages x dir (typedBytes s cs) (isearchFlags s) noPending

/-- The state while the keys `cs` are searched for in the window: it has found what comes first from `x` on, and there is room for
so many offsets. -/
structure Repeating (s : Editor) (dir : Direction) (cs : List Nat) (room : Nat) (x : Int) (is : ISearchState) : Prop where
  window : ∃ o, is.s = { s with offset := o }
  direction : is.dir = dir
  flags : is.flags = isearchFlags s
  size : is.searchString.length + room = searchLength
  string : 0 < is.searchString.length
  buf : is.bytes.buf = typedBytes s cs
  offset : is.bytes.searchOffset = x
  found : is.foundOffset = searchFor s dir cs x

/-- The display keeps the string and shows what is found for it. -/
theorem Repeating.display {s : Editor} {dir : Direction} {cs : List Nat} {room : Nat} {x : Int} {is : ISearchState}
    (hwindow : ∃ o, is.s = { s with offset := o }) (hdir : is.dir = dir) (hflags : is.flags = isearchFlags s)
    (hroom : is.searchString.length + room = searchLength) (hstring : 0 < is.searchString.length)
    (hbuf : is.bytes.buf = typedBytes s cs) (hoffset : is.bytes.searchOffset = x) :
    Repeating s dir cs room x (isearchDisplay noPending is) := by
  obtain ⟨hfound, o, f, heq⟩ := isearchDisplay_spec is
  rw [heq] at hfound ⊢
  obtain ⟨o', hs⟩ := hwindow
  refine ⟨⟨o, by rw [hs]⟩, hdir, hflags, hroom, hstring, ?_, ?_, ?_⟩
  · rw [ISearchState.bytes_offset, hbuf]
  · rw [ISearchState.bytes_offset, hoffset]
  · rw [ISearchState.Displayed, ISearchState.bytes_offset, hbuf, hoffset] at hfound
    simp only [hs] at hfound
    rw [hfound, hdir, searchFor, ← hflags]
    simp only [ISearchState.flags, hs]

/-- The search key searches on from the match when there is one and its offset can be kept, and from the same place otherwise. -/
theorem Repeating.press {s : Editor} {dir : Direction} {cs : List Nat} {room : Nat} {x : Int} {is : ISearchState}
    (h : Repeating s dir cs room x is) : ∃ is', isearchKey noPending is dir.searchKey = .searching is' ∧
      ((searchFor s dir cs x < 0 ∨ room = 0) → Repeating s dir cs room x is') ∧
      ∀ room', room = room' + 1 → 0 ≤ searchFor s dir cs x → Repeating s dir cs room' (searchFor s dir cs x + dir.step) is' := by
  have hkey := isearchKey_searchKey is
  rw [h.direction] at hkey
  refine ⟨_, hkey, ?_, ?_⟩
  · intro hstay
    have hroom := h.size
    have hfound := h.found
    have hsame : is.addpos dir = { is with dir := dir } := by
      rw [ISearchState.addpos, if_neg (Nat.pos_iff_ne_zero.mp h.string), if_neg]
      rintro ⟨hlt, hpos⟩
      omega
    have hdir : ({ is with dir := dir } : ISearchState) = is := by rw [← h.direction]
    rw [hsame, hdir]
    exact .display h.window h.direction h.flags h.size h.string h.buf h.offset
  · intro room' hroom' hpos
    have hroom := h.size
    have hadd : is.addpos dir = { is with dir := dir, searchString := is.searchString ++ [.found is.foundOffset] } := by
      rw [ISearchState.addpos, if_neg (Nat.pos_iff_ne_zero.mp h.string), if_pos ⟨by omega, by rw [h.found]; exact hpos⟩]
    have hbytes : (is.addpos dir).bytes = { is.bytes with searchOffset := is.foundOffset + dir.step } := by
      rw [hadd]
      unfold ISearchState.bytes
      simp only [List.foldl_append, h.direction]
      rfl
    refine .display ?_ ?_ ?_ ?_ ?_ ?_ ?_
    · rw [hadd]
      exact h.window
    · rw [hadd]
    · rw [hadd]
      exact h.flags
    · rw [hadd]
      simp only [List.length_append, List.length_singleton]
      omega
    · rw [hadd]
      simp
    · rw [hbytes]
      exact h.buf
    · rw [hbytes, h.found]

theorem repeats_of_neg {search : Int → Int} {x : Int} (h : search x < 0) (step : Int) (room i : Nat) :
    repeats search step room x i = search x := by
  cases i with
  | zero => cases room <;> rfl
  | succ i =>
    cases room with
    | zero => rfl
    | succ room => rw [repeats, if_pos h]

theorem repeats_zero (search : Int → Int) (step x : Int) (i : Nat) : repeats search step 0 x i = search x := by
  cases i <;> rfl

/-- The search key again and again. -/
theorem Repeating.presses {s : Editor} {dir : Direction} {cs : List Nat} {room : Nat} {x : Int} {is : ISearchState}
    (h : Repeating s dir cs room x is) (i : Nat) : ∃ is', isearchKeys noPending is (List.replicate i dir.searchKey) = .searching is' ∧
      is'.foundOffset = repeats (searchFor s dir cs) dir.step room x i := by
  induction i generalizing room x is with
  | zero => exact ⟨is, rfl, by rw [h.found]; cases room <;> rfl⟩
  | succ i ih =>
    obtain ⟨is₁, hkey, hstay, hgo⟩ := h.press
    have hnext : ∀ is₂, isearchKeys noPending is₁ (List.replicate i dir.searchKey) = .searching is₂ →
        isearchKeys noPending is (List.replicate (i + 1) dir.searchKey) = .searching is₂ := by
      intro is₂ h₂
      rw [List.replicate_succ, isearchKeys, hkey]
      exact h₂
    by_cases hfail : searchFor s dir cs x < 0
    · obtain ⟨is₂, h₂, hfound⟩ := ih (hstay (Or.inl hfail))
      refine ⟨is₂, hnext is₂ h₂, ?_⟩
      rw [hfound, repeats_of_neg hfail, repeats_of_neg hfail]
    · cases room with
      | zero =>
        obtain ⟨is₂, h₂, hfound⟩ := ih (hstay (Or.inr rfl))
        exact ⟨is₂, hnext is₂ h₂, by rw [hfound, repeats_zero, repeats_zero]⟩
      | succ room =>
        obtain ⟨is₂, h₂, hfound⟩ := ih (hgo room rfl (Int.not_lt.mp hfail))
        exact ⟨is₂, hnext is₂ h₂, by rw [hfound, repeats, if_neg hfail]⟩

/-- Typing the string. -/
theorem isearchKeys_typed (is : ISearchState) {cs : List Nat} (hcs : ∀ c ∈ cs, Typed c)
    (hroom : is.searchString.length + cs.length ≤ searchLength) :
    ∃ is', isearchKeys noPending is cs = .searching is' ∧ is'.searchString = is.searchString ++ cs.map .key ∧
      (∃ o, is'.s = { is.s with offset := o }) ∧ is'.dir = is.dir ∧ is'.searchFlags = is.searchFlags ∧
      is'.startOffset = is.startOffset ∧ (is.Displayed → is'.Displayed) := by
  induction cs generalizing is with
  | nil => exact ⟨is, rfl, by simp, ⟨is.s.offset, rfl⟩, rfl, rfl, rfl, id⟩
  | cons c cs ih =>
    rw [List.length_cons] at hroom
    obtain ⟨hc, hcs⟩ := List.forall_mem_cons.mp hcs
    obtain ⟨hdisplayed, o, f, heq⟩ := isearchDisplay_spec { is with searchString := is.searchString ++ [.key c] }
    obtain ⟨is', hrun, hstring, ⟨o', hs⟩, hdir, hflags, hstart, hshown⟩ :=
      ih (isearchDisplay noPending { is with searchString := is.searchString ++ [.key c] }) hcs (by
        rw [heq]
        simp only [List.length_append, List.length_singleton]
        omega)
    refine ⟨is', ?_, ?_, ⟨o', ?_⟩, ?_, ?_, ?_, fun _ => hshown hdisplayed⟩
    · rw [isearchKeys, isearchKey_typed hc (by omega)]
      exact hrun
    · rw [hstring, heq]
      simp
    · rw [hs, heq]
    · rw [hdir, heq]
    · rw [hflags, heq]
    · rw [hstart, heq]

end Hoe
