import Hoe.Lemmas.CountsKept
import Hoe.Lemmas.Lines

/-!
# When the counts of a page are up to date

A page that changes loses its flags, so nothing but `eb_set_charset` makes a count stale: it changes the charset and leaves the
pages as they are. The counts survive where the bytes of the page are counted alike under both charsets.
-/

namespace Hoe

/-- A buffer with the charset it is read under. -/
structure TextBuffer where
  buffer : EditBuffer
  charset : Charset

/-- What is done to a buffer: an edit, a load of a file, `eb_set_charset`, and the four functions that fill counts in. -/
inductive Access where
  | edit (e : Edit)
  | load (ino : Nat) (file : List Byte)
  | setCharset (charset : Charset)
  | getPos (offset : Nat)
  | gotoPos (junk : Nat → List Byte) (line col : Nat)
  | gotoChar (pos : Int)
  | getCharOffset (offset : Nat)

namespace TextBuffer

/-- The pages are replaced. -/
def withPages (s : TextBuffer) (t : Pages) : TextBuffer := { s with buffer := { s.buffer with toPages := t } }

/-- One access. -/
def run (s : TextBuffer) : Access → TextBuffer
  | .edit e => { s with buffer := e.run s.buffer }
  | .load ino file => { s with buffer := reloadBuffer s.buffer ino file }
  | .setCharset charset => { s with charset := charset }
  | .getPos offset => s.withPages (ebGetPosCached s.buffer.toPages s.charset offset).1
  | .gotoPos junk line col => s.withPages (ebGotoPosCached s.buffer.toPages s.charset junk line col).1
  | .gotoChar pos => s.withPages (ebGotoCharCached s.buffer.toPages s.charset pos).1
  | .getCharOffset offset => s.withPages (ebGetCharOffsetCached s.buffer.toPages s.charset offset).1

/-- A run of accesses. -/
def runs (s : TextBuffer) : List Access → TextBuffer
  | [] => s
  | a :: as => (s.run a).runs as

/-- Every flagged count is what `get_pos` or `get_chars` computes under the charset of the buffer. -/
def Counted (s : TextBuffer) : Prop := s.buffer.toPages.Counted s.charset

end TextBuffer

/-- The columns of the block are the same under UTF-8 and under the other charsets: on its last line no byte but the last begins
a character of more than one byte. -/
def SameColumns (buf : List Byte) : Prop := ∀ c ∈ (lastLine buf).dropLast, utf8Length c = 1

/-- The characters of the block are as many under UTF-8 as under the other charsets: no byte goes on with a character. -/
def SameChars (buf : List Byte) : Prop := ∀ c ∈ buf, isTail c = false

/-- The counts that are flagged in the page survive the change of the charset. -/
def CountedAlike (charset charset' : Charset) (p : Page) : Prop :=
  (charset = .utf8 ↔ charset' = .utf8) ∨
    (p.validPos = true → SameColumns p.data) ∧ (p.validChar = true → SameChars p.data)

/-- A change of the charset finds no page whose flagged counts it changes. -/
def Access.KeepsCounts (s : TextBuffer) : Access → Prop
  | .setCharset charset => ∀ p ∈ s.buffer.pageTable, CountedAlike s.charset charset p
  | _ => True

/-- Every access of the run meets the condition where it is made. -/
def AllKeepCounts (s : TextBuffer) : List Access → Prop
  | [] => True
  | a :: as => a.KeepsCounts s ∧ AllKeepCounts (s.run a) as

/-! ## What counts depend on the charset -/

theorem countChars_le (charset : Charset) (n : Nat) (l : List Nat) : countChars charset n l ≤ l.length := by
  induction n generalizing l with
  | zero => cases l <;> simp [countChars]
  | succ n ih =>
    cases l with
    | nil => simp [countChars]
    | cons c rest =>
      rw [countChars_cons, List.length_cons]
      have := ih (rest.drop (charset.width c - 1))
      rw [List.length_drop] at this
      omega

theorem countChars_bytes {charset : Charset} (hu : charset ≠ .utf8) {n : Nat} {l : List Nat} (hn : l.length ≤ n) :
    countChars charset n l = l.length := by
  have hlead : ∀ c ∈ l, charset.lead c = true := fun c _ => by simp [Charset.lead, hu]
  rw [countChars_piece (whole_bytes hu l).1 hn, Nat.zero_min, Nat.zero_add, List.countP_eq_length.mpr hlead]

/-- UTF-8 counts every byte exactly when none but the last begins a character of more bytes. -/
theorem countChars_utf8_iff {n : Nat} {l : List Nat} (hn : l.length ≤ n) :
    countChars .utf8 n l = l.length ↔ ∀ c ∈ l.dropLast, utf8Length c = 1 := by
  induction n generalizing l with
  | zero => rw [List.eq_nil_of_length_eq_zero (by omega : l.length = 0)]; simp [countChars]
  | succ n ih =>
    cases l with
    | nil => simp [countChars]
    | cons c rest =>
      rw [List.length_cons] at hn
      rw [countChars_cons, Charset.width, if_pos rfl, List.length_cons]
      cases hr : rest with
      | nil => cases n <;> simp [countChars]
      | cons d rest' =>
        rw [← hr, List.dropLast_cons_of_ne_nil (by rw [hr]; simp), List.forall_mem_cons]
        by_cases hc : utf8Length c = 1
        · rw [hc, Nat.sub_self, List.drop_zero, Nat.add_right_cancel_iff, ih (by omega)]
          exact ⟨fun h => ⟨rfl, h⟩, fun h => h.2⟩
        · have hpos := utf8Length_pos c
          have hle := countChars_le .utf8 n (rest.drop (utf8Length c - 1))
          have hlen : 0 < rest.length := by rw [hr]; simp
          rw [List.length_drop] at hle
          exact ⟨fun h => by omega, fun h => absurd h.1 hc⟩

theorem getPos_eq_iff (charset charset' : Charset) (buf : List Byte) :
    getPos charset buf = getPos charset' buf ↔ (charset = .utf8 ↔ charset' = .utf8) ∨ SameColumns buf := by
  have hutf : ∀ c : Charset, c ≠ .utf8 → (getPos .utf8 buf = getPos c buf ↔ SameColumns buf) := by
    intro c hc
    unfold getPos SameColumns
    rw [Prod.mk.injEq, countChars_bytes hc (Nat.le_refl _), countChars_utf8_iff (Nat.le_refl _)]
    exact ⟨fun h => h.2, fun h => ⟨rfl, h⟩⟩
  by_cases h : charset = .utf8
  · by_cases h' : charset' = .utf8
    · simp [h, h']
    · rw [h, hutf _ h']
      simp [h']
  · by_cases h' : charset' = .utf8
    · rw [h', eq_comm, hutf _ h]
      simp [h]
    · simp only [getPos, countChars_bytes h (Nat.le_refl _), countChars_bytes h' (Nat.le_refl _)]
      simp [h, h']

theorem getChars_eq_iff (charset charset' : Charset) (buf : List Byte) :
    getChars charset buf = getChars charset' buf ↔ (charset = .utf8 ↔ charset' = .utf8) ∨ SameChars buf := by
  have hutf : ∀ c : Charset, c ≠ .utf8 → (getChars .utf8 buf = getChars c buf ↔ SameChars buf) := by
    intro c hc
    unfold getChars SameChars
    rw [if_pos rfl, if_neg hc, List.countP_eq_length]
    simp
  by_cases h : charset = .utf8
  · by_cases h' : charset' = .utf8
    · simp [h, h']
    · rw [h, hutf _ h']
      simp [h']
  · by_cases h' : charset' = .utf8
    · rw [h', eq_comm, hutf _ h]
      simp [h]
    · simp [getChars, h, h']

/-- A counted page stays counted under another charset exactly when its bytes are counted alike. -/
theorem counted_iff_alike {charset charset' : Charset} {p : Page} (h : p.Counted charset) :
    p.Counted charset' ↔ CountedAlike charset charset' p := by
  constructor
  · intro h'
    by_cases halike : charset = .utf8 ↔ charset' = .utf8
    · exact Or.inl halike
    · refine Or.inr ⟨fun hv => ?_, fun hv => ?_⟩
      · obtain ⟨h1, h2⟩ := h.pos hv
        obtain ⟨h3, h4⟩ := h'.pos hv
        have heq : getPos charset p.data = getPos charset' p.data := Prod.ext (h1.symm.trans h3) (h2.symm.trans h4)
        exact ((getPos_eq_iff _ _ _).mp heq).resolve_left halike
      · have heq := (h.char hv).symm.trans (h'.char hv)
        exact ((getChars_eq_iff _ _ _).mp heq).resolve_left halike
  · intro halike
    constructor
    · intro hv
      have heq := (getPos_eq_iff charset charset' p.data).mpr (halike.imp id (fun h => h.1 hv))
      rw [← heq]
      exact h.pos hv
    · intro hv
      have heq := (getChars_eq_iff charset charset' p.data).mpr (halike.imp id (fun h => h.2 hv))
      rw [← heq]
      exact h.char hv

/-! ## Runs -/

theorem ebRead_table (t : Pages) (offset size : Nat) : (ebRead t offset size).1.pageTable = t.pageTable := by
  unfold ebRead
  simp only
  split
  · rfl
  · exact findPage_table _ _

theorem ebNextc_table (t : Pages) (charset : Charset) (stack : List Byte) (offset : Int) :
    (ebNextc t charset stack offset).1.pageTable = t.pageTable := by
  unfold ebNextc
  split
  · rfl
  · simp only
    split
    · exact ebRead_table _ _ _
    · exact (ebRead_table _ _ _).trans (ebRead_table _ _ _)

theorem gotoColLoop_table (charset : Charset) (junk : Nat → List Byte) (n : Nat) (t : Pages) (offset : Int) :
    (gotoColLoop charset junk n t offset).1.pageTable = t.pageTable := by
  induction n generalizing t offset with
  | zero => rfl
  | succ n ih =>
    rw [gotoColLoop]
    simp only
    split
    · exact ebNextc_table _ _ _ _
    · exact (ih _ _).trans (ebNextc_table _ _ _ _)

/-- One access that meets the condition. -/
theorem TextBuffer.Counted.run {s : TextBuffer} (h : s.Counted) {a : Access} (ha : a.KeepsCounts s) : (s.run a).Counted := by
  cases a with
  | edit e => exact (derived_edit s.buffer e).counted h
  | load ino file => exact (derived_reloadBuffer s.buffer ino file).counted h
  | setCharset charset => exact fun p hp => (counted_iff_alike (h p hp)).mpr (ha p hp)
  | getPos offset => exact (getPosLoop_spec h offset 0 0).2.2
  | gotoPos junk line col =>
    have hloop := (gotoPosLoop_spec line col h 0 0 0).2.2
    intro p hp
    refine hloop p ?_
    simp only [TextBuffer.run, TextBuffer.withPages, ebGotoPosCached] at hp
    split at hp
    · exact hp
    · rwa [gotoColLoop_table] at hp
  | gotoChar pos =>
    intro p hp
    simp only [TextBuffer.run, TextBuffer.withPages, ebGotoCharCached] at hp ⊢
    split at hp
    · rename_i hu
      rw [hu]
      exact (gotoCharLoop_spec (fun q (hq : q ∈ s.buffer.pageTable) => hu ▸ h q hq) pos).2.2 p hp
    · exact h p hp
  | getCharOffset offset =>
    intro p hp
    simp only [TextBuffer.run, TextBuffer.withPages, ebGetCharOffsetCached] at hp ⊢
    split at hp
    · rename_i hu
      rw [hu]
      exact (charOffsetLoop_spec (fun q (hq : q ∈ s.buffer.pageTable) => hu ▸ h q hq) offset).2.2 p hp
    · exact h p hp

/-- In a run whose changes of the charset find no page that they count differently, no flagged count is ever stale. -/
theorem counts_never_stale {s : TextBuffer} (h : s.Counted) {as : List Access} (has : AllKeepCounts s as) :
    ∀ front back, as = front ++ back → (s.runs front).Counted := by
  intro front
  induction front generalizing s as with
  | nil => exact fun _ _ => h
  | cons a front ih =>
    rintro back rfl
    exact ih (h.run has.1) has.2 back rfl

/-- An empty buffer in the charset it begins with. -/
def TextBuffer.new : TextBuffer := ⟨EditBuffer.new true, .latin1⟩

theorem TextBuffer.new_counted : TextBuffer.new.Counted := fun p hp => by cases hp

/-- A line is counted, the charset is changed, and a character of two bytes is inserted and counted. -/
theorem counts_never_stale_run : (TextBuffer.new.runs
    [.edit (.insert 0 [0x61, 0x62]), .getPos 2, .setCharset .utf8, .edit (.insert 2 [0xc3, 0xa9]), .getPos 4]).Counted := by
  refine counts_never_stale TextBuffer.new_counted ?_ _ [] (List.append_nil _).symm
  refine ⟨trivial, trivial, ?_, trivial, trivial, trivial⟩
  intro p hp
  have hdata : ∀ q ∈ ((TextBuffer.new.run (.edit (.insert 0 [0x61, 0x62]))).run (.getPos 2)).buffer.pageTable,
      SameColumns q.data ∧ q.validChar = false := by
    unfold SameColumns
    decide
  exact Or.inr ⟨fun _ => (hdata p hp).1, fun hv => by rw [(hdata p hp).2] at hv; cases hv⟩

/-- A character of two bytes is counted as two, and the charset becomes UTF-8: the page says two columns still. -/
theorem not_counts_never_stale_charset : ¬∀ as : List Access, (TextBuffer.new.runs as).Counted := by
  intro h
  have hcol := ((h [.edit (.insert 0 [0xc3, 0xa9]), .getPos 2, .setCharset .utf8]) _ List.mem_cons_self).pos (by decide)
  revert hcol
  decide

end Hoe
