import Hoe.Lemmas.History
import Hoe.Characters
import Hoe.Lemmas.Characters

/-!
# The counts that pages keep

Where every flag of a page tells the truth, the functions that keep counts return what the ones that count anew return, and
leave pages whose flags tell the truth. Every page that a change leaves behind is one of the pages of before, or has no flag set:
what changes the bytes of a page goes through `update_page`, and a page that is added starts without flags.
-/

namespace Hoe

open Splice Block

/-! ## Counts that are up to date -/

/-- The counts of the page that are flagged are those of its bytes under the charset. -/
structure Page.Counted (charset : Charset) (p : Page) : Prop where
  pos : p.validPos = true → p.nbLines = (getPos charset p.data).1 ∧ p.col = (getPos charset p.data).2
  char : p.validChar = true → p.nbChars = getChars charset p.data

/-- Every flagged count is up to date. -/
def Pages.Counted (charset : Charset) (t : Pages) : Prop := ∀ p ∈ t.pageTable, p.Counted charset

/-- The pages differ in their counts alone. -/
structure Page.SameBytes (p q : Page) : Prop where
  size : q.size = p.size
  data : q.data = p.data
  ref : q.ref = p.ref
  readOnly : q.readOnly = p.readOnly

theorem Page.SameBytes.refl (p : Page) : p.SameBytes p := ⟨rfl, rfl, rfl, rfl⟩

/-- The lines and the column that a page is counted to have are those of its bytes, whether or not they were flagged before. -/
theorem countPos_spec {charset : Charset} {p : Page} (h : p.Counted charset) :
    (countPos charset p).Counted charset ∧ p.SameBytes (countPos charset p) ∧
      (countPos charset p).nbLines = (getPos charset p.data).1 ∧ (countPos charset p).col = (getPos charset p.data).2 := by
  unfold countPos
  by_cases hv : p.validPos = true
  · rw [if_pos hv]
    exact ⟨h, .refl p, h.pos hv⟩
  · rw [if_neg hv]
    exact ⟨⟨fun _ => ⟨rfl, rfl⟩, h.char⟩, ⟨rfl, rfl, rfl, rfl⟩, rfl, rfl⟩

/-- So are the characters. -/
theorem countChar_spec {charset : Charset} {p : Page} (h : p.Counted charset) :
    (countChar charset p).Counted charset ∧ p.SameBytes (countChar charset p) ∧
      (countChar charset p).nbChars = getChars charset p.data := by
  unfold countChar
  by_cases hv : p.validChar = true
  · rw [if_pos hv]
    exact ⟨h, .refl p, h.char hv⟩
  · rw [if_neg hv]
    exact ⟨⟨h.pos, fun _ => rfl⟩, ⟨rfl, rfl, rfl, rfl⟩, rfl⟩

/-- Pages that are counted, and differ from the others in their counts alone. -/
def Recounted (charset : Charset) (ps qs : List Page) : Prop :=
  List.Forall₂ Page.SameBytes ps qs ∧ ∀ q ∈ qs, q.Counted charset

theorem Recounted.refl {charset : Charset} {ps : List Page} (h : ∀ p ∈ ps, p.Counted charset) : Recounted charset ps ps :=
  ⟨List.forall₂_same.mpr fun p _ => .refl p, h⟩

/-- Page by page, with the counts of the charset. -/
theorem Recounted.cons {charset : Charset} {p q : Page} {ps qs : List Page} (hpq : p.SameBytes q) (hq : q.Counted charset)
    (h : Recounted charset ps qs) : Recounted charset (p :: ps) (q :: qs) :=
  ⟨.cons hpq h.1, List.forall_mem_cons.mpr ⟨hq, h.2⟩⟩

/-! ## The functions that keep counts -/

/-- The loop of `eb_get_pos` finds what is found when every page is counted anew. -/
theorem getPosLoop_spec {charset : Charset} {ps : List Page} (h : ∀ p ∈ ps, p.Counted charset) (offset line col : Nat) :
    (getPosLoop charset ps offset line col).2 = getPosFrom charset ps offset line col ∧
      Recounted charset ps (getPosLoop charset ps offset line col).1 := by
  induction ps generalizing offset line col with
  | nil => exact ⟨rfl, .refl h⟩
  | cons p ps ih =>
    obtain ⟨hp, hps⟩ := List.forall_mem_cons.mp h
    rw [getPosLoop, getPosFrom]
    by_cases ho : offset < p.size
    · rw [if_pos ho, if_pos ho]
      refine ⟨?_, .refl h⟩
      simp only [Prod.mk.injEq, true_and]
      split <;> omega
    · rw [if_neg ho, if_neg ho]
      obtain ⟨c1, c2, c3, c4⟩ := countPos_spec hp
      have hcol : (if (countPos charset p).nbLines = 0 then col else 0) + (countPos charset p).col =
          if (getPos charset p.data).1 = 0 then col + (getPos charset p.data).2 else (getPos charset p.data).2 := by
        rw [c3, c4]
        split <;> omega
      obtain ⟨i1, i2⟩ := ih hps (offset - p.size) (line + (getPos charset p.data).1)
        (if (getPos charset p.data).1 = 0 then col + (getPos charset p.data).2 else (getPos charset p.data).2)
      simp only [c2.size, c3, c4] at hcol ⊢
      rw [hcol]
      exact ⟨i1, .cons c2 c1 i2⟩

/-- The loop of `eb_goto_pos` that counts anew, as far as the page where it stops. -/
def gotoPosStop (charset : Charset) (line1 col1 : Nat) : List Page → Nat → Nat → Nat → Option (Nat × Nat)
  | [], _, _, _ => none
  | p :: ps, offset, line, col =>
    let line2 := line + (getPos charset p.data).1
    let col2 := col + (getPos charset p.data).2
    if line1 < line2 ∨ (line2 = line1 ∧ col1 ≤ col2) then
      some (offset + skipLines (line1 - line) p.data, col1 - if line < line1 then 0 else col)
    else gotoPosStop charset line1 col1 ps (offset + p.size) line2 col2

/-- The loop of `eb_goto_pos` stops in the same page. -/
theorem gotoPosLoop_spec {charset : Charset} (line1 col1 : Nat) {ps : List Page} (h : ∀ p ∈ ps, p.Counted charset)
    (offset line col : Nat) :
    (gotoPosLoop charset line1 col1 ps offset line col).2 = gotoPosStop charset line1 col1 ps offset line col ∧
      Recounted charset ps (gotoPosLoop charset line1 col1 ps offset line col).1 := by
  induction ps generalizing offset line col with
  | nil => exact ⟨rfl, .refl h⟩
  | cons p ps ih =>
    obtain ⟨hp, hps⟩ := List.forall_mem_cons.mp h
    obtain ⟨c1, c2, c3, c4⟩ := countPos_spec hp
    rw [gotoPosLoop, gotoPosStop]
    simp only [c2.size, c2.data, c3, c4]
    by_cases hstop : line1 < line + (getPos charset p.data).1 ∨
        (line + (getPos charset p.data).1 = line1 ∧ col1 ≤ col + (getPos charset p.data).2)
    · rw [if_pos hstop, if_pos hstop]
      exact ⟨rfl, .cons c2 c1 (.refl hps)⟩
    · rw [if_neg hstop, if_neg hstop]
      obtain ⟨i1, i2⟩ := ih hps (offset + p.size) (line + (getPos charset p.data).1) (col + (getPos charset p.data).2)
      exact ⟨i1, .cons c2 c1 i2⟩

/-- The loop of `eb_goto_char` in UTF-8. -/
theorem gotoCharLoop_spec {ps : List Page} (h : ∀ p ∈ ps, p.Counted .utf8) (pos : Int) :
    (gotoCharLoop ps pos).2 = gotoCharFrom ps pos ∧ Recounted .utf8 ps (gotoCharLoop ps pos).1 := by
  induction ps generalizing pos with
  | nil => exact ⟨rfl, .refl h⟩
  | cons p ps ih =>
    obtain ⟨hp, hps⟩ := List.forall_mem_cons.mp h
    obtain ⟨c1, c2, c3⟩ := countChar_spec hp
    rw [gotoCharLoop, gotoCharFrom]
    simp only [c2.size, c2.data, c3]
    by_cases hpos : pos < (getChars .utf8 p.data : Int)
    · rw [if_pos hpos, if_pos hpos]
      exact ⟨rfl, .cons c2 c1 (.refl hps)⟩
    · rw [if_neg hpos, if_neg hpos]
      obtain ⟨i1, i2⟩ := ih hps (pos - getChars .utf8 p.data)
      exact ⟨by rw [← i1], .cons c2 c1 i2⟩

/-- The loop of `eb_get_char_offset` in UTF-8. -/
theorem charOffsetLoop_spec {ps : List Page} (h : ∀ p ∈ ps, p.Counted .utf8) (offset : Nat) :
    (charOffsetLoop ps offset).2 = charOffsetFrom ps offset ∧ Recounted .utf8 ps (charOffsetLoop ps offset).1 := by
  induction ps generalizing offset with
  | nil => exact ⟨rfl, .refl h⟩
  | cons p ps ih =>
    obtain ⟨hp, hps⟩ := List.forall_mem_cons.mp h
    obtain ⟨c1, c2, c3⟩ := countChar_spec hp
    rw [charOffsetLoop, charOffsetFrom]
    by_cases ho : offset < p.size
    · rw [if_pos ho, if_pos ho]
      exact ⟨rfl, .refl h⟩
    · rw [if_neg ho, if_neg ho]
      simp only [c2.size, c3]
      obtain ⟨i1, i2⟩ := ih hps (offset - p.size)
      exact ⟨by rw [← i1], .cons c2 c1 i2⟩

/-! ## Counted pages are the same text -/

/-- A page with the same bytes is as sound. -/
theorem Page.SameBytes.ok {p q : Page} (h : p.SameBytes q) (hp : p.Ok) : q.Ok := by
  obtain ⟨h1, h2, h3⟩ := hp
  exact ⟨by rw [h.size]; exact h1, by rw [h.size]; exact h2, by rw [h.data, h.size]; exact h3⟩

/-- A table whose pages differ in their counts alone. -/
theorem sameBytes_table {ps qs : List Page} (h : List.Forall₂ Page.SameBytes ps qs) :
    qs.map (·.data) = ps.map (·.data) ∧ qs.map (·.size) = ps.map (·.size) ∧ ((∀ p ∈ ps, p.Ok) → ∀ q ∈ qs, q.Ok) := by
  induction h with
  | nil => exact ⟨rfl, rfl, fun h => h⟩
  | @cons p q ps qs hpq _ ih =>
    obtain ⟨i1, i2, i3⟩ := ih
    refine ⟨by simp [hpq.data, i1], by simp [hpq.size, i2], fun hok => ?_⟩
    obtain ⟨hp, hps⟩ := List.forall_mem_cons.mp hok
    exact List.forall_mem_cons.mpr ⟨hpq.ok hp, i3 hps⟩

/-- The text in pages that differ in their counts alone. -/
theorem sameBytes_pages {t : Pages} (ht : t.Ok) {qs : List Page} (h : List.Forall₂ Page.SameBytes t.pageTable qs) :
    ({ t with pageTable := qs } : Pages).Ok ∧ ({ t with pageTable := qs } : Pages).bytes = t.bytes := by
  obtain ⟨h1, h2, h3⟩ := sameBytes_table h
  have hlen : qs.length = t.pageTable.length := by
    have := congrArg List.length h1
    rwa [List.length_map, List.length_map] at this
  have hsize (i : Nat) : tableSize (qs.take i) = tableSize (t.pageTable.take i) := by
    rw [tableSize, tableSize, List.map_take, List.map_take, h2]
  refine ⟨⟨⟨h3 ht.pages, ht.nb.trans hlen.symm, fun i hi => ?_⟩, ?_⟩, ?_⟩
  · obtain ⟨c1, c2⟩ := ht.cache i hi
    exact ⟨lt_of_lt_of_eq c1 hlen.symm, c2.trans (hsize i).symm⟩
  · rw [tableSize, h2]
    exact ht.total
  · rw [Pages.bytes, Pages.bytes, List.flatMap_def, List.flatMap_def, h1]

/-- The text with its pages counted. -/
theorem Recounted.pages {charset : Charset} {t : Pages} (ht : t.Ok) {qs : List Page}
    (h : Recounted charset t.pageTable qs) :
    ({ t with pageTable := qs } : Pages).Ok ∧ ({ t with pageTable := qs } : Pages).bytes = t.bytes :=
  sameBytes_pages ht h.1

/-- No count of the page is flagged. -/
def Page.Uncounted (p : Page) : Prop := p.validPos = false ∧ p.validChar = false

/-- Every new page is an old one or has no flag set. -/
def Derived (ps qs : List Page) : Prop := ∀ q ∈ qs, q ∈ ps ∨ q.Uncounted

theorem Derived.refl (ps : List Page) : Derived ps ps := fun _ h => Or.inl h

/-- What is derived from derived pages is derived. -/
theorem Derived.trans {ps qs rs : List Page} (h : Derived ps qs) (h' : Derived qs rs) : Derived ps rs := by
  intro r hr
  rcases h' r hr with hr | hr
  · exact h r hr
  · exact Or.inr hr

/-- A table that comes from a counted one is counted: a page without flags says nothing. -/
theorem Derived.counted {charset : Charset} {ps qs : List Page} (h : Derived ps qs) (hp : ∀ p ∈ ps, p.Counted charset) :
    ∀ q ∈ qs, q.Counted charset := by
  intro q hq
  rcases h q hq with hq | ⟨h1, h2⟩
  · exact hp q hq
  · exact ⟨by simp [h1], by simp [h2]⟩

/-- A page that is changed has no counts. -/
theorem uncounted_updatePage (p : Page) (size : Nat) (data : List Byte) :
    Page.Uncounted { updatePage p with size := size, data := data } := ⟨rfl, rfl⟩

theorem uncounted_newPage (buf : List Byte) : (newPage buf).Uncounted := ⟨rfl, rfl⟩

/-- A page may be replaced by one without flags. -/
theorem derived_setPage {t : Pages} {p : Page} (i : Nat) (hp : p.Uncounted) :
    Derived t.pageTable (t.setPage i p).pageTable := by
  intro q hq
  rcases List.mem_or_eq_of_mem_set hq with hq | rfl
  · exact Or.inl hq
  · exact Or.inr hp

/-- Bytes are put in front of a page. -/
theorem derived_prependPage (t : Pages) (i : Nat) (buf : List Byte) :
    Derived t.pageTable (prependPage t i buf).1.pageTable := by
  unfold prependPage
  split
  · simp only
    split
    · exact derived_setPage i (uncounted_updatePage _ _ _)
    · exact .refl _
  · exact .refl _

/-- New pages are put between the others. -/
theorem derived_insertPages (t : Pages) (i : Nat) {ps : List Page} (h : ∀ p ∈ ps, p.Uncounted) :
    Derived t.pageTable (insertPages t i ps).pageTable := by
  intro q hq
  rcases mem_memcpy hq with hq | hq
  · rcases mem_realloc (mem_memmove hq) with hq | rfl
    · exact Or.inl hq
    · exact Or.inr ⟨rfl, rfl⟩
  · exact Or.inr (h q hq)

theorem uncounted_fillPages (n : Nat) (buf : List Byte) : ∀ p ∈ fillPages n buf, p.Uncounted := by
  induction n generalizing buf with
  | zero => simp [fillPages]
  | succ n ih => exact List.forall_mem_cons.mpr ⟨uncounted_newPage _, ih _⟩

/-- New pages are filled and put in. -/
theorem derived_ebInsert1 (t : Pages) (i : Nat) (buf : List Byte) :
    Derived t.pageTable (ebInsert1 t i buf).pageTable := by
  have h := derived_prependPage t i buf
  unfold ebInsert1
  simp only
  split
  · exact h.trans (derived_insertPages _ i (uncounted_fillPages _ _))
  · exact h

/-- Bytes are put into a page. -/
theorem derived_insertInPage (t : Pages) (i offset : Nat) (buf : List Byte) :
    Derived t.pageTable (insertInPage t i offset buf).1.pageTable := by
  unfold insertInPage
  simp only
  obtain ⟨t₁, ht₁⟩ : ∃ t₁, t₁ = if 0 < (t.page i).size + min (maxPageSize - offset) buf.length - maxPageSize then
      ebInsert1 t (i + 1) (slice (t.page i).data ((t.page i).size -
        ((t.page i).size + min (maxPageSize - offset) buf.length - maxPageSize))
        ((t.page i).size + min (maxPageSize - offset) buf.length - maxPageSize)) else t := ⟨_, rfl⟩
  have h : Derived t.pageTable t₁.pageTable := by
    rw [ht₁]
    split
    · exact derived_ebInsert1 _ _ _
    · exact .refl _
  rw [← ht₁]
  split
  · exact h.trans (derived_setPage i (uncounted_updatePage _ _ _))
  · exact h

@[simp] theorem findPage_table (t : Pages) (offset : Nat) : (findPage t offset).1.pageTable = t.pageTable := by
  unfold findPage searchPage
  split
  · split <;> rfl
  · rfl

/-- `eb_insert_lowlevel` changes pages through `update_page`, and the pages that it adds are new. -/
theorem derived_ebInsertLowlevel (t : Pages) (offset : Nat) (buf : List Byte) :
    Derived t.pageTable (ebInsertLowlevel t offset buf).pageTable := by
  unfold ebInsertLowlevel
  by_cases ho : 0 < offset
  · simp only [if_pos ho]
    obtain ⟨t₁, ht₁⟩ : ∃ t₁, t₁ = findPage { t with totalSize := t.totalSize + buf.length } (offset - 1) := ⟨_, rfl⟩
    have h1 : t₁.1.pageTable = t.pageTable := by rw [ht₁, findPage_table]
    have h2 := derived_insertInPage t₁.1 t₁.2.1 (t₁.2.2 + 1) buf
    rw [h1] at h2
    rw [← ht₁]
    split
    · exact h2.trans (derived_ebInsert1 _ _ _)
    · exact h2
  · simp only [if_neg ho]
    split
    · exact derived_ebInsert1 { t with totalSize := t.totalSize + buf.length } 0 buf
    · exact .refl _

/-- A page is cut in two, and the second part is a new one. -/
theorem derived_cutPage (t : Pages) (offset : Nat) : Derived t.pageTable (cutPage t offset).1.pageTable := by
  unfold cutPage
  split
  · obtain ⟨t₁, ht₁⟩ : ∃ t₁, t₁ = findPage t offset := ⟨_, rfl⟩
    have h1 : t₁.1.pageTable = t.pageTable := by rw [ht₁, findPage_table]
    simp only [← ht₁]
    split
    · have h2 := derived_ebInsert1 t₁.1 (t₁.2.1 + 1)
        (slice (t₁.1.page t₁.2.1).data t₁.2.2 ((t₁.1.page t₁.2.1).size - t₁.2.2))
      rw [h1] at h2
      exact h2.trans (derived_setPage _ ⟨rfl, rfl⟩)
    · rw [h1]
      exact .refl _
  · exact .refl _

theorem uncounted_copyPage (p : Page) : (copyPage p).Uncounted := by
  unfold copyPage
  split <;> exact ⟨rfl, rfl⟩

/-- Pages of another buffer are copied. -/
theorem derived_insertRest (t : Pages) (offset : Nat) (rest : List Page) (size : Nat) :
    Derived t.pageTable (insertRest t offset rest size).pageTable := by
  have hcut := derived_cutPage t offset
  have hcopy : ∀ p ∈ (rest.take (completePages rest size).1).map copyPage, p.Uncounted := by
    intro p hp
    obtain ⟨q, -, rfl⟩ := List.mem_map.mp hp
    exact uncounted_copyPage q
  unfold insertRest
  simp only
  obtain ⟨c, hc⟩ : ∃ c, c = { (cutPage t offset).1 with totalSize := (cutPage t offset).1.totalSize + size } := ⟨_, rfl⟩
  have hc' : Derived t.pageTable c.pageTable := by rw [hc]; exact hcut
  rw [← hc]
  by_cases hn : 0 < (completePages rest size).1
  · simp only [if_pos hn]
    have h2 := hc'.trans (derived_insertPages c (cutPage t offset).2 hcopy)
    split
    · exact h2.trans (derived_ebInsert1 _ _ _)
    · exact h2
  · simp only [if_neg hn]
    split
    · exact hc'.trans (derived_ebInsert1 _ _ _)
    · exact hc'

/-- `eb_insert_buffer` copies pages without their flags, and leaves those of the source as they are. -/
theorem derived_insertBufferPages (dest : Pages) (destOffset : Nat) (src : Pages) (srcOffset size : Nat) :
    Derived dest.pageTable (insertBufferPages dest destOffset src srcOffset size).1.pageTable ∧
      (insertBufferPages dest destOffset src srcOffset size).2.pageTable = src.pageTable := by
  unfold insertBufferPages
  simp only
  obtain ⟨f, hf⟩ : ∃ f, f = findPage src srcOffset := ⟨_, rfl⟩
  have h1 : f.1.pageTable = src.pageTable := by rw [hf, findPage_table]
  rw [← hf]
  by_cases ho : 0 < f.2.2
  · simp only [if_pos ho]
    have h2 := derived_ebInsertLowlevel dest destOffset
      (slice (f.1.page f.2.1).data f.2.2 (min ((f.1.page f.2.1).size - f.2.2) size))
    split
    · exact ⟨h2, h1⟩
    · exact ⟨h2.trans (derived_insertRest _ _ _ _), h1⟩
  · simp only [if_neg ho]
    split
    · exact ⟨.refl _, h1⟩
    · exact ⟨derived_insertRest _ _ _ _, h1⟩

/-- Each page that is written to goes through `update_page`. -/
theorem derived_rwWrite (ps : List Page) (offset : Nat) (buf : List Byte) : Derived ps (rwWrite ps offset buf) := by
  induction ps generalizing offset buf with
  | nil => exact .refl _
  | cons p ps ih =>
    unfold rwWrite
    split
    · exact .refl _
    · intro q hq
      simp only at hq
      rcases List.mem_cons.mp hq with rfl | hq
      · exact Or.inr ⟨rfl, rfl⟩
      · split at hq
        · rcases ih _ _ q hq with hq | hq
          · exact Or.inl (List.mem_cons_of_mem _ hq)
          · exact Or.inr hq
        · exact Or.inl (List.mem_cons_of_mem _ hq)

/-- The bytes are written over. -/
theorem derived_writePages (t : Pages) (offset : Nat) (buf : List Byte) :
    Derived t.pageTable (writePages t offset buf).pageTable := by
  intro q hq
  rw [writePages] at hq
  simp only [findPage_table] at hq
  rcases List.mem_append.mp hq with hq | hq
  · exact Or.inl (List.mem_of_mem_take hq)
  · rcases derived_rwWrite _ _ _ q hq with hq | hq
    · exact Or.inl (List.mem_of_mem_drop hq)
    · exact Or.inr hq

/-- A page that is deleted from at one end has no flag any more, and the others are taken out or stay. -/
theorem derived_deleteLoop (ps : List Page) (i offset size : Nat) (start : Option Nat) (n : Nat) :
    Derived ps (deleteLoop ps i offset size start n).table := by
  induction ps generalizing i offset size start n with
  | nil => exact .refl _
  | cons p ps ih =>
    have hcons {q₀ : Page} (h₀ : q₀ = p ∨ q₀.Uncounted) {qs : List Page} (h : Derived ps qs) :
        Derived (p :: ps) (q₀ :: qs) := by
      intro q hq
      rcases List.mem_cons.mp hq with rfl | hq
      · rcases h₀ with rfl | h₀
        · exact Or.inl List.mem_cons_self
        · exact Or.inr h₀
      · rcases h q hq with hq | hq
        · exact Or.inl (List.mem_cons_of_mem _ hq)
        · exact Or.inr hq
    unfold deleteLoop
    split
    · exact .refl _
    · simp only
      split
      · exact hcons (Or.inl rfl) (ih _ _ _ _ _)
      · split
        · exact hcons (Or.inr ⟨rfl, rfl⟩) (ih _ _ _ _ _)
        · exact hcons (Or.inr ⟨rfl, rfl⟩) (.refl _)

/-- Bytes are taken out of the pages. -/
theorem derived_deletePages (t : Pages) (offset size : Nat) :
    Derived t.pageTable (deletePages t offset size).pageTable := by
  unfold deletePages
  simp only [findPage_table]
  obtain ⟨d, hd⟩ : ∃ d, d = deleteLoop (t.pageTable.drop (findPage t offset).2.1) (findPage t offset).2.1 (findPage t offset).2.2
      size none 0 := ⟨_, rfl⟩
  have hloop : Derived t.pageTable (t.pageTable.take (findPage t offset).2.1 ++ d.table) := by
    intro q hq
    rcases List.mem_append.mp hq with hq | hq
    · exact Or.inl (List.mem_of_mem_take hq)
    · rw [hd] at hq
      rcases derived_deleteLoop _ _ _ _ _ _ q hq with hq | hq
      · exact Or.inl (List.mem_of_mem_drop hq)
      · exact Or.inr hq
  rw [← hd]
  split
  · refine hloop.trans fun q hq => ?_
    rcases mem_realloc hq with hq | rfl
    · exact Or.inl (mem_memmove hq)
    · exact Or.inr ⟨rfl, rfl⟩
  · exact hloop

/-! ## Changes of a buffer -/

/-- The log is a buffer of its own. -/
theorem ebAddlog_table (b : EditBuffer) (op : LogOperation) (offset size : Nat) :
    (ebAddlog b op offset size).pageTable = b.pageTable := by
  have hevict (b : EditBuffer) (log : Pages) : (evictLog b log).1.pageTable = b.pageTable := by
    unfold evictLog
    split <;> rfl
  have happend (b : EditBuffer) (log : Pages) (lb : LogBuffer) : (appendLog b log lb).1.pageTable = b.pageTable := by
    unfold appendLog
    simp only
    split
    · split
      · rfl
      · exact (derived_insertBufferPages _ _ _ _ _).2
    · rfl
  unfold ebAddlog
  simp only
  split
  · rfl
  · exact (happend _ _ _).trans (hevict _ _)

/-- So it is with `eb_insert` itself. -/
theorem derived_ebInsert (b : EditBuffer) (offset : Nat) (buf : List Byte) :
    Derived b.pageTable (ebInsert b offset buf).pageTable := by
  have h := derived_ebInsertLowlevel (ebAddlog b .insert offset buf.length).toPages offset buf
  rwa [ebAddlog_table] at h

/-- All edits do so. -/
theorem derived_edit (b : EditBuffer) (e : Edit) : Derived b.pageTable (e.run b).pageTable := by
  cases e with
  | insert offset buf => exact derived_ebInsert b offset buf
  | delete offset size =>
    rw [Edit.run, ebDelete]
    split
    · exact .refl _
    · have h := derived_deletePages (ebAddlog { b with totalSize := b.totalSize - size } .delete offset size).toPages offset size
      rwa [ebAddlog_table] at h
  | write offset buf =>
    have hrw : Derived b.pageTable (ebRw b offset buf).1.pageTable := by
      unfold ebRw
      simp only
      split
      · exact .refl _
      · have h := derived_writePages (ebAddlog b .write offset (rwSize b.toPages offset buf.length)).toPages offset
          (buf.take (rwSize b.toPages offset buf.length))
        rwa [ebAddlog_table] at h
    rw [Edit.run, ebWrite]
    simp only
    split
    · exact hrw.trans (derived_ebInsert _ _ _)
    · exact hrw
  | insertBuffer offset src srcOffset size =>
    rw [Edit.run, ebInsertBuffer]
    split
    · exact .refl _
    · have h := (derived_insertBufferPages (ebAddlog b .insert offset size).toPages offset src srcOffset size).1
      rwa [ebAddlog_table] at h

/-- A file is read block by block. -/
theorem derived_loadBlocks (n : Nat) (b : EditBuffer) (offset : Nat) (file : List Byte) :
    Derived b.pageTable (loadBlocks n b offset file).pageTable := by
  induction n generalizing b offset file with
  | zero => exact .refl _
  | succ n ih => exact (derived_ebInsert _ _ _).trans (ih _ _ _)

/-- The pages of a mapped file have no counts. -/
theorem uncounted_mapPages (ino n ptr : Nat) (file : List Byte) : ∀ p ∈ mapPages ino n ptr file, p.Uncounted := by
  induction n generalizing ptr file with
  | zero => simp [mapPages]
  | succ n ih => exact List.forall_mem_cons.mpr ⟨⟨rfl, rfl⟩, ih _ _⟩

/-- The pages of a file that is loaded are new, mapped or not. -/
theorem derived_reloadBuffer (b : EditBuffer) (ino : Nat) (file : List Byte) :
    Derived b.pageTable (reloadBuffer b ino file).pageTable := by
  unfold reloadBuffer rawLoadBuffer
  simp only
  split
  · unfold mmapBuffer
    split
    · exact .refl _
    · exact fun p hp => Or.inr (uncounted_mapPages _ _ _ _ p hp)
  · exact derived_loadBlocks _ _ _ _

end Hoe
