import Hoe.InMemory
import Hoe.Lemmas.Pages

/-!
# Pages in memory and the pages they stand for

`Page.view` is the page of `Hoe.Pages` that a page in memory stands for, in a heap. `Table` is the invariant of the sharing: a read
only page lies in a mapped block, every other page owns its block, and no two pages own the same. `Edit` is what a change of some
pages does to the heap: it touches the blocks these pages own, and leaves their successors in the invariant.
-/

namespace Hoe.InMemory

open Memory Splice

/-! ## Pages -/

/-- The page of the layer above that the page stands for. -/
def Page.view (h : Heap Byte) (p : Page) : Hoe.Page :=
  { size := p.size
    data := slice ((h.chunk p.data.block).elim [] (·.cells)) p.data.off p.size
    ref := if p.readOnly then (h.chunk p.data.block).bind fun c => c.file.map fun ino => ⟨ino, p.data.off⟩ else none
    readOnly := p.readOnly, validPos := p.validPos, validChar := p.validChar
    nbLines := p.nbLines, col := p.col, nbChars := p.nbChars }

/-- The text of the layer above. -/
def Pages.view (h : Heap Byte) (t : Pages) : Hoe.Pages :=
  { pageTable := t.pageTable.map (·.view h), nbPages := t.nbPages, totalSize := t.totalSize, curPage := t.curPage
    curOffset := t.curOffset }

/-- Where the data of a page may be. -/
structure Page.Placed (h : Heap Byte) (p : Page) : Prop where
  shared : p.readOnly = true →
    ∃ c, h.chunk p.data.block = some c ∧ c.file ≠ none ∧ p.data.off + p.size ≤ c.cells.length
  own : p.readOnly = false → p.data.off = 0 ∧ ∃ xs, h.Own p.data.block xs ∧ xs.length = p.size

/-- The block a page owns, if it owns one. -/
def Page.owns (p : Page) : List Nat := if p.readOnly then [] else [p.data.block]

/-- The blocks the pages own. -/
def owned (ps : List Page) : List Nat := ps.flatMap (·.owns)

/-- The page that `p` becomes when its data is the block `k` of `size` bytes, which it owns. -/
def ownPage (p : Page) (size k : Nat) : Page :=
  { p with size := size, data := ⟨k, 0⟩, readOnly := false, validPos := false, validChar := false }

/-- The page of the layer above that `P` becomes when its bytes are replaced. -/
def remade (P : Hoe.Page) (n : Nat) (xs : List Byte) : Hoe.Page := { Hoe.updatePage P with size := n, data := xs }

@[simp] theorem owned_nil : owned [] = [] := rfl

@[simp] theorem owned_cons (p : Page) (ps : List Page) : owned (p :: ps) = p.owns ++ owned ps := by simp [owned]

@[simp] theorem owned_append (ps qs : List Page) : owned (ps ++ qs) = owned ps ++ owned qs := by simp [owned]

@[simp] theorem owns_ownPage (p : Page) (size k : Nat) : (ownPage p size k).owns = [k] := rfl

@[simp] theorem view_size (h : Heap Byte) (p : Page) : (p.view h).size = p.size := rfl

namespace Page.Placed

variable {h h' : Heap Byte} {p : Page}

/-- The block the data lies in. -/
theorem chunk (hp : p.Placed h) : ∃ c, h.chunk p.data.block = some c ∧ p.data.off + p.size ≤ c.cells.length := by
  cases hro : p.readOnly with
  | true =>
    obtain ⟨c, hc, -, hle⟩ := hp.shared hro
    exact ⟨c, hc, hle⟩
  | false =>
    obtain ⟨hoff, xs, ho, hlen⟩ := hp.own hro
    exact ⟨_, ho, by simp only; omega⟩

theorem live (hp : p.Placed h) : ∀ k ∈ p.owns, k < h.chunks.length := by
  intro k hk
  obtain ⟨c, hc, -⟩ := hp.chunk
  unfold owns at hk
  split at hk
  · cases hk
  · rw [List.mem_singleton.mp hk]
    exact Heap.lt_of_chunk hc

/-- The page as the layer above has it is well formed where its data is concerned. -/
theorem length_data (hp : p.Placed h) : (p.view h).data.length = p.size := by
  obtain ⟨c, hc, hle⟩ := hp.chunk
  simp only [view, hc, Option.elim_some]
  exact length_slice _ hle

/-- A page whose block stays as it is. -/
theorem of_chunk (hp : p.Placed h) (hc : h'.chunk p.data.block = h.chunk p.data.block) : p.Placed h' ∧ p.view h' = p.view h := by
  refine ⟨⟨?_, ?_⟩, by simp only [view, hc]⟩
  · intro hro
    rw [hc]
    exact hp.shared hro
  · intro hro
    obtain ⟨hoff, xs, ho, hlen⟩ := hp.own hro
    exact ⟨hoff, xs, hc.trans ho, hlen⟩

/-- The data of a page lies in no block that other pages own. -/
theorem apart {ps : List Page} (hp : p.Placed h) (hps : ∀ q ∈ ps, q.Placed h) (hd : List.Disjoint p.owns (owned ps)) :
    p.data.block ∉ owned ps := by
  intro hin
  obtain ⟨q, hq, hown⟩ := List.mem_flatMap.mp hin
  cases hro : p.readOnly with
  | false => exact hd (by simp [owns, hro]) hin
  | true =>
    obtain ⟨c, hc, hfile, -⟩ := hp.shared hro
    cases hqro : q.readOnly with
    | true => simp [owns, hqro] at hown
    | false =>
      obtain ⟨-, xs, ho, -⟩ := (hps q hq).own hqro
      have hblock : p.data.block = q.data.block := by simpa [owns, hqro] using hown
      rw [hblock, show h.chunk q.data.block = some ⟨xs, none⟩ from ho] at hc
      cases hc
      exact hfile rfl

/-- A change of blocks the page does not own. A block that is mapped cannot change. -/
theorem kept {own own' : List Nat} (hp : p.Placed h) (hf : Frame own own' h h') (hd : List.Disjoint p.owns own) :
    p.Placed h' ∧ p.view h' = p.view h := by
  refine hp.of_chunk ?_
  cases hro : p.readOnly with
  | true =>
    obtain ⟨c, hc, hfile, -⟩ := hp.shared hro
    rw [hf.mapped _ c hc hfile, hc]
  | false =>
    have hin : p.data.block ∈ p.owns := by simp [owns, hro]
    exact hf.kept _ (hp.live _ hin) fun hown => hd hin hown

end Page.Placed

/-- A page that owns its data. -/
theorem ownPage_spec {h h' : Heap Byte} {k : Nat} {xs : List Byte} (p : Page) (ho : h'.Own k xs) {n : Nat} (hn : xs.length = n) :
    (ownPage p n k).Placed h' ∧ (ownPage p n k).view h' = remade (p.view h) n xs := by
  refine ⟨⟨fun hro => (Bool.false_ne_true hro).elim, fun _ => ⟨rfl, xs, ho, hn⟩⟩, ?_⟩
  have hdata : slice xs 0 n = xs := by rw [slice, List.drop_zero, List.take_of_length_le (by omega)]
  simp only [remade, Page.view, ownPage, Hoe.updatePage, show h'.chunk k = some ⟨xs, none⟩ from ho, Option.elim_some, hdata]
  by_cases hro : p.readOnly = true <;> simp [hro]

/-- A page on memory of its own shows what is in that. -/
theorem newPage_spec {k : Nat} {xs : List Byte} {h : Heap Byte} (ho : h.Own k xs) {n : Nat} (hn : xs.length = n) :
    (newPage n ⟨k, 0⟩).Placed h ∧ (newPage n ⟨k, 0⟩).view h = Hoe.newPage xs := by
  obtain ⟨hp, hv⟩ := ownPage_spec (newPage n ⟨k, 0⟩) ho hn (h := h)
  refine ⟨hp, hv.trans ?_⟩
  simp [remade, Hoe.updatePage, Hoe.newPage, Page.view, newPage, hn]

/-! ## Tables -/

/-- The invariant of the sharing. -/
structure Table (h : Heap Byte) (ps : List Page) : Prop where
  placed : ∀ p ∈ ps, p.Placed h
  nodup : (owned ps).Nodup

namespace Table

variable {h : Heap Byte} {ps qs : List Page}

theorem nil (h : Heap Byte) : Table h [] := ⟨by simp, List.nodup_nil⟩

theorem live (ht : Table h ps) : ∀ k ∈ owned ps, k < h.chunks.length := by
  intro k hk
  obtain ⟨p, hp, hk⟩ := List.mem_flatMap.mp hk
  exact (ht.placed p hp).live k hk

/-- Two tables are one when they own nothing together. -/
theorem append_iff : Table h (ps ++ qs) ↔ Table h ps ∧ Table h qs ∧ List.Disjoint (owned ps) (owned qs) := by
  constructor
  · rintro ⟨hp, hn⟩
    rw [owned_append, List.nodup_append'] at hn
    exact ⟨⟨fun p h => hp p (by simp [h]), hn.1⟩, ⟨fun p h => hp p (by simp [h]), hn.2.1⟩, hn.2.2⟩
  · rintro ⟨⟨hp, hn⟩, ⟨hq, hm⟩, hd⟩
    refine ⟨?_, by rw [owned_append, List.nodup_append']; exact ⟨hn, hm, hd⟩⟩
    intro p hin
    rcases List.mem_append.mp hin with hin | hin
    · exact hp p hin
    · exact hq p hin

theorem left (ht : Table h (ps ++ qs)) : Table h ps := (append_iff.mp ht).1

theorem right (ht : Table h (ps ++ qs)) : Table h qs := (append_iff.mp ht).2.1

/-- The parts of a table own nothing together. -/
theorem disjoint (ht : Table h (ps ++ qs)) : List.Disjoint (owned ps) (owned qs) := (append_iff.mp ht).2.2

theorem tail {p : Page} (ht : Table h (p :: ps)) : Table h ps := @right h [p] ps ht

theorem head_disjoint {p : Page} (ht : Table h (p :: ps)) : List.Disjoint p.owns (owned ps) := by
  simpa using @disjoint h [p] ps ht

theorem page {p : Page} (ht : Table h [p]) : p.Placed h := ht.placed p (List.mem_singleton_self p)

/-- A page is a table. -/
theorem single {p : Page} (hp : p.Placed h) : Table h [p] := by
  refine ⟨fun q hq => by rwa [List.mem_singleton.mp hq], ?_⟩
  simp only [owned_cons, owned_nil, List.append_nil, Page.owns]
  split <;> simp

end Table

/-- Pages that a change of other blocks leaves alone. -/
theorem kept_pages {h h' : Heap Byte} {own own' : List Nat} {ps : List Page} (hp : ∀ p ∈ ps, p.Placed h)
    (hf : Frame own own' h h') (hd : List.Disjoint (owned ps) own) :
    (∀ p ∈ ps, p.Placed h') ∧ ps.map (·.view h') = ps.map (·.view h) := by
  have hpage : ∀ p ∈ ps, p.Placed h' ∧ p.view h' = p.view h := by
    intro p hin
    refine (hp p hin).kept hf ?_
    intro k hk hown
    exact hd (List.mem_flatMap.mpr ⟨p, hin, hk⟩) hown
  exact ⟨fun p hin => (hpage p hin).1, List.map_congr_left fun p hin => (hpage p hin).2⟩

/-- A change of other memory leaves a table and its text as they are. -/
theorem Table.kept {h h' : Heap Byte} {own own' : List Nat} {ps : List Page} (ht : Table h ps) (hf : Frame own own' h h')
    (hd : List.Disjoint (owned ps) own) : Table h' ps ∧ ps.map (·.view h') = ps.map (·.view h) := by
  obtain ⟨hp, hv⟩ := kept_pages ht.placed hf hd
  exact ⟨⟨hp, ht.nodup⟩, hv⟩

/-- What a change of the pages `ps` into `ps'` does to the heap. -/
structure Edit (ps ps' : List Page) (h h' : Heap Byte) : Prop where
  frame : Frame (owned ps) (owned ps') h h'
  table : Table h' ps'

namespace Edit

variable {ps ps' ps'' : List Page} {h h' h'' : Heap Byte}

theorem refl (ht : Table h ps) : Edit ps ps h h := ⟨Frame.refl _ h, ht⟩

theorem trans (he : Edit ps ps' h h') (he' : Edit ps' ps'' h' h'') : Edit ps ps'' h h'' := ⟨he.frame.trans he'.frame, he'.table⟩

/-- The frame rule: pages around the changed ones stay in the invariant. -/
theorem cut {a b : List Page} (ht : Table h (a ++ ps ++ b)) (he : Edit ps ps' h h') :
    Edit (a ++ ps ++ b) (a ++ ps' ++ b) h h' := by
  obtain ⟨hap, hb, hdb⟩ := Table.append_iff.mp ht
  obtain ⟨ha, hp, hda⟩ := Table.append_iff.mp hap
  rw [owned_append, List.disjoint_append_left] at hdb
  refine ⟨by simpa using he.frame.cut (owned a) (owned b), ?_⟩
  refine Table.append_iff.mpr ⟨Table.append_iff.mpr ⟨(ha.kept he.frame hda).1, he.table, ?_⟩, ?_, ?_⟩
  · exact he.frame.disjoint ha.live hda
  · exact (hb.kept he.frame hdb.2.symm).1
  · rw [owned_append, List.disjoint_append_left]
    exact ⟨hdb.1, (he.frame.disjoint hb.live hdb.2.symm).symm⟩

/-- An edit of the last pages of a table. -/
theorem cut_right {a : List Page} (ht : Table h (a ++ ps)) (he : Edit ps ps' h h') : Edit (a ++ ps) (a ++ ps') h h' := by
  simpa using he.cut (a := a) (b := []) (by simpa using ht)

/-- An edit of the first ones. -/
theorem cut_left {b : List Page} (ht : Table h (ps ++ b)) (he : Edit ps ps' h h') : Edit (ps ++ b) (ps' ++ b) h h' := by
  simpa using he.cut (a := []) (b := b) ht

/-- What the pages around the changed ones show stays. -/
theorem cut_view {a b : List Page} (ht : Table h (a ++ ps ++ b)) (he : Edit ps ps' h h') :
    a.map (·.view h') = a.map (·.view h) ∧ b.map (·.view h') = b.map (·.view h) := by
  obtain ⟨hap, hb, hdb⟩ := Table.append_iff.mp ht
  rw [owned_append, List.disjoint_append_left] at hdb
  exact ⟨(hap.left.kept he.frame hap.disjoint).2, (hb.kept he.frame hdb.2.symm).2⟩

/-- A page in front of the changed ones. -/
theorem cons {p : Page} (ht : Table h (p :: ps)) (he : Edit ps ps' h h') :
    Edit (p :: ps) (p :: ps') h h' ∧ p.view h' = p.view h := by
  refine ⟨he.cut_right (a := [p]) ht, ?_⟩
  have hview := (he.cut_view (a := [p]) (b := []) (by simpa using ht)).1
  simpa using hview

end Edit

/-! ## Bytes to insert -/

namespace Source

/-- The bytes to insert are there. -/
def Holds (h : Heap Byte) : Source → List Byte → Prop
  | array bs', bs => bs <+: bs'
  | data p, bs => ∃ c, h.chunk p.block = some c ∧ p.off + bs.length ≤ c.cells.length ∧ slice c.cells p.off bs.length = bs

/-- They do not lie in the blocks. -/
def Apart (own : List Nat) : Source → Prop
  | array _ => True
  | data p => p.block ∉ own

variable {h h' : Heap Byte} {buf : Source} {bs : List Byte} {own own' : List Nat}

/-- What is read of a source is the beginning of what it holds. -/
theorem Holds.load (hb : buf.Holds h bs) {n : Nat} (hn : n ≤ bs.length) :
    Returns (buf.load n) h fun xs h' => xs = bs.take n ∧ h' = h := by
  cases buf with
  | array bs' =>
    obtain ⟨rest, rfl⟩ : bs <+: bs' := hb
    rw [Source.load, if_pos (by rw [List.length_append]; omega)]
    exact Returns.pure ⟨List.take_append_of_le_length hn, rfl⟩
  | data p =>
    obtain ⟨c, hc, hle, hbs⟩ := hb
    refine (Memory.load_rule hc (show p.off + n ≤ c.cells.length by omega)).mono ?_
    rintro xs h' ⟨rfl, rfl⟩
    refine ⟨?_, rfl⟩
    rw [← hbs, slice, slice, List.take_take, Nat.min_eq_left hn]

/-- Behind some bytes of a source is what it holds behind them. -/
theorem Holds.drop (hb : buf.Holds h bs) {n : Nat} (hn : n ≤ bs.length) : (buf.drop n).Holds h (bs.drop n) := by
  cases buf with
  | array bs' => exact List.IsPrefix.drop hb n
  | data p =>
    obtain ⟨c, hc, hle, hbs⟩ := hb
    refine ⟨c, hc, by simp only [Ptr.add, List.length_drop]; omega, ?_⟩
    conv_rhs => rw [← hbs]
    simp only [Ptr.add, slice, List.length_drop, List.drop_take, List.drop_drop]

/-- A source holds the beginning of what it holds. -/
theorem Holds.take (hb : buf.Holds h bs) (n : Nat) : buf.Holds h (bs.take n) := by
  cases buf with
  | array bs' => exact (List.take_prefix n bs).trans hb
  | data p =>
    obtain ⟨c, hc, hle, hbs⟩ := hb
    refine ⟨c, hc, by rw [List.length_take]; omega, ?_⟩
    conv_rhs => rw [← hbs]
    rw [slice, slice, List.length_take, List.take_take]

theorem Apart.drop (ha : buf.Apart own) (n : Nat) : (buf.drop n).Apart own := by
  cases buf <;> exact ha

theorem Apart.mono (ha : buf.Apart own) (hsub : ∀ k ∈ own', k ∈ own) : buf.Apart own' := by
  cases buf with
  | array bs => trivial
  | data p => exact fun hin => ha (hsub _ hin)

/-- Bytes that a change of other blocks leaves alone. -/
theorem Holds.kept (hb : buf.Holds h bs) (ha : buf.Apart own) (hf : Frame own own' h h') : buf.Holds h' bs ∧ buf.Apart own' := by
  cases buf with
  | array bs' => exact ⟨hb, trivial⟩
  | data p =>
    obtain ⟨c, hc, hle, hbs⟩ := hb
    have hlt := Heap.lt_of_chunk hc
    refine ⟨⟨c, by rw [hf.kept _ hlt ha, hc], hle, hbs⟩, ?_⟩
    intro hin
    rcases hf.fresh _ hin with hin | hge
    · exact ha hin
    · omega

end Source

/-- Bytes of a page. -/
theorem Page.Placed.source {h : Heap Byte} {p : Page} (hp : p.Placed h) (off n : Nat) (hle : off + n ≤ p.size) :
    (Source.data (p.data.add off)).Holds h (slice (p.view h).data off n) := by
  obtain ⟨c, hc, hsize⟩ := hp.chunk
  have hlen : (slice (p.view h).data off n).length = n := length_slice _ (by rw [hp.length_data]; exact hle)
  refine ⟨c, hc, by rw [hlen]; simp only [Ptr.add]; omega, ?_⟩
  rw [hlen]
  simp only [view, hc, Option.elim_some, Ptr.add, slice, List.drop_take, List.drop_drop, List.take_take]
  rw [Nat.min_eq_left (by omega)]

end Hoe.InMemory
