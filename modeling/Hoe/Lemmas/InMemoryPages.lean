import Hoe.Lemmas.InMemory

/-!
# The functions on the page table, in memory

One lemma for each function of `Hoe.InMemory` that works on a page table: where no allocation is refused it returns, it edits the
pages of its table and no others, and the text it leaves is the one `Hoe.Pages` has for it.
-/

namespace Hoe.InMemory

open Memory Splice

variable {h : Heap Byte}

/-! ## One page -/

/-- `update_page` leaves a page that owns its data. -/
theorem updatePage_spec {p : Page} (hp : p.Placed h) (hw : h.Willing) :
    Returns (updatePage p) h fun q h' =>
      ∃ k, q = ownPage p p.size k ∧ h'.Own k (p.view h).data ∧ Frame p.owns [k] h h' := by
  unfold updatePage
  cases hro : p.readOnly with
  | false =>
    obtain ⟨hoff, xs, ho, hlen⟩ := hp.own hro
    have hdata : p.data = ⟨p.data.block, 0⟩ := by rw [← hoff]
    have hview : (p.view h).data = xs := by
      simp only [Page.view, show h.chunk p.data.block = some ⟨xs, none⟩ from ho, Option.elim_some, hoff, slice, List.drop_zero]
      exact List.take_of_length_le (by omega)
    rw [if_neg Bool.false_ne_true]
    refine Returns.pure ⟨p.data.block, by simp only [ownPage, ← hdata], by rw [hview]; exact ho, ?_⟩
    simpa [Page.owns, hro] using Frame.refl [p.data.block] h
  | true =>
    obtain ⟨c, hc, hfile, hle⟩ := hp.shared hro
    have hview : (p.view h).data = slice c.cells p.data.off p.size := by simp only [Page.view, hc, Option.elim_some]
    rw [if_pos rfl]
    refine (tryMalloc_rule 0 p.size hw).bind ?_
    rintro _ h₁ ⟨k, rfl, ho, hf⟩
    refine (load_rule (hf.mapped _ c hc hfile) hle).bind ?_
    rintro xs _ ⟨rfl, rfl⟩
    rw [← hview]
    refine (store_rule ho (by rw [hp.length_data, List.length_replicate, Nat.zero_add])).bind ?_
    rintro _ h₂ ⟨ho₂, hf₂⟩
    refine Returns.pure ⟨k, rfl, ?_, ?_⟩
    · rwa [Block.memcpy, overwriteAt_whole (by simp [hp.length_data])] at ho₂
    · simpa [Page.owns, hro] using hf.trans hf₂

/-- A page that was changed into one that owns its data. -/
theorem Edit.ownPage {h h' : Heap Byte} {p : Page} {k : Nat} {xs : List Byte} (ho : h'.Own k xs) {n : Nat} (hn : xs.length = n)
    (hf : Frame p.owns [k] h h') : Edit [p] [InMemory.ownPage p n k] h h' :=
  ⟨by simpa using hf, Table.single (ownPage_spec p ho hn (h := h)).1⟩

/-- A gap is opened in a page and filled. -/
theorem openGap_spec {p : Page} (hp : p.Placed h) (hw : h.Willing) {buf : Source} {bs : List Byte} (hb : buf.Holds h bs)
    (ha : buf.Apart p.owns) (size offset : Nat) (hsize : offset + bs.length ≤ size) :
    Returns (openGap p size offset buf bs.length) h fun q h' =>
      Edit [p] [q] h h' ∧ q.view h' = remade (p.view h) size
        (Block.memcpy (Block.memmove (Block.realloc 0 (p.view h).data size) (offset + bs.length) offset
          (size - (offset + bs.length))) offset bs) := by
  unfold openGap
  refine (updatePage_spec hp hw).bind ?_
  rintro _ h₁ ⟨k₁, rfl, ho₁, hf₁⟩
  refine (realloc_rule 0 ho₁ size).bind ?_
  rintro _ h₂ ⟨k₂, rfl, ho₂, hf₂⟩
  have hgrown : (Block.realloc 0 (p.view h).data size).length = size := Block.length_realloc ..
  rw [Ptr.add_start, Ptr.add_start]
  refine (memmove_rule ho₂ (by omega) (by omega)).bind ?_
  rintro _ h₃ ⟨ho₃, hf₃⟩
  have hf₁₃ : Frame p.owns [k₂] h h₃ := (hf₁.trans hf₂).trans hf₃
  refine ((hb.kept ha hf₁₃).1.load (Nat.le_refl _)).bind ?_
  rintro xs _ ⟨rfl, rfl⟩
  rw [List.take_length]
  have hmoved := Block.length_memmove (Block.realloc 0 (p.view h).data size) (offset + bs.length) offset
    (size - (offset + bs.length)) (by omega) (by omega)
  refine (store_rule ho₃ (by omega)).bind ?_
  rintro _ h₄ ⟨ho₄, hf₄⟩
  have hlen := (Block.length_memcpy offset bs (by omega)).trans (hmoved.trans hgrown)
  exact Returns.pure ⟨Edit.ownPage ho₄ hlen (hf₁₃.trans hf₄), (ownPage_spec p ho₄ hlen).2⟩

/-! ## The table -/

/-- A page is read where it is in the table. -/
theorem page_rule {t : Pages} {pre post : List Page} {p : Page} (hc : t.pageTable = pre ++ p :: post) :
    t.page pre.length = pure p := by
  simp [Pages.page, hc]

@[simp] theorem view_pageTable (h : Heap Byte) (t : Pages) : (t.view h).pageTable = t.pageTable.map (·.view h) := rfl

/-- What is seen of it is the page of the view. -/
theorem view_page {t : Pages} {pre post : List Page} {p : Page} (hc : t.pageTable = pre ++ p :: post) :
    (t.view h).page pre.length = p.view h := by
  simp [Hoe.Pages.page, hc]

@[simp] theorem view_null (h : Heap Byte) : Page.null.view h = Hoe.Page.null := by
  simp [Page.view, Page.null, newPage, Hoe.Page.null, Hoe.newPage, slice]

/-- Pages are put into the view as into the table. -/
theorem view_insertPages (h : Heap Byte) (t : Pages) (i : Nat) (ps : List Page) :
    (insertPages t i ps).view h = Hoe.insertPages (t.view h) i (ps.map (·.view h)) := by
  simp only [insertPages, Hoe.insertPages, Pages.view, Block.map_memcpy, Block.map_memmove, Block.map_realloc, view_null,
    List.length_map]

/-- The table with pages put in. -/
theorem insertPages_table {t : Pages} {pre post : List Page} (hc : t.pageTable = pre ++ post)
    (hn : t.nbPages = t.pageTable.length) (ps : List Page) :
    insertPages t pre.length ps = { t with pageTable := pre ++ ps ++ post, nbPages := (pre ++ ps ++ post).length } := by
  have hfill := Block.fill_gap_full Page.null t.pageTable ps pre.length (by simp [hc])
  have hnb : t.nbPages + ps.length - ps.length - pre.length = t.pageTable.length - pre.length := by omega
  have hlen : t.nbPages + ps.length = (pre ++ ps ++ post).length := by
    rw [hn, hc]
    simp only [List.length_append]
    omega
  simp only [insertPages, hnb]
  rw [hn, hfill, hc, insertAt_append, ← hlen, hn, hc]

/-! ## Finding a page -/

/-- The page of an offset is the same one in the view. -/
theorem view_seekPage (h : Heap Byte) (ps : List Page) (offset : Nat) :
    Hoe.seekPage (ps.map (·.view h)) offset = seekPage ps offset := by
  induction ps generalizing offset with
  | nil => rfl
  | cons p ps ih => simp only [List.map_cons, Hoe.seekPage, seekPage, view_size, ih]

/-- `find_page` finds the same in the view. -/
theorem view_findPage (h : Heap Byte) (t : Pages) (offset : Nat) :
    Hoe.findPage (t.view h) offset = ((findPage t offset).1.view h, (findPage t offset).2) := by
  have hsearch : Hoe.searchPage (t.view h) offset = ((searchPage t offset).1.view h, (searchPage t offset).2) := by
    simp only [Hoe.searchPage, searchPage, view_pageTable, view_seekPage]
    rfl
  have hcur : (t.view h).curPage = t.curPage := rfl
  unfold Hoe.findPage findPage
  rw [hcur]
  cases t.curPage with
  | none => exact hsearch
  | some i =>
    have hpage : ((t.view h).page i).size = (t.pageTable.getD i Page.null).size := by
      rw [Hoe.Pages.page, view_pageTable, ← view_null h, List.getD_map, view_size]
    have hoff : (t.view h).curOffset = t.curOffset := rfl
    simp only [hpage, hoff]
    split
    · rfl
    · exact hsearch

/-- It changes nothing but the page cache. -/
theorem findPage_fst (t : Pages) (offset : Nat) :
    ∃ cur co, (findPage t offset).1 = { t with curPage := cur, curOffset := co } := by
  unfold findPage
  split
  · split
    · exact ⟨_, _, rfl⟩
    · exact ⟨_, _, rfl⟩
  · exact ⟨_, _, rfl⟩

/-- `find_page` finds the page the offset lies in, and changes the cache only. -/
theorem findPage_spec {t : Pages} (hok : (t.view h).TableOk) (offset : Nat) (ho : offset < tableSize (t.view h).pageTable) :
    ∃ pre p post off cur co, t.pageTable = pre ++ p :: post ∧ offset = tableSize (pre.map (·.view h)) + off ∧ off < p.size ∧
      findPage t offset = ({ t with curPage := cur, curOffset := co }, pre.length, off) ∧
      Hoe.findPage (t.view h) offset = (({ t with curPage := cur, curOffset := co } : Pages).view h, pre.length, off) := by
  obtain ⟨PRE, P, POST, off, hcut, hoff, hlt⟩ := exists_page ho
  have hfind := Hoe.findPage_cut hok.cache hcut hlt
  rw [← hoff, view_findPage] at hfind
  rw [view_pageTable] at hcut
  obtain ⟨pre, rest, hc, rfl, hrest⟩ := List.map_eq_append_iff.mp hcut
  obtain ⟨p, post, rfl, rfl, rfl⟩ := List.map_eq_cons_iff.mp hrest
  obtain ⟨cur, co, hfst⟩ := findPage_fst t offset
  have hsnd : (findPage t offset).2 = (pre.length, off) := by
    have := congrArg Prod.snd hfind
    simpa using this
  have hmem : findPage t offset = ({ t with curPage := cur, curOffset := co }, pre.length, off) := Prod.ext hfst hsnd
  exact ⟨pre, p, post, off, cur, co, hc, hoff, hlt, hmem, by rw [view_findPage, hmem]⟩

/-! ## Reading and writing -/

/-- The bytes of a page are read as they are seen. -/
theorem load_page {p : Page} (hp : p.Placed h) (off n : Nat) (hle : off + n ≤ p.size) :
    Returns (load (p.data.add off) n) h fun xs h' => xs = slice (p.view h).data off n ∧ h' = h := by
  have hsrc := hp.source off n hle
  have hlen : (slice (p.view h).data off n).length = n := length_slice _ (by rw [hp.length_data]; exact hle)
  have hload := hsrc.load (Nat.le_of_eq hlen.symm)
  rw [List.take_of_length_le (Nat.le_of_eq hlen)] at hload
  exact hload

/-- The reading loop. -/
theorem rwRead_spec {ps : List Page} (hps : ∀ p ∈ ps, p.Placed h) (off size : Nat) (hf : ∀ p, ps.head? = some p → off ≤ p.size)
    (ho : off + size ≤ tableSize (ps.map (·.view h))) :
    Returns (rwRead ps off size) h fun xs h' => xs = Hoe.rwRead (ps.map (·.view h)) off size ∧ h' = h := by
  induction ps generalizing off size with
  | nil =>
    rw [List.map_nil, tableSize_nil] at ho
    rw [rwRead, if_pos (by omega)]
    exact Returns.pure ⟨rfl, rfl⟩
  | cons p ps ih =>
    rw [List.map_cons, tableSize_cons, view_size] at ho
    have hle := hf p rfl
    obtain ⟨len, hlen⟩ : ∃ len, len = min (p.size - off) size := ⟨_, rfl⟩
    unfold rwRead
    simp only [List.map_cons, Hoe.rwRead, view_size, ← hlen]
    by_cases hz : size = 0
    · simp only [if_pos hz]
      exact Returns.pure ⟨rfl, rfl⟩
    simp only [if_neg hz]
    refine (load_page (hps p (by simp)) off len (by omega)).bind ?_
    rintro xs _ ⟨rfl, rfl⟩
    by_cases hnext : p.size ≤ off + len
    · simp only [if_pos hnext]
      refine (ih (fun q hq => hps q (by simp [hq])) 0 (size - len) (fun _ _ => Nat.zero_le _) (by omega)).bind ?_
      rintro ys _ ⟨rfl, rfl⟩
      exact Returns.pure ⟨rfl, rfl⟩
    · simp only [if_neg hnext]
      exact Returns.pure ⟨rfl, rfl⟩

/-- The writing loop. -/
theorem rwWrite_spec {ps : List Page} (hps : Table h ps) (hw : h.Willing) (off : Nat) (buf : List Byte)
    (hf : ∀ p, ps.head? = some p → off ≤ p.size) (ho : off + buf.length ≤ tableSize (ps.map (·.view h))) :
    Returns (rwWrite ps off buf) h fun ps' h' =>
      Edit ps ps' h h' ∧ ps'.map (·.view h') = Hoe.rwWrite (ps.map (·.view h)) off buf := by
  induction ps generalizing h off buf with
  | nil =>
    rw [List.map_nil, tableSize_nil] at ho
    rw [rwWrite, if_pos (by omega)]
    exact Returns.pure ⟨Edit.refl hps, rfl⟩
  | cons p ps ih =>
    rw [List.map_cons, tableSize_cons, view_size] at ho
    have hle := hf p rfl
    have hp := hps.placed p (by simp)
    obtain ⟨len, hlen⟩ : ∃ len, len = min (p.size - off) buf.length := ⟨_, rfl⟩
    unfold rwWrite
    simp only [List.map_cons, Hoe.rwWrite, view_size, ← hlen]
    by_cases hz : buf.length = 0
    · simp only [if_pos hz]
      exact Returns.pure ⟨Edit.refl hps, rfl⟩
    simp only [if_neg hz]
    refine (updatePage_spec hp hw).bind ?_
    rintro _ h₁ ⟨k, rfl, ho₁, hf₁⟩
    have hstore : off + (buf.take len).length ≤ (p.view h).data.length := by
      rw [List.length_take, hp.length_data]
      omega
    change Returns (store ((⟨k, 0⟩ : Ptr).add off) _ >>= _) _ _
    rw [Ptr.add_start]
    refine (store_rule ho₁ hstore).bind ?_
    rintro _ h₂ ⟨ho₂, hf₂⟩
    have hsize := (Block.length_memcpy _ _ hstore).trans hp.length_data
    have he : Edit [p] [ownPage p p.size k] h h₂ := Edit.ownPage ho₂ hsize (hf₁.trans hf₂)
    obtain ⟨-, hkept⟩ := he.cut_view (a := []) (b := ps) hps
    have hview := (ownPage_spec p ho₂ hsize (h := h)).2
    have hcut : Edit (p :: ps) (ownPage p p.size k :: ps) h h₂ := he.cut_left (b := ps) hps
    have hfits : (ownPage p p.size k).size = p.size := rfl
    by_cases hnext : p.size ≤ off + len
    · simp only [if_pos hnext, hfits]
      have hrest : Table h₂ ps := hcut.table.tail
      have hlater := ih hrest (hcut.frame.willing hw) 0 (buf.drop len) (fun _ _ => Nat.zero_le _) (by
        rw [hkept, List.length_drop]
        omega)
      refine hlater.bind ?_
      rintro ps' h₃ ⟨he', hvals⟩
      obtain ⟨hcons, hown⟩ := he'.cons hcut.table
      refine Returns.pure ⟨hcut.trans hcons, ?_⟩
      rw [List.map_cons, hown, hview, hvals, hkept]
      rfl
    · simp only [if_neg hnext, hfits]
      refine Returns.pure ⟨hcut, ?_⟩
      rw [List.map_cons, hview, hkept]
      rfl

/-- `eb_read`. -/
theorem ebRead_spec {t : Pages} (ht : ∀ p ∈ t.pageTable, p.Placed h) (hok : (t.view h).Ok) {offset : Nat} (size : Nat)
    (ho : offset ≤ t.totalSize) :
    Returns (ebRead t offset size) h fun r h' =>
      r.1.pageTable = t.pageTable ∧ Hoe.ebRead (t.view h) offset size = (r.1.view h, r.2) ∧ h' = h := by
  have hsz : Hoe.rwSize (t.view h) offset size = rwSize t offset size := rfl
  unfold ebRead
  simp only [Hoe.ebRead, hsz]
  by_cases hz : rwSize t offset size = 0
  · simp only [if_pos hz]
    exact Returns.pure ⟨rfl, rfl, rfl⟩
  simp only [if_neg hz]
  have htotal : t.totalSize = tableSize (t.view h).pageTable := hok.total
  have hin : offset + rwSize t offset size ≤ t.totalSize := by
    unfold rwSize
    split <;> omega
  obtain ⟨pre, p, post, off, cur, co, hc, hoff, hlt, hfind, hview⟩ := findPage_spec hok.toTableOk offset (by omega)
  rw [hfind, hview]
  have hdrop : t.pageTable.drop pre.length = p :: post := by rw [hc, List.drop_left]
  rw [view_pageTable, hc, List.map_append, tableSize_append] at htotal
  simp only [view_pageTable, ← List.map_drop, hdrop]
  have hpost : ∀ q ∈ p :: post, q.Placed h := by
    intro q hq
    exact ht q (by rw [hc]; exact List.mem_append_right _ hq)
  refine (rwRead_spec hpost off (rwSize t offset size) (by rintro q ⟨⟩; omega) (by omega)).bind ?_
  rintro xs _ ⟨rfl, rfl⟩
  exact Returns.pure ⟨rfl, rfl, rfl⟩

/-- The writing part of `eb_rw`. -/
theorem writePages_spec {t : Pages} (ht : Table h t.pageTable) (hok : (t.view h).Ok) (hw : h.Willing) (offset : Nat)
    {buf : List Byte} (hb : 0 < buf.length) (ho : offset + buf.length ≤ t.totalSize) :
    Returns (writePages t offset buf) h fun t' h' =>
      Edit t.pageTable t'.pageTable h h' ∧ t'.view h' = Hoe.writePages (t.view h) offset buf := by
  have htotal : t.totalSize = tableSize (t.view h).pageTable := hok.total
  obtain ⟨pre, p, post, off, cur, co, hc, hoff, hlt, hfind, hview⟩ := findPage_spec hok.toTableOk offset (by omega)
  unfold writePages
  simp only [Hoe.writePages, hfind, hview]
  have hdrop : t.pageTable.drop pre.length = p :: post := by rw [hc, List.drop_left]
  have htake : t.pageTable.take pre.length = pre := by rw [hc, List.take_left]
  rw [view_pageTable, hc, List.map_append, tableSize_append] at htotal
  simp only [view_pageTable, ← List.map_drop, ← List.map_take, hdrop, htake]
  rw [hc] at ht
  refine (rwWrite_spec ht.right hw off buf (by rintro q ⟨⟩; omega) (by omega)).bind ?_
  rintro ps h' ⟨he, hvals⟩
  refine Returns.pure ⟨by rw [hc]; exact he.cut_right ht, ?_⟩
  have hpre := (he.cut_view (b := []) (by simpa using ht)).1
  simp only [Pages.view, List.map_append, hvals, hpre]

/-! ## `eb_insert1` -/

theorem take_min_length (bs : List Byte) (n : Nat) : bs.take (min bs.length n) = bs.take n := by
  rcases Nat.le_total bs.length n with h | h
  · rw [Nat.min_eq_left h, List.take_length, List.take_of_length_le h]
  · rw [Nat.min_eq_right h]

theorem drop_min_length (bs : List Byte) (n : Nat) : bs.drop (min bs.length n) = bs.drop n := by
  rcases Nat.le_total bs.length n with h | h
  · rw [Nat.min_eq_left h, List.drop_length, List.drop_of_length_le h]
  · rw [Nat.min_eq_right h]

/-- Pages are filled with what the source holds. -/
theorem fillPages_spec {n : Nat} {buf : Source} {bs : List Byte} (hb : buf.Holds h bs) :
    Returns (fillPages n buf bs.length) h fun ps h' => Edit [] ps h h' ∧ ps.map (·.view h') = Hoe.fillPages n bs := by
  induction n generalizing h buf bs with
  | zero => exact Returns.pure ⟨Edit.refl (Table.nil h), rfl⟩
  | succ n ih =>
    have hap : buf.Apart [] := by cases buf <;> simp [Source.Apart]
    have hlen : (bs.take (min bs.length maxPageSize)).length = min bs.length maxPageSize := by simp
    unfold fillPages
    refine (malloc_rule 0 (min bs.length maxPageSize) h).bind ?_
    rintro _ h₁ ⟨k, rfl, ho, hf⟩
    obtain ⟨hb₁, hap₁⟩ := hb.kept hap hf
    refine (hb₁.load (Nat.min_le_left _ _)).bind ?_
    rintro xs _ ⟨rfl, rfl⟩
    refine (store_rule ho (by rw [hlen, List.length_replicate, Nat.zero_add])).bind ?_
    rintro _ h₂ ⟨ho₂, hf₂⟩
    obtain ⟨hb₂, -⟩ := hb₁.kept hap₁ hf₂
    rw [Block.memcpy, overwriteAt_whole (by simp)] at ho₂
    have hdrop : bs.length - min bs.length maxPageSize = (bs.drop (min bs.length maxPageSize)).length := by simp
    rw [hdrop]
    refine (ih (hb₂.drop (Nat.min_le_left _ _))).bind ?_
    rintro ps h₃ ⟨he, hview⟩
    obtain ⟨hplaced, hnew⟩ := newPage_spec ho₂ hlen
    have he₁ : Edit [] [newPage (min bs.length maxPageSize) ⟨k, 0⟩] h h₂ := ⟨hf.trans hf₂, Table.single hplaced⟩
    obtain ⟨hcons, hkept⟩ := he.cons he₁.table
    refine Returns.pure ⟨he₁.trans hcons, ?_⟩
    rw [List.map_cons, hkept, hnew, hview, take_min_length, drop_min_length, Hoe.fillPages]

/-- One page of the table changes. -/
theorem Edit.view_setPage {h' : Heap Byte} {t : Pages} {pre post : List Page} {p q : Page} (hc : t.pageTable = pre ++ p :: post)
    (ht : Table h t.pageTable) (he : Edit [p] [q] h h') :
    (t.setPage pre.length q).view h' = (t.view h).setPage pre.length (q.view h') := by
  rw [hc, List.append_cons] at ht
  obtain ⟨ha, hb⟩ := he.cut_view ht
  have hlen : (pre.map (·.view h)).length = pre.length := List.length_map ..
  simp only [Pages.view, Pages.setPage, Hoe.Pages.setPage, hc, List.set_append_right, Nat.le_refl, Nat.sub_self, List.set_cons_zero,
    List.map_append, List.map_cons, ha, hb, hlen]

/-- The first half of `eb_insert1`, on a table cut at the page. -/
theorem prependPage_spec {t : Pages} {pre post : List Page} (hc : t.pageTable = pre ++ post) (ht : Table h t.pageTable)
    (hn : t.nbPages = t.pageTable.length) (hw : h.Willing) {buf : Source} {bs : List Byte} (hb : buf.Holds h bs)
    (ha : buf.Apart (owned post)) :
    Returns (prependPage t pre.length buf bs.length) h fun r h' =>
      ∃ post', r.1 = { t with pageTable := pre ++ post' } ∧ post'.length = post.length ∧ Edit post post' h h' ∧
        r.2 ≤ bs.length ∧ Hoe.prependPage (t.view h) pre.length bs = (r.1.view h', bs.take r.2) := by
  have hview : (t.view h).nbPages = t.nbPages := rfl
  have hsame : { t with pageTable := pre ++ post } = t := by rw [← hc]
  have hpost : Table h post := by
    rw [hc] at ht
    exact ht.right
  unfold prependPage
  cases post with
  | nil =>
    have hlt : ¬pre.length < t.nbPages := by rw [hn, hc]; simp
    rw [if_neg hlt]
    refine Returns.pure ⟨[], hsame.symm, rfl, Edit.refl hpost, Nat.le_refl _, ?_⟩
    rw [Hoe.prependPage, hview, if_neg hlt, List.take_length]
  | cons p post =>
    have hlt : pre.length < t.nbPages := by rw [hn, hc]; simp
    rw [if_pos hlt, page_rule hc, pure_bind]
    obtain ⟨len, hlen⟩ : ∃ len, len = min (maxPageSize - p.size) bs.length := ⟨_, rfl⟩
    have hle : len ≤ bs.length := by omega
    simp only [← hlen]
    by_cases hpos : 0 < len
    · rw [if_pos hpos]
      have hp := hpost.placed p (by simp)
      have hap : buf.Apart p.owns := ha.mono fun k hk => by simp [hk]
      have hxs : (bs.drop (bs.length - len)).length = len := by rw [List.length_drop]; omega
      have hgap := openGap_spec hp hw (hb.drop (Nat.sub_le _ len)) (hap.drop _) (p.size + len) 0 (by omega)
      rw [hxs] at hgap
      refine hgap.bind ?_
      rintro q h₁ ⟨he, hq⟩
      refine Returns.pure ⟨q :: post, ?_, by simp, he.cut_left hpost, Nat.sub_le _ _, ?_⟩
      · simp [Pages.setPage, hc]
      · rw [he.view_setPage hc ht, hq]
        simp only [Hoe.prependPage, hview, if_pos hlt, view_page hc, view_size, ← hlen, if_pos hpos, remade]
        rw [Nat.zero_add, Nat.add_sub_cancel]
    · rw [if_neg hpos]
      refine Returns.pure ⟨p :: post, hsame.symm, rfl, Edit.refl hpost, Nat.le_refl _, ?_⟩
      simp only [Hoe.prependPage, hview, if_pos hlt, view_page hc, view_size, ← hlen, if_neg hpos, List.take_length]

/-- A text none of whose pages changes. -/
theorem Table.view_kept {h' : Heap Byte} {own own' : List Nat} {t : Pages} (ht : Table h t.pageTable) (hf : Frame own own' h h')
    (hd : List.Disjoint (owned t.pageTable) own) : t.view h' = t.view h := by
  simp only [Pages.view, (ht.kept hf hd).2]

/-- `eb_insert1`, on a table cut at the page. -/
theorem ebInsert1_spec {t : Pages} {pre post : List Page} (hc : t.pageTable = pre ++ post) (ht : Table h t.pageTable)
    (hn : t.nbPages = t.pageTable.length) (hw : h.Willing) {buf : Source} {bs : List Byte} (hb : buf.Holds h bs)
    (ha : buf.Apart (owned post)) :
    Returns (ebInsert1 t pre.length buf bs.length) h fun t' h' =>
      ∃ post', t' = { t with pageTable := pre ++ post', nbPages := (pre ++ post').length } ∧ Edit post post' h h' ∧
        t'.view h' = Hoe.ebInsert1 (t.view h) pre.length bs := by
  unfold ebInsert1
  refine (prependPage_spec hc ht hn hw hb ha).bind ?_
  rintro ⟨t₁, size⟩ h₁ ⟨post₁, ht₁, hlen, he, hle, hval⟩
  simp only at ht₁ hle hval ⊢
  rw [hc] at ht
  have htab₁ : Table h₁ (pre ++ post₁) := (he.cut_right ht).table
  have hn₁ : t₁.nbPages = t₁.pageTable.length := by rw [ht₁]; simp [hn, hc, hlen]
  have hsize : (bs.take size).length = size := by rw [List.length_take]; omega
  by_cases hpos : 0 < pagesFor size
  · rw [if_pos hpos]
    have hfill := fillPages_spec (n := pagesFor size) (((hb.kept ha he.frame).1).take size)
    rw [hsize] at hfill
    refine hfill.bind ?_
    rintro ps h₂ ⟨he₂, hps⟩
    have hkept : t₁.view h₂ = t₁.view h₁ := by
      refine Table.view_kept (by rw [ht₁]; exact htab₁) he₂.frame ?_
      simp
    have hcut₁ : t₁.pageTable = pre ++ post₁ := by rw [ht₁]
    have hins := insertPages_table hcut₁ hn₁ ps
    refine Returns.pure ⟨ps ++ post₁, ?_, he.trans (he₂.cut_left (b := post₁) he.table), ?_⟩
    · rw [hins, ht₁, List.append_assoc]
    · rw [view_insertPages, hkept, hps]
      simp only [Hoe.ebInsert1, hval, hsize, if_pos hpos]
  · rw [if_neg hpos]
    refine Returns.pure ⟨post₁, ?_, he, ?_⟩
    · rw [ht₁]
      simp [hn, hc, hlen]
    · simp only [Hoe.ebInsert1, hval, hsize, if_neg hpos]

/-! ## `eb_insert_lowlevel` -/

/-- The part for the page in front of the offset, on a table cut at it. -/
theorem insertInPage_spec {t : Pages} {pre post : List Page} {p : Page} (hc : t.pageTable = pre ++ p :: post)
    (ht : Table h t.pageTable) (hn : t.nbPages = t.pageTable.length) (hw : h.Willing) {buf : Source} {bs : List Byte}
    (hb : buf.Holds h bs) (ha : buf.Apart (owned (p :: post))) (offset : Nat) (ho : offset ≤ p.size)
    (hmax : p.size ≤ maxPageSize) :
    Returns (insertInPage t pre.length offset buf bs.length) h fun r h' =>
      ∃ q mid, r.1 = { t with pageTable := pre ++ q :: mid, nbPages := (pre ++ q :: mid).length } ∧
        Edit (p :: post) (q :: mid) h h' ∧ r.2 ≤ bs.length ∧
        Hoe.insertInPage (t.view h) pre.length offset bs = (r.1.view h', bs.drop r.2) := by
  have hc' : t.pageTable = (pre ++ [p]) ++ post := by rw [hc]; simp
  have hrest : Table h (p :: post) := by
    rw [hc] at ht
    exact ht.right
  have hp := hrest.placed p (by simp)
  have hdis : List.Disjoint p.owns (owned post) := hrest.head_disjoint
  obtain ⟨len, hlen⟩ : ∃ len, len = min (maxPageSize - offset) bs.length := ⟨_, rfl⟩
  obtain ⟨lenOut, hout⟩ : ∃ lenOut, lenOut = p.size + len - maxPageSize := ⟨_, rfl⟩
  unfold insertInPage
  rw [page_rule hc, pure_bind]
  simp only [← hlen, ← hout]
  -- the tail that does not fit
  have hpush : Returns (if 0 < lenOut then ebInsert1 t (pre.length + 1) (.data (p.data.add (p.size - lenOut))) lenOut else pure t) h
      fun t₁ h₁ => ∃ post₁, t₁ = { t with pageTable := pre ++ p :: post₁, nbPages := (pre ++ p :: post₁).length } ∧
        Edit post post₁ h h₁ ∧ t₁.view h₁ = if 0 < lenOut then
          Hoe.ebInsert1 (t.view h) (pre.length + 1) (slice (p.view h).data (p.size - lenOut) lenOut) else t.view h := by
    by_cases hpos : 0 < lenOut
    · rw [if_pos hpos, if_pos hpos]
      have hsrc := hp.source (p.size - lenOut) lenOut (by omega)
      have hlength : (slice (p.view h).data (p.size - lenOut) lenOut).length = lenOut :=
        length_slice _ (by rw [hp.length_data]; omega)
      have hins := ebInsert1_spec hc' ht hn hw hsrc (hp.apart (fun q hq => hrest.placed q (by simp [hq])) hdis)
      rw [hlength, List.length_append, List.length_singleton] at hins
      refine hins.mono ?_
      rintro t₁ h₁ ⟨post₁, ht₁, he, hval⟩
      exact ⟨post₁, by rw [ht₁]; simp, he, hval⟩
    · rw [if_neg hpos, if_neg hpos]
      exact Returns.pure ⟨post, by rw [← hc, ← hn], Edit.refl hrest.tail, rfl⟩
  refine hpush.bind ?_
  rintro t₁ h₁ ⟨post₁, ht₁, he, hval⟩
  have htab : Table h (pre ++ (p :: post)) := by rwa [hc] at ht
  have he₁ : Edit (p :: post) (p :: post₁) h h₁ := he.cut_right (a := [p]) hrest
  have hc₁ : t₁.pageTable = pre ++ p :: post₁ := by rw [ht₁]
  have htab₁ : Table h₁ t₁.pageTable := by
    rw [hc₁]
    exact (he₁.cut_right htab).table
  obtain ⟨hp₁, hpv⟩ := hp.kept he.frame hdis
  have hvals : Hoe.insertInPage (t.view h) pre.length offset bs =
      (if 0 < len then (t₁.view h₁).setPage pre.length (remade (p.view h₁) (p.size + (len - lenOut))
        (Block.memcpy (Block.memmove (Block.realloc 0 (p.view h₁).data (p.size + (len - lenOut))) (offset + len) offset
          (p.size + (len - lenOut) - (offset + len))) offset (bs.take len))) else t₁.view h₁, bs.drop len) := by
    simp only [Hoe.insertInPage, view_page hc, view_size, ← hlen, ← hout, ← hval, view_page hc₁]
    rfl
  rw [hvals]
  by_cases hpos : 0 < len
  · have htake : (bs.take len).length = len := by rw [List.length_take]; omega
    obtain ⟨hb₁, hap₁⟩ := hb.kept ha he₁.frame
    have hgap := openGap_spec hp₁ (he.frame.willing hw) (hb₁.take len) (hap₁.mono fun k hk => by simp [hk])
      (p.size + (len - lenOut)) offset (by omega)
    rw [htake] at hgap
    rw [if_pos hpos, if_pos hpos, page_rule hc₁, pure_bind]
    refine hgap.bind ?_
    rintro q h₂ ⟨he₂, hq⟩
    refine Returns.pure ⟨q, post₁, ?_, he₁.trans (he₂.cut_left (b := post₁) he₁.table), by omega, ?_⟩
    · rw [ht₁]
      simp [Pages.setPage]
    · rw [he₂.view_setPage hc₁ htab₁, hq]
  · rw [if_neg hpos, if_neg hpos]
    exact Returns.pure ⟨p, post₁, ht₁, he₁, by omega, rfl⟩

/-- `eb_insert_lowlevel` does to the memory what it does to the view. -/
theorem ebInsertLowlevel_spec {t : Pages} (ht : Table h t.pageTable) (hok : (t.view h).TableOk) (hw : h.Willing) (offset : Nat)
    (ho : offset ≤ tableSize (t.view h).pageTable) {buf : Source} {bs : List Byte} (hb : buf.Holds h bs)
    (ha : buf.Apart (owned t.pageTable)) :
    Returns (ebInsertLowlevel t offset buf bs.length) h fun t' h' =>
      Edit t.pageTable t'.pageTable h h' ∧ t'.view h' = Hoe.ebInsertLowlevel (t.view h) offset bs := by
  obtain ⟨t₀, ht₀⟩ : ∃ t₀ : Pages, t₀ = { t with totalSize := t.totalSize + bs.length } := ⟨_, rfl⟩
  have hn₀ : t₀.nbPages = t₀.pageTable.length := by
    have := hok.nb
    rw [view_pageTable, List.length_map] at this
    rw [ht₀]
    exact this
  have hok₀ : (t₀.view h).TableOk := by
    rw [ht₀]
    exact ⟨hok.pages, hok.nb, hok.cache⟩
  have htab₀ : Table h t₀.pageTable := by rw [ht₀]; exact ht
  have hsame : t₀.pageTable = t.pageTable := by rw [ht₀]
  unfold ebInsertLowlevel
  simp only [← ht₀]
  -- the part in the page in front of the offset
  obtain ⟨at₀, hat₀⟩ : ∃ at₀, at₀ = findPage t₀ (offset - 1) := ⟨_, rfl⟩
  obtain ⟨view₀, hview₀⟩ : ∃ view₀, view₀ = Hoe.findPage (t₀.view h) (offset - 1) := ⟨_, rfl⟩
  obtain ⟨first, hr⟩ : ∃ first : Hoe.Pages × List Byte × Nat, first = if 0 < offset then
        ((Hoe.insertInPage view₀.1 view₀.2.1 (view₀.2.2 + 1) bs).1, (Hoe.insertInPage view₀.1 view₀.2.1 (view₀.2.2 + 1) bs).2,
          view₀.2.1 + 1)
      else (t₀.view h, bs, 0) := ⟨_, rfl⟩
  have hfirst : Returns (if 0 < offset then do
        let r ← insertInPage at₀.1 at₀.2.1 (at₀.2.2 + 1) buf bs.length
        pure (r.1, r.2, at₀.2.1 + 1)
      else pure (t₀, 0, 0)) h fun r h₁ =>
      ∃ pre post, r.1.pageTable = pre ++ post ∧ r.2.2 = pre.length ∧ r.1.nbPages = r.1.pageTable.length ∧
        Edit t.pageTable r.1.pageTable h h₁ ∧ r.2.1 ≤ bs.length ∧
        first = (r.1.view h₁, bs.drop r.2.1, r.2.2) := by
    rw [hr]
    by_cases hpos : 0 < offset
    · rw [if_pos hpos, if_pos hpos]
      obtain ⟨pre, p, post, off, cur, co, hc, -, hlt, hfind, hview⟩ := findPage_spec hok₀ (offset - 1) (by
        rw [view_pageTable, hsame]
        rw [view_pageTable] at ho
        omega)
      rw [hfind] at hat₀
      rw [hview] at hview₀
      rw [hat₀, hview₀]
      have hpage : p ∈ t₀.pageTable := by simp [hc]
      have hmax : p.size ≤ maxPageSize := (hok₀.pages (p.view h) (List.mem_map_of_mem hpage)).le
      have hap : buf.Apart (owned (p :: post)) := by
        refine ha.mono fun k hk => ?_
        rw [← hsame, hc, owned_append]
        exact List.mem_append_right _ hk
      refine (insertInPage_spec (t := { t₀ with curPage := cur, curOffset := co }) hc htab₀ hn₀ hw hb hap (off + 1)
        hlt hmax).bind ?_
      rintro ⟨t₁, len⟩ h₁ ⟨q, mid, ht₁, he, hle, hval⟩
      simp only at ht₁ hle hval ⊢
      rw [hc] at htab₀
      refine Returns.pure ⟨pre ++ [q], mid, by rw [ht₁]; simp, by simp, by rw [ht₁], ?_, hle, by rw [hval]⟩
      rw [← hsame, hc, ht₁]
      exact he.cut_right htab₀
    · rw [if_neg hpos, if_neg hpos]
      exact Returns.pure ⟨[], t₀.pageTable, rfl, rfl, hn₀, by rw [hsame]; exact Edit.refl ht, Nat.zero_le _, rfl⟩
  rw [hat₀] at hfirst
  refine hfirst.bind ?_
  rintro ⟨t₁, len, pageIndex⟩ h₁ ⟨pre, post, hc₁, hindex, hn₁, he₁, hle, hval⟩
  simp only at hc₁ hindex hn₁ he₁ hle hval ⊢
  have hvals : Hoe.ebInsertLowlevel (t.view h) offset bs =
      { (if 0 < (bs.drop len).length then Hoe.ebInsert1 (t₁.view h₁) pageIndex (bs.drop len) else t₁.view h₁) with
        curPage := none } := by
    have htot : ({ t.view h with totalSize := (t.view h).totalSize + bs.length } : Hoe.Pages) = t₀.view h := by
      rw [ht₀]
      rfl
    have hparts : Hoe.ebInsertLowlevel (t.view h) offset bs =
        { (if 0 < first.2.1.length then Hoe.ebInsert1 first.1 first.2.2 first.2.1 else first.1) with curPage := none } := by
      rw [hr, hview₀, ← htot]
      rfl
    rw [hparts, hval]
  rw [hvals, ← List.length_drop]
  by_cases hpos : 0 < (bs.drop len).length
  · obtain ⟨hb₁, ha₁⟩ := hb.kept ha he₁.frame
    have hap : (buf.drop len).Apart (owned post) := by
      refine (ha₁.drop len).mono fun k hk => ?_
      rw [hc₁, owned_append]
      exact List.mem_append_right _ hk
    have hins := ebInsert1_spec hc₁ he₁.table hn₁ (he₁.frame.willing hw) (hb₁.drop hle) hap
    rw [if_pos hpos, if_pos hpos, hindex]
    refine hins.bind ?_
    rintro t₂ h₂ ⟨post₂, ht₂, he₂, hval₂⟩
    refine Returns.pure ⟨?_, by rw [← hval₂]; rfl⟩
    have htab : Table h₁ (pre ++ post) := by
      rw [← hc₁]
      exact he₁.table
    rw [hc₁] at he₁
    rw [ht₂]
    exact he₁.trans (he₂.cut_right htab)
  · rw [if_neg hpos, if_neg hpos]
    exact Returns.pure ⟨he₁, rfl⟩

end Hoe.InMemory
