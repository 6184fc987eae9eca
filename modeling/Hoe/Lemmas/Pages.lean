import Hoe.Pages

/-!
# The page table

What keeps a page table well formed, and that the functions on it are splices.
-/

namespace Hoe

/-!
## What keeps a page table well formed

`Pages.Ok` is the invariant of the representation: every page holds between one byte and `maxPageSize` bytes, the two counts
kept beside the table are right, and the page cache is empty or names the page that starts at its offset. Every function of
`Hoe.Pages` keeps it, and does to the bytes of the text what the corresponding splice does.
-/

open Splice Block

/-- A page holds its bytes, at least one and at most `maxPageSize`. -/
structure Page.Ok (p : Page) : Prop where
  pos : 0 < p.size
  le : p.size ≤ maxPageSize
  data : p.data.length = p.size

/-- The bytes of a page table. -/
def tableBytes (ps : List Page) : List Byte := ps.flatMap (·.data)

/-- The sum of the page sizes of a page table. -/
def tableSize (ps : List Page) : Nat := (ps.map (·.size)).sum

/-- The page cache is empty, or names the page that starts at its offset. -/
def Pages.CacheOk (t : Pages) : Prop :=
  ∀ i, t.curPage = some i → i < t.pageTable.length ∧ t.curOffset = tableSize (t.pageTable.take i)

/-- A page table with its cache, whatever the total size says. -/
structure Pages.TableOk (t : Pages) : Prop where
  pages : ∀ p ∈ t.pageTable, p.Ok
  nb : t.nbPages = t.pageTable.length
  cache : t.CacheOk

/-- The invariant of the representation of a text. -/
structure Pages.Ok (t : Pages) : Prop extends Pages.TableOk t where
  total : t.totalSize = tableSize t.pageTable

/-! ### Bytes and sizes of a table -/

@[simp] theorem tableBytes_nil : tableBytes [] = [] := rfl

@[simp] theorem tableBytes_cons (p : Page) (ps : List Page) : tableBytes (p :: ps) = p.data ++ tableBytes ps := rfl

@[simp] theorem tableBytes_append (ps qs : List Page) : tableBytes (ps ++ qs) = tableBytes ps ++ tableBytes qs := by
  simp [tableBytes]

@[simp] theorem tableSize_nil : tableSize [] = 0 := rfl

@[simp] theorem tableSize_cons (p : Page) (ps : List Page) : tableSize (p :: ps) = p.size + tableSize ps := by
  simp [tableSize]

@[simp] theorem tableSize_append (ps qs : List Page) : tableSize (ps ++ qs) = tableSize ps + tableSize qs := by
  simp [tableSize]

theorem Pages.bytes_eq (t : Pages) : t.bytes = tableBytes t.pageTable := rfl

/-- A table of well-formed pages has as many bytes as its page sizes say. -/
theorem length_tableBytes {ps : List Page} (h : ∀ p ∈ ps, p.Ok) : (tableBytes ps).length = tableSize ps := by
  induction ps with
  | nil => rfl
  | cons p ps ih =>
    rw [tableBytes_cons, tableSize_cons, List.length_append, (h p (by simp)).data,
      ih (fun q hq => h q (List.mem_cons_of_mem p hq))]

/-- The pages have as many bytes as their sizes say. -/
theorem Pages.TableOk.length_bytes {t : Pages} (h : t.TableOk) : t.bytes.length = tableSize t.pageTable :=
  length_tableBytes h.pages

/-- The text has `totalSize` bytes. -/
theorem Pages.Ok.length_bytes {t : Pages} (h : t.Ok) : t.bytes.length = t.totalSize := by
  rw [t.bytes_eq, length_tableBytes h.pages, h.total]

theorem Pages.ok_empty : Pages.empty.Ok :=
  ⟨⟨by simp [Pages.empty], rfl, by simp [Pages.CacheOk, Pages.empty]⟩, rfl⟩

/-- An offset inside a table lies in one of its pages. -/
theorem exists_page {ps : List Page} {offset : Nat} (h : offset < tableSize ps) :
    ∃ pre p post off, ps = pre ++ p :: post ∧ offset = tableSize pre + off ∧ off < p.size := by
  induction ps generalizing offset with
  | nil => simp at h
  | cons p ps ih =>
    by_cases hp : offset < p.size
    · exact ⟨[], p, ps, offset, rfl, by simp, hp⟩
    · rw [tableSize_cons] at h
      obtain ⟨pre, q, post, off, rfl, ho, hq⟩ := ih (show offset - p.size < tableSize ps by omega)
      exact ⟨p :: pre, q, post, off, rfl, by rw [tableSize_cons]; omega, hq⟩

/-- A page of a table cut at it. -/
theorem page_of_cut {t : Pages} {pre post : List Page} {p : Page} (h : t.pageTable = pre ++ p :: post) :
    t.page pre.length = p := by
  simp [Pages.page, h]

/-! ### Finding a page -/

/-- The page of an offset, in a table that is cut there. -/
theorem seekPage_cut (pre : List Page) (p : Page) (post : List Page) {off : Nat} (h : off < p.size) :
    seekPage (pre ++ p :: post) (tableSize pre + off) = (pre.length, off) := by
  induction pre with
  | nil => simp [seekPage, h]
  | cons q pre ih =>
    have hq : q.size + tableSize pre + off - q.size = tableSize pre + off := by omega
    have hle : q.size ≤ q.size + tableSize pre + off := by omega
    rw [List.cons_append, tableSize_cons, seekPage, if_pos hle, hq, ih, List.length_cons]

/-- `find_page` finds the page the offset lies in, with or without the help of the cache, and leaves the cache on it. -/
theorem findPage_cut {t : Pages} (ht : t.CacheOk) {pre post : List Page} {p : Page} (hc : t.pageTable = pre ++ p :: post)
    {off : Nat} (h : off < p.size) :
    findPage t (tableSize pre + off) =
      ({ t with curPage := some pre.length, curOffset := tableSize pre }, pre.length, off) := by
  have hseek : seekPage t.pageTable (tableSize pre + off) = (pre.length, off) := by rw [hc, seekPage_cut pre p post h]
  have hsearch : searchPage t (tableSize pre + off) =
      ({ t with curPage := some pre.length, curOffset := tableSize pre }, pre.length, off) := by
    simp only [searchPage, hseek, Nat.add_sub_cancel]
  unfold findPage
  cases hcur : t.curPage with
  | none => exact hsearch
  | some i =>
    simp only
    split
    · -- the cached page holds the offset too, so it is the page that a search finds
      rename_i hin
      obtain ⟨hi, ho⟩ := ht i hcur
      have hcut : t.pageTable = t.pageTable.take i ++ t.page i :: t.pageTable.drop (i + 1) := by
        rw [Pages.page, List.getD_eq_getElem _ _ hi, List.getElem_cons_drop, List.take_append_drop]
      have h2 := seekPage_cut (t.pageTable.take i) (t.page i) (t.pageTable.drop (i + 1))
        (show tableSize pre + off - t.curOffset < (t.page i).size by omega)
      rw [← hcut, ← ho, show t.curOffset + (tableSize pre + off - t.curOffset) = tableSize pre + off by omega,
        hseek, List.length_take, Nat.min_eq_left (Nat.le_of_lt hi)] at h2
      obtain ⟨h3, h4⟩ := Prod.mk.inj h2
      obtain rfl : i = pre.length := h3.symm
      have h5 : t.curOffset = tableSize pre := by omega
      rw [← h4, ← h5, ← hcur]
    · exact hsearch

/-- `find_page` changes the cache only, and leaves it right. -/
theorem Pages.TableOk.of_cache {t : Pages} (ht : t.TableOk) {pre post : List Page} {p : Page}
    (hc : t.pageTable = pre ++ p :: post) :
    ({ t with curPage := some pre.length, curOffset := tableSize pre } : Pages).TableOk := by
  refine ⟨ht.pages, ht.nb, ?_⟩
  intro i hi
  obtain rfl : pre.length = i := by simpa using hi
  exact ⟨by simp [hc], by simp [hc]⟩

/-- Any page may be in the cache, with its offset. -/
theorem Pages.Ok.of_cache {t : Pages} (ht : t.Ok) {pre post : List Page} {p : Page}
    (hc : t.pageTable = pre ++ p :: post) :
    ({ t with curPage := some pre.length, curOffset := tableSize pre } : Pages).Ok :=
  ⟨ht.toTableOk.of_cache hc, ht.total⟩

/-!
## The functions on the page table are splices

One lemma for each function of `Hoe.Pages`: on a well-formed text it leaves a well-formed text, and the bytes are those of
the splice it stands for. The helpers speak of a table cut at the page the function works on.
-/

open Splice Block

/-! ### Reading -/

/-- The reading loop returns the slice, whatever the pages. -/
theorem rwRead_eq {ps : List Page} (h : ∀ p ∈ ps, p.Ok) (off size : Nat) (hf : ∀ p, ps.head? = some p → off < p.size)
    (ho : off + size ≤ tableSize ps) : rwRead ps off size = slice (tableBytes ps) off size := by
  induction ps generalizing off size with
  | nil => simp [rwRead, slice]
  | cons p ps ih =>
    have hp := h p (by simp)
    have hps : ∀ q ∈ ps, q.Ok := fun q hq => h q (List.mem_cons_of_mem p hq)
    have hoff : off < p.size := hf p rfl
    rw [tableSize_cons] at ho
    rw [rwRead, tableBytes_cons]
    by_cases hs : size = 0
    · simp [hs, slice]
    rw [if_neg hs]
    by_cases hle : p.size - off ≤ size
    · -- the rest of this page, then the next pages
      have hnext := ih hps 0 (size - (p.size - off))
        (fun q hq => (hps q (List.mem_of_mem_head? hq)).pos) (by omega)
      have hd : (p.data.drop off).length = p.size - off := by rw [List.length_drop, hp.data]
      simp only [Nat.min_eq_left hle]
      rw [if_pos (by omega), hnext]
      simp only [slice, List.drop_zero]
      rw [List.drop_append_of_le_length (by rw [hp.data]; omega), List.take_append, hd,
        List.take_of_length_le (by omega), List.take_of_length_le (l := p.data.drop off) (by omega)]
    · simp only [Nat.min_eq_right (Nat.le_of_lt (Nat.lt_of_not_le hle))]
      rw [if_neg (by omega), List.append_nil]
      simp only [slice]
      rw [List.drop_append_of_le_length (by rw [hp.data]; omega),
        List.take_append_of_le_length (by rw [List.length_drop, hp.data]; omega)]

/-- `eb_read` returns the requested slice, cut at the end of the text, and changes the page cache only. -/
theorem ebRead_spec {t : Pages} (ht : t.Ok) {offset : Nat} (size : Nat) (ho : offset ≤ t.totalSize) :
    ∃ t' : Pages, ebRead t offset size = (t', slice t.bytes offset size) ∧ t'.Ok ∧ t'.pageTable = t.pageTable ∧
      t'.nbPages = t.nbPages ∧ t'.totalSize = t.totalSize := by
  have hlen := ht.length_bytes
  have hcut : slice t.bytes offset size = slice t.bytes offset (rwSize t offset size) := by
    unfold rwSize
    split
    · simp only [slice]
      rw [List.take_of_length_le (by rw [List.length_drop]; omega),
        List.take_of_length_le (by rw [List.length_drop]; omega)]
    · rfl
  have hin : offset + rwSize t offset size ≤ t.totalSize := by unfold rwSize; split <;> omega
  rw [hcut]
  by_cases hz : rwSize t offset size = 0
  · refine ⟨t, ?_, ht, rfl, rfl, rfl⟩
    simp [ebRead, hz, slice]
  · obtain ⟨pre, p, post, off, hc, hoff, hlt⟩ := exists_page (show offset < tableSize t.pageTable by
      rw [← ht.total]; omega)
    refine ⟨{ t with curPage := some pre.length, curOffset := tableSize pre }, ?_, ht.of_cache hc, rfl, rfl, rfl⟩
    have hok : ∀ q ∈ p :: post, q.Ok := fun q hq => ht.pages q (by rw [hc]; exact List.mem_append_right _ hq)
    have hpre : (tableBytes pre).length = tableSize pre :=
      length_tableBytes (fun q hq => ht.pages q (by rw [hc]; exact List.mem_append_left _ hq))
    have htot : t.totalSize = tableSize pre + tableSize (p :: post) := by rw [ht.total, hc, tableSize_append]
    have hrd := rwRead_eq hok off (rwSize t offset size)
      (fun q hq => by cases hq; exact hlt) (by omega)
    have hf := findPage_cut ht.cache hc hlt
    rw [← hoff] at hf
    have hsl (n : Nat) : slice t.bytes offset n = slice (tableBytes (p :: post)) off n := by
      rw [t.bytes_eq, hc, tableBytes_append, slice, hoff, ← hpre, List.drop_length_add_append, slice]
    simp only [ebRead, if_neg hz, hf]
    rw [hsl, ← hrd, hc, List.drop_left]

/-! ### Writing -/

/-- The writing loop overwrites the bytes and keeps the size of every page. -/
theorem rwWrite_spec {ps : List Page} (h : ∀ p ∈ ps, p.Ok) (off : Nat) (buf : List Byte)
    (hf : ∀ p, ps.head? = some p → off < p.size) (ho : off + buf.length ≤ tableSize ps) :
    (∀ p ∈ rwWrite ps off buf, p.Ok) ∧ tableBytes (rwWrite ps off buf) = overwriteAt (tableBytes ps) off buf ∧
      (rwWrite ps off buf).map (·.size) = ps.map (·.size) := by
  induction ps generalizing off buf with
  | nil =>
    have hb : buf = [] := List.eq_nil_of_length_eq_zero (by rw [tableSize_nil] at ho; omega)
    subst hb
    simp [rwWrite, overwriteAt]
  | cons p ps ih =>
    have hp := h p (by simp)
    have hps : ∀ q ∈ ps, q.Ok := fun q hq => h q (List.mem_cons_of_mem p hq)
    have hoff : off < p.size := hf p rfl
    rw [tableSize_cons] at ho
    rw [rwWrite, tableBytes_cons]
    by_cases hs : buf.length = 0
    · have hb : buf = [] := List.eq_nil_of_length_eq_zero hs
      subst hb
      rw [if_pos hs]
      exact ⟨h, by simp [overwriteAt], rfl⟩
    rw [if_neg hs]
    by_cases hle : p.size - off ≤ buf.length
    · -- this page to its end, then the next pages
      have htk : (buf.take (p.size - off)).length = p.size - off := by rw [List.length_take]; omega
      have hq : ({ updatePage p with data := memcpy p.data off (buf.take (p.size - off)) } : Page).Ok :=
        ⟨hp.pos, hp.le, by rw [memcpy, length_overwriteAt _ (by rw [htk, hp.data]; omega)]; exact hp.data⟩
      obtain ⟨i1, i2, i3⟩ := ih hps 0 (buf.drop (p.size - off))
        (fun q hq => (hps q (List.mem_of_mem_head? hq)).pos) (by rw [List.length_drop]; omega)
      simp only [Nat.min_eq_left hle]
      rw [if_pos (by omega)]
      refine ⟨?_, ?_, by simp [i3, updatePage]⟩
      · intro q hq'
        rcases List.mem_cons.1 hq' with rfl | hq'
        · exact hq
        · exact i1 q hq'
      · rw [tableBytes_cons, i2]
        have e1 : memcpy p.data off (buf.take (p.size - off)) = p.data.take off ++ buf.take (p.size - off) := by
          rw [memcpy, overwriteAt, htk, List.drop_of_length_le (by rw [hp.data]; omega), List.append_nil]
        have e2 : overwriteAt (p.data ++ tableBytes ps) off buf =
            p.data.take off ++ buf ++ (tableBytes ps).drop (buf.length - (p.size - off)) := by
          rw [overwriteAt, List.take_append_of_le_length (by rw [hp.data]; omega), List.drop_append,
            List.drop_of_length_le (by rw [hp.data]; omega), List.nil_append, hp.data]
          congr 2
          omega
        have e3 : overwriteAt (tableBytes ps) 0 (buf.drop (p.size - off)) =
            buf.drop (p.size - off) ++ (tableBytes ps).drop (buf.length - (p.size - off)) := by
          simp [overwriteAt]
        rw [e2, e3]
        show memcpy p.data off (buf.take (p.size - off)) ++ _ = _
        rw [e1]
        simp only [List.append_assoc]
        rw [← List.append_assoc (buf.take _) (buf.drop _), List.take_append_drop]
    · have hlt := Nat.lt_of_not_le hle
      have hq : ({ updatePage p with data := memcpy p.data off buf } : Page).Ok :=
        ⟨hp.pos, hp.le, by rw [memcpy, length_overwriteAt _ (by rw [hp.data]; omega)]; exact hp.data⟩
      simp only [Nat.min_eq_right (Nat.le_of_lt hlt), List.take_length]
      rw [if_neg (by omega)]
      refine ⟨?_, ?_, by simp [updatePage]⟩
      · intro q hq'
        rcases List.mem_cons.1 hq' with rfl | hq'
        · exact hq
        · exact hps q hq'
      · rw [tableBytes_cons]
        show memcpy p.data off buf ++ tableBytes ps = _
        rw [memcpy, overwriteAt, overwriteAt, List.take_append_of_le_length (by rw [hp.data]; omega),
          List.drop_append_of_le_length (by rw [hp.data]; omega), List.append_assoc, List.append_assoc]

/-- The writing part of `eb_rw` overwrites the bytes of the text. -/
theorem writePages_spec {t : Pages} (ht : t.Ok) {offset : Nat} {buf : List Byte} (hb : 0 < buf.length)
    (ho : offset + buf.length ≤ t.totalSize) :
    (writePages t offset buf).Ok ∧ (writePages t offset buf).bytes = overwriteAt t.bytes offset buf ∧
      (writePages t offset buf).totalSize = t.totalSize := by
  obtain ⟨pre, p, post, off, hc, hoff, hlt⟩ := exists_page (show offset < tableSize t.pageTable by
    rw [← ht.total]; omega)
  have hokpre : ∀ q ∈ pre, q.Ok := fun q hq => ht.pages q (by rw [hc]; exact List.mem_append_left _ hq)
  have hok : ∀ q ∈ p :: post, q.Ok := fun q hq => ht.pages q (by rw [hc]; exact List.mem_append_right _ hq)
  have hpre : (tableBytes pre).length = tableSize pre := length_tableBytes hokpre
  have htot : t.totalSize = tableSize pre + tableSize (p :: post) := by rw [ht.total, hc, tableSize_append]
  obtain ⟨w1, w2, w3⟩ := rwWrite_spec hok off buf
    (fun q hq => by cases hq; exact hlt) (by omega)
  have hf := findPage_cut ht.cache hc hlt
  rw [← hoff] at hf
  have hw : writePages t offset buf =
      { t with pageTable := pre ++ rwWrite (p :: post) off buf, curPage := some pre.length, curOffset := tableSize pre } := by
    simp only [writePages, hf, hc, List.take_left, List.drop_left]
  have hsz : tableSize (rwWrite (p :: post) off buf) = tableSize (p :: post) := by rw [tableSize, w3, tableSize]
  have hln : (rwWrite (p :: post) off buf).length = (p :: post).length := by
    simpa using congrArg List.length w3
  rw [hw]
  refine ⟨⟨⟨?_, ?_, ?_⟩, ?_⟩, ?_, rfl⟩
  · intro q hq
    rcases List.mem_append.1 hq with hq | hq
    · exact hokpre q hq
    · exact w1 q hq
  · rw [ht.nb, hc, List.length_append, List.length_append, hln]
  · intro i hi
    obtain rfl : pre.length = i := by simpa using hi
    exact ⟨by rw [List.length_append, hln, List.length_cons]; omega, by simp⟩
  · rw [ht.total, hc, tableSize_append, tableSize_append, hsz]
  · rw [Pages.bytes_eq, tableBytes_append, w2, t.bytes_eq, hc, tableBytes_append]
    simp only [overwriteAt]
    rw [hoff, ← hpre, List.take_length_add_append, Nat.add_assoc, List.drop_length_add_append, List.append_assoc,
      List.append_assoc, List.append_assoc]

/-! ### Inserting -/

theorem pagesFor_zero : pagesFor 0 = 0 := by decide

/-- The first page takes up to `maxPageSize` bytes, the others what is left. -/
theorem pagesFor_succ {size : Nat} (h : 0 < size) : pagesFor size = pagesFor (size - maxPageSize) + 1 := by
  simp only [pagesFor, maxPageSize]
  omega

/-- The pages `eb_insert1` adds are well formed and hold the bytes. -/
theorem fillPages_spec {n : Nat} (buf : List Byte) (h : n = pagesFor buf.length) :
    (∀ p ∈ fillPages n buf, p.Ok) ∧ tableBytes (fillPages n buf) = buf ∧ (fillPages n buf).length = n := by
  induction n generalizing buf with
  | zero =>
    have hb : buf = [] := by
      by_contra hne
      have := pagesFor_succ (List.length_pos_of_ne_nil hne)
      omega
    simp [hb, fillPages]
  | succ n ih =>
    have hpos : 0 < buf.length := by
      by_contra hz
      rw [Nat.eq_zero_of_not_pos hz, pagesFor_zero] at h
      omega
    obtain ⟨i1, i2, i3⟩ := ih (buf.drop maxPageSize) (by
      rw [List.length_drop]
      have := pagesFor_succ hpos
      omega)
    refine ⟨?_, ?_, by simp [fillPages, i3]⟩
    · intro p hp
      rcases List.mem_cons.1 hp with rfl | hp
      · have hm := maxPageSize_pos
        exact ⟨by simp only [newPage, List.length_take]; omega, by simp only [newPage, List.length_take]; omega, rfl⟩
      · exact i1 p hp
    · rw [fillPages, tableBytes_cons, i2]
      exact List.take_append_drop maxPageSize buf

/-- The gap in the page table is opened and filled without touching what lies around it. -/
theorem insertPages_cut {t : Pages} {pre post : List Page} (hc : t.pageTable = pre ++ post)
    (hn : t.nbPages = t.pageTable.length) (ps : List Page) :
    insertPages t pre.length ps =
      { t with pageTable := pre ++ ps ++ post, nbPages := t.nbPages + ps.length } := by
  have h := fill_gap_full Page.null t.pageTable ps pre.length (by simp [hc])
  simp only [insertPages, hn, Nat.add_sub_cancel, h]
  rw [hc, insertAt_append]

/-- The page that `eb_insert1` is given takes the last bytes, in front of its own. -/
theorem prependPage_cut {t : Pages} {pre post : List Page} (hc : t.pageTable = pre ++ post)
    (hn : t.nbPages = t.pageTable.length) (hok : ∀ p ∈ post, p.Ok) (buf : List Byte) :
    ∃ mid rest, prependPage t pre.length buf = ({ t with pageTable := pre ++ mid }, rest) ∧
      (∀ p ∈ mid, p.Ok) ∧ mid.length = post.length ∧ rest ++ tableBytes mid = buf ++ tableBytes post := by
  have hsame : t = { t with pageTable := pre ++ post } := by rw [← hc]
  unfold prependPage
  split
  · rename_i hlt
    obtain ⟨p, post, rfl⟩ : ∃ p qs, post = p :: qs := by
      cases post with
      | nil => simp [hn, hc] at hlt
      | cons p qs => exact ⟨p, qs, rfl⟩
    have hp := hok p (by simp)
    simp only [page_of_cut hc]
    split
    · rename_i hpos
      obtain ⟨len, hlen⟩ : ∃ len, len = min (maxPageSize - p.size) buf.length := ⟨_, rfl⟩
      rw [← hlen] at hpos
      simp only [← hlen]
      -- the gap at the beginning of the page is filled with the last `len` bytes
      have hdl : (buf.drop (buf.length - len)).length = len := by rw [List.length_drop]; omega
      have hfill := fill_gap_full 0 p.data (buf.drop (buf.length - len)) 0 (by omega)
      rw [hdl, hp.data, Nat.zero_add, Nat.sub_zero] at hfill
      have hins : insertAt p.data 0 (buf.drop (buf.length - len)) = buf.drop (buf.length - len) ++ p.data := by
        simp [insertAt]
      rw [hins] at hfill
      refine ⟨{ updatePage p with size := p.size + len, data := buf.drop (buf.length - len) ++ p.data } :: post,
        buf.take (buf.length - len), ?_, ?_, by simp, ?_⟩
      · rw [hfill]
        simp [Pages.setPage, hc]
      · intro q hq
        rcases List.mem_cons.1 hq with rfl | hq
        · refine ⟨by simp only; omega, by simp only; have := hp.le; omega, ?_⟩
          rw [List.length_append, hdl, hp.data, Nat.add_comm]
        · exact hok q (List.mem_cons_of_mem p hq)
      · simp only [tableBytes_cons, List.append_assoc]
        rw [← List.append_assoc (buf.take _), List.take_append_drop]
    · exact ⟨p :: post, buf, by rw [← hsame], hok, rfl, rfl⟩
  · exact ⟨post, buf, by rw [← hsame], hok, rfl, rfl⟩

/-- `eb_insert1` puts the bytes in front of those of the page it is given, and touches no page before it. -/
theorem ebInsert1_cut {t : Pages} {pre post : List Page} (hc : t.pageTable = pre ++ post)
    (hn : t.nbPages = t.pageTable.length) (hok : ∀ p ∈ post, p.Ok) (buf : List Byte) :
    ∃ mid, ebInsert1 t pre.length buf = { t with pageTable := pre ++ mid, nbPages := (pre ++ mid).length } ∧
      (∀ p ∈ mid, p.Ok) ∧ tableBytes mid = buf ++ tableBytes post := by
  obtain ⟨mid, rest, hpre, hmid, hlen, hbytes⟩ := prependPage_cut hc hn hok buf
  have hnb : t.nbPages = (pre ++ mid).length := by
    rw [hn, hc, List.length_append, List.length_append, hlen]
  simp only [ebInsert1, hpre]
  split
  · obtain ⟨f1, f2, f3⟩ := fillPages_spec rest rfl
    refine ⟨fillPages (pagesFor rest.length) rest ++ mid, ?_, ?_, ?_⟩
    · rw [insertPages_cut (t := { t with pageTable := pre ++ mid }) rfl hnb]
      simp only [List.append_assoc, hnb, List.length_append]
      congr 1
      omega
    · intro p hp
      rcases List.mem_append.1 hp with hp | hp
      · exact f1 p hp
      · exact hmid p hp
    · rw [tableBytes_append, f2, hbytes]
  · rename_i hz
    have hr : rest = [] := by
      by_contra hne
      have := pagesFor_succ (List.length_pos_of_ne_nil hne)
      omega
    subst hr
    exact ⟨mid, by rw [← hnb], hmid, by simpa using hbytes⟩

/-- Filling the gap in the page an insertion falls into. When bytes are left for the next pages, the page is full and its
tail has already left it, so the three parts still follow each other in the right order. -/
theorem insertInPage_cut {t : Pages} {pre post : List Page} {p : Page} (hc : t.pageTable = pre ++ p :: post)
    (hn : t.nbPages = t.pageTable.length) (hp : p.Ok) (hok : ∀ q ∈ post, q.Ok) {offset : Nat} (ho : offset ≤ p.size)
    (buf : List Byte) :
    ∃ q mid rest, insertInPage t pre.length offset buf =
        ({ t with pageTable := pre ++ q :: mid, nbPages := (pre ++ q :: mid).length }, rest) ∧
      q.Ok ∧ (∀ q ∈ mid, q.Ok) ∧
      q.data ++ (rest ++ tableBytes mid) = insertAt p.data offset buf ++ tableBytes post := by
  obtain ⟨len, hlen⟩ : ∃ len, len = min (maxPageSize - offset) buf.length := ⟨_, rfl⟩
  obtain ⟨lenOut, hout⟩ : ∃ lenOut, lenOut = p.size + len - maxPageSize := ⟨_, rfl⟩
  have hle := hp.le
  have hdata := hp.data
  -- the page's bytes: before the gap, after it, and the tail that leaves the page
  obtain ⟨a, b, c, habc, ha, hcl⟩ : ∃ a b c : List Byte, p.data = a ++ (b ++ c) ∧ a.length = offset ∧ c.length = lenOut := by
    refine ⟨p.data.take offset, (p.data.drop offset).take (p.size - lenOut - offset),
      (p.data.drop offset).drop (p.size - lenOut - offset), ?_, ?_, ?_⟩
    · rw [List.take_append_drop, List.take_append_drop]
    · rw [List.length_take]; omega
    · rw [List.length_drop, List.length_drop]; omega
  have hbl : b.length = p.size - lenOut - offset := by
    have := congrArg List.length habc
    simp only [List.length_append] at this
    omega
  have htail : slice p.data (p.size - lenOut) lenOut = c := by
    have hsz : p.size - lenOut = (a ++ b).length := by rw [List.length_append]; omega
    rw [habc, ← List.append_assoc, hsz, slice_append, List.take_of_length_le (by omega)]
  have hins : insertAt p.data offset buf = a ++ buf ++ (b ++ c) := by rw [habc, ← ha, insertAt_append]
  have hsame : t = { t with pageTable := pre ++ p :: post, nbPages := (pre ++ p :: post).length } := by
    rw [← hc, ← hn]
  -- the table after the tail has left
  obtain ⟨mid, hmid, hokmid, hbytes⟩ : ∃ mid,
      (if 0 < lenOut then ebInsert1 t (pre.length + 1) (slice p.data (p.size - lenOut) lenOut) else t) =
        { t with pageTable := pre ++ p :: mid, nbPages := (pre ++ p :: mid).length } ∧
      (∀ q ∈ mid, q.Ok) ∧ tableBytes mid = c ++ tableBytes post := by
    split
    · obtain ⟨mid, h1, h2, h3⟩ := ebInsert1_cut (show t.pageTable = (pre ++ [p]) ++ post by simp [hc]) hn hok
        (slice p.data (p.size - lenOut) lenOut)
      refine ⟨mid, ?_, h2, by rw [h3, htail]⟩
      rw [List.length_append, List.length_singleton] at h1
      rw [h1]
      simp
    · rename_i hz
      have hnil : c = [] := List.eq_nil_of_length_eq_zero (by omega)
      exact ⟨post, hsame, hok, by rw [hnil, List.nil_append]⟩
  have hpage : ({ t with pageTable := pre ++ p :: mid, nbPages := (pre ++ p :: mid).length } : Pages).page pre.length = p :=
    page_of_cut rfl
  simp only [insertInPage, page_of_cut hc, ← hlen, ← hout, hmid]
  by_cases hz : 0 < len
  · -- the gap is filled with the first `len` bytes
    have htk : (buf.take len).length = len := by rw [List.length_take]; omega
    have hfill := fill_gap 0 p.data (buf.take len) offset (p.size + (len - lenOut))
      (by omega) (by omega) (by omega) (by omega)
    rw [htk] at hfill
    have hq : (insertAt p.data offset (buf.take len)).take (p.size + (len - lenOut)) = a ++ buf.take len ++ b := by
      have hsz : p.size + (len - lenOut) = (a ++ buf.take len ++ b).length := by
        simp only [List.length_append, htk]; omega
      rw [habc, ← ha, insertAt_append, hsz, ← List.append_assoc (a ++ buf.take len), List.take_left]
    rw [if_pos hz, hpage, hfill, hq]
    refine ⟨{ updatePage p with size := p.size + (len - lenOut), data := a ++ buf.take len ++ b }, mid, buf.drop len,
      ?_, ?_, hokmid, ?_⟩
    · simp [Pages.setPage]
    · refine ⟨by have := hp.pos; simp only; omega, by simp only; omega, ?_⟩
      simp only [List.length_append, htk]
      omega
    · simp only [hbytes, hins, List.append_assoc]
      congr 1
      -- either nothing is left of `buf`, or nothing lies between the gap and the tail
      by_cases hall : len = buf.length
      · simp [hall]
      · have hb : b = [] := List.eq_nil_of_length_eq_zero (by omega)
        rw [hb, List.nil_append, List.nil_append, ← List.append_assoc, List.take_append_drop]
  · rw [if_neg hz]
    refine ⟨p, mid, buf.drop len, rfl, hp, hokmid, ?_⟩
    have h0 : len = 0 := by omega
    have hnil : c = [] := List.eq_nil_of_length_eq_zero (by omega)
    rw [hbytes, hins, habc, hnil, h0]
    simp only [List.drop_zero, List.nil_append, List.append_nil, List.append_assoc]
    congr 1
    by_cases hb : buf = []
    · simp [hb]
    · have hbuf := List.length_pos_of_ne_nil hb
      have : b = [] := List.eq_nil_of_length_eq_zero (by omega)
      simp [this]

/-- `eb_insert_lowlevel` inserts the bytes at the offset. -/
theorem ebInsertLowlevel_spec {t : Pages} (ht : t.Ok) {offset : Nat} (ho : offset ≤ t.totalSize) (buf : List Byte) :
    (ebInsertLowlevel t offset buf).Ok ∧ (ebInsertLowlevel t offset buf).bytes = insertAt t.bytes offset buf := by
  obtain ⟨t₁, ht₁⟩ : ∃ t₁ : Pages, t₁ = { t with totalSize := t.totalSize + buf.length } := ⟨_, rfl⟩
  have hn₁ : t₁.nbPages = t₁.pageTable.length := by rw [ht₁]; exact ht.nb
  -- whatever the pages become, the text is well formed as soon as its bytes are those of the insertion
  have hdone (ps : List Page) (hps : ∀ p ∈ ps, p.Ok) (hb : tableBytes ps = insertAt t.bytes offset buf) (co : Nat) :
      Pages.Ok { t with pageTable := ps, nbPages := ps.length, totalSize := t.totalSize + buf.length, curPage := none,
                        curOffset := co } := by
    refine ⟨⟨hps, rfl, fun i hi => by simp at hi⟩, ?_⟩
    have := congrArg List.length hb
    rwa [length_tableBytes hps, length_insertAt, ht.length_bytes, eq_comm] at this
  by_cases hz : 0 < offset
  · obtain ⟨pre, p, post, off, hc, hoff, hlt⟩ := exists_page
      (show offset - 1 < tableSize t.pageTable by rw [← ht.total]; omega)
    have hcut : t₁.pageTable = pre ++ p :: post := by rw [ht₁]; exact hc
    have hp : p.Ok := ht.pages p (by simp [hc])
    have hok : ∀ q ∈ post, q.Ok := fun q hq => ht.pages q (by simp [hc, hq])
    have hokpre : ∀ q ∈ pre, q.Ok := fun q hq => ht.pages q (by simp [hc, hq])
    have hf := findPage_cut (t := t₁) (by rw [ht₁]; exact ht.cache) hcut hlt
    rw [← hoff] at hf
    obtain ⟨t₂, ht₂⟩ : ∃ t₂ : Pages, t₂ = { t₁ with curPage := some pre.length, curOffset := tableSize pre } := ⟨_, rfl⟩
    obtain ⟨q, mid, rest, h1, h2, h3, h4⟩ := insertInPage_cut
      (show t₂.pageTable = pre ++ p :: post by rw [ht₂]; exact hcut) (by rw [ht₂]; exact hn₁) hp hok
      (show off + 1 ≤ p.size by omega) buf
    -- the page before the offset, and the bytes of the whole
    have hwhole : tableBytes pre ++ (q.data ++ (rest ++ tableBytes mid)) = insertAt t.bytes offset buf := by
      rw [h4, t.bytes_eq, hc, tableBytes_append, tableBytes_cons]
      have hlen : offset = (tableBytes pre).length + (off + 1) := by rw [length_tableBytes hokpre]; omega
      simp only [insertAt]
      rw [hlen, List.take_length_add_append, List.drop_length_add_append,
        List.take_append_of_le_length (by rw [hp.data]; omega),
        List.drop_append_of_le_length (by rw [hp.data]; omega)]
      simp only [List.append_assoc]
    simp only [ebInsertLowlevel, if_pos hz, ← ht₁, hf, ← ht₂, h1]
    obtain ⟨ps, hps, hokps, hbytes⟩ : ∃ ps,
        (if 0 < rest.length then
            ebInsert1 { t₂ with pageTable := pre ++ q :: mid, nbPages := (pre ++ q :: mid).length } (pre.length + 1) rest
          else { t₂ with pageTable := pre ++ q :: mid, nbPages := (pre ++ q :: mid).length }) =
          { t₂ with pageTable := ps, nbPages := ps.length } ∧ (∀ q ∈ ps, q.Ok) ∧
        tableBytes ps = insertAt t.bytes offset buf := by
      have hall (ms : List Page) (hms : ∀ q ∈ ms, q.Ok) : ∀ r ∈ pre ++ q :: ms, r.Ok := by
        intro r hr
        rcases List.mem_append.1 hr with hr | hr
        · exact hokpre r hr
        · rcases List.mem_cons.1 hr with rfl | hr
          · exact h2
          · exact hms r hr
      split
      · obtain ⟨mid', e1, e2, e3⟩ := ebInsert1_cut
          (t := { t₂ with pageTable := pre ++ q :: mid, nbPages := (pre ++ q :: mid).length })
          (show pre ++ q :: mid = (pre ++ [q]) ++ mid by simp) rfl h3 rest
        have hl : (pre ++ [q]).length = pre.length + 1 := by simp
        rw [hl] at e1
        refine ⟨pre ++ q :: mid', ?_, hall mid' e2, ?_⟩
        · rw [e1]
          simp
        · rw [tableBytes_append, tableBytes_cons, e3, hwhole]
      · rename_i hr
        have hrest : rest = [] := List.eq_nil_of_length_eq_zero (by omega)
        refine ⟨pre ++ q :: mid, rfl, hall mid h3, ?_⟩
        rw [tableBytes_append, tableBytes_cons, ← hwhole, hrest, List.nil_append]
    rw [hps, ht₂, ht₁]
    exact ⟨hdone ps hokps hbytes _, hbytes⟩
  · have h0 : offset = 0 := by omega
    have hins : insertAt t.bytes offset buf = buf ++ t.bytes := by simp [insertAt, h0]
    simp only [ebInsertLowlevel, if_neg hz, ← ht₁]
    obtain ⟨ps, hps, hokps, hbytes⟩ : ∃ ps,
        (if 0 < buf.length then ebInsert1 t₁ 0 buf else t₁) = { t₁ with pageTable := ps, nbPages := ps.length } ∧
        (∀ q ∈ ps, q.Ok) ∧ tableBytes ps = insertAt t.bytes offset buf := by
      have hok₁ : ∀ q ∈ t₁.pageTable, q.Ok := by rw [ht₁]; exact ht.pages
      have hb₁ : tableBytes t₁.pageTable = t.bytes := by rw [ht₁]; rfl
      split
      · obtain ⟨mid, e1, e2, e3⟩ := ebInsert1_cut (show t₁.pageTable = [] ++ t₁.pageTable from rfl) hn₁ hok₁ buf
        exact ⟨mid, by simpa using e1, e2, by rw [e3, hins, hb₁]⟩
      · rename_i hr
        have hbuf : buf = [] := List.eq_nil_of_length_eq_zero (by omega)
        refine ⟨t₁.pageTable, by rw [← hn₁], hok₁, by rw [hins, hb₁, hbuf, List.nil_append]⟩
    rw [hps, ht₁]
    exact ⟨hdone ps hokps hbytes _, hbytes⟩

/-! ### Deleting -/

/-- A page that has lost `n` of its bytes, from `off` on. -/
def closedPage (p : Page) (off n : Nat) : Page :=
  { updatePage p with size := p.size - n, data := removeAt p.data off n }

/-- A page stays sound when some of its bytes are taken out. -/
theorem closedPage_ok {p : Page} (hp : p.Ok) {off n : Nat} (h : off + n ≤ p.size) (hn : n < p.size) :
    (closedPage p off n).Ok := by
  have hl := hp.le
  refine ⟨by simp only [closedPage]; omega, by simp only [closedPage]; omega, ?_⟩
  simp only [closedPage, length_removeAt p.data (by rw [hp.data]; exact h), hp.data]

theorem deleteLoop_zero_size (ps : List Page) (i off : Nat) (start : Option Nat) (n : Nat) :
    deleteLoop ps i off 0 start n = ⟨ps, start, n⟩ := by
  cases ps <;> simp [deleteLoop]

/-- The loop deletes no page. -/
theorem length_deleteLoop (ps : List Page) (i off size : Nat) (start : Option Nat) (n : Nat) :
    (deleteLoop ps i off size start n).table.length = ps.length := by
  induction ps generalizing i off size start n with
  | nil => rfl
  | cons p ps ih =>
    rw [deleteLoop]
    split
    · rfl
    · simp only
      split
      · simp [ih]
      · split
        · simp [ih]
        · simp

/-- The loop at a page that loses the end of its bytes: the next page follows. -/
theorem deleteLoop_tail {p : Page} (hp : p.Ok) (ps : List Page) (i : Nat) {off size : Nat} (hoff : off < p.size)
    (hpos : 0 < off) (hle : p.size - off ≤ size) (start : Option Nat) (n : Nat) :
    deleteLoop (p :: ps) i off size start n =
      { deleteLoop ps (i + 1) 0 (size - (p.size - off)) start n with
        table := closedPage p off (p.size - off) ::
          (deleteLoop ps (i + 1) 0 (size - (p.size - off)) start n).table } := by
  have hclose := close_gap 0 p.data off (p.size - off) (by rw [hp.data]; omega)
  rw [hp.data, ← Nat.sub_sub] at hclose
  rw [deleteLoop, if_neg (by omega)]
  simp only [Nat.min_eq_left hle]
  rw [if_neg (by omega), if_pos (by omega), hclose]
  rfl

/-- The loop at a page that loses bytes in its midst, or its first bytes: nothing is left to delete after it. -/
theorem deleteLoop_inside {p : Page} (hp : p.Ok) (ps : List Page) (i : Nat) {off size : Nat} (hs : 0 < size)
    (hlt : size < p.size) (h : off + size ≤ p.size) (start : Option Nat) (n : Nat) :
    deleteLoop (p :: ps) i off size start n = ⟨closedPage p off size :: ps, start, n⟩ := by
  have hclose := close_gap 0 p.data off size (by rw [hp.data]; omega)
  rw [hp.data, ← Nat.sub_sub] at hclose
  rw [deleteLoop, if_neg (by omega)]
  simp only [Nat.min_eq_right (show size ≤ p.size - off by omega)]
  rw [if_neg (by omega), hclose, Nat.sub_self, deleteLoop_zero_size]
  split <;> rfl

/-- The loop at a page that goes entirely. -/
theorem deleteLoop_whole {p : Page} (hp : p.Ok) (ps : List Page) (i : Nat) {size : Nat} (hle : p.size ≤ size)
    (start : Option Nat) (n : Nat) :
    deleteLoop (p :: ps) i 0 size start n =
      { deleteLoop ps (i + 1) 0 (size - p.size) (start.or (some i)) (n + 1) with
        table := p :: (deleteLoop ps (i + 1) 0 (size - p.size) (start.or (some i)) (n + 1)).table } := by
  have hpos := hp.pos
  rw [deleteLoop, if_neg (by omega)]
  simp only [Nat.sub_zero, Nat.min_eq_left hle]
  rw [if_pos trivial]

/-- The bytes after a page that lost its first bytes. -/
theorem tableBytes_closedPage_zero {p : Page} (hp : p.Ok) (ps : List Page) {size : Nat} (h : size ≤ p.size) :
    tableBytes (closedPage p 0 size :: ps) = (tableBytes (p :: ps)).drop size := by
  simp only [tableBytes_cons, closedPage, removeAt, List.take_zero, List.nil_append, Nat.zero_add]
  rw [List.drop_append_of_le_length (by rw [hp.data]; exact h)]

/-- What is behind the first page. -/
theorem drop_tableBytes_cons {p : Page} (hp : p.Ok) (ps : List Page) {size : Nat} (h : p.size ≤ size) :
    (tableBytes (p :: ps)).drop size = (tableBytes ps).drop (size - p.size) := by
  rw [tableBytes_cons, List.drop_append, List.drop_of_length_le (by rw [hp.data]; exact h), List.nil_append, hp.data]

/-- What the loop of `eb_delete` leaves of a table whose first page is page `i`: the pages to delete are one run `b`, located
and counted by the loop, and without them the bytes are those of the removal. -/
def Deletion.Ok (d : Deletion) (i : Nat) (bytes : List Byte) : Prop :=
  ∃ a b c, d.table = a ++ b ++ c ∧ d.n = b.length ∧ (0 < d.n → d.start = some (i + a.length)) ∧
    (∀ p ∈ a, p.Ok) ∧ (∀ p ∈ c, p.Ok) ∧ tableBytes a ++ tableBytes c = bytes

/-- The loop once the run of pages to delete has begun: the run goes on, and ends where nothing is left to delete or at the
page that loses its first bytes. -/
theorem deleteLoop_run {ps : List Page} (h : ∀ p ∈ ps, p.Ok) {size : Nat} (ho : size ≤ tableSize ps) (i s n : Nat) :
    ∃ b c, deleteLoop ps i 0 size (some s) n = ⟨b ++ c, some s, n + b.length⟩ ∧ (∀ p ∈ c, p.Ok) ∧
      tableBytes c = (tableBytes ps).drop size := by
  induction ps generalizing size i n with
  | nil =>
    obtain rfl : size = 0 := by rw [tableSize_nil] at ho; omega
    exact ⟨[], [], by simp [deleteLoop]⟩
  | cons p ps ih =>
    have hp := h p (by simp)
    have hps : ∀ q ∈ ps, q.Ok := fun q hq => h q (List.mem_cons_of_mem p hq)
    rw [tableSize_cons] at ho
    by_cases hs : size = 0
    · exact ⟨[], p :: ps, by rw [hs, deleteLoop_zero_size]; rfl, h, by rw [hs, List.drop_zero]⟩
    by_cases hle : p.size ≤ size
    · obtain ⟨b, c, e1, e2, e3⟩ := ih hps (show size - p.size ≤ tableSize ps by omega) (i + 1) (n + 1)
      refine ⟨p :: b, c, ?_, e2, by rw [e3, drop_tableBytes_cons hp ps hle]⟩
      rw [deleteLoop_whole hp ps i hle, Option.some_or, e1, List.length_cons]
      simp only [List.cons_append, Deletion.mk.injEq, true_and]
      omega
    · refine ⟨[], closedPage p 0 size :: ps, ?_, ?_, tableBytes_closedPage_zero hp ps (by omega)⟩
      · rw [deleteLoop_inside hp ps i (by omega) (by omega) (by omega)]
        rfl
      · intro q hq
        rcases List.mem_cons.1 hq with rfl | hq
        · exact closedPage_ok hp (by omega) (by omega)
        · exact hps q hq

/-- The loop from the beginning of a page on. -/
theorem deleteLoop_start {ps : List Page} (h : ∀ p ∈ ps, p.Ok) {size : Nat} (ho : size ≤ tableSize ps) (i : Nat) :
    (deleteLoop ps i 0 size none 0).Ok i ((tableBytes ps).drop size) := by
  cases ps with
  | nil => exact ⟨[], [], [], by simp [deleteLoop]⟩
  | cons p ps =>
    have hp := h p (by simp)
    have hps : ∀ q ∈ ps, q.Ok := fun q hq => h q (List.mem_cons_of_mem p hq)
    rw [tableSize_cons] at ho
    by_cases hs : size = 0
    · rw [hs, deleteLoop_zero_size]
      exact ⟨[], [], p :: ps, rfl, rfl, by simp, by simp, h, rfl⟩
    by_cases hle : p.size ≤ size
    · obtain ⟨b, c, e1, e2, e3⟩ := deleteLoop_run hps (show size - p.size ≤ tableSize ps by omega) (i + 1) i 1
      rw [deleteLoop_whole hp ps i hle, Option.none_or, e1]
      exact ⟨[], p :: b, c, rfl, by rw [List.length_cons, Nat.add_comm], fun _ => rfl, by simp, e2,
        by rw [e3, drop_tableBytes_cons hp ps hle]; rfl⟩
    · rw [deleteLoop_inside hp ps i (by omega) (by omega) (by omega)]
      refine ⟨[], [], closedPage p 0 size :: ps, rfl, rfl, by simp, by simp, ?_,
        by rw [← tableBytes_closedPage_zero hp ps (by omega)]; rfl⟩
      intro q hq
      rcases List.mem_cons.1 hq with rfl | hq
      · exact closedPage_ok hp (by omega) (by omega)
      · exact hps q hq

/-- The loop from inside a page on. -/
theorem deleteLoop_spec {p : Page} {ps : List Page} (h : ∀ q ∈ p :: ps, q.Ok) {off size : Nat} (hoff : off < p.size)
    (ho : off + size ≤ tableSize (p :: ps)) (i : Nat) :
    (deleteLoop (p :: ps) i off size none 0).Ok i (removeAt (tableBytes (p :: ps)) off size) := by
  have hp := h p (by simp)
  have hps : ∀ q ∈ ps, q.Ok := fun q hq => h q (List.mem_cons_of_mem p hq)
  by_cases h0 : off = 0
  · subst h0
    have hrem : removeAt (tableBytes (p :: ps)) 0 size = (tableBytes (p :: ps)).drop size := by simp [removeAt]
    rw [hrem]
    exact deleteLoop_start h (by omega) i
  have hpre : (tableBytes (p :: ps)).take off = p.data.take off := by
    rw [tableBytes_cons, List.take_append_of_le_length (by rw [hp.data]; omega)]
  by_cases hs : size = 0
  · rw [hs, deleteLoop_zero_size]
    exact ⟨[], [], p :: ps, rfl, rfl, by simp, by simp, h, by simp [removeAt]⟩
  rw [tableSize_cons] at ho
  by_cases hle : p.size - off ≤ size
  · obtain ⟨a, b, c, e1, e2, e3, e4, e5, e6⟩ :=
      deleteLoop_start hps (show size - (p.size - off) ≤ tableSize ps by omega) (i + 1)
    rw [deleteLoop_tail hp ps i hoff (by omega) hle]
    refine ⟨closedPage p off (p.size - off) :: a, b, c, by simp [e1], e2, ?_, ?_, e5, ?_⟩
    · intro hn
      rw [List.length_cons, ← Nat.add_assoc, Nat.add_right_comm]
      exact e3 hn
    · intro q hq
      rcases List.mem_cons.1 hq with rfl | hq
      · exact closedPage_ok hp (by omega) (by omega)
      · exact e4 q hq
    · have hcl : (closedPage p off (p.size - off)).data = p.data.take off := by
        simp only [closedPage, removeAt]
        rw [List.drop_of_length_le (by rw [hp.data]; omega), List.append_nil]
      rw [tableBytes_cons, List.append_assoc, e6, hcl, removeAt, hpre, drop_tableBytes_cons hp ps (by omega),
        show size - (p.size - off) = off + size - p.size by omega]
  · rw [deleteLoop_inside hp ps i (by omega) (by omega) (by omega)]
    refine ⟨[], [], closedPage p off size :: ps, rfl, rfl, by simp, by simp, ?_, ?_⟩
    · intro q hq
      rcases List.mem_cons.1 hq with rfl | hq
      · exact closedPage_ok hp (by omega) (by omega)
      · exact hps q hq
    · rw [tableBytes_nil, List.nil_append, tableBytes_cons, removeAt, hpre, tableBytes_cons,
        List.drop_append_of_le_length (by rw [hp.data]; omega), ← List.append_assoc]
      rfl

/-- The part of `eb_delete` after the log entry removes the bytes. It does not look at the total size, which `eb_delete` has
already decreased. -/
theorem deletePages_spec {t : Pages} (ht : t.TableOk) {offset size : Nat} (ho : offset < tableSize t.pageTable)
    (hs : offset + size ≤ tableSize t.pageTable) :
    (deletePages t offset size).TableOk ∧ (deletePages t offset size).bytes = removeAt t.bytes offset size ∧
      (deletePages t offset size).totalSize = t.totalSize := by
  obtain ⟨pre, p, post, off, hc, hoff, hlt⟩ := exists_page ho
  have hokpre : ∀ q ∈ pre, q.Ok := fun q hq => ht.pages q (by simp [hc, hq])
  have hok : ∀ q ∈ p :: post, q.Ok := fun q hq => ht.pages q (by rw [hc]; exact List.mem_append_right _ hq)
  have hpre : (tableBytes pre).length = tableSize pre := length_tableBytes hokpre
  have htot : tableSize t.pageTable = tableSize pre + tableSize (p :: post) := by rw [hc, tableSize_append]
  have hf := findPage_cut ht.cache hc hlt
  rw [← hoff] at hf
  obtain ⟨a, b, c, e1, e2, e3, e4, e5, e6⟩ := deleteLoop_spec hok hlt
    (show off + size ≤ tableSize (p :: post) by omega) pre.length
  have hbytes : tableBytes (pre ++ a ++ c) = removeAt t.bytes offset size := by
    rw [tableBytes_append, tableBytes_append, List.append_assoc, e6, t.bytes_eq, hc, tableBytes_append]
    simp only [removeAt]
    rw [hoff, ← hpre, List.take_length_add_append, Nat.add_assoc, List.drop_length_add_append, List.append_assoc]
  have hokall : ∀ q ∈ pre ++ a ++ c, q.Ok := by
    intro q hq
    rcases List.mem_append.1 hq with hq | hq
    · rcases List.mem_append.1 hq with hq | hq
      · exact hokpre q hq
      · exact e4 q hq
    · exact e5 q hq
  have hnb : t.nbPages = (pre ++ a ++ b ++ c).length := by
    have := length_deleteLoop (p :: post) pre.length off size none 0
    rw [e1] at this
    rw [ht.nb, hc]
    simp only [List.length_append] at this ⊢
    omega
  -- the pages of the run leave the table
  have hres : deletePages t offset size = { t with
      pageTable := pre ++ a ++ c, nbPages := (pre ++ a ++ c).length, curPage := none, curOffset := tableSize pre } := by
    simp only [deletePages, hf, hc, List.take_left, List.drop_left, e1, e2]
    split
    · rename_i hn
      have hclose := close_gap Page.null (pre ++ (a ++ b ++ c)) (pre.length + a.length) b.length
        (by simp only [List.length_append]; omega)
      have hrem : removeAt (pre ++ (a ++ b ++ c)) (pre.length + a.length) b.length = pre ++ a ++ c := by
        rw [← List.length_append, ← List.append_assoc, ← List.append_assoc, List.append_assoc (pre ++ a), removeAt_append,
          List.drop_left]
      have hlen : t.nbPages = (pre ++ (a ++ b ++ c)).length := by rw [hnb]; simp only [List.append_assoc]
      rw [e3 (by omega), Option.getD_some, hlen, Nat.sub_right_comm, Nat.sub_sub, hclose, hrem]
      simp only [List.length_append]
      congr 1
      omega
    · have hb : b = [] := List.eq_nil_of_length_eq_zero (by omega)
      subst hb
      simp only [List.append_nil, List.append_assoc] at hnb ⊢
      rw [hnb]
  rw [hres]
  exact ⟨⟨hokall, rfl, fun i hi => by simp at hi⟩, hbytes, rfl⟩

/-! ### Inserting pages of another buffer -/

/-- `eb_insert_buffer` cuts the table at the offset, in front of the page whose index it returns. -/
theorem cutPage_spec {t : Pages} (ht : t.Ok) {offset : Nat} (ho : offset ≤ t.totalSize) :
    ∃ pre post co cur, cutPage t offset =
        ({ t with pageTable := pre ++ post, nbPages := (pre ++ post).length, curPage := cur, curOffset := co }, pre.length) ∧
      (∀ p ∈ pre, p.Ok) ∧ (∀ p ∈ post, p.Ok) ∧ tableBytes pre = t.bytes.take offset ∧
      tableBytes post = t.bytes.drop offset := by
  have hlen := ht.length_bytes
  unfold cutPage
  split
  · rename_i hlt
    obtain ⟨pre, p, post, off, hc, hoff, hin⟩ := exists_page (show offset < tableSize t.pageTable by
      rw [← ht.total]; exact hlt)
    have hokpre : ∀ q ∈ pre, q.Ok := fun q hq => ht.pages q (by simp [hc, hq])
    have hp : p.Ok := ht.pages p (by simp [hc])
    have hok : ∀ q ∈ post, q.Ok := fun q hq => ht.pages q (by simp [hc, hq])
    have hpre : (tableBytes pre).length = tableSize pre := length_tableBytes hokpre
    have htake : t.bytes.take offset = tableBytes pre ++ p.data.take off := by
      rw [t.bytes_eq, hc, tableBytes_append, hoff, ← hpre, List.take_length_add_append, tableBytes_cons,
        List.take_append_of_le_length (by rw [hp.data]; omega)]
    have hdrop : t.bytes.drop offset = p.data.drop off ++ tableBytes post := by
      rw [t.bytes_eq, hc, tableBytes_append, hoff, ← hpre, List.drop_length_add_append, tableBytes_cons,
        List.drop_append_of_le_length (by rw [hp.data]; omega)]
    have hf := findPage_cut ht.cache hc hin
    rw [← hoff] at hf
    simp only [hf]
    split
    · rename_i hpos
      have hpage : ({ t with curPage := some pre.length, curOffset := tableSize pre } : Pages).page pre.length = p :=
        page_of_cut hc
      obtain ⟨mid, e1, e2, e3⟩ := ebInsert1_cut
        (t := { t with curPage := some pre.length, curOffset := tableSize pre })
        (show t.pageTable = (pre ++ [p]) ++ post by simp [hc]) ht.nb hok (slice p.data off (p.size - off))
      have hl : (pre ++ [p]).length = pre.length + 1 := by simp
      rw [hl] at e1
      have htab : pre ++ [p] ++ mid = pre ++ p :: mid := by simp
      have hq : (realloc 0 p.data off) = p.data.take off := realloc_of_le 0 (by rw [hp.data]; omega)
      have hle := hp.le
      refine ⟨pre ++ [{ updatePage p with data := p.data.take off, size := off }], mid, tableSize pre,
        some pre.length, ?_, ?_, e2, ?_, ?_⟩
      · simp only [hpage, e1, htab]
        rw [page_of_cut rfl, hq]
        simp [Pages.setPage]
      · intro q hq
        rcases List.mem_append.1 hq with hq | hq
        · exact hokpre q hq
        · rw [List.mem_singleton.1 hq]
          exact ⟨hpos, by simp only; omega, by simp only [List.length_take, hp.data]; omega⟩
      · rw [htake, tableBytes_append]
        simp
      · rw [e3, hdrop, slice, List.take_of_length_le (by rw [List.length_drop, hp.data])]
    · have h0 : off = 0 := by omega
      refine ⟨pre, p :: post, tableSize pre, some pre.length, ?_, hokpre, ?_, by simp [htake, h0], by simp [hdrop, h0]⟩
      · rw [← hc, ← ht.nb]
      · intro q hq
        exact ht.pages q (by rw [hc]; exact List.mem_append_right _ hq)
  · refine ⟨t.pageTable, [], t.curOffset, t.curPage, ?_, ht.pages, by simp, ?_, ?_⟩
    · rw [List.append_nil, ← ht.nb]
    · rw [List.take_of_length_le (by omega)]
      rfl
    · rw [List.drop_of_length_le (by omega)]
      rfl

/-- The complete pages among the next bytes, and what is left of the page after them. -/
theorem completePages_spec {ps : List Page} {size : Nat} (h : size ≤ tableSize ps) :
    ∃ full rem left, completePages ps size = (full.length, left) ∧ ps = full ++ rem ∧ tableSize full + left = size ∧
      (0 < left → ∃ q post, rem = q :: post ∧ left < q.size) := by
  induction ps generalizing size with
  | nil =>
    obtain rfl : size = 0 := by rw [tableSize_nil] at h; omega
    exact ⟨[], [], 0, rfl, rfl, rfl, by simp⟩
  | cons p ps ih =>
    rw [tableSize_cons] at h
    rw [completePages]
    split
    · rename_i hc
      obtain ⟨full, rem, left, e1, e2, e3, e4⟩ := ih (show size - p.size ≤ tableSize ps by omega)
      refine ⟨p :: full, rem, left, by rw [e1, List.length_cons], by rw [e2, List.cons_append], ?_, e4⟩
      rw [tableSize_cons, Nat.add_assoc, e3]
      exact Nat.add_sub_cancel' hc.2
    · exact ⟨[], p :: ps, size, rfl, rfl, by simp, fun hs => ⟨p, ps, rfl, by omega⟩⟩

/-- A copied page is well formed and holds the same bytes. -/
theorem copyPage_ok {p : Page} (hp : p.Ok) : (copyPage p).Ok ∧ (copyPage p).data = p.data := by
  have h1 := hp.pos
  have h2 := hp.le
  have h3 := hp.data
  unfold copyPage
  split
  · exact ⟨⟨h1, h2, h3⟩, rfl⟩
  · exact ⟨⟨by simp only [newPage]; omega, by simp only [newPage]; omega, rfl⟩, rfl⟩

/-- Copied pages are sound and hold the same bytes. -/
theorem map_copyPage {ps : List Page} (h : ∀ p ∈ ps, p.Ok) :
    (∀ p ∈ ps.map copyPage, p.Ok) ∧ tableBytes (ps.map copyPage) = tableBytes ps := by
  induction ps with
  | nil => simp
  | cons p ps ih =>
    obtain ⟨i1, i2⟩ := ih (fun q hq => h q (List.mem_cons_of_mem p hq))
    obtain ⟨c1, c2⟩ := copyPage_ok (h p (by simp))
    refine ⟨?_, by rw [List.map_cons, tableBytes_cons, i2, c2, tableBytes_cons]⟩
    intro q hq
    rcases List.mem_cons.1 hq with rfl | hq
    · exact c1
    · exact i1 q hq

/-- The complete pages are copied into the table cut at the offset, the bytes left after them are inserted behind. -/
theorem insertRest_spec {dest : Pages} (hd : dest.Ok) {offset : Nat} (ho : offset ≤ dest.totalSize) {rest : List Page}
    (hr : ∀ p ∈ rest, p.Ok) {size : Nat} (hs : size ≤ tableSize rest) :
    (insertRest dest offset rest size).Ok ∧
      (insertRest dest offset rest size).bytes = insertAt dest.bytes offset ((tableBytes rest).take size) := by
  obtain ⟨pre, post, co, cur, hcut, hpre, hpost, htake, hdrop⟩ := cutPage_spec hd ho
  obtain ⟨full, rem, left, hcomp, rfl, hsum, hleft⟩ := completePages_spec hs
  have hfull : ∀ p ∈ full, p.Ok := fun p hp => hr p (List.mem_append_left _ hp)
  have hrem : ∀ p ∈ rem, p.Ok := fun p hp => hr p (List.mem_append_right _ hp)
  obtain ⟨hcopy, hcopied⟩ := map_copyPage hfull
  -- the table after the complete pages
  obtain ⟨t, ht⟩ : ∃ t : Pages, t = { dest with
      pageTable := pre ++ full.map copyPage ++ post, nbPages := (pre ++ full.map copyPage ++ post).length
      totalSize := dest.totalSize + size, curPage := cur, curOffset := co } := ⟨_, rfl⟩
  have hcopies : (if 0 < full.length then
        (insertPages { dest with
          pageTable := pre ++ post, nbPages := (pre ++ post).length, totalSize := dest.totalSize + size
          curPage := cur, curOffset := co } pre.length (((full ++ rem).take full.length).map copyPage),
          pre.length + full.length)
      else ({ dest with
          pageTable := pre ++ post, nbPages := (pre ++ post).length, totalSize := dest.totalSize + size
          curPage := cur, curOffset := co }, pre.length)) = (t, (pre ++ full.map copyPage).length) := by
    split
    · rw [List.take_left, insertPages_cut (t := { dest with
        pageTable := pre ++ post, nbPages := (pre ++ post).length, totalSize := dest.totalSize + size
        curPage := cur, curOffset := co }) (show pre ++ post = pre ++ post from rfl) rfl, ht]
      simp only [List.length_append, List.length_map, Prod.mk.injEq, Pages.mk.injEq, and_true, true_and]
      omega
    · rename_i hz
      obtain rfl : full = [] := List.eq_nil_of_length_eq_zero (by omega)
      simp [ht]
  have hwhole : (tableBytes (full ++ rem)).take size = tableBytes full ++ (tableBytes rem).take left := by
    rw [tableBytes_append, ← hsum, ← length_tableBytes hfull, List.take_length_add_append]
  -- the bytes left after them
  obtain ⟨mid, hmid, hmidok, hbytes⟩ : ∃ mid,
      (if 0 < left then
          ebInsert1 t (pre ++ full.map copyPage).length (((full ++ rem).getD full.length Page.null).data.take left)
        else t) = { t with
          pageTable := pre ++ full.map copyPage ++ mid, nbPages := (pre ++ full.map copyPage ++ mid).length } ∧
      (∀ p ∈ mid, p.Ok) ∧ tableBytes mid = (tableBytes rem).take left ++ tableBytes post := by
    split
    · rename_i hpos
      obtain ⟨q, rem', rfl, hlt⟩ := hleft hpos
      have hq := hrem q (by simp)
      obtain ⟨mid, e1, e2, e3⟩ := ebInsert1_cut
        (show t.pageTable = (pre ++ full.map copyPage) ++ post by rw [ht]) (by rw [ht]) hpost
        (((full ++ q :: rem').getD full.length Page.null).data.take left)
      refine ⟨mid, e1, e2, ?_⟩
      rw [e3, tableBytes_cons, List.take_append_of_le_length (by rw [hq.data]; omega)]
      simp
    · rename_i hz
      obtain rfl : left = 0 := by clear hleft; omega
      exact ⟨post, by rw [ht], hpost, by simp⟩
  have hres : insertRest dest offset (full ++ rem) size = { t with
      pageTable := pre ++ full.map copyPage ++ mid, nbPages := (pre ++ full.map copyPage ++ mid).length, curPage := none } := by
    simp only [insertRest, hcut, hcomp]
    rw [hcopies]
    simp only [hmid]
  have hb : tableBytes (pre ++ full.map copyPage ++ mid) =
      insertAt dest.bytes offset ((tableBytes (full ++ rem)).take size) := by
    rw [tableBytes_append, tableBytes_append, hcopied, hbytes, htake, hdrop, hwhole, insertAt]
    simp only [List.append_assoc]
  have hok : ∀ p ∈ pre ++ full.map copyPage ++ mid, p.Ok := by
    intro p hp
    rcases List.mem_append.1 hp with hp | hp
    · rcases List.mem_append.1 hp with hp | hp
      · exact hpre p hp
      · exact hcopy p hp
    · exact hmidok p hp
  rw [hres]
  refine ⟨⟨⟨hok, rfl, fun i hi => by simp at hi⟩, ?_⟩, hb⟩
  have hlen := congrArg List.length hb
  rw [length_tableBytes hok, length_insertAt, hd.length_bytes, List.length_take, length_tableBytes hr,
    Nat.min_eq_left hs] at hlen
  rw [ht]
  exact hlen.symm

/-- `eb_insert_buffer` inserts the slice of the source, and changes the page cache of the source only. -/
theorem insertBufferPages_spec {dest src : Pages} (hd : dest.Ok) (hsrc : src.TableOk) {destOffset srcOffset size : Nat}
    (ho : destOffset ≤ dest.totalSize) (hpos : 0 < size) (hs : srcOffset + size ≤ tableSize src.pageTable) :
    (insertBufferPages dest destOffset src srcOffset size).1.Ok ∧
      (insertBufferPages dest destOffset src srcOffset size).1.bytes =
        insertAt dest.bytes destOffset (slice src.bytes srcOffset size) ∧
      (insertBufferPages dest destOffset src srcOffset size).2.TableOk ∧
      (insertBufferPages dest destOffset src srcOffset size).2.pageTable = src.pageTable ∧
      (insertBufferPages dest destOffset src srcOffset size).2.totalSize = src.totalSize := by
  obtain ⟨pre, p, post, off, hc, hoff, hin⟩ := exists_page (show srcOffset < tableSize src.pageTable by omega)
  have hp : p.Ok := hsrc.pages p (by simp [hc])
  have hpre : ∀ q ∈ pre, q.Ok := fun q hq => hsrc.pages q (by simp [hc, hq])
  have hpost : ∀ q ∈ post, q.Ok := fun q hq => hsrc.pages q (by simp [hc, hq])
  have htot : tableSize src.pageTable = tableSize pre + tableSize (p :: post) := by rw [hc, tableSize_append]
  rw [tableSize_cons] at htot
  have hf := findPage_cut hsrc.cache hc hin
  rw [← hoff] at hf
  have hcache := hsrc.of_cache hc
  have hsl : slice src.bytes srcOffset size = (p.data.drop off ++ tableBytes post).take size := by
    rw [slice, src.bytes_eq, hc, tableBytes_append, hoff, ← length_tableBytes hpre, List.drop_length_add_append,
      tableBytes_cons, List.drop_append_of_le_length (by rw [hp.data]; omega)]
  have hpage : ({ src with curPage := some pre.length, curOffset := tableSize pre } : Pages).page pre.length = p :=
    page_of_cut hc
  have hdropp : src.pageTable.drop pre.length = p :: post := by rw [hc, List.drop_left]
  have hdrop1 : src.pageTable.drop (pre.length + 1) = post := by
    rw [hc, List.drop_length_add_append]
    rfl
  by_cases h0 : 0 < off
  · -- the bytes of the first page, then the pages after it
    obtain ⟨len, hlen⟩ : ∃ len, len = min (p.size - off) size := ⟨_, rfl⟩
    have hfirst : (slice p.data off len).length = len := length_slice _ (by rw [hp.data]; omega)
    obtain ⟨l1, l2⟩ := ebInsertLowlevel_spec hd ho (slice p.data off len)
    have hlsz : (ebInsertLowlevel dest destOffset (slice p.data off len)).totalSize = dest.totalSize + len := by
      rw [← l1.length_bytes, l2, length_insertAt, hfirst, hd.length_bytes]
    have hsplit : (p.data.drop off ++ tableBytes post).take size =
        slice p.data off len ++ (tableBytes post).take (size - len) := by
      have hdl : (p.data.drop off).length = p.size - off := by rw [List.length_drop, hp.data]
      rw [List.take_append, slice, hdl]
      by_cases hle : p.size - off ≤ size
      · rw [List.take_of_length_le (by omega), List.take_of_length_le (l := p.data.drop off) (by omega), hlen,
          Nat.min_eq_left hle]
      · rw [hlen, Nat.min_eq_right (by omega), Nat.sub_self, show size - (p.size - off) = 0 by omega]
    by_cases hz : size - len = 0
    · have hres : insertBufferPages dest destOffset src srcOffset size =
          (ebInsertLowlevel dest destOffset (slice p.data off len),
            { src with curPage := some pre.length, curOffset := tableSize pre }) := by
        simp only [insertBufferPages, hf, if_pos h0, hpage, ← hlen, if_pos hz]
      rw [hres]
      refine ⟨l1, ?_, hcache, rfl, rfl⟩
      rw [l2, hsl, hsplit, hz, List.take_zero, List.append_nil]
    · obtain ⟨r1, r2⟩ := insertRest_spec l1
        (show destOffset + len ≤ (ebInsertLowlevel dest destOffset (slice p.data off len)).totalSize by omega) hpost
        (show size - len ≤ tableSize post by omega)
      have hres : insertBufferPages dest destOffset src srcOffset size =
          (insertRest (ebInsertLowlevel dest destOffset (slice p.data off len)) (destOffset + len) post (size - len),
            { src with curPage := some pre.length, curOffset := tableSize pre }) := by
        simp only [insertBufferPages, hf, if_pos h0, hpage, ← hlen, if_neg hz, hdrop1]
      rw [hres]
      refine ⟨r1, ?_, hcache, rfl, rfl⟩
      rw [r2, l2, hsl, hsplit]
      have := insertAt_insertAt dest.bytes (slice p.data off len) ((tableBytes post).take (size - len))
        (show destOffset ≤ dest.bytes.length by rw [hd.length_bytes]; exact ho)
      rwa [hfirst] at this
  · have h0' : off = 0 := by omega
    obtain ⟨r1, r2⟩ := insertRest_spec hd ho
      (show ∀ q ∈ p :: post, q.Ok from fun q hq => hsrc.pages q (by rw [hc]; exact List.mem_append_right _ hq))
      (show size ≤ tableSize (p :: post) by rw [tableSize_cons]; omega)
    have hres : insertBufferPages dest destOffset src srcOffset size =
        (insertRest dest destOffset (p :: post) size,
          { src with curPage := some pre.length, curOffset := tableSize pre }) := by
      simp only [insertBufferPages, hf, if_neg h0, if_neg (show ¬size = 0 by omega), hdropp]
    rw [hres]
    refine ⟨r1, ?_, hcache, rfl, rfl⟩
    rw [r2, hsl, h0', List.drop_zero, tableBytes_cons]

end Hoe
