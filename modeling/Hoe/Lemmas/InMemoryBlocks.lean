import Hoe.Lemmas.InMemoryPages

/-!
# Copying pages and deleting them, in memory

`eb_insert_buffer` and `eb_delete` below the log. A copied page that is read only shares its data with the page it is copied from and
owns nothing; a deleted page is freed when it owns its data.
-/

namespace Hoe.InMemory

open Memory Splice

variable {h : Heap Byte}

/-! ## Inserting pages of another buffer -/

/-- The page at the offset is cut. -/
theorem cutPage_spec {t : Pages} (ht : Table h t.pageTable) (hok : (t.view h).Ok) (hw : h.Willing) (offset : Nat) :
    Returns (cutPage t offset) h fun r h' =>
      ∃ pre post, r.1.pageTable = pre ++ post ∧ r.2 = pre.length ∧ r.1.nbPages = r.1.pageTable.length ∧
        Edit t.pageTable r.1.pageTable h h' ∧ Hoe.cutPage (t.view h) offset = (r.1.view h', r.2) := by
  have htotal : (t.view h).totalSize = t.totalSize := rfl
  have hn : t.nbPages = t.pageTable.length := by
    have := hok.nb
    rwa [view_pageTable, List.length_map] at this
  unfold cutPage
  by_cases hin : offset < t.totalSize
  · rw [if_pos hin]
    have hsum : t.totalSize = tableSize (t.view h).pageTable := hok.total
    obtain ⟨pre, p, post, off, cur, co, hc, -, hlt, hfind, hview⟩ := findPage_spec hok.toTableOk offset (by omega)
    obtain ⟨t', ht'⟩ : ∃ t' : Pages, t' = { t with curPage := cur, curOffset := co } := ⟨_, rfl⟩
    have hsame : t'.pageTable = t.pageTable := by rw [ht']
    have hn' : t'.nbPages = t'.pageTable.length := by rw [ht']; exact hn
    have hcut' : t'.pageTable = pre ++ p :: post := hsame.trans hc
    rw [← ht'] at hfind hview
    rw [hfind]
    by_cases hoff : 0 < off
    · have hc' : t'.pageTable = (pre ++ [p]) ++ post := by simp [hcut']
      have hrest : Table h (p :: post) := by
        rw [hc] at ht
        exact ht.right
      have hp := hrest.placed p (by simp)
      have hdis : List.Disjoint p.owns (owned post) := hrest.head_disjoint
      have hsrc := hp.source off (p.size - off) (by omega)
      have hlen : (slice (p.view h).data off (p.size - off)).length = p.size - off :=
        length_slice _ (by rw [hp.length_data]; omega)
      have hins := ebInsert1_spec hc' (by rwa [hsame]) hn' hw hsrc (hp.apart (fun q hq => hrest.placed q (by simp [hq])) hdis)
      rw [hlen, List.length_append, List.length_singleton] at hins
      simp only [if_pos hoff]
      rw [page_rule hcut', pure_bind]
      refine hins.bind ?_
      rintro t₁ h₁ ⟨post₁, ht₁, he, hval⟩
      have hc₁ : t₁.pageTable = pre ++ p :: post₁ := by rw [ht₁]; simp
      obtain ⟨hcons, hpv⟩ := he.cons hrest
      have hp₁ : p.Placed h₁ := hcons.table.placed p (by simp)
      have hcut : Edit (pre ++ p :: post) (pre ++ p :: post₁) h h₁ := hcons.cut_right (by rwa [hc] at ht)
      rw [page_rule hc₁, pure_bind]
      refine (updatePage_spec hp₁ (he.frame.willing hw)).bind ?_
      rintro _ h₂ ⟨k₂, rfl, ho₂, hf₂⟩
      refine (realloc_rule 0 ho₂ off).bind ?_
      rintro _ h₃ ⟨k₃, rfl, ho₃, hf₃⟩
      have hshrunk : (Block.realloc 0 (p.view h₁).data off).length = off := Block.length_realloc ..
      have he₃ : Edit [p] [ownPage p off k₃] h₁ h₃ := Edit.ownPage ho₃ hshrunk (hf₂.trans hf₃)
      have htab₁ : Table h₁ t₁.pageTable := by
        rw [hc₁]
        exact hcut.table
      have hset := he₃.view_setPage hc₁ htab₁
      rw [(ownPage_spec p ho₃ hshrunk (h := h₁)).2] at hset
      refine Returns.pure ⟨pre ++ [ownPage p off k₃], post₁, ?_, by simp, ?_, ?_, ?_⟩
      · simp [Pages.setPage, hc₁, ownPage]
      · simp [Pages.setPage, ht₁]
      · have hcut₃ := he₃.cut (a := pre) (b := post₁) (by simpa using hcut.table)
        rw [hc]
        refine hcut.trans ?_
        simpa [Pages.setPage, hc₁, ownPage] using hcut₃
      · refine Eq.trans ?_ (congrArg (·, pre.length + 1) hset.symm)
        simp only [Hoe.cutPage, htotal, if_pos hin, hview, if_pos hoff, view_page hcut', view_size, ← hval, view_page hc₁, remade]
    · simp only [if_neg hoff]
      refine Returns.pure ⟨pre, p :: post, hcut', rfl, hn', by rw [hsame]; exact Edit.refl ht, ?_⟩
      simp only [Hoe.cutPage, htotal, if_pos hin, hview, if_neg hoff]
  · rw [if_neg hin]
    refine Returns.pure ⟨t.pageTable, [], by simp, hn, hn, Edit.refl ht, ?_⟩
    simp only [Hoe.cutPage, htotal, if_neg hin]
    rfl

/-- A page is copied: the copy of a read only page owns nothing. -/
theorem copyPage_spec {p : Page} (hp : p.Placed h) :
    Returns (copyPage p) h fun q h' => Edit [] [q] h h' ∧ q.view h' = Hoe.copyPage (p.view h) := by
  unfold copyPage
  cases hro : p.readOnly with
  | true =>
    obtain ⟨c, hc, hfile, hle⟩ := hp.shared hro
    rw [if_pos rfl]
    refine Returns.pure ⟨⟨Frame.refl [] h, Table.single ⟨fun _ => ⟨c, hc, hfile, hle⟩, fun hf => by cases hf⟩⟩, ?_⟩
    simp [Page.view, newPage, Hoe.copyPage, Hoe.newPage, hro]
  | false =>
    obtain ⟨hoff, xs, ho, hlen⟩ := hp.own hro
    have hfull : 0 + p.size ≤ p.size := by omega
    have hdata : slice (p.view h).data 0 p.size = (p.view h).data := by
      rw [slice, List.drop_zero, List.take_of_length_le (Nat.le_of_eq hp.length_data)]
    rw [if_neg Bool.false_ne_true]
    refine (malloc_rule 0 p.size h).bind ?_
    rintro _ h₁ ⟨k, rfl, ho₁, hf₁⟩
    obtain ⟨hp₁, hview⟩ := hp.kept hf₁ (by simp)
    have hload := load_page hp₁ 0 p.size hfull
    rw [hview, hdata] at hload
    refine hload.bind ?_
    rintro _ _ ⟨rfl, rfl⟩
    refine (store_rule ho₁ (by rw [hp.length_data, List.length_replicate, Nat.zero_add])).bind ?_
    rintro _ h₂ ⟨ho₂, hf₂⟩
    rw [Block.memcpy, overwriteAt_whole (by simp [hp.length_data])] at ho₂
    obtain ⟨hplaced, hnew⟩ := newPage_spec ho₂ hp.length_data
    refine Returns.pure ⟨⟨hf₁.trans hf₂, Table.single hplaced⟩, hnew.trans ?_⟩
    simp [Hoe.copyPage, Page.view, hro]

theorem copyPages_spec {ps : List Page} (hps : ∀ p ∈ ps, p.Placed h) :
    Returns (copyPages ps) h fun qs h' =>
      Edit [] qs h h' ∧ qs.map (·.view h') = (ps.map (·.view h)).map Hoe.copyPage ∧ qs.length = ps.length := by
  induction ps generalizing h with
  | nil => exact Returns.pure ⟨Edit.refl (Table.nil h), rfl, rfl⟩
  | cons p ps ih =>
    unfold copyPages
    refine (copyPage_spec (hps p (by simp))).bind ?_
    rintro q h₁ ⟨he, hq⟩
    obtain ⟨hps₁, hviews⟩ := kept_pages (fun r hr => hps r (List.mem_cons_of_mem p hr)) he.frame (by simp)
    refine (ih hps₁).bind ?_
    rintro qs h₂ ⟨he₂, hqs, hlen⟩
    obtain ⟨hcons, hkept⟩ := he₂.cons he.table
    refine Returns.pure ⟨he.trans hcons, ?_, by simp [hlen]⟩
    rw [List.map_cons, hkept, hq, hqs, hviews]
    rfl

theorem view_completePages (h : Heap Byte) (ps : List Page) (size : Nat) :
    Hoe.completePages (ps.map (·.view h)) size = completePages ps size := by
  induction ps generalizing size with
  | nil => rfl
  | cons p ps ih => simp only [List.map_cons, Hoe.completePages, completePages, view_size, ih]

/-- The part that starts at a page of the source. -/
theorem insertRest_spec {dest : Pages} (ht : Table h dest.pageTable) (hok : (dest.view h).Ok) (hw : h.Willing) (offset : Nat)
    {rest : List Page} (hrest : ∀ p ∈ rest, p.Placed h) (hdis : List.Disjoint (owned rest) (owned dest.pageTable)) {size : Nat}
    (hs : size ≤ tableSize (rest.map (·.view h))) :
    Returns (insertRest dest offset rest size) h fun d h' =>
      Edit dest.pageTable d.pageTable h h' ∧
        d.view h' = Hoe.insertRest (dest.view h) offset (rest.map (·.view h)) size := by
  unfold insertRest
  refine (cutPage_spec ht hok hw offset).bind ?_
  rintro ⟨d₁, i⟩ h₁ ⟨pre, post, hc, hi, hn, he, hval⟩
  simp only at hc hi hn he hval ⊢
  obtain ⟨hrest₁, hviews⟩ := kept_pages hrest he.frame hdis
  obtain ⟨d₂, hd₂⟩ : ∃ d₂ : Pages, d₂ = { d₁ with totalSize := d₁.totalSize + size } := ⟨_, rfl⟩
  have hc₂ : d₂.pageTable = pre ++ post := by rw [hd₂]; exact hc
  have hn₂ : d₂.nbPages = d₂.pageTable.length := by rw [hd₂]; exact hn
  have he₁ : Edit dest.pageTable d₂.pageTable h h₁ := by rw [hd₂]; exact he
  obtain ⟨n, left, hcp⟩ : ∃ n left, completePages rest size = (n, left) := ⟨_, _, rfl⟩
  obtain ⟨full, rem, left', hcp', hcut, -, hlast⟩ := completePages_spec hs
  rw [view_completePages, hcp] at hcp'
  obtain ⟨hfull, rfl⟩ : n = full.length ∧ left = left' := Prod.mk.inj hcp'
  have hnlen : n ≤ rest.length := by
    have := congrArg List.length hcut
    rw [List.length_map, List.length_append] at this
    omega
  rw [hcp, ← hd₂]
  simp only
  -- the complete pages
  have hcopy : Returns (if 0 < n then do
        let ps ← copyPages (rest.take n)
        pure (insertPages d₂ i ps, i + n)
      else pure (d₂, i)) h₁ fun r h₂ =>
      ∃ pre post, r.1.pageTable = pre ++ post ∧ r.2 = pre.length ∧ r.1.nbPages = r.1.pageTable.length ∧
        Edit dest.pageTable r.1.pageTable h h₂ ∧
        (if 0 < n then
          (Hoe.insertPages (d₂.view h₁) i (((rest.map (·.view h)).take n).map Hoe.copyPage), i + n)
        else (d₂.view h₁, i)) = (r.1.view h₂, r.2) := by
    by_cases hpos : 0 < n
    · rw [if_pos hpos, if_pos hpos]
      refine (copyPages_spec fun p hp => hrest₁ p (List.mem_of_mem_take hp)).bind ?_
      rintro ps h₂ ⟨he₂, hps, hlen⟩
      have htab : Table h₁ (pre ++ [] ++ post) := by
        rw [List.append_nil, ← hc₂]
        exact he₁.table
      have hkept : d₂.view h₂ = d₂.view h₁ := Table.view_kept he₁.table he₂.frame (by simp)
      have hins := insertPages_table hc₂ hn₂ ps
      rw [List.length_take, Nat.min_eq_left hnlen] at hlen
      refine Returns.pure ⟨pre ++ ps, post, by rw [hi, hins], by rw [hi, List.length_append, hlen], by rw [hi, hins], ?_, ?_⟩
      · have hcut₂ := he₂.cut htab
        rw [List.append_nil, ← hc₂] at hcut₂
        rw [hi, hins]
        exact he₁.trans hcut₂
      · rw [view_insertPages, hkept, hps, ← hviews]
        simp only [List.map_take]
    · rw [if_neg hpos, if_neg hpos]
      exact Returns.pure ⟨pre, post, hc₂, hi, hn₂, he₁, rfl⟩
  refine hcopy.bind ?_
  rintro ⟨d₃, j⟩ h₃ ⟨pre₃, post₃, hc₃, hj, hn₃, he₃, hval₃⟩
  simp only at hc₃ hj hn₃ he₃ hval₃ ⊢
  have hvals : Hoe.insertRest (dest.view h) offset (rest.map (·.view h)) size =
      { (if 0 < left then
          Hoe.ebInsert1 (d₃.view h₃) j (((rest.map (·.view h)).getD n Hoe.Page.null).data.take left) else d₃.view h₃) with
        curPage := none } := by
    have hview₂ : ({ d₁.view h₁ with totalSize := (d₁.view h₁).totalSize + size } : Hoe.Pages) = d₂.view h₁ := by
      rw [hd₂]
      rfl
    simp only [Hoe.insertRest, hval, view_completePages, hcp, hview₂, hval₃]
  rw [hvals]
  by_cases hpos : 0 < left
  · obtain ⟨Q, POST, hrem, hlt⟩ := hlast hpos
    rw [hrem] at hcut
    obtain ⟨pre', rest', rfl, rfl, hrest'⟩ := List.map_eq_append_iff.mp hcut
    obtain ⟨q, post', rfl, rfl, -⟩ := List.map_eq_cons_iff.mp hrest'
    have hget : (pre' ++ q :: post')[n]? = some q := by simp [hfull]
    have hgetD : ((pre' ++ q :: post').map (·.view h)).getD n Hoe.Page.null = q.view h := by simp [hfull]
    have hq : q.Placed h := hrest q (by simp)
    have hqd : List.Disjoint q.owns (owned dest.pageTable) := fun k hk => hdis (by simp [hk])
    obtain ⟨hq₃, hqv⟩ := hq.kept he₃.frame hqd
    have hsrc := hq₃.source 0 left (by simpa using Nat.le_of_lt hlt)
    have hlen : (slice (q.view h₃).data 0 left).length = left :=
      length_slice _ (by rw [hq₃.length_data, Nat.zero_add]; exact Nat.le_of_lt hlt)
    have hapart : (Source.data (q.data.add 0)).Apart (owned post₃) := by
      have htab := he₃.table
      rw [hc₃] at htab
      refine hq₃.apart htab.right.placed fun k hk hin => ?_
      refine he₃.frame.disjoint hq.live hqd hk ?_
      rw [hc₃, owned_append]
      exact List.mem_append_right _ hin
    have hins := ebInsert1_spec hc₃ he₃.table hn₃ (he₃.frame.willing hw) hsrc hapart
    rw [hlen, hqv] at hins
    rw [if_pos hpos, if_pos hpos, hget, hgetD, hj]
    refine Returns.bind hins ?_
    rintro d₄ h₄ ⟨post₄, hd₄, he₄, hval₄⟩
    refine Returns.pure ⟨?_, ?_⟩
    · have htab := he₃.table
      rw [hc₃] at htab he₃
      rw [hd₄]
      exact he₃.trans (he₄.cut_right htab)
    · rw [slice, List.drop_zero] at hval₄
      rw [← hval₄]
      rfl
  · rw [if_neg hpos, if_neg hpos]
    exact Returns.pure ⟨he₃, rfl⟩

/-- `eb_insert_buffer` below the log: the pages of the source stay, and stay where they are. -/
theorem insertBufferPages_spec {dest src : Pages} (ht : Table h dest.pageTable) (hok : (dest.view h).Ok) (hw : h.Willing)
    (hsrc : ∀ p ∈ src.pageTable, p.Placed h) (hsok : (src.view h).TableOk)
    (hdis : List.Disjoint (owned src.pageTable) (owned dest.pageTable)) (destOffset srcOffset size : Nat)
    (ho : destOffset ≤ dest.totalSize) (hpos : 0 < size) (hs : srcOffset + size ≤ tableSize (src.view h).pageTable) :
    Returns (insertBufferPages dest destOffset src srcOffset size) h fun r h' =>
      Edit dest.pageTable r.1.pageTable h h' ∧ r.2.pageTable = src.pageTable ∧
        Hoe.insertBufferPages (dest.view h) destOffset (src.view h) srcOffset size = (r.1.view h', r.2.view h') := by
  have htotal : dest.totalSize = tableSize (dest.view h).pageTable := hok.total
  obtain ⟨pre, p, post, off, cur, co, hc, hoff, hlt, hfind, hview⟩ := findPage_spec hsok srcOffset (by omega)
  obtain ⟨src', hsrc'⟩ : ∃ src' : Pages, src' = { src with curPage := cur, curOffset := co } := ⟨_, rfl⟩
  have hsame : src'.pageTable = src.pageTable := by rw [hsrc']
  have hcut : src'.pageTable = pre ++ p :: post := hsame.trans hc
  rw [← hsrc'] at hfind hview
  have hp := hsrc p (by simp [hc])
  rw [view_pageTable, hc, List.map_append, tableSize_append, List.map_cons, tableSize_cons, view_size] at hs
  unfold insertBufferPages
  rw [hfind]
  simp only
  -- the first page, when it is not completely selected
  have hfirst : Returns (if 0 < off then do
        let p ← src'.page pre.length
        let len := min (p.size - off) size
        let dest ← ebInsertLowlevel dest destOffset (.data (p.data.add off)) len
        pure (dest, len, pre.length + 1)
      else pure (dest, 0, pre.length)) h fun r h₁ =>
      Edit dest.pageTable r.1.pageTable h h₁ ∧ (r.1.view h₁).Ok ∧
        size - r.2.1 ≤ tableSize ((src.pageTable.drop r.2.2).map (·.view h)) ∧
        (if 0 < off then
          let p := (src'.view h).page pre.length
          let len := min (p.size - off) size
          (Hoe.ebInsertLowlevel (dest.view h) destOffset (slice p.data off len), destOffset + len, size - len, pre.length + 1)
        else (dest.view h, destOffset, size, pre.length)) = (r.1.view h₁, destOffset + r.2.1, size - r.2.1, r.2.2) := by
    by_cases hcutoff : 0 < off
    · rw [if_pos hcutoff, if_pos hcutoff, page_rule hcut, pure_bind]
      obtain ⟨len, hlen⟩ : ∃ len, len = min (p.size - off) size := ⟨_, rfl⟩
      have hbytes := hp.source off len (by omega)
      have hlength : (slice (p.view h).data off len).length = len := length_slice _ (by rw [hp.length_data]; omega)
      have hapart : (Source.data (p.data.add off)).Apart (owned dest.pageTable) :=
        hp.apart ht.placed fun k hk => hdis (by simp [hc, hk])
      have hins := ebInsertLowlevel_spec ht hok.toTableOk hw destOffset (by omega) hbytes hapart
      rw [hlength] at hins
      simp only [← hlen]
      refine hins.bind ?_
      rintro d₁ h₁ ⟨he, hval⟩
      refine Returns.pure ⟨he, ?_, ?_, ?_⟩
      · rw [hval]
        exact (Hoe.ebInsertLowlevel_spec hok ho _).1
      · have hdrop : src.pageTable.drop (pre.length + 1) = post := by
          rw [hc, List.append_cons, List.drop_left' (by simp)]
        simp only [hdrop]
        omega
      · simp only [view_page hcut, view_size, ← hlen, hval]
    · rw [if_neg hcutoff, if_neg hcutoff]
      refine Returns.pure ⟨Edit.refl ht, hok, ?_, rfl⟩
      have hdrop : src.pageTable.drop pre.length = p :: post := by rw [hc, List.drop_left]
      simp only [hdrop, List.map_cons, tableSize_cons, view_size]
      omega
  refine hfirst.bind ?_
  rintro ⟨d₁, len, i⟩ h₁ ⟨he, hok₁, hleft, hval⟩
  simp only at he hok₁ hleft hval ⊢
  obtain ⟨hsrc₁, hviews⟩ := kept_pages hsrc he.frame hdis
  have hsv : src'.view h₁ = src'.view h := by simp only [Pages.view, hsame, hviews]
  have hvals : Hoe.insertBufferPages (dest.view h) destOffset (src.view h) srcOffset size =
      if size - len = 0 then (d₁.view h₁, src'.view h)
      else (Hoe.insertRest (d₁.view h₁) (destOffset + len) ((src'.view h).pageTable.drop i) (size - len), src'.view h) := by
    simp only [Hoe.insertBufferPages, hview, hval]
  rw [hvals]
  by_cases hz : size - len = 0
  · rw [if_pos hz, if_pos hz]
    exact Returns.pure ⟨he, hsame, by rw [hsv]⟩
  rw [if_neg hz, if_neg hz]
  have hdis₁ : List.Disjoint (owned src.pageTable) (owned d₁.pageTable) := by
    refine he.frame.disjoint (fun k hk => ?_) hdis
    obtain ⟨q, hq, hk⟩ := List.mem_flatMap.mp hk
    exact (hsrc q hq).live k hk
  have hplaced : ∀ q ∈ src'.pageTable.drop i, q.Placed h₁ := by
    intro q hq
    rw [hsame] at hq
    exact hsrc₁ q (List.mem_of_mem_drop hq)
  have hapart : List.Disjoint (owned (src'.pageTable.drop i)) (owned d₁.pageTable) := by
    intro k hk
    obtain ⟨q, hq, hk⟩ := List.mem_flatMap.mp hk
    rw [hsame] at hq
    exact hdis₁ (List.mem_flatMap.mpr ⟨q, List.mem_of_mem_drop hq, hk⟩)
  have hleft₁ : size - len ≤ tableSize ((src'.pageTable.drop i).map (·.view h₁)) := by
    rw [hsame, List.map_drop, hviews, ← List.map_drop]
    exact hleft
  have hrest := insertRest_spec he.table hok₁ (he.frame.willing hw) (destOffset + len) hplaced hapart hleft₁
  refine hrest.bind ?_
  rintro d₂ h₂ ⟨he₂, hval₂⟩
  obtain ⟨-, hviews₂⟩ := kept_pages hsrc₁ he₂.frame hdis₁
  have hsv₂ : src'.view h₂ = src'.view h₁ := by simp only [Pages.view, hsame, hviews₂]
  refine Returns.pure ⟨he.trans he₂, hsame, ?_⟩
  rw [hval₂, hsv₂, hsv, view_pageTable, hsame, List.map_drop, hviews]

/-! ## Deleting -/

theorem freePage_spec {p : Page} (hp : p.Placed h) : Returns (freePage p) h fun _ h' => Frame p.owns [] h h' := by
  unfold freePage Page.owns
  cases hro : p.readOnly with
  | true =>
    rw [if_pos rfl, if_pos rfl]
    exact Returns.pure (Frame.refl [] h)
  | false =>
    obtain ⟨hoff, xs, ho, -⟩ := hp.own hro
    have hdata : p.data = ⟨p.data.block, 0⟩ := by rw [← hoff]
    rw [if_neg Bool.false_ne_true, if_neg Bool.false_ne_true, hdata]
    exact free_rule ho

/-- A page loses a part. -/
theorem closeGap_spec {p : Page} (hp : p.Placed h) (hw : h.Willing) (off len : Nat) (hle : off + len ≤ p.size) :
    Returns (closeGap p off len) h fun q h' =>
      Edit [p] [q] h h' ∧ q.size = p.size - len ∧ q.view h' = remade (p.view h) (p.size - len)
        (Block.realloc 0 (Block.memmove (p.view h).data off (off + len) (p.size - off - len)) (p.size - len)) := by
  have hdata := hp.length_data
  unfold closeGap
  refine (updatePage_spec hp hw).bind ?_
  rintro _ h₁ ⟨k₁, rfl, ho₁, hf₁⟩
  change Returns (memmove ((⟨k₁, 0⟩ : Ptr).add off) ((⟨k₁, 0⟩ : Ptr).add (off + len)) (p.size - off - len) >>= _) _ _
  rw [Ptr.add_start, Ptr.add_start]
  refine (memmove_rule ho₁ (by omega) (by omega)).bind ?_
  rintro _ h₂ ⟨ho₂, hf₂⟩
  refine (realloc_rule 0 ho₂ (p.size - len)).bind ?_
  rintro _ h₃ ⟨k₃, rfl, ho₃, hf₃⟩
  have hlen := Block.length_realloc 0 (Block.memmove (p.view h).data off (off + len) (p.size - off - len)) (p.size - len)
  exact Returns.pure ⟨Edit.ownPage ho₃ hlen ((hf₁.trans hf₂).trans hf₃), rfl, (ownPage_spec p ho₃ hlen).2⟩

/-- A page that is freed leaves the table. -/
theorem Edit.free {h' : Heap Byte} {p : Page} {ps : List Page} (ht : Table h (p :: ps)) (hf : Frame p.owns [] h h') :
    Edit (p :: ps) ps h h' ∧ ps.map (·.view h') = ps.map (·.view h) := by
  obtain ⟨htab, hviews⟩ := ht.tail.kept hf ht.head_disjoint.symm
  exact ⟨⟨by simpa using hf.cut [] (owned ps), htab⟩, hviews⟩

theorem deleteLoop_zero (ps : List Page) (i off : Nat) (start : Option Nat) (n : Nat) :
    deleteLoop ps i off 0 start n = pure ⟨ps, start, n⟩ := by
  cases ps <;> rfl

/-- The loop at the beginning of a page: whole pages go, and the one that loses a part is the last. -/
theorem deleteLoop_whole {ps : List Page} (ht : Table h ps) (hw : h.Willing) (size : Nat)
    (hs : size ≤ tableSize (ps.map (·.view h))) (i : Nat) (start : Option Nat) (n : Nat) :
    Returns (deleteLoop ps i 0 size start n) h fun d h' =>
      ∃ b c, b <+: ps ∧ d = ⟨b ++ c, if b.length = 0 then start else start.or (some i), n + b.length⟩ ∧ Edit ps c h h' ∧
        Hoe.deleteLoop (ps.map (·.view h)) i 0 size start n =
          ⟨b.map (·.view h) ++ c.map (·.view h'), if b.length = 0 then start else start.or (some i), n + b.length⟩ := by
  induction ps generalizing h size i start n with
  | nil =>
    obtain rfl : size = 0 := by
      rw [List.map_nil, tableSize_nil] at hs
      omega
    rw [deleteLoop_zero]
    exact Returns.pure ⟨[], [], List.nil_prefix, rfl, Edit.refl ht, Hoe.deleteLoop_zero_size ..⟩
  | cons p ps ih =>
    rw [List.map_cons, tableSize_cons, view_size] at hs
    have hp := ht.placed p (by simp)
    rcases Nat.eq_zero_or_pos size with rfl | hpos
    · rw [deleteLoop_zero]
      exact Returns.pure ⟨[], p :: ps, List.nil_prefix, rfl, Edit.refl ht, Hoe.deleteLoop_zero_size ..⟩
    obtain ⟨len, hlen⟩ : ∃ len, len = min (p.size - 0) size := ⟨_, rfl⟩
    unfold deleteLoop
    simp only [List.map_cons, Hoe.deleteLoop, view_size, ← hlen, if_neg (Nat.ne_of_gt hpos)]
    by_cases hwhole : len = p.size
    · simp only [if_pos hwhole]
      refine (freePage_spec hp).bind ?_
      rintro _ h₁ hf
      obtain ⟨he, hviews⟩ := Edit.free ht hf
      refine (ih he.table (hf.willing hw) (size - len) (by rw [hviews]; omega) (i + 1) (start.or (some i)) (n + 1)).bind ?_
      rintro _ h₂ ⟨b, c, ⟨r, rfl⟩, rfl, he₂, hval⟩
      have hb : b.map (·.view h₁) = b.map (·.view h) := by
        rw [List.map_append, List.map_append] at hviews
        exact (List.append_inj hviews (by simp)).1
      have hstart : (if b.length = 0 then start.or (some i) else (start.or (some i)).or (some (i + 1))) = start.or (some i) := by
        split
        · rfl
        · rw [Option.or_assoc, Option.some_or]
      rw [hviews, hb, hstart] at hval
      rw [hstart]
      refine Returns.pure ⟨p :: b, c, ⟨r, rfl⟩, ?_, he.trans he₂, ?_⟩
      · simp [Nat.add_comm, Nat.add_left_comm]
      · rw [hval]
        simp [Nat.add_comm, Nat.add_left_comm]
    · simp only [if_neg hwhole]
      have hsize : len = size := by omega
      refine (closeGap_spec hp hw 0 len (by omega)).bind ?_
      rintro q h₁ ⟨he, -, hq⟩
      obtain ⟨-, hkept⟩ := he.cut_view (a := []) (b := ps) ht
      have hcut := he.cut_left (b := ps) ht
      rw [hsize, Nat.sub_self, deleteLoop_zero, Hoe.deleteLoop_zero_size]
      refine Returns.mono (P := fun d h' => d = ⟨q :: ps, start, n⟩ ∧ h' = h₁) ?_ ?_
      · split
        · exact Returns.pure ⟨rfl, rfl⟩
        · exact Returns.pure ⟨rfl, rfl⟩
      · rintro _ _ ⟨rfl, rfl⟩
        refine ⟨[], q :: ps, List.nil_prefix, rfl, hcut, ?_⟩
        rw [List.map_cons, hq, hkept, hsize]
        split <;> rfl

/-- The loop from an offset in the first page on: that page may lose its end, then whole pages go. -/
theorem deleteLoop_spec {p : Page} {ps : List Page} (ht : Table h (p :: ps)) (hw : h.Willing) {off size : Nat} (hlt : off < p.size)
    (hs : off + size ≤ tableSize ((p :: ps).map (·.view h))) (i : Nat) :
    Returns (deleteLoop (p :: ps) i off size none 0) h fun d h' =>
      ∃ a b c start, d = ⟨a ++ b ++ c, start, b.length⟩ ∧ (0 < b.length → start = some (i + a.length)) ∧
        Edit (p :: ps) (a ++ c) h h' ∧
        Hoe.deleteLoop ((p :: ps).map (·.view h)) i off size none 0 =
          ⟨a.map (·.view h') ++ b.map (·.view h) ++ c.map (·.view h'), start, b.length⟩ := by
  rcases Nat.eq_zero_or_pos off with rfl | hoff
  · refine (deleteLoop_whole ht hw size (by omega) i none 0).mono ?_
    rintro d h' ⟨b, c, -, rfl, he, hval⟩
    refine ⟨[], b, c, _, by rw [Nat.zero_add]; rfl, fun hpos => ?_, he, by rw [hval, Nat.zero_add]; rfl⟩
    rw [if_neg (by omega)]
    rfl
  rcases Nat.eq_zero_or_pos size with rfl | hpos
  · rw [deleteLoop_zero, Hoe.deleteLoop_zero_size]
    exact Returns.pure ⟨[], [], p :: ps, none, rfl, by simp, Edit.refl ht, rfl⟩
  rw [List.map_cons, tableSize_cons, view_size] at hs
  have hp := ht.placed p (by simp)
  obtain ⟨len, hlen⟩ : ∃ len, len = min (p.size - off) size := ⟨_, rfl⟩
  unfold deleteLoop
  simp only [List.map_cons, Hoe.deleteLoop, view_size, ← hlen, if_neg (Nat.ne_of_gt hpos), if_neg (show ¬len = p.size by omega)]
  refine (closeGap_spec hp hw off len (by omega)).bind ?_
  rintro q h₁ ⟨he, hqs, hq⟩
  obtain ⟨-, hkept⟩ := he.cut_view (a := []) (b := ps) ht
  have hcut := he.cut_left (b := ps) ht
  rw [hqs]
  by_cases hnext : p.size - len ≤ off + len
  · simp only [if_pos hnext]
    have hrest : Table h₁ ps := hcut.table.tail
    refine (deleteLoop_whole hrest (hcut.frame.willing hw) (size - len) (by rw [hkept]; omega) (i + 1) none 0).bind ?_
    rintro _ h₂ ⟨b, c, ⟨r, rfl⟩, rfl, he₂, hval⟩
    have hb : b.map (·.view h₁) = b.map (·.view h) := by
      rw [List.map_append, List.map_append] at hkept
      exact (List.append_inj hkept (by simp)).1
    obtain ⟨hcons, hqv⟩ := he₂.cons hcut.table
    rw [hkept, hb, Nat.zero_add] at hval
    refine Returns.pure ⟨[q], b, c, _, by rw [Nat.zero_add]; rfl, fun hb => ?_, hcut.trans hcons, ?_⟩
    · rw [if_neg (by omega)]
      rfl
    · rw [hval, List.map_cons, hqv, hq]
      rfl
  · simp only [if_neg hnext]
    refine Returns.pure ⟨[], [], q :: ps, none, rfl, by simp, hcut, ?_⟩
    simp only [List.map_nil, List.nil_append, List.map_cons, hq, hkept]
    rfl

/-- The emptied pages leave the table. -/
theorem removePages {α : Type} (null : α) (pre a b c : List α) {nb : Nat} (hnb : nb = (pre ++ (a ++ b ++ c)).length) :
    Block.realloc null (Block.memmove (pre ++ (a ++ b ++ c)) (pre.length + a.length) (pre.length + a.length + b.length)
      (nb - b.length - (pre.length + a.length))) (nb - b.length) = pre ++ (a ++ c) := by
  have hclose := Block.close_gap null (pre ++ (a ++ b ++ c)) (pre.length + a.length) b.length (by simp; omega)
  have hcut : pre ++ (a ++ b ++ c) = (pre ++ a) ++ (b ++ c) := by simp
  rw [hnb, Nat.sub_sub, Nat.add_comm b.length, hclose, hcut, ← List.length_append, removeAt_append, List.drop_left]
  simp

/-- `eb_delete` below the log. -/
theorem deletePages_spec {t : Pages} (ht : Table h t.pageTable) (hok : (t.view h).TableOk) (hw : h.Willing) {offset size : Nat}
    (ho : offset < tableSize (t.view h).pageTable) (hs : offset + size ≤ tableSize (t.view h).pageTable) :
    Returns (deletePages t offset size) h fun t' h' =>
      Edit t.pageTable t'.pageTable h h' ∧ t'.view h' = Hoe.deletePages (t.view h) offset size := by
  obtain ⟨pre, p, post, off, cur, co, hc, hoff, hlt, hfind, hview⟩ := findPage_spec hok offset ho
  have hn : t.nbPages = t.pageTable.length := by
    have := hok.nb
    rwa [view_pageTable, List.length_map] at this
  have hdrop : t.pageTable.drop pre.length = p :: post := by rw [hc, List.drop_left]
  have htake : t.pageTable.take pre.length = pre := by rw [hc, List.take_left]
  rw [view_pageTable, hc, List.map_append, tableSize_append] at hs
  rw [hc] at ht
  unfold deletePages
  simp only [hfind, hdrop, htake]
  refine (deleteLoop_spec ht.right hw hlt (by omega) pre.length).bind ?_
  rintro _ h' ⟨a, b, c, start, rfl, hstart, he, hval⟩
  have hcut := he.cut_right ht
  have hpre := (he.cut_view (b := []) (by simpa using ht)).1
  have hlen : (a ++ b ++ c).length = (p :: post).length := by
    have hkeep := Hoe.length_deleteLoop ((p :: post).map (·.view h)) pre.length off size none 0
    rw [hval] at hkeep
    simpa using hkeep
  have hnb : t.nbPages = (pre ++ (a ++ b ++ c)).length := by
    rw [hn, hc, List.length_append, List.length_append, hlen]
  have htakev : (t.pageTable.map (·.view h)).take pre.length = pre.map (·.view h') := by
    rw [hc, List.map_append, List.take_left' (by simp), hpre]
  have hdropv : (t.pageTable.map (·.view h)).drop pre.length = (p :: post).map (·.view h) := by
    rw [hc, List.map_append, List.drop_left' (by simp)]
  have hnbv : (({ t with curPage := cur, curOffset := co } : Pages).view h).nbPages = t.nbPages := rfl
  by_cases hpos : 0 < b.length
  · have hremove := removePages Page.null pre a b c hnb
    have hremovev := removePages Hoe.Page.null (pre.map (·.view h')) (a.map (·.view h')) (b.map (·.view h)) (c.map (·.view h'))
      (show t.nbPages = _ by simpa using hnb)
    simp only [List.length_map] at hremovev
    simp only [if_pos hpos, hstart hpos, Option.getD_some, hremove]
    refine Returns.pure ⟨by rw [hc]; exact hcut, ?_⟩
    simp only [Hoe.deletePages, hview, view_pageTable, htakev, hdropv, hval, if_pos hpos, hstart hpos, Option.getD_some, hnbv,
      hremovev]
    simp only [Pages.view, List.map_append]
  · obtain rfl : b = [] := List.eq_nil_of_length_eq_zero (by omega)
    simp only [if_neg hpos]
    refine Returns.pure ⟨by rw [hc]; simpa using hcut, ?_⟩
    simp only [Hoe.deletePages, hview, view_pageTable, htakev, hdropv, hval, if_neg hpos]
    simp only [Pages.view, List.map_append, List.map_nil, List.append_nil]

end Hoe.InMemory
