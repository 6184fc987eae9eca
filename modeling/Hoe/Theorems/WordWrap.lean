import Hoe.Lemmas.Rows

/-!
# The wrapping of words

In the mode `WRAP_WORD` the words in front of the current one are flushed when that does not fit, and it begins the next row. When
it is at the beginning of the row there is nothing in front of it, and a row without glyphs is flushed; when it is a run of blanks
that is too long, it stays so. A word that begins with the second fragment of the line may be blanks after blanks.
-/

namespace Hoe

namespace Layout

open TextDisplay (WrapType maxScreenWidth maxWordSize styleShift tab space)

/-! ## Rows of words -/

/-- Glyphs that fit into the window, or have no blank among them. -/
def Tidy (e : Setting) (gs : List Glyph) : Prop := columns gs ≤ e.width ∨ ∀ g ∈ gs, g.ch ≠ space

/-- A word ends where a run of blanks begins, or the other way round. -/
def Breaks (row next : List Glyph) : Prop :=
  ∃ g g', row.getLast? = some g ∧ next.head? = some g' ∧ ¬(g.ch = space ↔ g'.ch = space)

/-- The rows of a line so far, and what is pending. -/
structure GoodWords (e : Setting) (rows : List (List Glyph)) (pending : List Glyph) : Prop where
  flushed : ∀ row ∈ rows, row ≠ [] ∧ Tidy e row
  chain : (rows ++ [pending]).IsChain Breaks
  tidy : Tidy e pending

theorem Tidy.of_bare {e : Setting} {gs hs : List Glyph} (h : gs.map Glyph.bare = hs.map Glyph.bare) (ht : Tidy e gs) : Tidy e hs := by
  refine ht.imp (fun hfits => showsWidth_bare.columns h ▸ hfits) fun hword g hg => ?_
  have hmem : g.bare ∈ gs.map Glyph.bare := h ▸ List.mem_map_of_mem hg
  obtain ⟨g', hg', hsame⟩ := List.mem_map.1 hmem
  exact (congrArg Glyph.ch hsame) ▸ hword g' hg'

theorem Breaks.of_bare {row gs hs : List Glyph} (h : gs.map Glyph.bare = hs.map Glyph.bare) (hb : Breaks row gs) : Breaks row hs := by
  obtain ⟨g, g', hlast, hhead, hne⟩ := hb
  have hsame := congrArg List.head? h
  rw [List.head?_map, List.head?_map, hhead] at hsame
  obtain ⟨g'', hhead', hch⟩ := Option.map_eq_some_iff.1 hsame.symm
  refine ⟨g, g'', hlast, hhead', fun hiff => hne ?_⟩
  have hsame : g''.bare.ch = g'.bare.ch := congrArg Glyph.ch hch
  exact hiff.trans (iff_of_eq (congrArg (· = space) hsame))

/-- What is pending may be exchanged for glyphs that begin alike. -/
theorem chain_congr {rows : List (List Glyph)} {gs hs : List Glyph} (h : ∀ row, Breaks row gs → Breaks row hs)
    (hc : (rows ++ [gs]).IsChain Breaks) : (rows ++ [hs]).IsChain Breaks := by
  obtain ⟨hrows, -, hlast⟩ := List.isChain_append.1 hc
  refine List.isChain_append.2 ⟨hrows, List.isChain_singleton hs, fun row hrow next hnext => ?_⟩
  rw [← Option.some.inj hnext]
  exact h row (hlast row hrow gs rfl)

theorem GoodWords.of_bare {e : Setting} {rows : List (List Glyph)} {gs hs : List Glyph} (h : gs.map Glyph.bare = hs.map Glyph.bare)
    (hg : GoodWords e rows gs) : GoodWords e rows hs :=
  ⟨hg.flushed, chain_congr (fun _ hb => hb.of_bare h) hg.chain, hg.tidy.of_bare h⟩

/-- Glyphs are added to what is pending, and the row still fits. -/
theorem goodWords_append {e : Setting} {rows : List (List Glyph)} {gs hs : List Glyph} (hempty : gs = [] → rows = [])
    (hwidths : 0 ≤ columns hs) (hfits : columns gs + columns hs ≤ e.width) :
    GoodWords e rows (gs ++ hs) ↔ GoodWords e rows gs := by
  have hhead (row : List Glyph) (hne : gs ≠ []) : Breaks row (gs ++ hs) ↔ Breaks row gs := by
    rw [Breaks, Breaks, List.head?_append_of_ne_nil _ hne]
  have hchain : (rows ++ [gs ++ hs]).IsChain Breaks ↔ (rows ++ [gs]).IsChain Breaks := by
    by_cases hgs : gs = []
    · rw [hempty hgs]
      exact iff_of_true (List.isChain_singleton _) (List.isChain_singleton _)
    · exact ⟨chain_congr fun row => (hhead row hgs).1, chain_congr fun row => (hhead row hgs).2⟩
  constructor
  · intro h
    exact ⟨h.flushed, hchain.1 h.chain, Or.inl (by omega)⟩
  · intro h
    exact ⟨h.flushed, hchain.2 h.chain, Or.inl (by rw [columns_append]; exact hfits)⟩

/-- Some of what is pending becomes a row. Unless that is all of it, what is pending fits. -/
theorem goodWords_concat {e : Setting} {rows : List (List Glyph)} {pending row rest : List Glyph} (hrow : row <+: pending)
    (hwidths : ∀ g ∈ pending, 0 ≤ g.width) (hfits : columns pending ≤ e.width ∨ row = [] ∨ row = pending) :
    GoodWords e (rows ++ [row]) rest ↔ GoodWords e rows pending ∧ Breaks row rest ∧ Tidy e rest := by
  obtain ⟨more, hmore⟩ := hrow
  have hhead (r : List Glyph) (hne : row ≠ []) : Breaks r pending ↔ Breaks r row := by
    rw [Breaks, Breaks, ← hmore, List.head?_append_of_ne_nil _ hne]
  have hless : columns row ≤ columns pending := by
    have hrest := columns_nonneg fun g hg => hwidths g (hmore ▸ List.mem_append_right row hg)
    rw [← hmore, columns_append]
    omega
  constructor
  · intro h
    obtain ⟨hne, htidy⟩ := h.flushed row (List.mem_append_right _ (List.mem_singleton_self row))
    obtain ⟨hchain, -, hlast⟩ := List.isChain_append.1 h.chain
    have hbreak := hlast row List.getLast?_concat rest rfl
    refine ⟨⟨fun r hr => h.flushed r (List.mem_append_left _ hr), chain_congr (fun r => (hhead r hne).2) hchain, ?_⟩, hbreak, h.tidy⟩
    rcases hfits with hfits | hnone | hall
    · exact Or.inl hfits
    · exact absurd hnone hne
    · exact hall ▸ htidy
  · rintro ⟨h, hbreak, htidy⟩
    have hne : row ≠ [] := by
      rintro rfl
      obtain ⟨g, -, hlast, -⟩ := hbreak
      cases hlast
    have htidy' : Tidy e row := by
      refine h.tidy.imp (fun hle => hless.trans hle) fun hword g hg => hword g ?_
      rw [← hmore]
      exact List.mem_append_left more hg
    refine ⟨fun r hr => ?_, ?_, htidy⟩
    · rcases List.mem_append.1 hr with hr | hr
      · exact h.flushed r hr
      · rw [List.mem_singleton.1 hr]
        exact ⟨hne, htidy'⟩
    · refine List.isChain_append.2 ⟨chain_congr (fun r => (hhead r hne).1) h.chain, List.isChain_singleton rest,
        fun r hr next hnext => ?_⟩
      rw [List.getLast?_concat] at hr
      rw [← Option.some.inj hr, ← Option.some.inj hnext]
      exact hbreak

/-- Rows that look alike are as good. -/
theorem GoodWords.rows_of_bare {e : Setting} {rows rows' : List (List Glyph)} {gs : List Glyph}
    (h : rows.map (List.map Glyph.bare) = rows'.map (List.map Glyph.bare)) (hg : GoodWords e rows gs) : GoodWords e rows' gs := by
  induction rows' using List.reverseRecOn generalizing rows gs with
  | nil =>
    rw [List.map_nil, List.map_eq_nil_iff] at h
    exact h ▸ hg
  | append_singleton rows' row' ih =>
    cases rows using List.reverseRecOn with
    | nil => exact absurd (congrArg List.length h) (by simp)
    | append_singleton rows row =>
      rw [List.map_append, List.map_append, List.map_singleton, List.map_singleton] at h
      obtain ⟨hrows, hrow⟩ := List.append_inj' h rfl
      have hrow : row.map Glyph.bare = row'.map Glyph.bare := List.singleton_inj.1 hrow
      obtain ⟨hne, htidy⟩ := hg.flushed row (List.mem_append_right _ (List.mem_singleton_self row))
      obtain ⟨hchain, -, hlast⟩ := List.isChain_append.1 hg.chain
      have hbreak := hlast row List.getLast?_concat gs rfl
      have hfront : GoodWords e rows' row' :=
        (ih hrows ⟨fun r hr => hg.flushed r (List.mem_append_left _ hr), hchain, htidy⟩).of_bare hrow
      refine ⟨fun r hr => ?_, ?_, hg.tidy⟩
      · rcases List.mem_append.1 hr with hr | hr
        · exact hfront.flushed r hr
        · rw [List.mem_singleton.1 hr]
          refine ⟨fun hnil => hne ?_, htidy.of_bare hrow⟩
          rw [hnil, List.map_nil] at hrow
          exact List.map_eq_nil_iff.1 hrow
      · refine List.isChain_append.2 ⟨hfront.chain, List.isChain_singleton gs, fun r hr next hnext => ?_⟩
        rw [List.getLast?_concat] at hr
        rw [← Option.some.inj hr, ← Option.some.inj hnext]
        obtain ⟨g, g', hglast, hghead, hdiffer⟩ := hbreak
        have hsame := congrArg List.getLast? hrow
        rw [List.getLast?_map, List.getLast?_map, hglast] at hsame
        obtain ⟨g'', hglast', hch⟩ := Option.map_eq_some_iff.1 hsame.symm
        have hsame : g''.bare.ch = g.bare.ch := congrArg Glyph.ch hch
        exact ⟨g'', g', hglast', hghead, fun hiff => hdiffer ((iff_of_eq (congrArg (· = space) hsame)).symm.trans hiff)⟩

/-! ## What a word needs -/

/-- The word is not dropped, and there is room for it. -/
def Row.Keeps (r : Row) (w : Word) : Prop := ¬r.Full ∧ r.glyphs.length + w.chars.length ≤ maxScreenWidth

/-- The current word begins behind something else on the row, where blanks begin or end, and either fits into the window or has no blank. -/
structure WordTurns (width : Int) (waiting : List Glyph) (word : Nat) : Prop where
  behind : 1 ≤ word
  border : ¬((waiting[word - 1]?.map (·.ch)) = some space ↔ (waiting[word]?.map (·.ch)) = some space)
  tidy : columns (waiting.drop word) ≤ width ∨ ∀ g ∈ waiting.drop word, g.ch ≠ space

/-- So it is when the row does not fit with the word. -/
def Row.Turns (e : Setting) (r : Row) (w : Word) : Prop :=
  e.width < r.x + columns (w.glyphs e r.x) → WordTurns e.width (r.glyphs ++ w.glyphs e r.x) (r.begin w).word

/-- A word that is kept, and wrapped well. -/
def Row.WordFits (e : Setting) (r : Row) (w : Word) : Prop := r.Keeps w ∧ r.Turns e w

theorem wordTurns_iff {width : Int} {waiting : List Glyph} {word : Nat} (h : word < waiting.length) {e : Setting} (he : e.width = width) :
    WordTurns width waiting word ↔ Breaks (waiting.take word) (waiting.drop word) ∧ Tidy e (waiting.drop word) := by
  have hborder : Breaks (waiting.take word) (waiting.drop word) ↔
      1 ≤ word ∧ ¬((waiting[word - 1]?.map (·.ch)) = some space ↔ (waiting[word]?.map (·.ch)) = some space) := by
    rw [Breaks, List.getLast?_take, List.head?_drop, List.getElem?_eq_getElem h]
    by_cases hzero : word = 0
    · rw [if_pos hzero]
      refine iff_of_false ?_ fun h => absurd h.1 (by omega)
      rintro ⟨g, g', hg, -⟩
      cases hg
    · have hprev : word - 1 < waiting.length := by omega
      rw [if_neg hzero, List.getElem?_eq_getElem hprev, Option.some_or, and_iff_right (show 1 ≤ word from Nat.pos_of_ne_zero hzero),
        Option.map_some, Option.map_some, Option.some_inj, Option.some_inj]
      constructor
      · rintro ⟨g, g', hg, hg', hdiffer⟩
        rwa [Option.some.inj hg, Option.some.inj hg']
      · exact fun hdiffer => ⟨_, _, rfl, rfl, hdiffer⟩
  rw [hborder, Tidy, he]
  exact ⟨fun h => ⟨⟨h.behind, h.border⟩, h.tidy⟩, fun h => ⟨h.1.1, h.1.2, h.2⟩⟩

/-! ## Adding a word -/

/-- The mode, with glyphs and tabs that fit a short. -/
structure WordMode (e : Setting) : Prop where
  wrap : e.wrap = .word
  xDisp : e.xDisp = 0
  narrow : e.Narrow
  tabWidth : e.tabWidth ≤ 32767

/-- What waits for a row, when the rows before it have been broken off. -/
structure Row.Sound (e : Setting) (rows : List (List Glyph)) (r : Row) : Prop where
  column : r.x = columns r.glyphs
  widths : ∀ g ∈ r.glyphs, 0 ≤ g.width
  word : r.word ≤ r.glyphs.length
  fits : r.x ≤ e.width ∨ r.word = 0
  first : r.glyphs = [] → rows = []

/-- The glyphs of a word take no less than no column. -/
theorem WordMode.widths {e : Setting} (h : WordMode e) {x : Int} (hx : 0 ≤ x) (w : Word) : ∀ g ∈ w.glyphs e x, 0 ≤ g.width := by
  intro g hg
  obtain ⟨c, -, rfl⟩ := List.mem_map.1 hg
  by_cases htab : c.ch = tab
  · have hlow := tabColumns_pos e x
    have hmod : 0 ≤ (x - e.xDisp).tmod e.tabWidth := Int.tmod_nonneg _ (by rw [h.xDisp, Int.sub_zero]; exact hx)
    have hhigh := h.tabWidth
    have hcolumns : tabColumns e x = e.tabWidth - (x - e.xDisp).tmod e.tabWidth := rfl
    rw [FragmentChar.glyph_of_tab e x htab]
    exact (show 0 ≤ tabColumns e x by omega).trans_eq (short_eq (by omega) (by omega)).symm
  · have hc := h.narrow c.ch
    rw [show maxWordSize = 128 from rfl] at hc
    have hshort : short (e.glyphWidth c.ch) = e.glyphWidth c.ch := short_eq (by omega) (by omega)
    rw [FragmentChar.glyph_of_ne e x htab]
    dsimp only
    rw [hshort]
    exact Int.natCast_nonneg (e.glyphWidth c.ch)

/-- A word is added: the rows stay good when the word turns well. -/
theorem Row.Sound.add {e : Setting} (he : WordMode e) {rows : List (List Glyph)} {r : Row} (h : r.Sound e rows) {w : Word}
    (hne : w.chars ≠ []) (hkeeps : r.Keeps w) :
    (r.add e w).Sound e (rows ++ (r.breaks e w).map (·.row)) ∧
      (GoodWords e (rows ++ (r.breaks e w).map (·.row)) (r.add e w).glyphs ↔ GoodWords e rows r.glyphs ∧ r.Turns e w) := by
  have hx : 0 ≤ r.x := h.column ▸ columns_nonneg h.widths
  have hwidths := he.widths hx w
  have hgs : w.glyphs e r.x ≠ [] := fun hnil => hne (List.map_eq_nil_iff.1 hnil)
  have hpos := List.length_pos_iff.2 hgs
  have hword : (r.begin w).word ≤ r.glyphs.length ∧ ((r.begin w).word = r.word ∨ (r.begin w).word = r.glyphs.length) := by
    rw [Row.begin]
    split_ifs
    · exact ⟨Nat.le_refl _, Or.inr rfl⟩
    · exact ⟨h.word, Or.inl rfl⟩
  have hall : ∀ g ∈ r.glyphs ++ w.glyphs e r.x, 0 ≤ g.width := fun g hg => (List.mem_append.1 hg).elim (h.widths g) (hwidths g)
  rw [Row.add, if_neg hkeeps.1, Row.breaks, he.wrap, Row.Turns]
  dsimp only
  by_cases hlong : e.width < r.x + columns (w.glyphs e r.x)
  · obtain ⟨b, hb⟩ : ∃ b : Break, b = ⟨r.glyphs ++ w.glyphs e r.x, r.glyphs.length + (w.glyphs e r.x).length - (r.begin w).word⟩ := ⟨_, rfl⟩
    have hsplit : b.waiting.length - b.kept = (r.begin w).word := by
      rw [hb]
      dsimp only
      rw [List.length_append]
      omega
    have hrow : b.row = (r.glyphs ++ w.glyphs e r.x).take (r.begin w).word := by rw [Break.row, hsplit, hb]
    have hrest : b.rest = (r.glyphs ++ w.glyphs e r.x).drop (r.begin w).word := by rw [Break.rest, hsplit, hb]
    rw [if_pos hlong, forall_prop_of_true hlong, ← hb, List.map_singleton, List.getLast?_singleton]
    dsimp only
    have hrow' : b.row = r.glyphs.take (r.begin w).word := hrow.trans (List.take_append_of_le_length hword.1)
    have hnext : b.rest ≠ [] := by
      rw [hrest, ← List.length_pos_iff, List.length_drop, List.length_append]
      omega
    refine ⟨⟨rfl, fun g hg => hall g (List.mem_of_mem_drop (hrest ▸ hg)), Nat.zero_le _, Or.inr rfl, fun hnil => absurd hnil hnext⟩, ?_⟩
    rw [wordTurns_iff (by rw [List.length_append]; omega) rfl, ← hrow, ← hrest]
    refine goodWords_concat (hrow' ▸ List.take_prefix _ _) h.widths ?_
    rw [hrow', ← h.column]
    rcases hword.2 with hsame | hend
    · rw [hsame]
      exact h.fits.imp_right fun hzero => Or.inl (by rw [hzero]; rfl)
    · exact Or.inr (Or.inr (by rw [hend, List.take_length]))
  · rw [if_neg hlong, List.map_nil, List.append_nil, List.getLast?_nil]
    dsimp only
    have hfits := not_lt.1 hlong
    refine ⟨⟨?_, hall, ?_, Or.inl hfits, fun hnil => ?_⟩, ?_⟩
    · rw [h.column, columns_append]
    · exact hword.1.trans (by rw [List.length_append]; exact Nat.le_add_right _ _)
    · exact absurd (List.append_eq_nil_iff.1 hnil).2 hgs
    · rw [and_iff_left fun hlong' => absurd hlong' hlong]
      exact goodWords_append h.first (columns_nonneg hwidths) (h.column ▸ hfits)

/-- The words of a line are added one after the other. -/
theorem Row.Sound.all {e : Setting} (he : WordMode e) {rows : List (List Glyph)} {r : Row} (h : r.Sound e rows) {ws : List Word}
    (hne : ∀ w ∈ ws, w.chars ≠ []) (hkeeps : r.All e Row.Keeps ws) :
    (r.after e ws).Sound e (rows ++ r.shed e ws) ∧
      (GoodWords e (rows ++ r.shed e ws) (r.after e ws).glyphs ↔ GoodWords e rows r.glyphs ∧ r.All e (Row.Turns e) ws) := by
  induction ws generalizing rows r with
  | nil =>
    rw [Row.shed, List.append_nil]
    exact ⟨h, (and_iff_left trivial).symm⟩
  | cons w ws ih =>
    obtain ⟨hsound, hiff⟩ := h.add he (hne w List.mem_cons_self) hkeeps.1
    obtain ⟨hsound', hiff'⟩ := ih hsound (fun w' hw' => hne w' (List.mem_cons_of_mem w hw')) hkeeps.2
    rw [Row.shed, if_neg hkeeps.1.1, ← List.append_assoc]
    refine ⟨hsound', hiff'.trans ?_⟩
    rw [hiff, and_assoc]
    rfl

/-- No word is empty. -/
theorem wordsFrom_ne_nil (e : Setting) (w : Word) (cs : List CharCall) : ∀ w' ∈ wordsFrom e w cs, w'.chars ≠ [] := by
  have htoList (w : Word) : ∀ w' ∈ w.toList, w'.chars ≠ [] := by
    rw [Word.toList]
    split_ifs with hnone
    · exact fun w' hw' => absurd hw' List.not_mem_nil
    · exact fun w' hw' => List.mem_singleton.1 hw' ▸ hnone
  induction cs generalizing w with
  | nil => exact htoList w
  | cons c cs ih =>
    intro w' hw'
    rcases List.mem_append.1 hw' with hw' | hw'
    · rw [Word.step] at hw'
      split_ifs at hw'
      · cases hw'
      · rcases List.mem_append.1 hw' with hw' | hw'
        · exact htoList w w' hw'
        · rw [List.mem_singleton.1 hw']
          exact List.cons_ne_nil _ _
      · exact htoList w w' hw'
    · exact ih _ w' hw'

/-! ## A line -/

/-- The fragment is not dropped, and there is room for it. -/
def Kept (s : DisplayState) : Prop := s.fragment = [] ∨ ¬s.Full ∧ s.lineIndex + s.fragment.length ≤ maxScreenWidth

/-- The rows of a line have its characters in their order, and are not empty unless the line is; they end where a word or a run of
blanks does, and are no wider than the window unless there is no blank on them. -/
def WordsKept (e : Setting) (cs : List CharCall) (s : DisplayState) (offset1 offset2 : Int) : Prop :=
  ∃ t new, showLine e cs s offset1 offset2 = some t ∧ t.rows = s.rows ++ new ∧
    new.flatten.map Glyph.shown = cs.map (fun c => c.stored.shown) ∧ (cs ≠ [] → ∀ row ∈ new, row ≠ []) ∧
    new.IsChain Breaks ∧ ∀ row ∈ new, Tidy e row

theorem Kept.fits {e : Setting} (hw : e.wrap = .word) {s : DisplayState} (h : Kept s) : FlushFits e s :=
  h.imp_right fun ⟨_, hroom⟩ => Or.inr ⟨hroom, fun hline => absurd (hw.symm.trans hline) nofun⟩

theorem Kept.added_shown (e : Setting) {s : DisplayState} (h : Kept s) :
    (s.added e).map Glyph.shown = s.fragment.map FragmentChar.shown := by
  rw [DisplayState.added]
  split_ifs with hfull
  · rw [h.resolve_right fun hkept => hkept.1 hfull]
    rfl
  · exact made_shown e s

/-- What is flushed is what the fragments are, where none of them is dropped. -/
theorem added_flatMap (e : Setting) {fs : List DisplayState} (h : ∀ f ∈ fs, Kept f) :
    (fs.flatMap (·.added e)).map Glyph.shown = (fs.flatMap (·.fragment)).map FragmentChar.shown := by
  induction fs with
  | nil => rfl
  | cons f fs ih =>
    rw [List.flatMap_cons, List.flatMap_cons, List.map_append, List.map_append, (h f List.mem_cons_self).added_shown e,
      ih fun g hg => h g (List.mem_cons_of_mem f hg)]

theorem length_added_le (e : Setting) (s : DisplayState) : (s.added e).length ≤ s.fragment.length := by
  rw [DisplayState.added]
  split_ifs
  · exact Nat.zero_le _
  · exact (s.length_made e).le

/-- Where as much is flushed as the fragments are, none of them is dropped. -/
theorem kept_of_length {e : Setting} {fs : List DisplayState} (hfits : ∀ f ∈ fs, FlushFits e f)
    (h : (fs.flatMap (·.added e)).length = (fs.flatMap (·.fragment)).length) : ∀ f ∈ fs, Kept f := by
  have hle (gs : List DisplayState) : (gs.flatMap (·.added e)).length ≤ (gs.flatMap (·.fragment)).length := by
    induction gs with
    | nil => exact Nat.le_refl 0
    | cons g gs ih =>
      rw [List.flatMap_cons, List.flatMap_cons, List.length_append, List.length_append]
      exact Nat.add_le_add (length_added_le e g) ih
  induction fs with
  | nil => exact fun f hf => absurd hf List.not_mem_nil
  | cons g gs ih =>
    rw [List.flatMap_cons, List.flatMap_cons, List.length_append, List.length_append] at h
    have hg := length_added_le e g
    have hgs := hle gs
    intro f hf
    rcases List.mem_cons.1 hf with rfl | hf
    · rcases hfits f List.mem_cons_self with hnone | hfull | ⟨hroom, -⟩
      · exact Or.inl hnone
      · rw [DisplayState.added, if_pos hfull, List.length_nil] at h
        exact Or.inl (List.length_eq_zero_iff.1 (by omega))
      · by_cases hfull : f.Full
        · rw [DisplayState.added, if_pos hfull, List.length_nil] at h
          exact Or.inl (List.length_eq_zero_iff.1 (by omega))
        · exact Or.inr ⟨hfull, hroom⟩
    · exact ih (fun k hk => hfits k (List.mem_cons_of_mem g hk)) (by omega) f hf

theorem tests_kept {e : Setting} (hw : e.wrap = .word) : Tests Glyph.bare e Kept Row.Keeps := by
  refine ⟨fun f hf => Or.inl hf, fun f r hf hr hne => ?_, fun _ _ hf => hf.fits hw, fun _ _ k _ => stays_bare k⟩
  rw [Kept, or_iff_right hne, Row.Keeps, hr.full_iff hf, hr.length]
  rfl

/-- A line whose words are kept is laid out well just when they turn well. -/
theorem goodWords_line {e : Setting} (he : WordMode e) {cs : List CharCall} (hkeeps : AllWords e Row.Keeps cs) (s : DisplayState) :
    ∃ u v rows, displayChars e cs (displayBol e s) = some u ∧ flushFragment e u.asText = some v ∧ v.rows = s.rows ++ rows ∧
      (v.pending = [] → rows = []) ∧ (GoodWords e rows v.pending ↔ AllWords e (Row.Turns e) cs) := by
  obtain ⟨hiff, hgo⟩ := (tests_kept he.wrap).chars showsWidth_bare he.narrow cs (follows_displayBol Glyph.bare e s)
  obtain ⟨u, v, hu, hv, hholds, rows, hrows, hsame⟩ := hgo (hiff.2 hkeeps)
  have hstart : (Row.start e).Sound e [] :=
    ⟨he.xDisp, fun g hg => absurd hg List.not_mem_nil, Nat.le_refl _, Or.inr rfl, fun _ => rfl⟩
  have hgood : GoodWords e [] (Row.start e).glyphs :=
    ⟨fun row hrow => absurd hrow List.not_mem_nil, List.isChain_singleton _, Or.inr fun g hg => absurd hg List.not_mem_nil⟩
  obtain ⟨hsound, hwords⟩ := hstart.all he (wordsFrom_ne_nil e _ cs) hkeeps
  rw [List.nil_append] at hsound hwords
  refine ⟨u, v, rows, hu, hv, hrows, fun hnil => ?_, ?_⟩
  · have hglyphs := hholds.glyphs
    rw [hnil, List.map_nil] at hglyphs
    rw [hsound.first (List.map_eq_nil_iff.1 hglyphs.symm), List.map_nil] at hsame
    exact List.map_eq_nil_iff.1 hsame
  · rw [AllWords, words, ← and_iff_right (b := Row.All _ _ _ _) hgood, ← hwords]
    exact ⟨fun h => (h.rows_of_bare hsame).of_bare hholds.glyphs, fun h => (h.rows_of_bare hsame.symm).of_bare hholds.glyphs.symm⟩

/-- A line is wrapped well just when each of its words is kept, and turns well where it does not fit on its row. -/
theorem wordsKept_iff {e : Setting} (he : WordMode e) (cs : List CharCall) (s : DisplayState) (offset1 offset2 : Int) :
    WordsKept e cs s offset1 offset2 ↔ AllWords e (Row.WordFits e) cs := by
  have hboth : AllWords e (Row.WordFits e) cs ↔ AllWords e Row.Keeps cs ∧ AllWords e (Row.Turns e) cs :=
    all_and e Row.Keeps (Row.Turns e) (Row.start e) (words e cs)
  have hline := (tests_kept he.wrap).line_iff showsWidth_bare he.narrow cs s
  rw [hboth]
  constructor
  · rintro ⟨t, new, ht, hrows, hglyphs, hne, hchain, htidy⟩
    by_cases hcs : cs = []
    · subst hcs
      exact ⟨trivial, trivial⟩
    have hfits := showLine_fits he.narrow ht
    obtain ⟨u, v, hu, hv, hline'⟩ := showLine_eq_some.1 ht
    obtain ⟨hok, hadded⟩ := showLine_glyphs (fun f _ k _ => stays_shown k) hu hv
    have hnew : s.rows ++ new = v.rows ++ [v.pending] := by
      rw [← hrows, ← hline', flushLine_rows hok]
    have hsame : ((flushes e cs (displayBol e s)).flatMap (·.added e)).map Glyph.shown =
        ((flushes e cs (displayBol e s)).flatMap (·.fragment)).map FragmentChar.shown := by
      rw [fragments_of_flushes he.narrow fun f hf => hfits f (List.mem_append_left _ hf), List.map_map]
      refine (List.append_cancel_left (hadded.symm.trans ?_)).trans hglyphs
      rw [← List.map_append, ← List.flatten_append, hnew, List.flatten_append, List.flatten_singleton]
      rfl
    have hlength := congrArg List.length hsame
    rw [List.length_map, List.length_map] at hlength
    have hkeeps := hline.1 (kept_of_length hfits hlength)
    obtain ⟨u', v', rows, hu', hv', hflushed, -, hiff⟩ := goodWords_line he hkeeps s
    obtain rfl := Option.some.inj (hu.symm.trans hu')
    obtain rfl := Option.some.inj (hv.symm.trans hv')
    rw [hflushed, List.append_assoc] at hnew
    obtain rfl := List.append_cancel_left hnew
    exact ⟨hkeeps, hiff.1 ⟨fun row hrow => ⟨hne hcs row (List.mem_append_left _ hrow), htidy row (List.mem_append_left _ hrow)⟩,
      hchain, htidy _ (List.mem_append_right _ (List.mem_singleton_self _))⟩⟩
  · rintro ⟨hkeeps, hturns⟩
    have hkept := hline.2 hkeeps
    obtain ⟨u, v, rows, hu, hv, hflushed, hfirst, hiff⟩ := goodWords_line he hkeeps s
    obtain ⟨hok, hadded⟩ := showLine_glyphs (fun f _ k _ => stays_shown k) hu hv
    have hgood := hiff.2 hturns
    have hglyphs : (rows ++ [v.pending]).flatten.map Glyph.shown = cs.map fun c => c.stored.shown := by
      rw [added_flatMap e hkept, fragments_of_flushes he.narrow fun f hf => (hkept f (List.mem_append_left _ hf)).fits he.wrap,
        List.map_map, DisplayState.glyphs, hflushed, List.flatten_append, List.append_assoc, List.map_append] at hadded
      rw [List.flatten_append, List.flatten_singleton]
      exact List.append_cancel_left hadded
    refine ⟨_, rows ++ [v.pending], showLine_eq_some.2 ⟨u, v, hu, hv, rfl⟩, ?_, hglyphs, fun hcs row hrow => ?_, hgood.chain,
      fun row hrow => ?_⟩
    · rw [flushLine_rows hok, hflushed, List.append_assoc]
    · rcases List.mem_append.1 hrow with hrow | hrow
      · exact (hgood.flushed row hrow).1
      · rw [List.mem_singleton.1 hrow]
        intro hnone
        rw [hfirst hnone, hnone] at hglyphs
        exact hcs (List.map_eq_nil_iff.1 hglyphs.symm)
    · rcases List.mem_append.1 hrow with hrow | hrow
      · exact (hgood.flushed row hrow).2
      · rw [List.mem_singleton.1 hrow]
        exact hgood.tidy

/-! ## Words in a narrow window -/

instance (width : Int) (waiting : List Glyph) (word : Nat) : Decidable (WordTurns width waiting word) :=
  decidable_of_iff (1 ≤ word ∧ ¬((waiting[word - 1]?.map (·.ch)) = some space ↔ (waiting[word]?.map (·.ch)) = some space) ∧
      (columns (waiting.drop word) ≤ width ∨ ∀ g ∈ waiting.drop word, g.ch ≠ space))
    ⟨fun h => ⟨h.1, h.2.1, h.2.2⟩, fun h => ⟨h.behind, h.border, h.tidy⟩⟩

instance (e : Setting) (r : Row) (w : Word) : Decidable (r.Turns e w) := inferInstanceAs (Decidable (_ → _))

instance (r : Row) (w : Word) : Decidable (r.Keeps w) := inferInstanceAs (Decidable (_ ∧ _))

instance (e : Setting) (r : Row) (w : Word) : Decidable (r.WordFits e w) := inferInstanceAs (Decidable (_ ∧ _))

/-- The letters `ab`, a space and a word of five letters, which begins the second row. -/
def twoWords : List CharCall := textCalls 0 [0x61, 0x62, 0x20, 0x68, 0x65, 0x6c, 0x6c, 0x6f]

theorem wordsKept_twoWords : WordsKept (plainWindow .word 5) twoWords blankState 8 9 :=
  (wordsKept_iff ⟨rfl, rfl, narrow_plainWindow .word 5, by decide⟩ twoWords blankState 8 9).2 (by decide +kernel)

/-- A word of five letters in a window of three columns: the first row has no glyph. -/
theorem not_wordsKept :
    ¬WordsKept (plainWindow .word 3) (textCalls 0 [0x68, 0x65, 0x6c, 0x6c, 0x6f]) blankState 5 6 := by
  rintro ⟨t, new, ht, hrows, -, hne, -⟩
  have hfirst : (showLine (plainWindow .word 3) (textCalls 0 [0x68, 0x65, 0x6c, 0x6c, 0x6f]) blankState 5 6).map
      (fun t => t.rows.head?) = some (some []) := by decide +kernel
  have hrows : t.rows = new := hrows
  rw [ht, Option.map_some, hrows] at hfirst
  exact hne (by decide) [] (List.mem_of_mem_head? (Option.some.inj hfirst)) rfl

end Layout

end Hoe
