import Hoe.Lemmas.BufferNames
import Hoe.Lemmas.Paths

/-!
# One file, one buffer

Two spellings of a path have one canonical name, and so one buffer, if neither has a colon. A colon is taken for the end of a drive
or of a URL: the path behind a URL is not looked at, what is made of a path behind a drive begins with the colon and is no absolute
path, and where no slash follows the colon the path is taken for a relative one.
-/

namespace Hoe

/-! ## Kinds of paths -/

/-- A path behind a drive. -/
def IsDrive (path : List Byte) : Prop := [slash, colon, slash] <+: path

/-- A path that is taken for a URL. -/
def IsUrl (path : List Byte) : Prop := colon ∈ path ∧ isAbsPath path = true ∧ ¬IsDrive path

/-- What `getcwd` may give. -/
def IsCwd (cwd : List Byte) : Prop := cwd.length < 1024 ∧ ∃ names, (∀ name ∈ names, IsName name) ∧ cwd = spell names

theorem isCwd_root : IsCwd [slash] := ⟨by decide, [], fun _ hn => (nomatch hn), rfl⟩

/-- Without a colon a path is absolute when it begins with a slash. -/
theorem isAbsPath_plain {path : List Byte} (h : colon ∉ path) : isAbsPath path = (path.head? == some slash) := by
  rw [isAbsPath, strchr_eq_none.2 h]

/-- A colon in a path, the first one, and what is before and behind it. -/
theorem exists_colon {path : List Byte} (h : colon ∈ path) :
    ∃ s t, path = s ++ colon :: t ∧ colon ∉ s ∧ strchr path colon = some s.length := by
  obtain ⟨s, t, rfl, hs⟩ := List.eq_append_cons_of_mem h
  exact ⟨s, t, rfl, hs, strchr_append hs t⟩

/-! ## Canonical names -/

/-- Such a path is spelled anew. -/
theorem canonize_plain (cwd : List Byte) {path : List Byte} (habs : path.head? = some slash) (hcolon : colon ∉ path)
    (hfits : path.length < 1024) : canonizeAbsolutePath cwd 1024 path = spell (pathOf path) := by
  have ha : isAbsPath path = true := by rw [isAbsPath_plain hcolon, habs, beq_self_eq_true]
  rw [canonizeAbsolutePath, if_pos ha, pstrcpy_fits hfits, canonizePath, strchr_eq_none.2 hcolon]
  exact canonizePath1_absolute (by decide) habs hfits

/-- The first colon of a URL does not stand at the place of a drive. -/
theorem strchr_url {path : List Byte} (habs : path.head? = some slash) (h : IsUrl path) : ∃ p, strchr path colon = some p ∧ p ≠ 1 := by
  obtain ⟨hc, ha, hd⟩ := h
  obtain ⟨s, t, rfl, -, hs⟩ := exists_colon hc
  refine ⟨s.length, hs, fun hlen => hd ?_⟩
  obtain ⟨a, rfl⟩ := List.length_eq_one_iff.1 hlen
  obtain rfl : a = slash := Option.some.inj habs
  rw [isAbsPath, hs] at ha
  obtain _ | ⟨b, t⟩ := t
  · nomatch ha
  · have hb : b = slash := by simpa using ha
    rw [hb]
    exact ⟨t, rfl⟩

/-- A path with a scheme stays as it is. -/
theorem canonize_url (cwd : List Byte) {path : List Byte} (habs : path.head? = some slash) (h : IsUrl path)
    (hfits : path.length < 1024) : canonizeAbsolutePath cwd 1024 path = path := by
  obtain ⟨p, hp, hne⟩ := strchr_url habs h
  rw [canonizeAbsolutePath, if_pos h.2.1, pstrcpy_fits hfits, canonizePath, hp]
  simp only [if_neg hne]
  exact pstrcpy_fits hfits

/-- The canonical name of a path behind a drive is that of a relative path. -/
theorem head?_canonize_drive (cwd : List Byte) {path : List Byte} (h : IsDrive path) (hfits : path.length < 1024) :
    (canonizeAbsolutePath cwd 1024 path).head? = some colon := by
  obtain ⟨rest, rfl⟩ : ∃ rest, path = slash :: colon :: slash :: rest := by
    obtain ⟨rest, rfl⟩ := h
    exact ⟨rest, rfl⟩
  have hs : strchr (slash :: colon :: slash :: rest) colon = some 1 := strchr_append (s := [slash]) (by decide) _
  have ha : isAbsPath (slash :: colon :: slash :: rest) = true := by
    rw [isAbsPath, hs]
    rfl
  rw [canonizeAbsolutePath, if_pos ha, pstrcpy_fits hfits, canonizePath, hs]
  rfl

example : canonizeAbsolutePath [slash] 1024 (cstr "/:/a") = cstr ":/:/a" := by decide

/-! ## Relative paths -/

/-- What a path with a colon and no slash behind it becomes depends on the working directory: the working directory may be so deep
that no path leads out of it. -/
theorem canonize_relative {path : List Byte} (habs : isAbsPath path = false) {c : Byte} (hname : IsName [c]) (hc : c ≠ colon) :
    ∃ cwd, IsCwd cwd ∧ (pathOf (canonizeAbsolutePath cwd 1024 path)).head? = some [c] := by
  obtain ⟨names, hnames⟩ : ∃ names, names = List.replicate 400 [c] := ⟨_, rfl⟩
  have hall : ∀ name ∈ names, IsName name := by
    rw [hnames]
    intro name h
    rwa [List.eq_of_mem_replicate h]
  have hspell : spell names = slash :: c :: slashed (List.replicate 399 [c]) := by
    rw [hnames]
    rfl
  have hlen : (spell names).length = 800 := by
    have hl : ∀ n, (slashed (List.replicate n [c])).length = 2 * n := by
      intro n
      induction n with
      | zero => rfl
      | succ n ih =>
        rw [List.replicate_succ']
        rw [slashed_concat, List.length_append, ih]
        simp only [List.length_cons, List.length_nil]
        omega
    rw [hspell, List.length_cons, List.length_cons, hl]
  refine ⟨spell names, ⟨by omega, names, hall, rfl⟩, ?_⟩
  obtain ⟨t, ht⟩ : ∃ t, t = path.take 222 := ⟨_, rfl⟩
  have htake : t.length ≤ 222 := by
    rw [ht]
    exact List.length_take_le _ _
  -- the path is put behind the working directory, as far as there is room
  have harg : pstrcat 1024 (pstrcat 1024 (pstrcpy 1024 (spell names)) [slash]) path = spell names ++ slash :: t := by
    have hsep : pstrcat 1024 (spell names) [slash] = spell names ++ [slash] := pstrcat_fits (by rw [hlen]; decide)
    rw [pstrcpy_fits (by omega), hsep, pstrcat, List.length_append, hlen, ht]
    simp
  obtain ⟨full, hfull⟩ : ∃ full, full = spell names ++ slash :: t := ⟨_, rfl⟩
  have hfits : full.length < 1024 := by
    rw [hfull, List.length_append, List.length_cons, hlen]
    omega
  have hstart : full.head? = some slash := by
    rw [hfull, hspell]
    rfl
  have hcanon : pathOf (canonizePath 1024 full) = pathOf full := by
    by_cases hcolon : colon ∈ full
    · obtain ⟨s, r, hs, hnot, hp⟩ := exists_colon hcolon
      have hne : s.length ≠ 1 := by
        intro h1
        obtain ⟨a, rfl⟩ := List.length_eq_one_iff.1 h1
        rw [hfull, hspell] at hs
        simp only [List.cons_append, List.nil_append, List.cons.injEq] at hs
        exact hc hs.2.1
      rw [canonizePath, hp]
      simp only [if_neg hne]
      rw [pstrcpy_fits hfits]
    · rw [canonizePath, strchr_eq_none.2 hcolon]
      have := canonizePath1_absolute (by decide) hstart hfits
      rw [this]
      exact (spellsPath_spell fun name hn => (isName_of_mem_pathOf hn).1).2
  have hpath : pathOf full = Walk.resolve names (stepsOf t) := by
    have hn : Walk.resolve [] (stepsOf (spell names)) = names := (spellsPath_spell hall).2
    rw [pathOf, hfull, stepsOf_slash_append, Walk.resolve_append, hn]
  have hsteps := length_stepsOf_le t
  have hshort : (stepsOf t).length < names.length := by
    rw [hnames, List.length_replicate]
    omega
  have ha : ¬isAbsPath path = true := by
    rw [habs]
    decide
  rw [canonizeAbsolutePath, if_neg ha, harg, ← hfull, hcanon, hpath, Walk.head?_resolve hshort, hnames]
  rfl

/-! ## Buffers -/

/-- Both spellings have one canonical name, which spells the path. A window that has loaded the first shows the buffer that is found
under that name, and a window that then loads the second is switched to that buffer. -/
structure OneBuffer (cwd p₁ p₂ : List Byte) : Prop where
  same : canonizeAbsolutePath cwd 1024 p₁ = canonizeAbsolutePath cwd 1024 p₂
  spells : SpellsPath (canonizeAbsolutePath cwd 1024 p₁) (pathOf p₁)
  visits : ∀ (s s' : BufferNames) (e : WindowPtr), s.doLoad1 cwd e p₁ none = some s' →
    (s'.ebFindFile (canonizeAbsolutePath cwd 1024 p₁)).map (·.ptr) = some (s'.shows e)
  switches : ∀ (s : BufferNames) (b : NamedBuffer) (e : WindowPtr), s.ebFindFile (canonizeAbsolutePath cwd 1024 p₁) = some b →
    s.doLoad1 cwd e p₂ none = s.switchToBuffer e b.ptr

/-- A file that is loaded is found under its canonical name, in the buffer that the window shows. -/
theorem doLoad1_visits {cwd path : List Byte} {s s' : BufferNames} {e : WindowPtr} (h : s.doLoad1 cwd e path none = some s') :
    (s'.ebFindFile (canonizeAbsolutePath cwd 1024 path)).map (·.ptr) = some (s'.shows e) := by
  obtain ⟨s₁, h₁, h⟩ := Option.bind_eq_some_iff.1 h
  obtain rfl := Option.some.inj h₁
  dsimp only at h
  split at h
  next b hb =>
    obtain ⟨_, _, rfl⟩ := Option.map_eq_some_iff.1 h
    have hshows : Function.update s.shows e b.ptr e = b.ptr := Function.update_self _ _ _
    exact (congrArg (Option.map (·.ptr)) hb).trans (congrArg some hshows.symm)
  next =>
    obtain ⟨b, bs, hbs, hname, hshows⟩ := BufferNames.loadNew_cases h
    rw [pstrcpy_fits (length_canonizeAbsolutePath_lt cwd path)] at hname
    have hfind : s'.ebFindFile (canonizeAbsolutePath cwd 1024 path) = some b := by
      rw [BufferNames.ebFindFile, hbs]
      exact List.find?_cons_of_pos (by simp [hname])
    rw [hfind, Option.map_some, hshows]

/-- A file whose buffer is there is not loaded again. -/
theorem doLoad1_switches {cwd path : List Byte} {s : BufferNames} {b : NamedBuffer}
    (h : s.ebFindFile (canonizeAbsolutePath cwd 1024 path) = some b) (e : WindowPtr) :
    s.doLoad1 cwd e path none = s.switchToBuffer e b.ptr := by
  rw [BufferNames.doLoad1, BufferNames.killShown, Option.bind_some]
  dsimp only
  rw [h]

/-- Two spellings with one canonical name lead to one buffer. -/
theorem OneBuffer.of_canonize {cwd p₁ p₂ : List Byte} (hsame : canonizeAbsolutePath cwd 1024 p₁ = canonizeAbsolutePath cwd 1024 p₂)
    (hspells : SpellsPath (canonizeAbsolutePath cwd 1024 p₁) (pathOf p₁)) : OneBuffer cwd p₁ p₂ where
  same := hsame
  spells := hspells
  visits := fun _ _ _ => doLoad1_visits
  switches := fun _ _ e h => doLoad1_switches (hsame ▸ h) e

/-! ## The two spellings -/

/-- Neither spelling has a colon, or they are one URL. -/
def SpelledAlike (p₁ p₂ : List Byte) : Prop := (colon ∉ p₁ ∧ colon ∉ p₂) ∨ (p₁ = p₂ ∧ IsUrl p₁)

/-- A path whose canonical name is that of an absolute path has no colon or is a URL. -/
theorem plain_or_isUrl {cwd p : List Byte} (h : isAbsPath p = true) (hfits : p.length < 1024)
    (hcanon : (canonizeAbsolutePath cwd 1024 p).head? = some slash) : colon ∉ p ∨ IsUrl p := by
  by_cases hc : colon ∈ p
  · refine .inr ⟨hc, h, fun hd => ?_⟩
    rw [head?_canonize_drive cwd hd hfits] at hcanon
    exact absurd hcanon (by decide)
  · exact .inl hc

/-- Paths to one file that are spelled alike lead to one buffer. -/
theorem oneBuffer_of_spelledAlike {p₁ p₂ : List Byte} (h₁ : p₁.head? = some slash) (h₂ : p₂.head? = some slash)
    (hpath : pathOf p₁ = pathOf p₂) (hf₁ : p₁.length < 1024) (hf₂ : p₂.length < 1024) (h : SpelledAlike p₁ p₂)
    (cwd : List Byte) : OneBuffer cwd p₁ p₂ := by
  rcases h with ⟨hc₁, hc₂⟩ | ⟨rfl, hu⟩
  · have e₁ := canonize_plain cwd h₁ hc₁ hf₁
    refine .of_canonize ?_ ?_
    · rw [e₁, canonize_plain cwd h₂ hc₂ hf₂, hpath]
    · rw [e₁]
      exact spellsPath_spell fun name hn => (isName_of_mem_pathOf hn).1
  · refine .of_canonize rfl ?_
    rw [canonize_url cwd h₁ hu hf₁]
    exact ⟨h₁, rfl⟩

/-- Paths that lead to one buffer in every working directory are spelled alike. -/
theorem spelledAlike_of_oneBuffer {p₁ p₂ : List Byte} (h₁ : p₁.head? = some slash) (h₂ : p₂.head? = some slash)
    (hf₁ : p₁.length < 1024) (hf₂ : p₂.length < 1024) (h : ∀ cwd, IsCwd cwd → OneBuffer cwd p₁ p₂) : SpelledAlike p₁ p₂ := by
  -- a working directory below a name that the path does not begin with
  obtain ⟨c, hname, hc, hne⟩ : ∃ c, IsName [c] ∧ c ≠ colon ∧ (pathOf p₁).head? ≠ some [c] := by
    by_cases ha : (pathOf p₁).head? = some [0x61]
    · exact ⟨0x62, ⟨by decide, by decide⟩, by decide, by rw [ha]; decide⟩
    · exact ⟨0x61, ⟨by decide, by decide⟩, by decide, ha⟩
  have habs : ∀ p, (∀ cwd, IsCwd cwd → pathOf (canonizeAbsolutePath cwd 1024 p) = pathOf p₁) → isAbsPath p = true := by
    intro p hp
    by_contra hrel
    obtain ⟨cwd, hcwd, hhead⟩ := canonize_relative (Bool.eq_false_iff.2 hrel) hname hc
    rw [hp cwd hcwd] at hhead
    exact hne hhead
  have ha₁ := habs p₁ fun cwd hcwd => (h cwd hcwd).spells.2
  have ha₂ := habs p₂ fun cwd hcwd => by
    rw [← (h cwd hcwd).same]
    exact (h cwd hcwd).spells.2
  obtain ⟨hsame, hspells, -, -⟩ := h _ isCwd_root
  have hplain : ∀ p, p.head? = some slash → p.length < 1024 → colon ∉ p → colon ∉ canonizeAbsolutePath [slash] 1024 p := by
    intro p hp hf hcp
    rw [canonize_plain _ hp hcp hf]
    exact colon_not_mem_spell hcp
  rcases plain_or_isUrl ha₁ hf₁ hspells.1 with hn₁ | hu₁ <;>
    rcases plain_or_isUrl ha₂ hf₂ (hsame ▸ hspells.1) with hn₂ | hu₂
  · exact .inl ⟨hn₁, hn₂⟩
  · rw [canonize_url _ h₂ hu₂ hf₂] at hsame
    exact absurd hu₂.1 (hsame ▸ hplain p₁ h₁ hf₁ hn₁)
  · rw [canonize_url _ h₁ hu₁ hf₁] at hsame
    exact absurd hu₁.1 (hsame ▸ hplain p₂ h₂ hf₂ hn₂)
  · rw [canonize_url _ h₁ hu₁ hf₁, canonize_url _ h₂ hu₂ hf₂] at hsame
    exact .inr ⟨hsame, hu₁⟩

/-- The two spellings of a path lead to one buffer, from every working directory, exactly when they are spelled alike. -/
theorem one_buffer_iff {p₁ p₂ : List Byte} (h₁ : p₁.head? = some slash) (h₂ : p₂.head? = some slash)
    (hpath : pathOf p₁ = pathOf p₂) (hf₁ : p₁.length < 1024) (hf₂ : p₂.length < 1024) :
    (∀ cwd, IsCwd cwd → OneBuffer cwd p₁ p₂) ↔ SpelledAlike p₁ p₂ :=
  ⟨spelledAlike_of_oneBuffer h₁ h₂ hf₁ hf₂, fun h cwd _ => oneBuffer_of_spelledAlike h₁ h₂ hpath hf₁ hf₂ h cwd⟩

/-- Two spellings of one file. -/
theorem one_buffer_iff_dots : SpelledAlike (cstr "/x/../a") (cstr "//a/.") ∧ OneBuffer (cstr "/") (cstr "/x/../a") (cstr "//a/.") := by
  have h : SpelledAlike (cstr "/x/../a") (cstr "//a/.") := .inl ⟨by decide, by decide⟩
  exact ⟨h, (one_buffer_iff rfl rfl (by decide) (by decide) (by decide)).2 h _ isCwd_root⟩

/-- "/a:/b" and "/a://b" are one path, and each of them is its own canonical name. -/
theorem not_one_buffer : ¬∀ p₁ p₂ : List Byte, p₁.head? = some slash → p₂.head? = some slash → pathOf p₁ = pathOf p₂ →
    p₁.length < 1024 → p₂.length < 1024 → ∀ cwd, IsCwd cwd → OneBuffer cwd p₁ p₂ := by
  intro h
  have hsame := (h (cstr "/a:/b") (cstr "/a://b") rfl rfl (by decide) (by decide) (by decide) _ isCwd_root).same
  exact absurd hsame (by decide)

end Hoe
