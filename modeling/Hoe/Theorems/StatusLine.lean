import Hoe.StatusLine
import Hoe.Theorems.KeyContext

/-!
# What is typed and the status line

`put_status` shows its format as it is when no `%` is in it. A `%` that was typed is one of the format: with what follows it asks for
an argument that there is not, or is no conversion at all, and two of them are shown as one (`displays_iff`). The search string is
therefore displayed exactly where no `%` is in it and it fits its array, and so are the keys of a sequence (`typed_displayed_iff`).
-/

namespace Hoe

/-! ## Formats -/

/-- A text without conversions, and without a zero that would end it. -/
def Literal (fmt : List Byte) : Prop := ∀ c ∈ fmt, c ≠ 0x25 ∧ c ≠ 0

theorem literal_append {as bs : List Byte} : Literal (as ++ bs) ↔ Literal as ∧ Literal bs := by
  simp only [Literal, List.mem_append, or_imp, forall_and]
  tauto

/-- A text is printed as it is. -/
theorem formatted_literal {fmt : List Byte} (h : Literal fmt) : formatted fmt = some fmt := by
  induction fmt with
  | nil => rfl
  | cons c fmt ih =>
    obtain ⟨⟨hpercent, hzero⟩, hfmt⟩ := List.forall_mem_cons.mp h
    have hstep : formatted (c :: fmt) = (formatted fmt).map (c :: ·) := by
      rw [formatted]
      · exact hzero
      · intro _ hc
        exact absurd hc hpercent
      · exact hpercent
    rw [hstep, ih hfmt]
    rfl

/-- Anything else comes out shorter, if there is a result. -/
theorem formatted_length {fmt out : List Byte} (h : formatted fmt = some out) :
    out.length ≤ fmt.length ∧ (out.length = fmt.length → Literal fmt) := by
  fun_induction formatted fmt generalizing out with
  | case1 =>
    cases h
    exact ⟨le_rfl, fun _ c hc => by cases hc⟩
  | case2 fmt =>
    cases h
    simp
  | case3 fmt ih =>
    obtain ⟨out', hout, rfl⟩ := Option.map_eq_some_iff.mp h
    have hle := (ih hout).1
    simp only [List.length_cons]
    exact ⟨by omega, fun heq => by omega⟩
  | case4 fmt hfmt => cases h
  | case5 c fmt hzero hdouble hpercent ih =>
    obtain ⟨out', hout, rfl⟩ := Option.map_eq_some_iff.mp h
    obtain ⟨hle, hliteral⟩ := ih hout
    simp only [List.length_cons]
    refine ⟨by omega, fun heq => ?_⟩
    exact List.forall_mem_cons.mpr ⟨⟨hpercent, hzero⟩, hliteral (by omega)⟩

/-- The status line shows the text behind a call, cut to its width. -/
def Displays (put : StatusLine → Option StatusLine) (text : List Byte) : Prop :=
  ∀ line, ∃ line', put line = some line' ∧ line'.drawn = text.take (TextDisplay.maxScreenWidth - 1)

/-- What `put_status` leaves on the line. -/
theorem putStatus_drawn {line line' : StatusLine} {fmt : List Byte} (h : putStatus line fmt = some line') :
    vsnprintf TextDisplay.maxScreenWidth fmt = some line'.drawn := by
  obtain ⟨buf, hbuf, rfl⟩ := Option.map_eq_some_iff.mp h
  rw [hbuf]
  split_ifs with hshadow
  · rfl
  · rw [line.same, ← not_not.mp hshadow]

/-- A text from an array that goes to `put_status` as the format. -/
theorem displays_iff {size : Nat} (hsize : size ≤ TextDisplay.maxScreenWidth) {put : StatusLine → Option StatusLine}
    {text : List Byte} (hput : ∀ line, put line = if text.length < size then putStatus line text else none) :
    Displays put text ↔ text.length < size ∧ Literal text := by
  constructor
  · intro h
    obtain ⟨line', hline, hdrawn⟩ := h ⟨[], [], rfl⟩
    rw [hput] at hline
    split_ifs at hline with hlen
    have hcut : text.take (TextDisplay.maxScreenWidth - 1) = text := List.take_of_length_le (by omega)
    have hprint := putStatus_drawn hline
    rw [hdrawn, hcut, vsnprintf] at hprint
    obtain ⟨out, hout, hshown⟩ := Option.map_eq_some_iff.mp hprint
    obtain ⟨hle, hliteral⟩ := formatted_length hout
    have hshort := congrArg List.length hshown
    rw [List.length_take] at hshort
    exact ⟨hlen, hliteral (by omega)⟩
  · rintro ⟨hlen, hliteral⟩ line
    have hprint : vsnprintf TextDisplay.maxScreenWidth text = some (text.take (TextDisplay.maxScreenWidth - 1)) := by
      rw [vsnprintf, formatted_literal hliteral]
      rfl
    cases hline : putStatus line text with
    | none =>
      rw [putStatus, hprint] at hline
      cases hline
    | some line' =>
      have hdrawn := putStatus_drawn hline
      rw [hprint] at hdrawn
      exact ⟨line', by rw [hput, if_pos hlen, hline], (Option.some.inj hdrawn).symm⟩

/-! ## Characters and names -/

/-- A character of more than one byte has none of the bytes of ASCII. -/
theorem mem_utf8Encode {c : Byte} {v : Nat} (hc : c < 0x80) : c ∈ utf8Encode v ↔ v = c := by
  by_cases hv : v < 0x80
  · rw [utf8Encode_ascii hv, List.mem_singleton, eq_comm]
  · have hbyte (a x : Nat) (ha : 0x80 ≤ a) : ¬a + x < 0x80 := by omega
    have hhigh : ∀ b ∈ utf8Encode v, ¬b < 0x80 := by
      unfold utf8Encode
      simp only
      split_ifs <;> simp only [List.forall_mem_cons, List.not_mem_nil, false_imp_iff, implies_true, and_true] <;>
        (repeat' apply And.intro) <;> exact hbyte _ _ (by decide)
    constructor
    · intro hmem
      exact absurd hc (hhigh c hmem)
    · rintro rfl
      exact absurd hc hv

/-- The characters are printed as they are when none of them is a `%`. -/
theorem literal_utf8Encode {vs : List Nat} : Literal (vs.flatMap utf8Encode) ↔ ∀ v ∈ vs, v ≠ 0x25 ∧ v ≠ 0 := by
  constructor
  · intro h v hv
    constructor
    · rintro rfl
      exact (h 0x25 (List.mem_flatMap.mpr ⟨_, hv, (mem_utf8Encode (by decide)).mpr rfl⟩)).1 rfl
    · rintro rfl
      exact (h 0 (List.mem_flatMap.mpr ⟨_, hv, (mem_utf8Encode (by decide)).mpr rfl⟩)).2 rfl
  · intro h c hc
    obtain ⟨v, hv, hmem⟩ := List.mem_flatMap.mp hc
    constructor
    · rintro rfl
      exact (h v hv).1 ((mem_utf8Encode (by decide)).mp hmem)
    · rintro rfl
      exact (h v hv).2 ((mem_utf8Encode (by decide)).mp hmem)

/-- The prompt has no conversion, whatever it says. -/
theorem literal_isearchPrompt (failing hexMode word ignoreCase smartCase backward : Bool) :
    Literal (isearchPrompt failing hexMode word ignoreCase smartCase backward) := by
  unfold Literal
  revert failing hexMode word ignoreCase smartCase backward
  decide

/-- The names with a `%`: that of the key, and that of the key with Meta. -/
theorem mem_keytostr (key : Nat) : 0 ∉ keytostr key ∧ (0x25 ∈ keytostr key ↔ key = 0x25 ∨ key = keyMeta 0x25) := by
  by_cases h : key ∈ specialKeys
  · revert key
    decide +kernel
  · obtain ⟨hlt, -, heq⟩ := of_not_special h
    have hmeta : key ≠ keyMeta 0x25 := by
      rintro rfl
      exact h (by decide +kernel)
    rw [heq, mem_utf8Encode (by decide), mem_utf8Encode (by decide)]
    exact ⟨by omega, by simp [hmeta]⟩

/-! ## The search string -/

/-- The prompt and the characters fit the array of the search string, and no character is a `%` or the zero that ends it. -/
def ISearchState.Fits (is : ISearchState) : Prop :=
  (is.prompt ++ is.typed).length < 256 ∧ ∀ v ∈ searchedKeys is.searchString, v ≠ 0x25 ∧ v ≠ 0

theorem ISearchState.displays_iff (is : ISearchState) : Displays is.displayString (is.prompt ++ is.typed) ↔ is.Fits := by
  have hput (line : StatusLine) : is.displayString line =
      if (is.prompt ++ is.typed).length < 256 then putStatus line (is.prompt ++ is.typed) else none := by
    unfold displayString ubuf
    split_ifs <;> rfl
  have hprompt : Literal is.prompt := literal_isearchPrompt _ _ _ _ _ _
  rw [Hoe.displays_iff (by decide) hput, literal_append, Fits]
  simp only [hprompt, true_and, typed, literal_utf8Encode]

/-- The state of a search that is not over. -/
def ISearch.state : ISearch → Option ISearchState
  | .searching is => some is
  | .ended _ _ _ => none

/-- In every state of a search that some of the keys lead to. -/
def SearchRuns (pending : Int → Bool) (s : Editor) (dir : Direction) (lastSearchString chs : List Nat) (P : ISearchState → Prop) : Prop :=
  ∀ pre is, pre <+: chs → isearchKeys pending (doIsearch pending s dir lastSearchString) pre = .searching is → P is

/-! ### Searches for ASCII -/

/-- A character of ASCII that is shown as it is. -/
def Ordinary (v : Nat) : Prop := v < 0x80 ∧ v ≠ 0x25 ∧ v ≠ 0

/-- The search string and the one of the last search keep to their arrays, and their characters are ordinary. -/
structure ISearchState.Tame (is : ISearchState) : Prop where
  room : is.searchString.length ≤ searchLength
  ordinary : ∀ v ∈ searchedKeys is.searchString, Ordinary v
  lastRoom : is.lastSearchString.length ≤ searchLength
  lastOrdinary : ∀ v ∈ is.lastSearchString, Ordinary v

namespace ISearchState

variable {pending : Int → Bool} {is is' : ISearchState} {ch : Nat} {chs : List Nat}

theorem mem_searchedKeys {es : List SearchEntry} {v : Nat} : v ∈ searchedKeys es ↔ .key v ∈ es := by
  unfold searchedKeys
  rw [List.mem_filterMap]
  constructor
  · rintro ⟨e, he, hv⟩
    cases e with
    | key w =>
      cases hv
      exact he
    | found offset => cases hv
  · intro h
    exact ⟨_, h, rfl⟩

/-- A search changes neither string. -/
theorem Tame.display (h : is.Tame) : (isearchDisplay pending is).Tame := by
  unfold isearchDisplay
  simp only
  split_ifs <;> exact ⟨h.room, h.ordinary, h.lastRoom, h.lastOrdinary⟩

/-- Going on to the next match. -/
theorem Tame.addpos (h : is.Tame) (dir : Direction) : (is.addpos dir).Tame := by
  unfold ISearchState.addpos
  split_ifs with hempty hfound
  · refine ⟨by simpa using h.lastRoom, ?_, h.lastRoom, h.lastOrdinary⟩
    intro v hv
    obtain ⟨w, hw, hwv⟩ := List.mem_map.mp (mem_searchedKeys.mp hv)
    cases hwv
    exact h.lastOrdinary v hw
  · refine ⟨?_, ?_, h.lastRoom, h.lastOrdinary⟩
    · rw [List.length_append]
      exact hfound.1
    · intro v hv
      rcases List.mem_append.mp (mem_searchedKeys.mp hv) with hv | hv
      · exact h.ordinary v (mem_searchedKeys.mpr hv)
      · simp at hv
  · exact ⟨h.room, h.ordinary, h.lastRoom, h.lastOrdinary⟩

/-- One key. -/
theorem Tame.key (h : is.Tame) (hch : Ordinary ch ∨ keySpecial ch = true) (hkey : isearchKey pending is ch = .searching is') :
    is'.Tame := by
  unfold isearchKey at hkey
  split_ifs at hkey with hback hquit hforward hbackward hword hcase hspecial hreturn hroom
  · cases hkey
    refine Tame.display ⟨?_, ?_, h.lastRoom, h.lastOrdinary⟩
    · rw [List.length_dropLast]
      exact (Nat.sub_le _ _).trans h.room
    · intro v hv
      exact h.ordinary v (mem_searchedKeys.mpr (List.mem_of_mem_dropLast (mem_searchedKeys.mp hv)))
  · cases hkey
  · cases hkey
    exact (h.addpos _).display
  · cases hkey
    exact (h.addpos _).display
  · cases hkey
    exact Tame.display ⟨h.room, h.ordinary, h.lastRoom, h.lastOrdinary⟩
  · cases hkey
    exact Tame.display ⟨h.room, h.ordinary, h.lastRoom, h.lastOrdinary⟩
  · cases hkey
  · cases hkey
  · cases hkey
    refine Tame.display ⟨?_, ?_, h.lastRoom, h.lastOrdinary⟩
    · rw [List.length_append]
      exact hroom
    · intro v hv
      rcases List.mem_append.mp (mem_searchedKeys.mp hv) with hv | hv
      · exact h.ordinary v (mem_searchedKeys.mpr hv)
      · cases List.mem_singleton.mp hv
        exact hch.resolve_right hspecial
  · cases hkey
    exact h.display

/-- Any number of keys. -/
theorem Tame.keys (h : is.Tame) (hchs : ∀ ch ∈ chs, Ordinary ch ∨ keySpecial ch = true)
    (hrun : isearchKeys pending is chs = .searching is') : is'.Tame := by
  induction chs generalizing is with
  | nil =>
    cases hrun
    exact h
  | cons ch chs ih =>
    obtain ⟨hch, hchs⟩ := List.forall_mem_cons.mp hchs
    unfold isearchKeys at hrun
    cases hkey : isearchKey pending is ch with
    | searching is₁ =>
      rw [hkey] at hrun
      exact ih (h.key hch hkey) hchs hrun
    | ended s last reposted =>
      rw [hkey] at hrun
      cases hrun

theorem isearchPrompt_length (failing hexMode word ignoreCase smartCase backward : Bool) :
    (isearchPrompt failing hexMode word ignoreCase smartCase backward).length ≤ 49 := by
  revert failing hexMode word ignoreCase smartCase backward
  decide

/-- One byte for each character, and there are not more than the search string has room for. -/
theorem Tame.fits (h : is.Tame) : is.Fits := by
  have hbytes : is.typed = searchedKeys is.searchString := by
    have hsame : ∀ v ∈ searchedKeys is.searchString, utf8Encode v = [v] := fun v hv => utf8Encode_ascii (h.ordinary v hv).1
    exact (List.flatMap_congr hsame).trans (List.flatMap_singleton' _)
  have hprompt : is.prompt.length ≤ 49 := isearchPrompt_length _ _ _ _ _ _
  have hkeys : (searchedKeys is.searchString).length ≤ is.searchString.length := List.length_filterMap_le _ _
  have hroom : is.searchString.length ≤ 80 := h.room
  refine ⟨?_, fun v hv => (h.ordinary v hv).2⟩
  rw [List.length_append, hbytes]
  omega

end ISearchState

/-- A search in which only ordinary characters are typed is always displayed. -/
theorem searchRuns_fits {lastSearchString chs : List Nat} (hlast : lastSearchString.length ≤ searchLength)
    (hordinary : ∀ v ∈ lastSearchString, Ordinary v) (hchs : ∀ ch ∈ chs, Ordinary ch ∨ keySpecial ch = true)
    (pending : Int → Bool) (s : Editor) (dir : Direction) :
    SearchRuns pending s dir lastSearchString chs ISearchState.Fits := by
  intro pre is hpre hrun
  have hstart : (doIsearch pending s dir lastSearchString).Tame :=
    ISearchState.Tame.display ⟨Nat.zero_le _, nofun, hlast, hordinary⟩
  exact (hstart.keys (fun ch hch => hchs ch (hpre.subset hch)) hrun).fits

/-- A letter is typed, and the search goes on to the next place. -/
theorem searchRuns_fits_letter :
    SearchRuns (fun _ => false) (Editor.new (EditBuffer.new false) .latin1 0) .forward [98] [97, 0x13] ISearchState.Fits :=
  searchRuns_fits (by decide) (by unfold Ordinary; decide) (by unfold Ordinary; decide) _ _ _

/-! ## The keys of a sequence -/

/-- The names of the keys with blanks between them, and a dash where the next one will stand. -/
def echoText : List Nat → List Byte
  | [] => []
  | [key] => keytostr key ++ cstr "-"
  | key :: keys => keytostr key ++ cstr " " ++ echoText keys

theorem echoText_ne_nil {keys : List Nat} (h : keys ≠ []) : echoText keys ≠ [] := by
  cases keys with
  | nil => exact absurd rfl h
  | cons key keys => cases keys <;> simp [echoText, cstr]

/-- The next key takes the place of the dash. -/
theorem echoText_append (keys : List Nat) (key : Nat) :
    echoText (keys ++ [key]) =
      (if echoText keys = [] then [] else (echoText keys).dropLast ++ cstr " ") ++ keytostr key ++ cstr "-" := by
  induction keys with
  | nil => rfl
  | cons k keys ih =>
    rw [if_neg (echoText_ne_nil (List.cons_ne_nil k keys))]
    cases keys with
    | nil => simp [echoText, cstr]
    | cons k' keys =>
      have hne := echoText_ne_nil (List.cons_ne_nil k' keys)
      rw [if_neg hne] at ih
      have hleft : echoText (k :: k' :: keys ++ [key]) = keytostr k ++ cstr " " ++ echoText (k' :: keys ++ [key]) := rfl
      have hright : echoText (k :: k' :: keys) = keytostr k ++ cstr " " ++ echoText (k' :: keys) := rfl
      rw [hleft, ih, hright, List.dropLast_append_of_ne_nil hne]
      simp only [List.append_assoc]

theorem mem_echoText {c : Byte} {keys : List Nat} (hblank : c ≠ 0x20) (hdash : c ≠ 0x2d) :
    c ∈ echoText keys ↔ ∃ key ∈ keys, c ∈ keytostr key := by
  have hb : c ∉ cstr " " := by simpa [cstr] using hblank
  have hd : c ∉ cstr "-" := by simpa [cstr] using hdash
  induction keys with
  | nil => simp [echoText]
  | cons key keys ih =>
    cases keys with
    | nil => simp [echoText, hd]
    | cons k keys =>
      have hcons : echoText (key :: k :: keys) = keytostr key ++ cstr " " ++ echoText (k :: keys) := rfl
      simp only [hcons, List.mem_append, ih, hb, or_false, List.exists_mem_cons_iff]

theorem echoText_length (keys : List Nat) : (echoText keys).length = shownBytes keys := by
  induction keys with
  | nil => rfl
  | cons key keys ih =>
    cases keys with
    | nil => simp [echoText, shownBytes, cstr]
    | cons k keys =>
      have hcons : echoText (key :: k :: keys) = keytostr key ++ cstr " " ++ echoText (k :: keys) := rfl
      have hblank : (cstr " ").length = 1 := rfl
      rw [hcons, List.length_append, List.length_append, ih, hblank]
      simp only [shownBytes, List.map_cons, List.sum_cons]

/-- The names of the keys fit the array of the key context, and none of them has a `%`. -/
def KeysFit (keys : List Nat) : Prop := shownBytes keys < 128 ∧ ∀ key ∈ keys, key ≠ 0x25 ∧ key ≠ keyMeta 0x25

theorem literal_echoText (keys : List Nat) : Literal (echoText keys) ↔ ∀ key ∈ keys, key ≠ 0x25 ∧ key ≠ keyMeta 0x25 := by
  have hpercent : 0x25 ∈ echoText keys ↔ ∃ key ∈ keys, 0x25 ∈ keytostr key := mem_echoText (by decide) (by decide)
  have hzero : 0 ∈ echoText keys ↔ ∃ key ∈ keys, 0 ∈ keytostr key := mem_echoText (by decide) (by decide)
  constructor
  · intro h key hkey
    rw [← not_or, ← (mem_keytostr key).2]
    intro hmem
    exact (h 0x25 (hpercent.mpr ⟨key, hkey, hmem⟩)).1 rfl
  · intro h c hc
    constructor
    · rintro rfl
      obtain ⟨key, hkey, hmem⟩ := hpercent.mp hc
      rw [(mem_keytostr key).2] at hmem
      exact not_or.mpr (h key hkey) hmem
    · rintro rfl
      obtain ⟨key, -, hmem⟩ := hzero.mp hc
      exact (mem_keytostr key).1 hmem

namespace KeyState

variable {E : Type} (sem : KeyCommands E) {st : KeyState E} {keys : List Nat}

/-- The string of the key context is the text of the keys that are shown. -/
theorem runKeys_text (h : st.ctx.buf = echoText keys) (ins : List (KeyInput E)) :
    (st.runKeys sem ins).ctx.buf = echoText (st.shown sem keys ins) := by
  refine runKeys_shown sem (P := fun buf keys => buf = echoText keys) rfl ?_ h ins
  intro c keys key hc
  rw [echoText_append, ← hc]
  rfl

/-- Behind every key of a run that `qe_key_process` displays, with the keys that are shown then. -/
def EchoRuns (st : KeyState E) (ins : List (KeyInput E)) (P : KeyState E → List Nat → Prop) : Prop :=
  ∀ pre key, pre ++ [.key key] <+: ins → ((st.ready.runKeys sem pre).record key).echoed key = true →
    P (st.ready.runKeys sem (pre ++ [.key key])) (st.ready.shown sem [] (pre ++ [.key key]))

theorem displayKeys_iff (h : st.ctx.buf = echoText keys) : Displays st.displayKeys (echoText keys) ↔ KeysFit keys := by
  have hput (line : StatusLine) :
      st.displayKeys line = if (echoText keys).length < 128 then putStatus line (echoText keys) else none := by
    rw [displayKeys, h]
  rw [displays_iff (by decide) hput, literal_echoText, echoText_length, KeysFit]

end KeyState

open KeyState (EchoRuns)

/-- The status line shows the prompt and the characters of a search string exactly where they fit and no character is a `%`, and the
keys that are pressed exactly where their names fit and none of them is a `%`: in every state of a search, whatever was typed, and
behind every key of a run that is displayed. Where one of them does not fit or has a `%` that no other follows, there is no result. -/
theorem typed_displayed_iff (pending : Int → Bool) (s : Editor) (dir : Direction) (lastSearchString chs : List Nat) {E : Type}
    (sem : KeyCommands E) (st : KeyState E) (ins : List (KeyInput E)) :
    (SearchRuns pending s dir lastSearchString chs (fun is => Displays is.displayString (is.prompt ++ is.typed)) ↔
      SearchRuns pending s dir lastSearchString chs ISearchState.Fits) ∧
    (EchoRuns sem st ins (fun st keys => Displays st.displayKeys (echoText keys)) ↔
      EchoRuns sem st ins fun _ keys => KeysFit keys) := by
  constructor
  · simp only [SearchRuns, ISearchState.displays_iff]
  · have htext (pre : List (KeyInput E)) : (st.ready.runKeys sem pre).ctx.buf = echoText (st.ready.shown sem [] pre) :=
      KeyState.runKeys_text sem rfl pre
    unfold EchoRuns
    simp only [KeyState.displayKeys_iff (htext _)]

/-- `%d` in a search string takes an argument that there is not, and so does `%-` behind the prefix of a command. -/
theorem not_typed_displayed :
    ¬SearchRuns (fun _ => false) (Editor.new (EditBuffer.new false) .latin1 0) .forward [] [0x25, 0x64]
      (fun is => Displays is.displayString (is.prompt ++ is.typed)) ∧
    ¬EchoRuns noEffects (keyStart [⟨keyCtrlX 0x6b, keyNone, "kill-buffer", .other 0, 0⟩]) [.key (keyCtrl 0x78), .key 0x25]
      (fun st keys => Displays st.displayKeys (echoText keys)) := by
  let line : StatusLine := ⟨[], [], rfl⟩
  constructor
  · intro h
    have hnone : ((isearchKeys (fun _ => false)
        (doIsearch (fun _ => false) (Editor.new (EditBuffer.new false) .latin1 0) .forward []) [0x25, 0x64]).state.bind
          fun is => is.displayString line).isNone = true := by decide +kernel
    obtain ⟨line', hline, -⟩ := h [0x25, 0x64] _ (List.prefix_refl _) rfl line
    have hsome := Option.isNone_iff_eq_none.mp hnone
    exact absurd (hline.symm.trans hsome) nofun
  · intro h
    have hnone : (((keyStart [⟨keyCtrlX 0x6b, keyNone, "kill-buffer", .other 0, 0⟩]).ready.runKeys noEffects
        [.key (keyCtrl 0x78), .key 0x25]).displayKeys line).isNone = true := by decide +kernel
    obtain ⟨line', hline, -⟩ := h [.key (keyCtrl 0x78)] 0x25 (List.prefix_refl _) (by decide +kernel) line
    have hsome := Option.isNone_iff_eq_none.mp hnone
    exact absurd (hline.symm.trans hsome) nofun

end Hoe
