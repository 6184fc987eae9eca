import Hoe.Search
import Hoe.Lemmas.Editor
import Hoe.Lemmas.Search
import Hoe.Lib.Occurrence

/-!
# Query replace

With `!` the leftmost occurrences behind the start are replaced, from left to right, and no replacement is looked at again. An
answer that declines leaves the offset where the search begins alone, so that the same occurrence is asked about once more.
-/

namespace Hoe

open Splice Occurrence

/-!
## One turn

Behind what is settled the search finds the first occurrence in the rest of the text, and a replacement settles it: the search
goes on behind the replacement.
-/

/-- A match is an occurrence at the beginning of what is left of the text there. -/
theorem isMatch_none_iff_occurs {text buf : List Byte} (hbuf : buf ≠ []) (o : Nat) :
    IsMatch text .none buf o ↔ buf <+: text.drop o := by
  have hpos := List.length_pos_iff.mpr hbuf
  rw [isMatch_none, slice]
  constructor
  · rintro ⟨-, htake⟩
    exact List.prefix_iff_eq_take.mpr htake.symm
  · intro h
    have hle := h.length_le
    rw [List.length_drop] at hle
    exact ⟨by omega, (List.prefix_iff_eq_take.mp h).symm⟩

/-- The search begins behind what is settled. -/
structure QueryReplaceState.Settled (is : QueryReplaceState) (front rest : List Byte) : Prop where
  wf : is.s.buffer.WellFormed
  text : is.s.buffer.bytes = front ++ rest
  found : is.foundOffset = front.length
  search : is.searchBytes ≠ []
  size : is.searchBytes.length < searchBufSize

namespace QueryReplaceState

variable {is : QueryReplaceState} {front rest a : List Byte}

/-- The search of a turn. -/
def find (is : QueryReplaceState) : Int :=
  ebSearch is.s.buffer.toPages is.foundOffset .forward is.searchBytes .none fun _ => false

theorem Settled.ok (h : is.Settled front rest) : is.s.buffer.toPages.Ok := by
  obtain ⟨d, hd⟩ := h.wf
  exact hd.ok

theorem Settled.answers (h : is.Settled front rest) :
    Answers .forward {o | front.length ≤ o ∧ is.searchBytes <+: (front ++ rest).drop o} is.find := by
  have hfind := ebSearch_forward h.ok .none (List.length_pos_iff.mpr h.search) h.size front.length
  rw [← h.found] at hfind
  simp only [isMatch_none_iff_occurs h.search, h.text] at hfind
  exact hfind

/-- With no occurrence left nothing is found. -/
theorem Settled.find_none (h : is.Settled front rest) (hnone : ∀ i, ¬is.searchBytes <+: rest.drop i) : is.find = -1 := by
  refine h.answers.unique (Or.inl ⟨rfl, Set.eq_empty_of_forall_notMem ?_⟩)
  rintro o ⟨ho, hoccurs⟩
  rw [List.drop_append, List.drop_of_length_le ho, List.nil_append] at hoccurs
  exact hnone _ hoccurs

/-- The first occurrence is found. -/
theorem Settled.find_gap (h : is.Settled front (a ++ is.searchBytes ++ rest))
    (hfirst : ∀ i < a.length, ¬is.searchBytes <+: (a ++ is.searchBytes ++ rest).drop i) :
    is.find = ((front ++ a).length : Nat) := by
  refine h.answers.unique (Or.inr ⟨_, rfl, ⟨by simp, ?_⟩, ?_⟩)
  · rw [List.append_assoc a, ← List.append_assoc front, List.drop_left]
    exact List.prefix_append _ _
  · rintro o ⟨ho, hoccurs⟩
    rw [List.drop_append, List.drop_of_length_le ho, List.nil_append] at hoccurs
    by_contra hlt
    rw [List.length_append] at hlt
    exact hfirst _ (by omega) hoccurs

/-- At the occurrence that was found the text in front of it is settled too. -/
theorem Settled.here (h : is.Settled front (a ++ is.searchBytes ++ rest))
    (hfirst : ∀ i < a.length, ¬is.searchBytes <+: (a ++ is.searchBytes ++ rest).drop i) :
    QueryReplaceState.Settled { is with foundOffset := is.find } (front ++ a) (is.searchBytes ++ rest) :=
  ⟨h.wf, by rw [h.text, List.append_assoc, List.append_assoc], h.find_gap hfirst, h.search, h.size⟩

/-- The replacement puts the new bytes in the place of the occurrence and settles them. -/
theorem Settled.replace (h : is.Settled front (is.searchBytes ++ rest)) :
    ∃ is', queryReplaceReplace is = some is' ∧ is'.Settled (front ++ is.replaceBytes) rest ∧ is'.searchBytes = is.searchBytes ∧
      is'.replaceBytes = is.replaceBytes ∧ is'.replaceAll = is.replaceAll ∧ is'.nbReps = is.nbReps + 1 := by
  have hpos := List.length_pos_iff.mpr h.search
  have hlen : is.s.buffer.bytes.length = front.length + is.searchBytes.length + rest.length := by
    rw [h.text, List.length_append, List.length_append, Nat.add_assoc]
  obtain ⟨s₁, hs₁, hed₁⟩ := Editor.ebDelete_spec h.wf (show front.length < _ by omega)
    (show front.length + is.searchBytes.length ≤ _ by omega)
  have htext₁ : s₁.buffer.bytes = front ++ rest := by rw [hed₁.text, h.text, removeAt_append, List.drop_left]
  obtain ⟨s₂, hs₂, hed₂⟩ := Editor.ebInsert_spec hed₁.wf
    (show front.length ≤ _ by rw [htext₁, List.length_append]; exact Nat.le_add_right _ _) is.replaceBytes
  have htext₂ : s₂.buffer.bytes = (front ++ is.replaceBytes) ++ rest := by rw [hed₂.text, htext₁, insertAt_append]
  refine ⟨{ is with s := s₂, foundOffset := is.foundOffset + is.replaceBytes.length, nbReps := is.nbReps + 1 }, ?_,
    ⟨hed₂.wf, htext₂, ?_, h.search, h.size⟩, rfl, rfl, rfl, rfl⟩
  · rw [queryReplaceReplace, h.found, hs₁, Option.bind_eq_bind, Option.bind_some, hs₂]
    rfl
  · simp only [h.found, List.length_append, Nat.cast_add]

end QueryReplaceState

variable {is : QueryReplaceState} {front rest a sb : List Byte} {gs : List (List Byte)}

/-! ## Replacing all -/

/-- The turns that replace without asking: they come to an end, and what they make of the text is the replacement between the
gaps. -/
theorem queryReplaceDisplay_all (hgs : Leftmost sb rest gs) (hsb : is.searchBytes = sb) (hall : is.replaceAll = true)
    (h : is.Settled front rest) {n : Nat} (hn : gs.length ≤ n) :
    ∃ s, queryReplaceDisplay n is = some (.ended s (is.nbReps + (gs.length - 1))) ∧
      s.buffer.bytes = front ++ is.replaceBytes.intercalate gs := by
  induction hgs generalizing is front n with
  | last hnone =>
    subst hsb
    obtain ⟨n, rfl⟩ := Nat.exists_eq_add_of_le' hn
    have hfind := h.find_none hnone
    refine ⟨is.s, ?_, by rw [h.text, List.intercalate_singleton]⟩
    exact if_pos (show is.find < 0 by omega)
  | @gap a l gs hfirst hl ih =>
    subst hsb
    rw [List.length_cons] at hn
    obtain ⟨n, rfl⟩ := Nat.exists_eq_add_of_le' (show 1 ≤ n by omega)
    have hfind := h.find_gap hfirst
    obtain ⟨is', hreplace, hsettled, hsb', hrb', hall', hnb'⟩ := (h.here hfirst).replace
    obtain ⟨s', hrun, htext⟩ := ih hsb' (hall'.trans hall) hsettled (show gs.length ≤ n by omega)
    have hpos := List.length_pos_iff.mpr hl.ne_nil
    refine ⟨s', ?_, ?_⟩
    · have hturn : queryReplaceDisplay (n + 1) is =
          (queryReplaceReplace { is with foundOffset := is.find }).bind (queryReplaceDisplay n) :=
        (if_neg (show ¬is.find < 0 by omega)).trans (if_pos hall)
      rw [hturn, hreplace, Option.bind_some, hrun, hnb', List.length_cons,
        show is.nbReps + 1 + (gs.length - 1) = is.nbReps + (gs.length + 1 - 1) by omega]
    · rw [htext, hrb', List.intercalate_cons_of_ne_nil hl.ne_nil]
      simp only [List.append_assoc]

/-- A question is about the first occurrence in what is not settled yet. -/
theorem queryReplaceDisplay_asks (h : is.Settled front (a ++ is.searchBytes ++ rest)) (hask : is.replaceAll = false)
    (hfirst : ∀ i < a.length, ¬is.searchBytes <+: (a ++ is.searchBytes ++ rest).drop i) :
    ∃ is', (∀ n, queryReplaceDisplay (n + 1) is = some (.asking is')) ∧
      is'.Settled (front ++ a) (is.searchBytes ++ rest) ∧ is'.searchBytes = is.searchBytes ∧ is'.replaceBytes = is.replaceBytes ∧
      is'.replaceAll = false ∧ is'.nbReps = is.nbReps := by
  have hfind := h.find_gap hfirst
  have hhere := h.here hfirst
  refine ⟨{ is with foundOffset := is.find, s := { is.s with offset := is.find } }, fun n => ?_,
    ⟨hhere.wf, hhere.text, hhere.found, hhere.search, hhere.size⟩, rfl, rfl, hask, rfl⟩
  exact (if_neg (show ¬is.find < 0 by omega)).trans (if_neg (by rw [hask]; decide))

/-- The state in which `do_query_replace` begins. -/
def queryReplaceStart (s : Editor) (searchStr replaceStr : List Byte) : QueryReplaceState :=
  { s := s, nbReps := 0, searchBytes := toBytes s searchLength searchStr, replaceBytes := toBytes s searchLength replaceStr
    foundOffset := s.offset, replaceAll := false }

theorem length_toBytes_le (s : Editor) (n : Nat) (str : List Byte) : (toBytes s n str).length ≤ n := by
  unfold toBytes
  split <;> exact List.length_take_le _ _

theorem queryReplaceStart_settled {s : Editor} (hs : s.buffer.WellFormed) {searchStr : List Byte} (replaceStr : List Byte)
    (hsearch : toBytes s searchLength searchStr ≠ []) {o : Nat} (ho : s.offset = o) (hle : o ≤ s.buffer.bytes.length) :
    (queryReplaceStart s searchStr replaceStr).Settled (s.buffer.bytes.take o) (s.buffer.bytes.drop o) := by
  have hlen := length_toBytes_le s searchLength searchStr
  refine ⟨hs, (List.take_append_drop _ _).symm, ?_, hsearch, lt_of_le_of_lt hlen (by decide)⟩
  rw [List.length_take, Nat.min_eq_left hle]
  exact ho

/-- Answering `!` at the first question replaces the leftmost occurrences from the start on and says how many they are. The
question is asked when there is one. -/
theorem replace_all_leftmost {s : Editor} (hs : s.buffer.WellFormed) (hw : s.buffer.readOnly = false) {o : Nat}
    (ho : s.offset = o) (hle : o ≤ s.buffer.bytes.length) {searchStr : List Byte}
    (hsearch : toBytes s searchLength searchStr ≠ []) (replaceStr : List Byte) :
    ∃ gs, Leftmost (toBytes s searchLength searchStr) (s.buffer.bytes.drop o) gs ∧
      ∃ n, ∀ m ≥ n,
        (1 < gs.length → ∃ is, doQueryReplace m s searchStr replaceStr = some (.asking is)) ∧
        ∃ s', queryReplaceKeys m s searchStr replaceStr ['!'.toNat] = some (.ended s' (gs.length - 1)) ∧
          s'.buffer.bytes = s.buffer.bytes.take o ++ (toBytes s searchLength replaceStr).intercalate gs := by
  obtain ⟨gs, hgs⟩ := exists_leftmost hsearch (s.buffer.bytes.drop o)
  refine ⟨gs, hgs, gs.length + 1, fun m hm => ?_⟩
  obtain ⟨m, rfl⟩ := Nat.exists_eq_add_of_le' (show 1 ≤ m by omega)
  have hstart := queryReplaceStart_settled hs replaceStr hsearch ho hle
  have hdo : doQueryReplace (m + 1) s searchStr replaceStr = queryReplaceDisplay (m + 1) (queryReplaceStart s searchStr replaceStr) :=
    if_neg (by rw [hw]; decide)
  rw [queryReplaceKeys, hdo]
  generalize hrest : s.buffer.bytes.drop o = rest at hgs hstart
  cases hgs with
  | last hnone =>
    have hfind := hstart.find_none hnone
    have hend : queryReplaceDisplay (m + 1) (queryReplaceStart s searchStr replaceStr) = some (.ended s 0) :=
      if_pos (show (queryReplaceStart s searchStr replaceStr).find < 0 by omega)
    refine ⟨fun h => absurd h (by simp), s, ?_, ?_⟩
    · rw [hend]
      rfl
    · rw [List.intercalate_singleton, ← hrest, List.take_append_drop]
  | @gap a l gs hfirst hl =>
    obtain ⟨is, hask, hsettled, hsb, hrb, -, hnb⟩ := queryReplaceDisplay_asks hstart rfl hfirst
    refine ⟨fun _ => ⟨is, hask m⟩, ?_⟩
    -- the question is about the first occurrence, with nothing left in front of it
    have hhere : Leftmost (toBytes s searchLength searchStr) ([] ++ toBytes s searchLength searchStr ++ l) ([] :: gs) :=
      .gap (fun i hi => absurd hi (Nat.not_lt_zero i)) hl
    have hall : QueryReplaceState.Settled { is with replaceAll := true } (s.buffer.bytes.take o ++ a)
        ([] ++ toBytes s searchLength searchStr ++ l) := ⟨hsettled.wf, hsettled.text, hsettled.found, hsettled.search, hsettled.size⟩
    obtain ⟨s', hrun, htext⟩ := queryReplaceDisplay_all hhere
      (show ({ is with replaceAll := true } : QueryReplaceState).searchBytes = _ from hsb) rfl hall
      (show ([] :: gs).length ≤ m + 1 by rw [List.length_cons] at hm ⊢; omega)
    have hkey : queryReplaceKey (m + 1) is '!'.toNat = queryReplaceDisplay (m + 1) { is with replaceAll := true } := rfl
    refine ⟨s', ?_, ?_⟩
    · rw [hask, Option.bind_some, List.foldlM_cons, QueryReplace.key, hkey, hrun, hnb]
      simp [queryReplaceStart]
    · rw [htext, hrb, List.intercalate_cons_of_ne_nil hl.ne_nil, List.intercalate_cons_of_ne_nil hl.ne_nil]
      simp only [List.append_assoc, List.nil_append]
      rfl

/-- A window on the text "abab". -/
def replacedWindow : Editor := Editor.new (ebInsert (EditBuffer.new false) 0 [0x61, 0x62, 0x61, 0x62]) .latin1 1

theorem replacedWindow_wf : replacedWindow.buffer.WellFormed := ⟨_, ebInsert_stands (new_stands false) (Nat.zero_le _) _⟩

/-- A letter becomes two of the same behind the first letter. -/
theorem replace_all_leftmost_twice : ∃ gs,
    Leftmost (toBytes replacedWindow searchLength [0x62]) (replacedWindow.buffer.bytes.drop 1) gs ∧
      ∃ n, ∀ m ≥ n,
        (1 < gs.length → ∃ is, doQueryReplace m replacedWindow [0x62] [0x62, 0x62] = some (.asking is)) ∧
        ∃ s', queryReplaceKeys m replacedWindow [0x62] [0x62, 0x62] ['!'.toNat] = some (.ended s' (gs.length - 1)) ∧
          s'.buffer.bytes =
            replacedWindow.buffer.bytes.take 1 ++ (toBytes replacedWindow searchLength [0x62, 0x62]).intercalate gs :=
  replace_all_leftmost replacedWindow_wf rfl rfl (by decide) (by decide) [0x62, 0x62]

/-! ## Asking -/

/-- The answers that replace. -/
def accepts (ch : Nat) : Bool := ch = 'y'.toNat ∨ ch = ' '.toNat

/-- The answers that do not. -/
def declines (ch : Nat) : Bool := ch = 'n'.toNat ∨ ch = keyEsc1 3

/-- What the dialogue is to be after the answers: it asks about the occurrence behind the first gap, or it is over when there is no
other one, with so many replacements. An answer settles the occurrence, and the next one is about the one behind it. -/
def Expected (p r : List Byte) : List Byte → List (List Byte) → Nat → List Nat → QueryReplace → Prop
  | front, g :: g' :: gs, nbReps, [], q =>
    ∃ is, q = .asking is ∧ is.foundOffset = (front ++ g).length ∧ is.s.buffer.bytes = front ++ p.intercalate (g :: g' :: gs) ∧
      is.nbReps = nbReps
  | front, g :: g' :: gs, nbReps, ch :: chs, q =>
    if accepts ch then Expected p r (front ++ g ++ r) (g' :: gs) (nbReps + 1) chs q
    else Expected p r (front ++ g ++ p) (g' :: gs) nbReps chs q
  | front, gs, nbReps, _, q => ∃ s, q = .ended s nbReps ∧ s.buffer.bytes = front ++ gs.flatten

theorem declines_of_accepts {ch : Nat} (h : accepts ch = true) : declines ch = false := by
  rw [accepts, decide_eq_true_iff] at h
  rcases h with rfl | rfl <;> rfl

/-- From the state on, each question is the one that is expected after the answers given so far, and so is the end. -/
def AsksInTurn (is : QueryReplaceState) (front : List Byte) (gs : List (List Byte)) (chs : List Nat) : Prop :=
  ∀ answered, answered <+: chs → ∃ n, ∀ m ≥ n, ∃ q,
    ((queryReplaceDisplay m is).bind fun q => answered.foldlM (QueryReplace.key m) q) = some q ∧
      Expected is.searchBytes is.replaceBytes front gs is.nbReps answered q

theorem expected_last (p r front g : List Byte) (nbReps : Nat) (chs : List Nat) (q : QueryReplace) :
    Expected p r front [g] nbReps chs q ↔ ∃ s, q = .ended s nbReps ∧ s.buffer.bytes = front ++ g := by
  cases chs <;> simp [Expected]

/-- Once the dialogue is over the keys go elsewhere. -/
theorem foldlM_ended (m : Nat) (s : Editor) (nbReps : Nat) (chs : List Nat) :
    chs.foldlM (QueryReplace.key m) (.ended s nbReps) = some (.ended s nbReps) := by
  induction chs with
  | nil => rfl
  | cons ch chs ih => exact ih

/-- A key that accepts replaces and asks on. -/
theorem queryReplaceKey_accepts {ch : Nat} (h : accepts ch = true) (n : Nat) (is : QueryReplaceState) :
    queryReplaceKey n is ch = (queryReplaceReplace is).bind (queryReplaceDisplay n) := by
  rw [accepts, decide_eq_true_iff] at h
  exact if_pos h

/-- A key that declines asks once more from the same offset. -/
theorem queryReplaceKey_declines {ch : Nat} (h : declines ch = true) (n : Nat) (is : QueryReplaceState) :
    queryReplaceKey n is ch = queryReplaceDisplay n is := by
  rw [declines, decide_eq_true_iff] at h
  rw [queryReplaceKey, if_neg, if_neg, if_pos h]
  · rintro rfl
    exact absurd h (by decide)
  · rintro (rfl | rfl) <;> exact absurd h (by decide)

/-- With no answer but those that accept, up to the last occurrence, everything is asked in turn. -/
theorem asks_of_accepts (hgs : Leftmost sb rest gs) (hsb : is.searchBytes = sb) (hask : is.replaceAll = false)
    (h : is.Settled front rest) {chs : List Nat} (hchs : ∀ ch ∈ chs.take (gs.length - 1), accepts ch = true) (m : Nat) :
    ∃ q, ((queryReplaceDisplay (m + 1) is).bind fun q => chs.foldlM (QueryReplace.key (m + 1)) q) = some q ∧
      Expected sb is.replaceBytes front gs is.nbReps chs q := by
  induction hgs generalizing is front chs with
  | last hnone =>
    subst hsb
    have hfind := h.find_none hnone
    have hend : queryReplaceDisplay (m + 1) is = some (.ended is.s is.nbReps) := if_pos (show is.find < 0 by omega)
    refine ⟨.ended is.s is.nbReps, ?_, (expected_last _ _ _ _ _ _ _).mpr ⟨_, rfl, h.text⟩⟩
    rw [hend, Option.bind_some, foldlM_ended]
  | @gap a l gs hfirst hl ih =>
    subst hsb
    obtain ⟨is₁, hasks, hsettled, hsb₁, hrb₁, hask₁, hnb₁⟩ := queryReplaceDisplay_asks h hask hfirst
    obtain ⟨g, gs', hg⟩ := List.exists_cons_of_ne_nil hl.ne_nil
    rw [hasks, Option.bind_some]
    cases chs with
    | nil =>
      refine ⟨_, rfl, ?_⟩
      rw [hg]
      refine ⟨is₁, rfl, hsettled.found, ?_, hnb₁⟩
      rw [← hg, List.intercalate_cons_of_ne_nil hl.ne_nil, hl.intercalate, hsettled.text]
      simp only [List.append_assoc]
    | cons ch chs =>
      have hlen : (a :: gs).length - 1 = gs'.length + 1 := by rw [hg]; rfl
      rw [hlen, List.take_succ_cons] at hchs
      obtain ⟨hch, hchs⟩ := List.forall_mem_cons.mp hchs
      rw [← hsb₁] at hsettled
      obtain ⟨is₂, hreplace, hsettled₂, hsb₂, hrb₂, hask₂, hnb₂⟩ := hsettled.replace
      have hchs : ∀ ch ∈ chs.take (gs.length - 1), accepts ch = true := by
        rw [hg]
        exact hchs
      obtain ⟨q, hrun, hexpected⟩ := ih (hsb₂.trans hsb₁) (hask₂.trans hask₁) hsettled₂ hchs
      refine ⟨q, ?_, ?_⟩
      · rw [List.foldlM_cons, QueryReplace.key, queryReplaceKey_accepts hch, hreplace]
        exact hrun
      · rw [hnb₂, hnb₁, hrb₂, hrb₁, hg] at hexpected
        rw [hg, Expected, if_pos hch]
        exact hexpected

/-- An answer that declines is followed by the same question. -/
theorem accepts_of_asks (hgs : Leftmost sb rest gs) (hsb : is.searchBytes = sb) (hask : is.replaceAll = false)
    (h : is.Settled front rest) {chs : List Nat} (hchs : ∀ ch ∈ chs, accepts ch = true ∨ declines ch = true)
    (hasks : AsksInTurn is front gs chs) : ∀ ch ∈ chs.take (gs.length - 1), accepts ch = true := by
  induction hgs generalizing is front chs with
  | last => simp
  | @gap a l gs hfirst hl ih =>
    subst hsb
    obtain ⟨g, gs', hg⟩ := List.exists_cons_of_ne_nil hl.ne_nil
    have hlen : (a :: gs).length - 1 = gs'.length + 1 := by rw [hg]; rfl
    rw [hlen]
    cases chs with
    | nil => simp
    | cons ch chs =>
      obtain ⟨hch, hchs⟩ := List.forall_mem_cons.mp hchs
      rw [List.take_succ_cons]
      have haccepts : accepts ch = true := by
        rcases hch with hch | hch
        · exact hch
        · -- the question after the answer is about the occurrence itself, not about one behind it
          exfalso
          obtain ⟨n, hn⟩ := hasks [ch] (List.prefix_append [ch] chs)
          obtain ⟨q, hrun, hexpected⟩ := hn (n + 1) (Nat.le_succ n)
          obtain ⟨is₁, hasks₁, hsettled, hsb₁, -, hask₁, -⟩ := queryReplaceDisplay_asks h hask hfirst
          have hsettled : is₁.Settled (front ++ a) ([] ++ is₁.searchBytes ++ l) := by rw [hsb₁]; exact hsettled
          obtain ⟨is₂, hasks₂, hsettled₂, -⟩ :=
            queryReplaceDisplay_asks hsettled hask₁ (fun i hi => absurd hi (Nat.not_lt_zero i))
          have hnot : ¬accepts ch = true := by
            intro haccepts
            rw [declines_of_accepts haccepts] at hch
            cases hch
          rw [hasks₁, Option.bind_some, List.foldlM_cons, QueryReplace.key, queryReplaceKey_declines hch, hasks₂] at hrun
          obtain rfl : QueryReplace.asking is₂ = q := Option.some.inj hrun
          have hfound := hsettled₂.found
          have hpos := List.length_pos_iff.mpr h.search
          rw [hg, Expected, if_neg hnot] at hexpected
          cases gs' with
          | nil =>
            obtain ⟨s, hs, -⟩ := (expected_last _ _ _ _ _ _ _).mp hexpected
            cases hs
          | cons g' gs' =>
            obtain ⟨is₃, his, hfound', -⟩ := hexpected
            obtain rfl : is₂ = is₃ := QueryReplace.asking.inj his
            simp only [List.length_append, List.length_nil] at hfound hfound'
            omega
      refine List.forall_mem_cons.mpr ⟨haccepts, ?_⟩
      have htail : chs.take gs'.length = chs.take (gs.length - 1) := by rw [hg]; rfl
      rw [htail]
      obtain ⟨is₁, hasks₁, hsettled₁, hsb₁, hrb₁, hask₁, hnb₁⟩ := queryReplaceDisplay_asks h hask hfirst
      rw [← hsb₁] at hsettled₁
      obtain ⟨is₂, hreplace, hsettled₂, hsb₂, hrb₂, hask₂, hnb₂⟩ := hsettled₁.replace
      refine ih (hsb₂.trans hsb₁) (hask₂.trans hask₁) hsettled₂ hchs fun answered hanswered => ?_
      obtain ⟨n, hn⟩ := hasks (ch :: answered) (List.cons_prefix_cons.mpr ⟨rfl, hanswered⟩)
      refine ⟨n + 1, fun m hm => ?_⟩
      obtain ⟨m, rfl⟩ := Nat.exists_eq_add_of_le' (show 1 ≤ m by omega)
      obtain ⟨q, hrun, hexpected⟩ := hn (m + 1) (by omega)
      refine ⟨q, ?_, ?_⟩
      · rw [hasks₁, Option.bind_some, List.foldlM_cons, QueryReplace.key, queryReplaceKey_accepts haccepts, hreplace] at hrun
        exact hrun
      · rw [hg, Expected, if_pos haccepts] at hexpected
        rw [hsb₂, hsb₁, hrb₂, hrb₁, hnb₂, hnb₁, hg]
        exact hexpected

/-- Each question of the dialogue is about the next one of the leftmost occurrences from the start on, and the dialogue is over
behind the last one; an answer replaces the occurrence or leaves it. -/
def AsksEachOnce (s : Editor) (searchStr replaceStr : List Byte) (o : Nat) (gs : List (List Byte)) (chs : List Nat) : Prop :=
  ∀ answered, answered <+: chs → ∃ n, ∀ m ≥ n, ∃ q, queryReplaceKeys m s searchStr replaceStr answered = some q ∧
    Expected (toBytes s searchLength searchStr) (toBytes s searchLength replaceStr) (s.buffer.bytes.take o) gs 0 answered q

/-- Each occurrence is asked about once exactly when no answer declines as long as there are occurrences. -/
theorem asks_each_once_iff {s : Editor} (hs : s.buffer.WellFormed) (hw : s.buffer.readOnly = false) {o : Nat}
    (ho : s.offset = o) (hle : o ≤ s.buffer.bytes.length) {searchStr : List Byte}
    (hsearch : toBytes s searchLength searchStr ≠ []) (replaceStr : List Byte) :
    ∃ gs, Leftmost (toBytes s searchLength searchStr) (s.buffer.bytes.drop o) gs ∧
      ∀ chs : List Nat, (∀ ch ∈ chs, accepts ch = true ∨ declines ch = true) →
        (AsksEachOnce s searchStr replaceStr o gs chs ↔ ∀ ch ∈ chs.take (gs.length - 1), declines ch = false) := by
  obtain ⟨gs, hgs⟩ := exists_leftmost hsearch (s.buffer.bytes.drop o)
  have hstart := queryReplaceStart_settled hs replaceStr hsearch ho hle
  refine ⟨gs, hgs, fun chs hchs => ?_⟩
  have hkeys (m : Nat) (answered : List Nat) : queryReplaceKeys m s searchStr replaceStr answered =
      (queryReplaceDisplay m (queryReplaceStart s searchStr replaceStr)).bind fun q =>
        answered.foldlM (QueryReplace.key m) q := by
    rw [queryReplaceKeys, doQueryReplace, hw]
    rfl
  constructor
  · intro hasks ch hch
    refine declines_of_accepts (accepts_of_asks hgs rfl rfl hstart hchs (fun answered hanswered => ?_) ch hch)
    obtain ⟨n, hn⟩ := hasks answered hanswered
    refine ⟨n, fun m hm => ?_⟩
    obtain ⟨q, hq, hexpected⟩ := hn m hm
    exact ⟨q, (hkeys m answered).symm.trans hq, hexpected⟩
  · intro hnone answered hanswered
    refine ⟨1, fun m hm => ?_⟩
    obtain ⟨m, rfl⟩ := Nat.exists_eq_add_of_le' hm
    have haccepts : ∀ ch ∈ answered.take (gs.length - 1), accepts ch = true := by
      intro ch hch
      have hmem := (hanswered.take (gs.length - 1)).subset hch
      rcases hchs ch (List.mem_of_mem_take hmem) with h | h
      · exact h
      · rw [hnone ch hmem] at h
        cases h
    obtain ⟨q, hq, hexpected⟩ := asks_of_accepts hgs rfl rfl hstart haccepts m
    exact ⟨q, (hkeys (m + 1) answered).trans hq, hexpected⟩

/-- Both letters behind the first one are replaced on request. -/
theorem asks_each_once_twice : ∃ gs,
    Leftmost (toBytes replacedWindow searchLength [0x62]) (replacedWindow.buffer.bytes.drop 1) gs ∧
      AsksEachOnce replacedWindow [0x62] [0x63] 1 gs ['y'.toNat, ' '.toNat] := by
  obtain ⟨gs, hgs, hiff⟩ := asks_each_once_iff replacedWindow_wf rfl (o := 1) rfl (by decide)
    (show toBytes replacedWindow searchLength [0x62] ≠ [] by decide) [0x63]
  refine ⟨gs, hgs, (hiff _ (by decide)).mpr fun ch hch => ?_⟩
  have hmem : ch ∈ ['y'.toNat, ' '.toNat] := List.mem_of_mem_take hch
  rcases List.mem_pair.mp hmem with rfl | rfl <;> rfl

/-- After an answer that declines the first letter is asked about again. -/
theorem not_asks_each_once : ¬∀ s : Editor, s.buffer.WellFormed → s.buffer.readOnly = false → ∀ o : Nat, s.offset = o →
    o ≤ s.buffer.bytes.length → ∀ searchStr, toBytes s searchLength searchStr ≠ [] → ∀ replaceStr,
      ∃ gs, Leftmost (toBytes s searchLength searchStr) (s.buffer.bytes.drop o) gs ∧
        ∀ chs : List Nat, (∀ ch ∈ chs, accepts ch = true ∨ declines ch = true) →
          AsksEachOnce s searchStr replaceStr o gs chs := by
  intro h
  obtain ⟨gs, hgs, hall⟩ := h _ replacedWindow_wf rfl 1 rfl (by decide) [0x62] (by decide) [0x63]
  have htwo : Leftmost [0x62] ([] ++ [0x62] ++ ([0x61] ++ [0x62] ++ [])) [[], [0x61], []] :=
    .gap (by decide) (.gap (by decide) (.last fun i => by simp))
  obtain rfl := hgs.unique htwo
  have hstart := queryReplaceStart_settled replacedWindow_wf [0x63]
    (show toBytes replacedWindow searchLength [0x62] ≠ [] by decide) (show replacedWindow.offset = (1 : Nat) from rfl) (by decide)
  have haccepts := accepts_of_asks hgs rfl rfl hstart (by decide) (hall ['n'.toNat] (by decide))
  exact absurd (haccepts 'n'.toNat (by decide)) (by decide)

end Hoe
