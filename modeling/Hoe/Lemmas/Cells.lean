import Hoe.Cells

/-!
# Colours in the line

Setting a colour changes no character. `painted` is what a turn does to the cells that are left of the line when all its spans are in
it, and then what the array has in front of these cells and behind the newline is as it was. A loop whose turns all fit the line is
done when it comes to the newline, and comes to the same whatever is behind it (`colorLoop_stays`).
-/

namespace Hoe

open Sentinel
open TextDisplay (styleShift)

/-! ## Styles and characters -/

@[simp] theorem charMask_colored (style c : Nat) : charMask (colored style c) = charMask c := by
  rw [charMask, colored, Nat.or_mod_two_pow, Nat.shiftLeft_eq, Nat.mul_mod_left, Nat.or_zero, charMask]

@[simp] theorem charMask_charMask (c : Nat) : charMask (charMask c) = charMask c := Nat.mod_mod _ _

/-- A character without a style is its own cell. -/
theorem charMask_of_lt {c : Nat} (h : c < 2 ^ styleShift) : charMask c = c := Nat.mod_eq_of_lt h

/-! ## Loops over cells -/

/-- The cells left of the line with some of them changed. -/
def spanned (f : Nat → Nat) (todo : List Nat) (start len : Nat) : List Nat :=
  todo.take start ++ ((todo.drop start).take len).map f ++ todo.drop (start + len)

/-- A loop over cells of the line changes nothing in front of them and behind. -/
theorem changeSpan_line {f : Nat → Nat} (before todo behind : List Nat) (start len : Nat) (h : start + len ≤ todo.length) :
    changeSpan f (before ++ todo ++ behind) (before.length + start) len =
      some (before ++ spanned f todo start len ++ behind) := by
  have hlen : before.length + start + len ≤ (before ++ todo ++ behind).length := by
    simp only [List.length_append]
    omega
  have htake : (before ++ todo ++ behind).take (before.length + start) = before ++ todo.take start := by
    rw [List.append_assoc, List.take_length_add_append, List.take_append_of_le_length (by omega)]
  have hdrop : ∀ n ≤ todo.length, (before ++ todo ++ behind).drop (before.length + n) = todo.drop n ++ behind := by
    intro n hn
    rw [List.append_assoc, List.drop_length_add_append, List.drop_append_of_le_length hn]
  rw [changeSpan, if_pos (Or.inr hlen), htake, hdrop start (by omega), Nat.add_assoc, hdrop _ h,
    List.take_append_of_le_length (by rw [List.length_drop]; omega), spanned]
  simp only [List.append_assoc]

/-- A span that is coloured keeps its characters. -/
theorem spanned_chars {f : Nat → Nat} (hf : ∀ c, charMask (f c) = charMask c) (todo : List Nat) (start len : Nat) :
    (spanned f todo start len).map charMask = todo.map charMask := by
  have hmap : (((todo.drop start).take len).map f).map charMask = ((todo.drop start).take len).map charMask := by
    rw [List.map_map]
    exact List.map_congr_left fun c _ => hf c
  rw [spanned, List.map_append, List.map_append, hmap, ← List.map_append, ← List.map_append, List.append_assoc,
    ← List.drop_drop, List.take_append_drop, List.take_append_drop]

theorem spanned_length (f : Nat → Nat) (todo : List Nat) (start len : Nat) :
    (spanned f todo start len).length = todo.length := by
  simp only [spanned, List.length_append, List.length_map, List.length_take, List.length_drop]
  omega

/-- The cells behind the changed ones. -/
theorem spanned_drop (f : Nat → Nat) {todo : List Nat} {start len n : Nat} (h : start + len ≤ n) (hn : n ≤ todo.length) :
    (spanned f todo start len).drop n = todo.drop n := by
  have hlen : (todo.take start ++ ((todo.drop start).take len).map f).length = start + len := by
    simp only [List.length_append, List.length_map, List.length_take, List.length_drop]
    omega
  obtain ⟨k, rfl⟩ := Nat.exists_eq_add_of_le h
  rw [spanned, ← hlen, List.drop_length_add_append, hlen, List.drop_drop]

/-! ## The turns of a loop -/

/-- What a turn makes of the cells left of the line. -/
def painted (todo : List Nat) (spans : List Span) : List Nat :=
  spans.foldl (fun todo s => spanned (colored s.style) todo s.start s.len) todo

/-- So do all spans of a line. -/
theorem painted_chars (todo : List Nat) (spans : List Span) : (painted todo spans).map charMask = todo.map charMask := by
  induction spans generalizing todo with
  | nil => rfl
  | cons s spans ih => rw [painted, List.foldl_cons, ← painted, ih, spanned_chars (charMask_colored s.style)]

@[simp] theorem painted_length (todo : List Nat) (spans : List Span) : (painted todo spans).length = todo.length := by
  induction spans generalizing todo with
  | nil => rfl
  | cons s spans ih => rw [painted, List.foldl_cons, ← painted, ih, spanned_length]

/-- The cells behind the spans. -/
theorem painted_drop {todo : List Nat} {spans : List Span} {n : Nat} (h : ∀ s ∈ spans, s.start + s.len ≤ n) (hn : n ≤ todo.length) :
    (painted todo spans).drop n = todo.drop n := by
  induction spans generalizing todo with
  | nil => rfl
  | cons s spans ih =>
    have hs := h s List.mem_cons_self
    rw [painted, List.foldl_cons, ← painted, ih (fun s' hs' => h s' (List.mem_cons_of_mem _ hs')) (by rwa [spanned_length]),
      spanned_drop _ hs hn]

/-- The calls of `set_color` when all the spans are in the line. -/
theorem setColors_line (before behind : List Nat) {todo : List Nat} {spans : List Span}
    (h : ∀ s ∈ spans, s.start + s.len ≤ todo.length) :
    setColors before.length (before ++ todo ++ behind) spans = some (before ++ painted todo spans ++ behind) := by
  induction spans generalizing todo with
  | nil => rfl
  | cons s spans ih =>
    have hs := h s List.mem_cons_self
    have hspans : ∀ s' ∈ spans, s'.start + s'.len ≤ (spanned (colored s.style) todo s.start s.len).length := by
      intro s' hs'
      rw [spanned_length]
      exact h s' (List.mem_cons_of_mem _ hs')
    rw [setColors, List.foldlM_cons, setColor, changeSpan_line before todo behind _ _ hs]
    exact ih hspans

/-- A turn fits the cells that are left: it colours and passes only cells of the line. -/
structure Round.Fits (r : Round) (n : Nat) : Prop where
  spans : ∀ s ∈ r.spans, s.start + s.len ≤ n
  passed : r.passed ≤ n

/-- The last turn. -/
theorem colorLoop_end (round : List Nat → Nat → Int → Bool → Option Round) (n : Nat) (before behind : List Nat) {todo : List Nat}
    {r : Round} (hr : r.Fits todo.length) (hends : r.ends = true) :
    colorLoop round n (before ++ todo ++ behind) before.length r = some (before ++ painted todo r.spans ++ behind, r.state) := by
  cases n with
  | zero => rw [colorLoop, setColors_line before behind hr.spans, Option.bind_eq_bind, Option.bind_some, if_pos hends]
  | succ n => rw [colorLoop, setColors_line before behind hr.spans, Option.bind_eq_bind, Option.bind_some, if_pos hends]

/-- A turn that is not the last one: the cells that are passed join those in front. -/
theorem colorLoop_next {round : List Nat → Nat → Int → Bool → Option Round} (n : Nat) {before todo behind : List Nat} {r r' : Round}
    (hr : r.Fits todo.length) (hends : r.ends = false)
    (hnext : round (before ++ (painted todo r.spans).take r.passed ++ (painted todo r.spans).drop r.passed ++ behind)
      (before ++ (painted todo r.spans).take r.passed).length r.state r.typeDecl = some r') :
    colorLoop round (n + 1) (before ++ todo ++ behind) before.length r =
      colorLoop round n (before ++ (painted todo r.spans).take r.passed ++ (painted todo r.spans).drop r.passed ++ behind)
        (before ++ (painted todo r.spans).take r.passed).length r' := by
  have hplace : (before ++ (painted todo r.spans).take r.passed).length = before.length + r.passed := by
    rw [List.length_append, List.length_take, painted_length, Nat.min_eq_left hr.passed]
  have hsplit : before ++ (painted todo r.spans).take r.passed ++ (painted todo r.spans).drop r.passed ++ behind =
      before ++ painted todo r.spans ++ behind := by
    rw [List.append_assoc before, List.take_append_drop]
  rw [hplace, hsplit] at hnext ⊢
  rw [colorLoop, setColors_line before behind hr.spans, Option.bind_eq_bind, Option.bind_some, if_neg (by simp [hends]), hnext,
    Option.bind_eq_bind, Option.bind_some]

/-- A loop that comes to an end has coloured what its first turn says. -/
theorem colorLoop_first {round : List Nat → Nat → Int → Bool → Option Round} {n : Nat} {buf : List Nat} {p : Nat} {r : Round}
    {result : List Nat × Int} (h : colorLoop round n buf p r = some result) :
    ∃ buf', setColors p buf r.spans = some buf' ∧
      ((r.ends = true ∧ result = (buf', r.state)) ∨
        (r.ends = false ∧ ∃ n' r', n = n' + 1 ∧ round buf' (p + r.passed) r.state r.typeDecl = some r' ∧
          colorLoop round n' buf' (p + r.passed) r' = some result)) := by
  cases n with
  | zero =>
    rw [colorLoop] at h
    obtain ⟨buf', hset, h⟩ := Option.bind_eq_some_iff.1 h
    refine ⟨buf', hset, Or.inl ?_⟩
    split_ifs at h with hends
    exact ⟨hends, (Option.some_inj.1 h).symm⟩
  | succ n =>
    rw [colorLoop] at h
    obtain ⟨buf', hset, h⟩ := Option.bind_eq_some_iff.1 h
    refine ⟨buf', hset, ?_⟩
    split_ifs at h with hends
    · exact Or.inl ⟨hends, (Option.some_inj.1 h).symm⟩
    · obtain ⟨r', hr', h⟩ := Option.bind_eq_some_iff.1 h
      exact Or.inr ⟨Bool.eq_false_iff.2 hends, n, r', rfl, hr', h⟩

/-- The turn is the last one, or passes a cell. -/
def Round.Moves (r : Round) (n : Nat) : Prop := r.Fits n ∧ (r.ends = false → 0 < r.passed)

/-- The place behind a turn, when it goes on. -/
def Round.Next (r : Round) (I : List Nat → List Nat → Prop) (before todo : List Nat) : Prop :=
  r.ends = false → I (before ++ (painted todo r.spans).take r.passed) ((painted todo r.spans).drop r.passed)

/-- A loop whose turns fit and move on is done by the newline; `I` holds of each place it comes to. -/
theorem colorLoop_stays {round : List Nat → Nat → Int → Bool → Option Round} {I : List Nat → List Nat → Prop}
    (h : ∀ before todo state typeDecl, I before todo →
      Settled (fun r => r.Moves todo.length ∧ r.Next I before todo)
        fun rest => round (before ++ todo ++ newline :: rest) before.length state typeDecl)
    (before todo : List Nat) {r : Round} (hr : r.Fits todo.length) (hnext : r.Next I before todo) :
    ∃ styled state', styled.map charMask = todo.map charMask ∧ ∀ n, todo.length + 1 ≤ n + r.passed → ∀ rest,
      colorLoop round n (before ++ todo ++ newline :: rest) before.length r = some (before ++ styled ++ newline :: rest, state') := by
  induction hk : (if r.ends then 0 else todo.length - r.passed + 1) using Nat.strong_induction_on generalizing before todo r with
  | _ k ih =>
    cases hends : r.ends with
    | true => exact ⟨painted todo r.spans, r.state, painted_chars todo r.spans, fun n _ rest => colorLoop_end round n before _ hr hends⟩
    | false =>
      rw [hends, if_neg Bool.false_ne_true] at hk
      have hle := hr.passed
      have hlen : ((painted todo r.spans).drop r.passed).length = todo.length - r.passed := by
        rw [List.length_drop, painted_length]
      obtain ⟨r', ⟨⟨hr', hmoves⟩, hnext'⟩, hround⟩ := h (before ++ (painted todo r.spans).take r.passed)
        ((painted todo r.spans).drop r.passed) r.state r.typeDecl (hnext hends)
      have hle' := hr'.passed
      have hless : (if r'.ends then 0 else ((painted todo r.spans).drop r.passed).length - r'.passed + 1) < k := by
        split_ifs with hends'
        · omega
        · have hpos := hmoves (Bool.eq_false_iff.2 hends')
          omega
      obtain ⟨styled, state', hstyled, hloop⟩ := ih _ hless (before ++ (painted todo r.spans).take r.passed)
        ((painted todo r.spans).drop r.passed) hr' hnext' rfl
      refine ⟨(painted todo r.spans).take r.passed ++ styled, state', ?_, ?_⟩
      · rw [List.map_append, hstyled, ← List.map_append, List.take_append_drop, painted_chars]
      · intro n hn rest
        obtain ⟨n, rfl⟩ := Nat.exists_eq_succ_of_ne_zero (show n ≠ 0 by omega)
        rw [colorLoop_next n hr hends (hround rest)]
        cases hends' : r'.ends with
        | true =>
          have hlast := colorLoop_end round n (before ++ (painted todo r.spans).take r.passed) (newline :: rest) hr' hends'
          have hsame := hloop (todo.length + 1) (by omega) rest
          rw [colorLoop_end round _ _ _ hr' hends'] at hsame
          rw [hlast, hsame]
          simp only [List.append_assoc]
        | false =>
          have hpos := hmoves hends'
          rw [hloop n (by omega) rest]
          simp only [List.append_assoc]

/-- The colorize function stays in the line: it comes to the same colours and state whatever is behind the newline, changes no
cell there, and no character. -/
def StaysIn (f : ArrayColorize) (line : List Nat) (state : Int) : Prop :=
  ∃ styled state', styled.map charMask = line.map charMask ∧
    ∀ rest, f (line ++ newline :: rest) line.length state = some (styled ++ newline :: rest, state')

/-- The cells of a line with those behind the margin in their colour. -/
def Margin.recolor (m : Margin) (cells : List Nat) : List Nat :=
  if m.highlight ∧ m.size < cells.length then
    spanned (colored qeStyleMarginHighlight) (spanned charMask cells m.size (cells.length - m.size)) m.size (cells.length - m.size)
  else cells

/-- The margin changes no character. -/
theorem Margin.recolor_chars (m : Margin) (cells : List Nat) : (m.recolor cells).map charMask = cells.map charMask := by
  rw [recolor]
  split_ifs
  · rw [spanned_chars (charMask_colored _), spanned_chars charMask_charMask]
  · rfl

theorem Margin.recolor_length (m : Margin) (cells : List Nat) : (m.recolor cells).length = cells.length := by
  have hmap := congrArg List.length (m.recolor_chars cells)
  rwa [List.length_map, List.length_map] at hmap

/-- The margin is highlighted in the line only. -/
theorem highlightMargin_recolor (m : Margin) (cells behind : List Nat) :
    highlightMargin m (cells ++ behind) cells.length = some (m.recolor cells ++ behind) := by
  rw [highlightMargin, Margin.recolor]
  by_cases hm : m.highlight ∧ m.size < cells.length
  · have hlt := hm.2
    have hclear := changeSpan_line (f := charMask) [] cells behind m.size (cells.length - m.size) (by omega)
    have hset := changeSpan_line (f := colored qeStyleMarginHighlight) [] (spanned charMask cells m.size (cells.length - m.size))
      behind m.size (cells.length - m.size) (by rw [spanned_length]; omega)
    simp only [List.nil_append, List.length_nil, Nat.zero_add] at hclear hset
    rw [if_pos hm, if_pos hm, clearColor, hclear, Option.bind_eq_bind, Option.bind_some, setColor, hset]
  · rw [if_neg hm, if_neg hm]

/-- A function that is a loop whose turns fit, with the margin highlighted at its end, stays in the line. -/
theorem staysIn_of_loop {f : ArrayColorize} (entry : List Nat → Nat → Option Round) (m : Margin) (I : List Nat → List Nat → Prop)
    {round : List Nat → Nat → Int → Bool → Option Round} {line : List Nat} {state : Int}
    (hf : ∀ buf, f buf line.length state = (entry buf line.length).bind fun first =>
      (colorLoop round buf.length buf 0 first).bind fun r =>
        (highlightMargin m r.1 line.length).bind fun buf => some (buf, r.2))
    (hentry : Settled (fun r => r.Fits line.length ∧ r.Next I [] line) fun rest => entry (line ++ newline :: rest) line.length)
    (hround : ∀ before todo state typeDecl, I before todo →
      Settled (fun r => r.Moves todo.length ∧ r.Next I before todo)
        fun rest => round (before ++ todo ++ newline :: rest) before.length state typeDecl) :
    StaysIn f line state := by
  obtain ⟨first, ⟨hfits, hnext⟩, hfirst⟩ := hentry
  obtain ⟨styled, state', hchars, hloop⟩ := colorLoop_stays hround [] line hfits hnext
  have hlen : styled.length = line.length := by
    have h := congrArg List.length hchars
    rwa [List.length_map, List.length_map] at h
  refine ⟨m.recolor styled, state', (m.recolor_chars styled).trans hchars, ?_⟩
  intro rest
  have hgo := hloop (line ++ newline :: rest).length (by simp only [List.length_append, List.length_cons]; omega) rest
  rw [List.nil_append, List.length_nil, List.nil_append] at hgo
  have hstart : entry (line ++ newline :: rest) line.length = some first := hfirst rest
  rw [hf, hstart, Option.bind_some, hgo, Option.bind_some]
  dsimp only
  rw [← hlen, highlightMargin_recolor, Option.bind_some]

/-! ## The readers of a turn -/

/-! One cell of a string at a time. -/

section StringCells

variable (quote : Nat) (cells : List Nat)

/-- A string goes no further than the line. -/
theorem stringLoop_newline : stringLoop quote (newline :: cells) = some (0, false) := by
  cases cells <;> rw [stringLoop, if_pos rfl]

/-- Nor does it behind a backslash. -/
theorem stringLoop_escaped_newline : stringLoop quote ('\\'.toNat :: newline :: cells) = some (1, false) := by
  rw [stringLoop, if_neg (by decide), if_pos rfl, if_pos rfl]

/-- A character behind a backslash does not end it. -/
theorem stringLoop_escaped {d : Nat} (hd : d ≠ newline) :
    stringLoop quote ('\\'.toNat :: d :: cells) = (stringLoop quote cells).map fun r => (r.1 + 2, r.2) := by
  rw [stringLoop, if_neg (by decide), if_pos rfl, if_neg hd]

variable {quote}

/-- The quote ends it. -/
theorem stringLoop_quote (h1 : quote ≠ newline) (h2 : quote ≠ '\\'.toNat) :
    stringLoop quote (quote :: cells) = some (1, true) := by
  cases cells <;> rw [stringLoop, if_neg h1, if_neg h2, if_pos rfl]

/-- Any other character belongs to it. -/
theorem stringLoop_other {c : Nat} (h1 : c ≠ newline) (h2 : c ≠ '\\'.toNat) (h3 : c ≠ quote) :
    stringLoop quote (c :: cells) = (stringLoop quote cells).map fun r => (r.1 + 1, r.2) := by
  cases cells <;> simp only [stringLoop, if_neg h1, if_neg h2, if_neg h3]

end StringCells

/-- A string in the line ends in it. -/
theorem stringLoop_line {quote : Nat} (h1 : quote ≠ newline) (h2 : quote ≠ '\\'.toNat) (todo : List Nat) :
    Settled (fun r => r.1 ≤ todo.length) fun rest => stringLoop quote (todo ++ newline :: rest) := by
  induction hk : todo.length using Nat.strong_induction_on generalizing todo with
  | _ k ih =>
    subst hk
    cases todo with
    | nil => exact ⟨(0, false), le_rfl, stringLoop_newline quote⟩
    | cons c todo =>
      by_cases hc : c = newline
      · subst hc
        exact ⟨(0, false), Nat.zero_le _, fun rest => stringLoop_newline quote _⟩
      by_cases hb : c = '\\'.toNat
      · subst hb
        cases todo with
        | nil => exact ⟨(1, false), le_rfl, stringLoop_escaped_newline quote⟩
        | cons d todo =>
          by_cases hd : d = newline
          · subst hd
            exact ⟨(1, false), by simp, fun rest => stringLoop_escaped_newline quote _⟩
          · simp only [List.cons_append, stringLoop_escaped quote _ hd]
            exact (ih todo.length (by simp only [List.length_cons]; omega) todo rfl).map fun r hr => by simpa using hr
      by_cases hq : c = quote
      · subst hq
        exact ⟨(1, true), by simp, fun rest => stringLoop_quote _ h1 h2⟩
      · simp only [List.cons_append, stringLoop_other _ hc hb hq]
        exact (ih todo.length (by simp) todo rfl).map fun r hr => by simpa using hr

/-! One cell in front of a pair. -/

section PairCells

variable {a : Nat} (b : Nat) {c : Nat} (cells : List Nat)

/-- The search for a pair ends with the line. -/
theorem pairLoop_newline (a : Nat) : pairLoop a b (newline :: cells) = some (0, false) := by rw [pairLoop, if_pos rfl]

/-- It ends behind the pair. -/
theorem pairLoop_pair (ha : a ≠ newline) : pairLoop a b (a :: b :: cells) = some (2, true) := by
  simp only [pairLoop, if_neg ha, if_pos, looksAt]
  rfl

/-- It goes on over anything else. -/
theorem pairLoop_other (hc : c ≠ newline) (h : ¬(c = a ∧ cells.head? = some b)) :
    pairLoop a b (c :: cells) = (pairLoop a b cells).map fun r => (r.1 + 1, r.2) := by
  rw [pairLoop, if_neg hc]
  by_cases ha : c = a
  · rw [if_pos ha]
    cases cells with
    | nil => rfl
    | cons d cells =>
      have hd : d ≠ b := fun hd => h ⟨ha, by rw [hd, List.head?_cons]⟩
      rw [looksAt, if_neg hd]
      rfl
  · rw [if_neg ha]
    rfl

end PairCells

/-- So does a pair of characters, if it is there. -/
theorem pairLoop_line {a b : Nat} (ha : a ≠ newline) (hb : b ≠ newline) (todo : List Nat) :
    Settled (fun r => r.1 ≤ todo.length) fun rest => pairLoop a b (todo ++ newline :: rest) := by
  induction todo with
  | nil => exact ⟨(0, false), le_rfl, fun rest => pairLoop_newline b _ a⟩
  | cons c todo ih =>
    by_cases hc : c = newline
    · subst hc
      exact ⟨(0, false), Nat.zero_le _, fun rest => pairLoop_newline b _ a⟩
    by_cases hpair : c = a ∧ todo.head? = some b
    · obtain ⟨rfl, hhead⟩ := hpair
      obtain ⟨todo, rfl⟩ := List.head?_eq_some_iff.1 hhead
      exact ⟨(2, true), by simp, fun rest => pairLoop_pair b _ ha⟩
    · have hother : ∀ rest, ¬(c = a ∧ (todo ++ newline :: rest).head? = some b) := by
        rintro rest ⟨hca, hhead⟩
        cases todo with
        | nil => exact hb (Option.some_inj.1 hhead).symm
        | cons d todo => exact hpair ⟨hca, hhead⟩
      simp only [List.cons_append, pairLoop_other b _ hc (hother _)]
      exact ih.map fun r hr => by simpa using hr

/-! ## Turns that fit -/

/-- A turn that colours the first cells, goes over them and may be over some more. -/
theorem fits_one {n len passed total : Nat} (style : Nat) (state : Int) (typeDecl ends : Bool) (hlen : len ≤ n) (hpassed : passed ≤ n)
    (hn : n ≤ total) : (Round.mk [⟨0, len, style⟩] passed state typeDecl ends).Fits total := by
  refine ⟨?_, hpassed.trans hn⟩
  intro s hs
  rw [List.mem_singleton] at hs
  subst hs
  rw [Nat.zero_add]
  exact hlen.trans hn

/-- A round without spans fits. -/
theorem fits_none {passed total : Nat} (state : Int) (typeDecl ends : Bool) (hpassed : passed ≤ total) :
    (Round.mk [] passed state typeDecl ends).Fits total := ⟨by simp, hpassed⟩

theorem plainRound_moves (state : Int) (typeDecl : Bool) (n : Nat) : (plainRound state typeDecl).Moves (n + 1) :=
  ⟨fits_none _ _ _ (by omega), fun _ => Nat.one_pos⟩

theorem endRound_moves (state : Int) (typeDecl : Bool) (n : Nat) : (endRound state typeDecl).Moves n :=
  ⟨fits_none _ _ _ (Nat.zero_le n), fun h => absurd h (by rw [endRound]; simp)⟩

/-- A comment to the end of the line. -/
theorem lineComment_line (k : Nat) (state : Int) (typeDecl : Bool) (todo : List Nat) :
    Settled (fun r => r.Fits (k + todo.length) ∧ r.passed = k + (todo.takeWhile (· ≠ newline)).length)
      fun rest => lineComment k (todo ++ newline :: rest) state typeDecl := by
  refine (settled_scanWhile (by simp) todo).bind ?_
  rintro n rfl
  have hle := (List.takeWhile_prefix (fun c => decide (c ≠ newline)) (l := todo)).length_le
  exact Settled.some ⟨fits_one _ _ _ _ le_rfl le_rfl (by omega), rfl⟩

/-- A string in the line. -/
theorem parseString_line (k : Nat) (state : Int) (typeDecl : Bool) (todo : List Nat) :
    Settled (fun r => r.Fits (k + todo.length) ∧ k ≤ r.passed) fun rest => parseString k (todo ++ newline :: rest) state typeDecl := by
  have hquote : (if state = stateStringQ then '\''.toNat else '"'.toNat) ≠ newline ∧
      (if state = stateStringQ then '\''.toNat else '"'.toNat) ≠ '\\'.toNat := by
    split_ifs <;> decide
  refine (stringLoop_line hquote.1 hquote.2 todo).bind ?_
  intro r hr
  exact Settled.some ⟨fits_one _ _ _ _ le_rfl le_rfl (by omega), Nat.le_add_right k r.1⟩

/-- The word at the beginning of the cells. -/
theorem getKeyword_line (todo rest : List Nat) : getKeyword (todo ++ newline :: rest) =
    some ((todo.takeWhile keywordChar).take (keywordBufSize - 1), (todo.takeWhile keywordChar).length) := by
  have hprefix := List.takeWhile_prefix keywordChar (l := todo)
  rw [getKeyword, scanWhile_sentinel (by decide), Option.bind_eq_bind, Option.bind_some,
    List.take_append_of_le_length hprefix.length_le, ← List.prefix_iff_eq_take.1 hprefix]

/-- The blanks behind a word, and whether a character is behind them. -/
theorem blanks_line {α : Type} {P : α → Prop} {todo : List Nat} {n : Nat} (hn : n ≤ todo.length) {word : List Nat}
    (hword : newline ∉ word) {turn : Nat → Bool → Option α}
    (hturn : ∀ found, Settled P fun _ : List Nat => turn ((todo.drop n).takeWhile isSpaceOrTab).length found) :
    Settled P fun rest => (scanWhile isSpaceOrTab ((todo ++ newline :: rest).drop n)).bind fun blanks =>
      (looksAt word ((todo ++ newline :: rest).drop (n + blanks))).bind fun found => turn blanks found := by
  simp only [drop_line hn]
  refine (settled_scanWhile (by decide) (todo.drop n)).bind ?_
  rintro blanks rfl
  have hle := (List.takeWhile_prefix isSpaceOrTab (l := todo.drop n)).length_le
  rw [List.length_drop] at hle
  simp only [drop_line (show n + ((todo.drop n).takeWhile isSpaceOrTab).length ≤ todo.length by omega)]
  exact (settled_looksAt hword _).bind fun found _ => hturn found

/-- The styles of words. -/
def WordSpans (n : Nat) (spans : List Span) : Prop :=
  spans = [] ∨ ∃ style ∈ [qeStyleKeyword, qeStyleFunction, qeStyleVariable, qeStyleType], spans = [⟨0, n, style⟩]

/-- A word gets one of them or none, and the blanks behind it may be passed. -/
theorem wordRound_spans (keywords types : String) (declares first : Bool) (state : Int) (typeDecl : Bool) (todo : List Nat) :
    Settled
      (fun r => ∃ gap typeDecl' spans, (gap = [] ∨ gap = (todo.drop (todo.takeWhile keywordChar).length).takeWhile isSpaceOrTab) ∧
        WordSpans (todo.takeWhile keywordChar).length spans ∧
        r = ⟨spans, (todo.takeWhile keywordChar).length + gap.length, state, typeDecl', false⟩)
      fun rest => wordRound keywords types declares first (todo ++ newline :: rest) state typeDecl := by
  have hle := (List.takeWhile_prefix keywordChar (l := todo)).length_le
  have hstyle : ∀ style ∈ [qeStyleKeyword, qeStyleFunction, qeStyleVariable, qeStyleType],
      WordSpans (todo.takeWhile keywordChar).length [⟨0, (todo.takeWhile keywordChar).length, style⟩] :=
    fun style h => Or.inr ⟨style, h, rfl⟩
  simp only [wordRound, getKeyword_line]
  refine Settled.ite (fun _ => Settled.some ⟨[], _, _, Or.inl rfl, hstyle _ (by decide), rfl⟩) fun _ => ?_
  refine Settled.ite (fun _ => ?_) fun _ => Settled.ite (fun _ => ?_) fun _ => ?_
  · exact blanks_line hle (by decide) fun cast => Settled.some ⟨_, _, _, Or.inr rfl, hstyle _ (by decide), rfl⟩
  · refine blanks_line hle (by decide) fun call => Settled.some ⟨_, _, _, Or.inr rfl, hstyle _ ?_, rfl⟩
    split_ifs <;> decide
  · exact Settled.some ⟨[], _, _, Or.inl rfl, Or.inl rfl, rfl⟩

/-- A turn over a word fits. -/
theorem wordRound_line (keywords types : String) (declares first : Bool) (state : Int) (typeDecl : Bool) {todo : List Nat}
    (hword : todo.takeWhile keywordChar ≠ []) :
    Settled (fun r => r.Moves todo.length)
      fun rest => wordRound keywords types declares first (todo ++ newline :: rest) state typeDecl := by
  refine (wordRound_spans keywords types declares first state typeDecl todo).mono ?_
  rintro r ⟨gap, typeDecl', spans, hgap, hspans, rfl⟩
  have hle := (List.takeWhile_prefix keywordChar (l := todo)).length_le
  have hpos := List.length_pos_of_ne_nil hword
  have hall : (todo.takeWhile keywordChar).length + gap.length ≤ todo.length := by
    rcases hgap with rfl | rfl
    · exact hle
    · have h := (List.takeWhile_prefix isSpaceOrTab (l := todo.drop (todo.takeWhile keywordChar).length)).length_le
      rw [List.length_drop] at h
      omega
  refine ⟨?_, fun _ => Nat.add_pos_left hpos _⟩
  rcases hspans with rfl | ⟨style, -, rfl⟩
  · exact fits_none _ _ _ hall
  · exact fits_one _ _ _ _ (Nat.le_add_right _ _) le_rfl hall

/-- The cells from a place of the array on. -/
theorem drop_before (before todo behind : List Nat) : (before ++ todo ++ behind).drop before.length = todo ++ behind := by
  rw [List.append_assoc, List.drop_left]

/-- A word begins with the character that tells it. -/
theorem takeWhile_word {c : Nat} (h : keywordStart c = true) (todo : List Nat) : (c :: todo).takeWhile keywordChar ≠ [] := by
  have hc : keywordChar c = true := by
    rw [keywordChar, h]
    simp
  rw [List.takeWhile_cons_of_pos hc]
  exact List.cons_ne_nil _ _

end Hoe
