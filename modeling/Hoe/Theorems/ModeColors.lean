import Hoe.Lemmas.Cells
import Hoe.ModeColors

/-!
# The colorize functions and the line they are given

Python, LaTeX and patches: every turn fits what is left of the line, whatever is behind the newline. What cscope finds has four
fields, and the scan for each of them stops at its delimiter only, which is a space for the first three.
-/

namespace Hoe

open Sentinel

/-! ## Python -/

/-- Each round of the Python mode goes on and stays in the line. -/
theorem pyRound_moves (before todo : List Nat) (state : Int) (typeDecl : Bool) :
    Settled (fun r => r.Moves todo.length) fun rest => pyRound (before ++ todo ++ newline :: rest) before.length state typeDecl := by
  simp only [pyRound, drop_before]
  cases todo with
  | nil => exact Settled.some (endRound_moves _ _ _)
  | cons c todo =>
    simp only [List.cons_append, List.length_cons]
    refine Settled.ite (fun _ => Settled.some (endRound_moves _ _ _)) fun hnl => ?_
    refine Settled.ite (fun _ => ?_) fun _ => ?_
    · refine (lineComment_line 0 state typeDecl (c :: todo)).mono ?_
      rintro r ⟨hfits, hpassed⟩
      refine ⟨by simpa using hfits, fun _ => ?_⟩
      rw [hpassed, List.takeWhile_cons_of_pos (by simpa using hnl), List.length_cons]
      omega
    have hstring : ∀ state, Settled (fun r => r.Moves (todo.length + 1))
        fun rest => parseString 1 (todo ++ newline :: rest) state typeDecl := by
      intro state
      refine (parseString_line 1 state typeDecl todo).mono ?_
      rintro r ⟨hfits, hpassed⟩
      exact ⟨by rwa [Nat.add_comm], fun _ => hpassed⟩
    refine Settled.ite (fun _ => hstring _) fun _ => Settled.ite (fun _ => hstring _) fun _ => ?_
    refine Settled.ite (fun _ => Settled.some (plainRound_moves _ _ _)) fun _ => ?_
    refine Settled.ite (fun hword => ?_) fun _ => Settled.some (plainRound_moves _ _ _)
    exact wordRound_line _ _ _ _ state typeDecl (takeWhile_word hword todo)

/-- So does what the line begins in. -/
theorem pyEntry_fits (line : List Nat) (state : Int) :
    Settled (fun r => r.Fits line.length) fun rest => pyEntry (line ++ newline :: rest) state := by
  simp only [pyEntry]
  refine Settled.ite (fun _ => ?_) fun _ => ?_
  · refine (parseString_line 0 state false line).mono fun r hr => ?_
    simpa using hr.1
  · exact (pyRound_moves [] line state false).mono fun r hr => hr.1

/-- So does the whole line. -/
theorem pyColorizeLine_staysIn (m : Margin) (line : List Nat) (state : Int) : StaysIn (pyColorizeLine m) line state :=
  staysIn_of_loop (fun buf _ => pyEntry buf state) m (fun _ _ => True) (fun _ => rfl)
    ((pyEntry_fits line state).mono fun _ hr => ⟨hr, fun _ => trivial⟩)
    fun before todo state typeDecl _ => (pyRound_moves before todo state typeDecl).mono fun _ hr => ⟨hr, fun _ => trivial⟩

/-! ## LaTeX -/

/-- The braces of a command are looked for in the line. -/
theorem bracesLoop_line (braces : Nat) (todo : List Nat) :
    Settled (fun n => n ≤ todo.length) fun rest => bracesLoop braces (todo ++ newline :: rest) := by
  induction todo generalizing braces with
  | nil => exact ⟨0, le_rfl, fun rest => by simp [bracesLoop]⟩
  | cons c todo ih =>
    have hgo : ∀ b, Settled (fun n => n ≤ (c :: todo).length) fun rest => (bracesLoop b (todo ++ newline :: rest)).map (· + 1) :=
      fun b => (ih b).map fun n hn => by simpa using hn
    simp only [List.cons_append, bracesLoop]
    refine Settled.ite (fun _ => Settled.some (Nat.zero_le _)) fun _ => Settled.ite (fun _ => hgo _) fun _ => ?_
    refine Settled.ite (fun _ => Settled.ite (fun _ => Settled.some (Nat.zero_le _)) fun _ => hgo _) fun _ => hgo _

/-- So is the character that closes. -/
theorem passClosing_line {c : Nat} (hc : c ≠ newline) (todo : List Nat) :
    Settled (fun n => n ≤ todo.length) fun rest => passClosing c (todo ++ newline :: rest) := by
  refine (settled_looksAt (by simpa using hc.symm) todo).bind ?_
  rintro closed rfl
  have hle : (if decide ([c] <+: todo) = true then 1 else 0) ≤ todo.length := by
    split_ifs with h
    · simpa using (of_decide_eq_true h).length_le
    · exact Nat.zero_le _
  simp only [drop_line hle]
  refine (settled_scanWhile (by decide) _).bind ?_
  rintro blanks rfl
  have hblanks := (List.takeWhile_prefix isSpaceOrTab (l := todo.drop (if decide ([c] <+: todo) = true then 1 else 0))).length_le
  rw [List.length_drop] at hblanks
  exact Settled.some (by omega)

/-- One argument, its closing character and the blanks behind it, and then the rest of them. -/
theorem latexArg_line {k style : Nat} {closing : Nat} (hclosing : closing ≠ newline) {todo : List Nat} {scan : List Nat → Option Nat}
    (hscan : Settled (fun n => n ≤ todo.length) fun rest => scan (todo ++ newline :: rest))
    (ih : ∀ (k : Nat) (left : List Nat), left.length ≤ todo.length →
      Settled (fun r => (k ≤ r.2 ∧ r.2 ≤ k + left.length) ∧ ∀ s ∈ r.1, s.start + s.len ≤ k + left.length)
        fun x : { n : Nat // left.length < n } × List Nat => latexArgs x.1 k (left ++ newline :: x.2)) :
    Settled (fun r => (k ≤ r.2 ∧ r.2 ≤ k + (todo.length + 1)) ∧ ∀ s ∈ r.1, s.start + s.len ≤ k + (todo.length + 1))
      fun x : { n : Nat // todo.length < n } × List Nat => (do
        let len ← scan (todo ++ newline :: x.2)
        let more ← passClosing closing ((todo ++ newline :: x.2).drop len)
        let r ← latexArgs x.1 (k + 1 + len + more) ((todo ++ newline :: x.2).drop (len + more))
        some (Span.mk (k + 1) len style :: r.1, r.2) : Option (List Span × Nat)) := by
  refine (hscan.comp Prod.snd).bind ?_
  intro len hlen
  simp only [drop_line hlen]
  refine ((passClosing_line hclosing (todo.drop len)).comp Prod.snd).bind ?_
  intro more hmore
  rw [List.length_drop] at hmore
  simp only [drop_line (show len + more ≤ todo.length by omega)]
  have hshorter : (todo.drop (len + more)).length ≤ todo.length := by
    rw [List.length_drop]
    omega
  have hrest := (ih (k + 1 + len + more) (todo.drop (len + more)) hshorter).comp
    fun x : { n : Nat // todo.length < n } × List Nat => (⟨x.1, hshorter.trans_lt x.1.2⟩, x.2)
  refine hrest.bind ?_
  rintro r ⟨⟨hfrom, hto⟩, hspans⟩
  rw [List.length_drop] at hto hspans
  refine Settled.some ⟨⟨by omega, by omega⟩, ?_⟩
  intro s hs
  rcases List.mem_cons.1 hs with rfl | hs
  · dsimp only
    omega
  · have hs := hspans s hs
    omega

/-- The arguments of a `\function` are the same whatever is behind the line, however many turns are given, if there are enough. -/
theorem latexArgs_line (k : Nat) (todo : List Nat) :
    Settled (fun r => (k ≤ r.2 ∧ r.2 ≤ k + todo.length) ∧ ∀ s ∈ r.1, s.start + s.len ≤ k + todo.length)
      fun x : { n : Nat // todo.length < n } × List Nat => latexArgs x.1 k (todo ++ newline :: x.2) := by
  induction hk : todo.length using Nat.strong_induction_on generalizing k todo with
  | _ len ih =>
    subst hk
    have hfuel : ∀ (n : Nat) (c : Nat) (cells : List Nat), 0 < n → latexArgs n k (c :: cells) = latexArgs (n - 1 + 1) k (c :: cells) := by
      intro n c cells hn
      rw [Nat.sub_add_cancel hn]
    cases todo with
    | nil =>
      refine ⟨([], k), ⟨⟨le_rfl, le_rfl⟩, by simp⟩, ?_⟩
      rintro ⟨⟨n, hn⟩, rest⟩
      obtain ⟨n, rfl⟩ := Nat.exists_eq_succ_of_ne_zero (Nat.ne_of_gt hn)
      rfl
    | cons c todo =>
      have hshorter : ∀ (k : Nat) (left : List Nat), left.length ≤ todo.length →
          Settled (fun r => (k ≤ r.2 ∧ r.2 ≤ k + left.length) ∧ ∀ s ∈ r.1, s.start + s.len ≤ k + left.length)
            fun x : { n : Nat // left.length < n } × List Nat => latexArgs x.1 k (left ++ newline :: x.2) :=
        fun k left hleft => ih left.length (Nat.lt_succ_of_le hleft) k left rfl
      have hless : ∀ x : { n : Nat // (c :: todo).length < n }, todo.length < x.1 - 1 := by
        rintro ⟨n, hn⟩
        rw [List.length_cons] at hn
        dsimp only
        omega
      have hstep : ∀ x : { n : Nat // (c :: todo).length < n } × List Nat,
          latexArgs x.1 k (c :: todo ++ newline :: x.2) = latexArgs (x.1 - 1 + 1) k (c :: (todo ++ newline :: x.2)) :=
        fun x => hfuel _ _ _ (Nat.zero_lt_of_lt x.1.2)
      simp only [hstep, latexArgs]
      refine Settled.ite (fun _ => ?_) fun _ => Settled.ite (fun _ => ?_) fun _ => ?_
      · exact (latexArg_line (by decide) ((settled_scanWhile (by simp) todo).mono fun n hn =>
          hn ▸ (List.takeWhile_prefix _).length_le) hshorter).comp
          fun x : { n : Nat // (c :: todo).length < n } × List Nat => (⟨x.1 - 1, hless x.1⟩, x.2)
      · exact (latexArg_line (by decide) (bracesLoop_line 0 todo) hshorter).comp
          fun x : { n : Nat // (c :: todo).length < n } × List Nat => (⟨x.1 - 1, hless x.1⟩, x.2)
      · exact Settled.some ⟨⟨le_rfl, Nat.le_add_right _ _⟩, by simp⟩

/-- So is the name of a command. -/
theorem latexName_line (todo : List Nat) :
    Settled (fun n => n ≤ todo.length) fun rest => latexName (todo ++ newline :: rest) := by
  have hname : Settled (fun n => n ≤ todo.length)
      fun rest => scanWhile (fun c => decide (c ∉ charsOf "\x7b[\n \\")) (todo ++ newline :: rest) :=
    (settled_scanWhile (by decide) todo).mono fun n hn => hn ▸ (List.takeWhile_prefix _).length_le
  cases todo with
  | nil =>
    simp only [latexName, List.nil_append, List.head?_cons, Option.bind_eq_bind, Option.bind_some]
    exact Settled.ite (fun h => absurd h (by decide)) fun _ => hname
  | cons c todo =>
    simp only [latexName, List.cons_append, List.head?_cons, Option.bind_eq_bind, Option.bind_some]
    exact Settled.ite (fun _ => Settled.some (by simp)) fun _ => hname

/-- Each round of the LaTeX mode goes on and stays in the line. -/
theorem latexRound_moves (before todo : List Nat) (state : Int) (typeDecl : Bool) :
    Settled (fun r => r.Moves todo.length)
      fun rest => latexRound (before ++ todo ++ newline :: rest) before.length state typeDecl := by
  simp only [latexRound, drop_before]
  cases todo with
  | nil => exact Settled.some (endRound_moves _ _ _)
  | cons c todo =>
    simp only [List.cons_append, List.length_cons]
    refine Settled.ite (fun _ => Settled.some (endRound_moves _ _ _)) fun _ => Settled.ite (fun _ => ?_) fun _ => ?_
    · refine (settled_looksAt (by decide) todo).bind ?_
      rintro b rfl
      refine Settled.ite (fun hb => ?_) fun _ => Settled.some (plainRound_moves _ _ _)
      have hlen : 1 ≤ todo.length := (of_decide_eq_true hb).length_le
      simp only [drop_line hlen]
      refine (pairLoop_line (by decide) (by decide) (todo.drop 1)).bind ?_
      intro r hr
      rw [List.length_drop] at hr
      exact Settled.some ⟨fits_one _ _ _ _ le_rfl le_rfl (by omega), fun _ => by dsimp only; omega⟩
    refine Settled.ite (fun _ => ?_) fun _ => Settled.ite (fun _ => ?_) fun _ => Settled.some (plainRound_moves _ _ _)
    · refine (latexName_line todo).bind ?_
      intro n hn
      simp only [drop_line hn]
      refine (settled_scanWhile (by decide) (todo.drop n)).bind ?_
      rintro blanks hblanks
      have hle := (List.takeWhile_prefix isSpaceOrTab (l := todo.drop n)).length_le
      rw [← hblanks, List.length_drop] at hle
      simp only [drop_line (show n + blanks ≤ todo.length by omega)]
      have hargs := (latexArgs_line (1 + n + blanks) (todo.drop (n + blanks))).comp
        fun rest : List Nat => (⟨(before ++ c :: todo ++ newline :: rest).length, by
          simp only [List.length_drop, List.length_append, List.length_cons]
          omega⟩, rest)
      refine hargs.bind ?_
      rintro r ⟨⟨hfrom, hto⟩, hspans⟩
      rw [List.length_drop] at hto hspans
      refine Settled.some ⟨⟨?_, by dsimp only; omega⟩, fun _ => by dsimp only; omega⟩
      intro s hs
      rcases List.mem_cons.1 hs with rfl | hs
      · dsimp only
        omega
      · have hs := hspans s hs
        omega
    · refine (lineComment_line 1 state typeDecl todo).mono ?_
      rintro r ⟨hfits, hpassed⟩
      exact ⟨by rwa [Nat.add_comm], fun _ => by omega⟩

/-- So does the whole line. -/
theorem latexColorizeLine_staysIn (line : List Nat) (state : Int) : StaysIn latexColorizeLine line state := by
  obtain ⟨first, ⟨hfits, -⟩, hfirst⟩ := latexRound_moves [] line state false
  obtain ⟨styled, state', hchars, hloop⟩ := colorLoop_stays (I := fun _ _ => True)
    (fun before todo state typeDecl _ => (latexRound_moves before todo state typeDecl).mono fun _ hr => ⟨hr, fun _ => trivial⟩) [] line
    hfits fun _ => trivial
  refine ⟨styled, state', hchars, ?_⟩
  intro rest
  have hstart : latexRound (line ++ newline :: rest) 0 state false = some first := hfirst rest
  have hgo := hloop (line ++ newline :: rest).length (by simp only [List.length_append, List.length_cons]; omega) rest
  rw [List.nil_append, List.length_nil, List.nil_append] at hgo
  rw [latexColorizeLine, hstart, Option.bind_eq_bind, Option.bind_some, hgo]

/-! ## Patches -/

/-- Words without a newline are looked for in the line. -/
theorem looksAtOne_line {words : List (List Nat)} (hw : ∀ w ∈ words, newline ∉ w) (line : List Nat) :
    Settled (fun _ => True) fun rest => looksAtOne words (line ++ newline :: rest) := by
  induction words with
  | nil => exact Settled.some trivial
  | cons w words ih =>
    refine (settled_looksAt (hw w List.mem_cons_self) line).bind fun b _ => ?_
    exact Settled.ite (fun _ => Settled.some trivial) fun _ => ih fun w' hw' => hw w' (List.mem_cons_of_mem _ hw')

/-- The whole line is coloured, or nothing. -/
theorem setColor_line (line : List Nat) (style : Nat) :
    ∃ styled, styled.map charMask = line.map charMask ∧
      ∀ behind, setColor (line ++ behind) 0 line.length style = some (styled ++ behind) := by
  refine ⟨spanned (colored style) line 0 line.length, spanned_chars (charMask_colored style) line _ _, ?_⟩
  intro behind
  have h := changeSpan_line (f := colored style) [] line behind 0 line.length (by omega)
  rwa [List.nil_append, List.length_nil, List.nil_append] at h

/-- A line of a patch is coloured as a whole. -/
theorem patchColorizeLine_staysIn (line : List Nat) (state : Int) : StaysIn patchColorizeLine line state := by
  have hstyle : Settled (fun _ => True) fun rest => patchStyle (line ++ newline :: rest) := by
    refine (looksAtOne_line (by decide) line).bind fun _ _ => Settled.ite (fun _ => Settled.some trivial) fun _ => ?_
    refine (looksAtOne_line (by decide) line).bind fun _ _ => Settled.ite (fun _ => Settled.some trivial) fun _ => ?_
    refine (settled_looksAt (by decide) line).bind fun _ _ => Settled.ite (fun _ => Settled.some trivial) fun _ => ?_
    refine (settled_looksAt (by decide) line).bind fun _ _ => Settled.ite (fun _ => Settled.some trivial) fun _ => ?_
    exact (settled_looksAt (by decide) line).bind fun _ _ => Settled.ite (fun _ => Settled.some trivial) fun _ => Settled.some trivial
  obtain ⟨style, -, hsettled⟩ := hstyle
  have hstyle : ∀ rest, patchStyle (line ++ newline :: rest) = some style := hsettled
  cases style with
  | none =>
    refine ⟨line, state, rfl, ?_⟩
    intro rest
    rw [patchColorizeLine, hstyle]
    rfl
  | some style =>
    obtain ⟨styled, hchars, hset⟩ := setColor_line line style
    refine ⟨styled, state, hchars, ?_⟩
    intro rest
    rw [patchColorizeLine, hstyle, Option.bind_eq_bind, Option.bind_some]
    dsimp only
    rw [hset]
    rfl

/-! ## The three of them -/

/-- The colorize function gives styles to the line: clearing them gives the line back, and nothing behind the line is changed or
matters, be it there or not. -/
def StylesLine (f : ArrayColorize) (line : List Nat) (state : Int) : Prop :=
  ∃ styled state', clearColor styled 0 line.length = some line ∧
    ∀ rest, f (line ++ newline :: rest) line.length state = some (styled ++ newline :: rest, state')

/-- A function that stays in the line styles it and changes no character. -/
theorem StaysIn.stylesLine {f : ArrayColorize} {line : List Nat} {state : Int} (h : StaysIn f line state)
    (hfree : ∀ c ∈ line, c < 2 ^ TextDisplay.styleShift) : StylesLine f line state := by
  obtain ⟨styled, state', hchars, hrun⟩ := h
  refine ⟨styled, state', ?_, hrun⟩
  have hlen : styled.length = line.length := by
    have h := congrArg List.length hchars
    rwa [List.length_map, List.length_map] at h
  have hclear := changeSpan_line (f := charMask) [] styled [] 0 styled.length (by omega)
  rw [List.nil_append, List.append_nil, List.length_nil, List.append_nil, List.nil_append] at hclear
  have hsame : line.map charMask = line := (List.map_congr_left fun c hc => charMask_of_lt (hfree c hc)).trans (List.map_id line)
  rw [clearColor, ← hlen, hclear, ← hsame, ← hchars, spanned, List.take_zero, List.drop_zero, List.take_length, Nat.zero_add,
    List.drop_length, List.nil_append, List.append_nil]

/-- The colorize functions of the Python, the LaTeX and the patch mode stay in a line of characters, from every state. -/
theorem mode_colors_stylesLine (m : Margin) (line : List Nat) (state : Int)
    (hfree : ∀ c ∈ line, c < 2 ^ TextDisplay.styleShift) :
    StylesLine (pyColorizeLine m) line state ∧ StylesLine latexColorizeLine line state ∧ StylesLine patchColorizeLine line state :=
  ⟨(pyColorizeLine_staysIn m line state).stylesLine hfree, (latexColorizeLine_staysIn line state).stylesLine hfree,
    (patchColorizeLine_staysIn line state).stylesLine hfree⟩

/-- The line with a string that a backslash at its end leaves open, in the Python mode, and the other two on the same line. -/
theorem mode_colors_backslash :
    StylesLine (pyColorizeLine ⟨true, 3, by decide⟩) (charsOf "a='\\") 0 ∧ StylesLine latexColorizeLine (charsOf "a='\\") 0 ∧
      StylesLine patchColorizeLine (charsOf "a='\\") 0 :=
  mode_colors_stylesLine ⟨true, 3, by decide⟩ (charsOf "a='\\") 0 (by decide)

/-! ## What cscope finds -/

/-- So many words with a space behind each, more than one space may be in front of it, and then at least one more character. -/
def HasFields : Nat → List Nat → Prop
  | 0, cells => cells ≠ []
  | n + 1, cells =>
    ∃ gap word left, cells = List.replicate gap ' '.toNat ++ word ++ ' '.toNat :: left ∧ word ≠ [] ∧ ' '.toNat ∉ word ∧
      HasFields n left

/-- A turn that finds a word: it is coloured, and the next turn begins at the delimiter behind it. -/
theorem cscopeField_word {delim : Nat} (style : Nat) (before : List Nat) (c gap : Nat) {word : List Nat} (hne : word ≠ [])
    (hword : delim ∉ word) (behind : List Nat) :
    cscopeField delim style (before ++ c :: (List.replicate gap delim ++ word ++ delim :: behind)) before.length =
      some (before ++ c :: (List.replicate gap delim ++ word.map (colored style)) ++ delim :: behind,
        (before ++ c :: (List.replicate gap delim ++ word.map (colored style))).length) := by
  obtain ⟨d, word, rfl⟩ := List.exists_cons_of_ne_nil hne
  have hd : d ≠ delim := fun h => hword (h ▸ List.mem_cons_self)
  have hgap := @scanWhile_stop _ (· = delim) (List.replicate gap delim) (by simp) d (decide_eq_false hd)
    (word ++ delim :: behind)
  have hmore : ∀ x ∈ d :: word, decide (x ≠ delim) = true := fun x hx => decide_eq_true fun h => hword (h ▸ hx)
  have hend := scanWhile_stop hmore (c := delim) (by simp) behind
  have hfrom : (before ++ c :: (List.replicate gap delim ++ d :: word ++ delim :: behind)).drop (before.length + 1) =
      List.replicate gap delim ++ d :: (word ++ delim :: behind) := by
    rw [List.drop_length_add_append, List.drop_one, List.tail_cons, List.append_assoc, List.cons_append]
  have hword' : (before ++ c :: (List.replicate gap delim ++ d :: word ++ delim :: behind)).drop (before.length + 1 + gap) =
      d :: word ++ delim :: behind := by
    rw [← List.drop_drop, hfrom, List.drop_left' (List.length_replicate), List.cons_append]
  have hset := changeSpan_line (f := colored style) (before ++ c :: List.replicate gap delim) (d :: word) (delim :: behind)
    0 (d :: word).length (by omega)
  have hlen : (before ++ c :: List.replicate gap delim).length + 0 = before.length + 1 + gap := by
    simp only [List.length_append, List.length_cons, List.length_replicate]
    omega
  have hsplit : before ++ c :: (List.replicate gap delim ++ d :: word ++ delim :: behind) =
      before ++ c :: List.replicate gap delim ++ d :: word ++ delim :: behind := by
    simp only [List.append_assoc, List.cons_append]
  rw [hlen] at hset
  rw [cscopeField, hfrom, hgap, Option.bind_eq_bind, Option.bind_some, List.length_replicate, hword', hend,
    Option.bind_eq_bind, Option.bind_some, setColor, hsplit, hset]
  simp [spanned]
  omega

/-- A turn that comes to an end has found a word with the delimiter behind it. -/
theorem cscopeField_found {delim style : Nat} {before : List Nat} {c : Nat} {todo : List Nat} {r : List Nat × Nat}
    (h : cscopeField delim style (before ++ c :: todo) before.length = some r) :
    ∃ gap word left, todo = List.replicate gap delim ++ word ++ delim :: left ∧ word ≠ [] ∧ delim ∉ word := by
  have hfrom : (before ++ c :: todo).drop (before.length + 1) = todo := by
    rw [List.drop_length_add_append, List.drop_one, List.tail_cons]
  rw [cscopeField, hfrom] at h
  obtain ⟨gap, hgap, h⟩ := Option.bind_eq_some_iff.1 h
  obtain ⟨n, hn, -⟩ := Option.bind_eq_some_iff.1 h
  obtain ⟨delims, d, left, rfl, rfl, hdelims, hd⟩ := scanWhile_eq_some hgap
  rw [← List.drop_drop, hfrom, List.drop_left] at hn
  obtain ⟨word, d', left', hsplit, -, hword, hd'⟩ := scanWhile_eq_some hn
  have hd'' : d' = delim := by simpa using hd'
  subst hd''
  refine ⟨delims.length, word, left', ?_, ?_, ?_⟩
  · rw [hsplit, List.append_assoc, ← List.eq_replicate_of_mem (l := delims) fun x hx => by simpa using hdelims x hx]
  · rintro rfl
    rw [List.nil_append, List.cons.injEq] at hsplit
    rw [hsplit.1] at hd
    simp at hd
  · intro hmem
    have hne := hword d' hmem
    simp at hne

/-- A space in front of the newline is in the line. -/
theorem space_in_line {line front left : List Nat} (h : line ++ [newline] = front ++ ' '.toNat :: left) :
    ∃ left', left = left' ++ [newline] ∧ line = front ++ ' '.toNat :: left' := by
  rcases List.eq_nil_or_concat left with rfl | ⟨left', d, rfl⟩
  · exact absurd (List.append_inj_right' h rfl) (by decide)
  · rw [List.concat_eq_append, ← List.cons_append, ← List.append_assoc] at h
    obtain ⟨h1, h2⟩ := List.append_inj' h rfl
    exact ⟨left', by rw [List.concat_eq_append, h2], h1⟩

/-- The three words with a space behind each, and the turns that colour them. -/
theorem cscopeField_line {style : Nat} {before : List Nat} {c : Nat} {todo : List Nat} {r : List Nat × Nat}
    (h : cscopeField ' '.toNat style (before ++ c :: (todo ++ [newline])) before.length = some r) :
    ∃ gap word left before', todo = List.replicate gap ' '.toNat ++ word ++ ' '.toNat :: left ∧ word ≠ [] ∧ ' '.toNat ∉ word ∧
      r = (before' ++ ' '.toNat :: (left ++ [newline]), before'.length) := by
  obtain ⟨gap, word, left, hsplit, hne, hword⟩ := cscopeField_found h
  obtain ⟨left', rfl, rfl⟩ := space_in_line hsplit
  rw [List.append_assoc, List.cons_append, cscopeField_word style before c gap hne hword (left' ++ [newline])] at h
  exact ⟨gap, word, left', _, rfl, hne, hword, (Option.some_inj.1 h).symm⟩

/-- What `cscope_colorize_line` does stays in the line exactly when the line is empty, or behind its first character there are
three words with a space behind each and at least one character more. -/
theorem cscope_staysIn_iff {line : List Nat} (hline : newline ∉ line) (state : Int) :
    StaysIn cscopeColorizeLine line state ↔ line = [] ∨ HasFields 3 line.tail := by
  cases line with
  | nil => exact ⟨fun _ => Or.inl rfl, fun _ => ⟨[], state, rfl, fun rest => rfl⟩⟩
  | cons c todo =>
    have hc : c ≠ newline := fun h => hline (h ▸ List.mem_cons_self)
    have hstart : ∀ behind, cscopeColorizeLine (c :: todo ++ behind) (c :: todo).length state =
        (cscopeField ' '.toNat qeStyleFunction (c :: todo ++ behind) 0).bind fun r =>
          (cscopeField ' '.toNat qeStyleString r.1 r.2).bind fun r =>
            (cscopeField ' '.toNat qeStyleType r.1 r.2).bind fun r =>
              (cscopeField newline qeStylePreprocess r.1 r.2).bind fun r => some (r.1, state) := by
      intro behind
      rw [cscopeColorizeLine, List.cons_append, List.head?_cons, Option.bind_eq_bind, Option.bind_some, if_neg hc]
      rfl
    constructor
    · rintro ⟨styled, state', -, hrun⟩
      right
      have h := hrun []
      rw [hstart] at h
      obtain ⟨r1, h1, h⟩ := Option.bind_eq_some_iff.1 h
      obtain ⟨gap1, word1, left1, before1, rfl, hne1, hword1, rfl⟩ := @cscopeField_line _ [] _ _ _ h1
      obtain ⟨r2, h2, h⟩ := Option.bind_eq_some_iff.1 h
      obtain ⟨gap2, word2, left2, before2, rfl, hne2, hword2, rfl⟩ := cscopeField_line h2
      obtain ⟨r3, h3, h⟩ := Option.bind_eq_some_iff.1 h
      obtain ⟨gap3, word3, left3, before3, rfl, hne3, hword3, rfl⟩ := cscopeField_line h3
      obtain ⟨r4, h4, -⟩ := Option.bind_eq_some_iff.1 h
      refine ⟨gap1, word1, _, rfl, hne1, hword1, gap2, word2, _, rfl, hne2, hword2, gap3, word3, _, rfl, hne3, hword3, ?_⟩
      rintro rfl
      obtain ⟨gap, word, left, hsplit, hne, -⟩ := cscopeField_found h4
      have hlen := congrArg List.length hsplit
      have hpos := List.length_pos_of_ne_nil hne
      simp only [List.length_append, List.length_cons, List.length_nil, List.length_replicate] at hlen
      omega
    · rintro (hnil | ⟨gap1, word1, _, rfl, hne1, hword1, gap2, word2, _, rfl, hne2, hword2, gap3, word3, last, rfl, hne3, hword3,
        hlast⟩)
      · exact absurd hnil (List.cons_ne_nil _ _)
      · have hnl : newline ∉ last := by
          intro hmem
          exact hline (by simp [hmem])
        have hmap : ∀ (style : Nat) (word : List Nat), (word.map (colored style)).map charMask = word.map charMask := by
          intro style word
          rw [List.map_map]
          exact List.map_congr_left fun d _ => charMask_colored style d
        refine ⟨c :: (List.replicate gap1 ' '.toNat ++ word1.map (colored qeStyleFunction)) ++
          ' '.toNat :: (List.replicate gap2 ' '.toNat ++ word2.map (colored qeStyleString)) ++
          ' '.toNat :: (List.replicate gap3 ' '.toNat ++ word3.map (colored qeStyleType)) ++
          ' '.toNat :: last.map (colored qeStylePreprocess), state, ?_, ?_⟩
        · simp only [List.map_append, List.map_cons, hmap, List.append_assoc, List.cons_append]
        · intro rest
          have h1 := cscopeField_word qeStyleFunction [] c gap1 hne1 hword1
            (List.replicate gap2 ' '.toNat ++ word2 ++ ' '.toNat :: (List.replicate gap3 ' '.toNat ++ word3 ++
              ' '.toNat :: (last ++ newline :: rest)))
          have h2 := cscopeField_word qeStyleString (c :: (List.replicate gap1 ' '.toNat ++ word1.map (colored qeStyleFunction)))
            ' '.toNat gap2 hne2 hword2 (List.replicate gap3 ' '.toNat ++ word3 ++ ' '.toNat :: (last ++ newline :: rest))
          have h3 := cscopeField_word qeStyleType (c :: (List.replicate gap1 ' '.toNat ++ word1.map (colored qeStyleFunction)) ++
            ' '.toNat :: (List.replicate gap2 ' '.toNat ++ word2.map (colored qeStyleString))) ' '.toNat gap3 hne3 hword3
            (last ++ newline :: rest)
          have h4 := cscopeField_word qeStylePreprocess
            (c :: (List.replicate gap1 ' '.toNat ++ word1.map (colored qeStyleFunction)) ++
              ' '.toNat :: (List.replicate gap2 ' '.toNat ++ word2.map (colored qeStyleString)) ++
              ' '.toNat :: (List.replicate gap3 ' '.toNat ++ word3.map (colored qeStyleType))) ' '.toNat 0 hlast hnl rest
          rw [List.replicate_zero, List.nil_append, List.nil_append] at h4
          rw [List.nil_append, List.nil_append, List.length_nil] at h1
          rw [hstart]
          simp only [List.append_assoc, List.cons_append] at h1 h2 h3 h4 ⊢
          rw [h1, Option.bind_some, h2, Option.bind_some, h3, Option.bind_some, h4, Option.bind_some]

/-- A line of `cscope` as it prints them. -/
theorem cscope_staysIn_found : StaysIn cscopeColorizeLine (charsOf "a.c f 12 int x;") 0 :=
  (cscope_staysIn_iff (by decide) 0).2 (Or.inr ⟨0, charsOf ".c", charsOf "f 12 int x;", by decide, by decide, by decide, 0,
    charsOf "f", charsOf "12 int x;", by decide, by decide, by decide, 0, charsOf "12", charsOf "int x;", by decide, by decide,
    by decide, List.cons_ne_nil _ _⟩)

/-- A line of one word: the scan for its end goes on behind the newline. -/
theorem not_cscope_staysIn : ¬StaysIn cscopeColorizeLine (charsOf "a.c") 0 := by
  rintro ⟨styled, state', -, hrun⟩
  have hnone : cscopeColorizeLine (charsOf "a.c" ++ [newline]) (charsOf "a.c").length 0 = none := by decide
  rw [hrun []] at hnone
  exact absurd hnone (by simp)

end Hoe
