import Hoe.Lemmas.CModes

/-!
# The C colorizer and the line it is given

`c_colorize_line` stays in the line but for two cases. In front of an empty line of a disabled block it looks at the cells behind
the newline; and a `#if 0` that does not stand at the beginning of the line colours as many cells as the line has, from there on.
-/

namespace Hoe

open Sentinel CMode

/-- A `#if 0` stands in the code of the line, and not at its beginning. -/
def StrayIf0 (state : Int) (line : List Nat) : Prop :=
  ∃ a b, line = a ++ charsOf "#if 0" ++ b ∧ a ≠ [] ∧ ((entryMode state).behind a).InCode

/-! ## Without a stray directive -/

/-- No `#if 0` stands in the code of the cells that are left. -/
def NoIf0 (todo : List Nat) : Prop := ∀ a b, todo = a ++ charsOf "#if 0" ++ b → ¬(code.behind a).InCode

/-- The places that the loop comes to on a line of `len` cells, behind the first. -/
def CPlace (len : Nat) (before todo : List Nat) : Prop := before.length + todo.length = len ∧ (LineOver todo ∨ NoIf0 todo)

theorem parsePreprocessor_line (before todo : List Nat) (typeDecl : Bool) :
    Settled (fun r => r.Fits todo.length ∧ r.ends = true ∧ r.spans = [⟨0, todo.length, qeStylePreprocess⟩] ∧ r.state ∈ cStates)
      fun rest => parsePreprocessor (before ++ todo ++ newline :: rest) (before.length + todo.length) before.length typeDecl := by
  have hlen : before.length + todo.length - before.length = todo.length := by omega
  by_cases hpos : 0 < before.length + todo.length
  · have hlast : before.length + todo.length - 1 < (before ++ todo).length := by
      rw [List.length_append]
      omega
    refine ⟨⟨[⟨0, todo.length, qeStylePreprocess⟩], todo.length,
      if charMask ((before ++ todo)[before.length + todo.length - 1]) = '\\'.toNat then cPreprocess else 0, typeDecl, true⟩,
      ⟨fits_one _ _ _ _ le_rfl le_rfl le_rfl, rfl, rfl, by dsimp only; split_ifs <;> decide⟩, ?_⟩
    intro rest
    dsimp only
    rw [parsePreprocessor, if_pos hpos, List.getElem?_append_left hlast, List.getElem?_eq_getElem hlast, hlen]
    simp only [Option.bind_eq_bind, Option.bind_some, decide_eq_true_eq]
  · refine ⟨⟨[⟨0, todo.length, qeStylePreprocess⟩], todo.length, 0, typeDecl, true⟩,
      ⟨fits_one _ _ _ _ le_rfl le_rfl le_rfl, rfl, rfl, List.mem_cons_self⟩, ?_⟩
    intro rest
    dsimp only
    rw [parsePreprocessor, if_neg hpos, hlen]
    rfl

/-- A directive that is not `#if 0`. -/
theorem cRound_directive (before : List Nat) {todo : List Nat} (h : ¬charsOf "#if 0" <+: '#'.toNat :: todo) (s : Int) (typeDecl : Bool) :
    Settled (fun r => r.Fits (todo.length + 1) ∧ r.ends = true ∧ r.spans = [⟨0, todo.length + 1, qeStylePreprocess⟩] ∧
        r.state ∈ cStates)
      fun rest => cRound (before.length + (todo.length + 1)) (before ++ '#'.toNat :: todo ++ newline :: rest) before.length s
        typeDecl := by
  simp only [cRound, drop_before]
  refine Settled.ite (fun h => absurd h (by decide)) fun _ => Settled.ite (fun h => absurd h (by decide)) fun _ => ?_
  refine Settled.ite (fun _ => ?_) fun h => absurd rfl h
  refine (settled_looksAt (by decide) todo).bind ?_
  rintro b rfl
  refine Settled.ite (fun hb => absurd ?_ h) fun _ => parsePreprocessor_line before ('#'.toNat :: todo) typeDecl
  obtain ⟨left, rfl⟩ := of_decide_eq_true hb
  exact ⟨left, rfl⟩

/-- A turn over a piece of the line comes to what is left of it. -/
theorem next_place {len : Nat} {before u left : List Nat} {r : Round} (hpassed : r.passed = u.length)
    (hspans : ∀ span ∈ r.spans, span.start + span.len ≤ u.length) (hlen : before.length + (u ++ left).length = len)
    (hleft : LineOver left ∨ NoIf0 left) : r.Fits (u ++ left).length ∧ r.Next (CPlace len) before (u ++ left) := by
  refine ⟨⟨?_, ?_⟩, fun _ => ⟨?_, ?_⟩⟩
  · intro span hspan
    have h := hspans span hspan
    rw [List.length_append]
    omega
  · rw [List.length_append]
    omega
  · rw [← hlen]
    simp only [List.length_append, List.length_take, List.length_drop, painted_length]
    omega
  · rwa [hpassed, painted_drop hspans (by simp), List.drop_left]

/-- A turn in code does. -/
theorem CTurn.next {s : Int} {len : Nat} {before u left : List Nat} {r : Round} (h : CTurn s u left r)
    (hlen : before.length + (u ++ left).length = len)
    (hno : ∀ a b, u ++ left = a ++ charsOf "#if 0" ++ b → a ≠ [] → ¬(code.behind a).InCode) :
    r.Moves (u ++ left).length ∧ r.Next (CPlace len) before (u ++ left) := by
  obtain ⟨-, hne, hpassed, hspans⟩ := h.goes
  have hpos := List.length_pos_of_ne_nil hne
  have hleft : NoIf0 left := by
    intro a b hsplit hcode
    have hsplit' : left = a ++ '#'.toNat :: (charsOf "if 0" ++ b) := by
      rw [hsplit, List.append_assoc]
      rfl
    refine hno (u ++ a) b ?_ (by simp [hne]) (h.directive_behind hsplit' hcode)
    rw [hsplit]
    simp only [List.append_assoc]
  obtain ⟨hfits, hnext⟩ := next_place hpassed hspans hlen (Or.inr hleft)
  exact ⟨⟨hfits, fun _ => by omega⟩, hnext⟩

/-- The last turn. -/
theorem cRound_over (len : Nat) (before : List Nat) {todo : List Nat} (h : LineOver todo) (s : Int) (typeDecl : Bool) (rest : List Nat) :
    cRound len (before ++ todo ++ newline :: rest) before.length s typeDecl = some (endRound s typeDecl) := by
  rw [cRound, drop_before]
  rcases h with rfl | h
  · exact if_pos rfl
  · obtain ⟨left, rfl⟩ := List.head?_eq_some_iff.1 h
    exact if_pos rfl

/-- There is no place behind a turn that ends the loop. -/
theorem next_of_ends {r : Round} (h : r.ends = true) (I : List Nat → List Nat → Prop) (before todo : List Nat) :
    r.Next I before todo := by
  intro hends
  rw [h] at hends
  cases hends

/-- A turn from a place of the loop fits the line and comes to such a place. -/
theorem cRound_place {len : Nat} (before todo : List Nat) (s : Int) (typeDecl : Bool) (h : CPlace len before todo) :
    Settled (fun r => r.Moves todo.length ∧ r.Next (CPlace len) before todo)
      fun rest => cRound len (before ++ todo ++ newline :: rest) before.length s typeDecl := by
  obtain ⟨hlen, hplace⟩ := h
  by_cases hover : LineOver todo
  · exact ⟨endRound s typeDecl, ⟨endRound_moves _ _ _, next_of_ends rfl _ _ _⟩, cRound_over len before hover s typeDecl⟩
  have hno : NoIf0 todo := hplace.resolve_left hover
  by_cases hhash : todo.head? = some '#'.toNat
  · obtain ⟨left, rfl⟩ := List.head?_eq_some_iff.1 hhash
    have hif0 : ¬charsOf "#if 0" <+: '#'.toNat :: left := by
      rintro ⟨b, hb⟩
      exact hno [] b hb.symm (by decide)
    rw [← hlen, List.length_cons]
    refine (cRound_directive before hif0 s typeDecl).mono ?_
    rintro r ⟨hfits, hends, -⟩
    exact ⟨⟨hfits, fun h => absurd (hends.symm.trans h) (by decide)⟩, next_of_ends hends _ _ _⟩
  · refine (cRound_turn len before hover hhash s typeDecl).mono ?_
    rintro r ⟨u, left, rfl, hturn⟩
    exact hturn.next hlen fun a b hsplit _ => hno a b hsplit

/-- In a disabled block: behind the first character the line goes on like `#else`, and is neither this nor an `#elif`. -/
def LikeElse (line : List Nat) : Prop :=
  charsOf "el" <+: line.drop 1 ∧ ¬charsOf "if" <+: line.drop 3 ∧ ¬charsOf "se" <+: line.drop 3

instance (line : List Nat) : Decidable (LikeElse line) := by
  unfold LikeElse
  infer_instance

/-- In a disabled block the turn goes over a line that is not empty as a whole. -/
theorem parseDisabledBlock_line {line : List Nat} (hline : line ≠ []) :
    Settled (fun r => r.Fits line.length ∧ r.ends = true ∧
        r.spans = [⟨0, line.length, if LikeElse line then qeStylePreprocess else qeStyleComment⟩] ∧ r.state ∈ cStates)
      fun rest => parseDisabledBlock (line ++ newline :: rest) line.length false := by
  obtain ⟨c, t, rfl⟩ := List.exists_cons_of_ne_nil hline
  have hall : ∀ state ∈ cStates, ¬LikeElse (c :: t) → (disabledRound (c :: t).length state false).Fits (c :: t).length ∧
      (disabledRound (c :: t).length state false).ends = true ∧ (disabledRound (c :: t).length state false).spans =
        [⟨0, (c :: t).length, if LikeElse (c :: t) then qeStylePreprocess else qeStyleComment⟩] ∧
      (disabledRound (c :: t).length state false).state ∈ cStates := by
    intro state hstate h
    rw [if_neg h]
    exact ⟨fits_one _ _ _ _ le_rfl (Nat.zero_le _) le_rfl, rfl, rfl, hstate⟩
  have hone : ∀ rest, (c :: t ++ newline :: rest).drop 1 = t ++ newline :: rest := fun rest => rfl
  simp only [parseDisabledBlock, hone]
  refine (settled_looksAt (by decide) t).bind ?_
  rintro b rfl
  refine Settled.ite (fun hb => ?_) fun _ => ?_
  · obtain ⟨left, rfl⟩ := of_decide_eq_true hb
    refine Settled.some (hall 0 (by decide) fun h => ?_)
    obtain ⟨left', hleft⟩ := h.1
    exact absurd (List.cons.inj (List.cons.inj hleft).2).1 (by decide)
  refine (settled_looksAt (by decide) t).bind ?_
  rintro b rfl
  refine Settled.ite (fun hb => ?_) fun hb => Settled.some (hall cIf0 (by decide) fun h => hb (decide_eq_true h.1))
  obtain ⟨left, rfl⟩ := of_decide_eq_true hb
  have hthree : ∀ rest, (c :: (charsOf "el" ++ left) ++ newline :: rest).drop 3 = left ++ newline :: rest := fun rest => rfl
  simp only [hthree]
  refine (settled_looksAt (by decide) left).bind ?_
  rintro b rfl
  refine Settled.ite (fun hif => Settled.some (hall 0 (by decide) fun h => h.2.1 (of_decide_eq_true hif))) fun hif => ?_
  refine (settled_looksAt (by decide) left).bind ?_
  rintro b rfl
  refine Settled.ite (fun hse => Settled.some (hall 0 (by decide) fun h => h.2.2 (of_decide_eq_true hse))) fun hse => ?_
  have hlike : LikeElse (c :: (charsOf "el" ++ left)) :=
    ⟨List.prefix_append _ _, fun h => hif (decide_eq_true h), fun h => hse (decide_eq_true h)⟩
  have hpre := parsePreprocessor_line [] (c :: (charsOf "el" ++ left)) false
  simp only [List.length_nil, Nat.zero_add, List.nil_append] at hpre
  rw [if_pos hlike]
  exact hpre

/-- The first turn fits the line. -/
theorem cEntry_place {line : List Nat} {state : Int} (hempty : ¬(state = cIf0 ∧ line = [])) (hstray : ¬StrayIf0 state line) :
    Settled (fun r => r.Fits line.length ∧ r.Next (CPlace line.length) [] line)
      fun rest => cEntry (line ++ newline :: rest) line.length state := by
  have hlen : ([] : List Nat).length + line.length = line.length := Nat.zero_add _
  by_cases hinside : state = cComment ∨ state = stateString ∨ state = stateStringQ
  · obtain ⟨u, left, state', rfl, hu, hentry⟩ := cEntry_inside hinside line
    refine ⟨_, next_place rfl (by simp) hlen ?_, hentry⟩
    rcases hu with ⟨hu, -⟩ | ⟨-, hleft, -⟩
    · refine Or.inr ?_
      intro a b hsplit ha
      refine hstray ⟨u ++ a, b, by rw [hsplit]; simp only [List.append_assoc], ?_, by rwa [behind_append, hu.1]⟩
      intro hnil
      exact entryMode_inside hinside (by rw [← behind_nil (entryMode state), ← (List.append_eq_nil_iff.1 hnil).1, hu.1]; decide)
    · exact Or.inl hleft
  simp only [not_or] at hinside
  simp only [cEntry, if_neg hinside.1, if_neg (not_or.2 hinside.2)]
  refine Settled.ite (fun hs => ?_) fun hs3 => Settled.ite (fun hs => ?_) fun hs4 => ?_
  · have hpre := parsePreprocessor_line [] line false
    simp only [List.length_nil, Nat.zero_add, List.nil_append] at hpre
    exact hpre.mono fun r hr => ⟨hr.1, next_of_ends hr.2.1 _ _ _⟩
  · exact (parseDisabledBlock_line fun h => hempty ⟨hs, h⟩).mono fun r hr => ⟨hr.1, next_of_ends hr.2.1 _ _ _⟩
  · have hmode : entryMode state = code := by
      rw [entryMode, if_neg hinside.1, if_neg hinside.2.1, if_neg hinside.2.2, if_neg (not_or.2 ⟨hs3, hs4⟩)]
    by_cases hover : LineOver line
    · exact ⟨endRound state false, ⟨(endRound_moves _ _ _).1, next_of_ends rfl _ _ _⟩, cRound_over line.length [] hover state false⟩
    by_cases hhash : line.head? = some '#'.toNat
    · obtain ⟨left, rfl⟩ := List.head?_eq_some_iff.1 hhash
      by_cases hif0 : charsOf "#if 0" <+: '#'.toNat :: left
      · obtain ⟨b, hb⟩ := hif0
        refine ⟨disabledRound ('#'.toNat :: left).length cIf0 false,
          ⟨fits_one _ _ _ _ le_rfl (Nat.zero_le _) le_rfl, next_of_ends rfl _ _ _⟩, ?_⟩
        intro rest
        rw [← hb]
        rfl
      · have hround := cRound_directive [] hif0 state false
        simp only [List.length_nil, Nat.zero_add, List.nil_append] at hround
        exact hround.mono fun r hr => ⟨hr.1, next_of_ends hr.2.1 _ _ _⟩
    · refine (cRound_turn line.length [] hover hhash state false).mono ?_
      rintro r ⟨u, left, rfl, hturn⟩
      obtain ⟨hmoves, hnext⟩ := @CTurn.next _ _ [] _ _ _ hturn hlen fun a b hsplit hne ha =>
        hstray ⟨a, b, hsplit, hne, by rwa [hmode]⟩
      exact ⟨hmoves.1, hnext⟩

/-- Without them the line is all that is looked at and changed. -/
theorem cColorizeLine_stays (m : Margin) {line : List Nat} {state : Int} (hempty : ¬(state = cIf0 ∧ line = []))
    (hstray : ¬StrayIf0 state line) : StaysIn (cColorizeLine m) line state :=
  staysIn_of_loop (fun buf len => cEntry buf len state) m (CPlace line.length) (fun _ => rfl) (cEntry_place hempty hstray) cRound_place

/-! ## With one -/

/-- The cells after a loop over some of them. -/
theorem changeSpan_get {f : Nat → Nat} {buf buf' : List Nat} {start len : Nat} (h : changeSpan f buf start len = some buf') (i : Nat) :
    buf'[i]? = if start ≤ i ∧ i < start + len then buf[i]?.map f else buf[i]? := by
  rw [changeSpan] at h
  split_ifs at h with hlen
  rw [← Option.some_inj.1 h]
  rcases hlen with rfl | hlen
  · rw [if_neg (by omega), List.take_zero, List.map_nil, List.append_nil, Nat.add_zero, List.take_append_drop]
  · have h1 : (buf.take start).length = start := by rw [List.length_take]; omega
    have h2 : (((buf.drop start).take len).map f).length = len := by
      rw [List.length_map, List.length_take, List.length_drop]; omega
    have h3 : (buf.take start ++ ((buf.drop start).take len).map f).length = start + len := by
      rw [List.length_append, h1, h2]
    split_ifs with hi
    · rw [List.getElem?_append_left (by omega), List.getElem?_append_right (by omega), h1, List.getElem?_map,
        List.getElem?_take_of_lt (by omega), List.getElem?_drop, Nat.add_sub_cancel' hi.1]
    · by_cases hlt : i < start
      · rw [List.getElem?_append_left (by omega), List.getElem?_append_left (by omega), List.getElem?_take_of_lt hlt]
      · rw [List.getElem?_append_right (by omega), h3, List.getElem?_drop, Nat.add_sub_cancel' (by omega)]

/-- Highlighting the margin changes no cell behind the line. -/
theorem highlightMargin_behind {m : Margin} {buf buf' : List Nat} {len : Nat} (h : highlightMargin m buf len = some buf') :
    buf'[len]? = buf[len]? := by
  rw [highlightMargin] at h
  split_ifs at h with hm
  · obtain ⟨buf1, h1, h2⟩ := Option.bind_eq_some_iff.1 h
    have hlen := hm.2
    rw [changeSpan_get h2, if_neg (by omega), changeSpan_get h1, if_neg (by omega)]
  · rw [← Option.some_inj.1 h]

/-- The turn of a `#if 0` behind the beginning of the line colours the newline, too. -/
theorem disabledRound_stray {len n : Nat} {before todo rest : List Nat} (hlen : before.length + todo.length = len) (hbefore : before ≠ [])
    (htodo : todo ≠ []) (round : List Nat → Nat → Int → Bool → Option Round) (s : Int) (typeDecl : Bool) {buf : List Nat} {s' : Int}
    (h : colorLoop round n (before ++ todo ++ newline :: rest) before.length (disabledRound len s typeDecl) = some (buf, s')) :
    buf[len]? ≠ some newline := by
  have hpos := List.length_pos_of_ne_nil hbefore
  have hpos' := List.length_pos_of_ne_nil htodo
  obtain ⟨buf', hset, ⟨-, hbuf⟩ | ⟨hends, -⟩⟩ := colorLoop_first h
  · obtain ⟨buf1, h1, h2⟩ := Option.bind_eq_some_iff.1 hset
    rw [(Prod.mk.inj hbuf).1, ← Option.some_inj.1 h2]
    have hat : (before ++ todo ++ newline :: rest)[len]? = some newline := by
      rw [← hlen, ← List.length_append, List.getElem?_append_right le_rfl, Nat.sub_self]
      rfl
    have hcolored : colored qeStyleComment newline ≠ newline := by decide
    rw [changeSpan_get h1, if_pos (by dsimp only; omega), hat]
    exact fun h => hcolored (Option.some_inj.1 h)
  · cases hends

/-- A loop that comes to an end goes on behind a turn over a piece of the line. -/
theorem colorLoop_over {round : List Nat → Nat → Int → Bool → Option Round} {before u left behind : List Nat} {r : Round} {n : Nat}
    {result : List Nat × Int} (hends : r.ends = false) (hpassed : r.passed = u.length)
    (hspans : ∀ span ∈ r.spans, span.start + span.len ≤ u.length)
    (h : colorLoop round n (before ++ (u ++ left) ++ behind) before.length r = some result) :
    ∃ u' n' r', u'.length = u.length ∧
      round (before ++ u' ++ left ++ behind) (before ++ u').length r.state r.typeDecl = some r' ∧
      colorLoop round n' (before ++ u' ++ left ++ behind) (before ++ u').length r' = some result := by
  obtain ⟨buf', hset, ⟨hends', -⟩ | ⟨-, n', r', rfl, hr', hloop⟩⟩ := colorLoop_first h
  · rw [hends] at hends'
    cases hends'
  rw [setColors_line before behind (fun span hspan => (hspans span hspan).trans (by simp))] at hset
  have hcells : buf' = before ++ (painted (u ++ left) r.spans).take u.length ++ left ++ behind := by
    have hdrop := painted_drop hspans (show u.length ≤ (u ++ left).length by simp)
    rw [List.drop_left] at hdrop
    have hjoin := List.take_append_drop u.length (painted (u ++ left) r.spans)
    rw [hdrop] at hjoin
    rw [List.append_assoc before, hjoin]
    exact (Option.some_inj.1 hset).symm
  have hlen : ((painted (u ++ left) r.spans).take u.length).length = u.length := by
    simp only [List.length_take, painted_length, List.length_append]
    omega
  have hplace : before.length + r.passed = (before ++ (painted (u ++ left) r.spans).take u.length).length := by
    rw [List.length_append, hlen, hpassed]
  rw [hcells, hplace] at hr' hloop
  exact ⟨_, n', r', hlen, hr', hloop⟩

/-- A loop in front of a stray `#if 0` colours the newline behind the line, if it comes to an end. -/
theorem colorLoop_stray {len : Nat} {rest : List Nat} (before a b : List Nat) {todo : List Nat}
    (hsplit : todo = a ++ charsOf "#if 0" ++ b) (ha : (code.behind a).InCode) (hlen : before.length + todo.length = len)
    (hne : before ≠ [] ∨ a ≠ []) {s : Int} {typeDecl : Bool} {r : Round}
    (hr : cRound len (before ++ todo ++ newline :: rest) before.length s typeDecl = some r) {n : Nat} {buf : List Nat} {s' : Int}
    (h : colorLoop (cRound len) n (before ++ todo ++ newline :: rest) before.length r = some (buf, s')) :
    buf[len]? ≠ some newline := by
  induction hk : a.length using Nat.strong_induction_on generalizing before a todo s typeDecl r n with
  | _ k ih =>
    subst hk
    have hsplit' : todo = a ++ '#'.toNat :: (charsOf "if 0" ++ b) := by
      rw [hsplit, List.append_assoc]
      rfl
    by_cases hnil : a = []
    · subst hnil
      have hround : r = disabledRound len cIf0 typeDecl := by
        rw [hsplit', List.nil_append, cRound, drop_before] at hr
        exact (Option.some_inj.1 hr).symm
      subst hround
      exact disabledRound_stray hlen (hne.resolve_right fun h => h rfl) (by rw [hsplit']; simp) _ _ _ h
    · have hhead : todo.head? ≠ some newline ∧ todo.head? ≠ some '#'.toNat := by
        obtain ⟨c, a, rfl⟩ := List.exists_cons_of_ne_nil hnil
        have hc : ∀ d, code.step d = ended → (c :: a).head? ≠ some d := by
          intro d hd hcd
          rw [behind_cons, Option.some_inj.1 hcd, hd, ended_behind] at ha
          exact absurd ha (by decide)
        rw [hsplit', List.cons_append]
        exact ⟨hc newline (by decide), hc '#'.toNat (by decide)⟩
      have hover : ¬LineOver todo := by
        rintro (h | h)
        · rw [h] at hsplit'
          exact absurd hsplit' (by simp)
        · exact hhead.1 h
      obtain ⟨r', ⟨u, left, htodo, hturn⟩, hread⟩ := cRound_turn len before hover hhead.2 s typeDecl
      have hsame : r' = r := Option.some_inj.1 ((hread rest).symm.trans hr)
      rw [hsame] at hturn
      subst htodo
      obtain ⟨hgoes, hu, hpassed, hspans⟩ := hturn.goes
      obtain ⟨y, rfl, hy⟩ := hturn.directive_todo hsplit' hnil ha
      have hpos := List.length_pos_of_ne_nil hu
      have hleft : left = y ++ charsOf "#if 0" ++ b := by
        rw [List.append_assoc u, List.append_assoc u, List.append_cancel_left_eq] at hsplit
        rw [hsplit, List.append_assoc]
      obtain ⟨u', n', r', hlen', hr', hloop⟩ := colorLoop_over hgoes hpassed hspans h
      refine ih y.length (by rw [List.length_append]; omega) (before ++ u') y hleft hy ?_ (Or.inl ?_) hr' hloop rfl
      · rw [← hlen, List.length_append, List.length_append, hlen', Nat.add_assoc]
      · intro hempty
        rw [(List.append_eq_nil_iff.1 hempty).2] at hlen'
        rw [← hlen'] at hpos
        exact absurd hpos (by simp)

/-- A line with a stray `#if 0` has its newline coloured. -/
theorem cColorizeLine_stray (m : Margin) {line : List Nat} {state : Int} (hstray : StrayIf0 state line) :
    ¬StaysIn (cColorizeLine m) line state := by
  rintro ⟨styled, state', hchars, hrun⟩
  obtain ⟨a, b, hsplit, hne, ha⟩ := hstray
  have h := hrun []
  rw [cColorizeLine] at h
  obtain ⟨first, hfirst, h⟩ := Option.bind_eq_some_iff.1 h
  obtain ⟨r, hloop, h⟩ := Option.bind_eq_some_iff.1 h
  obtain ⟨buf', hmargin, h⟩ := Option.bind_eq_some_iff.1 h
  have hlen : styled.length = line.length := by
    have h := congrArg List.length hchars
    rwa [List.length_map, List.length_map] at h
  have hnl : r.1[line.length]? = some newline := by
    rw [← highlightMargin_behind hmargin, (Prod.mk.inj (Option.some_inj.1 h)).1, ← hlen, List.getElem?_append_right le_rfl,
      Nat.sub_self]
    rfl
  refine absurd hnl ?_
  by_cases hinside : state = cComment ∨ state = stateString ∨ state = stateStringQ
  · obtain ⟨u, left, state1, rfl, hu, hentry⟩ := cEntry_inside hinside line
    have hprefix : a <+: u ++ left := ⟨_, by rw [hsplit, List.append_assoc]⟩
    rcases hu with ⟨hu, -⟩ | ⟨hu, hleft, -⟩
    · obtain ⟨y, rfl, hy⟩ := hu.prefix hprefix ha
      rw [hentry] at hfirst
      rw [← Option.some_inj.1 hfirst] at hloop
      have hloop' := @colorLoop_over _ [] u left [newline] _ _ _ rfl rfl (by simp) hloop
      obtain ⟨u', n', r', hlen', hr', hgo⟩ := hloop'
      have hleft : left = y ++ charsOf "#if 0" ++ b := by
        rw [List.append_assoc u, List.append_assoc u, List.append_cancel_left_eq] at hsplit
        rw [hsplit, List.append_assoc]
      have hu' : u' ≠ [] := by
        rintro rfl
        rw [List.eq_nil_of_length_eq_zero hlen'.symm] at hu
        exact entryMode_inside hinside (by rw [show entryMode state = code from hu.1]; decide)
      refine colorLoop_stray ([] ++ u') y b hleft (hy ▸ ha) ?_ (Or.inl ?_) hr' hgo
      · rw [List.nil_append, List.length_append, hlen']
      · rwa [List.nil_append]
    · exact absurd ha ( hu.prefix hleft hprefix)
  simp only [not_or] at hinside
  by_cases hdir : state = cPreprocess ∨ state = cIf0
  · rw [entryMode, if_neg hinside.1, if_neg hinside.2.1, if_neg hinside.2.2, if_pos hdir, ended_behind] at ha
    exact absurd ha (by decide)
  · rw [entryMode, if_neg hinside.1, if_neg hinside.2.1, if_neg hinside.2.2, if_neg hdir] at ha
    rw [cEntry, if_neg hinside.1, if_neg (not_or.2 hinside.2), if_neg (not_or.1 hdir).1, if_neg (not_or.1 hdir).2] at hfirst
    exact colorLoop_stray [] a b hsplit ha (Nat.zero_add _) (Or.inr hne) hfirst hloop

/-- `c_colorize_line` stays in the line exactly when it is not an empty line of a disabled block, and no `#if 0` stands in the code
of the line behind its beginning. -/
theorem cColorizeLine_staysIn_iff (m : Margin) (line : List Nat) (state : Int) :
    StaysIn (cColorizeLine m) line state ↔ ¬(state = cIf0 ∧ line = []) ∧ ¬StrayIf0 state line := by
  refine ⟨fun h => ⟨?_, fun hstray => cColorizeLine_stray m hstray h⟩, fun h => cColorizeLine_stays m h.1 h.2⟩
  rintro ⟨rfl, rfl⟩
  obtain ⟨styled, state', -, hrun⟩ := h
  -- the first look behind the newline
  have hnone : cColorizeLine m ([] ++ newline :: []) ([] : List Nat).length cIf0 = none := rfl
  rw [hrun []] at hnone
  cases hnone

/-- The same line with and without a letter that comes to stand behind its newline: the state behind it differs. -/
theorem not_cColorizeLine_staysIn : ¬StaysIn (cColorizeLine ⟨false, 80, by decide⟩) [] cIf0 := by
  rintro ⟨styled, state', -, hrun⟩
  have h1 := hrun (charsOf "endif")
  have h2 := hrun (charsOf "endi!")
  have hstate : (cColorizeLine ⟨false, 80, by decide⟩ ([] ++ newline :: charsOf "endif") ([] : List Nat).length cIf0).map Prod.snd ≠
      (cColorizeLine ⟨false, 80, by decide⟩ ([] ++ newline :: charsOf "endi!") ([] : List Nat).length cIf0).map Prod.snd := by
    decide
  rw [h1, h2] at hstate
  exact hstate rfl

end Hoe
