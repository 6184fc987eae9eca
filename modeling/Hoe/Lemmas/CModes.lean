import Hoe.ModeColors
import Hoe.Lemmas.Cells

/-!
# What is code in a line of C

`CMode` says where a place of a line is: in code, in a comment or in a string. `CTurn` says what a turn of the loop of
`c_colorize_line` finds in the cells that are left, and what it does with it: it goes over a piece of code, of which nothing is a
comment or a string, over a comment or a string that ends in the line, or over one that does not. `cRound_turn` is the one place
where the loop is looked into.
-/

namespace Hoe

open Sentinel

/-- Where a place of a line is. `slash` is behind a slash in code, `asterisk` behind an asterisk in a comment, `escaped` behind a
backslash in a string; `ended` is behind the beginning of a directive, or behind a newline. -/
inductive CMode where
  | code
  | slash
  | comment
  | asterisk
  | lineComment
  | quoted (quote : Nat)
  | escaped (quote : Nat)
  | ended
deriving DecidableEq

namespace CMode

/-- Over a character of code. -/
def codeStep (c : Nat) : CMode :=
  if c = '/'.toNat then slash
  else if c = '#'.toNat then ended
  else if c = '\''.toNat ∨ c = '"'.toNat then quoted c
  else code

/-- Over a character. -/
def step (m : CMode) (c : Nat) : CMode :=
  if c = newline then ended
  else match m with
    | code => codeStep c
    | slash => if c = '*'.toNat then comment else if c = '/'.toNat then lineComment else codeStep c
    | comment => if c = '*'.toNat then asterisk else comment
    | asterisk => if c = '/'.toNat then code else if c = '*'.toNat then asterisk else comment
    | lineComment => lineComment
    | quoted q => if c = '\\'.toNat then escaped q else if c = q then code else quoted q
    | escaped q => quoted q
    | ended => ended

/-- Behind some characters. -/
def behind (m : CMode) (u : List Nat) : CMode := u.foldl step m

/-- A comment, a string or a directive may begin here. -/
def InCode (m : CMode) : Prop := m = code ∨ m = slash

instance (m : CMode) : Decidable m.InCode := inferInstanceAs (Decidable (m = code ∨ m = slash))

@[simp] theorem behind_nil (m : CMode) : m.behind [] = m := rfl

@[simp] theorem behind_cons (m : CMode) (c : Nat) (u : List Nat) : m.behind (c :: u) = (m.step c).behind u := rfl

theorem behind_append (m : CMode) (u v : List Nat) : m.behind (u ++ v) = (m.behind u).behind v := List.foldl_append

/-- A newline ends the line in each mode. -/
theorem step_newline (m : CMode) : m.step newline = ended := by cases m <;> rfl

/-- The characters go on to code, and are not in code before. -/
def Closes (m : CMode) (u : List Nat) : Prop := m.behind u = code ∧ ∀ v, v <+: u → v ≠ u → ¬(m.behind v).InCode

/-- The characters are not in code. -/
def Opens (m : CMode) (u : List Nat) : Prop := ∀ v, v <+: u → ¬(m.behind v).InCode

/-- A comment or a string goes on over a character that does not close it. -/
theorem Closes.cons {m : CMode} {c : Nat} {u : List Nat} (hm : ¬m.InCode) (h : Closes (m.step c) u) : Closes m (c :: u) := by
  refine ⟨h.1, ?_⟩
  intro v hv hne
  cases v with
  | nil => exact hm
  | cons d v =>
    rw [List.cons_prefix_cons] at hv
    obtain ⟨rfl, hv⟩ := hv
    exact h.2 v hv fun heq => hne (by rw [heq])

theorem closes_one {m : CMode} {c : Nat} (hm : ¬m.InCode) (h : m.step c = code) : Closes m [c] := by
  refine ⟨h, ?_⟩
  intro v hv hne
  cases v with
  | nil => exact hm
  | cons d v =>
    rw [List.cons_prefix_cons, List.prefix_nil] at hv
    rw [hv.1, hv.2] at hne
    exact absurd rfl hne

/-- So does what is open behind the line. -/
theorem Opens.cons {m : CMode} {c : Nat} {u : List Nat} (hm : ¬m.InCode) (h : Opens (m.step c) u) : Opens m (c :: u) := by
  intro v hv
  cases v with
  | nil => exact hm
  | cons d v =>
    rw [List.cons_prefix_cons] at hv
    obtain ⟨rfl, hv⟩ := hv
    exact h v hv

theorem opens_nil {m : CMode} (hm : ¬m.InCode) : Opens m [] := by
  intro v hv
  rw [List.prefix_nil.1 hv]
  exact hm

end CMode

open CMode

/-- The line is over: nothing is left of it in front of a newline. -/
def LineOver (todo : List Nat) : Prop := todo = [] ∨ todo.head? = some newline

/-- The end of a comment, or that there is none. -/
theorem pairLoop_modes (todo : List Nat) (m : CMode) (hm : m = comment ∨ (m = asterisk ∧ todo.head? ≠ some '/'.toNat)) :
    (∃ u v, todo = u ++ v ∧ Closes m u ∧
        ∀ rest, pairLoop '*'.toNat '/'.toNat (todo ++ newline :: rest) = some (u.length, true)) ∨
      ∃ u v, todo = u ++ v ∧ Opens m u ∧ LineOver v ∧
        ∀ rest, pairLoop '*'.toNat '/'.toNat (todo ++ newline :: rest) = some (u.length, false) := by
  have hcode : ¬m.InCode := by
    rcases hm with rfl | ⟨rfl, -⟩ <;> decide
  induction todo generalizing m with
  | nil => exact Or.inr ⟨[], [], rfl, opens_nil hcode, Or.inl rfl, fun rest => pairLoop_newline _ _ _⟩
  | cons c todo ih =>
    by_cases hc : c = newline
    · subst hc
      exact Or.inr ⟨[], _, rfl, opens_nil hcode, Or.inr rfl, fun rest => pairLoop_newline _ _ _⟩
    by_cases hpair : c = '*'.toNat ∧ todo.head? = some '/'.toNat
    · obtain ⟨rfl, hhead⟩ := hpair
      obtain ⟨todo, rfl⟩ := List.head?_eq_some_iff.1 hhead
      have hstar : m.step '*'.toNat = asterisk := by
        rcases hm with rfl | ⟨rfl, -⟩ <;> rfl
      have hclose : Closes m ['*'.toNat, '/'.toNat] := by
        refine Closes.cons hcode ?_
        rw [hstar]
        exact closes_one (by decide) rfl
      exact Or.inl ⟨_, todo, rfl, hclose, fun rest => pairLoop_pair _ _ (by decide)⟩
    · have hother : ∀ rest, ¬(c = '*'.toNat ∧ (todo ++ newline :: rest).head? = some '/'.toNat) := by
        rintro rest ⟨hca, hhead⟩
        cases todo with
        | nil => exact absurd (Option.some_inj.1 hhead) (by decide)
        | cons d todo => exact hpair ⟨hca, hhead⟩
      have hstep : m.step c = comment ∨ (m.step c = asterisk ∧ todo.head? ≠ some '/'.toNat) := by
        by_cases hs : c = '*'.toNat
        · subst hs
          right
          refine ⟨?_, fun h => hpair ⟨rfl, h⟩⟩
          rcases hm with rfl | ⟨rfl, -⟩ <;> rfl
        · left
          rcases hm with rfl | ⟨rfl, hhead⟩
          · rw [step, if_neg hc]
            exact if_neg hs
          · rw [step, if_neg hc]
            rw [if_neg (fun h => hhead (by rw [h, List.head?_cons])), if_neg hs]
      have hcode' : ¬(m.step c).InCode := by
        rcases hstep with h | ⟨h, -⟩ <;> rw [h] <;> decide
      rcases ih (m.step c) hstep hcode' with ⟨u, v, rfl, hu, hrun⟩ | ⟨u, v, rfl, hu, hv, hrun⟩
      · refine Or.inl ⟨c :: u, v, rfl, hu.cons hcode, ?_⟩
        intro rest
        rw [List.cons_append, pairLoop_other _ _ hc (hother rest), hrun]
        rfl
      · refine Or.inr ⟨c :: u, v, rfl, hu.cons hcode, hv, ?_⟩
        intro rest
        rw [List.cons_append, pairLoop_other _ _ hc (hother rest), hrun]
        rfl

/-- The end of a string, or that there is none. -/
theorem stringLoop_modes {q : Nat} (hq : q = '\''.toNat ∨ q = '"'.toNat) (todo : List Nat) :
    (∃ u v, todo = u ++ v ∧ Closes (quoted q) u ∧ ∀ rest, stringLoop q (todo ++ newline :: rest) = some (u.length, true)) ∨
      ∃ u v, todo = u ++ v ∧ Opens (quoted q) u ∧ LineOver v ∧
        ∀ rest, stringLoop q (todo ++ newline :: rest) = some (u.length, false) := by
  have hcode : ¬(quoted q).InCode := by rintro (h | h) <;> cases h
  have hescaped : ¬(escaped q).InCode := by rintro (h | h) <;> cases h
  have hnl : q ≠ newline := by rcases hq with rfl | rfl <;> decide
  have hbs : q ≠ '\\'.toNat := by rcases hq with rfl | rfl <;> decide
  induction hk : todo.length using Nat.strong_induction_on generalizing todo with
  | _ k ih =>
    subst hk
    cases todo with
    | nil => exact Or.inr ⟨[], [], rfl, opens_nil hcode, Or.inl rfl, fun rest => stringLoop_newline _ _⟩
    | cons c todo =>
      by_cases hc : c = newline
      · subst hc
        exact Or.inr ⟨[], _, rfl, opens_nil hcode, Or.inr rfl, fun rest => stringLoop_newline _ _⟩
      by_cases hb : c = '\\'.toNat
      · subst hb
        have hesc : (quoted q).step '\\'.toNat = escaped q := rfl
        cases todo with
        | nil =>
          refine Or.inr ⟨['\\'.toNat], [], rfl, Opens.cons hcode ?_, Or.inl rfl, fun rest => stringLoop_escaped_newline _ _⟩
          rw [hesc]
          exact opens_nil hescaped
        | cons d todo =>
          by_cases hd : d = newline
          · subst hd
            refine Or.inr ⟨['\\'.toNat], _, rfl, Opens.cons hcode ?_, Or.inr rfl, fun rest => stringLoop_escaped_newline _ _⟩
            rw [hesc]
            exact opens_nil hescaped
          · have hback : (escaped q).step d = quoted q := by rw [step, if_neg hd]
            rcases ih todo.length (by simp only [List.length_cons]; omega) todo rfl with
              ⟨u, v, rfl, hu, hrun⟩ | ⟨u, v, rfl, hu, hv, hrun⟩
            · refine Or.inl ⟨'\\'.toNat :: d :: u, v, rfl, Closes.cons hcode ?_, ?_⟩
              · rw [hesc]
                refine Closes.cons hescaped ?_
                rwa [hback]
              · intro rest
                rw [List.cons_append, List.cons_append, stringLoop_escaped _ _ hd, hrun]
                rfl
            · refine Or.inr ⟨'\\'.toNat :: d :: u, v, rfl, Opens.cons hcode ?_, hv, ?_⟩
              · rw [hesc]
                refine Opens.cons hescaped ?_
                rwa [hback]
              · intro rest
                rw [List.cons_append, List.cons_append, stringLoop_escaped _ _ hd, hrun]
                rfl
      by_cases hcq : c = q
      · subst hcq
        have hend : (quoted c).step c = code := by
          rw [step, if_neg hc]
          rw [if_neg hb, if_pos rfl]
        exact Or.inl ⟨[c], todo, rfl, closes_one hcode hend, fun rest => stringLoop_quote _ hnl hbs⟩
      · have hstay : (quoted q).step c = quoted q := by
          rw [step, if_neg hc]
          rw [if_neg hb, if_neg hcq]
        rcases ih todo.length (by simp) todo rfl with ⟨u, v, rfl, hu, hrun⟩ | ⟨u, v, rfl, hu, hv, hrun⟩
        · refine Or.inl ⟨c :: u, v, rfl, Closes.cons hcode (by rwa [hstay]), ?_⟩
          intro rest
          rw [List.cons_append, stringLoop_other _ hc hb hcq, hrun]
          rfl
        · refine Or.inr ⟨c :: u, v, rfl, Opens.cons hcode (by rwa [hstay]), hv, ?_⟩
          intro rest
          rw [List.cons_append, stringLoop_other _ hc hb hcq, hrun]
          rfl

/-- The states that `c_colorize_line` leaves behind a line. -/
def cStates : List Int := [0, cComment, stateString, stateStringQ, cPreprocess, cIf0]

/-! ## The turns -/

/-- What a turn in code finds: the piece of the line it goes over, what is left, and what it does; `s` is the state in front. -/
inductive CTurn (s : Int) : List Nat → List Nat → Round → Prop where
  | plain {w gap left : List Nat} {spans : List Span} (typeDecl : Bool) :
      w ≠ [] → (∀ c ∈ w ++ gap, code.step c = code) → WordSpans w.length spans → (spans = [] ∨ ∀ c ∈ w, keywordChar c = true) →
      CTurn s (w ++ gap) left ⟨spans, (w ++ gap).length, s, typeDecl, false⟩
  | slash {left : List Nat} (typeDecl : Bool) :
      left.head? ≠ some '*'.toNat → left.head? ≠ some '/'.toNat →
      CTurn s ['/'.toNat] left ⟨[], 1, s, typeDecl, false⟩
  | lineComment {body left : List Nat} (typeDecl : Bool) :
      newline ∉ body → LineOver left →
      CTurn s ('/'.toNat :: '/'.toNat :: body) left
        ⟨[⟨0, body.length + 2, qeStyleComment⟩], body.length + 2, s, typeDecl, false⟩
  | comment {body left : List Nat} (typeDecl : Bool) :
      Closes comment body →
      CTurn s ('/'.toNat :: '*'.toNat :: body) left
        ⟨[⟨0, body.length + 2, qeStyleComment⟩], body.length + 2, 0, typeDecl, false⟩
  | openComment {body left : List Nat} (typeDecl : Bool) :
      Opens comment body → LineOver left →
      CTurn s ('/'.toNat :: '*'.toNat :: body) left
        ⟨[⟨0, body.length + 2, qeStyleComment⟩], body.length + 2, cComment, typeDecl, false⟩
  | string {q : Nat} {body left : List Nat} (typeDecl : Bool) :
      q = '\''.toNat ∨ q = '"'.toNat → Closes (quoted q) body →
      CTurn s (q :: body) left ⟨[⟨0, body.length + 1, qeStyleString⟩], body.length + 1, 0, typeDecl, false⟩
  | openString {q : Nat} {body left : List Nat} (typeDecl : Bool) :
      q = '\''.toNat ∨ q = '"'.toNat → Opens (quoted q) body → LineOver left →
      CTurn s (q :: body) left
        ⟨[⟨0, body.length + 1, qeStyleString⟩], body.length + 1, if q = '\''.toNat then stateStringQ else stateString, typeDecl,
          false⟩

/-- A turn in code goes on, over its piece of the line, and colours none but this. -/
theorem CTurn.goes {s : Int} {u left : List Nat} {r : Round} (h : CTurn s u left r) :
    r.ends = false ∧ u ≠ [] ∧ r.passed = u.length ∧ ∀ span ∈ r.spans, span.start + span.len ≤ u.length := by
  cases h with
  | plain _ hne hcode hspans _ =>
    refine ⟨rfl, by simp [hne], rfl, ?_⟩
    intro span hspan
    rcases hspans with rfl | ⟨style, -, rfl⟩
    · cases hspan
    · rw [List.mem_singleton] at hspan
      subst hspan
      simp
  | slash => exact ⟨rfl, by simp, rfl, by simp⟩
  | lineComment => exact ⟨rfl, by simp, rfl, by simp⟩
  | comment => exact ⟨rfl, by simp, rfl, by simp⟩
  | openComment => exact ⟨rfl, by simp, rfl, by simp⟩
  | string => exact ⟨rfl, by simp, rfl, by simp⟩
  | openString => exact ⟨rfl, by simp, rfl, by simp⟩

/-- A reader finds a turn in code in the cells that are left. -/
def FindsTurn (s : Int) (todo : List Nat) (read : List Nat → Option Round) : Prop :=
  Settled (fun r => ∃ u left, todo = u ++ left ∧ CTurn s u left r) read

/-- What is neither a letter nor one of the characters that begin something. -/
theorem codeStep_code {c : Nat} (h1 : c ≠ newline) (h2 : c ≠ '/'.toNat) (h3 : c ≠ '#'.toNat) (h4 : c ≠ '\''.toNat)
    (h5 : c ≠ '"'.toNat) : code.step c = code := by
  rw [step, if_neg h1]
  exact (if_neg h2).trans ((if_neg h3).trans (if_neg (by rintro (h | h) <;> contradiction)))

/-- A letter opens nothing. -/
theorem keywordChar_code {c : Nat} (h : keywordChar c = true) : code.step c = code := by
  have hne : ∀ d, keywordChar d = false → c ≠ d := by
    rintro d hd rfl
    rw [h] at hd
    cases hd
  exact codeStep_code (hne _ (by decide)) (hne _ (by decide)) (hne _ (by decide)) (hne _ (by decide)) (hne _ (by decide))

/-- A blank opens nothing. -/
theorem isSpaceOrTab_code {c : Nat} (h : isSpaceOrTab c = true) : code.step c = code := by
  have hne : ∀ d, isSpaceOrTab d = false → c ≠ d := by
    rintro d hd rfl
    rw [h] at hd
    cases hd
  exact codeStep_code (hne _ (by decide)) (hne _ (by decide)) (hne _ (by decide)) (hne _ (by decide)) (hne _ (by decide))

/-- A character of code for itself. -/
theorem CTurn.char {s : Int} {c : Nat} (hc : code.step c = code) (todo : List Nat) (typeDecl : Bool) :
    CTurn s [c] todo (plainRound s typeDecl) :=
  @CTurn.plain s [c] [] todo [] typeDecl (List.cons_ne_nil _ _) (by simpa using hc) (Or.inl rfl) (Or.inl rfl)

/-- A string from its quote on. -/
theorem parseString_turn {q : Nat} (hq : q = '\''.toNat ∨ q = '"'.toNat) (s : Int) (typeDecl : Bool) (todo : List Nat) :
    FindsTurn s (q :: todo)
      fun rest => parseString 1 (todo ++ newline :: rest) (if q = '\''.toNat then stateStringQ else stateString) typeDecl := by
  have hquote : (if (if q = '\''.toNat then stateStringQ else stateString) = stateStringQ then '\''.toNat else '"'.toNat) = q := by
    rcases hq with rfl | rfl <;> rfl
  rcases stringLoop_modes hq todo with ⟨body, left, rfl, hbody, hloop⟩ | ⟨body, left, rfl, hbody, hleft, hloop⟩
  · refine ⟨_, ⟨_, left, List.cons_append.symm, CTurn.string typeDecl hq hbody⟩, ?_⟩
    intro rest
    dsimp only
    rw [parseString, hquote, hloop, Nat.add_comm body.length]
    rfl
  · refine ⟨_, ⟨_, left, List.cons_append.symm, CTurn.openString typeDecl hq hbody hleft⟩, ?_⟩
    intro rest
    dsimp only
    rw [parseString, hquote, hloop, Nat.add_comm body.length]
    rfl

/-- A comment from its slash on. -/
theorem parseComment_turn (s : Int) (typeDecl : Bool) (todo : List Nat) :
    FindsTurn s ('/'.toNat :: '*'.toNat :: todo) fun rest => parseComment 2 (todo ++ newline :: rest) typeDecl := by
  rcases pairLoop_modes todo comment (Or.inl rfl) with ⟨body, left, rfl, hbody, hloop⟩ | ⟨body, left, rfl, hbody, hleft, hloop⟩
  · refine ⟨_, ⟨_, left, by rw [List.cons_append, List.cons_append], CTurn.comment typeDecl hbody⟩, ?_⟩
    intro rest
    dsimp only
    rw [parseComment, hloop, Nat.add_comm body.length]
    rfl
  · refine ⟨_, ⟨_, left, by rw [List.cons_append, List.cons_append], CTurn.openComment typeDecl hbody hleft⟩, ?_⟩
    intro rest
    dsimp only
    rw [parseComment, hloop, Nat.add_comm body.length]
    rfl

/-- A line comment. -/
theorem lineComment_turn (s : Int) (typeDecl : Bool) (todo : List Nat) :
    FindsTurn s ('/'.toNat :: '/'.toNat :: todo)
      fun rest => lineComment 1 ('/'.toNat :: (todo ++ newline :: rest)) s typeDecl := by
  have hsplit := List.takeWhile_append_dropWhile (p := fun c => decide (c ≠ newline)) (l := todo)
  have hbody : newline ∉ todo.takeWhile (fun c => decide (c ≠ newline)) := by
    intro h
    exact absurd (List.mem_takeWhile_imp h) (by simp)
  have hleft : LineOver (todo.dropWhile fun c => decide (c ≠ newline)) := by
    rw [LineOver, or_iff_not_imp_left]
    intro hne
    have h := List.head_dropWhile_not (fun c => decide (c ≠ newline)) hne
    rw [List.head?_eq_some_head hne]
    simpa using h
  refine ⟨_, ⟨_, _, by rw [List.cons_append, List.cons_append, hsplit], CTurn.lineComment typeDecl hbody hleft⟩, ?_⟩
  intro rest
  have hlen : ∀ n : Nat, 1 + (n + 1) = n + 2 := fun n => by omega
  dsimp only
  rw [lineComment, scanWhile, if_pos (by decide), scanWhile_sentinel (by simp)]
  simp only [Option.map_some, Option.bind_eq_bind, Option.bind_some, hlen]

/-- A turn of the loop that is in code, and not in front of a directive. -/
theorem cRound_turn (len : Nat) (before : List Nat) {todo : List Nat} (htodo : ¬LineOver todo) (hdirective : todo.head? ≠ some '#'.toNat)
    (s : Int) (typeDecl : Bool) :
    FindsTurn s todo fun rest => cRound len (before ++ todo ++ newline :: rest) before.length s typeDecl := by
  simp only [cRound, drop_before]
  cases todo with
  | nil => exact absurd (Or.inl rfl) htodo
  | cons c todo =>
    have hnl : c ≠ newline := fun h => htodo (Or.inr (by rw [h, List.head?_cons]))
    have hhash : c ≠ '#'.toNat := fun h => hdirective (by rw [h, List.head?_cons])
    simp only [List.cons_append]
    refine Settled.ite (fun h => absurd h hnl) fun _ => Settled.ite (fun hc => ?_) fun hslash => ?_
    · subst hc
      refine (settled_looksAt (by decide) todo).bind ?_
      rintro b rfl
      refine Settled.ite (fun hb => ?_) fun hb => ?_
      · obtain ⟨left, rfl⟩ := of_decide_eq_true hb
        exact parseComment_turn s typeDecl left
      · refine (settled_looksAt (by decide) todo).bind ?_
        rintro b' rfl
        refine Settled.ite (fun hb' => ?_) fun hb' => ?_
        · obtain ⟨left, rfl⟩ := of_decide_eq_true hb'
          exact lineComment_turn s typeDecl left
        · have hhead : ∀ d, ¬decide ([d] <+: todo) = true → todo.head? ≠ some d := by
            intro d hd h
            obtain ⟨left, rfl⟩ := List.head?_eq_some_iff.1 h
            exact hd (decide_eq_true ⟨left, rfl⟩)
          exact Settled.some ⟨_, todo, rfl, CTurn.slash typeDecl (hhead _ hb) (hhead _ hb')⟩
    refine Settled.ite (fun h => absurd h hhash) fun _ => Settled.ite (fun hc => ?_) fun hquote => Settled.ite (fun hc => ?_) fun hdquote => ?_
    · subst hc
      exact parseString_turn (Or.inl rfl) s typeDecl todo
    · subst hc
      exact parseString_turn (Or.inr rfl) s typeDecl todo
    have hchar := CTurn.char (s := s) (codeStep_code hnl hslash hhash hquote hdquote) todo
    refine Settled.ite (fun _ => Settled.some ⟨_, todo, rfl, hchar false⟩) fun _ => ?_
    refine Settled.ite (fun hword => ?_) fun _ => Settled.some ⟨_, todo, rfl, hchar typeDecl⟩
    refine (wordRound_spans cKeywords cTypes _ _ s typeDecl (c :: todo)).mono ?_
    rintro r ⟨gap, typeDecl', spans, hgap, hspans, rfl⟩
    have hblank : ∀ d ∈ gap, code.step d = code := by
      rcases hgap with rfl | rfl
      · simp
      · exact fun d hd => isSpaceOrTab_code (by simpa using List.mem_takeWhile_imp hd)
    have hcode : ∀ d ∈ (c :: todo).takeWhile keywordChar ++ gap, code.step d = code := by
      intro d hd
      rcases List.mem_append.1 hd with hd | hd
      · exact keywordChar_code (List.mem_takeWhile_imp hd)
      · exact hblank d hd
    have hsplit : ∃ left, c :: todo = (c :: todo).takeWhile keywordChar ++ gap ++ left := by
      have hw := List.takeWhile_append_dropWhile (p := keywordChar) (l := c :: todo)
      rcases hgap with rfl | rfl
      · exact ⟨(c :: todo).dropWhile keywordChar, by rw [List.append_nil, hw]⟩
      · have hdrop : (c :: todo).drop ((c :: todo).takeWhile keywordChar).length = (c :: todo).dropWhile keywordChar := by
          have h := @List.drop_left _ ((c :: todo).takeWhile keywordChar) ((c :: todo).dropWhile keywordChar)
          rwa [hw] at h
        refine ⟨((c :: todo).dropWhile keywordChar).dropWhile isSpaceOrTab, ?_⟩
        rw [hdrop, List.append_assoc, List.takeWhile_append_dropWhile, hw]
    obtain ⟨left, hsplit⟩ := hsplit
    rw [← List.length_append]
    exact ⟨_, left, hsplit, CTurn.plain typeDecl' (takeWhile_word hword todo) hcode hspans
      (Or.inr fun d hd => List.mem_takeWhile_imp hd)⟩

/-! ## The first turn -/

/-- Where a line begins, from the state in front of it. -/
def entryMode (state : Int) : CMode :=
  if state = cComment then comment
  else if state = stateString then quoted '"'.toNat
  else if state = stateStringQ then quoted '\''.toNat
  else if state = cPreprocess ∨ state = cIf0 then ended
  else code

/-- A comment or a string is not code. -/
theorem entryMode_inside {state : Int} (h : state = cComment ∨ state = stateString ∨ state = stateStringQ) :
    ¬(entryMode state).InCode := by
  rcases h with rfl | rfl | rfl <;> decide

/-- The first turn goes over the rest of the comment or of the string that the line begins in. -/
theorem cEntry_inside {state : Int} (h : state = cComment ∨ state = stateString ∨ state = stateStringQ) (line : List Nat) :
    ∃ u left state', line = u ++ left ∧
      (((entryMode state).Closes u ∧ state' = 0) ∨ ((entryMode state).Opens u ∧ LineOver left ∧ state' = state)) ∧
      ∀ rest, cEntry (line ++ newline :: rest) line.length state =
        some ⟨[⟨0, u.length, if state = cComment then qeStyleComment else qeStyleString⟩], u.length, state', false, false⟩ := by
  have hstring : ∀ {q : Nat}, q = '\''.toNat ∨ q = '"'.toNat → state ≠ cComment → (state = stateString ∨ state = stateStringQ) →
      (if state = stateStringQ then '\''.toNat else '"'.toNat) = q → entryMode state = quoted q →
      ∃ u left state', line = u ++ left ∧
        (((entryMode state).Closes u ∧ state' = 0) ∨ ((entryMode state).Opens u ∧ LineOver left ∧ state' = state)) ∧
        ∀ rest, cEntry (line ++ newline :: rest) line.length state =
          some ⟨[⟨0, u.length, if state = cComment then qeStyleComment else qeStyleString⟩], u.length, state', false, false⟩ := by
    intro q hq hne hstate hquote hmode
    rw [hmode, if_neg hne]
    rcases stringLoop_modes hq line with ⟨u, left, rfl, hu, hloop⟩ | ⟨u, left, rfl, hu, hleft, hloop⟩
    · refine ⟨u, left, 0, rfl, Or.inl ⟨hu, rfl⟩, ?_⟩
      intro rest
      rw [cEntry, if_neg hne, if_pos hstate, parseString, hquote, hloop, Option.bind_eq_bind, Option.bind_some]
      dsimp only
      rw [Nat.zero_add, if_pos rfl]
    · refine ⟨u, left, state, rfl, Or.inr ⟨hu, hleft, rfl⟩, ?_⟩
      intro rest
      rw [cEntry, if_neg hne, if_pos hstate, parseString, hquote, hloop, Option.bind_eq_bind, Option.bind_some]
      dsimp only
      rw [Nat.zero_add, if_neg Bool.false_ne_true]
  rcases h with rfl | rfl | rfl
  · rcases pairLoop_modes line comment (Or.inl rfl) with ⟨u, left, rfl, hu, hloop⟩ | ⟨u, left, rfl, hu, hleft, hloop⟩
    · refine ⟨u, left, 0, rfl, Or.inl ⟨hu, rfl⟩, ?_⟩
      intro rest
      rw [cEntry, if_pos rfl, parseComment, hloop, Option.bind_eq_bind, Option.bind_some]
      dsimp only
      rw [Nat.zero_add, if_pos rfl, if_pos rfl]
    · refine ⟨u, left, cComment, rfl, Or.inr ⟨hu, hleft, rfl⟩, ?_⟩
      intro rest
      rw [cEntry, if_pos rfl, parseComment, hloop, Option.bind_eq_bind, Option.bind_some]
      dsimp only
      rw [Nat.zero_add, if_neg Bool.false_ne_true, if_pos rfl]
  · exact hstring (Or.inr rfl) (by decide) (Or.inl rfl) rfl rfl
  · exact hstring (Or.inl rfl) (by decide) (Or.inr rfl) rfl rfl

/-! ## Directives behind the beginning of a line -/

/-- Nothing is read behind the end of the line. -/
theorem CMode.ended_behind (u : List Nat) : ended.behind u = ended := by
  induction u with
  | nil => rfl
  | cons c u ih =>
    have h : ended.step c = ended := by
      rw [step]
      split_ifs <;> rfl
    rw [behind_cons, h, ih]

/-- A prefix of two pieces is one of the first, or goes on into the second. -/
theorem prefix_of_append {x u v : List Nat} (h : x <+: u ++ v) : (x <+: u ∧ x ≠ u) ∨ ∃ y, x = u ++ y ∧ y <+: v := by
  obtain ⟨z, hz⟩ := h
  rcases List.append_eq_append_iff.1 hz with ⟨y, rfl, rfl⟩ | ⟨y, rfl, rfl⟩
  · cases y with
    | nil => exact Or.inr ⟨[], by simp, List.nil_prefix⟩
    | cons d y => exact Or.inl ⟨List.prefix_append _ _, by simp⟩
  · exact Or.inr ⟨y, rfl, List.prefix_append _ _⟩

/-- Nothing of a piece that is not in code, nor of what is behind it in the line, is in code. -/
theorem CMode.Opens.prefix {m : CMode} {u v x : List Nat} (hu : Opens m u) (hv : LineOver v) (hx : x <+: u ++ v) :
    ¬(m.behind x).InCode := by
  rcases prefix_of_append hx with ⟨hx, -⟩ | ⟨y, rfl, hy⟩
  · exact hu x hx
  · cases y with
    | nil =>
      rw [List.append_nil]
      exact hu u List.prefix_rfl
    | cons d y =>
      obtain ⟨z, rfl⟩ := hy
      have hd : d = newline := by
        rcases hv with hv | hv
        · exact absurd hv (by simp)
        · simpa using hv
      rw [behind_append, behind_cons, hd, step_newline, ended_behind]
      decide

/-- A prefix that ends in code has the whole of a piece that is not. -/
theorem CMode.Closes.prefix {m : CMode} {u v x : List Nat} (hu : Closes m u) (hx : x <+: u ++ v) (hcode : (m.behind x).InCode) :
    ∃ y, x = u ++ y ∧ m.behind x = code.behind y := by
  rcases prefix_of_append hx with ⟨hx, hne⟩ | ⟨y, rfl, -⟩
  · exact absurd hcode (hu.2 x hx hne)
  · exact ⟨y, rfl, by rw [behind_append, hu.1]⟩

/-- Over a quote. -/
theorem CMode.quote_step {q : Nat} (hq : q = '\''.toNat ∨ q = '"'.toNat) : code.step q = quoted q := by
  rcases hq with rfl | rfl <;> decide

/-- Over a piece of code. -/
theorem CMode.behind_code {u : List Nat} (h : ∀ c ∈ u, code.step c = code) : code.behind u = code := by
  induction u with
  | nil => rfl
  | cons c u ih =>
    rw [behind_cons, h c List.mem_cons_self]
    exact ih fun d hd => h d (List.mem_cons_of_mem _ hd)

/-- Behind a slash that begins no comment it goes on as in code. -/
theorem CMode.slash_behind {x : List Nat} (h1 : x.head? ≠ some '*'.toNat) (h2 : x.head? ≠ some '/'.toNat) :
    (slash.behind x).InCode ↔ (code.behind x).InCode := by
  cases x with
  | nil => decide
  | cons c x =>
    have hc : slash.step c = code.step c := by
      rw [step, step]
      by_cases hnl : c = newline
      · rw [if_pos hnl, if_pos hnl]
      · rw [if_neg hnl, if_neg hnl]
        exact (if_neg (by simpa using h1)).trans (if_neg (by simpa using h2))
    rw [behind_cons, behind_cons, hc]

/-- A directive that is code in what is left behind a turn is code in front of it. -/
theorem CTurn.directive_behind {s : Int} {u left : List Nat} {r : Round} (h : CTurn s u left r) {x b : List Nat}
    (hsplit : left = x ++ '#'.toNat :: b) (hx : (code.behind x).InCode) : (code.behind (u ++ x)).InCode := by
  have hline : ¬LineOver left := by
    intro hleft
    subst hsplit
    cases x with
    | nil => rcases hleft with h | h <;> simp [newline] at h
    | cons d x =>
      have hd : d = newline := by
        rcases hleft with h | h
        · exact absurd h (by simp)
        · simpa using h
      rw [behind_cons, hd, step_newline, ended_behind] at hx
      exact absurd hx (by decide)
  have hcode : code.behind u = code → (code.behind (u ++ x)).InCode := by
    intro hu
    rwa [behind_append, hu]
  cases h with
  | plain _ hne hplain hspans _ => exact hcode (behind_code hplain)
  | slash _ h1 h2 =>
    rw [List.singleton_append, behind_cons]
    refine (slash_behind ?_ ?_).2 hx
    · rw [hsplit] at h1
      cases x with
      | nil => simp
      | cons d x => exact h1
    · rw [hsplit] at h2
      cases x with
      | nil => simp
      | cons d x => exact h2
  | lineComment _ hbody hleft => exact absurd hleft hline
  | comment _ hbody => exact hcode hbody.1
  | openComment _ hbody hleft => exact absurd hleft hline
  | string _ hq hbody =>
    refine hcode ?_
    rw [behind_cons, quote_step hq]
    exact hbody.1
  | openString _ hq hbody hleft => exact absurd hleft hline

/-- A line comment goes on to the end of the line. -/
theorem CMode.lineComment_behind (x : List Nat) : ¬(CMode.lineComment.behind x).InCode := by
  induction x with
  | nil => decide
  | cons c x ih =>
    rw [behind_cons, step]
    split_ifs with hnl
    · rw [ended_behind]
      decide
    · exact ih

/-- A directive that is code in front of a turn, and is not the next character, is behind the turn. -/
theorem CTurn.directive_todo {s : Int} {u left : List Nat} {r : Round} (h : CTurn s u left r) {x b : List Nat}
    (hsplit : u ++ left = x ++ '#'.toNat :: b) (hne : x ≠ []) (hx : (code.behind x).InCode) :
    ∃ y, x = u ++ y ∧ (code.behind y).InCode := by
  have hprefix : x <+: u ++ left := ⟨_, hsplit.symm⟩
  -- what begins with two characters: there is no directive behind the first of them
  have htwo : ∀ d body, u = '/'.toNat :: d :: body → d ≠ '#'.toNat → ∃ x', x = '/'.toNat :: d :: x' ∧ x' <+: body ++ left := by
    rintro d body rfl hd
    obtain ⟨c, x, rfl⟩ := List.exists_cons_of_ne_nil hne
    obtain ⟨h1, h2⟩ := List.cons.inj hsplit
    cases x with
    | nil => exact absurd (List.cons.inj h2).1 hd
    | cons d' x =>
      obtain ⟨h3, h4⟩ := List.cons.inj h2
      exact ⟨x, by rw [h1, h3], ⟨_, h4.symm⟩⟩
  have hone : ∀ q body, u = q :: body → ∃ x', x = q :: x' ∧ x' <+: body ++ left ∧ body ++ left = x' ++ '#'.toNat :: b := by
    rintro q body rfl
    obtain ⟨c, x, rfl⟩ := List.exists_cons_of_ne_nil hne
    obtain ⟨h1, h2⟩ := List.cons.inj hsplit
    exact ⟨x, by rw [h1], ⟨_, h2.symm⟩, h2⟩
  cases h with
  | plain _ _ hplain _ _ =>
    rcases prefix_of_append hprefix with ⟨⟨z, hz⟩, hne'⟩ | ⟨y, rfl, -⟩
    · rw [← hz, List.append_assoc, List.append_cancel_left_eq] at hsplit
      cases z with
      | nil => exact absurd (by rw [← hz, List.append_nil]) hne'
      | cons d z =>
        have hd := hplain d (by rw [← hz]; simp)
        rw [(List.cons.inj hsplit).1] at hd
        exact absurd hd (by decide)
    · rw [behind_append, behind_code hplain] at hx
      exact ⟨y, rfl, hx⟩
  | slash _ h1 h2 =>
    obtain ⟨x, rfl, -, hleft⟩ := hone _ _ rfl
    rw [List.nil_append] at hleft
    refine ⟨x, rfl, (slash_behind ?_ ?_).1 hx⟩
    · cases x with
      | nil => simp
      | cons d x => rwa [hleft] at h1
    · cases x with
      | nil => simp
      | cons d x => rwa [hleft] at h2
  | lineComment _ _ _ =>
    obtain ⟨x, rfl, -⟩ := htwo _ _ rfl (by decide)
    exact absurd hx (lineComment_behind x)
  | comment _ hbody =>
    obtain ⟨x, rfl, hx'⟩ := htwo _ _ rfl (by decide)
    obtain ⟨y, rfl, hy⟩ := hbody.prefix hx' hx
    exact ⟨y, rfl, hy ▸ hx⟩
  | openComment _ hbody hleft =>
    obtain ⟨x, rfl, hx'⟩ := htwo _ _ rfl (by decide)
    exact absurd hx ( hbody.prefix hleft hx')
  | string _ hq hbody =>
    obtain ⟨x, rfl, hx', -⟩ := hone _ _ rfl
    rw [behind_cons, quote_step hq] at hx
    obtain ⟨y, rfl, hy⟩ := hbody.prefix hx' hx
    exact ⟨y, rfl, hy ▸ hx⟩
  | openString _ hq hbody hleft =>
    obtain ⟨x, rfl, hx', -⟩ := hone _ _ rfl
    rw [behind_cons, quote_step hq] at hx
    exact absurd hx ( hbody.prefix hleft hx')

end Hoe
