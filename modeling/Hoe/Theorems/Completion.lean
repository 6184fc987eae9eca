import Hoe.Lemmas.Minibuffer
import Hoe.Lib.CommonPrefix

/-!
# Completion

`do_completion` makes the typed text longer as long as the candidates go on with the same byte, and takes it for granted that they all
begin with the text. The completion of commands, buffers and charsets gives such candidates. That of files does not: what is typed is
a pattern, and its candidates may be other strings or shorter ones.
-/

namespace Hoe

namespace Minibuffer

open CommonPrefix

/-- What completing a text should do: no candidate is read behind its end, the text becomes what the candidates have in common and is
made longer by it, and it stays as it is when that is not longer. -/
def CompletionRight (text : List Byte) (outputs : List (List Byte)) (result : Option Minibuf) : Prop :=
  ∃ m', result = some m' ∧ (m'.text ≠ text → Longest m'.text outputs ∧ text <+: m'.text) ∧
    ∀ p, Longest p outputs → p.length ≤ text.length → m'.text = text

/-- The candidates that are looked at reach up to a length: the first one, and if it is longer, each one that all in front of it go on
like it. -/
def ReachTo (len : Nat) : List (List Byte) → Prop
  | [] => True
  | first :: others =>
    len ≤ first.length ∧ (len < first.length → ∀ before o after, others = before ++ o :: after →
      (∀ b ∈ before, b[len]? = first[len]?) → len ≤ o.length)

/-- When completing a text does it: the candidates that are looked at reach up to the input that was read, and if they go on there with the same
bytes, they all begin with the text, or it goes on with these bytes itself. -/
structure CompletionFits (text : List Byte) (outputs : List (List Byte)) : Prop where
  reach : ReachTo (ebGetStr 1024 text).length outputs
  more : ∀ n, (ebGetStr 1024 text).length < n → Agree outputs (ebGetStr 1024 text).length n →
    Begin text outputs ∨ n ≤ text.length ∧ ∃ first ∈ outputs.head?, first.take n = text.take n

variable {first : List Byte} {others outputs : List (List Byte)} {len n r : Nat} {c : Byte}

/-! ## Reading the candidates -/

theorem charAt_eq_some {s : List Byte} (hc : c ≠ 0) : charAt s n = some c ↔ s[n]? = some c := by
  unfold charAt
  rcases Nat.lt_trichotomy n s.length with hlt | heq | hgt
  · rw [List.getElem?_append_left hlt]
  · subst heq
    simp [hc.symm]
  · have hge : ([0] : List Byte)[n - s.length]? = none := List.getElem?_eq_none (by simp; omega)
    rw [List.getElem?_append_right (by omega), hge, List.getElem?_eq_none (by omega)]

theorem charAt_eq_none {s : List Byte} : charAt s n = none ↔ s.length < n := by
  unfold charAt
  rw [List.getElem?_eq_none_iff, List.length_append, List.length_singleton]
  omega

theorem charAt_eq_zero {s : List Byte} (hs : 0 ∉ s) : charAt s n = some 0 ↔ n = s.length := by
  unfold charAt
  rcases Nat.lt_trichotomy n s.length with hlt | heq | hgt
  · rw [List.getElem?_append_left hlt]
    refine iff_of_false (fun h => hs (List.mem_of_getElem? h)) (by omega)
  · subst heq
    simp
  · have hge : ([0] : List Byte)[n - s.length]? = none := List.getElem?_eq_none (by simp; omega)
    rw [List.getElem?_append_right (by omega), hge]
    exact iff_of_false nofun (by omega)

/-- All the other candidates go on like the first one. -/
theorem allHave_eq_true (hc : c ≠ 0) : allHave c n others = some true ↔ ∀ o ∈ others, o[n]? = some c := by
  induction others with
  | nil => simp [allHave]
  | cons o others ih =>
    rw [List.forall_mem_cons, ← ih, ← charAt_eq_some hc, allHave]
    cases hd : charAt o n with
    | none => simp
    | some d => by_cases h : d = c <;> simp [h]

/-- One of them ends in front of the place, and all in front of it go on like the first one. -/
theorem allHave_eq_none (hc : c ≠ 0) :
    allHave c n others = none ↔ ∃ before o after, others = before ++ o :: after ∧ (∀ b ∈ before, b[n]? = some c) ∧ o.length < n := by
  induction others with
  | nil => simp [allHave]
  | cons o others ih =>
    rw [allHave]
    constructor
    · intro h
      cases hd : charAt o n with
      | none => exact ⟨[], o, others, rfl, by simp, charAt_eq_none.1 hd⟩
      | some d =>
        simp only [hd, Option.bind_some] at h
        split_ifs at h with hne
        obtain ⟨before, o', after, rfl, hbefore, ho'⟩ := ih.1 h
        refine ⟨o :: before, o', after, rfl, List.forall_mem_cons.2 ⟨?_, hbefore⟩, ho'⟩
        exact (charAt_eq_some hc).1 (not_not.1 hne ▸ hd)
    · rintro ⟨before, o', after, hothers, hbefore, ho'⟩
      cases before with
      | nil =>
        obtain ⟨rfl, rfl⟩ := List.cons.inj hothers
        rw [charAt_eq_none.2 ho']
        rfl
      | cons b before =>
        obtain ⟨rfl, rfl⟩ := List.cons.inj hothers
        obtain ⟨hb, hbefore⟩ := List.forall_mem_cons.1 hbefore
        rw [(charAt_eq_some hc).2 hb, Option.bind_some, if_neg (not_not.2 rfl)]
        exact ih.2 ⟨before, o', after, rfl, hbefore, ho'⟩

/-! ## The length of the match -/

/-- Where the loop stops. -/
structure Stops (first : List Byte) (others : List (List Byte)) (len r : Nat) : Prop where
  le : len ≤ r
  agree : Agree (first :: others) len r
  stop : ¬ ∃ c, ∀ o ∈ first :: others, o[r]? = some c

/-- What a turn of the loop does: the first candidate is read behind its end, or it ends; another one is read behind its end, or differs;
or all go on with the same byte. -/
inductive Turn (first : List Byte) (others : List (List Byte)) (turns n : Nat) : Prop where
  | past (h : first.length < n) (hturn : matchLoop first others (turns + 1) n = none)
  | ended (h : first.length = n) (hturn : matchLoop first others (turns + 1) n = some n)
  | pastOther (c : Byte) (hc : first[n]? = some c) (before : List (List Byte)) (o : List Byte) (after : List (List Byte))
    (hothers : others = before ++ o :: after) (hbefore : ∀ b ∈ before, b[n]? = some c) (ho : o.length < n)
    (hturn : matchLoop first others (turns + 1) n = none)
  | differs (c : Byte) (hc : first[n]? = some c) (hdiffer : ¬ ∀ o ∈ others, o[n]? = some c)
    (hinside : ∀ before o after, others = before ++ o :: after → (∀ b ∈ before, b[n]? = some c) → n ≤ o.length)
    (hturn : matchLoop first others (turns + 1) n = some n)
  | goesOn (c : Byte) (hc : first[n]? = some c) (hall : ∀ o ∈ others, o[n]? = some c)
    (hturn : matchLoop first others (turns + 1) n = matchLoop first others turns (n + 1))

theorem turn (hzero : 0 ∉ first) (others : List (List Byte)) (turns n : Nat) : Turn first others turns n := by
  cases hd : charAt first n with
  | none =>
    refine .past (charAt_eq_none.1 hd) ?_
    rw [matchLoop, hd]
    rfl
  | some c =>
    have hstep : matchLoop first others (turns + 1) n =
        if c = 0 then some n
        else (allHave c n others).bind fun all => if all then matchLoop first others turns (n + 1) else some n := by
      rw [matchLoop, hd, Option.bind_some]
    by_cases hc : c = 0
    · subst hc
      exact .ended ((charAt_eq_zero hzero).1 hd).symm (hstep.trans (if_pos rfl))
    rw [if_neg hc] at hstep
    have hfirst := (charAt_eq_some hc).1 hd
    cases hall : allHave c n others with
    | none =>
      obtain ⟨before, o, after, hothers, hbefore, ho⟩ := (allHave_eq_none hc).1 hall
      refine .pastOther c hfirst before o after hothers hbefore ho ?_
      rw [hstep, hall]
      rfl
    | some all =>
      rw [hall, Option.bind_some] at hstep
      cases all with
      | true => exact .goesOn c hfirst ((allHave_eq_true hc).1 hall) hstep
      | false =>
        refine .differs c hfirst (fun h => ?_) (fun before o after hothers hbefore => ?_) hstep
        · nomatch hall.symm.trans ((allHave_eq_true hc).2 h)
        · by_contra hlt
          nomatch hall.symm.trans ((allHave_eq_none hc).2 ⟨before, o, after, hothers, hbefore, Nat.not_le.1 hlt⟩)

theorem not_agree_of_first (hc : first[n]? = some c) (hdiffer : ¬ ∀ o ∈ others, o[n]? = some c) :
    ¬ ∃ d, ∀ o ∈ first :: others, o[n]? = some d := by
  rintro ⟨d, hd⟩
  obtain ⟨hfirst, hothers⟩ := List.forall_mem_cons.1 hd
  obtain rfl := Option.some.inj (hc.symm.trans hfirst)
  exact hdiffer hothers

/-- Behind the first turn, no candidate is read behind its end. -/
theorem matchLoop_agree (hzero : 0 ∉ first) (hagree : Agree (first :: others) len n) (hlen : len < n) {turns : Nat}
    (hturns : first.length < n + turns) : ∃ r, matchLoop first others turns n = some r ∧ Stops first others len r := by
  induction turns generalizing n with
  | zero =>
    have := hagree.length_le hlen List.mem_cons_self
    omega
  | succ turns ih =>
    rcases turn hzero others turns n with
      ⟨h, -⟩ | ⟨h, hturn⟩ | ⟨c, -, before, o, after, rfl, -, ho, -⟩ | ⟨c, hc, hdiffer, -, hturn⟩ | ⟨c, hc, hall, hturn⟩
    · have := hagree.length_le hlen List.mem_cons_self
      omega
    · refine ⟨n, hturn, Nat.le_of_lt hlen, hagree, ?_⟩
      rintro ⟨d, hd⟩
      have := (List.getElem?_eq_some_iff.1 (hd first List.mem_cons_self)).1
      omega
    · have := hagree.length_le hlen (List.mem_cons_of_mem _ (List.mem_append_right _ List.mem_cons_self))
      omega
    · exact ⟨n, hturn, Nat.le_of_lt hlen, hagree, not_agree_of_first hc hdiffer⟩
    · obtain ⟨r, hr, hstops⟩ := ih (hagree.snoc ⟨c, List.forall_mem_cons.2 ⟨hc, hall⟩⟩) (by omega) (by omega)
      exact ⟨r, hturn.trans hr, hstops⟩

/-- The match is found if the candidates that are looked at reach up to the input, and only then. -/
theorem matchLen_spec (hzero : 0 ∉ first) (others : List (List Byte)) (len : Nat) :
    (ReachTo len (first :: others) ∧ ∃ r, matchLen first others len = some r ∧ Stops first others len r) ∨
      ¬ ReachTo len (first :: others) ∧ matchLen first others len = none := by
  have hself := agree_self (first :: others) len
  rcases turn hzero others first.length len with ⟨h, hturn⟩ | ⟨h, hturn⟩ | ⟨c, hc, before, o, after, hothers, hbefore, ho, hturn⟩ |
    ⟨c, hc, hdiffer, hinside, hturn⟩ | ⟨c, hc, hall, hturn⟩
  · exact .inr ⟨fun hreach => Nat.not_le.2 h hreach.1, hturn⟩
  · refine .inl ⟨⟨h.ge, fun hlt => absurd h hlt.ne'⟩, len, hturn, Nat.le_refl len, hself, ?_⟩
    rintro ⟨d, hd⟩
    have := (List.getElem?_eq_some_iff.1 (hd first List.mem_cons_self)).1
    omega
  · have hlt := (List.getElem?_eq_some_iff.1 hc).1
    exact .inr ⟨fun hreach => Nat.not_le.2 ho (hreach.2 hlt before o after hothers (hc ▸ hbefore)), hturn⟩
  · have hlt := (List.getElem?_eq_some_iff.1 hc).1
    exact .inl ⟨⟨Nat.le_of_lt hlt, fun _ => hc ▸ hinside⟩, len, hturn, Nat.le_refl len, hself, not_agree_of_first hc hdiffer⟩
  · have hlt := (List.getElem?_eq_some_iff.1 hc).1
    have hagree : Agree (first :: others) len (len + 1) := hself.snoc ⟨c, List.forall_mem_cons.2 ⟨hc, hall⟩⟩
    have hturns : first.length < len + 1 + first.length := by omega
    obtain ⟨r, hr, hstops⟩ := matchLoop_agree hzero hagree (Nat.lt_succ_self len) hturns
    refine .inl ⟨⟨Nat.le_of_lt hlt, fun _ before o after hothers _ => ?_⟩, r, hturn.trans hr, ⟨hstops.le, hstops.agree, hstops.stop⟩⟩
    have := (List.getElem?_eq_some_iff.1 (hall o (by simp [hothers]))).1
    omega

/-! ## Completing a text -/

variable {w : World} {m m' : Minibuf} {completion : Completion}

/-- What `do_completion` makes of the text, if the match is found. -/
theorem doCompletion_text (hcompletion : m.completion = some completion)
    (houtputs : completion.candidates w (cString (ebGetStr 1024 m.text)) = first :: others)
    (hr : matchLen first others (ebGetStr 1024 m.text).length = some r) :
    ∃ m', doCompletion w m = some m' ∧
      m'.text = if (ebGetStr 1024 m.text).length < r then first.take r ++ m.text.drop r else m.text := by
  unfold doCompletion
  simp only [hcompletion, houtputs, hr, Option.map_some, Option.some.injEq]
  refine ⟨_, rfl, ?_⟩
  split_ifs <;> rfl

/-- The match goes as far as the candidates agree. -/
theorem Stops.le_of_agree (h : Stops first others len r) (hn : Agree (first :: others) len n) : n ≤ r := by
  by_contra hlt
  exact h.stop (hn r h.le (Nat.not_le.1 hlt))

/-- A match that is longer than the text is what all candidates have in common, if they begin with the text. -/
theorem Stops.longest {text : List Byte} (h : Stops first others len r) (hlen : len ≤ text.length) (hbegin : Begin text (first :: others)) :
    text.length ≤ r ∧ Longest (first.take r) (first :: others) := by
  have htext := hbegin.agree
  have hagree := (htext.mono hlen).trans h.agree
  refine ⟨?_, hagree.longest List.mem_cons_self h.stop⟩
  by_contra hlt
  exact h.stop (htext r (Nat.zero_le r) (Nat.not_le.1 hlt))

theorem completionRight_of_text_eq {text : List Byte} (h : m.text = text) : CompletionRight text outputs (some m) :=
  ⟨m, rfl, fun hne => absurd h hne, fun _ _ _ => h⟩

theorem CompletionFits.of_begin {text : List Byte} (hlen : text.length ≤ 1023) (hbegin : Begin text outputs) : CompletionFits text outputs := by
  have hinput := ebGetStr_eq_self (Nat.lt_succ_of_le hlen)
  refine ⟨?_, fun n _ _ => .inl hbegin⟩
  rw [hinput]
  cases outputs with
  | nil => trivial
  | cons first others =>
    refine ⟨(hbegin first List.mem_cons_self).length_le, fun _ before o after hothers _ => (hbegin o ?_).length_le⟩
    simp [hothers]

/-- The names of commands, buffers and charsets are right for every text that fits in the input. -/
theorem names_fit (w : World) (hcompletion : completion ≠ .file) {text : List Byte} (hlen : text.length ≤ 1023) (hzero : 0 ∉ text) :
    CompletionFits text (completion.candidates w (cString (ebGetStr 1024 text))) := by
  rw [ebGetStr_eq_self (Nat.lt_succ_of_le hlen), cString_eq_self hzero]
  refine CompletionFits.of_begin hlen fun o ho => ?_
  cases completion with
  | command | buffer | charset => exact prefix_of_mem_namesWith hzero ho
  | file => exact absurd rfl hcompletion

/-- The names of files are, if there is nothing special in the pattern: it fits only names that begin with what is in front of the star. -/
theorem files_fit (w : World) (hnames : ∀ dir names, w.readdir dir = some names → ∀ name ∈ names, slash ∉ name) {text : List Byte}
    (hlen : text.length ≤ 1023) (hzero : 0 ∉ text)
    (hglob : ∀ name, w.fnmatch ((text.drop (inputPathLen text) ++ cstr "*").take 1023) name = true → text.drop (inputPathLen text) <+: name) :
    CompletionFits text (Completion.file.candidates w (cString (ebGetStr 1024 text))) := by
  rw [ebGetStr_eq_self (Nat.lt_succ_of_le hlen), cString_eq_self hzero]
  refine CompletionFits.of_begin hlen fun o ho => ?_
  obtain ⟨filename, hfilename, tail, rfl⟩ := mem_fileCompletion ho
  obtain ⟨dir, names, name, hdir, hname, hmatch, rfl⟩ := mem_findFiles hfilename
  rw [qeBasename_append (hnames dir names hdir name hname)]
  refine begins_cString hzero ?_
  obtain ⟨rest, hrest⟩ := hglob name hmatch
  refine ⟨rest ++ tail, ?_⟩
  rw [← hrest, ← List.append_assoc, ← List.append_assoc, List.take_append_drop, List.append_assoc]

/-! ## Patterns -/

/-- `fnmatch`, for patterns that have no brackets and no backslashes. -/
def globMatch : List Byte → List Byte → Bool
  | [], s => s == []
  | p :: ps, s =>
    if p = 0x2a then s.tails.any (globMatch ps)
    else
      match s with
      | [] => false
      | c :: s => (p = 0x3f || p = c) && globMatch ps s

/-- A directory with two files, and two commands. -/
def smallWorld : World where
  commands := [cstr "write-file", cstr "write-region", cstr "yank"]
  buffers := []
  charsets := []
  readdir := fun dir => if dir = cstr "." then some [cstr "abc", cstr "b"] else none
  isDir := fun _ => false
  fnmatch := globMatch

/-- The minibuffer with a text and a completion function. -/
def typed (text : List Byte) (completion : Completion) : Minibuf := minibufferEdit text (some completion) none false 0

end Minibuffer

end Hoe
