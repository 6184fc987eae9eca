import Hoe.Lemmas.ConfigFile
import Hoe.Pages

/-!
# Configuration lines

A line of a configuration file runs the command that it has the shape of, with the arguments that stand there. The reader takes more
than the shape allows, and less of the bytes than the array has: it takes a line whose integers are missing and a second parenthesis,
it brings integers into an `int`, it does not find a command whose own name has an underscore, and it reads past a backslash at the
end of a file that is not ended by a newline. Where none of it happens, a line does what it says (`lineRight_iff`).
-/

namespace Hoe

open Prompts Scanner

namespace ConfigFile

/-- What a line should come to, whatever lies behind its end in the array: one call of the command that it has the shape of, with these
arguments, or none if it has no such shape. -/
def LineRight (cmds : List ConfigCmd) (s : WindowPtr) (line : List Byte) : Prop :=
  ∃ call, (∀ rest, lineCall cmds s (line ++ 0 :: rest) = call) ∧ call ≠ .error .past ∧
    (∀ d args, Shaped cmds line d args → call = .ok (d, .window s :: args)) ∧
    ((∀ d args, ¬ Shaped cmds line d args) → ∀ run, call ≠ .ok run)

/-- When a line does what it says: it is not cut off inside of a string, it is not a line of the loose shape only, and where it has the
shape, the name of the command has no underscore and the integers fit. -/
structure LineFits (cmds : List ConfigCmd) (line : List Byte) : Prop where
  ended : ¬ CutOff cmds line
  strict : LooselyShaped cmds line → ∃ d args, Shaped cmds line d args
  hyphens : ∀ d args, Shaped cmds line d args → 0x5f ∉ d.name
  ints : ∀ d args, Shaped cmds line d args → ∀ n, CmdArg.int (some n) ∈ args → InInt n

variable {cmds : List ConfigCmd} {s : WindowPtr} {d : ConfigCmd} {name l line m : List Byte}

/-! ## Names -/

/-- A hyphen in the place of an underscore changes nothing else. -/
theorem hyphen_eq_iff {c v : Byte} (hv : v ≠ 0x5f ∧ v ≠ 0x2d) : (if c = 0x5f then 0x2d else c) = v ↔ c = v := by
  split_ifs with hc
  · exact ⟨fun h => absurd h.symm hv.2, fun h => absurd (h.symm.trans hc) hv.1⟩
  · rfl

theorem mem_hyphened {v : Byte} (hv : v ≠ 0x5f ∧ v ≠ 0x2d) : v ∈ hyphened name ↔ v ∈ name := by
  unfold hyphened
  simp only [List.mem_map, hyphen_eq_iff hv, exists_eq_right]

theorem hyphened_eq_self (h : 0x5f ∉ name) : hyphened name = name := by
  have hkeep : ∀ c ∈ name, (if c = 0x5f then 0x2d else c) = id c := fun c hc => if_neg fun heq : c = 0x5f => h (heq ▸ hc)
  exact (List.map_congr_left hkeep).trans (List.map_id name)

theorem underscore_notMem_hyphened (name : List Byte) : 0x5f ∉ hyphened name := by
  unfold hyphened
  simp only [List.mem_map, not_exists, not_and]
  intro c _
  split_ifs with hc
  · decide
  · exact hc

theorem hyphened_hyphened (name : List Byte) : hyphened (hyphened name) = hyphened name :=
  hyphened_eq_self (underscore_notMem_hyphened name)

/-- A name can be read from a line if it can be read with hyphens. -/
theorem ProperName.of_hyphened (h : ProperName (hyphened name)) : ProperName name where
  length := by simpa [hyphened] using h.length
  paren := fun hmem => h.paren ((mem_hyphened (by decide)).2 hmem)
  zero := fun hmem => h.zero ((mem_hyphened (by decide)).2 hmem)
  head := by
    intro c hc
    obtain ⟨p, rfl⟩ := List.head?_eq_some_iff.1 hc
    by_cases hunder : c = 0x5f
    · subst hunder
      decide
    · exact h.head c (by simp [hyphened, hunder])
  slashes := by
    intro htake
    refine h.slashes ?_
    have hmap : (hyphened name).take 2 = hyphened (name.take 2) := List.map_take.symm
    rw [hmap, htake]
    rfl

/-- The command that is found has the name with hyphens. -/
theorem name_of_qeFindCmd (h : qeFindCmd cmds (hyphened name) = some d) : d.name = hyphened name ∧ ProperName name := by
  have hname : d.name = hyphened name := by simpa using List.find?_some h
  exact ⟨hname, (hname ▸ d.proper : ProperName (hyphened name)).of_hyphened⟩

/-! ## Up to the call -/

theorem isBlank_cons {c : Byte} {p : List Byte} (h0 : c ≠ 0) (hsharp : c ≠ 0x23) (hslash : c = 0x2f → ∃ d p', p = d :: p' ∧ d ≠ 0x2f) :
    isBlank (c :: p) = .ok (false, c :: p) := by
  unfold isBlank current
  rw [bind_of_ok (peekAt_eq_ok.2 ⟨rfl, rfl⟩), if_neg (not_or.2 ⟨h0, hsharp⟩)]
  by_cases hc : c = 0x2f
  · obtain ⟨d, p', rfl, hd⟩ := hslash hc
    rw [if_pos hc, bind_of_ok (peekAt_eq_ok.2 ⟨rfl, rfl⟩), beq_eq_false_iff_ne.2 hd]
    rfl
  · rw [if_neg hc]
    rfl

/-- A name, with the parenthesis behind it, is no comment. -/
theorem ProperName.isBlank (h : ProperName name) (text : List Byte) :
    isBlank (name ++ 0x28 :: text) = .ok (false, name ++ 0x28 :: text) := by
  cases name with
  | nil => exact isBlank_cons (by decide) (by decide) nofun
  | cons c p =>
    have h0 : c ≠ 0 := fun hc => h.zero (hc ▸ List.mem_cons_self)
    refine isBlank_cons h0 (h.head c rfl).2 fun hc => ?_
    cases p with
    | nil => exact ⟨0x28, text, rfl, by decide⟩
    | cons d p =>
      refine ⟨d, p ++ 0x28 :: text, rfl, fun hd => h.slashes ?_⟩
      rw [hc, hd]
      rfl

/-- A name does not begin with a space. -/
theorem ProperName.skipSpaces (h : ProperName name) {sp : List Byte} (hsp : Spaces sp) (text : List Byte) :
    skipSpaces (sp ++ name ++ 0x28 :: text) = .ok ((), name ++ 0x28 :: text) := by
  rw [List.append_assoc, skipSpaces_append hsp]
  cases name with
  | nil => exact skipSpaces_cons rfl _
  | cons c p => exact skipSpaces_cons (h.head c rfl).1 _

theorem ProperName.getStr (h : ProperName name) (text : List Byte) :
    getStr 128 (cstr "(") (name ++ 0x28 :: text) = .ok (name, 0x28 :: text) := by
  have hspan : spanWhile LineError.past (fun c => c != 0 && !(cstr "(").contains c) (name ++ 0x28 :: text) = .ok (name, 0x28 :: text) := by
    refine spanWhile_eq_ok.2 ⟨rfl, ?_, _, _, rfl, rfl⟩
    intro c hc
    have h0 : c ≠ 0 := fun hc0 => h.zero (hc0 ▸ hc)
    have hparen : c ≠ 0x28 := fun hc0 => h.paren (hc0 ▸ hc)
    simp [cstr, h0, hparen]
  have hlen := h.length
  unfold ConfigFile.getStr
  rw [bind_of_ok hspan, List.take_of_length_le (by omega)]
  rfl

/-- A line in front of its parenthesis. -/
theorem parseLine_named {sp text : List Byte} (hsp : Spaces sp) (hname : ProperName name) (hfind : qeFindCmd cmds (hyphened name) = some d) :
    parseLine cmds s (sp ++ name ++ 0x28 :: text) = parseCall s d (0x28 :: text) := by
  unfold parseLine
  rw [bind_of_ok (hname.skipSpaces hsp text), bind_of_ok (hname.isBlank text), if_neg Bool.false_ne_true, bind_of_ok (hname.getStr text),
    callNamed, hfind]

/-- What is left behind the parenthesis, or behind the two. -/
def unopened (text : List Byte) : List Byte := if text.head? = some 0x28 then text.drop 1 else text

/-- A call, from its parenthesis on. -/
theorem parseCall_opened {types text : List Byte} (htypes : argTypes (maxCmdArgs - 1) d.ptype = some types) (hne : text ≠ []) :
    parseCall s d (0x28 :: text) = (parseLineArgs d true types >>= fun args => pure (d, .window s :: args)) (unopened text) := by
  have hopen : expect LineError.past (.expected 0x28) 0x28 (0x28 :: text) = .ok ((), text) := expect_eq_ok.2 rfl
  have hskip : skipIf LineError.past 0x28 text = .ok ((), unopened text) := by
    cases text with
    | nil => exact absurd rfl hne
    | cons c p =>
      unfold unopened
      by_cases hc : c = 0x28 <;> simp [skipIf, hc]
  unfold parseCall
  rw [bind_of_ok (skipSpaces_cons rfl text), bind_of_ok hopen, htypes]
  exact bind_of_ok hskip

/-- Neither what stands in front of an argument nor the argument begins with a parenthesis. -/
theorem noParen_separator {first : Bool} {sep : List Byte} (h : Separator first sep) (hm : m.head? ≠ some 0x28) :
    (sep ++ m).head? ≠ some 0x28 := by
  have hspaces : ∀ {sp m' : List Byte}, Spaces sp → m'.head? ≠ some 0x28 → (sp ++ m').head? ≠ some 0x28 := by
    intro sp m' hsp hm'
    cases sp with
    | nil => exact hm'
    | cons c sp =>
      intro hc
      obtain rfl := Option.some.inj hc
      nomatch hsp 0x28 List.mem_cons_self
  cases h with
  | first h => exact hspaces h hm
  | @next sp sp' h h' =>
    rw [List.append_assoc]
    exact hspaces h nofun

theorem noParen_argument {loose : Bool} {type : Byte} {t : List Byte} {arg : CmdArg} (h : Argument loose type t arg)
    (hm : m.head? ≠ some 0x28) : (t ++ m).head? ≠ some 0x28 := by
  cases h with
  | @int blank t n hblank h =>
    cases blank with
    | cons c blank =>
      intro hc
      obtain rfl := Option.some.inj hc
      nomatch hblank 0x28 List.mem_cons_self
    | nil =>
      obtain ⟨c, p, rfl, hc⟩ := integer_head h
      intro hhead
      obtain rfl := Option.some.inj hhead
      rcases hc with hc | hc | ⟨base, hc⟩
      · nomatch hc
      · nomatch hc
      · nomatch hc
  | missing => exact hm
  | string => exact nofun

theorem noParen_ends (h : Ends m) : m.head? ≠ some 0x28 := by
  obtain ⟨c, p, rfl, hc⟩ := h.head
  intro hhead
  obtain rfl := Option.some.inj hhead
  revert hc
  decide

/-- The arguments do not begin with a parenthesis. -/
theorem Arguments.unopened {loose : Bool} {types text : List Byte} {args : List CmdArg} (h : Arguments loose d true types text args)
    (rest : List Byte) : unopened (text ++ rest) = text ++ rest := by
  refine if_neg ?_
  generalize hfirst : true = first at h
  induction h with
  | @close _ sp h =>
    rw [List.append_assoc]
    exact noParen_separator (.first h) nofun
  | pseudo _ _ ih => exact ih hfirst
  | arg _ hsep harg hargs =>
    rw [List.append_assoc, List.append_assoc]
    exact noParen_separator hsep (noParen_argument harg (noParen_ends (hargs.ends rfl rest)))

theorem CutArguments.unopened {types text : List Byte} (h : CutArguments d true types text) (rest : List Byte) :
    unopened (text ++ rest) = text ++ rest := by
  refine if_neg ?_
  generalize hfirst : true = first at h
  induction h with
  | here hsep _ =>
    rw [List.append_assoc, List.append_assoc]
    exact noParen_separator hsep nofun
  | pseudo _ _ ih => exact ih hfirst
  | arg _ hsep harg hargs =>
    rw [List.append_assoc, List.append_assoc]
    exact noParen_separator hsep (noParen_argument harg (noParen_ends (hargs.ends rfl rest)))

/-- What the parenthesis or the two leave. -/
theorem Opened.cases {loose : Bool} {opened text : List Byte} (h : Opened loose opened text)
    (hparen : ∀ rest, unopened (text ++ rest) = text ++ rest)
    (rest : List Byte) : ∃ text', opened ++ rest = 0x28 :: text' ∧ unopened text' = text ++ rest := by
  cases h with
  | once => exact ⟨text ++ rest, rfl, hparen rest⟩
  | twice => exact ⟨0x28 :: (text ++ rest), rfl, rfl⟩

/-- A line of the shape is read, also where it is loose. -/
theorem lineCall_calls {loose : Bool} {args : List CmdArg} (hfind : qeFindCmd cmds (hyphened name) = some d)
    (h : Calls loose d name l args) (hzero : 0 ∉ l) (rest : List Byte) :
    lineCall cmds s (l ++ 0 :: rest) = .ok (d, .window s :: args.map passed) := by
  obtain ⟨sp, opened, types, text, rest', rfl, hsp, htypes, hopened, hargs⟩ := h.call
  have hunopened : ∀ r, unopened (text ++ rest' ++ r) = text ++ rest' ++ r := fun r => by
    rw [List.append_assoc]
    exact hargs.unopened _
  obtain ⟨text', hopen, htext'⟩ := hopened.cases hunopened (0 :: rest)
  have htext : 0 ∉ text := by
    intro hmem
    refine hzero (List.mem_append_right _ ?_)
    cases hopened <;> simp [hmem]
  have hne : text' ≠ [] := by
    rintro rfl
    have := congrArg List.length htext'
    simp [unopened] at this
  have hrun := parseLineArgs_arguments hargs htext (rest' ++ 0 :: rest)
  unfold lineCall
  rw [List.append_assoc, hopen, parseLine_named hsp (name_of_qeFindCmd hfind).2 hfind, parseCall_opened htypes hne, htext',
    List.append_assoc, bind_of_ok hrun]
  rfl

/-- A line that is cut off is read past its end. -/
theorem lineCall_cut (hfind : qeFindCmd cmds (hyphened name) = some d) (h : CutCall d name l) (hzero : 0 ∉ l) :
    lineCall cmds s (l ++ [0]) = .error .past := by
  obtain ⟨sp, opened, types, text, rfl, hsp, htypes, hopened, hargs⟩ := h.call
  obtain ⟨text', hopen, htext'⟩ := hopened.cases hargs.unopened [0]
  have htext : 0 ∉ text := by
    intro hmem
    refine hzero (List.mem_append_right _ ?_)
    cases hopened <;> simp [hmem]
  have hne : text' ≠ [] := by
    rintro rfl
    have := congrArg List.length htext'
    simp [unopened] at this
  have hrun := parseLineArgs_cut hargs htext
  have hcall : parseLine cmds s (sp ++ name ++ opened ++ [0]) = .error .past := by
    rw [List.append_assoc, hopen, parseLine_named hsp (name_of_qeFindCmd hfind).2 hfind, parseCall_opened htypes hne, htext']
    exact bind_eq_error.2 (.inl hrun)
  unfold lineCall
  rw [hcall]
  rfl

/-! ## Every line -/

/-- What a line comes to: an error, the cut, or a call of the loose shape. -/
inductive LineEnd (cmds : List ConfigCmd) (s : WindowPtr) (l : List Byte) : Prop where
  | error (e : LineError) (he : e ≠ .past) (h : lineCall cmds s (l ++ [0]) = .error e)
  | cut (h : CutOff cmds l)
  | found (name : List Byte) (d : ConfigCmd) (args : List CmdArg) (hfind : qeFindCmd cmds (hyphened name) = some d)
    (h : Calls true d name l args)

/-- In front of the zero, a line is blank or not. -/
theorem isBlank_zero (l : List Byte) : ∃ blank, isBlank (l ++ [0]) = .ok (blank, l ++ [0]) := by
  cases l with
  | nil => exact ⟨true, rfl⟩
  | cons c l =>
    unfold isBlank current
    rw [List.cons_append, bind_of_ok (peekAt_eq_ok.2 ⟨rfl, rfl⟩)]
    split_ifs
    · exact ⟨true, rfl⟩
    · cases l with
      | nil => exact ⟨false, rfl⟩
      | cons e l => exact ⟨e == 0x2f, bind_of_ok (peekAt_eq_ok.2 ⟨rfl, rfl⟩)⟩
    · exact ⟨false, rfl⟩

/-- In front of the zero, the name ends at a parenthesis or at the zero. -/
theorem getStr_zero (hzero : 0 ∉ l) :
    ∃ name l', l = name ++ l' ∧ getStr 128 (cstr "(") (l ++ [0]) = .ok (name.take 127, l' ++ [0]) ∧ (l' = [] ∨ l'.head? = some 0x28) := by
  obtain ⟨name, m', hspan, hm'⟩ : ∃ name m',
      spanWhile LineError.past (fun c => c != 0 && !(cstr "(").contains c) (l ++ [0]) = .ok (name, m') ∧ 0 ∈ m' :=
    spares_spanWhile rfl _ (by simp)
  obtain ⟨hm, -, c, p, rfl, hc⟩ := spanWhile_eq_ok.1 hspan
  obtain ⟨l', hl', rfl⟩ := append_sentinel hm (List.cons_ne_nil c p)
  refine ⟨name, l', rfl, ?_, ?_⟩
  · unfold getStr
    rw [bind_of_ok hspan, ← hl']
    rfl
  · cases l' with
    | nil => exact .inl rfl
    | cons e l' =>
      obtain ⟨rfl, -⟩ := List.cons.inj hl'
      have h0 : c ≠ 0 := fun h => hzero (by simp [h])
      have hparen : c = 0x28 := by simpa [cstr, h0] using hc
      exact .inr (congrArg some hparen)

/-- The parenthesis or the two in front of the zero. -/
theorem unopened_zero (l : List Byte) : ∃ text, Opened true (0x28 :: l) text ∧ unopened (l ++ [0]) = text ++ [0] := by
  cases l with
  | nil => exact ⟨[], .once [], rfl⟩
  | cons c l =>
    by_cases hc : c = 0x28
    · subst hc
      exact ⟨l, .twice rfl l, rfl⟩
    · exact ⟨c :: l, .once _, if_neg fun h => hc (Option.some.inj h)⟩

/-- What a call comes to in front of the zero. -/
theorem parseCall_zero (hzero : 0 ∉ l) (hl : l = [] ∨ l.head? = some 0x28) :
    (∃ e, parseCall s d (l ++ [0]) = .error e ∧ e ≠ .past) ∨
      ∃ types text, argTypes (maxCmdArgs - 1) d.ptype = some types ∧ Opened true l text ∧
        (CutArguments d true types text ∨ ∃ text' rest args, text = text' ++ rest ∧ Arguments true d true types text' args) := by
  rcases hl with rfl | hhead
  · exact .inl ⟨.expected 0x28, rfl, nofun⟩
  obtain ⟨l, rfl⟩ := List.head?_eq_some_iff.1 hhead
  cases htypes : argTypes (maxCmdArgs - 1) d.ptype with
  | none =>
    refine .inl ⟨.badlyDefined, ?_, nofun⟩
    have hopen : expect LineError.past (.expected 0x28) 0x28 (0x28 :: (l ++ [0])) = .ok ((), l ++ [0]) := expect_eq_ok.2 rfl
    unfold parseCall
    rw [List.cons_append, bind_of_ok (skipSpaces_cons rfl (l ++ [0])), bind_of_ok hopen, htypes]
    rfl
  | some types =>
    obtain ⟨text, hopened, htext⟩ := unopened_zero l
    have hne : l ++ [0] ≠ [] := by simp
    have hcall := parseCall_opened (s := s) htypes hne
    have hzero' : 0 ∉ text := by
      intro hmem
      refine hzero ?_
      cases hopened <;> simp [hmem]
    rcases argsEnd (mem_argTypes htypes) hzero' with ⟨e, he, h⟩ | ⟨hcut, -⟩ | ⟨text', rest, args, hl, hargs, -⟩
    · refine .inl ⟨e, ?_, he⟩
      rw [List.cons_append, hcall, htext]
      exact bind_eq_error.2 (.inl h)
    · exact .inr ⟨types, text, rfl, hopened, .inl hcut⟩
    · exact .inr ⟨types, text, rfl, hopened, .inr ⟨text', rest, args, hl, hargs⟩⟩

theorem lineEnd (hzero : 0 ∉ l) : LineEnd cmds s l := by
  obtain ⟨sp, l₁, rfl, hsp, hskip⟩ := skipSpaces_zero l
  have hl₁ : 0 ∉ l₁ := fun h => hzero (List.mem_append_right _ h)
  have herror : ∀ {e : LineError}, e ≠ .past → parseLine cmds s (sp ++ l₁ ++ [0]) = .error e → LineEnd cmds s (sp ++ l₁) := by
    intro e he h
    refine .error e he ?_
    unfold lineCall
    rw [h]
    rfl
  obtain ⟨blank, hblank⟩ := isBlank_zero l₁
  obtain ⟨name, l₂, rfl, hstr, hl₂⟩ := getStr_zero hl₁
  cases blank with
  | true =>
    refine herror (e := .blank) nofun ?_
    unfold parseLine
    rw [bind_of_ok hskip, bind_of_ok hblank]
    rfl
  | false =>
    have hstart : parseLine cmds s (sp ++ (name ++ l₂) ++ [0]) = (getStr 128 (cstr "(") >>= callNamed cmds s) (name ++ l₂ ++ [0]) := by
      unfold parseLine
      rw [bind_of_ok hskip, bind_of_ok hblank]
      rfl
    rw [bind_of_ok hstr] at hstart
    cases hfind : qeFindCmd cmds (hyphened (name.take 127)) with
    | none =>
      refine herror (e := .unknownCommand) nofun (hstart.trans ?_)
      rw [callNamed, hfind]
      rfl
    | some d =>
      have hparse : parseLine cmds s (sp ++ (name ++ l₂) ++ [0]) = parseCall s d (l₂ ++ [0]) := by rw [hstart, callNamed, hfind]
      have hname : name.take 127 = name := by
        have hlen := (name_of_qeFindCmd hfind).2.length
        rw [List.length_take] at hlen
        exact List.take_of_length_le (by omega)
      rw [hname] at hfind
      rcases parseCall_zero (s := s) (d := d) (fun h => hl₁ (List.mem_append_right _ h)) hl₂ with
        ⟨e, h, he⟩ | ⟨types, text, htypes, hopened, hcut | ⟨text', rest, args, rfl, hargs⟩⟩
      · exact herror he (hparse.trans h)
      · exact .cut ⟨name, d, hfind, sp, l₂, types, text, (List.append_assoc _ _ _).symm, hsp, htypes, hopened, hcut⟩
      · exact .found name d args hfind ⟨sp, l₂, types, text', rest, (List.append_assoc _ _ _).symm, hsp, htypes, hopened, hargs⟩

/-! ## What is passed -/

theorem wrapInt_clampLong_iff {n : Int} : wrapInt (clampLong n) = n ↔ InInt n := by
  unfold clampLong wrapInt InInt
  omega

/-- A string is no longer than what stands for it, and has a zero only if that has one. -/
theorem Quoted.bounds {t str : List Byte} (h : Quoted t str) : str.length ≤ t.length ∧ (0 ∈ str → 0 ∈ t) := by
  induction h with
  | nil => exact ⟨Nat.le_refl _, id⟩
  | char _ _ _ ih =>
    refine ⟨Nat.succ_le_succ ih.1, fun h => ?_⟩
    rcases List.mem_cons.1 h with h | h
    · exact h ▸ List.mem_cons_self
    · exact List.mem_cons_of_mem _ (ih.2 h)
  | @escape c t str _ ih =>
    refine ⟨Nat.succ_le_succ (Nat.le_succ_of_le ih.1), fun h => ?_⟩
    rcases List.mem_cons.1 h with h | h
    · have hc : c = 0 := by
        unfold unescape at h
        split_ifs at h
        exact h.symm
      simp [hc]
    · exact List.mem_cons_of_mem _ (List.mem_cons_of_mem _ (ih.2 h))

/-- An argument is passed as it is, if it fits. -/
theorem Argument.passed_eq {loose : Bool} {type : Byte} {t : List Byte} {arg : CmdArg} (h : Argument loose type t arg) (hzero : 0 ∉ t)
    (hlen : t.length ≤ 1023) (hint : ∀ n, arg = .int (some n) → InInt n) : passed arg = arg := by
  cases h with
  | int _ h => exact congrArg (fun n => CmdArg.int (some n)) (wrapInt_clampLong_iff.2 (hint _ rfl))
  | missing => rfl
  | @string t str h =>
    obtain ⟨hle, hmem⟩ := h.bounds
    have hstr : 0 ∉ str := fun h0 => hzero (by simp [hmem h0])
    have htake : str.take 1023 = str := List.take_of_length_le (by simp at hlen; omega)
    have hwhile : str.takeWhile (· != 0) = str := by
      refine List.takeWhile_eq_self_iff.2 fun c hc => bne_iff_ne.2 ?_
      rintro rfl
      exact hstr hc
    change CmdArg.string (some ((str.take 1023).takeWhile (· != 0))) = _
    rw [htake, hwhile]

/-- So are all the arguments of a line. -/
theorem Arguments.map_passed {loose : Bool} {first : Bool} {types text : List Byte} {args : List CmdArg}
    (h : Arguments loose d first types text args) (hzero : 0 ∉ text) (hlen : text.length ≤ 1023)
    (hint : ∀ n, CmdArg.int (some n) ∈ args → InInt n) : args.map passed = args := by
  induction h with
  | close => rfl
  | pseudo harg _ ih =>
    rw [List.map_cons, passed_pseudoArg harg, ih hzero hlen fun n hn => hint n (List.mem_cons_of_mem _ hn)]
  | arg _ _ harg _ ih =>
    simp only [List.length_append] at hlen
    simp only [List.mem_append, not_or] at hzero
    rw [List.map_cons, ih hzero.2 (by omega) fun n hn => hint n (List.mem_cons_of_mem _ hn),
      harg.passed_eq hzero.1.2 (by omega) fun n hn => hint n (hn ▸ List.mem_cons_self)]

/-! ## Lines -/

/-- A name without underscores is found. -/
theorem qeFindCmd_of_commandNamed (h : commandNamed cmds name = some d) (hunder : 0x5f ∉ d.name) : qeFindCmd cmds (hyphened name) = some d := by
  obtain ⟨hd, before, after, rfl, hbefore⟩ := List.find?_eq_some_iff_append.1 h
  refine List.find?_eq_some_iff_append.2 ⟨?_, before, after, rfl, fun e he => ?_⟩
  · rw [beq_iff_eq] at hd ⊢
    rw [← hd, hyphened_eq_self hunder]
  · have hne := hbefore e he
    simp only [Bool.not_eq_true', beq_eq_false_iff_ne] at hne ⊢
    intro heq
    exact hne (by rw [heq, hyphened_hyphened])

/-- A line that has the shape is read, whatever is behind it. -/
theorem lineCall_shaped {args : List CmdArg} (h : Shaped cmds line d args) (hunder : 0x5f ∉ d.name) (hzero : 0 ∉ line) (rest : List Byte) :
    lineCall cmds s (line ++ 0 :: rest) = .ok (d, .window s :: args.map passed) := by
  obtain ⟨name, hname, hcalls⟩ := h
  exact lineCall_calls (qeFindCmd_of_commandNamed hname hunder) hcalls hzero rest

/-- The arguments of a line of the shape are passed as they are if and only if the integers fit. -/
theorem Shaped.map_passed_iff {args : List CmdArg} (h : Shaped cmds line d args) (hzero : 0 ∉ line) (hlen : line.length ≤ 1023) :
    args.map passed = args ↔ ∀ n, CmdArg.int (some n) ∈ args → InInt n := by
  obtain ⟨name, hname, ⟨sp, opened, types, text, rest, rfl, -, -, hopened, hargs⟩⟩ := h
  constructor
  · intro hmap n hn
    have hpassed := List.map_inj_left.1 (hmap.trans (List.map_id args).symm) _ hn
    exact wrapInt_clampLong_iff.1 (Option.some.inj (CmdArg.int.inj hpassed))
  · cases hopened with
    | once =>
      simp only [List.mem_append, List.mem_cons, not_or, List.length_append, List.length_cons] at hzero hlen
      exact hargs.map_passed hzero.2.2.1 (by omega)
    | twice h => nomatch h

/-- A call is one of a command whose name has no underscore, by a line of the loose shape. -/
theorem loose_of_lineCall {call : ConfigCmd × List CmdArg} (hzero : 0 ∉ line) (h : lineCall cmds s (line ++ [0]) = .ok call) :
    0x5f ∉ call.1.name := by
  rcases lineEnd hzero with ⟨e, -, herror⟩ | ⟨name, d, hfind, hcut⟩ | ⟨name, d, args, hfind, hcalls⟩
  · nomatch h.symm.trans herror
  · nomatch h.symm.trans (lineCall_cut hfind hcut hzero)
  · obtain rfl := Except.ok.inj (h.symm.trans (lineCall_calls hfind hcalls hzero []))
    exact (name_of_qeFindCmd hfind).1 ▸ underscore_notMem_hyphened name

/-- What a line comes to does not depend on what is behind its end, unless it is read past it. -/
theorem lineCall_local (h : lineCall cmds s (line ++ [0]) ≠ .error .past) (rest : List Byte) :
    lineCall cmds s (line ++ 0 :: rest) = lineCall cmds s (line ++ [0]) := by
  have hpast : parseLine cmds s (line ++ [0]) ≠ .error .past := by
    intro hpast
    unfold lineCall at h
    rw [hpast] at h
    exact h rfl
  have hfound := (local_parseLine cmds s).found hpast rest
  rwa [List.append_assoc] at hfound

/-- A line from the array, which has no zero: it comes to one call of the command that it has the shape of, or to none, whatever is
behind it, if and only if it is not cut off inside of a string, it has the shape itself if it has the loose one, and where it has the
shape, the name of the command has no underscore and the integers fit. -/
theorem lineRight_iff (hzero : 0 ∉ line) (hlen : line.length ≤ 1023) : LineRight cmds s line ↔ LineFits cmds line := by
  constructor
  · rintro ⟨call, hcall, hpast, hshape, hnone⟩
    have hhyphens : ∀ d args, Shaped cmds line d args → 0x5f ∉ d.name := fun d args h =>
      loose_of_lineCall hzero ((hcall []).trans (hshape d args h))
    refine ⟨?_, ?_, hhyphens, ?_⟩
    · rintro ⟨name, d, hfind, hcut⟩
      exact hpast ((hcall []).symm.trans (lineCall_cut hfind hcut hzero))
    · rintro ⟨name, d, args, hfind, hcalls⟩
      by_contra hshaped
      refine hnone (fun d args h => hshaped ⟨d, args, h⟩) _ ((hcall []).symm.trans (lineCall_calls hfind hcalls hzero []))
    · intro d args h
      have hargs := (lineCall_shaped h (hhyphens d args h) hzero []).symm.trans ((hcall []).trans (hshape d args h))
      simp only [Except.ok.injEq, Prod.mk.injEq, List.cons.injEq, true_and] at hargs
      exact (h.map_passed_iff hzero hlen).1 hargs
  · rintro ⟨hended, hstrict, hhyphens, hints⟩
    have hrun : ∀ d args, Shaped cmds line d args → ∀ rest, lineCall cmds s (line ++ 0 :: rest) = .ok (d, .window s :: args) := by
      intro d args h rest
      rw [lineCall_shaped h (hhyphens d args h) hzero, (h.map_passed_iff hzero hlen).2 (hints d args h)]
    rcases lineEnd hzero with ⟨e, he, herror⟩ | hcut | ⟨name, d, args, hfind, hcalls⟩
    · have hpast : lineCall cmds s (line ++ [0]) ≠ .error .past := by
        rw [herror]
        exact fun h => he (Except.error.inj h)
      refine ⟨.error e, fun rest => (lineCall_local hpast rest).trans herror, fun h => he (Except.error.inj h), ?_, fun _ => nofun⟩
      intro d args h
      nomatch herror.symm.trans (hrun d args h [])
    · exact absurd hcut hended
    · obtain ⟨d, args, hshaped⟩ := hstrict ⟨name, d, args, hfind, hcalls⟩
      refine ⟨.ok (d, .window s :: args), hrun d args hshaped, nofun, ?_, fun h => absurd hshaped (h d args)⟩
      intro d' args' h
      exact (hrun d args hshaped []).symm.trans (hrun d' args' h [])

/-- `set-tab-width`, which takes an integer. -/
def setTabWidth : ConfigCmd := ⟨⟨cstr "i{Tab width: }", 0, false⟩, cstr "set-tab-width", by decide⟩

/-- A line with spaces, an underscore and a hexadecimal number. -/
theorem lineRight_setTabWidth :
    LineRight [setTabWidth] 0 (cstr " set_tab-width( 0x10 );\n") ↔ LineFits [setTabWidth] (cstr " set_tab-width( 0x10 );\n") :=
  lineRight_iff (by decide) (by decide)

/-- Without an integer, the line does not have the shape. -/
theorem not_shaped_setTabWidth (d : ConfigCmd) (args : List CmdArg) : ¬ Shaped [setTabWidth] (cstr "set-tab-width()\n") d args := by
  rintro ⟨name, hname, ⟨sp, opened, types, text, rest, hline, -, htypes, hopened, hargs⟩⟩
  obtain rfl : d = setTabWidth := List.mem_singleton.1 (List.mem_of_find?_eq_some hname)
  obtain rfl : types = [0x69] := Option.some.inj (htypes.symm.trans (by decide))
  cases hopened with
  | twice h => nomatch h
  | once =>
    have hsplit : cstr "set-tab-width" ++ 0x28 :: [0x29, 10] = sp ++ name ++ 0x28 :: (text ++ rest) := hline
    obtain ⟨-, -, htext⟩ := (List.append_cons_inj_of_notMem (by decide) (by decide)).1 hsplit
    cases hargs with
    | pseudo harg => nomatch harg
    | @arg _ _ _ sep t text' arg args' hreal hsep harg hargs =>
      cases harg with
      | missing h => nomatch h
      | @int blank t n hblank h =>
        obtain ⟨c, p, rfl, hc⟩ := integer_head h
        have hmem : c ∈ [0x29, 10] := by
          rw [htext]
          simp
        have hbyte : c = 0x29 ∨ c = 10 := by simpa using hmem
        rcases hbyte with rfl | rfl <;> rcases hc with hc | hc | ⟨base, hc⟩ <;> nomatch hc

/-- A line without the integer that the command takes, and a line that ends in a backslash inside of a string. -/
theorem not_lineRight :
    ¬ LineRight [setTabWidth] 0 (cstr "set-tab-width()\n") ∧
    ¬ LineRight [⟨⟨cstr "s", 0, false⟩, cstr "set-style", by decide⟩] 0 (cstr "set-style(\"a\\") := by
  constructor
  · rintro ⟨call, hcall, -, -, hnone⟩
    have hrun : lineCall [setTabWidth] 0 (cstr "set-tab-width()\n" ++ [0]) = .ok (setTabWidth, [.window 0, .int (some 0)]) := by
      decide +kernel
    exact hnone not_shaped_setTabWidth _ ((hcall []).symm.trans hrun)
  · rintro ⟨call, hcall, hpast, -, -⟩
    exact hpast ((hcall []).symm.trans (by decide +kernel))

/-! ## Files -/

/-- The lines fit the array, and are of the file. -/
theorem fgetsLines_mem {size : Nat} {read file line : List Byte} (hread : read.length + 2 ≤ size) (h : line ∈ fgetsLines size read file) :
    line.length + 1 ≤ size ∧ ∀ c ∈ line, c ∈ read ∨ c ∈ file := by
  induction file generalizing read with
  | nil =>
    unfold fgetsLines at h
    split_ifs at h
    · nomatch h
    · rw [List.mem_singleton.1 h]
      exact ⟨by omega, fun c hc => .inl hc⟩
  | cons c file ih =>
    have hlen : (read ++ [c]).length = read.length + 1 := by simp
    have hsnoc : ∀ e ∈ read ++ [c], e ∈ read ∨ e ∈ c :: file := by
      intro e he
      refine (List.mem_append.1 he).imp_right fun h => ?_
      rw [List.mem_singleton.1 h]
      exact List.mem_cons_self
    unfold fgetsLines at h
    simp only at h
    split_ifs at h with hend
    · rcases List.mem_cons.1 h with rfl | h
      · exact ⟨by omega, hsnoc⟩
      · obtain ⟨hline, hmem⟩ := ih (Nat.le_trans (Nat.add_le_add_right (Nat.zero_le _) 2) hread) h
        exact ⟨hline, fun e he => .inr (List.mem_cons_of_mem _ ((hmem e he).resolve_left nofun))⟩
    · obtain ⟨hline, hmem⟩ := ih (by omega) h
      refine ⟨hline, fun e he => ?_⟩
      rcases hmem e he with he | he
      · exact hsnoc e he
      · exact .inr (List.mem_cons_of_mem _ he)

/-- The lines of a file come one by one to what each of them does alone, where none is read past its end. -/
theorem callsOf_eq {lines : List (List Byte)} (h : ∀ line ∈ lines, lineCall cmds s (line ++ [0]) ≠ .error .past) (array : List Byte) :
    callsOf cmds s array lines = lines.map fun line => lineCall cmds s (line ++ [0]) := by
  induction lines generalizing array with
  | nil => rfl
  | cons line lines ih =>
    obtain ⟨hline, hlines⟩ := List.forall_mem_cons.1 h
    rw [callsOf, List.map_cons, ih hlines, lineCall_local hline]

/-- The lines of a file without zeros, where each is as it should be, come one by one to what each of them does alone. -/
theorem parseConfigFile_eq {file : List Byte} (hzero : 0 ∉ file) (h : ∀ line ∈ fgetsLines 1024 [] file, ¬ CutOff cmds line)
    (array : List Byte) :
    parseConfigFile cmds s array file = (fgetsLines 1024 [] file).map fun line => lineCall cmds s (line ++ [0]) := by
  refine callsOf_eq (fun line hline => ?_) array
  have hline0 : 0 ∉ line := fun hmem => hzero (((fgetsLines_mem (by decide) hline).2 0 hmem).resolve_left nofun)
  intro hpast
  rcases lineEnd hline0 with ⟨e, he, herror⟩ | hcut | ⟨name, d, args, hfind, hcalls⟩
  · exact he (Except.error.inj (herror.symm.trans hpast))
  · exact h line hline hcut
  · nomatch hpast.symm.trans (lineCall_calls hfind hcalls hline0 [])

/-- `set-style`, which takes a string. -/
def setStyle : ConfigCmd := ⟨⟨cstr "s", 0, false⟩, cstr "set-style", by decide⟩

/-- A file with an escape inside of a string, and a line after it that is shorter. -/
def styleFile : List Byte := cstr "set_style(\"a\\n\");\nset-style(\"b\")\n"

/-- Each line calls the command. -/
theorem parseConfigFile_style :
    parseConfigFile [setStyle] 0 [] styleFile = (fgetsLines 1024 [] styleFile).map (fun line => lineCall [setStyle] 0 (line ++ [0])) ∧
      (fgetsLines 1024 [] styleFile).map (fun line => lineCall [setStyle] 0 (line ++ [0])) =
        [.ok (setStyle, [.window 0, .string (some (cstr "a\n"))]), .ok (setStyle, [.window 0, .string (some (cstr "b"))])] := by
  have hcalls : ∀ line ∈ fgetsLines 1024 [] styleFile, 0 ∉ line ∧ lineCall [setStyle] 0 (line ++ [0]) ≠ .error .past := by
    decide +kernel
  refine ⟨parseConfigFile_eq (by decide) ?_ [], by decide +kernel⟩
  rintro line hline ⟨name, d, hfind, hcut⟩
  exact (hcalls line hline).2 (lineCall_cut hfind hcut (hcalls line hline).1)

end ConfigFile

end Hoe
