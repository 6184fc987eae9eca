import Hoe.Lemmas.Colorize
import Hoe.Theorems.Notify

/-!
# The colorizer against colorizing from scratch

`Valid` holds between any two events: the states that will be kept are those of a fold over the part of the text in front of the
first change. An edit makes that part shorter and changes nothing in it. A call of `get_colorized_line` goes on from the last kept
state; what it stores is the fold when the lines fit the array of the caller and the states fit an unsigned char. Each caller has
an array of its own, but all share the states.
-/

namespace Hoe

open Splice

/-- The state in front of a line, from scratch: the colorize function on the lines before it, from state zero. -/
def stateBefore (colorize : ColorizeFunc) (r : Reader) : Nat → Int
  | 0 => 0
  | n + 1 => (colorize (r.line n) (stateBefore colorize r n)).2

/-- The lines up to this one fit the caller's array, and the states up to the one behind it an unsigned char. -/
structure LinesFit (colorize : ColorizeFunc) (r : Reader) (bufSize n : Nat) : Prop where
  chars : ∀ l ≤ n, (r.line l).length ≤ bufSize - 1
  states : ∀ l ≤ n + 1, 0 ≤ stateBefore colorize r l ∧ stateBefore colorize r l < 256

theorem keptState_eq {state : Int} (h : 0 ≤ state ∧ state < 256) : (keptState state : Int) = state := by
  rw [keptState, Int.emod_eq_of_lt h.1 h.2]
  omega

/-- The states in front of lines that begin in a text are the same when more follows it. -/
theorem stateBefore_append (colorize : ColorizeFunc) (charset : Charset) {text : List Byte} (more stack stack' : List Byte) {n : Nat}
    (hn : n ≤ text.count newline) :
    stateBefore colorize ⟨text ++ more, charset, stack⟩ n = stateBefore colorize ⟨text, charset, stack'⟩ n := by
  induction n with
  | zero => rfl
  | succ n ih => rw [stateBefore, stateBefore, ih (by omega), Reader.line_prefix (by omega) stack stack']

/-- The states in front of lines do not depend on the stack. -/
theorem stateBefore_stack (colorize : ColorizeFunc) (charset : Charset) {text : List Byte} (stack stack' : List Byte) {n : Nat}
    (hn : n ≤ text.count newline) :
    stateBefore colorize ⟨text, charset, stack⟩ n = stateBefore colorize ⟨text, charset, stack'⟩ n := by
  have h := stateBefore_append colorize charset [] stack stack' hn
  rwa [List.append_nil] at h

/-! ## What the states are worth -/

/-- The part of the text whose states will be kept: all in front of the first change. -/
def Colorizer.validText (c : Colorizer) : List Byte :=
  match c.states.maxValidOffset with
  | none => c.buffer.bytes
  | some offset => c.buffer.bytes.take offset

/-- The kept states of the lines that begin in that part are those from scratch. -/
structure Colorizer.Valid (c : Colorizer) (colorize : ColorizeFunc) (charset : Charset) : Prop where
  ok : c.buffer.Ok
  states : ∀ l < c.states.nbValidLines, l ≤ c.validText.count newline →
    (c.states.states l : Int) = stateBefore colorize ⟨c.validText, charset, []⟩ l

/-- The change was reported: the text is as it was in front of every offset that is not behind a reported one. -/
def Reported (t t' : Pages) (offsets : List Nat) : Prop :=
  ∀ n, (∀ o ∈ offsets, n ≤ o) → t'.bytes.take n = t.bytes.take n

/-- The callback keeps the least of the offsets, and changes nothing else. -/
theorem colorizeCallbacks_spec (s : ColorizeStates) (offsets : List Nat) :
    (offsets.foldl colorizeCallback s).states = s.states ∧ (offsets.foldl colorizeCallback s).nbValidLines = s.nbValidLines ∧
      ((offsets = [] ∧ s.maxValidOffset = none ∧ (offsets.foldl colorizeCallback s).maxValidOffset = none) ∨
        ∃ m, (offsets.foldl colorizeCallback s).maxValidOffset = some m ∧ (∀ o ∈ offsets, m ≤ o) ∧
          ∀ m₀, s.maxValidOffset = some m₀ → m ≤ m₀) := by
  induction offsets generalizing s with
  | nil =>
    refine ⟨rfl, rfl, ?_⟩
    cases hmax : s.maxValidOffset with
    | none => exact Or.inl ⟨rfl, rfl, hmax⟩
    | some m => exact Or.inr ⟨m, hmax, by simp, fun m₀ h => (Option.some_inj.1 h).le⟩
  | cons o offsets ih =>
    obtain ⟨h1, h2, h3⟩ := ih (colorizeCallback s o)
    obtain ⟨m, hm, hmo, hms, hstates, hvalid⟩ : ∃ m, (colorizeCallback s o).maxValidOffset = some m ∧ m ≤ o ∧
        (∀ m₀, s.maxValidOffset = some m₀ → m ≤ m₀) ∧ (colorizeCallback s o).states = s.states ∧
        (colorizeCallback s o).nbValidLines = s.nbValidLines := by
      rw [colorizeCallback]
      cases hmax : s.maxValidOffset with
      | none => exact ⟨o, rfl, le_rfl, by simp, rfl, rfl⟩
      | some m₀ =>
        dsimp only
        split_ifs with hlt
        · exact ⟨o, rfl, le_rfl, fun m₁ h => by rw [← Option.some_inj.1 h]; exact hlt.le, rfl, rfl⟩
        · exact ⟨m₀, hmax, by omega, fun m₁ h => (Option.some_inj.1 h).le, rfl, rfl⟩
    rw [List.foldl_cons]
    refine ⟨h1.trans hstates, h2.trans hvalid, Or.inr ?_⟩
    rcases h3 with ⟨_, hnone, _⟩ | ⟨m', hm', hle, hold⟩
    · rw [hm] at hnone
      nomatch hnone
    · have hmm : m' ≤ m := hold m hm
      refine ⟨m', hm', ?_, fun m₀ h => hmm.trans (hms m₀ h)⟩
      intro o' ho'
      rcases List.mem_cons.1 ho' with rfl | ho'
      · exact hmm.trans hmo
      · exact hle o' ho'

/-- A reported change leaves a part of what was valid. -/
theorem Reported.validText {c : Colorizer} {t : Pages} {offsets : List Nat} (h : Reported c.buffer t offsets) :
    ∃ more, c.validText =
      Colorizer.validText { buffer := t, states := offsets.foldl colorizeCallback c.states } ++ more := by
  rcases (colorizeCallbacks_spec c.states offsets).2.2 with ⟨hnil, hnone, hnone'⟩ | ⟨m, hm, hle, hold⟩
  · have hsame : t.bytes = c.buffer.bytes := by
      have htake := h (max t.bytes.length c.buffer.bytes.length) (by rw [hnil]; simp)
      rwa [List.take_of_length_le (Nat.le_max_left _ _), List.take_of_length_le (Nat.le_max_right _ _)] at htake
    refine ⟨[], ?_⟩
    rw [Colorizer.validText, Colorizer.validText, hnone]
    dsimp only
    rw [hnone', hsame, List.append_nil]
  · have hsame := h m hle
    rw [Colorizer.validText, Colorizer.validText]
    dsimp only
    rw [hm]
    dsimp only
    rw [hsame]
    cases hmax : c.states.maxValidOffset with
    | none => exact ⟨_, (List.take_append_drop m _).symm⟩
    | some m₀ =>
      refine ⟨(c.buffer.bytes.take m₀).drop m, ?_⟩
      dsimp only
      have htake : (c.buffer.bytes.take m₀).take m = c.buffer.bytes.take m := by
        rw [List.take_take, Nat.min_eq_left (hold m₀ hmax)]
      rw [← htake, List.take_append_drop]

/-- An edit keeps `Valid`. -/
theorem Colorizer.Valid.edit {c : Colorizer} {colorize : ColorizeFunc} {charset : Charset} (hc : c.Valid colorize charset)
    {t : Pages} (ht : t.Ok) {offsets : List Nat} (h : Reported c.buffer t offsets) :
    (c.run colorize charset (.edit t offsets)).Valid colorize charset := by
  obtain ⟨hstates, hvalid, _⟩ := colorizeCallbacks_spec c.states offsets
  obtain ⟨more, hmore⟩ := h.validText
  refine ⟨ht, ?_⟩
  intro l hl hcount
  rw [Colorizer.run] at hl hcount ⊢
  dsimp only at hl ⊢
  rw [hvalid] at hl
  have hbefore : l ≤ c.validText.count newline := by
    rw [hmore, List.count_append]
    omega
  rw [hstates, hc.states l hl hbefore, hmore, stateBefore_append colorize charset more [] [] hcount]

/-! ## One call -/

/-- Going through the lines stores the states from scratch, when the lines and the states fit. -/
theorem propagate_spec (colorize : ColorizeFunc) (r : Reader) (bufSize n l : Nat) (hcount : l + n ≤ r.text.count newline)
    (hchars : ∀ k < l + n, (r.line k).length ≤ bufSize - 1) (states : Nat → Nat) :
    (∀ k < l + 1, propagate colorize r bufSize n (l + 1) (skipLines l r.text : Nat) (stateBefore colorize r l) states k = states k) ∧
      ∀ k, l + 1 ≤ k → k < l + 1 + n →
        propagate colorize r bufSize n (l + 1) (skipLines l r.text : Nat) (stateBefore colorize r l) states k =
          keptState (stateBefore colorize r k) := by
  induction n generalizing l states with
  | zero => exact ⟨fun _ _ => rfl, fun k h1 h2 => by omega⟩
  | succ n ih =>
    have hline : (ebGetLine r (bufSize - 1) (skipLines l r.text : Nat)).1 = r.line l := by
      rw [Reader.ebGetLine_chars, List.take_of_length_le (hchars l (by omega))]
    obtain ⟨h1, h2⟩ := ih (l + 1) (by omega) (fun k hk => hchars k (by omega))
      (Function.update states (l + 1) (keptState (stateBefore colorize r (l + 1))))
    rw [propagate]
    rw [hline, Reader.ebGetLine_next (by omega)]
    refine ⟨?_, ?_⟩
    · intro k hk
      exact (h1 k (by omega)).trans (Function.update_of_ne (by omega) _ _)
    · intro k hk1 hk2
      by_cases hk : k = l + 1
      · subst hk
        exact (h1 (l + 1) (by omega)).trans (Function.update_self _ _ _)
      · exact h2 k (by omega) (by omega)

/-- The first part of `get_colorized_line` leaves the states of the lines that are not changed. -/
theorem Colorizer.Valid.dropInvalid {c : Colorizer} {colorize : ColorizeFunc} {charset : Charset} (hc : c.Valid colorize charset) :
    (c.states.dropInvalid c.buffer charset).maxValidOffset = none ∧
      ∀ l < (c.states.dropInvalid c.buffer charset).nbValidLines, l ≤ c.buffer.bytes.count newline →
        ((c.states.dropInvalid c.buffer charset).states l : Int) = stateBefore colorize ⟨c.buffer.bytes, charset, []⟩ l := by
  have hstates := hc.states
  rw [Colorizer.validText] at hstates
  rw [ColorizeStates.dropInvalid]
  cases hmax : c.states.maxValidOffset with
  | none =>
    rw [hmax] at hstates
    exact ⟨hmax, hstates⟩
  | some m =>
    rw [hmax] at hstates
    dsimp only at hstates ⊢
    rw [ebGetPos_line hc.ok]
    refine ⟨rfl, ?_⟩
    intro l hl _
    have hl' : l < c.states.nbValidLines ∧ l ≤ (c.buffer.bytes.take m).count newline := by
      split_ifs at hl <;> omega
    rw [hstates l hl'.1 hl'.2]
    have happend := stateBefore_append colorize charset (c.buffer.bytes.drop m) [] [] hl'.2
    rw [List.take_append_drop] at happend
    exact happend.symm

/-- The line that the states are taken up from. -/
theorem start_spec {s : ColorizeStates} {colorize : ColorizeFunc} {r : Reader} {n : Nat} (hvalid : ¬n < s.nbValidLines)
    (hstates : ∀ l < s.nbValidLines, l ≤ n → (s.states l : Int) = stateBefore colorize r l) :
    ∃ k, s.start.nbValidLines = k + 1 ∧ k ≤ n ∧ ∀ l < k + 1, (s.start.states l : Int) = stateBefore colorize r l := by
  rw [ColorizeStates.start]
  split_ifs with hzero
  · refine ⟨0, rfl, Nat.zero_le n, ?_⟩
    intro l hl
    obtain rfl : l = 0 := by omega
    exact congrArg Nat.cast (Function.update_self 0 0 s.states)
  · exact ⟨s.nbValidLines - 1, by omega, by omega, fun l hl => hstates l (by omega) (by omega)⟩

/-- The states up to the line are those from scratch. -/
theorem reach_spec {s : ColorizeStates} {colorize : ColorizeFunc} {t : Pages} (ht : t.Ok) {r : Reader} (hr : r.text = t.bytes)
    {bufSize n : Nat} (hn : n ≤ r.text.count newline) (hchars : ∀ l < n, (r.line l).length ≤ bufSize - 1)
    (hfit : ∀ l ≤ n, 0 ≤ stateBefore colorize r l ∧ stateBefore colorize r l < 256)
    (hstates : ∀ l < s.nbValidLines, l ≤ n → (s.states l : Int) = stateBefore colorize r l) :
    ∀ l ≤ n, ((s.reach colorize t r bufSize n).states l : Int) = stateBefore colorize r l := by
  intro l hl
  rw [ColorizeStates.reach]
  split_ifs with hvalid
  · exact hstates l (by omega) hl
  · obtain ⟨k, hk, hkn, hbefore⟩ := start_spec hvalid hstates
    obtain ⟨hkept, hnew⟩ := propagate_spec colorize r bufSize (n - k) k (by omega) (fun j hj => hchars j (by omega)) s.start.states
    have hturns : n + 1 - (k + 1) = n - k := by omega
    rw [ColorizeStates.goOn, hk, hturns, Nat.add_sub_cancel, ebGotoPos_bol ht hr (by rw [← hr]; omega),
      hbefore k (Nat.lt_succ_self k), ← hr]
    dsimp only
    by_cases hlk : l < k + 1
    · rw [hkept l hlk, hbefore l hlk]
    · rw [hnew l (by omega) (by omega), keptState_eq (hfit l hl)]

theorem makeRoom_kept (s : ColorizeStates) (n : Nat) :
    (s.makeRoom n).states = s.states ∧ (s.makeRoom n).nbValidLines = s.nbValidLines ∧
      (s.makeRoom n).maxValidOffset = s.maxValidOffset := by
  rw [ColorizeStates.makeRoom]
  split_ifs <;> exact ⟨rfl, rfl, rfl⟩

theorem reach_maxValidOffset (s : ColorizeStates) (colorize : ColorizeFunc) (t : Pages) (r : Reader) (bufSize n : Nat) :
    (s.reach colorize t r bufSize n).maxValidOffset = s.maxValidOffset := by
  rw [ColorizeStates.reach, ColorizeStates.goOn, ColorizeStates.start]
  split_ifs <;> rfl

/-- The call returns the cells of the line, and leaves the states in front of it and behind it, as from scratch. -/
structure Agrees (colorize : ColorizeFunc) (r : Reader) (n : Nat) (result : List Nat × ColorizeStates) : Prop where
  cells : result.1 = (colorize (r.line n) (stateBefore colorize r n)).1
  before : (result.2.states n : Int) = stateBefore colorize r n
  behind : (result.2.states (n + 1) : Int) = stateBefore colorize r (n + 1)

/-- One call of `get_colorized_line` for a line of the text. -/
theorem Colorizer.Valid.getLine {c : Colorizer} {colorize : ColorizeFunc} {charset : Charset} (hc : c.Valid colorize charset)
    {bufSize n : Nat} {stack : List Byte} (hn : n ≤ c.buffer.bytes.count newline)
    (hfit : LinesFit colorize (c.reader charset stack) bufSize n) :
    Agrees colorize (c.reader charset stack) n (c.getLine colorize charset bufSize n stack) ∧
      (c.run colorize charset (.line bufSize n stack)).Valid colorize charset := by
  obtain ⟨r, hr⟩ : ∃ r, r = c.reader charset stack := ⟨_, rfl⟩
  have htext : r.text = c.buffer.bytes := by rw [hr]; rfl
  have hcount : n ≤ r.text.count newline := by rw [htext]; exact hn
  rw [← hr] at hfit
  obtain ⟨hnone, hdropped⟩ := hc.dropInvalid
  -- the states that are kept do not depend on the stack
  have hstack : ∀ l ≤ c.buffer.bytes.count newline,
      stateBefore colorize ⟨c.buffer.bytes, charset, []⟩ l = stateBefore colorize r l := by
    intro l hl
    rw [hr]
    exact stateBefore_stack colorize charset [] stack hl
  obtain ⟨hroom, hroomValid, hroomMax⟩ := makeRoom_kept (c.states.dropInvalid c.buffer charset) n
  obtain ⟨s, hs⟩ : ∃ s, s = ((c.states.dropInvalid c.buffer charset).makeRoom n).reach colorize c.buffer r bufSize n := ⟨_, rfl⟩
  have hreached : ∀ l ≤ n, (s.states l : Int) = stateBefore colorize r l := by
    rw [hs]
    refine reach_spec hc.ok htext hcount (fun l hl => hfit.chars l hl.le) (fun l hl => hfit.states l (Nat.le_succ_of_le hl)) ?_
    rw [hroom, hroomValid]
    intro l hl hl'
    rw [hdropped l hl (hl'.trans hn), hstack l (hl'.trans hn)]
  have hmax : s.maxValidOffset = none := by rw [hs, reach_maxValidOffset, hroomMax, hnone]
  have hline : (ebGetLine r (bufSize - 1) (skipLines n c.buffer.bytes : Nat)).1 = r.line n := by
    rw [← htext, Reader.ebGetLine_chars, List.take_of_length_le (hfit.chars n le_rfl)]
  have hget : c.getLine colorize charset bufSize n stack = ((colorize (r.line n) (stateBefore colorize r n)).1,
      { s with
        states := Function.update s.states (n + 1) (keptState (stateBefore colorize r (n + 1))), nbValidLines := n + 2 }) := by
    have hcharset : r.charset = charset := by rw [hr]; rfl
    rw [Colorizer.getLine, ← hr, getColorizedLine, hcharset, ← hs, hline, hreached n le_rfl]
    rfl
  have hstates : ∀ l < n + 2, (Function.update s.states (n + 1) (keptState (stateBefore colorize r (n + 1))) l : Int) =
      stateBefore colorize r l := by
    intro l hl
    by_cases hlast : l = n + 1
    · rw [hlast, Function.update_self, keptState_eq (hfit.states (n + 1) le_rfl)]
    · rw [Function.update_of_ne hlast, hreached l (by omega)]
  rw [← hr]
  refine ⟨?_, hc.ok, ?_⟩
  · rw [hget]
    exact ⟨rfl, hstates n (by omega), hstates (n + 1) (by omega)⟩
  · rw [Colorizer.run, Colorizer.validText, hget]
    dsimp only
    rw [hmax]
    dsimp only
    intro l hl hl'
    rw [hstates l hl, hstack l hl']

/-! ## A run -/

/-- What can come: a change that leaves a page table in order and is reported, a line of the text. -/
def Colorizer.Possible (c : Colorizer) : ColorizeEvent → Prop
  | .edit t offsets => t.Ok ∧ Reported c.buffer t offsets
  | .line _ n _ => n ≤ c.buffer.bytes.count newline

/-- The condition on a call: the lines and the states fit. -/
def Colorizer.Fits (c : Colorizer) (colorize : ColorizeFunc) (charset : Charset) : ColorizeEvent → Prop
  | .edit _ _ => True
  | .line bufSize n stack => LinesFit colorize (c.reader charset stack) bufSize n

/-- What a call is to give. -/
def Colorizer.Right (c : Colorizer) (colorize : ColorizeFunc) (charset : Charset) : ColorizeEvent → Prop
  | .edit _ _ => True
  | .line bufSize n stack => Agrees colorize (c.reader charset stack) n (c.getLine colorize charset bufSize n stack)

/-- Every event of the run can come where it comes. -/
def AllPossible (colorize : ColorizeFunc) (charset : Charset) (c : Colorizer) : List ColorizeEvent → Prop
  | [] => True
  | e :: es => c.Possible e ∧ AllPossible colorize charset (c.run colorize charset e) es

/-- Every call of the run meets the condition. -/
def AllFit (colorize : ColorizeFunc) (charset : Charset) (c : Colorizer) : List ColorizeEvent → Prop
  | [] => True
  | e :: es => c.Fits colorize charset e ∧ AllFit colorize charset (c.run colorize charset e) es

/-- Every call of the run gives what it is to give. -/
def AllRight (colorize : ColorizeFunc) (charset : Charset) (c : Colorizer) : List ColorizeEvent → Prop
  | [] => True
  | e :: es => c.Right colorize charset e ∧ AllRight colorize charset (c.run colorize charset e) es

theorem Colorizer.Valid.allRight {colorize : ColorizeFunc} {charset : Charset} {c : Colorizer} (hc : c.Valid colorize charset)
    {es : List ColorizeEvent} (hpossible : AllPossible colorize charset c es) (hfit : AllFit colorize charset c es) :
    AllRight colorize charset c es := by
  induction es generalizing c with
  | nil => trivial
  | cons e es ih =>
    obtain ⟨he, hes⟩ := hpossible
    obtain ⟨hfe, hfes⟩ := hfit
    cases e with
    | edit t offsets => exact ⟨trivial, ih (hc.edit he.1 he.2) hes hfes⟩
    | line bufSize n stack =>
      obtain ⟨hright, hvalid⟩ := hc.getLine he hfe
      exact ⟨hright, ih hvalid hes hfes⟩

/-- A window whose colorizer was just set. -/
def newColorizer (t : Pages) (memory : Nat → Nat) : Colorizer := { buffer := t, states := setColorizeFunc memory }

/-- In a run of reported changes and calls in any order, in which the lines up to the one that is asked for fit the array of the
caller and the states fit an unsigned char, every call gives what colorizing from scratch gives. -/
theorem colorizer_agrees {t : Pages} (ht : t.Ok) (memory : Nat → Nat) (charset : Charset) (colorize : ColorizeFunc)
    (es : List ColorizeEvent) (hpossible : AllPossible colorize charset (newColorizer t memory) es)
    (hfit : AllFit colorize charset (newColorizer t memory) es) : AllRight colorize charset (newColorizer t memory) es := by
  refine Colorizer.Valid.allRight ⟨ht, ?_⟩ hpossible hfit
  intro l hl
  exact absurd hl (Nat.not_lt_zero l)

/-! ## The edits of a buffer -/

/-- From the first document to the second, what was told reports the change. -/
def Doc.Reports (d d' : Doc) : Prop :=
  ∃ ns, d'.notes = d.notes ++ ns ∧ ∀ n, (∀ m ∈ ns, n ≤ m.offset) → d'.text.take n = d.text.take n

theorem Doc.Reports.refl (d : Doc) : d.Reports d := ⟨[], (List.append_nil _).symm, fun _ _ => rfl⟩

theorem Doc.Reports.trans {d d' d'' : Doc} (h : d.Reports d') (h' : d'.Reports d'') : d.Reports d'' := by
  obtain ⟨ns, hns, htext⟩ := h
  obtain ⟨ms, hms, htext'⟩ := h'
  refine ⟨ns ++ ms, by rw [hms, hns, List.append_assoc], ?_⟩
  intro n hn
  rw [htext' n fun m hm => hn m (List.mem_append_right _ hm), htext n fun m hm => hn m (List.mem_append_left _ hm)]

/-- A change that is told and leaves what is in front of its offset. -/
theorem Doc.reports_addlog (d : Doc) (op : LogOperation) {offset : Nat} (size : Nat) (ho : offset ≤ d.text.length) (rest : List Byte) :
    d.Reports { d.addlog op offset size with text := d.text.take offset ++ rest } := by
  refine ⟨[⟨op, offset, size⟩], by simp only [addlog_notes], ?_⟩
  intro n hn
  have hle : n ≤ offset := hn _ (List.mem_singleton_self _)
  rw [List.take_append_of_le_length (by rw [List.length_take]; omega), List.take_take, Nat.min_eq_left hle]

theorem Doc.reports_insert (d : Doc) {offset : Nat} (buf : List Byte) (ho : offset ≤ d.text.length) :
    d.Reports (d.insert offset buf) := by
  have h := d.reports_addlog .insert buf.length ho (buf ++ d.text.drop offset)
  rwa [← List.append_assoc] at h

theorem Doc.reports_insertBlock (d : Doc) {offset : Nat} (buf : List Byte) (ho : offset ≤ d.text.length) :
    d.Reports (d.insertBlock offset buf) := by
  rw [insertBlock]
  split_ifs
  · exact .refl d
  · exact d.reports_insert buf ho

theorem Doc.reports_delete (d : Doc) (offset size : Nat) : d.Reports (d.delete offset size) := by
  rw [delete]
  split_ifs with ho
  · exact .refl d
  · exact d.reports_addlog .delete size (Nat.le_of_not_le ho) _

theorem Doc.reports_overwrite (d : Doc) {offset : Nat} (buf : List Byte) (ho : offset ≤ d.text.length) :
    d.Reports (d.overwrite offset buf) := by
  rw [overwrite]
  split_ifs
  · exact .refl d
  · have h := d.reports_addlog .write buf.length ho (buf ++ d.text.drop (offset + buf.length))
    rwa [← List.append_assoc] at h

theorem Doc.reports_edit (d : Doc) {e : Edit} (he : e.InRange d.text.length) : d.Reports (e.apply d) :=
  Edit.apply_induct (fun d' _ buf h ho => h.trans (d'.reports_insert buf ho))
    (fun d' offset size h _ _ => h.trans (d'.reports_delete offset size))
    (fun d' _ buf h _ hs => h.trans (d'.reports_overwrite buf (by omega))) (.refl d) he

/-- Telling a change once more reports nothing new. -/
theorem Doc.reports_told (d : Doc) (op : LogOperation) (offset size : Nat) : d.Reports (d.addlog op offset size) :=
  ⟨[⟨op, offset, size⟩], addlog_notes _ _ _ _, fun _ _ => by rw [addlog_text]⟩

theorem Doc.reports_play (d : Doc) {e : LogEntry} (hfit : e.Fits d.text.length) : d.Reports (d.play e) := by
  cases e with
  | insert was offset size => exact d.reports_delete offset size
  | delete was offset data =>
    have h := Doc.reports_insertBlock { d with saveLog := false } data hfit
    exact Doc.Reports.trans h (Doc.reports_told _ .insert offset data.length)
  | write was offset data =>
    have hf : offset + data.length ≤ d.text.length := hfit
    have h := Doc.reports_delete { d with saveLog := false } offset data.length
    have hlen : offset ≤ (Doc.delete { d with saveLog := false } offset data.length).text.length := by
      rw [delete_text, length_removeAt _ hf]
      omega
    have h' := Doc.reports_insertBlock _ data hlen
    exact Doc.Reports.trans (h.trans h') (Doc.reports_told _ .write offset data.length)

theorem Doc.reports_undo (d : Doc) (chained : Bool) (h : ∀ e, (d.start chained).next = some e → e.Fits d.text.length) :
    d.Reports (d.undo chained).1 := by
  have hstart : d.Reports (d.start chained) := by
    rw [start]
    split_ifs
    · exact .refl d
    · exact .refl d
  rw [undo]
  split_ifs
  · rw [undoStep]
    cases hnext : (d.start chained).next with
    | none => exact hstart
    | some e =>
      have hfit : e.Fits (d.start chained).text.length := by
        rw [start_text]
        exact h e hnext
      exact hstart.trans (Doc.reports_play { d.start chained with pos := some ((d.start chained).left - 1) } hfit)
  · exact .refl d

/-- What a document reports, its buffer reports. -/
theorem Doc.Reports.reported {b b' : EditBuffer} {d d' : Doc} (hb : Stands b d) (hb' : Stands b' d') (h : d.Reports d') :
    b'.toPages.Ok ∧ ∃ ns, b'.notes = b.notes ++ ns ∧ Reported b.toPages b'.toPages (ns.map (·.offset)) := by
  obtain ⟨ns, hns, htext⟩ := h
  refine ⟨hb'.ok, ns, by rw [hb'.notes, hb.notes, hns], ?_⟩
  intro n hn
  have hd := htext n fun m hm => hn m.offset (List.mem_map_of_mem hm)
  rwa [← hb'.text, ← hb.text] at hd

/-- Every edit in range reports its change through the callback. -/
theorem edit_reported {b : EditBuffer} (hwf : b.WellFormed) {e : Edit} (he : e.InRange b.totalSize) :
    (e.run b).toPages.Ok ∧ ∃ ns, (e.run b).notes = b.notes ++ ns ∧
      Reported b.toPages (e.run b).toPages (ns.map (·.offset)) := by
  obtain ⟨d, hb⟩ := hwf
  exact Doc.Reports.reported hb (Edit.run_stands hb he) (d.reports_edit (hb.total ▸ he))

/-- A letter is inserted into a new buffer. -/
theorem edit_reported_letter : ((Edit.insert 0 [97]).run (EditBuffer.new true)).toPages.Ok ∧ ∃ ns,
    ((Edit.insert 0 [97]).run (EditBuffer.new true)).notes = (EditBuffer.new true).notes ++ ns ∧
      Reported (EditBuffer.new true).toPages ((Edit.insert 0 [97]).run (EditBuffer.new true)).toPages (ns.map (·.offset)) :=
  edit_reported ⟨_, new_stands true⟩ (e := .insert 0 [97]) (Nat.zero_le _)

/-- Every undo of an entry that fits the text reports its change through the callback. -/
theorem undo_reported {b : EditBuffer} (hwf : b.WellFormed) (chained : Bool)
    (hfit : ∀ lb ∈ pendingEntry chained b, lb.Fits b.totalSize) :
    (doUndo chained b).1.toPages.Ok ∧ ∃ ns, (doUndo chained b).1.notes = b.notes ++ ns ∧
      Reported b.toPages (doUndo chained b).1.toPages (ns.map (·.offset)) := by
  obtain ⟨d, hb⟩ := hwf
  have hnext (e : LogEntry) (he : (d.start chained).next = some e) : e.Fits d.text.length := by
    have h := hfit e.header (by rw [pendingEntry_eq hb, he]; rfl)
    rwa [hb.total, LogEntry.fits_iff] at h
  exact Doc.Reports.reported hb (doUndo_stands hb hnext).1 (d.reports_undo chained hnext)

/-- The letter is taken out again. -/
theorem undo_reported_letter : (doUndo false (ebInsert (EditBuffer.new true) 0 [97])).1.toPages.Ok ∧ ∃ ns,
    (doUndo false (ebInsert (EditBuffer.new true) 0 [97])).1.notes = (ebInsert (EditBuffer.new true) 0 [97]).notes ++ ns ∧
      Reported (ebInsert (EditBuffer.new true) 0 [97]).toPages (doUndo false (ebInsert (EditBuffer.new true) 0 [97])).1.toPages
        (ns.map (·.offset)) :=
  undo_reported ⟨_, ebInsert_stands (new_stands true) (Nat.zero_le _) [97]⟩ false (by decide)

/-! ## What does not fit -/

/-- The first call for the second line leaves the state behind as much of the first line as the array of the caller takes. -/
theorem getLine_truncated {t : Pages} (ht : t.Ok) (memory : Nat → Nat) (charset : Charset) (colorize : ColorizeFunc) (bufSize : Nat)
    (stack : List Byte) :
    ((newColorizer t memory).getLine colorize charset bufSize 1 stack).2.states 1 =
      keptState (colorize (((⟨t.bytes, charset, stack⟩ : Reader).line 0).take (bufSize - 1)) 0).2 := by
  have hbol := ebGotoPos_bol ht (r := ⟨t.bytes, charset, stack⟩) rfl (Nat.zero_le _)
  have hline := Reader.ebGetLine_chars ⟨t.bytes, charset, stack⟩ (bufSize - 1) 0
  rw [← hbol] at hline
  rw [← hline]
  rfl

/-- A buffer of two lines. -/
def twoLines (line : List Byte) : EditBuffer := ebInsert (EditBuffer.new false) 0 (line ++ [newline, 0x62])

theorem twoLines_stands (line : List Byte) :
    (twoLines line).toPages.Ok ∧ (twoLines line).bytes = line ++ [newline, 0x62] := by
  have h := ebInsert_stands (new_stands false) (Nat.zero_le _) (line ++ [newline, 0x62])
  refine ⟨h.ok, h.text.trans ?_⟩
  exact List.append_nil _

theorem twoLines_line {line : List Byte} (h : newline ∉ line) (stack : List Byte) :
    1 ≤ (twoLines line).bytes.count newline ∧ (⟨(twoLines line).bytes, .latin1, stack⟩ : Reader).line 0 = line := by
  rw [(twoLines_stands line).2]
  refine ⟨?_, ?_⟩
  · rw [List.count_append]
    exact Nat.le_add_left _ _
  · have hu : Charset.latin1 ≠ .utf8 := by decide
    rw [Reader.line_bytes hu, skipLines, List.drop_zero, List.takeWhile_append_of_pos]
    · rw [List.takeWhile_cons]
      exact List.append_nil _
    · intro c hc
      exact bne_iff_ne.2 fun hnewline => h (hnewline ▸ hc)

/-- A colorizer that goes on to state 1 behind a slash. -/
def slashColorize : ColorizeFunc := fun line state => (line, if 0x2f ∈ line then 1 else state)

theorem slashColorize_of_mem {line : List Nat} (h : 0x2f ∈ line) (state : Int) : (slashColorize line state).2 = 1 := by
  rw [slashColorize, if_pos h]

theorem slashColorize_of_not_mem {line : List Nat} (h : 0x2f ∉ line) (state : Int) : (slashColorize line state).2 = state := by
  rw [slashColorize, if_neg h]

/-- A line with a slash behind 600 other characters. -/
def slashLine : List Byte := List.replicate 600 0x61 ++ [0x2f]

instance (colorize : ColorizeFunc) (r : Reader) (bufSize n : Nat) : Decidable (LinesFit colorize r bufSize n) :=
  decidable_of_iff ((∀ l ≤ n, (r.line l).length ≤ bufSize - 1) ∧
      ∀ l ≤ n + 1, 0 ≤ stateBefore colorize r l ∧ stateBefore colorize r l < 256)
    ⟨fun h => ⟨h.1, h.2⟩, fun h => ⟨h.chars, h.states⟩⟩

/-- The display comes to the second line, the first loses its slash, and an indentation and the display come back. -/
theorem colorizer_agrees_edited :
    AllRight slashColorize .latin1 (newColorizer (twoLines [0x61, 0x2f]).toPages fun _ => 7)
      [.line coloredMaxLineSize 1 [], .edit (twoLines [0x61]).toPages [1], .line (maxBufSize - 1) 1 [1], .line coloredMaxLineSize 0 []] := by
  have hfit : LinesFit slashColorize ⟨(twoLines [0x61, 0x2f]).bytes, .latin1, []⟩ coloredMaxLineSize 1 := by decide
  have hfit' : LinesFit slashColorize ⟨(twoLines [0x61]).bytes, .latin1, [1]⟩ (maxBufSize - 1) 1 := by decide
  have hfit'' : LinesFit slashColorize ⟨(twoLines [0x61]).bytes, .latin1, []⟩ coloredMaxLineSize 0 := by decide
  have hcount : 1 ≤ (twoLines [0x61, 0x2f]).bytes.count newline := by decide
  have hcount' : 1 ≤ (twoLines [0x61]).bytes.count newline := by decide
  refine colorizer_agrees (twoLines_stands _).1 _ _ _ _ ⟨hcount, ⟨(twoLines_stands _).1, ?_⟩, hcount', Nat.zero_le _, trivial⟩
    ⟨hfit, trivial, hfit', hfit'', trivial⟩
  intro n hn
  have hle := hn 1 (List.mem_singleton_self 1)
  interval_cases n <;> decide

/-- `do_c_indent` asks for the second line with its array of 511 cells: the slash in the first line does not fit. -/
theorem not_colorizer_agrees : ¬∀ t : Pages, t.Ok → ∀ memory charset colorize es,
    AllPossible colorize charset (newColorizer t memory) es → AllRight colorize charset (newColorizer t memory) es := by
  intro h
  have hnone : newline ∉ slashLine := by
    intro hmem
    rcases List.mem_append.1 hmem with hmem | hmem
    · exact absurd (List.eq_of_mem_replicate hmem) (by decide)
    · exact absurd (List.mem_singleton.1 hmem) (by decide)
  obtain ⟨hcount, hline⟩ := twoLines_line hnone []
  obtain ⟨⟨_, hbefore, _⟩, _⟩ := h _ (twoLines_stands slashLine).1 (fun _ => 0) .latin1 slashColorize [.line (maxBufSize - 1) 1 []]
    ⟨hcount, trivial⟩
  have hcut : slashLine.take (maxBufSize - 1 - 1) = List.replicate 510 0x61 := by
    rw [slashLine, List.take_append_of_le_length (by rw [List.length_replicate]; decide), List.take_replicate]
    rfl
  have hslash : 0x2f ∈ slashLine := List.mem_append_right _ (List.mem_singleton_self _)
  have hnoSlash : 0x2f ∉ List.replicate 510 0x61 := fun hmem => absurd (List.eq_of_mem_replicate hmem) (by decide)
  have hstate : stateBefore slashColorize ⟨(twoLines slashLine).bytes, .latin1, []⟩ 1 = 1 := by
    rw [stateBefore, stateBefore, hline, slashColorize_of_mem hslash]
  rw [getLine_truncated (twoLines_stands slashLine).1, hline, hcut, slashColorize_of_not_mem hnoSlash] at hbefore
  have habsurd := hbefore.trans hstate
  revert habsurd
  decide

end Hoe
