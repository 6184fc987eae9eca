import Hoe.Pages
import Hoe.Lib.Digits
import Hoe.Theorems.KeyContext

/-!
# Numeric arguments

The argument of a command is typed with keys of `universal-argument`, digits and signs. The number is accumulated in an `int` that
also says, by `NO_ARG`, that there is no number, and nothing bounds it or the power of 4: the command is given what was typed as
long as neither wraps and the number is not `NO_ARG` itself (`prefixRight_iff`).
-/

namespace Hoe

/-- What a command should be given for an explicit argument: the argument if an `int` can hold it, and `none` says that the command
is not run. -/
def PrefixRight (argument : Int) (given : Option Int) : Prop :=
  (InInt argument → given = some argument) ∧ (¬ InInt argument → given = none) ∧ given ≠ some noArg

instance (argument : Int) (given : Option Int) : Decidable (PrefixRight argument given) :=
  inferInstanceAs (Decidable ((_ → _) ∧ (_ → _) ∧ _))

namespace KeyState

variable {E : Type}

/-! ## Keys -/

/-- A key that nothing is bound to. -/
def unboundKey (st : KeyState E) (key : Nat) : Bool := (findKey st.firstKey st.mode [key]).isNone

/-- A key of `universal-argument`. -/
def universalKey (st : KeyState E) (key : Nat) : Bool :=
  key != keyEsc && (findKey st.firstKey st.mode [key]).any fun kd => kd.keys.length == 1 && kd.cmd.func == .universalArgument

/-- A digit of a numeric argument. -/
def digitKey (st : KeyState E) (key : Nat) : Bool := isDigit key && st.unboundKey key

/-- A sign of a numeric argument. -/
def minusKey (st : KeyState E) (key : Nat) : Bool := key == 45 && st.unboundKey key

/-- A sequence of keys of a numeric argument: the first one is of `universal-argument`. -/
def IsPrefix (st : KeyState E) (args : List Nat) : Prop :=
  args.head?.any st.universalKey = true ∧ ∀ key ∈ args, st.universalKey key ∨ st.digitKey key ∨ st.minusKey key

/-- The digits that are typed. -/
def typedDigits (st : KeyState E) (args : List Nat) : List Nat := (args.filter st.digitKey).map (· - 48)

/-- The number that is typed. -/
def typedNumber (st : KeyState E) (args : List Nat) : Nat := Digits.value 10 0 (st.typedDigits args)

/-- The argument that is typed. -/
def typedArgument (st : KeyState E) (args : List Nat) : Int :=
  if st.typedDigits args = [] then 4 ^ args.countP st.universalKey
  else if args.countP st.minusKey % 2 = 1 then -(st.typedNumber args : Int) else st.typedNumber args

/-- What is typed neither wraps nor is `NO_ARG`. -/
def PrefixFits (st : KeyState E) (args : List Nat) : Prop :=
  if st.typedDigits args = [] then args.countP st.universalKey ≤ 15
  else st.typedNumber args < 2 ^ 31 - 1 ∨ st.typedNumber args = 2 ^ 31 ∧ args.countP st.minusKey % 2 = 1

/-- A digit or a sign would go on with an argument here. -/
def goesOn (st : KeyState E) (key : Nat) : Bool :=
  (isDigit key || key == 45) && (st.ctx.push key).keys.length == 1 && (findKey st.firstKey st.mode (st.ctx.push key).keys).isNone

/-- The command that a key runs, with its argument. -/
def commandRun (st : KeyState E) (key : Nat) : Option (CmdDef × Int) :=
  match st.keyAction key with
  | .command d c => if d.func = .universalArgument ∨ c.describeKey then none else some (d, c.applyArg.argval)
  | _ => none

/-- The command that a sequence of keys runs, with its argument: the keys in front of the last one are put behind each other, and
none goes on with an argument. -/
def commandOf (sem : KeyCommands E) (st : KeyState E) : List Nat → Option (CmdDef × Int)
  | [] => none
  | [key] => if st.goesOn key then none else st.commandRun key
  | key :: keys =>
    if st.goesOn key then none
    else if st.keyAction key = .pending (st.ctx.push key) then commandOf sem (st.qeKeyProcess sem key) keys
    else none

/-- The state behind keys. -/
def typeKeys (sem : KeyCommands E) (st : KeyState E) (keys : List Nat) : KeyState E := st.runKeys sem (keys.map .key)

variable (sem : KeyCommands E) {st st' : KeyState E} {args : List Nat} {key : Nat}

/-- When a command is run, and with which argument. -/
theorem commandRun_eq_some_iff {d : CmdDef} {v : Int} :
    st.commandRun key = some (d, v) ↔
      ∃ c, st.keyAction key = .command d c ∧ d.func ≠ .universalArgument ∧ c.describeKey = false ∧ c.applyArg.argval = v := by
  unfold commandRun
  constructor
  · intro h
    cases haction : st.keyAction key with
    | command d' c =>
      simp only [haction] at h
      split_ifs at h with hskip
      obtain ⟨huniv, hdescribe⟩ := not_or.1 hskip
      cases h
      exact ⟨c, rfl, huniv, Bool.not_eq_true _ ▸ hdescribe, rfl⟩
    | _ => simp [haction] at h
  · rintro ⟨c, haction, huniv, hdescribe, rfl⟩
    simp [haction, huniv, hdescribe]

/-! ## The number -/

/-- What a digit makes of the number. -/
def accumulate (argval : Int) (d : Nat) : Int := wrapInt (wrapInt ((if argval = noArg then 0 else argval) * 10) + d)

/-- A digit more, in an int that wraps around. -/
theorem accumulate_eq {argval : Int} (h : argval ≠ noArg) (d : Nat) : accumulate argval d = wrapInt (argval * 10 + d) := by
  rw [accumulate, if_neg h, wrapInt_add]

/-- The accumulated number, up to 2^31: no number in front of its last digit is `NO_ARG`. -/
theorem accumulate_digits {ds : List Nat} (hne : ds ≠ []) (hle : Digits.value 10 0 ds ≤ 2 ^ 31) :
    ds.foldl accumulate noArg = wrapInt (Digits.value 10 0 ds) := by
  induction ds using List.reverseRecOn with
  | nil => exact absurd rfl hne
  | append_singleton ds d ih =>
    rw [List.foldl_append, List.foldl_cons, List.foldl_nil]
    rw [Digits.value_append, Digits.value, Digits.value] at hle ⊢
    rcases eq_or_ne ds [] with rfl | hds
    · simp only [List.foldl_nil, accumulate, Digits.value, if_true]
      rfl
    · have hlt : Digits.value 10 0 ds < 2 ^ 31 - 1 := by omega
      have hfold : ds.foldl accumulate noArg = (Digits.value 10 0 ds : Int) := by
        rw [ih hds (by omega)]
        exact wrapInt_of_lt (by omega) (by omega)
      have hnoArg : (Digits.value 10 0 ds : Int) ≠ noArg := by
        unfold noArg
        omega
      rw [hfold, accumulate_eq hnoArg, Nat.cast_add, Nat.cast_mul, Nat.cast_ofNat]

/-! ## Typing the argument -/

/-- No key is typed yet, and none is grabbed or described. -/
structure AtStart (c : QEKeyContext) : Prop where
  keys : c.keys = []
  escape : c.isEscape = false
  describe : c.describeKey = false
  grabbed : c.grabbed = false

/-- The state behind the keys of an argument. -/
structure Typed (st : KeyState E) (args : List Nat) (st' : KeyState E) : Prop where
  firstKey : st'.firstKey = st.firstKey
  mode : st'.mode = st.mode
  start : AtStart st'.ctx
  universal : args ≠ [] → st'.ctx.isUniversalArg = true
  argval : st'.ctx.argval = (st.typedDigits args).foldl accumulate noArg
  noargval : st'.ctx.noargval = wrapInt (4 ^ args.countP st.universalKey)
  sign : st'.ctx.sign = (-1) ^ args.countP st.minusKey

@[simp] theorem record_firstKey (st : KeyState E) (key : Nat) : (st.record key).firstKey = st.firstKey := by
  rw [record]
  split_ifs <;> rfl

@[simp] theorem record_mode (st : KeyState E) (key : Nat) : (st.record key).mode = st.mode := by
  rw [record]
  split_ifs <;> rfl

/-- What a key does depends on the bindings and on the key context. -/
@[simp] theorem record_keyAction (st : KeyState E) (key key' : Nat) : (st.record key).keyAction key' = st.keyAction key' := by
  simp only [keyAction, unboundAction, record_ctx, record_firstKey, record_mode]

/-- Showing a key changes nothing but what is shown. -/
theorem showKey_ctx (st : KeyState E) (c : QEKeyContext) (key : Nat) : ∃ buf, st.showKey c key = { st with ctx := { c with buf := buf } } := by
  rw [showKey]
  split_ifs
  · exact ⟨c.buf, rfl⟩
  · exact ⟨(c.echo key).buf, rfl⟩

/-- The first key is the only one. -/
theorem AtStart.push {c : QEKeyContext} (h : AtStart c) (hesc : key ≠ keyEsc) : c.push key = { c with keys := [key] } := by
  rw [QEKeyContext.push, if_neg hesc, h.escape, h.keys]
  rfl

/-- A key that is not an escape, typed first. -/
theorem AtStart.keyAction_eq (h : AtStart st'.ctx) (hesc : key ≠ keyEsc) :
    st'.keyAction key = match findKey st'.firstKey st'.mode [key] with
      | none => st'.unboundAction { st'.ctx with keys := [key] } key
      | some kd => if 1 = kd.keys.length then .command kd.cmd { st'.ctx with keys := [key] } else .pending { st'.ctx with keys := [key] } := by
  have hroom : ¬ maxKeys ≤ st'.ctx.keys.length := by
    rw [h.keys]
    decide
  rw [keyAction, h.grabbed, if_neg Bool.false_ne_true, if_neg hroom, h.push hesc]
  simp only [if_neg hesc]
  rfl

/-- A key of `universal-argument`. -/
theorem Typed.universalKey_step (h : Typed st args st') (hkey : st.universalKey key = true) :
    ∃ buf, (st'.qeKeyProcess sem key).ctx = { st'.ctx.universal with buf := buf } ∧
      (st'.qeKeyProcess sem key).firstKey = st'.firstKey ∧ (st'.qeKeyProcess sem key).mode = st'.mode := by
  unfold universalKey at hkey
  simp only [Bool.and_eq_true, bne_iff_ne, Option.any_eq_true, beq_iff_eq] at hkey
  obtain ⟨hesc, kd, hfind, hlen, hfunc⟩ := hkey
  have haction : st'.keyAction key = .command kd.cmd { st'.ctx with keys := [key] } := by
    rw [h.start.keyAction_eq hesc, h.firstKey, h.mode, hfind]
    exact if_pos hlen.symm
  obtain ⟨buf, hshow⟩ := showKey_ctx (st'.record key) (QEKeyContext.universal { st'.ctx with keys := [key] }) key
  have hprocess : st'.qeKeyProcess sem key = (st'.record key).showKey (QEKeyContext.universal { st'.ctx with keys := [key] }) key := by
    rw [qeKeyProcess, processKey, record_keyAction, haction]
    exact if_pos ⟨hfunc, h.start.describe⟩
  rw [hprocess, hshow]
  exact ⟨buf, rfl, record_firstKey _ _, record_mode _ _⟩

/-- Behind universal-argument a digit belongs to the argument. -/
theorem argKey_digit {c : QEKeyContext} (h : c.isUniversalArg = true) (hkey : isDigit key = true) :
    c.argKey key = some { c with argval := accumulate c.argval (key - 48), keys := [] } := by
  unfold isDigit at hkey
  rw [Bool.and_eq_true, decide_eq_true_eq, decide_eq_true_eq] at hkey
  simp only [QEKeyContext.argKey, h, accumulate, Bool.not_true, Bool.false_eq_true, if_false, if_pos hkey]

/-- So does a minus, which turns the sign. -/
theorem argKey_minus {c : QEKeyContext} (h : c.isUniversalArg = true) : c.argKey 45 = some { c with sign := -c.sign, keys := [] } := by
  have hdigit : ¬ (48 ≤ 45 ∧ 45 ≤ 57) := by decide
  simp only [QEKeyContext.argKey, h, Bool.not_true, Bool.false_eq_true, if_false, if_neg hdigit, if_true]

theorem keySpecial_digit (hkey : isDigit key = true) : keySpecial key = false := by
  unfold isDigit at hkey
  unfold keySpecial
  grind

/-- A digit or a sign. -/
theorem Typed.argKey_step (h : Typed st args st') (hunbound : st.unboundKey key = true) (hspecial : keySpecial key = false)
    {c : QEKeyContext} (harg : QEKeyContext.argKey { st'.ctx with keys := [key] } key = some c) :
    ∃ buf, (st'.qeKeyProcess sem key).ctx = { c with buf := buf } ∧
      (st'.qeKeyProcess sem key).firstKey = st'.firstKey ∧ (st'.qeKeyProcess sem key).mode = st'.mode := by
  have hesc : key ≠ keyEsc := by
    rintro rfl
    revert hspecial
    decide
  have haction : st'.keyAction key = .pending c := by
    rw [h.start.keyAction_eq hesc, h.firstKey, h.mode, Option.isNone_iff_eq_none.1 hunbound]
    simp only [unboundAction]
    rw [if_pos ⟨rfl, hspecial⟩, harg]
  obtain ⟨buf, hshow⟩ := showKey_ctx (st'.record key) c key
  have hprocess : st'.qeKeyProcess sem key = (st'.record key).showKey c key := by
    rw [qeKeyProcess, processKey, record_keyAction, haction]
  rw [hprocess, hshow]
  exact ⟨buf, rfl, record_firstKey _ _, record_mode _ _⟩

/-- The digits that were typed, with one key more. -/
theorem typedDigits_snoc (st : KeyState E) (args : List Nat) (key : Nat) :
    st.typedDigits (args ++ [key]) = if st.digitKey key then st.typedDigits args ++ [key - 48] else st.typedDigits args := by
  unfold typedDigits
  rw [List.filter_append, List.filter_singleton]
  cases st.digitKey key <;> simp

theorem countP_snoc (p : Nat → Bool) (args : List Nat) (key : Nat) :
    (args ++ [key]).countP p = args.countP p + if p key then 1 else 0 := by
  rw [List.countP_append, List.countP_singleton]

/-- A key that is bound is no digit and no sign. -/
theorem unboundKey_of_universalKey (h : st.universalKey key = true) : st.unboundKey key = false := by
  unfold universalKey at h
  simp only [Bool.and_eq_true, Option.any_eq_true] at h
  obtain ⟨-, kd, hfind, -⟩ := h
  rw [unboundKey, hfind]
  rfl

/-- A key without a binding is not universal-argument. -/
theorem universalKey_of_unboundKey (h : st.unboundKey key = true) : st.universalKey key = false := by
  by_contra hne
  rw [unboundKey_of_universalKey (Bool.not_eq_false _ ▸ hne)] at h
  nomatch h

/-- One more key of the argument. -/
theorem Typed.snoc (h : Typed st args st')
    (hkey : st.universalKey key = true ∨ args ≠ [] ∧ (st.digitKey key = true ∨ st.minusKey key = true)) :
    Typed st (args ++ [key]) (st'.qeKeyProcess sem key) := by
  rcases hkey with hkey | ⟨hargs, hkey | hkey⟩
  · have hunbound := unboundKey_of_universalKey hkey
    have hdigit : st.digitKey key = false := by rw [digitKey, hunbound, Bool.and_false]
    have hminus : st.minusKey key = false := by rw [minusKey, hunbound, Bool.and_false]
    obtain ⟨buf, hctx, hfirst, hmode⟩ := h.universalKey_step sem hkey
    refine ⟨hfirst.trans h.firstKey, hmode.trans h.mode, ?_, ?_, ?_, ?_, ?_⟩ <;> rw [hctx]
    · exact ⟨rfl, h.start.escape, h.start.describe, h.start.grabbed⟩
    · exact fun _ => rfl
    · rw [typedDigits_snoc, hdigit]
      exact h.argval
    · rw [countP_snoc, hkey]
      simp only [QEKeyContext.universal, h.noargval, wrapInt_mul, if_true, pow_succ]
    · rw [countP_snoc, hminus]
      exact h.sign
  · have hdigit := (Bool.and_eq_true_iff.1 hkey).1
    have hunbound := (Bool.and_eq_true_iff.1 hkey).2
    have huniversal := universalKey_of_unboundKey hunbound
    have hminus : st.minusKey key = false := by
      have : key ≠ 45 := by
        rintro rfl
        nomatch hdigit
      rw [minusKey, beq_eq_false_iff_ne.2 this, Bool.false_and]
    obtain ⟨buf, hctx, hfirst, hmode⟩ := h.argKey_step sem hunbound (keySpecial_digit hdigit) (argKey_digit (h.universal hargs) hdigit)
    refine ⟨hfirst.trans h.firstKey, hmode.trans h.mode, ?_, ?_, ?_, ?_, ?_⟩ <;> rw [hctx]
    · exact ⟨rfl, h.start.escape, h.start.describe, h.start.grabbed⟩
    · exact fun _ => h.universal hargs
    · rw [typedDigits_snoc, hkey, if_pos rfl, List.foldl_append, ← h.argval]
      rfl
    · rw [countP_snoc, huniversal]
      exact h.noargval
    · rw [countP_snoc, hminus]
      exact h.sign
  · obtain rfl := beq_iff_eq.1 (Bool.and_eq_true_iff.1 hkey).1
    have hunbound := (Bool.and_eq_true_iff.1 hkey).2
    have huniversal := universalKey_of_unboundKey hunbound
    obtain ⟨buf, hctx, hfirst, hmode⟩ := h.argKey_step sem hunbound rfl (argKey_minus (h.universal hargs))
    refine ⟨hfirst.trans h.firstKey, hmode.trans h.mode, ?_, ?_, ?_, ?_, ?_⟩ <;> rw [hctx]
    · exact ⟨rfl, h.start.escape, h.start.describe, h.start.grabbed⟩
    · exact fun _ => h.universal hargs
    · rw [typedDigits_snoc]
      exact h.argval
    · rw [countP_snoc, huniversal]
      exact h.noargval
    · rw [countP_snoc, hkey, if_pos rfl, pow_succ, ← h.sign, mul_neg_one]

/-- All the keys of the argument. -/
theorem typed_typeKeys (hdescribe : st.ctx.describeKey = false) (hgrabbed : st.ctx.grabbed = false) (hargs : st.IsPrefix args) :
    Typed st args (st.ready.typeKeys sem args) := by
  have hone : (1 : Int) = wrapInt (4 ^ 0) := by decide
  have hstart : Typed st [] st.ready := ⟨rfl, rfl, ⟨rfl, rfl, hdescribe, hgrabbed⟩, fun h => absurd rfl h, rfl, hone, rfl⟩
  obtain ⟨hfirst, hkeys⟩ := hargs
  induction args using List.reverseRecOn with
  | nil => exact hstart
  | append_singleton args key ih =>
    have hlast := hkeys key (by simp)
    have hrun : st.ready.typeKeys sem (args ++ [key]) = (st.ready.typeKeys sem args).qeKeyProcess sem key := by
      simp only [typeKeys, runKeys, List.map_append, List.foldl_append]
      rfl
    rw [hrun]
    rcases eq_or_ne args [] with rfl | hne
    · exact hstart.snoc sem (.inl (by simpa using hfirst))
    · refine (ih ?_ fun k hk => hkeys k (List.mem_append_left _ hk)).snoc sem (hlast.imp_right fun h => ⟨hne, h⟩)
      rwa [List.head?_append_of_ne_nil _ hne] at hfirst

/-! ## The command -/

/-- Two actions go on with two key contexts in the same way. -/
inductive Alike (c c' : QEKeyContext) : KeyAction → KeyAction → Prop where
  | full : Alike c c' .full .full
  | unknown : Alike c c' (.unknown c) (.unknown c')
  | pending : Alike c c' (.pending c) (.pending c')
  | command (d : CmdDef) : Alike c c' (.command d c) (.command d c')

/-- Two states with the same bindings and the same keys typed so far; the second one may have an argument. -/
structure SameKeys (st st' : KeyState E) : Prop where
  firstKey : st'.firstKey = st.firstKey
  mode : st'.mode = st.mode
  keys : st'.ctx.keys = st.ctx.keys
  escape : st'.ctx.isEscape = st.ctx.isEscape
  describe : st'.ctx.describeKey = false
  grabbed : st.ctx.grabbed = false ∧ st'.ctx.grabbed = false

/-- Behind another key the same keys were typed. -/
theorem SameKeys.push (h : SameKeys st st') (key : Nat) :
    (st'.ctx.push key).keys = (st.ctx.push key).keys ∧ (st'.ctx.push key).isEscape = (st.ctx.push key).isEscape := by
  simp only [QEKeyContext.push, h.keys, h.escape]
  split_ifs <;> exact ⟨rfl, rfl⟩

/-- No other key belongs to the argument. -/
theorem argKey_none (c : QEKeyContext) (hkey : (isDigit key || key == 45) = false) : c.argKey key = none := by
  unfold isDigit at hkey
  simp only [Bool.or_eq_false_iff, Bool.and_eq_false_iff, decide_eq_false_iff_not, beq_eq_false_iff_ne] at hkey
  obtain ⟨hdigit, hminus⟩ := hkey
  have hrange : ¬ (48 ≤ key ∧ key ≤ 57) := fun h => hdigit.elim (absurd h.1) (absurd h.2)
  simp only [QEKeyContext.argKey, if_neg hrange, if_neg hminus, ite_self]

/-- A key that nothing is bound to, when it does not go on with an argument. -/
theorem unboundAction_eq (hgo : st.goesOn key = false) (hfind : findKey st.firstKey st.mode (st.ctx.push key).keys = none) :
    st.unboundAction (st.ctx.push key) key =
      if (st.ctx.push key).keys.length = 1 ∧ keySpecial key = false then
        match findDefault st.firstKey st.mode with
        | some kd => .command { kd.cmd with val := key } (st.ctx.push key)
        | none => .unknown (st.ctx.push key)
      else .unknown (st.ctx.push key) := by
  unfold unboundAction
  by_cases hone : (st.ctx.push key).keys.length = 1 ∧ keySpecial key = false
  · have harg : (st.ctx.push key).argKey key = none := by
      refine argKey_none _ ?_
      rw [goesOn, hfind, beq_iff_eq.2 hone.1] at hgo
      simpa using hgo
    rw [if_pos hone, if_pos hone, harg]
    cases findDefault st.firstKey st.mode <;> rfl
  · rw [if_neg hone, if_neg hone]

/-- Whether the argument goes on depends on the keys only. -/
theorem SameKeys.goesOn (h : SameKeys st st') (key : Nat) : st'.goesOn key = st.goesOn key := by
  unfold KeyState.goesOn
  rw [(h.push key).1, h.firstKey, h.mode]

/-- An argument does not change what a key does that does not go on with it. -/
theorem SameKeys.alike (h : SameKeys st st') (hgo : st.goesOn key = false) :
    Alike (st.ctx.push key) (st'.ctx.push key) (st.keyAction key) (st'.keyAction key) := by
  have hgo' : st'.goesOn key = false := (h.goesOn key).trans hgo
  have hpush := (h.push key).1
  unfold keyAction
  rw [h.grabbed.1, h.grabbed.2, h.keys]
  simp only [Bool.false_eq_true, if_false]
  by_cases hfull : maxKeys ≤ st.ctx.keys.length
  · rw [if_pos hfull, if_pos hfull]
    exact .full
  rw [if_neg hfull, if_neg hfull]
  by_cases hesc : key = keyEsc
  · rw [if_pos hesc, if_pos hesc]
    exact .pending
  rw [if_neg hesc, if_neg hesc]
  cases hfind : findKey st.firstKey st.mode (st.ctx.push key).keys with
  | none =>
    have hfind' : findKey st'.firstKey st'.mode (st'.ctx.push key).keys = none := by rw [hpush, h.firstKey, h.mode, hfind]
    rw [hfind']
    simp only
    rw [unboundAction_eq hgo hfind, unboundAction_eq hgo' hfind', hpush, h.firstKey, h.mode]
    split_ifs
    · cases findDefault st.firstKey st.mode with
      | some kd => exact .command _
      | none => exact .unknown
    · exact .unknown
  | some kd =>
    have hfind' : findKey st'.firstKey st'.mode (st'.ctx.push key).keys = some kd := by rw [hpush, h.firstKey, h.mode, hfind]
    rw [hfind', hpush]
    simp only
    split_ifs
    · exact .command _
    · exact .pending

theorem push_argval (c : QEKeyContext) (key : Nat) : (c.push key).applyArg.argval = c.applyArg.argval := by
  unfold QEKeyContext.push QEKeyContext.applyArg
  split_ifs <;> rfl

theorem applyArg_buf (c : QEKeyContext) (buf : List Byte) : { c with buf := buf }.applyArg.argval = c.applyArg.argval := by
  unfold QEKeyContext.applyArg
  split_ifs <;> rfl

theorem push_describeKey (c : QEKeyContext) (key : Nat) : (c.push key).describeKey = c.describeKey := by
  unfold QEKeyContext.push
  split_ifs <;> rfl

theorem push_grabbed (c : QEKeyContext) (key : Nat) : (c.push key).grabbed = c.grabbed := by
  unfold QEKeyContext.push
  split_ifs <;> rfl

/-- The state behind a key that is put behind the others. -/
theorem qeKeyProcess_pending {c : QEKeyContext} (h : st.keyAction key = .pending c) :
    ∃ buf, st.qeKeyProcess sem key = { st.record key with ctx := { c with buf := buf } } := by
  have hprocess : st.qeKeyProcess sem key = (st.record key).showKey c key := by
    rw [qeKeyProcess, processKey, record_keyAction, h]
  rw [hprocess]
  exact showKey_ctx _ c key

/-- A key that runs a command runs it with an argument as well. -/
theorem SameKeys.commandRun (h : SameKeys st st') (hgo : st.goesOn key = false) {d : CmdDef} {v : Int}
    (hrun : st.commandRun key = some (d, v)) : st'.commandRun key = some (d, st'.ctx.applyArg.argval) := by
  obtain ⟨c, haction, huniv, hdescribe, -⟩ := commandRun_eq_some_iff.1 hrun
  have halike := h.alike hgo
  rw [haction] at halike
  have haction' : st'.keyAction key = .command d (st'.ctx.push key) := by
    cases hact : st'.keyAction key <;> rw [hact] at halike <;> cases halike
    rfl
  exact commandRun_eq_some_iff.2 ⟨_, haction', huniv, (push_describeKey _ _).trans h.describe, push_argval _ _⟩

/-- A key that is put behind the others. -/
theorem SameKeys.pending (h : SameKeys st st') (hgo : st.goesOn key = false) (hpending : st.keyAction key = .pending (st.ctx.push key)) :
    st'.keyAction key = .pending (st'.ctx.push key) ∧ SameKeys (st.qeKeyProcess sem key) (st'.qeKeyProcess sem key) ∧
      (st'.qeKeyProcess sem key).ctx.applyArg.argval = st'.ctx.applyArg.argval := by
  have halike := h.alike hgo
  rw [hpending] at halike
  have hpending' : st'.keyAction key = .pending (st'.ctx.push key) := by
    cases hact : st'.keyAction key <;> rw [hact] at halike <;> cases halike
    rfl
  obtain ⟨buf, hst⟩ := qeKeyProcess_pending sem hpending
  obtain ⟨buf', hst'⟩ := qeKeyProcess_pending sem hpending'
  obtain ⟨hkeys, hescape⟩ := h.push key
  refine ⟨hpending', ?_, ?_⟩
  · rw [hst, hst']
    exact ⟨by simp [h.firstKey], by simp [h.mode], hkeys, hescape, (push_describeKey _ _).trans h.describe,
      (push_grabbed _ _).trans h.grabbed.1, (push_grabbed _ _).trans h.grabbed.2⟩
  · rw [hst']
    exact (applyArg_buf (st'.ctx.push key) buf').trans (push_argval st'.ctx key)

/-- Keys that run a command run it with an argument as well, and with the argument that is there. -/
theorem SameKeys.commandOf (h : SameKeys st st') {keys : List Nat} {d : CmdDef} {v : Int} (hrun : commandOf sem st keys = some (d, v)) :
    KeyState.commandOf sem st' keys = some (d, st'.ctx.applyArg.argval) := by
  fun_induction KeyState.commandOf sem st keys generalizing st' with
  | case1 => nomatch hrun
  | case2 => nomatch hrun
  | case3 st key hgo =>
    rw [KeyState.commandOf, h.goesOn, if_neg hgo]
    exact h.commandRun (Bool.not_eq_true _ ▸ hgo) hrun
  | case4 => nomatch hrun
  | case5 st key keys hne hgo hpending ih =>
    obtain ⟨hpending', hsame, hargval⟩ := h.pending sem (Bool.not_eq_true _ ▸ hgo) hpending
    rw [KeyState.commandOf, h.goesOn, if_neg hgo, if_pos hpending', ih hsame hrun, hargval]
    exact hne
  | case6 => nomatch hrun

/-! ## The argument of the command -/

/-- The argument that is there behind the keys of an argument. -/
theorem Typed.applyArg (h : Typed st args st') (hne : args ≠ []) :
    st'.ctx.applyArg.argval =
      if (st.typedDigits args).foldl accumulate noArg = noArg then wrapInt (4 ^ args.countP st.universalKey)
      else wrapInt ((st.typedDigits args).foldl accumulate noArg * (-1) ^ args.countP st.minusKey) := by
  rw [QEKeyContext.applyArg, h.universal hne, ← h.argval, ← h.noargval, ← h.sign]
  split_ifs <;> simp_all

/-- The argument is right where it is an int that is not taken for none. -/
theorem prefixRight_some {argument v : Int} : PrefixRight argument (some v) ↔ InInt argument ∧ v = argument ∧ v ≠ noArg := by
  unfold PrefixRight
  by_cases h : InInt argument <;> simp [h]

/-- A number that is typed counts, with its sign. -/
theorem typedArgument_number (h : st.typedDigits args ≠ []) :
    st.typedArgument args = (st.typedNumber args : Int) * (-1) ^ args.countP st.minusKey := by
  rw [typedArgument, if_neg h]
  rcases Nat.mod_two_eq_zero_or_one (args.countP st.minusKey) with hm | hm
  · rw [if_neg (by rw [hm]; decide), (Nat.even_iff.2 hm).neg_one_pow, mul_one]
  · rw [if_pos hm, (Nat.odd_iff.2 hm).neg_one_pow, mul_neg_one]

/-- The powers of four that fit an int. -/
theorem inInt_pow_iff (k : Nat) : InInt (4 ^ k) ↔ k ≤ 15 := by
  have hpos : 0 < (4 : Int) ^ k := by positivity
  constructor
  · intro h
    by_contra hk
    have hle : (4 : Int) ^ 16 ≤ 4 ^ k := pow_le_pow_right₀ (by decide) (by omega)
    have hlt := h.2
    omega
  · intro h
    have hle : (4 : Int) ^ k ≤ 4 ^ 15 := pow_le_pow_right₀ (by decide) h
    unfold InInt
    omega

/-- Without digits. -/
theorem prefixRight_pow (k : Nat) : PrefixRight (4 ^ k) (some (wrapInt (4 ^ k))) ↔ k ≤ 15 := by
  rw [prefixRight_some, inInt_pow_iff]
  refine ⟨fun h => h.1, fun h => ?_⟩
  have hin := (inInt_pow_iff k).2 h
  have hle : (4 : Int) ^ k ≤ 4 ^ 15 := pow_le_pow_right₀ (by decide) h
  have hnoArg : (4 : Int) ^ k ≠ noArg := by
    unfold noArg
    omega
  rw [wrapInt_of_lt hin.1 hin.2]
  exact ⟨h, rfl, hnoArg⟩

/-- The number and its sign behind digits that stand for `n`, with the power of 4 in the place of `NO_ARG`. -/
theorem prefixRight_number {n k m : Nat} {a : Int} (hk : 0 < k) (ha : n ≤ 2 ^ 31 → a = wrapInt n) :
    PrefixRight (n * (-1) ^ m) (some (if a = noArg then wrapInt (4 ^ k) else wrapInt (a * (-1) ^ m))) ↔
      n < 2 ^ 31 - 1 ∨ n = 2 ^ 31 ∧ m % 2 = 1 := by
  rw [prefixRight_some]
  have heven : wrapInt (4 ^ k) % 2 = 0 := by
    refine wrapInt_even ?_
    obtain ⟨j, rfl⟩ := Nat.exists_eq_succ_of_ne_zero hk.ne'
    rw [pow_succ]
    omega
  have hsign : m % 2 = 0 ∧ (-1 : Int) ^ m = 1 ∨ m % 2 = 1 ∧ (-1 : Int) ^ m = -1 := by
    rcases Nat.mod_two_eq_zero_or_one m with hm | hm
    · exact .inl ⟨hm, (Nat.even_iff.2 hm).neg_one_pow⟩
    · exact .inr ⟨hm, (Nat.odd_iff.2 hm).neg_one_pow⟩
  unfold InInt noArg
  generalize wrapInt (4 ^ k) = p at heven ⊢
  rcases hsign with ⟨hm, hsign⟩ | ⟨hm, hsign⟩ <;> rw [hsign] <;> unfold wrapInt at ha ⊢ <;> split_ifs <;> omega

end KeyState

open KeyState

/-- The editor with `universal-argument` and the insertion of keys. -/
def argumentStart : KeyState Unit :=
  keyStart [⟨keyCtrl 117, keyNone, "universal-argument", .universalArgument, 0⟩, ⟨keyDefault, keyNone, "self-insert-command", .other 0, 0⟩]

end Hoe
