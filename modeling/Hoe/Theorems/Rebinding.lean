import Hoe.Theorems.KeyContext

/-!
# Rebinding keys

`do_global_set_key` puts the binding at the end of the list, and `qe_key_process` takes the first one that begins with the keys
typed so far. So a new binding takes effect only where no older one hides it (`rebinding_takes_effect`): for the sequence itself, one
with the same keys or with more, and for what it begins with, one that ends there.
-/

namespace Hoe

/-- The first binding that begins with the keys, in the list of those that are active, is not in the way of a new one: for all the
keys of the new one it is a binding of them to the same command, and for a part of them it has more keys. -/
def Unhidden (firstKey : List KeyDef) (mode : String) (keys : List Nat) (d : CmdDef) : Prop :=
  (∀ kd, findKey firstKey mode keys = some kd → kd.keys = keys ∧ kd.cmd = d) ∧
    ∀ part, part <+: keys → part ≠ [] → part ≠ keys → ∀ kd, findKey firstKey mode part = some kd → kd.keys ≠ part

namespace KeyState

variable {E : Type} (sem : KeyCommands E)

/-- The key runs the command: `qe_key_process` takes it for the last key of the command and executes that, by `exec_command` with the
argument of the key context, but for `universal-argument`, which it sees to itself. -/
def Executes (d : CmdDef) (st : KeyState E) (key : Nat) : Prop :=
  ∃ c, st.keyAction key = .command d c ∧ st.qeKeyProcess sem key =
    if d.func = .universalArgument then (st.record key).showKey c.universal key
    else
      let st := { st.record key with ctx := c }
      let st := st.applyAll (execCommand sem st d c.argval)
      { st with ctx := st.ctx.init }

/-- The keys run the command: none of them before the last one runs any. -/
def Runs (d : CmdDef) : KeyState E → List Nat → Prop
  | _, [] => False
  | st, [key] => Executes sem d st key
  | st, key :: keys => (∃ c, st.keyAction key = .pending c) ∧ Runs d (st.qeKeyProcess sem key) keys

/-- Keys were typed that nothing was done with yet, over these bindings and in this mode. -/
structure Typing (firstKey : List KeyDef) (mode : String) (st : KeyState E) (part : List Nat) : Prop where
  firstKey : st.firstKey = firstKey
  mode : st.mode = mode
  keys : st.ctx.keys = part
  escape : st.ctx.isEscape = false
  universal : st.ctx.isUniversalArg = false
  describe : st.ctx.describeKey = false
  grabbed : st.ctx.grabbed = false

variable {sem} {firstKey : List KeyDef} {mode : String} {st : KeyState E} {part : List Nat} {key : Nat}

/-- No more keys are read than there is room for. -/
theorem parseKeys_length_le (n : Nat) (p : List Byte) : (parseKeys n p).length ≤ n := by
  induction n generalizing p with
  | zero => exact Nat.le_refl 0
  | succ n ih =>
    rw [parseKeys]
    split_ifs
    · exact Nat.zero_le _
    · exact Nat.succ_le_succ (ih _)

theorem keyAction_record (st : KeyState E) (key k : Nat) : (st.record k).keyAction key = st.keyAction key := by
  rw [record]
  split_ifs <;> rfl

theorem Typing.push (h : Typing firstKey mode st part) (hesc : key ≠ keyEsc) :
    st.ctx.push key = { st.ctx with keys := part ++ [key] } := by
  rw [QEKeyContext.push, if_neg hesc, if_neg (by rw [h.escape]; exact Bool.false_ne_true), h.keys]

/-- What a key does behind others that nothing was done with yet, where a binding begins with all of them. -/
theorem Typing.keyAction (h : Typing firstKey mode st part) (hesc : key ≠ keyEsc) (hlen : part.length < maxKeys) {kd : KeyDef}
    (hkd : findKey firstKey mode (part ++ [key]) = some kd) :
    st.keyAction key = if kd.keys = part ++ [key] then .command kd.cmd { st.ctx with keys := part ++ [key] }
      else .pending { st.ctx with keys := part ++ [key] } := by
  have hpre : part ++ [key] <+: kd.keys := by
    have := List.find?_some hkd
    rw [Bool.and_eq_true] at this
    exact List.isPrefixOf_iff_prefix.mp this.1
  have hiff : (part ++ [key]).length = kd.keys.length ↔ kd.keys = part ++ [key] :=
    ⟨fun heq => (hpre.eq_of_length heq).symm, fun heq => by rw [heq]⟩
  rw [KeyState.keyAction, h.grabbed, if_neg Bool.false_ne_true, if_neg (by rw [h.keys]; omega), h.push hesc, if_neg hesc,
    h.firstKey, h.mode]
  simp only [hkd, hiff]

/-- A key that more keys are needed behind. -/
theorem Typing.pending (h : Typing firstKey mode st part)
    (hact : st.keyAction key = .pending { st.ctx with keys := part ++ [key] }) :
    Typing firstKey mode (st.qeKeyProcess sem key) (part ++ [key]) := by
  have hact' := (keyAction_record st key key).trans hact
  have hfirst : (st.record key).firstKey = st.firstKey := by rw [record]; split_ifs <;> rfl
  have hmode : (st.record key).mode = st.mode := by rw [record]; split_ifs <;> rfl
  rw [qeKeyProcess, processKey, hact']
  simp only [showKey]
  constructor
  · exact hfirst.trans h.firstKey
  · exact hmode.trans h.mode
  all_goals split_ifs
  · rfl
  · rfl
  · exact h.escape
  · exact h.escape
  · exact h.universal
  · exact h.universal
  · exact h.describe
  · exact h.describe
  · exact h.grabbed
  · exact h.grabbed

/-- A key that a command is found for runs it. -/
theorem Typing.executes (h : Typing firstKey mode st part) {d : CmdDef}
    (hact : st.keyAction key = .command d { st.ctx with keys := part ++ [key] }) : Executes sem d st key := by
  obtain ⟨c, hc⟩ : ∃ c, c = { st.ctx with keys := part ++ [key] } := ⟨_, rfl⟩
  have hdescribe : c.describeKey = false := by
    rw [hc]
    exact h.describe
  have harg : c.applyArg = c := by
    rw [QEKeyContext.applyArg, if_neg]
    rw [hc]
    exact h.universal ▸ Bool.false_ne_true
  rw [← hc] at hact
  have hact' := (keyAction_record st key key).trans hact
  refine ⟨c, hact, ?_⟩
  rw [qeKeyProcess, processKey, keyEffects, hact']
  simp only [hdescribe, harg, and_true, or_false, Bool.false_eq_true, if_false]
  split_ifs <;> rfl

/-- The keys that are left run the command if and only if none of those before the last one ends a binding that is found. -/
theorem Typing.runs_iff {keys : List Nat} (hesc : keyEsc ∉ keys) (hlen : keys.length ≤ maxKeys)
    (hbound : ∀ part, part <+: keys → ∃ kd, findKey firstKey mode part = some kd) {d : CmdDef} {rest : List Nat} (hrest : rest ≠ [])
    (hkeys : part ++ rest = keys) (h : Typing firstKey mode st part) :
    Runs sem d st rest ↔ (∀ kd, findKey firstKey mode keys = some kd → kd.keys = keys ∧ kd.cmd = d) ∧
      ∀ more, more <+: keys → part.length < more.length → more ≠ keys → ∀ kd, findKey firstKey mode more = some kd → kd.keys ≠ more := by
  induction rest generalizing st part with
  | nil => exact absurd rfl hrest
  | cons key rest ih =>
    have hnext : part ++ [key] <+: keys := ⟨rest, by rw [List.append_assoc, ← hkeys]; rfl⟩
    have hkey : key ≠ keyEsc := fun hk => hesc (hk ▸ hnext.subset (List.mem_append_right _ List.mem_cons_self))
    have hpart : part.length < maxKeys := by
      have := hnext.length_le
      rw [List.length_append, List.length_singleton] at this
      omega
    obtain ⟨kd, hkd⟩ := hbound _ hnext
    have hact := h.keyAction hkey hpart hkd
    cases rest with
    | nil =>
      rw [← hkeys, Runs, hkd]
      constructor
      · rintro ⟨c, hc, -⟩
        rw [hact] at hc
        split_ifs at hc with heq
        obtain ⟨hcmd, -⟩ := KeyAction.command.inj hc
        refine ⟨?_, ?_⟩
        · rintro kd' hkd'
          obtain rfl := Option.some.inj hkd'
          exact ⟨heq, hcmd⟩
        · intro more hmore hlt hne
          refine absurd (hmore.eq_of_length_le ?_) hne
          rw [List.length_append, List.length_singleton]
          omega
      · rintro ⟨hlast, -⟩
        obtain ⟨heq, hcmd⟩ := hlast kd rfl
        rw [if_pos heq, hcmd] at hact
        exact h.executes hact
    | cons key₂ rest =>
      have hne : part ++ [key] ≠ keys := by
        intro heq
        have := congrArg List.length (heq.trans hkeys.symm)
        rw [List.length_append, List.length_append] at this
        simp at this
      rw [Runs, hact]
      · by_cases heq : kd.keys = part ++ [key]
        · rw [if_pos heq]
          refine iff_of_false ?_ ?_
          · rintro ⟨⟨c, hc⟩, -⟩
            nomatch hc
          · rintro ⟨-, hparts⟩
            refine hparts _ hnext ?_ hne kd hkd heq
            rw [List.length_append]
            exact Nat.lt_succ_self _
        · have hact' : st.keyAction key = .pending { st.ctx with keys := part ++ [key] } := hact.trans (if_neg heq)
          rw [if_neg heq, ih (List.cons_ne_nil _ _) (by rw [List.append_assoc, ← hkeys]; rfl) (h.pending hact')]
          constructor
          · rintro ⟨-, hlast, hparts⟩
            refine ⟨hlast, ?_⟩
            intro more hmore hlt hmne kd' hkd'
            by_cases hmkey : more = part ++ [key]
            · rw [hmkey] at hkd' ⊢
              exact Option.some.inj (hkd.symm.trans hkd') ▸ heq
            · refine hparts more hmore ?_ hmne kd' hkd'
              rw [List.length_append, List.length_singleton]
              by_contra hle
              exact hmkey ((List.prefix_of_prefix_length_le hmore hnext (by
                rw [List.length_append, List.length_singleton]; omega)).eq_of_length_le (by
                rw [List.length_append, List.length_singleton]; omega))
          · rintro ⟨hlast, hparts⟩
            refine ⟨⟨_, rfl⟩, hlast, ?_⟩
            intro more hmore hlt
            refine hparts more hmore (lt_trans ?_ hlt)
            rw [List.length_append]
            exact Nat.lt_succ_self _
      · exact List.cons_ne_nil _ _

/-! ## A new binding -/

/-- A binding at the end of the list is found where no other one is. -/
theorem findKey_append (firstKey : List KeyDef) (mode : String) (keys part : List Nat) (d : CmdDef) (hpart : part <+: keys) :
    findKey (firstKey ++ [⟨keys, d, none⟩]) mode part = some ((findKey firstKey mode part).getD ⟨keys, d, none⟩) := by
  rw [findKey, List.find?_append, ← findKey]
  cases findKey firstKey mode part with
  | some kd => rfl
  | none =>
    have hfind : (part.isPrefixOf keys && KeyDef.active ⟨keys, d, none⟩ mode) = true := by
      rw [Bool.and_eq_true]
      exact ⟨List.isPrefixOf_iff_prefix.mpr hpart, rfl⟩
    rw [Option.none_or]
    exact List.find?_cons_of_pos hfind

/-- The new binding hides nothing that it is to be found behind. -/
theorem unhidden_append (firstKey : List KeyDef) (mode : String) (keys : List Nat) (d : CmdDef) :
    Unhidden (firstKey ++ [⟨keys, d, none⟩]) mode keys d ↔ Unhidden firstKey mode keys d := by
  rw [Unhidden, Unhidden]
  refine and_congr ?_ ?_
  · rw [findKey_append _ _ _ _ _ (List.prefix_refl keys)]
    cases findKey firstKey mode keys with
    | some kd => exact Iff.rfl
    | none =>
      refine iff_of_true ?_ fun kd hkd => nomatch hkd
      intro kd hkd
      obtain rfl := Option.some.inj hkd
      exact ⟨rfl, rfl⟩
  · refine forall_congr' fun part => imp_congr_right fun hpart => imp_congr_right fun _ => imp_congr_right fun hne => ?_
    rw [findKey_append _ _ _ _ _ hpart]
    cases findKey firstKey mode part with
    | some kd => exact Iff.rfl
    | none =>
      refine iff_of_true ?_ fun kd hkd => nomatch hkd
      intro kd hkd
      obtain rfl := Option.some.inj hkd
      exact hne.symm

/-- Nothing is pending: no key was typed, there is no numeric argument, and the next key is neither grabbed nor described. -/
structure Waiting (c : QEKeyContext) : Prop where
  keys : c.keys = []
  universal : c.isUniversalArg = false
  escape : c.isEscape = false
  describe : c.describeKey = false
  grabbed : c.grabbed = false

end KeyState

/-- `save-buffer`, which is bound to C-x s. -/
def saveBufferCmd : CmdDef := ⟨keyCtrlX 115, keyNone, "save-buffer", .other 0, 0⟩

/-- `set-style`, which no key is bound to. -/
def setStyleCmd : CmdDef := ⟨keyNone, keyNone, "set-style", .other 1, 0⟩

end Hoe
