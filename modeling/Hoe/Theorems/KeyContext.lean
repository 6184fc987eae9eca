import Hoe.Lemmas.Keys
import Hoe.KeyProcess

/-!
# The bounds of the key context

The array of the keys never gets too long. The string that shows them is emptied when a command is executed, when there are too many
keys and when none is bound, but not behind a numeric argument: it fits its array as long as the names of the keys shown since it
was emptied last do (`key_context_bounds`).
-/

namespace Hoe

/-! ## What the processing of keys leaves alone

No command and no callback touches the keys typed so far or the string that shows them, and only the commands of macros touch the
macro and the bottom halves.
-/

namespace KeyState

variable {E : Type} (sem : KeyCommands E)

/-! ## Effects -/

/-- An effect leaves the keys typed so far and the string that shows them alone. -/
theorem apply_ctx (st : KeyState E) (e : KeyEffect E) : (st.apply e).ctx.keys = st.ctx.keys ∧ (st.apply e).ctx.buf = st.ctx.buf := by
  cases e <;> simp only [apply, and_self]
  · rw [doStartMacro]
    split_ifs <;> exact ⟨rfl, rfl⟩
  · rw [doEndMacro]
    split_ifs <;> exact ⟨rfl, rfl⟩
  · rw [doCallMacro]
    split_ifs <;> exact ⟨rfl, rfl⟩

theorem applyAll_ctx (st : KeyState E) (es : List (KeyEffect E)) :
    (st.applyAll es).ctx.keys = st.ctx.keys ∧ (st.applyAll es).ctx.buf = st.ctx.buf := by
  induction es generalizing st with
  | nil => exact ⟨rfl, rfl⟩
  | cons e es ih =>
    obtain ⟨hkeys, hbuf⟩ := ih (st.apply e)
    obtain ⟨hkeys', hbuf'⟩ := apply_ctx st e
    exact ⟨hkeys.trans hkeys', hbuf.trans hbuf'⟩

/-- The recording of the macro leaves the key context alone. -/
@[simp] theorem record_ctx (st : KeyState E) (key : Nat) : (st.record key).ctx = st.ctx := by
  rw [record]
  split_ifs <;> rfl

end KeyState

/-! ## The key context -/

namespace QEKeyContext

theorem push_buf (c : QEKeyContext) (key : Nat) : (c.push key).buf = c.buf := by
  rw [push]
  split_ifs <;> rfl

theorem push_keys_length (c : QEKeyContext) (key : Nat) : (c.push key).keys.length ≤ c.keys.length + 1 := by
  have hlast : (c.keys ++ [key]).length = c.keys.length + 1 := List.length_append
  have hmeta : (c.keys.dropLast ++ [keyMeta key]).length ≤ c.keys.length + 1 := by
    rw [List.length_append, List.length_dropLast, List.length_singleton]
    omega
  rw [push]
  split_ifs
  · exact hlast.le
  · exact hmeta
  · exact hlast.le
  · exact hlast.le

theorem argKey_some {c c' : QEKeyContext} {key : Nat} (h : c.argKey key = some c') : c'.keys = [] ∧ c'.buf = c.buf := by
  rw [argKey] at h
  split_ifs at h <;> obtain rfl := Option.some.inj h <;> exact ⟨rfl, rfl⟩

/-- A key takes the bytes of its name and one more. -/
theorem echo_buf_length (c : QEKeyContext) (key : Nat) : (c.echo key).buf.length = c.buf.length + (keytostr key).length + 1 := by
  rw [echo]
  simp only [List.length_append]
  split_ifs with h
  · rw [h]
    rfl
  · have := List.length_pos_of_ne_nil h
    rw [List.length_append, List.length_dropLast]
    change c.buf.length - 1 + 1 + _ + 1 = _
    omega

end QEKeyContext

namespace KeyState

variable {E : Type}

/-- An action goes on with at most one key more, and with the string that is shown. -/
theorem keyAction_ctx {st : KeyState E} {key : Nat} {c : QEKeyContext} (h : (st.keyAction key).ctx = some c) :
    c.keys.length ≤ maxKeys ∧ c.buf = st.ctx.buf := by
  rw [keyAction] at h
  split_ifs at h with hgrab hfull hesc
  · nomatch h
  · nomatch h
  all_goals
    have hpush := (st.ctx.push_keys_length key).trans (Nat.succ_le_of_lt (Nat.not_le.mp hfull))
    have hbuf := st.ctx.push_buf key
  · obtain rfl := Option.some.inj h
    exact ⟨hpush, hbuf⟩
  · cases hfind : findKey st.firstKey st.mode (st.ctx.push key).keys with
    | none =>
      simp only [hfind, unboundAction] at h
      split_ifs at h
      · cases harg : (st.ctx.push key).argKey key with
        | some c' =>
          obtain ⟨hnil, hbuf'⟩ := QEKeyContext.argKey_some harg
          simp only [harg] at h
          obtain rfl := Option.some.inj h
          exact ⟨hnil ▸ Nat.zero_le _, hbuf'.trans hbuf⟩
        | none =>
          cases hdef : findDefault st.firstKey st.mode with
          | some kd =>
            simp only [harg, hdef] at h
            obtain rfl := Option.some.inj h
            exact ⟨hpush, hbuf⟩
          | none =>
            simp only [harg, hdef] at h
            obtain rfl := Option.some.inj h
            exact ⟨hpush, hbuf⟩
      · obtain rfl := Option.some.inj h
        exact ⟨hpush, hbuf⟩
    | some kd =>
      simp only [hfind] at h
      split_ifs at h <;> obtain rfl := Option.some.inj h <;> exact ⟨hpush, hbuf⟩

end KeyState

/-- The bytes that keys take when they are shown: each its name, and what separates it from the next one. -/
def shownBytes (keys : List Nat) : Nat := (keys.map fun key => (keytostr key).length + 1).sum

/-- The key context keeps to its arrays: `MAX_KEYS` keys, and 128 bytes with the zero that ends the string. -/
def QEKeyContext.InBounds (c : QEKeyContext) : Prop := c.keys.length ≤ maxKeys ∧ c.buf.length + 1 ≤ 128

instance (c : QEKeyContext) : Decidable c.InBounds := inferInstanceAs (Decidable (_ ∧ _))

namespace KeyState

variable {E : Type} (sem : KeyCommands E)

/-- The keys that are shown, with this one unless the window is the minibuffer. -/
def showWith (st : KeyState E) (keys : List Nat) (key : Nat) : List Nat := if st.minibuf then keys else keys ++ [key]

/-- The keys that are shown behind a key. -/
def shownAfter (st : KeyState E) (keys : List Nat) (key : Nat) : List Nat :=
  match st.keyAction key with
  | .grabbed => keys
  | .full => []
  | .unknown _ => st.showWith [] key
  | .pending _ => st.showWith keys key
  | .command d c => if d.func = .universalArgument ∧ c.describeKey = false then st.showWith keys key else []

/-- The keys shown since the string was emptied. -/
def shown (st : KeyState E) (keys : List Nat) : List (KeyInput E) → List Nat
  | [] => keys
  | .key key :: ins => shown (st.qeKeyProcess sem key) ((st.record key).shownAfter keys key) ins
  | .event effects :: ins => shown (st.applyAll effects) keys ins

/-- The state once `qe_key_init` was called. -/
def ready (st : KeyState E) : KeyState E := { st with ctx := st.ctx.init }

/-! ## One key -/

theorem shownBytes_append (keys : List Nat) (key : Nat) : shownBytes (keys ++ [key]) = shownBytes keys + (keytostr key).length + 1 := by
  rw [shownBytes, List.map_append, List.sum_append, List.map_singleton, List.sum_singleton, ← shownBytes, Nat.add_assoc]

theorem showKey_keys (st : KeyState E) (c : QEKeyContext) (key : Nat) : (st.showKey c key).ctx.keys = c.keys := by
  rw [showKey]
  split_ifs <;> rfl

variable {st : KeyState E} {keys : List Nat} {P : List Byte → List Nat → Prop}

/-- A property of the string and of the keys that it shows, which the display of one more key keeps. -/
theorem showKey_shown (hecho : ∀ (c : QEKeyContext) keys key, P c.buf keys → P (c.echo key).buf (keys ++ [key])) (st : KeyState E)
    {c : QEKeyContext} (h : P c.buf keys) (key : Nat) : P (st.showKey c key).ctx.buf (st.showWith keys key) := by
  rw [showKey, showWith]
  split_ifs
  · exact h
  · exact hecho c keys key h

/-- One key: the string and the keys are emptied together, and together get longer. -/
theorem processKey_shown (hempty : P [] []) (hecho : ∀ (c : QEKeyContext) keys key, P c.buf keys → P (c.echo key).buf (keys ++ [key]))
    (h : P st.ctx.buf keys) (key : Nat) : P (st.processKey sem key).ctx.buf (st.shownAfter keys key) := by
  have hctx := fun c (hc : (st.keyAction key).ctx = some c) => (keyAction_ctx hc).2
  rw [processKey, shownAfter]
  cases haction : st.keyAction key with
  | grabbed =>
    have hbuf := (applyAll_ctx st (st.keyEffects sem key)).2
    exact hbuf ▸ h
  | full => exact hempty
  | unknown c => exact showKey_shown hecho st hempty key
  | pending c =>
    have hbuf := hctx c (haction ▸ rfl)
    exact showKey_shown hecho st (hbuf ▸ h) key
  | command d c =>
    have hbuf := hctx c (haction ▸ rfl)
    simp only
    split_ifs
    · exact showKey_shown hecho st (c := c.universal) (hbuf ▸ h) key
    · exact hempty
    · exact hempty

/-- Any number of keys and other events. -/
theorem runKeys_shown (hempty : P [] []) (hecho : ∀ (c : QEKeyContext) keys key, P c.buf keys → P (c.echo key).buf (keys ++ [key]))
    (h : P st.ctx.buf keys) (ins : List (KeyInput E)) : P (st.runKeys sem ins).ctx.buf (st.shown sem keys ins) := by
  induction ins generalizing st keys with
  | nil => exact h
  | cons i ins ih =>
    cases i with
    | key key =>
      have hrecord : P (st.record key).ctx.buf keys := by rwa [record_ctx]
      exact ih (processKey_shown sem hempty hecho hrecord key)
    | event effects =>
      have hbuf := (applyAll_ctx st effects).2
      exact ih (hbuf ▸ h)

/-- The array of the keys does not get too long. -/
theorem processKey_keys_length (h : st.ctx.keys.length ≤ maxKeys) (key : Nat) : (st.processKey sem key).ctx.keys.length ≤ maxKeys := by
  have hctx := fun c (hc : (st.keyAction key).ctx = some c) => (keyAction_ctx hc).1
  rw [processKey]
  cases haction : st.keyAction key with
  | grabbed =>
    have hkeys := (applyAll_ctx st (st.keyEffects sem key)).1
    exact hkeys ▸ h
  | full => exact Nat.zero_le _
  | unknown c =>
    simp only [showKey_keys]
    exact Nat.zero_le _
  | pending c =>
    simp only [showKey_keys]
    exact hctx c (haction ▸ rfl)
  | command d c =>
    simp only
    split_ifs
    · rw [showKey_keys]
      exact Nat.zero_le _
    · exact Nat.zero_le _
    · exact Nat.zero_le _

/-- What holds of the key context behind any number of keys: the string is as long as the keys that it shows. -/
structure Shows (st : KeyState E) (keys : List Nat) : Prop where
  length : st.ctx.keys.length ≤ maxKeys
  buf : st.ctx.buf.length = shownBytes keys

theorem Shows.applyAll (h : st.Shows keys) (es : List (KeyEffect E)) : (st.applyAll es).Shows keys := by
  obtain ⟨hkeys, hbuf⟩ := applyAll_ctx st es
  exact ⟨hkeys ▸ h.length, hbuf ▸ h.buf⟩

theorem Shows.record (h : st.Shows keys) (key : Nat) : (st.record key).Shows keys :=
  ⟨by rw [record_ctx]; exact h.length, by rw [record_ctx]; exact h.buf⟩

/-- A context without keys and with an empty string. -/
theorem shows_of_empty (h : st.ctx.keys = []) (hbuf : st.ctx.buf = []) : st.Shows [] :=
  ⟨h ▸ Nat.zero_le _, by rw [hbuf]; rfl⟩

/-- One key. -/
theorem Shows.processKey (h : st.Shows keys) (key : Nat) : (st.processKey sem key).Shows (st.shownAfter keys key) where
  length := processKey_keys_length sem h.length key
  buf := by
    refine processKey_shown sem (P := fun buf keys => buf.length = shownBytes keys) rfl ?_ h.buf key
    intro c keys key hc
    rw [shownBytes_append, QEKeyContext.echo_buf_length, hc]

/-! ## Runs -/

theorem Shows.runKeys (h : st.Shows keys) (ins : List (KeyInput E)) : (st.runKeys sem ins).Shows (st.shown sem keys ins) := by
  induction ins generalizing st keys with
  | nil => exact h
  | cons i ins ih =>
    cases i with
    | key key => exact ih ((h.record key).processKey sem key)
    | event effects => exact ih (h.applyAll effects)

/-- The keys typed since a command was executed never exceed their array. The string that shows them keeps to its own array in
every state of a run if and only if, behind every beginning of the run, the keys shown since it was emptied take less than 128
bytes. -/
theorem key_context_bounds (st : KeyState E) (ins : List (KeyInput E)) :
    (∀ pre, pre <+: ins → (st.ready.runKeys sem pre).ctx.InBounds) ↔
      ∀ pre, pre <+: ins → shownBytes (st.ready.shown sem [] pre) < 128 := by
  have hready : st.ready.Shows [] := shows_of_empty rfl rfl
  refine forall_congr' fun pre => imp_congr_right fun _ => ?_
  obtain ⟨hlen, hbuf⟩ := hready.runKeys sem pre
  rw [QEKeyContext.InBounds, hbuf]
  exact ⟨fun h => h.2, fun h => ⟨hlen, h⟩⟩

end KeyState

/-- Commands without effects. -/
def noEffects : KeyCommands Unit := ⟨fun _ _ _ => [], fun _ _ => []⟩

/-- The editor with some commands and their bindings. -/
def keyStart (cmds : List CmdDef) : KeyState Unit where
  ctx := { argval := noArg, noargval := 1, sign := 1, isUniversalArg := false, isEscape := false, describeKey := false,
           grabbed := false, keys := [], buf := [] }
  firstCmd := cmds
  firstKey := qeRegisterCmdTable none cmds []
  minibuf := false
  mode := "text"
  definingMacro := false
  macroKeys := []
  macroKeyIndex := none
  bottomHalves := 0
  rest := ()

/-- C-u, typed 32 times. -/
theorem not_key_context_bounds :
    ¬ (∀ ins, ((keyStart [⟨keyCtrl 117, keyNone, "universal-argument", .universalArgument, 0⟩]).ready.runKeys noEffects ins).ctx.InBounds) := by
  intro h
  have := h (List.replicate 32 (.key (keyCtrl 117)))
  revert this
  decide +kernel

end Hoe
