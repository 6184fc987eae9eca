import Mathlib.Data.List.Nodup
import Hoe.Lemmas.Windows
import Hoe.Theorems.DeleteWindow
import Hoe.Commands
import Hoe.Lib.Outcome

/-!
# The active window

What the functions of the window list do to the addresses in it, and to the active window: it stays in the list when a window is
closed, as long as there is another one.
-/

namespace Hoe

open Outcome

/-! ## Runs of the commands

A `Guard` says what is asked of each call of a command, of each end of a minibuffer, of each reply and of each preview. What the
steps that a guard lets through keep holds after every run of such steps (`Guard.run_ends`).
-/

/-- What is asked of the steps, in the state they begin in. -/
structure Guard where
  call : UserCommand → WindowPtr → QeState → Prop
  exit : WindowPtr → QeState → Prop
  reply : Bool → MinibufferCb → QeState → Prop
  preview : WindowPtr → QeState → Prop

namespace Guard

variable (g : Guard)

/-- The calls of a command that is executed so many times. -/
def Calls (c : UserCommand) (s : WindowPtr) : Nat → QeState → Prop
  | 0, _ => True
  | n + 1, qe => g.call c s qe ∧ ∀ qe', c.call s qe = .ok qe' → Calls c s n qe'

/-- The callback, with a reply or without one. -/
def Reply (abort : Bool) (qe : QeState) : MinibufferCb → Prop
  | .exec es => abort = false → es.prompts = 0 → g.Calls es.command es.s (max es.rep 1) qe
  | cb => g.reply abort cb qe

/-- The minibuffer is left so many times. -/
def Exits (s : WindowPtr) (abort : Bool) : Nat → QeState → Prop
  | 0, _ => True
  | n + 1, qe => g.exit s qe ∧
      (∀ after cb, qe.closeMinibuffer s = .ok after → qe.minibufferCb = some cb → g.Reply abort after cb) ∧
      ∀ qe', QeState.doMinibufferExit s abort qe = .ok qe' → Exits s abort n qe'

/-- The steps of an event. -/
def Event (qe : QeState) : UserEvent → Prop
  | .key prompts c rep => ∀ s, qe.activeWindow = some s → prompts = 0 → g.Calls c s (max rep 1) qe
  | .exit abort rep => ∀ s, qe.activeWindow = some s → g.Exits s abort (max rep 1) qe
  | .preview i _ _ => ∀ w, qe.windows[i]? = some w → g.preview w.ptr qe
  | .click _ | .resize _ => True

/-- The steps of a run. -/
def Run (qe : QeState) : List UserEvent → Prop
  | [] => True
  | ev :: evs => g.Event qe ev ∧ ∀ qe', ev.run qe = .ok qe' → Run qe' evs

/-- The beginning of a run. -/
theorem Run.initial {g : Guard} {qe : QeState} {evs pre : List UserEvent} (h : g.Run qe evs) (hpre : pre <+: evs) : g.Run qe pre := by
  induction pre generalizing qe evs with
  | nil => trivial
  | cons ev pre ih =>
    obtain ⟨post, rfl⟩ := hpre
    obtain ⟨h1, h2⟩ := h
    exact ⟨h1, fun qe' hrun => ih (h2 qe' hrun) (List.prefix_append pre post)⟩

/-- The steps that the guard lets through keep the property, and end with no other fault. -/
structure Keeps (I : QeState → Prop) (F : Fault → Prop) : Prop where
  null : F .null
  followed : ∀ c s qe, I qe → g.call c s qe → Ends (fun _ => True) F (qe.deref s)
  exited : ∀ s qe, I qe → g.exit s qe → Ends (fun _ => True) F (qe.deref s)
  active : ∀ qe, I qe → Ends (fun _ => True) F qe.active
  call : ∀ c s qe, I qe → g.call c s qe → Ends I F (c.call s qe)
  exit : ∀ s qe, I qe → g.exit s qe → Ends I F (qe.closeMinibuffer s)
  reply : ∀ cb qe, I qe → (∀ es, cb ≠ .exec es) → g.reply false cb qe → Ends I F (qe.reply cb)
  abort : ∀ cb qe, I qe → (∀ es, cb ≠ .exec es) → g.reply true cb qe → Ends I F (qe.abort cb)
  ask : ∀ es qe, I qe → Ends I F (qe.minibufferEdit (.exec es))
  click : ∀ qe w, I qe → w ∈ qe.windows → I { qe with activeWindow := some w.ptr }
  resize : ∀ screen qe, I qe → I { qe with toQEmacsState := doRefresh { qe.toQEmacsState with screen := screen } }
  preview : ∀ w qe filename type, I qe → w ∈ qe.windows → g.preview w.ptr qe → Ends I F (qe.openNewFile w.ptr filename type)

variable {g} {I : QeState → Prop} {F : Fault → Prop}

/-- A command that is called a number of times. -/
theorem Keeps.calls (h : g.Keeps I F) {c : UserCommand} {s : WindowPtr} {n : Nat} {qe : QeState} (hI : I qe)
    (hcalls : g.Calls c s n qe) : Ends I F (QeState.callTimes (c.call s) s n qe) := by
  induction n generalizing qe with
  | zero => exact hI
  | succ n ih =>
    obtain ⟨hcall, hrest⟩ := hcalls
    refine (h.followed c s qe hI hcall).bind fun _ _ _ => (h.call c s qe hI hcall).bind fun qe' hqe' hI' => ?_
    exact ih hI' (hrest qe' hqe')

/-- The answer to a prompt is given, or the prompt is left. -/
theorem Keeps.replied (h : g.Keeps I F) {abort : Bool} {cb : MinibufferCb} {qe : QeState} (hI : I qe) (hcb : g.Reply abort qe cb) :
    Ends I F (if abort then qe.abort cb else qe.reply cb) := by
  by_cases hexec : ∃ es, cb = .exec es
  · obtain ⟨es, rfl⟩ := hexec
    cases abort with
    | true => exact hI
    | false =>
      rw [if_neg (by decide), QeState.reply, QeState.parseArgs]
      split_ifs with hp
      · exact h.calls hI (hcb rfl hp)
      · exact h.ask _ qe hI
  · rw [not_exists] at hexec
    have hother : g.reply abort cb qe := by
      cases cb with
      | exec es => exact absurd rfl (hexec es)
      | _ => exact hcb
    cases abort with
    | true => exact h.abort cb qe hI hexec hother
    | false => exact h.reply cb qe hI hexec hother

/-- The minibuffer is left a number of times. -/
theorem Keeps.exits (h : g.Keeps I F) {s : WindowPtr} {abort : Bool} {n : Nat} {qe : QeState} (hI : I qe)
    (hexits : g.Exits s abort n qe) : Ends I F (QeState.callTimes (QeState.doMinibufferExit s abort) s n qe) := by
  induction n generalizing qe with
  | zero => exact hI
  | succ n ih =>
    obtain ⟨hexit, hreply, hrest⟩ := hexits
    have hclosed : Ends I F (QeState.doMinibufferExit s abort qe) := by
      refine (h.exit s qe hI hexit).bind fun after hafter hI' => ?_
      cases hcb : qe.minibufferCb with
      | none => exact h.null
      | some cb => exact h.replied hI' (hreply after cb hafter hcb)
    exact (h.exited s qe hI hexit).bind fun _ _ _ => hclosed.bind fun qe' hqe' hI' => ih hI' (hrest qe' hqe')

/-- What the user does, a command or an answer. -/
theorem Keeps.event (h : g.Keeps I F) {qe : QeState} (hI : I qe) {ev : UserEvent} (hev : g.Event qe ev) : Ends I F (ev.run qe) := by
  have hactive : ∀ s, qe.active = .ok s → qe.activeWindow = some s := by
    intro s hs
    rw [QeState.active] at hs
    cases hw : qe.activeWindow with
    | none =>
      rw [hw] at hs
      cases hs
    | some t =>
      rw [hw] at hs
      dsimp only at hs
      cases hd : qe.deref t with
      | error e =>
        rw [hd] at hs
        cases hs
      | ok w =>
        rw [hd] at hs
        cases hs
        rfl
  cases ev with
  | key prompts c rep =>
    refine (h.active qe hI).bind fun s hs _ => ?_
    rw [QeState.parseArgs]
    split_ifs with hp
    · exact h.calls hI (hev s (hactive s hs) hp)
    · exact h.ask _ qe hI
  | exit abort rep => exact (h.active qe hI).bind fun s hs _ => h.exits hI (hev s (hactive s hs))
  | click i =>
    rw [UserEvent.run]
    cases hw : qe.windows[i]? with
    | none => exact hI
    | some w =>
      dsimp only
      split_ifs
      · exact hI
      · exact h.click qe w hI (List.mem_of_getElem? hw)
  | resize screen => exact h.resize screen qe hI
  | preview i filename type =>
    rw [UserEvent.run]
    cases hw : qe.windows[i]? with
    | none => exact hI
    | some w => exact h.preview w qe filename type hI (List.mem_of_getElem? hw) (hev w hw)

/-- After every run of steps that the guard lets through the property holds. -/
theorem Keeps.run (h : g.Keeps I F) {qe : QeState} (hI : I qe) {evs : List UserEvent} (hevs : g.Run qe evs) :
    Ends I F (runEvents qe evs) := by
  induction evs generalizing qe with
  | nil => exact hI
  | cons ev evs ih => exact (h.event hI hevs.1).bind fun qe' hqe' hI' => ih hI' (hevs.2 qe' hqe')

end Guard

/-- No pointer to a closed window was followed. -/
def NotFreed (f : Fault) : Prop := f ≠ .freed

/-- Following NULL is no use of freed memory. -/
theorem notFreed_null : NotFreed .null := by
  intro h
  cases h

/-- Every window has its address, and the active window is in the list. -/
structure QEmacsState.Focused (qs : QEmacsState) : Prop where
  ok : qs.Ok
  active : ∃ s ∈ qs.ptrs, qs.activeWindow = some s

/-- The active window is in the list, or there is no window. -/
structure QEmacsState.Settled (qs : QEmacsState) : Prop where
  ok : qs.Ok
  active : (∃ s ∈ qs.ptrs, qs.activeWindow = some s) ∨ qs.activeWindow = none ∧ qs.ptrs = []

/-- With the active window in the list nothing is to be settled. -/
theorem QEmacsState.Focused.settled {qs : QEmacsState} (h : qs.Focused) : qs.Settled := ⟨h.ok, Or.inl h.active⟩

theorem QEmacsState.Settled.focused {qs : QEmacsState} (h : qs.Settled) {s : WindowPtr} (hs : s ∈ qs.ptrs) : qs.Focused := by
  refine ⟨h.ok, ?_⟩
  rcases h.active with hact | ⟨-, hnil⟩
  · exact hact
  · rw [hnil] at hs
    cases hs

/-- Nothing else counts than the addresses and the active window. -/
theorem QEmacsState.Settled.of_ptrs {qs qs' : QEmacsState} (h : qs.Settled) (hptrs : qs'.ptrs = qs.ptrs)
    (hnext : qs'.nextPtr = qs.nextPtr) (hact : qs'.activeWindow = qs.activeWindow) : qs'.Settled := by
  refine ⟨?_, ?_⟩
  · rw [QEmacsState.ok_iff, hptrs, hnext, ← QEmacsState.ok_iff]
    exact h.ok
  · rw [hptrs, hact]
    exact h.active

/-- The same where the active window is in the list. -/
theorem QEmacsState.Focused.of_ptrs {qs qs' : QEmacsState} (h : qs.Focused) (hptrs : qs'.ptrs = qs.ptrs)
    (hnext : qs'.nextPtr = qs.nextPtr) (hact : qs'.activeWindow = qs.activeWindow) : qs'.Focused := by
  obtain ⟨s, hs, -⟩ := h.active
  exact (h.settled.of_ptrs hptrs hnext hact).focused (hptrs ▸ hs)

/-- Another window of the list is made the active one. -/
theorem QEmacsState.Ok.focus {qs : QEmacsState} (h : qs.Ok) {s : WindowPtr} (hs : s ∈ qs.ptrs) :
    QEmacsState.Focused { qs with activeWindow := some s } := ⟨⟨h.nodup, h.fresh⟩, s, hs, rfl⟩

/-! ## Following a pointer -/

/-- A window in the list can be followed. -/
theorem QEmacsState.deref_of_mem {qs : QEmacsState} {s : WindowPtr} (h : s ∈ qs.ptrs) : ∃ w, qs.deref s = .ok w := by
  obtain ⟨e, he, hes⟩ := List.mem_map.1 h
  rw [QEmacsState.deref]
  cases hf : qs.windows.find? (fun e => e.ptr == s) with
  | some w => exact ⟨w, rfl⟩
  | none =>
    have hno := List.find?_eq_none.1 hf e he
    simp [hes] at hno

/-- A pointer to a window of the list is followed. -/
theorem ends_deref {β : Type} {Q : β → Prop} {qs : QEmacsState} {s : WindowPtr} {f : EditState → Except Fault β} (hs : s ∈ qs.ptrs)
    (hf : ∀ w, qs.deref s = .ok w → w ∈ qs.windows → w.ptr = s → Ends Q NotFreed (f w)) :
    Ends Q NotFreed ((qs.deref s).bind f) := by
  obtain ⟨w, hw⟩ := QEmacsState.deref_of_mem hs
  obtain ⟨hmem, hptr⟩ := QEmacsState.deref_ok hw
  rw [hw]
  exact hf w hw hmem hptr

/-- Following it ends without a fault. -/
theorem ends_followed {qs : QEmacsState} {s : WindowPtr} (hs : s ∈ qs.ptrs) : Ends (fun _ => True) NotFreed (qs.deref s) := by
  obtain ⟨w, hw⟩ := QEmacsState.deref_of_mem hs
  rw [hw]
  trivial

/-! ## The functions of the window list -/

/-- `do_refresh` leaves the active window alone. -/
theorem activeWindow_doRefresh (qs : QEmacsState) : (doRefresh qs).activeWindow = qs.activeWindow := by
  have hfit : ∀ q : QEmacsState, (fitToScreen q).activeWindow = q.activeWindow := by
    intro q
    rw [fitToScreen]
    split_ifs <;> rfl
  exact hfit (setBorders qs)

theorem QEmacsState.Focused.doRefresh {qs : QEmacsState} (h : qs.Focused) : (doRefresh qs).Focused :=
  h.of_ptrs (ptrs_doRefresh qs) (nextPtr_doRefresh qs) (activeWindow_doRefresh qs)

/-- A change of a window leaves the addresses alone. -/
theorem ptrs_update (qs : QEmacsState) (s : WindowPtr) {f : EditState → EditState} (hf : ∀ e, (f e).ptr = e.ptr) :
    (qs.update s f).ptrs = qs.ptrs := by
  rw [QEmacsState.update, QEmacsState.ptrs, List.map_map, QEmacsState.ptrs]
  refine List.map_congr_left fun e _ => ?_
  rw [Function.comp_apply]
  split_ifs
  · exact hf e
  · rfl

theorem QEmacsState.Focused.update {qs : QEmacsState} (h : qs.Focused) (s : WindowPtr) {f : EditState → EditState}
    (hf : ∀ e, (f e).ptr = e.ptr) : (qs.update s f).Focused := h.of_ptrs (ptrs_update qs s hf) rfl rfl

/-- A new window is the first one of the list. -/
theorem ptrs_editNew (qs : QEmacsState) (b : Nat) (x1 y1 width height : Int) (flags : WindowFlags) :
    (editNew qs b x1 y1 width height flags).ptrs = qs.nextPtr :: qs.ptrs := rfl

/-- A new window becomes the active one. -/
theorem QEmacsState.Settled.editNew {qs : QEmacsState} (h : qs.Settled) (b : Nat) (x1 y1 width height : Int) (flags : WindowFlags) :
    (editNew qs b x1 y1 width height flags).Focused := by
  obtain ⟨hnd, hlt⟩ := QEmacsState.ok_iff.1 h.ok
  refine ⟨?_, ?_⟩
  · rw [QEmacsState.ok_iff, ptrs_editNew]
    refine ⟨List.nodup_cons.2 ⟨fun hmem => lt_irrefl _ (hlt _ hmem), hnd⟩, ?_⟩
    intro t ht
    rcases List.mem_cons.1 ht with rfl | ht
    · exact Nat.lt_succ_self _
    · exact Nat.lt_succ_of_lt (hlt t ht)
  · rw [ptrs_editNew]
    rcases h.active with ⟨s, hs, hact⟩ | ⟨hnone, -⟩
    · exact ⟨s, List.mem_cons_of_mem _ hs, by rw [Hoe.editNew, hact]; rfl⟩
    · exact ⟨qs.nextPtr, List.mem_cons_self, by rw [Hoe.editNew, hnone]; rfl⟩

/-- Closing a window takes its address out of the list. -/
theorem QEmacsState.Settled.editClose {qs : QEmacsState} (h : qs.Settled) {s : WindowPtr} (hs : s ∈ qs.ptrs) :
    ∃ qs', editClose qs s = .ok qs' ∧ qs'.Settled ∧ qs'.ptrs = qs.ptrs.erase s := by
  obtain ⟨w, hw, rfl⟩ := List.mem_map.1 hs
  obtain ⟨pre, post, ha⟩ := h.ok.at hw
  have herase : qs.ptrs.erase w.ptr = (pre ++ post).map (·.ptr) := by
    have hpre : w.ptr ∉ pre.map (·.ptr) := by
      intro hmem
      obtain ⟨f, hf, hfw⟩ := List.mem_map.1 hmem
      exact ha.other f (List.mem_append_left _ hf) hfw
    rw [ha.ptrs, List.erase_append_right _ hpre, List.erase_cons_head, List.map_append]
  obtain ⟨hnd, hlt⟩ := QEmacsState.ok_iff.1 h.ok
  refine ⟨_, editClose_of_any qs ⟨w, hw, rfl⟩, ⟨?_, ?_⟩, ?_⟩
  · rw [QEmacsState.ok_iff, QEmacsState.ptrs, ha.eraseP, ← herase]
    exact ⟨hnd.erase _, fun t ht => hlt t (List.mem_of_mem_erase ht)⟩
  · rw [QEmacsState.ptrs, ha.eraseP]
    dsimp only
    by_cases hact : qs.activeWindow = some w.ptr
    · rw [if_pos hact]
      cases hrest : pre ++ post with
      | nil => exact Or.inr ⟨rfl, rfl⟩
      | cons e es => exact Or.inl ⟨e.ptr, List.mem_cons_self, rfl⟩
    · rw [if_neg hact, ← herase]
      rcases h.active with ⟨t, ht, hat⟩ | ⟨-, hnil⟩
      · have hne : t ≠ w.ptr := by
          intro heq
          exact hact (by rw [hat, heq])
        exact Or.inl ⟨t, (List.mem_erase_of_ne hne).2 ht, hat⟩
      · rw [hnil] at hs
        cases hs
  · rw [QEmacsState.ptrs, ha.eraseP, herase]

/-- The addresses stay where a window is merged, and the one that grows is another window. -/
theorem mergeWindow_ptrs {qs : QEmacsState} {w : EditState} {ws windows : List EditState} (h : mergeWindow qs w ws = some windows) :
    windows.map (·.ptr) = ws.map (·.ptr) ∧ ∃ e ∈ ws, e.ptr ≠ w.ptr := by
  rcases mergeWindow_eq qs w ws with ⟨-, hnone⟩ | ⟨pre, e, post, e', rfl, -, -, hne, hmerge, hsome⟩
  · rw [hnone] at h
    cases h
  · rw [hsome] at h
    obtain rfl := Option.some.inj h
    refine ⟨?_, e, by simp, hne⟩
    simp [mergeInto_ptr hmerge]

/-- A window is deleted, or its place is given to none, which `do_delete_window` does not expect. -/
theorem ends_doDeleteWindow {qs : QEmacsState} (h : qs.Focused) {s : WindowPtr} (hs : s ∈ qs.ptrs) (force : Bool) :
    Ends (fun qs' => qs'.Focused ∧ ∀ t ∈ qs.ptrs, t ≠ s → t ∈ qs'.ptrs) NotFreed (doDeleteWindow qs s force) := by
  refine ends_deref hs fun w _ _ hptr => ?_
  split_ifs
  · cases hmerge : mergeWindow qs w qs.windows with
    | none => exact notFreed_null
    | some windows =>
      obtain ⟨hptrs, e, he, hne⟩ := mergeWindow_ptrs hmerge
      rw [hptr] at hne
      have hmerged : QEmacsState.Focused { qs with windows := windows } := h.of_ptrs hptrs rfl rfl
      obtain ⟨qs', hclose, hsettled, herase⟩ := hmerged.settled.editClose (show s ∈ windows.map (·.ptr) by rw [hptrs]; exact hs)
      have hkept : ∀ t ∈ qs.ptrs, t ≠ s → t ∈ qs'.ptrs := by
        intro t ht hts
        rw [herase, QEmacsState.ptrs, hptrs]
        exact (List.mem_erase_of_ne hts).2 ht
      dsimp only
      rw [hclose]
      refine ⟨(hsettled.focused (hkept e.ptr (List.mem_map_of_mem he) hne)).doRefresh, ?_⟩
      rw [ptrs_doRefresh]
      exact hkept
  · exact ⟨h, fun t ht _ => ht⟩

/-- Splitting a window in the list. -/
theorem ends_doSplitWindow {qs : QEmacsState} (h : qs.Focused) {s : WindowPtr} (hs : s ∈ qs.ptrs) (horiz : Bool) :
    Ends QEmacsState.Focused NotFreed (doSplitWindow qs s horiz) := by
  refine ends_deref hs fun w _ _ _ => ?_
  split_ifs
  · exact h
  · refine QEmacsState.Focused.doRefresh (QEmacsState.Focused.update ?_ s fun e => ptr_computeClientArea _ e)
    rw [splitWindow]
    split_ifs
    · exact (h.settled.editNew ..).update _ fun _ => rfl
    · exact (h.settled.editNew ..).update _ fun _ => rfl

/-- Going to the next window. -/
theorem ends_doOtherWindow {qs : QEmacsState} (h : qs.Focused) {s : WindowPtr} (hs : s ∈ qs.ptrs) :
    Ends QEmacsState.Focused NotFreed (doOtherWindow qs s) := by
  refine ends_deref hs fun w _ hw _ => ?_
  obtain ⟨t, ht⟩ : ∃ t, ((qs.windows.dropWhile fun e => e.ptr != s).tail.head?).or qs.windows.head? = some t := by
    cases hnext : (qs.windows.dropWhile fun e => e.ptr != s).tail.head? with
    | some t => exact ⟨t, rfl⟩
    | none =>
      cases hwin : qs.windows with
      | nil =>
        rw [hwin] at hw
        cases hw
      | cons e es => exact ⟨e, rfl⟩
  have hmem : t ∈ qs.windows := by
    rcases Option.or_eq_some_iff.1 ht with hnext | ⟨-, hhead⟩
    · have hsuffix := (List.tail_suffix _).trans (List.dropWhile_suffix (l := qs.windows) fun e => e.ptr != s)
      exact hsuffix.subset (List.mem_of_mem_head? hnext)
    · exact List.mem_of_mem_head? hhead
  have hrun : Ends QEmacsState.Focused NotFreed
      (Except.ok { qs with activeWindow := (((qs.windows.dropWhile fun e => e.ptr != s).tail.head?).or qs.windows.head?).map (·.ptr) }) := by
    rw [ht]
    exact h.ok.focus (List.mem_map_of_mem hmem)
  exact hrun

/-! ## Loops that close windows -/

/-- The loop of `do_delete_other_windows` does not close `s`. -/
theorem ends_closeOthers {s : WindowPtr} {es : List EditState} {qs : QEmacsState} (h : qs.Settled) (hs : s ∈ qs.ptrs)
    (hnd : (es.map (·.ptr)).Nodup) (hes : ∀ e ∈ es, e.ptr ∈ qs.ptrs) :
    Ends (fun qs' => qs'.Settled ∧ s ∈ qs'.ptrs) NotFreed (closeOthers s es qs) := by
  induction es generalizing qs with
  | nil => exact ⟨h, hs⟩
  | cons e es ih =>
    obtain ⟨hnew, hnd⟩ := List.nodup_cons.1 hnd
    obtain ⟨he, hes⟩ := List.forall_mem_cons.1 hes
    rw [closeOthers]
    split_ifs with hclose
    · obtain ⟨qs', hqs', hsettled, herase⟩ := h.editClose he
      rw [Bool.and_eq_true, bne_iff_ne] at hclose
      have hne : e.ptr ≠ s := hclose.2
      rw [hqs']
      refine ih hsettled ?_ hnd ?_
      · rw [herase]
        exact (List.mem_erase_of_ne hne.symm).2 hs
      · intro f hf
        rw [herase]
        refine (List.mem_erase_of_ne ?_).2 (hes f hf)
        intro heq
        exact hnew (List.mem_map.2 ⟨f, hf, heq⟩)
    · exact ih h hs hnd hes

/-- Closing all others. -/
theorem ends_doDeleteOtherWindows {qs : QEmacsState} (h : qs.Focused) {s : WindowPtr} (hs : s ∈ qs.ptrs) :
    Ends QEmacsState.Focused NotFreed (doDeleteOtherWindows qs s) := by
  refine ends_deref hs fun _ _ _ _ => ?_
  refine (ends_closeOthers h.settled hs h.ok.nodup fun e he => List.mem_map_of_mem he).bind fun qs' _ hqs' => ?_
  obtain ⟨hsettled, hs'⟩ := hqs'
  exact QEmacsState.Focused.doRefresh ((hsettled.focused hs').update s fun _ => rfl)

/-- The loop of `insert_window_left` closes no window that reaches further to the right, and not the minibuffer. -/
theorem ends_clearLeft {width : Int} {es : List EditState} {qs : QEmacsState} (h : qs.Settled) (hnd : (es.map (·.ptr)).Nodup)
    (hes : ∀ e ∈ es, e.ptr ∈ qs.ptrs) :
    Ends (fun qs' => qs'.Settled ∧ qs'.nextPtr = qs.nextPtr ∧
      ∀ t ∈ qs.ptrs, (∀ e ∈ es, e.ptr = t → e.minibuf = true ∨ width < e.x2) → t ∈ qs'.ptrs) NotFreed (clearLeft width es qs) := by
  induction es generalizing qs with
  | nil => exact ⟨h, rfl, fun t ht _ => ht⟩
  | cons e es ih =>
    obtain ⟨hnew, hnd⟩ := List.nodup_cons.1 hnd
    obtain ⟨he, hes⟩ := List.forall_mem_cons.1 hes
    rw [clearLeft]
    split_ifs with hm hx2 hx1
    · exact (ih h hnd hes).mono (fun qs' hqs' => ⟨hqs'.1, hqs'.2.1, fun t ht hkept =>
        hqs'.2.2 t ht (List.forall_mem_cons.1 hkept).2⟩) fun _ hf => hf
    · obtain ⟨qs₁, hqs₁, hsettled, herase⟩ := h.editClose he
      have hnext : qs₁.nextPtr = qs.nextPtr := by
        rw [editClose_of_any qs (List.mem_map.1 he)] at hqs₁
        rw [← Except.ok.inj hqs₁]
      have hes₁ : ∀ f ∈ es, f.ptr ∈ qs₁.ptrs := by
        intro f hf
        rw [herase]
        refine (List.mem_erase_of_ne ?_).2 (hes f hf)
        intro heq
        exact hnew (List.mem_map.2 ⟨f, hf, heq⟩)
      rw [hqs₁]
      refine (ih hsettled hnd hes₁).mono (fun qs' hqs' => ⟨hqs'.1, hqs'.2.1.trans hnext, fun t ht hkept => ?_⟩) fun _ hf => hf
      obtain ⟨hfirst, hkept⟩ := List.forall_mem_cons.1 hkept
      refine hqs'.2.2 t ?_ hkept
      rw [herase]
      refine (List.mem_erase_of_ne ?_).2 ht
      intro heq
      rcases hfirst heq.symm with hmini | hright
      · exact hm hmini
      · exact absurd hright (not_lt.2 hx2)
    · have hmoved : ∀ f : EditState, ({ f with x1 := width } : EditState).ptr = f.ptr := fun _ => rfl
      have hptrs := ptrs_update qs e.ptr hmoved
      refine (ih (h.of_ptrs hptrs rfl rfl) hnd (by rw [hptrs]; exact hes)).mono (fun qs' hqs' => ⟨hqs'.1, hqs'.2.1, fun t ht hkept =>
        hqs'.2.2 t (by rw [hptrs]; exact ht) (List.forall_mem_cons.1 hkept).2⟩) fun _ hf => hf
    · exact (ih h hnd hes).mono (fun qs' hqs' => ⟨hqs'.1, hqs'.2.1, fun t ht hkept =>
        hqs'.2.2 t ht (List.forall_mem_cons.1 hkept).2⟩) fun _ hf => hf

/-- A window is put on the left, and those that it covers are closed. -/
theorem ends_insertWindowLeft {qs : QEmacsState} (h : qs.Focused) (b : Nat) (width : Int) (flags : WindowFlags) :
    Ends (fun qs' => qs'.Focused ∧ qs.nextPtr ∈ qs'.ptrs ∧
      ∀ e ∈ qs.windows, e.minibuf = true ∨ width < e.x2 → e.ptr ∈ qs'.ptrs) NotFreed (insertWindowLeft qs b width flags) := by
  have hclear : Ends _ _ (clearLeft width qs.windows qs) :=
    ends_clearLeft h.settled h.ok.nodup fun e he => List.mem_map_of_mem he
  refine hclear.map fun qs₁ _ hqs₁ => ?_
  obtain ⟨hsettled, hnext, hkept⟩ := hqs₁
  refine ⟨(hsettled.editNew ..).doRefresh, ?_, ?_⟩
  · rw [ptrs_doRefresh, ptrs_editNew, hnext]
    exact List.mem_cons_self
  · intro e he hright
    rw [ptrs_doRefresh, ptrs_editNew]
    refine List.mem_cons_of_mem _ (hkept e.ptr (List.mem_map_of_mem he) fun f hf heq => ?_)
    obtain rfl : f = e := List.inj_on_of_nodup_map h.ok.nodup hf he heq
    exact hright

end Hoe
