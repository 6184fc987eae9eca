import Hoe.Theorems.Tiling

/-!
# Deleting a window

`do_delete_window` says that it just leaves a hole where no window can be merged with the deleted one. It calls
`compute_client_area` on the window it found all the same, and there is none: a deletion completes exactly when a window shares
a full edge with the deleted one.
-/

namespace Hoe

/-! ## One command -/

/-- The addresses in front of a window, its own, and those behind it. -/
theorem QEmacsState.At.ptrs {qs : QEmacsState} {pre post : List EditState} {w : EditState} (ha : qs.At pre w post) :
    qs.ptrs = pre.map (·.ptr) ++ w.ptr :: post.map (·.ptr) := by
  rw [QEmacsState.ptrs, ha.windows, List.map_append, List.map_cons]

/-- Splitting a window keeps the list sound. -/
theorem doSplitWindow_ok {qs qs' : QEmacsState} (hok : qs.Ok) {s : WindowPtr} {horiz : Bool}
    (h : doSplitWindow qs s horiz = .ok qs') : qs'.Ok := by
  obtain ⟨w, hw, hrest⟩ := of_bind_ok h
  obtain ⟨rfl, pre, post, ha⟩ := hok.followed hw
  cases hm : w.minibuf with
  | true =>
    rw [hm] at hrest
    obtain rfl := Except.ok.inj hrest
    exact hok
  | false =>
    obtain ⟨w', -, -, -, hptr, hd⟩ := doSplitWindow_spec hok ha hm horiz
    obtain rfl := Except.ok.inj (hd.symm.trans h)
    refine QEmacsState.Ok.doRefresh (QEmacsState.ok_iff.mpr ?_)
    have hptrs : ∀ q : QEmacsState, q.windows = splitNew qs w horiz :: pre ++ w' :: post → q.ptrs = qs.nextPtr :: qs.ptrs := by
      intro q hq
      have hnew : (splitNew qs w horiz).ptr = qs.nextPtr := by cases horiz <;> rfl
      rw [ha.ptrs, QEmacsState.ptrs, hq]
      simp [hnew, hptr]
    rw [hptrs _ rfl]
    obtain ⟨hnd, hlt⟩ := QEmacsState.ok_iff.mp hok
    refine ⟨List.nodup_cons.mpr ⟨fun hmem => lt_irrefl _ (hlt _ hmem), hnd⟩, ?_⟩
    intro t ht
    rcases List.mem_cons.mp ht with rfl | ht
    · exact Nat.lt_succ_self _
    · exact Nat.lt_succ_of_lt (hlt t ht)

/-- Going to another window leaves the list as it is. -/
theorem doOtherWindow_windows {qs qs' : QEmacsState} {s : WindowPtr} (h : doOtherWindow qs s = .ok qs') :
    qs'.windows = qs.windows ∧ qs'.nextPtr = qs.nextPtr := by
  obtain ⟨w, -, hrest⟩ := of_bind_ok h
  obtain rfl := Except.ok.inj hrest
  exact ⟨rfl, rfl⟩

/-- A deletion takes one address out of the list. -/
theorem ptrs_doDeleteWindow {qs qs' : QEmacsState} {pre post : List EditState} {w : EditState} (ha : qs.At pre w post)
    {force : Bool} (hm : qs.mayDelete w force = true) (h : doDeleteWindow qs w.ptr force = .ok qs') :
    qs'.ptrs = qs.ptrs.erase w.ptr ∧ qs'.nextPtr = qs.nextPtr := by
  rcases doDeleteWindow_cases ha force with ⟨hf, -⟩ | ⟨-, -, hd⟩ | ⟨-, a, e, b, e', active, hab, -, -, hmerge, hd⟩
  · rw [hm] at hf
    exact absurd hf (by simp)
  · exact absurd (hd.symm.trans h) (by simp)
  · obtain rfl := Except.ok.inj (hd.symm.trans h)
    rw [ptrs_doRefresh, nextPtr_doRefresh]
    refine ⟨?_, rfl⟩
    have hpre : w.ptr ∉ pre.map (·.ptr) := by
      intro hmem
      obtain ⟨f, hf, hfw⟩ := List.mem_map.mp hmem
      exact ha.other f (List.mem_append_left _ hf) hfw
    rw [ha.ptrs, List.erase_append_right _ hpre, List.erase_cons_head, ← List.map_append, hab]
    simp [QEmacsState.ptrs, mergeInto_ptr hmerge]

/-- Deleting a window keeps it sound. -/
theorem doDeleteWindow_ok {qs qs' : QEmacsState} (hok : qs.Ok) {s : WindowPtr} {force : Bool}
    (h : doDeleteWindow qs s force = .ok qs') : qs'.Ok := by
  obtain ⟨w, hw, -⟩ := of_bind_ok h
  obtain ⟨rfl, pre, post, ha⟩ := hok.followed hw
  cases hm : qs.mayDelete w force with
  | false =>
    rcases doDeleteWindow_cases ha force with ⟨-, hd⟩ | ⟨ht, -, -⟩ | ⟨ht, -⟩
    · obtain rfl := Except.ok.inj (hd.symm.trans h)
      exact hok
    · rw [hm] at ht
      exact absurd ht (by simp)
    · rw [hm] at ht
      exact absurd ht (by simp)
  | true =>
    obtain ⟨hptrs, hnext⟩ := ptrs_doDeleteWindow ha hm h
    obtain ⟨hnd, hlt⟩ := QEmacsState.ok_iff.mp hok
    rw [QEmacsState.ok_iff, hptrs, hnext]
    exact ⟨hnd.erase _, fun t ht => hlt t (List.mem_of_mem_erase ht)⟩

/-! ## A run -/

/-- So does each command. -/
theorem LayoutCommand.run_ok {qs qs' : QEmacsState} (hok : qs.Ok) {c : LayoutCommand} (h : c.run qs = .ok qs') : qs'.Ok := by
  cases c with
  | split s horiz => exact doSplitWindow_ok hok h
  | other s =>
    obtain ⟨hw, hn⟩ := doOtherWindow_windows h
    exact ⟨by rw [hw]; exact hok.nodup, by rw [hw, hn]; exact hok.fresh⟩
  | delete s force => exact doDeleteWindow_ok hok h

/-- So does every run of commands. -/
theorem runLayout_ok {qs qs' : QEmacsState} (hok : qs.Ok) {cs : List LayoutCommand} (h : runLayout qs cs = .ok qs') : qs'.Ok := by
  induction cs generalizing qs with
  | nil =>
    obtain rfl := Except.ok.inj h
    exact hok
  | cons c cs ih =>
    obtain ⟨q, hq, hrest⟩ := of_bind_ok h
    exact ih (LayoutCommand.run_ok hok hq) hrest

/-- What the deletion of a window is to do: the window goes out of the list, and where no window shares a full edge with it the
others are left as they are. -/
def DeleteCompletes (qs : QEmacsState) (w : EditState) (force : Bool) : Prop :=
  ∃ qs', doDeleteWindow qs w.ptr force = .ok qs' ∧ qs'.ptrs = qs.ptrs.erase w.ptr ∧
    ((¬ ∃ e ∈ qs.windows, e.minibuf = false ∧ e.ptr ≠ w.ptr ∧ SharesEdge w e) →
      qs'.windows.map EditState.rect = (qs.windows.eraseP fun e => e.ptr == w.ptr).map EditState.rect)

/-- The command follows no pointer that leads nowhere: its window is in the list, and a window that it deletes shares a full
edge with another one. -/
def LayoutCommand.Safe (qs : QEmacsState) : LayoutCommand → Prop
  | .split s _ | .other s => s ∈ qs.ptrs
  | .delete s force => s ∈ qs.ptrs ∧ ∀ w ∈ qs.windows, w.ptr = s → qs.mayDelete w force = true →
      ∃ e ∈ qs.windows, e.minibuf = false ∧ e.ptr ≠ s ∧ SharesEdge w e

/-- Every command of the sequence is safe where the run has come to. -/
def AllSafe (qs : QEmacsState) : List LayoutCommand → Prop
  | [] => True
  | c :: cs => c.Safe qs ∧ ∀ qs', c.run qs = .ok qs' → AllSafe qs' cs

/-- A deletable window of a layout is deleted as it should exactly when some window shares a full edge with it. -/
theorem deleteCompletes_iff {qs : QEmacsState} (hok : qs.Ok) {w : EditState} (hw : w ∈ qs.windows) {force : Bool}
    (hm : qs.mayDelete w force = true) :
    DeleteCompletes qs w force ↔ ∃ e ∈ qs.windows, e.minibuf = false ∧ e.ptr ≠ w.ptr ∧ SharesEdge w e := by
  obtain ⟨pre, post, ha⟩ := hok.at hw
  rw [← exists_sharer]
  constructor
  · rintro ⟨qs', hd, -⟩
    rcases doDeleteWindow_cases ha force with ⟨hf, -⟩ | ⟨-, -, hnull⟩ | ⟨-, a, e, b, e', active, -, hsh, -⟩
    · rw [hm] at hf
      exact absurd hf (by simp)
    · exact absurd (hnull.symm.trans hd) (by simp)
    · exact ⟨e, hsh⟩
  · intro hsh
    rcases doDeleteWindow_cases ha force with ⟨hf, -⟩ | ⟨-, hnone, -⟩ | ⟨-, a, e, b, e', active, -, -, -, -, hd⟩
    · rw [hm] at hf
      exact absurd hf (by simp)
    · obtain ⟨e, he⟩ := hsh
      rw [hnone] at he
      exact absurd he (by simp)
    · refine ⟨_, hd, (ptrs_doDeleteWindow ha hm hd).1, ?_⟩
      intro hno
      exact absurd (exists_sharer.mp hsh) hno

/-- A safe command runs through. -/
theorem LayoutCommand.Safe.run {qs : QEmacsState} (hok : qs.Ok) {c : LayoutCommand} (hs : c.Safe qs) : ∃ qs', c.run qs = .ok qs' := by
  have hat : ∀ s ∈ qs.ptrs, ∃ pre w post, w.ptr = s ∧ qs.At pre w post := by
    intro s hs
    obtain ⟨w, hw, rfl⟩ := List.mem_map.mp hs
    obtain ⟨pre, post, ha⟩ := hok.at hw
    exact ⟨pre, w, post, rfl, ha⟩
  cases c with
  | split s horiz =>
    obtain ⟨pre, w, post, rfl, ha⟩ := hat s hs
    cases hm : w.minibuf with
    | true =>
      refine ⟨qs, ?_⟩
      rw [LayoutCommand.run, doSplitWindow, ha.deref]
      exact if_pos hm
    | false =>
      obtain ⟨w', -, -, -, -, hd⟩ := doSplitWindow_spec hok ha hm horiz
      exact ⟨_, hd⟩
  | other s =>
    obtain ⟨pre, w, post, rfl, ha⟩ := hat s hs
    exact ⟨_, by rw [LayoutCommand.run, doOtherWindow, ha.deref]; rfl⟩
  | delete s force =>
    obtain ⟨pre, w, post, rfl, ha⟩ := hat s hs.1
    rcases doDeleteWindow_cases ha force with ⟨-, hd⟩ | ⟨hm, hnone, -⟩ | ⟨-, a, e, b, e', active, -, -, -, -, hd⟩
    · exact ⟨qs, hd⟩
    · obtain ⟨e, he⟩ := exists_sharer.mpr (hs.2 w ha.mem rfl hm)
      rw [hnone] at he
      exact absurd he (by simp)
    · exact ⟨_, hd⟩

/-- A run whose commands are all safe ends without a fault. -/
theorem AllSafe.run {qs : QEmacsState} (hok : qs.Ok) {cs : List LayoutCommand} (hs : AllSafe qs cs) :
    ∃ qs', runLayout qs cs = .ok qs' := by
  induction cs generalizing qs with
  | nil => exact ⟨qs, rfl⟩
  | cons c cs ih =>
    obtain ⟨q, hq⟩ := hs.1.run hok
    obtain ⟨qs', hrest⟩ := ih (LayoutCommand.run_ok hok hq) (hs.2 q hq)
    refine ⟨qs', ?_⟩
    rw [runLayout, hq]
    exact hrest

/-- In every layout that splits, switches and deletions make of the single first window, a deletable window is deleted as it
should exactly when some window shares a full edge with it; and a run whose deletions all meet that condition goes through. -/
theorem delete_window_completes (screen : QEditScreen) (hideStatus : Bool) (cs : List LayoutCommand) :
    (∀ qs, runLayout (startup screen hideStatus) cs = .ok qs → ∀ w ∈ qs.windows, ∀ force, qs.mayDelete w force = true →
      (DeleteCompletes qs w force ↔ ∃ e ∈ qs.windows, e.minibuf = false ∧ e.ptr ≠ w.ptr ∧ SharesEdge w e)) ∧
    (AllSafe (startup screen hideStatus) cs → ∃ qs, runLayout (startup screen hideStatus) cs = .ok qs) := by
  have hstart := startup_ok screen hideStatus
  constructor
  · intro qs hrun w hw force hm
    exact deleteCompletes_iff (runLayout_ok hstart hrun) hw hm
  · intro hs
    exact hs.run hstart

/-- The window on the left of two that lie over each other shares no full edge: deleting it follows NULL. -/
theorem not_delete_completes :
    ¬ ∀ cs qs, runLayout (startup terminal false) cs = .ok qs → ∀ w ∈ qs.windows, qs.mayDelete w false = true →
      DeleteCompletes qs w false := by
  intro h
  have hrun : ∃ qs, runLayout (startup terminal false) [.split 0 true, .split 1 false] = .ok qs ∧
      doDeleteWindow qs 0 false = .error .null ∧ ∃ w ∈ qs.windows, w.ptr = 0 ∧ qs.mayDelete w false = true :=
    ⟨_, rfl, rfl, by decide +kernel⟩
  obtain ⟨qs, hqs, hnull, w, hw, hptr, hm⟩ := hrun
  obtain ⟨qs', hd, -⟩ := h _ qs hqs w hw hm
  rw [hptr, hnull] at hd
  exact absurd hd (by simp)

end Hoe
