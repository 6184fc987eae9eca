import Hoe.Lemmas.References
import Hoe.Theorems.ActiveWindow

/-!
# References to buffers

A window, the kill ring, the undo log of a buffer and the stack of marks refer to a buffer by its address, and nothing that frees
one looks at all of them. Every reference is to a buffer of the list, in every run that frees no buffer which something else still
refers to, and no log but with its buffer (`references_live`).
-/

namespace Hoe

open Outcome BufferList

/-- What refers to a buffer: a window, an entry of the kill ring, a mark, or the buffer whose log it is. -/
inductive Reference where
  | window (s : WindowPtr)
  | yank (i : Nat)
  | mark (i : Nat)
  | log (b : BufferPtr)
deriving DecidableEq, Repr

/-- The references to windows. -/
def Reference.IsWindow (r : Reference) : Prop := ∃ s, r = .window s

namespace QeState

/-- The reference leads to the buffer at `b`. -/
def Refers (qe : QeState) (b : BufferPtr) : Reference → Prop
  | .window s => ∃ w ∈ qe.windows, w.ptr = s ∧ w.b = b
  | .yank i => qe.yankBuffers[i]? = some (some b)
  | .mark i => qe.marks[i]? = some b
  | .log a => qe.LogOf a b

/-- Every reference leads to a buffer of the list. -/
def NoDangling (qe : QeState) : Prop := ∀ b r, qe.Refers b r → b ∈ qe.live

/-- The owners alone refer to the buffer. -/
def OnlyBy (qe : QeState) (owners : Reference → Prop) (b : BufferPtr) : Prop := ∀ r, qe.Refers b r → owners r

/-- Only the buffer itself refers to its log. -/
def LogAlone (qe : QeState) (b : BufferPtr) : Prop := ∀ r, qe.LogOf b r → qe.OnlyBy (· = .log b) r

/-- The owners alone refer to the buffer, and the buffer alone to its log. -/
def Freeable (qe : QeState) (owners : Reference → Prop) (b : BufferPtr) : Prop := qe.OnlyBy owners b ∧ qe.LogAlone b

/-- A buffer that is killed by its name, without a question, is referred to by windows alone. -/
def KillFreeable (qe : QeState) (name : String) : Prop :=
  ∀ b, qe.ebFind name = some b → ¬ (b.modified && b.filename != "") = true → qe.Freeable Reference.IsWindow b.ptr

/-- So it is with each of the names, when it is its turn. -/
def KillsFreeable (yes : Bool) : List String → QeState → Prop
  | [], _ => True
  | name :: names, qe => qe.KillFreeable name ∧ ∀ qe', qe.doKillBuffer name yes = .ok qe' → KillsFreeable yes names qe'

end QeState

/-- What keeps the buffers alive. A help buffer is there before the bindings are described. What is freed with a popup or a
minibuffer, a yank buffer that is used again, a buffer that is killed, and a preview, is referred to by nothing else. A log that
is reset, or freed with its buffer, is referred to by its buffer alone. -/
def bufferGuard : Guard where
  call c s qe :=
    match c with
    | .describeBindings => (qe.ebFind "*Help*").isSome = true
    | .lessQuit => ∀ w ∈ qe.windows, w.ptr = s → qe.Freeable (· = .window s) w.b
    | .killRegion _ _ _ => ∀ w ∈ qe.windows, w.ptr = s → qe.isReadOnly w.b = false →
        ∀ b, qe.yankBuffer qe.nextYank = some b → qe.Freeable (· = .yank qe.nextYank) b
    | .bufedKillBuffer names yes => QeState.KillsFreeable yes names qe
    | .killBuffer name _ => qe.KillFreeable name
    | .findAlternateFile _ _ _ => ∀ w ∈ qe.windows, w.ptr = s → qe.KillFreeable (((qe.entry w.b).map (·.name)).getD "")
    | .save saveAs _ written => ∀ w ∈ qe.windows, w.ptr = s → ∀ c, qe.entry w.b = some c → c.modified = true → c.filename ≠ "" →
        saveAs = false → written = true → qe.LogAlone w.b
    | .compile _ => ∀ b, qe.ebFind "*compilation*" = some b → qe.Freeable Reference.IsWindow b.ptr
    | _ => True
  exit s qe := ∀ p, p = s ∨ qe.completionPopupWindow = some p → ∀ w ∈ qe.windows, w.ptr = p → qe.Freeable (· = .window p) w.b
  reply abort cb qe :=
    match cb with
    | .killBuffer b yes => abort = false → yes = true → qe.Freeable Reference.IsWindow b
    | .saveEdit s _ written => abort = false → written = true → ∀ w ∈ qe.windows, w.ptr = s → qe.LogAlone w.b
    | _ => True
  preview s qe := ∀ w ∈ qe.windows, w.ptr = s → ∀ e, findWindowRight qe.toQEmacsState w = some e → ∀ c, qe.entry e.b = some c →
    c.flags.preview = true → c.modified = false → (∀ e1 ∈ qe.windows, e1.ptr ≠ s → e1.ptr ≠ e.ptr → e1.b ≠ e.b) →
      qe.Freeable (· = .window e.ptr) e.b

namespace QeState

variable {qe : QeState} {b : BufferPtr} {s : WindowPtr} {l : BufferList}

/-- The list is sound, and every reference leads to a buffer of it. -/
structure Alive (qe : QeState) : Prop where
  list : qe.toBufferList.Sound
  shows : qe.toQEmacsState.Shows fun _ b => b ∈ qe.live
  yanks : ∀ (i : Nat) (b : BufferPtr), qe.yankBuffers[i]? = some (some b) → b ∈ qe.live
  marks : ∀ (i : Nat) (b : BufferPtr), qe.marks[i]? = some b → b ∈ qe.live

/-- A state that is alive has no dangling reference. -/
theorem Alive.noDangling (h : qe.Alive) : qe.NoDangling := by
  intro b r hr
  cases r with
  | window s =>
    obtain ⟨w, hw, -, rfl⟩ := hr
    exact h.shows.shown w hw
  | yank i => exact h.yanks i b hr
  | mark i => exact h.marks i b hr
  | log a => exact h.list.log_live hr

/-! ## Changes that free nothing -/

/-- The list of buffers may grow. -/
theorem Alive.grow (h : qe.Alive) (hl : qe.toBufferList.Grows l) : Alive { qe with toBufferList := l } :=
  ⟨hl.sound, h.shows.mono fun _ => hl.kept, fun i b hb => hl.kept b (h.yanks i b hb), fun i b hb => hl.kept b (h.marks i b hb)⟩

/-- What is done to the windows alone shows buffers of the list. -/
theorem Alive.onWindows (h : qe.Alive) {f : QEmacsState → Except Fault QEmacsState}
    (hf : Ends (QEmacsState.Shows fun _ b => b ∈ qe.live) (fun _ => True) (f qe.toQEmacsState)) :
    Ends Alive (fun _ => True) (qe.onWindows f) :=
  hf.map fun _ _ hqs => ⟨h.list, hqs, h.yanks, h.marks⟩

/-- A buffer is changed, which may give it a log. -/
theorem Alive.changed (h : qe.Alive) (change : Bool) (b : BufferPtr) : (qe.changed change b).Alive := by
  cases change with
  | false => exact h
  | true => exact h.grow (h.list.ebAddlog b)

/-- A window goes to a buffer of the list. -/
theorem Alive.switchToBuffer (h : qe.Alive) (s : WindowPtr) (hb : b ∈ qe.live) : (qe.switchToBuffer s b).Alive := by
  refine ⟨h.list, QEmacsState.Shows.of_map h.shows.ok rfl rfl ?_, h.yanks, h.marks⟩
  intro w hw
  split_ifs
  · exact ⟨rfl, hb⟩
  · exact ⟨rfl, h.shows.shown w hw⟩

/-- The windows are moved, or one is opened on a buffer of the list. -/
theorem Alive.shown (h : qe.Alive) {qs : QEmacsState} (hqs : qs.Shows fun _ b => b ∈ qe.live) :
    Alive { qe with toQEmacsState := qs } :=
  ⟨h.list, hqs, h.yanks, h.marks⟩

/-- The minibuffer is opened. -/
theorem Alive.minibufferEdit (h : qe.Alive) (cb : MinibufferCb) : Ends Alive (fun _ => True) (qe.minibufferEdit cb) := by
  rw [QeState.minibufferEdit]
  split_ifs
  · cases cb with
    | insertRectangle t => exact ends_deref_any fun _ _ _ => trivial
    | _ => exact h
  · have hgrown := h.grow (h.list.ebNew "*minibuf*" { system := true })
    have hopened := hgrown.shows.editNew (b := qe.nextBuffer) List.mem_cons_self
    refine ⟨hgrown.list, ?_, hgrown.yanks, hgrown.marks⟩
    exact ((hopened ..).update qe.nextPtr (f := fun e => { e with minibuf := true }) fun _ => ⟨rfl, rfl⟩).focus _

/-- A popup is opened on a buffer of the list. -/
theorem Alive.showPopup (h : qe.Alive) (hb : b ∈ qe.live) : (qe.showPopup b).Alive :=
  ⟨h.list, QEmacsState.Shows.doRefresh (QEmacsState.Shows.focus (h.shows.editNew hb ..) _), h.yanks, h.marks⟩

/-! ## Frees -/

/-- Nothing new refers to the log of a buffer. -/
theorem LogAlone.anti {qe' : QeState} (h : qe.LogAlone b) (hrefers : ∀ d r, qe'.Refers d r → qe.Refers d r) : qe'.LogAlone b :=
  fun d hd r hr => h d (hrefers d (.log b) hd) r (hrefers d r hr)

/-- Where nothing new refers to a buffer, it may be freed as before. -/
theorem Freeable.anti {qe' : QeState} {owners : Reference → Prop} (h : qe.Freeable owners b)
    (hrefers : ∀ d r, qe'.Refers d r → qe.Refers d r) : qe'.Freeable owners b :=
  ⟨fun r hr => h.1 r (hrefers b r hr), h.2.anti hrefers⟩

/-- A buffer has its log to itself. -/
theorem LogAlone.sole (h : qe.LogAlone b) : ∀ r, qe.LogOf b r → ∀ a, qe.LogOf a r → a = b :=
  fun r hr a ha => Reference.log.inj (h r hr (.log a) ha)

/-- What is freed leaves the references alone that are not its owners'. -/
theorem Alive.free (h : qe.Alive) {owners : Reference → Prop} (hfree : qe.Freeable owners b) (hlogs : ∀ a, ¬ owners (.log a)) :
    (qe.ebFree b).Sound ∧ (∀ d ∈ qe.live, ¬ qe.Leaves b d → d ∈ (qe.ebFree b).live) ∧
      (∀ d r, qe.Refers d r → (∀ a, r ≠ .log a) → r = .log b ∨ ¬ owners r → d ∈ (qe.ebFree b).live) ∧
      ∀ a r, (qe.ebFree b).LogOf a r → qe.LogOf a r := by
  obtain ⟨honly, halone⟩ := hfree
  obtain ⟨hsound, hkept, hsame⟩ := h.list.ebFree halone.sole fun a ha => hlogs a (honly (.log a) ha)
  refine ⟨hsound, hkept, ?_, hsame⟩
  intro d r hr hlog howner
  refine hkept d (h.noDangling d r hr) ?_
  rintro (rfl | hdlog)
  · exact howner.elim (hlog d) fun hno => hno (honly r hr)
  · exact hlog b (halone d hdlog r hr)

/-- A window is closed, and its buffer is freed. -/
theorem Alive.freeClosed (h : qe.Alive) {p : WindowPtr} (hfree : qe.Freeable (· = .window p) b) (qs : QEmacsState)
    (hwindows : qs.windows = qe.windows) (hnext : qs.nextPtr = qe.nextPtr) :
    (qe.ebFree b).Sound ∧
      Ends (QEmacsState.Shows fun q d => d ∈ (qe.ebFree b).live ∧ qe.Refers d (.window q)) (fun _ => True) (editClose qs p) ∧
      (∀ (i : Nat) (d : BufferPtr), qe.yankBuffers[i]? = some (some d) → d ∈ (qe.ebFree b).live) ∧
      (∀ (i : Nat) (d : BufferPtr), qe.marks[i]? = some d → d ∈ (qe.ebFree b).live) ∧
      ∀ a r, (qe.ebFree b).LogOf a r → qe.LogOf a r := by
  obtain ⟨hsound, -, hkept, hsame⟩ := h.free hfree fun a => Reference.noConfusion
  refine ⟨hsound, ?_, ?_, ?_, hsame⟩
  · refine QEmacsState.Shows.editClose ?_ ?_
    · exact ⟨hwindows ▸ h.shows.ok.nodup, by rw [hwindows, hnext]; exact h.shows.ok.fresh⟩
    · rw [hwindows]
      intro w hw hwp
      refine ⟨hkept w.b (.window w.ptr) ⟨w, hw, rfl, rfl⟩ (fun a => Reference.noConfusion) (Or.inr ?_), w, hw, rfl, rfl⟩
      intro heq
      exact hwp (Reference.window.inj heq)
  · exact fun i d hd => hkept d (.yank i) hd (fun a => Reference.noConfusion) (Or.inr Reference.noConfusion)
  · exact fun i d hd => hkept d (.mark i) hd (fun a => Reference.noConfusion) (Or.inr Reference.noConfusion)

/-- A popup is left, and its buffer freed when nothing else refers to it. -/
theorem Alive.lessQuit (h : qe.Alive) (hfree : ∀ w ∈ qe.windows, w.ptr = s → qe.Freeable (· = .window s) w.b) :
    Ends Alive (fun _ => True) (qe.lessQuit s) := by
  refine ends_deref_any fun w hw hs => ?_
  obtain ⟨hsound, hclosed, hyanks, hmarks, -⟩ := h.freeClosed (hfree w hw hs)
    { qe.toQEmacsState with activeWindow := qe.popupSavedActive } rfl rfl
  exact hclosed.bind fun qs _ hqs => ⟨hsound, hqs.mono fun _ _ hb => hb.1, hyanks, hmarks⟩

/-- The completion popup is closed, and nothing refers to another buffer than before. -/
theorem Alive.closeCompletion (h : qe.Alive)
    (hfree : ∀ p, qe.completionPopupWindow = some p → ∀ w ∈ qe.windows, w.ptr = p → qe.Freeable (· = .window p) w.b) :
    Ends (fun qe' => qe'.Alive ∧ ∀ d r, qe'.Refers d r → qe.Refers d r) (fun _ => True) qe.closeCompletion := by
  rw [QeState.closeCompletion]
  cases hp : qe.completionPopupWindow with
  | none => exact ⟨h, fun _ _ hr => hr⟩
  | some p =>
    refine ends_deref_any fun w hw hwp => ?_
    obtain ⟨hsound, hclosed, hyanks, hmarks, hsame⟩ := h.freeClosed (hfree p hp w hw hwp) qe.toQEmacsState rfl rfl
    refine hclosed.bind fun qs _ hqs => ⟨⟨hsound, hqs.doRefresh.mono fun _ _ hb => hb.1, hyanks, hmarks⟩, ?_⟩
    intro d r hr
    cases r with
    | window q =>
      obtain ⟨v, hv, rfl, rfl⟩ := hr
      exact (hqs.doRefresh.shown v hv).2
    | yank i => exact hr
    | mark i => exact hr
    | log a => exact hsame a d hr

/-- The minibuffer is closed. -/
theorem Alive.closeMinibuffer (h : qe.Alive) (hfree : bufferGuard.exit s qe) :
    Ends Alive (fun _ => True) (qe.closeMinibuffer s) := by
  refine ends_deref_any fun w hw hs => ?_
  refine (h.closeCompletion fun p hp => hfree p (Or.inr hp)).bind fun qe' _ hqe' => ?_
  obtain ⟨hqe', hrefers⟩ := hqe'
  obtain ⟨hsound, hclosed, hyanks, hmarks, -⟩ := hqe'.freeClosed
    ((hfree s (Or.inl rfl) w hw hs).anti hrefers) qe'.toQEmacsState rfl rfl
  exact hclosed.bind fun qs _ hqs => ⟨hsound, (hqs.focus _).mono fun _ _ hb => hb.1, hyanks, hmarks⟩

/-- The yank buffer that is used again is freed. -/
theorem Alive.newYankBuffer (h : qe.Alive)
    (hfree : ∀ b, qe.yankBuffer qe.nextYank = some b → qe.Freeable (· = .yank qe.nextYank) b) : qe.newYankBuffer.Alive := by
  obtain ⟨l, hl, hsound, hkept⟩ : ∃ l : BufferList,
      qe.newYankBuffer = { qe with
        toBufferList := l.ebNew "*yank*" { system := true }
        yankBuffers := qe.yankBuffers.set qe.nextYank (some qe.nextBuffer)
        yankCurrent := qe.nextYank } ∧ l.Sound ∧ l.nextBuffer = qe.nextBuffer ∧
      ∀ d r, qe.Refers d r → (∀ a, r ≠ .log a) → r ≠ .yank qe.nextYank → d ∈ l.live := by
    rw [QeState.newYankBuffer]
    cases hold : qe.yankBuffer qe.nextYank with
    | none => exact ⟨_, rfl, h.list, rfl, fun d r hr _ _ => h.noDangling d r hr⟩
    | some b =>
      obtain ⟨hsound, -, hkept, -⟩ := h.free (hfree b hold) fun a => Reference.noConfusion
      exact ⟨_, rfl, hsound, nextBuffer_ebFree qe.toBufferList b, fun d r hr hlog hne => hkept d r hr hlog (Or.inr hne)⟩
  obtain ⟨hnext, hkept⟩ := hkept
  rw [hl]
  have hnew := hsound.ebNew "*yank*" { system := true }
  refine ⟨hnew.sound, ⟨h.shows.ok, ?_⟩, ?_, ?_⟩
  · intro w hw
    exact hnew.kept w.b (hkept w.b (.window w.ptr) ⟨w, hw, rfl, rfl⟩ (fun a => Reference.noConfusion) Reference.noConfusion)
  · intro i d hd
    rw [List.getElem?_set] at hd
    split_ifs at hd with hi hlt
    · obtain rfl := Option.some.inj (Option.some.inj hd)
      rw [← hnext]
      exact List.mem_cons_self
    · refine hnew.kept d (hkept d (.yank i) hd (fun a => Reference.noConfusion) ?_)
      intro heq
      exact hi (Reference.yank.inj heq).symm
  · intro i d hd
    exact hnew.kept d (hkept d (.mark i) hd (fun a => Reference.noConfusion) Reference.noConfusion)

/-- The windows on a killed buffer are switched to another one. -/
theorem Alive.killBufferNoconfirm (h : qe.Alive) (hfree : qe.Freeable Reference.IsWindow b) :
    (qe.killBufferNoconfirm b).Alive := by
  obtain ⟨hgrows, hlogs, hother, hnot⟩ := h.list.otherBuffer b
  obtain ⟨other, hl⟩ : ∃ other, other = otherBuffer qe.toBufferList b := ⟨_, rfl⟩
  rw [← hl] at hgrows hlogs hother hnot
  have hgrown := h.grow hgrows
  have hfree' : QeState.Freeable { qe with toBufferList := other.1 } Reference.IsWindow b := by
    refine hfree.anti fun d r hr => ?_
    cases r with
    | log a => exact hlogs a d hr
    | _ => exact hr
  have howner : ∀ a, ¬ Reference.IsWindow (.log a) := by
    rintro a ⟨s, hs⟩
    cases hs
  obtain ⟨hsound, hstays, hkept, -⟩ := hgrown.free hfree' howner
  rw [QeState.killBufferNoconfirm, ← hl]
  refine ⟨hsound, QEmacsState.Shows.doRefresh (QEmacsState.Shows.of_map h.shows.ok rfl rfl ?_), ?_, ?_⟩
  · intro w hw
    split_ifs with hwb
    · refine ⟨rfl, hstays other.2 hother (hnot ?_)⟩
      rw [← hwb]
      exact h.shows.shown w hw
    · refine ⟨rfl, hstays w.b (hgrown.shows.shown w hw) ?_⟩
      rintro (heq | hlog)
      · exact hwb heq
      · cases hfree'.2 w.b hlog (.window w.ptr) ⟨w, hw, rfl, rfl⟩
  · intro i d hd
    refine hkept d (.yank i) hd (fun a => Reference.noConfusion) (Or.inr ?_)
    rintro ⟨s, hs⟩
    cases hs
  · intro i d hd
    refine hkept d (.mark i) hd (fun a => Reference.noConfusion) (Or.inr ?_)
    rintro ⟨s, hs⟩
    cases hs

/-- A buffer is killed that nothing else refers to. -/
theorem Alive.doKillBuffer (h : qe.Alive) {name : String} (hfree : qe.KillFreeable name) (yes : Bool) :
    Ends Alive (fun _ => True) (qe.doKillBuffer name yes) := by
  rw [QeState.doKillBuffer]
  cases hfind : qe.ebFind name with
  | none => exact h
  | some c =>
    dsimp only
    split_ifs with hask
    · exact h.minibufferEdit _
    · exact h.killBufferNoconfirm (hfree c hfind hask)

/-- A number of buffers are killed. -/
theorem Alive.killBuffers (h : qe.Alive) {yes : Bool} {names : List String} (hfree : KillsFreeable yes names qe) :
    Ends Alive (fun _ => True) (killBuffers yes names qe) := by
  induction names generalizing qe with
  | nil => exact h
  | cons name names ih => exact (h.doKillBuffer hfree.1 yes).bind fun qe' hqe' halive => ih halive (hfree.2 qe' hqe')

/-- A buffer is saved, which frees its log. -/
theorem Alive.saveFinal (h : qe.Alive) {written : Bool} (halone : written = true → qe.LogAlone b) :
    (qe.saveFinal b written).Alive := by
  cases written with
  | false => exact h
  | true =>
    obtain ⟨hsound, hkept, -⟩ := h.list.logReset (halone rfl).sole
    have hstays : ∀ d r, qe.Refers d r → (∀ a, r ≠ .log a) → d ∈ (qe.logReset b).live := by
      intro d r hr hlog
      refine hkept d (h.noDangling d r hr) ?_
      intro hd
      exact hlog b (halone rfl d hd r hr)
    refine ⟨hsound, ⟨h.shows.ok, ?_⟩, ?_, ?_⟩
    · exact fun w hw => hstays w.b (.window w.ptr) ⟨w, hw, rfl, rfl⟩ fun a => Reference.noConfusion
    · exact fun i d hd => hstays d (.yank i) hd fun a => Reference.noConfusion
    · exact fun i d hd => hstays d (.mark i) hd fun a => Reference.noConfusion

/-! ## Loading a file -/

/-- A window is switched to the buffer of a file, which is in the list after. -/
theorem ends_doLoad (hl : qe.toBufferList.Sound) (s : WindowPtr) (filename : String) (type : FileType) :
    Ends (fun qe' => ∃ l b, qe.toBufferList.Grows l ∧ b ∈ l.live ∧ qe' = QeState.switchToBuffer { qe with toBufferList := l } s b)
      (fun _ => True) (qe.doLoad s filename type) := by
  refine ends_deref_any fun _ _ _ => ?_
  cases hfind : qe.ebFindFile filename with
  | some c => exact ⟨_, c.ptr, hl.refl, ebFindFile_live hfind, rfl⟩
  | none =>
    have hnew := hl.ebNew "" { savelog := true }
    have hnamed := hnew.sound.setFilename qe.nextBuffer filename
    have hmem := hnamed.kept qe.nextBuffer List.mem_cons_self
    cases type with
    | directory changed =>
      have hlist := hnamed.sound.buildDiredList qe.nextBuffer changed
      exact ⟨_, _, (hnew.trans hnamed).trans hlist, hlist.kept _ hmem, rfl⟩
    | missing => exact ⟨_, _, hnew.trans hnamed, hmem, rfl⟩
    | regular => exact ⟨_, _, hnew.trans hnamed, hmem, rfl⟩

/-- A file is visited. -/
theorem Alive.doLoad (h : qe.Alive) (s : WindowPtr) (filename : String) (type : FileType) :
    Ends Alive (fun _ => True) (qe.doLoad s filename type) := by
  refine (ends_doLoad h.list s filename type).mono ?_ fun _ hf => hf
  rintro _ ⟨l, b, hgrows, hb, rfl⟩
  exact (h.grow hgrows).switchToBuffer s hb

/-- A window goes to a buffer by its name. -/
theorem Alive.doSwitchToBuffer (h : qe.Alive) (s : WindowPtr) (name : String) :
    Ends Alive (fun _ => True) (qe.doSwitchToBuffer s name) := by
  refine ends_deref_any fun _ _ _ => ?_
  cases hfind : qe.ebFind name with
  | none => exact (h.grow (h.list.ebNew name { savelog := true })).switchToBuffer s List.mem_cons_self
  | some c => exact h.switchToBuffer s (ebFind_live hfind)

/-- A file is visited in place of another one, whose buffer is killed. -/
theorem Alive.doFindAlternateFile (h : qe.Alive)
    (hfree : ∀ w ∈ qe.windows, w.ptr = s → qe.KillFreeable (((qe.entry w.b).map (·.name)).getD "")) (filename : String)
    (type : FileType) (yes : Bool) : Ends Alive (fun _ => True) (qe.doFindAlternateFile s filename type yes) :=
  ends_deref_any fun w hw hs => (h.doKillBuffer (hfree w hw hs) yes).bind fun _ _ hqe' => hqe'.doLoad s filename type

/-- The preview is freed that the window shows, and another file is loaded into it. -/
theorem Alive.openNewFile (h : qe.Alive) (hfree : bufferGuard.preview s qe) (filename : String) (type : FileType) :
    Ends Alive (fun _ => True) (qe.openNewFile s filename type) := by
  refine ends_deref_any fun w hw hs => ?_
  cases hfind : findWindowRight qe.toQEmacsState w with
  | none => exact h
  | some e =>
    have hclosed : (qe.closePreview s e).Sound ∧
        ∀ d r, qe.Refers d r → (∀ a, r ≠ .log a) → r ≠ .window e.ptr → d ∈ (qe.closePreview s e).live := by
      have hsame : ∀ d r, qe.Refers d r → (∀ a, r ≠ .log a) → r ≠ .window e.ptr → d ∈ qe.live :=
        fun d r hr _ _ => h.noDangling d r hr
      rw [closePreview]
      cases hentry : qe.entry e.b with
      | none => exact ⟨h.list, hsame⟩
      | some c =>
        dsimp only
        split_ifs with hpreview
        · rw [Bool.and_eq_true, Bool.and_eq_true, Bool.not_eq_true', Bool.not_eq_true'] at hpreview
          obtain ⟨⟨hflag, hmodified⟩, hothers⟩ := hpreview
          have hone : ∀ e1 ∈ qe.windows, e1.ptr ≠ s → e1.ptr ≠ e.ptr → e1.b ≠ e.b := by
            intro e1 he1 h1 h2 h3
            have hno := List.any_eq_false.1 hothers e1 he1
            simp [h1, h2, h3] at hno
          have hfreeable := hfree w hw hs e hfind c hentry hflag hmodified hone
          obtain ⟨hsound, -, hkept, -⟩ := h.free hfreeable fun a => Reference.noConfusion
          exact ⟨hsound, fun d r hr hlog hne => hkept d r hr hlog (Or.inr hne)⟩
        · exact ⟨h.list, hsame⟩
    obtain ⟨hsound, hkept⟩ := hclosed
    refine (ends_doLoad hsound e.ptr filename type).bind fun qe' _ hqe' => ?_
    obtain ⟨l, b, hgrows, hb, rfl⟩ := hqe'
    have hswitched : Alive (QeState.switchToBuffer { qe with toBufferList := l } e.ptr b) := by
      refine ⟨hgrows.sound, QEmacsState.Shows.of_map h.shows.ok rfl rfl ?_, ?_, ?_⟩
      · intro u hu
        split_ifs with hptr
        · exact ⟨rfl, hb⟩
        · refine ⟨rfl, hgrows.kept _ (hkept u.b (.window u.ptr) ⟨u, hu, rfl, rfl⟩ (fun a => Reference.noConfusion) ?_)⟩
          intro heq
          exact hptr (Reference.window.inj heq)
      · exact fun i d hd => hgrows.kept d (hkept d (.yank i) hd (fun a => Reference.noConfusion) Reference.noConfusion)
      · exact fun i d hd => hgrows.kept d (hkept d (.mark i) hd (fun a => Reference.noConfusion) Reference.noConfusion)
    exact ends_deref_any fun v _ _ => hswitched.grow (hgrows.sound.updateBuffer v.b fun _ => ⟨rfl, rfl, rfl⟩)

/-! ## The other commands -/

/-- The help buffer is shown. -/
theorem Alive.showHelp (h : qe.Alive) : qe.showHelp.Alive := by
  obtain ⟨hgrows, hmem⟩ := h.list.newHelpBuffer
  have hprinted := hgrows.sound.printHelp (newHelpBuffer qe.toBufferList).2.1
  have hgrown := h.grow (hgrows.trans hprinted)
  rw [QeState.showHelp]
  cases (newHelpBuffer qe.toBufferList).2.2 with
  | false => exact hgrown
  | true => exact hgrown.showPopup (hprinted.kept _ hmem)

/-- Where a help buffer is there, describing the bindings frees none. -/
theorem Alive.doDescribeBindings (h : qe.Alive) (hhelp : (qe.ebFind "*Help*").isSome = true) :
    Ends Alive (fun _ => True) (qe.doDescribeBindings s) := by
  obtain ⟨c, hc⟩ := Option.isSome_iff_exists.1 hhelp
  have hold : (newHelpBuffer qe.toBufferList).2.2 = false := by
    rw [newHelpBuffer, hc]
  have hshown : Ends Alive (fun _ => True) (Except.ok (if (newHelpBuffer qe.toBufferList).2.2 then
      qe.showHelp.onBuffers (·.ebFree (newHelpBuffer qe.toBufferList).2.1) else qe.showHelp) : Except Fault QeState) := by
    rw [hold]
    exact h.showHelp
  exact ends_deref_any fun _ _ _ => hshown

/-- The matches are listed in the completion popup. -/
theorem Alive.listMatches (h : qe.Alive) : Ends Alive (fun _ => True) qe.listMatches := by
  rw [QeState.listMatches]
  cases qe.completionPopupWindow with
  | none => exact h
  | some p =>
    have hfollowed : Ends (fun _ => True) (fun _ => True) (qe.deref p) := Ends.of_fault fun _ _ => trivial
    exact hfollowed.map fun w _ _ => h.changed true w.b

/-- The text of the minibuffer is completed. -/
theorem Alive.doCompletion (h : qe.Alive) (s : WindowPtr) (count : Nat) (longer : Bool) :
    Ends Alive (fun _ => True) (qe.doCompletion s count longer) := by
  refine ends_deref_any fun w _ _ => ?_
  split_ifs
  · exact h
  · exact h.changed true w.b
  · rw [withCompletion]
    split_ifs
    · have hgrown := h.grow (h.list.ebNew "*completion*" { system := true, readonly := true })
      have hopened := hgrown.shows.editNew (b := qe.nextBuffer) List.mem_cons_self
      have halive : qe.openCompletion.Alive := ⟨hgrown.list, QEmacsState.Shows.doRefresh (hopened ..), hgrown.yanks, hgrown.marks⟩
      exact halive.listMatches
    · exact h.listMatches

theorem Alive.doHistory (h : qe.Alive) (s : WindowPtr) (change : Bool) : Ends Alive (fun _ => True) (qe.doHistory s change) := by
  refine ends_deref_any fun w _ _ => ?_
  cases qe.completionPopupWindow with
  | none => exact h.changed change w.b
  | some p =>
    have hfollowed : Ends (fun _ => True) (fun _ => True) (qe.deref p) := Ends.of_fault fun _ _ => trivial
    exact hfollowed.map fun _ _ _ => h

/-- A change is undone, which plays the log. -/
theorem Alive.doUndo (h : qe.Alive) (s : WindowPtr) (played : Option Bool) : Ends Alive (fun _ => True) (qe.doUndo s played) := by
  refine ends_deref_any fun w _ _ => ?_
  cases qe.log w.b with
  | none => exact h
  | some _ =>
    cases played with
    | none => exact h
    | some modified =>
      have hchanged := h.changed true w.b
      exact hchanged.grow (hchanged.list.updateBuffer w.b fun _ => ⟨rfl, rfl, rfl⟩)

/-- A yank buffer is inserted. -/
theorem Alive.doYank (h : qe.Alive) (s : WindowPtr) (size : Nat) : Ends Alive (fun _ => True) (qe.doYank s size) :=
  ends_deref_any fun _ _ _ => h.changed _ _

/-- The text goes to a yank buffer, and the one that had the place is freed. -/
theorem Alive.doKillRegion (h : qe.Alive) {kill : Bool} {len : Nat} {inside : Bool}
    (hfree : bufferGuard.call (.killRegion kill len inside) s qe) :
    Ends Alive (fun _ => True) (qe.doKillRegion s kill len inside) := by
  refine ends_deref_any fun w hw hs => ?_
  split_ifs with hro
  · exact h
  · exact ((h.newYankBuffer (hfree w hw hs (Bool.eq_false_iff.2 hro))).changed _ _).changed _ _

theorem Alive.doSave (h : qe.Alive) {saveAs : Bool} {reply : String} {written : Bool}
    (hfree : bufferGuard.call (.save saveAs reply written) s qe) :
    Ends Alive (fun _ => True) (qe.doSave s saveAs reply written) := by
  refine ends_deref_any fun w hw hs => ?_
  cases hentry : qe.entry w.b with
  | none => exact h
  | some c =>
    dsimp only
    split_ifs with hsaved hask
    · exact h
    · exact h.minibufferEdit _
    · rw [Bool.or_eq_true, not_or, Bool.not_eq_true, beq_iff_eq] at hask
      rw [hask.1, Bool.not_false, Bool.true_and, Bool.not_eq_true', Bool.not_eq_false] at hsaved
      exact h.saveFinal fun hwritten => hfree w hw hs c hentry hsaved hask.2 hask.1 hwritten

/-- A window with a list is opened on the left. -/
theorem Alive.openListWindow (h : qe.Alive) (s : WindowPtr) (hb : b ∈ qe.live) (items : Nat) :
    Ends Alive (fun _ => True) (qe.openListWindow s b items) := by
  refine (h.shows.insertWindowLeft (fun _ => hb) (qe.width.tdiv 4) { modeline := true }).bind fun qs _ hqs => ?_
  have hopened : ∀ o : Option EditState, Ends Alive (fun _ => True)
      (Except.ok { qe with toQEmacsState := { qs with activeWindow := some qe.nextPtr } } : Except Fault QeState) :=
    fun _ => h.shown (hqs.focus _)
  by_cases hitems : 0 < items
  · have hcompared : Ends (fun _ => True) (fun _ => True) ((qs.deref s).map some) := Ends.of_fault fun _ _ => trivial
    rw [if_pos hitems]
    exact hcompared.bind fun o _ _ => hopened o
  · rw [if_neg hitems]
    exact hopened none

theorem Alive.doListBuffers (h : qe.Alive) (s : WindowPtr) (items : Nat) :
    Ends Alive (fun _ => True) (qe.doListBuffers s items) := by
  have hnew := h.list.ebNew "*bufed*" { readonly := true, system := true }
  have hwritten : ∀ l : BufferList, qe.toBufferList.Grows l → qe.nextBuffer ∈ l.live →
      Ends Alive (fun _ => True) (QeState.openListWindow { qe with toBufferList := l } s qe.nextBuffer items) :=
    fun l hl hmem => (h.grow hl).openListWindow s hmem items
  refine ends_deref_any fun _ _ _ => hwritten _ ?_ ?_
  · split_ifs
    · exact hnew.trans (hnew.sound.ebAddlog _)
    · exact hnew
  · split_ifs
    · exact (hnew.sound.ebAddlog _).kept _ List.mem_cons_self
    · exact List.mem_cons_self

theorem Alive.doDired (h : qe.Alive) (s : WindowPtr) (directory : String) (items : Nat) :
    Ends Alive (fun _ => True) (qe.doDired s directory items) := by
  have hnew := h.list.ebNew "*dired*" { readonly := true, system := true }
  have hnamed := hnew.sound.setFilename qe.nextBuffer directory
  have hlist := hnamed.sound.buildDiredList qe.nextBuffer (decide (0 < items))
  have hmem := hlist.kept _ (hnamed.kept _ List.mem_cons_self)
  exact ends_deref_any fun _ _ _ => (h.grow ((hnew.trans hnamed).trans hlist)).openListWindow s hmem items

/-- The buffer that is selected in the list is shown. -/
theorem Alive.bufedSelect (h : qe.Alive) (s : WindowPtr) (name : String) :
    Ends Alive (fun _ => True) (qe.bufedSelect s name) := by
  refine ends_deref_any fun w _ _ => ?_
  cases hfind : qe.ebFind name with
  | none => exact h
  | some c =>
    cases findWindowRight qe.toQEmacsState w with
    | none => exact h
    | some e =>
      have hdeleted : Ends (fun qe' => qe'.Alive ∧ qe'.toBufferList = qe.toBufferList) (fun _ => True)
          (qe.onWindows (doDeleteWindow · s true)) :=
        (h.shows.doDeleteWindow s true).map fun _ _ hqs => ⟨h.shown hqs, rfl⟩
      refine hdeleted.bind fun qe' _ hqe' => ?_
      obtain ⟨halive, hsame⟩ := hqe'
      refine ends_deref_any fun _ _ _ => halive.switchToBuffer e.ptr ?_
      rw [hsame]
      exact ebFind_live hfind

/-- The file that is selected in the directory is visited. -/
theorem Alive.diredSelect (h : qe.Alive) (s : WindowPtr) (filename : String) (type : FileType) :
    Ends Alive (fun _ => True) (qe.diredSelect s filename type) := by
  refine ends_deref_any fun w _ _ => ?_
  cases type with
  | missing => exact h
  | directory changed => exact h.grow (h.list.buildDiredList w.b changed)
  | regular =>
    cases findWindowRight qe.toQEmacsState w with
    | none => exact h.doLoad s filename .regular
    | some e =>
      refine (h.onWindows (f := fun qs => doDeleteWindow qs s true) (h.shows.doDeleteWindow s true)).bind fun qe' _ halive => ?_
      exact ends_deref_any fun v _ _ => halive.grow (halive.list.updateBuffer v.b fun _ => ⟨rfl, rfl, rfl⟩)

theorem Alive.bufedKillBuffer (h : qe.Alive) {names : List String} {yes : Bool} (hfree : KillsFreeable yes names qe)
    (s : WindowPtr) :
    Ends Alive (fun _ => True) (qe.bufedKillBuffer s names yes) :=
  ends_deref_any fun _ _ _ => (h.killBuffers hfree).bind fun _ _ halive =>
    ends_deref_any fun w _ _ => halive.grow (halive.list.ebAddlog w.b)

/-- What is done for the window of cscope is done for a window of the list. -/
theorem ends_cscopeOs_any {β : Type} {Q : β → Prop} {f : EditState → Except Fault β}
    (hf : ∀ w ∈ qe.windows, Ends Q (fun _ => True) (f w)) : Ends Q (fun _ => True) (qe.cscopeOs.bind f) := by
  rw [cscopeOs]
  cases qe.cscopeWindow with
  | none => trivial
  | some t => exact ends_deref_any fun w hw _ => hf w hw

/-- The mark is one in a buffer of the list. -/
theorem Alive.cscopePushMark (h : qe.Alive) (hb : b ∈ qe.live) : (qe.cscopePushMark b).Alive := by
  rw [QeState.cscopePushMark]
  split_ifs
  · refine ⟨h.list, h.shows, h.yanks, ?_⟩
    intro i d hd
    cases i with
    | zero =>
      obtain rfl := Option.some.inj hd
      exact hb
    | succ i => exact h.marks i d hd
  · exact h

/-- A file is visited from a place that is marked. -/
theorem Alive.loadMarked (h : qe.Alive) {w : EditState} (hw : w.b ∈ qe.live) (filename : String) (type : FileType) :
    Ends Alive (fun _ => True) ((qe.cscopePushMark w.b).doLoad w.ptr filename type) :=
  (h.cscopePushMark hw).doLoad w.ptr filename type

theorem Alive.cscopeShow (h : qe.Alive) (hb : b ∈ qe.live) (w : EditState) : (qe.cscopeShow b w).Alive := by
  have hopened := h.shows.editNew hb
  refine ⟨h.list, QEmacsState.Shows.doRefresh (QEmacsState.Shows.focus ?_ _), h.yanks, h.marks⟩
  exact QEmacsState.Shows.update (hopened ..) w.ptr fun _ => ⟨rfl, rfl⟩

/-- The results of a query are shown, or the only one is visited. -/
theorem Alive.cscopeQueryAndShow (h : qe.Alive) (entries : Nat) (filename : String) (type : FileType) :
    Ends Alive (fun _ => True) (qe.cscopeQueryAndShow entries filename type) := by
  obtain ⟨hgrows, hmem⟩ := h.list.cscopeBuffer
  have hwritten := hgrows.sound.ebAddlog (cscopeBuffer qe.toBufferList).2
  have hgrown := h.grow (hgrows.trans hwritten)
  refine ends_cscopeOs_any fun w hw => ?_
  have hlive := (hgrows.trans hwritten).kept w.b (h.shows.shown w hw)
  split_ifs
  · exact hgrown.cscopeShow (hwritten.kept _ hmem) w
  · exact hgrown.loadMarked hlive filename type

theorem Alive.cscopeSelectFile (h : qe.Alive) (s : WindowPtr) (filename : String) (type : FileType) :
    Ends Alive (fun _ => True) (qe.cscopeSelectFile s filename type) :=
  ends_deref_any fun _ _ _ => ends_cscopeOs_any fun w hw => h.loadMarked (h.shows.shown w hw) filename type

/-- A mark is taken back. -/
theorem Alive.doCscopePopMark (h : qe.Alive) : Ends Alive (fun _ => True) qe.doCscopePopMark := by
  rw [QeState.doCscopePopMark]
  cases hmarks : qe.marks with
  | nil => exact h
  | cons b marks =>
    have hold := h.marks
    rw [hmarks] at hold
    have hpopped : Alive { qe with marks := marks } := ⟨h.list, h.shows, h.yanks, fun i d hd => hold (i + 1) d hd⟩
    exact ends_cscopeOs_any fun w _ => hpopped.switchToBuffer w.ptr (hold 0 b rfl)

/-- A shell is opened, with a buffer for its colors. -/
theorem Alive.doShell (h : qe.Alive) (s : WindowPtr) (launched : Bool) : Ends Alive (fun _ => True) (qe.doShell s launched) := by
  obtain ⟨hgrows, hmem⟩ := h.list.newShellBuffer "*shell*" true launched
  refine ends_deref_any fun _ _ _ => ?_
  cases launched with
  | false => exact h.grow hgrows
  | true => exact (h.grow hgrows).switchToBuffer s (hmem rfl)

/-- The buffer of the last compilation is found again after it is marked as not modified. -/
theorem Alive.killCompilation (h : qe.Alive)
    (hfree : ∀ b, qe.ebFind "*compilation*" = some b → qe.Freeable Reference.IsWindow b.ptr) :
    Ends Alive (fun _ => True) qe.killCompilation := by
  rw [QeState.killCompilation]
  cases hfind : qe.ebFind "*compilation*" with
  | none => exact h
  | some c =>
    have hgrown := h.grow (h.list.updateBuffer c.ptr (f := fun c => { c with modified := false }) fun _ => ⟨rfl, rfl, rfl⟩)
    refine hgrown.doKillBuffer ?_ false
    intro d hd _
    have hsame : d.ptr = c.ptr := by
      have hfound := ebFind_updateBuffer (l := qe.toBufferList) (f := fun c => { c with modified := false }) (fun _ => ⟨rfl, rfl⟩)
        c.ptr "*compilation*"
      rw [hfind, hd] at hfound
      exact Option.some.inj hfound
    rw [hsame]
    refine (hfree c hfind).anti fun a r hr => ?_
    cases r with
    | log e => exact logOf_updateBuffer (f := fun c => { c with modified := false }) (fun _ => ⟨rfl, rfl⟩) hr
    | _ => exact hr

/-- The compilation is started again in its buffer. -/
theorem Alive.doCompile (h : qe.Alive) {launched : Bool} (hfree : bufferGuard.call (.compile launched) s qe) :
    Ends Alive (fun _ => True) (qe.doCompile s launched) := by
  refine ends_deref_any fun _ _ _ => (h.killCompilation hfree).bind fun qe' _ halive => ?_
  obtain ⟨hgrows, hmem⟩ := halive.list.newShellBuffer "*compilation*" false launched
  cases launched with
  | false => exact halive.grow hgrows
  | true => exact (halive.grow hgrows).switchToBuffer s (hmem rfl)

end QeState

/-! ## Runs -/

open QeState in
/-- A call that is let through keeps every reference on a buffer of the list. -/
theorem bufferGuard_call {c : UserCommand} {s : WindowPtr} {qe : QeState} (h : qe.Alive) (hguard : bufferGuard.call c s qe) :
    Ends Alive (fun _ => True) (c.call s qe) := by
  cases c with
  | splitWindow horiz => exact h.onWindows (f := fun qs => doSplitWindow qs s horiz) (h.shows.doSplitWindow h.shows.shown s horiz)
  | otherWindow => exact h.onWindows (f := fun qs => doOtherWindow qs s) (h.shows.doOtherWindow s)
  | deleteWindow => exact h.onWindows (f := fun qs => doDeleteWindow qs s false) (h.shows.doDeleteWindow s false)
  | deleteOtherWindows => exact h.onWindows (f := fun qs => doDeleteOtherWindows qs s) (h.shows.doDeleteOtherWindows s)
  | listBuffers items => exact h.doListBuffers s items
  | dired directory items => exact h.doDired s directory items
  | bufedSelect name => exact h.bufedSelect s name
  | bufedKillBuffer names yes => exact h.bufedKillBuffer hguard s
  | diredSelect filename type => exact h.diredSelect s filename type
  | describeBindings => exact h.doDescribeBindings hguard
  | helpForHelp => exact h.showHelp
  | lessQuit => exact h.lessQuit hguard
  | completion count longer => exact h.doCompletion s count longer
  | history change => exact h.doHistory s change
  | edit => exact ends_deref_any fun w _ _ => h.changed _ w.b
  | undo played => exact h.doUndo s played
  | killRegion kill len inside => exact h.doKillRegion hguard
  | yank size => exact h.doYank s size
  | yankPop played size =>
    refine (h.doUndo s played).bind fun qe' _ halive => ?_
    have hcurrent : ∀ i, Alive { qe' with yankCurrent := i } := fun _ => ⟨halive.list, halive.shows, halive.yanks, halive.marks⟩
    exact (hcurrent _).doYank s size
  | toggleReadOnly => exact ends_deref_any fun w _ _ => h.grow (h.list.updateBuffer w.b fun _ => ⟨rfl, rfl, rfl⟩)
  | switchToBuffer name => exact h.doSwitchToBuffer s name
  | killBuffer name yes => exact h.doKillBuffer hguard yes
  | load filename type => exact h.doLoad s filename type
  | findAlternateFile filename type yes => exact h.doFindAlternateFile hguard filename type yes
  | save saveAs reply written => exact h.doSave hguard
  | insertRectangle => exact h.minibufferEdit _
  | ask => exact h.minibufferEdit _
  | cscopeOperation entries filename type =>
    have hos : Alive { qe with cscopeWindow := some s } := ⟨h.list, h.shows, h.yanks, h.marks⟩
    exact hos.minibufferEdit _
  | cscopeSelect filename type => exact h.cscopeSelectFile s filename type
  | cscopePopMark => exact h.doCscopePopMark
  | shell launched => exact h.doShell s launched
  | compile launched => exact h.doCompile hguard

/-- What the guard lets through keeps every reference on a buffer of the list. -/
theorem bufferGuard_keeps : bufferGuard.Keeps QeState.Alive (fun _ => True) where
  null := trivial
  followed _ _ _ _ _ := Ends.of_fault fun _ _ => trivial
  exited _ _ _ _ := Ends.of_fault fun _ _ => trivial
  active _ _ := Ends.of_fault fun _ _ => trivial
  call _ _ _ h hguard := bufferGuard_call h hguard
  exit _ _ h hguard := h.closeMinibuffer hguard
  reply cb qe h hexec hguard := by
    cases cb with
    | exec es => exact absurd rfl (hexec es)
    | killBuffer b yes =>
      cases yes with
      | false => exact h
      | true => exact h.killBufferNoconfirm (hguard rfl rfl)
    | saveEdit s filename written =>
      refine ends_deref_any fun w hw hs => ?_
      have hnamed := h.grow (h.list.setFilename w.b filename)
      refine hnamed.saveFinal fun hwritten => (hguard rfl hwritten w hw hs).anti fun d r hr => ?_
      cases r with
      | log a => exact logOf_setFilename hr
      | _ => exact hr
    | insertRectangle s => exact ends_deref_any fun w _ _ => h.grow (h.list.ebAddlog w.b)
    | cscope entries filename type => exact h.cscopeQueryAndShow entries filename type
    | other => exact h
  abort cb qe h _ _ := by
    cases cb with
    | insertRectangle t => exact ends_deref_any fun _ _ _ => trivial
    | _ => exact h
  ask es qe h := h.minibufferEdit _
  click qe w h _ := h.shown (h.shows.focus _)
  resize screen qe h := by
    have hscreen : QEmacsState.Shows (fun _ b => b ∈ qe.live) { qe.toQEmacsState with screen := screen } :=
      ⟨⟨h.shows.ok.nodup, h.shows.ok.fresh⟩, h.shows.shown⟩
    exact h.shown hscreen.doRefresh
  preview w qe filename type h _ hguard := h.openNewFile hguard filename type

/-- The editor is alive at the start. -/
theorem start_alive (screen : QEditScreen) (hideStatus : Bool) : (QeState.start screen hideStatus).Alive := by
  have hlive : (QeState.start screen hideStatus).live = [0] := rfl
  refine ⟨⟨?_, ?_, ?_⟩, ?_, ?_, ?_⟩
  · rw [hlive]
    exact List.nodup_singleton 0
  · intro b hb
    rw [hlive, List.mem_singleton] at hb
    rw [hb]
    exact Nat.zero_lt_one
  · rintro b r ⟨c, hc, -, hcr⟩
    obtain rfl := List.mem_singleton.1 hc
    cases hcr
  · refine (startup_shows screen hideStatus).mono fun _ b hb => ?_
    rw [hlive, hb]
    exact List.mem_cons_self
  · intro i b hb
    rw [QeState.start, List.getElem?_replicate] at hb
    split_ifs at hb
    cases hb
  · intro i b hb
    cases hb

/-- In a run that frees no buffer and no log which something else refers to, every window, every entry of the kill ring, every log
and every mark is a buffer of the list after every beginning of the run. -/
theorem references_live (screen : QEditScreen) (hideStatus : Bool) {evs : List UserEvent}
    (h : bufferGuard.Run (QeState.start screen hideStatus) evs) :
    ∀ pre, pre <+: evs → Ends QeState.NoDangling (fun _ => True) (runEvents (QeState.start screen hideStatus) pre) :=
  fun _ hpre => (bufferGuard_keeps.run (start_alive screen hideStatus) (h.initial hpre)).mono (fun _ hqe => hqe.noDangling)
    fun _ hf => hf

/-- A buffer that a window alone refers to, and that has no log. -/
theorem QeState.freeable_of_shown {qe : QeState} {b : BufferPtr} {s : WindowPtr}
    (hwindows : ∀ w ∈ qe.windows, w.b = b → w.ptr = s)
    (hyanks : some b ∉ qe.yankBuffers) (hmarks : b ∉ qe.marks) (hlogs : ∀ c ∈ qe.buffers, c.logBuffer ≠ some b)
    (hlog : ∀ c ∈ qe.buffers, c.ptr = b → c.logBuffer = none) : qe.Freeable (· = .window s) b := by
  refine ⟨fun r hr => ?_, ?_⟩
  · cases r with
    | window t =>
      obtain ⟨w, hw, rfl, hwb⟩ := hr
      rw [hwindows w hw hwb]
    | yank i => exact absurd (List.mem_of_getElem? hr) hyanks
    | mark i => exact absurd (List.mem_of_getElem? hr) hmarks
    | log a =>
      obtain ⟨c, hc, -, hcb⟩ := hr
      exact absurd hcb (hlogs c hc)
  · rintro r ⟨c, hc, hcb, hcr⟩
    rw [hlog c hc hcb] at hcr
    cases hcr

/-- A region is killed; a prompt is opened, and left. -/
theorem references_live_asked : Ends QeState.NoDangling (fun _ => True)
    (runEvents (QeState.start terminal80 false) [.key 0 (.killRegion true 1 true) 1, .key 0 .ask 1, .exit true 1]) := by
  refine references_live terminal80 false ?_ _ (List.prefix_refl _)
  refine ⟨?_, fun qe hqe => ⟨fun _ _ _ => ⟨trivial, fun _ _ => trivial⟩, fun qe' hqe' => ⟨?_, fun _ _ => trivial⟩⟩⟩
  · intro s hs _
    refine ⟨?_, fun _ _ => trivial⟩
    intro w _ _ _ b hb
    cases hb
  · obtain rfl := Except.ok.inj hqe
    obtain rfl := Except.ok.inj hqe'
    intro s hs
    obtain rfl := Option.some.inj hs
    refine ⟨?_, fun after cb _ hcb => ?_, fun _ _ => trivial⟩
    · rintro p (rfl | hp) w hw hwp
      · have hminibuf : w.b = 3 := by
          rcases List.mem_cons.1 hw with rfl | hw
          · rfl
          · obtain rfl := List.mem_singleton.1 hw
            cases hwp
        rw [hminibuf]
        exact QeState.freeable_of_shown (by decide) (by decide) (by decide) (by decide) (by decide)
      · cases hp
    · obtain rfl := Option.some.inj hcb
      trivial

/-- The bindings are described before there is a help buffer. -/
theorem not_references_live :
    ¬ ∀ evs, Ends QeState.NoDangling (fun _ => True) (runEvents (QeState.start terminal80 false) evs) := by
  intro h
  have hlive := h [.key 0 .describeBindings 1] 1 (.window 1) ⟨_, List.mem_cons_self, rfl, rfl⟩
  cases hlive with
  | tail _ hrest => cases hrest

end Hoe
