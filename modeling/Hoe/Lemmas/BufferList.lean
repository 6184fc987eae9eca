import Mathlib.Data.List.Nodup
import Hoe.Commands

/-!
# The buffer list

What the functions of the buffer list do to the addresses in it, and to the logs: a buffer is made in front of the others, and one
that is freed leaves the list with its log. A list stays sound in what adds to it; a free asks that no other buffer has for its
log what is freed.
-/

namespace Hoe

namespace BufferList

variable {l l' l'' : BufferList} {b : BufferPtr}

/-- The addresses of the buffers. -/
def live (l : BufferList) : List BufferPtr := l.buffers.map (·.ptr)

/-- The buffer at `b` has `r` for its log. -/
def LogOf (l : BufferList) (b r : BufferPtr) : Prop := ∃ c ∈ l.buffers, c.ptr = b ∧ c.logBuffer = some r

/-- Each buffer has its address, the next one is free, and a log is a system buffer of the list. -/
structure Sound (l : BufferList) : Prop where
  nodup : l.live.Nodup
  fresh : ∀ b ∈ l.live, b < l.nextBuffer
  logs : ∀ b r, l.LogOf b r → ∃ d ∈ l.buffers, d.ptr = r ∧ d.flags.system = true

/-- The list is sound after, and no buffer has left it. -/
structure Grows (l l' : BufferList) : Prop where
  sound : l'.Sound
  kept : ∀ b ∈ l.live, b ∈ l'.live

/-- What leaves the list with the buffer at `b`. -/
def Leaves (l : BufferList) (b r : BufferPtr) : Prop := r = b ∨ l.LogOf b r

theorem Sound.refl (h : l.Sound) : l.Grows l := ⟨h, fun _ hb => hb⟩

/-- Over two steps the buffers of the first one are still there. -/
theorem Grows.trans (h : l.Grows l') (h' : l'.Grows l'') : l.Grows l'' := ⟨h'.sound, fun b hb => h'.kept b (h.kept b hb)⟩

/-- The log buffer of a buffer is in the list. -/
theorem Sound.log_live (h : l.Sound) {r : BufferPtr} (hr : l.LogOf b r) : r ∈ l.live := by
  obtain ⟨d, hd, hdr, -⟩ := h.logs b r hr
  exact List.mem_map.2 ⟨d, hd, hdr⟩

/-- Only a buffer in the list has a log buffer. -/
theorem live_of_logOf {r : BufferPtr} (hr : l.LogOf b r) : b ∈ l.live := by
  obtain ⟨c, hc, hcb, -⟩ := hr
  exact List.mem_map.2 ⟨c, hc, hcb⟩

/-! ## Finding a buffer -/

/-- An entry is found by its address. -/
theorem entry_mem {c : BufferEntry} (h : l.entry b = some c) : c ∈ l.buffers ∧ c.ptr = b :=
  ⟨List.mem_of_find?_eq_some h, by simpa using List.find?_some h⟩

theorem logOf_of_log {r : BufferPtr} (h : l.log b = some r) : l.LogOf b r := by
  obtain ⟨c, hc, hr⟩ := Option.bind_eq_some_iff.1 h
  obtain ⟨hmem, hptr⟩ := entry_mem hc
  exact ⟨c, hmem, hptr, hr⟩

/-- What `eb_find` finds is in the list. -/
theorem ebFind_live {name : String} {c : BufferEntry} (h : l.ebFind name = some c) : c.ptr ∈ l.live :=
  List.mem_map_of_mem (List.mem_of_find?_eq_some h)

theorem ebFindFile_live {filename : String} {c : BufferEntry} (h : l.ebFindFile filename = some c) : c.ptr ∈ l.live :=
  List.mem_map_of_mem (List.mem_of_find?_eq_some h)

/-! ## Changing and adding -/

/-- The entries behind a change of one. -/
theorem mem_updateBuffer {f : BufferEntry → BufferEntry} {c : BufferEntry} :
    c ∈ (l.updateBuffer b f).buffers ↔ ∃ d ∈ l.buffers, (if d.ptr = b then f d else d) = c := List.mem_map

/-- A change of an entry leaves the list of addresses as it is. -/
theorem live_updateBuffer (b : BufferPtr) {f : BufferEntry → BufferEntry} (hf : ∀ c, (f c).ptr = c.ptr) :
    (l.updateBuffer b f).live = l.live := by
  rw [updateBuffer, live, List.map_map, live]
  refine List.map_congr_left fun c _ => ?_
  rw [Function.comp_apply]
  split_ifs
  · exact hf c
  · rfl

/-- A buffer is changed, and may have a log of the list after. -/
theorem Sound.updateLog (h : l.Sound) (b : BufferPtr) {f : BufferEntry → BufferEntry}
    (hf : ∀ c, (f c).ptr = c.ptr ∧ (f c).flags.system = c.flags.system)
    (hlog : ∀ c r, (f c).logBuffer = some r → c.logBuffer = some r ∨ ∃ d ∈ l.buffers, d.ptr = r ∧ d.flags.system = true) :
    l.Grows (l.updateBuffer b f) := by
  have hlive := live_updateBuffer (l := l) b fun c => (hf c).1
  refine ⟨⟨?_, ?_, ?_⟩, fun c hc => hlive.symm ▸ hc⟩
  · rw [hlive]
    exact h.nodup
  · rw [hlive]
    exact h.fresh
  · intro a r hr
    have hold : ∃ d ∈ l.buffers, d.ptr = r ∧ d.flags.system = true := by
      obtain ⟨c, hc, -, hcr⟩ := hr
      obtain ⟨d, hd, rfl⟩ := mem_updateBuffer.1 hc
      split_ifs at hcr with hdb
      · rcases hlog d r hcr with hsame | hnew
        · exact h.logs d.ptr r ⟨d, hd, rfl, hsame⟩
        · exact hnew
      · exact h.logs d.ptr r ⟨d, hd, rfl, hcr⟩
    obtain ⟨d, hd, hdr, hsys⟩ := hold
    refine ⟨_, mem_updateBuffer.2 ⟨d, hd, rfl⟩, ?_⟩
    split_ifs
    · exact ⟨(hf d).1.trans hdr, (hf d).2.trans hsys⟩
    · exact ⟨hdr, hsys⟩

/-- A change that leaves the log buffer and the system flag alone keeps the list sound. -/
theorem Sound.updateBuffer (h : l.Sound) (b : BufferPtr) {f : BufferEntry → BufferEntry}
    (hf : ∀ c, (f c).ptr = c.ptr ∧ (f c).flags.system = c.flags.system ∧ (f c).logBuffer = c.logBuffer) :
    l.Grows (l.updateBuffer b f) := by
  refine h.updateLog b (fun c => ⟨(hf c).1, (hf c).2.1⟩) ?_
  intro c r hr
  rw [(hf c).2.2] at hr
  exact Or.inl hr

/-- A change of another kind leaves the logs as they are. -/
theorem logOf_updateBuffer {f : BufferEntry → BufferEntry} (hf : ∀ c, (f c).ptr = c.ptr ∧ (f c).logBuffer = c.logBuffer)
    {a r : BufferPtr} (h : (l.updateBuffer b f).LogOf a r) : l.LogOf a r := by
  obtain ⟨c, hc, rfl, hcr⟩ := h
  obtain ⟨d, hd, rfl⟩ := mem_updateBuffer.1 hc
  split_ifs at hcr ⊢
  · exact ⟨d, hd, (hf d).1.symm, (hf d).2 ▸ hcr⟩
  · exact ⟨d, hd, rfl, hcr⟩

/-- A new name gives no buffer another log buffer. -/
theorem logOf_setBufferName {name : String} {a r : BufferPtr} (h : (l.setBufferName b name).LogOf a r) : l.LogOf a r := by
  have hunnamed : (l.updateBuffer b fun c => { c with name := "" }).LogOf a r := by
    refine logOf_updateBuffer ?_ h
    exact fun _ => ⟨rfl, rfl⟩
  refine logOf_updateBuffer ?_ hunnamed
  exact fun _ => ⟨rfl, rfl⟩

/-- A new file name does not do so either. -/
theorem logOf_setFilename {filename : String} {a r : BufferPtr} (h : (l.setFilename b filename).LogOf a r) : l.LogOf a r := by
  refine logOf_updateBuffer ?_ (logOf_setBufferName h)
  exact fun _ => ⟨rfl, rfl⟩

/-- A change of another kind leaves a name where it is found. -/
theorem ebFind_updateBuffer {f : BufferEntry → BufferEntry} (hf : ∀ c, (f c).ptr = c.ptr ∧ (f c).name = c.name) (b : BufferPtr)
    (name : String) : ((l.updateBuffer b f).ebFind name).map (·.ptr) = (l.ebFind name).map (·.ptr) := by
  have hname : (fun c : BufferEntry => c.name == name) ∘ (fun c => if c.ptr = b then f c else c) = fun c => c.name == name := by
    funext c
    rw [Function.comp_apply]
    split_ifs
    · rw [(hf c).2]
    · rfl
  rw [ebFind, updateBuffer, List.find?_map, hname, Option.map_map, ebFind]
  congr 1
  funext c
  rw [Function.comp_apply]
  split_ifs
  · exact (hf c).1
  · rfl

/-- A new buffer is the first one of the list. -/
theorem live_ebNew (l : BufferList) (name : String) (flags : BufferFlags) :
    (l.ebNew name flags).live = l.nextBuffer :: l.live := rfl

/-- A new buffer has no log. -/
theorem logOf_ebNew {name : String} {flags : BufferFlags} {r : BufferPtr} (h : (l.ebNew name flags).LogOf b r) : l.LogOf b r := by
  obtain ⟨c, hc, hcb, hcr⟩ := h
  rcases List.mem_cons.1 hc with rfl | hc
  · cases hcr
  · exact ⟨c, hc, hcb, hcr⟩

/-- With a new buffer the list stays sound. -/
theorem Sound.ebNew (h : l.Sound) (name : String) (flags : BufferFlags) : l.Grows (l.ebNew name flags) := by
  refine ⟨⟨?_, ?_, ?_⟩, fun b hb => List.mem_cons_of_mem _ hb⟩
  · rw [live_ebNew]
    exact List.nodup_cons.2 ⟨fun hmem => Nat.lt_irrefl _ (h.fresh _ hmem), h.nodup⟩
  · rw [live_ebNew]
    intro b hb
    rcases List.mem_cons.1 hb with rfl | hb
    · exact Nat.lt_succ_self _
    · exact Nat.lt_succ_of_lt (h.fresh b hb)
  · intro b r hr
    obtain ⟨d, hd, hdr⟩ := h.logs b r (logOf_ebNew hr)
    exact ⟨d, List.mem_cons_of_mem _ hd, hdr⟩

/-- The first change of a text makes the log, which is a system buffer. -/
theorem Sound.ebAddlog (h : l.Sound) (b : BufferPtr) : l.Grows (l.ebAddlog b) := by
  have hmod := h.updateBuffer b (f := fun c => { c with modified := true }) fun _ => ⟨rfl, rfl, rfl⟩
  rw [BufferList.ebAddlog]
  cases (l.updateBuffer b fun c => { c with modified := true }).entry b with
  | none => exact hmod
  | some c =>
    dsimp only
    split_ifs
    · refine hmod.trans ((hmod.sound.ebNew ("*log <" ++ c.name ++ ">*") { system := true }).trans ?_)
      refine ((hmod.sound.ebNew _ _).sound).updateLog b (fun _ => ⟨rfl, rfl⟩) ?_
      intro d r hr
      obtain rfl := Option.some.inj hr
      exact Or.inr ⟨_, List.mem_cons_self, rfl, rfl⟩
    · exact hmod

/-- A buffer gets another name. -/
theorem Sound.setBufferName (h : l.Sound) (b : BufferPtr) (name : String) : l.Grows (l.setBufferName b name) := by
  have hunnamed := h.updateBuffer b (f := fun c => { c with name := "" }) fun _ => ⟨rfl, rfl, rfl⟩
  exact hunnamed.trans (hunnamed.sound.updateBuffer b fun _ => ⟨rfl, rfl, rfl⟩)

/-- A buffer gets another file name, and a name made of it. -/
theorem Sound.setFilename (h : l.Sound) (b : BufferPtr) (filename : String) : l.Grows (l.setFilename b filename) := by
  have hnamed := h.updateBuffer b (f := fun c => { c with filename := filename }) fun _ => ⟨rfl, rfl, rfl⟩
  exact hnamed.trans (hnamed.sound.setBufferName b _)

/-! ## Taking out -/

/-- A buffer that is the log of none leaves the list. -/
theorem Sound.unlink (h : l.Sound) {r : BufferPtr} (hr : ∀ b, ¬ l.LogOf b r) :
    (l.unlink r).Sound ∧ ∀ d ∈ l.live, d ≠ r → d ∈ (l.unlink r).live := by
  have hsub : (l.unlink r).live.Sublist l.live := (List.eraseP_sublist).map _
  have hkept : ∀ c ∈ l.buffers, c.ptr ≠ r → c ∈ (l.unlink r).buffers := by
    intro c hc hcr
    exact (List.mem_eraseP_of_neg (by simpa using hcr)).2 hc
  refine ⟨⟨hsub.nodup h.nodup, fun d hd => h.fresh d (hsub.subset hd), ?_⟩, ?_⟩
  · intro b s hs
    obtain ⟨c, hc, hcb, hcs⟩ := hs
    have hold : l.LogOf b s := ⟨c, List.mem_of_mem_eraseP hc, hcb, hcs⟩
    obtain ⟨d, hd, rfl, hsys⟩ := h.logs b s hold
    refine ⟨d, hkept d hd ?_, rfl, hsys⟩
    intro heq
    rw [heq] at hold
    exact hr b hold
  · intro d hd hdr
    obtain ⟨c, hc, rfl⟩ := List.mem_map.1 hd
    exact List.mem_map_of_mem (hkept c hc hdr)

/-- The change of a buffer that `log_reset` makes. -/
def withoutLog (l : BufferList) (b : BufferPtr) : BufferList :=
  l.updateBuffer b fun c => { c with logBuffer := none, modified := false }

/-- Only the one buffer loses its log buffer. -/
theorem logOf_withoutLog {a r : BufferPtr} : (l.withoutLog b).LogOf a r ↔ l.LogOf a r ∧ a ≠ b := by
  constructor
  · rintro ⟨c, hc, rfl, hcr⟩
    obtain ⟨d, hd, rfl⟩ := mem_updateBuffer.1 hc
    split_ifs at hcr ⊢ with hdb
    exact ⟨⟨d, hd, rfl, hcr⟩, hdb⟩
  · rintro ⟨⟨c, hc, rfl, hcr⟩, hne⟩
    refine ⟨c, mem_updateBuffer.2 ⟨c, hc, ?_⟩, rfl, hcr⟩
    rw [if_neg hne]

/-- It does not matter which comes first, a change or that another buffer leaves. -/
theorem unlink_updateBuffer {f : BufferEntry → BufferEntry} (hf : ∀ c, (f c).ptr = c.ptr) (r : BufferPtr) :
    (l.unlink r).updateBuffer b f = (l.updateBuffer b f).unlink r := by
  rw [unlink, updateBuffer, unlink, updateBuffer, List.eraseP_map]
  have hsame : (fun c : BufferEntry => c.ptr == r) ∘ (fun c => if c.ptr = b then f c else c) = fun c => c.ptr == r := by
    funext c
    rw [Function.comp_apply]
    split_ifs
    · rw [hf c]
    · rfl
  rw [hsame]

/-- `log_reset` frees the log buffer if there is one. -/
theorem logReset_eq (l : BufferList) (b : BufferPtr) :
    l.logReset b = ((l.log b).map (l.withoutLog b).unlink).getD (l.withoutLog b) := by
  rw [logReset]
  cases l.log b with
  | none => rfl
  | some r => exact unlink_updateBuffer (f := fun c => { c with logBuffer := none, modified := false }) (fun _ => rfl) r

/-- A buffer loses its log, which is the log of no other. -/
theorem Sound.logReset (h : l.Sound) (hsole : ∀ r, l.LogOf b r → ∀ a, l.LogOf a r → a = b) :
    (l.logReset b).Sound ∧ (∀ d ∈ l.live, ¬ l.LogOf b d → d ∈ (l.logReset b).live) ∧
      ∀ a r, (l.logReset b).LogOf a r → l.LogOf a r ∧ a ≠ b := by
  have hwithout : l.Grows (l.withoutLog b) := by
    refine h.updateLog b (fun _ => ⟨rfl, rfl⟩) ?_
    intro c r hr
    cases hr
  rw [logReset_eq]
  cases hlog : l.log b with
  | none => exact ⟨hwithout.sound, fun d hd _ => hwithout.kept d hd, fun a r hr => logOf_withoutLog.1 hr⟩
  | some r =>
    have hr := logOf_of_log hlog
    have hnone : ∀ a, ¬ (l.withoutLog b).LogOf a r := by
      intro a ha
      obtain ⟨hold, hne⟩ := logOf_withoutLog.1 ha
      exact hne (hsole r hr a hold)
    obtain ⟨hsound, hkept⟩ := hwithout.sound.unlink hnone
    refine ⟨hsound, ?_, ?_⟩
    · intro d hd hnot
      refine hkept d (hwithout.kept d hd) ?_
      rintro rfl
      exact hnot hr
    · rintro a s ⟨c, hc, hca, hcs⟩
      exact logOf_withoutLog.1 ⟨c, List.mem_of_mem_eraseP hc, hca, hcs⟩

/-- A buffer leaves the list with its log, where no other buffer has one of them for its log. -/
theorem Sound.ebFree (h : l.Sound) (hsole : ∀ r, l.LogOf b r → ∀ a, l.LogOf a r → a = b) (hb : ∀ a, ¬ l.LogOf a b) :
    (l.ebFree b).Sound ∧ (∀ d ∈ l.live, ¬ l.Leaves b d → d ∈ (l.ebFree b).live) ∧
      ∀ a r, (l.ebFree b).LogOf a r → l.LogOf a r := by
  obtain ⟨hsound, hkept, hlogs⟩ := h.logReset hsole
  obtain ⟨hsound', hkept'⟩ := hsound.unlink (r := b) fun a ha => hb a (hlogs a b ha).1
  refine ⟨hsound', ?_, ?_⟩
  · intro d hd hleaves
    exact hkept' d (hkept d hd fun hlog => hleaves (Or.inr hlog)) fun heq => hleaves (Or.inl heq)
  · rintro a r ⟨c, hc, hca, hcr⟩
    exact (hlogs a r ⟨c, List.mem_of_mem_eraseP hc, hca, hcr⟩).1

/-- Freeing a buffer gives no new address. -/
theorem nextBuffer_ebFree (l : BufferList) (b : BufferPtr) : (l.ebFree b).nextBuffer = l.nextBuffer := by
  rw [BufferList.ebFree, logReset_eq]
  cases l.log b <;> rfl

/-- A buffer that was made just now leaves the list as it came. -/
theorem Grows.ebFree_new (hl : l.Sound) (h : l.Grows l') (hb : b ∉ l.live) (hnot : ∀ a r, l'.LogOf a r → l.LogOf a r) :
    l.Grows (l'.ebFree b) := by
  have hno : ∀ r, ¬ l'.LogOf b r := fun r hr => hb (live_of_logOf (hnot b r hr))
  obtain ⟨hsound, hkept, -⟩ := h.sound.ebFree (fun r hr => absurd hr (hno r)) fun a ha => hb (hl.log_live (hnot a b ha))
  refine ⟨hsound, fun d hd => hkept d (h.kept d hd) ?_⟩
  rintro (rfl | hlog)
  · exact hb hd
  · exact hno d hlog

/-! ## What the commands add -/

/-- The buffer of the help is in the list. -/
theorem Sound.newHelpBuffer (h : l.Sound) :
    l.Grows (QeState.newHelpBuffer l).1 ∧ (QeState.newHelpBuffer l).2.1 ∈ (QeState.newHelpBuffer l).1.live := by
  rw [QeState.newHelpBuffer]
  cases hfind : l.ebFind "*Help*" with
  | none => exact ⟨h.ebNew _ _, List.mem_cons_self⟩
  | some c => exact ⟨h.refl, ebFind_live hfind⟩

/-- The help text is written. -/
theorem Sound.printHelp (h : l.Sound) (b : BufferPtr) : l.Grows (QeState.printHelp l b) :=
  (h.ebAddlog b).trans ((h.ebAddlog b).sound.updateBuffer b fun _ => ⟨rfl, rfl, rfl⟩)

/-- The list of a directory is written, in its buffer. -/
theorem Sound.buildDiredList (h : l.Sound) (b : BufferPtr) (changed : Bool) : l.Grows (QeState.buildDiredList l b changed) := by
  have hwritten : l.Grows (if changed then l.ebAddlog b else l) := by
    split_ifs
    · exact h.ebAddlog b
    · exact h.refl
  exact hwritten.trans (hwritten.sound.updateBuffer b fun _ => ⟨rfl, rfl, rfl⟩)

/-- The buffer of cscope is found or made. -/
theorem Sound.cscopeBuffer (h : l.Sound) :
    l.Grows (QeState.cscopeBuffer l).1 ∧ (QeState.cscopeBuffer l).2 ∈ (QeState.cscopeBuffer l).1.live := by
  rw [QeState.cscopeBuffer]
  cases hfind : l.ebFind "*cscope*" with
  | none => exact ⟨h.ebNew _ _, List.mem_cons_self⟩
  | some c => exact ⟨h.refl, ebFind_live hfind⟩

/-- The buffer to switch to is no log, and another one where the first one is in the list. -/
theorem Sound.otherBuffer (h : l.Sound) (b : BufferPtr) :
    l.Grows (QeState.otherBuffer l b).1 ∧ (∀ a r, (QeState.otherBuffer l b).1.LogOf a r → l.LogOf a r) ∧
      (QeState.otherBuffer l b).2 ∈ (QeState.otherBuffer l b).1.live ∧
      (b ∈ l.live → ¬ (QeState.otherBuffer l b).1.Leaves b (QeState.otherBuffer l b).2) := by
  have hother : ∀ l' : BufferList, l'.Sound → ∀ c ∈ l'.buffers, c.ptr ≠ b → c.flags.system = false → ¬ l'.Leaves b c.ptr := by
    rintro l' hl' c hc hne hsys (heq | hlog)
    · exact hne heq
    · obtain ⟨d, hd, hdc, hdsys⟩ := hl'.logs b c.ptr hlog
      rw [List.inj_on_of_nodup_map hl'.nodup hd hc hdc, hsys] at hdsys
      cases hdsys
  rw [QeState.otherBuffer]
  cases hfind : l.buffers.find? fun c => c.ptr != b && !c.flags.system with
  | some c =>
    have hc := List.mem_of_find?_eq_some hfind
    have hsome := List.find?_some hfind
    rw [Bool.and_eq_true, bne_iff_ne, Bool.not_eq_true'] at hsome
    exact ⟨h.refl, fun _ _ hr => hr, List.mem_map_of_mem hc, fun _ => hother l h c hc hsome.1 hsome.2⟩
  | none =>
    have hnew := h.ebNew "*scratch*" { savelog := true }
    refine ⟨hnew, fun _ _ hr => logOf_ebNew hr, List.mem_cons_self, fun hb => ?_⟩
    refine hother _ hnew.sound _ List.mem_cons_self ?_ rfl
    intro heq
    exact Nat.lt_irrefl _ (heq ▸ h.fresh b hb)

/-- A shell that is not launched leaves the list as it was, but for the buffer of its colors. -/
theorem Sound.newShellBuffer (h : l.Sound) (name : String) (isShell launched : Bool) :
    l.Grows (QeState.newShellBuffer l name isShell launched) ∧
      (launched = true → l.nextBuffer ∈ (QeState.newShellBuffer l name isShell launched).live) := by
  have hnew := h.ebNew "" { savelog := true }
  have hnamed := hnew.trans (hnew.sound.setBufferName l.nextBuffer name)
  have hmem : l.nextBuffer ∈ ((l.ebNew "" { savelog := true }).setBufferName l.nextBuffer name).live :=
    (hnew.sound.setBufferName l.nextBuffer name).kept _ List.mem_cons_self
  have hlogs : ∀ a r, ((l.ebNew "" { savelog := true }).setBufferName l.nextBuffer name).LogOf a r → l.LogOf a r :=
    fun a r hr => logOf_ebNew (logOf_setBufferName hr)
  obtain ⟨l', hl'⟩ : ∃ l', l' = (l.ebNew "" { savelog := true }).setBufferName l.nextBuffer name := ⟨_, rfl⟩
  rw [← hl'] at hnamed hmem hlogs
  have hcolored : l.Grows (if isShell then l'.ebNew "*color*" { system := true } else l') ∧
      l.nextBuffer ∈ (if isShell then l'.ebNew "*color*" { system := true } else l').live ∧
      ∀ a r, (if isShell then l'.ebNew "*color*" { system := true } else l').LogOf a r → l.LogOf a r := by
    split_ifs
    · exact ⟨hnamed.trans (hnamed.sound.ebNew _ _), List.mem_cons_of_mem _ hmem, fun a r hr => hlogs a r (logOf_ebNew hr)⟩
    · exact ⟨hnamed, hmem, hlogs⟩
  obtain ⟨hgrows, hin, hsame⟩ := hcolored
  rw [QeState.newShellBuffer, ← hl']
  cases launched with
  | true => exact ⟨hgrows, fun _ => hin⟩
  | false => exact ⟨hgrows.ebFree_new h (fun hmem => Nat.lt_irrefl _ (h.fresh _ hmem)) hsame, fun hno => by cases hno⟩

end BufferList

end Hoe
