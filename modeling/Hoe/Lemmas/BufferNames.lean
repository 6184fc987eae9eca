import Hoe.BufferNames
import Mathlib.Data.List.NodupEquivFin
import Mathlib.Data.Nat.Digits.Defs

/-!
# The names of the buffers, command by command

What each function does to the list of the buffers, and the invariant: no buffer in front of one that is not a system buffer has its
name. It is stated up to one buffer, which is being made, renamed or killed.
-/

namespace Hoe

namespace BufferNames

/-! ## The list -/

/-- `eb_find` finds nothing just when no buffer has the name. -/
theorem ebFind_eq_none {s : BufferNames} {name : List Byte} : s.ebFind name = none ↔ ∀ c ∈ s.buffers, c.name ≠ name := by
  simp [ebFind]

theorem ebFind_isSome {s : BufferNames} {name : List Byte} : (s.ebFind name).isSome ↔ name ∈ s.buffers.map (·.name) := by
  simp [ebFind]

/-- Two changes of one buffer are one, as the address stays. -/
theorem updateBuffer_updateBuffer (s : BufferNames) (b : BufferPtr) {f : NamedBuffer → NamedBuffer} (hf : ∀ c, (f c).ptr = c.ptr)
    (g : NamedBuffer → NamedBuffer) : (s.updateBuffer b f).updateBuffer b g = s.updateBuffer b (g ∘ f) := by
  have h : ∀ c : NamedBuffer, (if (if c.ptr = b then f c else c).ptr = b then g (if c.ptr = b then f c else c) else
      if c.ptr = b then f c else c) = if c.ptr = b then g (f c) else c := by
    intro c
    by_cases hc : c.ptr = b <;> simp [hc, hf]
  simp [updateBuffer, List.map_map, Function.comp_def, h]

/-! ## The loop of `set_buffer_name` -/

/-- An infinite sequence of different things leaves a list within its length. -/
theorem exists_not_mem {α : Type*} {f : Nat → α} (hf : Function.Injective f) (l : List α) : ∃ i ≤ l.length, f i ∉ l := by
  by_contra h
  have hsub : (List.range (l.length + 1)).map f ⊆ l := by
    intro x hx
    obtain ⟨i, hi, rfl⟩ := List.mem_map.1 hx
    by_contra hn
    exact h ⟨i, Nat.le_of_lt_succ (List.mem_range.1 hi), hn⟩
  have hle := (List.subperm_of_subset (List.nodup_range.map hf) hsub).length_le
  rw [List.length_map, List.length_range] at hle
  omega

/-- Different numbers are written differently, so that the names that are tried are different. -/
theorem decimal_injective : Function.Injective Vt.decimal := by
  intro m n h
  have hsome : ∀ k, k ≠ 0 → Vt.decimal k ≠ [48] := by
    intro k hk e
    rw [Vt.decimal, if_neg hk, List.map_reverse] at e
    have hd : Nat.digits 10 k = [0] := by
      have e := congrArg List.reverse e
      rw [List.reverse_reverse] at e
      obtain ⟨d, hd, h48⟩ : ∃ d, Nat.digits 10 k = [d] ∧ 48 + d = 48 := by simpa [List.map_eq_cons_iff] using e
      rw [hd]
      congr 1
      omega
    have := Nat.ofDigits_digits 10 k
    rw [hd] at this
    exact hk this.symm
  by_cases hm : m = 0
  · by_contra hne
    have hn : n ≠ 0 := fun e => hne (hm.trans e.symm)
    have h0 : Vt.decimal m = [48] := if_pos hm
    exact hsome n hn (h.symm.trans h0)
  · by_cases hn : n = 0
    · have h0 : Vt.decimal n = [48] := if_pos hn
      exact absurd (h.trans h0) (hsome m hm)
    · rw [Vt.decimal, Vt.decimal, if_neg hm, if_neg hn] at h
      have hinj : Function.Injective (48 + · : Nat → Nat) := fun a b e => Nat.add_left_cancel e
      exact Nat.digits.injective 10 (List.reverse_injective ((List.map_injective_iff.2 hinj) h))

/-- The names that the loop tries, from some number on. -/
def triedName (base : List Byte) (n : Nat) (name : List Byte) : Nat → List Byte
  | 0 => name
  | i + 1 => base ++ cstr "<" ++ Vt.decimal (n + i) ++ cstr ">"

/-- The loop ends when one of the names that it comes to is free. -/
theorem renameLoop_isSome {s : BufferNames} {base : List Byte} {fuel n : Nat} {name : List Byte}
    (h : ∃ i < fuel, triedName base n name i ∉ s.buffers.map (·.name)) : (s.renameLoop base fuel n name).isSome := by
  induction fuel generalizing n name with
  | zero =>
    obtain ⟨i, hi, -⟩ := h
    exact absurd hi (Nat.not_lt_zero i)
  | succ fuel ih =>
    rw [renameLoop]
    split
    next hfound =>
      obtain ⟨i, hi, hfree⟩ := h
      cases i with
      | zero => exact absurd (ebFind_isSome.1 hfound) hfree
      | succ i =>
        refine ih ⟨i, Nat.lt_of_succ_lt_succ hi, ?_⟩
        cases i with
        | zero => exact hfree
        | succ i =>
          have e : triedName base (n + 1) (base ++ cstr "<" ++ Vt.decimal n ++ cstr ">") (i + 1) = triedName base n name (i + 1 + 1) := by
            rw [triedName, triedName, Nat.add_right_comm n 1 i, Nat.add_assoc]
          rwa [e]
    next => rfl

/-- What the loop ends with is a name that no buffer has. -/
theorem renameLoop_free {s : BufferNames} {base : List Byte} {fuel n : Nat} {name name' : List Byte}
    (h : s.renameLoop base fuel n name = some name') : ∀ c ∈ s.buffers, c.name ≠ name' := by
  induction fuel generalizing n name with
  | zero => nomatch h
  | succ fuel ih =>
    rw [renameLoop] at h
    split at h
    · exact ih h
    next hnone =>
      rw [← Option.some.inj h]
      exact ebFind_eq_none.1 (Option.not_isSome_iff_eq_none.1 hnone)

/-- The loop only writes behind the name. -/
theorem renameLoop_prefix {s : BufferNames} {base : List Byte} {fuel n : Nat} {name name' : List Byte} (hname : base <+: name)
    (h : s.renameLoop base fuel n name = some name') : base <+: name' := by
  induction fuel generalizing n name with
  | zero => nomatch h
  | succ fuel ih =>
    rw [renameLoop] at h
    split at h
    · refine ih ?_ h
      rw [List.append_assoc, List.append_assoc]
      exact List.prefix_append _ _
    · rw [← Option.some.inj h]
      exact hname

/-- The loop ends, within as many turns as there are buffers and one more. -/
theorem renameLoop_ends (s : BufferNames) (base : List Byte) : (s.renameLoop base (s.buffers.length + 1) 2 base).isSome := by
  have hinj : Function.Injective (triedName base 2 base) := by
    have hlt : cstr "<" ≠ [] := by decide
    intro i j h
    cases i with
    | zero =>
      cases j with
      | zero => rfl
      | succ j =>
        have := congrArg List.length h
        simp [triedName, cstr] at this
    | succ i =>
      cases j with
      | zero =>
        have := congrArg List.length h
        simp [triedName, cstr] at this
      | succ j =>
        rw [triedName, triedName] at h
        have hd := decimal_injective (List.append_cancel_left (List.append_cancel_right h))
        omega
  obtain ⟨i, hi, hfree⟩ := exists_not_mem hinj (s.buffers.map (·.name))
  rw [List.length_map] at hi
  exact renameLoop_isSome ⟨i, Nat.lt_succ_of_le hi, hfree⟩

/-! ## Naming -/

/-- `set_buffer_name` gives the buffer a name that no other buffer has, with the one that is wanted in front. -/
theorem setBufferName_cases {s s' : BufferNames} {b : BufferPtr} {name1 : List Byte} (h : s.setBufferName b name1 = some s') :
    ∃ name, pstrcpy (256 - 10) name1 <+: name ∧ (∀ c ∈ s.buffers, c.ptr ≠ b → c.name ≠ name) ∧
      s' = s.updateBuffer b fun c => { c with name := name } := by
  unfold setBufferName at h
  obtain ⟨name, hname, h⟩ := Option.bind_eq_some_iff.1 h
  split at h
  next hlen =>
    refine ⟨name, renameLoop_prefix (List.prefix_refl _) hname, fun c hc hne => ?_, ?_⟩
    · refine renameLoop_free hname c (List.mem_map.2 ⟨c, hc, ?_⟩)
      rw [if_neg hne]
    · have e : pstrcpy 256 name = name := List.take_of_length_le (by omega)
      rw [← Option.some.inj h, e]
      exact updateBuffer_updateBuffer s b (by intro; rfl) _
  next => nomatch h

/-- `set_filename` gives the buffer a name that no other one has. -/
theorem setFilename_cases {s s' : BufferNames} {b : BufferPtr} {filename : List Byte} (h : s.setFilename b filename = some s') :
    ∃ name, (∀ c ∈ s.buffers, c.ptr ≠ b → c.name ≠ name) ∧
      s' = s.updateBuffer b fun c => { c with name := name, filename := pstrcpy 1024 filename } := by
  obtain ⟨name, -, hfree, rfl⟩ := setBufferName_cases h
  refine ⟨name, fun c hc hne => hfree c (List.mem_map.2 ⟨c, hc, ?_⟩) hne, ?_⟩
  · rw [if_neg hne]
  · exact updateBuffer_updateBuffer s b (by intro; rfl) _

/-- A new buffer is in front of the others when it is changed. -/
theorem updateBuffer_ebNew (s : BufferNames) (name : List Byte) (flags : BufferFlags) (f : NamedBuffer → NamedBuffer) :
    ∃ bs, ((s.ebNew name flags).updateBuffer s.nextBuffer f).buffers =
      f { ptr := s.nextBuffer, name := pstrcpy 256 name, flags := flags, saveLog := flags.savelog } :: bs :=
  ⟨s.buffers.map fun c => if c.ptr = s.nextBuffer then f c else c, by simp [updateBuffer, ebNew]⟩

/-- A file is loaded: its buffer is in front of the others, and the window shows it. -/
theorem loadNew_cases {s s' : BufferNames} {e : WindowPtr} {filename : List Byte} (h : s.loadNew e filename = some s') :
    ∃ b bs, s'.buffers = b :: bs ∧ b.filename = pstrcpy 1024 filename ∧ s'.shows e = b.ptr := by
  obtain ⟨s₁, h₁, h⟩ := Option.bind_eq_some_iff.1 h
  obtain ⟨name, -, rfl⟩ := setFilename_cases h₁
  obtain ⟨_, _, rfl⟩ := Option.map_eq_some_iff.1 h
  obtain ⟨bs, hbs⟩ := updateBuffer_ebNew s [] { savelog := true } fun c => { c with name := name, filename := pstrcpy 1024 filename }
  exact ⟨_, bs, hbs, rfl, Function.update_self _ _ _⟩

/-! ## The invariant -/

/-- The buffers have addresses of their own, and none in front of one that is not a system buffer has its name. The buffer `but` may
have any name. -/
structure NamesBut (but : Option BufferPtr) (s : BufferNames) : Prop where
  ptrs : s.buffers.Pairwise fun c d => c.ptr ≠ d.ptr
  old : ∀ c ∈ s.buffers, c.ptr < s.nextBuffer
  names : s.buffers.Pairwise fun c d => some c.ptr ≠ but → some d.ptr ≠ but → d.flags.system = false → c.name ≠ d.name

/-- The windows show other buffers. -/
theorem NamesBut.windows {but : Option BufferPtr} {s : BufferNames} (h : s.NamesBut but) (shows : WindowPtr → BufferPtr) :
    NamesBut but { s with shows := shows } := ⟨h.ptrs, h.old, h.names⟩

/-- If all names are different, they are so but for one buffer. -/
theorem NamesBut.weaken {s : BufferNames} (h : s.NamesBut none) (but : Option BufferPtr) : s.NamesBut but :=
  ⟨h.ptrs, h.old, h.names.imp fun hcd _ _ => hcd (Option.some_ne_none _) (Option.some_ne_none _)⟩

/-- A buffer is taken out of the list. -/
theorem NamesBut.unlink {but : Option BufferPtr} {s : BufferNames} (h : s.NamesBut but) (b : BufferPtr) : (s.unlink b).NamesBut but :=
  ⟨h.ptrs.sublist List.eraseP_sublist, fun c hc => h.old c (List.mem_of_mem_eraseP hc), h.names.sublist List.eraseP_sublist⟩

/-- The buffer that is unlinked is no longer in the list. -/
theorem ne_of_mem_unlink {s : BufferNames} (h : s.buffers.Pairwise fun c d => c.ptr ≠ d.ptr) {b : BufferPtr} {c : NamedBuffer}
    (hc : c ∈ (s.unlink b).buffers) : c.ptr ≠ b := by
  obtain ⟨buffers, n, shows⟩ := s
  unfold unlink at hc
  simp only at h hc
  induction buffers with
  | nil => nomatch hc
  | cons d buffers ih =>
    obtain ⟨hd, h⟩ := List.pairwise_cons.1 h
    rw [List.eraseP_cons] at hc
    by_cases hb : d.ptr = b
    · simp only [beq_iff_eq.2 hb, cond_true] at hc
      rw [← hb]
      exact (hd c hc).symm
    · simp only [beq_eq_false_iff_ne.2 hb, cond_false] at hc
      rcases List.mem_cons.1 hc with rfl | hc
      · exact hb
      · exact ih h hc

/-- The buffer that may have any name is taken out of the list. -/
theorem NamesBut.unlink_but {s : BufferNames} {b : BufferPtr} (h : s.NamesBut (some b)) : (s.unlink b).NamesBut none := by
  obtain ⟨h1, h2, h3⟩ := h.unlink b
  refine ⟨h1, h2, h3.imp_of_mem fun hc hd hcd _ _ => hcd ?_ ?_⟩
  · exact fun e => ne_of_mem_unlink h.ptrs hc (Option.some.inj e)
  · exact fun e => ne_of_mem_unlink h.ptrs hd (Option.some.inj e)

/-- A change of a buffer that keeps its address, its name and its flags. -/
theorem NamesBut.update {but : Option BufferPtr} {s : BufferNames} (h : s.NamesBut but) (b : BufferPtr)
    {f : NamedBuffer → NamedBuffer} (hp : ∀ c, (f c).ptr = c.ptr) (hn : ∀ c, (f c).name = c.name) (hf : ∀ c, (f c).flags = c.flags) :
    (s.updateBuffer b f).NamesBut but := by
  have kp : ∀ c : NamedBuffer, (if c.ptr = b then f c else c).ptr = c.ptr := fun c => by split <;> simp [hp]
  have kn : ∀ c : NamedBuffer, (if c.ptr = b then f c else c).name = c.name := fun c => by split <;> simp [hn]
  have kf : ∀ c : NamedBuffer, (if c.ptr = b then f c else c).flags = c.flags := fun c => by split <;> simp [hf]
  refine ⟨?_, ?_, ?_⟩
  · exact List.pairwise_map.2 (h.ptrs.imp fun hcd => by rwa [kp, kp])
  · intro c' hc'
    obtain ⟨c, hc, rfl⟩ := List.mem_map.1 hc'
    rw [kp]
    exact h.old c hc
  · exact List.pairwise_map.2 (h.names.imp fun hcd => by rwa [kp, kp, kf, kn, kn])

/-- A buffer is given a name that no other buffer has. -/
theorem NamesBut.rename {s : BufferNames} {b : BufferPtr} (h : s.NamesBut (some b)) {name : List Byte}
    (hfree : ∀ c ∈ s.buffers, c.ptr ≠ b → c.name ≠ name) {f : NamedBuffer → NamedBuffer} (hp : ∀ c, (f c).ptr = c.ptr)
    (hn : ∀ c, (f c).name = name) : (s.updateBuffer b f).NamesBut none := by
  have kp : ∀ c : NamedBuffer, (if c.ptr = b then f c else c).ptr = c.ptr := fun c => by split <;> simp [hp]
  refine ⟨?_, ?_, ?_⟩
  · exact List.pairwise_map.2 (h.ptrs.imp fun hcd => by rwa [kp, kp])
  · intro c' hc'
    obtain ⟨c, hc, rfl⟩ := List.mem_map.1 hc'
    rw [kp]
    exact h.old c hc
  · refine List.pairwise_map.2 ((h.ptrs.and h.names).imp_of_mem fun {c d} hc hd hcd _ _ => ?_)
    by_cases hcb : c.ptr = b
    · have hdb : d.ptr ≠ b := fun e => hcd.1 (hcb.trans e.symm)
      rw [if_pos hcb, if_neg hdb, hn]
      exact fun _ => (hfree d hd hdb).symm
    · by_cases hdb : d.ptr = b
      · rw [if_neg hcb, if_pos hdb, hn]
        exact fun _ => hfree c hc hcb
      · rw [if_neg hcb, if_neg hdb]
        exact hcd.2 (fun e => hcb (Option.some.inj e)) fun e => hdb (Option.some.inj e)

/-- A new buffer comes in front of the list, under a name that no other buffer than a system buffer has. -/
theorem NamesBut.ebNew {but : Option BufferPtr} {s : BufferNames} (h : s.NamesBut but) {name : List Byte}
    (hfree : ∀ d ∈ s.buffers, some d.ptr ≠ but → d.flags.system = false → pstrcpy 256 name ≠ d.name) (flags : BufferFlags) :
    (s.ebNew name flags).NamesBut but := by
  refine ⟨?_, ?_, ?_⟩
  · exact List.pairwise_cons.2 ⟨fun d hd => (Nat.ne_of_gt (h.old d hd)), h.ptrs⟩
  · intro c hc
    rcases List.mem_cons.1 hc with rfl | hc
    · exact Nat.lt_succ_self _
    · exact Nat.lt_succ_of_lt (h.old c hc)
  · exact List.pairwise_cons.2 ⟨fun d hd _ => hfree d hd, h.names⟩

/-- A new buffer comes in front of the list, and may have any name. -/
theorem NamesBut.ebNew_but {s : BufferNames} (h : s.NamesBut none) (name : List Byte) (flags : BufferFlags) :
    (s.ebNew name flags).NamesBut (some s.nextBuffer) := by
  refine ⟨?_, ?_, ?_⟩
  · exact List.pairwise_cons.2 ⟨fun d hd => (Nat.ne_of_gt (h.old d hd)), h.ptrs⟩
  · intro c hc
    rcases List.mem_cons.1 hc with rfl | hc
    · exact Nat.lt_succ_self _
    · exact Nat.lt_succ_of_lt (h.old c hc)
  · exact List.pairwise_cons.2 ⟨fun d hd hne => absurd rfl hne, (h.weaken _).names⟩

/-! ## The commands -/

/-- `log_reset` frees the log buffer, which takes a name away. -/
theorem NamesBut.logReset {but : Option BufferPtr} {s s' : BufferNames} (h : s.NamesBut but) {b : BufferPtr}
    (hr : s.logReset b = some s') : s'.NamesBut but := by
  obtain ⟨c, -, hr⟩ := Option.bind_eq_some_iff.1 hr
  split at hr
  next =>
    rw [← Option.some.inj hr]
    have hlog : (c.logBuffer.elim s s.unlink).NamesBut but := by
      cases c.logBuffer with
      | none => exact h
      | some log => exact h.unlink log
    exact hlog.update b (fun _ => rfl) (fun _ => rfl) fun _ => rfl
  next => nomatch hr

/-- A buffer is freed, whatever its name is. -/
theorem NamesBut.ebFree {s s' : BufferNames} {b : BufferPtr} (h : s.NamesBut (some b)) (hf : s.ebFree b = some s') :
    s'.NamesBut none := by
  obtain ⟨s₁, h₁, rfl⟩ := Option.map_eq_some_iff.1 hf
  exact (h.logReset h₁).unlink_but

/-- No name changes where a window goes to another buffer. -/
theorem NamesBut.switchToBuffer {but : Option BufferPtr} {s s' : BufferNames} (h : s.NamesBut but) {e : WindowPtr} {b : BufferPtr}
    (hs : s.switchToBuffer e b = some s') : s'.NamesBut but := by
  obtain ⟨_, _, rfl⟩ := Option.map_eq_some_iff.1 hs
  exact h.windows _

/-- `do_switch_to_buffer` makes a buffer only where no buffer has the name. -/
theorem NamesBut.doSwitchToBuffer {s s' : BufferNames} (h : s.NamesBut none) {e : WindowPtr} {name : List Byte}
    (hlen : name.length ≤ 255) (hs : s.doSwitchToBuffer e name = some s') : s'.NamesBut none := by
  unfold BufferNames.doSwitchToBuffer at hs
  split at hs
  · exact h.switchToBuffer hs
  next hnone =>
    have hcut : pstrcpy 256 name = name := List.take_of_length_le hlen
    refine (h.ebNew (fun d hd _ _ => ?_) _).switchToBuffer hs
    rw [hcut]
    exact (ebFind_eq_none.1 hnone d hd).symm

/-- The name of the one buffer becomes different from the others. -/
theorem NamesBut.setFilename {s s' : BufferNames} {b : BufferPtr} (h : s.NamesBut (some b)) {filename : List Byte}
    (hs : s.setFilename b filename = some s') : s'.NamesBut none := by
  obtain ⟨name, hfree, rfl⟩ := setFilename_cases hs
  exact h.rename hfree (fun _ => rfl) fun _ => rfl

/-- A buffer is killed, and `*scratch*` made anew if it was the last one. -/
theorem NamesBut.killBufferNoconfirm {s s' : BufferNames} (h : s.NamesBut none) {b : BufferPtr}
    (hk : s.killBufferNoconfirm b = some s') : s'.NamesBut none := by
  have hother : (s.otherBuffer b).1.NamesBut (some b) := by
    unfold otherBuffer
    split
    · exact h.weaken _
    next hnone =>
      refine (h.weaken (some b)).ebNew (fun d hd hne hsys => ?_) _
      have := List.find?_eq_none.1 hnone d hd
      simp only [hsys, Bool.not_false, Bool.and_true, bne_iff_ne, ne_eq, Decidable.not_not] at this
      exact absurd (congrArg some this) hne
  exact (hother.windows _).ebFree hk

theorem NamesBut.doKillBuffer {s s' : BufferNames} (h : s.NamesBut none) {name : List Byte} {yes : Bool}
    (hk : s.doKillBuffer name yes = some s') : s'.NamesBut none := by
  unfold BufferNames.doKillBuffer at hk
  split at hk
  · split at hk
    · rw [← Option.some.inj hk]
      exact h
    · exact h.killBufferNoconfirm hk
  · rw [← Option.some.inj hk]
    exact h

/-- A file is loaded into a new buffer. -/
theorem NamesBut.loadNew {s s' : BufferNames} (h : s.NamesBut none) {e : WindowPtr} {filename : List Byte}
    (hl : s.loadNew e filename = some s') : s'.NamesBut none := by
  obtain ⟨s₁, h₁, hl⟩ := Option.bind_eq_some_iff.1 hl
  exact ((h.ebNew_but _ _).setFilename h₁).switchToBuffer hl

/-- A file is visited, or shown where it is visited already. -/
theorem NamesBut.doLoad1 {s s' : BufferNames} (h : s.NamesBut none) {cwd : List Byte} {e : WindowPtr} {filename1 : List Byte}
    {killBuffer : Option Bool} (hl : s.doLoad1 cwd e filename1 killBuffer = some s') : s'.NamesBut none := by
  obtain ⟨s₁, h₁, hl⟩ := Option.bind_eq_some_iff.1 hl
  have hs₁ : s₁.NamesBut none := by
    cases killBuffer with
    | some yes =>
      obtain ⟨_, _, h₁⟩ := Option.bind_eq_some_iff.1 h₁
      exact h.doKillBuffer h₁
    | none =>
      rw [← Option.some.inj h₁]
      exact h
  dsimp only at hl
  split at hl
  · exact hs₁.switchToBuffer hl
  · exact hs₁.loadNew hl

/-- A file is written under another name. -/
theorem NamesBut.saveEditCb {s s' : BufferNames} (h : s.NamesBut none) {e : WindowPtr} {filename : List Byte} {written : Bool}
    (hs : s.saveEditCb e filename written = some s') : s'.NamesBut none := by
  obtain ⟨b, -, hs⟩ := Option.bind_eq_some_iff.1 hs
  obtain ⟨s₁, h₁, hs⟩ := Option.bind_eq_some_iff.1 hs
  have hs₁ := (h.weaken _).setFilename h₁
  split at hs
  · exact hs₁.logReset hs
  · rw [← Option.some.inj hs]
    exact hs₁

/-- Only system buffers have the name. -/
def Free (s : BufferNames) (name : List Byte) : Prop := ∀ d ∈ s.buffers, d.flags.system = false → name ≠ d.name

/-- A shell gets its buffer and that of its colors. -/
theorem NamesBut.newShell {s s' : BufferNames} (h : s.NamesBut none) (hfree : s.Free (cstr "*color*"))
    (hs : s.newShell = some s') : s'.NamesBut none := by
  obtain ⟨s₁, h₁, rfl⟩ := Option.map_eq_some_iff.1 hs
  obtain ⟨name, hshell, hname, rfl⟩ := setBufferName_cases h₁
  have hs₁ := (h.ebNew_but [] { savelog := true }).rename hname (f := fun c => { c with name := name }) (fun _ => rfl) fun _ => rfl
  refine (hs₁.ebNew (fun d' hd' _ hsys => ?_) _).update _ (fun _ => rfl) (fun _ => rfl) fun _ => rfl
  obtain ⟨d, hd, rfl⟩ := List.mem_map.1 hd'
  split
  next => 
    rintro rfl
    exact absurd hshell (by decide)
  next hne =>
    rw [if_neg hne] at hsys
    rcases List.mem_cons.1 hd with rfl | hd
    · exact absurd rfl hne
    · exact hfree d hd hsys

theorem NamesBut.doShell {s s' : BufferNames} (h : s.NamesBut none) {e : WindowPtr} {launched : Bool} (hfree : s.Free (cstr "*color*"))
    (hs : s.doShell e launched = some s') : s'.NamesBut none := by
  obtain ⟨s₁, h₁, hs⟩ := Option.bind_eq_some_iff.1 hs
  have hs₁ := h.newShell hfree h₁
  split at hs
  · exact hs₁.switchToBuffer hs
  · exact (hs₁.weaken _).ebFree hs

/-- A log buffer is made at the first change. -/
theorem NamesBut.ebAddlog {s s' : BufferNames} (h : s.NamesBut none) {b : BufferPtr}
    (hfree : ∀ c, s.entry b = some c → c.saveLog = true → c.logBuffer = none → s.Free (logName c.name))
    (ha : s.ebAddlog b = some s') : s'.NamesBut none := by
  obtain ⟨c, hc, ha⟩ := Option.bind_eq_some_iff.1 ha
  split at ha
  next =>
    rw [← Option.some.inj ha]
    have h₁ : (s.updateBuffer b fun c => { c with modified := true }).NamesBut none :=
      h.update b (fun _ => rfl) (fun _ => rfl) fun _ => rfl
    split
    next hlog =>
      obtain ⟨hsave, hnone⟩ := Bool.and_eq_true_iff.1 hlog
      refine (h₁.ebNew (fun d' hd' _ hsys => ?_) _).update _ (fun _ => rfl) (fun _ => rfl) fun _ => rfl
      obtain ⟨d, hd, rfl⟩ := List.mem_map.1 hd'
      have hn := hfree c hc hsave (Option.isNone_iff_eq_none.1 hnone) d hd
      have hcut : pstrcpy 256 (logName c.name) = logName c.name := by simp [logName, pstrcpy]
      rw [hcut]
      split at hsys <;> split <;> exact hn hsys
    next => exact h₁
  next => nomatch ha

/-! ## Pointers and arrays -/

/-- The addresses are those of different buffers, the logs are system buffers, as long as they are in the list, and a name fits its
array. -/
structure Linked (s : BufferNames) : Prop where
  ptrs : s.buffers.Pairwise fun c d => c.ptr ≠ d.ptr
  old : ∀ c ∈ s.buffers, c.ptr < s.nextBuffer
  logs : ∀ c ∈ s.buffers, ∀ log, c.logBuffer = some log → log < s.nextBuffer ∧ ∀ d ∈ s.buffers, d.ptr = log → d.flags.system = true
  names : ∀ c ∈ s.buffers, c.name.length < 256

/-- Which buffer a window shows does not touch the list. -/
theorem Linked.windows {s : BufferNames} (h : s.Linked) (shows : WindowPtr → BufferPtr) : Linked { s with shows := shows } :=
  ⟨h.ptrs, h.old, h.logs, h.names⟩

/-- The list goes on without the buffer that is unlinked. -/
theorem Linked.unlink {s : BufferNames} (h : s.Linked) (b : BufferPtr) : (s.unlink b).Linked := by
  have hmem : ∀ c ∈ (s.unlink b).buffers, c ∈ s.buffers := fun c hc => List.mem_of_mem_eraseP hc
  refine ⟨h.ptrs.sublist List.eraseP_sublist, fun c hc => h.old c (hmem c hc), ?_, fun c hc => h.names c (hmem c hc)⟩
  intro c hc log hlog
  obtain ⟨hlt, hsys⟩ := h.logs c (hmem c hc) log hlog
  exact ⟨hlt, fun d hd => hsys d (hmem d hd)⟩

/-- A change of a buffer that keeps its address and its flags and gives it no log but a system buffer. -/
theorem Linked.update {s : BufferNames} (h : s.Linked) (b : BufferPtr) {f : NamedBuffer → NamedBuffer} (hp : ∀ c, (f c).ptr = c.ptr)
    (hf : ∀ c, (f c).flags = c.flags) (hn : ∀ c, c.name.length < 256 → (f c).name.length < 256)
    (hl : ∀ c log, (f c).logBuffer = some log → c.logBuffer = some log ∨
      log < s.nextBuffer ∧ ∀ d ∈ s.buffers, d.ptr = log → d.flags.system = true) : (s.updateBuffer b f).Linked := by
  have kp : ∀ c : NamedBuffer, (if c.ptr = b then f c else c).ptr = c.ptr := fun c => by split <;> simp [hp]
  have kf : ∀ c : NamedBuffer, (if c.ptr = b then f c else c).flags = c.flags := fun c => by split <;> simp [hf]
  refine ⟨?_, ?_, ?_, ?_⟩
  · exact List.pairwise_map.2 (h.ptrs.imp fun hcd => by rwa [kp, kp])
  · intro c' hc'
    obtain ⟨c, hc, rfl⟩ := List.mem_map.1 hc'
    rw [kp]
    exact h.old c hc
  · intro c' hc' log hlog
    obtain ⟨c, hc, rfl⟩ := List.mem_map.1 hc'
    have hold : log < s.nextBuffer ∧ ∀ d ∈ s.buffers, d.ptr = log → d.flags.system = true := by
      split at hlog
      · rcases hl c log hlog with hlog | hlog
        · exact h.logs c hc log hlog
        · exact hlog
      · exact h.logs c hc log hlog
    refine ⟨hold.1, ?_⟩
    intro d' hd'
    obtain ⟨d, hd, rfl⟩ := List.mem_map.1 hd'
    rw [kp, kf]
    exact hold.2 d hd
  · intro c' hc'
    obtain ⟨c, hc, rfl⟩ := List.mem_map.1 hc'
    split
    · exact hn c (h.names c hc)
    · exact h.names c hc

/-- A new buffer is put into the list. -/
theorem Linked.ebNew {s : BufferNames} (h : s.Linked) (name : List Byte) (flags : BufferFlags) : (s.ebNew name flags).Linked := by
  have hlt : (pstrcpy 256 name).length < 256 := Nat.lt_of_le_of_lt (List.length_take_le _ _) (by decide)
  refine ⟨?_, ?_, ?_, ?_⟩
  · exact List.pairwise_cons.2 ⟨fun d hd => Nat.ne_of_gt (h.old d hd), h.ptrs⟩
  · intro c hc
    rcases List.mem_cons.1 hc with rfl | hc
    · exact Nat.lt_succ_self _
    · exact Nat.lt_succ_of_lt (h.old c hc)
  · intro c hc log hlog
    rcases List.mem_cons.1 hc with rfl | hc
    · cases hlog
    · obtain ⟨hold, hsys⟩ := h.logs c hc log hlog
      refine ⟨Nat.lt_succ_of_lt hold, ?_⟩
      intro d hd hptr
      rcases List.mem_cons.1 hd with rfl | hd
      · exact absurd hptr (Nat.ne_of_gt hold)
      · exact hsys d hd hptr
  · intro c hc
    rcases List.mem_cons.1 hc with rfl | hc
    · exact hlt
    · exact h.names c hc

theorem Linked.logReset {s s' : BufferNames} {b : BufferPtr} (h : s.Linked) (hr : s.logReset b = some s') : s'.Linked := by
  obtain ⟨c, -, hr⟩ := Option.bind_eq_some_iff.1 hr
  split at hr
  next =>
    rw [← Option.some.inj hr]
    have hlog : (c.logBuffer.elim s s.unlink).Linked := by
      cases c.logBuffer with
      | none => exact h
      | some log => exact h.unlink log
    exact hlog.update b (fun _ => rfl) (fun _ => rfl) (fun _ => id) fun _ _ e => (by cases e)
  next => nomatch hr

/-- A buffer that is freed leaves the list, and so does its log. -/
theorem Linked.ebFree {s s' : BufferNames} {b : BufferPtr} (h : s.Linked) (hf : s.ebFree b = some s') : s'.Linked := by
  obtain ⟨s₁, h₁, rfl⟩ := Option.map_eq_some_iff.1 hf
  exact (h.logReset h₁).unlink b

theorem Linked.switchToBuffer {s s' : BufferNames} (h : s.Linked) {e : WindowPtr} {b : BufferPtr}
    (hs : s.switchToBuffer e b = some s') : s'.Linked := by
  obtain ⟨_, _, rfl⟩ := Option.map_eq_some_iff.1 hs
  exact h.windows _

/-- A buffer that is renamed is where it was. -/
theorem Linked.setBufferName {s s' : BufferNames} (h : s.Linked) {b : BufferPtr} {name1 : List Byte}
    (hs : s.setBufferName b name1 = some s') : s'.Linked := by
  unfold BufferNames.setBufferName at hs
  obtain ⟨name, -, hs⟩ := Option.bind_eq_some_iff.1 hs
  split at hs
  next hlen =>
    rw [← Option.some.inj hs]
    have h₁ : (s.updateBuffer b fun c => { c with name := [] }).Linked :=
      h.update b (fun _ => rfl) (fun _ => rfl) (fun _ _ => Nat.zero_lt_succ _) fun _ _ => Or.inl
    refine h₁.update b (fun _ => rfl) (fun _ => rfl) (fun _ _ => ?_) fun _ _ => Or.inl
    exact Nat.lt_of_le_of_lt (List.length_take_le _ _) (by decide)
  next => nomatch hs

theorem Linked.setFilename {s s' : BufferNames} (h : s.Linked) {b : BufferPtr} {filename : List Byte}
    (hs : s.setFilename b filename = some s') : s'.Linked := by
  have h₁ : (s.updateBuffer b fun c => { c with filename := pstrcpy 1024 filename }).Linked :=
    h.update b (fun _ => rfl) (fun _ => rfl) (fun _ => id) fun _ _ => Or.inl
  exact h₁.setBufferName hs

/-- A killed buffer leaves the list, and `*scratch*` takes its place if it was the last one. -/
theorem Linked.killBufferNoconfirm {s s' : BufferNames} (h : s.Linked) {b : BufferPtr} (hk : s.killBufferNoconfirm b = some s') :
    s'.Linked := by
  have hother : (s.otherBuffer b).1.Linked := by
    unfold otherBuffer
    split
    · exact h
    · exact h.ebNew _ _
  exact (hother.windows _).ebFree hk

theorem Linked.doKillBuffer {s s' : BufferNames} (h : s.Linked) {name : List Byte} {yes : Bool}
    (hk : s.doKillBuffer name yes = some s') : s'.Linked := by
  unfold BufferNames.doKillBuffer at hk
  split at hk
  · split at hk
    · rw [← Option.some.inj hk]
      exact h
    · exact h.killBufferNoconfirm hk
  · rw [← Option.some.inj hk]
    exact h

theorem Linked.loadNew {s s' : BufferNames} (h : s.Linked) {e : WindowPtr} {filename : List Byte}
    (hl : s.loadNew e filename = some s') : s'.Linked := by
  obtain ⟨s₁, h₁, hl⟩ := Option.bind_eq_some_iff.1 hl
  exact ((h.ebNew _ _).setFilename h₁).switchToBuffer hl

/-- A file is visited in a new buffer, or in the one that it has. -/
theorem Linked.doLoad1 {s s' : BufferNames} (h : s.Linked) {cwd : List Byte} {e : WindowPtr} {filename1 : List Byte}
    {killBuffer : Option Bool} (hl : s.doLoad1 cwd e filename1 killBuffer = some s') : s'.Linked := by
  obtain ⟨s₁, h₁, hl⟩ := Option.bind_eq_some_iff.1 hl
  have hs₁ : s₁.Linked := by
    cases killBuffer with
    | some yes =>
      obtain ⟨_, _, h₁⟩ := Option.bind_eq_some_iff.1 h₁
      exact h.doKillBuffer h₁
    | none =>
      rw [← Option.some.inj h₁]
      exact h
  dsimp only at hl
  split at hl
  · exact hs₁.switchToBuffer hl
  · exact hs₁.loadNew hl

/-- The log buffer of a change is put into the list. -/
theorem Linked.ebAddlog {s s' : BufferNames} (h : s.Linked) {b : BufferPtr} (ha : s.ebAddlog b = some s') : s'.Linked := by
  obtain ⟨c, -, ha⟩ := Option.bind_eq_some_iff.1 ha
  split at ha
  next =>
    rw [← Option.some.inj ha]
    have h₁ : (s.updateBuffer b fun c => { c with modified := true }).Linked :=
      h.update b (fun _ => rfl) (fun _ => rfl) (fun _ => id) fun _ _ => Or.inl
    split
    · refine (h₁.ebNew _ _).update _ (fun _ => rfl) (fun _ => rfl) (fun _ => id) fun _ log hlog => Or.inr ?_
      obtain rfl := Option.some.inj hlog
      refine ⟨Nat.lt_succ_self _, ?_⟩
      intro d hd hptr
      rcases List.mem_cons.1 hd with rfl | hd
      · rfl
      · exact absurd hptr (Nat.ne_of_lt (h₁.old d hd))
    · exact h₁
  next => nomatch ha

/-- Every command keeps the list. -/
theorem Linked.step {cwd : List Byte} {s s' : BufferNames} (h : s.Linked) {e : WindowPtr} {c : NameCommand}
    (hs : s.step cwd e c = some s') : s'.Linked := by
  cases c with
  | switchToBuffer name =>
    have hs : s.doSwitchToBuffer e name = some s' := hs
    unfold doSwitchToBuffer at hs
    split at hs
    · exact h.switchToBuffer hs
    · exact (h.ebNew _ _).switchToBuffer hs
  | findFile filename => exact h.doLoad1 hs
  | findAlternateFile filename yes => exact h.doLoad1 hs
  | writeFile filename written =>
    obtain ⟨b, -, hs⟩ := Option.bind_eq_some_iff.1 hs
    obtain ⟨s₁, h₁, hs⟩ := Option.bind_eq_some_iff.1 hs
    split at hs
    · exact (h.setFilename h₁).logReset hs
    · rw [← Option.some.inj hs]
      exact h.setFilename h₁
  | shell launched =>
    obtain ⟨s₂, hshell, hs⟩ := Option.bind_eq_some_iff.1 hs
    have hs₂ : s₂.Linked := by
      obtain ⟨s₁, h₁, rfl⟩ := Option.map_eq_some_iff.1 hshell
      exact (((h.ebNew _ _).setBufferName h₁).ebNew _ _).update _ (fun _ => rfl) (fun _ => rfl) (fun _ => id) fun _ _ => Or.inl
    split at hs
    · exact hs₂.switchToBuffer hs
    · exact hs₂.ebFree hs
  | killBuffer name yes => exact h.doKillBuffer hs
  | edit b => exact h.ebAddlog hs

theorem linked_start : start.Linked :=
  ⟨List.pairwise_singleton _ _, by decide, by simp [start, BufferNames.ebNew], by decide⟩

/-- The list is kept in every run of commands. -/
theorem Linked.run {cwd : List Byte} {cs : List (WindowPtr × NameCommand)} {s s' : BufferNames} (h : s.Linked)
    (hr : s.run cwd cs = some s') : s'.Linked := by
  induction cs generalizing s with
  | nil =>
    rw [← Option.some.inj hr]
    exact h
  | cons c cs ih =>
    obtain ⟨s₁, h₁, hr⟩ := Option.bind_eq_some_iff.1 hr
    exact ih (h.step h₁) hr

/-- So it is in every state that the commands lead to. -/
theorem linked_run {cwd : List Byte} {cs : List (WindowPtr × NameCommand)} {s : BufferNames} (hr : start.run cwd cs = some s) :
    s.Linked := linked_start.run hr

/-- A shell, and an edit of the first buffer, which makes a log. -/
theorem linked_run_shell : ((start.run (cstr "/") [(0, .shell true), (0, .edit 0)]).get (by decide)).Linked :=
  linked_run (Option.some_get _).symm

end BufferNames

end Hoe
