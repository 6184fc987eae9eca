import Hoe.Lemmas.BufferNames
import Hoe.Lemmas.ListMode

/-!
# Killing buffers from their list

A selection marks the line of a buffer in the text of the list, but not its item. So the command that kills the marked buffers kills the
one on the line of the cursor, whatever is marked.
-/

namespace Hoe

namespace BufferNames

variable {s s' : BufferNames} {c : NamedBuffer}

/-- A buffer of the list is found at its address. -/
theorem Linked.entry (h : s.Linked) (hc : c ∈ s.buffers) : s.entry c.ptr = some c := by
  obtain ⟨l, r, hl⟩ := List.append_of_mem hc
  refine List.find?_eq_some_iff_append.2 ⟨beq_self_eq_true _, l, r, hl, fun d hd => ?_⟩
  have hptrs := h.ptrs
  rw [hl] at hptrs
  have := (List.pairwise_append.1 hptrs).2.2 d hd c List.mem_cons_self
  simpa using this

/-- The addresses of the list. -/
def addresses (s : BufferNames) : List BufferPtr := s.buffers.map (·.ptr)

theorem Linked.nodup (h : s.Linked) : s.addresses.Nodup := List.pairwise_map.2 h.ptrs

theorem addresses_updateBuffer (s : BufferNames) (b : BufferPtr) {f : NamedBuffer → NamedBuffer} (hf : ∀ c, (f c).ptr = c.ptr) :
    (s.updateBuffer b f).addresses = s.addresses := by
  unfold addresses updateBuffer
  rw [List.map_map]
  refine List.map_congr_left fun d _ => ?_
  simp only [Function.comp_apply]
  split
  · exact hf d
  · rfl

theorem addresses_unlink (s : BufferNames) (b : BufferPtr) : (s.unlink b).addresses = s.addresses.erase b := by
  unfold addresses unlink
  induction s.buffers with
  | nil => rfl
  | cons d l ih =>
    rw [List.eraseP_cons, List.map_cons, List.erase_cons]
    cases d.ptr == b with
    | false => simpa using ih
    | true => rfl

/-- The addresses that are left when a buffer is freed. -/
theorem ebFree_addresses (h : s.Linked) (hc : c ∈ s.buffers) (hlog : s.leads c.logBuffer = true) :
    ∃ s', s.ebFree c.ptr = some s' ∧ s'.shows = s.shows ∧
      s'.addresses = (c.logBuffer.elim s.addresses s.addresses.erase).erase c.ptr := by
  have hreset : s.logReset c.ptr = some ((c.logBuffer.elim s s.unlink).updateBuffer c.ptr fun c =>
      { c with logBuffer := none, modified := false }) := by
    rw [logReset, h.entry hc, Option.bind_some, if_pos hlog]
  rw [ebFree, hreset]
  refine ⟨_, rfl, ?_, ?_⟩
  · cases c.logBuffer with
    | none => rfl
    | some log => rfl
  · rw [addresses_unlink, addresses_updateBuffer _ _ (by intro; rfl)]
    cases c.logBuffer with
    | none => rfl
    | some log => rw [Option.elim_some, Option.elim_some, addresses_unlink]

theorem Linked.mem_left (h : s.Linked) {b : BufferPtr} :
    b ∈ (c.logBuffer.elim s.addresses s.addresses.erase).erase c.ptr ↔ b ∈ s.addresses ∧ b ≠ c.ptr ∧ c.logBuffer ≠ some b := by
  cases c.logBuffer with
  | none => simp [h.nodup.mem_erase_iff, and_comm]
  | some log =>
    rw [Option.elim_some, (h.nodup.erase log).mem_erase_iff, h.nodup.mem_erase_iff, ne_eq (some log), Option.some_inj]
    constructor
    · rintro ⟨hptr, hlog, hb⟩
      exact ⟨hb, hptr, Ne.symm hlog⟩
    · rintro ⟨hb, hptr, hlog⟩
      exact ⟨hptr, Ne.symm hlog, hb⟩

/-- The buffer that the windows show instead is another one, in front of the others where it is new. -/
theorem otherBuffer_cases (s : BufferNames) {b : BufferPtr} (hb : b < s.nextBuffer) :
    (s.otherBuffer b).2 ≠ b ∧ ((s.otherBuffer b).1 = s ∨ (s.otherBuffer b).1 = s.ebNew (cstr "*scratch*") { savelog := true }) := by
  unfold otherBuffer
  split
  next d hd =>
    have hne := List.find?_some hd
    simp only [Bool.and_eq_true, bne_iff_ne] at hne
    exact ⟨hne.1, Or.inl rfl⟩
  next => exact ⟨Nat.ne_of_gt hb, Or.inr rfl⟩

/-- A new buffer is not where a pointer leads. -/
theorem leads_ebNew (s : BufferNames) (name : List Byte) (flags : BufferFlags) {log : Option BufferPtr}
    (hlog : ∀ b, log = some b → b < s.nextBuffer) : (s.ebNew name flags).leads log = s.leads log := by
  cases log with
  | none => rfl
  | some b =>
    have hne : s.nextBuffer ≠ b := Nat.ne_of_gt (hlog b rfl)
    have hentry : (s.ebNew name flags).entry b = s.entry b := List.find?_cons_of_neg (by simpa using hne)
    exact congrArg Option.isSome hentry

/-- Killing a buffer takes it out of the list, with its log, if that is still there. -/
theorem killBufferNoconfirm_cases (h : s.Linked) (hc : c ∈ s.buffers) :
    (s.leads c.logBuffer = false → s.killBufferNoconfirm c.ptr = none) ∧
      (s.leads c.logBuffer = true → ∃ s', s.killBufferNoconfirm c.ptr = some s' ∧
        (∀ b ∈ s.buffers, b.ptr ∈ s'.addresses ↔ b.ptr ≠ c.ptr ∧ c.logBuffer ≠ some b.ptr) ∧
        ∀ e, s'.shows e = s.shows e ↔ s.shows e ≠ c.ptr) := by
  obtain ⟨hne, hother⟩ := otherBuffer_cases s (h.old c hc)
  obtain ⟨s₁, hs₁⟩ : ∃ s₁, s₁ = { (s.otherBuffer c.ptr).1 with
      shows := fun e => if s.shows e = c.ptr then (s.otherBuffer c.ptr).2 else s.shows e } := ⟨_, rfl⟩
  have hlinked : s₁.Linked ∧ (∀ b ∈ s.buffers, b ∈ s₁.buffers) ∧ s₁.leads c.logBuffer = s.leads c.logBuffer := by
    rw [hs₁]
    rcases hother with e | e
    · rw [e]
      exact ⟨h.windows _, fun b hb => hb, rfl⟩
    · rw [e]
      exact ⟨(h.ebNew _ _).windows _, fun b hb => List.mem_cons_of_mem _ hb,
        leads_ebNew s _ _ fun b hb => (h.logs c hc b hb).1⟩
  obtain ⟨h₁, hmem, hleads⟩ := hlinked
  have hkill : s.killBufferNoconfirm c.ptr = s₁.ebFree c.ptr := by rw [hs₁]; rfl
  constructor
  · intro hlog
    rw [hkill, ebFree, logReset, h₁.entry (hmem c hc), Option.bind_some, hleads, hlog]
    rfl
  · intro hlog
    obtain ⟨s', hfree, hshows, haddr⟩ := ebFree_addresses h₁ (hmem c hc) (hleads.trans hlog)
    refine ⟨s', hkill.trans hfree, ?_, ?_⟩
    · intro b hb
      rw [haddr, h₁.mem_left]
      exact and_iff_right (List.mem_map_of_mem (hmem b hb))
    · intro e
      rw [hshows, hs₁]
      dsimp only
      by_cases he : s.shows e = c.ptr
      · rw [if_pos he]
        exact iff_of_false (fun h => hne (h.trans he)) (fun hn => hn he)
      · rw [if_neg he]
        exact iff_of_true rfl he

end BufferNames

namespace ListMode

/-! ## Killing -/

/-- The list of buffers, as it was built and with what has been done in it: the window shows a system buffer, and none of the listed
buffers is modified. -/
structure Listing (st : BufedState) : Prop where
  linked : st.names.Linked
  system : ∀ b ∈ st.names.buffers, b.ptr = st.names.shows st.window → b.flags.system = true
  unmodified : ∀ b ∈ listed st.names, b.modified = false
  shown : Shown st.s

/-- Where the line of an item begins in the text, behind a blank, the name and a newline for each item in front. -/
def itemStart (items : List StringItem) (i : Nat) : Nat := ((items.take i).map fun item => item.str.length + 2).sum

/-- The line of an item begins with a star. -/
def Marked (st : BufedState) (i : Nat) : Prop := st.s.buffer.bytes[itemStart st.items i]? = some '*'.toNat

/-- The cursor is on the line of an item. -/
def OnLine (st : BufedState) (i : Nat) : Prop :=
  itemStart st.items i ≤ st.s.offset ∧ (st.s.offset < itemStart st.items (i + 1) ∨ i + 1 = st.items.length)

instance (st : BufedState) (i : Nat) : Decidable (Marked st i) := inferInstanceAs (Decidable (_ = _))

instance (st : BufedState) (i : Nat) : Decidable (OnLine st i) := inferInstanceAs (Decidable (_ ∧ _))

/-- The items that are to be killed: the marked ones, or the one on the line of the cursor where there are none. -/
def Meant (st : BufedState) (i : Nat) : Prop := if ∃ j < st.items.length, Marked st j then Marked st i else OnLine st i

/-- The text has a line for each of the listed buffers. -/
def ListsBuffers (st : BufedState) : Prop :=
  st.s.buffer.bytes = [newline].intercalate ((listed st.names).map fun b => ' '.toNat :: b.name) ∧
    st.items = (listed st.names).map fun b => { str := b.name }

/-- Of the listed buffers exactly those are killed that are meant, and the new list has the ones that are there then. -/
def KillRight (st : BufedState) : Prop :=
  ∃ st', bufedKillBuffer st = some st' ∧
    (∀ i b, (listed st.names)[i]? = some b → (b.ptr ∈ st'.names.addresses ↔ ¬Meant st i)) ∧ ListsBuffers st'

/-- There are no buffers in the list, or just one is meant, and it is found under the name of the item whose number is how many newlines
stand in front of the cursor, and its log, if it has one, is there. -/
def KillsMeant (st : BufedState) : Prop :=
  listed st.names = [] ∨ ∃ i < st.items.length, (∀ j < st.items.length, Meant st j ↔ j = i) ∧
    ∃ item ∈ st.items[(st.s.buffer.bytes.take st.s.offset.toNat).count newline]?, ∃ b ∈ st.names.ebFind item.str,
      (listed st.names)[i]? = some b ∧ st.names.leads b.logBuffer = true

instance (st : BufedState) (i : Nat) : Decidable (Meant st i) := by
  unfold Meant
  infer_instance

instance (st : BufedState) : Decidable (KillsMeant st) := by
  unfold KillsMeant
  infer_instance

variable {st st' : BufedState}

/-- One of the items is on the line of the cursor. -/
theorem exists_onLine (st : BufedState) {o : Nat} (hoffset : st.s.offset = o) (hne : st.items ≠ []) :
    ∃ i < st.items.length, OnLine st i := by
  have hlast : ∃ i, o < itemStart st.items (i + 1) ∨ i + 1 = st.items.length :=
    ⟨st.items.length - 1, Or.inr (Nat.sub_add_cancel (List.length_pos_of_ne_nil hne))⟩
  obtain ⟨i, hi, hmin⟩ : ∃ i, (o < itemStart st.items (i + 1) ∨ i + 1 = st.items.length) ∧
      ∀ j < i, ¬(o < itemStart st.items (j + 1) ∨ j + 1 = st.items.length) :=
    ⟨Nat.find hlast, Nat.find_spec hlast, fun j hj => Nat.find_min hlast hj⟩
  have hlt : i < st.items.length := by
    by_contra hge
    refine hmin (st.items.length - 1) ?_ (Or.inr (Nat.sub_add_cancel (List.length_pos_of_ne_nil hne)))
    have hpos := List.length_pos_of_ne_nil hne
    omega
  have hstart : itemStart st.items i ≤ o := by
    cases i with
    | zero => exact Nat.zero_le o
    | succ j => exact Nat.le_of_not_lt fun h => hmin j (Nat.lt_succ_self j) (Or.inl h)
  refine ⟨i, hlt, ?_, ?_⟩
  · rw [hoffset]
    exact Int.ofNat_le.2 hstart
  · rw [hoffset]
    exact hi.imp_left Int.ofNat_lt.2

theorem exists_meant (st : BufedState) {o : Nat} (hoffset : st.s.offset = o) (hne : st.items ≠ []) :
    ∃ i < st.items.length, Meant st i := by
  unfold Meant
  by_cases h : ∃ j < st.items.length, Marked st j
  · simp only [if_pos h]
    exact h
  · simp only [if_neg h]
    exact exists_onLine st hoffset hne

/-- The list is built anew. -/
theorem buildBufedList_spec (hlinked : st.names.Linked) (hshown : Shown st.s) :
    ∃ st', buildBufedList st = some st' ∧ st'.names = st.names ∧ st'.window = st.window ∧ Shown st'.s ∧ ListsBuffers st' := by
  have hlines : ∀ line ∈ ((listed st.names).map fun b => ({ str := b.name } : StringItem)).map fun item => ' '.toNat :: item.str,
      line.length < 1024 := by
    intro line hline
    simp only [List.map_map, List.mem_map, Function.comp_apply] at hline
    obtain ⟨b, hb, rfl⟩ := hline
    have hname := hlinked.names b (List.mem_filter.1 hb).1
    rw [List.length_cons]
    omega
  obtain ⟨b, hbuild, hwf, htext⟩ := buildList_spec hshown.wf hlines
  refine ⟨{ st with s := { st.s with buffer := b }, items := (listed st.names).map fun b => { str := b.name } }, ?_, rfl, rfl,
    ⟨hwf, hshown.cursor⟩, htext.trans ?_, rfl⟩
  · rw [buildBufedList, hbuild]
    rfl
  · rw [List.map_map]
    rfl

/-- No item is selected, so the one with the number of the line is killed. -/
theorem bufedKillBuffer_eq (hitems : st.items = (listed st.names).map fun b => { str := b.name }) :
    bufedKillBuffer st = ((st.items[listGetPos st.s]?).elim (some st.names) fun item => st.names.doKillBuffer item.str false).bind
      fun names => if names.shows st.window = st.names.shows st.window then buildBufedList { st with names := names } else none := by
  have hnone : st.items.filter (·.selected) = [] := by
    rw [hitems]
    simp
  rw [bufedKillBuffer, stringSelectionIterate, hnone]
  rfl

theorem mem_listed {names : BufferNames} {b : NamedBuffer} : b ∈ listed names ↔ b ∈ names.buffers ∧ b.flags.system = false := by
  rw [listed, List.mem_filter, Bool.not_eq_true']

/-- Where no buffer is killed, none has to be meant. -/
theorem killRight_iff_of_unchanged (h : Listing st) (hlists : st.items = (listed st.names).map fun b => { str := b.name })
    (hkill : bufedKillBuffer st = buildBufedList st) : KillRight st ↔ listed st.names = [] := by
  obtain ⟨o, hoffset⟩ := h.shown.cursor
  obtain ⟨st', hbuild, hnames, -, -, hlists'⟩ := buildBufedList_spec h.linked h.shown
  have hstay : ∀ b ∈ listed st.names, b.ptr ∈ st.names.addresses := fun b hb => List.mem_map_of_mem (mem_listed.1 hb).1
  constructor
  · rintro ⟨st'', hst'', hright, -⟩
    obtain rfl : st' = st'' := Option.some.inj (hbuild.symm.trans (hkill.symm.trans hst''))
    by_contra hne
    have hitems : st.items ≠ [] := by
      rw [hlists]
      exact mt List.map_eq_nil_iff.1 hne
    obtain ⟨i, hi, hmeant⟩ := exists_meant st hoffset hitems
    rw [hlists, List.length_map] at hi
    have hget := List.getElem?_eq_getElem hi
    refine (hright i _ hget).1 ?_ hmeant
    rw [hnames]
    exact hstay _ (List.mem_of_getElem? hget)
  · intro hnil
    refine ⟨st', hkill.trans hbuild, ?_, hlists'⟩
    intro i b hb
    rw [hnil] at hb
    cases hb

/-- Where one is killed, it has to be the only one that is meant. -/
theorem killRight_iff_of_kill (h : Listing st) (hlists : st.items = (listed st.names).map fun b => { str := b.name })
    (hitems : st.items ≠ []) {names : BufferNames} {c : NamedBuffer} (hc : c ∈ st.names.buffers) (hlinked : names.Linked)
    (haddr : ∀ b ∈ st.names.buffers, b.ptr ∈ names.addresses ↔ b.ptr ≠ c.ptr ∧ c.logBuffer ≠ some b.ptr)
    (hshows : names.shows st.window = st.names.shows st.window ↔ st.names.shows st.window ≠ c.ptr)
    (hkill : bufedKillBuffer st =
      if names.shows st.window = st.names.shows st.window then buildBufedList { st with names := names } else none) :
    KillRight st ↔ ∃ i, (listed st.names)[i]? = some c ∧ ∀ j < st.items.length, Meant st j ↔ j = i := by
  obtain ⟨o, hoffset⟩ := h.shown.cursor
  have hnodup : (listed st.names).Nodup := (List.Nodup.of_map _ h.linked.nodup).filter _
  have hlen : st.items.length = (listed st.names).length := by rw [hlists, List.length_map]
  -- the log of a buffer is none of the list
  have hleft : ∀ b ∈ listed st.names, (b.ptr ∈ names.addresses ↔ b ≠ c) := by
    intro b hb
    obtain ⟨hmem, hsys⟩ := mem_listed.1 hb
    rw [haddr b hmem, and_iff_left]
    · refine not_congr ⟨fun hptr => ?_, fun e => by rw [e]⟩
      have hb' := h.linked.entry hmem
      rw [hptr, h.linked.entry hc] at hb'
      exact (Option.some.inj hb').symm
    · intro hlog
      rw [(h.linked.logs c hc _ hlog).2 b hmem rfl] at hsys
      cases hsys
  constructor
  · rintro ⟨st', hst', hright, -⟩
    rw [hkill] at hst'
    split at hst'
    next =>
      obtain ⟨st'', hbuild, hnames, -, -, -⟩ := @buildBufedList_spec { st with names := names } hlinked h.shown
      obtain rfl : st'' = st' := Option.some.inj (hbuild.symm.trans hst')
      have hmeant : ∀ i b, (listed st.names)[i]? = some b → (Meant st i ↔ b = c) := by
        intro i b hb
        have hiff := hright i b hb
        rw [hnames, hleft b (List.mem_of_getElem? hb)] at hiff
        exact (not_iff_not.1 hiff).symm
      obtain ⟨i, hi, hi'⟩ := exists_meant st hoffset hitems
      rw [hlen] at hi
      have hget := List.getElem?_eq_getElem hi
      have hci := (hmeant i _ hget).1 hi'
      rw [hci] at hget
      refine ⟨i, hget, ?_⟩
      intro j hj
      rw [hlen] at hj
      rw [hmeant j _ (List.getElem?_eq_getElem hj)]
      constructor
      · intro e
        rw [← e, ← List.getElem?_eq_getElem hj] at hget
        exact ((List.getElem?_inj hi hnodup).1 hget).symm
      · rintro rfl
        exact hci
    next => nomatch hst'
  · rintro ⟨i, hi, hmeant⟩
    have hsys := (mem_listed.1 (List.mem_of_getElem? hi)).2
    have hother : st.names.shows st.window ≠ c.ptr := by
      intro e
      rw [h.system c hc e.symm] at hsys
      cases hsys
    obtain ⟨st', hbuild, hnames, -, -, hlists'⟩ := @buildBufedList_spec { st with names := names } hlinked h.shown
    refine ⟨st', ?_, ?_, hlists'⟩
    · rw [hkill, if_pos (hshows.2 hother), hbuild]
    · intro j b hb
      have hj : j < (listed st.names).length := (List.getElem?_eq_some_iff.1 hb).1
      rw [hnames, hleft b (List.mem_of_getElem? hb), hmeant j (hlen ▸ hj)]
      refine not_congr ⟨fun e => ?_, fun e => ?_⟩
      · rw [e, ← hi] at hb
        exact (List.getElem?_inj hj hnodup).1 hb
      · rw [e, hi] at hb
        exact (Option.some.inj hb).symm

/-- A kill kills exactly the buffers that are meant where it kills the only one that is. -/
theorem killRight_iff_killsMeant (h : Listing st) (hlists : st.items = (listed st.names).map fun b => { str := b.name }) :
    KillRight st ↔ KillsMeant st := by
  obtain ⟨o, hoffset⟩ := h.shown.cursor
  have hpos : listGetPos st.s = (st.s.buffer.bytes.take st.s.offset.toNat).count newline := by
    rw [listGetPos_eq h.shown.ok hoffset, hoffset, Int.toNat_natCast]
  have hkill := bufedKillBuffer_eq hlists
  rw [KillsMeant, ← hpos]
  cases hitem : st.items[listGetPos st.s]? with
  | none =>
    rw [hitem, Option.elim_none, Option.bind_some, if_pos rfl] at hkill
    rw [killRight_iff_of_unchanged h hlists hkill]
    exact (or_iff_left (by simp)).symm
  | some item =>
    have hitems : st.items ≠ [] := List.ne_nil_of_mem (List.mem_of_getElem? hitem)
    have hne : listed st.names ≠ [] := by
      rw [hlists] at hitems
      exact fun e => hitems (by rw [e]; rfl)
    have hfound : (st.names.ebFind item.str).isSome := by
      have hmem := List.mem_of_getElem? hitem
      rw [hlists] at hmem
      obtain ⟨b, hb, rfl⟩ := List.mem_map.1 hmem
      exact BufferNames.ebFind_isSome.2 (List.mem_map_of_mem (mem_listed.1 hb).1)
    obtain ⟨c, hfind⟩ := Option.isSome_iff_exists.1 hfound
    have hc : c ∈ st.names.buffers := List.mem_of_find?_eq_some hfind
    have hcond : (listed st.names = [] ∨ ∃ i < st.items.length, (∀ j < st.items.length, Meant st j ↔ j = i) ∧
        ∃ item' ∈ some item, ∃ b ∈ st.names.ebFind item'.str, (listed st.names)[i]? = some b ∧ st.names.leads b.logBuffer = true) ↔
        (∃ i, (listed st.names)[i]? = some c ∧ ∀ j < st.items.length, Meant st j ↔ j = i) ∧ st.names.leads c.logBuffer = true := by
      rw [or_iff_right hne]
      constructor
      · rintro ⟨i, -, hmeant, item', e, b, hb, hi, hlog⟩
        obtain rfl := Option.some.inj e
        obtain rfl : c = b := Option.some.inj (hfind.symm.trans hb)
        exact ⟨⟨i, hi, hmeant⟩, hlog⟩
      · rintro ⟨⟨i, hi, hmeant⟩, hlog⟩
        have hlt : i < st.items.length := by
          rw [hlists, List.length_map]
          exact (List.getElem?_eq_some_iff.1 hi).1
        exact ⟨i, hlt, hmeant, item, rfl, c, hfind, hi, hlog⟩
    rw [hcond]
    rw [hitem, Option.elim_some, BufferNames.doKillBuffer, hfind] at hkill
    dsimp only at hkill
    split at hkill
    next hask =>
      -- a modified buffer is none of the list
      rw [Option.bind_some, if_pos rfl] at hkill
      rw [killRight_iff_of_unchanged h hlists hkill]
      refine iff_of_false hne ?_
      rintro ⟨⟨i, hi, -⟩, -⟩
      have hmodified := h.unmodified c (List.mem_of_getElem? hi)
      simp [hmodified] at hask
    next =>
      obtain ⟨hnone, hsome⟩ := BufferNames.killBufferNoconfirm_cases h.linked hc
      cases hlog : st.names.leads c.logBuffer with
      | false =>
        rw [hnone hlog, Option.bind_none] at hkill
        refine iff_of_false ?_ (by simp)
        rintro ⟨st', hst', -⟩
        rw [hkill] at hst'
        cases hst'
      | true =>
        obtain ⟨names, hnames, haddr, hshows⟩ := hsome hlog
        rw [hnames, Option.bind_some] at hkill
        rw [and_iff_left rfl]
        exact killRight_iff_of_kill h hlists hitems hc (h.linked.killBufferNoconfirm hnames) haddr (hshows _) hkill

/-- From a list that is built, by any selections and moves: exactly the marked buffers are killed, or the one on the line of the cursor,
where that is just one and the one that the cursor finds. -/
theorem killRight_iff {st₀ : BufedState} (h : Listing st₀) :
    ∃ st, buildBufedList st₀ = some st ∧ ∀ evs : List ListEvent, ∃ s, listEvents st.s evs = some s ∧
      (KillRight { st with s := s } ↔ KillsMeant { st with s := s }) := by
  obtain ⟨st, hbuild, hnames, hwindow, hshown, hlists⟩ := buildBufedList_spec h.linked h.shown
  refine ⟨st, hbuild, ?_⟩
  intro evs
  obtain ⟨s, hrun, hshown'⟩ := listEvents_shown hshown evs
  refine ⟨s, hrun, killRight_iff_killsMeant ⟨?_, ?_, ?_, hshown'⟩ hlists.2⟩
  · exact hnames ▸ h.linked
  · rw [hnames, hwindow]
    exact h.system
  · rw [hnames]
    exact h.unmodified

/-- Two buffers and a window that their list is to be made in. -/
def twoBuffers : BufedState :=
  { names := ⟨[⟨2, cstr "*bufed*", [], { system := true }, false, false, none, none⟩, ⟨1, cstr "a", [], {}, true, false, none, none⟩,
      ⟨0, cstr "b", [], {}, true, false, none, none⟩], 3, fun _ => 2⟩
    window := 0, s := Editor.new (EditBuffer.new false) .latin1 0, items := [] }

theorem twoBuffers_listing : Listing twoBuffers :=
  ⟨⟨by decide, by decide, by simp [twoBuffers], by decide⟩, by decide, by decide, ⟨_, new_stands false⟩, 0, rfl⟩

/-- Nothing is marked, and the cursor is on the second line. -/
theorem killRight_iff_second : ∃ st s, buildBufedList twoBuffers = some st ∧ listEvents st.s [.move 4] = some s ∧
    KillRight { st with s := s } := by
  obtain ⟨st, hbuild, hright⟩ := killRight_iff twoBuffers_listing
  obtain ⟨s, hrun, hiff⟩ := hright [.move 4]
  have hmeant : ((buildBufedList twoBuffers).bind fun st => (listEvents st.s [.move 4]).map fun s =>
      decide (KillsMeant { st with s := s })) = some true := by decide +kernel
  rw [hbuild, Option.bind_some, hrun, Option.map_some, Option.some_inj, decide_eq_true_iff] at hmeant
  exact ⟨st, s, hbuild, hrun, hiff.2 hmeant⟩

/-- The first line is marked, and the cursor on the second one: that buffer is killed. -/
theorem not_killRight : ¬∀ (st₀ st : BufedState) (evs : List ListEvent) (s : Editor), Listing st₀ → buildBufedList st₀ = some st →
    listEvents st.s evs = some s → KillRight { st with s := s } := by
  intro h
  obtain ⟨st, hbuild, -⟩ := buildBufedList_spec twoBuffers_listing.linked twoBuffers_listing.shown
  have hkilled : ((buildBufedList twoBuffers).bind fun st => (listEvents st.s [.toggle 0 3]).bind fun s =>
      (bufedKillBuffer { st with s := s }).map fun st' => ((listed st.names).map (·.ptr), st'.names.addresses,
        decide (Meant { st with s := s } 0))) = some ([1, 0], [2, 1], true) := by decide +kernel
  rw [hbuild, Option.bind_some] at hkilled
  obtain ⟨s, hrun, hkilled⟩ := Option.bind_eq_some_iff.1 hkilled
  obtain ⟨st', hkill, hmeant, -⟩ := h _ _ _ _ twoBuffers_listing hbuild hrun
  rw [hkill, Option.map_some, Option.some_inj, Prod.mk.injEq, Prod.mk.injEq, decide_eq_true_iff] at hkilled
  obtain ⟨hlisted, hleft, hmarked⟩ := hkilled
  obtain ⟨b, hb, hptr⟩ : ∃ b, (listed st.names)[0]? = some b ∧ b.ptr = 1 := by
    have hfirst : ((listed st.names).map (·.ptr))[0]? = some 1 := by rw [hlisted]; rfl
    rw [List.getElem?_map] at hfirst
    exact Option.map_eq_some_iff.1 hfirst
  refine (hmeant 0 b hb).1 ?_ hmarked
  rw [hptr, hleft]
  decide

end ListMode

end Hoe
