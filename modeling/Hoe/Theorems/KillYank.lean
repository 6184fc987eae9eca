import Hoe.Lemmas.KillInMemory

/-!
# A kill and a yank are inverse

What `do_kill_region` takes away `do_yank` brings back, and what it has copied is yanked anywhere later, whatever was done to its
source: the yank buffer shares pages, and keeps its text. Neither holds for a window on a buffer of the ring itself. A new yank
buffer may take the place of the one that is shown, and a buffer cannot be inserted into itself. Nor is a line killed whose end
lies behind the end of the text, where `eb_nextc` has gone on with a character that is cut off.
-/

namespace Hoe.InMemory

open Memory Splice

namespace Session

variable {s s₁ : Session} {kill address m p : Nat}

/-- The bytes between the mark and the point. -/
def region (s : Session) : List Byte :=
  slice (s.world.text s.buffer) (min s.mark s.offset).toNat (max s.mark s.offset - min s.mark s.offset).toNat

/-- A kill and a yank right behind it leave the text as it was, with the point behind what was killed. -/
def KillsAndYanks (s : Session) (kill address : Nat) : Prop :=
  ∃ s₁ s₂, s.doKillRegion kill address = .ok s₁ ∧ s₁.doYank = .ok s₂ ∧ s₂.world.text s.buffer = s.world.text s.buffer ∧
    s₂.offset = (s.killedRegion kill).2

/-- A copy leaves the text and the point as they were. -/
def Copies (s : Session) (address : Nat) : Prop :=
  ∃ s₁, s.doKillRegion 0 address = .ok s₁ ∧ s₁.world.text s.buffer = s.world.text s.buffer ∧ s₁.offset = s.offset

/-- A yank inserts the text at the point and goes behind it; other texts stay. -/
def Yanks (s : Session) (text : List Byte) : Prop :=
  ∃ s', s.doYank = .ok s' ∧ s'.world.text s.buffer = insertAt (s.world.text s.buffer) s.offset.toNat text ∧
    s'.offset = s.offset + text.length ∧ ∀ i, i ≠ s.buffer → s'.world.text i = s.world.text i

/-! ## One command -/

/-- The command, once its region is known. -/
theorem doKillRegion_eq (hwritable : s.readOnly = false) {p1 p2 : Int} (hregion : s.killedRegion kill = (p1, p2)) :
    s.doKillRegion kill address = (s.newYankBuffer address).bind fun s => (s.ebInsertBufferFrom address p1 (p2 - p1)).bind fun s =>
      if kill = 0 then .ok s else (s.ebDelete p1 (p2 - p1)).bind fun s => .ok { s with offset := p1 } := by
  have hgo : ¬s.readOnly = true := by
    rw [hwritable]
    exact Bool.false_ne_true
  rw [doKillRegion, if_neg hgo, hregion]
  rfl

/-- What a kill or a copy of a region in the text does. -/
theorem doKillRegion_spec (hw : s.world.Ok) (hgrant : s.world.heap.Willing) (hwritable : s.readOnly = false)
    (hslot : s.reused ≠ some s.buffer) (haddress : s.Unused address) {o n : Nat}
    (hregion : s.killedRegion kill = ((o : Int), ((o + n : Nat) : Int))) (hle : o + n ≤ (s.world.text s.buffer).length) :
    ∃ s₁, s.doKillRegion kill address = .ok s₁ ∧ s₁.world.Ok ∧ s₁.world.heap.Willing ∧
      s₁.world.text address = slice (s.world.text s.buffer) o n ∧
      s₁.world.text s.buffer = (if kill = 0 then s.world.text s.buffer else removeAt (s.world.text s.buffer) o n) ∧
      s₁ = { s with world := s₁.world, ring := s.ring.push address, mark := s₁.mark, offset := if kill = 0 then s.offset else o } := by
  obtain ⟨w₁, hnew, hw₁, hgrant₁, hnil, hsame⟩ := newYankBuffer_spec hw hgrant hslot haddress
  have hlen : ((o + n : Nat) : Int) - (o : Int) = n := by omega
  obtain ⟨w₂, hcopy, hw₂, hgrant₂, htext, hsame₂⟩ :=
    @ebInsertBufferFrom_spec address { s with world := w₁, ring := s.ring.push address } hw₁ hgrant₁ haddress.1 hnil o n
      (by show o + n ≤ (w₁.text s.buffer).length; rw [hsame]; exact hle)
  change w₂.text address = slice (w₁.text s.buffer) o n at htext
  change w₂.text s.buffer = w₁.text s.buffer at hsame₂
  rw [hsame] at htext hsame₂
  rw [doKillRegion_eq hwritable hregion, hlen, hnew, Except.bind, hcopy, Except.bind]
  by_cases hk : kill = 0
  · rw [if_pos hk, if_pos hk, if_pos hk]
    exact ⟨_, rfl, hw₂, hgrant₂, htext, hsame₂, rfl⟩
  · rw [if_neg hk, if_neg hk, if_neg hk]
    obtain ⟨s₃, hdelete, hw₃, hgrant₃, hothers, hremoved, hrest⟩ :=
      @ebDelete_spec { s with world := w₂, ring := s.ring.push address } hw₂ hgrant₂ o n
        (by show o + n ≤ (w₂.text s.buffer).length; rw [hsame₂]; exact hle)
    refine ⟨{ s₃ with offset := (o : Int) }, by rw [hdelete, Except.bind], hw₃, hgrant₃, (hothers address haddress.1).trans htext,
      hremoved.trans (congrArg (removeAt · o n) hsame₂), ?_⟩
    rw [hrest]

/-- Where the end of the line lies behind the text, nothing can be copied. -/
theorem doKillRegion_beyond (hw : s.world.Ok) (hgrant : s.world.heap.Willing) (hwritable : s.readOnly = false)
    (haddress : s.Unused address) (hp : s.offset = p) (hple : p ≤ (s.world.text s.buffer).length)
    (heol : s.reader.total < s.reader.moveEol s.offset) : ∀ s₁, s.doKillRegion 2 address ≠ .ok s₁ := by
  have htotal : s.reader.total = ((s.world.text s.buffer).length : Nat) := rfl
  have hregion := killedRegion_beyond (by omega) heol
  intro s₁ hrun
  rw [doKillRegion_eq hwritable hregion] at hrun
  by_cases hslot : s.reused = some s.buffer
  · rw [newYankBuffer, if_pos hslot] at hrun
    cases hrun
  · obtain ⟨w₁, hnew, hw₁, hgrant₁, hnil, hsame⟩ := newYankBuffer_spec hw hgrant hslot haddress
    have hfault : ({ s with world := w₁, ring := s.ring.push address } : Session).ebInsertBufferFrom address s.offset
        (s.reader.moveEol s.offset - s.offset) = .error .wild := by
      rw [ebInsertBufferFrom]
      split_ifs
      · rw [call, if_neg]
        · rfl
        · rintro ⟨-, -, hfit⟩
          rw [hw₁.total] at hfit
          change _ ≤ (w₁.text s.buffer).length at hfit
          rw [hsame] at hfit
          omega
      · rfl
    rw [hnew, Except.bind, hfault] at hrun
    cases hrun

/-- A yank, once the slot is known. -/
theorem doYank_eq (hw : s.world.Ok) (hwritable : s.readOnly = false) (hslot : s.ring.top = some address) :
    s.doYank = if 0 < (s.world.text address).length then
        (s.ebInsertBufferInto s.offset address (s.world.text address).length).bind fun s₁ =>
          .ok { s₁ with offset := s₁.offset + (s.world.text address).length }
      else .ok s := by
  have hgo : ¬s.readOnly = true := by
    rw [hwritable]
    exact Bool.false_ne_true
  rw [doYank, if_neg hgo, hslot, ← hw.total address]
  rfl

/-- A yank inserts the text of the slot, but for a window on the buffer of the slot. -/
theorem doYank_iff (hw : s.world.Ok) (hgrant : s.world.heap.Willing) (hwritable : s.readOnly = false)
    (hslot : s.ring.top = some address) (hp : s.offset = p) (hple : p ≤ (s.world.text s.buffer).length) :
    s.Yanks (s.world.text address) ↔ s.buffer ≠ address ∨ s.world.text address = [] := by
  constructor
  · rintro ⟨s', hrun, -⟩
    by_contra hsame
    rw [not_or, not_not] at hsame
    obtain ⟨hsame, hne⟩ := hsame
    have hfault : s.ebInsertBufferInto s.offset address (s.world.text address).length = .error .wild := by
      rw [ebInsertBufferInto, hp, if_pos (Int.natCast_nonneg _), call, if_neg fun hallowed => hallowed.1 hsame]
      rfl
    rw [doYank_eq hw hwritable hslot, if_pos (List.length_pos_iff.mpr hne), hfault] at hrun
    cases hrun
  · intro hor
    rw [Yanks, doYank_eq hw hwritable hslot]
    by_cases hnil : s.world.text address = []
    · rw [hnil]
      exact ⟨s, rfl, by simp [insertAt], by simp, fun _ _ => rfl⟩
    · have hne : s.buffer ≠ address := hor.resolve_right hnil
      obtain ⟨w', hinsert, -, -, halone, htext⟩ := ebInsertBufferInto_spec hw hgrant hne hple
      rw [if_pos (List.length_pos_iff.mpr hnil), hp, hinsert, Except.bind]
      refine ⟨_, rfl, ?_, ?_, halone.texts⟩
      · rw [Int.toNat_natCast]
        exact htext
      · have hstay : ebOffsetCallback s.offset ⟨.insert, p, (s.world.text address).length⟩ = p := by
          rw [hp]
          exact if_neg (lt_irrefl (p : Int))
        exact congrArg (· + ((s.world.text address).length : Int)) hstay

/-! ## Afterwards -/

/-- Calls on other buffers leave a text as it is. -/
theorem runAll_spec {w : World} (hw : w.Ok) (hgrant : w.heap.Willing) {cs : List Call} (hcs : AllAllowed w cs)
    (hdest : ∀ c ∈ cs, c.dest ≠ address) :
    ∃ w', runAll w cs = .ok w' ∧ w'.Ok ∧ w'.heap.Willing ∧ w'.text address = w.text address := by
  induction cs generalizing w with
  | nil => exact ⟨w, rfl, hw, hgrant, rfl⟩
  | cons c cs ih =>
    obtain ⟨hc, hrest⟩ := hcs
    obtain ⟨hne, hdest⟩ := List.forall_mem_cons.mp hdest
    obtain ⟨w₁, hrun, hw₁, hgrant₁, halone⟩ := Call.run_isolated hw hgrant hc
    simp only [hrun] at hrest
    obtain ⟨w', hall, hw', hgrant', htext⟩ := ih hw₁ hgrant₁ hrest hdest
    refine ⟨w', ?_, hw', hgrant', htext.trans (halone.texts address hne.symm)⟩
    rw [runAll, hrun]
    exact hall

/-! ## Both commands -/

theorem killsAndYanks_iff (hw : s.world.Ok) (hgrant : s.world.heap.Willing) (hwritable : s.readOnly = false)
    (haddress : s.Unused address) (hm : s.mark = m) (hp : s.offset = p) (hmle : m ≤ (s.world.text s.buffer).length)
    (hple : p ≤ (s.world.text s.buffer).length) (hkill : kill ≠ 0) :
    s.KillsAndYanks kill address ↔ s.reused ≠ some s.buffer ∧ (kill = 2 → s.reader.moveEol s.offset ≤ s.reader.total) := by
  constructor
  · rintro ⟨s₁, s₂, hrun, -⟩
    constructor
    · intro hslot
      rw [doKillRegion_eq hwritable rfl, newYankBuffer, if_pos hslot] at hrun
      cases hrun
    · rintro rfl
      by_contra hbeyond
      exact doKillRegion_beyond hw hgrant hwritable haddress hp hple (Int.not_le.mp hbeyond) s₁ hrun
  · rintro ⟨hslot, heol⟩
    obtain ⟨o, n, hregion, hle⟩ := killedRegion_bounds hm hp hmle hple heol
    obtain ⟨s₁, hrun, hw₁, hgrant₁, hcopy, htext, hrest⟩ := doKillRegion_spec hw hgrant hwritable hslot haddress hregion hle
    rw [if_neg hkill] at htext hrest
    have hbuffer : s₁.buffer = s.buffer := by rw [hrest]
    have hoffset : s₁.offset = o := by rw [hrest]
    have htop : s₁.ring.top = some address := by
      rw [hrest]
      exact s.ring.top_push address
    have hwritable₁ : s₁.readOnly = false := by
      rw [hrest]
      exact hwritable
    have hople : o ≤ (s₁.world.text s₁.buffer).length := by
      rw [hbuffer, htext, length_removeAt _ hle]
      omega
    obtain ⟨s₂, hyank, hbytes, hpoint, -⟩ :=
      (doYank_iff hw₁ hgrant₁ hwritable₁ htop hoffset hople).mpr (Or.inl (by rw [hbuffer]; exact haddress.1.symm))
    refine ⟨s₁, s₂, hrun, hyank, ?_, ?_⟩
    · rw [hbuffer, htext, hcopy, hoffset, Int.toNat_natCast, insertAt_removeAt _ hle] at hbytes
      exact hbytes
    · rw [hpoint, hoffset, hcopy, length_slice _ hle, hregion, Nat.cast_add]

/-- What a copy of the region leaves behind, where the ring does not need the buffer of the window. -/
theorem copy_spec (hw : s.world.Ok) (hgrant : s.world.heap.Willing) (hwritable : s.readOnly = false) (hslot : s.reused ≠ some s.buffer)
    (haddress : s.Unused address) (hm : s.mark = m) (hp : s.offset = p) (hmle : m ≤ (s.world.text s.buffer).length)
    (hple : p ≤ (s.world.text s.buffer).length) :
    ∃ s₁, s.doKillRegion 0 address = .ok s₁ ∧ s₁.world.Ok ∧ s₁.world.heap.Willing ∧
      s₁.world.text s.buffer = s.world.text s.buffer ∧ s₁.offset = s.offset ∧ s₁.ring = s.ring.push address ∧
      s₁.world.text address = s.region := by
  have hregion : s.killedRegion 0 = (((min m p : Nat) : Int), ((min m p + (max m p - min m p) : Nat) : Int)) := by
    have hends : s.killedRegion 0 = if s.offset < s.mark then (s.offset, s.mark) else (s.mark, s.offset) := rfl
    rw [hends, hm, hp]
    split_ifs with hlt
    · exact Prod.ext (by show (p : Int) = _; omega) (by show (m : Int) = _; omega)
    · exact Prod.ext (by show (m : Int) = _; omega) (by show (p : Int) = _; omega)
  have htext : s.region = slice (s.world.text s.buffer) (min m p) (max m p - min m p) := by
    rw [region, hm, hp]
    exact congrArg₂ (slice _) (by omega) (by omega)
  obtain ⟨s₁, hrun, hw₁, hgrant₁, hcopy, hsame, hrest⟩ :=
    doKillRegion_spec hw hgrant hwritable hslot haddress hregion (by omega)
  rw [if_pos rfl] at hsame hrest
  exact ⟨s₁, hrun, hw₁, hgrant₁, hsame, by rw [hrest], by rw [hrest], by rw [hcopy, htext]⟩

/-- A kill and a yank right behind it, and a copy and a yank of it later: they do what they are for exactly where the buffer of the
window is not that of the slot, and where the end of a killed line is found in the text. -/
theorem kill_yank_iff (hw : s.world.Ok) (hgrant : s.world.heap.Willing) (hwritable : s.readOnly = false)
    (haddress : s.Unused address) (hm : s.mark = m) (hp : s.offset = p) (hmle : m ≤ (s.world.text s.buffer).length)
    (hple : p ≤ (s.world.text s.buffer).length) :
    (∀ kill, kill ≠ 0 → (s.KillsAndYanks kill address ↔
      s.reused ≠ some s.buffer ∧ (kill = 2 → s.reader.moveEol s.offset ≤ s.reader.total))) ∧
    (s.Copies address ↔ s.reused ≠ some s.buffer) ∧
    ∀ s₁, s.doKillRegion 0 address = .ok s₁ → ∀ cs, AllAllowed s₁.world cs → (∀ c ∈ cs, c.dest ≠ address) →
      ∃ w', runAll s₁.world cs = .ok w' ∧ ∀ (t : Session) (q : Nat), t.world = w' → t.ring = s₁.ring → t.readOnly = false →
        t.offset = q → q ≤ (w'.text t.buffer).length → (t.Yanks s.region ↔ t.buffer ≠ address ∨ s.region = []) := by
  refine ⟨fun kill hkill => killsAndYanks_iff hw hgrant hwritable haddress hm hp hmle hple hkill, ⟨?_, fun hslot => ?_⟩, ?_⟩
  · rintro ⟨s₁, hrun, -⟩ hslot
    rw [doKillRegion_eq hwritable rfl, newYankBuffer, if_pos hslot] at hrun
    cases hrun
  · obtain ⟨s₁, hrun, -, -, htext, hoffset, -⟩ := copy_spec hw hgrant hwritable hslot haddress hm hp hmle hple
    exact ⟨s₁, hrun, htext, hoffset⟩
  · intro s₁ hrun cs hcs hdest
    have hslot : s.reused ≠ some s.buffer := by
      intro hslot
      rw [doKillRegion_eq hwritable rfl, newYankBuffer, if_pos hslot] at hrun
      cases hrun
    obtain ⟨s₂, hrun', hw₁, hgrant₁, -, -, hring, hcopy⟩ := copy_spec hw hgrant hwritable hslot haddress hm hp hmle hple
    obtain rfl := Except.ok.inj (hrun.symm.trans hrun')
    obtain ⟨w', hall, hw', hgrant', htext⟩ := runAll_spec hw₁ hgrant₁ hcs hdest
    refine ⟨w', hall, fun t q hworld hring' hwritable' hq hqle => ?_⟩
    subst hworld
    rw [← hcopy, ← htext]
    exact doYank_iff hw' hgrant' hwritable' (by rw [hring', hring]; exact s.ring.top_push address) hq hqle

/-! ## A text that was typed -/

/-- A buffer into which a text was typed, and no other. -/
def typed (text : List Byte) : World := ((Call.insert 0 0 text).run (World.new [] false)).toOption.getD (World.new [] false)

theorem typed_ok (text : List Byte) : (typed text).Ok ∧ (typed text).heap.Willing := by
  have hgrant : (World.new [] false).heap.Willing := by
    unfold Heap.Willing
    decide
  have hallowed : (Call.insert 0 0 text).Allowed (World.new [] false) := Nat.zero_le _
  obtain ⟨w', hrun, hw', hgrant', -⟩ := Call.run_isolated (World.ok_new [] false) hgrant hallowed
  rw [typed, hrun]
  exact ⟨hw', hgrant'⟩

/-- A window on it, before any kill. -/
def onTyped (text : List Byte) (mark offset : Nat) : Session :=
  { world := typed text, ring := ⟨List.replicate nbYankBuffers none, 0, by decide, by decide⟩, buffer := 0, charset := .utf8
    stack := [], readOnly := false, mark := mark, offset := offset }

theorem onTyped_ok (text : List Byte) (m p : Nat) : (onTyped text m p).world.Ok ∧ (onTyped text m p).world.heap.Willing :=
  typed_ok text

theorem unused_onTyped : (onTyped [0x61, 0x62] 0 2).Unused 1 := ⟨by decide, Or.inl (by decide)⟩

/-- Two letters are killed, or copied. -/
theorem kill_yank_typed :
    (∀ kill, kill ≠ 0 → ((onTyped [0x61, 0x62] 0 2).KillsAndYanks kill 1 ↔
      (onTyped [0x61, 0x62] 0 2).reused ≠ some 0 ∧
        (kill = 2 → (onTyped [0x61, 0x62] 0 2).reader.moveEol 2 ≤ (onTyped [0x61, 0x62] 0 2).reader.total))) ∧
    ((onTyped [0x61, 0x62] 0 2).Copies 1 ↔ (onTyped [0x61, 0x62] 0 2).reused ≠ some 0) ∧
    ∀ s₁, (onTyped [0x61, 0x62] 0 2).doKillRegion 0 1 = .ok s₁ → ∀ cs, AllAllowed s₁.world cs → (∀ c ∈ cs, c.dest ≠ 1) →
      ∃ w', runAll s₁.world cs = .ok w' ∧ ∀ (t : Session) (q : Nat), t.world = w' → t.ring = s₁.ring → t.readOnly = false →
        t.offset = q → q ≤ (w'.text t.buffer).length →
          (t.Yanks (onTyped [0x61, 0x62] 0 2).region ↔ t.buffer ≠ 1 ∨ (onTyped [0x61, 0x62] 0 2).region = []) :=
  kill_yank_iff (s := onTyped [0x61, 0x62] 0 2) (m := 0) (p := 2) (onTyped_ok _ 0 2).1 (onTyped_ok _ 0 2).2 rfl unused_onTyped rfl rfl
    (by decide +kernel) (by decide +kernel)

/-- The copy is not yanked into the yank buffer that holds it. -/
theorem not_yanks : ¬∀ (s : Session) (address m p : Nat), s.world.Ok → s.world.heap.Willing → s.readOnly = false →
    s.Unused address → s.mark = m → s.offset = p → m ≤ (s.world.text s.buffer).length → p ≤ (s.world.text s.buffer).length →
    ∃ s₁, s.doKillRegion 0 address = .ok s₁ ∧ ∀ (t : Session) (q : Nat), t.world = s₁.world → t.ring = s₁.ring →
      t.readOnly = false → t.offset = q → q ≤ (t.world.text t.buffer).length → t.Yanks s.region := by
  intro h
  have hfit : 2 ≤ ((onTyped [0x61, 0x62] 0 2).world.text 0).length := by decide +kernel
  obtain ⟨s₁, hrun, hyanks⟩ := h (onTyped [0x61, 0x62] 0 2) 1 0 2 (onTyped_ok _ 0 2).1 (onTyped_ok _ 0 2).2 rfl unused_onTyped rfl rfl
    (Nat.zero_le _) hfit
  obtain ⟨s₂, hrun', hw₁, hgrant₁, -, -, hring, hcopy⟩ := @copy_spec (onTyped [0x61, 0x62] 0 2) 1 0 2
    (onTyped_ok _ 0 2).1 (onTyped_ok _ 0 2).2 rfl (by decide) unused_onTyped rfl rfl (Nat.zero_le _) hfit
  obtain rfl := Except.ok.inj (hrun.symm.trans hrun')
  -- the window goes to the yank buffer
  have hyank := hyanks { s₁ with buffer := 1, readOnly := false, offset := 0 } 0 rfl rfl rfl rfl (Nat.zero_le _)
  rw [← hcopy] at hyank
  have htop : s₁.ring.top = some 1 := by rw [hring, Ring.top_push]
  rcases (@doYank_iff { s₁ with buffer := 1, readOnly := false, offset := 0 } 1 0 hw₁ hgrant₁ rfl htop rfl
    (Nat.zero_le _)).mp hyank with hne | hnil
  · exact hne rfl
  · change s₁.world.text 1 = [] at hnil
    rw [hcopy] at hnil
    exact absurd hnil (by decide +kernel)

end Session

end Hoe.InMemory
