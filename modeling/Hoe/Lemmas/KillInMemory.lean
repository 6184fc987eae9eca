import Hoe.KillInMemory
import Hoe.Lemmas.AsciiText
import Hoe.Lemmas.ChangeCase
import Hoe.Lemmas.History

/-!
# What a kill and a yank do in memory

Each call of the buffer layer leaves the other buffers alone, so a text that was copied into a yank buffer stays there whatever
happens to its source. What a call makes of the buffer it changes is what the layer above says.
-/

namespace Hoe.InMemory

open Memory Splice

/-! ## What a call makes of its buffer -/

variable {w w' : World} {i b o n : Nat}

namespace World.Ok

/-- A buffer that stands for a document has its text. -/
theorem text_eq {B : Hoe.EditBuffer} {d : Doc} (hs : (w.buffers i).Shows w.heap B) (hB : Stands B d) : w.text i = d.text := by
  rw [World.text, hs.text]
  exact hB.text

theorem total (hw : w.Ok) (i : Nat) : (w.buffers i).totalSize = (w.text i).length := by
  obtain ⟨B, d, hs, hB⟩ := hw.shows i
  rw [text_eq hs hB, hs.total, hB.total]

end World.Ok

/-- What a program on one buffer returns, and the text it leaves. -/
theorem edit_text (hw : w.Ok) (hgrant : w.heap.Willing) {f : EditBuffer → Mem Byte EditBuffer} {B : Hoe.EditBuffer} {d : Doc}
    (hB : Stands B d) (hf : Returns (f (w.buffers b)) w.heap fun e h => Edit (w.buffers b).pages e.pages w.heap h ∧ e.Shows h B) :
    ∃ w', Call.edit w b f = .ok w' ∧ w'.Ok ∧ w'.heap.Willing ∧ LeavesAlone b w w' ∧ w'.text b = d.text := by
  obtain ⟨w', hrun, hw', hgrant', halone⟩ := Call.edit_spec hw hgrant hB hf
  obtain ⟨e, h, hreturn, -, hs⟩ := hf
  refine ⟨w', hrun, hw', hgrant', halone, ?_⟩
  have hsame : w' = ⟨h, Function.update w.buffers b e⟩ := by
    rw [Call.edit, hreturn] at hrun
    exact (Except.ok.inj hrun).symm
  subst hsame
  refine World.Ok.text_eq (B := B) ?_ hB
  show (Function.update w.buffers b e b).Shows h B
  rwa [Function.update_self]

/-- `eb_delete` removes. -/
theorem run_delete (hw : w.Ok) (hgrant : w.heap.Willing) (hc : (Call.delete b o n).Allowed w) :
    ∃ w', (Call.delete b o n).run w = .ok w' ∧ w'.Ok ∧ w'.heap.Willing ∧ LeavesAlone b w w' ∧
      w'.text b = removeAt (w.text b) o n := by
  obtain ⟨B, d, hs, hB⟩ := hw.shows b
  have hfit : o < d.text.length → o + n ≤ d.text.length := by rw [← hB.total, ← hs.total]; exact hc
  obtain ⟨w', hrun, hw', hgrant', halone, htext⟩ := @edit_text _ b hw hgrant (fun e => ebDelete e o n) _ _
    (ebDelete_stands hB o n hfit) (ebDelete_spec hs (hw.table b) hB hgrant hc)
  exact ⟨w', hrun, hw', hgrant', halone, by rw [htext, Doc.delete_text, World.Ok.text_eq hs hB]⟩

/-- `eb_free` leaves nothing of the buffer, and all others alone. -/
theorem edit_ebFree (hw : w.Ok) (hgrant : w.heap.Willing) (b : Nat) :
    ∃ w', Call.edit w b ebFree = .ok w' ∧ w'.Ok ∧ w'.heap.Willing ∧ LeavesAlone b w w' ∧
      w'.buffers = Function.update w.buffers b (EditBuffer.new false) := by
  obtain ⟨B, d, hs, hB⟩ := hw.shows b
  have hs₀ : ({ w.buffers b with saveLog := false } : EditBuffer).Shows w.heap { B with saveLog := false } :=
    ⟨⟨hs.modified, rfl, hs.newIndex, hs.current, hs.nb⟩, hs.text, hs.log⟩
  have hreturn : Returns (ebFree (w.buffers b)) w.heap fun e h =>
      Edit (w.buffers b).pages e.pages w.heap h ∧ e.Shows h (Hoe.EditBuffer.new false) ∧ e = EditBuffer.new false := by
    unfold ebFree
    refine (ebDelete_spec hs₀ (hw.table b) (hB.withSaveLog false) hgrant fun _ => by simp).bind ?_
    rintro e h ⟨he, hs₁⟩
    have hB₁ := ebDelete_stands (hB.withSaveLog false) 0 (w.buffers b).totalSize fun _ => by
      show 0 + (w.buffers b).totalSize ≤ d.text.length
      rw [hs.total, hB.total, Nat.zero_add]
    refine (deleteText_spec (Table.right he.table) ?_ (he.frame.willing hgrant) 0 _ fun _ => by simp).bind ?_
    · rw [← hs₁.getD_log]
      exact hB₁.log.ok
    · rintro t h' ⟨he', -⟩
      refine Returns.pure ⟨⟨?_, Table.nil _⟩, ⟨⟨rfl, rfl, rfl, rfl, rfl⟩, rfl, rfl⟩, rfl⟩
      have hframe := he'.frame.cut (owned e.pageTable) []
      rw [List.append_nil, List.append_nil, ← owned_append] at hframe
      exact (he.frame.trans hframe).drop fun k hk => absurd hk (by simp [EditBuffer.new, EditBuffer.pages, Pages.empty, owned])
  obtain ⟨w', hrun, hw', hgrant', halone⟩ :=
    Call.edit_spec hw hgrant (new_stands false) (hreturn.mono fun e h he => ⟨he.1, he.2.1⟩)
  refine ⟨w', hrun, hw', hgrant', halone, ?_⟩
  obtain ⟨e, h, hfree, -, -, rfl⟩ := hreturn
  rw [Call.edit, hfree] at hrun
  rw [← Except.ok.inj hrun]

/-- A new buffer at an address where nothing is left. -/
theorem World.Ok.newBuffer (hw : w.Ok) {address : Nat} (hfree : (w.buffers address).pages = []) :
    World.Ok ⟨w.heap, Function.update w.buffers address (EditBuffer.new false)⟩ ∧
      LeavesAlone address w ⟨w.heap, Function.update w.buffers address (EditBuffer.new false)⟩ ∧
      World.text ⟨w.heap, Function.update w.buffers address (EditBuffer.new false)⟩ address = [] := by
  have he : Edit (w.buffers address).pages (EditBuffer.new false).pages w.heap w.heap := by
    have hsame : (EditBuffer.new false).pages = (w.buffers address).pages := hfree.symm
    rw [hsame]
    exact Edit.refl (hw.table address)
  refine ⟨hw.edit he ⟨⟨rfl, rfl, rfl, rfl, rfl⟩, rfl, rfl⟩ (new_stands false), hw.edit_alone he, ?_⟩
  rw [World.text]
  simp only [Function.update_self]
  rfl

namespace Session

variable {s s' : Session} {address kill : Nat}

/-- An address that `eb_new` can answer: nothing is there, or the buffer that is freed before. -/
def Unused (s : Session) (address : Nat) : Prop :=
  address ≠ s.buffer ∧ ((s.world.buffers address).pages = [] ∨ s.reused = some address)

/-- A new yank buffer, where the window needs the one in the slot no longer. -/
theorem newYankBuffer_spec (hw : s.world.Ok) (hgrant : s.world.heap.Willing) (hslot : s.reused ≠ some s.buffer)
    (haddress : s.Unused address) :
    ∃ w', s.newYankBuffer address = .ok { s with world := w', ring := s.ring.push address } ∧ w'.Ok ∧ w'.heap.Willing ∧
      w'.text address = [] ∧ w'.text s.buffer = s.world.text s.buffer := by
  have hnew {w : World} (hw : w.Ok) (hgrant : w.heap.Willing) (hfree : (w.buffers address).pages = [])
      (htext : w.text s.buffer = s.world.text s.buffer) :
      let w' : World := ⟨w.heap, Function.update w.buffers address (EditBuffer.new false)⟩
      w'.Ok ∧ w'.heap.Willing ∧ w'.text address = [] ∧ w'.text s.buffer = s.world.text s.buffer := by
    obtain ⟨hw', halone, hnil⟩ := hw.newBuffer hfree
    exact ⟨hw', hgrant, hnil, (halone.texts _ haddress.1.symm).trans htext⟩
  rw [newYankBuffer, if_neg hslot]
  cases hreused : s.reused with
  | none =>
    have hfree : (s.world.buffers address).pages = [] := by
      rcases haddress.2 with hfree | hsame
      · exact hfree
      · rw [hreused] at hsame
        cases hsame
    exact ⟨_, rfl, hnew hw hgrant hfree rfl⟩
  | some b =>
    obtain ⟨w', hrun, hw', hgrant', halone, hbuffers⟩ := edit_ebFree hw hgrant b
    have hb : b ≠ s.buffer := fun hsame => hslot (hreused.trans (congrArg some hsame))
    have hfree : (w'.buffers address).pages = [] := by
      rw [hbuffers]
      by_cases hsame : address = b
      · rw [hsame, Function.update_self]
        rfl
      · rw [Function.update_of_ne hsame]
        rcases haddress.2 with hfree | hnext
        · exact hfree
        · rw [hreused] at hnext
          exact absurd (Option.some.inj hnext).symm hsame
    refine ⟨_, ?_, hnew hw' hgrant' hfree (halone.texts _ hb.symm)⟩
    simp only [hrun]
    rfl

/-! ## The calls of the two commands -/

/-- A part of the text of the window goes into an empty buffer. -/
theorem ebInsertBufferFrom_spec (hw : s.world.Ok) (hgrant : s.world.heap.Willing) (hne : b ≠ s.buffer)
    (hnil : s.world.text b = []) {o n : Nat} (hle : o + n ≤ (s.world.text s.buffer).length) :
    ∃ w', s.ebInsertBufferFrom b o n = .ok { s with world := w' } ∧ w'.Ok ∧ w'.heap.Willing ∧
      w'.text b = slice (s.world.text s.buffer) o n ∧ w'.text s.buffer = s.world.text s.buffer := by
  have hallowed : (Call.insertBuffer b 0 s.buffer o n).Allowed s.world := by
    refine ⟨hne, Nat.zero_le _, ?_⟩
    rw [hw.total]
    exact hle
  obtain ⟨w', hrun, hw', hgrant', halone, htext⟩ := Call.run_insertBuffer hw hgrant hallowed
  refine ⟨w', ?_, hw', hgrant', ?_, halone.texts _ hne.symm⟩
  · rw [ebInsertBufferFrom, if_pos ⟨Int.natCast_nonneg _, Int.natCast_nonneg _⟩, Int.toNat_natCast, Int.toNat_natCast, call,
      if_pos hallowed, hrun]
    rfl
  · rw [htext, hnil]
    simp [insertAt]

/-- A part of the text of the window is removed. -/
theorem ebDelete_spec (hw : s.world.Ok) (hgrant : s.world.heap.Willing) {o n : Nat}
    (hle : o + n ≤ (s.world.text s.buffer).length) :
    ∃ s', s.ebDelete o n = .ok s' ∧ s'.world.Ok ∧ s'.world.heap.Willing ∧
      (∀ i, i ≠ s.buffer → s'.world.text i = s.world.text i) ∧
      s'.world.text s.buffer = removeAt (s.world.text s.buffer) o n ∧
      s' = { s with world := s'.world, mark := s'.mark, offset := s'.offset } := by
  have htotal : s.total = (s.world.text s.buffer).length := congrArg Nat.cast (hw.total s.buffer)
  rw [ebDelete, htotal]
  by_cases hend : ((s.world.text s.buffer).length : Int) ≤ o
  · rw [if_pos hend]
    refine ⟨s, rfl, hw, hgrant, fun _ _ => rfl, ?_, rfl⟩
    rw [removeAt, List.take_of_length_le (by omega), List.drop_of_length_le (by omega), List.append_nil]
  · have hallowed : (Call.delete s.buffer o n).Allowed s.world := by
      intro _
      rw [hw.total]
      exact hle
    obtain ⟨w', hrun, hw', hgrant', halone, htext⟩ := run_delete hw hgrant hallowed
    rw [if_neg hend, if_pos ⟨Int.natCast_nonneg _, Int.natCast_nonneg _⟩, Int.toNat_natCast, Int.toNat_natCast, call,
      if_pos hallowed, hrun]
    exact ⟨_, rfl, hw', hgrant', halone.texts, htext, rfl⟩

/-- The whole of another buffer goes into the text of the window. -/
theorem ebInsertBufferInto_spec (hw : s.world.Ok) (hgrant : s.world.heap.Willing) (hne : s.buffer ≠ b) {o : Nat}
    (hle : o ≤ (s.world.text s.buffer).length) :
    ∃ w', s.ebInsertBufferInto o b (s.world.text b).length =
        .ok (({ s with world := w' } : Session).notified ⟨.insert, o, (s.world.text b).length⟩) ∧
      w'.Ok ∧ w'.heap.Willing ∧ LeavesAlone s.buffer s.world w' ∧
      w'.text s.buffer = insertAt (s.world.text s.buffer) o (s.world.text b) := by
  have hallowed : (Call.insertBuffer s.buffer o b 0 (s.world.text b).length).Allowed s.world := by
    refine ⟨hne, ?_, ?_⟩
    · rw [hw.total]
      exact hle
    · rw [hw.total, Nat.zero_add]
  obtain ⟨w', hrun, hw', hgrant', halone, htext⟩ := Call.run_insertBuffer hw hgrant hallowed
  refine ⟨w', ?_, hw', hgrant', halone, ?_⟩
  · rw [ebInsertBufferInto, if_pos (Int.natCast_nonneg _), Int.toNat_natCast, call, if_pos hallowed, hrun]
    rfl
  · rw [htext, slice, List.drop_zero, List.take_length]

/-! ## The region -/

/-- `eb_nextc` goes forward. -/
theorem nextc_lt {r : Reader} {o : Int} (ho : o < r.total) : o < (r.nextc o).2 := by
  rw [Reader.nextc_code r ho]
  split
  · exact Int.lt_succ o
  · have := utf8Decode_taken_pos (slice r.text o.toNat maxCharBytes ++ r.stack.drop (slice r.text o.toNat maxCharBytes).length)
    simp only
    omega

theorem le_moveEol (r : Reader) (o : Int) : o ≤ r.moveEol o := by
  refine scan_induction (fun x y hx hy => ?_) (Int.le_refl o) r.turns
  split_ifs at hy with hline
  obtain rfl := Option.some.inj hy
  rcases Int.lt_or_le x r.total with hlt | hge
  · exact Int.le_of_lt (Int.lt_of_le_of_lt hx (nextc_lt hlt))
  · rw [Reader.nextc_end r hge] at hline
    exact absurd rfl hline

/-- The end of a line is a byte. -/
theorem nextc_newline_le {r : Reader} {o : Nat} (ho : o ≤ r.text.length) (hline : (r.nextc o).1 = newline) :
    (o : Int) ≤ (r.nextc o).2 ∧ (r.nextc o).2 ≤ r.total := by
  have htotal : r.total = (r.text.length : Nat) := rfl
  rcases Nat.lt_or_eq_of_le ho with hlt | rfl
  · have hnext : (r.nextc o).2 = ((o + 1 : Nat) : Int) := by
      by_cases hu : r.charset = .utf8
      · rcases Nat.lt_or_ge r.text[o] 0x80 with hlow | hhigh
        · rw [Editor.nextc_low hlt hlow]
        · have hge := (Editor.nextc_accepted hu hlt hhigh).2
          rw [hline] at hge
          exact absurd hge (by decide)
      · rw [Reader.nextc_byte hu hlt]
        rfl
    rw [hnext, htotal]
    omega
  · rw [Reader.nextc_end r (Int.le_of_eq htotal), htotal]
    omega

/-- The region of a command lies in the text, but for a line whose end is not there. -/
theorem killedRegion_bounds {m p : Nat} (hm : s.mark = m) (hp : s.offset = p) (hmle : m ≤ (s.world.text s.buffer).length)
    (hple : p ≤ (s.world.text s.buffer).length) (heol : kill = 2 → s.reader.moveEol s.offset ≤ s.reader.total) :
    ∃ o n : Nat, s.killedRegion kill = ((o : Int), ((o + n : Nat) : Int)) ∧ o + n ≤ (s.world.text s.buffer).length := by
  have htotal : s.reader.total = ((s.world.text s.buffer).length : Nat) := rfl
  -- the end that is not the point
  obtain ⟨e, he, hele⟩ : ∃ e : Nat, (s.killedRegion kill) = (if s.offset < (e : Int) then (s.offset, (e : Int)) else ((e : Int), s.offset)) ∧
      e ≤ (s.world.text s.buffer).length := by
    by_cases hk : kill = 2
    · have hge := le_moveEol s.reader s.offset
      have hle := heol hk
      by_cases hline : (s.reader.nextc s.offset).1 = newline
      · rw [hp] at hline
        obtain ⟨hfrom, hto⟩ := nextc_newline_le (r := s.reader) hple hline
        obtain ⟨e, he⟩ := Int.eq_ofNat_of_zero_le (show 0 ≤ (s.reader.nextc p).2 by omega)
        refine ⟨e, ?_, by omega⟩
        simp only [killedRegion, if_pos hk, hp, if_pos hline, he]
      · obtain ⟨e, he⟩ := Int.eq_ofNat_of_zero_le (show 0 ≤ s.reader.moveEol s.offset by omega)
        refine ⟨e, ?_, by omega⟩
        simp only [killedRegion, if_pos hk, if_neg hline, he]
    · refine ⟨m, ?_, hmle⟩
      simp only [killedRegion, if_neg hk, hm]
  rw [he, hp]
  split_ifs with hlt
  · exact ⟨p, e - p, Prod.ext rfl (by show (e : Int) = _; omega), by omega⟩
  · exact ⟨e, p - e, Prod.ext rfl (by show (p : Int) = _; omega), by omega⟩

/-- The region of a line that ends behind the text does so, too. -/
theorem killedRegion_beyond (hp : s.offset ≤ s.reader.total) (heol : s.reader.total < s.reader.moveEol s.offset) :
    s.killedRegion 2 = (s.offset, s.reader.moveEol s.offset) := by
  have hline : ¬(s.reader.nextc s.offset).1 = newline := by
    intro hline
    have hnone : (if (s.reader.nextc s.offset).1 = newline then none else some (s.reader.nextc s.offset).2) = none := if_pos hline
    have hstay : s.reader.moveEol s.offset = s.offset := scan_stop hnone _
    omega
  simp only [killedRegion, if_true, if_neg hline]
  rw [if_pos (by omega)]

end Session

end Hoe.InMemory
