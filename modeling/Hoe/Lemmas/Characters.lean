import Hoe.Characters
import Hoe.Lemmas.Pages
import Hoe.Lemmas.Utf8

/-!
# Reading a character

`eb_nextc` and `eb_prevc` read the text as `Reader` does, whatever its pages. What they read: forward, what `utf8_decode` finds
at the offset, unless the text ends in the middle of the character; backward, what it finds at the last byte in front of the
offset that begins a character.
-/

namespace Hoe

open Splice

/-! ## Pages that differ in their cache -/

/-- The text is stored in the same pages; only the page cache may have moved. -/
structure Pages.Same (t t' : Pages) : Prop where
  table : t'.pageTable = t.pageTable
  nb : t'.nbPages = t.nbPages
  total : t'.totalSize = t.totalSize

theorem Pages.Same.refl (t : Pages) : t.Same t := ⟨rfl, rfl, rfl⟩

/-- What is the same over two reads. -/
theorem Pages.Same.trans {t t' t'' : Pages} (h : t.Same t') (h' : t'.Same t'') : t.Same t'' :=
  ⟨h'.table.trans h.table, h'.nb.trans h.nb, h'.total.trans h.total⟩

/-- Reading changes no byte. -/
theorem Pages.Same.bytes {t t' : Pages} (h : t.Same t') : t'.bytes = t.bytes := by
  rw [Pages.bytes, Pages.bytes, h.table]

/-- `eb_read` reads a slice and moves the cache. -/
theorem ebRead_same {t : Pages} (ht : t.Ok) {offset : Nat} (size : Nat) (ho : offset ≤ t.totalSize) :
    (ebRead t offset size).2 = slice t.bytes offset size ∧ (ebRead t offset size).1.Ok ∧ t.Same (ebRead t offset size).1 := by
  obtain ⟨t', e1, e2, e3, e4, e5⟩ := ebRead_spec ht size ho
  rw [e1]
  exact ⟨rfl, e2, e3, e4, e5⟩

/-- A slice begins with the byte at its offset. -/
theorem slice_head (text : List Byte) {o : Nat} (ho : o < text.length) (n : Nat) :
    slice text o (n + 1) = text[o] :: slice text (o + 1) n := by
  rw [slice, slice, List.drop_eq_getElem_cons ho, List.take_succ_cons]

theorem slice_one (text : List Byte) {o : Nat} (ho : o < text.length) : slice text o 1 = [text[o]] := by
  rw [slice_head text ho 0]
  simp [slice]

/-! ## The functions on pages are those of a reader -/

theorem getD_of_lt (text : List Byte) {o : Nat} (ho : o < text.length) : text.getD o 0 = text[o] := by
  rw [List.getD_eq_getElem?_getD, List.getElem?_eq_getElem ho]
  rfl

/-- From the end of the text on, `eb_nextc` answers a newline. -/
theorem Reader.nextc_end (r : Reader) {offset : Int} (h : r.total ≤ offset) : r.nextc offset = (newline, r.total) :=
  if_pos h

/-- `eb_nextc` in the text, by what the table says of the byte. -/
theorem Reader.nextc_code (r : Reader) {offset : Int} (h : offset < r.total) :
    r.nextc offset =
      match r.charset.code (r.byte offset) with
      | some ch => (ch, offset + 1)
      | none =>
        let buf := slice r.text offset.toNat maxCharBytes
        let d := utf8Decode (buf ++ r.stack.drop buf.length)
        (d.1, offset + d.2) := by
  unfold nextc Charset.code
  rw [if_neg (by omega)]
  by_cases hc : r.charset ≠ .utf8 ∨ r.byte offset < 0x80
  · simp only [if_pos hc]
  · by_cases hl : 0xc0 ≤ r.byte offset ∧ r.byte offset < 0xfe
    · simp only [if_neg hc, if_pos hl]
    · simp only [if_neg hc, if_neg hl]

/-- `eb_nextc` on pages. -/
theorem ebNextc_eq {t : Pages} (ht : t.Ok) {r : Reader} (hr : r.text = t.bytes) {offset : Int} (ho : 0 ≤ offset) :
    (ebNextc t r.charset r.stack offset).2 = r.nextc offset ∧
      (ebNextc t r.charset r.stack offset).1.Ok ∧ t.Same (ebNextc t r.charset r.stack offset).1 := by
  have hlen := ht.length_bytes
  unfold ebNextc
  by_cases hend : (t.totalSize : Int) ≤ offset
  · rw [if_pos hend, Reader.nextc_end _ (by rw [Reader.total, hr, hlen]; exact hend)]
    exact ⟨by rw [Reader.total, hr, hlen], ht, .refl t⟩
  · rw [if_neg hend, Reader.nextc_code _ (by rw [Reader.total, hr, hlen]; omega)]
    have hlt : offset.toNat < t.bytes.length := by omega
    obtain ⟨r1, r2, r3⟩ := ebRead_same ht 1 (show offset.toNat ≤ t.totalSize by omega)
    generalize ebRead t offset.toNat 1 = read at r1 r2 r3 ⊢
    obtain ⟨t₁, bs⟩ := read
    simp only at r1 r2 r3 ⊢
    subst r1
    simp only [slice_one _ hlt, List.headD_cons, Reader.byte, hr, getD_of_lt _ hlt]
    cases r.charset.code t.bytes[offset.toNat] with
    | some ch => exact ⟨rfl, r2, r3⟩
    | none =>
      have hlen₁ := r2.length_bytes
      rw [r3.bytes] at hlen₁
      obtain ⟨q1, q2, q3⟩ := ebRead_same r2 (maxCharBytes - 1) (show offset.toNat + 1 ≤ t₁.totalSize by omega)
      have hsl := slice_head t.bytes hlt (maxCharBytes - 1)
      simp only [q1, r3.bytes]
      rw [show maxCharBytes - 1 + 1 = maxCharBytes from rfl] at hsl
      rw [hsl]
      exact ⟨rfl, q2, r3.trans q3⟩

/-- The loop of `eb_prevc` finds the byte that begins the character, and has read the bytes from it on. -/
theorem prevcLoop_eq {n : Nat} {t : Pages} (ht : t.Ok) {offset : Nat} {size : Nat} (hs : 0 < size)
    (hfit : offset + size ≤ t.totalSize) :
    (prevcLoop n t offset (slice t.bytes offset size)).2 =
        (Reader.firstByte t.bytes n offset).map (fun first => (first, slice t.bytes first (offset + size - first))) ∧
      (prevcLoop n t offset (slice t.bytes offset size)).1.Ok ∧
      t.Same (prevcLoop n t offset (slice t.bytes offset size)).1 := by
  have hlen := ht.length_bytes
  have hlt : offset < t.bytes.length := by omega
  have hhead : (slice t.bytes offset size).headD 0 = t.bytes.getD offset 0 := by
    obtain ⟨m, rfl⟩ : ∃ m, size = m + 1 := ⟨size - 1, by omega⟩
    rw [slice_head _ hlt, List.headD_cons, List.getD_eq_getElem?_getD, List.getElem?_eq_getElem hlt]
    rfl
  have hstop : (some (offset, slice t.bytes offset size) : Option (Nat × List Byte)) =
      (some offset).map (fun first => (first, slice t.bytes first (offset + size - first))) := by
    rw [Option.map_some, Nat.add_sub_cancel_left]
  induction n generalizing t offset size with
  | zero =>
    rw [prevcLoop, hhead, Reader.firstByte]
    by_cases htail : isTail (t.bytes.getD offset 0) = true
    · rw [if_pos htail, if_pos htail]
      cases offset <;> exact ⟨rfl, ht, .refl t⟩
    · rw [if_neg htail, if_neg htail]
      exact ⟨hstop, ht, .refl t⟩
  | succ n ih =>
    rw [prevcLoop.eq_def, Reader.firstByte.eq_def]
    simp only [hhead]
    by_cases htail : isTail (t.bytes.getD offset 0) = true
    · rw [if_pos htail, if_pos htail]
      cases offset with
      | zero => exact ⟨rfl, ht, .refl t⟩
      | succ o =>
        obtain ⟨r1, r2, r3⟩ := ebRead_same ht 1 (show o ≤ t.totalSize by omega)
        simp only
        generalize ebRead t o 1 = r at r1 r2 r3 ⊢
        obtain ⟨t₁, bs⟩ := r
        simp only at r1 r2 r3 ⊢
        subst r1
        have hjoin : slice t.bytes o 1 ++ slice t.bytes (o + 1) size = slice t₁.bytes o (size + 1) := by
          rw [r3.bytes, slice_one _ (by omega), slice_head _ (by omega)]
          rfl
        rw [hjoin]
        have hlen₁ := r2.length_bytes
        have hlt₁ : o < t₁.bytes.length := by rw [r3.bytes]; omega
        obtain ⟨i1, i2, i3⟩ := ih r2 (show 0 < size + 1 by omega) (show o + (size + 1) ≤ t₁.totalSize by rw [r3.total]; omega) hlen₁ hlt₁
          (by rw [slice_head _ hlt₁, List.headD_cons, List.getD_eq_getElem?_getD, List.getElem?_eq_getElem hlt₁]; rfl)
          (by rw [Option.map_some, Nat.add_sub_cancel_left])
        refine ⟨?_, i2, r3.trans i3⟩
        rw [i1, r3.bytes, show o + (size + 1) = o + 1 + size by omega]
    · rw [if_neg htail, if_neg htail]
      exact ⟨hstop, ht, .refl t⟩

/-- `eb_prevc` on pages. -/
theorem ebPrevc_eq {t : Pages} (ht : t.Ok) {r : Reader} (hr : r.text = t.bytes) {offset : Int} (ho : offset ≤ t.totalSize) :
    (ebPrevc t r.charset r.stack offset).2 = r.prevc offset ∧
      (ebPrevc t r.charset r.stack offset).1.Ok ∧ t.Same (ebPrevc t r.charset r.stack offset).1 := by
  have hlen := ht.length_bytes
  unfold ebPrevc Reader.prevc
  by_cases hend : offset ≤ 0
  · rw [if_pos hend, if_pos hend]
    exact ⟨rfl, ht, .refl t⟩
  · rw [if_neg hend, if_neg hend]
    have hnat : (offset - 1).toNat = offset.toNat - 1 := by omega
    have hlt : offset.toNat - 1 < t.bytes.length := by omega
    obtain ⟨r1, r2, r3⟩ := ebRead_same ht 1 (show offset.toNat - 1 ≤ t.totalSize by omega)
    simp only [hnat, Reader.byte, hr]
    generalize ebRead t (offset.toNat - 1) 1 = read at r1 r2 r3 ⊢
    obtain ⟨t₁, bs⟩ := read
    simp only at r1 r2 r3 ⊢
    subst r1
    have hget : (slice t.bytes (offset.toNat - 1) 1).headD 0 = t.bytes.getD (offset.toNat - 1) 0 := by
      rw [slice_one _ hlt, List.headD_cons, getD_of_lt _ hlt]
    by_cases hu : r.charset = .utf8
    · simp only [if_pos hu]
      obtain ⟨p1, p2, p3⟩ := prevcLoop_eq (n := maxCharBytes - 1) r2 (show 0 < 1 by decide)
        (show offset.toNat - 1 + 1 ≤ t₁.totalSize by rw [r3.total]; omega)
      rw [r3.bytes] at p1 p2 p3
      generalize prevcLoop (maxCharBytes - 1) t₁ (offset.toNat - 1) (slice t.bytes (offset.toNat - 1) 1) = found at p1 p2 p3 ⊢
      obtain ⟨t₂, found⟩ := found
      simp only at p1 p2 p3 ⊢
      subst p1
      cases Reader.firstByte t.bytes (maxCharBytes - 1) (offset.toNat - 1) with
      | none => exact ⟨by rw [← hget]; rfl, p2, r3.trans p3⟩
      | some first =>
        rw [show offset.toNat - 1 + 1 = offset.toNat by omega]
        exact ⟨rfl, p2, r3.trans p3⟩
    · simp only [if_neg hu]
      exact ⟨by rw [← hget], r2, r3⟩

end Hoe
