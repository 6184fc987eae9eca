import Hoe.WriteChar
import Hoe.Lemmas.ChangeCase

/-!
# What typing does to the text

A text cut at the point, and what an insertion, a removal and a replacement make of it. Of the window only the point and the top of
what it shows go along.
-/

namespace Hoe

open Splice

/-- A character that the charset has is encoded as it is spelled. -/
theorem unicodeToCharset_known {charset : Charset} {c : Nat} (h : Known charset c) : unicodeToCharset c charset = charSpelling charset c := by
  cases charset
  · exact congrArg (Option.getD · _) (if_pos (Nat.le_of_lt_succ h))
  · exact congrArg (Option.getD · _) (if_pos (Nat.le_of_lt_succ h))
  · rfl

namespace Editor

/-- The window after changes of its text, with the point at an offset. -/
structure Rewritten (s : Editor) (o : Int) (text : List Byte) (s' : Editor) : Prop where
  wf : s'.buffer.WellFormed
  text : s'.buffer.bytes = text
  rest : ∃ top, s' = { s with buffer := s'.buffer, offset := o, offsetTop := top }

variable {s s' s'' : Editor} {n : Note} {o o' : Int} {text text' front cur back buf : List Byte}

theorem Edited.rewritten (h : Edited s n text s') : Rewritten s (ebOffsetCallback s.offset n) text s' := ⟨h.wf, h.text, _, h.rest⟩

theorem Rewritten.offset (h : Rewritten s o text s') : s'.offset = o := by
  obtain ⟨top, hrest⟩ := h.rest
  rw [hrest]

/-- One rewriting behind another. -/
theorem Rewritten.trans (h : Rewritten s o text s') (h' : Rewritten s' o' text' s'') : Rewritten s o' text' s'' := by
  obtain ⟨top, hrest⟩ := h.rest
  obtain ⟨top', hrest'⟩ := h'.rest
  refine ⟨h'.wf, h'.text, top', ?_⟩
  rw [hrest', hrest]

/-- The point may be set. -/
theorem Rewritten.setOffset (h : Rewritten s o text s') (o' : Int) : Rewritten s o' text { s' with offset := o' } := by
  obtain ⟨top, hrest⟩ := h.rest
  refine ⟨h.wf, h.text, top, ?_⟩
  rw [hrest]

/-- So may the nibble that comes next. -/
theorem Rewritten.setHexNibble (h : Rewritten s o text s') (n : Nat) :
    Rewritten { s with hexNibble := n } o text { s' with hexNibble := n } := by
  obtain ⟨top, hrest⟩ := h.rest
  refine ⟨h.wf, h.text, top, ?_⟩
  rw [hrest]

/-- Bytes are put between two parts of the text. -/
theorem insert_rewritten (h : s.buffer.WellFormed) (ht : s.buffer.bytes = front ++ back) (buf : List Byte) :
    ∃ s', s.ebInsert front.length buf = some s' ∧
      Rewritten s (ebOffsetCallback s.offset ⟨.insert, front.length, buf.length⟩) (front ++ buf ++ back) s' := by
  obtain ⟨s', hs', hedited⟩ := ebInsert_spec h (o := front.length) (by simp [ht]) buf
  rw [ht, insertAt_append] at hedited
  exact ⟨s', hs', hedited.rewritten⟩

/-- The bytes between two parts are taken away. -/
theorem delete_rewritten (h : s.buffer.WellFormed) (hcur : cur ≠ []) (ht : s.buffer.bytes = front ++ cur ++ back) :
    ∃ s', s.ebDelete front.length cur.length = some s' ∧
      Rewritten s (ebOffsetCallback s.offset ⟨.delete, front.length, cur.length⟩) (front ++ back) s' := by
  have hpos := List.length_pos_iff.mpr hcur
  obtain ⟨s', hs', hedited⟩ := ebDelete_spec h (o := front.length) (w := cur.length)
    (by rw [ht]; simp only [List.length_append]; omega) (by simp [ht])
  rw [ht, List.append_assoc, removeAt_append, List.drop_left] at hedited
  exact ⟨s', hs', hedited.rewritten⟩

/-- The characters under the point are replaced, and the point stays in front of the new ones. -/
theorem replaceAt_rewritten (h : s.buffer.WellFormed) (hcur : cur ≠ []) (hbuf : buf ≠ []) (ht : s.buffer.bytes = front ++ cur ++ back)
    (ho : s.offset = front.length) :
    ∃ s', s.replaceAt cur.length buf = some s' ∧ Rewritten s front.length (front ++ buf ++ back) s' := by
  unfold replaceAt
  split
  · rename_i hlen
    have hlen : buf.length = cur.length := by exact_mod_cast hlen.symm
    obtain ⟨s', hs', hedited⟩ := ebWrite_spec h (o := front.length) hbuf (by simp [ht, hlen])
    rw [ht, List.append_assoc, overwriteAt_append, hlen, List.drop_left] at hedited
    refine ⟨s', ho ▸ hs', ?_⟩
    have hstay : ebOffsetCallback s.offset ⟨.write, front.length, cur.length⟩ = front.length := ho
    rw [← hstay]
    exact hedited.rewritten
  · obtain ⟨s₁, hs₁, h₁⟩ := delete_rewritten h hcur ht
    have ho₁ : ebOffsetCallback s.offset ⟨.delete, front.length, cur.length⟩ = front.length := by
      rw [ho]
      exact if_neg (lt_irrefl _)
    rw [ho₁] at h₁
    obtain ⟨s₂, hs₂, h₂⟩ := insert_rewritten h₁.wf h₁.text buf
    have ho₂ : ebOffsetCallback s₁.offset ⟨.insert, front.length, buf.length⟩ = front.length := by
      rw [h₁.offset]
      exact if_neg (lt_irrefl _)
    rw [ho₂] at h₂
    refine ⟨s₂, ?_, h₁.trans h₂⟩
    rw [ho, hs₁]
    exact hs₂

end Editor

end Hoe
