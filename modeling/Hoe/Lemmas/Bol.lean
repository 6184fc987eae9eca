import Hoe.Lemmas.Lines

/-!
# Where lines begin

The functions that look for the beginning of a line, on any bytes. Forward, no character swallows a newline. Backward,
`eb_prevc` glues to a newline up to five bytes behind it that go on with no character, and goes back by seven when there are
six or more.
-/

namespace Hoe

open Splice

/-! ## Forward -/

/-- One past the first newline from the offset on, or the end of the text. -/
def nextBolOf (text : List Byte) (o : Nat) : Nat :=
  if newline ∈ text.drop o then o + (text.drop o).idxOf newline + 1 else text.length

theorem isTail_newline : isTail newline = false := by decide

/-- The run of tail bytes ends in front of a byte that is none. -/
theorem tailRun_le_of_getD {p : List Nat} {i : Nat} (hi : i < p.length) (h : isTail (p.getD i 0) = false) : tailRun p ≤ i := by
  have hcut : p = p.take i ++ p[i] :: p.drop (i + 1) := by rw [← List.drop_eq_getElem_cons hi, List.take_append_drop]
  rw [List.getD_eq_getElem?_getD, List.getElem?_eq_getElem hi, Option.getD_some] at h
  have := tailRun_append_le (p.take i) h (p.drop (i + 1))
  rw [← hcut, List.length_take] at this
  omega

namespace Reader

variable {r : Reader} {o : Nat}

/-- Behind a newline is the next byte. -/
theorem nextc_at_newline (ho : o < r.text.length) (hn : r.text[o] = newline) : (r.nextc o).2 = (o : Int) + 1 := by
  have hc : r.charset.code newline = some newline := by cases r.charset <;> rfl
  rw [nextc_code _ (show (o : Int) < r.total by rw [total]; omega), byte, Int.toNat_natCast, getD_of_lt _ ho, hn, hc]

/-- `eb_nextc` goes forward, and not over a newline. -/
theorem nextc_le (ho : o < r.text.length) :
    ∃ o' : Nat, (r.nextc o).2 = o' ∧ o < o' ∧ ∀ x, o < x → x < r.text.length → r.text.getD x 0 = newline → o' ≤ x := by
  by_cases hu : r.charset = .utf8
  · obtain ⟨q, hw, hq⟩ := window_cons ho
    have htaken := utf8Decode_taken (r.window o)
    rw [hw, List.headD_cons, List.tail_cons] at htaken
    have hpos := utf8Length_pos r.text[o]
    have hle := utf8Length_le r.text[o]
    rw [nextc_utf8 hu ho, hw]
    refine ⟨o + (utf8Decode (r.text[o] :: q)).2, by push_cast; rfl, by omega, fun x hox hx hn => ?_⟩
    by_cases hfar : o + 6 ≤ x
    · have : maxCharBytes = 6 := rfl
      omega
    · have hlen : x - (o + 1) < (slice r.text (o + 1) 5).length := by
        rw [slice, List.length_take, List.length_drop]
        omega
      have hget : q.getD (x - (o + 1)) 0 = newline := by
        rw [hq, List.getD_append _ _ _ _ hlen, ← hn, slice, List.getD_eq_getElem?_getD, List.getElem?_take_of_lt (by omega),
          List.getElem?_drop, ← List.getD_eq_getElem?_getD]
        congr 1
        omega
      have hrun : tailRun q ≤ x - (o + 1) :=
        tailRun_le_of_getD (by rw [hq, List.length_append]; omega) (by rw [hget, isTail_newline])
      omega
  · rw [nextc_byte hu ho]
    exact ⟨o + 1, rfl, Nat.lt_succ_self o, fun x hx _ _ => hx⟩

end Reader

/-- The next line begins behind the first newline, or nowhere in the text. -/
theorem nextBolOf_split {text line rest : List Byte} {o : Nat} (h : text.drop o = line ++ rest) (hn : newline ∉ line) :
    nextBolOf text o = if newline ∈ rest then o + line.length + rest.idxOf newline + 1 else text.length := by
  rw [nextBolOf, h]
  by_cases hr : newline ∈ rest
  · rw [if_pos (List.mem_append_right _ hr), if_pos hr, List.idxOf_append_of_notMem hn]
    omega
  · rw [if_neg (by simp [hn, hr]), if_neg hr]

/-- From an offset on the line, not behind its newline, the next line begins at the same place. -/
theorem nextBolOf_forward {text : List Byte} {o o' : Nat} (ho : o ≤ o')
    (hn : ∀ x, o ≤ x → x < text.length → text.getD x 0 = newline → o' ≤ x) : nextBolOf text o' = nextBolOf text o := by
  obtain ⟨m, rfl⟩ : ∃ m, o' = o + m := ⟨o' - o, by omega⟩
  have hno : newline ∉ (text.drop o).take m := by
    intro hmem
    obtain ⟨i, hi, hget⟩ := List.mem_iff_getElem.mp hmem
    rw [List.length_take, List.length_drop] at hi
    have := hn (o + i) (by omega) (by omega) (by
      rw [getD_of_lt _ (by omega : o + i < text.length), ← hget, List.getElem_take, List.getElem_drop])
    omega
  rw [nextBolOf_split (List.take_append_drop m (text.drop o)).symm hno, nextBolOf, List.drop_drop]
  by_cases hmem : newline ∈ text.drop (o + m)
  · have hlen : ((text.drop o).take m).length = m := by
      have := List.length_pos_of_mem hmem
      rw [List.length_drop] at this
      rw [List.length_take, List.length_drop]
      omega
    rw [if_pos hmem, if_pos hmem, hlen]
  · rw [if_neg hmem, if_neg hmem]

/-- `eb_next_line` finds the first newline, whatever the bytes are and whatever the array held. -/
theorem nextLineLoop_spec (charset : Charset) (junk : Nat → List Byte) {n : Nat} {t : Pages} (ht : t.Ok) {o : Nat}
    (hn : t.totalSize - o + 2 ≤ n) : ∃ t', nextLineLoop charset junk n t o = some (t', (nextBolOf t.bytes o : Int)) := by
  have hlen := ht.length_bytes
  induction n generalizing t o with
  | zero => omega
  | succ n ih =>
    obtain ⟨e1, e2, e3⟩ := ebNextc_eq ht (r := ⟨t.bytes, charset, junk n⟩) rfl (Int.natCast_nonneg o)
    rw [nextLineLoop]
    simp only at e1 e2 e3
    generalize ebNextc t charset (junk n) o = w at e1 e2 e3 ⊢
    obtain ⟨t₁, c, o₁⟩ := w
    simp only at e1 e2 e3 ⊢
    rcases Nat.lt_or_ge o t.totalSize with hlt | hge
    · have ho : o < (Reader.text ⟨t.bytes, charset, junk n⟩).length := by
        rw [hlen]
        exact hlt
      have hnl := Reader.nextc_newline ho
      obtain ⟨o', hnext, hfwd, hstop⟩ := Reader.nextc_le ho
      rw [← e1] at hnl hnext
      simp only at hnl hnext hstop
      subst hnext
      by_cases hc : c = newline
      · have hat := Reader.nextc_at_newline ho (hnl.mp hc)
        rw [← e1] at hat
        have hhead : t.bytes.drop o = newline :: t.bytes.drop (o + 1) := by
          rw [List.drop_eq_getElem_cons (by omega), hnl.mp hc]
        rw [if_pos hc, nextBolOf, hhead, if_pos List.mem_cons_self, List.idxOf_cons_self]
        simp only at hat
        exact ⟨t₁, by rw [hat]; rfl⟩
      · have hne : ∀ x, o ≤ x → x < t.bytes.length → t.bytes.getD x 0 = newline → o' ≤ x := by
          intro x hox hx hxn
          by_cases hxo : x = o
          · rw [hxo, getD_of_lt _ (by omega)] at hxn
            exact absurd (hnl.mpr hxn) hc
          · exact hstop x (by omega) hx hxn
        obtain ⟨t', ht'⟩ := ih e2 (o := o') (by rw [e3.total]; omega) e2.length_bytes
        rw [if_neg hc]
        refine ⟨t', ?_⟩
        rw [ht', e3.bytes, nextBolOf_forward (Nat.le_of_lt hfwd) hne]
    · rw [Reader.nextc_end _ (by rw [Reader.total, hlen]; exact_mod_cast hge)] at e1
      obtain ⟨rfl, rfl⟩ := Prod.mk.inj e1
      have hnil : t.bytes.drop o = [] := List.drop_eq_nil_of_le (by omega)
      rw [if_pos rfl, nextBolOf, hnil, if_neg List.not_mem_nil]
      exact ⟨t₁, rfl⟩

/-! ## Backward -/

/-- The loop of `eb_goto_bol` leads from one offset to another, whatever lies on the stack. -/
inductive BackTo (charset : Charset) (text : List Byte) : Int → Int → Prop where
  | start {o : Int} : o ≤ 0 → BackTo charset text o o
  | stop {o : Nat} : (∀ stack, (Reader.prevc ⟨text, charset, stack⟩ o).1 = newline) → BackTo charset text o o
  | step {o : Nat} {e v : Int} : 0 < o → (∀ stack, (Reader.prevc ⟨text, charset, stack⟩ o).1 ≠ newline) →
      (∀ stack, (Reader.prevc ⟨text, charset, stack⟩ o).2 = e) → e < o → BackTo charset text e v → BackTo charset text o v

/-- The loop of `eb_goto_bol` comes to where it goes back to. -/
theorem BackTo.loop {charset : Charset} {text : List Byte} {o v : Int} (h : BackTo charset text o v) (junk : Nat → List Byte)
    {n : Nat} {t : Pages} (ht : t.Ok) (htext : text = t.bytes) (ho : o ≤ t.totalSize) (hn : o.toNat + 2 ≤ n) :
    ∃ t', gotoBolLoop charset junk n t o = some (t', v) := by
  induction h generalizing n t with
  | @start o hle =>
    obtain ⟨n, rfl⟩ : ∃ m, n = m + 1 := ⟨n - 1, by omega⟩
    refine ⟨t, ?_⟩
    rw [gotoBolLoop, ebPrevc, if_pos hle]
    rfl
  | @stop o hnl =>
    obtain ⟨n, rfl⟩ : ∃ m, n = m + 1 := ⟨n - 1, by omega⟩
    obtain ⟨e1, -, -⟩ := ebPrevc_eq ht (r := ⟨text, charset, junk n⟩) htext ho
    have hc := hnl (junk n)
    rw [← e1] at hc
    exact ⟨_, if_pos hc⟩
  | @step o o' v hpos hnl hprev hlt _ ih =>
    obtain ⟨n, rfl⟩ : ∃ m, n = m + 1 := ⟨n - 1, by omega⟩
    obtain ⟨e1, e2, e3⟩ := ebPrevc_eq ht (r := ⟨text, charset, junk n⟩) htext ho
    have hc := hnl (junk n)
    have ho' := hprev (junk n)
    rw [← e1] at hc ho'
    obtain ⟨t', ht'⟩ := ih (n := n) e2 (htext.trans e3.bytes.symm) (by rw [e3.total]; omega) (by omega)
    refine ⟨t', (if_neg hc).trans ?_⟩
    rw [← ho'] at ht'
    exact ht'

section Backward

variable {charset : Charset} {text : List Byte} {o : Nat}

/-- Where each byte is a character, it stops behind a newline. -/
theorem BackTo.stop_byte (hu : charset ≠ .utf8) (ho : 0 < o) (hn : text.getD (o - 1) 0 = newline) : BackTo charset text o o := by
  refine .stop fun stack => ?_
  rw [Reader.prevc_byte (r := ⟨text, charset, stack⟩) hu ho]
  exact hn

/-- From another byte it goes back by one. -/
theorem BackTo.step_byte (hu : charset ≠ .utf8) (ho : 0 < o) (hn : text.getD (o - 1) 0 ≠ newline) {v : Int}
    (h : BackTo charset text ((o - 1 : Nat) : Int) v) : BackTo charset text o v := by
  refine .step (e := ((o - 1 : Nat) : Int)) ho (fun stack => ?_) (fun stack => ?_) (by omega) h
  · rw [Reader.prevc_byte (r := ⟨text, charset, stack⟩) hu ho]
    exact hn
  · rw [Reader.prevc_byte (r := ⟨text, charset, stack⟩) hu ho]
    simp only
    omega

/-- The character that begins at one of the last six bytes is a newline when that byte is. -/
theorem prevc_first_newline (hu : charset = .utf8) (ho : 0 < o) (hlen : o ≤ text.length) {first : Nat}
    (hf : Reader.firstByte text (maxCharBytes - 1) (o - 1) = some first) (stack : List Byte) :
    (Reader.prevc ⟨text, charset, stack⟩ o).1 = newline ↔ text.getD first 0 = newline := by
  obtain ⟨h1, -, -, -⟩ := Reader.firstByte_some hf
  have hlt : first < text.length := by omega
  rw [Reader.prevc_some (r := ⟨text, charset, stack⟩) hu ho hf, show o - first = (o - first - 1) + 1 by omega,
    slice_head text hlt, List.cons_append, getD_of_lt _ hlt]
  exact utf8Decode_newline _ _

/-- In UTF-8 it stops behind a character that is a newline. -/
theorem BackTo.stop_first (hu : charset = .utf8) (ho : 0 < o) (hlen : o ≤ text.length) {first : Nat}
    (hf : Reader.firstByte text (maxCharBytes - 1) (o - 1) = some first) (hn : text.getD first 0 = newline) :
    BackTo charset text o o :=
  .stop fun stack => (prevc_first_newline hu ho hlen hf stack).mpr hn

/-- From another character it goes back to its first byte. -/
theorem BackTo.step_first (hu : charset = .utf8) (ho : 0 < o) (hlen : o ≤ text.length) {first : Nat}
    (hf : Reader.firstByte text (maxCharBytes - 1) (o - 1) = some first) (hn : text.getD first 0 ≠ newline) {v : Int}
    (h : BackTo charset text first v) : BackTo charset text o v := by
  obtain ⟨h1, -, -, -⟩ := Reader.firstByte_some hf
  refine .step (e := first) ho (fun stack hc => hn ((prevc_first_newline hu ho hlen hf stack).mp hc)) (fun stack => ?_)
    (by omega) h
  rw [Reader.prevc_some (r := ⟨text, charset, stack⟩) hu ho hf]

/-- Where there is no first byte, `eb_prevc` goes back by seven. -/
theorem BackTo.step_none (hu : charset = .utf8) (ho : 0 < o)
    (hf : Reader.firstByte text (maxCharBytes - 1) (o - 1) = none) {v : Int} (h : BackTo charset text ((o : Int) - 7) v) :
    BackTo charset text o v := by
  have htail := Reader.firstByte_none hf (o - 1) (Nat.le_refl _) (by omega)
  refine .step (e := (o : Int) - 7) ho (fun stack hc => ?_) (fun stack => ?_) (by omega) h
  · rw [Reader.prevc_none (r := ⟨text, charset, stack⟩) hu ho hf] at hc
    simp only at hc
    rw [hc] at htail
    cases htail
  · rw [Reader.prevc_none (r := ⟨text, charset, stack⟩) hu ho hf, maxCharBytes]
    simp only
    push_cast
    omega

/-- From every offset the loop ends, and not behind it. -/
theorem exists_backTo (charset : Charset) (text : List Byte) {o : Nat} (hlen : o ≤ text.length) :
    ∃ v ≤ (o : Int), BackTo charset text o v := by
  induction o using Nat.strong_induction_on with
  | _ o ih =>
    rcases Nat.eq_zero_or_pos o with rfl | ho
    · exact ⟨0, Int.le_refl 0, .start (Int.le_refl 0)⟩
    by_cases hu : charset = .utf8
    · cases hf : Reader.firstByte text (maxCharBytes - 1) (o - 1) with
      | none =>
        by_cases hneg : o ≤ 7
        · exact ⟨(o : Int) - 7, by omega, .step_none hu ho hf (.start (by omega))⟩
        · obtain ⟨v, hv, h⟩ := ih (o - 7) (by omega) (by omega)
          rw [show ((o - 7 : Nat) : Int) = (o : Int) - 7 by omega] at h
          exact ⟨v, by omega, .step_none hu ho hf h⟩
      | some first =>
        obtain ⟨h1, -, -, -⟩ := Reader.firstByte_some hf
        by_cases hn : text.getD first 0 = newline
        · exact ⟨o, Int.le_refl _, .stop_first hu ho hlen hf hn⟩
        · obtain ⟨v, hv, h⟩ := ih first (by omega) (by omega)
          exact ⟨v, by omega, .step_first hu ho hlen hf hn h⟩
    · by_cases hn : text.getD (o - 1) 0 = newline
      · exact ⟨o, Int.le_refl _, .stop_byte hu ho hn⟩
      · obtain ⟨v, hv, h⟩ := ih (o - 1) (by omega) (by omega)
        exact ⟨v, by omega, .step_byte hu ho hn h⟩

/-- On a line the loop comes to each byte that begins a character, and to the beginning of the line in the other charsets. -/
theorem BackTo.descend {e : Nat} (hlen : o ≤ text.length) (he : e ≤ o) (hl : charset.lead (text.getD e 0) = true)
    (hn : ∀ i, e ≤ i → i < o → text.getD i 0 ≠ newline) {v : Int} (h : BackTo charset text e v) : BackTo charset text o v := by
  induction o using Nat.strong_induction_on with
  | _ o ih =>
    rcases Nat.eq_or_lt_of_le he with rfl | hlt
    · exact h
    have ho : 0 < o := by omega
    by_cases hu : charset = .utf8
    · have hlead : isTail (text.getD e 0) = false := by
        rw [hu, Charset.lead_utf8] at hl
        simpa using hl
      cases hf : Reader.firstByte text (maxCharBytes - 1) (o - 1) with
      | none =>
        have hfar : e + 6 < o := by
          by_contra hnear
          have := Reader.firstByte_none hf e (by omega) (by unfold maxCharBytes; omega)
          rw [hlead] at this
          cases this
        refine .step_none hu ho hf ?_
        rw [show (o : Int) - 7 = ((o - 7 : Nat) : Int) by omega]
        exact ih (o - 7) (by omega) (by omega) (by omega) fun i h1 h2 => hn i h1 (by omega)
      | some first =>
        obtain ⟨h1, -, -, h4⟩ := Reader.firstByte_some hf
        have hge : e ≤ first := by
          by_contra hbefore
          have := h4 e (by omega) (by omega)
          rw [hlead] at this
          cases this
        exact .step_first hu ho hlen hf (hn first hge (by omega))
          (ih first (by omega) (by omega) hge fun i h1 h2 => hn i h1 (by omega))
    · exact .step_byte hu ho (hn (o - 1) (by omega) (by omega))
        (ih (o - 1) (by omega) (by omega) (by omega) fun i h1 h2 => hn i h1 (by omega))

/-- Among tail bytes alone there is no first byte. -/
theorem firstByte_tails {text : List Byte} (first : Nat) {last : Nat} (h : ∀ i, first ≤ i → i ≤ last → isTail (text.getD i 0) = true)
    (hlast : first = 0 ∨ first + maxCharBytes ≤ last + 1) : Reader.firstByte text (maxCharBytes - 1) last = none := by
  cases hf : Reader.firstByte text (maxCharBytes - 1) last with
  | none => rfl
  | some f =>
    obtain ⟨h1, h2, h3, -⟩ := Reader.firstByte_some hf
    have := h f (by unfold maxCharBytes at h2 hlast; omega) h1
    rw [h3] at this
    cases this

/-- Over bytes that go on with no character the loop goes by sevens. -/
theorem BackTo.sevens (hu : charset = .utf8) {b m : Nat} (j : Nat)
    (ht : ∀ i, b ≤ i → i < b + m + 7 * j → isTail (text.getD i 0) = true) {v : Int}
    (h : BackTo charset text ((b + m : Nat) : Int) v) : BackTo charset text ((b + m + 7 * j : Nat) : Int) v := by
  induction j with
  | zero => exact h
  | succ j ih =>
    refine .step_none hu (by omega) ?_ ?_
    · refine firstByte_tails b (fun i h1 h2 => ht i h1 (by omega)) (Or.inr ?_)
      unfold maxCharBytes
      omega
    · rw [show ((b + m + 7 * (j + 1) : Nat) : Int) - 7 = ((b + m + 7 * j : Nat) : Int) by omega]
      exact ih fun i h1 h2 => ht i h1 (by omega)

end Backward

end Hoe
