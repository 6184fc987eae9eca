import Hoe.EditCommands
import Hoe.Lib.Brackets
import Hoe.Lemmas.Editor
import Hoe.Lemmas.Spelled
import Hoe.Theorems.Transpose

/-!
# Matching parentheses

Forward and backward, `do_match_parenthesis` counts the two characters of a pair from the one at the point on. It stops at the
other one that is first to bring the count back to zero, and comes back to where it began when a text ends before. From there a
second call leads back.
-/

namespace Hoe

open Brackets

/-- Where the parenthesis at the offset has its other one: the first place in its direction where the count of the pair is zero. -/
def Partner (r : Reader) (fw : Bool) (thisParen otherParen : Nat) (o m : Nat) : Prop :=
  if fw then ∃ front mid back, Spelled r front (thisParen :: mid ++ otherParen :: back) ∧ Balanced thisParen otherParen mid ∧
    o = spelledLen r.charset front ∧ m = spelledLen r.charset (front ++ thisParen :: mid)
  else ∃ front mid back, Spelled r front (otherParen :: mid ++ thisParen :: back) ∧ Balanced thisParen otherParen mid.reverse ∧
    o = spelledLen r.charset (front ++ otherParen :: mid) ∧ m = spelledLen r.charset front

/-- The other parenthesis has this one as its own. -/
theorem Partner.symm {r : Reader} {fw : Bool} {p q o m : Nat} (h : Partner r fw p q o m) : Partner r (!fw) q p m o := by
  cases fw
  · obtain ⟨front, mid, back, hspelled, hbalanced, ho, hm⟩ := h
    exact ⟨front, mid, back, hspelled, balanced_reverse.mp hbalanced, hm, ho⟩
  · obtain ⟨front, mid, back, hspelled, hbalanced, ho, hm⟩ := h
    exact ⟨front, mid, back, hspelled, hbalanced.reverse, hm, ho⟩

variable {r : Reader} {fw : Bool} {p q m : Nat} {front back : List Nat}

theorem partner_forward_iff (hpq : p ≠ q) (h : Spelled r front (p :: back)) :
    Partner r true p q (spelledLen r.charset front) m ↔
      ∃ i, closing p q 1 back = some i ∧ spelledLen r.charset (front ++ [p] ++ back.take i) = m := by
  constructor
  · rintro ⟨front', mid, back', h', hbalanced, ho, hm⟩
    obtain ⟨rfl, hback⟩ := h.unique h' ho
    obtain rfl : back = mid ++ q :: back' := (List.cons.inj hback).2
    refine ⟨mid.length, (closing_one_iff hpq).mpr ⟨mid, back', rfl, rfl, hbalanced⟩, ?_⟩
    rw [hm, List.take_left, List.append_assoc]
    rfl
  · rintro ⟨i, hi, rfl⟩
    obtain ⟨mid, back', rfl, rfl, hbalanced⟩ := (closing_one_iff hpq).mp hi
    refine ⟨front, mid, back', h, hbalanced, rfl, ?_⟩
    rw [List.take_left, List.append_assoc]
    rfl

theorem partner_backward_iff (hpq : p ≠ q) (h : Spelled r front (p :: back)) :
    Partner r false p q (spelledLen r.charset front) m ↔
      ∃ i, closing p q 1 front.reverse = some i ∧ spelledLen r.charset (front.reverse.drop (i + 1)).reverse = m := by
  constructor
  · rintro ⟨front', mid, back', h', hbalanced, ho, hm⟩
    have hplace : Spelled r (front' ++ q :: mid) (p :: back') := h'.split (by simp)
    obtain ⟨rfl, -⟩ := h.unique hplace ho
    have hrev : (front' ++ q :: mid).reverse = mid.reverse ++ q :: front'.reverse := by simp
    refine ⟨mid.length, (closing_one_iff hpq).mpr ⟨mid.reverse, front'.reverse, hrev, List.length_reverse, hbalanced⟩, ?_⟩
    have hdrop : (mid.reverse ++ [q] ++ front'.reverse).drop (mid.length + 1) = front'.reverse := List.drop_left' (by simp)
    rw [hm, hrev, List.append_cons, hdrop, List.reverse_reverse]
  · rintro ⟨i, hi, rfl⟩
    obtain ⟨mid, rest, hrev, rfl, hbalanced⟩ := (closing_one_iff hpq).mp hi
    have hfront : front = rest.reverse ++ q :: mid.reverse := by
      rw [← front.reverse_reverse, hrev]
      simp
    subst hfront
    refine ⟨rest.reverse, mid.reverse, back, h.split (by simp), by rwa [List.reverse_reverse], rfl, ?_⟩
    rw [hrev]
    simp

/-- Where the parenthesis stands. -/
theorem Partner.place {o : Nat} (h : Partner r fw p q o m) :
    ∃ front back, Spelled r front (p :: back) ∧ o = spelledLen r.charset front := by
  cases fw
  · obtain ⟨front, mid, back, hspelled, -, ho, -⟩ := h
    exact ⟨front ++ q :: mid, back, hspelled.split (by simp), ho⟩
  · obtain ⟨front, mid, back, hspelled, -, ho, -⟩ := h
    exact ⟨front, mid ++ q :: back, hspelled, ho⟩

/-- A parenthesis has one other one only. -/
theorem Partner.unique (hpq : p ≠ q) {o m' : Nat} (h : Partner r fw p q o m) (h' : Partner r fw p q o m') : m = m' := by
  obtain ⟨front, back, hspelled, rfl⟩ := h.place
  cases fw
  · obtain ⟨i, hi, rfl⟩ := (partner_backward_iff hpq hspelled).mp h
    obtain ⟨j, hj, rfl⟩ := (partner_backward_iff hpq hspelled).mp h'
    rw [Option.some.inj (hi.symm.trans hj)]
  · obtain ⟨i, hi, rfl⟩ := (partner_forward_iff hpq hspelled).mp h
    obtain ⟨j, hj, rfl⟩ := (partner_forward_iff hpq hspelled).mp h'
    rw [Option.some.inj (hi.symm.trans hj)]

namespace Editor

/-! ## The pairs -/

theorem otherParen_symm (h : otherParen p = some (q, fw)) :
    otherParen q = some (p, !fw) ∧ p ≠ q ∧ p ≠ newline ∧ q ≠ newline ∧ p < 0x80 ∧ q < 0x80 := by
  unfold otherParen at h
  split at h
  · rename_i hp
    rcases hp with rfl | rfl | rfl <;> (cases h; decide)
  · split at h
    · rename_i hp
      rcases hp with rfl | rfl | rfl <;> (cases h; decide)
    · cases h

/-! ## The loop -/

variable {init : Int}

/-- What the loop answers when it finds the closing one behind some characters, or none. -/
def answer (fw : Bool) (init : Int) (pos : Nat → Int) (i : Option Nat) : Int :=
  i.elim init fun i => if fw then pos i else pos (i + 1)

theorem answer_map {pos : Nat → Int} {i : Option Nat} :
    answer fw init pos (i.map (· + 1)) = answer fw init (fun k => pos (k + 1)) i := by
  cases i <;> rfl

/-- The loop on the characters in its direction: it stops at the closing one, or with the last character. -/
theorem matchLoop_eq (hpq : p ≠ q) {l : List Nat} {pos : Nat → Int}
    (hstep : ∀ k, ∀ hk : k < l.length, (if fw then r.nextc (pos k) else r.prevc (pos k)) = (l[k], pos (k + 1)))
    (hend : ∀ k, k < l.length → ((pos (k + 1) ≤ 0 ∨ r.total ≤ pos (k + 1)) ↔ k + 1 = l.length)) (hl : l ≠ []) {n nest : Nat}
    (hn : l.length ≤ n) (hnest : 1 ≤ nest) :
    matchLoop r fw p q init n nest (pos 0) = some (answer fw init pos (closing p q nest l)) := by
  induction l generalizing pos n nest with
  | nil => exact absurd rfl hl
  | cons c l ih =>
    obtain ⟨n, rfl⟩ : ∃ m, n = m + 1 := ⟨n - 1, by rw [List.length_cons] at hn; omega⟩
    have hfirst : (if fw then r.nextc (pos 0) else r.prevc (pos 0)) = (c, pos 1) := hstep 0 (Nat.succ_pos _)
    -- behind a character that is not the closing one
    have hrest (k : Nat) (hk : 1 ≤ k) :
        (if pos 1 ≤ 0 ∨ r.total ≤ pos 1 then some init else matchLoop r fw p q init n k (pos 1)) =
          some (answer fw init pos ((closing p q k l).map (· + 1))) := by
      rw [answer_map]
      by_cases hlast : l = []
      · subst hlast
        rw [if_pos ((hend 0 (Nat.succ_pos _)).mpr rfl)]
        rfl
      · have hmore : ¬(pos 1 ≤ 0 ∨ r.total ≤ pos 1) := by
          intro h
          have := (hend 0 (Nat.succ_pos _)).mp h
          rw [List.length_cons] at this
          exact hlast (List.eq_nil_of_length_eq_zero (by omega))
        rw [if_neg hmore]
        refine @ih (fun k => pos (k + 1)) (fun j hj => ?_) (fun j hj => ?_) hlast n k (Nat.le_of_succ_le_succ hn) hk
        · exact hstep (j + 1) (Nat.succ_lt_succ hj)
        · have := hend (j + 1) (Nat.succ_lt_succ hj)
          rwa [List.length_cons, Nat.add_left_inj] at this
    rw [matchLoop, hfirst, closing]
    by_cases hp : c = p
    · subst hp
      have := hrest (nest + 1) (Nat.le_add_left ..)
      simpa using this
    · by_cases hq : c = q
      · subst hq
        by_cases h1 : nest ≤ 1
        · obtain rfl : nest = 1 := by omega
          simp [hp, answer]
        · have hcast : ((nest - 1 : Nat) : Int) = (nest : Int) - 1 := by omega
          have := hrest (nest - 1) (by omega)
          rw [hcast] at this
          have hpos : ¬((nest : Int) - 1 ≤ 0) := by omega
          simpa [hp, h1, hpos] using this
      · have := hrest nest hnest
        simpa [hp, hq] using this

/-! ## Both directions -/

/-- Forward from behind a place. -/
theorem matchLoop_forward (hpq : p ≠ q) {front back : List Nat} (h : Spelled r front back) (hp : newline ≠ p) (hq : newline ≠ q)
    {n : Nat} (hn : back.length < n) :
    matchLoop r true p q init n 1 (spelledLen r.charset front : Nat) =
      some (answer true init (fun k => (spelledLen r.charset (front ++ back.take k) : Nat)) (closing p q 1 back)) := by
  by_cases hback : back = []
  · subst hback
    obtain ⟨n, rfl⟩ : ∃ m, n = m + 1 := ⟨n - 1, by omega⟩
    simp [matchLoop, h.nextc_end, hp, hq, closing, answer]
  · have hplace (k : Nat) : Spelled r (front ++ back.take k) (back.drop k) :=
      h.split (by rw [List.append_assoc, List.take_append_drop])
    have hcons (k : Nat) (hk : k < back.length) : Spelled r (front ++ back.take k) (back[k] :: back.drop (k + 1)) := by
      rw [← List.drop_eq_getElem_cons hk]
      exact hplace k
    have hloop := @matchLoop_eq r true p q init hpq back (fun k => (spelledLen r.charset (front ++ back.take k) : Nat))
      (fun k hk => ?_) (fun k hk => ?_) hback n 1 hn.le (Nat.le_refl 1)
    · rwa [List.take_zero, List.append_nil] at hloop
    · rw [if_pos rfl, (hcons k hk).nextc, List.append_assoc, List.take_append_getElem hk]
    · rw [(hplace (k + 1)).atStart_iff, (hplace (k + 1)).atEnd_iff, List.drop_eq_nil_iff, List.append_eq_nil_iff,
        List.take_eq_nil_iff]
      simp only [hback, Nat.succ_ne_zero, or_self, and_false, false_or]
      omega

/-- Backward from a place. -/
theorem matchLoop_backward (hpq : p ≠ q) {front back : List Nat} (h : Spelled r front back) (hback : back ≠ [])
    (hp : newline ≠ p) (hq : newline ≠ q) {n : Nat} (hn : front.length < n) :
    matchLoop r false p q init n 1 (spelledLen r.charset front : Nat) =
      some (answer false init (fun k => (spelledLen r.charset (front.reverse.drop k).reverse : Nat)) (closing p q 1 front.reverse)) := by
  by_cases hfront : front = []
  · subst hfront
    obtain ⟨n, rfl⟩ : ∃ m, n = m + 1 := ⟨n - 1, by omega⟩
    have hstart : r.prevc (spelledLen r.charset [] : Nat) = (newline, 0) := Spelled.prevc_start r
    simp [matchLoop, hstart, hp, hq, closing, answer]
  · have hplace (k : Nat) : Spelled r (front.reverse.drop k).reverse ((front.reverse.take k).reverse ++ back) :=
      h.split (by rw [← List.append_assoc, ← List.reverse_append, List.take_append_drop, List.reverse_reverse])
    have hlast (k : Nat) (hk : k < front.reverse.length) :
        (front.reverse.drop k).reverse = (front.reverse.drop (k + 1)).reverse ++ [front.reverse[k]] := by
      rw [List.drop_eq_getElem_cons hk, List.reverse_cons]
    have hloop := @matchLoop_eq r false p q init hpq front.reverse
      (fun k => (spelledLen r.charset (front.reverse.drop k).reverse : Nat)) (fun k hk => ?_) (fun k hk => ?_)
      (by simpa using hfront) n 1 (by rw [List.length_reverse]; exact hn.le) (Nat.le_refl 1)
    · rwa [List.drop_zero, List.reverse_reverse] at hloop
    · have hread := hplace k
      rw [hlast k hk] at hread
      rw [if_neg Bool.false_ne_true, hlast k hk, hread.prevc]
    · have hsome : (front.reverse.take (k + 1)).reverse ++ back ≠ [] := by simp [hback]
      rw [(hplace (k + 1)).atStart_iff, (hplace (k + 1)).atEnd_iff, List.reverse_eq_nil_iff, List.drop_eq_nil_iff]
      simp only [hsome, or_false]
      omega

/-! ## The command -/

/-- What the loop answers: where the parenthesis has its other one, or the offset it began with. -/
theorem matchLoop_partner (hpq : p ≠ q) (hp : newline ≠ p) (hq : newline ≠ q) (h : Spelled r front (p :: back)) {o : Nat}
    (ho : o = spelledLen r.charset front) (hone : spelledLen r.charset (front ++ [p]) = o + 1) :
    ∃ m : Nat, matchLoop r fw p q o r.turns 1 (if fw then (o : Int) + 1 else o) = some (m : Int) ∧
      (Partner r fw p q o m ∨ m = o ∧ ∀ m', ¬Partner r fw p q o m') := by
  subst ho
  have hlen := h.length_le
  rw [List.length_append, List.length_cons] at hlen
  have hturns : r.turns = r.text.length + 1 := rfl
  cases fw with
  | true =>
    have hloop := @matchLoop_forward r p q (spelledLen r.charset front : Nat) hpq _ _ h.shift hp hq r.turns (by omega)
    rw [hone, Nat.cast_add, Nat.cast_one] at hloop
    rw [if_pos rfl, hloop]
    cases hclosing : closing p q 1 back with
    | some i => exact ⟨_, rfl, Or.inl ((partner_forward_iff hpq h).mpr ⟨i, hclosing, rfl⟩)⟩
    | none =>
      refine ⟨_, rfl, Or.inr ⟨rfl, fun m hm => ?_⟩⟩
      obtain ⟨i, hi, -⟩ := (partner_forward_iff hpq h).mp hm
      cases hclosing.symm.trans hi
  | false =>
    have hloop := @matchLoop_backward r p q (spelledLen r.charset front : Nat) hpq _ _ h (List.cons_ne_nil _ _) hp hq
      r.turns (by omega)
    rw [if_neg Bool.false_ne_true, hloop]
    cases hclosing : closing p q 1 front.reverse with
    | some i => exact ⟨_, rfl, Or.inl ((partner_backward_iff hpq h).mpr ⟨i, hclosing, rfl⟩)⟩
    | none =>
      refine ⟨_, rfl, Or.inr ⟨rfl, fun m hm => ?_⟩⟩
      obtain ⟨i, hi, -⟩ := (partner_backward_iff hpq h).mp hm
      cases hclosing.symm.trans hi

variable {s : Editor} {o : Nat}

/-- What the command reads is the byte at the point. -/
theorem readByte (hwf : s.buffer.WellFormed) (ho : s.offset = o) (hlt : o < s.buffer.bytes.length) (junk : Byte) :
    ((ebRead s.buffer.toPages s.offset.toNat 1).2).getD 0 junk = s.buffer.bytes.getD o 0 := by
  obtain ⟨d, hd⟩ := hwf
  have hle : s.offset.toNat ≤ s.buffer.totalSize := by
    have := hd.ok.length_bytes
    rw [ho, Int.toNat_natCast, ← this]
    exact hlt.le
  rw [(ebRead_same hd.ok 1 hle).1, ho, Int.toNat_natCast, slice_one _ hlt, getD_of_lt _ hlt]
  rfl

/-- On a parenthesis the command goes to its other one, or stays where there is none. -/
theorem doMatchParenthesis_spelled (hwf : s.buffer.WellFormed) (h : Spelled s.reader front (p :: back))
    (hp : s.offset = (spelledLen s.charset front : Nat)) (hparen : otherParen p = some (q, fw)) (junk : Byte) :
    ∃ m : Nat, s.doMatchParenthesis junk = some { s with offset := m } ∧
      (Partner s.reader fw p q (spelledLen s.charset front) m ∨
        m = spelledLen s.charset front ∧ ∀ m', ¬Partner s.reader fw p q (spelledLen s.charset front) m') := by
  obtain ⟨-, hpq, hp', hq, hascii, -⟩ := otherParen_symm hparen
  have hone : spelledLen s.charset (front ++ [p]) = spelledLen s.charset front + 1 := by
    rw [spelledLen_append, spelledLen, spelledLen, spelling_singleton, charSpelling_ascii s.charset hascii, List.length_singleton]
  have htext : s.buffer.bytes = spelling s.charset front ++ p :: spelling s.charset back := by
    have := h.text
    rwa [spelling_cons, charSpelling_ascii _ hascii] at this
  have hlt : spelledLen s.charset front < s.buffer.bytes.length := by
    rw [htext, List.length_append, List.length_cons, spelledLen]
    omega
  have hbyte : s.buffer.bytes.getD (spelledLen s.charset front) 0 = p := by
    rw [htext, spelledLen]
    simp
  obtain ⟨m, hloop, hm⟩ := @matchLoop_partner s.reader fw p q _ _ hpq hp'.symm hq.symm h (spelledLen s.charset front) rfl hone
  refine ⟨m, ?_, hm⟩
  change matchLoop s.reader fw p q (spelledLen s.charset front : Nat) s.reader.turns 1
    (if fw then ((spelledLen s.charset front : Nat) : Int) + 1 else (spelledLen s.charset front : Nat)) = some (m : Int) at hloop
  rw [← hp] at hloop
  simp only [doMatchParenthesis, readByte hwf hp hlt, hbyte, hparen, hloop, Option.bind_eq_bind, Option.bind_some]

/-- A byte of 7 bits at a boundary is a character. -/
theorem spelled_ascii {r : Reader} (hb : Boundary r.charset r.text o) (hlt : o < r.text.length) (hascii : r.text.getD o 0 < 0x80) :
    ∃ front back, Spelled r front (r.text.getD o 0 :: back) ∧ o = spelledLen r.charset front := by
  obtain ⟨front, back, h, rfl⟩ := hb.spelled
  cases back with
  | nil =>
    have hend := h.atEnd_iff.mpr rfl
    rw [Reader.total, Nat.cast_le] at hend
    omega
  | cons c back =>
    have hread : r.nextc (spelledLen r.charset front : Nat) =
        (r.text.getD (spelledLen r.charset front) 0, ((spelledLen r.charset front : Nat) : Int) + 1) := by
      have hbyte : r.byte (spelledLen r.charset front : Nat) = r.text.getD (spelledLen r.charset front) 0 := rfl
      rw [Reader.nextc, if_neg (by rw [Reader.total]; omega), hbyte, if_pos (Or.inr hascii)]
    rw [h.nextc, Prod.mk.injEq] at hread
    rw [← hread.1]
    exact ⟨front, back, h, rfl⟩

/-- From where the parenthesis has its other one the command comes back. -/
theorem doMatchParenthesis_returns (hwf : s.buffer.WellFormed) (ho : s.offset = o) {m : Nat} (hparen : otherParen p = some (q, fw))
    (h : Partner s.reader fw p q o m) (junk : Byte) : ({ s with offset := m } : Editor).doMatchParenthesis junk = some s := by
  obtain ⟨hother, hpq, -⟩ := otherParen_symm hparen
  obtain ⟨front, back, hspelled, rfl⟩ := h.symm.place
  obtain ⟨o', hrun, ho'⟩ := doMatchParenthesis_spelled (s := { s with offset := (spelledLen s.charset front : Nat) }) hwf hspelled
    rfl hother junk
  have hsame : o' = o := by
    rcases ho' with ho' | ⟨-, hnone⟩
    · exact ho'.unique hpq.symm h.symm
    · exact absurd h.symm (hnone o)
  have hs : ({ s with offset := (o : Nat) } : Editor) = s := by rw [← ho]
  rw [hsame] at hrun
  exact hrun.trans (congrArg some hs)

/-- At the other parenthesis the command is back where it began after the second call. -/
theorem doMatchParenthesis_involutive (hwf : s.buffer.WellFormed) (ho : s.offset = o) (hb : Boundary s.charset s.buffer.bytes o)
    (hlt : o < s.buffer.bytes.length) (hparen : otherParen (s.buffer.bytes.getD o 0) = some (q, fw)) (junk junk' : Byte) :
    ∃ m : Nat, s.doMatchParenthesis junk = some { s with offset := m } ∧
      (Partner s.reader fw (s.buffer.bytes.getD o 0) q o m ∨
        m = o ∧ ∀ m', ¬Partner s.reader fw (s.buffer.bytes.getD o 0) q o m') ∧
      ({ s with offset := m } : Editor).doMatchParenthesis junk' = some s := by
  obtain ⟨-, -, -, -, hascii, -⟩ := otherParen_symm hparen
  obtain ⟨front, back, h, rfl⟩ := spelled_ascii (r := s.reader) hb hlt hascii
  obtain ⟨m, hrun, hm⟩ := doMatchParenthesis_spelled hwf h ho hparen junk
  refine ⟨m, hrun, hm, ?_⟩
  rcases hm with hm | ⟨rfl, hnone⟩
  · exact doMatchParenthesis_returns hwf ho hparen hm junk'
  · have hs : ({ s with offset := (spelledLen s.charset front : Nat) } : Editor) = s := by
      rw [show ((spelledLen s.charset front : Nat) : Int) = s.offset from ho.symm]
    rw [hs]
    obtain ⟨m', hrun', hm'⟩ := doMatchParenthesis_spelled hwf h ho hparen junk'
    rcases hm' with hm' | ⟨rfl, -⟩
    · exact absurd hm' (hnone m')
    · exact hrun'.trans (congrArg some hs)

/-- Around a pair and a character of two bytes. -/
theorem doMatchParenthesis_acute : ∃ m : Nat,
    (acuteWindow [0x28, 0x28, 0x29, 0xc3, 0xa9, 0x29] 0).doMatchParenthesis 0 =
      some { acuteWindow [0x28, 0x28, 0x29, 0xc3, 0xa9, 0x29] 0 with offset := m } ∧
    (Partner (acuteWindow [0x28, 0x28, 0x29, 0xc3, 0xa9, 0x29] 0).reader true 0x28 0x29 0 m ∨
      m = 0 ∧ ∀ m', ¬Partner (acuteWindow [0x28, 0x28, 0x29, 0xc3, 0xa9, 0x29] 0).reader true 0x28 0x29 0 m') ∧
    ({ acuteWindow [0x28, 0x28, 0x29, 0xc3, 0xa9, 0x29] 0 with offset := m } : Editor).doMatchParenthesis 0 =
      some (acuteWindow [0x28, 0x28, 0x29, 0xc3, 0xa9, 0x29] 0) :=
  doMatchParenthesis_involutive (acuteWindow_wf _ 0) rfl
    ⟨by decide, fun _ => ⟨[], [0x28, 0x28, 0x29, 0xe9, 0x29], by decide, by decide, by decide⟩⟩ (by decide) rfl 0 0

end Editor

end Hoe
