import Hoe.Search
import Hoe.Lemmas.Refine

/-!
# What a search finds

An offset is a match when the bytes of the pattern stand there, with the case ignored or not, and with no letter of a word on
either side when a whole word is asked for. The loop of `eb_search` looks at one offset after the other, so that it stops at the
first match in its direction.
-/

namespace Hoe

open Splice

/-! ## Matches -/

/-- The case is ignored: when the flags say so, or the pattern has a lower case letter and no upper case letter. -/
def CaseInsensitive (flags : SearchFlags) (buf : List Byte) : Prop :=
  flags.ignoreCase = true ∨ (flags.smartCase = true ∧ (∃ c ∈ buf, islower c = true) ∧ ∀ c ∈ buf, isupper c = false)

instance (flags : SearchFlags) (buf : List Byte) : Decidable (CaseInsensitive flags buf) := by
  unfold CaseInsensitive
  infer_instance

/-- The pattern stands at the offset. -/
def IsMatch (text : List Byte) (flags : SearchFlags) (buf : List Byte) (o : Nat) : Prop :=
  o + buf.length ≤ text.length ∧
    (if CaseInsensitive flags buf then (slice text o buf.length).map toupper = buf.map toupper
      else slice text o buf.length = buf) ∧
    (flags.word = true → 0 < o → isword (text.getD (o - 1) 0) = false) ∧
    (flags.word = true → o + buf.length < text.length → isword (text.getD (o + buf.length) 0) = false)

instance (text : List Byte) (flags : SearchFlags) (buf : List Byte) (o : Nat) : Decidable (IsMatch text flags buf o) := by
  unfold IsMatch
  infer_instance

/-- The search takes upper and lower case for one as the flags and the pattern say. -/
theorem ignoresCase_iff (flags : SearchFlags) (buf : List Byte) : ignoresCase flags buf = true ↔ CaseInsensitive flags buf := by
  have hupper : buf.countP isupper = 0 ↔ ∀ c ∈ buf, isupper c = false := by
    rw [List.countP_eq_zero]
    simp
  simp [ignoresCase, CaseInsensitive, List.countP_pos_iff, hupper]

/-- With no flags a match is the pattern itself. -/
theorem isMatch_none (text buf : List Byte) (o : Nat) :
    IsMatch text .none buf o ↔ o + buf.length ≤ text.length ∧ slice text o buf.length = buf := by
  simp [IsMatch, CaseInsensitive, SearchFlags.none]

/-! ## Reading -/

/-- A byte of the text is read. -/
theorem readByte_eq {t : Pages} (ht : t.Ok) {o : Nat} (ho : o < t.totalSize) : readByte t o = t.bytes.getD o 0 := by
  obtain ⟨t', ht', -⟩ := ebRead_spec ht 1 (Nat.le_of_lt ho)
  have hlen := ht.length_bytes
  rw [readByte, Int.toNat_natCast, ht', slice, List.drop_eq_getElem_cons (by omega), List.getD_eq_getElem _ _ (by omega)]
  rfl

/-- The bytes at an offset are compared one by one. -/
theorem compareBytes_iff {t : Pages} (ht : t.Ok) (ignoreCase : Bool) {buf1 : List Byte} {o : Nat}
    (ho : o + buf1.length ≤ t.totalSize) :
    compareBytes t ignoreCase buf1 o = true ↔ (slice t.bytes o buf1.length).map (searchByte ignoreCase) = buf1 := by
  have hlen := ht.length_bytes
  induction buf1 generalizing o with
  | nil => simp [compareBytes, slice]
  | cons c buf1 ih =>
    rw [List.length_cons] at ho
    have hslice : slice t.bytes o (c :: buf1).length = t.bytes.getD o 0 :: slice t.bytes (o + 1) buf1.length := by
      rw [slice, List.drop_eq_getElem_cons (by omega), List.length_cons, List.take_succ_cons,
        List.getD_eq_getElem _ _ (by omega)]
      rfl
    have hnext : compareBytes t ignoreCase buf1 ((o + 1 : Nat) : Int) = true ↔
        (slice t.bytes (o + 1) buf1.length).map (searchByte ignoreCase) = buf1 := ih (by omega)
    rw [compareBytes, readByte_eq ht (by omega), hslice, List.map_cons, List.cons.injEq, ← hnext, Nat.cast_succ]
    simp

/-- The loop returns at an offset exactly when it is a match. -/
theorem foundAt_iff {t : Pages} (ht : t.Ok) (flags : SearchFlags) {buf : List Byte} {o : Nat}
    (ho : o + buf.length ≤ t.totalSize) :
    foundAt t (ignoresCase flags buf) flags.word (buf.map (searchByte (ignoresCase flags buf))) o = true ↔
      IsMatch t.bytes flags buf o := by
  have hlen := ht.length_bytes
  have hbytes : compareBytes t (ignoresCase flags buf) (buf.map (searchByte (ignoresCase flags buf))) o = true ↔
      (if CaseInsensitive flags buf then (slice t.bytes o buf.length).map toupper = buf.map toupper
        else slice t.bytes o buf.length = buf) := by
    rw [compareBytes_iff ht _ (by rwa [List.length_map]), List.length_map]
    by_cases hc : CaseInsensitive flags buf
    · rw [(ignoresCase_iff flags buf).mpr hc, if_pos hc]
      rfl
    · rw [Bool.eq_false_iff.mpr (fun h => hc ((ignoresCase_iff flags buf).mp h)), if_neg hc]
      have hid : searchByte false = id := rfl
      rw [hid, List.map_id, List.map_id]
  have hbefore : (!flags.word || decide ((o : Int) = 0) || !isword (readByte t ((o : Int) - 1))) = true ↔
      (flags.word = true → 0 < o → isword (t.bytes.getD (o - 1) 0) = false) := by
    rcases Nat.eq_zero_or_pos o with rfl | hpos
    · simp
    · rw [show (o : Int) - 1 = ((o - 1 : Nat) : Int) by omega, readByte_eq ht (by omega)]
      simp [hpos, Nat.pos_iff_ne_zero.mp hpos, ← Bool.not_eq_true, ← imp_iff_not_or]
  have hafter : (!flags.word || decide ((t.totalSize : Int) ≤ o + (buf.map (searchByte (ignoresCase flags buf))).length) ||
        !isword (readByte t (o + (buf.map (searchByte (ignoresCase flags buf))).length))) = true ↔
      (flags.word = true → o + buf.length < t.bytes.length → isword (t.bytes.getD (o + buf.length) 0) = false) := by
    rw [List.length_map, ← Nat.cast_add]
    by_cases hend : t.totalSize ≤ o + buf.length
    · have hle : (t.totalSize : Int) ≤ ((o + buf.length : Nat) : Int) := by omega
      simp only [hle, decide_true, Bool.or_true, Bool.true_or, true_iff]
      intro _ hlt
      omega
    · have hlt : o + buf.length < t.bytes.length := by omega
      have hle : ¬(t.totalSize : Int) ≤ ((o + buf.length : Nat) : Int) := by omega
      rw [readByte_eq ht (by omega)]
      cases flags.word <;> simp only [hle, hlt, decide_false, Bool.not_true, Bool.not_false, Bool.or_false, Bool.true_or,
        Bool.false_or, Bool.not_eq_true', forall_const, Bool.false_eq_true, false_implies]
  rw [foundAt, Bool.and_eq_true, Bool.and_eq_true, hbytes, hbefore, hafter, IsMatch, hlen]
  tauto

/-! ## The loop -/

/-- The offset is the first of the set, in the direction. -/
def Direction.First (dir : Direction) (hits : Set Nat) (o : Nat) : Prop :=
  match dir with
  | .forward => IsLeast hits o
  | .backward => IsGreatest hits o

/-- There is one first hit at most. -/
theorem Direction.First.unique {dir : Direction} {hits : Set Nat} {o o' : Nat} (h : dir.First hits o) (h' : dir.First hits o') :
    o = o' := by
  cases dir
  · exact IsLeast.unique h h'
  · exact IsGreatest.unique h h'

theorem Direction.First.mem {dir : Direction} {hits : Set Nat} {o : Nat} (h : dir.First hits o) : o ∈ hits := by
  cases dir
  · exact h.1
  · exact h.1

/-- What a search may answer that is to find one of the offsets: the first of them in its direction, and -1 when there is none. -/
def Answers (dir : Direction) (hits : Set Nat) (res : Int) : Prop :=
  (res = -1 ∧ hits = ∅) ∨ ∃ o : Nat, res = o ∧ dir.First hits o

/-- A search has one answer. -/
theorem Answers.unique {dir : Direction} {hits : Set Nat} {res res' : Int} (h : Answers dir hits res)
    (h' : Answers dir hits res') : res = res' := by
  rcases h with ⟨rfl, hnone⟩ | ⟨o, rfl, ho⟩
  · rcases h' with ⟨rfl, -⟩ | ⟨o', rfl, ho'⟩
    · rfl
    · exact absurd ho'.mem (by rw [hnone]; exact Set.notMem_empty _)
  · rcases h' with ⟨rfl, hnone'⟩ | ⟨o', rfl, ho'⟩
    · exact absurd ho.mem (by rw [hnone']; exact Set.notMem_empty _)
    · rw [ho.unique ho']

section
variable (t : Pages) (ignoreCase word : Bool) (buf1 : List Byte)

/-- The loop stops at once, or it goes on from the next offset. -/
theorem searchLoop_next (dir : Direction) (x : Int) :
    (searchLoop t dir ignoreCase word buf1 (fun _ => false) x = -1 ∧
      (x + dir.step < 0 ∨ t.totalSize - buf1.length < x + dir.step)) ∨
    (0 ≤ x + dir.step ∧ x + dir.step ≤ t.totalSize - buf1.length ∧ foundAt t ignoreCase word buf1 (x + dir.step) = true ∧
      searchLoop t dir ignoreCase word buf1 (fun _ => false) x = x + dir.step) ∨
    (0 ≤ x + dir.step ∧ x + dir.step ≤ t.totalSize - buf1.length ∧ foundAt t ignoreCase word buf1 (x + dir.step) = false ∧
      searchLoop t dir ignoreCase word buf1 (fun _ => false) x =
        searchLoop t dir ignoreCase word buf1 (fun _ => false) (x + dir.step)) := by
  rw [searchLoop]
  split
  · exact Or.inl ⟨rfl, Or.inl ‹_›⟩
  · split
    · exact Or.inl ⟨rfl, Or.inr ‹_›⟩
    · split
      · exact absurd (And.right ‹_›) (by decide)
      · split
        · exact Or.inr (Or.inl ⟨by omega, by omega, ‹_›, rfl⟩)
        · exact Or.inr (Or.inr ⟨by omega, by omega, Bool.eq_false_iff.mpr ‹_›, rfl⟩)

/-- The offsets where the loop returns. -/
def hitOffsets : Set Nat :=
  {o | o + buf1.length ≤ t.totalSize ∧ foundAt t ignoreCase word buf1 o = true}

/-- An offset that is not in the set makes no difference to where one looks for them. -/
theorem ahead_eq {hits : Set Nat} {o : Nat} (ho : o ∉ hits) {p q : Nat → Prop} (h : ∀ o', o' ≠ o → (p o' ↔ q o')) :
    {o' | p o' ∧ o' ∈ hits} = {o' | q o' ∧ o' ∈ hits} := by
  ext o'
  rcases eq_or_ne o' o with rfl | hne
  · exact iff_of_false (fun h => ho h.2) (fun h => ho h.2)
  · exact and_congr_left fun _ => h o' hne

/-- Forward, the loop finds the first offset behind the one it begins at. -/
theorem searchLoop_forward {x : Int} (hx : -1 ≤ x) :
    Answers .forward {o | x < (o : Int) ∧ o ∈ hitOffsets t ignoreCase word buf1}
      (searchLoop t .forward ignoreCase word buf1 (fun _ => false) x) := by
  induction hn : (t.totalSize - buf1.length - x).toNat using Nat.strong_induction_on generalizing x with
  | _ n ih =>
    obtain ⟨o, ho⟩ : ∃ o : Nat, x + 1 = o := ⟨(x + 1).toNat, by omega⟩
    have hnext := searchLoop_next t ignoreCase word buf1 .forward x
    simp only [Direction.step, ho] at hnext
    rcases hnext with ⟨hres, hout⟩ | ⟨-, hin, hhit, hres⟩ | ⟨-, hin, hhit, hres⟩ <;> rw [hres]
    · refine Or.inl ⟨rfl, Set.eq_empty_of_forall_notMem ?_⟩
      rintro o' ⟨hlt, hend, -⟩
      omega
    · exact Or.inr ⟨o, rfl, ⟨by omega, by omega, hhit⟩, fun o' h => by have := h.1; omega⟩
    · have hmiss : o ∉ hitOffsets t ignoreCase word buf1 := fun h => Bool.false_ne_true (hhit.symm.trans h.2)
      have hset := ahead_eq hmiss (p := fun o' => x < (o' : Int)) (q := fun o' => ((o : Nat) : Int) < (o' : Int)) (by omega)
      rw [hset]
      exact ih _ (by omega) (by omega) rfl

/-- Backward, it finds the last offset in front of the one it begins at. -/
theorem searchLoop_backward {x : Int} (hx : x ≤ t.totalSize - buf1.length) :
    Answers .backward {o | (o : Int) < x ∧ o ∈ hitOffsets t ignoreCase word buf1}
      (searchLoop t .backward ignoreCase word buf1 (fun _ => false) x) := by
  induction hn : (x + 1).toNat using Nat.strong_induction_on generalizing x with
  | _ n ih =>
    have hnext := searchLoop_next t ignoreCase word buf1 .backward x
    simp only [Direction.step] at hnext
    rcases hnext with ⟨hres, hout⟩ | ⟨hpos, hin, hhit, hres⟩ | ⟨hpos, hin, hhit, hres⟩ <;> rw [hres]
    · refine Or.inl ⟨rfl, Set.eq_empty_of_forall_notMem ?_⟩
      rintro o' ⟨hlt, hend, -⟩
      omega
    · obtain ⟨o, ho⟩ : ∃ o : Nat, x + -1 = o := ⟨(x + -1).toNat, by omega⟩
      rw [ho] at hhit ⊢
      exact Or.inr ⟨o, rfl, ⟨by omega, by omega, hhit⟩, fun o' h => by have := h.1; omega⟩
    · obtain ⟨o, ho⟩ : ∃ o : Nat, x + -1 = o := ⟨(x + -1).toNat, by omega⟩
      rw [ho] at hhit ⊢
      have hmiss : o ∉ hitOffsets t ignoreCase word buf1 := fun h => Bool.false_ne_true (hhit.symm.trans h.2)
      have hset := ahead_eq hmiss (p := fun o' => (o' : Int) < x) (q := fun o' => (o' : Int) < (o : Nat)) (by omega)
      rw [hset]
      exact ih _ (by omega) (by omega) rfl

end

/-- The hits of the loop are the matches in the text. -/
theorem mem_hitOffsets {t : Pages} (ht : t.Ok) (flags : SearchFlags) (buf : List Byte) (o : Nat) :
    o ∈ hitOffsets t (ignoresCase flags buf) flags.word (buf.map (searchByte (ignoresCase flags buf))) ↔
      IsMatch t.bytes flags buf o := by
  rw [hitOffsets, Set.mem_ofPred_eq, List.length_map]
  constructor
  · rintro ⟨hend, hhit⟩
    exact (foundAt_iff ht flags hend).mp hhit
  · intro h
    have hend : o + buf.length ≤ t.totalSize := by
      rw [← ht.length_bytes]
      exact h.1
    exact ⟨hend, (foundAt_iff ht flags hend).mpr h⟩

/-! ## The search -/

section
variable {t : Pages} (ht : t.Ok) (flags : SearchFlags) {buf : List Byte} (hpos : 0 < buf.length)
  (hsize : buf.length < searchBufSize)
include ht hpos hsize

/-- Forward, `eb_search` finds the first match at the offset or behind it. -/
theorem ebSearch_forward (offset : Nat) :
    Answers .forward {o | offset ≤ o ∧ IsMatch t.bytes flags buf o} (ebSearch t offset .forward buf flags fun _ => false) := by
  have h := searchLoop_forward t (ignoresCase flags buf) flags.word (buf.map (searchByte (ignoresCase flags buf)))
    (show -1 ≤ (offset : Int) - 1 by omega)
  simp only [mem_hitOffsets ht] at h
  rw [ebSearch, if_neg (by omega)]
  convert h using 4
  omega

/-- Backward, it finds the last match in front of the offset, and in front of the last place where the pattern fits when the
offset lies behind that. -/
theorem ebSearch_backward (offset : Int) :
    Answers .backward {o | (o : Int) < min offset (t.totalSize - buf.length) ∧ IsMatch t.bytes flags buf o}
      (ebSearch t offset .backward buf flags fun _ => false) := by
  have h := searchLoop_backward t (ignoresCase flags buf) flags.word (buf.map (searchByte (ignoresCase flags buf)))
    (show min offset (t.totalSize - buf.length) ≤ t.totalSize - (buf.map (searchByte (ignoresCase flags buf))).length by
      rw [List.length_map]
      omega)
  simp only [mem_hitOffsets ht] at h
  rw [ebSearch, if_neg (by omega)]
  convert h using 2
  rw [min_def]
  split <;> split <;> omega

end

/-- Without a pattern nothing is found. -/
theorem ebSearch_nil (t : Pages) (offset : Int) (dir : Direction) (flags : SearchFlags) (abort : Int → Bool) :
    ebSearch t offset dir [] flags abort = -1 := if_pos (Or.inl rfl)

end Hoe
