import Hoe.Lemmas.Rectangles
import Hoe.Lib.Insertions

/-!
# Inserting a string in a rectangle

`do_string_insert_rect` adds the column of the mark to the beginning of each line from that of the mark to that of the point, and
counts the lines of the text with the strings it has inserted so far. So it inserts the string in each line of the region when
the mark is not below the point and each line goes as far as the column of the mark, unless the string has a newline, which
moves the lines behind it.
-/

namespace Hoe

open Splice Lines

/-- One offset on each line from `lo` on: behind the column, or somewhere on a line that has it not. -/
def Placed (text : List Byte) (lo c : Nat) (os : List Nat) : Prop :=
  ∀ j o, os[j]? = some o → lineStart text (lo + j) ≤ o ∧ o ≤ lineStart text (lo + j) + lineLength text (lo + j) ∧
    (c ≤ lineLength text (lo + j) → o = lineStart text (lo + j) + c)

/-- The string is on each line of the region, and what else there is has not changed. -/
def InsertsRect (s : Editor) (reply : List Byte) (point mark : Nat) : Prop :=
  ∃ s' os, s.doStringInsertRect reply = some s' ∧
    os.length = max (posOf s.buffer.bytes mark).1 (posOf s.buffer.bytes point).1 + 1 -
      min (posOf s.buffer.bytes mark).1 (posOf s.buffer.bytes point).1 ∧
    Placed s.buffer.bytes (min (posOf s.buffer.bytes mark).1 (posOf s.buffer.bytes point).1) (posOf s.buffer.bytes mark).2 os ∧
    s'.buffer.bytes = insertEach os reply s.buffer.bytes ∧
    Editor.trace s s' = insertEach os (List.replicate reply.length none) ((List.range s.buffer.bytes.length).map some)

/-- The lines are where the insertions expect them: with the strings in front of it inserted, each line begins as far in front of
its place as the column says. -/
def PlacesFit (text reply : List Byte) (lo c : Nat) (os : List Nat) : Prop :=
  ∀ j o, os[j]? = some o → lineStart (insertEach (os.take j) reply text) (lo + j) + c = o + j * reply.length

/-! ## Places on lines -/

variable {text reply : List Byte} {lo c k : Nat} {os : List Nat}

theorem Placed.le (h : Placed text lo c os) (hcount : lo + os.length ≤ text.count newline + 1) {o : Nat} (ho : o ∈ os) :
    o ≤ text.length := by
  obtain ⟨j, hj⟩ := List.mem_iff_getElem?.mp ho
  obtain ⟨hlt, -⟩ := List.getElem?_eq_some_iff.mp hj
  obtain ⟨-, hle, -⟩ := h j o hj
  have := line_le text (k := lo + j) (by omega)
  omega

/-- Places on later lines are further on. -/
theorem Placed.sorted (h : Placed text lo c os) (hcount : lo + os.length ≤ text.count newline + 1) : os.Pairwise (· < ·) := by
  refine List.pairwise_iff_getElem.mpr fun i j hi hj hij => ?_
  obtain ⟨-, hle, -⟩ := h i os[i] (List.getElem?_eq_getElem hi)
  obtain ⟨hge, -, -⟩ := h j os[j] (List.getElem?_eq_getElem hj)
  have := lineStart_lt text (show lo + i < lo + j by omega) (by omega)
  omega

/-- Strings without a newline move the beginning of a line by their length. -/
theorem lineStart_insertEach (hk : k ≤ text.count newline) (hos : ∀ o ∈ os, o < lineStart text k) (hnl : newline ∉ reply) :
    lineStart (insertEach os reply text) k = lineStart text k + os.length * reply.length := by
  induction os with
  | nil => simp
  | cons o os ih =>
    obtain ⟨ho, hos⟩ := List.forall_mem_cons.mp hos
    have hih := ih hos
    have hk' : k ≤ (insertEach os reply text).count newline := by
      rw [count_insertEach]
      exact Nat.le_add_right_of_le hk
    rw [insertEach_cons, lineStart_insertAt_front hk' (by omega) hnl, hih, List.length_cons, Nat.succ_mul, Nat.add_assoc]

variable {front rest : List Nat} {o : Nat}

theorem PlacesFit.next (h : PlacesFit text reply lo c (front ++ o :: rest)) :
    lineStart (insertEach front reply text) (lo + front.length) + c = o + front.length * reply.length := by
  have hget : (front ++ o :: rest)[front.length]? = some o := by
    rw [List.getElem?_append_right (Nat.le_refl _), Nat.sub_self, List.getElem?_cons_zero]
  have hfit := h front.length o hget
  rwa [List.take_left] at hfit

/-- Without a newline in the string the places fit when each line has the column. -/
theorem exists_fits_iff {hi : Nat} (hhi : hi ≤ text.count newline) (hnl : newline ∉ reply) :
    (∃ os, os.length = hi + 1 - lo ∧ Placed text lo c os ∧ PlacesFit text reply lo c os) ↔
      ∀ k, lo ≤ k → k ≤ hi → c ≤ lineLength text k := by
  constructor
  · rintro ⟨os, hlen, hplaced, hfits⟩ k hlo hle
    obtain ⟨j, rfl⟩ := Nat.exists_eq_add_of_le hlo
    have hlt : j < os.length := by omega
    have hget := List.getElem?_eq_getElem hlt
    obtain ⟨-, hwithin, -⟩ := hplaced j os[j] hget
    have hfit := hfits j os[j] hget
    have hbound : lo + os.length ≤ text.count newline + 1 := by omega
    rw [lineStart_insertEach (by omega) _ hnl, List.length_take_of_le (Nat.le_of_lt hlt)] at hfit
    · omega
    · intro o ho
      obtain ⟨i, hi, rfl⟩ := List.mem_take_iff_getElem.mp ho
      obtain ⟨-, hle', -⟩ := hplaced i os[i] (List.getElem?_eq_getElem (by omega))
      have := lineStart_lt text (show lo + i < lo + j by omega) (by omega)
      omega
  · intro hlong
    refine ⟨(List.range' lo (hi + 1 - lo)).map (lineStart text · + c), by simp, ?_, ?_⟩
    · intro j o hget
      rw [List.getElem?_map, Option.map_eq_some_iff] at hget
      obtain ⟨k, hk, rfl⟩ := hget
      obtain ⟨hlt, rfl⟩ := List.getElem?_eq_some_iff.mp hk
      rw [List.length_range'] at hlt
      rw [List.getElem_range', Nat.one_mul]
      have := hlong (lo + j) (by omega) (by omega)
      exact ⟨by omega, by omega, fun _ => rfl⟩
    · intro j o hget
      rw [List.getElem?_map, Option.map_eq_some_iff] at hget
      obtain ⟨k, hk, rfl⟩ := hget
      obtain ⟨hlt, rfl⟩ := List.getElem?_eq_some_iff.mp hk
      rw [List.length_range'] at hlt
      rw [lineStart_insertEach (by omega) _ hnl, List.getElem_range', Nat.one_mul, List.length_take, List.length_map,
        List.length_range', Nat.min_eq_left (by omega)]
      · omega
      · intro o ho
        rw [← List.map_take] at ho
        obtain ⟨k, hk, rfl⟩ := List.mem_map.mp ho
        obtain ⟨i, hi, rfl⟩ := List.mem_take_iff_getElem.mp hk
        rw [List.getElem_range', Nat.one_mul]
        rw [List.length_range'] at hi
        have := hlong (lo + i) (by omega) (by omega)
        have := lineStart_lt text (show lo + i < lo + j by omega) (by omega)
        omega

/-- One line fits. -/
theorem exists_fits_one (hlong : c ≤ lineLength text lo) :
    ∃ os, os.length = 1 ∧ Placed text lo c os ∧ PlacesFit text reply lo c os := by
  refine ⟨[lineStart text lo + c], rfl, ?_, ?_⟩
  · intro j o hget
    obtain ⟨hlt, rfl⟩ := List.getElem?_eq_some_iff.mp hget
    obtain rfl : j = 0 := Nat.lt_one_iff.mp hlt
    exact ⟨Nat.le_add_right _ _, Nat.add_le_add_left hlong _, fun _ => rfl⟩
  · intro j o hget
    obtain ⟨hlt, rfl⟩ := List.getElem?_eq_some_iff.mp hget
    obtain rfl : j = 0 := Nat.lt_one_iff.mp hlt
    simp

/-- With a newline in the string only lines that have not the column fit behind the first. -/
theorem PlacesFit.short {os : List Nat} (hfits : PlacesFit text reply lo c os) (hplaced : Placed text lo c os)
    (hcount : lo + os.length ≤ text.count newline + 1) (hnl : newline ∈ reply) {j : Nat} (hpos : 0 < j) (hlt : j < os.length) :
    lineLength text (lo + j) < c := by
  by_contra hlong
  have hget := List.getElem?_eq_getElem hlt
  have hplace := (hplaced j os[j] hget).2.2 (by omega)
  have hfit := hfits j os[j] hget
  have htake : (os.take j).length = j := List.length_take_of_le (Nat.le_of_lt hlt)
  have hstart : lineStart (insertEach (os.take j) reply text) (lo + j) = lineStart text (lo + j) + j * reply.length := by omega
  have hle : lineStart text (lo + j) ≤ text.length := by
    have := line_le text (k := lo + j) (by omega)
    omega
  have hbefore : ∀ o ∈ os.take j, o ≤ lineStart text (lo + j) := by
    intro o ho
    obtain ⟨i, hi, rfl⟩ := List.mem_take_iff_getElem.mp ho
    obtain ⟨-, hle', -⟩ := hplaced i os[i] (List.getElem?_eq_getElem (by omega))
    have := lineStart_lt text (show lo + i < lo + j by omega) (by omega)
    omega
  -- the newlines in front of this line
  have hline : lo + j ≤ (insertEach (os.take j) reply text).count newline := by
    rw [count_insertEach]
    omega
  have hnumber := congrArg Prod.fst (posOf_lineStart hline)
  have hcut := take_insertEach reply hbefore hle
  rw [htake] at hcut
  rw [hstart, posOf, hcut, count_insertEach, htake] at hnumber
  have hown := congrArg Prod.fst (posOf_lineStart (show lo + j ≤ text.count newline by omega))
  have hmany : 0 < j * reply.count newline := Nat.mul_pos hpos (List.count_pos_iff.mpr hnl)
  simp only [posOf] at hown hnumber
  omega

namespace Editor

variable {s s₁ s₂ s' : Editor}

/-! ## One turn -/

/-- The window after one insertion at an offset. -/
structure Grown (s₁ s₂ : Editor) (p : Nat) (reply : List Byte) : Prop where
  wf : s₂.buffer.WellFormed
  text : s₂.buffer.bytes = insertAt s₁.buffer.bytes p reply
  notes : s₂.buffer.notes = s₁.buffer.notes ++ [⟨.insert, p, reply.length⟩]

/-- A turn inserts the string the column behind the beginning of its line, or fails behind the end of the text. -/
theorem insertRectLine_spec (hwf : s₁.buffer.WellFormed) (hk : k ≤ s₁.buffer.bytes.count newline) (c : Nat) (reply : List Byte) :
    (lineStart s₁.buffer.bytes k + c ≤ s₁.buffer.bytes.length →
      ∃ s₂, s₁.insertRectLine c reply (k + 1) = some s₂ ∧ Grown s₁ s₂ (lineStart s₁.buffer.bytes k + c) reply) ∧
    (s₁.buffer.bytes.length < lineStart s₁.buffer.bytes k + c → s₁.insertRectLine c reply (k + 1) = none) := by
  obtain ⟨p, hp⟩ : ∃ p, p = lineStart s₁.buffer.bytes k + c := ⟨_, rfl⟩
  have hoffset : (lineStart s₁.buffer.bytes k : Int) + c = (p : Nat) := by omega
  obtain ⟨s₃, hs₃⟩ : ∃ s₃, s₃ = { s₁ with offset := (p : Int) } := ⟨_, rfl⟩
  have hbuffer : s₃.buffer = s₁.buffer := by rw [hs₃]
  have hturn : s₁.insertRectLine c reply (k + 1) =
      (s₃.ebInsert (p : Nat) reply).bind fun s₄ => some { s₄ with offset := s₄.offset + reply.length } := by
    rw [insertRectLine]
    simp only [gotoLine_start hwf hk, hoffset, hs₃, Option.bind_eq_bind]
  rw [← hp, hturn]
  constructor
  · intro hle
    obtain ⟨s₄, hs₄, hedited⟩ := ebInsert_spec (hbuffer ▸ hwf) (o := p) (by rw [hbuffer]; exact hle) reply
    refine ⟨{ s₄ with offset := s₄.offset + reply.length }, by rw [hs₄]; rfl, hedited.wf, ?_, ?_⟩
    · exact hedited.text.trans (by rw [hbuffer])
    · exact hedited.notes.trans (by rw [hbuffer])
  · intro hlt
    have htotal : s₃.total = s₁.buffer.bytes.length := by
      rw [← total_eq hwf, hs₃]
      rfl
    rw [ebInsert, if_neg (by omega)]
    rfl

/-- The window some time after the beginning of the command. -/
structure Inserting (s s₁ : Editor) : Prop where
  wf : s₁.buffer.WellFormed
  notes : s.buffer.notes.length ≤ s₁.buffer.notes.length
  count : s.buffer.bytes.count newline ≤ s₁.buffer.bytes.count newline
  length : (trace s s₁).length = s₁.buffer.bytes.length

theorem inserting_self (hwf : s.buffer.WellFormed) : Inserting s s :=
  ⟨hwf, Nat.le_refl _, Nat.le_refl _, by rw [trace_self rfl, List.length_map, List.length_range]⟩

theorem Inserting.trace {p : Nat} (h : Inserting s s₁) (hgrown : Grown s₁ s₂ p reply) :
    trace s s₂ = insertAt (trace s s₁) p (List.replicate reply.length none) := by
  rw [trace_note h.notes hgrown.notes, Note.trace]

theorem Inserting.grown {p : Nat} (h : Inserting s s₁) (hgrown : Grown s₁ s₂ p reply) : Inserting s s₂ := by
  refine ⟨hgrown.wf, ?_, ?_, ?_⟩
  · rw [hgrown.notes, List.length_append]
    exact Nat.le_add_right_of_le h.notes
  · rw [hgrown.text, count_insertAt]
    exact Nat.le_add_right_of_le h.count
  · rw [h.trace hgrown, length_insertAt, h.length, hgrown.text, length_insertAt, List.length_replicate]

/-! ## The turns -/

variable {r j : Nat}

/-- A run of some turns begins with the first. -/
theorem Inserting.first (h : Inserting s s₁) (hk : k ≤ s.buffer.bytes.count newline)
    (hrun : (List.range' (k + 1) (r + 1)).foldlM (insertRectLine c reply) s₁ = some s') :
    lineStart s₁.buffer.bytes k + c ≤ s₁.buffer.bytes.length ∧ ∃ s₂, Grown s₁ s₂ (lineStart s₁.buffer.bytes k + c) reply ∧
      (List.range' (k + 1 + 1) r).foldlM (insertRectLine c reply) s₂ = some s' := by
  obtain ⟨hsome, hnone⟩ := insertRectLine_spec h.wf (Nat.le_trans hk h.count) c reply
  rw [List.range'_succ, List.foldlM_cons, Option.bind_eq_bind, Option.bind_eq_some_iff] at hrun
  obtain ⟨s₃, hturn, hrest⟩ := hrun
  by_cases hle : lineStart s₁.buffer.bytes k + c ≤ s₁.buffer.bytes.length
  · obtain ⟨s₂, hs₂, hgrown⟩ := hsome hle
    obtain rfl := Option.some.inj (hs₂.symm.trans hturn)
    exact ⟨hle, s₂, hgrown, hrest⟩
  · rw [hnone (by omega)] at hturn
    cases hturn

/-- The turns move a byte to the right, if at all. -/
theorem Inserting.moved (h : Inserting s s₁) (hk : k + r ≤ s.buffer.bytes.count newline + 1)
    (hrun : (List.range' (k + 1) r).foldlM (insertRectLine c reply) s₁ = some s') {a : Option Nat}
    (hj : (Editor.trace s s₁)[j]? = some a) : ∃ j', j ≤ j' ∧ (Editor.trace s s')[j']? = some a := by
  induction r generalizing k s₁ j with
  | zero =>
    obtain rfl := Option.some.inj hrun
    exact ⟨j, Nat.le_refl j, hj⟩
  | succ r ih =>
    obtain ⟨hle, s₂, hgrown, hrest⟩ := h.first (by omega) hrun
    have hlength := h.length
    have htrace := h.trace hgrown
    by_cases hfront : j < lineStart s₁.buffer.bytes k + c
    · have hj₂ : (Editor.trace s s₂)[j]? = some a := by
        rw [htrace, getElem?_insertAt_front _ _ (by omega) hfront, hj]
      exact ih (h.grown hgrown) (by omega) hrest hj₂
    · have hj₂ : (Editor.trace s s₂)[j + (List.replicate reply.length (none : Option Nat)).length]? = some a := by
        rw [htrace, getElem?_insertAt_behind _ _ (by omega) (by omega), hj]
      obtain ⟨j', hle', hj'⟩ := ih (h.grown hgrown) (by omega) hrest hj₂
      exact ⟨j', by omega, hj'⟩

/-- In front of the first insertion nothing is moved. -/
theorem Inserting.kept (h : Inserting s s₁) (hk : k + r ≤ s.buffer.bytes.count newline + 1)
    (hrun : (List.range' (k + 1) r).foldlM (insertRectLine c reply) s₁ = some s')
    (hj : j < lineStart s₁.buffer.bytes k + c) : (Editor.trace s s')[j]? = (Editor.trace s s₁)[j]? := by
  induction r generalizing k s₁ with
  | zero =>
    obtain rfl := Option.some.inj hrun
    rfl
  | succ r ih =>
    obtain ⟨hle, s₂, hgrown, hrest⟩ := h.first (by omega) hrun
    have hlength := h.length
    have h₂ := h.grown hgrown
    have hcount := h.count
    have hfirst : (Editor.trace s s₂)[j]? = (Editor.trace s s₁)[j]? := by
      rw [h.trace hgrown, getElem?_insertAt_front _ _ (by omega) hj]
    cases r with
    | zero =>
      obtain rfl := Option.some.inj hrest
      exact hfirst
    | succ r =>
      -- the next line begins behind this one
      have hsame : lineStart s₂.buffer.bytes k = lineStart s₁.buffer.bytes k := by
        rw [hgrown.text]
        exact lineStart_insertAt_behind (by omega) (by omega) hle reply
      have hcount₂ := h₂.count
      have hnext := lineStart_lt s₂.buffer.bytes (Nat.lt_add_one k) (by omega)
      rw [ih h₂ (by omega) hrest (by omega), hfirst]

/-! ## Where the insertions are -/

/-- The places of the strings so far. -/
structure InsertedAt (s s₁ : Editor) (reply : List Byte) (os : List Nat) : Prop extends Inserting s s₁ where
  text : s₁.buffer.bytes = insertEach os reply s.buffer.bytes
  trace_eq : Editor.trace s s₁ = insertEach os (List.replicate reply.length none) ((List.range s.buffer.bytes.length).map some)

theorem InsertedAt.snoc {o : Nat} (h : InsertedAt s s₁ reply os) (hos : ∀ o' ∈ os, o' ≤ o) (ho : o ≤ s.buffer.bytes.length)
    (hgrown : Grown s₁ s₂ (o + os.length * reply.length) reply) : InsertedAt s s₂ reply (os ++ [o]) := by
  refine ⟨h.grown hgrown, ?_, ?_⟩
  · rw [hgrown.text, h.text, insertAt_insertEach reply hos ho]
  · have hlen : (List.replicate reply.length (none : Option Nat)).length = reply.length := List.length_replicate
    have hsnoc := insertAt_insertEach (List.replicate reply.length (none : Option Nat))
      (l := (List.range s.buffer.bytes.length).map some) hos (by simpa using ho)
    rw [hlen] at hsnoc
    rw [h.toInserting.trace hgrown, h.trace_eq, hsnoc]

/-- Where the lines are where the insertions expect them, the strings come to their places. -/
theorem InsertedAt.run (h : InsertedAt s s₁ reply front) (rest : List Nat)
    (hcount : lo + (front ++ rest).length ≤ s.buffer.bytes.count newline + 1) (hsorted : (front ++ rest).Pairwise (· < ·))
    (hle : ∀ o ∈ front ++ rest, o ≤ s.buffer.bytes.length) (hfits : PlacesFit s.buffer.bytes reply lo c (front ++ rest)) :
    ∃ s', (List.range' (lo + front.length + 1) rest.length).foldlM (insertRectLine c reply) s₁ = some s' ∧
      InsertedAt s s' reply (front ++ rest) := by
  induction rest generalizing front s₁ with
  | nil => exact ⟨s₁, rfl, by rwa [List.append_nil]⟩
  | cons o rest ih =>
    have hfit := hfits.next
    rw [← h.text] at hfit
    have ho := hle o (by simp)
    have hlength := congrArg List.length h.text
    rw [length_insertEach] at hlength
    have hcount₁ := h.count
    rw [List.length_append, List.length_cons] at hcount
    obtain ⟨s₂, hturn, hgrown⟩ := (insertRectLine_spec h.wf (k := lo + front.length) (by omega) c reply).1 (by omega)
    have hfront : ∀ o' ∈ front, o' ≤ o := fun o' ho' =>
      Nat.le_of_lt ((List.pairwise_append.mp hsorted).2.2 o' ho' o List.mem_cons_self)
    rw [hfit] at hgrown
    have hcut : front ++ o :: rest = front ++ [o] ++ rest := by simp
    rw [hcut] at hsorted hle hfits ⊢
    obtain ⟨s', hrun, h'⟩ := ih (h.snoc hfront ho hgrown) (by rw [← hcut]; simpa using hcount) hsorted hle hfits
    refine ⟨s', ?_, h'⟩
    rw [List.length_cons, List.range'_succ, List.foldlM_cons, hturn]
    rw [List.length_append, List.length_singleton, ← Nat.add_assoc] at hrun
    exact hrun

/-- How many of the sorted places are not behind a place, and not behind what is in front of it. -/
theorem countP_le_place (hsorted : (front ++ o :: rest).Pairwise (· < ·)) :
    (front ++ o :: rest).countP (· ≤ o) = front.length + 1 ∧
      ∀ i, i + 1 = o → (front ++ o :: rest).countP (· ≤ i) = front.length := by
  obtain ⟨-, hrest, hfront⟩ := List.pairwise_append.mp hsorted
  obtain ⟨ho, -⟩ := List.pairwise_cons.mp hrest
  refine ⟨?_, fun i hi => ?_⟩
  · rw [List.countP_append, List.countP_eq_length.mpr, List.countP_cons_of_pos, List.countP_eq_zero.mpr]
    · intro o' ho'
      have := ho o' ho'
      simp
      omega
    · simp
    · intro o' ho'
      have := hfront o' ho' o List.mem_cons_self
      simp
      omega
  · rw [List.countP_append, List.countP_eq_length.mpr, List.countP_eq_zero.mpr]
    · simp
    · intro o' ho'
      rcases List.mem_cons.mp ho' with rfl | ho'
      · simp
        omega
      · have := ho o' ho'
        simp
        omega
    · intro o' ho'
      have := hfront o' ho' o List.mem_cons_self
      simp
      omega

/-- Where a byte is after the insertions at the places. -/
theorem eq_of_trace {os : List Nat} {n i : Nat} (hsorted : os.Pairwise (· < ·)) (hle : ∀ o ∈ os, o ≤ n)
    (hj : (insertEach os (List.replicate reply.length none) ((List.range n).map some))[j]? = some (some i)) :
    j = i + reply.length * os.countP (· ≤ i) := by
  have hindex := eq_of_getElem?_insertEach (i := i) (hsorted.imp Nat.le_of_lt) (by simpa using hle)
    (fun hmem => by cases List.eq_of_mem_replicate hmem) (fun i' hi' => ?_) hj
  · rwa [List.length_replicate] at hindex
  · rw [List.getElem?_map, Option.map_eq_some_iff] at hi'
    obtain ⟨a, ha, hai⟩ := hi'
    obtain ⟨hlt, hget⟩ := List.getElem?_eq_some_iff.mp ha
    rw [List.getElem_range] at hget
    exact hget.trans (Option.some.inj hai)

/-- When the strings are at the places in the end, the next line is where the insertion expects it. -/
theorem InsertedAt.fits_next (h : InsertedAt s s₁ reply front)
    (hcount : lo + (front ++ o :: rest).length ≤ s.buffer.bytes.count newline + 1)
    (hsorted : (front ++ o :: rest).Pairwise (· < ·)) (hle : ∀ o' ∈ front ++ o :: rest, o' ≤ s.buffer.bytes.length)
    (hreply : reply ≠ [])
    (hrun : (List.range' (lo + front.length + 1) (rest.length + 1)).foldlM (insertRectLine c reply) s₁ = some s')
    (htrace : Editor.trace s s' =
      insertEach (front ++ o :: rest) (List.replicate reply.length none) ((List.range s.buffer.bytes.length).map some)) :
    lineStart s₁.buffer.bytes (lo + front.length) + c = o + front.length * reply.length := by
  obtain ⟨hplace, hbefore⟩ := countP_le_place hsorted
  have hpos : 0 < reply.length := List.length_pos_iff.mpr hreply
  have hlength := congrArg List.length h.text
  rw [length_insertEach] at hlength
  have hfront : ∀ o' ∈ front, o' < o := fun o' ho' =>
    (List.pairwise_append.mp hsorted).2.2 o' ho' o List.mem_cons_self
  rw [List.length_append, List.length_cons] at hcount
  obtain ⟨hp, s₂, hgrown, hrest⟩ := h.toInserting.first (by omega) hrun
  -- where the bytes are before this turn
  have hsource {i : Nat} (hi : i < s.buffer.bytes.length) (hall : ∀ o' ∈ front, o' ≤ i) :
      (Editor.trace s s₁)[i + front.length * reply.length]? = some (some i) := by
    have hmoved := getElem?_insertEach (List.replicate reply.length (none : Option Nat))
      (l := (List.range s.buffer.bytes.length).map some) hall (by simpa using hi)
    rw [List.length_replicate] at hmoved
    rw [h.trace_eq, hmoved]
    simp [hi]
  have hlen := h.length
  rcases Nat.lt_trichotomy (lineStart s₁.buffer.bytes (lo + front.length) + c) (o + front.length * reply.length) with hlt | heq | hgt
  · -- the byte in front of the place would be moved
    have hnz : o ≠ 0 := by
      rintro rfl
      have hnil : front = [] := List.eq_nil_iff_forall_not_mem.mpr fun o' ho' => Nat.not_lt_zero o' (hfront o' ho')
      rw [hnil, List.length_nil, Nat.zero_mul] at hlt
      exact Nat.not_lt_zero _ hlt
    obtain ⟨i, rfl⟩ := Nat.exists_eq_succ_of_ne_zero hnz
    have ho := hle (i + 1) (by simp)
    have hi := hsource (i := i) (by omega) fun o' ho' => Nat.le_of_lt_succ (hfront o' ho')
    have hmoved := getElem?_insertAt_behind (Editor.trace s s₁) (List.replicate reply.length none)
      (o := lineStart s₁.buffer.bytes (lo + front.length) + c) (by omega) (j := i + front.length * reply.length) (by omega)
    rw [← h.toInserting.trace hgrown, hi, List.length_replicate] at hmoved
    obtain ⟨j', hle', hj'⟩ := (h.toInserting.grown hgrown).moved (by omega) hrest hmoved
    rw [htrace] at hj'
    have hindex := eq_of_trace hsorted hle hj'
    rw [hbefore i rfl, Nat.mul_comm] at hindex
    omega
  · exact heq
  · -- the byte at the place would not be moved
    have ho : o < s.buffer.bytes.length := by omega
    have hkept := h.toInserting.kept (by omega) hrun hgt
    rw [hsource ho fun o' ho' => Nat.le_of_lt (hfront o' ho'), htrace] at hkept
    have hindex := eq_of_trace hsorted hle hkept
    rw [hplace, Nat.mul_succ, Nat.mul_comm] at hindex
    omega

/-- When the strings are at the places in the end, the lines were where the insertions expect them. -/
theorem InsertedAt.fits (h : InsertedAt s s₁ reply front)
    (hcount : lo + (front ++ rest).length ≤ s.buffer.bytes.count newline + 1)
    (hsorted : (front ++ rest).Pairwise (· < ·)) (hle : ∀ o' ∈ front ++ rest, o' ≤ s.buffer.bytes.length)
    (hreply : reply ≠ [])
    (hrun : (List.range' (lo + front.length + 1) rest.length).foldlM (insertRectLine c reply) s₁ = some s')
    (htrace : Editor.trace s s' =
      insertEach (front ++ rest) (List.replicate reply.length none) ((List.range s.buffer.bytes.length).map some)) :
    ∀ j o, front.length ≤ j → (front ++ rest)[j]? = some o →
      lineStart (insertEach ((front ++ rest).take j) reply s.buffer.bytes) (lo + j) + c = o + j * reply.length := by
  induction rest generalizing front s₁ with
  | nil =>
    intro j o hj hget
    rw [List.append_nil, List.getElem?_eq_none hj] at hget
    cases hget
  | cons o rest ih =>
    have hfit := h.fits_next hcount hsorted hle hreply hrun htrace
    have ho := hle o (by simp)
    have hfront : ∀ o' ∈ front, o' ≤ o := fun o' ho' =>
      Nat.le_of_lt ((List.pairwise_append.mp hsorted).2.2 o' ho' o List.mem_cons_self)
    have hcut : front ++ o :: rest = front ++ [o] ++ rest := by simp
    obtain ⟨-, s₂, hgrown, hrest⟩ := h.toInserting.first (by simp at hcount; omega) hrun
    rw [hfit] at hgrown
    have hnext : lo + (front ++ [o]).length + 1 = lo + front.length + 1 + 1 := by
      rw [List.length_append, List.length_singleton]
      omega
    rw [hcut] at hcount hsorted hle htrace
    have hrec := ih (h.snoc hfront ho hgrown) hcount hsorted hle (by rw [hnext]; exact hrest) htrace
    rw [← hcut] at hrec
    intro j o' hj hget
    rcases Nat.lt_or_eq_of_le hj with hlt | rfl
    · exact hrec j o' (by rw [List.length_append, List.length_singleton]; exact hlt) hget
    · rw [List.getElem?_append_right (Nat.le_refl _), Nat.sub_self, List.getElem?_cons_zero] at hget
      rw [List.take_left, ← Option.some.inj hget, ← h.text]
      exact hfit

/-! ## The command -/

variable {point mark : Nat}

theorem doStringInsertRect_eq (hwf : s.buffer.WellFormed) (hu : s.charset ≠ .utf8) (hp : s.offset = point)
    (hm : s.buffer.mark = mark) {t f : Nat × Nat} (ht : t = posOf s.buffer.bytes point) (hf : f = posOf s.buffer.bytes mark)
    (reply : List Byte) :
    s.doStringInsertRect reply = (List.range' (f.1 + 1) (t.1 + 1 - f.1)).foldlM (insertRectLine f.2 reply) s := by
  have hsub : t.1 + 1 + 1 - (f.1 + 1) = t.1 + 1 - f.1 := by omega
  rw [doStringInsertRect, hp, hm, getPos_spec hwf hu, getPos_spec hwf hu, ← ht, ← hf, hsub]

theorem insertedAt_self (hwf : s.buffer.WellFormed) (reply : List Byte) : InsertedAt s s reply [] :=
  ⟨inserting_self hwf, rfl, trace_self rfl⟩

/-- A string goes to the lines of the region exactly when there are places that fit. -/
theorem insertsRect_iff_fits (hwf : s.buffer.WellFormed) (hu : s.charset ≠ .utf8) (hp : s.offset = point)
    (hm : s.buffer.mark = mark) {t f : Nat × Nat} (ht : t = posOf s.buffer.bytes point) (hf : f = posOf s.buffer.bytes mark)
    (hlines : f.1 ≤ t.1) (hcount : t.1 ≤ s.buffer.bytes.count newline) (hreply : reply ≠ []) :
    InsertsRect s reply point mark ↔ ∃ os, os.length = t.1 + 1 - f.1 ∧ Placed s.buffer.bytes f.1 f.2 os ∧
      PlacesFit s.buffer.bytes reply f.1 f.2 os := by
  rw [InsertsRect, ← ht, ← hf, Nat.max_eq_right hlines, Nat.min_eq_left hlines, doStringInsertRect_eq hwf hu hp hm ht hf]
  constructor
  · rintro ⟨s', os, hrun, hlen, hplaced, -, htrace⟩
    have hbound : f.1 + os.length ≤ s.buffer.bytes.count newline + 1 := by omega
    refine ⟨os, hlen, hplaced, fun j o hget => ?_⟩
    rw [← hlen] at hrun
    exact (insertedAt_self hwf reply).fits hbound (hplaced.sorted hbound) (fun o' ho' => hplaced.le hbound ho') hreply hrun
      htrace j o (Nat.zero_le j) hget
  · rintro ⟨os, hlen, hplaced, hfits⟩
    have hbound : f.1 + os.length ≤ s.buffer.bytes.count newline + 1 := by omega
    obtain ⟨s', hrun, hinserted⟩ := (insertedAt_self hwf reply).run os hbound (hplaced.sorted hbound)
      (fun o' ho' => hplaced.le hbound ho') hfits
    rw [← hlen]
    exact ⟨s', os, hrun, rfl, hplaced, hinserted.text, hinserted.trace_eq⟩

/-- An empty string needs no more than that the places are in the text. -/
theorem Inserting.empty_run_iff (h : Inserting s s₁) (htext : s₁.buffer.bytes = s.buffer.bytes)
    (hk : k + r ≤ s.buffer.bytes.count newline + 1) :
    (∃ s', (List.range' (k + 1) r).foldlM (insertRectLine c []) s₁ = some s' ∧ s'.buffer.bytes = s.buffer.bytes ∧
      Editor.trace s s' = Editor.trace s s₁) ↔
    ∀ j, k ≤ j → j < k + r → lineStart s.buffer.bytes j + c ≤ s.buffer.bytes.length := by
  induction r generalizing k s₁ with
  | zero =>
    refine iff_of_true ⟨s₁, rfl, htext, rfl⟩ fun j hj hlt => ?_
    exact absurd hlt (Nat.not_lt.mpr hj)
  | succ r ih =>
    have hsame {s₂ : Editor} {p : Nat} (hgrown : Grown s₁ s₂ p []) :
        s₂.buffer.bytes = s.buffer.bytes ∧ Editor.trace s s₂ = Editor.trace s s₁ :=
      ⟨by rw [hgrown.text, insertAt_empty, htext], by rw [h.trace hgrown]; exact insertAt_empty _ _⟩
    constructor
    · rintro ⟨s', hrun, htext', htrace'⟩ j hj hlt
      obtain ⟨hle, s₂, hgrown, hrest⟩ := h.first (by omega) hrun
      obtain ⟨htext₂, htrace₂⟩ := hsame hgrown
      rw [htext] at hle
      rcases Nat.lt_or_eq_of_le hj with hlater | rfl
      · exact (ih (h.grown hgrown) htext₂ (by omega)).mp ⟨s', hrest, htext', htrace'.trans htrace₂.symm⟩ j (by omega) (by omega)
      · exact hle
    · intro hall
      have hcount := h.count
      obtain ⟨s₂, hturn, hgrown⟩ := (insertRectLine_spec h.wf (k := k) (by omega) c []).1
        (by rw [htext]; exact hall k (Nat.le_refl k) (by omega))
      obtain ⟨htext₂, htrace₂⟩ := hsame hgrown
      obtain ⟨s', hrun, htext', htrace'⟩ := (ih (k := k + 1) (h.grown hgrown) htext₂ (by omega)).mpr fun j hj hlt =>
        hall j (by omega) (by omega)
      refine ⟨s', ?_, htext', htrace'.trans htrace₂⟩
      rw [List.range'_succ, List.foldlM_cons, hturn]
      exact hrun

end Editor

/-- Places on the lines of a region, for a string that is nowhere. -/
theorem exists_placed (text : List Byte) (lo c n : Nat) : ∃ os, os.length = n ∧ Placed text lo c os := by
  refine ⟨(List.range' lo n).map fun k => lineStart text k + min c (lineLength text k), by simp, ?_⟩
  intro j o hget
  rw [List.getElem?_map, Option.map_eq_some_iff] at hget
  obtain ⟨k, hk, rfl⟩ := hget
  obtain ⟨hlt, rfl⟩ := List.getElem?_eq_some_iff.mp hk
  rw [List.getElem_range', Nat.one_mul]
  exact ⟨by omega, by omega, fun hc => by omega⟩

namespace Editor

variable {s : Editor} {point mark : Nat} {reply : List Byte}

/-- An empty string is where it should be when no place is behind the end of the text. -/
theorem insertsRect_empty_iff (hwf : s.buffer.WellFormed) (hu : s.charset ≠ .utf8) (hp : s.offset = point)
    (hm : s.buffer.mark = mark) {t f : Nat × Nat} (ht : t = posOf s.buffer.bytes point) (hf : f = posOf s.buffer.bytes mark)
    (hcount : t.1 ≤ s.buffer.bytes.count newline) :
    InsertsRect s [] point mark ↔
      t.1 < f.1 ∨ ∀ k, f.1 ≤ k → k ≤ t.1 → lineStart s.buffer.bytes k + f.2 ≤ s.buffer.bytes.length := by
  have hinsert (os : List Nat) : insertEach os (List.replicate ([] : List Byte).length none)
      ((List.range s.buffer.bytes.length).map some) = trace s s := by
    rw [trace_self rfl]
    exact insertEach_empty os _
  have hno_turns : t.1 < f.1 → t.1 + 1 - f.1 = 0 := Nat.sub_eq_zero_of_le
  have hrun_iff : (∃ s', s.doStringInsertRect [] = some s' ∧ s'.buffer.bytes = s.buffer.bytes ∧ trace s s' = trace s s) ↔
      t.1 < f.1 ∨ ∀ k, f.1 ≤ k → k ≤ t.1 → lineStart s.buffer.bytes k + f.2 ≤ s.buffer.bytes.length := by
    rw [doStringInsertRect_eq hwf hu hp hm ht hf]
    rcases Nat.lt_or_ge t.1 f.1 with hlt | hge
    · rw [hno_turns hlt]
      exact iff_of_true ⟨s, rfl, rfl, rfl⟩ (Or.inl hlt)
    · rw [or_iff_right (Nat.not_lt.mpr hge), (inserting_self hwf).empty_run_iff rfl (by omega)]
      constructor
      · intro h k hlo hle
        exact h k hlo (by omega)
      · intro h k hlo hlt
        exact h k hlo (by omega)
  rw [← hrun_iff, InsertsRect]
  constructor
  · rintro ⟨s', os, hrun, -, -, htext, htrace⟩
    exact ⟨s', hrun, htext.trans (insertEach_empty os _), htrace.trans (hinsert os)⟩
  · rintro ⟨s', hrun, htext, htrace⟩
    obtain ⟨os, hlen, hplaced⟩ := exists_placed s.buffer.bytes (min (posOf s.buffer.bytes mark).1 (posOf s.buffer.bytes point).1)
      (posOf s.buffer.bytes mark).2 (max (posOf s.buffer.bytes mark).1 (posOf s.buffer.bytes point).1 + 1 -
        min (posOf s.buffer.bytes mark).1 (posOf s.buffer.bytes point).1)
    exact ⟨s', os, hrun, hlen, hplaced, htext.trans (insertEach_empty os _).symm, htrace.trans (hinsert os).symm⟩

/-- With the mark below the point nothing is inserted. -/
theorem not_insertsRect_of_lt (hwf : s.buffer.WellFormed) (hu : s.charset ≠ .utf8) (hp : s.offset = point)
    (hm : s.buffer.mark = mark) {t f : Nat × Nat} (ht : t = posOf s.buffer.bytes point) (hf : f = posOf s.buffer.bytes mark)
    (hlines : t.1 < f.1) (hreply : reply ≠ []) : ¬InsertsRect s reply point mark := by
  rintro ⟨s', os, hrun, hlen, -, htext, -⟩
  rw [doStringInsertRect_eq hwf hu hp hm ht hf, Nat.sub_eq_zero_of_le hlines] at hrun
  obtain rfl := Option.some.inj hrun
  have hlength := congrArg List.length htext
  rw [length_insertEach] at hlength
  have hpos : 0 < os.length * reply.length := by
    refine Nat.mul_pos ?_ (List.length_pos_iff.mpr hreply)
    rw [hlen, ← ht, ← hf]
    omega
  omega

end Editor

end Hoe
