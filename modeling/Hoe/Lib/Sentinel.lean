import Mathlib.Data.List.Basic
import Mathlib.Data.List.Infix
import Mathlib.Data.List.TakeWhile

/-!
# Scans that a sentinel stops

A pointer goes through an array until a cell stops it. The array from the pointer on is a list, and `none` says that the list ends
first: a cell is read that is not there. In front of a sentinel that stops the scan, what is behind the sentinel does not matter.
-/

namespace Sentinel

variable {α : Type*}

/-- How many cells there are in front of the first one that `more` is false for. -/
def scanWhile (more : α → Bool) : List α → Option Nat
  | [] => none
  | c :: cells => if more c then (scanWhile more cells).map (· + 1) else some 0

/-- Whether the cells begin with the word; no cell is read behind the first one that differs. -/
def looksAt [DecidableEq α] : List α → List α → Option Bool
  | [], _ => some true
  | _ :: _, [] => none
  | w :: word, c :: cells => if c = w then looksAt word cells else some false

/-- A scan stops at the sentinel at the latest. -/
theorem scanWhile_sentinel {more : α → Bool} {s : α} (hs : more s = false) (line rest : List α) :
    scanWhile more (line ++ s :: rest) = some (line.takeWhile more).length := by
  induction line with
  | nil => simp [scanWhile, hs]
  | cons c line ih =>
    rw [List.cons_append, scanWhile, ih]
    by_cases hc : more c = true
    · rw [if_pos hc, List.takeWhile_cons_of_pos hc]
      rfl
    · rw [if_neg hc, List.takeWhile_cons_of_neg hc]
      rfl

/-- A scan that stops has come to a cell that stops it, over cells that do not. -/
theorem scanWhile_eq_some {more : α → Bool} {cells : List α} {n : Nat} (h : scanWhile more cells = some n) :
    ∃ passed c left, cells = passed ++ c :: left ∧ passed.length = n ∧ (∀ d ∈ passed, more d = true) ∧ more c = false := by
  induction cells generalizing n with
  | nil => cases h
  | cons c cells ih =>
    rw [scanWhile] at h
    by_cases hc : more c = true
    · rw [if_pos hc] at h
      obtain ⟨m, hm, rfl⟩ := Option.map_eq_some_iff.1 h
      obtain ⟨passed, d, left, rfl, rfl, hpassed, hd⟩ := ih hm
      refine ⟨c :: passed, d, left, rfl, rfl, ?_, hd⟩
      intro d' hd'
      rcases List.mem_cons.1 hd' with rfl | hd'
      · exact hc
      · exact hpassed d' hd'
    · rw [if_neg hc] at h
      exact ⟨[], c, cells, rfl, Option.some_inj.1 h, by simp, Bool.eq_false_iff.2 hc⟩

/-- It stops at the first such cell. -/
theorem scanWhile_stop {more : α → Bool} {passed : List α} (h : ∀ d ∈ passed, more d = true) {c : α} (hc : more c = false)
    (left : List α) : scanWhile more (passed ++ c :: left) = some passed.length := by
  have hall : passed.takeWhile more = passed := List.takeWhile_eq_self_iff.2 h
  rw [scanWhile_sentinel hc, hall]

/-- So does the comparison with a word that the sentinel is not in. -/
theorem looksAt_sentinel [DecidableEq α] {s : α} {word : List α} (hs : s ∉ word) (line rest : List α) :
    looksAt word (line ++ s :: rest) = some (decide (word <+: line)) := by
  induction word generalizing line with
  | nil => simp [looksAt]
  | cons w word ih =>
    have hw : s ≠ w := fun h => hs (h ▸ List.mem_cons_self)
    cases line with
    | nil => simp [looksAt, hw]
    | cons c line =>
      rw [List.cons_append, looksAt]
      by_cases hc : c = w
      · rw [if_pos hc, ih (fun h => hs (List.mem_cons_of_mem _ h))]
        simp [hc]
      · rw [if_neg hc]
        simp [List.cons_prefix_cons, Ne.symm hc]

/-! ## What does not depend on the cells behind the sentinel -/

variable {ι β γ : Type*} {P : β → Prop} {Q : γ → Prop}

/-- A reader comes to one result, whatever it is given that is not to matter, and the result is as `P` says. -/
def Settled (P : β → Prop) (read : ι → Option β) : Prop := ∃ b, P b ∧ ∀ rest, read rest = some b

theorem Settled.some {b : β} (h : P b) : Settled P fun _ : ι => Option.some b := ⟨b, h, fun _ => rfl⟩

/-- What is settled for all rests is so for some of them. -/
theorem Settled.comp {κ : Type*} {read : ι → Option β} (h : Settled P read) (f : κ → ι) : Settled P fun k => read (f k) := by
  obtain ⟨b, hb, hread⟩ := h
  exact ⟨b, hb, fun k => hread (f k)⟩

/-- Two readings in a row are settled if each is. -/
theorem Settled.bind {read : ι → Option β} {next : β → ι → Option γ} (h : Settled P read)
    (hnext : ∀ b, P b → Settled Q (next b)) : Settled Q fun rest => (read rest).bind fun b => next b rest := by
  obtain ⟨b, hb, hread⟩ := h
  obtain ⟨c, hc, hgo⟩ := hnext b hb
  refine ⟨c, hc, ?_⟩
  intro rest
  dsimp only
  rw [hread, Option.bind_some, hgo]

/-- What is made of a settled reading is settled. -/
theorem Settled.map {read : ι → Option β} {f : β → γ} (h : Settled P read) (hf : ∀ b, P b → Q (f b)) :
    Settled Q fun rest => (read rest).map f := by
  obtain ⟨b, hb, hread⟩ := h
  refine ⟨f b, hf b hb, ?_⟩
  intro rest
  dsimp only
  rw [hread, Option.map_some]

/-- A weaker property of the same reading. -/
theorem Settled.mono {P' : β → Prop} {read : ι → Option β} (h : Settled P read) (hP : ∀ b, P b → P' b) :
    Settled P' read := by
  obtain ⟨b, hb, hread⟩ := h
  exact ⟨b, hP b hb, hread⟩

/-- A choice of two readings. -/
theorem Settled.ite {c : Prop} [Decidable c] {yes no : ι → Option β} (hyes : c → Settled P yes) (hno : ¬c → Settled P no) :
    Settled P fun rest => if c then yes rest else no rest := by
  by_cases hc : c
  · simpa only [if_pos hc] using hyes hc
  · simpa only [if_neg hc] using hno hc

/-- A scan ends at the sentinel at the latest. -/
theorem settled_scanWhile {more : α → Bool} {s : α} (hs : more s = false) (line : List α) :
    Settled (fun n => n = (line.takeWhile more).length) fun rest => scanWhile more (line ++ s :: rest) :=
  ⟨_, rfl, scanWhile_sentinel hs line⟩

/-- A word without the sentinel is looked for in the line only. -/
theorem settled_looksAt [DecidableEq α] {s : α} {word : List α} (hs : s ∉ word) (line : List α) :
    Settled (fun b => b = decide (word <+: line)) fun rest => looksAt word (line ++ s :: rest) :=
  ⟨_, rfl, looksAt_sentinel hs line⟩

/-- The array from a place of the line on. -/
theorem drop_line {line : List α} {n : Nat} (h : n ≤ line.length) (s : α) (rest : List α) :
    (line ++ s :: rest).drop n = line.drop n ++ s :: rest := List.drop_append_of_le_length h

end Sentinel
