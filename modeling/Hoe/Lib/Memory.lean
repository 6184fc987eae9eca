import Hoe.Lib.Block

/-!
# Programs on allocated memory

A heap is a list of blocks, each of them allocated by the program or mapped from a file. A program on it is a state monad that
stops with a fault when it touches cells that are not there, or changes a block that is mapped. `Returns` is total correctness
from a given heap; `Frame` says what a program that owns some blocks leaves alone.
-/

namespace Memory

open Splice

variable {α β γ : Type}

/-- A block: its cells, and the file it is mapped from, if it is. -/
structure Chunk (α : Type) where
  cells : List α
  file : Option Nat
deriving DecidableEq, Repr

/-- The heap. A block that was freed leaves `none` behind. `answers` are the answers to the allocations to come that may be
refused; where the list ends they are granted. -/
structure Heap (α : Type) where
  chunks : List (Option (Chunk α))
  answers : List Bool
deriving DecidableEq, Repr

/-- A pointer: a block and an offset in it. -/
structure Ptr where
  block : Nat
  off : Nat
deriving DecidableEq, Repr

/-- The pointer `n` cells on. -/
def Ptr.add (p : Ptr) (n : Nat) : Ptr := ⟨p.block, p.off + n⟩

@[simp] theorem Ptr.add_start (k n : Nat) : (⟨k, 0⟩ : Ptr).add n = ⟨k, n⟩ := by simp [add]

/-- What stops a program: cells that are not there, or a change of a mapped block. -/
inductive Fault where
  | wild
  | mapped
deriving DecidableEq, Repr

/-- A program on the heap. -/
abbrev Mem (α β : Type) := StateT (Heap α) (Except Fault) β

namespace Heap

/-- The block with the number, if it is allocated. -/
def chunk (h : Heap α) (k : Nat) : Option (Chunk α) := h.chunks[k]?.join

/-- The heap with another chunk at an address. -/
def set (h : Heap α) (k : Nat) (c : Option (Chunk α)) : Heap α := { h with chunks := h.chunks.set k c }

/-- The heap with a new chunk. -/
def push (h : Heap α) (c : Chunk α) : Heap α := { h with chunks := h.chunks ++ [some c] }

/-- The cells of a block the program may change. -/
def writable (h : Heap α) (k : Nat) : Except Fault (List α) :=
  match h.chunk k with
  | none => .error .wild
  | some c => if c.file.isSome then .error .mapped else .ok c.cells

/-- No allocation to come is refused. -/
def Willing (h : Heap α) : Prop := false ∉ h.answers

/-- The program owns the block, with these cells. -/
def Own (h : Heap α) (k : Nat) (cells : List α) : Prop := h.chunk k = some ⟨cells, none⟩

end Heap

/-! ## Operations -/

/-- Read `n` cells. -/
def load (p : Ptr) (n : Nat) : Mem α (List α) := fun h =>
  match h.chunk p.block with
  | none => .error .wild
  | some c => if p.off + n ≤ c.cells.length then .ok (slice c.cells p.off n, h) else .error .wild

/-- Write the cells. -/
def store (p : Ptr) (xs : List α) : Mem α Unit := fun h =>
  match h.writable p.block with
  | .error e => .error e
  | .ok cells =>
    if p.off + xs.length ≤ cells.length then .ok ((), h.set p.block (some ⟨Block.memcpy cells p.off xs, none⟩))
    else .error .wild

/-- Move `n` cells; the two ranges may overlap. -/
def memmove (dst src : Ptr) (n : Nat) : Mem α Unit := do
  let xs ← load src n
  store dst xs

/-- Allocate a block of `n` cells, where the answer is not looked at. -/
def malloc (junk : α) (n : Nat) : Mem α Ptr := fun h => .ok (⟨h.chunks.length, 0⟩, h.push ⟨List.replicate n junk, none⟩)

/-- Allocate a block of `n` cells, or nothing where that is refused. -/
def tryMalloc (junk : α) (n : Nat) : Mem α (Option Ptr) := fun h =>
  let rest := { h with answers := h.answers.tail }
  if h.answers.headD true then .ok (some ⟨h.chunks.length, 0⟩, rest.push ⟨List.replicate n junk, none⟩) else .ok (none, rest)

/-- Map a file. -/
def mmap (file : Nat) (cells : List α) : Mem α Ptr := fun h => .ok (⟨h.chunks.length, 0⟩, h.push ⟨cells, some file⟩)

/-- Resize a block. It always moves, so whoever keeps a pointer to the old place points at nothing. -/
def realloc (junk : α) (p : Ptr) (n : Nat) : Mem α Ptr := fun h =>
  match h.writable p.block with
  | .error e => .error e
  | .ok cells =>
    if p.off = 0 then .ok (⟨h.chunks.length, 0⟩, (h.set p.block none).push ⟨Block.realloc junk cells n, none⟩)
    else .error .wild

/-- Free a block. -/
def free (p : Ptr) : Mem α Unit := fun h =>
  match h.writable p.block with
  | .error e => .error e
  | .ok _ => if p.off = 0 then .ok ((), h.set p.block none) else .error .wild

/-! ## Blocks after an operation -/

namespace Heap

/-- A chunk has an address that was given out. -/
theorem lt_of_chunk {h : Heap α} {k : Nat} {c : Chunk α} (hc : h.chunk k = some c) : k < h.chunks.length := by
  by_contra hge
  rw [chunk, List.getElem?_eq_none (by omega)] at hc
  cases hc

/-- What was set is there. -/
theorem chunk_set_self {h : Heap α} {k : Nat} (hk : k < h.chunks.length) (c : Option (Chunk α)) : (h.set k c).chunk k = c := by
  simp [chunk, set, hk]

/-- The other chunks are as they were. -/
theorem chunk_set_ne {h : Heap α} {k i : Nat} (hne : i ≠ k) (c : Option (Chunk α)) : (h.set k c).chunk i = h.chunk i := by
  simp [chunk, set, List.getElem?_set_ne (Ne.symm hne)]

/-- The new chunk has the next address. -/
theorem chunk_push_new (h : Heap α) (c : Chunk α) : (h.push c).chunk h.chunks.length = some c := by
  simp [chunk, push]

/-- The old ones have theirs. -/
theorem chunk_push_old {h : Heap α} {k : Nat} (hk : k < h.chunks.length) (c : Chunk α) : (h.push c).chunk k = h.chunk k := by
  simp [chunk, push, List.getElem?_append_left hk]

@[simp] theorem length_set (h : Heap α) (k : Nat) (c : Option (Chunk α)) : (h.set k c).chunks.length = h.chunks.length := by
  simp [set]

@[simp] theorem length_push (h : Heap α) (c : Chunk α) : (h.push c).chunks.length = h.chunks.length + 1 := by
  simp [push]

theorem Own.lt {h : Heap α} {k : Nat} {cells : List α} (ho : h.Own k cells) : k < h.chunks.length := lt_of_chunk ho

/-- What is owned can be written. -/
theorem Own.writable {h : Heap α} {k : Nat} {cells : List α} (ho : h.Own k cells) : h.writable k = .ok cells := by
  simp [Heap.writable, show h.chunk k = some ⟨cells, none⟩ from ho]

end Heap

/-! ## Frames -/

/-- What a program that owns the blocks `own` before and `own'` after leaves alone: all other blocks, and all mapped ones. What
it owns after it owned before or has allocated. -/
structure Frame (own own' : List Nat) (h h' : Heap α) : Prop where
  grows : h.chunks.length ≤ h'.chunks.length
  kept : ∀ k, k < h.chunks.length → k ∉ own → h'.chunk k = h.chunk k
  mapped : ∀ k c, h.chunk k = some c → c.file ≠ none → h'.chunk k = some c
  fresh : ∀ k ∈ own', k ∈ own ∨ h.chunks.length ≤ k
  willing : h.Willing → h'.Willing

namespace Frame

variable {own own' own'' : List Nat} {h h' h'' : Heap α}

theorem refl (own : List Nat) (h : Heap α) : Frame own own h h :=
  ⟨Nat.le_refl _, fun _ _ _ => rfl, fun _ _ hc _ => hc, fun _ hk => Or.inl hk, id⟩

theorem trans (hf : Frame own own' h h') (hf' : Frame own' own'' h' h'') : Frame own own'' h h'' := by
  refine ⟨Nat.le_trans hf.grows hf'.grows, ?_, ?_, ?_, fun hw => hf'.willing (hf.willing hw)⟩
  · intro k hk hown
    have hown' : k ∉ own' := by
      intro hin
      rcases hf.fresh k hin with hin | hge
      · exact hown hin
      · omega
    rw [hf'.kept k (Nat.lt_of_lt_of_le hk hf.grows) hown', hf.kept k hk hown]
  · intro k c hc hfile
    exact hf'.mapped k c (hf.mapped k c hc hfile) hfile
  · intro k hk
    rcases hf'.fresh k hk with hin | hge
    · exact hf.fresh k hin
    · exact Or.inr (Nat.le_trans hf.grows hge)

/-- The frame rule: blocks owned besides stay. -/
theorem cut (a b : List Nat) (hf : Frame own own' h h') : Frame (a ++ own ++ b) (a ++ own' ++ b) h h' := by
  refine ⟨hf.grows, fun k hk hown => hf.kept k hk fun hin => hown (by simp [hin]), hf.mapped, ?_, hf.willing⟩
  intro k hk
  simp only [List.mem_append] at hk ⊢
  rcases hk with (ha | hin) | hb
  · exact Or.inl (Or.inl (Or.inl ha))
  · rcases hf.fresh k hin with hin | hge
    · exact Or.inl (Or.inl (Or.inr hin))
    · exact Or.inr hge
  · exact Or.inl (Or.inr hb)

/-- Owning less after. -/
theorem drop (hf : Frame own own' h h') (hsub : ∀ k ∈ own'', k ∈ own') : Frame own own'' h h' :=
  ⟨hf.grows, hf.kept, hf.mapped, fun k hk => hf.fresh k (hsub k hk), hf.willing⟩

/-- Blocks of somebody else stay somebody else's. -/
theorem disjoint (hf : Frame own own' h h') {ks : List Nat} (hlive : ∀ k ∈ ks, k < h.chunks.length)
    (hd : List.Disjoint ks own) : List.Disjoint ks own' := by
  intro k hk hin
  rcases hf.fresh k hin with hin | hge
  · exact hd hk hin
  · exact absurd (hlive k hk) (by omega)

end Frame

/-! ## Programs that return -/

/-- From the heap the program returns, with what `Q` says of its value and the heap it leaves. -/
def Returns (x : Mem α β) (h : Heap α) (Q : β → Heap α → Prop) : Prop := ∃ b h', x h = .ok (b, h') ∧ Q b h'

namespace Returns

variable {x : Mem α β} {f : β → Mem α γ} {h : Heap α} {P : β → Heap α → Prop} {Q : γ → Heap α → Prop}

theorem pure {b : β} (hq : P b h) : Returns (Pure.pure b) h P := ⟨b, h, rfl, hq⟩

/-- Two calls in a row, the second from what the first one leaves. -/
theorem bind (hx : Returns x h P) (hf : ∀ b h', P b h' → Returns (f b) h' Q) : Returns (x >>= f) h Q := by
  obtain ⟨b, h', hb, hp⟩ := hx
  obtain ⟨c, h'', hc, hq⟩ := hf b h' hp
  refine ⟨c, h'', ?_, hq⟩
  change (x h >>= fun r => f r.1 r.2) = _
  rw [hb]
  exact hc

/-- A weaker property of the same result. -/
theorem mono {P' : β → Heap α → Prop} (hx : Returns x h P) (hq : ∀ b h', P b h' → P' b h') : Returns x h P' := by
  obtain ⟨b, h', hb, hp⟩ := hx
  exact ⟨b, h', hb, hq b h' hp⟩

end Returns

/-! ## Rules of the operations -/

section Rules

variable {h : Heap α}

/-- Reading inside of a chunk. -/
theorem load_rule {k off : Nat} {c : Chunk α} (hc : h.chunk k = some c) {n : Nat} (hn : off + n ≤ c.cells.length) :
    Returns (load ⟨k, off⟩ n) h fun xs h' => xs = slice c.cells off n ∧ h' = h :=
  ⟨_, _, by simp [load, hc, hn], rfl, rfl⟩

/-- A change of one block that is owned. -/
theorem set_frame {k : Nat} {cells : List α} (ho : h.Own k cells) (c : Option (Chunk α)) : Frame [k] [k] h (h.set k c) := by
  refine ⟨by simp, ?_, ?_, fun i hi => Or.inl hi, id⟩
  · intro i _ hne
    exact Heap.chunk_set_ne (by simpa using hne) c
  · intro i d hd hfile
    rw [Heap.chunk_set_ne, hd]
    rintro rfl
    obtain rfl : ⟨cells, none⟩ = d := Option.some.inj (ho.symm.trans hd)
    exact hfile rfl

/-- Writing inside of a chunk that is owned. -/
theorem store_rule {k off : Nat} {cells : List α} (ho : h.Own k cells) {xs : List α} (hn : off + xs.length ≤ cells.length) :
    Returns (store ⟨k, off⟩ xs) h fun _ h' => h'.Own k (Block.memcpy cells off xs) ∧ Frame [k] [k] h h' :=
  ⟨(), _, by simp only [store, ho.writable, if_pos hn], Heap.chunk_set_self ho.lt _, set_frame ho _⟩

/-- Cells moved inside a block. -/
theorem memmove_rule {k dst src n : Nat} {cells : List α} (ho : h.Own k cells) (hsrc : src + n ≤ cells.length)
    (hdst : dst + n ≤ cells.length) :
    Returns (memmove ⟨k, dst⟩ ⟨k, src⟩ n) h fun _ h' => h'.Own k (Block.memmove cells dst src n) ∧ Frame [k] [k] h h' := by
  refine (load_rule ho hsrc).bind ?_
  rintro xs h' ⟨rfl, rfl⟩
  exact store_rule ho (by rw [length_slice _ hsrc]; exact hdst)

theorem push_frame (h : Heap α) (c : Chunk α) : Frame [] [h.chunks.length] h (h.push c) := by
  refine ⟨by simp, fun k hk _ => Heap.chunk_push_old hk _, ?_, ?_, id⟩
  · intro k c hc _
    rw [Heap.chunk_push_old (Heap.lt_of_chunk hc), hc]
  · intro k hk
    exact Or.inr (Nat.le_of_eq (List.mem_singleton.mp hk).symm)

/-- Memory that is allocated is owned, and other memory stays. -/
theorem malloc_rule (junk : α) (n : Nat) (h : Heap α) :
    Returns (malloc junk n) h fun q h' => ∃ k, q = ⟨k, 0⟩ ∧ h'.Own k (List.replicate n junk) ∧ Frame [] [k] h h' :=
  ⟨_, _, rfl, _, rfl, Heap.chunk_push_new h _, push_frame h _⟩

/-- A file that is mapped is shared memory. -/
theorem mmap_rule (file : Nat) (cells : List α) (h : Heap α) :
    Returns (mmap file cells) h fun q h' => ∃ k, q = ⟨k, 0⟩ ∧ h'.chunk k = some ⟨cells, some file⟩ ∧ Frame [] [] h h' :=
  ⟨_, _, rfl, _, rfl, Heap.chunk_push_new h _, (push_frame h _).drop (by simp)⟩

/-- Where nothing is refused. -/
theorem tryMalloc_rule (junk : α) (n : Nat) (hw : h.Willing) :
    Returns (tryMalloc junk n) h fun r h' =>
      ∃ k, r = some ⟨k, 0⟩ ∧ h'.Own k (List.replicate n junk) ∧ Frame [] [k] h h' := by
  have hhead : h.answers.headD true = true := by
    cases hans : h.answers with
    | nil => rfl
    | cons a as =>
      cases a with
      | true => rfl
      | false => exact absurd (by simp [hans]) hw
  obtain ⟨h₁, hh₁⟩ : ∃ h₁ : Heap α, h₁ = { h with answers := h.answers.tail } := ⟨_, rfl⟩
  have hframe := push_frame h₁ ⟨List.replicate n junk, none⟩
  have hnew := Heap.chunk_push_new h₁ ⟨List.replicate n junk, none⟩
  refine ⟨some ⟨h₁.chunks.length, 0⟩, h₁.push ⟨List.replicate n junk, none⟩, ?_, _, rfl, hnew, ?_⟩
  · simp only [tryMalloc, hhead, if_true, hh₁]
  · rw [hh₁] at hframe ⊢
    exact ⟨hframe.grows, hframe.kept, hframe.mapped, hframe.fresh, fun _ hin => hw (List.mem_of_mem_tail hin)⟩

/-- Memory that is freed is owned no more. -/
theorem free_rule {k : Nat} {cells : List α} (ho : h.Own k cells) : Returns (free ⟨k, 0⟩) h fun _ h' => Frame [k] [] h h' :=
  ⟨(), h.set k none, by simp only [free, ho.writable, if_true], (set_frame ho none).drop (by simp)⟩

/-- Memory that is made longer or shorter is at another address. -/
theorem realloc_rule (junk : α) {k : Nat} {cells : List α} (ho : h.Own k cells) (n : Nat) :
    Returns (realloc junk ⟨k, 0⟩ n) h fun q h' =>
      ∃ i, q = ⟨i, 0⟩ ∧ h'.Own i (Block.realloc junk cells n) ∧ Frame [k] [i] h h' := by
  have hlen : (h.set k none).chunks.length = h.chunks.length := Heap.length_set h _ _
  have hframe := ((set_frame ho none).drop (by simp)).trans (push_frame (h.set k none) ⟨Block.realloc junk cells n, none⟩)
  have hnew := Heap.chunk_push_new (h.set k none) ⟨Block.realloc junk cells n, none⟩
  rw [hlen] at hframe hnew
  exact ⟨⟨h.chunks.length, 0⟩, _, by simp only [realloc, ho.writable, if_true], _, rfl, hnew, hframe⟩

end Rules

end Memory
