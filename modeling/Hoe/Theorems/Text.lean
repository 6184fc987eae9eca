import Hoe.Lemmas.History

/-!
# The text of a buffer is a list of bytes

Any sequence of the five functions of the buffer layer, on any number of buffers that start empty or freshly mapped: the pages
of each buffer are the list the splices make of it, a read returns its slice, and the representation stays well formed.
-/

namespace Hoe

open Splice

/-! ## Sessions -/

/-- The buffers of a session, by number. -/
abbrev Buffers := Nat → EditBuffer

/-- A call of the buffer layer. -/
inductive Call where
  | insert (b offset : Nat) (buf : List Byte)
  | delete (b offset size : Nat)
  | write (b offset : Nat) (buf : List Byte)
  | read (b offset size : Nat)
  | insertBuffer (dest destOffset src srcOffset size : Nat)
deriving DecidableEq, Repr

/-- The call on the buffers; what it reads comes back. -/
def Call.run (σ : Buffers) : Call → Buffers × List Byte
  | insert b offset buf => (Function.update σ b (ebInsert (σ b) offset buf), [])
  | delete b offset size => (Function.update σ b (ebDelete (σ b) offset size), [])
  | write b offset buf => (Function.update σ b (ebWrite (σ b) offset buf), [])
  | read b offset size =>
    let (t, bs) := ebRead (σ b).toPages offset size
    (Function.update σ b { σ b with toPages := t }, bs)
  | insertBuffer dest destOffset src srcOffset size =>
    let (d, t) := ebInsertBuffer (σ dest) destOffset (σ src).toPages srcOffset size
    (Function.update (Function.update σ src { σ src with toPages := t }) dest d, [])

/-- What the call does to the texts: the splice it stands for. -/
def Call.splice (τ : Nat → List Byte) : Call → (Nat → List Byte) × List Byte
  | insert b offset buf => (Function.update τ b (insertAt (τ b) offset buf), [])
  | delete b offset size => (Function.update τ b (removeAt (τ b) offset size), [])
  | write b offset buf => (Function.update τ b (overwriteAt (τ b) offset buf), [])
  | read b offset size => (τ, slice (τ b) offset size)
  | insertBuffer dest destOffset src srcOffset size =>
    (Function.update τ dest (insertAt (τ dest) destOffset (slice (τ src) srcOffset size)), [])

/-- What a caller promises. -/
def Call.Allowed (τ : Nat → List Byte) : Call → Prop
  | insert b offset _ => offset ≤ (τ b).length
  | delete b offset size => offset + size ≤ (τ b).length
  | write b offset _ => offset ≤ (τ b).length
  | read b offset _ => offset ≤ (τ b).length
  | insertBuffer dest destOffset src srcOffset size =>
    dest ≠ src ∧ destOffset ≤ (τ dest).length ∧ srcOffset + size ≤ (τ src).length

instance (τ : Nat → List Byte) (c : Call) : Decidable (c.Allowed τ) := by
  cases c <;> unfold Call.Allowed <;> infer_instance

/-- A sequence of calls on the buffers, with what each of them reads. -/
def runCalls (σ : Buffers) : List Call → Buffers × List (List Byte)
  | [] => (σ, [])
  | c :: cs =>
    let (σ, bs) := c.run σ
    let (σ, out) := runCalls σ cs
    (σ, bs :: out)

/-- The same sequence on the texts. -/
def spliceCalls (τ : Nat → List Byte) : List Call → (Nat → List Byte) × List (List Byte)
  | [] => (τ, [])
  | c :: cs =>
    let (τ, bs) := c.splice τ
    let (τ, out) := spliceCalls τ cs
    (τ, bs :: out)

/-- Every call of the sequence is allowed where it is made. -/
def AllAllowed (τ : Nat → List Byte) : List Call → Prop
  | [] => True
  | c :: cs => c.Allowed τ ∧ AllAllowed (c.splice τ).1 cs

/-- A buffer that is empty or has just been mapped. -/
def EditBuffer.Fresh (b : EditBuffer) : Prop :=
  ∃ saveLog, b = EditBuffer.new saveLog ∨ ∃ ino file, b = mmapBuffer (EditBuffer.new saveLog) ino file

theorem EditBuffer.Fresh.stands {b : EditBuffer} (h : b.Fresh) : ∃ d, Stands b d := by
  obtain ⟨saveLog, rfl | ⟨ino, file, rfl⟩⟩ := h
  · exact ⟨_, new_stands saveLog⟩
  · exact ⟨_, mmapBuffer_stands (new_stands saveLog) rfl rfl ino file⟩

/-! ## Runs -/

/-- Every buffer stands for a document with its text. -/
def Represents (σ : Buffers) (τ : Nat → List Byte) : Prop := ∀ i, ∃ d, Stands (σ i) d ∧ d.text = τ i

/-- One buffer changes. -/
theorem Represents.update {σ : Buffers} {τ : Nat → List Byte} (h : Represents σ τ) (i : Nat) {b : EditBuffer} {d : Doc}
    (hb : Stands b d) {text : List Byte} (ht : d.text = text) :
    Represents (Function.update σ i b) (Function.update τ i text) := by
  intro j
  by_cases hj : j = i
  · subst hj
    exact ⟨d, by simpa using hb, by simpa using ht⟩
  · simpa [hj] using h j

/-- One buffer changes in its page cache only. -/
theorem Represents.cache {σ : Buffers} {τ : Nat → List Byte} (h : Represents σ τ) (i : Nat) {t : Pages} (ht : t.Ok)
    (hb : t.bytes = τ i) : Represents (Function.update σ i { σ i with toPages := t }) τ := by
  obtain ⟨d, hd, hdt⟩ := h i
  have := h.update i (hd.toHeld.standsText ht hb) rfl
  rwa [Function.update_eq_self] at this

/-- One call keeps the buffers and the texts together, and reads what the texts say. -/
theorem Call.run_represents {σ : Buffers} {τ : Nat → List Byte} (h : Represents σ τ) {c : Call} (hc : c.Allowed τ) :
    Represents (c.run σ).1 (c.splice τ).1 ∧ (c.run σ).2 = (c.splice τ).2 := by
  cases c with
  | insert b offset buf =>
    obtain ⟨d, hd, hdt⟩ := h b
    exact ⟨h.update b (ebInsert_stands hd (by rw [hdt]; exact hc) buf) (by rw [Doc.insert, hdt]), rfl⟩
  | delete b offset size =>
    obtain ⟨d, hd, hdt⟩ := h b
    have hfit : offset + size ≤ d.text.length := by rw [hdt]; exact hc
    refine ⟨h.update b (ebDelete_stands hd offset size (fun _ => hfit)) ?_, rfl⟩
    rw [Doc.delete, ← hdt]
    split
    · rw [removeAt, List.take_of_length_le (by omega), List.drop_of_length_le (by omega), List.append_nil]
    · rfl
  | write b offset buf =>
    obtain ⟨d, hd, hdt⟩ := h b
    have ho : offset ≤ d.text.length := by rw [hdt]; exact hc
    exact ⟨h.update b (ebWrite_stands hd buf ho) (by rw [Doc.write_text d buf ho, hdt]), rfl⟩
  | read b offset size =>
    obtain ⟨d, hd, hdt⟩ := h b
    obtain ⟨t, h1, h2, h3, -, -⟩ := ebRead_spec hd.ok size
      (show offset ≤ (σ b).totalSize by rw [hd.total, hdt]; exact hc)
    have hb : t.bytes = (σ b).bytes := congrArg tableBytes h3
    simp only [Call.run, Call.splice, h1]
    exact ⟨h.cache b h2 (by rw [hb, hd.text, hdt]), by rw [hd.text, hdt]⟩
  | insertBuffer dest destOffset src srcOffset size =>
    obtain ⟨hne, ho, hs⟩ := hc
    obtain ⟨d, hd, hdt⟩ := h dest
    obtain ⟨s, hsrc, hst⟩ := h src
    obtain ⟨i1, i2, i3⟩ := ebInsertBuffer_stands hd hsrc.ok destOffset srcOffset size
      (by rw [hdt]; exact ho) (by rw [hsrc.total, hst]; exact hs)
    refine ⟨(h.cache src i2 (by rw [i3, hsrc.text, hst])).update dest i1 ?_, rfl⟩
    rw [Doc.insertBlock, hsrc.text, hst, ← hdt]
    split
    · rename_i hnil
      rw [hnil]
      simp [insertAt]
    · rfl

/-- A sequence of calls keeps the buffers and the texts together. -/
theorem runCalls_represents {σ : Buffers} {τ : Nat → List Byte} (h : Represents σ τ) {cs : List Call}
    (hcs : AllAllowed τ cs) :
    Represents (runCalls σ cs).1 (spliceCalls τ cs).1 ∧ (runCalls σ cs).2 = (spliceCalls τ cs).2 := by
  induction cs generalizing σ τ with
  | nil => exact ⟨h, rfl⟩
  | cons c cs ih =>
    obtain ⟨h1, h2⟩ := Call.run_represents h hcs.1
    obtain ⟨i1, i2⟩ := ih h1 hcs.2
    exact ⟨i1, by simp only [runCalls, spliceCalls, h2, i2]⟩

/-- Over any sequence of calls on fresh buffers, each of them allowed: the texts are those the splices make, every read returns
its slice, and every buffer is well formed. -/
theorem runCalls_splices {σ : Buffers} (hσ : ∀ i, (σ i).Fresh) {cs : List Call} (hcs : AllAllowed (fun i => (σ i).bytes) cs) :
    (∀ i, ((runCalls σ cs).1 i).bytes = (spliceCalls (fun i => (σ i).bytes) cs).1 i) ∧
      (runCalls σ cs).2 = (spliceCalls (fun i => (σ i).bytes) cs).2 ∧ ∀ i, ((runCalls σ cs).1 i).toPages.Ok := by
  have hrep : Represents σ (fun i => (σ i).bytes) := by
    intro i
    obtain ⟨d, hd⟩ := (hσ i).stands
    exact ⟨d, hd, hd.text.symm⟩
  obtain ⟨h1, h2⟩ := runCalls_represents hrep hcs
  refine ⟨fun i => ?_, h2, fun i => ?_⟩
  · obtain ⟨d, hd, hdt⟩ := h1 i
    rw [hd.text, hdt]
  · obtain ⟨d, hd, -⟩ := h1 i
    exact hd.ok

/-- A write over the end of an empty buffer that keeps a log, a copy into a mapped one, and a read. -/
theorem runCalls_splices_session :
    let σ : Buffers := fun i => if i = 0 then EditBuffer.new true else mmapBuffer (EditBuffer.new false) 7 [1, 2, 3]
    let cs : List Call := [.write 0 0 [10, 11], .write 0 1 [20, 21], .insertBuffer 1 2 0 0 3, .delete 1 0 1, .read 1 0 9]
    (runCalls σ cs).2 = [[], [], [], [], [2, 10, 20, 21, 3]] ∧ ∀ i, ((runCalls σ cs).1 i).toPages.Ok := by
  intro σ cs
  have hσ : ∀ i, (σ i).Fresh := by
    intro i
    by_cases hi : i = 0
    · exact ⟨true, Or.inl (by simp [σ, hi])⟩
    · exact ⟨false, Or.inr ⟨7, [1, 2, 3], by simp [σ, hi]⟩⟩
  have hcs : AllAllowed (fun i => (σ i).bytes) cs := by
    refine ⟨?_, ?_, ?_, ?_, ?_, trivial⟩ <;> decide
  obtain ⟨-, h2, h3⟩ := runCalls_splices hσ hcs
  exact ⟨h2.trans (by decide), h3⟩

end Hoe
