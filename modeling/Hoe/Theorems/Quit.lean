import Hoe.Quit
import Hoe.Save

/-!
# When quitting loses nothing

The dialogue keeps track of the buffers that the user chose not to save, and asks before it exits then. It does not look at what
`save_buffer` returns: it exits without that question although a save failed. So nothing is lost exactly when the answers do not
ask for a save of every modified buffer, or all these saves succeed.
-/

namespace Hoe

namespace ListedBuffer

/-- The buffer is one that could be lost, and is not saved. -/
def Unsaved (b : ListedBuffer) : Prop := b.system = false ∧ b.filename ≠ [] ∧ b.buffer.modified = true

/-- `save_buffer` succeeds. -/
def SaveSucceeds (b : ListedBuffer) : Prop := ∃ ret ∈ b.bufferSave, 0 ≤ ret

/-- `quit` asks about the buffers that are visited, modified and no system buffers. -/
theorem asks_iff {b : ListedBuffer} : b.asks = true ↔ b.Unsaved := by
  simp [asks, Unsaved, and_assoc]

/-- A save that fails leaves the buffer as it is. -/
theorem save_failed {b : ListedBuffer} (h : ¬b.SaveSucceeds) : b.save.1 = b := by
  unfold save
  cases hs : b.bufferSave with
  | none => rfl
  | some ret =>
    have hneg : ret < 0 := by
      by_contra hge
      exact h ⟨ret, hs, by omega⟩
    simp only [if_pos hneg]

/-- A save that succeeds ends as `save_final` does. -/
theorem save_succeeded {b : ListedBuffer} (h : b.SaveSucceeds) : b.save.1 = { b with buffer := finishSave b.buffer } := by
  obtain ⟨ret, hs, hge⟩ := h
  rw [Option.mem_def] at hs
  simp only [save, hs, if_neg (by omega : ¬ret < 0)]

/-- Whether a buffer is left unsaved by its save. -/
theorem unsaved_save_iff {b : ListedBuffer} (h : b.Unsaved) : b.save.1.Unsaved ↔ ¬b.SaveSucceeds := by
  by_cases hs : b.SaveSucceeds
  · rw [save_succeeded hs]
    exact iff_of_false (fun h' => Bool.false_ne_true h'.2.2) (fun h' => h' hs)
  · rw [save_failed hs]
    exact iff_of_true h hs

end ListedBuffer

/-- Where the dialogue exits without the last question, no buffer is left unsaved. -/
def QuitSafe (bs : List ListedBuffer) (is : List QuitInput) : Prop :=
  ∀ bs', (doQuit bs).steps is = .exited false bs' → ∀ b ∈ bs', ¬b.Unsaved

/-- The answers ask for a save of each of `n` buffers: yes for each, or yes to all after some, or yes and exit for the last.
Other keys are not answers; no and quit are none of these. -/
def AnswersSave : Nat → List QuitInput → Prop
  | 0, _ => True
  | _ + 1, [] => False
  | n + 1, .reply _ :: is => AnswersSave (n + 1) is
  | n + 1, .key ch :: is =>
    if ch = 'y'.toNat ∨ ch = ' '.toNat then AnswersSave n is
    else if ch = '!'.toNat then True
    else if ch = '.'.toNat then n = 0
    else if ch = 'n'.toNat ∨ ch = keyDelete ∨ ch = 'q'.toNat ∨ ch = keyRet ∨ ch = keyCtrlG then False
    else AnswersSave (n + 1) is

/-! ## Where the dialogue goes -/

/-- What all the saves make of the buffers. -/
def savedAll (bs : List ListedBuffer) : List ListedBuffer := bs.map fun b => if b.asks then b.save.1 else b

/-- A buffer without changes is passed. -/
theorem quitExamineBuffers_quiet {b : ListedBuffer} (h : b.asks = false) (state : QuitMode) (modified : Bool)
    (passed next : List ListedBuffer) :
    quitExamineBuffers state modified passed (b :: next) = quitExamineBuffers state modified (passed ++ [b]) next := by
  rw [quitExamineBuffers.eq_def]
  simp [h]

/-- With changes it is asked about, or saved. -/
theorem quitExamineBuffers_asks {b : ListedBuffer} (h : b.asks = true) (state : QuitMode) (modified : Bool)
    (passed next : List ListedBuffer) :
    quitExamineBuffers state modified passed (b :: next) =
      match state with
      | .ask => .waiting { state := state, modified := modified, passed := passed, b := b, next := next }
      | .nosave => quitExamineBuffers state true (passed ++ [b]) next
      | .save => quitExamineBuffers state modified (passed ++ [b.save.1]) next := by
  rw [quitExamineBuffers.eq_def]
  cases state <;> simp [h]

/-- The buffers with nothing to ask about are passed. -/
theorem quitExamineBuffers_pass (state : QuitMode) (modified : Bool) {pre : List ListedBuffer} (h : ∀ b ∈ pre, b.asks = false)
    (passed bs : List ListedBuffer) :
    quitExamineBuffers state modified passed (pre ++ bs) = quitExamineBuffers state modified (passed ++ pre) bs := by
  induction pre generalizing passed with
  | nil => simp
  | cons b pre ih =>
    obtain ⟨hb, hpre⟩ := List.forall_mem_cons.mp h
    rw [List.cons_append, quitExamineBuffers_quiet hb, ih hpre]
    simp

/-- When all are to be saved, all of them are, and the editor is left. -/
theorem quitExamineBuffers_save (passed bs : List ListedBuffer) :
    quitExamineBuffers .save false passed bs = .exited false (passed ++ savedAll bs) := by
  induction bs generalizing passed with
  | nil => simp [quitExamineBuffers, savedAll]
  | cons b bs ih =>
    cases hb : b.asks with
    | false => simp [quitExamineBuffers_quiet hb, ih, savedAll, hb]
    | true => simp [quitExamineBuffers_asks hb, ih, savedAll, hb]

/-- The dialogue knows of a buffer that is left unsaved, so it does not exit without the last question. -/
def Quit.Marked : Quit → Prop
  | .waiting qs => qs.modified = true
  | .exited confirmed _ => confirmed = true
  | _ => True

/-- Once a buffer was left unsaved, this is known up to the end. -/
theorem marked_examine (state : QuitMode) (passed bs : List ListedBuffer) : (quitExamineBuffers state true passed bs).Marked := by
  induction bs generalizing passed with
  | nil => trivial
  | cons b bs ih =>
    cases hb : b.asks with
    | false =>
      rw [quitExamineBuffers_quiet hb]
      exact ih _
    | true =>
      rw [quitExamineBuffers_asks hb]
      cases state with
      | ask => rfl
      | nosave => exact ih _
      | save => exact ih _

theorem Quit.Marked.step {q : Quit} (h : q.Marked) (i : QuitInput) : (q.step i).Marked := by
  cases q with
  | waiting qs =>
    cases i with
    | reply reply => exact h
    | key ch =>
      have hm : qs.modified = true := h
      simp only [Quit.step, quitKey, hm]
      repeat' split
      all_goals first | exact marked_examine _ _ _ | trivial
  | confirming bs =>
    cases i with
    | key ch => trivial
    | reply reply =>
      unfold Quit.step quitConfirmCb
      cases reply with
      | none => trivial
      | some reply =>
        simp only
        split
        · rfl
        · trivial
  | exited confirmed bs => exact h
  | ended bs => trivial

/-- So the editor is not left without the last question. -/
theorem Quit.Marked.steps {q : Quit} (h : q.Marked) (is : List QuitInput) (bs : List ListedBuffer) :
    q.steps is ≠ .exited false bs := by
  induction is generalizing q with
  | nil =>
    rintro rfl
    cases h
  | cons i is ih => exact ih (h.step i)

/-- Nothing follows when the editor was left. -/
theorem steps_exited (confirmed : Bool) (bs : List ListedBuffer) (is : List QuitInput) :
    (Quit.exited confirmed bs).steps is = .exited confirmed bs := by
  induction is with
  | nil => rfl
  | cons i is ih => cases i <;> exact ih

/-- The first buffer that the dialogue asks about. -/
theorem exists_asks (bs : List ListedBuffer) :
    (∀ b ∈ bs, b.asks = false) ∨ ∃ pre b next, bs = pre ++ b :: next ∧ (∀ c ∈ pre, c.asks = false) ∧ b.asks = true := by
  induction bs with
  | nil => exact Or.inl (by simp)
  | cons b bs ih =>
    cases hb : b.asks with
    | true => exact Or.inr ⟨[], b, bs, rfl, by simp, hb⟩
    | false =>
      rcases ih with h | ⟨pre, c, next, rfl, hpre, hc⟩
      · exact Or.inl (List.forall_mem_cons.mpr ⟨hb, h⟩)
      · exact Or.inr ⟨b :: pre, c, next, rfl, List.forall_mem_cons.mpr ⟨hb, hpre⟩, hc⟩

/-- Without changes there is nothing to save. -/
theorem savedAll_quiet {bs : List ListedBuffer} (h : ∀ b ∈ bs, b.asks = false) : savedAll bs = bs := by
  unfold savedAll
  conv_rhs => rw [← List.map_id bs]
  exact List.map_congr_left fun b hb => by simp [h b hb]

/-- The first buffer with changes is saved, and then those behind it. -/
theorem savedAll_cut {pre next : List ListedBuffer} {b : ListedBuffer} (hpre : ∀ c ∈ pre, c.asks = false) (hb : b.asks = true) :
    savedAll (pre ++ b :: next) = pre ++ b.save.1 :: savedAll next := by
  have hp := savedAll_quiet hpre
  unfold savedAll at hp ⊢
  rw [List.map_append, List.map_cons, hp, if_pos hb]

/-- Without changes the editor is left at once. -/
theorem quitExamineBuffers_quiet_all {bs : List ListedBuffer} (h : ∀ b ∈ bs, b.asks = false) (state : QuitMode)
    (passed : List ListedBuffer) : quitExamineBuffers state false passed bs = .exited false (passed ++ bs) := by
  have := quitExamineBuffers_pass state false h passed []
  rwa [List.append_nil] at this

/-- In the mode that asks no more and saves no more, the dialogue exits when there is nothing more to ask about. -/
theorem steps_nosave {bs bs' passed : List ListedBuffer} {is : List QuitInput} :
    (quitExamineBuffers .nosave false passed bs).steps is = .exited false bs' ↔
      (∀ b ∈ bs, b.asks = false) ∧ bs' = passed ++ bs := by
  rcases exists_asks bs with h | ⟨pre, b, next, rfl, hpre, hb⟩
  · rw [quitExamineBuffers_quiet_all h, steps_exited]
    constructor
    · intro heq
      cases heq
      exact ⟨h, rfl⟩
    · rintro ⟨-, rfl⟩
      rfl
  · rw [quitExamineBuffers_pass _ _ hpre, quitExamineBuffers_asks hb]
    refine iff_of_false ((marked_examine _ _ _).steps is bs') ?_
    rintro ⟨h, -⟩
    rw [h b (by simp)] at hb
    cases hb

theorem countP_asks_quiet {bs : List ListedBuffer} (h : ∀ b ∈ bs, b.asks = false) : bs.countP ListedBuffer.asks = 0 :=
  List.countP_eq_zero.mpr fun b hb => by simp [h b hb]

/-- There are as many questions as buffers with changes. -/
theorem countP_asks_cut {pre : List ListedBuffer} {b : ListedBuffer} (hpre : ∀ c ∈ pre, c.asks = false)
    (hb : b.asks = true) (next : List ListedBuffer) : (pre ++ b :: next).countP ListedBuffer.asks = next.countP ListedBuffer.asks + 1 := by
  rw [List.countP_append, countP_asks_quiet hpre, List.countP_cons_of_pos hb, Nat.zero_add]

theorem answersSave_zero (is : List QuitInput) : AnswersSave 0 is := by
  cases is <;> trivial

/-- With nothing to ask about the dialogue exits at once. -/
theorem steps_ask_quiet {bs : List ListedBuffer} (h : ∀ b ∈ bs, b.asks = false) (is : List QuitInput)
    (passed bs' : List ListedBuffer) :
    (quitExamineBuffers .ask false passed bs).steps is = .exited false bs' ↔
      AnswersSave (bs.countP ListedBuffer.asks) is ∧ bs' = passed ++ savedAll bs := by
  rw [quitExamineBuffers_quiet_all h, steps_exited, countP_asks_quiet h, savedAll_quiet h]
  constructor
  · intro heq
    cases heq
    exact ⟨answersSave_zero is, rfl⟩
  · rintro ⟨-, rfl⟩
    rfl

/-- The dialogue exits without the last question exactly when the answers ask for all saves, and then has made them. -/
theorem steps_ask (is : List QuitInput) (passed bs bs' : List ListedBuffer) :
    (quitExamineBuffers .ask false passed bs).steps is = .exited false bs' ↔
      AnswersSave (bs.countP ListedBuffer.asks) is ∧ bs' = passed ++ savedAll bs := by
  induction is generalizing passed bs with
  | nil =>
    rcases exists_asks bs with h | ⟨pre, b, next, rfl, hpre, hb⟩
    · exact steps_ask_quiet h [] passed bs'
    · rw [quitExamineBuffers_pass _ _ hpre, quitExamineBuffers_asks hb, countP_asks_cut hpre hb]
      exact iff_of_false (fun h => by cases h) (fun h => h.1)
  | cons i is ih =>
    rcases exists_asks bs with h | ⟨pre, b, next, rfl, hpre, hb⟩
    · exact steps_ask_quiet h (i :: is) passed bs'
    · have hcount := countP_asks_cut hpre hb next
      have hwait := (quitExamineBuffers_pass _ _ hpre passed (b :: next)).trans
        (quitExamineBuffers_asks hb .ask false (passed ++ pre) next)
      have hsame := ih passed (pre ++ b :: next)
      rw [hwait] at hsame ⊢
      rw [hcount, savedAll_cut hpre hb] at hsame ⊢
      cases i with
      | reply reply => exact hsame
      | key ch =>
        have hsaved (bs : List ListedBuffer) : passed ++ pre ++ [b.save.1] ++ bs = passed ++ (pre ++ b.save.1 :: bs) := by simp
        have hmarked {q : Quit} (hq : q.Marked) {p : Prop} (hp : p → False) :
            q.steps is = .exited false bs' ↔ p ∧ bs' = passed ++ (pre ++ b.save.1 :: savedAll next) :=
          iff_of_false (hq.steps is bs') (fun h => hp h.1)
        rw [AnswersSave, Quit.steps, Quit.step, quitKey]
        by_cases hy : ch = 'y'.toNat ∨ ch = ' '.toNat
        · rw [if_pos hy, if_pos hy, ← hsaved]
          exact ih (passed ++ pre ++ [b.save.1]) next
        rw [if_neg hy, if_neg hy]
        by_cases hall : ch = '!'.toNat
        · subst hall
          rw [if_neg (by decide), if_neg (by decide), if_pos rfl, if_pos rfl, quitExamineBuffers_save, steps_exited, hsaved]
          simp [eq_comm]
        by_cases hexit : ch = '.'.toNat
        · subst hexit
          rw [if_neg (by decide), if_neg (by decide), if_neg (by decide), if_pos rfl, if_neg (by decide), if_pos rfl, steps_nosave,
            hsaved]
          constructor
          · rintro ⟨h, rfl⟩
            exact ⟨countP_asks_quiet h, by rw [savedAll_quiet h]⟩
          · rintro ⟨h, rfl⟩
            have hquiet : ∀ c ∈ next, c.asks = false := fun c hc => by simpa using List.countP_eq_zero.mp h c hc
            exact ⟨hquiet, by rw [savedAll_quiet hquiet]⟩
        rw [if_neg hall, if_neg hall, if_neg hexit, if_neg hexit]
        by_cases hno : ch = 'n'.toNat ∨ ch = keyDelete
        · rw [if_pos hno, if_pos (by tauto)]
          exact hmarked (marked_examine _ _ _) id
        by_cases hquit : ch = 'q'.toNat ∨ ch = keyRet
        · rw [if_neg hno, if_pos hquit, if_pos (by tauto)]
          exact hmarked (marked_examine _ _ _) id
        rw [if_neg hno, if_neg hquit]
        by_cases habort : ch = keyCtrlG
        · rw [if_pos habort, if_pos (by tauto)]
          exact hmarked (q := .ended _) trivial id
        · rw [if_neg habort, if_neg (by tauto)]
          exact hsame

/-- The dialogue exits without the last question and leaves a buffer unsaved exactly when the answers ask for all saves and one of
them fails. -/
theorem quitSafe_iff (bs : List ListedBuffer) (is : List QuitInput) :
    QuitSafe bs is ↔
      (AnswersSave (bs.countP ListedBuffer.asks) is → ∀ b ∈ bs, b.asks = true → b.SaveSucceeds) := by
  unfold QuitSafe doQuit
  simp only [steps_ask, List.nil_append, and_imp]
  constructor
  · intro h hall b hb hasks
    have hunsaved := ListedBuffer.asks_iff.mp hasks
    by_contra hs
    refine h _ hall rfl _ (List.mem_map_of_mem hb) ?_
    rw [if_pos hasks]
    exact (ListedBuffer.unsaved_save_iff hunsaved).mpr hs
  · rintro h bs' hall rfl b' hb'
    obtain ⟨b, hb, rfl⟩ := List.mem_map.mp hb'
    cases hasks : b.asks with
    | false =>
      rw [if_neg (by simp), ← ListedBuffer.asks_iff, hasks]
      exact Bool.false_ne_true
    | true =>
      rw [if_pos rfl, ListedBuffer.unsaved_save_iff (ListedBuffer.asks_iff.mp hasks), not_not]
      exact h hall b hb hasks

/-- One modified buffer of one byte. -/
def oneModified (bufferSave : Option Int) : List ListedBuffer :=
  [{ buffer := ebInsert (EditBuffer.new true) 0 [0x61], system := false, filename := [0x66], bufferSave := bufferSave }]

/-- Yes, and the save succeeds. -/
theorem quitSafe_saved : QuitSafe (oneModified (some 0)) [.key 'y'.toNat] :=
  (quitSafe_iff _ _).mpr fun _ b hb _ => by
    rw [List.mem_singleton.mp hb]
    exact ⟨0, rfl, Int.le_refl 0⟩

/-- Yes, and the save fails: the dialogue exits, and the buffer is modified. -/
theorem not_quitSafe_failed : ¬∀ bs is, QuitSafe bs is := by
  intro h
  have hsafe := h (oneModified (some (-1))) [.key 'y'.toNat] (oneModified (some (-1))) rfl _ (List.mem_singleton_self _)
  exact hsafe (ListedBuffer.asks_iff.mp rfl)

end Hoe
